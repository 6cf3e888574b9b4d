import StagedCodegen.Proofs.FirstOccurrences
import StagedCodegen.Proofs.Schedule.Fragments

/-!
# The account of an ordering

What is counted while places are given out. A degree is counted down once for each link that is
released, and there is one link for each key that is depended on and each registration under it. No
link is there twice (`nodup_links`), since each dependency is taken once and each registration has
one key; so a degree is a number of registrations (`waiting_eq_openDependencies`).

Between two rounds the account is `Progress.Sound`. Within a round it is ahead of the order, but
whoever is about to be released still waits for somebody, and so is not ready
(`Progress.Sound.releasing`). Hence nobody becomes ready twice: those who ever became ready are
those who have a place and those who are ready now (`Progress.Sound.entries_perm`).

Main statement: `progress_keeps_account`.
-/

namespace StagedCodegen

namespace Schedule

variable {fs : List FragmentEntry} {f : FragmentEntry} {i j k : Nat}

/-! ## Each waits for each once -/

/-- Among those who run, an index has one registration. -/
theorem eq_of_mem_active {a b : FragmentEntry × Nat} (ha : a ∈ active fs) (hb : b ∈ active fs)
    (h : a.2 = b.2) : a = b := by
  obtain ⟨f, i⟩ := a
  obtain ⟨g, j⟩ := b
  obtain rfl : i = j := h
  have hfg : some f = some g := (mem_active.1 ha).1.symm.trans (mem_active.1 hb).1
  rw [Option.some.inj hfg]

/-- No registration waits twice for another. -/
theorem nodup_links (fs : List FragmentEntry) : (links (active fs)).Nodup := by
  refine List.nodup_flatMap.2 ⟨fun e _ => List.nodup_flatMap.2 ⟨fun d _ => ?_, ?_⟩, ?_⟩
  · refine List.pairwise_map.2 (((active_sorted fs).sublist List.filter_sublist).imp ?_)
    intro u v hlt heq
    exact absurd (congrArg Prod.fst heq) (Nat.ne_of_lt hlt)
  · -- whoever is linked by two dependencies has them both as its key
    refine (nodup_eraseDups _).imp fun {d d'} hne l hl hl' => hne ?_
    obtain ⟨u, hu, rfl⟩ := List.mem_map.1 hl
    obtain ⟨v, hv, heq⟩ := List.mem_map.1 hl'
    rw [List.mem_filter, decide_eq_true_eq] at hu hv
    obtain rfl := eq_of_mem_active hv.1 hu.1 (congrArg Prod.fst heq)
    exact hu.2.symm.trans hv.2
  · refine (active_sorted fs).imp fun {a b} hlt l hl hl' => ?_
    obtain ⟨d, -, hl⟩ := List.mem_flatMap.1 hl
    obtain ⟨d', -, hl'⟩ := List.mem_flatMap.1 hl'
    obtain ⟨u, -, rfl⟩ := List.mem_map.1 hl
    obtain ⟨v, -, heq⟩ := List.mem_map.1 hl'
    exact absurd (congrArg Prod.snd heq).symm (Nat.ne_of_lt hlt)

/-- The number of those who run, have no place in `order`, and have a key on which `f` depends. -/
def openDependencies (fs : List FragmentEntry) (order : List Nat) (f : FragmentEntry) : Nat :=
  (active fs).countP fun e => e.2 ∉ order ∧ e.1.key ∈ f.dependsOn

/-- The links that a registration waits for are as many as the registrations it waits for. -/
theorem waiting_eq_openDependencies (hf : Runs fs j f) (order : List Nat) :
    waiting (links (active fs)) order j = openDependencies fs order f := by
  have hlinks : (((links (active fs)).filter fun l => l.2 = j ∧ l.1 ∉ order).map
      (·.1)).Nodup := by
    refine List.Nodup.map_on ?_ ((nodup_links fs).filter _)
    intro l hl l' hl' heq
    rw [List.mem_filter, decide_eq_true_eq] at hl hl'
    exact Prod.ext heq (hl.2.1.trans hl'.2.1.symm)
  have hactive : (((active fs).filter fun e => e.2 ∉ order ∧ e.1.key ∈ f.dependsOn).map
      (·.2)).Nodup :=
    List.pairwise_map.2 (((active_sorted fs).sublist List.filter_sublist).imp Nat.ne_of_lt)
  have hperm := (List.perm_ext_iff_of_nodup hlinks hactive).2 fun i => by
    simp only [List.mem_map, List.mem_filter, decide_eq_true_eq, Prod.exists, exists_and_right,
      exists_eq_right]
    constructor
    · rintro ⟨j', hl, rfl, hi⟩
      obtain ⟨u, g, hu, hg, hd⟩ := mem_links.1 hl
      obtain rfl : g = f := Option.some.inj (hg.1.symm.trans hf.1)
      exact ⟨u, mem_active.2 hu, hi, hd⟩
    · rintro ⟨u, hu, hi, hd⟩
      exact ⟨j, mem_links.2 ⟨u, f, mem_active.1 hu, hf, hd⟩, rfl, hi⟩
  have hlength := hperm.length_eq
  rw [List.length_map, List.length_map] at hlength
  rw [waiting, openDependencies, List.countP_eq_length_filter, List.countP_eq_length_filter,
    hlength]

/-! ## Within a round -/

namespace Progress

variable {n : Nat} {nodes rest before after js : List Nat} {links : List (Nat × Nat)}
  {p : Progress}

/-- How far the ordering has come within a round: `i` has got its place, which leaves `rest` ready,
and those in `js` were released. -/
def releasing (p : Progress) (i : Nat) (rest js : List Nat) : Progress :=
  js.foldl release { p with ready := rest, order := p.order ++ [i] }

/-- Whoever is about to be released waits for somebody, is not ready and has no place. -/
theorem Sound.releasing (hlinks : Linked n nodes links) (h : Sound n nodes links p)
    (hready : p.ready = i :: rest) (hsplit : waitingFor links i = before ++ j :: after) :
    (∃ d, (p.releasing i rest before).degrees[j]? = some (d + 1)) ∧
      j ∉ (p.releasing i rest before).ready ∧ j ∉ (p.releasing i rest before).order := by
  obtain ⟨-, hplace, -⟩ := h.head hready
  have hcount : ∀ x, before.count x ≤ waiting links p.order x := by
    intro x
    have hsum := waiting_append links hplace x
    rw [hsplit, List.count_append] at hsum
    omega
  have hdegree : ∀ x ∈ waitingFor links i, p.degrees[x]? = some (waiting links p.order x) :=
    fun x hx => h.degrees x (hlinks.bounded x (hlinks.target _ (mem_waitingFor.1 hx)))
  have hj : j ∈ waitingFor links i := hsplit ▸ List.mem_append_right _ List.mem_cons_self
  -- this release is still to come
  have hlt : before.count j < waiting links p.order j := by
    have hsum := waiting_append links hplace j
    rw [hsplit, List.count_append, List.count_cons_self] at hsum
    omega
  refine ⟨⟨waiting links p.order j - before.count j - 1, ?_⟩, ?_, ?_⟩
  · rw [Progress.releasing, getElem?_foldl_release]
    simp only [hdegree j hj, Option.map_some, Option.some.injEq]
    omega
  · have hfold := mem_foldl_release_ready (x := j)
      (p := { p with ready := rest, order := p.order ++ [i] }) fun x hx =>
        ⟨_, hdegree x (hsplit ▸ List.mem_append_left _ hx), hcount x⟩
    rw [Progress.releasing, hfold]
    rintro (hrest | ⟨-, hzero⟩)
    · have hzero := ((h.mem_ready j).1 (hready ▸ List.mem_cons_of_mem i hrest)).2.2
      omega
    · have heq := Option.some.inj ((hdegree j hj).symm.trans hzero)
      omega
  · rw [Progress.releasing, foldl_release_order, List.mem_append, List.mem_singleton, not_or]
    exact h.unplaced hready hj

/-! ## Who becomes ready -/

/-- Those who become ready while one after another is released, each as often as it does. -/
def admitted : Progress → List Nat → List Nat
  | _, [] => []
  | p, j :: js =>
    if (p.release j).degrees[j]? = some 0 then j :: (p.release j).admitted js
    else (p.release j).admitted js

/-- Those who become ready while at most so many places are given out, each as often as it does. -/
def entries (links : List (Nat × Nat)) : Nat → Progress → List Nat
  | 0, _ => []
  | k + 1, p =>
    match p.ready with
    | [] => []
    | i :: rest =>
      (p.releasing i rest []).admitted (waitingFor links i) ++
        entries links k (p.emit links i rest)

theorem perm_insertAscending (h : i ∉ js) : (insertAscending i js).Perm (i :: js) := by
  induction js with
  | nil => exact .refl _
  | cons j js ih =>
    rw [List.mem_cons, not_or] at h
    unfold insertAscending
    split
    · exact .refl _
    · rw [if_neg h.1]
      exact ((ih h.2).cons j).trans (.swap i j js)

theorem perm_release (h : i ∉ p.ready) : (p.release i).ready.Perm
    (if (p.release i).degrees[i]? = some 0 then i :: p.ready else p.ready) := by
  rw [release_ready]
  split
  · exact perm_insertAscending h
  · exact .refl _

/-- If nobody who is ready is released, everybody who becomes ready is ready in the end. -/
theorem perm_foldl_release
    (h : ∀ before j after, js = before ++ j :: after → j ∉ (before.foldl release p).ready) :
    (js.foldl release p).ready.Perm (p.ready ++ p.admitted js) := by
  induction js generalizing p with
  | nil => simp [admitted]
  | cons j js ih =>
    have hj : j ∉ p.ready := h [] j js rfl
    have hfirst := perm_release hj
    have hrest := ih (p := p.release j) fun before x after hsplit =>
      h (j :: before) x after (by rw [hsplit, List.cons_append])
    rw [List.foldl_cons, admitted]
    refine hrest.trans ?_
    split at hfirst
    · next hzero =>
      rw [if_pos hzero]
      exact (hfirst.append_right _).trans List.perm_middle.symm
    · next hzero =>
      rw [if_neg hzero]
      exact hfirst.append_right _

/-- A round gives one of those who are ready a place and adds those who become ready. -/
theorem Sound.perm_emit (hlinks : Linked n nodes links) (h : Sound n nodes links p)
    (hready : p.ready = i :: rest) :
    ((p.emit links i rest).order ++ (p.emit links i rest).ready).Perm
      (p.order ++ p.ready ++ (p.releasing i rest []).admitted (waitingFor links i)) := by
  have hfold : (p.emit links i rest).ready.Perm
      (rest ++ (p.releasing i rest []).admitted (waitingFor links i)) :=
    perm_foldl_release fun before j after hsplit => (h.releasing hlinks hready hsplit).2.1
  rw [emit_order, hready]
  refine (hfold.append_left _).trans ?_
  simp

/-- Those who have a place or are ready in the end are those who had one or were ready before, and
those who became ready meanwhile. -/
theorem Sound.entries_perm (hlinks : Linked n nodes links) (h : Sound n nodes links p) (k : Nat) :
    ((p.run links k).order ++ (p.run links k).ready).Perm
      (p.order ++ p.ready ++ entries links k p) := by
  induction k generalizing p with
  | zero => simp [Progress.run, entries]
  | succ k ih =>
    cases hready : p.ready with
    | nil => simp [Progress.run, entries, hready]
    | cons i rest =>
      have hround := h.perm_emit hlinks hready
      rw [hready] at hround
      rw [Progress.run, entries, hready, ← List.append_assoc]
      exact (ih (h.emit hlinks hready)).trans (hround.append_right _)

/-- Nobody has a place and is ready, or is ready twice. -/
theorem Sound.nodup_order_append_ready (h : Sound n nodes links p) :
    (p.order ++ p.ready).Nodup := by
  refine List.nodup_append.2 ⟨h.nodup, h.sorted.imp Nat.ne_of_lt, ?_⟩
  rintro a ha b hb rfl
  exact ((h.mem_ready a).1 hb).2.1 ha

/-- A round more: if anybody is ready, the first of them gets the next place. -/
theorem run_succ (links : List (Nat × Nat)) (k : Nat) (p : Progress) :
    p.run links (k + 1) = (p.run links k).run links 1 := by
  induction k generalizing p with
  | zero => rfl
  | succ k ih =>
    cases hready : p.ready with
    | nil => simp [Progress.run, hready]
    | cons i rest =>
      have hstep : ∀ m, p.run links (m + 1) = (p.emit links i rest).run links m := fun m => by
        rw [Progress.run, hready]
      rw [hstep, hstep, ih]

theorem run_one (hready : p.ready = i :: rest) :
    p.run links 1 = p.releasing i rest (waitingFor links i) := by
  rw [Progress.run, hready]
  rfl

end Progress

/-! ## The account of a schedule -/

/-- Those who become ready before or with the `k`-th place, each as often as it does: those who wait
for nobody from the start, and those who are released. -/
def entered (fs : List FragmentEntry) (k : Nat) : List Nat :=
  (progress fs 0).ready ++ (progress fs 0).entries (links (active fs)) k

theorem perm_entered (fs : List FragmentEntry) (k : Nat) :
    (entered fs k).Perm ((progress fs k).order ++ (progress fs k).ready) :=
  (sound_start.entries_perm linked k).symm

theorem progress_succ {rest : List Nat} (h : (progress fs k).ready = i :: rest) :
    progress fs (k + 1) = (progress fs k).releasing i rest (waitingFor (links (active fs)) i) :=
  (Progress.run_succ (links (active fs)) k _).trans (Progress.run_one h)

/-- **The account of an ordering.** Whenever the next place is to be given out, the degree of
everyone who runs and has no place is the number of those who run, have no place, and have a key
that it depends on; and those are ready, in ascending order, who run, have no place and have degree
zero. The first of them gets the place, and the nodes that wait for it are released one after
another: each of them then has a degree that is not zero yet, is not ready, and has no place. So
nobody ever becomes ready twice. If there is a schedule, it is the order in which this ends. -/
theorem progress_keeps_account (fs : List FragmentEntry) (k : Nat) :
    (∀ j f, Runs fs j f → j ∉ (progress fs k).order →
      (progress fs k).degrees[j]? = some (openDependencies fs (progress fs k).order f)) ∧
    ((progress fs k).ready.Pairwise (· < ·) ∧
      ∀ j, j ∈ (progress fs k).ready ↔
        (∃ f, Runs fs j f) ∧ j ∉ (progress fs k).order ∧ (progress fs k).degrees[j]? = some 0) ∧
    (∀ i rest, (progress fs k).ready = i :: rest →
      progress fs (k + 1) =
        (progress fs k).releasing i rest (waitingFor (links (active fs)) i) ∧
      ∀ before j after, waitingFor (links (active fs)) i = before ++ j :: after →
        (∃ d, ((progress fs k).releasing i rest before).degrees[j]? = some (d + 1)) ∧
        j ∉ ((progress fs k).releasing i rest before).ready ∧
        j ∉ ((progress fs k).releasing i rest before).order) ∧
    ((entered fs k).Nodup ∧
      (entered fs k).Perm ((progress fs k).order ++ (progress fs k).ready)) ∧
    ∀ s, fragments fs = .ok s →
      s.order = (progress fs (active fs).length).order ∧
      (progress fs (active fs).length).ready = [] := by
  have hsound := sound_progress fs k
  have hdegree : ∀ j f, Runs fs j f →
      (progress fs k).degrees[j]? = some (waiting (links (active fs)) (progress fs k).order j) :=
    fun j f hf => hsound.degrees j (linked.bounded j (mem_indices.2 ⟨f, hf⟩))
  refine ⟨fun j f hf _ => ?_, ⟨hsound.sorted, fun j => ?_⟩, fun i rest hready =>
    ⟨progress_succ hready, fun before j after => hsound.releasing linked hready⟩,
    ⟨(perm_entered fs k).nodup_iff.2 hsound.nodup_order_append_ready, perm_entered fs k⟩,
    fun s hs => ?_⟩
  · rw [hdegree j f hf, waiting_eq_openDependencies hf]
  · rw [hsound.mem_ready, mem_indices]
    refine and_congr_right fun ⟨f, hf⟩ => and_congr_right fun _ => ?_
    rw [hdegree j f hf, Option.some.injEq]
  · obtain ⟨-, -, rfl⟩ := fragments_eq_ok_iff.1 hs
    exact ⟨rfl, sound_start.ready_run linked (by simp)⟩

end Schedule

end StagedCodegen
