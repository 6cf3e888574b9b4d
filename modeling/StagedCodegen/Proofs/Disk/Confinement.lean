import StagedCodegen.Proofs.Disk.Locations
import StagedCodegen.Proofs.Text.Composition

/-!
# Confinement

A path is accepted inside a boundary just if the place that it leads to lies strictly below the one
that the boundary leads to, and then it is resolved to that place, once and for all: there is no
link on the way down, and what was accepted is accepted again as it is. This holds where all names
are composed and everything that links lead to is found (`Disk.Follows`), and only there. Otherwise
a path is accepted that leads through a link out of the boundary (`Disk.accepted_outside`).

Where names are not composed, a path is resolved to the composed names of the place that it leads
to, which are names of entries as well (`Place.compose_text`, `Place.Named.compose`).

Main statement: `Disk.resolveWithin_confines`.
-/

namespace StagedCodegen

/-! ## Composed names -/

/-- All names are composed. -/
def Place.Composed (P : Place) : Prop := ∀ s ∈ P, Text.compose s = s

instance (P : Place) : Decidable P.Composed :=
  inferInstanceAs (Decidable (∀ s ∈ P, Text.compose s = s))

theorem Place.Composed.append {P Q : Place} (hP : P.Composed) (hQ : Q.Composed) :
    (P ++ Q).Composed := by
  intro s hs
  rcases List.mem_append.mp hs with hs | hs
  · exact hP s hs
  · exact hQ s hs

theorem Place.composed_path {P : Place} (hP : P.Named) (h : P.Composed) :
    P.path.place.Composed := by
  rwa [place_path hP]

section Composing

open Text.Composition

/-- Composing the path of a place composes its names. -/
theorem Place.compose_text (P : Place) :
    Text.compose P.path.text = (Place.path (P.map Text.compose)).text := by
  have hnames : (Place.pieces (P.map Text.compose)) = P.pieces.map composeChars := by
    simp [pieces, compose_eq, Function.comp_def]
  rw [compose_eq, ← String.toList_inj, String.toList_ofList, toList_path, toList_path, hnames,
    ← List.nil_append ('/' :: _), composeChars_slash, composeChars_joinWith]
  rfl

/-- What the name of an entry is composed to can be one, too. -/
theorem isName_composeChars {cs : List Char} (h : Path.IsName cs) :
    Path.IsName (composeChars cs) := by
  -- a point or two, or nothing, would have been written like this
  have hkept : ∀ ds, composeChars cs = ds → (∀ c ∈ ds, isPathSign c.toNat = true) → cs = ds := by
    rintro _ rfl hsigns
    exact (composeChars_eq_self hsigns).symm
  refine ⟨fun heq => h.ne_nil (hkept _ heq (by simp)),
    fun heq => h.ne_here (hkept _ heq (by simp [isPathSign])),
    fun heq => h.ne_up (hkept _ heq (by simp [isPathSign])), fun hslash => h.slash_notMem ?_⟩
  have hmem : '/' ∈ (composeChars cs).filter (isPathSign ·.toNat) :=
    List.mem_filter.mpr ⟨hslash, rfl⟩
  rw [filter_composeChars] at hmem
  exact (List.mem_filter.mp hmem).1

theorem Place.Named.compose {P : Place} (h : P.Named) : Place.Named (P.map Text.compose) := by
  intro s hs
  obtain ⟨t, ht, rfl⟩ := List.mem_map.mp hs
  rw [compose_eq, String.toList_ofList]
  exact isName_composeChars (h t ht)

end Composing

/-- The path of a place is composed if all its names are. -/
theorem Place.compose_path {P : Place} (h : P.Composed) :
    Text.compose P.path.text = P.path.text := by
  rw [compose_text, List.map_congr_left h, List.map_id']

namespace Disk

variable {d : Disk} {A B P Q F : Place} {n : Node} {s : String} {p boundary candidate : Path}

/-- The names of all entries are composed, and so are those of the current directory, which can be
names of entries. -/
structure Composed (d : Disk) : Prop where
  entries : ∀ e ∈ d.entries, Place.Composed e.1
  cwd : d.cwd.Composed
  named : d.cwd.Named

theorem Composed.lookup (h : d.Composed) (hP : d.lookup P = some n) : P.Composed := by
  by_cases hne : P = []
  · subst hne
    exact fun s hs => absurd hs List.not_mem_nil
  · exact h.entries _ (mem_of_lookup hP hne)

theorem Composed.names (h : d.Composed) (hp : p.place.Composed) : (d.names p).Composed := by
  intro s hs
  exact (mem_place_of_mem_names hs h.named).elim (hp s) (h.cwd s)

theorem LeadsTo.composed (h : d.LeadsTo P Q) (hd : d.Composed) (hP : P.Composed)
    (hnamed : P.Named) : Q.Composed := by
  cases h with
  | @on A B F n stands missing =>
    have hF := stands.lookup (hnamed.of_isPrefix (List.prefix_append A B))
    exact (hd.lookup hF).append fun s hs => hP s (List.mem_append_right A hs)

theorem exists_reach_composed (hd : d.Composed) (hp : p.place.Composed) :
    ∃ P : Place, P.Named ∧ P.Composed ∧ d.reach p = .ok P.path := by
  obtain ⟨A, B, F, n, hnamed, hFnamed, hcollapse, hlocate, -, hreach⟩ := d.exists_reach_eq p
  have hA : A.Named := hnamed.of_isPrefix (List.prefix_append A B)
  have hF : d.lookup F = some n := Stands.lookup ⟨40, walks_of_locate hA hlocate⟩ hA
  have hnames := hd.names hp
  rw [names_eq hcollapse] at hnames
  exact ⟨F ++ B, hFnamed.append fun s hs => hnamed s (List.mem_append_right A hs),
    (hd.lookup hF).append fun s hs => hnames s (List.mem_append_right A hs), hreach⟩

/-- Where all names are composed, composing a path changes nothing. -/
theorem resolveExisting_eq_reach (hd : d.Composed) (hp : p.place.Composed) :
    d.resolveExisting p = d.reach p := by
  obtain ⟨P, -, hP, hreach⟩ := exists_reach_composed hd hp
  rw [resolveExisting_eq, hreach, Except.map, Place.compose_path hP]

/-! ## Inside a boundary -/

theorem composed_join (hB : B.Named) (hcomposed : B.Composed) (hp : p.place.Composed) :
    (B.path.join p).place.Composed := by
  by_cases hrelative : p.isAbsolute = false
  · rw [Place.place_join hB hrelative]
    exact hcomposed.append hp
  · rwa [Path.join, if_pos (Bool.not_eq_false _ ▸ hrelative)]

theorem resolveWithin_eq_error {b r : Path} (hb : d.canonicalBoundary boundary = .ok b)
    (hr : d.resolveExisting (b.join candidate) = .ok r) (hbelow : ¬strictlyBelow r b = true) :
    d.resolveWithin boundary candidate = .error (.pathEscape candidate b) := by
  unfold resolveWithin
  generalize d.canonicalBoundary boundary = found at hb
  subst hb
  simp [hr, hbelow]

/-- A path is accepted as the place that it leads to just if everything that links lead to is found
and this place is strictly below that of the boundary; if it is not, the path is rejected. There is
no link on the way to what is accepted, and it is accepted again as it is. -/
theorem resolveWithin_confines (hd : d.Composed) (hlinks : d.LinksResolve)
    (hboundary : boundary.place.Composed) (hcandidate : candidate.place.Composed)
    (hB : d.LeadsTo (d.names boundary) B) (hP : d.LeadsTo (d.names (B.path.join candidate)) P)
    (hfollows : d.Follows (d.names boundary)) :
    (d.resolveWithin boundary candidate = .ok P.path ↔
      d.Follows (d.names (B.path.join candidate)) ∧ B <+: P ∧ B ≠ P) ∧
    (d.Follows (d.names (B.path.join candidate)) → ¬(B <+: P ∧ B ≠ P) →
      d.resolveWithin boundary candidate = .error (.pathEscape candidate B.path)) ∧
    P.Named ∧ d.Straight P ∧
    (B <+: P ∧ B ≠ P → d.resolveWithin boundary P.path = .ok P.path) := by
  have hBnamed : B.Named := hB.named (d.named_names boundary)
  have hPnamed : P.Named := hP.named (d.named_names _)
  have hBcomposed : B.Composed := hB.composed hd (hd.names hboundary) (d.named_names boundary)
  have hjoin : (B.path.join candidate).place.Composed := composed_join hBnamed hBcomposed hcandidate
  have hPcomposed : P.Composed := hP.composed hd (hd.names hjoin) (d.named_names _)
  have hbound : d.canonicalBoundary boundary = .ok B.path := by
    rw [canonicalBoundary, resolveExisting_eq_reach hd hboundary, reach_of_follows hB hfollows]
  have hresolve := resolveExisting_eq_reach hd hjoin
  have hbelow := strictlyBelow_path_iff hPnamed hBnamed
  have hsettled : d.Settled P := hP.settled (d.named_names _)
  refine ⟨?_, fun hfollows' houtside => ?_, hPnamed, hsettled.straight hlinks, fun hinside => ?_⟩
  · rw [resolveWithin_ok_iff, hbound]
    constructor
    · rintro ⟨b, hb, hreach, hinside⟩
      obtain rfl := Except.ok.inj hb
      rw [hresolve] at hreach
      exact ⟨follows_of_reach hP hlinks hreach, hbelow.mp hinside⟩
    · rintro ⟨hfollows', hinside⟩
      exact ⟨B.path, rfl, hresolve.trans (reach_of_follows hP hfollows'), hbelow.mpr hinside⟩
  · exact resolveWithin_eq_error hbound (hresolve.trans (reach_of_follows hP hfollows'))
      fun hinside => houtside (hbelow.mp hinside)
  · refine resolveWithin_ok_iff.mpr ⟨B.path, hbound, ?_, hbelow.mpr hinside⟩
    rw [Path.join, if_pos P.isAbsolute_path]
    exact resolveExisting_path hPnamed (hsettled.clear hPnamed) (Place.compose_path hPcomposed)

/-! ## Many links -/

/-- A tree with a link that leads back to its own directory, and two that lead out of it one after
the other. -/
def winding : Disk :=
  ⟨[(["out"], .dir), (["away"], .dir), (["out", "l"], .link ⟨"."⟩),
    (["out", "m"], .link ⟨"../away"⟩), (["out", "k"], .link ⟨"m"⟩)], []⟩

/-- The directory, named by so many rounds through the first link. -/
def rounds (n : Nat) : Place := ["out"] ++ List.replicate n "l"

theorem composed_winding : winding.Composed := ⟨by decide, by decide, Place.named_nil⟩

/-- Every round through the link costs one hop. -/
theorem walk_rounds (n hops : Nat) (rest : List Step) :
    winding.walk true (hops + n) [] ((rounds n).map .name ++ rest) =
      winding.walk true hops ["out"] rest := by
  have hround : ∀ hops rest, winding.walk true (hops + 1) ["out"] (.name "l" :: rest) =
      winding.walk true hops ["out"] rest := by
    intro hops rest
    have hhere : steps ⟨"."⟩ = [.here] := rfl
    rw [walk_link (t := ⟨"."⟩) (by decide) rfl, hhere, List.singleton_append,
      walk_here]
    rfl
  have hrounds := walk_replicate hround n hops rest
  rw [Nat.mul_one] at hrounds
  rw [← hrounds, rounds, List.map_append, List.map_replicate, List.append_assoc,
    List.map_singleton, List.singleton_append, walk_name]
  rfl

theorem walks_rounds {n hops : Nat} {rest : List Step} {r : Located}
    (h : winding.Walks true hops ["out"] rest r) :
    winding.Walks true (hops + n) [] ((rounds n).map .name ++ rest) r :=
  walks_of_walk ((walk_rounds n hops rest).trans h.walk_eq)

theorem walks_rounds_end (n : Nat) : winding.Walks true n [] ((rounds n).map .name)
    (.found ["out"] .dir) := by
  have hstay : winding.Walks true 0 ["out"] [] (.found ["out"] .dir) := .stay rfl
  have hwalks := walks_rounds (n := n) hstay
  rwa [List.append_nil, Nat.zero_add] at hwalks

theorem locate_rounds {n : Nat} (hn : n ≤ 40) (hnamed : (rounds n).Named)
    (husable : Usable (rounds n).path) :
    winding.locate true (rounds n).path = .ok (.found ["out"] .dir) := by
  exact locate_of_walks hnamed husable ((walks_rounds_end n).mono hn)

theorem walks_away : winding.Walks true 2 ["out"] [.name "k"] (.found ["away"] .dir) := by
  have hm : steps ⟨"m"⟩ = [.name "m"] := rfl
  have haway : steps ⟨"../away"⟩ = [.up, .name "away"] := rfl
  refine .follow (t := ⟨"m"⟩) (by decide) rfl (fun _ => rfl) ?_
  rw [hm]
  refine .follow (t := ⟨"../away"⟩) (by decide) rfl (fun _ => rfl) ?_
  rw [haway]
  exact .up (.enter (by decide) rfl (.stay rfl))

theorem stands_away (n : Nat) : winding.Stands (rounds n ++ ["k"]) ["away"] .dir := by
  refine ⟨2 + n, ?_⟩
  rw [List.map_append]
  exact walks_rounds walks_away

theorem leadsTo_away (n : Nat) : winding.LeadsTo (rounds n ++ ["k", "x"]) ["away", "x"] := by
  rw [List.append_cons]
  exact (stands_away n).leadsTo_concat rfl

theorem linksResolve_winding : winding.LinksResolve := by
  intro P t hlink
  have hne : P ≠ [] := by
    rintro rfl
    cases hlink
  have hmem := mem_of_lookup hlink hne
  simp only [winding, List.mem_cons, Prod.mk.injEq, reduceCtorEq, and_false, List.not_mem_nil,
    or_false, false_or] at hmem
  rcases hmem with ⟨rfl, -⟩ | ⟨rfl, -⟩ | ⟨rfl, -⟩
  · exact ⟨["out"], .dir, 1, walks_rounds_end 1⟩
  · have haway : steps ⟨"../away"⟩ = [.up, .name "away"] := rfl
    refine ⟨["away"], .dir, 1, .enter (by decide) rfl ?_⟩
    refine .follow (t := ⟨"../away"⟩) (by decide) rfl (fun _ => rfl) ?_
    rw [haway]
    exact .up (.enter (by decide) rfl (.stay rfl))
  · exact ⟨["away"], .dir, stands_away 0⟩

theorem boundary_winding : winding.LeadsTo ["out"] ["out"] ∧ winding.Follows ["out"] := by
  have hnamed : Place.Named ["out"] := by decide
  have hlocate := locate_rounds (n := 0) (by decide) hnamed ⟨by decide, by decide, by decide⟩
  exact ⟨Stands.leadsTo ⟨40, walks_of_locate hnamed hlocate⟩,
    follows_of_exists hnamed (exists_of_locate hlocate)⟩

/-- A file that is missing behind a link is accepted at its place without the link. -/
theorem resolveWithin_round :
    let boundary := Place.path ["out"]
    let candidate := Place.path ["out", "l", "x"]
    winding.Composed ∧ winding.LinksResolve ∧ boundary.place.Composed ∧ candidate.place.Composed ∧
      winding.LeadsTo (winding.names boundary) ["out"] ∧
      winding.LeadsTo (winding.names (boundary.join candidate)) ["out", "x"] ∧
      winding.Follows (winding.names boundary) ∧
      winding.Follows (winding.names (boundary.join candidate)) ∧
      winding.resolveWithin boundary candidate = .ok (Place.path ["out", "x"]) := by
  intro boundary candidate
  have hout : Place.Named ["out"] := by decide
  have hnamed : Place.Named ["out", "l", "x"] := by decide
  have hjoin : boundary.join candidate = candidate := if_pos (Place.isAbsolute_path _)
  have hlocate := locate_rounds (n := 1) (by decide) (by decide) ⟨by decide, by decide, by decide⟩
  have hboundary : winding.LeadsTo (winding.names boundary) ["out"] ∧
      winding.Follows (winding.names boundary) := by
    rw [names_path hout]
    exact boundary_winding
  have hcandidate : winding.LeadsTo (winding.names (boundary.join candidate)) ["out", "x"] ∧
      winding.Follows (winding.names (boundary.join candidate)) := by
    rw [hjoin, names_path hnamed]
    exact ⟨Stands.leadsTo_concat (A := rounds 1) (F := ["out"])
      ⟨40, walks_of_locate (by decide) hlocate⟩ rfl, follows_concat hnamed hlocate rfl⟩
  have hcomposed : boundary.place.Composed ∧ candidate.place.Composed :=
    ⟨Place.composed_path hout (by decide), Place.composed_path hnamed (by decide)⟩
  refine ⟨composed_winding, linksResolve_winding, hcomposed.1, hcomposed.2, hboundary.1,
    hcandidate.1, hboundary.2, hcandidate.2, ?_⟩
  exact (resolveWithin_confines composed_winding linksResolve_winding hcomposed.1 hcomposed.2
    hboundary.1 hcandidate.1 hboundary.2).1.mpr ⟨hcandidate.2, by decide⟩

/-- After so many rounds that the two links cannot both be followed, the first counts as missing. -/
theorem reach_rounds :
    winding.reach (Place.path (rounds 39 ++ ["k", "x"])) = .ok (Place.path ["out", "k", "x"]) := by
  have hnamed : (rounds 39 ++ ["k", "x"]).Named := by decide
  have hlocate := locate_rounds (n := 39) (by decide) (by decide) ⟨by decide, by decide, by decide⟩
  have hm : steps ⟨"m"⟩ = [.name "m"] := rfl
  refine reach_path_eq_of_walk hnamed hlocate (e := .of .tooManyLinks) ?_
  rw [List.map_append, List.map_singleton, walk_rounds 39 1,
    walk_link (t := ⟨"m"⟩) (by decide) rfl, hm, List.append_nil,
    walk_link_zero (t := ⟨"../away"⟩) (by decide) rfl]

/-- A path through many links is accepted although it leads out of the boundary: what is accepted
goes through a link, and is rejected when it is resolved once more. -/
theorem accepted_outside :
    let boundary := Place.path ["out"]
    let candidate := Place.path (rounds 39 ++ ["k", "x"])
    let accepted := Place.path ["out", "k", "x"]
    winding.Composed ∧ winding.LinksResolve ∧ boundary.place.Composed ∧ candidate.place.Composed ∧
      winding.LeadsTo (winding.names boundary) ["out"] ∧
      winding.LeadsTo (winding.names (boundary.join candidate)) ["away", "x"] ∧
      ¬["out"] <+: ["away", "x"] ∧
      winding.resolveWithin boundary candidate = .ok accepted ∧
      ¬winding.Straight accepted.place ∧
      winding.resolveWithin boundary accepted = .error (.pathEscape accepted boundary) := by
  intro boundary candidate accepted
  have hout : Place.Named ["out"] := by decide
  have hcandidate : (rounds 39 ++ ["k", "x"]).Named := by decide
  have haccepted : Place.Named ["out", "k", "x"] := by decide
  have hcomposed : candidate.place.Composed := Place.composed_path hcandidate (by decide)
  have hjoin : ∀ P : Place, boundary.join P.path = P.path := fun P => if_pos P.isAbsolute_path
  have hboundary : winding.canonicalBoundary boundary = .ok boundary := by
    rw [canonicalBoundary,
      resolveExisting_eq_reach composed_winding (Place.composed_path hout (by decide))]
    refine reach_of_follows ?_ ?_ <;> rw [names_path hout]
    · exact boundary_winding.1
    · exact boundary_winding.2
  have hagain : winding.resolveExisting accepted = .ok (Place.path ["away", "x"]) := by
    rw [resolveExisting_eq_reach composed_winding (Place.composed_path haccepted (by decide))]
    have hlocate : winding.locate true (Place.path ["out", "k"]) = .ok (.found ["away"] .dir) := by
      refine locate_of_walks (by decide) ⟨by decide, by decide, by decide⟩ ?_
      exact (walks_rounds (n := 0) walks_away).mono (by omega)
    refine reach_of_follows ?_ ?_ <;> rw [names_path haccepted]
    · exact leadsTo_away 0
    · exact follows_concat (A := ["out", "k"]) haccepted hlocate rfl
  refine ⟨composed_winding, linksResolve_winding, Place.composed_path hout (by decide), hcomposed,
    ?_, ?_, by decide, ?_, ?_, ?_⟩
  · rw [names_path hout]
    exact boundary_winding.1
  · rw [hjoin, names_path hcandidate]
    exact leadsTo_away 39
  · refine resolveWithin_ok_iff.mpr ⟨boundary, hboundary, ?_, ?_⟩
    · rw [hjoin, resolveExisting_eq_reach composed_winding hcomposed]
      exact reach_rounds
    · exact (strictlyBelow_path_iff haccepted hout).mpr (by decide)
  · rw [Place.place_path haccepted]
    exact fun h => h ["out", "k"] ⟨["x"], rfl⟩ ⟨"m"⟩ rfl
  · refine resolveWithin_eq_error hboundary (r := Place.path ["away", "x"]) ?_ ?_
    · rw [hjoin, hagain]
    · rw [strictlyBelow_path_iff (by decide) hout]
      decide

end Disk

end StagedCodegen
