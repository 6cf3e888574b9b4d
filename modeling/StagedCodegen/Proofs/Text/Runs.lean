import StagedCodegen.Proofs.Text.Words

/-!
# The longest runs of letters and digits

A run is a part of a text that has letters and digits only and can be made longer at neither end. It
is said by what stands before it and behind it (`LongestRun`), and the place where it begins tells
it from all others (`LongestRun.eq_of_start_eq`). Words are read off from left to right: a character
that is no letter or digit begins no run (`RunsFrom.skip`), and behind the end of one come the
others (`RunsFrom.cons`). The invariant is that the current word begins where a run can.

Joined by dashes, words can be told apart again: no word is empty and none has a dash in it, so each
dash stands between two words (`nil_notMem_split`), and the words of the name are those of the text
in small letters (`words_slug`).

Main statement: `slug_joins_runs`.
-/

namespace StagedCodegen.Text

variable {text before word cs : List Char}

/-! ## Runs -/

/-- A longest run of letters and digits in a text. -/
structure LongestRun (text : List Char) where
  /-- What stands before the run. -/
  before : List Char
  /-- The run. -/
  word : List Char
  /-- What stands behind it. -/
  after : List Char
  /-- That is the whole text. -/
  split : before ++ (word ++ after) = text
  /-- There is something in it. -/
  ne_nil : word ≠ []
  /-- There are letters and digits in it and nothing else. -/
  plain : ∀ c ∈ word, isWordChar c = true
  /-- It does not begin earlier. -/
  begins : ∀ c ∈ before.getLast?, isWordChar c = false
  /-- It does not end later. -/
  ends : ∀ c ∈ after.head?, isWordChar c = false

namespace LongestRun

variable {r r' : LongestRun text}

/-- Where the run begins. -/
def start (r : LongestRun text) : Nat := r.before.length

theorem start_lt (r : LongestRun text) : r.start < text.length := by
  have hword := List.length_pos_of_ne_nil r.ne_nil
  have hlength := congrArg List.length r.split
  rw [List.length_append, List.length_append] at hlength
  rw [start]
  omega

/-- A run goes on as far as there are letters and digits. -/
theorem takeWhile_eq (r : LongestRun text) : (r.word ++ r.after).takeWhile isWordChar = r.word := by
  have hnil : r.after.takeWhile isWordChar = [] := by
    have hends := r.ends
    cases hafter : r.after with
    | nil => rfl
    | cons c after =>
      rw [hafter] at hends
      exact List.takeWhile_cons_of_neg (Bool.eq_false_iff.mp (hends c rfl))
  rw [List.takeWhile_append_of_pos r.plain, hnil, List.append_nil]

theorem eq_of_start_eq (h : r.start = r'.start) : r = r' := by
  obtain ⟨hbefore, hrest⟩ := List.append_inj (r.split.trans r'.split.symm) h
  have hword : r.word = r'.word := by rw [← r.takeWhile_eq, hrest, r'.takeWhile_eq]
  have hafter : r.after = r'.after := List.append_cancel_left (hword ▸ hrest)
  cases r
  cases r'
  cases hbefore
  cases hword
  cases hafter
  rfl

/-- No run begins inside another or at its end. -/
theorem lt_of_start_lt (h : r.start < r'.start) : r.start + r.word.length < r'.start := by
  by_contra hinside
  have hword : r.before ++ r.word <+: text := ⟨r.after, by rw [List.append_assoc, r.split]⟩
  obtain ⟨ds, hds⟩ : r.before <+: r'.before :=
    List.prefix_of_prefix_length_le ⟨_, r.split⟩ ⟨_, r'.split⟩ h.le
  have hprefix : r.before ++ ds <+: r.before ++ r.word := by
    rw [hds]
    refine List.prefix_of_prefix_length_le ⟨_, r'.split⟩ hword ?_
    rw [List.length_append]
    exact not_lt.mp hinside
  -- the character before the other run would be one of this run
  obtain rfl | ⟨ds, d, rfl⟩ := List.eq_nil_or_concat' ds
  · rw [List.append_nil] at hds
    exact absurd (congrArg List.length hds) h.ne
  · have hplain : isWordChar d = true := by
      refine r.plain d (((List.prefix_append_right_inj _).mp hprefix).subset ?_)
      exact List.mem_append_right _ (List.mem_singleton_self d)
    have hbegins : isWordChar d = false := by
      refine r'.begins d ?_
      rw [← hds, ← List.append_assoc, List.getLast?_concat]
      rfl
    rw [hplain] at hbegins
    cases hbegins

theorem le_iff (r r' : LongestRun text) :
    r.start ≤ r'.start ↔ r' = r ∨ r.start + r.word.length < r'.start := by
  constructor
  · intro h
    rcases h.eq_or_lt with heq | hlt
    · exact .inl (eq_of_start_eq heq.symm)
    · exact .inr (lt_of_start_lt hlt)
  · rintro (rfl | hlt)
    · exact le_rfl
    · omega

end LongestRun

/-- These are the longest runs of a text that begin at a place or behind it, from left to right. -/
structure RunsFrom (place : Nat) (rs : List (LongestRun text)) : Prop where
  /-- One begins before the next. -/
  ordered : rs.Pairwise (·.start < ·.start)
  /-- None is missing. -/
  mem_iff : ∀ r, r ∈ rs ↔ place ≤ r.start

namespace RunsFrom

variable {place : Nat} {rs : List (LongestRun text)}

/-- No run begins at the end of the text. -/
theorem nil (h : text.length ≤ place) : RunsFrom place ([] : List (LongestRun text)) where
  ordered := .nil
  mem_iff r := iff_of_false List.not_mem_nil (not_le.mpr (r.start_lt.trans_le h))

/-- A run, and then those that begin behind its end. -/
theorem cons {r : LongestRun text} (h : RunsFrom (r.start + r.word.length + 1) rs) :
    RunsFrom r.start (r :: rs) where
  ordered := by
    refine List.pairwise_cons.mpr ⟨fun r' hr' => ?_, h.ordered⟩
    have hstart := (h.mem_iff r').mp hr'
    omega
  mem_iff r' := by
    rw [List.mem_cons, h.mem_iff, r.le_iff r', Nat.succ_le_iff]

/-- No run begins with another character than a letter or digit. -/
theorem skip {c : Char} (htext : before ++ c :: cs = text) (hc : isWordChar c = false)
    (h : RunsFrom (before.length + 1) rs) : RunsFrom before.length rs where
  ordered := h.ordered
  mem_iff r := by
    have hstart : before.length ≠ r.start := fun heq => by
      obtain ⟨-, hrest⟩ := List.append_inj (htext.trans r.split.symm) heq
      obtain ⟨d, ds, hd⟩ := List.exists_cons_of_ne_nil r.ne_nil
      rw [hd, List.cons_append] at hrest
      obtain rfl := (List.cons.inj hrest).1
      rw [r.plain c (hd ▸ List.mem_cons_self)] at hc
      cases hc
    rw [h.mem_iff]
    omega

end RunsFrom

/-- What is read as words from some place on are the runs from there on. -/
theorem exists_runs_from (htext : before ++ (word ++ cs) = text)
    (hplain : ∀ c ∈ word, isWordChar c = true)
    (hbegins : ∀ c ∈ before.getLast?, isWordChar c = false) :
    ∃ rs : List (LongestRun text), RunsFrom before.length rs ∧
      rs.map (·.word) = wordsFrom word cs := by
  induction cs generalizing before word with
  | nil =>
    have hlength : text.length = before.length + word.length := by
      rw [← htext, List.append_nil, List.length_append]
    by_cases hne : word = []
    · subst hne
      exact ⟨[], .nil hlength.le, rfl⟩
    · let last : LongestRun text := ⟨before, word, [], htext, hne, hplain, hbegins, nofun⟩
      have hnone : RunsFrom (last.start + last.word.length + 1) ([] : List (LongestRun text)) :=
        .nil (hlength.trans_le (Nat.le_succ _))
      exact ⟨[last], hnone.cons, (wordsFrom_nil hne).symm⟩
  | cons c cs ih =>
    cases hc : isWordChar c with
    | true =>
      rw [wordsFrom_cons_of_pos hc]
      refine ih (by simpa using htext) ?_ hbegins
      exact List.forall_mem_append.mpr ⟨hplain, List.forall_mem_singleton.mpr hc⟩
    | false =>
      -- behind this character a run can begin
      have hnext : (before ++ word ++ [c]) ++ ([] ++ cs) = text := by simpa using htext
      have hgap : ∀ d ∈ (before ++ word ++ [c]).getLast?, isWordChar d = false := by
        rw [List.getLast?_concat]
        rintro d ⟨⟩
        exact hc
      obtain ⟨rs, hrs, hwords⟩ := ih hnext (fun _ h => absurd h List.not_mem_nil) hgap
      rw [List.length_append, List.length_append, List.length_singleton] at hrs
      by_cases hne : word = []
      · subst hne
        exact ⟨rs, hrs.skip htext hc, by rw [hwords, wordsFrom_nil_cons_of_neg hc]⟩
      · let first : LongestRun text :=
          ⟨before, word, c :: cs, htext, hne, hplain, hbegins, by rintro d ⟨⟩; exact hc⟩
        have hfirst : RunsFrom first.start (first :: rs) := RunsFrom.cons (r := first) hrs
        exact ⟨first :: rs, hfirst, by rw [List.map_cons, hwords, wordsFrom_cons_of_neg hc hne]⟩

/-- These are all longest runs of a text, from left to right. -/
structure AllRuns (rs : List (LongestRun text)) : Prop where
  /-- One begins before the next. -/
  ordered : rs.Pairwise (·.start < ·.start)
  /-- None is missing. -/
  mem : ∀ r, r ∈ rs

namespace AllRuns

variable {rs rs' : List (LongestRun text)}

/-- There is only one such list. -/
theorem unique (h : AllRuns rs) (h' : AllRuns rs') : rs = rs' := by
  have hnodup : ∀ {qs : List (LongestRun text)}, AllRuns qs → qs.Nodup := fun hqs =>
    hqs.ordered.imp fun hlt heq => hlt.ne (congrArg LongestRun.start heq)
  have hperm : rs.Perm rs' := (List.perm_ext_iff_of_nodup (hnodup h) (hnodup h')).mpr fun r =>
    iff_of_true (h.mem r) (h'.mem r)
  exact hperm.eq_of_pairwise (fun r r' _ _ hlt hgt => absurd hlt hgt.asymm) h.ordered h'.ordered

end AllRuns

/-- The words of a text are its longest runs, from left to right. -/
theorem exists_runs (text : List Char) :
    ∃ rs : List (LongestRun text), AllRuns rs ∧ rs.map (·.word) = words text := by
  have htext : [] ++ ([] ++ text) = text := rfl
  obtain ⟨rs, hrs, hwords⟩ := exists_runs_from htext nofun nofun
  exact ⟨rs, ⟨hrs.ordered, fun r => (hrs.mem_iff r).mpr (Nat.zero_le _)⟩, hwords⟩

/-! ## Dashes -/

/-- Words in small letters, with a dash between each two. -/
def dashed (ws : List (List Char)) : List Char := joinWith ['-'] (ws.map (·.map Char.toLower))

theorem dashed_singleton (w : List Char) : dashed [w] = w.map Char.toLower := rfl

theorem dashed_cons {ws : List (List Char)} (h : ws ≠ []) (w : List Char) :
    dashed (w :: ws) = w.map Char.toLower ++ '-' :: dashed ws := by
  rw [dashed, List.map_cons, joinWith_cons (by simpa using h)]
  rfl

theorem wordsFrom_ne_nil {word cs : List Char} (h : word ≠ []) : wordsFrom word cs ≠ [] := by
  have hflatten := flatten_wordsFrom word cs
  intro hnil
  rw [hnil] at hflatten
  exact h (List.append_eq_nil_iff.mp hflatten.symm).1

/-- Once there has been a word, the next character belongs to it, or a dash comes before the next
word, if there is one. -/
theorem append_slugChars (cs : List Char) :
    (∀ word ≠ [], word.map Char.toLower ++ slugChars true false cs = dashed (wordsFrom word cs)) ∧
      ∀ word, word.map Char.toLower ++ slugChars true true cs =
        dashed (word :: wordsFrom [] cs) := by
  induction cs with
  | nil =>
    refine ⟨fun word hne => ?_, fun word => ?_⟩
    · rw [wordsFrom_nil hne, dashed_singleton, slugChars, List.append_nil]
    · rw [wordsFrom, dashed_singleton, slugChars, List.append_nil]
  | cons c cs ih =>
    obtain ⟨hword, hgap⟩ := ih
    cases hc : isWordChar c with
    | true =>
      refine ⟨fun word hne => ?_, fun word => ?_⟩
      · rw [wordsFrom_cons_of_pos hc, ← hword _ (by simp), slugChars, if_pos hc]
        simp
      · rw [wordsFrom_cons_of_pos hc, dashed_cons (wordsFrom_ne_nil (by simp)),
          ← hword _ (by simp), slugChars, if_pos hc]
        rfl
    | false =>
      have hskip : slugChars true true (c :: cs) = slugChars true true cs := by
        rw [slugChars, if_neg (Bool.eq_false_iff.mp hc)]
      refine ⟨fun word hne => ?_, fun word => ?_⟩
      · rw [wordsFrom_cons_of_neg hc hne, ← hgap, slugChars, if_neg (Bool.eq_false_iff.mp hc)]
      · rw [wordsFrom_nil_cons_of_neg hc, ← hgap, hskip]

theorem slugChars_eq_dashed (gap : Bool) (cs : List Char) :
    slugChars false gap cs = dashed (words cs) := by
  rw [words]
  induction cs generalizing gap with
  | nil => rfl
  | cons c cs ih =>
    cases hc : isWordChar c with
    | true =>
      rw [wordsFrom_cons_of_pos hc, ← (append_slugChars cs).1 _ (by simp), slugChars, if_pos hc]
      rfl
    | false =>
      rw [wordsFrom_nil_cons_of_neg hc, ← ih true, slugChars, if_neg (Bool.eq_false_iff.mp hc)]

theorem toList_slug (s : String) : (slug s).toList = dashed (words s.toList) := by
  rw [slug, String.toList_ofList, slugChars_eq_dashed]

/-! ## Words of names -/

/-- A word by itself. -/
structure IsWord (w : List Char) : Prop where
  /-- There is something in it. -/
  ne_nil : w ≠ []
  /-- There are letters and digits in it and nothing else. -/
  plain : ∀ c ∈ w, isWordChar c = true

theorem IsWord.dash_notMem {w : List Char} (h : IsWord w) : '-' ∉ w := fun hmem =>
  absurd (h.plain _ hmem) (by decide)

theorem isWord_of_mem_words {w : List Char} (h : w ∈ words cs) : IsWord w where
  ne_nil := ne_nil_of_mem_wordsFrom w h
  plain := forall_mem_wordsFrom (fun _ h => absurd h List.not_mem_nil) w h

/-- In small letters, words are words. -/
theorem isWord_of_mem_map {w : List Char} (h : w ∈ (words cs).map (·.map Char.toLower)) :
    IsWord w := by
  obtain ⟨v, hv, rfl⟩ := List.mem_map.mp h
  have hword := isWord_of_mem_words hv
  exact ⟨by simpa using hword.ne_nil,
    List.forall_mem_map.mpr fun c hc => isWordChar_toLower (hword.plain c hc)⟩

/-- A dash ends a word. -/
theorem words_joinWith {ws : List (List Char)} (h : ∀ w ∈ ws, IsWord w) :
    words (joinWith ['-'] ws) = ws := by
  induction ws with
  | nil => rfl
  | cons w ws ih =>
    obtain ⟨hw, hws⟩ := List.forall_mem_cons.mp h
    by_cases hlast : ws = []
    · rw [hlast]
      exact words_of_forall hw.ne_nil hw.plain
    · have hdash : isWordChar '-' = false := by decide
      rw [joinWith_cons hlast, words, wordsFrom_append hw.plain, List.nil_append,
        List.singleton_append, wordsFrom_cons_of_neg hdash hw.ne_nil, ← words, ih hws]

/-- The words of a name are those of its text, in small letters. -/
theorem words_slug (s : String) :
    words (slug s).toList = (words s.toList).map (·.map Char.toLower) := by
  rw [toList_slug, dashed, words_joinWith fun _ => isWord_of_mem_map]

theorem slug_slug (s : String) : slug (slug s) = slug s := by
  have hsmall : (List.map Char.toLower ∘ List.map Char.toLower) = List.map Char.toLower := by
    funext w
    rw [Function.comp_apply, List.map_map]
    exact List.map_congr_left fun c _ => Char.toLower_toLower_eq_toLower c
  rw [← String.toList_inj, toList_slug, words_slug, dashed, List.map_map, hsmall, ← dashed,
    toList_slug]

/-- In a name, no piece is empty before a dash, and none behind it. -/
theorem nil_notMem_split {s : String} {before after : List Char}
    (h : (slug s).toList = before ++ '-' :: after) :
    [] ∉ split '-' before ∧ [] ∉ split '-' after := by
  rw [toList_slug, dashed] at h
  have hne : (words s.toList).map (·.map Char.toLower) ≠ [] := by
    intro hnil
    rw [hnil] at h
    exact absurd h.symm (by simp [joinWith])
  have hpieces : split '-' before ++ split '-' after =
      (words s.toList).map (·.map Char.toLower) := by
    rw [← split_append, ← h, split_joinWith hne fun _ hw => (isWord_of_mem_map hw).dash_notMem]
  rw [← not_or, ← List.mem_append, hpieces]
  exact fun hnil => (isWord_of_mem_map hnil).ne_nil rfl

/-- **Names are joined from runs.** There is exactly one list of all longest runs of letters and
digits in a text from left to right, and its name is made of them, in small letters and with one
dash between each two. So a name does not begin or end with a dash and never has two in a row, it is
empty just if the text has no letters and digits, and it is its own name. -/
theorem slug_joins_runs (s : String) :
    (∃ rs : List (LongestRun s.toList), AllRuns rs ∧ (∀ rs', AllRuns rs' → rs' = rs) ∧
      slug s = String.ofList (joinWith ['-'] (rs.map fun r => r.word.map Char.toLower))) ∧
    ((slug s).toList.head? ≠ some '-' ∧ (slug s).toList.getLast? ≠ some '-' ∧
      ¬['-', '-'] <:+: (slug s).toList) ∧
    (slug s = "" ↔ ∀ c ∈ s.toList, isWordChar c = false) ∧
    slug (slug s) = slug s := by
  refine ⟨?_, ⟨fun hhead => ?_, fun hlast => ?_, ?_⟩, slug_eq_empty_iff, slug_slug s⟩
  · obtain ⟨rs, hall, hwords⟩ := exists_runs s.toList
    refine ⟨rs, hall, fun rs' hrs' => hrs'.unique hall, ?_⟩
    rw [← String.toList_inj, toList_slug, String.toList_ofList, dashed, ← hwords, List.map_map]
    rfl
  · obtain ⟨cs, hcs⟩ := List.head?_eq_some_iff.mp hhead
    have hdash : (slug s).toList = [] ++ '-' :: cs := hcs
    exact (nil_notMem_split hdash).1 (List.mem_singleton_self [])
  · obtain ⟨cs, hcs⟩ := List.getLast?_eq_some_iff.mp hlast
    exact (nil_notMem_split hcs).2 (List.mem_singleton_self [])
  · rintro ⟨before, after, hcs⟩
    have hdash : (slug s).toList = before ++ '-' :: '-' :: after := by
      rw [← hcs, List.append_assoc]
      rfl
    refine (nil_notMem_split hdash).2 ?_
    rw [split, if_pos rfl]
    exact List.mem_cons_self

/-- Characters that are no letters or digits make one dash together, and none at the ends. -/
example : slug "--x__Y é 9." = "x-y-9" := by decide

end StagedCodegen.Text
