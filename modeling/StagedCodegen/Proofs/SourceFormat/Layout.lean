import Mathlib.Data.List.Forall2
import Mathlib.Logic.Relation
import StagedCodegen.Proofs.Text.Trimming
import StagedCodegen.SourceFormat

/-!
# The layout of sources

Formatting without an opening line keeps the lines of a text, without white space at their ends,
from the first to the last that is then not empty (`Kept`). These lines are a normal form: two texts
give the same one if and only if they differ in white space at the ends of lines and in empty lines
at the start and at the end (`SameLayout`), and formatting again changes nothing.

Main statement: `format_normal_form`.
-/

namespace StagedCodegen.SourceFormat

open StagedCodegen.Text

variable {cs ds before after l t : List Char} {ls kept : List (List Char)} {c : Char}

/-! ## Lines -/

/-- The lines of a text: no line has a line break, and with line breaks between them they are the
text. -/
structure LinesOf (cs : List Char) (ls : List (List Char)) : Prop where
  /-- There is a line. -/
  ne_nil : ls ≠ []
  /-- No line has a line break. -/
  unbroken : ∀ l ∈ ls, '\n' ∉ l
  /-- They are the text. -/
  joined : joinWith ['\n'] ls = cs

theorem linesOf_iff : LinesOf cs ls ↔ split '\n' cs = ls := by
  constructor
  · rintro ⟨hne, hunbroken, rfl⟩
    exact split_joinWith hne hunbroken
  · rintro rfl
    exact ⟨split_ne_nil cs, fun _ => not_mem_of_mem_split, joinWith_split cs⟩

/-- The second is the first without white space at its end. -/
structure Trimmed (l t : List Char) : Prop where
  /-- What is cut off is white space. -/
  cut : ∃ blanks, l = t ++ blanks ∧ ∀ c ∈ blanks, isLineEnd c = true
  /-- There is no more of it. -/
  stop : ∀ c ∈ t.getLast?, isLineEnd c = false

theorem trimmed_iff : Trimmed l t ↔ dropEndWhile isLineEnd l = t := by
  constructor
  · rintro ⟨⟨blanks, rfl, hblanks⟩, hstop⟩
    rw [dropEndWhile_append_of_forall hblanks, dropEndWhile_of_getLast? hstop]
  · rintro rfl
    exact ⟨exists_dropEndWhile_append _ _, getLast?_dropEndWhile l⟩

theorem forall₂_trimmed_iff {ts : List (List Char)} :
    List.Forall₂ Trimmed ls ts ↔ ls.map (dropEndWhile isLineEnd) = ts := by
  have htrimmed : Trimmed = fun l t => dropEndWhile isLineEnd l = t := by
    funext l t
    exact propext trimmed_iff
  rw [htrimmed, ← List.forall₂_map_left_iff (R := (· = ·)), List.forall₂_eq_eq_eq]

/-- The lines of a text without white space at their ends, from the first to the last that is not
empty. -/
inductive Kept (cs : List Char) (kept : List (List Char)) : Prop where
  /-- The others are empty lines at the start and at the end. -/
  | intro {ls before after : List (List Char)} (lines : LinesOf cs ls)
      (trimmed : List.Forall₂ Trimmed ls (before ++ kept ++ after))
      (before_empty : ∀ l ∈ before, l = []) (after_empty : ∀ l ∈ after, l = [])
      (first : ∀ l ∈ kept.head?, l ≠ []) (last : ∀ l ∈ kept.getLast?, l ≠ [])

theorem kept_tidyLines (cs : List Char) : Kept cs (tidyLines cs) := by
  obtain ⟨before, after, hparts, hbefore, hafter⟩ := exists_trimWhile_append (· == [])
    ((split '\n' cs).map (dropEndWhile isLineEnd))
  refine .intro (linesOf_iff.2 rfl) (forall₂_trimmed_iff.2 hparts)
    (fun l hl => beq_iff_eq.1 (hbefore l hl)) (fun l hl => beq_iff_eq.1 (hafter l hl))
    (fun l hl => beq_eq_false_iff_ne.1 ?_) (fun l hl => beq_eq_false_iff_ne.1 ?_)
  · exact head?_trimWhile _ l hl
  · exact getLast?_trimWhile _ l hl

theorem Kept.tidyLines_eq (h : Kept cs kept) : tidyLines cs = kept := by
  obtain ⟨hlines, htrimmed, hbefore, hafter, hfirst, hlast⟩ := h
  rw [tidyLines, linesOf_iff.1 hlines, forall₂_trimmed_iff.1 htrimmed]
  exact trimWhile_append (fun l hl => beq_iff_eq.2 (hbefore l hl))
    (fun l hl => beq_iff_eq.2 (hafter l hl)) (fun l hl => beq_eq_false_iff_ne.2 (hfirst l hl))
    (fun l hl => beq_eq_false_iff_ne.2 (hlast l hl))

theorem kept_iff : Kept cs kept ↔ kept = tidyLines cs :=
  ⟨fun h => h.tidyLines_eq.symm, fun h => h ▸ kept_tidyLines cs⟩

/-! ## Tidy lines -/

/-- Lines that are kept as they are. -/
structure IsTidy (ls : List (List Char)) : Prop where
  /-- No line has a line break. -/
  unbroken : ∀ l ∈ ls, '\n' ∉ l
  /-- No line has white space at its end. -/
  trimmed : ∀ l ∈ ls, ∀ c ∈ l.getLast?, isLineEnd c = false
  /-- The first line is not empty. -/
  first : ∀ l ∈ ls.head?, l ≠ []
  /-- The last line is not empty. -/
  last : ∀ l ∈ ls.getLast?, l ≠ []

theorem isTidy_tidyLines (cs : List Char) : IsTidy (tidyLines cs) := by
  obtain ⟨hlines, htrimmed, -, -, hfirst, hlast⟩ := kept_tidyLines cs
  have hmem : ∀ t ∈ tidyLines cs, ∃ l ∈ split '\n' cs, dropEndWhile isLineEnd l = t := by
    intro t ht
    rw [← List.mem_map, linesOf_iff.1 hlines, forall₂_trimmed_iff.1 htrimmed]
    exact List.mem_append_left _ (List.mem_append_right _ ht)
  refine ⟨fun t ht hbreak => ?_, fun t ht => ?_, hfirst, hlast⟩ <;> obtain ⟨l, hl, rfl⟩ := hmem t ht
  · have hfront := dropEndWhile_prefix (p := isLineEnd) l
    exact not_mem_of_mem_split hl (hfront.mem hbreak)
  · exact getLast?_dropEndWhile l

/-- Tidy lines are kept as they are. -/
theorem IsTidy.tidyLines_joinWith (h : IsTidy ls) : tidyLines (joinWith ['\n'] ls) = ls := by
  by_cases hls : ls = []
  · rw [hls]
    rfl
  · have htrimmed : List.Forall₂ Trimmed ls ([] ++ ls ++ []) := by
      rw [List.nil_append, List.append_nil]
      exact List.forall₂_same.2 fun l hl => trimmed_iff.2
        (dropEndWhile_of_getLast? (h.trimmed l hl))
    exact Kept.tidyLines_eq (.intro ⟨hls, h.unbroken, rfl⟩ htrimmed nofun nofun h.first h.last)

/-! ## Differences in layout -/

/-- The first text has one character more than the second, of those that do not count. -/
inductive Looser : List Char → List Char → Prop where
  /-- White space at the end of a line. -/
  | lineEnd {before after : List Char} {c : Char} (blank : isLineEnd c = true)
      (stop : ∀ d ∈ after.head?, d = '\n') : Looser (before ++ c :: after) (before ++ after)
  /-- An empty line at the start. -/
  | first {cs : List Char} : Looser ('\n' :: cs) cs
  /-- An empty line at the end. -/
  | last {cs : List Char} : Looser (cs ++ ['\n']) cs

/-- The texts differ in white space at the ends of lines and in empty lines at the start and at the
end. -/
def SameLayout : List Char → List Char → Prop := Relation.EqvGen Looser

/-- White space at the end of a line is cut off the line. -/
theorem trimmedLines_of_lineEnd (before : List Char) (hc : isLineEnd c = true)
    (hstop : ∀ d ∈ after.head?, d = '\n') :
    (split '\n' (before ++ c :: after)).map (dropEndWhile isLineEnd) =
      (split '\n' (before ++ after)).map (dropEndWhile isLineEnd) := by
  induction before with
  | nil =>
    have hbreak : c ≠ '\n' := by
      rintro rfl
      cases hc
    have hblank : ∀ d ∈ [c], isLineEnd d = true := List.forall_mem_singleton.2 hc
    have hline : dropEndWhile isLineEnd ([] ++ [c]) = [] := dropEndWhile_append_of_forall hblank
    rw [List.nil_append] at hline
    cases after with
    | nil =>
      rw [List.nil_append, split_of_not_mem (by simpa using Ne.symm hbreak), List.map_singleton,
        hline]
      rfl
    | cons d after =>
      rw [hstop d rfl, List.nil_append, split, if_neg hbreak, List.nil_append, split, if_pos rfl,
        List.map_cons, hline, List.map_cons]
      rfl
  | cons b before ih =>
    rw [List.cons_append, List.cons_append, split, split]
    split
    · rw [List.map_cons, List.map_cons, ih]
    · cases hlong : split '\n' (before ++ c :: after) with
      | nil => exact absurd hlong (split_ne_nil _)
      | cons l ls =>
        cases hshort : split '\n' (before ++ after) with
        | nil => exact absurd hshort (split_ne_nil _)
        | cons m ms =>
          rw [hlong, hshort, List.map_cons, List.map_cons, List.cons.injEq] at ih
          rw [List.map_cons, List.map_cons, dropEndWhile_cons_congr b ih.1, ih.2]

/-- Empty lines at the start and at the end are not kept. -/
theorem tidyLines_of_outer {as bs : List (List Char)} (has : ∀ l ∈ as, l = [])
    (hbs : ∀ l ∈ bs, l = []) (h : (split '\n' cs).map (dropEndWhile isLineEnd) =
      as ++ (split '\n' ds).map (dropEndWhile isLineEnd) ++ bs) : tidyLines cs = tidyLines ds := by
  rw [tidyLines, h]
  exact trimWhile_extend (fun l hl => beq_iff_eq.2 (has l hl)) fun l hl => beq_iff_eq.2 (hbs l hl)

theorem Looser.tidyLines_eq (h : Looser cs ds) : tidyLines cs = tidyLines ds := by
  have hempty : ∀ l ∈ [([] : List Char)], l = [] := fun _ => List.mem_singleton.1
  have hnone : ∀ l ∈ ([] : List (List Char)), l = [] := nofun
  cases h with
  | lineEnd blank stop => rw [tidyLines, tidyLines, trimmedLines_of_lineEnd _ blank stop]
  | first =>
    refine tidyLines_of_outer hempty hnone ?_
    rw [split, if_pos rfl, List.append_nil]
    rfl
  | last =>
    refine tidyLines_of_outer hnone hempty ?_
    rw [split_append, List.map_append]
    rfl

/-- Texts of the same layout have the same lines. -/
theorem SameLayout.tidyLines_eq (h : SameLayout cs ds) : tidyLines cs = tidyLines ds := by
  induction h with
  | rel _ _ h => exact h.tidyLines_eq
  | refl => rfl
  | symm _ _ _ ih => exact ih.symm
  | trans _ _ _ _ _ ih ih' => exact ih.trans ih'

namespace SameLayout

theorem refl (cs : List Char) : SameLayout cs cs := Relation.EqvGen.refl cs

theorem symm (h : SameLayout cs ds) : SameLayout ds cs := Relation.EqvGen.symm _ _ h

theorem trans {es : List Char} (h : SameLayout cs ds) (h' : SameLayout ds es) :
    SameLayout cs es := Relation.EqvGen.trans _ _ _ h h'

theorem of_looser (h : Looser cs ds) : SameLayout cs ds := Relation.EqvGen.rel _ _ h

/-- Any amount of white space at the end of a line makes no difference. -/
theorem lineEnd (before : List Char) {blanks after : List Char}
    (hblanks : ∀ c ∈ blanks, isLineEnd c = true) (hstop : ∀ d ∈ after.head?, d = '\n') :
    SameLayout (before ++ blanks ++ after) (before ++ after) := by
  induction blanks using List.reverseRecOn with
  | nil =>
    rw [List.append_nil]
    exact refl _
  | append_singleton blanks c ih =>
    obtain ⟨hrest, hc⟩ := List.forall_mem_append.1 hblanks
    have hlooser : Looser (before ++ blanks ++ c :: after) (before ++ blanks ++ after) :=
      .lineEnd (hc c List.mem_cons_self) hstop
    rw [← List.append_assoc, List.append_assoc, List.singleton_append]
    exact (of_looser hlooser).trans (ih hrest)

/-- The ends of all lines can be trimmed. -/
theorem trimmedLines (before : List Char) (ls : List (List Char)) :
    SameLayout (before ++ joinWith ['\n'] ls)
      (before ++ joinWith ['\n'] (ls.map (dropEndWhile isLineEnd))) := by
  induction ls generalizing before with
  | nil => exact refl _
  | cons l ls ih =>
    obtain ⟨blanks, hl, hblanks⟩ := exists_dropEndWhile_append isLineEnd l
    by_cases hls : ls = []
    · have hstop : ∀ d ∈ ([] : List Char).head?, d = '\n' := nofun
      have h := lineEnd (before ++ dropEndWhile isLineEnd l) hblanks hstop
      rw [List.append_nil, List.append_nil, List.append_assoc, ← hl] at h
      rw [hls]
      exact h
    · have hstop : ∀ d ∈ ('\n' :: joinWith ['\n'] ls).head?, d = '\n' :=
        fun d hd => (Option.some.inj hd).symm
      have h := lineEnd (before ++ dropEndWhile isLineEnd l) hblanks hstop
      have hnext := ih (before ++ dropEndWhile isLineEnd l ++ ['\n'])
      rw [joinWith_cons hls, List.map_cons, joinWith_cons (by simpa using hls)]
      rw [List.append_assoc before, ← hl] at h
      simp only [List.append_assoc, List.singleton_append] at h hnext ⊢
      exact h.trans hnext

/-- Empty lines at the start can be left out. -/
theorem outer_first {as : List (List Char)} (has : ∀ l ∈ as, l = []) (ls : List (List Char)) :
    SameLayout (joinWith ['\n'] (as ++ ls)) (joinWith ['\n'] ls) := by
  induction as with
  | nil => exact refl _
  | cons l as ih =>
    obtain ⟨rfl, hrest⟩ := List.forall_mem_cons.1 has
    by_cases hnone : as ++ ls = []
    · obtain ⟨rfl, rfl⟩ := List.append_eq_nil_iff.1 hnone
      exact refl _
    · rw [List.cons_append, joinWith_cons hnone]
      exact (of_looser .first).trans (ih hrest)

/-- Empty lines at the end can be left out. -/
theorem outer_last {bs : List (List Char)} (hbs : ∀ l ∈ bs, l = []) (ls : List (List Char)) :
    SameLayout (joinWith ['\n'] (ls ++ bs)) (joinWith ['\n'] ls) := by
  induction bs using List.reverseRecOn with
  | nil =>
    rw [List.append_nil]
    exact refl _
  | append_singleton bs l ih =>
    obtain ⟨hrest, hl⟩ := List.forall_mem_append.1 hbs
    obtain rfl := hl l List.mem_cons_self
    by_cases hnone : ls ++ bs = []
    · obtain ⟨rfl, rfl⟩ := List.append_eq_nil_iff.1 hnone
      exact refl _
    · rw [← List.append_assoc, joinWith_concat hnone, List.append_nil ['\n']]
      exact (of_looser .last).trans (ih hrest)

/-- A text has the layout of its formatted form. -/
theorem formatted (cs : List Char) : SameLayout cs (formatChars none cs) := by
  obtain ⟨as, bs, hparts, has, hbs⟩ := exists_trimWhile_append (· == [])
    ((split '\n' cs).map (dropEndWhile isLineEnd))
  have htrimmed := trimmedLines [] (split '\n' cs)
  rw [List.nil_append, List.nil_append, joinWith_split, hparts, List.append_assoc] at htrimmed
  have houter : SameLayout (joinWith ['\n'] (as ++ (tidyLines cs ++ bs)))
      (joinWith ['\n'] (tidyLines cs)) :=
    (outer_first (fun l hl => beq_iff_eq.1 (has l hl)) _).trans
      (outer_last (fun l hl => beq_iff_eq.1 (hbs l hl)) _)
  exact (htrimmed.trans houter).trans (of_looser .last).symm

end SameLayout

/-! ## The normal form -/

theorem formatChars_none (cs : List Char) :
    formatChars none cs = joinWith ['\n'] (tidyLines cs) ++ ['\n'] := rfl

/-- Texts have the same layout just if they have the same formatted form. -/
theorem sameLayout_iff : SameLayout cs ds ↔ formatChars none cs = formatChars none ds := by
  constructor
  · intro h
    rw [formatChars_none, formatChars_none, h.tidyLines_eq]
  · intro h
    have hds := SameLayout.formatted ds
    rw [← h] at hds
    exact (SameLayout.formatted cs).trans hds.symm

/-- Texts of the same layout have the same characters, but for those that do not count. -/
theorem SameLayout.mem_iff (hc : isLineEnd c = false) (hbreak : c ≠ '\n')
    (h : SameLayout cs ds) : c ∈ cs ↔ c ∈ ds := by
  induction h with
  | rel _ _ h =>
    cases h with
    | @lineEnd before after d blank stop =>
      have hd : c ≠ d := by
        rintro rfl
        cases hc.symm.trans blank
      simp [hd]
    | first => simp [hbreak]
    | last => simp [hbreak]
  | refl => rfl
  | symm _ _ _ ih => exact ih.symm
  | trans _ _ _ _ _ ih ih' => exact ih.trans ih'

theorem format_of_mem {s : String} (h : '\x00' ∈ s.toList) (prologue : Option String) (p : Path) :
    format prologue p s = .error (.rejected p.text "refusing to format binary contents") :=
  if_pos (List.contains_iff_mem.2 h)

theorem format_of_notMem {s : String} (h : '\x00' ∉ s.toList) (prologue : Option String)
    (p : Path) : format prologue p s = .ok (String.ofList (formatChars prologue s.toList)) :=
  if_neg fun hmem => h (List.contains_iff_mem.1 hmem)

/-- **Formatting gives a normal form.** A text with a NUL character is refused. Otherwise the lines
of the text are kept, without white space at their ends, from the first to the last that is then not
empty, with a line break after each. Formatting again changes nothing, and just the texts of the
same layout give this one. -/
theorem format_normal_form (p : Path) (s : String) :
    ('\x00' ∈ s.toList →
      format none p s = .error (.rejected p.text "refusing to format binary contents")) ∧
    ('\x00' ∉ s.toList → ∃ (kept : List (List Char)) (out : String),
      (∀ ls, Kept s.toList ls ↔ ls = kept) ∧ format none p s = .ok out ∧
      out.toList = joinWith ['\n'] kept ++ ['\n'] ∧ format none p out = .ok out ∧
      ∀ (q : Path) (t : String), format none q t = .ok out ↔ SameLayout s.toList t.toList) := by
  refine ⟨fun h => format_of_mem h none p, fun h => ?_⟩
  have hmem : ∀ {ds : List Char}, SameLayout s.toList ds → '\x00' ∉ ds := fun hds hnul =>
    h ((hds.mem_iff (by decide) (by decide)).2 hnul)
  have hsame : ∀ (q : Path) (t : String),
      format none q t = .ok (String.ofList (formatChars none s.toList)) ↔
        SameLayout s.toList t.toList := by
    intro q t
    constructor
    · intro ht
      by_cases hnul : '\x00' ∈ t.toList
      · cases (format_of_mem hnul none q).symm.trans ht
      · rw [format_of_notMem hnul, Except.ok.injEq, String.ofList_inj] at ht
        exact sameLayout_iff.2 ht.symm
    · intro hlayout
      rw [format_of_notMem (hmem hlayout), sameLayout_iff.1 hlayout]
  refine ⟨tidyLines s.toList, String.ofList (formatChars none s.toList), fun ls => kept_iff,
    format_of_notMem h none p, ?_, (hsame p _).2 ?_, hsame⟩
  · rw [String.toList_ofList, formatChars_none]
  · rw [String.toList_ofList]
    exact .formatted s.toList

end StagedCodegen.SourceFormat
