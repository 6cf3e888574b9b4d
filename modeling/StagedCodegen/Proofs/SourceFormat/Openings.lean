import StagedCodegen.Proofs.SourceFormat.Layout

/-!
# The first line of sources

Files of some languages begin with a line of their own (`IsTag`). Formatting puts it before the
lines that are kept, unless the first of them is this line, blanks before it aside. So a text that
has code after the tag on its first line gets the tag twice, an indented tag stays indented, and of
a text in which no line is kept nothing comes out but the tag and three line breaks. In all other
respects the formatted text is in normal form (`Opened`).

Main statement: `format_opens`.
-/

namespace StagedCodegen.SourceFormat

open StagedCodegen.Text

variable {cs tag indent code : List Char} {ls : List (List Char)}

/-! ## Tags -/

/-- The text can be the first line of a file: it is one line, not empty, and has no white space at
its start or end. -/
structure IsTag (tag : List Char) : Prop where
  ne_nil : tag ≠ []
  /-- It has no line break. -/
  unbroken : '\n' ∉ tag
  /-- It has no NUL character. -/
  plain : '\x00' ∉ tag
  /-- It does not begin with a blank. -/
  first : ∀ c ∈ tag.head?, isBlank c = false
  /-- It does not end with white space. -/
  last : ∀ c ∈ tag.getLast?, isLineEnd c = false

/-- The first line has the tag, after blanks and before code. -/
structure HasTag (tag : List Char) (ls : List (List Char)) (indent code : List Char) : Prop where
  /-- This is the line. -/
  line : ls.head? = some (indent ++ (tag ++ code))
  /-- There are only blanks before the tag. -/
  blank : ∀ c ∈ indent, isBlank c = true

/-- The tag is found where it stands. -/
theorem IsTag.dropWhile_isBlank (h : IsTag tag) (hindent : ∀ c ∈ indent, isBlank c = true) :
    (indent ++ (tag ++ code)).dropWhile isBlank = tag ++ code := by
  rw [List.dropWhile_append_of_pos hindent]
  cases htag : tag with
  | nil => exact absurd htag h.ne_nil
  | cons c cs =>
    have hc : isBlank c = false := h.first c (by rw [htag]; rfl)
    rw [List.cons_append, List.dropWhile_cons_of_neg (by simp [hc])]

theorem beginsWith_iff (h : IsTag tag) : beginsWith tag ls = true ↔
    ∃ indent, HasTag tag ls indent [] := by
  cases ls with
  | nil => exact ⟨nofun, fun ⟨_, h⟩ => nomatch h.line⟩
  | cons l ls =>
    rw [beginsWith, beq_iff_eq]
    constructor
    · intro hl
      refine ⟨l.takeWhile isBlank, ?_, fun c => List.mem_takeWhile_imp⟩
      rw [List.append_nil, ← hl, List.takeWhile_append_dropWhile, List.head?_cons]
    · rintro ⟨indent, hline, hblank⟩
      rw [Option.some.inj hline, h.dropWhile_isBlank hblank, List.append_nil]

theorem beginsWith_self (h : IsTag tag) (ls : List (List Char)) :
    beginsWith tag (tag :: ls) = true :=
  (beginsWith_iff h).2 ⟨[], ⟨by simp, List.forall_mem_nil _⟩⟩

/-- There is one place only where the tag can stand. -/
theorem HasTag.beginsWith_iff (htag : IsTag tag) (h : HasTag tag ls indent code) :
    beginsWith tag ls = true ↔ code = [] := by
  cases ls with
  | nil => cases h.line
  | cons l ls =>
    rw [beginsWith, beq_iff_eq, Option.some.inj h.line, htag.dropWhile_isBlank h.blank]
    simp

/-! ## Tidy texts -/

/-- The text ends with one line break and not with two. -/
def EndsOnce (cs : List Char) : Prop := ∃ body, cs = body ++ ['\n'] ∧ body.getLast? ≠ some '\n'

theorem endsOnce_concat : EndsOnce (cs ++ ['\n']) ↔ cs.getLast? ≠ some '\n' := by
  constructor
  · rintro ⟨body, hbody, hlast⟩
    rwa [List.append_cancel_right hbody]
  · exact fun h => ⟨cs, rfl, h⟩

theorem getLast?_joinWith_concat {l : List Char} (hl : l ≠ []) (init : List (List Char)) :
    (joinWith ['\n'] (init ++ [l])).getLast? = l.getLast? := by
  by_cases hinit : init = []
  · rw [hinit]
    rfl
  · rw [joinWith_concat hinit, ← List.append_assoc, List.getLast?_append_of_ne_nil _ hl]

theorem IsTidy.endsOnce (h : IsTidy ls) (hne : ls ≠ []) :
    EndsOnce (joinWith ['\n'] ls ++ ['\n']) := by
  obtain ⟨init, l, rfl⟩ := (List.eq_nil_or_concat' ls).resolve_left hne
  rw [endsOnce_concat, getLast?_joinWith_concat (h.last l (by simp))]
  exact fun hbreak => h.unbroken l (by simp) (List.mem_of_getLast? hbreak)

theorem IsTidy.tidyLines_formatted (h : IsTidy ls) :
    tidyLines (joinWith ['\n'] ls ++ ['\n']) = ls :=
  (SameLayout.of_looser .last).tidyLines_eq.trans h.tidyLines_joinWith

/-- Tidy lines are formatted already. -/
theorem IsTidy.formatChars_none (h : IsTidy ls) :
    formatChars none (joinWith ['\n'] ls ++ ['\n']) = joinWith ['\n'] ls ++ ['\n'] := by
  rw [SourceFormat.formatChars_none, h.tidyLines_formatted]

theorem IsTidy.linesOf (h : IsTidy ls) (hne : ls ≠ []) :
    LinesOf (joinWith ['\n'] ls ++ ['\n']) (ls ++ [[]]) := by
  refine ⟨by simp, List.forall_mem_append.2 ⟨h.unbroken, by simp⟩, ?_⟩
  rw [joinWith_concat hne]
  rfl

/-- The tag and an empty line can be put before tidy lines. -/
theorem IsTag.isTidy (h : IsTag tag) (hls : IsTidy ls) (hne : ls ≠ []) :
    IsTidy (tag :: [] :: ls) := by
  refine ⟨?_, ?_, ?_, ?_⟩
  · simpa using ⟨h.unbroken, hls.unbroken⟩
  · simpa using ⟨h.last, hls.trimmed⟩
  · simpa using h.ne_nil
  · cases ls with
    | nil => exact absurd rfl hne
    | cons l ls =>
      rw [List.getLast?_cons_cons, List.getLast?_cons_cons]
      exact hls.last

theorem IsTag.isTidy_singleton (h : IsTag tag) : IsTidy [tag] := by
  refine ⟨?_, ?_, ?_, ?_⟩
  · simpa using h.unbroken
  · simpa using h.last
  · simpa using h.ne_nil
  · simpa using h.ne_nil

/-! ## Formatted texts -/

theorem formatChars_some (tag : String) (cs : List Char) :
    formatChars (some tag) cs =
      if beginsWith tag.toList (tidyLines cs) then formatChars none cs
      else tag.toList ++ '\n' :: '\n' :: formatChars none cs := by
  rw [formatChars, opening]
  split
  · rfl
  · rw [formatChars_none]
    simp only [List.append_assoc, List.cons_append, List.nil_append]

/-- Tidy lines that begin with the tag are formatted already. -/
theorem IsTidy.formatChars_some {tag : String} (h : IsTidy ls)
    (hbegins : beginsWith tag.toList ls = true) :
    formatChars (some tag) (joinWith ['\n'] ls ++ ['\n']) = joinWith ['\n'] ls ++ ['\n'] := by
  rw [SourceFormat.formatChars_some, h.tidyLines_formatted, if_pos hbegins, h.formatChars_none]

section

variable {tag : String} (htag : IsTag tag.toList)

include htag

/-- What comes of a text in which lines are kept is in normal form and begins with the tag. -/
theorem exists_tidy_of_kept (hkept : tidyLines cs ≠ []) :
    ∃ ls, ls ≠ [] ∧ IsTidy ls ∧ beginsWith tag.toList ls = true ∧
      formatChars (some tag) cs = joinWith ['\n'] ls ++ ['\n'] := by
  rw [formatChars_some, formatChars_none]
  split
  · next hbegins => exact ⟨_, hkept, isTidy_tidyLines cs, hbegins, rfl⟩
  · refine ⟨tag.toList :: [] :: tidyLines cs, by simp, htag.isTidy (isTidy_tidyLines cs) hkept,
      beginsWith_self htag _, ?_⟩
    rw [joinWith_cons (by simp), joinWith_cons hkept]
    simp only [List.append_assoc, List.cons_append, List.nil_append]

theorem formatChars_some_of_kept (hkept : tidyLines cs ≠ []) :
    formatChars (some tag) (formatChars (some tag) cs) = formatChars (some tag) cs := by
  obtain ⟨ls, -, htidy, hbegins, hout⟩ := exists_tidy_of_kept htag hkept
  rw [hout]
  exact htidy.formatChars_some hbegins

/-- If no lines are kept, nothing comes but the tag. -/
theorem formatChars_some_of_empty (hkept : tidyLines cs = []) :
    formatChars (some tag) cs = tag.toList ++ ['\n'] ++ ['\n'] ++ ['\n'] ∧
      formatChars (some tag) (formatChars (some tag) cs) = tag.toList ++ ['\n'] := by
  have hout : formatChars (some tag) cs = tag.toList ++ ['\n'] ++ ['\n'] ++ ['\n'] := by
    rw [formatChars_some, formatChars_none, hkept, if_neg (by simp [beginsWith])]
    simp [joinWith]
  have htidy := htag.isTidy_singleton
  have hlines : tidyLines (tag.toList ++ ['\n'] ++ ['\n'] ++ ['\n']) = [tag.toList] := by
    rw [Looser.last.tidyLines_eq, Looser.last.tidyLines_eq]
    exact htidy.tidyLines_formatted
  have hbegins := beginsWith_self htag []
  refine ⟨hout, ?_⟩
  rw [hout, formatChars_some, formatChars_none, hlines, if_pos hbegins]
  rfl

end

/-- What comes of a text in which these lines are kept, when it is formatted once and again. -/
structure Opened (tag : List Char) (kept : List (List Char)) (out again : List Char) : Prop where
  /-- The lines are there, and the tag and an empty line may be put before them. -/
  shape : out = joinWith ['\n'] kept ++ ['\n'] ∨
    out = tag ++ '\n' :: '\n' :: (joinWith ['\n'] kept ++ ['\n'])
  /-- They are put before lines that have no tag, -/
  added : (∀ indent code, ¬HasTag tag kept indent code) →
    out = tag ++ '\n' :: '\n' :: (joinWith ['\n'] kept ++ ['\n'])
  /-- and if there is a tag, just if there is code after it on its line. -/
  once : ∀ indent code, HasTag tag kept indent code →
    (out = joinWith ['\n'] kept ++ ['\n'] ↔ code = [])
  /-- The text begins with the tag, unless this was there and indented. -/
  begins : tag <+: out ↔ ∀ indent, HasTag tag kept indent [] → indent = []
  /-- It ends with one line break if any lines were kept. -/
  ends : EndsOnce out ↔ kept ≠ []
  /-- There is no white space at the ends of its lines. -/
  trimmed : ∀ ls, LinesOf out ls → ∀ l ∈ ls, ∀ c ∈ l.getLast?, isLineEnd c = false
  /-- It stays as it is if any lines were kept. -/
  stays : again = out ↔ kept ≠ []

theorem ne_added (tag cs : List Char) : cs ≠ tag ++ '\n' :: '\n' :: cs := by
  intro h
  have hlength := congrArg List.length h
  simp only [List.length_append, List.length_cons] at hlength
  omega

/-- The tag is not put before a text just if it is there already, with no code after it. -/
theorem formatChars_some_eq_none_iff (tag : String) (cs : List Char) :
    formatChars (some tag) cs = formatChars none cs ↔
      beginsWith tag.toList (tidyLines cs) = true := by
  rw [formatChars_some]
  split
  · next h => exact iff_of_true rfl h
  · next h => exact iff_of_false (ne_added _ _).symm h

theorem HasTag.exists_formatted (h : HasTag tag ls indent code) :
    ∃ more, joinWith ['\n'] ls ++ ['\n'] = indent ++ (tag ++ more) := by
  cases ls with
  | nil => cases h.line
  | cons l ls =>
    obtain rfl := Option.some.inj h.line
    by_cases hls : ls = []
    · refine ⟨code ++ ['\n'], ?_⟩
      rw [hls, joinWith]
      simp only [List.append_assoc]
    · refine ⟨code ++ (['\n'] ++ (joinWith ['\n'] ls ++ ['\n'])), ?_⟩
      rw [joinWith_cons hls]
      simp only [List.append_assoc]

/-- What begins with the tag is not indented. -/
theorem IsTag.eq_nil_of_isPrefix (h : IsTag tag) (hindent : ∀ c ∈ indent, isBlank c = true)
    (hfront : tag <+: indent ++ cs) : indent = [] := by
  cases indent with
  | nil => rfl
  | cons c indent =>
    cases htag : tag with
    | nil => exact absurd htag h.ne_nil
    | cons d tag' =>
      have hd : isBlank d = false := h.first d (by rw [htag]; rfl)
      rw [htag, List.cons_append, List.cons_prefix_cons] at hfront
      cases (hindent c List.mem_cons_self).symm.trans (hfront.1 ▸ hd)

theorem isPrefix_formatChars_some_iff {tag : String} (htag : IsTag tag.toList) (cs : List Char) :
    tag.toList <+: formatChars (some tag) cs ↔
      ∀ indent, HasTag tag.toList (tidyLines cs) indent [] → indent = [] := by
  rw [formatChars_some]
  split
  · next hbegins =>
    rw [formatChars_none]
    constructor
    · intro hfront indent h
      obtain ⟨more, hout⟩ := h.exists_formatted
      exact htag.eq_nil_of_isPrefix h.blank (hout ▸ hfront)
    · intro hindent
      obtain ⟨indent, h⟩ := (beginsWith_iff htag).1 hbegins
      obtain ⟨more, hout⟩ := h.exists_formatted
      rw [hout, hindent indent h]
      exact List.prefix_append _ _
  · next hbegins =>
    refine iff_of_true (List.prefix_append _ _) fun indent h => absurd ?_ hbegins
    exact (beginsWith_iff htag).2 ⟨indent, h⟩

/-- What comes of a text is as it should be if lines are kept. -/
theorem tidy_of_kept {tag : String} (htag : IsTag tag.toList) (hkept : tidyLines cs ≠ []) :
    EndsOnce (formatChars (some tag) cs) ∧
      ∃ ls, LinesOf (formatChars (some tag) cs) ls ∧
        ∀ l ∈ ls, ∀ c ∈ l.getLast?, isLineEnd c = false := by
  obtain ⟨ls, hne, htidy, -, hout⟩ := exists_tidy_of_kept htag hkept
  rw [hout]
  refine ⟨htidy.endsOnce hne, _, htidy.linesOf hne, ?_⟩
  exact List.forall_mem_append.2 ⟨htidy.trimmed, by simp⟩

/-- If no lines are kept, there are three line breaks at the end. -/
theorem tidy_of_empty {tag : String} (htag : IsTag tag.toList) (hkept : tidyLines cs = []) :
    ¬EndsOnce (formatChars (some tag) cs) ∧
      ∃ ls, LinesOf (formatChars (some tag) cs) ls ∧
        ∀ l ∈ ls, ∀ c ∈ l.getLast?, isLineEnd c = false := by
  rw [(formatChars_some_of_empty htag hkept).1, endsOnce_concat]
  refine ⟨by simp, [tag.toList, [], [], []], ⟨by simp, ?_, ?_⟩, ?_⟩
  · simpa using htag.unbroken
  · simp [joinWith]
  · simpa using htag.last

theorem opened {tag : String} (htag : IsTag tag.toList) (cs : List Char) :
    Opened tag.toList (tidyLines cs) (formatChars (some tag) cs)
      (formatChars (some tag) (formatChars (some tag) cs)) := by
  have hnone := formatChars_none cs
  have htrimmed : ∃ ls, LinesOf (formatChars (some tag) cs) ls ∧
      ∀ l ∈ ls, ∀ c ∈ l.getLast?, isLineEnd c = false := by
    by_cases hkept : tidyLines cs = []
    · exact (tidy_of_empty htag hkept).2
    · exact (tidy_of_kept htag hkept).2
  obtain ⟨ls, hls, hends⟩ := htrimmed
  refine ⟨?_, fun h => ?_, fun indent code h => ?_, isPrefix_formatChars_some_iff htag cs,
    ⟨fun h hkept => (tidy_of_empty htag hkept).1 h, fun hkept => (tidy_of_kept htag hkept).1⟩,
    fun ls' hls' => ?_, ⟨fun h hkept => ?_, formatChars_some_of_kept htag⟩⟩
  · rw [formatChars_some, hnone]
    exact ite_eq_or_eq _ _ _
  · rw [formatChars_some, if_neg, hnone]
    rw [beginsWith_iff htag]
    exact fun ⟨indent, hindent⟩ => h indent [] hindent
  · rw [← hnone, formatChars_some_eq_none_iff, h.beginsWith_iff htag]
  · rwa [← linesOf_iff.1 hls', linesOf_iff.1 hls]
  · obtain ⟨hout, hagain⟩ := formatChars_some_of_empty htag hkept
    rw [hagain, hout] at h
    have hlength := congrArg List.length h
    simp at hlength

/-- After the second time nothing changes any more. -/
theorem formatChars_some_again {tag : String} (htag : IsTag tag.toList) (cs : List Char) :
    let again := formatChars (some tag) (formatChars (some tag) cs)
    formatChars (some tag) again = again := by
  intro again
  by_cases hkept : tidyLines cs = []
  · have hagain : again = joinWith ['\n'] [tag.toList] ++ ['\n'] :=
      (formatChars_some_of_empty htag hkept).2
    rw [hagain]
    exact htag.isTidy_singleton.formatChars_some (beginsWith_self htag [])
  · have hagain : again = formatChars (some tag) cs := formatChars_some_of_kept htag hkept
    rw [hagain, formatChars_some_of_kept htag hkept]

theorem nul_notMem_formatChars_some {tag : String} (htag : IsTag tag.toList)
    (hcs : '\x00' ∉ cs) : '\x00' ∉ formatChars (some tag) cs := by
  have hnone : '\x00' ∉ formatChars none cs :=
    fun h => hcs (((SameLayout.formatted cs).mem_iff (by decide) (by decide)).2 h)
  rw [formatChars_some]
  split
  · exact hnone
  · simpa using ⟨htag.plain, hnone⟩

theorem format_ofList (h : '\x00' ∉ cs) (prologue : Option String) (p : Path) :
    format prologue p (.ofList cs) = .ok (.ofList (formatChars prologue cs)) := by
  have hnul : '\x00' ∉ (String.ofList cs).toList := by rwa [String.toList_ofList]
  rw [format_of_notMem hnul, String.toList_ofList]

/-- **What comes of a text that is formatted with a tag.** Its lines are kept as without one, and
the tag stands before them once, unless it has code after it on its first line or is indented there;
and if no lines are kept, then what comes is formatted once more to the tag alone. -/
theorem format_opens {tag : String} (htag : IsTag tag.toList) (p : Path) {s : String}
    (hs : '\x00' ∉ s.toList) :
    ∃ (kept : List (List Char)) (out again : String), (∀ ls, Kept s.toList ls ↔ ls = kept) ∧
      format (some tag) p s = .ok out ∧ format (some tag) p out = .ok again ∧
      format (some tag) p again = .ok again ∧ Opened tag.toList kept out.toList again.toList := by
  have hopened := opened htag s.toList
  have hstill := formatChars_some_again htag s.toList
  have hfirst := format_of_notMem hs (some tag) p
  have hout := nul_notMem_formatChars_some htag hs
  have hagain := nul_notMem_formatChars_some htag hout
  generalize formatChars (some tag) s.toList = out at *
  have hsecond := format_ofList hout (some tag) p
  generalize formatChars (some tag) out = again at *
  have hthird := format_ofList hagain (some tag) p
  rw [hstill] at hthird
  refine ⟨tidyLines s.toList, .ofList out, .ofList again, fun ls => kept_iff, hfirst, hsecond,
    hthird, ?_⟩
  rwa [String.toList_ofList, String.toList_ofList]

theorem isTag_php : IsTag "<?php".toList := by
  refine ⟨by decide, by decide, by decide, ?_, ?_⟩ <;> rintro _ ⟨⟩ <;> rfl

/-- The opening line of PHP is a tag, and it is put before a text that has it with code after it. -/
theorem format_opens_code :
    IsTag "<?php".toList ∧ '\x00' ∉ "\n<?php f(); \n".toList ∧
      ∃ out : String, php ⟨"a.php"⟩ "\n<?php f(); \n" = .ok out ∧
        out.toList = "<?php\n\n<?php f();\n".toList ∧ EndsOnce out.toList ∧
        php ⟨"a.php"⟩ out = .ok out := by
  have hs : '\x00' ∉ "\n<?php f(); \n".toList := by decide
  obtain ⟨kept, out, again, hkept, hout, hagain, -, h⟩ := format_opens isTag_php ⟨"a.php"⟩ hs
  have hlines : ["<?php f();".toList] = kept := (hkept _).1 (kept_iff.2 (by rfl))
  have hne : kept ≠ [] := by rw [← hlines]; exact List.cons_ne_nil _ _
  have hcode : HasTag "<?php".toList kept [] " f();".toList :=
    ⟨by rw [← hlines]; rfl, nofun⟩
  obtain rfl : again = out := String.toList_inj.1 (h.stays.2 hne)
  refine ⟨isTag_php, hs, again, hout, ?_, h.ends.2 hne, hagain⟩
  rcases h.shape with hplain | hadded
  · exact absurd ((h.once _ _ hcode).1 hplain) (by decide)
  · rw [hadded, ← hlines]
    rfl

/-- The tag is put before a text that has it already, with code after it on its line or without; it
stays where it is indented; and of an empty text nothing comes that would stay. -/
theorem tag_is_misplaced :
    php ⟨"a.php"⟩ "<?php f();\n" = .ok "<?php\n\n<?php f();\n" ∧
      php ⟨"a.php"⟩ "  <?php\nf();\n" = .ok "  <?php\nf();\n" ∧
      php ⟨"a.php"⟩ "" = .ok "<?php\n\n\n" ∧
      php ⟨"a.php"⟩ "<?php\n\n\n" = .ok "<?php\n" :=
  ⟨rfl, rfl, rfl, rfl⟩

end StagedCodegen.SourceFormat
