import StagedCodegen.Proofs.Core.Literals
import StagedCodegen.Proofs.Core.Queue

/-!
# The version in generated sources

The first comment of a source names the version of the project, as it stands in the settings. A
comment goes on to the first text that closes it, and languages differ in what that is
(`LineComment`). As long as none of these texts is in the version, the version stays in the comment.
Otherwise the version from there on, and the end of the banner with it, is code.

Main statement: `sources_confine_version`.
-/

namespace StagedCodegen

open StagedCodegen.Representation

variable {κ : Type} {o : RunOptions}

/-- The same data, for a project of this version. -/
def Representation.Data.withVersion (d : Data) (version : String) : Data :=
  { d with identity := { d.identity with version := version } }

/-- The same options, but for settings with this version. -/
def RunOptions.withVersion (o : RunOptions) (version : String) : RunOptions :=
  { o with settings.project.version := version }

namespace Core

/-! ## Line comments -/

/-- Comments from two slashes on, by the texts that close them. -/
structure LineComment where
  /-- The texts that close a comment. -/
  closers : List (List Char)

namespace LineComment

variable {q : LineComment} {cs rest : List Char} {x : Char}

/-- Comments that go on to the end of their line, whatever the language is. -/
def line : LineComment := ⟨[['\n']]⟩

/-- Comments in PHP, which the end of the code closes as well. -/
def php : LineComment := ⟨[['\n'], ['\r'], ['?', '>']]⟩

/-- Comments in TypeScript. -/
def typeScript : LineComment := ⟨[['\n'], ['\r'], ['\u2028'], ['\u2029']]⟩

/-- A text that closes the comment stands here. -/
def closes (q : LineComment) (cs : List Char) : Bool := q.closers.any (·.isPrefixOf cs)

/-- What is left of a comment, and of all that comes after it, from where it is closed. -/
def after (q : LineComment) : List Char → List Char
  | [] => []
  | c :: cs => if q.closes (c :: cs) then c :: cs else q.after cs

/-- A text without its first comment. -/
def strip (q : LineComment) : List Char → List Char
  | [] => []
  | '/' :: '/' :: cs => q.after cs
  | c :: cs => c :: q.strip cs

theorem prefix_append_cons_iff {m : List Char} (hx : x ∉ m) :
    m <+: cs ++ x :: rest ↔ m <+: cs := by
  refine ⟨fun h => ?_, fun h => h.trans (List.prefix_append _ _)⟩
  rcases List.prefix_or_prefix_of_prefix h (List.prefix_append cs (x :: rest)) with hm | hm
  · exact hm
  · obtain ⟨n, rfl⟩ := hm
    cases n with
    | nil => simp
    | cons y n =>
      rw [List.prefix_append_right_inj, List.cons_prefix_cons] at h
      obtain ⟨rfl, -⟩ := h
      exact absurd (by simp) hx

theorem closes_append_cons (hx : ∀ m ∈ q.closers, x ∉ m) (cs rest : List Char) :
    q.closes (cs ++ x :: rest) = q.closes cs := by
  rw [closes, closes, Bool.eq_iff_iff, List.any_eq_true, List.any_eq_true]
  refine exists_congr fun m => and_congr_right fun hm => ?_
  rw [List.isPrefixOf_iff_prefix, List.isPrefixOf_iff_prefix, prefix_append_cons_iff (hx m hm)]

/-- What stands behind a character that is in no closer is reached just if the comment is not closed
before it. -/
theorem after_append_cons (hx : ∀ m ∈ q.closers, x ∉ m) (cs rest : List Char) :
    q.after (cs ++ x :: rest) =
      if q.after cs = [] then q.after (x :: rest) else q.after cs ++ x :: rest := by
  induction cs with
  | nil => rfl
  | cons c cs ih =>
    have hcloses : q.closes (c :: (cs ++ x :: rest)) = q.closes (c :: cs) :=
      closes_append_cons hx (c :: cs) rest
    rw [List.cons_append, after, after, hcloses]
    by_cases hc : q.closes (c :: cs) = true
    · rw [if_pos hc, if_pos hc, if_neg (List.cons_ne_nil c cs), List.cons_append]
    · rw [if_neg hc, if_neg hc, ih]

/-- Nothing is left just if no text that closes the comment is in it. -/
theorem after_eq_nil_iff (hempty : [] ∉ q.closers) :
    q.after cs = [] ↔ ∀ m ∈ q.closers, ¬m <:+: cs := by
  induction cs with
  | nil =>
    refine iff_of_true rfl fun m hm h => hempty ?_
    rwa [List.eq_nil_of_infix_nil h] at hm
  | cons c cs ih =>
    rw [after]
    by_cases hc : q.closes (c :: cs) = true
    · obtain ⟨m, hm, hprefix⟩ := List.any_eq_true.mp hc
      rw [if_pos hc]
      refine iff_of_false (List.cons_ne_nil c cs) fun h => h m hm ?_
      exact (List.isPrefixOf_iff_prefix.mp hprefix).isInfix
    · rw [if_neg hc, ih]
      refine forall₂_congr fun m hm => not_congr ?_
      rw [List.infix_cons_iff, or_iff_right]
      exact fun h => hc (List.any_eq_true.mpr ⟨m, hm, List.isPrefixOf_iff_prefix.mpr h⟩)

theorem strip_append (h : '/' ∉ cs) (rest : List Char) :
    q.strip (cs ++ '/' :: '/' :: rest) = cs ++ q.after rest := by
  induction cs with
  | nil => rfl
  | cons c cs ih =>
    obtain ⟨hc, hcs⟩ := not_or.mp (mt List.mem_cons.mpr h)
    rw [List.cons_append, strip, ih hcs, List.cons_append]
    rintro rest rfl -
    exact hc rfl

/-! ## The banner -/

/-- A comment is closed with its line, and nothing that the banner says can be part of what closes
it. -/
structure Fits (q : LineComment) : Prop where
  /-- What closes a comment is not empty, and has neither a blank nor a point in it. -/
  plain : ∀ m ∈ q.closers, m ≠ [] ∧ ' ' ∉ m ∧ '.' ∉ m
  /-- The words before the version and behind it do not close a comment. -/
  words : q.after "Generated by genpipe".toList = [] ∧ q.after "Do not edit".toList = []
  /-- The end of the line closes a comment. -/
  newline : ['\n'] ∈ q.closers

theorem fits_line : line.Fits := ⟨by decide, by decide, by decide⟩

theorem fits_php : php.Fits := ⟨by decide, by decide, by decide⟩

theorem fits_typeScript : typeScript.Fits := ⟨by decide, by decide, by decide⟩

section Fits

variable (h : q.Fits)
include h

theorem Fits.nil_not_mem : [] ∉ q.closers := fun hm => (h.plain _ hm).1 rfl

/-- A character that is in no closer is passed over. -/
theorem Fits.after_cons (hx : ∀ m ∈ q.closers, x ∉ m) (rest : List Char) :
    q.after (x :: rest) = q.after rest := by
  have hnone : q.closes [] = false := Bool.eq_false_iff.mpr fun hc => by
    obtain ⟨m, hm, hprefix⟩ := List.any_eq_true.mp hc
    exact (h.plain m hm).1 (List.prefix_nil.mp (List.isPrefixOf_iff_prefix.mp hprefix))
  have hcloses : q.closes (x :: rest) = q.closes [] := closes_append_cons hx [] rest
  rw [after, hcloses, hnone, if_neg Bool.false_ne_true]

theorem Fits.after_blank (rest : List Char) : q.after (' ' :: rest) = q.after rest :=
  h.after_cons (fun m hm => (h.plain m hm).2.1) rest

theorem Fits.after_point (rest : List Char) : q.after ('.' :: rest) = q.after rest :=
  h.after_cons (fun m hm => (h.plain m hm).2.2) rest

theorem Fits.after_newline (rest : List Char) : q.after ('\n' :: rest) = '\n' :: rest := by
  refine if_pos (List.any_eq_true.mpr ⟨_, h.newline, ?_⟩)
  rfl

/-- The end of the banner is passed over. -/
theorem Fits.after_ending (rest : List Char) :
    q.after ('.' :: ' ' :: ("Do not edit".toList ++ '.' :: '\n' :: rest)) = '\n' :: rest := by
  have hpoint : ∀ m ∈ q.closers, '.' ∉ m := fun m hm => (h.plain m hm).2.2
  rw [h.after_point, h.after_blank, after_append_cons hpoint, if_pos h.words.2, h.after_point,
    h.after_newline]

/-- What is left of the banner: the line break, unless the version closes the comment before. -/
theorem Fits.after_banner (cs rest : List Char) :
    q.after (' ' :: ("Generated by genpipe".toList ++ ' ' :: (cs ++ '.' :: ' ' ::
      ("Do not edit".toList ++ '.' :: '\n' :: rest)))) =
        (if q.after cs = [] then [] else q.after cs ++ ". Do not edit.".toList) ++
          '\n' :: rest := by
  have hblank : ∀ m ∈ q.closers, ' ' ∉ m := fun m hm => (h.plain m hm).2.1
  have hpoint : ∀ m ∈ q.closers, '.' ∉ m := fun m hm => (h.plain m hm).2.2
  rw [h.after_blank, after_append_cons hblank, if_pos h.words.1, h.after_blank,
    after_append_cons hpoint]
  split
  · rw [h.after_ending, List.nil_append]
  · rw [List.append_assoc]
    rfl

end Fits

/-! ## Sources -/

/-- What of a version, and of the banner behind it, is not in the comment. -/
def spilled (q : LineComment) (version : String) : List Char :=
  if q.after version.toList = [] then [] else q.after version.toList ++ ". Do not edit.".toList

/-- A source for each version, as somebody reads it for whom comments are closed in this way. -/
structure Confines (q : LineComment) (source : String → String) : Prop where
  /-- The version is in the banner and nowhere else. Without the first comment there is left what is
  around the banner, and of the banner what is spilled. -/
  slot : ∃ opening ending : String, ∀ version,
    source version =
      opening ++ ("// Generated by genpipe " ++ version ++ ". Do not edit.") ++ "\n" ++ ending ∧
    q.strip (source version).toList =
      opening.toList ++ (q.spilled version ++ '\n' :: ending.toList)
  /-- Without the first comment the sources for two versions are the same just if the versions are
  from where they close it. -/
  strip_eq_iff : ∀ v w, q.strip (source v).toList = q.strip (source w).toList ↔
    q.after v.toList = q.after w.toList
  /-- A version closes the comment just if a text that closes it is in the version. -/
  closed_iff : ∀ v : String, q.after v.toList = [] ↔ ∀ m ∈ q.closers, ¬m <:+: v.toList

theorem spilled_eq_iff {v w : String} :
    q.spilled v = q.spilled w ↔ q.after v.toList = q.after w.toList := by
  have hend : ". Do not edit.".toList ≠ [] := by decide
  rw [spilled, spilled]
  by_cases hv : q.after v.toList = []
  · by_cases hw : q.after w.toList = []
    · simp [hv, hw]
    · simp [hv, hw, Ne.symm hw]
  · by_cases hw : q.after w.toList = []
    · simp [hv, hw]
    · rw [if_neg hv, if_neg hw, List.append_left_inj]

theorem Fits.confines (h : q.Fits) {source : String → String} {opening ending : String}
    (hopening : '/' ∉ opening.toList) (hsource : ∀ version, source version =
      opening ++ ("// Generated by genpipe " ++ version ++ ". Do not edit.") ++ "\n" ++ ending) :
    q.Confines source := by
  have hstrip : ∀ version, q.strip (source version).toList =
      opening.toList ++ (q.spilled version ++ '\n' :: ending.toList) := by
    intro version
    have hchars : (source version).toList = opening.toList ++ '/' :: '/' :: ' ' ::
        ("Generated by genpipe".toList ++ ' ' :: (version.toList ++ '.' :: ' ' ::
          ("Do not edit".toList ++ '.' :: '\n' :: ending.toList))) := by
      rw [hsource]
      simp only [String.toList_append, List.append_assoc]
      rfl
    rw [hchars, strip_append hopening, h.after_banner, spilled]
  refine ⟨⟨opening, ending, fun version => ⟨hsource version, hstrip version⟩⟩, fun v w => ?_,
    fun v => after_eq_nil_iff h.nil_not_mem⟩
  rw [hstrip, hstrip, List.append_right_inj, List.append_left_inj, spilled_eq_iff]

end LineComment

/-! ## Versions -/

theorem phpController_withVersion (d : Data) (r : Resource) (version : String) :
    phpController (d.withVersion version) r =
      "<?php\n" ++ ("// Generated by genpipe " ++ version ++ ". Do not edit.") ++ "\n" ++
        ofLines ((classHead d r).drop 2 ++ constantLine "ROUTE" r.route ::
          constantLine "CAPABILITY" (resolvedCapability d r) :: classEnd) := by
  have hlines : phpController (d.withVersion version) r =
      ofLines ("<?php" :: banner (d.withVersion version) :: ((classHead d r).drop 2 ++
        constantLine "ROUTE" r.route :: constantLine "CAPABILITY" (resolvedCapability d r) ::
          classEnd)) := phpController_eq (d.withVersion version) r
  rw [hlines, ofLines_cons, ofLines_cons, ← String.append_assoc, ← String.append_assoc]
  rfl

theorem tsClient_withVersion (d : Data) (r : Resource) (version : String) :
    tsClient (d.withVersion version) r =
      "" ++ ("// Generated by genpipe " ++ version ++ ". Do not edit.") ++ "\n" ++
        ofLines (("export const " ++ (Text.camelCase r.name ++ "Route") ++ " = " ++
          Quoting.json.literal r.route ++ ";") :: clientEnd r) := by
  rw [tsClient_eq, List.singleton_append, ofLines_cons, String.empty_append]
  rfl

theorem confines_phpController {q : LineComment} (h : q.Fits) (d : Data) (r : Resource) :
    q.Confines fun version => phpController (d.withVersion version) r := by
  have hopening : '/' ∉ "<?php\n".toList := by decide
  exact h.confines hopening (phpController_withVersion d r)

theorem confines_tsClient {q : LineComment} (h : q.Fits) (d : Data) (r : Resource) :
    q.Confines fun version => tsClient (d.withVersion version) r :=
  h.confines List.not_mem_nil (tsClient_withVersion d r)

/-- **Where the version of a project goes.** The controller and the client of a resource have the
version in their banners and nowhere else. The sources for two versions are the same outside of the
header line, or outside of the comment that the language reads there, just if the versions are the
same from their first line break on, or from whatever else closes the comment. In particular they
are if nothing that does is in either of the versions. -/
theorem sources_confine_version (d : Data) (r : Resource) :
    LineComment.line.Confines (fun version => phpController (d.withVersion version) r) ∧
      LineComment.php.Confines (fun version => phpController (d.withVersion version) r) ∧
      LineComment.line.Confines (fun version => tsClient (d.withVersion version) r) ∧
      LineComment.typeScript.Confines (fun version => tsClient (d.withVersion version) r) :=
  ⟨confines_phpController LineComment.fits_line d r,
    confines_phpController LineComment.fits_php d r,
    confines_tsClient LineComment.fits_line d r,
    confines_tsClient LineComment.fits_typeScript d r⟩

/-! ## Versions that are code -/

theorem identity_withVersion (o : RunOptions) (version key : String) :
    identity (o.withVersion version) key =
      (identity o key).map fun m => { m with version := version } := by
  by_cases h : Speakable o
  · rw [identity_of_speakable h, identity_of_speakable (o := o.withVersion version) h]
    rfl
  · rw [identity_of_not_speakable h, identity_of_not_speakable (o := o.withVersion version) h]
    rfl

/-- In a run of the core helpers alone, another version changes nothing in the data but the
version. -/
theorem data_withVersion {p q : Pipeline κ} {w w' : World κ} {r r' : RunResult} {s s' : Session κ}
    {version : String} (hempty : p.registry = .empty) (halone : p.extensions = [])
    (hcore : registerAll p = (.ok (), q)) (hrun : q.run o w = (.ok r, s))
    (hrun' : q.run (o.withVersion version) w' = (.ok r', s')) :
    r'.artifact.data = r.artifact.data.withVersion version := by
  obtain ⟨m, hm, hartifact⟩ := exists_identity_of_run hempty halone hcore hrun
  obtain ⟨m', hm', hartifact'⟩ := exists_identity_of_run hempty halone hcore hrun'
  rw [identity_withVersion, hm] at hm'
  cases hm'
  rw [hartifact, hartifact']
  rfl

/-- A project with one resource. -/
def shelf : RunOptions := { sharing with
  settings := { sharing.settings with
    project := ⟨"demo", "0.1.0", [⟨"books", "/books", none⟩], .empty⟩ } }

/-- Nothing is wrong with a version that has a line break in it, and what follows there is a line of
the sources. -/
theorem version_is_code : let version := "1\nexit();\n//"
    shelf.settings.problems = [] ∧ (shelf.withVersion version).settings.problems = [] ∧
      ∃ (r r' : RunResult) (s s' : Session Unit) (c : Resource),
        alone.run shelf ⟨⟨[], []⟩, [], [], ()⟩ = (.ok r, s) ∧
        alone.run (shelf.withVersion version) ⟨⟨[], []⟩, [], [], ()⟩ = (.ok r', s') ∧
        r.artifact.data.resources = [c] ∧
        r'.artifact.data = r.artifact.data.withVersion version ∧
        LineComment.line.strip (phpController r'.artifact.data c).toList ≠
          LineComment.line.strip (phpController r.artifact.data c).toList ∧
        LineComment.line.strip (tsClient r'.artifact.data c).toList ≠
          LineComment.line.strip (tsClient r.artifact.data c).toList ∧
        (∃ before after, phpController r'.artifact.data c = before ++ "\nexit();\n" ++ after) ∧
        ∃ before after, tsClient r'.artifact.data c = before ++ "\nexit();\n" ++ after := by
  intro version
  have hspeakable : Speakable shelf := by decide +kernel
  have hcore : registerAll (.new : Pipeline Unit) = (.ok (), alone) := registerAll_eq rfl
  obtain ⟨r, s, hrun⟩ : ∃ r s, alone.run shelf ⟨⟨[], []⟩, [], [], ()⟩ = (.ok r, s) :=
    exists_run_of_speakable hspeakable usualFamilies _
  obtain ⟨r', s', hrun'⟩ : ∃ r s, alone.run (shelf.withVersion version) ⟨⟨[], []⟩, [], [], ()⟩ =
    (.ok r, s) := exists_run_of_speakable (o := shelf.withVersion version) hspeakable _ _
  have hdata' := data_withVersion rfl rfl hcore hrun hrun'
  obtain ⟨m, hm, hartifact⟩ := exists_identity_of_run rfl rfl hcore hrun
  have hresources : r.artifact.data.resources = [⟨"books", "/books", none⟩] := by
    have hvalues : (resourceMap shelf.settings.project.resources).values =
        [⟨"books", "/books", none⟩] := by decide +kernel
    rw [hartifact, ← hvalues]
    rfl
  have hdata : r.artifact.data = r.artifact.data.withVersion "0.1.0" := by
    rw [identity_of_speakable hspeakable] at hm
    rw [hartifact, ← Except.ok.inj hm]
    rfl
  have hafter : LineComment.line.after version.toList ≠
      LineComment.line.after "0.1.0".toList := by decide
  refine ⟨by decide +kernel, by decide +kernel, r, r', s, s', _, hrun, hrun', hresources, hdata',
    ?_, ?_, ?_, ?_⟩ <;> rw [hdata']
  · rw [hdata]
    exact mt ((confines_phpController LineComment.fits_line _ _).strip_eq_iff _ _).mp hafter
  · rw [hdata]
    exact mt ((confines_tsClient LineComment.fits_line _ _).strip_eq_iff _ _).mp hafter
  · have hbanner :
        "<?php\n" ++ ("// Generated by genpipe " ++ version ++ ". Do not edit.") ++ "\n" =
          "<?php\n// Generated by genpipe 1" ++ "\nexit();\n" ++ "//. Do not edit.\n" := by
      decide +kernel
    rw [phpController_withVersion, hbanner, String.append_assoc]
    exact ⟨_, _, rfl⟩
  · have hbanner : "" ++ ("// Generated by genpipe " ++ version ++ ". Do not edit.") ++ "\n" =
        "// Generated by genpipe 1" ++ "\nexit();\n" ++ "//. Do not edit.\n" := by
      decide +kernel
    rw [tsClient_withVersion, hbanner, String.append_assoc]
    exact ⟨_, _, rfl⟩

end Core

end StagedCodegen
