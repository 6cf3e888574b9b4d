import StagedCodegen.Core.Source
import StagedCodegen.Proofs.Json.RoundTrip
import StagedCodegen.Text.Split

/-!
# Literals in generated sources

The route and the capability of a resource stand between quotes in its sources. Each language has
its own way to write what is between quotes and its own way to read it (`Quoting`). Whatever
characters a text has and whatever comes after the closing quote, what is written is read back up to
this quote and no further (`Faithful`).

Main statement: `literals_read_back`.
-/

namespace StagedCodegen

namespace Text

/-- A single character is replaced wherever it stands. -/
theorem replace_singleton (c : Char) (replacement cs : List Char) :
    replace [c] replacement cs = cs.flatMap fun d => if d = c then replacement else [d] := by
  induction cs with
  | nil => rw [replace, List.flatMap_nil]
  | cons d ds ih =>
    rw [replace, List.flatMap_cons, ← ih]
    by_cases h : d = c
    · simp [h]
    · simp [h, Ne.symm h]

/-- Backslashes are doubled before quotes get theirs. -/
theorem SingleQuoted.quote_eq_replace (cs : List Char) :
    quote cs = replace ['\''] ['\\', '\''] (replace ['\\'] ['\\', '\\'] cs) := by
  rw [replace_singleton, replace_singleton, List.flatMap_assoc]
  refine List.flatMap_congr fun c _ => ?_
  rw [quoteChar]
  split
  · rfl
  · simp

end Text

namespace Core

open StagedCodegen.Representation

/-! ## Between quotes -/

/-- How a text is written between quotes, and how it is read from the opening quote on. -/
structure Quoting where
  /-- The quote. -/
  mark : Char
  /-- What stands between the quotes. -/
  write : List Char → List Char
  /-- The text up to the closing quote and what comes after this, if there is one. -/
  read : List Char → Option (List Char × List Char)

namespace Quoting

variable {q : Quoting}

/-- Single quotes in PHP. -/
def php : Quoting where
  mark := '\''
  write cs := Text.replace ['\''] ['\\', '\''] (Text.replace ['\\'] ['\\', '\\'] cs)
  read := Text.SingleQuoted.read

/-- Quotes in JSON. -/
def json : Quoting where
  mark := '"'
  write := Json.escape
  read cs := Json.Parser.text? (cs.length + 1) cs

/-- What is written is read back, and nothing after the closing quote is. -/
def Faithful (q : Quoting) : Prop :=
  ∀ cs rest, q.read (q.write cs ++ q.mark :: rest) = some (cs, rest)

theorem php_write (cs : List Char) : php.write cs = Text.SingleQuoted.quote cs :=
  (Text.SingleQuoted.quote_eq_replace cs).symm

theorem faithful_php : php.Faithful := fun cs rest => by
  rw [php_write]
  exact Text.SingleQuoted.read_quote cs rest

theorem faithful_json : json.Faithful := fun cs rest => by
  have hlength := Json.length_escape cs
  refine Json.text?_escape ?_ rest
  simp only [json, List.length_append]
  omega

/-- A text between quotes. -/
def literal (q : Quoting) (s : String) : String :=
  .ofList (q.mark :: (q.write s.toList ++ [q.mark]))

theorem php_literal (s : String) : php.literal s = "'" ++ phpQuote s ++ "'" := by
  rw [← String.toList_inj, String.toList_append, String.toList_append, literal, phpQuote,
    String.toList_ofList, String.toList_ofList, php_write]
  simp [php]

/-- A value between quotes is read as that value, and nothing else is. -/
theorem parse?_json_literal (s : String) : Json.parse? (json.literal s) = some (.string s) := by
  have hread := Json.parse?_printIndented (v := .string s) trivial [] nofun
  rwa [String.ofList_nil, String.append_empty] at hread

/-- In a text, after an opening and before the rest of the text, there is a value between quotes.
From the opening quote on this value is read, and reading ends before the rest. -/
structure Literal (q : Quoting) (text opening value rest : String) : Prop where
  /-- This is the text. -/
  written : text = opening ++ q.literal value ++ rest
  /-- This is how it is read. -/
  reads : ∃ after, text.toList = opening.toList ++ q.mark :: after ∧
    q.read after = some (value.toList, rest.toList)

theorem Faithful.literal (h : q.Faithful) (opening value rest : String) :
    q.Literal (opening ++ q.literal value ++ rest) opening value rest := by
  refine ⟨rfl, q.write value.toList ++ q.mark :: rest.toList, ?_, h _ _⟩
  rw [String.toList_append, String.toList_append, Quoting.literal, String.toList_ofList]
  simp only [List.append_assoc, List.cons_append, List.nil_append]

end Quoting

/-! ## Sources -/

theorem ofLines_cons (l : String) (ls : List String) :
    ofLines (l :: ls) = l ++ "\n" ++ ofLines ls := by
  simp [ofLines]

theorem ofLines_append (ls ms : List String) : ofLines (ls ++ ms) = ofLines ls ++ ofLines ms := by
  rw [ofLines, List.map_append, String.join_append, ← ofLines, ← ofLines]

/-- A literal can stand in a line that ends with a semicolon. -/
theorem Quoting.Faithful.ofLines {q : Quoting} (h : q.Faithful) (ls : List String)
    (opening value : String) (ms : List String) :
    q.Literal (ofLines (ls ++ (opening ++ q.literal value ++ ";") :: ms)) (ofLines ls ++ opening)
      value (";\n" ++ ofLines ms) := by
  have hend : ";\n" = ";" ++ "\n" := rfl
  have hlines : Core.ofLines (ls ++ (opening ++ q.literal value ++ ";") :: ms) =
      Core.ofLines ls ++ opening ++ q.literal value ++ (";\n" ++ Core.ofLines ms) := by
    rw [ofLines_append, ofLines_cons, hend]
    simp only [String.append_assoc]
  rw [hlines]
  exact h.literal _ _ _

/-- What comes before the constants of a resource's controller. -/
def classHead (d : Data) (r : Resource) : List String :=
  ["<?php",
    banner d,
    "declare(strict_types=1);",
    "",
    "namespace " ++ Text.pascalCase d.identity.slug ++ "\\Rest;",
    "",
    "final class " ++ Text.pascalCase r.name ++ "Controller",
    "\x7b"]

/-- What comes after the constants. -/
def classEnd : List String :=
  ["",
    "    public function permission_check(): bool",
    "    \x7b",
    "        return current_user_can(self::CAPABILITY);",
    "    \x7d",
    "\x7d"]

/-- The line of a constant. -/
def constantLine (name value : String) : String :=
  "    public const " ++ name ++ " = " ++ Quoting.php.literal value ++ ";"

theorem constantLine_eq (name value : String) :
    constantLine name value = "    public const " ++ name ++ " = '" ++ phpQuote value ++ "';" := by
  have hassoc : ∀ opening name sign mark text ending : String,
      opening ++ name ++ sign ++ (mark ++ text ++ mark) ++ ending =
        opening ++ name ++ (sign ++ mark) ++ text ++ (mark ++ ending) := by
    intro opening name sign mark text ending
    simp only [String.append_assoc]
  calc constantLine name value
    _ = "    public const " ++ name ++ " = " ++ ("'" ++ phpQuote value ++ "'") ++ ";" :=
      congrArg (fun text => "    public const " ++ name ++ " = " ++ text ++ ";")
        (Quoting.php_literal value)
    _ = "    public const " ++ name ++ (" = " ++ "'") ++ phpQuote value ++ ("'" ++ ";") :=
      hassoc _ _ _ _ _ _
    _ = _ := rfl

theorem phpController_eq (d : Data) (r : Resource) :
    phpController d r = ofLines (classHead d r ++ constantLine "ROUTE" r.route ::
      constantLine "CAPABILITY" (resolvedCapability d r) :: classEnd) := by
  have hroute : constantLine "ROUTE" r.route =
    "    public const ROUTE = '" ++ phpQuote r.route ++ "';" := constantLine_eq _ _
  have hcapability : constantLine "CAPABILITY" (resolvedCapability d r) =
    "    public const CAPABILITY = '" ++ phpQuote (resolvedCapability d r) ++ "';" :=
    constantLine_eq _ _
  rw [hroute, hcapability]
  rfl

/-- What comes after the route in a resource's client. -/
def clientEnd (r : Resource) : List String :=
  ["",
    "export async function fetch" ++ Text.pascalCase r.name ++
      "(init?: RequestInit): Promise<Response> \x7b",
    "  return fetch(" ++ (Text.camelCase r.name ++ "Route") ++ ", init);",
    "\x7d"]

theorem tsClient_eq (d : Data) (r : Resource) :
    tsClient d r = ofLines ([banner d] ++
      ("export const " ++ (Text.camelCase r.name ++ "Route") ++ " = " ++
        Quoting.json.literal r.route ++ ";") :: clientEnd r) := rfl

/-- **Whatever characters the route and the capability of a resource have, they are read back** from
their literals in the controller, each up to the closing quote that the template puts there, and the
route from its literal in the client. -/
theorem literals_read_back (d : Data) (r : Resource) :
    Quoting.php.Literal (phpController d r)
      (ofLines (classHead d r) ++ "    public const ROUTE = ") r.route
      (";\n" ++ ofLines (constantLine "CAPABILITY" (resolvedCapability d r) :: classEnd)) ∧
    Quoting.php.Literal (phpController d r)
      (ofLines (classHead d r ++ [constantLine "ROUTE" r.route]) ++
        "    public const CAPABILITY = ")
      (resolvedCapability d r) (";\n" ++ ofLines classEnd) ∧
    Quoting.json.Literal (tsClient d r)
      (ofLines [banner d] ++ ("export const " ++ (Text.camelCase r.name ++ "Route") ++ " = "))
        r.route
      (";\n" ++ ofLines (clientEnd r)) ∧
    Json.parse? (Quoting.json.literal r.route) = some (.string r.route) := by
  refine ⟨?_, ?_, ?_, Quoting.parse?_json_literal r.route⟩
  · rw [phpController_eq]
    exact Quoting.faithful_php.ofLines _ _ _ _
  · rw [phpController_eq, List.append_cons]
    exact Quoting.faithful_php.ofLines _ _ _ _
  · rw [tsClient_eq]
    exact Quoting.faithful_json.ofLines _ _ _ _

end Core

end StagedCodegen
