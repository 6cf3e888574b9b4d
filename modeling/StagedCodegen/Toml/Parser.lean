import StagedCodegen.Toml.Scalar
import StagedCodegen.Toml.Tree

/-!
# Documents of TOML

A document is read line by line into its root table. Arrays and tables in braces nest to a limit.
-/

namespace StagedCodegen.Toml

/-- Arrays and tables in braces may nest less deep than this, and keys have fewer parts. -/
def nestingLimit : Nat := 80

/-- A key that has not too many parts. -/
def boundedKey? (cs : List Char) : Option (List String × List Char) :=
  match key? (cs.length + 1) cs with
  | some (key, rest) => if key.length < nestingLimit then some (key, rest) else none
  | none => none

/-! ## Values -/

mutual
/-- A value inside `depth` brackets. -/
def value? : (fuel depth : Nat) → List Char → Option (Json × List Char)
  | 0, _, _ => none
  | fuel + 1, depth, cs =>
    match cs with
    | [] => none
    | c :: rest =>
      if c == '[' then
        if nestingLimit ≤ depth + 1 then none
        else if rest.head? == some ']' then some (.array [], rest.drop 1)
        else
          (items? fuel (depth + 1) rest).map fun (xs, rest) => (.array xs, rest)
      else if c == '\x7b' then
        if nestingLimit ≤ depth + 1 then none
        else
          let rest := skipSpace rest
          if rest.head? == some '\x7d' then some (.object [], rest.drop 1)
          else
            (members? fuel (depth + 1) [] rest).map fun (ms, rest) =>
              (.object (membersToJson ms), rest)
      else scalar? cs
/-- The values of an array up to its closing bracket, with commas between them, and maybe one at
the end. -/
def items? : (fuel depth : Nat) → List Char → Option (List Json × List Char)
  | 0, _, _ => none
  | fuel + 1, depth, cs =>
    let cs := skipLines (cs.length + 1) cs
    if cs.head? == some ']' then some ([], cs.drop 1)
    else
      match value? fuel depth cs with
      | none => none
      | some (x, cs) =>
        let cs := skipLines (cs.length + 1) cs
        if cs.head? == some ',' then
          (items? fuel depth (cs.drop 1)).map fun (xs, cs) => (x :: xs, cs)
        else if cs.head? == some ']' then some ([x], cs.drop 1)
        else none
/-- The members of a table in braces up to its closing brace, after those in `ms`. -/
def members? : (fuel depth : Nat) → (ms : Members) → List Char → Option (Members × List Char)
  | 0, _, _, _ => none
  | fuel + 1, depth, ms, cs =>
    match boundedKey? cs with
    | none => none
    | some (key, cs) =>
      if cs.head? == some '=' then
        match value? fuel depth (skipSpace (cs.drop 1)) with
        | none => none
        | some (v, cs) =>
          match setKey key (.value v) .opened ms with
          | none => none
          | some ms =>
            let cs := skipSpace cs
            if cs.head? == some ',' then members? fuel depth ms (cs.drop 1)
            else if cs.head? == some '\x7d' then some (ms, cs.drop 1)
            else none
      else none
end

/-! ## Lines -/

/-- What has been read of a document. -/
structure Document where
  /-- The path of the table that the last header has opened. -/
  header : List String
  /-- The root table. -/
  root : Members

/-- A header, after its opening bracket. -/
def headerLine? (d : Document) (cs : List Char) : Option (Document × List Char) := do
  let list := cs.head? == some '['
  let (key, cs) ← boundedKey? (if list then cs.drop 1 else cs)
  let closing := if list then [']', ']'] else [']']
  if cs.take closing.length == closing then
    return (⟨key, ← openHeader list key d.root⟩, ← endLine? (cs.drop closing.length))
  else none

/-- A key with its value. -/
def keyLine? (d : Document) (cs : List Char) : Option (Document × List Char) := do
  let (key, cs) ← boundedKey? cs
  if cs.head? == some '=' then
    let cs := skipSpace (cs.drop 1)
    let (v, cs) ← value? (cs.length + 1) 0 cs
    return ({ d with root := ← setUnder d.header key (.value v) d.root }, ← endLine? cs)
  else none

/-- Lines up to the end of the text. -/
def lines? : (fuel : Nat) → Document → List Char → Option Document
  | 0, _, _ => none
  | fuel + 1, d, cs =>
    match skipSpace cs with
    | [] => some d
    | c :: rest =>
      if c == '[' then (headerLine? d rest).bind fun (d, cs) => lines? fuel d cs
      else if c == '#' || c == '\n' || c == '\x0d' then
        (endLine? (c :: rest)).bind fun cs => lines? fuel d cs
      else (keyLine? d (c :: rest)).bind fun (d, cs) => lines? fuel d cs

/-- The root table of a text. -/
def parse? (s : String) : Option Json :=
  let cs := s.toList
  let cs := if cs.head?.map Char.toNat == some 0xfeff then cs.drop 1 else cs
  (lines? (cs.length + 1) ⟨[], []⟩ cs).map fun d => .object (membersToJson d.root)

end StagedCodegen.Toml
