/-!
# Single-quoted literals

Between single quotes every character stands for itself, except that a backslash takes the quote or
the backslash after it for itself.

Main statement: `read_quote`, by which reading what was quoted gives the text back and ends at the
closing quote.
-/

namespace StagedCodegen.Text.SingleQuoted

/-- One character as it is written between the quotes. -/
def quoteChar (c : Char) : List Char :=
  if c = '\\' then ['\\', '\\'] else if c = '\'' then ['\\', '\''] else [c]

/-- A text as it is written between the quotes. -/
def quote (cs : List Char) : List Char := cs.flatMap quoteChar

/-- The text up to the closing quote, and what comes after that quote. -/
def read : List Char → Option (List Char × List Char)
  | [] => none
  | '\'' :: rest => some ([], rest)
  | '\\' :: '\\' :: rest => (read rest).map fun (s, r) => ('\\' :: s, r)
  | '\\' :: '\'' :: rest => (read rest).map fun (s, r) => ('\'' :: s, r)
  | c :: rest => (read rest).map fun (s, r) => (c :: s, r)

theorem read_quote (cs rest : List Char) : read (quote cs ++ '\'' :: rest) = some (cs, rest) := by
  induction cs with
  | nil => simp [quote, read]
  | cons c cs ih =>
    have hq : quote (c :: cs) = quoteChar c ++ quote cs := rfl
    rw [hq, quoteChar]
    split
    · next h => subst h; simp [read, ih]
    · split
      · next h => subst h; simp [read, ih]
      · next hb hs => rw [List.singleton_append, List.cons_append, read] <;> simp_all

end StagedCodegen.Text.SingleQuoted
