import StagedCodegen.Run.Session

/-!
# The ledger of transactions

What hooks have begun and not settled. All of it is made final in the order in which it was begun,
up to the first that fails, or all of it is undone in the opposite order, whatever fails.
-/

namespace StagedCodegen

/-- Something begun that is to be made final or undone. -/
structure Transaction (κ : Type) where
  /-- Make it final. -/
  commit : Act (World κ) Unit
  /-- Undo it. -/
  rollback : Act (World κ) Unit

/-- A transaction with nothing to do. -/
def Transaction.idle {κ : Type} : Transaction κ := ⟨pure (), pure ()⟩

/-- What has been begun, the oldest first, each under the key of who began it. -/
abbrev Ledger (κ : Type) := List (String × Transaction κ)

namespace Ledger

variable {κ : Type}

/-- Begin something more. -/
def record (l : Ledger κ) (key : String) (t : Transaction κ) : Ledger κ := l ++ [(key, t)]

/-- Who began something. -/
def keys (l : Ledger κ) : List String := l.map (·.1)

/-- Make entries final, the first of which has the given index. -/
def commitFrom : (index : Nat) → Ledger κ → Act (Session κ) Unit
  | _, [] => pure ()
  | i, (key, t) :: rest => do
    Session.call (.commit i) t.commit
    Session.complete .commit key
    commitFrom (i + 1) rest

/-- Make everything final, up to the first entry that fails. -/
def commitAll (l : Ledger κ) : Act (Session κ) Unit := commitFrom 0 l

/-- Undo one entry, and count it if that fails. -/
def undo (entry : (String × Transaction κ) × Nat) (s : Session κ) (failures : Nat) :
    Nat × Session κ :=
  match Session.call (.rollback entry.2) entry.1.2.rollback s with
  | (.ok (), s) => (failures, s)
  | (.error _, s) => (failures + 1, s)

/-- Undo entries in the given order. The result is how many of them failed. -/
def undoAll : List ((String × Transaction κ) × Nat) → Session κ → Nat → Nat × Session κ
  | [], s, failures => (failures, s)
  | e :: es, s, failures => undoAll es (undo e s failures).2 (undo e s failures).1

/-- Undo everything, the last entry first. The result is how many entries failed. -/
def rollbackAll (l : Ledger κ) (s : Session κ) : Nat × Session κ :=
  undoAll l.zipIdx.reverse s 0

end Ledger

end StagedCodegen
