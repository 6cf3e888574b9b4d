import StagedCodegen.Failure
import StagedCodegen.Text.Composition

/-!
# Containment

Where a path leads, also when it does not exist yet, and whether that is inside a boundary. The
deepest directory or file on the way that exists is taken without links; the names below it are
kept. All names are compared in composed form.

Main statement: `resolveWithin_ok_iff`, by which a path is accepted exactly when the place that it
leads to lies strictly inside the place that the boundary leads to.
-/

namespace StagedCodegen

open StagedCodegen.Path (Component)

namespace Disk

/-- The path as seen from the root directory. -/
def absolute (d : Disk) (p : Path) : Path := if p.isAbsolute then p else d.currentDir.join p

/-- The part of a path that exists, and the names after it. The components are given last to first,
those after them in order. -/
def deepest (d : Disk) : List Component → List (List Char) → Path × List (List Char)
  | .name s :: above, below =>
    let p := Path.ofComponents (.name s :: above).reverse
    if d.exists_ p then (p, below) else d.deepest above (s :: below)
  | cs, below => (Path.ofComponents cs.reverse, below)

/-- The place that a path leads to, whether there is anything or not. -/
def resolveExisting (d : Disk) (p : Path) : Except Failure Path :=
  let (top, below) := d.deepest (Path.collapse (d.absolute p).components).reverse []
  match if d.exists_ top then d.canonicalize top else .ok top with
  | .error e => .error (.io top e)
  | .ok found =>
    let whole := below.foldl (fun p s => p.join ⟨String.ofList s⟩) found
    .ok ⟨Text.compose whole.text⟩

/-- The place that bounds what may be written. -/
def canonicalBoundary (d : Disk) (boundary : Path) : Except Failure Path :=
  d.resolveExisting boundary

/-- One path leads strictly below another. -/
def strictlyBelow (p boundary : Path) : Bool := !p.same boundary && p.startsWith boundary

/-- The place that a path, seen from a boundary, leads to, which must be inside that boundary. -/
def resolveWithin (d : Disk) (boundary candidate : Path) : Except Failure Path :=
  match d.canonicalBoundary boundary with
  | .error f => .error f
  | .ok boundary =>
    match d.resolveExisting (boundary.join candidate) with
    | .error f => .error f
    | .ok resolved =>
      if strictlyBelow resolved boundary then .ok resolved
      else .error (.pathEscape candidate boundary)

/-- A path is accepted exactly when it leads to a place strictly inside the boundary's. -/
theorem resolveWithin_ok_iff {d : Disk} {boundary candidate p : Path} :
    d.resolveWithin boundary candidate = .ok p ↔
      ∃ b, d.canonicalBoundary boundary = .ok b ∧
        d.resolveExisting (b.join candidate) = .ok p ∧ strictlyBelow p b = true := by
  unfold resolveWithin
  cases d.canonicalBoundary boundary with
  | error f => simp
  | ok b =>
    simp only [Except.ok.injEq, exists_eq_left']
    cases d.resolveExisting (b.join candidate) with
    | error f => simp
    | ok r =>
      simp only
      split
      · next h =>
        refine ⟨fun hr => ?_, And.left⟩
        cases hr
        exact ⟨rfl, h⟩
      · next h =>
        refine iff_of_false nofun ?_
        rintro ⟨hr, hp⟩
        cases hr
        exact h hp

end Disk

end StagedCodegen
