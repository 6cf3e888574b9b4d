import StagedCodegen.Proofs.Disk.LinkFree
import StagedCodegen.Proofs.Writes.Sequence

/-!
# Plain writes

A write to a place is plain if no link is on the way down and none stands at the neighbour
(`Disk.Plain`). Inside a directory without links all writes are (`Disk.plain_of_opens`). A
file that is replaced plainly changes no link (`Disk.Replaced.steady`), so that writes that were all
plain at the start are so at their time.
-/

namespace StagedCodegen

namespace Disk

variable {d d₁ d' : Disk} {P X : Place} {s : String} {c : ByteArray}

/-- No link is on the way down to a place, and none stands at its neighbour. -/
structure Plain (d : Disk) (P : Place) : Prop where
  straight : d.Straight P
  neighbour : ∀ t, d.lookup P.neighbour ≠ some (.link t)

/-- Inside a directory without links, all writes are plain. -/
theorem plain_of_opens {B : Place} (hopens : d.Opens B)
    (hlinks : ∀ Q t, d.lookup Q = some (.link t) → ¬B <+: Q) (hBP : B <+: P) (hne : B ≠ P) :
    d.Plain P := by
  refine ⟨straight_of_opens hopens hlinks hBP, fun t hlink => ?_⟩
  obtain ⟨C, rfl⟩ := hBP
  obtain ⟨X, s, rfl⟩ : ∃ (X : Place) (s : String), C = X ++ [s] :=
    (List.eq_nil_or_concat' C).resolve_left fun hC => hne (by rw [hC, List.append_nil])
  rw [← List.append_assoc, Place.neighbour_concat, List.append_assoc] at hlink
  exact hlinks _ t hlink (List.prefix_append B _)

theorem plain_of_resolveWithin {root p : Path} {B : Place} (hB : B.Named) (hopens : d.Opens B)
    (hlinks : ∀ Q t, d.lookup Q = some (.link t) → ¬B <+: Q)
    (hroot : d.canonicalBoundary root = .ok B.path) (hP : P.Named)
    (hp : d.resolveWithin root p = .ok P.path) : d.Plain P := by
  obtain ⟨b, hb, -, hbelow⟩ := resolveWithin_ok_iff.mp hp
  obtain rfl := Except.ok.inj (hroot.symm.trans hb)
  obtain ⟨hBP, hne⟩ := (strictlyBelow_path_iff hP hB).mp hbelow
  exact plain_of_opens hopens hlinks hBP hne

theorem Plain.steady (h : d.Plain P) (hsteady : d.Steady d') : d'.Plain P :=
  ⟨fun Q hQ t hlink => h.straight Q hQ t ((hsteady.link Q t).mp hlink),
    fun t hlink => h.neighbour t ((hsteady.link _ t).mp hlink)⟩

theorem Replaced.lookup_eq (h : Replaced d d₁ d' X s c) (Q : Place) : d'.lookup Q =
    if Q = X ++ [s] then some (.file c)
    else if Q = X ++ [temporaryName s] then none else d₁.lookup Q := by
  have hother : X ++ [temporaryName s] ≠ [] := List.concat_ne_nil _ X
  rw [h.eq, lookup_set _ (List.concat_ne_nil s X), lookup_erase _ hother, lookup_set _ hother]
  split
  · rfl
  · split
    · rfl
    · rfl

/-- What is replaced plainly changes no link. -/
theorem Replaced.steady (h : Replaced d d₁ d' X s c) (hplain : d.Plain (X ++ [s])) :
    d.Steady d' where
  cwd := by
    rw [h.eq]
    exact h.cwd
  dir P hP := by
    have hP₁ : d₁.lookup P = some .dir := by
      rcases h.grows P with hsame | ⟨hnone, -, -⟩
      · rw [hsame, hP]
      · cases hnone.symm.trans hP
    have htarget : P ≠ X ++ [s] := fun heq => h.target (heq ▸ hP₁)
    have hneighbour : P ≠ X ++ [temporaryName s] := fun heq => h.neighbour (heq ▸ hP₁)
    rw [h.lookup_eq, if_neg htarget, if_neg hneighbour, hP₁]
  link P t := by
    have hP₁ : d₁.lookup P = some (.link t) ↔ d.lookup P = some (.link t) := by
      rcases h.grows P with hsame | ⟨hnone, hdir, -⟩
      · rw [hsame]
      · simp [hnone, hdir]
    have htarget := hplain.straight (X ++ [s]) (List.prefix_refl _) t
    have hneighbour := hplain.neighbour t
    rw [Place.neighbour_concat] at hneighbour
    rw [h.lookup_eq]
    split
    · next heq => simpa [heq] using htarget
    · split
      · next heq => simpa [heq] using hneighbour
      · exact hP₁

end Disk

end StagedCodegen
