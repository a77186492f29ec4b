import LinearProgramming.Proofs.BasisInverse.Change
import LinearProgramming.Proofs.CanonicalForm.EditSequence
import LinearProgramming.Proofs.Tableau.Develop

/-! # Rebuilding a tableau from its basis

A tableau that pivots have reached is computed anew from its basic columns and the first tableau. Both the pivots and
the multiplication with the inverse of the basis matrix keep the solutions of the first tableau, and a tableau is
determined by its basis and its solutions: the two are equal, whatever the pivots were (`Rewrites.tableau_ofColumns`).
The basis matrix has an inverse, which is found as soon as the least accepted pivot is small enough
(`UnitAt.exists_ofColumns`). -/

namespace LinearProgramming

variable {first t : Tableau ℚ} {columns : List ℕ} {b : BasisInverse ℚ} {ε : ℚ}

namespace Tableau

theorem UnitAt.inverts_of_ok (h : t.UnitAt columns) (heq : first.Equivalent t) (hε : 0 ≤ ε)
    (hb : BasisInverse.ofColumns first columns ε = .ok b) : b.columns = columns ∧ b.Inverts first := by
  obtain ⟨b', hb', hcolumns, hinverts⟩ := h.ofColumns heq
  rw [BasisInverse.ofColumns_zero_of_ok hε hb] at hb'
  obtain rfl := Except.ok.inj hb'
  exact ⟨hcolumns, hinverts⟩

theorem UnitAt.exists_ofColumns (h : t.UnitAt columns) (heq : first.Equivalent t) :
    ∃ ε₀ > 0, ∀ ε, 0 ≤ ε → ε ≤ ε₀ → ∃ b, BasisInverse.ofColumns first columns ε = .ok b ∧ b.Inverts first := by
  obtain ⟨b, -, rfl, hinverts⟩ := h.ofColumns heq
  obtain ⟨ε₀, hε₀, hfound⟩ := hinverts.exists_ofColumns_eq
  exact ⟨ε₀, hε₀, fun ε _ hle => ⟨b, hfound ε hle, hinverts⟩⟩

theorem Rewrites.tableau_ofColumns (h : first.Rewrites t) (hwf : first.WellFormed) {cost : List ℚ}
    (hcost : ∀ j < first.nrColumns, cost.getD j 0 = -first.relativeCost j) (hzero : first.objectiveValue = 0)
    (hε : 0 ≤ ε) (hb : BasisInverse.ofColumns first t.basis ε = .ok b) : b.tableau first cost = t := by
  obtain ⟨hcolumns, hinverts⟩ := h.atBasis.unitAt.inverts_of_ok h.equivalent hε hb
  exact hinverts.tableau_eq_of_rewrites hwf hcost hzero h hcolumns

end Tableau

namespace Edit

variable {m : Model ℚ} {c : CanonicalForm ℚ} {edits : List Edit}

/-- Of a fresh or edited canonical form, the tableau that pivots reach is the one that its basis gives. -/
theorem tableau_ofColumns_of_develops {direction : Direction} {cost : List ℚ} {rows : List (List ℚ)}
    {relations : List Relation} {rhs : List ℚ} {domains : List VariableDomain}
    (hm : Model.ofData direction cost rows relations rhs domains = .ok m) (hedits : allInRange m edits)
    (hc : edits.foldl onForm (CanonicalForm.ofModel m) = c) (h : c.tableau.Develops [] t) :
    (∀ ε > 0, ∀ b, BasisInverse.ofColumns c.tableau t.basis ε = .ok b → b.tableau c.tableau c.canonicalCost = t) ∧
    (c.tableau.basisMatrix t.basis).Regular c.tableau.nrRows ∧
    ∃ ε₀ > 0, ∀ ε > 0, ε ≤ ε₀ →
      ∃ b, BasisInverse.ofColumns c.tableau t.basis ε = .ok b ∧ b.Inverts c.tableau := by
  have hvalid := Model.valid_of_ofData hm
  have hrep := (represents_foldl (CanonicalForm.represents_ofModel hvalid) hvalid hedits).1
  rw [hc] at hrep
  have hrewrites : c.tableau.Rewrites t := h.rewrites hrep.atBasis
  have hunit := hrewrites.atBasis.unitAt
  refine ⟨fun ε hε b hb => ?_, hunit.regular_basisMatrix hrewrites.equivalent, ?_⟩
  · exact hrewrites.tableau_ofColumns hrep.atBasis.wellFormed (fun j hj => c.getD_canonicalCost hj)
      hrep.objectiveValue_eq hε.le hb
  · obtain ⟨ε₀, hε₀, hexists⟩ := hunit.exists_ofColumns hrewrites.equivalent
    exact ⟨ε₀, hε₀, fun ε hε hle => hexists ε hε.le hle⟩

def fiveKindsForm : CanonicalForm ℚ := fiveKinds.foldl onForm (CanonicalForm.ofModel fiveDomains)

-- The second pivot is on a negative entry, and the inversion has to exchange rows.
theorem tableau_ofColumns_of_develops_fiveKinds :
    Model.ofData .minimize [1, -2, 3, 1, 5] [[1, 1, 0, 2, 0], [0, 1, -1, 0, 1], [2, 0, 1, 0, 1]]
      [.equal, .greater, .less] [3, -4, 7] [.nonnegative, .nonpositive, .free, .integer, .binary] = .ok fiveDomains ∧
    allInRange fiveDomains fiveKinds = true ∧
    fiveKindsForm.tableau.Develops [] ((fiveKindsForm.tableau.pivot 2 3).pivot 0 0) ∧
    ∃ b, BasisInverse.ofColumns fiveKindsForm.tableau ((fiveKindsForm.tableau.pivot 2 3).pivot 0 0).basis (1 / 100) =
      .ok b ∧
      b.tableau fiveKindsForm.tableau fiveKindsForm.canonicalCost = (fiveKindsForm.tableau.pivot 2 3).pivot 0 0 := by
  have hm : Model.ofData .minimize [1, -2, 3, 1, 5] [[1, 1, 0, 2, 0], [0, 1, -1, 0, 1], [2, 0, 1, 0, 1]]
      [.equal, .greater, .less] [3, -4, 7] [.nonnegative, .nonpositive, .free, .integer, .binary] =
        .ok fiveDomains := by decide +kernel
  have hedits : allInRange fiveDomains fiveKinds = true := by decide
  have hfirst : fiveKindsForm.tableau.Develops [] (fiveKindsForm.tableau.pivot 2 3) :=
    .pivot .start (by decide +kernel) (by decide +kernel) (by decide +kernel) (by decide +kernel)
  have hpivots : fiveKindsForm.tableau.Develops [] ((fiveKindsForm.tableau.pivot 2 3).pivot 0 0) :=
    hfirst.pivot (by decide +kernel) (by decide +kernel) (by decide +kernel) (by decide +kernel)
  have hok : (BasisInverse.ofColumns fiveKindsForm.tableau ((fiveKindsForm.tableau.pivot 2 3).pivot 0 0).basis
      (1 / 100)).isOk = true := by decide +kernel
  cases hb : BasisInverse.ofColumns fiveKindsForm.tableau ((fiveKindsForm.tableau.pivot 2 3).pivot 0 0).basis
      (1 / 100) with
  | error e =>
    rw [hb] at hok
    cases hok
  | ok b =>
    exact ⟨hm, hedits, hpivots, b, rfl,
      (tableau_ofColumns_of_develops hm hedits rfl hpivots).1 (1 / 100) (by norm_num) b hb⟩

end Edit

end LinearProgramming
