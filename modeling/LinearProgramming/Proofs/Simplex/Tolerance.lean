import LinearProgramming.Proofs.Simplex.DualFeasible
import LinearProgramming.Proofs.Simplex.SmallestIndex

/-! # Primal runs with a tolerance

With a tolerance the ratio test skips small entries and takes ratios that are close for tied, so the row that leaves
need not have the least ratio. `Tableau.NearPivot` collects what is left of the test. A pivot whose row has the least
ratio keeps the tableau feasible and the objective from falling, as without a tolerance. Any other one is
`Tableau.Misjudged`: a right hand side can then fall below zero by the tolerance times the entry of its row, or times
the ratio (`Tableau.NearPivot.rhs_ge`), and no multiple of the tolerance bounds that. A later pivot on such a row lowers
the objective. So a run keeps what is asserted of it up to its first misjudged pivot, which is where
`ChosenPath.exists_split` cuts it. -/

namespace LinearProgramming

/-- What the good choices keep holds up to the first choice that is not good. -/
theorem ChosenPath.exists_split {α : Type} [Scalar α] {kind : ℕ → ℕ → Event α} {chosen : Tableau α → ℕ → ℕ → Prop}
    {t u : Tableau α} {records : List (Record α)} {P : Tableau α → Prop} {R : Tableau α → Tableau α → Prop}
    {G : Tableau α → ℕ → ℕ → Prop}
    (step : ∀ t row column, P t → chosen t row column → G t row column →
      P (t.pivot column row) ∧ R t (t.pivot column row))
    (h : ChosenPath kind chosen t records u) (ht : P t) :
    ∃ kept rest v, records = kept ++ rest ∧ ChosenPath kind chosen t kept v ∧ ChosenPath kind chosen v rest u ∧ P v ∧
      (t :: kept.map (·.tableau)).IsChain R ∧
      (rest = [] ∨ ∃ row column more, rest = ⟨kind row column, v.pivot column row⟩ :: more ∧ chosen v row column ∧
        ¬G v row column) := by
  induction h with
  | done t => exact ⟨[], [], t, rfl, .done t, .done t, ht, List.isChain_singleton t, Or.inl rfl⟩
  | @pivot t u records row column choice rest ih =>
    by_cases hgood : G t row column
    · obtain ⟨hnext, hstep⟩ := step _ _ _ ht choice hgood
      obtain ⟨kept, remaining, v, rfl, hkept, hremaining, hv, hchain, hend⟩ := ih hnext
      exact ⟨_ :: kept, remaining, v, rfl, .pivot choice hkept, hremaining, hv,
        List.isChain_cons_cons.mpr ⟨hstep, hchain⟩, hend⟩
    · exact ⟨[], _, t, rfl, .done t, .pivot choice rest, ht, List.isChain_singleton t,
        Or.inr ⟨row, column, records, rfl, choice, hgood⟩⟩

def Session.standard : Session ℚ := start Settings.standard

namespace Tableau

variable {t u : Tableau ℚ} {ε : ℚ} {i row column : ℕ} {s : Session ℚ} {rule : EnteringRule}

/-- The tableau is at a basis, and no right hand side is negative. -/
structure PrimalFeasible (t : Tableau ℚ) : Prop where
  atBasis : t.AtBasis
  rhs_nonneg : ∀ i < t.nrRows, 0 ≤ t.rhs i

/-- What is asserted of a pivot: the tableau is feasible again, and the objective value has not dropped. Both hold up to
the tolerance. -/
structure KeepsFeasible (ε : ℚ) (t u : Tableau ℚ) : Prop where
  isBasicFeasible : u.isBasicFeasible ε = true
  objectiveValue_ge : t.objectiveValue - ε ≤ u.objectiveValue

structure NearPivot (t : Tableau ℚ) (ε : ℚ) (row column : ℕ) : Prop where
  row_lt : row < t.nrRows
  column_lt : column < t.nrColumns
  column_notMem : column ∉ t.basis
  cost_lt : t.relativeCost column < -ε
  entry_gt : ε < t.entry row column
  ratio_le : ∀ i < t.nrRows, ε < t.entry i column → t.ratio row column ≤ t.ratio i column + 2 * ε

/-- Another row has a smaller ratio, but its entry is within the tolerance of zero, or the ratios are taken for tied. -/
def Misjudged (t : Tableau ℚ) (ε : ℚ) (row column : ℕ) : Prop :=
  ∃ i < t.nrRows, 0 < t.entry i column ∧ t.ratio i column < t.ratio row column ∧
    (t.entry i column ≤ ε ∨ t.ratio row column ≤ t.ratio i column + 2 * ε)

/-! ### The chosen pivot -/

theorem relativeCost_lt_of_select?_eq_some {p : ℕ × ℚ} (h : rule.select? t.nonBasicCosts ε = some p) :
    t.relativeCost p.1 < -ε := by
  have hneg : Scalar.isNegative p.2 ε = true := by
    cases rule with
    | firstProfitable => exact List.find?_some (p := fun q : ℕ × ℚ => Scalar.isNegative q.2 ε) h
    | steepest => exact (List.mem_filter.mp (Scalar.firstMinimum_mem h)).2
  obtain ⟨j, -, rfl⟩ := List.mem_map.mp (EnteringRule.select?_mem h)
  exact (Scalar.isNegative_iff _ _).mp hneg

theorem WellFormed.nearPivot_of_primalChoice (h : t.WellFormed) (hε : 0 ≤ ε) (hchoice : t.PrimalChoice rule ε row column) :
    t.NearPivot ε row column := by
  obtain ⟨smallestIndex, hmove⟩ := hchoice
  obtain ⟨hrow, hcolumn⟩ := mem_of_primalMove_eq_pivot hmove
  obtain ⟨hlt, hmem⟩ := h.mem_nonBasicColumns.mp hcolumn
  unfold primalMove at hmove
  split at hmove
  · cases hmove
  · next p cost hselect =>
    split at hmove
    · cases hmove
    · next hfound =>
      obtain ⟨rfl, rfl⟩ := Move.pivot.inj hmove
      have hcost := relativeCost_lt_of_select?_eq_some hselect
      split_ifs at hfound
      · have hwithin := t.choosesWithin_primalRowByLowestBasic? hε p
        rw [hfound] at hwithin
        obtain ⟨⟨-, hentry⟩, hratio⟩ := hwithin
        exact ⟨hrow, hlt, hmem, hcost, hentry, fun i hi hientry => hratio i ⟨hi, hientry⟩⟩
      · have hwithin := t.choosesWithin_primalRow? hε p
        rw [hfound] at hwithin
        obtain ⟨⟨-, hentry⟩, hratio⟩ := hwithin
        refine ⟨hrow, hlt, hmem, hcost, hentry, fun i hi hientry => ?_⟩
        have hle := hratio i ⟨hi, hientry⟩
        linarith

/-! ### One pivot -/

/-- The row that leaves has the least ratio, or it was misjudged. -/
theorem NearPivot.misjudged (hp : t.NearPivot ε row column) (hε : 0 ≤ ε) (hnot : ¬t.PrimalPivot row column) :
    t.Misjudged ε row column := by
  by_contra hnone
  refine hnot ⟨hp.row_lt, hp.column_lt, hp.column_notMem, by linarith [hp.cost_lt], hε.trans_lt hp.entry_gt, ?_⟩
  intro i hi hpos
  by_contra hlt
  refine hnone ⟨i, hi, hpos, not_le.mp hlt, ?_⟩
  rcases le_or_gt (t.entry i column) ε with hsmall | hlarge
  · exact Or.inl hsmall
  · exact Or.inr (hp.ratio_le i hi hlarge)

theorem not_misjudged_zero : ¬t.Misjudged 0 row column := by
  rintro ⟨i, -, hpos, hlt, hsmall | htied⟩
  · exact absurd hpos (not_lt.mpr hsmall)
  · linarith

theorem NearPivot.objectiveValue_le (hp : t.NearPivot ε row column) (hε : 0 ≤ ε) (h : t.PrimalFeasible) :
    t.objectiveValue ≤ (t.pivot column row).objectiveValue := by
  have hpos : 0 < t.entry row column := hε.trans_lt hp.entry_gt
  have hstep : 0 ≤ t.rhs row / t.entry row column := div_nonneg (h.rhs_nonneg row hp.row_lt) hpos.le
  have hprod : t.relativeCost column * (t.rhs row / t.entry row column) ≤ 0 :=
    mul_nonpos_of_nonpos_of_nonneg (by linarith [hp.cost_lt]) hstep
  rw [objectiveValue_pivot h.atBasis.wellFormed hp.row_lt hp.column_lt hpos.ne']
  linarith

/-- How far a right hand side can fall below zero in one pivot. -/
theorem NearPivot.rhs_ge (hp : t.NearPivot ε row column) (hε : 0 ≤ ε) (h : t.PrimalFeasible)
    (hi : i < t.nrRows) :
    -(2 * ε * max (t.entry i column) (t.ratio row column)) ≤ (t.pivot column row).rhs i := by
  have hpos : 0 < t.entry row column := hε.trans_lt hp.entry_gt
  have hratio : t.ratio row column = t.rhs row / t.entry row column := by
    rw [ratio, max_eq_left (h.rhs_nonneg row hp.row_lt)]
  have hstep : 0 ≤ t.ratio row column := by
    rw [hratio]
    exact div_nonneg (h.rhs_nonneg row hp.row_lt) hpos.le
  have hleft : 2 * ε * t.entry i column ≤ 2 * ε * max (t.entry i column) (t.ratio row column) :=
    mul_le_mul_of_nonneg_left (le_max_left _ _) (by linarith)
  have hright : 2 * ε * t.ratio row column ≤ 2 * ε * max (t.entry i column) (t.ratio row column) :=
    mul_le_mul_of_nonneg_left (le_max_right _ _) (by linarith)
  have hεstep : 0 ≤ ε * t.ratio row column := mul_nonneg hε hstep
  rw [rhs_pivot h.atBasis.wellFormed hp.row_lt hp.column_lt hpos.ne' hi, ← hratio]
  split_ifs with hir
  · linarith
  · rcases le_or_gt (t.entry i column) ε with hsmall | hlarge
    · have hprod : t.entry i column * t.ratio row column ≤ ε * t.ratio row column :=
        mul_le_mul_of_nonneg_right hsmall hstep
      linarith [h.rhs_nonneg i hi]
    · have hentry : 0 < t.entry i column := hε.trans_lt hlarge
      have hprod : t.entry i column * t.ratio row column ≤ t.entry i column * (t.ratio i column + 2 * ε) :=
        mul_le_mul_of_nonneg_left (hp.ratio_le i hi hlarge) hentry.le
      have hown : t.entry i column * t.ratio i column = t.rhs i := by
        rw [ratio, max_eq_left (h.rhs_nonneg i hi), mul_div_cancel₀ _ hentry.ne']
      linarith

/-! ### Whole runs -/

theorem hasUnitBasis_of_nonneg (hε : 0 ≤ ε) (h : t.hasUnitBasis 0 = true) : t.hasUnitBasis ε = true := by
  simp only [hasUnitBasis, isUnitColumn, List.all_eq_true, Bool.and_eq_true, Scalar.isZero_iff] at h ⊢
  intro p hp
  obtain ⟨hcost, hentry⟩ := h p hp
  exact ⟨hcost.trans hε, fun k hk => (hentry k hk).trans hε⟩

theorem PrimalFeasible.isBasicFeasible (h : t.PrimalFeasible) (hε : 0 ≤ ε) : t.isBasicFeasible ε = true := by
  refine Bool.and_eq_true_iff.mpr ⟨hasUnitBasis_of_nonneg hε (hasUnitBasis_of_unitAt h.atBasis.unitAt), ?_⟩
  refine List.all_eq_true.mpr fun i hi => ?_
  have hnonneg := h.rhs_nonneg i (List.mem_range.mp hi)
  simp only [Bool.not_eq_true', Bool.eq_false_iff, ne_eq, Scalar.isNegative_iff, not_lt]
  linarith

theorem PrimalPivot.keepsFeasible (hp : t.PrimalPivot row column) (h : t.PrimalFeasible) (hε : 0 ≤ ε) :
    (t.pivot column row).PrimalFeasible ∧ KeepsFeasible ε t (t.pivot column row) := by
  have hnext : (t.pivot column row).PrimalFeasible :=
    ⟨(hp.rewrites h.atBasis).atBasis, hp.rhs_nonneg h.atBasis h.rhs_nonneg⟩
  have hle := hp.objectiveValue_le h.atBasis h.rhs_nonneg
  exact ⟨hnext, hnext.isBasicFeasible hε, by linarith⟩

/-- A primal run from a feasible tableau, with any tolerance. Up to the first misjudged pivot, every pivot keeps what is
asserted of it. That pivot does not lower the objective value either, and takes a right hand side below zero by at most
twice the tolerance times the greater of its entry and the ratio. Without a tolerance no pivot is misjudged. -/
theorem exists_keepsFeasible_primal (rule : EnteringRule) (hwf : t.WellFormed) (hunit : t.hasUnitBasis 0 = true)
    (hrhs : ∀ i < t.nrRows, 0 ≤ t.rhs i) (hε : 0 ≤ s.settings.tolerances.general) :
    t.isBasicFeasible s.tolerance = true ∧
    ∃ kept rest u, s.Logs (kept ++ rest) (t.primal rule s).session ∧
      ChosenPath .primalPivot (PrimalChoice rule s.tolerance) t kept u ∧
      ChosenPath .primalPivot (PrimalChoice rule s.tolerance) u rest (t.primal rule s).tableau ∧
      (t :: kept.map (·.tableau)).IsChain (KeepsFeasible s.tolerance) ∧
      (rest = [] ∨ ∃ row column more, rest = ⟨.primalPivot row column, u.pivot column row⟩ :: more ∧
        u.Misjudged s.tolerance row column ∧ u.objectiveValue ≤ (u.pivot column row).objectiveValue ∧
        ∀ i < u.nrRows, -(2 * s.tolerance * max (u.entry i column) (u.ratio row column)) ≤ (u.pivot column row).rhs i) ∧
      (s.tolerance = 0 → rest = []) := by
  have hfeasible : t.PrimalFeasible := ⟨⟨hwf, hwf.unitAt_of_hasUnitBasis hunit⟩, hrhs⟩
  obtain ⟨records, hpath, hlogs⟩ := exists_chosen_primalLoop rule s.settings.maxPivots 0 t s
  obtain ⟨kept, rest, u, rfl, hkept, hrest, hu, hchain, hend⟩ :=
    hpath.exists_split (P := PrimalFeasible) (R := KeepsFeasible s.tolerance) (G := PrimalPivot)
      (fun _ _ _ hv _ hp => hp.keepsFeasible hv hε) hfeasible
  have hmisjudged : ∀ row column, PrimalChoice rule s.tolerance u row column → ¬u.PrimalPivot row column →
      u.NearPivot s.tolerance row column ∧ u.Misjudged s.tolerance row column := by
    intro row column hchoice hnot
    have hp := hu.atBasis.wellFormed.nearPivot_of_primalChoice hε hchoice
    exact ⟨hp, hp.misjudged hε hnot⟩
  refine ⟨hfeasible.isBasicFeasible hε, kept, rest, u, hlogs, hkept, hrest, hchain, ?_, fun hzero => ?_⟩
  · obtain hnil | ⟨row, column, more, rfl, hchoice, hnot⟩ := hend
    · exact Or.inl hnil
    · obtain ⟨hp, hbad⟩ := hmisjudged row column hchoice hnot
      exact Or.inr ⟨row, column, more, rfl, hbad, hp.objectiveValue_le hε hu, fun i hi => hp.rhs_ge hε hu hi⟩
  · obtain hnil | ⟨row, column, more, rfl, hchoice, hnot⟩ := hend
    · exact hnil
    · have hbad := (hmisjudged row column hchoice hnot).2
      rw [hzero] at hbad
      exact absurd hbad not_misjudged_zero

/-- The ratios of the first column differ by half of the standard tolerance, and its entries by a factor of a billion. The
third column has a row of its own and enters before. -/
def laterTiedTableau : Tableau ℚ :=
  ofMatrix (RowMatrix.ofRows [[-2, -1, -3, 0, 0, 0, 0], [1, 0, 0, 1, 0, 0, 1],
    [1000000000, 1, 0, 0, 1, 0, 999999500], [0, 0, 1, 0, 0, 1, 2]]) [3, 4, 5]

-- One pivot is kept. The next one is misjudged and leaves a right hand side of `-500`.
theorem exists_keepsFeasible_primal_laterTiedTableau :
    laterTiedTableau.WellFormed ∧ laterTiedTableau.hasUnitBasis 0 = true ∧
    (∀ i < laterTiedTableau.nrRows, 0 ≤ laterTiedTableau.rhs i) ∧
    0 ≤ Session.standard.settings.tolerances.general ∧
    laterTiedTableau.isBasicFeasible Session.standard.tolerance = true ∧
    ∃ (kept rest : List (Record ℚ)) (u : Tableau ℚ), Session.standard.Logs (kept ++ rest)
        (laterTiedTableau.primal .steepest .standard).session ∧
      (laterTiedTableau :: kept.map (·.tableau)).IsChain (KeepsFeasible Session.standard.tolerance) ∧
      kept.map (·.event) = [.primalPivot 2 2] ∧
      ∃ more, rest = ⟨.primalPivot 0 0, u.pivot 0 0⟩ :: more ∧ u.Misjudged Session.standard.tolerance 0 0 ∧
        (u.pivot 0 0).rhsValues = [1, -500, 2] := by
  have hwf : laterTiedTableau.WellFormed :=
    wellFormed_ofMatrix (by simp [RowMatrix.IsRectangular, RowMatrix.ofRows]) (by decide) (by decide) (by decide)
      (by decide) (by decide)
  have hunit : laterTiedTableau.hasUnitBasis 0 = true := by decide +kernel
  have hrhs : ∀ i < laterTiedTableau.nrRows, 0 ≤ laterTiedTableau.rhs i := by decide +kernel
  have hε : 0 ≤ Session.standard.settings.tolerances.general := by decide +kernel
  have htrail : (laterTiedTableau.primal .steepest .standard).session.trail.toList.map (fun r =>
      (r.event, r.tableau.isBasicFeasible Session.standard.tolerance, r.tableau.rhsValues)) =
        [(.primalPivot 2 2, true, [1, 999999500, 2]), (.primalPivot 0 0, false, [1, -500, 2]),
          (.primalPivot 1 1, false, [1, -500, 2]), (.primalPivot 0 3, true, [1, 999999500, 2])] := by
    decide +kernel
  have halone : ∀ i < laterTiedTableau.nrRows, 0 < laterTiedTableau.entry i 2 → i = 2 := by decide +kernel
  have hfirst : ¬laterTiedTableau.Misjudged Session.standard.tolerance 2 2 := by
    rintro ⟨i, hi, hpos, hlt, -⟩
    obtain rfl := halone i hi hpos
    exact lt_irrefl _ hlt
  obtain ⟨hfeasible, kept, rest, u, hlogs, hkept, -, hchain, hend, -⟩ :=
    exists_keepsFeasible_primal .steepest hwf hunit hrhs hε
  refine ⟨hwf, hunit, hrhs, hε, hfeasible, kept, rest, u, hlogs, hchain, ?_⟩
  rw [hlogs.trail_eq rfl] at htrail
  rcases kept with _ | ⟨first, _ | ⟨second, others⟩⟩
  · cases hkept
    obtain rfl | ⟨row, column, more, rfl, hbad, -⟩ := hend
    · cases htrail
    · obtain ⟨rfl, rfl⟩ := Event.primalPivot.inj (congrArg Prod.fst (List.cons.inj htrail).1)
      exact absurd hbad hfirst
  · obtain ⟨hone, hmore⟩ := List.cons.inj htrail
    refine ⟨congrArg (fun shown : Event ℚ × Bool × List ℚ => [shown.1]) hone, ?_⟩
    obtain rfl | ⟨row, column, more, rfl, hbad, -⟩ := hend
    · cases hmore
    · have htwo := (List.cons.inj hmore).1
      obtain ⟨rfl, rfl⟩ := Event.primalPivot.inj (congrArg Prod.fst htwo)
      exact ⟨more, rfl, hbad, congrArg (·.2.2) htwo⟩
  -- the second pivot leaves a tableau that is not feasible, so it is not kept
  · have hkeeps := (List.isChain_cons_cons.mp (List.isChain_cons_cons.mp hchain).2).1
    have hfails : second.tableau.isBasicFeasible Session.standard.tolerance = false :=
      congrArg (·.2.1) (List.cons.inj (List.cons.inj htrail).2).1
    rw [hkeeps.isBasicFeasible] at hfails
    cases hfails

/-- The same without the third column and its row. -/
def tiedTableau : Tableau ℚ :=
  ofMatrix (RowMatrix.ofRows [[-2, -1, 0, 0, 0], [1, 0, 1, 0, 1], [1000000000, 1, 0, 1, 999999500]]) [2, 3]

/-- The first pivot is on the first row although the second one has the smaller ratio, and leaves a right hand side of
`-500`. The second pivot is on that row and takes `500` off the objective value. -/
theorem not_keepsFeasible_tiedTableau :
    tiedTableau.WellFormed ∧ tiedTableau.hasUnitBasis 0 = true ∧ (∀ i < tiedTableau.nrRows, 0 ≤ tiedTableau.rhs i) ∧
    0 ≤ Session.standard.settings.tolerances.general ∧
    ∃ first second rest, (tiedTableau.primal .steepest .standard).session.trail.toList = first :: second :: rest ∧
      first.tableau.isBasicFeasible Session.standard.tolerance = false ∧
      second.tableau.objectiveValue < first.tableau.objectiveValue - Session.standard.tolerance := by
  have hwf : tiedTableau.WellFormed :=
    wellFormed_ofMatrix (by simp [RowMatrix.IsRectangular, RowMatrix.ofRows]) (by decide) (by decide) (by decide)
      (by decide) (by decide)
  have htrail : (tiedTableau.primal .steepest .standard).session.trail.toList.map (fun r =>
      (r.tableau.isBasicFeasible Session.standard.tolerance, r.tableau.objectiveValue)) =
        [(false, 2), (false, -498), (true, 999999500)] := by
    decide +kernel
  obtain ⟨first, tail, htail, hfirst, hmap⟩ := List.map_eq_cons_iff.mp htrail
  obtain ⟨second, rest, rfl, hsecond, -⟩ := List.map_eq_cons_iff.mp hmap
  obtain ⟨hbad, hbefore⟩ := Prod.mk.inj hfirst
  refine ⟨hwf, by decide +kernel, by decide +kernel, by decide +kernel, first, second, rest, htail, hbad, ?_⟩
  rw [(Prod.mk.inj hsecond).2, hbefore]
  decide +kernel

end Tableau

end LinearProgramming
