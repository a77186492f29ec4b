import LinearProgramming.Proofs.Sensitivity.Basis
import LinearProgramming.Proofs.Sensitivity.Interval

/-! # Ranges in which a basis stays optimal

When a value of the model changes by `Δ`, the right hand sides and the relative costs of the tableau of a fixed basis
change linearly in `Δ` (`Tableau.Moves`). The conditions of a range are those of the entries that move
(`Tableau.Collects`), so the interval contains exactly the changes for which the tableau stays optimal
(`Tableau.Moves.isOptimal_iff`). For each kind of value, the rates follow from what the edit does to the first tableau
and from how the inverse of the basis carries it over. -/

namespace LinearProgramming

open Finset

variable {a : Analyzer ℚ} {m : Model ℚ} {c : CanonicalForm ℚ} {first next t u : Tableau ℚ} {b : BasisInverse ℚ}
  {cost newCost : List ℚ} {rhsRate costRate : ℕ → ℚ} {conditions : List (Condition ℚ)} {delta : ℚ}
  {i j v column index : ℕ} {factor : ℚ}

/-! ### Tableaus that move linearly -/

namespace Tableau

/-- The right hand sides and relative costs of the second tableau are those of the first one, moved at the given
rates. -/
structure Moves (t u : Tableau ℚ) (rhsRate costRate : ℕ → ℚ) (delta : ℚ) : Prop where
  nrRows_eq : u.nrRows = t.nrRows
  nrColumns_eq : u.nrColumns = t.nrColumns
  rhs_eq : ∀ i < t.nrRows, u.rhs i = t.rhs i + rhsRate i * delta
  relativeCost_eq : ∀ j < t.nrColumns, u.relativeCost j = t.relativeCost j + costRate j * delta

/-- The conditions are those of entries of the tableau, and all entries that move have one. -/
structure Collects (t : Tableau ℚ) (rhsRate costRate : ℕ → ℚ) (conditions : List (Condition ℚ)) : Prop where
  cases : ∀ c ∈ conditions, (∃ i < t.nrRows, c = ⟨t.rhs i, rhsRate i⟩) ∨
    ∃ j < t.nrColumns, c = ⟨t.relativeCost j, costRate j⟩
  rhs_mem : ∀ i < t.nrRows, rhsRate i ≠ 0 → ⟨t.rhs i, rhsRate i⟩ ∈ conditions
  relativeCost_mem : ∀ j < t.nrColumns, costRate j ≠ 0 → ⟨t.relativeCost j, costRate j⟩ ∈ conditions

/-- An entry that does not move stays nonnegative, and one that moves has a condition. -/
theorem nonneg_of_holds {value rate : ℚ} (hvalue : 0 ≤ value) (hmem : rate ≠ 0 → ⟨value, rate⟩ ∈ conditions)
    (hholds : ∀ c ∈ conditions, 0 < |c.coefficient| → c.holds delta 0 = true) : 0 ≤ value + rate * delta := by
  by_cases hrate : rate = 0
  · rw [hrate, zero_mul, add_zero]
    exact hvalue
  · exact Condition.holds_iff.mp (hholds _ (hmem hrate) (abs_pos.mpr hrate))

theorem Moves.isOptimal_iff (h : t.Moves u rhsRate costRate delta) (hconditions : t.Collects rhsRate costRate conditions)
    (ht : t.isOptimal 0 = true) :
    (Interval.ofConditions conditions 0).contains delta 0 = true ↔ u.isOptimal 0 = true := by
  obtain ⟨hrhs, hcosts⟩ := Tableau.isOptimal_iff.mp ht
  rw [Interval.contains_ofConditions_iff le_rfl, Tableau.isOptimal_iff, h.nrRows_eq, h.nrColumns_eq]
  constructor
  · intro hholds
    refine ⟨fun i hi => ?_, fun j hj => ?_⟩
    · rw [h.rhs_eq i hi]
      exact nonneg_of_holds (hrhs i hi) (hconditions.rhs_mem i hi) hholds
    · rw [h.relativeCost_eq j hj]
      exact nonneg_of_holds (hcosts j hj) (hconditions.relativeCost_mem j hj) hholds
  · rintro ⟨hrhs', hcosts'⟩ c hc -
    rw [Condition.holds_iff]
    rcases hconditions.cases c hc with ⟨i, hi, rfl⟩ | ⟨j, hj, rfl⟩
    · exact (hrhs' i hi).trans_eq (h.rhs_eq i hi)
    · exact (hcosts' j hj).trans_eq (h.relativeCost_eq j hj)

theorem collects_singleton (hcolumn : column < t.nrColumns) (hrate : ∀ j < t.nrColumns, j ≠ column → costRate j = 0) :
    t.Collects 0 costRate [⟨t.relativeCost column, costRate column⟩] := by
  refine ⟨fun c hc => Or.inr ⟨column, hcolumn, List.mem_singleton.mp hc⟩, fun _ _ hne => absurd rfl hne,
    fun j hj hne => ?_⟩
  have hcase : j = column := not_not.mp fun hcase => hne (hrate j hj hcase)
  rw [hcase]
  exact List.mem_singleton_self _

/-- The rate of a relative cost when the cost of a column changes at the given rate: that of the basic columns, carried
over by the tableau, less its own. -/
def costMoves (t : Tableau ℚ) (column : ℕ) (rate : ℚ) (j : ℕ) : ℚ :=
  ∑ l ∈ range t.nrRows, (if t.basis.getD l 0 = column then rate else 0) * t.entry l j - if j = column then rate else 0

theorem UnitAt.costMoves_of_notMem (h : t.UnitAt t.basis) (hcolumn : column ∉ t.basis) (rate : ℚ) (j : ℕ) :
    t.costMoves column rate j = -if j = column then rate else 0 := by
  have hsum : ∑ l ∈ range t.nrRows, (if t.basis.getD l 0 = column then rate else 0) * t.entry l j = 0 := by
    refine Finset.sum_eq_zero fun l hl => ?_
    rw [if_neg, zero_mul]
    rintro rfl
    exact hcolumn (h.getD_mem (Finset.mem_range.mp hl))
  rw [costMoves, hsum, zero_sub]

theorem UnitAt.costMoves_getD (h : t.UnitAt t.basis) {row : ℕ} (hrow : row < t.nrRows) (rate : ℚ) (j : ℕ) :
    t.costMoves (t.basis.getD row 0) rate j = if j ∈ t.basis then 0 else rate * t.entry row j := by
  have hsum : ∑ l ∈ range t.nrRows, (if t.basis.getD l 0 = t.basis.getD row 0 then rate else 0) * t.entry l j =
      rate * t.entry row j := by
    rw [Finset.sum_eq_single_of_mem row (Finset.mem_range.mpr hrow), if_pos rfl]
    intro l hl hne
    rw [if_neg fun heq => hne (h.getD_inj (Finset.mem_range.mp hl) hrow heq), zero_mul]
  rw [costMoves, hsum]
  by_cases hmem : j ∈ t.basis
  · obtain ⟨l, hl, rfl⟩ := h.exists_row hmem
    rw [if_pos hmem, h.entry l hl row hrow]
    by_cases hcase : l = row
    · simp [hcase]
    · rw [if_neg (Ne.symm hcase), if_neg fun heq => hcase (h.getD_inj hl hrow heq), mul_zero, sub_zero]
  · rw [if_neg hmem, if_neg, sub_zero]
    rintro rfl
    exact hmem (h.getD_mem hrow)

end Tableau

/-! ### The tableau of a basis for changed data -/

namespace BasisInverse

theorem shadowPrices_congr (hcost : ∀ j ∈ b.columns, newCost.getD j 0 = cost.getD j 0) :
    b.shadowPrices newCost = b.shadowPrices cost :=
  congrArg (RowMatrix.vecMul · b.inverse) (List.map_congr_left hcost)

theorem rowDot_add_mul (M : RowMatrix ℚ) (i : ℕ) (x y : ℕ → ℚ) (delta : ℚ) :
    M.rowDot i (fun k => x k + y k * delta) = M.rowDot i x + M.rowDot i y * delta := by
  simp only [RowMatrix.rowDot, mul_add, Finset.sum_add_distrib, Finset.sum_mul, mul_assoc]

namespace Inverts

variable (h : b.Inverts first) (hnext : b.Inverts next) (hwf : first.WellFormed) (hwf' : next.WellFormed)
  (hrows : next.nrRows = first.nrRows) (hcolumns : next.nrColumns = first.nrColumns)
include h hnext hwf hwf' hrows

theorem rhs_tableau_add {rate : ℕ → ℚ} (hrhs : ∀ k < first.nrRows, next.rhs k = first.rhs k + rate k * delta)
    (hi : i < first.nrRows) :
    (b.tableau next newCost).rhs i = (b.tableau first cost).rhs i + b.inverse.rowDot i rate * delta := by
  rw [h.rhs_tableau hwf hi, hnext.rhs_tableau hwf' (by omega), ← rowDot_add_mul]
  exact h.rowDot_congr hrhs i

theorem rhs_tableau_congr (hrhs : ∀ k < first.nrRows, next.rhs k = first.rhs k) (hi : i < first.nrRows) :
    (b.tableau next newCost).rhs i = (b.tableau first cost).rhs i := by
  rw [h.rhs_tableau hwf hi, hnext.rhs_tableau hwf' (by omega)]
  exact h.rowDot_congr hrhs i

include hcolumns

theorem relativeCost_tableau_congr (hentry : ∀ k < first.nrRows, next.entry k j = first.entry k j)
    (hcost : ∀ l < first.nrColumns, newCost.getD l 0 = cost.getD l 0) (hj : j < first.nrColumns) :
    (b.tableau next newCost).relativeCost j = (b.tableau first cost).relativeCost j := by
  have hcolumn : next.column j = first.column j := by
    rw [Tableau.column, Tableau.column, hrows]
    exact List.map_congr_left fun k hk => hentry k (List.mem_range.mp hk)
  rw [h.relativeCost_tableau_eq hwf hj, hnext.relativeCost_tableau_eq hwf' (by omega), hcolumn, hcost j hj,
    shadowPrices_congr fun l hl => hcost l (h.lt l hl)]

theorem relativeCost_tableau_add {rate : ℕ → ℚ} (hentry : ∀ k < first.nrRows, ∀ l < first.nrColumns,
      next.entry k l = first.entry k l)
    (hcost : ∀ l < first.nrColumns, newCost.getD l 0 = cost.getD l 0 + rate l * delta) (hj : j < first.nrColumns) :
    (b.tableau next newCost).relativeCost j = (b.tableau first cost).relativeCost j +
      (∑ l ∈ range first.nrRows, rate (b.columns.getD l 0) * (b.tableau first cost).entry l j - rate j) * delta := by
  have hentry' : ∀ l < first.nrRows, (b.tableau next newCost).entry l j = (b.tableau first cost).entry l j := by
    intro l hl
    rw [h.entry_tableau hwf hl hj, hnext.entry_tableau hwf' (by omega) (by omega)]
    exact h.rowDot_congr (fun k hk => hentry k hk j hj) l
  have hsum : ∑ l ∈ range first.nrRows, newCost.getD (b.columns.getD l 0) 0 * (b.tableau next newCost).entry l j =
      ∑ l ∈ range first.nrRows, cost.getD (b.columns.getD l 0) 0 * (b.tableau first cost).entry l j +
        (∑ l ∈ range first.nrRows, rate (b.columns.getD l 0) * (b.tableau first cost).entry l j) * delta := by
    rw [Finset.sum_mul, ← Finset.sum_add_distrib]
    refine Finset.sum_congr rfl fun l hl => ?_
    have hl' := Finset.mem_range.mp hl
    rw [hentry' l hl', hcost _ (h.getD_lt hl')]
    ring
  rw [h.relativeCost_tableau hwf hj, hnext.relativeCost_tableau hwf' (by omega), hrows, hsum, hcost j hj]
  ring

theorem relativeCost_tableau_add_entry {rate : ℕ → ℚ}
    (hentry : ∀ k < first.nrRows, next.entry k j = first.entry k j + rate k * delta)
    (hcost : ∀ l < first.nrColumns, newCost.getD l 0 = cost.getD l 0) (hj : j < first.nrColumns) :
    (b.tableau next newCost).relativeCost j = (b.tableau first cost).relativeCost j +
      (∑ k ∈ range first.nrRows, (b.shadowPrices cost).getD k 0 * rate k) * delta := by
  have hprices : b.shadowPrices newCost = b.shadowPrices cost := shadowPrices_congr fun l hl => hcost l (h.lt l hl)
  have hsum : ∑ k ∈ range first.nrRows, (b.shadowPrices cost).getD k 0 * next.entry k j =
      ∑ k ∈ range first.nrRows, (b.shadowPrices cost).getD k 0 * first.entry k j +
        (∑ k ∈ range first.nrRows, (b.shadowPrices cost).getD k 0 * rate k) * delta := by
    rw [Finset.sum_mul, ← Finset.sum_add_distrib]
    refine Finset.sum_congr rfl fun k hk => ?_
    rw [hentry k (Finset.mem_range.mp hk)]
    ring
  rw [h.relativeCost_tableau_eq hwf hj, hnext.relativeCost_tableau_eq hwf' (by omega), hprices, hcost j hj,
    relativeCost, relativeCost, next.dot_column, first.dot_column, hrows, hsum]
  ring

end Inverts

end BasisInverse

/-! ### What an edit adds to the first tableau -/

namespace CanonicalForm.Represents

variable (h : c.Represents m)
include h

theorem getD_canonicalCost_setRhs (rhs : ℚ) (hj : j < c.tableau.nrColumns) :
    (c.setRhs index rhs).canonicalCost.getD j 0 = c.canonicalCost.getD j 0 := by
  rw [c.getD_canonicalCost hj, getD_canonicalCost _ (by rw [h.nrColumns_setRhs]; exact hj)]
  exact congrArg (- ·) (matrix_entry_setRhs_of_lt index rhs hj)

theorem rhs_setRhs_add {con : Constraint ℚ} (hcon : m.constraints[index]? = some con) (delta : ℚ)
    (hi : i < c.tableau.nrRows) :
    (c.setRhs index (con.rhs + delta)).tableau.rhs i = c.tableau.rhs i + c.rowSign index i * delta := by
  have hrep := h.setRhs index (con.rhs + delta)
  obtain ⟨source, hsource, hhas⟩ := h.exists_source hi
  rw [hrep.rhs_eq i source hsource, h.rhs_eq i source hsource]
  by_cases hconstraint : ∃ half, source = .constraint index half
  · obtain ⟨half, rfl⟩ := hconstraint
    rw [Model.sourceRhs_setRhs_self hhas, rowSign_of_source hsource]
    simp only [RowSource.sign, Model.sourceRhs, hcon, Option.map_some, Option.getD_some]
    ring
  · have hne : ∀ half, source ≠ .constraint index half := fun half heq => hconstraint ⟨half, heq⟩
    rw [Model.sourceRhs_setRhs_of_ne hne, rowSign_eq_zero, zero_mul, add_zero]
    intro half heq
    exact hne half (Option.some.inj (hsource.symm.trans heq))

omit h in
theorem mem_zip_placements {r : ℕ × ℚ} (hr : r ∈ c.columnsOf v) {data : List ℚ} {value : ℚ}
    (hvalue : data[v]? = some value) : ∃ p, (value, p) ∈ data.zip c.placements ∧ r ∈ (p.columns : List (ℕ × ℚ)) := by
  obtain ⟨hv, -⟩ := mem_indices_of_mem_columnsOf hr
  refine ⟨c.placements[v], List.mem_of_getElem? (List.getElem?_zip_eq_some.mpr ⟨hvalue, ?_⟩), ?_⟩
  · exact List.getElem?_eq_getElem hv
  · rw [← columnsOf_eq hv]
    exact hr

theorem relativeCost_of_mem {r : ℕ × ℚ} (hr : r ∈ c.columnsOf v) {value : ℚ} (hvalue : m.cost[v]? = some value) :
    c.tableau.relativeCost r.1 = -c.direction.sign * (r.2 * value) := by
  obtain ⟨p, hp, hr'⟩ := mem_zip_placements hr hvalue
  exact h.cost_eq _ hp r hr'

theorem entry_of_mem {r : ℕ × ℚ} (hr : r ∈ c.columnsOf v) {source : RowSource}
    (hsource : c.rowSources[i]? = some source) {value : ℚ} (hvalue : (m.sourceCoefficients source)[v]? = some value) :
    c.tableau.entry i r.1 = source.sign * (r.2 * value) := by
  obtain ⟨p, hp, hr'⟩ := mem_zip_placements hr hvalue
  exact h.entry_eq i source hsource _ hp r hr'

theorem getD_canonicalCost_setCost_add (hcolumn : c.columnsOf v = [(column, factor)]) {value : ℚ}
    (hvalue : m.cost[v]? = some value) (delta : ℚ) (hj : j < c.tableau.nrColumns) :
    (c.setCost v (value + delta)).canonicalCost.getD j 0 =
      c.canonicalCost.getD j 0 + (if j = column then c.direction.sign * factor else 0) * delta := by
  have hmem : (column, factor) ∈ c.columnsOf v := hcolumn ▸ List.mem_singleton_self _
  rw [c.getD_canonicalCost hj, getD_canonicalCost _ (by rw [h.nrColumns_setCost]; exact hj), Tableau.relativeCost,
    tableau_setCost]
  by_cases hcase : j = column
  · subst hcase
    have hold : c.tableau.relativeCost j = -c.direction.sign * (factor * value) := h.relativeCost_of_mem hmem hvalue
    have hnew := h.entry_costCells_of_mem v (value + delta) hmem
    rw [if_pos rfl, hold]
    simp only at hnew ⊢
    rw [hnew]
    ring
  · rw [if_neg hcase, zero_mul, add_zero]
    refine congrArg (- ·) (entry_costCells_of_notMem v (value + delta) fun _ r hr => ?_)
    rw [hcolumn, List.mem_singleton] at hr
    rw [hr]
    exact Ne.symm hcase

theorem entry_setCoefficient_add (hcolumn : c.columnsOf v = [(column, factor)]) {con : Constraint ℚ}
    (hcon : m.constraints[index]? = some con) {value : ℚ} (hvalue : con.coefficients[v]? = some value) (delta : ℚ)
    (i j : ℕ) :
    (c.setCoefficient index v (value + delta)).tableau.entry i j =
      c.tableau.entry i j + (if j = column then c.rowSign index i * factor else 0) * delta := by
  have hmem : (column, factor) ∈ c.columnsOf v := hcolumn ▸ List.mem_singleton_self _
  by_cases hsource : ∃ half, j = column ∧ c.rowSources[i]? = some (.constraint index half)
  · obtain ⟨half, rfl, hsource⟩ := hsource
    have hold : c.tableau.entry i j = half.sign * (factor * value) :=
      h.entry_of_mem hmem hsource (by simp [Model.sourceCoefficients, hcon, hvalue])
    have hnew := h.entry_setCoefficient_of_mem index v (value + delta) hsource hmem
    simp only at hnew
    rw [if_pos rfl, rowSign_of_source hsource, hold, hnew]
    ring
  · have hrate : (if j = column then c.rowSign index i * factor else 0) = 0 := by
      split_ifs with hcase
      · rw [rowSign_eq_zero fun half hhalf => hsource ⟨half, hcase, hhalf⟩, zero_mul]
      · rfl
    rw [hrate, zero_mul, add_zero]
    refine matrix_entry_setCoefficient_of_notMem index v (value + delta) fun k half hk hhalf r hr hr' => ?_
    rw [hcolumn, List.mem_singleton] at hr
    rw [hr] at hr'
    rw [Nat.add_right_cancel hk] at hsource
    exact hsource ⟨half, hr'.symm, hhalf⟩

theorem getD_canonicalCost_setCoefficient (value : ℚ) (hj : j < c.tableau.nrColumns) :
    (c.setCoefficient index v value).canonicalCost.getD j 0 = c.canonicalCost.getD j 0 := by
  rw [c.getD_canonicalCost hj, getD_canonicalCost _ (by rw [h.nrColumns_setCoefficient]; exact hj)]
  refine congrArg (- ·) (matrix_entry_setCoefficient_of_notMem index v value fun k _ hk => ?_)
  exact absurd hk.symm (Nat.succ_ne_zero k)

theorem rhs_setCoefficient (value : ℚ) (i : ℕ) : (c.setCoefficient index v value).tableau.rhs i = c.tableau.rhs i := by
  rw [Tableau.rhs, h.nrColumns_setCoefficient]
  refine matrix_entry_setCoefficient_of_notMem index v value fun _ _ _ _ r hr => ?_
  exact (h.lt_nrColumns (mem_structural_of_mem_columnsOf hr)).ne

theorem rhs_setCost (value : ℚ) (i : ℕ) : (c.setCost v value).tableau.rhs i = c.tableau.rhs i := by
  rw [Tableau.rhs, h.nrColumns_setCost]
  exact matrix_entry_succ_setCost v value i _

end CanonicalForm.Represents

/-! ### How the tableau of an analyzer moves -/

namespace Analyzer.Tracks

variable {m' : Model ℚ} (h : a.Tracks m)
include h

/-- The basis of the tableau can be inverted for the edited form as well, and gives the same tableau. -/
theorem exists_ofColumns (hrep : c.Represents m') (hinverts : a.ownBasis.Inverts c.tableau) :
    ∃ b, BasisInverse.ofColumns c.tableau a.tableau.basis a.tolerances.general = .ok b ∧
      b.tableau c.tableau c.canonicalCost = a.ownBasis.tableau c.tableau c.canonicalCost := by
  have hwf := hrep.atBasis.wellFormed
  have hrew := hinverts.rewrites_tableau hwf (fun _ hj => c.getD_canonicalCost hj) hrep.objectiveValue_eq
  obtain ⟨b, hb, hcolumns, hb'⟩ := (hinverts.unitAt_tableau hwf).ofColumns hrew.equivalent
  refine ⟨b, ?_, ?_⟩
  · rw [h.general_eq]
    exact hb
  · refine hb'.tableau_eq_of_rewrites hwf (fun _ hj => c.getD_canonicalCost hj) hrep.objectiveValue_eq hrew ?_
    rw [hcolumns, hinverts.tableau_eq hwf]
    rfl

theorem moves_of_eq (hinverts : a.ownBasis.Inverts c.tableau) (hwf : c.tableau.WellFormed)
    (hrows : c.tableau.nrRows = a.canonical.tableau.nrRows)
    (hcolumns : c.tableau.nrColumns = a.canonical.tableau.nrColumns)
    (hrhs : ∀ i < a.canonical.tableau.nrRows, (a.ownBasis.tableau c.tableau c.canonicalCost).rhs i =
      (a.ownBasis.tableau a.canonical.tableau a.canonical.canonicalCost).rhs i + rhsRate i * delta)
    (hcost : ∀ j < a.canonical.tableau.nrColumns, (a.ownBasis.tableau c.tableau c.canonicalCost).relativeCost j =
      (a.ownBasis.tableau a.canonical.tableau a.canonical.canonicalCost).relativeCost j + costRate j * delta) :
    a.tableau.Moves (a.ownBasis.tableau c.tableau c.canonicalCost) rhsRate costRate delta := by
  have htrows := h.rewrites.equivalent.nrRows_eq
  have htcolumns := h.rewrites.equivalent.nrColumns_eq
  rw [h.tableau_ownBasis] at hrhs hcost
  refine ⟨?_, ?_, fun i hi => hrhs i (htrows ▸ hi), fun j hj => hcost j (htcolumns ▸ hj)⟩
  · rw [hinverts.nrRows_tableau hwf, hrows, htrows]
  · rw [hinverts.nrColumns_tableau hwf, hcolumns, htcolumns]

theorem moves_setRhs {con : Constraint ℚ} (hcon : m.constraints[index]? = some con) (delta : ℚ) :
    a.tableau.Moves (a.ownBasis.tableau (a.canonical.setRhs index (con.rhs + delta)).tableau
        (a.canonical.setRhs index (con.rhs + delta)).canonicalCost)
      (fun i => a.ownBasis.inverse.rowDot i (a.canonical.rowSign index)) 0 delta := by
  have hinverts := h.inverts_ownBasis
  have hinverts' := h.represents.inverts_setRhs hinverts index (con.rhs + delta)
  have hwf := h.represents.atBasis.wellFormed
  have hwf' := (h.represents.setRhs index (con.rhs + delta)).atBasis.wellFormed
  have hrows := h.represents.nrRows_setRhs index (con.rhs + delta)
  have hcolumns := h.represents.nrColumns_setRhs index (con.rhs + delta)
  refine h.moves_of_eq hinverts' hwf' hrows hcolumns (fun i hi => ?_) fun j hj => ?_
  · exact hinverts.rhs_tableau_add hinverts' hwf hwf' hrows (fun k hk => h.represents.rhs_setRhs_add hcon delta hk) hi
  · rw [Pi.zero_apply, zero_mul, add_zero]
    exact hinverts.relativeCost_tableau_congr hinverts' hwf hwf' hrows hcolumns
      (fun _ _ => CanonicalForm.matrix_entry_setRhs_of_lt index _ hj)
      (fun _ hl => h.represents.getD_canonicalCost_setRhs _ hl) hj

theorem moves_setCost (hcolumn : a.canonical.columnsOf v = [(column, factor)]) {value : ℚ}
    (hvalue : m.cost[v]? = some value) (delta : ℚ) :
    a.tableau.Moves (a.ownBasis.tableau (a.canonical.setCost v (value + delta)).tableau
        (a.canonical.setCost v (value + delta)).canonicalCost)
      0 (a.tableau.costMoves column (a.canonical.direction.sign * factor)) delta := by
  have hinverts := h.inverts_ownBasis
  have hinverts' := h.represents.inverts_setCost hinverts v (value + delta)
  have hwf := h.represents.atBasis.wellFormed
  have hwf' := (h.represents.setCost v (value + delta)).atBasis.wellFormed
  have hrows := h.represents.nrRows_setCost v (value + delta)
  have hcolumns := h.represents.nrColumns_setCost v (value + delta)
  refine h.moves_of_eq hinverts' hwf' hrows hcolumns (fun i hi => ?_) fun j hj => ?_
  · rw [Pi.zero_apply, zero_mul, add_zero]
    exact hinverts.rhs_tableau_congr hinverts' hwf hwf' hrows (fun k _ => h.represents.rhs_setCost _ k) hi
  · rw [hinverts.relativeCost_tableau_add hinverts' hwf hwf' hrows hcolumns
      (fun k _ l _ => CanonicalForm.matrix_entry_succ_setCost v (value + delta) k l)
      (fun l hl => h.represents.getD_canonicalCost_setCost_add hcolumn hvalue delta hl) hj, h.tableau_ownBasis,
      Tableau.costMoves, h.rewrites.equivalent.nrRows_eq]
    rfl

theorem inverts_setCoefficient (hcolumn : a.canonical.columnsOf v = [(column, factor)])
    (hbasis : column ∉ a.tableau.basis) (value : ℚ) :
    a.ownBasis.Inverts (a.canonical.setCoefficient index v value).tableau := by
  refine h.represents.inverts_setCoefficient h.inverts_ownBasis (fun r hr => ?_) index value
  rw [hcolumn, List.mem_singleton] at hr
  rw [hr]
  exact hbasis

theorem moves_setCoefficient (hcolumn : a.canonical.columnsOf v = [(column, factor)])
    (hbasis : column ∉ a.tableau.basis) {con : Constraint ℚ} (hcon : m.constraints[index]? = some con) {value : ℚ}
    (hvalue : con.coefficients[v]? = some value) (delta : ℚ) :
    a.tableau.Moves (a.ownBasis.tableau (a.canonical.setCoefficient index v (value + delta)).tableau
        (a.canonical.setCoefficient index v (value + delta)).canonicalCost)
      0 (fun j => if j = column then
          factor * combinedPrice a.shadowPrices (a.canonical.constraintRows index) else 0) delta := by
  have hinverts := h.inverts_ownBasis
  have hinverts' : a.ownBasis.Inverts (a.canonical.setCoefficient index v (value + delta)).tableau :=
    h.inverts_setCoefficient hcolumn hbasis _
  have hwf := h.represents.atBasis.wellFormed
  have hwf' := (h.represents.setCoefficient index v (value + delta)).atBasis.wellFormed
  have hrows := h.represents.nrRows_setCoefficient index v (value + delta)
  have hcolumns := h.represents.nrColumns_setCoefficient index v (value + delta)
  have hentry := h.represents.entry_setCoefficient_add hcolumn hcon hvalue delta
  have hcost : ∀ l < a.canonical.tableau.nrColumns,
      (a.canonical.setCoefficient index v (value + delta)).canonicalCost.getD l 0 =
        a.canonical.canonicalCost.getD l 0 := fun l hl => h.represents.getD_canonicalCost_setCoefficient _ hl
  refine h.moves_of_eq hinverts' hwf' hrows hcolumns (fun i hi => ?_) fun j hj => ?_
  · rw [Pi.zero_apply, zero_mul, add_zero]
    exact hinverts.rhs_tableau_congr hinverts' hwf hwf' hrows (fun k _ => h.represents.rhs_setCoefficient _ k) hi
  · split_ifs with hcase
    · subst hcase
      rw [h.represents.combinedPrice_eq, hinverts.relativeCost_tableau_add_entry hinverts' hwf hwf' hrows hcolumns
        (fun k _ => (hentry k j).trans (by rw [if_pos rfl])) hcost hj, h.shadowPrices_ownBasis, Finset.mul_sum]
      refine congrArg (_ + · * delta) (Finset.sum_congr rfl fun k _ => ?_)
      ring
    · rw [zero_mul, add_zero]
      refine hinverts.relativeCost_tableau_congr hinverts' hwf hwf' hrows hcolumns (fun k _ => ?_) hcost hj
      rw [hentry, if_neg hcase, zero_mul, add_zero]

end Analyzer.Tracks

/-! ### Values and conditions of the reports -/

theorem bind_eq_ok {α β : Type} {x : Except Error α} {f : α → Except Error β} {y : β} (h : x >>= f = .ok y) :
    ∃ z, x = .ok z ∧ f z = .ok y := by
  cases x with
  | error e => cases h
  | ok z => exact ⟨z, rfl, h⟩

theorem foldl_rates (M : RowMatrix ℚ) (rows : List (ℕ × ℚ)) {total : List ℚ} (hlen : total.length = M.nrRows) :
    (rows.foldl (fun total p => List.zipWith (· + ·) total ((M.column p.1).map (p.2 * ·))) total).length = M.nrRows ∧
      ∀ i < M.nrRows,
        (rows.foldl (fun total p => List.zipWith (· + ·) total ((M.column p.1).map (p.2 * ·))) total).getD i 0 =
          total.getD i 0 + (rows.map fun p => p.2 * M.entry i p.1).sum := by
  induction rows generalizing total with
  | nil => exact ⟨hlen, fun i _ => by simp⟩
  | cons p rows ih =>
    have hcolumn : (M.column p.1).length = M.nrRows := by simp [RowMatrix.column, RowMatrix.nrRows]
    have hnext : (List.zipWith (· + ·) total ((M.column p.1).map (p.2 * ·))).length = M.nrRows := by
      simp [hlen, hcolumn]
    obtain ⟨hlength, hget⟩ := ih hnext
    refine ⟨hlength, fun i hi => ?_⟩
    have hentry : (List.zipWith (· + ·) total ((M.column p.1).map (p.2 * ·))).getD i 0 =
        total.getD i 0 + p.2 * M.entry i p.1 := by
      rw [List.getD_eq_getElem _ _ (hnext ▸ hi), List.getElem_zipWith, List.getElem_map,
        List.getD_eq_getElem _ _ (hlen ▸ hi), ← RowMatrix.getD_column, List.getD_eq_getElem _ _ (hcolumn ▸ hi)]
    rw [List.foldl_cons, hget i hi, hentry, List.map_cons, List.sum_cons, add_assoc]

namespace Analyzer

theorem rowsOf_eq_ok {rows : List (ℕ × ℚ)} (h : a.rowsOf index = .ok rows) :
    index < a.canonical.nrConstraints ∧ rows = a.canonical.constraintRows index := by
  unfold rowsOf at h
  split_ifs at h with hindex
  exact ⟨hindex, (Except.ok.inj h).symm⟩

theorem variableColumn_eq_ok (h : a.variableColumn v = .ok (column, factor)) :
    a.canonical.columnsOf v = [(column, factor)] ∧ factor * factor = 1 := by
  unfold variableColumn at h
  unfold CanonicalForm.columnsOf
  split at h
  · cases h
  · next hget =>
    obtain ⟨rfl, rfl⟩ := Prod.mk.inj (Except.ok.inj h)
    rw [hget]
    exact ⟨rfl, one_mul 1⟩
  · next hget =>
    obtain ⟨rfl, rfl⟩ := Prod.mk.inj (Except.ok.inj h)
    rw [hget]
    exact ⟨rfl, by norm_num⟩
  · cases h

namespace Tracks

variable (h : a.Tracks m)
include h

theorem exists_constraint (hindex : index < a.canonical.nrConstraints) : ∃ con, m.constraints[index]? = some con := by
  rw [h.represents.nrConstraints_eq] at hindex
  exact ⟨_, List.getElem?_eq_getElem hindex⟩

theorem exists_cost {r : ℕ × ℚ} (hr : r ∈ a.canonical.columnsOf v) : ∃ value, m.cost[v]? = some value := by
  obtain ⟨hv, -⟩ := CanonicalForm.mem_indices_of_mem_columnsOf hr
  rw [h.represents.length_placements] at hv
  exact ⟨_, List.getElem?_eq_getElem hv⟩

theorem exists_coefficient {r : ℕ × ℚ} (hr : r ∈ a.canonical.columnsOf v) {con : Constraint ℚ}
    (hcon : m.constraints[index]? = some con) : ∃ value, con.coefficients[v]? = some value := by
  obtain ⟨hv, -⟩ := CanonicalForm.mem_indices_of_mem_columnsOf hr
  rw [h.represents.length_placements, ← h.valid.length_coefficients con (List.mem_of_getElem? hcon)] at hv
  exact ⟨_, List.getElem?_eq_getElem hv⟩

/-- A constraint has a row, so the first of its rows is one. -/
theorem head_constraintRows {con : Constraint ℚ} (hcon : m.constraints[index]? = some con) :
    ∃ i half, (a.canonical.constraintRows index).headD (0, 1) = (i, half.sign) ∧
      a.canonical.rowSources[i]? = some (.constraint index half) := by
  obtain ⟨half, hhalf⟩ : ∃ half, half ∈ con.relation.halves := by
    cases con.relation with
    | equal => exact ⟨.less, by simp [Relation.halves]⟩
    | greater => exact ⟨.greater, by simp [Relation.halves]⟩
    | less => exact ⟨.less, by simp [Relation.halves]⟩
  obtain ⟨i, hi⟩ := List.mem_iff_getElem?.mp ((h.represents.hasSource_iff (.constraint index half)).mpr ⟨con, hcon, hhalf⟩)
  have hrow : (i, half.sign) ∈ a.canonical.constraintRows index := CanonicalForm.mem_constraintRows.mpr ⟨half, hi, rfl⟩
  cases hrows : a.canonical.constraintRows index with
  | nil =>
    rw [hrows] at hrow
    cases hrow
  | cons p rest =>
    have hp : p ∈ a.canonical.constraintRows index := hrows ▸ List.mem_cons_self
    obtain ⟨half', hsource, hsign⟩ := CanonicalForm.mem_constraintRows.mp hp
    exact ⟨p.1, half', Prod.ext rfl hsign, hsource⟩

theorem column_lt {r : ℕ × ℚ} (hr : r ∈ a.canonical.columnsOf v) : r.1 < a.tableau.nrColumns := by
  rw [h.rewrites.equivalent.nrColumns_eq]
  exact h.represents.lt_nrColumns (CanonicalForm.mem_structural_of_mem_columnsOf hr)

theorem currentCost_eq (hcolumn : a.variableColumn v = .ok (column, factor)) {value : ℚ}
    (hvalue : m.cost[v]? = some value) : a.currentCost column factor = value := by
  obtain ⟨hcolumns, hfactor⟩ := variableColumn_eq_ok hcolumn
  have hmem : (column, factor) ∈ a.canonical.columnsOf v := hcolumns ▸ List.mem_singleton_self _
  have hcost : a.canonical.tableau.relativeCost column = -a.canonical.direction.sign * (factor * value) :=
    h.represents.relativeCost_of_mem hmem hvalue
  rw [currentCost, a.canonical.getD_canonicalCost (h.represents.lt_nrColumns
    (CanonicalForm.mem_structural_of_mem_columnsOf hmem)), hcost]
  calc a.canonical.direction.sign * factor * -(-a.canonical.direction.sign * (factor * value))
      = a.canonical.direction.sign * (a.canonical.direction.sign * (factor * factor * value)) := by ring
    _ = value := by rw [Direction.sign_mul_sign, hfactor, one_mul]

theorem nrRows_inverse : a.basis.inverse.nrRows = a.tableau.nrRows :=
  h.inverts.regular.nrRows_eq.trans h.rewrites.equivalent.nrRows_eq.symm

theorem rhsRates_spec (index : ℕ) :
    (a.rhsRates (a.canonical.constraintRows index)).length = a.tableau.nrRows ∧
      ∀ i < a.tableau.nrRows, (a.rhsRates (a.canonical.constraintRows index)).getD i 0 =
        a.ownBasis.inverse.rowDot i (a.canonical.rowSign index) := by
  have hlen : (List.replicate a.tableau.nrRows (0 : ℚ)).length = a.basis.inverse.nrRows :=
    List.length_replicate.trans h.nrRows_inverse.symm
  obtain ⟨hlength, hget⟩ := foldl_rates a.basis.inverse (a.canonical.constraintRows index) hlen
  refine ⟨hlength.trans h.nrRows_inverse, fun i hi => (hget i (h.nrRows_inverse ▸ hi)).trans ?_⟩
  rw [List.getD_replicate _ hi, zero_add, a.canonical.sum_constraintRows index (a.basis.inverse.entry i), ownBasis,
    BasisInverse.withColumns, RowMatrix.rowDot, h.inverts.regular.nrColumns_eq, h.represents.length_rowSources]
  exact Finset.sum_congr rfl fun k _ => mul_comm _ _

theorem collects_rhsRates (index : ℕ) :
    a.tableau.Collects (fun i => a.ownBasis.inverse.rowDot i (a.canonical.rowSign index)) 0
      (List.zipWith (fun v rate => ⟨v, rate⟩) a.tableau.rhsValues
        (a.rhsRates (a.canonical.constraintRows index))) := by
  obtain ⟨hlen, hrates⟩ := h.rhsRates_spec index
  have hget : ∀ i (hi : i < (List.zipWith (fun v rate => (⟨v, rate⟩ : Condition ℚ)) a.tableau.rhsValues
      (a.rhsRates (a.canonical.constraintRows index))).length),
      i < a.tableau.nrRows ∧ (List.zipWith (fun v rate => (⟨v, rate⟩ : Condition ℚ)) a.tableau.rhsValues
        (a.rhsRates (a.canonical.constraintRows index)))[i] =
          ⟨a.tableau.rhs i, a.ownBasis.inverse.rowDot i (a.canonical.rowSign index)⟩ := by
    intro i hi
    have hi' : i < a.tableau.nrRows := by simpa [Tableau.rhsValues, hlen] using hi
    refine ⟨hi', ?_⟩
    rw [List.getElem_zipWith, ← hrates i hi', List.getD_eq_getElem _ _ (hlen ▸ hi')]
    simp [Tableau.rhsValues]
  refine ⟨fun c hc => ?_, fun i hi _ => ?_, fun _ _ hne => absurd rfl hne⟩
  · obtain ⟨i, hi, rfl⟩ := List.mem_iff_getElem.mp hc
    exact Or.inl ⟨i, hget i hi⟩
  · have hi' : i < (List.zipWith (fun v rate => (⟨v, rate⟩ : Condition ℚ)) a.tableau.rhsValues
        (a.rhsRates (a.canonical.constraintRows index))).length := by
      simpa [Tableau.rhsValues, hlen] using hi
    exact List.mem_iff_getElem.mpr ⟨i, hi', (hget i hi').2⟩

theorem collects_row {row : ℕ} (hrow : row < a.tableau.nrRows) (rate : ℚ) :
    a.tableau.Collects 0 (a.tableau.costMoves (a.tableau.basis.getD row 0) rate)
      ((a.tableau.nonBasicColumns.filter fun k =>
          !Scalar.isZero (a.tableau.entry row k) a.tolerances.general).map fun k =>
        ⟨a.tableau.relativeCost k, rate * a.tableau.entry row k⟩) := by
  have hatBasis := h.rewrites.atBasis
  have hmoves := hatBasis.unitAt.costMoves_getD hrow rate
  refine ⟨fun c hc => ?_, fun _ _ hne => absurd rfl hne, fun j hj hne => ?_⟩
  · obtain ⟨k, hk, rfl⟩ := List.mem_map.mp hc
    obtain ⟨hlt, hbasis⟩ := hatBasis.wellFormed.mem_nonBasicColumns.mp (List.mem_filter.mp hk).1
    exact Or.inr ⟨k, hlt, by rw [hmoves, if_neg hbasis]⟩
  · rw [hmoves] at hne ⊢
    have hbasis : j ∉ a.tableau.basis := fun hmem => hne (if_pos hmem)
    rw [if_neg hbasis] at hne ⊢
    refine List.mem_map.mpr ⟨j, List.mem_filter.mpr ⟨?_, ?_⟩, rfl⟩
    · exact hatBasis.wellFormed.mem_nonBasicColumns.mpr ⟨hj, hbasis⟩
    · rw [h.general_eq, Bool.not_eq_true', Bool.eq_false_iff, ne_eq, Scalar.isZero_zero_iff]
      exact fun hzero => hne (by rw [hzero, mul_zero])

end Tracks

/-! ### Ranges -/

/-- The report tells for which changes the basis stays optimal, when the changed value is written by the given edit: the
basis can be inverted for the edited form, and its tableau is optimal exactly for the changes in the interval. -/
def Tells (a : Analyzer ℚ) (report : RangeReport ℚ) (edit : ℚ → CanonicalForm ℚ) : Prop :=
  ∀ delta, ∃ b,
    BasisInverse.ofColumns (edit (report.current + delta)).tableau a.tableau.basis a.tolerances.general = .ok b ∧
    (report.interval.contains delta 0 = true ↔
      (b.tableau (edit (report.current + delta)).tableau
        (edit (report.current + delta)).canonicalCost).isOptimal 0 = true)

namespace Tracks

variable {report : RangeReport ℚ} (h : a.Tracks m)
include h

theorem isOptimal_of_checkOptimal {u : Unit} (hcheck : a.checkOptimal = .ok u) : a.tableau.isOptimal 0 = true := by
  unfold checkOptimal at hcheck
  split_ifs at hcheck with hopt
  rw [← h.general_eq]
  exact hopt

theorem tells_ofConditions {edit : ℚ → CanonicalForm ℚ} {value : ℚ} (hrep : ∀ x, ∃ m', (edit x).Represents m')
    (hinverts : ∀ x, a.ownBasis.Inverts (edit x).tableau)
    (hmoves : ∀ delta, a.tableau.Moves (a.ownBasis.tableau (edit (value + delta)).tableau
      (edit (value + delta)).canonicalCost) rhsRate costRate delta)
    (hconditions : a.tableau.Collects rhsRate costRate conditions) {u : Unit} (hcheck : a.checkOptimal = .ok u) :
    a.Tells (.ofConditions value conditions a.tolerances.general) edit := by
  intro delta
  obtain ⟨m', hrep'⟩ := hrep (value + delta)
  obtain ⟨b, hb, htableau⟩ := h.exists_ofColumns hrep' (hinverts (value + delta))
  refine ⟨b, hb, ?_⟩
  simp only [RangeReport.ofConditions]
  rw [h.general_eq, htableau]
  exact (hmoves delta).isOptimal_iff hconditions (h.isOptimal_of_checkOptimal hcheck)

theorem tells_rhsRange (hok : a.rhsRange index = .ok report) :
    ∃ con, m.constraints[index]? = some con ∧ report.current = con.rhs ∧
      a.Tells report (a.canonical.setRhs index) := by
  obtain ⟨_, hcheck, hok⟩ := bind_eq_ok hok
  obtain ⟨rows, hrows, hok⟩ := bind_eq_ok hok
  obtain ⟨hindex, rfl⟩ := rowsOf_eq_ok hrows
  obtain ⟨con, hcon⟩ := h.exists_constraint hindex
  obtain ⟨i, half, hhead, hsource⟩ := h.head_constraintRows hcon
  have hrhs : a.canonical.tableau.rhs i = half.sign * con.rhs := by
    refine (h.represents.rhs_eq i _ hsource).trans ?_
    simp [Model.sourceRhs, RowSource.sign, hcon]
  rw [hhead] at hok
  obtain rfl := Except.ok.inj hok
  rw [hrhs, half.sign_mul_sign]
  exact ⟨con, hcon, rfl, h.tells_ofConditions (fun x => ⟨_, h.represents.setRhs index x⟩)
    (h.represents.inverts_setRhs h.inverts_ownBasis index) (h.moves_setRhs hcon) (h.collects_rhsRates index) hcheck⟩

theorem tells_nonBasicCostRange (hok : a.nonBasicCostRange v = .ok report) :
    m.cost[v]? = some report.current ∧ a.Tells report (a.canonical.setCost v) := by
  obtain ⟨_, hcheck, hok⟩ := bind_eq_ok hok
  obtain ⟨⟨column, factor⟩, hcolumn, hok⟩ := bind_eq_ok hok
  have hcolumns := (variableColumn_eq_ok hcolumn).1
  have hmem : (column, factor) ∈ a.canonical.columnsOf v := hcolumns ▸ List.mem_singleton_self _
  obtain ⟨value, hvalue⟩ := h.exists_cost hmem
  have hunit := h.rewrites.atBasis.unitAt
  simp only at hok
  split_ifs at hok with hbasic
  rw [h.rewrites.atBasis.wellFormed.mask_iff] at hbasic
  obtain rfl := Except.ok.inj hok
  have hrate : -a.canonical.direction.sign * factor =
      a.tableau.costMoves column (a.canonical.direction.sign * factor) column := by
    rw [hunit.costMoves_of_notMem hbasic, if_pos rfl, neg_mul]
  rw [h.currentCost_eq hcolumn hvalue, hrate]
  refine ⟨hvalue, h.tells_ofConditions (fun x => ⟨_, h.represents.setCost v x⟩)
    (h.represents.inverts_setCost h.inverts_ownBasis v) (h.moves_setCost hcolumns hvalue)
    (Tableau.collects_singleton (h.column_lt hmem) fun j _ hne => ?_) hcheck⟩
  rw [hunit.costMoves_of_notMem hbasic, if_neg hne, neg_zero]

theorem tells_basicCostRange (hok : a.basicCostRange v = .ok report) :
    m.cost[v]? = some report.current ∧ a.Tells report (a.canonical.setCost v) := by
  obtain ⟨_, hcheck, hok⟩ := bind_eq_ok hok
  obtain ⟨⟨column, factor⟩, hcolumn, hok⟩ := bind_eq_ok hok
  have hcolumns := (variableColumn_eq_ok hcolumn).1
  obtain ⟨value, hvalue⟩ := h.exists_cost (hcolumns ▸ List.mem_singleton_self _)
  have hunit := h.rewrites.atBasis.unitAt
  simp only at hok
  cases hrow : a.tableau.basisRow? column with
  | none =>
    rw [hrow] at hok
    cases hok
  | some row =>
    rw [hrow] at hok
    obtain ⟨hlt, hbasis, -⟩ := List.idxOf?_eq_some_iff.mp hrow
    rw [← List.getD_eq_getElem _ 0 hlt] at hbasis
    subst hbasis
    obtain rfl := Except.ok.inj hok
    rw [h.currentCost_eq hcolumn hvalue]
    exact ⟨hvalue, h.tells_ofConditions (fun x => ⟨_, h.represents.setCost v x⟩)
      (h.represents.inverts_setCost h.inverts_ownBasis v) (h.moves_setCost hcolumns hvalue)
      (h.collects_row (hunit.length_eq ▸ hlt) _) hcheck⟩

theorem tells_coefficientRange (hok : a.coefficientRange index v = .ok report) :
    ∃ con, m.constraints[index]? = some con ∧ con.coefficients[v]? = some report.current ∧
      a.Tells report (a.canonical.setCoefficient index v) := by
  obtain ⟨_, hcheck, hok⟩ := bind_eq_ok hok
  obtain ⟨rows, hrows, hok⟩ := bind_eq_ok hok
  obtain ⟨⟨column, factor⟩, hcolumn, hok⟩ := bind_eq_ok hok
  obtain ⟨hindex, rfl⟩ := rowsOf_eq_ok hrows
  obtain ⟨con, hcon⟩ := h.exists_constraint hindex
  obtain ⟨i, half, hhead, hsource⟩ := h.head_constraintRows hcon
  obtain ⟨hcolumns, hfactor⟩ := variableColumn_eq_ok hcolumn
  have hmem : (column, factor) ∈ a.canonical.columnsOf v := hcolumns ▸ List.mem_singleton_self _
  obtain ⟨value, hvalue⟩ := h.exists_coefficient hmem hcon
  simp only [hhead] at hok
  split_ifs at hok with hbasic
  rw [h.rewrites.atBasis.wellFormed.mask_iff] at hbasic
  obtain rfl := Except.ok.inj hok
  have hcurrent : half.sign * factor * a.canonical.tableau.entry i column = value := by
    have hentry : a.canonical.tableau.entry i column = half.sign * (factor * value) :=
      h.represents.entry_of_mem hmem hsource (by simp [Model.sourceCoefficients, hcon, hvalue])
    calc half.sign * factor * a.canonical.tableau.entry i column
        = half.sign * (half.sign * (factor * factor * value)) := by rw [hentry]; ring
      _ = value := by rw [half.sign_mul_sign, hfactor, one_mul]
  rw [hcurrent]
  refine ⟨con, hcon, hvalue, h.tells_ofConditions (fun x => ⟨_, h.represents.setCoefficient index v x⟩)
    (h.inverts_setCoefficient hcolumns hbasic) (h.moves_setCoefficient hcolumns hbasic hcon hvalue) ?_ hcheck⟩
  have hcollects := Tableau.collects_singleton (h.column_lt hmem) fun j _ (hne : j ≠ column) =>
    (if_neg hne : (if j = column then
      factor * combinedPrice a.shadowPrices (a.canonical.constraintRows index) else 0) = 0)
  simpa using hcollects

end Tracks

end Analyzer

/-- A value of the model whose range is asked for. -/
inductive RangeQuery
  | rhs (index : ℕ)
  | nonBasicCost (variableIndex : ℕ)
  | basicCost (variableIndex : ℕ)
  | coefficient (index variableIndex : ℕ)

namespace RangeQuery

def ask (a : Analyzer ℚ) : RangeQuery → Except Error (RangeReport ℚ)
  | rhs index => a.rhsRange index
  | nonBasicCost variableIndex => a.nonBasicCostRange variableIndex
  | basicCost variableIndex => a.basicCostRange variableIndex
  | coefficient index variableIndex => a.coefficientRange index variableIndex

def value? (m : Model ℚ) : RangeQuery → Option ℚ
  | rhs index => m.constraints[index]?.map (·.rhs)
  | nonBasicCost variableIndex | basicCost variableIndex => m.cost[variableIndex]?
  | coefficient index variableIndex => m.constraints[index]?.bind (·.coefficients[variableIndex]?)

def edit (c : CanonicalForm ℚ) : RangeQuery → ℚ → CanonicalForm ℚ
  | rhs index => c.setRhs index
  | nonBasicCost variableIndex | basicCost variableIndex => c.setCost variableIndex
  | coefficient index variableIndex => c.setCoefficient index variableIndex

/-- After any sequence of changes, a report tells the value in the current model, and exactly the changes of it that keep
the basis of the current tableau optimal. -/
theorem tells_ask {direction : Direction} {cost : List ℚ} {rows : List (List ℚ)} {relations : List Relation}
    {rhs : List ℚ} {domains : List VariableDomain} {start : Model ℚ} {report : RangeReport ℚ}
    (hstart : Model.ofData direction cost rows relations rhs domains = .ok start)
    (hreached : Analyzer.Reached start m a) (q : RangeQuery) (hok : q.ask a = .ok report) :
    q.value? m = some report.current ∧ a.Tells report (q.edit a.canonical) := by
  have h := Analyzer.tracks_of_reached (Model.valid_of_ofData hstart) hreached
  cases q with
  | rhs index =>
    obtain ⟨con, hcon, hcurrent, htells⟩ := h.tells_rhsRange hok
    refine ⟨?_, htells⟩
    simp [value?, hcon, hcurrent]
  | nonBasicCost variableIndex => exact h.tells_nonBasicCostRange hok
  | basicCost variableIndex => exact h.tells_basicCostRange hok
  | coefficient index variableIndex =>
    obtain ⟨con, hcon, hcurrent, htells⟩ := h.tells_coefficientRange hok
    refine ⟨?_, htells⟩
    simp [value?, hcon, hcurrent]

end RangeQuery

/-- A model with a row of each relation, one of its variables being negated. -/
def blendModel : Model ℚ where
  direction := .minimize
  cost := [2, -3, 1]
  domains := [.nonnegative, .nonpositive, .nonnegative]
  constraints := [⟨[1, -1, 1], .greater, 4⟩, ⟨[1, 1, 0], .equal, 1⟩, ⟨[0, -1, 2], .less, 8⟩]

def blendAnalyzer? : Option (Analyzer ℚ) :=
  match (Analyzer.ofModel blendModel .exact).1 with
  | .ok (.optimal a) => some a
  | _ => none

theorem ofData_blendModel :
    Model.ofData .minimize [2, -3, 1] [[1, -1, 1], [1, 1, 0], [0, -1, 2]] [.greater, .equal, .less] [4, 1, 8]
      [.nonnegative, .nonpositive, .nonnegative] = .ok blendModel := by
  decide +kernel

theorem exists_reached_blendModel : ∃ a ∈ blendAnalyzer?, Analyzer.Reached blendModel blendModel a := by
  have hsome : blendAnalyzer?.isSome := by decide +kernel
  obtain ⟨a, ha⟩ := Option.isSome_iff_exists.mp hsome
  have hok : (Analyzer.ofModel blendModel .exact).1 = .ok (.optimal a) := by
    unfold blendAnalyzer? at ha
    split at ha
    · next found hfound => rw [hfound, Option.some.inj ha]
    · cases ha
  exact ⟨a, ha, .start rfl rfl hok⟩

-- The equality has two rows, and the right hand side of another constraint was changed before.
theorem RangeQuery.tells_ask_blendModel :
    Model.ofData .minimize [2, -3, 1] [[1, -1, 1], [1, 1, 0], [0, -1, 2]] [.greater, .equal, .less] [4, 1, 8]
        [.nonnegative, .nonpositive, .nonnegative] = .ok blendModel ∧
      ∃ a report, Analyzer.Reached blendModel (blendModel.setRhs 0 5) a ∧ (RangeQuery.rhs 1).ask a = .ok report ∧
        report.current = 1 ∧ report.interval = ⟨some 0, some 4⟩ ∧
        (RangeQuery.rhs 1).value? (blendModel.setRhs 0 5) = some 1 ∧ a.Tells report (a.canonical.setRhs 1) := by
  have hchange : ∀ a ∈ blendAnalyzer?, ((Change.setRhs 0 5).apply a .exact).status = .ok (.optimal 6) := by
    decide +kernel
  have hask : ∀ a ∈ blendAnalyzer?, (RangeQuery.rhs 1).ask ((Change.setRhs 0 5).apply a .exact).analyzer =
      .ok ⟨1, [⟨4, -1⟩, ⟨0, 0⟩, ⟨1, 1⟩, ⟨0, 2⟩], ⟨some 0, some 4⟩⟩ := by
    decide +kernel
  obtain ⟨a, ha, hstart⟩ := exists_reached_blendModel
  obtain ⟨outcome, hres, -⟩ := Changed.exists_of_status (hchange a ha)
  have hreached : Analyzer.Reached blendModel (blendModel.setRhs 0 5) ((Change.setRhs 0 5).apply a .exact).analyzer :=
    .change (.setRhs 0 5) hstart rfl hres
  have htells := RangeQuery.tells_ask ofData_blendModel hreached (.rhs 1) (hask a ha)
  exact ⟨ofData_blendModel, _, _, hreached, hask a ha, rfl, rfl, htells⟩

end LinearProgramming
