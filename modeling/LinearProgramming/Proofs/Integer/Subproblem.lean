import LinearProgramming.Integer.BranchAndBound
import LinearProgramming.Proofs.Simplex.Relaxation
import LinearProgramming.Proofs.Tableau.Extend

/-! # Subproblems of a search

The tableau of a search node is that of the canonical form, written in some basis, with branching rows appended. It
holds a part of the feasible assignments of the model with their objective values: `CanonicalForm.Subproblem` says
that it holds no others, and `CanonicalForm.Holds` which ones. A pivot changes neither, and a branching row keeps the
assignments on its side of the cut-off value (`Subproblem.holds_branch`). The last tableau of a solved subproblem gives
a feasible assignment that is best among those held (`Subproblem.feasible_solution`, `Subproblem.not_isBetter`). -/

namespace LinearProgramming

open Finset

/-- The assignment is feasible, and integer where the search looks for integers: on the marked variables, or on all
variables if none is marked. -/
def Model.IntegerFeasible (m : Model ℚ) (y : List ℚ) : Prop :=
  m.Feasible y ∧ ∀ v < m.nrVariables, m.integerVariables = [] ∨ v ∈ m.integerVariables → ∃ z : ℤ, y.getD v 0 = z

namespace CanonicalForm

variable {c : CanonicalForm ℚ} {m : Model ℚ} {t u : Tableau ℚ} {y : List ℚ} {v : ℕ}

/-- The tableau is at a basis, and its nonnegative solutions are feasible assignments with their objective values. -/
structure Subproblem (c : CanonicalForm ℚ) (m : Model ℚ) (t : Tableau ℚ) : Prop where
  atBasis : t.AtBasis
  nrColumns_le : c.nrColumns ≤ t.nrColumns
  feasible : ∀ x, t.Feasible x → m.Feasible (c.assignment x)
  objectiveAt_eq : ∀ x, t.Feasible x → t.objectiveAt x = m.direction.sign * m.objectiveValue (c.assignment x)

/-- The assignment is one of the tableau's solutions. -/
def Holds (c : CanonicalForm ℚ) (t : Tableau ℚ) (y : List ℚ) : Prop := ∃ x, t.Feasible x ∧ c.assignment x = y

theorem Represents.subproblem (h : c.Represents m) (hm : m.Valid) : c.Subproblem m c.tableau :=
  ⟨h.atBasis, le_rfl, fun _ hx => h.feasible_assignment hm hx, fun x _ => h.objectiveAt_eq x⟩

theorem Subproblem.rewrites (h : c.Subproblem m t) (hrew : t.Rewrites u) : c.Subproblem m u where
  atBasis := hrew.atBasis
  nrColumns_le := hrew.equivalent.nrColumns_eq.symm ▸ h.nrColumns_le
  feasible x hx := h.feasible x ((hrew.equivalent.feasible_iff x).mp hx)
  objectiveAt_eq x hx := by
    have hx' := (hrew.equivalent.feasible_iff x).mp hx
    rw [hrew.equivalent.objectiveAt_eq x hx'.satisfies, h.objectiveAt_eq x hx']

/-- A new row takes solutions away and changes nothing for the others. -/
theorem Subproblem.addInequality (h : c.Subproblem m t) {coefficients : List ℚ}
    (hlen : coefficients.length ≤ t.nrColumns) (sign rhs : ℚ) : c.Subproblem m (t.addInequality coefficients sign rhs) where
  atBasis := h.atBasis.addInequality hlen
  nrColumns_le := by
    rw [h.atBasis.wellFormed.nrColumns_addInequality]
    exact h.nrColumns_le.trans (Nat.le_succ _)
  feasible x hx := h.feasible x (h.atBasis.feasible_of_addInequality hlen hx).1
  objectiveAt_eq x hx := by
    rw [h.atBasis.objectiveAt_addInequality, h.objectiveAt_eq x (h.atBasis.feasible_of_addInequality hlen hx).1]

theorem holds_iff (hequiv : t.Equivalent u) : c.Holds u y ↔ c.Holds t y :=
  exists_congr fun x => and_congr_left' (hequiv.feasible_iff x)

/-! ### Solved subproblems -/

section Solved

variable (h : c.Represents m) (hsub : c.Subproblem m u)
include h hsub

theorem Subproblem.feasible_solution (hrhs : ∀ i < u.nrRows, 0 ≤ u.rhs i) :
    m.Feasible (c.solution u u.basicSolution).values ∧
      (c.solution u u.basicSolution).objectiveValue = m.objectiveValue (c.solution u u.basicSolution).values := by
  have hunit := hsub.atBasis.unitAt
  have hfeas := hunit.feasible_basicSolution hrhs
  have hobj := hsub.objectiveAt_eq _ hfeas
  rw [hunit.objectiveAt_basicSolution] at hobj
  have hvalues : (c.solution u u.basicSolution).values = c.assignment (Tableau.ofList u.basicSolution) :=
    c.modelValues_eq_assignment _
  rw [hvalues]
  refine ⟨hsub.feasible _ hfeas, ?_⟩
  show c.direction.sign * u.objectiveValue = _
  rw [hobj, h.direction_eq, Direction.sign_mul_sign]

theorem Subproblem.not_isBetter (hcost : ∀ j < u.nrColumns, 0 ≤ u.relativeCost j) (hy : c.Holds u y) :
    ¬m.direction.isBetter (m.objectiveValue y) (c.objectiveValue u.objectiveValue) 0 := by
  obtain ⟨x, hx, rfl⟩ := hy
  have hle := Tableau.objectiveAt_le_of_cost_nonneg hcost hx
  rw [Direction.isBetter_iff, not_lt, objectiveValue, h.direction_eq, Direction.sign_mul_sign,
    ← hsub.objectiveAt_eq x hx]
  exact hle

end Solved

theorem not_holds_of_row {i : ℕ} (hi : i < u.nrRows) (hrhs : u.rhs i < 0)
    (hentry : ∀ j < u.nrColumns, 0 ≤ u.entry i j) : ¬c.Holds u y := by
  rintro ⟨x, hx, -⟩
  exact Tableau.not_feasible_of_row hi hrhs hentry x hx

theorem snap_eq (s : Solution ℚ) (integers : List ℕ) : s.snap integers 0 = s := by
  unfold Solution.snap
  have hid : (s.values.mapIdx fun j v => if integers.contains j then Scalar.snap v 0 else v) = s.values := by
    rw [List.mapIdx_eq_iff]
    intro j
    cases s.values[j]? with
    | none => rfl
    | some v => simp [Scalar.snap_zero]
  rw [hid]

/-! ### Branching -/

/-- The value lies on the side that a branching row keeps. -/
def Keeps (side : BoundSide) (a b : ℚ) : Prop :=
  (side.relation.sign : ℚ) * b ≤ side.relation.sign * side.cutOff a

theorem keeps_or_keeps (a : ℚ) (z : ℤ) : Keeps .upper a z ∨ Keeps .lower a z := by
  have hless : (Relation.less.sign : ℚ) = 1 := rfl
  have hgreater : (Relation.greater.sign : ℚ) = -1 := rfl
  rcases le_or_gt (z : ℚ) a with hle | hgt
  · left
    simp only [Keeps, BoundSide.relation, BoundSide.cutOff, hless, one_mul]
    exact Scalar.intCast_le_floor.mpr hle
  · right
    simp only [Keeps, BoundSide.relation, BoundSide.cutOff, hgreater, neg_one_mul, neg_le_neg_iff]
    exact Scalar.ceil_le_intCast.mpr hgt.le

theorem branch_eq (c : CanonicalForm ℚ) (t : Tableau ℚ) (v : ℕ) (a : ℚ) (side : BoundSide) :
    c.branch t v a side = t.addInequality (c.canonicalCoefficients (RowMatrix.unitVector c.nrVariables v))
      side.relation.sign (side.cutOff a) := by
  cases side <;> rfl

theorem Subproblem.length_branchRow (hsub : c.Subproblem m t) (v : ℕ) :
    (c.canonicalCoefficients (RowMatrix.unitVector c.nrVariables v)).length ≤ t.nrColumns := by
  rw [canonicalCoefficients, Placement.length_spread]
  exact hsub.nrColumns_le

theorem Subproblem.feasible_of_branch (hsub : c.Subproblem m t) {v : ℕ} {a : ℚ} {side : BoundSide} {x : ℕ → ℚ}
    (hx : (c.branch t v a side).Feasible x) :
    t.Feasible x ∧ (c.branch t v a side).objectiveAt x = t.objectiveAt x := by
  rw [branch_eq] at hx ⊢
  exact ⟨(hsub.atBasis.feasible_of_addInequality (hsub.length_branchRow v) hx).1,
    hsub.atBasis.objectiveAt_addInequality x⟩

theorem Subproblem.branch (hsub : c.Subproblem m t) (v : ℕ) (a : ℚ) (side : BoundSide) :
    c.Subproblem m (c.branch t v a side) := by
  rw [branch_eq]
  exact hsub.addInequality (hsub.length_branchRow v) _ _

section Branch

variable (h : c.Represents m) (hsub : c.Subproblem m t)
include h hsub

theorem Subproblem.sum_unitVector (hv : v < m.nrVariables) (x : ℕ → ℚ) :
    ∑ j ∈ range t.nrColumns, (c.canonicalCoefficients (RowMatrix.unitVector c.nrVariables v)).getD j 0 * x j =
      (c.assignment x).getD v 0 := by
  have hlen : c.nrVariables = m.nrVariables := h.length_placements
  rw [h.sum_canonicalCoefficients (by rw [RowMatrix.length_unitVector, hlen]) hsub.nrColumns_le, hlen,
    Scalar.dot_unitVector hv (h.length_assignment x)]

theorem Subproblem.holds_branch (hv : v < m.nrVariables) (a : ℚ) (side : BoundSide) :
    c.Holds (c.branch t v a side) y ↔ c.Holds t y ∧ Keeps side a (y.getD v 0) := by
  have hlen := hsub.length_branchRow v
  rw [branch_eq]
  constructor
  · rintro ⟨x, hx, rfl⟩
    obtain ⟨hx', hle⟩ := hsub.atBasis.feasible_of_addInequality hlen hx
    rw [hsub.sum_unitVector h hv] at hle
    exact ⟨⟨x, hx', rfl⟩, hle⟩
  · rintro ⟨⟨x, hx, rfl⟩, hkeeps⟩
    rw [Keeps, ← hsub.sum_unitVector h hv] at hkeeps
    obtain ⟨x', hx', hagree⟩ := hsub.atBasis.exists_feasible_addInequality hlen hx hkeeps
    refine ⟨x', hx', h.assignment_congr fun j hj => hagree j (hj.trans_le hsub.nrColumns_le)⟩

end Branch

/-! ### Fractional variables -/

theorem uses_iff (p : Placement) (j : ℕ) : p.uses j = true ↔ j ∈ p.indices := by
  have hbeq : ∀ k, (k == j) = true ↔ j = k := fun k => by rw [beq_iff_eq, eq_comm]
  cases p <;> simp only [Placement.uses, Placement.indices, Placement.columns, Bool.or_eq_true, hbeq, List.map_cons,
    List.map_nil, List.mem_cons, List.not_mem_nil, or_false]

/-- Each column belongs to the variable that it represents, and to no earlier one. -/
theorem Represents.columnVariable?_eq (h : c.Represents m) (hv : v < c.placements.length) {j : ℕ}
    (hj : j ∈ c.placements[v].indices) : c.columnVariable? j = some v := by
  rw [columnVariable?, List.findIdx?_eq_some_iff_getElem]
  refine ⟨hv, (uses_iff _ j).mpr hj, fun w hw => ?_⟩
  intro huses
  exact h.notMem_indices hv (hw.trans hv) hw.ne' hj ((uses_iff _ j).mp huses)

theorem getD_modelValues (hv : v < c.placements.length) (values : List ℚ) :
    (c.modelValues values).getD v 0 = c.placements[v].value (Tableau.ofList values) := by
  rw [modelValues_eq_assignment, assignment, List.getD_eq_getElem _ _ (by rw [List.length_map]; exact hv),
    List.getElem_map]

/-- A variable that is not basic is zero, and one that is basic was looked at. -/
theorem Represents.isIntegral_of_firstFractional?_eq_none (h : c.Represents m) (hwf : t.WellFormed) {ε : ℚ}
    (hε : 0 ≤ ε) {integers : List ℕ} (hnone : c.firstFractional? t integers ε = none) (hmem : v ∈ integers)
    (hv : v < c.placements.length) : Scalar.isIntegral ((c.modelValues t.basicSolution).getD v 0) ε = true := by
  by_cases hbasic : ∃ j ∈ c.placements[v].indices, j ∈ t.basis
  · obtain ⟨j, hj, hjbasis⟩ := hbasic
    have hlooked : v ∈ t.basis.filterMap c.columnVariable? :=
      List.mem_filterMap.mpr ⟨j, hjbasis, h.columnVariable?_eq hv hj⟩
    rw [firstFractional?, List.find?_eq_none] at hnone
    have hintegral := hnone (v, (c.modelValues t.basicSolution).getD v 0)
      (List.mem_map.mpr ⟨v, List.mem_filter.mpr ⟨hlooked, by simpa using hmem⟩, rfl⟩)
    simpa only [Bool.not_eq_true, Bool.not_eq_false'] using hintegral
  · have hzero : c.placements[v].value (Tableau.ofList t.basicSolution) = c.placements[v].value 0 := by
      refine Placement.value_congr fun j hj => ?_
      obtain ⟨i, hi, hslot, -⟩ | ⟨-, hvalue⟩ := hwf.isBasic_or_eq_zero j
      · exact absurd ⟨j, hj, hslot ▸ Tableau.getD_mem (hwf.basis_length.symm ▸ hi)⟩ hbasic
      · exact hvalue
    have hvalue : c.placements[v].value 0 = 0 := by cases c.placements[v] <;> simp [Placement.value]
    rw [getD_modelValues hv, hzero, hvalue]
    exact Scalar.isIntegral_zero hε

theorem Represents.exists_int_of_firstFractional?_eq_none (h : c.Represents m) (hwf : t.WellFormed)
    {integers : List ℕ} (hnone : c.firstFractional? t integers 0 = none) (hmem : v ∈ integers)
    (hv : v < c.placements.length) : ∃ z : ℤ, (c.modelValues t.basicSolution).getD v 0 = z :=
  Scalar.exists_int_of_isIntegral (h.isIntegral_of_firstFractional?_eq_none hwf le_rfl hnone hmem hv)

theorem mem_of_firstFractional?_eq_some {integers : List ℕ} {a : ℚ}
    (hsome : c.firstFractional? t integers 0 = some (v, a)) : v ∈ integers := by
  obtain ⟨w, hw, heq⟩ := List.mem_map.mp (List.mem_of_find?_eq_some hsome)
  obtain ⟨rfl, -⟩ := Prod.mk.inj heq
  simpa using (List.mem_filter.mp hw).2

end CanonicalForm

end LinearProgramming
