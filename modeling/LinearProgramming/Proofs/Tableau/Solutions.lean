import LinearProgramming.Proofs.RowMatrix.Elimination
import LinearProgramming.Tableau.Basic

/-! # Solutions of a tableau

A tableau stands for a system of linear equations and for an objective function on its solutions. A column vector
is a function on column indices, of which only the indices of columns matter. Two tableaus are `Equivalent` if they
have the same solutions and the same objective function on them. Both notions are products of matrix rows with the
vector that has a minus one below the right hand sides. -/

namespace LinearProgramming.Tableau

open Finset

variable {t u : Tableau ℚ} {x y : ℕ → ℚ}

/-! ### Solutions and the objective function -/

def Satisfies (t : Tableau ℚ) (x : ℕ → ℚ) : Prop :=
  ∀ i < t.nrRows, ∑ j ∈ range t.nrColumns, t.entry i j * x j = t.rhs i

/-- The objective function, which the relative costs express in terms of the columns that are not basic. -/
def objectiveAt (t : Tableau ℚ) (x : ℕ → ℚ) : ℚ :=
  t.objectiveValue - ∑ j ∈ range t.nrColumns, t.relativeCost j * x j

structure Feasible (t : Tableau ℚ) (x : ℕ → ℚ) : Prop where
  satisfies : t.Satisfies x
  nonneg : ∀ j < t.nrColumns, 0 ≤ x j

theorem satisfies_congr (h : ∀ j < t.nrColumns, x j = y j) : t.Satisfies x ↔ t.Satisfies y := by
  have hsum : ∀ i, ∑ j ∈ range t.nrColumns, t.entry i j * x j = ∑ j ∈ range t.nrColumns, t.entry i j * y j :=
    fun i => Finset.sum_congr rfl fun j hj => by rw [h j (Finset.mem_range.mp hj)]
  simp only [Satisfies, hsum]

theorem feasible_congr (h : ∀ j < t.nrColumns, x j = y j) : t.Feasible x ↔ t.Feasible y := by
  constructor
  · exact fun hx => ⟨(satisfies_congr h).mp hx.satisfies, fun j hj => h j hj ▸ hx.nonneg j hj⟩
  · exact fun hy => ⟨(satisfies_congr h).mpr hy.satisfies, fun j hj => (h j hj).symm ▸ hy.nonneg j hj⟩

/-- The same system of equations with the same objective function, written differently. -/
structure Equivalent (t u : Tableau ℚ) : Prop where
  nrRows_eq : u.nrRows = t.nrRows
  nrColumns_eq : u.nrColumns = t.nrColumns
  satisfies_iff : ∀ x, u.Satisfies x ↔ t.Satisfies x
  objectiveAt_eq : ∀ x, t.Satisfies x → u.objectiveAt x = t.objectiveAt x

theorem Equivalent.refl (t : Tableau ℚ) : t.Equivalent t := ⟨rfl, rfl, fun _ => Iff.rfl, fun _ _ => rfl⟩

theorem Equivalent.of_entry_eq (hrows : u.nrRows = t.nrRows) (hcolumns : u.nrColumns = t.nrColumns)
    (hentry : ∀ i < t.nrRows, ∀ j < t.nrColumns, u.entry i j = t.entry i j)
    (hrhs : ∀ i < t.nrRows, u.rhs i = t.rhs i) (hcost : ∀ j < t.nrColumns, u.relativeCost j = t.relativeCost j)
    (hobjective : u.objectiveValue = t.objectiveValue) : t.Equivalent u := by
  refine ⟨hrows, hcolumns, fun x => ?_, fun x _ => ?_⟩
  · unfold Satisfies
    rw [hrows, hcolumns]
    refine forall₂_congr fun i hi => ?_
    rw [hrhs i hi, Finset.sum_congr rfl fun j hj => by rw [hentry i hi j (Finset.mem_range.mp hj)]]
  · unfold objectiveAt
    rw [hobjective, hcolumns, Finset.sum_congr rfl fun j hj => by rw [hcost j (Finset.mem_range.mp hj)]]

theorem Equivalent.symm (h : t.Equivalent u) : u.Equivalent t :=
  ⟨h.nrRows_eq.symm, h.nrColumns_eq.symm, fun x => (h.satisfies_iff x).symm,
    fun x hx => (h.objectiveAt_eq x ((h.satisfies_iff x).mp hx)).symm⟩

theorem Equivalent.trans {v : Tableau ℚ} (h : t.Equivalent u) (h' : u.Equivalent v) : t.Equivalent v :=
  ⟨h'.nrRows_eq.trans h.nrRows_eq, h'.nrColumns_eq.trans h.nrColumns_eq,
    fun x => (h'.satisfies_iff x).trans (h.satisfies_iff x),
    fun x hx => (h'.objectiveAt_eq x ((h.satisfies_iff x).mpr hx)).trans (h.objectiveAt_eq x hx)⟩

theorem Equivalent.feasible_iff (h : t.Equivalent u) (x : ℕ → ℚ) : u.Feasible x ↔ t.Feasible x := by
  constructor
  · intro hx
    refine ⟨(h.satisfies_iff x).mp hx.satisfies, fun j hj => hx.nonneg j ?_⟩
    rw [h.nrColumns_eq]
    exact hj
  · intro hx
    refine ⟨(h.satisfies_iff x).mpr hx.satisfies, fun j hj => hx.nonneg j ?_⟩
    rw [← h.nrColumns_eq]
    exact hj

/-! ### Rows of the matrix -/

/-- A vector over all columns of the matrix, so that a row times it is left side less right side. -/
def augment (t : Tableau ℚ) (x : ℕ → ℚ) (j : ℕ) : ℚ := if j < t.nrColumns then x j else -1

theorem WellFormed.nrColumns_matrix {α : Type} {t : Tableau α} (h : t.WellFormed) : t.matrix.nrColumns = t.nrColumns + 1 := by
  have := h.columns_pos
  simp only [nrColumns]
  omega

theorem WellFormed.nrRows_matrix {α : Type} {t : Tableau α} (h : t.WellFormed) : t.matrix.nrRows = t.nrRows + 1 := by
  have := h.rows_pos
  simp only [nrRows]
  omega

theorem WellFormed.length_row {α : Type} {t : Tableau α} (h : t.WellFormed) (hi : i < t.nrRows) :
    (t.row i).length = t.nrColumns := by
  have hi' : i + 1 < t.matrix.nrRows := by
    rw [h.nrRows_matrix]
    omega
  rw [row, List.length_take, RowMatrix.length_row h.rectangular hi', h.nrColumns_matrix]
  omega

theorem WellFormed.getElem?_row (h : t.WellFormed) (hi : i < t.nrRows) (hj : j < t.nrColumns) :
    (t.row i)[j]? = some (t.entry i j) := by
  have hlen : j < (t.row i).length := by rwa [h.length_row hi]
  rw [List.getElem?_eq_getElem hlen, Option.some.injEq, entry, RowMatrix.entry,
    List.getD_eq_getElem _ _ (hlen.trans_le (List.length_take_le' ..))]
  exact List.getElem_take

theorem rowDot_augment (hc : t.matrix.nrColumns = t.nrColumns + 1) (i : ℕ) (x : ℕ → ℚ) :
    t.matrix.rowDot i (t.augment x) =
      ∑ j ∈ range t.nrColumns, t.matrix.entry i j * x j - t.matrix.entry i t.nrColumns := by
  unfold RowMatrix.rowDot
  rw [hc, Finset.sum_range_succ, sub_eq_add_neg]
  congr 1
  · refine Finset.sum_congr rfl fun j hj => ?_
    rw [augment, if_pos (Finset.mem_range.mp hj)]
  · rw [augment, if_neg (lt_irrefl _), mul_neg, mul_one]

theorem satisfies_iff_rowDot (hc : t.matrix.nrColumns = t.nrColumns + 1) (x : ℕ → ℚ) :
    t.Satisfies x ↔ ∀ i ∈ {i | 0 < i ∧ i ≤ t.nrRows}, t.matrix.rowDot i (t.augment x) = 0 := by
  constructor
  · rintro h i ⟨hpos, hle⟩
    have hrow := h (i - 1) (by omega)
    have hi : i - 1 + 1 = i := by omega
    simp only [entry, rhs, hi] at hrow
    rw [rowDot_augment hc, hrow, sub_self]
  · intro h i hi
    have hrow := h (i + 1) ⟨by omega, by omega⟩
    rw [rowDot_augment hc] at hrow
    exact sub_eq_zero.mp hrow

theorem objectiveAt_eq_rowDot (hc : t.matrix.nrColumns = t.nrColumns + 1) (x : ℕ → ℚ) :
    t.objectiveAt x = -t.matrix.rowDot 0 (t.augment x) := by
  rw [rowDot_augment hc, neg_sub]
  rfl

end LinearProgramming.Tableau
