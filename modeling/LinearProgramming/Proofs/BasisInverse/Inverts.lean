import LinearProgramming.Proofs.RowMatrix.Inverse
import LinearProgramming.Proofs.Tableau.Basis
import LinearProgramming.BasisInverse

/-! # The tableau of a basis

`BasisInverse.Inverts` says that a matrix inverts the columns of a basis in the first tableau. Columns that are the
unit vectors of an equivalent tableau have such an inverse, and it is found (`UnitAt.ofColumns`). The rows of the first
tableau times the inverse are the tableau of the basis (`Inverts.rewrites_tableau`). This needs no tableau of that
basis for the current data, so that costs and right hand sides may have been changed since the matrix was inverted. -/

namespace LinearProgramming

open Finset

variable {t first : Tableau ℚ} {columns : List ℕ} {b : BasisInverse ℚ} {cost : List ℚ} {i j k : ℕ}

/-- The inverse is that of the basic columns of the first tableau. -/
structure BasisInverse.Inverts (b : BasisInverse ℚ) (first : Tableau ℚ) : Prop where
  length_eq : b.columns.length = first.nrRows
  lt : ∀ j ∈ b.columns, j < first.nrColumns
  regular : b.inverse.Regular first.nrRows
  left_inv : ∀ i < first.nrRows, ∀ l < first.nrRows,
    b.inverse.rowDot i (first.entry · (b.columns.getD l 0)) = if i = l then 1 else 0

/-! ### Finding a basis -/

theorem forall₂_of_mapM_eq_ok {α β : Type} {f : α → Except Error β} {xs : List α} {ys : List β}
    (h : xs.mapM f = .ok ys) : List.Forall₂ (fun x y => f x = .ok y) xs ys := by
  induction xs generalizing ys with
  | nil =>
    obtain rfl := Except.ok.inj h
    exact .nil
  | cons x xs ih =>
    rw [List.mapM_cons] at h
    cases hx : f x with
    | error e =>
      rw [hx] at h
      cases h
    | ok y =>
      cases hxs : xs.mapM f with
      | error e =>
        rw [hx, hxs] at h
        cases h
      | ok rest =>
        rw [hx, hxs] at h
        obtain rfl := Except.ok.inj h
        exact .cons hx (ih hxs)

/-- The columns that are found are unit vectors, whatever the basis of the tableau is. -/
theorem Tableau.unitAt_findBasis (h : t.findBasis 0 = .ok columns) : t.UnitAt columns := by
  have hall := forall₂_of_mapM_eq_ok h
  have hlen : columns.length = t.nrRows := by
    rw [← hall.length_eq, List.length_range]
  have hfound : ∀ i < t.nrRows, columns.getD i 0 < t.nrColumns ∧ t.isUnitColumn i (columns.getD i 0) 0 = true := by
    intro i hi
    have hi' : i < columns.length := by omega
    have hcol := hall.get (by rw [List.length_range]; exact hi) hi'
    rw [List.get_eq_getElem, List.getElem_range, List.get_eq_getElem] at hcol
    rw [List.getD_eq_getElem _ _ hi']
    cases hfind : (List.range t.nrColumns).find? fun j => t.isUnitColumn i j 0 with
    | none =>
      simp only [hfind] at hcol
      cases hcol
    | some j =>
      simp only [hfind] at hcol
      rw [← Except.ok.inj hcol]
      exact ⟨List.mem_range.mp (List.mem_of_find?_eq_some hfind), List.find?_some (p := fun j => t.isUnitColumn i j 0) hfind⟩
  refine ⟨hlen, fun j hj => ?_, fun i hi k hk => ?_, fun i hi => ?_⟩
  · obtain ⟨i, hi, rfl⟩ := List.mem_iff_getElem.mp hj
    rw [← List.getD_eq_getElem _ 0 hi]
    exact (hfound i (by omega)).1
  · exact ((t.isUnitColumn_zero_iff i _).mp (hfound i hi).2).2 k hk
  · exact ((t.isUnitColumn_zero_iff i _).mp (hfound i hi).2).1

/-! ### Inverting a basis -/

/-- A sum over the columns of a basis, as a sum over its rows. -/
theorem Tableau.UnitAt.sum_columns (h : t.UnitAt columns) (f x : ℕ → ℚ) :
    ∑ j ∈ range t.nrColumns, f j * (if j ∈ columns then x (columns.idxOf j) else 0) =
      ∑ l ∈ range t.nrRows, f (columns.getD l 0) * x l := by
  simp only [mul_ite, mul_zero]
  rw [← Finset.sum_filter]
  refine Finset.sum_nbij' (columns.idxOf ·) (columns.getD · 0) ?_ ?_ ?_ ?_ ?_
  · intro j hj
    exact Finset.mem_range.mpr (h.idxOf_lt (Finset.mem_filter.mp hj).2)
  · intro l hl
    rw [Finset.mem_range] at hl
    exact Finset.mem_filter.mpr ⟨Finset.mem_range.mpr (h.getD_lt hl), h.getD_mem hl⟩
  · intro j hj
    exact getD_idxOf (Finset.mem_filter.mp hj).2
  · intro l hl
    exact h.idxOf_getD (Finset.mem_range.mp hl)
  · intro j hj
    rw [getD_idxOf (Finset.mem_filter.mp hj).2]

/-- Columns that are unit vectors of an equivalent tableau are independent: a combination of them that vanishes can be
added to a solution, whose basic values are determined by the others. -/
theorem Tableau.UnitAt.eq_zero_of_sum (h : t.UnitAt columns) (heq : first.Equivalent t) {x : ℕ → ℚ}
    (hx : ∀ i < first.nrRows, ∑ l ∈ range first.nrRows, first.entry i (columns.getD l 0) * x l = 0) :
    ∀ l < first.nrRows, x l = 0 := by
  intro l hl
  rw [← heq.nrRows_eq] at hl
  let base := t.completion columns 0
  let z : ℕ → ℚ := fun j => if j ∈ columns then x (columns.idxOf j) else 0
  have hbase : t.Satisfies base := h.satisfies_completion 0
  have hsat : first.Satisfies fun j => base j + z j := by
    intro i hi
    have hz : ∑ j ∈ range first.nrColumns, first.entry i j * z j = 0 := by
      rw [← heq.nrColumns_eq, h.sum_columns, heq.nrRows_eq]
      exact hx i hi
    simp only [mul_add, Finset.sum_add_distrib, hz, add_zero]
    exact (heq.satisfies_iff base).mp hbase i hi
  have hrow := (h.satisfies_iff _).mp ((heq.satisfies_iff _).mpr hsat) l hl
  have hrow' := (h.satisfies_iff _).mp hbase l hl
  have hothers : ∑ j ∈ t.others columns, t.entry l j * (base j + z j) =
      ∑ j ∈ t.others columns, t.entry l j * base j := by
    refine Finset.sum_congr rfl fun j hj => ?_
    simp only [z, if_neg (mem_others.mp hj).2, add_zero]
  rw [hothers, ← hrow'] at hrow
  have hzero : z (columns.getD l 0) = 0 := by linarith
  simpa only [z, if_pos (h.getD_mem hl), h.idxOf_getD hl] using hzero

theorem Tableau.entry_basisMatrix (hlen : columns.length = first.nrRows) (hi : i < first.nrRows)
    (hk : k < first.nrRows) : (first.basisMatrix columns).entry i k = first.entry i (columns.getD k 0) := by
  have hk' : k < columns.length := by omega
  simp [basisMatrix, RowMatrix.submatrix, RowMatrix.entry, RowMatrix.row, hi, hk', entry]

theorem Tableau.UnitAt.regular_basisMatrix (h : t.UnitAt columns) (heq : first.Equivalent t) :
    (first.basisMatrix columns).Regular first.nrRows := by
  have hlen : columns.length = first.nrRows := h.length_eq.trans heq.nrRows_eq
  refine ⟨?_, ?_, hlen, fun x hx => h.eq_zero_of_sum heq fun i hi => ?_⟩
  · intro line hline
    obtain ⟨i, _, rfl⟩ := List.mem_map.mp hline
    exact List.length_map _
  · simp [basisMatrix, RowMatrix.submatrix, RowMatrix.nrRows]
  · have hrow := hx i hi
    rw [RowMatrix.rowDot, show (first.basisMatrix columns).nrColumns = first.nrRows from hlen] at hrow
    rw [← hrow]
    refine Finset.sum_congr rfl fun l hl => ?_
    rw [entry_basisMatrix hlen hi (Finset.mem_range.mp hl)]

theorem BasisInverse.ofColumns_of_regular (hlen : columns.length = first.nrRows)
    (hlt : ∀ j ∈ columns, j < first.nrColumns) (hmatrix : (first.basisMatrix columns).Regular first.nrRows) :
    ∃ b, ofColumns first columns 0 = .ok b ∧ b.columns = columns ∧ b.Inverts first := by
  obtain ⟨N, hN, hregular, hleft⟩ := hmatrix.invert
  refine ⟨⟨columns, N⟩, by rw [ofColumns, hN]; rfl, rfl, hlen, hlt, hregular, fun i hi l hl => ?_⟩
  rw [← hleft i hi l hl]
  refine RowMatrix.rowDot_congr (fun k hk => ?_) i
  rw [hregular.nrColumns_eq] at hk
  exact (Tableau.entry_basisMatrix hlen hk hl).symm

theorem BasisInverse.ofColumns_zero_of_ok {ε : ℚ} (hε : 0 ≤ ε) (h : ofColumns first columns ε = .ok b) :
    ofColumns first columns 0 = .ok b := by
  unfold ofColumns at h ⊢
  cases hinverse : (first.basisMatrix columns).invert ε with
  | error e =>
    rw [hinverse] at h
    cases h
  | ok N =>
    rw [hinverse] at h
    rw [RowMatrix.invert_zero_of_ok hε hinverse]
    exact h

theorem Tableau.UnitAt.ofColumns (h : t.UnitAt columns) (heq : first.Equivalent t) :
    ∃ b, BasisInverse.ofColumns first columns 0 = .ok b ∧ b.columns = columns ∧ b.Inverts first := by
  refine BasisInverse.ofColumns_of_regular (h.length_eq.trans heq.nrRows_eq) (fun j hj => ?_) (h.regular_basisMatrix heq)
  rw [← heq.nrColumns_eq]
  exact h.lt j hj

/-! ### Rows and costs of the tableau -/

/-- What a vector leaves of the right hand side of a row. -/
def Tableau.residual (t : Tableau ℚ) (x : ℕ → ℚ) (i : ℕ) : ℚ := ∑ j ∈ range t.nrColumns, t.entry i j * x j - t.rhs i

theorem Tableau.getD_column (t : Tableau ℚ) (hi : i < t.nrRows) (j : ℕ) : (t.column j).getD i 0 = t.entry i j := by
  simp [Tableau.column, hi]

theorem Tableau.dot_column (t : Tableau ℚ) (prices : List ℚ) (j : ℕ) :
    Scalar.dot prices (t.column j) = ∑ k ∈ range t.nrRows, prices.getD k 0 * t.entry k j := by
  have hlen : (t.column j).length = t.nrRows := by simp [column]
  rw [Scalar.dot_eq_sum_range _ _ t.nrRows (by rw [hlen]; exact min_le_right _ _)]
  exact Finset.sum_congr rfl fun k hk => by rw [t.getD_column (Finset.mem_range.mp hk)]

theorem Tableau.satisfies_iff_residual (t : Tableau ℚ) (x : ℕ → ℚ) :
    t.Satisfies x ↔ ∀ i < t.nrRows, t.residual x i = 0 :=
  forall₂_congr fun _ _ => sub_eq_zero.symm

namespace BasisInverse

theorem unitColumn_eq_self {rows : List (List ℚ)} {r : ℕ} (hlt : ∀ row ∈ rows, j < row.length)
    (hget : ∀ i < rows.length, (rows.getD i []).getD j 0 = if i = r then 1 else 0) :
    Tableau.unitColumn rows r j = rows := by
  rw [Tableau.unitColumn, List.mapIdx_eq_iff]
  intro i
  cases hrow : rows[i]? with
  | none => rfl
  | some row =>
    obtain ⟨hi, rfl⟩ := List.getElem?_eq_some_iff.mp hrow
    have hj := hlt _ (List.getElem_mem hi)
    have hvalue := hget i hi
    rw [List.getD_eq_getElem _ _ hi, List.getD_eq_getElem _ _ hj] at hvalue
    simp only [Option.map_some, beq_iff_eq, ← hvalue, List.set_getElem_self]

/-- The cost row before the basic columns are written as unit vectors. -/
def costLine (b : BasisInverse ℚ) (first : Tableau ℚ) (cost : List ℚ) : List ℚ :=
  ((List.range first.nrColumns).map fun j =>
    relativeCost (b.shadowPrices cost) (first.column j) (cost.getD j 0)) ++
    [Scalar.dot (b.shadowPrices cost) first.rhsValues]

/-- The constraint rows before the basic columns are written as unit vectors. -/
def constraintLines (b : BasisInverse ℚ) (first : Tableau ℚ) : List (List ℚ) :=
  (b.inverse.mul (RowMatrix.ofRows (first.matrix.rows.drop 1))).rows

namespace Inverts

variable (h : b.Inverts first)
include h

theorem getD_lt {l : ℕ} (hl : l < first.nrRows) : b.columns.getD l 0 < first.nrColumns :=
  h.lt _ (Tableau.getD_mem (by rw [h.length_eq]; exact hl))

theorem rowDot_congr {x y : ℕ → ℚ} (hxy : ∀ k < first.nrRows, x k = y k) (i : ℕ) :
    b.inverse.rowDot i x = b.inverse.rowDot i y :=
  RowMatrix.rowDot_congr (fun k hk => hxy k (by rwa [h.regular.nrColumns_eq] at hk)) i

theorem getD_shadowPrices (hk : k < first.nrRows) :
    (b.shadowPrices cost).getD k 0 =
      ∑ l ∈ range first.nrRows, cost.getD (b.columns.getD l 0) 0 * b.inverse.entry l k := by
  have hlen : (b.basicCosts cost).length = first.nrRows := by rw [basicCosts, List.length_map, h.length_eq]
  rw [shadowPrices, RowMatrix.vecMul, h.regular.nrColumns_eq]
  rw [List.getD_eq_getElem _ _ (by simpa using hk), List.getElem_map, List.getElem_range,
    Scalar.dot_eq_sum_range _ _ first.nrRows (by rw [hlen]; exact min_le_left _ _)]
  refine Finset.sum_congr rfl fun l hl => ?_
  have hl' : l < b.columns.length := by rw [h.length_eq]; exact Finset.mem_range.mp hl
  rw [RowMatrix.getD_column]
  simp [basicCosts, hl']

/-- Prices times a column are the basic costs times the transformed column. -/
theorem dot_shadowPrices (values : List ℚ) (hlen : values.length = first.nrRows) :
    Scalar.dot (b.shadowPrices cost) values =
      ∑ l ∈ range first.nrRows, cost.getD (b.columns.getD l 0) 0 * b.inverse.rowDot l (values.getD · 0) := by
  rw [Scalar.dot_eq_sum_range _ _ first.nrRows (by rw [hlen]; exact min_le_right _ _)]
  unfold RowMatrix.rowDot
  simp only [h.regular.nrColumns_eq, Finset.mul_sum]
  rw [Finset.sum_comm]
  refine Finset.sum_congr rfl fun k hk => ?_
  rw [h.getD_shadowPrices (Finset.mem_range.mp hk), Finset.sum_mul]
  refine Finset.sum_congr rfl fun l _ => ?_
  ring

theorem length_constraintLines : (b.constraintLines first).length = first.nrRows := by
  have hlen : b.inverse.rows.length = first.nrRows := h.regular.nrRows_eq
  rw [constraintLines, RowMatrix.mul, List.length_map, hlen]

omit h in
theorem getD_costLine_eq (hj : j < first.nrColumns) :
    (b.costLine first cost).getD j 0 =
      relativeCost (b.shadowPrices cost) (first.column j) (cost.getD j 0) := by
  rw [costLine, List.getD_append _ _ _ _ (by simpa using hj), List.getD_eq_getElem _ _ (by simpa using hj),
    List.getElem_map, List.getElem_range]

theorem getD_costLine (hj : j < first.nrColumns) :
    (b.costLine first cost).getD j 0 =
      ∑ l ∈ range first.nrRows, cost.getD (b.columns.getD l 0) 0 * b.inverse.rowDot l (first.entry · j) -
        cost.getD j 0 := by
  rw [getD_costLine_eq hj, relativeCost, h.dot_shadowPrices _ (by simp [Tableau.column])]
  refine congrArg (· - cost.getD j 0) (Finset.sum_congr rfl fun l _ => ?_)
  rw [h.rowDot_congr fun k hk => first.getD_column hk j]

theorem dot_shadowPrices_rhsValues :
    Scalar.dot (b.shadowPrices cost) first.rhsValues =
      ∑ l ∈ range first.nrRows, cost.getD (b.columns.getD l 0) 0 * b.inverse.rowDot l first.rhs := by
  have hrhs : ∀ k < first.nrRows, first.rhsValues.getD k 0 = first.rhs k := by
    intro k hk
    simp [Tableau.rhsValues, hk]
  rw [h.dot_shadowPrices _ (by simp [Tableau.rhsValues])]
  refine Finset.sum_congr rfl fun l _ => ?_
  rw [h.rowDot_congr hrhs]

theorem getD_costLine_last :
    (b.costLine first cost).getD first.nrColumns 0 =
      ∑ l ∈ range first.nrRows, cost.getD (b.columns.getD l 0) 0 * b.inverse.rowDot l first.rhs := by
  rw [costLine, List.getD_append_right _ _ _ _ (by simp), List.length_map, List.length_range, Nat.sub_self]
  exact h.dot_shadowPrices_rhsValues

variable (hwf : first.WellFormed)
include hwf

theorem getD_constraintLines (hi : i < first.nrRows) :
    (b.constraintLines first).getD i [] =
      (List.range (first.nrColumns + 1)).map fun j => b.inverse.rowDot i fun k => first.matrix.entry (k + 1) j := by
  have hrows : first.matrix.rows.length = first.nrRows + 1 := hwf.nrRows_matrix
  have hi' : i < b.inverse.rows.length := by
    rw [show b.inverse.rows.length = first.nrRows from h.regular.nrRows_eq]
    exact hi
  have hdrop : (first.matrix.rows.drop 1).length = first.nrRows := by rw [List.length_drop, hrows, Nat.add_sub_cancel]
  -- there is a constraint row, which gives the width of the constraint part
  have hwidth : (RowMatrix.ofRows (first.matrix.rows.drop 1)).nrColumns = first.nrColumns + 1 := by
    have hpos : 0 < (first.matrix.rows.drop 1).length := by omega
    obtain ⟨line, rest, hlines⟩ := List.exists_cons_of_length_pos hpos
    have hmem : line ∈ first.matrix.rows := List.mem_of_mem_drop (by rw [hlines]; exact List.mem_cons_self ..)
    rw [RowMatrix.ofRows, hlines, ← hwf.nrColumns_matrix]
    exact hwf.rectangular line hmem
  have hentry : ∀ k j, (RowMatrix.ofRows (first.matrix.rows.drop 1)).entry k j = first.matrix.entry (k + 1) j := by
    intro k j
    simp only [RowMatrix.entry, RowMatrix.row, RowMatrix.ofRows, List.getD_eq_getElem?_getD, List.getElem?_drop,
      Nat.add_comm 1]
  rw [constraintLines, RowMatrix.mul, List.getD_eq_getElem _ _ (by rw [List.length_map]; exact hi'),
    List.getElem_map, RowMatrix.vecMul, hwidth]
  refine List.map_congr_left fun j _ => ?_
  have hrow : b.inverse.rows[i] = b.inverse.row i := by rw [RowMatrix.row, List.getD_eq_getElem _ _ hi']
  rw [hrow, Scalar.dot_eq_sum_range _ _ first.nrRows, RowMatrix.rowDot, h.regular.nrColumns_eq]
  · refine Finset.sum_congr rfl fun k _ => ?_
    rw [RowMatrix.getD_column, hentry]
    rfl
  · rw [RowMatrix.length_row h.regular.rectangular (by rw [h.regular.nrRows_eq]; exact hi), h.regular.nrColumns_eq]
    exact min_le_left _ _

theorem getD_getD_constraintLines (hi : i < first.nrRows) (hj : j < first.nrColumns + 1) :
    ((b.constraintLines first).getD i []).getD j 0 = b.inverse.rowDot i fun k => first.matrix.entry (k + 1) j := by
  rw [h.getD_constraintLines hwf hi, List.getD_eq_getElem _ _ (by simpa using hj), List.getElem_map,
    List.getElem_range]

theorem length_of_mem_lines {line : List ℚ} (hline : line ∈ b.costLine first cost :: b.constraintLines first) :
    line.length = first.nrColumns + 1 := by
  rcases List.mem_cons.mp hline with rfl | hline
  · simp [costLine]
  · obtain ⟨i, hi, rfl⟩ := List.mem_iff_getElem.mp hline
    have hi' : i < first.nrRows := by rw [← h.length_constraintLines]; exact hi
    rw [← List.getD_eq_getElem _ [] hi, h.getD_constraintLines hwf hi', List.length_map, List.length_range]

/-- The basic columns are unit vectors, also before they are written as such. -/
theorem getD_lines_columns {l : ℕ} (hl : l < first.nrRows) (hi : i < first.nrRows + 1) :
    ((b.costLine first cost :: b.constraintLines first).getD i []).getD (b.columns.getD l 0) 0 =
      if i = l + 1 then 1 else 0 := by
  have hlt := h.getD_lt hl
  cases i with
  | zero =>
    rw [if_neg (by omega), List.getD_cons_zero, h.getD_costLine hlt]
    have hsum : ∑ k ∈ range first.nrRows, cost.getD (b.columns.getD k 0) 0 *
        b.inverse.rowDot k (first.entry · (b.columns.getD l 0)) = cost.getD (b.columns.getD l 0) 0 := by
      rw [Finset.sum_eq_single_of_mem l (Finset.mem_range.mpr hl), h.left_inv l hl l hl, if_pos rfl, mul_one]
      intro k hk hkl
      rw [h.left_inv k (Finset.mem_range.mp hk) l hl, if_neg hkl, mul_zero]
    rw [hsum, sub_self]
  | succ i =>
    rw [List.getD_cons_succ, h.getD_getD_constraintLines hwf (by omega) (by omega)]
    have hleft := h.left_inv i (by omega) l hl
    simp only [Nat.add_right_cancel_iff]
    exact hleft

theorem tableau_eq (cost : List ℚ) :
    b.tableau first cost =
      Tableau.ofMatrix (RowMatrix.ofRows (b.costLine first cost :: b.constraintLines first)) b.columns := by
  have hfold : b.columns.zipIdx.foldl (fun rows p => Tableau.unitColumn rows (p.2 + 1) p.1)
      (b.costLine first cost :: b.constraintLines first) = b.costLine first cost :: b.constraintLines first := by
    refine List.foldlRecOn (motive := (· = b.costLine first cost :: b.constraintLines first)) _ _ rfl ?_
    intro rows hrows p hp
    have hcol := List.mem_zipIdx_iff_getElem?.mp hp
    have hl : p.2 < first.nrRows := by
      rw [← h.length_eq]
      exact (List.getElem?_eq_some_iff.mp hcol).1
    have hcol' : b.columns.getD p.2 0 = p.1 := by rw [List.getD_eq_getElem?_getD, hcol, Option.getD_some]
    have hlt : p.1 < first.nrColumns := h.lt _ (List.mem_of_getElem? hcol)
    rw [hrows]
    refine unitColumn_eq_self (fun row hrow => ?_) fun i hi => ?_
    · rw [h.length_of_mem_lines hwf hrow]
      omega
    · rw [← hcol']
      refine h.getD_lines_columns hwf hl ?_
      rwa [List.length_cons, h.length_constraintLines] at hi
  exact congrArg (fun rows => Tableau.ofMatrix (RowMatrix.ofRows rows) b.columns) hfold

theorem nrRows_tableau : (b.tableau first cost).nrRows = first.nrRows := by
  rw [h.tableau_eq hwf]
  exact h.length_constraintLines

theorem nrColumns_tableau : (b.tableau first cost).nrColumns = first.nrColumns := by
  rw [h.tableau_eq hwf]
  show (b.costLine first cost).length - 1 = first.nrColumns
  rw [h.length_of_mem_lines hwf (List.mem_cons_self ..), Nat.add_sub_cancel]

theorem matrix_entry_tableau (i j : ℕ) :
    (b.tableau first cost).matrix.entry i j =
      ((b.costLine first cost :: b.constraintLines first).getD i []).getD j 0 := by
  rw [h.tableau_eq hwf]
  rfl

theorem entry_tableau (hi : i < first.nrRows) (hj : j < first.nrColumns) :
    (b.tableau first cost).entry i j = b.inverse.rowDot i (first.entry · j) := by
  rw [Tableau.entry, h.matrix_entry_tableau hwf, List.getD_cons_succ,
    h.getD_getD_constraintLines hwf hi (by omega)]
  rfl

theorem rhs_tableau (hi : i < first.nrRows) : (b.tableau first cost).rhs i = b.inverse.rowDot i first.rhs := by
  rw [Tableau.rhs, h.nrColumns_tableau hwf, h.matrix_entry_tableau hwf, List.getD_cons_succ,
    h.getD_getD_constraintLines hwf hi (by omega)]
  rfl

theorem relativeCost_tableau (hj : j < first.nrColumns) :
    (b.tableau first cost).relativeCost j =
      ∑ l ∈ range first.nrRows, cost.getD (b.columns.getD l 0) 0 * (b.tableau first cost).entry l j -
        cost.getD j 0 := by
  rw [Tableau.relativeCost, h.matrix_entry_tableau hwf, List.getD_cons_zero, h.getD_costLine hj]
  refine congrArg (· - cost.getD j 0) (Finset.sum_congr rfl fun l hl => ?_)
  rw [h.entry_tableau hwf (Finset.mem_range.mp hl) hj]

theorem objectiveValue_tableau :
    (b.tableau first cost).objectiveValue =
      ∑ l ∈ range first.nrRows, cost.getD (b.columns.getD l 0) 0 * (b.tableau first cost).rhs l := by
  rw [Tableau.objectiveValue, h.nrColumns_tableau hwf, h.matrix_entry_tableau hwf, List.getD_cons_zero,
    h.getD_costLine_last]
  refine Finset.sum_congr rfl fun l hl => ?_
  rw [h.rhs_tableau hwf (Finset.mem_range.mp hl)]

theorem unitAt_tableau : (b.tableau first cost).UnitAt b.columns := by
  refine ⟨h.length_eq.trans (h.nrRows_tableau hwf).symm, fun j hj => ?_, fun i hi k hk => ?_, fun i hi => ?_⟩
  · rw [h.nrColumns_tableau hwf]
    exact h.lt j hj
  · rw [h.nrRows_tableau hwf] at hi hk
    rw [Tableau.entry, h.matrix_entry_tableau hwf, h.getD_lines_columns hwf hi (by omega)]
    simp only [Nat.add_right_cancel_iff]
  · rw [h.nrRows_tableau hwf] at hi
    rw [Tableau.relativeCost, h.matrix_entry_tableau hwf, h.getD_lines_columns hwf hi (by omega), if_neg (by omega)]

theorem atBasis_tableau : (b.tableau first cost).AtBasis := by
  have hunit : (b.tableau first cost).UnitAt b.columns := h.unitAt_tableau hwf
  have hbasis : (b.tableau first cost).basis = b.columns := by rw [h.tableau_eq hwf]; rfl
  refine ⟨?_, hbasis.symm ▸ hunit⟩
  have hrows : (b.tableau first cost).nrRows = first.nrRows := h.nrRows_tableau hwf
  have hcolumns : (b.tableau first cost).nrColumns = first.nrColumns := h.nrColumns_tableau hwf
  rw [h.tableau_eq hwf] at hrows hcolumns hunit ⊢
  refine Tableau.wellFormed_ofMatrix (fun line hline => ?_) (Nat.succ_pos _) ?_ hunit.length_eq hunit.nodup hunit.lt
  · rw [h.length_of_mem_lines hwf hline]
    exact (h.length_of_mem_lines hwf (List.mem_cons_self ..)).symm
  · show 0 < (b.costLine first cost).length
    rw [h.length_of_mem_lines hwf (List.mem_cons_self ..)]
    omega

theorem residual_tableau (hi : i < first.nrRows) (x : ℕ → ℚ) :
    (b.tableau first cost).residual x i = b.inverse.rowDot i (first.residual x) := by
  have hsum : ∑ j ∈ range first.nrColumns, (b.tableau first cost).entry i j * x j =
      b.inverse.rowDot i fun k => ∑ j ∈ range first.nrColumns, first.entry k j * x j := by
    unfold RowMatrix.rowDot
    simp only [Finset.mul_sum]
    rw [Finset.sum_comm]
    refine Finset.sum_congr rfl fun j hj => ?_
    rw [h.entry_tableau hwf hi (Finset.mem_range.mp hj), RowMatrix.rowDot, Finset.sum_mul]
    exact Finset.sum_congr rfl fun k _ => mul_assoc _ _ _
  rw [Tableau.residual, h.nrColumns_tableau hwf, hsum, h.rhs_tableau hwf hi]
  unfold RowMatrix.rowDot
  rw [← Finset.sum_sub_distrib]
  exact Finset.sum_congr rfl fun k _ => (mul_sub _ _ _).symm

theorem satisfies_tableau_iff (x : ℕ → ℚ) : (b.tableau first cost).Satisfies x ↔ first.Satisfies x := by
  rw [Tableau.satisfies_iff_residual, Tableau.satisfies_iff_residual, h.nrRows_tableau hwf]
  constructor
  · intro hx k hk
    refine h.regular.eq_zero (first.residual x) (fun i hi => ?_) k hk
    rw [← h.residual_tableau hwf hi, hx i hi]
  · intro hx i hi
    rw [h.residual_tableau hwf hi]
    refine Finset.sum_eq_zero fun k hk => ?_
    rw [Finset.mem_range, h.regular.nrColumns_eq] at hk
    rw [hx k hk, mul_zero]

theorem objectiveAt_tableau {x : ℕ → ℚ} (hx : first.Satisfies x) :
    (b.tableau first cost).objectiveAt x = ∑ j ∈ range first.nrColumns, cost.getD j 0 * x j := by
  have hrow : (b.tableau first cost).Satisfies x := (h.satisfies_tableau_iff hwf x).mpr hx
  unfold Tableau.Satisfies at hrow
  rw [h.nrRows_tableau hwf, h.nrColumns_tableau hwf] at hrow
  have hcosts : ∑ j ∈ range first.nrColumns, (b.tableau first cost).relativeCost j * x j =
      ∑ l ∈ range first.nrRows, cost.getD (b.columns.getD l 0) 0 * (b.tableau first cost).rhs l -
        ∑ j ∈ range first.nrColumns, cost.getD j 0 * x j := by
    calc ∑ j ∈ range first.nrColumns, (b.tableau first cost).relativeCost j * x j
        = ∑ j ∈ range first.nrColumns, ∑ l ∈ range first.nrRows,
            cost.getD (b.columns.getD l 0) 0 * ((b.tableau first cost).entry l j * x j) -
            ∑ j ∈ range first.nrColumns, cost.getD j 0 * x j := by
          rw [← Finset.sum_sub_distrib]
          refine Finset.sum_congr rfl fun j hj => ?_
          rw [h.relativeCost_tableau hwf (Finset.mem_range.mp hj), sub_mul, Finset.sum_mul]
          exact congrArg (· - _) (Finset.sum_congr rfl fun l _ => mul_assoc _ _ _)
      _ = _ := by
          rw [Finset.sum_comm]
          refine congrArg (· - _) (Finset.sum_congr rfl fun l hl => ?_)
          rw [← Finset.mul_sum, hrow l (Finset.mem_range.mp hl)]
  rw [Tableau.objectiveAt, h.nrColumns_tableau hwf, h.objectiveValue_tableau hwf, hcosts]
  ring

/-- The tableau that is computed from the first one is that of the basis. -/
theorem rewrites_tableau (hcost : ∀ j < first.nrColumns, cost.getD j 0 = -first.relativeCost j)
    (hzero : first.objectiveValue = 0) : first.Rewrites (b.tableau first cost) := by
  refine ⟨h.atBasis_tableau hwf, h.nrRows_tableau hwf, h.nrColumns_tableau hwf, h.satisfies_tableau_iff hwf,
    fun x hx => ?_⟩
  rw [h.objectiveAt_tableau hwf hx, Tableau.objectiveAt, hzero, zero_sub, ← Finset.sum_neg_distrib]
  refine Finset.sum_congr rfl fun j hj => ?_
  rw [hcost j (Finset.mem_range.mp hj), neg_mul]

theorem tableau_eq_of_rewrites (hcost : ∀ j < first.nrColumns, cost.getD j 0 = -first.relativeCost j)
    (hzero : first.objectiveValue = 0) (hrew : first.Rewrites t) (hcolumns : b.columns = t.basis) :
    b.tableau first cost = t := by
  have hrebuilt : first.Rewrites (b.tableau first cost) := h.rewrites_tableau hwf hcost hzero
  have hbasis : (b.tableau first cost).basis = t.basis := by
    rw [← hcolumns, h.tableau_eq hwf]
    rfl
  exact hrew.atBasis.eq_of_equivalent hrebuilt.atBasis (hrew.equivalent.symm.trans hrebuilt.equivalent) hbasis

end Inverts

end BasisInverse

end LinearProgramming
