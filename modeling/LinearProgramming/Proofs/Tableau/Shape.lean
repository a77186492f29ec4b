import LinearProgramming.Proofs.BasisInverse.Inverts
import LinearProgramming.Proofs.Simplex.Trail
import LinearProgramming.Proofs.Tableau.Reduce

/-! # Shapes of tableaus and of bases

A tableau of `m` constraint rows and `n` columns has a matrix, a basis and a mask of the sizes that belong to these
numbers, and all its basic columns are among the `n`. `Tableau.HasShape` says no more than that: basic columns may occur
twice and need not be unit vectors, since with any scalars nothing better can be said of a tableau that is rebuilt from
a basis. A simplex run keeps the shape because it is a path of pivots inside the tableau. The same goes for a basis with
its inverse (`BasisInverse.HasShape`). -/

namespace LinearProgramming

variable {α : Type} {m n : ℕ}

/-! ### Tableaus -/

/-- The parts of the tableau have the sizes of one with `m` constraint rows and `n` columns. -/
structure Tableau.HasShape (t : Tableau α) (m n : ℕ) : Prop where
  matrix : t.matrix.HasShape (m + 1) (n + 1)
  length_basis : t.basis.length = m
  basis_lt : ∀ j ∈ t.basis, j < n
  length_mask : t.basicMask.length = n

namespace Tableau

theorem hasShape_ofMatrix {M : RowMatrix α} {basis : List ℕ} (hM : M.HasShape (m + 1) (n + 1))
    (hlen : basis.length = m) (hlt : ∀ j ∈ basis, j < n) : (ofMatrix M basis).HasShape m n := by
  refine ⟨hM, hlen, hlt, ?_⟩
  rw [ofMatrix, List.length_map, List.length_range, hM.nrColumns_eq, Nat.add_sub_cancel]

namespace HasShape

variable {t u : Tableau α} {row column i j : ℕ}

theorem nrRows_eq (h : t.HasShape m n) : t.nrRows = m := by
  rw [nrRows, h.matrix.nrRows_eq, Nat.add_sub_cancel]

theorem nrColumns_eq (h : t.HasShape m n) : t.nrColumns = n := by
  rw [nrColumns, h.matrix.nrColumns_eq, Nat.add_sub_cancel]

/-! ### Entries and columns -/

theorem withMatrix (h : t.HasShape m n) {M : RowMatrix α} (hM : M.HasShape (m + 1) (n + 1)) :
    ({ t with matrix := M } : Tableau α).HasShape m n := ⟨hM, h.length_basis, h.basis_lt, h.length_mask⟩

theorem setEntry (h : t.HasShape m n) (i j : ℕ) (v : α) : (t.setEntry i j v).HasShape m n :=
  h.withMatrix (h.matrix.setEntry _ _ v)

theorem setRelativeCost (h : t.HasShape m n) (j : ℕ) (v : α) : (t.setRelativeCost j v).HasShape m n :=
  h.withMatrix (h.matrix.setEntry _ _ v)

theorem setRhs (h : t.HasShape m n) (i : ℕ) (v : α) : (t.setRhs i v).HasShape m n :=
  h.withMatrix (h.matrix.setEntry _ _ v)

theorem addColumn (h : t.HasShape m n) {values : List α} (hlen : values.length = m + 1) :
    (t.addColumn values).HasShape m (n + 1) := by
  refine ⟨h.matrix.insertColumn ?_ hlen, h.length_basis, fun j hj => (h.basis_lt j hj).trans (Nat.lt_succ_self n), ?_⟩
  · rw [h.nrColumns_eq]
    exact Nat.le_succ n
  · rw [Tableau.addColumn, List.length_append, h.length_mask, List.length_singleton]

variable [Scalar α]

/-! ### Pivots -/

theorem pivot (h : t.HasShape m n) (hrow : row < m) (hcolumn : column < n) : (t.pivot column row).HasShape m n := by
  have hreduced := h.matrix.eliminate (Nat.succ_lt_succ hrow) (t.matrix.column column)
  refine ⟨⟨?_, hreduced.nrColumns_eq, RowMatrix.length_of_mem_unitColumn hreduced.rectangular⟩, ?_, fun j hj => ?_, ?_⟩
  · rw [← hreduced.nrRows_eq]
    exact List.length_mapIdx
  · exact List.length_set.trans h.length_basis
  · rcases List.mem_or_eq_of_mem_set hj with hj | rfl
    · exact h.basis_lt j hj
    · exact hcolumn
  · rw [Tableau.pivot, List.length_set, List.length_set, h.length_mask]

theorem of_pivotPath {kind : ℕ → ℕ → Event α} {records : List (Record α)} (h : t.HasShape m n)
    (hpath : PivotPath kind t records u) : u.HasShape m n := by
  induction hpath with
  | done t => exact h
  | pivot hrow hcolumn _ ih =>
    rw [h.nrRows_eq] at hrow
    rw [h.nrColumns_eq] at hcolumn
    exact ih (h.pivot hrow hcolumn)

/-- A solve ends with a tableau of the same shape, also if it fails. -/
theorem solve (h : t.HasShape m n) (s : Session α) : (t.solve s).tableau.HasShape m n := by
  obtain ⟨records, ⟨dualRecords, primalRecords, feasible, -, hdual, hprimal⟩, -⟩ := t.exists_path_solve s
  exact (h.of_pivotPath hdual).of_pivotPath hprimal

/-! ### Constraints -/

theorem addInequality (h : t.HasShape m n) {coefficients : List α} (hlen : coefficients.length ≤ n) (sign rhs : α) :
    (t.addInequality coefficients sign rhs).HasShape (m + 1) (n + 1) := by
  have hwidened : (t.matrix.insertColumn t.nrColumns (List.replicate t.matrix.nrRows 0)).HasShape (m + 1) (n + 2) := by
    refine h.matrix.insertColumn ?_ ?_
    · rw [h.nrColumns_eq]
      exact Nat.le_succ n
    · rw [List.length_replicate, h.matrix.nrRows_eq]
  refine ⟨hwidened.pushRow ?_, ?_, fun j hj => ?_, ?_⟩
  · refine length_foldl_clearBasic (fun p hp => ?_) ?_
    · have hmem := List.mem_of_mem_drop (List.of_mem_zip hp).2
      exact (hwidened.rectangular p.2 hmem).trans hwidened.nrColumns_eq
    · simp only [List.length_append, List.length_map, List.length_replicate, List.length_cons, List.length_nil,
        h.nrColumns_eq]
      omega
  · rw [Tableau.addInequality, List.length_append, h.length_basis, List.length_singleton]
  · rw [Tableau.addInequality, h.nrColumns_eq, List.mem_append, List.mem_singleton] at hj
    rcases hj with hj | rfl
    · exact (h.basis_lt j hj).trans (Nat.lt_succ_self n)
    · exact Nat.lt_succ_self j
  · rw [Tableau.addInequality, List.length_append, h.length_mask, List.length_singleton]

/-- Each half of a constraint adds a row and a column. -/
theorem addConstraint (h : t.HasShape m n) {coefficients : List α} (hlen : coefficients.length ≤ n)
    (relation : Relation) (rhs : α) : (t.addConstraint coefficients relation rhs).HasShape
      (m + relation.halves.length) (n + relation.halves.length) := by
  unfold Tableau.addConstraint
  generalize relation.halves = halves
  induction halves generalizing t m n with
  | nil => exact h
  | cons half rest ih =>
    rw [List.foldl_cons, List.length_cons, Nat.add_comm rest.length 1, ← Nat.add_assoc, ← Nat.add_assoc]
    exact ih (h.addInequality hlen _ rhs) (hlen.trans (Nat.le_succ n))

end HasShape

end Tableau

/-! ### Bases -/

/-- The parts of the basis have the sizes for a tableau with `m` constraint rows and `n` columns. -/
structure BasisInverse.HasShape (b : BasisInverse α) (m n : ℕ) : Prop where
  length_columns : b.columns.length = m
  columns_lt : ∀ j ∈ b.columns, j < n
  inverse : b.inverse.HasShape m m

section Bases

variable [Scalar α] {t first : Tableau α} {b : BasisInverse α} {columns : List ℕ} {ε : α}

theorem Tableau.HasShape.findBasis (h : t.HasShape m n) (hok : t.findBasis ε = .ok columns) :
    columns.length = m ∧ ∀ j ∈ columns, j < n := by
  have hall := forall₂_of_mapM_eq_ok hok
  have hlen : columns.length = m := by rw [← hall.length_eq, List.length_range, h.nrRows_eq]
  refine ⟨hlen, fun j hj => ?_⟩
  obtain ⟨i, hi, rfl⟩ := List.mem_iff_getElem.mp hj
  have hfound := hall.get (by rw [hall.length_eq]; exact hi) hi
  rw [List.get_eq_getElem, List.get_eq_getElem] at hfound
  split at hfound
  · next hfind =>
    rw [← Except.ok.inj hfound, ← h.nrColumns_eq]
    exact List.mem_range.mp (List.mem_of_find?_eq_some hfind)
  · cases hfound

namespace BasisInverse

theorem hasShape_ofColumns (hfirst : first.HasShape m n) (hlen : columns.length = m) (hlt : ∀ j ∈ columns, j < n)
    (hok : ofColumns first columns ε = .ok b) : b.HasShape m n := by
  unfold ofColumns at hok
  have hmatrix : (first.basisMatrix columns).HasShape m m := by
    have hrows : ((List.range first.nrRows).map (· + 1)).length = m := by
      rw [List.length_map, List.length_range, hfirst.nrRows_eq]
    have h := RowMatrix.hasShape_submatrix first.matrix ((List.range first.nrRows).map (· + 1)) columns
    rw [hrows, hlen] at h
    exact h
  cases hinvert : (first.basisMatrix columns).invert ε with
  | error e =>
    rw [hinvert] at hok
    cases hok
  | ok inverse =>
    rw [hinvert] at hok
    obtain rfl := Except.ok.inj hok
    exact ⟨hlen, hlt, hmatrix.invert hinvert⟩

theorem hasShape_ofTableau {unitε : α} (h : t.HasShape m n) (hfirst : first.HasShape m n)
    (hok : ofTableau t first unitε ε = .ok b) : b.HasShape m n := by
  unfold ofTableau at hok
  cases hfind : t.findBasis unitε with
  | error e =>
    rw [hfind] at hok
    cases hok
  | ok columns =>
    rw [hfind] at hok
    obtain ⟨hlen, hlt⟩ := h.findBasis hfind
    exact hasShape_ofColumns hfirst hlen hlt hok

namespace HasShape

omit [Scalar α] in
theorem mono (h : b.HasShape m n) {k : ℕ} (hk : n ≤ k) : b.HasShape m k :=
  ⟨h.length_columns, fun j hj => (h.columns_lt j hj).trans_le hk, h.inverse⟩

theorem length_transform (h : b.HasShape m n) (values : List α) : (b.transform values).length = m := by
  rw [BasisInverse.transform, RowMatrix.mulVec, List.length_map]
  exact h.inverse.nrRows_eq

/-- The constraint rows of the tableau that is built from a basis. -/
theorem transformed (h : b.HasShape m n) (hfirst : first.HasShape m n) :
    (b.inverse.mul (RowMatrix.ofRows (first.matrix.rows.drop 1))).rows.length = m ∧
      ∀ line ∈ (b.inverse.mul (RowMatrix.ofRows (first.matrix.rows.drop 1))).rows, line.length = n + 1 := by
  have hmul := RowMatrix.hasShape_mul b.inverse (RowMatrix.ofRows (first.matrix.rows.drop 1))
  have hrows : (b.inverse.mul (RowMatrix.ofRows (first.matrix.rows.drop 1))).rows.length = m :=
    hmul.nrRows_eq.trans h.inverse.nrRows_eq
  refine ⟨hrows, fun line hline => ?_⟩
  have hlength : (first.matrix.rows.drop 1).length = m := by
    have hfirstRows : first.matrix.rows.length = m + 1 := hfirst.matrix.nrRows_eq
    rw [List.length_drop, hfirstRows, Nat.add_sub_cancel]
  -- there is a row, so the width is that of the first row
  have hpos : 0 < m := by
    rw [← hrows]
    exact List.length_pos_of_mem hline
  obtain ⟨k, rfl⟩ := Nat.exists_eq_succ_of_ne_zero hpos.ne'
  have hshape := RowMatrix.hasShape_ofRows hlength fun row hrow =>
    (hfirst.matrix.rectangular row (List.mem_of_mem_drop hrow)).trans hfirst.matrix.nrColumns_eq
  rw [hmul.rectangular line hline, hmul.nrColumns_eq, hshape.nrColumns_eq]

theorem tableau (h : b.HasShape m n) (hfirst : first.HasShape m n) (cost : List α) :
    (b.tableau first cost).HasShape m n := by
  obtain ⟨hrows, hlines⟩ := h.transformed hfirst
  unfold BasisInverse.tableau
  refine Tableau.hasShape_ofMatrix ?_ h.length_columns h.columns_lt
  refine List.foldlRecOn (motive := fun rows : List (List α) => (RowMatrix.ofRows rows).HasShape (m + 1) (n + 1)) _ _
    ?_ fun rows hshape p _ => ?_
  · refine RowMatrix.hasShape_ofRows (congrArg (· + 1) hrows) fun line hline => ?_
    rcases List.mem_cons.mp hline with rfl | hline
    · rw [List.length_append, List.length_map, List.length_range, hfirst.nrColumns_eq, List.length_singleton]
    · exact hlines line hline
  · refine RowMatrix.hasShape_ofRows (List.length_mapIdx.trans hshape.nrRows_eq) ?_
    exact RowMatrix.length_of_mem_unitColumn fun line hline =>
      (hshape.rectangular line hline).trans hshape.nrColumns_eq

end HasShape

end BasisInverse

end Bases

end LinearProgramming
