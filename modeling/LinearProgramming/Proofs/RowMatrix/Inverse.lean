import Mathlib.Logic.Equiv.Basic
import LinearProgramming.Proofs.RowMatrix.Elimination

/-! # Inversion in exact arithmetic

`RowMatrix.invert` applies the same row operations to the matrix and to the identity. Each keeps the product of the
partial inverse with the matrix, and one column after the other becomes a unit vector (`Reduces`). So what is found with
pivots that are not zero is an inverse (`reduces_invert`). No operation adds a vector to a kernel (`Regular`). If the
matrix itself has a trivial kernel, the pivots are not zero, and an inverse is found (`Regular.invert`). -/

namespace LinearProgramming.RowMatrix

open Finset

variable {M : RowMatrix ℚ} {i j k n p r : ℕ}

/-- A square matrix that maps only zero to zero. -/
structure Regular (M : RowMatrix ℚ) (n : ℕ) : Prop where
  rectangular : M.IsRectangular
  nrRows_eq : M.nrRows = n
  nrColumns_eq : M.nrColumns = n
  eq_zero : ∀ x : ℕ → ℚ, (∀ i < n, M.rowDot i x = 0) → ∀ j < n, x j = 0

theorem Regular.hasShape (h : M.Regular n) : M.HasShape n n := ⟨h.nrRows_eq, h.nrColumns_eq, h.rectangular⟩

/-! ### The identity -/

theorem entry_identity (hi : i < n) (j : ℕ) : (identity n : RowMatrix ℚ).entry i j = if j = i then 1 else 0 := by
  have hrow : (identity n : RowMatrix ℚ).row i = unitVector n i := by
    simp [identity, row, List.getD_eq_getElem?_getD, List.getElem?_range hi]
  rw [entry, hrow, getD_unitVector hi]

theorem rowDot_identity (hi : i < n) (x : ℕ → ℚ) : (identity n : RowMatrix ℚ).rowDot i x = x i := by
  show ∑ j ∈ range n, (identity n : RowMatrix ℚ).entry i j * x j = x i
  simp only [entry_identity hi, ite_mul, one_mul, zero_mul]
  rw [Finset.sum_ite_eq' (range n) i, if_pos (Finset.mem_range.mpr hi)]

theorem regular_identity (n : ℕ) : (identity n : RowMatrix ℚ).Regular n where
  rectangular := (hasShape_identity n).rectangular
  nrRows_eq := (hasShape_identity n).nrRows_eq
  nrColumns_eq := rfl
  eq_zero x hx j hj := by rw [← hx j hj, rowDot_identity hj]

/-! ### Row operations -/

theorem row_swapRows (hp : p < M.nrRows) (hk : k < M.nrRows) (i : ℕ) :
    (M.swapRows p k).row i = M.row (Equiv.swap p k i) := by
  have hp' : p < M.rows.length := hp
  have hk' : k < (M.rows.set p (M.row k)).length := by
    rw [List.length_set]
    exact hk
  show ((M.rows.set p (M.row k)).set k (M.row p)).getD i [] = _
  rw [getD_set _ hk', getD_set _ hp', Equiv.swap_apply_def]
  split_ifs with h1 h2
  · rw [← h2, h1]
  · rfl
  · rfl
  · rfl

theorem swap_lt (hp : p < n) (hk : k < n) (hi : i < n) : Equiv.swap p k i < n := by
  rw [Equiv.swap_apply_def]
  split_ifs
  · exact hk
  · exact hp
  · exact hi

theorem Regular.swapRows (h : M.Regular n) (hp : p < n) (hk : k < n) : (M.swapRows p k).Regular n := by
  have hp' : p < M.nrRows := h.nrRows_eq.symm ▸ hp
  have hk' : k < M.nrRows := h.nrRows_eq.symm ▸ hk
  have hrow := row_swapRows hp' hk'
  refine ⟨isRectangular_swapRows h.rectangular hp' hk', (nrRows_swapRows M p k).trans h.nrRows_eq, h.nrColumns_eq,
    fun x hx => h.eq_zero x fun i hi => ?_⟩
  have hzero := hx (Equiv.swap p k i) (swap_lt hp hk hi)
  simp only [rowDot, entry, hrow, Equiv.swap_apply_self] at hzero
  exact hzero

theorem Regular.eliminate (h : M.Regular n) (hr : r < n) {values : List ℚ} (hpivot : values.getD r 0 ≠ 0) :
    (M.eliminate r values).Regular n := by
  have hr' : r < M.nrRows := h.nrRows_eq.symm ▸ hr
  refine ⟨isRectangular_eliminate h.rectangular hr' values, (nrRows_eliminate M r values).trans h.nrRows_eq,
    h.nrColumns_eq, fun x hx => h.eq_zero x ?_⟩
  have hrows : ∀ i ∈ {i | i < n}, i < M.nrRows := fun i hi => h.nrRows_eq.symm ▸ hi
  exact (rowDot_eliminate_eq_zero_iff h.rectangular hr' hpivot hrows hr x).mp hx

/-! ### The largest pivot -/

theorem foldl_keepLarger (candidates : List (ℕ × ℚ)) (best : ℕ × ℚ) :
    let found := candidates.foldl (fun best candidate => if best.2 < candidate.2 then candidate else best) best
    (found = best ∨ found ∈ candidates) ∧ best.2 ≤ found.2 ∧ ∀ c ∈ candidates, c.2 ≤ found.2 := by
  induction candidates generalizing best with
  | nil => exact ⟨Or.inl rfl, le_rfl, by simp⟩
  | cons c rest ih =>
    obtain ⟨hfound, hbest, hrest⟩ := ih (if best.2 < c.2 then c else best)
    have hle : best.2 ≤ (if best.2 < c.2 then c else best).2 ∧ c.2 ≤ (if best.2 < c.2 then c else best).2 := by
      split_ifs with h
      · exact ⟨h.le, le_rfl⟩
      · exact ⟨le_rfl, not_lt.mp h⟩
    refine ⟨?_, hle.1.trans hbest, fun d hd => ?_⟩
    · rcases hfound with hfound | hfound
      · rw [List.foldl_cons, hfound]
        split_ifs
        · exact Or.inr (List.mem_cons_self ..)
        · exact Or.inl rfl
      · exact Or.inr (List.mem_cons_of_mem c hfound)
    · rcases List.mem_cons.mp hd with rfl | hd
      · exact hle.2.trans hbest
      · exact hrest d hd

theorem largestBelow_spec (hk : k < M.nrRows) :
    k ≤ (M.largestBelow k).1 ∧ (M.largestBelow k).1 < M.nrRows ∧
      (M.largestBelow k).2 = |M.entry (M.largestBelow k).1 k| ∧
      ∀ i, k ≤ i → i < M.nrRows → |M.entry i k| ≤ (M.largestBelow k).2 := by
  obtain ⟨hfound, -, hall⟩ := foldl_keepLarger
    ((List.range' k (M.nrRows - k)).map fun i => (i, Scalar.abs (M.entry i k))) (k, -1)
  have hle : ∀ i, k ≤ i → i < M.nrRows → |M.entry i k| ≤ (M.largestBelow k).2 := by
    intro i hki hi
    have hmem := hall (i, Scalar.abs (M.entry i k))
      (List.mem_map.mpr ⟨i, List.mem_range'_1.mpr ⟨hki, by omega⟩, rfl⟩)
    rwa [Scalar.abs_eq] at hmem
  rcases hfound with hfound | hfound
  · have hneg : (M.largestBelow k).2 = -1 := congrArg Prod.snd hfound
    have habs := hle k le_rfl hk
    rw [hneg] at habs
    linarith [abs_nonneg (M.entry k k)]
  · obtain ⟨i, hi, heq⟩ := List.mem_map.mp hfound
    have heq' : M.largestBelow k = (i, Scalar.abs (M.entry i k)) := heq.symm
    have hrange := List.mem_range'_1.mp hi
    rw [heq'] at hle ⊢
    exact ⟨hrange.1, by omega, Scalar.abs_eq _, hle⟩

/-! ### One column after the other -/

/-- The first `k` columns have become unit vectors, by row operations that the second matrix collects: times the
original matrix it is the first one. -/
structure Reduces (M : RowMatrix ℚ) (k : ℕ) (state : RowMatrix ℚ × RowMatrix ℚ) : Prop where
  work : state.1.HasShape M.nrRows M.nrRows
  inverse : state.2.HasShape M.nrRows M.nrRows
  product : ∀ i < M.nrRows, ∀ j, state.1.entry i j = state.2.rowDot i (M.entry · j)
  unit : ∀ j < k, ∀ i < M.nrRows, state.1.entry i j = if i = j then 1 else 0

theorem reduces_start (h : M.HasShape M.nrRows M.nrRows) : Reduces M 0 (M, identity M.nrRows) :=
  ⟨h, hasShape_identity _, fun _ hi j => (rowDot_identity hi (M.entry · j)).symm,
    fun j hj => absurd hj (Nat.not_lt_zero j)⟩

/-- Bring row `p` to row `k` and eliminate column `k` with it, in both matrices. -/
def treat (state : RowMatrix ℚ × RowMatrix ℚ) (p k : ℕ) : RowMatrix ℚ × RowMatrix ℚ :=
  ((state.1.swapRows p k).eliminate k ((state.1.swapRows p k).column k),
    (state.2.swapRows p k).eliminate k ((state.1.swapRows p k).column k))

/-- All that a step of the inversion can be. -/
theorem invertStep_cases (ε : ℚ) (state : RowMatrix ℚ × RowMatrix ℚ) (k : ℕ) :
    ((state.1.largestBelow k).2 < ε ∧ invertStep ε state k = .error .singularBasis) ∨
    (ε ≤ (state.1.largestBelow k).2 ∧ invertStep ε state k = .ok (treat state (state.1.largestBelow k).1 k)) := by
  rcases lt_or_ge (state.1.largestBelow k).2 ε with hlt | hle
  · exact Or.inl ⟨hlt, if_pos hlt⟩
  · exact Or.inr ⟨hle, if_neg hle.not_gt⟩

theorem Reduces.treat {state : RowMatrix ℚ × RowMatrix ℚ} (h : Reduces M k state) (hkp : k ≤ p) (hp : p < M.nrRows)
    (hpivot : state.1.entry p k ≠ 0) : Reduces M (k + 1) (treat state p k) := by
  have hk : k < M.nrRows := hkp.trans_lt hp
  have hwork := h.work.swapRows hp hk
  have hinverse := h.inverse.swapRows hp hk
  have hentry : ∀ i j, (state.1.swapRows p k).entry i j = state.1.entry (Equiv.swap p k i) j := by
    intro i j
    rw [entry, row_swapRows (h.work.nrRows_eq.symm ▸ hp) (h.work.nrRows_eq.symm ▸ hk)]
    rfl
  have hdot : ∀ i x, (state.2.swapRows p k).rowDot i x = state.2.rowDot (Equiv.swap p k i) x := by
    intro i x
    simp only [rowDot, entry, row_swapRows (h.inverse.nrRows_eq.symm ▸ hp) (h.inverse.nrRows_eq.symm ▸ hk)]
    rfl
  have hvalue : ∀ i, ((state.1.swapRows p k).column k).getD i 0 = state.1.entry (Equiv.swap p k i) k := by
    intro i
    rw [getD_column, hentry]
  refine ⟨hwork.eliminate hk _, hinverse.eliminate hk _, fun i hi j => ?_, fun j hj i hi => ?_⟩
  · have hi' : i < (state.1.swapRows p k).nrRows := hwork.nrRows_eq.symm ▸ hi
    have hi'' : i < (state.2.swapRows p k).nrRows := hinverse.nrRows_eq.symm ▸ hi
    simp only [RowMatrix.treat]
    rw [entry_eliminate hwork.rectangular (hwork.nrRows_eq.symm ▸ hk) _ hi',
      rowDot_eliminate hinverse.rectangular (hinverse.nrRows_eq.symm ▸ hk) _ hi'']
    simp only [hentry, hdot, h.product _ (swap_lt hp hk hi), h.product _ (swap_lt hp hk hk)]
  · have hi' : i < (state.1.swapRows p k).nrRows := hwork.nrRows_eq.symm ▸ hi
    simp only [RowMatrix.treat]
    rw [entry_eliminate hwork.rectangular (hwork.nrRows_eq.symm ▸ hk) _ hi', hvalue, hvalue, hentry, hentry,
      Equiv.swap_apply_right]
    rcases Nat.lt_succ_iff_lt_or_eq.mp hj with hj | rfl
    · -- the exchanged rows are zero in the columns treated before
      rw [h.unit j hj p hp, if_neg (show p ≠ j by omega), zero_div, mul_zero, sub_zero]
      by_cases hik : i = k
      · rw [if_pos hik, if_neg (by omega)]
      · rw [if_neg hik, h.unit j hj _ (swap_lt hp hk hi)]
        by_cases hip : i = p
        · rw [hip, Equiv.swap_apply_left, if_neg (by omega), if_neg (by omega)]
        · rw [Equiv.swap_apply_of_ne_of_ne hip hik]
    · by_cases hij : i = j
      · rw [if_pos hij, if_pos hij, div_self hpivot]
      · rw [if_neg hij, if_neg hij, div_self hpivot, mul_one, sub_self]

/-! ### Pivots of regular matrices -/

/-- What holds after the first `k` columns of a regular matrix have been treated: row operations keep it regular. -/
structure Treated (M : RowMatrix ℚ) (k : ℕ) (state : RowMatrix ℚ × RowMatrix ℚ) : Prop where
  reduces : Reduces M k state
  work : state.1.Regular M.nrRows
  inverse : state.2.Regular M.nrRows

theorem treated_start (h : M.Regular M.nrRows) : Treated M 0 (M, identity M.nrRows) :=
  ⟨reduces_start h.hasShape, h, regular_identity _⟩

/-- The combination of columns that says that column `k` is determined by the columns before it. -/
def columnRelation (M : RowMatrix ℚ) (k j : ℕ) : ℚ := if j = k then 1 else if j < k then -M.entry j k else 0

section Step

variable {state : RowMatrix ℚ × RowMatrix ℚ} (h : Treated M k state) (hk : k < M.nrRows)
include h hk

/-- Otherwise the column would be a combination of the unit vectors before it. -/
theorem Treated.exists_ne_zero : ∃ i, k ≤ i ∧ i < M.nrRows ∧ state.1.entry i k ≠ 0 := by
  by_contra hnone
  have hzero : ∀ i, k ≤ i → i < M.nrRows → state.1.entry i k = 0 := by
    intro i hki hi
    by_contra hne
    exact hnone ⟨i, hki, hi, hne⟩
  have hx : ∀ i < M.nrRows, state.1.rowDot i (state.1.columnRelation k) = 0 := by
    intro i hi
    have hterm : ∀ j ∈ range M.nrRows, state.1.entry i j * state.1.columnRelation k j =
        (if j = k then state.1.entry i k else 0) +
          (if j = i then (if i < k then -state.1.entry i k else 0) else 0) := by
      intro j _
      unfold columnRelation
      by_cases hjk : j = k
      · rw [if_pos hjk, if_pos hjk, mul_one, hjk]
        by_cases hki : k = i
        · rw [if_pos hki, if_neg (by omega), add_zero]
        · rw [if_neg hki, add_zero]
      · rw [if_neg hjk, if_neg hjk, zero_add]
        by_cases hlt : j < k
        · rw [if_pos hlt, h.reduces.unit j hlt i hi]
          by_cases hij : i = j
          · rw [if_pos hij, if_pos hij.symm, if_pos (by omega), one_mul, hij]
          · rw [if_neg hij, if_neg (Ne.symm hij), zero_mul]
        · rw [if_neg hlt, mul_zero]
          by_cases hji : j = i
          · rw [if_pos hji, if_neg (by omega)]
          · rw [if_neg hji]
    unfold rowDot
    rw [h.work.nrColumns_eq, Finset.sum_congr rfl hterm, Finset.sum_add_distrib,
      Finset.sum_ite_eq' (range M.nrRows) k, Finset.sum_ite_eq' (range M.nrRows) i,
      if_pos (Finset.mem_range.mpr hk), if_pos (Finset.mem_range.mpr hi)]
    by_cases hik : i < k
    · rw [if_pos hik, add_neg_cancel]
    · rw [if_neg hik, hzero i (not_lt.mp hik) hi, add_zero]
  have hone := h.work.eq_zero _ hx k hk
  rw [columnRelation, if_pos rfl] at hone
  exact one_ne_zero hone

theorem Treated.largestBelow_pos : 0 < (state.1.largestBelow k).2 := by
  obtain ⟨-, -, -, hmax⟩ := largestBelow_spec (h.work.nrRows_eq.symm ▸ hk : k < state.1.nrRows)
  obtain ⟨i, hki, hi, hne⟩ := h.exists_ne_zero hk
  exact (abs_pos.mpr hne).trans_le (hmax i hki (h.work.nrRows_eq.symm ▸ hi))

theorem Treated.invertStep : ∃ next, invertStep 0 state k = .ok next ∧ Treated M (k + 1) next := by
  obtain ⟨hge, hlt, hmag, -⟩ := largestBelow_spec (h.work.nrRows_eq.symm ▸ hk : k < state.1.nrRows)
  have hpos := h.largestBelow_pos hk
  have hp : (state.1.largestBelow k).1 < M.nrRows := h.work.nrRows_eq ▸ hlt
  have hpivot : state.1.entry (state.1.largestBelow k).1 k ≠ 0 := abs_pos.mp (hmag ▸ hpos)
  have hvalue : ((state.1.swapRows (state.1.largestBelow k).1 k).column k).getD k 0 ≠ 0 := by
    rw [getD_column, entry, row_swapRows hlt (h.work.nrRows_eq.symm ▸ hk), Equiv.swap_apply_right]
    exact hpivot
  obtain ⟨hneg, -⟩ | ⟨-, hok⟩ := invertStep_cases 0 state k
  · exact absurd hneg hpos.not_gt
  · exact ⟨_, hok, h.reduces.treat hge hp hpivot, (h.work.swapRows hp hk).eliminate hk hvalue,
      (h.inverse.swapRows hp hk).eliminate hk hvalue⟩

end Step

theorem Treated.foldlM (h : M.Regular M.nrRows) (hk : k ≤ M.nrRows) :
    ∃ state, (List.range k).foldlM (RowMatrix.invertStep 0) (M, identity M.nrRows) = .ok state ∧ Treated M k state := by
  induction k with
  | zero => exact ⟨_, rfl, treated_start h⟩
  | succ k ih =>
    obtain ⟨state, hstate, htreated⟩ := ih (by omega)
    obtain ⟨next, hnext, htreated'⟩ := htreated.invertStep (by omega)
    refine ⟨next, ?_, htreated'⟩
    rw [List.range_succ, List.foldlM_append, hstate]
    show List.foldlM (RowMatrix.invertStep 0) state [k] = .ok next
    rw [List.foldlM_cons, hnext]
    rfl

/-- A matrix with a trivial kernel is inverted. -/
theorem Regular.invert (h : M.Regular n) :
    ∃ N, M.invert 0 = .ok N ∧ N.Regular n ∧
      ∀ i < n, ∀ j < n, N.rowDot i (M.entry · j) = if i = j then 1 else 0 := by
  obtain rfl := h.nrRows_eq
  obtain ⟨state, hstate, htreated⟩ := Treated.foldlM h le_rfl
  refine ⟨state.2, ?_, htreated.inverse, fun i hi j hj => ?_⟩
  · rw [RowMatrix.invert, hstate]
    rfl
  · rw [← htreated.reduces.product i hi j, htreated.reduces.unit j hj i hi]

/-! ### The least pivot that is accepted -/

section Tolerance

variable {ε : ℚ} {state next : RowMatrix ℚ × RowMatrix ℚ}

theorem invertStep_of_le (hpos : 0 ≤ (state.1.largestBelow k).2) (hle : ε ≤ (state.1.largestBelow k).2) :
    RowMatrix.invertStep ε state k = RowMatrix.invertStep 0 state k := by
  have hok : ∀ δ, δ ≤ (state.1.largestBelow k).2 → RowMatrix.invertStep δ state k = .ok _ :=
    fun δ hδ => if_neg hδ.not_gt
  rw [hok ε hle, hok 0 hpos]

theorem le_of_invertStep_eq_ok (h : RowMatrix.invertStep ε state k = .ok next) :
    ε ≤ (state.1.largestBelow k).2 ∧ next = RowMatrix.treat state (state.1.largestBelow k).1 k := by
  obtain ⟨-, herror⟩ | ⟨hle, hok⟩ := invertStep_cases ε state k
  · rw [herror] at h
    cases h
  · exact ⟨hle, Except.ok.inj (h.symm.trans hok)⟩

theorem invertStep_zero_of_ok (hε : 0 ≤ ε) (h : RowMatrix.invertStep ε state k = .ok next) :
    RowMatrix.invertStep 0 state k = .ok next := by
  have hle := (le_of_invertStep_eq_ok h).1
  rw [← invertStep_of_le (hε.trans hle) hle, h]

/-- A pivot that is accepted is not zero. -/
theorem Reduces.invertStep (h : Reduces M k state) (hk : k < M.nrRows) (hε : 0 < ε)
    (hok : RowMatrix.invertStep ε state k = .ok next) : Reduces M (k + 1) next := by
  obtain ⟨hle, rfl⟩ := le_of_invertStep_eq_ok hok
  obtain ⟨hge, hlt, hmag, -⟩ := largestBelow_spec (h.work.nrRows_eq.symm ▸ hk : k < state.1.nrRows)
  exact h.treat hge (h.work.nrRows_eq ▸ hlt) (abs_pos.mp (hmag ▸ hε.trans_le hle))

theorem reduces_foldlM (hM : M.HasShape M.nrRows M.nrRows) (hε : 0 < ε) (hk : k ≤ M.nrRows)
    (hok : (List.range k).foldlM (RowMatrix.invertStep ε) (M, identity M.nrRows) = .ok state) : Reduces M k state := by
  induction k generalizing state with
  | zero =>
    obtain rfl := Except.ok.inj hok
    exact reduces_start hM
  | succ k ih =>
    rw [List.range_succ, List.foldlM_append] at hok
    cases hfold : (List.range k).foldlM (RowMatrix.invertStep ε) (M, identity M.nrRows) with
    | error e =>
      rw [hfold] at hok
      cases hok
    | ok mid =>
      rw [hfold] at hok
      refine (ih (by omega) hfold).invertStep (by omega) hε ?_
      rw [← hok]
      exact (bind_pure (RowMatrix.invertStep ε mid k)).symm

/-- What is found times the matrix is the identity. -/
theorem reduces_invert {N : RowMatrix ℚ} (hM : M.HasShape n n) (hε : 0 < ε) (h : M.invert ε = .ok N) :
    ∃ work, Reduces M n (work, N) := by
  obtain rfl := hM.nrRows_eq
  unfold RowMatrix.invert at h
  cases hfold : (List.range M.nrRows).foldlM (RowMatrix.invertStep ε) (M, identity M.nrRows) with
  | error e =>
    rw [hfold] at h
    cases h
  | ok state =>
    rw [hfold] at h
    obtain rfl := Except.ok.inj h
    exact ⟨state.1, reduces_foldlM hM hε le_rfl hfold⟩

/-- There is no other failure than that of a pivot. -/
theorem invert_eq_ok_or_error (M : RowMatrix ℚ) (ε : ℚ) :
    (∃ N, M.invert ε = .ok N) ∨ M.invert ε = .error .singularBasis := by
  have hfold : ∀ (columns : List ℕ) (state : RowMatrix ℚ × RowMatrix ℚ),
      (∃ last, columns.foldlM (RowMatrix.invertStep ε) state = .ok last) ∨
        columns.foldlM (RowMatrix.invertStep ε) state = .error .singularBasis := by
    intro columns
    induction columns with
    | nil => exact fun state => Or.inl ⟨state, rfl⟩
    | cons k rest ih =>
      intro state
      rw [List.foldlM_cons]
      obtain ⟨-, hstep⟩ | ⟨-, hstep⟩ := invertStep_cases ε state k
      · rw [hstep]
        exact Or.inr rfl
      · rw [hstep]
        exact ih _
  unfold RowMatrix.invert
  obtain ⟨last, hlast⟩ | herror := hfold (List.range M.nrRows) (M, identity M.nrRows)
  · rw [hlast]
    exact Or.inl ⟨last.2, rfl⟩
  · rw [herror]
    exact Or.inr rfl

theorem foldlM_invertStep_zero_of_ok (hε : 0 ≤ ε) {columns : List ℕ}
    (h : columns.foldlM (RowMatrix.invertStep ε) state = .ok next) :
    columns.foldlM (RowMatrix.invertStep 0) state = .ok next := by
  induction columns generalizing state with
  | nil => exact h
  | cons k rest ih =>
    rw [List.foldlM_cons] at h ⊢
    cases hstep : RowMatrix.invertStep ε state k with
    | error e =>
      rw [hstep] at h
      cases h
    | ok mid =>
      rw [hstep] at h
      rw [invertStep_zero_of_ok hε hstep]
      exact ih h

/-- An inverse that is found is the one that is found when every pivot is accepted. -/
theorem invert_zero_of_ok {N : RowMatrix ℚ} (hε : 0 ≤ ε) (h : M.invert ε = .ok N) : M.invert 0 = .ok N := by
  unfold RowMatrix.invert at h ⊢
  cases hfold : (List.range M.nrRows).foldlM (RowMatrix.invertStep ε) (M, identity M.nrRows) with
  | error e =>
    rw [hfold] at h
    cases h
  | ok state =>
    rw [hfold] at h
    rw [foldlM_invertStep_zero_of_ok hε hfold]
    exact h

theorem exists_foldlM_invertStep_eq (h : M.Regular M.nrRows) (hk : k ≤ M.nrRows) :
    ∃ ε₀ > 0, ∀ ε ≤ ε₀,
      (List.range k).foldlM (RowMatrix.invertStep ε) (M, identity M.nrRows) =
        (List.range k).foldlM (RowMatrix.invertStep 0) (M, identity M.nrRows) := by
  induction k with
  | zero => exact ⟨1, one_pos, fun _ _ => rfl⟩
  | succ k ih =>
    obtain ⟨ε₀, hε₀, hfold⟩ := ih (by omega)
    obtain ⟨state, hstate, htreated⟩ := Treated.foldlM h (show k ≤ M.nrRows by omega)
    have hpos := htreated.largestBelow_pos (by omega)
    refine ⟨min ε₀ (state.1.largestBelow k).2, lt_min hε₀ hpos, fun ε hle => ?_⟩
    rw [List.range_succ, List.foldlM_append, List.foldlM_append, hfold ε (hle.trans (min_le_left _ _)), hstate]
    show List.foldlM (RowMatrix.invertStep ε) state [k] = List.foldlM (RowMatrix.invertStep 0) state [k]
    rw [List.foldlM_cons, List.foldlM_cons, invertStep_of_le hpos.le (hle.trans (min_le_right _ _))]
    rfl

theorem Regular.exists_invert_eq (h : M.Regular n) : ∃ ε₀ > 0, ∀ ε, 0 ≤ ε → ε ≤ ε₀ → M.invert ε = M.invert 0 := by
  obtain rfl := h.nrRows_eq
  obtain ⟨ε₀, hε₀, hfold⟩ := exists_foldlM_invertStep_eq h le_rfl
  refine ⟨ε₀, hε₀, fun ε _ hle => ?_⟩
  rw [RowMatrix.invert, hfold ε hle]
  rfl

theorem Regular.invert_eq_of_nonpos (h : M.Regular n) (hε : ε ≤ 0) : M.invert ε = M.invert 0 := by
  obtain rfl := h.nrRows_eq
  obtain ⟨ε₀, hε₀, hfold⟩ := exists_foldlM_invertStep_eq h le_rfl
  rw [RowMatrix.invert, hfold ε (hε.trans hε₀.le)]
  rfl

end Tolerance

end LinearProgramming.RowMatrix
