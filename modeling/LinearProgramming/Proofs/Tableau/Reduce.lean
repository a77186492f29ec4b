import LinearProgramming.Proofs.Tableau.Basis
import LinearProgramming.Tableau.Extend

/-! # Rows reduced by constraint rows

Before a new row is appended to a tableau, its entries in the basic columns are cleared. On the solutions of the
constraint rows that are subtracted the reduction changes nothing (`sum_foldl_clearBasic`). -/

namespace LinearProgramming

open Finset

namespace Tableau

variable {t : Tableau ℚ} {x : ℕ → ℚ} {i j k : ℕ}

/-! ### Reducing a row -/

/-- A list of coefficients times a vector. -/
def lineDot (width : ℕ) (line : List ℚ) (x : ℕ → ℚ) : ℚ := ∑ j ∈ range width, line.getD j 0 * x j

/-- A minus one below the right hand side turns a row into left side less right side. -/
theorem lineDot_of_lt (width : ℕ) (line : List ℚ) (x : ℕ → ℚ) :
    lineDot (width + 1) line (fun j => if j < width then x j else -1) =
      ∑ j ∈ range width, line.getD j 0 * x j - line.getD width 0 := by
  unfold lineDot
  rw [Finset.sum_range_succ]
  beta_reduce
  rw [if_neg (lt_irrefl width), mul_neg_one, ← sub_eq_add_neg]
  congr 1
  refine Finset.sum_congr rfl fun j hj => ?_
  rw [if_pos (Finset.mem_range.mp hj)]

section ClearBasic

variable {line constraintRow : List ℚ} {b width : ℕ}

theorem length_clearBasic {α : Type} [Scalar α] {line constraintRow : List α}
    (hlen : constraintRow.length = line.length) : (clearBasic line b constraintRow).length = line.length := by
  unfold clearBasic
  dsimp only
  split
  · rfl
  · rw [List.length_set, List.length_zipWith, hlen, min_self]

/-- Clearing a basic column subtracts a multiple of its row. -/
theorem getD_clearBasic (hlen : constraintRow.length = line.length) (hone : constraintRow.getD b 0 = 1) (j : ℕ) :
    (clearBasic line b constraintRow).getD j 0 = line.getD j 0 - line.getD b 0 * constraintRow.getD j 0 := by
  have hb : b < line.length := by
    by_contra hge
    rw [List.getD_eq_default _ _ (by omega)] at hone
    exact zero_ne_one hone
  have hzip : (List.zipWith (fun v e => v - line.getD b 0 * e) line constraintRow).getD j 0 =
      line.getD j 0 - line.getD b 0 * constraintRow.getD j 0 := by
    simp only [List.getD_eq_getElem?_getD, List.getElem?_zipWith]
    by_cases hj : j < line.length
    · rw [List.getElem?_eq_getElem hj, List.getElem?_eq_getElem (hlen ▸ hj)]
      rfl
    · rw [List.getElem?_eq_none (not_lt.mp hj), List.getElem?_eq_none (hlen ▸ not_lt.mp hj)]
      simp
  unfold clearBasic
  dsimp only
  split
  · next hzero =>
    rw [beq_iff_eq] at hzero
    rw [hzero, zero_mul, sub_zero]
  · rw [RowMatrix.getD_set _ (by rw [List.length_zipWith, hlen, min_self]; exact hb), hzip]
    split_ifs with hj
    · rw [hj, hone, mul_one, sub_self]
    · rfl

/-- The rows of a basis, as they take part in the reduction of a new row: each is a unit vector in its own basic
column and in those of the rows before it. -/
structure Reducing (width : ℕ) (pairs : List (ℕ × List ℚ)) : Prop where
  length_eq : ∀ p ∈ pairs, p.2.length = width
  one : ∀ p ∈ pairs, p.2.getD p.1 0 = 1
  zero : pairs.Pairwise fun p q => q.2.getD p.1 0 = 0

theorem Reducing.tail {p : ℕ × List ℚ} {rest : List (ℕ × List ℚ)} (h : Reducing width (p :: rest)) :
    Reducing width rest :=
  ⟨fun q hq => h.length_eq q (List.mem_cons_of_mem p hq), fun q hq => h.one q (List.mem_cons_of_mem p hq),
    (List.pairwise_cons.mp h.zero).2⟩

theorem length_foldl_clearBasic {α : Type} [Scalar α] {pairs : List (ℕ × List α)} {line : List α}
    (h : ∀ p ∈ pairs, p.2.length = width) (hline : line.length = width) :
    (pairs.foldl (fun r p => clearBasic r p.1 p.2) line).length = width := by
  refine List.foldlRecOn (motive := fun r : List α => r.length = width) pairs _ hline fun r hr p hp => ?_
  rw [length_clearBasic ((h p hp).trans hr.symm), hr]

theorem getD_foldl_clearBasic {pairs : List (ℕ × List ℚ)} (h : Reducing width pairs)
    (hline : line.length = width) (hj : ∀ p ∈ pairs, p.2.getD j 0 = 0) :
    (pairs.foldl (fun r p => clearBasic r p.1 p.2) line).getD j 0 = line.getD j 0 := by
  induction pairs generalizing line with
  | nil => rfl
  | cons p rest ih =>
    have hp := List.mem_cons_self (a := p) (l := rest)
    have hlen : p.2.length = line.length := (h.length_eq p hp).trans hline.symm
    rw [List.foldl_cons, ih h.tail ((length_clearBasic hlen).trans hline)
      (fun q hq => hj q (List.mem_cons_of_mem p hq)), getD_clearBasic hlen (h.one p hp), hj p hp, mul_zero, sub_zero]

theorem foldl_clearBasic_eq_self {pairs : List (ℕ × List ℚ)} (h : ∀ p ∈ pairs, line.getD p.1 0 = 0) :
    pairs.foldl (fun r p => clearBasic r p.1 p.2) line = line := by
  refine List.foldlRecOn (motive := (· = line)) pairs _ rfl fun r hr p hp => ?_
  have hzero := h p hp
  rw [hr, clearBasic, hzero]
  rfl

theorem getD_foldl_clearBasic_eq_zero {pairs : List (ℕ × List ℚ)} (h : Reducing width pairs)
    (hline : line.length = width) :
    ∀ p ∈ pairs, (pairs.foldl (fun r p => clearBasic r p.1 p.2) line).getD p.1 0 = 0 := by
  induction pairs generalizing line with
  | nil => simp
  | cons p rest ih =>
    have hlen : p.2.length = line.length := (h.length_eq p (List.mem_cons_self ..)).trans hline.symm
    have hline' := (length_clearBasic (b := p.1) hlen).trans hline
    intro q hq
    rw [List.foldl_cons]
    rcases List.mem_cons.mp hq with rfl | hq
    · -- the later rows have a zero in this column
      rw [getD_foldl_clearBasic h.tail hline' (List.pairwise_cons.mp h.zero).1,
        getD_clearBasic hlen (h.one q (List.mem_cons_self ..)), h.one q (List.mem_cons_self ..), mul_one, sub_self]
    · exact ih h.tail hline' q hq

/-- On the solutions of the rows, the reduced row says what the row said. -/
theorem sum_foldl_clearBasic {pairs : List (ℕ × List ℚ)} (h : Reducing width pairs) (hline : line.length = width)
    (hx : ∀ p ∈ pairs, lineDot width p.2 x = 0) :
    lineDot width (pairs.foldl (fun r p => clearBasic r p.1 p.2) line) x = lineDot width line x := by
  induction pairs generalizing line with
  | nil => rfl
  | cons p rest ih =>
    have hp := List.mem_cons_self (a := p) (l := rest)
    have hlen : p.2.length = line.length := (h.length_eq p hp).trans hline.symm
    have hstep : lineDot width (clearBasic line p.1 p.2) x =
        lineDot width line x - line.getD p.1 0 * lineDot width p.2 x := by
      unfold lineDot
      rw [Finset.mul_sum, ← Finset.sum_sub_distrib]
      refine Finset.sum_congr rfl fun j _ => ?_
      rw [getD_clearBasic hlen (h.one p hp)]
      ring
    rw [List.foldl_cons, ih h.tail ((length_clearBasic hlen).trans hline)
      (fun q hq => hx q (List.mem_cons_of_mem p hq)), hstep, hx p hp, mul_zero, sub_zero]

end ClearBasic

end Tableau

end LinearProgramming
