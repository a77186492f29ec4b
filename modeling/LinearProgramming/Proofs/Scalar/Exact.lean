import Mathlib.Algebra.BigOperators.Field
import Mathlib.Algebra.BigOperators.Ring.Finset
import Mathlib.Algebra.Order.BigOperators.Group.Finset
import Mathlib.Algebra.Ring.Subring.Basic
import Mathlib.Data.List.GetD
import Mathlib.Data.Rat.Floor
import Mathlib.Tactic.FieldSimp
import Mathlib.Tactic.Linarith
import LinearProgramming.Scalar.Tolerance

/-! # Exact scalars

What the operations and decisions of a scalar mean over the rationals. Sums are the sums of the library, inner
products are sums over a range of indices, and the tests for a sign are comparisons with the tolerance. Without
tolerance, the test for an integer is exact. `exists_firstMinimum` says that the candidate chosen by
`Scalar.firstMinimum` is minimal up to the tolerance, and smaller than those before it. -/

namespace LinearProgramming.Scalar

open Finset

/-! ### Lists of rationals -/

theorem sum_eq (xs : List ℚ) : Scalar.sum xs = xs.sum := by
  rw [List.sum_eq_foldl]
  rfl

theorem sum_eq_sum_range (xs : List ℚ) (n : ℕ) (h : xs.length ≤ n) :
    xs.sum = ∑ j ∈ range n, xs.getD j 0 := by
  induction xs generalizing n with
  | nil => simp
  | cons x xs ih =>
    cases n with
    | zero => simp at h
    | succ n =>
      rw [Finset.sum_range_succ', List.sum_cons, ih n (by simpa using h)]
      simp [add_comm]

theorem getD_zipWith_mul (xs ys : List ℚ) (j : ℕ) :
    (List.zipWith (· * ·) xs ys).getD j 0 = xs.getD j 0 * ys.getD j 0 := by
  simp only [List.getD_eq_getElem?_getD, List.getElem?_zipWith]
  cases xs[j]? <;> cases ys[j]? <;> simp

/-- An inner product is a sum over any range of indices that covers the shorter operand. -/
theorem dot_eq_sum_range (xs ys : List ℚ) (n : ℕ) (h : min xs.length ys.length ≤ n) :
    Scalar.dot xs ys = ∑ j ∈ range n, xs.getD j 0 * ys.getD j 0 := by
  have hlen : (List.zipWith (· * ·) xs ys).length ≤ n := by simpa using h
  have hdot : Scalar.dot xs ys = (List.zipWith (· * ·) xs ys).sum := sum_eq _
  rw [hdot, sum_eq_sum_range _ n hlen]
  exact Finset.sum_congr rfl fun j _ => getD_zipWith_mul xs ys j

theorem dot_append {xs ys : List ℚ} (h : xs.length ≤ ys.length) (zs : List ℚ) :
    Scalar.dot xs (ys ++ zs) = Scalar.dot xs ys := by
  rw [dot_eq_sum_range _ _ xs.length (min_le_left _ _), dot_eq_sum_range _ _ xs.length (min_le_left _ _)]
  refine Finset.sum_congr rfl fun j hj => ?_
  rw [List.getD_append _ _ _ _ ((Finset.mem_range.mp hj).trans_le h)]

/-! ### Decisions -/

theorem isNegative_iff (v ε : ℚ) : Scalar.isNegative v ε = true ↔ v < -ε := by
  simp [Scalar.isNegative]

theorem isPositive_iff (v ε : ℚ) : Scalar.isPositive v ε = true ↔ ε < v := by
  simp [Scalar.isPositive]

theorem abs_eq (v : ℚ) : Scalar.abs v = |v| := by
  show (if v < 0 then -v else v) = |v|
  split_ifs with h
  · exact (abs_of_neg h).symm
  · exact (abs_of_nonneg (not_lt.mp h)).symm

theorem isZero_iff (v ε : ℚ) : Scalar.isZero v ε = true ↔ |v| ≤ ε := by
  simp [Scalar.isZero, abs_eq]

theorem isZero_zero_iff (v : ℚ) : Scalar.isZero v 0 = true ↔ v = 0 := by
  rw [isZero_iff, abs_nonpos_iff]

theorem isIntegral_zero_iff (v : ℚ) : Scalar.isIntegral v 0 = true ↔ v = Scalar.round v := by
  rw [Scalar.isIntegral, decide_eq_true_iff, abs_eq, abs_nonpos_iff, sub_eq_zero]

theorem round_eq (v : ℚ) : Scalar.round v = if v < 0 then -(⌊1 / 2 - v⌋ : ℚ) else (⌊v + 1 / 2⌋ : ℚ) := by
  have hhalf : (1 / 2 : ℚ) = mkRat 1 2 := by decide +kernel
  rw [hhalf]
  rfl

theorem exists_int_round (v : ℚ) : ∃ z : ℤ, Scalar.round v = z := by
  rw [round_eq]
  split_ifs
  · exact ⟨-⌊1 / 2 - v⌋, by rw [Int.cast_neg]⟩
  · exact ⟨⌊v + 1 / 2⌋, rfl⟩

theorem exists_int_of_isIntegral {v : ℚ} (h : Scalar.isIntegral v 0 = true) : ∃ z : ℤ, v = z := by
  rw [(isIntegral_zero_iff v).mp h]
  exact exists_int_round v

theorem abs_sub_round_le_half (v : ℚ) : |v - Scalar.round v| ≤ 1 / 2 := by
  rw [round_eq, abs_le]
  split_ifs
  · have hle := Int.floor_le (1 / 2 - v)
    have hlt := Int.lt_floor_add_one (1 / 2 - v)
    constructor <;> linarith
  · have hle := Int.floor_le (v + 1 / 2)
    have hlt := Int.lt_floor_add_one (v + 1 / 2)
    constructor <;> linarith

/-- No other integer is closer. -/
theorem abs_sub_round_le (v : ℚ) (z : ℤ) : |v - Scalar.round v| ≤ |v - z| := by
  obtain ⟨r, hr⟩ := exists_int_round v
  have hhalf := abs_sub_round_le_half v
  rw [hr] at hhalf ⊢
  by_cases hrz : r = z
  · rw [hrz]
  · have hone : (1 : ℚ) ≤ |(r : ℚ) - z| := by exact_mod_cast Int.one_le_abs (sub_ne_zero.mpr hrz)
    have htriangle := abs_sub_le (r : ℚ) v z
    rw [abs_sub_comm (r : ℚ) v] at htriangle
    linarith

theorem round_eq_zero {v : ℚ} (hlow : -(1 / 2) < v) (hhigh : v < 1 / 2) : Scalar.round v = 0 := by
  rw [round_eq]
  split_ifs with hneg
  · have hfloor : ⌊1 / 2 - v⌋ = 0 := Int.floor_eq_zero_iff.mpr ⟨by linarith, by linarith⟩
    rw [hfloor, Int.cast_zero, neg_zero]
  · have hfloor : ⌊v + 1 / 2⌋ = 0 := Int.floor_eq_zero_iff.mpr ⟨by linarith, by linarith⟩
    rw [hfloor, Int.cast_zero]

theorem isIntegral_zero {ε : ℚ} (hε : 0 ≤ ε) : Scalar.isIntegral 0 ε = true := by
  rw [Scalar.isIntegral, decide_eq_true_iff, abs_eq, round_eq_zero (by norm_num) (by norm_num), sub_zero, abs_zero]
  exact hε

theorem round_le_neg_one {v : ℚ} (h : v ≤ -(1 / 2)) : Scalar.round v ≤ -1 := by
  have hfloor : (1 : ℤ) ≤ ⌊1 / 2 - v⌋ := Int.le_floor.mpr (by push_cast; linarith)
  have hfloor' : (1 : ℚ) ≤ ⌊1 / 2 - v⌋ := by exact_mod_cast hfloor
  rw [round_eq, if_pos (by linarith), neg_le_neg_iff]
  exact hfloor'

theorem snap_zero (v : ℚ) : Scalar.snap v 0 = v := by
  unfold Scalar.snap
  split_ifs with h
  · exact ((isIntegral_zero_iff v).mp h).symm
  · rfl

theorem intCast_le_floor {z : ℤ} {v : ℚ} : (z : ℚ) ≤ Scalar.floor v ↔ (z : ℚ) ≤ v := by
  show (z : ℚ) ≤ (v.floor : ℚ) ↔ (z : ℚ) ≤ v
  rw [Int.cast_le, Rat.le_floor_iff]

theorem ceil_le_intCast {z : ℤ} {v : ℚ} : Scalar.ceil v ≤ (z : ℚ) ↔ v ≤ (z : ℚ) := by
  show (v.ceil : ℚ) ≤ (z : ℚ) ↔ v ≤ (z : ℚ)
  rw [Int.cast_le, Rat.ceil_le_iff]

/-- The integers among the rationals. -/
def integers : Subring ℚ := (Int.castRingHom ℚ).range

theorem mem_integers {v : ℚ} : v ∈ integers ↔ ∃ z : ℤ, v = z := by
  rw [integers, RingHom.mem_range]
  exact exists_congr fun z => eq_comm

theorem intCast_mem_integers (z : ℤ) : (z : ℚ) ∈ integers := mem_integers.mpr ⟨z, rfl⟩

/-- Without tolerance, the fractional part is that of the library. -/
theorem fractionalPart_zero (v : ℚ) : Scalar.fractionalPart v 0 = Int.fract v := by
  unfold Scalar.fractionalPart
  split_ifs with h
  · obtain ⟨z, rfl⟩ := exists_int_of_isIntegral h
    exact (Int.fract_intCast z).symm
  · rfl

theorem mem_integers_of_fract_nonpos {v : ℚ} (h : Int.fract v ≤ 0) : v ∈ integers := by
  have hzero : Int.fract v = 0 := h.antisymm (Int.fract_nonneg v)
  rw [Int.fract_eq_iff] at hzero
  obtain ⟨-, -, z, hz⟩ := hzero
  rw [sub_zero] at hz
  exact hz ▸ intCast_mem_integers z

theorem maximum_eq (a b : ℚ) : Scalar.maximum a b = max a b := by
  simp only [Scalar.maximum, beq_self_eq_true, ite_true]
  split_ifs with h
  · exact (max_eq_left h.le).symm
  · exact (max_eq_right (not_lt.mp h)).symm

/-! ### First minimum -/

/-- One step of the search for a minimum: the later candidate is taken only if it is smaller by more than the
tolerance. -/
def keepSmaller (ε : ℚ) (best : Option (ℕ × ℚ)) (candidate : ℕ × ℚ) : Option (ℕ × ℚ) :=
  match best with
  | none => some candidate
  | some least => if least.2 - ε ≤ candidate.2 then some least else some candidate

theorem firstMinimum_eq (candidates : List (ℕ × ℚ)) (ε : ℚ) :
    Scalar.firstMinimum candidates ε = candidates.foldl (keepSmaller ε) none := by
  unfold Scalar.firstMinimum
  congr 1
  funext best candidate
  cases best with
  | none => rfl
  | some least => simp only [keepSmaller]

/-- The candidate has the least value up to the tolerance, and the candidates listed before it have larger values. -/
structure IsFirstMinimum (candidates : List (ℕ × ℚ)) (ε : ℚ) (least : ℕ × ℚ) : Prop where
  le : ∀ c ∈ candidates, least.2 ≤ c.2 + ε
  earlier : ∃ before after, candidates = before ++ least :: after ∧ ∀ c ∈ before, least.2 < c.2

theorem isFirstMinimum_singleton {ε : ℚ} (hε : 0 ≤ ε) (c : ℕ × ℚ) : IsFirstMinimum [c] ε c := by
  refine ⟨fun d hd => ?_, [], [], rfl, by simp⟩
  rw [List.mem_singleton.mp hd]
  linarith

/-- The comparison is not transitive, but a candidate that is taken is below the one before it by more than the
tolerance, which makes up for what that one exceeds the others by. -/
theorem IsFirstMinimum.append {candidates : List (ℕ × ℚ)} {ε : ℚ} {least : ℕ × ℚ}
    (h : IsFirstMinimum candidates ε least) (hε : 0 ≤ ε) (c : ℕ × ℚ) :
    IsFirstMinimum (candidates ++ [c]) ε (if least.2 - ε ≤ c.2 then least else c) := by
  split_ifs with hkeep
  · obtain ⟨before, after, hsplit, hbefore⟩ := h.earlier
    refine ⟨fun d hd => ?_, before, after ++ [c], by simp [hsplit], hbefore⟩
    rcases List.mem_append.mp hd with hd | hd
    · exact h.le d hd
    · rw [List.mem_singleton.mp hd]
      linarith
  · have hbelow : ∀ d ∈ candidates, c.2 < d.2 := by
      intro d hd
      have hle := h.le d hd
      linarith
    refine ⟨fun d hd => ?_, candidates, [], rfl, hbelow⟩
    rcases List.mem_append.mp hd with hd | hd
    · have hlt := hbelow d hd
      linarith
    · rw [List.mem_singleton.mp hd]
      linarith

theorem exists_firstMinimum {candidates : List (ℕ × ℚ)} {ε : ℚ} (hε : 0 ≤ ε) (h : candidates ≠ []) :
    ∃ least, Scalar.firstMinimum candidates ε = some least ∧ IsFirstMinimum candidates ε least := by
  induction candidates using List.reverseRecOn with
  | nil => exact absurd rfl h
  | append_singleton earlier c ih =>
    rw [firstMinimum_eq, List.foldl_append, ← firstMinimum_eq]
    by_cases hnil : earlier = []
    · subst hnil
      exact ⟨c, rfl, isFirstMinimum_singleton hε c⟩
    · obtain ⟨least, hfound, hleast⟩ := ih hnil
      refine ⟨_, ?_, hleast.append hε c⟩
      rw [hfound, List.foldl_cons, List.foldl_nil, keepSmaller, apply_ite some]

theorem firstMinimum_eq_none_iff (candidates : List (ℕ × ℚ)) (ε : ℚ) :
    Scalar.firstMinimum candidates ε = none ↔ candidates = [] := by
  cases candidates with
  | nil => simp [firstMinimum_eq]
  | cons c rest =>
    have hsome : ∀ (l : List (ℕ × ℚ)) (b : ℕ × ℚ), l.foldl (keepSmaller ε) (some b) ≠ none := by
      intro l
      induction l with
      | nil => simp
      | cons d l ih =>
        intro b
        rw [List.foldl_cons, keepSmaller]
        split_ifs
        · exact ih b
        · exact ih d
    simp only [firstMinimum_eq, List.foldl_cons, keepSmaller, reduceCtorEq, iff_false]
    exact hsome rest c

/-- The candidate that is chosen is one of the candidates, whatever the scalars are. -/
theorem firstMinimum_mem {α : Type} [Scalar α] {candidates : List (ℕ × α)} {ε : α} {least : ℕ × α}
    (h : Scalar.firstMinimum candidates ε = some least) : least ∈ candidates := by
  have hmem : ∀ found, Scalar.firstMinimum candidates ε = some found → found ∈ candidates := by
    refine List.foldlRecOn (motive := fun best => ∀ found, best = some found → found ∈ candidates) candidates _
      (by simp) fun best hbest candidate hcandidate found hfound => ?_
    cases best with
    | none =>
      obtain rfl := Option.some.inj hfound
      exact hcandidate
    | some earlier =>
      simp only at hfound
      split_ifs at hfound
      · exact hbest found hfound
      · obtain rfl := Option.some.inj hfound
        exact hcandidate
  exact hmem least h

theorem firstMinimum_le {candidates : List (ℕ × ℚ)} {ε : ℚ} (hε : 0 ≤ ε) {least : ℕ × ℚ}
    (h : Scalar.firstMinimum candidates ε = some least) : ∀ c ∈ candidates, least.2 ≤ c.2 + ε := by
  have hne : candidates ≠ [] := List.ne_nil_of_mem (firstMinimum_mem h)
  obtain ⟨found, hfound, hminimum⟩ := exists_firstMinimum hε hne
  obtain rfl := Option.some.inj (hfound.symm.trans h)
  exact hminimum.le

end LinearProgramming.Scalar
