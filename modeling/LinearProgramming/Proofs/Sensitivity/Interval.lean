import Mathlib.Data.Multiset.Fold
import LinearProgramming.Proofs.Scalar.Exact
import LinearProgramming.Sensitivity.Interval

/-! # The interval of a list of conditions

An interval that is made from conditions contains exactly the changes that satisfy each of them whose coefficient is not
zero up to the tolerance (`Interval.contains_ofConditions_iff`). Intersection is commutative, associative and idempotent,
so the order of the conditions and how often each is listed do not matter (`Interval.ofConditions_congr`). The conditions
may contradict each other: the bounds of the interval are then in the wrong order
(`Interval.exists_contains_or_crossed`). -/

namespace LinearProgramming

variable {s t : Interval ℚ} {c : Condition ℚ} {conditions : List (Condition ℚ)} {delta ε : ℚ}

theorem Scalar.minimum_eq (a b : ℚ) : Scalar.minimum a b = min a b := by
  simp only [Scalar.minimum, beq_self_eq_true, ite_true]
  split_ifs with h
  · exact (min_eq_left h.le).symm
  · exact (min_eq_right (not_lt.mp h)).symm

namespace Interval

theorem contains_iff : s.contains delta 0 = true ↔ (∀ v ∈ s.lower, v ≤ delta) ∧ ∀ v ∈ s.upper, delta ≤ v := by
  simp only [contains, Bool.and_eq_true, Option.all_eq_true, decide_eq_true_iff, sub_zero, add_zero]
  rfl

theorem le_tighter_maximum {a b : Option ℚ} :
    (∀ v ∈ tighter Scalar.maximum a b, v ≤ delta) ↔ (∀ v ∈ a, v ≤ delta) ∧ ∀ v ∈ b, v ≤ delta := by
  cases a with
  | none => simp [tighter]
  | some a =>
    cases b with
    | none => simp [tighter]
    | some b => simp [tighter, Scalar.maximum_eq]

theorem tighter_minimum_le {a b : Option ℚ} :
    (∀ v ∈ tighter Scalar.minimum a b, delta ≤ v) ↔ (∀ v ∈ a, delta ≤ v) ∧ ∀ v ∈ b, delta ≤ v := by
  cases a with
  | none => simp [tighter]
  | some a =>
    cases b with
    | none => simp [tighter]
    | some b => simp [tighter, Scalar.minimum_eq]

theorem contains_intersect :
    (s.intersect t).contains delta 0 = true ↔ s.contains delta 0 = true ∧ t.contains delta 0 = true := by
  rw [contains_iff, contains_iff, contains_iff, intersect, le_tighter_maximum, tighter_minimum_le]
  exact and_and_and_comm

theorem contains_foldl_intersect (intervals : List (Interval ℚ)) (s : Interval ℚ) :
    (intervals.foldl intersect s).contains delta 0 = true ↔
      s.contains delta 0 = true ∧ ∀ t ∈ intervals, t.contains delta 0 = true := by
  induction intervals generalizing s with
  | nil => simp
  | cons t intervals ih => rw [List.foldl_cons, ih, contains_intersect, List.forall_mem_cons, and_assoc]

end Interval

namespace Condition

theorem holds_iff : c.holds delta 0 = true ↔ 0 ≤ c.constant + c.coefficient * delta := by
  rw [holds, Bool.not_eq_true', Bool.eq_false_iff, ne_eq, Scalar.isNegative_iff, neg_zero, not_lt]

theorem contains_interval_iff (hε : 0 ≤ ε) :
    (c.interval ε).contains delta 0 = true ↔ (ε < |c.coefficient| → c.holds delta 0 = true) := by
  simp only [interval, Scalar.isPositive_iff, Scalar.isNegative_iff, holds_iff]
  split_ifs with hpos hneg
  · have hcoefficient : 0 < c.coefficient := hε.trans_lt hpos
    simp only [Interval.contains_iff, Option.mem_some_iff, forall_eq', Option.not_mem_none, false_implies,
      implies_true, and_true, lt_abs, hpos, true_or, true_implies, div_le_iff₀ hcoefficient]
    constructor
    · intro h
      linarith
    · intro h
      linarith
  · have hcoefficient : c.coefficient < 0 := by linarith
    simp only [Interval.contains_iff, Option.mem_some_iff, forall_eq', Option.not_mem_none, false_implies,
      implies_true, true_and, lt_abs, lt_neg.mp hneg, or_true, true_implies, le_div_iff_of_neg hcoefficient]
    constructor
    · intro h
      linarith
    · intro h
      linarith
  · have hle : ¬ε < |c.coefficient| := by
      rw [lt_abs, not_or, lt_neg]
      exact ⟨hpos, hneg⟩
    simp [Interval.contains_iff, Interval.unrestricted, hle]

end Condition

theorem Interval.contains_ofConditions_iff (hε : 0 ≤ ε) :
    (ofConditions conditions ε).contains delta 0 = true ↔
      ∀ c ∈ conditions, ε < |c.coefficient| → c.holds delta 0 = true := by
  rw [ofConditions, contains_foldl_intersect, List.forall_mem_map]
  have hall : (unrestricted : Interval ℚ).contains delta 0 = true := rfl
  simp only [hall, true_and, Condition.contains_interval_iff hε]

namespace Interval

/-! ### Order and repetition -/

theorem tighter_eq_merge (choose : ℚ → ℚ → ℚ) : tighter choose = Option.merge choose := by
  funext a b
  cases a with
  | none => cases b <;> rfl
  | some a => cases b <;> rfl

theorem intersect_eq (s t : Interval ℚ) :
    s.intersect t = ⟨Option.merge max s.lower t.lower, Option.merge min s.upper t.upper⟩ := by
  have hmax : (Scalar.maximum : ℚ → ℚ → ℚ) = max := funext₂ Scalar.maximum_eq
  have hmin : (Scalar.minimum : ℚ → ℚ → ℚ) = min := funext₂ Scalar.minimum_eq
  rw [intersect, tighter_eq_merge, tighter_eq_merge, hmax, hmin]

instance commutative_intersect : Std.Commutative (intersect (α := ℚ)) where
  comm s t := by
    rw [intersect_eq, intersect_eq, (Option.commutative_merge max).comm, (Option.commutative_merge min).comm]

instance associative_intersect : Std.Associative (intersect (α := ℚ)) where
  assoc s t u := by
    simp only [intersect_eq, (Option.associative_merge max).assoc, (Option.associative_merge min).assoc]

instance idempotentOp_intersect : Std.IdempotentOp (intersect (α := ℚ)) where
  idempotent s := by
    rw [intersect_eq, (Option.idempotentOp_merge max).idempotent, (Option.idempotentOp_merge min).idempotent]

theorem foldl_intersect_congr {intervals others : List (Interval ℚ)} (h : ∀ s, s ∈ others ↔ s ∈ intervals)
    (start : Interval ℚ) : others.foldl intersect start = intervals.foldl intersect start := by
  have hdedup : (others : Multiset (Interval ℚ)).dedup = (intervals : Multiset (Interval ℚ)).dedup :=
    Multiset.dedup_ext.mpr h
  rw [← Multiset.coe_fold_l, ← Multiset.coe_fold_l, ← Multiset.fold_dedup_idem, hdedup, Multiset.fold_dedup_idem]

theorem ofConditions_congr {others : List (Condition ℚ)} (h : ∀ c, c ∈ others ↔ c ∈ conditions) (ε : ℚ) :
    ofConditions others ε = ofConditions conditions ε := by
  refine foldl_intersect_congr (fun s => ?_) unrestricted
  simp only [List.mem_map, h]

/-! ### Contradictory conditions -/

theorem exists_contains_or_crossed (s : Interval ℚ) :
    (∃ delta, s.contains delta 0 = true) ∨ ∃ low high, s = ⟨some low, some high⟩ ∧ high < low := by
  obtain ⟨lower, upper⟩ := s
  simp only [contains_iff]
  cases lower with
  | none =>
    cases upper with
    | none => exact Or.inl ⟨0, by simp, by simp⟩
    | some high => exact Or.inl ⟨high, by simp, by simp⟩
  | some low =>
    cases upper with
    | none => exact Or.inl ⟨low, by simp, by simp⟩
    | some high =>
      rcases le_or_gt low high with hle | hlt
      · exact Or.inl ⟨low, by simp, by simpa using hle⟩
      · exact Or.inr ⟨low, high, rfl, hlt⟩

/-- The interval of any list of conditions. It contains a change if and only if the change satisfies all conditions that
restrict it, depends only on which conditions are listed, and is empty, with its bounds in the wrong order, if no change
satisfies them all. -/
theorem ofConditions_exact (hε : 0 ≤ ε) (conditions : List (Condition ℚ)) :
    (∀ delta, (ofConditions conditions ε).contains delta 0 = true ↔
      ∀ c ∈ conditions, ε < |c.coefficient| → c.holds delta 0 = true) ∧
    (∀ others, (∀ c, c ∈ others ↔ c ∈ conditions) → ofConditions others ε = ofConditions conditions ε) ∧
    ((∀ delta, ∃ c ∈ conditions, ε < |c.coefficient| ∧ c.holds delta 0 = false) →
      (∀ delta, (ofConditions conditions ε).contains delta 0 = false) ∧
      ∃ low high, ofConditions conditions ε = ⟨some low, some high⟩ ∧ high < low) := by
  refine ⟨fun delta => contains_ofConditions_iff hε, fun others hsame => ofConditions_congr hsame ε, fun hcontra => ?_⟩
  have hempty : ∀ delta, (ofConditions conditions ε).contains delta 0 = false := by
    intro delta
    obtain ⟨c, hc, hcoefficient, hfails⟩ := hcontra delta
    rw [Bool.eq_false_iff]
    intro hcontains
    have hholds := (contains_ofConditions_iff hε).mp hcontains c hc hcoefficient
    rw [hfails] at hholds
    cases hholds
  refine ⟨hempty, ?_⟩
  obtain ⟨delta, hcontains⟩ | hcrossed := exists_contains_or_crossed (ofConditions conditions ε)
  · rw [hempty delta] at hcontains
    cases hcontains
  · exact hcrossed

/-- The first two conditions ask for `3 ≤ Δ` and `Δ ≤ 2`. The third one is within the tolerance of not restricting `Δ`. -/
def opposedConditions : List (Condition ℚ) := [⟨-3, 1⟩, ⟨2, -1⟩, ⟨-5, 1 / 20⟩, ⟨4, 2⟩]

theorem ofConditions_exact_opposedConditions :
    (0 : ℚ) ≤ 1 / 10 ∧
    ofConditions [⟨4, 2⟩, ⟨2, -1⟩, ⟨-3, 1⟩, ⟨-5, 1 / 20⟩, ⟨2, -1⟩, ⟨-3, 1⟩] (1 / 10) =
      ofConditions opposedConditions (1 / 10) ∧
    (∀ delta, ∃ c ∈ opposedConditions, 1 / 10 < |c.coefficient| ∧ c.holds delta 0 = false) ∧
    (∀ delta, (ofConditions opposedConditions (1 / 10)).contains delta 0 = false) ∧
    ∃ low high, ofConditions opposedConditions (1 / 10) = ⟨some low, some high⟩ ∧ high < low := by
  have hε : (0 : ℚ) ≤ 1 / 10 := by norm_num
  have hcontra : ∀ delta, ∃ c ∈ opposedConditions, 1 / 10 < |c.coefficient| ∧ c.holds delta 0 = false := by
    intro delta
    rcases lt_or_ge delta 3 with hlt | hge
    · refine ⟨⟨-3, 1⟩, by simp [opposedConditions], by norm_num, ?_⟩
      rw [Bool.eq_false_iff, ne_eq, Condition.holds_iff]
      linarith
    · refine ⟨⟨2, -1⟩, by simp [opposedConditions], by norm_num, ?_⟩
      rw [Bool.eq_false_iff, ne_eq, Condition.holds_iff]
      linarith
  obtain ⟨-, hsame, hempty⟩ := ofConditions_exact hε opposedConditions
  refine ⟨hε, hsame _ fun c => ?_, hcontra, hempty hcontra⟩
  simp only [opposedConditions, List.mem_cons, List.not_mem_nil, or_false]
  tauto

end Interval

end LinearProgramming
