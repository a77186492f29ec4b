import LinearProgramming.Proofs.Knapsack.Relaxation

/-! # What the relaxation of a node answers

A node has no solution exactly if the items that are fixed inside exceed the capacity (`Knapsack.infeasible_iff`).
Otherwise the rows describe an optimal solution of its linear relaxation (`Knapsack.Optimal`), and the answer is integral
exactly if none of the items is taken in part: the item at which a fractional filling stops is taken at an amount
strictly between zero and one (`Fills.exists_part`), and all the others are taken whole or not at all. -/

namespace LinearProgramming

namespace Knapsack

variable {k : Knapsack ℚ} {f g : Filling ℚ} {r : Relaxation ℚ} {items : List ℕ} {item : ℕ} {rows : List (FillRow ℚ)}
  {fixed : List (Option Bool)} {value : ℚ}

/-! ### Infeasible nodes -/

def fixedWeight (k : Knapsack ℚ) (fixed : List (Option Bool)) : ℚ :=
  ((fixedItems fixed).map fun p => if p.2 then k.weightOf p.1 else 0).sum

theorem remainder_fillFixed (k : Knapsack ℚ) (fixed : List (Option Bool)) :
    (k.fillFixed fixed).remainder = k.capacity - k.fixedWeight fixed := by
  have hweight : ((k.fillFixed fixed).rows.map fun row => k.weightOf row.item * row.amount).sum = k.fixedWeight fixed := by
    simp only [map_mul_rows_fillFixed, mul_ite, mul_one, mul_zero, fixedWeight]
  rw [(k.tallies_fillFixed fixed).capacity_eq, hweight, add_sub_cancel_right]

theorem infeasible_iff (k : Knapsack ℚ) (fixed : List (Option Bool)) :
    (k.relax k.ranking fixed 0).2 = .infeasible ↔ k.capacity < k.fixedWeight fixed := by
  rw [← sub_neg, ← remainder_fillFixed]
  rcases k.relax_cases fixed with ⟨hneg, hrelax⟩ | ⟨hnonneg, g, r, hfills, hrelax⟩
  · rw [hrelax]
    exact ⟨fun _ => hneg, fun _ => rfl⟩
  · have hvalue := hfills.value?_eq
    rw [hrelax]
    refine ⟨?_, fun hneg => absurd hneg (not_lt.mpr hnonneg)⟩
    rintro rfl
    cases hvalue

/-! ### Integral and fractional nodes -/

theorem Fills.exists_part (h : Fills k items f g r) (hr : r = .fractional value item) :
    ∃ row ∈ g.rows, row.item = item ∧ 0 < row.amount ∧ row.amount < 1 := by
  induction h with
  | done => cases hr
  | whole _ _ ih => exact ih hr
  | @part _ rest f hpos hexceeds =>
    cases hr
    have hweight := hpos.trans hexceeds
    refine ⟨⟨item, f.remainder / k.weightOf item, 0⟩, by simp [Filling.take], rfl, div_pos hpos hweight, ?_⟩
    exact (div_lt_one hweight).mpr hexceeds
  | full _ _ => cases hr

theorem Fills.integral_iff (h : Fills k (k.freeItems fixed) (k.fillFixed fixed) g r) :
    (∃ value, r = .integral value) ↔ ∀ row ∈ g.rows, row.amount = 0 ∨ row.amount = 1 := by
  refine ⟨fun hr row hrow => (h.mem_amounts hrow).2 hr, fun hamounts => ?_⟩
  have hvalue := h.value?_eq
  cases r with
  | infeasible => cases hvalue
  | integral value => exact ⟨value, rfl⟩
  | fractional value item =>
    -- the item at which the filling stopped is neither inside nor outside
    obtain ⟨row, hrow, -, hpos, hlt⟩ := h.exists_part rfl
    rcases hamounts row hrow with hzero | hone
    · exact absurd hzero hpos.ne'
    · exact absurd hone hlt.ne

/-- The rows of a node describe a solution of its linear relaxation, and none has a larger value. -/
structure Optimal (k : Knapsack ℚ) (fixed : List (Option Bool)) (rows : List (FillRow ℚ)) (value : ℚ) : Prop where
  amount_bounds : ∀ row ∈ rows, 0 ≤ row.amount ∧ row.amount ≤ 1
  getD_point : ∀ row ∈ rows, (k.point rows).getD row.item 0 = row.amount
  admits : k.Admits fixed (k.point rows)
  value_eq : value = Scalar.dot k.values (k.point rows)
  le_value : ∀ x, k.Admits fixed x → Scalar.dot k.values x ≤ value

theorem Fills.optimal (h : Fills k (k.freeItems fixed) (k.fillFixed fixed) g r) (hk : k.Valid)
    (hfixed : fixed.length = k.nrItems) (hrelax : k.relax k.ranking fixed 0 = (g.rows, r)) :
    k.Optimal fixed g.rows g.value := by
  have hexact := exact_relax hk hfixed
  simp only [hrelax, Exact, h.value?_eq] at hexact
  obtain ⟨hadmits, hvalue, hle⟩ := hexact
  obtain ⟨hnodup, hlt⟩ := h.nodup_items hk hfixed
  exact ⟨fun row hrow => (h.mem_amounts hrow).1, fun row hrow => getD_point_of_mem hnodup hrow (hlt row hrow), hadmits,
    hvalue.symm, hle⟩

end Knapsack

namespace Model

/-- For every model that is a knapsack problem, and every way to fix some of its variables. -/
theorem optimal_relax {direction : Direction} {cost : List ℚ} {rows : List (List ℚ)} {relations : List Relation}
    {rhs : List ℚ} {domains : List VariableDomain} {m : Model ℚ} {k : Knapsack ℚ} {fixed : List (Option Bool)}
    (hm : ofData direction cost rows relations rhs domains = .ok m) (hk : Knapsack.ofModel m = .ok k)
    (hfixed : fixed.length = m.nrVariables) :
    k.values = m.cost ∧ m.constraints = [⟨k.weights, .less, k.capacity⟩] ∧
    ∃ filled r, k.relax k.ranking fixed 0 = (filled, r) ∧
      (r = .infeasible ↔ k.capacity < k.fixedWeight fixed) ∧
      (k.fixedWeight fixed ≤ k.capacity →
        (∃ value, r.value? = some value ∧ k.Optimal fixed filled value) ∧
        ((∃ value, r = .integral value) ↔ ∀ row ∈ filled, row.amount = 0 ∨ row.amount = 1)) ∧
      ∀ value item, r = .fractional value item → item < m.nrVariables ∧ fixed.getD item none = none := by
  have hvalid := Knapsack.valid_of_ofModel (valid_of_ofData hm) hk
  obtain ⟨-, hconstraints, hvalues, -, -⟩ := Knapsack.ofModel_eq_ok hk
  have hitems : k.nrItems = m.nrVariables := congrArg List.length hvalues
  rw [← hitems] at hfixed ⊢
  refine ⟨hvalues, hconstraints, (k.relax k.ranking fixed 0).1, (k.relax k.ranking fixed 0).2, rfl,
    k.infeasible_iff fixed, fun hfits => ?_, fun value item hr => ?_⟩
  · rcases k.relax_cases fixed with ⟨hneg, -⟩ | ⟨-, g, r, hfills, hrelax⟩
    · rw [Knapsack.remainder_fillFixed] at hneg
      exact absurd hfits (not_le.mpr (sub_neg.mp hneg))
    · rw [hrelax]
      exact ⟨⟨g.value, hfills.value?_eq, hfills.optimal hvalid hfixed hrelax⟩, hfills.integral_iff⟩
  · exact (Knapsack.free_of_fractional (Prod.ext rfl hr)).symm

/-- The second item is of no value, and the last one has no weight. -/
def hamperModel : Model ℚ where
  direction := .maximize
  cost := [4, 0, 6, 5, 3]
  domains := List.replicate 5 .binary
  constraints := [⟨[2, 2, 3, 4, 0], .less, 6⟩]

def hamper : Knapsack ℚ := ⟨[4, 0, 6, 5, 3], [2, 2, 3, 4, 0], 6⟩

/-- The item without value is inside, and two thirds of the third item are left for the capacity. -/
def hamperFixed : List (Option Bool) := [none, some true, none, some false, none]

theorem optimal_relax_hamperModel :
    ofData .maximize [4, 0, 6, 5, 3] [[2, 2, 3, 4, 0]] [.less] [6] (List.replicate 5 .binary) = .ok hamperModel ∧
    Knapsack.ofModel hamperModel = .ok hamper ∧ hamperFixed.length = hamperModel.nrVariables ∧
    ∃ filled, hamper.relax hamper.ranking hamperFixed 0 = (filled, .fractional 11 2) ∧
      hamper.Optimal hamperFixed filled 11 ∧ (¬∀ row ∈ filled, row.amount = 0 ∨ row.amount = 1) ∧
      2 < hamperModel.nrVariables ∧ hamperFixed.getD 2 none = none := by
  have hm : ofData .maximize [4, 0, 6, 5, 3] [[2, 2, 3, 4, 0]] [.less] [6] (List.replicate 5 .binary) =
      .ok hamperModel := by decide +kernel
  have hk : Knapsack.ofModel hamperModel = .ok hamper := by decide +kernel
  have hfixed : hamperFixed.length = hamperModel.nrVariables := rfl
  refine ⟨hm, hk, hfixed, ?_⟩
  obtain ⟨-, -, filled, r, hrelax, -, hfits, hfree⟩ := optimal_relax hm hk hfixed
  have hr : (hamper.relax hamper.ranking hamperFixed 0).2 = .fractional 11 2 := by decide +kernel
  obtain rfl : r = .fractional 11 2 := (congrArg Prod.snd hrelax).symm.trans hr
  obtain ⟨⟨value, hvalue, hoptimal⟩, hintegral⟩ := hfits (by decide +kernel)
  obtain rfl : 11 = value := Option.some.inj hvalue
  refine ⟨filled, hrelax, hoptimal, fun hamounts => ?_, hfree 11 2 rfl⟩
  obtain ⟨value, hvalue⟩ := hintegral.mpr hamounts
  cases hvalue

end Model

end LinearProgramming
