import LinearProgramming.Proofs.Model.Meaning
import LinearProgramming.Knapsack.Search

/-! # Greedy filling solves the relaxation

The items of a node are the fixed ones and the free ones, which are filled in by decreasing density (`Knapsack.Fills`).
The filling comes with a price for the capacity: the density of the item that is taken in part, or zero. Every item
taken whole is worth its weight at that price, and no item left out is worth more (`Fills.exists_price`). So no point of
the node, fractions allowed, has a larger value than the point that the rows of the relaxation describe
(`Knapsack.exact_relax`). -/

namespace LinearProgramming

namespace Knapsack

variable {α : Type} [Scalar α] {k : Knapsack ℚ} {f g : Filling ℚ} {r : Relaxation ℚ} {items rest : List ℕ} {item : ℕ}
  {rows : List (FillRow ℚ)} {fixed : List (Option Bool)} {x : List ℚ}

/-- What `Knapsack.ofModel` checks. -/
structure Valid (k : Knapsack ℚ) : Prop where
  length_weights : k.weights.length = k.nrItems
  valueOf_nonneg : ∀ i, 0 ≤ k.valueOf i
  weightOf_nonneg : ∀ i, 0 ≤ k.weightOf i

theorem getD_nonneg {xs : List ℚ} (h : ∀ v ∈ xs, 0 ≤ v) (i : ℕ) : 0 ≤ xs.getD i 0 := by
  rw [List.getD_eq_getElem?_getD]
  cases hi : xs[i]? with
  | none => exact le_rfl
  | some v => exact h v (List.mem_of_getElem? hi)

/-- The problem that is read off a model consists of its costs and of its only constraint. -/
theorem ofModel_eq_ok {m : Model α} {k : Knapsack α} (h : ofModel m = .ok k) :
    m.direction = .maximize ∧ m.constraints = [⟨k.weights, .less, k.capacity⟩] ∧ k.values = m.cost ∧
      (∀ d ∈ m.domains, d = .binary) ∧ ∀ v ∈ k.values ++ k.weights, ¬v < 0 := by
  unfold ofModel at h
  split at h
  · cases h
  · rename_i hdirection
    split at h
    · rename_i weights capacity hconstraints
      split_ifs at h with hdomains hnegative
      obtain rfl := Except.ok.inj h
      refine ⟨not_not.mp hdirection, hconstraints, rfl, ?_, ?_⟩
      · simpa using hdomains
      · simpa [or_imp, forall_and] using hnegative
    · cases h

theorem valid_of_ofModel {m : Model ℚ} (hm : m.Valid) (h : ofModel m = .ok k) : k.Valid := by
  obtain ⟨-, hconstraints, hvalues, -, hnonneg⟩ := ofModel_eq_ok h
  refine ⟨?_, getD_nonneg fun v hv => not_lt.mp (hnonneg v (List.mem_append_left _ hv)),
    getD_nonneg fun v hv => not_lt.mp (hnonneg v (List.mem_append_right _ hv))⟩
  have hlen := hm.length_coefficients ⟨k.weights, .less, k.capacity⟩ (by simp [hconstraints])
  rw [nrItems, hvalues]
  exact hlen

/-! ### Totals over items -/

/-- Total of the items, each taken in its amount. -/
def total (coefficient : ℕ → ℚ) (items : List ℕ) (x : ℕ → ℚ) : ℚ := (items.map fun i => coefficient i * x i).sum

theorem total_perm {c x : ℕ → ℚ} {items others : List ℕ} (h : items.Perm others) : total c items x = total c others x :=
  (h.map _).sum_eq

theorem total_append (c x : ℕ → ℚ) (items others : List ℕ) :
    total c (items ++ others) x = total c items x + total c others x := by
  simp [total]

theorem total_nonneg {c x : ℕ → ℚ} (hc : ∀ i, 0 ≤ c i) (hx : ∀ i, 0 ≤ x i) (items : List ℕ) : 0 ≤ total c items x := by
  refine List.sum_nonneg fun v hv => ?_
  obtain ⟨i, -, rfl⟩ := List.mem_map.mp hv
  exact mul_nonneg (hc i) (hx i)

theorem dot_eq_total (c x : List ℚ) (n : ℕ) (h : c.length ≤ n) :
    Scalar.dot c x = total (c.getD · 0) (List.range n) (x.getD · 0) := by
  rw [Scalar.dot_eq_sum_range c x n (by omega)]
  rfl

/-! ### The ranking -/

/-- The first item has at least the density of the second. Without weight, an item is denser than any other. -/
def AsDense (k : Knapsack ℚ) (i j : ℕ) : Prop := k.valueOf j * k.weightOf i ≤ k.valueOf i * k.weightOf j

theorem perm_insertByDensity (y : Density α × ℕ) (l : List (Density α × ℕ)) : (insertByDensity y l).Perm (y :: l) := by
  induction l with
  | nil => exact List.Perm.refl _
  | cons z rest ih =>
    unfold insertByDensity
    split_ifs
    · exact List.Perm.refl _
    · exact (ih.cons z).trans (List.Perm.swap y z rest)

theorem isLess_eq_false_of_isLess {a b c : Density ℚ} (hab : a.isLess b = true) (hac : a.isLess c = false) :
    b.isLess c = false := by
  cases a <;> cases b <;> cases c <;> simp_all [Density.isLess, Scalar.isFinite]
  exact hac.trans hab.le

theorem isLess_asymm {a b : Density ℚ} (h : a.isLess b = true) : b.isLess a = false := by
  refine isLess_eq_false_of_isLess h ?_
  cases a <;> simp [Density.isLess]

theorem pairwise_insertByDensity {l : List (Density ℚ × ℕ)} (h : l.Pairwise fun a b => a.1.isLess b.1 = false)
    (y : Density ℚ × ℕ) : (insertByDensity y l).Pairwise fun a b => a.1.isLess b.1 = false := by
  induction l with
  | nil => exact List.pairwise_singleton _ _
  | cons z rest ih =>
    obtain ⟨hz, hrest⟩ := List.pairwise_cons.mp h
    unfold insertByDensity
    split_ifs with hless
    · refine List.pairwise_cons.mpr ⟨fun a ha => ?_, h⟩
      rcases List.mem_cons.mp ha with rfl | ha
      · exact isLess_asymm hless
      · exact isLess_eq_false_of_isLess hless (hz a ha)
    · refine List.pairwise_cons.mpr ⟨fun a ha => ?_, ih hrest⟩
      rcases List.mem_cons.mp ((perm_insertByDensity y rest).mem_iff.mp ha) with rfl | ha
      · simpa using hless
      · exact hz a ha

def ranked (k : Knapsack α) : List (Density α × ℕ) :=
  (List.zipWith Density.ofItem k.values k.weights).zipIdx.foldl (fun sorted y => insertByDensity y sorted) []

theorem items_ranking (k : Knapsack α) : k.ranking.map (·.item) = k.ranked.map (·.2) := by
  refine List.ext_getElem (by simp [ranking, ranked]) fun i hi hi' => ?_
  simp [ranking, ranked]

theorem perm_ranked (k : Knapsack α) : k.ranked.Perm (List.zipWith Density.ofItem k.values k.weights).zipIdx := by
  have hfold : ∀ l sorted : List (Density α × ℕ),
      (l.foldl (fun sorted y => insertByDensity y sorted) sorted).Perm (l ++ sorted) := by
    intro l
    induction l with
    | nil => exact fun sorted => List.Perm.refl _
    | cons y l ih =>
      intro sorted
      exact (ih _).trans (((perm_insertByDensity y sorted).append_left l).trans List.perm_middle)
  simpa [ranked] using hfold (List.zipWith Density.ofItem k.values k.weights).zipIdx []

theorem lt_of_mem_items_ranking {k : Knapsack α} (h : item ∈ k.ranking.map (·.item)) : item < k.nrItems := by
  rw [items_ranking] at h
  obtain ⟨y, hy, rfl⟩ := List.mem_map.mp h
  have hlt := (List.mem_zipIdx' (k.perm_ranked.mem_iff.mp hy)).1
  rw [List.length_zipWith] at hlt
  exact hlt.trans_le (min_le_left _ _)

theorem pairwise_ranked (k : Knapsack ℚ) : k.ranked.Pairwise fun a b => a.1.isLess b.1 = false :=
  List.foldlRecOn _ _ List.Pairwise.nil fun _ h y _ => pairwise_insertByDensity h y

theorem perm_items_ranking (hk : k.Valid) : (k.ranking.map (·.item)).Perm (List.range k.nrItems) := by
  have hlen : (List.zipWith Density.ofItem k.values k.weights).length = k.nrItems := by
    rw [List.length_zipWith, hk.length_weights, nrItems, min_self]
  rw [items_ranking, ← hlen]
  refine (k.perm_ranked.map _).trans (List.Perm.of_eq ?_)
  rw [List.zipIdx_eq_zip_range', List.map_snd_zip (by simp), List.range_eq_range']

theorem eq_ofItem_of_mem_ranked {y : Density ℚ × ℕ} (hy : y ∈ k.ranked) :
    y.1 = .ofItem (k.valueOf y.2) (k.weightOf y.2) := by
  have hget := List.mem_zipIdx_iff_getElem?.mp (k.perm_ranked.mem_iff.mp hy)
  rw [List.getElem?_zipWith] at hget
  cases hv : k.values[y.2]? with
  | none => simp [hv] at hget
  | some v =>
    cases hw : k.weights[y.2]? with
    | none => simp [hv, hw] at hget
    | some w =>
      simp only [hv, hw, Option.some.injEq] at hget
      rw [← hget, valueOf, weightOf, List.getD_eq_getElem?_getD, List.getD_eq_getElem?_getD, hv, hw]
      rfl

theorem asDense_of_isLess_eq_false (hk : k.Valid) {i j : ℕ}
    (h : (Density.ofItem (k.valueOf i) (k.weightOf i)).isLess (.ofItem (k.valueOf j) (k.weightOf j)) = false) :
    k.AsDense i j := by
  unfold AsDense
  have hvi := hk.valueOf_nonneg i
  have hwi := hk.weightOf_nonneg i
  have hwj := hk.weightOf_nonneg j
  simp only [Density.ofItem, beq_iff_eq] at h
  split_ifs at h with hi hj
  · rw [hi, mul_zero]
    exact mul_nonneg hvi hwj
  · rw [hi, mul_zero]
    exact mul_nonneg hvi hwj
  · simp [Density.isLess, Scalar.isFinite] at h
  · have hi' : 0 < k.weightOf i := lt_of_le_of_ne hwi (Ne.symm hi)
    have hj' : 0 < k.weightOf j := lt_of_le_of_ne hwj (Ne.symm ‹_›)
    simp only [Density.isLess, decide_eq_false_iff_not, not_lt] at h
    rwa [div_le_div_iff₀ hj' hi'] at h

theorem pairwise_items_ranking (hk : k.Valid) : (k.ranking.map (·.item)).Pairwise k.AsDense := by
  rw [items_ranking, List.pairwise_map]
  refine k.pairwise_ranked.imp_of_mem fun {a b} ha hb hless => ?_
  rw [eq_ofItem_of_mem_ranked ha, eq_ofItem_of_mem_ranked hb] at hless
  exact asDense_of_isLess_eq_false hk hless

/-! ### Filling -/

/-- How free items are filled in, and what that amounts to: an item fits, or the first that does not is taken in part,
or the capacity is used up. -/
inductive Fills (k : Knapsack ℚ) : List ℕ → Filling ℚ → Filling ℚ → Relaxation ℚ → Prop
  | done {f : Filling ℚ} : Fills k [] f f (.integral f.value)
  | whole {item : ℕ} {rest : List ℕ} {f g : Filling ℚ} {r : Relaxation ℚ} (hfits : k.weightOf item ≤ f.remainder)
      (hrest : Fills k rest (f.take k item 1 (f.remainder - k.weightOf item)) g r) : Fills k (item :: rest) f g r
  | part {item : ℕ} {rest : List ℕ} {f : Filling ℚ} (hpos : 0 < f.remainder) (hexceeds : f.remainder < k.weightOf item) :
      Fills k (item :: rest) f (f.take k item (f.remainder / k.weightOf item) 0)
        (.fractional (f.take k item (f.remainder / k.weightOf item) 0).value item)
  | full {item : ℕ} {rest : List ℕ} {f : Filling ℚ} (hzero : f.remainder = 0) (hpos : 0 < k.weightOf item) :
      Fills k (item :: rest) f (f.take k item 0 0) (.integral (f.take k item 0 0).value)

theorem fills_fillFree (items : List ℕ) (hf : 0 ≤ f.remainder) :
    ∃ g, Fills k items f g (k.fillFree 0 items f).2 ∧ (k.fillFree 0 items f).1 = g.rows := by
  induction items generalizing f with
  | nil => exact ⟨f, .done, rfl⟩
  | cons item rest ih =>
    unfold fillFree
    simp only [add_zero]
    split_ifs with hfits hpos
    · obtain ⟨g, hg, hrows⟩ := ih (f := f.take k item 1 (f.remainder - k.weightOf item)) (sub_nonneg.mpr hfits)
      simp only [Filling.take, one_mul] at hg hrows
      refine ⟨g, .whole hfits ?_, hrows⟩
      simpa only [Filling.take, one_mul] using hg
    · have hexceeds : f.remainder < k.weightOf item := not_le.mp hfits
      have hpos' : 0 < f.remainder := by
        rw [Scalar.isPositive_iff] at hpos
        exact (div_pos_iff_of_pos_right (hf.trans_lt hexceeds)).mp hpos
      exact ⟨_, .part hpos' hexceeds, rfl⟩
    · have hexceeds : f.remainder < k.weightOf item := not_le.mp hfits
      have hzero : f.remainder = 0 := by
        rw [Scalar.isPositive_iff, div_pos_iff_of_pos_right (hf.trans_lt hexceeds)] at hpos
        exact le_antisymm (not_lt.mp hpos) hf
      refine ⟨_, ?_, rfl⟩
      rw [hzero, zero_div]
      exact .full hzero (hf.trans_lt hexceeds)

/-- The value and the remainder are those of the rows. -/
structure Filling.Tallies (k : Knapsack ℚ) (f : Filling ℚ) : Prop where
  value_eq : f.value = (f.rows.map fun row => k.valueOf row.item * row.amount).sum
  capacity_eq : k.capacity = f.remainder + (f.rows.map fun row => k.weightOf row.item * row.amount).sum

theorem Filling.Tallies.take (h : f.Tallies k) {amount remainder : ℚ}
    (hremainder : f.remainder = remainder + k.weightOf item * amount) : (f.take k item amount remainder).Tallies k := by
  constructor
  · simp [Filling.take, h.value_eq, mul_comm amount]
  · simp only [Filling.take, List.map_append, List.sum_append, List.map_cons, List.map_nil, List.sum_cons, List.sum_nil]
    rw [h.capacity_eq, hremainder]
    ring

namespace Fills

theorem tallies (h : Fills k items f g r) (hf : f.Tallies k) : g.Tallies k := by
  induction h with
  | done => exact hf
  | whole _ _ ih => exact ih (hf.take (by ring))
  | part hpos hexceeds =>
    refine hf.take ?_
    rw [zero_add, mul_div_cancel₀ _ (hpos.trans hexceeds).ne']
  | full hzero _ =>
    refine hf.take ?_
    rw [hzero, mul_zero, add_zero]

theorem remainder_nonneg (h : Fills k items f g r) (hf : 0 ≤ f.remainder) : 0 ≤ g.remainder := by
  induction h with
  | done => exact hf
  | whole hfits _ ih => exact ih (sub_nonneg.mpr hfits)
  | part _ _ => exact le_rfl
  | full _ _ => exact le_rfl

theorem value?_eq (h : Fills k items f g r) : r.value? = some g.value := by
  induction h with
  | done => rfl
  | whole _ _ ih => exact ih
  | part _ _ => rfl
  | full _ _ => rfl

theorem exists_rows (h : Fills k items f g r) :
    ∃ new, g.rows = f.rows ++ new ∧ (new.map (·.item)).Sublist items ∧
      ∀ row ∈ new, (0 ≤ row.amount ∧ row.amount ≤ 1) ∧
        ((∃ value, r = .integral value) → row.amount = 0 ∨ row.amount = 1) := by
  induction h with
  | done => exact ⟨[], by simp⟩
  | @whole item rest f g r hfits _ ih =>
    obtain ⟨new, hrows, hitems, hamounts⟩ := ih
    refine ⟨⟨item, 1, f.remainder - k.weightOf item⟩ :: new, ?_, hitems.cons_cons item, ?_⟩
    · rw [hrows, Filling.take, List.append_assoc, List.singleton_append]
    · intro row hrow
      rcases List.mem_cons.mp hrow with rfl | hrow
      · exact ⟨⟨zero_le_one, le_rfl⟩, fun _ => Or.inr rfl⟩
      · exact hamounts row hrow
  | @part item rest f hpos hexceeds =>
    refine ⟨[⟨item, f.remainder / k.weightOf item, 0⟩], rfl, by simp, ?_⟩
    intro row hrow
    rw [List.mem_singleton.mp hrow]
    have hweight := hpos.trans hexceeds
    refine ⟨⟨(div_pos hpos hweight).le, (div_le_one hweight).mpr hexceeds.le⟩, ?_⟩
    rintro ⟨value, hvalue⟩
    cases hvalue
  | @full item rest f _ _ =>
    refine ⟨[⟨item, 0, 0⟩], rfl, by simp, ?_⟩
    intro row hrow
    rw [List.mem_singleton.mp hrow]
    exact ⟨⟨le_rfl, zero_le_one⟩, fun _ => Or.inl rfl⟩

/-- What the items are worth beyond their weight, at a price for the weight. -/
def surplus (k : Knapsack ℚ) (price : ℚ) (items : List ℕ) : ℚ :=
  (items.map fun i => max (k.valueOf i - price * k.weightOf i) 0).sum

theorem surplus_eq_zero {price : ℚ} (h : ∀ i ∈ items, k.valueOf i ≤ price * k.weightOf i) : surplus k price items = 0 := by
  refine List.sum_eq_zero fun v hv => ?_
  obtain ⟨i, hi, rfl⟩ := List.mem_map.mp hv
  exact max_eq_right (sub_nonpos.mpr (h i hi))

theorem total_le {price : ℚ} {x : ℕ → ℚ} (hx : ∀ i, 0 ≤ x i ∧ x i ≤ 1) (items : List ℕ) :
    total k.valueOf items x ≤ price * total k.weightOf items x + surplus k price items := by
  induction items with
  | nil => simp [total, surplus]
  | cons i rest ih =>
    have hitem : (k.valueOf i - price * k.weightOf i) * x i ≤ max (k.valueOf i - price * k.weightOf i) 0 :=
      calc (k.valueOf i - price * k.weightOf i) * x i
          ≤ max (k.valueOf i - price * k.weightOf i) 0 * x i :=
            mul_le_mul_of_nonneg_right (le_max_left _ _) (hx i).1
        _ ≤ max (k.valueOf i - price * k.weightOf i) 0 :=
            mul_le_of_le_one_right (le_max_right _ _) (hx i).2
    simp only [total, surplus, List.map_cons, List.sum_cons] at ih ⊢
    linarith

/-- At the price of the densest item, none of the items has a surplus. -/
theorem exists_price_cons (hk : k.Valid) (hitems : (item :: rest).Pairwise k.AsDense) (hweight : 0 < k.weightOf item) :
    ∃ price, 0 ≤ price ∧ price * k.weightOf item = k.valueOf item ∧ surplus k price (item :: rest) = 0 := by
  have hprice : k.valueOf item / k.weightOf item * k.weightOf item = k.valueOf item := div_mul_cancel₀ _ hweight.ne'
  refine ⟨k.valueOf item / k.weightOf item, div_nonneg (hk.valueOf_nonneg item) hweight.le, hprice, ?_⟩
  refine surplus_eq_zero fun i hi => ?_
  rcases List.mem_cons.mp hi with rfl | hi
  · exact hprice.ge
  · have hdense : k.valueOf i * k.weightOf item ≤ k.valueOf item * k.weightOf i :=
      (List.pairwise_cons.mp hitems).1 i hi
    rw [div_mul_eq_mul_div]
    exact (le_div_iff₀ hweight).mpr hdense

/-- The value of the filling is that of the capacity at a price, and the surplus of the items at that price. The price is
that of an item which is at most as dense as all that is taken whole. -/
theorem exists_price (h : Fills k items f g r) (hk : k.Valid) (hitems : items.Pairwise k.AsDense) :
    ∃ price, 0 ≤ price ∧ (price = 0 ∨ ∃ i ∈ items, 0 < k.weightOf i ∧ price * k.weightOf i = k.valueOf i) ∧
      g.value = f.value + price * f.remainder + surplus k price items := by
  induction h with
  | done => exact ⟨0, le_rfl, Or.inl rfl, by simp [surplus]⟩
  | @whole item rest f g r hfits _ ih =>
    obtain ⟨hfirst, hrest⟩ := List.pairwise_cons.mp hitems
    obtain ⟨price, hprice, hitem, hvalue⟩ := ih hrest
    refine ⟨price, hprice, hitem.imp_right fun ⟨i, hi, hw⟩ => ⟨i, List.mem_cons_of_mem _ hi, hw⟩, ?_⟩
    -- the item is worth its weight, since it is as dense as the one that sets the price
    have hworth : price * k.weightOf item ≤ k.valueOf item := by
      rcases hitem with rfl | ⟨i, hi, hpos, hi'⟩
      · rw [zero_mul]
        exact hk.valueOf_nonneg item
      · refine le_of_mul_le_mul_right ?_ hpos
        calc price * k.weightOf item * k.weightOf i = k.valueOf i * k.weightOf item := by rw [← hi']; ring
          _ ≤ k.valueOf item * k.weightOf i := hfirst i hi
    simp only [Filling.take, surplus, List.map_cons, List.sum_cons] at hvalue ⊢
    rw [hvalue, max_eq_left (sub_nonneg.mpr hworth)]
    ring
  | @part item rest f hpos hexceeds =>
    have hweight := hpos.trans hexceeds
    obtain ⟨price, hprice, hitem, hsurplus⟩ := exists_price_cons hk hitems hweight
    refine ⟨price, hprice, Or.inr ⟨item, List.mem_cons_self, hweight, hitem⟩, ?_⟩
    rw [hsurplus, Filling.take, ← hitem, add_zero, mul_left_comm, div_mul_cancel₀ _ hweight.ne']
  | @full item rest f hzero hweight =>
    obtain ⟨price, hprice, hitem, hsurplus⟩ := exists_price_cons hk hitems hweight
    refine ⟨price, hprice, Or.inr ⟨item, List.mem_cons_self, hweight, hitem⟩, ?_⟩
    rw [hsurplus, hzero]
    simp [Filling.take]

/-- No way to take the items, fractions allowed, is worth more than the greedy one. -/
theorem value_add_total_le (h : Fills k items f g r) (hk : k.Valid) (hitems : items.Pairwise k.AsDense) {x : ℕ → ℚ}
    (hx : ∀ i, 0 ≤ x i ∧ x i ≤ 1) (hweight : total k.weightOf items x ≤ f.remainder) :
    f.value + total k.valueOf items x ≤ g.value := by
  obtain ⟨price, hprice, -, hvalue⟩ := h.exists_price hk hitems
  calc f.value + total k.valueOf items x
      ≤ f.value + (price * total k.weightOf items x + surplus k price items) :=
        add_le_add_right (total_le hx items) f.value
    _ ≤ f.value + (price * f.remainder + surplus k price items) :=
        add_le_add_right (add_le_add_left (mul_le_mul_of_nonneg_left hweight hprice) _) _
    _ = g.value := by rw [hvalue, add_assoc]

end Fills

/-! ### Fixed and free items -/

/-- Deal with one item: it is free, inside or outside. -/
def Filling.fix (k : Knapsack ℚ) (f : Filling ℚ) (choice : Option Bool × ℕ) : Filling ℚ :=
  match choice.1 with
  | none => f
  | some inside =>
    let amount : ℚ := if inside then 1 else 0
    f.take k choice.2 amount (f.remainder - amount * k.weightOf choice.2)

theorem fillFixed_eq_foldl (k : Knapsack ℚ) (fixed : List (Option Bool)) :
    k.fillFixed fixed = fixed.zipIdx.foldl (Filling.fix k) ⟨[], k.capacity, 0⟩ := rfl

theorem tallies_fillFixed (k : Knapsack ℚ) (fixed : List (Option Bool)) : (k.fillFixed fixed).Tallies k := by
  rw [fillFixed_eq_foldl]
  refine List.foldlRecOn _ _ ⟨rfl, (add_zero _).symm⟩ fun f hf choice _ => ?_
  unfold Filling.fix
  cases choice.1 with
  | none => exact hf
  | some inside => exact hf.take (by ring)

theorem map_rows_fillFixed (k : Knapsack ℚ) (fixed : List (Option Bool)) :
    (k.fillFixed fixed).rows.map (fun row => (row.item, row.amount)) =
      (fixedItems fixed).map fun p => (p.1, if p.2 then 1 else 0) := by
  have hfold : ∀ (choices : List (Option Bool × ℕ)) (f : Filling ℚ),
      (choices.foldl (Filling.fix k) f).rows.map (fun row => (row.item, row.amount)) =
        f.rows.map (fun row => (row.item, row.amount)) ++
          (choices.filterMap fun p => p.1.map (p.2, ·)).map fun p => (p.1, if p.2 then 1 else 0) := by
    intro choices
    induction choices with
    | nil => simp
    | cons choice choices ih =>
      intro f
      obtain ⟨inside?, item⟩ := choice
      rw [List.foldl_cons, ih]
      cases inside? with
      | none => simp [Filling.fix]
      | some inside => simp [Filling.fix, Filling.take]
  exact hfold fixed.zipIdx _

theorem map_mul_rows_fillFixed (c : ℕ → ℚ) (k : Knapsack ℚ) (fixed : List (Option Bool)) :
    ((k.fillFixed fixed).rows.map fun row => c row.item * row.amount) =
      (fixedItems fixed).map fun p => c p.1 * if p.2 then 1 else 0 := by
  have hmap := congrArg (List.map fun p : ℕ × ℚ => c p.1 * p.2) (k.map_rows_fillFixed fixed)
  rwa [List.map_map, List.map_map] at hmap

theorem mem_fixedItems {inside : Bool} : (item, inside) ∈ fixedItems fixed ↔ fixed.getD item none = some inside := by
  rw [List.getD_eq_getElem?_getD]
  simp only [fixedItems, List.mem_filterMap, Prod.exists, List.mem_zipIdx_iff_getElem?, Option.map_eq_some_iff,
    Prod.mk.injEq]
  constructor
  · rintro ⟨choice, i, hget, inside', rfl, rfl, rfl⟩
    rw [hget]
    rfl
  · intro h
    cases hget : fixed[item]? with
    | none => simp [hget] at h
    | some choice =>
      rw [hget] at h
      exact ⟨choice, item, hget, inside, h, rfl, rfl⟩

theorem map_fst_fixedItems (fixed : List (Option Bool)) :
    (fixedItems fixed).map (·.1) = (List.range fixed.length).filter fun i => !(fixed.getD i none).isNone := by
  have hzip : fixed.zipIdx = (List.range fixed.length).map fun i => (fixed.getD i none, i) := by
    refine List.ext_getElem (by simp) fun i hi hi' => ?_
    simp at hi
    simp [hi]
  rw [fixedItems, hzip, List.filterMap_map, List.map_filterMap, ← List.filterMap_eq_filter]
  refine List.filterMap_congr fun i _ => ?_
  simp only [Function.comp_apply, Option.guard]
  rcases Option.eq_none_or_eq_some (fixed.getD i none) with hget | ⟨inside, hget⟩
  · simp only [hget, Option.isNone_none, Bool.not_true, Bool.false_eq_true, if_false, Option.map_none]
  · simp only [hget, Option.isNone_some, Bool.not_false, if_true, Option.map_some]

def freeItems (k : Knapsack α) (fixed : List (Option Bool)) : List ℕ :=
  (k.ranking.map (·.item)).filter fun item => (fixed.getD item none).isNone

theorem perm_range (hk : k.Valid) (hfixed : fixed.length = k.nrItems) :
    ((fixedItems fixed).map (·.1) ++ k.freeItems fixed).Perm (List.range k.nrItems) := by
  have hfree := (perm_items_ranking hk).filter fun item => (fixed.getD item none).isNone
  rw [map_fst_fixedItems, hfixed]
  exact (hfree.append_left _).trans (List.perm_append_comm.trans (List.filter_append_perm _ _))

/-- Items that are filled in after the fixed ones are listed once each. -/
theorem nodup_items_append (hk : k.Valid) (hfixed : fixed.length = k.nrItems) {new : List (FillRow ℚ)}
    (hnew : (new.map (·.item)).Sublist (k.freeItems fixed)) :
    (((k.fillFixed fixed).rows ++ new).map (·.item)).Nodup ∧
      ∀ row ∈ (k.fillFixed fixed).rows ++ new, row.item < k.nrItems := by
  have hfirst : (k.fillFixed fixed).rows.map (·.item) = (fixedItems fixed).map (·.1) := by
    simpa [Function.comp_def] using congrArg (List.map Prod.fst) (k.map_rows_fillFixed fixed)
  have hsub : (((k.fillFixed fixed).rows ++ new).map (·.item)).Sublist
      ((fixedItems fixed).map (·.1) ++ k.freeItems fixed) := by
    rw [List.map_append, hfirst]
    exact hnew.append_left _
  have hperm := perm_range hk hfixed
  refine ⟨(hperm.nodup_iff.mpr List.nodup_range).sublist hsub, fun row hrow => ?_⟩
  exact List.mem_range.mp (hperm.mem_iff.mp (hsub.subset (List.mem_map_of_mem hrow)))

theorem amount_fillFixed {row : FillRow ℚ} (hrow : row ∈ (k.fillFixed fixed).rows) : row.amount = 0 ∨ row.amount = 1 := by
  have hmem : (row.item, row.amount) ∈ (k.fillFixed fixed).rows.map fun row => (row.item, row.amount) :=
    List.mem_map_of_mem hrow
  rw [map_rows_fillFixed] at hmem
  obtain ⟨⟨i, inside⟩, -, heq⟩ := List.mem_map.mp hmem
  have hamount : (if inside then 1 else 0 : ℚ) = row.amount := congrArg Prod.snd heq
  cases inside with
  | false => exact Or.inl hamount.symm
  | true => exact Or.inr hamount.symm

/-! ### Points of a node -/

/-- The point has the amounts of the items that are fixed. -/
def Agrees (fixed : List (Option Bool)) (x : List ℚ) : Prop :=
  ∀ i inside, fixed.getD i none = some inside → x.getD i 0 = if inside then 1 else 0

structure Admits (k : Knapsack ℚ) (fixed : List (Option Bool)) (x : List ℚ) : Prop where
  length_eq : x.length = k.nrItems
  bounds : ∀ v ∈ x, 0 ≤ v ∧ v ≤ 1
  agrees : Agrees fixed x
  weight_le : Scalar.dot k.weights x ≤ k.capacity

theorem Admits.getD_bounds (h : k.Admits fixed x) (i : ℕ) : 0 ≤ x.getD i 0 ∧ x.getD i 0 ≤ 1 := by
  rw [List.getD_eq_getElem?_getD]
  cases hi : x[i]? with
  | none => exact ⟨le_rfl, zero_le_one⟩
  | some v => exact h.bounds v (List.mem_of_getElem? hi)

/-- What the fixed items contribute is the same at all points of a node. -/
theorem dot_eq_of_agrees (hk : k.Valid) (hfixed : fixed.length = k.nrItems) (hx : Agrees fixed x) {c : List ℚ}
    (hc : c.length = k.nrItems) :
    Scalar.dot c x = ((k.fillFixed fixed).rows.map fun row => c.getD row.item 0 * row.amount).sum +
      total (c.getD · 0) (k.freeItems fixed) (x.getD · 0) := by
  rw [dot_eq_total c x k.nrItems hc.le, ← total_perm (perm_range hk hfixed), total_append,
    map_mul_rows_fillFixed (c.getD · 0)]
  congr 1
  rw [total, List.map_map]
  refine congrArg List.sum (List.map_congr_left fun p hp => ?_)
  rw [Function.comp_apply, hx p.1 p.2 (mem_fixedItems.mp hp)]

theorem Admits.total_le_remainder (h : k.Admits fixed x) (hk : k.Valid) (hfixed : fixed.length = k.nrItems) :
    total k.weightOf (k.freeItems fixed) (x.getD · 0) ≤ (k.fillFixed fixed).remainder := by
  have hdot : Scalar.dot k.weights x = ((k.fillFixed fixed).rows.map fun row => k.weightOf row.item * row.amount).sum +
      total k.weightOf (k.freeItems fixed) (x.getD · 0) := dot_eq_of_agrees hk hfixed h.agrees hk.length_weights
  linarith [h.weight_le, (k.tallies_fillFixed fixed).capacity_eq]

theorem dot_values_eq (hk : k.Valid) (hfixed : fixed.length = k.nrItems) (hx : Agrees fixed x) :
    Scalar.dot k.values x = (k.fillFixed fixed).value + total k.valueOf (k.freeItems fixed) (x.getD · 0) := by
  rw [dot_eq_of_agrees hk hfixed hx rfl, (k.tallies_fillFixed fixed).value_eq]
  rfl

/-! ### The point of a relaxation -/

/-- The point that rows describe. Items that are not listed are outside. -/
def point (k : Knapsack ℚ) (rows : List (FillRow ℚ)) : List ℚ :=
  rows.foldl (fun values row => values.set row.item row.amount) (List.replicate k.nrItems 0)

theorem point_append_singleton (rows : List (FillRow ℚ)) (row : FillRow ℚ) :
    k.point (rows ++ [row]) = (k.point rows).set row.item row.amount := by
  simp [point]

theorem length_point (rows : List (FillRow ℚ)) : (k.point rows).length = k.nrItems := by
  induction rows using List.reverseRecOn with
  | nil => exact List.length_replicate
  | append_singleton rows row ih => rw [point_append_singleton, List.length_set, ih]

theorem mem_point {v : ℚ} (h : v ∈ k.point rows) : v = 0 ∨ ∃ row ∈ rows, v = row.amount := by
  induction rows using List.reverseRecOn with
  | nil => exact Or.inl (List.mem_replicate.mp h).2
  | append_singleton rows row ih =>
    rw [point_append_singleton] at h
    rcases List.mem_or_eq_of_mem_set h with h | h
    · rcases ih h with h | ⟨row', hmem, h⟩
      · exact Or.inl h
      · exact Or.inr ⟨row', List.mem_append_left _ hmem, h⟩
    · exact Or.inr ⟨row, by simp, h⟩

theorem getD_point_of_notMem (h : item ∉ rows.map (·.item)) : (k.point rows).getD item 0 = 0 := by
  induction rows using List.reverseRecOn with
  | nil => simp [point]
  | append_singleton rows row ih =>
    simp only [List.map_append, List.map_cons, List.map_nil, List.mem_append, List.mem_singleton, not_or] at h
    rw [point_append_singleton, List.getD_eq_getElem?_getD, List.getElem?_set_ne (Ne.symm h.2),
      ← List.getD_eq_getElem?_getD, ih h.1]

theorem getD_point_of_mem (hitems : (rows.map (·.item)).Nodup) {row : FillRow ℚ} (hrow : row ∈ rows)
    (hlt : row.item < k.nrItems) : (k.point rows).getD row.item 0 = row.amount := by
  induction rows using List.reverseRecOn with
  | nil => cases hrow
  | append_singleton rows last ih =>
    rw [List.map_append, List.nodup_append] at hitems
    obtain ⟨hbefore, -, hdisjoint⟩ := hitems
    rw [point_append_singleton, List.getD_eq_getElem?_getD]
    rcases List.mem_append.mp hrow with hrow | hrow
    · have hne : last.item ≠ row.item :=
        (hdisjoint row.item (List.mem_map_of_mem hrow) last.item (by simp)).symm
      rw [List.getElem?_set_ne hne, ← List.getD_eq_getElem?_getD, ih hbefore hrow]
    · rw [List.mem_singleton.mp hrow] at hlt ⊢
      rw [List.getElem?_set_self (by rw [length_point]; exact hlt)]
      rfl

theorem dot_set {c x : List ℚ} {i : ℕ} (hi : i < x.length) (hzero : x.getD i 0 = 0) (a : ℚ) :
    Scalar.dot c (x.set i a) = Scalar.dot c x + c.getD i 0 * a := by
  have hget : ∀ j, (x.set i a).getD j 0 = x.getD j 0 + if j = i then a else 0 := by
    intro j
    by_cases hij : i = j
    · subst hij
      rw [hzero, zero_add, if_pos rfl, List.getD_eq_getElem?_getD, List.getElem?_set_self hi]
      rfl
    · rw [if_neg (Ne.symm hij), add_zero, List.getD_eq_getElem?_getD, List.getElem?_set_ne hij,
        List.getD_eq_getElem?_getD]
  rw [Scalar.dot_eq_sum_range c _ x.length (by simp), Scalar.dot_eq_sum_range c x x.length (by simp)]
  simp only [hget, mul_add, Finset.sum_add_distrib, mul_ite, mul_zero]
  rw [Finset.sum_ite_eq' _ i fun j => c.getD j 0 * a, if_pos (Finset.mem_range.mpr hi)]

theorem dot_point (c : List ℚ) (hitems : (rows.map (·.item)).Nodup) (hlt : ∀ row ∈ rows, row.item < k.nrItems) :
    Scalar.dot c (k.point rows) = (rows.map fun row => c.getD row.item 0 * row.amount).sum := by
  induction rows using List.reverseRecOn with
  | nil =>
    rw [Scalar.dot_eq_sum_range c _ k.nrItems (by simp [length_point])]
    refine Finset.sum_eq_zero fun i _ => ?_
    rw [getD_point_of_notMem (by simp), mul_zero]
  | append_singleton rows row ih =>
    rw [List.map_append, List.nodup_append] at hitems
    obtain ⟨hbefore, -, hdisjoint⟩ := hitems
    have hnew : row.item ∉ rows.map (·.item) := fun hmem => hdisjoint row.item hmem row.item (by simp) rfl
    rw [point_append_singleton, dot_set (by rw [length_point]; exact hlt row (by simp)) (getD_point_of_notMem hnew),
      ih hbefore fun row' hrow' => hlt row' (List.mem_append_left _ hrow')]
    simp

/-! ### Exactness of the relaxation -/

/-- The relaxation of a node, item by item. -/
theorem relax_cases (k : Knapsack ℚ) (fixed : List (Option Bool)) :
    ((k.fillFixed fixed).remainder < 0 ∧ k.relax k.ranking fixed 0 = ((k.fillFixed fixed).rows, .infeasible)) ∨
    (0 ≤ (k.fillFixed fixed).remainder ∧ ∃ g r, Fills k (k.freeItems fixed) (k.fillFixed fixed) g r ∧
      k.relax k.ranking fixed 0 = (g.rows, r)) := by
  simp only [relax, Scalar.isNegative_iff, neg_zero]
  split_ifs with hneg
  · exact Or.inl ⟨hneg, rfl⟩
  · have hnonneg := not_lt.mp hneg
    obtain ⟨g, hfills, hrows⟩ := fills_fillFree (k := k) (k.freeItems fixed) hnonneg
    exact Or.inr ⟨hnonneg, g, _, hfills, Prod.ext hrows rfl⟩

/-- The items of a filled node are listed once each. -/
theorem Fills.nodup_items (h : Fills k (k.freeItems fixed) (k.fillFixed fixed) g r) (hk : k.Valid)
    (hfixed : fixed.length = k.nrItems) :
    (g.rows.map (·.item)).Nodup ∧ ∀ row ∈ g.rows, row.item < k.nrItems := by
  obtain ⟨new, hrows, hitems, -⟩ := h.exists_rows
  rw [hrows]
  exact nodup_items_append hk hfixed hitems

theorem Fills.mem_amounts (h : Fills k (k.freeItems fixed) (k.fillFixed fixed) g r) {row : FillRow ℚ}
    (hrow : row ∈ g.rows) :
    (0 ≤ row.amount ∧ row.amount ≤ 1) ∧ ((∃ value, r = .integral value) → row.amount = 0 ∨ row.amount = 1) := by
  obtain ⟨new, hrows, -, hamounts⟩ := h.exists_rows
  rw [hrows] at hrow
  rcases List.mem_append.mp hrow with hrow | hrow
  · rcases amount_fillFixed hrow with hamount | hamount
    · simp [hamount]
    · simp [hamount]
  · exact hamounts row hrow

theorem Fills.agrees_point (h : Fills k (k.freeItems fixed) (k.fillFixed fixed) g r) (hk : k.Valid)
    (hfixed : fixed.length = k.nrItems) : Agrees fixed (k.point g.rows) := by
  intro i inside hinside
  obtain ⟨new, hrows, -, -⟩ := h.exists_rows
  obtain ⟨hnodup, hlt⟩ := h.nodup_items hk hfixed
  have hmem : (i, if inside then 1 else 0) ∈ (k.fillFixed fixed).rows.map fun row => (row.item, row.amount) := by
    rw [map_rows_fillFixed]
    exact List.mem_map_of_mem (mem_fixedItems.mpr hinside)
  obtain ⟨row, hrow, heq⟩ := List.mem_map.mp hmem
  obtain ⟨rfl, hamount⟩ := Prod.mk.inj heq
  have hrow' : row ∈ g.rows := hrows ▸ List.mem_append_left _ hrow
  rw [getD_point_of_mem hnodup hrow' (hlt row hrow'), hamount]

theorem Fills.admits_point (h : Fills k (k.freeItems fixed) (k.fillFixed fixed) g r) (hk : k.Valid)
    (hfixed : fixed.length = k.nrItems) (hremainder : 0 ≤ (k.fillFixed fixed).remainder) :
    k.Admits fixed (k.point g.rows) := by
  obtain ⟨hnodup, hlt⟩ := h.nodup_items hk hfixed
  refine ⟨length_point _, fun v hv => ?_, h.agrees_point hk hfixed, ?_⟩
  · rcases mem_point hv with rfl | ⟨row, hrow, rfl⟩
    · exact ⟨le_rfl, zero_le_one⟩
    · exact (h.mem_amounts hrow).1
  · have hcapacity := (h.tallies (k.tallies_fillFixed fixed)).capacity_eq
    have hdot : Scalar.dot k.weights (k.point g.rows) = (g.rows.map fun row => k.weightOf row.item * row.amount).sum :=
      dot_point k.weights hnodup hlt
    linarith [h.remainder_nonneg hremainder]

/-- The relaxation of a node is solved by the point that the rows describe. -/
def Exact (k : Knapsack ℚ) (fixed : List (Option Bool)) (rows : List (FillRow ℚ)) (r : Relaxation ℚ) : Prop :=
  match r.value? with
  | none => ∀ x, ¬k.Admits fixed x
  | some value => k.Admits fixed (k.point rows) ∧ Scalar.dot k.values (k.point rows) = value ∧
      ∀ x, k.Admits fixed x → Scalar.dot k.values x ≤ value

theorem exact_relax (hk : k.Valid) (hfixed : fixed.length = k.nrItems) :
    k.Exact fixed (k.relax k.ranking fixed 0).1 (k.relax k.ranking fixed 0).2 := by
  rcases k.relax_cases fixed with ⟨hneg, hrelax⟩ | ⟨hnonneg, g, r, hfills, hrelax⟩
  · rw [hrelax]
    intro x hx
    have hle := hx.total_le_remainder hk hfixed
    exact absurd (total_nonneg hk.weightOf_nonneg (fun i => (hx.getD_bounds i).1) _) (not_le.mpr (hle.trans_lt hneg))
  · obtain ⟨hnodup, hlt⟩ := hfills.nodup_items hk hfixed
    simp only [hrelax, Exact, hfills.value?_eq]
    refine ⟨hfills.admits_point hk hfixed hnonneg, ?_, fun x hx => ?_⟩
    · rw [(hfills.tallies (k.tallies_fillFixed fixed)).value_eq]
      exact dot_point k.values hnodup hlt
    · rw [dot_values_eq hk hfixed hx.agrees]
      exact hfills.value_add_total_le hk ((pairwise_items_ranking hk).filter _) hx.getD_bounds
        (hx.total_le_remainder hk hfixed)

/-- An integral relaxation has no item in part. -/
theorem amount_of_integral {value : ℚ} (h : k.relax k.ranking fixed 0 = (rows, .integral value)) {row : FillRow ℚ}
    (hrow : row ∈ rows) : row.amount = 0 ∨ row.amount = 1 := by
  rcases k.relax_cases fixed with ⟨-, hrelax⟩ | ⟨-, g, r, hfills, hrelax⟩
  · rw [hrelax] at h
    cases h
  · obtain ⟨hrows, hr⟩ := Prod.mk.inj (hrelax.symm.trans h)
    exact (hfills.mem_amounts (hrows ▸ hrow)).2 ⟨value, hr⟩

theorem mem_of_fractional_fillFree {k : Knapsack α} {ε value : α} {f : Filling α}
    (h : (k.fillFree ε items f).2 = .fractional value item) : item ∈ items := by
  induction items generalizing f with
  | nil => cases h
  | cons first rest ih =>
    unfold fillFree at h
    simp only at h
    split_ifs at h with hfits hpos
    · exact List.mem_cons_of_mem _ (ih h)
    · cases h
      exact List.mem_cons_self

/-- The item that is taken in part is free. -/
theorem free_of_fractional {k : Knapsack α} {ε value : α} {rows : List (FillRow α)}
    (h : k.relax k.ranking fixed ε = (rows, .fractional value item)) :
    fixed.getD item none = none ∧ item < k.nrItems := by
  have hr := congrArg Prod.snd h
  unfold relax at hr
  simp only at hr
  split_ifs at hr with hneg
  obtain ⟨hmem, hfree⟩ := List.mem_filter.mp (mem_of_fractional_fillFree hr)
  exact ⟨Option.isNone_iff_eq_none.mp hfree, lt_of_mem_items_ranking hmem⟩

end Knapsack

end LinearProgramming
