import LinearProgramming.Proofs.Knapsack.Search

/-! # Knapsack searches with a tolerance

With a tolerance an item is taken whole even if it exceeds what is left of the capacity, by the tolerance at most, and
a relaxation counts as integral even if the amount of its last item is not zero, as long as it is at most the tolerance.
So an integral relaxation is a packing of whole items (`Knapsack.Filling.Packed`), and perhaps one item more, at the
amount that uses up the capacity (`Knapsack.NearlyIntegral`). That amount has no lower bound once the packing exceeds
the capacity. The selection rounds it to an integer, while the value keeps its share of the item.

A selection is reported as it should be (`Selection.Faithful`) if the amount is above minus one half and does not
contribute to the value. Data in whole numbers leaves no other amount than zero, for a tolerance below the reciprocal
of each weight. -/

namespace LinearProgramming

/-- The report of a selection of the model: items are inside or outside, the constraint holds up to `ε`, and the value
is that of the items inside. -/
structure Selection.Faithful (m : Model ℚ) (ε : ℚ) (best : Selection ℚ) : Prop where
  binary : ∀ v ∈ best.values, v = 0 ∨ v = 1
  isFeasible : m.isFeasible best.values ε = true
  objectiveValue_eq : best.objectiveValue = m.objectiveValue best.values

namespace Knapsack

variable {k : Knapsack ℚ} {ε value : ℚ} {f g : Filling ℚ} {items : List ℕ} {item : ℕ} {rows : List (FillRow ℚ)}
  {row : FillRow ℚ} {fixed : List (Option Bool)} {rest : List (List (Option Bool))} {state : State ℚ}

/-! ### Integral relaxations -/

/-- No item is taken in part, and the items taken exceed the capacity by `ε` at most. -/
structure Filling.Packed (k : Knapsack ℚ) (ε : ℚ) (f : Filling ℚ) : Prop where
  tallies : f.Tallies k
  amount_eq : ∀ row ∈ f.rows, row.amount = 0 ∨ row.amount = 1
  remainder_ge : -ε ≤ f.remainder

/-- The rows and the value of a packing, or of a packing with one item more whose amount counts as nothing. -/
inductive NearlyIntegral (k : Knapsack ℚ) (ε : ℚ) : List (FillRow ℚ) → ℚ → Prop
  | packed {g : Filling ℚ} (hg : g.Packed k ε) : NearlyIntegral k ε g.rows g.value
  | topped {g : Filling ℚ} {item : ℕ} (hg : g.Packed k ε) (hexceeds : g.remainder + ε < k.weightOf item)
      (hamount : g.remainder / k.weightOf item ≤ ε) :
      NearlyIntegral k ε (g.take k item (g.remainder / k.weightOf item) 0).rows
        (g.take k item (g.remainder / k.weightOf item) 0).value

theorem mem_rows_take {amount remainder : ℚ} :
    row ∈ (f.take k item amount remainder).rows ↔ row ∈ f.rows ∨ row = ⟨item, amount, remainder⟩ := by
  rw [Filling.take, List.mem_append, List.mem_singleton]

theorem Filling.Packed.take_whole (h : f.Packed k ε) (hfits : k.weightOf item ≤ f.remainder + ε) :
    (f.take k item 1 (f.remainder - k.weightOf item)).Packed k ε := by
  have hremainder : -ε ≤ f.remainder - k.weightOf item := by linarith
  refine ⟨h.tallies.take (by ring), ?_, hremainder⟩
  intro row hrow
  rcases mem_rows_take.mp hrow with hrow | rfl
  · exact h.amount_eq row hrow
  · exact Or.inr rfl

theorem packed_fillFixed (h : -ε ≤ (k.fillFixed fixed).remainder) : (k.fillFixed fixed).Packed k ε :=
  ⟨k.tallies_fillFixed fixed, fun _ hrow => amount_fillFixed hrow, h⟩

theorem nearlyIntegral_fillFree (hf : f.Packed k ε) (h : k.fillFree ε items f = (rows, .integral value)) :
    NearlyIntegral k ε rows value := by
  induction items generalizing f with
  | nil =>
    cases h
    exact .packed hf
  | cons item rest ih =>
    unfold fillFree at h
    simp only at h
    split_ifs at h with hfits hpos
    · have hnext := hf.take_whole hfits
      simp only [Filling.take, one_mul] at hnext
      exact ih hnext h
    · cases h
    · rw [Scalar.isPositive_iff, not_lt] at hpos
      cases h
      exact .topped hf (not_le.mp hfits) hpos

theorem nearlyIntegral_relax (h : k.relax k.ranking fixed ε = (rows, .integral value)) :
    NearlyIntegral k ε rows value := by
  unfold relax at h
  simp only [Scalar.isNegative_iff] at h
  split_ifs at h with hneg
  · cases h
  · exact nearlyIntegral_fillFree (packed_fillFixed (not_lt.mp hneg)) h

/-- With any tolerance, what is filled in are free items in their order. -/
theorem exists_rows_fillFree (ε : ℚ) (items : List ℕ) (f : Filling ℚ) :
    ∃ new, (k.fillFree ε items f).1 = f.rows ++ new ∧ (new.map (·.item)).Sublist items := by
  induction items generalizing f with
  | nil => exact ⟨[], by simp [fillFree], List.Sublist.slnil⟩
  | cons item rest ih =>
    unfold fillFree
    simp only
    split
    · obtain ⟨new, hrows, hitems⟩ := ih ⟨f.rows ++ [⟨item, 1, f.remainder - k.weightOf item⟩],
        f.remainder - k.weightOf item, f.value + k.valueOf item⟩
      refine ⟨⟨item, 1, f.remainder - k.weightOf item⟩ :: new, ?_, hitems.cons_cons item⟩
      rw [hrows, List.append_assoc, List.singleton_append]
    · exact ⟨[⟨item, f.remainder / k.weightOf item, 0⟩], rfl, by simp⟩

theorem nodup_items_relax (hk : k.Valid) (hfixed : fixed.length = k.nrItems) (ε : ℚ) :
    ((k.relax k.ranking fixed ε).1.map (·.item)).Nodup ∧
      ∀ row ∈ (k.relax k.ranking fixed ε).1, row.item < k.nrItems := by
  have hrows : ∃ new : List (FillRow ℚ), (k.relax k.ranking fixed ε).1 = (k.fillFixed fixed).rows ++ new ∧
      (new.map (·.item)).Sublist (k.freeItems fixed) := by
    unfold relax
    simp only
    split_ifs
    · exact ⟨[], (List.append_nil _).symm, List.nil_sublist _⟩
    · exact exists_rows_fillFree ε (k.freeItems fixed) (k.fillFixed fixed)
  obtain ⟨new, hrows, hitems⟩ := hrows
  rw [hrows]
  exact nodup_items_append hk hfixed hitems

/-! ### Rounded amounts -/

/-- The selection is the point of the rows with rounded amounts. -/
theorem values_selection_eq (rows : List (FillRow ℚ)) (value : ℚ) :
    (k.selection rows value).values = k.point (rows.map fun row => { row with amount := Scalar.round row.amount }) := by
  rw [point, List.foldl_map]
  rfl

section Rounded

variable (hitems : (rows.map (·.item)).Nodup) (hlt : ∀ row ∈ rows, row.item < k.nrItems)
include hitems hlt

theorem dot_selection (c : List ℚ) : Scalar.dot c (k.selection rows value).values =
    (rows.map fun row => c.getD row.item 0 * Scalar.round row.amount).sum := by
  rw [values_selection_eq, dot_point, List.map_map]
  · rfl
  · rwa [List.map_map]
  · intro row hrow
    obtain ⟨row', hrow', rfl⟩ := List.mem_map.mp hrow
    exact hlt row' hrow'

theorem round_mem_selection (hrow : row ∈ rows) : Scalar.round row.amount ∈ (k.selection rows value).values := by
  have hitems' : ((rows.map fun row => { row with amount := Scalar.round row.amount }).map (·.item)).Nodup := by
    rwa [List.map_map]
  have hget : (k.point (rows.map fun row => { row with amount := Scalar.round row.amount })).getD row.item 0 =
      Scalar.round row.amount := getD_point_of_mem hitems' (List.mem_map_of_mem hrow) (hlt row hrow)
  have hlen : row.item < (k.selection rows value).values.length := by
    rw [values_selection_eq, length_point]
    exact hlt row hrow
  rw [← values_selection_eq rows value, List.getD_eq_getElem _ _ hlen] at hget
  exact hget ▸ List.getElem_mem hlen

end Rounded

theorem mem_selection {v : ℚ} (h : v ∈ (k.selection rows value).values) :
    v = 0 ∨ ∃ row ∈ rows, v = Scalar.round row.amount := by
  rw [values_selection_eq] at h
  rcases mem_point h with h | ⟨row, hrow, h⟩
  · exact Or.inl h
  · obtain ⟨row', hrow', rfl⟩ := List.mem_map.mp hrow
    exact Or.inr ⟨row', hrow', h⟩

theorem Filling.Packed.sum_round (h : g.Packed k ε) (c : ℕ → ℚ) :
    (g.rows.map fun row => c row.item * Scalar.round row.amount).sum =
      (g.rows.map fun row => c row.item * row.amount).sum := by
  refine congrArg List.sum (List.map_congr_left fun row hrow => ?_)
  rw [round_of_binary (h.amount_eq row hrow)]

namespace NearlyIntegral

variable (h : NearlyIntegral k ε rows value)
include h

theorem amount_cases (hrow : row ∈ rows) : (row.amount = 0 ∨ row.amount = 1) ∨ row.amount ≤ ε := by
  cases h with
  | packed hg => exact Or.inl (hg.amount_eq row hrow)
  | topped hg _ hamount =>
    rcases mem_rows_take.mp hrow with hrow | rfl
    · exact Or.inl (hg.amount_eq row hrow)
    · exact Or.inr hamount

theorem binary_iff (hε : ε < 1 / 2) (hitems : (rows.map (·.item)).Nodup) (hlt : ∀ row ∈ rows, row.item < k.nrItems) :
    (∀ v ∈ (k.selection rows value).values, v = 0 ∨ v = 1) ↔ ∀ row ∈ rows, -(1 / 2) < row.amount := by
  constructor
  · intro hbinary row hrow
    by_contra hlow
    have hround := Scalar.round_le_neg_one (not_lt.mp hlow)
    rcases hbinary _ (round_mem_selection hitems hlt hrow) with hzero | hone
    · linarith
    · linarith
  · intro hlow v hv
    rcases mem_selection hv with hzero | ⟨row, hrow, rfl⟩
    · exact Or.inl hzero
    · rcases h.amount_cases hrow with hbinary | hle
      · rwa [round_of_binary hbinary]
      · exact Or.inl (Scalar.round_eq_zero (hlow row hrow) (hle.trans_lt hε))

/-- Where the amounts round to zero or one, the selection is a packing. -/
theorem exists_packed (hε : ε < 1 / 2) (hlow : ∀ row ∈ rows, -(1 / 2) < row.amount) :
    ∃ g : Filling ℚ, g.Packed k ε ∧
      (∀ c : ℕ → ℚ, (rows.map fun row => c row.item * Scalar.round row.amount).sum =
        (g.rows.map fun row => c row.item * row.amount).sum) ∧
      (value = g.value ↔ ∀ row ∈ rows, row.amount = 0 ∨ row.amount = 1 ∨ k.valueOf row.item = 0) := by
  cases h with
  | @packed g hg =>
    refine ⟨g, hg, hg.sum_round, iff_of_true rfl fun row hrow => ?_⟩
    exact (hg.amount_eq row hrow).imp_right Or.inl
  | @topped g item hg _ hamount =>
    have hlast : (⟨item, g.remainder / k.weightOf item, 0⟩ : FillRow ℚ) ∈
        (g.take k item (g.remainder / k.weightOf item) 0).rows := mem_rows_take.mpr (Or.inr rfl)
    have hround : Scalar.round (g.remainder / k.weightOf item) = 0 :=
      Scalar.round_eq_zero (hlow _ hlast) (hamount.trans_lt hε)
    refine ⟨g, hg, fun c => ?_, ⟨fun hvalue row hrow => ?_, fun hall => ?_⟩⟩
    · simp only [Filling.take, List.map_append, List.sum_append, List.map_cons, List.map_nil, List.sum_cons, List.sum_nil,
        hround, mul_zero, add_zero]
      exact hg.sum_round c
    · rcases mem_rows_take.mp hrow with hrow | rfl
      · exact (hg.amount_eq row hrow).imp_right Or.inl
      · have hshare : g.remainder / k.weightOf item * k.valueOf item = 0 := add_eq_left.mp hvalue
        exact (mul_eq_zero.mp hshare).imp_right Or.inr
    · refine add_eq_left.mpr (mul_eq_zero.mpr ?_)
      rcases hall _ hlast with hzero | hone | hvalue
      · exact Or.inl hzero
      · linarith
      · exact Or.inr hvalue

end NearlyIntegral

/-! ### Whole numbers -/

theorem Filling.Packed.remainder_mem_integers (h : g.Packed k ε) (hcapacity : k.capacity ∈ Scalar.integers)
    (hweights : ∀ i, k.weightOf i ∈ Scalar.integers) : g.remainder ∈ Scalar.integers := by
  have hload : (g.rows.map fun row => k.weightOf row.item * row.amount).sum ∈ Scalar.integers := by
    refine Subring.list_sum_mem _ fun v hv => ?_
    obtain ⟨row, hrow, rfl⟩ := List.mem_map.mp hv
    rcases h.amount_eq row hrow with hzero | hone
    · rw [hzero, mul_zero]
      exact zero_mem _
    · rw [hone, mul_one]
      exact hweights row.item
  rw [eq_sub_of_add_eq h.tallies.capacity_eq.symm]
  exact sub_mem hcapacity hload

theorem NearlyIntegral.amount_of_integers (h : NearlyIntegral k ε rows value) (hε : ε < 1 / 2)
    (hcapacity : k.capacity ∈ Scalar.integers) (hweights : ∀ i, k.weightOf i ∈ Scalar.integers)
    (hsmall : ∀ i, ε * k.weightOf i < 1) (hrow : row ∈ rows) : row.amount = 0 ∨ row.amount = 1 := by
  cases h with
  | packed hg => exact hg.amount_eq row hrow
  | @topped g item hg hexceeds hamount =>
    rcases mem_rows_take.mp hrow with hrow | rfl
    · exact hg.amount_eq row hrow
    · -- what is left is an integer, above minus one and below one
      obtain ⟨z, hz⟩ := Scalar.mem_integers.mp (hg.remainder_mem_integers hcapacity hweights)
      have hlow := hg.remainder_ge
      have hweight : 0 < k.weightOf item := by linarith
      have hhigh : g.remainder < 1 := ((div_le_iff₀ hweight).mp hamount).trans_lt (hsmall item)
      rw [hz] at hlow hhigh
      have hlow' : (-1 : ℚ) < z := by linarith
      have hzero : z = 0 := by
        have habove : (-1 : ℤ) < z := by exact_mod_cast hlow'
        have hbelow : z < 1 := by exact_mod_cast hhigh
        omega
      left
      show g.remainder / k.weightOf item = 0
      rw [hz, hzero, Int.cast_zero, zero_div]

/-! ### Reports -/

theorem isFeasible_of_binary {m : Model ℚ} {x : List ℚ} (hk : ofModel m = .ok k) (hε : 0 ≤ ε)
    (hbinary : ∀ v ∈ x, v = 0 ∨ v = 1) (hweight : Scalar.dot k.weights x ≤ k.capacity + ε) :
    m.isFeasible x ε = true := by
  obtain ⟨-, hconstraints, -, hdomains, -⟩ := ofModel_eq_ok hk
  rw [Model.isFeasible, Bool.and_eq_true, List.all_eq_true, List.all_eq_true]
  constructor
  · intro c hc
    rw [hconstraints, List.mem_singleton] at hc
    rw [hc]
    exact decide_eq_true hweight
  · intro b hb
    obtain ⟨i, hi, rfl⟩ := List.mem_iff_getElem.mp hb
    rw [List.length_zipWith] at hi
    have hdomain := hdomains _ (List.getElem_mem (lt_min_iff.mp hi).1)
    have hvalue := hbinary _ (List.getElem_mem (lt_min_iff.mp hi).2)
    rw [List.getElem_zipWith, hdomain, id, VariableDomain.contains, Bool.and_eq_true, decide_eq_true_iff,
      decide_eq_true_iff]
    rcases hvalue with hzero | hone
    · rw [hzero]
      exact ⟨by linarith, by linarith⟩
    · rw [hone]
      exact ⟨by linarith, by linarith⟩

/-- A selection of items that are inside or outside does not violate the constraint. Its value is off by the share of the
item that is not in the packing. -/
theorem NearlyIntegral.report_of_binary {m : Model ℚ} (h : NearlyIntegral k ε rows value) (hk : ofModel m = .ok k)
    (hnonneg : 0 ≤ ε) (hε : ε < 1 / 2) (hitems : (rows.map (·.item)).Nodup)
    (hlt : ∀ row ∈ rows, row.item < k.nrItems) (hbinary : ∀ v ∈ (k.selection rows value).values, v = 0 ∨ v = 1) :
    m.isFeasible (k.selection rows value).values ε = true ∧
      (value = m.objectiveValue (k.selection rows value).values ↔
        ∀ row ∈ rows, row.amount = 0 ∨ row.amount = 1 ∨ k.valueOf row.item = 0) := by
  obtain ⟨-, -, hvalues, -, -⟩ := ofModel_eq_ok hk
  obtain ⟨g, hg, hsum, hvalue⟩ := h.exists_packed hε ((h.binary_iff hε hitems hlt).mp hbinary)
  constructor
  · refine isFeasible_of_binary hk hnonneg hbinary ?_
    have hload : Scalar.dot k.weights (k.selection rows value).values =
        (g.rows.map fun row => k.weightOf row.item * row.amount).sum :=
      (dot_selection hitems hlt k.weights).trans (hsum k.weightOf)
    linarith [hg.tallies.capacity_eq, hg.remainder_ge]
  · have hworth : m.objectiveValue (k.selection rows value).values = g.value := by
      rw [Model.objectiveValue, ← hvalues, hg.tallies.value_eq]
      exact (dot_selection hitems hlt k.values).trans (hsum k.valueOf)
    rw [hworth]
    exact hvalue

/-! ### The search -/

/-- The iteration is that of a node whose relaxation is integral, and the selection is read off its rows. -/
structure Yields (k : Knapsack ℚ) (ε : ℚ) (iteration : KnapsackIteration ℚ) (best : Selection ℚ) : Prop where
  exists_node : ∃ fixed : List (Option Bool), fixed.length = k.nrItems ∧
    k.relax k.ranking fixed ε = (iteration.rows, .integral best.objectiveValue)
  objectiveValue_eq : iteration.objectiveValue = some best.objectiveValue
  values_eq : best.values = (k.selection iteration.rows best.objectiveValue).values

/-- Waiting nodes decide on all items, and an iteration yields the incumbent. -/
structure State.Traced (k : Knapsack ℚ) (ε : ℚ) (state : State ℚ) : Prop where
  length_eq : ∀ fixed ∈ state.queue, fixed.length = k.nrItems
  incumbent : ∀ best, state.incumbent = some best → ∃ iteration ∈ state.iterations, k.Yields ε iteration best

theorem traced_root (k : Knapsack ℚ) (ε : ℚ) : State.Traced k ε ⟨[List.replicate k.nrItems none], #[], none⟩ := by
  constructor
  · intro fixed hfixed
    rw [List.mem_singleton.mp hfixed, List.length_replicate]
  · intro best hbest
    cases hbest

theorem State.Traced.visit (h : state.Traced k ε) (hqueue : state.queue = fixed :: rest) :
    (k.visit k.ranking ε state fixed rest).Traced k ε := by
  have hlength : fixed.length = k.nrItems := h.length_eq fixed (hqueue ▸ List.mem_cons_self)
  have hrest : ∀ node ∈ rest, node.length = k.nrItems :=
    fun node hnode => h.length_eq node (hqueue ▸ List.mem_cons_of_mem _ hnode)
  have hkept : ∀ (iteration : KnapsackIteration ℚ) best, state.incumbent = some best →
      ∃ old ∈ state.iterations.push iteration, k.Yields ε old best := by
    intro iteration best hbest
    obtain ⟨old, hmem, hyields⟩ := h.incumbent best hbest
    exact ⟨old, Array.mem_push_of_mem _ hmem, hyields⟩
  unfold Knapsack.visit
  cases hrelax : k.relax k.ranking fixed ε with
  | mk rows r =>
    cases r with
    | infeasible => exact ⟨hrest, hkept _⟩
    | integral value =>
      simp only
      split
      · refine ⟨hrest, fun best hbest => ?_⟩
        cases hbest
        exact ⟨_, Array.mem_push_self, ⟨fixed, hlength, hrelax⟩, rfl, rfl⟩
      · exact ⟨hrest, hkept _⟩
    | fractional value item =>
      simp only
      split
      · refine ⟨fun node hnode => ?_, hkept _⟩
        rcases List.mem_append.mp hnode with hnode | hnode
        · exact hrest node hnode
        · rcases List.mem_pair.mp hnode with rfl | rfl
          · rw [List.length_set, hlength]
          · rw [List.length_set, hlength]
      · exact ⟨hrest, hkept _⟩

theorem traced_searchLoop (remaining : ℕ) (h : state.Traced k ε) :
    (k.searchLoop k.ranking ε remaining state).1.Traced k ε := by
  induction remaining generalizing state with
  | zero =>
    unfold searchLoop
    cases state.queue with
    | nil => exact h
    | cons fixed rest => exact h
  | succ remaining ih =>
    unfold searchLoop
    cases hqueue : state.queue with
    | nil => exact h
    | cons fixed rest => exact ih (h.visit hqueue)

theorem exists_yields_search {maxIterations : ℕ} {best : Selection ℚ}
    (h : (k.search ε maxIterations).outcome = .optimal best) :
    ∃ iteration ∈ (k.search ε maxIterations).iterations, k.Yields ε iteration best := by
  have htraced := traced_searchLoop maxIterations (k.traced_root ε)
  refine htraced.incumbent best ?_
  unfold search at h
  simp only at h
  split at h
  · rename_i found hfound
    cases h
    exact hfound
  · cases h

end Knapsack

namespace Model

/-- The selection that is reported for a knapsack problem is that of an iteration. Its rows tell whether the report is
faithful: no amount may round to a negative integer, and none in between may have a value. -/
theorem faithful_solveKnapsack {direction : Direction} {cost : List ℚ} {rows : List (List ℚ)}
    {relations : List Relation} {rhs : List ℚ} {domains : List VariableDomain} {m : Model ℚ} {k : Knapsack ℚ}
    {settings : Settings ℚ} {report : KnapsackReport ℚ} {best : Selection ℚ}
    (hm : ofData direction cost rows relations rhs domains = .ok m) (hk : Knapsack.ofModel m = .ok k)
    (hnonneg : 0 ≤ settings.tolerances.knapsack) (hε : settings.tolerances.knapsack < 1 / 2)
    (hreport : m.solveKnapsack settings = .ok report) (hbest : report.outcome = .optimal best) :
    ∃ iteration ∈ report.iterations, iteration.objectiveValue = some best.objectiveValue ∧
      best.values = (k.selection iteration.rows best.objectiveValue).values ∧
      ((∀ v ∈ best.values, v = 0 ∨ v = 1) ↔ ∀ row ∈ iteration.rows, -(1 / 2) < row.amount) ∧
      ((∀ v ∈ best.values, v = 0 ∨ v = 1) →
        m.isFeasible best.values settings.tolerances.knapsack = true ∧
        (best.objectiveValue = m.objectiveValue best.values ↔
          ∀ row ∈ iteration.rows, row.amount = 0 ∨ row.amount = 1 ∨ k.valueOf row.item = 0)) ∧
      (k.capacity ∈ Scalar.integers → (∀ i, k.weightOf i ∈ Scalar.integers) →
        (∀ i, settings.tolerances.knapsack * k.weightOf i < 1) → best.Faithful m settings.tolerances.knapsack) := by
  have hvalid := Knapsack.valid_of_ofModel (valid_of_ofData hm) hk
  rw [solveKnapsack, hk] at hreport
  obtain rfl := Except.ok.inj hreport
  obtain ⟨iteration, hmem, ⟨fixed, hlength, hrelax⟩, hvalue, hvalues⟩ := Knapsack.exists_yields_search hbest
  have hnear := Knapsack.nearlyIntegral_relax hrelax
  obtain ⟨hitems, hlt⟩ := Knapsack.nodup_items_relax hvalid hlength settings.tolerances.knapsack
  rw [hrelax] at hitems hlt
  have hbinary := hnear.binary_iff hε hitems hlt
  have hrest := hnear.report_of_binary hk hnonneg hε hitems hlt
  rw [← hvalues] at hbinary hrest
  refine ⟨iteration, hmem, hvalue, hvalues, hbinary, hrest, fun hcapacity hweights hsmall => ?_⟩
  have hamounts : ∀ row ∈ iteration.rows, row.amount = 0 ∨ row.amount = 1 :=
    fun row hrow => hnear.amount_of_integers hε hcapacity hweights hsmall hrow
  have hvalues01 : ∀ v ∈ best.values, v = 0 ∨ v = 1 := by
    refine hbinary.mpr fun row hrow => ?_
    rcases hamounts row hrow with hzero | hone
    · linarith
    · linarith
  obtain ⟨hfeasible, hobjective⟩ := hrest hvalues01
  exact ⟨hvalues01, hfeasible, hobjective.mpr fun row hrow => (hamounts row hrow).imp_right Or.inl⟩

theorem faithful_solveKnapsack_packingModel :
    ofData .maximize [8, 11, 6, 4, 3] [[5, 7, 4, 3, 0]] [.less] [14] (List.replicate 5 .binary) = .ok packingModel ∧
    Knapsack.ofModel packingModel = .ok ⟨[8, 11, 6, 4, 3], [5, 7, 4, 3, 0], 14⟩ ∧
    0 ≤ (Settings.standard : Settings ℚ).tolerances.knapsack ∧
    (Settings.standard : Settings ℚ).tolerances.knapsack < 1 / 2 ∧
    ∃ report, packingModel.solveKnapsack Settings.standard = .ok report ∧
      report.outcome = .optimal ⟨24, [0, 1, 1, 1, 1]⟩ ∧
      Selection.Faithful packingModel (Settings.standard : Settings ℚ).tolerances.knapsack ⟨24, [0, 1, 1, 1, 1]⟩ := by
  have hm : ofData .maximize [8, 11, 6, 4, 3] [[5, 7, 4, 3, 0]] [.less] [14] (List.replicate 5 .binary) =
      .ok packingModel := by decide +kernel
  have hk : Knapsack.ofModel packingModel = .ok ⟨[8, 11, 6, 4, 3], [5, 7, 4, 3, 0], 14⟩ := by decide +kernel
  have hnonneg : 0 ≤ (Settings.standard : Settings ℚ).tolerances.knapsack := by decide +kernel
  have hε : (Settings.standard : Settings ℚ).tolerances.knapsack < 1 / 2 := by decide +kernel
  have hweights : ∀ i, ∃ w : ℤ, ([5, 7, 4, 3, 0] : List ℚ).getD i 0 = w ∧ w ≤ 7 := by
    intro i
    match i with
    | 0 => exact ⟨5, rfl, by decide⟩
    | 1 => exact ⟨7, rfl, by decide⟩
    | 2 => exact ⟨4, rfl, by decide⟩
    | 3 => exact ⟨3, rfl, by decide⟩
    | 4 => exact ⟨0, rfl, by decide⟩
    | i + 5 => exact ⟨0, rfl, by decide⟩
  have houtcome : (Knapsack.search ⟨[8, 11, 6, 4, 3], [5, 7, 4, 3, 0], 14⟩
      (Settings.standard : Settings ℚ).tolerances.knapsack 30).outcome = .optimal ⟨24, [0, 1, 1, 1, 1]⟩ := by
    decide +kernel
  obtain ⟨_, -, -, -, -, -, hwhole⟩ := faithful_solveKnapsack hm hk hnonneg hε rfl houtcome
  refine ⟨hm, hk, hnonneg, hε, _, rfl, houtcome, hwhole (Scalar.intCast_mem_integers 14) ?_ ?_⟩
  · intro i
    obtain ⟨w, hw, -⟩ := hweights i
    exact Scalar.mem_integers.mpr ⟨w, hw⟩
  · intro i
    obtain ⟨w, hw, hle⟩ := hweights i
    have hle' : (w : ℚ) ≤ 7 := by exact_mod_cast hle
    have hseven : (Settings.standard : Settings ℚ).tolerances.knapsack * 7 < 1 := by decide +kernel
    have hweight : Knapsack.weightOf ⟨[8, 11, 6, 4, 3], [5, 7, 4, 3, 0], (14 : ℚ)⟩ i ≤ 7 := hw.trans_le hle'
    exact (mul_le_mul_of_nonneg_left hweight hnonneg).trans_lt hseven

/-- The first item exceeds the capacity by less than the standard tolerance and is taken whole. The amount of the second
one is then negative. -/
def tightModel : Model ℚ where
  direction := .maximize
  cost := [4000, 1]
  domains := [.binary, .binary]
  constraints := [⟨[4099 / 4096, 1 / 2048], .less, 1⟩]

theorem not_faithful_tightModel :
    ofData .maximize [4000, 1] [[4099 / 4096, 1 / 2048]] [.less] [1] [.binary, .binary] = .ok tightModel ∧
    Knapsack.ofModel tightModel = .ok ⟨[4000, 1], [4099 / 4096, 1 / 2048], 1⟩ ∧
    0 ≤ (Settings.standard : Settings ℚ).tolerances.knapsack ∧
    (Settings.standard : Settings ℚ).tolerances.knapsack < 1 / 2 ∧
    ∃ report, tightModel.solveKnapsack Settings.standard = .ok report ∧
      report.outcome = .optimal ⟨7997 / 2, [1, -2]⟩ ∧
      (¬∀ v ∈ [1, -2], v = 0 ∨ v = (1 : ℚ)) ∧
      tightModel.isFeasible [1, -2] (Settings.standard : Settings ℚ).tolerances.knapsack = false ∧
      7997 / 2 ≠ tightModel.objectiveValue [1, -2] := by
  have hk : Knapsack.ofModel tightModel = .ok ⟨[4000, 1], [4099 / 4096, 1 / 2048], 1⟩ := by decide +kernel
  refine ⟨by decide +kernel, hk, by decide +kernel, by decide +kernel,
    Knapsack.search ⟨[4000, 1], [4099 / 4096, 1 / 2048], 1⟩ (Settings.standard : Settings ℚ).tolerances.knapsack 30,
    ?_, ?_⟩
  · rw [solveKnapsack, hk]
    rfl
  · decide +kernel

end Model

end LinearProgramming
