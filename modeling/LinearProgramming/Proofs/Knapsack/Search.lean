import LinearProgramming.Proofs.Knapsack.Relaxation

/-! # Correctness of the knapsack search

Between two nodes of a search, the incumbent is a selection within the capacity, and every better selection agrees with
a waiting node (`Knapsack.State.Sound`). A visited node is dropped only when none of its selections improves on the
incumbent, by the exactness of its relaxation; otherwise each of them agrees with one of its two children. A search that
runs out of nodes has therefore found the best selection, if there is one. -/

namespace LinearProgramming

namespace Knapsack

variable {k : Knapsack ℚ} {fixed : List (Option Bool)} {rest : List (List (Option Bool))} {rows : List (FillRow ℚ)}
  {x : List ℚ} {value : ℚ} {state : State ℚ} {incumbent : Option (Selection ℚ)} {iterations : Array (KnapsackIteration ℚ)}

/-! ### Selections -/

/-- Each item is inside or outside, and those inside stay within the capacity. -/
structure Selects (k : Knapsack ℚ) (x : List ℚ) : Prop where
  length_eq : x.length = k.nrItems
  binary : ∀ v ∈ x, v = 0 ∨ v = 1
  weight_le : Scalar.dot k.weights x ≤ k.capacity

namespace Selects

theorem admits (h : k.Selects x) (hx : Agrees fixed x) : k.Admits fixed x := by
  refine ⟨h.length_eq, fun v hv => ?_, hx, h.weight_le⟩
  rcases h.binary v hv with rfl | rfl
  · exact ⟨le_rfl, zero_le_one⟩
  · exact ⟨zero_le_one, le_rfl⟩

theorem agrees_root (h : k.Selects x) : k.Admits (List.replicate k.nrItems none) x := by
  refine h.admits fun i inside hinside => ?_
  simp at hinside

theorem capacity_nonneg (h : k.Selects x) (hk : k.Valid) : 0 ≤ k.capacity := by
  have hload : Scalar.dot k.weights x = total k.weightOf (List.range k.nrItems) (x.getD · 0) :=
    dot_eq_total k.weights x k.nrItems hk.length_weights.le
  calc 0 ≤ total k.weightOf (List.range k.nrItems) (x.getD · 0) :=
        total_nonneg hk.weightOf_nonneg (fun i => (h.agrees_root.getD_bounds i).1) _
    _ ≤ k.capacity := hload ▸ h.weight_le

/-- An item is inside or outside, so a selection goes to one of the two children of a node. -/
theorem exists_agrees_set (h : k.Selects x) (hx : Agrees fixed x) {item : ℕ} (hitem : item < k.nrItems) :
    ∃ inside, Agrees (fixed.set item (some inside)) x := by
  obtain ⟨inside, hinside⟩ : ∃ inside : Bool, x.getD item 0 = if inside then 1 else 0 := by
    rw [← h.length_eq] at hitem
    rw [List.getD_eq_getElem _ _ hitem]
    rcases h.binary _ (List.getElem_mem hitem) with hzero | hone
    · exact ⟨false, hzero⟩
    · exact ⟨true, hone⟩
  refine ⟨inside, fun i choice hchoice => ?_⟩
  rw [List.getD_eq_getElem?_getD, List.getElem?_set] at hchoice
  split_ifs at hchoice with hi hlt
  · obtain rfl : inside = choice := by simpa using hchoice
    rw [← hi, hinside]
  · simp at hchoice
  · exact hx i choice (by rw [List.getD_eq_getElem?_getD, hchoice])

end Selects

theorem selects_replicate_zero (hcapacity : 0 ≤ k.capacity) : k.Selects (List.replicate k.nrItems 0) := by
  refine ⟨List.length_replicate, fun v hv => Or.inl (List.mem_replicate.mp hv).2, ?_⟩
  have hzero : Scalar.dot k.weights (k.point []) = 0 := dot_point k.weights List.nodup_nil (by simp)
  exact hzero.trans_le hcapacity

theorem round_of_binary {a : ℚ} (h : a = 0 ∨ a = 1) : Scalar.round a = a := by
  rcases h with rfl | rfl
  · decide +kernel
  · decide +kernel

theorem values_selection (hamounts : ∀ row ∈ rows, row.amount = 0 ∨ row.amount = 1) :
    (k.selection rows value).values = k.point rows := by
  refine List.foldl_ext _ _ _ fun values row hrow => ?_
  rw [round_of_binary (hamounts row hrow)]

/-- The selection of an integral relaxation is the best one that agrees with the node. -/
theorem selects_of_integral (hk : k.Valid) (hfixed : fixed.length = k.nrItems)
    (h : k.relax k.ranking fixed 0 = (rows, .integral value)) :
    k.Selects (k.selection rows value).values ∧ value = Scalar.dot k.values (k.selection rows value).values := by
  have hamounts : ∀ row ∈ rows, row.amount = 0 ∨ row.amount = 1 := fun row hrow => amount_of_integral h hrow
  have hexact := exact_relax hk hfixed
  rw [h] at hexact
  obtain ⟨hadmits, hvalue, -⟩ := hexact
  rw [values_selection hamounts]
  refine ⟨⟨length_point rows, fun v hv => ?_, hadmits.weight_le⟩, hvalue.symm⟩
  rcases mem_point hv with rfl | ⟨row, hrow, rfl⟩
  · exact Or.inl rfl
  · exact hamounts row hrow

/-! ### Steps of the search -/

theorem improves_iff : improves incumbent value 0 = true ↔ ∀ best, incumbent = some best → best.objectiveValue < value := by
  cases incumbent with
  | none => simp [improves]
  | some best => simp [improves, Scalar.isPositive_iff]

/-- The incumbent is a selection, and a better one agrees with a waiting node. -/
structure State.Sound (k : Knapsack ℚ) (state : State ℚ) : Prop where
  length_eq : ∀ fixed ∈ state.queue, fixed.length = k.nrItems
  selects : ∀ best, state.incumbent = some best →
    k.Selects best.values ∧ best.objectiveValue = Scalar.dot k.values best.values
  covers : ∀ x, k.Selects x → improves state.incumbent (Scalar.dot k.values x) 0 = true →
    ∃ fixed ∈ state.queue, Agrees fixed x

namespace State.Sound

variable (h : State.Sound k state) (hqueue : state.queue = fixed :: rest)
include h hqueue

theorem length_first : fixed.length = k.nrItems := h.length_eq fixed (hqueue ▸ List.mem_cons_self)

/-- A node may go when none of its selections improves on the incumbent. -/
theorem drop (hnone : ∀ x, k.Selects x → Agrees fixed x → ¬improves state.incumbent (Scalar.dot k.values x) 0 = true) :
    Sound k ⟨rest, iterations, state.incumbent⟩ := by
  refine ⟨fun node hnode => h.length_eq node (hqueue ▸ List.mem_cons_of_mem _ hnode), h.selects, fun x hx himproves => ?_⟩
  obtain ⟨node, hnode, hagrees⟩ := h.covers x hx himproves
  rw [hqueue] at hnode
  rcases List.mem_cons.mp hnode with rfl | hnode
  · exact absurd himproves (hnone x hx hagrees)
  · exact ⟨node, hnode, hagrees⟩

theorem drop_of_bound (hbound : ∀ x, k.Admits fixed x → Scalar.dot k.values x ≤ value)
    (hnot : ¬improves state.incumbent value 0 = true) : Sound k ⟨rest, iterations, state.incumbent⟩ := by
  refine h.drop hqueue fun x hx hagrees himproves => hnot ?_
  rw [improves_iff] at himproves ⊢
  exact fun best hbest => (himproves best hbest).trans_le (hbound x (hx.admits hagrees))

theorem replace {best : Selection ℚ} (hbest : k.Selects best.values)
    (hvalue : best.objectiveValue = Scalar.dot k.values best.values)
    (hbound : ∀ x, k.Admits fixed x → Scalar.dot k.values x ≤ best.objectiveValue)
    (himproves : improves state.incumbent best.objectiveValue 0 = true) : Sound k ⟨rest, iterations, some best⟩ := by
  refine ⟨fun node hnode => h.length_eq node (hqueue ▸ List.mem_cons_of_mem _ hnode), ?_, fun x hx hx' => ?_⟩
  · rintro _ ⟨⟩
    exact ⟨hbest, hvalue⟩
  · have hlt : best.objectiveValue < Scalar.dot k.values x := improves_iff.mp hx' best rfl
    have hold : improves state.incumbent (Scalar.dot k.values x) 0 = true :=
      improves_iff.mpr fun old hsome => (improves_iff.mp himproves old hsome).trans hlt
    obtain ⟨node, hnode, hagrees⟩ := h.covers x hx hold
    rw [hqueue] at hnode
    rcases List.mem_cons.mp hnode with rfl | hnode
    · exact absurd (hbound x (hx.admits hagrees)) (not_le.mpr hlt)
    · exact ⟨node, hnode, hagrees⟩

theorem branch {item : ℕ} (hitem : item < k.nrItems) :
    Sound k ⟨rest ++ [fixed.set item (some false), fixed.set item (some true)], iterations, state.incumbent⟩ := by
  have hchildren : ∀ inside : Bool, fixed.set item (some inside) ∈
      rest ++ [fixed.set item (some false), fixed.set item (some true)] := by
    intro inside
    cases inside with
    | false => simp
    | true => simp
  refine ⟨fun node hnode => ?_, h.selects, fun x hx himproves => ?_⟩
  · rcases List.mem_append.mp hnode with hnode | hnode
    · exact h.length_eq node (hqueue ▸ List.mem_cons_of_mem _ hnode)
    · have hlen := h.length_first hqueue
      rcases List.mem_pair.mp hnode with rfl | rfl
      · rw [List.length_set, hlen]
      · rw [List.length_set, hlen]
  · obtain ⟨node, hnode, hagrees⟩ := h.covers x hx himproves
    rw [hqueue] at hnode
    rcases List.mem_cons.mp hnode with rfl | hnode
    · obtain ⟨inside, hinside⟩ := hx.exists_agrees_set hagrees hitem
      exact ⟨_, hchildren inside, hinside⟩
    · exact ⟨node, List.mem_append_left _ hnode, hagrees⟩

theorem visit (hk : k.Valid) : Sound k (k.visit k.ranking 0 state fixed rest) := by
  have hlen := h.length_first hqueue
  have hexact := exact_relax hk hlen
  unfold Knapsack.visit
  cases hrelax : k.relax k.ranking fixed 0 with
  | mk rows r =>
    rw [hrelax] at hexact
    cases r with
    | infeasible => exact h.drop hqueue fun x hx hagrees => absurd (hx.admits hagrees) (hexact x)
    | integral value =>
      obtain ⟨hselects, hvalue⟩ := selects_of_integral hk hlen hrelax
      simp only
      split_ifs with himproves
      · exact h.replace hqueue hselects hvalue hexact.2.2 himproves
      · exact h.drop_of_bound hqueue hexact.2.2 himproves
    | fractional value item =>
      simp only
      split_ifs with himproves
      · exact h.branch hqueue (free_of_fractional hrelax).2
      · exact h.drop_of_bound hqueue hexact.2.2 himproves

end State.Sound

/-! ### Whole searches -/

theorem sound_root (k : Knapsack ℚ) : State.Sound k ⟨[List.replicate k.nrItems none], #[], none⟩ := by
  refine ⟨fun fixed hfixed => ?_, fun best hbest => ?_, fun x hx _ => ?_⟩
  · rw [List.mem_singleton.mp hfixed, List.length_replicate]
  · cases hbest
  · exact ⟨_, List.mem_singleton_self _, hx.agrees_root.agrees⟩

theorem sound_searchLoop (hk : k.Valid) (remaining : ℕ) (h : state.Sound k) :
    (k.searchLoop k.ranking 0 remaining state).1.Sound k ∧
      ((k.searchLoop k.ranking 0 remaining state).2 = false →
        (k.searchLoop k.ranking 0 remaining state).1.queue = []) := by
  induction remaining generalizing state with
  | zero =>
    unfold searchLoop
    cases hqueue : state.queue with
    | nil => exact ⟨h, fun _ => hqueue⟩
    | cons fixed rest => exact ⟨h, fun hfalse => by cases hfalse⟩
  | succ remaining ih =>
    unfold searchLoop
    cases hqueue : state.queue with
    | nil => exact ⟨h, fun _ => hqueue⟩
    | cons fixed rest => exact ih (h.visit hqueue hk)

/-- What an outcome says about the selections within the capacity. -/
def Verdict (k : Knapsack ℚ) : Outcome (Selection ℚ) → Prop
  | .optimal best => k.Selects best.values ∧ best.objectiveValue = Scalar.dot k.values best.values ∧
      ∀ x, k.Selects x → Scalar.dot k.values x ≤ best.objectiveValue
  | .infeasible => ∀ x, ¬k.Selects x
  | .unbounded => False

theorem verdict_search (hk : k.Valid) (maxIterations : ℕ) (hlimit : (k.search 0 maxIterations).limitReached = false) :
    k.Verdict (k.search 0 maxIterations).outcome := by
  obtain ⟨hsound, hqueue⟩ := sound_searchLoop hk maxIterations k.sound_root
  have hempty := hqueue hlimit
  have hbest : ∀ x, k.Selects x → ∃ best, (k.searchLoop k.ranking 0 maxIterations
      ⟨[List.replicate k.nrItems none], #[], none⟩).1.incumbent = some best ∧
      Scalar.dot k.values x ≤ best.objectiveValue := by
    intro x hx
    by_contra hnone
    have himproves := improves_iff.mpr fun best hsome => not_le.mp fun hle => hnone ⟨best, hsome, hle⟩
    obtain ⟨fixed, hfixed, -⟩ := hsound.covers x hx himproves
    rw [hempty] at hfixed
    cases hfixed
  unfold search
  simp only
  cases hincumbent : (k.searchLoop k.ranking 0 maxIterations ⟨[List.replicate k.nrItems none], #[], none⟩).1.incumbent with
  | none =>
    intro x hx
    obtain ⟨best, hsome, -⟩ := hbest x hx
    rw [hincumbent] at hsome
    cases hsome
  | some best =>
    obtain ⟨hselects, hvalue⟩ := hsound.selects best hincumbent
    refine ⟨hselects, hvalue, fun x hx => ?_⟩
    obtain ⟨best', hsome, hle⟩ := hbest x hx
    rw [hincumbent] at hsome
    cases hsome
    exact hle

end Knapsack

namespace Model

/-- For every model that is a knapsack problem. -/
theorem correct_solveKnapsack {direction : Direction} {cost : List ℚ} {rows : List (List ℚ)}
    {relations : List Relation} {rhs : List ℚ} {domains : List VariableDomain} {m : Model ℚ} {k : Knapsack ℚ}
    {settings : Settings ℚ} (hm : ofData direction cost rows relations rhs domains = .ok m)
    (hk : Knapsack.ofModel m = .ok k) (hsettings : settings.tolerances.knapsack = 0) :
    k.values = m.cost ∧ m.constraints = [⟨k.weights, .less, k.capacity⟩] ∧
    ∃ report, m.solveKnapsack settings = .ok report ∧ (report.limitReached = false →
      ((∃ best, report.outcome = .optimal best) ↔ 0 ≤ k.capacity) ∧
      ∀ best, report.outcome = .optimal best →
        k.Selects best.values ∧ best.objectiveValue = m.objectiveValue best.values ∧
        ∀ x, k.Selects x → m.objectiveValue x ≤ best.objectiveValue) := by
  have hvalid := Knapsack.valid_of_ofModel (valid_of_ofData hm) hk
  obtain ⟨-, hconstraints, hvalues, -, -⟩ := Knapsack.ofModel_eq_ok hk
  refine ⟨hvalues, hconstraints, k.search 0 settings.maxKnapsackIterations, ?_, fun hlimit => ?_⟩
  · rw [solveKnapsack, hk, hsettings]
    rfl
  · have hverdict := Knapsack.verdict_search hvalid _ hlimit
    refine ⟨⟨?_, fun hcapacity => ?_⟩, fun best hbest => ?_⟩
    · rintro ⟨best, hbest⟩
      rw [hbest] at hverdict
      exact hverdict.1.capacity_nonneg hvalid
    · cases houtcome : (k.search 0 settings.maxKnapsackIterations).outcome with
      | optimal best => exact ⟨best, rfl⟩
      | unbounded =>
        rw [houtcome] at hverdict
        exact hverdict.elim
      | infeasible =>
        rw [houtcome] at hverdict
        exact absurd (Knapsack.selects_replicate_zero hcapacity) (hverdict _)
    · rw [hbest] at hverdict
      rw [objectiveValue, ← hvalues]
      exact ⟨hverdict.1, hverdict.2.1, fun x hx => by rw [objectiveValue, ← hvalues]; exact hverdict.2.2 x hx⟩

/-- The greedy choice takes the first item, which the best selection leaves out. The last item has no weight. -/
def packingModel : Model ℚ where
  direction := .maximize
  cost := [8, 11, 6, 4, 3]
  domains := List.replicate 5 .binary
  constraints := [⟨[5, 7, 4, 3, 0], .less, 14⟩]

def packingSettings : Settings ℚ := { (Settings.standard : Settings ℚ) with tolerances := ⟨0, 0, 0⟩ }

theorem correct_solveKnapsack_packingModel :
    ofData .maximize [8, 11, 6, 4, 3] [[5, 7, 4, 3, 0]] [.less] [14] (List.replicate 5 .binary) = .ok packingModel ∧
    Knapsack.ofModel packingModel = .ok ⟨[8, 11, 6, 4, 3], [5, 7, 4, 3, 0], 14⟩ ∧
    (∃ report, packingModel.solveKnapsack packingSettings = .ok report ∧ report.limitReached = false ∧
      report.outcome = .optimal ⟨24, [0, 1, 1, 1, 1]⟩) ∧
    ∃ report, packingModel.solveKnapsack packingSettings = .ok report ∧ (report.limitReached = false →
      ((∃ best, report.outcome = .optimal best) ↔ (0 : ℚ) ≤ 14) ∧
      ∀ best, report.outcome = .optimal best →
        Knapsack.Selects ⟨[8, 11, 6, 4, 3], [5, 7, 4, 3, 0], 14⟩ best.values ∧
        best.objectiveValue = packingModel.objectiveValue best.values ∧
        ∀ x, Knapsack.Selects ⟨[8, 11, 6, 4, 3], [5, 7, 4, 3, 0], 14⟩ x →
          packingModel.objectiveValue x ≤ best.objectiveValue) := by
  have hm : ofData .maximize [8, 11, 6, 4, 3] [[5, 7, 4, 3, 0]] [.less] [14] (List.replicate 5 .binary) =
      .ok packingModel := by decide +kernel
  have hk : Knapsack.ofModel packingModel = .ok ⟨[8, 11, 6, 4, 3], [5, 7, 4, 3, 0], 14⟩ := by decide +kernel
  refine ⟨hm, hk, ⟨_, rfl, ?_⟩, (correct_solveKnapsack hm hk (by decide +kernel)).2.2⟩
  decide +kernel

end Model

end LinearProgramming
