import LinearProgramming.Proofs.Knapsack.Search

/-! # The order of a knapsack search

For any arithmetic, whatever its comparisons answer. The nodes of a search, visited and waiting, in the order in which
they were found, fix more and more items, and no node fixes only what an earlier one fixes too (`Frontier.ordered`). A
node branches on a free item only, so each of its children fixes one item more than the node. They come last: the
waiting nodes are at most one level below the next one, and contradict each other on an item (`Frontier.waiting`).

A search with `n` items therefore walks through a part of the binary tree of depth `n`, level by level. What is left of
that tree is counted by `Frontier.budget`. -/

namespace LinearProgramming

namespace Knapsack

variable {fixed a b c : List (Option Bool)} {visited queue rest : List (List (Option Bool))} {item n : ℕ}

/-! ### Nodes and their children -/

def depth (fixed : List (Option Bool)) : ℕ := (fixedItems fixed).length

theorem nodup_map_fst_fixedItems (fixed : List (Option Bool)) : ((fixedItems fixed).map (·.1)).Nodup := by
  rw [map_fst_fixedItems]
  exact List.nodup_range.filter _

theorem lt_length_of_mem_fixedItems {p : ℕ × Bool} (h : p ∈ fixedItems fixed) : p.1 < fixed.length := by
  have hmem : p.1 ∈ (fixedItems fixed).map (·.1) := List.mem_map_of_mem h
  rw [map_fst_fixedItems] at hmem
  exact List.mem_range.mp (List.mem_of_mem_filter hmem)

theorem depth_le_length (fixed : List (Option Bool)) : depth fixed ≤ fixed.length := by
  rw [depth, ← List.length_map (·.1), map_fst_fixedItems]
  exact (List.length_filter_le _ _).trans_eq List.length_range

/-- The two nodes contradict each other on an item. -/
def Clashes (a b : List (Option Bool)) : Prop := ∃ i inside, (i, inside) ∈ fixedItems a ∧ (i, !inside) ∈ fixedItems b

theorem Clashes.not_subset (h : Clashes a b) : ¬fixedItems a ⊆ fixedItems b := by
  obtain ⟨i, inside, ha, hb⟩ := h
  intro hsubset
  have hsame := (mem_fixedItems.mp (hsubset ha)).symm.trans (mem_fixedItems.mp hb)
  cases inside with
  | false => cases hsame
  | true => cases hsame

theorem Clashes.symm (h : Clashes a b) : Clashes b a := by
  obtain ⟨i, inside, ha, hb⟩ := h
  exact ⟨i, !inside, hb, by rwa [Bool.not_not]⟩

theorem Clashes.mono (h : Clashes a b) (hb : fixedItems b ⊆ fixedItems c) : Clashes a c := by
  obtain ⟨i, inside, ha, hmem⟩ := h
  exact ⟨i, inside, ha, hb hmem⟩

/-- The nodes that differ from a node in that the item is outside, and inside. -/
def children (fixed : List (Option Bool)) (item : ℕ) : List (List (Option Bool)) :=
  [fixed.set item (some false), fixed.set item (some true)]

theorem perm_fixedItems_set (hfree : fixed.getD item none = none) (hlt : item < fixed.length) (inside : Bool) :
    (fixedItems (fixed.set item (some inside))).Perm ((item, inside) :: fixedItems fixed) := by
  have hnodup : ∀ node : List (Option Bool), (fixedItems node).Nodup := fun node =>
    (nodup_map_fst_fixedItems node).of_map
  have hnew : ∀ choice, (item, choice) ∉ fixedItems fixed := by
    intro choice hmem
    rw [mem_fixedItems, hfree] at hmem
    cases hmem
  rw [List.perm_ext_iff_of_nodup (hnodup _) ((hnodup fixed).cons (hnew inside))]
  rintro ⟨i, choice⟩
  rw [mem_fixedItems, List.mem_cons, mem_fixedItems, List.getD_eq_getElem?_getD, List.getElem?_set]
  by_cases hi : item = i
  · subst hi
    simp only [if_true, if_pos hlt, Option.getD_some, Option.some.injEq, Prod.mk.injEq, true_and, hfree]
    exact ⟨fun h => Or.inl h.symm, fun h => (h.resolve_right nofun).symm⟩
  · simp [hi, Ne.symm hi]

theorem mem_children : c ∈ children fixed item ↔ ∃ inside, c = fixed.set item (some inside) := by
  rw [children, List.mem_pair, Bool.exists_bool]

section Children

variable (hfree : fixed.getD item none = none) (hlt : item < fixed.length)
include hfree hlt

theorem depth_set (inside : Bool) : depth (fixed.set item (some inside)) = depth fixed + 1 :=
  (perm_fixedItems_set hfree hlt inside).length_eq

theorem mem_fixedItems_set (inside : Bool) : (item, inside) ∈ fixedItems (fixed.set item (some inside)) :=
  (perm_fixedItems_set hfree hlt inside).mem_iff.mpr List.mem_cons_self

theorem fixedItems_subset_set (inside : Bool) : fixedItems fixed ⊆ fixedItems (fixed.set item (some inside)) :=
  fun _ hp => (perm_fixedItems_set hfree hlt inside).mem_iff.mpr (List.mem_cons_of_mem _ hp)

theorem clashes_children : Clashes (fixed.set item (some false)) (fixed.set item (some true)) :=
  ⟨item, false, mem_fixedItems_set hfree hlt false, mem_fixedItems_set hfree hlt true⟩

end Children

/-! ### Visited and waiting nodes -/

/-- The second node is at least as deep as the first, and fixes something that the first does not. -/
def Precedes (a b : List (Option Bool)) : Prop := depth a ≤ depth b ∧ ¬fixedItems b ⊆ fixedItems a

theorem Precedes.mono (h : Precedes a b) (hsubset : fixedItems b ⊆ fixedItems c) (hdepth : depth b ≤ depth c) :
    Precedes a c :=
  ⟨h.1.trans hdepth, fun hc => h.2 fun _ hp => hc (hsubset hp)⟩

theorem precedes_set (hfree : fixed.getD item none = none) (hlt : item < fixed.length) (inside : Bool) :
    Precedes fixed (fixed.set item (some inside)) := by
  refine ⟨by rw [depth_set hfree hlt]; omega, fun hsubset => ?_⟩
  have hmem := mem_fixedItems.mp (hsubset (mem_fixedItems_set hfree hlt inside))
  rw [hfree] at hmem
  cases hmem

/-- Number of the nodes below a node, with the node. -/
def subtree (n : ℕ) (fixed : List (Option Bool)) : ℕ := 2 ^ (n + 1 - depth fixed) - 1

theorem subtree_pos (h : depth fixed ≤ n) : 0 < subtree n fixed := by
  have htwo : 2 ^ 1 ≤ 2 ^ (n + 1 - depth fixed) := Nat.pow_le_pow_right two_pos (by omega)
  rw [subtree]
  omega

/-- The nodes of a search over `n` items: those that were visited and those that wait, each in the order in which they
were found. -/
structure Frontier (n : ℕ) (visited queue : List (List (Option Bool))) : Prop where
  length_eq : ∀ fixed ∈ visited ++ queue, fixed.length = n
  ordered : (visited ++ queue).Pairwise Precedes
  waiting : queue.Pairwise fun a b => Clashes a b ∧ depth b ≤ depth a + 1
  budget : visited.length + (queue.map (subtree n)).sum ≤ 2 ^ (n + 1) - 1

theorem frontier_root (n : ℕ) : Frontier n [] [List.replicate n none] := by
  have hdepth : depth (List.replicate n none) = 0 := by
    rw [depth, List.length_eq_zero_iff, List.eq_nil_iff_forall_not_mem]
    rintro ⟨i, inside⟩ hmem
    simp [mem_fixedItems] at hmem
  refine ⟨?_, List.pairwise_singleton _ _, List.pairwise_singleton _ _, ?_⟩
  · intro fixed hfixed
    rw [List.mem_singleton.mp hfixed, List.length_replicate]
  · simp [subtree, hdepth]

namespace Frontier

variable (h : Frontier n visited (fixed :: rest))
include h

theorem length_first : fixed.length = n := h.length_eq fixed (List.mem_append_right _ List.mem_cons_self)

theorem length_visited_succ_le : visited.length + 1 + (rest.map (subtree n)).sum ≤ 2 ^ (n + 1) - 1 := by
  have hpos := subtree_pos ((depth_le_length fixed).trans_eq h.length_first)
  have hbudget := h.budget
  rw [List.map_cons, List.sum_cons] at hbudget
  omega

theorem drop : Frontier n (visited ++ [fixed]) rest := by
  have hnodes : visited ++ fixed :: rest = visited ++ [fixed] ++ rest := List.append_cons ..
  refine ⟨hnodes ▸ h.length_eq, hnodes ▸ h.ordered, (List.pairwise_cons.mp h.waiting).2, ?_⟩
  rw [List.length_append, List.length_singleton]
  exact h.length_visited_succ_le

section Branch

variable (hfree : fixed.getD item none = none) (hlt : item < fixed.length)
include hfree hlt

theorem precedes_child (ha : a ∈ visited ++ fixed :: rest) (hc : c ∈ children fixed item) : Precedes a c := by
  obtain ⟨inside, rfl⟩ := mem_children.mp hc
  have hdepth := depth_set hfree hlt inside
  have hsubset := fixedItems_subset_set hfree hlt inside
  rcases List.mem_append.mp ha with ha | ha
  · have hbefore : Precedes a fixed := (List.pairwise_append.mp h.ordered).2.2 a ha fixed List.mem_cons_self
    exact hbefore.mono hsubset (by omega)
  · rcases List.mem_cons.mp ha with rfl | ha
    · exact precedes_set hfree hlt inside
    -- a waiting node contradicts the node, hence its children
    · obtain ⟨hclash, hlevel⟩ := (List.pairwise_cons.mp h.waiting).1 a ha
      exact ⟨by omega, (hclash.symm.mono hsubset).symm.not_subset⟩

theorem waiting_branch :
    (rest ++ children fixed item).Pairwise fun a b => Clashes a b ∧ depth b ≤ depth a + 1 := by
  obtain ⟨hfirst, hrest⟩ := List.pairwise_cons.mp h.waiting
  have hordered := (List.pairwise_cons.mp (List.pairwise_append.mp h.ordered).2.1).1
  refine List.pairwise_append.mpr ⟨hrest, ?_, fun a ha c hc => ?_⟩
  · refine List.pairwise_pair.mpr ⟨clashes_children hfree hlt, ?_⟩
    rw [depth_set hfree hlt, depth_set hfree hlt]
    omega
  · obtain ⟨inside, rfl⟩ := mem_children.mp hc
    refine ⟨(hfirst a ha).1.symm.mono (fixedItems_subset_set hfree hlt inside), ?_⟩
    rw [depth_set hfree hlt]
    exact Nat.succ_le_succ (hordered a ha).1

theorem budget_branch :
    (visited ++ [fixed]).length + ((rest ++ children fixed item).map (subtree n)).sum ≤ 2 ^ (n + 1) - 1 := by
  have hdepth : depth fixed + 1 ≤ n := by
    rw [← depth_set hfree hlt false, ← h.length_first]
    exact (depth_le_length _).trans_eq List.length_set
  -- the budget of the node pays for the visit and for the subtrees of its children
  have hsubtree : subtree n fixed = 1 + ((children fixed item).map (subtree n)).sum := by
    have hpos : 0 < 2 ^ (n + 1 - (depth fixed + 1)) := Nat.two_pow_pos _
    have hpow : 2 ^ (n + 1 - depth fixed) = 2 ^ (n + 1 - (depth fixed + 1)) * 2 := by
      rw [← pow_succ]
      congr 1
      omega
    simp only [children, List.map_cons, List.map_nil, List.sum_cons, List.sum_nil, subtree, depth_set hfree hlt]
    omega
  have hbudget := h.budget
  rw [List.map_cons, List.sum_cons, hsubtree] at hbudget
  rw [List.length_append, List.length_singleton, List.map_append, List.sum_append]
  omega

theorem branch : Frontier n (visited ++ [fixed]) (rest ++ children fixed item) := by
  have hnodes : visited ++ [fixed] ++ (rest ++ children fixed item) = visited ++ fixed :: rest ++ children fixed item := by
    simp
  have hchildren : (children fixed item).Pairwise Precedes := by
    refine List.pairwise_pair.mpr ⟨?_, (clashes_children hfree hlt).symm.not_subset⟩
    rw [depth_set hfree hlt, depth_set hfree hlt]
  refine ⟨?_, ?_, h.waiting_branch hfree hlt, h.budget_branch hfree hlt⟩
  · rw [hnodes]
    intro node hnode
    rcases List.mem_append.mp hnode with hnode | hnode
    · exact h.length_eq node hnode
    · obtain ⟨inside, rfl⟩ := mem_children.mp hnode
      rw [List.length_set, h.length_first]
  · rw [hnodes]
    exact List.pairwise_append.mpr ⟨h.ordered, hchildren, fun a ha c hc => h.precedes_child hfree hlt ha hc⟩

end Branch

end Frontier

/-! ### Whole searches -/

variable {α : Type} [Scalar α] {k : Knapsack α} {state : State α} {iterations : Array (KnapsackIteration α)}

/-- A visit is recorded, and the node leaves its children on a free item, or nothing. -/
theorem visit_cases (k : Knapsack α) (ε : α) (state : State α) (fixed : List (Option Bool))
    (rest : List (List (Option Bool))) :
    (∃ rows value, (k.visit k.ranking ε state fixed rest).iterations =
      state.iterations.push ⟨state.iterations.size, fixedItems fixed, rows, value⟩) ∧
    ((k.visit k.ranking ε state fixed rest).queue = rest ∨
      ∃ item < k.nrItems, fixed.getD item none = none ∧
        (k.visit k.ranking ε state fixed rest).queue = rest ++ children fixed item) := by
  unfold visit
  cases hrelax : k.relax k.ranking fixed ε with
  | mk rows r =>
    cases r with
    | infeasible => exact ⟨⟨rows, _, rfl⟩, Or.inl rfl⟩
    | integral value =>
      simp only
      split_ifs
      · exact ⟨⟨rows, _, rfl⟩, Or.inl rfl⟩
      · exact ⟨⟨rows, _, rfl⟩, Or.inl rfl⟩
    | fractional value item =>
      obtain ⟨hfree, hlt⟩ := free_of_fractional hrelax
      simp only
      split_ifs
      · exact ⟨⟨rows, _, rfl⟩, Or.inr ⟨item, hlt, hfree, rfl⟩⟩
      · exact ⟨⟨rows, _, rfl⟩, Or.inl rfl⟩

theorem Frontier.visit (h : Frontier k.nrItems visited (fixed :: rest)) (ε : α) (state : State α) :
    Frontier k.nrItems (visited ++ [fixed]) (k.visit k.ranking ε state fixed rest).queue := by
  obtain ⟨-, hqueue | ⟨item, hitem, hfree, hqueue⟩⟩ := k.visit_cases ε state fixed rest
  · rw [hqueue]
    exact h.drop
  · rw [hqueue]
    rw [← h.length_first] at hitem
    exact h.branch hfree hitem

/-- The iterations are those of the visited nodes, and are numbered from zero on. -/
structure Records (visited : List (List (Option Bool))) (iterations : Array (KnapsackIteration α)) : Prop where
  fixed_eq : iterations.toList.map (·.fixed) = visited.map fixedItems
  node_eq : iterations.toList.map (·.node) = List.range visited.length

namespace Records

omit [Scalar α] in
theorem size_eq (h : Records visited iterations) : iterations.size = visited.length := by
  simpa using congrArg List.length h.fixed_eq

omit [Scalar α] in
theorem exists_fixedItems (h : Records visited iterations) {iteration : KnapsackIteration α}
    (hiteration : iteration ∈ iterations) : ∃ fixed ∈ visited, fixedItems fixed = iteration.fixed := by
  have hmem : iteration.fixed ∈ iterations.toList.map (·.fixed) := List.mem_map_of_mem hiteration.val
  rw [h.fixed_eq] at hmem
  exact List.mem_map.mp hmem

omit [Scalar α] in
theorem pairwise (h : Records visited iterations) {R : List (ℕ × Bool) → List (ℕ × Bool) → Prop}
    (hvisited : visited.Pairwise fun a b => R (fixedItems a) (fixedItems b)) :
    iterations.toList.Pairwise fun a b => R a.fixed b.fixed := by
  rw [← List.pairwise_map] at hvisited
  rwa [← List.pairwise_map, h.fixed_eq]

theorem visit (h : Records visited state.iterations) (ε : α) (fixed : List (Option Bool))
    (rest : List (List (Option Bool))) :
    Records (visited ++ [fixed]) (k.visit k.ranking ε state fixed rest).iterations := by
  obtain ⟨⟨rows, value, hiterations⟩, -⟩ := k.visit_cases ε state fixed rest
  rw [hiterations]
  constructor
  · rw [Array.toList_push, List.map_append, List.map_append, h.fixed_eq]
    rfl
  · rw [Array.toList_push, List.map_append, h.node_eq, List.length_append, List.length_singleton, List.range_succ, h.size_eq]
    rfl

end Records

theorem exists_visited_searchLoop (ε : α) (remaining : ℕ) (state : State α)
    (h : Frontier k.nrItems visited state.queue) (hrecords : Records visited state.iterations) :
    ∃ visited', Frontier k.nrItems visited' (k.searchLoop k.ranking ε remaining state).1.queue ∧
      Records visited' (k.searchLoop k.ranking ε remaining state).1.iterations ∧
      visited'.length ≤ visited.length + remaining ∧
      ((k.searchLoop k.ranking ε remaining state).2 = true →
        visited'.length = visited.length + remaining ∧ (k.searchLoop k.ranking ε remaining state).1.queue ≠ []) := by
  -- on the number of nodes that may still be visited; each visit moves one node from the queue to the visited ones
  induction remaining generalizing state visited with
  | zero =>
    unfold searchLoop
    cases hqueue : state.queue with
    | nil => exact ⟨visited, h, hrecords, le_rfl, fun hreached => absurd hreached Bool.false_ne_true⟩
    | cons fixed rest => exact ⟨visited, h, hrecords, le_rfl, fun _ => ⟨rfl, by simp [hqueue]⟩⟩
  | succ remaining ih =>
    unfold searchLoop
    cases hqueue : state.queue with
    | nil => exact ⟨visited, h, hrecords, Nat.le_add_right _ _, fun hreached => absurd hreached Bool.false_ne_true⟩
    | cons fixed rest =>
      rw [hqueue] at h
      obtain ⟨visited', hfrontier, hrecords', hle, hlimit⟩ :=
        ih _ (h.visit ε state) (hrecords.visit ε fixed rest)
      rw [List.length_append, List.length_singleton, Nat.add_right_comm] at hle hlimit
      exact ⟨visited', hfrontier, hrecords', hle, hlimit⟩

theorem exists_visited_search (k : Knapsack α) (ε : α) (limit : ℕ) :
    ∃ visited queue, Frontier k.nrItems visited queue ∧ Records visited (k.search ε limit).iterations ∧
      visited.length ≤ limit ∧ ((k.search ε limit).limitReached = true → visited.length = limit ∧ queue ≠ []) := by
  obtain ⟨visited, hfrontier, hrecords, hle, hlimit⟩ := exists_visited_searchLoop ε limit
    ⟨[List.replicate k.nrItems none], #[], none⟩ (frontier_root k.nrItems) ⟨rfl, rfl⟩
  rw [List.length_nil, Nat.zero_add] at hle hlimit
  exact ⟨visited, _, hfrontier, hrecords, hle, hlimit⟩

end Knapsack

/-- The iterations of a search over `n` items that may make `limit` of them. -/
structure KnapsackReport.Explores {α : Type} (n limit : ℕ) (report : KnapsackReport α) : Prop where
  node_eq : report.iterations.toList.map (·.node) = List.range report.iterations.size
  fixed_items : ∀ iteration ∈ report.iterations, (iteration.fixed.map (·.1)).Nodup ∧ ∀ p ∈ iteration.fixed, p.1 < n
  distinct : report.iterations.toList.Pairwise fun a b => ¬∀ p, p ∈ a.fixed ↔ p ∈ b.fixed
  monotone : report.iterations.toList.Pairwise fun a b => a.fixed.length ≤ b.fixed.length
  size_le : report.iterations.size ≤ min limit (2 ^ (n + 1) - 1)
  size_eq : report.limitReached = true → report.iterations.size = limit
  ends : 2 ^ (n + 1) - 1 ≤ limit → report.limitReached = false

theorem Knapsack.explores_search {α : Type} [Scalar α] (k : Knapsack α) (ε : α) (limit : ℕ) :
    (k.search ε limit).Explores k.nrItems limit := by
  obtain ⟨visited, queue, hfrontier, hrecords, hle, hlimit⟩ := k.exists_visited_search ε limit
  have hordered := (List.pairwise_append.mp hfrontier.ordered).1
  refine ⟨?_, fun iteration hiteration => ?_, ?_, ?_, ?_, fun hreached => ?_, fun hlarge => ?_⟩
  · rw [hrecords.size_eq]
    exact hrecords.node_eq
  · obtain ⟨fixed, hfixed, heq⟩ := hrecords.exists_fixedItems hiteration
    rw [← heq]
    refine ⟨nodup_map_fst_fixedItems fixed, fun p hp => ?_⟩
    rw [← hfrontier.length_eq fixed (List.mem_append_left _ hfixed)]
    exact lt_length_of_mem_fixedItems hp
  · refine hrecords.pairwise (R := fun a b => ¬∀ p, p ∈ a ↔ p ∈ b) (hordered.imp fun hprecedes hsame => ?_)
    exact hprecedes.2 fun p hp => (hsame p).mpr hp
  · exact hrecords.pairwise (R := fun a b => a.length ≤ b.length) (hordered.imp fun hprecedes => hprecedes.1)
  · rw [hrecords.size_eq]
    exact le_min hle ((Nat.le_add_right _ _).trans hfrontier.budget)
  · rw [hrecords.size_eq]
    exact (hlimit hreached).1
  · by_contra hreached
    obtain ⟨hlen, hqueue⟩ := hlimit (Bool.eq_true_of_not_eq_false hreached)
    obtain ⟨fixed, rest, hcons⟩ := List.exists_cons_of_ne_nil hqueue
    rw [hcons] at hfrontier
    have hlt := hfrontier.length_visited_succ_le
    omega

namespace Model

/-- For every model that is a knapsack problem, in any arithmetic. -/
theorem explores_solveKnapsack {α : Type} [Scalar α] {m : Model α} {k : Knapsack α} (hk : Knapsack.ofModel m = .ok k)
    (settings : Settings α) :
    ∃ report, m.solveKnapsack settings = .ok report ∧
      report.Explores m.nrVariables settings.maxKnapsackIterations := by
  obtain ⟨-, -, hvalues, -, -⟩ := Knapsack.ofModel_eq_ok hk
  have hitems : k.nrItems = m.nrVariables := congrArg List.length hvalues
  refine ⟨k.search settings.tolerances.knapsack settings.maxKnapsackIterations, ?_, ?_⟩
  · rw [solveKnapsack, hk]
    rfl
  · rw [← hitems]
    exact k.explores_search _ _

-- Nodes of two levels are waiting when the limit is reached.
def hastySettings : Settings ℚ := { packingSettings with maxKnapsackIterations := 5 }

theorem explores_solveKnapsack_packingModel :
    Knapsack.ofModel packingModel = .ok ⟨[8, 11, 6, 4, 3], [5, 7, 4, 3, 0], 14⟩ ∧
    ∃ report, packingModel.solveKnapsack hastySettings = .ok report ∧ report.limitReached = true ∧
      report.iterations.size = 5 ∧ report.Explores 5 5 := by
  have hk : Knapsack.ofModel packingModel = .ok ⟨[8, 11, 6, 4, 3], [5, 7, 4, 3, 0], 14⟩ := by decide +kernel
  obtain ⟨report, hreport, hexplores⟩ := explores_solveKnapsack hk hastySettings
  have hreached : (packingModel.solveKnapsack hastySettings).map (·.limitReached) = .ok true := by decide +kernel
  rw [hreport] at hreached
  have hlimit : report.limitReached = true := Except.ok.inj hreached
  exact ⟨hk, report, hreport, hlimit, hexplores.size_eq hlimit, hexplores⟩

end Model

end LinearProgramming
