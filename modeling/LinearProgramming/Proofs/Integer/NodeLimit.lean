import Mathlib.Algebra.Order.BigOperators.Ring.Finset
import Mathlib.Tactic.Simps.Basic
import LinearProgramming.Proofs.Integer.BranchAndBound
import LinearProgramming.Proofs.Integer.Trail

/-! # The number of nodes of a search

A search stops for want of nodes or at its node limit. The first is certain if the feasible set bounds every variable
of the search. Each waiting node then lies in a `Box` of integer points, and a branching row splits the box of its node
in two: a solved node lies in its own box, so the fractional value that it is branched at has points on either side.
A box with `k` points is therefore good for at most `2 * k - 1` nodes (`SearchState.Boxed`), whatever the order of the
search, and a search with enough fuel ends (`CanonicalForm.searchLoop_ends`).

A limit below that number may stop a search before it has seen any solution, and its answer is then the same as that
for a model without one (`Model.infeasible_solve`). -/

namespace LinearProgramming

open CanonicalForm

/-! ### Boxes -/

/-- Integer bounds on variables, with at least one point between them. -/
structure Box where
  lower : ℕ → ℤ
  upper : ℕ → ℤ
  lower_le_upper : ∀ v, lower v ≤ upper v

namespace Box

variable {b : Box} {axes : Finset ℕ} {v : ℕ} {z : ℤ}

/-- The assignment is within the bounds of the given variables. -/
def Contains (b : Box) (axes : Finset ℕ) (y : List ℚ) : Prop :=
  ∀ v ∈ axes, (b.lower v : ℚ) ≤ y.getD v 0 ∧ y.getD v 0 ≤ b.upper v

/-- The number of integer points in the given variables. -/
def points (b : Box) (axes : Finset ℕ) : ℕ := ∏ v ∈ axes, (b.upper v + 1 - b.lower v).toNat

/-- The nodes of a tree with a leaf for each point and two children for every other node. -/
def nodes (b : Box) (axes : Finset ℕ) : ℕ := 2 * b.points axes - 1

/-- The part of a box in which a variable is at most `z`. -/
@[simps] def below (b : Box) (v : ℕ) (z : ℤ) (hz : b.lower v ≤ z) : Box where
  lower := b.lower
  upper := Function.update b.upper v z
  lower_le_upper w := by
    rcases eq_or_ne w v with rfl | hne
    · rw [Function.update_self]
      exact hz
    · rw [Function.update_of_ne hne]
      exact b.lower_le_upper w

/-- The part of a box in which a variable is at least `z`. -/
@[simps] def above (b : Box) (v : ℕ) (z : ℤ) (hz : z ≤ b.upper v) : Box where
  lower := Function.update b.lower v z
  upper := b.upper
  lower_le_upper w := by
    rcases eq_or_ne w v with rfl | hne
    · rw [Function.update_self]
      exact hz
    · rw [Function.update_of_ne hne]
      exact b.lower_le_upper w

theorem Contains.below {y : List ℚ} (h : b.Contains axes y) (hz : b.lower v ≤ z) (hy : y.getD v 0 ≤ z) :
    (b.below v z hz).Contains axes y := by
  intro w hw
  refine ⟨(h w hw).1, ?_⟩
  rcases eq_or_ne w v with rfl | hne
  · rw [below_upper, Function.update_self]
    exact hy
  · rw [below_upper, Function.update_of_ne hne]
    exact (h w hw).2

theorem Contains.above {y : List ℚ} (h : b.Contains axes y) (hz : z ≤ b.upper v) (hy : z ≤ y.getD v 0) :
    (b.above v z hz).Contains axes y := by
  intro w hw
  refine ⟨?_, (h w hw).2⟩
  rcases eq_or_ne w v with rfl | hne
  · rw [above_lower, Function.update_self]
    exact hy
  · rw [above_lower, Function.update_of_ne hne]
    exact (h w hw).1

theorem points_pos (b : Box) (axes : Finset ℕ) : 0 < b.points axes := by
  refine Finset.prod_pos fun v _ => ?_
  have := b.lower_le_upper v
  omega

theorem nodes_pos (b : Box) (axes : Finset ℕ) : 0 < b.nodes axes := by
  have := b.points_pos axes
  rw [nodes]
  omega

/-- A cut between two values of a variable splits the points. -/
theorem points_split (hv : v ∈ axes) (hlower : b.lower v ≤ z) (hupper : z + 1 ≤ b.upper v) :
    (b.below v z hlower).points axes + (b.above v (z + 1) hupper).points axes = b.points axes := by
  have hbelow : ∀ w ∈ axes.erase v, ((b.below v z hlower).upper w + 1 - (b.below v z hlower).lower w).toNat =
      (b.upper w + 1 - b.lower w).toNat := by
    intro w hw
    rw [below_lower, below_upper, Function.update_of_ne (Finset.ne_of_mem_erase hw)]
  have habove : ∀ w ∈ axes.erase v,
      ((b.above v (z + 1) hupper).upper w + 1 - (b.above v (z + 1) hupper).lower w).toNat =
        (b.upper w + 1 - b.lower w).toNat := by
    intro w hw
    rw [above_lower, above_upper, Function.update_of_ne (Finset.ne_of_mem_erase hw)]
  simp only [points]
  rw [← Finset.mul_prod_erase _ _ hv, ← Finset.mul_prod_erase _ _ hv, ← Finset.mul_prod_erase _ _ hv,
    Finset.prod_congr rfl hbelow, Finset.prod_congr rfl habove, ← Nat.add_mul]
  congr 1
  rw [below_lower, below_upper, above_lower, above_upper, Function.update_self, Function.update_self]
  omega

/-- The node itself and the nodes of both parts. -/
theorem nodes_split (hv : v ∈ axes) (hlower : b.lower v ≤ z) (hupper : z + 1 ≤ b.upper v) :
    1 + (b.below v z hlower).nodes axes + (b.above v (z + 1) hupper).nodes axes = b.nodes axes := by
  have hsplit := points_split hv hlower hupper
  have hbelow := (b.below v z hlower).points_pos axes
  have habove := (b.above v (z + 1) hupper).points_pos axes
  simp only [nodes]
  omega

end Box

/-! ### Fractional values -/

theorem Scalar.isIntegral_intCast (z : ℤ) : Scalar.isIntegral (z : ℚ) 0 = true := by
  rw [isIntegral_zero_iff]
  have hhalf : ⌊mkRat 1 2⌋ = 0 := rfl
  show (z : ℚ) = if (z : ℚ) < 0 then -((mkRat 1 2 - z).floor : ℚ) else ((z + mkRat 1 2).floor : ℚ)
  split_ifs
  · have hfloor : (mkRat 1 2 - (z : ℚ)).floor = -z := by
      show ⌊mkRat 1 2 - (z : ℚ)⌋ = -z
      rw [Int.floor_sub_intCast, hhalf, zero_sub]
    rw [hfloor, Int.cast_neg, neg_neg]
  · have hfloor : ((z : ℚ) + mkRat 1 2).floor = z := by
      show ⌊(z : ℚ) + mkRat 1 2⌋ = z
      rw [Int.floor_intCast_add, hhalf, add_zero]
    rw [hfloor]

namespace CanonicalForm

variable {c : CanonicalForm ℚ} {t : Tableau ℚ} {v : ℕ} {a b : ℚ} {z : ℤ}

/-- The variable that a node is branched at has the value that the tableau shows, between two integers. -/
theorem between_of_firstFractional?_eq_some {integers : List ℕ}
    (hsome : c.firstFractional? t integers 0 = some (v, a)) :
    a = (c.modelValues t.basicSolution).getD v 0 ∧ ∃ z : ℤ, (z : ℚ) < a ∧ a < z + 1 := by
  obtain ⟨w, -, heq⟩ := List.mem_map.mp (List.mem_of_find?_eq_some hsome)
  obtain ⟨rfl, ha⟩ := Prod.mk.inj heq
  have hfractional : ¬Scalar.isIntegral a 0 = true := by simpa using List.find?_some hsome
  refine ⟨ha.symm, ⌊a⌋, (Int.floor_le a).lt_of_ne fun heq => ?_, Int.lt_floor_add_one a⟩
  rw [← heq] at hfractional
  exact hfractional (Scalar.isIntegral_intCast _)

theorem Keeps.le (hkeeps : Keeps .upper a b) (ha : a < z + 1) : b ≤ z := by
  have hless : (Relation.less.sign : ℚ) = 1 := rfl
  simp only [Keeps, BoundSide.relation, BoundSide.cutOff, hless, one_mul] at hkeeps
  refine hkeeps.trans ?_
  have hfloor : a.floor < z + 1 := Int.floor_lt.mpr (by exact_mod_cast ha)
  show (a.floor : ℚ) ≤ z
  exact_mod_cast Int.lt_add_one_iff.mp hfloor

theorem Keeps.ge (hkeeps : Keeps .lower a b) (ha : z < a) : z + 1 ≤ b := by
  have hgreater : (Relation.greater.sign : ℚ) = -1 := rfl
  simp only [Keeps, BoundSide.relation, BoundSide.cutOff, hgreater, neg_one_mul, neg_le_neg_iff] at hkeeps
  refine le_trans ?_ hkeeps
  have hceil : z < a.ceil := lt_of_not_ge fun hle => ha.not_ge (Rat.ceil_le_iff.mp hle)
  show (z : ℚ) + 1 ≤ (a.ceil : ℚ)
  exact_mod_cast Int.add_one_le_iff.mpr hceil

end CanonicalForm

/-! ### Boxed searches -/

/-- All assignments that the tableau holds are in the box. -/
def CanonicalForm.Encloses (c : CanonicalForm ℚ) (b : Box) (t : Tableau ℚ) : Prop :=
  ∀ y, c.Holds t y → b.Contains c.searchVariables.toFinset y

/-- The waiting nodes have boxes that are good for so many nodes, together with those processed so far. -/
def SearchState.Boxed (c : CanonicalForm ℚ) (bound : ℕ) (state : SearchState ℚ) : Prop :=
  ∃ boxes : List Box, List.Forall₂ (fun node b => c.Encloses b node.tableau) state.queue boxes ∧
    state.nrNodes + (boxes.map (·.nodes c.searchVariables.toFinset)).sum ≤ bound

section Boxed

variable {c : CanonicalForm ℚ} {m : Model ℚ} {t : Tableau ℚ} {state : SearchState ℚ} {node : SearchNode ℚ}
  {rest : List (SearchNode ℚ)} {outcome : Outcome (List ℚ)} {b : Box} {v bound : ℕ} {a : ℚ}

/-- The solution of a solved node is in its box, so there are points on either side of a fractional value. -/
theorem CanonicalForm.Encloses.exists_split (hencl : c.Encloses b t) (h : c.Represents m) (hsub : c.Subproblem m t)
    (hrhs : ∀ i < t.nrRows, 0 ≤ t.rhs i) (hv : v < m.nrVariables)
    (hsome : c.firstFractional? t c.searchVariables 0 = some (v, a)) :
    ∃ below above, c.Encloses below (c.branch t v a .upper) ∧ c.Encloses above (c.branch t v a .lower) ∧
      1 + below.nodes c.searchVariables.toFinset + above.nodes c.searchVariables.toFinset =
        b.nodes c.searchVariables.toFinset := by
  obtain ⟨hvalue, z, hgt, hlt⟩ := between_of_firstFractional?_eq_some hsome
  have hmem : v ∈ c.searchVariables.toFinset := List.mem_toFinset.mpr (mem_of_firstFractional?_eq_some hsome)
  have hheld : c.Holds t (c.modelValues t.basicSolution) :=
    ⟨_, hsub.atBasis.unitAt.feasible_basicSolution hrhs, (c.modelValues_eq_assignment _).symm⟩
  obtain ⟨hlower, hupper⟩ := hencl _ hheld v hmem
  rw [← hvalue] at hlower hupper
  have hlower' : b.lower v ≤ z := Int.lt_add_one_iff.mp (by exact_mod_cast hlower.trans_lt hlt)
  have hupper' : z + 1 ≤ b.upper v := Int.add_one_le_iff.mpr (by exact_mod_cast hgt.trans_le hupper)
  refine ⟨b.below v z hlower', b.above v (z + 1) hupper', fun y hy => ?_, fun y hy => ?_,
    Box.nodes_split hmem hlower' hupper'⟩
  · obtain ⟨hy', hkeeps⟩ := (hsub.holds_branch h hv a .upper).mp hy
    exact (hencl y hy').below hlower' (hkeeps.le hlt)
  · obtain ⟨hy', hkeeps⟩ := (hsub.holds_branch h hv a .lower).mp hy
    exact (hencl y hy').above hupper' (by exact_mod_cast hkeeps.ge hgt)

namespace SearchState.Boxed

theorem nrNodes_add_length_le (hboxed : Boxed c bound state) : state.nrNodes + state.queue.length ≤ bound := by
  obtain ⟨boxes, hboxes, hsum⟩ := hboxed
  have hlength : (boxes.map (·.nodes c.searchVariables.toFinset)).length ≤
      (boxes.map (·.nodes c.searchVariables.toFinset)).sum := by
    refine List.length_le_sum_of_one_le _ fun n hn => ?_
    obtain ⟨b, -, rfl⟩ := List.mem_map.mp hn
    exact b.nodes_pos _
  rw [List.length_map, ← hboxes.length_eq] at hlength
  omega

/-- A node gives up its box, or leaves the parts of it to its children. -/
theorem next (hboxed : Boxed c bound state) (h : c.Represents m) (hm : m.Valid)
    (hints : c.integerVariables = m.integerVariables) (hsound : Sound c m state)
    (htakes : state.Takes node rest outcome) : Boxed c bound (c.successor state node rest outcome) := by
  obtain ⟨boxes, hboxes, hsum⟩ := hboxed
  rw [htakes.queue_eq] at hboxes
  obtain ⟨b, others, hnode, hrest, rfl⟩ := List.forall₂_cons_left_iff.mp hboxes
  rw [List.map_cons, List.sum_cons] at hsum
  have hdrop : state.nrNodes + 1 + (others.map (·.nodes c.searchVariables.toFinset)).sum ≤ bound := by
    have := b.nodes_pos c.searchVariables.toFinset
    omega
  have hend := hsound.solveEnd_run htakes
  have hcase := hsound.resolves_resolution htakes
  rw [successor]
  generalize c.resolution state node outcome = resolved at hcase ⊢
  cases hcase with
  | infeasible => exact ⟨others, hrest, hdrop⟩
  | unbounded => exact ⟨others, hrest, hdrop⟩
  | dominated => exact ⟨others, hrest, hdrop⟩
  | integral => exact ⟨others, hrest, hdrop⟩
  | @branched _ v a _ hsome =>
    have hencl : c.Encloses b (state.run node).tableau :=
      fun y hy => hnode y ((hsound.holds_run_iff htakes y).mp hy)
    obtain ⟨hv, -⟩ := (mem_searchVariables h hm hints).mp (mem_of_firstFractional?_eq_some hsome)
    obtain ⟨below, above, hbelow, habove, hsplit⟩ :=
      hencl.exists_split h (hsound.subproblem_run htakes) hend.2.1 hv hsome
    refine ⟨others ++ [below, above], List.rel_append hrest (.cons hbelow (.cons habove .nil)), ?_⟩
    rw [nrNodes_advance, List.map_append, List.sum_append, List.map_cons, List.map_singleton, List.sum_cons,
      List.sum_singleton]
    omega

end SearchState.Boxed

end Boxed

/-! ### Fuel -/

namespace CanonicalForm

/-- More fuel does not change the end of a search. -/
theorem searchLoop_add {α : Type} [Scalar α] (c : CanonicalForm α) (fuel more : ℕ) (state : SearchState α)
    (hends : (c.searchLoop fuel state).1 ≠ .error .outOfFuel) :
    c.searchLoop (fuel + more) state = c.searchLoop fuel state := by
  induction fuel generalizing state with
  | zero => exact absurd rfl hends
  | succ fuel ih =>
    rw [Nat.add_right_comm]
    rw [searchLoop] at hends ⊢
    rw [searchLoop]
    split at hends
    · rfl
    · next node rest _ =>
      simp only
      split_ifs at hends ⊢ with hlimit
      · rfl
      · cases hresult : (node.tableau.solve state.session).result with
        | error e => rfl
        | ok outcome =>
          simp only [hresult] at hends ⊢
          split at hends
          · rfl
          · exact ih _ hends

section Runs

variable {c : CanonicalForm ℚ} {m : Model ℚ} {s : Session ℚ} {state : SearchState ℚ} {node : SearchNode ℚ}
  {rest : List (SearchNode ℚ)} {outcome : Outcome (List ℚ)} {report : SearchReport ℚ} {fuel bound : ℕ}

theorem settings_of_reaches (hreaches : c.Reaches s state) : state.session.settings = s.settings := by
  induction hreaches with
  | start => exact Session.settings_record ..
  | @next state node _ _ _ _ _ ih =>
    obtain ⟨_, -, hextends⟩ := node.tableau.exists_path_solve state.session
    rw [successor, session_advance, Session.settings_record, ← ih]
    exact hextends.settings_eq

theorem nrNodes_le_of_reaches (hreaches : c.Reaches s state) {limit : ℕ} (hmax : s.settings.maxNodes = some limit) :
    state.nrNodes ≤ limit := by
  induction hreaches with
  | start => exact Nat.zero_le limit
  | next hstate htakes _ _ =>
    have hbelow := htakes.below_limit
    rw [settings_of_reaches hstate, hmax, Option.any_some, decide_eq_true_iff] at hbelow
    rw [successor, nrNodes_advance]
    exact Nat.lt_of_not_le hbelow

/-- Without a limit any fuel that suffices gives the same answer, and with a limit all fuel does. -/
theorem branchAndBoundWithin_eq (hends : (c.branchAndBoundWithin fuel s).1 ≠ .error .outOfFuel) {unlimited : ℕ}
    (hle : fuel ≤ unlimited) : c.branchAndBoundWithin unlimited s = c.branchAndBoundWithin fuel s := by
  unfold branchAndBoundWithin at hends ⊢
  cases hmax : s.settings.maxNodes with
  | some limit => rfl
  | none =>
    obtain ⟨more, rfl⟩ := Nat.exists_eq_add_of_le hle
    rw [hmax] at hends
    exact searchLoop_add c fuel more _ hends

/-- The report counts nodes that a state between two nodes has processed or in its queue. A search that the limit
ended leaves some of them out. -/
theorem exists_reaches_of_ok (hreaches : c.Reaches s state) (hok : (c.searchLoop fuel state).1 = .ok report) :
    ∃ last, c.Reaches s last ∧ report.nrNodes ≤ last.nrNodes + last.queue.length ∧
      (report.limitReached = true → report.nrNodes < last.nrNodes + last.queue.length) := by
  induction fuel generalizing state with
  | zero => cases hok
  | succ fuel ih =>
    obtain ⟨-, heq⟩ | ⟨hqueue, heq⟩ | ⟨node, -, e, -, heq⟩ | ⟨node, rest, outcome, htakes, hcase⟩ :=
      searchLoop_cases c fuel state
    · rw [heq] at hok
      obtain rfl := Except.ok.inj hok
      exact ⟨state, hreaches, Nat.le_add_right _ _, (nomatch ·)⟩
    · rw [heq] at hok
      obtain rfl := Except.ok.inj hok
      have hless := Nat.lt_add_of_pos_right (n := state.nrNodes) (List.length_pos_iff.mpr hqueue)
      exact ⟨state, hreaches, hless.le, fun _ => hless⟩
    · rw [heq] at hok
      cases hok
    · obtain ⟨-, -, heq⟩ | ⟨hgoes, heq⟩ := hcase
      · rw [heq] at hok
        obtain rfl := Except.ok.inj hok
        refine ⟨state, hreaches, ?_, (nomatch ·)⟩
        rw [htakes.queue_eq, List.length_cons]
        exact Nat.add_le_add_left (Nat.le_add_left 1 _) _
      · rw [heq] at hok
        exact ih (hreaches.next htakes hgoes) hok

theorem report_of_bound (hbound : ∀ state, c.Reaches s state → state.nrNodes + state.queue.length ≤ bound)
    {unlimited : ℕ} (hok : (c.branchAndBoundWithin unlimited s).1 = .ok report) :
    report.nrNodes ≤ bound ∧
      ((∀ limit, s.settings.maxNodes = some limit → bound ≤ limit) → report.limitReached = false) := by
  obtain ⟨last, hlast, hle, hless⟩ := exists_reaches_of_ok .start hok
  refine ⟨hle.trans (hbound last hlast), fun henough => ?_⟩
  by_contra htrue
  rw [Bool.not_eq_false] at htrue
  obtain ⟨visits, waiting, hshows⟩ := shows_searchLoop _ (SearchState.explored_start c s) hok
  have hlimit := henough _ (hshows.limit_eq htrue).1
  exact absurd hlimit (not_le.mpr ((hless htrue).trans_le (hbound last hlast)))

variable (h : c.Represents m) (hm : m.Valid) (hints : c.integerVariables = m.integerVariables) (hs : s.tolerance = 0)
include h hm hints hs

theorem boxed_of_reaches {b : Box} (hencl : c.Encloses b c.tableau) (hreaches : c.Reaches s state) :
    state.Boxed c (b.nodes c.searchVariables.toFinset) := by
  induction hreaches with
  | start => exact ⟨[b], .cons hencl .nil, by simp⟩
  | next hstate htakes _ ih => exact ih.next h hm hints (sound_of_reaches h hm hints hs hstate) htakes

/-- With more fuel than there can be nodes a search ends. -/
theorem searchLoop_ends (hbound : ∀ state, c.Reaches s state → state.nrNodes ≤ bound) (hreaches : c.Reaches s state)
    (hfuel : bound < state.nrNodes + fuel) :
    (∃ report, (c.searchLoop fuel state).1 = .ok report) ∨
      (c.searchLoop fuel state).1 = .error (.pivotLimit s.settings.maxPivots) := by
  induction fuel generalizing state with
  | zero => exact absurd (hbound state hreaches) (not_le.mpr hfuel)
  | succ fuel ih =>
    have hsound := sound_of_reaches h hm hints hs hreaches
    obtain ⟨-, heq⟩ | ⟨-, heq⟩ | ⟨node, hnode, e, herror, heq⟩ | ⟨node, rest, outcome, htakes, hcase⟩ :=
      searchLoop_cases c fuel state
    · exact Or.inl ⟨_, heq⟩
    · exact Or.inl ⟨_, heq⟩
    · have hstarts := Tableau.startsAt_solve (hsound.subproblem node hnode).atBasis hsound.tolerance_eq
      rw [heq, hstarts.error_eq e herror, settings_of_reaches hreaches]
      exact Or.inr rfl
    · obtain ⟨-, -, heq⟩ | ⟨hgoes, heq⟩ := hcase
      · exact Or.inl ⟨_, heq⟩
      · rw [heq]
        refine ih (hreaches.next htakes hgoes) ?_
        rw [successor, nrNodes_advance]
        omega

theorem branchAndBoundWithin_ends (hbound : ∀ state, c.Reaches s state → state.nrNodes ≤ bound) {unlimited : ℕ}
    (hfuel : bound < unlimited) :
    (∃ report, (c.branchAndBoundWithin unlimited s).1 = .ok report) ∨
      (c.branchAndBoundWithin unlimited s).1 = .error (.pivotLimit s.settings.maxPivots) := by
  unfold branchAndBoundWithin
  cases hmax : s.settings.maxNodes with
  | none => exact searchLoop_ends h hm hints hs hbound .start (by rw [searchFuel]; omega)
  | some limit =>
    have hlimit : ∀ state, c.Reaches s state → state.nrNodes ≤ limit :=
      fun state hreaches => nrNodes_le_of_reaches hreaches hmax
    exact searchLoop_ends h hm hints hs hlimit .start (by rw [searchFuel]; omega)

end Runs

end CanonicalForm

/-! ### Bounded models -/

/-- The feasible set of the relaxation bounds the variables that the search looks at. -/
def Model.BoundsSearch (m : Model ℚ) : Prop :=
  ∀ v < m.nrVariables, m.integerVariables = [] ∨ v ∈ m.integerVariables →
    ∃ lower upper : ℚ, ∀ y, m.Feasible y → lower ≤ y.getD v 0 ∧ y.getD v 0 ≤ upper

theorem Model.BoundsSearch.exists_encloses {m : Model ℚ} {c : CanonicalForm ℚ} (hbounds : m.BoundsSearch)
    (h : c.Represents m) (hm : m.Valid) (hints : c.integerVariables = m.integerVariables) :
    ∃ b, c.Encloses b c.tableau := by
  have hvariable : ∀ v, ∃ lower upper : ℤ, lower ≤ upper ∧
      (v ∈ c.searchVariables → ∀ y, m.Feasible y → (lower : ℚ) ≤ y.getD v 0 ∧ y.getD v 0 ≤ upper) := by
    intro v
    by_cases hv : v ∈ c.searchVariables
    · obtain ⟨hlt, hmarked⟩ := (mem_searchVariables h hm hints).mp hv
      obtain ⟨lower, upper, hbetween⟩ := hbounds v hlt hmarked
      refine ⟨⌊lower⌋, max ⌊lower⌋ ⌈upper⌉, le_max_left _ _, fun _ y hy => ?_⟩
      obtain ⟨hlower, hupper⟩ := hbetween y hy
      have hmax : (⌈upper⌉ : ℚ) ≤ (max ⌊lower⌋ ⌈upper⌉ : ℤ) := Int.cast_le.mpr (le_max_right _ _)
      exact ⟨(Int.floor_le lower).trans hlower, (hupper.trans (Int.le_ceil upper)).trans hmax⟩
    · exact ⟨0, 0, le_rfl, fun hmem => absurd hmem hv⟩
  choose lower upper hle hbetween using hvariable
  refine ⟨⟨lower, upper, hle⟩, ?_⟩
  rintro y ⟨x, hx, rfl⟩ v hv
  exact hbetween v (List.mem_toFinset.mp hv) _ (h.feasible_assignment hm hx)

theorem boundsSearch_roundingModel : roundingModel.BoundsSearch := by
  intro v hv _
  refine ⟨0, 3 / 2, fun y hy => ?_⟩
  obtain ⟨hlength, hfeasible⟩ := hy
  obtain ⟨x, rfl⟩ := List.length_eq_one_iff.mp hlength
  obtain rfl : v = 0 := Nat.lt_one_iff.mp hv
  rw [Model.isFeasible_iff rfl] at hfeasible
  have hrow : 1 * (0 + 2 * x) ≤ 1 * 3 :=
    hfeasible.1 ⟨[2], .less, 3⟩ (List.mem_singleton_self _) .less (List.mem_singleton_self _)
  have hdomain : -0 ≤ x := of_decide_eq_true (hfeasible.2 0 Nat.one_pos)
  show 0 ≤ x ∧ x ≤ 3 / 2
  constructor <;> linarith

/-- Branch and bound in exact arithmetic, for a model whose feasible set bounds the variables of the search. There is
one bound on the number of nodes for all settings. It holds before every node, and so also for a search that fails, and
for every report. A search whose limit is not below it is not stopped by the limit. With more fuel a search without a
limit ends as well, with a report or at the pivot limit, and the fuel does not matter. -/
theorem Model.branchAndBound_ends {direction : Direction} {cost : List ℚ} {rows : List (List ℚ)}
    {relations : List Relation} {rhs : List ℚ} {domains : List VariableDomain} {m : Model ℚ}
    (hm : Model.ofData direction cost rows relations rhs domains = .ok m) (hbounds : m.BoundsSearch) :
    ∃ bound, ∀ s : Session ℚ, s.settings.tolerances.general = 0 →
      (∀ state, (ofModel m).Reaches s state → state.nrNodes + state.queue.length ≤ bound) ∧
      (∀ unlimited report, ((ofModel m).branchAndBoundWithin unlimited s).1 = .ok report →
        report.nrNodes ≤ bound ∧
        ((∀ limit, s.settings.maxNodes = some limit → bound ≤ limit) → report.limitReached = false)) ∧
      ∀ unlimited, bound < unlimited →
        ((∃ report, ((ofModel m).branchAndBoundWithin unlimited s).1 = .ok report) ∨
          ((ofModel m).branchAndBoundWithin unlimited s).1 = .error (.pivotLimit s.settings.maxPivots)) ∧
        (ofModel m).branchAndBoundWithin unlimited s = (ofModel m).branchAndBoundWithin (bound + 1) s := by
  have hvalid := valid_of_ofData hm
  have hrep := represents_ofModel hvalid
  obtain ⟨b, hencl⟩ := hbounds.exists_encloses hrep hvalid rfl
  refine ⟨b.nodes (ofModel m).searchVariables.toFinset, fun s hs => ?_⟩
  have hbound : ∀ state, (ofModel m).Reaches s state →
      state.nrNodes + state.queue.length ≤ b.nodes (ofModel m).searchVariables.toFinset :=
    fun state hreaches => (boxed_of_reaches hrep hvalid rfl hs hencl hreaches).nrNodes_add_length_le
  have hnodes : ∀ state, (ofModel m).Reaches s state →
      state.nrNodes ≤ b.nodes (ofModel m).searchVariables.toFinset :=
    fun state hreaches => (Nat.le_add_right _ _).trans (hbound state hreaches)
  refine ⟨hbound, fun _ _ hok => report_of_bound hbound hok, fun unlimited hless =>
    ⟨branchAndBoundWithin_ends hrep hvalid rfl hs hnodes hless, branchAndBoundWithin_eq ?_ hless⟩⟩
  obtain ⟨report, hok⟩ | herror := branchAndBoundWithin_ends hrep hvalid rfl hs hnodes (Nat.lt_succ_self _)
  · rw [hok]
    exact fun heq => nomatch heq
  · rw [herror]
    exact fun heq => nomatch heq

theorem Model.branchAndBound_ends_roundingModel :
    Model.ofData .maximize [1] [[2]] [.less] [3] [.integer] = .ok roundingModel ∧ roundingModel.BoundsSearch ∧
    ∃ bound, ∀ limit report, ((ofModel roundingModel).branchAndBoundWithin 0 (.limited limit)).1 = .ok report →
      report.nrNodes ≤ bound ∧ (bound ≤ limit → report.limitReached = false) := by
  have hdata : Model.ofData .maximize [1] [[2]] [.less] [3] [.integer] = .ok roundingModel := by decide +kernel
  obtain ⟨bound, hbound⟩ := branchAndBound_ends hdata boundsSearch_roundingModel
  refine ⟨hdata, boundsSearch_roundingModel, bound, fun limit report hok => ?_⟩
  obtain ⟨hle, hends⟩ := (hbound (.limited limit) rfl).2.1 0 report hok
  refine ⟨hle, fun henough => hends fun max hmax => ?_⟩
  obtain rfl := Option.some.inj hmax
  exact henough

/-! ### Limited searches -/

theorem feasible_one_roundingModel :
    roundingModel.Feasible [1] ∧ ∀ v ∈ roundingModel.integerVariables, ∃ z : ℤ, [(1 : ℚ)].getD v 0 = z := by
  have hintegers : roundingModel.integerVariables = [0] := by decide
  refine ⟨⟨rfl, by decide +kernel⟩, fun v hv => ⟨1, ?_⟩⟩
  rw [hintegers, List.mem_singleton] at hv
  rw [hv]
  rfl

/-- A model that is reported as infeasible, in exact arithmetic and with any settings, has no feasible assignment with
integers for its integer variables, unless the search was stopped by its node limit before it had found one. -/
theorem Model.infeasible_solve {direction : Direction} {cost : List ℚ} {rows : List (List ℚ)}
    {relations : List Relation} {rhs : List ℚ} {domains : List VariableDomain} {m : Model ℚ}
    (hm : Model.ofData direction cost rows relations rhs domains = .ok m) (s : Session ℚ)
    (hs : s.settings.tolerances.general = 0) (unlimited : ℕ)
    (hok : (m.solveWithin unlimited s).1 = .ok .infeasible) :
    (¬∃ y, m.Feasible y ∧ ∀ v ∈ m.integerVariables, ∃ z : ℤ, y.getD v 0 = z) ∨
    m.integerVariables ≠ [] ∧ ∃ report, ((ofModel m).branchAndBoundWithin unlimited s).1 = .ok report ∧
      report.outcome = .infeasible ∧ report.limitReached = true ∧ s.settings.maxNodes = some report.nrNodes := by
  have hvalid := valid_of_ofData hm
  have hrep := represents_ofModel hvalid
  unfold solveWithin at hok
  split_ifs at hok with hempty
  · left
    rintro ⟨y, hy, -⟩
    exact verdict_solve hrep hvalid hs hok y hy
  · rw [List.isEmpty_iff] at hempty
    cases hres : ((ofModel m).branchAndBoundWithin unlimited s).1 with
    | error e => simp [hres, Except.map] at hok
    | ok report =>
      simp only [hres, Except.map, Except.ok.injEq] at hok
      have hcorrect := correct_searchLoop hrep hvalid rfl hs .start hres
      obtain ⟨visits, waiting, hshows⟩ := shows_searchLoop _ (SearchState.explored_start _ s) hres
      cases hlimit : report.limitReached with
      | true => exact Or.inr ⟨hempty, report, rfl, hok, hlimit, (hshows.limit_eq hlimit).1⟩
      | false =>
        left
        rintro ⟨y, hy, hintegers⟩
        refine hcorrect.infeasible hlimit hok y ⟨hy, fun v _ hmarked => ?_⟩
        exact hintegers v (hmarked.resolve_left hempty)

theorem Model.infeasible_solve_roundingModel :
    Model.ofData .maximize [1] [[2]] [.less] [3] [.integer] = .ok roundingModel ∧
    (roundingModel.solveWithin 0 (.limited 1)).1 = .ok .infeasible ∧
    ∃ report, ((ofModel roundingModel).branchAndBoundWithin 0 (.limited 1)).1 = .ok report ∧
      report.limitReached = true ∧ report.nrNodes = 1 := by
  have hdata : Model.ofData .maximize [1] [[2]] [.less] [3] [.integer] = .ok roundingModel := by decide +kernel
  have hsolve : (roundingModel.solveWithin 0 (.limited 1)).1 = .ok .infeasible := by decide +kernel
  refine ⟨hdata, hsolve, ?_⟩
  obtain hnone | ⟨-, report, hok, -, hlimit, hmax⟩ := infeasible_solve hdata (.limited 1) rfl 0 hsolve
  · exact absurd ⟨[1], feasible_one_roundingModel⟩ hnone
  · exact ⟨report, hok, hlimit, (Option.some.inj hmax).symm⟩

/-- A single node does not suffice to find the integer solution of a model that has one. -/
theorem Model.exists_feasible_of_infeasible_solve :
    Model.ofData .maximize [1] [[2]] [.less] [3] [.integer] = .ok roundingModel ∧
    (Session.limited 1).settings.tolerances.general = 0 ∧
    (roundingModel.solve (.limited 1)).1 = .ok .infeasible ∧
    ∃ y, roundingModel.Feasible y ∧ ∀ v ∈ roundingModel.integerVariables, ∃ z : ℤ, y.getD v 0 = z :=
  ⟨by decide +kernel, rfl, by decide +kernel, [1], feasible_one_roundingModel⟩

end LinearProgramming
