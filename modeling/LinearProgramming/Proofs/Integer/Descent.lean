import LinearProgramming.Proofs.Integer.BranchAndBound
import LinearProgramming.Proofs.Simplex.DualFeasible

/-! # Descent along a search

The tableau of a solved node is dual feasible, and a branching row keeps it so. The children of a node are therefore
solved by dual pivots alone, and their objective values are no better than that of the node
(`CanonicalForm.HasChild.not_isBetter`). -/

namespace LinearProgramming

open CanonicalForm

namespace CanonicalForm

variable {c : CanonicalForm ℚ} {m : Model ℚ} {s : Session ℚ} {state later : SearchState ℚ} {node child : SearchNode ℚ}
  {rest : List (SearchNode ℚ)} {outcome : Outcome (List ℚ)} {t : Tableau ℚ}

/-- In a state of the search the first node is taken and branched, and the second one is among its children. -/
structure HasChild (c : CanonicalForm ℚ) (s : Session ℚ) (state : SearchState ℚ) (node child : SearchNode ℚ) :
    Prop where
  reaches : c.Reaches s state
  branched : ∃ rest outcome v a, state.Takes node rest outcome ∧ c.resolution state node outcome = .branched v a ∧
    child ∈ c.childNodes state.nextId node.depth (state.run node).tableau v a

/-- Only an optimal node is branched. -/
theorem Resolves.exists_optimal {incumbent : Option (Solution ℚ)} {v : ℕ} {a : ℚ}
    (h : c.Resolves incumbent t outcome (.branched v a)) : ∃ values, outcome = .optimal values := by
  cases h with
  | branched _ _ => exact ⟨_, rfl⟩

theorem Subproblem.dualFeasible_branch (h : c.Subproblem m t) (hdual : t.DualFeasible) (v : ℕ) (a : ℚ)
    (side : BoundSide) :
    (c.branch t v a side).DualFeasible ∧ (c.branch t v a side).objectiveValue = t.objectiveValue := by
  rw [branch_eq]
  exact hdual.addInequality (h.length_branchRow v) _ _

section Represented

variable (h : c.Represents m) (hm : m.Valid) (hints : c.integerVariables = m.integerVariables) (hs : s.tolerance = 0)
include h hm hints hs

/-- A child starts where its parent ended. -/
theorem HasChild.dualFeasible (hchild : c.HasChild s state node child) :
    child.tableau.DualFeasible ∧ child.tableau.objectiveValue = (state.run node).tableau.objectiveValue := by
  obtain ⟨hreaches, rest, outcome, v, a, htakes, hresolution, hmem⟩ := hchild
  have hsound := sound_of_reaches h hm hints hs hreaches
  have hresolves := hsound.resolves_resolution htakes
  rw [hresolution] at hresolves
  obtain ⟨values, rfl⟩ := hresolves.exists_optimal
  have hsub := hsound.subproblem_run htakes
  obtain ⟨-, -, hcost⟩ := hsound.solveEnd_run htakes
  obtain ⟨side, htableau, -⟩ := mem_childNodes hmem
  rw [htableau]
  exact hsub.dualFeasible_branch ⟨hsub.atBasis, hcost⟩ v a side

theorem HasChild.not_isBetter (hchild : c.HasChild s state node child) (hlater : c.Reaches s later) :
    later.run child = child.tableau.dual later.session ∧
      ¬c.direction.isBetter (c.objectiveValue (later.run child).tableau.objectiveValue)
        (c.objectiveValue (state.run node).tableau.objectiveValue) 0 := by
  obtain ⟨hdual, hobjective⟩ := hchild.dualFeasible h hm hints hs
  have htolerance := (sound_of_reaches h hm hints hs hlater).tolerance_eq
  have hrun : later.run child = child.tableau.dual later.session := hdual.solve_eq_dual htolerance
  refine ⟨hrun, ?_⟩
  rw [Direction.isBetter_iff, objectiveValue, objectiveValue, Direction.sign_mul_sign, Direction.sign_mul_sign, not_lt,
    hrun, ← hobjective]
  exact (hdual.dual htolerance).2.1

end Represented

end CanonicalForm

namespace Tableau

/-- Dual runs in exact arithmetic, from a tableau without negative relative costs to which any constraints were added.
Each pivot keeps the relative costs nonnegative and does not increase the objective value. A solve makes no pivots but
these and returns the basic solution that they reach. The same holds of the children of a branched node, so none of them
is better than the node. -/
theorem isChain_descends_of_restricts {t u : Tableau ℚ} {s : Session ℚ} (hwf : t.WellFormed)
    (hunit : t.hasUnitBasis 0 = true) (hcost : ∀ j < t.nrColumns, 0 ≤ t.relativeCost j) (hu : t.Restricts u)
    (hs : s.settings.tolerances.general = 0) :
    (∃ records, ChosenPath .dualPivot (DualChoice 0) u records (u.dual s).tableau ∧
      s.Logs records (u.dual s).session ∧ (u :: records.map (·.tableau)).IsChain Descends) ∧
    u.solve s = u.dual s ∧
    (∀ values, (u.dual s).result = .ok (.optimal values) →
      (u.solve s).result = .ok (.optimal (u.dual s).tableau.basicSolution)) ∧
    ∀ (m : Model ℚ) (session : Session ℚ), m.Valid → session.settings.tolerances.general = 0 →
      ∀ state node child, (ofModel m).HasChild session state node child →
      ∀ later rest outcome, (ofModel m).Reaches session later → later.Takes child rest outcome →
        later.run child = child.tableau.dual later.session ∧
        ¬m.direction.isBetter ((ofModel m).objectiveValue (later.run child).tableau.objectiveValue)
          ((ofModel m).objectiveValue (state.run node).tableau.objectiveValue) 0 := by
  have hdual : u.DualFeasible := (DualFeasible.restricts ⟨⟨hwf, hwf.unitAt_of_hasUnitBasis hunit⟩, hcost⟩ hu).1
  have hsolve : u.solve s = u.dual s := hdual.solve_eq_dual hs
  refine ⟨(hdual.dual hs).2.2, hsolve, fun values hok => ?_, fun m session hm hsession state node child hchild => ?_⟩
  · obtain ⟨rfl, -⟩ := dualEnd_dual hdual.atBasis hs hok
    rw [hsolve, hok]
  · intro later rest outcome hlater _
    exact hchild.not_isBetter (represents_ofModel hm) hm rfl hsession hlater

/-- The solved relaxation of `branchingModel`. -/
def relaxedTableau : Tableau ℚ :=
  ofMatrix (RowMatrix.ofRows [[0, 0, 3 / 4, 1 / 2, 21], [1, 0, 1 / 4, -1 / 2, 3], [0, 1, -1 / 8, 3 / 4, 3 / 2]]) [0, 1]

def rootNode : SearchNode ℚ := ⟨0, 0, (ofModel branchingModel).tableau⟩

def rootState : SearchState ℚ := ⟨[rootNode], 1, 0, none, Session.exact.record .initial (ofModel branchingModel).tableau⟩

/-- A child of the root, which is branched on its second variable. -/
def rootChild (id : ℕ) (side : BoundSide) : SearchNode ℚ :=
  ⟨id, 1, (ofModel branchingModel).branch (rootState.run rootNode).tableau 1 (3 / 2) side⟩

def branchedState : SearchState ℚ :=
  (ofModel branchingModel).successor rootState rootNode [] (.optimal [3, 3 / 2, 0, 0])

theorem isChain_descends_of_restricts_relaxedTableau :
    relaxedTableau.WellFormed ∧ relaxedTableau.hasUnitBasis 0 = true ∧
    (∀ j < relaxedTableau.nrColumns, 0 ≤ relaxedTableau.relativeCost j) ∧
    relaxedTableau.Restricts (relaxedTableau.addConstraint [0, 1] .less 1) ∧
    ((relaxedTableau.addConstraint [0, 1] .less 1).dual .exact).session.nrPivots = 1 ∧
    (∃ records, ((relaxedTableau.addConstraint [0, 1] .less 1) :: records.map (·.tableau)).IsChain Descends ∧
      Session.exact.Logs records ((relaxedTableau.addConstraint [0, 1] .less 1).dual .exact).session) ∧
    ((relaxedTableau.addConstraint [0, 1] .less 1).solve .exact).result = .ok (.optimal [10 / 3, 1, 0, 2 / 3, 0]) ∧
    (ofModel branchingModel).HasChild .exact rootState rootNode (rootChild 1 .upper) ∧
    (ofModel branchingModel).Reaches .exact branchedState ∧
    branchedState.Takes (rootChild 1 .upper) [rootChild 2 .lower] (.optimal [10 / 3, 1, 0, 2 / 3, 0]) ∧
    ¬branchingModel.direction.isBetter
      ((ofModel branchingModel).objectiveValue (branchedState.run (rootChild 1 .upper)).tableau.objectiveValue)
      ((ofModel branchingModel).objectiveValue (rootState.run rootNode).tableau.objectiveValue) 0 := by
  have hwf : relaxedTableau.WellFormed :=
    wellFormed_ofMatrix (by simp [RowMatrix.IsRectangular, RowMatrix.ofRows]) (by decide) (by decide) (by decide)
      (by decide) (by decide)
  have hunit : relaxedTableau.hasUnitBasis 0 = true := by decide +kernel
  have hcost : ∀ j < relaxedTableau.nrColumns, 0 ≤ relaxedTableau.relativeCost j := by decide +kernel
  have hrow : relaxedTableau.Restricts (relaxedTableau.addConstraint [0, 1] .less 1) :=
    .addConstraint ⟨[0, 1], .less, 1⟩ .start (by decide)
  have hroot : rootState.Takes rootNode [] (.optimal [3, 3 / 2, 0, 0]) := ⟨rfl, by decide, by decide +kernel⟩
  have hresolution : (ofModel branchingModel).resolution rootState rootNode (.optimal [3, 3 / 2, 0, 0]) =
      .branched 1 (3 / 2) := by decide +kernel
  have hlater : (ofModel branchingModel).Reaches .exact branchedState :=
    .next .start hroot (by rw [hresolution]; simp)
  have hvalid : branchingModel.Valid := Model.valid_of_ofData
    (show Model.ofData .maximize [5, 4] [[6, 4], [1, 2]] [.less, .less] [24, 6] [.integer, .integer] =
      .ok branchingModel by decide +kernel)
  have hdual : ((relaxedTableau.addConstraint [0, 1] .less 1).dual .exact).result =
      .ok (.optimal [10 / 3, 1, 0, 2 / 3, 0]) := by decide +kernel
  have hchild : (ofModel branchingModel).HasChild .exact rootState rootNode (rootChild 1 .upper) :=
    ⟨.start, _, _, _, _, hroot, hresolution, List.mem_cons_self ..⟩
  have htakes : branchedState.Takes (rootChild 1 .upper) [rootChild 2 .lower] (.optimal [10 / 3, 1, 0, 2 / 3, 0]) :=
    ⟨by decide +kernel, by decide +kernel, by decide +kernel⟩
  obtain ⟨⟨records, -, hlogs, hchain⟩, hsolve, -, hsearch⟩ :=
    isChain_descends_of_restricts (s := .exact) hwf hunit hcost hrow rfl
  exact ⟨hwf, hunit, hcost, hrow, by decide +kernel, ⟨records, hchain, hlogs⟩, by rw [hsolve, hdual], hchild, hlater,
    htakes, (hsearch branchingModel .exact hvalid rfl _ _ _ hchild _ _ _ hlater htakes).2⟩

end Tableau

end LinearProgramming
