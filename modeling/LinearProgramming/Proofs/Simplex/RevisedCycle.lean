import LinearProgramming.Proofs.Simplex.Cycle
import LinearProgramming.Proofs.Simplex.Revised
import LinearProgramming.Proofs.Simplex.SmallestIndex

/-! # Cycles of the revised method

The revised method chooses its pivots like the primal method does (`Revised.Mirrors.move_eq`), but it never turns to the
smallest index, however many pivots leave the objective unchanged. Its next pivot is therefore determined by its basis,
and a run is the iteration of `Revised.next`. A run that makes more pivots than there are bases comes back to a basis,
with the same inverse (`Revised.Feasible.exists_cycle`), and then every run ends at the pivot limit
(`Revised.Cycle.loop_eq`).

The objective value never falls, so it is the same all the way round: the columns that leave have value zero, and the
basic solution does not move (`Revised.Cycle.stalls`). Such a cycle exists, see `Edit.cyclingForm`. The primal method
finds an answer on the same problems. -/

namespace LinearProgramming

namespace Revised

variable {rule : EnteringRule} {first : Tableau ℚ} {cost : List ℚ} {b : BasisInverse ℚ} {s : Session ℚ}
  {row column i j k n : ℕ}

/-! ### One pivot after the other -/

def due (rule : EnteringRule) (first : Tableau ℚ) (cost : List ℚ) (b : BasisInverse ℚ) : Bool :=
  match move rule first cost b 0 with
  | .pivot _ _ => true
  | .stop _ => false

def next (rule : EnteringRule) (first : Tableau ℚ) (cost : List ℚ) (b : BasisInverse ℚ) : BasisInverse ℚ :=
  match move rule first cost b 0 with
  | .pivot row column => b.change row column (b.transform (first.column column))
  | .stop _ => b

theorem next_of_move (h : move rule first cost b 0 = .pivot row column) :
    next rule first cost b = b.change row column (b.transform (first.column column)) := by
  simp only [next, h]

theorem due_iff : due rule first cost b = true ↔ ∃ row column, move rule first cost b 0 = .pivot row column := by
  unfold due
  cases move rule first cost b 0 with
  | stop outcome => simp
  | pivot row column => simp

theorem pivotLoop_loop (rule : EnteringRule) (first : Tableau ℚ) (cost : List ℚ) :
    PivotLoop (due rule first cost) (next rule first cost) (loop rule first cost)
      (fun run => ∃ outcome, run.1 = .ok outcome) fun settings _ run => run.1 = .error (.pivotLimit settings.maxPivots) := by
  refine ⟨fun n b s hs hdue => ?_, fun b s hs hdue => ?_, fun n b s hs hdue => ?_⟩
  · unfold loop
    rw [hs]
    cases hmove : move rule first cost b 0 with
    | stop outcome => exact ⟨outcome, rfl⟩
    | pivot row column =>
      rw [due_iff.mpr ⟨row, column, hmove⟩] at hdue
      cases hdue
  · obtain ⟨row, column, hmove⟩ := due_iff.mp hdue
    unfold loop
    rw [hs, hmove]
  · obtain ⟨row, column, hmove⟩ := due_iff.mp hdue
    refine ⟨s.recordPivot (.primalPivot row column) ((next rule first cost b).tableau first cost),
      Session.settings_recordPivot .., ?_⟩
    rw [next_of_move hmove, loop, hs, hmove]

/-! ### Feasible bases -/

/-- The inverse is that of a basis of the first tableau, and its basic solution is not negative. -/
structure Feasible (first : Tableau ℚ) (cost : List ℚ) (b : BasisInverse ℚ) : Prop where
  mirrors : Mirrors first cost (b.tableau first cost) b
  rhs_nonneg : ∀ i < (b.tableau first cost).nrRows, 0 ≤ (b.tableau first cost).rhs i

namespace Feasible

variable (h : Feasible first cost b)
include h

/-- The pivot is one of the primal method on the tableau of the basis. -/
theorem of_move (hmove : move rule first cost b 0 = .pivot row column) :
    (b.tableau first cost).PrimalPivot row column ∧
      (next rule first cost b).tableau first cost = (b.tableau first cost).pivot column row ∧
      Mirrors first cost ((b.tableau first cost).pivot column row) (next rule first cost b) := by
  have hprimal : (b.tableau first cost).primalMove rule false 0 = .pivot row column := by
    rw [h.mirrors.move_eq] at hmove
    cases hmove' : (b.tableau first cost).primalMove rule false 0 with
    | stop outcome =>
      rw [hmove'] at hmove
      cases hmove
    | pivot row' column' =>
      rw [hmove'] at hmove
      cases hmove
      rfl
  have hmirrors := h.mirrors.pivot le_rfl hprimal
  rw [← next_of_move hmove] at hmirrors
  exact ⟨(h.mirrors.rewrites.atBasis.of_primalMove_eq_pivot hprimal).1, hmirrors.tableau_eq, hmirrors⟩

theorem next (rule : EnteringRule) : Feasible first cost (next rule first cost b) ∧
    (b.tableau first cost).objectiveValue ≤ ((next rule first cost b).tableau first cost).objectiveValue := by
  cases hmove : move rule first cost b 0 with
  | stop outcome =>
    have hsame : Revised.next rule first cost b = b := by simp only [Revised.next, hmove]
    rw [hsame]
    exact ⟨h, le_rfl⟩
  | pivot row column =>
    obtain ⟨hp, htableau, hmirrors⟩ := h.of_move hmove
    have hatBasis := h.mirrors.rewrites.atBasis
    rw [← htableau] at hmirrors
    refine ⟨⟨hmirrors, ?_⟩, ?_⟩
    · rw [htableau]
      exact hp.rhs_nonneg hatBasis h.rhs_nonneg
    · rw [htableau]
      exact hp.objectiveValue_le hatBasis h.rhs_nonneg

theorem iterate (rule : EnteringRule) (k : ℕ) : Feasible first cost ((Revised.next rule first cost)^[k] b) := by
  induction k with
  | zero => exact h
  | succ k ih =>
    rw [Function.iterate_succ_apply']
    exact (ih.next rule).1

theorem monotone_objectiveValue (rule : EnteringRule) :
    Monotone fun k => (((Revised.next rule first cost)^[k] b).tableau first cost).objectiveValue := by
  refine monotone_nat_of_le_succ fun k => ?_
  rw [Function.iterate_succ_apply']
  exact ((h.iterate rule k).next rule).2

end Feasible

/-! ### Going round -/

/-- The basis after `j` pivots, with its inverse, is the one after `i` of them, and all these pivots are made. -/
structure Cycle (rule : EnteringRule) (first : Tableau ℚ) (cost : List ℚ) (b : BasisInverse ℚ) (i j : ℕ) : Prop where
  lt : i < j
  due : ∀ k < j, due rule first cost ((next rule first cost)^[k] b) = true
  back : (next rule first cost)^[j] b = (next rule first cost)^[i] b

theorem Feasible.exists_cycle (h : Feasible first cost b)
    (hdue : ∀ k ≤ first.nrColumns ^ first.nrRows, Revised.due rule first cost ((Revised.next rule first cost)^[k] b) = true) :
    ∃ i j, Cycle rule first cost b i j := by
  have hinverts : ∀ k, ((Revised.next rule first cost)^[k] b).Inverts first := fun k => (h.iterate rule k).mirrors.inverts
  obtain ⟨i, j, hlt, hle, hcolumns⟩ := exists_basis_eq (fun k => ((Revised.next rule first cost)^[k] b).columns)
    (fun k => (hinverts k).length_eq) (fun k => (hinverts k).lt)
  exact ⟨i, j, hlt, fun k hk => hdue k (by omega), ((hinverts i).eq_of_columns_eq (hinverts j) hcolumns).symm⟩

namespace Cycle

variable (h : Cycle rule first cost b i j)
include h

theorem loop_eq (hs : s.tolerance = 0) (n : ℕ) :
    (loop rule first cost n b s).1 = .error (.pivotLimit s.settings.maxPivots) := by
  obtain ⟨-, hlimit⟩ | ⟨⟨k, -, hstop⟩, -⟩ := (pivotLoop_loop rule first cost).cases n b hs
  · exact hlimit
  · rw [due_of_back h.lt h.due h.back k] at hstop
    cases hstop

theorem objectiveValue_eq (hb : Feasible first cost b) (hik : i ≤ k) (hkj : k < j) :
    (((next rule first cost)^[k + 1] b).tableau first cost).objectiveValue =
      (((next rule first cost)^[k] b).tableau first cost).objectiveValue := by
  have hmonotone := hb.monotone_objectiveValue rule
  refine le_antisymm ((hmonotone hkj).trans ?_) (hmonotone (Nat.le_succ k))
  show (((next rule first cost)^[j] b).tableau first cost).objectiveValue ≤ _
  rw [h.back]
  exact hmonotone hik

theorem stalls (hb : Feasible first cost b) (hik : i ≤ k) (hkj : k < j)
    (hmove : move rule first cost ((next rule first cost)^[k] b) 0 = .pivot row column) :
    (basicValues first ((next rule first cost)^[k] b)).getD row 0 = 0 ∧
      basicSolution first ((next rule first cost)^[k + 1] b) = basicSolution first ((next rule first cost)^[k] b) := by
  -- the objective would grow if the column that leaves were positive
  have hsame := h.objectiveValue_eq hb hik hkj
  have hfeasible := hb.iterate rule k
  have hnext := (hb.iterate rule (k + 1)).mirrors
  rw [Function.iterate_succ_apply'] at hsame hnext ⊢
  obtain ⟨hp, htableau, -⟩ := hfeasible.of_move hmove
  have hatBasis := hfeasible.mirrors.rewrites.atBasis
  rw [htableau] at hsame hnext
  constructor
  · rw [hfeasible.mirrors.basicValues_eq, Tableau.rhsValues, List.getD_eq_getElem _ _ (by simpa using hp.row_lt),
      List.getElem_map, List.getElem_range]
    exact hp.rhs_eq_zero hatBasis hsame
  · rw [hnext.basicSolution_eq, hfeasible.mirrors.basicSolution_eq]
    refine List.ext_getElem (by simp) fun l hl hl' => ?_
    rw [← List.getD_eq_getElem _ 0, ← List.getD_eq_getElem _ 0]
    exact congrFun (hp.basicSolution_eq hatBasis hsame) l

end Cycle

theorem feasible_start {c : CanonicalForm ℚ} {m : Model ℚ} (h : c.Represents m)
    (hrhs : ∀ i < c.tableau.nrRows, 0 ≤ c.tableau.rhs i) :
    Feasible c.tableau c.canonicalCost (.identity c.tableau.basis) := by
  have hmirrors := mirrors_start h
  have htableau := hmirrors.tableau_eq
  rw [← htableau] at hrhs
  refine ⟨?_, hrhs⟩
  rw [htableau]
  exact hmirrors

end Revised

/-! ### Canonical forms -/

theorem CanonicalForm.solveRevised_eq_loop_of_nonneg {c : CanonicalForm ℚ} {rule : EnteringRule} {s : Session ℚ}
    (hrhs : ∀ i < c.tableau.nrRows, 0 ≤ c.tableau.rhs i) (hs : s.settings.tolerances.general = 0) :
    c.solveRevised rule s =
      Revised.loop rule c.tableau c.canonicalCost s.settings.maxPivots (.identity c.tableau.basis) s := by
  refine solveRevised_eq_loop fun i hi => ?_
  rw [Session.tolerance, hs, neg_zero]
  exact hrhs i hi

/-- The basis of a revised run after `k` pivots, if so many are due. -/
def CanonicalForm.revisedBasis (c : CanonicalForm ℚ) (rule : EnteringRule) (k : ℕ) : BasisInverse ℚ :=
  (Revised.next rule c.tableau c.canonicalCost)^[k] (.identity c.tableau.basis)

namespace Edit

/-- Of a fresh or edited canonical form whose slack basis is feasible, in exact arithmetic. The revised method finds an
answer once it may make as many pivots as there can be bases, unless its run comes back to a basis that it was at
before. In that case the basic solution stays the same between the two times, and every run ends at the pivot limit,
however large. The primal method on the tableau always finds an answer, once it may make enough pivots. -/
theorem exists_ok_solveRevised_or_cycle {direction : Direction} {cost : List ℚ} {rows : List (List ℚ)}
    {relations : List Relation} {rhs : List ℚ} {domains : List VariableDomain} {m : Model ℚ} {c : CanonicalForm ℚ}
    {edits : List Edit} (hm : Model.ofData direction cost rows relations rhs domains = .ok m)
    (hedits : allInRange m edits) (hc : edits.foldl onForm (CanonicalForm.ofModel m) = c)
    (hrhs : ∀ i < c.tableau.nrRows, 0 ≤ c.tableau.rhs i) (rule : EnteringRule) :
    ((∀ s : Session ℚ, s.settings.tolerances.general = 0 →
        c.tableau.nrColumns ^ c.tableau.nrRows ≤ s.settings.maxPivots →
        ∃ outcome, (c.solveRevised rule s).1 = .ok outcome) ∨
      ∃ i j, Revised.Cycle rule c.tableau c.canonicalCost (.identity c.tableau.basis) i j ∧
        (∀ k row column, i ≤ k → k < j →
          Revised.move rule c.tableau c.canonicalCost (c.revisedBasis rule k) 0 = .pivot row column →
          (Revised.basicValues c.tableau (c.revisedBasis rule k)).getD row 0 = 0 ∧
          Revised.basicSolution c.tableau (c.revisedBasis rule (k + 1)) =
            Revised.basicSolution c.tableau (c.revisedBasis rule k)) ∧
        ∀ s : Session ℚ, s.settings.tolerances.general = 0 →
          (c.solveRevised rule s).1 = .error (.pivotLimit s.settings.maxPivots)) ∧
    ∀ maxDegeneratePivots, ∃ N, ∀ s : Session ℚ, s.settings.tolerances.general = 0 →
      s.settings.maxDegeneratePivots = maxDegeneratePivots → N ≤ s.settings.maxPivots →
      ∃ outcome, (c.tableau.primal rule s).result = .ok outcome := by
  have hvalid := Model.valid_of_ofData hm
  have hrep := (represents_foldl (CanonicalForm.represents_ofModel hvalid) hvalid hedits).1
  rw [hc] at hrep
  have hstart := Revised.feasible_start hrep hrhs
  have hloop : ∀ s : Session ℚ, s.settings.tolerances.general = 0 → c.solveRevised rule s =
      Revised.loop rule c.tableau c.canonicalCost s.settings.maxPivots (.identity c.tableau.basis) s :=
    fun s hs => CanonicalForm.solveRevised_eq_loop_of_nonneg hrhs hs
  refine ⟨?_, fun maxDegeneratePivots => ?_⟩
  · by_cases hdue : ∀ k ≤ c.tableau.nrColumns ^ c.tableau.nrRows,
        Revised.due rule c.tableau c.canonicalCost (c.revisedBasis rule k) = true
    · obtain ⟨i, j, hcycle⟩ := hstart.exists_cycle hdue
      refine .inr ⟨i, j, hcycle, fun k row column hik hkj => hcycle.stalls hstart hik hkj, fun s hs => ?_⟩
      rw [hloop s hs]
      exact hcycle.loop_eq hs _
    · refine .inl fun s hs hpivots => ?_
      rw [hloop s hs]
      obtain ⟨hall, -⟩ | ⟨-, hok⟩ := (Revised.pivotLoop_loop rule c.tableau c.canonicalCost).cases s.settings.maxPivots
        (.identity c.tableau.basis) hs
      · exact absurd (fun k hk => hall k (hk.trans hpivots)) hdue
      · exact hok
  · have hacc : Acc (Tableau.PrimalState.Follows rule maxDegeneratePivots) ⟨c.tableau, 0⟩ :=
      Tableau.PrimalState.acc_follows rule maxDegeneratePivots hrep.atBasis hrhs
    obtain ⟨N, hN⟩ := Tableau.PrimalState.exists_bound hacc
    exact ⟨N, fun s hs hlimit hpivots => hN _ hpivots s hs hlimit⟩

/-- A model on which the steepest rule goes round in a cycle of six bases. All of them describe the point zero, and the
objective grows beyond it. -/
def cyclingModel : Model ℚ where
  direction := .maximize
  cost := [10, -57, -9, -24]
  domains := List.replicate 4 .nonnegative
  constraints := [⟨[1 / 2, -11 / 2, -5 / 2, 9], .less, 0⟩, ⟨[1 / 2, -3 / 2, -1 / 2, 1], .less, 0⟩, ⟨[1, 0, 0, 0], .less, 1⟩]

theorem ofData_cyclingModel :
    Model.ofData .maximize [10, -57, -9, -24] [[1 / 2, -11 / 2, -5 / 2, 9], [1 / 2, -3 / 2, -1 / 2, 1], [1, 0, 0, 0]]
      [.less, .less, .less] [0, 0, 1] (List.replicate 4 .nonnegative) = .ok cyclingModel := by
  decide +kernel

def cyclingForm : CanonicalForm ℚ := .ofModel cyclingModel

-- The cycle is still there after these edits.
def cyclingEdits : List Edit := [.setRhs 2 2, .addConstraint [1, 1, 1, 1] .less 5]

def cyclingEdited : CanonicalForm ℚ := cyclingEdits.foldl onForm cyclingForm

-- The second constraint is no longer tight at the point zero, which leads out of the cycle.
def loosenedEdits : List Edit := [.setRhs 2 2, .addConstraint [1, 1, 1, 1] .less 5, .setRhs 1 1]

def loosenedEdited : CanonicalForm ℚ := loosenedEdits.foldl onForm cyclingForm

-- The steepest rule goes round after the first two edits and finds an answer after the third.
theorem exists_ok_solveRevised_or_cycle_cyclingEdited :
    Model.ofData .maximize [10, -57, -9, -24] [[1 / 2, -11 / 2, -5 / 2, 9], [1 / 2, -3 / 2, -1 / 2, 1], [1, 0, 0, 0]]
      [.less, .less, .less] [0, 0, 1] (List.replicate 4 .nonnegative) = .ok cyclingModel ∧
    allInRange cyclingModel cyclingEdits = true ∧ (∀ i < cyclingEdited.tableau.nrRows, 0 ≤ cyclingEdited.tableau.rhs i) ∧
    allInRange cyclingModel loosenedEdits = true ∧
    (∀ i < loosenedEdited.tableau.nrRows, 0 ≤ loosenedEdited.tableau.rhs i) ∧
    (∃ i j, Revised.Cycle .steepest cyclingEdited.tableau cyclingEdited.canonicalCost
      (.identity cyclingEdited.tableau.basis) i j) ∧
    (∀ s : Session ℚ, s.settings.tolerances.general = 0 →
      (cyclingEdited.solveRevised .steepest s).1 = .error (.pivotLimit s.settings.maxPivots)) ∧
    (∃ N, ∀ s : Session ℚ, s.settings.tolerances.general = 0 → s.settings.maxDegeneratePivots = 10 →
      N ≤ s.settings.maxPivots → ∃ outcome, (cyclingEdited.tableau.primal .steepest s).result = .ok outcome) ∧
    ∀ s : Session ℚ, s.settings.tolerances.general = 0 → 4096 ≤ s.settings.maxPivots →
      ∃ outcome, (loosenedEdited.solveRevised .steepest s).1 = .ok outcome := by
  have hcycling : allInRange cyclingModel cyclingEdits = true := by decide
  have hloosened : allInRange cyclingModel loosenedEdits = true := by decide
  have hrhs : ∀ i < cyclingEdited.tableau.nrRows, 0 ≤ cyclingEdited.tableau.rhs i := by decide +kernel
  have hrhs' : ∀ i < loosenedEdited.tableau.nrRows, 0 ≤ loosenedEdited.tableau.rhs i := by decide +kernel
  obtain ⟨halternative, hprimal⟩ :=
    exists_ok_solveRevised_or_cycle (c := cyclingEdited) ofData_cyclingModel hcycling rfl hrhs .steepest
  obtain hok | ⟨i, j, hcycle, -, hlimit⟩ := halternative
  · have hcycle : Revised.Cycle .steepest cyclingEdited.tableau cyclingEdited.canonicalCost
        (.identity cyclingEdited.tableau.basis) 0 6 := ⟨by decide, by decide +kernel, by decide +kernel⟩
    obtain ⟨outcome, hres⟩ := hok
      (.start { (Settings.standard : Settings ℚ) with tolerances := ⟨0, 0, 0⟩, maxPivots := 4096 }) rfl le_rfl
    rw [CanonicalForm.solveRevised_eq_loop_of_nonneg hrhs rfl, hcycle.loop_eq rfl] at hres
    cases hres
  · refine ⟨ofData_cyclingModel, hcycling, hrhs, hloosened, hrhs', ⟨i, j, hcycle⟩, hlimit, hprimal 10, ?_⟩
    obtain hok | ⟨i, j, hcycle, -⟩ :=
      (exists_ok_solveRevised_or_cycle (c := loosenedEdited) ofData_cyclingModel hloosened rfl hrhs' .steepest).1
    · exact hok
    · have hend : Revised.due .steepest loosenedEdited.tableau loosenedEdited.canonicalCost
          (loosenedEdited.revisedBasis .steepest 3) = false := by decide +kernel
      rw [CanonicalForm.revisedBasis, due_of_back hcycle.lt hcycle.due hcycle.back 3] at hend
      cases hend

-- The primal method leaves the cycle after ten pivots without a change of the objective.
theorem not_exists_bound_solveRevised_cyclingForm :
    Model.ofData .maximize [10, -57, -9, -24] [[1 / 2, -11 / 2, -5 / 2, 9], [1 / 2, -3 / 2, -1 / 2, 1], [1, 0, 0, 0]]
      [.less, .less, .less] [0, 0, 1] (List.replicate 4 .nonnegative) = .ok cyclingModel ∧
    (∀ i < cyclingForm.tableau.nrRows, 0 ≤ cyclingForm.tableau.rhs i) ∧
    (¬∃ N, ∀ s : Session ℚ, s.settings.tolerances.general = 0 → N ≤ s.settings.maxPivots →
      ∀ limit, (cyclingForm.solveRevised .steepest s).1 ≠ .error (.pivotLimit limit)) ∧
    (cyclingForm.tableau.primal .steepest (.start { (Settings.standard : Settings ℚ) with
      tolerances := ⟨0, 0, 0⟩, maxPivots := 20 })).result = .ok (.optimal [1, 0, 1, 0, 2, 0, 0]) := by
  have hrhs : ∀ i < cyclingForm.tableau.nrRows, 0 ≤ cyclingForm.tableau.rhs i := by decide +kernel
  have hcycle : Revised.Cycle .steepest cyclingForm.tableau cyclingForm.canonicalCost
      (.identity cyclingForm.tableau.basis) 0 6 := ⟨by decide, by decide +kernel, by decide +kernel⟩
  refine ⟨ofData_cyclingModel, hrhs, ?_, by decide +kernel⟩
  rintro ⟨N, hN⟩
  let s : Session ℚ := .start { (Settings.standard : Settings ℚ) with tolerances := ⟨0, 0, 0⟩, maxPivots := N }
  refine hN s rfl le_rfl N ?_
  rw [CanonicalForm.solveRevised_eq_loop_of_nonneg hrhs rfl]
  exact hcycle.loop_eq rfl N

end Edit

end LinearProgramming
