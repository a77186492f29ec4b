import LinearProgramming.Proofs.BasisInverse.Change
import LinearProgramming.Proofs.CanonicalForm.EditSequence
import LinearProgramming.Proofs.Simplex.Solve
import LinearProgramming.Simplex.Revised

/-! # The revised method follows the primal method

The revised simplex method keeps an inverse where the primal method keeps a tableau. `Revised.Mirrors` relates the two:
the inverse is that of the basis of the tableau. All that the revised method computes from the inverse can then be read
off the tableau, so both methods make the same move (`Mirrors.move_eq`), whatever the tolerance is. A pivot of the
tableau and an exchange of a column in the inverse keep the relation (`Mirrors.pivot`). As long as the primal method does
not turn to the smallest index, the two runs are therefore the same, pivot by pivot (`Mirrors.loop_eq`,
`Mirrors.pivots_eq`). -/

namespace LinearProgramming

variable {first t : Tableau ℚ} {b : BasisInverse ℚ} {cost : List ℚ} {rule : EnteringRule} {s : Session ℚ} {ε : ℚ}
  {i j row column : ℕ}

/-! ### Pivots of a run -/

def Move.map {β γ : Type} (f : β → γ) : Move β → Move γ
  | .stop outcome => .stop (outcome.map f)
  | .pivot row column => .pivot row column

/-- The row and column of each pivot of `Tableau.primalLoop`, with at most `maxDegenerate` pivots in succession that leave
the objective unchanged before the smallest index decides. -/
def Tableau.primalPivots (rule : EnteringRule) (maxDegenerate : ℕ) (ε : ℚ) (remaining degenerate : ℕ)
    (t : Tableau ℚ) : List (ℕ × ℕ) :=
  match t.primalMove rule (maxDegenerate ≤ degenerate) ε with
  | .stop _ => []
  | .pivot row column =>
    match remaining with
    | 0 => []
    | remaining + 1 =>
      let next := t.pivot column row
      let unchanged := Scalar.isZero (next.objectiveValue - t.objectiveValue) ε
      (row, column) :: primalPivots rule maxDegenerate ε remaining (if unchanged then degenerate + 1 else 0) next

def Revised.pivots (rule : EnteringRule) (first : Tableau ℚ) (cost : List ℚ) (ε : ℚ) (remaining : ℕ)
    (b : BasisInverse ℚ) : List (ℕ × ℕ) :=
  match move rule first cost b ε with
  | .stop _ => []
  | .pivot row column =>
    match remaining with
    | 0 => []
    | remaining + 1 =>
      (row, column) ::
        pivots rule first cost ε remaining (b.change row column (b.transform (first.column column)))

namespace Tableau

/-- The pivots of a primal run, one after the other, lead to its last tableau. -/
theorem tableau_primalLoop (rule : EnteringRule) (remaining degenerate : ℕ) (t : Tableau ℚ) (s : Session ℚ) :
    (primalLoop rule remaining degenerate t s).tableau =
      (primalPivots rule s.settings.maxDegeneratePivots s.tolerance remaining degenerate t).foldl
        (fun t p => t.pivot p.2 p.1) t := by
  induction remaining generalizing degenerate t s with
  | zero =>
    unfold primalLoop primalPivots
    cases t.primalMove rule (s.settings.maxDegeneratePivots ≤ degenerate) s.tolerance with
    | stop outcome => rfl
    | pivot row column => rfl
  | succ remaining ih =>
    unfold primalLoop primalPivots
    cases t.primalMove rule (s.settings.maxDegeneratePivots ≤ degenerate) s.tolerance with
    | stop outcome => rfl
    | pivot row column =>
      simp only [ih, List.foldl_cons, Session.settings_recordPivot, Session.tolerance_recordPivot]

/-- A primal run ends at an optimum, with an unbounded column or at the pivot limit. -/
theorem result_primalLoop (rule : EnteringRule) (remaining degenerate : ℕ) (t : Tableau ℚ) (s : Session ℚ) :
    (∃ values, (primalLoop rule remaining degenerate t s).result = .ok (.optimal values)) ∨
      (primalLoop rule remaining degenerate t s).result = .ok .unbounded ∨
      (primalLoop rule remaining degenerate t s).result = .error (.pivotLimit s.settings.maxPivots) := by
  have hmove : ∀ (t : Tableau ℚ) (smallestIndex : Bool) (ε : ℚ),
      t.primalMove rule smallestIndex ε = .stop (.optimal t.basicSolution) ∨
        t.primalMove rule smallestIndex ε = .stop .unbounded ∨
        ∃ row column, t.primalMove rule smallestIndex ε = .pivot row column := by
    intro t smallestIndex ε
    unfold primalMove
    split
    · exact Or.inl rfl
    · split
      · exact Or.inr (Or.inl rfl)
      · exact Or.inr (Or.inr ⟨_, _, rfl⟩)
  induction remaining generalizing degenerate t s with
  | zero =>
    unfold primalLoop
    obtain h | h | ⟨row, column, h⟩ := hmove t (s.settings.maxDegeneratePivots ≤ degenerate) s.tolerance
    · simp only [h]
      exact Or.inl ⟨_, rfl⟩
    · simp only [h]
      exact Or.inr (Or.inl trivial)
    · simp only [h]
      exact Or.inr (Or.inr trivial)
  | succ remaining ih =>
    unfold primalLoop
    obtain h | h | ⟨row, column, h⟩ := hmove t (s.settings.maxDegeneratePivots ≤ degenerate) s.tolerance
    · simp only [h]
      exact Or.inl ⟨_, rfl⟩
    · simp only [h]
      exact Or.inr (Or.inl trivial)
    · simp only [h]
      have hrest := ih (if Scalar.isZero ((t.pivot column row).objectiveValue - t.objectiveValue) s.tolerance
        then degenerate + 1 else 0) (t.pivot column row)
        (s.recordPivot (.primalPivot row column) (t.pivot column row))
      rwa [Session.settings_recordPivot] at hrest

end Tableau

/-! ### The chosen pivot -/

namespace Tableau

theorem entry_pos_of_primalRow?_eq_some (hε : 0 ≤ ε) (h : t.primalRow? column ε = some row) :
    row < t.nrRows ∧ 0 < t.entry row column := by
  have hchoice := t.choosesWithin_primalRow? hε column
  rw [h] at hchoice
  obtain ⟨⟨hlt, hentry⟩, -⟩ := hchoice
  exact ⟨hlt, hε.trans_lt hentry⟩

/-- The columns that may enter are not basic, and the entries that are pivoted on are not zero. -/
theorem WellFormed.of_primalMove_eq_pivot (h : t.WellFormed) (hε : 0 ≤ ε)
    (hmove : t.primalMove rule false ε = .pivot row column) :
    row < t.nrRows ∧ column < t.nrColumns ∧ column ∉ t.basis ∧ t.entry row column ≠ 0 := by
  unfold primalMove at hmove
  cases hselect : rule.select? t.nonBasicCosts ε with
  | none => simp [hselect] at hmove
  | some p =>
    cases hrow : t.primalRow? p.1 ε with
    | none => simp [hselect, hrow] at hmove
    | some r =>
      simp only [hselect, hrow, Bool.false_eq_true, if_false, Move.pivot.injEq] at hmove
      obtain ⟨rfl, rfl⟩ := hmove
      obtain ⟨hlt, hmem, -⟩ := (mem_nonBasicCosts h).mp (EnteringRule.select?_mem hselect)
      obtain ⟨hr, hpos⟩ := entry_pos_of_primalRow?_eq_some hε hrow
      exact ⟨hr, hlt, hmem, hpos.ne'⟩

end Tableau

/-! ### Reading the tableau off the inverse -/

namespace Revised

/-- The inverse is that of the basis of the tableau, which writes the first one. -/
structure Mirrors (first : Tableau ℚ) (cost : List ℚ) (t : Tableau ℚ) (b : BasisInverse ℚ) : Prop where
  wellFormed : first.WellFormed
  cost_eq : ∀ j < first.nrColumns, cost.getD j 0 = -first.relativeCost j
  objectiveValue_eq : first.objectiveValue = 0
  rewrites : first.Rewrites t
  inverts : b.Inverts first
  columns_eq : b.columns = t.basis

namespace Mirrors

variable (h : Mirrors first cost t b)
include h

theorem tableau_eq : b.tableau first cost = t :=
  h.inverts.tableau_eq_of_rewrites h.wellFormed h.cost_eq h.objectiveValue_eq h.rewrites h.columns_eq

theorem rowDot_entry (hi : i < first.nrRows) (hj : j < first.nrColumns) :
    b.inverse.rowDot i (first.entry · j) = t.entry i j := by
  have hentry : (b.tableau first cost).entry i j = _ := h.inverts.entry_tableau h.wellFormed hi hj
  rw [← hentry, h.tableau_eq]

theorem transform_column (hj : j < first.nrColumns) : b.transform (first.column j) = t.column j := by
  have hrows : t.nrRows = first.nrRows := h.rewrites.equivalent.nrRows_eq
  refine List.ext_getElem ?_ fun i hi hi' => ?_
  · simp [h.inverts.length_transform, Tableau.column, hrows]
  · rw [h.inverts.length_transform] at hi
    rw [← List.getD_eq_getElem _ 0, ← List.getD_eq_getElem _ 0, h.inverts.getD_transform_column hi,
      h.rowDot_entry hi hj, t.getD_column (hrows ▸ hi)]

theorem basicValues_eq : basicValues first b = t.rhsValues := by
  have hrows : t.nrRows = first.nrRows := h.rewrites.equivalent.nrRows_eq
  refine List.ext_getElem ?_ fun i hi hi' => ?_
  · simp [basicValues, h.inverts.length_transform, Tableau.rhsValues, hrows]
  · rw [basicValues, h.inverts.length_transform] at hi
    have hvalue : (basicValues first b).getD i 0 = t.rhs i := by
      rw [basicValues, h.inverts.getD_transform _ hi, ← h.tableau_eq, h.inverts.rhs_tableau h.wellFormed hi]
      refine h.inverts.rowDot_congr (fun k hk => ?_) i
      simp [Tableau.rhsValues, hk]
    rw [← List.getD_eq_getElem _ 0, hvalue]
    simp [Tableau.rhsValues]

theorem nonBasicColumns_eq : b.nonBasicColumns first.nrColumns = t.nonBasicColumns := by
  unfold BasisInverse.nonBasicColumns Tableau.nonBasicColumns
  rw [h.rewrites.equivalent.nrColumns_eq, h.columns_eq]
  refine List.filter_congr fun j _ => ?_
  rw [Bool.not_inj_iff, Bool.eq_iff_iff, List.contains_iff_mem, h.rewrites.atBasis.wellFormed.mask_iff]

theorem nonBasicCosts_eq : nonBasicCosts first cost b = t.nonBasicCosts := by
  unfold nonBasicCosts Tableau.nonBasicCosts
  rw [h.nonBasicColumns_eq]
  refine List.map_congr_left fun j hj => ?_
  have hj' : j < first.nrColumns := by
    rw [← h.rewrites.equivalent.nrColumns_eq]
    exact (h.rewrites.atBasis.wellFormed.mem_nonBasicColumns.mp hj).1
  rw [← h.inverts.relativeCost_tableau_eq h.wellFormed hj', h.tableau_eq]

theorem primalRow?_eq (hj : j < first.nrColumns) :
    primalRow? (basicValues first b) (b.transform (first.column j)) ε = t.primalRow? j ε := by
  unfold primalRow? Tableau.primalRow?
  rw [h.transform_column hj, h.basicValues_eq]
  have hzip : (t.column j).zipIdx = (List.range t.nrRows).map fun i => (t.entry i j, i) := by
    refine List.ext_getElem (by simp [Tableau.column]) fun i hi hi' => ?_
    simp [Tableau.column]
  rw [hzip, List.filter_map, List.map_map, Tableau.primalRatios]
  have hratio : ∀ i ∈ (List.range t.nrRows).filter fun i => Scalar.isPositive (t.entry i j) ε,
      (i, Scalar.maximum (t.rhsValues.getD i 0) 0 / t.entry i j) =
        (i, Scalar.maximum (t.rhs i) 0 / t.entry i j) := by
    intro i hi
    have hlt : i < t.nrRows := List.mem_range.mp (List.mem_filter.mp hi).1
    simp [Tableau.rhsValues, hlt]
  exact congrArg (fun ratios => (Scalar.firstMinimum ratios ε).map (·.1)) (List.map_congr_left hratio)

theorem basicSolution_eq : basicSolution first b = t.basicSolution := by
  unfold basicSolution Tableau.basicSolution
  have hlen : t.basis.length = t.nrRows := h.rewrites.atBasis.wellFormed.basis_length
  have hzip : t.basis.zip t.rhsValues = t.basis.zipIdx.map fun p => (p.1, t.rhs p.2) := by
    refine List.ext_getElem (by simp [Tableau.rhsValues, hlen]) fun i hi hi' => ?_
    simp [Tableau.rhsValues]
  rw [h.basicValues_eq, h.columns_eq, h.rewrites.equivalent.nrColumns_eq, hzip, List.foldl_map]

theorem move_eq : move rule first cost b ε = (t.primalMove rule false ε).map (t, ·) := by
  unfold move Tableau.primalMove
  rw [h.nonBasicCosts_eq]
  simp only [Bool.false_eq_true, if_false]
  cases hselect : rule.select? t.nonBasicCosts ε with
  | none =>
    simp only [h.tableau_eq, h.basicSolution_eq]
    rfl
  | some p =>
    have hmem := (Tableau.mem_nonBasicCosts h.rewrites.atBasis.wellFormed).mp
      (EnteringRule.select?_mem hselect)
    simp only [h.primalRow?_eq (h.rewrites.equivalent.nrColumns_eq ▸ hmem.1)]
    cases t.primalRow? p.1 ε with
    | none => rfl
    | some row => rfl

/-! ### Whole runs -/

theorem pivot (hε : 0 ≤ ε) (hmove : t.primalMove rule false ε = .pivot row column) :
    Mirrors first cost (t.pivot column row) (b.change row column (b.transform (first.column column))) := by
  obtain ⟨hrow, hcolumn, hmem, hentry⟩ := h.rewrites.atBasis.wellFormed.of_primalMove_eq_pivot hε hmove
  have hrow' : row < first.nrRows := h.rewrites.equivalent.nrRows_eq ▸ hrow
  have hcolumn' : column < first.nrColumns := h.rewrites.equivalent.nrColumns_eq ▸ hcolumn
  have hatBasis := h.rewrites.atBasis
  refine ⟨h.wellFormed, h.cost_eq, h.objectiveValue_eq, h.rewrites.trans ?_, h.inverts.change hrow' hcolumn' ?_, ?_⟩
  · exact ⟨hatBasis.pivot hrow hcolumn hmem hentry, hatBasis.equivalent_pivot hrow hcolumn hentry⟩
  · rw [h.rowDot_entry hrow' hcolumn']
    exact hentry
  · exact congrArg (·.set row column) h.columns_eq

/-- The pivots that are left are too few for the primal method to turn to the smallest index. -/
theorem loop_eq (hs : 0 ≤ s.tolerance) (remaining degenerate : ℕ)
    (hlimit : degenerate + remaining < s.settings.maxDegeneratePivots) :
    loop rule first cost remaining b s =
      ((Tableau.primalLoop rule remaining degenerate t s).result.map
          (·.map ((Tableau.primalLoop rule remaining degenerate t s).tableau, ·)),
        (Tableau.primalLoop rule remaining degenerate t s).session) := by
  induction remaining generalizing degenerate t b s with
  | zero =>
    have hrule : decide (s.settings.maxDegeneratePivots ≤ degenerate) = false := decide_eq_false (by omega)
    unfold loop Tableau.primalLoop
    rw [h.move_eq, hrule]
    cases t.primalMove rule false s.tolerance with
    | stop outcome => rfl
    | pivot row column => rfl
  | succ remaining ih =>
    have hrule : decide (s.settings.maxDegeneratePivots ≤ degenerate) = false := decide_eq_false (by omega)
    unfold loop Tableau.primalLoop
    rw [h.move_eq, hrule]
    cases hmove : t.primalMove rule false s.tolerance with
    | stop outcome => rfl
    | pivot row column =>
      have hnext := h.pivot hs hmove
      simp only [Move.map, hnext.tableau_eq]
      refine ih hnext ?_ _ ?_
      · rw [Session.tolerance_recordPivot]
        exact hs
      · rw [Session.settings_recordPivot]
        split_ifs
        · omega
        · omega

theorem pivots_eq {maxDegenerate : ℕ} (hε : 0 ≤ ε) (remaining degenerate : ℕ)
    (hlimit : degenerate + remaining < maxDegenerate) :
    pivots rule first cost ε remaining b = Tableau.primalPivots rule maxDegenerate ε remaining degenerate t := by
  induction remaining generalizing degenerate t b with
  | zero =>
    have hrule : decide (maxDegenerate ≤ degenerate) = false := decide_eq_false (by omega)
    unfold pivots Tableau.primalPivots
    rw [h.move_eq, hrule]
    cases t.primalMove rule false ε with
    | stop outcome => rfl
    | pivot row column => rfl
  | succ remaining ih =>
    have hrule : decide (maxDegenerate ≤ degenerate) = false := decide_eq_false (by omega)
    unfold pivots Tableau.primalPivots
    rw [h.move_eq, hrule]
    cases hmove : t.primalMove rule false ε with
    | stop outcome => rfl
    | pivot row column =>
      refine congrArg ((row, column) :: ·) (ih (h.pivot hε hmove) _ ?_)
      split_ifs
      · omega
      · omega

end Mirrors

theorem mirrors_start {c : CanonicalForm ℚ} {m : Model ℚ} (h : c.Represents m) :
    Mirrors c.tableau c.canonicalCost c.tableau (.identity c.tableau.basis) :=
  ⟨h.atBasis.wellFormed, fun _ hj => c.getD_canonicalCost hj, h.objectiveValue_eq, Tableau.Rewrites.refl h.atBasis,
    BasisInverse.inverts_identity h.atBasis.unitAt.unitColumns, rfl⟩

end Revised

/-! ### Canonical forms -/

/-- The revised method on a canonical form makes the pivots that the primal method makes on its tableau, ends as that
method does and leaves the same session, with the same tableau behind each recorded pivot. -/
structure CanonicalForm.FollowsPrimal (c : CanonicalForm ℚ) (rule : EnteringRule) (s : Session ℚ) : Prop where
  pivots_eq : Revised.pivots rule c.tableau c.canonicalCost s.tolerance s.settings.maxPivots
      (.identity c.tableau.basis) =
    Tableau.primalPivots rule s.settings.maxDegeneratePivots s.tolerance s.settings.maxPivots 0 c.tableau
  tableau_eq : (c.tableau.primal rule s).tableau =
    (Tableau.primalPivots rule s.settings.maxDegeneratePivots s.tolerance s.settings.maxPivots 0 c.tableau).foldl
      (fun t p => t.pivot p.2 p.1) c.tableau
  result_cases :
    (∃ values, (c.tableau.primal rule s).result = .ok (.optimal values) ∧
      (c.solveRevised rule s).1 = .ok (.optimal ((c.tableau.primal rule s).tableau, values))) ∨
    ((c.tableau.primal rule s).result = .ok .unbounded ∧ (c.solveRevised rule s).1 = .ok .unbounded) ∨
    ((c.tableau.primal rule s).result = .error (.pivotLimit s.settings.maxPivots) ∧
      (c.solveRevised rule s).1 = .error (.pivotLimit s.settings.maxPivots))
  session_eq : (c.solveRevised rule s).2 = (c.tableau.primal rule s).session

theorem CanonicalForm.solveRevised_eq_loop {c : CanonicalForm ℚ}
    (hrhs : ∀ i < c.tableau.nrRows, -s.tolerance ≤ c.tableau.rhs i) :
    c.solveRevised rule s =
      Revised.loop rule c.tableau c.canonicalCost s.settings.maxPivots (.identity c.tableau.basis) s := by
  have hany : c.tableau.rhsValues.any (Scalar.isNegative · s.tolerance) = false := by
    rw [List.any_eq_false]
    intro v hv
    obtain ⟨i, hi, rfl⟩ := List.mem_map.mp hv
    rw [Scalar.isNegative_iff]
    exact not_lt.mpr (hrhs i (List.mem_range.mp hi))
  rw [solveRevised, hany]
  rfl

theorem CanonicalForm.Represents.followsPrimal {c : CanonicalForm ℚ} {m : Model ℚ} (h : c.Represents m)
    (hs : 0 ≤ s.tolerance) (hrhs : ∀ i < c.tableau.nrRows, -s.tolerance ≤ c.tableau.rhs i)
    (hlimit : s.settings.maxPivots < s.settings.maxDegeneratePivots) (rule : EnteringRule) :
    c.FollowsPrimal rule s := by
  have hlimit' : 0 + s.settings.maxPivots < s.settings.maxDegeneratePivots := by omega
  have hstart := Revised.mirrors_start h
  have hloop := (CanonicalForm.solveRevised_eq_loop hrhs).trans
    (hstart.loop_eq hs s.settings.maxPivots 0 hlimit' : Revised.loop rule .. = _)
  refine ⟨hstart.pivots_eq hs _ 0 hlimit', Tableau.tableau_primalLoop .., ?_, congrArg Prod.snd hloop⟩
  have hresult : (c.solveRevised rule s).1 = (c.tableau.primal rule s).result.map
      (·.map ((c.tableau.primal rule s).tableau, ·)) := congrArg Prod.fst hloop
  obtain ⟨values, hend⟩ | hend | hend : (∃ values, (c.tableau.primal rule s).result = .ok (.optimal values)) ∨
      (c.tableau.primal rule s).result = .ok .unbounded ∨
      (c.tableau.primal rule s).result = .error (.pivotLimit s.settings.maxPivots) :=
    Tableau.result_primalLoop rule s.settings.maxPivots 0 c.tableau s
  · refine Or.inl ⟨values, hend, ?_⟩
    rw [hresult, hend]
    rfl
  · refine Or.inr (Or.inl ⟨hend, ?_⟩)
    rw [hresult, hend]
    rfl
  · refine Or.inr (Or.inr ⟨hend, ?_⟩)
    rw [hresult, hend]
    rfl

namespace Edit

/-- Of a fresh or edited canonical form whose slack basis is feasible up to the tolerance. -/
theorem followsPrimal_foldl {direction : Direction} {cost : List ℚ} {rows : List (List ℚ)}
    {relations : List Relation} {rhs : List ℚ} {domains : List VariableDomain} {m : Model ℚ} {c : CanonicalForm ℚ}
    {edits : List Edit} (hm : Model.ofData direction cost rows relations rhs domains = .ok m)
    (hedits : allInRange m edits) (hc : edits.foldl onForm (CanonicalForm.ofModel m) = c)
    (hs : 0 ≤ s.settings.tolerances.general)
    (hrhs : ∀ i < c.tableau.nrRows, -s.settings.tolerances.general ≤ c.tableau.rhs i)
    (hlimit : s.settings.maxPivots < s.settings.maxDegeneratePivots) (rule : EnteringRule) :
    c.FollowsPrimal rule s := by
  have hvalid := Model.valid_of_ofData hm
  have hrep := (represents_foldl (CanonicalForm.represents_ofModel hvalid) hvalid hedits).1
  rw [hc] at hrep
  exact hrep.followsPrimal hs hrhs hlimit rule

/-- A model with a right hand side just below zero. -/
def almostFeasible : Model ℚ where
  direction := .maximize
  cost := [2, 3, 1]
  domains := [.nonnegative, .nonnegative, .free]
  constraints := [⟨[1, 1, 1], .less, 4⟩, ⟨[1, 3, -1], .less, -1 / 1000⟩, ⟨[0, 1, 2], .greater, -5⟩]

def almostFeasibleForm : CanonicalForm ℚ :=
  [.setCost 2 (-1), .addConstraint [1, 0, 1] .less 3].foldl onForm (CanonicalForm.ofModel almostFeasible)

/-- Few pivots, and a tolerance that admits the negative right hand side. -/
def fewPivots : Session ℚ :=
  .start { (Settings.standard : Settings ℚ) with tolerances := ⟨0, 1 / 100, 0⟩, maxPivots := 5, maxDegeneratePivots := 6 }

theorem followsPrimal_foldl_almostFeasible :
    Model.ofData .maximize [2, 3, 1] [[1, 1, 1], [1, 3, -1], [0, 1, 2]] [.less, .less, .greater] [4, -1 / 1000, -5]
      [.nonnegative, .nonnegative, .free] = .ok almostFeasible ∧
    allInRange almostFeasible [.setCost 2 (-1), .addConstraint [1, 0, 1] .less 3] = true ∧
    (∀ i < almostFeasibleForm.tableau.nrRows, -(1 / 100) ≤ almostFeasibleForm.tableau.rhs i) ∧
    almostFeasibleForm.tableau.rhs 1 < 0 ∧
    Tableau.primalPivots .steepest 6 (1 / 100) 5 0 almostFeasibleForm.tableau = [(1, 1), (1, 0), (3, 2)] ∧
    almostFeasibleForm.FollowsPrimal .steepest fewPivots := by
  have hm : Model.ofData .maximize [2, 3, 1] [[1, 1, 1], [1, 3, -1], [0, 1, 2]] [.less, .less, .greater]
      [4, -1 / 1000, -5] [.nonnegative, .nonnegative, .free] = .ok almostFeasible := by decide +kernel
  have hedits : allInRange almostFeasible [.setCost 2 (-1), .addConstraint [1, 0, 1] .less 3] = true := by decide
  have hrhs : ∀ i < almostFeasibleForm.tableau.nrRows, -(1 / 100) ≤ almostFeasibleForm.tableau.rhs i := by
    decide +kernel
  exact ⟨hm, hedits, hrhs, by decide +kernel, by decide +kernel,
    followsPrimal_foldl (s := fewPivots) (c := almostFeasibleForm) hm hedits rfl (by decide +kernel) hrhs (by decide)
      .steepest⟩

end Edit

end LinearProgramming
