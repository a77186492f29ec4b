import LinearProgramming.Proofs.CanonicalForm.Build
import LinearProgramming.Proofs.CanonicalForm.Edit

/-! # Sequences of edits

An edit is made in a model and in its canonical form alike. `CanonicalForm.Expresses` says on lists of column values
what a canonical form is for: its columns are those of the variables and the slacks, its nonnegative solutions are the
feasible assignments of the model, and its cost is the objective of the model, turned into a maximisation. This holds of
the canonical form of a model after any sequence of edits (`Edit.expresses_foldl`), since each edit keeps
`CanonicalForm.Represents`. -/

namespace LinearProgramming

variable {c : CanonicalForm ℚ} {m : Model ℚ}

/-! ### What a canonical form expresses -/

namespace CanonicalForm

/-- The columns stand for the variables and slacks of the model, and their nonnegative solutions for its feasible
assignments. -/
structure Expresses (c : CanonicalForm ℚ) (m : Model ℚ) : Prop where
  columns_perm : (c.placements.flatMap Placement.indices ++ (List.range c.nrRows).map c.slackColumn).Perm
    (List.range c.nrColumns)
  feasible : ∀ x : List ℚ, x.length = c.nrColumns → c.tableau.Feasible (Tableau.ofList x) → m.Feasible (c.modelValues x)
  objective : ∀ x : List ℚ, x.length = c.nrColumns → c.tableau.Feasible (Tableau.ofList x) →
    Scalar.dot c.canonicalCost x = m.direction.sign * m.objectiveValue (c.modelValues x)
  exists_columns : ∀ y, m.Feasible y →
    ∃ x : List ℚ, x.length = c.nrColumns ∧ c.tableau.Feasible (Tableau.ofList x) ∧ c.modelValues x = y

namespace Represents

theorem map_slackColumn (h : c.Represents m) : (List.range c.nrRows).map c.slackColumn = c.tableau.basis := by
  have hlen : c.nrRows = c.tableau.basis.length := by
    rw [nrRows, h.length_rowSources, h.atBasis.wellFormed.basis_length]
  refine List.ext_getElem (by simpa using hlen) fun i hi hi' => ?_
  rw [List.getElem_map, List.getElem_range, slackColumn, List.getD_eq_getElem _ _ hi']

theorem dot_canonicalCost (h : c.Represents m) {x : List ℚ} (hlen : x.length = c.nrColumns) :
    Scalar.dot c.canonicalCost x = m.direction.sign * m.objectiveValue (c.modelValues x) := by
  have hterm : ∀ j ∈ Finset.range c.nrColumns,
      c.canonicalCost.getD j 0 * x.getD j 0 = -(c.tableau.relativeCost j * Tableau.ofList x j) := by
    intro j hj
    rw [c.getD_canonicalCost (Finset.mem_range.mp hj), neg_mul]
    rfl
  have hobj : c.tableau.objectiveAt (Tableau.ofList x) = Scalar.dot c.canonicalCost x := by
    rw [Scalar.dot_eq_sum_range _ _ c.nrColumns (by rw [hlen]; exact min_le_right _ _), Finset.sum_congr rfl hterm,
      Finset.sum_neg_distrib, Tableau.objectiveAt, h.objectiveValue_eq, zero_sub]
    rfl
  rw [← hobj, h.objectiveAt_eq, modelValues_eq_assignment]

theorem expresses (h : c.Represents m) (hm : m.Valid) : c.Expresses m := by
  refine ⟨?_, fun x _ hx => ?_, fun x hlen _ => h.dot_canonicalCost hlen, fun y hy => ?_⟩
  · rw [h.map_slackColumn]
    exact h.columns_perm
  · rw [modelValues_eq_assignment]
    exact h.feasible_assignment hm hx
  · obtain ⟨x, hx, rfl⟩ := h.exists_feasible hm hy
    -- a list has room for the columns only, and nothing else counts
    have hagree : ∀ j < c.nrColumns, Tableau.ofList ((List.range c.nrColumns).map x) j = x j :=
      fun j hj => Tableau.ofList_map_range x hj
    refine ⟨(List.range c.nrColumns).map x, by simp, (Tableau.feasible_congr hagree).mpr hx, ?_⟩
    rw [modelValues_eq_assignment]
    exact h.assignment_congr hagree

end Represents

end CanonicalForm

/-! ### Edits -/

inductive Edit where
  | setCost (variableIndex : ℕ) (cost : ℚ)
  | setRhs (index : ℕ) (rhs : ℚ)
  | setCoefficient (index variableIndex : ℕ) (value : ℚ)
  | addVariable (cost : ℚ) (coefficients : List ℚ)
  | addConstraint (coefficients : List ℚ) (relation : Relation) (rhs : ℚ)

namespace Edit

/-- The edit names variables and constraints that the model has, and gives one coefficient for each of them. -/
def inRange (m : Model ℚ) : Edit → Bool
  | setCost variableIndex _ => variableIndex < m.nrVariables
  | setRhs index _ => index < m.nrConstraints
  | setCoefficient index variableIndex _ => index < m.nrConstraints && variableIndex < m.nrVariables
  | addVariable _ coefficients => coefficients.length == m.nrConstraints
  | addConstraint coefficients _ _ => coefficients.length == m.nrVariables

def onModel (m : Model ℚ) : Edit → Model ℚ
  | setCost variableIndex cost => m.setCost variableIndex cost
  | setRhs index rhs => m.setRhs index rhs
  | setCoefficient index variableIndex value => m.setCoefficient index variableIndex value
  | addVariable cost coefficients => m.addVariable cost coefficients
  | addConstraint coefficients relation rhs => m.addConstraint coefficients relation rhs

def onForm (c : CanonicalForm ℚ) : Edit → CanonicalForm ℚ
  | setCost variableIndex cost => c.setCost variableIndex cost
  | setRhs index rhs => c.setRhs index rhs
  | setCoefficient index variableIndex value => c.setCoefficient index variableIndex value
  | addVariable cost coefficients => c.addVariable cost coefficients
  | addConstraint coefficients relation rhs => c.addConstraint coefficients relation rhs

/-- Each edit is in range for the model that the edits before it leave. -/
def allInRange (m : Model ℚ) : List Edit → Bool
  | [] => true
  | e :: rest => e.inRange m && allInRange (e.onModel m) rest

variable {e : Edit} {edits : List Edit}

theorem valid_onModel (hm : m.Valid) (he : e.inRange m) : (e.onModel m).Valid := by
  cases e with
  | setCost v cost => exact hm.setCost v cost
  | setRhs index rhs => exact hm.setRhs index rhs
  | setCoefficient index v value => exact hm.setCoefficient index v value
  | addVariable cost coefficients => exact hm.addVariable cost coefficients
  | addConstraint coefficients relation rhs => exact hm.addConstraint (by simpa [inRange] using he) relation rhs

theorem represents_onForm (h : c.Represents m) (hm : m.Valid) (he : e.inRange m) :
    (e.onForm c).Represents (e.onModel m) := by
  cases e with
  | setCost v cost => exact h.setCost v cost
  | setRhs index rhs => exact h.setRhs index rhs
  | setCoefficient index v value => exact h.setCoefficient index v value
  | addVariable cost coefficients => exact h.addVariable hm (by simpa [inRange] using he) cost
  | addConstraint coefficients relation rhs => exact h.addConstraint (by simpa [inRange] using he) relation rhs

theorem represents_foldl (h : c.Represents m) (hm : m.Valid) (hedits : allInRange m edits) :
    (edits.foldl onForm c).Represents (edits.foldl onModel m) ∧ (edits.foldl onModel m).Valid := by
  induction edits generalizing c m with
  | nil => exact ⟨h, hm⟩
  | cons e rest ih =>
    obtain ⟨he, hrest⟩ := Bool.and_eq_true_iff.mp hedits
    exact ih (represents_onForm h hm he) (valid_onModel hm he) hrest

/-- After any sequence of edits, the canonical form of a model expresses the model with the same edits made. -/
theorem expresses_foldl {direction : Direction} {cost : List ℚ} {rows : List (List ℚ)} {relations : List Relation}
    {rhs : List ℚ} {domains : List VariableDomain}
    (hm : Model.ofData direction cost rows relations rhs domains = .ok m) (hedits : allInRange m edits) :
    (edits.foldl onForm (CanonicalForm.ofModel m)).Expresses (edits.foldl onModel m) := by
  have hvalid := Model.valid_of_ofData hm
  obtain ⟨hrep, hvalid'⟩ := represents_foldl (CanonicalForm.represents_ofModel hvalid) hvalid hedits
  exact hrep.expresses hvalid'

/-- Variables of all domains, and a constraint of each relation. -/
def fiveDomains : Model ℚ where
  direction := .minimize
  cost := [1, -2, 3, 1, 5]
  domains := [.nonnegative, .nonpositive, .free, .integer, .binary]
  constraints := [⟨[1, 1, 0, 2, 0], .equal, 3⟩, ⟨[0, 1, -1, 0, 1], .greater, -4⟩, ⟨[2, 0, 1, 0, 1], .less, 7⟩]

/-- Edits of all kinds. They reach an equality, a free variable, and what was added before. -/
def fiveKinds : List Edit :=
  [.setCost 2 4, .addVariable 6 [1, 0, -1], .addConstraint [0, 0, 1, 0, 1, 2] .equal 8, .setCoefficient 0 2 5,
    .setRhs 3 9, .setCoefficient 3 5 (-1)]

theorem expresses_foldl_fiveKinds :
    Model.ofData .minimize [1, -2, 3, 1, 5] [[1, 1, 0, 2, 0], [0, 1, -1, 0, 1], [2, 0, 1, 0, 1]]
      [.equal, .greater, .less] [3, -4, 7] [.nonnegative, .nonpositive, .free, .integer, .binary] = .ok fiveDomains ∧
    allInRange fiveDomains fiveKinds = true ∧
    (fiveKinds.foldl onForm (CanonicalForm.ofModel fiveDomains)).Expresses (fiveKinds.foldl onModel fiveDomains) := by
  have hm : Model.ofData .minimize [1, -2, 3, 1, 5] [[1, 1, 0, 2, 0], [0, 1, -1, 0, 1], [2, 0, 1, 0, 1]]
      [.equal, .greater, .less] [3, -4, 7] [.nonnegative, .nonpositive, .free, .integer, .binary] =
        .ok fiveDomains := by decide +kernel
  have hedits : allInRange fiveDomains fiveKinds = true := by decide
  exact ⟨hm, hedits, expresses_foldl hm hedits⟩

end Edit

end LinearProgramming
