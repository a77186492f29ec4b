import LinearProgramming.Proofs.CanonicalForm.Build
import LinearProgramming.Proofs.Simplex.Solve

/-! # Correctness of the relaxation

The linear program of a model is solved on its canonical form. What the last tableau shows about the nonnegative
solutions of the canonical form is carried back to the assignments of the model, for every outcome
(`Represents.verdict_solution`). It holds for any tableau that writes the canonical form in a basis, and so also for
runs that start elsewhere than at the slacks. -/

namespace LinearProgramming

namespace CanonicalForm.Represents

variable {c : CanonicalForm ℚ} {m : Model ℚ} {u : Tableau ℚ}

theorem objectiveValue_assignment (h : c.Represents m) (x : ℕ → ℚ) :
    m.objectiveValue (c.assignment x) = m.direction.sign * c.tableau.objectiveAt x := by
  rw [h.objectiveAt_eq, Direction.sign_mul_sign]

theorem objectiveValue_solution (h : c.Represents m) (hrew : c.tableau.Rewrites u) :
    (c.solution u u.basicSolution).objectiveValue = m.objectiveValue (c.solution u u.basicSolution).values := by
  have hunit := hrew.atBasis.unitAt
  have hobj := hrew.equivalent.objectiveAt_eq _ ((hrew.equivalent.satisfies_iff _).mp hunit.satisfies_basicSolution)
  rw [hunit.objectiveAt_basicSolution] at hobj
  show c.direction.sign * u.objectiveValue = m.objectiveValue (c.modelValues u.basicSolution)
  rw [modelValues_eq_assignment, h.objectiveValue_assignment, hobj, h.direction_eq]

/-- An end of the simplex methods at a tableau of the canonical form says the same about the model. -/
theorem verdict_solution (h : c.Represents m) (hm : m.Valid) (hrew : c.tableau.Rewrites u)
    {outcome : Outcome (List ℚ)} (hend : u.SolveEnd outcome) : m.Verdict (outcome.map (c.solution u)) := by
  have hverdict : c.tableau.Verdict outcome :=
    (Tableau.Verdict.of_solveEnd hrew.atBasis hend).of_equivalent hrew.equivalent
  cases outcome with
  | optimal values =>
    obtain ⟨rfl, -⟩ := hend
    obtain ⟨hfeas, hbest⟩ := hverdict
    have hobj := h.objectiveValue_solution hrew
    have hvalues : (c.solution u u.basicSolution).values = c.assignment (Tableau.ofList u.basicSolution) :=
      c.modelValues_eq_assignment _
    refine ⟨?_, hobj, fun y hy => ?_⟩
    · rw [hvalues]
      exact h.feasible_assignment hm hfeas
    · obtain ⟨x, hx, rfl⟩ := h.exists_feasible hm hy
      rw [hobj, hvalues, Direction.isBetter_iff, not_lt,
        ← h.objectiveAt_eq, ← h.objectiveAt_eq]
      exact hbest x hx
  | infeasible =>
    intro y hy
    obtain ⟨x, hx, -⟩ := h.exists_feasible hm hy
    exact hverdict x hx
  | unbounded =>
    intro bound
    obtain ⟨x, hx, hgt⟩ := hverdict (m.direction.sign * bound)
    refine ⟨c.assignment x, h.feasible_assignment hm hx, ?_⟩
    rw [Direction.isBetter_iff, ← h.objectiveAt_eq]
    exact hgt

end CanonicalForm.Represents

/-- Every outcome of a solved canonical form is one of the last tableau of its run. -/
theorem CanonicalForm.verdict_solve {c : CanonicalForm ℚ} {m : Model ℚ} (h : c.Represents m) (hm : m.Valid)
    {s : Session ℚ} (hs : s.tolerance = 0) {outcome : Outcome (Solution ℚ)} (hok : (c.solve s).1 = .ok outcome) :
    m.Verdict outcome := by
  have hs' : (s.record .initial c.tableau).tolerance = 0 := by rw [Session.tolerance_record, hs]
  unfold CanonicalForm.solve at hok
  cases hres : (c.tableau.solve (s.record .initial c.tableau)).result with
  | error e => simp [hres, Except.map] at hok
  | ok found =>
    simp only [hres, Except.map, Except.ok.injEq] at hok
    obtain rfl := hok
    exact h.verdict_solution hm (Tableau.startsAt_solve h.atBasis hs').rewrites
      (Tableau.solveEnd_solve h.atBasis hs' hres)

/-- Whatever the solver of the relaxation answers about a model is true in exact arithmetic: an optimum is feasible,
has the objective value that is given and cannot be improved, an infeasible model has no feasible assignment, and an
unbounded one has feasible assignments beyond every bound. -/
theorem Model.verdict_solveRelaxation {direction : Direction} {cost : List ℚ} {rows : List (List ℚ)}
    {relations : List Relation} {rhs : List ℚ} {domains : List VariableDomain} {m : Model ℚ}
    (hm : Model.ofData direction cost rows relations rhs domains = .ok m) (s : Session ℚ)
    (hs : s.settings.tolerances.general = 0) {outcome : Outcome (Solution ℚ)}
    (hok : (m.solveRelaxation s).1 = .ok outcome) : m.Verdict outcome :=
  CanonicalForm.verdict_solve (CanonicalForm.represents_ofModel (valid_of_ofData hm)) (valid_of_ofData hm) hs hok

/-- A model with all relations, and with variables of all signs. -/
def mixedModel : Model ℚ where
  direction := .minimize
  cost := [2, -1, 1]
  domains := [.nonnegative, .nonpositive, .free]
  constraints := [⟨[1, 0, 1], .greater, 2⟩, ⟨[1, -1, 0], .equal, 3⟩, ⟨[1, 0, 0], .less, 2⟩]

theorem Model.verdict_solveRelaxation_mixedModel :
    Model.ofData .minimize [2, -1, 1] [[1, 0, 1], [1, -1, 0], [1, 0, 0]] [.greater, .equal, .less] [2, 3, 2]
      [.nonnegative, .nonpositive, .free] = .ok mixedModel ∧
    ∃ solution, (mixedModel.solveRelaxation .exact).1 = .ok (.optimal solution) ∧
      solution.objectiveValue = 5 ∧ mixedModel.Verdict (.optimal solution) := by
  have hdata : Model.ofData .minimize [2, -1, 1] [[1, 0, 1], [1, -1, 0], [1, 0, 0]] [.greater, .equal, .less]
      [2, 3, 2] [.nonnegative, .nonpositive, .free] = .ok mixedModel := by decide +kernel
  have hvalue : (mixedModel.solveRelaxation .exact).1.map (·.map (·.objectiveValue)) = .ok (.optimal 5) := by
    decide +kernel
  refine ⟨hdata, ?_⟩
  cases hres : (mixedModel.solveRelaxation .exact).1 with
  | error e => simp [hres, Except.map] at hvalue
  | ok outcome =>
    have hverdict := verdict_solveRelaxation hdata .exact rfl hres
    rw [hres] at hvalue
    cases outcome with
    | infeasible => simp [Except.map, Outcome.map] at hvalue
    | unbounded => simp [Except.map, Outcome.map] at hvalue
    | optimal solution =>
      simp only [Except.map, Outcome.map, Except.ok.injEq, Outcome.optimal.injEq] at hvalue
      exact ⟨solution, rfl, hvalue, hverdict⟩

end LinearProgramming
