import LinearProgramming.Proofs.Scalar.Exact
import LinearProgramming.Solution

/-! # The meaning of a model

Models in exact arithmetic: which assignments are feasible, and what an outcome says about the linear program. An
assignment has one value per variable. Integrality plays no role here. -/

namespace LinearProgramming

namespace Model

variable {m : Model ℚ} {x : List ℚ}

section

variable {α : Type}

theorem length_of_firstMisfit_eq_none {width : ℕ} {rows : List (List α)} (h : firstMisfit width rows = none) :
    ∀ row ∈ rows, row.length = width := by
  intro row hrow
  rw [firstMisfit, Option.map_eq_none_iff, List.find?_eq_none] at h
  obtain ⟨i, hi⟩ := List.mem_iff_getElem?.mp hrow
  have hmem : (row, i) ∈ rows.zipIdx := List.mem_zipIdx_iff_getElem?.mpr hi
  simpa using h (row, i) hmem

variable [Scalar α]

/-- All that a model can be built from. -/
theorem ofData_eq_ok {direction : Direction} {cost : List α} {rows : List (List α)} {relations : List Relation}
    {rhs : List α} {domains : List VariableDomain} {m : Model α}
    (h : ofData direction cost rows relations rhs domains = .ok m) :
    cost ≠ [] ∧ (∀ row ∈ rows, row.length = cost.length) ∧ domains.length = cost.length ∧
      m = ⟨direction, cost, domains,
        List.zipWith (fun row (relation, b) => ⟨row, relation, b⟩) rows (relations.zip rhs)⟩ := by
  unfold ofData at h
  cases hmisfit : firstMisfit cost.length rows with
  | some p =>
    simp only [hmisfit] at h
    split_ifs at h
  | none =>
    simp only [hmisfit] at h
    split_ifs at h with hempty hrel hrhs hdom hfin
    exact ⟨fun hnil => hempty (List.isEmpty_iff.mpr hnil), length_of_firstMisfit_eq_none hmisfit, not_not.mp hdom,
      (Except.ok.inj h).symm⟩

/-- With any scalars, a model that is built has a domain for each variable. -/
theorem length_domains_of_ofData {direction : Direction} {cost : List α} {rows : List (List α)}
    {relations : List Relation} {rhs : List α} {domains : List VariableDomain} {m : Model α}
    (h : ofData direction cost rows relations rhs domains = .ok m) : m.domains.length = m.nrVariables := by
  obtain ⟨-, -, hdomains, rfl⟩ := ofData_eq_ok h
  exact hdomains

end

/-- What `Model.ofData` checks: there are variables, and the lengths of all parts agree with their number. -/
structure Valid (m : Model ℚ) : Prop where
  nrVariables_pos : 0 < m.nrVariables
  length_domains : m.domains.length = m.nrVariables
  length_coefficients : ∀ c ∈ m.constraints, c.coefficients.length = m.nrVariables

theorem valid_of_ofData {direction : Direction} {cost : List ℚ} {rows : List (List ℚ)}
    {relations : List Relation} {rhs : List ℚ} {domains : List VariableDomain}
    (h : ofData direction cost rows relations rhs domains = .ok m) : m.Valid := by
  have hdomains := length_domains_of_ofData h
  obtain ⟨hcost, hrows, -, rfl⟩ := ofData_eq_ok h
  refine ⟨List.length_pos_iff.mpr hcost, hdomains, fun c hc => ?_⟩
  obtain ⟨i, hi, rfl⟩ := List.mem_iff_getElem.mp hc
  rw [List.getElem_zipWith]
  exact hrows _ (List.getElem_mem _)

/-! ### Feasible assignments -/

/-- The assignment has one value per variable and satisfies all constraints and domains exactly. -/
def Feasible (m : Model ℚ) (x : List ℚ) : Prop := x.length = m.nrVariables ∧ m.isFeasible x 0 = true

/-- What an outcome says about the linear program of the model. -/
def Verdict (m : Model ℚ) : Outcome (Solution ℚ) → Prop
  | .optimal s => m.Feasible s.values ∧ s.objectiveValue = m.objectiveValue s.values ∧
      ∀ x, m.Feasible x → ¬m.direction.isBetter (m.objectiveValue x) s.objectiveValue 0
  | .infeasible => ∀ x, ¬m.Feasible x
  | .unbounded => ∀ bound, ∃ x, m.Feasible x ∧ m.direction.isBetter (m.objectiveValue x) bound 0

end Model

/-! ### Constraints as inequalities -/

theorem Direction.isBetter_iff (d : Direction) (a b : ℚ) :
    d.isBetter a b 0 = true ↔ d.sign * b < d.sign * a := by
  rw [Direction.isBetter, decide_eq_true_iff]
  constructor
  · intro h
    have h' : 0 < d.sign * (a - b) := h
    linarith [mul_sub d.sign a b]
  · intro h
    show 0 < d.sign * (a - b)
    linarith [mul_sub d.sign a b]

theorem Direction.sign_mul_sign (d : Direction) (a : ℚ) : d.sign * (d.sign * a) = a := by
  cases d with
  | maximize => exact (one_mul _).trans (one_mul a)
  | minimize => exact (neg_one_mul _).trans (neg_eq_iff_eq_neg.mpr (neg_one_mul a))

/-- A constraint is the conjunction of the upper bounds that its halves are turned into. -/
theorem Constraint.isSatisfied_iff (c : Constraint ℚ) (x : List ℚ) :
    c.isSatisfied x 0 = true ↔
      ∀ half ∈ c.relation.halves, half.sign * Scalar.dot c.coefficients x ≤ half.sign * c.rhs := by
  have hless : (Relation.less.sign : ℚ) = 1 := rfl
  have hgreater : (Relation.greater.sign : ℚ) = -1 := rfl
  unfold Constraint.isSatisfied
  cases c.relation with
  | less => simp [Relation.halves, hless]
  | greater => simp [Relation.halves, hgreater]
  | equal =>
    simp only [Relation.halves, List.mem_cons, List.not_mem_nil, or_false, forall_eq_or_imp, forall_eq, hless,
      hgreater, Scalar.abs_eq, decide_eq_true_iff, abs_nonpos_iff, sub_eq_zero]
    constructor
    · intro h
      rw [h]
      exact ⟨le_rfl, le_rfl⟩
    · rintro ⟨hle, hge⟩
      exact le_antisymm (by linarith) (by linarith)

theorem Model.isFeasible_iff {m : Model ℚ} {x : List ℚ} (hlen : x.length = m.domains.length) :
    m.isFeasible x 0 = true ↔
      (∀ c ∈ m.constraints, ∀ half ∈ c.relation.halves,
        half.sign * Scalar.dot c.coefficients x ≤ half.sign * c.rhs) ∧
      ∀ v < m.domains.length, (m.domains.getD v .free).contains (x.getD v 0) 0 = true := by
  rw [Model.isFeasible, Bool.and_eq_true, List.all_eq_true, List.all_eq_true]
  refine and_congr (forall₂_congr fun c _ => c.isSatisfied_iff x) ?_
  constructor
  · intro h v hv
    have hv' : v < x.length := hlen ▸ hv
    have hmem : (m.domains.getD v .free).contains (x.getD v 0) 0 ∈
        List.zipWith (fun (d : VariableDomain) y => d.contains y (0 : ℚ)) m.domains x := by
      refine List.mem_iff_getElem.mpr ⟨v, by rw [List.length_zipWith]; omega, ?_⟩
      rw [List.getElem_zipWith, List.getD_eq_getElem _ _ hv, List.getD_eq_getElem _ _ hv']
    exact h _ hmem
  · intro h b hb
    obtain ⟨v, hv, rfl⟩ := List.mem_iff_getElem.mp hb
    rw [List.length_zipWith] at hv
    have hdom : v < m.domains.length := by omega
    have hx : v < x.length := by omega
    have hcontains := h v hdom
    rw [List.getD_eq_getElem _ _ hdom, List.getD_eq_getElem _ _ hx] at hcontains
    rw [List.getElem_zipWith]
    exact hcontains

/-! ### Verdicts exclude each other -/

namespace Model.Verdict

variable {m : Model ℚ} {s s' : Solution ℚ}

theorem not_infeasible_of_optimal (h : m.Verdict (.optimal s)) : ¬m.Verdict .infeasible :=
  fun hinfeasible => hinfeasible s.values h.1

theorem not_infeasible_of_unbounded (h : m.Verdict .unbounded) : ¬m.Verdict .infeasible := by
  intro hinfeasible
  obtain ⟨x, hx, -⟩ := h 0
  exact hinfeasible x hx

theorem not_unbounded_of_optimal (h : m.Verdict (.optimal s)) : ¬m.Verdict .unbounded := by
  intro hunbounded
  obtain ⟨x, hx, hbetter⟩ := hunbounded s.objectiveValue
  exact h.2.2 x hx hbetter

theorem objectiveValue_eq (h : m.Verdict (.optimal s)) (h' : m.Verdict (.optimal s')) :
    s.objectiveValue = s'.objectiveValue := by
  have hle := h.2.2 s'.values h'.1
  have hge := h'.2.2 s.values h.1
  rw [Direction.isBetter_iff, not_lt, ← h'.2.1] at hle
  rw [Direction.isBetter_iff, not_lt, ← h.2.1] at hge
  rw [← m.direction.sign_mul_sign s.objectiveValue, le_antisymm hge hle, Direction.sign_mul_sign]

/-- Two verdicts on a model agree in status and objective value. -/
theorem map_objectiveValue_eq {o o' : Outcome (Solution ℚ)} (h : m.Verdict o) (h' : m.Verdict o') :
    o.map (·.objectiveValue) = o'.map (·.objectiveValue) := by
  cases o with
  | infeasible =>
    cases o' with
    | infeasible => rfl
    | unbounded => exact absurd h h'.not_infeasible_of_unbounded
    | optimal s' => exact absurd h h'.not_infeasible_of_optimal
  | unbounded =>
    cases o' with
    | infeasible => exact absurd h' h.not_infeasible_of_unbounded
    | unbounded => rfl
    | optimal s' => exact absurd h h'.not_unbounded_of_optimal
  | optimal s =>
    cases o' with
    | infeasible => exact absurd h' h.not_infeasible_of_optimal
    | unbounded => exact absurd h' h.not_unbounded_of_optimal
    | optimal s' => exact congrArg Outcome.optimal (h.objectiveValue_eq h')

end Model.Verdict

end LinearProgramming
