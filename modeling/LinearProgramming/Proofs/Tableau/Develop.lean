import LinearProgramming.Proofs.Model.Meaning
import LinearProgramming.Proofs.Tableau.Extend
import LinearProgramming.Proofs.Tableau.Pivot

/-! # Tableaus under pivots and new constraints

`Tableau.Develops` relates a tableau to those that pivots and new constraints make of it, in any order. Each new
constraint brings slack columns, whose values are determined by those of the columns before them
(`Constraint.withSlacks`); a later constraint may have coefficients in them. `Tableau.Carries` is what all these steps
keep: the tableau is at a basis, its solutions are the solutions of the first tableau with the slacks appended, and the
objective function is that of the first tableau. So its nonnegative solutions, cut back to the columns of the first
tableau, are the nonnegative solutions there that satisfy all new constraints (`Tableau.solutions_of_develops`). -/

namespace LinearProgramming

variable {c : Constraint ℚ} {added : List (Constraint ℚ)} {x y : List ℚ}

/-! ### Slacks of constraints -/

namespace Constraint

/-- What a half of the constraint leaves to its right hand side. -/
def slack (c : Constraint ℚ) (x : List ℚ) (half : Relation) : ℚ :=
  half.sign * c.rhs - half.sign * Scalar.dot c.coefficients x

def appendSlacks (x : List ℚ) (c : Constraint ℚ) : List ℚ := x ++ c.relation.halves.map (c.slack x)

/-- Column values with the slacks of constraints appended, one constraint after the other. -/
def withSlacks (added : List (Constraint ℚ)) (x : List ℚ) : List ℚ := added.foldl appendSlacks x

theorem withSlacks_concat (added : List (Constraint ℚ)) (c : Constraint ℚ) (x : List ℚ) :
    withSlacks (added ++ [c]) x = appendSlacks (withSlacks added x) c :=
  List.foldl_concat ..

theorem exists_withSlacks_eq (added : List (Constraint ℚ)) (x : List ℚ) : ∃ y, withSlacks added x = x ++ y := by
  induction added generalizing x with
  | nil => exact ⟨[], (List.append_nil x).symm⟩
  | cons c rest ih =>
    obtain ⟨y, hy⟩ := ih (appendSlacks x c)
    refine ⟨c.relation.halves.map (c.slack x) ++ y, ?_⟩
    rw [← List.append_assoc]
    exact hy

theorem take_withSlacks (added : List (Constraint ℚ)) (x : List ℚ) : (withSlacks added x).take x.length = x := by
  obtain ⟨y, hy⟩ := exists_withSlacks_eq added x
  rw [hy, List.take_left]

theorem slack_append (hlen : c.coefficients.length ≤ x.length) (y : List ℚ) : c.slack (x ++ y) = c.slack x := by
  funext half
  rw [slack, Scalar.dot_append hlen, slack]

theorem isSatisfied_iff_slack (c : Constraint ℚ) (x : List ℚ) :
    c.isSatisfied x 0 = true ↔ ∀ a ∈ c.relation.halves.map (c.slack x), 0 ≤ a := by
  rw [isSatisfied_iff, List.forall_mem_map]
  exact forall₂_congr fun half _ => sub_nonneg.symm

theorem isSatisfied_append (hlen : c.coefficients.length ≤ x.length) (y : List ℚ) :
    c.isSatisfied (x ++ y) 0 = c.isSatisfied x 0 := by
  rw [Bool.eq_iff_iff, isSatisfied_iff_slack, isSatisfied_iff_slack, slack_append hlen]

theorem isSatisfied_withSlacks (hlen : c.coefficients.length ≤ x.length) (added : List (Constraint ℚ)) :
    c.isSatisfied (withSlacks added x) 0 = c.isSatisfied x 0 := by
  obtain ⟨y, hy⟩ := exists_withSlacks_eq added x
  rw [hy, isSatisfied_append hlen]

end Constraint

namespace Tableau

variable {t u : Tableau ℚ}

/-! ### Solutions as lists -/

theorem ofList_append_of_lt {j : ℕ} (hj : j < x.length) (y : List ℚ) : ofList (x ++ y) j = ofList x j :=
  List.getD_append _ _ _ _ hj

theorem feasible_ofList_iff (hlen : x.length = t.nrColumns) :
    t.Feasible (ofList x) ↔ t.Satisfies (ofList x) ∧ ∀ a ∈ x, 0 ≤ a := by
  have hnonneg : (∀ j < t.nrColumns, 0 ≤ ofList x j) ↔ ∀ a ∈ x, 0 ≤ a := by
    rw [← hlen, List.forall_mem_iff_getElem]
    refine forall₂_congr fun j hj => ?_
    rw [ofList, List.getD_eq_getElem _ _ hj]
  rw [← hnonneg]
  exact ⟨fun hx => ⟨hx.satisfies, hx.nonneg⟩, fun hx => ⟨hx.1, hx.2⟩⟩

/-! ### One constraint -/

section AddConstraint

variable {coefficients : List ℚ} {sign rhs : ℚ}

theorem AtBasis.satisfies_addInequality_append (h : t.AtBasis) (hlen : coefficients.length ≤ t.nrColumns)
    (hx : x.length = t.nrColumns) (a : ℚ) :
    (t.addInequality coefficients sign rhs).Satisfies (ofList (x ++ [a])) ↔
      t.Satisfies (ofList x) ∧ a = sign * rhs - sign * Scalar.dot coefficients x := by
  have hold : ∀ j < t.nrColumns, ofList (x ++ [a]) j = ofList x j :=
    fun j hj => ofList_append_of_lt (hx.symm ▸ hj) [a]
  have hlast : ofList (x ++ [a]) t.nrColumns = a := by
    rw [← hx]
    simp [ofList]
  have hsum : ∑ j ∈ Finset.range t.nrColumns, coefficients.getD j 0 * ofList (x ++ [a]) j =
      Scalar.dot coefficients x := by
    rw [Scalar.dot_eq_sum_range _ _ t.nrColumns (by rw [hx]; exact min_le_right _ _)]
    exact Finset.sum_congr rfl fun j hj => by rw [hold j (Finset.mem_range.mp hj)]; rfl
  rw [h.satisfies_addInequality hlen, satisfies_congr hold, hsum, hlast, eq_sub_iff_add_eq']

/-- The halves of a constraint bring their slacks and nothing else. -/
theorem AtBasis.satisfies_foldl_addInequality (h : t.AtBasis) (c : Constraint ℚ)
    (hlen : c.coefficients.length ≤ t.nrColumns) (halves : List Relation)
    (hy : y.length = t.nrColumns + halves.length) :
    (halves.foldl (fun t half => t.addInequality c.coefficients half.sign c.rhs) t).Satisfies (ofList y) ↔
      ∃ x : List ℚ, x.length = t.nrColumns ∧ t.Satisfies (ofList x) ∧ y = x ++ halves.map (c.slack x) := by
  induction halves generalizing t y with
  | nil =>
    constructor
    · exact fun hsat => ⟨y, hy, hsat, (List.append_nil y).symm⟩
    · rintro ⟨x, -, hsat, rfl⟩
      rwa [List.map_nil, List.append_nil]
  | cons half rest ih =>
    have hcolumns : (t.addInequality c.coefficients half.sign c.rhs).nrColumns = t.nrColumns + 1 :=
      h.wellFormed.nrColumns_addInequality
    rw [List.foldl_cons, ih (h.addInequality hlen) (by omega) (by rw [hcolumns, hy, List.length_cons]; omega), hcolumns]
    constructor
    · rintro ⟨z, hz, hsat, rfl⟩
      -- the first slack is the last of the columns that the other halves find
      obtain rfl | ⟨x, a, rfl⟩ := List.eq_nil_or_concat z
      · simp at hz
      rw [List.concat_eq_append] at hz hsat ⊢
      have hx : x.length = t.nrColumns := by simpa using hz
      obtain ⟨hsat', ha⟩ := (h.satisfies_addInequality_append hlen hx a).mp hsat
      refine ⟨x, hx, hsat', ?_⟩
      rw [Constraint.slack_append (hx.symm ▸ hlen), List.append_assoc, ha]
      rfl
    · rintro ⟨x, hx, hsat, rfl⟩
      refine ⟨x ++ [c.slack x half], by simp [hx], ?_, ?_⟩
      · exact (h.satisfies_addInequality_append hlen hx _).mpr ⟨hsat, rfl⟩
      · rw [Constraint.slack_append (hx.symm ▸ hlen), List.append_assoc]
        rfl

theorem AtBasis.addConstraint_shape (h : t.AtBasis) (c : Constraint ℚ) (hlen : c.coefficients.length ≤ t.nrColumns) :
    (t.addConstraint c.coefficients c.relation c.rhs).AtBasis ∧
      (t.addConstraint c.coefficients c.relation c.rhs).nrColumns = t.nrColumns + c.relation.halves.length ∧
      (∀ z, (t.addConstraint c.coefficients c.relation c.rhs).Satisfies z → t.Satisfies z) ∧
      ∀ z, (t.addConstraint c.coefficients c.relation c.rhs).objectiveAt z = t.objectiveAt z := by
  unfold Tableau.addConstraint
  generalize c.relation.halves = halves
  induction halves generalizing t with
  | nil => exact ⟨h, rfl, fun _ hz => hz, fun _ => rfl⟩
  | cons half rest ih =>
    have hcolumns : (t.addInequality c.coefficients half.sign c.rhs).nrColumns = t.nrColumns + 1 :=
      h.wellFormed.nrColumns_addInequality
    have hnext : (t.addInequality c.coefficients half.sign c.rhs).AtBasis := h.addInequality hlen
    obtain ⟨hbasis, hrest, hsatisfies, hobjective⟩ := ih hnext (by omega)
    refine ⟨hbasis, ?_, fun z hz => ?_, fun z => ?_⟩
    · rw [List.foldl_cons, hrest, hcolumns, List.length_cons]
      omega
    · exact ((h.satisfies_addInequality hlen z).mp (hsatisfies z hz)).1
    · rw [List.foldl_cons, hobjective, h.objectiveAt_addInequality]

end AddConstraint

/-! ### Sequences of steps -/

/-- Pivots on nonzero entries of columns that are not basic, and new constraints over the columns that are there, make
the second tableau of the first. The list has the constraints in the order in which they were added. -/
inductive Develops (t : Tableau ℚ) : List (Constraint ℚ) → Tableau ℚ → Prop
  | start : t.Develops [] t
  | pivot {added : List (Constraint ℚ)} {u : Tableau ℚ} {column row : ℕ} :
      t.Develops added u → column < u.nrColumns → row < u.nrRows → u.isBasic column = false →
      u.entry row column ≠ 0 → t.Develops added (u.pivot column row)
  | addConstraint {added : List (Constraint ℚ)} {u : Tableau ℚ} (c : Constraint ℚ) :
      t.Develops added u → c.coefficients.length ≤ u.nrColumns →
      t.Develops (added ++ [c]) (u.addConstraint c.coefficients c.relation c.rhs)

/-- The second tableau has the solutions of the first with the slacks of the constraints. -/
structure Carries (t : Tableau ℚ) (added : List (Constraint ℚ)) (u : Tableau ℚ) : Prop where
  atBasis : u.AtBasis
  coefficients_le : ∀ c ∈ added, c.coefficients.length ≤ u.nrColumns
  length_withSlacks : ∀ x : List ℚ, x.length = t.nrColumns → (Constraint.withSlacks added x).length = u.nrColumns
  satisfies_iff : ∀ y : List ℚ, y.length = u.nrColumns → (u.Satisfies (ofList y) ↔
    ∃ x : List ℚ, x.length = t.nrColumns ∧ t.Satisfies (ofList x) ∧ y = Constraint.withSlacks added x)
  nonneg_iff : ∀ x : List ℚ, x.length = t.nrColumns → ((∀ a ∈ Constraint.withSlacks added x, 0 ≤ a) ↔
    (∀ a ∈ x, 0 ≤ a) ∧ ∀ c ∈ added, c.isSatisfied (Constraint.withSlacks added x) 0 = true)
  objectiveAt_eq : ∀ z, u.Satisfies z → u.objectiveAt z = t.objectiveAt z

namespace Carries

theorem start (h : t.AtBasis) : t.Carries [] t where
  atBasis := h
  coefficients_le := by simp
  length_withSlacks x hx := hx
  satisfies_iff y hy := ⟨fun hsat => ⟨y, hy, hsat, rfl⟩, fun ⟨_, _, hsat, heq⟩ => heq ▸ hsat⟩
  nonneg_iff x hx := by simp [Constraint.withSlacks]
  objectiveAt_eq z hz := rfl

theorem rewrites {v : Tableau ℚ} (h : t.Carries added u) (hrew : u.Rewrites v) : t.Carries added v where
  atBasis := hrew.atBasis
  coefficients_le c hc := hrew.equivalent.nrColumns_eq.symm ▸ h.coefficients_le c hc
  length_withSlacks x hx := (h.length_withSlacks x hx).trans hrew.equivalent.nrColumns_eq.symm
  satisfies_iff y hy := by
    rw [hrew.equivalent.satisfies_iff]
    exact h.satisfies_iff y (hy.trans hrew.equivalent.nrColumns_eq)
  nonneg_iff := h.nonneg_iff
  objectiveAt_eq z hz := by
    have hz' := (hrew.equivalent.satisfies_iff z).mp hz
    exact (hrew.equivalent.objectiveAt_eq z hz').trans (h.objectiveAt_eq z hz')

theorem addConstraint (h : t.Carries added u) (c : Constraint ℚ) (hlen : c.coefficients.length ≤ u.nrColumns) :
    t.Carries (added ++ [c]) (u.addConstraint c.coefficients c.relation c.rhs) := by
  obtain ⟨hbasis, hcolumns, hsatisfies, hobjective⟩ := h.atBasis.addConstraint_shape c hlen
  have hold : ∀ x : List ℚ, x.length = t.nrColumns → ∀ c' ∈ added,
      c'.isSatisfied (Constraint.appendSlacks (Constraint.withSlacks added x) c) 0 =
        c'.isSatisfied (Constraint.withSlacks added x) 0 := by
    intro x hx c' hc'
    refine Constraint.isSatisfied_append ?_ _
    rw [h.length_withSlacks x hx]
    exact h.coefficients_le c' hc'
  refine ⟨hbasis, fun c' hc' => ?_, fun x hx => ?_, fun y hy => ?_, fun x hx => ?_, fun z hz => ?_⟩
  · rw [hcolumns]
    rcases List.mem_append.mp hc' with hc' | hc'
    · exact (h.coefficients_le c' hc').trans (Nat.le_add_right _ _)
    · rw [List.mem_singleton.mp hc']
      exact hlen.trans (Nat.le_add_right _ _)
  · rw [Constraint.withSlacks_concat, Constraint.appendSlacks, List.length_append, List.length_map,
      h.length_withSlacks x hx, hcolumns]
  · rw [hcolumns] at hy
    rw [Tableau.addConstraint, h.atBasis.satisfies_foldl_addInequality c hlen c.relation.halves hy]
    simp only [Constraint.withSlacks_concat]
    constructor
    · rintro ⟨z, hz, hsat, rfl⟩
      obtain ⟨x, hx, hsat', rfl⟩ := (h.satisfies_iff z hz).mp hsat
      exact ⟨x, hx, hsat', rfl⟩
    · rintro ⟨x, hx, hsat, rfl⟩
      have hz := h.length_withSlacks x hx
      exact ⟨_, hz, (h.satisfies_iff _ hz).mpr ⟨x, hx, hsat, rfl⟩, rfl⟩
  · have hself : c.isSatisfied (Constraint.appendSlacks (Constraint.withSlacks added x) c) 0 =
        c.isSatisfied (Constraint.withSlacks added x) 0 :=
      Constraint.isSatisfied_append (by rw [h.length_withSlacks x hx]; exact hlen) _
    simp only [Constraint.withSlacks_concat, List.forall_mem_append, List.forall_mem_singleton, hself]
    rw [Constraint.appendSlacks, List.forall_mem_append, ← Constraint.isSatisfied_iff_slack, h.nonneg_iff x hx,
      and_assoc]
    refine and_congr_right fun _ => and_congr_left fun _ => ?_
    exact forall₂_congr fun c' hc' => by rw [← hold x hx c' hc']; rfl
  · rw [hobjective]
    exact h.objectiveAt_eq z (hsatisfies z hz)

theorem feasible_iff (h : t.Carries added u) (hy : y.length = u.nrColumns) :
    u.Feasible (ofList y) ↔ ∃ x : List ℚ, x.length = t.nrColumns ∧ y = Constraint.withSlacks added x ∧
      t.Feasible (ofList x) ∧ ∀ c ∈ added, c.isSatisfied (Constraint.withSlacks added x) 0 = true := by
  rw [feasible_ofList_iff hy, h.satisfies_iff y hy]
  constructor
  · rintro ⟨⟨x, hx, hsat, rfl⟩, hnonneg⟩
    obtain ⟨hx', hadded⟩ := (h.nonneg_iff x hx).mp hnonneg
    exact ⟨x, hx, rfl, (feasible_ofList_iff hx).mpr ⟨hsat, hx'⟩, hadded⟩
  · rintro ⟨x, hx, rfl, hfeasible, hadded⟩
    obtain ⟨hsat, hx'⟩ := (feasible_ofList_iff hx).mp hfeasible
    exact ⟨⟨x, hx, hsat, rfl⟩, (h.nonneg_iff x hx).mpr ⟨hx', hadded⟩⟩

end Carries

theorem AtBasis.rewrites_pivot {column row : ℕ} (h : u.AtBasis) (hcol : column < u.nrColumns) (hrow : row < u.nrRows)
    (hnew : u.isBasic column = false) (hpivot : u.entry row column ≠ 0) : u.Rewrites (u.pivot column row) := by
  have hnew' : column ∉ u.basis := fun hmem => by
    rw [(h.wellFormed.mask_iff _).mpr hmem] at hnew
    cases hnew
  exact ⟨h.pivot hrow hcol hnew' hpivot, h.equivalent_pivot hrow hcol hpivot⟩

theorem carries_of_develops (ht : t.AtBasis) (h : t.Develops added u) : t.Carries added u := by
  induction h with
  | start => exact .start ht
  | pivot _ hcol hrow hnew hpivot ih => exact ih.rewrites (ih.atBasis.rewrites_pivot hcol hrow hnew hpivot)
  | addConstraint c _ hlen ih => exact ih.addConstraint c hlen

/-- Without new constraints there are only pivots. -/
theorem Develops.rewrites (ht : t.AtBasis) (h : t.Develops [] u) : t.Rewrites u := by
  generalize hnil : ([] : List (Constraint ℚ)) = added at h
  induction h with
  | start => exact .refl ht
  | pivot _ hcol hrow hnew hpivot ih =>
    have hsofar := ih hnil
    exact hsofar.trans (hsofar.atBasis.rewrites_pivot hcol hrow hnew hpivot)
  | addConstraint c _ _ _ => simp at hnil

theorem solutions_of_develops (hwf : t.WellFormed) (hunit : t.hasUnitBasis 0 = true) (h : t.Develops added u) :
    u.WellFormed ∧ u.hasUnitBasis 0 = true ∧
    (∀ x : List ℚ, x.length = t.nrColumns →
      ((∃ y : List ℚ, y.length = u.nrColumns ∧ y.take t.nrColumns = x ∧ u.Feasible (ofList y)) ↔
        t.Feasible (ofList x) ∧ ∀ c ∈ added, c.isSatisfied (Constraint.withSlacks added x) 0 = true)) ∧
    (∀ x : List ℚ, x.length = t.nrColumns → ∀ c ∈ added, c.coefficients.length ≤ t.nrColumns →
      c.isSatisfied (Constraint.withSlacks added x) 0 = c.isSatisfied x 0) ∧
    ∀ y : List ℚ, y.length = u.nrColumns → u.Feasible (ofList y) →
      u.objectiveAt (ofList y) = t.objectiveAt (ofList (y.take t.nrColumns)) := by
  have hcarries : t.Carries added u := carries_of_develops ⟨hwf, hwf.unitAt_of_hasUnitBasis hunit⟩ h
  refine ⟨hcarries.atBasis.wellFormed, hasUnitBasis_of_unitAt hcarries.atBasis.unitAt, fun x hx => ⟨?_, ?_⟩,
    fun x hx c _ hlen => Constraint.isSatisfied_withSlacks (hx.symm ▸ hlen) added, fun y hy hfeasible => ?_⟩
  · rintro ⟨y, hy, htake, hfeasible⟩
    obtain ⟨x', hx', rfl, hfeasible', hadded⟩ := (hcarries.feasible_iff hy).mp hfeasible
    rw [← hx', Constraint.take_withSlacks] at htake
    rw [← htake]
    exact ⟨hfeasible', hadded⟩
  · rintro ⟨hfeasible, hadded⟩
    have hy := hcarries.length_withSlacks x hx
    refine ⟨_, hy, ?_, (hcarries.feasible_iff hy).mpr ⟨x, hx, rfl, hfeasible, hadded⟩⟩
    rw [← hx, Constraint.take_withSlacks]
  · obtain ⟨x, hx, rfl, -, -⟩ := (hcarries.feasible_iff hy).mp hfeasible
    obtain ⟨slacks, hslacks⟩ := Constraint.exists_withSlacks_eq added x
    rw [hcarries.objectiveAt_eq _ hfeasible.satisfies, ← hx, Constraint.take_withSlacks, hslacks, objectiveAt,
      objectiveAt]
    refine congrArg _ (Finset.sum_congr rfl fun j hj => ?_)
    rw [ofList_append_of_lt (hx.symm ▸ Finset.mem_range.mp hj)]

def twoRowTableau : Tableau ℚ :=
  ofMatrix (RowMatrix.ofRows [[-1, -2, 0, 0, 0], [1, 1, 1, 0, 4], [1, 3, 0, 1, 6]]) [2, 3]

/-- An equality that binds a slack column, and a bound that has a coefficient in the first slack of the equality. -/
def chainedConstraints : List (Constraint ℚ) := [⟨[1, 0, 1], .equal, 3⟩, ⟨[1, 0, 0, 0, 1], .less, 2⟩]

def developedTableau : Tableau ℚ :=
  ((((twoRowTableau.pivot 1 1).addConstraint [1, 0, 1] .equal 3).pivot 0 2).addConstraint [1, 0, 0, 0, 1] .less 2)

-- The first point is kept. The second one satisfies the rows and the equality, and the bound cuts it off.
theorem solutions_of_develops_twoRowTableau :
    twoRowTableau.WellFormed ∧ twoRowTableau.hasUnitBasis 0 = true ∧
    twoRowTableau.Develops chainedConstraints developedTableau ∧ developedTableau.hasUnitBasis 0 = true ∧
    (∃ y : List ℚ, y.length = 7 ∧ y.take 4 = [1, 1, 2, 2] ∧ developedTableau.Feasible (ofList y)) ∧
    (¬ ∃ y : List ℚ, y.length = 7 ∧ y.take 4 = [3, 1, 0, 0] ∧ developedTableau.Feasible (ofList y)) ∧
    ∀ y : List ℚ, y.length = 7 → developedTableau.Feasible (ofList y) →
      developedTableau.objectiveAt (ofList y) = twoRowTableau.objectiveAt (ofList (y.take 4)) := by
  have hwf : twoRowTableau.WellFormed :=
    wellFormed_ofMatrix (by simp [RowMatrix.IsRectangular, RowMatrix.ofRows]) (by decide) (by decide) (by decide)
      (by decide) (by decide)
  have hunit : twoRowTableau.hasUnitBasis 0 = true := by decide +kernel
  have hpivot : twoRowTableau.Develops [] (twoRowTableau.pivot 1 1) :=
    .pivot .start (by decide +kernel) (by decide +kernel) (by decide +kernel) (by decide +kernel)
  have hequal := hpivot.addConstraint ⟨[1, 0, 1], .equal, 3⟩ (by decide +kernel)
  have hsecond : twoRowTableau.Develops [⟨[1, 0, 1], .equal, 3⟩]
      (((twoRowTableau.pivot 1 1).addConstraint [1, 0, 1] .equal 3).pivot 0 2) :=
    hequal.pivot (by decide +kernel) (by decide +kernel) (by decide +kernel) (by decide +kernel)
  have hdev : twoRowTableau.Develops chainedConstraints developedTableau :=
    hsecond.addConstraint ⟨[1, 0, 0, 0, 1], .less, 2⟩ (by decide +kernel)
  obtain ⟨-, hunit', hsolutions, -, hobjective⟩ := solutions_of_develops hwf hunit hdev
  have hcolumns : developedTableau.nrColumns = 7 := by decide +kernel
  rw [hcolumns] at hsolutions hobjective
  refine ⟨hwf, hunit, hdev, hunit', (hsolutions [1, 1, 2, 2] rfl).mpr ⟨?_, by decide +kernel⟩, fun hcut => ?_,
    hobjective⟩
  · exact (feasible_ofList_iff rfl).mpr ⟨by unfold Satisfies; decide +kernel, by decide +kernel⟩
  · exact absurd ((hsolutions [3, 1, 0, 0] rfl).mp hcut).2 (by decide +kernel)

end Tableau

end LinearProgramming
