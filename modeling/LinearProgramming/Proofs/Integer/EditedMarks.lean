import LinearProgramming.Proofs.CanonicalForm.EditSequence
import LinearProgramming.Proofs.Integer.CuttingPlane

/-! # Marks after edits

A canonical form carries the marks of its integer columns along. They are derived when the form is built, and an edit
only adds marks for new columns, so they can be out of date: `Edit.not_integerAt_wholeModel` makes a right hand side
fractional, and cutting planes then miss a solution.

In terms of the model, a mark on a slack means that the inequality of its row has integer data in integer variables only
(`Model.IntegerSource`). Edits of the costs and new constraints never change that, and `Edit.keepsMarks` tells for the
other edits. As long as all edits keep the marks, the marks are right, and marks that are derived anew always are
(`Edit.integerAt_foldl`). -/

namespace LinearProgramming

open CanonicalForm

variable {c c' : CanonicalForm ℚ} {m : Model ℚ} {source : RowSource} {integers : List ℕ} {x : ℕ → ℚ} {i j : ℕ}

/-! ### Inequalities with integer data -/

/-- The right hand side is an integer, and only integer variables take part, with integer coefficients. -/
structure Model.IntegerSource (m : Model ℚ) (integers : List ℕ) (source : RowSource) : Prop where
  rhs : m.sourceRhs source ∈ Scalar.integers
  coefficient : ∀ v a, (m.sourceCoefficients source)[v]? = some a → a = 0 ∨ a ∈ Scalar.integers ∧ v ∈ integers

theorem Model.IntegerSource.congr {m' : Model ℚ} (h : m.IntegerSource integers source)
    (hrhs : m'.sourceRhs source = m.sourceRhs source)
    (hcoefficients : m'.sourceCoefficients source = m.sourceCoefficients source) : m'.IntegerSource integers source :=
  ⟨hrhs.symm ▸ h.rhs, hcoefficients.symm ▸ h.coefficient⟩

theorem mem_integers_of_sign_mul {σ a : ℚ} (hσ : σ = 1 ∨ σ = -1) (h : σ * a ∈ Scalar.integers) :
    a ∈ Scalar.integers := by
  rcases hσ with rfl | rfl
  · rwa [one_mul] at h
  · rw [neg_one_mul] at h
    exact neg_mem_iff.mp h

theorem mem_integers_of_isInt {a : ℚ} (h : a.isInt = true) : a ∈ Scalar.integers :=
  Scalar.mem_integers.mpr ⟨a.num, ((Rat.den_eq_one_iff a).mp (beq_iff_eq.mp h)).symm⟩

namespace CanonicalForm.Represents

variable (h : c.Represents m) (hm : m.Valid)
include h hm

theorem integerSource (hdata : m.SharpData) (hsource : c.rowSources[i]? = some source)
    (hrow : IntegerRow c.tableau c.placements integers i) : m.IntegerSource integers source := by
  have hi := h.lt_nrRows hsource
  have hsharp := h.sharpData hdata hm
  refine ⟨?_, fun v a hget => ?_⟩
  · have hrhs := hsharp.rhs i hi hrow.rhs
    rw [h.rhs_eq i source hsource] at hrhs
    exact mem_integers_of_sign_mul source.sign_eq hrhs
  · by_cases hzero : a = 0
    · exact .inl hzero
    right
    obtain ⟨hlt, rfl⟩ := List.getElem?_eq_some_iff.mp hget
    have hv : v < c.placements.length := by
      rw [h.length_placements, ← hm.length_sourceCoefficients ((h.hasSource_iff _).mp (List.mem_of_getElem? hsource))]
      exact hlt
    obtain ⟨r, hr⟩ := c.placements[v].exists_column
    obtain ⟨_, hentry⟩ := h.entry_column hm hsource hv hr
    have hindex : r.1 ∈ c.placements[v].indices := List.mem_map_of_mem hr
    obtain ⟨hcolumn, hother⟩ := h.notMem_basis hv hindex
    have hne : c.tableau.entry i r.1 ≠ 0 := by
      rw [hentry]
      have hsign : (source.sign : ℚ) ≠ 0 := by rcases source.sign_eq with hσ | hσ <;> simp [hσ]
      have hfactor : r.2 ≠ 0 := by rcases Placement.snd_eq hr with hσ | hσ <;> simp [hσ]
      exact mul_ne_zero hsign (mul_ne_zero hfactor hzero)
    obtain ⟨hintegral, hdirect⟩ := hrow.entry r.1 hcolumn hother hne
    have hmem := hsharp.entry i hi r.1 hcolumn hintegral
    rw [hentry] at hmem
    exact ⟨mem_integers_of_sign_mul (Placement.snd_eq hr) (mem_integers_of_sign_mul source.sign_eq hmem),
      (h.direct_of_directColumn hv hindex hdirect).1⟩

theorem slack_mem (hsource : c.rowSources[i]? = some source) (hint : m.IntegerSource integers source)
    (hx : c.tableau.Satisfies x)
    (hvalue : ∀ v ∈ integers, ∀ p, c.placements[v]? = some p → ∀ k ∈ p.indices, x k ∈ Scalar.integers) :
    x (c.slackColumn i) ∈ Scalar.integers := by
  have hsign : (source.sign : ℚ) ∈ Scalar.integers := by
    rcases source.sign_eq with hσ | hσ
    · rw [hσ]
      exact one_mem _
    · rw [hσ]
      exact neg_mem (one_mem _)
  -- the slack is what the inequality leaves of its right hand side
  rw [slackColumn, (h.atBasis.unitAt.satisfies_iff x).mp hx i (h.lt_nrRows hsource), h.sum_row hm hsource,
    h.rhs_eq i source hsource]
  refine sub_mem (mul_mem hsign hint.rhs) (mul_mem hsign ?_)
  rw [Scalar.dot_eq_sum_range _ _ _ (min_le_left _ _)]
  refine sum_mem fun v hv => ?_
  have hv' := Finset.mem_range.mp hv
  rw [List.getD_eq_getElem _ _ hv']
  obtain hzero | ⟨hcoefficient, hmem⟩ := hint.coefficient v _ (List.getElem?_eq_getElem hv')
  · rw [hzero, zero_mul]
    exact zero_mem _
  · refine mul_mem hcoefficient ?_
    by_cases hlt : v < c.placements.length
    · rw [assignment, List.getD_eq_getElem _ _ (by rw [List.length_map]; exact hlt), List.getElem_map]
      exact Placement.value_mem _ (hvalue v hmem _ (List.getElem?_eq_getElem hlt))
    · rw [List.getD_eq_default _ _ (by rw [assignment, List.length_map]; omega)]
      exact zero_mem _

end CanonicalForm.Represents

/-! ### Marks that are up to date -/

namespace CanonicalForm

/-- In every nonnegative solution with integers in the columns of the integer variables, the column is an integer. -/
def IntegerAt (c : CanonicalForm ℚ) (j : ℕ) : Prop :=
  ∀ x, c.tableau.Feasible x →
    (∀ v ∈ c.integerVariables, ∀ p, c.placements[v]? = some p → ∀ k ∈ p.indices, ∃ z : ℤ, x k = z) →
    ∃ z : ℤ, x j = z

/-- Each mark stands on the column of an integer variable or on the slack of an inequality with integer data. -/
def UpToDate (c : CanonicalForm ℚ) (m : Model ℚ) : Prop :=
  ∀ j, c.integerColumns.getD j false = true → DirectColumn c.placements c.integerVariables j ∨
    ∃ i source, c.rowSources[i]? = some source ∧ c.slackColumn i = j ∧ m.IntegerSource c.integerVariables source

theorem integerAt_of_directColumn (h : DirectColumn c.placements c.integerVariables j) : c.IntegerAt j := by
  obtain ⟨v, hv, hplaced⟩ := h
  intro x _ hvalue
  exact hvalue v hv _ hplaced j (List.mem_singleton_self _)

theorem UpToDate.integerAt (hmarks : c.UpToDate m) (h : c.Represents m) (hm : m.Valid)
    (hj : c.integerColumns.getD j false = true) : c.IntegerAt j := by
  obtain hdirect | ⟨i, source, hsource, rfl, hint⟩ := hmarks j hj
  · exact integerAt_of_directColumn hdirect
  · intro x hx hvalue
    exact Scalar.mem_integers.mp (h.slack_mem hm hsource hint hx.satisfies fun v hv p hp k hk =>
      Scalar.mem_integers.mpr (hvalue v hv p hp k hk))

theorem Represents.integerAt_deriveIntegerColumns (h : c.Represents m) (hm : m.Valid) (hdata : m.SharpData)
    (hj : (deriveIntegerColumns c.tableau c.placements c.integerVariables).getD j false = true) : c.IntegerAt j := by
  intro x hx hvalue
  refine Scalar.mem_integers.mp (marksIntegers_deriveIntegerColumns h.atBasis (h.sharpData hdata hm) hx.satisfies
    (fun v hv k hplaced => ?_) j hj)
  exact Scalar.mem_integers.mpr (hvalue v hv _ hplaced k (List.mem_singleton_self _))

theorem upToDate_ofModel (hm : m.Valid) (hdata : m.SharpData) : (ofModel m).UpToDate m := by
  have hrep := represents_ofModel hm
  intro j hj
  obtain hdirect | ⟨i, hi, hslack, hrow⟩ := supports_deriveIntegerColumns hrep.atBasis _ _ j hj
  · exact .inl hdirect
  · obtain ⟨source, hsource, -⟩ := hrep.exists_source hi
    exact .inr ⟨i, source, hsource, hslack, hrep.integerSource hm hdata hsource hrow⟩

/-- The second form has the variables, rows and marks of the first one and may have others after them. -/
structure Continues (c c' : CanonicalForm ℚ) : Prop where
  integerVariables_eq : c'.integerVariables = c.integerVariables
  mask : ∀ j, c'.integerColumns.getD j false = true → c.integerColumns.getD j false = true
  placement : ∀ (v : ℕ) p, c.placements[v]? = some p → c'.placements[v]? = some p
  row : ∀ (i : ℕ) source, c.rowSources[i]? = some source →
    c'.rowSources[i]? = some source ∧ c'.slackColumn i = c.slackColumn i

theorem UpToDate.continues {m' : Model ℚ} (hmarks : c.UpToDate m) (h : c.Continues c')
    (hsources : ∀ i source, c.rowSources[i]? = some source → c.integerColumns.getD (c.slackColumn i) false = true →
      m.IntegerSource c.integerVariables source → m'.IntegerSource c.integerVariables source) : c'.UpToDate m' := by
  intro j hj
  rw [h.integerVariables_eq]
  have hold := h.mask j hj
  obtain ⟨v, hv, hplaced⟩ | ⟨i, source, hsource, rfl, hint⟩ := hmarks j hold
  · exact .inl ⟨v, hv, h.placement v _ hplaced⟩
  · obtain ⟨hsource', hslack⟩ := h.row i source hsource
    exact .inr ⟨i, source, hsource', hslack, hsources i source hsource hold hint⟩

def marksConstraint (c : CanonicalForm ℚ) (index : ℕ) : Bool :=
  (c.constraintRows index).any fun p => c.integerColumns.getD (c.slackColumn p.1) false

theorem marksConstraint_of_row {index : ℕ} {half : Relation}
    (hsource : c.rowSources[i]? = some (.constraint index half))
    (hmarked : c.integerColumns.getD (c.slackColumn i) false = true) : c.marksConstraint index = true :=
  List.any_eq_true.mpr ⟨(i, half.sign), mem_constraintRows.mpr ⟨half, hsource, rfl⟩, hmarked⟩

end CanonicalForm

/-! ### One edit -/

namespace Edit

variable {e : Edit} {edits : List Edit}

/-- Whether the marks of the form are still right after the edit: where a slack of the constraint is marked, a new right
hand side is an integer, a new coefficient is an integer of an integer variable, and a new variable does not take
part. -/
def keepsMarks (c : CanonicalForm ℚ) : Edit → Bool
  | setCost _ _ => true
  | setRhs index rhs => !c.marksConstraint index || rhs.isInt
  | setCoefficient index v value =>
    !c.marksConstraint index || value == 0 || value.isInt && c.integerVariables.contains v
  | addVariable _ coefficients =>
    (List.range c.nrConstraints).all fun index => !c.marksConstraint index || coefficients.getD index 0 == 0
  | addConstraint _ _ _ => true

/-- The coefficients and right hand sides that the edit brings. -/
def data : Edit → List ℚ
  | setCost _ _ => []
  | setRhs _ rhs => [rhs]
  | setCoefficient _ _ value => [value]
  | addVariable _ coefficients => coefficients
  | addConstraint coefficients _ rhs => rhs :: coefficients

theorem getD_of_append_false {mask marks : List Bool} (hmarks : ∀ b ∈ marks, b = false)
    (h : (mask ++ marks).getD j false = true) : mask.getD j false = true := by
  rw [List.getD_eq_getElem?_getD, List.getElem?_append] at h
  split_ifs at h with hj
  · rwa [List.getD_eq_getElem?_getD]
  · cases hget : marks[j - mask.length]? with
    | none => simp [hget] at h
    | some b => simp [hget, hmarks b (List.mem_of_getElem? hget)] at h

theorem continues_onForm (h : c.Represents m) (he : e.inRange m) : c.Continues (e.onForm c) := by
  cases e with
  | setCost v cost =>
    refine ⟨rfl, fun _ hj => hj, fun _ _ hp => hp, fun i source hsource => ⟨hsource, ?_⟩⟩
    simp only [onForm, slackColumn, tableau_setCost]
  | setRhs index rhs =>
    refine ⟨rfl, fun _ hj => hj, fun _ _ hp => hp, fun i source hsource => ⟨hsource, ?_⟩⟩
    simp only [onForm, slackColumn, tableau_setRhs]
  | setCoefficient index v value =>
    refine ⟨rfl, fun _ hj => hj, fun _ _ hp => hp, fun i source hsource => ⟨hsource, ?_⟩⟩
    simp only [onForm, slackColumn, tableau_setCoefficient]
  | addVariable cost coefficients =>
    refine ⟨rfl, fun j hj => getD_of_append_false (by simp) hj, fun v p hp => ?_,
      fun i source hsource => ⟨hsource, rfl⟩⟩
    exact (List.getElem?_append_left (List.getElem?_eq_some_iff.mp hp).1).trans hp
  | addConstraint coefficients relation rhs =>
    refine ⟨rfl, fun j hj => getD_of_append_false (by simp) hj, fun _ _ hp => hp, fun i source hsource => ⟨?_, ?_⟩⟩
    · exact (List.getElem?_append_left (List.getElem?_eq_some_iff.mp hsource).1).trans hsource
    · have hi : i < c.tableau.basis.length := by
        rw [h.atBasis.wellFormed.basis_length]
        exact h.lt_nrRows hsource
      have happ := h.appends_addConstraint (by simpa [inRange] using he) relation rhs
      rw [onForm, slackColumn, slackColumn, happ.basis_eq, List.getD_append _ _ _ _ hi]

theorem integerSource_onModel (hm : m.Valid) (he : e.inRange m) (hnr : c.nrConstraints = m.nrConstraints)
    (hkeeps : e.keepsMarks c = true) (hhas : m.HasSource source)
    (hmarked : ∀ index half, source = .constraint index half → c.marksConstraint index = true)
    (h : m.IntegerSource c.integerVariables source) : (e.onModel m).IntegerSource c.integerVariables source := by
  cases e with
  | setCost v cost => exact h.congr rfl (Model.sourceCoefficients_setCost ..)
  | setRhs index rhs =>
    by_cases hself : ∃ half, source = .constraint index half
    · obtain ⟨half, rfl⟩ := hself
      simp only [keepsMarks, hmarked index half rfl, Bool.not_true, Bool.false_or] at hkeeps
      refine ⟨?_, ?_⟩
      · rw [onModel, Model.sourceRhs_setRhs_self hhas]
        exact mem_integers_of_isInt hkeeps
      · rw [onModel, Model.sourceCoefficients_setRhs]
        exact h.coefficient
    · exact h.congr (Model.sourceRhs_setRhs_of_ne (fun half heq => hself ⟨half, heq⟩) rhs)
        (Model.sourceCoefficients_setRhs ..)
  | setCoefficient index v value =>
    by_cases hself : ∃ half, source = .constraint index half
    · obtain ⟨half, rfl⟩ := hself
      simp only [keepsMarks, hmarked index half rfl, Bool.not_true, Bool.false_or, Bool.or_eq_true, beq_iff_eq,
        Bool.and_eq_true, List.contains_iff_mem] at hkeeps
      refine ⟨?_, fun w a hget => ?_⟩
      · rw [onModel, Model.sourceRhs_setCoefficient]
        exact h.rhs
      · rw [onModel, Model.sourceCoefficients_setCoefficient_self v value hhas, List.getElem?_set] at hget
        split_ifs at hget with hvw hlt
        · obtain rfl := Option.some.inj hget
          subst hvw
          exact hkeeps.imp_right fun hkeeps => ⟨mem_integers_of_isInt hkeeps.1, hkeeps.2⟩
        · exact h.coefficient w a hget
    · exact h.congr (Model.sourceRhs_setCoefficient ..)
        (Model.sourceCoefficients_setCoefficient_of_ne v value fun half heq => hself ⟨half, heq⟩)
  | addVariable cost coefficients =>
    have hlen : coefficients.length = m.nrConstraints := by simpa [inRange] using he
    have hnew : Model.newCoefficient coefficients source = 0 := by
      cases source with
      | binaryBound v => rfl
      | constraint k half =>
        simp only [keepsMarks, List.all_eq_true, List.mem_range] at hkeeps
        have hk := hkeeps k (hnr ▸ hhas.lt)
        rw [hmarked k half rfl, Bool.not_true, Bool.false_or, beq_iff_eq] at hk
        exact hk
    refine ⟨?_, fun v a hget => ?_⟩
    · rw [onModel, Model.sourceRhs_addVariable hlen]
      exact h.rhs
    · rw [onModel, Model.sourceCoefficients_addVariable hlen cost hm hhas, hnew, List.getElem?_append] at hget
      split_ifs at hget with hv
      · exact h.coefficient v a hget
      · exact .inl (List.mem_singleton.mp (List.mem_of_getElem? hget))
  | addConstraint coefficients relation rhs =>
    exact h.congr (Model.sourceRhs_addConstraint _ _ _ hhas) (Model.sourceCoefficients_addConstraint _ _ _ hhas)

theorem upToDate_onForm (h : c.Represents m) (hm : m.Valid) (he : e.inRange m) (hkeeps : e.keepsMarks c = true)
    (hmarks : c.UpToDate m) : (e.onForm c).UpToDate (e.onModel m) := by
  refine hmarks.continues (continues_onForm h he) fun i source hsource hmarked hint => ?_
  have hhas := (h.hasSource_iff source).mp (List.mem_of_getElem? hsource)
  refine integerSource_onModel hm he h.nrConstraints_eq hkeeps hhas (fun index half heq => ?_) hint
  rw [heq] at hsource
  exact marksConstraint_of_row hsource hmarked

theorem sharpData_onModel (hdata : m.SharpData) (he : ∀ a ∈ e.data, Sharp a) : (e.onModel m).SharpData := by
  intro constraint hmem
  cases e with
  | setCost v cost => exact hdata constraint hmem
  | setRhs index rhs =>
    obtain ⟨k, hk⟩ := List.mem_iff_getElem?.mp hmem
    rw [onModel, Model.getElem?_setRhs, Option.map_eq_some_iff] at hk
    obtain ⟨old, hold, rfl⟩ := hk
    have hsharp := hdata old (List.mem_of_getElem? hold)
    split_ifs
    · exact ⟨hsharp.1, he rhs (List.mem_singleton_self _)⟩
    · exact hsharp
  | setCoefficient index v value =>
    obtain ⟨k, hk⟩ := List.mem_iff_getElem?.mp hmem
    rw [onModel, Model.getElem?_setCoefficient, Option.map_eq_some_iff] at hk
    obtain ⟨old, hold, rfl⟩ := hk
    have hsharp := hdata old (List.mem_of_getElem? hold)
    split_ifs
    · refine ⟨fun a ha => ?_, hsharp.2⟩
      rcases List.mem_or_eq_of_mem_set ha with ha | rfl
      · exact hsharp.1 a ha
      · exact he a (List.mem_singleton_self _)
    · exact hsharp
  | addVariable cost coefficients =>
    obtain ⟨k, hk, rfl⟩ := List.mem_iff_getElem.mp hmem
    simp only [onModel, Model.addVariable, List.length_zipWith, List.getElem_zipWith] at hk ⊢
    have hsharp := hdata m.constraints[k] (List.getElem_mem _)
    refine ⟨fun a ha => ?_, hsharp.2⟩
    rcases List.mem_append.mp ha with ha | ha
    · exact hsharp.1 a ha
    · rw [List.mem_singleton.mp ha]
      exact he _ (List.getElem_mem _)
  | addConstraint coefficients relation rhs =>
    rcases List.mem_append.mp hmem with hold | hnew
    · exact hdata constraint hold
    · rw [List.mem_singleton.mp hnew]
      exact ⟨fun a ha => he a (List.mem_cons_of_mem _ ha), he rhs List.mem_cons_self⟩

/-! ### Sequences of edits -/

/-- Each edit keeps the marks of the form that the edits before it leave. -/
def allKeepMarks (c : CanonicalForm ℚ) : List Edit → Bool
  | [] => true
  | e :: rest => e.keepsMarks c && allKeepMarks (e.onForm c) rest

theorem upToDate_foldl (h : c.Represents m) (hm : m.Valid) (hedits : allInRange m edits)
    (hkeep : allKeepMarks c edits = true) (hmarks : c.UpToDate m) :
    (edits.foldl onForm c).UpToDate (edits.foldl onModel m) := by
  induction edits generalizing c m with
  | nil => exact hmarks
  | cons e rest ih =>
    obtain ⟨he, hrest⟩ := Bool.and_eq_true_iff.mp hedits
    obtain ⟨hkeeps, hkeep⟩ := Bool.and_eq_true_iff.mp hkeep
    exact ih (represents_onForm h hm he) (valid_onModel hm he) hrest hkeep (upToDate_onForm h hm he hkeeps hmarks)

theorem sharpData_foldl (hdata : m.SharpData) (hsharp : ∀ e ∈ edits, ∀ a ∈ e.data, Sharp a) :
    (edits.foldl onModel m).SharpData := by
  induction edits generalizing m with
  | nil => exact hdata
  | cons e rest ih =>
    obtain ⟨he, hrest⟩ := List.forall_mem_cons.mp hsharp
    exact ih (sharpData_onModel hdata he) hrest

/-- In exact arithmetic, with sharp data in the model and in the edits, marks that are derived after the edits are
right. The marks that the form carries along are right too, if each edit keeps the marks of the form that it meets. -/
theorem integerAt_foldl {direction : Direction} {cost : List ℚ} {rows : List (List ℚ)} {relations : List Relation}
    {rhs : List ℚ} {domains : List VariableDomain}
    (hm : Model.ofData direction cost rows relations rhs domains = .ok m) (hdata : m.SharpData)
    (hedits : allInRange m edits) (hsharp : ∀ e ∈ edits, ∀ a ∈ e.data, Sharp a) :
    let c := edits.foldl onForm (ofModel m)
    (∀ j, (deriveIntegerColumns c.tableau c.placements c.integerVariables).getD j false = true → c.IntegerAt j) ∧
      (allKeepMarks (ofModel m) edits = true → ∀ j, c.integerColumns.getD j false = true → c.IntegerAt j) := by
  intro c
  have hvalid := Model.valid_of_ofData hm
  have hstart := represents_ofModel hvalid
  obtain ⟨hrep, hvalid'⟩ := represents_foldl hstart hvalid hedits
  refine ⟨fun j => hrep.integerAt_deriveIntegerColumns hvalid' (sharpData_foldl hdata hsharp), fun hkeep j => ?_⟩
  exact (upToDate_foldl hstart hvalid hedits hkeep (upToDate_ofModel hvalid hdata)).integerAt hrep hvalid'

/-- Two integer variables and a third one. The first constraint is over the integer variables only. -/
def partlyInteger : Model ℚ where
  direction := .maximize
  cost := [1, 1, 1]
  domains := [.integer, .binary, .nonnegative]
  constraints := [⟨[2, 1, 0], .equal, 7⟩, ⟨[1, 0, 1], .less, 5 / 2⟩]

/-- Edits of all kinds. Those of the first constraint have integer data. -/
def keepingEdits : List Edit :=
  [.setRhs 0 9, .setRhs 1 (7 / 2), .addVariable 1 [0, 1 / 2], .setCoefficient 0 1 (-3), .setCoefficient 1 0 (1 / 2),
    .addConstraint [1, 1, 1, 1] .less (9 / 2), .setCost 0 (1 / 3)]

theorem integerAt_foldl_keepingEdits :
    let c := keepingEdits.foldl onForm (ofModel partlyInteger)
    Model.ofData .maximize [1, 1, 1] [[2, 1, 0], [1, 0, 1]] [.equal, .less] [7, 5 / 2]
      [.integer, .binary, .nonnegative] = .ok partlyInteger ∧
    partlyInteger.SharpData ∧ allInRange partlyInteger keepingEdits = true ∧
    (∀ e ∈ keepingEdits, ∀ a ∈ e.data, Sharp a) ∧ allKeepMarks (ofModel partlyInteger) keepingEdits = true ∧
    c.integerColumns.getD 3 false = true ∧ c.IntegerAt 3 := by
  intro c
  have hm : Model.ofData .maximize [1, 1, 1] [[2, 1, 0], [1, 0, 1]] [.equal, .less] [7, 5 / 2]
      [.integer, .binary, .nonnegative] = .ok partlyInteger := by decide +kernel
  have hdata : partlyInteger.SharpData := .of_den_lt (by decide +kernel)
  have hedits : allInRange partlyInteger keepingEdits = true := by decide
  have hden : ∀ e ∈ keepingEdits, ∀ a ∈ e.data, a.den < 10 ^ 9 := by decide +kernel
  have hsharp : ∀ e ∈ keepingEdits, ∀ a ∈ e.data, Sharp a := fun e he a ha => .of_den_lt (hden e he a ha)
  have hkeep : allKeepMarks (ofModel partlyInteger) keepingEdits = true := by decide +kernel
  have hmarked : c.integerColumns.getD 3 false = true := by decide +kernel
  exact ⟨hm, hdata, hedits, hsharp, hkeep, hmarked, (integerAt_foldl hm hdata hedits hsharp).2 hkeep 3 hmarked⟩

/-- A single variable, bounded by an integer. -/
def wholeModel : Model ℚ where
  direction := .maximize
  cost := [1]
  domains := [.integer]
  constraints := [⟨[1], .less, 3⟩]

-- At one, the slack of the new bound is three halves, but the mark on it stays, so the cut from its row is wrong.
theorem not_integerAt_wholeModel :
    let edits := [Edit.setRhs 0 (5 / 2)]
    let c := edits.foldl onForm (ofModel wholeModel)
    Model.ofData .maximize [1] [[1]] [.less] [3] [.integer] = .ok wholeModel ∧ wholeModel.SharpData ∧
    allInRange wholeModel edits = true ∧ (∀ e ∈ edits, ∀ a ∈ e.data, Sharp a) ∧
    c.integerColumns.getD 1 false = true ∧ ¬c.IntegerAt 1 ∧
    (c.cuttingPlane .exact).1 = .ok ⟨.infeasible, 1⟩ ∧ (edits.foldl onModel wholeModel).PureIntegerFeasible [2] := by
  intro edits c
  have hdata : wholeModel.SharpData := .of_den_lt (by decide +kernel)
  have hsmall : ∀ e ∈ edits, ∀ a ∈ e.data, a.den < 10 ^ 9 := by decide +kernel
  have hslack : ¬c.IntegerAt 1 := by
    have hfeasible : c.tableau.Feasible (Tableau.ofList [1, 3 / 2]) :=
      ⟨by unfold Tableau.Satisfies; decide +kernel, by decide +kernel⟩
    have hplaced : ∀ v ∈ c.integerVariables, ∀ p, c.placements[v]? = some p → p = .direct 0 := by decide +kernel
    intro h
    obtain ⟨z, hz⟩ := h _ hfeasible fun v hv p hp k hk => by
      rw [hplaced v hv p hp] at hk
      rw [List.mem_singleton.mp hk]
      exact ⟨1, rfl⟩
    have hden : (3 / 2 : ℚ).den = 2 := by decide +kernel
    rw [show (3 / 2 : ℚ) = z from hz, Rat.den_intCast] at hden
    omega
  refine ⟨by decide +kernel, hdata, by decide, fun e he a ha => .of_den_lt (hsmall e he a ha), by decide +kernel,
    hslack, by decide +kernel, ⟨rfl, by decide +kernel⟩, fun v hv => ⟨2, ?_⟩⟩
  rw [show v = 0 from Nat.lt_one_iff.mp hv]
  rfl

end Edit

end LinearProgramming
