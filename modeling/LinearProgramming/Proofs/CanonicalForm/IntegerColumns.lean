import LinearProgramming.Proofs.CanonicalForm.Represents

/-! # Integer columns

`deriveIntegerColumns` marks columns row by row, and `MarksIntegers` says that a marked column has an integer value. A
mark stands on the column of an integer variable, or on the slack of a row over such columns (`Supports`). So the marks
are right in every solution whose integer variables have integer values, as long as data that passes for an integer is
one (`marksIntegers_deriveIntegerColumns`). The tableau takes this over from the data of the model
(`Represents.sharpData`). -/

namespace LinearProgramming

open Finset

variable {t : Tableau ℚ} {mask : List Bool} {x : ℕ → ℚ} {i j : ℕ}

/-- Data that passes for an integer is one. -/
structure Tableau.SharpData (t : Tableau ℚ) : Prop where
  rhs : ∀ i < t.nrRows, Scalar.isIntegral (t.rhs i) CanonicalForm.dataTolerance = true → t.rhs i ∈ Scalar.integers
  entry : ∀ i < t.nrRows, ∀ j < t.nrColumns, Scalar.isIntegral (t.entry i j) CanonicalForm.dataTolerance = true →
    t.entry i j ∈ Scalar.integers

namespace CanonicalForm

/-! ### Marks -/

def MarksIntegers (mask : List Bool) (x : ℕ → ℚ) : Prop := ∀ j, mask.getD j false = true → x j ∈ Scalar.integers

/-- The column is one of the integer variables. -/
def DirectColumn (placements : List Placement) (integers : List ℕ) (j : ℕ) : Prop :=
  ∃ v ∈ integers, placements[v]? = some (.direct j)

/-- By the data, the slack of the row is an integer: the right hand side passes for one, and so does every entry, which
stands in the column of an integer variable. -/
structure IntegerRow (t : Tableau ℚ) (placements : List Placement) (integers : List ℕ) (i : ℕ) : Prop where
  rhs : Scalar.isIntegral (t.rhs i) dataTolerance = true
  entry : ∀ j < t.nrColumns, j ∉ t.basis → t.entry i j ≠ 0 →
    Scalar.isIntegral (t.entry i j) dataTolerance = true ∧ DirectColumn placements integers j

/-- Each mark stands on the column of an integer variable or on the slack of an integer row. -/
def Supports (t : Tableau ℚ) (placements : List Placement) (integers : List ℕ) (mask : List Bool) : Prop :=
  ∀ j, mask.getD j false = true → DirectColumn placements integers j ∨
    ∃ i < t.nrRows, t.basis.getD i 0 = j ∧ IntegerRow t placements integers i

variable {placements : List Placement} {integers : List ℕ}

theorem Supports.set (h : Supports t placements integers mask) {b : Bool}
    (hb : b = true → DirectColumn placements integers j ∨
      ∃ i < t.nrRows, t.basis.getD i 0 = j ∧ IntegerRow t placements integers i) :
    Supports t placements integers (mask.set j b) := by
  intro k hk
  rw [List.getD_eq_getElem?_getD, List.getElem?_set] at hk
  split_ifs at hk with hjk hlt
  · subst hjk
    exact hb hk
  · cases hk
  · exact h k (by rwa [List.getD_eq_getElem?_getD])

/-- The marks on other slacks do not count, since these have no entry in the row. -/
theorem Supports.integerRow (hbasis : t.AtBasis) (hmask : Supports t placements integers mask) (hi : i < t.nrRows)
    (h : hasIntegerSlack t mask i (t.basis.getD i 0) = true) : IntegerRow t placements integers i := by
  rw [hasIntegerSlack, Bool.and_eq_true, List.all_eq_true] at h
  obtain ⟨hrhs, hrow⟩ := h
  refine ⟨hrhs, fun j hj hother hne => ?_⟩
  have hcell := hrow (t.entry i j, j)
    (List.mk_mem_zipIdx_iff_getElem?.mpr (hbasis.wellFormed.getElem?_row hi hj))
  simp only [Bool.or_eq_true, Bool.and_eq_true, beq_iff_eq] at hcell
  rcases hcell with (rfl | hzero) | ⟨hmarked, hintegral⟩
  · exact absurd (hbasis.unitAt.getD_mem hi) hother
  · exact absurd hzero hne
  · refine ⟨hintegral, (hmask j hmarked).resolve_right ?_⟩
    rintro ⟨k, hk, rfl, -⟩
    exact hother (hbasis.unitAt.getD_mem hk)

theorem supports_deriveIntegerColumns (hbasis : t.AtBasis) (placements : List Placement) (integers : List ℕ) :
    Supports t placements integers (deriveIntegerColumns t placements integers) := by
  refine List.foldlRecOn (motive := Supports t placements integers) _ _ ?_ fun mask hmask q hq => ?_
  · refine List.foldlRecOn (motive := Supports t placements integers) _ _ (fun j hj => ?_) fun mask hmask v hv => ?_
    · simp at hj
    · split
      · exact hmask.set fun _ => .inl ⟨v, hv, ‹_›⟩
      · exact hmask
  · have hget : t.basis[q.2]? = some q.1 := List.mem_zipIdx_iff_getElem?.mp hq
    have hi : q.2 < t.nrRows := by
      rw [← hbasis.wellFormed.basis_length]
      exact (List.getElem?_eq_some_iff.mp hget).1
    have hslack : t.basis.getD q.2 0 = q.1 := by rw [List.getD_eq_getElem?_getD, hget, Option.getD_some]
    refine hmask.set fun hmarked => .inr ⟨q.2, hi, hslack, ?_⟩
    rw [← hslack] at hmarked
    exact hmask.integerRow hbasis hi hmarked

/-- In its row, a slack is what integer variables leave of an integer. -/
theorem IntegerRow.slack_mem (h : IntegerRow t placements integers i) (hbasis : t.AtBasis) (hsharp : t.SharpData)
    (hx : t.Satisfies x) (hdirect : ∀ j, DirectColumn placements integers j → x j ∈ Scalar.integers)
    (hi : i < t.nrRows) : x (t.basis.getD i 0) ∈ Scalar.integers := by
  rw [(hbasis.unitAt.satisfies_iff x).mp hx i hi]
  refine sub_mem (hsharp.rhs i hi h.rhs) (sum_mem fun j hj => ?_)
  obtain ⟨hj, hother⟩ := Tableau.mem_others.mp hj
  by_cases hzero : t.entry i j = 0
  · rw [hzero, zero_mul]
    exact zero_mem _
  · obtain ⟨hintegral, hcolumn⟩ := h.entry j hj hother hzero
    exact mul_mem (hsharp.entry i hi j hj hintegral) (hdirect j hcolumn)

theorem Supports.marksIntegers (h : Supports t placements integers mask) (hbasis : t.AtBasis) (hsharp : t.SharpData)
    (hx : t.Satisfies x) (hdirect : ∀ j, DirectColumn placements integers j → x j ∈ Scalar.integers) :
    MarksIntegers mask x := by
  intro j hj
  obtain hcolumn | ⟨i, hi, rfl, hrow⟩ := h j hj
  · exact hdirect j hcolumn
  · exact hrow.slack_mem hbasis hsharp hx hdirect hi

theorem marksIntegers_deriveIntegerColumns (hbasis : t.AtBasis) (hsharp : t.SharpData) (hx : t.Satisfies x)
    (hdirect : ∀ v ∈ integers, ∀ j, placements[v]? = some (.direct j) → x j ∈ Scalar.integers) :
    MarksIntegers (deriveIntegerColumns t placements integers) x := by
  refine (supports_deriveIntegerColumns hbasis placements integers).marksIntegers hbasis hsharp hx ?_
  rintro j ⟨v, hv, hcolumn⟩
  exact hdirect v hv j hcolumn

theorem length_deriveIntegerColumns {α : Type} [Scalar α] (t : Tableau α) (placements : List Placement)
    (integers : List ℕ) :
    (deriveIntegerColumns t placements integers).length = t.nrColumns := by
  let fits : List Bool → Prop := fun mask => mask.length = t.nrColumns
  refine List.foldlRecOn (motive := fits) _ _ ?_ fun mask hmask q _ => ?_
  · refine List.foldlRecOn (motive := fits) _ _ (List.length_replicate ..) fun mask hmask v _ => ?_
    split
    · exact List.length_set.trans hmask
    · exact hmask
  · exact List.length_set.trans hmask

/-! ### Sharp data -/

/-- The value is an integer, or it does not pass for one. -/
def Sharp (a : ℚ) : Prop := a ∈ Scalar.integers ∨ ∀ z : ℤ, dataTolerance < |a - z|

namespace Sharp

variable {a σ : ℚ}

theorem mem_of_isIntegral (h : Sharp a) (hintegral : Scalar.isIntegral a dataTolerance = true) :
    a ∈ Scalar.integers := by
  refine h.resolve_right fun hfar => ?_
  obtain ⟨z, hz⟩ := Scalar.exists_int_round a
  rw [Scalar.isIntegral, decide_eq_true_iff, Scalar.abs_eq, hz] at hintegral
  exact absurd (hfar z) (not_lt.mpr hintegral)

/-- Fractions with small denominators stay away from the integers. -/
theorem of_den_lt (h : a.den < 10 ^ 9) : Sharp a := by
  by_cases hmem : a ∈ Scalar.integers
  · exact .inl hmem
  refine .inr fun z => ?_
  have hden : (0 : ℚ) < a.den := Nat.cast_pos.mpr a.den_pos
  have hscaled : (a - z) * a.den = ((a.num - z * a.den : ℤ) : ℚ) := by
    push_cast
    rw [sub_mul, Rat.mul_den_eq_num]
  have hne : a.num - z * a.den ≠ 0 := by
    intro hzero
    rw [hzero, Int.cast_zero, mul_eq_zero, sub_eq_zero] at hscaled
    exact hmem (Scalar.mem_integers.mpr ⟨z, hscaled.resolve_right hden.ne'⟩)
  have hone : (1 : ℚ) ≤ |a - z| * a.den := by
    rw [← abs_of_pos hden, ← abs_mul, hscaled, ← Int.cast_abs]
    exact_mod_cast Int.one_le_abs hne
  have hsmall : (dataTolerance : ℚ) * a.den < 1 := by
    have htol : (dataTolerance : ℚ) = 1 / 10 ^ 9 := by decide +kernel
    have hlt : (a.den : ℚ) < 10 ^ 9 := by exact_mod_cast h
    rw [htol]
    linarith
  exact lt_of_mul_lt_mul_right (hsmall.trans_le hone) hden.le

theorem neg (h : Sharp a) : Sharp (-a) := by
  refine h.imp neg_mem fun hfar z => ?_
  have hneg : -a - z = -(a - (-z : ℤ)) := by
    push_cast
    ring
  rw [hneg, abs_neg]
  exact hfar (-z)

theorem sign_mul (h : Sharp a) (hσ : σ = 1 ∨ σ = -1) : Sharp (σ * a) := by
  rcases hσ with rfl | rfl
  · rwa [one_mul]
  · rw [neg_one_mul]
    exact h.neg

end Sharp

end CanonicalForm

theorem RowSource.sign_eq (source : RowSource) : (source.sign : ℚ) = 1 ∨ (source.sign : ℚ) = -1 := by
  cases source with
  | constraint k half =>
    cases half with
    | greater => exact .inr rfl
    | equal => exact .inl rfl
    | less => exact .inl rfl
  | binaryBound v => exact .inl rfl

namespace Placement

theorem snd_eq {p : Placement} {r : ℕ × ℚ} (hr : r ∈ (p.columns : List (ℕ × ℚ))) : r.2 = 1 ∨ r.2 = -1 := by
  cases p with
  | direct j =>
    obtain rfl := List.mem_singleton.mp hr
    exact .inl rfl
  | negated j =>
    obtain rfl := List.mem_singleton.mp hr
    exact .inr rfl
  | split p n =>
    rcases List.mem_pair.mp hr with rfl | rfl
    · exact .inl rfl
    · exact .inr rfl

theorem exists_column (p : Placement) : ∃ r, r ∈ (p.columns : List (ℕ × ℚ)) := by
  cases p with
  | direct j => exact ⟨_, List.mem_cons_self⟩
  | negated j => exact ⟨_, List.mem_cons_self⟩
  | split p n => exact ⟨_, List.mem_cons_self⟩

theorem value_mem (p : Placement) (h : ∀ j ∈ p.indices, x j ∈ Scalar.integers) : p.value x ∈ Scalar.integers := by
  cases p with
  | direct j => exact h j (by simp [indices, columns])
  | negated j => exact neg_mem (h j (by simp [indices, columns]))
  | split p n => exact sub_mem (h p (by simp [indices, columns])) (h n (by simp [indices, columns]))

end Placement

open CanonicalForm

/-- The constraints have integer coefficients and right hand sides. -/
def Model.IntegerData (m : Model ℚ) : Prop :=
  ∀ c ∈ m.constraints, (∀ a ∈ c.coefficients, ∃ z : ℤ, a = z) ∧ ∃ z : ℤ, c.rhs = z

def Model.SharpData (m : Model ℚ) : Prop :=
  ∀ c ∈ m.constraints, (∀ a ∈ c.coefficients, Sharp a) ∧ Sharp c.rhs

theorem Model.IntegerData.sharpData {m : Model ℚ} (h : m.IntegerData) : m.SharpData := fun c hc =>
  ⟨fun a ha => .inl (Scalar.mem_integers.mpr ((h c hc).1 a ha)), .inl (Scalar.mem_integers.mpr (h c hc).2)⟩

namespace Model.SharpData

variable {m : Model ℚ} {source : RowSource}

theorem of_den_lt (h : ∀ c ∈ m.constraints, (∀ a ∈ c.coefficients, a.den < 10 ^ 9) ∧ c.rhs.den < 10 ^ 9) :
    m.SharpData :=
  fun c hc => ⟨fun a ha => Sharp.of_den_lt ((h c hc).1 a ha), Sharp.of_den_lt (h c hc).2⟩

theorem sourceCoefficients (h : m.SharpData) (hsource : m.HasSource source) :
    ∀ a ∈ m.sourceCoefficients source, Sharp a := by
  cases source with
  | constraint k half =>
    obtain ⟨c, hc, -⟩ := hsource
    simp only [Model.sourceCoefficients, hc, Option.map_some, Option.getD_some]
    exact (h c (List.mem_of_getElem? hc)).1
  | binaryBound v =>
    intro a ha
    rcases List.mem_or_eq_of_mem_set ha with ha | rfl
    · rw [List.eq_of_mem_replicate ha]
      exact .inl (zero_mem _)
    · exact .inl (one_mem _)

theorem sourceRhs (h : m.SharpData) (hsource : m.HasSource source) : Sharp (m.sourceRhs source) := by
  cases source with
  | constraint k half =>
    obtain ⟨c, hc, -⟩ := hsource
    simp only [Model.sourceRhs, hc, Option.map_some, Option.getD_some]
    exact (h c (List.mem_of_getElem? hc)).2
  | binaryBound v => exact .inl (one_mem _)

end Model.SharpData

namespace CanonicalForm.Represents

variable {c : CanonicalForm ℚ} {m : Model ℚ} (h : c.Represents m)
include h

/-- A column that is not a slack belongs to a variable. -/
theorem exists_column (hj : j < c.tableau.nrColumns) (hbasic : j ∉ c.tableau.basis) :
    ∃ v, ∃ hv : v < c.placements.length, ∃ r ∈ (c.placements[v].columns : List (ℕ × ℚ)), r.1 = j := by
  obtain ⟨p, hp, hjp⟩ := List.mem_flatMap.mp (h.mem_others_iff.mp (Tableau.mem_others.mpr ⟨hj, hbasic⟩))
  obtain ⟨r, hr, rfl⟩ := List.mem_map.mp hjp
  obtain ⟨v, hv, rfl⟩ := List.mem_iff_getElem.mp hp
  exact ⟨v, hv, r, hr, rfl⟩

theorem notMem_basis {v : ℕ} (hv : v < c.placements.length) (hj : j ∈ c.placements[v].indices) :
    j < c.tableau.nrColumns ∧ j ∉ c.tableau.basis :=
  Tableau.mem_others.mp (h.mem_others_iff.mpr (List.mem_flatMap.mpr ⟨_, List.getElem_mem hv, hj⟩))

/-- A column belongs to one variable only. -/
theorem direct_of_directColumn {v : ℕ} {integers : List ℕ} (hv : v < c.placements.length)
    (hj : j ∈ c.placements[v].indices) (hdirect : DirectColumn c.placements integers j) :
    v ∈ integers ∧ c.placements[v] = .direct j := by
  obtain ⟨w, hw, hget⟩ := hdirect
  obtain ⟨hlt, hplaced⟩ := List.getElem?_eq_some_iff.mp hget
  by_cases hvw : v = w
  · subst hvw
    exact ⟨hw, hplaced⟩
  · have hj' : j ∈ c.placements[w].indices := by
      rw [hplaced]
      exact List.mem_singleton_self _
    exact absurd hj' (h.notMem_indices hv hlt hvw hj)

/-- The entry is the coefficient of the variable, up to its sign. -/
theorem entry_column (hm : m.Valid) {source : RowSource} (hsource : c.rowSources[i]? = some source) {v : ℕ}
    (hv : v < c.placements.length) {r : ℕ × ℚ} (hr : r ∈ (c.placements[v].columns : List (ℕ × ℚ))) :
    ∃ hv' : v < (m.sourceCoefficients source).length,
      c.tableau.entry i r.1 = source.sign * (r.2 * (m.sourceCoefficients source)[v]) := by
  have hv' : v < (m.sourceCoefficients source).length := by
    rw [hm.length_sourceCoefficients ((h.hasSource_iff source).mp (List.mem_of_getElem? hsource)),
      ← h.length_placements]
    exact hv
  have hq : ((m.sourceCoefficients source)[v], c.placements[v]) ∈ (m.sourceCoefficients source).zip c.placements := by
    rw [List.mem_iff_getElem]
    exact ⟨v, by rw [List.length_zip]; omega, List.getElem_zip⟩
  exact ⟨hv', h.entry_eq i source hsource _ hq r hr⟩

theorem sharp_entry (hdata : m.SharpData) (hm : m.Valid) (hi : i < c.tableau.nrRows) (hj : j < c.tableau.nrColumns) :
    Sharp (c.tableau.entry i j) := by
  by_cases hbasic : j ∈ c.tableau.basis
  · rw [h.atBasis.unitAt.entry_of_mem hbasic hi]
    split_ifs
    · exact .inl (one_mem _)
    · exact .inl (zero_mem _)
  · obtain ⟨source, hget, hsource⟩ := h.exists_source hi
    obtain ⟨v, hv, r, hr, rfl⟩ := h.exists_column hj hbasic
    obtain ⟨hv', hentry⟩ := h.entry_column hm hget hv hr
    rw [hentry]
    exact ((hdata.sourceCoefficients hsource _ (List.getElem_mem hv')).sign_mul (Placement.snd_eq hr)).sign_mul
      source.sign_eq

theorem sharpData (hdata : m.SharpData) (hm : m.Valid) : c.tableau.SharpData := by
  refine ⟨fun i hi => ?_, fun i hi j hj => (h.sharp_entry hdata hm hi hj).mem_of_isIntegral⟩
  obtain ⟨source, hget, hsource⟩ := h.exists_source hi
  rw [h.rhs_eq i source hget]
  exact ((hdata.sourceRhs hsource).sign_mul source.sign_eq).mem_of_isIntegral

end CanonicalForm.Represents

end LinearProgramming
