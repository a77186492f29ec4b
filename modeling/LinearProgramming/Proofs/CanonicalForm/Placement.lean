import LinearProgramming.Proofs.Tableau.Basis
import LinearProgramming.CanonicalForm.Basic

/-! # Placements

How columns represent the variables of a model, with column values given as a function on column indices. Data of
columns that comes from data of the variables is an inner product with the values of the variables (`sum_indices`), and
every choice of values that fits the placements comes from nonnegative columns (`exists_value_eq`). -/

namespace LinearProgramming

open Finset

namespace Placement

variable {x y : ℕ → ℚ}

def value (x : ℕ → ℚ) : Placement → ℚ
  | direct j => x j
  | negated j => -x j
  | split p n => x p - x n

theorem read_eq_value (values : List ℚ) (p : Placement) : p.read values = p.value (Tableau.ofList values) := by
  cases p <;> rfl

def indices (p : Placement) : List ℕ := (p.columns : List (ℕ × ℚ)).map (·.1)

theorem value_congr {p : Placement} (h : ∀ j ∈ p.indices, x j = y j) : p.value x = p.value y := by
  cases p with
  | direct j => exact h j (by simp [indices, columns])
  | negated j => exact congrArg Neg.neg (h j (by simp [indices, columns]))
  | split p n =>
    have hp := h p (by simp [indices, columns])
    have hn := h n (by simp [indices, columns])
    simp only [value, hp, hn]

theorem sum_columns (p : Placement) (x : ℕ → ℚ) :
    ((p.columns : List (ℕ × ℚ)).map fun q => q.2 * x q.1).sum = p.value x := by
  cases p with
  | direct j => simp [columns, value]
  | negated j => simp [columns, value]
  | split p n => simp [columns, value, sub_eq_add_neg]

/-- The placement is the one for variables of this domain. -/
def Fits : Placement → VariableDomain → Prop
  | direct _, d => d = .nonnegative ∨ d = .integer ∨ d = .binary
  | negated _, d => d = .nonpositive
  | split _ _, d => d = .free

/-- The values that nonnegative columns can represent. -/
def Admits (a : ℚ) : Placement → Prop
  | direct _ => 0 ≤ a
  | negated _ => a ≤ 0
  | split _ _ => True

theorem admits_value {p : Placement} (h : ∀ j ∈ p.indices, 0 ≤ x j) : p.Admits (p.value x) := by
  cases p with
  | direct j => exact h j (by simp [indices, columns])
  | negated j => exact neg_nonpos.mpr (h j (by simp [indices, columns]))
  | split p n => trivial

theorem contains_iff {p : Placement} {d : VariableDomain} (h : p.Fits d) (a : ℚ) :
    d.contains a 0 = true ↔ p.Admits a ∧ (d = .binary → a ≤ 1) := by
  cases p with
  | direct j =>
    rcases h with rfl | rfl | rfl
    all_goals simp [VariableDomain.contains, Admits]
  | negated j =>
    obtain rfl := h
    simp [VariableDomain.contains, Admits]
  | split p n =>
    obtain rfl := h
    simp [VariableDomain.contains, Admits]

/-- Data of columns that comes from data of the variables, times column values, is the inner product of the data with
the values of the variables. -/
theorem sum_indices (f x : ℕ → ℚ) (σ : ℚ) (placements : List Placement) (data : List ℚ)
    (hlen : data.length = placements.length)
    (hf : ∀ q ∈ data.zip placements, ∀ r ∈ (q.2.columns : List (ℕ × ℚ)), f r.1 = σ * (r.2 * q.1)) :
    ((placements.flatMap indices).map fun j => f j * x j).sum =
      σ * Scalar.dot data (placements.map (value x)) := by
  have hdot : ∀ xs ys : List ℚ, Scalar.dot xs ys = (List.zipWith (· * ·) xs ys).sum :=
    fun _ _ => Scalar.sum_eq _
  induction placements generalizing data with
  | nil => simp [hdot]
  | cons p rest ih =>
    cases data with
    | nil => simp at hlen
    | cons a data =>
      have hhead : ((indices p).map fun j => f j * x j).sum = σ * (a * p.value x) := by
        have hterm : ∀ r ∈ (p.columns : List (ℕ × ℚ)), f r.1 * x r.1 = σ * a * (r.2 * x r.1) := by
          intro r hr
          rw [hf (a, p) (by simp) r hr]
          ring
        rw [indices, List.map_map, ← sum_columns p x, ← mul_assoc, ← List.sum_map_mul_left]
        exact congrArg List.sum (List.map_congr_left hterm)
      have htail := ih data (by simpa using hlen) fun q hq => hf q (by simp [hq])
      rw [List.flatMap_cons, List.map_append, List.sum_append, hhead, htail, hdot, hdot]
      simp [mul_add]

/-- The columns of a variable can be given nonnegative values that represent a value of the variable. -/
theorem Admits.exists_update {p : Placement} {a : ℚ} (ha : p.Admits a) (hnodup : p.indices.Nodup)
    (hx : ∀ j, 0 ≤ x j) : ∃ y : ℕ → ℚ, p.value y = a ∧ (∀ j, j ∉ p.indices → y j = x j) ∧ ∀ j, 0 ≤ y j := by
  cases p with
  | direct k =>
    refine ⟨Function.update x k a, by simp [value], fun j hj => ?_, fun j => ?_⟩
    · exact Function.update_of_ne (by simpa [indices, columns] using hj) ..
    · rw [Function.update_apply]
      split_ifs
      · exact ha
      · exact hx j
  | negated k =>
    refine ⟨Function.update x k (-a), by simp [value], fun j hj => ?_, fun j => ?_⟩
    · exact Function.update_of_ne (by simpa [indices, columns] using hj) ..
    · rw [Function.update_apply]
      split_ifs
      · exact neg_nonneg.mpr ha
      · exact hx j
  | split k n =>
    -- the positive and the negative part of the value
    have hkn : k ≠ n := by simpa [indices, columns] using hnodup
    have hpart : max a 0 - max (-a) 0 = a := by
      rcases le_total a 0 with h | h
      · rw [max_eq_right h, max_eq_left (neg_nonneg.mpr h)]
        ring
      · rw [max_eq_left h, max_eq_right (neg_nonpos.mpr h)]
        ring
    refine ⟨Function.update (Function.update x n (max (-a) 0)) k (max a 0), ?_, fun j hj => ?_, fun j => ?_⟩
    · simp [value, Function.update_of_ne hkn.symm, hpart]
    · have hj' : j ≠ k ∧ j ≠ n := by simpa [indices, columns] using hj
      rw [Function.update_of_ne hj'.1, Function.update_of_ne hj'.2]
    · simp only [Function.update_apply]
      split_ifs
      · exact le_max_right ..
      · exact le_max_right ..
      · exact hx j

/-- Values that nonnegative columns can represent are represented by nonnegative columns. -/
theorem exists_value_eq (placements : List Placement) (values : List ℚ)
    (hnodup : (placements.flatMap indices).Nodup) (hlen : values.length = placements.length)
    (hadmits : ∀ q ∈ values.zip placements, q.2.Admits q.1) :
    ∃ x : ℕ → ℚ, placements.map (value x) = values ∧ ∀ j, 0 ≤ x j := by
  induction placements generalizing values with
  | nil =>
    refine ⟨fun _ => 0, ?_, fun _ => le_rfl⟩
    rw [List.length_nil, List.length_eq_zero_iff] at hlen
    rw [hlen, List.map_nil]
  | cons p rest ih =>
    cases values with
    | nil => simp at hlen
    | cons a values =>
      rw [List.flatMap_cons, List.nodup_append] at hnodup
      obtain ⟨hself, hrest, hdisj⟩ := hnodup
      obtain ⟨x, hx, hnonneg⟩ := ih values hrest (by simpa using hlen) fun q hq => hadmits q (by simp [hq])
      have ha : p.Admits a := hadmits (a, p) (by simp)
      obtain ⟨y, hy, hsame, hy'⟩ := ha.exists_update hself hnonneg
      -- the columns of `p` occur in no other placement, so giving them values changes nothing else
      have hstay : rest.map (value y) = values := by
        rw [← hx]
        refine List.map_congr_left fun q hq => value_congr fun j hj => hsame j fun hjp => ?_
        exact hdisj j hjp j (List.mem_flatMap.mpr ⟨q, hq, hj⟩) rfl
      exact ⟨y, by rw [List.map_cons, hy, hstay], hy'⟩

/-! ### Writing data into a row -/

theorem length_write {α : Type} [Scalar α] (row : List α) (a : α) (p : Placement) :
    (p.write row a).length = row.length := by
  cases p <;> simp [write]

theorem getD_write (row : List ℚ) (a : ℚ) {p : Placement} (hnodup : p.indices.Nodup)
    (hlt : ∀ j ∈ p.indices, j < row.length) :
    ∀ r ∈ (p.columns : List (ℕ × ℚ)), (p.write row a).getD r.1 0 = r.2 * a := by
  cases p with
  | direct k =>
    have hk : k < row.length := hlt k (by simp [indices, columns])
    simp [columns, write, hk]
  | negated k =>
    have hk : k < row.length := hlt k (by simp [indices, columns])
    simp [columns, write, hk]
  | split k n =>
    have hk : k < row.length := hlt k (by simp [indices, columns])
    have hn : n < row.length := hlt n (by simp [indices, columns])
    have hkn : k ≠ n := by simpa [indices, columns] using hnodup
    simp [columns, write, hk, hn, List.getElem_set_ne hkn.symm]

theorem getD_write_of_notMem (row : List ℚ) (a : ℚ) {p : Placement} {j : ℕ} (hj : j ∉ p.indices) :
    (p.write row a).getD j 0 = row.getD j 0 := by
  cases p with
  | direct k =>
    have hk : k ≠ j := by simpa [indices, columns, eq_comm] using hj
    simp [write, List.getElem?_set_ne hk]
  | negated k =>
    have hk : k ≠ j := by simpa [indices, columns, eq_comm] using hj
    simp [write, List.getElem?_set_ne hk]
  | split k n =>
    have hkn : k ≠ j ∧ n ≠ j := by simpa [indices, columns, eq_comm] using hj
    simp [write, List.getElem?_set_ne hkn.1, List.getElem?_set_ne hkn.2]

/-- Writing data for several placements that share no column. -/
theorem getD_foldl_write (pairs : List (ℚ × Placement)) (row : List ℚ)
    (hnodup : (pairs.flatMap fun q => q.2.indices).Nodup)
    (hlt : ∀ j ∈ pairs.flatMap fun q => q.2.indices, j < row.length) :
    (∀ q ∈ pairs, ∀ r ∈ (q.2.columns : List (ℕ × ℚ)),
      (pairs.foldl (fun row q => q.2.write row q.1) row).getD r.1 0 = r.2 * q.1) ∧
    ∀ j, j ∉ (pairs.flatMap fun q => q.2.indices) →
      (pairs.foldl (fun row q => q.2.write row q.1) row).getD j 0 = row.getD j 0 := by
  induction pairs generalizing row with
  | nil => simp
  | cons p rest ih =>
    rw [List.flatMap_cons, List.nodup_append] at hnodup
    obtain ⟨hself, hrest, hdisj⟩ := hnodup
    have hlt' : ∀ j ∈ rest.flatMap fun q => q.2.indices, j < (p.2.write row p.1).length := by
      intro j hj
      rw [length_write]
      exact hlt j (by rw [List.flatMap_cons]; exact List.mem_append_right _ hj)
    have hhead : ∀ j ∈ p.2.indices, j < row.length :=
      fun j hj => hlt j (by rw [List.flatMap_cons]; exact List.mem_append_left _ hj)
    obtain ⟨hwritten, hkept⟩ := ih (p.2.write row p.1) hrest hlt'
    refine ⟨fun q hq r hr => ?_, fun j hj => ?_⟩
    · rcases List.mem_cons.mp hq with rfl | hq
      · have hmem : r.1 ∈ q.2.indices := List.mem_map.mpr ⟨r, hr, rfl⟩
        rw [List.foldl_cons, hkept r.1 fun hr' => hdisj r.1 hmem r.1 hr' rfl]
        exact getD_write row q.1 hself hhead r hr
      · exact hwritten q hq r hr
    · rw [List.flatMap_cons, List.mem_append, not_or] at hj
      rw [List.foldl_cons, hkept j hj.2, getD_write_of_notMem row p.1 hj.1]

theorem length_foldl_write {α : Type} [Scalar α] (pairs : List (α × Placement)) (row : List α) :
    (pairs.foldl (fun row q => q.2.write row q.1) row).length = row.length := by
  induction pairs generalizing row with
  | nil => rfl
  | cons p rest ih => rw [List.foldl_cons, ih, length_write]

section Spread

variable {placements : List Placement} {width : ℕ} {data : List ℚ}

@[simp] theorem length_spread {α : Type} [Scalar α] (placements : List Placement) (width : ℕ) (data : List α) :
    (spread placements width data).length = width :=
  (length_foldl_write _ _).trans List.length_replicate

theorem flatMap_zip_indices (hlen : data.length = placements.length) :
    ((data.zip placements).flatMap fun q => q.2.indices) = placements.flatMap indices := by
  rw [← List.flatMap_map (f := Prod.snd) (g := indices), List.map_snd_zip (by rw [hlen])]

theorem getD_spread (hnodup : (placements.flatMap indices).Nodup)
    (hlt : ∀ j ∈ placements.flatMap indices, j < width) (hlen : data.length = placements.length) :
    ∀ q ∈ data.zip placements, ∀ r ∈ (q.2.columns : List (ℕ × ℚ)),
      (spread placements width data).getD r.1 0 = r.2 * q.1 := by
  refine (getD_foldl_write (data.zip placements) (List.replicate width 0) ?_ ?_).1
  · rw [flatMap_zip_indices hlen]
    exact hnodup
  · rw [flatMap_zip_indices hlen, List.length_replicate]
    exact hlt

theorem getD_spread_of_notMem (hnodup : (placements.flatMap indices).Nodup)
    (hlt : ∀ j ∈ placements.flatMap indices, j < width) (hlen : data.length = placements.length) {j : ℕ}
    (hj : j ∉ placements.flatMap indices) : (spread placements width data).getD j 0 = 0 := by
  have hkept := (getD_foldl_write (data.zip placements) (List.replicate width 0)
    (by rw [flatMap_zip_indices hlen]; exact hnodup)
    (by rw [flatMap_zip_indices hlen, List.length_replicate]; exact hlt)).2 j
    (by rw [flatMap_zip_indices hlen]; exact hj)
  refine hkept.trans ?_
  rw [List.getD_eq_getElem?_getD]
  exact List.getElem?_getD_replicate_default_eq _ width j

end Spread

end Placement

end LinearProgramming
