import LinearProgramming.Proofs.Simplex.Solve
import Mathlib.Data.Set.Finite.Lemmas
import Mathlib.Data.Set.Finite.List
import Mathlib.Order.Filter.AtTopBot.Basic
import Mathlib.Order.Filter.Finite
import Mathlib.Order.WellFounded

/-! # The primal method comes to an end

Suppose that primal pivots could go on for ever (`EndlessRun`). There are finitely many bases and each has its own
objective value, so from some point on the objective does not change, no basic solution does, and the smallest index
decides. Let `q` be the greatest of the columns that enter again and again. It also leaves again and again, and the
tableaus where it enters and where it leaves next contradict each other (`SmallestIndexPivot.false_of_leaves`).

Hence each state of the primal loop is accessible, and by induction on that some number of pivots is enough. -/

namespace LinearProgramming.Tableau

open Finset Filter

/-! ### One pivot -/

namespace PrimalPivot

variable {t : Tableau ℚ} {row column j : ℕ} (hp : t.PrimalPivot row column) (h : t.AtBasis)
include hp h

theorem objectiveValue_le (hrhs : ∀ i < t.nrRows, 0 ≤ t.rhs i) :
    t.objectiveValue ≤ (t.pivot column row).objectiveValue := by
  have hstep : 0 ≤ t.rhs row / t.entry row column := div_nonneg (hrhs row hp.row_lt) hp.entry_pos.le
  have hprod : t.relativeCost column * (t.rhs row / t.entry row column) ≤ 0 :=
    mul_nonpos_of_nonpos_of_nonneg hp.cost_neg.le hstep
  rw [objectiveValue_pivot h.wellFormed hp.row_lt hp.column_lt hp.entry_pos.ne']
  linarith

theorem rhs_eq_zero (hsame : (t.pivot column row).objectiveValue = t.objectiveValue) : t.rhs row = 0 := by
  rw [objectiveValue_pivot h.wellFormed hp.row_lt hp.column_lt hp.entry_pos.ne', sub_eq_self, mul_eq_zero,
    or_iff_right hp.cost_neg.ne, div_eq_zero_iff, or_iff_left hp.entry_pos.ne'] at hsame
  exact hsame

theorem mem_basis_pivot : j ∈ (t.pivot column row).basis ↔ j = column ∨ (j ∈ t.basis ∧ j ≠ t.basis.getD row 0) :=
  mem_set_iff h.wellFormed.basis_nodup (by rw [h.wellFormed.basis_length]; exact hp.row_lt)

/-- A pivot without a change of the objective stays at the same basic solution. -/
theorem basicSolution_eq (hsame : (t.pivot column row).objectiveValue = t.objectiveValue) :
    ofList (t.pivot column row).basicSolution = ofList t.basicSolution := by
  have hnext := hp.rewrites h
  have hsat := (hnext.equivalent.satisfies_iff _).mpr h.unitAt.satisfies_basicSolution
  refine hnext.atBasis.unitAt.basicSolution_unique hsat fun j hj => ?_
  rw [hp.mem_basis_pivot h, not_or, not_and_or, not_not] at hj
  rcases hj.2 with hmem | rfl
  · exact h.unitAt.basicSolution_of_notMem hmem
  · rw [h.unitAt.basicSolution_getD hp.row_lt, hp.rhs_eq_zero h hsame]

end PrimalPivot

/-! ### Two pivots by the smallest index -/

section TwoPivots

variable {t u : Tableau ℚ} {p q r r' : ℕ}

/-- Along the edge of a profitable column, the relative costs of any other tableau of the problem show a gain too. -/
theorem UnitAt.exists_mul_edge_neg (h : t.UnitAt t.basis) (heq : t.Equivalent u) (hp : p ∈ t.others t.basis)
    (hcost : t.relativeCost p < 0) :
    ∃ v < t.nrColumns, u.relativeCost v * (t.edge t.basis p 1 v - t.edge t.basis p 0 v) < 0 := by
  have hgain : ∀ δ, u.objectiveAt (t.edge t.basis p δ) = t.objectiveValue - t.relativeCost p * δ := by
    intro δ
    rw [heq.objectiveAt_eq _ (h.satisfies_edge p δ), h.objectiveAt_edge hp]
  have hsum : ∑ v ∈ range t.nrColumns, u.relativeCost v * (t.edge t.basis p 1 v - t.edge t.basis p 0 v) =
      t.relativeCost p := by
    have hone := hgain 1
    have hzero := hgain 0
    rw [objectiveAt, heq.nrColumns_eq] at hone hzero
    simp only [mul_sub, Finset.sum_sub_distrib]
    linarith
  have hneg : ∑ v ∈ range t.nrColumns, u.relativeCost v * (t.edge t.basis p 1 v - t.edge t.basis p 0 v) <
      ∑ v ∈ range t.nrColumns, 0 := by
    rw [hsum, Finset.sum_const_zero]
    exact hcost
  obtain ⟨v, hv, hlt⟩ := Finset.exists_lt_of_sum_lt hneg
  exact ⟨v, Finset.mem_range.mp hv, hlt⟩

/-- If `q` enters one tableau and leaves another one with the same basic solution, then a greater column enters the
other tableau, or has entered on the way. -/
theorem SmallestIndexPivot.false_of_leaves (henter : u.SmallestIndexPivot r q) (hleave : t.SmallestIndexPivot r' p)
    (hq : t.basis.getD r' 0 = q) (hu : u.AtBasis) (ht : t.AtBasis) (heq : t.Equivalent u)
    (hsolution : ofList t.basicSolution = ofList u.basicSolution) (hpq : p ≤ q)
    (hentered : ∀ v ∈ t.basis, v ∉ u.basis → v ≤ q) : False := by
  have hother : p ∈ t.others t.basis := mem_others.mpr ⟨hleave.column_lt, hleave.column_notMem⟩
  have hqmem : q ∈ t.basis := hq ▸ ht.unitAt.getD_mem hleave.row_lt
  have hlt : p < q := lt_of_le_of_ne hpq fun heq => hleave.column_notMem (heq ▸ hqmem)
  have hcost : ∀ v < q, 0 ≤ u.relativeCost v := by
    intro v hv
    by_cases hmem : v ∈ u.basis
    · rw [hu.unitAt.relativeCost_eq_zero hmem]
    · exact henter.cost_nonneg v hv hmem
  obtain ⟨v, -, hneg⟩ := ht.unitAt.exists_mul_edge_neg heq hother hleave.cost_neg
  by_cases hmem : v ∈ t.basis
  · obtain ⟨i, hi, rfl⟩ := ht.unitAt.exists_row hmem
    rw [ht.unitAt.edge_getD hother 1 hi, ht.unitAt.edge_getD hother 0 hi] at hneg
    have hprod : 0 < u.relativeCost (t.basis.getD i 0) * t.entry i p := by linarith
    have hnotMem : t.basis.getD i 0 ∉ u.basis := by
      intro hbasic
      rw [hu.unitAt.relativeCost_eq_zero hbasic, zero_mul] at hprod
      exact lt_irrefl _ hprod
    rcases (hentered _ hmem hnotMem).lt_or_eq with hless | hself
    · -- a smaller column with value zero, which the ratio test would have preferred
      have hentry : 0 < t.entry i p := pos_of_mul_pos_right hprod (hcost _ hless)
      have hvalue : t.rhs i = 0 := by
        rw [← ht.unitAt.basicSolution_getD hi, hsolution, hu.unitAt.basicSolution_of_notMem hnotMem]
      have hratio : max (t.rhs i) 0 / t.entry i p ≤ max (t.rhs r') 0 / t.entry r' p := by
        rw [hvalue, max_self, zero_div]
        exact div_nonneg (le_max_right _ _) hleave.entry_pos.le
      have hle := hleave.basis_le i hi hentry hratio
      rw [hq] at hle
      exact absurd hless (not_lt.mpr hle)
    · have hrow : i = r' := ht.unitAt.getD_inj hi hleave.row_lt (hself.trans hq.symm)
      rw [hself, hrow] at hprod
      exact absurd hprod (not_lt.mpr (mul_nonpos_of_nonpos_of_nonneg henter.cost_neg.le hleave.entry_pos.le))
  · rw [edge, completion_of_notMem _ hmem, edge, completion_of_notMem _ hmem, ite_self, sub_zero] at hneg
    split_ifs at hneg with hv
    · rw [hv, mul_one] at hneg
      exact absurd hneg (not_lt.mpr (hcost p hlt))
    · rw [mul_zero] at hneg
      exact lt_irrefl _ hneg

end TwoPivots

/-! ### Endless runs -/

/-- Primal pivots that never end. The smallest index decides after `limit` successive pivots without a change of the
objective. -/
structure EndlessRun (limit : ℕ) (t : ℕ → Tableau ℚ) (degenerate row column : ℕ → ℕ) : Prop where
  atBasis : ∀ n, (t n).AtBasis
  rhs_nonneg : ∀ n, ∀ i < (t n).nrRows, 0 ≤ (t n).rhs i
  pivot : ∀ n, (t n).PrimalPivot (row n) (column n)
  next : ∀ n, t (n + 1) = (t n).pivot (column n) (row n)
  degenerate_succ : ∀ n, (t (n + 1)).objectiveValue = (t n).objectiveValue → degenerate (n + 1) = degenerate n + 1
  smallestIndex : ∀ n, limit ≤ degenerate n → (t n).SmallestIndexPivot (row n) (column n)

/-- Between a time with a property and a later time without it, the property is lost. -/
theorem exists_lost {P : ℕ → Prop} {a b : ℕ} (hab : a ≤ b) (ha : P a) (hb : ¬P b) :
    ∃ n, a ≤ n ∧ n < b ∧ P n ∧ ¬P (n + 1) := by
  induction b, hab using Nat.le_induction with
  | base => exact absurd ha hb
  | succ b hab ih =>
    by_cases hP : P b
    · exact ⟨b, hab, Nat.lt_succ_self b, hP, hb⟩
    · obtain ⟨n, han, hnb, hn⟩ := ih hP
      exact ⟨n, han, hnb.trans (Nat.lt_succ_self b), hn⟩

namespace EndlessRun

variable {limit : ℕ} {t : ℕ → Tableau ℚ} {degenerate row column : ℕ → ℕ}
  (h : EndlessRun limit t degenerate row column)
include h

theorem rewrites (n : ℕ) : (t 0).Rewrites (t n) := by
  induction n with
  | zero => exact Rewrites.refl (h.atBasis 0)
  | succ n ih =>
    rw [h.next n]
    exact ih.trans ((h.pivot n).rewrites (h.atBasis n))

theorem equivalent (n m : ℕ) : (t n).Equivalent (t m) :=
  (h.rewrites n).equivalent.symm.trans (h.rewrites m).equivalent

theorem mem_basis_succ {j n : ℕ} :
    j ∈ (t (n + 1)).basis ↔ j = column n ∨ (j ∈ (t n).basis ∧ j ≠ (t n).basis.getD (row n) 0) := by
  rw [h.next n]
  exact (h.pivot n).mem_basis_pivot (h.atBasis n)

theorem monotone_objectiveValue : Monotone fun n => (t n).objectiveValue := by
  refine monotone_nat_of_le_succ fun n => ?_
  rw [h.next n]
  exact (h.pivot n).objectiveValue_le (h.atBasis n) (h.rhs_nonneg n)

/-- The bases are lists of one length over a finite number of columns. -/
theorem finite_range_basis : (Set.range fun n => (t n).basis).Finite := by
  have hlists := (List.finite_length_eq (Fin (t 0).nrColumns) (t 0).nrRows).image (List.map Fin.val)
  refine hlists.subset ?_
  rintro _ ⟨n, rfl⟩
  have hwf := (h.atBasis n).wellFormed
  have heq := h.equivalent 0 n
  have hlt : ∀ j ∈ (t n).basis, j < (t 0).nrColumns := fun j hj => heq.nrColumns_eq ▸ hwf.basis_lt j hj
  refine ⟨(t n).basis.attach.map fun j => ⟨j.1, hlt j.1 j.2⟩, ?_, ?_⟩
  · rw [Set.mem_ofPred_eq, List.length_map, List.length_attach, hwf.basis_length, heq.nrRows_eq]
  · rw [List.map_map]
    exact List.attach_map_subtype_val _

theorem finite_range_objectiveValue : (Set.range fun n => (t n).objectiveValue).Finite := by
  have hfactors : Function.FactorsThrough (fun n => (t n).objectiveValue) fun n => (t n).basis := by
    intro n m hbasis
    have hunit := (h.atBasis m).unitAt
    rw [← show (t n).basis = (t m).basis from hbasis] at hunit
    exact hunit.objectiveValue_eq (h.atBasis n).unitAt (h.equivalent m n)
  have hfinite := h.finite_range_basis.image
    (Function.extend (fun n => (t n).basis) (fun n => (t n).objectiveValue) 0)
  refine hfinite.subset ?_
  rintro _ ⟨n, rfl⟩
  exact ⟨(t n).basis, ⟨n, rfl⟩, hfactors.extend_apply 0 n⟩

/-- From some point on, all pivots are without a change of the objective. -/
theorem exists_objectiveValue_eq : ∃ N, ∀ n ≥ N, (t (n + 1)).objectiveValue = (t n).objectiveValue := by
  obtain ⟨_, ⟨N, rfl⟩, hmax⟩ := Set.exists_max_image _ id h.finite_range_objectiveValue ⟨_, 0, rfl⟩
  have hconst : ∀ n ≥ N, (t n).objectiveValue = (t N).objectiveValue :=
    fun n hn => le_antisymm (hmax _ ⟨n, rfl⟩) (h.monotone_objectiveValue hn)
  exact ⟨N, fun n hn => by rw [hconst n hn, hconst (n + 1) (by omega)]⟩

/-- From some point on, the smallest index decides, and the basic solution stays the same. -/
theorem exists_stalled : ∃ N, ∀ n ≥ N, (t n).SmallestIndexPivot (row n) (column n) ∧
    ofList (t n).basicSolution = ofList (t N).basicSolution := by
  obtain ⟨N, hsame⟩ := h.exists_objectiveValue_eq
  have hcount : ∀ k, k ≤ degenerate (N + k) := by
    intro k
    induction k with
    | zero => exact Nat.zero_le _
    | succ k ih =>
      rw [← Nat.add_assoc, h.degenerate_succ _ (hsame _ (Nat.le_add_right N k))]
      exact Nat.succ_le_succ ih
  have hsolution : ∀ n ≥ N + limit, ofList (t n).basicSolution = ofList (t (N + limit)).basicSolution := by
    intro n hn
    induction n, hn using Nat.le_induction with
    | base => rfl
    | succ n hn ih =>
      have hpivot := hsame n (by omega)
      rw [h.next n] at hpivot ⊢
      rw [(h.pivot n).basicSolution_eq (h.atBasis n) hpivot, ih]
  refine ⟨N + limit, fun n hn => ⟨h.smallestIndex n ?_, hsolution n hn⟩⟩
  obtain ⟨k, rfl⟩ := Nat.exists_eq_add_of_le (show N ≤ n by omega)
  exact (show limit ≤ k by omega).trans (hcount k)

/-- The greatest column that enters again and again. -/
theorem exists_largest : ∃ q, (∃ᶠ n in atTop, column n = q) ∧ ∀ᶠ n in atTop, column n ≤ q := by
  classical
  have hlt : ∀ n, column n ∈ range (t 0).nrColumns := by
    intro n
    rw [Finset.mem_range, ← (h.equivalent 0 n).nrColumns_eq]
    exact (h.pivot n).column_lt
  have hagain : ∀ᶠ n in atTop, ∃ᶠ m in atTop, column m = column n := by
    have hall : ∀ᶠ n in atTop, ∀ j ∈ range (t 0).nrColumns, column n = j → ∃ᶠ m in atTop, column m = j := by
      rw [eventually_all_finset]
      intro j _
      by_cases hj : ∃ᶠ m in atTop, column m = j
      · exact Eventually.of_forall fun _ _ => hj
      · exact (not_frequently.mp hj).mono fun n hn heq => absurd heq hn
    exact hall.mono fun n hn => hn (column n) (hlt n) rfl
  obtain ⟨n, hn⟩ := hagain.exists
  obtain ⟨q, hq, hmax⟩ := Finset.exists_max_image
    ((range (t 0).nrColumns).filter fun j => ∃ᶠ m in atTop, column m = j) id
    ⟨column n, Finset.mem_filter.mpr ⟨hlt n, hn⟩⟩
  refine ⟨q, (Finset.mem_filter.mp hq).2, hagain.mono fun m hm => ?_⟩
  exact hmax (column m) (Finset.mem_filter.mpr ⟨hlt m, hm⟩)

protected theorem false : False := by
  obtain ⟨q, hoften, hle⟩ := h.exists_largest
  obtain ⟨N, hstalled⟩ := h.exists_stalled
  obtain ⟨M, hle⟩ := eventually_atTop.mp hle
  -- `q` enters at `a`, and again at `b`, so it leaves at some `c` in between
  obtain ⟨a, ha, hqa⟩ := frequently_atTop.mp hoften (max N M)
  obtain ⟨b, hb, hqb⟩ := frequently_atTop.mp hoften (a + 1)
  have hin : q ∈ (t (a + 1)).basis := h.mem_basis_succ.mpr (Or.inl hqa.symm)
  have hout : q ∉ (t b).basis := hqb ▸ (h.pivot b).column_notMem
  obtain ⟨c, hac, -, hmem, hgone⟩ := exists_lost (P := fun n => q ∈ (t n).basis) hb hin hout
  have hq : (t c).basis.getD (row c) 0 = q := by
    by_contra hne
    exact hgone (h.mem_basis_succ.mpr (Or.inr ⟨hmem, Ne.symm hne⟩))
  have hentered : ∀ v ∈ (t c).basis, v ∉ (t a).basis → v ≤ q := by
    intro v hvc hva
    obtain ⟨n, han, -, hvn, hvn'⟩ := exists_lost (P := fun n => v ∉ (t n).basis) (show a ≤ c by omega) hva
      (not_not.mpr hvc)
    rcases h.mem_basis_succ.mp (not_not.mp hvn') with rfl | ⟨hv, -⟩
    · exact hle n (by omega)
    · exact absurd hv hvn
  have henter := (hstalled a (by omega)).1
  rw [hqa] at henter
  refine henter.false_of_leaves (hstalled c (by omega)).1 hq (h.atBasis a) (h.atBasis c) (h.equivalent c a) ?_
    (hle c (by omega)) hentered
  rw [(hstalled c (by omega)).2, (hstalled a (by omega)).2]

end EndlessRun

/-! ### Enough pivots -/

structure PrimalState where
  tableau : Tableau ℚ
  degenerate : ℕ

def PrimalState.pivot (state : PrimalState) (row column : ℕ) : PrimalState where
  tableau := state.tableau.pivot column row
  degenerate :=
    if (state.tableau.pivot column row).objectiveValue = state.tableau.objectiveValue then state.degenerate + 1 else 0

/-- The second state is due for a pivot, which leads to the first one. -/
def PrimalState.Follows (rule : EnteringRule) (limit : ℕ) (next state : PrimalState) : Prop :=
  ∃ row column, state.tableau.primalMove rule (limit ≤ state.degenerate) 0 = .pivot row column ∧
    next = state.pivot row column

theorem AtBasis.of_primalMove_eq_pivot {t : Tableau ℚ} {rule : EnteringRule} {smallestIndex : Bool} {row column : ℕ}
    (h : t.AtBasis) (hmove : t.primalMove rule smallestIndex 0 = .pivot row column) :
    t.PrimalPivot row column ∧ (smallestIndex = true → t.SmallestIndexPivot row column) := by
  obtain ⟨hstop, -⟩ | ⟨hstop, -⟩ | ⟨row', column', hpivot, hp⟩ := primalMove_cases h rule smallestIndex
  · rw [hstop] at hmove
    cases hmove
  · rw [hstop] at hmove
    cases hmove
  · rw [hpivot] at hmove
    cases hmove
    exact hp

theorem PrimalState.acc_follows (rule : EnteringRule) (limit : ℕ) {state : PrimalState}
    (h : state.tableau.AtBasis) (hrhs : ∀ i < state.tableau.nrRows, 0 ≤ state.tableau.rhs i) :
    Acc (PrimalState.Follows rule limit) state := by
  by_contra hacc
  obtain ⟨f, rfl, hfollows⟩ := not_acc_iff_exists_descending_chain.mp hacc
  choose row column hmove hnext using hfollows
  have hfeasible : ∀ n, (f n).tableau.AtBasis ∧ ∀ i < (f n).tableau.nrRows, 0 ≤ (f n).tableau.rhs i := by
    intro n
    induction n with
    | zero => exact ⟨h, hrhs⟩
    | succ n ih =>
      have hp := (ih.1.of_primalMove_eq_pivot (hmove n)).1
      rw [hnext n]
      exact ⟨(hp.rewrites ih.1).atBasis, hp.rhs_nonneg ih.1 ih.2⟩
  have hpivot := fun n => (hfeasible n).1.of_primalMove_eq_pivot (hmove n)
  have hrun : EndlessRun limit (fun n => (f n).tableau) (fun n => (f n).degenerate) row column :=
    { atBasis := fun n => (hfeasible n).1
      rhs_nonneg := fun n => (hfeasible n).2
      pivot := fun n => (hpivot n).1
      next := fun n => by rw [hnext n]; rfl
      degenerate_succ := fun n hsame => by
        rw [hnext n] at hsame ⊢
        exact if_pos hsame
      smallestIndex := fun n hlimit => (hpivot n).2 (decide_eq_true hlimit) }
  exact hrun.false

theorem PrimalState.exists_bound {rule : EnteringRule} {limit : ℕ} {state : PrimalState}
    (h : Acc (PrimalState.Follows rule limit) state) :
    ∃ N, ∀ remaining ≥ N, ∀ s : Session ℚ, s.tolerance = 0 → s.settings.maxDegeneratePivots = limit →
      ∃ outcome, (primalLoop rule remaining state.degenerate state.tableau s).result = .ok outcome := by
  induction h with
  | intro state _ ih =>
    cases hmove : state.tableau.primalMove rule (limit ≤ state.degenerate) 0 with
    | stop outcome =>
      refine ⟨0, fun remaining _ s hs hlimit => ⟨outcome, ?_⟩⟩
      rw [primalLoop, hs, hlimit, hmove]
    | pivot row column =>
      obtain ⟨N, hN⟩ := ih _ ⟨row, column, hmove, rfl⟩
      refine ⟨N + 1, fun remaining hremaining s hs hlimit => ?_⟩
      obtain ⟨remaining, rfl⟩ := Nat.exists_eq_add_of_le' (show 1 ≤ remaining by omega)
      have hs' : ∀ next, (s.recordPivot (.primalPivot row column) next).tolerance = 0 := by
        intro next
        rw [Session.tolerance_recordPivot, hs]
      rw [primalLoop, hs, hlimit, hmove]
      simp only [Scalar.isZero_zero_iff, sub_eq_zero]
      exact hN remaining (by omega) _ (hs' _) (by rw [Session.settings_recordPivot, hlimit])

/-- However many pivots without a change of the objective are allowed before the smallest index decides, the primal
method finds an answer from every basic feasible solution, once it may make enough pivots. -/
theorem exists_ok_primal {t : Tableau ℚ} (hwf : t.WellFormed) (hfeasible : t.isBasicFeasible 0 = true)
    (rule : EnteringRule) (maxDegeneratePivots : ℕ) :
    ∃ N, ∀ s : Session ℚ, s.settings.tolerances.general = 0 →
      s.settings.maxDegeneratePivots = maxDegeneratePivots → N ≤ s.settings.maxPivots →
      ∃ outcome, (t.primal rule s).result = .ok outcome ∧ t.Verdict outcome := by
  rw [isBasicFeasible, Bool.and_eq_true] at hfeasible
  have hbasis : t.AtBasis := ⟨hwf, hwf.unitAt_of_hasUnitBasis hfeasible.1⟩
  have hrhs := rhs_nonneg_of_isPrimalFeasible hfeasible.2
  have hacc : Acc (PrimalState.Follows rule maxDegeneratePivots) ⟨t, 0⟩ :=
    PrimalState.acc_follows rule maxDegeneratePivots hbasis hrhs
  obtain ⟨N, hN⟩ := PrimalState.exists_bound hacc
  refine ⟨N, fun s hs hlimit hpivots => ?_⟩
  obtain ⟨outcome, hok⟩ := hN s.settings.maxPivots hpivots s hs hlimit
  have hrew := (startsAt_primal rule hbasis hrhs hs).rewrites
  exact ⟨outcome, hok,
    (Verdict.of_solveEnd hrew.atBasis (solveEnd_primal rule hbasis hrhs hs hok)).of_equivalent hrew.equivalent⟩

/-- A tableau from which the steepest rule alone goes round in a cycle of six bases. -/
def cyclingTableau : Tableau ℚ :=
  ofMatrix (RowMatrix.ofRows
    [[-3 / 4, 150, -1 / 50, 6, 0, 0, 0, 0],
     [1 / 4, -60, -1 / 25, 9, 1, 0, 0, 0],
     [1 / 2, -90, -1 / 50, 3, 0, 1, 0, 0],
     [0, 0, 1, 0, 0, 0, 1, 1]]) [4, 5, 6]

-- If the smallest index never decides, the run is still in its cycle at the limit.
theorem exists_ok_primal_cyclingTableau :
    cyclingTableau.WellFormed ∧ cyclingTableau.isBasicFeasible 0 = true ∧
    (cyclingTableau.primal .steepest (.start { (Settings.standard : Settings ℚ) with
      tolerances := ⟨0, 0, 0⟩, maxPivots := 60, maxDegeneratePivots := 1000 })).result = .error (.pivotLimit 60) ∧
    ∃ N, ∀ s : Session ℚ, s.settings.tolerances.general = 0 → s.settings.maxDegeneratePivots = 10 →
      N ≤ s.settings.maxPivots →
      ∃ outcome, (cyclingTableau.primal .steepest s).result = .ok outcome ∧ cyclingTableau.Verdict outcome := by
  have hwf : cyclingTableau.WellFormed :=
    wellFormed_ofMatrix (by simp [RowMatrix.IsRectangular, RowMatrix.ofRows]) (by decide) (by decide) (by decide)
      (by decide) (by decide)
  have hfeasible : cyclingTableau.isBasicFeasible 0 = true := by decide +kernel
  exact ⟨hwf, hfeasible, by decide +kernel, exists_ok_primal hwf hfeasible .steepest 10⟩

end LinearProgramming.Tableau
