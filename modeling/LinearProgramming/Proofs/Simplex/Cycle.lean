import Mathlib.Data.Fintype.BigOperators
import Mathlib.Data.Fintype.Pigeonhole
import Mathlib.Logic.Function.Iterate
import LinearProgramming.Proofs.Simplex.Trail

/-! # Loops that come back to a basis

A method whose next pivot depends on nothing but its state makes the iterates of one function, as long as a pivot is
due. `PivotLoop` says of a loop that it does this one pivot at a time, and that it stops only when no pivot is due or when
none is left: a run with room for `n` pivots ends at the limit if one more is due after all of them, and else it ends
with an answer (`PivotLoop.cases`).

A basis is a list of one column per row, which leaves a finite number of bases. So a run that goes on has the same basis
twice (`exists_basis_eq`). If then the whole state is the same, the run goes round for ever (`due_of_back`). -/

namespace LinearProgramming

variable {σ ρ : Type} {due : σ → Bool} {next : σ → σ} {run : ℕ → σ → Session ℚ → ρ} {answered : ρ → Prop}
  {limited : Settings ℚ → σ → ρ → Prop} {x : σ} {i j : ℕ}

/-! ### One pivot after the other -/

/-- The rounds of a loop with a limit, in exact arithmetic. -/
structure PivotLoop (due : σ → Bool) (next : σ → σ) (run : ℕ → σ → Session ℚ → ρ) (answered : ρ → Prop)
    (limited : Settings ℚ → σ → ρ → Prop) : Prop where
  stop : ∀ n x s, s.tolerance = 0 → due x = false → answered (run n x s)
  limit : ∀ x s, s.tolerance = 0 → due x = true → limited s.settings x (run 0 x s)
  pivot : ∀ n x s, s.tolerance = 0 → due x = true →
    ∃ s' : Session ℚ, s'.settings = s.settings ∧ run (n + 1) x s = run n (next x) s'

theorem PivotLoop.cases (h : PivotLoop due next run answered limited) (n : ℕ) (x : σ) {s : Session ℚ}
    (hs : s.tolerance = 0) :
    ((∀ k ≤ n, due (next^[k] x) = true) ∧ limited s.settings (next^[n] x) (run n x s)) ∨
    ((∃ k ≤ n, due (next^[k] x) = false) ∧ answered (run n x s)) := by
  induction n generalizing x s with
  | zero =>
    cases hdue : due x with
    | false => exact .inr ⟨⟨0, le_rfl, hdue⟩, h.stop 0 x s hs hdue⟩
    | true =>
      refine .inl ⟨fun k hk => ?_, h.limit x s hs hdue⟩
      rw [Nat.le_zero.mp hk]
      exact hdue
  | succ n ih =>
    cases hdue : due x with
    | false => exact .inr ⟨⟨0, Nat.zero_le _, hdue⟩, h.stop _ x s hs hdue⟩
    | true =>
      obtain ⟨s', hsettings, hrun⟩ := h.pivot n x s hs hdue
      have hs' : s'.tolerance = 0 := by
        rw [Session.tolerance, hsettings]
        exact hs
      rw [hrun, ← hsettings]
      obtain ⟨hall, hlimited⟩ | ⟨⟨k, hk, hstop⟩, hanswered⟩ := ih (next x) hs'
      · refine .inl ⟨fun k hk => ?_, hlimited⟩
        cases k with
        | zero => exact hdue
        | succ k => exact hall k (Nat.le_of_succ_le_succ hk)
      · exact .inr ⟨⟨k + 1, Nat.succ_le_succ hk, hstop⟩, hanswered⟩

/-! ### Going round -/

/-- A state that has come back comes back again and again. -/
theorem due_of_back (hlt : i < j) (hdue : ∀ k < j, due (next^[k] x) = true) (hback : next^[j] x = next^[i] x) (k : ℕ) :
    due (next^[k] x) = true := by
  induction k using Nat.strong_induction_on with
  | _ k ih =>
    by_cases hk : k < j
    · exact hdue k hk
    · -- one turn earlier the state was the same
      obtain ⟨l, rfl⟩ := Nat.exists_eq_add_of_le' (not_lt.mp hk)
      rw [Function.iterate_add_apply, hback, ← Function.iterate_add_apply]
      exact ih (l + i) (by omega)

/-- There are no more bases than choices of one column for each row. -/
theorem exists_basis_eq (bases : ℕ → List ℕ) {nrRows nrColumns : ℕ} (hlength : ∀ k, (bases k).length = nrRows)
    (hlt : ∀ k, ∀ column ∈ bases k, column < nrColumns) :
    ∃ i j, i < j ∧ j ≤ nrColumns ^ nrRows ∧ bases i = bases j := by
  let choice : Fin (nrColumns ^ nrRows + 1) → Fin nrRows → Fin nrColumns := fun k row =>
    ⟨(bases k).get ⟨row, (hlength k).symm ▸ row.isLt⟩, hlt k _ (List.get_mem ..)⟩
  have hsame : ∀ a b, choice a = choice b → bases a = bases b := by
    intro a b hab
    refine List.ext_get ((hlength a).trans (hlength b).symm) fun row hrow hrow' => ?_
    exact congrArg Fin.val (congrFun hab ⟨row, hlength a ▸ hrow⟩)
  have hcard : Fintype.card (Fin nrRows → Fin nrColumns) < Fintype.card (Fin (nrColumns ^ nrRows + 1)) := by
    rw [Fintype.card_fun, Fintype.card_fin, Fintype.card_fin, Fintype.card_fin]
    exact Nat.lt_succ_self _
  obtain ⟨a, b, hne, hab⟩ := Fintype.exists_ne_map_eq_of_card_lt choice hcard
  have ha := a.isLt
  have hb := b.isLt
  rcases Nat.lt_or_gt_of_ne (Fin.val_ne_of_ne hne) with hlt | hlt
  · exact ⟨a, b, hlt, by omega, hsame a b hab⟩
  · exact ⟨b, a, hlt, by omega, (hsame a b hab).symm⟩

end LinearProgramming
