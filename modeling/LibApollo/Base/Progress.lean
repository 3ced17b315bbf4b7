import LibApollo.Base.Run
import Mathlib.Order.Monotone.Basic
import Mathlib.Tactic.Common

/-
  Progress of tasks that get their turn again and again.

  In an infinite run a task has a turn infinitely often.  A
  quantity that never falls and that rises at every turn
  while it is below a target reaches the target, whatever
  else happens in between.  A machine that has a step which
  leaves less to do, wherever it is not at rest, can come to
  rest.

  Key definitions include:
    * `Progress.Recurs`

  Key theorems include:
    * `Progress.Recurs.reaches`
    * `Machine.exists_rest`
-/

namespace Progress

/- Something happens again and again. -/
def Recurs (turn : Nat → Prop) : Prop :=
  ∀ n, ∃ m, n ≤ m ∧ turn m

/-
  A quantity that grows at every turn below the target gets
  there, from any point on.
-/
theorem Recurs.reaches
    {turn : Nat → Prop}
    {value : Nat → Nat}
    {target start : Nat}
    (hRecurs : Recurs turn)
    (hMono : Monotone value)
    (hGrows :
      ∀ n, start ≤ n → turn n → value n < target →
        value n < value (n + 1)) :
    ∃ n, start ≤ n ∧ target ≤ value n := by
  -- by induction on what is missing at the start
  obtain ⟨missing, hMissing⟩ :
      ∃ missing, target ≤ value start + missing :=
    ⟨target, Nat.le_add_left _ _⟩
  induction missing generalizing start with
  | zero => exact ⟨start, Nat.le_refl _, hMissing⟩
  | succ missing ih =>
      rcases hRecurs start with ⟨m, hLater, hTurn⟩
      by_cases hBelow : value m < target
      · have hStart := hMono hLater
        have hNext := hGrows m hLater hTurn hBelow
        have hLess :
            target ≤ value (m + 1) + missing := by
          omega
        rcases ih
          (fun n hAfter => hGrows n (by omega)) hLess with
          ⟨n, hAfter, hReached⟩
        exact ⟨n, by omega, hReached⟩
      · exact ⟨m, hLater, Nat.le_of_not_lt hBelow⟩

end Progress

namespace Machine

variable {S E F : Type}

/- Work that can always be reduced can be finished. -/
theorem exists_rest
    {step : Machine S E F}
    {guard : S → E → Prop}
    (Inv Rest : S → Prop)
    (work : S → Nat)
    (hWorks :
      ∀ s, Inv s → ¬ Rest s →
        ∃ e s', guard s e ∧ step s e = .ok s' ∧ Inv s' ∧
          work s' < work s)
    {s : S}
    (hInv : Inv s) :
    ∃ s', Reach step guard s s' ∧ Inv s' ∧ Rest s' := by
  generalize hWork : work s = left
  induction left using Nat.strong_induction_on
    generalizing s with
  | _ left ih =>
      by_cases hRest : Rest s
      · exact ⟨s, .start, hInv, hRest⟩
      · rcases hWorks s hInv hRest with
          ⟨e, mid, hGuard, hStep, hMid, hLess⟩
        rcases ih (work mid) (hWork ▸ hLess) hMid rfl with
          ⟨s', hReach, hInv', hRest'⟩
        refine ⟨s', ?_, hInv', hRest'⟩
        exact (Reach.next .start hGuard hStep).trans hReach

end Machine
