import Mathlib.Algebra.Ring.Nat
import Mathlib.Data.List.Infix
import Mathlib.Tactic.Common

/-
  The shortest prefix of a list whose weight reaches a
  limit, or the whole list when it does not.

  Key definitions include:
    * `Filling.weight`
    * `Filling.Fills`

  Key theorems include:
    * `Filling.Fills.stop`, `Filling.Fills.take`
    * `Filling.Fills.enough_of_le`
-/

namespace Filling

variable {A : Type}
variable {w : A → Nat}
variable {limit : Nat}
variable {xs taken rest : List A}

/- The weight of a list. -/
def weight (w : A → Nat) (xs : List A) : Nat :=
  (xs.map w).sum

theorem weight_cons
    (x : A)
    (xs : List A) :
    weight w (x :: xs) = w x + weight w xs := by
  simp [weight]

/-
  The list is split after its shortest prefix that weighs
  at least `limit`; all of it is taken if none does.
-/
structure Fills
    (w : A → Nat)
    (limit : Nat)
    (xs taken rest : List A) : Prop where
  split : xs = taken ++ rest
  enough : limit ≤ weight w taken ∨ rest = []
  shortest :
    ∀ shorter, shorter <+: taken → shorter ≠ taken →
      weight w shorter < limit

/- Nothing is taken when there is nothing to reach. -/
theorem Fills.stop
    (hLimit : limit = 0 ∨ xs = []) :
    Fills w limit xs [] xs where
  split := rfl
  enough := by
    rcases hLimit with hZero | hNil
    · left
      rw [hZero]
      exact Nat.zero_le _
    · exact Or.inr hNil
  shortest := by
    intro shorter hPrefix hNe
    exact absurd (List.prefix_nil.mp hPrefix) hNe

/- One element is taken and the rest has less to reach. -/
theorem Fills.take
    {x : A}
    (hLimit : 0 < limit)
    (hRest : Fills w (limit - w x) xs taken rest) :
    Fills w limit (x :: xs) (x :: taken) rest where
  split := by
    rw [hRest.split, List.cons_append]
  enough := by
    rw [weight_cons]
    rcases hRest.enough with hEnough | hNil
    · left
      omega
    · exact Or.inr hNil
  shortest := by
    intro shorter hPrefix hNe
    cases shorter with
    | nil => exact hLimit
    | cons y ys =>
        rcases List.cons_prefix_cons.mp hPrefix with
          ⟨rfl, hTail⟩
        have hTailNe : ys ≠ taken := by
          intro hEq
          rw [hEq] at hNe
          exact hNe rfl
        have hLess := hRest.shortest ys hTail hTailNe
        rw [weight_cons]
        omega

/- A list that is heavy enough fills the limit. -/
theorem Fills.enough_of_le
    (hFills : Fills w limit xs taken rest)
    (hHeavy : limit ≤ weight w xs) :
    limit ≤ weight w taken := by
  rcases hFills.enough with hEnough | hNil
  · exact hEnough
  · rw [hFills.split, hNil, List.append_nil] at hHeavy
    exact hHeavy

end Filling
