import LibApollo.Base.Run
import Mathlib.Logic.Function.Basic

/-
  The replicated log as an abstract machine.

  There is one list of values, to which values are appended,
  and every replica has been told some initial part of it.
  A system with an output at every replica implements the
  log when each of its steps is matched by steps of the log
  that show the outputs.  For this it is enough that outputs
  grow, one at a time, and that any two of them are
  comparable.

  Key definitions include:
    * `ReplicatedLog`, `ReplicatedLog.Step`
    * `ReplicatedLog.Shows`
    * `ReplicatedLog.Implements`

  Key theorems include:
    * `ReplicatedLog.Shows.grow`
    * `ReplicatedLog.Implements.of_comparable`
    * `ReplicatedLog.Implements.reach`
-/

------------------------------------------------------------
-- The Abstract Machine
------------------------------------------------------------

/- A log and the number of its values told to each replica. -/
structure ReplicatedLog (V : Type) where
  log : List V
  told : Nat → Nat
  told_le : ∀ i, told i ≤ log.length

namespace ReplicatedLog

variable {V : Type}

def new : ReplicatedLog V where
  log := []
  told := fun _ => 0
  told_le := fun _ => Nat.le_refl 0

def append
    (s : ReplicatedLog V)
    (value : V) : ReplicatedLog V where
  log := s.log ++ [value]
  told := s.told
  told_le := by
    intro i
    rw [List.length_append]
    exact Nat.le_add_right_of_le (s.told_le i)

def tell
    (s : ReplicatedLog V)
    (i : Nat)
    (hMore : s.told i < s.log.length) : ReplicatedLog V where
  log := s.log
  told := Function.update s.told i (s.told i + 1)
  told_le := by
    intro j
    by_cases hSame : j = i
    · subst hSame
      rw [Function.update_self]
      exact hMore
    · rw [Function.update_of_ne hSame]
      exact s.told_le j

inductive Step : ReplicatedLog V → ReplicatedLog V → Prop where
| append (s : ReplicatedLog V) (value : V) :
    Step s (s.append value)
| tell (s : ReplicatedLog V) (i : Nat)
    (hMore : s.told i < s.log.length) :
    Step s (s.tell i hMore)

abbrev Steps : ReplicatedLog V → ReplicatedLog V → Prop :=
  Relation.ReflTransGen Step

/- What a replica has been told. -/
def view
    (s : ReplicatedLog V)
    (i : Nat) : List V :=
  s.log.take (s.told i)

theorem length_view
    (s : ReplicatedLog V)
    (i : Nat) :
    (s.view i).length = s.told i := by
  rw [view, List.length_take]
  exact Nat.min_eq_left (s.told_le i)

/- The log only grows. -/
theorem Steps.log_grows
    {s s' : ReplicatedLog V}
    (hSteps : Steps s s') :
    s.log <+: s'.log := by
  induction hSteps with
  | refl => exact List.prefix_rfl
  | tail _ hStep ih =>
      refine ih.trans ?_
      cases hStep with
      | append value => exact List.prefix_append _ _
      | tell i hMore => exact List.prefix_rfl

/- Append a list of values. -/
theorem exists_append
    (s : ReplicatedLog V)
    (more : List V) :
    ∃ s', Steps s s' ∧ s'.log = s.log ++ more ∧
      s'.told = s.told := by
  induction more generalizing s with
  | nil =>
      exact ⟨s, .refl, (List.append_nil _).symm, rfl⟩
  | cons value more ih =>
      rcases ih (s.append value) with
        ⟨s', hSteps, hLog, hTold⟩
      refine ⟨s', .head (.append s value) hSteps, ?_, hTold⟩
      rw [hLog, append, List.append_assoc]
      rfl

/- Tell a replica the log up to some point. -/
theorem exists_tell
    (s : ReplicatedLog V)
    (i : Nat)
    (count : Nat)
    (hMore : s.told i + count ≤ s.log.length) :
    ∃ s', Steps s s' ∧ s'.log = s.log ∧
      s'.told =
        Function.update s.told i (s.told i + count) := by
  induction count generalizing s with
  | zero =>
      refine ⟨s, .refl, rfl, ?_⟩
      rw [Nat.add_zero, Function.update_eq_self]
  | succ count ih =>
      have hNext : s.told i < s.log.length := by omega
      rcases ih (s.tell i hNext) (by simp [tell]; omega) with
        ⟨s', hSteps, hLog, hTold⟩
      refine ⟨s', .head (.tell s i hNext) hSteps, hLog, ?_⟩
      rw [hTold]
      simp only [tell, Function.update_self,
        Function.update_idem]
      rw [Nat.add_assoc, Nat.add_comm 1 count]

end ReplicatedLog

------------------------------------------------------------
-- Outputs
------------------------------------------------------------

namespace ReplicatedLog

variable {V : Type}
variable {n : Nat}
variable {out out' : Nat → List V}
variable {s : ReplicatedLog V}

/- Of any two outputs one begins with the other. -/
def Comparable
    (n : Nat)
    (out : Nat → List V) : Prop :=
  ∀ i j, i < n → j < n →
    out i <+: out j ∨ out j <+: out i

/-
  The outputs are what the replicas have been told, and one
  of them has been told everything.
-/
structure Shows
    (n : Nat)
    (out : Nat → List V)
    (s : ReplicatedLog V) : Prop where
  views : ∀ i, i < n → out i = s.view i
  longest : s.log = [] ∨ ∃ i, i < n ∧ s.log = out i

/- Outputs that do not go beyond the log. -/
theorem Shows.tell
    {i : Nat}
    (hShows : Shows n out s)
    (hIndex : i < n)
    (hGrows : out i <+: out' i)
    (hOthers : ∀ j, j ≠ i → out' j = out j)
    (hLog : out' i <+: s.log) :
    ∃ s', Steps s s' ∧ Shows n out' s' := by
  have hLess := hGrows.length_le
  rw [hShows.views i hIndex, length_view] at hLess
  have hCount :
      s.told i + ((out' i).length - s.told i) =
        (out' i).length := by
    omega
  rcases s.exists_tell i ((out' i).length - s.told i)
      (Nat.le_trans (Nat.le_of_eq hCount) hLog.length_le) with
    ⟨s', hSteps, hSame, hTold⟩
  rw [hCount] at hTold
  refine ⟨s', hSteps, ?_, ?_⟩
  · intro j hBound
    rw [view, hSame, hTold]
    by_cases hSelf : j = i
    · subst hSelf
      rw [Function.update_self]
      exact List.prefix_iff_eq_take.mp hLog
    · rw [Function.update_of_ne hSelf, hOthers j hSelf]
      exact hShows.views j hBound
  · rw [hSame]
    rcases hShows.longest with hNone | ⟨j, hBound, hLongest⟩
    · exact Or.inl hNone
    · refine Or.inr ⟨j, hBound, ?_⟩
      by_cases hSelf : j = i
      · subst hSelf
        rw [hLongest] at hLog
        rw [hLongest]
        exact hGrows.eq_of_length_le hLog.length_le
      · rw [hOthers j hSelf]
        exact hLongest

/- An output that the log is a part of. -/
theorem Shows.append
    {i : Nat}
    (hShows : Shows n out s)
    (hIndex : i < n)
    (hOthers : ∀ j, j ≠ i → out' j = out j)
    (hLog : s.log <+: out' i) :
    ∃ s', Steps s s' ∧ Shows n out' s' := by
  rcases hLog with ⟨more, hMore⟩
  rcases s.exists_append more with
    ⟨mid, hFirst, hMid, hKept⟩
  have hCount :
      mid.told i + (mid.log.length - mid.told i) =
        mid.log.length := by
    have hBound := mid.told_le i
    omega
  rcases mid.exists_tell i (mid.log.length - mid.told i)
      (Nat.le_of_eq hCount) with
    ⟨s', hSecond, hSame, hTold⟩
  rw [hCount] at hTold
  have hWhole : s'.log = out' i := by
    rw [hSame, hMid, hMore]
  refine ⟨s', hFirst.trans hSecond, ?_,
    Or.inr ⟨i, hIndex, hWhole⟩⟩
  intro j hBound
  rw [view, hTold, hSame]
  by_cases hSelf : j = i
  · subst hSelf
    rw [Function.update_self, List.take_length, ← hSame,
      hWhole]
  · rw [Function.update_of_ne hSelf, hOthers j hSelf, hMid,
      hKept, List.take_append_of_le_length (s.told_le j)]
    exact hShows.views j hBound

/- One output grows and stays comparable to the others. -/
theorem Shows.grow
    {i : Nat}
    (hShows : Shows n out s)
    (hIndex : i < n)
    (hGrows : out i <+: out' i)
    (hOthers : ∀ j, j ≠ i → out' j = out j)
    (hComparable : Comparable n out') :
    ∃ s', Steps s s' ∧ Shows n out' s' := by
  have hCases : s.log <+: out' i ∨ out' i <+: s.log := by
    rcases hShows.longest with hNone | ⟨j, hBound, hLongest⟩
    · rw [hNone]
      exact Or.inl List.nil_prefix
    · rw [hLongest]
      by_cases hSelf : j = i
      · subst hSelf
        exact Or.inl hGrows
      · rw [← hOthers j hSelf]
        exact hComparable j i hBound hIndex
  rcases hCases with hLog | hLog
  · exact hShows.append hIndex hOthers hLog
  · exact hShows.tell hIndex hGrows hOthers hLog

end ReplicatedLog

------------------------------------------------------------
-- Implementations
------------------------------------------------------------

namespace ReplicatedLog

variable {S E F V : Type}
variable {step : Machine S E F}
variable {guard : S → E → Prop}
variable {start g : S}
variable {n : Nat}
variable {out : S → Nat → List V}

/-
  A relation to states of the log holds at the start, shows
  the outputs, and every step of the system is matched by
  any number of steps of the log.
-/
def Implements
    (step : Machine S E F)
    (guard : S → E → Prop)
    (start : S)
    (n : Nat)
    (out : S → Nat → List V) : Prop :=
  ∃ Relates : S → ReplicatedLog V → Prop,
    Relates start new ∧
      (∀ g s, Relates g s → Shows n (out g) s) ∧
      ∀ g g' e s, Relates g s → guard g e →
        step g e = .ok g' →
          ∃ s', Steps s s' ∧ Relates g' s'

theorem Implements.of_comparable
    (hStart : ∀ i, i < n → out start i = [])
    (hGrows :
      ∀ g g' e, Machine.Reach step guard start g →
        guard g e → step g e = .ok g' →
          ∃ i, i < n ∧ out g i <+: out g' i ∧
            ∀ j, j ≠ i → out g' j = out g j)
    (hComparable :
      ∀ g, Machine.Reach step guard start g →
        Comparable n (out g)) :
    Implements step guard start n out := by
  refine
    ⟨fun g s =>
      Machine.Reach step guard start g ∧
        Shows n (out g) s,
      ⟨.start, ?_, Or.inl rfl⟩, fun g s hRelates =>
        hRelates.2, ?_⟩
  · intro i hBound
    rw [hStart i hBound]
    rfl
  · intro g g' e s hRelates hGuard hStep
    rcases hRelates with ⟨hReach, hShows⟩
    have hReach' := hReach.next hGuard hStep
    rcases hGrows g g' e hReach hGuard hStep with
      ⟨i, hIndex, hMore, hOthers⟩
    rcases hShows.grow hIndex hMore hOthers
        (hComparable g' hReach') with
      ⟨s', hSteps, hShows'⟩
    exact ⟨s', hSteps, hReach', hShows'⟩

/- Every state of the system shows a state of the log. -/
theorem Implements.reach
    (hImplements : Implements step guard start n out)
    (hReach : Machine.Reach step guard start g) :
    ∃ s, Steps new s ∧ Shows n (out g) s := by
  rcases hImplements with
    ⟨Relates, hStart, hShows, hMatch⟩
  have hRelated : ∃ s, Steps new s ∧ Relates g s := by
    apply hReach.invariant
      (fun g => ∃ s, Steps new s ∧ Relates g s)
    · exact ⟨new, .refl, hStart⟩
    · intro g g' e hParts hGuard hStep
      rcases hParts with ⟨s, hSteps, hRelates⟩
      rcases hMatch g g' e s hRelates hGuard hStep with
        ⟨s', hMore, hRelates'⟩
      exact ⟨s', hSteps.trans hMore, hRelates'⟩
  rcases hRelated with ⟨s, hSteps, hRelates⟩
  exact ⟨s, hSteps, hShows g s hRelates⟩

end ReplicatedLog
