import LibApollo.Base.Run
import Mathlib.Data.List.Induction

/-
  Machines that take their input in turns.

  In each turn a machine takes a group of inputs and then
  works, by one internal event, until it is done.  When
  every input can be taken, and every piece of work succeeds
  and makes some measure smaller, the machine gets through
  every sequence of turns, and what taking and working
  preserve holds at the end, however the inputs are grouped.

  Key definitions include:
    * `Machine.run`
    * `Machine.Turns`
    * `Machine.Drains`

  Key theorems include:
    * `Machine.Drains.exists_run`
    * `Machine.Drains.exists_turns`
    * `Machine.Drains.invariant`
-/

------------------------------------------------------------
-- Runs and Turns
------------------------------------------------------------

namespace Machine

variable {S E F : Type}

/- Take events one after the other. -/
def run
    (step : Machine S E F) :
    S → List E → Except F S
| s, [] => .ok s
| s, e :: es =>
    match step s e with
    | .ok s' => run step s' es
    | .error failure => .error failure

theorem run_cons
    {step : Machine S E F}
    {s s' : S}
    {e : E}
    (hStep : step s e = .ok s')
    (es : List E) :
    run step s (e :: es) = run step s' es := by
  simp only [run, hStep]

theorem run_append
    {step : Machine S E F}
    {s s' : S}
    {es : List E}
    (hRun : run step s es = .ok s')
    (es' : List E) :
    run step s (es ++ es') = run step s' es' := by
  induction es generalizing s with
  | nil =>
      cases hRun
      rfl
  | cons e es ih =>
      cases hStep : step s e with
      | error failure => simp [run, hStep] at hRun
      | ok mid =>
          rw [run_cons hStep] at hRun
          rw [List.cons_append, run_cons hStep]
          exact ih hRun

/-
  The states after groups of inputs: the inputs of a group
  are taken, and then the event `work` until the machine is
  done.
-/
inductive Turns
    (step : Machine S E F)
    (work : E)
    (Done : S → Prop)
    (start : S) : List (List E) → S → Prop where
| start : Turns step work Done start [] start
| turn {groups : List (List E)} {group : List E}
    {s s' : S} {count : Nat} :
    Turns step work Done start groups s →
      run step s (group ++ List.replicate count work) =
        .ok s' →
      Done s' →
      Turns step work Done start (groups ++ [group]) s'

/-
  Between turns the machine is open for the inputs that are
  allowed after those it has seen; while it is not done it
  works towards being so.
-/
structure Drains
    (step : Machine S E F)
    (work : E)
    (Done Open : S → Prop)
    (Allowed : List E → E → Prop)
    (Inv : List E → S → Prop)
    (size : S → Nat) : Prop where
  opened : ∀ s, Done s → Open s
  takes :
    ∀ seen s input, Inv seen s → Open s →
      Allowed seen input →
      ∃ s', step s input = .ok s' ∧
        Inv (seen ++ [input]) s' ∧ Open s'
  works :
    ∀ seen s, Inv seen s → ¬ Done s →
      ∃ s', step s work = .ok s' ∧
        Inv seen s' ∧ size s' < size s
  idles :
    ∀ seen s, Inv seen s → Done s → step s work = .ok s

/- Every input is allowed where it stands. -/
def InOrder
    (Allowed : List E → E → Prop)
    (seen inputs : List E) : Prop :=
  ∀ before input after,
    inputs = before ++ input :: after →
      Allowed (seen ++ before) input

theorem InOrder.nil
    {Allowed : List E → E → Prop}
    {seen : List E} :
    InOrder Allowed seen [] := by
  intro before input after hSplit
  simp at hSplit

theorem InOrder.cons
    {Allowed : List E → E → Prop}
    {seen rest : List E}
    {input : E}
    (hFirst : Allowed seen input)
    (hOrder : InOrder Allowed (seen ++ [input]) rest) :
    InOrder Allowed seen (input :: rest) := by
  intro before next after hSplit
  cases before with
  | nil =>
      rw [List.nil_append, List.cons.injEq] at hSplit
      rw [← hSplit.1, List.append_nil]
      exact hFirst
  | cons other before =>
      rw [List.cons_append, List.cons.injEq] at hSplit
      rw [← hSplit.1]
      simpa using hOrder before next after hSplit.2

theorem InOrder.head
    {Allowed : List E → E → Prop}
    {seen rest : List E}
    {input : E}
    (hOrder : InOrder Allowed seen (input :: rest)) :
    Allowed seen input := by
  have hFirst := hOrder [] input rest rfl
  rwa [List.append_nil] at hFirst

theorem InOrder.tail
    {Allowed : List E → E → Prop}
    {seen rest : List E}
    {input : E}
    (hOrder : InOrder Allowed seen (input :: rest)) :
    InOrder Allowed (seen ++ [input]) rest := by
  intro before next after hSplit
  have hNext := hOrder (input :: before) next after
    (by rw [hSplit]; rfl)
  simpa using hNext

theorem InOrder.left
    {Allowed : List E → E → Prop}
    {seen inputs more : List E}
    (hOrder : InOrder Allowed seen (inputs ++ more)) :
    InOrder Allowed seen inputs := by
  intro before input after hSplit
  exact hOrder before input (after ++ more)
    (by simp [hSplit])

theorem InOrder.right
    {Allowed : List E → E → Prop}
    {seen inputs more : List E}
    (hOrder : InOrder Allowed seen (inputs ++ more)) :
    InOrder Allowed (seen ++ inputs) more := by
  intro before input after hSplit
  have hInput := hOrder (inputs ++ before) input after
    (by simp [hSplit])
  simpa using hInput

end Machine

------------------------------------------------------------
-- Getting Through All Turns
------------------------------------------------------------

namespace Machine

namespace Drains

variable {S E F : Type}
variable {step : Machine S E F}
variable {work : E}
variable {Done Open : S → Prop}
variable {Allowed : List E → E → Prop}
variable {Inv : List E → S → Prop}
variable {size : S → Nat}
variable {seen inputs : List E}
variable {s s' start : S}
variable {groups : List (List E)}

/- An open machine takes all the inputs of a group. -/
theorem takes_all
    (hDrains :
      Drains step work Done Open Allowed Inv size)
    (hInv : Inv seen s)
    (hOpen : Open s)
    (hOrder : InOrder Allowed seen inputs) :
    ∃ s', run step s inputs = .ok s' ∧
      Inv (seen ++ inputs) s' := by
  induction inputs generalizing seen s with
  | nil => exact ⟨s, rfl, by simpa using hInv⟩
  | cons input rest ih =>
      rcases hDrains.takes seen s input hInv hOpen
          hOrder.head with ⟨mid, hStep, hMid, hOpen'⟩
      rcases ih hMid hOpen' hOrder.tail with
        ⟨s', hRun, hInv'⟩
      refine ⟨s', ?_, by simpa using hInv'⟩
      rw [run_cons hStep]
      exact hRun

/- Work succeeds and preserves the invariant. -/
theorem works_some
    (hDrains :
      Drains step work Done Open Allowed Inv size)
    (hInv : Inv seen s)
    (count : Nat) :
    ∃ s', run step s (List.replicate count work) = .ok s' ∧
      Inv seen s' := by
  induction count generalizing s with
  | zero => exact ⟨s, rfl, hInv⟩
  | succ count ih =>
      have hNext :
          ∃ mid, step s work = .ok mid ∧ Inv seen mid := by
        by_cases hDone : Done s
        · exact ⟨s, hDrains.idles seen s hInv hDone, hInv⟩
        · rcases hDrains.works seen s hInv hDone with
            ⟨mid, hStep, hMid, _⟩
          exact ⟨mid, hStep, hMid⟩
      rcases hNext with ⟨mid, hStep, hMid⟩
      rcases ih hMid with ⟨s', hRun, hInv'⟩
      refine ⟨s', ?_, hInv'⟩
      rw [List.replicate_succ, run_cons hStep]
      exact hRun

/- Enough work gets the machine done. -/
theorem works_all
    (hDrains :
      Drains step work Done Open Allowed Inv size)
    (hInv : Inv seen s) :
    ∃ count s',
      run step s (List.replicate count work) = .ok s' ∧
        Done s' := by
  -- by induction on what is left to do
  generalize hSize : size s = total
  induction total using Nat.strongRecOn
      generalizing s with
  | ind total ih =>
      by_cases hDone : Done s
      · exact ⟨0, s, rfl, hDone⟩
      · rcases hDrains.works seen s hInv hDone with
          ⟨mid, hStep, hMid, hLess⟩
        rw [hSize] at hLess
        rcases ih (size mid) hLess hMid rfl with
          ⟨count, s', hRun, hDone'⟩
        refine ⟨count + 1, s', ?_, hDone'⟩
        rw [List.replicate_succ, run_cons hStep]
        exact hRun

/- What taking and working preserve holds after turns. -/
theorem invariant
    (hDrains :
      Drains step work Done Open Allowed Inv size)
    (hStart : Inv [] start)
    (hDone : Done start)
    (hOrder : InOrder Allowed [] groups.flatten)
    (hTurns : Turns step work Done start groups s) :
    Inv groups.flatten s ∧ Done s := by
  induction hTurns with
  | start => exact ⟨hStart, hDone⟩
  | @turn groups group s s' count _ hRun hDone' ih =>
      rw [List.flatten_append, List.flatten_singleton]
        at hOrder ⊢
      rcases ih hOrder.left with ⟨hInv, hDone⟩
      rcases hDrains.takes_all hInv
          (hDrains.opened s hDone) hOrder.right with
        ⟨mid, hTaken, hMid⟩
      rcases hDrains.works_some hMid count with
        ⟨last, hWorked, hLast⟩
      rw [run_append hTaken, hWorked] at hRun
      cases hRun
      exact ⟨hLast, hDone'⟩

/- The machine gets through every sequence of turns. -/
theorem exists_turns
    (hDrains :
      Drains step work Done Open Allowed Inv size)
    (hStart : Inv [] start)
    (hDone : Done start)
    (hOrder : InOrder Allowed [] groups.flatten) :
    ∃ s, Turns step work Done start groups s := by
  induction groups using List.reverseRecOn with
  | nil => exact ⟨start, .start⟩
  | append_singleton groups group ih =>
      rw [List.flatten_append, List.flatten_singleton]
        at hOrder
      rcases ih hOrder.left with ⟨s, hTurns⟩
      rcases hDrains.invariant hStart hDone hOrder.left
          hTurns with ⟨hInv, hDone'⟩
      rcases hDrains.takes_all hInv
          (hDrains.opened s hDone') hOrder.right with
        ⟨mid, hTaken, hMid⟩
      rcases hDrains.works_all hMid with
        ⟨count, last, hWorked, hLast⟩
      have hRun :
          run step s
            (group ++ List.replicate count work) =
              .ok last := by
        rw [run_append hTaken]
        exact hWorked
      exact ⟨last, .turn hTurns hRun hLast⟩

end Drains

end Machine
