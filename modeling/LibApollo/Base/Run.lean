import Mathlib.Logic.Relation

/-
  Runs of fallible, event-driven state machines.

  A machine is a step function that takes a state and an
  event to a new state or to a failure.  Runs are guarded: a
  guard says which event may be taken in which state, so
  that one machine serves honest, adversarial and
  conditional executions.

  Key definitions include:
    * `Machine`
    * `Machine.Reach`
    * `Machine.runCheck`
    * `Machine.Trace`

  Key theorems include:
    * `Machine.Reach.invariant`
    * `Machine.Reach.mono`
    * `Machine.Reach.of_runCheck`, `Machine.Reach.through`
    * `Machine.Trace.reach`
    * `Machine.Trace.forall_visited`
    * `Machine.Trace.forall_visited_iff`
-/

------------------------------------------------------------
-- Machines and Guarded Reachability
------------------------------------------------------------

/- A machine with states `S`, events `E` and failures `F`. -/
abbrev Machine (S E F : Type) :=
  S → E → Except F S

namespace Machine

variable {S E F : Type}

/-
  States reached from `start` by successful steps whose
  event the guard allows in the state before the step.
-/
inductive Reach
    (step : Machine S E F)
    (guard : S → E → Prop)
    (start : S) : S → Prop where
| start : Reach step guard start start
| next {s s' : S} {e : E} :
    Reach step guard start s →
      guard s e →
      step s e = .ok s' →
      Reach step guard start s'

namespace Reach

variable {step : Machine S E F}
variable {guard guard' : S → E → Prop}
variable {start s : S}

/-
  A property of the start state that every guarded step
  preserves holds in every reached state.
-/
theorem invariant
    (Inv : S → Prop)
    (hReach : Reach step guard start s)
    (hStart : Inv start)
    (hStep :
      ∀ s s' e, Inv s → guard s e →
        step s e = .ok s' → Inv s') :
    Inv s := by
  induction hReach with
  | start => exact hStart
  | next _ hGuard hOk ih =>
      exact hStep _ _ _ ih hGuard hOk

/- A weaker guard reaches at least as much. -/
theorem mono
    (hReach : Reach step guard start s)
    (hGuard : ∀ s e, guard s e → guard' s e) :
    Reach step guard' start s := by
  induction hReach with
  | start => exact .start
  | next _ hAllowed hOk ih =>
      exact .next ih (hGuard _ _ hAllowed) hOk

/- Reachability composes. -/
theorem trans
    {t : S}
    (hFirst : Reach step guard start s)
    (hSecond : Reach step guard s t) :
    Reach step guard start t := by
  induction hSecond with
  | start => exact hFirst
  | next _ hAllowed hOk ih =>
      exact .next ih hAllowed hOk

end Reach

end Machine

------------------------------------------------------------
-- Executable Runs
------------------------------------------------------------

namespace Machine

variable {S E F : Type}

/-
  Run a list of events, checking each event before it is
  taken and the final state at the end.
-/
def runCheck
    (step : Machine S E F)
    (check : S → E → Bool)
    (final : S → Bool) :
    S → List E → Bool
| s, [] => final s
| s, e :: es =>
    check s e &&
      match step s e with
      | .ok s' => runCheck step check final s' es
      | .error _ => false

/- A run that passes its checks reaches a final state. -/
theorem Reach.of_runCheck
    {step : Machine S E F}
    {guard : S → E → Prop}
    {check : S → E → Bool}
    {final : S → Bool}
    {start : S}
    {es : List E}
    (hSound : ∀ s e, check s e = true → guard s e)
    (hRun : runCheck step check final start es = true) :
    ∃ s, Reach step guard start s ∧ final s = true := by
  induction es generalizing start with
  | nil => exact ⟨start, .start, hRun⟩
  | cons e es ih =>
      simp only [runCheck, Bool.and_eq_true] at hRun
      rcases hRun with ⟨hCheck, hRest⟩
      cases hStep : step start e with
      | error f => simp [hStep] at hRest
      | ok mid =>
          simp only [hStep] at hRest
          rcases ih hRest with ⟨s, hReach, hFinal⟩
          exact ⟨s,
            Reach.trans
              (.next .start (hSound start e hCheck) hStep)
              hReach,
            hFinal⟩

/- A run that goes on, under other guards, from some state. -/
theorem Reach.through
    {step : Machine S E F}
    {guard guard' : S → E → Prop}
    {check check' : S → E → Bool}
    {here final : S → Bool}
    {start : S}
    {before after : List E}
    (hSound : ∀ s e, check s e = true → guard s e)
    (hSound' : ∀ s e, check' s e = true → guard' s e)
    (hRun :
      runCheck step check
        (fun mid =>
          here mid &&
            runCheck step check' final mid after)
        start before = true) :
    ∃ mid s,
      Reach step guard start mid ∧
        here mid = true ∧
        Reach step guard' mid s ∧
        final s = true := by
  rcases of_runCheck hSound hRun with ⟨mid, hMid, hBoth⟩
  rw [Bool.and_eq_true] at hBoth
  rcases of_runCheck hSound' hBoth.2 with
    ⟨s, hReach, hFinal⟩
  exact ⟨mid, s, hMid, hBoth.1, hReach, hFinal⟩

end Machine

------------------------------------------------------------
-- Runs with Their Past
------------------------------------------------------------

namespace Machine

variable {S E F : Type}

/-
  The states reached together with the steps that were
  taken, each with the state before it, oldest first.
-/
inductive Trace
    (step : Machine S E F)
    (start : S) : List (S × E) → S → Prop where
| start : Trace step start [] start
| next {past : List (S × E)} {s s' : S} {e : E} :
    Trace step start past s →
      step s e = .ok s' →
      Trace step start (past ++ [(s, e)]) s'

namespace Trace

variable {step : Machine S E F}
variable {guard : S → E → Prop}
variable {start s : S}
variable {past : List (S × E)}

/- A run all of whose steps a guard allows. -/
theorem reach
    (hTrace : Trace step start past s)
    (hGuard : ∀ taken ∈ past, guard taken.1 taken.2) :
    Reach step guard start s := by
  induction hTrace with
  | start => exact .start
  | next _ hStep ih =>
      have hBefore := ih
        (fun taken hTaken =>
          hGuard taken (List.mem_append_left _ hTaken))
      exact .next hBefore
        (hGuard _ (List.mem_append_right _
          (List.mem_singleton_self _)))
        hStep

/- What a run with a past has reached. -/
theorem reach_any
    (hTrace : Trace step start past s) :
    Reach step (fun _ _ => True) start s :=
  hTrace.reach (fun _ _ => trivial)

/- The run up to a given step of its past. -/
theorem split
    {earlier : List (S × E)}
    {taken : S × E}
    (hTrace : Trace step start past s)
    (hPrefix : earlier ++ [taken] <+: past) :
    ∃ s',
      Trace step start earlier taken.1 ∧
        step taken.1 taken.2 = .ok s' := by
  induction hTrace with
  | start =>
      rw [List.prefix_nil] at hPrefix
      simp at hPrefix
  | next hBefore hStep ih =>
      rcases List.prefix_concat_iff.mp hPrefix with
        hWhole | hOld
      · rcases List.append_inj' hWhole rfl with
          ⟨rfl, hLast⟩
        cases List.singleton_inj.mp hLast
        exact ⟨_, hBefore, hStep⟩
      · exact ih hOld

/- The run up to a step that was taken, and its result. -/
theorem before_step
    {taken : S × E}
    (hTrace : Trace step start past s)
    (hTaken : taken ∈ past) :
    ∃ earlier s',
      earlier ++ [taken] <+: past ∧
        Trace step start earlier taken.1 ∧
        step taken.1 taken.2 = .ok s' := by
  induction hTrace with
  | start => exact absurd hTaken List.not_mem_nil
  | next hBefore hStep ih =>
      rcases List.mem_append.mp hTaken with hOld | hLast
      · rcases ih hOld with
          ⟨earlier, s', hPrefix, hEarlier, hTaken⟩
        exact ⟨earlier, s',
          hPrefix.trans (List.prefix_append _ _), hEarlier,
          hTaken⟩
      · rw [List.mem_singleton] at hLast
        subst hLast
        exact ⟨_, _, List.prefix_rfl, hBefore, hStep⟩

/- The states of a run: those before its steps and the last. -/
def Visited
    (past : List (S × E))
    (s state : S) : Prop :=
  state = s ∨ state ∈ past.map Prod.fst

omit step guard start in
theorem visited_append
    {s' state : S}
    {e : E} :
    Visited (past ++ [(s, e)]) s' state ↔
      Visited past s state ∨ state = s' := by
  unfold Visited
  rw [List.map_append, List.mem_append, List.map_singleton,
    List.mem_singleton]
  constructor
  · intro hCases
    rcases hCases with hLast | hOld | hEq
    · exact Or.inr hLast
    · exact Or.inl (Or.inr hOld)
    · exact Or.inl (Or.inl hEq)
  · intro hCases
    rcases hCases with (hEq | hOld) | hLast
    · exact Or.inr (Or.inr hEq)
    · exact Or.inr (Or.inl hOld)
    · exact Or.inl hLast

/- What every allowed step keeps holds throughout the run. -/
theorem forall_visited
    (Inv : S → Prop)
    (hTrace : Trace step start past s)
    (hGuard : ∀ taken ∈ past, guard taken.1 taken.2)
    (hStart : Inv start)
    (hStep :
      ∀ s s' e, Inv s → guard s e →
        step s e = .ok s' → Inv s') :
    ∀ state, Visited past s state → Inv state := by
  induction hTrace with
  | start =>
      intro state hVisited
      rcases hVisited with hEq | hMem
      · rw [hEq]
        exact hStart
      · exact absurd hMem List.not_mem_nil
  | next hBefore hOk ih =>
      intro state hVisited
      have hOld :=
        ih (fun taken hTaken =>
          hGuard taken (List.mem_append_left _ hTaken))
      rcases visited_append.mp hVisited with hEarlier | hEq
      · exact hOld state hEarlier
      · rw [hEq]
        exact hStep _ _ _ (hOld _ (Or.inl rfl))
          (hGuard _ (List.mem_append_right _
            (List.mem_singleton_self _))) hOk

/-
  When a condition says exactly which steps keep a property,
  it holds throughout a run if and only if all steps of the
  run meet the condition.
-/
theorem forall_visited_iff
    (Inv : S → Prop)
    (hTrace : Trace step start past s)
    (hStart : Inv start)
    (hStep :
      ∀ s s' e, Inv s → step s e = .ok s' →
        (Inv s' ↔ guard s e)) :
    (∀ state, Visited past s state → Inv state) ↔
      ∀ taken ∈ past, guard taken.1 taken.2 := by
  constructor
  · intro hAll
    induction hTrace with
    | start =>
        intro taken hTaken
        exact absurd hTaken List.not_mem_nil
    | next hBefore hOk ih =>
        intro taken hTaken
        rcases List.mem_append.mp hTaken with hOld | hNew
        · refine ih ?_ taken hOld
          intro state hVisited
          exact hAll state
            (visited_append.mpr (Or.inl hVisited))
        · rw [List.mem_singleton.mp hNew]
          have hInv := hAll _
            (visited_append.mpr (Or.inl (Or.inl rfl)))
          exact (hStep _ _ _ hInv hOk).mp
            (hAll _ (visited_append.mpr (Or.inr rfl)))
  · intro hGuard
    apply hTrace.forall_visited Inv hGuard hStart
    intro s s' e hInv hAllowed hOk
    exact (hStep s s' e hInv hOk).mpr hAllowed

end Trace

/- A run that passes its checks, with its past. -/
theorem Trace.of_runCheck
    {step : Machine S E F}
    {check : S → E → Bool}
    {final : S → Bool}
    {start mid : S}
    {past : List (S × E)}
    {es : List E}
    (hTrace : Trace step start past mid)
    (hRun : runCheck step check final mid es = true) :
    ∃ later s,
      Trace step start (past ++ later) s ∧
        later.map Prod.snd = es ∧
        later.head? = es.head?.map (fun e => (mid, e)) ∧
        (∀ taken ∈ later,
          check taken.1 taken.2 = true) ∧
        final s = true := by
  induction es generalizing mid past with
  | nil =>
      refine ⟨[], mid, ?_, rfl, rfl, ?_, hRun⟩
      · rw [List.append_nil]
        exact hTrace
      · intro taken hTaken
        exact absurd hTaken List.not_mem_nil
  | cons e es ih =>
      simp only [runCheck, Bool.and_eq_true] at hRun
      rcases hRun with ⟨hCheck, hRest⟩
      cases hStep : step mid e with
      | error f => simp [hStep] at hRest
      | ok next =>
          simp only [hStep] at hRest
          rcases ih (hTrace.next hStep) hRest with
            ⟨later, s, hLater, hEvents, _, hChecks,
              hFinal⟩
          refine ⟨(mid, e) :: later, s, ?_, ?_, rfl, ?_,
            hFinal⟩
          · rw [List.append_assoc] at hLater
            exact hLater
          · rw [List.map_cons, hEvents]
          · intro taken hTaken
            rcases List.mem_cons.mp hTaken with rfl | hOld
            · exact hCheck
            · exact hChecks taken hOld

/-
  A run that passes through a state with some property and
  takes a given event there.
-/
theorem Trace.through
    {step : Machine S E F}
    {here final : S → Bool}
    {start : S}
    {before after : List E}
    {e : E}
    (hRun :
      runCheck step (fun _ _ => true)
        (fun mid =>
          here mid &&
            runCheck step (fun _ _ => true) final mid
              (e :: after))
        start before = true) :
    ∃ past mid s,
      Trace step start past s ∧
        (mid, e) ∈ past ∧
        here mid = true ∧
        final s = true := by
  rcases of_runCheck .start hRun with
    ⟨past, mid, hTrace, _, _, _, hBoth⟩
  rw [Bool.and_eq_true] at hBoth
  rcases of_runCheck hTrace hBoth.2 with
    ⟨later, s, hLater, _, hHead, _, hFinal⟩
  rcases List.head?_eq_some_iff.mp hHead with
    ⟨rest, hRest⟩
  refine ⟨[] ++ past ++ later, mid, s, hLater, ?_, hBoth.1,
    hFinal⟩
  rw [hRest]
  exact List.mem_append_right _ List.mem_cons_self

end Machine
