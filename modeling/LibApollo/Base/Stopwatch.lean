import LibApollo.Base.FiniteMap

/-
  Stopwatches with one hand for each key.

  A watch keeps when each key was started, and the times
  that were measured.  A key is stopped by the first stop
  after its start, and further stops find nothing.  When no
  key is started twice, the measured times are those of the
  keys in some order, whatever the stops have been.

  Key definitions include:
    * `Stopwatch`, `Stopwatch.press`, `Stopwatch.after`
    * `Stopwatch.starts`, `Stopwatch.begun`
    * `Stopwatch.lap`

  Key theorems include:
    * `Stopwatch.lookup_running`
    * `Stopwatch.laps_perm`
    * `Stopwatch.laps_add_running`
-/

------------------------------------------------------------
-- Watches
------------------------------------------------------------

/- What is done with a watch, and when. -/
inductive Mark (K : Type) where
| start (key : K) (time : Nat)
| stop (key : K) (time : Nat)
deriving DecidableEq, Repr

structure Stopwatch (K : Type) where
  running : FinMap K Nat
  laps : List Nat

namespace Stopwatch

variable {K : Type} [DecidableEq K]

omit [DecidableEq K] in
def new : Stopwatch K where
  running := ∅
  laps := []

def press
    (watch : Stopwatch K) : Mark K → Stopwatch K
| .start key time =>
    { watch with
      running := watch.running.insert key time }
| .stop key time =>
    match watch.running.lookup key with
    | none => watch
    | some begun =>
        { running := watch.running.erase key
          laps := watch.laps ++ [time - begun] }

/- A new watch after some marks. -/
def after (marks : List (Mark K)) : Stopwatch K :=
  marks.foldl press new

theorem after_append
    (marks : List (Mark K))
    (mark : Mark K) :
    after (marks ++ [mark]) = press (after marks) mark := by
  unfold after
  rw [List.foldl_append]
  rfl

theorem press_stop_of_none
    {watch : Stopwatch K}
    {key : K}
    (hRun : watch.running.lookup key = none)
    (time : Nat) :
    watch.press (.stop key time) = watch := by
  simp [press, hRun]

theorem press_stop_of_some
    {watch : Stopwatch K}
    {key : K}
    {begun : Nat}
    (hRun : watch.running.lookup key = some begun)
    (time : Nat) :
    watch.press (.stop key time) =
      { running := watch.running.erase key
        laps := watch.laps ++ [time - begun] } := by
  simp [press, hRun]

end Stopwatch

------------------------------------------------------------
-- What the Marks Say of One Key
------------------------------------------------------------

namespace Stopwatch

variable {K : Type} [DecidableEq K]

omit [DecidableEq K] in
/- The keys in the order in which they were started. -/
def starts : List (Mark K) → List K
| [] => []
| .start key _ :: marks => key :: starts marks
| .stop _ _ :: marks => starts marks

/- When a key was started first. -/
def begun (key : K) : List (Mark K) → Option Nat
| [] => none
| .start other time :: marks =>
    if other = key then some time else begun key marks
| .stop _ _ :: marks => begun key marks

/- When a key was stopped first. -/
def stopped (key : K) : List (Mark K) → Option Nat
| [] => none
| .start _ _ :: marks => stopped key marks
| .stop other time :: marks =>
    if other = key then some time else stopped key marks

/- The time from the start of a key to the next stop. -/
def lap (key : K) : List (Mark K) → Option Nat
| [] => none
| .start other time :: marks =>
    if other = key then
      (stopped key marks).map (· - time)
    else
      lap key marks
| .stop _ _ :: marks => lap key marks

variable {key other : K}
variable {time : Nat}

omit [DecidableEq K] in
theorem starts_append
    (marks more : List (Mark K)) :
    starts (marks ++ more) =
      starts marks ++ starts more := by
  induction marks with
  | nil => rfl
  | cons mark marks ih =>
      cases mark with
      | start key time =>
          rw [List.cons_append, starts, starts, ih,
            List.cons_append]
      | stop key time =>
          rw [List.cons_append, starts, starts, ih]

theorem begun_isSome_iff
    (key : K)
    (marks : List (Mark K)) :
    (begun key marks).isSome ↔ key ∈ starts marks := by
  induction marks with
  | nil => simp [begun, starts]
  | cons mark marks ih =>
      cases mark with
      | start other time =>
          by_cases hSame : other = key
          · simp [begun, starts, hSame]
          · simp [begun, starts, hSame, ih, Ne.symm hSame]
      | stop other time => exact ih

theorem begun_append
    (key : K)
    (marks more : List (Mark K)) :
    begun key (marks ++ more) =
      (begun key marks).or (begun key more) := by
  induction marks with
  | nil => rfl
  | cons mark marks ih =>
      cases mark with
      | start other time =>
          rw [List.cons_append, begun, begun, ih]
          split
          · rfl
          · rfl
      | stop other time => exact ih

theorem stopped_append
    (key : K)
    (marks more : List (Mark K)) :
    stopped key (marks ++ more) =
      (stopped key marks).or (stopped key more) := by
  induction marks with
  | nil => rfl
  | cons mark marks ih =>
      cases mark with
      | start other time => exact ih
      | stop other time =>
          rw [List.cons_append, stopped, stopped, ih]
          split
          · rfl
          · rfl

/- One more mark can only complete a lap. -/
theorem lap_append
    (key : K)
    (marks : List (Mark K))
    (mark : Mark K) :
    lap key (marks ++ [mark]) =
      (lap key marks).or
        ((begun key marks).bind
          (fun time =>
            (stopped key [mark]).map (· - time))) := by
  induction marks with
  | nil =>
      cases mark with
      | start other time => simp [lap, begun, stopped]
      | stop other time => simp [lap, begun]
  | cons first marks ih =>
      cases first with
      | start other time =>
          rw [List.cons_append, lap, lap, begun]
          by_cases hSame : other = key
          · rw [if_pos hSame, if_pos hSame, if_pos hSame,
              stopped_append]
            cases stopped key marks with
            | none => rfl
            | some first => rfl
          · rw [if_neg hSame, if_neg hSame, if_neg hSame]
            exact ih
      | stop other time => exact ih

theorem lap_append_start
    (key : K)
    (marks : List (Mark K))
    (other : K)
    (time : Nat) :
    lap key (marks ++ [.start other time]) =
      lap key marks := by
  rw [lap_append]
  cases begun key marks with
  | none => simp
  | some first => simp [stopped]

/- A key that was not started has no lap. -/
theorem lap_eq_none
    {marks : List (Mark K)}
    (hFresh : key ∉ starts marks) :
    lap key marks = none := by
  induction marks with
  | nil => rfl
  | cons mark marks ih =>
      cases mark with
      | start other time =>
          rw [starts, List.mem_cons, not_or] at hFresh
          rw [lap, if_neg (Ne.symm hFresh.1)]
          exact ih hFresh.2
      | stop other time => exact ih hFresh

theorem mem_of_stopped
    {marks : List (Mark K)}
    (hStopped : (stopped key marks).isSome) :
    ∃ time, .stop key time ∈ marks := by
  induction marks with
  | nil => cases hStopped
  | cons mark marks ih =>
      cases mark with
      | start other time =>
          rcases ih hStopped with ⟨time, hMem⟩
          exact ⟨time, List.mem_cons_of_mem _ hMem⟩
      | stop other time =>
          by_cases hSame : other = key
          · rw [hSame]
            exact ⟨time, List.mem_cons_self⟩
          · rw [stopped, if_neg hSame] at hStopped
            rcases ih hStopped with ⟨time, hMem⟩
            exact ⟨time, List.mem_cons_of_mem _ hMem⟩

/- A lap that is complete was stopped. -/
theorem mem_of_lap
    {marks : List (Mark K)}
    (hLap : (lap key marks).isSome) :
    ∃ time, .stop key time ∈ marks := by
  apply mem_of_stopped
  induction marks with
  | nil => cases hLap
  | cons mark marks ih =>
      cases mark with
      | start other time =>
          rw [lap] at hLap
          split at hLap
          · rwa [Option.isSome_map] at hLap
          · exact ih hLap
      | stop other time =>
          rw [stopped]
          split
          · rfl
          · exact ih hLap

end Stopwatch

------------------------------------------------------------
-- What a Watch Measures
------------------------------------------------------------

namespace Stopwatch

variable {K : Type} [DecidableEq K]
variable {marks : List (Mark K)}

/- A key runs from its start until its lap is complete. -/
theorem lookup_running
    (hOnce : (starts marks).Nodup)
    (key : K) :
    (after marks).running.lookup key =
      if (lap key marks).isSome then none
      else begun key marks := by
  induction marks using List.reverseRecOn generalizing key with
  | nil => simp [after, new, lap, begun]
  | append_singleton marks mark ih =>
      rw [starts_append] at hOnce
      have hOld := ih (List.nodup_append.mp hOnce).1
      rw [after_append]
      cases mark with
      | start other time =>
          change ((after marks).running.insert other
            time).lookup key = _
          rw [FinMap.lookup_insert_eq, hOld,
            lap_append_start, begun_append]
          by_cases hSame : key = other
          · have hFresh : key ∉ starts marks := by
              intro hMem
              exact (List.nodup_append.mp hOnce).2.2 key
                hMem other (List.mem_singleton_self _) hSame
            have hNone : begun key marks = none := by
              rw [← Option.not_isSome_iff_eq_none,
                begun_isSome_iff]
              exact hFresh
            rw [if_pos hSame, lap_eq_none hFresh, hNone]
            simp [begun, hSame]
          · rw [if_neg hSame]
            simp [begun, Ne.symm hSame]
      | stop other time =>
          rw [lap_append, begun_append]
          have hNo : begun key [.stop other time] = none := rfl
          rw [hNo, Option.or_none]
          cases hRun : (after marks).running.lookup other with
          | none =>
              rw [press_stop_of_none hRun, hOld]
              by_cases hSame : other = key
              · rw [hSame, hOld] at hRun
                split at hRun
                · rename_i hLap
                  rw [Option.isSome_iff_exists] at hLap
                  rcases hLap with ⟨time, hLap⟩
                  simp [hLap]
                · rename_i hLap
                  simp [hRun]
              · simp [stopped, hSame]
          | some first =>
              rw [press_stop_of_some hRun]
              dsimp only
              rw [FinMap.lookup_erase_eq, hOld]
              by_cases hSame : key = other
              · subst hSame
                rw [hOld] at hRun
                split at hRun
                · cases hRun
                · rename_i hLap
                  rw [Bool.not_eq_true,
                    Option.isSome_eq_false_iff,
                    Option.isNone_iff_eq_none] at hLap
                  simp [hLap, hRun, stopped]
              · simp [stopped, hSame, Ne.symm hSame]

/- A list in which one more key has a value. -/
theorem filterMap_perm_cons
    {keys : List K}
    {f f' : K → Option Nat}
    {key : K}
    {value : Nat}
    (hOnce : keys.Nodup)
    (hMem : key ∈ keys)
    (hNone : f key = none)
    (hSome : f' key = some value)
    (hOthers : ∀ other, other ≠ key → f' other = f other) :
    (keys.filterMap f').Perm
      (keys.filterMap f ++ [value]) := by
  induction keys with
  | nil => exact absurd hMem List.not_mem_nil
  | cons first keys ih =>
      rw [List.nodup_cons] at hOnce
      by_cases hFirst : first = key
      · subst hFirst
        have hSame : keys.filterMap f' = keys.filterMap f := by
          apply List.filterMap_congr
          intro other hOther
          refine hOthers other ?_
          rintro rfl
          exact hOnce.1 hOther
        rw [List.filterMap_cons_some hSome,
          List.filterMap_cons_none hNone, hSame]
        exact (List.perm_append_singleton _ _).symm
      · have hRest :=
          ih hOnce.2
            ((List.mem_cons.mp hMem).resolve_left
              (Ne.symm hFirst))
        cases hValue : f first with
        | none =>
            rw [List.filterMap_cons_none hValue,
              List.filterMap_cons_none
                ((hOthers first hFirst).trans hValue)]
            exact hRest
        | some other =>
            rw [List.filterMap_cons_some hValue,
              List.filterMap_cons_some
                ((hOthers first hFirst).trans hValue)]
            exact hRest.cons other

/- The measured times are the laps of the keys. -/
theorem laps_perm
    (hOnce : (starts marks).Nodup) :
    (after marks).laps.Perm
      ((starts marks).filterMap (lap · marks)) := by
  induction marks using List.reverseRecOn with
  | nil => exact List.Perm.refl _
  | append_singleton marks mark ih =>
      rw [starts_append] at hOnce ⊢
      have hBefore := (List.nodup_append.mp hOnce).1
      have hOld := ih hBefore
      rw [after_append]
      cases mark with
      | start key time =>
          have hFresh : key ∉ starts marks := by
            intro hMem
            exact (List.nodup_append.mp hOnce).2.2 key hMem
              key (List.mem_singleton_self _) rfl
          have hSame :
              (fun other =>
                lap other (marks ++ [.start key time])) =
                (lap · marks) :=
            funext fun other =>
              lap_append_start other marks key time
          change (after marks).laps.Perm _
          have hNone :
              List.filterMap (lap · marks) [key] = [] := by
            simp [lap_eq_none hFresh]
          rw [hSame, List.filterMap_append]
          change (after marks).laps.Perm
            (_ ++ List.filterMap (lap · marks) [key])
          rw [hNone, List.append_nil]
          exact hOld
      | stop key time =>
          have hNone : starts [Mark.stop key time] = [] := rfl
          rw [hNone, List.append_nil]
          have hOthers :
              ∀ other, other ≠ key →
                lap other (marks ++ [.stop key time]) =
                  lap other marks := by
            intro other hOther
            rw [lap_append]
            simp [stopped, Ne.symm hOther]
          have hRunning := lookup_running hBefore key
          cases hRun : (after marks).running.lookup key with
          | none =>
              have hSame :
                  (fun other =>
                    lap other (marks ++ [.stop key time])) =
                    (lap · marks) := by
                funext other
                by_cases hKey : other = key
                · subst hKey
                  rw [hRun] at hRunning
                  rw [lap_append]
                  split at hRunning
                  · rename_i hLap
                    rw [Option.isSome_iff_exists] at hLap
                    rcases hLap with ⟨time, hLap⟩
                    simp [hLap]
                  · simp [← hRunning]
                · exact hOthers other hKey
              rw [press_stop_of_none hRun, hSame]
              exact hOld
          | some first =>
              rw [press_stop_of_some hRun]
              rw [hRun] at hRunning
              split at hRunning
              · cases hRunning
              · rename_i hLap
                rw [Bool.not_eq_true,
                  Option.isSome_eq_false_iff,
                  Option.isNone_iff_eq_none] at hLap
                have hMem : key ∈ starts marks := by
                  rw [← begun_isSome_iff, ← hRunning]
                  rfl
                have hSome :
                    lap key (marks ++ [.stop key time]) =
                      some (time - first) := by
                  rw [lap_append, hLap, ← hRunning]
                  simp [stopped]
                exact (hOld.append_right _).trans
                  (filterMap_perm_cons hBefore hMem hLap
                    hSome hOthers).symm

/- Every key that was started runs or has been measured. -/
theorem laps_add_running
    (hOnce : (starts marks).Nodup) :
    (after marks).laps.length +
        (after marks).running.keys.card =
      (starts marks).length := by
  induction marks using List.reverseRecOn with
  | nil => simp [after, new, starts]
  | append_singleton marks mark ih =>
      rw [starts_append] at hOnce ⊢
      have hBefore := (List.nodup_append.mp hOnce).1
      have hOld := ih hBefore
      rw [after_append]
      cases mark with
      | start key time =>
          have hFresh : key ∉ starts marks := by
            intro hMem
            exact (List.nodup_append.mp hOnce).2.2 key hMem
              key (List.mem_singleton_self _) rfl
          have hNone :
              (after marks).running.lookup key = none := by
            rw [lookup_running hBefore, lap_eq_none hFresh]
            rw [← Option.not_isSome_iff_eq_none]
            simpa [begun_isSome_iff] using hFresh
          change (after marks).laps.length +
            ((after marks).running.insert key
              time).keys.card = _
          rw [FinMap.card_keys_insert_of_none hNone,
            List.length_append]
          change _ = _ + 1
          omega
      | stop key time =>
          have hNone : starts [Mark.stop key time] = [] := rfl
          rw [hNone, List.append_nil]
          cases hRun : (after marks).running.lookup key with
          | none =>
              rw [press_stop_of_none hRun]
              exact hOld
          | some first =>
              have hCard :=
                FinMap.card_keys_erase_of_some hRun
              rw [press_stop_of_some hRun]
              dsimp only
              rw [List.length_append, List.length_singleton]
              omega

end Stopwatch
