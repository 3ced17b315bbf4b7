import LibApollo.Base.Run
import Mathlib.Logic.Function.Basic

/-
  Networks of machines that follow their own code.

  Each machine keeps the list of packets it has sent.  A
  packet may reach its destination at any later time, any
  number of times or never, so that every interleaving,
  delivery order, duplication and loss is a run.

  Key definitions include:
    * `Network.Interface`
    * `Network.step`
    * `Network.Delivers`, `Network.deliversCheck`

  Key theorems include:
    * `Network.step_ok`
    * `Network.forall_update`, `Network.at_update`
    * `Network.reach_invariant`, `Network.reach_each`
-/

namespace Network

variable {S E F M : Type}

/- How a machine meets the network. -/
structure Interface (S E M : Type) where
  outbox : S → List (Nat × M)
  received : E → Option M

/- One machine takes an event; the others stay. -/
def step
    (machine : Machine S E F) :
    Machine (Nat → S) (Nat × E) F :=
  fun g event =>
    match machine (g event.1) event.2 with
    | .ok s => .ok (Function.update g event.1 s)
    | .error f => .error f

/-
  Only the first `n` machines take events, and they receive
  only what one of them has sent to them.
-/
def Delivers
    (io : Interface S E M)
    (n : Nat)
    (g : Nat → S)
    (event : Nat × E) : Prop :=
  event.1 < n ∧
    ∀ msg, io.received event.2 = some msg →
      ∃ sender < n, (event.1, msg) ∈ io.outbox (g sender)

/- Executable form of the delivery condition. -/
def deliversCheck
    [DecidableEq M]
    (io : Interface S E M)
    (n : Nat)
    (g : Nat → S)
    (event : Nat × E) : Bool :=
  decide (event.1 < n) &&
    match io.received event.2 with
    | none => true
    | some msg =>
        (List.range n).any
          (fun sender =>
            (io.outbox (g sender)).contains (event.1, msg))

theorem delivers_of_deliversCheck
    [DecidableEq M]
    {io : Interface S E M}
    {n : Nat}
    {g : Nat → S}
    {event : Nat × E}
    (hCheck : deliversCheck io n g event = true) :
    Delivers io n g event := by
  simp only [deliversCheck, Bool.and_eq_true,
    decide_eq_true_eq] at hCheck
  refine ⟨hCheck.1, ?_⟩
  intro msg hReceived
  simpa [hReceived] using hCheck.2

theorem step_ok
    {machine : Machine S E F}
    {g g' : Nat → S}
    {i : Nat}
    {e : E}
    (hStep : step machine g (i, e) = .ok g') :
    ∃ s, machine (g i) e = .ok s ∧
      g' = Function.update g i s := by
  unfold step at hStep
  dsimp only at hStep
  cases hMachine : machine (g i) e with
  | error f => simp [hMachine] at hStep
  | ok s =>
      simp only [hMachine, Except.ok.injEq] at hStep
      exact ⟨s, rfl, hStep.symm⟩

/- What holds at each machine after one of them has moved. -/
theorem forall_update
    {n i : Nat}
    {g : Nat → S}
    {s : S}
    (P : Nat → S → Prop)
    (hSelf : P i s)
    (hOther : ∀ j, j < n → P j (g j)) :
    ∀ j, j < n → P j (Function.update g i s j) := by
  intro j hBound
  by_cases hEq : j = i
  · subst hEq
    rw [Function.update_self]
    exact hSelf
  · rw [Function.update_of_ne hEq]
    exact hOther j hBound

/- What holds at one machine after another may have moved. -/
theorem at_update
    {i k : Nat}
    {g : Nat → S}
    {s : S}
    (P : S → Prop)
    (hSelf : i = k → P s)
    (hOther : P (g k)) :
    P (Function.update g i s k) := by
  by_cases hEq : k = i
  · subst hEq
    rw [Function.update_self]
    exact hSelf rfl
  · rw [Function.update_of_ne hEq]
    exact hOther

/-
  A property of all machines together that every step of one
  of them preserves holds in every run of the network.
-/
theorem reach_invariant
    {machine : Machine S E F}
    {io : Interface S E M}
    {n : Nat}
    {start g : Nat → S}
    (Inv : (Nat → S) → Prop)
    (hReach :
      Machine.Reach (step machine) (Delivers io n) start g)
    (hStart : Inv start)
    (hStep :
      ∀ g i e s, Inv g → i < n →
        (∀ msg, io.received e = some msg →
          ∃ sender < n, (i, msg) ∈ io.outbox (g sender)) →
        machine (g i) e = .ok s →
        Inv (Function.update g i s)) :
    Inv g := by
  apply hReach.invariant Inv hStart
  rintro g g' ⟨i, e⟩ hInv ⟨hIndex, hSent⟩ hOk
  rcases step_ok hOk with ⟨s, hMachine, rfl⟩
  exact hStep g i e s hInv hIndex hSent hMachine

/-
  A run of the network is a run of each machine, under a
  guard that may use that all machines have had such runs.
-/
theorem reach_each
    {machine : Machine S E F}
    {guard : (Nat → S) → Nat × E → Prop}
    {allowed : S → E → Prop}
    {start g : Nat → S}
    (hReach :
      Machine.Reach (step machine) guard start g)
    (hGuard :
      ∀ g i e,
        (∀ j, Machine.Reach machine allowed (start j)
          (g j)) →
        guard g (i, e) → allowed (g i) e) :
    ∀ i, Machine.Reach machine allowed (start i) (g i) := by
  apply hReach.invariant
    (fun g => ∀ i, Machine.Reach machine allowed (start i)
      (g i))
  · intro i
    exact .start
  · rintro g g' ⟨i, e⟩ hEach hAllowed hOk j
    rcases step_ok hOk with ⟨s, hMachine, rfl⟩
    refine at_update
      (fun s => Machine.Reach machine allowed (start j) s)
      ?_ (hEach j)
    rintro rfl
    exact (hEach i).next (hGuard g i e hEach hAllowed)
      hMachine

end Network
