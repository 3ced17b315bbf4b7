import LibApollo.Base.FiniteMap
import LibApollo.Mempool.Batches
import LibApollo.Types.Symbolic

/-
  Confirmations to clients: the listener that takes in their
  transactions, and the router that answers them.

  The listener tells the router where to answer for every
  transaction, and consensus sends it the batches it has
  committed.  The two channels are independent, so that the
  router may take what they hold in any order.  A history is
  what it has taken until now, and its effect on one hash is
  that of a cell which keeps one address at a time.

  Key definitions include:
    * `ClientMsg`, `ClientListener.receive`
    * `ConfirmationRouter`, `ConfirmationRouter.run`
    * `Cell`, `history`
    * `Orderly`

  Key theorems include:
    * `ConfirmationRouter.cell_run`
    * `ConfirmationRouter.answered_once_iff`
-/

------------------------------------------------------------
-- The Client Listener
------------------------------------------------------------

namespace LibApollo

/- Messages between clients with addresses in `A` and nodes. -/
inductive ClientMsg (H A : Type) where
| newTx (tx : Transaction) (replyTo : A)
| newBatch (batch : List Transaction) (replyTo : A)
| confirmation (hash : H)
deriving DecidableEq, Repr

/-
  What the listener has sent on its two channels.  It stops
  when the batcher no longer receives.
-/
structure ClientListener (H A : Type) where
  toRouter : List (H × A)
  toBatcher : List (Transaction × Nat)
  batcherOpen : Bool
  running : Bool

namespace ClientListener

variable {H A : Type} [Crypto H]

omit [Crypto H] in
def new : ClientListener H A where
  toRouter := []
  toBatcher := []
  batcherOpen := true
  running := true

/- The router is told first, then the batcher. -/
def submit
    (serializedSize : Transaction → Nat)
    (replyTo : A)
    (listener : ClientListener H A)
    (tx : Transaction) : ClientListener H A :=
  if listener.running then
    let told :=
      { listener with
        toRouter :=
          listener.toRouter ++
            [(Crypto.txHash tx, replyTo)] }
    if told.batcherOpen then
      { told with
        toBatcher :=
          told.toBatcher ++ [(tx, serializedSize tx)] }
    else
      { told with running := false }
  else
    listener

/- A message, or `none` for one that does not decode. -/
def receive
    (serializedSize : Transaction → Nat)
    (listener : ClientListener H A) :
    Option (ClientMsg H A) → ClientListener H A
| some (.newBatch batch replyTo) =>
    batch.foldl (submit serializedSize replyTo) listener
| some (.newTx tx replyTo) =>
    submit serializedSize replyTo listener tx
| some (.confirmation _) => listener
| none => listener

variable {serializedSize : Transaction → Nat}
variable {listener : ClientListener H A}

theorem submit_eq
    (hRunning : listener.running = true)
    (hOpen : listener.batcherOpen = true)
    (replyTo : A)
    (tx : Transaction) :
    submit serializedSize replyTo listener tx =
      { listener with
        toRouter :=
          listener.toRouter ++
            [(Crypto.txHash tx, replyTo)]
        toBatcher :=
          listener.toBatcher ++
            [(tx, serializedSize tx)] } := by
  unfold submit
  rw [if_pos hRunning]
  exact if_pos hOpen

theorem foldl_submit_eq
    (hRunning : listener.running = true)
    (hOpen : listener.batcherOpen = true)
    (replyTo : A)
    (batch : List Transaction) :
    batch.foldl (submit serializedSize replyTo) listener =
      { listener with
        toRouter :=
          listener.toRouter ++
            batch.map (fun tx => (Crypto.txHash tx, replyTo))
        toBatcher :=
          listener.toBatcher ++
            batch.map (fun tx => (tx, serializedSize tx)) } := by
  induction batch generalizing listener with
  | nil => simp
  | cons tx batch ih =>
      rw [List.foldl_cons, submit_eq hRunning hOpen]
      refine (ih ?_ ?_).trans ?_
      · exact hRunning
      · exact hOpen
      · simp

end ClientListener

end LibApollo

------------------------------------------------------------
-- The Confirmation Router
------------------------------------------------------------

namespace LibApollo

/-
  `pending` has the address to answer for a hash, `peers`
  the addresses the reply sender is connected to, and `sent`
  the confirmations that have been sent.
-/
structure ConfirmationRouter (H A : Type) where
  pending : FinMap H A
  peers : Finset A
  sent : List (A × H)

namespace ConfirmationRouter

variable {H A : Type} [DecidableEq H] [DecidableEq A]
variable [Crypto H]

/- What the router takes from one of its channels. -/
inductive Event (H A : Type) where
| register (hash : H) (addr : A)
| committed (batch : Batch)
deriving DecidableEq, Repr

omit [DecidableEq H] [DecidableEq A] [Crypto H] in
def new : ConfirmationRouter H A where
  pending := ∅
  peers := ∅
  sent := []

/- Answer for one transaction of a committed batch. -/
def confirm
    (router : ConfirmationRouter H A)
    (tx : Transaction) : ConfirmationRouter H A :=
  let txHash := Crypto.txHash tx
  match router.pending.lookup txHash with
  | none => router
  | some addr =>
      { pending := router.pending.erase txHash
        peers :=
          if addr ∈ router.peers then router.peers
          else insert addr router.peers
        sent := router.sent ++ [(addr, txHash)] }

/- One iteration of the loop of the router. -/
def handle
    (router : ConfirmationRouter H A) :
    Event H A → ConfirmationRouter H A
| .register txHash addr =>
    { router with
      pending := router.pending.insert txHash addr }
| .committed batch => batch.payload.foldl confirm router

/- The router after what it has taken so far. -/
def run (events : List (Event H A)) :
    ConfirmationRouter H A :=
  events.foldl handle new

omit [DecidableEq A] in
/- A transaction with this hash has been committed. -/
def Committed
    (events : List (Event H A))
    (hash : H) : Prop :=
  ∃ batch, .committed batch ∈ events ∧
    ∃ tx ∈ batch.payload, Crypto.txHash tx = hash

/- A pair that is due has been answered once. -/
def AnsweredOnce
    (events : List (Event H A))
    (hash : H)
    (addr : A) : Prop :=
  .register hash addr ∈ events →
    Committed events hash →
    (run events).sent.count (addr, hash) = 1

end ConfirmationRouter

end LibApollo

------------------------------------------------------------
-- The Cell of a Hash
------------------------------------------------------------

namespace LibApollo

/- What the router takes that concerns one hash. -/
inductive Notice (A : Type) where
| registered (addr : A)
| committed
deriving DecidableEq, Repr

/- The address to answer, and the addresses answered. -/
structure Cell (A : Type) where
  pending : Option A
  answered : List A

namespace Cell

variable {A : Type}

def step (cell : Cell A) : Notice A → Cell A
| .registered addr => { cell with pending := some addr }
| .committed =>
    match cell.pending with
    | none => cell
    | some addr =>
        { pending := none
          answered := cell.answered ++ [addr] }

def run (notices : List (Notice A)) : Cell A :=
  notices.foldl step { pending := none, answered := [] }

theorem run_append
    (notices more : List (Notice A)) :
    run (notices ++ more) = more.foldl step (run notices) :=
  List.foldl_append

/- Further commits find nothing to answer. -/
theorem foldl_step_committed
    (cell : Cell A)
    (n : Nat) :
    (List.replicate (n + 1) Notice.committed).foldl step
        cell =
      cell.step .committed := by
  induction n with
  | zero => rfl
  | succ n ih =>
      rw [List.replicate_succ', List.foldl_append, ih]
      cases hPending : cell.pending with
      | none => simp [step, hPending]
      | some addr => simp [step, hPending]

theorem foldl_step_registered
    (cell : Cell A)
    (addr : A)
    (n : Nat) :
    (List.replicate (n + 1)
        (Notice.registered addr)).foldl step cell =
      { cell with pending := some addr } := by
  induction n with
  | zero => rfl
  | succ n ih =>
      rw [List.replicate_succ', List.foldl_append, ih]
      rfl

/- Without a commit nothing is answered. -/
theorem run_answered_nil
    {notices : List (Notice A)}
    (hNone : .committed ∉ notices) :
    (run notices).answered = [] := by
  induction notices using List.reverseRecOn with
  | nil => rfl
  | append_singleton notices notice ih =>
      rw [List.mem_append, not_or] at hNone
      rw [run_append, List.foldl_cons, List.foldl_nil]
      cases notice with
      | registered addr => exact ih hNone.1
      | committed =>
          exact absurd (List.mem_singleton_self _) hNone.2

/- Without a registration there is nothing to answer. -/
theorem run_eq_of_unregistered
    {notices : List (Notice A)}
    (hNone : ∀ addr, .registered addr ∉ notices) :
    run notices = { pending := none, answered := [] } := by
  induction notices using List.reverseRecOn with
  | nil => rfl
  | append_singleton notices notice ih =>
      have hEarlier :
          ∀ addr, .registered addr ∉ notices := by
        intro addr hMem
        exact hNone addr (List.mem_append_left _ hMem)
      rw [run_append, ih hEarlier]
      cases notice with
      | registered addr =>
          exact absurd (List.mem_append_right _
            (List.mem_singleton_self _)) (hNone addr)
      | committed => rfl

end Cell

namespace ConfirmationRouter

variable {H A : Type} [DecidableEq H] [DecidableEq A]
variable [Crypto H]
variable {events : List (Event H A)}
variable {hash : H}
variable {addr : A}

omit [DecidableEq A] in
def notices
    (hash : H) : Event H A → List (Notice A)
| .register other addr =>
    if other = hash then [.registered addr] else []
| .committed batch =>
    List.replicate
      (batch.payload.countP
        (fun tx => Crypto.txHash tx = hash)) .committed

omit [DecidableEq A] in
/- What a history says about one hash. -/
def history
    (hash : H)
    (events : List (Event H A)) : List (Notice A) :=
  events.flatMap (notices hash)

omit [DecidableEq A] [Crypto H] in
/- What the router holds and has sent for one hash. -/
def cell
    (router : ConfirmationRouter H A)
    (hash : H) : Cell A where
  pending := router.pending.lookup hash
  answered :=
    (router.sent.filter (fun x => x.2 = hash)).map Prod.fst

theorem cell_confirm
    (router : ConfirmationRouter H A)
    (tx : Transaction)
    (hash : H) :
    (router.confirm tx).cell hash =
      if Crypto.txHash tx = hash then
        (router.cell hash).step .committed
      else
        router.cell hash := by
  unfold confirm
  dsimp only
  by_cases hSame : Crypto.txHash tx = hash
  · subst hSame
    rw [if_pos rfl]
    cases hFound :
        router.pending.lookup (Crypto.txHash tx) with
    | none => simp [cell, Cell.step, hFound]
    | some addr => simp [cell, Cell.step, hFound]
  · rw [if_neg hSame]
    cases router.pending.lookup (Crypto.txHash tx) with
    | none => rfl
    | some addr =>
        simp [cell, hSame, Ne.symm hSame]

theorem cell_foldl_confirm
    (router : ConfirmationRouter H A)
    (payload : List Transaction)
    (hash : H) :
    (payload.foldl confirm router).cell hash =
      (List.replicate
        (payload.countP (fun tx => Crypto.txHash tx = hash))
        Notice.committed).foldl Cell.step
          (router.cell hash) := by
  induction payload generalizing router with
  | nil => rfl
  | cons tx payload ih =>
      rw [List.foldl_cons, ih, cell_confirm,
        List.countP_cons]
      split
      · rename_i hSame
        rw [if_pos (decide_eq_true hSame),
          List.replicate_succ, List.foldl_cons]
      · rename_i hOther
        rw [if_neg (by simpa using hOther)]
        rfl

theorem cell_handle
    (router : ConfirmationRouter H A)
    (event : Event H A)
    (hash : H) :
    (router.handle event).cell hash =
      (notices hash event).foldl Cell.step
        (router.cell hash) := by
  cases event with
  | register other addr =>
      by_cases hSame : other = hash
      · subst hSame
        simp [handle, notices, cell, Cell.step]
      · simp [handle, notices, cell, hSame, Ne.symm hSame]
  | committed batch =>
      exact cell_foldl_confirm router batch.payload hash

/- The router works on each hash as on a cell. -/
theorem cell_run
    (events : List (Event H A))
    (hash : H) :
    (run events).cell hash =
      Cell.run (history hash events) := by
  induction events using List.reverseRecOn with
  | nil => rfl
  | append_singleton events event ih =>
      have hRun :
          run (events ++ [event]) =
            (run events).handle event := by
        unfold run
        rw [List.foldl_append]
        rfl
      have hHistory :
          history hash (events ++ [event]) =
            history hash events ++ notices hash event := by
        simp [history]
      rw [hRun, cell_handle, ih, hHistory, Cell.run_append]

omit [DecidableEq H] [Crypto H] in
theorem count_map_fst
    [DecidableEq H]
    (sent : List (A × H))
    (hash : H)
    (addr : A) :
    sent.count (addr, hash) =
      ((sent.filter (fun x => x.2 = hash)).map
        Prod.fst).count addr := by
  induction sent with
  | nil => rfl
  | cons x sent ih =>
      rcases x with ⟨other, otherHash⟩
      by_cases hSame : otherHash = hash
      · subst hSame
        by_cases hAddr : other = addr
        · subst hAddr
          simp [ih]
        · simp [ih, hAddr]
      · simp [ih, hSame]

omit [DecidableEq A] in
theorem registered_mem_history :
    .registered addr ∈ history hash events ↔
      .register hash addr ∈ events := by
  unfold history
  rw [List.mem_flatMap]
  constructor
  · intro hMem
    rcases hMem with ⟨event, hEvent, hNotice⟩
    cases event with
    | register other addr' =>
        dsimp only [notices] at hNotice
        split at hNotice
        · rename_i hSame
          cases List.mem_singleton.mp hNotice
          rwa [hSame] at hEvent
        · exact absurd hNotice List.not_mem_nil
    | committed batch =>
        cases (List.mem_replicate.mp hNotice).2
  · intro hMem
    refine ⟨_, hMem, ?_⟩
    simp [notices]

omit [DecidableEq A] in
theorem committed_mem_history :
    .committed ∈ history hash events ↔
      Committed events hash := by
  unfold history Committed
  rw [List.mem_flatMap]
  constructor
  · intro hMem
    rcases hMem with ⟨event, hEvent, hNotice⟩
    cases event with
    | register other addr' =>
        dsimp only [notices] at hNotice
        split at hNotice
        · cases List.mem_singleton.mp hNotice
        · exact absurd hNotice List.not_mem_nil
    | committed batch =>
        refine ⟨batch, hEvent, ?_⟩
        have hPos := (List.mem_replicate.mp hNotice).1
        rcases List.countP_pos_iff.mp
            (Nat.pos_of_ne_zero hPos) with ⟨tx, hTx, hHash⟩
        exact ⟨tx, hTx, of_decide_eq_true hHash⟩
  · intro hMem
    rcases hMem with ⟨batch, hEvent, tx, hTx, hHash⟩
    refine ⟨_, hEvent, List.mem_replicate.mpr ⟨?_, rfl⟩⟩
    apply Nat.ne_of_gt
    exact List.countP_pos_iff.mpr
      ⟨tx, hTx, decide_eq_true hHash⟩

/- A pair is answered once, read off its cell. -/
theorem answeredOnce_iff :
    AnsweredOnce events hash addr ↔
      (.registered addr ∈ history hash events →
        .committed ∈ history hash events →
        (Cell.run (history hash events)).answered.count
          addr = 1) := by
  unfold AnsweredOnce
  rw [registered_mem_history, committed_mem_history,
    ← cell_run, count_map_fst]
  rfl

end ConfirmationRouter

end LibApollo

------------------------------------------------------------
-- Orderly Histories
------------------------------------------------------------

namespace LibApollo

variable {A : Type}

/- Registrations, commits and again registrations. -/
def served
    (addr : A)
    (first more later : Nat) : List (Notice A) :=
  List.replicate (first + 1) (.registered addr) ++
    List.replicate (more + 1) .committed ++
    List.replicate later (.registered addr)

/-
  A hash that is registered and committed is registered for
  one address only, first before any commit, and not
  committed again after a later registration.
-/
def Orderly (notices : List (Notice A)) : Prop :=
  (∃ addr, .registered addr ∈ notices) →
    .committed ∈ notices →
    ∃ addr first more later,
      notices = served addr first more later

theorem served_succ
    (addr : A)
    (first more later : Nat) :
    served addr first more (later + 1) =
      served addr first more later ++
        [.registered addr] := by
  unfold served
  rw [List.append_assoc _ _ [_], ← List.replicate_succ']

theorem served_zero_append
    (addr : A)
    (first more n : Nat) :
    served addr first more 0 ++
        List.replicate n .committed =
      served addr first (more + n) 0 := by
  unfold served
  rw [List.replicate_zero, List.append_nil, List.append_nil,
    List.append_assoc, List.replicate_append_replicate]
  congr 2
  omega

theorem registered_mem_served
    {addr other : A}
    {first more later : Nat} :
    .registered other ∈ served addr first more later ↔
      other = addr := by
  simp [served]

theorem Cell.run_served
    (addr : A)
    (first more later : Nat) :
    Cell.run (served addr first more later) =
      { pending := if later = 0 then none else some addr
        answered := [addr] } := by
  have hAnswered :
      Cell.run
          (List.replicate (first + 1)
            (Notice.registered addr) ++
            List.replicate (more + 1) .committed) =
        { pending := none, answered := [addr] } := by
    rw [Cell.run_append, Cell.foldl_step_committed,
      Cell.run, Cell.foldl_step_registered]
    rfl
  unfold served
  rw [Cell.run_append, hAnswered]
  cases later with
  | zero => rfl
  | succ later => exact Cell.foldl_step_registered _ _ _

/- What an orderly history leaves out at its end. -/
theorem Orderly.of_snoc
    {notices : List (Notice A)}
    {notice : Notice A}
    (hOrderly : Orderly (notices ++ [notice])) :
    Orderly notices := by
  intro hRegistered hCommitted
  rcases hRegistered with ⟨other, hOther⟩
  rcases hOrderly
      ⟨other, List.mem_append_left _ hOther⟩
      (List.mem_append_left _ hCommitted) with
    ⟨addr, first, more, later, hEq⟩
  cases later with
  | succ later =>
      rw [served_succ] at hEq
      exact ⟨addr, first, more, later,
        (List.append_inj' hEq rfl).1⟩
  | zero =>
      cases more with
      | succ more =>
          rw [← served_zero_append addr first more 1] at hEq
          exact ⟨addr, first, more, 0,
            (List.append_inj' hEq rfl).1⟩
      | zero =>
          -- the only commit is the one that is left out
          have hSplit :
              served addr first 0 0 =
                List.replicate (first + 1)
                  (Notice.registered addr) ++
                  [.committed] := by
            simp [served]
          rw [hSplit] at hEq
          rw [(List.append_inj' hEq rfl).1] at hCommitted
          simp at hCommitted

theorem Orderly.of_append
    {notices more : List (Notice A)}
    (hOrderly : Orderly (notices ++ more)) :
    Orderly notices := by
  induction more using List.reverseRecOn with
  | nil => rwa [List.append_nil] at hOrderly
  | append_singleton more notice ih =>
      rw [← List.append_assoc] at hOrderly
      exact ih hOrderly.of_snoc

variable [DecidableEq A]

/- In an orderly history the address is answered once. -/
theorem Orderly.answered
    {notices : List (Notice A)}
    {addr : A}
    (hOrderly : Orderly notices)
    (hRegistered : .registered addr ∈ notices)
    (hCommitted : .committed ∈ notices) :
    (Cell.run notices).answered.count addr = 1 := by
  rcases hOrderly ⟨addr, hRegistered⟩ hCommitted with
    ⟨other, first, more, later, rfl⟩
  rw [registered_mem_served.mp hRegistered,
    Cell.run_served]
  exact List.count_singleton_self

/- A registration after which all are answered once. -/
theorem Orderly.register
    {notices : List (Notice A)}
    {addr : A}
    (hOrderly : Orderly notices)
    (hOnce :
      .committed ∈ notices →
        (Cell.run
          (notices ++
            [.registered addr])).answered.count addr = 1) :
    Orderly (notices ++ [.registered addr]) := by
  intro _ hCommitted
  have hBefore : .committed ∈ notices := by
    simpa using hCommitted
  have hCount := hOnce hBefore
  rw [Cell.run_append] at hCount
  change (Cell.run notices).answered.count addr = 1 at hCount
  by_cases hRegistered :
      ∃ other, .registered other ∈ notices
  · rcases hOrderly hRegistered hBefore with
      ⟨other, first, more, later, rfl⟩
    rw [Cell.run_served] at hCount
    have hSame : addr = other := by
      have hMem : addr ∈ [other] := by
        apply List.count_pos_iff.mp
        rw [hCount]
        exact Nat.one_pos
      exact List.mem_singleton.mp hMem
    rw [hSame]
    exact ⟨other, first, more, later + 1,
      (served_succ other first more later).symm⟩
  · rw [Cell.run_eq_of_unregistered
      (fun other hMem => hRegistered ⟨other, hMem⟩)]
      at hCount
    cases hCount

/- A commit after which all are answered once. -/
theorem Orderly.commit
    {notices : List (Notice A)}
    {n : Nat}
    (hOrderly : Orderly notices)
    (hOnce :
      ∀ addr, .registered addr ∈ notices →
        (Cell.run
          (notices ++
            List.replicate (n + 1)
              .committed)).answered.count addr = 1) :
    Orderly
      (notices ++ List.replicate (n + 1) .committed) := by
  intro hRegistered _
  rcases hRegistered with ⟨addr, hAddr⟩
  have hBefore : .registered addr ∈ notices := by
    simpa using hAddr
  rw [Cell.run_append, Cell.foldl_step_committed] at hOnce
  by_cases hCommitted : .committed ∈ notices
  · rcases hOrderly ⟨addr, hBefore⟩ hCommitted with
      ⟨other, first, more, later, rfl⟩
    cases later with
    | zero =>
        exact ⟨other, first, more + (n + 1), 0,
          served_zero_append other first more (n + 1)⟩
    | succ later =>
        -- the later registration is answered again
        have hCount :=
          hOnce other (registered_mem_served.mpr rfl)
        rw [Cell.run_served] at hCount
        simp [Cell.step] at hCount
  · have hNone := Cell.run_answered_nil hCommitted
    have hPending :
        ∀ other, .registered other ∈ notices →
          (Cell.run notices).pending = some other := by
      intro other hOther
      have hCount := hOnce other hOther
      cases hEq : (Cell.run notices).pending with
      | none =>
          simp [Cell.step, hEq, hNone] at hCount
      | some found =>
          simp only [Cell.step, hEq, hNone,
            List.nil_append, List.count_singleton] at hCount
          split at hCount
          · rename_i hSame
            rw [eq_of_beq hSame]
          · cases hCount
    have hAll :
        ∀ notice ∈ notices, notice = .registered addr := by
      intro notice hNotice
      cases notice with
      | registered other =>
          have hSame :=
            (hPending other hNotice).symm.trans
              (hPending addr hBefore)
          rw [Option.some.inj hSame]
      | committed => exact absurd hNotice hCommitted
    rcases Nat.exists_eq_succ_of_ne_zero
        (Nat.ne_of_gt (List.length_pos_of_mem hBefore)) with
      ⟨first, hLength⟩
    refine ⟨addr, first, n, 0, ?_⟩
    rw [List.eq_replicate_of_mem hAll, hLength]
    simp [served]

end LibApollo

------------------------------------------------------------
-- Prompt Confirmations
------------------------------------------------------------

namespace LibApollo

namespace ConfirmationRouter

variable {H A : Type} [DecidableEq H] [DecidableEq A]
variable [Crypto H]

omit [DecidableEq A] in
theorem history_append
    (hash : H)
    (events more : List (Event H A)) :
    history hash (events ++ more) =
      history hash events ++ history hash more :=
  List.flatMap_append

/- A history whose pairs are answered once is orderly. -/
theorem orderly_of_answeredOnce
    {events : List (Event H A)}
    {hash : H}
    (hOnce :
      ∀ before, before <+: events →
        ∀ addr, AnsweredOnce before hash addr) :
    Orderly (history hash events) := by
  induction events using List.reverseRecOn with
  | nil =>
      intro _ hCommitted
      exact absurd hCommitted List.not_mem_nil
  | append_singleton events event ih =>
      have hEarlier : Orderly (history hash events) := by
        apply ih
        intro before hBefore
        exact hOnce before
          (hBefore.trans (List.prefix_append _ _))
      have hNow :
          ∀ addr, AnsweredOnce (events ++ [event]) hash
            addr :=
        hOnce _ (List.prefix_refl _)
      have hHistory :
          history hash (events ++ [event]) =
            history hash events ++ notices hash event := by
        rw [history_append]
        simp [history]
      simp only [answeredOnce_iff, hHistory] at hNow
      rw [hHistory]
      cases event with
      | register other addr =>
          by_cases hSame : other = hash
          · simp only [notices, if_pos hSame] at hNow ⊢
            apply hEarlier.register
            intro hCommitted
            apply hNow
            · simp
            · exact List.mem_append_left _ hCommitted
          · simp only [notices, if_neg hSame]
            rwa [List.append_nil]
      | committed batch =>
          dsimp only [notices] at hNow ⊢
          cases hCount :
              batch.payload.countP
                (fun tx => Crypto.txHash tx = hash) with
          | zero =>
              rw [List.replicate_zero, List.append_nil]
              exact hEarlier
          | succ n =>
              rw [hCount] at hNow
              apply hEarlier.commit
              intro addr hRegistered
              apply hNow
              · exact List.mem_append_left _ hRegistered
              · simp

/-
  At all times every registered pair with a committed
  transaction has been answered once, exactly when the
  history is orderly for every hash.
-/
theorem answered_once_iff
    (events : List (Event H A)) :
    (∀ before, before <+: events →
      ∀ hash addr, AnsweredOnce before hash addr) ↔
      ∀ hash, Orderly (history hash events) := by
  constructor
  · intro hOnce hash
    apply orderly_of_answeredOnce
    intro before hBefore addr
    exact hOnce before hBefore hash addr
  · intro hOrderly before hBefore hash addr
    rcases hBefore with ⟨more, rfl⟩
    have hPart := hOrderly hash
    rw [history_append] at hPart
    rw [answeredOnce_iff]
    exact hPart.of_append.answered

/- A transaction of a client, and the batch with it. -/
def sampleTx : Transaction where
  clientId := 1
  nonce := 1
  data := []
  request := []

def sampleBatch : Batch :=
  ⟨[sampleTx]⟩

/-
  A node commits the transaction in the batch of another
  leader before it gets the client's own copy.
-/
def lateEvents : List (Event Digest Nat) :=
  [.committed sampleBatch,
    .register (Crypto.txHash sampleTx) 7]

theorem late_registration_unanswered :
    (ClientListener.receive (fun _ => 0)
        (ClientListener.new : ClientListener Digest Nat)
        (some (.newTx sampleTx 7))).toRouter =
      [(Crypto.txHash sampleTx, 7)] ∧
      (run lateEvents).sent = [] ∧
      ¬ ∀ before, before <+: lateEvents →
        ∀ hash addr, AnsweredOnce before hash addr := by
  refine ⟨by decide +kernel, by decide +kernel, ?_⟩
  intro hOnce
  have hCount :=
    hOnce lateEvents (List.prefix_refl _)
      (Crypto.txHash sampleTx) 7 (by simp [lateEvents])
      ⟨sampleBatch, by simp [lateEvents], sampleTx,
        by simp [sampleBatch], rfl⟩
  revert hCount
  decide +kernel

end ConfirmationRouter

end LibApollo
