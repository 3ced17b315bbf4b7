import LibApollo.Mempool.Batches
import LibApollo.Mempool.Lifecycle

/-
  The round-robin batcher, which owns the pool.

  The batcher serves its timer, the transactions of clients
  and the messages of the consensus engine, in any order.
  `outgoing` lists the batches handed to the seal task.  A
  step first prepares, by one call on the pool or a new
  round, and then may make a batch.

  Key definitions include:
    * `RRBatcher`, `RRBatcher.new`
    * `RRBatcher.propose`, `RRBatcher.tryPropose`
    * `RRBatcher.step`
    * `RRBatcher.Prepares`, `RRBatcher.Makes`

  Key theorems include:
    * `RRBatcher.step_ok`
    * `RRBatcher.emission_discipline`
-/

------------------------------------------------------------
-- The Batcher
------------------------------------------------------------

namespace LibApollo

/-
  `listening` says that the seal task still receives what is
  sent to it.
-/
structure RRBatcher (Tx : Type) where
  myId : Replica
  currentLeader : Replica
  currentRound : Nat
  proposed : Bool
  pool : Txpool Tx
  outgoing : List (CachedBatch Tx)
  listening : Bool

namespace RRBatcher

structure Parameters where
  myId : Replica
  initialLeader : Replica
  batchSize : Nat

/- What ends the loop of a batcher. -/
inductive Stop where
| pool (panic : Txpool.Panic)
| txChannelClosed
| consensusChannelClosed
| batchChannelClosed
deriving DecidableEq, Repr

inductive Event (Tx : Type) where
| tick
| incomingTx (tx : Tx) (size : Nat)
| txClosed
| consensus (msg : BatcherConsensusMsg Tx)
| consensusClosed
| sealStops
deriving DecidableEq, Repr

variable {Tx : Type}

def new (params : Parameters) : RRBatcher Tx where
  myId := params.myId
  currentLeader := params.initialLeader
  currentRound := 0
  proposed := false
  pool := .new params.batchSize
  outgoing := []
  listening := true

def canPropose (b : RRBatcher Tx) : Bool :=
  b.myId = b.currentLeader && !b.proposed

/- Hand a batch to the seal task. -/
def propose
    (batch : CachedBatch Tx)
    (b : RRBatcher Tx) : Except Stop (RRBatcher Tx) :=
  if b.listening then
    .ok
      { b with
        proposed := true
        outgoing := b.outgoing ++ [batch] }
  else
    .error .batchChannelClosed

/- Make a batch, and propose it unless it is empty. -/
def makeAndPropose
    (b : RRBatcher Tx) : Except Stop (RRBatcher Tx) :=
  match b.pool.makeBatch b.currentRound with
  | .error panic => .error (.pool panic)
  | .ok (payload, pool) =>
      if payload.isEmpty then
        .ok { b with pool := pool }
      else
        propose ⟨payload⟩ { b with pool := pool }

def tryPropose
    (b : RRBatcher Tx) : Except Stop (RRBatcher Tx) :=
  if b.canPropose && b.pool.ready then makeAndPropose b
  else .ok b

/- A call on the pool. -/
def onPool
    (b : RRBatcher Tx)
    (result : Except Txpool.Panic (Txpool Tx)) :
    Except Stop (RRBatcher Tx) :=
  match result with
  | .error panic => .error (.pool panic)
  | .ok pool => .ok { b with pool := pool }

variable [MempoolTx Tx]

/- A message of the consensus engine. -/
def onConsensus
    (order : IterOrder)
    (b : RRBatcher Tx)
    (msg : BatcherConsensusMsg Tx) :
    Except Stop (RRBatcher Tx) :=
  match msg with
  | .newRound leader round =>
      tryPropose
        { b with
          currentLeader := leader
          currentRound := round
          proposed := false }
  | .proposed batch round =>
      onPool b (b.pool.admitProposal batch round)
  | .committed batch round =>
      onPool b (b.pool.commit order batch round)
  | .rollback rounds =>
      onPool b (b.pool.rollback order rounds)

/-
  One iteration of the loop of `run`.  The timer is served
  only when the batcher can propose.
-/
def step
    (order : IterOrder) :
    Machine (RRBatcher Tx) (Event Tx) Stop :=
  fun b event =>
    match event with
    | .tick =>
        if b.canPropose then makeAndPropose b else .ok b
    | .incomingTx tx size => do
        let added ← onPool b (b.pool.addTx tx size)
        if b.canPropose && added.pool.ready then
          makeAndPropose added
        else
          .ok added
    | .txClosed => .error .txChannelClosed
    | .consensus msg => onConsensus order b msg
    | .consensusClosed => .error .consensusChannelClosed
    | .sealStops => .ok { b with listening := false }

end RRBatcher

end LibApollo

------------------------------------------------------------
-- What a Step Does
------------------------------------------------------------

namespace LibApollo

namespace RRBatcher

open Txpool (keyOf)

variable {Tx : Type} [MempoolTx Tx]
variable {order : IterOrder}
variable {b b' : RRBatcher Tx}
variable {event : Event Tx}

/- The call on the pool that an event brings. -/
def call : Event Tx → Option (Txpool.Op Tx)
| .incomingTx tx size => some (.addTx tx size)
| .consensus (.proposed batch round) =>
    some (.admitProposal batch round)
| .consensus (.committed batch round) =>
    some (.commit batch round)
| .consensus (.rollback rounds) => some (.rollback rounds)
| _ => none

/- What happens before a batch may be made. -/
inductive Prepares
    (order : IterOrder)
    (b : RRBatcher Tx) :
    Event Tx → RRBatcher Tx → Prop where
| tick : Prepares order b .tick b
| sealStops :
    Prepares order b .sealStops { b with listening := false }
| call (event : Event Tx) (op : Txpool.Op Tx)
    (pool : Txpool Tx) :
    call event = some op →
      Txpool.step order b.pool op = .ok pool →
      Prepares order b event { b with pool := pool }
| newRound (leader : Replica) (round : Nat) :
    Prepares order b (.consensus (.newRound leader round))
      { b with
        currentLeader := leader
        currentRound := round
        proposed := false }

/- The batch that may be made: none, an empty one or one. -/
inductive Makes
    (b : RRBatcher Tx) : RRBatcher Tx → Prop where
| none : Makes b b
| empty (pool : Txpool Tx) :
    b.pool.makeBatch b.currentRound = .ok ([], pool) →
      Makes b { b with pool := pool }
| sent (payload : List Tx) (pool : Txpool Tx) :
    b.myId = b.currentLeader → b.proposed = false →
      payload ≠ [] →
      b.pool.makeBatch b.currentRound =
        .ok (payload, pool) →
      Makes b
        { b with
          pool := pool
          proposed := true
          outgoing := b.outgoing ++ [⟨payload⟩] }

omit [MempoolTx Tx] in
theorem makeAndPropose_ok
    (hCan : b.canPropose = true)
    (hMake : makeAndPropose b = .ok b') :
    Makes b b' := by
  simp only [canPropose, Bool.and_eq_true,
    decide_eq_true_eq, Bool.not_eq_true'] at hCan
  unfold makeAndPropose at hMake
  split at hMake
  · cases hMake
  · rename_i payload pool hBatch
    split at hMake
    · rename_i hEmpty
      cases hMake
      rw [List.isEmpty_iff.mp hEmpty] at hBatch
      exact .empty pool hBatch
    · rename_i hNonempty
      unfold propose at hMake
      split at hMake
      · cases hMake
        refine .sent payload pool hCan.1 hCan.2 ?_ hBatch
        intro hNil
        rw [hNil] at hNonempty
        exact hNonempty rfl
      · cases hMake

omit [MempoolTx Tx] in
theorem onPool_ok
    {result : Except Txpool.Panic (Txpool Tx)}
    (hCall : onPool b result = .ok b') :
    ∃ pool, result = .ok pool ∧
      b' = { b with pool := pool } := by
  unfold onPool at hCall
  split at hCall
  · cases hCall
  · rename_i pool
    cases hCall
    exact ⟨pool, rfl, rfl⟩

/-
  A step prepares and then may make a batch, the latter not
  after news about proposals, commits and rollbacks.
-/
theorem step_ok
    (hStep : step order b event = .ok b') :
    ∃ mid, Prepares order b event mid ∧ Makes mid b' ∧
      ∀ msg op, event = .consensus msg →
        call event = some op → b' = mid := by
  cases event with
  | tick =>
      simp only [step] at hStep
      split at hStep
      · rename_i hCan
        exact ⟨b, .tick, makeAndPropose_ok hCan hStep,
          fun _ _ hEvent => by cases hEvent⟩
      · cases hStep
        exact ⟨b, .tick, .none,
          fun _ _ hEvent => by cases hEvent⟩
  | incomingTx tx size =>
      rcases Result.bind_eq_ok.mp hStep with
        ⟨added, hAdd, hRest⟩
      rcases onPool_ok hAdd with ⟨pool, hPool, rfl⟩
      refine ⟨_, .call _ (.addTx tx size) pool rfl hPool,
        ?_, fun _ _ hEvent => by cases hEvent⟩
      split at hRest
      · rename_i hBoth
        have hCan := (Bool.and_eq_true_iff.mp hBoth).1
        exact makeAndPropose_ok hCan hRest
      · cases hRest
        exact .none
  | txClosed => cases hStep
  | consensus msg =>
      cases msg with
      | newRound leader round =>
          refine ⟨_, .newRound leader round, ?_,
            fun _ _ _ hCall => by cases hCall⟩
          change tryPropose _ = .ok b' at hStep
          unfold tryPropose at hStep
          split at hStep
          · rename_i hBoth
            have hCan := (Bool.and_eq_true_iff.mp hBoth).1
            exact makeAndPropose_ok hCan hStep
          · cases hStep
            exact .none
      | proposed batch round =>
          rcases onPool_ok hStep with ⟨pool, hPool, rfl⟩
          exact ⟨_,
            .call _ (.admitProposal batch round) pool rfl
              hPool, .none, fun _ _ _ _ => rfl⟩
      | committed batch round =>
          rcases onPool_ok hStep with ⟨pool, hPool, rfl⟩
          exact ⟨_,
            .call _ (.commit batch round) pool rfl hPool,
            .none, fun _ _ _ _ => rfl⟩
      | rollback rounds =>
          rcases onPool_ok hStep with ⟨pool, hPool, rfl⟩
          exact ⟨_,
            .call _ (.rollback rounds) pool rfl hPool,
            .none, fun _ _ _ _ => rfl⟩
  | consensusClosed => cases hStep
  | sealStops =>
      cases hStep
      exact ⟨_, .sealStops, .none,
        fun _ _ hEvent => by cases hEvent⟩

end RRBatcher

end LibApollo

------------------------------------------------------------
-- Invariants of a Batcher
------------------------------------------------------------

namespace LibApollo

namespace RRBatcher

open Txpool (keyOf RepInv Keyed Batches Moves)

variable {Tx : Type} [MempoolTx Tx]
variable {order : IterOrder}
variable {b b' : RRBatcher Tx}
variable {event : Event Tx}

/- The pool of a batcher in a run. -/
def PoolOk (b : RRBatcher Tx) : Prop :=
  RepInv b.pool ∧ Keyed b.pool

theorem poolOk_makeBatch
    {round : Nat}
    {payload : List Tx}
    {pool pool' : Txpool Tx}
    (hPool : RepInv pool ∧ Keyed pool)
    (hMake :
      pool.makeBatch round = .ok (payload, pool')) :
    (RepInv pool' ∧ Keyed pool') ∧
      Batches round payload pool pool' := by
  have hYields := hPool.1.makeBatch round
  rw [hMake] at hYields
  rcases Txpool.makeBatch_moves hPool.1 hPool.2 hMake with
    ⟨hKeyed, hBatches⟩
  exact ⟨⟨hYields, hKeyed⟩, hBatches⟩

theorem PoolOk.prepares
    (hPool : PoolOk b)
    (hPrepares : Prepares order b event b') :
    PoolOk b' := by
  cases hPrepares with
  | tick => exact hPool
  | sealStops => exact hPool
  | call _ op pool _ hStep =>
      exact ⟨Txpool.repInv_of_step hPool.1 hStep,
        (Txpool.moves_of_step hPool.1 hPool.2 hStep
          (0, 0)).1⟩
  | newRound leader round => exact hPool

theorem PoolOk.makes
    (hPool : PoolOk b)
    (hMakes : Makes b b') :
    PoolOk b' := by
  cases hMakes with
  | none => exact hPool
  | empty pool hMake => exact (poolOk_makeBatch hPool hMake).1
  | sent payload pool _ _ _ hMake =>
      exact (poolOk_makeBatch hPool hMake).1

theorem PoolOk.step
    (hPool : PoolOk b)
    (hStep : RRBatcher.step order b event = .ok b') :
    PoolOk b' := by
  rcases step_ok hStep with ⟨mid, hPrepares, hMakes, _⟩
  exact (hPool.prepares hPrepares).makes hMakes

theorem poolOk_new
    (params : Parameters) :
    PoolOk (new params : RRBatcher Tx) :=
  ⟨Txpool.repInv_new _, Txpool.keyed_new _⟩

/- How many batches may be sent before the next round. -/
def budget (b : RRBatcher Tx) : Nat :=
  if b.proposed then 0 else 1

omit [MempoolTx Tx] in
theorem Makes.budget_le
    (hMakes : Makes b b') :
    b'.outgoing.length + b'.budget ≤
      b.outgoing.length + b.budget := by
  cases hMakes with
  | none => exact Nat.le_refl _
  | empty pool _ => exact Nat.le_refl _
  | sent payload pool _ hFree _ _ =>
      simp [budget, hFree]

/- The event does not start a new round. -/
def SameRound
    (_ : RRBatcher Tx)
    (event : Event Tx) : Prop :=
  ∀ leader round,
    event ≠ .consensus (.newRound leader round)

theorem Prepares.budget_eq
    (hSame : SameRound b event)
    (hPrepares : Prepares order b event b') :
    b'.outgoing = b.outgoing ∧ b'.budget = b.budget := by
  cases hPrepares with
  | tick => exact ⟨rfl, rfl⟩
  | sealStops => exact ⟨rfl, rfl⟩
  | call => exact ⟨rfl, rfl⟩
  | newRound leader round => exact absurd rfl (hSame _ _)

/- Until the next round a batcher stays in its budget. -/
theorem budget_of_reach
    (hReach :
      Machine.Reach (step order) SameRound b b') :
    b'.outgoing.length + b'.budget ≤
      b.outgoing.length + b.budget := by
  apply hReach.invariant
    (fun now =>
      now.outgoing.length + now.budget ≤
        b.outgoing.length + b.budget)
  · exact Nat.le_refl _
  · intro now later event hNow hSame hStep
    rcases step_ok hStep with ⟨mid, hPrepares, hMakes, _⟩
    rcases hPrepares.budget_eq hSame with
      ⟨hOutgoing, hBudget⟩
    have hLater := hMakes.budget_le
    rw [hOutgoing, hBudget] at hLater
    exact Nat.le_trans hLater hNow

/- The step sends this batch to the seal task. -/
def Sends
    (b b' : RRBatcher Tx)
    (batch : CachedBatch Tx) : Prop :=
  b'.outgoing = b.outgoing ++ [batch]

omit [MempoolTx Tx] in
theorem not_sends_of_outgoing_eq
    {batch : CachedBatch Tx}
    (hSame : b'.outgoing = b.outgoing) :
    ¬ Sends b b' batch := by
  intro hSends
  rw [Sends, hSame] at hSends
  have hLength := congrArg List.length hSends
  simp at hLength

theorem Prepares.outgoing_eq
    (hPrepares : Prepares order b event b') :
    b'.outgoing = b.outgoing := by
  cases hPrepares with
  | tick => rfl
  | sealStops => rfl
  | call => rfl
  | newRound leader round => rfl

omit [MempoolTx Tx] in
theorem Makes.of_sends
    {batch : CachedBatch Tx}
    (hMakes : Makes b b')
    (hSends : Sends b b' batch) :
    b.myId = b.currentLeader ∧
      batch.payload ≠ [] ∧
      ∃ pool,
        b.pool.makeBatch b.currentRound =
            .ok (batch.payload, pool) ∧
          b' =
            { b with
              pool := pool
              proposed := true
              outgoing := b.outgoing ++ [batch] } := by
  cases hMakes with
  | none =>
      exact absurd hSends (not_sends_of_outgoing_eq rfl)
  | empty pool _ =>
      exact absurd hSends (not_sends_of_outgoing_eq rfl)
  | sent payload pool hLeads _ hNonempty hMake =>
      have hBatch : (⟨payload⟩ : CachedBatch Tx) = batch := by
        simpa [Sends] using hSends
      subst hBatch
      exact ⟨hLeads, hNonempty, pool, hMake, rfl⟩

/- Adding a transaction puts no key in flight. -/
theorem inFlight_addTx
    {tx : Tx}
    {size : Nat}
    {pool pool' : Txpool Tx}
    (hPool : RepInv pool ∧ Keyed pool)
    (hAdd : pool.addTx tx size = .ok pool')
    (key : TxKey)
    (round : Nat) :
    pool'.txState key = .inFlight round ↔
      pool.txState key = .inFlight round := by
  rcases Txpool.addTx_moves hPool.1 hPool.2 hAdd with
    ⟨_, _, _, hMoves⟩
  rcases hMoves key with hSame | ⟨_, _, hBefore, hAfter⟩
  · rw [hSame]
  · rw [hBefore, hAfter]
    simp

/-
  A step that sends a batch has prepared without putting a
  key in flight, and has then made the batch.
-/
theorem sends_cases
    {batch : CachedBatch Tx}
    (hPool : PoolOk b)
    (hStep : step order b event = .ok b')
    (hSends : Sends b b' batch) :
    ∃ pool,
      (RepInv pool ∧ Keyed pool) ∧
        (∀ key round,
          pool.txState key = .inFlight round ↔
            b.pool.txState key = .inFlight round) ∧
        b'.myId = b'.currentLeader ∧
        batch.payload ≠ [] ∧
        Batches b'.currentRound batch.payload pool
          b'.pool := by
  rcases step_ok hStep with ⟨mid, hPrepares, hMakes, hQuiet⟩
  have hMid := hPool.prepares hPrepares
  have hFrom : Sends mid b' batch := by
    rw [Sends, hPrepares.outgoing_eq]
    exact hSends
  have hFlight :
      ∀ key round,
        mid.pool.txState key = .inFlight round ↔
          b.pool.txState key = .inFlight round := by
    intro key round
    cases hPrepares with
    | tick => exact Iff.rfl
    | sealStops => exact Iff.rfl
    | newRound => exact Iff.rfl
    | call _ op pool hCall hOp =>
        cases event with
        | incomingTx tx size =>
            cases hCall
            exact inFlight_addTx hPool hOp key round
        | consensus msg =>
            -- no batch is made after such a message
            have hEq := hQuiet msg op rfl hCall
            rw [hEq] at hFrom
            exact absurd hFrom (not_sends_of_outgoing_eq rfl)
        | _ => cases hCall
  rcases hMakes.of_sends hFrom with
    ⟨hLeads, hNonempty, pool, hMake, rfl⟩
  exact ⟨mid.pool, hMid, hFlight, hLeads, hNonempty,
    (poolOk_makeBatch hMid hMake).2⟩

end RRBatcher

end LibApollo

------------------------------------------------------------
-- A Key in Two Batches
------------------------------------------------------------

namespace LibApollo

namespace RRBatcher

open Txpool (keyOf RepInv Keyed Batches)

variable {Tx : Type} [MempoolTx Tx]
variable {order : IterOrder}
variable {b b' : RRBatcher Tx}
variable {event : Event Tx}
variable {key : TxKey}
variable {round : Nat}

/- In flight at the round, or dropped as committed. -/
def Spent
    (round : Nat)
    (key : TxKey)
    (pool : Txpool Tx) : Prop :=
  pool.txState key = .inFlight round ∨
    (key.2 ≤ pool.hi key.1 ∧ pool.txState key = .unknown)

/- Only a rollback of the round makes the key mineable. -/
theorem Spent.step
    {pool pool' : Txpool Tx}
    {op : Txpool.Op Tx}
    (hPool : RepInv pool ∧ Keyed pool)
    (hSpent : Spent round key pool)
    (hOp :
      ∀ rounds, op = .rollback rounds → round ∉ rounds)
    (hStep : Txpool.step order pool op = .ok pool') :
    Spent round key pool' := by
  rcases Txpool.moves_of_step hPool.1 hPool.2 hStep key with
    ⟨_, hRaises, hMoves⟩
  have hLe := hRaises.le
  rcases hSpent with hFlight | ⟨hLow, hUnknown⟩
  · rw [hFlight] at hMoves
    cases hAfter : pool'.txState key with
    | inFlight r =>
        rw [hAfter] at hMoves
        cases hMoves with
        | stay => exact Or.inl hAfter
        | admission _ _ _ _ hIdle => exact absurd rfl (hIdle _)
    | mineable =>
        rw [hAfter] at hMoves
        cases hMoves with
        | restore rounds _ hMem _ =>
            exact absurd hMem (hOp rounds rfl)
    | unknown =>
        rw [hAfter] at hMoves
        cases hMoves with
        | settle _ _ _ hHigh => exact Or.inr ⟨hHigh, hAfter⟩
        | drop rounds _ hMem _ =>
            exact absurd hMem (hOp rounds rfl)
  · rw [hUnknown] at hMoves
    right
    refine ⟨Nat.le_trans hLow hLe, ?_⟩
    cases hAfter : pool'.txState key with
    | unknown => rfl
    | mineable =>
        rw [hAfter] at hMoves
        cases hMoves with
        | add _ _ _ hHigh =>
            exact absurd hHigh (Nat.not_lt.mpr hLow)
    | inFlight r =>
        rw [hAfter] at hMoves
        cases hMoves with
        | admission _ _ _ hHigh _ =>
            exact absurd hHigh (Nat.not_lt.mpr hLow)

omit [MempoolTx Tx] in
theorem Spent.not_mineable
    {pool : Txpool Tx}
    (hSpent : Spent round key pool) :
    pool.txState key ≠ .mineable := by
  intro hMine
  rcases hSpent with hFlight | ⟨_, hUnknown⟩
  · rw [hMine] at hFlight
    cases hFlight
  · rw [hMine] at hUnknown
    cases hUnknown

/- A batch takes mineable keys only. -/
theorem Spent.makeBatch
    {pool pool' : Txpool Tx}
    {other : Nat}
    {payload : List Tx}
    (hPool : RepInv pool ∧ Keyed pool)
    (hSpent : Spent round key pool)
    (hMake :
      pool.makeBatch other = .ok (payload, pool')) :
    key ∉ payload.map keyOf ∧ Spent round key pool' := by
  have hBatches := (poolOk_makeBatch hPool hMake).2
  have hNotIn : key ∉ payload.map keyOf := by
    intro hMem
    exact hSpent.not_mineable (hBatches.batched key hMem).1
  refine ⟨hNotIn, ?_⟩
  unfold Spent Txpool.hi
  rw [hBatches.others key hNotIn, hBatches.nonces]
  exact hSpent

/- The event rolls the round back. -/
def RollsBack (round : Nat) (event : Event Tx) : Prop :=
  ∃ rounds,
    event = .consensus (.rollback rounds) ∧ round ∈ rounds

/- A step that does not roll back leaves the key spent. -/
theorem Spent.batcherStep
    (hPool : PoolOk b)
    (hSpent : Spent round key b.pool)
    (hEvent : ¬ RollsBack round event)
    (hStep : RRBatcher.step order b event = .ok b') :
    Spent round key b'.pool ∧
      ∀ batch, Sends b b' batch →
        key ∉ batch.payload.map keyOf := by
  rcases step_ok hStep with ⟨mid, hPrepares, hMakes, _⟩
  have hMid := hPool.prepares hPrepares
  have hSpentMid : Spent round key mid.pool := by
    cases hPrepares with
    | tick => exact hSpent
    | sealStops => exact hSpent
    | newRound => exact hSpent
    | call _ op pool hCall hOp =>
        refine hSpent.step hPool ?_ hOp
        intro rounds hRollback hMem
        apply hEvent
        subst hRollback
        refine ⟨rounds, ?_, hMem⟩
        cases event with
        | consensus msg =>
            cases msg with
            | rollback rounds' =>
                cases hCall
                rfl
            | _ => cases hCall
        | _ => cases hCall
  have hOutgoing := hPrepares.outgoing_eq
  refine ⟨?_, ?_⟩
  · cases hMakes with
    | none => exact hSpentMid
    | empty pool hMake =>
        exact (hSpentMid.makeBatch hMid hMake).2
    | sent payload pool _ _ _ hMake =>
        exact (hSpentMid.makeBatch hMid hMake).2
  · intro batch hSends
    have hFrom : Sends mid b' batch := by
      rw [Sends, hOutgoing]
      exact hSends
    rcases hMakes.of_sends hFrom with
      ⟨_, _, pool, hMake, _⟩
    exact (hSpentMid.makeBatch hMid hMake).1

/- A sent key stays spent until its round is rolled back. -/
theorem spent_of_reach
    {later : RRBatcher Tx}
    (hPool : PoolOk b)
    (hSpent : Spent round key b.pool)
    (hReach :
      Machine.Reach (step order)
        (fun _ event => ¬ RollsBack round event) b later) :
    PoolOk later ∧ Spent round key later.pool := by
  apply hReach.invariant
    (fun now => PoolOk now ∧ Spent round key now.pool)
  · exact ⟨hPool, hSpent⟩
  · intro now next event hNow hEvent hStep
    exact ⟨hNow.1.step hStep,
      (hNow.2.batcherStep hNow.1 hEvent hStep).1⟩

end RRBatcher

end LibApollo

------------------------------------------------------------
-- Emission Discipline
------------------------------------------------------------

namespace LibApollo

namespace RRBatcher

open Txpool (keyOf)

variable {Tx : Type} [MempoolTx Tx]
variable {order : IterOrder}
variable {b b' : RRBatcher Tx}
variable {event : Event Tx}

/- Between two new rounds at most one batch is sent. -/
theorem outgoing_le_of_newRound
    {leader : Replica}
    {round : Nat}
    {later : RRBatcher Tx}
    (hStep :
      step order b (.consensus (.newRound leader round)) =
        .ok b')
    (hLater :
      Machine.Reach (step order) SameRound b' later) :
    later.outgoing.length ≤ b.outgoing.length + 1 := by
  have hBudget := budget_of_reach hLater
  rcases step_ok hStep with ⟨mid, hPrepares, hMakes, _⟩
  have hFirst := hMakes.budget_le
  cases hPrepares with
  | call _ op pool hCall _ => cases hCall
  | newRound =>
      change b'.outgoing.length + b'.budget ≤
        b.outgoing.length + 1 at hFirst
      omega

/- A step sends at most one batch. -/
theorem outgoing_eq_or_sends
    (hStep : step order b event = .ok b') :
    b'.outgoing = b.outgoing ∨
      ∃ batch, Sends b b' batch := by
  rcases step_ok hStep with ⟨mid, hPrepares, hMakes, _⟩
  rw [← hPrepares.outgoing_eq]
  cases hMakes with
  | none => exact Or.inl rfl
  | empty => exact Or.inl rfl
  | sent payload pool =>
      right
      refine ⟨⟨payload⟩, ?_⟩
      rw [Sends, hPrepares.outgoing_eq]

/- The keys of a batch are those that come in flight. -/
theorem mem_sent_iff
    {batch : CachedBatch Tx}
    (hPool : PoolOk b)
    (hStep : step order b event = .ok b')
    (hSends : Sends b b' batch)
    (key : TxKey) :
    key ∈ batch.payload.map keyOf ↔
      (∀ round, b.pool.txState key ≠ .inFlight round) ∧
        b'.pool.txState key =
          .inFlight b'.currentRound := by
  rcases sends_cases hPool hStep hSends with
    ⟨pool, _, hFlight, _, _, hBatches⟩
  constructor
  · intro hMem
    rcases hBatches.batched key hMem with
      ⟨hBefore, hAfter⟩
    refine ⟨?_, hAfter⟩
    intro round hRound
    rw [← hFlight, hBefore] at hRound
    cases hRound
  · intro hParts
    rcases hParts with ⟨hIdle, hAfter⟩
    by_contra hNotIn
    rw [hBatches.others key hNotIn] at hAfter
    exact hIdle _ ((hFlight key _).mp hAfter)

/- What is sent is above the committed nonces. -/
theorem hi_lt_of_sends
    {batch : CachedBatch Tx}
    (hPool : PoolOk b)
    (hStep : step order b event = .ok b')
    (hSends : Sends b b' batch)
    {tx : Tx}
    (hTx : tx ∈ batch.payload) :
    b'.pool.hi (MempoolTx.clientId tx) <
      MempoolTx.nonce tx := by
  rcases sends_cases hPool hStep hSends with
    ⟨pool, hMid, _, _, _, hBatches⟩
  have hBefore :=
    (hBatches.batched _ (List.mem_map_of_mem hTx)).1
  rcases Txpool.txState_eq_mineable hBefore with
    ⟨entry, hLookup, _⟩
  have hFresh :=
    hMid.1.fresh _ entry hLookup (Finset.notMem_empty _)
  rw [Txpool.hi, hBatches.nonces]
  exact hFresh

/- A spent key is not sent before a rollback. -/
theorem not_sent_of_spent
    {round : Nat}
    {key : TxKey}
    {mid later : RRBatcher Tx}
    {batch : CachedBatch Tx}
    (hPool : PoolOk b)
    (hSpent : Spent round key b.pool)
    (hLater :
      Machine.Reach (step order)
        (fun _ event => ¬ RollsBack round event) b mid)
    (hNext : step order mid event = .ok later)
    (hSends : Sends mid later batch) :
    key ∉ batch.payload.map keyOf := by
  rcases spent_of_reach hPool hSpent hLater with
    ⟨hPoolMid, hSpentMid⟩
  by_cases hRolls : RollsBack round event
  · -- a rollback makes no batch
    rcases hRolls with ⟨rounds, rfl, _⟩
    rcases step_ok hNext with
      ⟨prepared, hPrepares, _, hQuiet⟩
    rw [hQuiet _ _ rfl rfl] at hSends
    exact absurd hSends
      (not_sends_of_outgoing_eq hPrepares.outgoing_eq)
  · exact (hSpentMid.batcherStep hPoolMid hRolls
      hNext).2 batch hSends

/-
  In every run of a batcher: a step sends at most one batch,
  and at most one is sent before the first new round or
  between two of them; a batch is sent by the leader and is
  not empty; its keys are just those that have come in
  flight, at the current round and above the committed
  nonces; and a key is sent again only after a rollback of
  the round in which it was sent.
-/
theorem emission_discipline
    {params : Parameters}
    (hReach :
      Machine.Reach (step order) (fun _ _ => True)
        (new params) b) :
    (∀ later,
        Machine.Reach (step order) SameRound
            (new params : RRBatcher Tx) later →
          later.outgoing.length ≤ 1) ∧
      (∀ leader round b' later,
        step order b (.consensus (.newRound leader round)) =
            .ok b' →
          Machine.Reach (step order) SameRound b' later →
          later.outgoing.length ≤ b.outgoing.length + 1) ∧
      (∀ event b', step order b event = .ok b' →
        b'.outgoing = b.outgoing ∨
          ∃ batch, Sends b b' batch) ∧
      ∀ event b' batch,
        step order b event = .ok b' →
          Sends b b' batch →
          (b'.myId = b'.currentLeader ∧
            batch.payload ≠ []) ∧
          (∀ key,
            key ∈ batch.payload.map keyOf ↔
              (∀ round,
                b.pool.txState key ≠ .inFlight round) ∧
              b'.pool.txState key =
                .inFlight b'.currentRound) ∧
          (∀ tx ∈ batch.payload,
            b'.pool.hi (MempoolTx.clientId tx) <
              MempoolTx.nonce tx) ∧
          ∀ key ∈ batch.payload.map keyOf,
            ∀ mid event' later batch',
              Machine.Reach (step order)
                  (fun _ event =>
                    ¬ RollsBack b'.currentRound event)
                  b' mid →
                step order mid event' = .ok later →
                Sends mid later batch' →
                key ∉ batch'.payload.map keyOf := by
  have hPool : PoolOk b := by
    apply hReach.invariant PoolOk (poolOk_new params)
    intro now next event hNow _ hStep
    exact hNow.step hStep
  refine ⟨?_, ?_, ?_, ?_⟩
  · intro later hLater
    have hBudget := budget_of_reach hLater
    simp only [new, budget, List.length_nil] at hBudget
    change _ ≤ 0 + 1 at hBudget
    omega
  · intro leader round b' later hStep hLater
    exact outgoing_le_of_newRound hStep hLater
  · intro event b' hStep
    exact outgoing_eq_or_sends hStep
  · intro event b' batch hStep hSends
    rcases sends_cases hPool hStep hSends with
      ⟨_, _, _, hLeads, hNonempty, hBatches⟩
    refine ⟨⟨hLeads, hNonempty⟩, ?_, ?_, ?_⟩
    · exact mem_sent_iff hPool hStep hSends
    · intro tx hTx
      exact hi_lt_of_sends hPool hStep hSends hTx
    · intro key hMem mid event' later batch' hLater hNext
        hSends'
      have hSpent :
          Spent b'.currentRound key b'.pool :=
        Or.inl (hBatches.batched key hMem).2
      exact not_sent_of_spent (hPool.step hStep) hSpent
        hLater hNext hSends'

/- The first leader, with batches of ten bytes. -/
def firstLeader : Parameters where
  myId := 0
  initialLeader := 0
  batchSize := 10

/- A client's transaction comes in and a round is entered. -/
def oneTransaction : List (Event Transaction) :=
  [.incomingTx (Txpool.transaction 1 5) 4,
    .consensus (.newRound 0 1)]

def sendsCheck (b : RRBatcher Transaction) : Bool :=
  match step Txpool.sortedOrder b .tick with
  | .ok b' =>
      decide
        (b'.outgoing =
          b.outgoing ++ [⟨[Txpool.transaction 1 5]⟩])
  | .error _ => false

/- The timer sends the transaction, in round 1. -/
theorem emission_discipline_tick :
    ∃ b b' : RRBatcher Transaction,
      Machine.Reach (step Txpool.sortedOrder)
          (fun _ _ => True) (new firstLeader) b ∧
        step Txpool.sortedOrder b .tick = .ok b' ∧
        Sends b b' ⟨[Txpool.transaction 1 5]⟩ ∧
        b'.pool.txState (1, 5) =
          .inFlight b'.currentRound ∧
        ∀ mid event' later batch',
          Machine.Reach (step Txpool.sortedOrder)
              (fun _ event =>
                ¬ RollsBack b'.currentRound event)
              b' mid →
            step Txpool.sortedOrder mid event' =
              .ok later →
            Sends mid later batch' →
            (1, 5) ∉ batch'.payload.map keyOf := by
  have hRun :
      Machine.runCheck (step Txpool.sortedOrder)
        (fun _ _ => true) sendsCheck
        (new firstLeader) oneTransaction = true := by
    decide +kernel
  rcases Machine.Reach.of_runCheck
      (fun _ _ _ => trivial) hRun with
    ⟨b, hReach, hFinal⟩
  unfold sendsCheck at hFinal
  split at hFinal
  · rename_i b' hStep
    have hSends := of_decide_eq_true hFinal
    rcases emission_discipline hReach with
      ⟨_, _, _, hSent⟩
    rcases hSent _ _ _ hStep hSends with
      ⟨_, hKeys, _, hAgain⟩
    have hMem :
        ((1, 5) : TxKey) ∈
          [Txpool.transaction 1 5].map keyOf :=
      List.mem_singleton_self _
    exact ⟨b, b', hReach, hStep, hSends,
      ((hKeys _).mp hMem).2, hAgain _ hMem⟩
  · cases hFinal

end RRBatcher

end LibApollo
