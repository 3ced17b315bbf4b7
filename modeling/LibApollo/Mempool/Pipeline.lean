import LibApollo.Mempool.Notices

/-
  The mempool of Sync HotStuff and Opt Sync: a receiver, a
  batcher and a processor, joined by unbounded first-in
  first-out channels.

  The receiver forwards decoded transactions, the batcher
  cuts them into batches, and the processor installs a batch
  in the cache, tells consensus and hands the batch to the
  writer of the durable store.  Each task runs on its own;
  an event is one step of one of them, or what the clients
  and consensus do at the two ends.

  Key definitions include:
    * `Sealer`, `CountSealer`
    * `Mempool`, `Mempool.Event`, `Mempool.step`
    * `Mempool.stored`
    * `Mempool.Orderly`, `Mempool.Installed`
    * `Mempool.Written`, `Mempool.running`

  Key theorems include:
    * `Mempool.Orderly.step`, `Mempool.Installed.step`
    * `Mempool.Written.step`
    * `Mempool.batches_in_arrival_order`
-/

------------------------------------------------------------
-- Sealers
------------------------------------------------------------

namespace LibApollo

/- A predicate that is polled after each transaction. -/
structure Sealer where
  shouldSeal : Nat → Bool

/- Seal when there are `threshold` transactions. -/
structure CountSealer where
  threshold : Nat
  positive : 0 < threshold

namespace CountSealer

/- The constructor asserts that the threshold is positive. -/
def new (threshold : Nat) : Option CountSealer :=
  if hPositive : 0 < threshold then
    some ⟨threshold, hPositive⟩
  else
    none

def sealer (count : CountSealer) : Sealer where
  shouldSeal queueLen := decide (count.threshold ≤ queueLen)

end CountSealer

/- A queue is cut at the first length that is sealed. -/
structure Sealer.Cuts
    (sealer : Sealer)
    (len : Nat) : Prop where
  nonempty : 0 < len
  sealed : sealer.shouldSeal len = true
  first :
    ∀ shorter, 0 < shorter → shorter < len →
      sealer.shouldSeal shorter = false

theorem CountSealer.eq_of_cuts
    {count : CountSealer}
    {len : Nat}
    (hCuts : count.sealer.Cuts len) :
    len = count.threshold := by
  have hEnough : count.threshold ≤ len :=
    of_decide_eq_true hCuts.sealed
  by_contra hNe
  have hFirst :=
    hCuts.first count.threshold count.positive
      (lt_of_le_of_ne hEnough (Ne.symm hNe))
  simp [CountSealer.sealer] at hFirst

end LibApollo

------------------------------------------------------------
-- Tasks and Channels
------------------------------------------------------------

namespace LibApollo

inductive Task where
| running
| exited
deriving DecidableEq, Repr

/-
  Where the processor stands in its loop: waiting for a
  batch, about to tell consensus of a batch that is cached,
  or about to hand the batch to the store.
-/
inductive Processor where
| recv
| notify (batch : Batch)
| persist (batch : Batch)
| exited
deriving DecidableEq, Repr

/-
  The tasks and the contents of their channels.  `received`
  and `handed` are histories: the transactions the receiver
  has decoded and the batches consensus was told of.
  `consensus` says whether consensus still listens.
-/
structure Mempool (H : Type) where
  received : List Transaction
  receiver : Task
  rxBatcher : List Transaction
  queueTxs : List Transaction
  batcher : Task
  rxProc : List Batch
  processor : Processor
  txConsensus : List (H × Batch)
  consensus : Task
  handed : List (H × Batch)
  storeWrites : List (H × Batch)
deriving DecidableEq, Repr

namespace Mempool

/-
  What can happen: the client stream yields a transaction,
  a decoding error or its end; a task takes a step; and
  consensus takes a batch or stops to listen.
-/
inductive Event where
| frame (tx : Transaction)
| decodeError
| streamClosed
| batcher
| processor
| writer
| take
| close
deriving DecidableEq, Repr

variable {H : Type}

/- All tasks as `spawn` starts them. -/
def new : Mempool H where
  received := []
  receiver := .running
  rxBatcher := []
  queueTxs := []
  batcher := .running
  rxProc := []
  processor := .recv
  txConsensus := []
  consensus := .running
  handed := []
  storeWrites := []

/- A transaction is lost only when nobody takes it. -/
def receive
    (tx : Transaction)
    (pool : Mempool H) : Mempool H :=
  match pool.receiver, pool.batcher with
  | .exited, _ => pool
  | .running, .running =>
      { pool with
        received := pool.received ++ [tx]
        rxBatcher := pool.rxBatcher ++ [tx] }
  | .running, .exited =>
      { pool with
        received := pool.received ++ [tx]
        receiver := .exited }

/-
  One round of the batcher.  A task that exits drops its
  channel with what is in it.
-/
def batch
    (sealer : Sealer)
    (pool : Mempool H) : Mempool H :=
  match pool.batcher, pool.rxBatcher with
  | .exited, _ => pool
  | .running, [] =>
      match pool.receiver with
      | .running => pool
      | .exited => { pool with batcher := .exited }
  | .running, tx :: rest =>
      let queueTxs := pool.queueTxs ++ [tx]
      if sealer.shouldSeal queueTxs.length then
        if pool.processor = .exited then
          { pool with
            batcher := .exited
            rxBatcher := [] }
        else
          { pool with
            rxBatcher := rest
            queueTxs := []
            rxProc := pool.rxProc ++ [⟨queueTxs⟩] }
      else
        { pool with
          rxBatcher := rest
          queueTxs := queueTxs }

/- One step of the processor. -/
def process
    [Crypto H]
    (pool : Mempool H) : Mempool H :=
  match pool.processor with
  | .exited => pool
  | .recv =>
      match pool.rxProc, pool.batcher with
      | [], .running => pool
      | [], .exited => { pool with processor := .exited }
      | batch :: rest, _ =>
          { pool with
            rxProc := rest
            processor := .notify batch }
  | .notify batch =>
      match pool.consensus with
      | .running =>
          { pool with
            txConsensus :=
              pool.txConsensus ++ [(batch.hash, batch)]
            handed := pool.handed ++ [(batch.hash, batch)]
            processor := .persist batch }
      | .exited =>
          { pool with
            rxProc := []
            processor := .exited }
  | .persist batch =>
      { pool with
        storeWrites :=
          pool.storeWrites ++ [(batch.hash, batch)]
        processor := .recv }

def step
    [Crypto H]
    (sealer : Sealer)
    (pool : Mempool H)
    (event : Event) : Mempool H :=
  match event with
  | .frame tx => pool.receive tx
  | .decodeError => pool
  | .streamClosed => { pool with receiver := .exited }
  | .batcher => pool.batch sealer
  | .processor => pool.process
  | .writer =>
      { pool with storeWrites := pool.storeWrites.tail }
  | .take =>
      { pool with txConsensus := pool.txConsensus.tail }
  | .close =>
      { pool with consensus := .exited, txConsensus := [] }

/-
  What a step does to the cache and the store, which the
  tasks share with consensus.  A batch is cached when the
  processor takes it.
-/
def stored
    [DecidableEq H] [Crypto H]
    (pool : Mempool H)
    (event : Event)
    (stores : BatchStores H) : BatchStores H :=
  match event, pool.processor, pool.rxProc,
      pool.storeWrites with
  | .processor, .recv, batch :: _, _ =>
      stores.cacheInsert batch.hash batch
  | .writer, _, _, (hash, batch) :: _ =>
      { stores with
        batchStore := stores.batchStore.insert hash batch }
  | _, _, _, _ => stores

/- The mempool after a sequence of events. -/
def after
    [Crypto H]
    (sealer : Sealer)
    (events : List Event) : Mempool H :=
  events.foldl (step sealer) new

end Mempool

end LibApollo

------------------------------------------------------------
-- What the Tasks Do
------------------------------------------------------------

namespace LibApollo

namespace Mempool

variable {H : Type}
variable {sealer : Sealer}
variable {pool pool' : Mempool H}

/- The mempool after the batcher has cut off a batch. -/
def cutQueue
    (pool : Mempool H)
    (rest : List Transaction)
    (batch : Batch) : Mempool H :=
  { pool with
    rxBatcher := rest
    queueTxs := []
    rxProc := pool.rxProc ++ [batch] }

/- The ways in which the batcher can take a step. -/
inductive Batches
    (sealer : Sealer)
    (pool : Mempool H) : Mempool H → Prop where
| idle :
    (pool.batcher = .running → pool.rxBatcher = []) →
      Batches sealer pool pool
| ends :
    pool.rxBatcher = [] →
      pool.receiver = .exited →
      Batches sealer pool { pool with batcher := .exited }
| giveUp :
    pool.batcher = .running →
      pool.processor = .exited →
      Batches sealer pool
        { pool with batcher := .exited, rxBatcher := [] }
| cut (tx : Transaction) (rest : List Transaction) :
    pool.batcher = .running →
      pool.processor ≠ .exited →
      pool.rxBatcher = tx :: rest →
      sealer.shouldSeal (pool.queueTxs ++ [tx]).length =
        true →
      Batches sealer pool
        (pool.cutQueue rest ⟨pool.queueTxs ++ [tx]⟩)
| keep (tx : Transaction) (rest : List Transaction) :
    pool.batcher = .running →
      pool.rxBatcher = tx :: rest →
      sealer.shouldSeal (pool.queueTxs ++ [tx]).length =
        false →
      Batches sealer pool
        { pool with
          rxBatcher := rest
          queueTxs := pool.queueTxs ++ [tx] }

theorem batches_batch
    (sealer : Sealer)
    (pool : Mempool H) :
    Batches sealer pool (pool.batch sealer) := by
  unfold batch
  split
  · rename_i hExited
    refine .idle ?_
    intro hRunning
    rw [hExited] at hRunning
    cases hRunning
  · rename_i hRunning hEmpty
    split
    · exact .idle (fun _ => hEmpty)
    · rename_i hReceiver
      exact .ends hEmpty hReceiver
  · rename_i tx rest hRunning hChannel
    dsimp only
    split
    · rename_i hSeal
      split
      · rename_i hProcessor
        exact .giveUp hRunning hProcessor
      · rename_i hProcessor
        exact .cut tx rest hRunning hProcessor hChannel
          hSeal
    · rename_i hOpen
      exact .keep tx rest hRunning hChannel
        ((Bool.not_eq_true _).mp hOpen)

variable [Crypto H]

/- The ways in which the processor can take a step. -/
inductive Processes
    (pool : Mempool H) : Mempool H → Prop where
| idle :
    pool.processor = .exited ∨
        (pool.processor = .recv ∧ pool.rxProc = []) →
      Processes pool pool
| ends :
    pool.processor = .recv →
      pool.rxProc = [] →
      pool.batcher = .exited →
      Processes pool { pool with processor := .exited }
| install (batch : Batch) (rest : List Batch) :
    pool.processor = .recv →
      pool.rxProc = batch :: rest →
      Processes pool
        { pool with
          rxProc := rest
          processor := .notify batch }
| hand (batch : Batch) :
    pool.processor = .notify batch →
      pool.consensus = .running →
      Processes pool
        { pool with
          txConsensus :=
            pool.txConsensus ++ [(batch.hash, batch)]
          handed := pool.handed ++ [(batch.hash, batch)]
          processor := .persist batch }
| giveUp (batch : Batch) :
    pool.processor = .notify batch →
      pool.consensus = .exited →
      Processes pool
        { pool with rxProc := [], processor := .exited }
| persist (batch : Batch) :
    pool.processor = .persist batch →
      Processes pool
        { pool with
          storeWrites :=
            pool.storeWrites ++ [(batch.hash, batch)]
          processor := .recv }

theorem processes_process
    (pool : Mempool H) :
    Processes pool pool.process := by
  unfold process
  split
  · rename_i hExited
    exact .idle (Or.inl hExited)
  · rename_i hRecv
    split
    · rename_i hEmpty _
      exact .idle (Or.inr ⟨hRecv, hEmpty⟩)
    · rename_i hEmpty hBatcher
      exact .ends hRecv hEmpty hBatcher
    · rename_i _ batch rest hChannel
      exact .install batch rest hRecv hChannel
  · rename_i batch hNotify
    split
    · rename_i hOpen
      exact .hand batch hNotify hOpen
    · rename_i hClosed
      exact .giveUp batch hNotify hClosed
  · rename_i batch hPersist
    exact .persist batch hPersist

end Mempool

end LibApollo

------------------------------------------------------------
-- Order and Completeness
------------------------------------------------------------

namespace LibApollo

namespace Mempool

variable {H : Type}
variable {sealer : Sealer}
variable {pool : Mempool H}

/- The batch the processor has not told consensus of. -/
def current (pool : Mempool H) : List Batch :=
  match pool.processor with
  | .notify batch => [batch]
  | _ => []

/- The batches that were cut, oldest first. -/
def sealedBatches (pool : Mempool H) : List Batch :=
  pool.handed.map Prod.snd ++ pool.current ++ pool.rxProc

def payloads (batches : List Batch) : List Transaction :=
  batches.flatMap CachedBatch.payload

@[simp] theorem payloads_append
    (left right : List Batch) :
    payloads (left ++ right) =
      payloads left ++ payloads right :=
  List.flatMap_append

@[simp] theorem payloads_singleton
    (batch : Batch) :
    payloads [batch] = batch.payload := by
  simp [payloads]

theorem payloads_initial
    {left right : List Batch}
    (hPrefix : left <+: right) :
    payloads left <+: payloads right := by
  rcases hPrefix with ⟨more, rfl⟩
  rw [payloads_append]
  exact List.prefix_append _ _

/- Batches of one size are the pieces of a sequence. -/
theorem payload_at
    {batches : List Batch}
    {whole : List Transaction}
    {batch : Batch}
    {size k : Nat}
    (hSize :
      ∀ batch ∈ batches, batch.payload.length = size)
    (hPrefix : payloads batches <+: whole)
    (hPlace : batches[k]? = some batch) :
    (k + 1) * size ≤ whole.length ∧
      batch.payload = (whole.drop (k * size)).take size := by
  induction batches generalizing whole k with
  | nil => cases hPlace
  | cons first rest ih =>
      have hFirst := hSize first List.mem_cons_self
      rcases hPrefix with ⟨more, rfl⟩
      cases k with
      | zero =>
          cases hPlace
          simp [payloads, hFirst]
      | succ k =>
          have hRest :=
            ih
              (fun batch hMem =>
                hSize batch (List.mem_cons_of_mem _ hMem))
              (List.prefix_append (payloads rest) more)
              hPlace
          have hWhole :
              payloads (first :: rest) ++ more =
                first.payload ++
                  (payloads rest ++ more) := by
            simp [payloads]
          rw [hWhole, List.length_append, hFirst,
            Nat.succ_mul (k + 1) size]
          refine ⟨by omega, ?_⟩
          rw [hRest.2, Nat.succ_mul, Nat.add_comm,
            ← List.drop_drop, ← hFirst, List.drop_left]

/- The batches handed over are the first ones cut off. -/
theorem handed_initial
    (pool : Mempool H) :
    pool.handed.map Prod.snd <+: pool.sealedBatches := by
  unfold sealedBatches
  rw [List.append_assoc]
  exact List.prefix_append _ _

/- No batch has been lost between the tasks. -/
def Flowing (pool : Mempool H) : Prop :=
  pool.consensus = .running ∨ pool.processor ≠ .exited

/-
  What was cut is what came first, in order, and every cut
  is at the first length that is sealed.  While batches
  flow, a task has exited only after the one before it.
-/
structure Orderly
    (sealer : Sealer)
    (pool : Mempool H) : Prop where
  flow :
    pool.Flowing →
      pool.received =
        payloads pool.sealedBatches ++ pool.queueTxs ++
          pool.rxBatcher
  batcherEnds :
    pool.Flowing → pool.batcher = .exited →
      pool.receiver = .exited
  processorEnds :
    pool.consensus = .running →
      pool.processor = .exited → pool.batcher = .exited
  ordered : payloads pool.sealedBatches <+: pool.received
  cut :
    ∀ batch ∈ pool.sealedBatches,
      sealer.Cuts batch.payload.length
  unsealed :
    ∀ len, 0 < len → len ≤ pool.queueTxs.length →
      sealer.shouldSeal len = false

theorem orderly_new :
    Orderly sealer (new : Mempool H) where
  flow := fun _ => rfl
  batcherEnds := by
    intro _ hExited
    cases hExited
  processorEnds := by
    intro _ hExited
    cases hExited
  ordered := List.prefix_rfl
  cut := by
    intro batch hMem
    exact absurd hMem List.not_mem_nil
  unsealed := by
    intro len hPositive hLen
    exact absurd hLen (Nat.not_le_of_lt hPositive)

/- The length after one more transaction is a first one. -/
theorem Orderly.cuts
    {tx : Transaction}
    (hOrderly : pool.Orderly sealer)
    (hSeal :
      sealer.shouldSeal (pool.queueTxs ++ [tx]).length =
        true) :
    sealer.Cuts (pool.queueTxs ++ [tx]).length where
  nonempty := by
    rw [List.length_append]
    exact Nat.succ_pos _
  sealed := hSeal
  first := by
    intro shorter hPositive hShorter
    rw [List.length_append] at hShorter
    exact hOrderly.unsealed shorter hPositive
      (Nat.le_of_lt_succ hShorter)

theorem Orderly.receive
    (hOrderly : pool.Orderly sealer)
    (tx : Transaction) :
    (pool.receive tx).Orderly sealer := by
  unfold Mempool.receive
  split
  · exact hOrderly
  · refine
      { hOrderly with
        flow := ?_
        ordered :=
          hOrderly.ordered.trans (List.prefix_append _ _) }
    intro hFlowing
    dsimp only
    rw [hOrderly.flow hFlowing]
    exact List.append_assoc _ _ _
  · rename_i hReceiver hBatcher
    refine
      { hOrderly with
        flow := ?_
        batcherEnds := fun _ _ => rfl
        ordered :=
          hOrderly.ordered.trans (List.prefix_append _ _) }
    intro hFlowing
    have hEnded := hOrderly.batcherEnds hFlowing hBatcher
    rw [hReceiver] at hEnded
    cases hEnded

@[simp] theorem sealedBatches_cutQueue
    (pool : Mempool H)
    (rest : List Transaction)
    (batch : Batch) :
    (pool.cutQueue rest batch).sealedBatches =
      pool.sealedBatches ++ [batch] :=
  (List.append_assoc _ _ _).symm

theorem Orderly.cutQueue
    {tx : Transaction}
    {rest : List Transaction}
    (hOrderly : pool.Orderly sealer)
    (hBatcher : pool.batcher = .running)
    (hProcessor : pool.processor ≠ .exited)
    (hChannel : pool.rxBatcher = tx :: rest)
    (hSeal :
      sealer.shouldSeal (pool.queueTxs ++ [tx]).length =
        true) :
    Orderly sealer
      (pool.cutQueue rest ⟨pool.queueTxs ++ [tx]⟩) := by
  have hFlow :
      pool.received =
        payloads (pool.sealedBatches ++
          [⟨pool.queueTxs ++ [tx]⟩]) ++ rest := by
    rw [hOrderly.flow (Or.inr hProcessor), hChannel]
    simp
  refine
    { flow := ?_
      batcherEnds := ?_
      processorEnds := hOrderly.processorEnds
      ordered := ?_
      cut := ?_
      unsealed := ?_ }
  · intro _
    rw [sealedBatches_cutQueue]
    exact hFlow.trans (by simp [Mempool.cutQueue])
  · intro _ hExited
    exact absurd (hBatcher.symm.trans hExited) (by decide)
  · rw [sealedBatches_cutQueue]
    exact ⟨rest, hFlow.symm⟩
  · intro batch hMem
    rw [sealedBatches_cutQueue, List.mem_append,
      List.mem_singleton] at hMem
    rcases hMem with hOld | rfl
    · exact hOrderly.cut batch hOld
    · exact hOrderly.cuts hSeal
  · intro len hPositive hLen
    exact absurd hLen (Nat.not_le_of_lt hPositive)

/- A queue that is not cut grows by a transaction. -/
theorem Orderly.keepQueue
    {tx : Transaction}
    {rest : List Transaction}
    (hOrderly : pool.Orderly sealer)
    (hChannel : pool.rxBatcher = tx :: rest)
    (hOpen :
      sealer.shouldSeal (pool.queueTxs ++ [tx]).length =
        false) :
    Orderly sealer
      { pool with
        rxBatcher := rest
        queueTxs := pool.queueTxs ++ [tx] } := by
  refine
    { hOrderly with
      flow := ?_
      unsealed := ?_ }
  · intro hFlowing
    dsimp only
    rw [hOrderly.flow hFlowing, hChannel]
    simp [sealedBatches, current]
  · intro len hPositive hLen
    by_cases hShort : len ≤ pool.queueTxs.length
    · exact hOrderly.unsealed len hPositive hShort
    · have hLast :
          len = (pool.queueTxs ++ [tx]).length := by
        rw [List.length_append, List.length_singleton]
          at hLen ⊢
        omega
      rw [hLast]
      exact hOpen

/- A batcher that works has the processor before it. -/
theorem Orderly.not_flowing
    (hOrderly : pool.Orderly sealer)
    (hBatcher : pool.batcher = .running)
    (hProcessor : pool.processor = .exited) :
    ¬ pool.Flowing := by
  intro hFlowing
  rcases hFlowing with hOpen | hAlive
  · have hEnded := hOrderly.processorEnds hOpen hProcessor
    rw [hBatcher] at hEnded
    cases hEnded
  · exact hAlive hProcessor

theorem Orderly.batch
    {pool' : Mempool H}
    (hOrderly : pool.Orderly sealer)
    (hBatches : Batches sealer pool pool') :
    pool'.Orderly sealer := by
  cases hBatches with
  | idle _ => exact hOrderly
  | ends _ hReceiver =>
      exact
        { hOrderly with
          batcherEnds := fun _ _ => hReceiver
          processorEnds := fun _ _ => rfl }
  | giveUp hBatcher hProcessor =>
      have hStuck :=
        hOrderly.not_flowing hBatcher hProcessor
      exact
        { hOrderly with
          flow := fun hFlowing => absurd hFlowing hStuck
          batcherEnds :=
            fun hFlowing => absurd hFlowing hStuck
          processorEnds := fun _ _ => rfl }
  | cut tx rest hBatcher hProcessor hChannel hSeal =>
      exact hOrderly.cutQueue hBatcher hProcessor hChannel
        hSeal
  | keep tx rest _ hChannel hOpen =>
      exact hOrderly.keepQueue hChannel hOpen

/- A processor that goes on moves batches along. -/
theorem Orderly.pass
    {rxProc : List Batch}
    {processor : Processor}
    {handed txConsensus storeWrites : List (H × Batch)}
    (hOrderly : pool.Orderly sealer)
    (hBefore : pool.processor ≠ .exited)
    (hAfter : processor ≠ .exited)
    (hSame :
      sealedBatches
          { pool with
            rxProc := rxProc
            processor := processor
            handed := handed
            txConsensus := txConsensus
            storeWrites := storeWrites } =
        pool.sealedBatches) :
    Orderly sealer
      { pool with
        rxProc := rxProc
        processor := processor
        handed := handed
        txConsensus := txConsensus
        storeWrites := storeWrites } where
  flow := by
    intro _
    rw [hSame]
    exact hOrderly.flow (Or.inr hBefore)
  batcherEnds := fun _ =>
    hOrderly.batcherEnds (Or.inr hBefore)
  processorEnds := fun _ hExited => absurd hExited hAfter
  ordered := by
    rw [hSame]
    exact hOrderly.ordered
  cut := by
    rw [hSame]
    exact hOrderly.cut
  unsealed := hOrderly.unsealed

/- A processor with nobody to tell drops its batches. -/
theorem Orderly.giveUp
    (hOrderly : pool.Orderly sealer)
    (hClosed : pool.consensus = .exited) :
    Orderly sealer
      { pool with
        rxProc := []
        processor := .exited } := by
  have hStuck :
      ¬ Flowing
        { pool with
          rxProc := []
          processor := .exited } := by
    intro hFlowing
    rcases hFlowing with hOpen | hAlive
    · dsimp only at hOpen
      rw [hClosed] at hOpen
      cases hOpen
    · exact hAlive rfl
  have hFewer :
      sealedBatches
          { pool with
            rxProc := []
            processor := .exited } <+:
        pool.sealedBatches := by
    refine ⟨pool.current ++ pool.rxProc, ?_⟩
    simp [sealedBatches, current]
  refine
    { flow := fun hFlowing => absurd hFlowing hStuck
      batcherEnds :=
        fun hFlowing => absurd hFlowing hStuck
      processorEnds := ?_
      ordered := ?_
      cut := fun batch hMem =>
        hOrderly.cut batch (hFewer.subset hMem)
      unsealed := hOrderly.unsealed }
  · intro hOpen
    exact absurd (Or.inl hOpen) hStuck
  · exact (payloads_initial hFewer).trans hOrderly.ordered

variable [Crypto H]

/- The processor takes no batch out of the sequence. -/
theorem Processes.sealedBatches
    {pool' : Mempool H}
    (hProcesses : Processes pool pool')
    (hLive :
      pool.consensus = .running ∨
        pool'.processor ≠ .exited) :
    pool'.sealedBatches = pool.sealedBatches := by
  cases hProcesses with
  | idle _ => rfl
  | ends hRecv _ _ =>
      simp [Mempool.sealedBatches, current, hRecv]
  | install batch rest hRecv hChannel =>
      simp [Mempool.sealedBatches, current, hRecv, hChannel]
  | hand batch hNotify _ =>
      simp [Mempool.sealedBatches, current, hNotify]
  | giveUp batch _ hClosed =>
      rcases hLive with hOpen | hAlive
      · rw [hOpen] at hClosed
        cases hClosed
      · exact absurd rfl hAlive
  | persist batch hPersist =>
      simp [Mempool.sealedBatches, current, hPersist]

theorem Orderly.process
    {pool' : Mempool H}
    (hOrderly : pool.Orderly sealer)
    (hProcesses : Processes pool pool') :
    pool'.Orderly sealer := by
  have hSame := hProcesses.sealedBatches
  cases hProcesses with
  | idle _ => exact hOrderly
  | ends hRecv hEmpty hBatcher =>
      have hBefore : pool.Flowing := by
        right
        rw [hRecv]
        decide
      have hBatches :
          sealedBatches { pool with processor := .exited } =
            pool.sealedBatches := by
        simp [sealedBatches, current, hRecv]
      refine
        { flow := ?_
          batcherEnds := fun _ =>
            hOrderly.batcherEnds hBefore
          processorEnds := fun _ _ => hBatcher
          ordered := ?_
          cut := ?_
          unsealed := hOrderly.unsealed }
      · intro _
        rw [hBatches]
        exact hOrderly.flow hBefore
      · rw [hBatches]
        exact hOrderly.ordered
      · rw [hBatches]
        exact hOrderly.cut
  | install batch rest hRecv hChannel =>
      refine hOrderly.pass ?_ ?_ (hSame (Or.inr ?_))
      · rw [hRecv]
        simp
      · simp
      · simp
  | hand batch hNotify hOpen =>
      refine hOrderly.pass ?_ ?_ (hSame (Or.inl hOpen))
      · rw [hNotify]
        simp
      · simp
  | giveUp batch _ hClosed => exact hOrderly.giveUp hClosed
  | persist batch hPersist =>
      refine hOrderly.pass ?_ ?_ (hSame (Or.inr ?_))
      · rw [hPersist]
        simp
      · simp
      · simp

/- Every step keeps the batches in order. -/
theorem Orderly.step
    (hOrderly : pool.Orderly sealer)
    (event : Event) :
    (pool.step sealer event).Orderly sealer := by
  cases event with
  | frame tx => exact hOrderly.receive tx
  | decodeError => exact hOrderly
  | streamClosed =>
      exact { hOrderly with batcherEnds := fun _ _ => rfl }
  | batcher =>
      exact hOrderly.batch (batches_batch sealer pool)
  | processor =>
      exact hOrderly.process (processes_process pool)
  | writer => exact { hOrderly with }
  | take => exact { hOrderly with }
  | close =>
      have hLater :
          ∀ hFlowing :
            Flowing
              { pool with
                consensus := .exited
                txConsensus := [] },
            pool.Flowing := by
        intro hFlowing
        rcases hFlowing with hOpen | hAlive
        · cases hOpen
        · exact Or.inr hAlive
      exact
        { hOrderly with
          flow := fun hFlowing =>
            hOrderly.flow (hLater hFlowing)
          batcherEnds := fun hFlowing =>
            hOrderly.batcherEnds (hLater hFlowing)
          processorEnds := by
            intro hOpen
            cases hOpen }

theorem Orderly.run
    (hOrderly : pool.Orderly sealer)
    (events : List Event) :
    (events.foldl (Mempool.step sealer) pool).Orderly
      sealer := by
  induction events generalizing pool with
  | nil => exact hOrderly
  | cons event events ih => exact ih (hOrderly.step event)

end Mempool

end LibApollo

------------------------------------------------------------
-- The Client Stream
------------------------------------------------------------

namespace LibApollo

namespace Mempool

variable {H : Type} [Crypto H]
variable {sealer : Sealer}
variable {pool : Mempool H}

/- The transactions the client stream has yielded. -/
def frames (events : List Event) : List Transaction :=
  events.filterMap
    (fun event =>
      match event with
      | .frame tx => some tx
      | _ => none)

theorem frames_cons_other
    {event : Event}
    (hOther : ∀ tx, event ≠ .frame tx)
    (events : List Event) :
    frames (event :: events) = frames events := by
  cases event with
  | frame tx => exact absurd rfl (hOther tx)
  | _ => rfl

omit [Crypto H] in
/- The receiver has decoded all, or all up to its end. -/
structure Hears
    (yielded : List Transaction)
    (pool : Mempool H) : Prop where
  ordered : pool.received <+: yielded
  all :
    pool.receiver = .running → pool.received = yielded

omit [Crypto H] in
theorem Batches.sameIntake
    {pool' : Mempool H}
    (hBatches : Batches sealer pool pool') :
    pool'.received = pool.received ∧
      pool'.receiver = pool.receiver := by
  cases hBatches with
  | _ => exact ⟨rfl, rfl⟩

theorem Processes.sameIntake
    {pool' : Mempool H}
    (hProcesses : Processes pool pool') :
    pool'.received = pool.received ∧
      pool'.receiver = pool.receiver := by
  cases hProcesses with
  | _ => exact ⟨rfl, rfl⟩

/- Only the receiver reads the stream. -/
theorem step_received
    {event : Event}
    (sealer : Sealer)
    (pool : Mempool H)
    (hOther : ∀ tx, event ≠ .frame tx) :
    (pool.step sealer event).received = pool.received ∧
      ((pool.step sealer event).receiver = .running →
        pool.receiver = .running) := by
  cases event with
  | frame tx => exact absurd rfl (hOther tx)
  | streamClosed =>
      refine ⟨rfl, ?_⟩
      intro hRunning
      cases hRunning
  | batcher =>
      rcases (batches_batch sealer pool).sameIntake with
        ⟨hReceived, hReceiver⟩
      exact ⟨hReceived, fun hRunning =>
        hReceiver.symm.trans hRunning⟩
  | processor =>
      rcases (processes_process pool).sameIntake with
        ⟨hReceived, hReceiver⟩
      exact ⟨hReceived, fun hRunning =>
        hReceiver.symm.trans hRunning⟩
  | decodeError => exact ⟨rfl, id⟩
  | writer => exact ⟨rfl, id⟩
  | take => exact ⟨rfl, id⟩
  | close => exact ⟨rfl, id⟩

omit [Crypto H] in
theorem Hears.receive
    {yielded : List Transaction}
    (hHears : pool.Hears yielded)
    (tx : Transaction) :
    (pool.receive tx).Hears (yielded ++ [tx]) := by
  unfold Mempool.receive
  split
  · rename_i hExited
    refine
      ⟨hHears.ordered.trans (List.prefix_append _ _), ?_⟩
    intro hRunning
    rw [hExited] at hRunning
    cases hRunning
  · rename_i hRunning _
    have hAll := hHears.all hRunning
    refine ⟨?_, fun _ => ?_⟩
    · rw [hAll]
    · rw [hAll]
  · rename_i hRunning _
    rw [← hHears.all hRunning]
    refine ⟨List.prefix_rfl, fun _ => rfl⟩

theorem Hears.run
    {yielded : List Transaction}
    (hHears : pool.Hears yielded)
    (events : List Event) :
    (events.foldl (step sealer) pool).Hears
      (yielded ++ frames events) := by
  induction events generalizing pool yielded with
  | nil =>
      rw [show frames [] = [] from rfl, List.append_nil]
      exact hHears
  | cons event events ih =>
      by_cases hFrame : ∃ tx, event = .frame tx
      · rcases hFrame with ⟨tx, rfl⟩
        have hNext := ih (hHears.receive tx)
        rw [List.append_assoc] at hNext
        exact hNext
      · have hOther : ∀ tx, event ≠ .frame tx := by
          intro tx hEq
          exact hFrame ⟨tx, hEq⟩
        rcases step_received sealer pool hOther with
          ⟨hReceived, hReceiver⟩
        rw [frames_cons_other hOther]
        refine ih ⟨?_, ?_⟩
        · rw [hReceived]
          exact hHears.ordered
        · intro hRunning
          rw [hReceived]
          exact hHears.all (hReceiver hRunning)

end Mempool

end LibApollo

------------------------------------------------------------
-- Batches Are Cached First
------------------------------------------------------------

namespace LibApollo

variable {H : Type} [DecidableEq H]

/- There is a batch under this hash in the cache. -/
def BatchStores.Cached
    (stores : BatchStores H)
    (hash : H) : Prop :=
  ∃ found, stores.batchCache.lookup hash = some found

/- Insertion puts some batch under the hash. -/
theorem BatchStores.cached_self
    (stores : BatchStores H)
    (hash : H)
    (batch : Batch) :
    (stores.cacheInsert hash batch).Cached hash := by
  unfold BatchStores.cacheInsert
  split
  · rename_i hThere
    exact Option.isSome_iff_exists.mp hThere
  · refine ⟨batch, ?_⟩
    exact (FinMap.lookup_insert_eq _ _ _ _).trans
      (if_pos rfl)

namespace Mempool

variable [Crypto H]
variable {sealer : Sealer}
variable {pool : Mempool H}
variable {stores stores' : BatchStores H}

/-
  Every batch consensus was told of, and the one the
  processor is about to tell, is cached under its hash.
-/
structure Installed
    (stores : BatchStores H)
    (pool : Mempool H) : Prop where
  handed :
    ∀ entry ∈ pool.handed,
      entry.1 = entry.2.hash ∧ stores.Cached entry.1
  notify :
    ∀ batch, pool.processor = .notify batch →
      stores.Cached batch.hash
  writes :
    ∀ entry ∈ pool.storeWrites,
      entry.1 = entry.2.hash

/- What is cached stays cached. -/
theorem lookup_stored
    {hash : H}
    {found : Batch}
    (event : Event)
    (hCached : stores.batchCache.lookup hash = some found) :
    (pool.stored event stores).batchCache.lookup hash =
      some found := by
  unfold stored
  split
  · exact BatchStores.cached_cacheInsert hCached _ _
  · exact hCached
  · exact hCached

theorem cached_stored
    {hash : H}
    (event : Event)
    (hCached : stores.Cached hash) :
    (pool.stored event stores).Cached hash := by
  rcases hCached with ⟨found, hCached⟩
  exact ⟨found, lookup_stored event hCached⟩

/- Where there was a batch there still is one. -/
theorem holds_stored
    {hash : H}
    (event : Event)
    (hHolds : ∃ found, stores.Holds hash found) :
    ∃ found, (pool.stored event stores).Holds hash found := by
  rcases hHolds with ⟨found, hHolds⟩
  unfold stored
  split
  · exact ⟨found, hHolds.cacheInsert _ _⟩
  · rename_i written batch rest _
    by_cases hSame : hash = written
    · refine ⟨batch, Or.inr ?_⟩
      rw [FinMap.lookup_insert_eq, if_pos hSame]
    · refine ⟨found, hHolds.imp_right ?_⟩
      intro hStore
      rw [FinMap.lookup_insert_eq, if_neg hSame]
      exact hStore
  · exact ⟨found, hHolds⟩

/- The tasks file batches under their own hashes. -/
theorem Installed.filed
    (hInstalled : pool.Installed stores)
    (hFiled : stores.Filed)
    (event : Event) :
    (pool.stored event stores).Filed := by
  unfold stored
  split
  · intro hash batch hHolds
    rcases BatchStores.holds_of_cacheInsert hHolds with
      hOld | ⟨rfl, rfl⟩
    · exact hFiled hash batch hOld
    · rfl
  · rename_i hash written rest hWrites
    intro other batch hHolds
    rcases hHolds with hCache | hStore
    · exact hFiled other batch (Or.inl hCache)
    · rw [FinMap.lookup_insert_eq] at hStore
      split at hStore
      · rename_i hSame
        cases hStore
        rw [hSame]
        refine (hInstalled.writes (hash, written) ?_).symm
        rw [hWrites]
        exact List.mem_cons_self
      · exact hFiled other batch (Or.inr hStore)
  · exact hFiled

/- The parts of the mempool behind the batcher. -/
structure SameOutput (pool pool' : Mempool H) : Prop where
  processor : pool'.processor = pool.processor
  txConsensus : pool'.txConsensus = pool.txConsensus
  consensus : pool'.consensus = pool.consensus
  handed : pool'.handed = pool.handed
  storeWrites : pool'.storeWrites = pool.storeWrites

omit [DecidableEq H] [Crypto H] in
theorem sameOutput_receive
    (pool : Mempool H)
    (tx : Transaction) :
    SameOutput pool (pool.receive tx) := by
  unfold receive
  split
  · exact ⟨rfl, rfl, rfl, rfl, rfl⟩
  · exact ⟨rfl, rfl, rfl, rfl, rfl⟩
  · exact ⟨rfl, rfl, rfl, rfl, rfl⟩

omit [DecidableEq H] [Crypto H] in
theorem Batches.sameOutput
    {pool' : Mempool H}
    (hBatches : Batches sealer pool pool') :
    SameOutput pool pool' := by
  cases hBatches with
  | _ => exact ⟨rfl, rfl, rfl, rfl, rfl⟩

omit [DecidableEq H] in
/- What is handed over goes into the channel. -/
theorem step_hands
    {event : Event}
    (sealer : Sealer)
    (pool : Mempool H)
    (hTake : event ≠ .take)
    (hClose : event ≠ .close) :
    ∃ more,
      (pool.step sealer event).handed =
          pool.handed ++ more ∧
        (pool.step sealer event).txConsensus =
          pool.txConsensus ++ more ∧
        (pool.step sealer event).consensus =
          pool.consensus := by
  have hSame :
      ∀ pool' : Mempool H,
        SameOutput pool pool' →
          ∃ more,
            pool'.handed = pool.handed ++ more ∧
              pool'.txConsensus =
                pool.txConsensus ++ more ∧
              pool'.consensus = pool.consensus := by
    intro pool' hSame
    refine ⟨[], ?_, ?_, hSame.consensus⟩
    · rw [hSame.handed, List.append_nil]
    · rw [hSame.txConsensus, List.append_nil]
  have hNone :
      ∃ more,
        pool.handed = pool.handed ++ more ∧
          pool.txConsensus = pool.txConsensus ++ more ∧
          pool.consensus = pool.consensus :=
    hSame pool ⟨rfl, rfl, rfl, rfl, rfl⟩
  cases event with
  | frame tx => exact hSame _ (sameOutput_receive pool tx)
  | batcher =>
      exact hSame _ (batches_batch sealer pool).sameOutput
  | processor =>
      have hProcesses := processes_process pool
      change ∃ more, pool.process.handed = _ ∧
        pool.process.txConsensus = _ ∧
        pool.process.consensus = _
      generalize pool.process = pool' at hProcesses ⊢
      cases hProcesses with
      | hand batch _ _ => exact ⟨_, rfl, rfl, rfl⟩
      | _ => exact hNone
  | take => exact absurd rfl hTake
  | close => exact absurd rfl hClose
  | _ => exact hNone

/- A mempool stays installed while the cache only grows. -/
theorem Installed.mono
    (hInstalled : pool.Installed stores)
    (hMore :
      ∀ hash, stores.Cached hash → stores'.Cached hash) :
    pool.Installed stores' where
  handed := by
    intro entry hMem
    exact (hInstalled.handed entry hMem).imp_right
      (hMore entry.1)
  notify := by
    intro batch hProcessor
    exact hMore batch.hash
      (hInstalled.notify batch hProcessor)
  writes := hInstalled.writes

theorem Installed.sameOutput
    {pool' : Mempool H}
    (hInstalled : pool.Installed stores)
    (hSame : SameOutput pool pool') :
    pool'.Installed stores where
  handed := by
    rw [hSame.handed]
    exact hInstalled.handed
  notify := by
    rw [hSame.processor]
    exact hInstalled.notify
  writes := by
    rw [hSame.storeWrites]
    exact hInstalled.writes

/- The processor caches a batch before it tells of it. -/
theorem Installed.process
    {pool' : Mempool H}
    (hInstalled : pool.Installed stores)
    (hProcesses : Processes pool pool') :
    pool'.Installed (pool.stored .processor stores) := by
  have hMore :
      pool.Installed (pool.stored .processor stores) :=
    hInstalled.mono (fun _ => cached_stored .processor)
  cases hProcesses with
  | idle _ => exact hMore
  | ends _ _ _ =>
      refine { hMore with notify := ?_ }
      intro batch hNotify
      cases hNotify
  | install batch rest hRecv hChannel =>
      refine { hMore with notify := ?_ }
      intro other hNotify
      cases hNotify
      unfold stored
      rw [hRecv, hChannel]
      exact BatchStores.cached_self _ _ _
  | hand batch hNotify _ =>
      refine { hMore with handed := ?_, notify := ?_ }
      · intro entry hMem
        rw [List.mem_append, List.mem_singleton] at hMem
        rcases hMem with hOld | rfl
        · exact hMore.handed entry hOld
        · exact ⟨rfl, hMore.notify batch hNotify⟩
      · intro other hOther
        cases hOther
  | giveUp batch _ _ =>
      refine { hMore with notify := ?_ }
      intro other hNotify
      cases hNotify
  | persist batch _ =>
      refine { hMore with notify := ?_, writes := ?_ }
      · intro other hNotify
        cases hNotify
      · intro entry hMem
        rw [List.mem_append, List.mem_singleton] at hMem
        rcases hMem with hOld | rfl
        · exact hMore.writes entry hOld
        · rfl

theorem Installed.step
    (hInstalled : pool.Installed stores)
    (event : Event) :
    (pool.step sealer event).Installed
      (pool.stored event stores) := by
  cases event with
  | frame tx =>
      exact hInstalled.sameOutput (sameOutput_receive _ tx)
  | decodeError => exact hInstalled
  | streamClosed => exact { hInstalled with }
  | batcher =>
      exact hInstalled.sameOutput
        (batches_batch sealer pool).sameOutput
  | processor =>
      exact hInstalled.process (processes_process pool)
  | writer =>
      have hMore :
          pool.Installed (pool.stored .writer stores) :=
        hInstalled.mono (fun _ => cached_stored .writer)
      refine { hMore with writes := ?_ }
      intro entry hMem
      exact hMore.writes entry (List.mem_of_mem_tail hMem)
  | take => exact { hInstalled with }
  | close => exact { hInstalled with }

end Mempool

end LibApollo

------------------------------------------------------------
-- Batches Are Written in Order
------------------------------------------------------------

namespace LibApollo

namespace Mempool

variable {H : Type} [DecidableEq H] [Crypto H]
variable {sealer : Sealer}
variable {pool : Mempool H}
variable {stores : BatchStores H}

omit [DecidableEq H] in
/- The batch the processor has yet to send to the writer. -/
def persisting (pool : Mempool H) : List (H × Batch) :=
  match pool.processor with
  | .persist batch => [(batch.hash, batch)]
  | _ => []

omit [Crypto H] in
/- What a sequence of writes leaves in an empty store. -/
def writeAll (entries : List (H × Batch)) : FinMap H Batch :=
  entries.foldl
    (fun store entry => store.insert entry.1 entry.2) ∅

omit [Crypto H] in
theorem writeAll_append
    (entries : List (H × Batch))
    (entry : H × Batch) :
    writeAll (entries ++ [entry]) =
      (writeAll entries).insert entry.1 entry.2 := by
  unfold writeAll
  rw [List.foldl_append]
  rfl

/-
  The batches consensus was told of are, oldest first, those
  in the store, those on their way to the writer, and the
  one the processor has yet to send there.
-/
def Written
    (stores : BatchStores H)
    (pool : Mempool H) : Prop :=
  ∃ done,
    pool.handed =
        done ++ pool.storeWrites ++ pool.persisting ∧
      stores.batchStore = writeAll done

/- Only the writer changes the store. -/
theorem batchStore_stored
    {event : Event}
    (pool : Mempool H)
    (stores : BatchStores H)
    (hWriter : event ≠ .writer) :
    (pool.stored event stores).batchStore =
      stores.batchStore := by
  unfold stored
  split
  · exact BatchStores.batchStore_cacheInsert _ _ _
  · exact absurd rfl hWriter
  · rfl

theorem Written.sameOutput
    {pool' : Mempool H}
    (hWritten : pool.Written stores)
    (hSame : SameOutput pool pool') :
    pool'.Written stores := by
  rcases hWritten with ⟨done, hHanded, hStore⟩
  refine ⟨done, ?_, hStore⟩
  have hPersisting : pool'.persisting = pool.persisting := by
    unfold persisting
    rw [hSame.processor]
  rw [hSame.handed, hSame.storeWrites, hPersisting]
  exact hHanded

/- What is handed over is next to be sent to the writer. -/
theorem Written.process
    {pool' : Mempool H}
    (hWritten : pool.Written stores)
    (hProcesses : Processes pool pool') :
    pool'.Written (pool.stored .processor stores) := by
  rcases hWritten with ⟨done, hHanded, hStore⟩
  refine ⟨done, ?_, ?_⟩
  · unfold persisting at hHanded ⊢
    cases hProcesses with
    | idle _ => exact hHanded
    | ends hRecv _ _ =>
        rw [hRecv] at hHanded
        exact hHanded
    | install batch rest hRecv _ =>
        rw [hRecv] at hHanded
        exact hHanded
    | hand batch hNotify _ =>
        rw [hNotify] at hHanded
        dsimp only at hHanded ⊢
        rw [hHanded, List.append_nil]
    | giveUp batch hNotify _ =>
        rw [hNotify] at hHanded
        exact hHanded
    | persist batch hPersist =>
        rw [hPersist] at hHanded
        dsimp only at hHanded ⊢
        rw [hHanded, List.append_nil, List.append_assoc]
  · rw [batchStore_stored pool stores (by decide)]
    exact hStore

/- The writer takes the oldest write that was sent. -/
theorem Written.write
    (hWritten : pool.Written stores) :
    Written (pool.stored .writer stores)
      { pool with storeWrites := pool.storeWrites.tail } := by
  rcases hWritten with ⟨done, hHanded, hStore⟩
  unfold stored
  cases hWrites : pool.storeWrites with
  | nil =>
      refine ⟨done, ?_, hStore⟩
      rw [hWrites] at hHanded
      exact hHanded
  | cons entry rest =>
      refine ⟨done ++ [entry], ?_, ?_⟩
      · rw [hWrites] at hHanded
        dsimp only [List.tail_cons]
        rw [List.append_assoc done]
        exact hHanded
      · rw [writeAll_append, ← hStore]

theorem Written.step
    (hWritten : pool.Written stores)
    (event : Event) :
    (pool.step sealer event).Written
      (pool.stored event stores) := by
  cases event with
  | frame tx =>
      exact hWritten.sameOutput (sameOutput_receive _ tx)
  | decodeError => exact hWritten
  | streamClosed => exact hWritten
  | batcher =>
      exact hWritten.sameOutput
        (batches_batch sealer pool).sameOutput
  | processor =>
      exact hWritten.process (processes_process pool)
  | writer => exact hWritten.write
  | take => exact hWritten
  | close => exact hWritten

end Mempool

end LibApollo

------------------------------------------------------------
-- Batches in the Order of Arrival
------------------------------------------------------------

namespace LibApollo

namespace Mempool

variable {H : Type} [DecidableEq H] [Crypto H]
variable {sealer : Sealer}
variable {pool : Mempool H}
variable {stores : BatchStores H}

/- The mempool with the cache and the store it writes. -/
def running
    (sealer : Sealer)
    (events : List Event) : Mempool H × BatchStores H :=
  events.foldl
    (fun state event =>
      (state.1.step sealer event,
        state.1.stored event state.2))
    (new, { batchCache := ∅, batchStore := ∅ })

/- The stores do not steer the tasks. -/
theorem running_fst
    (sealer : Sealer)
    (events : List Event) :
    (running sealer events : Mempool H × BatchStores H).1 =
      after sealer events := by
  unfold running after
  rw [← List.foldl_hom Prod.fst]
  intro state event
  rfl

/- What holds of the tasks and their stores together. -/
structure Backed
    (stores : BatchStores H)
    (pool : Mempool H) : Prop where
  installed : pool.Installed stores
  filed : stores.Filed
  written : pool.Written stores

theorem backed_new :
    Backed { batchCache := ∅, batchStore := ∅ }
      (new : Mempool H) where
  installed := by
    refine ⟨?_, ?_, ?_⟩
    · intro entry hMem
      exact absurd hMem List.not_mem_nil
    · intro batch hNotify
      cases hNotify
    · intro entry hMem
      exact absurd hMem List.not_mem_nil
  filed := by
    intro hash batch hHolds
    rcases hHolds with hCache | hStore
    · simp at hCache
    · simp at hStore
  written := ⟨[], rfl, rfl⟩

theorem Backed.step
    (hBacked : pool.Backed stores)
    (event : Event) :
    (pool.step sealer event).Backed
      (pool.stored event stores) where
  installed := hBacked.installed.step event
  filed := hBacked.installed.filed hBacked.filed event
  written := hBacked.written.step event

theorem backed_running
    (sealer : Sealer)
    (events : List Event) :
    Backed
      (running sealer events : Mempool H × BatchStores H).2
      (running sealer events).1 := by
  induction events using List.reverseRecOn with
  | nil => exact backed_new
  | append_singleton events event ih =>
      unfold running at ih ⊢
      rw [List.foldl_append]
      exact ih.step event

/- A batch with this hash is in the cache. -/
def Caches
    (stores : BatchStores H)
    (hash : H) : Prop :=
  ∃ batch,
    stores.batchCache.lookup hash = some batch ∧
      batch.hash = hash

theorem Backed.caches
    {hash : H}
    (hBacked : pool.Backed stores)
    (hCached : stores.Cached hash) :
    Caches stores hash := by
  rcases hCached with ⟨batch, hCached⟩
  exact ⟨batch, hCached,
    hBacked.filed hash batch (Or.inl hCached)⟩

/-
  What consensus is told of, against what the clients have
  sent: the same transactions in the same order, cut into
  batches of the threshold.  A batch is cached before
  consensus is told of it, and afterwards it is written to
  the store, in the same order.  While the receiver and
  consensus are there, what is missing is on its way.
-/
structure InOrder
    (count : CountSealer)
    (events : List Event)
    (pool : Mempool H)
    (stores : BatchStores H) : Prop where
  ordered :
    payloads (pool.handed.map Prod.snd) <+: frames events
  full :
    ∀ entry ∈ pool.handed,
      entry.1 = entry.2.hash ∧
        entry.2.payload.length = count.threshold
  complete :
    pool.receiver = .running → pool.consensus = .running →
      frames events =
        payloads
            (pool.handed.map Prod.snd ++ pool.current ++
              pool.rxProc) ++
          pool.queueTxs ++ pool.rxBatcher
  remainder : pool.queueTxs.length < count.threshold
  cachedFirst :
    ∀ batch, pool.processor = .notify batch →
      Caches stores batch.hash
  cached : ∀ entry ∈ pool.handed, Caches stores entry.1
  written : pool.Written stores

omit [DecidableEq H] [Crypto H] in
/- A queue that is not sealed is short. -/
theorem Orderly.length_queueTxs
    {count : CountSealer}
    (hOrderly : pool.Orderly count.sealer) :
    pool.queueTxs.length < count.threshold := by
  by_contra hLong
  have hOpen :=
    hOrderly.unsealed count.threshold count.positive
      (Nat.le_of_not_lt hLong)
  simp [CountSealer.sealer] at hOpen

/-
  In every order of the events, the batches that consensus
  is told of are the transactions of the clients in the
  order of arrival, none left out and none twice, in batches
  of exactly the threshold, cached before and written to the
  store after consensus is told.
-/
theorem batches_in_arrival_order
    (count : CountSealer)
    (events : List Event) :
    InOrder count events
      (running count.sealer events :
        Mempool H × BatchStores H).1
      (running count.sealer events).2 := by
  have hBacked :=
    backed_running (H := H) count.sealer events
  have hOrderly :
      (after count.sealer events : Mempool H).Orderly
        count.sealer :=
    orderly_new.run events
  have hStart : (new : Mempool H).Hears [] :=
    ⟨List.prefix_rfl, fun _ => rfl⟩
  have hHears :
      (after count.sealer events : Mempool H).Hears
        (frames events) :=
    hStart.run events
  rw [← running_fst] at hOrderly hHears
  refine
    { ordered := ?_
      full := ?_
      complete := ?_
      remainder := hOrderly.length_queueTxs
      cachedFirst := ?_
      cached := ?_
      written := hBacked.written }
  · exact (payloads_initial (handed_initial _)).trans
      (hOrderly.ordered.trans hHears.ordered)
  · intro entry hMem
    refine ⟨(hBacked.installed.handed entry hMem).1, ?_⟩
    apply CountSealer.eq_of_cuts
    apply hOrderly.cut
    exact (handed_initial _).subset
      (List.mem_map_of_mem hMem)
  · intro hReceiver hConsensus
    rw [← hHears.all hReceiver]
    exact hOrderly.flow (Or.inl hConsensus)
  · intro batch hNotify
    exact hBacked.caches
      (hBacked.installed.notify batch hNotify)
  · intro entry hMem
    exact hBacked.caches
      (hBacked.installed.handed entry hMem).2

end Mempool

end LibApollo
