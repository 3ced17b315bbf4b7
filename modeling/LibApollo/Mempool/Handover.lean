import LibApollo.Mempool.Pipeline
import LibApollo.Types.Symbolic
import LibApollo.Base.Progress

/-
  Every transaction that completes a batch reaches
  consensus.

  In an infinite run the batcher and the processor get their
  turn again and again, in any order and with any arrivals
  in between.  The batcher then takes every transaction and
  the processor hands over every batch.

  Key definitions include:
    * `Mempool.upTo`
    * `Mempool.consumed`, `Mempool.advance`

  Key theorems include:
    * `Mempool.consumed_batch`, `Mempool.advance_process`
    * `Mempool.everything_is_handed_over`
-/

------------------------------------------------------------
-- What Has Passed the Batcher
------------------------------------------------------------

namespace LibApollo

namespace Mempool

variable {H : Type}
variable {sealer : Sealer}
variable {pool : Mempool H}

/- The transactions that the batcher has taken. -/
def consumed (pool : Mempool H) : Nat :=
  (payloads pool.sealedBatches).length +
    pool.queueTxs.length

/- A task that has exited left nothing in its channel. -/
structure Dropped (pool : Mempool H) : Prop where
  batcher : pool.batcher = .exited → pool.rxBatcher = []
  processor : pool.processor = .exited → pool.rxProc = []

/- The batcher takes the next transaction, if there is one. -/
theorem Batches.consumed
    {pool' : Mempool H}
    (hBatches : Batches sealer pool pool') :
    pool'.consumed = pool.consumed + 1 ∨
      (pool'.consumed = pool.consumed ∧
        (pool.rxBatcher = [] ∨ pool.batcher = .exited ∨
          pool.processor = .exited)) := by
  cases hBatches with
  | idle hNothing =>
      refine Or.inr ⟨rfl, ?_⟩
      cases hBatcher : pool.batcher with
      | running => exact Or.inl (hNothing hBatcher)
      | exited => exact Or.inr (Or.inl rfl)
  | ends hEmpty _ => exact Or.inr ⟨rfl, Or.inl hEmpty⟩
  | giveUp _ hProcessor =>
      exact Or.inr ⟨rfl, Or.inr (Or.inr hProcessor)⟩
  | cut tx rest _ _ _ _ =>
      left
      unfold Mempool.consumed
      rw [sealedBatches_cutQueue]
      simp [cutQueue]
      omega
  | keep tx rest _ _ _ =>
      left
      simp [Mempool.consumed, sealedBatches, current]
      omega

theorem Batches.dropped
    {pool' : Mempool H}
    (hBatches : Batches sealer pool pool')
    (hDropped : pool.Dropped) :
    pool'.Dropped := by
  cases hBatches with
  | idle _ => exact hDropped
  | ends hEmpty _ =>
      exact { hDropped with batcher := fun _ => hEmpty }
  | giveUp _ _ =>
      exact { hDropped with batcher := fun _ => rfl }
  | cut tx rest hBatcher hProcessor _ _ =>
      refine
        { batcher := ?_
          processor := fun hEnd => absurd hEnd hProcessor }
      intro hEnd
      exact absurd (hBatcher.symm.trans hEnd) (by decide)
  | keep tx rest hBatcher _ _ =>
      refine { hDropped with batcher := ?_ }
      intro hEnd
      exact absurd (hBatcher.symm.trans hEnd) (by decide)

/- The batcher only adds to the sequence of batches. -/
theorem Batches.sealedBatches
    {pool' : Mempool H}
    (hBatches : Batches sealer pool pool') :
    pool.sealedBatches <+: pool'.sealedBatches := by
  cases hBatches with
  | cut tx rest _ _ _ _ =>
      rw [sealedBatches_cutQueue]
      exact List.prefix_append _ _
  | _ => exact List.prefix_rfl

theorem Dropped.receive
    (hDropped : pool.Dropped)
    (tx : Transaction) :
    (pool.receive tx).Dropped := by
  unfold Mempool.receive
  split
  · exact hDropped
  · rename_i hBatcher
    refine { hDropped with batcher := ?_ }
    intro hExited
    dsimp only at hExited
    rw [hBatcher] at hExited
    cases hExited
  · exact { hDropped with }

end Mempool

end LibApollo

------------------------------------------------------------
-- What Has Passed the Processor
------------------------------------------------------------

namespace LibApollo

namespace Mempool

variable {H : Type} [Crypto H]
variable {sealer : Sealer}
variable {pool pool' : Mempool H}

omit [Crypto H] in
/- How far the processor has come, in steps of its loop. -/
def advance (pool : Mempool H) : Nat :=
  3 * pool.handed.length +
    match pool.processor with
    | .notify _ => 2
    | .persist _ => 0
    | _ => 1

/- The processor advances while a batch is left. -/
theorem Processes.advance
    (hProcesses : Processes pool pool')
    (hOpen : pool.consensus = .running) :
    pool'.advance = pool.advance + 1 ∨
      (pool'.advance = pool.advance ∧
        (pool.processor = .exited ∨
          (pool.processor = .recv ∧
            pool.rxProc = []))) := by
  cases hProcesses with
  | idle hNothing => exact Or.inr ⟨rfl, hNothing⟩
  | ends hRecv hEmpty _ =>
      refine Or.inr ⟨?_, Or.inr ⟨hRecv, hEmpty⟩⟩
      simp [Mempool.advance, hRecv]
  | install batch rest hRecv _ =>
      left
      simp [Mempool.advance, hRecv]
  | hand batch hNotify _ =>
      left
      simp [Mempool.advance, hNotify]
      omega
  | giveUp batch _ hClosed =>
      rw [hOpen] at hClosed
      cases hClosed
  | persist batch hPersist =>
      left
      simp [Mempool.advance, hPersist]

theorem Processes.dropped
    (hProcesses : Processes pool pool')
    (hDropped : pool.Dropped) :
    pool'.Dropped := by
  cases hProcesses with
  | idle _ => exact hDropped
  | ends _ hEmpty _ =>
      exact { hDropped with processor := fun _ => hEmpty }
  | install batch rest _ _ =>
      refine { hDropped with processor := ?_ }
      intro hExited
      cases hExited
  | hand batch _ _ =>
      refine { hDropped with processor := ?_ }
      intro hExited
      cases hExited
  | giveUp batch _ _ =>
      exact { hDropped with processor := fun _ => rfl }
  | persist batch _ =>
      refine { hDropped with processor := ?_ }
      intro hExited
      cases hExited

theorem Dropped.step
    (hDropped : pool.Dropped)
    (event : Event) :
    (pool.step sealer event).Dropped := by
  cases event with
  | frame tx => exact hDropped.receive tx
  | batcher =>
      exact (batches_batch sealer pool).dropped hDropped
  | processor =>
      exact (processes_process pool).dropped hDropped
  | decodeError => exact hDropped
  | streamClosed => exact { hDropped with }
  | writer => exact { hDropped with }
  | take => exact { hDropped with }
  | close => exact { hDropped with }

omit [Crypto H] in
/- With no batch left all have been handed over. -/
theorem Dropped.handed_all
    (hDropped : pool.Dropped)
    (hNothing :
      pool.processor = .exited ∨
        (pool.processor = .recv ∧ pool.rxProc = [])) :
    pool.sealedBatches = pool.handed.map Prod.snd := by
  rcases hNothing with hExited | ⟨hRecv, hEmpty⟩
  · have hEmpty := hDropped.processor hExited
    simp [sealedBatches, current, hExited, hEmpty]
  · simp [sealedBatches, current, hRecv, hEmpty]

end Mempool

end LibApollo

------------------------------------------------------------
-- Infinite Runs
------------------------------------------------------------

namespace LibApollo

namespace Mempool

variable {H : Type} [Crypto H]
variable {sealer : Sealer}
variable {pool pool' : Mempool H}
variable {events : Nat → Event}

omit [Crypto H] in
/- What the tasks only ever add to. -/
structure Grows (pool pool' : Mempool H) : Prop where
  consumed : pool.consumed ≤ pool'.consumed
  advance : pool.advance ≤ pool'.advance
  batches : pool.sealedBatches <+: pool'.sealedBatches
  received : pool.received <+: pool'.received

omit [Crypto H] in
theorem grows_receive
    (pool : Mempool H)
    (tx : Transaction) :
    Grows pool (pool.receive tx) := by
  unfold receive
  split
  · exact ⟨le_rfl, le_rfl, List.prefix_rfl, List.prefix_rfl⟩
  · exact ⟨le_rfl, le_rfl, List.prefix_rfl,
      List.prefix_append _ _⟩
  · exact ⟨le_rfl, le_rfl, List.prefix_rfl,
      List.prefix_append _ _⟩

omit [Crypto H] in
theorem Batches.grows
    (hBatches : Batches sealer pool pool') :
    Grows pool pool' where
  consumed := by
    rcases hBatches.consumed with hMore | ⟨hSame, _⟩
    · omega
    · omega
  advance := by
    have hOutput := hBatches.sameOutput
    unfold Mempool.advance
    rw [hOutput.handed, hOutput.processor]
  batches := hBatches.sealedBatches
  received := by
    rw [hBatches.sameIntake.1]

theorem Processes.grows
    (hProcesses : Processes pool pool')
    (hOpen : pool.consensus = .running) :
    Grows pool pool' := by
  have hBatches := hProcesses.sealedBatches (Or.inl hOpen)
  have hQueue : pool'.queueTxs = pool.queueTxs := by
    cases hProcesses with
    | _ => rfl
  refine
    { consumed := ?_
      advance := ?_
      batches := ?_
      received := ?_ }
  · unfold Mempool.consumed
    rw [hBatches, hQueue]
  · rcases hProcesses.advance hOpen with hMore | ⟨hSame, _⟩
    · omega
    · omega
  · rw [hBatches]
  · rw [hProcesses.sameIntake.1]

/- While consensus listens nothing is undone. -/
theorem step_grows
    {event : Event}
    (hOpen : pool.consensus = .running)
    (hEvent : event ≠ .close) :
    Grows pool (pool.step sealer event) := by
  cases event with
  | frame tx => exact grows_receive pool tx
  | batcher => exact (batches_batch sealer pool).grows
  | processor =>
      exact (processes_process pool).grows hOpen
  | close => exact absurd rfl hEvent
  | _ =>
      exact ⟨le_rfl, le_rfl, List.prefix_rfl,
        List.prefix_rfl⟩

theorem step_consensus
    {event : Event}
    (hOpen : pool.consensus = .running)
    (hEvent : event ≠ .close) :
    (pool.step sealer event).consensus = .running := by
  cases event with
  | frame tx =>
      exact (sameOutput_receive pool tx).consensus.trans
        hOpen
  | batcher =>
      exact (batches_batch sealer
        pool).sameOutput.consensus.trans hOpen
  | processor =>
      have hProcesses := processes_process pool
      have hSame :
          pool.process.consensus = pool.consensus := by
        generalize pool.process = next at hProcesses
        cases hProcesses with
        | _ => rfl
      exact hSame.trans hOpen
  | close => exact absurd rfl hEvent
  | _ => exact hOpen

/- The mempool after the first events of an infinite run. -/
def upTo
    (sealer : Sealer)
    (events : Nat → Event) : Nat → Mempool H
| 0 => new
| n + 1 => (upTo sealer events n).step sealer (events n)

/- What holds after any number of events. -/
structure Running
    (sealer : Sealer)
    (pool : Mempool H) : Prop where
  orderly : pool.Orderly sealer
  dropped : pool.Dropped
  consensus : pool.consensus = .running

theorem upTo_running
    (sealer : Sealer)
    (hOpen : ∀ n, events n ≠ .close)
    (n : Nat) :
    (upTo sealer events n : Mempool H).Running sealer := by
  induction n with
  | zero =>
      refine ⟨orderly_new, ⟨?_, ?_⟩, rfl⟩
      · intro hExited
        cases hExited
      · intro hExited
        cases hExited
  | succ n ih =>
      exact ⟨ih.orderly.step (events n),
        ih.dropped.step (events n),
        step_consensus ih.consensus (hOpen n)⟩

theorem upTo_grows
    {n m : Nat}
    (sealer : Sealer)
    (hOpen : ∀ n, events n ≠ .close)
    (hLater : n ≤ m) :
    Grows (upTo sealer events n : Mempool H)
      (upTo sealer events m) := by
  induction hLater with
  | refl =>
      exact ⟨le_rfl, le_rfl, List.prefix_rfl,
        List.prefix_rfl⟩
  | @step m hLater ih =>
      have hStep :
          Grows (upTo sealer events m : Mempool H)
            (upTo sealer events (m + 1)) :=
        step_grows (upTo_running sealer hOpen m).consensus
          (hOpen m)
      exact ⟨ih.consumed.trans hStep.consumed,
        ih.advance.trans hStep.advance,
        ih.batches.trans hStep.batches,
        ih.received.trans hStep.received⟩

omit [Crypto H] in
/- What the receiver has decoded and nobody has taken. -/
theorem Running.length_received
    (hRunning : pool.Running sealer) :
    pool.received.length =
      pool.consumed + pool.rxBatcher.length := by
  rw [hRunning.orderly.flow (Or.inl hRunning.consensus),
    List.length_append, List.length_append]
  rfl

/- The batcher takes whatever has been received. -/
theorem eventually_consumed
    (sealer : Sealer)
    (hBatcher :
      Progress.Recurs (fun n => events n = .batcher))
    (hOpen : ∀ n, events n ≠ .close)
    (n : Nat) :
    ∃ m, n ≤ m ∧
      (upTo sealer events n : Mempool H).received.length ≤
        (upTo sealer events m : Mempool H).consumed := by
  refine hBatcher.reaches
    (fun i j hLater => (upTo_grows sealer hOpen hLater).consumed)
    ?_
  intro m hLater hTurn hBelow
  have hRunning :
      (upTo sealer events m : Mempool H).Running sealer :=
    upTo_running sealer hOpen m
  have hEarlier :=
    (upTo_grows (H := H) sealer hOpen
      hLater).received.length_le
  have hLength := hRunning.length_received
  have hWaiting :
      (upTo sealer events m : Mempool H).rxBatcher ≠ [] := by
    intro hEmpty
    rw [hEmpty, List.length_nil] at hLength
    omega
  have hNext :
      (upTo sealer events (m + 1) : Mempool H) =
        (upTo sealer events m).batch sealer := by
    simp only [upTo, hTurn, step]
  rw [hNext]
  rcases (batches_batch sealer
      (upTo sealer events m : Mempool H)).consumed with
    hMore | ⟨_, hEmpty | hExited | hExited⟩
  · omega
  · exact absurd hEmpty hWaiting
  · exact absurd (hRunning.dropped.batcher hExited) hWaiting
  · have hBatcherExited :=
      hRunning.orderly.processorEnds hRunning.consensus
        hExited
    exact absurd (hRunning.dropped.batcher hBatcherExited)
      hWaiting

/- The processor hands over whatever has been cut off. -/
theorem eventually_handed
    (sealer : Sealer)
    (hProcessor :
      Progress.Recurs (fun n => events n = .processor))
    (hOpen : ∀ n, events n ≠ .close)
    (n : Nat) :
    ∃ m, n ≤ m ∧
      (upTo sealer events n :
          Mempool H).sealedBatches.length ≤
        (upTo sealer events m : Mempool H).handed.length := by
  have hReached :
      ∃ m, n ≤ m ∧
        3 * (upTo sealer events n :
            Mempool H).sealedBatches.length ≤
          (upTo sealer events m : Mempool H).advance := by
    refine hProcessor.reaches
      (fun i j hLater => (upTo_grows sealer hOpen hLater).advance)
      ?_
    intro m hLater hTurn hBelow
    have hRunning :
        (upTo sealer events m : Mempool H).Running sealer :=
      upTo_running sealer hOpen m
    have hEarlier :=
      (upTo_grows (H := H) sealer hOpen
        hLater).batches.length_le
    have hNext :
        (upTo sealer events (m + 1) : Mempool H) =
          (upTo sealer events m).process := by
      simp only [upTo, hTurn, step]
    rw [hNext]
    rcases (processes_process
        (upTo sealer events m : Mempool H)).advance
        hRunning.consensus with
      hMore | ⟨_, hNothing⟩
    · omega
    · have hAll := hRunning.dropped.handed_all hNothing
      rw [hAll, List.length_map] at hEarlier
      have hAhead :
          3 * (upTo sealer events m :
              Mempool H).handed.length ≤
            (upTo sealer events m : Mempool H).advance :=
        Nat.le_add_right _ _
      omega
  rcases hReached with ⟨m, hLater, hReached⟩
  refine ⟨m, hLater, ?_⟩
  have hOffset :
      (upTo sealer events m : Mempool H).advance ≤
        3 * (upTo sealer events m :
          Mempool H).handed.length + 2 := by
    unfold advance
    split
    · omega
    · omega
    · omega
  omega

/- Of two prefixes one goes on where the other ends. -/
theorem prefix_append_drop
    {A : Type}
    {left right whole : List A}
    (hLeft : left <+: whole)
    (hRight : right <+: whole) :
    left <+: right ++ left.drop right.length := by
  rcases List.prefix_or_prefix_of_prefix hLeft hRight with
    hShort | hLong
  · exact hShort.trans (List.prefix_append _ _)
  · rcases hLong with ⟨more, rfl⟩
    rw [List.drop_left]

/-
  In every infinite run in which the batcher and the
  processor get their turn again and again and consensus
  listens, whatever was received at some point has later
  been handed to consensus, in order, but for less than a
  batch.
-/
theorem everything_is_handed_over
    (count : CountSealer)
    (events : Nat → Event)
    (hBatcher :
      Progress.Recurs (fun n => events n = .batcher))
    (hProcessor :
      Progress.Recurs (fun n => events n = .processor))
    (hOpen : ∀ n, events n ≠ .close)
    (n : Nat) :
    ∃ m rest,
      n ≤ m ∧ rest.length < count.threshold ∧
        (upTo count.sealer events n :
            Mempool H).received <+:
          payloads
              ((upTo count.sealer events m :
                Mempool H).handed.map Prod.snd) ++
            rest := by
  rcases eventually_consumed (H := H) count.sealer hBatcher
    hOpen n with ⟨i, hFirst, hTaken⟩
  rcases eventually_handed (H := H) count.sealer hProcessor
    hOpen i with ⟨m, hSecond, hHanded⟩
  have hLast :=
    upTo_running (H := H) count.sealer hOpen m
  have hReceived :=
    (upTo_grows (H := H) count.sealer hOpen
      (hFirst.trans hSecond)).received
  have hOrdered :=
    (payloads_initial (handed_initial _)).trans
      hLast.orderly.ordered
  -- what was cut off by then is among the batches handed over
  have hCut :
      (upTo count.sealer events i :
          Mempool H).sealedBatches <+:
        (upTo count.sealer events m :
          Mempool H).handed.map Prod.snd := by
    refine List.prefix_of_prefix_length_le
      (upTo_grows count.sealer hOpen hSecond).batches
      (handed_initial _) ?_
    rw [List.length_map]
    exact hHanded
  have hLength := (payloads_initial hCut).length_le
  have hQueue :=
    (upTo_running (H := H) count.sealer hOpen
      i).orderly.length_queueTxs
  refine ⟨m, _, hFirst.trans hSecond, ?_,
    prefix_append_drop hReceived hOrdered⟩
  rw [List.length_drop]
  unfold consumed at hTaken
  omega

/- Batches of one transaction. -/
def oneEach : CountSealer :=
  ⟨1, Nat.one_pos⟩

/- A transaction arrives, and both tasks take a step. -/
def busyEvents (n : Nat) : Event :=
  if n % 3 = 0 then
    .frame ⟨0, n, [], []⟩
  else if n % 3 = 1 then
    .batcher
  else
    .processor

theorem busyEvents_recurs :
    Progress.Recurs (fun n => busyEvents n = .batcher) ∧
      Progress.Recurs
        (fun n => busyEvents n = .processor) ∧
      ∀ n, busyEvents n ≠ .close := by
  refine ⟨?_, ?_, ?_⟩
  · intro n
    refine ⟨3 * n + 1, by omega, ?_⟩
    have hMod : (3 * n + 1) % 3 = 1 := by omega
    simp [busyEvents, hMod]
  · intro n
    refine ⟨3 * n + 2, by omega, ?_⟩
    have hMod : (3 * n + 2) % 3 = 2 := by omega
    simp [busyEvents, hMod]
  · intro n
    unfold busyEvents
    split
    · simp
    · split
      · simp
      · simp

/- The first transaction is handed over in the end. -/
theorem everything_is_handed_over_first :
    (upTo (H := Digest) oneEach.sealer busyEvents
        1).received = [⟨0, 0, [], []⟩] ∧
      ∃ m rest,
        1 ≤ m ∧ rest.length < 1 ∧
          (upTo (H := Digest) oneEach.sealer busyEvents
              1).received <+:
            payloads
                ((upTo (H := Digest) oneEach.sealer
                    busyEvents m).handed.map Prod.snd) ++
              rest := by
  refine ⟨rfl, ?_⟩
  exact everything_is_handed_over oneEach busyEvents
    busyEvents_recurs.1 busyEvents_recurs.2.1
    busyEvents_recurs.2.2 1

end Mempool

end LibApollo
