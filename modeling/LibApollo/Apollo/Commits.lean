import LibApollo.Apollo.Reactor
import LibApollo.Mempool.Committer

/-
  An Apollo node is a committer.

  Every step of the reactor is a sequence of moves of the
  committer that is read off the context, or it takes a
  batch in.  Hence the committed set is the closure of the
  proposals accepted `numFaults` rounds ago and before, and
  the notices of the commits are complete, in every run in
  which the blocks of the messages have the hashes that
  decoding gives them.

  Key definitions include:
    * `content`, `Context.committer`
    * `Network`, `Sealed`

  Key theorems include:
    * `acceptProposal_moves`
    * `step_moves`
    * `Reach.sound`, `Reach.stocked`
-/

------------------------------------------------------------
-- The Committer of a Context
------------------------------------------------------------

namespace LibApollo

namespace Apollo

open Committer

variable {H : Type} [DecidableEq H] [Crypto H]

omit [DecidableEq H] [Crypto H] in
/- A stored block is its own content. -/
def content : Content H (Block H) where
  block := id
  getHash_eq := fun _ => rfl
  getPrev_eq := fun _ => rfl

omit [Crypto H] in
def Context.notices (cx : Context H) : Notices H where
  batches := cx.batches
  toBatcher := cx.txConsensusToBatcher
  toRouter := cx.txCommittedToRouter

omit [Crypto H] in
def Context.committer
    (cx : Context H) : Committer H (Block H) where
  storage := cx.storage
  notices := cx.notices
  heads := fun round =>
    (cx.propChainByRound.lookup round).map Propose.blockHash
  round := cx.round
  numFaults := cx.numFaults
  queued := fun block => ∃ x ∈ cx.propBuf, x.2.2.1 = block
  parked := fun _ => False
  pending := fun hash =>
    ∃ x ∈ cx.pendingBatches, x.1 = hash

omit [Crypto H] in
theorem send_committer
    (cx : Context H)
    (dest : Replica)
    (msg : ProtocolMsg H) :
    (cx.send dest msg).committer = cx.committer := by
  unfold Context.send
  split
  · rfl
  · rfl

omit [Crypto H] in
theorem notifyCommitted_committer
    (cx : Context H)
    (block : Block H) :
    (notifyCommitted cx block).committer =
      { cx.committer with
        notices :=
          cx.notices.committed (content.batchHash block)
            block.header.height } := by
  have hSame :
      cx.notices.batches.readBatch
          (content.batchHash block) =
        cx.batches.readBatch block.body.batchHash := rfl
  unfold notifyCommitted Context.readBatch Notices.committed
  rw [hSame]
  rcases cx.batches.readBatch block.body.batchHash with
    ⟨found, batches⟩
  cases found with
  | none => rfl
  | some batch => rfl

omit [Crypto H] in
theorem foldl_notifyCommitted_committer
    (blocks : List (Block H))
    (cx : Context H) :
    (blocks.foldl notifyCommitted cx).committer =
      { cx.committer with
        notices :=
          cx.notices.tellCommits content.batchHash
            blocks } := by
  induction blocks generalizing cx with
  | nil => rfl
  | cons block blocks ih =>
      have hHead := notifyCommitted_committer cx block
      have hNotices :
          (notifyCommitted cx block).notices =
            cx.notices.committed (content.batchHash block)
              block.header.height :=
        congrArg Committer.notices hHead
      rw [List.foldl_cons, ih, hNotices, hHead]
      rfl

end Apollo

end LibApollo

------------------------------------------------------------
-- Accepting a Proposal
------------------------------------------------------------

namespace LibApollo

namespace Apollo

open Committer

variable {H : Type} [DecidableEq H] [Crypto H]
variable {cx cx' : Context H}
variable {p : Propose H}
variable {block : Block H}

omit [Crypto H] in
theorem commitIfDue_outcome
    (hCommit : commitIfDue cx = .ok cx') :
    ∃ storage notices,
      CommitDue content cx.committer cx.committer.heads
          storage notices ∧
        cx'.committer =
          { cx.committer with
            storage := storage
            notices := notices } := by
  unfold commitIfDue at hCommit
  split at hCommit
  · rename_i hDue
    unfold doCommit at hCommit
    dsimp only at hCommit
    split at hCommit
    · cases hCommit
    · rename_i q hHead
      split at hCommit
      · cases hCommit
      · rename_i storage blocks hWalk
        rw [Except.ok.injEq] at hCommit
        refine ⟨storage, _, Or.inr ⟨hDue, q.blockHash,
          blocks, ?_, Storage.commitWalk_eq_some hWalk,
          rfl⟩, ?_⟩
        · exact congrArg (Option.map Propose.blockHash)
            hHead
        · rw [← hCommit, foldl_notifyCommitted_committer]
          rfl
  · rename_i hEarly
    cases hCommit
    exact ⟨_, _, Or.inl ⟨Nat.not_lt.mp hEarly, rfl, rfl⟩,
      rfl⟩

/- The batch is read and told before the commit. -/
theorem recordProposal_moves
    (p : Propose H)
    (block : Block H)
    (cx : Context H) :
    ∃ notices,
      Moves content cx.committer
          { cx.committer with notices := notices } ∧
        (recordProposal p block cx).committer =
          { cx.committer with
            notices := notices
            heads := fun round =>
              ((cx.propChainByRound.insert p.round
                p).lookup round).map Propose.blockHash } := by
  unfold recordProposal
  have hSend :
      ∃ outbox,
        cx.send cx.nextLeader (.relay cx.myid p) =
          { cx with outbox := outbox } := by
    unfold Context.send
    split
    · exact ⟨cx.outbox, rfl⟩
    · exact ⟨_, rfl⟩
  rcases hSend with ⟨outbox, hSend⟩
  rw [hSend]
  have hRead :
      Move content cx.committer
        { cx.committer with
          notices := { cx.notices with
            batches :=
              (cx.batches.readBatch
                block.body.batchHash).2 } } :=
    .read block.body.batchHash
  dsimp only
  unfold Context.readBatch
  dsimp only
  rcases hFound :
      cx.batches.readBatch block.body.batchHash with
    ⟨found, batches⟩
  rw [hFound] at hRead
  cases found with
  | none =>
      exact ⟨_, Relation.ReflTransGen.single hRead, rfl⟩
  | some batch =>
      refine ⟨_, Relation.ReflTransGen.tail
        (Relation.ReflTransGen.single hRead)
        (.tell (.proposed batch p.round) rfl), rfl⟩

theorem acceptProposal_moves
    (hRound : p.round = cx.round)
    (hAccept : acceptProposal p block cx = .ok cx') :
    Moves content cx.committer cx'.committer := by
  rcases recordProposal_moves p block cx with
    ⟨notices, hRecord, hRecorded⟩
  rcases Result.bind_eq_ok.mp hAccept with
    ⟨committed, hCommit, hFinal⟩
  rw [Except.ok.injEq] at hFinal
  rcases commitIfDue_outcome hCommit with
    ⟨storage, told, hOutcome, hCommitted⟩
  rw [hRecorded] at hOutcome hCommitted
  have hHeads :
      ∀ round,
        ((cx.propChainByRound.insert p.round p).lookup
            round).map Propose.blockHash =
          if round = cx.round then some p.blockHash
          else cx.committer.heads round := by
    intro round
    rw [FinMap.lookup_insert_eq, hRound]
    split
    · rfl
    · rfl
  have hAccepts :
      Move content { cx.committer with notices := notices }
        { cx.committer with
          storage := storage
          notices := told
          heads := fun round =>
            ((cx.propChainByRound.insert p.round p).lookup
              round).map Propose.blockHash
          round := cx.round + 1 } :=
    .accept p.blockHash _ storage told hHeads hOutcome
  refine Relation.ReflTransGen.tail
    (hRecord.tail hAccepts) ?_
  have hEnd :
      cx'.committer =
        { committed.committer with
          round := committed.round + 1
          notices := { committed.notices with
            toBatcher :=
              committed.notices.toBatcher ++
                [.newRound committed.nextLeader
                  (committed.round + 1)] } } := by
    rw [← hFinal]
    rfl
  have hNow : committed.round = cx.round :=
    congrArg Committer.round hCommitted
  have hTold : committed.notices = told :=
    congrArg Committer.notices hCommitted
  rw [hEnd, hCommitted, hNow, hTold]
  exact .tell (.newRound _ _) rfl

end Apollo

end LibApollo

------------------------------------------------------------
-- Handlers as Sequences of Moves
------------------------------------------------------------

namespace LibApollo

namespace Apollo

open Committer

variable {H : Type} [DecidableEq H] [Crypto H]
variable {c : Committer H (Block H)}
variable {cx cx' : Context H}
variable {sender : Replica}
variable {p : Propose H}
variable {block : Block H}

theorem onReceiveProposal_moves
    (hRound : p.round = cx.round)
    (hReceive : onReceiveProposal p block cx = .ok cx') :
    Moves content cx.committer cx'.committer := by
  unfold onReceiveProposal at hReceive
  split at hReceive
  · cases hReceive
    exact .refl
  · exact acceptProposal_moves hRound hReceive

theorem tryReceiveProposal_moves
    (hTry :
      tryReceiveProposal p block sender cx = .ok cx') :
    Moves content cx.committer cx'.committer := by
  unfold tryReceiveProposal at hTry
  split at hTry
  · cases hTry
    exact .refl
  · rename_i hPast
    split at hTry
    · cases hTry
      exact .refl
    · rename_i hFuture
      have hRound : p.round = cx.round := by omega
      split at hTry
      · cases hTry
        exact .refl
      · split at hTry
        · cases hTry
          exact .refl
        · split at hTry
          · cases hTry
            exact .refl
          · split at hTry
            · exact onReceiveProposal_moves hRound hTry
            · split at hTry
              · cases hTry
              · split at hTry
                · exact onReceiveProposal_moves hRound hTry
                · cases hTry
                  exact .refl

theorem receiveOrKeep_moves
    (hReceive :
      receiveOrKeep sender p block cx = .ok cx') :
    Moves content cx.committer cx'.committer := by
  unfold receiveOrKeep at hReceive
  split at hReceive
  · cases hReceive
    exact .refl
  · exact tryReceiveProposal_moves hReceive

/- A block is stored before its proposal is looked at. -/
theorem deliverBlock_moves
    {next : Option H}
    (hStore :
      Moves content c (cx.addDeliveredBlock block).committer)
    (hDeliver :
      deliverBlock sender p block cx = .ok (cx', next)) :
    Moves content c cx'.committer := by
  unfold deliverBlock at hDeliver
  split at hDeliver
  · rcases Result.bind_eq_ok.mp hDeliver with
      ⟨received, hReceive, hEnd⟩
    cases hEnd
    have hReceived := receiveOrKeep_moves hReceive
    exact hStore.trans hReceived
  · cases hDeliver
    unfold requestParent
    rw [send_committer]
    exact hStore

/- A proposal whose block has to be known already. -/
theorem deliveryCheck_none_moves
    {next : Option H}
    (hCheck :
      deliveryCheck sender p none cx = .ok (cx', next)) :
    Moves content cx.committer cx'.committer := by
  unfold deliveryCheck at hCheck
  split at hCheck
  · cases hCheck
    exact .refl
  · dsimp only at hCheck
    split at hCheck
    · rename_i block hLookup
      refine deliverBlock_moves ?_ hCheck
      apply Relation.ReflTransGen.single
      refine .deliver block (.stored ?_)
      rw [Storage.getHash_of_delivered hLookup]
      exact hLookup
    · cases hCheck
      unfold requestBlock
      rw [send_committer]
      exact .refl

/- The first proposal leaves the queue. -/
theorem pop_moves
    {x : Replica × Propose H × Block H × Batch}
    {rest : List (Replica × Propose H × Block H × Batch)}
    (hQueue : cx.propBuf = x :: rest) :
    Move content cx.committer
      ({ cx with propBuf := rest } : Context H).committer := by
  refine .adjust _ _ _ ?_ (fun _ h => h) (fun _ h => h)
  intro block hBlock
  rcases hBlock with ⟨y, hMem, hEq⟩
  refine Or.inl ⟨y, ?_, hEq⟩
  rw [hQueue]
  exact List.mem_cons_of_mem _ hMem

/- A proposal that comes with its block and batch. -/
theorem deliveryCheck_some_moves
    {batch : Batch}
    {rest : List (Replica × Propose H × Block H × Batch)}
    {next : Option H}
    (hQueue : cx.propBuf = (sender, p, block, batch) :: rest)
    (hCheck :
      deliveryCheck sender p (some (block, batch))
        { cx with propBuf := rest } = .ok (cx', next)) :
    Moves content cx.committer cx'.committer := by
  unfold deliveryCheck at hCheck
  split at hCheck
  · cases hCheck
    exact .single (pop_moves hQueue)
  · dsimp only at hCheck
    split at hCheck
    · cases hCheck
      exact .single (pop_moves hQueue)
    · split at hCheck
      · cases hCheck
        exact .single (pop_moves hQueue)
      · rename_i hSealed
        have hHash : batch.hash = block.body.batchHash := by
          simpa [checkBatchHash] using hSealed
        rw [← hHash] at hCheck
        refine deliverBlock_moves ?_ hCheck
        -- the block leaves the queue once it is stored
        have hPersist :
            Move content cx.committer
              (cx.persistBatch batch.hash batch).committer :=
          .persist batch
        have hStore :
            Move content
              (cx.persistBatch batch.hash batch).committer
              ((cx.persistBatch batch.hash
                batch).addDeliveredBlock block).committer := by
          refine .deliver block (.queued ?_ ⟨batch, ?_⟩)
          · refine ⟨(sender, p, block, batch), ?_, rfl⟩
            change _ ∈ cx.propBuf
            rw [hQueue]
            exact List.mem_cons_self
          · change (cx.batches.persistBatch batch.hash
              batch).Holds block.body.batchHash batch
            rw [hHash]
            exact BatchStores.persistBatch_holds _ _ _
        have hPop :
            Move content
              ((cx.persistBatch batch.hash
                batch).addDeliveredBlock block).committer
              (((({ cx with propBuf := rest } :
                Context H).persistBatch batch.hash
                  batch).addDeliveredBlock
                    block).committer) :=
          pop_moves hQueue
        exact ((Relation.ReflTransGen.single hPersist).tail
          hStore).tail hPop

theorem deliverWaitingChild_moves
    {hash : H}
    {next : Option H}
    (hDeliver :
      deliverWaitingChild sender hash cx =
        .ok (cx', next)) :
    Moves content cx.committer cx'.committer := by
  unfold deliverWaitingChild at hDeliver
  split at hDeliver
  · cases hDeliver
    exact .refl
  · dsimp only at hDeliver
    split at hDeliver
    · cases hDeliver
    · rcases Result.bind_eq_ok.mp hDeliver with
        ⟨received, hReceive, hEnd⟩
      cases hEnd
      have hReceived := receiveOrKeep_moves hReceive
      exact hReceived

theorem onRecvRequest_moves
    (sender : Replica)
    (reqId : Nat)
    (hash : H)
    (cx : Context H) :
    Moves content cx.committer
      (onRecvRequest sender reqId hash cx).committer := by
  unfold onRecvRequest
  split
  · exact .refl
  · split
    · exact .refl
    · rename_i block _
      have hRead :
          Move content cx.committer
            (cx.readBatch
              block.body.batchHash).2.committer :=
        .read block.body.batchHash
      split
      · rename_i read hEq
        rw [hEq] at hRead
        exact .single hRead
      · rename_i batch read hEq
        rw [hEq] at hRead
        rw [send_committer]
        exact .single hRead

/- The node stores its own block and accepts it. -/
theorem doPropose_moves
    {batchHash : H}
    {batch : Batch}
    {rest : List (H × Batch)}
    (hPending :
      cx.pendingBatches = (batchHash, batch) :: rest)
    (hPropose :
      doPropose batchHash batch
        { cx with pendingBatches := rest } = .ok cx') :
    Moves content cx.committer cx'.committer := by
  let own := newBlock cx batchHash
  have hStore :
      Move content cx.committer
        (cx.addDeliveredBlock own).committer := by
    refine .deliver own (.own rfl ⟨(batchHash, batch), ?_,
      rfl⟩)
    rw [hPending]
    exact List.mem_cons_self
  have hTell :
      Move content (cx.addDeliveredBlock own).committer
        ((cx.addDeliveredBlock own).tellBatcher
          (.proposed batch cx.round)).committer :=
    .tell (.proposed batch cx.round) rfl
  have hPop :
      Move content
        ((cx.addDeliveredBlock own).tellBatcher
          (.proposed batch cx.round)).committer
        (({ (cx.addDeliveredBlock own).tellBatcher
            (.proposed batch cx.round) with
          pendingBatches := rest } :
            Context H).committer) := by
    refine .adjust _ _ _ (fun _ h => Or.inl h)
      (fun _ h => h) ?_
    intro hash hHash
    rcases hHash with ⟨x, hMem, hEq⟩
    refine ⟨x, ?_, hEq⟩
    change x ∈ cx.pendingBatches
    rw [hPending]
    exact List.mem_cons_of_mem _ hMem
  have hAccept := onReceiveProposal_moves rfl hPropose
  exact (((Relation.ReflTransGen.single hStore).tail
    hTell).tail hPop).trans hAccept

end Apollo

end LibApollo

------------------------------------------------------------
-- Steps
------------------------------------------------------------

namespace LibApollo

namespace Apollo

open Committer

variable {H : Type} [DecidableEq H] [Crypto H]
variable {node node' : Node H}
variable {event : Event H}

/- Decoding computes the hash of a block. -/
def ProtocolMsg.Hashed : ProtocolMsg H → Prop
| .newProposal _ block _ => block.WellHashed
| .response _ _ _ block _ => block.WellHashed
| _ => True

/- Any messages, as they are decoded from the network. -/
def Network (event : Event H) : Prop :=
  ∀ msg, event = .recv msg → msg.Hashed

/-
  The batches that are handed over for a proposal have been
  stored under their hash when they were sealed.
-/
def Sealed
    (node : Node H)
    (event : Event H) : Prop :=
  ∀ batchHash batch,
    event = .batch batchHash batch →
      ∃ found, node.cx.batches.Holds batchHash found

theorem afterDelivery_moves
    {c : Committer H (Block H)}
    {phase : Phase}
    {sender : Replica}
    {result : Except Panic (Context H × Option H)}
    (hResult :
      ∀ cx next, result = .ok (cx, next) →
        Moves content c cx.committer)
    (hStep :
      Node.afterDelivery phase sender result =
        .ok node') :
    Moves content c node'.cx.committer := by
  rcases Result.bind_eq_ok.mp hStep with
    ⟨pair, hPair, hEnd⟩
  rcases pair with ⟨cx, next⟩
  cases hEnd
  exact hResult cx next hPair

theorem processMessage_moves
    (hStep : processMessage node = .ok node') :
    Moves content node.cx.committer node'.cx.committer := by
  unfold processMessage at hStep
  dsimp only at hStep
  split at hStep
  · split at hStep
    · cases hStep
      exact .refl
    · rename_i hQueue
      refine afterDelivery_moves ?_ hStep
      intro cx next hCheck
      exact deliveryCheck_some_moves hQueue hCheck
  · split at hStep
    · cases hStep
      exact .refl
    · refine afterDelivery_moves ?_ hStep
      intro cx next hCheck
      have hMoves := deliveryCheck_none_moves hCheck
      exact hMoves
  · split at hStep
    · cases hStep
      exact .refl
    · rename_i rest _
      split at hStep
      · rename_i sender reqId hash _
        cases hStep
        exact onRecvRequest_moves sender reqId hash
          { node.cx with otherBuf := rest }
      · cases hStep
      · cases hStep
        exact .refl
  · split at hStep
    · cases hStep
      exact .refl
    · refine afterDelivery_moves ?_ hStep
      intro cx next hCheck
      have hMoves := deliveryCheck_none_moves hCheck
      exact hMoves
  · cases hStep
    exact .refl

theorem proposeLoop_moves
    (hStep : proposeLoop node = .ok node') :
    Moves content node.cx.committer node'.cx.committer := by
  unfold proposeLoop at hStep
  dsimp only at hStep
  split at hStep
  · cases hStep
    exact .refl
  · rename_i hPending
    split at hStep
    · rcases Result.bind_eq_ok.mp hStep with
        ⟨proposed, hPropose, hEnd⟩
      cases hEnd
      exact doPropose_moves hPending hPropose
    · cases hStep
      exact .refl

theorem internalStep_moves
    (hStep : internalStep node = .ok node') :
    Moves content node.cx.committer node'.cx.committer := by
  unfold internalStep at hStep
  split at hStep
  · refine afterDelivery_moves ?_ hStep
    intro cx next hDeliver
    exact deliverWaitingChild_moves hDeliver
  · split at hStep
    · cases hStep
      exact .refl
    · cases hStep
      exact .refl
    · exact proposeLoop_moves hStep
    · exact processMessage_moves hStep

/- A message is queued; its block has its hash. -/
theorem handleMessage_move
    {msg : ProtocolMsg H}
    {cx : Context H}
    (hMsg : msg.Hashed) :
    Move content cx.committer
      (handleMessage msg cx).committer := by
  have hQueue :
      ∀ sender p block batch,
        block.WellHashed →
          Move content cx.committer
            ({ cx with
              propBuf :=
                cx.propBuf ++ [(sender, p, block, batch)] } :
              Context H).committer := by
    intro sender p block batch hWell
    refine .adjust _ _ _ ?_ (fun _ h => h) (fun _ h => h)
    intro other hOther
    rcases hOther with ⟨x, hMem, rfl⟩
    rcases List.mem_append.mp hMem with hOld | hNew
    · exact Or.inl ⟨x, hOld, rfl⟩
    · rw [List.mem_singleton.mp hNew]
      exact Or.inr hWell
  have hSame : Move content cx.committer cx.committer :=
    .adjust _ _ _ (fun _ h => Or.inl h) (fun _ h => h)
      (fun _ h => h)
  cases msg with
  | newProposal p block batch => exact hQueue _ _ _ _ hMsg
  | response sender reqId p block batch =>
      exact hQueue _ _ _ _ hMsg
  | relay sender p => exact hSame
  | request sender reqId hash => exact hSame
  | blame v => exact hSame

/- A step makes moves, or it takes a batch in. -/
theorem step_moves
    (hEvent : Network event)
    (hStep : step node event = .ok node') :
    Moves content node.cx.committer node'.cx.committer ∨
      ∃ batchHash batch,
        event = .batch batchHash batch ∧
          TakesBatch batchHash node.cx.committer
            node'.cx.committer := by
  cases event with
  | tick =>
      left
      simp only [step] at hStep
      split at hStep
      · cases hStep
        dsimp only
        split
        · exact .refl
        · exact .refl
      · cases hStep
        exact .refl
  | recv msg =>
      left
      simp only [step] at hStep
      split at hStep
      · cases hStep
        exact .single (handleMessage_move (hEvent msg rfl))
      · cases hStep
        exact .refl
  | sealed batch =>
      left
      cases hStep
      exact .single (.persist batch)
  | batch batchHash batch =>
      simp only [step] at hStep
      split at hStep
      · right
        cases hStep
        refine ⟨batchHash, batch, rfl, _, ?_, rfl⟩
        intro hash hHash
        rcases hHash with ⟨x, hMem, rfl⟩
        rcases List.mem_append.mp hMem with hOld | hNew
        · exact Or.inl ⟨x, hOld, rfl⟩
        · rw [List.mem_singleton.mp hNew]
          exact Or.inr rfl
      · cases hStep
        exact Or.inl .refl
  | internal => exact Or.inl (internalStep_moves hStep)

end Apollo

end LibApollo

------------------------------------------------------------
-- Runs
------------------------------------------------------------

namespace LibApollo

namespace Apollo

open Committer

variable {H : Type} [DecidableEq H] [Crypto H]
variable {config : Config}
variable {node : Node H}

theorem initial_new
    (config : Config) :
    (Node.new config : Node H).cx.committer.Initial content
      Block.genesis where
  block := rfl
  storage := rfl
  round := rfl
  queued := by
    intro block hQueued
    rcases hQueued with ⟨x, hMem, _⟩
    exact absurd hMem List.not_mem_nil
  parked := fun _ hParked => hParked
  pending := by
    intro hash hPending
    rcases hPending with ⟨x, hMem, _⟩
    exact absurd hMem List.not_mem_nil
  batches := rfl
  toBatcher := rfl
  toRouter := rfl

theorem Reach.sound
    (hFree : CollisionFree H)
    (hReach :
      Machine.Reach step (fun _ event => Network event)
        (Node.new config) node) :
    node.cx.committer.Sound content := by
  apply hReach.invariant
    (fun node => node.cx.committer.Sound content)
    (initial_new config).sound
  intro node node' event hSound hEvent hStep
  rcases step_moves hEvent hStep with
    hMoves | ⟨_, _, _, hTakes⟩
  · exact hSound.moves hFree hMoves
  · exact hSound.takes hTakes

theorem Reach.stocked
    {depth : H → Nat}
    (hFree : CollisionFree H)
    (hDepth : HashDepth depth)
    (hBatches :
      ∀ payload,
        Crypto.batchHash (H := H) payload ≠
          Crypto.emptyHash)
    (hReach :
      Machine.Reach step
        (fun node event =>
          Network event ∧ Sealed node event)
        (Node.new config) node) :
    node.cx.committer.Sound content ∧
      node.cx.committer.Stocked content := by
  apply hReach.invariant
    (fun node =>
      node.cx.committer.Sound content ∧
        node.cx.committer.Stocked content)
  · exact ⟨(initial_new config).sound,
      (initial_new config).stocked hBatches⟩
  · intro node node' event hBoth hGuard hStep
    rcases hBoth with ⟨hSound, hStocked⟩
    rcases step_moves hGuard.1 hStep with
      hMoves | ⟨batchHash, batch, hBatch, hTakes⟩
    · exact ⟨hSound.moves hFree hMoves,
        hStocked.moves hFree hDepth hSound hMoves⟩
    · exact ⟨hSound.takes hTakes,
        hStocked.takes
          (hGuard.2 batchHash batch hBatch) hTakes⟩

end Apollo

end LibApollo
