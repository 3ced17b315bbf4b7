import LibApollo.Artemis.Effects
import LibApollo.Mempool.Committer

/-
  An Artemis node is a committer.

  The heads are the blocks named by the vote chain, the
  queues hold received blocks, and the undelivered blocks
  wait with their batches for a parent.  Every step of the
  reactor is a sequence of moves, or it takes a batch in.

  Key definitions include:
    * `content`, `Context.committer`
    * `Follows`
    * `Network`, `Sealed`

  Key theorems include:
    * `Follows.acceptVote`
    * `step_follows`
    * `Reach.sound`, `Reach.stocked`
-/

------------------------------------------------------------
-- The Committer of a Context
------------------------------------------------------------

namespace LibApollo

namespace Artemis

open Committer

variable {H : Type} [DecidableEq H]

omit [DecidableEq H] in
/- A stored block is a shared block with a signature. -/
def content : Content H (Block H) where
  block := Block.blk
  getHash_eq := fun _ => rfl
  getPrev_eq := fun _ => rfl

def Context.notices (cx : Context H) : Notices H where
  batches := cx.batches
  toBatcher := cx.txConsensusToBatcher
  toRouter := cx.txCommittedToRouter

def Context.committer
    (cx : Context H) : Committer H (Block H) where
  storage := cx.storage
  notices := cx.notices
  heads := fun round =>
    (cx.voteChain.lookup round).map UCRVote.hash
  round := cx.round
  numFaults := cx.numFaults
  queued := fun block =>
    (∃ x ∈ cx.blockProcessingWaiting, x.1 = block) ∨
      ∃ x ∈ cx.responseWaiting, x.2.1 = block
  parked := fun block =>
    ∃ hash, cx.undeliveredBlocks.lookup hash = some block
  pending := fun hash =>
    ∃ x ∈ cx.pendingBatches, x.1 = hash

theorem notifyCommitted_committer
    (cx : Context H)
    (block : Block H) :
    (notifyCommitted cx block).committer =
      { cx.committer with
        notices :=
          cx.notices.committed (content.batchHash block)
            block.blk.header.height } := by
  have hSame :
      cx.notices.batches.readBatch
          (content.batchHash block) =
        cx.batches.readBatch block.blk.body.batchHash := rfl
  unfold notifyCommitted Context.readBatch Notices.committed
  rw [hSame]
  rcases cx.batches.readBatch block.blk.body.batchHash with
    ⟨found, batches⟩
  cases found with
  | none => rfl
  | some batch => rfl

theorem foldl_notifyCommitted_committer
    (blocks : List (Block H))
    (cx : Context H) :
    (blocks.foldl notifyCommitted cx).committer =
      { cx.committer with
        notices :=
          cx.notices.tellCommits content.batchHash
            blocks } := by
  induction blocks generalizing cx with
  | nil => rfl
  | cons block blocks ih =>
      have hHead := notifyCommitted_committer cx block
      have hNotices :
          (notifyCommitted cx block).notices =
            cx.notices.committed (content.batchHash block)
              block.blk.header.height :=
        congrArg Committer.notices hHead
      rw [List.foldl_cons, ih, hNotices, hHead]
      rfl

theorem commitIfDue_outcome
    {cx cx' : Context H}
    (hCommit : commitIfDue cx = .ok cx') :
    ∃ storage notices,
      CommitDue content cx.committer cx.committer.heads
          storage notices ∧
        cx'.committer =
          { cx.committer with
            storage := storage
            notices := notices } := by
  unfold commitIfDue at hCommit
  split at hCommit
  · rename_i hDue
    unfold doCommit at hCommit
    dsimp only at hCommit
    split at hCommit
    · cases hCommit
    · rename_i w hHead
      split at hCommit
      · cases hCommit
      · rename_i storage blocks hWalk
        rw [Except.ok.injEq] at hCommit
        refine ⟨storage, _, Or.inr ⟨hDue, w.hash,
          blocks, ?_, Storage.commitWalk_eq_some hWalk,
          rfl⟩, ?_⟩
        · exact congrArg (Option.map UCRVote.hash) hHead
        · rw [← hCommit, foldl_notifyCommitted_committer]
          rfl
  · rename_i hEarly
    cases hCommit
    exact ⟨_, _, Or.inl ⟨Nat.not_lt.mp hEarly, rfl, rfl⟩,
      rfl⟩

end Artemis

end LibApollo

------------------------------------------------------------
-- Accepting a Vote
------------------------------------------------------------

namespace LibApollo

namespace Artemis

open Committer

variable {H : Type} [DecidableEq H] [Crypto H]
variable {c : Committer H (Block H)}
variable {cx cx' : Context H}
variable {v : UCRVote H}

/- Votes that are ready are of the round they wait for. -/
def Ready (cx : Context H) : Prop :=
  ∀ round v, cx.voteReady.lookup round = some v →
    v.round = round

/- The context is reached from a committer by moves. -/
structure Follows
    (c : Committer H (Block H))
    (cx : Context H) : Prop where
  moves : Moves content c cx.committer
  ready : Ready cx

/- What is not of the committer does not matter. -/
theorem Follows.same
    (hFollows : Follows c cx)
    (hCommitter : cx'.committer = cx.committer)
    (hReady : cx'.voteReady = cx.voteReady) :
    Follows c cx' := by
  constructor
  · rw [hCommitter]
    exact hFollows.moves
  · unfold Ready
    rw [hReady]
    exact hFollows.ready

theorem Follows.move
    (hFollows : Follows c cx)
    (hMove : Move content cx.committer cx'.committer)
    (hReady : cx'.voteReady = cx.voteReady) :
    Follows c cx' := by
  constructor
  · exact hFollows.moves.tail hMove
  · unfold Ready
    rw [hReady]
    exact hFollows.ready

theorem Follows.send
    (hFollows : Follows c cx)
    (dest : Replica)
    (msg : ProtocolMsg H) :
    Follows c (cx.send dest msg) := by
  unfold Context.send
  split
  · exact hFollows
  · exact hFollows.same rfl rfl

/- A vote is made ready under its own round. -/
theorem Follows.keepReady
    (hFollows : Follows c cx)
    (v : UCRVote H) :
    Follows c
      { cx with
        voteReady := cx.voteReady.insert v.round v } := by
  refine ⟨hFollows.moves, ?_⟩
  exact FinMap.forall_insert hFollows.ready rfl

theorem Follows.takeReady
    (hFollows : Follows c cx)
    (taken : Nat) :
    Follows c
      { cx with voteReady := cx.voteReady.erase taken } := by
  refine ⟨hFollows.moves, ?_⟩
  exact FinMap.forall_erase hFollows.ready

/- The committer and the ready votes after a vote. -/
theorem acceptVote_committer
    (hAccept : acceptVote v cx = .ok cx') :
    cx'.voteReady = cx.voteReady ∧
      ∃ storage notices,
        let heads := fun round =>
          ((cx.voteChain.insert v.round v).lookup
            round).map UCRVote.hash
        CommitDue content cx.committer heads storage
            notices ∧
          cx'.committer =
            { cx.committer with
              storage := storage
              notices := notices
              heads := heads
              round := cx.round + 1 } := by
  rcases Result.bind_eq_ok.mp hAccept with
    ⟨committed, hCommit, hRest⟩
  rcases Result.bind_eq_ok.mp hRest with
    ⟨voted, hVoted, hRest⟩
  rcases Result.bind_eq_ok.mp hRest with
    ⟨next, _, hUpdate⟩
  rcases Result.bind_eq_ok.mp hUpdate with
    ⟨leaders, _, hFinal⟩
  rw [Except.ok.injEq, send_eq] at hFinal
  rcases commitIfDue_outcome hCommit with
    ⟨storage, notices, hOutcome, hCommitted⟩
  have hRound : committed.round = cx.round :=
    congrArg Committer.round hCommitted
  have hReady : committed.voteReady = cx.voteReady := by
    rcases commitIfDue_ok hCommit with
      ⟨_, _, _, _, _, _, rfl⟩
    rfl
  unfold recordVotedBlock at hVoted
  split at hVoted
  · cases hVoted
  · cases hVoted
    rw [← hFinal]
    refine ⟨hReady, storage, notices, hOutcome, ?_⟩
    change ({ committed.committer with
      round := committed.round + 1 } :
        Committer H (Block H)) = _
    rw [hCommitted, hRound]
    rfl

theorem Follows.acceptVote
    (hFollows : Follows c cx)
    (hRound : v.round = cx.round)
    (hAccept : acceptVote v cx = .ok cx') :
    Follows c cx' := by
  rcases acceptVote_committer hAccept with
    ⟨hReady, storage, notices, hOutcome, hEnd⟩
  refine hFollows.move ?_ hReady
  rw [hEnd]
  refine .accept v.hash _ storage notices ?_ hOutcome
  intro round
  rw [FinMap.lookup_insert_eq, hRound]
  split
  · rename_i hNow
    exact (if_pos hNow).symm
  · rename_i hOther
    exact (if_neg hOther).symm

theorem Follows.onReceiveRoundVote
    (hFollows : Follows c cx)
    (hRound : v.round = cx.round)
    (hReceive : onReceiveRoundVote v cx = .ok cx') :
    Follows c cx' := by
  unfold Artemis.onReceiveRoundVote at hReceive
  split at hReceive
  · cases hReceive
    exact hFollows
  · split at hReceive
    · exact hFollows.acceptVote hRound hReceive
    · split at hReceive
      · cases hReceive
      · split at hReceive
        · exact hFollows.acceptVote hRound hReceive
        · cases hReceive
          exact hFollows

theorem Follows.awaitBlock
    (hFollows : Follows c cx)
    (sender : Replica)
    (v : UCRVote H) :
    Follows c (awaitBlock sender v cx) := by
  have hSent :=
    hFollows.send sender (.request cx.myid cx.reqCtr v.hash)
  exact hSent.same rfl rfl

theorem Follows.tryReceiveRoundVote
    {sender : Replica}
    (hFollows : Follows c cx)
    (hTry : tryReceiveRoundVote sender v cx = .ok cx') :
    Follows c cx' := by
  unfold Artemis.tryReceiveRoundVote at hTry
  split at hTry
  · cases hTry
    exact hFollows
  · rename_i hPast
    split at hTry
    · split at hTry
      · cases hTry
        exact hFollows.keepReady v
      · cases hTry
        exact hFollows.awaitBlock sender v
    · rename_i hFuture
      split at hTry
      · cases hTry
        exact hFollows.awaitBlock sender v
      · have hRound : v.round = cx.round := by omega
        exact hFollows.onReceiveRoundVote hRound hTry

theorem Follows.tryRoundVote
    (hFollows : Follows c cx)
    (hTry : tryRoundVote cx = .ok cx') :
    Follows c cx' := by
  unfold Artemis.tryRoundVote at hTry
  split at hTry
  · cases hTry
    exact hFollows
  · split at hTry
    · cases hTry
      exact hFollows
    · have hSigned :
          Follows c
            (({ cx with
              signed :=
                cx.signed ++
                  [SignData.hash (newVote cx).digest] } :
              Context H).multicast
                (.ucrVote (newVote cx))) :=
        hFollows.same rfl rfl
      exact hSigned.onReceiveRoundVote rfl hTry

end Artemis

end LibApollo

------------------------------------------------------------
-- Delivering Blocks
------------------------------------------------------------

namespace LibApollo

namespace Artemis

open Committer

variable {H : Type} [DecidableEq H] [Crypto H]
variable {c : Committer H (Block H)}
variable {cx cx' : Context H}
variable {block : Block H}

theorem Follows.releaseVote
    (hFollows : Follows c cx)
    (hash : H) :
    Follows c (releaseVote hash cx) := by
  unfold Artemis.releaseVote
  split
  · exact hFollows
  · rename_i v _
    have hReady := hFollows.keepReady v
    exact hReady.same rfl rfl

/- A block is forgotten. -/
theorem Follows.forget
    (hFollows : Follows c cx)
    (hash : H) :
    Follows c
      { cx with
        undeliveredBlocks :=
          cx.undeliveredBlocks.erase hash } := by
  refine hFollows.move ?_ rfl
  refine .adjust _ _ _ (fun _ h => Or.inl h) ?_
    (fun _ h => h)
  intro block hParked
  rcases hParked with ⟨other, hLookup⟩
  refine ⟨other, ?_⟩
  dsimp only at hLookup
  rw [FinMap.lookup_erase_eq] at hLookup
  split at hLookup
  · cases hLookup
  · exact hLookup

/- A child is stored out of the blocks that wait. -/
theorem Follows.deliverChild
    (hFollows : Follows c cx)
    (hash child : H) :
    Follows c (deliverChild hash child cx) := by
  unfold Artemis.deliverChild
  dsimp only
  apply Follows.releaseVote
  split
  · exact hFollows.same rfl rfl
  · rename_i block hLookup
    have hStored : Follows c (storeBlock block cx) := by
      refine hFollows.move ?_ rfl
      exact .deliver block (.parked ⟨child, hLookup⟩)
    exact (hStored.forget child).same rfl rfl

theorem Follows.doDelivery
    (hStored : Follows c (storeBlock block cx)) :
    Follows c (doDelivery block cx) := by
  apply doDelivery_rule (fun _ now => Follows c now)
    (Follows c)
  · exact (hStored.forget _).releaseVote _
  · intro hash child now hNow _
    exact hNow.deliverChild hash child
  · intro last now hNow _
    exact hNow
  · intro now hNow
    exact hNow.move (.tell (.newRound _ _) rfl) rfl

theorem Follows.onReceiveNewBlockDirect
    (hFollows : Follows c cx)
    (hStored : Follows c (storeBlock block cx))
    (hReceive :
      onReceiveNewBlockDirect block cx = .ok cx') :
    Follows c cx' := by
  unfold Artemis.onReceiveNewBlockDirect at hReceive
  split at hReceive
  · cases hReceive
    exact hFollows
  · split at hReceive
    · cases hReceive
      exact hFollows
    · split at hReceive
      · cases hReceive
        exact hFollows
      · split at hReceive
        · cases hReceive
          exact hStored.doDelivery
        · split at hReceive
          · cases hReceive
          · split at hReceive
            · cases hReceive
              exact hStored.doDelivery
            · cases hReceive
              exact hFollows

theorem Follows.updateDelivery
    (sender : Replica)
    (hFollows : Follows c cx)
    (hStored : Follows c (storeBlock block cx))
    (hParked :
      Follows c
        { cx with
          undeliveredBlocks :=
            cx.undeliveredBlocks.insert
              (BlockTrait.getHash block) block }) :
    Follows c (updateDelivery block sender cx) := by
  unfold Artemis.updateDelivery
  dsimp only
  split
  · exact hFollows
  · split
    · exact hFollows
    · split
      · apply Follows.send
        exact hParked.same rfl rfl
      · exact hStored.doDelivery

/- A received block with its batch is stored or parked. -/
theorem storeBlock_move
    (hQueued : cx.committer.queued block)
    (hHas :
      cx.committer.Has (content.batchHash block)) :
    Move content cx.committer
      (storeBlock block cx).committer :=
  .deliver block (.queued hQueued hHas)

theorem park_moves
    (hQueued : cx.committer.queued block)
    (hHas :
      cx.committer.Has (content.batchHash block)) :
    Moves content cx.committer
      ({ cx with
        undeliveredBlocks :=
          cx.undeliveredBlocks.insert
            (BlockTrait.getHash block) block } :
        Context H).committer := by
  have hPark :
      Move content cx.committer
        { cx.committer with
          parked := fun other =>
            other = block ∨ cx.committer.parked other } :=
    .park block hQueued hHas
  refine (Relation.ReflTransGen.single hPark).tail ?_
  refine .adjust _ _ _ (fun _ h => Or.inl h) ?_
    (fun _ h => h)
  intro other hOther
  rcases hOther with ⟨hash, hLookup⟩
  dsimp only at hLookup
  rw [FinMap.lookup_insert_eq] at hLookup
  split at hLookup
  · cases hLookup
    exact Or.inl rfl
  · exact Or.inr ⟨hash, hLookup⟩

end Artemis

end LibApollo

------------------------------------------------------------
-- Handling the Queues
------------------------------------------------------------

namespace LibApollo

namespace Artemis

open Committer

variable {H : Type} [DecidableEq H] [Crypto H]
variable {c : Committer H (Block H)}
variable {cx cx' : Context H}
variable {block : Block H}
variable {batch : Batch}

theorem Follows.persistBatch
    (hFollows : Follows c cx)
    (batch : Batch) :
    Follows c (cx.persistBatch batch.hash batch) :=
  hFollows.move (.persist batch) rfl

omit [Crypto H] in
/- A batch that was just persisted is there. -/
theorem has_persistBatch
    (cx : Context H)
    (hash : H)
    (batch : Batch) :
    (cx.persistBatch hash batch).committer.Has hash :=
  ⟨batch, BatchStores.persistBatch_holds _ _ _⟩

/- The first received block leaves its queue. -/
theorem Follows.popBlock
    {x : Block H × Batch}
    {rest : List (Block H × Batch)}
    (hFollows : Follows c cx)
    (hQueue : cx.blockProcessingWaiting = x :: rest) :
    Follows c { cx with blockProcessingWaiting := rest } := by
  refine hFollows.move ?_ rfl
  refine .adjust _ _ _ ?_ (fun _ h => h) (fun _ h => h)
  intro other hOther
  left
  rcases hOther with ⟨y, hMem, hEq⟩ | hResponse
  · refine Or.inl ⟨y, ?_, hEq⟩
    rw [hQueue]
    exact List.mem_cons_of_mem _ hMem
  · exact Or.inr hResponse

theorem Follows.popResponse
    {x : Replica × Block H × Batch}
    {rest : List (Replica × Block H × Batch)}
    (hFollows : Follows c cx)
    (hQueue : cx.responseWaiting = x :: rest) :
    Follows c { cx with responseWaiting := rest } := by
  refine hFollows.move ?_ rfl
  refine .adjust _ _ _ ?_ (fun _ h => h) (fun _ h => h)
  intro other hOther
  left
  rcases hOther with hBlock | ⟨y, hMem, hEq⟩
  · exact Or.inl hBlock
  · refine Or.inr ⟨y, ?_, hEq⟩
    rw [hQueue]
    exact List.mem_cons_of_mem _ hMem

theorem Follows.processBlock
    {rest : List (Block H × Batch)}
    (hFollows : Follows c cx)
    (hQueue :
      cx.blockProcessingWaiting = (block, batch) :: rest)
    (hProcess :
      processBlock block batch
        { cx with blockProcessingWaiting := rest } =
          .ok cx') :
    Follows c cx' := by
  unfold Artemis.processBlock at hProcess
  split at hProcess
  · rename_i hSealed
    have hHash :
        batch.hash = block.blk.body.batchHash := by
      simpa [checkBatchHash] using hSealed
    rw [← hHash] at hProcess
    have hPersisted := hFollows.persistBatch batch
    have hStored :
        Follows c
          (storeBlock block
            (cx.persistBatch batch.hash batch)) := by
      refine hPersisted.move (storeBlock_move ?_ ?_) rfl
      · refine Or.inl ⟨(block, batch), ?_, rfl⟩
        change _ ∈ cx.blockProcessingWaiting
        rw [hQueue]
        exact List.mem_cons_self
      · change Committer.Has _ block.blk.body.batchHash
        rw [← hHash]
        exact has_persistBatch cx batch.hash batch
    have hQueued :
        (cx.persistBatch batch.hash
          batch).blockProcessingWaiting =
            (block, batch) :: rest := hQueue
    exact Follows.onReceiveNewBlockDirect
      (hPersisted.popBlock hQueued)
      (hStored.popBlock hQueued) hProcess
  · cases hProcess
    exact hFollows.popBlock hQueue

theorem Follows.processResponse
    {sender : Replica}
    {rest : List (Replica × Block H × Batch)}
    (hFollows : Follows c cx)
    (hQueue :
      cx.responseWaiting = (sender, block, batch) :: rest) :
    Follows c
      (processResponse sender block batch
        { cx with responseWaiting := rest }) := by
  unfold Artemis.processResponse
  split
  · rename_i hSealed
    have hHash :
        batch.hash = block.blk.body.batchHash := by
      simpa [checkBatchHash] using hSealed
    rw [← hHash]
    have hPersisted := hFollows.persistBatch batch
    have hQueued :
        (cx.persistBatch batch.hash
          batch).responseWaiting =
            (sender, block, batch) :: rest := hQueue
    have hIn :
        (cx.persistBatch batch.hash
          batch).committer.queued block := by
      refine Or.inr ⟨(sender, block, batch), ?_, rfl⟩
      rw [hQueued]
      exact List.mem_cons_self
    have hHas :
        (cx.persistBatch batch.hash batch).committer.Has
          (content.batchHash block) := by
      change Committer.Has _ block.blk.body.batchHash
      rw [← hHash]
      exact has_persistBatch cx batch.hash batch
    have hStored :
        Follows c
          (storeBlock block
            (cx.persistBatch batch.hash batch)) :=
      hPersisted.move (storeBlock_move hIn hHas) rfl
    have hParked :
        Follows c
          { cx.persistBatch batch.hash batch with
            undeliveredBlocks :=
              cx.undeliveredBlocks.insert
                (BlockTrait.getHash block) block } :=
      ⟨hPersisted.moves.trans (park_moves hIn hHas),
        hPersisted.ready⟩
    exact Follows.updateDelivery sender
      (hPersisted.popResponse hQueued)
      (hStored.popResponse hQueued)
      (hParked.popResponse hQueued)
  · exact hFollows.popResponse hQueue

theorem Follows.handleRequest
    {sender : Replica}
    {reqId : Nat}
    {hash : H}
    (hFollows : Follows c cx)
    (hHandle :
      handleRequest sender reqId hash cx = .ok cx') :
    Follows c cx' := by
  unfold Artemis.handleRequest at hHandle
  split at hHandle
  · cases hHandle
    exact hFollows
  · rcases Result.bind_eq_ok.mp hHandle with
      ⟨block, _, hAnswer⟩
    have hRead :
        Follows c
          (cx.readBatch block.blk.body.batchHash).2 :=
      hFollows.move (.read block.blk.body.batchHash) rfl
    split at hAnswer
    · rename_i read hEq
      rw [hEq] at hRead
      cases hAnswer
      exact hRead
    · rename_i found read hEq
      rw [hEq] at hRead
      cases hAnswer
      exact hRead.send _ _

theorem Follows.handleOther
    {msg : ProtocolMsg H}
    (hFollows : Follows c cx)
    (hHandle : handleOther msg cx = .ok cx') :
    Follows c cx' := by
  cases msg with
  | ucrVote v => exact hFollows.tryReceiveRoundVote hHandle
  | relay sender v =>
      exact hFollows.tryReceiveRoundVote hHandle
  | request sender reqId hash =>
      exact hFollows.handleRequest hHandle
  | blame v => cases hHandle
  | newBlock block batch => cases hHandle
  | response sender reqId block batch => cases hHandle
  | invalid => cases hHandle

/- The view leader stores the block it builds. -/
theorem Follows.doNewBlock
    {batchHash : H}
    {rest : List (H × Batch)}
    (hFollows : Follows c cx)
    (hPending :
      cx.pendingBatches = (batchHash, batch) :: rest)
    (hNew :
      doNewBlock batchHash batch
        { cx with pendingBatches := rest } = .ok cx') :
    Follows c cx' := by
  have hTell :
      Follows c
        (cx.tellBatcher
          (.proposed batch
            (newBlock cx batchHash).blk.header.height)) :=
    hFollows.move (.tell (.proposed batch _) rfl) rfl
  have hStored :
      Follows c
        (storeBlock (newBlock cx batchHash)
          (cx.tellBatcher
            (.proposed batch
              (newBlock cx
                batchHash).blk.header.height))) := by
    refine hTell.move ?_ rfl
    refine .deliver _ (.own rfl ⟨(batchHash, batch), ?_,
      rfl⟩)
    change _ ∈ cx.pendingBatches
    rw [hPending]
    exact List.mem_cons_self
  have hPop :
      ∀ now : Context H,
        Follows c now →
          now.pendingBatches = cx.pendingBatches →
          Follows c { now with pendingBatches := rest } := by
    intro now hNow hSame
    refine hNow.move ?_ rfl
    refine .adjust _ _ _ (fun _ h => Or.inl h)
      (fun _ h => h) ?_
    intro hash hHash
    rcases hHash with ⟨x, hMem, hEq⟩
    refine ⟨x, ?_, hEq⟩
    rw [hSame, hPending]
    exact List.mem_cons_of_mem _ hMem
  refine Follows.onReceiveNewBlockDirect ?_ ?_ hNew
  · exact (hPop _ hTell rfl).same rfl rfl
  · exact (hPop _ hStored rfl).same rfl rfl

end Artemis

end LibApollo

------------------------------------------------------------
-- Steps and Runs
------------------------------------------------------------

namespace LibApollo

namespace Artemis

open Committer

variable {H : Type} [DecidableEq H] [Crypto H]
variable {c : Committer H (Block H)}
variable {node node' : Node H}
variable {event : Event H}

/- Decoding computes the hash of a block. -/
def ProtocolMsg.Hashed : ProtocolMsg H → Prop
| .newBlock block _ => block.blk.WellHashed
| .response _ _ block _ => block.blk.WellHashed
| _ => True

/- Any messages, as they are decoded from the network. -/
def Network (event : Event H) : Prop :=
  ∀ msg, event = .recv msg → msg.Hashed

/-
  The batches that are handed over for a proposal have been
  stored under their hash when they were sealed.
-/
def Sealed
    (node : Node H)
    (event : Event H) : Prop :=
  ∀ batchHash batch,
    event = .batch batchHash batch →
      ∃ found, node.cx.batches.Holds batchHash found

theorem Follows.continue
    {phase : Phase}
    {result : Except Panic (Context H)}
    (hResult :
      ∀ cx, result = .ok cx → Follows c cx)
    (hStep : Node.continue phase result = .ok node') :
    Follows c node'.cx := by
  rcases Result.map_eq_ok.mp hStep with ⟨cx, hCx, rfl⟩
  exact hResult cx hCx

theorem Follows.readyLoop
    {phase next : Phase}
    {cx : Context H}
    (hFollows : Follows c cx)
    (hStep : readyLoop phase next cx = .ok node') :
    Follows c node'.cx := by
  unfold Artemis.readyLoop at hStep
  split at hStep
  · cases hStep
    exact hFollows
  · rename_i v hLookup
    refine Follows.continue ?_ hStep
    intro cx' hReceive
    exact (hFollows.takeReady cx.round).onReceiveRoundVote
      (hFollows.ready cx.round v hLookup) hReceive

theorem Follows.processMessage
    (hFollows : Follows c node.cx)
    (hStep : processMessage node = .ok node') :
    Follows c node'.cx := by
  unfold Artemis.processMessage at hStep
  dsimp only at hStep
  split at hStep
  · split at hStep
    · cases hStep
      exact hFollows
    · rename_i hQueue
      refine Follows.continue ?_ hStep
      intro cx' hProcess
      exact hFollows.processBlock hQueue hProcess
  · split at hStep
    · cases hStep
      exact hFollows
    · rename_i hQueue
      cases hStep
      exact hFollows.processResponse hQueue
  · exact hFollows.readyLoop hStep
  · split at hStep
    · cases hStep
      exact hFollows
    · rename_i msg rest _
      refine Follows.continue ?_ hStep
      intro cx' hHandle
      have hPopped :
          Follows c { node.cx with otherBuf := rest } :=
        hFollows.same rfl rfl
      exact hPopped.handleOther hHandle
  · exact hFollows.readyLoop hStep
  · cases hStep
    exact hFollows

theorem Follows.internalStep
    (hFollows : Follows c node.cx)
    (hStep : internalStep node = .ok node') :
    Follows c node'.cx := by
  unfold Artemis.internalStep at hStep
  split at hStep
  · cases hStep
    exact hFollows
  · cases hStep
    exact hFollows
  · unfold proposeLoop at hStep
    dsimp only at hStep
    split at hStep
    · cases hStep
      exact hFollows
    · rename_i hPending
      split at hStep
      · refine Follows.continue ?_ hStep
        intro cx' hNew
        exact hFollows.doNewBlock hPending hNew
      · cases hStep
        exact hFollows
  · refine Follows.continue ?_ hStep
    intro cx' hTry
    exact hFollows.tryRoundVote hTry
  · exact hFollows.processMessage hStep

/- A message is queued; its block has its hash. -/
theorem Follows.bufferMessage
    {msg : ProtocolMsg H}
    {cx : Context H}
    (hFollows : Follows c cx)
    (hMsg : msg.Hashed) :
    Follows c (bufferMessage msg cx) := by
  cases msg with
  | newBlock block batch =>
      refine hFollows.move ?_ rfl
      refine .adjust _ _ _ ?_ (fun _ h => h) (fun _ h => h)
      intro other hOther
      rcases hOther with ⟨x, hMem, rfl⟩ | hResponse
      · rcases List.mem_append.mp hMem with hOld | hNew
        · exact Or.inl (Or.inl ⟨x, hOld, rfl⟩)
        · rw [List.mem_singleton.mp hNew]
          exact Or.inr hMsg
      · exact Or.inl (Or.inr hResponse)
  | response sender reqId block batch =>
      refine hFollows.move ?_ rfl
      refine .adjust _ _ _ ?_ (fun _ h => h) (fun _ h => h)
      intro other hOther
      rcases hOther with hBlock | ⟨x, hMem, rfl⟩
      · exact Or.inl (Or.inl hBlock)
      · rcases List.mem_append.mp hMem with hOld | hNew
        · exact Or.inl (Or.inr ⟨x, hOld, rfl⟩)
        · rw [List.mem_singleton.mp hNew]
          exact Or.inr hMsg
  | ucrVote v => exact hFollows.same rfl rfl
  | relay sender v => exact hFollows.same rfl rfl
  | request sender reqId hash => exact hFollows.same rfl rfl
  | blame v => exact hFollows.same rfl rfl
  | invalid => exact hFollows

/- A step makes moves, or it takes a batch in. -/
theorem step_follows
    (hReady : Ready node.cx)
    (hEvent : Network event)
    (hStep : step node event = .ok node') :
    Follows node.cx.committer node'.cx ∨
      (Ready node'.cx ∧
        ∃ batchHash batch,
          event = .batch batchHash batch ∧
            TakesBatch batchHash node.cx.committer
              node'.cx.committer) := by
  have hFollows : Follows node.cx.committer node.cx :=
    ⟨.refl, hReady⟩
  cases event with
  | tick =>
      left
      simp only [step] at hStep
      split at hStep
      · cases hStep
        dsimp only
        split
        · exact hFollows.same rfl rfl
        · exact hFollows
      · cases hStep
        exact hFollows
  | recv msg =>
      left
      simp only [step] at hStep
      split at hStep
      · cases hStep
        exact hFollows.bufferMessage (hEvent msg rfl)
      · cases hStep
        exact hFollows
  | sealed batch =>
      left
      cases hStep
      exact hFollows.persistBatch batch
  | batch batchHash batch =>
      simp only [step] at hStep
      split at hStep
      · right
        cases hStep
        refine ⟨hReady, batchHash, batch, rfl, _, ?_, rfl⟩
        intro hash hHash
        rcases hHash with ⟨x, hMem, rfl⟩
        rcases List.mem_append.mp hMem with hOld | hNew
        · exact Or.inl ⟨x, hOld, rfl⟩
        · rw [List.mem_singleton.mp hNew]
          exact Or.inr rfl
      · cases hStep
        exact Or.inl hFollows
  | internal => exact Or.inl (hFollows.internalStep hStep)

theorem ready_new
    (config : Config) :
    Ready (Node.new config : Node H).cx := by
  intro round v hLookup
  simp [Node.new, Context.new,
    Context.announceHeightToBatcher, Context.tellBatcher]
    at hLookup

theorem initial_new
    (config : Config) :
    (Node.new config : Node H).cx.committer.Initial content
      Block.genesis where
  block := rfl
  storage := rfl
  round := rfl
  queued := by
    intro block hQueued
    rcases hQueued with ⟨x, hMem, _⟩ | ⟨x, hMem, _⟩
    · exact absurd hMem List.not_mem_nil
    · exact absurd hMem List.not_mem_nil
  parked := by
    intro block hParked
    rcases hParked with ⟨hash, hLookup⟩
    simp [Node.new, Context.new,
      Context.announceHeightToBatcher, Context.tellBatcher]
      at hLookup
  pending := by
    intro hash hPending
    rcases hPending with ⟨x, hMem, _⟩
    exact absurd hMem List.not_mem_nil
  batches := rfl
  toBatcher := rfl
  toRouter := rfl

theorem Reach.sound
    {config : Config}
    (hFree : CollisionFree H)
    (hReach :
      Machine.Reach step (fun _ event => Network event)
        (Node.new config) node) :
    Ready node.cx ∧ node.cx.committer.Sound content := by
  apply hReach.invariant
    (fun node =>
      Ready node.cx ∧ node.cx.committer.Sound content)
  · exact ⟨ready_new config, (initial_new config).sound⟩
  · intro node node' event hBoth hEvent hStep
    rcases hBoth with ⟨hReady, hSound⟩
    rcases step_follows hReady hEvent hStep with
      hFollows | ⟨hStill, _, _, _, hTakes⟩
    · exact ⟨hFollows.ready,
        hSound.moves hFree hFollows.moves⟩
    · exact ⟨hStill, hSound.takes hTakes⟩

theorem Reach.stocked
    {config : Config}
    {depth : H → Nat}
    (hFree : CollisionFree H)
    (hDepth : HashDepth depth)
    (hBatches :
      ∀ payload,
        Crypto.batchHash (H := H) payload ≠
          Crypto.emptyHash)
    (hReach :
      Machine.Reach step
        (fun node event =>
          Network event ∧ Sealed node event)
        (Node.new config) node) :
    node.cx.committer.Sound content ∧
      node.cx.committer.Stocked content := by
  have hAll :
      Ready node.cx ∧
        node.cx.committer.Sound content ∧
        node.cx.committer.Stocked content := by
    apply hReach.invariant
      (fun node =>
        Ready node.cx ∧
          node.cx.committer.Sound content ∧
          node.cx.committer.Stocked content)
    · exact ⟨ready_new config, (initial_new config).sound,
        (initial_new config).stocked hBatches⟩
    · intro node node' event hParts hGuard hStep
      rcases hParts with ⟨hReady, hSound, hStocked⟩
      rcases step_follows hReady hGuard.1 hStep with
        hFollows | ⟨hStill, hash, batch, hBatch, hTakes⟩
      · exact ⟨hFollows.ready,
          hSound.moves hFree hFollows.moves,
          hStocked.moves hFree hDepth hSound
            hFollows.moves⟩
      · exact ⟨hStill, hSound.takes hTakes,
          hStocked.takes (hGuard.2 hash batch hBatch)
            hTakes⟩
  exact hAll.2

end Artemis

end LibApollo
