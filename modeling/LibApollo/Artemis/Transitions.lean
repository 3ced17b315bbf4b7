import LibApollo.Artemis.Effects

/-
  The transitions of an Artemis node, for any messages.

  Each handler is described by what it can do, with the
  conditions under which it does so, and every step is one
  of the transitions listed here.  Unlike the effects, the
  transitions name the step that acts and ask nothing of the
  messages.

  Key definitions include:
    * `Considers`, `TakesVote`
    * `TakesBlock`, `TakesResponse`, `Answers`
    * `Transition`
    * `SameHoldings`, `HoldingStep`

  Key theorems include:
    * `tryReceiveRoundVote_takes`
    * `processResponse_takes`
    * `step_transition`
    * `Transition.holdings`
-/

------------------------------------------------------------
-- Votes
------------------------------------------------------------

namespace LibApollo

namespace Artemis

variable {H : Type} [DecidableEq H] [Crypto H]
variable {cx cx' : Context H}
variable {sender : Replica}
variable {v : UCRVote H}

/- What `onReceiveRoundVote` does with a vote. -/
inductive Considers
    (v : UCRVote H)
    (cx : Context H) : Context H → Prop where
| refuse :
    ¬ Acceptable cx v →
      Considers v cx cx
| accept {cx' : Context H} :
    Acceptable cx v →
      Accepted v cx cx' →
      Considers v cx cx'

theorem onReceiveRoundVote_considers
    (hReceive : onReceiveRoundVote v cx = .ok cx') :
    Considers v cx cx' := by
  unfold onReceiveRoundVote at hReceive
  split at hReceive
  · rename_i hView
    cases hReceive
    exact .refuse (fun hAcceptable => hView hAcceptable.1)
  rename_i hView
  rw [not_not] at hView
  split at hReceive
  · rename_i hSelf
    exact .accept ⟨hView, Or.inl hSelf⟩
      (acceptVote_ok hReceive)
  rename_i hSelf
  split at hReceive
  · cases hReceive
  rename_i publicKey hKey
  split at hReceive
  · rename_i hSig
    exact .accept
      ⟨hView, Or.inr ⟨publicKey, hKey, hSig⟩⟩
      (acceptVote_ok hReceive)
  · rename_i hSig
    cases hReceive
    refine .refuse ?_
    intro hAcceptable
    rcases hAcceptable.2 with
      hOwn | ⟨other, hOther, hValid⟩
    · exact hSelf hOwn
    · cases hKey.symm.trans hOther
      exact hSig hValid

/- What `tryReceiveRoundVote` does with a vote. -/
inductive TakesVote
    (sender : Replica)
    (v : UCRVote H)
    (cx : Context H) : Context H → Prop where
| past :
    v.round < cx.round →
      TakesVote sender v cx cx
| keep :
    cx.round < v.round →
      cx.storage.isDeliveredByHash v.hash = true →
      TakesVote sender v cx
        { cx with
          voteReady := cx.voteReady.insert v.round v }
| await :
    cx.round ≤ v.round →
      cx.storage.isDeliveredByHash v.hash = false →
      TakesVote sender v cx (awaitBlock sender v cx)
| consider {cx' : Context H} :
    Current cx v →
      Considers v cx cx' →
      TakesVote sender v cx cx'

theorem tryReceiveRoundVote_takes
    (hTry : tryReceiveRoundVote sender v cx = .ok cx') :
    TakesVote sender v cx cx' := by
  unfold tryReceiveRoundVote at hTry
  split at hTry
  · rename_i hPast
    cases hTry
    exact .past hPast
  rename_i hPast
  have hLe : cx.round ≤ v.round := Nat.not_lt.mp hPast
  split at hTry
  · rename_i hFuture
    split at hTry
    · rename_i hKnown
      cases hTry
      exact .keep hFuture hKnown
    · rename_i hUnknown
      cases hTry
      exact .await hLe (Bool.eq_false_iff.mpr hUnknown)
  rename_i hFuture
  split at hTry
  · rename_i hUnknown
    cases hTry
    exact .await hLe (by simpa using hUnknown)
  · rename_i hKnown
    have hRound : v.round = cx.round :=
      Nat.le_antisymm (Nat.not_lt.mp hFuture) hLe
    exact .consider ⟨hRound, by simpa using hKnown⟩
      (onReceiveRoundVote_considers hTry)

/- The vote a message carries, and from whom. -/
def ProtocolMsg.carriedVote :
    ProtocolMsg H → Option (Replica × UCRVote H)
| .ucrVote v => some (v.vote.origin, v)
| .relay sender v => some (sender, v)
| _ => none

end Artemis

end LibApollo

------------------------------------------------------------
-- Blocks
------------------------------------------------------------

namespace LibApollo

namespace Artemis

variable {H : Type} [DecidableEq H] [Crypto H]
variable {cx cx' : Context H}
variable {sender : Replica}
variable {block : Block H}
variable {batch : Batch}

/- What `processBlock` does with a block and its batch. -/
inductive TakesBlock
    (block : Block H)
    (batch : Batch)
    (cx : Context H) : Context H → Prop where
| drop : TakesBlock block batch cx cx
| leave :
    batch.hash = block.blk.body.batchHash →
      TakesBlock block batch cx
        (cx.persistBatch block.blk.body.batchHash batch)
| deliver :
    batch.hash = block.blk.body.batchHash →
      cx.storage.isDeliveredByHash
        (BlockTrait.getPrev block) = true →
      TakesBlock block batch cx
        (doDelivery block
          (cx.persistBatch block.blk.body.batchHash batch))

theorem processBlock_takes
    (hProcess : processBlock block batch cx = .ok cx') :
    TakesBlock block batch cx cx' := by
  unfold processBlock at hProcess
  split at hProcess
  · rename_i hBatch
    have hHash := of_decide_eq_true hBatch
    unfold onReceiveNewBlockDirect at hProcess
    split at hProcess
    · cases hProcess
      exact .leave hHash
    split at hProcess
    · cases hProcess
      exact .leave hHash
    rename_i hParent
    have hPrev :
        cx.storage.isDeliveredByHash
          (BlockTrait.getPrev block) = true := by
      simpa [Context.persistBatch] using hParent
    split at hProcess
    · cases hProcess
      exact .leave hHash
    split at hProcess
    · cases hProcess
      exact .deliver hHash hPrev
    split at hProcess
    · cases hProcess
    split at hProcess
    · cases hProcess
      exact .deliver hHash hPrev
    · cases hProcess
      exact .leave hHash
  · cases hProcess
    exact .drop

/- A response whose block waits for a missing parent. -/
def Orphan
    (block : Block H)
    (batch : Batch)
    (cx : Context H) : Prop :=
  batch.hash = block.blk.body.batchHash ∧
    cx.storage.isDeliveredByHash
      (BlockTrait.getHash block) = false ∧
    cx.blockParentWaiting.lookup
      (BlockTrait.getPrev block) = none ∧
    cx.storage.isDeliveredByHash
      (BlockTrait.getPrev block) = false

/- The context in which such a block is asked for. -/
def parked
    (block : Block H)
    (batch : Batch)
    (cx : Context H) : Context H :=
  { cx.persistBatch block.blk.body.batchHash batch with
    blockParentWaiting :=
      cx.blockParentWaiting.insert
        (BlockTrait.getPrev block)
        (BlockTrait.getHash block)
    undeliveredBlocks :=
      cx.undeliveredBlocks.insert
        (BlockTrait.getHash block) block }

/- What `processResponse` does with a block and its batch. -/
inductive TakesResponse
    (sender : Replica)
    (block : Block H)
    (batch : Batch)
    (cx : Context H) : Context H → Prop where
| drop : TakesResponse sender block batch cx cx
| leave :
    batch.hash = block.blk.body.batchHash →
      TakesResponse sender block batch cx
        (cx.persistBatch block.blk.body.batchHash batch)
| park :
    Orphan block batch cx →
      TakesResponse sender block batch cx
        (doRequest sender (BlockTrait.getHash block)
          (parked block batch cx))
| deliver :
    batch.hash = block.blk.body.batchHash →
      cx.storage.isDeliveredByHash
        (BlockTrait.getPrev block) = true →
      TakesResponse sender block batch cx
        (doDelivery block
          (cx.persistBatch block.blk.body.batchHash batch))

theorem processResponse_takes
    (sender : Replica)
    (block : Block H)
    (batch : Batch)
    (cx : Context H) :
    TakesResponse sender block batch cx
      (processResponse sender block batch cx) := by
  unfold processResponse
  split
  · rename_i hBatch
    have hHash := of_decide_eq_true hBatch
    unfold updateDelivery
    dsimp only
    split
    · exact .leave hHash
    rename_i hKnown
    split
    · exact .leave hHash
    rename_i hWaiting
    split
    · rename_i hParent
      refine .park ⟨hHash, ?_, ?_, ?_⟩
      · exact Bool.eq_false_iff.mpr hKnown
      · simpa [Context.persistBatch] using hWaiting
      · simpa [Context.persistBatch] using hParent
    · rename_i hParent
      refine .deliver hHash ?_
      simpa [Context.persistBatch] using hParent
  · exact .drop

/- A response that parks its block does so. -/
theorem processResponse_parks
    (sender : Replica)
    (hOrphan : Orphan block batch cx) :
    processResponse sender block batch cx =
      doRequest sender (BlockTrait.getHash block)
        (parked block batch cx) := by
  rcases hOrphan with ⟨hHash, hKnown, hWaiting, hParent⟩
  have hBatch : checkBatchHash block batch = true :=
    decide_eq_true hHash
  unfold processResponse updateDelivery
  rw [if_pos hBatch]
  simp [Context.persistBatch, hKnown, hWaiting, hParent,
    parked]

/- What `handleRequest` does with a request. -/
inductive Answers
    (sender : Replica)
    (reqId : Nat)
    (hash : H)
    (cx : Context H) : Context H → Prop where
| pass : Answers sender reqId hash cx cx
| missing {block : Block H} :
    requestedBlock cx hash = .ok block →
      Answers sender reqId hash cx
        (cx.readBatch block.blk.body.batchHash).2
| respond {block : Block H} {batch : Batch} :
    requestedBlock cx hash = .ok block →
      (cx.readBatch block.blk.body.batchHash).1 =
        some batch →
      Answers sender reqId hash cx
        ((cx.readBatch block.blk.body.batchHash).2.send
          sender (.response cx.myid reqId block batch))

omit [Crypto H] in
theorem handleRequest_answers
    {reqId : Nat}
    {hash : H}
    (hHandle :
      handleRequest sender reqId hash cx = .ok cx') :
    Answers sender reqId hash cx cx' := by
  unfold handleRequest at hHandle
  split at hHandle
  · cases hHandle
    exact .pass
  rcases Result.bind_eq_ok.mp hHandle with
    ⟨block, hBlock, hRest⟩
  have hMyid :
      (cx.readBatch block.blk.body.batchHash).2.myid =
        cx.myid := rfl
  split at hRest
  · rename_i read hRead
    cases hRest
    have hSecond := congrArg Prod.snd hRead
    dsimp only at hSecond
    rw [← hSecond]
    exact .missing hBlock
  · rename_i batch read hRead
    cases hRest
    have hFirst := congrArg Prod.fst hRead
    have hSecond := congrArg Prod.snd hRead
    dsimp only at hFirst hSecond
    rw [← hSecond, hMyid]
    exact .respond hBlock hFirst

end Artemis

end LibApollo

------------------------------------------------------------
-- Transitions
------------------------------------------------------------

namespace LibApollo

namespace Artemis

variable {H : Type} [DecidableEq H] [Crypto H]
variable {node node' : Node H}
variable {event : Event H}

/- The handler call of a step and what it does. -/
inductive Transition
    (node : Node H) : Event H → Context H → Prop where
| stay {event : Event H} :
    Transition node event node.cx
| count :
    Transition node .tick
      { node.cx with benchCommittedTxCount := 0 }
| queue (msg : ProtocolMsg H) :
    Transition node (.recv msg) (bufferMessage msg node.cx)
| install (batch : Batch) :
    Transition node (.sealed batch)
      (node.cx.persistBatch batch.hash batch)
| pend (batchHash : H) (batch : Batch) :
    Transition node (.batch batchHash batch)
      { node.cx with
        pendingBatches :=
          node.cx.pendingBatches ++ [(batchHash, batch)] }
| block {block : Block H} {batch : Batch}
    {rest : List (Block H × Batch)} {cx' : Context H} :
    node.phase = .blocks →
      node.cx.blockProcessingWaiting =
        (block, batch) :: rest →
      TakesBlock block batch
        { node.cx with blockProcessingWaiting := rest }
        cx' →
      Transition node .internal cx'
| response {sender : Replica} {block : Block H}
    {batch : Batch}
    {rest : List (Replica × Block H × Batch)}
    {cx' : Context H} :
    node.phase = .responses →
      node.cx.responseWaiting =
        (sender, block, batch) :: rest →
      TakesResponse sender block batch
        { node.cx with responseWaiting := rest } cx' →
      Transition node .internal cx'
| ready {v : UCRVote H} {cx' : Context H} :
    candidateVote node = some v →
      node.cx.voteReady.lookup node.cx.round = some v →
      Considers v
        { node.cx with
          voteReady := node.cx.voteReady.erase
            node.cx.round } cx' →
      Transition node .internal cx'
| vote {msg : ProtocolMsg H} {sender : Replica}
    {v : UCRVote H} {rest : List (ProtocolMsg H)}
    {cx' : Context H} :
    node.phase = .others →
      node.cx.otherBuf = msg :: rest →
      msg.carriedVote = some (sender, v) →
      TakesVote sender v { node.cx with otherBuf := rest }
        cx' →
      Transition node .internal cx'
| answer {sender : Replica} {reqId : Nat} {hash : H}
    {rest : List (ProtocolMsg H)} {cx' : Context H} :
    node.phase = .others →
      node.cx.otherBuf =
        .request sender reqId hash :: rest →
      Answers sender reqId hash
        { node.cx with otherBuf := rest } cx' →
      Transition node .internal cx'
| dispatch {batchHash : H} {batch : Batch}
    {rest : List (H × Batch)} {cx' : Context H} :
    Dispatches node batchHash batch rest →
      Dispatched batchHash batch
        { node.cx with pendingBatches := rest } cx' →
      Transition node .internal cx'
| own {cx' : Context H} :
    Votes node →
      Accepted (newVote node.cx) (voting node.cx) cx' →
      Transition node .internal cx'

omit [Crypto H] in
/- The context a handler returned. -/
theorem continue_cx
    {phase : Phase}
    {result : Except Panic (Context H)}
    (hStep : Node.continue phase result = .ok node') :
    result = .ok node'.cx := by
  rcases Result.map_eq_ok.mp hStep with ⟨cx, hCx, rfl⟩
  exact hCx

theorem readyLoop_transition
    {phase next : Phase}
    (hCandidate :
      candidateVote node =
        node.cx.voteReady.lookup node.cx.round)
    (hStep : readyLoop phase next node.cx = .ok node') :
    Transition node .internal node'.cx := by
  unfold readyLoop at hStep
  split at hStep
  · cases hStep
    exact .stay
  · rename_i v hLookup
    exact .ready (hCandidate.trans hLookup) hLookup
      (onReceiveRoundVote_considers (continue_cx hStep))

theorem processMessage_transition
    (hStep : processMessage node = .ok node') :
    Transition node .internal node'.cx := by
  unfold processMessage at hStep
  dsimp only at hStep
  split at hStep
  · rename_i hPhase
    split at hStep
    · cases hStep
      exact .stay
    · rename_i hQueue
      exact .block hPhase hQueue
        (processBlock_takes (continue_cx hStep))
  · rename_i hPhase
    split at hStep
    · cases hStep
      exact .stay
    · rename_i hQueue
      cases hStep
      exact .response hPhase hQueue
        (processResponse_takes _ _ _ _)
  · rename_i hPhase
    exact readyLoop_transition
      (by simp only [candidateVote, hPhase]) hStep
  · rename_i hPhase
    split at hStep
    · cases hStep
      exact .stay
    · rename_i msg rest hQueue
      have hHandle := continue_cx hStep
      cases msg with
      | ucrVote v =>
          exact .vote hPhase hQueue rfl
            (tryReceiveRoundVote_takes hHandle)
      | relay sender v =>
          exact .vote hPhase hQueue rfl
            (tryReceiveRoundVote_takes hHandle)
      | request sender reqId hash =>
          exact .answer hPhase hQueue
            (handleRequest_answers hHandle)
      | blame v => cases hHandle
      | newBlock block batch => cases hHandle
      | response sender reqId block batch => cases hHandle
      | invalid => cases hHandle
  · rename_i hPhase
    exact readyLoop_transition
      (by simp only [candidateVote, hPhase]) hStep
  · cases hStep
    exact .stay

theorem proposeLoop_transition
    (hPhase : node.phase = .propose)
    (hStep : proposeLoop node = .ok node') :
    Transition node .internal node'.cx := by
  unfold proposeLoop at hStep
  dsimp only at hStep
  split at hStep
  · cases hStep
    exact .stay
  · rename_i batchHash batch rest hPending
    split at hStep
    · rename_i hLeader
      rcases doNewBlock_ok batchHash batch
          (show ({ node.cx with pendingBatches := rest } :
            Context H).viewLeader = _ from hLeader) with
        ⟨cx', hNew, hDispatched⟩
      have hSame := hNew.symm.trans (continue_cx hStep)
      rw [Except.ok.injEq] at hSame
      rw [← hSame]
      exact .dispatch ⟨hPhase, hLeader, hPending⟩
        hDispatched
    · cases hStep
      exact .stay

theorem tryRoundVote_transition
    (hPhase : node.phase = .vote)
    (hStep :
      Node.continue .select (tryRoundVote node.cx) =
        .ok node') :
    Transition node .internal node'.cx := by
  have hTry := continue_cx hStep
  unfold tryRoundVote at hTry
  split at hTry
  · rw [Except.ok.injEq] at hTry
    rw [← hTry]
    exact .stay
  rename_i hSelf
  rw [not_not] at hSelf
  split at hTry
  · rw [Except.ok.injEq] at hTry
    rw [← hTry]
    exact .stay
  rename_i hHigher
  rw [doRoundVote_eq hSelf] at hTry
  exact .own ⟨hPhase, hSelf, Nat.not_le.mp hHigher⟩
    (acceptVote_ok hTry)

theorem internalStep_transition
    (hStep : internalStep node = .ok node') :
    Transition node .internal node'.cx := by
  unfold internalStep at hStep
  split at hStep
  · cases hStep
    exact .stay
  · cases hStep
    exact .stay
  · rename_i hPhase
    exact proposeLoop_transition hPhase hStep
  · rename_i hPhase
    exact tryRoundVote_transition hPhase hStep
  · exact processMessage_transition hStep

/- Every step is one of the transitions. -/
theorem step_transition
    (hStep : step node event = .ok node') :
    Transition node event node'.cx := by
  cases event with
  | tick =>
      simp only [step] at hStep
      split at hStep
      · cases hStep
        dsimp only
        split
        · exact .count
        · exact .stay
      · cases hStep
        exact .stay
  | recv msg =>
      simp only [step] at hStep
      split at hStep
      · cases hStep
        exact .queue msg
      · cases hStep
        exact .stay
  | sealed batch =>
      cases hStep
      exact .install batch
  | batch batchHash batch =>
      simp only [step] at hStep
      split at hStep
      · cases hStep
        exact .pend batchHash batch
      · cases hStep
        exact .stay
  | internal => exact internalStep_transition hStep

end Artemis

end LibApollo

------------------------------------------------------------
-- The Blocks and Votes a Node Holds
------------------------------------------------------------

namespace LibApollo

namespace Artemis

variable {H : Type} [DecidableEq H] [Crypto H]
variable {cx mid cx' : Context H}
variable {node : Node H}
variable {event : Event H}

omit [Crypto H] in
/-
  The delivered, undelivered and last seen blocks and the
  votes that wait are the same.
-/
structure SameHoldings (cx cx' : Context H) : Prop where
  delivered :
    ∀ hash,
      cx'.storage.deliveredBlockFromHash hash =
        cx.storage.deliveredBlockFromHash hash
  lastSeenBlock : cx'.lastSeenBlock = cx.lastSeenBlock
  undeliveredBlocks :
    cx'.undeliveredBlocks = cx.undeliveredBlocks
  blockParentWaiting :
    cx'.blockParentWaiting = cx.blockParentWaiting
  voteWaiting : cx'.voteWaiting = cx.voteWaiting
  voteReady : cx'.voteReady = cx.voteReady

omit [Crypto H] in
theorem SameHoldings.refl
    (cx : Context H) : SameHoldings cx cx :=
  ⟨fun _ => rfl, rfl, rfl, rfl, rfl, rfl⟩

omit [Crypto H] in
theorem SameHoldings.isDelivered
    (hSame : SameHoldings cx cx')
    (hash : H) :
    cx'.storage.isDeliveredByHash hash =
      cx.storage.isDeliveredByHash hash :=
  congrArg Option.isSome (hSame.delivered hash)

omit [Crypto H] in
theorem SameHoldings.send
    (hSame : SameHoldings cx cx')
    (dest : Replica)
    (msg : ProtocolMsg H) :
    SameHoldings cx (cx'.send dest msg) := by
  unfold Context.send
  split
  · exact hSame
  · exact { hSame with }

theorem Accepted.sameHoldings
    {v : UCRVote H}
    (hAccepted : Accepted v cx cx') :
    SameHoldings cx cx' := by
  rcases hAccepted with
    ⟨_, _, _, _, _, _, _, hOutcome, _, _, rfl⟩
  exact ⟨hOutcome.delivered_eq, rfl, rfl, rfl, rfl, rfl⟩

theorem Considers.sameHoldings
    {v : UCRVote H}
    (hConsiders : Considers v cx cx') :
    SameHoldings cx cx' := by
  cases hConsiders with
  | refuse _ => exact .refl cx
  | accept _ hAccepted => exact hAccepted.sameHoldings

/- The next block of a queue, or the node's own block. -/
inductive NextBlock
    (node : Node H)
    (block : Block H) : Prop where
| sent {batch : Batch} {rest : List (Block H × Batch)} :
    node.cx.blockProcessingWaiting =
      (block, batch) :: rest →
      NextBlock node block
| response {sender : Replica} {batch : Batch}
    {rest : List (Replica × Block H × Batch)} :
    node.cx.responseWaiting =
      (sender, block, batch) :: rest →
      NextBlock node block
| own {batchHash : H} {batch : Batch}
    {rest : List (H × Batch)} :
    Dispatches node batchHash batch rest →
      block = newBlock node.cx batchHash →
      NextBlock node block

/- The vote that is handed to `tryReceiveRoundVote`. -/
def NextVote
    (node : Node H)
    (event : Event H)
    (v : UCRVote H) : Prop :=
  event = .internal ∧
    node.phase = .others ∧
    ∃ msg rest sender,
      node.cx.otherBuf = msg :: rest ∧
        msg.carriedVote = some (sender, v)

/- What a step does to the blocks and votes a node holds. -/
inductive HoldingStep
    (node : Node H)
    (event : Event H)
    (cx' : Context H) : Prop where
| same : SameHoldings node.cx cx' →
    HoldingStep node event cx'
| deliver {block : Block H} {mid : Context H} :
    event = .internal →
      NextBlock node block →
      node.cx.storage.isDeliveredByHash
        (BlockTrait.getPrev block) = true →
      cx' = doDelivery block mid →
      SameHoldings node.cx mid →
      HoldingStep node event cx'
| park {block : Block H} :
    event = .internal →
      NextBlock node block →
      SameHoldings
        { node.cx with
          blockParentWaiting :=
            node.cx.blockParentWaiting.insert
              (BlockTrait.getPrev block)
              (BlockTrait.getHash block)
          undeliveredBlocks :=
            node.cx.undeliveredBlocks.insert
              (BlockTrait.getHash block) block }
        cx' →
      HoldingStep node event cx'
| keep {v : UCRVote H} :
    NextVote node event v →
      SameHoldings
        { node.cx with
          voteReady :=
            node.cx.voteReady.insert v.round v }
        cx' →
      HoldingStep node event cx'
| await {v : UCRVote H} :
    NextVote node event v →
      SameHoldings
        { node.cx with
          voteWaiting :=
            node.cx.voteWaiting.insert v.hash v }
        cx' →
      HoldingStep node event cx'
| take :
    SameHoldings
      { node.cx with
        voteReady :=
          node.cx.voteReady.erase node.cx.round }
      cx' →
      HoldingStep node event cx'

theorem TakesVote.holdings
    {sender : Replica}
    {v : UCRVote H}
    {rest : List (ProtocolMsg H)}
    (hNext : NextVote node event v)
    (hTakes :
      TakesVote sender v { node.cx with otherBuf := rest }
        cx') :
    HoldingStep node event cx' := by
  cases hTakes with
  | past _ => exact .same { SameHoldings.refl node.cx with }
  | keep _ _ =>
      exact .keep hNext { SameHoldings.refl _ with }
  | await _ _ =>
      refine .await hNext ?_
      have hSent :=
        (SameHoldings.refl
          { node.cx with otherBuf := rest }).send sender
            (.request node.cx.myid node.cx.reqCtr v.hash)
      exact { hSent with
        voteWaiting :=
          congrArg (fun votes => votes.insert v.hash v)
            hSent.voteWaiting }
  | consider _ hConsiders =>
      exact .same { hConsiders.sameHoldings with }

theorem TakesResponse.holdings
    {sender : Replica}
    {block : Block H}
    {batch : Batch}
    {rest : List (Replica × Block H × Batch)}
    (hNext : NextBlock node block)
    (hTakes :
      TakesResponse sender block batch
        { node.cx with responseWaiting := rest } cx') :
    HoldingStep node .internal cx' := by
  cases hTakes with
  | drop => exact .same { SameHoldings.refl node.cx with }
  | leave _ =>
      exact .same { SameHoldings.refl node.cx with }
  | park _ =>
      have hParked :
          SameHoldings
            { node.cx with
              blockParentWaiting :=
                node.cx.blockParentWaiting.insert
                  (BlockTrait.getPrev block)
                  (BlockTrait.getHash block)
              undeliveredBlocks :=
                node.cx.undeliveredBlocks.insert
                  (BlockTrait.getHash block) block }
            (parked block batch
              { node.cx with responseWaiting := rest }) :=
        ⟨fun _ => rfl, rfl, rfl, rfl, rfl, rfl⟩
      exact .park rfl hNext (hParked.send _ _)
  | deliver _ hParent =>
      exact .deliver rfl hNext hParent rfl
        { SameHoldings.refl node.cx with }

/- Every transition, seen from what the node holds. -/
theorem Transition.holdings
    (hTransition : Transition node event cx') :
    HoldingStep node event cx' := by
  cases hTransition with
  | stay => exact .same (.refl node.cx)
  | count => exact .same { SameHoldings.refl node.cx with }
  | queue msg =>
      cases msg <;>
        exact .same { SameHoldings.refl node.cx with }
  | install _ =>
      exact .same { SameHoldings.refl node.cx with }
  | pend _ _ =>
      exact .same { SameHoldings.refl node.cx with }
  | block _ hQueue hTakes =>
      cases hTakes with
      | drop =>
          exact .same { SameHoldings.refl node.cx with }
      | leave _ =>
          exact .same { SameHoldings.refl node.cx with }
      | deliver _ hParent =>
          exact .deliver rfl (.sent hQueue) hParent rfl
            { SameHoldings.refl node.cx with }
  | response _ hQueue hTakes =>
      exact hTakes.holdings (.response hQueue)
  | ready _ _ hConsiders =>
      exact .take hConsiders.sameHoldings
  | vote hPhase hQueue hCarried hTakes =>
      exact hTakes.holdings
        ⟨rfl, hPhase, _, _, _, hQueue, hCarried⟩
  | answer _ _ hAnswers =>
      cases hAnswers with
      | pass =>
          exact .same { SameHoldings.refl node.cx with }
      | missing _ =>
          exact .same { SameHoldings.refl node.cx with }
      | respond _ _ =>
          refine .same (SameHoldings.send ?_ _ _)
          exact { SameHoldings.refl node.cx with }
  | dispatch hDispatches hDispatched =>
      rcases hDispatched with ⟨rfl, _⟩ | ⟨hParent, rfl⟩
      · exact .same { SameHoldings.refl node.cx with }
      · exact .deliver rfl (.own hDispatches rfl) hParent
          rfl { SameHoldings.refl node.cx with }
  | own _ hAccepted =>
      exact .same { hAccepted.sameHoldings with }

end Artemis

end LibApollo
