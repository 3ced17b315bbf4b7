import LibApollo.Artemis.Delivery

/-
  What the steps of an Artemis node can do to its context.

  Every step decomposes into primitive effects: updates of
  the channels and queues, keeping and parking votes and
  blocks, a delivery, sending a message and accepting a
  vote.  Invariants are proved effect by effect.

  Key definitions include:
    * `Accepted`
    * `Effect`, `Effects`
    * `Failure`, `Outcome`

  Key theorems include:
    * `acceptVote_ok`, `exists_acceptVote`
    * `Data.effects`, `Settled.effects`, `Effects.grows`
    * `step_outcome`
-/

------------------------------------------------------------
-- Frames
------------------------------------------------------------

namespace LibApollo

namespace Artemis

variable {H : Type} [DecidableEq H]

/- The context differs in batches and channels only. -/
def ChannelsOnly (cx cx' : Context H) : Prop :=
  ∃ batches toBatcher toRouter bench,
    cx' =
      { cx with
        batches := batches
        txConsensusToBatcher := toBatcher
        txCommittedToRouter := toRouter
        benchCommittedTxCount := bench }

theorem ChannelsOnly.refl
    (cx : Context H) : ChannelsOnly cx cx :=
  ⟨_, _, _, _, rfl⟩

theorem ChannelsOnly.trans
    {cx cx' cx'' : Context H}
    (hFirst : ChannelsOnly cx cx')
    (hSecond : ChannelsOnly cx' cx'') :
    ChannelsOnly cx cx'' := by
  rcases hFirst with ⟨_, _, _, _, rfl⟩
  rcases hSecond with ⟨_, _, _, _, rfl⟩
  exact ⟨_, _, _, _, rfl⟩

theorem readBatch_channels
    (cx : Context H)
    (hash : H) :
    ChannelsOnly cx (cx.readBatch hash).2 :=
  ⟨_, _, _, _, rfl⟩

theorem notifyCommitted_channels
    (cx : Context H)
    (block : Block H) :
    ChannelsOnly cx (notifyCommitted cx block) := by
  unfold notifyCommitted
  have hRead :=
    readBatch_channels cx block.blk.body.batchHash
  rcases hBatch : cx.readBatch block.blk.body.batchHash with
    ⟨batch, read⟩
  rw [hBatch] at hRead
  rcases hRead with ⟨_, _, _, _, rfl⟩
  cases batch with
  | none => exact ⟨_, _, _, _, rfl⟩
  | some batch => exact ⟨_, _, _, _, rfl⟩

theorem foldl_notifyCommitted_channels
    (blocks : List (Block H))
    (cx : Context H) :
    ChannelsOnly cx (blocks.foldl notifyCommitted cx) := by
  induction blocks generalizing cx with
  | nil => exact ChannelsOnly.refl cx
  | cons block blocks ih =>
      exact (notifyCommitted_channels cx block).trans
        (ih (notifyCommitted cx block))

end Artemis

end LibApollo

------------------------------------------------------------
-- Accepting a Vote
------------------------------------------------------------

namespace LibApollo

namespace Artemis

variable {H : Type} [DecidableEq H]

/-
  The block index after the commit of a round: nothing
  happens in the first `numFaults` rounds, then the walk
  from the block voted for `numFaults` rounds ago.
-/
def CommitOutcome
    (cx : Context H)
    (storage : Storage H (Block H)) : Prop :=
  (cx.round ≤ cx.numFaults ∧ storage = cx.storage) ∨
    (cx.numFaults < cx.round ∧
      ∃ w,
        cx.voteChain.lookup (cx.round - cx.numFaults) =
            some w ∧
          cx.storage.WalkSpec w.hash storage)

theorem CommitOutcome.delivered_eq
    {cx : Context H}
    {storage : Storage H (Block H)}
    (hOutcome : CommitOutcome cx storage)
    (hash : H) :
    storage.deliveredBlockFromHash hash =
      cx.storage.deliveredBlockFromHash hash := by
  rcases hOutcome with ⟨_, rfl⟩ | ⟨_, w, _, hSpec⟩
  · rfl
  · exact hSpec.deliveredBlockFromHash_eq hash

theorem commitIfDue_ok
    {cx cx' : Context H}
    (hCommit : commitIfDue cx = .ok cx') :
    ∃ storage,
      CommitOutcome cx storage ∧
        ChannelsOnly { cx with storage := storage } cx' := by
  unfold commitIfDue at hCommit
  by_cases hDue : cx.numFaults < cx.round
  · rw [if_pos hDue, doCommit] at hCommit
    cases hLookup :
        cx.voteChain.lookup
          (cx.round - cx.numFaults) with
    | none => simp [hLookup] at hCommit
    | some w =>
        simp only [hLookup] at hCommit
        cases hWalk : cx.storage.commitWalk w.hash with
        | none => simp [hWalk] at hCommit
        | some result =>
            rcases result with ⟨storage, blocks⟩
            simp only [hWalk, Except.ok.injEq] at hCommit
            refine ⟨storage,
              Or.inr ⟨hDue, w, hLookup,
                Storage.commitWalk_spec hWalk⟩, ?_⟩
            rw [← hCommit]
            exact foldl_notifyCommitted_channels _ _
  · rw [if_neg hDue, Except.ok.injEq] at hCommit
    subst hCommit
    exact ⟨cx.storage,
      Or.inl ⟨Nat.le_of_not_lt hDue, rfl⟩,
      ChannelsOnly.refl cx⟩

/- A commit that finds its round and its blocks succeeds. -/
theorem exists_commitIfDue
    {cx : Context H}
    (hFound :
      cx.numFaults < cx.round →
        ∃ w,
          cx.voteChain.lookup (cx.round - cx.numFaults) =
              some w ∧
            (cx.storage.commitWalk w.hash).isSome) :
    ∃ cx', commitIfDue cx = .ok cx' := by
  unfold commitIfDue
  by_cases hDue : cx.numFaults < cx.round
  · rcases hFound hDue with ⟨w, hLookup, hWalk⟩
    rcases Option.isSome_iff_exists.mp hWalk with
      ⟨⟨storage, blocks⟩, hWalk⟩
    rw [if_pos hDue, doCommit]
    simp only [hLookup, hWalk]
    exact ⟨_, rfl⟩
  · rw [if_neg hDue]
    exact ⟨cx, rfl⟩

variable [Crypto H]

/- The packets an acceptance adds: a relay, unless to self. -/
def relayPackets
    (cx : Context H)
    (next : Replica)
    (v : UCRVote H) : List (Replica × ProtocolMsg H) :=
  if next = cx.myid then []
  else [(next, .relay cx.myid v)]

/- The context after an acceptance. -/
def Accepted
    (v : UCRVote H)
    (cx cx' : Context H) : Prop :=
  ∃ storage block leaders batches toBatcher toRouter bench,
    CommitOutcome
        { cx with
          voteChain := cx.voteChain.insert v.round v }
        storage ∧
      cx.storage.deliveredBlockFromHash v.hash =
        some block ∧
      Leaders.advance H cx.leaders cx.round =
        .ok leaders ∧
      cx' =
        { cx with
          voteChain := cx.voteChain.insert v.round v
          storage := storage
          lastVotedBlock := block
          leaders := leaders
          round := cx.round + 1
          outbox :=
            cx.outbox ++
              relayPackets cx leaders.roundLeader v
          batches := batches
          txConsensusToBatcher := toBatcher
          txCommittedToRouter := toRouter
          benchCommittedTxCount := bench }

omit [Crypto H] in
theorem send_eq
    (cx : Context H)
    (next : Replica)
    (v : UCRVote H) :
    cx.send next (.relay cx.myid v) =
      { cx with
        outbox := cx.outbox ++ relayPackets cx next v } := by
  unfold Context.send relayPackets
  by_cases hSelf : next = cx.myid
  · simp [hSelf]
  · simp [hSelf]

/- A successful acceptance has the `Accepted` effect. -/
theorem acceptVote_ok
    {v : UCRVote H}
    {cx cx' : Context H}
    (hAccept : acceptVote v cx = .ok cx') :
    Accepted v cx cx' := by
  rcases Result.bind_eq_ok.mp hAccept with
    ⟨committed, hCommit, hRest⟩
  rcases Result.bind_eq_ok.mp hRest with
    ⟨voted, hVoted, hRest⟩
  rcases Result.bind_eq_ok.mp hRest with
    ⟨next, hNext, hUpdate⟩
  rcases commitIfDue_ok hCommit with
    ⟨storage, hOutcome, _, _, _, _, rfl⟩
  have hDelivered := hOutcome.delivered_eq v.hash
  unfold recordVotedBlock at hVoted
  dsimp only at hVoted hDelivered
  rw [hDelivered] at hVoted
  cases hLookup :
      cx.storage.deliveredBlockFromHash v.hash with
  | none => simp [hLookup] at hVoted
  | some block =>
      simp only [hLookup, Except.ok.injEq] at hVoted
      subst hVoted
      rw [send_eq, Context.updateRound] at hUpdate
      rcases Result.bind_eq_ok.mp hUpdate with
        ⟨leaders, hAdvance, hFinal⟩
      rcases Leaders.advance_ok hAdvance with
        ⟨idx, _, _, hDraw, _, _⟩
      have hSame : next = leaders.roundLeader := by
        simp only [Context.nextRoundLeader, bind,
          Except.bind] at hNext
        rw [hDraw] at hNext
        simpa using hNext.symm
      cases hFinal
      rw [hSame]
      exact ⟨storage, block, leaders, _, _, _, _, hOutcome,
        hLookup, hAdvance, rfl⟩

/- An acceptance succeeds when nothing it needs is missing. -/
theorem exists_acceptVote
    {v : UCRVote H}
    {cx : Context H}
    (hFound :
      cx.numFaults < cx.round →
        ∃ w,
          (cx.voteChain.insert v.round v).lookup
              (cx.round - cx.numFaults) = some w ∧
            (cx.storage.commitWalk w.hash).isSome)
    (hKnown :
      cx.storage.isDeliveredByHash v.hash = true)
    (hAdvance :
      ∃ leaders,
        Leaders.advance H cx.leaders cx.round =
          .ok leaders) :
    ∃ cx', acceptVote v cx = .ok cx' := by
  have hDone :
      ∃ committed,
        commitIfDue
          { cx with
            voteChain := cx.voteChain.insert v.round v } =
          .ok committed :=
    exists_commitIfDue hFound
  rcases hDone with ⟨committed, hCommit⟩
  rcases commitIfDue_ok hCommit with
    ⟨storage, hOutcome, _, _, _, _, hCommitted⟩
  rcases (Storage.isDeliveredByHash_iff _ _).mp hKnown with
    ⟨block, hLookup⟩
  rcases hAdvance with ⟨leaders, hAdvance⟩
  rcases Leaders.advance_ok hAdvance with
    ⟨idx, _, _, hDraw, _, _⟩
  have hVoted :
      recordVotedBlock v committed =
        .ok { committed with lastVotedBlock := block } := by
    have hDelivered := hOutcome.delivered_eq v.hash
    dsimp only at hDelivered
    unfold recordVotedBlock
    rw [hCommitted]
    dsimp only
    rw [hDelivered, hLookup]
  have hLeaders : committed.leaders = cx.leaders := by
    rw [hCommitted]
  have hRound : committed.round = cx.round := by
    rw [hCommitted]
  have hNext :
      Context.nextRoundLeader
          { committed with lastVotedBlock := block } =
        .ok leaders.roundLeader := by
    simp only [Context.nextRoundLeader, bind, Except.bind,
      hLeaders, hRound, hDraw]
  have hEnter :
      ∃ cx',
        (Context.send
          { committed with lastVotedBlock := block }
          leaders.roundLeader
          (.relay committed.myid v)).updateRound =
          .ok cx' := by
    have hSend :=
      send_eq { committed with lastVotedBlock := block }
        leaders.roundLeader v
    dsimp only at hSend
    rw [hSend, Context.updateRound]
    simp only [bind, Except.bind, hLeaders, hRound,
      hAdvance]
    exact ⟨_, rfl⟩
  rcases hEnter with ⟨cx', hEnter⟩
  exact ⟨cx', Result.bind_eq_ok.mpr
    ⟨committed, hCommit, Result.bind_eq_ok.mpr
      ⟨_, hVoted, Result.bind_eq_ok.mpr
        ⟨_, hNext, hEnter⟩⟩⟩⟩

end Artemis

end LibApollo

------------------------------------------------------------
-- Primitive Effects
------------------------------------------------------------

namespace LibApollo

namespace Artemis

variable {H : Type} [DecidableEq H] [Crypto H]

/-
  The primitive effects.  `acc` bounds the votes that may be
  accepted.
-/
inductive Effect
    (scope : Scope H)
    (acc : UCRVote H → Prop)
    (cx : Context H) : Context H → Prop where
| channels {cx' : Context H} :
    ChannelsOnly cx cx' → Effect scope acc cx cx'
| buffers
    (blocks : List (Block H × Batch))
    (responses : List (Replica × Block H × Batch))
    (others : List (ProtocolMsg H)) :
    blocks ⊆ cx.blockProcessingWaiting →
      responses ⊆ cx.responseWaiting →
      others ⊆ cx.otherBuf →
      Effect scope acc cx
        { cx with
          blockProcessingWaiting := blocks
          responseWaiting := responses
          otherBuf := others }
| receive (msg : ProtocolMsg H) :
    scope.OkMsg msg →
      Effect scope acc cx (bufferMessage msg cx)
| pending (pendingBatches : List (H × Batch)) :
    Effect scope acc cx
      { cx with pendingBatches := pendingBatches }
| takeReady (round : Nat) :
    Effect scope acc cx
      { cx with voteReady := cx.voteReady.erase round }
| keepReady (v : UCRVote H) :
    scope.okVote v →
      cx.storage.isDeliveredByHash v.hash = true →
      Effect scope acc cx
        { cx with
          voteReady := cx.voteReady.insert v.round v }
| awaitVote (v : UCRVote H) :
    scope.okVote v →
      Effect scope acc cx
        { cx with
          voteWaiting := cx.voteWaiting.insert v.hash v }
| awaitParent (block : Block H) :
    scope.okBlock block →
      cx.storage.isDeliveredByHash
        (BlockTrait.getPrev block) = false →
      Effect scope acc cx
        { cx with
          blockParentWaiting :=
            cx.blockParentWaiting.insert
              (BlockTrait.getPrev block)
              (BlockTrait.getHash block)
          undeliveredBlocks :=
            cx.undeliveredBlocks.insert
              (BlockTrait.getHash block) block }
| deliver (block : Block H) :
    scope.okBlock block →
      cx.storage.isDeliveredByHash
        (BlockTrait.getPrev block) = true →
      Effect scope acc cx (doDelivery block cx)
| send (dest : Replica) (msg : ProtocolMsg H) :
    scope.OkMsg msg →
      Effect scope acc cx (cx.send dest msg)
| accept (v : UCRVote H) {cx' : Context H} :
    scope.okVote v →
      acc v →
      Acceptable cx v →
      Current cx v →
      Accepted v cx cx' →
      Effect scope acc cx cx'

/- Any number of primitive effects. -/
abbrev Effects
    (scope : Scope H)
    (acc : UCRVote H → Prop) :
    Context H → Context H → Prop :=
  Relation.ReflTransGen (Effect scope acc)

variable {scope : Scope H}
variable {acc : UCRVote H → Prop}

omit [Crypto H] in
theorem Data.bufferMessage
    {msg : ProtocolMsg H}
    {cx : Context H}
    (hData : Data scope cx)
    (hMsg : scope.OkMsg msg) :
    Data scope (bufferMessage msg cx) := by
  have hOther :
      scope.OkOther msg →
        Data scope
          { cx with otherBuf := cx.otherBuf ++ [msg] } := by
    intro hKind
    refine { hData with otherBuf := ?_ }
    intro x hMem
    rcases List.mem_append.mp hMem with hOld | hNew
    · exact hData.otherBuf x hOld
    · rw [List.mem_singleton] at hNew
      rw [hNew]
      exact hKind
  cases msg with
  | newBlock block batch =>
      refine { hData with blocks := ?_ }
      intro x hMem
      rcases List.mem_append.mp hMem with hOld | hNew
      · exact hData.blocks x hOld
      · rw [List.mem_singleton] at hNew
        rw [hNew]
        exact hMsg
  | response sender reqId block batch =>
      refine { hData with responses := ?_ }
      intro x hMem
      rcases List.mem_append.mp hMem with hOld | hNew
      · exact hData.responses x hOld
      · rw [List.mem_singleton] at hNew
        rw [hNew]
        exact hMsg
  | ucrVote v => exact hOther hMsg
  | relay sender v => exact hOther hMsg
  | request sender reqId hash => exact hOther trivial
  | blame v => exact hMsg.elim
  | invalid => exact hData

omit [Crypto H] in
/- Relays carry votes in scope. -/
theorem okMsg_of_mem_relayPackets
    {cx : Context H}
    {next : Replica}
    {v : UCRVote H}
    {x : Replica × ProtocolMsg H}
    (hVote : scope.okVote v)
    (hMem : x ∈ relayPackets cx next v) :
    scope.OkMsg x.2 := by
  unfold relayPackets at hMem
  split at hMem
  · simp at hMem
  · rw [List.mem_singleton] at hMem
    rw [hMem]
    exact hVote

theorem Data.accepted
    {v : UCRVote H}
    {cx cx' : Context H}
    (hData : Data scope cx)
    (hVote : scope.okVote v)
    (hAccepted : Accepted v cx cx') :
    Data scope cx' := by
  rcases hAccepted with
    ⟨storage, block, leaders, _, _, _, _, hOutcome,
      hLookup, _, rfl⟩
  refine { hData with
    voteChain := ?_
    delivered := ?_
    lastVoted := hData.delivered _ _ hLookup
    outbox := ?_ }
  · exact FinMap.forall_insert hData.voteChain hVote
  · intro hash stored hStored
    rw [hOutcome.delivered_eq] at hStored
    exact hData.delivered hash stored hStored
  · intro x hMem
    rcases List.mem_append.mp hMem with hOld | hNew
    · exact hData.outbox x hOld
    · exact okMsg_of_mem_relayPackets hVote hNew

theorem Data.effect
    {cx cx' : Context H}
    (hData : Data scope cx)
    (hEffect : Effect scope acc cx cx') :
    Data scope cx' := by
  cases hEffect with
  | channels hChannels =>
      rcases hChannels with ⟨_, _, _, _, rfl⟩
      exact { hData with }
  | buffers blocks responses others hBlocks hResponses
      hOthers =>
      exact { hData with
        blocks := fun x hx => hData.blocks x (hBlocks hx)
        responses :=
          fun x hx => hData.responses x (hResponses hx)
        otherBuf :=
          fun x hx => hData.otherBuf x (hOthers hx) }
  | receive msg hMsg => exact hData.bufferMessage hMsg
  | pending _ => exact { hData with }
  | takeReady taken =>
      refine { hData with voteReady := ?_ }
      exact FinMap.forall_erase hData.voteReady
  | keepReady kept hVote _ =>
      refine { hData with voteReady := ?_ }
      exact FinMap.forall_insert hData.voteReady hVote
  | awaitVote parked hVote =>
      refine { hData with voteWaiting := ?_ }
      exact FinMap.forall_insert hData.voteWaiting hVote
  | awaitParent parked hBlock _ =>
      refine { hData with undelivered := ?_ }
      exact FinMap.forall_insert hData.undelivered hBlock
  | deliver block hBlock _ => exact hData.doDelivery hBlock
  | send dest msg hMsg =>
      unfold Context.send
      split
      · exact hData
      · refine { hData with outbox := ?_ }
        intro x hMem
        rcases List.mem_append.mp hMem with hOld | hNew
        · exact hData.outbox x hOld
        · rw [List.mem_singleton] at hNew
          rw [hNew]
          exact hMsg
  | accept v hVote _ _ _ hAccepted =>
      exact hData.accepted hVote hAccepted

theorem Data.effects
    {cx cx' : Context H}
    (hData : Data scope cx)
    (hEffects : Effects scope acc cx cx') :
    Data scope cx' := by
  induction hEffects with
  | refl => exact hData
  | tail _ hEffect ih => exact ih.effect hEffect

end Artemis

end LibApollo

------------------------------------------------------------
-- Effects Keep Deliveries Settled
------------------------------------------------------------

namespace LibApollo

namespace Artemis

variable {H : Type} [DecidableEq H] [Crypto H]
variable {scope : Scope H}
variable {acc : UCRVote H → Prop}
variable {cx cx' : Context H}

theorem Accepted.grows
    {v : UCRVote H}
    (hAccepted : Accepted v cx cx') :
    Grows cx cx' := by
  rcases hAccepted with
    ⟨storage, block, leaders, _, _, _, _, hOutcome,
      _, _, rfl⟩
  exact Grows.of_eq hOutcome.delivered_eq

theorem Effect.grows
    (hFree : CollisionFree H)
    (hProper : scope.Proper)
    (hData : Data scope cx)
    (hEffect : Effect scope acc cx cx') :
    Grows cx cx' := by
  cases hEffect with
  | channels hChannels =>
      rcases hChannels with ⟨_, _, _, _, rfl⟩
      exact Grows.refl cx
  | receive msg _ => cases msg <;> exact Grows.refl cx
  | deliver block hBlock _ =>
      exact doDelivery_grows hFree hProper hData hBlock
  | send dest msg _ =>
      unfold Context.send
      split
      · exact Grows.refl cx
      · exact Grows.refl cx
  | accept v _ _ _ _ hAccepted => exact hAccepted.grows
  | _ => exact Grows.refl cx

/- Delivered blocks stay delivered. -/
theorem Effects.grows
    (hFree : CollisionFree H)
    (hProper : scope.Proper)
    (hData : Data scope cx)
    (hEffects : Effects scope acc cx cx') :
    Grows cx cx' := by
  induction hEffects with
  | refl => exact Grows.refl cx
  | tail hBefore hEffect ih =>
      exact ih.trans
        (hEffect.grows hFree hProper
          (hData.effects hBefore))

/- An acceptance changes no map of the delivery. -/
theorem Settled.accepted
    {v : UCRVote H}
    (hInv : Settled cx)
    (hAccepted : Accepted v cx cx') :
    Settled cx' := by
  have hSame :
      ∀ hash,
        cx'.storage.deliveredBlockFromHash hash =
          cx.storage.deliveredBlockFromHash hash := by
    rcases hAccepted with
      ⟨storage, block, leaders, _, _, _, _, hOutcome,
        _, _, rfl⟩
    exact hOutcome.delivered_eq
  have hDelivered :
      ∀ hash,
        cx'.storage.isDeliveredByHash hash =
          cx.storage.isDeliveredByHash hash := by
    intro hash
    unfold Storage.isDeliveredByHash
    rw [hSame]
  rcases hAccepted with
    ⟨storage, block, leaders, _, _, _, _, _, _, _, rfl⟩
  refine
    { genesis := ?_
      closed := ?_
      parked := hInv.parked
      blocked := ?_
      undelivered := hInv.undelivered
      ready := ?_
      waiting := hInv.waiting }
  · rw [hDelivered]
    exact hInv.genesis
  · intro hash stored hLookup
    rw [hSame] at hLookup
    rw [hDelivered]
    exact hInv.closed hash stored hLookup
  · intro prev hash hLookup hNotFree
    rw [hDelivered]
    exact hInv.blocked prev hash hLookup hNotFree
  · intro round w hLookup
    rw [hDelivered]
    exact hInv.ready round w hLookup

theorem Settled.effect
    (hFree : CollisionFree H)
    (hProper : scope.Proper)
    (hData : Data scope cx)
    (hInv : Settled cx)
    (hEffect : Effect scope acc cx cx') :
    Settled cx' := by
  cases hEffect with
  | channels hChannels =>
      rcases hChannels with ⟨_, _, _, _, rfl⟩
      exact { hInv with }
  | buffers _ _ _ _ _ _ => exact { hInv with }
  | receive msg _ => cases msg <;> exact { hInv with }
  | pending _ => exact { hInv with }
  | takeReady taken =>
      refine { hInv with ready := ?_ }
      exact FinMap.forall_erase hInv.ready
  | keepReady kept _ hDelivered =>
      refine { hInv with ready := ?_ }
      exact FinMap.forall_insert hInv.ready
        ⟨rfl, hDelivered⟩
  | awaitVote parked _ =>
      refine { hInv with waiting := ?_ }
      exact FinMap.forall_insert hInv.waiting rfl
  | awaitParent parked hBlock hMissing =>
      exact hInv.awaitParent hFree hProper hData hBlock
        hMissing
  | deliver block hBlock hPrev =>
      exact Delivery.doDelivery hFree hProper hData hBlock
        hPrev hInv
  | send dest msg _ =>
      unfold Context.send
      split
      · exact hInv
      · exact { hInv with }
  | accept v _ _ _ _ hAccepted =>
      exact Settled.accepted hInv hAccepted

theorem Settled.effects
    (hFree : CollisionFree H)
    (hProper : scope.Proper)
    (hData : Data scope cx)
    (hInv : Settled cx)
    (hEffects : Effects scope acc cx cx') :
    Settled cx' := by
  induction hEffects with
  | refl => exact hInv
  | tail hBefore hEffect ih =>
      exact Settled.effect hFree hProper
        (hData.effects hBefore) ih hEffect

end Artemis

end LibApollo

------------------------------------------------------------
-- Handlers as Sequences of Effects
------------------------------------------------------------

namespace LibApollo

namespace Artemis

variable {H : Type} [DecidableEq H] [Crypto H]
variable {scope : Scope H}
variable {acc : UCRVote H → Prop}

/- How a step can stop the node. -/
inductive Failure
    (scope : Scope H)
    (acc : UCRVote H → Prop)
    (cx : Context H) : Panic → Prop where
| viewLeaderKey :
    cx.viewLeader ≠ cx.myid →
      cx.pubKeyMap.lookup cx.viewLeader = none →
      Failure scope acc cx .viewLeaderKey
| roundLeaderKey :
    cx.leaders.roundLeader ≠ cx.myid →
      cx.pubKeyMap.lookup cx.leaders.roundLeader = none →
      Failure scope acc cx .roundLeaderKey
| accept {mid : Context H} {v : UCRVote H}
    {panic : Panic} :
    Effects scope acc cx mid →
      acc v →
      Acceptable mid v →
      Current mid v →
      acceptVote v mid = .error panic →
      Failure scope acc cx panic

/- A result is a sequence of effects or a failure. -/
def Outcome
    (scope : Scope H)
    (acc : UCRVote H → Prop)
    (cx : Context H)
    (result : Except Panic (Context H)) : Prop :=
  match result with
  | .ok cx' => Effects scope acc cx cx'
  | .error panic => Failure scope acc cx panic

/- Rounds, keys and the block index are the same. -/
structure SameChecks (cx cx' : Context H) : Prop where
  view : cx'.view = cx.view
  myid : cx'.myid = cx.myid
  leaders : cx'.leaders = cx.leaders
  keys : cx'.pubKeyMap = cx.pubKeyMap
  round : cx'.round = cx.round
  storage : cx'.storage = cx.storage

theorem Acceptable.of_same
    {cx cx' : Context H}
    {v : UCRVote H}
    (hSame : SameChecks cx cx')
    (hAcceptable : Acceptable cx' v) :
    Acceptable cx v := by
  unfold Acceptable at hAcceptable
  rw [hSame.view, hSame.myid, hSame.leaders, hSame.keys]
    at hAcceptable
  exact hAcceptable

theorem onReceiveRoundVote_outcome
    {cx mid : Context H}
    {v : UCRVote H}
    (hEffects : Effects scope acc cx mid)
    (hSame : SameChecks cx mid)
    (hVote : scope.okVote v)
    (hCurrent : Current mid v)
    (hAcc : Acceptable cx v → acc v) :
    Outcome scope acc cx (onReceiveRoundVote v mid) := by
  have hReceive :
      Acceptable mid v →
        Outcome scope acc cx (acceptVote v mid) := by
    intro hAcceptable
    have hAllowed := hAcc (hAcceptable.of_same hSame)
    cases hAccept : acceptVote v mid with
    | ok cx' =>
        exact hEffects.tail
          (.accept v hVote hAllowed hAcceptable hCurrent
            (acceptVote_ok hAccept))
    | error panic =>
        exact .accept hEffects hAllowed hAcceptable hCurrent
          hAccept
  unfold onReceiveRoundVote
  split
  · exact hEffects
  rename_i hView
  rw [not_not] at hView
  split
  · rename_i hSelf
    exact hReceive ⟨hView, Or.inl hSelf⟩
  rename_i hOther
  split
  · rename_i hKey
    rw [hSame.leaders, hSame.keys] at hKey
    rw [hSame.leaders, hSame.myid] at hOther
    exact .roundLeaderKey (Ne.symm hOther) hKey
  · rename_i publicKey hKey
    split
    · rename_i hSig
      exact hReceive
        ⟨hView, Or.inr ⟨publicKey, hKey, hSig⟩⟩
    · exact hEffects

omit [Crypto H] in
theorem awaitBlock_eq
    (sender : Replica)
    (v : UCRVote H)
    (cx : Context H) :
    awaitBlock sender v cx =
      Context.send
        { cx with
          voteWaiting := cx.voteWaiting.insert v.hash v }
        sender (.request cx.myid cx.reqCtr v.hash) := by
  unfold awaitBlock doRequest Context.send
  dsimp only
  split
  · rfl
  · rfl

theorem awaitBlock_effects
    {cx mid : Context H}
    {sender : Replica}
    {v : UCRVote H}
    (hEffects : Effects scope acc cx mid)
    (hVote : scope.okVote v) :
    Effects scope acc cx (awaitBlock sender v mid) := by
  rw [awaitBlock_eq]
  exact (hEffects.tail (.awaitVote v hVote)).tail
    (.send sender _ trivial)

theorem tryReceiveRoundVote_outcome
    {cx mid : Context H}
    {sender : Replica}
    {v : UCRVote H}
    (hEffects : Effects scope acc cx mid)
    (hSame : SameChecks cx mid)
    (hVote : scope.okVote v)
    (hAcc : Current cx v → Acceptable cx v → acc v) :
    Outcome scope acc cx
      (tryReceiveRoundVote sender v mid) := by
  unfold tryReceiveRoundVote
  split
  · exact hEffects
  rename_i hPast
  split
  · split
    · rename_i hDelivered
      exact hEffects.tail (.keepReady v hVote hDelivered)
    · exact awaitBlock_effects hEffects hVote
  rename_i hFuture
  split
  · exact awaitBlock_effects hEffects hVote
  rename_i hDelivered
  have hCurrent : Current mid v := by
    refine ⟨by omega, ?_⟩
    simpa using hDelivered
  have hCurrent' : Current cx v := by
    unfold Current at hCurrent
    rw [hSame.round, hSame.storage] at hCurrent
    exact hCurrent
  exact onReceiveRoundVote_outcome hEffects hSame hVote
    hCurrent (hAcc hCurrent')

theorem updateDelivery_effects
    {cx mid : Context H}
    {sender : Replica}
    {block : Block H}
    (hEffects : Effects scope acc cx mid)
    (hBlock : scope.okBlock block) :
    Effects scope acc cx
      (updateDelivery block sender mid) := by
  unfold updateDelivery
  dsimp only
  split
  · exact hEffects
  split
  · exact hEffects
  split
  · rename_i hMissing
    have hParent :
        mid.storage.isDeliveredByHash
          (BlockTrait.getPrev block) = false := by
      simpa using hMissing
    have hParked :=
      hEffects.tail (.awaitParent block hBlock hParent)
    exact hParked.tail (.send sender _ trivial)
  · rename_i hMissing
    have hParent :
        mid.storage.isDeliveredByHash
          (BlockTrait.getPrev block) = true := by
      simpa using hMissing
    exact hEffects.tail (.deliver block hBlock hParent)

theorem onReceiveNewBlockDirect_outcome
    {cx mid : Context H}
    {block : Block H}
    (hEffects : Effects scope acc cx mid)
    (hLeader : mid.viewLeader = cx.viewLeader)
    (hMyid : mid.myid = cx.myid)
    (hKeys : mid.pubKeyMap = cx.pubKeyMap)
    (hBlock : scope.okBlock block) :
    Outcome scope acc cx
      (onReceiveNewBlockDirect block mid) := by
  unfold onReceiveNewBlockDirect
  split
  · exact hEffects
  split
  · exact hEffects
  rename_i hMissing
  have hParent :
      mid.storage.isDeliveredByHash
        (BlockTrait.getPrev block) = true := by
    simpa using hMissing
  have hDeliver :=
    hEffects.tail (.deliver block hBlock hParent)
  split
  · exact hEffects
  split
  · exact hDeliver
  rename_i hOther
  split
  · rename_i hKey
    rw [hLeader, hKeys] at hKey
    rw [hLeader, hMyid] at hOther
    exact .viewLeaderKey hOther hKey
  · split
    · exact hDeliver
    · exact hEffects

/- The request loop only reads and answers. -/
theorem handleRequest_outcome
    {cx mid : Context H}
    {sender : Replica}
    {reqId : Nat}
    {hash : H}
    (hEffects : Effects scope acc cx mid)
    (hData : Data scope mid) :
    Outcome scope acc cx
      (handleRequest sender reqId hash mid) := by
  unfold handleRequest
  split
  · exact hEffects
  rename_i hKnown
  -- one of the two lookups of the source succeeds
  have hFound :
      ∃ block,
        requestedBlock mid hash = .ok block ∧
          scope.okBlock block := by
    unfold requestedBlock
    dsimp only
    by_cases hDelivered :
        mid.storage.isDeliveredByHash hash = true
    · rcases (Storage.isDeliveredByHash_iff _ _).mp
          hDelivered with ⟨block, hLookup⟩
      rw [if_pos hDelivered, hLookup]
      exact ⟨block, rfl, hData.delivered hash block hLookup⟩
    · rw [if_neg hDelivered]
      cases hLookup :
          mid.undeliveredBlocks.lookup hash with
      | none =>
          simp [hLookup, hDelivered] at hKnown
      | some block =>
          exact ⟨block, rfl,
            hData.undelivered hash block hLookup⟩
  rcases hFound with ⟨block, hFound, hBlock⟩
  rw [hFound]
  simp only [bind, Except.bind]
  have hChannels :=
    readBatch_channels mid block.blk.body.batchHash
  rcases hRead :
      mid.readBatch block.blk.body.batchHash with
    ⟨batch, read⟩
  rw [hRead] at hChannels
  have hReadEffect : Effects scope acc cx read :=
    hEffects.tail (.channels hChannels)
  cases batch with
  | none => exact hReadEffect
  | some batch =>
      exact hReadEffect.tail (.send sender _ hBlock)

end Artemis

end LibApollo

------------------------------------------------------------
-- Steps as Sequences of Effects
------------------------------------------------------------

namespace LibApollo

namespace Artemis

variable {H : Type} [DecidableEq H] [Crypto H]
variable {scope : Scope H}
variable {acc : UCRVote H → Prop}

/- The outcome of a step of a node. -/
def NodeOutcome
    (scope : Scope H)
    (acc : UCRVote H → Prop)
    (cx : Context H)
    (result : Except Panic (Node H)) : Prop :=
  Outcome scope acc cx (result.map Node.cx)

omit [Crypto H] in
theorem continue_map
    (phase : Phase)
    (result : Except Panic (Context H)) :
    (Node.continue phase result).map Node.cx = result := by
  cases result with
  | ok cx => rfl
  | error panic => rfl

theorem readyLoop_outcome
    {cx : Context H}
    {phase next : Phase}
    (hData : Data scope cx)
    (hSettled : Settled cx)
    (hAcc :
      ∀ v, cx.voteReady.lookup cx.round = some v →
        Acceptable cx v → acc v) :
    NodeOutcome scope acc cx (readyLoop phase next cx) := by
  unfold readyLoop NodeOutcome
  cases hLookup : cx.voteReady.lookup cx.round with
  | none => exact Relation.ReflTransGen.refl
  | some v =>
      dsimp only
      rw [continue_map]
      apply onReceiveRoundVote_outcome
        (Relation.ReflTransGen.single
          (.takeReady cx.round))
        ⟨rfl, rfl, rfl, rfl, rfl, rfl⟩
        (hData.voteReady cx.round v hLookup)
        (hSettled.ready cx.round v hLookup)
      exact hAcc v hLookup

theorem handleOther_outcome
    {cx : Context H}
    {msg : ProtocolMsg H}
    {rest : List (ProtocolMsg H)}
    (hData : Data scope cx)
    (hBuf : cx.otherBuf = msg :: rest)
    (hAcc :
      ∀ v, msg = .ucrVote v ∨ (∃ s, msg = .relay s v) →
        Current cx v → Acceptable cx v → acc v) :
    Outcome scope acc cx
      (handleOther msg { cx with otherBuf := rest }) := by
  have hPop :
      Effects scope acc cx { cx with otherBuf := rest } :=
    Relation.ReflTransGen.single
      (.buffers cx.blockProcessingWaiting
        cx.responseWaiting rest (List.Subset.refl _)
        (List.Subset.refl _) (by simp [hBuf]))
  have hKind := hData.otherBuf msg (by simp [hBuf])
  cases msg with
  | ucrVote v =>
      exact tryReceiveRoundVote_outcome hPop
        ⟨rfl, rfl, rfl, rfl, rfl, rfl⟩ hKind
        (hAcc v (Or.inl rfl))
  | relay sender v =>
      exact tryReceiveRoundVote_outcome hPop
        ⟨rfl, rfl, rfl, rfl, rfl, rfl⟩ hKind
        (hAcc v (Or.inr ⟨sender, rfl⟩))
  | request sender reqId hash =>
      exact handleRequest_outcome hPop (hData.effects hPop)
  | newBlock block batch => exact hKind.elim
  | response sender reqId block batch => exact hKind.elim
  | blame v => exact hKind.elim
  | invalid => exact hKind.elim

theorem processBlock_outcome
    {cx mid : Context H}
    {block : Block H}
    {batch : Batch}
    (hEffects : Effects scope acc cx mid)
    (hLeader : mid.viewLeader = cx.viewLeader)
    (hMyid : mid.myid = cx.myid)
    (hKeys : mid.pubKeyMap = cx.pubKeyMap)
    (hBlock : scope.okBlock block) :
    Outcome scope acc cx
      (processBlock block batch mid) := by
  unfold processBlock
  split
  · exact onReceiveNewBlockDirect_outcome
      (hEffects.tail (.channels ⟨_, _, _, _, rfl⟩))
      hLeader hMyid hKeys hBlock
  · exact hEffects

theorem processResponse_effects
    {cx mid : Context H}
    {sender : Replica}
    {block : Block H}
    {batch : Batch}
    (hEffects : Effects scope acc cx mid)
    (hBlock : scope.okBlock block) :
    Effects scope acc cx
      (processResponse sender block batch mid) := by
  unfold processResponse
  split
  · exact updateDelivery_effects
      (hEffects.tail (.channels ⟨_, _, _, _, rfl⟩)) hBlock
  · exact hEffects

/- An internal step that neither dispatches nor votes. -/
theorem processMessage_outcome
    {node : Node H}
    (hData : Data scope node.cx)
    (hSettled : Settled node.cx) :
    NodeOutcome scope (StepConsiders node .internal)
      node.cx (processMessage node) := by
  unfold processMessage
  dsimp only
  cases hPhase : node.phase with
  | blocks =>
      dsimp only
      cases hBuf : node.cx.blockProcessingWaiting with
      | nil => exact Relation.ReflTransGen.refl
      | cons entry rest =>
          rcases entry with ⟨block, batch⟩
          unfold NodeOutcome
          dsimp only
          rw [continue_map]
          apply processBlock_outcome
            (Relation.ReflTransGen.single
              (.buffers rest node.cx.responseWaiting
                node.cx.otherBuf (by simp [hBuf])
                (List.Subset.refl _) (List.Subset.refl _)))
            rfl rfl rfl
          exact hData.blocks (block, batch) (by simp [hBuf])
  | responses =>
      dsimp only
      cases hBuf : node.cx.responseWaiting with
      | nil => exact Relation.ReflTransGen.refl
      | cons entry rest =>
          rcases entry with ⟨sender, block, batch⟩
          apply processResponse_effects
            (Relation.ReflTransGen.single
              (.buffers node.cx.blockProcessingWaiting rest
                node.cx.otherBuf (List.Subset.refl _)
                (by simp [hBuf]) (List.Subset.refl _)))
          exact hData.responses (sender, block, batch)
            (by simp [hBuf])
  | ready =>
      apply readyLoop_outcome hData hSettled
      intro v hLookup hAcceptable
      refine ⟨rfl, ?_, hAcceptable⟩
      simp only [candidateVote, hPhase]
      exact hLookup
  | others =>
      dsimp only
      cases hBuf : node.cx.otherBuf with
      | nil => exact Relation.ReflTransGen.refl
      | cons msg rest =>
          unfold NodeOutcome
          dsimp only
          rw [continue_map]
          apply handleOther_outcome hData hBuf
          intro v hCases hCurrent hAcceptable
          rcases hCases with rfl | ⟨sender, rfl⟩
          · refine ⟨rfl, ?_, hAcceptable⟩
            simp only [candidateVote, hPhase, hBuf,
              if_pos hCurrent]
          · refine ⟨rfl, ?_, hAcceptable⟩
            simp only [candidateVote, hPhase, hBuf,
              if_pos hCurrent]
  | readyAgain =>
      apply readyLoop_outcome hData hSettled
      intro v hLookup hAcceptable
      refine ⟨rfl, ?_, hAcceptable⟩
      simp only [candidateVote, hPhase]
      exact hLookup
  | select => exact Relation.ReflTransGen.refl
  | drain => exact Relation.ReflTransGen.refl
  | propose => exact Relation.ReflTransGen.refl
  | vote => exact Relation.ReflTransGen.refl

end Artemis

end LibApollo

------------------------------------------------------------
-- Dispatching and Voting
------------------------------------------------------------

namespace LibApollo

namespace Artemis

variable {H : Type} [DecidableEq H] [Crypto H]
variable {scope : Scope H}

/- The context in which a node delivers its own block. -/
def dispatching
    (batchHash : H)
    (batch : Batch)
    (cx : Context H) : Context H :=
  let block := newBlock cx batchHash
  { cx with
    signed := cx.signed ++ [SignData.hash block.blk.hash]
    outbox :=
      cx.outbox ++
        cx.broadcastPeers.map (·, .newBlock block batch)
    txConsensusToBatcher :=
      cx.txConsensusToBatcher ++
        [.proposed batch block.blk.header.height] }

/-
  What the dispatch of a block does: the view leader
  delivers the block, unless it has it already or its parent
  is missing.
-/
def Dispatched
    (batchHash : H)
    (batch : Batch)
    (cx cx' : Context H) : Prop :=
  let block := newBlock cx batchHash
  let stored := cx.storage.isDeliveredByHash
  (cx' = dispatching batchHash batch cx ∧
      (stored (BlockTrait.getHash block) = true ∨
        stored (BlockTrait.getPrev block) = false)) ∨
    (stored (BlockTrait.getPrev block) = true ∧
      cx' =
        doDelivery block (dispatching batchHash batch cx))

theorem doNewBlock_ok
    (batchHash : H)
    (batch : Batch)
    {cx : Context H}
    (hLeader : cx.viewLeader = cx.myid) :
    ∃ cx',
      doNewBlock batchHash batch cx = .ok cx' ∧
        Dispatched batchHash batch cx cx' := by
  change ∃ cx',
    onReceiveNewBlockDirect (newBlock cx batchHash)
        (dispatching batchHash batch cx) = .ok cx' ∧ _
  unfold onReceiveNewBlockDirect
  split
  · rename_i hKnown
    exact ⟨_, rfl, Or.inl ⟨rfl, Or.inl hKnown⟩⟩
  split
  · rename_i hMissing
    have hParent :
        (dispatching batchHash batch
          cx).storage.isDeliveredByHash
            (BlockTrait.getPrev (newBlock cx batchHash)) =
          false := by
      simpa using hMissing
    exact ⟨_, rfl, Or.inl ⟨rfl, Or.inr hParent⟩⟩
  rename_i hMissing
  have hSelf :
      (dispatching batchHash batch cx).viewLeader =
        (dispatching batchHash batch cx).myid := hLeader
  have hAuthor :
      ¬ ((dispatching batchHash batch cx).viewLeader ≠
            (newBlock cx batchHash).blk.header.author ∨
          (dispatching batchHash batch cx).viewLeader ≠
            (newBlock cx batchHash).sig.origin) :=
    not_or.mpr ⟨not_not.mpr hLeader, not_not.mpr hLeader⟩
  rw [if_neg hAuthor, if_pos hSelf]
  have hParent :
      (dispatching batchHash batch
        cx).storage.isDeliveredByHash
          (BlockTrait.getPrev (newBlock cx batchHash)) =
        true := by
    simpa using hMissing
  exact ⟨_, rfl, Or.inr ⟨hParent, rfl⟩⟩

/- The dispatch loop of `node` takes this batch next. -/
def Dispatches
    (node : Node H)
    (batchHash : H)
    (batch : Batch)
    (rest : List (H × Batch)) : Prop :=
  node.phase = .propose ∧
    node.cx.viewLeader = node.cx.myid ∧
    node.cx.pendingBatches = (batchHash, batch) :: rest

/- The context in which a node accepts its own vote. -/
def voting (cx : Context H) : Context H :=
  { cx with
    signed :=
      cx.signed ++ [SignData.hash (newVote cx).digest]
    outbox :=
      cx.outbox ++
        cx.broadcastPeers.map (·, .ucrVote (newVote cx)) }

/- It is the node's turn and it has seen a higher block. -/
def Votes (node : Node H) : Prop :=
  node.phase = .vote ∧
    node.cx.myid = node.cx.leaders.roundLeader ∧
    node.cx.lastVotedBlock.blk.header.height <
      node.cx.lastSeenBlock.blk.header.height

/- A round leader does not check its own vote. -/
theorem doRoundVote_eq
    {cx : Context H}
    (hSelf : cx.myid = cx.leaders.roundLeader) :
    doRoundVote cx =
      acceptVote (newVote cx) (voting cx) := by
  change onReceiveRoundVote (newVote cx) (voting cx) = _
  unfold onReceiveRoundVote
  have hView : (voting cx).view = (newVote cx).view := rfl
  have hSelf' :
      (voting cx).myid =
        (voting cx).leaders.roundLeader := hSelf
  rw [if_neg (not_not.mpr hView), if_pos hSelf']

theorem internalStep_dispatches
    {node : Node H}
    {batchHash : H}
    {batch : Batch}
    {rest : List (H × Batch)}
    (hDispatches : Dispatches node batchHash batch rest) :
    internalStep node =
      Node.continue .propose
        (doNewBlock batchHash batch
          { node.cx with pendingBatches := rest }) := by
  rcases hDispatches with ⟨hPhase, hLeader, hPending⟩
  simp only [internalStep, hPhase, proposeLoop, hPending,
    hLeader, if_true]

theorem internalStep_votes
    {node : Node H}
    (hVotes : Votes node) :
    internalStep node =
      Node.continue .select
        (acceptVote (newVote node.cx) (voting node.cx)) := by
  rcases hVotes with ⟨hPhase, hSelf, hHigher⟩
  simp only [internalStep, hPhase, tryRoundVote]
  rw [if_neg (not_not.mpr hSelf),
    if_neg (Nat.not_le.mpr hHigher), doRoundVote_eq hSelf]

/-
  A step is a sequence of effects that accepts at most what
  the node considers, or it dispatches a block, or it votes.
-/
theorem step_outcome
    {node : Node H}
    {event : Event H}
    (hData : Data scope node.cx)
    (hSettled : Settled node.cx)
    (hMsg :
      ∀ msg, event = .recv msg → scope.OkMsg msg) :
    NodeOutcome scope (StepConsiders node event) node.cx
        (step node event) ∨
      (event = .internal ∧
        ((∃ batchHash batch rest,
            Dispatches node batchHash batch rest) ∨
          Votes node)) := by
  cases event with
  | tick =>
      left
      unfold step
      dsimp only
      split
      · refine Relation.ReflTransGen.single
          (.channels ?_)
        dsimp only
        split
        · exact ⟨_, _, _, _, rfl⟩
        · exact ChannelsOnly.refl _
      · exact Relation.ReflTransGen.refl
  | recv msg =>
      left
      unfold step
      dsimp only
      split
      · exact Relation.ReflTransGen.single
          (.receive msg (hMsg msg rfl))
      · exact Relation.ReflTransGen.refl
  | sealed batch =>
      left
      exact Relation.ReflTransGen.single
        (.channels ⟨_, _, _, _, rfl⟩)
  | batch batchHash batch =>
      left
      unfold step
      dsimp only
      split
      · exact Relation.ReflTransGen.single (.pending _)
      · exact Relation.ReflTransGen.refl
  | internal =>
      have hProcess :=
        processMessage_outcome hData hSettled
      change NodeOutcome scope _ node.cx
        (internalStep node) ∨ _
      unfold internalStep
      cases hPhase : node.phase with
      | select => exact Or.inl Relation.ReflTransGen.refl
      | drain => exact Or.inl Relation.ReflTransGen.refl
      | propose =>
          unfold proposeLoop
          dsimp only
          cases hPending : node.cx.pendingBatches with
          | nil => exact Or.inl Relation.ReflTransGen.refl
          | cons entry rest =>
              rcases entry with ⟨batchHash, batch⟩
              by_cases hLeader :
                  node.cx.viewLeader = node.cx.myid
              · right
                exact ⟨rfl, Or.inl
                  ⟨batchHash, batch, rest, hPhase, hLeader,
                    hPending⟩⟩
              · left
                dsimp only
                rw [if_neg hLeader]
                exact Relation.ReflTransGen.refl
      | vote =>
          dsimp only
          unfold tryRoundVote
          by_cases hSelf :
              node.cx.myid = node.cx.leaders.roundLeader
          · rw [if_neg (not_not.mpr hSelf)]
            by_cases hHigher :
                node.cx.lastSeenBlock.blk.header.height ≤
                  node.cx.lastVotedBlock.blk.header.height
            · rw [if_pos hHigher]
              exact Or.inl Relation.ReflTransGen.refl
            · right
              exact ⟨rfl, Or.inr
                ⟨hPhase, hSelf, Nat.not_le.mp hHigher⟩⟩
          · rw [if_pos hSelf]
            exact Or.inl Relation.ReflTransGen.refl
      | blocks => exact Or.inl hProcess
      | responses => exact Or.inl hProcess
      | ready => exact Or.inl hProcess
      | others => exact Or.inl hProcess
      | readyAgain => exact Or.inl hProcess

/- What a successful step did to the context. -/
theorem step_ok
    {node node' : Node H}
    {event : Event H}
    (hData : Data scope node.cx)
    (hSettled : Settled node.cx)
    (hMsg :
      ∀ msg, event = .recv msg → scope.OkMsg msg)
    (hStep : step node event = .ok node') :
    Effects scope (StepConsiders node event) node.cx
        node'.cx ∨
      (∃ batchHash batch rest,
        Dispatches node batchHash batch rest ∧
          Dispatched batchHash batch
            { node.cx with pendingBatches := rest }
            node'.cx) ∨
      (Votes node ∧
        event = .internal ∧
        Accepted (newVote node.cx) (voting node.cx)
          node'.cx) := by
  rcases step_outcome hData hSettled hMsg with
    hOutcome | ⟨rfl, ⟨batchHash, batch, rest, hDispatches⟩
      | hVotes⟩
  · rw [hStep] at hOutcome
    exact Or.inl hOutcome
  · refine Or.inr (Or.inl
      ⟨batchHash, batch, rest, hDispatches, ?_⟩)
    change internalStep node = .ok node' at hStep
    rw [internalStep_dispatches hDispatches] at hStep
    have hLeader :
        ({ node.cx with
          pendingBatches := rest } : Context H).viewLeader =
          node.cx.myid := hDispatches.2.1
    rcases doNewBlock_ok batchHash batch hLeader with
      ⟨cx', hOk, hCases⟩
    rw [hOk] at hStep
    cases hStep
    exact hCases
  · refine Or.inr (Or.inr ⟨hVotes, rfl, ?_⟩)
    change internalStep node = .ok node' at hStep
    rw [internalStep_votes hVotes] at hStep
    rcases Result.map_eq_ok.mp hStep with
      ⟨cx', hAccept, rfl⟩
    exact acceptVote_ok hAccept

/- How a step that fails did so. -/
theorem step_error
    {node : Node H}
    {event : Event H}
    {panic : Panic}
    (hData : Data scope node.cx)
    (hSettled : Settled node.cx)
    (hMsg :
      ∀ msg, event = .recv msg → scope.OkMsg msg)
    (hStep : step node event = .error panic) :
    Failure scope (StepConsiders node event) node.cx
        panic ∨
      (Votes node ∧
        acceptVote (newVote node.cx) (voting node.cx) =
          .error panic) := by
  rcases step_outcome hData hSettled hMsg with
    hOutcome | ⟨rfl, ⟨batchHash, batch, rest, hDispatches⟩
      | hVotes⟩
  · rw [hStep] at hOutcome
    exact Or.inl hOutcome
  · change internalStep node = .error panic at hStep
    rw [internalStep_dispatches hDispatches] at hStep
    have hLeader :
        ({ node.cx with
          pendingBatches := rest } : Context H).viewLeader =
          node.cx.myid := hDispatches.2.1
    rcases doNewBlock_ok batchHash batch hLeader with
      ⟨cx', hOk, _⟩
    rw [hOk] at hStep
    cases hStep
  · refine Or.inr ⟨hVotes, ?_⟩
    change internalStep node = .error panic at hStep
    rw [internalStep_votes hVotes] at hStep
    exact Result.map_eq_error.mp hStep

end Artemis

end LibApollo
