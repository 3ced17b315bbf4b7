import LibApollo.Artemis.Effects
import LibApollo.Types.Symbolic

/-
  The bookkeeping of an Artemis node under arbitrary
  messages: the delivered blocks are closed under parents,
  what waits for a block waits for a missing one, the vote
  chain holds a vote for a delivered block for each passed
  round, and no handler stops the node.

  Key definitions include:
    * `networkScope`, `Decoded`
    * `ChainInv`
    * `NodeInv`

  Key theorems include:
    * `ChainInv.effects`
    * `NodeInv.step`, `nodeInv_of_reach`
    * `closed_and_running`
-/

------------------------------------------------------------
-- The Last Seen Block
------------------------------------------------------------

namespace LibApollo

namespace Artemis

variable {H : Type} [DecidableEq H] [Crypto H]

/-
  The last seen block after some deliveries: a delivered
  block, and the one before unless it is higher.
-/
def SeenAfter (cx cx' : Context H) : Prop :=
  cx'.storage.isDeliveredByHash
      (BlockTrait.getHash cx'.lastSeenBlock) = true ∧
    (cx'.lastSeenBlock = cx.lastSeenBlock ∨
      cx.lastSeenBlock.blk.header.height <
        cx'.lastSeenBlock.blk.header.height)

omit [Crypto H] in
theorem SeenAfter.height_le
    {cx cx' : Context H}
    (hSeen : SeenAfter cx cx') :
    cx.lastSeenBlock.blk.header.height ≤
      cx'.lastSeenBlock.blk.header.height := by
  rcases hSeen.2 with hSame | hHigher
  · rw [hSame]
  · exact hHigher.le

theorem SeenAfter.storeBlock
    {scope : Scope H}
    {cx now : Context H}
    {block : Block H}
    (hFree : CollisionFree H)
    (hProper : scope.Proper)
    (hData : Data scope now)
    (hBlock : scope.okBlock block)
    (hSeen : SeenAfter cx now) :
    SeenAfter cx (storeBlock block now) := by
  have hGrows :=
    storeBlock_grows hFree hProper hData hBlock
  have hSelf := storeBlock_isDelivered block now
  by_cases hHigher :
      now.lastSeenBlock.blk.header.height <
        block.blk.header.height
  · have hNew :
        (Artemis.storeBlock block now).lastSeenBlock =
          block := if_pos hHigher
    unfold SeenAfter
    rw [hNew]
    refine ⟨hSelf, Or.inr ?_⟩
    rcases hSeen.2 with hSame | hAbove
    · rw [hSame] at hHigher
      exact hHigher
    · omega
  · have hOld :
        (Artemis.storeBlock block now).lastSeenBlock =
          now.lastSeenBlock := if_neg hHigher
    unfold SeenAfter
    rw [hOld]
    exact ⟨hGrows.isDelivered hSeen.1, hSeen.2⟩

omit [Crypto H] in
theorem SeenAfter.releaseVote
    {cx now : Context H}
    {hash : H}
    (hSeen : SeenAfter cx now) :
    SeenAfter cx (releaseVote hash now) := by
  unfold Artemis.releaseVote
  split
  · exact hSeen
  · exact hSeen

/- A delivery moves the last seen block up only. -/
theorem doDelivery_seen
    {scope : Scope H}
    {cx : Context H}
    {block : Block H}
    (hFree : CollisionFree H)
    (hProper : scope.Proper)
    (hData : Data scope cx)
    (hBlock : scope.okBlock block)
    (hSeen :
      cx.storage.isDeliveredByHash
        (BlockTrait.getHash cx.lastSeenBlock) = true) :
    SeenAfter cx (doDelivery block cx) := by
  apply doDelivery_rule
    (fun _ now => Data scope now ∧ SeenAfter cx now)
    (SeenAfter cx)
  · have hStored :
        SeenAfter cx (Artemis.storeBlock block cx) :=
      SeenAfter.storeBlock hFree hProper hData hBlock
        ⟨hSeen, Or.inl rfl⟩
    exact
      ⟨((hData.storeBlock hBlock).forget).releaseVote,
        SeenAfter.releaseVote hStored⟩
  · intro hash child now hParts _
    rcases hParts with ⟨hNow, hAfter⟩
    refine ⟨hNow.deliverChild, ?_⟩
    unfold deliverChild
    dsimp only
    apply SeenAfter.releaseVote
    split
    · exact hAfter
    · rename_i waiting hParked
      have hTaken :
          Data scope
            { now with
              blockParentWaiting :=
                now.blockParentWaiting.erase hash } :=
        { hNow with }
      exact SeenAfter.storeBlock hFree hProper
        hTaken.forget
        (hNow.undelivered child waiting hParked) hAfter
  · intro last now hParts _
    rcases hParts with ⟨_, hAfter⟩
    exact hAfter
  · intro now hAfter
    exact hAfter

end Artemis

end LibApollo

------------------------------------------------------------
-- The Vote Chain
------------------------------------------------------------

namespace LibApollo

namespace Artemis

variable {H : Type} [DecidableEq H] [Crypto H]

structure ChainInv (cx : Context H) : Prop where
  round_pos : 1 ≤ cx.round
  keys :
    ∀ r, (∃ v, cx.voteChain.lookup r = some v) ↔
      1 ≤ r ∧ r < cx.round
  entry :
    ∀ r v, cx.voteChain.lookup r = some v →
      v.round = r ∧
        cx.storage.isDeliveredByHash v.hash = true
  tip :
    ∀ v, cx.voteChain.lookup (cx.round - 1) = some v →
      v.hash = BlockTrait.getHash cx.lastVotedBlock
  first :
    cx.round = 1 → cx.lastVotedBlock = Block.genesis
  leaders :
    Leaders.schedule H cx.numNodes cx.numFaults
      (cx.round - 1) = .ok cx.leaders
  seen :
    cx.storage.isDeliveredByHash
      (BlockTrait.getHash cx.lastSeenBlock) = true
  seen_pos :
    cx.lastSeenBlock = Block.genesis ∨
      0 < cx.lastSeenBlock.blk.header.height

/- The leader of the current round follows the schedule. -/
theorem ChainInv.roundLeader_eq
    {cx : Context H}
    (hInv : ChainInv cx) :
    cx.leaders.roundLeader =
      Leaders.leaderAt H cx.numNodes cx.numFaults
        cx.round :=
  (Leaders.leaderAt_eq hInv.leaders).symm

theorem ChainInv.deliver
    {scope : Scope H}
    {cx : Context H}
    {block : Block H}
    (hFree : CollisionFree H)
    (hProper : scope.Proper)
    (hData : Data scope cx)
    (hBlock : scope.okBlock block)
    (hInv : ChainInv cx) :
    ChainInv (doDelivery block cx) := by
  have hGrows :=
    doDelivery_grows hFree hProper hData hBlock
  have hSeen :=
    doDelivery_seen hFree hProper hData hBlock hInv.seen
  rcases doDelivery_deliveryOnly block cx with
    ⟨_, _, _, _, _, _, _, hEq, _⟩
  rw [hEq] at hGrows hSeen ⊢
  refine { hInv with
    entry := ?_
    seen := hSeen.1
    seen_pos := ?_ }
  · intro r v hLookup
    rcases hInv.entry r v hLookup with
      ⟨hRound, hDelivered⟩
    exact ⟨hRound, hGrows.isDelivered hDelivered⟩
  · rcases hSeen.2 with hSame | hHigher
    · rw [hSame]
      exact hInv.seen_pos
    · exact Or.inr (Nat.zero_lt_of_lt hHigher)

theorem ChainInv.accepted
    {cx cx' : Context H}
    {v : UCRVote H}
    (hInv : ChainInv cx)
    (hCurrent : Current cx v)
    (hAccepted : Accepted v cx cx') :
    ChainInv cx' := by
  have hGrows := hAccepted.grows
  rcases hAccepted with
    ⟨storage, block, leaders, _, _, _, _, hOutcome,
      hLookup, hAdvance, rfl⟩
  have hPos := hInv.round_pos
  have hRound := hCurrent.1
  refine
    { round_pos := ?_
      keys := ?_
      entry := ?_
      tip := ?_
      first := ?_
      leaders := ?_
      seen := hGrows.isDelivered hInv.seen
      seen_pos := hInv.seen_pos }
  · dsimp only
    omega
  · intro r
    dsimp only
    rw [FinMap.lookup_insert_eq]
    by_cases hKey : r = v.round
    · rw [if_pos hKey]
      constructor
      · intro _
        omega
      · intro _
        exact ⟨v, rfl⟩
    · rw [if_neg hKey, hInv.keys r]
      omega
  · intro r w hEntry
    dsimp only at hEntry
    rw [FinMap.lookup_insert_eq] at hEntry
    split at hEntry
    · rename_i hKey
      cases hEntry
      exact ⟨hKey.symm, hGrows.isDelivered hCurrent.2⟩
    · rcases hInv.entry r w hEntry with
        ⟨hKey, hDelivered⟩
      exact ⟨hKey, hGrows.isDelivered hDelivered⟩
  · intro w hEntry
    dsimp only at hEntry ⊢
    rw [FinMap.lookup_insert_eq, if_pos (by omega)]
      at hEntry
    cases hEntry
    exact (Storage.getHash_of_delivered hLookup).symm
  · intro hOne
    dsimp only at hOne
    omega
  · dsimp only
    have hNext := Leaders.schedule_succ hInv.leaders
    rw [show cx.round - 1 + 1 = cx.round by omega] at hNext
    rw [show cx.round + 1 - 1 = cx.round by omega, hNext]
    exact hAdvance

theorem ChainInv.effect
    {scope : Scope H}
    {acc : UCRVote H → Prop}
    {cx cx' : Context H}
    (hFree : CollisionFree H)
    (hProper : scope.Proper)
    (hData : Data scope cx)
    (hInv : ChainInv cx)
    (hEffect : Effect scope acc cx cx') :
    ChainInv cx' := by
  cases hEffect with
  | channels hChannels =>
      rcases hChannels with ⟨_, _, _, _, rfl⟩
      exact { hInv with }
  | receive msg _ => cases msg <;> exact { hInv with }
  | deliver block hBlock _ =>
      exact hInv.deliver hFree hProper hData hBlock
  | send dest msg _ =>
      unfold Context.send
      split
      · exact hInv
      · exact { hInv with }
  | accept v _ _ _ hCurrent hAccepted =>
      exact hInv.accepted hCurrent hAccepted
  | _ => exact { hInv with }

theorem ChainInv.effects
    {scope : Scope H}
    {acc : UCRVote H → Prop}
    {cx cx' : Context H}
    (hFree : CollisionFree H)
    (hProper : scope.Proper)
    (hData : Data scope cx)
    (hInv : ChainInv cx)
    (hEffects : Effects scope acc cx cx') :
    ChainInv cx' := by
  induction hEffects with
  | refl => exact hInv
  | tail hBefore hEffect ih =>
      exact ih.effect hFree hProper
        (hData.effects hBefore) hEffect

end Artemis

end LibApollo

------------------------------------------------------------
-- Own Blocks and Votes
------------------------------------------------------------

namespace LibApollo

namespace Artemis

variable {H : Type} [DecidableEq H] [Crypto H]
variable {scope : Scope H}

/- The three invariants of a context. -/
structure ContextInv
    (scope : Scope H)
    (cx : Context H) : Prop where
  data : Data scope cx
  settled : Settled cx
  chain : ChainInv cx

theorem ContextInv.effects
    {acc : UCRVote H → Prop}
    {cx cx' : Context H}
    (hFree : CollisionFree H)
    (hProper : scope.Proper)
    (hInv : ContextInv scope cx)
    (hEffects : Effects scope acc cx cx') :
    ContextInv scope cx' where
  data := hInv.data.effects hEffects
  settled :=
    Settled.effects hFree hProper hInv.data hInv.settled
      hEffects
  chain :=
    hInv.chain.effects hFree hProper hInv.data hEffects

theorem ContextInv.mono
    {scope' : Scope H}
    {cx : Context H}
    (hVote : ∀ v, scope.okVote v → scope'.okVote v)
    (hBlock :
      ∀ block, scope.okBlock block →
        scope'.okBlock block)
    (hInv : ContextInv scope cx) :
    ContextInv scope' cx where
  data := hInv.data.mono hVote hBlock
  settled := hInv.settled
  chain := hInv.chain

theorem ContextInv.pending
    {cx : Context H}
    (rest : List (H × Batch))
    (hInv : ContextInv scope cx) :
    ContextInv scope { cx with pendingBatches := rest } where
  data := { hInv.data with }
  settled := { hInv.settled with }
  chain := { hInv.chain with }

/- Dispatching brings the own block in scope. -/
theorem ContextInv.dispatching
    {cx : Context H}
    {batchHash : H}
    (batch : Batch)
    (hInv : ContextInv scope cx)
    (hBlock : scope.okBlock (newBlock cx batchHash)) :
    ContextInv scope (dispatching batchHash batch cx) where
  data := by
    refine { hInv.data with outbox := ?_ }
    intro x hMem
    rcases List.mem_append.mp hMem with hOld | hNew
    · exact hInv.data.outbox x hOld
    · rcases List.mem_map.mp hNew with ⟨dest, _, rfl⟩
      exact hBlock
  settled := { hInv.settled with }
  chain := { hInv.chain with }

theorem ContextInv.deliver
    {cx : Context H}
    {block : Block H}
    (hFree : CollisionFree H)
    (hProper : scope.Proper)
    (hInv : ContextInv scope cx)
    (hBlock : scope.okBlock block)
    (hPrev :
      cx.storage.isDeliveredByHash
        (BlockTrait.getPrev block) = true) :
    ContextInv scope (doDelivery block cx) where
  data := hInv.data.doDelivery hBlock
  settled :=
    Delivery.doDelivery hFree hProper hInv.data hBlock
      hPrev hInv.settled
  chain := hInv.chain.deliver hFree hProper hInv.data hBlock

theorem ContextInv.dispatched
    {cx cx' : Context H}
    {batchHash : H}
    {batch : Batch}
    {rest : List (H × Batch)}
    (hFree : CollisionFree H)
    (hProper : scope.Proper)
    (hInv : ContextInv scope cx)
    (hBlock : scope.okBlock (newBlock cx batchHash))
    (hDispatched :
      Dispatched batchHash batch
        { cx with pendingBatches := rest } cx') :
    ContextInv scope cx' := by
  have hSent :
      ContextInv scope
        (Artemis.dispatching batchHash batch
          { cx with pendingBatches := rest }) :=
    (hInv.pending rest).dispatching batch hBlock
  rcases hDispatched with ⟨hEq, _⟩ | ⟨hPrev, hEq⟩
  · rw [hEq]
    exact hSent
  · rw [hEq]
    exact hSent.deliver hFree hProper hBlock hPrev

/- Voting brings the own vote in scope. -/
theorem ContextInv.voting
    {cx : Context H}
    (hInv : ContextInv scope cx)
    (hVote : scope.okVote (newVote cx)) :
    ContextInv scope (voting cx) where
  data := by
    refine { hInv.data with outbox := ?_ }
    intro x hMem
    rcases List.mem_append.mp hMem with hOld | hNew
    · exact hInv.data.outbox x hOld
    · rcases List.mem_map.mp hNew with ⟨dest, _, rfl⟩
      exact hVote
  settled := { hInv.settled with }
  chain := { hInv.chain with }

/- The own vote is for a delivered block. -/
theorem ContextInv.newVote_current
    {cx : Context H}
    (hInv : ContextInv scope cx) :
    Current (Artemis.voting cx) (newVote cx) :=
  ⟨rfl, hInv.chain.seen⟩

theorem ContextInv.accepted
    {cx cx' : Context H}
    {v : UCRVote H}
    (hInv : ContextInv scope cx)
    (hVote : scope.okVote v)
    (hCurrent : Current cx v)
    (hAccepted : Accepted v cx cx') :
    ContextInv scope cx' where
  data := hInv.data.accepted hVote hAccepted
  settled := Settled.accepted hInv.settled hAccepted
  chain := hInv.chain.accepted hCurrent hAccepted

/-
  A step keeps the invariants in a scope that has room for
  what the node itself dispatches or votes in the step.
-/
theorem ContextInv.step
    {node node' : Node H}
    {event : Event H}
    (hFree : CollisionFree H)
    (hProper : scope.Proper)
    (hInv : ContextInv scope node.cx)
    (hMsg :
      ∀ msg, event = .recv msg → scope.OkMsg msg)
    (hOwnBlock :
      ∀ batchHash batch rest,
        Dispatches node batchHash batch rest →
          scope.okBlock (newBlock node.cx batchHash))
    (hOwnVote :
      event = .internal → Votes node →
        scope.okVote (newVote node.cx))
    (hStep : Artemis.step node event = .ok node') :
    ContextInv scope node'.cx := by
  rcases step_ok hInv.data hInv.settled hMsg hStep with
    hEffects |
      ⟨batchHash, batch, rest, hDispatches, hDispatched⟩ |
      ⟨hVotes, hInternal, hAccepted⟩
  · exact hInv.effects hFree hProper hEffects
  · exact hInv.dispatched hFree hProper
      (hOwnBlock batchHash batch rest hDispatches)
      hDispatched
  · have hVote := hOwnVote hInternal hVotes
    exact (hInv.voting hVote).accepted hVote
      hInv.newVote_current hAccepted

end Artemis

end LibApollo

------------------------------------------------------------
-- Invariants of a Node
------------------------------------------------------------

namespace LibApollo

namespace Artemis

variable {H : Type} [DecidableEq H] [Crypto H]

/-
  What the network can make a node hold: any vote, and any
  block whose hash was recomputed when it was decoded.
-/
def networkScope (H : Type) [Crypto H] : Scope H where
  okVote := fun _ => True
  okBlock := fun block => block.blk.Proper

omit [DecidableEq H] in
theorem networkScope_proper :
    (networkScope H).Proper :=
  fun _ hBlock => hBlock

/- The network delivers decoded messages but no `Blame`. -/
def Decoded (event : Event H) : Prop :=
  ∀ msg, event = .recv msg → (networkScope H).OkMsg msg

theorem newBlock_ok
    (cx : Context H)
    (batchHash : H) :
    (networkScope H).okBlock (newBlock cx batchHash) :=
  Or.inr (LibApollo.Block.extending_wellHashed _ _ _ _)

/- What a context takes over from the configuration. -/
structure Configured
    (config : Config)
    (cx : Context H) : Prop where
  myid : cx.myid = config.id
  numNodes : cx.numNodes = config.numNodes
  numFaults : cx.numFaults = config.numFaults
  pubKeyMap : cx.pubKeyMap = config.pkMap.erase config.id
  viewLeader : cx.viewLeader = 0
  view : cx.view = 0

omit [Crypto H] in
theorem Configured.deliver
    {config : Config}
    {cx : Context H}
    (block : Block H)
    (hConfig : Configured config cx) :
    Configured config (doDelivery block cx) := by
  rcases doDelivery_deliveryOnly block cx with
    ⟨_, _, _, _, _, _, _, hEq, _⟩
  rw [hEq]
  exact { hConfig with }

theorem Configured.accepted
    {config : Config}
    {cx cx' : Context H}
    {v : UCRVote H}
    (hConfig : Configured config cx)
    (hAccepted : Accepted v cx cx') :
    Configured config cx' := by
  rcases hAccepted with
    ⟨_, _, _, _, _, _, _, _, _, _, rfl⟩
  exact { hConfig with }

theorem Configured.effects
    {scope : Scope H}
    {acc : UCRVote H → Prop}
    {config : Config}
    {cx cx' : Context H}
    (hConfig : Configured config cx)
    (hEffects : Effects scope acc cx cx') :
    Configured config cx' := by
  induction hEffects with
  | refl => exact hConfig
  | tail _ hEffect ih =>
      cases hEffect with
      | channels hChannels =>
          rcases hChannels with ⟨_, _, _, _, rfl⟩
          exact { ih with }
      | receive msg _ => cases msg <;> exact { ih with }
      | deliver block _ _ => exact ih.deliver block
      | send dest msg _ =>
          unfold Context.send
          split
          · exact ih
          · exact { ih with }
      | accept v _ _ _ _ hAccepted =>
          exact ih.accepted hAccepted
      | _ => exact { ih with }

theorem Configured.dispatched
    {config : Config}
    {cx cx' : Context H}
    {batchHash : H}
    {batch : Batch}
    {rest : List (H × Batch)}
    (hConfig : Configured config cx)
    (hDispatched :
      Dispatched batchHash batch
        { cx with pendingBatches := rest } cx') :
    Configured config cx' := by
  have hSent :
      Configured config
        (dispatching batchHash batch
          { cx with pendingBatches := rest }) :=
    { hConfig with }
  rcases hDispatched with ⟨hEq, _⟩ | ⟨_, hEq⟩
  · rw [hEq]
    exact hSent
  · rw [hEq]
    exact hSent.deliver _

/- A step of a node, whatever the scope. -/
theorem Configured.step
    {scope : Scope H}
    {config : Config}
    {node node' : Node H}
    {event : Event H}
    (hInv : ContextInv scope node.cx)
    (hConfig : Configured config node.cx)
    (hMsg :
      ∀ msg, event = .recv msg → scope.OkMsg msg)
    (hStep : step node event = .ok node') :
    Configured config node'.cx := by
  rcases step_ok hInv.data hInv.settled hMsg hStep with
    hEffects | ⟨_, _, _, _, hDispatched⟩ |
      ⟨_, _, hAccepted⟩
  · exact hConfig.effects hEffects
  · exact hConfig.dispatched hDispatched
  · have hVoting : Configured config (voting node.cx) :=
      { hConfig with }
    exact hVoting.accepted hAccepted

/- What holds at a node whatever the network sends. -/
structure NodeInv
    (config : Config)
    (node : Node H) : Prop where
  context : ContextInv (networkScope H) node.cx
  configured : Configured config node.cx

/- A new context holds only the genesis block. -/
theorem contextInv_new
    {scope : Scope H}
    (config : Config)
    (hScope : scope.okBlock Block.genesis) :
    ContextInv scope (Node.new config : Node H).cx := by
  have hStored :
      ∀ hash block,
        (Node.new config :
          Node H).cx.storage.deliveredBlockFromHash hash =
            some block →
          block = Block.genesis := by
    intro hash block hLookup
    exact Storage.eq_of_delivered_new hLookup
  have hGenesis :
      (Node.new config :
        Node H).cx.storage.isDeliveredByHash
          Crypto.emptyHash = true := by
    rw [Storage.isDeliveredByHash_iff]
    exact ⟨Block.genesis,
      Storage.addDeliveredBlock_self _ _⟩
  refine ⟨?_, ?_, ?_⟩
  · constructor
    case delivered =>
      intro hash block hLookup
      rw [hStored hash block hLookup]
      exact hScope
    case lastSeen => exact hScope
    case lastVoted => exact hScope
    all_goals
      simp [Node.new, Context.new,
        Context.announceHeightToBatcher,
        Context.tellBatcher]
  · constructor
    case genesis => exact hGenesis
    case closed =>
      intro hash block hLookup
      rw [hStored hash block hLookup]
      exact hGenesis
    all_goals
      simp [Node.new, Context.new,
        Context.announceHeightToBatcher,
        Context.tellBatcher]
  · constructor
    case round_pos => exact Nat.le_refl 1
    case keys =>
      intro r
      simp [Node.new, Context.new,
        Context.announceHeightToBatcher,
        Context.tellBatcher]
      omega
    case first => exact fun _ => rfl
    case leaders => rfl
    case seen => exact hGenesis
    case seen_pos => exact Or.inl rfl
    all_goals
      simp [Node.new, Context.new,
        Context.announceHeightToBatcher,
        Context.tellBatcher]

theorem nodeInv_new
    (config : Config) :
    NodeInv config (Node.new config : Node H) where
  context := contextInv_new config (Or.inl rfl)
  configured := ⟨rfl, rfl, rfl, rfl, rfl, rfl⟩

/- Every step over decoded messages keeps the invariants. -/
theorem NodeInv.step
    {config : Config}
    {node node' : Node H}
    {event : Event H}
    (hFree : CollisionFree H)
    (hInv : NodeInv config node)
    (hDecoded : Decoded event)
    (hStep : step node event = .ok node') :
    NodeInv config node' := by
  have hContext := hInv.context
  refine ⟨?_, hInv.configured.step hContext hDecoded hStep⟩
  apply hContext.step hFree networkScope_proper hDecoded
    _ _ hStep
  · intro batchHash _ _ _
    exact newBlock_ok node.cx batchHash
  · intro _ _
    trivial

theorem nodeInv_of_reach
    {config : Config}
    {guard : Node H → Event H → Prop}
    {node : Node H}
    (hFree : CollisionFree H)
    (hGuard :
      ∀ node event, guard node event → Decoded event)
    (hReach :
      Machine.Reach Artemis.step guard (Node.new config)
        node) :
    NodeInv config node := by
  apply hReach.invariant (NodeInv config)
    (nodeInv_new config)
  intro s s' event hInv hAllowed hStep
  exact hInv.step hFree (hGuard s event hAllowed) hStep

end Artemis

end LibApollo

------------------------------------------------------------
-- No Handler Stops the Node
------------------------------------------------------------

namespace LibApollo

namespace Artemis

variable {H : Type} [DecidableEq H] [Crypto H]
variable {scope : Scope H}

/- A vote for a delivered block can be accepted. -/
theorem ContextInv.exists_acceptVote
    {cx : Context H}
    {v : UCRVote H}
    (hInv : ContextInv scope cx)
    (hFaults : 1 ≤ cx.numFaults)
    (hNodes : 2 * cx.numFaults < cx.numNodes)
    (hCurrent : Current cx v) :
    ∃ cx', acceptVote v cx = .ok cx' := by
  apply Artemis.exists_acceptVote
  · intro hDue
    have hPassed :
        1 ≤ cx.round - cx.numFaults ∧
          cx.round - cx.numFaults < cx.round := by
      omega
    rcases (hInv.chain.keys _).mpr hPassed with
      ⟨w, hLookup⟩
    have hOther :
        cx.round - cx.numFaults ≠ v.round := by
      have hRound := hCurrent.1
      omega
    refine ⟨w, ?_, ?_⟩
    · rw [FinMap.lookup_insert_eq, if_neg hOther]
      exact hLookup
    · exact Storage.commitWalk_isSome_of_closed
        hInv.settled.closed
        (hInv.chain.entry _ _ hLookup).2
  · exact hCurrent.2
  · exact Leaders.exists_advance hFaults hNodes
      (Leaders.rotates_of_schedule hFaults hNodes
        hInv.chain.leaders) cx.round

/- A public key is known for every other replica. -/
def CompleteKeys (config : Config) : Prop :=
  ∀ i, i < config.numNodes → i ≠ config.id →
    ∃ publicKey, config.pkMap.lookup i = some publicKey

omit [Crypto H] in
theorem Configured.key
    {config : Config}
    {cx : Context H}
    {i : Replica}
    (hConfig : Configured config cx)
    (hKeys : CompleteKeys config)
    (hBound : i < config.numNodes)
    (hOther : i ≠ cx.myid) :
    cx.pubKeyMap.lookup i ≠ none := by
  rw [hConfig.myid] at hOther
  rcases hKeys i hBound hOther with ⟨publicKey, hLookup⟩
  rw [hConfig.pubKeyMap, FinMap.lookup_erase_eq,
    if_neg hOther, hLookup]
  exact Option.some_ne_none _

/- No decoded message makes a step fail. -/
theorem NodeInv.step_ne_error
    {config : Config}
    {node : Node H}
    {event : Event H}
    (hFree : CollisionFree H)
    (hFaults : 1 ≤ config.numFaults)
    (hNodes : 2 * config.numFaults < config.numNodes)
    (hKeys : CompleteKeys config)
    (hInv : NodeInv config node)
    (hDecoded : Decoded event)
    (panic : Panic) :
    Artemis.step node event ≠ .error panic := by
  intro hStep
  have hContext := hInv.context
  have hConfig := hInv.configured
  rcases step_error hContext.data hContext.settled hDecoded
      hStep with hFailure | ⟨_, hAccept⟩
  · cases hFailure with
    | viewLeaderKey hOther hNone =>
        have hPos : 0 < config.numNodes := by omega
        rw [hConfig.viewLeader] at hOther hNone
        exact hConfig.key hKeys hPos hOther hNone
    | roundLeaderKey hOther hNone =>
        have hRotates :=
          Leaders.rotates_of_schedule
            (by rw [hConfig.numFaults]; exact hFaults)
            (by rw [hConfig.numFaults, hConfig.numNodes]
                exact hNodes)
            hContext.chain.leaders
        have hBound := hRotates.leader_lt
        rw [hConfig.numNodes] at hBound
        exact hConfig.key hKeys hBound hOther hNone
    | accept hEffects _ _ hCurrent hAccept =>
        have hMid :=
          hContext.effects hFree networkScope_proper
            hEffects
        have hConfigMid := hConfig.effects hEffects
        rcases hMid.exists_acceptVote
            (by rw [hConfigMid.numFaults]; exact hFaults)
            (by rw [hConfigMid.numFaults,
                  hConfigMid.numNodes]
                exact hNodes)
            hCurrent with ⟨cx', hOk⟩
        rw [hOk] at hAccept
        cases hAccept
  · have hVoting :=
      hContext.voting (trivial :
        (networkScope H).okVote (newVote node.cx))
    have hSame : Configured config (voting node.cx) :=
      { hConfig with }
    rcases hVoting.exists_acceptVote
        (by rw [hSame.numFaults]; exact hFaults)
        (by rw [hSame.numFaults, hSame.numNodes]
            exact hNodes)
        hContext.newVote_current with ⟨cx', hOk⟩
    rw [hOk] at hAccept
    cases hAccept

/-
  In every state reached over decoded messages other than
  `Blame`: the delivered blocks are closed under parents;
  every entry for a missing parent names an undelivered
  child of it; votes that are ready or accepted name
  delivered blocks; and no event stops the node.
-/
theorem closed_and_running
    {config : Config}
    {node : Node H}
    (hFree : CollisionFree H)
    (hFaults : 1 ≤ config.numFaults)
    (hNodes : 2 * config.numFaults < config.numNodes)
    (hKeys : CompleteKeys config)
    (hReach :
      Machine.Reach step (fun _ event => Decoded event)
        (Node.new config) node) :
    (∀ hash block,
        node.cx.storage.deliveredBlockFromHash hash =
            some block →
          node.cx.storage.isDeliveredByHash
            block.blk.header.prev = true) ∧
      (∀ prev child,
        node.cx.blockParentWaiting.lookup prev =
            some child →
          node.cx.storage.isDeliveredByHash prev = false ∧
            ∃ block,
              node.cx.undeliveredBlocks.lookup child =
                  some block ∧
                block.blk.header.prev = prev) ∧
      (∀ round v,
        node.cx.voteReady.lookup round = some v →
          node.cx.storage.isDeliveredByHash v.hash =
            true) ∧
      (∀ round v,
        node.cx.voteChain.lookup round = some v →
          node.cx.storage.isDeliveredByHash v.hash =
            true) ∧
      ∀ event, Decoded event →
        ∃ node', step node event = .ok node' := by
  have hInv : NodeInv config node :=
    nodeInv_of_reach hFree (fun _ _ hEvent => hEvent) hReach
  have hSettled := hInv.context.settled
  refine ⟨hSettled.closed, ?_, ?_, ?_, ?_⟩
  · intro prev child hLookup
    rcases hSettled.parked prev child hLookup with
      ⟨block, hParked, _, hPrev⟩
    exact ⟨hSettled.blocked prev child hLookup
      (fun hNo => hNo), block, hParked, hPrev⟩
  · intro round v hLookup
    exact (hSettled.ready round v hLookup).2
  · intro round v hLookup
    exact (hInv.context.chain.entry round v hLookup).2
  · intro event hDecoded
    cases hStep : step node event with
    | ok node' => exact ⟨node', rfl⟩
    | error panic =>
        exact absurd hStep
          (hInv.step_ne_error hFree hFaults hNodes hKeys
            hDecoded panic)

def decodedCheck : Event H → Bool
| .recv (.newBlock block _) => decide block.blk.WellHashed
| .recv (.response _ _ block _) =>
    decide block.blk.WellHashed
| .recv (.blame _) => false
| _ => true

theorem decoded_of_decodedCheck
    {event : Event H}
    (hCheck : decodedCheck event = true) :
    Decoded event := by
  intro msg hEq
  subst hEq
  cases msg with
  | newBlock block batch =>
      exact Or.inr (of_decide_eq_true hCheck)
  | ucrVote v => trivial
  | relay sender v => trivial
  | blame v => cases hCheck
  | request sender reqId hash => trivial
  | response sender reqId block batch =>
      exact Or.inr (of_decide_eq_true hCheck)
  | invalid => trivial

/- Three replicas, of which one may be faulty. -/
def smallConfig (id : Replica) : Config where
  id := id
  numNodes := 3
  numFaults := 1
  pkMap := Digest.keyMap [0, 1, 2]
  secretKeyBytes := Digest.keyOf id
  benchMetricsNode := 0

theorem smallConfig_completeKeys
    (id : Replica) : CompleteKeys (smallConfig id) := by
  intro i hBound _
  change i < 3 at hBound
  have hCases : i = 0 ∨ i = 1 ∨ i = 2 := by omega
  change ∃ publicKey,
    (Digest.keyMap [0, 1, 2]).lookup i = some publicKey
  rcases hCases with rfl | rfl | rfl
  · exact ⟨Digest.keyOf 0, by decide⟩
  · exact ⟨Digest.keyOf 1, by decide⟩
  · exact ⟨Digest.keyOf 2, by decide⟩

/- The block of the view leader on a parent. -/
def leaderBlock
    (parent : LibApollo.Block Digest)
    (height : Nat) : Block Digest :=
  Block.sign
    { blk := Digest.blockOn parent 0 height
      sig := { origin := 0, auth := [] } }
    (Digest.keyOf 0)

def firstBlock : Block Digest :=
  leaderBlock LibApollo.Block.genesis 1

def secondBlock : Block Digest :=
  leaderBlock firstBlock.blk 2

/- A replica votes for a block in a round of view 0. -/
def voteFor
    (voter round : Nat)
    (block : Block Digest) : UCRVote Digest :=
  UCRVote.computeSig
    { hash := block.blk.hash
      round := round
      view := 0
      vote := { origin := 0, auth := [] } }
    voter (Digest.keyOf voter)

/-
  The second block arrives first, as a response, then the
  first block and the vote of the leader of round 1; the
  node itself votes in round 2.
-/
def parkedRun : List (Event Digest) :=
  [.recv (.response 0 0 secondBlock oneBatch)] ++
    List.replicate 9 .internal ++
    [.recv (.newBlock firstBlock oneBatch),
      .recv (.ucrVote (voteFor 0 1 firstBlock))] ++
    List.replicate 10 .internal

theorem closed_and_running_parked :
    ∃ node : Node Digest,
      Machine.Reach step (fun _ event => Decoded event)
          (Node.new (smallConfig 1)) node ∧
        node.cx.round = 3 ∧
        (∀ hash block,
          node.cx.storage.deliveredBlockFromHash hash =
              some block →
            node.cx.storage.isDeliveredByHash
              block.blk.header.prev = true) ∧
        ∀ event, Decoded event →
          ∃ node', step node event = .ok node' := by
  have hRun :
      Machine.runCheck step
        (fun _ event => decodedCheck event)
        (fun node => decide (node.cx.round = 3))
        (Node.new (smallConfig 1)) parkedRun = true := by
    decide +kernel
  rcases Machine.Reach.of_runCheck
      (fun _ _ hCheck => decoded_of_decodedCheck hCheck)
      hRun with ⟨node, hReach, hRound⟩
  rcases closed_and_running Digest.collisionFree
      (by decide) (by decide) (smallConfig_completeKeys 1)
      hReach with ⟨hClosed, _, _, _, hRunning⟩
  exact ⟨node, hReach, of_decide_eq_true hRound, hClosed,
    hRunning⟩

end Artemis

end LibApollo
