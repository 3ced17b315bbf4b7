import LibApollo.Apollo.Transitions
import LibApollo.Artemis.Buffers
import LibApollo.Commits
import LibApollo.Wire

/-
  Block heights in Apollo and Artemis.

  No delivery checks the height in a header.  A node gives
  the blocks it builds the height after that of its last
  seen block, and blocks from the network come with the
  height their sender has put in.

  Key definitions include:
    * `Origins`, `Origins.Known`
    * `Origins.HeightsFollow`
    * `Apollo.origins`, `Artemis.origins`

  Key theorems include:
    * `Origins.built_height`, `Origins.height_eq`
    * `heights_follow_received`
-/

------------------------------------------------------------
-- Where Blocks Come From
------------------------------------------------------------

namespace LibApollo

/- The blocks a node has received and those it has built. -/
structure Origins (H : Type) where
  received : Block H → Prop
  built : Block H → Prop

namespace Origins

variable {H : Type} [Crypto H]
variable {origins : Origins H}
variable {block parent : Block H}

inductive Known (origins : Origins H) : Block H → Prop where
| genesis : Known origins Block.genesis
| received {block : Block H} :
    origins.received block → Known origins block
| built {block : Block H} :
    origins.built block → Known origins block

/-
  Received blocks are decoded, and the node builds blocks
  on blocks it knows, one higher in the arithmetic of u64.
-/
structure Regular (origins : Origins H) : Prop where
  received :
    ∀ block, origins.received block → block.WellHashed
  built :
    ∀ block, origins.built block →
      ∃ tip author batchHash,
        origins.Known tip ∧
          block =
            Block.extending tip author
              (succU64 tip.header.height) batchHash

/- A received block is one higher than its parent. -/
def HeightsFollow (origins : Origins H) : Prop :=
  ∀ block parent,
    origins.received block → origins.Known parent →
      block.header.prev = parent.hash →
      block.header.height = succU64 parent.header.height

/- One run goes on where the other ended. -/
structure Within (origins later : Origins H) : Prop where
  received :
    ∀ block, origins.received block → later.received block
  built : ∀ block, origins.built block → later.built block

theorem Known.mono
    {later : Origins H}
    (hWithin : origins.Within later)
    (hKnown : origins.Known block) :
    later.Known block := by
  cases hKnown with
  | genesis => exact .genesis
  | received hReceived =>
      exact .received (hWithin.received block hReceived)
  | built hBuilt =>
      exact .built (hWithin.built block hBuilt)

theorem Known.proper
    (hRegular : origins.Regular)
    (hKnown : origins.Known block) :
    block.Proper := by
  cases hKnown with
  | genesis => exact Or.inl rfl
  | received hReceived =>
      exact Or.inr (hRegular.received block hReceived)
  | built hBuilt =>
      rcases hRegular.built block hBuilt with
        ⟨tip, author, batchHash, _, rfl⟩
      exact Or.inr (Block.extending_wellHashed _ _ _ _)

/- A block that was built is one higher than its parent. -/
theorem built_height
    (hFree : CollisionFree H)
    (hRegular : origins.Regular)
    (hBuilt : origins.built block)
    (hParent : origins.Known parent)
    (hPrev : block.header.prev = parent.hash) :
    block.header.height =
      succU64 parent.header.height := by
  rcases hRegular.built block hBuilt with
    ⟨tip, author, batchHash, hTip, rfl⟩
  have hSame : tip = parent :=
    Block.Proper.eq_of_hash_eq hFree (hTip.proper hRegular)
      (hParent.proper hRegular) hPrev
  rw [Block.extending_height, hSame]

/- Where received blocks follow their parents, all do. -/
theorem height_eq
    (hFree : CollisionFree H)
    (hRegular : origins.Regular)
    (hFollow : origins.HeightsFollow)
    (hKnown : origins.Known block)
    (hOther : block ≠ Block.genesis)
    (hParent : origins.Known parent)
    (hPrev : block.header.prev = parent.hash) :
    block.header.height =
      succU64 parent.header.height := by
  cases hKnown with
  | genesis => exact absurd rfl hOther
  | received hReceived =>
      exact hFollow block parent hReceived hParent hPrev
  | built hBuilt =>
      exact built_height hFree hRegular hBuilt hParent hPrev

end Origins

end LibApollo

------------------------------------------------------------
-- Blocks of Apollo
------------------------------------------------------------

namespace LibApollo

namespace Apollo

variable {H : Type} [DecidableEq H] [Crypto H]
variable {cx cx' : Context H}
variable {node node' : Node H}
variable {event : Event H}
variable {past : List (Node H × Event H)}
variable {sender : Replica}
variable {p : Propose H}
variable {block : Block H}

/- The blocks of a run: received, or built to propose. -/
def origins (past : List (Node H × Event H)) :
    Origins H where
  received block :=
    ∃ taken ∈ past, ∃ msg,
      taken.2 = .recv msg ∧ block ∈ msg.blocks
  built block :=
    ∃ taken ∈ past, ∃ batchHash batch rest,
      StepProposes taken.1 taken.2 batchHash batch rest ∧
        block = newBlock taken.1.cx batchHash

/- All blocks of the node are known. -/
structure Sourced
    (origins : Origins H)
    (cx : Context H) : Prop where
  delivered :
    ∀ hash block,
      cx.storage.deliveredBlockFromHash hash = some block →
        origins.Known block
  lastSeen : origins.Known cx.lastSeenBlock
  queued :
    ∀ x ∈ cx.propBuf, origins.received x.2.2.1

variable {source : Origins H}

theorem Sourced.store
    (hSourced : Sourced source cx)
    (hBlock : source.Known block) :
    Sourced source (cx.addDeliveredBlock block) := by
  refine { hSourced with delivered := ?_ }
  exact Storage.forall_addDeliveredBlock hSourced.delivered
    hBlock

theorem Sourced.send
    (hSourced : Sourced source cx)
    (dest : Replica)
    (msg : ProtocolMsg H) :
    Sourced source (cx.send dest msg) := by
  unfold Context.send
  split
  · exact hSourced
  · exact { hSourced with }

theorem Sourced.acceptProposal
    (hSourced : Sourced source cx)
    (hBlock : source.Known block)
    (hAccept : acceptProposal p block cx = .ok cx') :
    Sourced source cx' := by
  rcases acceptProposal_ok hAccept with
    ⟨_, _, _, _, _, hOutcome, rfl⟩
  refine { hSourced with
    delivered := ?_
    lastSeen := hBlock }
  intro hash stored hStored
  dsimp only at hStored
  rw [hOutcome.delivered_eq] at hStored
  exact hSourced.delivered hash stored hStored

theorem Sourced.receives
    (hSourced : Sourced source cx)
    (hBlock : source.Known block)
    (hReceives : Receives sender p block cx cx') :
    Sourced source cx' := by
  cases hReceives with
  | refuse _ _ => exact hSourced
  | keep _ => exact { hSourced with }
  | equivocation _ _ => exact hSourced
  | accept _ _ hAccept =>
      exact hSourced.acceptProposal hBlock hAccept

theorem Sourced.delivers
    (hSourced : Sourced source cx)
    (hBlock : source.Known block)
    (hDelivers : Delivers sender p block cx cx') :
    Sourced source cx' := by
  have hStored := hSourced.store hBlock
  cases hDelivers with
  | park _ =>
      refine Sourced.send ?_ _ _
      exact { hStored with }
  | hand _ hReceives =>
      exact { hStored.receives hBlock hReceives with }

theorem Sourced.resolves
    {blockAndBatch : Option (Block H × Batch)}
    (hSourced : Sourced source cx)
    (hResolves :
      Resolves sender p blockAndBatch cx cx')
    (hSent :
      ∀ block batch, blockAndBatch = some (block, batch) →
        source.received block) :
    Sourced source cx' := by
  cases hResolves with
  | leave => exact hSourced
  | ask _ _ =>
      refine Sourced.send ?_ _ _
      exact { hSourced with }
  | @sent block batch _ hPair _ _ hDelivers =>
      have hPersisted :
          Sourced source
            (cx.persistBatch block.body.batchHash batch) :=
        { hSourced with }
      exact hPersisted.delivers
        (.received (hSent block batch hPair)) hDelivers
  | stored _ hLookup hDelivers =>
      exact hSourced.delivers
        (hSourced.delivered _ _ hLookup) hDelivers

theorem Sourced.transition
    (hSourced : Sourced source cx)
    (hReceived :
      ∀ msg, event = .recv msg →
        ∀ block ∈ msg.blocks, source.received block)
    (hTransition : Transition cx event cx') :
    Sourced source cx' := by
  cases hTransition with
  | stay => exact hSourced
  | count _ => exact { hSourced with }
  | queue msg =>
      have hBlocks := hReceived msg rfl
      have hQueue :
          ∀ sender p block batch,
            source.received block →
              Sourced source
                { cx with
                  propBuf :=
                    cx.propBuf ++
                      [(sender, p, block, batch)] } := by
        intro sender p block batch hBlock
        refine { hSourced with queued := ?_ }
        intro x hMem
        rcases List.mem_append.mp hMem with hOld | hNew
        · exact hSourced.queued x hOld
        · rw [List.mem_singleton.mp hNew]
          exact hBlock
      cases msg with
      | newProposal p block batch =>
          exact hQueue _ _ _ _
            (hBlocks block (List.mem_singleton_self _))
      | response sender reqId p block batch =>
          exact hQueue _ _ _ _
            (hBlocks block (List.mem_singleton_self _))
      | relay sender p => exact { hSourced with }
      | request sender reqId hash => exact { hSourced with }
      | blame v => exact { hSourced with }
  | install _ => exact { hSourced with }
  | pend _ _ => exact { hSourced with }
  | @proposal sender p block batch rest _ hQueue
      hResolves =>
      have hHead : source.received block :=
        hSourced.queued (sender, p, block, batch)
          (hQueue ▸ List.mem_cons_self)
      have hPopped :
          Sourced source { cx with propBuf := rest } :=
        { hSourced with
          queued := fun x hMem =>
            hSourced.queued x
              (hQueue ▸ List.mem_cons_of_mem _ hMem) }
      refine hPopped.resolves hResolves ?_
      intro other otherBatch hPair
      cases hPair
      exact hHead
  | @relay _ _ rest _ _ hResolves =>
      have hPopped :
          Sourced source { cx with relayBuf := rest } :=
        { hSourced with }
      exact hPopped.resolves hResolves nofun
  | @answer sender reqId hash rest _ =>
      rcases onRecvRequest_eq sender reqId hash
          { cx with otherBuf := rest } with ⟨_, _, hEq⟩
      rw [hEq]
      exact { hSourced with }
  | skip _ => exact { hSourced with }
  | future _ hResolves =>
      have hTaken :
          Sourced source { cx with
            futureMsgs := cx.futureMsgs.erase cx.round } :=
        { hSourced with }
      exact hTaken.resolves hResolves nofun
  | @child _ hash _ _ _ _ hLookup hReceives =>
      have hTaken :
          Sourced source { cx with
            propWaitingParent :=
              cx.propWaitingParent.erase hash } :=
        { hSourced with }
      exact hTaken.receives
        (hSourced.delivered _ _ hLookup) hReceives

theorem Sourced.doPropose
    {batchHash : H}
    {batch : Batch}
    (hSourced : Sourced source cx)
    (hBuilt : source.built (newBlock cx batchHash))
    (hPropose : doPropose batchHash batch cx = .ok cx') :
    Sourced source cx' := by
  have hBlock : source.Known (newBlock cx batchHash) :=
    .built hBuilt
  have hStored := hSourced.store hBlock
  unfold Apollo.doPropose onReceiveProposal at hPropose
  dsimp only at hPropose
  split at hPropose
  · cases hPropose
    exact { hStored with }
  · refine Sourced.acceptProposal ?_ hBlock hPropose
    exact { hStored with }

theorem origins_append
    (past later : List (Node H × Event H)) :
    (origins past).Within (origins (past ++ later)) := by
  constructor
  · intro block hReceived
    rcases hReceived with ⟨taken, hTaken, hMsg⟩
    exact ⟨taken, List.mem_append_left _ hTaken, hMsg⟩
  · intro block hBuilt
    rcases hBuilt with ⟨taken, hTaken, hStep⟩
    exact ⟨taken, List.mem_append_left _ hTaken, hStep⟩

/- What is known stays known. -/
theorem Sourced.later
    (hSourced : Sourced (origins past) cx)
    (later : List (Node H × Event H)) :
    Sourced (origins (past ++ later)) cx := by
  have hWithin := origins_append past later
  exact
    { delivered := fun hash block hLookup =>
        (hSourced.delivered hash block hLookup).mono hWithin
      lastSeen := hSourced.lastSeen.mono hWithin
      queued := fun x hMem =>
        hWithin.received _ (hSourced.queued x hMem) }

/- Every block of a run was received or built. -/
theorem sourced_of_trace
    {config : Config}
    (hTrace :
      Machine.Trace step (Node.new config) past node) :
    Sourced (origins past) node.cx := by
  induction hTrace with
  | start =>
      refine ⟨?_, .genesis, nofun⟩
      intro hash block hLookup
      have hGenesis : block = Block.genesis :=
        Storage.eq_of_delivered_new hLookup
      rw [hGenesis]
      exact .genesis
  | @next before last _ event _ hStep ih =>
      have hLast := ih.later [(last, event)]
      have hMem :
          (last, event) ∈ before ++ [(last, event)] :=
        List.mem_append_right _ (List.mem_singleton_self _)
      rcases step_transition hStep with
        ⟨hTransition, _⟩ |
          ⟨batchHash, batch, rest, hProposes, hPropose⟩
      · refine hLast.transition ?_ hTransition
        intro msg hMsg block hBlock
        exact ⟨_, hMem, msg, hMsg, hBlock⟩
      · have hTaken :
            Sourced (origins (before ++ [(last, event)]))
              { last.cx with pendingBatches := rest } :=
          { hLast with }
        refine hTaken.doPropose ?_ hPropose
        exact ⟨_, hMem, batchHash, batch, rest, hProposes,
          rfl⟩

theorem origins_regular
    {config : Config}
    (hTrace :
      Machine.Trace step (Node.new config) past node)
    (hNetwork : ∀ taken ∈ past, Network taken.2) :
    (origins past).Regular := by
  constructor
  · intro block hReceived
    rcases hReceived with
      ⟨taken, hTaken, msg, hMsg, hBlock⟩
    have hHashed := hNetwork taken hTaken msg hMsg
    cases msg with
    | newProposal p other batch =>
        rw [List.mem_singleton.mp hBlock]
        exact hHashed
    | response sender reqId p other batch =>
        rw [List.mem_singleton.mp hBlock]
        exact hHashed
    | relay sender p => exact absurd hBlock List.not_mem_nil
    | request sender reqId hash =>
        exact absurd hBlock List.not_mem_nil
    | blame v => exact absurd hBlock List.not_mem_nil
  · intro block hBuilt
    rcases hBuilt with
      ⟨taken, hTaken, batchHash, _, _, _, rfl⟩
    rcases hTrace.before_step hTaken with
      ⟨earlier, _, ⟨rest, hPast⟩, hEarlier, _⟩
    have hTip := (sourced_of_trace hEarlier).lastSeen
    rw [List.append_assoc] at hPast
    rw [← hPast]
    exact ⟨taken.1.cx.lastSeenBlock, taken.1.cx.myid,
      batchHash, hTip.mono (origins_append _ _), rfl⟩

end Apollo

end LibApollo

------------------------------------------------------------
-- Blocks of Artemis
------------------------------------------------------------

namespace LibApollo

namespace Artemis

variable {H : Type} [DecidableEq H] [Crypto H]
variable {cx mid cx' : Context H}
variable {node node' : Node H}
variable {event : Event H}
variable {past : List (Node H × Event H)}
variable {block : Block H}

/- The blocks of a run: received, or built to dispatch. -/
def origins (past : List (Node H × Event H)) :
    Origins H where
  received block :=
    ∃ taken ∈ past, ∃ msg,
      taken.2 = .recv msg ∧ block ∈ msg.blocks
  built block :=
    ∃ taken ∈ past, ∃ batchHash batch rest,
      taken.2 = .internal ∧
        Dispatches taken.1 batchHash batch rest ∧
        block = (newBlock taken.1.cx batchHash).blk

variable {source : Origins H}

/- All blocks that are held are known. -/
structure Sourced
    (source : Origins H)
    (cx : Context H) : Prop where
  delivered :
    ∀ hash block,
      cx.storage.deliveredBlockFromHash hash = some block →
        source.Known block.blk
  undelivered :
    ∀ hash block,
      cx.undeliveredBlocks.lookup hash = some block →
        source.Known block.blk
  lastSeen : source.Known cx.lastSeenBlock.blk

theorem Sourced.of_same
    (hSourced : Sourced source cx)
    (hSame : SameHoldings cx cx') :
    Sourced source cx' := by
  refine ⟨?_, ?_, ?_⟩
  · intro hash block hLookup
    rw [hSame.delivered] at hLookup
    exact hSourced.delivered hash block hLookup
  · rw [hSame.undeliveredBlocks]
    exact hSourced.undelivered
  · rw [hSame.lastSeenBlock]
    exact hSourced.lastSeen

theorem Sourced.storeBlock
    (hSourced : Sourced source cx)
    (hBlock : source.Known block.blk) :
    Sourced source (storeBlock block cx) := by
  refine ⟨?_, hSourced.undelivered, ?_⟩
  · exact Storage.forall_addDeliveredBlock
      hSourced.delivered hBlock
  · unfold Artemis.storeBlock
    dsimp only
    split
    · exact hBlock
    · exact hSourced.lastSeen

theorem Sourced.releaseVote
    (hSourced : Sourced source cx)
    (hash : H) :
    Sourced source (releaseVote hash cx) := by
  unfold Artemis.releaseVote
  split
  · exact hSourced
  · exact { hSourced with }

theorem Sourced.forget
    (hSourced : Sourced source cx)
    (hash : H) :
    Sourced source
      { cx with
        undeliveredBlocks :=
          cx.undeliveredBlocks.erase hash } :=
  { hSourced with
    undelivered :=
      FinMap.forall_erase hSourced.undelivered }

theorem Sourced.deliverChild
    (hSourced : Sourced source cx)
    (hash child : H) :
    Sourced source (deliverChild hash child cx) := by
  unfold Artemis.deliverChild
  dsimp only
  refine Sourced.releaseVote ?_ child
  split
  · exact { hSourced with }
  · rename_i kept hKept
    refine Sourced.storeBlock ?_
      (hSourced.undelivered child kept hKept)
    exact { hSourced.forget child with }

theorem Sourced.doDelivery
    (hSourced : Sourced source cx)
    (hBlock : source.Known block.blk) :
    Sourced source (doDelivery block cx) := by
  apply doDelivery_rule
    (fun _ now => Sourced source now) (Sourced source)
  · refine Sourced.releaseVote ?_ _
    exact (hSourced.storeBlock hBlock).forget _
  · intro hash child now hNow _
    exact hNow.deliverChild hash child
  · intro last now hNow _
    exact hNow
  · intro now hNow
    exact { hNow with }

omit [Crypto H] in
/- The queues of blocks are as they were or shorter. -/
structure Shorter (cx cx' : Context H) : Prop where
  blocks :
    cx'.blockProcessingWaiting ⊆ cx.blockProcessingWaiting
  responses : cx'.responseWaiting ⊆ cx.responseWaiting

omit [Crypto H] in
theorem Shorter.of_eq
    (hBlocks :
      cx'.blockProcessingWaiting =
        cx.blockProcessingWaiting)
    (hResponses :
      cx'.responseWaiting = cx.responseWaiting) :
    Shorter cx cx' := by
  constructor
  · rw [hBlocks]
    exact List.Subset.refl _
  · rw [hResponses]
    exact List.Subset.refl _

omit [Crypto H] in
theorem Shorter.send
    (hShorter : Shorter cx cx')
    (dest : Replica)
    (msg : ProtocolMsg H) :
    Shorter cx (cx'.send dest msg) := by
  unfold Context.send
  split
  · exact hShorter
  · exact { hShorter with }

omit [Crypto H] in
theorem Shorter.doDelivery
    (hShorter : Shorter cx cx')
    (block : Block H) :
    Shorter cx (doDelivery block cx') := by
  rcases doDelivery_deliveryOnly block cx' with
    ⟨_, _, _, _, _, _, _, hEq, _⟩
  rw [hEq]
  exact { hShorter with }

theorem Accepted.shorter
    {v : UCRVote H}
    (hAccepted : Accepted v cx cx') :
    Shorter cx cx' := by
  rcases hAccepted with
    ⟨_, _, _, _, _, _, _, _, _, _, rfl⟩
  exact .of_eq rfl rfl

theorem Considers.shorter
    {v : UCRVote H}
    (hConsiders : Considers v cx cx') :
    Shorter cx cx' := by
  cases hConsiders with
  | refuse _ => exact .of_eq rfl rfl
  | accept _ hAccepted => exact hAccepted.shorter

/- Blocks enter the queues only when they are received. -/
theorem Transition.shorter
    (hTransition : Transition node event cx') :
    Shorter node.cx cx' ∨
      ∃ msg, event = .recv msg ∧
        cx' = bufferMessage msg node.cx := by
  cases hTransition with
  | queue msg => exact Or.inr ⟨msg, rfl, rfl⟩
  | stay => exact Or.inl (.of_eq rfl rfl)
  | count => exact Or.inl (.of_eq rfl rfl)
  | install _ => exact Or.inl (.of_eq rfl rfl)
  | pend _ _ => exact Or.inl (.of_eq rfl rfl)
  | @block block batch rest _ _ hQueue hTakes =>
      left
      have hPopped :
          Shorter node.cx
            { node.cx with
              blockProcessingWaiting := rest } := by
        refine ⟨?_, List.Subset.refl _⟩
        rw [hQueue]
        exact List.subset_cons_self _ _
      cases hTakes with
      | drop => exact hPopped
      | leave _ => exact { hPopped with }
      | deliver _ _ =>
          refine Shorter.doDelivery ?_ _
          exact { hPopped with }
  | @response sender block batch rest _ _ hQueue hTakes =>
      left
      have hPopped :
          Shorter node.cx
            { node.cx with responseWaiting := rest } := by
        refine ⟨List.Subset.refl _, ?_⟩
        rw [hQueue]
        exact List.subset_cons_self _ _
      cases hTakes with
      | drop => exact hPopped
      | leave _ => exact { hPopped with }
      | park _ =>
          refine Shorter.send ?_ _ _
          exact { hPopped with }
      | deliver _ _ =>
          refine Shorter.doDelivery ?_ _
          exact { hPopped with }
  | ready _ _ hConsiders =>
      exact Or.inl { hConsiders.shorter with }
  | vote _ _ _ hTakes =>
      left
      cases hTakes with
      | past _ => exact .of_eq rfl rfl
      | keep _ _ => exact .of_eq rfl rfl
      | await _ _ =>
          rw [awaitBlock_eq]
          refine Shorter.send ?_ _ _
          exact .of_eq rfl rfl
      | consider _ hConsiders =>
          exact { hConsiders.shorter with }
  | answer _ _ hAnswers =>
      left
      cases hAnswers with
      | pass => exact .of_eq rfl rfl
      | missing _ => exact .of_eq rfl rfl
      | respond _ _ =>
          refine Shorter.send ?_ _ _
          exact .of_eq rfl rfl
  | dispatch _ hDispatched =>
      left
      rcases hDispatched with ⟨rfl, _⟩ | ⟨_, rfl⟩
      · exact .of_eq rfl rfl
      · refine Shorter.doDelivery ?_ _
        exact .of_eq rfl rfl
  | own _ hAccepted =>
      exact Or.inl { hAccepted.shorter with }

/- The blocks that wait in the queues were received. -/
structure Queued
    (source : Origins H)
    (cx : Context H) : Prop where
  blocks :
    ∀ x ∈ cx.blockProcessingWaiting,
      source.received x.1.blk
  responses :
    ∀ x ∈ cx.responseWaiting, source.received x.2.1.blk

omit [Crypto H] in
theorem Queued.bufferMessage
    {msg : ProtocolMsg H}
    (hQueued : Queued source cx)
    (hReceived :
      ∀ block ∈ msg.blocks, source.received block) :
    Queued source (bufferMessage msg cx) := by
  cases msg with
  | newBlock block batch =>
      refine { hQueued with blocks := ?_ }
      intro x hMem
      rcases List.mem_append.mp hMem with hOld | hNew
      · exact hQueued.blocks x hOld
      · rw [List.mem_singleton.mp hNew]
        exact hReceived _ (List.mem_singleton_self _)
  | response sender reqId block batch =>
      refine { hQueued with responses := ?_ }
      intro x hMem
      rcases List.mem_append.mp hMem with hOld | hNew
      · exact hQueued.responses x hOld
      · rw [List.mem_singleton.mp hNew]
        exact hReceived _ (List.mem_singleton_self _)
  | ucrVote v => exact { hQueued with }
  | relay sender v => exact { hQueued with }
  | request sender reqId hash => exact { hQueued with }
  | blame v => exact { hQueued with }
  | invalid => exact hQueued

theorem Queued.transition
    (hQueued : Queued source node.cx)
    (hReceived :
      ∀ msg, event = .recv msg →
        ∀ block ∈ msg.blocks, source.received block)
    (hTransition : Transition node event cx') :
    Queued source cx' := by
  rcases hTransition.shorter with
    hShorter | ⟨msg, hMsg, rfl⟩
  · exact
      { blocks := fun x hMem =>
          hQueued.blocks x (hShorter.blocks hMem)
        responses := fun x hMem =>
          hQueued.responses x (hShorter.responses hMem) }
  · exact hQueued.bufferMessage (hReceived msg hMsg)

/- The next block is known, be it received or built. -/
theorem Queued.nextBlock
    (hQueued : Queued source node.cx)
    (hBuilt :
      ∀ batchHash batch rest,
        Dispatches node batchHash batch rest →
          source.built (newBlock node.cx batchHash).blk)
    (hNext : NextBlock node block) :
    source.Known block.blk := by
  cases hNext with
  | @sent batch rest hQueue =>
      exact .received (hQueued.blocks (block, batch)
        (hQueue ▸ List.mem_cons_self))
  | @response sender batch rest hQueue =>
      exact .received
        (hQueued.responses (sender, block, batch)
          (hQueue ▸ List.mem_cons_self))
  | own hDispatches hEq =>
      rw [hEq]
      exact .built (hBuilt _ _ _ hDispatches)

theorem Sourced.holdings
    (hSourced : Sourced source node.cx)
    (hNext :
      ∀ block, event = .internal → NextBlock node block →
        source.Known block.blk)
    (hHolding : HoldingStep node event cx') :
    Sourced source cx' := by
  cases hHolding with
  | same hSame => exact hSourced.of_same hSame
  | @deliver block mid hEvent hBlock _ hEq hSame =>
      rw [hEq]
      exact (hSourced.of_same hSame).doDelivery
        (hNext block hEvent hBlock)
  | @park block hEvent hBlock hSame =>
      refine Sourced.of_same ?_ hSame
      refine { hSourced with undelivered := ?_ }
      exact FinMap.forall_insert hSourced.undelivered
        (hNext block hEvent hBlock)
  | keep _ hSame =>
      refine Sourced.of_same ?_ hSame
      exact { hSourced with }
  | await _ hSame =>
      refine Sourced.of_same ?_ hSame
      exact { hSourced with }
  | take hSame =>
      refine Sourced.of_same ?_ hSame
      exact { hSourced with }

theorem origins_append
    (past later : List (Node H × Event H)) :
    (origins past).Within (origins (past ++ later)) := by
  constructor
  · intro block hReceived
    rcases hReceived with ⟨taken, hTaken, hMsg⟩
    exact ⟨taken, List.mem_append_left _ hTaken, hMsg⟩
  · intro block hBuilt
    rcases hBuilt with ⟨taken, hTaken, hStep⟩
    exact ⟨taken, List.mem_append_left _ hTaken, hStep⟩

/- What is known stays known. -/
theorem Sourced.later
    (hSourced : Sourced (origins past) cx)
    (later : List (Node H × Event H)) :
    Sourced (origins (past ++ later)) cx := by
  have hWithin := origins_append past later
  exact
    { delivered := fun hash block hLookup =>
        (hSourced.delivered hash block hLookup).mono hWithin
      undelivered := fun hash block hLookup =>
        (hSourced.undelivered hash block hLookup).mono
          hWithin
      lastSeen := hSourced.lastSeen.mono hWithin }

theorem Queued.later
    (hQueued : Queued (origins past) cx)
    (later : List (Node H × Event H)) :
    Queued (origins (past ++ later)) cx := by
  have hWithin := origins_append past later
  exact
    { blocks := fun x hMem =>
        hWithin.received _ (hQueued.blocks x hMem)
      responses := fun x hMem =>
        hWithin.received _ (hQueued.responses x hMem) }

/- Every block of a run was received or built. -/
theorem sourced_of_trace
    {config : Config}
    (hTrace :
      Machine.Trace step (Node.new config) past node) :
    Sourced (origins past) node.cx ∧
      Queued (origins past) node.cx := by
  induction hTrace with
  | start =>
      refine ⟨⟨?_, ?_, .genesis⟩, ⟨nofun, nofun⟩⟩
      · intro hash block hLookup
        have hGenesis : block = Block.genesis :=
          Storage.eq_of_delivered_new hLookup
        rw [hGenesis]
        exact .genesis
      · intro hash block hLookup
        simp [Node.new, Context.new,
          Context.announceHeightToBatcher,
          Context.tellBatcher] at hLookup
  | @next before last _ event _ hStep ih =>
      have hSourced := ih.1.later [(last, event)]
      have hQueued := ih.2.later [(last, event)]
      have hTransition := step_transition hStep
      have hMem :
          (last, event) ∈ before ++ [(last, event)] :=
        List.mem_append_right _ (List.mem_singleton_self _)
      constructor
      · refine hSourced.holdings ?_ hTransition.holdings
        intro block hInternal hNext
        refine hQueued.nextBlock ?_ hNext
        intro batchHash batch rest hDispatches
        exact ⟨_, hMem, batchHash, batch, rest, hInternal,
          hDispatches, rfl⟩
      · refine hQueued.transition ?_ hTransition
        intro msg hMsg block hBlock
        exact ⟨_, hMem, msg, hMsg, hBlock⟩

theorem origins_regular
    {config : Config}
    (hTrace :
      Machine.Trace step (Node.new config) past node)
    (hNetwork : ∀ taken ∈ past, Network taken.2) :
    (origins past).Regular := by
  constructor
  · intro block hReceived
    rcases hReceived with
      ⟨taken, hTaken, msg, hMsg, hBlock⟩
    have hHashed := hNetwork taken hTaken msg hMsg
    cases msg with
    | newBlock other batch =>
        rw [List.mem_singleton.mp hBlock]
        exact hHashed
    | response sender reqId other batch =>
        rw [List.mem_singleton.mp hBlock]
        exact hHashed
    | ucrVote v => exact absurd hBlock List.not_mem_nil
    | relay sender v => exact absurd hBlock List.not_mem_nil
    | request sender reqId hash =>
        exact absurd hBlock List.not_mem_nil
    | blame v => exact absurd hBlock List.not_mem_nil
    | invalid => exact absurd hBlock List.not_mem_nil
  · intro block hBuilt
    rcases hBuilt with
      ⟨taken, hTaken, batchHash, _, _, _, _, rfl⟩
    rcases hTrace.before_step hTaken with
      ⟨earlier, _, ⟨rest, hPast⟩, hEarlier, _⟩
    have hTip := (sourced_of_trace hEarlier).1.lastSeen
    rw [List.append_assoc] at hPast
    rw [← hPast]
    exact ⟨taken.1.cx.lastSeenBlock.blk, taken.1.cx.myid,
      batchHash, hTip.mono (origins_append _ _), rfl⟩

omit [Crypto H] in
/- The last seen block is a highest delivered one. -/
structure HighestSeen (cx : Context H) : Prop where
  delivered :
    cx.storage.isDeliveredByHash
      (BlockTrait.getHash cx.lastSeenBlock) = true
  highest :
    ∀ hash block,
      cx.storage.deliveredBlockFromHash hash = some block →
        block.blk.header.height ≤
          cx.lastSeenBlock.blk.header.height

omit [Crypto H] in
theorem HighestSeen.of_same
    (hSeen : HighestSeen cx)
    (hSame : SameHoldings cx cx') :
    HighestSeen cx' := by
  constructor
  · rw [hSame.isDelivered, hSame.lastSeenBlock]
    exact hSeen.delivered
  · intro hash block hLookup
    rw [hSame.delivered] at hLookup
    rw [hSame.lastSeenBlock]
    exact hSeen.highest hash block hLookup

omit [Crypto H] in
theorem HighestSeen.storeBlock
    (hSeen : HighestSeen cx)
    (block : Block H) :
    HighestSeen (storeBlock block cx) := by
  have hCases :
      ((Artemis.storeBlock block cx).lastSeenBlock = block ∧
          cx.lastSeenBlock.blk.header.height <
            block.blk.header.height) ∨
        ((Artemis.storeBlock block cx).lastSeenBlock =
            cx.lastSeenBlock ∧
          block.blk.header.height ≤
            cx.lastSeenBlock.blk.header.height) := by
    unfold Artemis.storeBlock
    dsimp only
    split
    · rename_i hHigher
      exact Or.inl ⟨rfl, hHigher⟩
    · rename_i hLower
      exact Or.inr ⟨rfl, Nat.not_lt.mp hLower⟩
  have hStored :
      ∀ hash stored,
        (Artemis.storeBlock block
            cx).storage.deliveredBlockFromHash hash =
            some stored →
          stored = block ∨
            stored.blk.header.height ≤
              cx.lastSeenBlock.blk.header.height := by
    apply Storage.forall_addDeliveredBlock
    · intro hash stored hLookup
      exact Or.inr (hSeen.highest hash stored hLookup)
    · exact Or.inl rfl
  rcases hCases with ⟨hLast, hHigher⟩ | ⟨hLast, hLower⟩
  · constructor
    · rw [hLast]
      exact isDelivered_storeBlock (Or.inl rfl)
    · intro hash stored hLookup
      rw [hLast]
      rcases hStored hash stored hLookup with rfl | hOld
      · exact Nat.le_refl _
      · exact Nat.le_of_lt (Nat.lt_of_le_of_lt hOld hHigher)
  · constructor
    · rw [hLast]
      exact isDelivered_storeBlock (Or.inr hSeen.delivered)
    · intro hash stored hLookup
      rw [hLast]
      rcases hStored hash stored hLookup with rfl | hOld
      · exact hLower
      · exact hOld

omit [Crypto H] in
theorem HighestSeen.releaseVote
    (hSeen : HighestSeen cx)
    (hash : H) :
    HighestSeen (releaseVote hash cx) := by
  unfold Artemis.releaseVote
  split
  · exact hSeen
  · exact { hSeen with }

omit [Crypto H] in
theorem HighestSeen.deliverChild
    (hSeen : HighestSeen cx)
    (hash child : H) :
    HighestSeen (deliverChild hash child cx) := by
  unfold Artemis.deliverChild
  dsimp only
  refine HighestSeen.releaseVote ?_ child
  split
  · exact { hSeen with }
  · refine HighestSeen.storeBlock ?_ _
    exact { hSeen with }

omit [Crypto H] in
theorem HighestSeen.doDelivery
    (hSeen : HighestSeen cx)
    (block : Block H) :
    HighestSeen (doDelivery block cx) := by
  apply doDelivery_rule
    (fun _ now => HighestSeen now) HighestSeen
  · refine HighestSeen.releaseVote ?_ _
    exact { hSeen.storeBlock block with }
  · intro hash child now hNow _
    exact hNow.deliverChild hash child
  · intro last now hNow _
    exact hNow
  · intro now hNow
    exact { hNow with }

theorem HighestSeen.holdings
    (hSeen : HighestSeen node.cx)
    (hHolding : HoldingStep node event cx') :
    HighestSeen cx' := by
  cases hHolding with
  | same hSame => exact hSeen.of_same hSame
  | @deliver block mid _ _ _ hEq hSame =>
      rw [hEq]
      exact (hSeen.of_same hSame).doDelivery block
  | park _ _ hSame =>
      refine HighestSeen.of_same ?_ hSame
      exact { hSeen with }
  | keep _ hSame =>
      refine HighestSeen.of_same ?_ hSame
      exact { hSeen with }
  | await _ hSame =>
      refine HighestSeen.of_same ?_ hSame
      exact { hSeen with }
  | take hSame =>
      refine HighestSeen.of_same ?_ hSame
      exact { hSeen with }

theorem Reach.highestSeen
    {config : Config}
    {guard : Node H → Event H → Prop}
    (hReach :
      Machine.Reach step guard (Node.new config) node) :
    HighestSeen node.cx := by
  apply hReach.invariant (fun node => HighestSeen node.cx)
  · constructor
    · rw [Storage.isDeliveredByHash_iff]
      exact ⟨_, Storage.addDeliveredBlock_self _ _⟩
    · intro hash block hLookup
      have hGenesis : block = Block.genesis :=
        Storage.eq_of_delivered_new hLookup
      rw [hGenesis]
      exact Nat.le_refl _
  · intro node node' event hSeen _ hStep
    exact hSeen.holdings (step_transition hStep).holdings

end Artemis

end LibApollo

------------------------------------------------------------
-- Heights of Delivered Blocks
------------------------------------------------------------

namespace LibApollo

variable {H : Type} [DecidableEq H] [Crypto H]

/-
  A delivered block is one higher than its delivered parent
  if the node has built it, or if the blocks it received
  are.  What an Artemis node has seen last is a delivered
  block of the greatest height.
-/
theorem heights_follow_received
    (hFree : CollisionFree H) :
    (∀ config past (node : Apollo.Node H),
      Machine.Trace Apollo.step (Apollo.Node.new config)
          past node →
        (∀ taken ∈ past, Apollo.Network taken.2) →
        ∀ hash block parent,
          node.cx.storage.deliveredBlockFromHash hash =
              some block →
            node.cx.storage.deliveredBlockFromHash
                block.header.prev = some parent →
            block ≠ Block.genesis →
            (Apollo.origins past).HeightsFollow ∨
              (Apollo.origins past).built block →
            block.header.height =
              succU64 parent.header.height) ∧
      (∀ config past (node : Artemis.Node H),
        Machine.Trace Artemis.step (Artemis.Node.new config)
            past node →
          (∀ taken ∈ past, Artemis.Network taken.2) →
          ∀ hash block parent,
            node.cx.storage.deliveredBlockFromHash hash =
                some block →
              node.cx.storage.deliveredBlockFromHash
                  block.blk.header.prev = some parent →
              block.blk ≠ Block.genesis →
              (Artemis.origins past).HeightsFollow ∨
                (Artemis.origins past).built block.blk →
              block.blk.header.height =
                succU64 parent.blk.header.height) ∧
      ∀ config (node : Artemis.Node H),
        Machine.Reach Artemis.step (fun _ _ => True)
            (Artemis.Node.new config) node →
          Artemis.HighestSeen node.cx := by
  refine ⟨?_, ?_, ?_⟩
  · intro config past node hTrace hNetwork hash block parent
      hBlock hParent hOther hCases
    have hRegular :=
      Apollo.origins_regular hTrace hNetwork
    have hSourced := Apollo.sourced_of_trace hTrace
    have hKnown := hSourced.delivered hash block hBlock
    have hAbove := hSourced.delivered _ parent hParent
    have hPrev : block.header.prev = parent.hash :=
      (Storage.getHash_of_delivered hParent).symm
    rcases hCases with hFollow | hBuilt
    · exact Origins.height_eq hFree hRegular hFollow hKnown
        hOther hAbove hPrev
    · exact Origins.built_height hFree hRegular hBuilt
        hAbove hPrev
  · intro config past node hTrace hNetwork hash block parent
      hBlock hParent hOther hCases
    have hRegular :=
      Artemis.origins_regular hTrace hNetwork
    have hSourced := (Artemis.sourced_of_trace hTrace).1
    have hKnown := hSourced.delivered hash block hBlock
    have hAbove := hSourced.delivered _ parent hParent
    have hPrev : block.blk.header.prev = parent.blk.hash :=
      (Storage.getHash_of_delivered hParent).symm
    rcases hCases with hFollow | hBuilt
    · exact Origins.height_eq hFree hRegular hFollow hKnown
        hOther hAbove hPrev
    · exact Origins.built_height hFree hRegular hBuilt
        hAbove hPrev
  · intro config node hReach
    exact Artemis.Reach.highestSeen hReach

/- Nothing waits to be proposed, and blocks are hashed. -/
def Apollo.idleCheck
    (node : Apollo.Node Digest)
    (event : Apollo.Event Digest) : Bool :=
  node.cx.pendingBatches.isEmpty &&
    Apollo.decodedCheck event

/- A second block, by the next leader on the first one. -/
def Apollo.aboveFirst : Block Digest :=
  Digest.blockOn Apollo.firstBlock 1 2

/- The blocks of the first two rounds, and their handling. -/
def Apollo.twoProposals : List (Apollo.Event Digest) :=
  [Apollo.proposed 0 1 Apollo.firstBlock,
    Apollo.proposed 1 2 Apollo.aboveFirst, .internal,
    .internal, .internal, .internal]

theorem Apollo.twoProposals_received
    {past : List (Apollo.Node Digest × Apollo.Event Digest)}
    {block : Block Digest}
    (hEvents : past.map Prod.snd = Apollo.twoProposals)
    (hReceived : (Apollo.origins past).received block) :
    block = Apollo.firstBlock ∨
      block = Apollo.aboveFirst := by
  rcases hReceived with ⟨taken, hTaken, msg, hMsg, hBlock⟩
  have hMem :
      Apollo.Event.recv msg ∈ past.map Prod.snd :=
    List.mem_map.mpr ⟨taken, hTaken, hMsg⟩
  rw [hEvents] at hMem
  simp only [Apollo.twoProposals, Apollo.proposed,
    List.mem_cons, Apollo.Event.recv.injEq, reduceCtorEq,
    List.not_mem_nil, or_false] at hMem
  rcases hMem with hMem | hMem
  · rw [hMem] at hBlock
    exact Or.inl (List.mem_singleton.mp hBlock)
  · rw [hMem] at hBlock
    exact Or.inr (List.mem_singleton.mp hBlock)

/- A node with nothing to propose builds no block. -/
theorem Apollo.twoProposals_follow
    {past : List (Apollo.Node Digest × Apollo.Event Digest)}
    (hEvents : past.map Prod.snd = Apollo.twoProposals)
    (hIdle :
      ∀ taken ∈ past,
        taken.1.cx.pendingBatches.isEmpty = true) :
    (Apollo.origins past).HeightsFollow := by
  intro block parent hReceived hKnown hPrev
  cases hKnown with
  | genesis =>
      rcases Apollo.twoProposals_received hEvents hReceived
        with rfl | rfl
      · decide
      · exact absurd hPrev (by decide +kernel)
  | received hParent =>
      rcases Apollo.twoProposals_received hEvents hReceived
        with rfl | rfl
      · rcases Apollo.twoProposals_received hEvents hParent
          with rfl | rfl
        · exact absurd hPrev (by decide +kernel)
        · exact absurd hPrev (by decide +kernel)
      · rcases Apollo.twoProposals_received hEvents hParent
          with rfl | rfl
        · decide
        · exact absurd hPrev (by decide +kernel)
  | built hBuilt =>
      rcases hBuilt with
        ⟨taken, hTaken, _, _, _, hProposes, _⟩
      have hPending := hIdle taken hTaken
      rw [hProposes.2.2.2.2] at hPending
      cases hPending

/- Two blocks come, the second one higher than the first. -/
theorem heights_follow_second_block :
    ∃ past, ∃ node : Apollo.Node Digest,
      Machine.Trace Apollo.step
          (Apollo.Node.new (Apollo.smallConfig 2)) past
          node ∧
        (Apollo.origins past).HeightsFollow ∧
        node.cx.storage.deliveredBlockFromHash
            Apollo.aboveFirst.hash =
          some Apollo.aboveFirst ∧
        Apollo.aboveFirst.header.height =
          succU64 Apollo.firstBlock.header.height := by
  have hRun :
      Machine.runCheck Apollo.step Apollo.idleCheck
        (fun node =>
          decide
            (node.cx.storage.deliveredBlockFromHash
                Apollo.aboveFirst.hash =
              some Apollo.aboveFirst ∧
            node.cx.storage.deliveredBlockFromHash
                Apollo.aboveFirst.header.prev =
              some Apollo.firstBlock))
        (Apollo.Node.new (Apollo.smallConfig 2))
        Apollo.twoProposals = true := by
    decide +kernel
  rcases Machine.Trace.of_runCheck .start hRun with
    ⟨past, node, hTrace, hEvents, _, hChecks, hFinal⟩
  rw [List.nil_append] at hTrace
  rcases of_decide_eq_true hFinal with ⟨hSecond, hFirst⟩
  have hBoth :
      ∀ taken ∈ past,
        taken.1.cx.pendingBatches.isEmpty = true ∧
          Apollo.decodedCheck taken.2 = true := by
    intro taken hTaken
    exact Bool.and_eq_true_iff.mp (hChecks taken hTaken)
  have hFollow : (Apollo.origins past).HeightsFollow :=
    Apollo.twoProposals_follow hEvents
      (fun taken hTaken => (hBoth taken hTaken).1)
  refine ⟨past, node, hTrace, hFollow, hSecond, ?_⟩
  refine (heights_follow_received Digest.collisionFree).1
    _ past node hTrace ?_ _ _ _ hSecond hFirst ?_
    (Or.inl hFollow)
  · intro taken hTaken
    exact Apollo.network_of_decodedCheck
      (hBoth taken hTaken).2
  · decide +kernel

/-
  A block on genesis at height 7 is delivered in both
  protocols, and Artemis builds on it.
-/
theorem height_unchecked :
    (∃ node : Apollo.Node Digest,
      Machine.Reach Apollo.step
          (fun _ event => Apollo.Decoded event)
          (Apollo.Node.new (Apollo.smallConfig 1)) node ∧
        node.cx.storage.deliveredBlockFromHash
            (Digest.blockOn Block.genesis 0 7).hash =
          some (Digest.blockOn Block.genesis 0 7) ∧
        node.cx.storage.deliveredBlockFromHash
            (Digest.blockOn Block.genesis 0 7).header.prev =
          some Block.genesis ∧
        (Digest.blockOn Block.genesis 0 7).header.height ≠
          (Block.genesis (H := Digest)).header.height +
            1) ∧
      ∃ node : Artemis.Node Digest,
        Machine.Reach Artemis.step
            (fun _ event => Artemis.Decoded event)
            (Artemis.Node.new (Artemis.smallConfig 1))
            node ∧
          node.cx.storage.deliveredBlockFromHash
              (Artemis.leaderBlock Block.genesis
                7).blk.hash =
            some (Artemis.leaderBlock Block.genesis 7) ∧
          node.cx.storage.deliveredBlockFromHash
              (Artemis.leaderBlock Block.genesis
                7).blk.header.prev =
            some Artemis.Block.genesis ∧
          (Artemis.leaderBlock Block.genesis
              7).blk.header.height ≠
            (Block.genesis (H := Digest)).header.height +
              1 ∧
          node.cx.lastSeenBlock =
            Artemis.leaderBlock Block.genesis 7 := by
  constructor
  · have hRun :
        Machine.runCheck Apollo.step
          (fun _ event => Apollo.decodedCheck event)
          (fun node =>
            decide
              (node.cx.storage.deliveredBlockFromHash
                  (Digest.blockOn Block.genesis 0 7).hash =
                some (Digest.blockOn Block.genesis 0 7) ∧
              node.cx.storage.deliveredBlockFromHash
                  (Digest.blockOn Block.genesis 0
                    7).header.prev =
                some Block.genesis))
          (Apollo.Node.new (Apollo.smallConfig 1))
          [Apollo.proposed 0 1
            (Digest.blockOn Block.genesis 0 7), .internal,
            .internal] = true := by
      decide +kernel
    rcases Machine.Reach.of_runCheck
        (fun _ _ hCheck =>
          Apollo.decoded_of_decodedCheck hCheck)
        hRun with ⟨node, hReach, hFinal⟩
    rcases of_decide_eq_true hFinal with
      ⟨hBlock, hParent⟩
    exact ⟨node, hReach, hBlock, hParent, by decide⟩
  · have hRun :
        Machine.runCheck Artemis.step
          (fun _ event => Artemis.decodedCheck event)
          (fun node =>
            decide
              (node.cx.storage.deliveredBlockFromHash
                  (Artemis.leaderBlock Block.genesis
                    7).blk.hash =
                some
                  (Artemis.leaderBlock Block.genesis 7) ∧
              node.cx.storage.deliveredBlockFromHash
                  (Artemis.leaderBlock Block.genesis
                    7).blk.header.prev =
                some Artemis.Block.genesis ∧
              node.cx.lastSeenBlock =
                Artemis.leaderBlock Block.genesis 7))
          (Artemis.Node.new (Artemis.smallConfig 1))
          [.recv (.newBlock
            (Artemis.leaderBlock Block.genesis 7) oneBatch),
            .internal, .internal] = true := by
      decide +kernel
    rcases Machine.Reach.of_runCheck
        (fun _ _ hCheck =>
          Artemis.decoded_of_decodedCheck hCheck)
        hRun with ⟨node, hReach, hFinal⟩
    rcases of_decide_eq_true hFinal with
      ⟨hBlock, hParent, hLast⟩
    exact ⟨node, hReach, hBlock, hParent, by decide, hLast⟩

end LibApollo
