import LibApollo.Artemis.VoteSafety

/-
  Who has signed the blocks an Artemis node delivers.

  A block reaches the storage of a node in three ways.  The
  one that comes from the view leader directly is checked,
  but not at the view leader itself.  A block that answers a
  request is delivered, or parked until its parent is, with
  no check of its author or its signature.

  Key definitions include:
    * `LeaderSigned`
    * `uncheckedBlock`
    * `SignedBlocks`

  Key theorems include:
    * `step_blocks`
    * `SignedBlocks.step`
    * `delivered_blocks_signed`
    * `unsigned_block_delivered`
-/

------------------------------------------------------------
-- Blocks of the View Leader
------------------------------------------------------------

namespace LibApollo

namespace Artemis

variable {H : Type} [DecidableEq H] [Crypto H]

/- The block names the leader and carries its signature. -/
def LeaderSigned
    (config : Config)
    (leader : Replica)
    (block : Block H) : Prop :=
  block.blk.header.author = leader ∧
    block.sig.origin = leader ∧
    ∃ publicKey,
      config.pkMap.lookup leader = some publicKey ∧
        block.checkSig publicKey = true

/-
  The block that the next internal step delivers or parks
  without looking at its signature, read off the queues
  before the step.
-/
def uncheckedBlock
    (node : Node H) : Option (Block H) :=
  let cx := node.cx
  match node.phase with
  | .blocks =>
      match cx.blockProcessingWaiting with
      | [] => none
      | (block, batch) :: _ =>
          if checkBatchHash block batch ∧
              !cx.storage.isDeliveredByHash
                (BlockTrait.getHash block) ∧
              cx.storage.isDeliveredByHash
                (BlockTrait.getPrev block) ∧
              cx.viewLeader = block.blk.header.author ∧
              cx.viewLeader = block.sig.origin ∧
              cx.viewLeader = cx.myid then
            some block
          else
            none
  | .responses =>
      match cx.responseWaiting with
      | [] => none
      | (_, block, batch) :: _ =>
          if checkBatchHash block batch ∧
              !cx.storage.isDeliveredByHash
                (BlockTrait.getHash block) ∧
              (cx.blockParentWaiting.lookup
                (BlockTrait.getPrev block)).isNone then
            some block
          else
            none
  | _ => none

/- Unchecked blocks come from the view leader all the same. -/
def SignedStep
    (config : Config)
    (node : Node H)
    (event : Event H) : Prop :=
  event = .internal →
    ∀ block, uncheckedBlock node = some block →
      LeaderSigned config node.cx.viewLeader block

/- What the node signs verifies under its public key. -/
def OwnKey (H : Type) [Crypto H] (config : Config) : Prop :=
  ∃ publicKey,
    config.pkMap.lookup config.id = some publicKey ∧
      ∀ data : SignData H,
        Crypto.verify publicKey data
          (Crypto.sign config.secretKeyBytes data) = true

/- The blocks of a context and who may add to them. -/
structure SameBlocks (cx cx' : Context H) : Prop where
  myid : cx'.myid = cx.myid
  viewLeader : cx'.viewLeader = cx.viewLeader
  pubKeyMap : cx'.pubKeyMap = cx.pubKeyMap
  mySecretKey : cx'.mySecretKey = cx.mySecretKey
  undelivered : cx'.undeliveredBlocks = cx.undeliveredBlocks
  delivered :
    ∀ hash,
      cx'.storage.deliveredBlockFromHash hash =
        cx.storage.deliveredBlockFromHash hash

namespace SameBlocks

variable {cx mid cx' : Context H}

omit [Crypto H]

theorem refl (cx : Context H) : SameBlocks cx cx :=
  ⟨rfl, rfl, rfl, rfl, rfl, fun _ => rfl⟩

theorem trans
    (hFirst : SameBlocks cx mid)
    (hSecond : SameBlocks mid cx') :
    SameBlocks cx cx' where
  myid := hSecond.myid.trans hFirst.myid
  viewLeader := hSecond.viewLeader.trans hFirst.viewLeader
  pubKeyMap := hSecond.pubKeyMap.trans hFirst.pubKeyMap
  mySecretKey :=
    hSecond.mySecretKey.trans hFirst.mySecretKey
  undelivered :=
    hSecond.undelivered.trans hFirst.undelivered
  delivered := fun hash =>
    (hSecond.delivered hash).trans (hFirst.delivered hash)

theorem send
    (cx : Context H)
    (dest : Replica)
    (msg : ProtocolMsg H) :
    SameBlocks cx (cx.send dest msg) := by
  unfold Context.send
  split
  · exact refl cx
  · exact ⟨rfl, rfl, rfl, rfl, rfl, fun _ => rfl⟩

theorem bufferMessage
    (msg : ProtocolMsg H)
    (cx : Context H) :
    SameBlocks cx (bufferMessage msg cx) := by
  cases msg <;>
    exact ⟨rfl, rfl, rfl, rfl, rfl, fun _ => rfl⟩

variable [Crypto H]

theorem accepted
    {v : UCRVote H}
    (hAccepted : Accepted v cx cx') :
    SameBlocks cx cx' := by
  rcases hAccepted with
    ⟨_, _, _, _, _, _, _, hOutcome, _, _, rfl⟩
  exact ⟨rfl, rfl, rfl, rfl, rfl, hOutcome.delivered_eq⟩

theorem onReceiveRoundVote
    {v : UCRVote H}
    (hOk : onReceiveRoundVote v cx = .ok cx') :
    SameBlocks cx cx' := by
  unfold Artemis.onReceiveRoundVote at hOk
  split at hOk
  · cases hOk
    exact refl _
  split at hOk
  · exact accepted (acceptVote_ok hOk)
  split at hOk
  · cases hOk
  split at hOk
  · exact accepted (acceptVote_ok hOk)
  · cases hOk
    exact refl _

omit [Crypto H] in
theorem awaitBlock
    (sender : Replica)
    (v : UCRVote H)
    (cx : Context H) :
    SameBlocks cx (awaitBlock sender v cx) :=
  (send cx sender _).trans
    ⟨rfl, rfl, rfl, rfl, rfl, fun _ => rfl⟩

theorem tryReceiveRoundVote
    {sender : Replica}
    {v : UCRVote H}
    (hOk : tryReceiveRoundVote sender v cx = .ok cx') :
    SameBlocks cx cx' := by
  unfold Artemis.tryReceiveRoundVote at hOk
  split at hOk
  · cases hOk
    exact refl _
  split at hOk
  · split at hOk
    · cases hOk
      exact ⟨rfl, rfl, rfl, rfl, rfl, fun _ => rfl⟩
    · cases hOk
      exact awaitBlock sender v cx
  split at hOk
  · cases hOk
    exact awaitBlock sender v cx
  · exact onReceiveRoundVote hOk

omit [Crypto H] in
theorem handleRequest
    {sender : Replica}
    {reqId : Nat}
    {hash : H}
    (hOk : handleRequest sender reqId hash cx = .ok cx') :
    SameBlocks cx cx' := by
  unfold Artemis.handleRequest at hOk
  split at hOk
  · cases hOk
    exact refl _
  rcases Result.bind_eq_ok.mp hOk with ⟨block, _, hRead⟩
  rcases readBatch_channels cx block.blk.body.batchHash with
    ⟨_, _, _, _, hEq⟩
  cases hFound : cx.readBatch block.blk.body.batchHash with
  | mk batch read =>
      rw [hFound] at hRead hEq
      have hSame : SameBlocks cx read := by
        dsimp only at hEq
        rw [hEq]
        exact ⟨rfl, rfl, rfl, rfl, rfl, fun _ => rfl⟩
      cases batch with
      | none =>
          cases hRead
          exact hSame
      | some batch =>
          cases hRead
          exact hSame.trans (send _ _ _)

theorem handleOther
    {msg : ProtocolMsg H}
    (hOk : handleOther msg cx = .ok cx') :
    SameBlocks cx cx' := by
  cases msg with
  | ucrVote v => exact tryReceiveRoundVote hOk
  | relay sender v => exact tryReceiveRoundVote hOk
  | request sender reqId hash => exact handleRequest hOk
  | newBlock block batch => cases hOk
  | response sender reqId block batch => cases hOk
  | blame v => cases hOk
  | invalid => cases hOk

theorem readyLoop
    {phase next : Phase}
    {node' : Node H}
    (hOk : readyLoop phase next cx = .ok node') :
    SameBlocks cx node'.cx := by
  unfold Artemis.readyLoop at hOk
  split at hOk
  · cases hOk
    exact refl _
  · rcases Result.map_eq_ok.mp hOk with ⟨_, hVote, rfl⟩
    have hTaken :
        SameBlocks cx
          { cx with
            voteReady := cx.voteReady.erase cx.round } :=
      ⟨rfl, rfl, rfl, rfl, rfl, fun _ => rfl⟩
    exact hTaken.trans (onReceiveRoundVote hVote)

theorem tryRoundVote
    (hOk : tryRoundVote cx = .ok cx') :
    SameBlocks cx cx' := by
  unfold Artemis.tryRoundVote at hOk
  split at hOk
  · cases hOk
    exact refl _
  split at hOk
  · cases hOk
    exact refl _
  · have hSigned :
        SameBlocks cx
          (({ cx with
              signed := cx.signed ++
                [SignData.hash (newVote cx).digest] } :
            Context H).multicast
              (.ucrVote (newVote cx))) :=
      ⟨rfl, rfl, rfl, rfl, rfl, fun _ => rfl⟩
    exact hSigned.trans (onReceiveRoundVote hOk)

end SameBlocks

end Artemis

end LibApollo

------------------------------------------------------------
-- How a Step Adds Blocks
------------------------------------------------------------

namespace LibApollo

namespace Artemis

variable {H : Type} [DecidableEq H] [Crypto H]

/- A block of another view leader that passes the checks. -/
def CheckedBlock
    (cx : Context H)
    (block : Block H) : Prop :=
  cx.viewLeader = block.blk.header.author ∧
    cx.viewLeader = block.sig.origin ∧
    cx.viewLeader ≠ cx.myid ∧
    ∃ publicKey,
      cx.pubKeyMap.lookup cx.viewLeader =
          some publicKey ∧
        block.checkSig publicKey = true

/- The three ways in which a block can get in. -/
def Admits
    (node : Node H)
    (block : Block H) : Prop :=
  uncheckedBlock node = some block ∨
    CheckedBlock node.cx block ∨
    (node.cx.viewLeader = node.cx.myid ∧
      ∃ cx batchHash,
        SameBlocks node.cx cx ∧
          block = newBlock cx batchHash)

/- The block is delivered, or parked under its hash. -/
def Adds
    (block : Block H)
    (cx cx' : Context H) : Prop :=
  cx' = doDelivery block cx ∨
    SameBlocks
      { cx with
        undeliveredBlocks :=
          cx.undeliveredBlocks.insert
            (BlockTrait.getHash block) block }
      cx'

/- What the view leader's block does when it arrives. -/
theorem onReceiveNewBlockDirect_adds
    {block : Block H}
    {cx cx' : Context H}
    (hOk : onReceiveNewBlockDirect block cx = .ok cx') :
    cx' = cx ∨
      (cx.storage.isDeliveredByHash
            (BlockTrait.getHash block) = false ∧
        cx.storage.isDeliveredByHash
            (BlockTrait.getPrev block) = true ∧
        cx.viewLeader = block.blk.header.author ∧
        cx.viewLeader = block.sig.origin ∧
        (cx.viewLeader = cx.myid ∨ CheckedBlock cx block) ∧
        cx' = doDelivery block cx) := by
  unfold onReceiveNewBlockDirect at hOk
  split at hOk
  · cases hOk
    exact Or.inl rfl
  rename_i hNew
  split at hOk
  · cases hOk
    exact Or.inl rfl
  rename_i hPrev
  split at hOk
  · cases hOk
    exact Or.inl rfl
  rename_i hNames
  rw [not_or, not_not, not_not] at hNames
  have hNew' := Bool.eq_false_iff.mpr hNew
  have hPrev' :
      cx.storage.isDeliveredByHash
        (BlockTrait.getPrev block) = true := by
    simpa using hPrev
  split at hOk
  · rename_i hSelf
    cases hOk
    exact Or.inr ⟨hNew', hPrev', hNames.1, hNames.2,
      Or.inl hSelf, rfl⟩
  rename_i hOther
  split at hOk
  · cases hOk
  rename_i publicKey hKey
  split at hOk
  · rename_i hVerify
    cases hOk
    exact Or.inr ⟨hNew', hPrev', hNames.1, hNames.2,
      Or.inr ⟨hNames.1, hNames.2, hOther, publicKey, hKey,
        hVerify⟩, rfl⟩
  · cases hOk
    exact Or.inl rfl

omit [Crypto H] in
/- What a response does when it arrives. -/
theorem updateDelivery_adds
    (block : Block H)
    (sender : Replica)
    (cx : Context H) :
    updateDelivery block sender cx = cx ∨
      (cx.storage.isDeliveredByHash
            (BlockTrait.getHash block) = false ∧
        cx.blockParentWaiting.lookup
            (BlockTrait.getPrev block) = none ∧
        Adds block cx (updateDelivery block sender cx)) := by
  unfold updateDelivery
  dsimp only
  split
  · exact Or.inl rfl
  rename_i hNew
  split
  · exact Or.inl rfl
  rename_i hFree
  rw [Bool.not_eq_true, Option.isSome_eq_false_iff,
    Option.isNone_iff_eq_none] at hFree
  refine Or.inr ⟨Bool.eq_false_iff.mpr hNew, hFree, ?_⟩
  split
  · right
    have hParked :
        SameBlocks
          { cx with
            undeliveredBlocks :=
              cx.undeliveredBlocks.insert
                (BlockTrait.getHash block) block }
          { cx with
            blockParentWaiting :=
              cx.blockParentWaiting.insert
                (BlockTrait.getPrev block)
                (BlockTrait.getHash block)
            undeliveredBlocks :=
              cx.undeliveredBlocks.insert
                (BlockTrait.getHash block) block } :=
      ⟨rfl, rfl, rfl, rfl, rfl, fun _ => rfl⟩
    exact hParked.trans (SameBlocks.send _ _ _)
  · exact Or.inl rfl

/- What a step can do to the blocks of a node. -/
def BlockStep
    (node node' : Node H) : Prop :=
  SameBlocks node.cx node'.cx ∨
    ∃ mid block,
      SameBlocks node.cx mid ∧
        Admits node block ∧
        Adds block mid node'.cx

/- The head of the queue of the view leader's blocks. -/
theorem processBlock_blocks
    {node node' : Node H}
    {block : Block H}
    {batch : Batch}
    {rest : List (Block H × Batch)}
    (hPhase : node.phase = .blocks)
    (hQueue :
      node.cx.blockProcessingWaiting =
        (block, batch) :: rest)
    (hOk :
      processBlock block batch
          { node.cx with blockProcessingWaiting := rest } =
        .ok node'.cx) :
    BlockStep node node' := by
  unfold processBlock at hOk
  split at hOk
  · rename_i hBatch
    rcases onReceiveNewBlockDirect_adds hOk with
      hSame | ⟨hNew, hPrev, hAuthor, hOrigin, hWho, hAdds⟩
    · left
      rw [hSame]
      exact ⟨rfl, rfl, rfl, rfl, rfl, fun _ => rfl⟩
    · right
      refine ⟨_, block, ?_, ?_, Or.inl hAdds⟩
      · exact ⟨rfl, rfl, rfl, rfl, rfl, fun _ => rfl⟩
      · rcases hWho with hSelf | hChecked
        · left
          simp only [uncheckedBlock, hPhase, hQueue]
          rw [if_pos ⟨hBatch, congrArg not hNew, hPrev,
            hAuthor, hOrigin, hSelf⟩]
        · exact Or.inr (Or.inl hChecked)
  · left
    rw [← Except.ok.inj hOk]
    exact ⟨rfl, rfl, rfl, rfl, rfl, fun _ => rfl⟩

/- The head of the queue of responses. -/
theorem processResponse_blocks
    {node node' : Node H}
    {sender : Replica}
    {block : Block H}
    {batch : Batch}
    {rest : List (Replica × Block H × Batch)}
    (hPhase : node.phase = .responses)
    (hQueue :
      node.cx.responseWaiting =
        (sender, block, batch) :: rest)
    (hEq :
      node'.cx =
        processResponse sender block batch
          { node.cx with responseWaiting := rest }) :
    BlockStep node node' := by
  have hPersisted :
      SameBlocks node.cx
        (({ node.cx with responseWaiting := rest } :
          Context H).persistBatch block.blk.body.batchHash
            batch) :=
    ⟨rfl, rfl, rfl, rfl, rfl, fun _ => rfl⟩
  unfold processResponse at hEq
  split at hEq
  · rename_i hBatch
    rcases updateDelivery_adds block sender
        (({ node.cx with responseWaiting := rest } :
          Context H).persistBatch block.blk.body.batchHash
            batch) with
      hSame | ⟨hNew, hFree, hAdds⟩
    · left
      rw [hEq, hSame]
      exact hPersisted
    · right
      refine ⟨_, block, hPersisted, Or.inl ?_, ?_⟩
      · simp only [uncheckedBlock, hPhase, hQueue]
        rw [if_pos ⟨hBatch, congrArg not hNew,
          Option.isNone_iff_eq_none.mpr hFree⟩]
      · rw [hEq]
        exact hAdds
  · left
    rw [hEq]
    exact ⟨rfl, rfl, rfl, rfl, rfl, fun _ => rfl⟩

theorem processMessage_blocks
    {node node' : Node H}
    (hOk : processMessage node = .ok node') :
    BlockStep node node' := by
  unfold processMessage at hOk
  dsimp only at hOk
  cases hPhase : node.phase with
  | blocks =>
      simp only [hPhase] at hOk
      cases hQueue : node.cx.blockProcessingWaiting with
      | nil =>
          simp only [hQueue] at hOk
          cases hOk
          exact Or.inl (SameBlocks.refl _)
      | cons entry rest =>
          simp only [hQueue] at hOk
          rcases Result.map_eq_ok.mp hOk with
            ⟨cx', hBlock, rfl⟩
          exact processBlock_blocks hPhase hQueue hBlock
  | responses =>
      simp only [hPhase] at hOk
      cases hQueue : node.cx.responseWaiting with
      | nil =>
          simp only [hQueue] at hOk
          cases hOk
          exact Or.inl (SameBlocks.refl _)
      | cons entry rest =>
          simp only [hQueue] at hOk
          cases hOk
          exact processResponse_blocks hPhase hQueue rfl
  | ready =>
      simp only [hPhase] at hOk
      exact Or.inl (SameBlocks.readyLoop hOk)
  | others =>
      simp only [hPhase] at hOk
      left
      cases hQueue : node.cx.otherBuf with
      | nil =>
          simp only [hQueue] at hOk
          cases hOk
          exact SameBlocks.refl _
      | cons msg rest =>
          simp only [hQueue] at hOk
          rcases Result.map_eq_ok.mp hOk with
            ⟨cx', hOther, rfl⟩
          have hTaken :
              SameBlocks node.cx
                { node.cx with otherBuf := rest } :=
            ⟨rfl, rfl, rfl, rfl, rfl, fun _ => rfl⟩
          exact hTaken.trans (SameBlocks.handleOther hOther)
  | readyAgain =>
      simp only [hPhase] at hOk
      exact Or.inl (SameBlocks.readyLoop hOk)
  | select =>
      simp only [hPhase] at hOk
      cases hOk
      exact Or.inl (SameBlocks.refl _)
  | drain =>
      simp only [hPhase] at hOk
      cases hOk
      exact Or.inl (SameBlocks.refl _)
  | propose =>
      simp only [hPhase] at hOk
      cases hOk
      exact Or.inl (SameBlocks.refl _)
  | vote =>
      simp only [hPhase] at hOk
      cases hOk
      exact Or.inl (SameBlocks.refl _)

theorem proposeLoop_blocks
    {node node' : Node H}
    (hOk : proposeLoop node = .ok node') :
    BlockStep node node' := by
  unfold proposeLoop at hOk
  dsimp only at hOk
  split at hOk
  · cases hOk
    exact Or.inl (SameBlocks.refl _)
  rename_i batchHash batch rest hPending
  split at hOk
  · rename_i hLeader
    rcases Result.map_eq_ok.mp hOk with ⟨cx', hNew, rfl⟩
    let before : Context H :=
      { node.cx with pendingBatches := rest }
    have hBefore : SameBlocks node.cx before :=
      ⟨rfl, rfl, rfl, rfl, rfl, fun _ => rfl⟩
    have hSent :
        SameBlocks node.cx
          (dispatching batchHash batch before) :=
      ⟨rfl, rfl, rfl, rfl, rfl, fun _ => rfl⟩
    have hNamed : before.viewLeader = before.myid := hLeader
    rcases doNewBlock_ok batchHash batch hNamed with
      ⟨cx'', hOk', hDispatched⟩
    have hEq : cx'' = cx' := by
      rw [hNew] at hOk'
      exact (Except.ok.inj hOk').symm
    rw [hEq] at hDispatched
    rcases hDispatched with ⟨hSame, _⟩ | ⟨_, hDelivers⟩
    · left
      dsimp only
      rw [hSame]
      exact hSent
    · exact Or.inr
        ⟨_, _, hSent,
          Or.inr (Or.inr
            ⟨hLeader, before, batchHash, hBefore, rfl⟩),
          Or.inl hDelivers⟩
  · cases hOk
    exact Or.inl (SameBlocks.refl _)

/-
  A step leaves the blocks of a node alone, or it is
  internal and adds one that gets in in one of three ways.
-/
theorem step_blocks
    {node node' : Node H}
    {event : Event H}
    (hStep : step node event = .ok node') :
    SameBlocks node.cx node'.cx ∨
      (event = .internal ∧ BlockStep node node') := by
  cases event with
  | tick =>
      left
      unfold step at hStep
      dsimp only at hStep
      split at hStep
      · cases hStep
        dsimp only
        split
        · exact ⟨rfl, rfl, rfl, rfl, rfl, fun _ => rfl⟩
        · exact SameBlocks.refl _
      · cases hStep
        exact SameBlocks.refl _
  | recv msg =>
      left
      unfold step at hStep
      dsimp only at hStep
      split at hStep
      · cases hStep
        exact SameBlocks.bufferMessage msg node.cx
      · cases hStep
        exact SameBlocks.refl _
  | sealed batch =>
      left
      cases hStep
      exact ⟨rfl, rfl, rfl, rfl, rfl, fun _ => rfl⟩
  | batch batchHash batch =>
      left
      unfold step at hStep
      dsimp only at hStep
      split at hStep
      · cases hStep
        exact ⟨rfl, rfl, rfl, rfl, rfl, fun _ => rfl⟩
      · cases hStep
        exact SameBlocks.refl _
  | internal =>
      refine Or.inr ⟨rfl, ?_⟩
      change internalStep node = .ok node' at hStep
      unfold internalStep at hStep
      cases hPhase : node.phase with
      | select =>
          simp only [hPhase] at hStep
          cases hStep
          exact Or.inl (SameBlocks.refl _)
      | drain =>
          simp only [hPhase] at hStep
          cases hStep
          exact Or.inl (SameBlocks.refl _)
      | propose =>
          simp only [hPhase] at hStep
          exact proposeLoop_blocks hStep
      | vote =>
          simp only [hPhase] at hStep
          rcases Result.map_eq_ok.mp hStep with
            ⟨cx', hVote, rfl⟩
          exact Or.inl (SameBlocks.tryRoundVote hVote)
      | blocks =>
          simp only [hPhase] at hStep
          exact processMessage_blocks hStep
      | responses =>
          simp only [hPhase] at hStep
          exact processMessage_blocks hStep
      | ready =>
          simp only [hPhase] at hStep
          exact processMessage_blocks hStep
      | others =>
          simp only [hPhase] at hStep
          exact processMessage_blocks hStep
      | readyAgain =>
          simp only [hPhase] at hStep
          exact processMessage_blocks hStep

end Artemis

end LibApollo

------------------------------------------------------------
-- Delivered Blocks
------------------------------------------------------------

namespace LibApollo

namespace Artemis

variable {H : Type} [DecidableEq H] [Crypto H]
variable {config : Config}
variable {cx cx' : Context H}

/- Held blocks come from the view leader. -/
structure SignedBlocks
    (config : Config)
    (cx : Context H) : Prop where
  myid : cx.myid = config.id
  pubKeyMap : cx.pubKeyMap = config.pkMap.erase config.id
  mySecretKey : cx.mySecretKey = config.secretKeyBytes
  undelivered :
    ∀ hash block,
      cx.undeliveredBlocks.lookup hash = some block →
        LeaderSigned config cx.viewLeader block
  delivered :
    ∀ hash block,
      cx.storage.deliveredBlockFromHash hash =
          some block →
        block = Block.genesis ∨
          LeaderSigned config cx.viewLeader block

theorem SignedBlocks.same
    (hInv : SignedBlocks config cx)
    (hSame : SameBlocks cx cx') :
    SignedBlocks config cx' where
  myid := hSame.myid.trans hInv.myid
  pubKeyMap := hSame.pubKeyMap.trans hInv.pubKeyMap
  mySecretKey := hSame.mySecretKey.trans hInv.mySecretKey
  undelivered := by
    intro hash block hLookup
    rw [hSame.undelivered] at hLookup
    rw [hSame.viewLeader]
    exact hInv.undelivered hash block hLookup
  delivered := by
    intro hash block hLookup
    rw [hSame.delivered] at hLookup
    rw [hSame.viewLeader]
    exact hInv.delivered hash block hLookup

theorem SignedBlocks.storeBlock
    {block : Block H}
    (hInv : SignedBlocks config cx)
    (hBlock : LeaderSigned config cx.viewLeader block) :
    SignedBlocks config (storeBlock block cx) := by
  refine { hInv with delivered := ?_ }
  exact Storage.forall_addDeliveredBlock hInv.delivered
    (Or.inr hBlock)

theorem SignedBlocks.forget
    (hash : H)
    (hInv : SignedBlocks config cx) :
    SignedBlocks config
      { cx with
        undeliveredBlocks :=
          cx.undeliveredBlocks.erase hash } := by
  refine { hInv with undelivered := ?_ }
  exact FinMap.forall_erase hInv.undelivered

omit [Crypto H] in
theorem SameBlocks.releaseVote
    (hash : H)
    (cx : Context H) :
    SameBlocks cx (releaseVote hash cx) := by
  unfold Artemis.releaseVote
  split
  · exact SameBlocks.refl cx
  · exact ⟨rfl, rfl, rfl, rfl, rfl, fun _ => rfl⟩

/- A child that was parked came from the view leader too. -/
theorem SignedBlocks.deliverChild
    (hash child : H)
    (hInv : SignedBlocks config cx) :
    SignedBlocks config (deliverChild hash child cx) := by
  have hTaken :
      SignedBlocks config
        { cx with
          blockParentWaiting :=
            cx.blockParentWaiting.erase hash } :=
    { hInv with }
  unfold Artemis.deliverChild
  dsimp only
  refine SignedBlocks.same ?_ (SameBlocks.releaseVote _ _)
  split
  · exact hTaken
  · rename_i block hParked
    exact (hTaken.forget child).storeBlock
      (hInv.undelivered child block hParked)

theorem SignedBlocks.doDelivery
    {block : Block H}
    (hInv : SignedBlocks config cx)
    (hBlock : LeaderSigned config cx.viewLeader block) :
    SignedBlocks config (doDelivery block cx) := by
  apply doDelivery_rule
    (fun _ now => SignedBlocks config now)
    (SignedBlocks config)
  · exact ((hInv.storeBlock hBlock).forget _).same
      (SameBlocks.releaseVote _ _)
  · intro hash child now hNow _
    exact hNow.deliverChild hash child
  · intro last now hNow _
    exact hNow
  · intro now hNow
    exact { hNow with }

/- A block that gets in comes from the view leader. -/
theorem SignedBlocks.admits
    {node : Node H}
    {block : Block H}
    (hKey : OwnKey H config)
    (hInv : SignedBlocks config node.cx)
    (hUnchecked :
      ∀ block, uncheckedBlock node = some block →
        LeaderSigned config node.cx.viewLeader block)
    (hAdmits : Admits node block) :
    LeaderSigned config node.cx.viewLeader block := by
  rcases hAdmits with
    hNone | ⟨hAuthor, hOrigin, _, publicKey, hLookup,
      hVerify⟩ | ⟨hSelf, cx, batchHash, hSame, rfl⟩
  · exact hUnchecked block hNone
  · rw [hInv.pubKeyMap, FinMap.lookup_erase_eq] at hLookup
    split at hLookup
    · cases hLookup
    · exact ⟨hAuthor.symm, hOrigin.symm, publicKey, hLookup,
        hVerify⟩
  · rcases hKey with ⟨publicKey, hLookup, hVerify⟩
    have hMyid : cx.myid = node.cx.viewLeader :=
      hSame.myid.trans hSelf.symm
    refine ⟨hMyid, hMyid, publicKey, ?_, ?_⟩
    · rw [hSelf, hInv.myid]
      exact hLookup
    · have hSecret : cx.mySecretKey = config.secretKeyBytes :=
        hSame.mySecretKey.trans hInv.mySecretKey
      unfold newBlock
      rw [hSecret]
      exact hVerify _

theorem SignedBlocks.adds
    {block : Block H}
    (hInv : SignedBlocks config cx)
    (hBlock : LeaderSigned config cx.viewLeader block)
    (hAdds : Adds block cx cx') :
    SignedBlocks config cx' := by
  rcases hAdds with hDelivers | hParks
  · rw [hDelivers]
    exact hInv.doDelivery hBlock
  · refine SignedBlocks.same ?_ hParks
    refine { hInv with undelivered := ?_ }
    exact FinMap.forall_insert hInv.undelivered hBlock

theorem SignedBlocks.step
    {node node' : Node H}
    {event : Event H}
    (hKey : OwnKey H config)
    (hInv : SignedBlocks config node.cx)
    (hEvent : SignedStep config node event)
    (hStep : Artemis.step node event = .ok node') :
    SignedBlocks config node'.cx := by
  rcases step_blocks hStep with
    hSame | ⟨hInternal, hSame | ⟨mid, block, hSame,
      hAdmits, hAdds⟩⟩
  · exact hInv.same hSame
  · exact hInv.same hSame
  · have hBlock :=
      hInv.admits hKey (hEvent hInternal) hAdmits
    rw [← hSame.viewLeader] at hBlock
    exact (hInv.same hSame).adds hBlock hAdds

theorem signedBlocks_new
    (config : Config) :
    SignedBlocks config (Node.new config : Node H).cx where
  myid := rfl
  pubKeyMap := rfl
  mySecretKey := rfl
  undelivered := by
    intro hash block hLookup
    simp [Node.new, Context.new, Context.tellBatcher,
      Context.announceHeightToBatcher] at hLookup
  delivered := by
    intro hash block hLookup
    exact Or.inl (Storage.eq_of_delivered_new hLookup)

/-
  While the blocks that are taken in unchecked carry the view
  leader's signature, every delivered block does.
-/
theorem delivered_blocks_signed
    {node : Node H}
    (hKey : OwnKey H config)
    (hReach :
      Machine.Reach step (SignedStep config)
        (Node.new config) node) :
    ∀ hash block,
      node.cx.storage.deliveredBlockFromHash hash =
          some block →
        block = Block.genesis ∨
          LeaderSigned config node.cx.viewLeader block := by
  have hInv : SignedBlocks config node.cx := by
    apply hReach.invariant
      (fun node => SignedBlocks config node.cx)
    · exact signedBlocks_new config
    · intro s s' event hInv hEvent hStep
      exact hInv.step hKey hEvent hStep
  exact hInv.delivered

end Artemis

end LibApollo

------------------------------------------------------------
-- A Block Nobody Signed
------------------------------------------------------------

namespace LibApollo

namespace Artemis

variable {H : Type} [DecidableEq H] [Crypto H]

/- Whose key accepts the signature has signed the block. -/
def GenuineBlock
    (config : Config)
    (produced : Replica → SignData H → Prop)
    (signed : List (SignData H))
    (block : Block H) : Prop :=
  ∀ replica publicKey,
    config.pkMap.lookup replica = some publicKey →
      block.checkSig publicKey = true →
      SignedBy config produced signed replica
        (.hash block.blk.hash)

/- Decoded messages; nobody has forged a block. -/
def GenuineStep
    (config : Config)
    (produced : Replica → SignData H → Prop)
    (node : Node H)
    (event : Event H) : Prop :=
  Decoded event ∧
    ∀ block batch,
      (event = .recv (.newBlock block batch) ∨
        ∃ sender reqId,
          event =
            .recv (.response sender reqId block batch)) →
        GenuineBlock config produced node.cx.signed block

theorem smallConfig_ownKey
    {id : Replica}
    (hMem : id ∈ [0, 1, 2]) :
    OwnKey Digest (smallConfig id) := by
  refine ⟨Digest.keyOf id, ?_, ?_⟩
  · simp only [List.mem_cons, List.not_mem_nil, or_false]
      at hMem
    rcases hMem with rfl | rfl | rfl
    · decide
    · decide
    · decide
  · intro data
    exact decide_eq_true rfl

/- A block on genesis by replica 2, without a signature. -/
def strayBlock : Block Digest where
  blk := Digest.blockOn LibApollo.Block.genesis 2 1
  sig := { origin := 2, auth := [] }

theorem strayBlock_genuine
    (id : Replica)
    (produced : Replica → SignData Digest → Prop)
    (signed : List (SignData Digest)) :
    GenuineBlock (smallConfig id) produced signed
      strayBlock := by
  intro replica publicKey hKey hCheck
  rcases Digest.lookup_keyMap hKey with ⟨_, rfl⟩
  simp [Block.checkSig, strayBlock, Crypto.verify,
    Digest.keyOf] at hCheck

/- Replica 2 answers a request that was never made. -/
def strayRun : List (Event Digest) :=
  [.recv (.response 2 0 strayBlock oneBatch)] ++
    List.replicate 3 .internal

def strayCheck (event : Event Digest) : Bool :=
  match event with
  | .recv (.response _ _ block _) =>
      decide (block = strayBlock)
  | .internal => true
  | _ => false

theorem genuineStep_of_strayCheck
    {produced : Replica → SignData Digest → Prop}
    {node : Node Digest}
    {event : Event Digest}
    (hCheck : strayCheck event = true) :
    GenuineStep (smallConfig 1) produced node event := by
  unfold strayCheck at hCheck
  split at hCheck
  · rename_i sender reqId block batch
    rw [of_decide_eq_true hCheck]
    constructor
    · have hHashed : strayBlock.blk.WellHashed := by
        decide +kernel
      exact decoded_of_decodedCheck (decide_eq_true hHashed)
    · intro other batch' hCases
      rcases hCases with hNew | ⟨_, _, hResponse⟩
      · cases hNew
      · cases hResponse
        exact strayBlock_genuine 1 _ _
  · constructor
    · intro msg hMsg
      cases hMsg
    · intro block batch hCases
      rcases hCases with hNew | ⟨_, _, hResponse⟩
      · cases hNew
      · cases hResponse
  · cases hCheck

/- The node delivers it; the view leader is replica 0. -/
theorem unsigned_block_delivered :
    OwnKey Digest (smallConfig 1) ∧
      ∃ (produced : Replica → SignData Digest → Prop)
        (node : Node Digest),
        Machine.Reach step
            (GenuineStep (smallConfig 1) produced)
            (Node.new (smallConfig 1)) node ∧
          ∃ hash block,
            node.cx.storage.deliveredBlockFromHash hash =
                some block ∧
              block ≠ Block.genesis ∧
              ¬ LeaderSigned (smallConfig 1)
                node.cx.viewLeader block := by
  refine ⟨smallConfig_ownKey (by simp), fun _ _ => False, ?_⟩
  have hRun :
      Machine.runCheck step
        (fun _ event => strayCheck event)
        (fun node =>
          decide
            (node.cx.storage.deliveredBlockFromHash
                strayBlock.blk.hash = some strayBlock ∧
              node.cx.viewLeader = 0))
        (Node.new (smallConfig 1)) strayRun = true := by
    decide +kernel
  rcases Machine.Reach.of_runCheck
      (fun _ _ hCheck => genuineStep_of_strayCheck hCheck)
      hRun with ⟨node, hReach, hFinal⟩
  rcases of_decide_eq_true hFinal with
    ⟨hDelivered, hLeader⟩
  refine ⟨node, hReach, _, _, hDelivered,
    by decide +kernel, ?_⟩
  intro hSigned
  rw [hLeader] at hSigned
  exact absurd hSigned.1 (by decide)

/- The only unchecked block is the view leader's second. -/
def signedCheck (node : Node Digest) : Bool :=
  decide (node.cx.viewLeader = 0) &&
    (match uncheckedBlock node with
      | none => true
      | some block => decide (block = secondBlock))

theorem secondBlock_leaderSigned :
    LeaderSigned (smallConfig 1) 0 secondBlock :=
  ⟨by decide, by decide, Digest.keyOf 0, by decide,
    by decide +kernel⟩

theorem signedStep_of_signedCheck
    {node : Node Digest}
    {event : Event Digest}
    (hCheck : signedCheck node = true) :
    SignedStep (smallConfig 1) node event := by
  intro _ block hUnchecked
  simp only [signedCheck, Bool.and_eq_true,
    decide_eq_true_eq, hUnchecked] at hCheck
  rw [hCheck.1, hCheck.2]
  exact secondBlock_leaderSigned

/- The second block comes as a response, and is parked. -/
theorem delivered_blocks_signed_parked :
    ∃ node : Node Digest,
      Machine.Reach step (SignedStep (smallConfig 1))
          (Node.new (smallConfig 1)) node ∧
        node.cx.storage.deliveredBlockFromHash
            secondBlock.blk.hash = some secondBlock ∧
        ∀ hash block,
          node.cx.storage.deliveredBlockFromHash hash =
              some block →
            block = Block.genesis ∨
              LeaderSigned (smallConfig 1)
                node.cx.viewLeader block := by
  have hRun :
      Machine.runCheck step
        (fun node _ => signedCheck node)
        (fun node =>
          decide
            (node.cx.storage.deliveredBlockFromHash
              secondBlock.blk.hash = some secondBlock))
        (Node.new (smallConfig 1)) parkedRun = true := by
    decide +kernel
  rcases Machine.Reach.of_runCheck
      (fun _ _ hCheck => signedStep_of_signedCheck hCheck)
      hRun with ⟨node, hReach, hFinal⟩
  exact ⟨node, hReach, of_decide_eq_true hFinal,
    delivered_blocks_signed
      (smallConfig_ownKey (by simp)) hReach⟩

end Artemis

end LibApollo
