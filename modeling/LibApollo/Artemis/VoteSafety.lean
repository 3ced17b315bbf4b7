import LibApollo.Artemis.Invariant

/-
  Votes and commits of an Artemis node under arbitrary
  messages.

  No check compares an accepted vote with the last one, and
  a node that leads the round accepts a vote of the network
  without looking at its signature.  In the runs that avoid
  these two situations the committed blocks stay on one
  branch and every accepted vote was signed by the leader of
  its round.

  Key definitions include:
    * `ExtendingStep`, `BranchInv`
    * `SignedBy`, `AuthenticStep`, `CheckedStep`
    * `AuthInv`

  Key theorems include:
    * `committed_blocks_related`
    * `votes_signed`
-/

------------------------------------------------------------
-- What Only an Acceptance Changes
------------------------------------------------------------

namespace LibApollo

namespace Artemis

variable {H : Type} [DecidableEq H] [Crypto H]
variable {scope : Scope H}
variable {acc : UCRVote H → Prop}
variable {cx cx' : Context H}

/- The votes, their leaders and what was signed. -/
structure SameVotes (cx cx' : Context H) : Prop where
  voteChain : cx'.voteChain = cx.voteChain
  lastVoted : cx'.lastVotedBlock = cx.lastVotedBlock
  round : cx'.round = cx.round
  leaders : cx'.leaders = cx.leaders
  signed : cx'.signed = cx.signed
  committed :
    cx'.storage.committedBlocksByHash =
      cx.storage.committedBlocksByHash

omit [Crypto H] in
theorem doDelivery_sameVotes
    (block : Block H)
    (cx : Context H) :
    SameVotes cx (doDelivery block cx) := by
  rcases doDelivery_deliveryOnly block cx with
    ⟨_, _, _, _, _, _, _, hEq, hCommitted⟩
  rw [hEq]
  exact ⟨rfl, rfl, rfl, rfl, rfl, hCommitted⟩

theorem Effect.sameVotes_or_accepts
    (hEffect : Effect scope acc cx cx') :
    SameVotes cx cx' ∨
      ∃ v,
        scope.okVote v ∧
          acc v ∧
          Acceptable cx v ∧
          Current cx v ∧
          Accepted v cx cx' := by
  cases hEffect with
  | channels hChannels =>
      rcases hChannels with ⟨_, _, _, _, rfl⟩
      exact Or.inl ⟨rfl, rfl, rfl, rfl, rfl, rfl⟩
  | receive msg _ =>
      cases msg <;>
        exact Or.inl ⟨rfl, rfl, rfl, rfl, rfl, rfl⟩
  | deliver block _ _ =>
      exact Or.inl (doDelivery_sameVotes block cx)
  | send dest msg _ =>
      unfold Context.send
      split
      · exact Or.inl ⟨rfl, rfl, rfl, rfl, rfl, rfl⟩
      · exact Or.inl ⟨rfl, rfl, rfl, rfl, rfl, rfl⟩
  | accept v hVote hAcc hAcceptable hCurrent hAccepted =>
      exact Or.inr ⟨v, hVote, hAcc, hAcceptable, hCurrent,
        hAccepted⟩
  | _ => exact Or.inl ⟨rfl, rfl, rfl, rfl, rfl, rfl⟩

/- Until the round changes the last vote does not. -/
theorem Effects.lastVoted_eq
    (hEffects : Effects scope acc cx cx') :
    cx.round ≤ cx'.round ∧
      (cx'.round = cx.round →
        cx'.lastVotedBlock = cx.lastVotedBlock ∧
          cx'.leaders = cx.leaders) := by
  induction hEffects with
  | refl => exact ⟨Nat.le_refl _, fun _ => ⟨rfl, rfl⟩⟩
  | tail _ hEffect ih =>
      rcases hEffect.sameVotes_or_accepts with
        hSame | ⟨v, _, _, _, _, hAccepted⟩
      · rw [hSame.round, hSame.lastVoted, hSame.leaders]
        exact ih
      · rcases hAccepted with
          ⟨_, _, _, _, _, _, _, _, _, _, rfl⟩
        refine ⟨Nat.le_succ_of_le ih.1, ?_⟩
        intro hRound
        dsimp only at hRound
        omega

/- A step accepts in the round it starts in. -/
theorem Settled.candidateVote_current
    {node : Node H}
    {v : UCRVote H}
    (hSettled : Settled node.cx)
    (hCandidate : candidateVote node = some v) :
    Current node.cx v := by
  unfold candidateVote at hCandidate
  dsimp only at hCandidate
  split at hCandidate
  · exact hSettled.ready _ v hCandidate
  · exact hSettled.ready _ v hCandidate
  · split at hCandidate
    · split at hCandidate
      · rename_i hCurrent
        cases hCandidate
        exact hCurrent
      · cases hCandidate
    · split at hCandidate
      · rename_i hCurrent
        cases hCandidate
        exact hCurrent
      · cases hCandidate
    · cases hCandidate
  · cases hCandidate

end Artemis

end LibApollo

------------------------------------------------------------
-- Votes That Extend the Last One
------------------------------------------------------------

namespace LibApollo

namespace Artemis

open Ancestry

variable {H : Type} [DecidableEq H] [Crypto H]

/- The block lies above the last voted one, or is it. -/
def ExtendsLastVoted (cx : Context H) (hash : H) : Prop :=
  Ancestor cx.storage.parent
    (BlockTrait.getHash cx.lastVotedBlock) hash

/-
  A decoded message, and no vote, of the network or of the
  node itself, leaves the branch of the last one.
-/
def ExtendingStep
    (node : Node H)
    (event : Event H) : Prop :=
  Decoded event ∧
    (∀ v, StepConsiders node event v →
      ExtendsLastVoted node.cx v.hash) ∧
    (event = .internal → Votes node →
      ExtendsLastVoted node.cx
        (BlockTrait.getHash node.cx.lastSeenBlock))

/- Voted and committed blocks are below the last voted. -/
structure BranchInv (cx : Context H) : Prop where
  voted :
    ∀ r v, cx.voteChain.lookup r = some v →
      Ancestor cx.storage.parent v.hash
        (BlockTrait.getHash cx.lastVotedBlock)
  committed :
    ∀ hash ∈ cx.storage.committedBlocksByHash,
      Ancestor cx.storage.parent hash
        (BlockTrait.getHash cx.lastVotedBlock)

omit [Crypto H] in
/- More known parents keep a branch. -/
theorem BranchInv.mono
    {cx cx' : Context H}
    (hGrows : Grows cx cx')
    (hSame : SameVotes cx cx')
    (hBranch : BranchInv cx) :
    BranchInv cx' := by
  constructor
  · intro r v hLookup
    rw [hSame.voteChain] at hLookup
    rw [hSame.lastVoted]
    exact (hBranch.voted r v hLookup).mono hGrows.parent
  · intro hash hMem
    rw [hSame.committed] at hMem
    rw [hSame.lastVoted]
    exact (hBranch.committed hash hMem).mono hGrows.parent

/- An acceptance above the last voted block. -/
theorem BranchInv.accepted
    {cx cx' : Context H}
    {v : UCRVote H}
    (hBranch : BranchInv cx)
    (hAbove : ExtendsLastVoted cx v.hash)
    (hAccepted : Accepted v cx cx') :
    BranchInv cx' := by
  have hGrows := hAccepted.grows
  rcases hAccepted with
    ⟨storage, block, leaders, _, _, _, _, hOutcome,
      hLookup, _, rfl⟩
  have hHash : BlockTrait.getHash block = v.hash :=
    Storage.getHash_of_delivered hLookup
  have hEntry :
      ∀ r w,
        (cx.voteChain.insert v.round v).lookup r =
            some w →
          Ancestor cx.storage.parent w.hash v.hash := by
    intro r w hOther
    rw [FinMap.lookup_insert_eq] at hOther
    split at hOther
    · cases hOther
      exact Ancestor.refl
    · exact (hBranch.voted r w hOther).trans hAbove
  constructor
  · intro r w hOther
    dsimp only at hOther ⊢
    rw [hHash]
    exact (hEntry r w hOther).mono hGrows.parent
  · intro hash hMem
    dsimp only at hMem ⊢
    rw [hHash]
    refine Ancestor.mono hGrows.parent ?_
    rcases hOutcome with ⟨_, rfl⟩ | ⟨_, w, hOther, hSpec⟩
    · exact (hBranch.committed hash hMem).trans hAbove
    · rcases hSpec.mem hash hMem with hOld | hWalked
      · exact (hBranch.committed hash hOld).trans hAbove
      · exact hWalked.trans (hEntry _ w hOther)

theorem BranchInv.effects
    {scope : Scope H}
    {acc : UCRVote H → Prop}
    {cx cx' : Context H}
    (hFree : CollisionFree H)
    (hProper : scope.Proper)
    (hData : Data scope cx)
    (hBranch : BranchInv cx)
    (hAcc :
      ∀ v, acc v →
        v.round = cx.round ∧ ExtendsLastVoted cx v.hash)
    (hEffects : Effects scope acc cx cx') :
    BranchInv cx' := by
  induction hEffects with
  | refl => exact hBranch
  | @tail mid cx' hBefore hEffect ih =>
      rcases hEffect.sameVotes_or_accepts with
        hSame | ⟨v, _, hAllowed, _, hCurrent, hAccepted⟩
      · exact ih.mono
          (hEffect.grows hFree hProper
            (hData.effects hBefore))
          hSame
      · rcases hAcc v hAllowed with ⟨hRound, hExtends⟩
        have hLast :=
          ((Effects.lastVoted_eq hBefore).2
            (hCurrent.1.symm.trans hRound)).1
        have hGrows :=
          Effects.grows hFree hProper hData hBefore
        refine ih.accepted ?_ hAccepted
        unfold ExtendsLastVoted
        rw [hLast]
        exact Ancestor.mono hGrows.parent hExtends

theorem BranchInv.step
    {config : Config}
    {node node' : Node H}
    {event : Event H}
    (hFree : CollisionFree H)
    (hInv : NodeInv config node)
    (hBranch : BranchInv node.cx)
    (hEvent : ExtendingStep node event)
    (hStep : Artemis.step node event = .ok node') :
    BranchInv node'.cx := by
  have hContext := hInv.context
  rcases step_ok hContext.data hContext.settled hEvent.1
      hStep with
    hEffects | ⟨batchHash, batch, rest, _, hCases⟩ |
      ⟨hVotes, hInternal, hAccepted⟩
  · refine hBranch.effects hFree networkScope_proper
      hContext.data ?_ hEffects
    intro v hConsiders
    exact
      ⟨(Settled.candidateVote_current hContext.settled
          hConsiders.2.1).1,
        hEvent.2.1 v hConsiders⟩
  · have hSent :
        BranchInv
          (dispatching batchHash batch
            { node.cx with pendingBatches := rest }) :=
      ⟨hBranch.voted, hBranch.committed⟩
    have hBlock :=
      newBlock_ok { node.cx with pendingBatches := rest }
        batchHash
    have hData :=
      ((hContext.pending rest).dispatching batch
        hBlock).data
    rcases hCases with ⟨hEq, _⟩ | ⟨_, hEq⟩
    · rw [hEq]
      exact hSent
    · rw [hEq]
      exact hSent.mono
        (doDelivery_grows hFree networkScope_proper hData
          hBlock)
        (doDelivery_sameVotes _ _)
  · have hVoting : BranchInv (voting node.cx) :=
      ⟨hBranch.voted, hBranch.committed⟩
    have hAbove :
        ExtendsLastVoted (voting node.cx)
          (newVote node.cx).hash :=
      hEvent.2.2 hInternal hVotes
    exact hVoting.accepted hAbove hAccepted

theorem branchInv_new
    (config : Config) :
    BranchInv (Node.new config : Node H).cx := by
  constructor
  · intro r v hLookup
    simp [Node.new, Context.new,
      Context.announceHeightToBatcher,
      Context.tellBatcher] at hLookup
  · intro hash hMem
    simp [Node.new, Context.new,
      Context.announceHeightToBatcher,
      Context.tellBatcher] at hMem

/-
  While every accepted vote extends the last one, the
  committed blocks form a single chain.
-/
theorem committed_blocks_related
    {config : Config}
    {node : Node H}
    (hFree : CollisionFree H)
    (hReach :
      Machine.Reach step ExtendingStep (Node.new config)
        node) :
    ∀ left ∈ node.cx.storage.committedBlocksByHash,
      ∀ right ∈ node.cx.storage.committedBlocksByHash,
        Related node.cx.storage.parent left right := by
  have hBoth : NodeInv config node ∧ BranchInv node.cx := by
    apply hReach.invariant
      (fun node => NodeInv config node ∧ BranchInv node.cx)
    · exact ⟨nodeInv_new config, branchInv_new config⟩
    · intro s s' event hParts hEvent hStep
      rcases hParts with ⟨hInv, hBranch⟩
      exact ⟨hInv.step hFree hEvent.1 hStep,
        hBranch.step hFree hInv hEvent hStep⟩
  intro left hLeft right hRight
  exact (hBoth.2.committed left hLeft).related
    (hBoth.2.committed right hRight)

/- The view leader signs a second, higher block. -/
def forkBlock : Block Digest :=
  leaderBlock LibApollo.Block.genesis 2

/-
  The view leader sends both blocks and votes for the lower
  one; the node votes for the higher one in round 2 and
  accepts a vote above that in round 3.
-/
def forkRun : List (Event Digest) :=
  [.recv (.newBlock firstBlock oneBatch),
      .recv (.newBlock forkBlock oneBatch),
      .recv (.ucrVote (voteFor 0 1 firstBlock))] ++
    List.replicate 11 .internal ++
    [.recv (.newBlock (leaderBlock forkBlock.blk 3) oneBatch),
      .recv (.ucrVote
        (voteFor 2 3 (leaderBlock forkBlock.blk 3)))] ++
    List.replicate 10 .internal

def committedFork (node : Node Digest) : Bool :=
  decide
    (firstBlock.blk.hash ∈
        node.cx.storage.committedBlocksByHash ∧
      forkBlock.blk.hash ∈
        node.cx.storage.committedBlocksByHash ∧
      node.cx.storage.parent firstBlock.blk.hash =
        some [] ∧
      node.cx.storage.parent forkBlock.blk.hash =
        some [] ∧
      node.cx.storage.parent [] = some [])

/- Both blocks on genesis are committed. -/
theorem conflicting_blocks_committed :
    CollisionFree Digest ∧
      ∃ node : Node Digest,
        Machine.Reach step (fun _ event => Decoded event)
            (Node.new (smallConfig 1)) node ∧
          ∃ left ∈ node.cx.storage.committedBlocksByHash,
            ∃ right ∈
                node.cx.storage.committedBlocksByHash,
              ¬ Related node.cx.storage.parent
                left right := by
  refine ⟨Digest.collisionFree, ?_⟩
  have hRun :
      Machine.runCheck step
        (fun _ event => decodedCheck event) committedFork
        (Node.new (smallConfig 1)) forkRun = true := by
    decide +kernel
  rcases Machine.Reach.of_runCheck
      (fun _ _ hCheck => decoded_of_decodedCheck hCheck)
      hRun with ⟨node, hReach, hFork⟩
  rcases of_decide_eq_true hFork with
    ⟨hFirst, hSecond, hParent, hParent', hRoot⟩
  refine ⟨node, hReach, _, hFirst, _, hSecond, ?_⟩
  exact Ancestor.not_related_of_root hParent hParent' hRoot
    (by decide +kernel) (by decide +kernel)
    (by decide +kernel)

/- Votes that are considered are right above the last. -/
def extendingCheck
    (node : Node Digest)
    (event : Event Digest) : Bool :=
  decodedCheck event &&
    (match candidateVote node with
      | none => true
      | some v => aboveCheck node.cx v.hash) &&
    (decide (node.phase ≠ .vote) ||
      aboveCheck node.cx node.cx.lastSeenBlock.blk.hash)
where
  aboveCheck (cx : Context Digest) (hash : Digest) : Bool :=
    decide (hash = cx.lastVotedBlock.blk.hash ∨
      cx.storage.parent hash =
        some cx.lastVotedBlock.blk.hash)

theorem extendsLastVoted_of_aboveCheck
    {cx : Context Digest}
    {hash : Digest}
    (hCheck : extendingCheck.aboveCheck cx hash = true) :
    ExtendsLastVoted cx hash := by
  rcases of_decide_eq_true hCheck with rfl | hParent
  · exact Ancestor.refl
  · exact Ancestor.of_parent hParent

theorem extendingStep_of_extendingCheck
    {node : Node Digest}
    {event : Event Digest}
    (hCheck : extendingCheck node event = true) :
    ExtendingStep node event := by
  simp only [extendingCheck, Bool.and_eq_true,
    Bool.or_eq_true, decide_eq_true_eq] at hCheck
  rcases hCheck with ⟨⟨hDecoded, hVote⟩, hOwn⟩
  refine ⟨decoded_of_decodedCheck hDecoded, ?_, ?_⟩
  · intro v hConsiders
    rw [hConsiders.2.1] at hVote
    exact extendsLastVoted_of_aboveCheck hVote
  · intro _ hVotes
    rcases hOwn with hOther | hAbove
    · exact absurd hVotes.1 hOther
    · exact extendsLastVoted_of_aboveCheck hAbove

/- The node votes for the second block in round 2. -/
theorem committed_blocks_related_second_round :
    ∃ node : Node Digest,
      Machine.Reach step ExtendingStep
          (Node.new (smallConfig 1)) node ∧
        firstBlock.blk.hash ∈
          node.cx.storage.committedBlocksByHash ∧
        ∀ left ∈ node.cx.storage.committedBlocksByHash,
          ∀ right ∈ node.cx.storage.committedBlocksByHash,
            Related node.cx.storage.parent left right := by
  have hRun :
      Machine.runCheck step extendingCheck
        (fun node =>
          decide (firstBlock.blk.hash ∈
            node.cx.storage.committedBlocksByHash))
        (Node.new (smallConfig 1)) parkedRun = true := by
    decide +kernel
  rcases Machine.Reach.of_runCheck
      (fun _ _ hCheck =>
        extendingStep_of_extendingCheck hCheck)
      hRun with ⟨node, hReach, hCommitted⟩
  exact ⟨node, hReach, of_decide_eq_true hCommitted,
    committed_blocks_related Digest.collisionFree hReach⟩

end Artemis

end LibApollo

------------------------------------------------------------
-- Votes Signed by Their Leaders
------------------------------------------------------------

namespace LibApollo

namespace Artemis

variable {H : Type} [DecidableEq H] [Crypto H]

/-
  The replica has signed the data: the node itself when its
  log says so, another replica when it has produced it.
-/
def SignedBy
    (config : Config)
    (produced : Replica → SignData H → Prop)
    (signed : List (SignData H))
    (replica : Replica)
    (data : SignData H) : Prop :=
  if replica = config.id then data ∈ signed
  else produced replica data

/- Whose key accepts the signature has signed the vote. -/
def Genuine
    (config : Config)
    (produced : Replica → SignData H → Prop)
    (signed : List (SignData H))
    (v : UCRVote H) : Prop :=
  ∀ replica publicKey,
    config.pkMap.lookup replica = some publicKey →
      v.checkSig publicKey = true →
      SignedBy config produced signed replica
        (.hash v.digest)

/- The event brings this vote from the network. -/
def Carries (event : Event H) (v : UCRVote H) : Prop :=
  event = .recv (.ucrVote v) ∨
    ∃ sender, event = .recv (.relay sender v)

/- Decoded messages with signatures nobody has forged. -/
def AuthenticStep
    (config : Config)
    (produced : Replica → SignData H → Prop)
    (node : Node H)
    (event : Event H) : Prop :=
  Decoded event ∧
    ∀ v, Carries event v →
      Genuine config produced node.cx.signed v

/-
  Moreover, a vote that is considered while the node leads
  the round carries a signature under the node's own key.
-/
def CheckedStep
    (config : Config)
    (produced : Replica → SignData H → Prop)
    (node : Node H)
    (event : Event H) : Prop :=
  AuthenticStep config produced node event ∧
    ∀ v, StepConsiders node event v →
      node.cx.myid = node.cx.leaders.roundLeader →
        ∃ publicKey,
          config.pkMap.lookup config.id =
              some publicKey ∧
            v.checkSig publicKey = true

/- Genuine votes, and those the node made in its rounds. -/
def authScope
    (config : Config)
    (produced : Replica → SignData H → Prop)
    (signed : List (SignData H)) : Scope H where
  okVote := fun v =>
    Genuine config produced signed v ∨
      (Leaders.leaderAt H config.numNodes config.numFaults
          v.round = config.id ∧
        SignData.hash v.digest ∈ signed)
  okBlock := fun block => block.blk.Proper

variable {config : Config}
variable {produced : Replica → SignData H → Prop}
variable {signed signed' : List (SignData H)}

omit [DecidableEq H] [Crypto H] in
theorem SignedBy.mono
    {replica : Replica}
    {data : SignData H}
    (hSubset : signed ⊆ signed')
    (hSigned :
      SignedBy config produced signed replica data) :
    SignedBy config produced signed' replica data := by
  unfold SignedBy at hSigned ⊢
  split at hSigned
  · rename_i hSelf
    rw [if_pos hSelf]
    exact hSubset hSigned
  · rename_i hOther
    rw [if_neg hOther]
    exact hSigned

omit [DecidableEq H] in
theorem authScope_mono
    (hSubset : signed ⊆ signed')
    (v : UCRVote H)
    (hVote :
      (authScope config produced signed).okVote v) :
    (authScope config produced signed').okVote v := by
  rcases hVote with hGenuine | ⟨hLeader, hOwn⟩
  · left
    intro replica publicKey hKey hCheck
    exact (hGenuine replica publicKey hKey hCheck).mono
      hSubset
  · exact Or.inr ⟨hLeader, hSubset hOwn⟩

omit [DecidableEq H] in
theorem authScope_proper :
    (authScope config produced signed).Proper :=
  fun _ hBlock => hBlock

theorem AuthenticStep.okMsg
    {node : Node H}
    {event : Event H}
    (hEvent : AuthenticStep config produced node event) :
    ∀ msg, event = .recv msg →
      (authScope config produced node.cx.signed).OkMsg
        msg := by
  intro msg hEq
  subst hEq
  have hDecoded := hEvent.1 msg rfl
  cases msg with
  | newBlock block batch => exact hDecoded
  | ucrVote v => exact Or.inl (hEvent.2 v (Or.inl rfl))
  | relay sender v =>
      exact Or.inl (hEvent.2 v (Or.inr ⟨sender, rfl⟩))
  | blame v => exact hDecoded
  | request sender reqId hash => trivial
  | response sender reqId block batch => exact hDecoded
  | invalid => trivial

/- The leader of the round has signed an acceptable vote. -/
theorem Acceptable.signedBy
    {cx : Context H}
    {v : UCRVote H}
    (hConfig : Configured config cx)
    (hChain : ChainInv cx)
    (hRound : v.round = cx.round)
    (hVote :
      (authScope config produced signed).okVote v)
    (hOwn :
      cx.myid = cx.leaders.roundLeader →
        ∃ publicKey,
          config.pkMap.lookup config.id =
              some publicKey ∧
            v.checkSig publicKey = true)
    (hAcceptable : Acceptable cx v) :
    SignedBy config produced signed
      (Leaders.leaderAt H config.numNodes config.numFaults
        v.round) (.hash v.digest) := by
  have hLeader := hChain.roundLeader_eq
  rw [hConfig.numNodes, hConfig.numFaults, ← hRound]
    at hLeader
  rcases hVote with hGenuine | ⟨hSelf, hMem⟩
  · rw [← hLeader]
    rcases hAcceptable.2 with hSelf |
      ⟨publicKey, hKey, hCheck⟩
    · rcases hOwn hSelf with ⟨publicKey, hKey, hCheck⟩
      rw [← hSelf, hConfig.myid]
      exact hGenuine _ publicKey hKey hCheck
    · rw [hConfig.pubKeyMap, FinMap.lookup_erase_eq]
        at hKey
      split at hKey
      · cases hKey
      · exact hGenuine _ publicKey hKey hCheck
  · rw [SignedBy, if_pos hSelf]
    exact hMem

/- The leader of each passed round signed its vote. -/
def EntriesSigned
    (config : Config)
    (produced : Replica → SignData H → Prop)
    (signed : List (SignData H))
    (cx : Context H) : Prop :=
  ∀ r v, cx.voteChain.lookup r = some v →
    SignedBy config produced signed
      (Leaders.leaderAt H config.numNodes config.numFaults
        r) (.hash v.digest)

structure AuthInv
    (config : Config)
    (produced : Replica → SignData H → Prop)
    (cx : Context H) : Prop where
  context :
    ContextInv (authScope config produced cx.signed) cx
  configured : Configured config cx
  entries : EntriesSigned config produced cx.signed cx

theorem EntriesSigned.accepted
    {cx cx' : Context H}
    {v : UCRVote H}
    (hSigned :
      SignedBy config produced signed
        (Leaders.leaderAt H config.numNodes
          config.numFaults v.round) (.hash v.digest))
    (hAccepted : Accepted v cx cx')
    (hEntries : EntriesSigned config produced signed cx) :
    EntriesSigned config produced signed cx' := by
  rcases hAccepted with
    ⟨_, _, _, _, _, _, _, _, _, _, rfl⟩
  exact FinMap.forall_insert hEntries hSigned

theorem AuthInv.entries_effects
    {acc : UCRVote H → Prop}
    {cx cx' : Context H}
    (hFree : CollisionFree H)
    (hInv : AuthInv config produced cx)
    (hAcc :
      ∀ v, acc v →
        v.round = cx.round ∧
          (cx.myid = cx.leaders.roundLeader →
            ∃ publicKey,
              config.pkMap.lookup config.id =
                  some publicKey ∧
                v.checkSig publicKey = true))
    (hEffects :
      Effects (authScope config produced cx.signed) acc cx
        cx') :
    cx'.signed = cx.signed ∧
      EntriesSigned config produced cx.signed cx' := by
  induction hEffects with
  | refl => exact ⟨rfl, hInv.entries⟩
  | @tail mid cx' hBefore hEffect ih =>
      rcases hEffect.sameVotes_or_accepts with
        hSame | ⟨v, hVote, hAllowed, hAcceptable, hCurrent,
          hAccepted⟩
      · refine ⟨hSame.signed.trans ih.1, ?_⟩
        intro r v hLookup
        rw [hSame.voteChain] at hLookup
        exact ih.2 r v hLookup
      · rcases hAcc v hAllowed with ⟨hRound, hOwn⟩
        have hConfig := hInv.configured.effects hBefore
        have hSelf : mid.myid = cx.myid :=
          hConfig.myid.trans hInv.configured.myid.symm
        have hChain :=
          (hInv.context.effects hFree authScope_proper
            hBefore).chain
        have hLeaders :=
          ((Effects.lastVoted_eq hBefore).2
            (hCurrent.1.symm.trans hRound)).2
        have hSigned :=
          hAcceptable.signedBy hConfig hChain hCurrent.1
            hVote
            (by rw [hSelf, hLeaders]; exact hOwn)
        refine ⟨?_, ih.2.accepted hSigned hAccepted⟩
        rcases hAccepted with
          ⟨_, _, _, _, _, _, _, _, _, _, rfl⟩
        exact ih.1

/- The own vote is for a round the node leads. -/
theorem AuthInv.newVote_signed
    {node : Node H}
    (hInv : AuthInv config produced node.cx)
    (hVotes : Votes node) :
    Leaders.leaderAt H config.numNodes config.numFaults
        (newVote node.cx).round = config.id ∧
      SignData.hash (newVote node.cx).digest ∈
        (voting node.cx).signed := by
  constructor
  · have hLeader := hInv.context.chain.roundLeader_eq
    rw [hInv.configured.numNodes,
      hInv.configured.numFaults] at hLeader
    rw [← hInv.configured.myid, hVotes.2.1, hLeader]
    rfl
  · exact List.mem_append_right _ List.mem_cons_self

theorem AuthInv.deliver
    {cx : Context H}
    {block : Block H}
    (hFree : CollisionFree H)
    (hInv : AuthInv config produced cx)
    (hBlock : block.blk.Proper)
    (hPrev :
      cx.storage.isDeliveredByHash
        (BlockTrait.getPrev block) = true) :
    AuthInv config produced (doDelivery block cx) := by
  have hSame := doDelivery_sameVotes block cx
  constructor
  · rw [hSame.signed]
    exact hInv.context.deliver hFree authScope_proper
      hBlock hPrev
  · exact hInv.configured.deliver block
  · intro r v hLookup
    rw [hSame.voteChain] at hLookup
    rw [hSame.signed]
    exact hInv.entries r v hLookup

theorem AuthInv.dispatching
    {cx : Context H}
    (batchHash : H)
    (batch : Batch)
    (rest : List (H × Batch))
    (hInv : AuthInv config produced cx) :
    AuthInv config produced
      (dispatching batchHash batch
        { cx with pendingBatches := rest }) := by
  have hSubset :
      cx.signed ⊆
        (Artemis.dispatching batchHash batch
          { cx with pendingBatches := rest }).signed :=
    List.subset_append_left _ _
  have hWide :
      ContextInv
        (authScope config produced
          (Artemis.dispatching batchHash batch
            { cx with pendingBatches := rest }).signed)
        cx :=
    hInv.context.mono (authScope_mono hSubset)
      (fun _ hBlock => hBlock)
  constructor
  · exact (hWide.pending rest).dispatching batch
      (newBlock_ok _ batchHash)
  · exact { hInv.configured with }
  · intro r v hLookup
    exact (hInv.entries r v hLookup).mono hSubset

theorem AuthInv.votes
    {node : Node H}
    {cx' : Context H}
    (hInv : AuthInv config produced node.cx)
    (hVotes : Votes node)
    (hAccepted :
      Accepted (newVote node.cx) (voting node.cx) cx') :
    AuthInv config produced cx' := by
  have hOwn := hInv.newVote_signed hVotes
  have hSubset :
      node.cx.signed ⊆ (voting node.cx).signed :=
    List.subset_append_left _ _
  have hSigned : cx'.signed = (voting node.cx).signed := by
    rcases hAccepted with
      ⟨_, _, _, _, _, _, _, _, _, _, rfl⟩
    rfl
  have hConfig : Configured config (voting node.cx) :=
    { hInv.configured with }
  have hWide :
      ContextInv
        (authScope config produced (voting node.cx).signed)
        node.cx :=
    hInv.context.mono (authScope_mono hSubset)
      (fun _ hBlock => hBlock)
  have hVoting :
      EntriesSigned config produced
        (voting node.cx).signed (voting node.cx) :=
    fun r v hLookup =>
      (hInv.entries r v hLookup).mono hSubset
  constructor
  · rw [hSigned]
    exact (hWide.voting (Or.inr hOwn)).accepted
      (Or.inr hOwn) hInv.context.newVote_current hAccepted
  · exact hConfig.accepted hAccepted
  · rw [hSigned]
    refine hVoting.accepted ?_ hAccepted
    rw [SignedBy, if_pos hOwn.1]
    exact hOwn.2

theorem AuthInv.step
    {node node' : Node H}
    {event : Event H}
    (hFree : CollisionFree H)
    (hInv : AuthInv config produced node.cx)
    (hEvent : CheckedStep config produced node event)
    (hStep : Artemis.step node event = .ok node') :
    AuthInv config produced node'.cx := by
  have hContext := hInv.context
  have hMsg := hEvent.1.okMsg
  rcases step_ok hContext.data hContext.settled hMsg
      hStep with
    hEffects | ⟨batchHash, batch, rest, _, hCases⟩ |
      ⟨hVotes, _, hAccepted⟩
  · have hEntries := hInv.entries_effects hFree
      (fun v hConsiders =>
        ⟨(Settled.candidateVote_current hContext.settled
            hConsiders.2.1).1,
          hEvent.2 v hConsiders⟩) hEffects
    constructor
    · rw [hEntries.1]
      exact hContext.effects hFree authScope_proper
        hEffects
    · exact hInv.configured.effects hEffects
    · rw [hEntries.1]
      exact hEntries.2
  · have hSent := hInv.dispatching batchHash batch rest
    rcases hCases with ⟨hEq, _⟩ | ⟨hPrev, hEq⟩
    · rw [hEq]
      exact hSent
    · rw [hEq]
      exact hSent.deliver hFree
        (newBlock_ok _ batchHash) hPrev
  · exact hInv.votes hVotes hAccepted

theorem authInv_new
    (config : Config)
    (produced : Replica → SignData H → Prop) :
    AuthInv config produced
      (Node.new config : Node H).cx where
  context := contextInv_new config (Or.inl rfl)
  configured := ⟨rfl, rfl, rfl, rfl, rfl, rfl⟩
  entries := by
    intro r v hLookup
    simp [Node.new, Context.new,
      Context.announceHeightToBatcher,
      Context.tellBatcher] at hLookup

/-
  While votes considered in the node's own rounds carry its
  signature, every accepted vote was signed by the leader of
  its round, over its hash, round and view.
-/
theorem votes_signed
    {node : Node H}
    (hFree : CollisionFree H)
    (hReach :
      Machine.Reach step (CheckedStep config produced)
        (Node.new config) node) :
    ∀ r v, node.cx.voteChain.lookup r = some v →
      v.round = r ∧
        SignedBy config produced node.cx.signed
          (Leaders.leaderAt H config.numNodes
            config.numFaults r) (.hash v.digest) := by
  have hInv : AuthInv config produced node.cx := by
    apply hReach.invariant
      (fun node => AuthInv config produced node.cx)
    · exact authInv_new config produced
    · intro s s' event hInv hEvent hStep
      exact hInv.step hFree hEvent hStep
  intro r v hLookup
  exact ⟨(hInv.context.chain.entry r v hLookup).1,
    hInv.entries r v hLookup⟩

/- A vote for the genesis block that nobody signed. -/
def unsignedVote : UCRVote Digest where
  hash := []
  round := 1
  view := 0
  vote := { origin := 1, auth := [] }

theorem unsignedVote_genuine
    (produced : Replica → SignData Digest → Prop)
    (signed : List (SignData Digest)) :
    Genuine (smallConfig 0) produced signed
      unsignedVote := by
  intro replica publicKey hKey hCheck
  rcases Digest.lookup_keyMap hKey with ⟨_, rfl⟩
  simp [UCRVote.checkSig, unsignedVote, Crypto.verify,
    Digest.keyOf] at hCheck

/- Replica 1 sends the unsigned vote to the leader. -/
def unsignedRun : List (Event Digest) :=
  [.recv (.ucrVote unsignedVote)] ++
    List.replicate 9 .internal

def unsignedCheck (event : Event Digest) : Bool :=
  decide (event = .internal ∨
    event = .recv (.ucrVote unsignedVote))

theorem authenticStep_of_unsignedCheck
    {node : Node Digest}
    {event : Event Digest}
    (produced : Replica → SignData Digest → Prop)
    (hCheck : unsignedCheck event = true) :
    AuthenticStep (smallConfig 0) produced node event := by
  rcases of_decide_eq_true hCheck with rfl | rfl
  · constructor
    · intro msg hEq
      cases hEq
    · intro v hCases
      rcases hCases with hEq | ⟨_, hEq⟩
      · cases hEq
      · cases hEq
  · constructor
    · intro msg hEq
      cases hEq
      trivial
    · intro v hCases
      rcases hCases with hEq | ⟨_, hEq⟩
      · cases hEq
        exact unsignedVote_genuine produced _
      · cases hEq

/- The leader of round 1 accepts a vote it did not sign. -/
theorem unsigned_vote_accepted :
    CollisionFree Digest ∧
      ∃ (produced : Replica → SignData Digest → Prop)
        (node : Node Digest),
        Machine.Reach step
            (AuthenticStep (smallConfig 0) produced)
            (Node.new (smallConfig 0)) node ∧
          ∃ v,
            node.cx.voteChain.lookup 1 = some v ∧
              ¬ SignedBy (smallConfig 0) produced
                node.cx.signed
                (Leaders.leaderAt Digest 3 1 1)
                (.hash v.digest) := by
  refine ⟨Digest.collisionFree, fun _ _ => False, ?_⟩
  have hRun :
      Machine.runCheck step
        (fun _ event => unsignedCheck event)
        (fun node =>
          decide
            (node.cx.voteChain.lookup 1 =
                some unsignedVote ∧
              node.cx.signed = []))
        (Node.new (smallConfig 0)) unsignedRun = true := by
    decide +kernel
  rcases Machine.Reach.of_runCheck
      (fun _ _ hCheck =>
        authenticStep_of_unsignedCheck _ hCheck)
      hRun with ⟨node, hReach, hFinal⟩
  rcases of_decide_eq_true hFinal with ⟨hLookup, hSigned⟩
  refine ⟨node, hReach, _, hLookup, ?_⟩
  rw [hSigned]
  unfold SignedBy
  split
  · exact List.not_mem_nil
  · exact fun hFalse => hFalse

/- Replica 0 has signed its vote of round 1, nothing else. -/
def firstVoteProduced
    (replica : Replica)
    (data : SignData Digest) : Prop :=
  replica = 0 ∧
    data = .hash (voteFor 0 1 firstBlock).digest

theorem firstVote_genuine
    (signed : List (SignData Digest)) :
    Genuine (smallConfig 1) firstVoteProduced signed
      (voteFor 0 1 firstBlock) := by
  intro replica publicKey hKey hCheck
  rcases Digest.lookup_keyMap hKey with ⟨hMem, rfl⟩
  have hCases : replica = 0 ∨ replica = 1 ∨ replica = 2 := by
    simpa using hMem
  rcases hCases with rfl | rfl | rfl
  · exact ⟨rfl, rfl⟩
  · exact absurd hCheck (by decide +kernel)
  · exact absurd hCheck (by decide +kernel)

/- Votes come from replica 0, for round 1, and are checked. -/
def checkedCheck
    (node : Node Digest)
    (event : Event Digest) : Bool :=
  decodedCheck event &&
    (match event with
      | .recv (.ucrVote v) =>
          decide (v = voteFor 0 1 firstBlock)
      | .recv (.relay _ _) => false
      | _ => true) &&
    (decide (node.cx.myid ≠ node.cx.leaders.roundLeader) ||
      decide (candidateVote node = none))

theorem checkedStep_of_checkedCheck
    {node : Node Digest}
    {event : Event Digest}
    (hCheck : checkedCheck node event = true) :
    CheckedStep (smallConfig 1) firstVoteProduced node
      event := by
  simp only [checkedCheck, Bool.and_eq_true,
    Bool.or_eq_true, decide_eq_true_eq] at hCheck
  rcases hCheck with ⟨⟨hDecoded, hVote⟩, hOwn⟩
  refine ⟨⟨decoded_of_decodedCheck hDecoded, ?_⟩, ?_⟩
  · intro v hCases
    rcases hCases with rfl | ⟨sender, rfl⟩
    · rw [of_decide_eq_true hVote]
      exact firstVote_genuine _
    · cases hVote
  · intro v hParts hSelf
    rcases hParts with ⟨_, hCandidate, _⟩
    rcases hOwn with hOther | hNone
    · exact absurd hSelf hOther
    · rw [hNone] at hCandidate
      cases hCandidate

/- Replica 0 votes in round 1 and the node in round 2. -/
theorem votes_signed_second_round :
    ∃ node : Node Digest,
      Machine.Reach step
          (CheckedStep (smallConfig 1) firstVoteProduced)
          (Node.new (smallConfig 1)) node ∧
        node.cx.round = 3 ∧
        ∀ r v, node.cx.voteChain.lookup r = some v →
          v.round = r ∧
            SignedBy (smallConfig 1) firstVoteProduced
              node.cx.signed
              (Leaders.leaderAt Digest 3 1 r)
              (.hash v.digest) := by
  have hRun :
      Machine.runCheck step checkedCheck
        (fun node => decide (node.cx.round = 3))
        (Node.new (smallConfig 1)) parkedRun = true := by
    decide +kernel
  rcases Machine.Reach.of_runCheck
      (fun _ _ hCheck => checkedStep_of_checkedCheck hCheck)
      hRun with ⟨node, hReach, hRound⟩
  exact ⟨node, hReach, of_decide_eq_true hRound,
    votes_signed Digest.collisionFree hReach⟩

end Artemis

end LibApollo
