import LibApollo.Apollo.Invariant
import LibApollo.Types.Symbolic

/-
  Commits of an Apollo node under arbitrary messages.

  `delivery_check` stores a block also while its parent is
  missing, and no check compares an accepted block with the
  last accepted one.  Commits are safe in the runs that
  avoid these two situations: they never stop the node when
  every accepted block has its ancestry delivered, and they
  stay on one branch when every accepted block extends the
  last seen block.

  Key definitions include:
    * `GroundedStep`, `GroundInv`
    * `ExtendingStep`, `BranchInv`

  Key theorems include:
    * `commit_never_fails`
    * `committed_related`
-/

------------------------------------------------------------
-- Grounded Acceptance
------------------------------------------------------------

namespace LibApollo

namespace Apollo

open Ancestry

variable {H : Type} [DecidableEq H] [Crypto H]

/- All ancestors of `hash` down to genesis are delivered. -/
def Complete (cx : Context H) (hash : H) : Prop :=
  Grounded cx.storage.parent Crypto.emptyHash hash

/-
  A decoded message, and no block is considered whose
  ancestry has a gap.
-/
def GroundedStep
    (node : Node H)
    (event : Event H) : Prop :=
  Decoded event ∧
    ∀ p block, StepConsiders node event p block →
      Complete node.cx block.header.prev

structure GroundInv (cx : Context H) : Prop where
  accepted :
    ∀ r p, cx.propChainByRound.lookup r = some p →
      Complete cx p.blockHash
  lastSeen : Complete cx cx.lastSeenBlock.hash

theorem Complete.of_prev
    {cx : Context H}
    {block : Block H}
    (hStored :
      cx.storage.deliveredBlockFromHash block.hash =
        some block)
    (hPrev : Complete cx block.header.prev) :
    Complete cx block.hash :=
  Grounded.step (Storage.parent_of_delivered hStored) hPrev

theorem Complete.mono
    {cx cx' : Context H}
    {hash : H}
    (hMono :
      ∀ u v, cx.storage.parent u = some v →
        cx'.storage.parent u = some v)
    (hComplete : Complete cx hash) :
    Complete cx' hash :=
  Grounded.mono hMono hComplete

/- The commit walk succeeds from a complete ancestry. -/
theorem Complete.commitWalk_isSome
    {cx : Context H}
    {hash : H}
    (hChain : ChainInv cx)
    (hComplete : Complete cx hash) :
    (cx.storage.commitWalk hash).isSome := by
  apply Storage.commitWalk_isSome (Complete cx) hComplete
  intro other hOther
  cases hOther with
  | root =>
      exact ⟨_, Storage.parent_of_delivered hChain.genesis,
        Grounded.root⟩
  | step hParent hAbove => exact ⟨_, hParent, hAbove⟩

/- An acceptance cannot fail on a complete chain. -/
theorem GroundInv.acceptProposal_ne_error
    {cx : Context H}
    {p : Propose H}
    {block : Block H}
    (hGround : GroundInv cx)
    (hChain : ChainInv cx)
    (hRound : p.round = cx.round)
    (hComplete : Complete cx p.blockHash)
    (panic : Panic) :
    acceptProposal p block cx ≠ .error panic := by
  intro hError
  rcases acceptProposal_error hError with
    ⟨hDue, ⟨_, hNone⟩ | ⟨_, q, hEntry, hWalk⟩⟩
  · rw [FinMap.lookup_insert_eq] at hNone
    split at hNone
    · cases hNone
    · rename_i hOther
      have hPassed :
          1 ≤ cx.round - cx.numFaults ∧
            cx.round - cx.numFaults < cx.round := by
        omega
      rcases (hChain.keys _).mpr hPassed with ⟨q, hEntry⟩
      rw [hNone] at hEntry
      cases hEntry
  · have hAncestry : Complete cx q.blockHash := by
      rw [FinMap.lookup_insert_eq] at hEntry
      split at hEntry
      · cases hEntry
        exact hComplete
      · exact hGround.accepted _ q hEntry
    have hSome := hAncestry.commitWalk_isSome hChain
    rw [hWalk] at hSome
    cases hSome

theorem GroundInv.accepted_step
    {cx cx' : Context H}
    {p : Propose H}
    {block : Block H}
    (hGround : GroundInv cx)
    (hHash : block.hash = p.blockHash)
    (hComplete : Complete cx block.hash)
    (hAccepted : Accepted p block cx cx') :
    GroundInv cx' := by
  rcases hAccepted with
    ⟨storage, _, _, _, _, hOutcome, rfl⟩
  have hMono :
      ∀ u v, cx.storage.parent u = some v →
        storage.parent u = some v := by
    intro u v hParent
    rw [Storage.parent, hOutcome.delivered_eq]
    exact hParent
  constructor
  · intro r q hLookup
    rw [FinMap.lookup_insert_eq] at hLookup
    split at hLookup
    · cases hLookup
      rw [← hHash]
      exact Grounded.mono hMono hComplete
    · exact Grounded.mono hMono
        (hGround.accepted r q hLookup)
  · exact Grounded.mono hMono hComplete

theorem GroundInv.effects
    {scope : Scope H}
    {acc : Propose H → Block H → Prop}
    {cx cx' : Context H}
    (hFree : CollisionFree H)
    (hProper : scope.Proper)
    (hData : Data scope cx)
    (hGround : GroundInv cx)
    (hAcc :
      ∀ p block, acc p block →
        Complete cx block.header.prev)
    (hEffects : Effects scope acc cx cx') :
    GroundInv cx' := by
  induction hEffects with
  | refl => exact hGround
  | @tail mid cx' hBefore hEffect ih =>
      rcases hEffect.sameChain_or_accepts with
        hSame | ⟨p, block, -, hAllowed, hAcceptable,
          hStored, hAccepted⟩
      · have hMono :=
          Effects.parent_mono hFree hProper
            (hData.effects hBefore)
            (Relation.ReflTransGen.single hEffect)
        constructor
        · intro r p hLookup
          rw [hSame.byRound] at hLookup
          exact (ih.accepted r p hLookup).mono hMono
        · rw [hSame.lastSeen]
          exact ih.lastSeen.mono hMono
      · have hMono :=
          Effects.parent_mono hFree hProper hData hBefore
        exact ih.accepted_step hAcceptable.2.1
          (Complete.of_prev hStored
            ((hAcc p block hAllowed).mono hMono))
          hAccepted

/- Proposing keeps the parents of the blocks. -/
theorem Data.proposing_mono
    {cx : Context H}
    (hFree : CollisionFree H)
    (hData : Data (networkScope H) cx)
    (batchHash : H)
    (batch : Batch) :
    ∀ u v, cx.storage.parent u = some v →
      (Apollo.proposing batchHash batch
        cx).storage.parent u = some v := by
  intro u v hParent
  exact hData.parent_mono hFree networkScope_proper
    (newBlock_ok cx batchHash) hParent

/- The own block extends the last seen one. -/
theorem GroundInv.proposing
    {cx : Context H}
    {batchHash : H}
    {batch : Batch}
    (hFree : CollisionFree H)
    (hData : Data (networkScope H) cx)
    (hGround : GroundInv cx) :
    GroundInv (proposing batchHash batch cx) ∧
      Complete (proposing batchHash batch cx)
        (newBlock cx batchHash).hash := by
  have hMono :=
    hData.proposing_mono hFree batchHash batch
  refine ⟨⟨?_, hGround.lastSeen.mono hMono⟩, ?_⟩
  · intro r p hLookup
    exact (hGround.accepted r p hLookup).mono hMono
  · exact Complete.of_prev (proposing_delivered _ _ _)
      (hGround.lastSeen.mono hMono)

end Apollo

end LibApollo

------------------------------------------------------------
-- Commits Do Not Fail
------------------------------------------------------------

namespace LibApollo

namespace Apollo

open Ancestry

variable {H : Type} [DecidableEq H] [Crypto H]

/- The state in which the leader loop proposes. -/
theorem NodeInv.groundedProposal
    {node : Node H}
    {batchHash : H}
    {batch : Batch}
    {rest : List (H × Batch)}
    (hFree : CollisionFree H)
    (hInv : NodeInv node)
    (hGround : GroundInv node.cx) :
    GroundInv
        (proposing batchHash batch
          { node.cx with pendingBatches := rest }) ∧
      Complete
        (proposing batchHash batch
          { node.cx with pendingBatches := rest })
        (newBlock
          { node.cx with pendingBatches := rest }
          batchHash).hash := by
  have hData :
      Data (networkScope H)
        { node.cx with pendingBatches := rest } :=
    { hInv.data with }
  have hRest :
      GroundInv { node.cx with pendingBatches := rest } :=
    ⟨hGround.accepted, hGround.lastSeen⟩
  exact hRest.proposing hFree hData

/- A grounded step keeps the accepted chain complete. -/
theorem GroundInv.step
    {node node' : Node H}
    {event : Event H}
    (hFree : CollisionFree H)
    (hInv : NodeInv node)
    (hGround : GroundInv node.cx)
    (hEvent : GroundedStep node event)
    (hStep : step node event = .ok node') :
    GroundInv node'.cx := by
  rcases step_ok hInv.data hEvent.1 hStep with
    hEffects | ⟨batchHash, batch, rest, -, -, hAccepted⟩
  · exact hGround.effects hFree networkScope_proper
      hInv.data hEvent.2 hEffects
  · rcases hInv.groundedProposal hFree hGround with
      ⟨hBefore, hComplete⟩
    exact hBefore.accepted_step rfl hComplete hAccepted

theorem groundInv_new
    (config : Config) :
    GroundInv (Node.new config : Node H).cx where
  accepted := by
    intro r p hLookup
    simp [Node.new, Context.new, Context.tellBatcher]
      at hLookup
  lastSeen := Grounded.root

/- The accepted chain is complete in every grounded run. -/
theorem groundInv_of_reach
    {config : Config}
    {node : Node H}
    (hFree : CollisionFree H)
    (hReach :
      Machine.Reach step GroundedStep (Node.new config)
        node) :
    NodeInv node ∧ GroundInv node.cx := by
  apply hReach.invariant
    (fun node => NodeInv node ∧ GroundInv node.cx)
  · exact ⟨nodeInv_new config, groundInv_new config⟩
  · intro s s' event hParts hEvent hStep
    rcases hParts with ⟨hInv, hGround⟩
    exact ⟨hInv.step hFree hEvent.1 hStep,
      hGround.step hFree hInv hEvent hStep⟩

/- No acceptance fails in a grounded step. -/
theorem GroundInv.step_error
    {node : Node H}
    {event : Event H}
    {panic : Panic}
    (hFree : CollisionFree H)
    (hInv : NodeInv node)
    (hGround : GroundInv node.cx)
    (hEvent : GroundedStep node event)
    (hStep : Apollo.step node event = .error panic) :
    panic = .pubKey := by
  rcases Apollo.step_error hInv.data hEvent.1 hStep with
    hFailure | ⟨batchHash, batch, rest, _, hAccept⟩
  · cases hFailure with
    | blame hMem => exact (hInv.data.otherBuf _ hMem).elim
    | pubKey _ _ _ => rfl
    | childBlock hLookup hNone =>
        rcases hInv.chain.waiting _ _ hLookup with
          ⟨block, hStored⟩
        rw [hNone] at hStored
        cases hStored
    | @commit mid p block _ hEffects hPair hAcceptable
        hStored hAccept =>
        have hBefore :=
          hGround.effects hFree networkScope_proper
            hInv.data hEvent.2 hEffects
        have hChain :=
          hInv.chain.effects hFree networkScope_proper
            hInv.data hEffects
        have hMono :=
          Effects.parent_mono hFree networkScope_proper
            hInv.data hEffects
        have hComplete : Complete mid block.hash :=
          Complete.of_prev hStored
            ((hEvent.2 p block hPair).mono hMono)
        rw [hAcceptable.2.1] at hComplete
        exact absurd hAccept
          (hBefore.acceptProposal_ne_error hChain
            hAcceptable.1 hComplete panic)
  · rcases hInv.groundedProposal hFree hGround with
      ⟨hBefore, hComplete⟩
    rcases hInv.proposes hFree with ⟨_, hChain⟩
    exact absurd hAccept
      (hBefore.acceptProposal_ne_error hChain rfl
        hComplete panic)

/-
  While every block considered has its ancestry delivered,
  each passed round holds a proposal with a complete
  ancestry, and no commit stops the node.
-/
theorem commit_never_fails
    {config : Config}
    {node : Node H}
    (hFree : CollisionFree H)
    (hReach :
      Machine.Reach step GroundedStep (Node.new config)
        node) :
    (∀ r, 1 ≤ r → r < node.cx.round →
        ∃ p, node.cx.propChainByRound.lookup r = some p ∧
          Complete node.cx p.blockHash) ∧
      ∀ event, GroundedStep node event →
        step node event ≠ .error .commitRound ∧
          step node event ≠ .error .commitBlock := by
  rcases groundInv_of_reach hFree hReach with
    ⟨hInv, hGround⟩
  constructor
  · intro r hPos hPassed
    rcases (hInv.chain.keys r).mpr ⟨hPos, hPassed⟩ with
      ⟨p, hLookup⟩
    exact ⟨p, hLookup, hGround.accepted r p hLookup⟩
  · intro event hEvent
    constructor
    · intro hStep
      cases hGround.step_error hFree hInv hEvent hStep
    · intro hStep
      cases hGround.step_error hFree hInv hEvent hStep

end Apollo

end LibApollo

------------------------------------------------------------
-- A Commit over a Gap
------------------------------------------------------------

namespace LibApollo

namespace Apollo

variable {H : Type} [DecidableEq H] [Crypto H]

def decodedCheck : Event H → Bool
| .recv (.newProposal _ block _) =>
    decide block.WellHashed
| .recv (.response _ _ _ block _) =>
    decide block.WellHashed
| .recv (.blame _) => false
| _ => true

omit [DecidableEq H] in
theorem decoded_of_decodedCheck
    [DecidableEq H]
    {event : Event H}
    (hCheck : decodedCheck event = true) :
    Decoded event := by
  intro msg hEq
  subst hEq
  cases msg with
  | newProposal p block batch =>
      exact ⟨trivial, Or.inr (of_decide_eq_true hCheck)⟩
  | relay sender p => trivial
  | request sender reqId hash => trivial
  | response sender reqId p block batch =>
      exact ⟨trivial, Or.inr (of_decide_eq_true hCheck)⟩
  | blame v => cases hCheck

/- Three replicas, of which one may be faulty. -/
def smallConfig (id : Replica) : Config where
  id := id
  numNodes := 3
  numFaults := 1
  pkMap := Digest.keyMap [0, 1, 2]
  secretKeyBytes := Digest.keyOf id
  benchMetricsNode := 0

/- A replica proposes a block in a round. -/
def proposed
    (leader round : Nat)
    (block : Block Digest) : Event Digest :=
  .recv
    (.newProposal
      (Propose.signed (Digest.keyOf leader) leader round
        block.hash)
      block oneBatch)

/- The node is handed a batch to propose. -/
def handBatch : Event Digest :=
  .batch oneBatch.hash oneBatch

/- The first replica's block, and the chain above it. -/
def firstBlock : Block Digest :=
  Digest.blockOn Block.genesis 0 1

def orphanBlock : Block Digest :=
  Digest.blockOn firstBlock 0 2

def childBlock : Block Digest :=
  Digest.blockOn orphanBlock 0 3

/-
  The leader of round 1 keeps its first block to itself and
  sends the second and, for round 1, the third; the node
  then proposes in round 2.
-/
def gapRun : List (Event Digest) :=
  [proposed 0 1 orphanBlock, proposed 0 1 childBlock] ++
    List.replicate 9 .internal ++ [handBatch]

def failsOnBlock (node : Node Digest) : Bool :=
  match step node .internal with
  | .error panic => decide (panic = .commitBlock)
  | .ok _ => false

/- The node stops at a commit over the missing block. -/
theorem commit_fails_over_gap :
    CollisionFree Digest ∧
      ∃ node : Node Digest,
        Machine.Reach step (fun _ event => Decoded event)
            (Node.new (smallConfig 1)) node ∧
          step node .internal = .error .commitBlock := by
  refine ⟨Digest.collisionFree, ?_⟩
  have hRun :
      Machine.runCheck step
        (fun _ event => decodedCheck event) failsOnBlock
        (Node.new (smallConfig 1)) gapRun = true := by
    decide +kernel
  rcases Machine.Reach.of_runCheck
      (fun _ _ hCheck => decoded_of_decodedCheck hCheck)
      hRun with ⟨node, hReach, hFails⟩
  refine ⟨node, hReach, ?_⟩
  unfold failsOnBlock at hFails
  split at hFails
  · rename_i panic hStep
    rw [hStep, of_decide_eq_true hFails]
  · cases hFails

/- Blocks that are considered lie right above genesis. -/
def groundedCheck
    (node : Node Digest)
    (event : Event Digest) : Bool :=
  decodedCheck event &&
    match candidate node with
    | none => true
    | some (_, block) =>
        decide (block.header.prev = Crypto.emptyHash)

theorem groundedStep_of_groundedCheck
    {node : Node Digest}
    {event : Event Digest}
    (hCheck : groundedCheck node event = true) :
    GroundedStep node event := by
  simp only [groundedCheck, Bool.and_eq_true] at hCheck
  refine ⟨decoded_of_decodedCheck hCheck.1, ?_⟩
  intro p block hParts
  rcases hParts with ⟨_, hCandidate, _⟩
  rw [hCandidate] at hCheck
  rw [of_decide_eq_true hCheck.2]
  exact Ancestry.Grounded.root

/- The leader of round 1 proposes, then the node commits. -/
def groundedRun : List (Event Digest) :=
  [proposed 0 1 firstBlock] ++
    List.replicate 8 .internal ++ [handBatch, .internal]

theorem commit_never_fails_third_round :
    ∃ node : Node Digest,
      Machine.Reach step GroundedStep
          (Node.new (smallConfig 1)) node ∧
        node.cx.round = 3 ∧
        (∀ r, 1 ≤ r → r < node.cx.round →
          ∃ p,
            node.cx.propChainByRound.lookup r = some p ∧
              Complete node.cx p.blockHash) ∧
          ∀ event, GroundedStep node event →
            step node event ≠ .error .commitRound ∧
              step node event ≠ .error .commitBlock := by
  have hRun :
      Machine.runCheck step groundedCheck
        (fun node => decide (node.cx.round = 3))
        (Node.new (smallConfig 1)) groundedRun = true := by
    decide +kernel
  rcases Machine.Reach.of_runCheck
      (fun _ _ hCheck =>
        groundedStep_of_groundedCheck hCheck)
      hRun with ⟨node, hReach, hRound⟩
  exact ⟨node, hReach, of_decide_eq_true hRound,
    commit_never_fails Digest.collisionFree hReach⟩

end Apollo

end LibApollo

------------------------------------------------------------
-- Extending Acceptance
------------------------------------------------------------

namespace LibApollo

namespace Apollo

open Ancestry

variable {H : Type} [DecidableEq H] [Crypto H]

/- The block is the last seen one or lies above it. -/
def ExtendsLastSeen
    (cx : Context H)
    (block : Block H) : Prop :=
  block = cx.lastSeenBlock ∨
    Ancestor cx.storage.parent cx.lastSeenBlock.hash
      block.header.prev

/-
  A decoded message, and no block is considered that leaves
  the branch of the last seen block.
-/
def ExtendingStep
    (node : Node H)
    (event : Event H) : Prop :=
  Decoded event ∧
    ∀ p block, StepConsiders node event p block →
      ExtendsLastSeen node.cx block

/- Accepted and committed blocks are below the last seen. -/
structure BranchInv (cx : Context H) : Prop where
  accepted :
    ∀ r p, cx.propChainByRound.lookup r = some p →
      Ancestor cx.storage.parent p.blockHash
        cx.lastSeenBlock.hash
  committed :
    ∀ hash ∈ cx.storage.committedBlocksByHash,
      Ancestor cx.storage.parent hash cx.lastSeenBlock.hash

omit [Crypto H] in
/- An acceptance above the last seen block. -/
theorem BranchInv.accepted_step
    {cx cx' : Context H}
    {p : Propose H}
    {block : Block H}
    (hBranch : BranchInv cx)
    (hHash : block.hash = p.blockHash)
    (hAbove :
      Ancestor cx.storage.parent cx.lastSeenBlock.hash
        block.hash)
    (hAccepted : Accepted p block cx cx') :
    BranchInv cx' := by
  rcases hAccepted with
    ⟨storage, _, _, _, _, hOutcome, rfl⟩
  have hParent : storage.parent = cx.storage.parent := by
    funext hash
    rw [Storage.parent, Storage.parent,
      hOutcome.delivered_eq]
  have hEntry :
      ∀ r q,
        (cx.propChainByRound.insert p.round p).lookup r =
            some q →
          Ancestor cx.storage.parent q.blockHash
            block.hash := by
    intro r q hLookup
    rw [FinMap.lookup_insert_eq] at hLookup
    split at hLookup
    · cases hLookup
      rw [← hHash]
      exact Ancestor.refl
    · exact (hBranch.accepted r q hLookup).trans hAbove
  constructor
  · intro r q hLookup
    dsimp only at hLookup ⊢
    rw [hParent]
    exact hEntry r q hLookup
  · intro hash hMem
    dsimp only at hMem ⊢
    rw [hParent]
    rcases hOutcome with ⟨_, rfl⟩ | ⟨_, q, hLookup, hSpec⟩
    · exact (hBranch.committed hash hMem).trans hAbove
    · rcases hSpec.mem hash hMem with hOld | hWalked
      · exact (hBranch.committed hash hOld).trans hAbove
      · exact hWalked.trans (hEntry _ q hLookup)

omit [Crypto H] in
theorem ExtendsLastSeen.ancestor
    {cx : Context H}
    {block : Block H}
    (hStored :
      cx.storage.deliveredBlockFromHash block.hash =
        some block)
    (hExtends : ExtendsLastSeen cx block) :
    Ancestor cx.storage.parent cx.lastSeenBlock.hash
      block.hash := by
  rcases hExtends with hSame | hAbove
  · rw [hSame]
    exact Ancestor.refl
  · exact Ancestor.step
      (Storage.parent_of_delivered hStored) hAbove

omit [Crypto H] in
/- More known parents keep a branch. -/
theorem BranchInv.mono
    {cx cx' : Context H}
    (hMono :
      ∀ u v, cx.storage.parent u = some v →
        cx'.storage.parent u = some v)
    (hSame : SameChain cx cx')
    (hBranch : BranchInv cx) :
    BranchInv cx' := by
  constructor
  · intro r p hLookup
    rw [hSame.byRound] at hLookup
    rw [hSame.lastSeen]
    exact (hBranch.accepted r p hLookup).mono hMono
  · intro hash hMem
    rw [hSame.committed] at hMem
    rw [hSame.lastSeen]
    exact (hBranch.committed hash hMem).mono hMono

theorem BranchInv.effects
    {scope : Scope H}
    {acc : Propose H → Block H → Prop}
    {cx cx' : Context H}
    (hFree : CollisionFree H)
    (hProper : scope.Proper)
    (hData : Data scope cx)
    (hBranch : BranchInv cx)
    (hAcc :
      ∀ p block, acc p block →
        p.round = cx.round ∧ ExtendsLastSeen cx block)
    (hEffects : Effects scope acc cx cx') :
    BranchInv cx' := by
  induction hEffects with
  | refl => exact hBranch
  | @tail mid cx' hBefore hEffect ih =>
      rcases hEffect.sameChain_or_accepts with
        hSame | ⟨p, block, -, hAllowed, hAcceptable,
          hStored, hAccepted⟩
      · exact ih.mono
          (Effects.parent_mono hFree hProper
            (hData.effects hBefore)
            (Relation.ReflTransGen.single hEffect))
          hSame
      · -- a step accepts in the round it starts in, where
        -- the last seen block is still the same
        rcases hAcc p block hAllowed with
          ⟨hRound, hExtends⟩
        have hLast : mid.lastSeenBlock = cx.lastSeenBlock :=
          (Effects.lastSeenBlock_eq hBefore).2
            (hAcceptable.1.symm.trans hRound)
        have hMoved : ExtendsLastSeen mid block := by
          rcases hExtends with hSame | hAbove
          · exact Or.inl (hSame.trans hLast.symm)
          · refine Or.inr ?_
            rw [hLast]
            exact hAbove.mono
              (Effects.parent_mono hFree hProper hData
                hBefore)
        exact ih.accepted_step hAcceptable.2.1
          (hMoved.ancestor hStored) hAccepted

/- The own block lies above the last seen one. -/
theorem BranchInv.proposing
    {cx : Context H}
    {batchHash : H}
    {batch : Batch}
    (hFree : CollisionFree H)
    (hData : Data (networkScope H) cx)
    (hBranch : BranchInv cx) :
    BranchInv (proposing batchHash batch cx) ∧
      Ancestor
        (Apollo.proposing batchHash batch
          cx).storage.parent
        cx.lastSeenBlock.hash
        (newBlock cx batchHash).hash := by
  have hMono :=
    hData.proposing_mono hFree batchHash batch
  refine ⟨hBranch.mono hMono ⟨rfl, rfl, rfl, rfl⟩, ?_⟩
  exact Ancestor.of_parent
    (Storage.parent_of_delivered
      (proposing_delivered _ _ _))

end Apollo

end LibApollo

------------------------------------------------------------
-- Commits Stay on One Branch
------------------------------------------------------------

namespace LibApollo

namespace Apollo

open Ancestry

variable {H : Type} [DecidableEq H] [Crypto H]

/- An extending step stays on the branch. -/
theorem BranchInv.step
    {node node' : Node H}
    {event : Event H}
    (hFree : CollisionFree H)
    (hInv : NodeInv node)
    (hBranch : BranchInv node.cx)
    (hEvent : ExtendingStep node event)
    (hStep : Apollo.step node event = .ok node') :
    BranchInv node'.cx := by
  rcases step_ok hInv.data hEvent.1 hStep with
    hEffects | ⟨batchHash, batch, rest, -, -, hAccepted⟩
  · refine hBranch.effects hFree networkScope_proper
      hInv.data ?_ hEffects
    intro p block hPair
    exact ⟨hPair.2.2.1, hEvent.2 p block hPair⟩
  · have hData :
        Data (networkScope H)
          { node.cx with pendingBatches := rest } :=
      { hInv.data with }
    have hRest :
        BranchInv
          { node.cx with pendingBatches := rest } :=
      ⟨hBranch.accepted, hBranch.committed⟩
    rcases hRest.proposing hFree hData with
      ⟨hBefore, hAbove⟩
    exact hBefore.accepted_step rfl hAbove hAccepted

theorem branchInv_new
    (config : Config) :
    BranchInv (Node.new config : Node H).cx := by
  constructor
  · intro r p hLookup
    simp [Node.new, Context.new, Context.tellBatcher]
      at hLookup
  · intro hash hMem
    simp [Node.new, Context.new, Context.tellBatcher]
      at hMem

/-
  While every block considered extends the last seen one,
  the committed blocks form a single chain.
-/
theorem committed_related
    {config : Config}
    {node : Node H}
    (hFree : CollisionFree H)
    (hReach :
      Machine.Reach step ExtendingStep (Node.new config)
        node) :
    ∀ left ∈ node.cx.storage.committedBlocksByHash,
      ∀ right ∈ node.cx.storage.committedBlocksByHash,
        Related node.cx.storage.parent left right := by
  have hBoth : NodeInv node ∧ BranchInv node.cx := by
    apply hReach.invariant
      (fun node => NodeInv node ∧ BranchInv node.cx)
    · exact ⟨nodeInv_new config, branchInv_new config⟩
    · intro s s' event hParts hEvent hStep
      rcases hParts with ⟨hInv, hBranch⟩
      exact ⟨hInv.step hFree hEvent.1 hStep,
        hBranch.step hFree hInv hEvent hStep⟩
  intro left hLeft right hRight
  exact (hBoth.2.committed left hLeft).related
    (hBoth.2.committed right hRight)

end Apollo

end LibApollo

------------------------------------------------------------
-- A Committed Fork
------------------------------------------------------------

namespace LibApollo

namespace Apollo

open Ancestry

/- The second leader ignores the block of the first. -/
def forkBlock : Block Digest :=
  Digest.blockOn Block.genesis 1 1

/-
  The leaders of rounds 1 and 2 both propose on genesis and
  the node itself proposes in round 3.
-/
def forkRun : List (Event Digest) :=
  [proposed 0 1 firstBlock] ++
    List.replicate 8 .internal ++
    [proposed 1 2 forkBlock] ++
    List.replicate 8 .internal ++ [handBatch, .internal]

def committedFork (node : Node Digest) : Bool :=
  decide
    (firstBlock.hash ∈
        node.cx.storage.committedBlocksByHash ∧
      forkBlock.hash ∈
        node.cx.storage.committedBlocksByHash ∧
      node.cx.storage.parent firstBlock.hash = some [] ∧
      node.cx.storage.parent forkBlock.hash = some [] ∧
      node.cx.storage.parent [] = some [])

/- Both blocks on genesis are committed. -/
theorem committed_fork :
    CollisionFree Digest ∧
      ∃ node : Node Digest,
        Machine.Reach step (fun _ event => Decoded event)
            (Node.new (smallConfig 2)) node ∧
          ∃ left ∈ node.cx.storage.committedBlocksByHash,
            ∃ right ∈
                node.cx.storage.committedBlocksByHash,
              ¬ Related node.cx.storage.parent
                left right := by
  refine ⟨Digest.collisionFree, ?_⟩
  have hRun :
      Machine.runCheck step
        (fun _ event => decodedCheck event) committedFork
        (Node.new (smallConfig 2)) forkRun = true := by
    decide +kernel
  rcases Machine.Reach.of_runCheck
      (fun _ _ hCheck => decoded_of_decodedCheck hCheck)
      hRun with ⟨node, hReach, hFork⟩
  rcases of_decide_eq_true hFork with
    ⟨hFirst, hSecond, hParent, hParent', hRoot⟩
  refine ⟨node, hReach, _, hFirst, _, hSecond, ?_⟩
  exact Ancestor.not_related_of_root hParent hParent' hRoot
    (by decide +kernel) (by decide +kernel)
    (by decide +kernel)

/- Blocks that are considered are right above the last. -/
def extendingCheck
    (node : Node Digest)
    (event : Event Digest) : Bool :=
  decodedCheck event &&
    match candidate node with
    | none => true
    | some (_, block) =>
        decide (block.header.prev =
          node.cx.lastSeenBlock.hash)

theorem extendingStep_of_extendingCheck
    {node : Node Digest}
    {event : Event Digest}
    (hCheck : extendingCheck node event = true) :
    ExtendingStep node event := by
  simp only [extendingCheck, Bool.and_eq_true] at hCheck
  refine ⟨decoded_of_decodedCheck hCheck.1, ?_⟩
  intro p block hParts
  rcases hParts with ⟨_, hCandidate, _⟩
  rw [hCandidate] at hCheck
  rw [ExtendsLastSeen, of_decide_eq_true hCheck.2]
  exact Or.inr Ancestor.refl

theorem committed_related_third_round :
    ∃ node : Node Digest,
      Machine.Reach step ExtendingStep
          (Node.new (smallConfig 1)) node ∧
        firstBlock.hash ∈
          node.cx.storage.committedBlocksByHash ∧
        ∀ left ∈ node.cx.storage.committedBlocksByHash,
          ∀ right ∈ node.cx.storage.committedBlocksByHash,
            Related node.cx.storage.parent left right := by
  have hRun :
      Machine.runCheck step extendingCheck
        (fun node =>
          decide (firstBlock.hash ∈
            node.cx.storage.committedBlocksByHash))
        (Node.new (smallConfig 1)) groundedRun = true := by
    decide +kernel
  rcases Machine.Reach.of_runCheck
      (fun _ _ hCheck =>
        extendingStep_of_extendingCheck hCheck)
      hRun with ⟨node, hReach, hMem⟩
  exact ⟨node, hReach, of_decide_eq_true hMem,
    committed_related Digest.collisionFree hReach⟩

end Apollo

end LibApollo
