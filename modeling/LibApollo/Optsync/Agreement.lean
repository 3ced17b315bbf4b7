import LibApollo.Optsync.Refinement
import LibApollo.Base.Network
import LibApollo.Types.LeaderChain

/-
  Agreement of Opt Sync under an honest leader.

  Honest nodes run the code and everyone else may send them
  anything, in any order, except proposals that the leader
  has not signed.  Every branch that accepts a proposal
  checks the leader's signature, and a leader holds every
  block it has signed, so no message can move the leader and
  all blocks are on the chain it builds.

  Key definitions include:
    * `Admissible`
    * `Builder`, `Follower`
    * `SystemInv`

  Key theorems include:
    * `Builder.step`, `Follower.step`
    * `SystemInv.step`
    * `leader_chain_agreement`
-/

------------------------------------------------------------
-- The Leader and Its Chain
------------------------------------------------------------

namespace LibApollo

namespace Optsync

open Synchs

variable {H : Type} [DecidableEq H] [Crypto H]
variable {ledger ledger' : Ledger H}
variable {event : Event H}

/- The ledger of a leader with the chain it has built. -/
structure Builder
    (leader : Replica)
    (chain : Nat → Block H)
    (top : Nat)
    (ledger : Ledger H) : Prop where
  leads : ledger.Leads
  myid : ledger.myid = leader
  main : LeaderChain leader chain top
  proposed :
    proposedBlocks ledger.multicasts =
      LeaderChain.blocks chain top
  lastSeen : ledger.lastSeenBlock = chain top
  signed :
    ∀ hash,
      SignData.hash hash ∈ ledger.signed →
        ∃ block ∈ proposedBlocks ledger.multicasts,
          block.hash = hash

/- A proposal puts one block on top of the chain. -/
theorem Builder.propose
    {leader : Replica}
    {chain : Nat → Block H}
    {top : Nat}
    {p : Propose H}
    {block : Block H}
    {batchHash : H}
    {batch : Batch}
    {rest : List (H × Batch)}
    (hBuilder : Builder leader chain top ledger)
    (hBuilds : ledger.Builds batchHash p block)
    (hLeads :
      (ledger.propose true p block batch rest).Leads) :
    Builder leader
      (Function.update chain (top + 1) block) (top + 1)
      (ledger.propose true p block batch rest) := by
  have hBlock := hBuilds.built
  rw [hBuilder.lastSeen, hBuilder.myid,
    hBuilder.main.height_eq (Nat.le_refl top)] at hBlock
  have hProposed :
      proposedBlocks
          (ledger.propose true p block batch
            rest).multicasts =
        proposedBlocks ledger.multicasts ++ [block] :=
    proposedBlocks_append_newProposal _ _ _ _
  refine
    { leads := hLeads
      myid := hBuilder.myid
      main := ?_
      proposed := ?_
      lastSeen := ?_
      signed := ?_ }
  · apply hBuilder.main.extend
    · rw [hBlock]
      exact Block.extending_wellHashed _ _ _ _
    · rw [hBlock, Block.extending_prev]
    · rw [hBlock, Block.extending_height]
    · rw [hBlock, Block.extending_author]
  · rw [hProposed, hBuilder.proposed,
      LeaderChain.blocks_update]
  · rw [Function.update_self]
    rfl
  · intro hash hSigned
    rw [hProposed]
    simp only [Synchs.Ledger.propose, List.mem_append,
      List.mem_cons, SignData.hash.injEq, reduceCtorEq,
      List.not_mem_nil, or_false] at hSigned
    rcases hSigned with hOld | rfl
    · rcases hBuilder.signed hash hOld with
        ⟨other, hMem, hHash⟩
      exact ⟨other, List.mem_append_left _ hMem, hHash⟩
    · exact ⟨block,
        List.mem_append_right _ (List.mem_singleton_self _),
        rfl⟩

/- The leader builds on whatever happens. -/
theorem Builder.step
    {leader : Replica}
    {chain : Nat → Block H}
    {top : Nat}
    (hBuilder : Builder leader chain top ledger)
    (hUnforged :
      ∀ publicKey,
        ledger.pubKeyMap.lookup ledger.myid =
            some publicKey →
          Unforged publicKey ledger.signed event)
    (hStep : ledger.Step true event ledger') :
    ∃ chain' top', Builder leader chain' top' ledger' := by
  have hLeads := hBuilder.leads.step hUnforged hStep
  cases hStep with
  | deliver p block batch myVote hEvent hValid =>
      exact absurd hValid
        (hBuilder.leads.not_valid hUnforged hEvent)
  | propose p block batchHash batch rest _ _ hBuilds =>
      exact ⟨_, _, hBuilder.propose hBuilds hLeads⟩
  | skip => exact ⟨chain, top, hBuilder⟩
  | queue =>
      exact ⟨chain, top,
        { hBuilder with leads := hLeads }⟩
  | commit =>
      exact ⟨chain, top,
        { hBuilder with leads := hLeads }⟩

end Optsync

end LibApollo

------------------------------------------------------------
-- Nodes That Follow the Leader
------------------------------------------------------------

namespace LibApollo

namespace Optsync

open Synchs

variable {H : Type} [DecidableEq H] [Crypto H]
variable {ledger ledger' : Ledger H}
variable {event : Event H}

/- A received block carries the hash of its content. -/
def Decoded (event : Event H) : Prop :=
  ∀ p block batch,
    event = .recv (.newProposal p block batch) →
      block.WellHashed

/-
  The ledger of an honest node: beside genesis it holds
  blocks of the leader only.
-/
structure Follower
    (id : Replica)
    (keys : FinMap Replica Bytes)
    (blocks : List (Block H))
    (ledger : Ledger H) : Prop where
  myid : ledger.myid = id
  leader : ledger.leader = 0
  view : ledger.view = 0
  pubKeyMap : ledger.pubKeyMap = keys
  delivered :
    ∀ hash block,
      ledger.storage.deliveredBlockFromHash hash =
          some block →
        block = Block.genesis ∨ block ∈ blocks
  committed :
    ∀ hash ∈ ledger.storage.committedBlocksByHash,
      ledger.storage.isDeliveredByHash hash = true

namespace Follower

variable {id : Replica}
variable {keys : FinMap Replica Bytes}
variable {blocks : List (Block H)}

theorem addDelivered
    {block : Block H}
    (hFollower : Follower id keys blocks ledger)
    (hBlock : block ∈ blocks) :
    (∀ hash stored,
        (ledger.storage.addDeliveredBlock
            block).deliveredBlockFromHash hash =
            some stored →
          stored = Block.genesis ∨ stored ∈ blocks) ∧
      ∀ hash ∈ ledger.storage.committedBlocksByHash,
        (ledger.storage.addDeliveredBlock
          block).isDeliveredByHash hash = true := by
  constructor
  · exact Storage.forall_addDeliveredBlock
      hFollower.delivered (Or.inr hBlock)
  · intro hash hCommitted
    exact Storage.isDeliveredByHash_addDeliveredBlock
      (Or.inr (hFollower.committed hash hCommitted))

/- The leader may have built more blocks. -/
theorem mono
    {blocks' : List (Block H)}
    (hFollower : Follower id keys blocks ledger)
    (hMore : ∀ block ∈ blocks, block ∈ blocks') :
    Follower id keys blocks' ledger :=
  { hFollower with
    delivered := fun hash block hLookup =>
      (hFollower.delivered hash block hLookup).imp_right
        (hMore block) }

/- A block that a node accepts is one of the leader. -/
theorem mem_of_valid
    {p : Propose H}
    {block : Block H}
    {batch : Batch}
    {signed : List (SignData H)}
    (hFree : CollisionFree H)
    (hFollower : Follower id keys blocks ledger)
    (hWell : ∀ block ∈ blocks, block.WellHashed)
    (hSigned :
      ∀ hash,
        SignData.hash hash ∈ signed →
          ∃ block ∈ blocks, block.hash = hash)
    (hDecoded : Decoded event)
    (hUnforged :
      ∀ publicKey,
        keys.lookup 0 = some publicKey →
          Unforged publicKey signed event)
    (hEvent : event = .recv (.newProposal p block batch))
    (hValid : ledger.Valid p block) :
    block ∈ blocks := by
  rcases hValid.proof with ⟨publicKey, hKey, hVerify⟩
  rw [hValid.author, hFollower.view, Nat.zero_mod,
    hFollower.pubKeyMap] at hKey
  rcases hSigned block.hash
      (hUnforged publicKey hKey p block batch hEvent
        hVerify) with ⟨other, hOther, hHash⟩
  have hSame : other = block :=
    (hWell other hOther).eq_of_hash_eq hFree
      (hDecoded p block batch hEvent) hHash
  rw [← hSame]
  exact hOther

/-
  A step of a follower, where `blocks'` are the blocks of
  the leader after the step.
-/
theorem step
    {movesOn : Bool}
    {blocks' : List (Block H)}
    (hFollower : Follower id keys blocks ledger)
    (hMore : ∀ block ∈ blocks, block ∈ blocks')
    (hAccepted :
      ∀ p block batch,
        event = .recv (.newProposal p block batch) →
          ledger.Valid p block → block ∈ blocks)
    (hProposed :
      id = 0 →
        ∀ block ∈ proposedBlocks ledger'.multicasts,
          block ∈ blocks')
    (hStep : ledger.Step movesOn event ledger') :
    Follower id keys blocks' ledger' := by
  cases hStep with
  | skip => exact hFollower.mono hMore
  | queue => exact { hFollower.mono hMore with }
  | deliver p block batch myVote hEvent hValid =>
      have hBlock :=
        hMore block (hAccepted p block batch hEvent hValid)
      rcases (hFollower.mono hMore).addDelivered hBlock with
        ⟨hDelivered, hCommitted⟩
      exact
        { hFollower.mono hMore with
          delivered := hDelivered
          committed := hCommitted }
  | propose p block batchHash batch rest hSelf _ _ =>
      have hLeader : id = 0 := by
        rw [← hFollower.myid, ← hSelf, hFollower.leader]
      have hBlock : block ∈ blocks' := by
        apply hProposed hLeader
        apply mem_proposedBlocks.mpr
        exact ⟨p, batch,
          List.mem_append_right _
            (List.mem_singleton_self _)⟩
      rcases (hFollower.mono hMore).addDelivered hBlock with
        ⟨hDelivered, hCommitted⟩
      exact
        { hFollower.mono hMore with
          delivered := hDelivered
          committed := hCommitted }
  | commit block hLookup =>
      refine { hFollower.mono hMore with committed := ?_ }
      intro hash hCommitted
      rcases Finset.mem_insert.mp hCommitted with rfl | hOld
      · rw [Storage.isDeliveredByHash_iff]
        exact ⟨block, hLookup⟩
      · exact hFollower.committed hash hOld

end Follower

end Optsync

end LibApollo

------------------------------------------------------------
-- Agreement
------------------------------------------------------------

namespace LibApollo

namespace Optsync

open Synchs

variable {H : Type} [DecidableEq H] [Crypto H]
variable {honest : Finset Replica}
variable {keys : FinMap Replica Bytes}
variable {config : Replica → Config}
variable {g g' : Replica → Node (Context H)}

/-
  What the network may do to an honest node: hand it any
  decoded message in which the leader's signature on a block
  is the leader's.
-/
def Admissible
    (honest : Finset Replica)
    (keys : FinMap Replica Bytes)
    (g : Replica → Node (Context H))
    (event : Replica × Event H) : Prop :=
  event.1 ∈ honest ∧
    Decoded event.2 ∧
    ∀ publicKey,
      keys.lookup 0 = some publicKey →
        Unforged publicKey (g 0).cx.signed event.2

/- The configurations of the honest nodes of one system. -/
def SystemConfig
    (honest : Finset Replica)
    (keys : FinMap Replica Bytes)
    (config : Replica → Config) : Prop :=
  0 ∈ honest ∧
    ∀ i ∈ honest,
      (config i).id = i ∧ (config i).pkMap = keys

/- The leader's chain and the honest nodes that follow it. -/
structure SystemInv
    (honest : Finset Replica)
    (keys : FinMap Replica Bytes)
    (chain : Nat → Block H)
    (top : Nat)
    (g : Replica → Node (Context H)) : Prop where
  leader : Builder 0 chain top (g 0).cx.toContext.ledger
  follower :
    ∀ i ∈ honest,
      Follower i keys (LeaderChain.blocks chain top)
        (g i).cx.toContext.ledger

theorem systemInv_new
    (hConfig : SystemConfig honest keys config) :
    SystemInv honest keys
      (fun _ => (Block.genesis : Block H)) 0
      (fun i => Node.new (config i)) := by
  refine ⟨?_, ?_⟩
  · refine
      { leads := ⟨?_, ?_⟩
        myid := (hConfig.2 0 hConfig.1).1
        main := LeaderChain.new 0
        proposed := rfl
        lastSeen := rfl
        signed := ?_ }
    · exact (Nat.zero_mod _).trans
        (hConfig.2 0 hConfig.1).1.symm
    · intro hash hSigned
      cases hSigned
    · intro hash hSigned
      cases hSigned
  · intro i hHonest
    refine
      { myid := (hConfig.2 i hHonest).1
        leader := rfl
        view := rfl
        pubKeyMap := (hConfig.2 i hHonest).2
        delivered := ?_
        committed := ?_ }
    · intro hash block hLookup
      exact Or.inl (Storage.eq_of_delivered_new hLookup)
    · intro hash hCommitted
      have hHash :
          hash =
            BlockTrait.getHash
              (Block.genesis : Block H) := by
        simpa [Node.new, Context.new, Synchs.Context.new,
          Synchs.Context.ledger] using hCommitted
      exact Storage.isDeliveredByHash_addDeliveredBlock
        (Or.inl hHash)

/- A block that an honest node accepts is of the leader. -/
theorem SystemInv.accepted
    {chain : Nat → Block H}
    {top : Nat}
    {i : Replica}
    {event : Event H}
    (hFree : CollisionFree H)
    (hInv : SystemInv honest keys chain top g)
    (hGuard : Admissible honest keys g (i, event))
    (p : Propose H)
    (block : Block H)
    (batch : Batch)
    (hEvent : event = .recv (.newProposal p block batch))
    (hValid : (g i).cx.toContext.ledger.Valid p block) :
    block ∈ LeaderChain.blocks chain top := by
  rcases hGuard with ⟨hHonest, hDecoded, hUnforged⟩
  refine (hInv.follower i hHonest).mem_of_valid hFree ?_ ?_
    hDecoded hUnforged hEvent hValid
  · intro other hOther
    rcases LeaderChain.mem_blocks.mp hOther with
      ⟨k, hBound, rfl⟩
    exact hInv.leader.main.wellHashed k hBound
  · rw [← hInv.leader.proposed]
    exact hInv.leader.signed

/- Every step of an honest node keeps the invariant. -/
theorem SystemInv.step
    {chain : Nat → Block H}
    {top : Nat}
    {event : Replica × Event H}
    (hFree : CollisionFree H)
    (hInv : SystemInv honest keys chain top g)
    (hGuard : Admissible honest keys g event)
    (hStep :
      Network.step Optsync.step g event = .ok g') :
    ∃ chain' top', SystemInv honest keys chain' top' g' := by
  rcases event with ⟨i, event⟩
  rcases Network.step_ok hStep with ⟨node, hNode, rfl⟩
  have hLedger := protocol_refines.step hNode
  have hFollower := hInv.follower i hGuard.1
  have hAccepted := hInv.accepted hFree hGuard
  by_cases hSelf : i = 0
  · -- the leader moves and the others stay
    subst hSelf
    have hUnforged :
        ∀ publicKey,
          (g 0).cx.pubKeyMap.lookup (g 0).cx.myid =
              some publicKey →
            Unforged publicKey (g 0).cx.signed event := by
      intro publicKey hKey
      apply hGuard.2.2
      have hKeys : (g 0).cx.pubKeyMap = keys :=
        hFollower.pubKeyMap
      have hId : (g 0).cx.myid = 0 := hFollower.myid
      rwa [hKeys, hId] at hKey
    rcases hInv.leader.step hUnforged hLedger with
      ⟨chain', top', hBuilder⟩
    have hMore :
        ∀ block ∈ LeaderChain.blocks chain top,
          block ∈ LeaderChain.blocks chain' top' := by
      intro block hBlock
      rw [← hInv.leader.proposed] at hBlock
      rw [← hBuilder.proposed]
      exact hLedger.proposed_mono hBlock
    refine ⟨chain', top', ?_, ?_⟩
    · rw [Function.update_self]
      exact hBuilder
    · intro j hHonest
      refine Network.at_update
        (fun node : Node (Context H) =>
          Follower j keys (LeaderChain.blocks chain' top')
            node.cx.toContext.ledger)
        ?_ ((hInv.follower j hHonest).mono hMore)
      intro hMoved
      subst hMoved
      refine hFollower.step hMore hAccepted ?_ hLedger
      intro _ block hBlock
      rw [← hBuilder.proposed]
      exact hBlock
  · -- another honest node moves and the chain stays
    refine ⟨chain, top, ?_, ?_⟩
    · rw [Function.update_of_ne (Ne.symm hSelf)]
      exact hInv.leader
    · intro j hHonest
      refine Network.at_update
        (fun node : Node (Context H) =>
          Follower j keys (LeaderChain.blocks chain top)
            node.cx.toContext.ledger)
        ?_ (hInv.follower j hHonest)
      intro hMoved
      subst hMoved
      exact hFollower.step (fun _ hBlock => hBlock)
        hAccepted (fun hZero => absurd hZero hSelf) hLedger

/-
  In every state of a system with an honest leader: every
  block beside genesis that an honest node has delivered was
  sent by the leader; the leader's blocks are one chain from
  genesis on, with consecutive heights; and the blocks that
  honest nodes have committed agree at every height.
-/
theorem leader_chain_agreement
    (hFree : CollisionFree H)
    (hConfig : SystemConfig honest keys config)
    (hReach :
      Machine.Reach (Network.step step)
        (Admissible honest keys)
        (fun i => Node.new (config i)) g) :
    (∀ i ∈ honest, ∀ hash block,
        (g i).cx.storage.deliveredBlockFromHash hash =
            some block →
          block ≠ Block.genesis →
          ∃ p batch,
            .newProposal p block batch ∈
              (g 0).cx.multicasts) ∧
      (∃ chain top,
        LeaderChain 0 chain top ∧
          proposedBlocks (g 0).cx.multicasts =
            LeaderChain.blocks chain top) ∧
      ∀ i ∈ honest, ∀ j ∈ honest,
        ∀ hash ∈ (g i).cx.storage.committedBlocksByHash,
          ∀ hash' ∈ (g j).cx.storage.committedBlocksByHash,
            ∃ block block',
              (g i).cx.storage.deliveredBlockFromHash hash =
                  some block ∧
                (g j).cx.storage.deliveredBlockFromHash
                    hash' = some block' ∧
                (block.header.height =
                    block'.header.height →
                  block = block') := by
  have hExists :
      ∃ chain top, SystemInv honest keys chain top g := by
    apply hReach.invariant
      (fun g =>
        ∃ chain top, SystemInv honest keys chain top g)
    · exact ⟨_, _, systemInv_new hConfig⟩
    · intro g g' event hParts hGuard hStep
      rcases hParts with ⟨chain, top, hInv⟩
      exact hInv.step hFree hGuard hStep
  rcases hExists with ⟨chain, top, hInv⟩
  have hMain := hInv.leader.main
  refine ⟨?_, ⟨chain, top, hMain, hInv.leader.proposed⟩, ?_⟩
  · intro i hHonest hash block hLookup hNe
    have hBlock :=
      ((hInv.follower i hHonest).delivered hash block
        hLookup).resolve_left hNe
    rw [← hInv.leader.proposed] at hBlock
    exact mem_proposedBlocks.mp hBlock
  · intro i hLeft j hRight hash hHash hash' hHash'
    have hFollower := hInv.follower i hLeft
    have hFollower' := hInv.follower j hRight
    rcases (Storage.isDeliveredByHash_iff _ _).mp
        (hFollower.committed hash hHash) with
      ⟨block, hLookup⟩
    rcases (Storage.isDeliveredByHash_iff _ _).mp
        (hFollower'.committed hash' hHash') with
      ⟨block', hLookup'⟩
    exact ⟨block, block', hLookup, hLookup',
      hMain.eq_of_height_eq
        (hFollower.delivered hash block hLookup)
        (hFollower'.delivered hash' block' hLookup')⟩

/- Executable form of `Admissible`. -/
def admissibleCheck
    (honest : Finset Replica)
    (keys : FinMap Replica Bytes)
    (g : Replica → Node (Context H))
    (event : Replica × Event H) : Bool :=
  decide (event.1 ∈ honest) &&
    (match event.2 with
    | .recv (.newProposal _ block _) =>
        decide block.WellHashed
    | _ => true) &&
    match keys.lookup 0 with
    | none => true
    | some publicKey =>
        unforgedCheck publicKey (g 0).cx.signed event.2

theorem admissible_of_admissibleCheck
    (g : Replica → Node (Context H))
    (event : Replica × Event H)
    (hCheck :
      admissibleCheck honest keys g event = true) :
    Admissible honest keys g event := by
  unfold admissibleCheck at hCheck
  rw [Bool.and_eq_true, Bool.and_eq_true] at hCheck
  rcases hCheck with ⟨⟨hHonest, hDecoded⟩, hUnforged⟩
  refine ⟨of_decide_eq_true hHonest, ?_, ?_⟩
  · intro p block batch hEvent
    rw [hEvent] at hDecoded
    exact of_decide_eq_true hDecoded
  · intro publicKey hKey
    rw [hKey] at hUnforged
    exact unforged_of_unforgedCheck hUnforged

end Optsync

end LibApollo

------------------------------------------------------------
-- A Run With a Faulty Replica
------------------------------------------------------------

namespace LibApollo

namespace Optsync

open Synchs

def firstBlock : Block Digest :=
  Digest.blockOn Block.genesis 0 1

def secondBlock : Block Digest :=
  Digest.blockOn firstBlock 0 2

/- The votes of replicas for a block in view 0. -/
def votesFor
    (origins : List Replica)
    (block : Block Digest) : Certificate Digest where
  msg := .vote 0 block.hash
  votes :=
    origins.map
      (fun origin =>
        { origin := origin
          auth :=
            Crypto.sign (Digest.keyOf origin)
              (.cert (.vote 0 block.hash)) })

/- The leader's proposal of a block. -/
def proposalOf
    (block : Block Digest)
    (cert : Certificate Digest) : Propose Digest where
  proof := Crypto.sign (Digest.keyOf 0) (.hash block.hash)
  cert := cert
  view := 0
  blockHash := block.hash

def firstProposal : Propose Digest :=
  proposalOf firstBlock (Certificate.emptyCert Digest)

def secondProposal : Propose Digest :=
  proposalOf secondBlock (votesFor [0, 1] firstBlock)

/-
  The leader proposes a block, replica 1 votes for it and
  the leader commits it by its certificate and proposes
  another.  The faulty replica 2 sends the leader its first
  proposal again and votes for a block of its own.  Replica
  1 commits the first block when its timer expires.
-/
def twoCommits : List (Replica × Event Digest) :=
  [(0, .batch oneBatch.hash oneBatch),
    (0, .internal), (0, .internal),
    (1, .recv
      (.newProposal firstProposal firstBlock oneBatch)),
    (1, .internal),
    (0, .recv
      (.newProposal firstProposal firstBlock oneBatch)),
    (0, .internal),
    (0, .recv
      (.voteMsg (votesFor [2] secondBlock) secondProposal)),
    (0, .internal),
    (0, .recv
      (.voteMsg (votesFor [1] firstBlock) firstProposal)),
    (0, .internal),
    (0, .batch oneBatch.hash oneBatch),
    (0, .internal),
    (1, .recv
      (.newProposal secondProposal secondBlock oneBatch)),
    (1, .internal),
    (1, .timer 0)]

theorem leader_chain_agreement_two_commits :
    ∃ g : Replica → Node (Context Digest),
      Machine.Reach (Network.step step)
          (Admissible {0, 1} (Digest.keyMap [0, 1, 2]))
          (fun i => Node.new (Config.small i)) g ∧
        firstBlock.hash ∈
          (g 0).cx.storage.committedBlocksByHash ∧
        firstBlock.hash ∈
          (g 1).cx.storage.committedBlocksByHash ∧
        (g 1).cx.storage.deliveredBlockFromHash
            secondBlock.hash = some secondBlock ∧
        (∃ p batch,
          .newProposal p secondBlock batch ∈
            (g 0).cx.multicasts) ∧
        ∃ chain top,
          LeaderChain 0 chain top ∧
            proposedBlocks (g 0).cx.multicasts =
              LeaderChain.blocks chain top := by
  have hRun :
      Machine.runCheck (Network.step step)
        (admissibleCheck {0, 1}
          (Digest.keyMap [0, 1, 2]))
        (fun g =>
          decide
            (firstBlock.hash ∈
                (g 0).cx.storage.committedBlocksByHash ∧
              firstBlock.hash ∈
                (g 1).cx.storage.committedBlocksByHash ∧
              (g 1).cx.storage.deliveredBlockFromHash
                secondBlock.hash = some secondBlock))
        (fun i => Node.new (Config.small i)) twoCommits =
          true := by
    decide +kernel
  rcases Machine.Reach.of_runCheck
      admissible_of_admissibleCheck hRun with
    ⟨g, hReach, hFinal⟩
  rcases of_decide_eq_true hFinal with
    ⟨hZero, hOne, hStored⟩
  have hConfig :
      SystemConfig {0, 1} (Digest.keyMap [0, 1, 2])
        Config.small :=
    ⟨by decide, fun _ _ => ⟨rfl, rfl⟩⟩
  rcases leader_chain_agreement Digest.collisionFree
      hConfig hReach with ⟨hSent, hChain, _⟩
  exact ⟨g, hReach, hZero, hOne, hStored,
    hSent 1 (by decide) _ _ hStored (by decide), hChain⟩

end Optsync

end LibApollo
