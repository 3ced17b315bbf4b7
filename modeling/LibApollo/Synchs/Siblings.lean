import LibApollo.Synchs.Equivocation
import LibApollo.Optsync.Agreement

/-
  Sync HotStuff under an honest leader.

  A Sync HotStuff leader does not move on to the block it
  proposes, so all its blocks are children of genesis.  All
  that honest nodes deliver is from the leader, whatever the
  others send, and so no chain ever grows past height one.

  Key definitions include:
    * `Admissible`
    * `Ledger.Rooted`
    * `SiblingsInv`

  Key theorems include:
    * `Ledger.Rooted.step`
    * `SiblingsInv.step`
    * `blocks_are_siblings`
-/

------------------------------------------------------------
-- The Leader
------------------------------------------------------------

namespace LibApollo

namespace Synchs

variable {H : Type} [DecidableEq H] [Crypto H]

/- A leader at genesis that has sent all it has signed. -/
structure Ledger.Rooted (ledger : Ledger H) : Prop where
  atGenesis : ledger.AtGenesis 0
  signed :
    ∀ hash,
      SignData.hash hash ∈ ledger.signed →
        ∃ block ∈ proposedBlocks ledger.multicasts,
          block.hash = hash

theorem Ledger.Rooted.step
    {ledger ledger' : Ledger H}
    {event : Event H}
    (hRooted : ledger.Rooted)
    (hUnforged :
      ∀ publicKey,
        ledger.pubKeyMap.lookup ledger.myid =
            some publicKey →
          Unforged publicKey ledger.signed event)
    (hStep : Ledger.Step false event ledger ledger') :
    ledger'.Rooted := by
  refine ⟨hRooted.atGenesis.step hUnforged hStep, ?_⟩
  cases hStep with
  | deliver p block batch myVote hEvent hValid =>
      exact absurd hValid
        (hRooted.atGenesis.leads.not_valid hUnforged hEvent)
  | propose p block batchHash batch rest _ _ _ =>
      intro hash hSigned
      rw [Ledger.propose, proposedBlocks_append_newProposal]
      simp only [Ledger.propose, List.mem_append,
        List.mem_cons, SignData.hash.injEq, reduceCtorEq,
        List.not_mem_nil, or_false] at hSigned
      rcases hSigned with hOld | rfl
      · rcases hRooted.signed hash hOld with
          ⟨other, hMem, hHash⟩
        exact ⟨other, List.mem_append_left _ hMem, hHash⟩
      · exact ⟨block,
          List.mem_append_right _
            (List.mem_singleton_self _),
          rfl⟩
  | _ => exact hRooted.signed

/- The blocks of a leader are children of genesis. -/
theorem Ledger.Rooted.child
    {ledger : Ledger H}
    {block : Block H}
    (hRooted : ledger.Rooted)
    (hMem : block ∈ proposedBlocks ledger.multicasts) :
    block =
      Block.extending Block.genesis 0 1
        block.body.batchHash := by
  rcases mem_proposedBlocks.mp hMem with ⟨p, batch, hSent⟩
  exact (hRooted.atGenesis.proposed p block batch hSent).2

end Synchs

end LibApollo

------------------------------------------------------------
-- Systems With an Honest Leader
------------------------------------------------------------

namespace LibApollo

namespace Synchs

open Optsync (Decoded Follower SystemConfig)

variable {H : Type} [DecidableEq H] [Crypto H]
variable {honest : Finset Replica}
variable {keys : FinMap Replica Bytes}
variable {config : Replica → Config}
variable {g g' : Replica → Node (Context H)}

/-
  What the network may do to an honest node: hand it any
  decoded message in which the leader's signature on a block
  is the leader's.
-/
def Admissible
    (honest : Finset Replica)
    (keys : FinMap Replica Bytes)
    (g : Replica → Node (Context H))
    (event : Replica × Event H) : Prop :=
  event.1 ∈ honest ∧
    Decoded event.2 ∧
    ∀ publicKey,
      keys.lookup 0 = some publicKey →
        Unforged publicKey (g 0).cx.signed event.2

/- The leader and the honest nodes that follow it. -/
structure SiblingsInv
    (honest : Finset Replica)
    (keys : FinMap Replica Bytes)
    (g : Replica → Node (Context H)) : Prop where
  leader : (g 0).cx.ledger.Rooted
  follower :
    ∀ i ∈ honest,
      Follower i keys
        (proposedBlocks (g 0).cx.multicasts)
        (g i).cx.ledger

theorem siblingsInv_new
    (hConfig : SystemConfig honest keys config) :
    SiblingsInv honest keys
      (fun i => (Node.new (config i) :
        Node (Context H))) := by
  refine ⟨?_, ?_⟩
  · refine
      { atGenesis :=
          leader_stays_at_genesis
            (hConfig.2 0 hConfig.1).1 .start
        signed := ?_ }
    intro hash hSigned
    cases hSigned
  · intro i hHonest
    refine
      { myid := (hConfig.2 i hHonest).1
        leader := rfl
        view := rfl
        pubKeyMap := (hConfig.2 i hHonest).2
        delivered := ?_
        committed := ?_ }
    · intro hash block hLookup
      exact Or.inl (Storage.eq_of_delivered_new hLookup)
    · intro hash hCommitted
      have hHash :
          hash =
            BlockTrait.getHash
              (Block.genesis : Block H) := by
        simpa [Node.new, Context.new, Context.ledger] using
          hCommitted
      exact Storage.isDeliveredByHash_addDeliveredBlock
        (Or.inl hHash)

/- Every step of an honest node keeps the invariant. -/
theorem SiblingsInv.step
    {event : Replica × Event H}
    (hFree : CollisionFree H)
    (hInv : SiblingsInv honest keys g)
    (hGuard : Admissible honest keys g event)
    (hStep :
      Network.step Synchs.step g event = .ok g') :
    SiblingsInv honest keys g' := by
  rcases event with ⟨i, event⟩
  rcases Network.step_ok hStep with ⟨node, hNode, rfl⟩
  have hLedger := protocol_refines.step hNode
  have hFollower := hInv.follower i hGuard.1
  have hWell :
      ∀ block ∈ proposedBlocks (g 0).cx.multicasts,
        block.WellHashed := by
    intro block hBlock
    rw [hInv.leader.child hBlock]
    exact Block.extending_wellHashed _ _ _ _
  have hAccepted :
      ∀ p block batch,
        event = .recv (.newProposal p block batch) →
          (g i).cx.ledger.Valid p block →
          block ∈ proposedBlocks (g 0).cx.multicasts := by
    intro p block batch hEvent hValid
    exact hFollower.mem_of_valid hFree hWell
      hInv.leader.signed hGuard.2.1 hGuard.2.2 hEvent
      hValid
  by_cases hSelf : i = 0
  · -- the leader moves and the others stay
    subst hSelf
    have hUnforged :
        ∀ publicKey,
          (g 0).cx.pubKeyMap.lookup (g 0).cx.myid =
              some publicKey →
            Unforged publicKey (g 0).cx.signed event := by
      intro publicKey hKey
      apply hGuard.2.2
      have hKeys : (g 0).cx.pubKeyMap = keys :=
        hFollower.pubKeyMap
      have hId : (g 0).cx.myid = 0 := hFollower.myid
      rwa [hKeys, hId] at hKey
    have hMore :
        ∀ block ∈ proposedBlocks (g 0).cx.multicasts,
          block ∈ proposedBlocks node.cx.multicasts :=
      fun block hBlock => hLedger.proposed_mono hBlock
    refine ⟨?_, ?_⟩
    · rw [Function.update_self]
      exact hInv.leader.step hUnforged hLedger
    · rw [Function.update_self]
      intro j hHonest
      refine Network.at_update
        (fun other : Node (Context H) =>
          Follower j keys
            (proposedBlocks node.cx.multicasts)
            other.cx.ledger)
        ?_ ((hInv.follower j hHonest).mono hMore)
      intro hMoved
      subst hMoved
      exact hFollower.step hMore hAccepted
        (fun _ _ hBlock => hBlock) hLedger
  · -- another honest node moves
    refine ⟨?_, ?_⟩
    · rw [Function.update_of_ne (Ne.symm hSelf)]
      exact hInv.leader
    · rw [Function.update_of_ne (Ne.symm hSelf)]
      intro j hHonest
      refine Network.at_update
        (fun other : Node (Context H) =>
          Follower j keys
            (proposedBlocks (g 0).cx.multicasts)
            other.cx.ledger)
        ?_ (hInv.follower j hHonest)
      intro hMoved
      subst hMoved
      exact hFollower.step (fun _ hBlock => hBlock)
        hAccepted (fun hZero => absurd hZero hSelf) hLedger

/-
  In every state of a system with an honest leader, every
  block beside genesis that an honest node has delivered was
  sent by the leader and is a child of genesis, and so is
  every block that it has committed.
-/
theorem blocks_are_siblings
    (hFree : CollisionFree H)
    (hConfig : SystemConfig honest keys config)
    (hReach :
      Machine.Reach (Network.step step)
        (Admissible honest keys)
        (fun i => Node.new (config i)) g) :
    ∀ i ∈ honest,
      (∀ hash block,
        (g i).cx.storage.deliveredBlockFromHash hash =
            some block →
          block = Block.genesis ∨
            (block.header.height = 1 ∧
              block.header.prev =
                (Block.genesis : Block H).hash ∧
              ∃ p batch,
                .newProposal p block batch ∈
                  (g 0).cx.multicasts)) ∧
        ∀ hash ∈ (g i).cx.storage.committedBlocksByHash,
          ∃ block,
            (g i).cx.storage.deliveredBlockFromHash hash =
                some block ∧
              block.header.height ≤ 1 := by
  have hInv : SiblingsInv honest keys g := by
    apply hReach.invariant (SiblingsInv honest keys)
      (siblingsInv_new hConfig)
    intro g g' event hInv hGuard hStep
    exact hInv.step hFree hGuard hStep
  intro i hHonest
  have hFollower := hInv.follower i hHonest
  have hChild :
      ∀ block ∈ proposedBlocks (g 0).cx.multicasts,
        block.header.height = 1 ∧
          block.header.prev =
            (Block.genesis : Block H).hash := by
    intro block hBlock
    rw [hInv.leader.child hBlock]
    exact ⟨Block.extending_height _ _ _ _,
      Block.extending_prev _ _ _ _⟩
  refine ⟨?_, ?_⟩
  · intro hash block hLookup
    rcases hFollower.delivered hash block hLookup with
      hGenesis | hBlock
    · exact Or.inl hGenesis
    · rcases hChild block hBlock with ⟨hHeight, hPrev⟩
      exact Or.inr ⟨hHeight, hPrev,
        mem_proposedBlocks.mp hBlock⟩
  · intro hash hCommitted
    rcases (Storage.isDeliveredByHash_iff _ _).mp
        (hFollower.committed hash hCommitted) with
      ⟨block, hLookup⟩
    refine ⟨block, hLookup, ?_⟩
    rcases hFollower.delivered hash block hLookup with
      rfl | hBlock
    · exact Nat.zero_le 1
    · exact (hChild block hBlock).1.le

end Synchs

end LibApollo

------------------------------------------------------------
-- Two Siblings
------------------------------------------------------------

namespace LibApollo

namespace Synchs

open Optsync (firstBlock proposalOf SystemConfig)

variable {H : Type} [DecidableEq H] [Crypto H]
variable {honest : Finset Replica}
variable {keys : FinMap Replica Bytes}

/- Executable form of `Admissible`. -/
def admissibleCheck
    (honest : Finset Replica)
    (keys : FinMap Replica Bytes)
    (g : Replica → Node (Context H))
    (event : Replica × Event H) : Bool :=
  decide (event.1 ∈ honest) &&
    (match event.2 with
    | .recv (.newProposal _ block _) =>
        decide block.WellHashed
    | _ => true) &&
    match keys.lookup 0 with
    | none => true
    | some publicKey =>
        unforgedCheck publicKey (g 0).cx.signed event.2

theorem admissible_of_check
    (g : Replica → Node (Context H))
    (event : Replica × Event H)
    (hCheck :
      admissibleCheck honest keys g event = true) :
    Admissible honest keys g event := by
  unfold admissibleCheck at hCheck
  rw [Bool.and_eq_true, Bool.and_eq_true] at hCheck
  rcases hCheck with ⟨⟨hHonest, hDecoded⟩, hUnforged⟩
  refine ⟨of_decide_eq_true hHonest, ?_, ?_⟩
  · intro p block batch hEvent
    rw [hEvent] at hDecoded
    exact of_decide_eq_true hDecoded
  · intro publicKey hKey
    rw [hKey] at hUnforged
    exact unforged_of_unforgedCheck hUnforged

/- The block that a leader builds for one transaction. -/
def secondChild : Block Digest :=
  Block.extending Block.genesis 0 1 oneTx.hash

/- The leader proposes twice, and replica 1 commits both. -/
def siblingsRun : List (Replica × Event Digest) :=
  [(0, .batch oneBatch.hash oneBatch),
    (0, .internal), (0, .internal),
    (0, .batch oneTx.hash oneTx),
    (0, .internal), (0, .internal),
    (1, .recv
      (.newProposal
        (proposalOf firstBlock
          (Certificate.emptyCert Digest))
        firstBlock oneBatch)),
    (1, .internal),
    (1, .recv
      (.newProposal
        (proposalOf secondChild
          (Certificate.emptyCert Digest))
        secondChild oneTx)),
    (1, .internal),
    (1, .timer 1), (1, .internal), (1, .timer 0)]

theorem blocks_are_siblings_two_commits :
    ∃ g : Replica → Node (Context Digest),
      Machine.Reach (Network.step step)
          (Admissible {0, 1} (Digest.keyMap [0, 1, 2]))
          (fun i => Node.new (Config.small i)) g ∧
        firstBlock.hash ∈
          (g 1).cx.storage.committedBlocksByHash ∧
        secondChild.hash ∈
          (g 1).cx.storage.committedBlocksByHash ∧
        ∀ hash ∈ (g 1).cx.storage.committedBlocksByHash,
          ∃ block,
            (g 1).cx.storage.deliveredBlockFromHash hash =
                some block ∧
              block.header.height ≤ 1 := by
  have hRun :
      Machine.runCheck (Network.step step)
        (admissibleCheck {0, 1}
          (Digest.keyMap [0, 1, 2]))
        (fun g =>
          decide
            (firstBlock.hash ∈
                (g 1).cx.storage.committedBlocksByHash ∧
              secondChild.hash ∈
                (g 1).cx.storage.committedBlocksByHash))
        (fun i => Node.new (Config.small i)) siblingsRun =
          true := by
    decide +kernel
  rcases Machine.Reach.of_runCheck admissible_of_check hRun
    with ⟨g, hReach, hFinal⟩
  rcases of_decide_eq_true hFinal with ⟨hFirst, hSecond⟩
  have hConfig :
      SystemConfig {0, 1} (Digest.keyMap [0, 1, 2])
        Config.small :=
    ⟨by decide, fun _ _ => ⟨rfl, rfl⟩⟩
  have hSiblings :=
    blocks_are_siblings Digest.collisionFree hConfig hReach
      1 (by decide)
  exact ⟨g, hReach, hFirst, hSecond, hSiblings.2⟩

end Synchs

end LibApollo
