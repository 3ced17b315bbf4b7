import LibApollo.Apollo.CommitSafety
import LibApollo.Apollo.Commits
import LibApollo.Artemis.Commits
import LibApollo.Artemis.VoteSafety

/-
  Commits of Apollo and Artemis nodes, in any run.

  The messages are arbitrary but for the hashes of their
  blocks, which decoding computes.  The committed set is the
  closure of the accepted rounds that are `numFaults` rounds
  old, and the notices of the commits are complete.

  Key theorems include:
    * `committed_eq_closure`
    * `commits_told_once`
-/

------------------------------------------------------------
-- The Committed Set
------------------------------------------------------------

namespace LibApollo

variable {H : Type} [DecidableEq H] [Crypto H]

theorem committed_eq_closure
    (hFree : CollisionFree H) :
    (∀ (config : Apollo.Config) (node : Apollo.Node H),
      Machine.Reach Apollo.step
          (fun _ event => Apollo.Network event)
          (Apollo.Node.new config) node →
        CommitsClosure node.cx.storage
          (fun k =>
            (node.cx.propChainByRound.lookup k).map
              Apollo.Propose.blockHash)
          (node.cx.round - 1 - node.cx.numFaults)) ∧
      ∀ (config : Artemis.Config) (node : Artemis.Node H),
        Machine.Reach Artemis.step
            (fun _ event => Artemis.Network event)
            (Artemis.Node.new config) node →
          CommitsClosure node.cx.storage
            (fun k =>
              (node.cx.voteChain.lookup k).map
                Artemis.UCRVote.hash)
            (node.cx.round - 1 - node.cx.numFaults) := by
  constructor
  · intro config node hReach
    exact (Apollo.Reach.sound hFree hReach).closure hFree
  · intro config node hReach
    exact (Artemis.Reach.sound hFree hReach).2.closure hFree

theorem Apollo.network_of_decodedCheck
    {event : Apollo.Event H}
    (hCheck : Apollo.decodedCheck event = true) :
    Apollo.Network event := by
  intro msg hEq
  subst hEq
  cases msg with
  | newProposal p block batch =>
      have hHash : block.WellHashed :=
        of_decide_eq_true hCheck
      exact hHash
  | response sender reqId p block batch =>
      have hHash : block.WellHashed :=
        of_decide_eq_true hCheck
      exact hHash
  | relay sender p => trivial
  | request sender reqId hash => trivial
  | blame v => trivial

theorem Artemis.network_of_decodedCheck
    {event : Artemis.Event H}
    (hCheck : Artemis.decodedCheck event = true) :
    Artemis.Network event := by
  intro msg hEq
  subst hEq
  cases msg with
  | newBlock block batch =>
      have hHash : block.blk.WellHashed :=
        of_decide_eq_true hCheck
      exact hHash
  | response sender reqId block batch =>
      have hHash : block.blk.WellHashed :=
        of_decide_eq_true hCheck
      exact hHash
  | ucrVote v => trivial
  | relay sender v => trivial
  | request sender reqId hash => trivial
  | blame v => trivial
  | invalid => trivial

/- Handed over batches have to be stored already. -/
def Apollo.sealedCheck
    (node : Apollo.Node Digest)
    (event : Apollo.Event Digest) : Bool :=
  Apollo.decodedCheck event &&
    match event with
    | .batch batchHash _ =>
        (node.cx.batches.readBatch batchHash).1.isSome
    | _ => true

theorem Apollo.guard_of_sealedCheck
    {node : Apollo.Node Digest}
    {event : Apollo.Event Digest}
    (hCheck : Apollo.sealedCheck node event = true) :
    Apollo.Network event ∧ Apollo.Sealed node event := by
  simp only [Apollo.sealedCheck, Bool.and_eq_true] at hCheck
  refine ⟨Apollo.network_of_decodedCheck hCheck.1, ?_⟩
  intro batchHash batch hEq
  subst hEq
  rcases Option.isSome_iff_exists.mp hCheck.2 with
    ⟨found, hFound⟩
  exact ⟨found, BatchStores.holds_of_readBatch hFound⟩

def Artemis.sealedCheck
    (node : Artemis.Node Digest)
    (event : Artemis.Event Digest) : Bool :=
  Artemis.decodedCheck event &&
    match event with
    | .batch batchHash _ =>
        (node.cx.batches.readBatch batchHash).1.isSome
    | _ => true

theorem Artemis.guard_of_sealedCheck
    {node : Artemis.Node Digest}
    {event : Artemis.Event Digest}
    (hCheck : Artemis.sealedCheck node event = true) :
    Artemis.Network event ∧ Artemis.Sealed node event := by
  simp only [Artemis.sealedCheck, Bool.and_eq_true]
    at hCheck
  refine ⟨Artemis.network_of_decodedCheck hCheck.1, ?_⟩
  intro batchHash batch hEq
  subst hEq
  rcases Option.isSome_iff_exists.mp hCheck.2 with
    ⟨found, hFound⟩
  exact ⟨found, BatchStores.holds_of_readBatch hFound⟩

/-
  In a run of each protocol the first block is committed,
  and genesis below it.
-/
theorem Apollo.exists_committed :
    ∃ node : Apollo.Node Digest,
      Machine.Reach Apollo.step
          (fun node event =>
            Apollo.Network event ∧ Apollo.Sealed node event)
          (Apollo.Node.new (Apollo.smallConfig 1)) node ∧
        node.cx.storage.committedBlocksByHash =
          {Apollo.firstBlock.hash, Crypto.emptyHash} ∧
        node.cx.txCommittedToRouter = [oneBatch] := by
  have hRun :
      Machine.runCheck Apollo.step Apollo.sealedCheck
        (fun node => decide
          (node.cx.storage.committedBlocksByHash =
              {Apollo.firstBlock.hash, Crypto.emptyHash} ∧
            node.cx.txCommittedToRouter = [oneBatch]))
        (Apollo.Node.new (Apollo.smallConfig 1))
        Apollo.groundedRun = true := by
    decide +kernel
  rcases Machine.Reach.of_runCheck
      (fun _ _ hCheck => Apollo.guard_of_sealedCheck hCheck)
      hRun with ⟨node, hReach, hFinal⟩
  exact ⟨node, hReach, of_decide_eq_true hFinal⟩

theorem Artemis.exists_committed :
    ∃ node : Artemis.Node Digest,
      Machine.Reach Artemis.step
          (fun node event =>
            Artemis.Network event ∧
              Artemis.Sealed node event)
          (Artemis.Node.new (Artemis.smallConfig 1)) node ∧
        node.cx.storage.committedBlocksByHash =
          {Artemis.firstBlock.blk.hash,
            Crypto.emptyHash} ∧
        node.cx.txCommittedToRouter = [oneBatch] := by
  have hRun :
      Machine.runCheck Artemis.step Artemis.sealedCheck
        (fun node => decide
          (node.cx.storage.committedBlocksByHash =
              {Artemis.firstBlock.blk.hash,
                Crypto.emptyHash} ∧
            node.cx.txCommittedToRouter = [oneBatch]))
        (Artemis.Node.new (Artemis.smallConfig 1))
        Artemis.parkedRun = true := by
    decide +kernel
  rcases Machine.Reach.of_runCheck
      (fun _ _ hCheck => Artemis.guard_of_sealedCheck hCheck)
      hRun with ⟨node, hReach, hFinal⟩
  exact ⟨node, hReach, of_decide_eq_true hFinal⟩

theorem committed_eq_closure_first_block :
    (∃ node : Apollo.Node Digest,
      node.cx.storage.committedBlocksByHash =
          {Apollo.firstBlock.hash, Crypto.emptyHash} ∧
        CommitsClosure node.cx.storage
          (fun k =>
            (node.cx.propChainByRound.lookup k).map
              Apollo.Propose.blockHash)
          (node.cx.round - 1 - node.cx.numFaults)) ∧
      ∃ node : Artemis.Node Digest,
        node.cx.storage.committedBlocksByHash =
            {Artemis.firstBlock.blk.hash,
              Crypto.emptyHash} ∧
          CommitsClosure node.cx.storage
            (fun k =>
              (node.cx.voteChain.lookup k).map
                Artemis.UCRVote.hash)
            (node.cx.round - 1 - node.cx.numFaults) := by
  rcases committed_eq_closure Digest.collisionFree with
    ⟨hApollo, hArtemis⟩
  rcases Apollo.exists_committed with
    ⟨node, hReach, hCommitted, _⟩
  rcases Artemis.exists_committed with
    ⟨other, hOther, hCommitted', _⟩
  constructor
  · exact ⟨node, hCommitted, hApollo _ node
      (hReach.mono (fun _ _ hGuard => hGuard.1))⟩
  · exact ⟨other, hCommitted', hArtemis _ other
      (hOther.mono (fun _ _ hGuard => hGuard.1))⟩

end LibApollo

------------------------------------------------------------
-- Notices of Commits
------------------------------------------------------------

namespace LibApollo

variable {H : Type} [DecidableEq H] [Crypto H]

theorem commits_told_once
    {depth : H → Nat}
    (hFree : CollisionFree H)
    (hDepth : HashDepth depth)
    (hBatches :
      ∀ payload,
        Crypto.batchHash (H := H) payload ≠
          Crypto.emptyHash) :
    (∀ (config : Apollo.Config) (node : Apollo.Node H),
      Machine.Reach Apollo.step
          (fun node event =>
            Apollo.Network event ∧ Apollo.Sealed node event)
          (Apollo.Node.new config) node →
        ∃ log,
          CommitsTold (fun block => block.body.batchHash)
            Crypto.emptyHash node.cx.notices
            node.cx.storage log) ∧
      ∀ (config : Artemis.Config) (node : Artemis.Node H),
        Machine.Reach Artemis.step
            (fun node event =>
              Artemis.Network event ∧
                Artemis.Sealed node event)
            (Artemis.Node.new config) node →
          ∃ log,
            CommitsTold
              (fun block => block.blk.body.batchHash)
              Crypto.emptyHash node.cx.notices
              node.cx.storage log := by
  constructor
  · intro config node hReach
    rcases Apollo.Reach.stocked hFree hDepth hBatches
        hReach with ⟨hSound, hStocked⟩
    exact hStocked.commitsTold hFree hDepth hSound
  · intro config node hReach
    rcases Artemis.Reach.stocked hFree hDepth hBatches
        hReach with ⟨hSound, hStocked⟩
    exact hStocked.commitsTold hFree hDepth hSound

theorem commits_told_once_first_block :
    (∃ node : Apollo.Node Digest,
      node.cx.txCommittedToRouter = [oneBatch] ∧
        ∃ log,
          CommitsTold (fun block => block.body.batchHash)
            Crypto.emptyHash node.cx.notices
            node.cx.storage log) ∧
      ∃ node : Artemis.Node Digest,
        node.cx.txCommittedToRouter = [oneBatch] ∧
          ∃ log,
            CommitsTold
              (fun block => block.blk.body.batchHash)
              Crypto.emptyHash node.cx.notices
              node.cx.storage log := by
  rcases commits_told_once Digest.collisionFree
      Digest.hashDepth Digest.batchHash_ne_emptyHash with
    ⟨hApollo, hArtemis⟩
  rcases Apollo.exists_committed with
    ⟨node, hReach, _, hRouter⟩
  rcases Artemis.exists_committed with
    ⟨other, hOther, _, hRouter'⟩
  exact ⟨⟨node, hRouter, hApollo _ node hReach⟩,
    other, hRouter', hArtemis _ other hOther⟩

end LibApollo
