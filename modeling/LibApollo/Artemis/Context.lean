import LibApollo.Mempool.Batches
import LibApollo.Types.Storage

/-
  The Artemis node: signed blocks, round votes, messages,
  the rotation of round leaders and the local state.

  The network is modelled by what leaves the node: `outbox`
  lists every packet handed to the sender, in order, and
  `signed` what the node's key has signed.  Heights wrap
  after 64 bits, as in an optimised build.

  Key definitions include:
    * `Block`, `UCRVote`, `ProtocolMsg`
    * `Leaders`, `Leaders.advance`
    * `Context`, `Context.new`
-/

------------------------------------------------------------
-- Blocks, Votes and Messages
------------------------------------------------------------

namespace LibApollo

namespace Artemis

/- A shared block with the signature of the view leader. -/
structure Block (H : Type) where
  blk : LibApollo.Block H
  sig : Vote
deriving DecidableEq, Repr

/- The identity of a block is the hash of its content. -/
instance {H : Type} : BlockTrait (Block H) H where
  getHash block := block.blk.hash
  getHeight block := block.blk.header.height
  getAuthor block := block.blk.header.author
  getPrev block := block.blk.header.prev

/- A round leader's vote for a block in a view. -/
structure UCRVote (H : Type) where
  hash : H
  round : Nat
  view : Nat
  vote : Vote
deriving DecidableEq, Repr

inductive ProtocolMsg (H : Type) where
| newBlock (block : Block H) (batch : Batch)
| ucrVote (v : UCRVote H)
| relay (sender : Replica) (v : UCRVote H)
| blame (v : Vote)
| request (sender : Replica) (reqId : Nat) (hash : H)
| response (sender : Replica) (reqId : Nat)
    (block : Block H) (batch : Batch)
| invalid
deriving DecidableEq, Repr

/- The sites at which a handler can stop the node. -/
inductive Panic where
| blame
| unreachable
| viewLeaderKey
| roundLeaderKey
| commitRound
| commitBlock
| unknownHash
| requestedBlock
| noEligibleLeader
| noLastLeader
deriving DecidableEq, Repr

namespace Block

variable {H : Type} [Crypto H]

def genesis : Block H where
  blk := LibApollo.Block.genesis
  sig := { origin := 0, auth := [] }

/- Sign the content hash. -/
def sign
    (block : Block H)
    (secretKey : Bytes) : Block H :=
  { block with
    sig := { block.sig with
      auth :=
        Crypto.sign secretKey (.hash block.blk.hash) } }

def checkSig
    (block : Block H)
    (publicKey : Bytes) : Bool :=
  Crypto.verify publicKey (.hash block.blk.hash)
    block.sig.auth

end Block

namespace UCRVote

variable {H : Type} [Crypto H]

/- The digest of `(hash, round, view)`. -/
def digest (v : UCRVote H) : H :=
  Crypto.ucrDigest v.hash v.round v.view

def computeSig
    (v : UCRVote H)
    (origin : Replica)
    (secretKey : Bytes) : UCRVote H :=
  { v with
    vote :=
      { origin := origin
        auth := Crypto.sign secretKey (.hash v.digest) } }

def checkSig
    (v : UCRVote H)
    (publicKey : Bytes) : Bool :=
  Crypto.verify publicKey (.hash v.digest) v.vote.auth

end UCRVote

end Artemis

end LibApollo

------------------------------------------------------------
-- Round Leaders
------------------------------------------------------------

namespace LibApollo

namespace Artemis

/-
  The rotation of round leaders: the current leader, the
  last `f` leaders from the oldest on, and the replicas that
  can be drawn next.
-/
structure Leaders where
  roundLeader : Replica
  lastFLeaders : List Replica
  eligibleLeaders : List Replica
deriving DecidableEq, Repr

namespace Leaders

/- `num_faults` is at least one. -/
def new (numNodes numFaults : Nat) : Leaders where
  roundLeader := numFaults - 1
  lastFLeaders := List.range numFaults
  eligibleLeaders :=
    List.range' numFaults (numNodes - numFaults)

variable (H : Type) [Crypto H]

/- The leader of the next round and its index. -/
def computeNextRoundLeader
    (leaders : Leaders)
    (round : Nat) : Except Panic (Replica × Nat) :=
  let size := leaders.eligibleLeaders.length
  if size = 0 then
    .error .noEligibleLeader
  else
    let idx := Crypto.roundIndex H (round + 1) % size
    match leaders.eligibleLeaders[idx]? with
    | none => .error .noEligibleLeader
    | some leader => .ok (leader, idx)

/-
  Draw the next leader.  The oldest of the last leaders
  becomes eligible in its place; inserting a present key in
  the linked map moves it to the end.
-/
def advance
    (leaders : Leaders)
    (round : Nat) : Except Panic Leaders := do
  let (leader, idx) ←
    computeNextRoundLeader H leaders round
  match leaders.lastFLeaders with
  | [] => .error .noLastLeader
  | oldest :: rest =>
      .ok
        { roundLeader := leader
          lastFLeaders := rest.erase leader ++ [leader]
          eligibleLeaders :=
            leaders.eligibleLeaders.set idx oldest }

end Leaders

end Artemis

end LibApollo

------------------------------------------------------------
-- Local State
------------------------------------------------------------

namespace LibApollo

namespace Artemis

/- The part of the node configuration a context reads. -/
structure Config where
  id : Replica
  numNodes : Nat
  numFaults : Nat
  pkMap : FinMap Replica Bytes
  secretKeyBytes : Bytes
  benchMetricsNode : Replica

structure Context (H : Type) [DecidableEq H] where
  numNodes : Nat
  numFaults : Nat
  myid : Replica
  pubKeyMap : FinMap Replica Bytes
  mySecretKey : Bytes
  broadcastPeers : List Replica
  batches : BatchStores H
  pendingBatches : List (H × Batch)
  txConsensusToBatcher :
    List (BatcherConsensusMsg Transaction)
  txCommittedToRouter : List Batch
  storage : Storage H (Block H)
  voteChain : FinMap Nat (UCRVote H)
  leaders : Leaders
  viewLeader : Replica
  view : Nat
  round : Nat
  lastSeenBlock : Block H
  lastVotedBlock : Block H
  reqCtr : Nat
  benchCommittedTxCount : Nat
  benchMetricsNode : Replica
  voteWaiting : FinMap H (UCRVote H)
  voteReady : FinMap Nat (UCRVote H)
  blockProcessingWaiting : List (Block H × Batch)
  responseWaiting : List (Replica × Block H × Batch)
  otherBuf : List (ProtocolMsg H)
  blockParentWaiting : FinMap H H
  undeliveredBlocks : FinMap H (Block H)
  outbox : List (Replica × ProtocolMsg H)
  signed : List (SignData H)

namespace Context

variable {H : Type} [DecidableEq H] [Crypto H]

/- The context a node starts from. -/
def new (config : Config) : Context H where
  numNodes := config.numNodes
  numFaults := config.numFaults
  myid := config.id
  pubKeyMap := config.pkMap.erase config.id
  mySecretKey := config.secretKeyBytes
  -- the number of nodes is cut to the 16 bits of an id
  broadcastPeers :=
    (List.range (config.numNodes % 2 ^ 16)).filter
      (· ≠ config.id)
  batches := ⟨∅, ∅⟩
  pendingBatches := []
  txConsensusToBatcher := []
  txCommittedToRouter := []
  storage := Storage.new.addDeliveredBlock Block.genesis
  voteChain := ∅
  leaders := Leaders.new config.numNodes config.numFaults
  viewLeader := 0
  view := 0
  round := 1
  lastSeenBlock := Block.genesis
  lastVotedBlock := Block.genesis
  reqCtr := 0
  benchCommittedTxCount := 0
  benchMetricsNode := config.benchMetricsNode
  voteWaiting := ∅
  voteReady := ∅
  blockProcessingWaiting := []
  responseWaiting := []
  otherBuf := []
  blockParentWaiting := ∅
  undeliveredBlocks := ∅
  outbox := []
  signed := []

def nextRoundLeader
    (cx : Context H) : Except Panic Replica := do
  let (leader, _) ←
    Leaders.computeNextRoundLeader H cx.leaders cx.round
  .ok leader

/- Enter the next round. -/
def updateRound
    (cx : Context H) : Except Panic (Context H) := do
  let leaders ← Leaders.advance H cx.leaders cx.round
  .ok
    { cx with
      leaders := leaders
      round := cx.round + 1 }

omit [Crypto H]

/- Send to one peer; a node does not send to itself. -/
def send
    (cx : Context H)
    (dest : Replica)
    (msg : ProtocolMsg H) : Context H :=
  if dest = cx.myid then cx
  else { cx with outbox := cx.outbox ++ [(dest, msg)] }

/- Send to every peer but the node itself. -/
def multicast
    (cx : Context H)
    (msg : ProtocolMsg H) : Context H :=
  { cx with
    outbox :=
      cx.outbox ++ cx.broadcastPeers.map (·, msg) }

def tellBatcher
    (cx : Context H)
    (msg : BatcherConsensusMsg Transaction) : Context H :=
  { cx with
    txConsensusToBatcher :=
      cx.txConsensusToBatcher ++ [msg] }

def persistBatch
    (cx : Context H)
    (hash : H)
    (batch : Batch) : Context H :=
  { cx with batches := cx.batches.persistBatch hash batch }

def readBatch
    (cx : Context H)
    (hash : H) : Option Batch × Context H :=
  let (batch, batches) := cx.batches.readBatch hash
  (batch, { cx with batches := batches })

/- Tell the batcher the height of the next block. -/
def announceHeightToBatcher (cx : Context H) : Context H :=
  cx.tellBatcher
    (.newRound cx.viewLeader
      (succU64 cx.lastSeenBlock.blk.header.height))

end Context

end Artemis

end LibApollo
