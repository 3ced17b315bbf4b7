import LibApollo.Mempool.Batches
import LibApollo.Types.Storage
import LibApollo.Types.Symbolic

/-
  The Sync HotStuff node: proposals, messages and the local
  state.  Opt Sync uses the same messages and extends the
  same state.

  The network is modelled by what leaves the node:
  `multicasts` lists every message handed to all the other
  replicas, in order, `announced` every message handed to
  all clients, and `signed` what the node's key has signed.

  Key definitions include:
    * `Propose`, `ProtocolMsg`, `ClientMsg`
    * `Panic`
    * `Config`, `Config.small`
    * `Context`, `Context.new`
-/

------------------------------------------------------------
-- Proposals and Messages
------------------------------------------------------------

namespace LibApollo

namespace Synchs

/- Proposal metadata; the block travels beside it. -/
structure Propose (H : Type) where
  proof : Bytes
  cert : Certificate H
  view : Nat
  blockHash : H
deriving DecidableEq, Repr

inductive ProtocolMsg (H : Type) where
| newProposal (p : Propose H) (block : Block H)
    (batch : Batch)
| voteMsg (c : Certificate H) (p : Propose H)
| equivcationBlameMsg (left right : Block H)
    (c : Certificate H)
| noProgressBlameMsg (c : Certificate H)
| changeView (view : Nat) (c : Certificate H)
| quitViewMsg (view : Nat) (c : Certificate H)
| statusMsg (c : Certificate H)
deriving DecidableEq, Repr

inductive ClientMsg (H : Type) where
| newBlock (block : Block H) (txHashes : List H)
    (payload : Bytes)
| request (hash : H)
| response (hash : H) (block : Block H)
deriving DecidableEq, Repr

/- The sites at which a handler can stop the node. -/
inductive Panic where
| authorKey
| viewCheck
| voteType
| unknownBlock
| noVote
| alreadyVoted
| parentUncertified
| heightOverflow
deriving DecidableEq, Repr

/- The padding bytes of a client message. -/
def withPayload (size : Nat) : Bytes :=
  (List.range size).map UInt8.ofNat

end Synchs

end LibApollo

------------------------------------------------------------
-- Local State
------------------------------------------------------------

namespace LibApollo

namespace Synchs

/- The part of the node configuration a context reads. -/
structure Config where
  id : Replica
  numNodes : Nat
  numFaults : Nat
  payload : Nat
  blockSize : Nat
  pkMap : FinMap Replica Bytes
  secretKeyBytes : Bytes
  clients : List ClientId

/- Three nodes that tolerate one fault, with a client. -/
def Config.small (id : Replica) : Config where
  id := id
  numNodes := 3
  numFaults := 1
  payload := 0
  blockSize := 1
  pkMap := Digest.keyMap [0, 1, 2]
  secretKeyBytes := Digest.keyOf id
  clients := [0]

/-
  `commitQueue` holds the proposals whose commit timer runs;
  the timers may expire in any order.
-/
structure Context (H : Type) [DecidableEq H] where
  allClients : List ClientId
  batches : BatchStores H
  pendingBatches : List (H × Batch)
  numNodes : Nat
  myid : Replica
  numFaults : Nat
  payload : Nat
  mySecretKey : Bytes
  pubKeyMap : FinMap Replica Bytes
  storage : Storage H (Block H)
  certMap : FinMap H (Certificate H)
  height : Nat
  lastLeader : Replica
  lastSeenBlock : Block H
  lastSeenCert : Certificate H
  lastCommittedBlockHt : Nat
  voteMap : FinMap H (Certificate H)
  view : Nat
  commitQueue : List (Propose H)
  multicasts : List (ProtocolMsg H)
  announced : List (ClientMsg H)
  signed : List (SignData H)

namespace Context

variable {H : Type} [DecidableEq H]

/- The context a node starts from. -/
def new [Crypto H] (config : Config) : Context H where
  allClients := config.clients
  batches := ⟨∅, ∅⟩
  pendingBatches := []
  numNodes := config.numNodes
  myid := config.id
  numFaults := config.numFaults
  payload := config.payload * config.blockSize
  mySecretKey := config.secretKeyBytes
  pubKeyMap := config.pkMap
  storage :=
    (Storage.new.addDeliveredBlock
      Block.genesis).addCommittedBlock Block.genesis
  certMap :=
    (∅ : FinMap H (Certificate H)).insert
      (Block.genesis : Block H).hash
      (Certificate.emptyCert H)
  height := 0
  lastLeader := 0
  lastSeenBlock := Block.genesis
  lastSeenCert := Certificate.emptyCert H
  lastCommittedBlockHt := 0
  voteMap := ∅
  view := 0
  commitQueue := []
  multicasts := []
  announced := []
  signed := []

/- The next leader is the current leader. -/
def nextLeader (cx : Context H) : Replica :=
  cx.lastLeader

def leaderOfView (cx : Context H) : Replica :=
  cx.view % cx.numNodes

/- Send to every peer but the node itself. -/
def multicast
    (cx : Context H)
    (msg : ProtocolMsg H) : Context H :=
  { cx with multicasts := cx.multicasts ++ [msg] }

/- Send to every registered client. -/
def multicastClient
    (cx : Context H)
    (msg : ClientMsg H) : Context H :=
  if cx.allClients.isEmpty then cx
  else { cx with announced := cx.announced ++ [msg] }

def persistBatch
    (cx : Context H)
    (hash : H)
    (batch : Batch) : Context H :=
  { cx with batches := cx.batches.persistBatch hash batch }

def readBatch
    (cx : Context H)
    (hash : H) : Option Batch × Context H :=
  let (batch, batches) := cx.batches.readBatch hash
  (batch, { cx with batches := batches })

end Context

end Synchs

end LibApollo
