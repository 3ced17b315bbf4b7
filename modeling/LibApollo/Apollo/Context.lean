import LibApollo.Mempool.Batches
import LibApollo.Types.Storage

/-
  The Apollo node: its messages, its local state and the
  helpers that every handler uses.

  The network is modelled by what leaves the node: `outbox`
  lists every packet handed to the sender, in order.  The
  channels to the batcher and to the confirmation router are
  the lists of what was sent on them.  `signed` records what
  the node's key has signed.  Heights wrap after 64 bits, as
  in an optimised build.

  Key definitions include:
    * `Propose`, `ProtocolMsg`
    * `Context`, `Context.new`
    * `Context.send`, `Context.multicast`
    * `Context.updateRound`
-/

------------------------------------------------------------
-- Messages
------------------------------------------------------------

namespace LibApollo

namespace Apollo

/- A proposal; the signature covers `blockHash` only. -/
structure Propose (H : Type) where
  sig : Vote
  round : Nat
  blockHash : H
deriving DecidableEq, Repr

inductive ProtocolMsg (H : Type) where
| newProposal (p : Propose H) (block : Block H)
    (batch : Batch)
| relay (sender : Replica) (p : Propose H)
| request (sender : Replica) (reqId : Nat) (hash : H)
| response (sender : Replica) (reqId : Nat)
    (p : Propose H) (block : Block H) (batch : Batch)
| blame (v : Vote)
deriving DecidableEq, Repr

/- The sites at which a handler can stop the node. -/
inductive Panic where
| blame
| pubKey
| commitRound
| commitBlock
| childBlock
deriving DecidableEq, Repr

namespace Propose

variable {H : Type} [Crypto H]

/- Build and sign the proposal of a round. -/
def signed
    (secretKey : Bytes)
    (origin : Replica)
    (round : Nat)
    (blockHash : H) : Propose H where
  sig :=
    { origin := origin
      auth := Crypto.sign secretKey (.hash blockHash) }
  round := round
  blockHash := blockHash

def checkSig
    (p : Propose H)
    (publicKey : Bytes) : Bool :=
  Crypto.verify publicKey (.hash p.blockHash) p.sig.auth

end Propose

end Apollo

end LibApollo

------------------------------------------------------------
-- Local State
------------------------------------------------------------

namespace LibApollo

namespace Apollo

/- The part of the node configuration a context reads. -/
structure Config where
  id : Replica
  numNodes : Nat
  numFaults : Nat
  pkMap : FinMap Replica Bytes
  secretKeyBytes : Bytes
  benchMetricsNode : Replica

structure Context (H : Type) [DecidableEq H] where
  numNodes : Nat
  numFaults : Nat
  myid : Replica
  pubKeyMap : FinMap Replica Bytes
  mySecretKey : Bytes
  broadcastPeers : List Replica
  batches : BatchStores H
  pendingBatches : List (H × Batch)
  txConsensusToBatcher :
    List (BatcherConsensusMsg Transaction)
  txCommittedToRouter : List Batch
  propBuf : List (Replica × Propose H × Block H × Batch)
  relayBuf : List (Replica × Propose H)
  otherBuf : List (ProtocolMsg H)
  futureMsgs : FinMap Nat (Replica × Propose H)
  storage : Storage H (Block H)
  propChainByRound : FinMap Nat (Propose H)
  propChainByHash : FinMap H (Propose H)
  round : Nat
  roundLeader : Replica
  benchCommittedTxCount : Nat
  benchMetricsNode : Replica
  lastSeenBlock : Block H
  propWaiting : FinMap H (Propose H)
  propWaitingParent : FinMap H (Propose H)
  reqCtr : Nat
  outbox : List (Replica × ProtocolMsg H)
  signed : List (SignData H)

namespace Context

variable {H : Type} [DecidableEq H] [Crypto H]

/- The context a node starts from. -/
def new (config : Config) : Context H where
  numNodes := config.numNodes
  numFaults := config.numFaults
  myid := config.id
  pubKeyMap := config.pkMap.erase config.id
  mySecretKey := config.secretKeyBytes
  -- the number of nodes is cut to the 16 bits of an id
  broadcastPeers :=
    (List.range (config.numNodes % 2 ^ 16)).filter
      (· ≠ config.id)
  batches := ⟨∅, ∅⟩
  pendingBatches := []
  txConsensusToBatcher := []
  txCommittedToRouter := []
  propBuf := []
  relayBuf := []
  otherBuf := []
  futureMsgs := ∅
  storage := Storage.new.addDeliveredBlock Block.genesis
  propChainByRound := ∅
  propChainByHash := ∅
  round := 1
  roundLeader := 0
  benchCommittedTxCount := 0
  benchMetricsNode := config.benchMetricsNode
  lastSeenBlock := Block.genesis
  propWaiting := ∅
  propWaitingParent := ∅
  reqCtr := 0
  outbox := []
  signed := []

omit [Crypto H]

/- Send to one peer; a node does not send to itself. -/
def send
    (cx : Context H)
    (dest : Replica)
    (msg : ProtocolMsg H) : Context H :=
  if dest = cx.myid then cx
  else { cx with outbox := cx.outbox ++ [(dest, msg)] }

/- Send to every peer but the node itself. -/
def multicast
    (cx : Context H)
    (msg : ProtocolMsg H) : Context H :=
  { cx with
    outbox :=
      cx.outbox ++ cx.broadcastPeers.map (·, msg) }

def tellBatcher
    (cx : Context H)
    (msg : BatcherConsensusMsg Transaction) : Context H :=
  { cx with
    txConsensusToBatcher :=
      cx.txConsensusToBatcher ++ [msg] }

def persistBatch
    (cx : Context H)
    (hash : H)
    (batch : Batch) : Context H :=
  { cx with batches := cx.batches.persistBatch hash batch }

def readBatch
    (cx : Context H)
    (hash : H) : Option Batch × Context H :=
  let (batch, batches) := cx.batches.readBatch hash
  (batch, { cx with batches := batches })

/- Round-robin successor of a replica. -/
def nextOf
    (cx : Context H)
    (prev : Replica) : Replica :=
  if prev + 1 = cx.numNodes then 0 else prev + 1

def nextLeader (cx : Context H) : Replica :=
  cx.nextOf cx.roundLeader

/- Enter the next round and tell the batcher about it. -/
def updateRound (cx : Context H) : Context H :=
  let advanced :=
    { cx with
      roundLeader := cx.nextLeader
      round := cx.round + 1 }
  advanced.tellBatcher
    (.newRound advanced.roundLeader advanced.round)

def addDeliveredBlock
    (cx : Context H)
    (block : Block H) : Context H :=
  { cx with storage := cx.storage.addDeliveredBlock block }

end Context

end Apollo

end LibApollo
