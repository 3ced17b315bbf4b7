import LibApollo.Artemis.Handlers
import LibApollo.Base.Run

/-
  The Artemis reactor as a state machine.

  A node is its context together with the place its reactor
  has reached: waiting in `select`, draining the network, in
  one of the loops of `process_message`, in the loop that
  dispatches batches, or about to vote.  Each handler call
  is one internal step.

  Key definitions include:
    * `Phase`, `Node`, `Event`
    * `Node.new`
    * `processMessage`, `internalStep`
    * `step`
    * `candidateVote`, `Acceptable`
-/

------------------------------------------------------------
-- Nodes and Events
------------------------------------------------------------

namespace LibApollo

namespace Artemis

/- Where the reactor stands. -/
inductive Phase where
| select
| drain
| blocks
| responses
| ready
| others
| readyAgain
| propose
| vote
deriving DecidableEq, Repr

structure Node (H : Type) [DecidableEq H] where
  cx : Context H
  phase : Phase

/- What can happen at a node. -/
inductive Event (H : Type) where
| tick
| recv (msg : ProtocolMsg H)
| sealed (batch : Batch)
| batch (batchHash : H) (batch : Batch)
| internal
deriving DecidableEq, Repr

variable {H : Type} [DecidableEq H] [Crypto H]

/- A node at the start of its reactor. -/
def Node.new (config : Config) : Node H where
  cx :=
    (Context.new config : Context H).announceHeightToBatcher
  phase := .select

end Artemis

end LibApollo

------------------------------------------------------------
-- Steps
------------------------------------------------------------

namespace LibApollo

namespace Artemis

variable {H : Type} [DecidableEq H] [Crypto H]

omit [Crypto H] in
/- Stay in the phase with the context a handler returned. -/
def Node.continue
    (phase : Phase)
    (result : Except Panic (Context H)) :
    Except Panic (Node H) :=
  result.map (fun cx => { cx := cx, phase := phase })

/- Dispatch one buffered message. -/
def handleOther
    (msg : ProtocolMsg H)
    (cx : Context H) : Except Panic (Context H) :=
  match msg with
  | .ucrVote v => tryReceiveRoundVote v.vote.origin v cx
  | .relay sender v => tryReceiveRoundVote sender v cx
  | .request sender reqId hash =>
      handleRequest sender reqId hash cx
  | .blame _ => .error .blame
  | _ => .error .unreachable

/- One iteration of a loop over the ready votes. -/
def readyLoop
    (phase next : Phase)
    (cx : Context H) : Except Panic (Node H) :=
  match cx.voteReady.lookup cx.round with
  | none => .ok { cx := cx, phase := next }
  | some v =>
      Node.continue phase
        (onReceiveRoundVote v
          { cx with
            voteReady := cx.voteReady.erase cx.round })

/- Deliver a block that came with the right batch. -/
def processBlock
    (block : Block H)
    (batch : Batch)
    (cx : Context H) : Except Panic (Context H) :=
  if checkBatchHash block batch then
    onReceiveNewBlockDirect block
      (cx.persistBatch block.blk.body.batchHash batch)
  else
    .ok cx

def processResponse
    (sender : Replica)
    (block : Block H)
    (batch : Batch)
    (cx : Context H) : Context H :=
  if checkBatchHash block batch then
    updateDelivery block sender
      (cx.persistBatch block.blk.body.batchHash batch)
  else
    cx

/- One iteration of the loops of `process_message`. -/
def processMessage
    (node : Node H) : Except Panic (Node H) :=
  let cx := node.cx
  match node.phase with
  | .blocks =>
      match cx.blockProcessingWaiting with
      | [] => .ok { node with phase := .responses }
      | (block, batch) :: rest =>
          Node.continue .blocks
            (processBlock block batch
              { cx with blockProcessingWaiting := rest })
  | .responses =>
      match cx.responseWaiting with
      | [] => .ok { node with phase := .ready }
      | (sender, block, batch) :: rest =>
          .ok
            { node with
              cx :=
                processResponse sender block batch
                  { cx with responseWaiting := rest } }
  | .ready => readyLoop .ready .others cx
  | .others =>
      match cx.otherBuf with
      | [] => .ok { node with phase := .readyAgain }
      | msg :: rest =>
          Node.continue .others
            (handleOther msg { cx with otherBuf := rest })
  | .readyAgain => readyLoop .readyAgain .propose cx
  | _ => .ok node

/- One iteration of the loop that dispatches batches. -/
def proposeLoop
    (node : Node H) : Except Panic (Node H) :=
  let cx := node.cx
  match cx.pendingBatches with
  | [] => .ok { node with phase := .vote }
  | (batchHash, batch) :: rest =>
      if cx.viewLeader = cx.myid then
        Node.continue .propose
          (doNewBlock batchHash batch
            { cx with pendingBatches := rest })
      else
        .ok { node with phase := .vote }

/- What the node does next without outside input. -/
def internalStep
    (node : Node H) : Except Panic (Node H) :=
  match node.phase with
  | .select => .ok node
  | .drain => .ok { node with phase := .blocks }
  | .propose => proposeLoop node
  | .vote => Node.continue .select (tryRoundVote node.cx)
  | _ => processMessage node

/- The step of a node on an event. -/
def step : Machine (Node H) (Event H) Panic :=
  fun node event =>
    match event with
    | .tick =>
        if node.phase = .select then
          .ok
            { cx :=
                if node.cx.myid =
                    node.cx.benchMetricsNode then
                  { node.cx with
                    benchCommittedTxCount := 0 }
                else
                  node.cx
              phase := .propose }
        else
          .ok node
    | .recv msg =>
        if node.phase = .select ∨ node.phase = .drain then
          .ok
            { cx := bufferMessage msg node.cx
              phase := .drain }
        else
          .ok node
    | .sealed batch =>
        .ok
          { node with
            cx :=
              node.cx.persistBatch batch.hash batch }
    | .batch batchHash batch =>
        if node.phase = .select then
          .ok
            { cx :=
                { node.cx with
                  pendingBatches :=
                    node.cx.pendingBatches ++
                      [(batchHash, batch)] }
              phase := .propose }
        else
          .ok node
    | .internal => internalStep node

end Artemis

end LibApollo

------------------------------------------------------------
-- The Vote a Step Considers
------------------------------------------------------------

namespace LibApollo

namespace Artemis

variable {H : Type} [DecidableEq H] [Crypto H]

omit [Crypto H] in
/- A vote of the current round for a delivered block. -/
def Current
    (cx : Context H)
    (v : UCRVote H) : Prop :=
  v.round = cx.round ∧
    cx.storage.isDeliveredByHash v.hash = true

instance
    (cx : Context H)
    (v : UCRVote H) : Decidable (Current cx v) :=
  inferInstanceAs (Decidable (_ ∧ _))

/-
  The vote that the next internal step hands to
  `onReceiveRoundVote`, read off the queues before the step.
-/
def candidateVote
    (node : Node H) : Option (UCRVote H) :=
  let cx := node.cx
  match node.phase with
  | .ready => cx.voteReady.lookup cx.round
  | .readyAgain => cx.voteReady.lookup cx.round
  | .others =>
      match cx.otherBuf with
      | .ucrVote v :: _ =>
          if Current cx v then some v else none
      | .relay _ v :: _ =>
          if Current cx v then some v else none
      | _ => none
  | _ => none

/- The checks of `onReceiveRoundVote`. -/
def Acceptable
    (cx : Context H)
    (v : UCRVote H) : Prop :=
  cx.view = v.view ∧
    (cx.myid = cx.leaders.roundLeader ∨
      ∃ publicKey,
        cx.pubKeyMap.lookup cx.leaders.roundLeader =
            some publicKey ∧
          v.checkSig publicKey = true)

/- The step on this event may accept this vote. -/
def StepConsiders
    (node : Node H)
    (event : Event H)
    (v : UCRVote H) : Prop :=
  event = .internal ∧
    candidateVote node = some v ∧
    Acceptable node.cx v

end Artemis

end LibApollo
