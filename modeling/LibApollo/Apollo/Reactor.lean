import LibApollo.Apollo.Handlers
import LibApollo.Base.Run

/-
  The Apollo reactor as a state machine.

  A node is its context together with the place its reactor
  has reached: waiting in `select`, draining the network,
  in one of the four loops of `process_message`, or in the
  leader loop.  Each handler call is one internal step, so
  that a run passes through the state before every call.
  An event that the reactor does not accept where it stands
  leaves the node unchanged.

  Key definitions include:
    * `Phase`, `Node`, `Event`
    * `Node.new`
    * `processMessage`, `proposeLoop`
    * `step`
    * `candidate`
-/

------------------------------------------------------------
-- Nodes and Events
------------------------------------------------------------

namespace LibApollo

namespace Apollo

/- Where the reactor stands. -/
inductive Phase where
| select
| drain
| props
| relays
| others
| future
| propose
deriving DecidableEq, Repr

/-
  `waiting` is the loop over waiting children in progress:
  the hash to look up next and the sender to ask.
-/
structure Node (H : Type) [DecidableEq H] where
  cx : Context H
  phase : Phase
  waiting : Option (H × Replica)

/- What can happen at a node. -/
inductive Event (H : Type) where
| tick
| recv (msg : ProtocolMsg H)
| sealed (batch : Batch)
| batch (batchHash : H) (batch : Batch)
| internal
deriving DecidableEq, Repr

variable {H : Type} [DecidableEq H] [Crypto H]

/- A node at the start of its reactor. -/
def Node.new (config : Config) : Node H where
  cx :=
    let cx := Context.new config
    cx.tellBatcher (.newRound cx.roundLeader cx.round)
  phase := .select
  waiting := none

end Apollo

end LibApollo

------------------------------------------------------------
-- Steps
------------------------------------------------------------

namespace LibApollo

namespace Apollo

variable {H : Type} [DecidableEq H] [Crypto H]

omit [Crypto H] in
/- Continue with the children of a delivered block. -/
def Node.afterDelivery
    (phase : Phase)
    (sender : Replica)
    (result : Except Panic (Context H × Option H)) :
    Except Panic (Node H) := do
  let (cx, child) ← result
  .ok
    { cx := cx
      phase := phase
      waiting := child.map (·, sender) }

/- One iteration of the loops of `process_message`. -/
def processMessage
    (node : Node H) : Except Panic (Node H) :=
  let cx := node.cx
  match node.phase with
  | .props =>
      match cx.propBuf with
      | [] => .ok { node with phase := .relays }
      | (sender, p, block, batch) :: rest =>
          Node.afterDelivery .props sender
            (deliveryCheck sender p (some (block, batch))
              { cx with propBuf := rest })
  | .relays =>
      match cx.relayBuf with
      | [] => .ok { node with phase := .others }
      | (sender, p) :: rest =>
          Node.afterDelivery .relays sender
            (deliveryCheck sender p none
              { cx with relayBuf := rest })
  | .others =>
      match cx.otherBuf with
      | [] => .ok { node with phase := .future }
      | msg :: rest =>
          let popped := { cx with otherBuf := rest }
          match msg with
          | .request sender reqId hash =>
              .ok
                { node with
                  cx :=
                    onRecvRequest sender reqId hash
                      popped }
          | .blame _ => .error .blame
          | _ => .ok { node with cx := popped }
  | .future =>
      match cx.futureMsgs.lookup cx.round with
      | none => .ok { node with phase := .propose }
      | some (sender, p) =>
          Node.afterDelivery .future sender
            (deliveryCheck sender p none
              { cx with
                futureMsgs :=
                  cx.futureMsgs.erase cx.round })
  | _ => .ok node

/- One iteration of the loop that proposes batches. -/
def proposeLoop
    (node : Node H) : Except Panic (Node H) :=
  let cx := node.cx
  match cx.pendingBatches with
  | [] => .ok { node with phase := .select }
  | (batchHash, batch) :: rest =>
      if cx.roundLeader = cx.myid then do
        let proposed ←
          doPropose batchHash batch
            { cx with pendingBatches := rest }
        .ok { node with cx := proposed }
      else
        .ok { node with phase := .select }

/- What the node does next without outside input. -/
def internalStep
    (node : Node H) : Except Panic (Node H) :=
  match node.waiting with
  | some (hash, sender) =>
      Node.afterDelivery node.phase sender
        (deliverWaitingChild sender hash node.cx)
  | none =>
      match node.phase with
      | .select => .ok node
      | .drain => .ok { node with phase := .props }
      | .propose => proposeLoop node
      | _ => processMessage node

/- The step of a node on an event. -/
def step : Machine (Node H) (Event H) Panic :=
  fun node event =>
    match event with
    | .tick =>
        if node.phase = .select then
          .ok
            { node with
              cx :=
                if node.cx.myid =
                    node.cx.benchMetricsNode then
                  { node.cx with
                    benchCommittedTxCount := 0 }
                else
                  node.cx
              phase := .propose }
        else
          .ok node
    | .recv msg =>
        if node.phase = .select ∨ node.phase = .drain then
          .ok
            { node with
              cx := handleMessage msg node.cx
              phase := .drain }
        else
          .ok node
    | .sealed batch =>
        .ok
          { node with
            cx :=
              node.cx.persistBatch batch.hash batch }
    | .batch batchHash batch =>
        if node.phase = .select then
          .ok
            { node with
              cx :=
                { node.cx with
                  pendingBatches :=
                    node.cx.pendingBatches ++
                      [(batchHash, batch)] }
              phase := .propose }
        else
          .ok node
    | .internal => internalStep node

end Apollo

end LibApollo

------------------------------------------------------------
-- The Proposal a Step Considers
------------------------------------------------------------

namespace LibApollo

namespace Apollo

variable {H : Type} [DecidableEq H] [Crypto H]

omit [Crypto H] in
/- The stored block of a proposal, when it can be tried. -/
def storedCandidate
    (cx : Context H)
    (p : Propose H) : Option (Propose H × Block H) :=
  match cx.storage.deliveredBlockFromHash p.blockHash with
  | none => none
  | some block =>
      if (cx.propChainByRound.lookup p.round).isNone ∧
          cx.storage.isDeliveredByHash block.header.prev
      then
        some (p, block)
      else
        none

/-
  The proposal and block that the next internal step hands
  to `tryReceiveProposal`, read off the queues and the
  block index before the step.
-/
def candidate
    (node : Node H) : Option (Propose H × Block H) :=
  let cx := node.cx
  match node.waiting with
  | some (hash, _) =>
      match cx.propWaitingParent.lookup hash with
      | none => none
      | some p =>
          (cx.storage.deliveredBlockFromHash
            p.blockHash).map (p, ·)
  | none =>
      match node.phase with
      | .props =>
          match cx.propBuf with
          | [] => none
          | (_, p, block, batch) :: _ =>
              if (cx.propChainByRound.lookup
                    p.round).isNone ∧
                  block.hash = p.blockHash ∧
                  checkBatchHash block batch ∧
                  cx.storage.isDeliveredByHash
                    block.header.prev then
                some (p, block)
              else
                none
      | .relays =>
          match cx.relayBuf with
          | [] => none
          | (_, p) :: _ => storedCandidate cx p
      | .future =>
          match cx.futureMsgs.lookup cx.round with
          | none => none
          | some (_, p) => storedCandidate cx p
      | _ => none

/-
  The checks a proposal passes before the equivocation
  check, as one predicate on the state before the step.
-/
def Acceptable
    (cx : Context H)
    (p : Propose H)
    (block : Block H) : Prop :=
  p.round = cx.round ∧
    block.hash = p.blockHash ∧
    cx.roundLeader = p.sig.origin ∧
    cx.roundLeader = block.header.author ∧
    (p.sig.origin = cx.myid ∨
      ∃ publicKey,
        cx.pubKeyMap.lookup p.sig.origin =
            some publicKey ∧
          p.checkSig publicKey = true)

end Apollo

end LibApollo
