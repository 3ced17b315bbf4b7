import LibApollo.Synchs.Handlers
import LibApollo.Base.Run

/-
  The reactor of Sync HotStuff and Opt Sync as a state
  machine.

  A node waits in `select` for a message, a batch or an
  expired commit timer, and after each of them runs the loop
  that proposes.  Each iteration of that loop is one
  internal step.  The two protocols differ in how they
  process a message and in what they do to propose.

  Key definitions include:
    * `Phase`, `Event`, `Node`
    * `Protocol`, `Protocol.step`
    * `processMsg`, `propose`
    * `protocol`, `step`
-/

------------------------------------------------------------
-- Nodes and Events
------------------------------------------------------------

namespace LibApollo

namespace Synchs

/- Where the reactor stands. -/
inductive Phase where
| select
| propose
deriving DecidableEq, Repr

/-
  What can happen at a node.  `sealed` is the mempool that
  writes a batch to the stores it shares with the node, and
  `timer` names the place of the expired timer in the queue.
-/
inductive Event (H : Type) where
| recv (msg : ProtocolMsg H)
| sealed (batch : Batch)
| batch (batchHash : H) (batch : Batch)
| timer (index : Nat)
| internal
deriving DecidableEq, Repr

/- A node with a context of type `C`. -/
structure Node (C : Type) where
  cx : C
  phase : Phase

end Synchs

end LibApollo

------------------------------------------------------------
-- The Reactor
------------------------------------------------------------

namespace LibApollo

namespace Synchs

/-
  What a protocol gives to the reactor.  Its context has the
  Sync HotStuff context as a part.
-/
structure Protocol (H C : Type) [DecidableEq H] where
  base : C → Context H
  lift : (Context H → Context H) → C → C
  base_lift : ∀ f cx, base (lift f cx) = f (base cx)
  processMsg : ProtocolMsg H → C → Except Panic C
  propose : H → Batch → C → Except Panic C

variable {H C : Type} [DecidableEq H]

/- Take a batch from the mempool. -/
def queueBatch
    (batchHash : H)
    (batch : Batch)
    (cx : Context H) : Context H :=
  { cx with
    pendingBatches :=
      cx.pendingBatches ++ [(batchHash, batch)] }

/- Leave only these batches in the queue. -/
def keepBatches
    (rest : List (H × Batch))
    (cx : Context H) : Context H :=
  { cx with pendingBatches := rest }

/- Remove the timer at a place of the queue. -/
def removeTimer
    (index : Nat)
    (cx : Context H) : Context H :=
  { cx with
    commitQueue := cx.commitQueue.eraseIdx index }

namespace Protocol

/- One iteration of the loop that proposes. -/
def proposeLoop
    (protocol : Protocol H C)
    (node : Node C) : Except Panic (Node C) :=
  let cx := protocol.base node.cx
  match cx.pendingBatches with
  | [] => .ok { node with phase := .select }
  | (batchHash, batch) :: rest =>
      if cx.nextLeader = cx.myid ∧
          (cx.certMap.lookup
            cx.lastSeenBlock.hash).isSome then
        (protocol.propose batchHash batch
          (protocol.lift (keepBatches rest) node.cx)).map
          (fun proposed => { node with cx := proposed })
      else
        .ok { node with phase := .select }

variable [Crypto H]

/- The step of a node on an event. -/
def step
    (protocol : Protocol H C) :
    Machine (Node C) (Event H) Panic :=
  fun node event =>
    match event, node.phase with
    | .recv msg, .select =>
        (protocol.processMsg msg node.cx).map
          (fun processed =>
            { cx := processed, phase := .propose })
    | .batch batchHash batch, .select =>
        .ok
          { cx :=
              protocol.lift (queueBatch batchHash batch)
                node.cx
            phase := .propose }
    | .timer index, .select =>
        match (protocol.base node.cx).commitQueue[index]? with
        | none => .ok node
        | some p =>
            .ok
              { cx :=
                  protocol.lift
                    (fun cx =>
                      onCommit p (removeTimer index cx))
                    node.cx
                phase := .propose }
    | .sealed batch, _ =>
        .ok
          { node with
            cx :=
              protocol.lift
                (·.persistBatch batch.hash batch)
                node.cx }
    | .internal, .propose => protocol.proposeLoop node
    | _, _ => .ok node

end Protocol

end Synchs

end LibApollo

------------------------------------------------------------
-- Sync HotStuff
------------------------------------------------------------

namespace LibApollo

namespace Synchs

variable {H : Type} [DecidableEq H] [Crypto H]

/- Dispatch one message of the network. -/
def processMsg
    (msg : ProtocolMsg H)
    (cx : Context H) : Except Panic (Context H) :=
  match msg with
  | .newProposal p block batch => do
      let (decision, received) ←
        onReceiveProposal p block batch cx
      if decision then .ok (startTimer p received)
      else .ok received
  | .voteMsg c p => do
      let (_, voted) ← onVote c p cx
      .ok voted
  | _ => .ok cx

/- Propose and start the timer of the proposal. -/
def propose
    (batchHash : H)
    (batch : Batch)
    (cx : Context H) : Except Panic (Context H) := do
  let (p, proposed) ← doPropose batchHash batch cx
  .ok (startTimer p proposed)

def protocol : Protocol H (Context H) where
  base cx := cx
  lift f cx := f cx
  base_lift := fun _ _ => rfl
  processMsg := processMsg
  propose := propose

/- A node at the start of its reactor. -/
def Node.new (config : Config) : Node (Context H) where
  cx := Context.new config
  phase := .select

def step : Machine (Node (Context H)) (Event H) Panic :=
  protocol.step

end Synchs

end LibApollo
