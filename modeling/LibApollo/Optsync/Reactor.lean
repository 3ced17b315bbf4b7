import LibApollo.Optsync.Handlers
import LibApollo.Synchs.Reactor

/-
  Opt Sync as a protocol of the reactor.

  Key definitions include:
    * `processMsg`, `propose`
    * `protocol`, `step`
-/

namespace LibApollo

namespace Optsync

open Synchs (ProtocolMsg Protocol Panic Config Node Event)

variable {H : Type} [DecidableEq H] [Crypto H]

/-
  Dispatch one message of the network.  A vote that makes a
  certificate responsive commits its block at once.
-/
def processMsg
    (msg : ProtocolMsg H)
    (cx : Context H) : Except Panic (Context H) :=
  match msg with
  | .newProposal p block batch => do
      let (decision, received) ←
        onReceiveProposal p block batch cx
      if decision then
        .ok (received.lift (Synchs.startTimer p))
      else
        .ok received
  | .voteMsg c p => do
      let (decision, voted) ← onVote c p cx
      if decision then .ok (onCommit p voted)
      else .ok voted
  | _ => .ok cx

/- Propose; the timer is started there. -/
def propose
    (batchHash : H)
    (batch : Batch)
    (cx : Context H) : Except Panic (Context H) := do
  let (_, proposed) ← doPropose batchHash batch cx
  .ok proposed

def protocol : Protocol H (Context H) where
  base cx := cx.toContext
  lift f cx := cx.lift f
  base_lift := fun _ _ => rfl
  processMsg := processMsg
  propose := propose

/- A node at the start of its reactor. -/
def Node.new (config : Config) : Node (Context H) where
  cx := Context.new config
  phase := .select

def step : Machine (Node (Context H)) (Event H) Panic :=
  protocol.step

end Optsync

end LibApollo
