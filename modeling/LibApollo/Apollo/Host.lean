import LibApollo.Apollo.Agreement
import LibApollo.Mempool.RRBatcher

/-
  A host of the Apollo protocol: the reactor with the tasks
  of its keyed mempool.

  The reactor, the batcher and the seal task run side by
  side.  What the reactor tells the batcher, what the
  batcher hands to the seal task and what the seal task
  sends to the reactor travels in unbounded first-in
  first-out channels.  The first two are the lists that the
  sender keeps, with the number of entries already taken.

  Key definitions include:
    * `Host`, `Host.new`
    * `HostEvent`, `Host.step`
    * `Host.pipeline`, `Host.Steps`

  Key theorems include:
    * `Host.step_ok`
-/

------------------------------------------------------------
-- Hosts
------------------------------------------------------------

namespace LibApollo

namespace Apollo

structure Host (H : Type) [DecidableEq H] where
  node : Node H
  batcher : RRBatcher Transaction
  informed : Nat
  sealedCount : Nat
  memToConsensus : List (H × Batch)

inductive HostEvent (H : Type) where
| bench
| recv (msg : ProtocolMsg H)
| internal
| intake
| timer
| client (tx : Transaction) (size : Nat)
| inform
| sealNext
deriving DecidableEq, Repr

/- What ends a task of a host. -/
inductive HostFailure where
| reactor (panic : Panic)
| batcher (stop : RRBatcher.Stop)
deriving DecidableEq, Repr

variable {H : Type} [DecidableEq H] [Crypto H]

namespace Host

/- By convention replica 0 is the initial leader. -/
def new
    (config : Config)
    (batchSize : Nat) : Host H where
  node := Node.new config
  batcher :=
    .new
      { myId := config.id
        initialLeader := 0
        batchSize := batchSize }
  informed := 0
  sealedCount := 0
  memToConsensus := []

/- A step of the reactor. -/
def react
    (host : Host H)
    (event : Event H) : Except HostFailure (Host H) :=
  match step host.node event with
  | .ok node => .ok { host with node := node }
  | .error panic => .error (.reactor panic)

/- A step of the batcher. -/
def batch
    (order : IterOrder)
    (host : Host H)
    (event : RRBatcher.Event Transaction) :
    Except HostFailure (Host H) :=
  match RRBatcher.step order host.batcher event with
  | .ok batcher => .ok { host with batcher := batcher }
  | .error stop => .error (.batcher stop)

/-
  A task that fails takes no further steps, and the others
  go on.  The seal task installs a batch before it sends it
  on; the reactor takes a batch only in `select`.
-/
def step
    (order : IterOrder) :
    Machine (Host H) (HostEvent H) HostFailure :=
  fun host event =>
    match event with
    | .bench => host.react .tick
    | .recv msg => host.react (.recv msg)
    | .internal => host.react .internal
    | .intake =>
        match host.memToConsensus with
        | [] => .ok host
        | (batchHash, batch) :: rest =>
            if host.node.phase = .select then
              react { host with memToConsensus := rest }
                (.batch batchHash batch)
            else
              .ok host
    | .timer => host.batch order .tick
    | .client tx size =>
        host.batch order (.incomingTx tx size)
    | .inform =>
        match host.node.cx.txConsensusToBatcher[
            host.informed]? with
        | none => .ok host
        | some msg =>
            batch order
              { host with informed := host.informed + 1 }
              (.consensus msg)
    | .sealNext =>
        match host.batcher.outgoing[host.sealedCount]? with
        | none => .ok host
        | some batch =>
            react
              { host with
                sealedCount := host.sealedCount + 1
                memToConsensus :=
                  host.memToConsensus ++
                    [(batch.hash, batch)] }
              (.sealed batch)

end Host

/- Hosts meet the network through their reactors. -/
def hostInterface :
    Network.Interface (Host H) (HostEvent H)
      (ProtocolMsg H) where
  outbox host := host.node.cx.outbox
  received
  | .recv msg => some msg
  | _ => none

end Apollo

end LibApollo

------------------------------------------------------------
-- What a Host Does in a Step
------------------------------------------------------------

namespace LibApollo

namespace Apollo

namespace Host

variable {H : Type} [DecidableEq H] [Crypto H]

/- The batches on their way from the pool to a proposal. -/
def pipeline (host : Host H) : List Batch :=
  host.node.cx.pendingBatches.map Prod.snd ++
    host.memToConsensus.map Prod.snd ++
    host.batcher.outgoing.drop host.sealedCount

/- What the batcher has been told so far. -/
def heard
    (host : Host H) :
    List (BatcherConsensusMsg Transaction) :=
  host.node.cx.txConsensusToBatcher.take host.informed

/- The ways in which a host can take a step. -/
inductive Steps
    (order : IterOrder)
    (host : Host H) : HostEvent H → Host H → Prop where
| idle (event : HostEvent H) :
    hostInterface.received event = none →
      Steps order host event host
| bench (node : Node H) :
    Apollo.step host.node .tick = .ok node →
      Steps order host .bench { host with node := node }
| recv (msg : ProtocolMsg H) (node : Node H) :
    Apollo.step host.node (.recv msg) = .ok node →
      Steps order host (.recv msg)
        { host with node := node }
| internal (node : Node H) :
    Apollo.step host.node .internal = .ok node →
      Steps order host .internal { host with node := node }
| intake (batchHash : H) (batch : Batch)
    (rest : List (H × Batch)) :
    host.memToConsensus = (batchHash, batch) :: rest →
      host.node.phase = .select →
      Steps order host .intake
        { host with
          memToConsensus := rest
          node :=
            { host.node with
              cx :=
                { host.node.cx with
                  pendingBatches :=
                    host.node.cx.pendingBatches ++
                      [(batchHash, batch)] }
              phase := .propose } }
| timer (batcher : RRBatcher Transaction) :
    RRBatcher.step order host.batcher .tick =
        .ok batcher →
      Steps order host .timer
        { host with batcher := batcher }
| client (tx : Transaction) (size : Nat)
    (batcher : RRBatcher Transaction) :
    RRBatcher.step order host.batcher
        (.incomingTx tx size) = .ok batcher →
      Steps order host (.client tx size)
        { host with batcher := batcher }
| inform (msg : BatcherConsensusMsg Transaction)
    (batcher : RRBatcher Transaction) :
    host.node.cx.txConsensusToBatcher[host.informed]? =
        some msg →
      RRBatcher.step order host.batcher (.consensus msg) =
        .ok batcher →
      Steps order host .inform
        { host with
          batcher := batcher
          informed := host.informed + 1 }
| sealNext (batch : Batch) :
    host.batcher.outgoing[host.sealedCount]? =
        some batch →
      Steps order host .sealNext
        { host with
          sealedCount := host.sealedCount + 1
          memToConsensus :=
            host.memToConsensus ++ [(batch.hash, batch)]
          node :=
            { host.node with
              cx :=
                host.node.cx.persistBatch batch.hash
                  batch } }

theorem react_ok
    {host host' : Host H}
    {event : Event H}
    (hReact : host.react event = .ok host') :
    ∃ node, Apollo.step host.node event = .ok node ∧
      host' = { host with node := node } := by
  unfold react at hReact
  split at hReact
  · rename_i node hStep
    cases hReact
    exact ⟨node, hStep, rfl⟩
  · cases hReact

omit [Crypto H] in
theorem batch_ok
    {order : IterOrder}
    {host host' : Host H}
    {event : RRBatcher.Event Transaction}
    (hBatch : host.batch order event = .ok host') :
    ∃ batcher,
      RRBatcher.step order host.batcher event =
          .ok batcher ∧
        host' = { host with batcher := batcher } := by
  unfold batch at hBatch
  split at hBatch
  · rename_i batcher hStep
    cases hBatch
    exact ⟨batcher, hStep, rfl⟩
  · cases hBatch

/- What a successful step did. -/
theorem step_ok
    {order : IterOrder}
    {host host' : Host H}
    {event : HostEvent H}
    (hStep : step order host event = .ok host') :
    Steps order host event host' := by
  cases event with
  | bench =>
      rcases react_ok hStep with ⟨node, hNode, rfl⟩
      exact .bench node hNode
  | recv msg =>
      rcases react_ok hStep with ⟨node, hNode, rfl⟩
      exact .recv msg node hNode
  | internal =>
      rcases react_ok hStep with ⟨node, hNode, rfl⟩
      exact .internal node hNode
  | intake =>
      simp only [step] at hStep
      split at hStep
      · cases hStep
        exact .idle _ rfl
      · rename_i batchHash batch rest hQueue
        split at hStep
        · rename_i hPhase
          rcases react_ok hStep with ⟨node, hNode, rfl⟩
          simp only [Apollo.step, hPhase, if_true,
            Except.ok.injEq] at hNode
          rw [← hNode]
          exact .intake batchHash batch rest hQueue hPhase
        · cases hStep
          exact .idle _ rfl
  | timer =>
      rcases batch_ok hStep with ⟨batcher, hBatcher, rfl⟩
      exact .timer batcher hBatcher
  | client tx size =>
      rcases batch_ok hStep with ⟨batcher, hBatcher, rfl⟩
      exact .client tx size batcher hBatcher
  | inform =>
      simp only [step] at hStep
      split at hStep
      · cases hStep
        exact .idle _ rfl
      · rename_i msg hNext
        rcases batch_ok hStep with ⟨batcher, hBatcher, rfl⟩
        exact .inform msg batcher hNext hBatcher
  | sealNext =>
      simp only [step] at hStep
      split at hStep
      · cases hStep
        exact .idle _ rfl
      · rename_i batch hNext
        rcases react_ok hStep with ⟨node, hNode, rfl⟩
        simp only [Apollo.step, Except.ok.injEq] at hNode
        rw [← hNode]
        exact .sealNext batch hNext

end Host

end Apollo

end LibApollo
