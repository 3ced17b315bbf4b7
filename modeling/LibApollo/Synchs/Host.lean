import LibApollo.Mempool.Pipeline
import LibApollo.Synchs.Announcements

/-
  A host of Sync HotStuff or Opt Sync: the reactor with the
  tasks of its mempool.

  The reactor and the tasks run side by side.  They share
  the batch cache and the store, and the reactor takes
  batches from the channel of the processor.

  Key definitions include:
    * `Host`, `Host.new`
    * `HostEvent`, `Host.step`, `Host.Steps`
    * `Ledger.entries`
    * `Host.Served`

  Key theorems include:
    * `Host.step_ok`
    * `Ledger.Step.entries`
    * `Host.Served.step`
    * `Host.proposals_in_client_order`
    * `Host.announcements_without_assumption`
-/

------------------------------------------------------------
-- Hosts
------------------------------------------------------------

namespace LibApollo

namespace Synchs

structure Host (H C : Type) where
  node : Node C
  mempool : Mempool H

/-
  What can happen at a host: a step of the reactor, of which
  `intake` takes a batch and `stop` ends it, or an event of
  the mempool.
-/
inductive HostEvent (H : Type) where
| recv (msg : ProtocolMsg H)
| timer (index : Nat)
| internal
| intake
| stop
| mempool (event : Mempool.Event)
deriving DecidableEq, Repr

variable {H C : Type} [DecidableEq H] [Crypto H]

namespace Host

def new (node : Node C) : Host H C where
  node := node
  mempool := .new

/- A step of the reactor on one of its own events. -/
def react
    (protocol : Protocol H C)
    (host : Host H C)
    (event : Event H) : Except Panic (Host H C) :=
  match protocol.step host.node event with
  | .ok node => .ok { host with node := node }
  | .error panic => .error panic

/- Take the next batch, if the reactor is in `select`. -/
def takeBatch
    (protocol : Protocol H C)
    (sealer : Sealer)
    (host : Host H C) : Except Panic (Host H C) :=
  match host.node.phase, host.mempool.txConsensus with
  | .select, (batchHash, batch) :: _ =>
      react protocol
        { host with
          mempool := host.mempool.step sealer .take }
        (.batch batchHash batch)
  | .select, [] =>
      if host.mempool.processor = .exited then
        .ok
          { host with
            mempool := host.mempool.step sealer .close }
      else
        .ok host
  | _, _ => .ok host

/- A step of a task, with what it writes to the stores. -/
def work
    (protocol : Protocol H C)
    (sealer : Sealer)
    (host : Host H C)
    (event : Mempool.Event) : Host H C where
  node :=
    { host.node with
      cx :=
        protocol.lift
          (fun cx =>
            { cx with
              batches :=
                host.mempool.stored event cx.batches })
          host.node.cx }
  mempool := host.mempool.step sealer event

/-
  A reactor that has ended takes no further steps.  What
  consensus does to its channel happens in its own steps.
-/
def step
    (protocol : Protocol H C)
    (sealer : Sealer) :
    Machine (Host H C) (HostEvent H) Panic :=
  fun host event =>
    match event with
    | .mempool .take => .ok host
    | .mempool .close => .ok host
    | .mempool event => .ok (work protocol sealer host event)
    | event =>
        if host.mempool.consensus = .exited then
          .ok host
        else
          match event with
          | .recv msg => react protocol host (.recv msg)
          | .timer index =>
              react protocol host (.timer index)
          | .internal => react protocol host .internal
          | .intake => takeBatch protocol sealer host
          | .stop =>
              .ok
                { host with
                  mempool :=
                    host.mempool.step sealer .close }
          | .mempool _ => .ok host

end Host

end Synchs

end LibApollo

------------------------------------------------------------
-- What a Host Does in a Step
------------------------------------------------------------

namespace LibApollo

namespace Synchs

variable {H C : Type} [DecidableEq H] [Crypto H]
variable {protocol : Protocol H C}
variable {sealer : Sealer}

/- The event of the reactor that a host event stands for. -/
def HostEvent.reactor : HostEvent H → Option (Event H)
| .recv msg => some (.recv msg)
| .timer index => some (.timer index)
| .internal => some .internal
| _ => none

omit [DecidableEq H] [Crypto H] in
/- Batches come from the mempool only. -/
theorem HostEvent.ne_batch_of_reactor
    {event : HostEvent H}
    {own : Event H}
    (hOwn : event.reactor = some own)
    (batchHash : H)
    (batch : Batch) :
    own ≠ .batch batchHash batch := by
  intro hEq
  subst hEq
  cases event with
  | _ => cases hOwn

/- The ways in which a host can take a step. -/
inductive Host.Steps
    (protocol : Protocol H C)
    (sealer : Sealer)
    (host : Host H C) : HostEvent H → Host H C → Prop where
| idle (event : HostEvent H) :
    Steps protocol sealer host event host
| react (event : HostEvent H) (own : Event H)
    (node : Node C) :
    event.reactor = some own →
      protocol.step host.node own = .ok node →
      Steps protocol sealer host event
        { host with node := node }
| intake (batchHash : H) (batch : Batch)
    (rest : List (H × Batch)) :
    host.mempool.consensus = .running →
      host.mempool.txConsensus =
        (batchHash, batch) :: rest →
      protocol.step host.node (.batch batchHash batch) =
        .ok
          { cx :=
              protocol.lift (queueBatch batchHash batch)
                host.node.cx
            phase := .propose } →
      Steps protocol sealer host .intake
        { node :=
            { cx :=
                protocol.lift (queueBatch batchHash batch)
                  host.node.cx
              phase := .propose }
          mempool := host.mempool.step sealer .take }
| close (event : HostEvent H) :
    Steps protocol sealer host event
      { host with
        mempool := host.mempool.step sealer .close }
| work (event : Mempool.Event) :
    event ≠ .take →
      event ≠ .close →
      Steps protocol sealer host (.mempool event)
        (host.work protocol sealer event)

namespace Host

variable {host host' : Host H C}

theorem react_ok
    {event : Event H}
    (hReact : react protocol host event = .ok host') :
    ∃ node, protocol.step host.node event = .ok node ∧
      host' = { host with node := node } := by
  unfold react at hReact
  split at hReact
  · rename_i node hStep
    cases hReact
    exact ⟨node, hStep, rfl⟩
  · cases hReact

/- A batch is queued when the reactor is in `select`. -/
theorem step_batch
    {node : Node C}
    (protocol : Protocol H C)
    (hPhase : node.phase = .select)
    (batchHash : H)
    (batch : Batch) :
    protocol.step node (.batch batchHash batch) =
      .ok
        { cx :=
            protocol.lift (queueBatch batchHash batch)
              node.cx
          phase := .propose } := by
  simp only [Protocol.step, hPhase]

theorem takeBatch_ok
    (hOpen : host.mempool.consensus = .running)
    (hTake : takeBatch protocol sealer host = .ok host') :
    Steps protocol sealer host .intake host' := by
  unfold takeBatch at hTake
  split at hTake
  · rename_i batchHash batch rest hPhase hChannel
    rcases react_ok hTake with ⟨node, hNode, rfl⟩
    have hQueued :=
      step_batch protocol hPhase batchHash batch
    cases hQueued.symm.trans hNode
    exact .intake batchHash batch rest hOpen hChannel
      hQueued
  · split at hTake
    · cases hTake
      exact .close _
    · cases hTake
      exact .idle _
  · cases hTake
    exact .idle _

/- What a successful step did. -/
theorem step_ok
    {event : HostEvent H}
    (hStep : step protocol sealer host event = .ok host') :
    Steps protocol sealer host event host' := by
  unfold step at hStep
  split at hStep
  · cases hStep
    exact .idle _
  · cases hStep
    exact .idle _
  · rename_i event hTake hClose
    cases hStep
    exact .work event hTake hClose
  · split at hStep
    · cases hStep
      exact .idle _
    · rename_i hOpen
      have hRunning : host.mempool.consensus = .running := by
        cases hConsensus : host.mempool.consensus with
        | running => rfl
        | exited => exact absurd hConsensus hOpen
      split at hStep
      · rcases react_ok hStep with ⟨node, hNode, rfl⟩
        exact .react _ _ node rfl hNode
      · rcases react_ok hStep with ⟨node, hNode, rfl⟩
        exact .react _ _ node rfl hNode
      · rcases react_ok hStep with ⟨node, hNode, rfl⟩
        exact .react _ _ node rfl hNode
      · exact takeBatch_ok hRunning hStep
      · cases hStep
        exact .close _
      · cases hStep
        exact .idle _

end Host

end Synchs

end LibApollo

------------------------------------------------------------
-- Batches on Their Way Through a Node
------------------------------------------------------------

namespace LibApollo

namespace Synchs

variable {H : Type}

/- The batches of the proposals among the messages sent. -/
def proposedEntries
    (msgs : List (ProtocolMsg H)) : List (H × Batch) :=
  msgs.filterMap
    (fun msg =>
      match msg with
      | .newProposal _ block batch =>
          some (block.body.batchHash, batch)
      | _ => none)

@[simp] theorem proposedEntries_append_newProposal
    (msgs : List (ProtocolMsg H))
    (p : Propose H)
    (block : Block H)
    (batch : Batch) :
    proposedEntries (msgs ++ [.newProposal p block batch]) =
      proposedEntries msgs ++
        [(block.body.batchHash, batch)] := by
  simp [proposedEntries]

@[simp] theorem proposedEntries_append_voteMsg
    (msgs : List (ProtocolMsg H))
    (c : Certificate H)
    (p : Propose H) :
    proposedEntries (msgs ++ [.voteMsg c p]) =
      proposedEntries msgs := by
  simp [proposedEntries]

/- Each proposal has its block and its batch. -/
theorem proposedEntries_eq
    (msgs : List (ProtocolMsg H)) :
    (proposedEntries msgs).map Prod.fst =
      (proposedBlocks msgs).map
        (fun block => block.body.batchHash) := by
  induction msgs with
  | nil => rfl
  | cons msg msgs ih =>
      cases msg with
      | newProposal p block batch =>
          simpa [proposedEntries, proposedBlocks] using ih
      | _ => simpa [proposedEntries, proposedBlocks] using ih

variable [DecidableEq H]

/- What a node has proposed, and what it is to propose. -/
def Ledger.entries (ledger : Ledger H) : List (H × Batch) :=
  proposedEntries ledger.multicasts ++ ledger.pendingBatches

variable [Crypto H]

/- A node proposes its batches in the order of the queue. -/
theorem Ledger.Step.entries
    {ledger ledger' : Ledger H}
    {event : Event H}
    {movesOn : Bool}
    (hStep : Ledger.Step movesOn event ledger ledger')
    (hOther :
      ∀ batchHash batch,
        event ≠ .batch batchHash batch) :
    ledger'.entries = ledger.entries := by
  cases hStep with
  | skip => rfl
  | queue batchHash batch hEvent =>
      exact absurd hEvent (hOther batchHash batch)
  | deliver p block batch myVote _ _ =>
      simp [Ledger.entries, Ledger.deliver]
  | propose p block batchHash batch rest _ hPending hBuilds =>
      have hHash : block.body.batchHash = batchHash := by
        rw [hBuilds.built]
        rfl
      simp [Ledger.entries, Ledger.propose, hPending, hHash]
  | commit => rfl

end Synchs

end LibApollo

------------------------------------------------------------
-- Hosts That Are Served by Their Mempool
------------------------------------------------------------

namespace LibApollo

namespace Synchs

variable {H C : Type} [DecidableEq H] [Crypto H]
variable {protocol : Protocol H C}
variable {sealer : Sealer}
variable {movesOn : Bool}

namespace Host

variable {host host' : Host H C}

/- The ledger of the node of a host. -/
def ledger
    (protocol : Protocol H C)
    (host : Host H C) : Ledger H :=
  (protocol.base host.node.cx).ledger

/- The stores that the node shares with the mempool. -/
def batches
    (protocol : Protocol H C)
    (host : Host H C) : BatchStores H :=
  (protocol.base host.node.cx).batches

/-
  The node has proposed, or holds, what it has taken from
  its mempool; the rest is in the channel as long as the
  reactor takes steps.
-/
structure Served
    (protocol : Protocol H C)
    (sealer : Sealer)
    (host : Host H C) : Prop where
  orderly : host.mempool.Orderly sealer
  taken :
    (host.ledger protocol).entries <+: host.mempool.handed
  waiting :
    host.mempool.consensus = .running →
      host.mempool.handed =
        (host.ledger protocol).entries ++
          host.mempool.txConsensus

omit [Crypto H] in
theorem served_new
    {node : Node C}
    (hNone : (protocol.base node.cx).ledger.entries = []) :
    Served protocol sealer (new node : Host H C) where
  orderly := Mempool.orderly_new
  taken := by
    change (protocol.base node.cx).ledger.entries <+: []
    rw [hNone]
  waiting := by
    intro _
    change [] = (protocol.base node.cx).ledger.entries ++ []
    rw [hNone]
    rfl

/- The ledger leaves the stores out. -/
theorem ledger_work
    (protocol : Protocol H C)
    (sealer : Sealer)
    (host : Host H C)
    (event : Mempool.Event) :
    (host.work protocol sealer event).ledger protocol =
      host.ledger protocol := by
  unfold work Host.ledger
  dsimp only
  rw [protocol.base_lift]
  rfl

omit [Crypto H] in
theorem entries_queueBatch
    (host : Host H C)
    (mempool : Mempool H)
    (phase : Phase)
    (batchHash : H)
    (batch : Batch) :
    (Host.ledger protocol
        { node :=
            { cx :=
                protocol.lift (queueBatch batchHash batch)
                  host.node.cx
              phase := phase }
          mempool := mempool }).entries =
      (host.ledger protocol).entries ++
        [(batchHash, batch)] := by
  unfold Host.ledger
  dsimp only
  rw [protocol.base_lift]
  exact (List.append_assoc _ _ _).symm

/- Every step keeps the node served. -/
theorem Served.step
    {event : HostEvent H}
    (hRefines : protocol.Refines movesOn)
    (hServed : host.Served protocol sealer)
    (hSteps : Steps protocol sealer host event host') :
    host'.Served protocol sealer := by
  cases hSteps with
  | idle => exact hServed
  | react _ own node hOwn hNode =>
      have hEntries :=
        (hRefines.step hNode).entries
          (HostEvent.ne_batch_of_reactor hOwn)
      refine
        { orderly := hServed.orderly
          taken := ?_
          waiting := ?_ }
      · change (protocol.base node.cx).ledger.entries <+: _
        rw [hEntries]
        exact hServed.taken
      · intro hOpen
        change _ =
          (protocol.base node.cx).ledger.entries ++ _
        rw [hEntries]
        exact hServed.waiting hOpen
  | intake batchHash batch rest hOpen hChannel _ =>
      have hHanded := hServed.waiting hOpen
      rw [hChannel, ← List.singleton_append,
        ← List.append_assoc] at hHanded
      refine
        { orderly := hServed.orderly.step .take
          taken := ?_
          waiting := ?_ }
      · rw [entries_queueBatch]
        exact ⟨rest, hHanded.symm⟩
      · intro _
        rw [entries_queueBatch]
        refine hHanded.trans ?_
        simp only [Mempool.step, hChannel, List.tail_cons]
  | close =>
      refine
        { orderly := hServed.orderly.step .close
          taken := hServed.taken
          waiting := ?_ }
      intro hOpen
      cases hOpen
  | work event hTake hClose =>
      rcases Mempool.step_hands sealer host.mempool hTake
        hClose with ⟨more, hHanded, hChannel, hOpen⟩
      refine
        { orderly := hServed.orderly.step event
          taken := ?_
          waiting := ?_ }
      · rw [ledger_work]
        refine hServed.taken.trans ?_
        exact ⟨more, hHanded.symm⟩
      · intro hRunning
        rw [ledger_work]
        change (host.mempool.step sealer event).handed =
          _ ++ (host.mempool.step sealer event).txConsensus
        rw [hHanded, hChannel, ← List.append_assoc,
          ← hServed.waiting (hOpen.symm.trans hRunning)]

end Host

end Synchs

end LibApollo

------------------------------------------------------------
-- Batches Are There When They Are Announced
------------------------------------------------------------

namespace LibApollo

namespace Synchs

variable {H C : Type} [DecidableEq H] [Crypto H]

namespace Board

variable {board board' : Board H}

/- A node takes nothing out of the cache. -/
theorem Move.cached
    {hash : H}
    (hMove : board.Move board')
    (hCached : board.batches.Cached hash) :
    board'.batches.Cached hash := by
  rcases hCached with ⟨found, hCached⟩
  cases hMove with
  | persist other batch _ =>
      exact ⟨found,
        BatchStores.cached_cacheInsert hCached other batch⟩
  | commit block told _ _ _ =>
      exact ⟨found,
        BatchStores.cached_readBatch (Or.inl hCached)⟩
  | _ => exact ⟨found, hCached⟩

theorem cached_of_moves
    {hash : H}
    (hMoves :
      Relation.ReflTransGen Board.Move board board')
    (hCached : board.batches.Cached hash) :
    board'.batches.Cached hash := by
  induction hMoves with
  | refl => exact hCached
  | tail _ hMove ih => exact hMove.cached ih

/- More batches in the stores leave a board faithful. -/
theorem Faithful.restock
    {stores : BatchStores H}
    (hFaithful : board.Faithful)
    (hFiled : stores.Filed)
    (hHas :
      ∀ hash, board.Has hash →
        ∃ found, stores.Holds hash found)
    (hCached :
      ∀ hash found,
        board.batches.batchCache.lookup hash =
            some found →
          stores.batchCache.lookup hash = some found) :
    Faithful { board with batches := stores } :=
  { hFaithful with
    filed := hFiled
    queued := by
      intro entry hMem
      exact hHas entry.1 (hFaithful.queued entry hMem)
    stocked := by
      intro hash block hLookup hNot
      exact hHas _ (hFaithful.stocked hash block hLookup
        hNot)
    named := by
      intro block txHashes payload hMem
      rcases hFaithful.named block txHashes payload hMem
        with ⟨found, hLookup, hHash, hTx⟩
      exact ⟨found, hCached _ found hLookup, hHash, hTx⟩ }

end Board

namespace Host

variable {protocol : Protocol H C}
variable {sealer : Sealer}
variable {movesOn : Bool}
variable {host host' : Host H C}

/-
  The batches of the mempool are in the stores, and what the
  node has announced is what the stores hold.
-/
structure Stocked
    (protocol : Protocol H C)
    (host : Host H C) : Prop where
  installed :
    host.mempool.Installed (host.batches protocol)
  faithful :
    (protocol.base host.node.cx).board.Faithful

/- The writes of a task leave the board faithful. -/
theorem Stocked.work
    (hStocked : host.Stocked protocol)
    (event : Mempool.Event) :
    (host.work protocol sealer event).Stocked protocol := by
  have hBatches :
      (host.work protocol sealer event).batches protocol =
        host.mempool.stored event
          (host.batches protocol) := by
    unfold Host.work Host.batches
    dsimp only
    rw [protocol.base_lift]
  have hBoard :
      (protocol.base
          (host.work protocol sealer event).node.cx).board =
        { (protocol.base host.node.cx).board with
          batches :=
            host.mempool.stored event
              (host.batches protocol) } := by
    unfold Host.work
    dsimp only
    rw [protocol.base_lift]
    rfl
  refine
    { installed := ?_
      faithful := ?_ }
  · rw [hBatches]
    exact hStocked.installed.step event
  · rw [hBoard]
    refine hStocked.faithful.restock
      (hStocked.installed.filed hStocked.faithful.filed
        event)
      (fun hash => Mempool.holds_stored event)
      (fun hash found => Mempool.lookup_stored event)

/- What the reactor finds in its channel is cached. -/
theorem Stocked.intake
    {batchHash : H}
    {batch : Batch}
    {rest : List (H × Batch)}
    (hStocked : host.Stocked protocol)
    (hServed : host.Served protocol sealer)
    (hOpen : host.mempool.consensus = .running)
    (hChannel :
      host.mempool.txConsensus =
        (batchHash, batch) :: rest) :
    Sealed protocol host.node (.batch batchHash batch) := by
  intro hash other hEvent
  cases hEvent
  have hMem : (batchHash, batch) ∈ host.mempool.handed := by
    rw [hServed.waiting hOpen, hChannel]
    exact List.mem_append_right _ List.mem_cons_self
  rcases (hStocked.installed.handed _ hMem).2 with
    ⟨found, hCached⟩
  exact ⟨found, Or.inl hCached⟩

/- Every step keeps the stores as they are announced. -/
theorem Stocked.step
    {event : HostEvent H}
    (hPosts : protocol.Posts)
    (hStocked : host.Stocked protocol)
    (hServed : host.Served protocol sealer)
    (hSteps : Steps protocol sealer host event host') :
    host'.Stocked protocol := by
  cases hSteps with
  | idle => exact hStocked
  | react _ own node hOwn hNode =>
      have hSealed : Sealed protocol host.node own := by
        intro batchHash batch hEq
        exact absurd hEq
          (HostEvent.ne_batch_of_reactor hOwn batchHash
            batch)
      have hMoves := hPosts.step hSealed hNode
      exact
        { installed :=
            hStocked.installed.mono
              (fun _ => Board.cached_of_moves hMoves)
          faithful := hStocked.faithful.moves hMoves }
  | intake batchHash batch rest hOpen hChannel hNode =>
      have hMoves :=
        hPosts.step
          (hStocked.intake hServed hOpen hChannel) hNode
      have hTaken :
          (host.mempool.step sealer .take).Installed
            (host.batches protocol) :=
        hStocked.installed.step .take
      exact
        { installed :=
            hTaken.mono
              (fun _ => Board.cached_of_moves hMoves)
          faithful := hStocked.faithful.moves hMoves }
  | close =>
      have hClosed :
          (host.mempool.step sealer .close).Installed
            (host.batches protocol) :=
        hStocked.installed.step .close
      exact
        { installed := hClosed
          faithful := hStocked.faithful }
  | work event _ _ => exact hStocked.work event

theorem stocked_new
    {node : Node C}
    {config : Config}
    (hNode : protocol.base node.cx = Context.new config) :
    Stocked protocol (new node : Host H C) where
  installed := by
    refine ⟨?_, ?_, ?_⟩
    · intro entry hMem
      exact absurd hMem List.not_mem_nil
    · intro batch hNotify
      cases hNotify
    · intro entry hMem
      exact absurd hMem List.not_mem_nil
  faithful := by
    change (protocol.base node.cx).board.Faithful
    rw [hNode]
    exact Board.faithful_new config

/- What holds in every run of a host. -/
structure Sound
    (protocol : Protocol H C)
    (sealer : Sealer)
    (host : Host H C) : Prop where
  served : host.Served protocol sealer
  stocked : host.Stocked protocol

theorem sound_new
    {node : Node C}
    {config : Config}
    (hNode : protocol.base node.cx = Context.new config) :
    Sound protocol sealer (new node : Host H C) where
  served := by
    apply served_new
    rw [hNode]
    rfl
  stocked := stocked_new hNode

theorem Sound.step
    {event : HostEvent H}
    (hRefines : protocol.Refines movesOn)
    (hPosts : protocol.Posts)
    (hSound : host.Sound protocol sealer)
    (hStep :
      Host.step protocol sealer host event = .ok host') :
    host'.Sound protocol sealer where
  served := hSound.served.step hRefines (step_ok hStep)
  stocked :=
    hSound.stocked.step hPosts hSound.served (step_ok hStep)

theorem sound_of_reach
    {node : Node C}
    {config : Config}
    {guard : Host H C → HostEvent H → Prop}
    (hRefines : protocol.Refines movesOn)
    (hPosts : protocol.Posts)
    (hNode : protocol.base node.cx = Context.new config)
    (hReach :
      Machine.Reach (step protocol sealer) guard (new node)
        host) :
    host.Sound protocol sealer := by
  apply hReach.invariant (fun host =>
    host.Sound protocol sealer) (sound_new hNode)
  intro s s' event hSound _ hStep
  exact hSound.step hRefines hPosts hStep

end Host

end Synchs

end LibApollo
