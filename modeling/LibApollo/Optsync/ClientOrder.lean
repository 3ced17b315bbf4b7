import LibApollo.Synchs.Host
import LibApollo.Mempool.Handover
import LibApollo.Optsync.Announcements

/-
  From the clients of the leader to the announcements of all
  honest nodes.

  Every honest node of an Opt Sync system runs the reactor
  and its mempool.  The leader cuts the stream of its
  clients into batches and builds one block for each of
  them, so a block of height `h` that any honest node
  announces carries the `h`-th batch of that stream.

  Key definitions include:
    * `Synchs.Host.EndToEnd`
    * `HostAdmissible`
    * `OrderInv`

  Key theorems include:
    * `hosts_in_client_order`
    * `OrderInv.step`
    * `announced_in_client_order`
-/

------------------------------------------------------------
-- One Host
------------------------------------------------------------

namespace LibApollo

namespace Synchs

variable {H C : Type} [DecidableEq H] [Crypto H]

/-
  The batches a node proposes are the transactions of its
  clients in the order of arrival, in full batches, and what
  it announces are the batches of its blocks.
-/
structure Host.EndToEnd
    (protocol : Protocol H C)
    (count : CountSealer)
    (host : Host H C) : Prop where
  ordered :
    Mempool.payloads
        ((proposedEntries
          (host.ledger protocol).multicasts).map
            Prod.snd) <+:
      host.mempool.received
  full :
    ∀ entry ∈ (host.ledger protocol).entries,
      entry.1 = entry.2.hash ∧
        entry.2.payload.length = count.threshold
  announced : Announces (protocol.base host.node.cx)

namespace Host

variable {protocol : Protocol H C}
variable {count : CountSealer}
variable {host : Host H C}

omit [Crypto H] in
/- A node has taken the first batches of its mempool. -/
theorem Served.ordered
    {sealer : Sealer}
    (hServed : host.Served protocol sealer) :
    Mempool.payloads
        ((host.ledger protocol).entries.map Prod.snd) <+:
      host.mempool.received := by
  rcases hServed.taken with ⟨more, hMore⟩
  refine List.IsPrefix.trans ?_
    ((Mempool.payloads_initial
      (Mempool.handed_initial host.mempool)).trans
        hServed.orderly.ordered)
  rw [← hMore, List.map_append]
  exact Mempool.payloads_initial (List.prefix_append _ _)

theorem Sound.full
    (hSound : host.Sound protocol count.sealer)
    (entry : H × Batch)
    (hMem : entry ∈ (host.ledger protocol).entries) :
    entry.1 = entry.2.hash ∧
      entry.2.payload.length = count.threshold := by
  have hHanded := hSound.served.taken.subset hMem
  refine
    ⟨(hSound.stocked.installed.handed entry hHanded).1, ?_⟩
  apply CountSealer.eq_of_cuts
  apply hSound.served.orderly.cut
  exact (Mempool.handed_initial host.mempool).subset
    (List.mem_map_of_mem hHanded)

theorem Sound.endToEnd
    (hSound : host.Sound protocol count.sealer) :
    host.EndToEnd protocol count where
  ordered := by
    refine List.IsPrefix.trans ?_ hSound.served.ordered
    unfold Ledger.entries
    rw [List.map_append]
    exact Mempool.payloads_initial (List.prefix_append _ _)
  full := hSound.full
  announced := hSound.stocked.faithful.announces

end Host

end Synchs

namespace Optsync

open Synchs (Config Host Node)

variable {H : Type} [DecidableEq H] [Crypto H]

/-
  In every run of a host of either protocol, whatever the
  network sends and in whatever order the reactor and the
  tasks take their steps, the node proposes the transactions
  of its clients in the order of arrival and in full
  batches, and announces the batches of its blocks.
-/
theorem hosts_in_client_order
    (config : Config)
    (count : CountSealer) :
    (∀ host : Host H (Synchs.Context H),
      Machine.Reach
          (Host.step Synchs.protocol count.sealer)
          (fun _ _ => True)
          (Host.new (Synchs.Node.new config)) host →
        host.EndToEnd Synchs.protocol count) ∧
      ∀ host : Host H (Context H),
        Machine.Reach (Host.step protocol count.sealer)
            (fun _ _ => True)
            (Host.new (Node.new config)) host →
          host.EndToEnd protocol count := by
  constructor
  · intro host hReach
    have hSound :=
      Host.sound_of_reach Synchs.protocol_refines
        Synchs.protocol_posts rfl hReach
    exact hSound.endToEnd
  · intro host hReach
    have hSound :=
      Host.sound_of_reach protocol_refines protocol_posts
        rfl hReach
    exact hSound.endToEnd

end Optsync

end LibApollo

------------------------------------------------------------
-- Only Delivered Blocks Are Announced
------------------------------------------------------------

namespace LibApollo

namespace Synchs

variable {H C : Type} [DecidableEq H] [Crypto H]

omit [Crypto H] in
/- What is announced anew was delivered before. -/
def TellsDelivered (cx cx' : Context H) : Prop :=
  ∀ block ∈ announcedBlocks cx'.announced,
    block ∈ announcedBlocks cx.announced ∨
      ∃ hash,
        cx.storage.deliveredBlockFromHash hash = some block

omit [Crypto H] in
theorem tellsDelivered_of_eq
    {cx cx' : Context H}
    (hSame : cx'.announced = cx.announced) :
    TellsDelivered cx cx' := by
  intro block hMem
  rw [hSame] at hMem
  exact Or.inl hMem

theorem tellsDelivered_onCommit
    (p : Propose H)
    (cx : Context H) :
    TellsDelivered cx (onCommit p cx) := by
  unfold onCommit
  split
  · exact tellsDelivered_of_eq rfl
  · rename_i block hLookup
    split
    · exact tellsDelivered_of_eq rfl
    · unfold commitBlock Context.multicastClient
      dsimp only
      split
      · exact tellsDelivered_of_eq rfl
      · intro other hMem
        dsimp only [Context.readBatch] at hMem
        rw [announcedBlocks_append_newBlock,
          List.mem_append, List.mem_singleton] at hMem
        rcases hMem with hOld | rfl
        · exact Or.inl hOld
        · exact Or.inr ⟨p.blockHash, hLookup⟩

/- The handlers of a protocol announce delivered blocks. -/
structure Protocol.Tells
    (protocol : Protocol H C) : Prop where
  processMsg :
    ∀ msg cx cx',
      protocol.processMsg msg cx = .ok cx' →
        TellsDelivered (protocol.base cx)
          (protocol.base cx')
  propose :
    ∀ batchHash batch rest cx cx',
      protocol.propose batchHash batch
          (protocol.lift (keepBatches rest) cx) =
        .ok cx' →
        TellsDelivered (protocol.base cx)
          (protocol.base cx')

theorem Protocol.Tells.step
    {protocol : Protocol H C}
    {event : Event H}
    {node node' : Node C}
    (hTells : protocol.Tells)
    (hStep : protocol.step node event = .ok node') :
    TellsDelivered (protocol.base node.cx)
      (protocol.base node'.cx) := by
  cases Protocol.step_ok hStep with
  | idle => exact tellsDelivered_of_eq rfl
  | recv msg cx _ hProcess =>
      exact hTells.processMsg msg _ _ hProcess
  | batch batchHash batch =>
      apply tellsDelivered_of_eq
      dsimp only
      rw [protocol.base_lift]
      rfl
  | timer index p =>
      dsimp only
      rw [protocol.base_lift]
      exact tellsDelivered_onCommit p
        (removeTimer index (protocol.base node.cx))
  | sealed batch =>
      apply tellsDelivered_of_eq
      dsimp only
      rw [protocol.base_lift]
      rfl
  | propose batchHash batch rest cx _ _ hPropose =>
      exact hTells.propose _ _ _ _ _ hPropose

end Synchs

namespace Optsync

open Synchs (Protocol TellsDelivered tellsDelivered_of_eq)

variable {H : Type} [DecidableEq H] [Crypto H]

theorem protocol_tells :
    (protocol : Protocol H (Context H)).Tells where
  processMsg := by
    intro msg cx cx' hProcess
    cases processMsg_processed hProcess with
    | counted c p voted hVote =>
        rcases onVote_frame hVote with ⟨_, _, _, hFrame⟩
        apply tellsDelivered_of_eq
        change cx'.toContext.announced = _
        rw [hFrame]
        rfl
    | committed c p voted hVote =>
        rcases onVote_frame hVote with ⟨_, _, _, hFrame⟩
        have hTells :=
          Synchs.tellsDelivered_onCommit p voted.toContext
        rw [hFrame] at hTells
        change TellsDelivered cx.toContext
          (Synchs.onCommit p voted.toContext)
        rw [hFrame]
        exact hTells
    | _ => exact tellsDelivered_of_eq rfl
  propose := by
    intro batchHash batch rest cx cx' hPropose
    rcases propose_ok hPropose with ⟨_, _, _, _, rfl⟩
    exact tellsDelivered_of_eq rfl

end Optsync

end LibApollo

------------------------------------------------------------
-- Systems of Hosts
------------------------------------------------------------

namespace LibApollo

namespace Optsync

open Synchs (Config Host HostEvent Node Event)
open Synchs (announcedBlocks proposedBlocks)

variable {H : Type} [DecidableEq H] [Crypto H]
variable {honest : Finset Replica}
variable {keys : FinMap Replica Bytes}
variable {config : Replica → Config}
variable {sealer : Sealer}

/- The hosts of a system. -/
abbrev Hosts (H : Type) [DecidableEq H] :=
  Replica → Host H (Context H)

/- The nodes of the hosts. -/
def nodes (g : Hosts H) : Replica → Node (Context H) :=
  fun i => (g i).node

omit [Crypto H] in
theorem nodes_update
    (g : Hosts H)
    (i : Replica)
    (host : Host H (Context H)) :
    nodes (Function.update g i host) =
      Function.update (nodes g) i host.node := by
  funext j
  by_cases hEq : j = i
  · subst hEq
    rw [Function.update_self]
    unfold nodes
    rw [Function.update_self]
  · rw [Function.update_of_ne hEq]
    unfold nodes
    rw [Function.update_of_ne hEq]

/-
  What may happen at an honest host: anything that is
  admissible for its node, and all that its own tasks and
  clients do.
-/
def HostAdmissible
    (honest : Finset Replica)
    (keys : FinMap Replica Bytes)
    (g : Hosts H)
    (event : Replica × HostEvent H) : Prop :=
  event.1 ∈ honest ∧
    ∀ own, event.2.reactor = some own →
      Admissible honest keys (nodes g) (event.1, own)

/- Nothing forged comes with a batch of the mempool. -/
theorem admissible_batch
    {g : Replica → Node (Context H)}
    {i : Replica}
    (hHonest : i ∈ honest)
    (batchHash : H)
    (batch : Batch) :
    Admissible honest keys g (i, .batch batchHash batch) := by
  refine ⟨hHonest, ?_, ?_⟩
  · intro p block other hEvent
    cases hEvent
  · intro publicKey _ p block other hEvent
    cases hEvent

/- The system of nodes does not depend on the stores. -/
theorem SystemInv.of_ledger_eq
    {chain : Nat → Block H}
    {top : Nat}
    {g g' : Replica → Node (Context H)}
    (hInv : SystemInv honest keys chain top g)
    (hSame :
      ∀ i,
        (g' i).cx.toContext.ledger =
          (g i).cx.toContext.ledger) :
    SystemInv honest keys chain top g' where
  leader := by
    rw [hSame]
    exact hInv.leader
  follower := by
    intro i hHonest
    rw [hSame]
    exact hInv.follower i hHonest

/- The nodes of a system of hosts keep their invariant. -/
theorem systemInv_hosts
    {chain : Nat → Block H}
    {top : Nat}
    {g : Hosts H}
    {i : Replica}
    {event : HostEvent H}
    {host : Host H (Context H)}
    (hFree : CollisionFree H)
    (hInv : SystemInv honest keys chain top (nodes g))
    (hGuard : HostAdmissible honest keys g (i, event))
    (hSteps : Host.Steps protocol sealer (g i) event host) :
    ∃ chain' top',
      SystemInv honest keys chain' top'
        (Function.update (nodes g) i host.node) := by
  have hOwn :
      ∀ own node,
        Admissible honest keys (nodes g) (i, own) →
          step (nodes g i) own = .ok node →
          ∃ chain' top',
            SystemInv honest keys chain' top'
              (Function.update (nodes g) i node) := by
    intro own node hAdmissible hNode
    refine hInv.step hFree hAdmissible ?_
    unfold Network.step
    dsimp only
    rw [hNode]
  cases hSteps with
  | idle =>
      refine ⟨chain, top, ?_⟩
      rw [show (g i).node = nodes g i from rfl,
        Function.update_eq_self]
      exact hInv
  | react _ own node hReactor hNode =>
      exact hOwn own node (hGuard.2 own hReactor) hNode
  | intake batchHash batch rest _ _ hNode =>
      exact hOwn _ _
        (admissible_batch hGuard.1 batchHash batch) hNode
  | close =>
      refine ⟨chain, top, ?_⟩
      rw [show (g i).node = nodes g i from rfl,
        Function.update_eq_self]
      exact hInv
  | work event _ _ =>
      refine ⟨chain, top, hInv.of_ledger_eq ?_⟩
      intro j
      by_cases hEq : j = i
      · subst hEq
        rw [Function.update_self]
        exact Host.ledger_work protocol sealer (g j) event
      · rw [Function.update_of_ne hEq]

/-
  The chain of the leader, the mempools of the honest hosts
  and their announcements, which are of blocks the leader
  has proposed.
-/
structure OrderInv
    (honest : Finset Replica)
    (keys : FinMap Replica Bytes)
    (sealer : Sealer)
    (g : Hosts H) : Prop where
  system :
    ∃ chain top, SystemInv honest keys chain top (nodes g)
  sound :
    ∀ i ∈ honest, (g i).Sound protocol sealer
  announced :
    ∀ i ∈ honest,
      ∀ block ∈ announcedBlocks (g i).node.cx.announced,
        block = Block.genesis ∨
          block ∈
            proposedBlocks (g 0).node.cx.multicasts

theorem orderInv_new
    (hConfig : SystemConfig honest keys config) :
    OrderInv honest keys sealer
      (fun i => Host.new (Node.new (config i)) :
        Hosts H) where
  system := ⟨_, _, systemInv_new hConfig⟩
  sound := fun i _ => Host.sound_new rfl
  announced := by
    intro i _ block hMem
    exact absurd hMem List.not_mem_nil

/- A host announces only what its node had delivered. -/
theorem tellsDelivered_host
    {host host' : Host H (Context H)}
    {event : HostEvent H}
    (hSteps : Host.Steps protocol sealer host event host') :
    Synchs.TellsDelivered host.node.cx.toContext
      host'.node.cx.toContext := by
  cases hSteps with
  | react _ own node _ hNode =>
      exact protocol_tells.step hNode
  | intake batchHash batch rest _ _ hNode =>
      have hTells := protocol_tells.step hNode
      exact hTells
  | _ => exact Synchs.tellsDelivered_of_eq rfl

/- A host keeps the proposals it has sent. -/
theorem proposed_mono_host
    {host host' : Host H (Context H)}
    {event : HostEvent H}
    {block : Block H}
    (hSteps : Host.Steps protocol sealer host event host')
    (hMem :
      block ∈ proposedBlocks host.node.cx.multicasts) :
    block ∈ proposedBlocks host'.node.cx.multicasts := by
  cases hSteps with
  | react _ own node _ hNode =>
      exact (protocol_refines.step hNode).proposed_mono hMem
  | intake batchHash batch rest _ _ hNode =>
      exact (protocol_refines.step hNode).proposed_mono hMem
  | _ => exact hMem

/- Every step of an honest host keeps the invariant. -/
theorem OrderInv.step
    {g g' : Hosts H}
    {event : Replica × HostEvent H}
    (hFree : CollisionFree H)
    (hInv : OrderInv honest keys sealer g)
    (hGuard : HostAdmissible honest keys g event)
    (hStep :
      Network.step (Host.step protocol sealer) g event =
        .ok g') :
    OrderInv honest keys sealer g' := by
  rcases event with ⟨i, event⟩
  rcases Network.step_ok hStep with ⟨host, hHost, rfl⟩
  have hSteps := Host.step_ok hHost
  rcases hInv.system with ⟨chain, top, hSystem⟩
  have hMore :
      ∀ block ∈ proposedBlocks (g 0).node.cx.multicasts,
        block ∈
          proposedBlocks
            (Function.update g i host
              0).node.cx.multicasts := by
    intro block hBlock
    refine Network.at_update
      (fun host : Host H (Context H) =>
        block ∈ proposedBlocks host.node.cx.multicasts)
      ?_ hBlock
    intro hSelf
    subst hSelf
    exact proposed_mono_host hSteps hBlock
  have hDelivered :
      ∀ hash block,
        (g i).node.cx.storage.deliveredBlockFromHash hash =
            some block →
          block = Block.genesis ∨
            block ∈
              proposedBlocks (g 0).node.cx.multicasts := by
    intro hash block hLookup
    have hParts :=
      (hSystem.follower i hGuard.1).delivered hash block
        hLookup
    rwa [← hSystem.leader.proposed] at hParts
  refine
    { system := ?_
      sound := ?_
      announced := ?_ }
  · rw [nodes_update]
    exact systemInv_hosts hFree hSystem hGuard hSteps
  · intro j hHonest
    refine Network.at_update
      (fun host : Host H (Context H) =>
        host.Sound protocol sealer)
      ?_ (hInv.sound j hHonest)
    intro hSelf
    subst hSelf
    exact (hInv.sound i hHonest).step protocol_refines
      protocol_posts hHost
  · intro j hHonest
    refine Network.at_update
      (fun next : Host H (Context H) =>
        ∀ block ∈ announcedBlocks next.node.cx.announced,
          block = Block.genesis ∨
            block ∈
              proposedBlocks
                (Function.update g i host
                  0).node.cx.multicasts)
      ?_ ?_
    · intro hSelf block hMem
      subst hSelf
      rcases tellsDelivered_host hSteps block hMem with
        hOld | ⟨hash, hLookup⟩
      · exact (hInv.announced i hHonest block hOld).imp_right
          (hMore block)
      · exact (hDelivered hash block hLookup).imp_right
          (hMore block)
    · intro block hMem
      exact (hInv.announced j hHonest block hMem).imp_right
        (hMore block)

omit [DecidableEq H] [Crypto H] in
/- The entry of a proposal at its place in the list. -/
theorem getElem_proposedEntries
    {msgs : List (Synchs.ProtocolMsg H)}
    {block : Block H}
    {k : Nat}
    (hBlock : (proposedBlocks msgs)[k]? = some block) :
    ∃ batch,
      (Synchs.proposedEntries msgs)[k]? =
        some (block.body.batchHash, batch) := by
  have hFst :
      ((Synchs.proposedEntries msgs).map Prod.fst)[k]? =
        some block.body.batchHash := by
    rw [Synchs.proposedEntries_eq, List.getElem?_map,
      hBlock]
    rfl
  rw [List.getElem?_map, Option.map_eq_some_iff] at hFst
  rcases hFst with ⟨⟨hash, batch⟩, hEntry, rfl⟩
  exact ⟨batch, hEntry⟩

/-
  The block that the leader builds at a height carries the
  batch of that place in the stream of its clients.
-/
theorem OrderInv.leader_batch
    {g : Hosts H}
    {count : CountSealer}
    {block : Block H}
    (hZero : 0 ∈ honest)
    (hInv : OrderInv honest keys count.sealer g)
    (hBlock :
      block ∈ proposedBlocks (g 0).node.cx.multicasts) :
    ∃ batch : Batch,
      block.body.batchHash = batch.hash ∧
        1 ≤ block.header.height ∧
        block.header.height * count.threshold ≤
          (g 0).mempool.received.length ∧
        batch.payload =
          ((g 0).mempool.received.drop
            ((block.header.height - 1) *
              count.threshold)).take count.threshold := by
  rcases hInv.system with ⟨chain, top, hSystem⟩
  have hProposed :
      proposedBlocks (g 0).node.cx.multicasts =
        LeaderChain.blocks chain top :=
    hSystem.leader.proposed
  rw [hProposed] at hBlock
  rcases LeaderChain.mem_blocks.mp hBlock with
    ⟨k, hBound, rfl⟩
  rw [hSystem.leader.main.height k hBound]
  have hPlace :
      (proposedBlocks (g 0).node.cx.multicasts)[k]? =
        some (chain (k + 1)) := by
    rw [hProposed]
    unfold LeaderChain.blocks
    rw [List.getElem?_map, List.getElem?_range hBound]
    rfl
  rcases getElem_proposedEntries hPlace with
    ⟨batch, hEntry⟩
  have hSound := hInv.sound 0 hZero
  have hTaken :
      (Host.ledger protocol (g 0)).entries[k]? =
        some ((chain (k + 1)).body.batchHash, batch) := by
    have hShort :=
      (List.getElem?_eq_some_iff.mp hEntry).1
    exact (List.getElem?_append_left hShort).trans hEntry
  have hFull := hSound.full _
    (List.mem_of_getElem? hTaken)
  have hSize :
      ∀ batch ∈
          (Host.ledger protocol (g 0)).entries.map Prod.snd,
        batch.payload.length = count.threshold := by
    intro other hMem
    rcases List.mem_map.mp hMem with
      ⟨entry, hEntry, rfl⟩
    exact (hSound.full entry hEntry).2
  have hBatch :
      ((Host.ledger protocol (g 0)).entries.map
        Prod.snd)[k]? = some batch := by
    rw [List.getElem?_map, hTaken]
    rfl
  rcases Mempool.payload_at hSize hSound.served.ordered
    hBatch with ⟨hLength, hPayload⟩
  exact ⟨batch, hFull.1, Nat.le_add_left 1 k, hLength,
    hPayload⟩

/-
  In every run of a system of hosts with an honest leader,
  every announcement of an honest node at height `h` lists
  the hashes of the `h`-th batch in the stream of the
  leader's clients, which has arrived there in full.
-/
theorem announced_in_client_order
    {g : Hosts H}
    (hFree : CollisionFree H)
    (hInjective :
      Function.Injective
        (Crypto.batchHash : List Transaction → H))
    (hConfig : SystemConfig honest keys config)
    (count : CountSealer)
    (hReach :
      Machine.Reach
        (Network.step (Host.step protocol count.sealer))
        (HostAdmissible honest keys)
        (fun i => Host.new (Node.new (config i))) g) :
    ∀ i ∈ honest, ∀ block txHashes payload,
      .newBlock block txHashes payload ∈
          (g i).node.cx.announced →
        1 ≤ block.header.height ∧
          block.header.height * count.threshold ≤
            (g 0).mempool.received.length ∧
          txHashes =
            (((g 0).mempool.received.drop
              ((block.header.height - 1) *
                count.threshold)).take
                count.threshold).map Crypto.txHash := by
  have hInv : OrderInv honest keys count.sealer g := by
    apply hReach.invariant
      (OrderInv honest keys count.sealer)
      (orderInv_new hConfig)
    intro g g' event hInv hGuard hStep
    exact hInv.step hFree hGuard hStep
  intro i hHonest block txHashes payload hMem
  have hFaithful := (hInv.sound i hHonest).stocked.faithful
  have hAnnounced :
      block ∈
        announcedBlocks (g i).node.cx.announced :=
    List.mem_filterMap.mpr ⟨_, hMem, rfl⟩
  have hNot : block ≠ Block.genesis := by
    intro hGenesis
    apply hFaithful.notGenesis block hAnnounced
    rw [hGenesis, Block.genesis_hash]
  have hBlock :=
    (hInv.announced i hHonest block
      hAnnounced).resolve_left hNot
  rcases hInv.leader_batch hConfig.1 hBlock with
    ⟨batch, hHash, hHeight, hLength, hPayload⟩
  rcases hFaithful.named block txHashes payload hMem with
    ⟨found, _, hFound, hTx⟩
  -- two batches with one hash have the same payload
  have hSame : found.payload = batch.payload :=
    hInjective (hFound.trans hHash)
  refine ⟨hHeight, hLength, ?_⟩
  rw [hTx, ← hPayload, ← hSame]
  rfl

end Optsync

end LibApollo

------------------------------------------------------------
-- A Transaction on Its Way
------------------------------------------------------------

namespace LibApollo

namespace Optsync

open Synchs (Config Host HostEvent Node oneTx)
open Synchs (announcedBlocks)

variable {H : Type} [DecidableEq H] [Crypto H]
variable {honest : Finset Replica}
variable {keys : FinMap Replica Bytes}

/- Executable form of `HostAdmissible`. -/
def hostAdmissibleCheck
    (honest : Finset Replica)
    (keys : FinMap Replica Bytes)
    (g : Hosts H)
    (event : Replica × HostEvent H) : Bool :=
  decide (event.1 ∈ honest) &&
    match event.2.reactor with
    | none => true
    | some own =>
        admissibleCheck honest keys (nodes g)
          (event.1, own)

theorem hostAdmissible_of_check
    (g : Hosts H)
    (event : Replica × HostEvent H)
    (hCheck :
      hostAdmissibleCheck honest keys g event = true) :
    HostAdmissible honest keys g event := by
  unfold hostAdmissibleCheck at hCheck
  rw [Bool.and_eq_true] at hCheck
  refine ⟨of_decide_eq_true hCheck.1, ?_⟩
  intro own hOwn
  have hRest := hCheck.2
  rw [hOwn] at hRest
  exact admissible_of_admissibleCheck _ _ hRest

/-
  A client sends the leader a transaction; the mempool makes
  a batch of it, the leader proposes the batch, and replica
  1 announces the block when its timer has expired.
-/
def oneTxRun : List (Replica × HostEvent Digest) :=
  [(0, .mempool (.frame ⟨0, 0, [], []⟩)),
    (0, .mempool .batcher),
    (0, .mempool .processor),
    (0, .mempool .processor),
    (0, .intake), (0, .internal), (0, .internal),
    (1, .recv
      (.newProposal
        (proposalOf blockOfOneTx
          (Certificate.emptyCert Digest))
        blockOfOneTx oneTx)),
    (1, .internal),
    (1, .timer 0)]

theorem announced_in_client_order_one_tx :
    ∃ g : Hosts Digest,
      Machine.Reach
          (Network.step
            (Host.step protocol Mempool.oneEach.sealer))
          (HostAdmissible {0, 1} (Digest.keyMap [0, 1, 2]))
          (fun i => Host.new (Node.new (Config.small i)))
          g ∧
        (g 0).mempool.received = oneTx.payload ∧
        .newBlock blockOfOneTx [Crypto.txHash ⟨0, 0, [], []⟩]
            (Synchs.withPayload 0) ∈
          (g 1).node.cx.announced ∧
        [Crypto.txHash ⟨0, 0, [], []⟩] =
          (((g 0).mempool.received.drop
            ((blockOfOneTx.header.height - 1) * 1)).take
              1).map (Crypto.txHash (H := Digest)) := by
  have hRun :
      Machine.runCheck
        (Network.step
          (Host.step protocol Mempool.oneEach.sealer))
        (hostAdmissibleCheck {0, 1}
          (Digest.keyMap [0, 1, 2]))
        (fun g =>
          decide
            ((g 0).mempool.received = oneTx.payload ∧
              .newBlock blockOfOneTx
                  [Crypto.txHash ⟨0, 0, [], []⟩]
                  (Synchs.withPayload 0) ∈
                (g 1).node.cx.announced))
        (fun i => Host.new (Node.new (Config.small i)))
        oneTxRun = true := by
    decide +kernel
  rcases Machine.Reach.of_runCheck
      hostAdmissible_of_check hRun with
    ⟨g, hReach, hFinal⟩
  rcases of_decide_eq_true hFinal with
    ⟨hReceived, hAnnounced⟩
  have hConfig :
      SystemConfig {0, 1} (Digest.keyMap [0, 1, 2])
        Config.small :=
    ⟨by decide, fun _ _ => ⟨rfl, rfl⟩⟩
  have hOrder :=
    announced_in_client_order Digest.collisionFree
      Digest.batchHash_injective hConfig Mempool.oneEach
      hReach 1 (by decide) _ _ _ hAnnounced
  exact ⟨g, hReach, hReceived, hAnnounced, hOrder.2.2⟩

end Optsync

end LibApollo
