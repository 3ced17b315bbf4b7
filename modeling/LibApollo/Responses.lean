import LibApollo.Apollo.Transitions
import LibApollo.Artemis.Buffers
import LibApollo.Commits
import LibApollo.Wire

/-
  Responses to block requests, in Apollo and Artemis.

  A response is put together from the accepted proposals,
  the blocks and the batches, which are kept in different
  maps.  Each map files its entries under their own hashes,
  so that what is sent belongs together and passes the
  checks of the node that asked for it.

  Key definitions include:
    * `Apollo.ChainFiled`
    * `Apollo.Usable`, `Artemis.Usable`

  Key theorems include:
    * `Apollo.Reach.intact`, `Artemis.Reach.intact`
    * `responses_usable`
-/

------------------------------------------------------------
-- Accepted Proposals of Apollo
------------------------------------------------------------

namespace LibApollo

namespace Apollo

open Committer

variable {H : Type} [DecidableEq H] [Crypto H]
variable {cx cx' : Context H}
variable {node node' : Node H}
variable {event : Event H}
variable {sender : Replica}
variable {p : Propose H}
variable {block : Block H}

omit [Crypto H] in
/- Proposals are kept under the hashes of their blocks. -/
def ChainFiled (cx : Context H) : Prop :=
  ∀ hash p, cx.propChainByHash.lookup hash = some p →
    p.blockHash = hash

omit [Crypto H] in
theorem ChainFiled.of_eq
    (hFiled : ChainFiled cx)
    (hEq : cx'.propChainByHash = cx.propChainByHash) :
    ChainFiled cx' := by
  unfold ChainFiled
  rw [hEq]
  exact hFiled

omit [Crypto H] in
theorem ChainFiled.send
    (hFiled : ChainFiled cx)
    (dest : Replica)
    (msg : ProtocolMsg H) :
    ChainFiled (cx.send dest msg) := by
  rcases send_outbox cx dest msg with ⟨_, hEq⟩
  rw [hEq]
  exact hFiled.of_eq rfl

omit [Crypto H] in
theorem ChainFiled.acceptProposal
    (hFiled : ChainFiled cx)
    (hAccept : acceptProposal p block cx = .ok cx') :
    ChainFiled cx' := by
  rcases acceptProposal_ok hAccept with
    ⟨_, _, _, _, _, _, rfl⟩
  exact FinMap.forall_insert hFiled rfl

theorem ChainFiled.receives
    (hFiled : ChainFiled cx)
    (hReceives : Receives sender p block cx cx') :
    ChainFiled cx' := by
  cases hReceives with
  | refuse _ _ => exact hFiled
  | keep _ => exact hFiled.of_eq rfl
  | equivocation _ _ => exact hFiled
  | accept _ _ hAccept =>
      exact hFiled.acceptProposal hAccept

theorem ChainFiled.delivers
    (hFiled : ChainFiled cx)
    (hDelivers : Delivers sender p block cx cx') :
    ChainFiled cx' := by
  cases hDelivers with
  | park _ =>
      refine ChainFiled.send ?_ _ _
      exact hFiled.of_eq rfl
  | hand _ hReceives =>
      have hStored :
          ChainFiled (cx.addDeliveredBlock block) :=
        hFiled.of_eq rfl
      exact (hStored.receives hReceives).of_eq rfl

theorem ChainFiled.resolves
    {blockAndBatch : Option (Block H × Batch)}
    (hFiled : ChainFiled cx)
    (hResolves :
      Resolves sender p blockAndBatch cx cx') :
    ChainFiled cx' := by
  cases hResolves with
  | leave => exact hFiled
  | ask _ _ =>
      refine ChainFiled.send ?_ _ _
      exact hFiled.of_eq rfl
  | @sent block batch _ _ _ _ hDelivers =>
      have hPersisted :
          ChainFiled
            (cx.persistBatch block.body.batchHash batch) :=
        hFiled.of_eq rfl
      exact hPersisted.delivers hDelivers
  | stored _ _ hDelivers => exact hFiled.delivers hDelivers

theorem ChainFiled.transition
    (hFiled : ChainFiled cx)
    (hTransition : Transition cx event cx') :
    ChainFiled cx' := by
  cases hTransition with
  | stay => exact hFiled
  | count _ => exact hFiled.of_eq rfl
  | queue msg => cases msg <;> exact hFiled.of_eq rfl
  | install _ => exact hFiled.of_eq rfl
  | pend _ _ => exact hFiled.of_eq rfl
  | @proposal _ _ _ _ rest _ _ hResolves =>
      have hPopped :
          ChainFiled { cx with propBuf := rest } :=
        hFiled.of_eq rfl
      exact hPopped.resolves hResolves
  | @relay _ _ rest _ _ hResolves =>
      have hPopped :
          ChainFiled { cx with relayBuf := rest } :=
        hFiled.of_eq rfl
      exact hPopped.resolves hResolves
  | @answer sender reqId hash rest _ =>
      rcases onRecvRequest_eq sender reqId hash
          { cx with otherBuf := rest } with ⟨_, _, hEq⟩
      rw [hEq]
      exact hFiled.of_eq rfl
  | skip _ => exact hFiled.of_eq rfl
  | future _ hResolves =>
      have hTaken :
          ChainFiled { cx with
            futureMsgs := cx.futureMsgs.erase cx.round } :=
        hFiled.of_eq rfl
      exact hTaken.resolves hResolves
  | @child _ hash _ _ _ _ _ hReceives =>
      have hTaken :
          ChainFiled { cx with
            propWaitingParent :=
              cx.propWaitingParent.erase hash } :=
        hFiled.of_eq rfl
      exact hTaken.receives hReceives

theorem ChainFiled.doPropose
    {batchHash : H}
    {batch : Batch}
    (hFiled : ChainFiled cx)
    (hPropose : doPropose batchHash batch cx = .ok cx') :
    ChainFiled cx' := by
  unfold Apollo.doPropose onReceiveProposal at hPropose
  dsimp only at hPropose
  split at hPropose
  · cases hPropose
    exact hFiled.of_eq rfl
  · refine ChainFiled.acceptProposal ?_ hPropose
    exact hFiled.of_eq rfl

theorem ChainFiled.step
    (hFiled : ChainFiled node.cx)
    (hStep : step node event = .ok node') :
    ChainFiled node'.cx := by
  rcases step_transition hStep with
    ⟨hTransition, _⟩ |
      ⟨batchHash, batch, rest, _, hPropose⟩
  · exact hFiled.transition hTransition
  · have hTaken :
        ChainFiled
          { node.cx with pendingBatches := rest } :=
      hFiled.of_eq rfl
    exact hTaken.doPropose hPropose

theorem Reach.intact
    {config : Config}
    (hReach :
      Machine.Reach step (fun _ event => Network event)
        (Node.new config) node) :
    node.cx.committer.Intact content ∧
      ChainFiled node.cx := by
  apply hReach.invariant
    (fun node =>
      node.cx.committer.Intact content ∧
        ChainFiled node.cx)
  · refine ⟨(initial_new config).intact, ?_⟩
    intro hash p hLookup
    simp [Node.new, Context.new,
      Context.tellBatcher] at hLookup
  · intro node node' event hBoth hEvent hStep
    refine ⟨?_, hBoth.2.step hStep⟩
    rcases step_moves hEvent hStep with
      hMoves | ⟨_, _, _, hTakes⟩
    · exact hBoth.1.moves hMoves
    · exact hBoth.1.takes hTakes

end Apollo

end LibApollo

------------------------------------------------------------
-- Blocks of Artemis
------------------------------------------------------------

namespace LibApollo

namespace Artemis

open Committer

variable {H : Type} [DecidableEq H] [Crypto H]
variable {node : Node H}

theorem Reach.intact
    {config : Config}
    (hReach :
      Machine.Reach step (fun _ event => Network event)
        (Node.new config) node) :
    node.cx.committer.Intact content := by
  have hBoth :
      Ready node.cx ∧
        node.cx.committer.Intact content := by
    apply hReach.invariant
      (fun node =>
        Ready node.cx ∧
          node.cx.committer.Intact content)
    · exact ⟨ready_new config,
        (initial_new config).intact⟩
    · intro node node' event hParts hEvent hStep
      rcases hParts with ⟨hReady, hIntact⟩
      rcases step_follows hReady hEvent hStep with
        hFollows | ⟨hStill, _, _, _, hTakes⟩
      · exact ⟨hFollows.ready,
          hIntact.moves hFollows.moves⟩
      · exact ⟨hStill, hIntact.takes hTakes⟩
  exact hBoth.2

end Artemis

end LibApollo

------------------------------------------------------------
-- Usable Responses
------------------------------------------------------------

namespace LibApollo

namespace Apollo

variable {H : Type} [DecidableEq H] [Crypto H]

/-
  A response to a request for `hash`.  It is read back as it
  was sent, and a node in a round that is not accepted yet
  goes on with the block: no check drops it.
-/
def Usable
    (format : HashFormat H)
    (hash : H)
    (msg : ProtocolMsg H) : Prop :=
  ∃ sender reqId p block batch,
    msg = .response sender reqId p block batch ∧
      Crypto.blockHash block.header block.body = hash ∧
      batch.hash = block.body.batchHash ∧
      p.blockHash = hash ∧
      (msg.Fits →
        (ProtocolMsg.wire format).fromBytes
            ((ProtocolMsg.wire format).encode msg) =
          some msg) ∧
      ∀ cx : Context H,
        (cx.propChainByRound.lookup p.round).isSome =
            false →
          deliveryCheck sender p (some (block, batch)) cx =
            deliverBlock sender p block
              (cx.persistBatch block.body.batchHash batch)

theorem usable_response
    (format : HashFormat H)
    {hash : H}
    {sender : Replica}
    {reqId : Nat}
    {p : Propose H}
    {block : Block H}
    {batch : Batch}
    (hWell : block.WellHashed)
    (hHash : block.hash = hash)
    (hBatch : batch.hash = block.body.batchHash)
    (hProposal : p.blockHash = hash) :
    Usable format hash
      (.response sender reqId p block batch) := by
  refine ⟨sender, reqId, p, block, batch, rfl,
    hWell.symm.trans hHash, hBatch, hProposal, ?_, ?_⟩
  · intro hFits
    apply Codec.fromBytes_encode
    exact ⟨hFits, List.forall_mem_singleton.mpr hWell⟩
  · intro cx hOpen
    have hSame : ¬ block.hash ≠ p.blockHash :=
      not_not.mpr (hHash.trans hProposal.symm)
    have hCheck : checkBatchHash block batch = true :=
      decide_eq_true hBatch
    simp only [deliveryCheck, hOpen, hCheck, if_neg hSame,
      Bool.false_eq_true, if_false, Bool.not_true]

/- What a node that is asked for a block sends. -/
theorem onRecvRequest_usable
    {config : Config}
    {node : Node H}
    (format : HashFormat H)
    (hBatches :
      ∀ payload,
        Crypto.batchHash (H := H) payload ≠
          Crypto.emptyHash)
    (hReach :
      Machine.Reach step (fun _ event => Network event)
        (Node.new config) node)
    (sender : Replica)
    (reqId : Nat)
    (hash : H)
    (rest : List (ProtocolMsg H)) :
    ∃ sent,
      (onRecvRequest sender reqId hash
          { node.cx with otherBuf := rest }).outbox =
        node.cx.outbox ++ sent ∧
      ∀ packet ∈ sent,
        packet.1 = sender ∧
          Usable format hash packet.2 := by
  rcases Reach.intact hReach with ⟨hIntact, hFiled⟩
  unfold onRecvRequest
  split
  · exact ⟨[], (List.append_nil _).symm, nofun⟩
  rename_i p hProposal
  split
  · exact ⟨[], (List.append_nil _).symm, nofun⟩
  rename_i block hBlock
  split
  · rename_i read hRead
    have hSecond := congrArg Prod.snd hRead
    dsimp only at hSecond
    rw [← hSecond]
    exact ⟨[], (List.append_nil _).symm, nofun⟩
  · rename_i batch read hRead
    have hFirst := congrArg Prod.fst hRead
    have hSecond := congrArg Prod.snd hRead
    dsimp only at hFirst hSecond
    have hHeld :
        node.cx.batches.Holds block.body.batchHash batch :=
      BatchStores.holds_of_readBatch hFirst
    rcases hIntact.wellHashed hBatches
        (hIntact.delivered hash block hBlock) hHeld rfl with
      ⟨hWell, hBatch⟩
    have hHash : block.hash = hash :=
      Storage.getHash_of_delivered hBlock
    rw [← hSecond]
    unfold Context.send
    split
    · exact ⟨[], (List.append_nil _).symm, nofun⟩
    · refine ⟨_, rfl, List.forall_mem_singleton.mpr ?_⟩
      exact ⟨rfl, usable_response format hWell hHash hBatch
        (hFiled hash p hProposal)⟩

end Apollo

namespace Artemis

variable {H : Type} [DecidableEq H] [Crypto H]

/-
  A response to a request for `hash`.  It is read back as it
  was sent, and any node goes on with the block.
-/
def Usable
    (format : HashFormat H)
    (hash : H)
    (msg : ProtocolMsg H) : Prop :=
  ∃ sender reqId block batch,
    msg = .response sender reqId block batch ∧
      Crypto.blockHash block.blk.header block.blk.body =
        hash ∧
      batch.hash = block.blk.body.batchHash ∧
      (msg.Fits →
        (ProtocolMsg.wire format).fromBytes
            ((ProtocolMsg.wire format).encode msg) =
          some msg) ∧
      ∀ cx : Context H,
        processResponse sender block batch cx =
          updateDelivery block sender
            (cx.persistBatch block.blk.body.batchHash batch)

theorem usable_response
    (format : HashFormat H)
    {hash : H}
    {sender : Replica}
    {reqId : Nat}
    {block : Block H}
    {batch : Batch}
    (hWell : block.blk.WellHashed)
    (hHash : block.blk.hash = hash)
    (hBatch : batch.hash = block.blk.body.batchHash) :
    Usable format hash
      (.response sender reqId block batch) := by
  refine ⟨sender, reqId, block, batch, rfl,
    hWell.symm.trans hHash, hBatch, ?_, ?_⟩
  · intro hFits
    apply Codec.fromBytes_encode
    exact ⟨hFits, List.forall_mem_singleton.mpr hWell⟩
  · intro cx
    have hCheck : checkBatchHash block batch = true :=
      decide_eq_true hBatch
    rw [processResponse, if_pos hCheck]

/- The block for a request is the one with this hash. -/
theorem requestedBlock_proper
    {config : Config}
    {node : Node H}
    {hash : H}
    {block : Block H}
    (hReach :
      Machine.Reach step (fun _ event => Network event)
        (Node.new config) node)
    (hRequested : requestedBlock node.cx hash = .ok block) :
    block.blk.Proper ∧ block.blk.hash = hash := by
  have hIntact := Reach.intact hReach
  have hShelved := Reach.shelved hReach
  unfold requestedBlock at hRequested
  dsimp only at hRequested
  split at hRequested
  · cases hRequested
  · rename_i found hFound
    cases hRequested
    split at hFound
    · exact ⟨hIntact.delivered hash block hFound,
        Storage.getHash_of_delivered hFound⟩
    · exact ⟨Or.inr (hIntact.parked block ⟨hash, hFound⟩),
        hShelved.filed hash block hFound⟩

/- What a node that is asked for a block sends. -/
theorem handleRequest_usable
    {config : Config}
    {node : Node H}
    {cx' : Context H}
    (format : HashFormat H)
    (hBatches :
      ∀ payload,
        Crypto.batchHash (H := H) payload ≠
          Crypto.emptyHash)
    (hReach :
      Machine.Reach step (fun _ event => Network event)
        (Node.new config) node)
    {sender : Replica}
    {reqId : Nat}
    {hash : H}
    {rest : List (ProtocolMsg H)}
    (hHandle :
      handleRequest sender reqId hash
        { node.cx with otherBuf := rest } = .ok cx') :
    ∃ sent,
      cx'.outbox = node.cx.outbox ++ sent ∧
      ∀ packet ∈ sent,
        packet.1 = sender ∧
          Usable format hash packet.2 := by
  cases handleRequest_answers hHandle with
  | pass => exact ⟨[], (List.append_nil _).symm, nofun⟩
  | missing _ =>
      exact ⟨[], (List.append_nil _).symm, nofun⟩
  | @respond block batch hRequested hRead =>
      rcases requestedBlock_proper hReach hRequested with
        ⟨hProper, hHash⟩
      have hHeld :
          node.cx.batches.Holds block.blk.body.batchHash
            batch :=
        BatchStores.holds_of_readBatch hRead
      rcases (Reach.intact hReach).wellHashed hBatches
          hProper hHeld rfl with ⟨hWell, hBatch⟩
      unfold Context.send
      split
      · exact ⟨[], (List.append_nil _).symm, nofun⟩
      · refine ⟨_, rfl, List.forall_mem_singleton.mpr ?_⟩
        exact ⟨rfl,
          usable_response format hWell hHash hBatch⟩

end Artemis

/-
  In every reached state, whatever the request, what is sent
  in response can be used by the node that asked.
-/
theorem responses_usable
    {H : Type} [DecidableEq H] [Crypto H]
    (format : HashFormat H)
    (hBatches :
      ∀ payload,
        Crypto.batchHash (H := H) payload ≠
          Crypto.emptyHash) :
    (∀ (config : Apollo.Config) (node : Apollo.Node H),
      Machine.Reach Apollo.step
          (fun _ event => Apollo.Network event)
          (Apollo.Node.new config) node →
        ∀ sender reqId hash rest,
          ∃ sent,
            (Apollo.onRecvRequest sender reqId hash
                { node.cx with
                  otherBuf := rest }).outbox =
              node.cx.outbox ++ sent ∧
            ∀ packet ∈ sent,
              packet.1 = sender ∧
                Apollo.Usable format hash packet.2) ∧
      ∀ (config : Artemis.Config) (node : Artemis.Node H),
        Machine.Reach Artemis.step
            (fun _ event => Artemis.Network event)
            (Artemis.Node.new config) node →
          ∀ sender reqId hash rest cx',
            Artemis.handleRequest sender reqId hash
                { node.cx with otherBuf := rest } =
              .ok cx' →
            ∃ sent,
              cx'.outbox = node.cx.outbox ++ sent ∧
              ∀ packet ∈ sent,
                packet.1 = sender ∧
                  Artemis.Usable format hash packet.2 := by
  constructor
  · intro config node hReach sender reqId hash rest
    exact Apollo.onRecvRequest_usable format hBatches hReach
      sender reqId hash rest
  · intro config node hReach sender reqId hash rest cx'
      hHandle
    exact Artemis.handleRequest_usable format hBatches
      hReach hHandle

end LibApollo

------------------------------------------------------------
-- A Request for the Second Block
------------------------------------------------------------

namespace LibApollo

/- Hash values of thirty-two bytes, zero being reserved. -/
structure ReservedHash where
  value : Hash32
deriving DecidableEq

namespace ReservedHash

def zero : ReservedHash :=
  ⟨Hash32.zero⟩

def batchHash : ReservedHash :=
  ⟨Hash32.batchHash⟩

def firstHash : ReservedHash :=
  ⟨Hash32.firstHash⟩

def secondHash : ReservedHash :=
  ⟨Hash32.secondHash⟩

/- As `Hash32.doHash`, but for inputs that it maps to zero. -/
def doHash (bytes : Bytes) : ReservedHash :=
  if Hash32.doHash bytes = Hash32.zero then
    firstHash
  else
    ⟨Hash32.doHash bytes⟩

def format : HashFormat ReservedHash where
  size := 32
  toBytes hash := hash.value.val
  ofBytes bytes :=
    if hLength : bytes.length = 32 then
      some ⟨⟨bytes, hLength⟩⟩
    else
      none
  doHash := doHash
  length_toBytes := fun hash => hash.value.property
  ofBytes_toBytes := fun hash => dif_pos hash.value.property

instance crypto : Crypto ReservedHash where
  emptyHash := zero
  blockHash header body :=
    doHash ((Wire.content format).encode (header, body))
  batchHash payload :=
    doHash (Wire.transaction.vec.encode payload)
  txHash tx := doHash (Wire.transaction.encode tx)
  ucrDigest hash round view :=
    doHash (((Wire.hash format).pair
      (Wire.u64.pair Wire.u64)).encode (hash, round, view))
  roundIndex round := round
  sign secretKey _ := secretKey
  verify publicKey _ auth := decide (publicKey = auth)

theorem batchHash_ne_emptyHash
    (payload : List Transaction) :
    Crypto.batchHash (H := ReservedHash) payload ≠
      Crypto.emptyHash := by
  change doHash (Wire.transaction.vec.encode payload) ≠ zero
  unfold doHash
  split
  · decide
  · rename_i hOther
    intro hEq
    exact hOther (congrArg ReservedHash.value hEq)

def firstBlock : Block ReservedHash :=
  Block.extending Block.genesis 0 1 batchHash

def secondBlock : Block ReservedHash :=
  Block.extending firstBlock 1 2 batchHash

/- The proposals of the leaders of rounds 1 and 2. -/
def firstProposal : Apollo.Propose ReservedHash where
  sig := ⟨0, Digest.keyOf 0⟩
  round := 1
  blockHash := firstHash

def secondProposal : Apollo.Propose ReservedHash where
  sig := ⟨1, Digest.keyOf 1⟩
  round := 2
  blockHash := secondHash

/- Node 2 accepts the two proposals. -/
def acceptedRun : List (Apollo.Event ReservedHash) :=
  [.recv (.newProposal firstProposal firstBlock oneBatch),
    .recv
      (.newProposal secondProposal secondBlock
        oneBatch)] ++
    List.replicate 4 .internal

end ReservedHash

open ReservedHash in
/- Node 0 asks node 2 for the second block. -/
theorem responses_usable_second_block :
    ∃ node : Apollo.Node ReservedHash,
      Machine.Reach Apollo.step
          (fun _ event => Apollo.Network event)
          (Apollo.Node.new (Apollo.smallConfig 2)) node ∧
        (Apollo.onRecvRequest 0 7 secondHash
            { node.cx with otherBuf := [] }).outbox =
          node.cx.outbox ++
            [(0, .response 2 7 secondProposal secondBlock
              oneBatch)] ∧
        Apollo.Usable format secondHash
          (.response 2 7 secondProposal secondBlock
            oneBatch) := by
  have hRun :
      Machine.runCheck Apollo.step
        (fun _ event => Apollo.decodedCheck event)
        (fun node =>
          decide
            ((Apollo.onRecvRequest 0 7 secondHash
                { node.cx with otherBuf := [] }).outbox =
              node.cx.outbox ++
                [(0, .response 2 7 secondProposal
                  secondBlock oneBatch)]))
        (Apollo.Node.new (Apollo.smallConfig 2))
        acceptedRun = true := by
    decide +kernel
  rcases Machine.Reach.of_runCheck
      (fun _ _ hCheck =>
        Apollo.network_of_decodedCheck hCheck)
      hRun with ⟨node, hReach, hFinal⟩
  have hOutbox := of_decide_eq_true hFinal
  rcases (responses_usable format
      batchHash_ne_emptyHash).1 _ node hReach 0 7
        secondHash [] with ⟨sent, hSent, hUsable⟩
  have hEq := List.append_cancel_left
    (hOutbox.symm.trans hSent)
  rw [← hEq] at hUsable
  exact ⟨node, hReach, hOutbox,
    (List.forall_mem_singleton.mp hUsable).2⟩

end LibApollo
