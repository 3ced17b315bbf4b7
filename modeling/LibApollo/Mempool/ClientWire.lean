import LibApollo.Mempool.Client
import LibApollo.Wire

/-
  The wire format of the messages between clients and nodes,
  and what of a client's submissions arrives.

  The keyed mempool has messages of its own, with the
  address to answer; those of Sync HotStuff and Opt Sync
  carry blocks.  An address is written without the flow and
  the scope of its version.  What the keyed client writes is
  read by the listener of a node as it was sent, so that
  every transaction is registered for the client and handed
  to the batcher in order.

  Key definitions include:
    * `SocketAddr`, `SocketAddr.wire`
    * `ClientMsg.wire`, `Synchs.ClientMsg.wire`
    * `Wire.Exact`
    * `ClientListener.listen`

  Key theorems include:
    * `client_messages_round_trip`
    * `KeyedClient.submissions_arrive`
-/

------------------------------------------------------------
-- Addresses
------------------------------------------------------------

namespace LibApollo

inductive SocketAddr where
| v4 (ip : Bytes) (port : Nat)
| v6 (ip : Bytes) (port flowinfo scopeId : Nat)
deriving DecidableEq, Repr

namespace SocketAddr

open Wire (u16)

/- The addresses that come back as they were sent. -/
def Fits : SocketAddr → Prop
| .v4 ip port => ip.length = 4 ∧ port < 2 ^ 16
| .v6 ip port flowinfo scopeId =>
    ip.length = 16 ∧ port < 2 ^ 16 ∧ flowinfo = 0 ∧
      scopeId = 0

def send :
    SocketAddr → (Bytes × Nat) ⊕ (Bytes × Nat) ⊕ Empty
| .v4 ip port => .inl (ip, port)
| .v6 ip port _ _ => .inr (.inl (ip, port))

def receive :
    (Bytes × Nat) ⊕ (Bytes × Nat) ⊕ Empty → SocketAddr
| .inl (ip, port) => .v4 ip port
| .inr (.inl (ip, port)) => .v6 ip port 0 0

def variants :
    Variants ((Bytes × Nat) ⊕ (Bytes × Nat) ⊕ Empty) :=
  .cons ((Codec.byte.array 4).pair u16) <|
  .cons ((Codec.byte.array 16).pair u16) .none

theorem send_valid
    (addr : SocketAddr)
    (hFits : addr.Fits) :
    variants.Valid addr.send := by
  cases addr with
  | v4 ip port =>
      exact ⟨⟨hFits.1, fun _ _ => trivial⟩, hFits.2⟩
  | v6 ip port flowinfo scopeId =>
      exact ⟨⟨hFits.1, fun _ _ => trivial⟩, hFits.2.1⟩

theorem receive_send
    (addr : SocketAddr)
    (hFits : addr.Fits) :
    receive addr.send = addr := by
  cases addr with
  | v4 ip port => rfl
  | v6 ip port flowinfo scopeId =>
      rcases hFits with ⟨-, -, rfl, rfl⟩
      rfl

theorem receive_fits
    (fields : (Bytes × Nat) ⊕ (Bytes × Nat) ⊕ Empty)
    (hValid : variants.Valid fields) :
    (receive fields).Fits := by
  rcases fields with ⟨ip, port⟩ | ⟨ip, port⟩ | none
  · exact ⟨hValid.1.1, hValid.2⟩
  · exact ⟨hValid.1.1, hValid.2, rfl, rfl⟩
  · exact none.elim

def wire : Codec SocketAddr :=
  (variants.enum (by
      simp [variants, Variants.cons, Variants.none])).via
    Fits send receive send_valid receive_send receive_fits

end SocketAddr

end LibApollo

------------------------------------------------------------
-- Messages of the Keyed Mempool
------------------------------------------------------------

namespace LibApollo

namespace ClientMsg

variable {H : Type}

def Fits : ClientMsg H SocketAddr → Prop
| .newTx tx replyTo => tx.Fits ∧ replyTo.Fits
| .newBatch batch replyTo =>
    batch.length < 2 ^ 64 ∧ (∀ tx ∈ batch, tx.Fits) ∧
      replyTo.Fits
| .confirmation _ => True

abbrev Fields (H : Type) :=
  (Transaction × SocketAddr) ⊕
  (List Transaction × SocketAddr) ⊕
  H ⊕ Empty

def send : ClientMsg H SocketAddr → Fields H
| .newTx tx replyTo => .inl (tx, replyTo)
| .newBatch batch replyTo => .inr (.inl (batch, replyTo))
| .confirmation hash => .inr (.inr (.inl hash))

def receive : Fields H → ClientMsg H SocketAddr
| .inl (tx, replyTo) => .newTx tx replyTo
| .inr (.inl (batch, replyTo)) => .newBatch batch replyTo
| .inr (.inr (.inl hash)) => .confirmation hash

def variants
    (format : HashFormat H) : Variants (Fields H) :=
  .cons (Wire.transaction.pair SocketAddr.wire) <|
  .cons (Wire.transaction.vec.pair SocketAddr.wire) <|
  .cons (Wire.hash format) .none

theorem send_valid
    (format : HashFormat H)
    (msg : ClientMsg H SocketAddr)
    (hFits : msg.Fits) :
    (variants format).Valid msg.send := by
  cases msg with
  | newTx tx replyTo => exact hFits
  | newBatch batch replyTo =>
      exact ⟨⟨hFits.1, hFits.2.1⟩, hFits.2.2⟩
  | confirmation hash => trivial

theorem receive_send (msg : ClientMsg H SocketAddr) :
    receive msg.send = msg := by
  cases msg with
  | newTx tx replyTo => rfl
  | newBatch batch replyTo => rfl
  | confirmation hash => rfl

theorem receive_fits
    (format : HashFormat H)
    (fields : Fields H)
    (hValid : (variants format).Valid fields) :
    (receive fields).Fits := by
  rcases fields with ⟨tx, replyTo⟩ | ⟨batch, replyTo⟩ |
    hash | none
  · exact hValid
  · exact ⟨hValid.1.1, hValid.1.2, hValid.2⟩
  · trivial
  · exact none.elim

def wire
    (format : HashFormat H) :
    Codec (ClientMsg H SocketAddr) :=
  ((variants format).enum (by
      simp [variants, Variants.cons, Variants.none])).via
    Fits send receive (send_valid format)
    (fun msg _ => receive_send msg) (receive_fits format)

end ClientMsg

end LibApollo

------------------------------------------------------------
-- Messages of Sync HotStuff and Opt Sync
------------------------------------------------------------

namespace LibApollo

namespace Synchs

namespace ClientMsg

variable {H : Type}

def Fits : ClientMsg H → Prop
| .newBlock block txHashes payload =>
    block.Fits ∧ txHashes.length < 2 ^ 64 ∧
      payload.length < 2 ^ 64
| .request _ => True
| .response _ block => block.Fits

def blocks : ClientMsg H → List (Block H)
| .newBlock block _ _ => [block]
| .request _ => []
| .response _ block => [block]

abbrev Fields (H : Type) :=
  (Block H × List H × Bytes) ⊕ H ⊕ (H × Block H) ⊕ Empty

def send : ClientMsg H → Fields H
| .newBlock block txHashes payload =>
    .inl (block, txHashes, payload)
| .request hash => .inr (.inl hash)
| .response hash block => .inr (.inr (.inl (hash, block)))

def receive : Fields H → ClientMsg H
| .inl (block, txHashes, payload) =>
    .newBlock block txHashes payload
| .inr (.inl hash) => .request hash
| .inr (.inr (.inl (hash, block))) => .response hash block

variable [Crypto H]

def Sendable (msg : ClientMsg H) : Prop :=
  msg.Fits ∧ ∀ block ∈ msg.blocks, block.WellHashed

def variants
    (format : HashFormat H) : Variants (Fields H) :=
  .cons
    ((Wire.block format).pair
      ((Wire.hash format).vec.pair Wire.bytes)) <|
  .cons (Wire.hash format) <|
  .cons ((Wire.hash format).pair (Wire.block format)) .none

theorem send_valid
    (format : HashFormat H)
    (msg : ClientMsg H)
    (hSendable : msg.Sendable) :
    (variants format).Valid msg.send := by
  rcases hSendable with ⟨hFits, hBlocks⟩
  cases msg with
  | newBlock block txHashes payload =>
      have hWell := hBlocks block (List.mem_singleton_self _)
      exact ⟨⟨hFits.1, hWell⟩,
        ⟨hFits.2.1, fun _ _ => trivial⟩, hFits.2.2⟩
  | request hash => trivial
  | response hash block =>
      have hWell := hBlocks block (List.mem_singleton_self _)
      exact ⟨trivial, hFits, hWell⟩

omit [Crypto H] in
theorem receive_send (msg : ClientMsg H) :
    receive msg.send = msg := by
  cases msg with
  | newBlock block txHashes payload => rfl
  | request hash => rfl
  | response hash block => rfl

theorem receive_sendable
    (format : HashFormat H)
    (fields : Fields H)
    (hValid : (variants format).Valid fields) :
    (receive fields).Sendable := by
  rcases fields with ⟨block, txHashes, payload⟩ | hash |
    ⟨hash, block⟩ | none
  · rcases hValid with ⟨⟨hBlock, hWell⟩, hHashes, hPayload⟩
    exact ⟨⟨hBlock, hHashes.1, hPayload⟩,
      List.forall_mem_singleton.mpr hWell⟩
  · exact ⟨trivial, List.forall_mem_nil _⟩
  · exact ⟨hValid.2.1,
      List.forall_mem_singleton.mpr hValid.2.2⟩
  · exact none.elim

def wire
    (format : HashFormat H) : Codec (ClientMsg H) :=
  ((variants format).enum (by
      simp [variants, Variants.cons, Variants.none])).via
    Sendable send receive (send_valid format)
    (fun msg _ => receive_send msg)
    (receive_sendable format)

end ClientMsg

end Synchs

end LibApollo

------------------------------------------------------------
-- Round Trips
------------------------------------------------------------

namespace LibApollo

/-
  Exactly the messages of a kind come back from their bytes,
  and they are told apart by them.
-/
structure Wire.Exact
    {M : Type}
    (codec : Codec M)
    (Good : M → Prop) : Prop where
  comesBack :
    ∀ msg,
      codec.fromBytes (codec.encode msg) = some msg ↔
        Good msg
  toldApart :
    ∀ left right, Good left → Good right →
      codec.encode left = codec.encode right →
        left = right

/- A codec is exact for the messages that are valid. -/
theorem Wire.Exact.of_valid
    {M : Type}
    {codec : Codec M}
    {Good : M → Prop}
    (hValid : ∀ msg, codec.Valid msg ↔ Good msg) :
    Wire.Exact codec Good where
  comesBack := by
    intro msg
    rw [codec.fromBytes_encode_iff]
    exact hValid msg
  toldApart := by
    intro left right hLeft hRight hEq
    exact codec.encode_inj ((hValid left).mpr hLeft)
      ((hValid right).mpr hRight) hEq

/-
  Messages of the keyed mempool come back as they were sent
  exactly when they fit, those of Sync HotStuff and Opt Sync
  exactly when they fit and their blocks carry the hash of
  their encoding.  Such messages are told apart by their
  bytes, and whatever is read carries blocks hashed so.
-/
theorem client_messages_round_trip
    {H : Type} [Crypto H]
    (format : HashFormat H)
    (hHash : format.SerAndHash) :
    Wire.Exact (ClientMsg.wire format) ClientMsg.Fits ∧
      Wire.Exact (Synchs.ClientMsg.wire format)
        (fun msg =>
          msg.Fits ∧
            ∀ block ∈ msg.blocks,
              block.hash =
                format.doHash
                  ((Wire.block format).encode block)) ∧
      Wire.RoundTrips format (Synchs.ClientMsg.wire format)
        Synchs.ClientMsg.Fits Synchs.ClientMsg.blocks := by
  refine ⟨.of_valid fun _ => Iff.rfl, .of_valid ?_,
    .of_valid hHash fun _ => Iff.rfl⟩
  intro msg
  change msg.Sendable ↔ _
  unfold Synchs.ClientMsg.Sendable
  simp only [Wire.wellHashed_iff hHash]

theorem client_messages_round_trip_second_block :
    Hash32.format.SerAndHash ∧
      Hash32.secondBlock.hash = Hash32.secondHash ∧
      (Synchs.ClientMsg.wire Hash32.format).fromBytes
        ((Synchs.ClientMsg.wire Hash32.format).encode
          (.newBlock Hash32.secondBlock
            oneBatch.txHashes [7])) =
        some
          (.newBlock Hash32.secondBlock
            oneBatch.txHashes [7]) := by
  refine ⟨Hash32.serAndHash, Hash32.hash_blocks.2.2.2, ?_⟩
  have hExact :=
    (client_messages_round_trip Hash32.format
      Hash32.serAndHash).2.1
  refine (hExact.comesBack _).mpr ⟨?_, ?_⟩
  · refine ⟨Hash32.secondBlock_fits, ?_, ?_⟩
    · simp [CachedBatch.txHashes, oneBatch]
    · simp
  · exact List.forall_mem_singleton.mpr rfl

end LibApollo

------------------------------------------------------------
-- Submissions
------------------------------------------------------------

namespace LibApollo

namespace ClientListener

variable {H : Type} [Crypto H]
variable {serializedSize : Transaction → Nat}

/- What comes in at the port for clients. -/
def listen
    (format : HashFormat H)
    (serializedSize : Transaction → Nat)
    (listener : ClientListener H SocketAddr)
    (bytes : Bytes) : ClientListener H SocketAddr :=
  receive serializedSize listener
    ((ClientMsg.wire format).fromBytes bytes)

/- Batches of one client, one after the other. -/
theorem foldl_receive_batches
    {listener : ClientListener H SocketAddr}
    (hRunning : listener.running = true)
    (hOpen : listener.batcherOpen = true)
    (replyTo : SocketAddr)
    (batches : List (List Transaction)) :
    batches.foldl
        (fun listener batch =>
          receive serializedSize listener
            (some (.newBatch batch replyTo))) listener =
      { listener with
        toRouter :=
          listener.toRouter ++
            batches.flatten.map
              (fun tx => (Crypto.txHash tx, replyTo))
        toBatcher :=
          listener.toBatcher ++
            batches.flatten.map
              (fun tx => (tx, serializedSize tx)) } := by
  induction batches generalizing listener with
  | nil => simp
  | cons batch batches ih =>
      rw [List.foldl_cons, receive,
        foldl_submit_eq hRunning hOpen]
      refine (ih ?_ ?_).trans ?_
      · exact hRunning
      · exact hOpen
      · simp

end ClientListener

namespace KeyedClient

variable {H : Type} [DecidableEq H] [Crypto H]
variable {checks : Bool}
variable {clientId : ClientId}
variable {payload txsPerBurst metric : Nat}
variable {replyTo : SocketAddr}
variable {client : KeyedClient H SocketAddr}

theorem newDummyTxKeyed_fits
    {nonce : Nat}
    (hId : clientId < 2 ^ 16)
    (hNonce : nonce < 2 ^ 64)
    (hPayload : payload < 2 ^ 64) :
    (Transaction.newDummyTxKeyed clientId nonce
      payload).Fits where
  clientId := hId
  nonce := hNonce
  data := by
    simp [Transaction.newDummyTxKeyed, toBeBytes]
  request := by
    simpa [Transaction.newDummyTxKeyed] using hPayload

omit [DecidableEq H] [Crypto H] in
/- Broadcasts of batches, by their batches. -/
theorem exists_batches
    {msgs : List (ClientMsg H SocketAddr)}
    {size : Nat}
    (hAll :
      ∀ msg ∈ msgs, ∃ batch,
        msg = .newBatch batch replyTo ∧
          batch.length = size) :
    ∃ batches : List (List Transaction),
      msgs = batches.map (.newBatch · replyTo) ∧
        ∀ batch ∈ batches, batch.length = size := by
  induction msgs with
  | nil => exact ⟨[], rfl, List.forall_mem_nil _⟩
  | cons msg msgs ih =>
      rcases List.forall_mem_cons.mp hAll with
        ⟨⟨batch, hMsg, hSize⟩, hRest⟩
      rcases ih hRest with ⟨batches, hMsgs, hSizes⟩
      refine ⟨batch :: batches, ?_, ?_⟩
      · rw [hMsg, hMsgs, List.map_cons]
      · exact List.forall_mem_cons.mpr ⟨hSize, hSizes⟩

/- What the client writes, read by the listener of a node. -/
def heardBy
    (format : HashFormat H)
    (serializedSize : Transaction → Nat)
    (client : KeyedClient H SocketAddr) :
    ClientListener H SocketAddr :=
  (client.broadcasts.map
    (ClientMsg.wire format).encode).foldl
      (ClientListener.listen format serializedSize) .new

/-
  Every transaction that the client has sent is registered
  for its address and handed to the batcher, in order.
-/
theorem submissions_arrive
    (format : HashFormat H)
    (serializedSize : Transaction → Nat)
    (hReach :
      Machine.Reach (step checks) (fun _ _ => True)
        (new clientId payload txsPerBurst metric replyTo)
        client)
    (hId : clientId < 2 ^ 16)
    (hPayload : payload < 2 ^ 64)
    (hBurst : txsPerBurst < 2 ^ 64)
    (hAddr : replyTo.Fits) :
    client.heardBy format serializedSize =
      { toRouter :=
          client.sent.map
            (fun tx => (Crypto.txHash tx, replyTo))
        toBatcher :=
          client.sent.map
            (fun tx => (tx, serializedSize tx))
        batcherOpen := true
        running := true } := by
  have hSettled :=
    hReach.invariant
      (Settled checks clientId payload txsPerBurst metric
        replyTo)
      Settled.start
      (fun _ _ _ hInv _ hStep => hInv.step hStep)
  have hTx : ∀ tx ∈ client.sent, tx.Fits := by
    intro tx hMem
    have hMinted := hSettled.account.minted
    rw [List.append_nil] at hMinted
    rw [hMinted] at hMem
    rcases List.mem_map.mp hMem with ⟨i, -, rfl⟩
    unfold dummy
    rw [hSettled.clientId_eq, hSettled.payload_eq]
    exact newDummyTxKeyed_fits hId
      (Nat.mod_lt _ (Nat.two_pow_pos 64)) hPayload
  rcases exists_batches hSettled.bursts with
    ⟨batches, hCasts, hLengths⟩
  have hSent : client.sent = batches.flatten := by
    unfold sent
    rw [hCasts, List.flatMap_map, List.flatMap_id']
  have hRead :
      ∀ batch ∈ batches,
        ∀ listener : ClientListener H SocketAddr,
          ClientListener.listen format serializedSize
              listener
              ((ClientMsg.wire format).encode
                (.newBatch batch replyTo)) =
            ClientListener.receive serializedSize listener
              (some (.newBatch batch replyTo)) := by
    intro batch hBatch listener
    have hFits :
        (ClientMsg.wire format).Valid
          (.newBatch batch replyTo) := by
      refine ⟨?_, ?_, hAddr⟩
      · rw [hLengths batch hBatch]
        exact Nat.max_lt.mpr ⟨hBurst, by omega⟩
      · intro tx hMem
        apply hTx tx
        rw [hSent]
        exact List.mem_flatten.mpr ⟨batch, hBatch, hMem⟩
    unfold ClientListener.listen
    rw [(ClientMsg.wire format).fromBytes_encode hFits]
  have hSame :=
    List.foldl_ext _ _
      (ClientListener.new : ClientListener H SocketAddr)
      (fun listener batch hBatch =>
        hRead batch hBatch listener)
  unfold heardBy
  rw [hCasts, List.map_map, List.foldl_map]
  refine hSame.trans ?_
  rw [ClientListener.foldl_receive_batches rfl rfl, hSent]
  rfl

/- Two bursts of two transactions. -/
theorem submissions_arrive_two_bursts :
    ∃ client : KeyedClient Hash32 SocketAddr,
      Machine.Reach (step true) (fun _ _ => True)
          (new 7 0 2 10 (.v4 [127, 0, 0, 1] 5000)) client ∧
        (client.heardBy Hash32.format
          (fun tx =>
            (Wire.transaction.encode
              tx).length)).toBatcher.length = 4 := by
  have hRun :
      Machine.runCheck (step true) (fun _ _ => true)
          (fun client => decide (client.sent.length = 4))
          (new 7 0 2 10 (.v4 [127, 0, 0, 1] 5000) :
            KeyedClient Hash32 SocketAddr)
          [.burst 5000000, .burst 6000000] = true := by
    decide +kernel
  rcases Machine.Reach.of_runCheck
      (fun _ _ _ => trivial) hRun with
    ⟨client, hReach, hFinal⟩
  have hHeard :=
    submissions_arrive Hash32.format
      (fun tx => (Wire.transaction.encode tx).length) hReach
      (by decide) (by decide) (by decide) ⟨rfl, by decide⟩
  refine ⟨client, hReach, ?_⟩
  rw [hHeard]
  simpa using hFinal

end KeyedClient

end LibApollo
