import LibApollo.Apollo.Context
import LibApollo.Artemis.Context
import LibApollo.Synchs.Context
import LibApollo.Types.Wire

/-
  The wire format of the protocol messages.

  A message is the index of its alternative followed by the
  fields.  Opt Sync uses the messages of Sync HotStuff, so
  the three formats here serve the four protocols.

  Key definitions include:
    * `Apollo.ProtocolMsg.Fits`, `Apollo.ProtocolMsg.wire`
    * `Artemis.ProtocolMsg.Fits`, `Artemis.ProtocolMsg.wire`
    * `Synchs.ProtocolMsg.Fits`, `Synchs.ProtocolMsg.wire`
    * `Hash32`, `Hash32.crypto`, `Hash32.format`

  Key theorems include:
    * `wire_round_trip`
-/

------------------------------------------------------------
-- Apollo
------------------------------------------------------------

namespace LibApollo

namespace Apollo

open Wire (u16 u64)

variable {H : Type}

structure Propose.Fits (p : Propose H) : Prop where
  sig : p.sig.Fits
  round : p.round < 2 ^ 64

/- The fields are values of their machine types. -/
def ProtocolMsg.Fits : ProtocolMsg H → Prop
| .newProposal p block batch =>
    p.Fits ∧ block.Fits ∧ batch.Fits
| .relay sender p => sender < 2 ^ 16 ∧ p.Fits
| .request sender reqId _ =>
    sender < 2 ^ 16 ∧ reqId < 2 ^ 64
| .response sender reqId p block batch =>
    sender < 2 ^ 16 ∧ reqId < 2 ^ 64 ∧ p.Fits ∧
      block.Fits ∧ batch.Fits
| .blame v => v.Fits

/- The blocks a message carries. -/
def ProtocolMsg.blocks : ProtocolMsg H → List (Block H)
| .newProposal _ block _ => [block]
| .relay _ _ => []
| .request _ _ _ => []
| .response _ _ _ block _ => [block]
| .blame _ => []

def Propose.wire
    (format : HashFormat H) : Codec (Propose H) :=
  (Wire.vote.pair (u64.pair (Wire.hash format))).via Propose.Fits
    (fun p => (p.sig, p.round, p.blockHash))
    (fun (sig, round, blockHash) =>
      ⟨sig, round, blockHash⟩)
    (fun _ hFits => ⟨hFits.sig, hFits.round, trivial⟩)
    (fun _ _ => rfl)
    (fun _ hValid => ⟨hValid.1, hValid.2.1⟩)

/- The fields of each alternative, in the source's order. -/
abbrev ProtocolMsg.Fields (H : Type) :=
  (Propose H × Block H × Batch) ⊕
  (Replica × Propose H) ⊕
  (Replica × Nat × H) ⊕
  (Replica × Nat × Propose H × Block H × Batch) ⊕
  Vote ⊕ Empty

def ProtocolMsg.send : ProtocolMsg H → ProtocolMsg.Fields H
| .newProposal p block batch => .inl (p, block, batch)
| .relay sender p => .inr (.inl (sender, p))
| .request sender reqId hash =>
    .inr (.inr (.inl (sender, reqId, hash)))
| .response sender reqId p block batch =>
    .inr (.inr (.inr (.inl
      (sender, reqId, p, block, batch))))
| .blame v => .inr (.inr (.inr (.inr (.inl v))))

def ProtocolMsg.receive :
    ProtocolMsg.Fields H → ProtocolMsg H
| .inl (p, block, batch) => .newProposal p block batch
| .inr (.inl (sender, p)) => .relay sender p
| .inr (.inr (.inl (sender, reqId, hash))) =>
    .request sender reqId hash
| .inr (.inr (.inr (.inl
    (sender, reqId, p, block, batch)))) =>
    .response sender reqId p block batch
| .inr (.inr (.inr (.inr (.inl v)))) => .blame v

variable [Crypto H]

/- The blocks carry the hash of their content. -/
def ProtocolMsg.Sendable (msg : ProtocolMsg H) : Prop :=
  msg.Fits ∧ ∀ block ∈ msg.blocks, block.WellHashed

/- The format of each alternative. -/
def ProtocolMsg.variants
    (format : HashFormat H) :
    Variants (ProtocolMsg.Fields H) :=
  .cons
    ((Propose.wire format).pair
      ((Wire.block format).pair Wire.batch)) <|
  .cons (u16.pair (Propose.wire format)) <|
  .cons (u16.pair (u64.pair (Wire.hash format))) <|
  .cons
    (u16.pair (u64.pair ((Propose.wire format).pair
      ((Wire.block format).pair Wire.batch)))) <|
  .cons Wire.vote .none

theorem ProtocolMsg.send_valid
    (format : HashFormat H)
    (msg : ProtocolMsg H)
    (hSendable : msg.Sendable) :
    (variants format).Valid msg.send := by
  rcases hSendable with ⟨hFits, hBlocks⟩
  cases msg with
  | newProposal p block batch =>
    rcases hFits with ⟨hPropose, hBlock, hBatch⟩
    have hWell := hBlocks block (List.mem_singleton_self _)
    exact ⟨hPropose, ⟨hBlock, hWell⟩, hBatch⟩
  | relay sender p => exact hFits
  | request sender reqId hash =>
    exact ⟨hFits.1, hFits.2, trivial⟩
  | response sender reqId p block batch =>
    rcases hFits with
      ⟨hSender, hReq, hPropose, hBlock, hBatch⟩
    have hWell := hBlocks block (List.mem_singleton_self _)
    exact ⟨hSender, hReq, hPropose, ⟨hBlock, hWell⟩, hBatch⟩
  | blame v => exact hFits

omit [Crypto H] in
theorem ProtocolMsg.receive_send (msg : ProtocolMsg H) :
    receive msg.send = msg := by
  cases msg <;> rfl

theorem ProtocolMsg.receive_sendable
    (format : HashFormat H)
    (fields : ProtocolMsg.Fields H)
    (hValid : (variants format).Valid fields) :
    (receive fields).Sendable := by
  rcases fields with ⟨p, block, batch⟩ | ⟨sender, p⟩ |
    ⟨sender, reqId, hash⟩ |
    ⟨sender, reqId, p, block, batch⟩ | v | none
  · rcases hValid with ⟨hPropose, ⟨hBlock, hWell⟩, hBatch⟩
    exact ⟨⟨hPropose, hBlock, hBatch⟩,
      List.forall_mem_singleton.mpr hWell⟩
  · exact ⟨hValid, List.forall_mem_nil _⟩
  · exact ⟨⟨hValid.1, hValid.2.1⟩, List.forall_mem_nil _⟩
  · rcases hValid with
      ⟨hSender, hReq, hPropose, ⟨hBlock, hWell⟩, hBatch⟩
    exact ⟨⟨hSender, hReq, hPropose, hBlock, hBatch⟩,
      List.forall_mem_singleton.mpr hWell⟩
  · exact ⟨hValid, List.forall_mem_nil _⟩
  · exact none.elim

def ProtocolMsg.wire
    (format : HashFormat H) : Codec (ProtocolMsg H) :=
  ((ProtocolMsg.variants format).enum (by
      simp [ProtocolMsg.variants, Variants.cons,
        Variants.none])).via
    ProtocolMsg.Sendable ProtocolMsg.send
    ProtocolMsg.receive
    (ProtocolMsg.send_valid format)
    (fun msg _ => ProtocolMsg.receive_send msg)
    (ProtocolMsg.receive_sendable format)

end Apollo

end LibApollo

------------------------------------------------------------
-- Artemis
------------------------------------------------------------

namespace LibApollo

namespace Artemis

open Wire (u16 u64)

variable {H : Type}

structure Block.Fits (block : Block H) : Prop where
  blk : block.blk.Fits
  sig : block.sig.Fits

structure UCRVote.Fits (v : UCRVote H) : Prop where
  round : v.round < 2 ^ 64
  view : v.view < 2 ^ 64
  vote : v.vote.Fits

def ProtocolMsg.Fits : ProtocolMsg H → Prop
| .newBlock block batch => block.Fits ∧ batch.Fits
| .ucrVote v => v.Fits
| .relay sender v => sender < 2 ^ 16 ∧ v.Fits
| .blame v => v.Fits
| .request sender reqId _ =>
    sender < 2 ^ 16 ∧ reqId < 2 ^ 64
| .response sender reqId block batch =>
    sender < 2 ^ 16 ∧ reqId < 2 ^ 64 ∧ block.Fits ∧
      batch.Fits
| .invalid => True

def ProtocolMsg.blocks :
    ProtocolMsg H → List (LibApollo.Block H)
| .newBlock block _ => [block.blk]
| .response _ _ block _ => [block.blk]
| .ucrVote _ => []
| .relay _ _ => []
| .blame _ => []
| .request _ _ _ => []
| .invalid => []

abbrev ProtocolMsg.Fields (H : Type) :=
  (Block H × Batch) ⊕
  UCRVote H ⊕
  (Replica × UCRVote H) ⊕
  Vote ⊕
  (Replica × Nat × H) ⊕
  (Replica × Nat × Block H × Batch) ⊕
  Unit ⊕ Empty

def ProtocolMsg.send : ProtocolMsg H → ProtocolMsg.Fields H
| .newBlock block batch => .inl (block, batch)
| .ucrVote v => .inr (.inl v)
| .relay sender v => .inr (.inr (.inl (sender, v)))
| .blame v => .inr (.inr (.inr (.inl v)))
| .request sender reqId hash =>
    .inr (.inr (.inr (.inr (.inl (sender, reqId, hash)))))
| .response sender reqId block batch =>
    .inr (.inr (.inr (.inr (.inr (.inl
      (sender, reqId, block, batch))))))
| .invalid =>
    .inr (.inr (.inr (.inr (.inr (.inr (.inl ()))))))

def ProtocolMsg.receive :
    ProtocolMsg.Fields H → ProtocolMsg H
| .inl (block, batch) => .newBlock block batch
| .inr (.inl v) => .ucrVote v
| .inr (.inr (.inl (sender, v))) => .relay sender v
| .inr (.inr (.inr (.inl v))) => .blame v
| .inr (.inr (.inr (.inr (.inl
    (sender, reqId, hash))))) =>
    .request sender reqId hash
| .inr (.inr (.inr (.inr (.inr (.inl
    (sender, reqId, block, batch)))))) =>
    .response sender reqId block batch
| .inr (.inr (.inr (.inr (.inr (.inr (.inl ())))))) =>
    .invalid

def UCRVote.wire
    (format : HashFormat H) : Codec (UCRVote H) :=
  ((Wire.hash format).pair
      (u64.pair (u64.pair Wire.vote))).via
    UCRVote.Fits
    (fun v => (v.hash, v.round, v.view, v.vote))
    (fun (hash, round, view, vote) =>
      ⟨hash, round, view, vote⟩)
    (fun _ hFits =>
      ⟨trivial, hFits.round, hFits.view, hFits.vote⟩)
    (fun _ _ => rfl)
    (fun _ hValid =>
      ⟨hValid.2.1, hValid.2.2.1, hValid.2.2.2⟩)

variable [Crypto H]

def ProtocolMsg.Sendable (msg : ProtocolMsg H) : Prop :=
  msg.Fits ∧ ∀ block ∈ msg.blocks, block.WellHashed

/- The shared block, then the leader's signature. -/
def Block.wire
    (format : HashFormat H) : Codec (Block H) :=
  ((Wire.block format).pair Wire.vote).via
    (fun block => block.Fits ∧ block.blk.WellHashed)
    (fun block => (block.blk, block.sig))
    (fun fields => ⟨fields.1, fields.2⟩)
    (fun _ hValid =>
      ⟨⟨hValid.1.blk, hValid.2⟩, hValid.1.sig⟩)
    (fun _ _ => rfl)
    (fun _ hValid =>
      ⟨⟨hValid.1.1, hValid.2⟩, hValid.1.2⟩)

def ProtocolMsg.variants
    (format : HashFormat H) :
    Variants (ProtocolMsg.Fields H) :=
  .cons ((Block.wire format).pair Wire.batch) <|
  .cons (UCRVote.wire format) <|
  .cons (u16.pair (UCRVote.wire format)) <|
  .cons Wire.vote <|
  .cons (u16.pair (u64.pair (Wire.hash format))) <|
  .cons
    (u16.pair (u64.pair
      ((Block.wire format).pair Wire.batch))) <|
  .cons .unit .none

theorem ProtocolMsg.send_valid
    (format : HashFormat H)
    (msg : ProtocolMsg H)
    (hSendable : msg.Sendable) :
    (variants format).Valid msg.send := by
  rcases hSendable with ⟨hFits, hBlocks⟩
  cases msg with
  | newBlock block batch =>
    have hWell :=
      hBlocks block.blk (List.mem_singleton_self _)
    exact ⟨⟨hFits.1, hWell⟩, hFits.2⟩
  | ucrVote v => exact hFits
  | relay sender v => exact hFits
  | blame v => exact hFits
  | request sender reqId hash =>
    exact ⟨hFits.1, hFits.2, trivial⟩
  | response sender reqId block batch =>
    rcases hFits with ⟨hSender, hReq, hBlock, hBatch⟩
    have hWell :=
      hBlocks block.blk (List.mem_singleton_self _)
    exact ⟨hSender, hReq, ⟨hBlock, hWell⟩, hBatch⟩
  | invalid => trivial

omit [Crypto H] in
theorem ProtocolMsg.receive_send (msg : ProtocolMsg H) :
    receive msg.send = msg := by
  cases msg <;> rfl

theorem ProtocolMsg.receive_sendable
    (format : HashFormat H)
    (fields : ProtocolMsg.Fields H)
    (hValid : (variants format).Valid fields) :
    (receive fields).Sendable := by
  rcases fields with ⟨block, batch⟩ | v | ⟨sender, v⟩ | v |
    ⟨sender, reqId, hash⟩ |
    ⟨sender, reqId, block, batch⟩ | _ | none
  · rcases hValid with ⟨⟨hBlock, hWell⟩, hBatch⟩
    exact ⟨⟨hBlock, hBatch⟩,
      List.forall_mem_singleton.mpr hWell⟩
  · exact ⟨hValid, List.forall_mem_nil _⟩
  · exact ⟨hValid, List.forall_mem_nil _⟩
  · exact ⟨hValid, List.forall_mem_nil _⟩
  · exact ⟨⟨hValid.1, hValid.2.1⟩, List.forall_mem_nil _⟩
  · rcases hValid with
      ⟨hSender, hReq, ⟨hBlock, hWell⟩, hBatch⟩
    exact ⟨⟨hSender, hReq, hBlock, hBatch⟩,
      List.forall_mem_singleton.mpr hWell⟩
  · exact ⟨trivial, List.forall_mem_nil _⟩
  · exact none.elim

def ProtocolMsg.wire
    (format : HashFormat H) : Codec (ProtocolMsg H) :=
  ((ProtocolMsg.variants format).enum (by
      simp [ProtocolMsg.variants, Variants.cons,
        Variants.none])).via
    ProtocolMsg.Sendable ProtocolMsg.send
    ProtocolMsg.receive
    (ProtocolMsg.send_valid format)
    (fun msg _ => ProtocolMsg.receive_send msg)
    (ProtocolMsg.receive_sendable format)

end Artemis

end LibApollo

------------------------------------------------------------
-- Sync HotStuff and Opt Sync
------------------------------------------------------------

namespace LibApollo

namespace Synchs

open Wire (u64)

variable {H : Type}

structure Propose.Fits (p : Propose H) : Prop where
  proof : p.proof.length < 2 ^ 64
  cert : p.cert.Fits
  view : p.view < 2 ^ 64

def ProtocolMsg.Fits : ProtocolMsg H → Prop
| .newProposal p block batch =>
    p.Fits ∧ block.Fits ∧ batch.Fits
| .voteMsg c p => c.Fits ∧ p.Fits
| .equivcationBlameMsg left right c =>
    left.Fits ∧ right.Fits ∧ c.Fits
| .noProgressBlameMsg c => c.Fits
| .changeView view c => view < 2 ^ 64 ∧ c.Fits
| .quitViewMsg view c => view < 2 ^ 64 ∧ c.Fits
| .statusMsg c => c.Fits

def ProtocolMsg.blocks : ProtocolMsg H → List (Block H)
| .newProposal _ block _ => [block]
| .equivcationBlameMsg left right _ => [left, right]
| .voteMsg _ _ => []
| .noProgressBlameMsg _ => []
| .changeView _ _ => []
| .quitViewMsg _ _ => []
| .statusMsg _ => []

abbrev ProtocolMsg.Fields (H : Type) :=
  (Propose H × Block H × Batch) ⊕
  (Certificate H × Propose H) ⊕
  (Block H × Block H × Certificate H) ⊕
  Certificate H ⊕
  (Nat × Certificate H) ⊕
  (Nat × Certificate H) ⊕
  Certificate H ⊕ Empty

def ProtocolMsg.send : ProtocolMsg H → ProtocolMsg.Fields H
| .newProposal p block batch => .inl (p, block, batch)
| .voteMsg c p => .inr (.inl (c, p))
| .equivcationBlameMsg left right c =>
    .inr (.inr (.inl (left, right, c)))
| .noProgressBlameMsg c => .inr (.inr (.inr (.inl c)))
| .changeView view c =>
    .inr (.inr (.inr (.inr (.inl (view, c)))))
| .quitViewMsg view c =>
    .inr (.inr (.inr (.inr (.inr (.inl (view, c))))))
| .statusMsg c =>
    .inr (.inr (.inr (.inr (.inr (.inr (.inl c))))))

def ProtocolMsg.receive :
    ProtocolMsg.Fields H → ProtocolMsg H
| .inl (p, block, batch) => .newProposal p block batch
| .inr (.inl (c, p)) => .voteMsg c p
| .inr (.inr (.inl (left, right, c))) =>
    .equivcationBlameMsg left right c
| .inr (.inr (.inr (.inl c))) => .noProgressBlameMsg c
| .inr (.inr (.inr (.inr (.inl (view, c))))) =>
    .changeView view c
| .inr (.inr (.inr (.inr (.inr (.inl (view, c)))))) =>
    .quitViewMsg view c
| .inr (.inr (.inr (.inr (.inr (.inr (.inl c)))))) =>
    .statusMsg c

def Propose.wire
    (format : HashFormat H) : Codec (Propose H) :=
  (Wire.bytes.pair ((Wire.certificate format).pair
      (u64.pair (Wire.hash format)))).via
    Propose.Fits
    (fun p => (p.proof, p.cert, p.view, p.blockHash))
    (fun (proof, cert, view, blockHash) =>
      ⟨proof, cert, view, blockHash⟩)
    (fun _ hFits =>
      ⟨hFits.proof, hFits.cert, hFits.view, trivial⟩)
    (fun _ _ => rfl)
    (fun _ hValid => ⟨hValid.1, hValid.2.1, hValid.2.2.1⟩)

variable [Crypto H]

def ProtocolMsg.Sendable (msg : ProtocolMsg H) : Prop :=
  msg.Fits ∧ ∀ block ∈ msg.blocks, block.WellHashed

def ProtocolMsg.variants
    (format : HashFormat H) :
    Variants (ProtocolMsg.Fields H) :=
  .cons
    ((Propose.wire format).pair
      ((Wire.block format).pair Wire.batch)) <|
  .cons
    ((Wire.certificate format).pair (Propose.wire format)) <|
  .cons
    ((Wire.block format).pair ((Wire.block format).pair
      (Wire.certificate format))) <|
  .cons (Wire.certificate format) <|
  .cons (u64.pair (Wire.certificate format)) <|
  .cons (u64.pair (Wire.certificate format)) <|
  .cons (Wire.certificate format) .none

theorem ProtocolMsg.send_valid
    (format : HashFormat H)
    (msg : ProtocolMsg H)
    (hSendable : msg.Sendable) :
    (variants format).Valid msg.send := by
  rcases hSendable with ⟨hFits, hBlocks⟩
  cases msg with
  | newProposal p block batch =>
    rcases hFits with ⟨hPropose, hBlock, hBatch⟩
    have hWell := hBlocks block (List.mem_singleton_self _)
    exact ⟨hPropose, ⟨hBlock, hWell⟩, hBatch⟩
  | equivcationBlameMsg left right c =>
    rcases hFits with ⟨hLeft, hRight, hCert⟩
    rcases List.forall_mem_cons.mp hBlocks with
      ⟨hWellLeft, hOthers⟩
    have hWellRight :=
      hOthers right (List.mem_singleton_self _)
    exact ⟨⟨hLeft, hWellLeft⟩, ⟨hRight, hWellRight⟩, hCert⟩
  | voteMsg c p => exact hFits
  | noProgressBlameMsg c => exact hFits
  | changeView view c => exact hFits
  | quitViewMsg view c => exact hFits
  | statusMsg c => exact hFits

omit [Crypto H] in
theorem ProtocolMsg.receive_send (msg : ProtocolMsg H) :
    receive msg.send = msg := by
  cases msg <;> rfl

theorem ProtocolMsg.receive_sendable
    (format : HashFormat H)
    (fields : ProtocolMsg.Fields H)
    (hValid : (variants format).Valid fields) :
    (receive fields).Sendable := by
  rcases fields with ⟨p, block, batch⟩ | ⟨c, p⟩ |
    ⟨left, right, c⟩ | c | ⟨view, c⟩ | ⟨view, c⟩ | c | none
  · rcases hValid with ⟨hPropose, ⟨hBlock, hWell⟩, hBatch⟩
    exact ⟨⟨hPropose, hBlock, hBatch⟩,
      List.forall_mem_singleton.mpr hWell⟩
  · exact ⟨hValid, List.forall_mem_nil _⟩
  · rcases hValid with
      ⟨⟨hLeft, hWellLeft⟩, ⟨hRight, hWellRight⟩, hCert⟩
    exact ⟨⟨hLeft, hRight, hCert⟩,
      List.forall_mem_cons.mpr ⟨hWellLeft,
        List.forall_mem_singleton.mpr hWellRight⟩⟩
  · exact ⟨hValid, List.forall_mem_nil _⟩
  · exact ⟨hValid, List.forall_mem_nil _⟩
  · exact ⟨hValid, List.forall_mem_nil _⟩
  · exact ⟨hValid, List.forall_mem_nil _⟩
  · exact none.elim

def ProtocolMsg.wire
    (format : HashFormat H) : Codec (ProtocolMsg H) :=
  ((ProtocolMsg.variants format).enum (by
      simp [ProtocolMsg.variants, Variants.cons,
        Variants.none])).via
    ProtocolMsg.Sendable ProtocolMsg.send
    ProtocolMsg.receive
    (ProtocolMsg.send_valid format)
    (fun msg _ => ProtocolMsg.receive_send msg)
    (ProtocolMsg.receive_sendable format)

end Synchs

end LibApollo

------------------------------------------------------------
-- Round Trips
------------------------------------------------------------

namespace LibApollo

/- Opt Sync has the messages of Sync HotStuff. -/
def Optsync.protocolMsg
    {H : Type} [Crypto H]
    (format : HashFormat H) :
    Codec (Synchs.ProtocolMsg H) :=
  Synchs.ProtocolMsg.wire format

namespace Wire

variable {H : Type} [Crypto H]

/-
  A message whose fields fit and whose blocks carry the hash
  of their encoding is read back as it was sent, and every
  message that is read carries such blocks.
-/
structure RoundTrips
    {M : Type}
    (format : HashFormat H)
    (codec : Codec M)
    (Fits : M → Prop)
    (blocks : M → List (Block H)) : Prop where
  same :
    ∀ msg, Fits msg →
      (∀ b ∈ blocks msg,
        b.hash = format.doHash ((block format).encode b)) →
      codec.fromBytes (codec.encode msg) = some msg
  rehashed :
    ∀ bytes msg, codec.fromBytes bytes = some msg →
      ∀ b ∈ blocks msg,
        b.hash = format.doHash ((block format).encode b)

/- A codec for exactly these messages makes round trips. -/
theorem RoundTrips.of_valid
    {M : Type}
    {format : HashFormat H}
    {codec : Codec M}
    {Fits : M → Prop}
    {blocks : M → List (Block H)}
    (hHash : format.SerAndHash)
    (hValid :
      ∀ msg, codec.Valid msg ↔
        Fits msg ∧ ∀ b ∈ blocks msg, b.WellHashed) :
    RoundTrips format codec Fits blocks := by
  refine {
    same := ?_
    rehashed := ?_
  }
  · intro msg hFits hBlocks
    apply codec.fromBytes_encode
    refine (hValid msg).mpr ⟨hFits, ?_⟩
    intro b hMem
    exact (wellHashed_iff hHash b).mpr (hBlocks b hMem)
  · intro bytes msg hRead b hMem
    have hSent := codec.valid_of_fromBytes hRead
    exact (wellHashed_iff hHash b).mp
      (((hValid msg).mp hSent).2 b hMem)

/-
  The blocks a byte string can decode to carry the hash of
  their encoding.
-/
theorem decoded_hash
    {format : HashFormat H}
    (hHash : format.SerAndHash)
    {bytes : Bytes}
    {b : Block H}
    (hRead : (block format).fromBytes bytes = some b) :
    b.hash = format.doHash ((block format).encode b) := by
  have hValid := (block format).valid_of_fromBytes hRead
  exact (wellHashed_iff hHash b).mp hValid.2

end Wire

open Wire (RoundTrips)

/-
  The messages of the four protocols make round trips.  A
  batch keeps payload and hash, whatever its cells hold.  A
  decoded block carries the hash of its encoding, and blocks
  with another header or body have another encoding.
-/
theorem wire_round_trip
    {H : Type} [Crypto H]
    (format : HashFormat H)
    (hHash : format.SerAndHash) :
    RoundTrips format (Apollo.ProtocolMsg.wire format)
        Apollo.ProtocolMsg.Fits Apollo.ProtocolMsg.blocks ∧
      RoundTrips format (Artemis.ProtocolMsg.wire format)
        Artemis.ProtocolMsg.Fits
        Artemis.ProtocolMsg.blocks ∧
      RoundTrips format (Synchs.ProtocolMsg.wire format)
        Synchs.ProtocolMsg.Fits Synchs.ProtocolMsg.blocks ∧
      RoundTrips format (Optsync.protocolMsg format)
        Synchs.ProtocolMsg.Fits Synchs.ProtocolMsg.blocks ∧
      (∀ (b : OnceBatch H) (rest : Bytes), b.batch.Fits →
        b.serialize = Wire.batch.encode b.batch ∧
          b.hash.1 = format.doHash b.serialize ∧
          ∃ received : OnceBatch H,
            OnceBatch.deserialize (b.serialize ++ rest) =
                some (received, rest) ∧
              received.payload = b.payload ∧
              received.hashCell = some b.hash.1 ∧
              received.hash.1 = b.hash.1) ∧
      (∀ (bytes : Bytes) (b : Block H),
        (Wire.block format).fromBytes bytes = some b →
          b.hash =
            format.doHash
              ((Wire.block format).encode b)) ∧
      (∀ left right : Block H, left.Fits → right.Fits →
        left.header ≠ right.header ∨
            left.body ≠ right.body →
          (Wire.block format).encode left ≠
            (Wire.block format).encode right) := by
  refine ⟨.of_valid hHash fun _ => Iff.rfl,
    .of_valid hHash fun _ => Iff.rfl,
    .of_valid hHash fun _ => Iff.rfl,
    .of_valid hHash fun _ => Iff.rfl, ?_, ?_, ?_⟩
  · intro b rest hFits
    refine ⟨b.serialize_eq, ?_, ?_⟩
    · rw [b.hash_eq]
      exact hHash.batch b.payload
    · exact b.deserialize_serialize rest hFits
  · intro bytes b hRead
    exact Wire.decoded_hash hHash hRead
  · intro left right hLeft hRight hDiffer hEq
    rcases Wire.block_encode_inj format hLeft hRight hEq
      with ⟨hHeader, hBody⟩
    rcases hDiffer with hDiffer | hDiffer
    · exact hDiffer hHeader
    · exact hDiffer hBody

end LibApollo

------------------------------------------------------------
-- A Second Proposal
------------------------------------------------------------

namespace LibApollo

/- Hash values of thirty-two bytes. -/
abbrev Hash32 := { bytes : Bytes // bytes.length = 32 }

namespace Hash32

def zero : Hash32 :=
  ⟨List.replicate 32 0, List.length_replicate⟩

/- The SHA-256 hash of the encoding of `oneBatch`. -/
def batchHash : Hash32 :=
  ⟨[20, 238, 158, 181, 19, 45, 111, 112, 7, 253, 233, 156,
    195, 162, 23, 25, 213, 123, 244, 58, 229, 210, 8, 27,
    222, 96, 91, 205, 109, 238, 241, 45], rfl⟩

/- Those of two blocks for this batch, one on the other. -/
def firstHash : Hash32 :=
  ⟨[37, 111, 49, 118, 92, 57, 215, 140, 181, 207, 6, 85,
    165, 84, 109, 156, 156, 141, 147, 183, 107, 174, 214,
    179, 214, 244, 247, 202, 97, 99, 50, 6], rfl⟩

def secondHash : Hash32 :=
  ⟨[179, 183, 191, 228, 160, 131, 216, 185, 24, 93, 222,
    243, 178, 211, 157, 228, 83, 186, 192, 200, 138, 115,
    26, 31, 234, 112, 224, 166, 32, 219, 190, 104], rfl⟩

/- The encoding of a block with small author and height. -/
def blockBytes
    (prev : Hash32)
    (author height : UInt8)
    (batch : Hash32) : Bytes :=
  prev.val ++ List.replicate 8 0 ++ [author, 0] ++
    height :: List.replicate 15 0 ++ batch.val

/- SHA-256 on these inputs, the first bytes elsewhere. -/
def doHash (bytes : Bytes) : Hash32 :=
  if bytes = Wire.batch.encode oneBatch then
    batchHash
  else if bytes = blockBytes zero 0 1 batchHash then
    firstHash
  else if bytes = blockBytes firstHash 1 2 batchHash then
    secondHash
  else
    ⟨(bytes ++ List.replicate 32 0).take 32, by simp⟩

def format : HashFormat Hash32 where
  size := 32
  toBytes hash := hash.val
  ofBytes bytes :=
    if hLength : bytes.length = 32 then
      some ⟨bytes, hLength⟩
    else
      none
  doHash := doHash
  length_toBytes := fun hash => hash.property
  ofBytes_toBytes := fun hash => dif_pos hash.property

/- A cryptography that hashes encodings with `doHash`. -/
instance crypto : Crypto Hash32 where
  emptyHash := zero
  blockHash header body :=
    doHash ((Wire.content format).encode (header, body))
  batchHash payload :=
    doHash (Wire.transaction.vec.encode payload)
  txHash tx := doHash (Wire.transaction.encode tx)
  ucrDigest hash round view :=
    doHash (((Wire.hash format).pair
      (Wire.u64.pair Wire.u64)).encode (hash, round, view))
  roundIndex round := round
  sign secretKey _ := secretKey
  verify publicKey _ auth := decide (publicKey = auth)

theorem serAndHash : format.SerAndHash where
  block := fun _ => rfl
  batch := fun _ => rfl

def firstBlock : Block Hash32 :=
  Block.extending Block.genesis 0 1 batchHash

def secondBlock : Block Hash32 :=
  Block.extending firstBlock 1 2 batchHash

/- The proposal of the leader of round 2. -/
def secondProposal : Apollo.ProtocolMsg Hash32 :=
  .newProposal
    { sig := ⟨1, [1]⟩, round := 2, blockHash := secondHash }
    secondBlock oneBatch

theorem hash_blocks :
    (oneBatch.hash : Hash32) = batchHash ∧
      firstBlock.hash = firstHash ∧
      secondBlock.header.prev = firstHash ∧
      secondBlock.hash = secondHash := by
  decide +kernel

theorem oneBatch_fits : oneBatch.Fits := by
  refine ⟨by simp [oneBatch], ?_⟩
  intro tx hMem
  rw [List.mem_singleton.mp hMem]
  refine ⟨?_, ?_, ?_, ?_⟩
  all_goals simp

theorem secondBlock_fits : secondBlock.Fits := by
  refine ⟨?_, ?_, ?_, ?_, ?_⟩
  all_goals simp [secondBlock, Block.extending, Block.init,
    Block.withBatch, Header.new]

theorem secondProposal_fits : secondProposal.Fits := by
  refine ⟨⟨⟨?_, ?_⟩, ?_⟩, secondBlock_fits,
    oneBatch_fits⟩
  all_goals simp

end Hash32

/- The second proposal comes through with its block hash. -/
theorem wire_round_trip_second_proposal :
    Hash32.format.SerAndHash ∧
      (oneBatch.hash : Hash32) = Hash32.batchHash ∧
      Hash32.secondBlock.header.prev = Hash32.firstHash ∧
      Hash32.secondBlock.hash = Hash32.secondHash ∧
      (Apollo.ProtocolMsg.wire Hash32.format).fromBytes
        ((Apollo.ProtocolMsg.wire Hash32.format).encode
          Hash32.secondProposal) =
        some Hash32.secondProposal := by
  rcases Hash32.hash_blocks with
    ⟨hBatch, _, hPrev, hSecond⟩
  refine ⟨Hash32.serAndHash, hBatch, hPrev, hSecond, ?_⟩
  have hTrips :=
    (wire_round_trip Hash32.format Hash32.serAndHash).1
  exact hTrips.same Hash32.secondProposal
    Hash32.secondProposal_fits
    (List.forall_mem_singleton.mpr rfl)

end LibApollo
