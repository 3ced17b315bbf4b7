import LibApollo.Base.Codec
import LibApollo.Types.Block

/-
  The wire format of the shared data types: the default
  encoding of bincode, with two types that do not travel as
  they stand.

  A block travels without its cached hash, and the receiver
  computes the hash again.  A batch travels as the vector of
  its transactions, and the receiver fills the hash cache.

  Key definitions include:
    * `HashFormat`, `HashFormat.SerAndHash`
    * `Vote.Fits`, `Certificate.Fits`, `Block.Fits`
    * `Wire.certificate`, `Wire.header`, `Wire.block`
    * `Wire.batch`
    * `OnceBatch`, `OnceBatch.hash`
    * `OnceBatch.serialize`, `OnceBatch.deserialize`

  Key theorems include:
    * `Wire.wellHashed_iff`
    * `Wire.block_encode_inj`
    * `OnceBatch.deserialize_serialize`
-/

------------------------------------------------------------
-- Hash Values
------------------------------------------------------------

namespace LibApollo

/-
  What the cryptography library does with hash values: they
  are written as `size` bytes and read back from them, and
  `doHash` hashes a byte string.
-/
structure HashFormat (H : Type) where
  size : Nat
  toBytes : H → Bytes
  ofBytes : Bytes → Option H
  doHash : Bytes → H
  length_toBytes : ∀ hash, (toBytes hash).length = size
  ofBytes_toBytes :
    ∀ hash, ofBytes (toBytes hash) = some hash

end LibApollo

------------------------------------------------------------
-- Values of the Machine Types
------------------------------------------------------------

namespace LibApollo

variable {H : Type}

/- Ids are `u16`, and a vector has a `u64` length. -/
structure Vote.Fits (v : Vote) : Prop where
  origin : v.origin < 2 ^ 16
  auth : v.auth.length < 2 ^ 64

def CertType.Fits : CertType H → Prop
| .blame replica view => replica < 2 ^ 16 ∧ view < 2 ^ 64
| .vote view _ => view < 2 ^ 64
| .quitView view _ => view < 2 ^ 64
| .default => True

structure Certificate.Fits
    (cert : Certificate H) : Prop where
  msg : cert.msg.Fits
  votes : cert.votes.length < 2 ^ 64
  vote : ∀ v ∈ cert.votes, v.Fits

structure Transaction.Fits (tx : Transaction) : Prop where
  clientId : tx.clientId < 2 ^ 16
  nonce : tx.nonce < 2 ^ 64
  data : tx.data.length < 2 ^ 64
  request : tx.request.length < 2 ^ 64

structure CachedBatch.Fits
    (batch : CachedBatch Transaction) : Prop where
  payload : batch.payload.length < 2 ^ 64
  tx : ∀ tx ∈ batch.payload, tx.Fits

structure Header.Fits (header : Header H) : Prop where
  extra : header.extra.length < 2 ^ 64
  author : header.author < 2 ^ 16
  height : header.height < 2 ^ 64
  blameCertificates :
    header.blameCertificates.length < 2 ^ 64
  blameCertificate :
    ∀ cert ∈ header.blameCertificates, cert.Fits

def Block.Fits (block : Block H) : Prop :=
  block.header.Fits

end LibApollo

------------------------------------------------------------
-- Votes and Certificates
------------------------------------------------------------

namespace LibApollo

namespace Wire

variable {H : Type}

def u16 : Codec Nat :=
  (Codec.uint 2).via (fun n => n < 2 ^ 16) id id
    (fun _ hBound => hBound)
    (fun _ _ => rfl)
    (fun _ hBound => hBound)

def u64 : Codec Nat :=
  (Codec.uint 8).via (fun n => n < 2 ^ 64) id id
    (fun _ hBound => hBound)
    (fun _ _ => rfl)
    (fun _ hBound => hBound)

def bytes : Codec Bytes :=
  Codec.byte.vec.via
    (fun data => data.length < 2 ^ 64) id id
    (fun _ hBound => ⟨hBound, fun _ _ => trivial⟩)
    (fun _ _ => rfl)
    (fun _ hValid => hValid.1)

def hash (format : HashFormat H) : Codec H :=
  Codec.fixed format.size format.toBytes format.ofBytes
    format.length_toBytes format.ofBytes_toBytes

def vote : Codec Vote :=
  (u16.pair bytes).via Vote.Fits
    (fun v => (v.origin, v.auth))
    (fun fields => ⟨fields.1, fields.2⟩)
    (fun _ hFits => ⟨hFits.origin, hFits.auth⟩)
    (fun _ _ => rfl)
    (fun _ hValid => ⟨hValid.1, hValid.2⟩)

/- The alternatives of `CertType`, in their order. -/
def CertType.send :
    CertType H →
      (Nat × Nat) ⊕ (Nat × H) ⊕ (Nat × H) ⊕ Unit ⊕ Empty
| .blame replica view => .inl (replica, view)
| .vote view hash => .inr (.inl (view, hash))
| .quitView view hash => .inr (.inr (.inl (view, hash)))
| .default => .inr (.inr (.inr (.inl ())))

def CertType.receive :
    (Nat × Nat) ⊕ (Nat × H) ⊕ (Nat × H) ⊕ Unit ⊕ Empty →
      CertType H
| .inl (replica, view) => .blame replica view
| .inr (.inl (view, hash)) => .vote view hash
| .inr (.inr (.inl (view, hash))) => .quitView view hash
| .inr (.inr (.inr (.inl ()))) => .default

def certType
    (format : HashFormat H) : Codec (CertType H) :=
  (Variants.enum
    (.cons (u16.pair u64) <|
      .cons (u64.pair (hash format)) <|
      .cons (u64.pair (hash format)) <|
      .cons .unit .none)
    (by simp [Variants.cons, Variants.none])).via
    CertType.Fits CertType.send CertType.receive
    (by
      intro msg hFits
      cases msg with
      | blame replica view => exact hFits
      | vote view hash => exact ⟨hFits, trivial⟩
      | quitView view hash => exact ⟨hFits, trivial⟩
      | default => trivial)
    (by
      intro msg hFits
      cases msg <;> rfl)
    (by
      rintro (⟨_, _⟩ | ⟨_, _⟩ | ⟨_, _⟩ | _ | none) hValid
      · exact hValid
      · exact hValid.1
      · exact hValid.1
      · trivial
      · exact none.elim)

def certificate
    (format : HashFormat H) : Codec (Certificate H) :=
  ((certType format).pair vote.vec).via Certificate.Fits
    (fun cert => (cert.msg, cert.votes))
    (fun fields => ⟨fields.1, fields.2⟩)
    (fun _ hFits => ⟨hFits.msg, hFits.votes, hFits.vote⟩)
    (fun _ _ => rfl)
    (fun _ hValid => ⟨hValid.1, hValid.2.1, hValid.2.2⟩)

end Wire

end LibApollo

------------------------------------------------------------
-- Blocks and Batches
------------------------------------------------------------

namespace LibApollo

namespace Wire

variable {H : Type}

def transaction : Codec Transaction :=
  (u16.pair (u64.pair (bytes.pair bytes))).via
    Transaction.Fits
    (fun tx => (tx.clientId, tx.nonce, tx.data, tx.request))
    (fun (clientId, nonce, data, request) =>
      ⟨clientId, nonce, data, request⟩)
    (fun _ hFits =>
      ⟨hFits.clientId, hFits.nonce, hFits.data,
        hFits.request⟩)
    (fun _ _ => rfl)
    (fun _ hValid =>
      ⟨hValid.1, hValid.2.1, hValid.2.2.1, hValid.2.2.2⟩)

/- A batch is written as the vector of its payload. -/
def batch : Codec (CachedBatch Transaction) :=
  transaction.vec.via CachedBatch.Fits
    (fun batch => batch.payload)
    (fun payload => ⟨payload⟩)
    (fun _ hFits => ⟨hFits.payload, hFits.tx⟩)
    (fun _ _ => rfl)
    (fun _ hValid => ⟨hValid.1, hValid.2⟩)

def header (format : HashFormat H) : Codec (Header H) :=
  ((hash format).pair (bytes.pair (u16.pair (u64.pair
      (certificate format).vec)))).via
    Header.Fits
    (fun header =>
      (header.prev, header.extra, header.author,
        header.height, header.blameCertificates))
    (fun (prev, extra, author, height, certificates) =>
      ⟨prev, extra, author, height, certificates⟩)
    (fun _ hFits =>
      ⟨trivial, hFits.extra, hFits.author, hFits.height,
        hFits.blameCertificates, hFits.blameCertificate⟩)
    (fun _ _ => rfl)
    (fun _ hValid =>
      ⟨hValid.2.1, hValid.2.2.1, hValid.2.2.2.1,
        hValid.2.2.2.2.1, hValid.2.2.2.2.2⟩)

def body (format : HashFormat H) : Codec (Body H) :=
  (hash format).via (fun _ => True)
    (fun body => body.batchHash)
    (fun batchHash => ⟨batchHash⟩)
    (fun _ _ => trivial)
    (fun _ _ => rfl)
    (fun _ _ => trivial)

/- The fields of a block that are on the wire. -/
def content
    (format : HashFormat H) :
    Codec (Header H × Body H) :=
  (header format).pair (body format)

def serializeBlock
    (format : HashFormat H)
    (block : Block H) : Bytes :=
  (content format).encode (block.header, block.body)

end Wire

/-
  `ser_and_hash` of the cryptography library hashes the
  encoding of a value.
-/
structure HashFormat.SerAndHash
    {H : Type} [Crypto H]
    (format : HashFormat H) : Prop where
  block :
    ∀ block : Block H,
      Crypto.blockHash block.header block.body =
        format.doHash (Wire.serializeBlock format block)
  batch :
    ∀ payload,
      Crypto.batchHash (H := H) payload =
        format.doHash (Wire.transaction.vec.encode payload)

namespace Wire

variable {H : Type} [Crypto H]

/-
  A received block starts with the empty hash and gets the
  hash of its content.
-/
def receiveBlock (content : Header H × Body H) : Block H :=
  let block : Block H :=
    { header := content.1
      body := content.2
      hash := Crypto.emptyHash }
  block.init

def block (format : HashFormat H) : Codec (Block H) :=
  (content format).via
    (fun block => block.Fits ∧ block.WellHashed)
    (fun block => (block.header, block.body))
    receiveBlock
    (fun _ hValid => ⟨hValid.1, trivial⟩)
    (fun block hValid => by
      rw [receiveBlock, Block.init, ← hValid.2])
    (fun _ hValid => ⟨hValid.1, rfl⟩)

theorem block_encode
    (format : HashFormat H)
    (b : Block H) :
    (block format).encode b = serializeBlock format b :=
  rfl

/- The hash of the content is the hash of the encoding. -/
theorem wellHashed_iff
    {format : HashFormat H}
    (hHash : format.SerAndHash)
    (b : Block H) :
    b.WellHashed ↔
      b.hash = format.doHash ((block format).encode b) := by
  rw [block_encode, ← hHash.block]
  rfl

/- Header and body can be read off the encoding. -/
theorem block_encode_inj
    (format : HashFormat H)
    {left right : Block H}
    (hLeft : left.Fits)
    (hRight : right.Fits)
    (hEq :
      (block format).encode left =
        (block format).encode right) :
    left.header = right.header ∧ left.body = right.body := by
  have hContent :=
    (content format).encode_inj
      (a := (left.header, left.body))
      (b := (right.header, right.body))
      ⟨hLeft, trivial⟩ ⟨hRight, trivial⟩ hEq
  exact Prod.mk.inj hContent

end Wire

end LibApollo

------------------------------------------------------------
-- Batches with Their Caches
------------------------------------------------------------

namespace LibApollo

/-
  A batch as it is held in memory: the payload with the two
  write-once cells.  Only `hash` fills the hash cell, so
  what is in it is the hash of the payload.
-/
structure OnceBatch (H : Type) [Crypto H] where
  payload : List Transaction
  hashCell : Option H
  txHashesCell : Option (List H)
  hashCell_eq :
    ∀ hash, hashCell = some hash →
      hash = Crypto.batchHash payload

namespace OnceBatch

variable {H : Type} [Crypto H]

/- Empty cells. -/
def new (payload : List Transaction) : OnceBatch H where
  payload := payload
  hashCell := none
  txHashesCell := none
  hashCell_eq := by
    intro hash hNone
    cases hNone

/- The transaction hashes are known to the leader. -/
def newWithTxHashes
    (payload : List Transaction)
    (txHashes : List H) : OnceBatch H :=
  { (new payload : OnceBatch H) with
    txHashesCell := some txHashes }

/- Read the hash, filling the cell at the first call. -/
def hash (batch : OnceBatch H) : H × OnceBatch H :=
  match batch.hashCell with
  | some hash => (hash, batch)
  | none =>
      (Crypto.batchHash batch.payload,
        { batch with
          hashCell := some (Crypto.batchHash batch.payload)
          hashCell_eq := by
            intro hash hFilled
            exact (Option.some.inj hFilled).symm })

/- Read the hashes of the transactions in the same way. -/
def txHashes
    (batch : OnceBatch H) : List H × OnceBatch H :=
  match batch.txHashesCell with
  | some hashes => (hashes, batch)
  | none =>
      (batch.payload.map Crypto.txHash,
        { batch with
          txHashesCell :=
            some (batch.payload.map Crypto.txHash) })

/- The batch without the cells. -/
def batch (b : OnceBatch H) : CachedBatch Transaction where
  payload := b.payload

def serialize (b : OnceBatch H) : Bytes :=
  Wire.transaction.vec.encode b.payload

/- A received batch has its hash cell filled at once. -/
def deserialize
    (bytes : Bytes) : Option (OnceBatch H × Bytes) :=
  (Wire.transaction.vec.decode bytes).map
    fun read => ((new read.1).hash.2, read.2)

/- The cell never changes what `hash` returns. -/
theorem hash_eq (b : OnceBatch H) :
    b.hash.1 = b.batch.hash := by
  unfold hash
  split
  · next hash hFilled => exact b.hashCell_eq hash hFilled
  · rfl

theorem hash_payload (b : OnceBatch H) :
    b.hash.2.payload = b.payload := by
  unfold hash
  split <;> rfl

theorem hash_hashCell (b : OnceBatch H) :
    b.hash.2.hashCell = some b.hash.1 := by
  unfold hash
  split
  · next hash hFilled => exact hFilled
  · rfl

/- The bytes do not depend on the cells. -/
theorem serialize_eq (b : OnceBatch H) :
    b.serialize = Wire.batch.encode b.batch :=
  rfl

/-
  Payload and hash come through the wire, whatever is in the
  sender's cells.
-/
theorem deserialize_serialize
    (b : OnceBatch H)
    (rest : Bytes)
    (hFits : b.batch.Fits) :
    ∃ received : OnceBatch H,
      deserialize (b.serialize ++ rest) =
          some (received, rest) ∧
        received.payload = b.payload ∧
        received.hashCell = some b.hash.1 ∧
        received.hash.1 = b.hash.1 := by
  have hRead :=
    Wire.transaction.vec.decode_encode b.payload rest
      ⟨hFits.payload, hFits.tx⟩
  have hHash :
      (new b.payload : OnceBatch H).hash.1 = b.hash.1 := by
    rw [hash_eq, hash_eq]
    rfl
  refine ⟨(new b.payload).hash.2, ?_, ?_, ?_, ?_⟩
  · rw [deserialize, serialize, hRead, Option.map_some]
  · exact hash_payload _
  · rw [hash_hashCell, hHash]
  · rw [hash_eq, batch, hash_payload, ← hHash]
    exact (hash_eq _).symm

end OnceBatch

end LibApollo
