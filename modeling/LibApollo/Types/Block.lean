import Mathlib.Algebra.Group.Nat.Defs
import Mathlib.Data.Finset.Basic

/-
  The data model shared by the four protocols: votes,
  certificates, transactions, batches and blocks, and the
  hash and signature functions a node takes from its
  cryptography library.

  Replicas, heights, rounds and views are natural numbers;
  where the source computes with a height that the network
  may have chosen, the model uses the wrapping successor
  `succU64`.

  Key definitions include:
    * `Vote`, `CertType`, `Certificate`
    * `Transaction`, `CachedBatch`
    * `Header`, `Body`, `Block`
    * `Crypto`
    * `CollisionFree`, `HashDepth`
    * `Block.genesis`, `Block.withBatch`, `Block.init`
    * `Block.WellHashed`
-/

------------------------------------------------------------
-- Identifiers
------------------------------------------------------------

namespace LibApollo

abbrev Replica := Nat

abbrev ClientId := Nat

abbrev Bytes := List UInt8

/- The `u64` successor of an optimised build, which wraps. -/
def succU64 (x : Nat) : Nat :=
  (x + 1) % 2 ^ 64

end LibApollo

------------------------------------------------------------
-- Votes, Certificates, Transactions and Batches
------------------------------------------------------------

namespace LibApollo

/- A replica id with the bytes it presents as signature. -/
structure Vote where
  origin : Replica
  auth : Bytes
deriving DecidableEq, Repr

/- What a certificate certifies. -/
inductive CertType (H : Type) where
| blame : Replica → Nat → CertType H
| vote : Nat → H → CertType H
| quitView : Nat → H → CertType H
| default : CertType H
deriving DecidableEq, Repr

structure Certificate (H : Type) where
  msg : CertType H
  votes : List Vote
deriving DecidableEq, Repr

/- The certificate without votes. -/
def Certificate.emptyCert (H : Type) : Certificate H where
  msg := .default
  votes := []

structure Transaction where
  clientId : ClientId
  nonce : Nat
  data : Bytes
  request : Bytes
deriving DecidableEq, Repr

/-
  A batch of transactions.  The cached hashes of the source
  are functions of the payload, so only the payload is kept.
-/
structure CachedBatch (Tx : Type) where
  payload : List Tx
deriving DecidableEq, Repr

end LibApollo

------------------------------------------------------------
-- Blocks
------------------------------------------------------------

namespace LibApollo

structure Header (H : Type) where
  prev : H
  extra : Bytes
  author : Replica
  height : Nat
  blameCertificates : List (Certificate H)
deriving DecidableEq, Repr

structure Body (H : Type) where
  batchHash : H
deriving DecidableEq, Repr

/- The wire carries header and body; `hash` is cached. -/
structure Block (H : Type) where
  header : Header H
  body : Body H
  hash : H
deriving DecidableEq, Repr

/- What a node signs: a digest or a serialized certificate. -/
inductive SignData (H : Type) where
| hash : H → SignData H
| cert : CertType H → SignData H
deriving DecidableEq, Repr

/-
  The library functions a node relies on.  `ucrDigest` is
  the digest of an Artemis round vote and `roundIndex` the
  integer read off the hash of a round number.
-/
class Crypto (H : Type) where
  emptyHash : H
  blockHash : Header H → Body H → H
  batchHash : List Transaction → H
  txHash : Transaction → H
  ucrDigest : H → Nat → Nat → H
  roundIndex : Nat → Nat
  sign : Bytes → SignData H → Bytes
  verify : Bytes → SignData H → Bytes → Bool

/-
  Block hashes are collision free, also against the hash
  value reserved for the genesis block.
-/
structure CollisionFree (H : Type) [Crypto H] : Prop where
  injective :
    ∀ header body header' body',
      Crypto.blockHash (H := H) header body =
          Crypto.blockHash header' body' →
        header = header' ∧ body = body'
  ne_empty :
    ∀ header body,
      Crypto.blockHash (H := H) header body ≠
        Crypto.emptyHash

/-
  A block hash is deeper than the parent hash in the header:
  no chain of blocks leads back to where it started.
-/
def HashDepth
    {H : Type} [Crypto H]
    (depth : H → Nat) : Prop :=
  ∀ header body,
    depth header.prev <
      depth (Crypto.blockHash (H := H) header body)

/- The hash of a batch, over its payload. -/
def CachedBatch.hash
    {H : Type} [Crypto H]
    (batch : CachedBatch Transaction) : H :=
  Crypto.batchHash batch.payload

/- The hashes of the transactions of a batch, in order. -/
def CachedBatch.txHashes
    {H : Type} [Crypto H]
    (batch : CachedBatch Transaction) : List H :=
  batch.payload.map Crypto.txHash

end LibApollo

------------------------------------------------------------
-- Block Construction
------------------------------------------------------------

namespace LibApollo

variable {H : Type} [Crypto H]

def Header.new : Header H where
  prev := Crypto.emptyHash
  extra := []
  author := 0
  height := 0
  blameCertificates := []

namespace Block

/- A block that references a batch, with no hash yet. -/
def withBatch (batchHash : H) : Block H where
  header := Header.new
  body := ⟨batchHash⟩
  hash := Crypto.emptyHash

/- Recompute the cached hash. -/
def init (block : Block H) : Block H :=
  { block with
    hash := Crypto.blockHash block.header block.body }

/- The genesis block is its own parent. -/
def genesis : Block H where
  header := Header.new
  body := ⟨Crypto.emptyHash⟩
  hash := Crypto.emptyHash

/-
  The block a leader builds on `parent` for a batch.
-/
def extending
    (parent : Block H)
    (author : Replica)
    (height : Nat)
    (batchHash : H) : Block H :=
  let block := withBatch batchHash
  init { block with
    header := { block.header with
      prev := parent.hash
      author := author
      height := height } }

/- The cached hash is the hash of the content. -/
def WellHashed (block : Block H) : Prop :=
  block.hash = Crypto.blockHash block.header block.body

instance
    [DecidableEq H]
    (block : Block H) : Decidable block.WellHashed :=
  inferInstanceAs (Decidable (_ = _))

@[simp] theorem genesis_hash :
    (genesis : Block H).hash = Crypto.emptyHash := rfl

@[simp] theorem genesis_prev :
    (genesis : Block H).header.prev = Crypto.emptyHash :=
  rfl

@[simp] theorem genesis_height :
    (genesis : Block H).header.height = 0 := rfl

@[simp] theorem extending_prev
    (parent : Block H)
    (author : Replica)
    (height : Nat)
    (batchHash : H) :
    (extending parent author height
      batchHash).header.prev = parent.hash := rfl

@[simp] theorem extending_author
    (parent : Block H)
    (author : Replica)
    (height : Nat)
    (batchHash : H) :
    (extending parent author height
      batchHash).header.author = author := rfl

@[simp] theorem extending_height
    (parent : Block H)
    (author : Replica)
    (height : Nat)
    (batchHash : H) :
    (extending parent author height
      batchHash).header.height = height := rfl

theorem extending_wellHashed
    (parent : Block H)
    (author : Replica)
    (height : Nat)
    (batchHash : H) :
    (extending parent author height
      batchHash).WellHashed := rfl

/- Well-hashed blocks with one hash are one block. -/
theorem WellHashed.eq_of_hash_eq
    (hFree : CollisionFree H)
    {left right : Block H}
    (hLeft : left.WellHashed)
    (hRight : right.WellHashed)
    (hHash : left.hash = right.hash) :
    left = right := by
  rcases left with ⟨header, body, hash⟩
  rcases right with ⟨header', body', hash'⟩
  simp only [WellHashed] at hLeft hRight hHash
  subst hHash
  rcases hFree.injective _ _ _ _ (hLeft.symm.trans hRight)
    with ⟨rfl, rfl⟩
  rfl

/- Blocks a node can hold: genesis and decoded blocks. -/
def Proper (block : Block H) : Prop :=
  block = genesis ∨ block.WellHashed

/- The hash of a proper block identifies it. -/
theorem Proper.eq_of_hash_eq
    (hFree : CollisionFree H)
    {left right : Block H}
    (hLeft : left.Proper)
    (hRight : right.Proper)
    (hHash : left.hash = right.hash) :
    left = right := by
  rcases hLeft with rfl | hLeft
  · rcases hRight with rfl | hRight
    · rfl
    · rw [hRight] at hHash
      exact absurd hHash.symm (hFree.ne_empty _ _)
  · rcases hRight with rfl | hRight
    · rw [hLeft] at hHash
      exact absurd hHash (hFree.ne_empty _ _)
    · exact hLeft.eq_of_hash_eq hFree hRight hHash

end Block

end LibApollo
