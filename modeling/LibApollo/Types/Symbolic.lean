import LibApollo.Base.Code
import LibApollo.Base.FiniteMap
import LibApollo.Types.Block
import Mathlib.Data.Sum.Basic

/-
  A symbolic cryptography: a hash is the encoded content and
  a signature names the key and the signed data.  It is
  collision free and lets runs be evaluated.

  Key definitions include:
    * `Digest`
    * `Digest.header`, `Digest.block`
    * `Digest.crypto`
    * `Digest.keyOf`, `Digest.keyMap`

  Key theorems include:
    * `Digest.collisionFree`, `Digest.hashDepth`
-/

------------------------------------------------------------
-- Content Codes
------------------------------------------------------------

namespace LibApollo

/- A symbolic hash: the encoded content. -/
abbrev Digest := List Nat

namespace Digest

def bytes : Code Bytes :=
  (Code.symbol.pullback UInt8.toNat
    (fun _ _ hEq => UInt8.toNat_inj.mp hEq)).list

def digest : Code Digest := Code.symbol.list

def vote : Code Vote :=
  (Code.symbol.pair bytes).pullback
    (fun v => (v.origin, v.auth))
    (by
      rintro ⟨origin, auth⟩ ⟨origin', auth'⟩ hEq
      simpa using hEq)

/- The four kinds of certificate content. -/
def certTypeSum :
    CertType Digest →
      ((Nat × Nat) ⊕ (Nat × Digest)) ⊕
        ((Nat × Digest) ⊕ Nat)
| .blame origin view => .inl (.inl (origin, view))
| .vote view hash => .inl (.inr (view, hash))
| .quitView view hash => .inr (.inl (view, hash))
| .default => .inr (.inr 0)

theorem certTypeSum_injective :
    Function.Injective certTypeSum := by
  intro left right hEq
  cases left <;> cases right <;>
    simp_all [certTypeSum]

def certType : Code (CertType Digest) :=
  (((Code.symbol.pair Code.symbol).either
      (Code.symbol.pair digest)).either
    ((Code.symbol.pair digest).either
      Code.symbol)).pullback
    certTypeSum certTypeSum_injective

def certificate : Code (Certificate Digest) :=
  (certType.pair vote.list).pullback
    (fun c => (c.msg, c.votes))
    (by
      rintro ⟨msg, votes⟩ ⟨msg', votes'⟩ hEq
      simpa using hEq)

def header : Code (Header Digest) :=
  (digest.pair (bytes.pair (Code.symbol.pair
    (Code.symbol.pair certificate.list)))).pullback
    (fun h =>
      (h.prev, h.extra, h.author, h.height,
        h.blameCertificates))
    (by
      rintro ⟨_, _, _, _, _⟩ ⟨_, _, _, _, _⟩ hEq
      simpa using hEq)

def body : Code (Body Digest) :=
  digest.pullback Body.batchHash
    (by
      rintro ⟨_⟩ ⟨_⟩ hEq
      simpa using hEq)

def block : Code (Header Digest × Body Digest) :=
  header.pair body

def transaction : Code Transaction :=
  (Code.symbol.pair (Code.symbol.pair
    (bytes.pair bytes))).pullback
    (fun t => (t.clientId, t.nonce, t.data, t.request))
    (by
      rintro ⟨_, _, _, _⟩ ⟨_, _, _, _⟩ hEq
      simpa using hEq)

def signData : Code (SignData Digest) :=
  (digest.either certType).pullback
    (fun data =>
      match data with
      | .hash hash => .inl hash
      | .cert cert => .inr cert)
    (by
      intro left right hEq
      cases left <;> cases right <;> simp_all)

end Digest

end LibApollo

------------------------------------------------------------
-- The Symbolic Cryptography
------------------------------------------------------------

namespace LibApollo

/- A batch of one transaction. -/
def oneBatch : CachedBatch Transaction where
  payload :=
    [{ clientId := 5, nonce := 1, data := [], request := [] }]

namespace Digest

/- A list of symbols as bytes, each in unary. -/
def toBytes (symbols : List Nat) : Bytes :=
  symbols.flatMap (fun n => List.replicate n 1 ++ [0])

/-
  Keys are their own public part; content of different kinds
  is hashed with different tags.
-/
instance crypto : Crypto Digest where
  emptyHash := []
  blockHash h b := 1 :: block.encode (h, b)
  batchHash txs := 2 :: transaction.list.encode txs
  txHash tx := 4 :: transaction.encode tx
  ucrDigest hash round view :=
    3 :: (digest.encode hash ++ [round, view])
  roundIndex round := round
  sign key data := key ++ toBytes (signData.encode data)
  verify key data auth :=
    decide (auth = key ++ toBytes (signData.encode data))

theorem collisionFree : CollisionFree Digest where
  injective := by
    intro h b h' b' hEq
    have hContent :
        block.encode (h, b) = block.encode (h', b') :=
      List.tail_eq_of_cons_eq hEq
    simpa using block.encode_injective hContent
  ne_empty := by
    intro h b hEq
    cases hEq

/- A hash is longer than the hashes in its content. -/
theorem hashDepth :
    HashDepth (List.length : Digest → Nat) := by
  intro h b
  have hPrev :=
    Code.length_le_encodeList Code.symbol h.prev
  have hParts :
      block.encode (h, b) =
        Code.encodeList Code.symbol h.prev ++
          ((bytes.pair (Code.symbol.pair
            (Code.symbol.pair certificate.list))).encode
              (h.extra, h.author, h.height,
                h.blameCertificates) ++ body.encode b) := by
    rw [← List.append_assoc]
    rfl
  change h.prev.length <
    (1 :: block.encode (h, b)).length
  rw [hParts, List.length_cons, List.length_append]
  omega

theorem batchHash_ne_emptyHash
    (payload : List Transaction) :
    Crypto.batchHash (H := Digest) payload ≠
      Crypto.emptyHash := by
  intro hEq
  cases hEq

theorem batchHash_injective :
    Function.Injective
      (Crypto.batchHash : List Transaction → Digest) := by
  intro left right hEq
  exact transaction.list.encode_injective
    (List.tail_eq_of_cons_eq hEq)

theorem txHash_injective :
    Function.Injective
      (Crypto.txHash : Transaction → Digest) := by
  intro left right hEq
  exact transaction.encode_injective
    (List.tail_eq_of_cons_eq hEq)

/- A key for every replica. -/
def keyOf (id : Replica) : Bytes :=
  [UInt8.ofNat id]

def keyMap : List Replica → FinMap Replica Bytes
| [] => ∅
| id :: ids => (keyMap ids).insert id (keyOf id)

theorem lookup_keyMap
    {ids : List Replica}
    {id : Replica}
    {key : Bytes}
    (hLookup : (keyMap ids).lookup id = some key) :
    id ∈ ids ∧ key = keyOf id := by
  induction ids with
  | nil => simp [keyMap] at hLookup
  | cons other ids ih =>
      rw [keyMap, FinMap.lookup_insert_eq] at hLookup
      split at hLookup
      · rename_i hEq
        subst hEq
        exact ⟨List.mem_cons_self,
          (Option.some.inj hLookup).symm⟩
      · exact ⟨List.mem_cons_of_mem _ (ih hLookup).1,
          (ih hLookup).2⟩

/- The block of an author on a parent, for this batch. -/
def blockOn
    (parent : Block Digest)
    (author height : Nat) : Block Digest :=
  Block.extending parent author height oneBatch.hash

end Digest

end LibApollo
