import LibApollo.Base.FiniteMap
import LibApollo.Base.Result
import LibApollo.Base.Run
import LibApollo.Types.Block
import Mathlib.Data.Prod.Lex

/-
  The nonce-keyed transaction pool.

  Byte counts are 64-bit numbers, in a build with overflow
  checks: overflow and underflow stop the pool.  Hash sets
  are visited in an arbitrary order, which an `IterOrder`
  stands for; the batch timer is left out.

  Key definitions include:
    * `MempoolTx`, `IterOrder`
    * `Txpool`, `Txpool.new`
    * `Txpool.addTx`, `Txpool.admitProposal`
    * `Txpool.makeBatch`
    * `Txpool.commit`, `Txpool.rollback`
    * `Txpool.Op`, `Txpool.step`
-/

------------------------------------------------------------
-- Transactions and Pools
------------------------------------------------------------

namespace LibApollo

/-
  What the pool asks of a transaction.  `serializedSize` is
  the answer of the serializer, which can fail.
-/
class MempoolTx (Tx : Type) where
  clientId : Tx → ClientId
  nonce : Tx → Nat
  serializedSize : Tx → Option Nat

abbrev TxKey := ClientId × Nat

/- The order in which the elements of a set are visited. -/
structure IterOrder where
  clients : Finset ClientId → List ClientId
  keys : Finset TxKey → List TxKey
  mem_clients : ∀ s c, c ∈ clients s ↔ c ∈ s
  mem_keys : ∀ s k, k ∈ keys s ↔ k ∈ s
  nodup_clients : ∀ s, (clients s).Nodup
  nodup_keys : ∀ s, (keys s).Nodup

structure InflightEntry (Tx : Type) where
  tx : Tx
  size : Nat
  round : Nat
deriving DecidableEq, Repr

structure Txpool (Tx : Type) where
  mineable : FinMap TxKey (Tx × Nat)
  mineableBytes : Nat
  inflight : FinMap TxKey (InflightEntry Tx)
  inflightByRound : FinMap Nat (Finset TxKey)
  highCommittedNonce : FinMap ClientId Nat
  batchSize : Nat

namespace Txpool

/- The sites at which an operation can stop. -/
inductive Panic where
| bytesOverflow
| bytesUnderflow
| missingKey
| missingNonce
deriving DecidableEq, Repr

variable {Tx : Type}

def new (batchSize : Nat) : Txpool Tx where
  mineable := ∅
  mineableBytes := 0
  inflight := ∅
  inflightByRound := ∅
  highCommittedNonce := ∅
  batchSize := batchSize

/- The highest committed nonce of a client, 0 when absent. -/
def hi (pool : Txpool Tx) (client : ClientId) : Nat :=
  (pool.highCommittedNonce.lookup client).getD 0

/- The keys admitted at a round. -/
def roundKeys
    (pool : Txpool Tx)
    (round : Nat) : Finset TxKey :=
  (pool.inflightByRound.lookup round).getD ∅

/- `mineable_bytes += size` -/
def addBytes
    (size : Nat)
    (pool : Txpool Tx) : Except Panic (Txpool Tx) :=
  if pool.mineableBytes + size < 2 ^ 64 then
    .ok
      { pool with
        mineableBytes := pool.mineableBytes + size }
  else
    .error .bytesOverflow

/- `mineable_bytes -= size` -/
def subBytes
    (size : Nat)
    (pool : Txpool Tx) : Except Panic (Txpool Tx) :=
  if size ≤ pool.mineableBytes then
    .ok
      { pool with
        mineableBytes := pool.mineableBytes - size }
  else
    .error .bytesUnderflow

/- Remove a key from the mineable transactions. -/
def removeMineable
    (key : TxKey)
    (pool : Txpool Tx) :
    Except Panic (Option (Tx × Nat) × Txpool Tx) :=
  match pool.mineable.lookup key with
  | none => .ok (none, pool)
  | some entry => do
      let removed ←
        subBytes entry.2
          { pool with mineable := pool.mineable.erase key }
      .ok (some entry, removed)

/- Insert a key; the bytes of its old value are taken off. -/
def insertMineable
    (key : TxKey)
    (entry : Tx × Nat)
    (pool : Txpool Tx) : Except Panic (Txpool Tx) :=
  let inserted :=
    { pool with
      mineable := pool.mineable.insert key entry }
  match pool.mineable.lookup key with
  | none => .ok inserted
  | some old => subBytes old.2 inserted

/- Put a key in flight and in the index of its round. -/
def addInflight
    (key : TxKey)
    (entry : InflightEntry Tx)
    (pool : Txpool Tx) : Txpool Tx :=
  { pool with
    inflight := pool.inflight.insert key entry
    inflightByRound :=
      pool.inflightByRound.insert entry.round
        (insert key (pool.roundKeys entry.round)) }

/- Take a key out of flight and out of the index. -/
def removeInflight
    (key : TxKey)
    (pool : Txpool Tx) : Txpool Tx :=
  match pool.inflight.lookup key with
  | none => pool
  | some entry =>
      { pool with
        inflight := pool.inflight.erase key
        inflightByRound :=
          match pool.inflightByRound.lookup entry.round with
          | none => pool.inflightByRound
          | some keys =>
              pool.inflightByRound.insert entry.round
                (keys.erase key) }

/- Make sure that a round has an index entry. -/
def openRound
    (round : Nat)
    (pool : Txpool Tx) : Txpool Tx :=
  { pool with
    inflightByRound :=
      pool.inflightByRound.insert round
        (pool.roundKeys round) }

/- Drop the index entry of a round that has become empty. -/
def closeRound
    (round : Nat)
    (pool : Txpool Tx) : Txpool Tx :=
  match pool.inflightByRound.lookup round with
  | none => pool
  | some keys =>
      if keys = ∅ then
        { pool with
          inflightByRound :=
            pool.inflightByRound.erase round }
      else
        pool

/- Raise the highest committed nonce of a client. -/
def raiseNonce
    (client : ClientId)
    (nonce : Nat)
    (pool : Txpool Tx) : Txpool Tx :=
  { pool with
    highCommittedNonce :=
      pool.highCommittedNonce.insert client
        (max (pool.hi client) nonce) }

/- The keys in the order of client and nonce. -/
def sortedKeys
    {V : Type}
    (mineable : FinMap TxKey V) : List TxKey :=
  (FinMap.ascending (mineable.keys.image toLex)).map ofLex

theorem mem_sortedKeys
    {V : Type}
    (mineable : FinMap TxKey V)
    (key : TxKey) :
    key ∈ sortedKeys mineable ↔ key ∈ mineable := by
  rw [sortedKeys, List.mem_map]
  constructor
  · intro hParts
    rcases hParts with ⟨_, hMem, rfl⟩
    rw [FinMap.mem_ascending, Finset.mem_image] at hMem
    rcases hMem with ⟨_, hKey, rfl⟩
    exact Finmap.mem_keys.mp hKey
  · intro hKey
    refine ⟨toLex key, ?_, rfl⟩
    rw [FinMap.mem_ascending]
    exact Finset.mem_image_of_mem _
      (Finmap.mem_keys.mpr hKey)

end Txpool

end LibApollo

------------------------------------------------------------
-- Operations
------------------------------------------------------------

namespace LibApollo

namespace Txpool

variable {Tx : Type} [MempoolTx Tx]

def keyOf (tx : Tx) : TxKey :=
  (MempoolTx.clientId tx, MempoolTx.nonce tx)

/-
  A transaction of a client.  It is dropped when its nonce
  is not above the highest committed one or when it is in
  flight; otherwise the last write wins.
-/
def addTx
    (tx : Tx)
    (size : Nat)
    (pool : Txpool Tx) : Except Panic (Txpool Tx) :=
  let key := keyOf tx
  if key.2 ≤ pool.hi key.1 then
    .ok pool
  else if (pool.inflight.lookup key).isSome then
    .ok pool
  else do
    let inserted ← insertMineable key (tx, size) pool
    addBytes size inserted

/- One transaction of an admitted proposal. -/
def admitTx
    (round : Nat)
    (pool : Txpool Tx)
    (tx : Tx) : Except Panic (Txpool Tx) :=
  let key := keyOf tx
  if key.2 ≤ pool.hi key.1 then
    .ok pool
  else if (pool.inflight.lookup key).isSome then
    .ok pool
  else do
    let (found, removed) ← removeMineable key pool
    let size :=
      match found with
      | some entry => entry.2
      | none => (MempoolTx.serializedSize tx).getD 0
    .ok
      (addInflight key
        { tx := tx, size := size, round := round } removed)

/- Mark the transactions of a batch as in flight. -/
def admitProposal
    (batch : CachedBatch Tx)
    (round : Nat)
    (pool : Txpool Tx) : Except Panic (Txpool Tx) :=
  batch.payload.foldlM (admitTx round)
    (pool.openRound round)

/-
  The loop of `makeBatch`.  Every iteration removes a key
  from `mineable`, so their number is enough fuel.
-/
def makeBatchLoop
    (round : Nat) :
    Nat → Nat → List Tx → Txpool Tx →
      Except Panic (List Tx × Txpool Tx)
| 0, _, payload, pool => .ok (payload, pool)
| fuel + 1, batchBytes, payload, pool =>
    if batchBytes < pool.batchSize then
      match (sortedKeys pool.mineable).head? with
      | none => .ok (payload, pool)
      | some key => do
          let (found, removed) ← removeMineable key pool
          match found with
          | none => .error .missingKey
          | some (tx, size) =>
              if batchBytes + size < 2 ^ 64 then
                makeBatchLoop round fuel
                  (batchBytes + size) (payload ++ [tx])
                  (addInflight key
                    { tx := tx
                      size := size
                      round := round } removed)
              else
                .error .bytesOverflow
    else
      .ok (payload, pool)

/- Pop a batch off the mineable transactions. -/
def makeBatch
    (round : Nat)
    (pool : Txpool Tx) :
    Except Panic (List Tx × Txpool Tx) :=
  makeBatchLoop round pool.mineable.keys.card 0 []
    (pool.openRound round)

/- One transaction of a committed batch. -/
def commitTx
    (pool : Txpool Tx)
    (tx : Tx) : Except Panic (Txpool Tx) := do
  let key := keyOf tx
  let (_, removed) ←
    removeMineable key (pool.removeInflight key)
  .ok (removed.raiseNonce key.1 key.2)

omit [MempoolTx Tx] in
/- Remove what a client can no longer have mined. -/
def sweep
    (pool : Txpool Tx)
    (client : ClientId) : Except Panic (Txpool Tx) :=
  match pool.highCommittedNonce.lookup client with
  | none => .error .missingNonce
  | some hi =>
      let stale :=
        (sortedKeys pool.mineable).filter
          (fun key => key.1 = client ∧ key.2 ≤ hi)
      stale.foldlM
        (fun pool key => do
          let (_, removed) ← removeMineable key pool
          .ok removed)
        pool

/- Advance the committed nonces and collect garbage. -/
def commit
    (order : IterOrder)
    (batch : CachedBatch Tx)
    (round : Nat)
    (pool : Txpool Tx) : Except Panic (Txpool Tx) := do
  let touched :=
    (batch.payload.map MempoolTx.clientId).toFinset
  let settled ← batch.payload.foldlM commitTx pool
  let swept ←
    (order.clients touched).foldlM sweep settled
  .ok (swept.closeRound round)

omit [MempoolTx Tx]

/- Return one orphan, unless its nonce is committed. -/
def rollbackKey
    (pool : Txpool Tx)
    (key : TxKey) : Except Panic (Txpool Tx) :=
  if key.2 ≤ pool.hi key.1 then
    .ok { pool with inflight := pool.inflight.erase key }
  else
    match pool.inflight.lookup key with
    | none => .ok pool
    | some entry =>
        addBytes entry.size
          { pool with
            inflight := pool.inflight.erase key
            mineable :=
              pool.mineable.insert key
                (entry.tx, entry.size) }

def rollbackRound
    (order : IterOrder)
    (pool : Txpool Tx)
    (round : Nat) : Except Panic (Txpool Tx) :=
  match pool.inflightByRound.lookup round with
  | none => .ok pool
  | some keys =>
      (order.keys keys).foldlM rollbackKey
        { pool with
          inflightByRound :=
            pool.inflightByRound.erase round }

/- Return the orphans of some rounds. -/
def rollback
    (order : IterOrder)
    (rounds : List Nat)
    (pool : Txpool Tx) : Except Panic (Txpool Tx) :=
  rounds.foldlM (rollbackRound order) pool

/- Are there enough bytes to fill a batch? -/
def ready (pool : Txpool Tx) : Bool :=
  decide (pool.batchSize < pool.mineableBytes)

end Txpool

end LibApollo

------------------------------------------------------------
-- The Pool as a Machine
------------------------------------------------------------

namespace LibApollo

namespace Txpool

/- The calls that change a pool. -/
inductive Op (Tx : Type) where
| addTx (tx : Tx) (size : Nat)
| admitProposal (batch : CachedBatch Tx) (round : Nat)
| makeBatch (round : Nat)
| commit (batch : CachedBatch Tx) (round : Nat)
| rollback (rounds : List Nat)
deriving DecidableEq, Repr

variable {Tx : Type} [MempoolTx Tx]

def step
    (order : IterOrder) :
    Machine (Txpool Tx) (Op Tx) Panic :=
  fun pool op =>
    match op with
    | .addTx tx size => pool.addTx tx size
    | .admitProposal batch round =>
        pool.admitProposal batch round
    | .makeBatch round =>
        (pool.makeBatch round).map Prod.snd
    | .commit batch round => pool.commit order batch round
    | .rollback rounds => pool.rollback order rounds

end Txpool

end LibApollo
