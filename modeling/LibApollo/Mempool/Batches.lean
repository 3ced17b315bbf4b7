import LibApollo.Base.FiniteMap
import LibApollo.Types.Block

/-
  The batch side of a node: the in-memory batch cache with
  its durable store behind it, and the messages a consensus
  engine sends to the keyed batcher.

  Key definitions include:
    * `BatcherConsensusMsg`
    * `BatchStores`
    * `BatchStores.persistBatch`
    * `BatchStores.readBatch`
    * `BatchStores.Holds`

  Key theorems include:
    * `BatchStores.holds_of_persistBatch`
    * `BatchStores.readBatch_holds`
-/

------------------------------------------------------------
-- Messages to the Batcher
------------------------------------------------------------

namespace LibApollo

inductive BatcherConsensusMsg (Tx : Type) where
| newRound (leader : Replica) (round : Nat)
| proposed (batch : CachedBatch Tx) (round : Nat)
| committed (batch : CachedBatch Tx) (round : Nat)
| rollback (rounds : List Nat)
deriving DecidableEq, Repr

end LibApollo

------------------------------------------------------------
-- Batch Cache and Store
------------------------------------------------------------

namespace LibApollo

abbrev Batch := CachedBatch Transaction

/-
  `batchCache` and `batchStore` of a node's context.  The
  store holds serialized batches, which decode to the batch
  that was written.
-/
structure BatchStores (H : Type) where
  batchCache : FinMap H Batch
  batchStore : FinMap H Batch

namespace BatchStores

variable {H : Type} [DecidableEq H]

/- Cache insertion; the first writer of a hash wins. -/
def cacheInsert
    (stores : BatchStores H)
    (hash : H)
    (batch : Batch) : BatchStores H :=
  if (stores.batchCache.lookup hash).isSome then
    stores
  else
    { stores with
      batchCache := stores.batchCache.insert hash batch }

/- Install a batch in the cache and write it to the store. -/
def persistBatch
    (stores : BatchStores H)
    (hash : H)
    (batch : Batch) : BatchStores H :=
  let cached := stores.cacheInsert hash batch
  { cached with
    batchStore := cached.batchStore.insert hash batch }

/- Read a batch, from the cache first and then the store. -/
def readBatch
    (stores : BatchStores H)
    (hash : H) : Option Batch × BatchStores H :=
  match stores.batchCache.lookup hash with
  | some batch => (some batch, stores)
  | none =>
      match stores.batchStore.lookup hash with
      | some batch =>
          (some batch, stores.cacheInsert hash batch)
      | none => (none, stores)

/- The batch is found under the hash, in cache or store. -/
def Holds
    (stores : BatchStores H)
    (hash : H)
    (batch : Batch) : Prop :=
  stores.batchCache.lookup hash = some batch ∨
    stores.batchStore.lookup hash = some batch

variable {stores : BatchStores H}
variable {hash other : H}
variable {batch found : Batch}

/- What is held after an insertion in the cache. -/
theorem holds_of_cacheInsert
    (hHolds :
      (stores.cacheInsert hash batch).Holds other found) :
    stores.Holds other found ∨
      (other = hash ∧ found = batch) := by
  unfold cacheInsert at hHolds
  split at hHolds
  · exact Or.inl hHolds
  · rcases hHolds with hCache | hStore
    · dsimp only at hCache
      rw [FinMap.lookup_insert_eq] at hCache
      split at hCache
      · rename_i hSame
        cases hCache
        exact Or.inr ⟨hSame, rfl⟩
      · exact Or.inl (Or.inl hCache)
    · exact Or.inl (Or.inr hStore)

/- The first batch of a hash stays in the cache. -/
theorem cached_cacheInsert
    (hCached : stores.batchCache.lookup other = some found)
    (hash : H)
    (batch : Batch) :
    (stores.cacheInsert hash batch).batchCache.lookup
        other = some found := by
  unfold cacheInsert
  split
  · exact hCached
  · rename_i hFree
    dsimp only
    rw [FinMap.lookup_insert_eq, if_neg]
    · exact hCached
    · intro hSame
      rw [← hSame, hCached] at hFree
      exact hFree rfl

/- An insertion in the cache leaves the store alone. -/
theorem batchStore_cacheInsert
    (stores : BatchStores H)
    (hash : H)
    (batch : Batch) :
    (stores.cacheInsert hash batch).batchStore =
      stores.batchStore := by
  unfold cacheInsert
  split
  · rfl
  · rfl

/- The cache forgets nothing. -/
theorem Holds.cacheInsert
    (hHolds : stores.Holds other found)
    (hash : H)
    (batch : Batch) :
    (stores.cacheInsert hash batch).Holds other found := by
  rcases hHolds with hCache | hStore
  · exact Or.inl (cached_cacheInsert hCache hash batch)
  · right
    unfold BatchStores.cacheInsert
    split
    · exact hStore
    · exact hStore

/- What is held after a batch was persisted. -/
theorem holds_of_persistBatch
    (hHolds :
      (stores.persistBatch hash batch).Holds other found) :
    stores.Holds other found ∨
      (other = hash ∧ found = batch) := by
  rcases hHolds with hCache | hStore
  · exact holds_of_cacheInsert (Or.inl hCache)
  · change ((stores.cacheInsert hash
      batch).batchStore.insert hash batch).lookup other =
        some found at hStore
    rw [FinMap.lookup_insert_eq] at hStore
    split at hStore
    · rename_i hSame
      cases hStore
      exact Or.inr ⟨hSame, rfl⟩
    · exact holds_of_cacheInsert (Or.inr hStore)

/- A persisted batch is there. -/
theorem persistBatch_holds
    (stores : BatchStores H)
    (hash : H)
    (batch : Batch) :
    (stores.persistBatch hash batch).Holds hash batch := by
  right
  change ((stores.cacheInsert hash
    batch).batchStore.insert hash batch).lookup hash = _
  rw [FinMap.lookup_insert_eq, if_pos rfl]

/- Where there was a batch there still is one. -/
theorem exists_holds_persistBatch
    (hHolds : ∃ found, stores.Holds other found) :
    ∃ found,
      (stores.persistBatch hash batch).Holds other
        found := by
  by_cases hSame : other = hash
  · rw [hSame]
    exact ⟨batch, persistBatch_holds stores hash batch⟩
  · rcases hHolds with ⟨found, hHolds⟩
    refine ⟨found, ?_⟩
    rcases hHolds.cacheInsert hash batch with
      hCache | hStore
    · exact Or.inl hCache
    · right
      change ((stores.cacheInsert hash
        batch).batchStore.insert hash batch).lookup other = _
      rw [FinMap.lookup_insert_eq, if_neg hSame]
      exact hStore

/- Reading changes nothing about what is held. -/
theorem readBatch_holds
    (stores : BatchStores H)
    (hash other : H)
    (found : Batch) :
    (stores.readBatch hash).2.Holds other found ↔
      stores.Holds other found := by
  unfold readBatch
  split
  · rfl
  · split
    · rename_i batch hStore
      constructor
      · intro hHolds
        rcases holds_of_cacheInsert hHolds with
          hOld | ⟨rfl, rfl⟩
        · exact hOld
        · exact Or.inr hStore
      · intro hHolds
        exact hHolds.cacheInsert _ _
    · rfl

/- What is read is held. -/
theorem holds_of_readBatch
    (hRead : (stores.readBatch hash).1 = some batch) :
    stores.Holds hash batch := by
  unfold readBatch at hRead
  split at hRead
  · rename_i cached hCache
    cases hRead
    exact Or.inl hCache
  · split at hRead
    · rename_i stored hStore
      cases hRead
      exact Or.inr hStore
    · cases hRead

/- A batch that is held is found. -/
theorem readBatch_isSome
    (hHolds : ∃ batch, stores.Holds hash batch) :
    ∃ found, (stores.readBatch hash).1 = some found := by
  rcases hHolds with ⟨batch, hHolds⟩
  unfold readBatch
  cases hCache : stores.batchCache.lookup hash with
  | some cached => exact ⟨cached, rfl⟩
  | none =>
      rcases hHolds with hCached | hStore
      · rw [hCache] at hCached
        cases hCached
      · rw [hStore]
        exact ⟨batch, rfl⟩

/- A batch that was read is in the cache, and stays there. -/
theorem cached_readBatch
    (hCached :
      stores.batchCache.lookup other = some found ∨
        (other = hash ∧
          (stores.readBatch hash).1 = some found)) :
    (stores.readBatch hash).2.batchCache.lookup other =
      some found := by
  rcases hCached with hCached | ⟨rfl, hRead⟩
  · unfold readBatch
    split
    · exact hCached
    · split
      · exact cached_cacheInsert hCached _ _
      · exact hCached
  · unfold readBatch at hRead ⊢
    split at hRead
    · rename_i cached hCache
      cases hRead
      exact hCache
    · rename_i hMissing
      split at hRead
      · rename_i stored hStore
        cases hRead
        dsimp only
        unfold cacheInsert
        rw [hMissing, Option.isSome_none,
          if_neg Bool.false_ne_true]
        exact (FinMap.lookup_insert_eq _ _ _ _).trans
          (if_pos rfl)
      · cases hRead

end BatchStores

end LibApollo
