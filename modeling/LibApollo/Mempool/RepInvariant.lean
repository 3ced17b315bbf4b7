import LibApollo.Mempool.Txpool

/-
  The representation invariant of the transaction pool.

  Operations pass through states in which some clients have
  mineable transactions below their committed nonce, or in
  which some keys in flight have lost their index entry.
  `PoolInv` names both exceptions and `RepInv` allows none.

  Key definitions include:
    * `Txpool.PoolInv`, `Txpool.RepInv`
    * `Txpool.heldBytes`

  Key theorems include:
    * `Txpool.RepInv.step`
    * `Txpool.rep_invariant`
-/

------------------------------------------------------------
-- The Invariant
------------------------------------------------------------

namespace LibApollo

namespace Txpool

variable {Tx : Type}

/- The bytes of some mineable transactions. -/
def bytesOf (mineable : FinMap TxKey (Tx × Nat)) : Nat :=
  FinMap.total Prod.snd mineable

/-
  The invariant, with clients whose mineable transactions
  may be stale and keys that may be missing in the index.
-/
structure PoolInv
    (stale : Finset ClientId)
    (orphan : TxKey → Nat → Prop)
    (pool : Txpool Tx) : Prop where
  disjoint :
    ∀ key,
      pool.mineable.lookup key = none ∨
        pool.inflight.lookup key = none
  bytes : pool.mineableBytes = bytesOf pool.mineable
  bound : pool.mineableBytes < 2 ^ 64
  index :
    ∀ key round,
      (key ∈ pool.roundKeys round ∨ orphan key round) ↔
        ∃ entry,
          pool.inflight.lookup key = some entry ∧
            entry.round = round
  fresh :
    ∀ key entry,
      pool.mineable.lookup key = some entry →
        key.1 ∉ stale → pool.hi key.1 < key.2

/- Every key in flight is in the index. -/
def NoOrphan (_ : TxKey) (_ : Nat) : Prop :=
  False

/- The invariant between operations. -/
def RepInv (pool : Txpool Tx) : Prop :=
  PoolInv ∅ NoOrphan pool

/- The bytes of all transactions of a pool. -/
def heldBytes (pool : Txpool Tx) : Nat :=
  bytesOf pool.mineable +
    FinMap.total InflightEntry.size pool.inflight

theorem repInv_new
    (batchSize : Nat) :
    RepInv (new batchSize : Txpool Tx) where
  disjoint := fun _ => Or.inl rfl
  bytes := rfl
  bound := by
    change 0 < 2 ^ 64
    decide
  index := by
    intro key round
    simp [new, roundKeys, NoOrphan]
  fresh := by
    intro key entry hLookup
    simp [new] at hLookup

variable {stale : Finset ClientId}
variable {orphan : TxKey → Nat → Prop}
variable {pool : Txpool Tx}
variable {key : TxKey}

theorem PoolInv.inflight_of_mineable
    {entry : Tx × Nat}
    (hInv : PoolInv stale orphan pool)
    (hMine : pool.mineable.lookup key = some entry) :
    pool.inflight.lookup key = none := by
  rcases hInv.disjoint key with hNone | hNone
  · rw [hMine] at hNone
    cases hNone
  · exact hNone

theorem PoolInv.mineable_of_inflight
    {entry : InflightEntry Tx}
    (hInv : PoolInv stale orphan pool)
    (hFlight : pool.inflight.lookup key = some entry) :
    pool.mineable.lookup key = none := by
  rcases hInv.disjoint key with hNone | hNone
  · exact hNone
  · rw [hFlight] at hNone
    cases hNone

/- The index of a round has its keys in flight. -/
theorem PoolInv.mem_roundKeys
    {round : Nat}
    (hInv : PoolInv stale NoOrphan pool) :
    key ∈ pool.roundKeys round ↔
      ∃ entry,
        pool.inflight.lookup key = some entry ∧
          entry.round = round := by
  rw [← hInv.index key round, NoOrphan, or_false]

end Txpool

end LibApollo

------------------------------------------------------------
-- Mineable Transactions
------------------------------------------------------------

namespace LibApollo

namespace Txpool

variable {Tx : Type}
variable {stale : Finset ClientId}
variable {orphan : TxKey → Nat → Prop}
variable {pool : Txpool Tx}

/- The pool without a mineable key. -/
def dropMineable
    (key : TxKey)
    (pool : Txpool Tx) : Txpool Tx :=
  { pool with
    mineable := pool.mineable.erase key
    mineableBytes := bytesOf (pool.mineable.erase key) }

theorem dropMineable_lookup_self
    (key : TxKey)
    (pool : Txpool Tx) :
    (pool.dropMineable key).mineable.lookup key = none := by
  unfold dropMineable
  simp

/- Removing a key never underflows. -/
theorem removeMineable_eq
    (hBytes : pool.mineableBytes = bytesOf pool.mineable)
    (key : TxKey) :
    removeMineable key pool =
      .ok (pool.mineable.lookup key,
        pool.dropMineable key) := by
  unfold removeMineable dropMineable
  cases hLookup : pool.mineable.lookup key with
  | none =>
      dsimp only
      rw [FinMap.erase_of_none hLookup, ← hBytes]
  | some entry =>
      have hTotal :
          bytesOf pool.mineable =
            entry.2 + bytesOf (pool.mineable.erase key) :=
        FinMap.total_erase_of_some hLookup
      have hFits : entry.2 ≤ pool.mineableBytes := by
        omega
      have hRest :
          pool.mineableBytes - entry.2 =
            bytesOf (pool.mineable.erase key) := by
        omega
      simp only [subBytes, hFits, if_true, hRest, bind,
        Except.bind]

/- Neither does replacing the value of a key. -/
theorem insertMineable_eq
    (hBytes : pool.mineableBytes = bytesOf pool.mineable)
    (key : TxKey)
    (entry : Tx × Nat) :
    insertMineable key entry pool =
      .ok
        { pool with
          mineable := pool.mineable.insert key entry
          mineableBytes :=
            bytesOf (pool.mineable.erase key) } := by
  unfold insertMineable
  cases hLookup : pool.mineable.lookup key with
  | none =>
      dsimp only
      rw [FinMap.erase_of_none hLookup, ← hBytes]
  | some old =>
      have hTotal :
          bytesOf pool.mineable =
            old.2 + bytesOf (pool.mineable.erase key) :=
        FinMap.total_erase_of_some hLookup
      have hFits : old.2 ≤ pool.mineableBytes := by
        omega
      have hRest :
          pool.mineableBytes - old.2 =
            bytesOf (pool.mineable.erase key) := by
        omega
      simp only [subBytes, hFits, if_true, hRest]

theorem bytesOf_erase_le
    (mineable : FinMap TxKey (Tx × Nat))
    (key : TxKey) :
    bytesOf (mineable.erase key) ≤ bytesOf mineable := by
  cases hLookup : mineable.lookup key with
  | none => rw [FinMap.erase_of_none hLookup]
  | some entry =>
      have hTotal :
          bytesOf mineable =
            entry.2 + bytesOf (mineable.erase key) :=
        FinMap.total_erase_of_some hLookup
      omega

theorem PoolInv.dropMineable
    (key : TxKey)
    (hInv : PoolInv stale orphan pool) :
    PoolInv stale orphan (pool.dropMineable key) where
  disjoint := by
    intro other
    rcases hInv.disjoint other with hNone | hNone
    · left
      change (pool.mineable.erase key).lookup other = none
      rw [FinMap.lookup_erase_eq, hNone, ite_self]
    · exact Or.inr hNone
  bytes := rfl
  bound := by
    have hLess := bytesOf_erase_le pool.mineable key
    have hBytes := hInv.bytes
    have hBound := hInv.bound
    change bytesOf (pool.mineable.erase key) < 2 ^ 64
    omega
  index := hInv.index
  fresh := FinMap.forall_erase hInv.fresh

/- Inserting a fresh key that is not in flight. -/
theorem PoolInv.insertMineable
    {key : TxKey}
    (entry : Tx × Nat)
    (hInv : PoolInv stale orphan pool)
    (hFlight : pool.inflight.lookup key = none)
    (hFresh : key.1 ∉ stale → pool.hi key.1 < key.2)
    (hBound :
      bytesOf (pool.mineable.insert key entry) < 2 ^ 64) :
    PoolInv stale orphan
      { pool with
        mineable := pool.mineable.insert key entry
        mineableBytes :=
          bytesOf (pool.mineable.insert key entry) } where
  disjoint := by
    intro other
    dsimp only
    by_cases hKey : other = key
    · subst hKey
      exact Or.inr hFlight
    · rw [FinMap.lookup_insert_eq, if_neg hKey]
      exact hInv.disjoint other
  bytes := rfl
  bound := hBound
  index := hInv.index
  fresh := FinMap.forall_insert hInv.fresh hFresh

end Txpool

end LibApollo

------------------------------------------------------------
-- Transactions in Flight
------------------------------------------------------------

namespace LibApollo

namespace Txpool

variable {Tx : Type}
variable {stale : Finset ClientId}
variable {orphan : TxKey → Nat → Prop}
variable {pool : Txpool Tx}

/- The index entries after one of them was replaced. -/
theorem roundKeys_insert
    (round other : Nat)
    (keys : Finset TxKey) :
    ({ pool with
      inflightByRound :=
        pool.inflightByRound.insert round keys } :
          Txpool Tx).roundKeys other =
      if other = round then keys
      else pool.roundKeys other := by
  unfold roundKeys
  dsimp only
  rw [FinMap.lookup_insert_eq]
  split
  · rfl
  · rfl

theorem roundKeys_erase
    (round other : Nat) :
    ({ pool with
      inflightByRound :=
        pool.inflightByRound.erase round } :
          Txpool Tx).roundKeys other =
      if other = round then ∅
      else pool.roundKeys other := by
  unfold roundKeys
  dsimp only
  rw [FinMap.lookup_erase_eq]
  split
  · rfl
  · rfl

theorem roundKeys_of_lookup
    {round : Nat}
    {keys : Finset TxKey}
    (hLookup :
      pool.inflightByRound.lookup round = some keys) :
    pool.roundKeys round = keys := by
  rw [roundKeys, hLookup]
  rfl

/- Only the keys of a round count, not its entry. -/
theorem PoolInv.reindex
    {byRound : FinMap Nat (Finset TxKey)}
    (hInv : PoolInv stale orphan pool)
    (hSame :
      ∀ round,
        ({ pool with inflightByRound := byRound } :
          Txpool Tx).roundKeys round =
          pool.roundKeys round) :
    PoolInv stale orphan
      { pool with inflightByRound := byRound } :=
  { hInv with
    index := by
      intro key round
      rw [hSame]
      exact hInv.index key round }

theorem PoolInv.openRound
    (round : Nat)
    (hInv : PoolInv stale orphan pool) :
    PoolInv stale orphan (pool.openRound round) := by
  apply hInv.reindex
  intro other
  rw [roundKeys_insert]
  split
  · rename_i hEq
    rw [hEq]
  · rfl

theorem PoolInv.closeRound
    (round : Nat)
    (hInv : PoolInv stale orphan pool) :
    PoolInv stale orphan (pool.closeRound round) := by
  unfold Txpool.closeRound
  split
  · exact hInv
  · rename_i keys hLookup
    split
    · rename_i hEmpty
      apply hInv.reindex
      intro other
      rw [roundKeys_erase]
      split
      · rename_i hEq
        rw [hEq, roundKeys_of_lookup hLookup, hEmpty]
      · rfl
    · exact hInv

/- A key that is not in flight is in no index entry. -/
theorem PoolInv.not_indexed
    {key : TxKey}
    (hInv : PoolInv stale orphan pool)
    (hFlight : pool.inflight.lookup key = none)
    (round : Nat) :
    key ∉ pool.roundKeys round ∧ ¬ orphan key round := by
  rw [← not_or, hInv.index]
  intro hParts
  rcases hParts with ⟨_, hSome, _⟩
  rw [hFlight] at hSome
  cases hSome

theorem roundKeys_addInflight
    (key : TxKey)
    (entry : InflightEntry Tx)
    (round : Nat) :
    (pool.addInflight key entry).roundKeys round =
      if round = entry.round then
        insert key (pool.roundKeys entry.round)
      else
        pool.roundKeys round :=
  roundKeys_insert entry.round round _

/- A new key in flight. -/
theorem PoolInv.addInflight
    {key : TxKey}
    {entry : InflightEntry Tx}
    (hInv : PoolInv stale orphan pool)
    (hMineable : pool.mineable.lookup key = none)
    (hFlight : pool.inflight.lookup key = none) :
    PoolInv stale orphan (pool.addInflight key entry) where
  disjoint := by
    intro other
    by_cases hKey : other = key
    · subst hKey
      exact Or.inl hMineable
    · unfold Txpool.addInflight
      dsimp only
      rw [FinMap.lookup_insert_eq, if_neg hKey]
      exact hInv.disjoint other
  bytes := hInv.bytes
  bound := hInv.bound
  index := by
    intro other round
    have hLookup :
        (pool.addInflight key entry).inflight.lookup other =
          if other = key then some entry
          else pool.inflight.lookup other :=
      FinMap.lookup_insert_eq _ _ _ _
    have hAbsent := hInv.not_indexed hFlight round
    rw [roundKeys_addInflight, hLookup]
    by_cases hKey : other = key
    · subst hKey
      rw [if_pos rfl]
      by_cases hRound : round = entry.round
      · rw [if_pos hRound]
        simp [hRound]
      · rw [if_neg hRound]
        constructor
        · intro hIndexed
          exact absurd hIndexed (not_or.mpr hAbsent)
        · intro hParts
          rcases hParts with ⟨_, hSome, hEq⟩
          cases hSome
          exact absurd hEq.symm hRound
    · rw [if_neg hKey, ← hInv.index other round]
      by_cases hRound : round = entry.round
      · rw [if_pos hRound, hRound, Finset.mem_insert]
        simp [hKey]
      · rw [if_neg hRound]
  fresh := hInv.fresh

/- A key that leaves the flight leaves the index. -/
theorem PoolInv.removeInflight
    (key : TxKey)
    (hInv : PoolInv stale NoOrphan pool) :
    PoolInv stale NoOrphan (pool.removeInflight key) := by
  have hIndex :
      ∀ other round,
        other ∈ pool.roundKeys round ↔
          ∃ entry,
            pool.inflight.lookup other = some entry ∧
              entry.round = round :=
    fun _ _ => hInv.mem_roundKeys
  unfold Txpool.removeInflight
  cases hLookup : pool.inflight.lookup key with
  | none => exact hInv
  | some entry =>
      have hMem :=
        (hIndex key entry.round).mpr ⟨entry, hLookup, rfl⟩
      dsimp only
      cases hKeys :
          pool.inflightByRound.lookup entry.round with
      | none =>
          rw [roundKeys, hKeys] at hMem
          exact absurd hMem (Finset.notMem_empty key)
      | some keys =>
          refine { hInv with disjoint := ?_, index := ?_ }
          · intro other
            dsimp only
            rw [FinMap.lookup_erase_eq]
            split
            · exact Or.inr rfl
            · exact hInv.disjoint other
          · intro other round
            have hRound :
                ({ pool with
                  inflight := pool.inflight.erase key
                  inflightByRound :=
                    pool.inflightByRound.insert entry.round
                      (keys.erase key) } :
                    Txpool Tx).roundKeys round =
                  if round = entry.round then keys.erase key
                  else pool.roundKeys round :=
              roundKeys_insert entry.round round _
            rw [hRound, NoOrphan, or_false,
              FinMap.lookup_erase_eq]
            by_cases hKey : other = key
            · subst hKey
              rw [if_pos rfl]
              by_cases hSame : round = entry.round
              · rw [if_pos hSame]
                simp
              · rw [if_neg hSame, hIndex, hLookup]
                constructor
                · intro hParts
                  rcases hParts with ⟨_, hSome, hEq⟩
                  cases hSome
                  exact absurd hEq.symm hSame
                · intro hParts
                  rcases hParts with ⟨_, hNone, _⟩
                  cases hNone
            · rw [if_neg hKey, ← hIndex]
              by_cases hSame : round = entry.round
              · rw [if_pos hSame, hSame,
                  roundKeys_of_lookup hKeys]
                simp [hKey]
              · rw [if_neg hSame]

end Txpool

end LibApollo

------------------------------------------------------------
-- Adding and Batching
------------------------------------------------------------

namespace LibApollo

namespace Txpool

open Result

variable {Tx : Type} [MempoolTx Tx]
variable {stale : Finset ClientId}
variable {orphan : TxKey → Nat → Prop}
variable {pool : Txpool Tx}

/- No failure is possible. -/
def Never (_ : Panic) : Prop :=
  False

/- Only an overflow of this many bytes is possible. -/
def OnlyOverflow (bytes : Nat) (panic : Panic) : Prop :=
  panic = .bytesOverflow ∧ 2 ^ 64 ≤ bytes

theorem RepInv.addTx
    (tx : Tx)
    (size : Nat)
    (hInv : RepInv pool) :
    Yields (OnlyOverflow (pool.heldBytes + size)) RepInv
      (pool.addTx tx size) := by
  unfold Txpool.addTx
  dsimp only
  split
  · exact hInv
  rename_i hNonce
  split
  · exact hInv
  rename_i hFlight
  rw [insertMineable_eq hInv.bytes]
  have hAbsent :
      pool.inflight.lookup (keyOf tx) = none := by
    simpa using hFlight
  have hTotal :
      bytesOf (pool.mineable.insert (keyOf tx) (tx, size)) =
        size + bytesOf (pool.mineable.erase (keyOf tx)) :=
    FinMap.total_insert _ _ _
  change Yields _ _ (addBytes size _)
  unfold addBytes
  dsimp only
  split
  · rename_i hFits
    have hResult :=
      PoolInv.insertMineable (tx, size) hInv hAbsent
        (fun _ => Nat.not_le.mp hNonce) (by omega)
    rw [hTotal, Nat.add_comm] at hResult
    exact hResult
  · rename_i hFull
    have hLess :=
      bytesOf_erase_le pool.mineable (keyOf tx)
    refine ⟨rfl, ?_⟩
    unfold heldBytes
    omega

theorem PoolInv.admitTx
    (round : Nat)
    (tx : Tx)
    (hInv : PoolInv stale orphan pool) :
    Yields Never (PoolInv stale orphan)
      (admitTx round pool tx) := by
  unfold Txpool.admitTx
  dsimp only
  split
  · exact hInv
  split
  · exact hInv
  rename_i hFlight
  have hAbsent :
      pool.inflight.lookup (keyOf tx) = none := by
    simpa using hFlight
  rw [removeMineable_eq hInv.bytes]
  exact (hInv.dropMineable (keyOf tx)).addInflight
    (dropMineable_lookup_self _ _) hAbsent

theorem RepInv.admitProposal
    (batch : CachedBatch Tx)
    (round : Nat)
    (hInv : RepInv pool) :
    Yields Never RepInv
      (pool.admitProposal batch round) := by
  have hOpen : RepInv (pool.openRound round) :=
    PoolInv.openRound round hInv
  apply Yields.foldlM (fun _ => RepInv) _ batch.payload hOpen
  intro tx _ now hNow
  exact PoolInv.admitTx round tx hNow

omit [MempoolTx Tx] in
/- The first key of the mineable transactions is one. -/
theorem lookup_of_head?
    {mineable : FinMap TxKey (Tx × Nat)}
    {key : TxKey}
    (hFirst : (sortedKeys mineable).head? = some key) :
    ∃ entry, mineable.lookup key = some entry := by
  have hMem :=
    (mem_sortedKeys mineable key).mp
      (List.mem_of_mem_head? hFirst)
  exact Option.isSome_iff_exists.mp
    (Finmap.lookup_isSome.mpr hMem)

omit [MempoolTx Tx] in
/- A mineable transaction is put in flight. -/
theorem PoolInv.promote
    {key : TxKey}
    {tx : Tx}
    {size : Nat}
    (round : Nat)
    (hInv : PoolInv stale orphan pool)
    (hLookup : pool.mineable.lookup key = some (tx, size)) :
    PoolInv stale orphan
      ((pool.dropMineable key).addInflight key
        { tx := tx, size := size, round := round }) :=
  (hInv.dropMineable key).addInflight
    (dropMineable_lookup_self key pool)
    (hInv.inflight_of_mineable hLookup)

omit [MempoolTx Tx] in
theorem PoolInv.makeBatchLoop
    (round fuel : Nat)
    {batchBytes : Nat}
    {payload : List Tx}
    (hInv : PoolInv stale orphan pool)
    (hFits :
      batchBytes + bytesOf pool.mineable < 2 ^ 64) :
    Yields Never
      (fun result => PoolInv stale orphan result.2)
      (makeBatchLoop round fuel batchBytes payload
        pool) := by
  induction fuel generalizing batchBytes payload pool with
  | zero => exact hInv
  | succ fuel ih =>
      unfold Txpool.makeBatchLoop
      split
      · cases hFirst : (sortedKeys pool.mineable).head? with
        | none => exact hInv
        | some key =>
            rcases lookup_of_head? hFirst with
              ⟨⟨tx, size⟩, hLookup⟩
            have hTotal :
                bytesOf pool.mineable =
                  size +
                    bytesOf (pool.mineable.erase key) :=
              FinMap.total_erase_of_some hLookup
            have hSmall : batchBytes + size < 2 ^ 64 := by
              omega
            dsimp only
            rw [removeMineable_eq hInv.bytes, hLookup]
            simp only [bind, Except.bind, hSmall, if_true]
            apply ih (hInv.promote round hLookup)
            change batchBytes + size +
              bytesOf (pool.mineable.erase key) < 2 ^ 64
            omega
      · exact hInv

omit [MempoolTx Tx] in
/-
  One iteration of the loop: the batch is large enough, no
  transaction is left, or the first one is taken.
-/
theorem makeBatchLoop_cases
    {round fuel batchBytes : Nat}
    {payload payload' : List Tx}
    {pool' : Txpool Tx}
    (hInv : PoolInv stale orphan pool)
    (hLoop :
      makeBatchLoop round (fuel + 1) batchBytes payload
          pool = .ok (payload', pool')) :
    ((pool.batchSize ≤ batchBytes ∨
          (sortedKeys pool.mineable).head? = none) ∧
        payload' = payload ∧
        pool' = pool) ∨
      ∃ key tx size,
        batchBytes < pool.batchSize ∧
          (sortedKeys pool.mineable).head? = some key ∧
          pool.mineable.lookup key = some (tx, size) ∧
          makeBatchLoop round fuel (batchBytes + size)
              (payload ++ [tx])
              ((pool.dropMineable key).addInflight key
                { tx := tx
                  size := size
                  round := round }) =
            .ok (payload', pool') := by
  unfold Txpool.makeBatchLoop at hLoop
  split at hLoop
  · rename_i hSmall
    split at hLoop
    · rename_i hNone
      cases hLoop
      exact Or.inl ⟨Or.inr hNone, rfl, rfl⟩
    · rename_i key hFirst
      rcases lookup_of_head? hFirst with
        ⟨⟨tx, size⟩, hLookup⟩
      rw [removeMineable_eq hInv.bytes, hLookup] at hLoop
      simp only [bind, Except.bind] at hLoop
      split at hLoop
      · exact Or.inr ⟨key, tx, size, hSmall, hFirst, hLookup,
          hLoop⟩
      · cases hLoop
  · rename_i hLarge
    cases hLoop
    exact Or.inl ⟨Or.inl (Nat.not_lt.mp hLarge), rfl, rfl⟩

omit [MempoolTx Tx] in
theorem RepInv.makeBatch
    (round : Nat)
    (hInv : RepInv pool) :
    Yields Never (fun result => RepInv result.2)
      (pool.makeBatch round) := by
  have hBytes := hInv.bytes
  have hBound := hInv.bound
  exact PoolInv.makeBatchLoop round _
    (PoolInv.openRound round hInv)
    (by
      change 0 + bytesOf pool.mineable < 2 ^ 64
      omega)

end Txpool

end LibApollo

------------------------------------------------------------
-- Committing
------------------------------------------------------------

namespace LibApollo

namespace Txpool

open Result

variable {Tx : Type} [MempoolTx Tx]
variable {stale : Finset ClientId}
variable {pool : Txpool Tx}

omit [MempoolTx Tx] in
theorem hi_raiseNonce
    (client other : ClientId)
    (nonce : Nat) :
    (pool.raiseNonce client nonce).hi other =
      if other = client then max (pool.hi client) nonce
      else pool.hi other := by
  unfold raiseNonce hi
  dsimp only
  rw [FinMap.lookup_insert_eq]
  split
  · rfl
  · rfl

omit [MempoolTx Tx] in
/- The transactions of the client may be stale from now. -/
theorem PoolInv.raiseNonce
    {client : ClientId}
    {orphan : TxKey → Nat → Prop}
    (nonce : Nat)
    (hInv : PoolInv stale orphan pool)
    (hStale : client ∈ stale) :
    PoolInv stale orphan (pool.raiseNonce client nonce) :=
  { hInv with
    fresh := by
      intro key entry hLookup hFresh
      have hOther : key.1 ≠ client := by
        intro hEq
        rw [hEq] at hFresh
        exact hFresh hStale
      rw [hi_raiseNonce, if_neg hOther]
      exact hInv.fresh key entry hLookup hFresh }

theorem PoolInv.commitTx
    {tx : Tx}
    (hInv : PoolInv stale NoOrphan pool)
    (hStale : MempoolTx.clientId tx ∈ stale) :
    Yields Never
      (fun after =>
        PoolInv stale NoOrphan after ∧
          ∀ client,
            after.highCommittedNonce.lookup client =
                none →
              pool.highCommittedNonce.lookup client =
                  none ∧
                client ≠ MempoolTx.clientId tx)
      (commitTx pool tx) := by
  have hSettled := hInv.removeInflight (keyOf tx)
  have hNonces :
      (pool.removeInflight
        (keyOf tx)).highCommittedNonce =
          pool.highCommittedNonce := by
    unfold Txpool.removeInflight
    split
    · rfl
    · rfl
  unfold Txpool.commitTx
  dsimp only
  rw [removeMineable_eq hSettled.bytes]
  refine ⟨(hSettled.dropMineable (keyOf tx)).raiseNonce _
    hStale, ?_⟩
  intro client hLookup
  unfold Txpool.raiseNonce at hLookup
  dsimp only at hLookup
  rw [FinMap.lookup_insert_eq] at hLookup
  split at hLookup
  · cases hLookup
  · rename_i hOther
    unfold Txpool.dropMineable at hLookup
    dsimp only at hLookup
    rw [hNonces] at hLookup
    exact ⟨hLookup, hOther⟩

omit [MempoolTx Tx] in
/- The loop of a sweep; `keys` are still to be visited. -/
theorem PoolInv.sweepLoop
    (client : ClientId)
    (high : Nat)
    (keys : List TxKey)
    (hInv : PoolInv stale NoOrphan pool)
    (hLeft :
      ∀ key entry,
        pool.mineable.lookup key = some entry →
          key.1 = client → key.2 ≤ high → key ∈ keys) :
    Yields Never
      (fun after =>
        PoolInv stale NoOrphan after ∧
          after.highCommittedNonce =
            pool.highCommittedNonce ∧
          ∀ key entry,
            after.mineable.lookup key = some entry →
              key.1 = client → ¬ key.2 ≤ high)
      (keys.foldlM
        (fun now key => do
          let (_, removed) ← removeMineable key now
          .ok removed)
        pool) := by
  refine Yields.mono (Yields.foldlM
    (fun keys now =>
      PoolInv stale NoOrphan now ∧
        now.highCommittedNonce =
          pool.highCommittedNonce ∧
        ∀ key entry,
          now.mineable.lookup key = some entry →
            key.1 = client → key.2 ≤ high → key ∈ keys)
    ?_ keys ⟨hInv, rfl, hLeft⟩) ?_
  · intro key keys now hParts
    rcases hParts with ⟨hNow, hSame, hLeft⟩
    rw [removeMineable_eq hNow.bytes]
    refine ⟨hNow.dropMineable key, hSame, ?_⟩
    intro other entry hLookup hClient hLow
    unfold Txpool.dropMineable at hLookup
    dsimp only at hLookup
    rw [FinMap.lookup_erase_eq] at hLookup
    split at hLookup
    · cases hLookup
    · rename_i hOther
      have hMem := hLeft other entry hLookup hClient hLow
      exact (List.mem_cons.mp hMem).resolve_left hOther
  · intro after hParts
    rcases hParts with ⟨hAfter, hSame, hLeft⟩
    refine ⟨hAfter, hSame, ?_⟩
    intro key entry hLookup hClient hLow
    exact List.not_mem_nil
      (hLeft key entry hLookup hClient hLow)

omit [MempoolTx Tx] in
/- After a sweep the client has no stale transactions. -/
theorem PoolInv.sweep
    {client : ClientId}
    (rest : Finset ClientId)
    (hInv : PoolInv stale NoOrphan pool)
    (hRest : ∀ other ∈ stale, other = client ∨ other ∈ rest)
    (hNonce :
      pool.highCommittedNonce.lookup client ≠ none) :
    Yields Never
      (fun after =>
        PoolInv rest NoOrphan after ∧
          after.highCommittedNonce =
            pool.highCommittedNonce)
      (sweep pool client) := by
  unfold Txpool.sweep
  cases hHigh : pool.highCommittedNonce.lookup client with
  | none => exact absurd hHigh hNonce
  | some high =>
      refine (hInv.sweepLoop client high _ ?_).mono ?_
      · intro key entry hLookup hClient hLow
        have hMem :=
          Finmap.mem_of_lookup_eq_some hLookup
        rw [List.mem_filter, mem_sortedKeys,
          decide_eq_true_eq]
        exact ⟨hMem, hClient, hLow⟩
      · intro after hParts
        rcases hParts with ⟨hAfter, hSame, hClean⟩
        refine ⟨{ hAfter with fresh := ?_ }, hSame⟩
        intro key entry hLookup hFresh
        by_cases hClient : key.1 = client
        · have hHi : after.hi key.1 = high := by
            rw [hi, hSame, hClient, hHigh]
            rfl
          rw [hHi]
          exact Nat.not_le.mp
            (hClean key entry hLookup hClient)
        · refine hAfter.fresh key entry hLookup ?_
          intro hStale
          rcases hRest key.1 hStale with hEq | hMem
          · exact hClient hEq
          · exact hFresh hMem

/-
  The payload loop of a commit: every client of the payload
  has a committed nonce afterwards.
-/
theorem PoolInv.commitPayload
    (payload : List Tx)
    (hInv : PoolInv stale NoOrphan pool)
    (hClients :
      ∀ client, client ∈ stale ↔
        ∃ tx ∈ payload,
          MempoolTx.clientId tx = client) :
    Yields Never
      (fun settled =>
        PoolInv stale NoOrphan settled ∧
          ∀ client ∈ stale,
            settled.highCommittedNonce.lookup client ≠
              none)
      (payload.foldlM Txpool.commitTx pool) := by
  refine Yields.mono (Yields.foldlM
    (fun txs now =>
      PoolInv stale NoOrphan now ∧
        (∀ tx ∈ txs, MempoolTx.clientId tx ∈ stale) ∧
        ∀ client ∈ stale,
          now.highCommittedNonce.lookup client = none →
            ∃ tx ∈ txs, MempoolTx.clientId tx = client)
    ?_ payload ?_) ?_
  · intro tx txs now hParts
    rcases hParts with ⟨hNow, hMem, hLeft⟩
    refine (hNow.commitTx
      (hMem tx List.mem_cons_self)).mono ?_
    intro after hParts
    rcases hParts with ⟨hAfter, hNonces⟩
    refine ⟨hAfter, fun other hOther =>
      hMem other (List.mem_cons_of_mem _ hOther), ?_⟩
    intro client hClient hNone
    rcases hNonces client hNone with ⟨hOld, hNe⟩
    rcases hLeft client hClient hOld with
      ⟨other, hOther, hEq⟩
    rcases List.mem_cons.mp hOther with rfl | hRest
    · exact absurd hEq.symm hNe
    · exact ⟨other, hRest, hEq⟩
  · refine ⟨hInv, ?_, ?_⟩
    · intro tx hTx
      exact (hClients _).mpr ⟨tx, hTx, rfl⟩
    · intro client hClient _
      exact (hClients client).mp hClient
  · intro settled hParts
    rcases hParts with ⟨hSettled, _, hLeft⟩
    refine ⟨hSettled, ?_⟩
    intro client hClient hNone
    rcases hLeft client hClient hNone with ⟨_, hMem, _⟩
    exact List.not_mem_nil hMem

omit [MempoolTx Tx] in
/- Sweeping all clients that may be stale. -/
theorem PoolInv.sweepAll
    (clients : List ClientId)
    (hInv : PoolInv clients.toFinset NoOrphan pool)
    (hNonces :
      ∀ client ∈ clients,
        pool.highCommittedNonce.lookup client ≠ none) :
    Yields Never RepInv
      (clients.foldlM Txpool.sweep pool) := by
  refine Yields.mono (Yields.foldlM
    (fun clients now =>
      PoolInv clients.toFinset NoOrphan now ∧
        ∀ client ∈ clients,
          now.highCommittedNonce.lookup client ≠ none)
    ?_ clients ⟨hInv, hNonces⟩) ?_
  · intro client clients now hParts
    rcases hParts with ⟨hNow, hKnown⟩
    refine (hNow.sweep clients.toFinset ?_
      (hKnown client List.mem_cons_self)).mono ?_
    · intro other hOther
      simpa using hOther
    · intro after hParts
      rcases hParts with ⟨hAfter, hSame⟩
      refine ⟨hAfter, ?_⟩
      intro other hOther
      rw [hSame]
      exact hKnown other (List.mem_cons_of_mem _ hOther)
  · intro after hParts
    rcases hParts with ⟨hAfter, _⟩
    exact hAfter

theorem RepInv.commit
    (order : IterOrder)
    (batch : CachedBatch Tx)
    (round : Nat)
    (hInv : RepInv pool) :
    Yields Never RepInv
      (pool.commit order batch round) := by
  unfold Txpool.commit
  dsimp only
  generalize hTouched :
    (batch.payload.map MempoolTx.clientId).toFinset = touched
  have hClients :
      ∀ client, client ∈ touched ↔
        ∃ tx ∈ batch.payload,
          MempoolTx.clientId tx = client := by
    intro client
    rw [← hTouched]
    simp
  have hStart : PoolInv touched NoOrphan pool :=
    { hInv with
      fresh := by
        intro key entry hLookup _
        exact hInv.fresh key entry hLookup
          (Finset.notMem_empty _) }
  refine (hStart.commitPayload batch.payload
    hClients).bind ?_
  intro settled hParts
  rcases hParts with ⟨hSettled, hNonces⟩
  have hAll :
      (order.clients touched).toFinset = touched := by
    ext client
    rw [List.mem_toFinset, order.mem_clients]
  rw [← hAll] at hSettled
  refine (hSettled.sweepAll _ ?_).bind ?_
  · intro client hClient
    exact hNonces client
      ((order.mem_clients touched client).mp hClient)
  · intro after hAfter
    exact PoolInv.closeRound round hAfter

end Txpool

end LibApollo

------------------------------------------------------------
-- Rolling Back
------------------------------------------------------------

namespace LibApollo

namespace Txpool

open Result

variable {Tx : Type}
variable {pool : Txpool Tx}

/- The orphans of a round that are still to be visited. -/
def OrphansOf
    (round : Nat)
    (keys : List TxKey)
    (key : TxKey)
    (other : Nat) : Prop :=
  other = round ∧ key ∈ keys

/- A visited orphan is no longer in flight. -/
theorem PoolInv.takeOrphan
    {round : Nat}
    {key : TxKey}
    {keys : List TxKey}
    (hNew : key ∉ keys)
    (hEmpty : pool.roundKeys round = ∅)
    (hInv : PoolInv ∅ (OrphansOf round (key :: keys)) pool) :
    PoolInv ∅ (OrphansOf round keys)
      { pool with inflight := pool.inflight.erase key } := by
  have hOwn :
      ∃ entry,
        pool.inflight.lookup key = some entry ∧
          entry.round = round :=
    (hInv.index key round).mp
      (Or.inr ⟨rfl, List.mem_cons_self⟩)
  rcases hOwn with ⟨entry, hEntry, hRound⟩
  refine { hInv with disjoint := ?_, index := ?_ }
  · intro other
    dsimp only
    rw [FinMap.lookup_erase_eq]
    split
    · exact Or.inr rfl
    · exact hInv.disjoint other
  · intro other r
    have hOld := hInv.index other r
    change (other ∈ pool.roundKeys r ∨ _) ↔ _
    dsimp only
    rw [FinMap.lookup_erase_eq]
    by_cases hKey : other = key
    · subst hKey
      rw [if_pos rfl]
      constructor
      · intro hCases
        rcases hCases with hMem | ⟨_, hMem⟩
        · rcases hOld.mp (Or.inl hMem) with
            ⟨found, hFound, hEq⟩
          rw [hEntry, Option.some.injEq] at hFound
          rw [← hEq, ← hFound, hRound, hEmpty] at hMem
          exact absurd hMem (Finset.notMem_empty _)
        · exact absurd hMem hNew
      · intro hParts
        rcases hParts with ⟨_, hNone, _⟩
        cases hNone
    · rw [if_neg hKey, ← hOld]
      simp [OrphansOf, hKey]

/- Erasing from the flight does not add bytes. -/
theorem total_inflight_erase
    {key : TxKey}
    {entry : InflightEntry Tx}
    (hLookup : pool.inflight.lookup key = some entry) :
    FinMap.total InflightEntry.size pool.inflight =
      entry.size +
        FinMap.total InflightEntry.size
          (pool.inflight.erase key) :=
  FinMap.total_erase_of_some hLookup

theorem PoolInv.rollbackKey
    {round limit : Nat}
    {key : TxKey}
    {keys : List TxKey}
    (hNew : key ∉ keys)
    (hEmpty : pool.roundKeys round = ∅)
    (hLimit : pool.heldBytes ≤ limit)
    (hInv : PoolInv ∅ (OrphansOf round (key :: keys)) pool) :
    Yields (OnlyOverflow limit)
      (fun after =>
        PoolInv ∅ (OrphansOf round keys) after ∧
          after.roundKeys round = ∅ ∧
          after.heldBytes ≤ limit)
      (rollbackKey pool key) := by
  have hOwn :
      ∃ entry,
        pool.inflight.lookup key = some entry ∧
          entry.round = round :=
    (hInv.index key round).mp
      (Or.inr ⟨rfl, List.mem_cons_self⟩)
  rcases hOwn with ⟨entry, hEntry, _⟩
  have hTaken := hInv.takeOrphan hNew hEmpty
  have hTotal := total_inflight_erase hEntry
  unfold heldBytes at hLimit
  unfold Txpool.rollbackKey
  split
  · refine ⟨hTaken, hEmpty, ?_⟩
    unfold heldBytes
    dsimp only
    omega
  · rename_i hNonce
    rw [hEntry]
    have hFresh := hInv.mineable_of_inflight hEntry
    have hBytes :
        bytesOf
            (pool.mineable.insert key
              (entry.tx, entry.size)) =
          entry.size + bytesOf pool.mineable :=
      FinMap.total_insert_of_none hFresh
    have hOld := hInv.bytes
    unfold addBytes
    dsimp only
    split
    · rename_i hFits
      have hResult :=
        PoolInv.insertMineable (entry.tx, entry.size)
          hTaken
          (by
            dsimp only
            rw [FinMap.lookup_erase_eq, if_pos rfl])
          (fun _ => Nat.not_le.mp hNonce)
          (by
            dsimp only
            omega)
      refine ⟨?_, hEmpty, ?_⟩
      · dsimp only at hResult
        rw [hBytes, ← hOld, Nat.add_comm] at hResult
        exact hResult
      · unfold heldBytes
        dsimp only
        omega
    · exact ⟨rfl, by omega⟩

/- The keys of a round that leaves the index are orphans. -/
theorem RepInv.orphans
    {round : Nat}
    {keys : Finset TxKey}
    (order : IterOrder)
    (hInv : RepInv pool)
    (hLookup :
      pool.inflightByRound.lookup round = some keys) :
    PoolInv ∅ (OrphansOf round (order.keys keys))
        { pool with
          inflightByRound :=
            pool.inflightByRound.erase round } ∧
      ({ pool with
        inflightByRound :=
          pool.inflightByRound.erase round } :
          Txpool Tx).roundKeys round = ∅ := by
  constructor
  · refine { hInv with index := ?_ }
    intro key other
    have hOld := hInv.index key other
    rw [NoOrphan, or_false] at hOld
    rw [roundKeys_erase, ← hOld, OrphansOf,
      order.mem_keys]
    by_cases hRound : other = round
    · rw [if_pos hRound, hRound,
        roundKeys_of_lookup hLookup]
      simp
    · rw [if_neg hRound]
      simp [hRound]
  · rw [roundKeys_erase, if_pos rfl]

theorem RepInv.rollbackRound
    {limit : Nat}
    (order : IterOrder)
    (round : Nat)
    (hInv : RepInv pool)
    (hLimit : pool.heldBytes ≤ limit) :
    Yields (OnlyOverflow limit)
      (fun after =>
        RepInv after ∧ after.heldBytes ≤ limit)
      (rollbackRound order pool round) := by
  unfold Txpool.rollbackRound
  cases hLookup : pool.inflightByRound.lookup round with
  | none => exact ⟨hInv, hLimit⟩
  | some keys =>
      dsimp only
      rcases hInv.orphans order hLookup with
        ⟨hStart, hEmpty⟩
      refine Yields.mono (Yields.foldlM
        (fun keys now =>
          keys.Nodup ∧
            PoolInv ∅ (OrphansOf round keys) now ∧
            now.roundKeys round = ∅ ∧
            now.heldBytes ≤ limit) ?_ _
        ⟨order.nodup_keys keys, hStart, hEmpty, hLimit⟩) ?_
      · intro key keys now hParts
        rcases hParts with ⟨hNodup, hNow, hNone, hHeld⟩
        rcases List.nodup_cons.mp hNodup with
          ⟨hNew, hRest⟩
        refine (hNow.rollbackKey hNew hNone hHeld).mono ?_
        intro after hAfter
        exact ⟨hRest, hAfter⟩
      · intro after hParts
        rcases hParts with ⟨_, hAfter, _, hHeld⟩
        refine ⟨{ hAfter with index := ?_ }, hHeld⟩
        intro key other
        rw [← hAfter.index key other]
        simp [NoOrphan, OrphansOf]

theorem RepInv.rollback
    (order : IterOrder)
    (rounds : List Nat)
    (hInv : RepInv pool) :
    Yields (OnlyOverflow pool.heldBytes) RepInv
      (pool.rollback order rounds) := by
  refine Yields.mono (Yields.foldlM
    (fun _ now =>
      RepInv now ∧ now.heldBytes ≤ pool.heldBytes)
    ?_ rounds ⟨hInv, Nat.le_refl _⟩) ?_
  · intro round _ now hParts
    rcases hParts with ⟨hNow, hHeld⟩
    exact hNow.rollbackRound order round hHeld
  · intro after hParts
    rcases hParts with ⟨hAfter, _⟩
    exact hAfter

end Txpool

end LibApollo

------------------------------------------------------------
-- Runs of a Pool
------------------------------------------------------------

namespace LibApollo

namespace Txpool

open Result

variable {Tx : Type} [MempoolTx Tx]
variable {pool : Txpool Tx}

omit [MempoolTx Tx] in
/- The bytes a call brings. -/
def Op.size : Op Tx → Nat
| .addTx _ size => size
| _ => 0

theorem RepInv.step
    (order : IterOrder)
    (op : Op Tx)
    (hInv : RepInv pool) :
    Yields (OnlyOverflow (pool.heldBytes + op.size)) RepInv
      (Txpool.step order pool op) := by
  cases op with
  | addTx tx size => exact hInv.addTx tx size
  | admitProposal batch round =>
      exact (hInv.admitProposal batch round).weaken
        (fun _ hNever => False.elim hNever)
  | makeBatch round =>
      have hBatch := hInv.makeBatch round
      unfold Txpool.step
      dsimp only
      cases hResult : pool.makeBatch round with
      | ok result =>
          rw [hResult] at hBatch
          exact hBatch
      | error panic =>
          rw [hResult] at hBatch
          exact False.elim hBatch
  | commit batch round =>
      exact (hInv.commit order batch round).weaken
        (fun _ hNever => False.elim hNever)
  | rollback rounds => exact hInv.rollback order rounds

/-
  After any calls: no key is both mineable and in flight;
  the byte count is the total size of the mineable
  transactions; the index by round lists exactly the keys in
  flight; mineable nonces are above the committed ones.  And
  the next call succeeds, unless the bytes held by the pool
  and brought by the call do not fit a 64-bit number; in
  particular no subtraction underflows.
-/
theorem rep_invariant
    {order : IterOrder}
    {batchSize : Nat}
    (hReach :
      Machine.Reach (step order) (fun _ _ => True)
        (new batchSize) pool) :
    (∀ key,
        ¬ (key ∈ pool.mineable ∧ key ∈ pool.inflight)) ∧
      pool.mineableBytes =
        FinMap.total Prod.snd pool.mineable ∧
      (∀ key round,
        key ∈ pool.roundKeys round ↔
          ∃ entry,
            pool.inflight.lookup key = some entry ∧
              entry.round = round) ∧
      (∀ client nonce,
        (client, nonce) ∈ pool.mineable →
          pool.hi client < nonce) ∧
      ∀ op,
        (∃ after, step order pool op = .ok after) ∨
          (step order pool op = .error .bytesOverflow ∧
            2 ^ 64 ≤ pool.heldBytes + op.size) := by
  have hInv : RepInv pool := by
    apply hReach.invariant RepInv (repInv_new batchSize)
    intro s s' op hBefore _ hStep
    have hAfter := hBefore.step order op
    rw [hStep] at hAfter
    exact hAfter
  refine ⟨?_, hInv.bytes, ?_, ?_, ?_⟩
  · intro key hParts
    rcases hParts with ⟨hMine, hFlight⟩
    rcases hInv.disjoint key with hNone | hNone
    · exact Finmap.lookup_eq_none.mp hNone hMine
    · exact Finmap.lookup_eq_none.mp hNone hFlight
  · intro key round
    exact PoolInv.mem_roundKeys hInv
  · intro client nonce hMem
    rcases Option.isSome_iff_exists.mp
        (Finmap.lookup_isSome.mpr hMem) with
      ⟨entry, hLookup⟩
    exact hInv.fresh (client, nonce) entry hLookup
      (Finset.notMem_empty _)
  · intro op
    have hYields := hInv.step order op
    cases hStep : step order pool op with
    | ok after => exact Or.inl ⟨after, rfl⟩
    | error panic =>
        rw [hStep] at hYields
        rcases hYields with ⟨rfl, hBytes⟩
        exact Or.inr ⟨rfl, hBytes⟩

/- The fixed-width encoding of a transaction. -/
instance : MempoolTx Transaction where
  clientId tx := tx.clientId
  nonce tx := tx.nonce
  serializedSize tx :=
    some (2 + 8 + (8 + tx.data.length) +
      (8 + tx.request.length))

/- Sets visited in increasing order. -/
def sortedOrder : IterOrder where
  clients := FinMap.ascending
  keys s := (FinMap.ascending (s.image toLex)).map ofLex
  mem_clients := FinMap.mem_ascending
  mem_keys := by
    intro s key
    rw [List.mem_map]
    constructor
    · intro hParts
      rcases hParts with ⟨_, hMem, rfl⟩
      rw [FinMap.mem_ascending, Finset.mem_image] at hMem
      rcases hMem with ⟨_, hKey, rfl⟩
      exact hKey
    · intro hKey
      refine ⟨toLex key, ?_, rfl⟩
      rw [FinMap.mem_ascending]
      exact Finset.mem_image_of_mem _ hKey
  nodup_clients := FinMap.nodup_ascending
  nodup_keys := by
    intro s
    exact (FinMap.nodup_ascending _).map
      ofLex.injective

def transaction (client nonce : Nat) : Transaction where
  clientId := client
  nonce := nonce
  data := []
  request := []

/-
  Two transactions are added, one is batched in round 1 and
  another admitted there; the round is rolled back and one
  of its transactions committed.
-/
def rollbackRun : List (Op Transaction) :=
  [.addTx (transaction 1 5) 10,
    .addTx (transaction 2 3) 20,
    .makeBatch 1,
    .admitProposal ⟨[transaction 1 7, transaction 2 3]⟩ 1,
    .rollback [1, 1],
    .commit ⟨[transaction 1 5]⟩ 1]

theorem rep_invariant_after_rollback :
    ∃ pool : Txpool Transaction,
      Machine.Reach (step sortedOrder) (fun _ _ => True)
          (new 10) pool ∧
        pool.mineableBytes = 46 ∧
        pool.mineableBytes =
          FinMap.total Prod.snd pool.mineable ∧
        ∀ client nonce,
          (client, nonce) ∈ pool.mineable →
            pool.hi client < nonce := by
  have hRun :
      Machine.runCheck (step sortedOrder)
        (fun _ _ => true)
        (fun pool => decide (pool.mineableBytes = 46))
        (new 10) rollbackRun = true := by
    decide +kernel
  rcases Machine.Reach.of_runCheck
      (fun _ _ _ => trivial) hRun with
    ⟨pool, hReach, hBytes⟩
  rcases rep_invariant hReach with
    ⟨_, hTotal, _, hFresh, _⟩
  exact ⟨pool, hReach, of_decide_eq_true hBytes, hTotal,
    hFresh⟩

end Txpool

end LibApollo
