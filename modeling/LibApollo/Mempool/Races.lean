import LibApollo.Mempool.MakeBatch
import LibApollo.Mempool.ReplayFilter

/-
  Calls that race for the transaction pool.

  Clients, the proposer and consensus call the pool in any
  order and consensus repeats itself.  A pool that keeps its
  invariant is determined by the entries of its four maps,
  and a commit by what it does to these.  So a transaction
  can arrive before or after a commit or a proposal, and a
  call that is repeated changes nothing.

  Key definitions include:
    * `Txpool.Prunes`, `Txpool.CommitsTo`
    * `Txpool.SameUpToSize`
    * `Txpool.Late`
    * `Txpool.OpensAtMost`

  Key theorems include:
    * `Txpool.commit_commitsTo`
    * `Txpool.addTx_commutes`
    * `Txpool.repeated_calls_absorbed`
-/

------------------------------------------------------------
-- What a Commit Leaves
------------------------------------------------------------

namespace LibApollo

namespace Txpool

variable {Tx : Type} [MempoolTx Tx]
variable {stale : Finset ClientId}
variable {pool pool' : Txpool Tx}

/-
  Mineable keys disappear only when their nonce is reached,
  and the keys of a payload leave the index.
-/
structure Prunes
    (payload : List Tx)
    (pool pool' : Txpool Tx) : Prop where
  hi_le : ∀ client, pool.hi client ≤ pool'.hi client
  kept :
    ∀ key,
      pool'.mineable.lookup key =
          pool.mineable.lookup key ∨
        key.2 ≤ pool'.hi key.1
  byRound :
    ∀ round,
      pool'.inflightByRound.lookup round =
        (pool.inflightByRound.lookup round).map
          (fun keys =>
            keys.filter (· ∉ payload.map keyOf))
  batchSize : pool'.batchSize = pool.batchSize

theorem Prunes.trans
    {first second : List Tx}
    {mid : Txpool Tx}
    (hFirst : Prunes first pool mid)
    (hSecond : Prunes second mid pool') :
    Prunes (first ++ second) pool pool' where
  hi_le := by
    intro client
    exact Nat.le_trans (hFirst.hi_le client)
      (hSecond.hi_le client)
  kept := by
    intro key
    rcases hSecond.kept key with hSame | hLow
    · rw [hSame]
      rcases hFirst.kept key with hSame' | hLow
      · exact Or.inl hSame'
      · exact Or.inr
          (Nat.le_trans hLow (hSecond.hi_le key.1))
    · exact Or.inr hLow
  byRound := by
    intro round
    rw [hSecond.byRound, hFirst.byRound, Option.map_map]
    congr 1
    funext keys
    rw [Function.comp_apply, Finset.filter_filter]
    simp [not_or]
  batchSize := hSecond.batchSize.trans hFirst.batchSize

theorem Prunes.refl
    (pool : Txpool Tx) : Prunes [] pool pool where
  hi_le := fun _ => Nat.le_refl _
  kept := fun _ => Or.inl rfl
  byRound := by simp
  batchSize := rfl

omit [MempoolTx Tx] in
/- Removing a mineable key erases just that key. -/
theorem removeMineable_erases
    {key : TxKey}
    {found : Option (Tx × Nat)}
    (hRemove :
      removeMineable key pool = .ok (found, pool')) :
    pool'.mineable = pool.mineable.erase key ∧
      pool'.inflightByRound = pool.inflightByRound ∧
      pool'.batchSize = pool.batchSize := by
  unfold removeMineable at hRemove
  split at hRemove
  · rename_i hNone
    cases hRemove
    rw [FinMap.erase_of_none hNone]
    exact ⟨rfl, rfl, rfl⟩
  · rcases Result.bind_eq_ok.mp hRemove with
      ⟨removed, hSub, hPair⟩
    cases hPair
    unfold subBytes at hSub
    split at hSub
    · cases hSub
      exact ⟨rfl, rfl, rfl⟩
    · cases hSub

/- Removing a key whose nonce is reached prunes it. -/
theorem removeMineable_prunes
    {key : TxKey}
    {found : Option (Tx × Nat)}
    (hLow : key.2 ≤ pool.hi key.1)
    (hRemove :
      removeMineable key pool = .ok (found, pool')) :
    Prunes [] pool pool' := by
  rcases removeMineable_erases hRemove with
    ⟨hMineable, hIndex, hSize⟩
  have hSame : ∀ client, pool'.hi client = pool.hi client := by
    intro client
    rw [hi, hi, (removeMineable_fields hRemove).2]
  refine
    { hi_le := fun client => Nat.le_of_eq (hSame client).symm
      kept := ?_
      byRound := ?_
      batchSize := hSize }
  · intro other
    rw [hMineable, FinMap.lookup_erase_eq]
    by_cases hKey : other = key
    · right
      rw [hKey, hSame]
      exact hLow
    · left
      rw [if_neg hKey]
  · intro round
    rw [hIndex]
    simp

omit [MempoolTx Tx] in
/- A key out of flight is in no entry of the index. -/
theorem byRound_removeInflight
    (key : TxKey)
    (round : Nat)
    (hInv : PoolInv stale NoOrphan pool) :
    (pool.removeInflight key).inflightByRound.lookup round =
      (pool.inflightByRound.lookup round).map
        (fun keys => keys.filter (· ≠ key)) := by
  have hIndex :
      ∀ r keys,
        pool.inflightByRound.lookup r = some keys →
          (key ∈ keys ↔
            ∃ entry,
              pool.inflight.lookup key = some entry ∧
                entry.round = r) := by
    intro r keys hKeys
    rw [← PoolInv.mem_roundKeys hInv,
      roundKeys_of_lookup hKeys]
  have hAbsent :
      ∀ keys : Finset TxKey, key ∉ keys →
        keys.filter (· ≠ key) = keys := by
    intro keys hNot
    apply Finset.filter_true_of_mem
    intro other hMem hEq
    rw [hEq] at hMem
    exact hNot hMem
  unfold removeInflight
  cases hFlight : pool.inflight.lookup key with
  | none =>
      dsimp only
      cases hKeys : pool.inflightByRound.lookup round with
      | none => rfl
      | some keys =>
          rw [Option.map_some, hAbsent]
          intro hMem
          rcases (hIndex round keys hKeys).mp hMem with
            ⟨_, hSome, _⟩
          rw [hFlight] at hSome
          cases hSome
  | some entry =>
      dsimp only
      cases hOwn :
          pool.inflightByRound.lookup entry.round with
      | none =>
          have hMem :=
            (hInv.index key entry.round).mpr
              ⟨entry, hFlight, rfl⟩
          rw [NoOrphan, or_false, roundKeys, hOwn] at hMem
          exact absurd hMem (Finset.notMem_empty key)
      | some own =>
          dsimp only
          rw [FinMap.lookup_insert_eq]
          by_cases hRound : round = entry.round
          · rw [if_pos hRound, hRound, hOwn,
              Option.map_some, Finset.filter_ne']
          · rw [if_neg hRound]
            cases hKeys :
                pool.inflightByRound.lookup round with
            | none => rfl
            | some keys =>
                rw [Option.map_some, hAbsent]
                intro hMem
                rcases (hIndex round keys hKeys).mp hMem
                  with ⟨other, hSome, hEq⟩
                rw [hFlight, Option.some.injEq] at hSome
                rw [hSome] at hRound
                exact hRound hEq.symm

theorem commitTx_prunes
    {tx : Tx}
    (hInv : PoolInv stale NoOrphan pool)
    (hCommit : commitTx pool tx = .ok pool') :
    Prunes [tx] pool pool' := by
  rcases Result.bind_eq_ok.mp hCommit with
    ⟨⟨found, removed⟩, hRemove, hRaise⟩
  rcases removeMineable_erases hRemove with
    ⟨hMineable, hIndex, hSize⟩
  rcases removeInflight_fields (keyOf tx) pool with
    ⟨hBefore, hNonces⟩
  have hHi : ∀ client, removed.hi client = pool.hi client := by
    intro client
    rw [hi, hi, (removeMineable_fields hRemove).2, hNonces]
  cases hRaise
  refine
    { hi_le := ?_
      kept := ?_
      byRound := ?_
      batchSize := ?_ }
  · intro client
    rw [hi_raiseNonce, hHi, hHi]
    split
    · rename_i hClient
      rw [hClient]
      exact Nat.le_max_left _ _
    · exact Nat.le_refl _
  · intro key
    change removed.mineable.lookup key = _ ∨ _
    rw [hMineable, hBefore, FinMap.lookup_erase_eq]
    by_cases hKey : key = keyOf tx
    · right
      rw [hKey, hi_raiseNonce, if_pos rfl]
      exact Nat.le_max_right _ _
    · left
      rw [if_neg hKey]
  · intro round
    change removed.inflightByRound.lookup round = _
    rw [hIndex, byRound_removeInflight (keyOf tx) round hInv]
    simp
  · change removed.batchSize = pool.batchSize
    rw [hSize]
    unfold removeInflight
    split
    · rfl
    · rfl

theorem commitLoop_prunes
    {payload : List Tx}
    (hInv : PoolInv stale NoOrphan pool)
    (hStale :
      ∀ tx ∈ payload, MempoolTx.clientId tx ∈ stale)
    (hCommit : payload.foldlM commitTx pool = .ok pool') :
    Prunes payload pool pool' := by
  induction payload generalizing pool with
  | nil =>
      cases hCommit
      exact Prunes.refl _
  | cons tx payload ih =>
      rw [List.foldlM_cons] at hCommit
      rcases Result.bind_eq_ok.mp hCommit with
        ⟨mid, hFirst, hRest⟩
      have hYields :=
        hInv.commitTx (hStale tx List.mem_cons_self)
      rw [hFirst] at hYields
      have hLater :=
        ih hYields.1
          (fun other hOther =>
            hStale other (List.mem_cons_of_mem tx hOther))
          hRest
      exact (commitTx_prunes hInv hFirst).trans hLater

theorem sweepLoop_prunes
    {keys : List TxKey}
    (hLow : ∀ key ∈ keys, key.2 ≤ pool.hi key.1)
    (hSweep :
      keys.foldlM
        (fun now key => do
          let (_, removed) ← removeMineable key now
          .ok removed)
        pool = .ok pool') :
    Prunes ([] : List Tx) pool pool' := by
  induction keys generalizing pool with
  | nil =>
      cases hSweep
      exact Prunes.refl _
  | cons key keys ih =>
      rw [List.foldlM_cons] at hSweep
      rcases Result.bind_eq_ok.mp hSweep with
        ⟨mid, hFirst, hRest⟩
      rcases Result.bind_eq_ok.mp hFirst with
        ⟨⟨found, removed⟩, hRemove, hMid⟩
      cases hMid
      have hStep : Prunes ([] : List Tx) pool mid :=
        removeMineable_prunes (hLow key List.mem_cons_self)
          hRemove
      have hLater : Prunes ([] : List Tx) mid pool' := by
        apply ih _ hRest
        intro other hOther
        exact Nat.le_trans
          (hLow other (List.mem_cons_of_mem key hOther))
          (hStep.hi_le other.1)
      exact hStep.trans hLater

theorem sweepAll_prunes
    {clients : List ClientId}
    (hSweep : clients.foldlM sweep pool = .ok pool') :
    Prunes ([] : List Tx) pool pool' := by
  induction clients generalizing pool with
  | nil =>
      cases hSweep
      exact Prunes.refl _
  | cons client clients ih =>
      rw [List.foldlM_cons] at hSweep
      rcases Result.bind_eq_ok.mp hSweep with
        ⟨mid, hFirst, hRest⟩
      unfold sweep at hFirst
      split at hFirst
      · cases hFirst
      · rename_i high hHigh
        have hStep : Prunes ([] : List Tx) pool mid := by
          apply sweepLoop_prunes _ hFirst
          intro key hKey
          have hStale :=
            of_decide_eq_true (List.mem_filter.mp hKey).2
          rw [hi, hStale.1, hHigh]
          exact hStale.2
        exact hStep.trans (ih hRest)

end Txpool

end LibApollo

------------------------------------------------------------
-- The Result of a Commit
------------------------------------------------------------

namespace LibApollo

namespace Txpool

variable {Tx : Type}
variable {pool pool' : Txpool Tx}

/- An entry of the index after its round may be closed. -/
def closed
    (round other : Nat)
    (keys : Option (Finset TxKey)) :
    Option (Finset TxKey) :=
  if other = round ∧ keys = some ∅ then none else keys

theorem byRound_closeRound
    (pool : Txpool Tx)
    (round other : Nat) :
    (pool.closeRound round).inflightByRound.lookup other =
      closed round other
        (pool.inflightByRound.lookup other) := by
  unfold closeRound closed
  cases hLookup : pool.inflightByRound.lookup round with
  | none =>
      dsimp only
      rw [if_neg]
      intro hParts
      rw [hParts.1, hLookup] at hParts
      cases hParts.2
  | some keys =>
      dsimp only
      by_cases hEmpty : keys = ∅
      · rw [if_pos hEmpty]
        dsimp only
        rw [FinMap.lookup_erase_eq]
        by_cases hRound : other = round
        · rw [if_pos hRound, hRound, hLookup, hEmpty,
            if_pos ⟨rfl, rfl⟩]
        · rw [if_neg hRound,
            if_neg (fun hParts => hRound hParts.1)]
      · rw [if_neg hEmpty, if_neg]
        intro hParts
        rw [hParts.1, hLookup, Option.some.injEq] at hParts
        exact hEmpty hParts.2

/- The invariant leaves no freedom beside the four maps. -/
theorem RepInv.ext_lookup
    (hInv : RepInv pool)
    (hInv' : RepInv pool')
    (hMineable :
      ∀ key,
        pool.mineable.lookup key =
          pool'.mineable.lookup key)
    (hInflight :
      ∀ key,
        pool.inflight.lookup key =
          pool'.inflight.lookup key)
    (hByRound :
      ∀ round,
        pool.inflightByRound.lookup round =
          pool'.inflightByRound.lookup round)
    (hNonces :
      pool.highCommittedNonce = pool'.highCommittedNonce)
    (hSize : pool.batchSize = pool'.batchSize) :
    pool = pool' := by
  have hMine := Finmap.ext_lookup hMineable
  have hFlight := Finmap.ext_lookup hInflight
  have hIndex := Finmap.ext_lookup hByRound
  have hBytes : pool.mineableBytes = pool'.mineableBytes := by
    rw [hInv.bytes, hInv'.bytes, hMine]
  cases pool
  cases pool'
  simp only at hMine hFlight hIndex hNonces hSize hBytes
  rw [hMine, hFlight, hIndex, hNonces, hSize, hBytes]

variable [MempoolTx Tx]

/-
  The result of a commit, entry by entry: what is not above
  the new nonces is no longer mineable.
-/
structure CommitsTo
    (batch : CachedBatch Tx)
    (round : Nat)
    (pool pool' : Txpool Tx) : Prop where
  records : Records batch.payload pool pool'
  mineable :
    ∀ key,
      pool'.mineable.lookup key =
        if key.2 ≤ pool'.hi key.1 then none
        else pool.mineable.lookup key
  byRound :
    ∀ other,
      pool'.inflightByRound.lookup other =
        closed round other
          ((pool.inflightByRound.lookup other).map
            (fun keys =>
              keys.filter
                (· ∉ batch.payload.map keyOf)))
  batchSize : pool'.batchSize = pool.batchSize

omit [MempoolTx Tx] in
theorem closeRound_fields
    (pool : Txpool Tx)
    (round : Nat) :
    (pool.closeRound round).mineable = pool.mineable ∧
      (pool.closeRound round).highCommittedNonce =
        pool.highCommittedNonce ∧
      (pool.closeRound round).batchSize =
        pool.batchSize := by
  unfold closeRound
  split
  · exact ⟨rfl, rfl, rfl⟩
  · split
    · exact ⟨rfl, rfl, rfl⟩
    · exact ⟨rfl, rfl, rfl⟩

/- Every commit returns the pool described above. -/
theorem commit_commitsTo
    (order : IterOrder)
    (batch : CachedBatch Tx)
    (round : Nat)
    (hInv : RepInv pool) :
    ∃ after,
      pool.commit order batch round = .ok after ∧
        RepInv after ∧
        CommitsTo batch round pool after := by
  have hYields := hInv.commit order batch round
  cases hCommit : pool.commit order batch round with
  | error panic =>
      rw [hCommit] at hYields
      exact False.elim hYields
  | ok after =>
      rw [hCommit] at hYields
      refine ⟨after, rfl, hYields, ?_⟩
      have hRecords := commit_records hCommit
      rcases Result.bind_eq_ok.mp hCommit with
        ⟨settled, hSettle, hRest⟩
      rcases Result.bind_eq_ok.mp hRest with
        ⟨swept, hSweep, hClose⟩
      have hStart :
          PoolInv
            (batch.payload.map MempoolTx.clientId).toFinset
            NoOrphan pool :=
        { hInv with
          fresh := by
            intro key entry hLookup _
            exact hInv.fresh key entry hLookup
              (Finset.notMem_empty _) }
      have hLoop : Prunes batch.payload pool settled := by
        apply commitLoop_prunes hStart _ hSettle
        intro tx hTx
        rw [List.mem_toFinset]
        exact List.mem_map_of_mem hTx
      have hAll := hLoop.trans (sweepAll_prunes hSweep)
      rw [List.append_nil] at hAll
      cases hClose
      rcases closeRound_fields swept round with
        ⟨hMineable, hNonces, hSize⟩
      have hHi : ∀ client,
          (swept.closeRound round).hi client =
            swept.hi client := by
        intro client
        rw [hi, hi, hNonces]
      refine
        { records := hRecords
          mineable := ?_
          byRound := ?_
          batchSize := hSize.trans hAll.batchSize }
      · intro key
        by_cases hLow :
            key.2 ≤ (swept.closeRound round).hi key.1
        · rw [if_pos hLow]
          exact Finmap.lookup_eq_none.mpr
            (hYields.not_mineable hLow)
        · rw [if_neg hLow, hMineable]
          rw [hHi] at hLow
          exact (hAll.kept key).resolve_right hLow
      · intro other
        rw [byRound_closeRound, hAll.byRound]

end Txpool

end LibApollo

------------------------------------------------------------
-- Arrivals and Commits
------------------------------------------------------------

namespace LibApollo

namespace Txpool

variable {Tx : Type}
variable {pool pool' : Txpool Tx}
variable {key : TxKey}

/- The pool with one more mineable entry. -/
def putMineable
    (key : TxKey)
    (entry : Tx × Nat)
    (pool : Txpool Tx) : Txpool Tx :=
  { pool with
    mineable := pool.mineable.insert key entry
    mineableBytes :=
      bytesOf (pool.mineable.insert key entry) }

theorem taken_iff :
    Taken pool key ↔
      (∃ entry, pool.inflight.lookup key = some entry) ∨
        key.2 ≤ pool.hi key.1 := by
  rw [Taken, inFlight_iff, Option.isSome_iff_exists]

theorem not_taken_iff :
    ¬ Taken pool key ↔
      pool.inflight.lookup key = none ∧
        pool.hi key.1 < key.2 := by
  rw [taken_iff, not_or, not_exists, Nat.not_le,
    Option.eq_none_iff_forall_ne_some]

/- Whether a key is taken depends on two of its entries. -/
theorem taken_congr
    (hFlight :
      (pool'.inflight.lookup key).isSome =
        (pool.inflight.lookup key).isSome)
    (hNonces :
      pool'.highCommittedNonce =
        pool.highCommittedNonce) :
    Taken pool' key ↔ Taken pool key := by
  rw [Taken, Taken, inFlight_iff, inFlight_iff, hFlight, hi,
    hi, hNonces]

variable [MempoolTx Tx]
variable {tx : Tx}
variable {size : Nat}

theorem addTx_taken
    (hInv : RepInv pool)
    (hTaken : Taken pool (keyOf tx)) :
    pool.addTx tx size = .ok pool := by
  rcases taken_iff.mp hTaken with ⟨entry, hFlight⟩ | hLow
  · exact (drops_of_inflight hInv hFlight).1
  · exact (drops_of_le hInv hLow).1

/- A key that is not taken is entered if its bytes fit. -/
theorem addTx_put
    (hInv : RepInv pool)
    (hFree : ¬ Taken pool (keyOf tx))
    (hFits :
      (pool.putMineable (keyOf tx)
        (tx, size)).mineableBytes < 2 ^ 64) :
    pool.addTx tx size =
      .ok (pool.putMineable (keyOf tx) (tx, size)) := by
  rcases not_taken_iff.mp hFree with ⟨hFlight, hHigh⟩
  have hTotal :
      bytesOf (pool.mineable.insert (keyOf tx) (tx, size)) =
        size + bytesOf (pool.mineable.erase (keyOf tx)) :=
    FinMap.total_insert _ _ _
  unfold putMineable at hFits ⊢
  dsimp only at hFits
  rw [addTx_fresh hInv hHigh hFlight, addBytes, if_pos]
  · dsimp only
    rw [hTotal, Nat.add_comm]
  · dsimp only
    omega

/- What becomes of a transaction that arrives. -/
theorem addTx_cases
    (tx : Tx)
    (size : Nat)
    (hInv : RepInv pool) :
    (pool.addTx tx size = .error .bytesOverflow ∧
        2 ^ 64 ≤ pool.heldBytes + size) ∨
      (Taken pool (keyOf tx) ∧
        pool.addTx tx size = .ok pool) ∨
      (¬ Taken pool (keyOf tx) ∧
        pool.addTx tx size =
          .ok (pool.putMineable (keyOf tx) (tx, size)) ∧
        RepInv
          (pool.putMineable (keyOf tx) (tx, size))) := by
  by_cases hTaken : Taken pool (keyOf tx)
  · exact Or.inr
      (Or.inl ⟨hTaken, addTx_taken hInv hTaken⟩)
  · have hYields := hInv.addTx tx size
    rcases not_taken_iff.mp hTaken with ⟨hFlight, hHigh⟩
    rcases addTx_inserts hInv hHigh hFlight with
      ⟨bytes, hAdd⟩ | hOver
    · right
      right
      rw [hAdd] at hYields
      have hBytes :
          bytes =
            bytesOf (pool.mineable.insert (keyOf tx)
              (tx, size)) := hYields.bytes
      rw [hBytes] at hAdd hYields
      exact ⟨hTaken, hAdd, hYields⟩
    · exact Or.inl hOver

variable {batch : CachedBatch Tx}
variable {round : Nat}

/- Only entries above the new nonces count. -/
theorem CommitsTo.unique
    {after after' : Txpool Tx}
    (hInv : RepInv after)
    (hInv' : RepInv after')
    (hCommits : CommitsTo batch round pool after)
    (hCommits' : CommitsTo batch round pool' after')
    (hMineable :
      ∀ key, after.hi key.1 < key.2 →
        pool.mineable.lookup key =
          pool'.mineable.lookup key)
    (hInflight : pool.inflight = pool'.inflight)
    (hByRound :
      pool.inflightByRound = pool'.inflightByRound)
    (hNonces :
      pool.highCommittedNonce = pool'.highCommittedNonce)
    (hSize : pool.batchSize = pool'.batchSize) :
    after = after' := by
  have hNonces' :
      after.highCommittedNonce =
        after'.highCommittedNonce := by
    rw [hCommits.records.nonces, hCommits'.records.nonces,
      hNonces]
  refine hInv.ext_lookup hInv' ?_ ?_ ?_ hNonces' ?_
  · intro key
    rw [hCommits.mineable, hCommits'.mineable, hi, hi,
      ← hNonces']
    split
    · rfl
    · rename_i hLow
      exact hMineable key (Nat.not_le.mp hLow)
  · intro key
    rw [hCommits.records.inflight,
      hCommits'.records.inflight, hInflight]
  · intro other
    rw [hCommits.byRound, hCommits'.byRound, hByRound]
  · rw [hCommits.batchSize, hCommits'.batchSize, hSize]

/- A commit reaches the nonces of its own payload. -/
theorem CommitsTo.reached
    {after : Txpool Tx}
    (hCommits : CommitsTo batch round pool after)
    (hMem : key ∈ batch.payload.map keyOf) :
    key.2 ≤ after.hi key.1 := by
  rcases List.mem_map.mp hMem with ⟨tx, hTx, rfl⟩
  exact (hCommits.records.le_hi_iff _).mpr
    (Or.inr ⟨tx, hTx, rfl, Nat.le_refl _⟩)

/- A key that is taken is still taken after a commit. -/
theorem CommitsTo.taken
    {after : Txpool Tx}
    (hCommits : CommitsTo batch round pool after)
    (hTaken : Taken pool key) :
    Taken after key := by
  rw [taken_iff] at hTaken ⊢
  rcases hTaken with ⟨entry, hFlight⟩ | hLow
  · by_cases hMem : key ∈ batch.payload.map keyOf
    · exact Or.inr (hCommits.reached hMem)
    · left
      rw [hCommits.records.inflight, if_neg hMem]
      exact ⟨entry, hFlight⟩
  · right
    exact (hCommits.records.le_hi_iff key).mpr (Or.inl hLow)

/- A commit drops an arrival that it makes stale. -/
theorem CommitsTo.putMineable_low
    {key : TxKey}
    {entry : Tx × Nat}
    {committed both : Txpool Tx}
    (hCommitted : RepInv committed)
    (hBoth : RepInv both)
    (hCommit : CommitsTo batch round pool committed)
    (hAfter :
      CommitsTo batch round (pool.putMineable key entry)
        both)
    (hLow : key.2 ≤ committed.hi key.1) :
    committed = both := by
  apply hCommit.unique hCommitted hBoth hAfter _ rfl rfl rfl
    rfl
  intro other hHigh
  have hNe : other ≠ key := by
    intro hKey
    rw [hKey] at hHigh
    exact Nat.not_lt.mpr hLow hHigh
  exact ((FinMap.lookup_insert_eq _ _ _ _).trans
    (if_neg hNe)).symm

/- Any other arrival survives the commit. -/
theorem CommitsTo.putMineable_high
    {key : TxKey}
    {entry : Tx × Nat}
    {committed both : Txpool Tx}
    (hBoth : RepInv both)
    (hCommit : CommitsTo batch round pool committed)
    (hAfter :
      CommitsTo batch round (pool.putMineable key entry)
        both)
    (hHigh : ¬ key.2 ≤ committed.hi key.1) :
    committed.putMineable key entry = both := by
  have hNonces :
      both.highCommittedNonce =
        committed.highCommittedNonce := by
    rw [hCommit.records.nonces, hAfter.records.nonces]
    rfl
  have hMineable :
      committed.mineable.insert key entry =
        both.mineable := by
    apply Finmap.ext_lookup
    intro other
    rw [hAfter.mineable, hi, hNonces,
      FinMap.lookup_insert_eq, hCommit.mineable]
    change _ = if other.2 ≤ committed.hi other.1 then none
      else (pool.mineable.insert _ _).lookup other
    rw [FinMap.lookup_insert_eq]
    by_cases hKey : other = key
    · rw [if_pos hKey, if_pos hKey, hKey, if_neg hHigh]
    · rw [if_neg hKey, if_neg hKey]
  have hBytes := hBoth.bytes
  rw [← hMineable] at hBytes
  have hIndex :
      committed.inflightByRound = both.inflightByRound := by
    apply Finmap.ext_lookup
    intro other
    rw [hCommit.byRound, hAfter.byRound]
    rfl
  have hInflight : committed.inflight = both.inflight := by
    apply Finmap.ext_lookup
    intro other
    rw [hCommit.records.inflight, hAfter.records.inflight]
    rfl
  have hSize : committed.batchSize = both.batchSize := by
    rw [hCommit.batchSize, hAfter.batchSize]
    rfl
  unfold putMineable
  rw [hIndex, hInflight, hSize, ← hNonces, ← hBytes,
    hMineable]

/- The arrival of a transaction commutes with a commit. -/
theorem addTx_commit
    {added committed both : Txpool Tx}
    (hInv : RepInv pool)
    (hCommitted : RepInv committed)
    (hBoth : RepInv both)
    (hCommit : CommitsTo batch round pool committed)
    (hAfter : CommitsTo batch round added both)
    (hAdd : pool.addTx tx size = .ok added) :
    committed.addTx tx size = .ok both := by
  rcases addTx_cases tx size hInv with
    ⟨hOver, _⟩ | ⟨hTaken, hSame⟩ | ⟨hFree, hPut, _⟩
  · rw [hOver] at hAdd
    cases hAdd
  · rw [hSame] at hAdd
    cases hAdd
    have hEq : committed = both :=
      hCommit.unique hCommitted hBoth hAfter
        (fun _ _ => rfl) rfl rfl rfl rfl
    rw [addTx_taken hCommitted (hCommit.taken hTaken), hEq]
  · rw [hPut] at hAdd
    cases hAdd
    by_cases hLow :
        (keyOf tx).2 ≤ committed.hi (keyOf tx).1
    · rw [addTx_taken hCommitted (Or.inr hLow),
        hCommit.putMineable_low hCommitted hBoth hAfter hLow]
    · have hFlight :
          committed.inflight.lookup (keyOf tx) = none := by
        rw [hCommit.records.inflight,
          (not_taken_iff.mp hFree).1, ite_self]
      have hStill : ¬ Taken committed (keyOf tx) :=
        not_taken_iff.mpr ⟨hFlight, Nat.not_le.mp hLow⟩
      have hPool :=
        hCommit.putMineable_high hBoth hAfter hLow
      rw [addTx_put hCommitted hStill, hPool]
      rw [hPool]
      exact hBoth.bound

end Txpool

end LibApollo

------------------------------------------------------------
-- Arrivals and Proposals
------------------------------------------------------------

namespace LibApollo

namespace Txpool

variable {Tx : Type} [MempoolTx Tx]
variable {pool pool' : Txpool Tx}
variable {round : Nat}
variable {key : TxKey}

/- The size under which an admitted transaction is kept. -/
def admittedSize (pool : Txpool Tx) (tx : Tx) : Nat :=
  match pool.mineable.lookup (keyOf tx) with
  | some entry => entry.2
  | none => (MempoolTx.serializedSize tx).getD 0

theorem admitTx_taken
    {tx : Tx}
    (hTaken : Taken pool (keyOf tx)) :
    admitTx round pool tx = .ok pool := by
  unfold admitTx
  dsimp only
  rcases taken_iff.mp hTaken with ⟨entry, hFlight⟩ | hLow
  · split
    · rfl
    · rw [hFlight]
      rfl
  · rw [if_pos hLow]

theorem admitTx_fresh
    {tx : Tx}
    (hInv : RepInv pool)
    (hFree : ¬ Taken pool (keyOf tx)) :
    admitTx round pool tx =
      .ok
        ((pool.dropMineable (keyOf tx)).addInflight
          (keyOf tx)
          { tx := tx
            size := pool.admittedSize tx
            round := round }) := by
  rcases not_taken_iff.mp hFree with ⟨hFlight, hHigh⟩
  unfold admitTx
  dsimp only
  rw [if_neg (Nat.not_le.mpr hHigh), hFlight,
    removeMineable_eq hInv.bytes]
  rfl

/-
  The pools agree, up to the size under which one key is in
  flight.
-/
structure SameUpToSize
    (key : TxKey)
    (pool pool' : Txpool Tx) : Prop where
  mineable : pool'.mineable = pool.mineable
  bytes : pool'.mineableBytes = pool.mineableBytes
  byRound : pool'.inflightByRound = pool.inflightByRound
  nonces :
    pool'.highCommittedNonce = pool.highCommittedNonce
  own :
    (pool'.inflight.lookup key).map
        (fun entry => (entry.tx, entry.round)) =
      (pool.inflight.lookup key).map
        (fun entry => (entry.tx, entry.round))
  others :
    ∀ other, other ≠ key →
      pool'.inflight.lookup other =
        pool.inflight.lookup other

omit [MempoolTx Tx] in
theorem SameUpToSize.refl
    (key : TxKey)
    (pool : Txpool Tx) : SameUpToSize key pool pool where
  mineable := rfl
  bytes := rfl
  byRound := rfl
  nonces := rfl
  own := rfl
  others := fun _ _ => rfl

omit [MempoolTx Tx] in
theorem SameUpToSize.taken_iff
    {other : TxKey}
    (hSame : SameUpToSize key pool pool') :
    Taken pool' other ↔ Taken pool other := by
  refine taken_congr ?_ hSame.nonces
  by_cases hKey : other = key
  · have hOwn := congrArg Option.isSome hSame.own
    rw [Option.isSome_map, Option.isSome_map] at hOwn
    rw [hKey]
    exact hOwn
  · rw [hSame.others other hKey]

/- Another key is put in flight in both pools. -/
theorem SameUpToSize.admitTx
    {tx : Tx}
    {after after' : Txpool Tx}
    (hInv : RepInv pool)
    (hInv' : RepInv pool')
    (hSame : SameUpToSize key pool pool')
    (hTaken : Taken pool key)
    (hAdmit : Txpool.admitTx round pool tx = .ok after)
    (hAdmit' : Txpool.admitTx round pool' tx = .ok after') :
    SameUpToSize key after after' := by
  by_cases hKey : Taken pool (keyOf tx)
  · rw [admitTx_taken hKey] at hAdmit
    rw [admitTx_taken (hSame.taken_iff.mpr hKey)] at hAdmit'
    cases hAdmit
    cases hAdmit'
    exact hSame
  · have hFree' : ¬ Taken pool' (keyOf tx) := by
      rw [hSame.taken_iff]
      exact hKey
    have hNe : key ≠ keyOf tx := by
      intro hEq
      rw [hEq] at hTaken
      exact hKey hTaken
    have hSize :
        pool'.admittedSize tx = pool.admittedSize tx := by
      rw [admittedSize, admittedSize, hSame.mineable]
    rw [admitTx_fresh hInv hKey] at hAdmit
    rw [admitTx_fresh hInv' hFree', hSize] at hAdmit'
    cases hAdmit
    cases hAdmit'
    have hLookup :
        ∀ (p : Txpool Tx) (entry : InflightEntry Tx) other,
          ((p.dropMineable (keyOf tx)).addInflight
            (keyOf tx) entry).inflight.lookup other =
            if other = keyOf tx then some entry
            else p.inflight.lookup other := by
      intro p entry other
      exact FinMap.lookup_insert_eq _ _ _ _
    refine
      { mineable := ?_
        bytes := ?_
        byRound := ?_
        nonces := hSame.nonces
        own := ?_
        others := ?_ }
    · change pool'.mineable.erase _ = pool.mineable.erase _
      rw [hSame.mineable]
    · change bytesOf (pool'.mineable.erase _) =
        bytesOf (pool.mineable.erase _)
      rw [hSame.mineable]
    · change pool'.inflightByRound.insert round
          (insert _ (pool'.roundKeys round)) =
        pool.inflightByRound.insert round
          (insert _ (pool.roundKeys round))
      rw [roundKeys, roundKeys, hSame.byRound]
    · rw [hLookup, hLookup, if_neg hNe, if_neg hNe]
      exact hSame.own
    · intro other hOther
      rw [hLookup, hLookup, hSame.others other hOther]

/-
  One pool with a transaction that is yet to arrive in the
  other: it is one more mineable entry, or its key is taken
  and it will be dropped.
-/
inductive Late
    (tx : Tx)
    (size : Nat) : Txpool Tx → Txpool Tx → Prop where
| entry {pool : Txpool Tx} :
    ¬ Taken pool (keyOf tx) →
      Late tx size pool
        (pool.putMineable (keyOf tx) (tx, size))
| dropped {pool pool' : Txpool Tx} :
    Taken pool (keyOf tx) →
      SameUpToSize (keyOf tx) pool pool' →
      Late tx size pool pool'

omit [MempoolTx Tx] in
/- Changes of different keys commute. -/
theorem putMineable_addInflight
    {entry : Tx × Nat}
    {flight : InflightEntry Tx}
    {other : TxKey}
    (hNe : other ≠ key) :
    ((pool.putMineable key entry).dropMineable
        other).addInflight other flight =
      ((pool.dropMineable other).addInflight other
        flight).putMineable key entry := by
  have hMineable :
      (pool.mineable.insert key entry).erase other =
        (pool.mineable.erase other).insert key entry := by
    apply Finmap.ext_lookup
    intro k
    rw [FinMap.lookup_erase_eq, FinMap.lookup_insert_eq,
      FinMap.lookup_insert_eq, FinMap.lookup_erase_eq]
    by_cases hKey : k = key
    · have hOther : k ≠ other := by
        rw [hKey]
        exact Ne.symm hNe
      rw [if_neg hOther, if_pos hKey, if_pos hKey]
    · rw [if_neg hKey, if_neg hKey]
  unfold putMineable dropMineable addInflight
  dsimp only
  rw [hMineable]
  rfl

omit [MempoolTx Tx] in
/- The arrival is forgotten when its key is proposed. -/
theorem sameUpToSize_of_proposed
    {entry : Tx × Nat}
    {tx : Tx}
    {size size' : Nat} :
    SameUpToSize key
      ((pool.dropMineable key).addInflight key
        { tx := tx, size := size, round := round })
      (((pool.putMineable key entry).dropMineable
        key).addInflight key
          { tx := tx, size := size', round := round }) := by
  have hMineable :
      (pool.mineable.insert key entry).erase key =
        pool.mineable.erase key := by
    apply Finmap.ext_lookup
    intro k
    rw [FinMap.lookup_erase_eq, FinMap.lookup_insert_eq,
      FinMap.lookup_erase_eq]
    by_cases hKey : k = key
    · rw [if_pos hKey, if_pos hKey]
    · rw [if_neg hKey, if_neg hKey, if_neg hKey]
  refine
    { mineable := hMineable
      bytes := ?_
      byRound := rfl
      nonces := rfl
      own := ?_
      others := ?_ }
  · exact congrArg bytesOf hMineable
  · unfold addInflight
    simp
  · intro other hOther
    exact ((FinMap.lookup_insert_eq _ _ _ _).trans
      (if_neg hOther)).trans
      ((FinMap.lookup_insert_eq _ _ _ _).trans
        (if_neg hOther)).symm

theorem Late.admitTx
    {tx proposed : Tx}
    {size : Nat}
    {after after' : Txpool Tx}
    (hInv : RepInv pool)
    (hInv' : RepInv pool')
    (hKeyed : Keyed pool)
    (hLate : Late tx size pool pool')
    (hAdmit : Txpool.admitTx round pool proposed = .ok after)
    (hAdmit' :
      Txpool.admitTx round pool' proposed = .ok after') :
    Late tx size after after' := by
  have hMoves :=
    (admitTx_moves hInv hKeyed hAdmit (keyOf tx)).2.1
  cases hLate with
  | dropped hTaken hSame =>
      exact .dropped (hTaken.promotes hMoves)
        (hSame.admitTx hInv hInv' hTaken hAdmit hAdmit')
  | entry hFree =>
      have hSameTaken :
          Taken (pool.putMineable (keyOf tx) (tx, size))
              (keyOf proposed) ↔
            Taken pool (keyOf proposed) :=
        taken_congr rfl rfl
      by_cases hTaken : Taken pool (keyOf proposed)
      · rw [admitTx_taken hTaken] at hAdmit
        rw [admitTx_taken (hSameTaken.mpr hTaken)] at hAdmit'
        cases hAdmit
        cases hAdmit'
        exact .entry hFree
      · rw [admitTx_fresh hInv hTaken] at hAdmit
        rw [admitTx_fresh hInv'
          (mt hSameTaken.mp hTaken)] at hAdmit'
        cases hAdmit
        cases hAdmit'
        by_cases hKey : keyOf proposed = keyOf tx
        · rw [hKey]
          refine .dropped (Or.inl ⟨round, ?_⟩)
            sameUpToSize_of_proposed
          rw [txState_addInflight, if_pos rfl]
        · have hSize :
              (pool.putMineable (keyOf tx)
                (tx, size)).admittedSize proposed =
                pool.admittedSize proposed := by
            have hLookup :
                (pool.mineable.insert (keyOf tx)
                  (tx, size)).lookup (keyOf proposed) =
                  pool.mineable.lookup (keyOf proposed) :=
              (FinMap.lookup_insert_eq _ _ _ _).trans
                (if_neg hKey)
            unfold admittedSize putMineable
            dsimp only
            rw [hLookup]
          rw [hSize, putMineable_addInflight hKey]
          apply Late.entry
          rw [not_taken_iff] at hFree ⊢
          refine ⟨?_, hFree.2⟩
          exact ((FinMap.lookup_insert_eq _ _ _ _).trans
            (if_neg (Ne.symm hKey))).trans hFree.1

theorem admitTx_returns
    (round : Nat)
    (tx : Tx)
    (hInv : RepInv pool) :
    ∃ after,
      admitTx round pool tx = .ok after ∧
        RepInv after := by
  have hYields := PoolInv.admitTx round tx hInv
  cases hAdmit : admitTx round pool tx with
  | error panic =>
      rw [hAdmit] at hYields
      exact False.elim hYields
  | ok after =>
      rw [hAdmit] at hYields
      exact ⟨after, rfl, hYields⟩

/- A proposal keeps the pools one arrival apart. -/
theorem Late.admitLoop
    {tx : Tx}
    {size : Nat}
    (round : Nat)
    (payload : List Tx)
    (hInv : RepInv pool)
    (hInv' : RepInv pool')
    (hKeyed : Keyed pool)
    (hLate : Late tx size pool pool') :
    ∃ after after',
      payload.foldlM (Txpool.admitTx round) pool =
          .ok after ∧
        payload.foldlM (Txpool.admitTx round) pool' =
          .ok after' ∧
        RepInv after ∧
        RepInv after' ∧
        Late tx size after after' := by
  induction payload generalizing pool pool' with
  | nil =>
      exact ⟨pool, pool', rfl, rfl, hInv, hInv', hLate⟩
  | cons proposed payload ih =>
      rcases admitTx_returns round proposed hInv with
        ⟨mid, hFirst, hMid⟩
      rcases admitTx_returns round proposed hInv' with
        ⟨mid', hFirst', hMid'⟩
      have hKeyedMid :=
        (admitTx_moves hInv hKeyed hFirst (keyOf tx)).1
      rcases ih hMid hMid' hKeyedMid
          (hLate.admitTx hInv hInv' hKeyed hFirst hFirst')
        with
        ⟨after, after', hRest, hRest', hAfter, hAfter',
          hStill⟩
      refine ⟨after, after', ?_, ?_, hAfter, hAfter',
        hStill⟩
      · rw [List.foldlM_cons]
        exact Result.bind_eq_ok.mpr ⟨mid, hFirst, hRest⟩
      · rw [List.foldlM_cons]
        exact Result.bind_eq_ok.mpr ⟨mid', hFirst', hRest'⟩

/- The late transaction arrives. -/
theorem Late.arrives
    {tx : Tx}
    {size : Nat}
    (hInv : RepInv pool)
    (hInv' : RepInv pool')
    (hLate : Late tx size pool pool') :
    ∃ after,
      pool.addTx tx size = .ok after ∧
        SameUpToSize (keyOf tx) after pool' := by
  cases hLate with
  | entry hFree =>
      exact ⟨_, addTx_put hInv hFree hInv'.bound,
        SameUpToSize.refl _ _⟩
  | dropped hTaken hSame =>
      exact ⟨pool, addTx_taken hInv hTaken, hSame⟩

/- The two pools of an arrival are one arrival apart. -/
theorem late_of_addTx
    {tx : Tx}
    {size : Nat}
    {added : Txpool Tx}
    (round : Nat)
    (hInv : RepInv pool)
    (hAdd : pool.addTx tx size = .ok added) :
    Late tx size (pool.openRound round)
      (added.openRound round) := by
  have hSameTaken :
      Taken (pool.openRound round) (keyOf tx) ↔
        Taken pool (keyOf tx) :=
    taken_congr rfl rfl
  rcases addTx_cases tx size hInv with
    ⟨hOver, _⟩ | ⟨hTaken, hSame⟩ | ⟨hFree, hPut, _⟩
  · rw [hOver] at hAdd
    cases hAdd
  · rw [hSame] at hAdd
    cases hAdd
    exact .dropped (hSameTaken.mpr hTaken)
      (SameUpToSize.refl _ _)
  · rw [hPut] at hAdd
    cases hAdd
    exact .entry (mt hSameTaken.mp hFree)

/-
  In every reached pool, a transaction that fits can arrive
  before or after a commit, with the same result, and before
  or after a proposal, with the same result up to the size
  under which its own key is in flight.
-/
theorem addTx_commutes
    {order : IterOrder}
    {batchSize : Nat}
    (hReach :
      Machine.Reach (step order) (fun _ _ => True)
        (new batchSize) pool)
    (order' order'' : IterOrder)
    (tx : Tx)
    (size : Nat)
    (batch : CachedBatch Tx)
    (round : Nat) :
    (pool.addTx tx size = .error .bytesOverflow ∧
        2 ^ 64 ≤ pool.heldBytes + size) ∨
      ∃ added,
        pool.addTx tx size = .ok added ∧
          (∃ committed both,
            added.commit order' batch round = .ok both ∧
              pool.commit order'' batch round =
                .ok committed ∧
              committed.addTx tx size = .ok both) ∧
          ∃ admitted first second,
            added.admitProposal batch round = .ok first ∧
              pool.admitProposal batch round =
                .ok admitted ∧
              admitted.addTx tx size = .ok second ∧
              SameUpToSize (keyOf tx) second first := by
  rcases repInv_keyed_of_reach hReach with ⟨hInv, hKeyed⟩
  have hYields := hInv.addTx tx size
  cases hAdd : pool.addTx tx size with
  | error panic =>
      rw [hAdd] at hYields
      rcases hYields with ⟨rfl, hOver⟩
      exact Or.inl ⟨rfl, hOver⟩
  | ok added =>
      rw [hAdd] at hYields
      refine Or.inr ⟨added, rfl, ?_, ?_⟩
      · rcases commit_commitsTo order' batch round hYields
          with ⟨both, hAfter, hBoth, hAfterTo⟩
        rcases commit_commitsTo order'' batch round hInv
          with ⟨committed, hCommit, hCommitted, hTo⟩
        exact ⟨committed, both, hAfter, hCommit,
          addTx_commit hInv hCommitted hBoth hTo hAfterTo
            hAdd⟩
      · have hOpen : Keyed (pool.openRound round) :=
          ⟨hKeyed.mineable, hKeyed.inflight⟩
        rcases (late_of_addTx round hInv hAdd).admitLoop
            round batch.payload
            (PoolInv.openRound round hInv)
            (PoolInv.openRound round hYields) hOpen with
          ⟨admitted, first, hAdmit, hFirst, hAdmitted,
            hFirstInv, hLate⟩
        rcases hLate.arrives hAdmitted hFirstInv with
          ⟨second, hSecond, hSame⟩
        exact ⟨admitted, first, second, hFirst, hAdmit,
          hSecond, hSame⟩

/- A transaction in flight and one that waits. -/
def racingRun : List (Op Transaction) :=
  [.addTx (transaction 1 5) 10,
    .admitProposal ⟨[transaction 1 5]⟩ 2,
    .addTx (transaction 1 7) 20]

theorem addTx_commutes_with_its_proposal :
    ∃ (pool added both first second : Txpool Transaction),
      Machine.Reach (step sortedOrder) (fun _ _ => True)
          (new 10) pool ∧
        pool.addTx (transaction 1 6) 30 = .ok added ∧
        added.commit sortedOrder ⟨[transaction 1 6]⟩ 3 =
          .ok both ∧
        added.admitProposal ⟨[transaction 1 6]⟩ 3 =
          .ok first ∧
        SameUpToSize (1, 6) second first := by
  have hRun :
      Machine.runCheck (step sortedOrder)
        (fun _ _ => true)
        (fun pool =>
          decide
            (pool.heldBytes = 30 ∧
              (pool.inflight.lookup (1, 5)).isSome = true))
        (new 10) racingRun = true := by
    decide +kernel
  rcases Machine.Reach.of_runCheck
      (fun _ _ _ => trivial) hRun with
    ⟨pool, hReach, hFinal⟩
  rcases of_decide_eq_true hFinal with ⟨hHeld, _⟩
  rcases addTx_commutes hReach sortedOrder sortedOrder
      (transaction 1 6) 30 ⟨[transaction 1 6]⟩ 3 with
    ⟨_, hOver⟩ |
      ⟨added, hAdd, ⟨_, both, hBoth, _, _⟩,
        ⟨_, first, second, hFirst, _, _, hSame⟩⟩
  · rw [hHeld] at hOver
    exact absurd hOver (by decide)
  · exact ⟨pool, added, both, first, second, hReach, hAdd,
      hBoth, hFirst, hSame⟩

end Txpool

end LibApollo

------------------------------------------------------------
-- Repeated Calls
------------------------------------------------------------

namespace LibApollo

namespace Txpool

variable {Tx : Type}
variable {pool pool' : Txpool Tx}
variable {round : Nat}

/- At most an empty entry of the index is new. -/
def OpensAtMost
    (round : Nat)
    (pool pool' : Txpool Tx) : Prop :=
  pool' = pool ∨
    (pool.inflightByRound.lookup round = none ∧
      pool' =
        { pool with
          inflightByRound :=
            pool.inflightByRound.insert round ∅ })

theorem openRound_of_some
    {keys : Finset TxKey}
    (hOpen :
      pool.inflightByRound.lookup round = some keys) :
    pool.openRound round = pool := by
  have hSame :
      pool.inflightByRound.insert round
          (pool.roundKeys round) =
        pool.inflightByRound := by
    apply Finmap.ext_lookup
    intro other
    rw [FinMap.lookup_insert_eq,
      roundKeys_of_lookup hOpen]
    by_cases hRound : other = round
    · rw [if_pos hRound, hRound, hOpen]
    · rw [if_neg hRound]
  unfold openRound
  rw [hSame]

theorem opensAtMost_openRound
    (round : Nat)
    (pool : Txpool Tx) :
    OpensAtMost round pool (pool.openRound round) := by
  cases hOpen : pool.inflightByRound.lookup round with
  | some keys => exact Or.inl (openRound_of_some hOpen)
  | none =>
      right
      refine ⟨hOpen, ?_⟩
      unfold openRound roundKeys
      rw [hOpen]
      rfl

/- The index has an entry for the round. -/
def Opened (round : Nat) (pool : Txpool Tx) : Prop :=
  ∃ keys, pool.inflightByRound.lookup round = some keys

theorem opened_openRound
    (round : Nat)
    (pool : Txpool Tx) :
    Opened round (pool.openRound round) := by
  refine ⟨pool.roundKeys round, ?_⟩
  exact (FinMap.lookup_insert_eq _ _ _ _).trans
    (if_pos rfl)

theorem Opened.openRound
    (hOpened : Opened round pool) :
    pool.openRound round = pool := by
  rcases hOpened with ⟨keys, hOpen⟩
  exact openRound_of_some hOpen

theorem opened_addInflight
    {key : TxKey}
    {entry : InflightEntry Tx}
    (hRound : entry.round = round) :
    Opened round (pool.addInflight key entry) := by
  refine ⟨insert key (pool.roundKeys entry.round), ?_⟩
  exact (FinMap.lookup_insert_eq _ _ _ _).trans
    (if_pos hRound.symm)

variable [MempoolTx Tx]

theorem Opened.admitLoop
    {payload : List Tx}
    (hInv : RepInv pool)
    (hOpened : Opened round pool)
    (hAdmit :
      payload.foldlM (admitTx round) pool = .ok pool') :
    Opened round pool' := by
  induction payload generalizing pool with
  | nil =>
      cases hAdmit
      exact hOpened
  | cons tx payload ih =>
      rw [List.foldlM_cons] at hAdmit
      rcases Result.bind_eq_ok.mp hAdmit with
        ⟨mid, hFirst, hRest⟩
      rcases admitTx_returns round tx hInv with
        ⟨after, hAfter, hMid⟩
      rw [hFirst] at hAfter
      cases hAfter
      refine ih hMid ?_ hRest
      rcases admitTx_eq hInv hFirst with
        ⟨rfl, _⟩ | ⟨_, _, _, rfl⟩
      · exact hOpened
      · exact opened_addInflight rfl

omit [MempoolTx Tx] in
theorem Opened.makeBatchLoop
    {fuel batchBytes : Nat}
    {payload payload' : List Tx}
    (hOpened : Opened round pool)
    (hLoop :
      makeBatchLoop round fuel batchBytes payload pool =
        .ok (payload', pool')) :
    Opened round pool' := by
  induction fuel generalizing batchBytes payload pool with
  | zero =>
      cases hLoop
      exact hOpened
  | succ fuel ih =>
      unfold Txpool.makeBatchLoop at hLoop
      split at hLoop
      · split at hLoop
        · cases hLoop
          exact hOpened
        · rcases Result.bind_eq_ok.mp hLoop with
            ⟨⟨found, removed⟩, _, hRest⟩
          cases found with
          | none => cases hRest
          | some entry =>
              dsimp only at hRest
              split at hRest
              · exact ih (opened_addInflight rfl) hRest
              · cases hRest
      · cases hLoop
        exact hOpened

/- A payload of taken keys is passed over. -/
theorem admitLoop_taken
    {payload : List Tx}
    (hTaken :
      ∀ key ∈ payload.map keyOf, Taken pool key) :
    payload.foldlM (admitTx round) pool = .ok pool := by
  induction payload with
  | nil => rfl
  | cons tx payload ih =>
      rw [List.foldlM_cons,
        admitTx_taken (hTaken _ List.mem_cons_self)]
      exact ih (fun key hKey =>
        hTaken key (List.mem_cons_of_mem _ hKey))

theorem admitProposal_taken
    {batch : CachedBatch Tx}
    (hTaken :
      ∀ key ∈ batch.payload.map keyOf, Taken pool key) :
    pool.admitProposal batch round =
      .ok (pool.openRound round) := by
  apply admitLoop_taken
  intro key hKey
  exact (taken_congr rfl rfl).mpr (hTaken key hKey)

/- The marks are at the nonces of some keys already. -/
theorem foldl_markNonce_self
    {nonces : FinMap ClientId Nat}
    {keys : List TxKey}
    (hMarked :
      ∀ key ∈ keys,
        ∃ high,
          nonces.lookup key.1 = some high ∧
            key.2 ≤ high) :
    keys.foldl markNonce nonces = nonces := by
  induction keys with
  | nil => rfl
  | cons key keys ih =>
      rcases hMarked key List.mem_cons_self with
        ⟨high, hLookup, hLe⟩
      have hSame : markNonce nonces key = nonces := by
        apply Finmap.ext_lookup
        intro client
        rw [markNonce, FinMap.lookup_insert_eq, hLookup,
          Option.getD_some, Nat.max_eq_left hLe]
        by_cases hClient : client = key.1
        · rw [if_pos hClient, hClient, hLookup]
        · rw [if_neg hClient]
      rw [List.foldl_cons, hSame]
      exact ih (fun other hOther =>
        hMarked other (List.mem_cons_of_mem key hOther))

/- A mark only moves up. -/
theorem le_foldl_markNonce_of_some
    {nonces : FinMap ClientId Nat}
    {client : ClientId}
    {high : Nat}
    (keys : List TxKey)
    (hLookup : nonces.lookup client = some high) :
    ∃ high',
      (keys.foldl markNonce nonces).lookup client =
          some high' ∧
        high ≤ high' := by
  induction keys generalizing nonces high with
  | nil => exact ⟨high, hLookup, Nat.le_refl high⟩
  | cons key keys ih =>
      have hMid :
          ∃ mid,
            (markNonce nonces key).lookup client =
                some mid ∧
              high ≤ mid := by
        rw [markNonce, FinMap.lookup_insert_eq]
        by_cases hClient : client = key.1
        · rw [if_pos hClient, ← hClient, hLookup]
          exact ⟨_, rfl, Nat.le_max_left _ _⟩
        · rw [if_neg hClient]
          exact ⟨high, hLookup, Nat.le_refl high⟩
      rcases hMid with ⟨mid, hMid, hLe⟩
      rcases ih hMid with ⟨high', hHigh, hLe'⟩
      exact ⟨high', hHigh, Nat.le_trans hLe hLe'⟩

theorem marked_foldl_markNonce
    (nonces : FinMap ClientId Nat)
    (keys : List TxKey) :
    ∀ key ∈ keys,
      ∃ high,
        (keys.foldl markNonce nonces).lookup key.1 =
            some high ∧
          key.2 ≤ high := by
  induction keys generalizing nonces with
  | nil =>
      intro key hMem
      exact absurd hMem List.not_mem_nil
  | cons first keys ih =>
      intro key hMem
      rcases List.mem_cons.mp hMem with rfl | hLater
      · have hMarked :
            (markNonce nonces key).lookup key.1 =
              some (max ((nonces.lookup key.1).getD 0)
                key.2) := by
          rw [markNonce, FinMap.lookup_insert_eq,
            if_pos rfl]
        rcases le_foldl_markNonce_of_some keys hMarked with
          ⟨high, hHigh, hLe⟩
        exact ⟨high, hHigh,
          Nat.le_trans (Nat.le_max_right _ _) hLe⟩
      · exact ih (markNonce nonces first) key hLater

theorem closed_closed
    (round other : Nat)
    (keys : Option (Finset TxKey)) :
    closed round other (closed round other keys) =
      closed round other keys := by
  unfold closed
  by_cases hClosed : other = round ∧ keys = some ∅
  · rw [if_pos hClosed]
    simp
  · rw [if_neg hClosed, if_neg hClosed]

/- A commit that is repeated changes nothing. -/
theorem CommitsTo.again
    {batch : CachedBatch Tx}
    {after after' : Txpool Tx}
    (hInv : RepInv after)
    (hInv' : RepInv after')
    (hFirst : CommitsTo batch round pool after)
    (hSecond : CommitsTo batch round after after') :
    after' = after := by
  have hNonces :
      after'.highCommittedNonce =
        after.highCommittedNonce := by
    rw [hSecond.records.nonces, hFirst.records.nonces]
    exact foldl_markNonce_self
      (marked_foldl_markNonce _ _)
  refine hInv'.ext_lookup hInv ?_ ?_ ?_ hNonces
    hSecond.batchSize
  · intro key
    rw [hSecond.mineable, hi, hNonces]
    split
    · rename_i hLow
      exact (Finmap.lookup_eq_none.mpr
        (hInv.not_mineable hLow)).symm
    · rfl
  · intro key
    rw [hSecond.records.inflight, hFirst.records.inflight]
    split
    · rfl
    · rfl
  · intro other
    rw [hSecond.byRound, hFirst.byRound]
    -- the keys of the payload have left the index
    have hGone :
        ∀ keys : Finset TxKey,
          (keys.filter (· ∉ batch.payload.map keyOf)).filter
              (· ∉ batch.payload.map keyOf) =
            keys.filter (· ∉ batch.payload.map keyOf) := by
      intro keys
      rw [Finset.filter_filter]
      simp
    have hMap :
        ∀ keys : Option (Finset TxKey),
          (closed round other
            (keys.map (fun s =>
              s.filter
                (· ∉ batch.payload.map keyOf)))).map
              (fun s =>
                s.filter
                  (· ∉ batch.payload.map keyOf)) =
            closed round other
              (keys.map (fun s =>
                s.filter
                  (· ∉ batch.payload.map keyOf))) := by
      intro keys
      cases keys with
      | none => simp [closed]
      | some s =>
          unfold closed
          split
          · rfl
          · rw [Option.map_some, Option.map_some, hGone]
    rw [hMap, closed_closed]

/-
  In every reached pool: a proposal that is admitted twice
  is admitted once; the payload of a batch is admitted
  without effect at the round of the batch, and opens at
  most an empty round at another one; a commit that is
  repeated changes nothing; and a proposal that is delivered
  after its commit opens at most an empty round.
-/
theorem repeated_calls_absorbed
    {order : IterOrder}
    {batchSize : Nat}
    (hReach :
      Machine.Reach (step order) (fun _ _ => True)
        (new batchSize) pool)
    (order' order'' : IterOrder)
    (batch : CachedBatch Tx)
    (round round' : Nat) :
    (∃ admitted,
      pool.admitProposal batch round = .ok admitted ∧
        admitted.admitProposal batch round =
          .ok admitted) ∧
      (∃ payload made,
        pool.makeBatch round = .ok (payload, made) ∧
          made.admitProposal ⟨payload⟩ round = .ok made ∧
          ∃ after,
            made.admitProposal ⟨payload⟩ round' =
                .ok after ∧
              OpensAtMost round' made after) ∧
      ∃ committed,
        pool.commit order' batch round = .ok committed ∧
          committed.commit order'' batch round =
            .ok committed ∧
          ∃ after,
            committed.admitProposal batch round' =
                .ok after ∧
              OpensAtMost round' committed after := by
  rcases repInv_keyed_of_reach hReach with ⟨hInv, hKeyed⟩
  refine ⟨?_, ?_, ?_⟩
  · have hYields := hInv.admitProposal batch round
    cases hAdmit : pool.admitProposal batch round with
    | error panic =>
        rw [hAdmit] at hYields
        exact False.elim hYields
    | ok admitted =>
        have hOpened : Opened round admitted :=
          (opened_openRound round pool).admitLoop
            (PoolInv.openRound round hInv) hAdmit
        refine ⟨admitted, rfl, ?_⟩
        rw [admitProposal_taken, hOpened.openRound]
        intro key hKey
        exact (admitProposal_moves hInv hKeyed hAdmit
          key).2.2 hKey
  · rcases hInv.makeBatch_returns round with
      ⟨payload, made, hMake, _⟩
    have hOpened : Opened round made :=
      (opened_openRound round pool).makeBatchLoop hMake
    have hTaken :
        ∀ key ∈ payload.map keyOf, Taken made key := by
      intro key hKey
      have hBatches :=
        (makeBatch_moves hInv hKeyed hMake).2
      exact Or.inl ⟨round, (hBatches.batched key hKey).2⟩
    refine ⟨payload, made, hMake, ?_, _,
      admitProposal_taken hTaken,
      opensAtMost_openRound round' made⟩
    rw [admitProposal_taken hTaken, hOpened.openRound]
  · rcases commit_commitsTo order' batch round hInv with
      ⟨committed, hCommit, hCommitted, hTo⟩
    rcases commit_commitsTo order'' batch round hCommitted
      with ⟨again, hAgain, hAgainInv, hAgainTo⟩
    rw [hTo.again hCommitted hAgainInv hAgainTo] at hAgain
    refine ⟨committed, hCommit, hAgain, _,
      admitProposal_taken ?_,
      opensAtMost_openRound round' committed⟩
    intro key hKey
    exact Or.inr (hTo.reached hKey)

/- The proposer is told of its own batch, and twice. -/
theorem repeated_calls_absorbed_loopback :
    ∃ (pool made admitted : Txpool Transaction)
        (payload : List Transaction),
      Machine.Reach (step sortedOrder) (fun _ _ => True)
          (new 10) pool ∧
        pool.mineableBytes = 20 ∧
        pool.makeBatch 3 = .ok (payload, made) ∧
        made.admitProposal ⟨payload⟩ 3 = .ok made ∧
        pool.admitProposal ⟨[transaction 1 7]⟩ 3 =
          .ok admitted ∧
        admitted.admitProposal ⟨[transaction 1 7]⟩ 3 =
          .ok admitted := by
  have hRun :
      Machine.runCheck (step sortedOrder)
        (fun _ _ => true)
        (fun pool => decide (pool.mineableBytes = 20))
        (new 10) racingRun = true := by
    decide +kernel
  rcases Machine.Reach.of_runCheck
      (fun _ _ _ => trivial) hRun with
    ⟨pool, hReach, hBytes⟩
  rcases repeated_calls_absorbed hReach sortedOrder
      sortedOrder ⟨[transaction 1 7]⟩ 3 4 with
    ⟨⟨admitted, hAdmit, hTwice⟩,
      ⟨payload, made, hMake, hLoopback, _⟩, _⟩
  exact ⟨pool, made, admitted, payload, hReach,
    of_decide_eq_true hBytes, hMake, hLoopback, hAdmit,
    hTwice⟩

end Txpool

end LibApollo
