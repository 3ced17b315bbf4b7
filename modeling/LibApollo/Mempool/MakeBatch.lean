import LibApollo.Base.Filling
import LibApollo.Mempool.Lifecycle

/-
  What a batch takes out of the transaction pool, and that
  a rollback puts it back.

  The mineable transactions are listed in the order of
  client and nonce.  A batch is the shortest prefix of this
  list that reaches the batch size.  Nothing but the index
  of the rounds remembers a batch that is rolled back.

  Key definitions include:
    * `Txpool.sortedEntries`
    * `Txpool.Promoted`
    * `Txpool.Undoing`

  Key theorems include:
    * `Txpool.makeBatch_shortest_prefix`
    * `Txpool.rollback_undoes_makeBatch`
-/

------------------------------------------------------------
-- Mineable Entries in Order
------------------------------------------------------------

namespace LibApollo

namespace Txpool

variable {Tx : Type}
variable {mineable : FinMap TxKey (Tx × Nat)}
variable {key : TxKey}
variable {entry : Tx × Nat}

/- A key with its transaction and its size. -/
abbrev Entry (Tx : Type) :=
  TxKey × Tx × Nat

/- The size of an entry. -/
def Entry.size (entry : Entry Tx) : Nat :=
  entry.2.2

/- The entries in the order of client and nonce. -/
def sortedEntries
    (mineable : FinMap TxKey (Tx × Nat)) :
    List (Entry Tx) :=
  (sortedKeys mineable).filterMap
    (fun key =>
      (mineable.lookup key).map (fun entry => (key, entry)))

theorem mem_sortedEntries :
    (key, entry) ∈ sortedEntries mineable ↔
      mineable.lookup key = some entry := by
  rw [sortedEntries, List.mem_filterMap]
  constructor
  · intro hParts
    rcases hParts with ⟨other, _, hEntry⟩
    rcases Option.map_eq_some_iff.mp hEntry with
      ⟨found, hLookup, hPair⟩
    cases hPair
    exact hLookup
  · intro hLookup
    refine ⟨key, ?_, ?_⟩
    · rw [mem_sortedKeys]
      exact Finmap.mem_of_lookup_eq_some hLookup
    · rw [hLookup]
      rfl

theorem nodup_sortedKeys
    (mineable : FinMap TxKey (Tx × Nat)) :
    (sortedKeys mineable).Nodup :=
  (FinMap.nodup_ascending _).map ofLex.injective

/- Without its first key the other keys remain. -/
theorem sortedKeys_erase_head
    {keys : List TxKey}
    (hKeys : sortedKeys mineable = key :: keys) :
    sortedKeys (mineable.erase key) = keys := by
  rcases List.map_eq_cons_iff.mp hKeys with
    ⟨first, rest, hAscending, hFirst, hRest⟩
  have hImage :
      (mineable.erase key).keys.image toLex =
        (mineable.keys.image toLex).erase first := by
    rw [Finmap.keys_erase,
      Finset.image_erase toLex.injective, ← hFirst]
    rfl
  rw [sortedKeys, hImage,
    FinMap.ascending_erase_head hAscending, hRest]

theorem sortedEntries_nil
    (hNone : (sortedKeys mineable).head? = none) :
    sortedEntries mineable = [] := by
  rw [sortedEntries, List.head?_eq_none_iff.mp hNone]
  rfl

theorem sortedEntries_cons
    (hFirst : (sortedKeys mineable).head? = some key)
    (hLookup : mineable.lookup key = some entry) :
    sortedEntries mineable =
      (key, entry) ::
        sortedEntries (mineable.erase key) := by
  rcases List.head?_eq_some_iff.mp hFirst with
    ⟨keys, hKeys⟩
  have hNodup := nodup_sortedKeys mineable
  rw [hKeys] at hNodup
  rw [sortedEntries, sortedEntries,
    sortedKeys_erase_head hKeys, hKeys]
  simp only [List.filterMap_cons, hLookup, Option.map_some]
  congr 1
  apply List.filterMap_congr
  intro other hOther
  have hNe : other ≠ key := by
    intro hEq
    rw [hEq] at hOther
    exact (List.nodup_cons.mp hNodup).1 hOther
  rw [FinMap.lookup_erase_eq, if_neg hNe]

/- The entries weigh what the byte count says. -/
theorem weight_sortedEntries
    (mineable : FinMap TxKey (Tx × Nat)) :
    Filling.weight Entry.size (sortedEntries mineable) =
      bytesOf mineable := by
  generalize hCard : mineable.keys.card = n
  induction n generalizing mineable with
  | zero =>
      rw [FinMap.eq_empty_of_card_eq_zero hCard]
      rfl
  | succ n ih =>
      cases hFirst : (sortedKeys mineable).head? with
      | none =>
          have hKeys := List.head?_eq_none_iff.mp hFirst
          have hNone : mineable.keys = ∅ := by
            apply Finset.eq_empty_of_forall_notMem
            intro key hKey
            rw [Finmap.mem_keys, ← mem_sortedKeys,
              hKeys] at hKey
            exact List.not_mem_nil hKey
          rw [hNone, Finset.card_empty] at hCard
          omega
      | some key =>
          rcases lookup_of_head? hFirst with
            ⟨entry, hLookup⟩
          have hTotal :
              bytesOf mineable =
                entry.2 +
                  bytesOf (mineable.erase key) :=
            FinMap.total_erase_of_some hLookup
          have hMem : key ∈ mineable.keys :=
            Finmap.mem_keys.mpr
              (Finmap.mem_of_lookup_eq_some hLookup)
          rw [sortedEntries_cons hFirst hLookup,
            Filling.weight_cons, hTotal, ih]
          · rfl
          · rw [Finmap.keys_erase,
              Finset.card_erase_of_mem hMem]
            omega

end Txpool

end LibApollo

------------------------------------------------------------
-- The Batch
------------------------------------------------------------

namespace LibApollo

namespace Txpool

open Result
open Filling

variable {Tx : Type}
variable {stale : Finset ClientId}
variable {orphan : TxKey → Nat → Prop}
variable {pool pool' : Txpool Tx}

/- The entries are put in flight, and nothing else is. -/
structure Promoted
    (round : Nat)
    (taken : List (Entry Tx))
    (pool pool' : Txpool Tx) : Prop where
  nonces :
    pool'.highCommittedNonce = pool.highCommittedNonce
  promoted :
    ∀ key tx size,
      (key, tx, size) ∈ taken →
        pool'.inflight.lookup key =
          some { tx := tx, size := size, round := round }
  others :
    ∀ key, key ∉ taken.map Prod.fst →
      pool'.inflight.lookup key = pool.inflight.lookup key

theorem Promoted.nil
    (round : Nat)
    (pool : Txpool Tx) : Promoted round [] pool pool where
  nonces := rfl
  promoted := by
    intro key tx size hMem
    exact absurd hMem List.not_mem_nil
  others := fun _ _ => rfl

theorem Promoted.cons
    {round size : Nat}
    {key : TxKey}
    {tx : Tx}
    {taken : List (Entry Tx)}
    (hNew : key ∉ taken.map Prod.fst)
    (hRest :
      Promoted round taken
        ((pool.dropMineable key).addInflight key
          { tx := tx, size := size, round := round })
        pool') :
    Promoted round ((key, tx, size) :: taken) pool
      pool' := by
  have hMid :
      ∀ other,
        ((pool.dropMineable key).addInflight key
          { tx := tx
            size := size
            round := round }).inflight.lookup other =
          if other = key then
            some { tx := tx, size := size, round := round }
          else
            pool.inflight.lookup other := by
    intro other
    exact FinMap.lookup_insert_eq _ _ _ _
  refine
    { nonces := hRest.nonces
      promoted := ?_
      others := ?_ }
  · intro other tx' size' hMem
    rcases List.mem_cons.mp hMem with hFirst | hLater
    · cases hFirst
      rw [hRest.others key hNew, hMid, if_pos rfl]
    · exact hRest.promoted other tx' size' hLater
  · intro other hNot
    rw [List.map_cons, List.mem_cons, not_or] at hNot
    rw [hRest.others other hNot.2, hMid, if_neg hNot.1]

/- The entries that are taken were mineable. -/
theorem lookup_of_taken
    {limit : Nat}
    {mineable : FinMap TxKey (Tx × Nat)}
    {taken rest : List (Entry Tx)}
    {key : TxKey}
    (hFills :
      Fills Entry.size limit (sortedEntries mineable) taken
        rest)
    (hMem : key ∈ taken.map Prod.fst) :
    ∃ tx size,
      (key, tx, size) ∈ taken ∧
        mineable.lookup key = some (tx, size) := by
  rcases List.mem_map.mp hMem with
    ⟨⟨_, tx, size⟩, hIn, rfl⟩
  refine ⟨tx, size, hIn, mem_sortedEntries.mp ?_⟩
  rw [hFills.split]
  exact List.mem_append_left _ hIn

/- The others are left as they are. -/
theorem lookup_of_not_taken
    {limit : Nat}
    {mineable mineable' : FinMap TxKey (Tx × Nat)}
    {taken : List (Entry Tx)}
    {key : TxKey}
    (hFills :
      Fills Entry.size limit (sortedEntries mineable) taken
        (sortedEntries mineable'))
    (hNot : key ∉ taken.map Prod.fst) :
    mineable'.lookup key = mineable.lookup key := by
  apply Option.ext
  intro entry
  rw [← mem_sortedEntries, ← mem_sortedEntries,
    hFills.split, List.mem_append]
  constructor
  · exact Or.inr
  · intro hEither
    rcases hEither with hIn | hLeft
    · exact absurd (List.mem_map_of_mem hIn) hNot
    · exact hLeft

/-
  The loop takes the shortest prefix that reaches what is
  missing to the batch size.
-/
theorem makeBatchLoop_fills
    {round fuel batchBytes : Nat}
    {payload payload' : List Tx}
    (hInv : PoolInv stale orphan pool)
    (hFuel : pool.mineable.keys.card ≤ fuel)
    (hLoop :
      makeBatchLoop round fuel batchBytes payload pool =
        .ok (payload', pool')) :
    ∃ taken,
      Fills Entry.size (pool.batchSize - batchBytes)
          (sortedEntries pool.mineable) taken
          (sortedEntries pool'.mineable) ∧
        payload' =
          payload ++ taken.map (fun entry => entry.2.1) ∧
        Promoted round taken pool pool' := by
  have hStop :
      ∀ (payload : List Tx),
        payload = payload ++
          ([] : List (Entry Tx)).map
            (fun entry => entry.2.1) := by
    intro payload
    simp
  induction fuel generalizing batchBytes payload pool with
  | zero =>
      have hNone : pool.mineable = ∅ :=
        FinMap.eq_empty_of_card_eq_zero
          (Nat.le_zero.mp hFuel)
      cases hLoop
      refine ⟨[], Fills.stop (Or.inr ?_), hStop _,
        Promoted.nil round _⟩
      rw [hNone]
      rfl
  | succ fuel ih =>
      rcases makeBatchLoop_cases hInv hLoop with
        ⟨hDone, rfl, rfl⟩ |
          ⟨key, tx, size, hSmall, hFirst, hLookup, hRest⟩
      · refine ⟨[], Fills.stop ?_, hStop _,
          Promoted.nil round _⟩
        rcases hDone with hLarge | hNone
        · exact Or.inl (Nat.sub_eq_zero_of_le hLarge)
        · exact Or.inr (sortedEntries_nil hNone)
      · have hLess :
            (pool.mineable.erase key).keys.card ≤ fuel := by
          have hCard := FinMap.card_keys_erase_lt hLookup
          omega
        rcases ih (hInv.promote round hLookup) hLess
            hRest with
          ⟨taken, hFills, hPayload, hPromoted⟩
        have hNew : key ∉ taken.map Prod.fst := by
          intro hMem
          rcases lookup_of_taken hFills hMem with
            ⟨_, _, _, hLeft⟩
          cases (dropMineable_lookup_self key pool).symm.trans
            hLeft
        refine ⟨(key, tx, size) :: taken, ?_, ?_,
          hPromoted.cons hNew⟩
        · rw [sortedEntries_cons hFirst hLookup]
          apply Fills.take
          · exact Nat.sub_pos_of_lt hSmall
          · have hMissing :
                pool.batchSize - batchBytes -
                    Entry.size (key, tx, size) =
                  pool.batchSize - (batchBytes + size) :=
              Nat.sub_sub _ _ _
            rw [hMissing]
            exact hFills
        · rw [hPayload, List.append_assoc]
          rfl

/- A batch is the shortest prefix that is large enough. -/
theorem makeBatch_fills
    {round : Nat}
    {payload : List Tx}
    (hInv : RepInv pool)
    (hMake : pool.makeBatch round = .ok (payload, pool')) :
    ∃ taken,
      Fills Entry.size pool.batchSize
          (sortedEntries pool.mineable) taken
          (sortedEntries pool'.mineable) ∧
        payload = taken.map (fun entry => entry.2.1) ∧
        Promoted round taken pool pool' := by
  rcases makeBatchLoop_fills
      (PoolInv.openRound round hInv) (Nat.le_refl _)
      hMake with ⟨taken, hFills, hPayload, hPromoted⟩
  rw [List.nil_append] at hPayload
  exact ⟨taken, hFills, hPayload, { hPromoted with }⟩

theorem RepInv.makeBatch_returns
    (round : Nat)
    (hInv : RepInv pool) :
    ∃ payload pool',
      pool.makeBatch round = .ok (payload, pool') ∧
        RepInv pool' := by
  have hYields := hInv.makeBatch round
  cases hMake : pool.makeBatch round with
  | error panic =>
      rw [hMake] at hYields
      exact False.elim hYields
  | ok result =>
      rw [hMake] at hYields
      exact ⟨result.1, result.2, rfl, hYields⟩

variable [MempoolTx Tx]

/-
  In every reached pool the batch of a round holds the
  shortest prefix of the mineable transactions, in the order
  of client and nonce, that reaches the batch size, or all
  of them.  The others stay mineable and are what is
  counted; those of the batch are in flight in the round
  with their sizes, and no other key in flight changes.  A
  ready pool fills its batch.
-/
theorem makeBatch_shortest_prefix
    {order : IterOrder}
    {batchSize : Nat}
    (hReach :
      Machine.Reach (step order) (fun _ _ => True)
        (new batchSize) pool)
    (round : Nat) :
    ∃ taken rest after,
      pool.makeBatch round =
          .ok (taken.map (fun entry => entry.2.1), after) ∧
        Fills Entry.size pool.batchSize
          (sortedEntries pool.mineable) taken rest ∧
        sortedEntries after.mineable = rest ∧
        after.mineableBytes = weight Entry.size rest ∧
        (∀ key tx size,
          (key, tx, size) ∈ taken →
            after.inflight.lookup key =
              some
                { tx := tx
                  size := size
                  round := round }) ∧
        (∀ key, key ∉ taken.map Prod.fst →
          after.inflight.lookup key =
            pool.inflight.lookup key) ∧
        (pool.ready = true →
          pool.batchSize ≤ weight Entry.size taken) := by
  have hInv := (repInv_keyed_of_reach hReach).1
  rcases hInv.makeBatch_returns round with
    ⟨payload, after, hMake, hAfter⟩
  rcases makeBatch_fills hInv hMake with
    ⟨taken, hFills, rfl, hPromoted⟩
  refine ⟨taken, _, after, hMake, hFills, rfl, ?_,
    hPromoted.promoted, hPromoted.others, ?_⟩
  · rw [weight_sortedEntries]
    exact hAfter.bytes
  · intro hReady
    have hMore := of_decide_eq_true hReady
    apply hFills.enough_of_le
    rw [weight_sortedEntries, ← hInv.bytes]
    exact Nat.le_of_lt hMore

/- Two transactions of a client, and one without a size. -/
def batchRun : List (Op Transaction) :=
  [.addTx (transaction 2 3) 20,
    .addTx (transaction 1 7) 0,
    .addTx (transaction 1 5) 10]

theorem makeBatch_fills_ready_pool :
    ∃ (pool after : Txpool Transaction)
        (taken : List (Entry Transaction)),
      Machine.Reach (step sortedOrder) (fun _ _ => True)
          (new 12) pool ∧
        pool.ready = true ∧
        pool.makeBatch 4 =
          .ok (taken.map (fun entry => entry.2.1),
            after) ∧
        12 ≤ weight Entry.size taken := by
  have hRun :
      Machine.runCheck (step sortedOrder)
        (fun _ _ => true)
        (fun pool =>
          pool.ready && decide (pool.batchSize = 12))
        (new 12) batchRun = true := by
    decide +kernel
  rcases Machine.Reach.of_runCheck
      (fun _ _ _ => trivial) hRun with
    ⟨pool, hReach, hFinal⟩
  rw [Bool.and_eq_true, decide_eq_true_eq] at hFinal
  rcases makeBatch_shortest_prefix hReach 4 with
    ⟨taken, _, after, hMake, _, _, _, _, _, hFull⟩
  have hEnough := hFull hFinal.1
  rw [hFinal.2] at hEnough
  exact ⟨pool, after, taken, hReach, hFinal.1, hMake,
    hEnough⟩

end Txpool

end LibApollo

------------------------------------------------------------
-- Rolling Back a Batch
------------------------------------------------------------

namespace LibApollo

namespace Txpool

open Filling

variable {Tx : Type}
variable {order : IterOrder}
variable {pool pool' now : Txpool Tx}
variable {round : Nat}

/- No key is in flight in the round. -/
def Idle (pool : Txpool Tx) (round : Nat) : Prop :=
  ∀ key entry,
    pool.inflight.lookup key = some entry →
      entry.round ≠ round

/- The pools differ at most in the index of the rounds. -/
structure SameTables (pool pool' : Txpool Tx) : Prop where
  mineable : pool'.mineable = pool.mineable
  bytes : pool'.mineableBytes = pool.mineableBytes
  inflight : pool'.inflight = pool.inflight
  nonces :
    pool'.highCommittedNonce = pool.highCommittedNonce

theorem SameTables.trans
    {mid : Txpool Tx}
    (hFirst : SameTables pool mid)
    (hSecond : SameTables mid pool') :
    SameTables pool pool' where
  mineable := hSecond.mineable.trans hFirst.mineable
  bytes := hSecond.bytes.trans hFirst.bytes
  inflight := hSecond.inflight.trans hFirst.inflight
  nonces := hSecond.nonces.trans hFirst.nonces

/-
  Some keys of a batch are still to be returned; all other
  entries are those of the pool before the batch.
-/
structure Undoing
    (round : Nat)
    (keys : List TxKey)
    (pool now : Txpool Tx) : Prop where
  bytes : now.mineableBytes = bytesOf now.mineable
  nonces :
    now.highCommittedNonce = pool.highCommittedNonce
  pending :
    ∀ key ∈ keys,
      ∃ tx size,
        pool.mineable.lookup key = some (tx, size) ∧
          pool.inflight.lookup key = none ∧
          now.mineable.lookup key = none ∧
          now.inflight.lookup key =
            some { tx := tx, size := size, round := round }
  returned :
    ∀ key, key ∉ keys →
      now.mineable.lookup key = pool.mineable.lookup key ∧
        now.inflight.lookup key = pool.inflight.lookup key

theorem Undoing.rollbackKey
    {key : TxKey}
    {keys : List TxKey}
    (hInv : RepInv pool)
    (hNew : key ∉ keys)
    (hUndoing : Undoing round (key :: keys) pool now) :
    ∃ after,
      rollbackKey now key = .ok after ∧
        after.inflightByRound = now.inflightByRound ∧
        Undoing round keys pool after := by
  rcases hUndoing.pending key List.mem_cons_self with
    ⟨tx, size, hMine, hFlight, hGone, hPending⟩
  have hHigh : ¬ key.2 ≤ now.hi key.1 := by
    have hFresh := hInv.fresh key (tx, size) hMine
      (Finset.notMem_empty _)
    rw [hi, hUndoing.nonces]
    exact Nat.not_le.mpr hFresh
  have hTotal :
      bytesOf (now.mineable.insert key (tx, size)) =
        size + bytesOf now.mineable :=
    FinMap.total_insert_of_none hGone
  -- what is returned so far was mineable before the batch
  have hLess :
      bytesOf (now.mineable.insert key (tx, size)) ≤
        bytesOf pool.mineable := by
    apply FinMap.total_le_of_entries
    apply FinMap.forall_insert
    · intro other entry hLookup
      by_cases hMem : other ∈ key :: keys
      · rcases hUndoing.pending other hMem with
          ⟨_, _, _, _, hNone, _⟩
        rw [hNone] at hLookup
        cases hLookup
      · rw [← (hUndoing.returned other hMem).1]
        exact hLookup
    · exact hMine
  have hFits : now.mineableBytes + size < 2 ^ 64 := by
    have hBound := hInv.bound
    have hBytes := hInv.bytes
    have hNow := hUndoing.bytes
    omega
  unfold Txpool.rollbackKey addBytes
  rw [if_neg hHigh, hPending]
  dsimp only
  rw [if_pos hFits]
  refine ⟨_, rfl, rfl, ?_, hUndoing.nonces, ?_, ?_⟩
  · dsimp only
    rw [hTotal, hUndoing.bytes, Nat.add_comm]
  · intro other hMem
    have hNe : other ≠ key := by
      intro hEq
      rw [hEq] at hMem
      exact hNew hMem
    dsimp only
    rw [FinMap.lookup_insert_eq, FinMap.lookup_erase_eq,
      if_neg hNe, if_neg hNe]
    exact hUndoing.pending other
      (List.mem_cons_of_mem key hMem)
  · intro other hNot
    dsimp only
    rw [FinMap.lookup_insert_eq, FinMap.lookup_erase_eq]
    by_cases hKey : other = key
    · rw [if_pos hKey, if_pos hKey, hKey]
      exact ⟨hMine.symm, hFlight.symm⟩
    · rw [if_neg hKey, if_neg hKey]
      apply hUndoing.returned
      intro hMem
      rcases List.mem_cons.mp hMem with hEq | hIn
      · exact hKey hEq
      · exact hNot hIn

/- When no key is left, the pool is as it was. -/
theorem Undoing.sameTables
    (hInv : RepInv pool)
    (hUndoing : Undoing round [] pool now) :
    SameTables pool now := by
  have hMineable : now.mineable = pool.mineable := by
    apply Finmap.ext_lookup
    intro key
    exact (hUndoing.returned key List.not_mem_nil).1
  refine
    { mineable := hMineable
      bytes := ?_
      inflight := ?_
      nonces := hUndoing.nonces }
  · rw [hUndoing.bytes, hMineable, ← hInv.bytes]
  · apply Finmap.ext_lookup
    intro key
    exact (hUndoing.returned key List.not_mem_nil).2

theorem Undoing.rollbackKeys
    {keys : List TxKey}
    (hInv : RepInv pool)
    (hNodup : keys.Nodup)
    (hUndoing : Undoing round keys pool now) :
    ∃ after,
      keys.foldlM Txpool.rollbackKey now = .ok after ∧
        after.inflightByRound = now.inflightByRound ∧
        SameTables pool after := by
  induction keys generalizing now with
  | nil =>
      exact ⟨now, rfl, rfl, hUndoing.sameTables hInv⟩
  | cons key keys ih =>
      rcases List.nodup_cons.mp hNodup with ⟨hNew, hRest⟩
      rcases hUndoing.rollbackKey hInv hNew with
        ⟨mid, hFirst, hIndex, hMid⟩
      rcases ih hRest hMid with
        ⟨after, hLoop, hIndex', hSame⟩
      refine ⟨after, ?_, hIndex'.trans hIndex, hSame⟩
      rw [List.foldlM_cons]
      exact Result.bind_eq_ok.mpr ⟨mid, hFirst, hLoop⟩

/- A round without keys is rolled back without effect. -/
theorem rollbackRound_idle
    (order : IterOrder)
    (hNone : pool.roundKeys round = ∅) :
    ∃ after,
      rollbackRound order pool round = .ok after ∧
        SameTables pool after ∧
        ∀ other,
          after.roundKeys other = pool.roundKeys other := by
  unfold rollbackRound
  cases hLookup : pool.inflightByRound.lookup round with
  | none =>
      exact ⟨pool, rfl, ⟨rfl, rfl, rfl, rfl⟩,
        fun _ => rfl⟩
  | some keys =>
      rw [roundKeys_of_lookup hLookup] at hNone
      have hVisited : order.keys keys = [] := by
        apply List.eq_nil_iff_forall_not_mem.mpr
        intro key hKey
        rw [order.mem_keys, hNone] at hKey
        exact Finset.notMem_empty key hKey
      dsimp only
      rw [hVisited]
      refine ⟨_, rfl, ⟨rfl, rfl, rfl, rfl⟩, ?_⟩
      intro other
      rw [roundKeys_erase]
      by_cases hRound : other = round
      · rw [if_pos hRound, hRound,
          roundKeys_of_lookup hLookup, hNone]
      · rw [if_neg hRound]

theorem rollback_idle
    {rounds : List Nat}
    (order : IterOrder)
    (hNone : ∀ r ∈ rounds, pool.roundKeys r = ∅) :
    ∃ after,
      pool.rollback order rounds = .ok after ∧
        SameTables pool after := by
  induction rounds generalizing pool with
  | nil => exact ⟨pool, rfl, rfl, rfl, rfl, rfl⟩
  | cons round rounds ih =>
      rcases rollbackRound_idle order
          (hNone round List.mem_cons_self) with
        ⟨mid, hFirst, hSame, hKeys⟩
      have hLater : ∀ r ∈ rounds, mid.roundKeys r = ∅ := by
        intro r hMem
        rw [hKeys]
        exact hNone r (List.mem_cons_of_mem round hMem)
      rcases ih hLater with ⟨after, hRest, hSame'⟩
      refine ⟨after, ?_, hSame.trans hSame'⟩
      rw [rollback, List.foldlM_cons]
      exact Result.bind_eq_ok.mpr ⟨mid, hFirst, hRest⟩

/- The round of the batch gives all of it back. -/
theorem rollbackRound_undoes
    (order : IterOrder)
    (hInv : RepInv pool)
    (hUndoing :
      Undoing round (order.keys (now.roundKeys round)) pool
        now) :
    ∃ after,
      rollbackRound order now round = .ok after ∧
        SameTables pool after ∧
        ∀ other,
          after.roundKeys other =
            if other = round then ∅
            else now.roundKeys other := by
  unfold rollbackRound
  cases hLookup : now.inflightByRound.lookup round with
  | none =>
      have hNone : now.roundKeys round = ∅ := by
        rw [roundKeys, hLookup]
        rfl
      have hVisited :
          order.keys (now.roundKeys round) = [] := by
        apply List.eq_nil_iff_forall_not_mem.mpr
        intro key hKey
        rw [order.mem_keys, hNone] at hKey
        exact Finset.notMem_empty key hKey
      rw [hVisited] at hUndoing
      refine ⟨now, rfl, hUndoing.sameTables hInv, ?_⟩
      intro other
      by_cases hRound : other = round
      · rw [if_pos hRound, hRound, hNone]
      · rw [if_neg hRound]
  | some keys =>
      rw [roundKeys_of_lookup hLookup] at hUndoing
      have hStart :
          Undoing round (order.keys keys) pool
            { now with
              inflightByRound :=
                now.inflightByRound.erase round } :=
        { hUndoing with }
      rcases hStart.rollbackKeys hInv
          (order.nodup_keys keys) with
        ⟨after, hLoop, hIndex, hSame⟩
      refine ⟨after, hLoop, hSame, ?_⟩
      intro other
      rw [roundKeys, hIndex]
      exact roundKeys_erase round other

/- The round of a batch has the keys that were taken. -/
theorem Promoted.mem_roundKeys
    {limit : Nat}
    {taken rest : List (Entry Tx)}
    {key : TxKey}
    (hInv' : RepInv pool')
    (hIdle : Idle pool round)
    (hFills :
      Fills Entry.size limit (sortedEntries pool.mineable)
        taken rest)
    (hPromoted : Promoted round taken pool pool') :
    key ∈ pool'.roundKeys round ↔
      key ∈ taken.map Prod.fst := by
  rw [PoolInv.mem_roundKeys hInv']
  constructor
  · intro hParts
    rcases hParts with ⟨entry, hEntry, hRound⟩
    by_contra hNot
    rw [hPromoted.others key hNot] at hEntry
    exact hIdle key entry hEntry hRound
  · intro hMem
    rcases lookup_of_taken hFills hMem with
      ⟨tx, size, hIn, _⟩
    exact ⟨_, hPromoted.promoted key tx size hIn, rfl⟩

/- The other rounds keep theirs. -/
theorem Promoted.roundKeys_other
    {limit other : Nat}
    {taken rest : List (Entry Tx)}
    (hInv : RepInv pool)
    (hInv' : RepInv pool')
    (hFills :
      Fills Entry.size limit (sortedEntries pool.mineable)
        taken rest)
    (hPromoted : Promoted round taken pool pool')
    (hOther : other ≠ round) :
    pool'.roundKeys other = pool.roundKeys other := by
  ext key
  rw [PoolInv.mem_roundKeys hInv',
    PoolInv.mem_roundKeys hInv]
  by_cases hMem : key ∈ taken.map Prod.fst
  · rcases lookup_of_taken hFills hMem with
      ⟨tx, size, hIn, hMine⟩
    rw [hPromoted.promoted key tx size hIn,
      PoolInv.inflight_of_mineable hInv hMine]
    constructor
    · intro hParts
      rcases hParts with ⟨_, hEntry, hRound⟩
      cases hEntry
      exact absurd hRound.symm hOther
    · intro hParts
      rcases hParts with ⟨_, hEntry, _⟩
      cases hEntry
  · rw [hPromoted.others key hMem]

/- Every batch can be undone, key by key. -/
theorem makeBatch_undoing
    {payload : List Tx}
    (order : IterOrder)
    (hInv : RepInv pool)
    (hInv' : RepInv pool')
    (hIdle : Idle pool round)
    (hMake : pool.makeBatch round = .ok (payload, pool')) :
    Undoing round (order.keys (pool'.roundKeys round)) pool
        pool' ∧
      ∀ other, other ≠ round →
        pool'.roundKeys other = pool.roundKeys other := by
  rcases makeBatch_fills hInv hMake with
    ⟨taken, hFills, _, hPromoted⟩
  constructor
  · refine
      { bytes := hInv'.bytes
        nonces := hPromoted.nonces
        pending := ?_
        returned := ?_ }
    · intro key hKey
      rw [order.mem_keys,
        hPromoted.mem_roundKeys hInv' hIdle hFills] at hKey
      rcases lookup_of_taken hFills hKey with
        ⟨tx, size, hIn, hMine⟩
      have hNow := hPromoted.promoted key tx size hIn
      exact ⟨tx, size, hMine,
        PoolInv.inflight_of_mineable hInv hMine,
        PoolInv.mineable_of_inflight hInv' hNow, hNow⟩
    · intro key hKey
      rw [order.mem_keys,
        hPromoted.mem_roundKeys hInv' hIdle hFills] at hKey
      exact ⟨lookup_of_not_taken hFills hKey,
        hPromoted.others key hKey⟩
  · intro other hOther
    exact hPromoted.roundKeys_other hInv hInv' hFills hOther

/-
  Rolling back the round of a batch, and other rounds
  without keys in any order, gives the batch back.
-/
theorem Undoing.rollback
    {rounds : List Nat}
    (order : IterOrder)
    (hInv : RepInv pool)
    (hMem : round ∈ rounds)
    (hNone :
      ∀ r ∈ rounds, r ≠ round → now.roundKeys r = ∅)
    (hUndoing :
      Undoing round (order.keys (now.roundKeys round)) pool
        now) :
    ∃ after,
      now.rollback order rounds = .ok after ∧
        SameTables pool after := by
  induction rounds generalizing now with
  | nil => exact absurd hMem List.not_mem_nil
  | cons first rounds ih =>
      by_cases hFirst : first = round
      · rcases rollbackRound_undoes order hInv hUndoing with
          ⟨mid, hBack, hSame, hKeys⟩
        -- the other rounds are empty, this one included
        have hIdle : ∀ r ∈ rounds, mid.roundKeys r = ∅ := by
          intro r hIn
          rw [hKeys]
          by_cases hRound : r = round
          · rw [if_pos hRound]
          · rw [if_neg hRound]
            exact hNone r (List.mem_cons_of_mem _ hIn)
              hRound
        rcases rollback_idle order hIdle with
          ⟨after, hRest, hSame'⟩
        refine ⟨after, ?_, hSame.trans hSame'⟩
        rw [Txpool.rollback, List.foldlM_cons, hFirst]
        exact Result.bind_eq_ok.mpr ⟨mid, hBack, hRest⟩
      · rcases rollbackRound_idle order
            (hNone first List.mem_cons_self hFirst) with
          ⟨mid, hBack, hSame, hKeys⟩
        have hIn : round ∈ rounds :=
          (List.mem_cons.mp hMem).resolve_left
            (fun hEq => hFirst hEq.symm)
        have hLater :
            ∀ r ∈ rounds, r ≠ round →
              mid.roundKeys r = ∅ := by
          intro r hIn hRound
          rw [hKeys]
          exact hNone r (List.mem_cons_of_mem _ hIn) hRound
        have hStill :
            Undoing round
              (order.keys (mid.roundKeys round)) pool
              mid := by
          rw [hKeys]
          refine
            { bytes := ?_
              nonces := ?_
              pending := ?_
              returned := ?_ }
          · rw [hSame.bytes, hSame.mineable]
            exact hUndoing.bytes
          · rw [hSame.nonces]
            exact hUndoing.nonces
          · rw [hSame.mineable, hSame.inflight]
            exact hUndoing.pending
          · rw [hSame.mineable, hSame.inflight]
            exact hUndoing.returned
        rcases ih hIn hLater hStill with
          ⟨after, hRest, hRestored⟩
        refine ⟨after, ?_, hRestored⟩
        rw [Txpool.rollback, List.foldlM_cons]
        exact Result.bind_eq_ok.mpr ⟨mid, hBack, hRest⟩

variable [MempoolTx Tx]

/-
  In every reached pool without keys in flight in a round, a
  batch of the round is undone when the round is rolled
  back, among any rounds without keys in flight.
-/
theorem rollback_undoes_makeBatch
    {order : IterOrder}
    {batchSize : Nat}
    {rounds : List Nat}
    (hReach :
      Machine.Reach (step order) (fun _ _ => True)
        (new batchSize) pool)
    (order' : IterOrder)
    (hMem : round ∈ rounds)
    (hIdle : ∀ r ∈ rounds, Idle pool r) :
    ∃ payload made after,
      pool.makeBatch round = .ok (payload, made) ∧
        made.rollback order' rounds = .ok after ∧
        after.mineable = pool.mineable ∧
        after.mineableBytes = pool.mineableBytes ∧
        after.inflight = pool.inflight ∧
        after.highCommittedNonce =
          pool.highCommittedNonce := by
  have hInv := (repInv_keyed_of_reach hReach).1
  rcases hInv.makeBatch_returns round with
    ⟨payload, made, hMake, hMade⟩
  rcases makeBatch_undoing order' hInv hMade
      (hIdle round hMem) hMake with ⟨hUndoing, hOthers⟩
  have hNone :
      ∀ r ∈ rounds, r ≠ round → made.roundKeys r = ∅ := by
    intro r hIn hRound
    rw [hOthers r hRound]
    apply Finset.eq_empty_of_forall_notMem
    intro key hKey
    rcases (hInv.index key r).mp (Or.inl hKey) with
      ⟨entry, hEntry, hEq⟩
    exact hIdle r hIn key entry hEntry hEq
  rcases hUndoing.rollback order' hInv hMem hNone with
    ⟨after, hBack, hSame⟩
  exact ⟨payload, made, after, hMake, hBack,
    hSame.mineable, hSame.bytes, hSame.inflight,
    hSame.nonces⟩

/- A batch of round 4 is rolled back, the round twice. -/
theorem rollback_undoes_batch_of_two :
    ∃ (pool made after : Txpool Transaction)
        (payload : List Transaction),
      Machine.Reach (step sortedOrder) (fun _ _ => True)
          (new 12) pool ∧
        pool.mineableBytes = 30 ∧
        pool.makeBatch 4 = .ok (payload, made) ∧
        made.rollback sortedOrder [7, 4, 4] = .ok after ∧
        after.mineable = pool.mineable ∧
        after.mineableBytes = 30 := by
  have hRun :
      Machine.runCheck (step sortedOrder)
        (fun _ _ => true)
        (fun pool =>
          decide (pool.mineableBytes = 30) &&
            decide (pool.inflight.keys = ∅))
        (new 12) batchRun = true := by
    decide +kernel
  rcases Machine.Reach.of_runCheck
      (fun _ _ _ => trivial) hRun with
    ⟨pool, hReach, hFinal⟩
  simp only [Bool.and_eq_true, decide_eq_true_eq] at hFinal
  rcases hFinal with ⟨hBytes, hNone⟩
  have hIdle : ∀ r ∈ [7, 4, 4], Idle pool r := by
    intro r _ key entry hEntry
    have hKey : key ∈ pool.inflight.keys :=
      Finmap.mem_keys.mpr
        (Finmap.mem_of_lookup_eq_some hEntry)
    rw [hNone] at hKey
    exact absurd hKey (Finset.notMem_empty key)
  rcases rollback_undoes_makeBatch hReach sortedOrder
      (show 4 ∈ [7, 4, 4] by decide) hIdle with
    ⟨payload, made, after, hMake, hBack, hMineable,
      hSame, _⟩
  exact ⟨pool, made, after, payload, hReach, hBytes, hMake,
    hBack, hMineable, hSame.trans hBytes⟩

end Txpool

end LibApollo
