import LibApollo.Mempool.Lifecycle

/-
  The replay filter of the transaction pool and the garbage
  it leaves behind.

  The table of committed nonces holds, for each client, the
  highest nonce among the transactions committed so far and
  depends on nothing else.  A client without an entry is
  read as one whose nonce 0 is committed.  A commit takes
  its own transactions out of flight, but not those that it
  supersedes.

  Key definitions include:
    * `Txpool.Marks`
    * `Txpool.Drops`, `Txpool.Inserts`
    * `Txpool.Blocked`
    * `Txpool.Superseded`, `Txpool.Collects`

  Key theorems include:
    * `Txpool.marks_of_trace`
    * `Txpool.replay_filter_exact_iff`
    * `Txpool.commit_collects_iff`
-/

------------------------------------------------------------
-- Highest Nonces
------------------------------------------------------------

namespace LibApollo

namespace Txpool

/- Enter the nonce of a key in a table of nonces. -/
def markNonce
    (nonces : FinMap ClientId Nat)
    (key : TxKey) : FinMap ClientId Nat :=
  nonces.insert key.1
    (max ((nonces.lookup key.1).getD 0) key.2)

/-
  A table holds the highest nonce of every client that has
  one among some keys.
-/
structure Marks
    (keys : TxKey → Prop)
    (nonces : FinMap ClientId Nat) : Prop where
  absent :
    ∀ client nonce,
      nonces.lookup client = none →
        ¬ keys (client, nonce)
  reached :
    ∀ client high,
      nonces.lookup client = some high →
        keys (client, high)
  highest :
    ∀ client high nonce,
      nonces.lookup client = some high →
        keys (client, nonce) → nonce ≤ high

variable {keys : TxKey → Prop}
variable {nonces nonces' : FinMap ClientId Nat}

theorem marks_empty
    (hNone : ∀ key, ¬ keys key) :
    Marks keys ∅ where
  absent := fun client nonce _ => hNone (client, nonce)
  reached := by
    intro client high hLookup
    simp at hLookup
  highest := by
    intro client high nonce hLookup
    simp at hLookup

/- The keys determine the table. -/
theorem Marks.unique
    (hMarks : Marks keys nonces)
    (hMarks' : Marks keys nonces') :
    nonces = nonces' := by
  apply Finmap.ext_lookup
  intro client
  cases hLookup : nonces.lookup client with
  | none =>
      cases hLookup' : nonces'.lookup client with
      | none => rfl
      | some high =>
          have hKey := hMarks'.reached client high hLookup'
          exact absurd hKey
            (hMarks.absent client high hLookup)
  | some high =>
      have hKey := hMarks.reached client high hLookup
      cases hLookup' : nonces'.lookup client with
      | none =>
          exact absurd hKey
            (hMarks'.absent client high hLookup')
      | some high' =>
          have hKey' :=
            hMarks'.reached client high' hLookup'
          have hLe :=
            hMarks'.highest client high' high hLookup' hKey
          have hGe :=
            hMarks.highest client high high' hLookup hKey'
          rw [Nat.le_antisymm hLe hGe]

theorem Marks.congr
    {keys' : TxKey → Prop}
    (hMarks : Marks keys nonces)
    (hSame : ∀ key, keys key ↔ keys' key) :
    Marks keys' nonces := by
  have hEq : keys = keys' := by
    funext key
    exact propext (hSame key)
  rw [← hEq]
  exact hMarks

/- The mark is at the nonce or at a committed one. -/
theorem Marks.markNonce
    (hMarks : Marks keys nonces)
    (key : TxKey) :
    Marks (fun other => keys other ∨ other = key)
      (markNonce nonces key) := by
  unfold Txpool.markNonce
  refine ⟨?_, ?_, ?_⟩
  · intro client nonce hLookup hKey
    rw [FinMap.lookup_insert_eq] at hLookup
    split at hLookup
    · cases hLookup
    · rename_i hOther
      rcases hKey with hOld | rfl
      · exact hMarks.absent client nonce hLookup hOld
      · exact hOther rfl
  · intro client high hLookup
    rw [FinMap.lookup_insert_eq] at hLookup
    split at hLookup
    · rename_i hClient
      cases hLookup
      rcases Nat.le_total
          ((nonces.lookup key.1).getD 0) key.2 with
        hLow | hHigh
      · right
        rw [Nat.max_eq_right hLow, hClient]
      · rw [Nat.max_eq_left hHigh, hClient]
        cases hOld : nonces.lookup key.1 with
        | none =>
            rw [hOld] at hHigh
            right
            have hZero : key.2 = 0 := Nat.le_zero.mp hHigh
            exact Prod.ext rfl hZero.symm
        | some old =>
            left
            exact hMarks.reached key.1 old hOld
    · exact Or.inl (hMarks.reached client high hLookup)
  · intro client high nonce hLookup hKey
    rw [FinMap.lookup_insert_eq] at hLookup
    split at hLookup
    · rename_i hClient
      cases hLookup
      rcases hKey with hOld | hSame
      · rw [hClient] at hOld
        cases hBefore : nonces.lookup key.1 with
        | none =>
            exact absurd hOld
              (hMarks.absent key.1 nonce hBefore)
        | some old =>
            have hLe :=
              hMarks.highest key.1 old nonce hBefore hOld
            exact Nat.le_trans hLe (Nat.le_max_left _ _)
      · rw [← hSame]
        exact Nat.le_max_right _ _
    · rename_i hOther
      rcases hKey with hOld | hSame
      · exact hMarks.highest client high nonce hLookup hOld
      · rw [← hSame] at hOther
        exact absurd rfl hOther

theorem Marks.foldl
    (hMarks : Marks keys nonces)
    (added : List TxKey) :
    Marks (fun key => keys key ∨ key ∈ added)
      (added.foldl Txpool.markNonce nonces) := by
  induction added generalizing keys nonces with
  | nil =>
      apply hMarks.congr
      intro key
      simp
  | cons first rest ih =>
      apply (ih (hMarks.markNonce first)).congr
      intro key
      rw [List.mem_cons, or_assoc]

end Txpool

end LibApollo

------------------------------------------------------------
-- What a Commit Does
------------------------------------------------------------

namespace LibApollo

namespace Txpool

variable {Tx : Type} [MempoolTx Tx]
variable {order : IterOrder}
variable {pool pool' : Txpool Tx}

omit [MempoolTx Tx] in
/- Removing a mineable key touches nothing else. -/
theorem removeMineable_fields
    {key : TxKey}
    {found : Option (Tx × Nat)}
    (hRemove :
      removeMineable key pool = .ok (found, pool')) :
    pool'.inflight = pool.inflight ∧
      pool'.highCommittedNonce =
        pool.highCommittedNonce := by
  unfold removeMineable at hRemove
  split at hRemove
  · cases hRemove
    exact ⟨rfl, rfl⟩
  · rcases Result.bind_eq_ok.mp hRemove with
      ⟨removed, hSub, hPair⟩
    cases hPair
    unfold subBytes at hSub
    split at hSub
    · cases hSub
      exact ⟨rfl, rfl⟩
    · cases hSub

/- The keys of a payload leave, and their nonces enter. -/
structure Records
    (payload : List Tx)
    (pool pool' : Txpool Tx) : Prop where
  nonces :
    pool'.highCommittedNonce =
      (payload.map keyOf).foldl markNonce
        pool.highCommittedNonce
  inflight :
    ∀ key,
      pool'.inflight.lookup key =
        if key ∈ payload.map keyOf then none
        else pool.inflight.lookup key

theorem Records.trans
    {first second : List Tx}
    {mid : Txpool Tx}
    (hFirst : Records first pool mid)
    (hSecond : Records second mid pool') :
    Records (first ++ second) pool pool' where
  nonces := by
    rw [hSecond.nonces, hFirst.nonces, List.map_append,
      List.foldl_append]
  inflight := by
    intro key
    rw [hSecond.inflight, hFirst.inflight, List.map_append]
    simp only [List.mem_append]
    split
    · rename_i hLater
      rw [if_pos (Or.inr hLater)]
    · rename_i hLater
      split
      · rename_i hEarlier
        rw [if_pos (Or.inl hEarlier)]
      · rename_i hEarlier
        rw [if_neg (fun hBoth =>
          hBoth.elim hEarlier hLater)]

/- Nothing is recorded when both tables stay. -/
theorem Records.nothing
    (hFlight : pool'.inflight = pool.inflight)
    (hNonces :
      pool'.highCommittedNonce =
        pool.highCommittedNonce) :
    Records ([] : List Tx) pool pool' where
  nonces := hNonces
  inflight := by
    intro key
    rw [hFlight]
    simp

theorem commitTx_records
    {tx : Tx}
    (hCommit : commitTx pool tx = .ok pool') :
    Records [tx] pool pool' := by
  rcases Result.bind_eq_ok.mp hCommit with
    ⟨⟨found, removed⟩, hRemove, hRaise⟩
  rcases removeMineable_fields hRemove with
    ⟨hFlight, hNonces⟩
  rw [(removeInflight_fields _ pool).2] at hNonces
  cases hRaise
  refine ⟨?_, ?_⟩
  · change removed.highCommittedNonce.insert _
      (max (removed.hi _) _) = _
    rw [hi, hNonces]
    rfl
  · intro key
    change removed.inflight.lookup key = _
    rw [hFlight, inflight_removeInflight]
    simp

theorem commitLoop_records
    {payload : List Tx}
    (hCommit : payload.foldlM commitTx pool = .ok pool') :
    Records payload pool pool' := by
  induction payload generalizing pool with
  | nil =>
      cases hCommit
      exact Records.nothing rfl rfl
  | cons tx payload ih =>
      rw [List.foldlM_cons] at hCommit
      rcases Result.bind_eq_ok.mp hCommit with
        ⟨mid, hFirst, hRest⟩
      exact (commitTx_records hFirst).trans (ih hRest)

omit [MempoolTx Tx] in
theorem sweepLoop_fields
    {keys : List TxKey}
    (hSweep :
      keys.foldlM
        (fun now key => do
          let (_, removed) ← removeMineable key now
          .ok removed)
        pool = .ok pool') :
    pool'.inflight = pool.inflight ∧
      pool'.highCommittedNonce =
        pool.highCommittedNonce := by
  induction keys generalizing pool with
  | nil =>
      cases hSweep
      exact ⟨rfl, rfl⟩
  | cons key keys ih =>
      rw [List.foldlM_cons] at hSweep
      rcases Result.bind_eq_ok.mp hSweep with
        ⟨mid, hFirst, hRest⟩
      rcases Result.bind_eq_ok.mp hFirst with
        ⟨⟨found, removed⟩, hRemove, hMid⟩
      cases hMid
      rcases removeMineable_fields hRemove with
        ⟨hFlight, hNonces⟩
      rcases ih hRest with ⟨hFlight', hNonces'⟩
      exact ⟨hFlight'.trans hFlight,
        hNonces'.trans hNonces⟩

omit [MempoolTx Tx] in
/- The sweep only looks at mineable transactions. -/
theorem sweepAll_fields
    {clients : List ClientId}
    (hSweep : clients.foldlM sweep pool = .ok pool') :
    pool'.inflight = pool.inflight ∧
      pool'.highCommittedNonce =
        pool.highCommittedNonce := by
  induction clients generalizing pool with
  | nil =>
      cases hSweep
      exact ⟨rfl, rfl⟩
  | cons client clients ih =>
      rw [List.foldlM_cons] at hSweep
      rcases Result.bind_eq_ok.mp hSweep with
        ⟨mid, hFirst, hRest⟩
      unfold sweep at hFirst
      split at hFirst
      · cases hFirst
      · rcases sweepLoop_fields hFirst with
          ⟨hFlight, hNonces⟩
        rcases ih hRest with ⟨hFlight', hNonces'⟩
        exact ⟨hFlight'.trans hFlight,
          hNonces'.trans hNonces⟩

theorem commit_records
    {batch : CachedBatch Tx}
    {round : Nat}
    (hCommit :
      pool.commit order batch round = .ok pool') :
    Records batch.payload pool pool' := by
  rcases Result.bind_eq_ok.mp hCommit with
    ⟨settled, hSettle, hRest⟩
  rcases Result.bind_eq_ok.mp hRest with
    ⟨swept, hSweep, hClose⟩
  have hLoop := commitLoop_records hSettle
  rcases sweepAll_fields hSweep with ⟨hFlight, hNonces⟩
  have hSwept :=
    hLoop.trans (Records.nothing hFlight hNonces)
  rw [List.append_nil] at hSwept
  cases hClose
  unfold closeRound
  split
  · exact hSwept
  · split
    · exact ⟨hSwept.nonces, hSwept.inflight⟩
    · exact hSwept

end Txpool

end LibApollo

------------------------------------------------------------
-- The Committed Nonces of a Run
------------------------------------------------------------

namespace LibApollo

namespace Txpool

variable {Tx : Type} [MempoolTx Tx]
variable {order : IterOrder}
variable {batchSize : Nat}
variable {past : List (Txpool Tx × Op Tx)}
variable {pool pool' : Txpool Tx}
variable {op : Op Tx}
variable {key : TxKey}

/- Some call so far has committed the key. -/
def Committed
    (past : List (Txpool Tx × Op Tx))
    (key : TxKey) : Prop :=
  ∃ taken ∈ past, Commits taken.2 key

/- Only commits change the table of nonces. -/
theorem nonces_of_step
    (hInv : RepInv pool)
    (hKeyed : Keyed pool)
    (hStep : step order pool op = .ok pool') :
    pool'.highCommittedNonce = pool.highCommittedNonce ∨
      ∃ batch round, op = .commit batch round := by
  cases op with
  | addTx tx size =>
      exact Or.inl (addTx_moves hInv hKeyed hStep).2.1
  | admitProposal batch round =>
      rcases admitProposal_moves hInv hKeyed hStep (0, 0)
        with ⟨_, hMoves, _⟩
      exact Or.inl hMoves.nonces
  | makeBatch round =>
      rcases Result.map_eq_ok.mp hStep with
        ⟨⟨payload, made⟩, hMake, rfl⟩
      exact Or.inl
        (makeBatch_moves hInv hKeyed hMake).2.nonces
  | commit batch round => exact Or.inr ⟨batch, round, rfl⟩
  | rollback rounds =>
      exact Or.inl
        (rollback_moves hInv hKeyed hStep (0, 0)).2.nonces

/- One more call in the past. -/
theorem committed_append :
    Committed (past ++ [(pool, op)]) key ↔
      Committed past key ∨ Commits op key := by
  constructor
  · intro hCommitted
    rcases hCommitted with ⟨taken, hMem, hCommits⟩
    rcases List.mem_append.mp hMem with hOld | hNew
    · exact Or.inl ⟨taken, hOld, hCommits⟩
    · rw [List.mem_singleton.mp hNew] at hCommits
      exact Or.inr hCommits
  · intro hEither
    rcases hEither with ⟨taken, hMem, hCommits⟩ | hCommits
    · exact ⟨taken, List.mem_append_left _ hMem, hCommits⟩
    · exact ⟨(pool, op),
        List.mem_append_right _
          (List.mem_singleton_self _), hCommits⟩

theorem commits_commit_iff
    {batch : CachedBatch Tx}
    {round : Nat} :
    Commits (.commit batch round) key ↔
      key ∈ batch.payload.map keyOf := by
  rw [List.mem_map]
  constructor
  · intro hCommits
    rcases hCommits with ⟨_, _, hOp, tx, hTx, hKey⟩
    cases hOp
    exact ⟨tx, hTx, hKey⟩
  · intro hMem
    exact ⟨batch, round, rfl, hMem⟩

/- In every run the table marks what was committed. -/
theorem marks_of_trace
    (hTrace :
      Machine.Trace (step order) (new batchSize) past
        pool) :
    Marks (Committed past) pool.highCommittedNonce := by
  induction hTrace with
  | start =>
      apply marks_empty
      intro key hCommitted
      rcases hCommitted with ⟨_, hMem, _⟩
      exact List.not_mem_nil hMem
  | next hBefore hStep ih =>
      rename_i past s s' op
      rcases repInv_keyed_of_reach hBefore.reach_any with
        ⟨hInv, hKeyed⟩
      by_cases hOp : ∃ batch round, op = .commit batch round
      · rcases hOp with ⟨batch, round, rfl⟩
        rw [(commit_records hStep).nonces]
        apply (ih.foldl _).congr
        intro key
        rw [committed_append, commits_commit_iff]
      · have hSame :=
          (nonces_of_step hInv hKeyed hStep).resolve_right
            hOp
        rw [hSame]
        apply ih.congr
        intro key
        rw [committed_append]
        constructor
        · exact Or.inl
        · intro hEither
          rcases hEither with hOld | ⟨batch, round, hEq, _⟩
          · exact hOld
          · exact absurd ⟨batch, round, hEq⟩ hOp

/- A key is put in flight only above the nonce 0. -/
theorem nonce_pos_of_inflight
    (hReach :
      Machine.Reach (step order) (fun _ _ => True)
        (new batchSize) pool)
    {round : Nat}
    (hFlight : pool.txState key = .inFlight round) :
    0 < key.2 := by
  induction hReach generalizing round with
  | start => cases hFlight
  | next hBefore hGuard hStep ih =>
      rename_i s s' op
      rcases repInv_keyed_of_reach hBefore with
        ⟨hInv, hKeyed⟩
      have hMoves :=
        (moves_of_step hInv hKeyed hStep key).2.2
      rw [hFlight] at hMoves
      generalize hOld : s.txState key = old at hMoves
      cases hMoves with
      | stay => exact ih hOld
      | batch _ hHigh => exact Nat.zero_lt_of_lt hHigh
      | admission _ _ _ hHigh _ =>
          exact Nat.zero_lt_of_lt hHigh

end Txpool

end LibApollo

------------------------------------------------------------
-- The Filter
------------------------------------------------------------

namespace LibApollo

namespace Txpool

variable {Tx : Type} [MempoolTx Tx]
variable {order : IterOrder}
variable {batchSize : Nat}
variable {past : List (Txpool Tx × Op Tx)}
variable {pool : Txpool Tx}
variable {tx : Tx}
variable {size : Nat}

/- Adding returns at once and the transaction is not there. -/
def Drops
    (tx : Tx)
    (size : Nat)
    (pool : Txpool Tx) : Prop :=
  pool.addTx tx size = .ok pool ∧
    pool.mineable.lookup (keyOf tx) = none

/- Adding changes one entry and the byte count. -/
def Inserts
    (tx : Tx)
    (size : Nat)
    (pool : Txpool Tx) : Prop :=
  ∃ bytes,
    pool.addTx tx size =
      .ok
        { pool with
          mineable :=
            pool.mineable.insert (keyOf tx) (tx, size)
          mineableBytes := bytes }

/-
  The key is in flight, or some commit had its nonce or a
  higher one of the client.
-/
def Blocked
    (past : List (Txpool Tx × Op Tx))
    (pool : Txpool Tx)
    (key : TxKey) : Prop :=
  (∃ entry, pool.inflight.lookup key = some entry) ∨
    ∃ nonce,
      key.2 ≤ nonce ∧ Committed past (key.1, nonce)

/-
  The filter drops what is blocked and nothing else; the
  rest is inserted, unless its bytes do not fit.
-/
structure FilterExact
    (past : List (Txpool Tx × Op Tx))
    (pool : Txpool Tx)
    (tx : Tx)
    (size : Nat) : Prop where
  drops_iff :
    Drops tx size pool ↔ Blocked past pool (keyOf tx)
  inserts :
    ¬ Blocked past pool (keyOf tx) →
      Inserts tx size pool ∨
        (pool.addTx tx size = .error .bytesOverflow ∧
          2 ^ 64 ≤ pool.heldBytes + size)

/- What is at or below the mark of its client is dropped. -/
theorem drops_of_le
    (hInv : RepInv pool)
    (hLow : (keyOf tx).2 ≤ pool.hi (keyOf tx).1) :
    Drops tx size pool := by
  constructor
  · unfold addTx
    exact if_pos hLow
  · cases hMine : pool.mineable.lookup (keyOf tx) with
    | none => rfl
    | some entry =>
        have hHigh := hInv.fresh _ entry hMine
          (Finset.notMem_empty _)
        exact absurd hHigh (Nat.not_lt.mpr hLow)

/- What is in flight is dropped. -/
theorem drops_of_inflight
    {entry : InflightEntry Tx}
    (hInv : RepInv pool)
    (hFlight :
      pool.inflight.lookup (keyOf tx) = some entry) :
    Drops tx size pool := by
  constructor
  · unfold addTx
    dsimp only
    split
    · rfl
    · rw [if_pos (by rw [hFlight]; rfl)]
  · exact PoolInv.mineable_of_inflight hInv hFlight

/- An inserted transaction would be there. -/
theorem Drops.not_inserts
    (hDrops : Drops tx size pool) :
    ¬ Inserts tx size pool := by
  intro hInserts
  rcases hInserts with ⟨bytes, hOk⟩
  rw [hDrops.1] at hOk
  have hMine := hDrops.2
  rw [Except.ok.inj hOk] at hMine
  simp at hMine

/- What is neither committed nor in flight is entered. -/
theorem addTx_fresh
    (hInv : RepInv pool)
    (hHigh : pool.hi (keyOf tx).1 < (keyOf tx).2)
    (hFlight : pool.inflight.lookup (keyOf tx) = none) :
    pool.addTx tx size =
      addBytes size
        { pool with
          mineable :=
            pool.mineable.insert (keyOf tx) (tx, size)
          mineableBytes :=
            bytesOf (pool.mineable.erase (keyOf tx)) } := by
  unfold addTx
  dsimp only
  rw [if_neg (Nat.not_le.mpr hHigh), if_neg (by
    rw [hFlight]
    exact Bool.false_ne_true),
    insertMineable_eq hInv.bytes]
  rfl

/- It is inserted, unless its bytes do not fit. -/
theorem addTx_inserts
    (hInv : RepInv pool)
    (hHigh : pool.hi (keyOf tx).1 < (keyOf tx).2)
    (hFlight : pool.inflight.lookup (keyOf tx) = none) :
    Inserts tx size pool ∨
      (pool.addTx tx size = .error .bytesOverflow ∧
        2 ^ 64 ≤ pool.heldBytes + size) := by
  have hYields := hInv.addTx tx size
  have hEq : pool.addTx tx size = _ :=
    addTx_fresh hInv hHigh hFlight
  unfold Inserts
  rw [hEq] at hYields ⊢
  unfold addBytes at hYields ⊢
  split at hYields
  · rename_i hFits
    left
    rw [if_pos hFits]
    exact ⟨_, rfl⟩
  · rename_i hFull
    right
    rw [if_neg hFull]
    exact ⟨rfl, hYields.2⟩

/-
  The mark of a client answers the question whether a nonce
  was committed, except for the nonce 0 of a client without
  a mark.
-/
theorem Marks.le_iff
    {keys : TxKey → Prop}
    {nonces : FinMap ClientId Nat}
    {key : TxKey}
    (hMarks : Marks keys nonces)
    (hKnown : 0 < key.2 ∨ ∃ nonce, keys (key.1, nonce)) :
    key.2 ≤ (nonces.lookup key.1).getD 0 ↔
      ∃ nonce, key.2 ≤ nonce ∧ keys (key.1, nonce) := by
  cases hLookup : nonces.lookup key.1 with
  | none =>
      constructor
      · intro hLow
        rcases hKnown with hPos | ⟨nonce, hKey⟩
        · exact absurd hPos (Nat.not_lt.mpr hLow)
        · exact absurd hKey
            (hMarks.absent key.1 nonce hLookup)
      · intro hReached
        rcases hReached with ⟨nonce, _, hKey⟩
        exact absurd hKey
          (hMarks.absent key.1 nonce hLookup)
  | some high =>
      constructor
      · intro hLow
        exact ⟨high, hLow,
          hMarks.reached key.1 high hLookup⟩
      · intro hReached
        rcases hReached with ⟨nonce, hLow, hKey⟩
        exact Nat.le_trans hLow
          (hMarks.highest key.1 high nonce hLookup hKey)

/-
  After any calls the filter is exact for a transaction if
  and only if its nonce is not 0 or something of its client
  was committed.  The table of nonces is the same after any
  calls that commit the same transactions.
-/
theorem replay_filter_exact_iff
    (tx : Tx)
    (size : Nat)
    (hTrace :
      Machine.Trace (step order) (new batchSize) past
        pool) :
    (FilterExact past pool tx size ↔
      (keyOf tx).2 ≠ 0 ∨
        ∃ nonce, Committed past ((keyOf tx).1, nonce)) ∧
    ∀ order' batchSize' past' (pool' : Txpool Tx),
      Machine.Trace (step order') (new batchSize') past'
          pool' →
        (∀ key,
          Committed past' key ↔ Committed past key) →
        pool'.highCommittedNonce =
          pool.highCommittedNonce := by
  have hMarks := marks_of_trace hTrace
  have hInv :=
    (repInv_keyed_of_reach hTrace.reach_any).1
  refine ⟨⟨?_, ?_⟩, ?_⟩
  · intro hExact
    by_contra hZero
    rw [not_or, not_not, not_exists] at hZero
    rcases hZero with ⟨hNonce, hNone⟩
    have hLow : (keyOf tx).2 ≤ pool.hi (keyOf tx).1 := by
      rw [hNonce]
      exact Nat.zero_le _
    rcases hExact.drops_iff.mp (drops_of_le hInv hLow) with
      ⟨entry, hFlight⟩ | ⟨nonce, _, hCommitted⟩
    · have hPos := nonce_pos_of_inflight hTrace.reach_any
        (txState_of_inflight hFlight)
      exact absurd hNonce (Nat.pos_iff_ne_zero.mp hPos)
    · exact hNone nonce hCommitted
  · intro hKnown
    have hLowIff :
        (keyOf tx).2 ≤ pool.hi (keyOf tx).1 ↔
          ∃ nonce,
            (keyOf tx).2 ≤ nonce ∧
              Committed past ((keyOf tx).1, nonce) :=
      hMarks.le_iff
        (hKnown.imp_left Nat.pos_iff_ne_zero.mpr)
    have hInserts :
        ¬ Blocked past pool (keyOf tx) →
          Inserts tx size pool ∨
            (pool.addTx tx size =
                .error .bytesOverflow ∧
              2 ^ 64 ≤ pool.heldBytes + size) := by
      intro hFree
      rw [Blocked, not_or, ← hLowIff, Nat.not_le] at hFree
      apply addTx_inserts hInv hFree.2
      exact Option.eq_none_iff_forall_ne_some.mpr
        (fun entry hFlight => hFree.1 ⟨entry, hFlight⟩)
    refine ⟨⟨?_, ?_⟩, hInserts⟩
    · intro hDrops
      by_contra hFree
      rcases hInserts hFree with hOk | ⟨hError, _⟩
      · exact hDrops.not_inserts hOk
      · rw [hDrops.1] at hError
        cases hError
    · intro hBlocked
      rcases hBlocked with ⟨entry, hFlight⟩ | hReached
      · exact drops_of_inflight hInv hFlight
      · exact drops_of_le hInv (hLowIff.mpr hReached)
  · intro order' batchSize' past' pool' hTrace' hSame
    exact ((marks_of_trace hTrace').congr hSame).unique
      hMarks

/- The first transaction of a client, with the nonce 0. -/
theorem nonce_zero_dropped :
    (new 10 : Txpool Transaction).addTx
        (transaction 1 0) 10 = .ok (new 10) ∧
      ¬ Blocked [] (new 10 : Txpool Transaction)
        (keyOf (transaction 1 0)) ∧
      ¬ FilterExact [] (new 10) (transaction 1 0) 10 := by
  have hFree :
      ¬ Blocked [] (new 10 : Txpool Transaction)
        (keyOf (transaction 1 0)) := by
    intro hBlocked
    rcases hBlocked with
      ⟨entry, hFlight⟩ | ⟨nonce, _, _, hMem, _⟩
    · simp [new] at hFlight
    · exact List.not_mem_nil hMem
  refine ⟨rfl, hFree, ?_⟩
  intro hExact
  exact hFree (hExact.drops_iff.mp ⟨rfl, rfl⟩)

/- A transaction is proposed and committed. -/
def committedRun : List (Op Transaction) :=
  [.admitProposal ⟨[transaction 1 5]⟩ 1,
    .commit ⟨[transaction 1 5]⟩ 1]

/- A replay and a first transaction after the commit. -/
theorem replay_filter_exact_after_commit :
    ∃ (past : List (Txpool Transaction × Op Transaction))
        (pool : Txpool Transaction),
      Machine.Trace (step sortedOrder) (new 10) past
          pool ∧
        past.map Prod.snd = committedRun ∧
        FilterExact past pool (transaction 1 3) 10 ∧
        FilterExact past pool (transaction 2 1) 7 := by
  have hRun :
      Machine.runCheck (step sortedOrder)
        (fun _ _ => true) (fun _ => true)
        (new 10) committedRun = true := by
    decide +kernel
  rcases Machine.Trace.of_runCheck
      (Machine.Trace.start) hRun with
    ⟨past, pool, hTrace, hEvents, _⟩
  exact ⟨past, pool, hTrace, hEvents,
    (replay_filter_exact_iff (transaction 1 3) 10
      hTrace).1.mpr (Or.inl (by decide)),
    (replay_filter_exact_iff (transaction 2 1) 7
      hTrace).1.mpr (Or.inl (by decide))⟩

end Txpool

end LibApollo

------------------------------------------------------------
-- Superseded Transactions
------------------------------------------------------------

namespace LibApollo

namespace Txpool

variable {Tx : Type} [MempoolTx Tx]
variable {order : IterOrder}
variable {batchSize : Nat}
variable {pool pool' : Txpool Tx}
variable {op : Op Tx}
variable {batch : CachedBatch Tx}
variable {round : Nat}
variable {key : TxKey}

/-
  The batch has a transaction of the client, and it or an
  earlier commit reaches the nonce of the key.
-/
def Superseded
    (batch : CachedBatch Tx)
    (pool : Txpool Tx)
    (key : TxKey) : Prop :=
  ∃ tx ∈ batch.payload,
    MempoolTx.clientId tx = key.1 ∧
      (key.2 ≤ pool.hi key.1 ∨ key.2 ≤ MempoolTx.nonce tx)

/- What is in flight and superseded is in the batch. -/
def Collects
    (pool : Txpool Tx)
    (batch : CachedBatch Tx) : Prop :=
  ∀ key entry,
    pool.inflight.lookup key = some entry →
      Superseded batch pool key →
      key ∈ batch.payload.map keyOf

/- No superseded key of a client of the batch is left. -/
def Cleared
    (batch : CachedBatch Tx)
    (pool : Txpool Tx) : Prop :=
  ∀ key,
    (∃ tx ∈ batch.payload,
      MempoolTx.clientId tx = key.1) →
      key.2 ≤ pool.hi key.1 →
      key ∉ pool.mineable ∧ key ∉ pool.inflight

/- Nonces that are reached after some keys are entered. -/
theorem le_foldl_markNonce
    (nonces : FinMap ClientId Nat)
    (added : List TxKey)
    (client : ClientId)
    (nonce : Nat) :
    nonce ≤ ((added.foldl markNonce nonces).lookup
        client).getD 0 ↔
      nonce ≤ (nonces.lookup client).getD 0 ∨
        ∃ key ∈ added, key.1 = client ∧ nonce ≤ key.2 := by
  induction added generalizing nonces with
  | nil => simp
  | cons first rest ih =>
      have hFirst :
          nonce ≤ ((markNonce nonces first).lookup
              client).getD 0 ↔
            nonce ≤ (nonces.lookup client).getD 0 ∨
              first.1 = client ∧ nonce ≤ first.2 := by
        unfold markNonce
        rw [FinMap.lookup_insert_eq]
        by_cases hClient : client = first.1
        · rw [if_pos hClient, Option.getD_some, hClient,
            le_max_iff]
          simp
        · rw [if_neg hClient]
          have hOther : first.1 ≠ client := Ne.symm hClient
          simp [hOther]
      rw [List.foldl_cons, ih, hFirst, or_assoc]
      simp

/- The nonces that are reached after a commit. -/
theorem Records.le_hi_iff
    (hRecords : Records batch.payload pool pool')
    (key : TxKey) :
    key.2 ≤ pool'.hi key.1 ↔
      key.2 ≤ pool.hi key.1 ∨
        ∃ tx ∈ batch.payload,
          MempoolTx.clientId tx = key.1 ∧
            key.2 ≤ MempoolTx.nonce tx := by
  rw [hi, hRecords.nonces, le_foldl_markNonce]
  refine or_congr Iff.rfl ?_
  constructor
  · intro hReached
    rcases hReached with ⟨_, hMem, hClient, hNonce⟩
    rcases List.mem_map.mp hMem with ⟨tx, hTx, rfl⟩
    exact ⟨tx, hTx, hClient, hNonce⟩
  · intro hReached
    rcases hReached with ⟨tx, hTx, hClient, hNonce⟩
    exact ⟨keyOf tx, List.mem_map_of_mem hTx, hClient,
      hNonce⟩

/- Superseded keys, seen after the commit. -/
theorem Records.superseded_iff
    (hRecords : Records batch.payload pool pool')
    (key : TxKey) :
    Superseded batch pool key ↔
      (∃ tx ∈ batch.payload,
        MempoolTx.clientId tx = key.1) ∧
        key.2 ≤ pool'.hi key.1 := by
  rw [hRecords.le_hi_iff]
  constructor
  · intro hOver
    rcases hOver with ⟨tx, hTx, hClient, hLow | hNonce⟩
    · exact ⟨⟨tx, hTx, hClient⟩, Or.inl hLow⟩
    · exact ⟨⟨tx, hTx, hClient⟩,
        Or.inr ⟨tx, hTx, hClient, hNonce⟩⟩
  · intro hBoth
    rcases hBoth with
      ⟨⟨tx, hTx, hClient⟩, hLow | hReached⟩
    · exact ⟨tx, hTx, hClient, Or.inl hLow⟩
    · rcases hReached with ⟨other, hOther, hSame, hNonce⟩
      exact ⟨other, hOther, hSame, Or.inr hNonce⟩

omit [MempoolTx Tx] in
theorem RepInv.not_mineable
    (hInv : RepInv pool)
    (hLow : key.2 ≤ pool.hi key.1) :
    key ∉ pool.mineable := by
  intro hMem
  rcases Option.isSome_iff_exists.mp
      (Finmap.lookup_isSome.mpr hMem) with ⟨entry, hMine⟩
  have hHigh :=
    hInv.fresh key entry hMine (Finset.notMem_empty _)
  exact Nat.not_lt.mpr hLow hHigh

/- What is left of the superseded keys was in flight. -/
theorem cleared_iff
    (hInv : RepInv pool')
    (hRecords : Records batch.payload pool pool') :
    Cleared batch pool' ↔ Collects pool batch := by
  constructor
  · intro hCleared key entry hFlight hOver
    by_contra hMem
    rcases (hRecords.superseded_iff key).mp hOver with
      ⟨hClient, hLow⟩
    apply (hCleared key hClient hLow).2
    apply Finmap.mem_of_lookup_eq_some
    rw [hRecords.inflight, if_neg hMem]
    exact hFlight
  · intro hCollects key hClient hLow
    refine ⟨hInv.not_mineable hLow, ?_⟩
    apply Finmap.lookup_eq_none.mp
    rw [hRecords.inflight]
    split
    · rfl
    · rename_i hMem
      apply Option.eq_none_iff_forall_ne_some.mpr
      intro entry hFlight
      exact hMem (hCollects key entry hFlight
        ((hRecords.superseded_iff key).mpr
          ⟨hClient, hLow⟩))

/- Every key in flight is above the nonce of its client. -/
def FlightFresh (pool : Txpool Tx) : Prop :=
  ∀ key entry,
    pool.inflight.lookup key = some entry →
      pool.hi key.1 < key.2

/- Commits that collect leave nothing behind. -/
theorem FlightFresh.step
    (hFresh : FlightFresh pool)
    (hInv : RepInv pool)
    (hKeyed : Keyed pool)
    (hCollects :
      ∀ batch round, op = .commit batch round →
        Collects pool batch)
    (hStep : Txpool.step order pool op = .ok pool') :
    FlightFresh pool' := by
  intro key entry hFlight
  rcases nonces_of_step hInv hKeyed hStep with
    hSame | ⟨batch, round, rfl⟩
  · have hMoves :=
      (moves_of_step hInv hKeyed hStep key).2.2
    rw [txState_of_inflight hFlight] at hMoves
    rw [hi, hSame]
    generalize hOld : pool.txState key = old at hMoves
    cases hMoves with
    | stay =>
        rcases txState_eq_inFlight hOld with
          ⟨old, hLookup, _⟩
        exact hFresh key old hLookup
    | batch _ hHigh => exact hHigh
    | admission _ _ _ hHigh _ => exact hHigh
  · have hRecords := commit_records hStep
    rw [hRecords.inflight] at hFlight
    split at hFlight
    · cases hFlight
    · rename_i hMem
      by_contra hLow
      rcases (hRecords.le_hi_iff key).mp
          (Nat.not_lt.mp hLow) with
        hOld | ⟨tx, hTx, hClient, hNonce⟩
      · exact Nat.not_lt.mpr hOld
          (hFresh key entry hFlight)
      · exact hMem
          (hCollects batch round rfl key entry hFlight
            ⟨tx, hTx, hClient, Or.inr hNonce⟩)

/-
  In every reached pool a commit leaves no superseded key of
  its clients if and only if those in flight are all in the
  batch.  When every commit of a run is like that, no pooled
  key is superseded at any time.
-/
theorem commit_collects_iff
    (hReach :
      Machine.Reach (step order) (fun _ _ => True)
        (new batchSize) pool) :
    (∀ batch round,
      ∃ after,
        pool.commit order batch round = .ok after ∧
          (Cleared batch after ↔ Collects pool batch)) ∧
    (Machine.Reach (step order)
        (fun before op =>
          ∀ batch round, op = .commit batch round →
            Collects before batch)
        (new batchSize) pool →
      ∀ key,
        key ∈ pool.mineable ∨ key ∈ pool.inflight →
          pool.hi key.1 < key.2) := by
  have hInv := (repInv_keyed_of_reach hReach).1
  constructor
  · intro batch round
    have hYields := hInv.commit order batch round
    cases hCommit : pool.commit order batch round with
    | error panic =>
        rw [hCommit] at hYields
        exact False.elim hYields
    | ok after =>
        rw [hCommit] at hYields
        exact ⟨after, rfl,
          cleared_iff hYields (commit_records hCommit)⟩
  · intro hCollecting key hPooled
    have hAll :
        RepInv pool ∧ Keyed pool ∧ FlightFresh pool := by
      apply hCollecting.invariant
        (fun pool =>
          RepInv pool ∧ Keyed pool ∧ FlightFresh pool)
      · refine ⟨repInv_new batchSize,
          keyed_new batchSize, ?_⟩
        intro key entry hFlight
        simp [new] at hFlight
      · intro pool pool' op hBefore hGuard hStep
        rcases hBefore with ⟨hRep, hKeyed, hFresh⟩
        exact ⟨repInv_of_step hRep hStep,
          (moves_of_step hRep hKeyed hStep (0, 0)).1,
          hFresh.step hRep hKeyed hGuard hStep⟩
    rcases hPooled with hMine | hFlight
    · by_contra hLow
      exact hInv.not_mineable (Nat.not_lt.mp hLow) hMine
    · rcases Option.isSome_iff_exists.mp
          (Finmap.lookup_isSome.mpr hFlight) with
        ⟨entry, hLookup⟩
      exact hAll.2.2 key entry hLookup

/- A transaction is proposed in round 2. -/
def proposedRun : List (Op Transaction) :=
  [.addTx (transaction 1 5) 10,
    .admitProposal ⟨[transaction 1 5]⟩ 2]

/- A higher nonce commits and the lower one stays. -/
theorem superseded_in_flight :
    ∃ pool after : Txpool Transaction,
      Machine.Reach (step sortedOrder) (fun _ _ => True)
          (new 10) pool ∧
        pool.commit sortedOrder ⟨[transaction 1 7]⟩ 2 =
          .ok after ∧
        (1, 5) ∈ after.inflight ∧
        after.hi 1 = 7 ∧
        ¬ Cleared ⟨[transaction 1 7]⟩ after := by
  have hRun :
      Machine.runCheck (step sortedOrder)
        (fun _ _ => true)
        (fun pool =>
          match pool.commit sortedOrder
              ⟨[transaction 1 7]⟩ 2 with
          | .ok after =>
              decide ((1, 5) ∈ after.inflight) &&
                decide (after.hi 1 = 7)
          | .error _ => false)
        (new 10) proposedRun = true := by
    decide +kernel
  rcases Machine.Reach.of_runCheck
      (fun _ _ _ => trivial) hRun with
    ⟨pool, hReach, hFinal⟩
  cases hCommit :
      pool.commit sortedOrder ⟨[transaction 1 7]⟩ 2 with
  | error panic =>
      rw [hCommit] at hFinal
      cases hFinal
  | ok after =>
      simp only [hCommit, Bool.and_eq_true,
        decide_eq_true_eq] at hFinal
      rcases hFinal with ⟨hFlight, hHi⟩
      refine ⟨pool, after, hReach, hCommit, hFlight, hHi,
        ?_⟩
      intro hCleared
      have hGone := hCleared (1, 5)
        ⟨transaction 1 7, List.mem_singleton_self _, rfl⟩
        (by rw [hHi]; decide)
      exact hGone.2 hFlight

/- Executable form of the kind of a call. -/
def Op.isCommit : Op Transaction → Bool
| .commit _ _ => true
| _ => false

/- The proposed transaction itself commits. -/
theorem commit_collects_proposed :
    ∃ pool after : Txpool Transaction,
      pool.commit sortedOrder ⟨[transaction 1 5]⟩ 2 =
          .ok after ∧
        Cleared ⟨[transaction 1 5]⟩ after ∧
        ∀ key,
          key ∈ pool.mineable ∨ key ∈ pool.inflight →
            pool.hi key.1 < key.2 := by
  have hRun :
      Machine.runCheck (step sortedOrder)
        (fun _ op => !op.isCommit)
        (fun pool =>
          decide (pool.inflight.keys ⊆ {(1, 5)}))
        (new 10) proposedRun = true := by
    decide +kernel
  have hSound :
      ∀ (before : Txpool Transaction)
          (op : Op Transaction),
        (!op.isCommit) = true →
          ∀ batch round, op = .commit batch round →
            Collects before batch := by
    intro before op hCheck batch round hOp
    rw [hOp] at hCheck
    cases hCheck
  rcases Machine.Reach.of_runCheck hSound hRun with
    ⟨pool, hReach, hKeys⟩
  have hBoth := commit_collects_iff
    (hReach.mono (fun _ _ _ => trivial))
  rcases hBoth.1 ⟨[transaction 1 5]⟩ 2 with
    ⟨after, hCommit, hIff⟩
  refine ⟨pool, after, hCommit, hIff.mpr ?_,
    hBoth.2 hReach⟩
  intro key entry hFlight _
  have hMem := (of_decide_eq_true hKeys)
    (Finmap.mem_keys.mpr
      (Finmap.mem_of_lookup_eq_some hFlight))
  rw [Finset.mem_singleton] at hMem
  rw [hMem]
  exact List.mem_singleton_self _

end Txpool

end LibApollo
