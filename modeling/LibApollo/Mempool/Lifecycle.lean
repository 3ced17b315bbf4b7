import LibApollo.Mempool.RepInvariant

/-
  The life of one transaction in the pool.

  A key is unknown, mineable or in flight at the round it
  was proposed in.  Every operation of the pool moves each
  key along the transitions of this machine, and raises the
  committed nonce of a client on commits only.  So a key
  that was added is held until its nonce is committed.

  Key definitions include:
    * `Txpool.TxState`, `Txpool.txState`
    * `Txpool.Keyed`
    * `Txpool.Moves`

  Key theorems include:
    * `Txpool.moves_of_step`
    * `Txpool.no_loss`
-/

------------------------------------------------------------
-- The State of a Key
------------------------------------------------------------

namespace LibApollo

namespace Txpool

inductive TxState where
| unknown
| mineable
| inFlight (round : Nat)
deriving DecidableEq, Repr

variable {Tx : Type}

def txState (pool : Txpool Tx) (key : TxKey) : TxState :=
  match pool.inflight.lookup key with
  | some entry => .inFlight entry.round
  | none =>
      match pool.mineable.lookup key with
      | some _ => .mineable
      | none => .unknown

variable {pool pool' : Txpool Tx}
variable {key : TxKey}

theorem txState_of_inflight
    {entry : InflightEntry Tx}
    (hLookup : pool.inflight.lookup key = some entry) :
    pool.txState key = .inFlight entry.round := by
  rw [txState, hLookup]

theorem txState_of_mineable
    {entry : Tx × Nat}
    (hFlight : pool.inflight.lookup key = none)
    (hLookup : pool.mineable.lookup key = some entry) :
    pool.txState key = .mineable := by
  rw [txState, hFlight, hLookup]

theorem txState_of_none
    (hFlight : pool.inflight.lookup key = none)
    (hLookup : pool.mineable.lookup key = none) :
    pool.txState key = .unknown := by
  rw [txState, hFlight, hLookup]

/- Only the two entries of a key count. -/
theorem txState_congr
    (hFlight :
      pool'.inflight.lookup key = pool.inflight.lookup key)
    (hMine :
      pool'.mineable.lookup key =
        pool.mineable.lookup key) :
    pool'.txState key = pool.txState key := by
  rw [txState, txState, hFlight, hMine]

theorem inFlight_iff :
    (∃ round, pool.txState key = .inFlight round) ↔
      (pool.inflight.lookup key).isSome = true := by
  unfold txState
  split
  · rename_i entry hLookup
    simp [hLookup]
  · rename_i hLookup
    split
    · simp [hLookup]
    · simp [hLookup]

theorem txState_eq_mineable
    (hState : pool.txState key = .mineable) :
    ∃ entry,
      pool.mineable.lookup key = some entry ∧
        pool.inflight.lookup key = none := by
  unfold txState at hState
  split at hState
  · cases hState
  · rename_i hFlight
    split at hState
    · rename_i entry hLookup
      exact ⟨entry, hLookup, hFlight⟩
    · cases hState

theorem txState_eq_inFlight
    {round : Nat}
    (hState : pool.txState key = .inFlight round) :
    ∃ entry,
      pool.inflight.lookup key = some entry ∧
        entry.round = round := by
  unfold txState at hState
  split at hState
  · rename_i entry hLookup
    cases hState
    exact ⟨entry, hLookup, rfl⟩
  · split at hState
    · cases hState
    · cases hState

/- A dropped key is unknown, unless it is in flight. -/
theorem txState_dropMineable
    (pool : Txpool Tx)
    (dropped key : TxKey) :
    (pool.dropMineable dropped).txState key =
      if key = dropped ∧ pool.txState key = .mineable then
        .unknown
      else
        pool.txState key := by
  by_cases hKey : key = dropped
  · subst hKey
    unfold txState dropMineable
    dsimp only
    rw [FinMap.lookup_erase_eq, if_pos rfl]
    cases pool.inflight.lookup key with
    | some entry => simp
    | none =>
        cases pool.mineable.lookup key with
        | some entry => simp
        | none => simp
  · rw [if_neg (fun hBoth => hKey hBoth.1)]
    apply txState_congr
    · rfl
    · exact (FinMap.lookup_erase_eq _ _ _).trans
        (if_neg hKey)

theorem txState_addInflight
    (pool : Txpool Tx)
    (added key : TxKey)
    (entry : InflightEntry Tx) :
    (pool.addInflight added entry).txState key =
      if key = added then .inFlight entry.round
      else pool.txState key := by
  have hLookup :
      (pool.addInflight added entry).inflight.lookup key =
        if key = added then some entry
        else pool.inflight.lookup key :=
    FinMap.lookup_insert_eq _ _ _ _
  by_cases hKey : key = added
  · rw [if_pos hKey] at hLookup ⊢
    exact txState_of_inflight hLookup
  · rw [if_neg hKey] at hLookup ⊢
    exact txState_congr hLookup rfl

end Txpool

end LibApollo

------------------------------------------------------------
-- Adding and Batching
------------------------------------------------------------

namespace LibApollo

namespace Txpool

open Result

variable {Tx : Type} [MempoolTx Tx]
variable {stale : Finset ClientId}
variable {orphan : TxKey → Nat → Prop}
variable {pool pool' : Txpool Tx}
variable {key : TxKey}

/- Entries hold transactions of their own key. -/
structure Keyed (pool : Txpool Tx) : Prop where
  mineable :
    ∀ key entry,
      pool.mineable.lookup key = some entry →
        keyOf entry.1 = key
  inflight :
    ∀ key entry,
      pool.inflight.lookup key = some entry →
        keyOf entry.tx = key

/- Proposed, or committed: the key is not to be mined. -/
def Taken (pool : Txpool Tx) (key : TxKey) : Prop :=
  (∃ round, pool.txState key = .inFlight round) ∨
    key.2 ≤ pool.hi key.1

theorem keyed_new
    (batchSize : Nat) :
    Keyed (new batchSize : Txpool Tx) where
  mineable := by
    intro key entry hLookup
    simp [new] at hLookup
  inflight := by
    intro key entry hLookup
    simp [new] at hLookup

theorem Keyed.dropMineable
    (hKeyed : Keyed pool)
    (dropped : TxKey) :
    Keyed (pool.dropMineable dropped) where
  mineable := FinMap.forall_erase hKeyed.mineable
  inflight := hKeyed.inflight

theorem Keyed.addInflight
    {entry : InflightEntry Tx}
    (hKeyed : Keyed pool)
    (hEntry : keyOf entry.tx = key) :
    Keyed (pool.addInflight key entry) where
  mineable := hKeyed.mineable
  inflight := FinMap.forall_insert hKeyed.inflight hEntry

/- What adding a transaction does to the keys. -/
theorem addTx_moves
    {tx : Tx}
    {size : Nat}
    (hInv : RepInv pool)
    (hKeyed : Keyed pool)
    (hAdd : pool.addTx tx size = .ok pool') :
    Keyed pool' ∧
      pool'.highCommittedNonce =
        pool.highCommittedNonce ∧
      (pool.hi (keyOf tx).1 < (keyOf tx).2 →
        pool'.txState (keyOf tx) ≠ .unknown) ∧
      ∀ key,
        pool'.txState key = pool.txState key ∨
          (key = keyOf tx ∧ pool.hi key.1 < key.2 ∧
            pool.txState key = .unknown ∧
            pool'.txState key = .mineable) := by
  unfold addTx at hAdd
  dsimp only at hAdd
  split at hAdd
  · rename_i hLow
    cases hAdd
    exact ⟨hKeyed, rfl,
      fun hHigh => absurd hHigh (Nat.not_lt.mpr hLow),
      fun key => Or.inl rfl⟩
  · rename_i hHigh
    split at hAdd
    · rename_i hFlight
      cases hAdd
      refine ⟨hKeyed, rfl, ?_, fun key => Or.inl rfl⟩
      intro _ hUnknown
      rcases inFlight_iff.mpr hFlight with ⟨round, hState⟩
      rw [hState] at hUnknown
      cases hUnknown
    · rename_i hFlight
      have hAbsent :
          pool.inflight.lookup (keyOf tx) = none := by
        simpa using hFlight
      rw [insertMineable_eq hInv.bytes] at hAdd
      change addBytes size _ = .ok pool' at hAdd
      unfold addBytes at hAdd
      dsimp only at hAdd
      split at hAdd
      · cases hAdd
        have hState :
            txState
              { pool with
                mineable :=
                  pool.mineable.insert (keyOf tx) (tx, size)
                mineableBytes :=
                  bytesOf
                      (pool.mineable.erase (keyOf tx)) +
                    size } (keyOf tx) = .mineable :=
          txState_of_mineable hAbsent
            ((FinMap.lookup_insert_eq _ _ _ _).trans
              (if_pos rfl))
        refine ⟨⟨?_, hKeyed.inflight⟩, rfl, ?_, ?_⟩
        · exact FinMap.forall_insert hKeyed.mineable rfl
        · intro _
          rw [hState]
          simp
        · intro key
          by_cases hKey : key = keyOf tx
          · subst hKey
            cases hMine :
                pool.mineable.lookup (keyOf tx) with
            | some entry =>
                left
                rw [hState,
                  txState_of_mineable hAbsent hMine]
            | none =>
                right
                exact ⟨rfl, Nat.not_le.mp hHigh,
                  txState_of_none hAbsent hMine, hState⟩
          · left
            exact txState_congr rfl
              ((FinMap.lookup_insert_eq _ _ _ _).trans
                (if_neg hKey))
      · cases hAdd

/- One transaction of a proposal moves its key only. -/
theorem admitTx_eq
    {tx : Tx}
    {round : Nat}
    (hInv : PoolInv stale orphan pool)
    (hAdmit : admitTx round pool tx = .ok pool') :
    (pool' = pool ∧ Taken pool (keyOf tx)) ∨
      (pool.hi (keyOf tx).1 < (keyOf tx).2 ∧
        pool.inflight.lookup (keyOf tx) = none ∧
        ∃ size,
          pool' =
            (pool.dropMineable (keyOf tx)).addInflight
              (keyOf tx)
              { tx := tx, size := size, round := round }) := by
  unfold admitTx at hAdmit
  dsimp only at hAdmit
  split at hAdmit
  · rename_i hLow
    cases hAdmit
    exact Or.inl ⟨rfl, Or.inr hLow⟩
  · rename_i hHigh
    split at hAdmit
    · rename_i hFlight
      cases hAdmit
      exact Or.inl ⟨rfl, Or.inl (inFlight_iff.mpr hFlight)⟩
    · rename_i hFlight
      rw [removeMineable_eq hInv.bytes] at hAdmit
      cases hAdmit
      exact Or.inr ⟨Nat.not_le.mp hHigh, by
        simpa using hFlight, _, rfl⟩

/- The key keeps its state or is put in flight. -/
structure Promotes
    (round : Nat)
    (key : TxKey)
    (pool pool' : Txpool Tx) : Prop where
  nonces :
    pool'.highCommittedNonce = pool.highCommittedNonce
  state :
    pool'.txState key = pool.txState key ∨
      (pool.hi key.1 < key.2 ∧
        (∀ r, pool.txState key ≠ .inFlight r) ∧
        pool'.txState key = .inFlight round)

omit [MempoolTx Tx] in
theorem Promotes.hi_eq
    {round : Nat}
    (hPromotes : Promotes round key pool pool')
    (client : ClientId) :
    pool'.hi client = pool.hi client := by
  rw [hi, hi, hPromotes.nonces]

omit [MempoolTx Tx] in
theorem Promotes.trans
    {round : Nat}
    {mid : Txpool Tx}
    (hFirst : Promotes round key pool mid)
    (hSecond : Promotes round key mid pool') :
    Promotes round key pool pool' := by
  refine ⟨hSecond.nonces.trans hFirst.nonces, ?_⟩
  rcases hSecond.state with hSame | ⟨hHigh, hIdle, hNow⟩
  · rw [hSame]
    exact hFirst.state
  · rcases hFirst.state with hSame | ⟨_, _, hMid⟩
    · right
      rw [hFirst.hi_eq] at hHigh
      rw [hSame] at hIdle
      exact ⟨hHigh, hIdle, hNow⟩
    · exact absurd hMid (hIdle round)

omit [MempoolTx Tx] in
theorem Taken.promotes
    {round : Nat}
    (hTaken : Taken pool key)
    (hPromotes : Promotes round key pool pool') :
    Taken pool' key := by
  rcases hTaken with hFlight | hLow
  · rcases hPromotes.state with hSame | ⟨_, _, hNow⟩
    · left
      rw [hSame]
      exact hFlight
    · exact Or.inl ⟨round, hNow⟩
  · right
    rw [hPromotes.hi_eq]
    exact hLow

theorem admitTx_moves
    {tx : Tx}
    {round : Nat}
    (hInv : PoolInv stale orphan pool)
    (hKeyed : Keyed pool)
    (hAdmit : admitTx round pool tx = .ok pool')
    (key : TxKey) :
    Keyed pool' ∧
      Promotes round key pool pool' ∧
      (keyOf tx = key → Taken pool' key) := by
  rcases admitTx_eq hInv hAdmit with
    ⟨rfl, hTaken⟩ | ⟨hHigh, hFlight, size, rfl⟩
  · refine ⟨hKeyed, ⟨rfl, Or.inl rfl⟩, ?_⟩
    intro hKey
    rw [← hKey]
    exact hTaken
  · have hState :=
      txState_addInflight (pool.dropMineable (keyOf tx))
        (keyOf tx) key
        { tx := tx, size := size, round := round }
    refine ⟨(hKeyed.dropMineable _).addInflight rfl,
      ⟨rfl, ?_⟩, ?_⟩
    · by_cases hKey : key = keyOf tx
      · subst hKey
        right
        rw [if_pos rfl] at hState
        refine ⟨hHigh, ?_, hState⟩
        intro r hRound
        rcases txState_eq_inFlight hRound with
          ⟨entry, hEntry, _⟩
        rw [hFlight] at hEntry
        cases hEntry
      · left
        rw [if_neg hKey, txState_dropMineable,
          if_neg (fun hBoth => hKey hBoth.1)] at hState
        exact hState
    · intro hKey
      rw [if_pos hKey.symm] at hState
      exact Or.inl ⟨round, hState⟩

/- What an admitted proposal does to a key. -/
theorem admitLoop_moves
    {payload : List Tx}
    {round : Nat}
    (hInv : PoolInv stale orphan pool)
    (hKeyed : Keyed pool)
    (hAdmit :
      payload.foldlM (admitTx round) pool = .ok pool')
    (key : TxKey) :
    Keyed pool' ∧
      Promotes round key pool pool' ∧
      (key ∈ payload.map keyOf → Taken pool' key) := by
  induction payload generalizing pool with
  | nil =>
      cases hAdmit
      exact ⟨hKeyed, ⟨rfl, Or.inl rfl⟩, fun hMem =>
        absurd hMem List.not_mem_nil⟩
  | cons tx payload ih =>
      rw [List.foldlM_cons] at hAdmit
      rcases Result.bind_eq_ok.mp hAdmit with
        ⟨mid, hFirst, hRest⟩
      have hInvMid : PoolInv stale orphan mid := by
        have hYields := hInv.admitTx round tx
        rw [hFirst] at hYields
        exact hYields
      rcases admitTx_moves hInv hKeyed hFirst key with
        ⟨hKeyedMid, hStep, hTaken⟩
      rcases ih hInvMid hKeyedMid hRest with
        ⟨hKeyed', hLater, hTaken'⟩
      refine ⟨hKeyed', hStep.trans hLater, ?_⟩
      intro hMem
      rcases List.mem_cons.mp hMem with hKey | hIn
      · exact (hTaken hKey.symm).promotes hLater
      · exact hTaken' hIn

theorem admitProposal_moves
    {batch : CachedBatch Tx}
    {round : Nat}
    (hInv : RepInv pool)
    (hKeyed : Keyed pool)
    (hAdmit :
      pool.admitProposal batch round = .ok pool')
    (key : TxKey) :
    Keyed pool' ∧
      Promotes round key pool pool' ∧
      (key ∈ batch.payload.map keyOf →
        Taken pool' key) := by
  have hOpen : Keyed (pool.openRound round) :=
    ⟨hKeyed.mineable, hKeyed.inflight⟩
  have hStart :
      Promotes round key pool (pool.openRound round) :=
    ⟨rfl, Or.inl rfl⟩
  rcases admitLoop_moves (PoolInv.openRound round hInv)
      hOpen hAdmit key with ⟨hKeyed', hMoves, hTaken⟩
  exact ⟨hKeyed', hStart.trans hMoves, hTaken⟩

/-
  The batch takes mineable keys, each once, and puts just
  them in flight.
-/
structure Batches
    (round : Nat)
    (payload : List Tx)
    (pool pool' : Txpool Tx) : Prop where
  nonces :
    pool'.highCommittedNonce = pool.highCommittedNonce
  nodup : (payload.map keyOf).Nodup
  batched :
    ∀ key ∈ payload.map keyOf,
      pool.txState key = .mineable ∧
        pool'.txState key = .inFlight round
  others :
    ∀ key, key ∉ payload.map keyOf →
      pool'.txState key = pool.txState key

theorem Batches.nil
    (round : Nat)
    (pool : Txpool Tx) : Batches round [] pool pool where
  nonces := rfl
  nodup := List.nodup_nil
  batched := fun _ hMem => absurd hMem List.not_mem_nil
  others := fun _ _ => rfl

theorem Batches.cons
    {round size : Nat}
    {tx : Tx}
    {added : List Tx}
    (hMine : pool.txState (keyOf tx) = .mineable)
    (hRest :
      Batches round added
        ((pool.dropMineable (keyOf tx)).addInflight
          (keyOf tx)
          { tx := tx, size := size, round := round })
        pool') :
    Batches round (tx :: added) pool pool' := by
  have hMid :
      ∀ key,
        ((pool.dropMineable (keyOf tx)).addInflight
          (keyOf tx)
          { tx := tx
            size := size
            round := round }).txState key =
          if key = keyOf tx then .inFlight round
          else pool.txState key := by
    intro key
    rw [txState_addInflight]
    split
    · rfl
    · rename_i hKey
      rw [txState_dropMineable,
        if_neg (fun hBoth => hKey hBoth.1)]
  -- the first key is in flight already
  have hFresh : keyOf tx ∉ added.map keyOf := by
    intro hMem
    have hState := (hRest.batched _ hMem).1
    rw [hMid, if_pos rfl] at hState
    cases hState
  refine
    { nonces := hRest.nonces
      nodup := List.nodup_cons.mpr ⟨hFresh, hRest.nodup⟩
      batched := ?_
      others := ?_ }
  · intro key hMem
    rcases List.mem_cons.mp hMem with rfl | hIn
    · refine ⟨hMine, ?_⟩
      rw [hRest.others _ hFresh, hMid, if_pos rfl]
    · have hNe : key ≠ keyOf tx := by
        intro hEq
        rw [hEq] at hIn
        exact hFresh hIn
      rcases hRest.batched key hIn with ⟨hBefore, hAfter⟩
      rw [hMid, if_neg hNe] at hBefore
      exact ⟨hBefore, hAfter⟩
  · intro key hNot
    rcases not_or.mp (mt List.mem_cons.mpr hNot) with
      ⟨hNe, hNotIn⟩
    rw [hRest.others key hNotIn, hMid, if_neg hNe]

theorem makeBatchLoop_moves
    {round fuel batchBytes : Nat}
    {payload payload' : List Tx}
    (hInv : PoolInv stale orphan pool)
    (hKeyed : Keyed pool)
    (hLoop :
      makeBatchLoop round fuel batchBytes payload pool =
        .ok (payload', pool')) :
    Keyed pool' ∧
      ∃ added,
        payload' = payload ++ added ∧
          Batches round added pool pool' := by
  induction fuel generalizing batchBytes payload pool with
  | zero =>
      cases hLoop
      exact ⟨hKeyed, [], (List.append_nil _).symm,
        Batches.nil round _⟩
  | succ fuel ih =>
      rcases makeBatchLoop_cases hInv hLoop with
        ⟨_, rfl, rfl⟩ |
          ⟨first, tx, size, _, _, hLookup, hRest⟩
      · exact ⟨hKeyed, [], (List.append_nil _).symm,
          Batches.nil round _⟩
      · have hKey : keyOf tx = first :=
          hKeyed.mineable first _ hLookup
        subst hKey
        have hFlight := hInv.inflight_of_mineable hLookup
        rcases ih (hInv.promote round hLookup)
            ((hKeyed.dropMineable _).addInflight rfl)
            hRest with
          ⟨hKeyed', added, hPayload, hBatches⟩
        refine ⟨hKeyed', tx :: added, ?_,
          hBatches.cons
            (txState_of_mineable hFlight hLookup)⟩
        rw [hPayload, List.append_assoc]
        rfl

/- What making a batch does to the keys. -/
theorem makeBatch_moves
    {round : Nat}
    {payload : List Tx}
    (hInv : RepInv pool)
    (hKeyed : Keyed pool)
    (hMake : pool.makeBatch round = .ok (payload, pool')) :
    Keyed pool' ∧ Batches round payload pool pool' := by
  have hOpen : Keyed (pool.openRound round) :=
    ⟨hKeyed.mineable, hKeyed.inflight⟩
  rcases makeBatchLoop_moves (PoolInv.openRound round hInv)
      hOpen hMake with ⟨hKeyed', added, hPayload, hBatches⟩
  rw [List.nil_append] at hPayload
  subst hPayload
  exact ⟨hKeyed', { hBatches with }⟩

end Txpool

end LibApollo

------------------------------------------------------------
-- Committing
------------------------------------------------------------

namespace LibApollo

namespace Txpool

variable {Tx : Type} [MempoolTx Tx]
variable {stale : Finset ClientId}
variable {pool pool' : Txpool Tx}
variable {key : TxKey}

/-
  Nonces are raised to those of the payload, and a key that
  is dropped is below the nonce of its client.
-/
structure Settles
    (payload : List Tx)
    (key : TxKey)
    (pool pool' : Txpool Tx) : Prop where
  hi_le : ∀ client, pool.hi client ≤ pool'.hi client
  raised :
    ∀ client,
      pool'.hi client = pool.hi client ∨
        ∃ tx ∈ payload,
          keyOf tx = (client, pool'.hi client)
  state :
    pool'.txState key = pool.txState key ∨
      (pool'.txState key = .unknown ∧
        key.2 ≤ pool'.hi key.1)

theorem Settles.refl
    (key : TxKey)
    (pool : Txpool Tx) : Settles [] key pool pool where
  hi_le := fun _ => Nat.le_refl _
  raised := fun _ => Or.inl rfl
  state := Or.inl rfl

theorem Settles.trans
    {first second : List Tx}
    {mid : Txpool Tx}
    (hFirst : Settles first key pool mid)
    (hSecond : Settles second key mid pool') :
    Settles (first ++ second) key pool pool' := by
  refine
    { hi_le := fun client =>
        Nat.le_trans (hFirst.hi_le client)
          (hSecond.hi_le client)
      raised := ?_
      state := ?_ }
  · intro client
    rcases hSecond.raised client with
      hSame | ⟨tx, hMem, hKey⟩
    · rw [hSame]
      rcases hFirst.raised client with
        hSame' | ⟨tx, hMem, hKey⟩
      · exact Or.inl hSame'
      · exact Or.inr
          ⟨tx, List.mem_append_left _ hMem, hKey⟩
    · exact Or.inr
        ⟨tx, List.mem_append_right _ hMem, hKey⟩
  · rcases hSecond.state with hSame | hUnknown
    · rw [hSame]
      rcases hFirst.state with hSame' | ⟨hUnknown, hLow⟩
      · exact Or.inl hSame'
      · exact Or.inr ⟨hUnknown,
          Nat.le_trans hLow (hSecond.hi_le key.1)⟩
    · exact Or.inr hUnknown

omit [MempoolTx Tx] in
theorem inflight_removeInflight
    (removed key : TxKey)
    (pool : Txpool Tx) :
    (pool.removeInflight removed).inflight.lookup key =
      if key = removed then none
      else pool.inflight.lookup key := by
  unfold removeInflight
  split
  · rename_i hNone
    split
    · rename_i hKey
      rw [hKey]
      exact hNone
    · rfl
  · exact FinMap.lookup_erase_eq _ _ _

omit [MempoolTx Tx] in
theorem removeInflight_fields
    (removed : TxKey)
    (pool : Txpool Tx) :
    (pool.removeInflight removed).mineable =
        pool.mineable ∧
      (pool.removeInflight removed).highCommittedNonce =
        pool.highCommittedNonce := by
  unfold removeInflight
  split
  · exact ⟨rfl, rfl⟩
  · exact ⟨rfl, rfl⟩

theorem Keyed.removeInflight
    (hKeyed : Keyed pool)
    (removed : TxKey) :
    Keyed (pool.removeInflight removed) where
  mineable := by
    rw [(removeInflight_fields removed pool).1]
    exact hKeyed.mineable
  inflight := by
    intro key entry hLookup
    rw [inflight_removeInflight] at hLookup
    split at hLookup
    · cases hLookup
    · exact hKeyed.inflight key entry hLookup

/- A committed transaction is gone and its nonce reached. -/
theorem commitTx_moves
    {tx : Tx}
    (hInv : PoolInv stale NoOrphan pool)
    (hKeyed : Keyed pool)
    (hCommit : commitTx pool tx = .ok pool')
    (key : TxKey) :
    Keyed pool' ∧ Settles [tx] key pool pool' := by
  have hSettled := hInv.removeInflight (keyOf tx)
  have hNonces :=
    (removeInflight_fields (keyOf tx) pool).2
  have hMineable :=
    (removeInflight_fields (keyOf tx) pool).1
  unfold commitTx at hCommit
  dsimp only at hCommit
  rw [removeMineable_eq hSettled.bytes] at hCommit
  cases hCommit
  have hHi :
      ∀ client,
        (((pool.removeInflight (keyOf tx)).dropMineable
            (keyOf tx)).raiseNonce (keyOf tx).1
          (keyOf tx).2).hi client =
          if client = (keyOf tx).1 then
            max (pool.hi (keyOf tx).1) (keyOf tx).2
          else pool.hi client := by
    intro client
    rw [hi_raiseNonce]
    unfold Txpool.dropMineable hi
    dsimp only
    rw [hNonces]
  refine ⟨?_, ?_, ?_, ?_⟩
  · have hRemoved :=
      (hKeyed.removeInflight (keyOf tx)).dropMineable
        (keyOf tx)
    exact ⟨hRemoved.mineable, hRemoved.inflight⟩
  · intro client
    rw [hHi]
    split
    · rename_i hSame
      rw [hSame]
      exact Nat.le_max_left _ _
    · exact Nat.le_refl _
  · intro client
    rw [hHi]
    split
    · rename_i hSame
      rcases Nat.le_total (keyOf tx).2
          (pool.hi (keyOf tx).1) with hLow | hHigh
      · left
        rw [hSame]
        exact Nat.max_eq_left hLow
      · right
        refine ⟨tx, List.mem_singleton_self _, ?_⟩
        rw [Nat.max_eq_right hHigh, hSame]
    · exact Or.inl rfl
  · by_cases hKey : key = keyOf tx
    · subst hKey
      right
      constructor
      · apply txState_of_none
        · exact (inflight_removeInflight _ _ _).trans
            (if_pos rfl)
        · exact (FinMap.lookup_erase_eq _ _ _).trans
            (if_pos rfl)
      · rw [hHi, if_pos rfl]
        exact Nat.le_max_right _ _
    · left
      apply txState_congr
      · exact (inflight_removeInflight _ _ _).trans
          (if_neg hKey)
      · refine (FinMap.lookup_erase_eq _ _ _).trans ?_
        rw [if_neg hKey, hMineable]

theorem commitLoop_moves
    {payload : List Tx}
    (hInv : PoolInv stale NoOrphan pool)
    (hStale :
      ∀ tx ∈ payload, MempoolTx.clientId tx ∈ stale)
    (hKeyed : Keyed pool)
    (hCommit : payload.foldlM commitTx pool = .ok pool')
    (key : TxKey) :
    PoolInv stale NoOrphan pool' ∧ Keyed pool' ∧
      Settles payload key pool pool' := by
  induction payload generalizing pool with
  | nil =>
      cases hCommit
      exact ⟨hInv, hKeyed, Settles.refl key _⟩
  | cons tx payload ih =>
      rw [List.foldlM_cons] at hCommit
      rcases Result.bind_eq_ok.mp hCommit with
        ⟨mid, hFirst, hRest⟩
      have hInvMid : PoolInv stale NoOrphan mid := by
        have hYields :=
          hInv.commitTx (hStale tx List.mem_cons_self)
        rw [hFirst] at hYields
        exact hYields.1
      rcases commitTx_moves hInv hKeyed hFirst key with
        ⟨hKeyedMid, hStep⟩
      rcases ih hInvMid
          (fun other hOther =>
            hStale other (List.mem_cons_of_mem _ hOther))
          hKeyedMid hRest with
        ⟨hInv', hKeyed', hLater⟩
      exact ⟨hInv', hKeyed', hStep.trans hLater⟩

/- Swept keys are below the nonces of their clients. -/
theorem sweepLoop_moves
    {keys : List TxKey}
    (hInv : PoolInv stale NoOrphan pool)
    (hKeyed : Keyed pool)
    (hLow : ∀ swept ∈ keys, swept.2 ≤ pool.hi swept.1)
    (hSweep :
      keys.foldlM
        (fun now key => do
          let (_, removed) ← removeMineable key now
          .ok removed)
        pool = .ok pool')
    (key : TxKey) :
    PoolInv stale NoOrphan pool' ∧ Keyed pool' ∧
      Settles ([] : List Tx) key pool pool' := by
  induction keys generalizing pool with
  | nil =>
      cases hSweep
      exact ⟨hInv, hKeyed, Settles.refl key _⟩
  | cons swept keys ih =>
      rw [List.foldlM_cons,
        removeMineable_eq hInv.bytes] at hSweep
      change keys.foldlM _ (pool.dropMineable swept) = _
        at hSweep
      rcases ih (hInv.dropMineable swept)
          (hKeyed.dropMineable swept)
          (fun other hOther =>
            hLow other (List.mem_cons_of_mem _ hOther))
          hSweep with ⟨hInv', hKeyed', hLater⟩
      have hStep :
          Settles ([] : List Tx) key pool
            (pool.dropMineable swept) := by
        refine ⟨fun _ => Nat.le_refl _,
          fun _ => Or.inl rfl, ?_⟩
        rw [txState_dropMineable]
        split
        · rename_i hBoth
          right
          refine ⟨rfl, ?_⟩
          rw [hBoth.1]
          exact hLow swept List.mem_cons_self
        · exact Or.inl rfl
      exact ⟨hInv', hKeyed', hStep.trans hLater⟩

theorem sweep_moves
    {client : ClientId}
    (hInv : PoolInv stale NoOrphan pool)
    (hKeyed : Keyed pool)
    (hSweep : sweep pool client = .ok pool')
    (key : TxKey) :
    PoolInv stale NoOrphan pool' ∧ Keyed pool' ∧
      Settles ([] : List Tx) key pool pool' := by
  unfold sweep at hSweep
  split at hSweep
  · cases hSweep
  · rename_i high hHigh
    refine sweepLoop_moves hInv hKeyed ?_ hSweep key
    intro swept hMem
    have hFilter := (List.mem_filter.mp hMem).2
    rcases of_decide_eq_true hFilter with ⟨hClient, hLow⟩
    rw [hi, hClient, hHigh]
    exact hLow

theorem sweepAll_moves
    {clients : List ClientId}
    (hInv : PoolInv stale NoOrphan pool)
    (hKeyed : Keyed pool)
    (hSweep : clients.foldlM sweep pool = .ok pool')
    (key : TxKey) :
    Keyed pool' ∧
      Settles ([] : List Tx) key pool pool' := by
  induction clients generalizing pool with
  | nil =>
      cases hSweep
      exact ⟨hKeyed, Settles.refl key _⟩
  | cons client clients ih =>
      rw [List.foldlM_cons] at hSweep
      rcases Result.bind_eq_ok.mp hSweep with
        ⟨mid, hFirst, hRest⟩
      rcases sweep_moves hInv hKeyed hFirst key with
        ⟨hInvMid, hKeyedMid, hStep⟩
      rcases ih hInvMid hKeyedMid hRest with
        ⟨hKeyed', hLater⟩
      exact ⟨hKeyed', hStep.trans hLater⟩

/- What a commit does to a key. -/
theorem commit_moves
    {order : IterOrder}
    {batch : CachedBatch Tx}
    {round : Nat}
    (hInv : RepInv pool)
    (hKeyed : Keyed pool)
    (hCommit :
      pool.commit order batch round = .ok pool')
    (key : TxKey) :
    Keyed pool' ∧ Settles batch.payload key pool pool' := by
  have hStart :
      PoolInv
        (batch.payload.map MempoolTx.clientId).toFinset
        NoOrphan pool :=
    { hInv with
      fresh := by
        intro key entry hLookup _
        exact hInv.fresh key entry hLookup
          (Finset.notMem_empty _) }
  rcases Result.bind_eq_ok.mp hCommit with
    ⟨settled, hSettle, hRest⟩
  rcases Result.bind_eq_ok.mp hRest with
    ⟨swept, hSweep, hClose⟩
  rcases commitLoop_moves hStart
      (fun tx hTx =>
        List.mem_toFinset.mpr (List.mem_map_of_mem hTx))
      hKeyed hSettle key with ⟨hInvS, hKeyedS, hStep⟩
  rcases sweepAll_moves hInvS hKeyedS hSweep key with
    ⟨hKeyed', hLater⟩
  have hBoth := hStep.trans hLater
  rw [List.append_nil] at hBoth
  cases hClose
  unfold closeRound
  split
  · exact ⟨hKeyed', hBoth⟩
  · split
    · exact ⟨⟨hKeyed'.mineable, hKeyed'.inflight⟩,
        ⟨hBoth.hi_le, hBoth.raised, hBoth.state⟩⟩
    · exact ⟨hKeyed', hBoth⟩

end Txpool

end LibApollo

------------------------------------------------------------
-- Rolling Back
------------------------------------------------------------

namespace LibApollo

namespace Txpool

variable {Tx : Type}
variable {pool pool' : Txpool Tx}
variable {key : TxKey}

/-
  A key in flight at one of the rounds is mineable again, or
  gone when its nonce is committed.
-/
structure Restores
    (rounds : List Nat)
    (key : TxKey)
    (pool pool' : Txpool Tx) : Prop where
  nonces :
    pool'.highCommittedNonce = pool.highCommittedNonce
  state :
    pool'.txState key = pool.txState key ∨
      ∃ round ∈ rounds,
        pool.txState key = .inFlight round ∧
          ((pool.hi key.1 < key.2 ∧
              pool'.txState key = .mineable) ∨
            (key.2 ≤ pool.hi key.1 ∧
              pool'.txState key = .unknown))

theorem Restores.refl
    (key : TxKey)
    (pool : Txpool Tx) : Restores [] key pool pool where
  nonces := rfl
  state := Or.inl rfl

theorem Restores.trans
    {first second : List Nat}
    {mid : Txpool Tx}
    (hFirst : Restores first key pool mid)
    (hSecond : Restores second key mid pool') :
    Restores (first ++ second) key pool pool' := by
  refine ⟨hSecond.nonces.trans hFirst.nonces, ?_⟩
  have hHi : mid.hi key.1 = pool.hi key.1 := by
    rw [hi, hi, hFirst.nonces]
  rcases hFirst.state with
    hSame | ⟨round, hMem, hFlight, hCases⟩
  · rcases hSecond.state with
      hSame' | ⟨round, hMem, hFlight, hCases⟩
    · exact Or.inl (hSame'.trans hSame)
    · right
      rw [hSame] at hFlight
      rw [hHi] at hCases
      exact ⟨round, List.mem_append_right _ hMem, hFlight,
        hCases⟩
  · -- a key that was restored is not in flight any more
    right
    have hIdle :
        pool'.txState key = mid.txState key := by
      rcases hSecond.state with hSame | ⟨r, _, hLater, _⟩
      · exact hSame
      · rcases hCases with ⟨_, hNow⟩ | ⟨_, hNow⟩
        · rw [hNow] at hLater
          cases hLater
        · rw [hNow] at hLater
          cases hLater
    rw [← hIdle] at hCases
    exact ⟨round, List.mem_append_left _ hMem, hFlight,
      hCases⟩

variable [MempoolTx Tx]

theorem rollbackKey_moves
    {round : Nat}
    {visited : TxKey}
    {keys : List TxKey}
    (hInv :
      PoolInv ∅ (OrphansOf round (visited :: keys)) pool)
    (hKeyed : Keyed pool)
    (hRollback : rollbackKey pool visited = .ok pool')
    (key : TxKey) :
    Keyed pool' ∧ Restores [round] key pool pool' := by
  rcases (hInv.index visited round).mp
      (Or.inr ⟨rfl, List.mem_cons_self⟩) with
    ⟨entry, hEntry, hRound⟩
  have hMine := hInv.mineable_of_inflight hEntry
  have hFlight :
      pool.txState visited = .inFlight round := by
    rw [txState_of_inflight hEntry, hRound]
  have hErased :
      ∀ other,
        (pool.inflight.erase visited).lookup other =
          if other = visited then none
          else pool.inflight.lookup other :=
    fun other => FinMap.lookup_erase_eq _ _ _
  have hKeyedErased :
      ∀ other found,
        (pool.inflight.erase visited).lookup other =
            some found →
          keyOf found.tx = other :=
    FinMap.forall_erase hKeyed.inflight
  unfold rollbackKey at hRollback
  split at hRollback
  · rename_i hLow
    cases hRollback
    refine ⟨⟨hKeyed.mineable, hKeyedErased⟩, rfl, ?_⟩
    by_cases hKey : key = visited
    · subst hKey
      right
      refine ⟨round, List.mem_singleton_self _, hFlight,
        Or.inr ⟨hLow, ?_⟩⟩
      exact txState_of_none
        ((hErased key).trans (if_pos rfl)) hMine
    · left
      exact txState_congr
        ((hErased key).trans (if_neg hKey)) rfl
  · rename_i hHigh
    rw [hEntry] at hRollback
    unfold addBytes at hRollback
    dsimp only at hRollback
    split at hRollback
    · cases hRollback
      refine ⟨⟨?_, hKeyedErased⟩, rfl, ?_⟩
      · exact FinMap.forall_insert hKeyed.mineable
          (hKeyed.inflight visited entry hEntry)
      · by_cases hKey : key = visited
        · subst hKey
          right
          refine ⟨round, List.mem_singleton_self _, hFlight,
            Or.inl ⟨Nat.not_le.mp hHigh, ?_⟩⟩
          exact txState_of_mineable
            ((hErased key).trans (if_pos rfl))
            ((FinMap.lookup_insert_eq _ _ _ _).trans
              (if_pos rfl))
        · left
          exact txState_congr
            ((hErased key).trans (if_neg hKey))
            ((FinMap.lookup_insert_eq _ _ _ _).trans
              (if_neg hKey))
    · cases hRollback

/- The orphans of a round, visited one by one. -/
theorem rollbackLoop_moves
    {round : Nat}
    {keys : List TxKey}
    (hNodup : keys.Nodup)
    (hInv : PoolInv ∅ (OrphansOf round keys) pool)
    (hEmpty : pool.roundKeys round = ∅)
    (hKeyed : Keyed pool)
    (hRollback :
      keys.foldlM rollbackKey pool = .ok pool')
    (key : TxKey) :
    Keyed pool' ∧
      pool'.highCommittedNonce =
        pool.highCommittedNonce ∧
      Restores [round] key pool pool' := by
  induction keys generalizing pool with
  | nil =>
      cases hRollback
      exact ⟨hKeyed, rfl, rfl, Or.inl rfl⟩
  | cons visited keys ih =>
      rcases List.nodup_cons.mp hNodup with ⟨hNew, hRest⟩
      rw [List.foldlM_cons] at hRollback
      rcases Result.bind_eq_ok.mp hRollback with
        ⟨mid, hFirst, hLoop⟩
      have hYields :=
        hInv.rollbackKey hNew hEmpty (Nat.le_refl _)
      rw [hFirst] at hYields
      rcases hYields with ⟨hInvMid, hEmptyMid, _⟩
      rcases rollbackKey_moves hInv hKeyed hFirst key with
        ⟨hKeyedMid, hStep⟩
      rcases ih hRest hInvMid hEmptyMid hKeyedMid hLoop with
        ⟨hKeyed', hNonces, hLater⟩
      have hBoth := hStep.trans hLater
      refine ⟨hKeyed', hNonces.trans hStep.nonces,
        hBoth.nonces, ?_⟩
      rcases hBoth.state with hSame | ⟨r, hMem, hMoved⟩
      · exact Or.inl hSame
      · right
        refine ⟨r, ?_, hMoved⟩
        simpa using hMem

theorem rollbackRound_moves
    {order : IterOrder}
    {round : Nat}
    (hInv : RepInv pool)
    (hKeyed : Keyed pool)
    (hRollback :
      rollbackRound order pool round = .ok pool')
    (key : TxKey) :
    Keyed pool' ∧ Restores [round] key pool pool' := by
  unfold rollbackRound at hRollback
  split at hRollback
  · cases hRollback
    exact ⟨hKeyed, rfl, Or.inl rfl⟩
  · rename_i keys hLookup
    rcases hInv.orphans order hLookup with
      ⟨hStart, hEmpty⟩
    have hKeyedStart :
        Keyed
          { pool with
            inflightByRound :=
              pool.inflightByRound.erase round } :=
      ⟨hKeyed.mineable, hKeyed.inflight⟩
    rcases rollbackLoop_moves (order.nodup_keys keys)
        hStart hEmpty hKeyedStart hRollback key with
      ⟨hKeyed', hNonces, hMoves⟩
    exact ⟨hKeyed', hNonces, hMoves.state⟩

/- What a rollback does to a key. -/
theorem rollback_moves
    {order : IterOrder}
    {rounds : List Nat}
    (hInv : RepInv pool)
    (hKeyed : Keyed pool)
    (hRollback :
      pool.rollback order rounds = .ok pool')
    (key : TxKey) :
    Keyed pool' ∧ Restores rounds key pool pool' := by
  unfold rollback at hRollback
  induction rounds generalizing pool with
  | nil =>
      cases hRollback
      exact ⟨hKeyed, Restores.refl key _⟩
  | cons round rounds ih =>
      rw [List.foldlM_cons] at hRollback
      rcases Result.bind_eq_ok.mp hRollback with
        ⟨mid, hFirst, hRest⟩
      have hYields :=
        hInv.rollbackRound order round (Nat.le_refl _)
      rw [hFirst] at hYields
      rcases rollbackRound_moves hInv hKeyed hFirst key with
        ⟨hKeyedMid, hStep⟩
      rcases ih hYields.1 hKeyedMid hRest with
        ⟨hKeyed', hLater⟩
      exact ⟨hKeyed', hStep.trans hLater⟩

end Txpool

end LibApollo

------------------------------------------------------------
-- Runs of a Key
------------------------------------------------------------

namespace LibApollo

namespace Txpool

variable {Tx : Type} [MempoolTx Tx]
variable {order : IterOrder}
variable {pool pool' : Txpool Tx}
variable {op : Op Tx}
variable {key : TxKey}

/-
  The transitions of a key, where `low` and `high` are the
  committed nonce of its client before and after the call.
-/
inductive Moves
    (key : TxKey)
    (low high : Nat) :
    Op Tx → TxState → TxState → Prop where
| stay (op : Op Tx) (state : TxState) :
    Moves key low high op state state
| add (tx : Tx) (size : Nat) :
    keyOf tx = key → low < key.2 →
      Moves key low high (.addTx tx size) .unknown .mineable
| batch (round : Nat) :
    low < key.2 →
      Moves key low high (.makeBatch round) .mineable
        (.inFlight round)
| admission (batch : CachedBatch Tx) (round : Nat)
    (state : TxState) :
    low < key.2 → (∀ r, state ≠ .inFlight r) →
      Moves key low high (.admitProposal batch round) state
        (.inFlight round)
| settle (batch : CachedBatch Tx) (round : Nat)
    (state : TxState) :
    key.2 ≤ high →
      Moves key low high (.commit batch round) state
        .unknown
| restore (rounds : List Nat) (round : Nat) :
    round ∈ rounds → low < key.2 →
      Moves key low high (.rollback rounds)
        (.inFlight round) .mineable
| drop (rounds : List Nat) (round : Nat) :
    round ∈ rounds → key.2 ≤ low →
      Moves key low high (.rollback rounds)
        (.inFlight round) .unknown

/- Only a committed key is dropped. -/
theorem Moves.to_unknown
    {low high : Nat}
    {state : TxState}
    (hMoves : Moves key low high op state .unknown) :
    state = .unknown ∨ key.2 ≤ low ∨ key.2 ≤ high := by
  cases hMoves with
  | stay => exact Or.inl rfl
  | settle _ _ _ hReached => exact Or.inr (Or.inr hReached)
  | drop _ _ _ hReached => exact Or.inr (Or.inl hReached)

/- The call commits a transaction with this key. -/
def Commits (op : Op Tx) (key : TxKey) : Prop :=
  ∃ batch round,
    op = .commit batch round ∧
      ∃ tx ∈ batch.payload, keyOf tx = key

/- Nonces are raised, to a committed one. -/
def Raises
    (op : Op Tx)
    (client : ClientId)
    (low high : Nat) : Prop :=
  high = low ∨ (low ≤ high ∧ Commits op (client, high))

theorem Raises.le
    {client : ClientId}
    {low high : Nat}
    (hRaises : Raises op client low high) :
    low ≤ high := by
  rcases hRaises with hSame | ⟨hLe, _⟩
  · exact Nat.le_of_eq hSame.symm
  · exact hLe

/- Every call moves a key along its transitions. -/
theorem moves_of_step
    (hInv : RepInv pool)
    (hKeyed : Keyed pool)
    (hStep : step order pool op = .ok pool')
    (key : TxKey) :
    Keyed pool' ∧
      Raises op key.1 (pool.hi key.1) (pool'.hi key.1) ∧
      Moves key (pool.hi key.1) (pool'.hi key.1) op
        (pool.txState key) (pool'.txState key) := by
  cases op with
  | addTx tx size =>
      rcases addTx_moves hInv hKeyed hStep with
        ⟨hKeyed', hNonces, _, hMoves⟩
      refine ⟨hKeyed', Or.inl (by rw [hi, hi, hNonces]), ?_⟩
      rcases hMoves key with
        hSame | ⟨hKey, hHigh, hBefore, hAfter⟩
      · rw [hSame]
        exact .stay _ _
      · rw [hBefore, hAfter]
        exact .add tx size hKey.symm hHigh
  | admitProposal batch round =>
      rcases admitProposal_moves hInv hKeyed hStep key with
        ⟨hKeyed', hMoves, _⟩
      refine ⟨hKeyed', Or.inl (hMoves.hi_eq _), ?_⟩
      rcases hMoves.state with
        hSame | ⟨hHigh, hIdle, hAfter⟩
      · rw [hSame]
        exact .stay _ _
      · rw [hAfter]
        exact .admission batch round _ hHigh hIdle
  | makeBatch round =>
      rcases Result.map_eq_ok.mp hStep with
        ⟨⟨payload, made⟩, hMake, rfl⟩
      rcases makeBatch_moves hInv hKeyed hMake with
        ⟨hKeyed', hMoves⟩
      refine ⟨hKeyed',
        Or.inl (by rw [hi, hi, hMoves.nonces]), ?_⟩
      by_cases hMem : key ∈ payload.map keyOf
      · rcases hMoves.batched key hMem with
          ⟨hBefore, hAfter⟩
        rcases txState_eq_mineable hBefore with
          ⟨entry, hLookup, _⟩
        rw [hBefore, hAfter]
        exact .batch round
          (hInv.fresh key entry hLookup
            (Finset.notMem_empty _))
      · rw [hMoves.others key hMem]
        exact .stay _ _
  | commit batch round =>
      rcases commit_moves hInv hKeyed hStep key with
        ⟨hKeyed', hMoves⟩
      refine ⟨hKeyed', ?_, ?_⟩
      · rcases hMoves.raised key.1 with hSame | hCommitted
        · exact Or.inl hSame
        · exact Or.inr ⟨hMoves.hi_le key.1,
            batch, round, rfl, hCommitted⟩
      · rcases hMoves.state with hSame | ⟨hAfter, hLow⟩
        · rw [hSame]
          exact .stay _ _
        · rw [hAfter]
          exact .settle batch round _ hLow
  | rollback rounds =>
      rcases rollback_moves hInv hKeyed hStep key with
        ⟨hKeyed', hMoves⟩
      refine ⟨hKeyed',
        Or.inl (by rw [hi, hi, hMoves.nonces]), ?_⟩
      rcases hMoves.state with
        hSame | ⟨round, hMem, hBefore, hCases⟩
      · rw [hSame]
        exact .stay _ _
      · rw [hBefore]
        rcases hCases with ⟨hHigh, hAfter⟩ | ⟨hLow, hAfter⟩
        · rw [hAfter]
          exact .restore rounds round hMem hHigh
        · rw [hAfter]
          exact .drop rounds round hMem hLow

theorem repInv_of_step
    (hInv : RepInv pool)
    (hStep : step order pool op = .ok pool') :
    RepInv pool' := by
  have hYields := hInv.step order op
  rw [hStep] at hYields
  exact hYields

omit [MempoolTx Tx] in
theorem Taken.not_mineable
    (hInv : RepInv pool)
    (hTaken : Taken pool key) :
    pool.txState key ≠ .mineable := by
  intro hMine
  rcases hTaken with ⟨round, hFlight⟩ | hLow
  · rw [hMine] at hFlight
    cases hFlight
  · rcases txState_eq_mineable hMine with
      ⟨entry, hLookup, _⟩
    have hHigh :=
      hInv.fresh key entry hLookup (Finset.notMem_empty _)
    exact absurd hHigh (Nat.not_lt.mpr hLow)

/- Only a rollback makes a taken key mineable again. -/
theorem Taken.step
    (hInv : RepInv pool)
    (hKeyed : Keyed pool)
    (hTaken : Taken pool key)
    (hOp : ∀ rounds, op ≠ .rollback rounds)
    (hStep : Txpool.step order pool op = .ok pool') :
    Taken pool' key := by
  rcases moves_of_step hInv hKeyed hStep key with
    ⟨_, hRaises, hMoves⟩
  rcases hTaken with ⟨round, hFlight⟩ | hLow
  · rw [hFlight] at hMoves
    cases hAfter : pool'.txState key with
    | inFlight r => exact Or.inl ⟨r, hAfter⟩
    | mineable =>
        rw [hAfter] at hMoves
        cases hMoves with
        | restore rounds => exact absurd rfl (hOp rounds)
    | unknown =>
        rw [hAfter] at hMoves
        cases hMoves with
        | settle _ _ _ hHigh => exact Or.inr hHigh
        | drop rounds => exact absurd rfl (hOp rounds)
  · exact Or.inr (Nat.le_trans hLow hRaises.le)

/- Both invariants hold in every run. -/
theorem repInv_keyed_of_reach
    {batchSize : Nat}
    (hReach :
      Machine.Reach (step order) (fun _ _ => True)
        (new batchSize) pool) :
    RepInv pool ∧ Keyed pool := by
  apply hReach.invariant
    (fun pool => RepInv pool ∧ Keyed pool)
  · exact ⟨repInv_new batchSize, keyed_new batchSize⟩
  · intro pool pool' op hBoth _ hStep
    exact ⟨repInv_of_step hBoth.1 hStep,
      (moves_of_step hBoth.1 hBoth.2 hStep (0, 0)).1⟩

/- The call commits the nonce of the key or a higher one. -/
def CommitsPast (op : Op Tx) (key : TxKey) : Prop :=
  ∃ nonce, key.2 ≤ nonce ∧ Commits op (key.1, nonce)

/- The pool holds the key, which is not committed. -/
structure Holds (key : TxKey) (pool : Txpool Tx) : Prop where
  rep : RepInv pool
  keyed : Keyed pool
  uncommitted : pool.hi key.1 < key.2
  known : pool.txState key ≠ .unknown

theorem Holds.step
    (hHolds : Holds key pool)
    (hOp : ¬ CommitsPast op key)
    (hStep : Txpool.step order pool op = .ok pool') :
    Holds key pool' := by
  rcases moves_of_step hHolds.rep hHolds.keyed hStep key
    with ⟨hKeyed', hRaises, hMoves⟩
  have hLow : pool'.hi key.1 < key.2 := by
    rcases hRaises with hSame | ⟨_, hCommits⟩
    · rw [hSame]
      exact hHolds.uncommitted
    · by_contra hHigh
      exact hOp ⟨_, Nat.not_lt.mp hHigh, hCommits⟩
  refine
    { rep := repInv_of_step hHolds.rep hStep
      keyed := hKeyed'
      uncommitted := hLow
      known := ?_ }
  intro hUnknown
  rw [hUnknown] at hMoves
  rcases hMoves.to_unknown with hBefore | hOld | hNew
  · exact hHolds.known hBefore
  · exact Nat.not_lt.mpr hOld hHolds.uncommitted
  · exact Nat.not_lt.mpr hNew hLow

/-
  A transaction that is added above the committed nonce of
  its client is held, in exactly one of the two maps, until
  the nonce or a higher one of the client is committed.
-/
theorem no_loss
    {batchSize size : Nat}
    {added later : Txpool Tx}
    {tx : Tx}
    (hReach :
      Machine.Reach (step order) (fun _ _ => True)
        (new batchSize) pool)
    (hNonce : pool.hi (keyOf tx).1 < (keyOf tx).2)
    (hAdd : step order pool (.addTx tx size) = .ok added)
    (hLater :
      Machine.Reach (step order)
        (fun _ op => ¬ CommitsPast op (keyOf tx)) added
        later) :
    Xor (keyOf tx ∈ later.mineable)
      (keyOf tx ∈ later.inflight) := by
  rcases repInv_keyed_of_reach hReach with ⟨hInv, hKeyed⟩
  have hStart : Holds (keyOf tx) added := by
    rcases addTx_moves hInv hKeyed hAdd with
      ⟨hKeyed', hNonces, hKnown, _⟩
    refine ⟨repInv_of_step hInv hAdd, hKeyed', ?_,
      hKnown hNonce⟩
    rw [hi, hNonces]
    exact hNonce
  have hHolds : Holds (keyOf tx) later := by
    apply hLater.invariant (Holds (keyOf tx)) hStart
    intro s s' op hHolds hOp hStep
    exact hHolds.step hOp hStep
  cases hFlight : later.inflight.lookup (keyOf tx) with
  | some entry =>
      right
      refine ⟨Finmap.mem_of_lookup_eq_some hFlight, ?_⟩
      exact Finmap.lookup_eq_none.mp
        (PoolInv.mineable_of_inflight hHolds.rep hFlight)
  | none =>
      left
      refine ⟨?_, Finmap.lookup_eq_none.mp hFlight⟩
      by_contra hNotMem
      exact hHolds.known
        (txState_of_none hFlight
          (Finmap.lookup_eq_none.mpr hNotMem))

/-
  A transaction is batched in round 1, a lower nonce of its
  client committed, and the round rolled back.
-/
def heldRun : List (Op Transaction) :=
  [.makeBatch 1,
    .commit ⟨[transaction 1 4, transaction 2 9]⟩ 1,
    .addTx (transaction 1 5) 7,
    .rollback [1]]

/- Executable form of the condition on a call. -/
def commitsPastCheck
    (key : TxKey)
    (op : Op Transaction) : Bool :=
  match op with
  | .commit batch _ =>
      batch.payload.any
        (fun tx =>
          decide (tx.clientId = key.1 ∧ key.2 ≤ tx.nonce))
  | _ => false

theorem not_commitsPast_of_check
    {key : TxKey}
    {op : Op Transaction}
    (hCheck : commitsPastCheck key op = false) :
    ¬ CommitsPast op key := by
  intro hPast
  rcases hPast with
    ⟨nonce, hNonce, batch, round, rfl, tx, hTx, hKey⟩
  simp only [commitsPastCheck, List.any_eq_false,
    decide_eq_true_eq, not_and] at hCheck
  have hClient : tx.clientId = key.1 :=
    congrArg Prod.fst hKey
  have hSame : tx.nonce = nonce :=
    congrArg Prod.snd hKey
  exact hCheck tx hTx hClient (hSame ▸ hNonce)

/- The transaction is back among the mineable ones. -/
theorem no_loss_rolled_back :
    ∃ added later : Txpool Transaction,
      step sortedOrder (new 10)
          (.addTx (transaction 1 5) 10) = .ok added ∧
        Machine.Reach (step sortedOrder)
          (fun _ op => ¬ CommitsPast op (1, 5)) added
          later ∧
        later.hi 1 = 4 ∧
        Xor ((1, 5) ∈ later.mineable)
          ((1, 5) ∈ later.inflight) := by
  have hAll :
      (match step sortedOrder (new 10)
          (.addTx (transaction 1 5) 10) with
        | .ok added =>
            Machine.runCheck (step sortedOrder)
              (fun _ op => !commitsPastCheck (1, 5) op)
              (fun pool => decide (pool.hi 1 = 4))
              added heldRun
        | .error _ => false) = true := by
    decide +kernel
  split at hAll
  · rename_i added hAdd
    rcases Machine.Reach.of_runCheck
        (fun _ _ hCheck =>
          not_commitsPast_of_check (by simpa using hCheck))
        hAll with ⟨later, hReach, hHi⟩
    exact ⟨added, later, hAdd, hReach,
      of_decide_eq_true hHi,
      no_loss .start (by decide) hAdd hReach⟩
  · cases hAll

end Txpool

end LibApollo
