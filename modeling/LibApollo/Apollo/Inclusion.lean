import LibApollo.Apollo.Host
import LibApollo.Apollo.Reports

/-
  Exactly-once inclusion of transactions in Apollo.

  A batch is made in the round its host leads, after the
  batcher was told the batches of all rounds before, and it
  is proposed in that round, which cannot end otherwise.  So
  it shares no key with an earlier block.  The one hole is
  the start: the batcher of the initial leader may send a
  batch before it is told the first round, and once more in
  that round.  The second batch then waits for the next turn
  of the leader, while others propose its transactions.

  Key definitions include:
    * `Includes`
    * `LogInv`, `Follows`, `Paced`
    * `SystemInv`
    * `UnsentAtStart`, `CommitsKey`

  Key theorems include:
    * `SystemInv.step`
    * `exactly_once_inclusion`
    * `key_committed_twice`
-/

------------------------------------------------------------
-- The Keys of a Block
------------------------------------------------------------

namespace LibApollo

namespace Apollo

open Txpool (keyOf Taken)

variable {H : Type} [DecidableEq H] [Crypto H]

/-
  Batch hashes are collision free, also against the hash
  value reserved for the genesis block.
-/
structure BatchCollisionFree
    (H : Type) [Crypto H] : Prop where
  injective :
    ∀ txs txs',
      Crypto.batchHash (H := H) txs =
          Crypto.batchHash txs' →
        txs = txs'
  ne_empty :
    ∀ txs,
      Crypto.batchHash (H := H) txs ≠ Crypto.emptyHash

omit [DecidableEq H] in
/- The block of this hash has a transaction with the key. -/
def Includes (hash : H) (key : TxKey) : Prop :=
  ∃ (block : Block H) (batch : Batch),
    block.WellHashed ∧ block.hash = hash ∧
      batch.hash = block.body.batchHash ∧
      key ∈ batch.payload.map keyOf

omit [DecidableEq H] in
/- The keys of a block are those of any of its batches. -/
theorem Includes.mem
    {key : TxKey}
    {block : Block H}
    {batch : Batch}
    (hFree : CollisionFree H)
    (hBatches : BatchCollisionFree H)
    (hIncludes : Includes block.hash key)
    (hWell : block.WellHashed)
    (hSealed : batch.hash = block.body.batchHash) :
    key ∈ batch.payload.map keyOf := by
  rcases hIncludes with
    ⟨other, found, hOther, hHash, hFound, hMem⟩
  have hBlock : other = block :=
    hOther.eq_of_hash_eq hFree hWell hHash
  rw [hBlock, ← hSealed] at hFound
  rw [← hBatches.injective _ _ hFound]
  exact hMem

/- The keys of the proposal are among those told. -/
def Reported
    (news : List (BatcherConsensusMsg Transaction))
    (p : Propose H) : Prop :=
  ∀ key, Includes p.blockHash key →
    ∃ batch round,
      .proposed batch round ∈ news ∧
        key ∈ batch.payload.map keyOf

omit [DecidableEq H] in
theorem Reported.mono
    {news more : List (BatcherConsensusMsg Transaction)}
    {p : Propose H}
    (hSubset : news ⊆ more)
    (hReported : Reported news p) :
    Reported more p := by
  intro key hIncludes
  rcases hReported key hIncludes with
    ⟨batch, round, hMem, hKey⟩
  exact ⟨batch, round, hSubset hMem, hKey⟩

omit [DecidableEq H] in
theorem Announces.reported
    {news : List (BatcherConsensusMsg Transaction)}
    {p : Propose H}
    {block : Block H}
    (hFree : CollisionFree H)
    (hBatches : BatchCollisionFree H)
    (hWell : block.WellHashed)
    (hNamed : block.hash = p.blockHash)
    (hAnnounces : Announces news block) :
    Reported news p := by
  intro key hIncludes
  rcases hAnnounces with ⟨batch, round, hMem, hSealed⟩
  rw [← hNamed] at hIncludes
  exact ⟨batch, round, hMem,
    hIncludes.mem hFree hBatches hWell hSealed⟩

end Apollo

end LibApollo

------------------------------------------------------------
-- What the Reactor Has Told
------------------------------------------------------------

namespace LibApollo

namespace Apollo

variable {H : Type} [DecidableEq H] [Crypto H]
variable {n : Nat}
variable {cx cx' : Context H}

/-
  The rounds are told in order and with their leaders, and a
  round only after the batches of the rounds before it.
-/
structure LogInv (n : Nat) (cx : Context H) : Prop where
  head :
    cx.txConsensusToBatcher[0]? = some (.newRound 0 1)
  rounds :
    ∀ (k : Nat) leader r,
      cx.txConsensusToBatcher[k]? =
          some (.newRound leader r) →
        leader = leaderOf n r ∧
          (1 ≤ r ∧ r ≤ cx.round) ∧
          (∀ leader' r',
            .newRound leader' r' ∈
                cx.txConsensusToBatcher.take k →
              r' < r) ∧
          ∀ q p, q < r →
            cx.propChainByRound.lookup q = some p →
              Reported (cx.txConsensusToBatcher.take k) p
  reported :
    ∀ q p, cx.propChainByRound.lookup q = some p →
      Reported cx.txConsensusToBatcher p
  noRollback :
    ∀ rounds, .rollback rounds ∉ cx.txConsensusToBatcher

theorem LogInv.quiet
    (hLog : LogInv n cx)
    (hQuiet : Quiet cx cx') :
    LogInv n cx' := by
  constructor
  · rw [hQuiet.log]
    exact hLog.head
  · rw [hQuiet.log, hQuiet.round, hQuiet.chain]
    exact hLog.rounds
  · rw [hQuiet.log, hQuiet.chain]
    exact hLog.reported
  · rw [hQuiet.log]
    exact hLog.noRollback

omit [Crypto H] in
/- Messages about batches start no round. -/
theorem Silent.not_newRound
    {news : List (BatcherConsensusMsg Transaction)}
    {leader : Replica}
    {r : Nat}
    (hSilent : Silent news) :
    .newRound leader r ∉ news := by
  intro hMem
  rcases hSilent _ hMem with ⟨_, _, hEq⟩ | ⟨_, _, hEq⟩
  · cases hEq
  · cases hEq

omit [Crypto H] in
/- After messages about batches, the only round is last. -/
theorem Silent.newRound_last
    {log news : List (BatcherConsensusMsg Transaction)}
    {leader leader' : Replica}
    {r r' k : Nat}
    (hSilent : Silent news)
    (hNew : log.length ≤ k)
    (hGet :
      (log ++ news ++ [.newRound leader' r'])[k]? =
        some (.newRound leader r)) :
    k = (log ++ news).length ∧ leader' = leader ∧
      r' = r := by
  have hBound := (List.getElem?_eq_some_iff.mp hGet).1
  rw [List.length_append, List.length_singleton] at hBound
  have hLast : k = (log ++ news).length := by
    by_contra hOther
    rw [List.getElem?_append_left (by omega),
      List.getElem?_append_right hNew] at hGet
    exact hSilent.not_newRound (List.mem_of_getElem? hGet)
  rw [hLast, List.getElem?_concat_length,
    Option.some.injEq] at hGet
  injection hGet with hLeads hCurrent
  exact ⟨hLast, hLeads, hCurrent⟩

/- A round told by now is at most the current one. -/
theorem LogInv.le_round
    {leader : Replica}
    {r : Nat}
    (hLog : LogInv n cx)
    (hMem :
      .newRound leader r ∈ cx.txConsensusToBatcher) :
    r ≤ cx.round := by
  rcases List.mem_iff_getElem?.mp hMem with ⟨k, hGet⟩
  exact (hLog.rounds k leader r hGet).2.1.2

theorem LogInv.takes
    {p : Propose H}
    {block : Block H}
    (hFree : CollisionFree H)
    (hBatches : BatchCollisionFree H)
    (hLog : LogInv n cx)
    (hLeader : cx'.roundLeader = leaderOf n cx'.round)
    (hWell : block.WellHashed)
    (hTakes : Takes p block cx cx') :
    LogInv n cx' := by
  have hNow := hTakes.now
  have hRound := hTakes.round
  rcases hTakes.log with ⟨news, hSilent, hAnnounces, hTold⟩
  have hNews : Reported news p := by
    rcases hAnnounces with rfl | hAnnounces
    · exact absurd hWell.symm (hFree.ne_empty _ _)
    · exact hAnnounces.reported hFree hBatches hWell
        hTakes.named
  -- the entries before the new round, old and new
  have hBefore :
      ∀ q p', cx'.propChainByRound.lookup q = some p' →
        Reported (cx.txConsensusToBatcher ++ news) p' := by
    intro q p' hLookup
    rw [hTakes.chain, FinMap.lookup_insert_eq] at hLookup
    split at hLookup
    · cases hLookup
      exact hNews.mono (List.subset_append_right _ _)
    · exact (hLog.reported q p' hLookup).mono
        (List.subset_append_left _ _)
  constructor
  · rw [hTold, List.append_assoc,
      List.getElem?_append_left]
    · exact hLog.head
    · exact (List.getElem?_eq_some_iff.mp hLog.head).1
  · intro k leader r hGet
    rw [hTold] at hGet ⊢
    rcases Nat.lt_or_ge k cx.txConsensusToBatcher.length
      with hOld | hNew
    · rw [List.append_assoc,
        List.getElem?_append_left hOld] at hGet
      rw [List.append_assoc,
        List.take_append_of_le_length (Nat.le_of_lt hOld)]
      rcases hLog.rounds k leader r hGet with
        ⟨hLeads, hBounds, hOrder, hReported⟩
      refine ⟨hLeads, ⟨hBounds.1, by omega⟩, hOrder, ?_⟩
      intro q p' hPassed hLookup
      rw [hTakes.chain, FinMap.lookup_insert_eq,
        if_neg (by omega)] at hLookup
      exact hReported q p' hPassed hLookup
    · rcases hSilent.newRound_last hNew hGet with
        ⟨hLast, rfl, rfl⟩
      rw [hLast, List.take_left]
      refine ⟨hLeader, ⟨by omega, Nat.le_refl _⟩, ?_, ?_⟩
      · intro leader' r' hMem
        rcases List.mem_append.mp hMem with hOld | hNew
        · have hLe := hLog.le_round hOld
          omega
        · exact absurd hNew hSilent.not_newRound
      · intro q p' _ hLookup
        exact hBefore q p' hLookup
  · intro q p' hLookup
    rw [hTold]
    exact (hBefore q p' hLookup).mono
      (List.subset_append_left _ _)
  · intro rounds hMem
    rw [hTold] at hMem
    rcases List.mem_append.mp hMem with hFront | hEnd
    · rcases List.mem_append.mp hFront with hOld | hNew
      · exact hLog.noRollback rounds hOld
      · rcases hSilent _ hNew with ⟨_, _, hEq⟩ | ⟨_, _, hEq⟩
        · cases hEq
        · cases hEq
    · cases List.mem_singleton.mp hEnd

theorem logInv_new
    (config : Config) :
    LogInv n (Node.new config : Node H).cx where
  head := rfl
  rounds := by
    intro k leader r hGet
    cases k with
    | zero =>
        cases hGet
        refine ⟨?_, ⟨Nat.le_refl 1, Nat.le_refl 1⟩, ?_, ?_⟩
        · exact (Nat.zero_mod n).symm
        · intro leader' r' hMem
          simp at hMem
        · intro q p _ hLookup
          simp [Node.new, Context.new, Context.tellBatcher]
            at hLookup
    | succ k =>
        simp [Node.new, Context.new, Context.tellBatcher]
          at hGet
  reported := by
    intro q p hLookup
    simp [Node.new, Context.new, Context.tellBatcher]
      at hLookup
  noRollback := by
    intro rounds hMem
    simp [Node.new, Context.new, Context.tellBatcher]
      at hMem

end Apollo

end LibApollo

------------------------------------------------------------
-- The Batcher Follows the Reactor
------------------------------------------------------------

namespace LibApollo

namespace Apollo

open Txpool (keyOf Taken)
open RRBatcher (Prepares Makes)

variable {i : Replica}
variable {order : IterOrder}
variable {heard : List (BatcherConsensusMsg Transaction)}
variable {b b' : RRBatcher Transaction}

/-
  The batcher is in the last round it was told, and the keys
  of all batches it was told are taken.
-/
structure Follows
    (i : Replica)
    (heard : List (BatcherConsensusMsg Transaction))
    (b : RRBatcher Transaction) : Prop where
  poolOk : b.PoolOk
  myId : b.myId = i
  start :
    heard = [] → b.currentRound = 0 ∧ b.currentLeader = 0
  current :
    heard ≠ [] →
      .newRound b.currentLeader b.currentRound ∈ heard ∧
        ∀ leader r, .newRound leader r ∈ heard →
          r ≤ b.currentRound
  taken :
    ∀ batch r, .proposed batch r ∈ heard →
      ∀ key ∈ batch.payload.map keyOf, Taken b.pool key

/- A call on the pool that takes no key back. -/
theorem Follows.call
    {op : Txpool.Op Transaction}
    {pool : Txpool Transaction}
    (hFollows : Follows i heard b)
    (hOp : ∀ rounds, op ≠ .rollback rounds)
    (hStep : Txpool.step order b.pool op = .ok pool) :
    Follows i heard { b with pool := pool } := by
  have hPool := hFollows.poolOk
  refine { hFollows with
    poolOk :=
      ⟨Txpool.repInv_of_step hPool.1 hStep,
        (Txpool.moves_of_step hPool.1 hPool.2 hStep
          (0, 0)).1⟩
    taken := ?_ }
  intro batch r hMem key hKey
  exact (hFollows.taken batch r hMem key hKey).step
    hPool.1 hPool.2 hOp hStep

theorem Follows.makeBatch
    {payload : List Transaction}
    {pool : Txpool Transaction}
    (hFollows : Follows i heard b)
    (hMake :
      b.pool.makeBatch b.currentRound =
        .ok (payload, pool)) :
    Follows i heard { b with pool := pool } := by
  have hStep :
      Txpool.step Txpool.sortedOrder b.pool
        (.makeBatch b.currentRound) = .ok pool := by
    change (b.pool.makeBatch b.currentRound).map _ = _
    rw [hMake]
    rfl
  exact hFollows.call (by simp) hStep

/- No key it was told is in the batch it makes. -/
theorem Follows.fresh
    {payload : List Transaction}
    {pool : Txpool Transaction}
    {batch : Batch}
    {r : Nat}
    {key : TxKey}
    (hFollows : Follows i heard b)
    (hMake :
      b.pool.makeBatch b.currentRound =
        .ok (payload, pool))
    (hMem : .proposed batch r ∈ heard)
    (hKey : key ∈ batch.payload.map keyOf) :
    key ∉ payload.map keyOf := by
  intro hBatched
  have hPool := hFollows.poolOk
  have hBatches :=
    (RRBatcher.poolOk_makeBatch hPool hMake).2
  exact (hFollows.taken batch r hMem key hKey).not_mineable
    hPool.1 (hBatches.batched key hBatched).1

/- The batcher serves its timer or a client. -/
theorem Follows.ownEvent
    {event : RRBatcher.Event Transaction}
    (hFollows : Follows i heard b)
    (hEvent :
      event = .tick ∨
        ∃ tx size, event = .incomingTx tx size)
    (hPrepares : Prepares order b event b') :
    Follows i heard b' ∧
      ∃ pool, b' = { b with pool := pool } := by
  cases hPrepares with
  | tick => exact ⟨hFollows, b.pool, rfl⟩
  | sealStops =>
      rcases hEvent with hCase | ⟨_, _, hCase⟩ <;>
        cases hCase
  | newRound =>
      rcases hEvent with hCase | ⟨_, _, hCase⟩ <;>
        cases hCase
  | call _ op pool hCall hStep =>
      rcases hEvent with rfl | ⟨tx, size, rfl⟩
      · cases hCall
      · cases hCall
        exact ⟨hFollows.call (by simp) hStep, pool, rfl⟩

/- The batcher is told something after its first round. -/
theorem Follows.append
    {msg : BatcherConsensusMsg Transaction}
    (hHeard : heard ≠ [])
    (hOther :
      ∀ leader r, msg ≠ .newRound leader r)
    (hFollows : Follows i heard b)
    (hTaken :
      ∀ batch r, msg = .proposed batch r →
        ∀ key ∈ batch.payload.map keyOf,
          Taken b.pool key) :
    Follows i (heard ++ [msg]) b := by
  rcases hFollows.current hHeard with ⟨hNow, hLast⟩
  refine { hFollows with
    start := fun hNil => by simp at hNil
    current := fun _ =>
      ⟨List.mem_append_left _ hNow, ?_⟩
    taken := ?_ }
  · intro leader r hMem
    rcases List.mem_append.mp hMem with hOld | hNew
    · exact hLast leader r hOld
    · exact absurd (List.mem_singleton.mp hNew).symm
        (hOther leader r)
  · intro batch r hMem key hKey
    rcases List.mem_append.mp hMem with hOld | hNew
    · exact hFollows.taken batch r hOld key hKey
    · exact hTaken batch r
        (List.mem_singleton.mp hNew).symm key hKey

/- The batcher is told a later round. -/
theorem Follows.newRound
    {leader : Replica}
    {r : Nat}
    (hFollows : Follows i heard b)
    (hLater :
      ∀ leader' r', .newRound leader' r' ∈ heard →
        r' < r) :
    Follows i (heard ++ [.newRound leader r])
      { b with
        currentLeader := leader
        currentRound := r
        proposed := false } := by
  refine
    { poolOk := hFollows.poolOk
      myId := hFollows.myId
      start := fun hNil => by simp at hNil
      current := fun _ => ⟨by simp, ?_⟩
      taken := ?_ }
  · intro leader' r' hMem
    rcases List.mem_append.mp hMem with hOld | hNew
    · exact Nat.le_of_lt (hLater leader' r' hOld)
    · cases List.mem_singleton.mp hNew
      exact Nat.le_refl _
  · intro batch q hMem
    rcases List.mem_append.mp hMem with hOld | hNew
    · exact hFollows.taken batch q hOld
    · cases List.mem_singleton.mp hNew

/- The batcher is told about a batch. -/
theorem Follows.aboutBatch
    {msg : BatcherConsensusMsg Transaction}
    (hHeard : heard ≠ [])
    (hFollows : Follows i heard b)
    (hOther : ∀ leader r, msg ≠ .newRound leader r)
    (hNone : ∀ rounds, msg ≠ .rollback rounds)
    (hPrepares : Prepares order b (.consensus msg) b') :
    Follows i (heard ++ [msg]) b' ∧
      ∃ pool, b' = { b with pool := pool } := by
  have hPool := hFollows.poolOk
  cases hPrepares with
  | newRound leader r => exact absurd rfl (hOther leader r)
  | call _ op pool hCall hStep =>
      cases msg with
      | newRound leader r => cases hCall
      | rollback rounds => exact absurd rfl (hNone rounds)
      | committed batch r =>
          cases hCall
          refine ⟨?_, pool, rfl⟩
          exact (hFollows.call (by simp) hStep).append hHeard
            hOther nofun
      | proposed batch r =>
          cases hCall
          refine ⟨?_, pool, rfl⟩
          apply (hFollows.call (by simp) hStep).append hHeard
            hOther
          intro batch' r' hSame key hKey
          cases hSame
          exact (Txpool.admitProposal_moves hPool.1 hPool.2
            hStep key).2.2 hKey

theorem follows_new
    (params : RRBatcher.Parameters)
    (hLeader : params.initialLeader = 0) :
    Follows params.myId [] (RRBatcher.new params) where
  poolOk := RRBatcher.poolOk_new params
  myId := rfl
  start := fun _ => ⟨rfl, hLeader⟩
  current := fun hHeard => absurd rfl hHeard
  taken := nofun

end Apollo

end LibApollo

------------------------------------------------------------
-- One Batch for Each Turn
------------------------------------------------------------

namespace LibApollo

namespace Apollo

open Txpool (keyOf)
open RRBatcher (Prepares Makes)

variable {H : Type} [DecidableEq H] [Crypto H]
variable {n : Nat}
variable {i : Replica}
variable {order : IterOrder}
variable {host host' : Host H}

/- The round for which the batcher makes batches. -/
def Host.workRound (host : Host H) : Nat :=
  max 1 host.batcher.currentRound

/- The batch shares no key with an accepted block. -/
def Fresh (cx : Context H) (batch : Batch) : Prop :=
  ∀ q p, cx.propChainByRound.lookup q = some p →
    ∀ key ∈ batch.payload.map keyOf,
      ¬ Includes p.blockHash key

/-
  A batch is under way only in a turn of its host, with the
  batcher in the same round.  The turns that the reactor is
  through with, the batcher has used.
-/
structure Paced
    (n : Nat)
    (i : Replica)
    (host : Host H) : Prop where
  one :
    host.pipeline = [] ∨
      ∃ batch, host.pipeline = [batch] ∧
        leaderOf n host.node.cx.round = i ∧
        host.workRound = host.node.cx.round ∧
        host.batcher.proposed = true ∧
        Fresh host.node.cx batch
  skipped :
    ∀ r, host.workRound < r → r < host.node.cx.round →
      leaderOf n r ≠ i
  spent :
    leaderOf n host.workRound = i →
      host.workRound < host.node.cx.round →
        host.batcher.proposed = true

structure HostInv
    (n : Nat)
    (i : Replica)
    (host : Host H) : Prop where
  stocked : Stocked host.node.cx
  log : LogInv n host.node.cx
  follows : Follows i host.heard host.batcher
  informedBound :
    host.informed ≤
      host.node.cx.txConsensusToBatcher.length
  sealedBound :
    host.sealedCount ≤ host.batcher.outgoing.length
  channel :
    ∀ x ∈ host.node.cx.pendingBatches ++
        host.memToConsensus,
      x.1 = x.2.hash ∧
        ∃ found, host.node.cx.batches.Holds x.1 found
  paced : Paced n i host

omit [Crypto H] in
/- A round the batcher has heard of stands in the log. -/
theorem Host.log_of_heard
    {msg : BatcherConsensusMsg Transaction}
    (hMem : msg ∈ host.heard) :
    ∃ k, k < host.informed ∧
      host.node.cx.txConsensusToBatcher[k]? =
        some msg := by
  rcases List.mem_iff_getElem?.mp hMem with ⟨k, hGet⟩
  unfold Host.heard at hGet
  have hBound : k < host.informed := by
    have hLength := (List.getElem?_eq_some_iff.mp hGet).1
    rw [List.length_take] at hLength
    omega
  rw [List.getElem?_take_of_lt hBound] at hGet
  exact ⟨k, hBound, hGet⟩

/- The batcher knows the leader of its round. -/
theorem HostInv.work
    (hInv : HostInv n i host)
    (hChain : ChainInv host.node.cx) :
    host.batcher.currentLeader =
        leaderOf n host.workRound ∧
      host.workRound ≤ host.node.cx.round := by
  have hPos := hChain.round_pos
  by_cases hHeard : host.heard = []
  · rcases hInv.follows.start hHeard with
      ⟨hRound, hLeader⟩
    unfold Host.workRound
    rw [hRound, hLeader]
    exact ⟨(Nat.zero_mod n).symm, hPos⟩
  · rcases hInv.follows.current hHeard with ⟨hNow, _⟩
    rcases Host.log_of_heard hNow with ⟨k, _, hGet⟩
    rcases hInv.log.rounds k _ _ hGet with
      ⟨hLeader, hBounds, _⟩
    unfold Host.workRound
    rw [Nat.max_eq_right hBounds.1]
    exact ⟨hLeader, hBounds.2⟩

/- What the batcher makes in the current round is fresh. -/
theorem HostInv.fresh
    {payload : List Transaction}
    {pool : Txpool Transaction}
    (hInv : HostInv n i host)
    (hChain : ChainInv host.node.cx)
    (hWork : host.workRound = host.node.cx.round)
    (hMake :
      host.batcher.pool.makeBatch
          host.batcher.currentRound =
        .ok (payload, pool)) :
    Fresh host.node.cx ⟨payload⟩ := by
  intro q p hLookup key hKey hIncludes
  have hPassed := (hChain.keys q).mp ⟨p, hLookup⟩
  by_cases hHeard : host.heard = []
  · have hRound := (hInv.follows.start hHeard).1
    unfold Host.workRound at hWork
    omega
  · rcases hInv.follows.current hHeard with ⟨hNow, _⟩
    rcases Host.log_of_heard hNow with ⟨k, hBound, hGet⟩
    rcases hInv.log.rounds k _ _ hGet with
      ⟨_, hBounds, _, hReported⟩
    unfold Host.workRound at hWork
    rcases hReported q p (by omega) hLookup key
        hIncludes with ⟨batch, r, hMem, hTold⟩
    have hSubset :
        host.node.cx.txConsensusToBatcher.take k ⊆
          host.heard :=
      List.take_subset_take_left _ (Nat.le_of_lt hBound)
    exact hInv.follows.fresh hMake (hSubset hMem) hTold hKey

/- The batcher's pool changes and nothing else. -/
theorem HostInv.poolOnly
    {pool : Txpool Transaction}
    (hInv : HostInv n i host)
    (hFollows :
      Follows i host.heard
        { host.batcher with pool := pool }) :
    HostInv n i
      { host with
        batcher := { host.batcher with pool := pool } } :=
  { hInv with
    follows := hFollows
    paced := { hInv.paced with } }

/- The batcher may make a batch. -/
theorem HostInv.makes
    {b : RRBatcher Transaction}
    (hInv : HostInv n i host)
    (hChain : ChainInv host.node.cx)
    (hMakes : Makes host.batcher b) :
    HostInv n i { host with batcher := b } := by
  cases hMakes with
  | none => exact hInv
  | empty pool hMake =>
      exact hInv.poolOnly (hInv.follows.makeBatch hMake)
  | sent payload pool hLeads hUnsent _ hMake =>
      rcases hInv.work hChain with ⟨hLeader, hBehind⟩
      have hTurn : leaderOf n host.workRound = i := by
        rw [← hLeader, ← hLeads]
        exact hInv.follows.myId
      -- an unused turn is the current one
      have hWork :
          host.workRound = host.node.cx.round := by
        by_contra hOther
        have hUsed := hInv.paced.spent hTurn (by omega)
        rw [hUnsent] at hUsed
        cases hUsed
      have hEmpty : host.pipeline = [] := by
        rcases hInv.paced.one with
          hNone | ⟨_, _, _, _, hUsed, _⟩
        · exact hNone
        · rw [hUnsent] at hUsed
          cases hUsed
      have hFollows := hInv.follows.makeBatch hMake
      refine { hInv with
        follows := { hFollows with }
        sealedBound := ?_
        paced := ?_ }
      · dsimp only
        rw [List.length_append]
        exact Nat.le_add_right_of_le hInv.sealedBound
      · refine
          { one := Or.inr ⟨⟨payload⟩, ?_, ?_, hWork, rfl,
              hInv.fresh hChain hWork hMake⟩
            skipped := hInv.paced.skipped
            spent := fun _ _ => rfl }
        · unfold Host.pipeline at hEmpty ⊢
          dsimp only
          rw [List.drop_append_of_le_length
            hInv.sealedBound, ← List.append_assoc, hEmpty]
          rfl
        · rw [hWork] at hTurn
          exact hTurn

/- The batcher serves its timer or a client. -/
theorem HostInv.ownEvent
    {event : RRBatcher.Event Transaction}
    {b : RRBatcher Transaction}
    (hInv : HostInv n i host)
    (hChain : ChainInv host.node.cx)
    (hEvent :
      event = .tick ∨
        ∃ tx size, event = .incomingTx tx size)
    (hStep :
      RRBatcher.step order host.batcher event = .ok b) :
    HostInv n i { host with batcher := b } := by
  rcases RRBatcher.step_ok hStep with
    ⟨mid, hPrepares, hMakes, _⟩
  rcases hInv.follows.ownEvent hEvent hPrepares with
    ⟨hFollows, pool, rfl⟩
  exact (hInv.poolOnly hFollows).makes hChain hMakes

theorem HostInv.informed_eq_zero
    (hInv : HostInv n i host)
    (hHeard : host.heard = []) :
    host.informed = 0 := by
  rcases List.take_eq_nil_iff.mp hHeard with hZero | hNil
  · exact hZero
  · have hHead := hInv.log.head
    rw [hNil] at hHead
    cases hHead

/- The rounds told next are later than the batcher's. -/
theorem HostInv.work_le
    {leader : Replica}
    {r : Nat}
    (hInv : HostInv n i host)
    (hNext :
      host.node.cx.txConsensusToBatcher[host.informed]? =
        some (.newRound leader r)) :
    host.workRound ≤ r ∧
      (host.workRound < r ∨ host.informed = 0) := by
  rcases hInv.log.rounds _ _ _ hNext with
    ⟨_, hBounds, hOrder, _⟩
  unfold Host.workRound
  by_cases hHeard : host.heard = []
  · have hRound := (hInv.follows.start hHeard).1
    exact ⟨by omega,
      Or.inr (hInv.informed_eq_zero hHeard)⟩
  · have hNow := (hInv.follows.current hHeard).1
    have hBefore := hOrder _ _ hNow
    rcases Host.log_of_heard hNow with ⟨k, _, hGet⟩
    have hPos := (hInv.log.rounds k _ _ hGet).2.1.1
    exact ⟨by omega, Or.inl (by omega)⟩

/- The batcher enters a round, with nothing sent for it. -/
theorem HostInv.newRound
    {leader : Replica}
    {r : Nat}
    (hInv : HostInv n i host)
    (hFirst :
      host.informed = 0 → host.batcher.proposed = false)
    (hNext :
      host.node.cx.txConsensusToBatcher[host.informed]? =
        some (.newRound leader r)) :
    HostInv n i
      { host with
        batcher :=
          { host.batcher with
            currentLeader := leader
            currentRound := r
            proposed := false }
        informed := host.informed + 1 } := by
  rcases hInv.log.rounds _ _ _ hNext with
    ⟨_, hBounds, hOrder, _⟩
  rcases hInv.work_le hNext with ⟨hWork, hLater⟩
  have hFollows :
      Follows i (host.heard ++ [.newRound leader r])
        { host.batcher with
          currentLeader := leader
          currentRound := r
          proposed := false } :=
    hInv.follows.newRound hOrder
  refine { hInv with
    follows := ?_
    informedBound := (List.getElem?_eq_some_iff.mp hNext).1
    paced := ?_ }
  · unfold Host.heard at hFollows ⊢
    dsimp only
    rw [List.take_add_one, hNext]
    exact hFollows
  · have hMax : max 1 r = r := Nat.max_eq_right hBounds.1
    refine
      { one := ?_
        skipped := ?_
        spent := ?_ }
    · rcases hInv.paced.one with
        hNone | ⟨_, _, _, hSame, hUsed, _⟩
      · exact Or.inl hNone
      · exfalso
        rcases hLater with hLater | hZero
        · omega
        · rw [hFirst hZero] at hUsed
          cases hUsed
    · intro r' hAfter hPassed
      unfold Host.workRound at hAfter
      dsimp only at hAfter hPassed
      exact hInv.paced.skipped r' (by omega) hPassed
    · intro hTurn hPassed
      exfalso
      unfold Host.workRound at hTurn hPassed
      dsimp only at hTurn hPassed
      rw [hMax] at hTurn hPassed
      rcases Nat.lt_or_eq_of_le hWork with hLess | hSame
      · exact hInv.paced.skipped r hLess hPassed hTurn
      · rw [← hSame] at hTurn hPassed
        have hUsed := hInv.paced.spent hTurn hPassed
        rw [hFirst (hLater.resolve_left (by omega))]
          at hUsed
        cases hUsed

/- The batcher takes the next message of the reactor. -/
theorem HostInv.inform
    {msg : BatcherConsensusMsg Transaction}
    {b : RRBatcher Transaction}
    (hInv : HostInv n i host)
    (hChain : ChainInv host.node.cx)
    (hFirst :
      host.informed = 0 → host.batcher.proposed = false)
    (hNext :
      host.node.cx.txConsensusToBatcher[host.informed]? =
        some msg)
    (hStep :
      RRBatcher.step order host.batcher (.consensus msg) =
        .ok b) :
    HostInv n i
      { host with
        batcher := b
        informed := host.informed + 1 } := by
  rcases RRBatcher.step_ok hStep with
    ⟨mid, hPrepares, hMakes, _⟩
  have hMid :
      HostInv n i
        { host with
          batcher := mid
          informed := host.informed + 1 } := by
    by_cases hRound :
        ∃ leader r, msg = .newRound leader r
    · rcases hRound with ⟨leader, r, rfl⟩
      cases hPrepares with
      | call _ op pool hCall _ => cases hCall
      | newRound => exact hInv.newRound hFirst hNext
    · have hHeard : host.heard ≠ [] := by
        intro hNil
        rw [hInv.informed_eq_zero hNil, hInv.log.head]
          at hNext
        exact hRound ⟨0, 1, (Option.some.inj hNext).symm⟩
      have hNone : ∀ rounds, msg ≠ .rollback rounds := by
        intro rounds hSame
        rw [hSame] at hNext
        exact hInv.log.noRollback rounds
          (List.mem_of_getElem? hNext)
      rcases hInv.follows.aboutBatch hHeard
          (fun leader r hSame => hRound ⟨leader, r, hSame⟩)
          hNone hPrepares with ⟨hFollows, pool, rfl⟩
      refine { hInv with
        follows := ?_
        informedBound :=
          (List.getElem?_eq_some_iff.mp hNext).1
        paced := { hInv.paced with } }
      unfold Host.heard at hFollows ⊢
      dsimp only
      rw [List.take_add_one, hNext]
      exact hFollows
  exact hMid.makes hChain hMakes

end Apollo

end LibApollo

------------------------------------------------------------
-- The Reactor Keeps the Pace
------------------------------------------------------------

namespace LibApollo

namespace Apollo

open Txpool (keyOf)

variable {H : Type} [DecidableEq H] [Crypto H]
variable {n : Nat}
variable {i : Replica}
variable {host : Host H}
variable {node : Node H}

omit [Crypto H] in
/- More is told to the batcher than it has taken. -/
theorem Host.heard_append
    {more : List (BatcherConsensusMsg Transaction)}
    (hBound :
      host.informed ≤
        host.node.cx.txConsensusToBatcher.length)
    (hLog :
      node.cx.txConsensusToBatcher =
        host.node.cx.txConsensusToBatcher ++ more) :
    { host with node := node }.heard = host.heard := by
  unfold Host.heard
  dsimp only
  rw [hLog, List.take_append_of_le_length hBound]

/- Batches may move along the pipeline. -/
theorem Paced.move
    {host' : Host H}
    (hPaced : Paced n i host)
    (hPipeline : host'.pipeline = host.pipeline)
    (hBatcher : host'.batcher = host.batcher)
    (hRound : host'.node.cx.round = host.node.cx.round)
    (hChain :
      host'.node.cx.propChainByRound =
        host.node.cx.propChainByRound) :
    Paced n i host' := by
  have hWork : host'.workRound = host.workRound := by
    unfold Host.workRound
    rw [hBatcher]
  constructor
  · rw [hPipeline, hWork, hBatcher, hRound]
    unfold Fresh
    rw [hChain]
    exact hPaced.one
  · rw [hWork, hRound]
    exact hPaced.skipped
  · rw [hWork, hRound, hBatcher]
    exact hPaced.spent

/- The reactor does nothing the batcher hears of. -/
theorem HostInv.quiet
    (hInv : HostInv n i host)
    (hQuiet : Quiet host.node.cx node.cx) :
    HostInv n i { host with node := node } := by
  have hTold :
      node.cx.txConsensusToBatcher =
        host.node.cx.txConsensusToBatcher ++ [] := by
    rw [hQuiet.log, List.append_nil]
  have hHeard := Host.heard_append hInv.informedBound hTold
  refine
    { stocked := hQuiet.stocked
      log := hInv.log.quiet hQuiet
      follows := ?_
      informedBound := ?_
      sealedBound := hInv.sealedBound
      channel := ?_
      paced := ?_ }
  · rw [hHeard]
    exact hInv.follows
  · dsimp only
    rw [hQuiet.log]
    exact hInv.informedBound
  · dsimp only
    rw [hQuiet.pending]
    intro x hMem
    rcases hInv.channel x hMem with ⟨hHash, hHas⟩
    exact ⟨hHash, hQuiet.kept _ hHas⟩
  · refine hInv.paced.move ?_ rfl hQuiet.round hQuiet.chain
    unfold Host.pipeline
    dsimp only
    rw [hQuiet.pending]

/- The batch side of a host after a proposal was taken. -/
theorem HostInv.takes
    {p : Propose H}
    {block : Block H}
    {pending : List (H × Batch)}
    (hFree : CollisionFree H)
    (hBatches : BatchCollisionFree H)
    (hInv : HostInv n i host)
    (hLeader :
      node.cx.roundLeader = leaderOf n node.cx.round)
    (hWell : block.WellHashed)
    (hPending : pending ⊆ host.node.cx.pendingBatches)
    (hTakes :
      Takes p block
        { host.node.cx with pendingBatches := pending }
        node.cx)
    (hPaced : Paced n i { host with node := node }) :
    HostInv n i { host with node := node } := by
  have hLog :
      LogInv n
        { host.node.cx with pendingBatches := pending } :=
    { hInv.log with }
  rcases hTakes.log with ⟨news, _, _, hTold⟩
  rw [List.append_assoc] at hTold
  have hHeard := Host.heard_append hInv.informedBound hTold
  refine
    { stocked := hTakes.stocked
      log := hLog.takes hFree hBatches hLeader hWell hTakes
      follows := ?_
      informedBound := ?_
      sealedBound := hInv.sealedBound
      channel := ?_
      paced := hPaced }
  · rw [hHeard]
    exact hInv.follows
  · dsimp only
    rw [hTold, List.length_append]
    exact Nat.le_add_right_of_le hInv.informedBound
  · dsimp only
    rw [hTakes.pending]
    intro x hMem
    have hBefore :
        x ∈ host.node.cx.pendingBatches ++
          host.memToConsensus := by
      rcases List.mem_append.mp hMem with hHere | hThere
      · exact List.mem_append_left _ (hPending hHere)
      · exact List.mem_append_right _ hThere
    rcases hInv.channel x hBefore with ⟨hHash, hHas⟩
    exact ⟨hHash, hTakes.kept _ hHas⟩

/- In the turn of another the host has no batch under way. -/
theorem Paced.takes
    {p : Propose H}
    {block : Block H}
    (hPaced : Paced n i host)
    (hTurn : leaderOf n host.node.cx.round ≠ i)
    (hTakes : Takes p block host.node.cx node.cx) :
    Paced n i { host with node := node } := by
  have hRound := hTakes.round
  constructor
  · left
    unfold Host.pipeline
    dsimp only
    rw [hTakes.pending]
    rcases hPaced.one with hNone | ⟨_, _, hOwn, _⟩
    · exact hNone
    · exact absurd hOwn hTurn
  · intro r hAfter hPassed
    change r < node.cx.round at hPassed
    rcases Nat.lt_or_ge r host.node.cx.round with
      hBefore | hNow
    · exact hPaced.skipped r hAfter hBefore
    · rw [show r = host.node.cx.round by omega]
      exact hTurn
  · intro hOwn hPassed
    change host.workRound < node.cx.round at hPassed
    rcases Nat.lt_or_ge host.workRound
        host.node.cx.round with hBefore | hNow
    · exact hPaced.spent hOwn hBefore
    · have hSame :
          host.workRound = host.node.cx.round := by
        omega
      change leaderOf n host.workRound = i at hOwn
      rw [hSame] at hOwn
      exact absurd hOwn hTurn

/- What a host proposes is the one batch under way. -/
theorem Paced.of_pending
    {batchHash : H}
    {batch : Batch}
    {rest : List (H × Batch)}
    (hPaced : Paced n i host)
    (hPending :
      host.node.cx.pendingBatches =
        (batchHash, batch) :: rest) :
    (rest = [] ∧ host.memToConsensus = [] ∧
        host.batcher.outgoing.drop host.sealedCount = []) ∧
      host.workRound = host.node.cx.round ∧
      host.batcher.proposed = true ∧
      Fresh host.node.cx batch := by
  rcases hPaced.one with
    hNone | ⟨other, hOne, _, hWork, hUsed, hFresh⟩
  · unfold Host.pipeline at hNone
    rw [hPending] at hNone
    simp at hNone
  · unfold Host.pipeline at hOne
    rw [hPending] at hOne
    simp only [List.map_cons, List.cons_append,
      List.cons.injEq, List.append_eq_nil_iff,
      List.map_eq_nil_iff] at hOne
    rcases hOne with ⟨rfl, ⟨hRest, hQueue⟩, hOut⟩
    exact ⟨⟨hRest, hQueue, hOut⟩, hWork, hUsed, hFresh⟩

/- The host has used its turn. -/
theorem Paced.proposes
    {p : Propose H}
    {block : Block H}
    {batchHash : H}
    {batch : Batch}
    {rest : List (H × Batch)}
    (hPaced : Paced n i host)
    (hPending :
      host.node.cx.pendingBatches =
        (batchHash, batch) :: rest)
    (hTakes :
      Takes p block
        { host.node.cx with pendingBatches := rest }
        node.cx) :
    Paced n i { host with node := node } := by
  rcases hPaced.of_pending hPending with
    ⟨⟨hRest, hQueue, hOut⟩, hWork, hUsed, _⟩
  have hRound :
      node.cx.round = host.node.cx.round + 1 :=
    hTakes.round
  constructor
  · left
    unfold Host.pipeline
    dsimp only
    rw [hTakes.pending, hRest, hQueue, hOut]
    rfl
  · intro r hAfter hPassed
    change host.workRound < r at hAfter
    change r < node.cx.round at hPassed
    omega
  · intro _ _
    exact hUsed

/- The reactor takes a batch in. -/
theorem HostInv.intake
    {batchHash : H}
    {batch : Batch}
    {rest : List (H × Batch)}
    {phase : Phase}
    (hInv : HostInv n i host)
    (hQueue :
      host.memToConsensus = (batchHash, batch) :: rest) :
    HostInv n i
      { host with
        memToConsensus := rest
        node :=
          { host.node with
            cx :=
              { host.node.cx with
                pendingBatches :=
                  host.node.cx.pendingBatches ++
                    [(batchHash, batch)] }
            phase := phase } } := by
  have hSame :
      host.node.cx.pendingBatches ++
          [(batchHash, batch)] ++ rest =
        host.node.cx.pendingBatches ++
          host.memToConsensus := by
    rw [hQueue]
    simp
  refine
    { stocked := { hInv.stocked with }
      log := { hInv.log with }
      follows := hInv.follows
      informedBound := hInv.informedBound
      sealedBound := hInv.sealedBound
      channel := ?_
      paced := ?_ }
  · dsimp only
    rw [hSame]
    exact hInv.channel
  · refine hInv.paced.move ?_ rfl rfl rfl
    unfold Host.pipeline
    dsimp only
    rw [← List.map_append, hSame, List.map_append]

/- The seal task takes a batch. -/
theorem HostInv.sealNext
    {batch : Batch}
    (hInv : HostInv n i host)
    (hNext :
      host.batcher.outgoing[host.sealedCount]? =
        some batch) :
    HostInv n i
      { host with
        sealedCount := host.sealedCount + 1
        memToConsensus :=
          host.memToConsensus ++ [(batch.hash, batch)]
        node :=
          { host.node with
            cx :=
              host.node.cx.persistBatch batch.hash
                batch } } := by
  have hQuiet :
      Quiet host.node.cx
        (host.node.cx.persistBatch batch.hash batch) :=
    hInv.stocked.persistBatch_quiet rfl
  have hKept :
      HostInv n i
        { host with
          node :=
            { host.node with
              cx :=
                host.node.cx.persistBatch batch.hash
                  batch } } :=
    hInv.quiet hQuiet
  have hBound := (List.getElem?_eq_some_iff.mp hNext).1
  refine
    { stocked := hKept.stocked
      log := hKept.log
      follows := hKept.follows
      informedBound := hKept.informedBound
      sealedBound := hBound
      channel := ?_
      paced := ?_ }
  · intro x hMem
    rw [← List.append_assoc] at hMem
    rcases List.mem_append.mp hMem with hOld | hNew
    · exact hKept.channel x hOld
    · rw [List.mem_singleton.mp hNew]
      exact ⟨rfl, batch,
        BatchStores.persistBatch_holds _ _ _⟩
  · have hDrop :
        host.batcher.outgoing.drop host.sealedCount =
          batch ::
            host.batcher.outgoing.drop
              (host.sealedCount + 1) := by
      rw [List.drop_eq_getElem_cons hBound]
      rw [List.getElem?_eq_getElem hBound,
        Option.some.injEq] at hNext
      rw [hNext]
    refine hInv.paced.move ?_ rfl hQuiet.round hQuiet.chain
    unfold Host.pipeline
    dsimp only
    rw [hDrop, hQuiet.pending]
    simp

end Apollo

end LibApollo

------------------------------------------------------------
-- All Hosts Together
------------------------------------------------------------

namespace LibApollo

namespace Apollo

open Txpool (keyOf)

variable {H : Type} [DecidableEq H] [Crypto H]
variable {n f : Nat}
variable {i : Replica}
variable {order : IterOrder}
variable {g : Replica → Host H}
variable {host : Host H}

/- The reactors of the hosts. -/
def reactors (g : Replica → Host H) : Replica → Node H :=
  fun i => (g i).node

omit [Crypto H] in
theorem reactors_update
    (g : Replica → Host H)
    (i : Replica)
    (host : Host H) :
    reactors (Function.update g i host) =
      Function.update (reactors g) i host.node := by
  funext j
  unfold reactors
  by_cases hSelf : j = i
  · rw [hSelf, Function.update_self, Function.update_self]
  · rw [Function.update_of_ne hSelf,
      Function.update_of_ne hSelf]

/-
  Hosts keep their pace, and no key is in two proposals that
  were made.
-/
structure SystemInv
    (n f : Nat)
    (g : Replica → Host H) : Prop where
  global : GlobalInv n f (reactors g)
  host : ∀ i, i < n → HostInv n i (g i)
  distinct :
    ∀ p q, Made n (reactors g) p →
      Made n (reactors g) q → p.round < q.round →
        ∀ key, Includes p.blockHash key →
          ¬ Includes q.blockHash key

/- A step in which nothing is made. -/
theorem SystemInv.update
    (hInv : SystemInv n f g)
    (hGlobal :
      GlobalInv n f
        (Function.update (reactors g) i host.node))
    (hHost : HostInv n i host)
    (hMade :
      ∀ p,
        Made n (Function.update (reactors g) i host.node)
            p →
          Made n (reactors g) p) :
    SystemInv n f (Function.update g i host) := by
  rw [← reactors_update] at hGlobal hMade
  exact
    { global := hGlobal
      host :=
        Network.forall_update (HostInv n) hHost hInv.host
      distinct := fun p q hLeft hRight =>
        hInv.distinct p q (hMade p hLeft) (hMade q hRight) }

/- Only the batch side of a host changes. -/
theorem SystemInv.batchSide
    (hInv : SystemInv n f g)
    (hNode : host.node = (g i).node)
    (hHost : HostInv n i host) :
    SystemInv n f (Function.update g i host) := by
  have hSame :
      Function.update (reactors g) i host.node =
        reactors g := by
    rw [hNode]
    exact Function.update_eq_self i (reactors g)
  apply hInv.update _ hHost
  · rw [hSame]
    exact fun _ hMade => hMade
  · rw [hSame]
    exact hInv.global

/- The chain of a reactor does not change. -/
theorem SystemInv.sameChain
    (hInv : SystemInv n f g)
    (hGlobal :
      GlobalInv n f
        (Function.update (reactors g) i host.node))
    (hChain :
      host.node.cx.propChainByRound =
        (g i).node.cx.propChainByRound)
    (hHost : HostInv n i host) :
    SystemInv n f (Function.update g i host) := by
  apply hInv.update hGlobal hHost
  intro p hMade
  rw [made_update_iff, hChain] at hMade
  split at hMade
  · rename_i hLeader
    unfold Made
    rw [hLeader]
    exact hMade
  · exact hMade

/- A reactor accepts the proposal of another. -/
theorem SystemInv.takes
    {node : Node H}
    {acc : Propose H → Block H → Prop}
    {p : Propose H}
    {block : Block H}
    (hFree : CollisionFree H)
    (hBatches : BatchCollisionFree H)
    (hInv : SystemInv n f g)
    (hIndex : i < n)
    (hGlobal :
      GlobalInv n f (Function.update (reactors g) i node))
    (hEffects :
      Effects (madeScope n (reactors g)) acc (g i).node.cx
        node.cx)
    (hTakes : Takes p block (g i).node.cx node.cx) :
    SystemInv n f
      (Function.update g i { g i with node := node }) := by
  have hPeer := hInv.global.peer i hIndex
  have hPeer' := hGlobal.peer i hIndex
  rw [Function.update_self] at hPeer'
  have hData := hPeer.data.effects hEffects
  have hMade : Made n (reactors g) p := by
    apply hData.byRound p.round p
    rw [hTakes.chain, FinMap.lookup_insert_eq, if_pos rfl]
  have hTurn : leaderOf n (g i).node.cx.round ≠ i := by
    intro hOwn
    unfold Made at hMade
    rw [hTakes.now, hOwn] at hMade
    have hPassed := (hPeer.chain.keys _).mp ⟨p, hMade⟩
    exact Nat.lt_irrefl _ hPassed.2
  have hWell : block.WellHashed := by
    rcases hInv.global.made p hMade with
      ⟨made, hWell, hHash, _⟩
    have hSame : block = made :=
      Block.Proper.eq_of_hash_eq hFree
        (hData.delivered _ _ hTakes.stored) (Or.inr hWell)
        (hTakes.named.trans hHash.symm)
    rw [hSame]
    exact hWell
  have hLeader :=
    hPeer'.roundLeader_eq (Nat.zero_lt_of_lt hIndex)
  have hHost := hInv.host i hIndex
  have hPaced := hHost.paced.takes hTurn hTakes
  apply hInv.update hGlobal
  · exact hHost.takes hFree hBatches hLeader hWell
      (List.Subset.refl _) hTakes hPaced
  · intro q hLater
    rw [made_update_iff] at hLater
    split at hLater
    · exact hData.byRound _ _ hLater
    · exact hLater

/- Before a proposal, one was made in every round. -/
theorem GlobalInv.exists_made
    {nodes : Replica → Node H}
    {q : Propose H}
    {r : Nat}
    (hGlobal : GlobalInv n f nodes)
    (hMade : Made n nodes q)
    (hFirst : 1 ≤ r)
    (hLast : r ≤ q.round) :
    ∃ p, Made n nodes p ∧ p.round = r := by
  -- down from the round of the proposal
  generalize hGap : q.round - r = gap
  induction gap generalizing q with
  | zero => exact ⟨q, hMade, by omega⟩
  | succ gap ih =>
      rcases hGlobal.made q hMade with ⟨_, _, _, _, hCases⟩
      rcases hCases with ⟨hOne, _⟩ | ⟨q', hBefore, hSucc, _⟩
      · omega
      · exact ih hBefore (by omega) (by omega)

/- A made proposal of a past round is in every chain. -/
theorem GlobalInv.lookup_of_made
    {nodes : Replica → Node H}
    {p : Propose H}
    (hGlobal : GlobalInv n f nodes)
    (hIndex : i < n)
    (hMade : Made n nodes p)
    (hPassed : p.round < (nodes i).cx.round) :
    (nodes i).cx.propChainByRound.lookup p.round =
      some p := by
  have hPeer := hGlobal.peer i hIndex
  have hPos : 1 ≤ p.round := by
    have hTurn : leaderOf n p.round < n :=
      Nat.mod_lt _ (Nat.zero_lt_of_lt hIndex)
    exact (((hGlobal.peer _ hTurn).chain.keys _).mp
      ⟨p, hMade⟩).1
  rcases (hPeer.chain.keys p.round).mpr ⟨hPos, hPassed⟩
    with ⟨q, hLookup⟩
  have hSame : q = p :=
    Made.eq_of_round_eq (hPeer.data.byRound _ _ hLookup)
      hMade (hPeer.chain.entry _ _ hLookup).1
  rw [hLookup, hSame]

/- None was made in the round that a replica leads. -/
theorem GlobalInv.lt_of_made
    {nodes : Replica → Node H}
    {p : Propose H}
    (hGlobal : GlobalInv n f nodes)
    (hIndex : i < n)
    (hTurn : leaderOf n (nodes i).cx.round = i)
    (hMade : Made n nodes p) :
    p.round < (nodes i).cx.round := by
  have hPeer := hGlobal.peer i hIndex
  apply Nat.lt_of_not_le
  intro hLater
  rcases hGlobal.exists_made hMade hPeer.chain.round_pos
      hLater with ⟨q, hNow, hRound⟩
  unfold Made at hNow
  rw [hRound, hTurn] at hNow
  have hPassed := (hPeer.chain.keys _).mp ⟨q, hNow⟩
  exact Nat.lt_irrefl _ hPassed.2

/- A host proposes the batch it has under way. -/
theorem SystemInv.proposes
    {node : Node H}
    {batchHash : H}
    {batch : Batch}
    {rest : List (H × Batch)}
    (hFree : CollisionFree H)
    (hBatches : BatchCollisionFree H)
    (hInv : SystemInv n f g)
    (hIndex : i < n)
    (hGlobal :
      GlobalInv n f (Function.update (reactors g) i node))
    (hProposes : Proposes (g i).node batchHash batch rest)
    (hStep : step (g i).node .internal = .ok node) :
    SystemInv n f
      (Function.update g i { g i with node := node }) := by
  have hPeer := hInv.global.peer i hIndex
  have hPeer' := hGlobal.peer i hIndex
  rw [Function.update_self] at hPeer'
  have hHost := hInv.host i hIndex
  have hPending := hProposes.2.2.2
  rcases hHost.channel (batchHash, batch)
      (by rw [hPending]; simp) with ⟨hSealed, hHas⟩
  have hTakes :=
    proposes_takes hHost.stocked hHas hProposes hStep
  have hNodes : 0 < n := Nat.zero_lt_of_lt hIndex
  have hLeader := hPeer'.roundLeader_eq hNodes
  have hTurn : leaderOf n (g i).node.cx.round = i :=
    (hPeer.roundLeader_eq hNodes).symm.trans
      (hProposes.2.2.1.trans hPeer.myid)
  have hMade :=
    fun p =>
      hPeer.made_update_iff (p := p) rfl hTurn rfl
        hTakes.chain
  have hPaced := hHost.paced.proposes hPending hTakes
  have hFresh :=
    (hHost.paced.of_pending hPending).2.2.2
  have hSubset :
      rest ⊆ (g i).node.cx.pendingBatches := by
    rw [hPending]
    exact List.subset_cons_self _ _
  have hHost' :=
    hHost.takes hFree hBatches hLeader
      (Block.extending_wellHashed _ _ _ _) hSubset hTakes
      hPaced
  -- the new proposal shares no key with an earlier one
  have hNew :
      ∀ p, Made n (reactors g) p →
        p.round < (g i).node.cx.round →
          ∀ key, Includes p.blockHash key →
            ¬ Includes
              (newBlock
                { (g i).node.cx with
                  pendingBatches := rest } batchHash).hash
              key := by
    intro p hOld hBefore key hIncludes hAgain
    have hLookup :=
      hInv.global.lookup_of_made hIndex hOld hBefore
    have hKey : key ∈ batch.payload.map keyOf :=
      hAgain.mem hFree hBatches
        (Block.extending_wellHashed _ _ _ _) hSealed.symm
    exact hFresh _ p hLookup key hKey hIncludes
  refine
    { global := ?_
      host :=
        Network.forall_update (HostInv n) hHost' hInv.host
      distinct := ?_ }
  · rw [reactors_update]
    exact hGlobal
  · rw [reactors_update]
    intro p q hLeft hRight hOrder key hIncludes
    rcases (hMade q).mp hRight with rfl | hLater
    · rcases (hMade p).mp hLeft with rfl | hEarlier
      · exact absurd hOrder (Nat.lt_irrefl _)
      · exact hNew p hEarlier hOrder key hIncludes
    · rcases (hMade p).mp hLeft with rfl | hEarlier
      · have hBound :=
          hInv.global.lt_of_made hIndex hTurn hLater
        exact absurd hOrder (Nat.lt_asymm hBound)
      · exact hInv.distinct p q hEarlier hLater hOrder key
          hIncludes

end Apollo

end LibApollo

------------------------------------------------------------
-- Exactly-Once Inclusion
------------------------------------------------------------

namespace LibApollo

namespace Apollo

open Txpool (keyOf)

variable {H : Type} [DecidableEq H] [Crypto H]
variable {n f : Nat}
variable {i : Replica}
variable {order : IterOrder}
variable {g : Replica → Host H}
variable {host : Host H}

/-
  When a batcher takes its first message, that of round 1,
  it has sent no batch.
-/
def UnsentAtStart
    (g : Replica → Host H)
    (event : Replica × HostEvent H) : Prop :=
  event.2 = .inform → (g event.1).informed = 0 →
    (g event.1).batcher.proposed = false

/- A step of the reactor of a host. -/
theorem SystemInv.reacts
    {event : Event H}
    {node : Node H}
    (hFree : CollisionFree H)
    (hBatches : BatchCollisionFree H)
    (hInv : SystemInv n f g)
    (hIndex : i < n)
    (hEvent :
      event = .tick ∨ (∃ msg, event = .recv msg) ∨
        event = .internal)
    (hMsg :
      ∀ msg, event = .recv msg →
        (madeScope n (reactors g)).OkMsg msg)
    (hGlobal :
      GlobalInv n f (Function.update (reactors g) i node))
    (hStep : Apollo.step (g i).node event = .ok node) :
    SystemInv n f
      (Function.update g i { g i with node := node }) := by
  have hPeer := hInv.global.peer i hIndex
  have hHost := hInv.host i hIndex
  by_cases hProposes :
      event = .internal ∧
        ∃ batchHash batch rest,
          Proposes (g i).node batchHash batch rest
  · rcases hProposes with
      ⟨rfl, batchHash, batch, rest, hProposes⟩
    exact hInv.proposes hFree hBatches hIndex hGlobal
      hProposes hStep
  · have hReports : Reports (g i).node.cx node.cx := by
      apply step_reports hHost.stocked _ hStep
      rcases hEvent with hTick | hRecv | hInternal
      · exact Or.inl hTick
      · exact Or.inr (Or.inl hRecv)
      · refine Or.inr (Or.inr ⟨hInternal, ?_⟩)
        intro batchHash batch rest hPair
        exact hProposes
          ⟨hInternal, batchHash, batch, rest, hPair⟩
    rcases hReports with hQuiet | ⟨p, block, hTakes⟩
    · exact hInv.sameChain hGlobal hQuiet.chain
        (hHost.quiet hQuiet)
    · rcases step_ok hPeer.data hMsg hStep with
        hEffects | ⟨batchHash, batch, rest, hEq, hPair, _⟩
      · exact hInv.takes hFree hBatches hIndex hGlobal
          hEffects hTakes
      · exact absurd ⟨hEq, batchHash, batch, rest, hPair⟩
          hProposes

/- Every step of a host keeps the invariant. -/
theorem SystemInv.step
    {event : HostEvent H}
    (hFree : CollisionFree H)
    (hBatches : BatchCollisionFree H)
    (hInv : SystemInv n f g)
    (hIndex : i < n)
    (hSent :
      ∀ msg, hostInterface.received event = some msg →
        ∃ sender < n,
          (i, msg) ∈ hostInterface.outbox (g sender))
    (hUnsent : UnsentAtStart g (i, event))
    (hStep : Host.step order (g i) event = .ok host) :
    SystemInv n f (Function.update g i host) := by
  have hPeer := hInv.global.peer i hIndex
  have hHost := hInv.host i hIndex
  have hSteps := Host.step_ok hStep
  -- every step of a reactor is one of the reactor network
  have hGlobal :
      ∀ inner node,
        Apollo.step (g i).node inner = .ok node →
        (∀ msg, interface.received inner = some msg →
          hostInterface.received event = some msg) →
        GlobalInv n f
          (Function.update (reactors g) i node) := by
    intro inner node hInner hReceived
    apply hInv.global.step hFree hIndex _ hInner
    intro msg hMsg
    rcases hSent msg (hReceived msg hMsg) with
      ⟨sender, hSender, hMem⟩
    exact ⟨sender, hSender, hMem⟩
  have hMsg :
      ∀ msg, event = .recv msg →
        (madeScope n (reactors g)).OkMsg msg := by
    intro msg hEq
    rcases hSent msg (by rw [hEq]; rfl) with
      ⟨sender, hSender, hMem⟩
    exact (hInv.global.peer sender hSender).data.outbox _
      hMem
  cases hSteps with
  | idle =>
      exact hInv.batchSide rfl hHost
  | bench node hNode =>
      refine hInv.reacts hFree hBatches hIndex
        (Or.inl rfl) ?_ (hGlobal _ _ hNode ?_) hNode
      · intro msg hSame
        cases hSame
      · intro msg hSame
        cases hSame
  | recv msg node hNode =>
      refine hInv.reacts hFree hBatches hIndex
        (Or.inr (Or.inl ⟨msg, rfl⟩)) ?_
        (hGlobal _ _ hNode (fun _ hSame => hSame)) hNode
      intro other hSame
      cases hSame
      exact hMsg msg rfl
  | internal node hNode =>
      refine hInv.reacts hFree hBatches hIndex
        (Or.inr (Or.inr rfl)) ?_ (hGlobal _ _ hNode ?_)
        hNode
      · intro msg hSame
        cases hSame
      · intro msg hSame
        cases hSame
  | intake batchHash batch rest hQueue hPhase =>
      refine hInv.sameChain ?_ rfl (hHost.intake hQueue)
      refine hGlobal (.batch batchHash batch) _ ?_ ?_
      · simp only [Apollo.step, hPhase, if_true]
      · intro msg hSame
        cases hSame
  | timer b hBatcher =>
      exact hInv.batchSide rfl
        (hHost.ownEvent hPeer.chain (Or.inl rfl) hBatcher)
  | client tx size b hBatcher =>
      exact hInv.batchSide rfl
        (hHost.ownEvent hPeer.chain
          (Or.inr ⟨tx, size, rfl⟩) hBatcher)
  | inform msg b hNext hBatcher =>
      exact hInv.batchSide rfl
        (hHost.inform hPeer.chain (hUnsent rfl) hNext
          hBatcher)
  | sealNext batch hNext =>
      refine hInv.sameChain ?_ rfl (hHost.sealNext hNext)
      refine hGlobal (.sealed batch) _ rfl ?_
      intro msg hSame
      cases hSame

theorem hostInv_new
    {config : Config}
    (hId : config.id = i)
    (batchSize : Nat) :
    HostInv n i (Host.new config batchSize : Host H) where
  stocked := stocked_new config
  log := logInv_new config
  follows := by
    rw [← hId]
    exact follows_new
      { myId := config.id
        initialLeader := 0
        batchSize := batchSize } rfl
  informedBound := Nat.zero_le _
  sealedBound := Nat.zero_le _
  channel := nofun
  paced :=
    { one := Or.inl rfl
      skipped := by
        intro r hAfter hPassed
        change r < 1 at hPassed
        change 1 < r at hAfter
        omega
      spent := by
        intro _ hPassed
        exact absurd hPassed (Nat.lt_irrefl 1) }

theorem systemInv_new
    {config : Replica → Config}
    (hConfig : SystemConfig n f config)
    (batchSize : Replica → Nat) :
    SystemInv n f
      (fun i => (Host.new (config i) (batchSize i) :
        Host H)) where
  global := globalInv_new hConfig
  host := fun i hIndex =>
    hostInv_new (hConfig i hIndex).1 (batchSize i)
  distinct := by
    intro p q hMade
    exact absurd hMade (not_made_new n config p)

/-
  The node has committed the block of this hash, and its
  batch has a transaction with the key.
-/
def CommitsKey
    (cx : Context H)
    (hash : H)
    (key : TxKey) : Prop :=
  hash ∈ cx.storage.committedBlocksByHash ∧
    ∃ (block : Block H) (batch : Batch),
      cx.storage.deliveredBlockFromHash hash =
          some block ∧
        batch.hash = block.body.batchHash ∧
        key ∈ batch.payload.map keyOf

/- A committed key is that of a proposal in the chain. -/
theorem PeerInv.committed_proposal
    {nodes : Replica → Node H}
    {cx : Context H}
    {hash : H}
    {key : TxKey}
    (hFree : CollisionFree H)
    (hBatches : BatchCollisionFree H)
    (hPeer : PeerInv n f nodes i cx)
    (hCommits : CommitsKey cx hash key) :
    ∃ p, Made n nodes p ∧ hash = p.blockHash ∧
      Includes p.blockHash key := by
  rcases hCommits with
    ⟨hCommitted, block, batch, hStored, hSealed, hKey⟩
  have hNamed : block.hash = hash :=
    Storage.getHash_of_delivered hStored
  have hWell : block.WellHashed := by
    rcases hPeer.data.delivered _ _ hStored with
      rfl | hWell
    · exact absurd hSealed (hBatches.ne_empty _)
    · exact hWell
  rcases (hPeer.linear.committed hash).mp hCommitted with
    ⟨_, r, hBound, hAccepted⟩
  by_cases hZero : r = 0
  · rw [hZero, acceptedHash_zero, ← hNamed, hWell]
      at hAccepted
    exact absurd hAccepted (hFree.ne_empty _ _)
  · rcases (hPeer.chain.keys r).mpr
        ⟨by omega, by omega⟩ with ⟨p, hLookup⟩
    rw [acceptedHash_of_lookup hPeer.chain hLookup]
      at hAccepted
    refine ⟨p, hPeer.data.byRound _ _ hLookup, hAccepted,
      block, batch, hWell, ?_, hSealed, hKey⟩
    exact hNamed.trans hAccepted

/-
  In every run of `n` hosts in which no batcher has sent a
  batch when it takes its first message, no key occurs in
  two blocks that a host has committed.
-/
theorem exactly_once_inclusion
    {config : Replica → Config}
    {batchSize : Replica → Nat}
    (hFree : CollisionFree H)
    (hBatches : BatchCollisionFree H)
    (hConfig : SystemConfig n f config)
    (hReach :
      Machine.Reach (Network.step (Host.step order))
        (fun g event =>
          Network.Delivers hostInterface n g event ∧
            UnsentAtStart g event)
        (fun i => Host.new (config i) (batchSize i)) g)
    (hIndex : i < n)
    (hash hash' : H)
    (key : TxKey)
    (hFirst : CommitsKey (g i).node.cx hash key)
    (hSecond : CommitsKey (g i).node.cx hash' key) :
    hash = hash' := by
  have hInv : SystemInv n f g := by
    apply hReach.invariant (SystemInv n f)
      (systemInv_new hConfig batchSize)
    intro g g' event hInv hGuard hOk
    rcases event with ⟨j, event⟩
    rcases hGuard with ⟨⟨hBound, hSent⟩, hUnsent⟩
    rcases Network.step_ok hOk with ⟨host, hStep, rfl⟩
    exact hInv.step hFree hBatches hBound hSent hUnsent
      hStep
  have hPeer := hInv.global.peer i hIndex
  rcases hPeer.committed_proposal hFree hBatches hFirst with
    ⟨p, hp, rfl, hIncludes⟩
  rcases hPeer.committed_proposal hFree hBatches hSecond
    with ⟨q, hq, rfl, hAgain⟩
  rcases Nat.lt_trichotomy p.round q.round with
    hLess | hSame | hMore
  · exact absurd hAgain
      (hInv.distinct p q hp hq hLess key hIncludes)
  · rw [hp.eq_of_round_eq hq hSame]
  · exact absurd hIncludes
      (hInv.distinct q p hq hp hMore key hAgain)

/- One transaction of a client, alone in a batch. -/
def loneBatch (client : Nat) : Batch :=
  ⟨[Txpool.transaction client 1]⟩

def firstKept : Block Digest :=
  Block.extending Block.genesis 0 1 (loneBatch 1).hash

def secondKept : Block Digest :=
  Block.extending firstKept 1 2 (loneBatch 2).hash

def thirdKept : Block Digest :=
  Block.extending secondKept 2 3 (loneBatch 3).hash

/- The batch of the second block once more. -/
def fourthKept : Block Digest :=
  Block.extending thirdKept 0 4 (loneBatch 2).hash

/- The proposal of a round reaches a host. -/
def hears
    (dest round client : Nat)
    (block : Block Digest) :
    Replica × HostEvent Digest :=
  (dest,
    .recv
      (.newProposal
        (Propose.signed
          (Digest.keyOf block.header.author)
          block.header.author round block.hash)
        block (loneBatch client)))

/- A transaction comes in, and the timer makes a batch. -/
def batches
    (id client : Nat) : List (Replica × HostEvent Digest) :=
  [(id, .client (Txpool.transaction client 1) 4),
    (id, .timer), (id, .sealNext)]

/- The reactor takes a batch in and leads its round. -/
def leads (id : Nat) : List (Replica × HostEvent Digest) :=
  [(id, .intake), (id, .internal), (id, .internal)]

def works
    (id count : Nat) : List (Replica × HostEvent Digest) :=
  List.replicate count (id, .internal)

def listens
    (id count : Nat) : List (Replica × HostEvent Digest) :=
  List.replicate count (id, .inform)

/- Replica 1 leads round 2 and commits the first block. -/
def secondRound : List (Replica × HostEvent Digest) :=
  hears 1 1 1 firstKept :: works 1 8 ++ listens 1 3 ++
    batches 1 2 ++ leads 1

/- Replica 0 takes its first message, then leads round 1. -/
def unsentRun : List (Replica × HostEvent Digest) :=
  listens 0 1 ++ batches 0 1 ++ leads 0 ++ secondRound

def unsentCheck
    (g : Replica → Host Digest)
    (event : Replica × HostEvent Digest) : Bool :=
  Network.deliversCheck hostInterface 3 g event &&
    match event.2 with
    | .inform =>
        decide
          ((g event.1).informed = 0 →
            (g event.1).batcher.proposed = false)
    | _ => true

theorem unsentAtStart_of_unsentCheck
    {g : Replica → Host Digest}
    {event : Replica × HostEvent Digest}
    (hCheck : unsentCheck g event = true) :
    Network.Delivers hostInterface 3 g event ∧
      UnsentAtStart g event := by
  rcases event with ⟨id, event⟩
  rcases Bool.and_eq_true_iff.mp hCheck with
    ⟨hDelivers, hUnsent⟩
  refine ⟨Network.delivers_of_deliversCheck hDelivers, ?_⟩
  intro hInform
  cases hInform
  exact of_decide_eq_true hUnsent

theorem batchCollisionFree_digest :
    BatchCollisionFree Digest where
  injective := by
    intro txs txs' hEq
    have hContent :
        Digest.transaction.list.encode txs =
          Digest.transaction.list.encode txs' :=
      List.tail_eq_of_cons_eq hEq
    exact Digest.transaction.list.encode_injective hContent
  ne_empty := by
    intro txs hEq
    cases hEq

theorem exactly_once_inclusion_second_round :
    ∃ g : Replica → Host Digest,
      Machine.Reach
          (Network.step (Host.step Txpool.sortedOrder))
          (fun g event =>
            Network.Delivers hostInterface 3 g event ∧
              UnsentAtStart g event)
          (fun i => Host.new (smallConfig i) 10) g ∧
        CommitsKey (g 1).node.cx firstKept.hash (1, 1) ∧
        ∀ hash,
          CommitsKey (g 1).node.cx hash (1, 1) →
            hash = firstKept.hash := by
  have hRun :
      Machine.runCheck
        (Network.step (Host.step Txpool.sortedOrder))
        unsentCheck
        (fun g =>
          let storage := (g 1).node.cx.storage
          decide
            (firstKept.hash ∈
                storage.committedBlocksByHash ∧
              storage.deliveredBlockFromHash
                  firstKept.hash = some firstKept))
        (fun i => Host.new (smallConfig i) 10) unsentRun =
          true := by
    decide +kernel
  rcases Machine.Reach.of_runCheck
      (fun _ _ hCheck =>
        unsentAtStart_of_unsentCheck hCheck)
      hRun with ⟨g, hReach, hFinal⟩
  rcases of_decide_eq_true hFinal with ⟨hMem, hStored⟩
  have hFirst :
      CommitsKey (g 1).node.cx firstKept.hash (1, 1) :=
    ⟨hMem, _, loneBatch 1, hStored, rfl,
      List.mem_singleton.mpr rfl⟩
  have hConfig : SystemConfig 3 1 smallConfig :=
    fun _ _ => ⟨rfl, rfl, rfl⟩
  refine ⟨g, hReach, hFirst, ?_⟩
  intro hash hCommits
  exact exactly_once_inclusion Digest.collisionFree
    batchCollisionFree_digest hConfig hReach (by decide)
    hash firstKept.hash (1, 1) hCommits hFirst

/-
  Replica 0 batches before its first message and again after
  it.  The second batch waits until round 4, and replica 1
  has proposed its transaction in round 2.
-/
def earlyRun : List (Replica × HostEvent Digest) :=
  batches 0 1 ++ listens 0 1 ++ batches 0 2 ++ leads 0 ++
    leads 0 ++ secondRound ++
    hears 0 2 2 secondKept :: works 0 8 ++
    [hears 2 1 1 firstKept, hears 2 2 2 secondKept] ++
    works 2 10 ++ listens 2 8 ++ batches 2 3 ++ leads 2 ++
    hears 0 3 3 thirdKept :: works 0 8 ++
    [hears 1 3 3 thirdKept, hears 1 4 2 fourthKept] ++
    works 1 10 ++ listens 1 12 ++ batches 1 4 ++ leads 1

theorem key_committed_twice :
    ∃ g : Replica → Host Digest,
      Machine.Reach
          (Network.step (Host.step Txpool.sortedOrder))
          (Network.Delivers hostInterface 3)
          (fun i => Host.new (smallConfig i) 10) g ∧
        CommitsKey (g 1).node.cx secondKept.hash (2, 1) ∧
        CommitsKey (g 1).node.cx fourthKept.hash (2, 1) ∧
        secondKept.hash ≠ fourthKept.hash := by
  have hRun :
      Machine.runCheck
        (Network.step (Host.step Txpool.sortedOrder))
        (Network.deliversCheck hostInterface 3)
        (fun g =>
          let storage := (g 1).node.cx.storage
          decide
            ((secondKept.hash ∈
                  storage.committedBlocksByHash ∧
                storage.deliveredBlockFromHash
                    secondKept.hash = some secondKept) ∧
              fourthKept.hash ∈
                  storage.committedBlocksByHash ∧
                storage.deliveredBlockFromHash
                    fourthKept.hash = some fourthKept))
        (fun i => Host.new (smallConfig i) 10) earlyRun =
          true := by
    decide +kernel
  rcases Machine.Reach.of_runCheck
      (fun _ _ hCheck =>
        Network.delivers_of_deliversCheck hCheck)
      hRun with ⟨g, hReach, hFinal⟩
  rcases of_decide_eq_true hFinal with
    ⟨⟨hSecond, hStored⟩, hFourth, hStored'⟩
  refine ⟨g, hReach, ⟨hSecond, _, loneBatch 2, hStored,
    rfl, List.mem_singleton.mpr rfl⟩,
    ⟨hFourth, _, loneBatch 2, hStored', rfl,
      List.mem_singleton.mpr rfl⟩, ?_⟩
  decide +kernel

end Apollo

end LibApollo
