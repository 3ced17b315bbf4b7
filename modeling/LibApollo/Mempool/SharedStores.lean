import LibApollo.Base.Run
import LibApollo.Mempool.Batches
import LibApollo.Types.Symbolic

/-
  The batch cache and the store behind it, used by several
  tasks at once.

  Consensus and the processor of the mempool share the two.
  An insertion looks for the hash first and inserts in a
  second step.  A write is only sent to the writer of the
  store and lands at some later time, or never; a read of
  the store may fail.  So calls of different tasks overlap,
  and the store lags behind them.

  Since a batch is kept under its own hash, a read finds
  what some call keeps or the store had, it finds what was
  kept before it began, and when all calls have returned
  the cache is what these calls leave one after the other.

  Key definitions include:
    * `SharedStores`, `SharedStores.step`
    * `SharedStores.replay`
    * `SharedStores.Kept`, `SharedStores.Consistent`
    * `SharedStores.Grows`, `SharedStores.Inv`

  Key theorems include:
    * `SharedStores.replay_lookup`
    * `SharedStores.Base.mono`, `SharedStores.Inv.step`
    * `SharedStores.overlapping_calls_consistent`
-/

------------------------------------------------------------
-- Calls in Steps
------------------------------------------------------------

namespace LibApollo

inductive BatchCall (H : Type) where
| persist (hash : H) (batch : Batch)
| read (hash : H)
deriving DecidableEq, Repr

/-
  Where a task stands in its call.  Insertions are part of
  both calls; `reads` says which of them goes on.
-/
inductive CallStage where
| checking (reads : Bool) (batch : Batch)
| inserting (reads : Bool) (batch : Batch)
| writing (batch : Batch)
| reading
deriving DecidableEq, Repr

/- `since` calls had returned when the call began. -/
inductive CallState (H : Type) where
| idle
| busy (hash : H) (since : Nat) (stage : CallStage)
deriving DecidableEq, Repr

/- A call that has returned. -/
structure FinishedCall (H : Type) where
  call : BatchCall H
  result : Option Batch
  since : Nat
deriving DecidableEq, Repr

/-
  What the tasks in `T` share: the cache and the store, the
  writes that have not landed, and the calls that returned.
-/
structure SharedStores (T H : Type) where
  stores : BatchStores H
  sent : List (H × Batch)
  tasks : T → CallState H
  done : List (FinishedCall H)

namespace SharedStores

variable {T H : Type} [DecidableEq T] [DecidableEq H]

/-
  A task makes a call or goes on with it, the store does not
  answer a read or gives bytes that do not decode, or the
  writer takes one of the writes.
-/
inductive Event (T H : Type) where
| call (task : T) (call : BatchCall H)
| advance (task : T)
| fail (task : T)
| land (index : Nat)

/- The cache is new, and the store what a run before left. -/
def new (stored : FinMap H Batch) : SharedStores T H where
  stores :=
    { batchCache := ∅, batchStore := stored }
  sent := []
  tasks := fun _ => .idle
  done := []

def goto
    (shared : SharedStores T H)
    (task : T)
    (state : CallState H) : SharedStores T H :=
  { shared with
    tasks := Function.update shared.tasks task state }

/- The end of a call. -/
def finish
    (shared : SharedStores T H)
    (task : T)
    (finished : FinishedCall H) : SharedStores T H :=
  { shared.goto task .idle with
    done := shared.done ++ [finished] }

/- What follows an insertion. -/
def inserted
    (shared : SharedStores T H)
    (task : T)
    (hash : H)
    (since : Nat)
    (reads : Bool)
    (batch : Batch) : SharedStores T H :=
  if reads then
    shared.finish task ⟨.read hash, some batch, since⟩
  else
    shared.goto task (.busy hash since (.writing batch))

def cache
    (shared : SharedStores T H)
    (hash : H)
    (batch : Batch) : SharedStores T H :=
  { shared with
    stores :=
      { shared.stores with
        batchCache :=
          shared.stores.batchCache.insert hash batch } }

/- Hand a write to the writer of the store. -/
def send
    (shared : SharedStores T H)
    (hash : H)
    (batch : Batch) : SharedStores T H :=
  { shared with sent := shared.sent ++ [(hash, batch)] }

/- One access of one task to the cache or the store. -/
def advance
    (shared : SharedStores T H)
    (task : T) : SharedStores T H :=
  match shared.tasks task with
  | .idle => shared
  | .busy hash since stage =>
      match stage with
      | .checking reads batch =>
          if (shared.stores.batchCache.lookup
              hash).isSome then
            shared.inserted task hash since reads batch
          else
            shared.goto task
              (.busy hash since (.inserting reads batch))
      | .inserting reads batch =>
          (shared.cache hash batch).inserted task hash
            since reads batch
      | .writing batch =>
          (shared.send hash batch).finish task
            ⟨.persist hash batch, none, since⟩
      | .reading =>
          match shared.stores.batchStore.lookup hash with
          | none =>
              shared.finish task ⟨.read hash, none, since⟩
          | some batch =>
              shared.goto task
                (.busy hash since (.checking true batch))

/- A call starts; a read looks in the cache at once. -/
def enter
    (shared : SharedStores T H)
    (task : T) : BatchCall H → SharedStores T H
| .persist hash batch =>
    shared.goto task
      (.busy hash shared.done.length
        (.checking false batch))
| .read hash =>
    match shared.stores.batchCache.lookup hash with
    | some batch =>
        shared.finish task
          ⟨.read hash, some batch, shared.done.length⟩
    | none =>
        shared.goto task
          (.busy hash shared.done.length .reading)

/- A read of the store that gives no batch. -/
def fail
    (shared : SharedStores T H)
    (task : T) : SharedStores T H :=
  match shared.tasks task with
  | .busy hash since .reading =>
      shared.finish task ⟨.read hash, none, since⟩
  | _ => shared

def land
    (shared : SharedStores T H)
    (index : Nat) : SharedStores T H :=
  match shared.sent[index]? with
  | none => shared
  | some (hash, batch) =>
      { shared with
        stores :=
          { shared.stores with
            batchStore :=
              shared.stores.batchStore.insert hash batch }
        sent := shared.sent.eraseIdx index }

def step : Machine (SharedStores T H) (Event T H) Empty :=
  fun shared event =>
    match event with
    | .call task call => .ok (shared.enter task call)
    | .advance task => .ok (shared.advance task)
    | .fail task => .ok (shared.fail task)
    | .land index => .ok (shared.land index)

/-
  Calls are made by tasks that are not in one.  A batch is
  kept under its own hash: the processor computes it, and
  consensus compares the two before it keeps a batch.
-/
def Addressed
    [Crypto H]
    (shared : SharedStores T H) : Event T H → Prop
| .call task (.persist hash batch) =>
    shared.tasks task = .idle ∧
      Crypto.batchHash batch.payload = hash
| .call task (.read _) => shared.tasks task = .idle
| .advance _ => True
| .fail _ => True
| .land _ => True

/- A call that returned, as one step. -/
def applyCall
    (stores : BatchStores H)
    (finished : FinishedCall H) : BatchStores H :=
  match finished.call, finished.result with
  | .persist hash batch, _ => stores.persistBatch hash batch
  | .read hash, some batch => stores.cacheInsert hash batch
  | .read _, none => stores

/- Calls one after the other. -/
def replay
    (stored : FinMap H Batch)
    (done : List (FinishedCall H)) : BatchStores H :=
  done.foldl applyCall
    { batchCache := ∅, batchStore := stored }

end SharedStores

end LibApollo

------------------------------------------------------------
-- Calls One after the Other
------------------------------------------------------------

namespace LibApollo

/- The call leaves the batch in the cache. -/
def FinishedCall.Leaves
    {H : Type}
    (finished : FinishedCall H)
    (hash : H)
    (batch : Batch) : Prop :=
  finished.call = .persist hash batch ∨
    (finished.call = .read hash ∧
      finished.result = some batch)

namespace SharedStores

variable {H : Type}

/- The entries of a map are under their own hashes. -/
def OwnHashes
    [DecidableEq H] [Crypto H]
    (map : FinMap H Batch) : Prop :=
  ∀ hash batch,
    Finmap.lookup hash map = some batch →
      Crypto.batchHash batch.payload = hash

theorem batch_eq
    [Crypto H]
    (hHash :
      Function.Injective
        (Crypto.batchHash : List Transaction → H))
    {hash : H}
    {batch other : Batch}
    (hBatch : Crypto.batchHash batch.payload = hash)
    (hOther : Crypto.batchHash other.payload = hash) :
    batch = other := by
  rcases batch with ⟨payload⟩
  rcases other with ⟨otherPayload⟩
  have hSame := hHash (hBatch.trans hOther.symm)
  dsimp only at hSame
  rw [hSame]

variable [DecidableEq H] [Crypto H]
variable {stored : FinMap H Batch}

/- An entry under its own hash changes no other entry. -/
theorem lookup_insert_iff
    (hHash :
      Function.Injective
        (Crypto.batchHash : List Transaction → H))
    {map : FinMap H Batch}
    {hash other : H}
    {batch found : Batch}
    (hMap : OwnHashes map)
    (hOwn : Crypto.batchHash batch.payload = hash) :
    Finmap.lookup other (map.insert hash batch) =
        some found ↔
      Finmap.lookup other map = some found ∨
        (other = hash ∧ found = batch) := by
  rw [FinMap.lookup_insert_eq]
  by_cases hSame : other = hash
  · rw [if_pos hSame]
    constructor
    · intro hFound
      cases hFound
      exact Or.inr ⟨hSame, rfl⟩
    · intro hEither
      rcases hEither with hOld | ⟨_, hFound⟩
      · rw [hSame] at hOld
        rw [batch_eq hHash hOwn (hMap hash found hOld)]
      · rw [hFound]
  · rw [if_neg hSame]
    constructor
    · exact Or.inl
    · intro hEither
      rcases hEither with hOld | ⟨hHere, _⟩
      · exact hOld
      · exact absurd hHere hSame

theorem lookup_cacheInsert_iff
    (hHash :
      Function.Injective
        (Crypto.batchHash : List Transaction → H))
    {stores : BatchStores H}
    {hash other : H}
    {batch found : Batch}
    (hCache : OwnHashes stores.batchCache)
    (hOwn : Crypto.batchHash batch.payload = hash) :
    (stores.cacheInsert hash batch).batchCache.lookup
          other = some found ↔
      stores.batchCache.lookup other = some found ∨
        (other = hash ∧ found = batch) := by
  unfold BatchStores.cacheInsert
  split
  · rename_i hPresent
    rcases Option.isSome_iff_exists.mp hPresent with
      ⟨cached, hCached⟩
    constructor
    · exact Or.inl
    · intro hEither
      rcases hEither with hOld | ⟨rfl, rfl⟩
      · exact hOld
      · rw [hCached, batch_eq hHash hOwn
          (hCache _ cached hCached)]
  · exact lookup_insert_iff hHash hCache hOwn

theorem applyCall_cache
    (hHash :
      Function.Injective
        (Crypto.batchHash : List Transaction → H))
    {stores : BatchStores H}
    {finished : FinishedCall H}
    {other : H}
    {found : Batch}
    (hCache : OwnHashes stores.batchCache)
    (hOwn :
      ∀ hash batch, finished.Leaves hash batch →
        Crypto.batchHash batch.payload = hash) :
    (applyCall stores finished).batchCache.lookup other =
          some found ↔
      stores.batchCache.lookup other = some found ∨
        finished.Leaves other found := by
  rcases finished with ⟨call, result, since⟩
  cases call with
  | persist hash batch =>
      have hBatch := hOwn hash batch (Or.inl rfl)
      refine
        (lookup_cacheInsert_iff hHash hCache
          hBatch).trans (or_congr_right ?_)
      simp [FinishedCall.Leaves, eq_comm]
  | read hash =>
      cases result with
      | none => simp [applyCall, FinishedCall.Leaves]
      | some batch =>
          have hBatch :=
            hOwn hash batch (Or.inr ⟨rfl, rfl⟩)
          refine
            (lookup_cacheInsert_iff hHash hCache
              hBatch).trans (or_congr_right ?_)
          simp [FinishedCall.Leaves, eq_comm]

theorem applyCall_store
    (hHash :
      Function.Injective
        (Crypto.batchHash : List Transaction → H))
    {stores : BatchStores H}
    {finished : FinishedCall H}
    {other : H}
    {found : Batch}
    (hStore : OwnHashes stores.batchStore)
    (hOwn :
      ∀ hash batch, finished.Leaves hash batch →
        Crypto.batchHash batch.payload = hash) :
    (applyCall stores finished).batchStore.lookup other =
          some found ↔
      stores.batchStore.lookup other = some found ∨
        finished.call = .persist other found := by
  rcases finished with ⟨call, result, since⟩
  cases call with
  | persist hash batch =>
      have hBatch := hOwn hash batch (Or.inl rfl)
      change Finmap.lookup other
        ((stores.cacheInsert hash batch).batchStore.insert
          hash batch) = _ ↔ _
      rw [BatchStores.batchStore_cacheInsert,
        lookup_insert_iff hHash hStore hBatch]
      refine or_congr_right ?_
      simp [eq_comm]
  | read hash =>
      cases result with
      | none => simp [applyCall]
      | some batch =>
          simp [applyCall,
            BatchStores.batchStore_cacheInsert]

omit [Crypto H] in
theorem replay_append
    (done : List (FinishedCall H))
    (finished : FinishedCall H) :
    replay stored (done ++ [finished]) =
      applyCall (replay stored done) finished := by
  unfold replay
  rw [List.foldl_append]
  rfl

/- What the calls leave in the cache and in the store. -/
theorem replay_lookup
    (hHash :
      Function.Injective
        (Crypto.batchHash : List Transaction → H))
    (hStored : OwnHashes stored)
    (done : List (FinishedCall H))
    (hDone :
      ∀ finished ∈ done, ∀ hash batch,
        finished.Leaves hash batch →
          Crypto.batchHash batch.payload = hash) :
    (∀ hash batch,
      (replay stored done).batchCache.lookup hash =
          some batch ↔
        ∃ finished ∈ done, finished.Leaves hash batch) ∧
      ∀ hash batch,
        (replay stored done).batchStore.lookup hash =
            some batch ↔
          Finmap.lookup hash stored = some batch ∨
            ∃ finished ∈ done,
              finished.call = .persist hash batch := by
  induction done using List.reverseRecOn with
  | nil => simp [replay]
  | append_singleton done finished ih =>
      rcases ih (fun old hOld =>
          hDone old (List.mem_append_left _ hOld)) with
        ⟨hCache, hStore⟩
      have hLast :=
        hDone finished (List.mem_append_right _
          (List.mem_singleton_self _))
      have hOwnCache :
          OwnHashes (replay stored done).batchCache := by
        intro hash batch hLookup
        rcases (hCache hash batch).mp hLookup with
          ⟨old, hOld, hLeaves⟩
        exact hDone old (List.mem_append_left _ hOld) hash
          batch hLeaves
      have hOwnStore :
          OwnHashes (replay stored done).batchStore := by
        intro hash batch hLookup
        rcases (hStore hash batch).mp hLookup with
          hBefore | ⟨old, hOld, hCall⟩
        · exact hStored hash batch hBefore
        · exact hDone old (List.mem_append_left _ hOld)
            hash batch (Or.inl hCall)
      rw [replay_append]
      constructor
      · intro hash batch
        rw [applyCall_cache hHash hOwnCache hLast, hCache]
        simp [or_and_right, exists_or]
      · intro hash batch
        rw [applyCall_store hHash hOwnStore hLast, hStore]
        simp [or_and_right, exists_or, or_assoc]

end SharedStores

end LibApollo

------------------------------------------------------------
-- What Overlapping Calls Keep
------------------------------------------------------------

namespace LibApollo

/- The call is to keep the batch. -/
def CallStage.Persists
    (batch : Batch) : CallStage → Prop
| .checking reads kept => reads = false ∧ kept = batch
| .inserting reads kept => reads = false ∧ kept = batch
| .writing kept => kept = batch
| .reading => False

namespace SharedStores

variable {T H : Type} [DecidableEq T] [DecidableEq H]
variable [Crypto H]
variable {stored : FinMap H Batch}
variable {shared shared' : SharedStores T H}
variable {hash : H}
variable {batch : Batch}

omit [DecidableEq T] [Crypto H] in
/-
  The batch was in the store from the start, or a call that
  began when at most `bound` calls had returned has kept it
  or is about to.
-/
def Kept
    (stored : FinMap H Batch)
    (shared : SharedStores T H)
    (hash : H)
    (batch : Batch)
    (bound : Nat) : Prop :=
  Finmap.lookup hash stored = some batch ∨
    (∃ finished ∈ shared.done,
      finished.call = .persist hash batch ∧
        finished.since ≤ bound) ∨
    ∃ task since stage,
      shared.tasks task = .busy hash since stage ∧
        stage.Persists batch ∧
        since ≤ bound

omit [DecidableEq T] [Crypto H] in
/- None of the first calls leaves a batch of the hash. -/
def Unseen
    (shared : SharedStores T H)
    (hash : H)
    (since : Nat) : Prop :=
  ∀ q finished batch,
    q < since →
      shared.done[q]? = some finished →
        ¬ finished.Leaves hash batch

omit [DecidableEq T] [Crypto H] in
/-
  What the call at a position of the history answers.  What
  it finds was kept by a call that began before it returned;
  where it finds nothing, no call that returned before it
  began has left anything.
-/
structure Answered
    (stored : FinMap H Batch)
    (shared : SharedStores T H)
    (position : Nat)
    (finished : FinishedCall H) : Prop where
  since_le : finished.since ≤ position
  found :
    ∀ hash batch, finished.call = .read hash →
      finished.result = some batch →
        Kept stored shared hash batch position
  missed :
    ∀ hash, finished.call = .read hash →
      finished.result = none →
        Unseen shared hash finished.since
  leaves :
    ∀ hash batch, finished.Leaves hash batch →
      shared.stores.batchCache.lookup hash = some batch

omit [DecidableEq T] in
/- What a task that is in a call may count on. -/
def Stands
    (stored : FinMap H Batch)
    (shared : SharedStores T H)
    (hash : H)
    (since : Nat) : CallStage → Prop
| .checking reads batch =>
    Crypto.batchHash batch.payload = hash ∧
      (reads = true →
        Kept stored shared hash batch shared.done.length)
| .inserting reads batch =>
    Crypto.batchHash batch.payload = hash ∧
      (reads = true →
        Kept stored shared hash batch shared.done.length)
| .writing batch =>
    shared.stores.batchCache.lookup hash = some batch
| .reading => Unseen shared hash since

structure Base
    (stored : FinMap H Batch)
    (shared : SharedStores T H) : Prop where
  cached : OwnHashes shared.stores.batchCache
  kept : OwnHashes shared.stores.batchStore
  tasks :
    ∀ task hash since stage,
      shared.tasks task = .busy hash since stage →
        since ≤ shared.done.length ∧
          Stands stored shared hash since stage
  done :
    ∀ position finished,
      shared.done[position]? = some finished →
        Answered stored shared position finished
  written :
    ∀ hash batch,
      (shared.stores.batchStore.lookup hash = some batch ∨
          (hash, batch) ∈ shared.sent) ↔
        Finmap.lookup hash stored = some batch ∨
          ∃ finished ∈ shared.done,
            finished.call = .persist hash batch

omit [DecidableEq T] [Crypto H] in
/-
  A call that returned leaves the batch, or one that is
  about to return has inserted it.
-/
def Covered
    (shared : SharedStores T H)
    (hash : H)
    (batch : Batch) : Prop :=
  (∃ finished ∈ shared.done, finished.Leaves hash batch) ∨
    ∃ task since,
      shared.tasks task = .busy hash since (.writing batch)

structure Inv
    (stored : FinMap H Batch)
    (shared : SharedStores T H) : Prop where
  base : Base stored shared
  covered :
    ∀ hash batch,
      shared.stores.batchCache.lookup hash = some batch →
        Covered shared hash batch

/-
  What no step takes back: returned calls, cached batches
  and, until they return, the calls that keep a batch.
-/
structure Grows
    (shared shared' : SharedStores T H) : Prop where
  done : shared.done <+: shared'.done
  cache :
    ∀ hash batch,
      shared.stores.batchCache.lookup hash = some batch →
        shared'.stores.batchCache.lookup hash = some batch
  persists :
    ∀ task hash since stage batch,
      shared.tasks task = .busy hash since stage →
        stage.Persists batch →
          (∃ later,
            shared'.tasks task = .busy hash since later ∧
              later.Persists batch) ∨
            ∃ finished ∈ shared'.done,
              finished.call = .persist hash batch ∧
                finished.since = since

omit [DecidableEq T] [Crypto H] in
theorem Kept.mono
    {bound more : Nat}
    (hKept : Kept stored shared hash batch bound)
    (hGrows : Grows shared shared')
    (hMore : bound ≤ more) :
    Kept stored shared' hash batch more := by
  rcases hKept with hStored | ⟨finished, hMem, hCall, hLe⟩ |
    ⟨task, since, stage, hTask, hStage, hLe⟩
  · exact Or.inl hStored
  · exact Or.inr (Or.inl ⟨finished,
      hGrows.done.subset hMem, hCall, hLe.trans hMore⟩)
  · rcases hGrows.persists task hash since stage batch
        hTask hStage with
      ⟨later, hLater, hStill⟩ | ⟨finished, hMem, hCall, hEq⟩
    · exact Or.inr (Or.inr ⟨task, since, later, hLater,
        hStill, hLe.trans hMore⟩)
    · refine Or.inr (Or.inl ⟨finished, hMem, hCall, ?_⟩)
      rw [hEq]
      exact hLe.trans hMore

omit [DecidableEq T] [Crypto H] in
/- The first calls of a history stay the first. -/
theorem Unseen.mono
    {since : Nat}
    (hUnseen : Unseen shared hash since)
    (hGrows : Grows shared shared')
    (hSince : since ≤ shared.done.length) :
    Unseen shared' hash since := by
  intro q finished batch hq hFinished
  rcases hGrows.done with ⟨more, hMore⟩
  rw [← hMore, List.getElem?_append_left
    (Nat.lt_of_lt_of_le hq hSince)] at hFinished
  exact hUnseen q finished batch hq hFinished

omit [DecidableEq T] [Crypto H] in
theorem Answered.mono
    {position : Nat}
    {finished : FinishedCall H}
    (hAnswered :
      Answered stored shared position finished)
    (hGrows : Grows shared shared')
    (hPosition : position ≤ shared.done.length) :
    Answered stored shared' position finished where
  since_le := hAnswered.since_le
  found := by
    intro hash batch hCall hResult
    exact (hAnswered.found hash batch hCall hResult).mono
      hGrows (Nat.le_refl _)
  missed := by
    intro hash hCall hResult
    exact (hAnswered.missed hash hCall hResult).mono hGrows
      (hAnswered.since_le.trans hPosition)
  leaves := by
    intro hash batch hLeaves
    exact hGrows.cache hash batch
      (hAnswered.leaves hash batch hLeaves)

omit [DecidableEq T] in
theorem Stands.mono
    {since : Nat}
    {stage : CallStage}
    (hStands : Stands stored shared hash since stage)
    (hGrows : Grows shared shared')
    (hSince : since ≤ shared.done.length) :
    Stands stored shared' hash since stage := by
  cases stage with
  | checking reads batch =>
      exact ⟨hStands.1, fun hReads =>
        (hStands.2 hReads).mono hGrows
          hGrows.done.length_le⟩
  | inserting reads batch =>
      exact ⟨hStands.1, fun hReads =>
        (hStands.2 hReads).mono hGrows
          hGrows.done.length_le⟩
  | writing batch => exact hGrows.cache _ _ hStands
  | reading => exact Unseen.mono hStands hGrows hSince

omit [DecidableEq T] in
theorem inv_new
    (hStored : OwnHashes stored) :
    Inv stored (new stored : SharedStores T H) where
  base :=
    { cached := by
        intro hash batch hLookup
        simp [new] at hLookup
      kept := hStored
      tasks := by
        intro task hash since stage hTask
        cases hTask
      done := by
        intro position finished hFinished
        simp [new] at hFinished
      written := by
        intro hash batch
        simp [new] }
  covered := by
    intro hash batch hLookup
    simp [new] at hLookup

omit [DecidableEq T] in
/- What is cached is kept. -/
theorem Inv.kept_of_cached
    (hInv : Inv stored shared)
    (hCached :
      shared.stores.batchCache.lookup hash = some batch) :
    Kept stored shared hash batch shared.done.length := by
  rcases hInv.covered hash batch hCached with
    ⟨finished, hMem, hLeaves⟩ | ⟨task, since, hTask⟩
  · rcases List.getElem?_of_mem hMem with
      ⟨position, hPosition⟩
    have hAnswered :=
      hInv.base.done position finished hPosition
    have hBefore : position < shared.done.length :=
      (List.getElem?_eq_some_iff.mp hPosition).1
    rcases hLeaves with hCall | ⟨hCall, hResult⟩
    · exact Or.inr (Or.inl ⟨finished, hMem, hCall,
        hAnswered.since_le.trans hBefore.le⟩)
    · have hKept :=
        hAnswered.found hash batch hCall hResult
      exact hKept.mono ⟨List.prefix_rfl,
        fun _ _ hLookup => hLookup,
        fun _ _ _ stage _ hTask hStage =>
          Or.inl ⟨stage, hTask, hStage⟩⟩ hBefore.le
  · exact Or.inr (Or.inr ⟨task, since, _, hTask, rfl,
      (hInv.base.tasks task hash since _ hTask).1⟩)

omit [DecidableEq T] in
/- The batches of all calls are under their own hashes. -/
theorem Base.own_of_leaves
    {finished : FinishedCall H}
    (hBase : Base stored shared)
    (hMem : finished ∈ shared.done)
    (hLeaves : finished.Leaves hash batch) :
    Crypto.batchHash batch.payload = hash := by
  rcases List.getElem?_of_mem hMem with
    ⟨position, hPosition⟩
  exact hBase.cached hash batch
    ((hBase.done position finished hPosition).leaves hash
      batch hLeaves)

end SharedStores

end LibApollo

------------------------------------------------------------
-- One Access
------------------------------------------------------------

namespace LibApollo

namespace SharedStores

variable {T H : Type} [DecidableEq T] [DecidableEq H]
variable [Crypto H]
variable {stored : FinMap H Batch}
variable {shared shared' : SharedStores T H}
variable {task : T}
variable {hash : H}
variable {since : Nat}
variable {stage : CallStage}
variable {batch : Batch}
variable {finished : FinishedCall H}

omit [DecidableEq T] in
/- What is to be shown after a step on which nothing ends. -/
theorem Base.mono
    (hBase : Base stored shared)
    (hGrows : Grows shared shared')
    (hDone : shared'.done = shared.done)
    (hCached : OwnHashes shared'.stores.batchCache)
    (hKept : OwnHashes shared'.stores.batchStore)
    (hTasks :
      ∀ task, shared'.tasks task = shared.tasks task ∨
        ∃ hash since stage,
          shared'.tasks task = .busy hash since stage ∧
            since ≤ shared.done.length ∧
            Stands stored shared' hash since stage)
    (hWritten :
      ∀ hash batch,
        (shared'.stores.batchStore.lookup hash =
              some batch ∨
            (hash, batch) ∈ shared'.sent) ↔
          (shared.stores.batchStore.lookup hash =
              some batch ∨
            (hash, batch) ∈ shared.sent)) :
    Base stored shared' where
  cached := hCached
  kept := hKept
  tasks := by
    intro task hash since stage hTask
    rw [hDone]
    rcases hTasks task with
      hSame | ⟨other, began, now, hNow, hLe, hStands⟩
    · rw [hSame] at hTask
      rcases hBase.tasks task hash since stage hTask with
        ⟨hLe, hStands⟩
      exact ⟨hLe, hStands.mono hGrows hLe⟩
    · rw [hNow] at hTask
      cases hTask
      exact ⟨hLe, hStands⟩
  done := by
    intro position finished hFinished
    rw [hDone] at hFinished
    exact (hBase.done position finished hFinished).mono
      hGrows (List.getElem?_eq_some_iff.mp hFinished).1.le
  written := by
    intro hash batch
    rw [hWritten, hBase.written, hDone]

omit [DecidableEq T] [Crypto H] in
/- The task goes on with what it is about to keep. -/
def Carries
    (shared : SharedStores T H)
    (task : T)
    (hash : H)
    (since : Nat)
    (stage : CallStage) : Prop :=
  ∀ other began now batch,
    shared.tasks task = .busy other began now →
      now.Persists batch →
        other = hash ∧ began = since ∧
          stage.Persists batch

omit [Crypto H] in
theorem grows_goto
    (hOld : Carries shared task hash since stage) :
    Grows shared
      (shared.goto task (.busy hash since stage)) where
  done := List.prefix_rfl
  cache := fun _ _ hLookup => hLookup
  persists := by
    intro other otherHash began now batch hTask hNow
    left
    unfold goto
    dsimp only
    by_cases hSame : other = task
    · subst hSame
      rcases hOld otherHash began now batch hTask hNow with
        ⟨rfl, rfl, hStage⟩
      exact ⟨stage, Function.update_self _ _ _, hStage⟩
    · refine ⟨now, ?_, hNow⟩
      rw [Function.update_of_ne hSame]
      exact hTask

theorem Base.goto
    (hBase : Base stored shared)
    (hOld : Carries shared task hash since stage)
    (hSince : since ≤ shared.done.length)
    (hStands : Stands stored shared hash since stage) :
    Base stored
      (shared.goto task (.busy hash since stage)) := by
  have hGrows := grows_goto hOld
  refine
    hBase.mono hGrows rfl hBase.cached hBase.kept ?_
      (fun _ _ => Iff.rfl)
  intro other
  by_cases hSame : other = task
  · refine Or.inr ⟨hash, since, stage, ?_, hSince,
      hStands.mono hGrows hSince⟩
    rw [hSame]
    exact Function.update_self _ _ _
  · exact Or.inl (Function.update_of_ne hSame _ _)

omit [DecidableEq H] [Crypto H] in
theorem Covered.goto
    {other : H}
    {found : Batch}
    {state : CallState H}
    (hCovered : Covered shared other found)
    (hNot :
      ∀ hash since batch,
        shared.tasks task ≠
          .busy hash since (.writing batch)) :
    Covered (shared.goto task state) other found := by
  rcases hCovered with hDone | ⟨writer, began, hWriter⟩
  · exact Or.inl hDone
  · refine Or.inr ⟨writer, began, ?_⟩
    unfold SharedStores.goto
    dsimp only
    rw [Function.update_of_ne]
    · exact hWriter
    · intro hSame
      rw [hSame] at hWriter
      exact hNot _ _ _ hWriter

/- A task goes on without a change of what is shared. -/
theorem Inv.goto
    (hInv : Inv stored shared)
    (hOld : Carries shared task hash since stage)
    (hNot :
      ∀ hash since batch,
        shared.tasks task ≠
          .busy hash since (.writing batch))
    (hSince : since ≤ shared.done.length)
    (hStands : Stands stored shared hash since stage) :
    Inv stored
      (shared.goto task (.busy hash since stage)) where
  base := hInv.base.goto hOld hSince hStands
  covered := by
    intro other found hFound
    exact (hInv.covered other found hFound).goto hNot

omit [DecidableEq T] [Crypto H] in
/- The task returns from what it is about to keep. -/
def Ends
    (shared : SharedStores T H)
    (task : T)
    (finished : FinishedCall H) : Prop :=
  ∀ other began now batch,
    shared.tasks task = .busy other began now →
      now.Persists batch →
        finished.call = .persist other batch ∧
          finished.since = began

omit [Crypto H] in
theorem grows_finish
    (sent : List (H × Batch))
    (hEnds : Ends shared task finished) :
    Grows shared
      { shared.finish task finished with sent := sent } where
  done := List.prefix_append _ _
  cache := fun _ _ hLookup => hLookup
  persists := by
    intro other otherHash began now batch hTask hNow
    by_cases hSame : other = task
    · subst hSame
      exact Or.inr ⟨finished, List.mem_append_right _
        (List.mem_singleton_self _),
        hEnds otherHash began now batch hTask hNow⟩
    · refine Or.inl ⟨now, ?_, hNow⟩
      change Function.update shared.tasks task .idle other =
        _
      rw [Function.update_of_ne hSame]
      exact hTask

/- A call returns, and the writes may become more. -/
theorem Base.finish
    {sent : List (H × Batch)}
    (hBase : Base stored shared)
    (hEnds : Ends shared task finished)
    (hAnswered :
      Answered stored shared shared.done.length finished)
    (hWritten :
      ∀ hash batch,
        (shared.stores.batchStore.lookup hash =
              some batch ∨
            (hash, batch) ∈ sent) ↔
          Finmap.lookup hash stored = some batch ∨
            ∃ call ∈ shared.done ++ [finished],
              call.call = .persist hash batch) :
    Base stored
      { shared.finish task finished with sent := sent } := by
  have hGrows := grows_finish sent hEnds
  refine
    { cached := hBase.cached
      kept := hBase.kept
      tasks := ?_
      done := ?_
      written := hWritten }
  · intro other hash since stage hTask
    change Function.update shared.tasks task .idle other = _
      at hTask
    by_cases hSame : other = task
    · rw [hSame, Function.update_self] at hTask
      cases hTask
    · rw [Function.update_of_ne hSame] at hTask
      rcases hBase.tasks other hash since stage hTask with
        ⟨hLe, hStands⟩
      exact ⟨hLe.trans hGrows.done.length_le,
        hStands.mono hGrows hLe⟩
  · intro position call hCall
    change (shared.done ++ [finished])[position]? = _
      at hCall
    by_cases hOld : position < shared.done.length
    · rw [List.getElem?_append_left hOld] at hCall
      exact (hBase.done position call hCall).mono hGrows
        hOld.le
    · have hBound := (List.getElem?_eq_some_iff.mp hCall).1
      rw [List.length_append, List.length_singleton]
        at hBound
      have hLast : position = shared.done.length := by
        omega
      rw [hLast, List.getElem?_concat_length] at hCall
      cases hCall
      rw [hLast]
      exact hAnswered.mono hGrows (Nat.le_refl _)

omit [DecidableEq H] [Crypto H] in
theorem Covered.finish
    {other : H}
    {found : Batch}
    (hCovered : Covered shared other found)
    (hWriting :
      ∀ hash since batch,
        shared.tasks task =
            .busy hash since (.writing batch) →
          finished.Leaves hash batch) :
    Covered (shared.finish task finished) other found := by
  rcases hCovered with
    ⟨call, hMem, hLeaves⟩ | ⟨writer, began, hWriter⟩
  · exact Or.inl ⟨call, List.mem_append_left _ hMem,
      hLeaves⟩
  · by_cases hSame : writer = task
    · rw [hSame] at hWriter
      exact Or.inl ⟨finished, List.mem_append_right _
        (List.mem_singleton_self _),
        hWriting _ _ _ hWriter⟩
    · refine Or.inr ⟨writer, began, ?_⟩
      change Function.update shared.tasks task .idle writer =
        _
      rw [Function.update_of_ne hSame]
      exact hWriter

/- A read returns. -/
theorem Base.finish_read
    {result : Option Batch}
    (hBase : Base stored shared)
    (hEnds :
      Ends shared task ⟨.read hash, result, since⟩)
    (hAnswered :
      Answered stored shared shared.done.length
        ⟨.read hash, result, since⟩) :
    Base stored
      (shared.finish task ⟨.read hash, result, since⟩) := by
  refine hBase.finish hEnds hAnswered ?_
  intro other batch
  refine (hBase.written other batch).trans ?_
  simp

theorem Inv.finish_read
    {result : Option Batch}
    (hInv : Inv stored shared)
    (hEnds :
      Ends shared task ⟨.read hash, result, since⟩)
    (hNot :
      ∀ hash since batch,
        shared.tasks task ≠
          .busy hash since (.writing batch))
    (hAnswered :
      Answered stored shared shared.done.length
        ⟨.read hash, result, since⟩) :
    Inv stored
      (shared.finish task
        ⟨.read hash, result, since⟩) where
  base := hInv.base.finish_read hEnds hAnswered
  covered := by
    intro other found hFound
    refine (hInv.covered other found hFound).finish ?_
    intro writing began batch hWriting
    exact absurd hWriting (hNot writing began batch)

/- A batch that was cached is sent to the store. -/
theorem Inv.finish_persist
    (hInv : Inv stored shared)
    (hTask :
      shared.tasks task =
        .busy hash since (.writing batch)) :
    Inv stored
      ((shared.send hash batch).finish task
        ⟨.persist hash batch, none, since⟩) := by
  rcases hInv.base.tasks task hash since _ hTask with
    ⟨hSince, hCached⟩
  have hEnds :
      Ends shared task
        ⟨.persist hash batch, none, since⟩ := by
    intro other began now found hNow hPersists
    rw [hTask] at hNow
    cases hNow
    cases hPersists
    exact ⟨rfl, rfl⟩
  have hAnswered :
      Answered stored shared shared.done.length
        ⟨.persist hash batch, none, since⟩ :=
    { since_le := hSince
      found := by
        intro other found hCall
        cases hCall
      missed := by
        intro other hCall
        cases hCall
      leaves := by
        intro other found hLeaves
        rcases hLeaves with hCall | ⟨hCall, _⟩
        · cases hCall
          exact hCached
        · cases hCall }
  refine ⟨hInv.base.finish hEnds hAnswered ?_, ?_⟩
  · intro other found
    have hOld := hInv.base.written other found
    have hNew :
        (other, found) = (hash, batch) ↔
          BatchCall.persist hash batch =
            .persist other found := by
      simp [eq_comm]
    change _ ∨ (other, found) ∈ shared.sent ++
      [(hash, batch)] ↔ _
    simp only [List.mem_append, List.mem_singleton,
      or_and_right, exists_or, exists_eq_left]
    rw [← or_assoc, hOld, hNew, or_assoc]
  · intro other found hFound
    refine (hInv.covered other found hFound).finish ?_
    intro writing began kept hWriting
    rw [hTask] at hWriting
    cases hWriting
    exact Or.inl rfl

omit [DecidableEq T] in
/- A batch under its own hash is put in the cache. -/
theorem Base.cache
    (hHash :
      Function.Injective
        (Crypto.batchHash : List Transaction → H))
    (hBase : Base stored shared)
    (hOwn : Crypto.batchHash batch.payload = hash) :
    Grows shared (shared.cache hash batch) ∧
      Base stored (shared.cache hash batch) := by
  have hGrows : Grows shared (shared.cache hash batch) :=
    { done := List.prefix_rfl
      cache := by
        intro other found hFound
        exact (lookup_insert_iff hHash hBase.cached
          hOwn).mpr (Or.inl hFound)
      persists := fun _ _ _ now _ hTask hNow =>
        Or.inl ⟨now, hTask, hNow⟩ }
  refine ⟨hGrows, ?_⟩
  exact hBase.mono hGrows rfl
    (FinMap.forall_insert hBase.cached hOwn) hBase.kept
    (fun _ => Or.inl rfl) (fun _ _ => Iff.rfl)

omit [DecidableEq T] [Crypto H] in
/- A read returns what is kept. -/
theorem answered_of_kept
    (hSince : since ≤ shared.done.length)
    (hKept :
      Kept stored shared hash batch shared.done.length)
    (hCached :
      shared.stores.batchCache.lookup hash = some batch) :
    Answered stored shared shared.done.length
      ⟨.read hash, some batch, since⟩ where
  since_le := hSince
  found := by
    intro other found hCall hResult
    cases hCall
    cases hResult
    exact hKept
  missed := by
    intro other _ hResult
    cases hResult
  leaves := by
    intro other found hLeaves
    rcases hLeaves with hCall | ⟨hCall, hResult⟩
    · cases hCall
    · cases hCall
      cases hResult
      exact hCached

omit [DecidableEq T] [Crypto H] in
theorem answered_of_unseen
    (hSince : since ≤ shared.done.length)
    (hUnseen : Unseen shared hash since) :
    Answered stored shared shared.done.length
      ⟨.read hash, none, since⟩ where
  since_le := hSince
  found := by
    intro other found _ hResult
    cases hResult
  missed := by
    intro other hCall _
    cases hCall
    exact hUnseen
  leaves := by
    intro other found hLeaves
    rcases hLeaves with hCall | ⟨_, hResult⟩
    · cases hCall
    · cases hResult

omit [DecidableEq T] [DecidableEq H] [Crypto H] in
theorem not_writing
    (hTask : shared.tasks task = .busy hash since stage)
    (hStage : ∀ kept, stage ≠ .writing kept)
    (other : H)
    (began : Nat)
    (kept : Batch) :
    shared.tasks task ≠ .busy other began (.writing kept) := by
  intro hWriting
  rw [hTask] at hWriting
  cases hWriting
  exact hStage kept rfl

omit [DecidableEq T] [DecidableEq H] [Crypto H] in
theorem carries_of_busy
    {next : CallStage}
    (hTask : shared.tasks task = .busy hash since stage)
    (hStage :
      ∀ kept, stage.Persists kept → next.Persists kept) :
    Carries shared task hash since next := by
  intro other began now kept hNow hPersists
  rw [hTask] at hNow
  cases hNow
  exact ⟨rfl, rfl, hStage kept hPersists⟩

omit [DecidableEq T] [DecidableEq H] [Crypto H] in
theorem ends_of_busy
    (hTask : shared.tasks task = .busy hash since stage)
    (hStage : ∀ kept, ¬ stage.Persists kept) :
    Ends shared task finished := by
  intro other began now kept hNow hPersists
  rw [hTask] at hNow
  cases hNow
  exact absurd hPersists (hStage kept)

/- The second step of an insertion that is a read's. -/
theorem Inv.insert_read
    (hHash :
      Function.Injective
        (Crypto.batchHash : List Transaction → H))
    (hInv : Inv stored shared)
    (hTask :
      shared.tasks task =
        .busy hash since (.inserting true batch)) :
    Inv stored
      ((shared.cache hash batch).finish task
        ⟨.read hash, some batch, since⟩) := by
  rcases hInv.base.tasks task hash since _ hTask with
    ⟨hSince, hOwn, hFound⟩
  rcases hInv.base.cache hHash hOwn with ⟨hGrows, hBase⟩
  have hReads :
      ∀ kept,
        ¬ (CallStage.inserting true batch).Persists kept :=
    fun _ hPersists => nomatch hPersists.1
  refine ⟨?_, ?_⟩
  · refine hBase.finish_read (ends_of_busy hTask hReads) ?_
    refine answered_of_kept hSince
      ((hFound rfl).mono hGrows (Nat.le_refl _)) ?_
    exact (lookup_insert_iff hHash hInv.base.cached
      hOwn).mpr (Or.inr ⟨rfl, rfl⟩)
  · intro other found hLookup
    rcases (lookup_insert_iff hHash hInv.base.cached
        hOwn).mp hLookup with hOld | ⟨rfl, rfl⟩
    · have hCovered : Covered (shared.cache hash batch)
          other found := hInv.covered other found hOld
      refine hCovered.finish ?_
      intro writing began kept hWriting
      exact absurd hWriting
        (not_writing hTask (by simp) writing began kept)
    · exact Or.inl ⟨_, List.mem_append_right _
        (List.mem_singleton_self _), Or.inr ⟨rfl, rfl⟩⟩

/- The second step of an insertion, before a write. -/
theorem Inv.insert_persist
    (hHash :
      Function.Injective
        (Crypto.batchHash : List Transaction → H))
    (hInv : Inv stored shared)
    (hTask :
      shared.tasks task =
        .busy hash since (.inserting false batch)) :
    Inv stored
      ((shared.cache hash batch).goto task
        (.busy hash since (.writing batch))) := by
  rcases hInv.base.tasks task hash since _ hTask with
    ⟨hSince, hOwn, _⟩
  rcases hInv.base.cache hHash hOwn with ⟨_, hBase⟩
  have hKeeps :
      ∀ kept,
        (CallStage.inserting false batch).Persists kept →
          (CallStage.writing batch).Persists kept :=
    fun _ hPersists => hPersists.2
  refine ⟨?_, ?_⟩
  · refine hBase.goto (carries_of_busy hTask hKeeps) hSince
      ?_
    exact (lookup_insert_iff hHash hInv.base.cached
      hOwn).mpr (Or.inr ⟨rfl, rfl⟩)
  · intro other found hLookup
    rcases (lookup_insert_iff hHash hInv.base.cached
        hOwn).mp hLookup with hOld | ⟨rfl, rfl⟩
    · have hCovered : Covered (shared.cache hash batch)
          other found := hInv.covered other found hOld
      exact hCovered.goto (not_writing hTask (by simp))
    · exact Or.inr ⟨task, since,
        Function.update_self _ _ _⟩

/- The first step of an insertion that finds the hash. -/
theorem Inv.present
    {reads : Bool}
    (hHash :
      Function.Injective
        (Crypto.batchHash : List Transaction → H))
    (hInv : Inv stored shared)
    (hTask :
      shared.tasks task =
        .busy hash since (.checking reads batch))
    (hPresent :
      (shared.stores.batchCache.lookup hash).isSome) :
    Inv stored
      (shared.inserted task hash since reads batch) := by
  rcases hInv.base.tasks task hash since _ hTask with
    ⟨hSince, hOwn, hFound⟩
  have hCached :
      shared.stores.batchCache.lookup hash = some batch := by
    rcases Option.isSome_iff_exists.mp hPresent with
      ⟨found, hLookup⟩
    rw [hLookup, batch_eq hHash hOwn
      (hInv.base.cached hash found hLookup)]
  have hNot := not_writing hTask (by simp)
  cases reads with
  | true =>
      have hReads :
          ∀ kept,
            ¬ (CallStage.checking true
              batch).Persists kept :=
        fun _ hPersists => nomatch hPersists.1
      exact hInv.finish_read (ends_of_busy hTask hReads)
        hNot (answered_of_kept hSince (hFound rfl) hCached)
  | false =>
      have hKeeps :
          ∀ kept,
            (CallStage.checking false
                batch).Persists kept →
              (CallStage.writing batch).Persists kept :=
        fun _ hPersists => hPersists.2
      exact hInv.goto (carries_of_busy hTask hKeeps) hNot
        hSince hCached

/- The store has nothing under the hash, or fails. -/
theorem Inv.miss
    (hInv : Inv stored shared)
    (hTask :
      shared.tasks task = .busy hash since .reading) :
    Inv stored
      (shared.finish task ⟨.read hash, none, since⟩) := by
  rcases hInv.base.tasks task hash since _ hTask with
    ⟨hSince, hUnseen⟩
  exact hInv.finish_read
    (ends_of_busy hTask (fun _ hPersists => hPersists))
    (not_writing hTask (by simp))
    (answered_of_unseen hSince hUnseen)

/- The store has a batch under the hash. -/
theorem Inv.hit
    (hInv : Inv stored shared)
    (hTask : shared.tasks task = .busy hash since .reading)
    (hStore :
      shared.stores.batchStore.lookup hash = some batch) :
    Inv stored
      (shared.goto task
        (.busy hash since (.checking true batch))) := by
  rcases hInv.base.tasks task hash since _ hTask with
    ⟨hSince, _⟩
  have hKept :
      Kept stored shared hash batch shared.done.length := by
    rcases (hInv.base.written hash batch).mp
        (Or.inl hStore) with
      hStored | ⟨finished, hMem, hCall⟩
    · exact Or.inl hStored
    · rcases List.getElem?_of_mem hMem with
        ⟨position, hPosition⟩
      have hAnswered :=
        hInv.base.done position finished hPosition
      exact Or.inr (Or.inl ⟨finished, hMem, hCall,
        hAnswered.since_le.trans
          (List.getElem?_eq_some_iff.mp hPosition).1.le⟩)
  exact hInv.goto
    (carries_of_busy hTask (fun _ hPersists =>
      hPersists.elim))
    (not_writing hTask (by simp)) hSince
    ⟨hInv.base.kept hash batch hStore, fun _ => hKept⟩

omit [DecidableEq T] in
/- Writes are of batches under their own hashes. -/
theorem Base.own_of_sent
    (hStored : OwnHashes stored)
    (hBase : Base stored shared)
    (hMem : (hash, batch) ∈ shared.sent) :
    Crypto.batchHash batch.payload = hash := by
  rcases (hBase.written hash batch).mp (Or.inr hMem) with
    hBefore | ⟨finished, hDone, hCall⟩
  · exact hStored hash batch hBefore
  · exact hBase.own_of_leaves hDone (Or.inl hCall)

omit [DecidableEq T] in
/- A write that lands is in the store and no longer sent. -/
theorem Inv.land
    (hHash :
      Function.Injective
        (Crypto.batchHash : List Transaction → H))
    (hStored : OwnHashes stored)
    (hInv : Inv stored shared)
    (index : Nat) :
    Inv stored (shared.land index) := by
  unfold SharedStores.land
  cases hSent : shared.sent[index]? with
  | none => exact hInv
  | some write =>
      rcases write with ⟨hash, batch⟩
      have hMem := List.mem_of_getElem? hSent
      have hOwn := hInv.base.own_of_sent hStored hMem
      refine ⟨?_, hInv.covered⟩
      refine hInv.base.mono ⟨List.prefix_rfl,
        fun _ _ hLookup => hLookup,
        fun _ _ _ now _ hTask hNow =>
          Or.inl ⟨now, hTask, hNow⟩⟩ rfl hInv.base.cached
        (FinMap.forall_insert hInv.base.kept hOwn)
        (fun _ => Or.inl rfl) ?_
      intro other found
      dsimp only
      rw [lookup_insert_iff hHash hInv.base.kept hOwn]
      constructor
      · intro hEither
        rcases hEither with (hOld | ⟨rfl, rfl⟩) | hLater
        · exact Or.inl hOld
        · exact Or.inr hMem
        · exact Or.inr (List.mem_of_mem_eraseIdx hLater)
      · intro hEither
        rcases hEither with hOld | hWaits
        · exact Or.inl (Or.inl hOld)
        · by_cases hThis : (other, found) = (hash, batch)
          · cases hThis
            exact Or.inl (Or.inr ⟨rfl, rfl⟩)
          · right
            rcases List.getElem?_of_mem hWaits with
              ⟨place, hPlace⟩
            refine List.mem_eraseIdx_iff_getElem?.mpr
              ⟨place, ?_, hPlace⟩
            intro hSame
            rw [hSame, hSent] at hPlace
            exact hThis (Option.some.inj hPlace).symm

/- A call begins. -/
theorem Inv.enter
    {call : BatchCall H}
    (hInv : Inv stored shared)
    (hGuard : shared.Addressed (.call task call)) :
    Inv stored (shared.enter task call) := by
  have hStarts :
      shared.tasks task = .idle →
        (∀ hash since stage,
          Carries shared task hash since stage) ∧
          (∀ finished, Ends shared task finished) ∧
          ∀ hash since batch,
            shared.tasks task ≠
              .busy hash since (.writing batch) := by
    intro hIdle
    refine ⟨?_, ?_, ?_⟩
    · intro _ _ _ other began now kept hNow
      rw [hIdle] at hNow
      cases hNow
    · intro _ other began now kept hNow
      rw [hIdle] at hNow
      cases hNow
    · intro _ _ _ hWriting
      rw [hIdle] at hWriting
      cases hWriting
  cases call with
  | persist hash batch =>
      rcases hGuard with ⟨hIdle, hOwn⟩
      rcases hStarts hIdle with ⟨hCarries, _, hNot⟩
      exact hInv.goto (hCarries _ _ _) hNot (Nat.le_refl _)
        ⟨hOwn, fun hReads => nomatch hReads⟩
  | read hash =>
      rcases hStarts hGuard with ⟨hCarries, hEnds, hNot⟩
      unfold SharedStores.enter
      dsimp only
      cases hCached :
          shared.stores.batchCache.lookup hash with
      | some batch =>
          exact hInv.finish_read (hEnds _) hNot
            (answered_of_kept (Nat.le_refl _)
              (hInv.kept_of_cached hCached) hCached)
      | none =>
          refine hInv.goto (hCarries _ _ _) hNot
            (Nat.le_refl _) ?_
          intro q finished batch _ hFinished hLeaves
          have hHere :=
            (hInv.base.done q finished hFinished).leaves
              hash batch hLeaves
          rw [hCached] at hHere
          cases hHere

theorem Inv.advance
    (hHash :
      Function.Injective
        (Crypto.batchHash : List Transaction → H))
    (hInv : Inv stored shared)
    (task : T) :
    Inv stored (shared.advance task) := by
  unfold SharedStores.advance
  cases hTask : shared.tasks task with
  | idle => exact hInv
  | busy hash since stage =>
      have hBusy := hInv.base.tasks task hash since _ hTask
      cases stage with
      | checking reads batch =>
          dsimp only
          split
          · rename_i hPresent
            exact hInv.present hHash hTask hPresent
          · exact hInv.goto
              (carries_of_busy hTask fun _ hKeeps => hKeeps)
              (not_writing hTask (by simp)) hBusy.1 hBusy.2
      | inserting reads batch =>
          cases reads with
          | true => exact hInv.insert_read hHash hTask
          | false => exact hInv.insert_persist hHash hTask
      | writing batch => exact hInv.finish_persist hTask
      | reading =>
          dsimp only
          cases hStore :
              shared.stores.batchStore.lookup hash with
          | none => exact hInv.miss hTask
          | some batch => exact hInv.hit hTask hStore

theorem Inv.step
    {event : Event T H}
    (hHash :
      Function.Injective
        (Crypto.batchHash : List Transaction → H))
    (hStored : OwnHashes stored)
    (hInv : Inv stored shared)
    (hGuard : shared.Addressed event)
    (hStep : SharedStores.step shared event = .ok shared') :
    Inv stored shared' := by
  cases event with
  | call task call =>
      cases hStep
      exact hInv.enter hGuard
  | advance task =>
      cases hStep
      exact hInv.advance hHash task
  | fail task =>
      cases hStep
      unfold SharedStores.fail
      split
      · rename_i hash since hTask
        exact hInv.miss hTask
      · exact hInv
  | land index =>
      cases hStep
      exact hInv.land hHash hStored index

omit [DecidableEq H] [Crypto H] in
theorem stores_inserted
    (shared : SharedStores T H)
    (task : T)
    (hash : H)
    (since : Nat)
    (reads : Bool)
    (batch : Batch) :
    (shared.inserted task hash since reads batch).stores =
      shared.stores := by
  unfold inserted
  split
  · rfl
  · rfl

omit [Crypto H] in
/- Only an insertion of a call changes the cache. -/
theorem batchCache_step
    {event : Event T H}
    (hStep : SharedStores.step shared event = .ok shared') :
    shared'.stores.batchCache = shared.stores.batchCache ∨
      ∃ task hash since reads batch,
        shared.tasks task =
            .busy hash since (.inserting reads batch) ∧
          shared'.stores.batchCache =
            (shared.cache hash batch).stores.batchCache := by
  cases event with
  | call task call =>
      cases hStep
      cases call with
      | persist other found => exact Or.inl rfl
      | read other =>
          unfold SharedStores.enter
          dsimp only
          split
          · exact Or.inl rfl
          · exact Or.inl rfl
  | advance task =>
      cases hStep
      unfold SharedStores.advance
      cases hTask : shared.tasks task with
      | idle => exact Or.inl rfl
      | busy other since stage =>
          cases stage with
          | checking reads found =>
              dsimp only
              split
              · rw [stores_inserted]
                exact Or.inl rfl
              · exact Or.inl rfl
          | inserting reads found =>
              dsimp only
              rw [stores_inserted]
              exact Or.inr ⟨task, other, since, reads, found,
                hTask, rfl⟩
          | writing found => exact Or.inl rfl
          | reading =>
              dsimp only
              split
              · exact Or.inl rfl
              · exact Or.inl rfl
  | fail task =>
      cases hStep
      unfold SharedStores.fail
      split
      · exact Or.inl rfl
      · exact Or.inl rfl
  | land index =>
      cases hStep
      unfold SharedStores.land
      split
      · exact Or.inl rfl
      · exact Or.inl rfl

/- What is in the cache stays as it is. -/
theorem Inv.cache_grows
    {event : Event T H}
    (hHash :
      Function.Injective
        (Crypto.batchHash : List Transaction → H))
    (hInv : Inv stored shared)
    (hStep : SharedStores.step shared event = .ok shared')
    (hCached :
      shared.stores.batchCache.lookup hash = some batch) :
    shared'.stores.batchCache.lookup hash = some batch := by
  rcases batchCache_step hStep with
    hSame | ⟨task, other, since, reads, found, hTask, hCache⟩
  · rw [hSame]
    exact hCached
  · rcases hInv.base.tasks task other since _ hTask with
      ⟨_, hStands⟩
    rw [hCache]
    exact (hInv.base.cache hHash hStands.1).1.cache hash
      batch hCached

end SharedStores

end LibApollo

------------------------------------------------------------
-- Overlapping Calls Are Consistent
------------------------------------------------------------

namespace LibApollo

namespace SharedStores

variable {T H : Type} [DecidableEq T] [DecidableEq H]
variable [Crypto H]
variable {stored : FinMap H Batch}
variable {shared : SharedStores T H}

/-
  All batches are under their own hashes and every call is
  answered.  What is in the store or on its way there is
  what the returned calls leave in it, and when no call is
  in progress the same holds for the cache.
-/
structure Consistent
    (stored : FinMap H Batch)
    (shared : SharedStores T H) : Prop where
  cached : OwnHashes shared.stores.batchCache
  kept : OwnHashes shared.stores.batchStore
  answered :
    ∀ position finished,
      shared.done[position]? = some finished →
        Answered stored shared position finished
  written :
    ∀ hash batch,
      (shared.stores.batchStore.lookup hash = some batch ∨
          (hash, batch) ∈ shared.sent) ↔
        (replay stored shared.done).batchStore.lookup
          hash = some batch
  rests :
    (∀ task, shared.tasks task = .idle) →
      shared.stores.batchCache =
        (replay stored shared.done).batchCache

omit [DecidableEq T] in
theorem Inv.consistent
    (hHash :
      Function.Injective
        (Crypto.batchHash : List Transaction → H))
    (hStored : OwnHashes stored)
    (hInv : Inv stored shared) :
    Consistent stored shared := by
  rcases replay_lookup hHash hStored shared.done
      (fun _ hMem _ _ hLeaves =>
        hInv.base.own_of_leaves hMem hLeaves) with
    ⟨hCache, hStore⟩
  refine
    { cached := hInv.base.cached
      kept := hInv.base.kept
      answered := hInv.base.done
      written := ?_
      rests := ?_ }
  · intro hash batch
    rw [hInv.base.written, hStore]
  · intro hIdle
    apply Finmap.ext_lookup
    intro hash
    apply Option.ext
    intro batch
    rw [hCache]
    constructor
    · intro hCached
      rcases hInv.covered hash batch hCached with
        hDone | ⟨task, since, hTask⟩
      · exact hDone
      · rw [hIdle task] at hTask
        cases hTask
    · intro hDone
      rcases hDone with ⟨finished, hMem, hLeaves⟩
      rcases List.getElem?_of_mem hMem with
        ⟨position, hPosition⟩
      exact (hInv.base.done position finished
        hPosition).leaves hash batch hLeaves

/-
  However the calls of any tasks overlap, whenever writes
  land and reads of the store fail, the calls are consistent
  and what is cached does not change.
-/
theorem overlapping_calls_consistent
    (hHash :
      Function.Injective
        (Crypto.batchHash : List Transaction → H))
    (hStored : OwnHashes stored)
    (hReach :
      Machine.Reach step Addressed (new stored) shared) :
    Consistent stored shared ∧
      ∀ later,
        Machine.Reach step Addressed shared later →
          ∀ hash batch,
            shared.stores.batchCache.lookup hash =
                some batch →
              later.stores.batchCache.lookup hash =
                some batch := by
  have hInv : Inv stored shared :=
    hReach.invariant (Inv stored) (inv_new hStored)
      (fun _ _ _ hInv hGuard hStep =>
        hInv.step hHash hStored hGuard hStep)
  refine ⟨hInv.consistent hHash hStored, ?_⟩
  intro later hLater hash batch hCached
  have hBoth :=
    hLater.invariant
      (fun s =>
        Inv stored s ∧
          s.stores.batchCache.lookup hash = some batch)
      ⟨hInv, hCached⟩
      (fun _ _ _ hOld hGuard hStep =>
        ⟨hOld.1.step hHash hStored hGuard hStep,
          hOld.1.cache_grows hHash hStep hOld.2⟩)
  exact hBoth.2

/- Whether an event is a call by a task that is in none. -/
def addressedCheck
    (shared : SharedStores T H) : Event T H → Bool
| .call task (.persist hash batch) =>
    decide
      (shared.tasks task = .idle ∧
        Crypto.batchHash batch.payload = hash)
| .call task (.read _) =>
    decide (shared.tasks task = .idle)
| .advance _ => true
| .fail _ => true
| .land _ => true

omit [DecidableEq T] in
theorem addressed_of_check
    (shared : SharedStores T H)
    (event : Event T H)
    (hCheck : shared.addressedCheck event = true) :
    shared.Addressed event := by
  cases event with
  | call task call =>
      cases call with
      | persist hash batch =>
          have hBoth := of_decide_eq_true hCheck
          exact hBoth
      | read hash =>
          have hIdle := of_decide_eq_true hCheck
          exact hIdle
  | advance task => trivial
  | fail task => trivial
  | land index => trivial

/- Two transactions of one client. -/
def racedBatch : Batch where
  payload :=
    [{ clientId := 1, nonce := 1, data := [7], request := [] },
      { clientId := 1, nonce := 2, data := [8],
        request := [] }]

/-
  Two tasks keep the same batch and both find its hash
  absent.  A third began to read before and is not answered
  by the store; a fourth finds the batch before any write is
  sent.  One of the two writes has landed.
-/
def racing : List (Event Nat Digest) :=
  let hash := racedBatch.hash
  [.call 0 (.persist hash racedBatch), .advance 0,
    .call 1 (.persist hash racedBatch), .advance 1,
    .call 2 (.read hash), .advance 0, .call 3 (.read hash),
    .fail 2, .advance 1, .advance 1, .land 0, .advance 0]

theorem overlapping_calls_consistent_racing :
    ∃ shared : SharedStores Nat Digest,
      Machine.Reach step Addressed (new ∅) shared ∧
        shared.done.map FinishedCall.result =
          [some racedBatch, none, none, none] ∧
        shared.sent = [(racedBatch.hash, racedBatch)] ∧
        Consistent ∅ shared := by
  have hRun :
      Machine.runCheck step addressedCheck
          (fun shared =>
            decide
              (shared.done.map FinishedCall.result =
                  [some racedBatch, none, none, none] ∧
                shared.sent =
                  [(racedBatch.hash, racedBatch)]))
          (new ∅ : SharedStores Nat Digest) racing =
        true := by
    decide +kernel
  rcases Machine.Reach.of_runCheck addressed_of_check hRun
    with ⟨shared, hReach, hFinal⟩
  rcases of_decide_eq_true hFinal with ⟨hDone, hSent⟩
  have hNone : OwnHashes (∅ : FinMap Digest Batch) := by
    intro hash batch hLookup
    simp at hLookup
  have hCalls :=
    overlapping_calls_consistent Digest.batchHash_injective
      hNone hReach
  exact ⟨shared, hReach, hDone, hSent, hCalls.1⟩

end SharedStores

end LibApollo
