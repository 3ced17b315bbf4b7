import LibApollo.Mempool.Batches
import LibApollo.Types.CommitLog

/-
  What a node tells its batcher and its confirmation router
  about the blocks it commits.

  For every committed block the loop at the end of a commit
  reads the batch and sends it both ways; a block without a
  batch is passed over.  Where every delivered block but the
  root has its batch in the stores, the batches sent are
  those of the committed blocks in the order of the commits.

  Key definitions include:
    * `Notices`, `Notices.committed`
    * `committedBatches`
    * `Announced`, `CommitsTold`

  Key theorems include:
    * `Announced.commit`
    * `Announced.commitsTold`
-/

------------------------------------------------------------
-- Notices
------------------------------------------------------------

namespace LibApollo

/- The stores and the two channels of a node. -/
structure Notices (H : Type) where
  batches : BatchStores H
  toBatcher : List (BatcherConsensusMsg Transaction)
  toRouter : List Batch

/- The batches of the commits among the messages sent. -/
def committedBatches
    (news : List (BatcherConsensusMsg Transaction)) :
    List Batch :=
  news.filterMap
    (fun msg =>
      match msg with
      | .committed batch _ => some batch
      | _ => none)

theorem committedBatches_append
    (news more : List (BatcherConsensusMsg Transaction)) :
    committedBatches (news ++ more) =
      committedBatches news ++ committedBatches more :=
  List.filterMap_append

variable {H : Type} [DecidableEq H]

/- One iteration of the loop over the committed blocks. -/
def Notices.committed
    (notices : Notices H)
    (batchHash : H)
    (height : Nat) : Notices H :=
  match notices.batches.readBatch batchHash with
  | (none, batches) => { notices with batches := batches }
  | (some batch, batches) =>
      { batches := batches
        toBatcher :=
          notices.toBatcher ++ [.committed batch height]
        toRouter := notices.toRouter ++ [batch] }

theorem Notices.committed_holds
    (notices : Notices H)
    (batchHash : H)
    (height : Nat)
    (hash : H)
    (batch : Batch) :
    (notices.committed batchHash height).batches.Holds hash
        batch ↔
      notices.batches.Holds hash batch := by
  have hRead :=
    BatchStores.readBatch_holds notices.batches batchHash
      hash batch
  unfold Notices.committed
  rcases hEq : notices.batches.readBatch batchHash with
    ⟨found, batches⟩
  rw [hEq] at hRead
  cases found with
  | none => exact hRead
  | some found => exact hRead

variable [Crypto H]

/- The batches sent both ways are those with these hashes. -/
structure Notices.Tells
    (notices : Notices H)
    (hashes : List H) : Prop where
  router :
    notices.toRouter.map CachedBatch.hash = hashes
  batcher :
    committedBatches notices.toBatcher = notices.toRouter

/- Batches are kept under their own hashes. -/
def BatchStores.Filed (stores : BatchStores H) : Prop :=
  ∀ hash batch,
    stores.Holds hash batch → batch.hash = hash

theorem BatchStores.Filed.persist
    {stores : BatchStores H}
    {hash : H}
    {batch : Batch}
    (hFiled : stores.Filed)
    (hHash : batch.hash = hash) :
    (stores.persistBatch hash batch).Filed := by
  intro other found hHeld
  rcases BatchStores.holds_of_persistBatch hHeld with
    hOld | ⟨rfl, rfl⟩
  · exact hFiled other found hOld
  · exact hHash

theorem BatchStores.Filed.read
    {stores : BatchStores H}
    (hFiled : stores.Filed)
    (hash : H) :
    (stores.readBatch hash).2.Filed := by
  intro other found hHeld
  exact hFiled other found
    ((BatchStores.readBatch_holds stores hash other
      found).mp hHeld)

/- A batch that is there is sent. -/
theorem Notices.Tells.found
    {notices : Notices H}
    {hashes : List H}
    {batchHash : H}
    (hTells : notices.Tells hashes)
    (hFiled : notices.batches.Filed)
    (hHas : ∃ batch, notices.batches.Holds batchHash batch)
    (height : Nat) :
    (notices.committed batchHash height).Tells
      (hashes ++ [batchHash]) := by
  rcases BatchStores.readBatch_isSome hHas with
    ⟨found, hFound⟩
  have hHash : found.hash = batchHash :=
    hFiled batchHash found
      (BatchStores.holds_of_readBatch hFound)
  unfold Notices.committed
  rcases hEq : notices.batches.readBatch batchHash with
    ⟨result, batches⟩
  rw [hEq] at hFound
  cases hFound
  constructor
  · dsimp only
    rw [List.map_append, hTells.router, List.map_singleton,
      hHash]
  · dsimp only
    rw [committedBatches_append, hTells.batcher]
    rfl

/- Without a batch nothing is sent. -/
theorem Notices.Tells.missing
    {notices : Notices H}
    {hashes : List H}
    {batchHash : H}
    (hTells : notices.Tells hashes)
    (hNone :
      ∀ batch, ¬ notices.batches.Holds batchHash batch)
    (height : Nat) :
    (notices.committed batchHash height).Tells hashes := by
  unfold Notices.committed
  rcases hEq : notices.batches.readBatch batchHash with
    ⟨result, batches⟩
  cases result with
  | none => exact ⟨hTells.router, hTells.batcher⟩
  | some found =>
      have hHolds :=
        BatchStores.holds_of_readBatch
          (congrArg Prod.fst hEq)
      exact absurd hHolds (hNone found)

end LibApollo

------------------------------------------------------------
-- The Loop Over Committed Blocks
------------------------------------------------------------

namespace LibApollo

variable {H B : Type} [DecidableEq H] [BlockTrait B H]
variable {batchHashOf : B → H}
variable {root : H}
variable {notices : Notices H}

/- The loop over blocks that were just committed. -/
def Notices.tellCommits
    (batchHashOf : B → H)
    (notices : Notices H)
    (blocks : List B) : Notices H :=
  blocks.foldl
    (fun notices block =>
      notices.committed (batchHashOf block)
        (BlockTrait.getHeight block))
    notices

theorem Notices.tellCommits_holds
    (batchHashOf : B → H)
    (notices : Notices H)
    (blocks : List B)
    (hash : H)
    (batch : Batch) :
    (notices.tellCommits batchHashOf blocks).batches.Holds
        hash batch ↔
      notices.batches.Holds hash batch := by
  induction blocks generalizing notices with
  | nil => rfl
  | cons block blocks ih =>
      refine Iff.trans (ih _) ?_
      exact notices.committed_holds _ _ hash batch

/- The hashes of the batches of the blocks but the root. -/
def batchHashes
    (batchHashOf : B → H)
    (root : H)
    (log : List B) : List H :=
  (log.filter
    (fun block => BlockTrait.getHash block ≠ root)).map
    batchHashOf

theorem batchHashes_append
    (log more : List B) :
    batchHashes batchHashOf root (log ++ more) =
      batchHashes batchHashOf root log ++
        batchHashes batchHashOf root more := by
  simp [batchHashes]

variable [Crypto H]

/- All blocks but the root have their batch in the stores. -/
theorem Notices.Tells.tellCommits
    {hashes : List H}
    {blocks : List B}
    (hTells : notices.Tells hashes)
    (hFiled : notices.batches.Filed)
    (hRoot :
      ∀ block ∈ blocks, BlockTrait.getHash block = root →
        ∀ batch,
          ¬ notices.batches.Holds (batchHashOf block) batch)
    (hHas :
      ∀ block ∈ blocks, BlockTrait.getHash block ≠ root →
        ∃ batch,
          notices.batches.Holds (batchHashOf block) batch) :
    (notices.tellCommits batchHashOf blocks).Tells
      (hashes ++ batchHashes batchHashOf root blocks) := by
  induction blocks generalizing notices hashes with
  | nil =>
      rw [batchHashes, List.filter_nil, List.map_nil,
        List.append_nil]
      exact hTells
  | cons block blocks ih =>
      have hHolds :=
        notices.committed_holds (batchHashOf block)
          (BlockTrait.getHeight block)
      -- what the head adds, and the rest after it
      have hRest :
          ∀ more,
            (notices.committed (batchHashOf block)
              (BlockTrait.getHeight block)).Tells more →
            (notices.tellCommits batchHashOf
              (block :: blocks)).Tells
              (more ++
                batchHashes batchHashOf root blocks) := by
        intro more hMore
        apply ih hMore
        · intro hash batch hHeld
          exact hFiled hash batch
            ((hHolds hash batch).mp hHeld)
        · intro other hMem hIsRoot batch hHeld
          exact hRoot other (List.mem_cons_of_mem _ hMem)
            hIsRoot batch ((hHolds _ batch).mp hHeld)
        · intro other hMem hNot
          rcases hHas other (List.mem_cons_of_mem _ hMem)
              hNot with ⟨batch, hHeld⟩
          exact ⟨batch, (hHolds _ batch).mpr hHeld⟩
      by_cases hIsRoot : BlockTrait.getHash block = root
      · have hSkip :
            batchHashes batchHashOf root (block :: blocks) =
              batchHashes batchHashOf root blocks := by
          simp [batchHashes, hIsRoot]
        rw [hSkip]
        exact hRest hashes
          (hTells.missing
            (hRoot block List.mem_cons_self hIsRoot) _)
      · have hTake :
            batchHashes batchHashOf root (block :: blocks) =
              batchHashOf block ::
                batchHashes batchHashOf root blocks := by
          simp [batchHashes, hIsRoot]
        rw [hTake, List.append_cons]
        exact hRest (hashes ++ [batchHashOf block])
          (hTells.found hFiled
            (hHas block List.mem_cons_self hIsRoot) _)

end LibApollo

------------------------------------------------------------
-- Committed Blocks Are Told
------------------------------------------------------------

namespace LibApollo

variable {H B : Type} [DecidableEq H] [Crypto H]
variable [BlockTrait B H]
variable {batchHashOf : B → H}
variable {root : H}
variable {notices : Notices H}
variable {st st' final : Storage H B}
variable {log : List B}

/-
  The committed blocks in order, and the notices of them.
  All delivered blocks but the root have their batches.
-/
structure Announced
    (batchHashOf : B → H)
    (root : H)
    (notices : Notices H)
    (st : Storage H B)
    (log : List B) : Prop where
  committed : st.CommitLog root log
  tells : notices.Tells (batchHashes batchHashOf root log)
  filed : notices.batches.Filed
  stocked :
    ∀ hash block,
      st.deliveredBlockFromHash hash = some block →
        hash = root ∨
          ∃ batch,
            notices.batches.Holds (batchHashOf block) batch
  bare :
    ∀ block,
      st.deliveredBlockFromHash root = some block →
        ∀ batch : Batch, batch.hash ≠ batchHashOf block
  payload :
    ∀ block ∈ log,
      ∃ stored,
        st.deliveredBlockFromHash
            (BlockTrait.getHash block) = some stored ∧
          batchHashOf stored = batchHashOf block

/-
  The notices of the committed blocks are complete: the
  committed blocks are a list without repetition, ancestors
  first; the batches sent both ways are those of the blocks
  but the root, in this order; and only the root has no
  batch.
-/
structure CommitsTold
    (batchHashOf : B → H)
    (root : H)
    (notices : Notices H)
    (st : Storage H B)
    (log : List B) : Prop where
  once : (log.map BlockTrait.getHash).Nodup
  committed :
    ∀ hash,
      hash ∈ st.committedBlocksByHash ↔
        hash ∈ log.map BlockTrait.getHash
  payload :
    ∀ block ∈ log,
      ∃ stored,
        st.deliveredBlockFromHash
            (BlockTrait.getHash block) = some stored ∧
          batchHashOf stored = batchHashOf block
  ancestors :
    ∀ before block after other,
      log = before ++ block :: after →
        Ancestry.Ancestor st.parent other
            (BlockTrait.getHash block) →
          other = BlockTrait.getHash block ∨
            other ∈ before.map BlockTrait.getHash
  router :
    notices.toRouter.map CachedBatch.hash =
      (log.filter
        (fun block =>
          BlockTrait.getHash block ≠ root)).map batchHashOf
  batcher :
    committedBatches notices.toBatcher = notices.toRouter
  missing :
    ∀ hash block,
      st.deliveredBlockFromHash hash = some block →
        ((notices.batches.readBatch
            (batchHashOf block)).1 = none ↔
          hash = root)

theorem Announced.commitsTold
    {depth : H → Nat}
    (hTold : Announced batchHashOf root notices st log)
    (hRooted : st.Rooted root depth) :
    CommitsTold batchHashOf root notices st log where
  once := hTold.committed.once
  committed := hTold.committed.mem
  payload := hTold.payload
  ancestors := fun _ _ _ _ hSplit hAncestor =>
    hTold.committed.ancestors hRooted hSplit hAncestor
  router := hTold.tells.router
  batcher := hTold.tells.batcher
  missing := by
    intro hash block hLookup
    constructor
    · intro hNone
      rcases hTold.stocked hash block hLookup with
        hRoot | hHas
      · exact hRoot
      · rcases BatchStores.readBatch_isSome hHas with
          ⟨found, hFound⟩
        cases hNone.symm.trans hFound
    · intro hRoot
      rw [hRoot] at hLookup
      cases hRead :
          (notices.batches.readBatch
            (batchHashOf block)).1 with
      | none => rfl
      | some found =>
          have hHash :=
            hTold.filed _ found
              (BatchStores.holds_of_readBatch hRead)
          exact absurd hHash
            (hTold.bare block hLookup found)

/- Only what the stores hold and the channels say counts. -/
theorem Announced.swap
    {notices' : Notices H}
    (hTold : Announced batchHashOf root notices st log)
    (hTells :
      notices'.Tells (batchHashes batchHashOf root log))
    (hFiled : notices'.batches.Filed)
    (hHolds :
      ∀ hash, (∃ batch, notices.batches.Holds hash batch) →
        ∃ batch, notices'.batches.Holds hash batch) :
    Announced batchHashOf root notices' st log :=
  { hTold with
    tells := hTells
    filed := hFiled
    stocked := fun hash block hLookup =>
      (hTold.stocked hash block hLookup).imp_right
        (hHolds _) }

/- A batch is kept under its own hash. -/
theorem Announced.persist
    {hash : H}
    {batch : Batch}
    (hTold : Announced batchHashOf root notices st log)
    (hHash : batch.hash = hash) :
    Announced batchHashOf root
      { notices with
        batches := notices.batches.persistBatch hash batch }
      st log := by
  refine hTold.swap ?_ (hTold.filed.persist hHash) ?_
  · exact ⟨hTold.tells.router, hTold.tells.batcher⟩
  · intro other hHas
    exact BatchStores.exists_holds_persistBatch hHas

theorem Announced.read
    (hTold : Announced batchHashOf root notices st log)
    (hash : H) :
    Announced batchHashOf root
      { notices with
        batches := (notices.batches.readBatch hash).2 }
      st log := by
  have hHolds := BatchStores.readBatch_holds notices.batches
    hash
  refine hTold.swap ?_ (hTold.filed.read hash) ?_
  · exact ⟨hTold.tells.router, hTold.tells.batcher⟩
  · intro other hHas
    rcases hHas with ⟨batch, hHeld⟩
    exact ⟨batch, (hHolds other batch).mpr hHeld⟩

/- News that are not of a commit. -/
theorem Announced.tell
    {msg : BatcherConsensusMsg Transaction}
    (hTold : Announced batchHashOf root notices st log)
    (hMsg : committedBatches [msg] = []) :
    Announced batchHashOf root
      { notices with
        toBatcher := notices.toBatcher ++ [msg] }
      st log := by
  refine { hTold with
    tells := ⟨hTold.tells.router, ?_⟩ }
  dsimp only
  rw [committedBatches_append, hMsg, List.append_nil]
  exact hTold.tells.batcher

/- A further block is delivered with its batch. -/
theorem Announced.deliver
    {block : B}
    (hTold : Announced batchHashOf root notices st log)
    (hOther : BlockTrait.getHash block ≠ root)
    (hHas :
      ∃ batch,
        notices.batches.Holds (batchHashOf block) batch)
    (hSame :
      ∀ stored,
        st.deliveredBlockFromHash
            (BlockTrait.getHash block) = some stored →
          BlockTrait.getPrev stored =
              BlockTrait.getPrev block ∧
            batchHashOf stored = batchHashOf block) :
    Announced batchHashOf root notices
      (st.addDeliveredBlock block) log := by
  have hLookup :=
    Storage.addDeliveredBlock_deliveredBlockFromHash st block
  refine { hTold with
    committed := ?_
    stocked := ?_
    bare := ?_
    payload := ?_ }
  · refine Storage.CommitLog.grow hTold.committed ?_ rfl
    intro u v hParent
    rcases Storage.exists_delivered_of_parent hParent with
      ⟨stored, hStored, rfl⟩
    rw [Storage.parent, hLookup]
    split
    · rename_i hHash
      rw [hHash] at hStored
      rw [(hSame stored hStored).1]
      rfl
    · rw [hStored]
      rfl
  · intro hash stored hStored
    rw [hLookup] at hStored
    split at hStored
    · cases hStored
      exact Or.inr hHas
    · exact hTold.stocked hash stored hStored
  · intro stored hStored
    rw [hLookup, if_neg (Ne.symm hOther)] at hStored
    exact hTold.bare stored hStored
  · intro logged hMem
    rcases hTold.payload logged hMem with
      ⟨stored, hStored, hPayload⟩
    rw [hLookup]
    split
    · rename_i hHash
      rw [hHash] at hStored
      exact ⟨block, rfl,
        (hSame stored hStored).2.symm.trans hPayload⟩
    · exact ⟨stored, hStored, hPayload⟩

/- A block that is there already is stored again. -/
theorem Announced.again
    {block : B}
    (hTold : Announced batchHashOf root notices st log)
    (hStored :
      st.deliveredBlockFromHash
        (BlockTrait.getHash block) = some block) :
    Announced batchHashOf root notices
      (st.addDeliveredBlock block) log := by
  have hLookup :
      ∀ hash,
        (st.addDeliveredBlock block).deliveredBlockFromHash
            hash = st.deliveredBlockFromHash hash := by
    intro hash
    rw [Storage.addDeliveredBlock_deliveredBlockFromHash]
    split
    · rename_i hHash
      rw [hHash, hStored]
    · rfl
  refine { hTold with
    committed := ?_
    stocked := ?_
    bare := ?_
    payload := ?_ }
  · refine Storage.CommitLog.grow hTold.committed ?_ rfl
    intro u v hParent
    rw [Storage.parent, hLookup]
    exact hParent
  · intro hash other hOther
    rw [hLookup] at hOther
    exact hTold.stocked hash other hOther
  · intro other hOther
    rw [hLookup] at hOther
    exact hTold.bare other hOther
  · intro logged hMem
    rw [hLookup]
    exact hTold.payload logged hMem

/- A walk is told from its last block to its first. -/
theorem Announced.commit
    {depth : H → Nat}
    {hash : H}
    {blocks : List B}
    (hTold : Announced batchHashOf root notices st log)
    (hRooted : st.Rooted root depth)
    (hWalks : st.Walks hash final blocks) :
    Announced batchHashOf root
      (notices.tellCommits batchHashOf blocks.reverse)
      final (log ++ blocks.reverse) := by
  have hLookup := hWalks.delivered_eq
  have hHolds :=
    notices.tellCommits_holds batchHashOf blocks.reverse
  have hDelivered :
      ∀ block ∈ blocks.reverse,
        st.deliveredBlockFromHash
          (BlockTrait.getHash block) = some block := by
    intro block hMem
    exact hWalks.delivered block (List.mem_reverse.mp hMem)
  refine
    { committed := hTold.committed.walk hRooted hWalks
      tells := ?_
      filed := ?_
      stocked := ?_
      bare := ?_
      payload := ?_ }
  · rw [batchHashes_append]
    apply hTold.tells.tellCommits hTold.filed
    · intro block hMem hIsRoot batch hHeld
      have hStored := hDelivered block hMem
      rw [hIsRoot] at hStored
      exact hTold.bare block hStored batch
        (hTold.filed _ batch hHeld)
    · intro block hMem hNot
      exact (hTold.stocked _ block
        (hDelivered block hMem)).resolve_left hNot
  · intro other batch hHeld
    exact hTold.filed other batch
      ((hHolds other batch).mp hHeld)
  · intro other block hStored
    rw [hLookup] at hStored
    rcases hTold.stocked other block hStored with
      hRoot | ⟨batch, hHeld⟩
    · exact Or.inl hRoot
    · exact Or.inr ⟨batch, (hHolds _ batch).mpr hHeld⟩
  · intro block hStored
    rw [hLookup] at hStored
    exact hTold.bare block hStored
  · intro block hMem
    rw [hLookup]
    rcases List.mem_append.mp hMem with hOld | hNew
    · exact hTold.payload block hOld
    · exact ⟨block, hDelivered block hNew, rfl⟩

end LibApollo
