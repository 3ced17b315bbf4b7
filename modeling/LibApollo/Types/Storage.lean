import LibApollo.Base.FiniteMap
import LibApollo.Base.Ancestry
import LibApollo.Types.Block
import Mathlib.Data.Finset.Card

/-
  The per-node block index and the commit walk over it.

  `Storage` carries its own representation invariant: every
  stored block sits under its own hash and its own height.
  The commit walk follows parents from a hash until it meets
  a committed block.

  Key definitions include:
    * `BlockTrait`
    * `Storage`
    * `Storage.addDeliveredBlock`
    * `Storage.addCommittedBlock`
    * `Storage.commitWalk`
    * `Storage.Walks`, `Storage.Misses`
    * `Storage.CommittedClosed`

  Key theorems include:
    * `Storage.commitWalk_eq`
    * `Storage.commitWalk_spec`
    * `Storage.commitWalk_isSome`
    * `Storage.WalkSpec.committedClosed`
-/

------------------------------------------------------------
-- The Block Index
------------------------------------------------------------

namespace LibApollo

/- What the index asks of a block type. -/
class BlockTrait (B : Type) (H : outParam Type) where
  getHash : B → H
  getHeight : B → Nat
  getAuthor : B → Replica
  getPrev : B → H

instance {H : Type} : BlockTrait (Block H) H where
  getHash block := block.hash
  getHeight block := block.header.height
  getAuthor block := block.header.author
  getPrev block := block.header.prev

structure Storage
    (H B : Type) [DecidableEq H] [BlockTrait B H] where
  allDeliveredBlocksByHash : FinMap H B
  allDeliveredBlocksByHt : FinMap Nat B
  committedBlocksByHash : Finset H
  committedBlocksByHt : Finset Nat
  hash_key :
    ∀ hash block,
      allDeliveredBlocksByHash.lookup hash = some block →
        BlockTrait.getHash block = hash
  height_key :
    ∀ height block,
      allDeliveredBlocksByHt.lookup height = some block →
        BlockTrait.getHeight block = height

namespace Storage

variable {H B : Type} [DecidableEq H] [BlockTrait B H]

def new : Storage H B where
  allDeliveredBlocksByHash := ∅
  allDeliveredBlocksByHt := ∅
  committedBlocksByHash := ∅
  committedBlocksByHt := ∅
  hash_key := by
    intro hash block hLookup
    simp at hLookup
  height_key := by
    intro height block hLookup
    simp at hLookup

def deliveredBlockFromHt
    (st : Storage H B)
    (height : Nat) : Option B :=
  st.allDeliveredBlocksByHt.lookup height

def deliveredBlockFromHash
    (st : Storage H B)
    (hash : H) : Option B :=
  st.allDeliveredBlocksByHash.lookup hash

def addDeliveredBlock
    (st : Storage H B)
    (block : B) : Storage H B :=
  { st with
    allDeliveredBlocksByHash :=
      st.allDeliveredBlocksByHash.insert
        (BlockTrait.getHash block) block
    allDeliveredBlocksByHt :=
      st.allDeliveredBlocksByHt.insert
        (BlockTrait.getHeight block) block
    hash_key := by
      intro hash stored hLookup
      rw [FinMap.lookup_insert_eq] at hLookup
      by_cases hHash : hash = BlockTrait.getHash block
      · rw [if_pos hHash] at hLookup
        rw [← Option.some.inj hLookup, hHash]
      · rw [if_neg hHash] at hLookup
        exact st.hash_key hash stored hLookup
    height_key := by
      intro height stored hLookup
      rw [FinMap.lookup_insert_eq] at hLookup
      by_cases hHeight :
          height = BlockTrait.getHeight block
      · rw [if_pos hHeight] at hLookup
        rw [← Option.some.inj hLookup, hHeight]
      · rw [if_neg hHeight] at hLookup
        exact st.height_key height stored hLookup }

def addCommittedBlock
    (st : Storage H B)
    (block : B) : Storage H B :=
  { st with
    committedBlocksByHash :=
      insert (BlockTrait.getHash block)
        st.committedBlocksByHash
    committedBlocksByHt :=
      insert (BlockTrait.getHeight block)
        st.committedBlocksByHt }

def isDeliveredByHash
    (st : Storage H B)
    (hash : H) : Bool :=
  (st.deliveredBlockFromHash hash).isSome

def isCommittedByHash
    (st : Storage H B)
    (hash : H) : Bool :=
  hash ∈ st.committedBlocksByHash

def isCommittedByHt
    (st : Storage H B)
    (height : Nat) : Bool :=
  height ∈ st.committedBlocksByHt

def committedBlockFromHt
    (st : Storage H B)
    (height : Nat) : Option B :=
  if st.isCommittedByHt height then
    st.deliveredBlockFromHt height
  else
    none

def committedBlockByHash
    (st : Storage H B)
    (hash : H) : Option B :=
  if st.isCommittedByHash hash then
    st.deliveredBlockFromHash hash
  else
    none

/- The parent pointers of the delivered blocks. -/
def parent
    (st : Storage H B)
    (hash : H) : Option H :=
  (st.deliveredBlockFromHash hash).map BlockTrait.getPrev

end Storage

end LibApollo

------------------------------------------------------------
-- Index Equations
------------------------------------------------------------

namespace LibApollo

namespace Storage

variable {H B : Type} [DecidableEq H] [BlockTrait B H]

@[simp] theorem new_deliveredBlockFromHash
    (hash : H) :
    (new : Storage H B).deliveredBlockFromHash hash =
      none := rfl

@[simp] theorem new_committedBlocksByHash :
    (new : Storage H B).committedBlocksByHash = ∅ := rfl

@[grind =]
theorem addDeliveredBlock_deliveredBlockFromHash
    (st : Storage H B)
    (block : B)
    (hash : H) :
    (st.addDeliveredBlock block).deliveredBlockFromHash
        hash =
      if hash = BlockTrait.getHash block then some block
      else st.deliveredBlockFromHash hash :=
  FinMap.lookup_insert_eq _ _ _ _

@[grind =]
theorem addDeliveredBlock_deliveredBlockFromHt
    (st : Storage H B)
    (block : B)
    (height : Nat) :
    (st.addDeliveredBlock block).deliveredBlockFromHt
        height =
      if height = BlockTrait.getHeight block
      then some block
      else st.deliveredBlockFromHt height :=
  FinMap.lookup_insert_eq _ _ _ _

@[simp] theorem addDeliveredBlock_committedBlocksByHash
    (st : Storage H B)
    (block : B) :
    (st.addDeliveredBlock block).committedBlocksByHash =
      st.committedBlocksByHash := rfl

@[simp] theorem addDeliveredBlock_self
    (st : Storage H B)
    (block : B) :
    (st.addDeliveredBlock block).deliveredBlockFromHash
        (BlockTrait.getHash block) = some block := by
  rw [addDeliveredBlock_deliveredBlockFromHash, if_pos rfl]

@[simp] theorem addCommittedBlock_deliveredBlockFromHash
    (st : Storage H B)
    (block : B)
    (hash : H) :
    (st.addCommittedBlock block).deliveredBlockFromHash
        hash = st.deliveredBlockFromHash hash := rfl

@[simp] theorem addCommittedBlock_committedBlocksByHash
    (st : Storage H B)
    (block : B) :
    (st.addCommittedBlock block).committedBlocksByHash =
      insert (BlockTrait.getHash block)
        st.committedBlocksByHash := rfl

@[simp] theorem addCommittedBlock_parent
    (st : Storage H B)
    (block : B) :
    (st.addCommittedBlock block).parent = st.parent := rfl

theorem isDeliveredByHash_iff
    (st : Storage H B)
    (hash : H) :
    st.isDeliveredByHash hash = true ↔
      ∃ block, st.deliveredBlockFromHash hash =
        some block :=
  Option.isSome_iff_exists

/- What holds of the stored blocks, and of the new one. -/
theorem forall_addDeliveredBlock
    {st : Storage H B}
    {block : B}
    {P : H → B → Prop}
    (hOld :
      ∀ hash stored,
        st.deliveredBlockFromHash hash = some stored →
          P hash stored)
    (hNew : P (BlockTrait.getHash block) block) :
    ∀ hash stored,
      (st.addDeliveredBlock block).deliveredBlockFromHash
          hash = some stored →
        P hash stored :=
  FinMap.forall_insert hOld hNew

/- An index with one block delivers that block only. -/
theorem eq_of_delivered_new
    {block stored : B}
    {hash : H}
    (hLookup :
      (new.addDeliveredBlock block).deliveredBlockFromHash
          hash = some stored) :
    stored = block := by
  rw [addDeliveredBlock_deliveredBlockFromHash] at hLookup
  split at hLookup
  · exact (Option.some.inj hLookup).symm
  · simp at hLookup

/- Storing a block keeps the delivered hashes. -/
theorem isDeliveredByHash_addDeliveredBlock
    {st : Storage H B}
    {block : B}
    {hash : H}
    (hHash :
      hash = BlockTrait.getHash block ∨
        st.isDeliveredByHash hash = true) :
    (st.addDeliveredBlock block).isDeliveredByHash hash =
      true := by
  rw [isDeliveredByHash,
    addDeliveredBlock_deliveredBlockFromHash]
  by_cases hEq : hash = BlockTrait.getHash block
  · rw [if_pos hEq]
    rfl
  · rw [if_neg hEq]
    exact hHash.resolve_left hEq

@[simp] theorem isCommittedByHash_iff
    (st : Storage H B)
    (hash : H) :
    st.isCommittedByHash hash = true ↔
      hash ∈ st.committedBlocksByHash :=
  decide_eq_true_iff

/- A stored block is found under its own hash only. -/
theorem getHash_of_delivered
    {st : Storage H B}
    {hash : H}
    {block : B}
    (hLookup :
      st.deliveredBlockFromHash hash = some block) :
    BlockTrait.getHash block = hash :=
  st.hash_key hash block hLookup

theorem parent_of_delivered
    {st : Storage H B}
    {hash : H}
    {block : B}
    (hLookup :
      st.deliveredBlockFromHash hash = some block) :
    st.parent hash = some (BlockTrait.getPrev block) := by
  simp [parent, hLookup]

/-
  Storing a block keeps the blocks stored before, when its
  hash identifies it among them.
-/
theorem delivered_mono
    {st : Storage H B}
    {block stored : B}
    {hash : H}
    (hSame :
      BlockTrait.getHash stored =
          BlockTrait.getHash block →
        stored = block)
    (hLookup :
      st.deliveredBlockFromHash hash = some stored) :
    (st.addDeliveredBlock block).deliveredBlockFromHash
        hash = some stored := by
  rw [addDeliveredBlock_deliveredBlockFromHash]
  by_cases hHash : hash = BlockTrait.getHash block
  · rw [if_pos hHash]
    rw [hSame ((getHash_of_delivered hLookup).trans hHash)]
  · rw [if_neg hHash]
    exact hLookup

/- Storing a block with a new hash does, too. -/
theorem delivered_of_fresh
    {st : Storage H B}
    {block stored : B}
    {hash : H}
    (hFresh :
      st.isDeliveredByHash (BlockTrait.getHash block) =
        false)
    (hLookup :
      st.deliveredBlockFromHash hash = some stored) :
    (st.addDeliveredBlock block).deliveredBlockFromHash
        hash = some stored := by
  refine delivered_mono ?_ hLookup
  intro hSame
  rw [isDeliveredByHash, ← hSame,
    getHash_of_delivered hLookup, hLookup] at hFresh
  cases hFresh

theorem exists_delivered_of_parent
    {st : Storage H B}
    {hash above : H}
    (hParent : st.parent hash = some above) :
    ∃ block,
      st.deliveredBlockFromHash hash = some block ∧
        BlockTrait.getPrev block = above := by
  simpa [parent, Option.map_eq_some_iff] using hParent

end Storage

end LibApollo

------------------------------------------------------------
-- The Commit Walk
------------------------------------------------------------

namespace LibApollo

namespace Storage

variable {H B : Type} [DecidableEq H] [BlockTrait B H]

/-
  Commit blocks from `hash` along parents up to the first
  committed one, returning them in walk order; `none` is the
  failed `unwrap` on a block that is not delivered.  Every
  iteration commits a delivered block that was not
  committed, so the number of delivered blocks bounds the
  loop and `walkFuel` is never used up.
-/
def commitWalkFuel :
    Nat → Storage H B → H →
      Option (Storage H B × List B)
| 0, st, _ => some (st, [])
| fuel + 1, st, hash =>
    if st.isCommittedByHash hash then
      some (st, [])
    else
      match st.deliveredBlockFromHash hash with
      | none => none
      | some block =>
          match commitWalkFuel fuel
              (st.addCommittedBlock block)
              (BlockTrait.getPrev block) with
          | none => none
          | some (final, blocks) =>
              some (final, block :: blocks)

def walkFuel (st : Storage H B) : Nat :=
  st.allDeliveredBlocksByHash.keys.card + 1

def commitWalk
    (st : Storage H B)
    (hash : H) : Option (Storage H B × List B) :=
  commitWalkFuel st.walkFuel st hash

/- Delivered blocks that are not committed. -/
def openBlocks (st : Storage H B) : Finset H :=
  st.allDeliveredBlocksByHash.keys \
    st.committedBlocksByHash

theorem openBlocks_card_lt_walkFuel
    (st : Storage H B) :
    st.openBlocks.card < st.walkFuel := by
  unfold openBlocks walkFuel
  have hCard := Finset.card_le_card
    (Finset.sdiff_subset
      (s := st.allDeliveredBlocksByHash.keys)
      (t := st.committedBlocksByHash))
  omega

/- Committing an open block closes it. -/
theorem openBlocks_card_addCommittedBlock
    {st : Storage H B}
    {hash : H}
    {block : B}
    (hLookup :
      st.deliveredBlockFromHash hash = some block)
    (hOpen : hash ∉ st.committedBlocksByHash) :
    (st.addCommittedBlock block).openBlocks.card <
      st.openBlocks.card := by
  apply Finset.card_lt_card
  have hHash := getHash_of_delivered hLookup
  constructor
  · intro other hOther
    simp only [openBlocks, Finset.mem_sdiff,
      addCommittedBlock_committedBlocksByHash,
      Finset.mem_insert, not_or] at hOther ⊢
    exact ⟨hOther.1, hOther.2.2⟩
  · intro hSubset
    have hMem : hash ∈ st.openBlocks := by
      simp only [openBlocks, Finset.mem_sdiff,
        Finmap.mem_keys]
      exact ⟨Finmap.mem_of_lookup_eq_some hLookup, hOpen⟩
    have hStill := hSubset hMem
    simp only [openBlocks, Finset.mem_sdiff,
      addCommittedBlock_committedBlocksByHash,
      Finset.mem_insert, not_or, hHash] at hStill
    exact hStill.2.1 trivial

end Storage

end LibApollo

------------------------------------------------------------
-- The Loop of a Walk
------------------------------------------------------------

namespace LibApollo

namespace Storage

variable {H B : Type} [DecidableEq H] [BlockTrait B H]

/- The loop ends, after it has committed these blocks. -/
inductive Walks :
    Storage H B → H → Storage H B → List B → Prop where
| stop {st : Storage H B} {hash : H} :
    hash ∈ st.committedBlocksByHash →
      Walks st hash st []
| next {st final : Storage H B} {hash : H} {block : B}
    {blocks : List B} :
    hash ∉ st.committedBlocksByHash →
      st.deliveredBlockFromHash hash = some block →
      Walks (st.addCommittedBlock block)
        (BlockTrait.getPrev block) final blocks →
      Walks st hash final (block :: blocks)

/- The loop gets to a block that is not delivered. -/
inductive Misses : Storage H B → H → Prop where
| here {st : Storage H B} {hash : H} :
    hash ∉ st.committedBlocksByHash →
      st.deliveredBlockFromHash hash = none →
      Misses st hash
| next {st : Storage H B} {hash : H} {block : B} :
    hash ∉ st.committedBlocksByHash →
      st.deliveredBlockFromHash hash = some block →
      Misses (st.addCommittedBlock block)
        (BlockTrait.getPrev block) →
      Misses st hash

/- With fuel for all open blocks the loop is not cut off. -/
theorem commitWalkFuel_eq
    {fuel : Nat}
    {st : Storage H B}
    {hash : H}
    (hFuel : st.openBlocks.card < fuel) :
    (∃ final blocks,
      commitWalkFuel fuel st hash = some (final, blocks) ∧
        Walks st hash final blocks) ∨
      (commitWalkFuel fuel st hash = none ∧
        Misses st hash) := by
  induction fuel generalizing st hash with
  | zero => omega
  | succ fuel ih =>
      unfold commitWalkFuel
      by_cases hCommitted :
          hash ∈ st.committedBlocksByHash
      · rw [if_pos (by simpa using hCommitted)]
        exact Or.inl ⟨st, [], rfl, .stop hCommitted⟩
      · rw [if_neg (by simpa using hCommitted)]
        cases hLookup : st.deliveredBlockFromHash hash with
        | none =>
            exact Or.inr ⟨rfl, .here hCommitted hLookup⟩
        | some block =>
            have hSmaller :=
              openBlocks_card_addCommittedBlock hLookup
                hCommitted
            have hRest :
                (st.addCommittedBlock
                  block).openBlocks.card < fuel := by
              omega
            dsimp only
            rcases ih hRest with
              ⟨final, blocks, hEq, hWalks⟩ | ⟨hEq, hMisses⟩
            · rw [hEq]
              exact Or.inl ⟨final, block :: blocks, rfl,
                .next hCommitted hLookup hWalks⟩
            · rw [hEq]
              exact Or.inr
                ⟨rfl, .next hCommitted hLookup hMisses⟩

/- The loop ends, or it meets a missing block. -/
theorem commitWalk_eq
    (st : Storage H B)
    (hash : H) :
    (∃ final blocks,
      st.commitWalk hash = some (final, blocks) ∧
        Walks st hash final blocks) ∨
      (st.commitWalk hash = none ∧ Misses st hash) :=
  commitWalkFuel_eq st.openBlocks_card_lt_walkFuel

/- A walk that succeeds is a loop that ends. -/
theorem commitWalk_eq_some
    {st final : Storage H B}
    {hash : H}
    {blocks : List B}
    (hWalk : st.commitWalk hash = some (final, blocks)) :
    Walks st hash final blocks := by
  rcases commitWalk_eq st hash with
    ⟨final', blocks', hEq, hWalks⟩ | ⟨hEq, _⟩
  · cases hEq.symm.trans hWalk
    exact hWalks
  · cases hEq.symm.trans hWalk

/- A walk that fails has met a missing block. -/
theorem commitWalk_eq_none
    {st : Storage H B}
    {hash : H}
    (hWalk : st.commitWalk hash = none) :
    Misses st hash := by
  rcases commitWalk_eq st hash with
    ⟨final', blocks', hEq, _⟩ | ⟨_, hMisses⟩
  · cases hEq.symm.trans hWalk
  · exact hMisses

end Storage

end LibApollo

------------------------------------------------------------
-- Commit Walk Specification
------------------------------------------------------------

namespace LibApollo

namespace Storage

open Ancestry

variable {H B : Type} [DecidableEq H] [BlockTrait B H]

/- Every committed block is delivered with its parent. -/
def CommittedClosed (st : Storage H B) : Prop :=
  ∀ hash ∈ st.committedBlocksByHash,
    ∃ above, st.parent hash = some above ∧
      above ∈ st.committedBlocksByHash

/- With a block its delivered ancestors are committed. -/
theorem CommittedClosed.ancestor
    {st : Storage H B}
    {hash other : H}
    (hClosed : st.CommittedClosed)
    (hAncestor : Ancestor st.parent other hash)
    (hMem : hash ∈ st.committedBlocksByHash) :
    other ∈ st.committedBlocksByHash := by
  induction hAncestor with
  | refl => exact hMem
  | tail _ hEdge ih =>
      rcases hClosed _ ih with ⟨above, hParent, hAbove⟩
      have hSame := Option.some.inj (hParent.symm.trans hEdge)
      rwa [hSame] at hAbove

/- The effect of a successful walk from `hash`. -/
structure WalkSpec
    (st : Storage H B)
    (hash : H)
    (final : Storage H B) : Prop where
  byHash :
    final.allDeliveredBlocksByHash =
      st.allDeliveredBlocksByHash
  byHt :
    final.allDeliveredBlocksByHt =
      st.allDeliveredBlocksByHt
  subset :
    st.committedBlocksByHash ⊆ final.committedBlocksByHash
  start_mem : hash ∈ final.committedBlocksByHash
  mem :
    ∀ other ∈ final.committedBlocksByHash,
      other ∈ st.committedBlocksByHash ∨
        Ancestor st.parent other hash
  closed :
    ∀ other ∈ final.committedBlocksByHash,
      other ∈ st.committedBlocksByHash ∨
        ∃ above, st.parent other = some above ∧
          above ∈ final.committedBlocksByHash

/- The walk stops at once at a committed block. -/
theorem walkSpec_committed
    {st : Storage H B}
    {hash : H}
    (hCommitted : hash ∈ st.committedBlocksByHash) :
    WalkSpec st hash st where
  byHash := rfl
  byHt := rfl
  subset := Finset.Subset.refl _
  start_mem := hCommitted
  mem := fun _ hOther => Or.inl hOther
  closed := fun _ hOther => Or.inl hOther

/- One iteration followed by the rest of the walk. -/
theorem walkSpec_step
    {st final : Storage H B}
    {hash : H}
    {block : B}
    (hLookup :
      st.deliveredBlockFromHash hash = some block)
    (hRest :
      WalkSpec (st.addCommittedBlock block)
        (BlockTrait.getPrev block) final) :
    WalkSpec st hash final := by
  have hHash := getHash_of_delivered hLookup
  have hParent := parent_of_delivered hLookup
  refine
    { byHash := hRest.byHash
      byHt := hRest.byHt
      subset := ?_
      start_mem := ?_
      mem := ?_
      closed := ?_ }
  · intro other hOther
    exact hRest.subset
      (Finset.mem_insert_of_mem hOther)
  · apply hRest.subset
    rw [addCommittedBlock_committedBlocksByHash, hHash]
    exact Finset.mem_insert_self _ _
  · intro other hOther
    rcases hRest.mem other hOther with hOld | hAbove
    · rw [addCommittedBlock_committedBlocksByHash, hHash]
        at hOld
      rcases Finset.mem_insert.mp hOld with rfl | hOld
      · exact Or.inr Ancestor.refl
      · exact Or.inl hOld
    · exact Or.inr (Ancestor.step hParent hAbove)
  · intro other hOther
    rcases hRest.closed other hOther with hOld | hAbove
    · rw [addCommittedBlock_committedBlocksByHash, hHash]
        at hOld
      rcases Finset.mem_insert.mp hOld with rfl | hOld
      · exact Or.inr ⟨_, hParent, hRest.start_mem⟩
      · exact Or.inl hOld
    · exact Or.inr hAbove

/- The effect of a loop that ends. -/
theorem Walks.spec
    {st final : Storage H B}
    {hash : H}
    {blocks : List B}
    (hWalks : Walks st hash final blocks) :
    WalkSpec st hash final := by
  induction hWalks with
  | stop hCommitted => exact walkSpec_committed hCommitted
  | next _ hLookup _ ih => exact walkSpec_step hLookup ih

/- What a successful commit walk did. -/
theorem commitWalk_spec
    {st final : Storage H B}
    {hash : H}
    {blocks : List B}
    (hWalk : st.commitWalk hash = some (final, blocks)) :
    WalkSpec st hash final :=
  (commitWalk_eq_some hWalk).spec

/-
  The walk succeeds from any hash of a set that is closed
  under the parents of the delivered blocks.
-/
theorem commitWalk_isSome
    {st : Storage H B}
    {hash : H}
    (Good : H → Prop)
    (hGood : Good hash)
    (hClosed :
      ∀ other, Good other →
        ∃ above, st.parent other = some above ∧
          Good above) :
    (st.commitWalk hash).isSome := by
  cases hWalk : st.commitWalk hash with
  | some result => rfl
  | none =>
      exfalso
      have hMisses := commitWalk_eq_none hWalk
      -- the loop stays in the set, where nothing is missing
      clear * - hMisses hGood hClosed
      induction hMisses with
      | here _ hNone =>
          rcases hClosed _ hGood with ⟨above, hParent, _⟩
          rw [parent, hNone] at hParent
          cases hParent
      | next _ hLookup _ ih =>
          rcases hClosed _ hGood with
            ⟨above, hParent, hAbove⟩
          cases hParent.symm.trans
            (parent_of_delivered hLookup)
          exact ih hAbove hClosed

/- When every delivered block has a delivered parent. -/
theorem commitWalk_isSome_of_closed
    {st : Storage H B}
    {hash : H}
    (hClosed :
      ∀ other block,
        st.deliveredBlockFromHash other = some block →
          st.isDeliveredByHash (BlockTrait.getPrev block) =
            true)
    (hDelivered : st.isDeliveredByHash hash = true) :
    (st.commitWalk hash).isSome := by
  apply commitWalk_isSome
    (fun other => st.isDeliveredByHash other = true)
    hDelivered
  intro other hOther
  rcases (isDeliveredByHash_iff st other).mp hOther with
    ⟨block, hLookup⟩
  exact ⟨_, parent_of_delivered hLookup,
    hClosed other block hLookup⟩

namespace WalkSpec

variable {st final : Storage H B} {hash : H}

theorem deliveredBlockFromHash_eq
    (hSpec : WalkSpec st hash final)
    (other : H) :
    final.deliveredBlockFromHash other =
      st.deliveredBlockFromHash other := by
  simp only [deliveredBlockFromHash, hSpec.byHash]

theorem parent_eq
    (hSpec : WalkSpec st hash final) :
    final.parent = st.parent := by
  funext other
  simp only [parent, hSpec.deliveredBlockFromHash_eq]

/- A walk keeps the committed set closed under parents. -/
theorem committedClosed
    (hSpec : WalkSpec st hash final)
    (hClosed : st.CommittedClosed) :
    final.CommittedClosed := by
  intro other hOther
  rw [hSpec.parent_eq]
  rcases hSpec.closed other hOther with hOld | hNew
  · rcases hClosed other hOld with
      ⟨above, hParent, hAbove⟩
    exact ⟨above, hParent, hSpec.subset hAbove⟩
  · exact hNew

end WalkSpec

end Storage

end LibApollo
