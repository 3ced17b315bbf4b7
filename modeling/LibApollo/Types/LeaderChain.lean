import LibApollo.Base.Ancestry
import LibApollo.Types.Block

/-
  The chain of blocks one leader builds above genesis: one
  block for each height, each on the block below.

  Key definitions include:
    * `LeaderChain`
    * `LeaderChain.blocks`
    * `LeaderChain.OnChain`

  Key theorems include:
    * `LeaderChain.extend`
    * `LeaderChain.eq_of_hash_eq`
    * `LeaderChain.eq_of_height_eq`
    * `LeaderChain.ancestor_iff`
-/

------------------------------------------------------------
-- Chains of One Leader
------------------------------------------------------------

namespace LibApollo

variable {H : Type} [Crypto H]

/- The blocks `chain 1` to `chain top` of a leader. -/
structure LeaderChain
    (leader : Replica)
    (chain : Nat → Block H)
    (top : Nat) : Prop where
  genesis : chain 0 = Block.genesis
  wellHashed :
    ∀ k, k < top → (chain (k + 1)).WellHashed
  prev :
    ∀ k, k < top →
      (chain (k + 1)).header.prev = (chain k).hash
  height :
    ∀ k, k < top → (chain (k + 1)).header.height = k + 1
  author :
    ∀ k, k < top → (chain (k + 1)).header.author = leader

namespace LeaderChain

variable {leader : Replica}
variable {chain : Nat → Block H}
variable {top : Nat}

/- No block yet. -/
theorem new
    (leader : Replica) :
    LeaderChain leader
      (fun _ => (Block.genesis : Block H)) 0 where
  genesis := rfl
  wellHashed := fun _ hBound => absurd hBound (by omega)
  prev := fun _ hBound => absurd hBound (by omega)
  height := fun _ hBound => absurd hBound (by omega)
  author := fun _ hBound => absurd hBound (by omega)

theorem height_eq
    (hChain : LeaderChain leader chain top)
    {k : Nat}
    (hBound : k ≤ top) :
    (chain k).header.height = k := by
  cases k with
  | zero =>
      rw [hChain.genesis]
      rfl
  | succ k => exact hChain.height k hBound

theorem proper
    (hChain : LeaderChain leader chain top)
    {k : Nat}
    (hBound : k ≤ top) :
    (chain k).Proper := by
  cases k with
  | zero => exact Or.inl hChain.genesis
  | succ k => exact Or.inr (hChain.wellHashed k hBound)

theorem author_eq
    (hChain : LeaderChain leader chain top)
    {k : Nat}
    (hPos : 0 < k)
    (hBound : k ≤ top) :
    (chain k).header.author = leader := by
  cases k with
  | zero => omega
  | succ k => exact hChain.author k hBound

/- A proper block with the hash of a chain block is it. -/
theorem eq_of_hash_eq
    (hFree : CollisionFree H)
    (hChain : LeaderChain leader chain top)
    {k : Nat}
    {block : Block H}
    (hBound : k ≤ top)
    (hProper : block.Proper)
    (hHash : block.hash = (chain k).hash) :
    block = chain k :=
  hProper.eq_of_hash_eq hFree (hChain.proper hBound) hHash

/- Different heights have different hashes. -/
theorem hash_injective
    (hFree : CollisionFree H)
    (hChain : LeaderChain leader chain top)
    {j k : Nat}
    (hLeft : j ≤ top)
    (hRight : k ≤ top)
    (hHash : (chain j).hash = (chain k).hash) :
    j = k := by
  have hSame :=
    hChain.eq_of_hash_eq hFree hRight (hChain.proper hLeft)
      hHash
  rw [← hChain.height_eq hLeft, ← hChain.height_eq hRight,
    hSame]

/- The leader adds a block on top. -/
theorem extend
    (hChain : LeaderChain leader chain top)
    {block : Block H}
    (hWell : block.WellHashed)
    (hPrev : block.header.prev = (chain top).hash)
    (hHeight : block.header.height = top + 1)
    (hAuthor : block.header.author = leader) :
    LeaderChain leader
      (Function.update chain (top + 1) block)
      (top + 1) := by
  have hOld :
      ∀ k, k ≤ top →
        Function.update chain (top + 1) block k =
          chain k := by
    intro k hBound
    exact Function.update_of_ne (by omega) _ _
  have hNew :
      Function.update chain (top + 1) block (top + 1) =
        block :=
    Function.update_self _ _ _
  constructor
  · rw [hOld 0 (Nat.zero_le top)]
    exact hChain.genesis
  all_goals
    intro k hBound
    rcases Nat.lt_or_eq_of_le (Nat.le_of_lt_succ hBound)
      with hBelow | rfl
  · rw [hOld (k + 1) hBelow]
    exact hChain.wellHashed k hBelow
  · rw [hNew]
    exact hWell
  · rw [hOld (k + 1) hBelow, hOld k hBelow.le]
    exact hChain.prev k hBelow
  · rw [hNew, hOld k (Nat.le_refl k)]
    exact hPrev
  · rw [hOld (k + 1) hBelow]
    exact hChain.height k hBelow
  · rw [hNew]
    exact hHeight
  · rw [hOld (k + 1) hBelow]
    exact hChain.author k hBelow
  · rw [hNew]
    exact hAuthor

/- A hash keeps its height when the chain goes on. -/
theorem level_eq
    {chain' : Nat → Block H}
    {top' j k : Nat}
    {hash : H}
    (hChain' : LeaderChain leader chain' top')
    (hFree : CollisionFree H)
    (hTop : top ≤ top')
    (hSame : ∀ k, k ≤ top → chain' k = chain k)
    (hLow : j ≤ top)
    (hHash : hash = (chain j).hash)
    (hHigh : k ≤ top')
    (hHash' : hash = (chain' k).hash) :
    k = j := by
  rw [← hSame j hLow] at hHash
  exact hChain'.hash_injective hFree hHigh
    (hLow.trans hTop) (hHash'.symm.trans hHash)

/- The blocks above genesis, from the lowest on. -/
def blocks
    (chain : Nat → Block H)
    (top : Nat) : List (Block H) :=
  (List.range top).map (fun k => chain (k + 1))

omit [Crypto H] in
theorem mem_blocks
    {block : Block H} :
    block ∈ blocks chain top ↔
      ∃ k, k < top ∧ block = chain (k + 1) := by
  simp [blocks, eq_comm]

omit [Crypto H] in
theorem blocks_update
    (chain : Nat → Block H)
    (top : Nat)
    (block : Block H) :
    blocks (Function.update chain (top + 1) block)
        (top + 1) =
      blocks chain top ++ [block] := by
  unfold blocks
  rw [List.range_succ, List.map_append, List.map_singleton,
    Function.update_self]
  congr 1
  apply List.map_congr_left
  intro k hBelow
  apply Function.update_of_ne
  have hBound := List.mem_range.mp hBelow
  omega

/- Genesis and the blocks of the chain differ in height. -/
theorem eq_of_height_eq
    {left right : Block H}
    (hChain : LeaderChain leader chain top)
    (hLeft :
      left = Block.genesis ∨ left ∈ blocks chain top)
    (hRight :
      right = Block.genesis ∨ right ∈ blocks chain top)
    (hHeight : left.header.height = right.header.height) :
    left = right := by
  have hLevel :
      ∀ block : Block H,
        block = Block.genesis ∨ block ∈ blocks chain top →
          block = chain block.header.height := by
    intro block hBlock
    rcases hBlock with rfl | hMem
    · exact hChain.genesis.symm
    · rcases mem_blocks.mp hMem with ⟨k, hBound, rfl⟩
      rw [hChain.height k hBound]
  rw [hLevel left hLeft, hLevel right hRight, hHeight]

end LeaderChain

end LibApollo

------------------------------------------------------------
-- Blocks of the Chain
------------------------------------------------------------

namespace LibApollo

namespace LeaderChain

open Ancestry

variable {H : Type} [Crypto H]
variable {leader : Replica}
variable {chain : Nat → Block H}
variable {top : Nat}

/-
  A proper block that is on the chain when its height is
  positive.  A leader whose height wraps builds blocks of
  height 0, which nothing follows.
-/
def OnChain
    (chain : Nat → Block H)
    (top : Nat)
    (block : Block H) : Prop :=
  block.Proper ∧
    (0 < block.header.height →
      block.header.height ≤ top ∧
        block = chain block.header.height)

theorem OnChain.genesis :
    OnChain chain top Block.genesis :=
  ⟨Or.inl rfl, fun hPos => absurd hPos (Nat.lt_irrefl 0)⟩

/- The chain of a leader that goes on. -/
theorem OnChain.mono
    {chain' : Nat → Block H}
    {top' : Nat}
    {block : Block H}
    (hTop : top ≤ top')
    (hSame : ∀ k, k ≤ top → chain' k = chain k)
    (hBlock : OnChain chain top block) :
    OnChain chain' top' block := by
  refine ⟨hBlock.1, ?_⟩
  intro hPos
  rcases hBlock.2 hPos with ⟨hBound, hEq⟩
  refine ⟨hBound.trans hTop, ?_⟩
  rw [hSame _ hBound]
  exact hEq

/-
  Where the parents of the chain blocks up to `k` are known,
  the ancestors of the `k`-th block are the blocks below.
-/
theorem ancestor_iff
    {parent : H → Option H}
    {a : H}
    {k : Nat}
    (hChain : LeaderChain leader chain top)
    (hRoot :
      parent Crypto.emptyHash = some Crypto.emptyHash)
    (hParent :
      ∀ s, s < k →
        parent (chain (s + 1)).hash =
          some (chain s).hash) :
    Ancestor parent a (chain k).hash ↔
      ∃ s, s ≤ k ∧ a = (chain s).hash := by
  have hStart :
      parent (chain 0).hash = some (chain 0).hash := by
    rw [hChain.genesis]
    exact hRoot
  exact Ancestor.chain_iff (fun s => (chain s).hash) hStart
    hParent

end LeaderChain

end LibApollo
