import LibApollo.Mempool.Notices

/-
  Committing as Apollo and Artemis have it in common.

  A committer is what bears on the commits of a node: the
  block index, the stores and channels, the head of every
  accepted round, and the blocks and batches it may still
  store or propose.  Accepting a round commits the head of
  `numFaults` rounds ago.  Both nodes make the moves of a
  committer, and what every move keeps holds in both.

  Key definitions include:
    * `Content`
    * `Committer`, `Committer.Move`
    * `Committer.Sound`, `Committer.Stocked`
    * `Committer.Intact`
    * `CommitsClosure`

  Key theorems include:
    * `Committer.Sound.move`, `Committer.Sound.closure`
    * `Committer.Stocked.move`
    * `Committer.Stocked.commitsTold`
-/

------------------------------------------------------------
-- Content of Stored Blocks
------------------------------------------------------------

namespace LibApollo

/- The block that is in what an index stores. -/
structure Content (H B : Type) [BlockTrait B H] where
  block : B → Block H
  getHash_eq :
    ∀ stored, BlockTrait.getHash stored = (block stored).hash
  getPrev_eq :
    ∀ stored,
      BlockTrait.getPrev stored =
        (block stored).header.prev

variable {H B : Type} [DecidableEq H] [Crypto H]
variable [BlockTrait B H]
variable {content : Content H B}
variable {st : Storage H B}

omit [DecidableEq H] [Crypto H] in
def Content.batchHash
    (content : Content H B)
    (stored : B) : H :=
  (content.block stored).body.batchHash

omit [DecidableEq H] in
/- Proper blocks with one hash have the same content. -/
theorem Content.eq_of_getHash
    {left right : B}
    (hFree : CollisionFree H)
    (hLeft : (content.block left).Proper)
    (hRight : (content.block right).Proper)
    (hHash :
      BlockTrait.getHash left = BlockTrait.getHash right) :
    content.block left = content.block right := by
  rw [content.getHash_eq, content.getHash_eq] at hHash
  exact hLeft.eq_of_hash_eq hFree hRight hHash

omit [DecidableEq H] in
/- Under the reserved hash there is genesis only. -/
theorem Content.eq_genesis
    {stored : B}
    (hFree : CollisionFree H)
    (hProper : (content.block stored).Proper)
    (hHash : BlockTrait.getHash stored = Crypto.emptyHash) :
    content.block stored = Block.genesis := by
  rw [content.getHash_eq] at hHash
  exact hProper.eq_of_hash_eq hFree (Or.inl rfl) hHash

/- An index of proper blocks has genesis as its root. -/
theorem Storage.rooted_of_proper
    {depth : H → Nat}
    (hFree : CollisionFree H)
    (hDepth : HashDepth depth)
    (hProper :
      ∀ hash stored,
        st.deliveredBlockFromHash hash = some stored →
          (content.block stored).Proper) :
    st.Rooted Crypto.emptyHash depth := by
  constructor
  · intro above hParent
    rcases Storage.exists_delivered_of_parent hParent with
      ⟨stored, hLookup, rfl⟩
    rw [content.getPrev_eq,
      Content.eq_genesis hFree (hProper _ _ hLookup)
        (Storage.getHash_of_delivered hLookup)]
    rfl
  · intro hash above hParent
    rcases Storage.exists_delivered_of_parent hParent with
      ⟨stored, hLookup, rfl⟩
    have hHash := Storage.getHash_of_delivered hLookup
    rw [content.getHash_eq] at hHash
    rcases hProper _ _ hLookup with hGenesis | hWell
    · left
      rw [← hHash, hGenesis]
      rfl
    · right
      rw [← hHash, hWell, content.getPrev_eq]
      exact hDepth _ _

end LibApollo

------------------------------------------------------------
-- Committers and Their Moves
------------------------------------------------------------

namespace LibApollo

/-
  `queued` blocks came from the network, `parked` ones wait
  for their parent, and `pending` are the hashes of batches
  to propose.
-/
structure Committer
    (H B : Type) [DecidableEq H] [BlockTrait B H] where
  storage : Storage H B
  notices : Notices H
  heads : Nat → Option H
  round : Nat
  numFaults : Nat
  queued : B → Prop
  parked : B → Prop
  pending : H → Prop

namespace Committer

variable {H B : Type} [DecidableEq H] [Crypto H]
variable [BlockTrait B H]

/- The rounds that are committed are those up to this one. -/
def last (c : Committer H B) : Nat :=
  c.round - 1 - c.numFaults

omit [Crypto H] in
/- A batch with this hash can be read. -/
def Has
    (c : Committer H B)
    (hash : H) : Prop :=
  ∃ batch, c.notices.batches.Holds hash batch

/- The ways a block comes to be stored. -/
inductive Storable
    (content : Content H B)
    (c : Committer H B)
    (block : B) : Prop where
| queued :
    c.queued block →
      c.Has (content.batchHash block) →
      Storable content c block
| parked : c.parked block → Storable content c block
| own :
    (content.block block).WellHashed →
      c.pending (content.batchHash block) →
      Storable content c block
| stored :
    c.storage.deliveredBlockFromHash
        (BlockTrait.getHash block) = some block →
      Storable content c block

omit [Crypto H] in
/- The commit when a round is accepted with these heads. -/
def CommitDue
    (content : Content H B)
    (c : Committer H B)
    (heads : Nat → Option H)
    (storage : Storage H B)
    (notices : Notices H) : Prop :=
  (c.round ≤ c.numFaults ∧
    storage = c.storage ∧ notices = c.notices) ∨
    (c.numFaults < c.round ∧
      ∃ hash blocks,
        heads (c.round - c.numFaults) = some hash ∧
          c.storage.Walks hash storage blocks ∧
          notices =
            c.notices.tellCommits content.batchHash
              blocks.reverse)

inductive Move
    (content : Content H B)
    (c : Committer H B) : Committer H B → Prop where
| adjust
    (queued parked : B → Prop) (pending : H → Prop) :
    (∀ block, queued block →
      c.queued block ∨ (content.block block).WellHashed) →
      (∀ block, parked block → c.parked block) →
      (∀ hash, pending hash → c.pending hash) →
      Move content c
        { c with
          queued := queued
          parked := parked
          pending := pending }
| persist (batch : Batch) :
    Move content c
      { c with
        notices := { c.notices with
          batches :=
            c.notices.batches.persistBatch batch.hash
              batch } }
| read (hash : H) :
    Move content c
      { c with
        notices := { c.notices with
          batches := (c.notices.batches.readBatch hash).2 } }
| tell (msg : BatcherConsensusMsg Transaction) :
    committedBatches [msg] = [] →
      Move content c
        { c with
          notices := { c.notices with
            toBatcher := c.notices.toBatcher ++ [msg] } }
| park (block : B) :
    c.queued block →
      c.Has (content.batchHash block) →
      Move content c
        { c with
          parked := fun other =>
            other = block ∨ c.parked other }
| deliver (block : B) :
    Storable content c block →
      Move content c
        { c with
          storage := c.storage.addDeliveredBlock block }
| accept (hash : H) (heads : Nat → Option H)
    (storage : Storage H B) (notices : Notices H) :
    (∀ round,
      heads round =
        if round = c.round then some hash
        else c.heads round) →
      CommitDue content c heads storage notices →
      Move content c
        { c with
          storage := storage
          notices := notices
          heads := heads
          round := c.round + 1 }

/- Any number of moves. -/
abbrev Moves
    (content : Content H B) :
    Committer H B → Committer H B → Prop :=
  Relation.ReflTransGen (Move content)

omit [Crypto H] in
/- A batch with this hash is taken in to be proposed. -/
def TakesBatch
    (hash : H)
    (c c' : Committer H B) : Prop :=
  ∃ pending : H → Prop,
    (∀ other, pending other →
      c.pending other ∨ other = hash) ∧
      c' = { c with pending := pending }

end Committer

end LibApollo

------------------------------------------------------------
-- Moves Keep the Committed Set
------------------------------------------------------------

namespace LibApollo

namespace Committer

variable {H B : Type} [DecidableEq H] [Crypto H]
variable [BlockTrait B H]
variable {content : Content H B}
variable {c c' : Committer H B}

/-
  All blocks are what their hashes say, and the committed
  set is closed up to the last round.
-/
structure Sound
    (content : Content H B)
    (c : Committer H B) : Prop where
  delivered :
    ∀ hash block,
      c.storage.deliveredBlockFromHash hash = some block →
        (content.block block).Proper
  queued :
    ∀ block, c.queued block →
      (content.block block).WellHashed
  parked :
    ∀ block, c.parked block →
      (content.block block).WellHashed
  started : 1 ≤ c.round
  filled :
    ∀ round, 1 ≤ round → round < c.round →
      ∃ head, c.heads round = some head
  commits : c.storage.CommitsUpTo c.heads c.last

theorem Sound.storable
    {block : B}
    (hSound : c.Sound content)
    (hStorable : Storable content c block) :
    (content.block block).WellHashed ∨
      c.storage.deliveredBlockFromHash
        (BlockTrait.getHash block) = some block := by
  cases hStorable with
  | queued hQueued _ =>
      exact Or.inl (hSound.queued block hQueued)
  | parked hParked =>
      exact Or.inl (hSound.parked block hParked)
  | own hWell _ => exact Or.inl hWell
  | stored hStored => exact Or.inr hStored

/- A block that is stored is not in conflict with others. -/
theorem Sound.same_content
    {block stored : B}
    (hFree : CollisionFree H)
    (hSound : c.Sound content)
    (hStorable : Storable content c block)
    (hStored :
      c.storage.deliveredBlockFromHash
        (BlockTrait.getHash block) = some stored) :
    content.block stored = content.block block := by
  have hHash := Storage.getHash_of_delivered hStored
  rcases hSound.storable hStorable with hWell | hSame
  · exact Content.eq_of_getHash hFree
      (hSound.delivered _ _ hStored) (Or.inr hWell) hHash
  · cases hStored.symm.trans hSame
    rfl

theorem Sound.parent_mono
    {block : B}
    (hFree : CollisionFree H)
    (hSound : c.Sound content)
    (hStorable : Storable content c block)
    (child above : H)
    (hParent : c.storage.parent child = some above) :
    (c.storage.addDeliveredBlock block).parent child =
      some above := by
  rcases Storage.exists_delivered_of_parent hParent with
    ⟨stored, hStored, rfl⟩
  rw [Storage.parent,
    Storage.addDeliveredBlock_deliveredBlockFromHash]
  split
  · rename_i hHash
    rw [hHash] at hStored
    rw [Option.map_some, content.getPrev_eq,
      content.getPrev_eq,
      hSound.same_content hFree hStorable hStored]
  · rw [hStored]
    rfl

theorem Sound.deliver
    {block : B}
    (hFree : CollisionFree H)
    (hSound : c.Sound content)
    (hStorable : Storable content c block) :
    Sound content
      { c with
        storage := c.storage.addDeliveredBlock block } := by
  refine { hSound with
    delivered := ?_
    commits := ?_ }
  · apply Storage.forall_addDeliveredBlock hSound.delivered
    rcases hSound.storable hStorable with hWell | hSame
    · exact Or.inr hWell
    · exact hSound.delivered _ _ hSame
  · exact hSound.commits.grow
      (hSound.parent_mono hFree hStorable) rfl

omit [Crypto H] in
theorem CommitDue.delivered_eq
    {heads : Nat → Option H}
    {storage : Storage H B}
    {notices : Notices H}
    (hOutcome : CommitDue content c heads storage notices)
    (hash : H) :
    storage.deliveredBlockFromHash hash =
      c.storage.deliveredBlockFromHash hash := by
  rcases hOutcome with
    ⟨_, rfl, _⟩ | ⟨_, _, _, _, hWalks, _⟩
  · rfl
  · exact hWalks.delivered_eq hash

/- One round more is accepted, and one more committed. -/
theorem Sound.accept
    {hash : H}
    {heads : Nat → Option H}
    {storage : Storage H B}
    {notices : Notices H}
    (hSound : c.Sound content)
    (hHeads :
      ∀ round,
        heads round =
          if round = c.round then some hash
          else c.heads round)
    (hOutcome : CommitDue content c heads storage notices) :
    Sound content
      { c with
        storage := storage
        notices := notices
        heads := heads
        round := c.round + 1 } := by
  have hStarted := hSound.started
  have hEarlier :
      c.storage.CommitsUpTo heads c.last := by
    apply hSound.commits.congr
    intro round hRound
    rw [hHeads, if_neg]
    unfold last at hRound
    omega
  refine { hSound with
    delivered := ?_
    started := Nat.le_add_left 1 c.round
    filled := ?_
    commits := ?_ }
  · intro other block hStored
    dsimp only at hStored
    rw [hOutcome.delivered_eq] at hStored
    exact hSound.delivered other block hStored
  · intro round hPos hRound
    dsimp only at hRound ⊢
    rw [hHeads]
    split
    · exact ⟨hash, rfl⟩
    · exact hSound.filled round hPos (by omega)
  · rcases hOutcome with
      ⟨hEarly, rfl, _⟩ |
        ⟨hDue, start, blocks, hStart, hWalks, _⟩
    · have hLast : c.round + 1 - 1 - c.numFaults = c.last := by
        unfold last
        omega
      rw [last, hLast]
      exact hEarlier
    · have hLast :
          c.round + 1 - 1 - c.numFaults = c.last + 1 := by
        unfold last
        omega
      have hNext : heads (c.last + 1) = some start := by
        rw [← hLast, Nat.add_sub_cancel]
        exact hStart
      rw [last, hLast]
      exact hEarlier.walk hNext hWalks.spec

theorem Sound.move
    (hFree : CollisionFree H)
    (hSound : c.Sound content)
    (hMove : Move content c c') :
    c'.Sound content := by
  cases hMove with
  | adjust queued parked pending hQueued hParked _ =>
      refine { hSound with
        queued := ?_
        parked := ?_ }
      · intro block hBlock
        rcases hQueued block hBlock with hOld | hWell
        · exact hSound.queued block hOld
        · exact hWell
      · intro block hBlock
        exact hSound.parked block (hParked block hBlock)
  | persist _ => exact { hSound with }
  | read _ => exact { hSound with }
  | tell _ _ => exact { hSound with }
  | park block hQueued _ =>
      refine { hSound with parked := ?_ }
      intro other hOther
      rcases hOther with rfl | hOld
      · exact hSound.queued _ hQueued
      · exact hSound.parked other hOld
  | deliver block hStorable =>
      exact hSound.deliver hFree hStorable
  | accept hash heads storage notices hHeads hOutcome =>
      exact hSound.accept hHeads hOutcome

theorem Sound.moves
    (hFree : CollisionFree H)
    (hSound : c.Sound content)
    (hMoves : Moves content c c') :
    c'.Sound content := by
  induction hMoves with
  | refl => exact hSound
  | tail _ hMove ih => exact ih.move hFree hMove

theorem Sound.takes
    {hash : H}
    (hSound : c.Sound content)
    (hTakes : TakesBatch hash c c') :
    c'.Sound content := by
  rcases hTakes with ⟨pending, _, rfl⟩
  exact { hSound with }

end Committer

end LibApollo

------------------------------------------------------------
-- Moves Keep Blocks and Batches Under Their Hashes
------------------------------------------------------------

namespace LibApollo

namespace Committer

variable {H B : Type} [DecidableEq H] [Crypto H]
variable [BlockTrait B H]
variable {content : Content H B}
variable {c c' : Committer H B}

/-
  Blocks and batches are what their hashes say.  Nothing is
  asked of the hash function.
-/
structure Intact
    (content : Content H B)
    (c : Committer H B) : Prop where
  delivered :
    ∀ hash block,
      c.storage.deliveredBlockFromHash hash = some block →
        (content.block block).Proper
  queued :
    ∀ block, c.queued block →
      (content.block block).WellHashed
  parked :
    ∀ block, c.parked block →
      (content.block block).WellHashed
  filed : c.notices.batches.Filed

theorem Intact.storable
    {block : B}
    (hIntact : c.Intact content)
    (hStorable : Storable content c block) :
    (content.block block).Proper := by
  cases hStorable with
  | queued hQueued _ =>
      exact Or.inr (hIntact.queued block hQueued)
  | parked hParked =>
      exact Or.inr (hIntact.parked block hParked)
  | own hWell _ => exact Or.inr hWell
  | stored hStored => exact hIntact.delivered _ _ hStored

omit [Crypto H] in
theorem CommitDue.holds_iff
    {heads : Nat → Option H}
    {storage : Storage H B}
    {notices : Notices H}
    (hOutcome : CommitDue content c heads storage notices)
    (hash : H)
    (batch : Batch) :
    notices.batches.Holds hash batch ↔
      c.notices.batches.Holds hash batch := by
  rcases hOutcome with
    ⟨_, _, rfl⟩ | ⟨_, _, blocks, _, _, rfl⟩
  · rfl
  · exact c.notices.tellCommits_holds content.batchHash
      blocks.reverse hash batch

theorem Intact.move
    (hIntact : c.Intact content)
    (hMove : Move content c c') :
    c'.Intact content := by
  cases hMove with
  | adjust queued parked pending hQueued hParked _ =>
      refine { hIntact with
        queued := ?_
        parked := ?_ }
      · intro block hBlock
        rcases hQueued block hBlock with hOld | hWell
        · exact hIntact.queued block hOld
        · exact hWell
      · intro block hBlock
        exact hIntact.parked block (hParked block hBlock)
  | persist batch =>
      exact { hIntact with
        filed := hIntact.filed.persist rfl }
  | read hash =>
      exact { hIntact with
        filed := hIntact.filed.read hash }
  | tell _ _ => exact { hIntact with }
  | park block hQueued _ =>
      refine { hIntact with parked := ?_ }
      intro other hOther
      rcases hOther with rfl | hOld
      · exact hIntact.queued _ hQueued
      · exact hIntact.parked other hOld
  | deliver block hStorable =>
      refine { hIntact with delivered := ?_ }
      exact Storage.forall_addDeliveredBlock
        hIntact.delivered (hIntact.storable hStorable)
  | accept hash heads storage notices _ hOutcome =>
      refine { hIntact with
        delivered := ?_
        filed := ?_ }
      · intro other block hStored
        dsimp only at hStored
        rw [hOutcome.delivered_eq] at hStored
        exact hIntact.delivered other block hStored
      · intro other batch hHeld
        exact hIntact.filed other batch
          ((hOutcome.holds_iff other batch).mp hHeld)

theorem Intact.moves
    (hIntact : c.Intact content)
    (hMoves : Moves content c c') :
    c'.Intact content := by
  induction hMoves with
  | refl => exact hIntact
  | tail _ hMove ih => exact ih.move hMove

theorem Intact.takes
    {hash : H}
    (hIntact : c.Intact content)
    (hTakes : TakesBatch hash c c') :
    c'.Intact content := by
  rcases hTakes with ⟨pending, _, rfl⟩
  exact { hIntact with }

/-
  No batch has the hash reserved for genesis, so that a
  block whose batch is there was built.
-/
theorem Intact.wellHashed
    {hash : H}
    {block : B}
    {batch : Batch}
    (hBatches :
      ∀ payload,
        Crypto.batchHash (H := H) payload ≠
          Crypto.emptyHash)
    (hIntact : c.Intact content)
    (hProper : (content.block block).Proper)
    (hHeld : c.notices.batches.Holds hash batch)
    (hHash : hash = content.batchHash block) :
    (content.block block).WellHashed ∧
      batch.hash = content.batchHash block := by
  have hFiled := hIntact.filed hash batch hHeld
  rw [hHash] at hFiled
  rcases hProper with hGenesis | hWell
  · rw [Content.batchHash, hGenesis] at hFiled
    exact absurd hFiled (hBatches batch.payload)
  · exact ⟨hWell, hFiled⟩

end Committer

end LibApollo

------------------------------------------------------------
-- The Closure of the Accepted Rounds
------------------------------------------------------------

namespace LibApollo

variable {H B : Type} [DecidableEq H] [Crypto H]
variable [BlockTrait B H]
variable {content : Content H B}

/-
  The committed blocks are the closure of the heads of the
  rounds up to the last one, and every walk ends.  With
  hashes that cannot go round in a circle the closure goes
  down to genesis.
-/
structure CommitsClosure
    (st : Storage H B)
    (heads : Nat → Option H)
    (last : Nat) : Prop where
  filled :
    ∀ round, 1 ≤ round → round ≤ last →
      ∃ head, heads round = some head
  mem :
    ∀ hash,
      hash ∈ st.committedBlocksByHash ↔
        ∃ round head,
          1 ≤ round ∧ round ≤ last ∧
            heads round = some head ∧
            Ancestry.Ancestor st.parent hash head
  closed :
    ∀ hash ∈ st.committedBlocksByHash,
      ∃ block,
        st.deliveredBlockFromHash hash = some block ∧
          BlockTrait.getPrev block ∈
            st.committedBlocksByHash
  genesis :
    ∀ depth : H → Nat, HashDepth depth →
      ∀ hash ∈ st.committedBlocksByHash,
        Crypto.emptyHash ∈ st.committedBlocksByHash
  empty : last = 0 → st.committedBlocksByHash = ∅
  walk :
    ∀ hash,
      (∃ final blocks,
        st.commitWalk hash = some (final, blocks) ∧
          st.Walks hash final blocks) ∨
        (st.commitWalk hash = none ∧ st.Misses hash)

theorem Committer.Sound.closure
    {c : Committer H B}
    (hFree : CollisionFree H)
    (hSound : c.Sound content) :
    CommitsClosure c.storage c.heads c.last where
  filled := by
    intro round hPos hLast
    apply hSound.filled round hPos
    unfold Committer.last at hLast
    omega
  mem := hSound.commits.mem
  closed := by
    intro hash hMem
    rcases hSound.commits.closed hash hMem with
      ⟨above, hParent, hAbove⟩
    rcases Storage.exists_delivered_of_parent hParent with
      ⟨block, hLookup, rfl⟩
    exact ⟨block, hLookup, hAbove⟩
  genesis := by
    intro depth hDepth hash hMem
    exact hSound.commits.closed.root_mem
      (Storage.rooted_of_proper hFree hDepth
        hSound.delivered) hMem
  empty := by
    intro hLast
    apply Finset.eq_empty_of_forall_notMem
    intro hash hMem
    rcases (hSound.commits.mem hash).mp hMem with
      ⟨round, head, hPos, hRound, _⟩
    omega
  walk := c.storage.commitWalk_eq

end LibApollo

------------------------------------------------------------
-- Moves Keep the Notices Complete
------------------------------------------------------------

namespace LibApollo

namespace Committer

variable {H B : Type} [DecidableEq H] [Crypto H]
variable [BlockTrait B H]
variable {content : Content H B}
variable {c c' : Committer H B}
variable {depth : H → Nat}

/-
  The commits are told, and there is a batch for everything
  that may be stored or proposed.
-/
structure Stocked
    (content : Content H B)
    (c : Committer H B) : Prop where
  told :
    ∃ log,
      Announced content.batchHash Crypto.emptyHash
        c.notices c.storage log
  parked :
    ∀ block, c.parked block →
      c.Has (content.batchHash block)
  pending : ∀ hash, c.pending hash → c.Has hash

theorem Sound.rooted
    (hFree : CollisionFree H)
    (hDepth : HashDepth depth)
    (hSound : c.Sound content) :
    c.storage.Rooted Crypto.emptyHash depth :=
  Storage.rooted_of_proper hFree hDepth hSound.delivered

/- A new block comes with a batch and is not the root. -/
theorem Stocked.storable
    {block : B}
    (hSound : c.Sound content)
    (hStocked : c.Stocked content)
    (hStorable : Storable content c block) :
    ((content.block block).WellHashed ∧
        c.Has (content.batchHash block)) ∨
      c.storage.deliveredBlockFromHash
        (BlockTrait.getHash block) = some block := by
  cases hStorable with
  | queued hQueued hHas =>
      exact Or.inl ⟨hSound.queued block hQueued, hHas⟩
  | parked hParked =>
      exact Or.inl ⟨hSound.parked block hParked,
        hStocked.parked block hParked⟩
  | own hWell hPending =>
      exact Or.inl ⟨hWell, hStocked.pending _ hPending⟩
  | stored hStored => exact Or.inr hStored

theorem Stocked.deliver
    {block : B}
    (hFree : CollisionFree H)
    (hSound : c.Sound content)
    (hStocked : c.Stocked content)
    (hStorable : Storable content c block) :
    Stocked content
      { c with
        storage := c.storage.addDeliveredBlock block } := by
  rcases hStocked.told with ⟨log, hTold⟩
  refine { hStocked with told := ⟨log, ?_⟩ }
  rcases hStocked.storable hSound hStorable with
    ⟨hWell, hHas⟩ | hStored
  · apply hTold.deliver _ hHas
    · intro stored hStored
      have hSame :=
        hSound.same_content hFree hStorable hStored
      constructor
      · rw [content.getPrev_eq, content.getPrev_eq, hSame]
      · rw [Content.batchHash, Content.batchHash, hSame]
    · rw [content.getHash_eq, hWell]
      exact hFree.ne_empty _ _
  · exact hTold.again hStored

/- Commits do not change which batches there are. -/
theorem Stocked.accept
    {heads : Nat → Option H}
    {storage : Storage H B}
    {notices : Notices H}
    (hRooted : c.storage.Rooted Crypto.emptyHash depth)
    (hStocked : c.Stocked content)
    (hOutcome : CommitDue content c heads storage notices) :
    Stocked content
      { c with
        storage := storage
        notices := notices
        heads := heads
        round := c.round + 1 } := by
  have hHas :
      ∀ hash, c.Has hash →
        ∃ batch, notices.batches.Holds hash batch := by
    intro hash hHas
    rcases hHas with ⟨batch, hHeld⟩
    exact ⟨batch, (hOutcome.holds_iff hash batch).mpr hHeld⟩
  refine
    { told := ?_
      parked := fun block hParked =>
        hHas _ (hStocked.parked block hParked)
      pending := fun hash hPending =>
        hHas hash (hStocked.pending hash hPending) }
  rcases hStocked.told with ⟨log, hTold⟩
  rcases hOutcome with
    ⟨_, rfl, rfl⟩ |
      ⟨_, start, blocks, _, hWalks, rfl⟩
  · exact ⟨log, hTold⟩
  · exact ⟨log ++ blocks.reverse,
      hTold.commit hRooted hWalks⟩

/- Changes of the stores that lose no batch. -/
theorem Stocked.swap
    {notices : Notices H}
    (hStocked : c.Stocked content)
    (hTold :
      ∀ log,
        Announced content.batchHash Crypto.emptyHash
            c.notices c.storage log →
          Announced content.batchHash Crypto.emptyHash
            notices c.storage log)
    (hHas :
      ∀ hash, c.Has hash →
        ∃ batch, notices.batches.Holds hash batch) :
    Stocked content { c with notices := notices } where
  told := by
    rcases hStocked.told with ⟨log, hLog⟩
    exact ⟨log, hTold log hLog⟩
  parked := fun block hParked =>
    hHas _ (hStocked.parked block hParked)
  pending := fun hash hPending =>
    hHas hash (hStocked.pending hash hPending)

theorem Stocked.move
    (hFree : CollisionFree H)
    (hDepth : HashDepth depth)
    (hSound : c.Sound content)
    (hStocked : c.Stocked content)
    (hMove : Move content c c') :
    c'.Stocked content := by
  cases hMove with
  | adjust queued parked pending _ hParked hPending =>
      exact
        { told := hStocked.told
          parked := fun block hBlock =>
            hStocked.parked block (hParked block hBlock)
          pending := fun hash hHash =>
            hStocked.pending hash (hPending hash hHash) }
  | persist batch =>
      apply hStocked.swap
      · intro log hTold
        exact hTold.persist rfl
      · intro hash hHas
        exact BatchStores.exists_holds_persistBatch hHas
  | read hash =>
      apply hStocked.swap
      · intro log hTold
        exact hTold.read hash
      · intro other hHas
        rcases hHas with ⟨batch, hHeld⟩
        exact ⟨batch,
          (BatchStores.readBatch_holds _ hash other
            batch).mpr hHeld⟩
  | tell msg hMsg =>
      apply hStocked.swap
      · intro log hTold
        exact hTold.tell hMsg
      · intro hash hHas
        exact hHas
  | park block _ hHas =>
      refine { hStocked with parked := ?_ }
      intro other hOther
      rcases hOther with rfl | hOld
      · exact hHas
      · exact hStocked.parked other hOld
  | deliver block hStorable =>
      exact hStocked.deliver hFree hSound hStorable
  | accept hash heads storage notices _ hOutcome =>
      exact hStocked.accept (hSound.rooted hFree hDepth)
        hOutcome

theorem Stocked.moves
    (hFree : CollisionFree H)
    (hDepth : HashDepth depth)
    (hSound : c.Sound content)
    (hStocked : c.Stocked content)
    (hMoves : Moves content c c') :
    c'.Stocked content := by
  have hBoth : c'.Sound content ∧ c'.Stocked content := by
    induction hMoves with
    | refl => exact ⟨hSound, hStocked⟩
    | tail _ hMove ih =>
        exact ⟨ih.1.move hFree hMove,
          ih.2.move hFree hDepth ih.1 hMove⟩
  exact hBoth.2

theorem Stocked.takes
    {hash : H}
    (hStocked : c.Stocked content)
    (hHas : c.Has hash)
    (hTakes : TakesBatch hash c c') :
    c'.Stocked content := by
  rcases hTakes with ⟨pending, hPending, rfl⟩
  refine { hStocked with pending := ?_ }
  intro other hOther
  rcases hPending other hOther with hOld | rfl
  · exact hStocked.pending other hOld
  · exact hHas

theorem Stocked.commitsTold
    (hFree : CollisionFree H)
    (hDepth : HashDepth depth)
    (hSound : c.Sound content)
    (hStocked : c.Stocked content) :
    ∃ log,
      CommitsTold content.batchHash Crypto.emptyHash
        c.notices c.storage log := by
  rcases hStocked.told with ⟨log, hTold⟩
  exact ⟨log,
    hTold.commitsTold (hSound.rooted hFree hDepth)⟩

end Committer

end LibApollo

------------------------------------------------------------
-- The Start
------------------------------------------------------------

namespace LibApollo

namespace Committer

variable {H B : Type} [DecidableEq H] [Crypto H]
variable [BlockTrait B H]
variable {content : Content H B}
variable {c : Committer H B}
variable {genesis : B}

/- Nothing is known but genesis. -/
structure Initial
    (content : Content H B)
    (genesis : B)
    (c : Committer H B) : Prop where
  block : content.block genesis = Block.genesis
  storage : c.storage = Storage.new.addDeliveredBlock genesis
  round : c.round = 1
  queued : ∀ block, ¬ c.queued block
  parked : ∀ block, ¬ c.parked block
  pending : ∀ hash, ¬ c.pending hash
  batches : c.notices.batches = ⟨∅, ∅⟩
  toBatcher : committedBatches c.notices.toBatcher = []
  toRouter : c.notices.toRouter = []

theorem Initial.delivered
    {hash : H}
    {block : B}
    (hInitial : c.Initial content genesis)
    (hLookup :
      c.storage.deliveredBlockFromHash hash = some block) :
    block = genesis := by
  rw [hInitial.storage] at hLookup
  exact Storage.eq_of_delivered_new hLookup

theorem Initial.committed
    (hInitial : c.Initial content genesis) :
    c.storage.committedBlocksByHash = ∅ := by
  rw [hInitial.storage]
  rfl

theorem Initial.sound
    (hInitial : c.Initial content genesis) :
    c.Sound content where
  delivered := by
    intro hash block hLookup
    rw [hInitial.delivered hLookup]
    exact Or.inl hInitial.block
  queued := fun block hQueued =>
    absurd hQueued (hInitial.queued block)
  parked := fun block hParked =>
    absurd hParked (hInitial.parked block)
  started := Nat.le_of_eq hInitial.round.symm
  filled := by
    intro round hPos hRound
    rw [hInitial.round] at hRound
    omega
  commits := by
    have hLast : c.last = 0 := by
      rw [last, hInitial.round]
      omega
    rw [hLast]
    exact Storage.CommitsUpTo.zero hInitial.committed

theorem Initial.not_held
    (hInitial : c.Initial content genesis)
    (hash : H)
    (batch : Batch) :
    ¬ c.notices.batches.Holds hash batch := by
  intro hHolds
  rw [hInitial.batches] at hHolds
  rcases hHolds with hCache | hStore
  · simp at hCache
  · simp at hStore

theorem Initial.intact
    (hInitial : c.Initial content genesis) :
    c.Intact content :=
  { delivered := hInitial.sound.delivered
    queued := hInitial.sound.queued
    parked := hInitial.sound.parked
    filed := fun hash batch hHolds =>
      absurd hHolds (hInitial.not_held hash batch) }

theorem Initial.stocked
    (hBatches :
      ∀ payload,
        Crypto.batchHash (H := H) payload ≠
          Crypto.emptyHash)
    (hInitial : c.Initial content genesis) :
    c.Stocked content := by
  refine
    { told := ⟨[], ?_⟩
      parked := fun block hParked =>
        absurd hParked (hInitial.parked block)
      pending := fun hash hPending =>
        absurd hPending (hInitial.pending hash) }
  refine
    { committed := ⟨List.nodup_nil, ?_, nofun, .nil⟩
      tells := ?_
      filed := fun hash batch hHolds =>
        absurd hHolds (hInitial.not_held hash batch)
      stocked := ?_
      bare := ?_
      payload := nofun }
  · intro hash
    rw [hInitial.committed]
    exact iff_of_false (Finset.notMem_empty hash)
      List.not_mem_nil
  · constructor
    · rw [hInitial.toRouter]
      rfl
    · rw [hInitial.toRouter]
      exact hInitial.toBatcher
  · intro hash block hLookup
    left
    rw [← Storage.getHash_of_delivered hLookup,
      hInitial.delivered hLookup, content.getHash_eq,
      hInitial.block]
    rfl
  · intro block hLookup batch hHash
    rw [hInitial.delivered hLookup, Content.batchHash,
      hInitial.block] at hHash
    exact hBatches batch.payload hHash

end Committer

end LibApollo
