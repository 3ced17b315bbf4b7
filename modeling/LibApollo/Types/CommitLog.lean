import LibApollo.Types.Storage

/-
  The committed blocks of an index as a whole: the set they
  are and the order in which they were committed.

  A walk commits a block with the ancestors that are not
  committed, and stops at the first one that is.  Over any
  number of walks the committed set is the closure of the
  blocks the walks started from, and the blocks, each walk
  taken backwards, are a list with ancestors first.

  Key definitions include:
    * `Storage.CommitsUpTo`
    * `Storage.AncestorsFirst`, `Storage.CommitLog`
    * `Storage.Rooted`

  Key theorems include:
    * `Storage.CommitsUpTo.walk`, `Storage.CommitsUpTo.grow`
    * `Storage.CommitLog.walk`
    * `Storage.CommitLog.ancestors`
    * `Storage.CommittedClosed.root_mem`
-/

------------------------------------------------------------
-- The Committed Set
------------------------------------------------------------

namespace LibApollo

namespace Storage

open Ancestry

variable {H B : Type} [DecidableEq H] [BlockTrait B H]
variable {st st' final : Storage H B}
variable {heads heads' : Nat → Option H}
variable {last : Nat}
variable {hash : H}

/-
  The committed blocks are the heads of the rounds up to the
  last one with all of their ancestors.
-/
structure CommitsUpTo
    (st : Storage H B)
    (heads : Nat → Option H)
    (last : Nat) : Prop where
  closed : st.CommittedClosed
  mem :
    ∀ hash,
      hash ∈ st.committedBlocksByHash ↔
        ∃ round head,
          1 ≤ round ∧ round ≤ last ∧
            heads round = some head ∧
            Ancestor st.parent hash head

/- Before the first round nothing is committed. -/
theorem CommitsUpTo.zero
    (hNone : st.committedBlocksByHash = ∅) :
    CommitsUpTo st heads 0 := by
  constructor
  · intro hash hMem
    rw [hNone] at hMem
    exact absurd hMem (Finset.notMem_empty hash)
  · intro hash
    rw [hNone]
    refine iff_of_false (Finset.notMem_empty hash) ?_
    intro hParts
    rcases hParts with ⟨round, head, hPos, hLast, _⟩
    omega

/- Later heads do not matter. -/
theorem CommitsUpTo.congr
    (hCommits : CommitsUpTo st heads last)
    (hHeads :
      ∀ round, round ≤ last →
        heads' round = heads round) :
    CommitsUpTo st heads' last := by
  refine ⟨hCommits.closed, ?_⟩
  intro hash
  rw [hCommits.mem hash]
  constructor
  · intro hParts
    rcases hParts with
      ⟨round, head, hPos, hLast, hHead, hAncestor⟩
    exact ⟨round, head, hPos, hLast,
      (hHeads round hLast).trans hHead, hAncestor⟩
  · intro hParts
    rcases hParts with
      ⟨round, head, hPos, hLast, hHead, hAncestor⟩
    exact ⟨round, head, hPos, hLast,
      (hHeads round hLast).symm.trans hHead, hAncestor⟩

/- Further delivered blocks are no ancestors of heads. -/
theorem CommitsUpTo.grow
    (hCommits : CommitsUpTo st heads last)
    (hParent :
      ∀ u v, st.parent u = some v →
        st'.parent u = some v)
    (hSame :
      st'.committedBlocksByHash =
        st.committedBlocksByHash) :
    CommitsUpTo st' heads last := by
  have hClosed : st'.CommittedClosed := by
    intro hash hMem
    rw [hSame] at hMem ⊢
    rcases hCommits.closed hash hMem with
      ⟨above, hAbove, hCommitted⟩
    exact ⟨above, hParent hash above hAbove, hCommitted⟩
  refine ⟨hClosed, ?_⟩
  intro hash
  constructor
  · intro hMem
    rw [hSame] at hMem
    rcases (hCommits.mem hash).mp hMem with
      ⟨round, head, hPos, hLast, hHead, hAncestor⟩
    exact ⟨round, head, hPos, hLast, hHead,
      hAncestor.mono hParent⟩
  · intro hParts
    rcases hParts with
      ⟨round, head, hPos, hLast, hHead, hAncestor⟩
    -- the head is committed, and with it its ancestors
    have hCommitted : head ∈ st'.committedBlocksByHash := by
      rw [hSame]
      exact (hCommits.mem head).mpr
        ⟨round, head, hPos, hLast, hHead, Ancestor.refl⟩
    exact hClosed.ancestor hAncestor hCommitted

/- The walk from the next head commits one round more. -/
theorem CommitsUpTo.walk
    (hCommits : CommitsUpTo st heads last)
    (hHead : heads (last + 1) = some hash)
    (hSpec : st.WalkSpec hash final) :
    CommitsUpTo final heads (last + 1) := by
  have hClosed := hSpec.committedClosed hCommits.closed
  refine ⟨hClosed, ?_⟩
  intro other
  constructor
  · intro hMem
    rw [hSpec.parent_eq]
    rcases hSpec.mem other hMem with hOld | hNew
    · rcases (hCommits.mem other).mp hOld with
        ⟨round, head, hPos, hLast, hEntry, hAncestor⟩
      exact ⟨round, head, hPos, by omega, hEntry,
        hAncestor⟩
    · exact ⟨last + 1, hash, by omega, Nat.le_refl _, hHead,
        hNew⟩
  · intro hParts
    rcases hParts with
      ⟨round, head, hPos, hLast, hEntry, hAncestor⟩
    have hCommitted :
        head ∈ final.committedBlocksByHash := by
      rcases Nat.lt_or_eq_of_le hLast with hOld | rfl
      · apply hSpec.subset
        exact (hCommits.mem head).mpr
          ⟨round, head, hPos, by omega, hEntry,
            Ancestor.refl⟩
      · cases hHead.symm.trans hEntry
        exact hSpec.start_mem
    exact hClosed.ancestor hAncestor hCommitted

end Storage

end LibApollo

------------------------------------------------------------
-- The Order of Commits
------------------------------------------------------------

namespace LibApollo

namespace Storage

open Ancestry

variable {H B : Type} [DecidableEq H] [BlockTrait B H]
variable {st st' final : Storage H B}
variable {root : H}
variable {log : List B}
variable {Walked : H → Prop}
variable {hash : H}
variable {block : B}
variable {blocks : List B}

/- Every block but the root comes after its parent. -/
inductive AncestorsFirst (root : H) : List B → Prop where
| nil : AncestorsFirst root []
| snoc {log : List B} {block : B} :
    AncestorsFirst root log →
      (BlockTrait.getHash block = root ∨
        BlockTrait.getPrev block ∈
          log.map BlockTrait.getHash) →
      AncestorsFirst root (log ++ [block])

/- The committed blocks in the order of their commits. -/
structure CommitLog
    (st : Storage H B)
    (root : H)
    (log : List B) : Prop where
  once : (log.map BlockTrait.getHash).Nodup
  mem :
    ∀ hash,
      hash ∈ st.committedBlocksByHash ↔
        hash ∈ log.map BlockTrait.getHash
  parents :
    ∀ block ∈ log,
      st.parent (BlockTrait.getHash block) =
        some (BlockTrait.getPrev block)
  order : AncestorsFirst root log

/-
  The root is its own parent, and every other delivered
  block is deeper than its parent.
-/
structure Rooted
    (st : Storage H B)
    (root : H)
    (depth : H → Nat) : Prop where
  loop : ∀ above, st.parent root = some above → above = root
  deeper :
    ∀ hash above,
      st.parent hash = some above →
        hash = root ∨ depth above < depth hash

/-
  A log that leaves out the committed blocks of a walk in
  progress.
-/
structure PartLog
    (st : Storage H B)
    (root : H)
    (Walked : H → Prop)
    (log : List B) : Prop where
  once : (log.map BlockTrait.getHash).Nodup
  mem :
    ∀ hash,
      hash ∈ st.committedBlocksByHash ↔
        hash ∈ log.map BlockTrait.getHash ∨ Walked hash
  apart :
    ∀ hash,
      Walked hash → hash ∉ log.map BlockTrait.getHash
  parents :
    ∀ block ∈ log,
      st.parent (BlockTrait.getHash block) =
        some (BlockTrait.getPrev block)
  order : AncestorsFirst root log

theorem partLog_iff :
    PartLog st root (fun _ => False) log ↔
      CommitLog st root log := by
  constructor
  · intro hPart
    refine ⟨hPart.once, ?_, hPart.parents, hPart.order⟩
    intro hash
    rw [hPart.mem hash, or_false]
  · intro hLog
    refine ⟨hLog.once, ?_, nofun, hLog.parents, hLog.order⟩
    intro hash
    rw [hLog.mem hash, or_false]

/- The loop has committed one block more. -/
theorem PartLog.commit
    (hPart : PartLog st root Walked log)
    (hOpen : hash ∉ st.committedBlocksByHash)
    (hLookup :
      st.deliveredBlockFromHash hash = some block) :
    PartLog (st.addCommittedBlock block) root
      (fun other => other = hash ∨ Walked other) log := by
  have hHash := getHash_of_delivered hLookup
  refine ⟨hPart.once, ?_, ?_, hPart.parents, hPart.order⟩
  · intro other
    rw [addCommittedBlock_committedBlocksByHash,
      Finset.mem_insert, hPart.mem other, hHash]
    tauto
  · intro other hWalked hLogged
    rcases hWalked with rfl | hWalked
    · exact hOpen ((hPart.mem _).mpr (Or.inl hLogged))
    · exact hPart.apart other hWalked hLogged

/- The block the loop has left goes to the end of the log. -/
theorem PartLog.snoc
    (hPart :
      PartLog st root
        (fun other => other = hash ∨ Walked other) log)
    (hLookup :
      st.deliveredBlockFromHash hash = some block)
    (hNot : ¬ Walked hash)
    (hPrev :
      hash = root ∨
        BlockTrait.getPrev block ∈
          log.map BlockTrait.getHash) :
    PartLog st root Walked (log ++ [block]) := by
  have hHash := getHash_of_delivered hLookup
  have hMap :
      (log ++ [block]).map BlockTrait.getHash =
        log.map BlockTrait.getHash ++ [hash] := by
    rw [List.map_append, List.map_singleton, hHash]
  refine ⟨?_, ?_, ?_, ?_, .snoc hPart.order ?_⟩
  · rw [hMap]
    apply hPart.once.append (List.nodup_singleton _)
    intro other hOld hNew
    rw [List.mem_singleton.mp hNew] at hOld
    exact hPart.apart hash (Or.inl rfl) hOld
  · intro other
    rw [hMap, List.mem_append, List.mem_singleton,
      hPart.mem other]
    tauto
  · intro other hWalked hLogged
    rw [hMap, List.mem_append, List.mem_singleton] at hLogged
    rcases hLogged with hOld | rfl
    · exact hPart.apart other (Or.inr hWalked) hOld
    · exact hNot hWalked
  · intro other hMem
    rcases List.mem_append.mp hMem with hOld | hNew
    · exact hPart.parents other hOld
    · rw [List.mem_singleton.mp hNew, hHash]
      exact parent_of_delivered hLookup
  · rw [hHash]
    exact hPrev

theorem Walks.delivered_eq
    (hWalks : Walks st hash final blocks)
    (other : H) :
    final.deliveredBlockFromHash other =
      st.deliveredBlockFromHash other := by
  induction hWalks with
  | stop _ => rfl
  | next _ _ _ ih => exact ih

/- The blocks of a loop are delivered. -/
theorem Walks.delivered
    (hWalks : Walks st hash final blocks) :
    ∀ block ∈ blocks,
      st.deliveredBlockFromHash (BlockTrait.getHash block) =
        some block := by
  induction hWalks with
  | stop _ => nofun
  | @next st final hash block blocks _ hLookup _ ih =>
      intro other hMem
      rcases List.mem_cons.mp hMem with rfl | hRest
      · rw [getHash_of_delivered hLookup]
        exact hLookup
      · exact ih other hRest

/-
  The blocks of a loop, taken backwards, extend the log.  The
  blocks passed so far are deeper than the current one, so
  the loop stops at a block of the log.
-/
theorem Walks.partLog
    {depth : H → Nat}
    (hWalks : Walks st hash final blocks)
    (hRooted : Rooted st root depth)
    (hPart : PartLog st root Walked log)
    (hAbove :
      ∀ other, Walked other → depth hash < depth other) :
    PartLog final root Walked (log ++ blocks.reverse) ∧
      hash ∈
        (log ++ blocks.reverse).map BlockTrait.getHash := by
  induction hWalks generalizing Walked with
  | @stop st hash hCommitted =>
      rw [List.reverse_nil, List.append_nil]
      refine ⟨hPart, ?_⟩
      rcases (hPart.mem hash).mp hCommitted with
        hLogged | hWalked
      · exact hLogged
      · exact absurd (hAbove hash hWalked)
          (Nat.lt_irrefl _)
  | @next st final hash block blocks hOpen hLookup hRest
      ih =>
      have hHash := getHash_of_delivered hLookup
      have hParent := parent_of_delivered hLookup
      have hNot : ¬ Walked hash := by
        intro hWalked
        exact hOpen ((hPart.mem hash).mpr (Or.inr hWalked))
      have hNext := hPart.commit hOpen hLookup
      have hFinal :
          final.deliveredBlockFromHash hash = some block :=
        (hRest.delivered_eq hash).trans hLookup
      rw [List.reverse_cons, ← List.append_assoc]
      have hLast :
          hash ∈
            ((log ++ blocks.reverse) ++ [block]).map
              BlockTrait.getHash := by
        rw [List.map_append, List.map_singleton, hHash]
        exact List.mem_append_right _
          (List.mem_singleton_self hash)
      refine ⟨?_, hLast⟩
      rcases hRooted.deeper hash _ hParent with
        rfl | hDeeper
      · -- the root is its own parent and ends the loop
        rw [hRooted.loop _ hParent] at hRest
        cases hRest with
        | stop _ =>
            rw [List.reverse_nil, List.append_nil]
            exact hNext.snoc hFinal hNot (Or.inl rfl)
        | next hAgain _ _ =>
            refine absurd ?_ hAgain
            rw [addCommittedBlock_committedBlocksByHash,
              hHash]
            exact Finset.mem_insert_self _ _
      · have hBelow :
            ∀ other, other = hash ∨ Walked other →
              depth (BlockTrait.getPrev block) <
                depth other := by
          intro other hOther
          rcases hOther with rfl | hWalked
          · exact hDeeper
          · exact hDeeper.trans (hAbove other hWalked)
        have hStill :
            Rooted (st.addCommittedBlock block) root depth :=
          ⟨hRooted.loop, hRooted.deeper⟩
        rcases ih hStill hNext hBelow with ⟨hPart', hPrev⟩
        exact hPart'.snoc hFinal hNot (Or.inr hPrev)

theorem CommitLog.walk
    {depth : H → Nat}
    (hLog : CommitLog st root log)
    (hRooted : Rooted st root depth)
    (hWalks : Walks st hash final blocks) :
    CommitLog final root (log ++ blocks.reverse) := by
  apply partLog_iff.mp
  exact (hWalks.partLog hRooted (partLog_iff.mpr hLog)
    nofun).1

/- Storing further blocks leaves the log. -/
theorem CommitLog.grow
    (hLog : CommitLog st root log)
    (hParent :
      ∀ u v, st.parent u = some v →
        st'.parent u = some v)
    (hSame :
      st'.committedBlocksByHash =
        st.committedBlocksByHash) :
    CommitLog st' root log := by
  refine ⟨hLog.once, ?_, ?_, hLog.order⟩
  · intro hash
    rw [hSame]
    exact hLog.mem hash
  · intro block hMem
    exact hParent _ _ (hLog.parents block hMem)

/- The ancestors of a committed block go down to the root. -/
theorem CommittedClosed.root_mem
    {depth : H → Nat}
    (hClosed : st.CommittedClosed)
    (hRooted : Rooted st root depth)
    (hMem : hash ∈ st.committedBlocksByHash) :
    root ∈ st.committedBlocksByHash := by
  induction hDepth : depth hash using Nat.strong_induction_on
    generalizing hash with
  | _ n ih =>
      rcases hClosed hash hMem with ⟨above, hParent, hAbove⟩
      rcases hRooted.deeper hash above hParent with
        rfl | hDeeper
      · exact hMem
      · rw [hDepth] at hDeeper
        exact ih (depth above) hDeeper hAbove rfl

omit [DecidableEq H] in
/- A parent in the log comes before its child. -/
theorem AncestorsFirst.parent
    (hOrder : AncestorsFirst root log)
    {before after : List B}
    (hSplit : log = before ++ block :: after) :
    BlockTrait.getHash block = root ∨
      BlockTrait.getPrev block ∈
        before.map BlockTrait.getHash := by
  induction hOrder generalizing after with
  | nil => simp at hSplit
  | @snoc log last _ hLast ih =>
      rcases List.eq_nil_or_concat after with
        rfl | ⟨rest, bottom, rfl⟩
      · rcases List.append_inj' hSplit rfl with
          ⟨rfl, hSame⟩
        cases hSame
        exact hLast
      · rw [List.concat_eq_append, ← List.cons_append,
          ← List.append_assoc] at hSplit
        exact ih (List.append_inj' hSplit rfl).1

/- All ancestors of a logged block come before it. -/
theorem CommitLog.ancestors
    {depth : H → Nat}
    (hLog : CommitLog st root log)
    (hRooted : Rooted st root depth)
    {before after : List B}
    {other : H}
    (hSplit : log = before ++ block :: after)
    (hAncestor :
      Ancestor st.parent other
        (BlockTrait.getHash block)) :
    other = BlockTrait.getHash block ∨
      other ∈ before.map BlockTrait.getHash := by
  -- the parent of a block of the log, from its place in it
  have hParent :
      ∀ first found rest above,
        log = first ++ found :: rest →
          st.parent (BlockTrait.getHash found) =
            some above →
          above = BlockTrait.getHash found ∨
            above ∈ first.map BlockTrait.getHash := by
    intro first found rest above hPlace hEdge
    have hStored :=
      hLog.parents found (by simp [hPlace])
    have hAbove :=
      Option.some.inj (hEdge.symm.trans hStored)
    rcases hLog.order.parent hPlace with hRoot | hPrev
    · left
      rw [hRoot] at hEdge ⊢
      exact hRooted.loop above hEdge
    · rw [hAbove]
      exact Or.inr hPrev
  induction hAncestor with
  | refl => exact Or.inl rfl
  | @tail child above _ hEdge ih =>
      rcases ih with rfl | hBefore
      · exact hParent before block after above hSplit hEdge
      · right
        rcases List.mem_map.mp hBefore with
          ⟨found, hFound, rfl⟩
        rcases List.append_of_mem hFound with
          ⟨first, rest, rfl⟩
        rw [List.append_assoc, List.cons_append] at hSplit
        rcases hParent first found _ above hSplit hEdge with
          rfl | hFirst
        · exact List.mem_map_of_mem hFound
        · rw [List.map_append]
          exact List.mem_append_left _ hFirst

end Storage

end LibApollo
