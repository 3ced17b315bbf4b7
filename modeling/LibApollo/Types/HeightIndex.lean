import LibApollo.Base.Run
import LibApollo.Types.Storage

/-
  Runs of the block index, and what its lookups by height
  say about commitment.

  Blocks are delivered in any order, forks included, and
  only delivered blocks are committed.  A height is marked
  when a block of it is committed, but the block found at a
  height is the one that was delivered last.

  Key definitions include:
    * `Storage.Op`, `Storage.step`
    * `Storage.Permitted`
    * `Storage.FromHtCommitted`
    * `Storage.LastCommitted`
    * `Storage.HeightsAgree`

  Key theorems include:
    * `Storage.fromHtCommitted_step_iff`
    * `Storage.HeightsMarked.isCommittedByHt_iff`
    * `Storage.heightsAgree_iff`
-/

------------------------------------------------------------
-- Runs of the Index
------------------------------------------------------------

namespace LibApollo

namespace Storage

variable {H B : Type} [DecidableEq H] [BlockTrait B H]

/- The two calls that change the index. -/
inductive Op (B : Type) where
| addDeliveredBlock (block : B)
| addCommittedBlock (block : B)
deriving DecidableEq, Repr

/- Neither call can fail. -/
def step : Machine (Storage H B) (Op B) Empty :=
  fun st op =>
    match op with
    | .addDeliveredBlock block =>
        .ok (st.addDeliveredBlock block)
    | .addCommittedBlock block =>
        .ok (st.addCommittedBlock block)

/-
  A block equals the block stored under its hash, and only
  stored blocks are committed.
-/
def Permitted (st : Storage H B) : Op B → Prop
| .addDeliveredBlock block =>
    ∀ stored,
      st.deliveredBlockFromHash
          (BlockTrait.getHash block) = some stored →
        stored = block
| .addCommittedBlock block =>
    st.deliveredBlockFromHash (BlockTrait.getHash block) =
      some block

/- A block found at a committed height is committed. -/
def FromHtCommitted (st : Storage H B) : Prop :=
  ∀ height block,
    st.committedBlockFromHt height = some block →
      st.isCommittedByHash (BlockTrait.getHash block) =
        true

/- Some committed block has the height. -/
def HasCommitted
    (st : Storage H B)
    (height : Nat) : Prop :=
  ∃ hash block,
    st.committedBlockByHash hash = some block ∧
      BlockTrait.getHeight block = height

/-
  The block that is last delivered at the height, after the
  call, is committed if the height is: a block delivered at
  a committed height is committed already, and a block is
  committed while it, or a committed one, is the last of its
  height.
-/
def LastCommitted (st : Storage H B) : Op B → Prop
| .addDeliveredBlock block =>
    st.isCommittedByHt (BlockTrait.getHeight block) =
        true →
      st.isCommittedByHash (BlockTrait.getHash block) =
        true
| .addCommittedBlock block =>
    ∀ last,
      st.deliveredBlockFromHt
          (BlockTrait.getHeight block) = some last →
        BlockTrait.getHash last =
            BlockTrait.getHash block ∨
          st.isCommittedByHash (BlockTrait.getHash last) =
            true

variable {st st' : Storage H B}
variable {op : Op B}
variable {past : List (Storage H B × Op B)}

theorem committedBlockFromHt_eq_some
    {height : Nat}
    {block : B} :
    st.committedBlockFromHt height = some block ↔
      height ∈ st.committedBlocksByHt ∧
        st.deliveredBlockFromHt height = some block := by
  unfold committedBlockFromHt isCommittedByHt
  by_cases hHeight : height ∈ st.committedBlocksByHt
  · simp [hHeight]
  · simp [hHeight]

theorem committedBlockByHash_eq_some
    {hash : H}
    {block : B} :
    st.committedBlockByHash hash = some block ↔
      hash ∈ st.committedBlocksByHash ∧
        st.deliveredBlockFromHash hash = some block := by
  unfold committedBlockByHash
  by_cases hHash : hash ∈ st.committedBlocksByHash
  · simp [hHash, isCommittedByHash]
  · simp [hHash, isCommittedByHash]

end Storage

end LibApollo

------------------------------------------------------------
-- Committed Heights
------------------------------------------------------------

namespace LibApollo

namespace Storage

variable {H B : Type} [DecidableEq H] [BlockTrait B H]
variable {st st' : Storage H B}
variable {op : Op B}
variable {past : List (Storage H B × Op B)}

/- The marked heights are those of the committed blocks. -/
structure HeightsMarked (st : Storage H B) : Prop where
  stored :
    ∀ hash ∈ st.committedBlocksByHash,
      ∃ block,
        st.deliveredBlockFromHash hash = some block ∧
          BlockTrait.getHeight block ∈
            st.committedBlocksByHt
  reached :
    ∀ height ∈ st.committedBlocksByHt,
      HasCommitted st height

theorem heightsMarked_new :
    HeightsMarked (new : Storage H B) where
  stored := by
    intro hash hMem
    exact absurd hMem (Finset.notMem_empty hash)
  reached := by
    intro height hMem
    exact absurd hMem (Finset.notMem_empty height)

theorem HeightsMarked.addDeliveredBlock
    {block : B}
    (hMarked : HeightsMarked st)
    (hPermitted :
      Permitted st (.addDeliveredBlock block)) :
    HeightsMarked (st.addDeliveredBlock block) := by
  have hKept :
      ∀ hash stored,
        st.deliveredBlockFromHash hash = some stored →
          (st.addDeliveredBlock
            block).deliveredBlockFromHash hash =
              some stored := by
    intro hash stored hLookup
    apply delivered_mono _ hLookup
    intro hSame
    apply hPermitted
    rw [← hSame, getHash_of_delivered hLookup]
    exact hLookup
  refine ⟨?_, ?_⟩
  · intro hash hMem
    rcases hMarked.stored hash hMem with
      ⟨stored, hLookup, hHeight⟩
    exact ⟨stored, hKept hash stored hLookup, hHeight⟩
  · intro height hMem
    rcases hMarked.reached height hMem with
      ⟨hash, stored, hCommitted, hHeight⟩
    rcases committedBlockByHash_eq_some.mp hCommitted with
      ⟨hHash, hLookup⟩
    exact ⟨hash, stored,
      committedBlockByHash_eq_some.mpr
        ⟨hHash, hKept hash stored hLookup⟩, hHeight⟩

theorem HeightsMarked.addCommittedBlock
    {block : B}
    (hMarked : HeightsMarked st)
    (hPermitted :
      Permitted st (.addCommittedBlock block)) :
    HeightsMarked (st.addCommittedBlock block) where
  stored := by
    intro hash hMem
    rcases Finset.mem_insert.mp hMem with hNew | hOld
    · rw [hNew]
      exact ⟨block, hPermitted,
        Finset.mem_insert_self _ _⟩
    · rcases hMarked.stored hash hOld with
        ⟨stored, hLookup, hHeight⟩
      exact ⟨stored, hLookup,
        Finset.mem_insert_of_mem hHeight⟩
  reached := by
    intro height hMem
    rcases Finset.mem_insert.mp hMem with hNew | hOld
    · refine ⟨BlockTrait.getHash block, block, ?_,
        hNew.symm⟩
      exact committedBlockByHash_eq_some.mpr
        ⟨Finset.mem_insert_self _ _, hPermitted⟩
    · rcases hMarked.reached height hOld with
        ⟨hash, stored, hCommitted, hHeight⟩
      rcases committedBlockByHash_eq_some.mp hCommitted with
        ⟨hHash, hLookup⟩
      exact ⟨hash, stored,
        committedBlockByHash_eq_some.mpr
          ⟨Finset.mem_insert_of_mem hHash, hLookup⟩,
        hHeight⟩

theorem HeightsMarked.step
    (hMarked : HeightsMarked st)
    (hPermitted : Permitted st op)
    (hStep : Storage.step st op = .ok st') :
    HeightsMarked st' := by
  cases op with
  | addDeliveredBlock block =>
      cases hStep
      exact hMarked.addDeliveredBlock hPermitted
  | addCommittedBlock block =>
      cases hStep
      exact hMarked.addCommittedBlock hPermitted

/- A height is marked when a block of it is committed. -/
theorem HeightsMarked.isCommittedByHt_iff
    (hMarked : HeightsMarked st)
    (height : Nat) :
    st.isCommittedByHt height = true ↔
      HasCommitted st height := by
  unfold isCommittedByHt
  rw [decide_eq_true_iff]
  constructor
  · exact hMarked.reached height
  · intro hHas
    rcases hHas with ⟨hash, block, hCommitted, hHeight⟩
    rcases committedBlockByHash_eq_some.mp hCommitted with
      ⟨hHash, hLookup⟩
    rcases hMarked.stored hash hHash with
      ⟨stored, hStored, hMem⟩
    rw [hLookup, Option.some.injEq] at hStored
    rw [← hHeight, hStored]
    exact hMem

end Storage

end LibApollo

------------------------------------------------------------
-- Blocks at Committed Heights
------------------------------------------------------------

namespace LibApollo

namespace Storage

open Machine.Trace

variable {H B : Type} [DecidableEq H] [BlockTrait B H]
variable {st st' : Storage H B}
variable {op : Op B}
variable {past : List (Storage H B × Op B)}

theorem fromHtCommitted_new :
    FromHtCommitted (new : Storage H B) := by
  intro height block hFound
  rcases committedBlockFromHt_eq_some.mp hFound with
    ⟨hMem, _⟩
  exact absurd hMem (Finset.notMem_empty height)

/-
  One call keeps the lookups by height right if and only if
  the block that is last at its height is committed.
-/
theorem fromHtCommitted_step_iff
    (hBefore : FromHtCommitted st)
    (hStep : step st op = .ok st') :
    FromHtCommitted st' ↔ LastCommitted st op := by
  cases op with
  | addDeliveredBlock block =>
      cases hStep
      constructor
      · intro hAfter hHeight
        apply hAfter (BlockTrait.getHeight block)
        rw [committedBlockFromHt_eq_some,
          addDeliveredBlock_deliveredBlockFromHt,
          if_pos rfl]
        exact ⟨decide_eq_true_iff.mp hHeight, rfl⟩
      · intro hLast height found hFound
        rw [committedBlockFromHt_eq_some,
          addDeliveredBlock_deliveredBlockFromHt] at hFound
        rcases hFound with ⟨hMem, hLookup⟩
        by_cases hHeight :
            height = BlockTrait.getHeight block
        · rw [if_pos hHeight, Option.some.injEq] at hLookup
          rw [← hLookup]
          apply hLast
          rw [← hHeight]
          exact decide_eq_true_iff.mpr hMem
        · rw [if_neg hHeight] at hLookup
          exact hBefore height found
            (committedBlockFromHt_eq_some.mpr
              ⟨hMem, hLookup⟩)
  | addCommittedBlock block =>
      cases hStep
      have hCommitted :
          ∀ hash,
            (st.addCommittedBlock block).isCommittedByHash
                hash = true ↔
              hash = BlockTrait.getHash block ∨
                st.isCommittedByHash hash = true := by
        intro hash
        rw [isCommittedByHash_iff, isCommittedByHash_iff,
          addCommittedBlock_committedBlocksByHash,
          Finset.mem_insert]
      constructor
      · intro hAfter last hLast
        rw [← hCommitted]
        apply hAfter (BlockTrait.getHeight block)
        exact committedBlockFromHt_eq_some.mpr
          ⟨Finset.mem_insert_self _ _, hLast⟩
      · intro hLast height found hFound
        rcases committedBlockFromHt_eq_some.mp hFound with
          ⟨hMem, hLookup⟩
        rw [hCommitted]
        rcases Finset.mem_insert.mp hMem with hNew | hOld
        · rw [hNew] at hLookup
          exact hLast found hLookup
        · right
          exact hBefore height found
            (committedBlockFromHt_eq_some.mpr
              ⟨hOld, hLookup⟩)

/- Lookups by height agree with commitment. -/
def HeightsAgree (st : Storage H B) : Prop :=
  FromHtCommitted st ∧
    ∀ height,
      st.isCommittedByHt height = true ↔
        HasCommitted st height

/-
  In every run in which only stored blocks are committed, a
  height is marked if and only if a block of it is
  committed.  Moreover all lookups by height agree with
  commitment, in all states of the run, if and only if each
  call leaves a committed block last at its height when the
  height is committed.
-/
theorem heightsAgree_iff
    (hTrace : Machine.Trace step new past st)
    (hPermitted :
      ∀ taken ∈ past, Permitted taken.1 taken.2) :
    (∀ state, Visited past st state →
      ∀ height,
        state.isCommittedByHt height = true ↔
          HasCommitted state height) ∧
    ((∀ state, Visited past st state →
        HeightsAgree state) ↔
      ∀ taken ∈ past, LastCommitted taken.1 taken.2) := by
  have hHeights :
      ∀ state, Visited past st state →
        ∀ height,
          state.isCommittedByHt height = true ↔
            HasCommitted state height := by
    intro state hVisited
    have hMarked :=
      hTrace.forall_visited HeightsMarked hPermitted
        heightsMarked_new
        (fun _ _ _ hBefore hAllowed hOk =>
          hBefore.step hAllowed hOk)
        state hVisited
    exact hMarked.isCommittedByHt_iff
  refine ⟨hHeights, ?_⟩
  have hRun :
      (∀ state, Visited past st state →
          FromHtCommitted state) ↔
        ∀ taken ∈ past, LastCommitted taken.1 taken.2 :=
    hTrace.forall_visited_iff FromHtCommitted
      fromHtCommitted_new
      (fun _ _ _ hBefore hOk =>
        fromHtCommitted_step_iff hBefore hOk)
  rw [← hRun]
  constructor
  · intro hAgree state hVisited
    exact (hAgree state hVisited).1
  · intro hFrom state hVisited
    exact ⟨hFrom state hVisited, hHeights state hVisited⟩

/- A block with a given hash and height. -/
def indexedBlock (hash height : Nat) : Block Nat where
  header :=
    { prev := 0
      extra := []
      author := 0
      height := height
      blameCertificates := [] }
  body := { batchHash := 0 }
  hash := hash

/- Two blocks of height 1, the first of them committed. -/
def committedRun : List (Op (Block Nat)) :=
  [.addDeliveredBlock (indexedBlock 5 1),
    .addCommittedBlock (indexedBlock 5 1)]

/- The fork is delivered after the commit. -/
def forkedRun : List (Op (Block Nat)) :=
  committedRun ++ [.addDeliveredBlock (indexedBlock 6 1)]

/- Executable form of the permitted calls. -/
def permittedCheck
    (st : Storage Nat (Block Nat)) :
    Op (Block Nat) → Bool
| .addDeliveredBlock block =>
    (st.deliveredBlockFromHash block.hash).all
      (fun stored => decide (stored = block))
| .addCommittedBlock block =>
    decide
      (st.deliveredBlockFromHash block.hash = some block)

theorem permitted_of_check
    {st : Storage Nat (Block Nat)}
    {op : Op (Block Nat)}
    (hCheck : permittedCheck st op = true) :
    Permitted st op := by
  cases op with
  | addDeliveredBlock block =>
      intro stored hStored
      have hFound :
          st.deliveredBlockFromHash block.hash =
            some stored := hStored
      simp only [permittedCheck, hFound, Option.all_some,
        decide_eq_true_eq] at hCheck
      exact hCheck
  | addCommittedBlock block =>
      have hStored :
          st.deliveredBlockFromHash block.hash =
            some block := of_decide_eq_true hCheck
      exact hStored

/- The fork is found at the committed height. -/
theorem fork_at_committed_height :
    ∃ (past : List
          (Storage Nat (Block Nat) × Op (Block Nat)))
        (st : Storage Nat (Block Nat)),
      Machine.Trace step new past st ∧
        (∀ taken ∈ past, Permitted taken.1 taken.2) ∧
        past.map Prod.snd = forkedRun ∧
        st.committedBlockFromHt 1 =
          some (indexedBlock 6 1) ∧
        st.isCommittedByHash 6 = false ∧
        ¬ HeightsAgree st := by
  have hRun :
      Machine.runCheck step permittedCheck
        (fun st =>
          decide
              (st.committedBlockFromHt 1 =
                some (indexedBlock 6 1)) &&
            !st.isCommittedByHash 6)
        new forkedRun = true := by
    decide +kernel
  rcases Machine.Trace.of_runCheck .start hRun with
    ⟨past, st, hTrace, hOps, _, hChecks, hFinal⟩
  simp only [Bool.and_eq_true, decide_eq_true_eq,
    Bool.not_eq_true'] at hFinal
  rcases hFinal with ⟨hFound, hNot⟩
  refine ⟨past, st, hTrace, ?_, hOps, hFound, hNot, ?_⟩
  · intro taken hTaken
    exact permitted_of_check (hChecks taken hTaken)
  · intro hAgree
    have hCommitted := hAgree.1 1 _ hFound
    change st.isCommittedByHash 6 = true at hCommitted
    rw [hNot] at hCommitted
    cases hCommitted

/- Executable form of the condition. -/
def lastCommittedCheck
    (st : Storage Nat (Block Nat)) :
    Op (Block Nat) → Bool
| .addDeliveredBlock block =>
    !st.isCommittedByHt block.header.height ||
      st.isCommittedByHash block.hash
| .addCommittedBlock block =>
    (st.deliveredBlockFromHt block.header.height).all
      (fun last =>
        decide (last.hash = block.hash) ||
          st.isCommittedByHash last.hash)

theorem lastCommitted_of_check
    {st : Storage Nat (Block Nat)}
    {op : Op (Block Nat)}
    (hCheck : lastCommittedCheck st op = true) :
    LastCommitted st op := by
  cases op with
  | addDeliveredBlock block =>
      intro hHeight
      have hMarked :
          st.isCommittedByHt block.header.height = true :=
        hHeight
      rw [lastCommittedCheck, hMarked] at hCheck
      exact hCheck
  | addCommittedBlock block =>
      intro last hLast
      have hFound :
          st.deliveredBlockFromHt block.header.height =
            some last := hLast
      simp only [lastCommittedCheck, hFound,
        Option.all_some, Bool.or_eq_true,
        decide_eq_true_eq] at hCheck
      exact hCheck

/- The committed block is found while it is the last one. -/
theorem heightsAgree_before_fork :
    ∃ (past : List
          (Storage Nat (Block Nat) × Op (Block Nat)))
        (st : Storage Nat (Block Nat)),
      Machine.Trace step new past st ∧
        past.map Prod.snd = committedRun ∧
        st.isCommittedByHt 1 = true ∧
        HeightsAgree st := by
  have hRun :
      Machine.runCheck step
        (fun st op =>
          permittedCheck st op && lastCommittedCheck st op)
        (fun st => st.isCommittedByHt 1)
        new committedRun = true := by
    decide +kernel
  rcases Machine.Trace.of_runCheck .start hRun with
    ⟨past, st, hTrace, hOps, _, hChecks, hFinal⟩
  simp only [Bool.and_eq_true] at hChecks
  have hAgree := (heightsAgree_iff hTrace
    (fun taken hTaken =>
      permitted_of_check (hChecks taken hTaken).1)).2
  exact ⟨past, st, hTrace, hOps, hFinal,
    hAgree.mpr
      (fun taken hTaken =>
        lastCommitted_of_check (hChecks taken hTaken).2)
      st (Or.inl rfl)⟩

end Storage

end LibApollo
