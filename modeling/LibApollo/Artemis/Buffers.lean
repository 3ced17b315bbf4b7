import LibApollo.Artemis.Transitions

/-
  The blocks and votes that an Artemis node keeps for later.

  A block without its parent is kept until the parent comes,
  a vote without its block until the block comes, and a vote
  of a later round until that round.  A vote is kept under
  its hash or round alone, so that only a vote with the same
  hash or round takes its place.

  Key definitions include:
    * `Shelved`
    * `StepReleases`, `TakesUpVote`

  Key theorems include:
    * `Shelved.transition`
    * `step_voteReady`, `step_voteWaiting`
-/

------------------------------------------------------------
-- Blocks Without Their Parents
------------------------------------------------------------

namespace LibApollo

namespace Artemis

variable {H : Type} [DecidableEq H] [Crypto H]
variable {cx cx' : Context H}
variable {node node' : Node H}
variable {event : Event H}
variable {block : Block H}

omit [Crypto H] in
/-
  Undelivered blocks are kept under their hashes, and what
  waits for a parent is kept until it is delivered.
-/
structure Shelved (cx : Context H) : Prop where
  filed :
    ∀ hash block,
      cx.undeliveredBlocks.lookup hash = some block →
        BlockTrait.getHash block = hash
  parked :
    ∀ parent child,
      cx.blockParentWaiting.lookup parent = some child →
        (∃ block,
          cx.undeliveredBlocks.lookup child =
            some block) ∨
          cx.storage.isDeliveredByHash child = true

omit [Crypto H] in
theorem Shelved.of_eq
    (hShelved : Shelved cx)
    (hUndelivered :
      cx'.undeliveredBlocks = cx.undeliveredBlocks)
    (hWaiting :
      cx'.blockParentWaiting = cx.blockParentWaiting)
    (hDelivered :
      ∀ hash,
        cx.storage.isDeliveredByHash hash = true →
          cx'.storage.isDeliveredByHash hash = true) :
    Shelved cx' := by
  constructor
  · rw [hUndelivered]
    exact hShelved.filed
  · rw [hUndelivered, hWaiting]
    intro parent child hLookup
    rcases hShelved.parked parent child hLookup with
      hKept | hKnown
    · exact Or.inl hKept
    · exact Or.inr (hDelivered child hKnown)

omit [Crypto H] in
theorem Shelved.of_same
    (hShelved : Shelved cx)
    (hSame : SameHoldings cx cx') :
    Shelved cx' :=
  hShelved.of_eq hSame.undeliveredBlocks
    hSame.blockParentWaiting
    (fun hash hKnown =>
      (hSame.isDelivered hash).trans hKnown)

omit [Crypto H] in
theorem Shelved.releaseVote
    (hShelved : Shelved cx)
    (hash : H) :
    Shelved (releaseVote hash cx) := by
  unfold Artemis.releaseVote
  split
  · exact hShelved
  · exact hShelved.of_eq rfl rfl (fun _ h => h)

omit [Crypto H] in
theorem isDelivered_storeBlock
    {hash : H}
    (hKnown :
      hash = BlockTrait.getHash block ∨
        cx.storage.isDeliveredByHash hash = true) :
    (storeBlock block cx).storage.isDeliveredByHash hash =
      true :=
  Storage.isDeliveredByHash_addDeliveredBlock hKnown

omit [Crypto H] in
/- A block that is stored leaves the undelivered ones. -/
theorem Shelved.store
    (hShelved : Shelved cx)
    (block : Block H) :
    Shelved
      { storeBlock block cx with
        undeliveredBlocks :=
          cx.undeliveredBlocks.erase
            (BlockTrait.getHash block) } := by
  constructor
  · exact FinMap.forall_erase hShelved.filed
  · intro parent child hLookup
    by_cases hSame : child = BlockTrait.getHash block
    · exact Or.inr (isDelivered_storeBlock (Or.inl hSame))
    · rcases hShelved.parked parent child hLookup with
        ⟨kept, hKept⟩ | hKnown
      · left
        refine ⟨kept, ?_⟩
        rw [FinMap.lookup_erase_eq, if_neg hSame]
        exact hKept
      · exact Or.inr
          (isDelivered_storeBlock (Or.inr hKnown))

omit [Crypto H] in
theorem Shelved.endWait
    (hShelved : Shelved cx)
    (hash : H) :
    Shelved
      { cx with
        blockParentWaiting :=
          cx.blockParentWaiting.erase hash } := by
  refine ⟨hShelved.filed, ?_⟩
  exact FinMap.forall_erase hShelved.parked

omit [Crypto H] in
/- The next child is stored, if it was not before. -/
theorem Shelved.deliverChild
    {hash child : H}
    (hShelved : Shelved cx)
    (hWaiting :
      cx.blockParentWaiting.lookup hash = some child) :
    Shelved (deliverChild hash child cx) ∧
      (deliverChild hash child
        cx).storage.isDeliveredByHash child = true := by
  have hTaken := hShelved.endWait hash
  unfold Artemis.deliverChild
  dsimp only
  rw [releaseVote_storage]
  split
  · rename_i hMissing
    refine ⟨hTaken.releaseVote child, ?_⟩
    rcases hShelved.parked hash child hWaiting with
      ⟨kept, hKept⟩ | hKnown
    · rw [hKept] at hMissing
      cases hMissing
    · exact hKnown
  · rename_i kept hKept
    have hHash := hShelved.filed child kept hKept
    have hStored := hTaken.store kept
    rw [hHash] at hStored
    constructor
    · exact (hStored.of_eq rfl rfl
        (fun _ h => h)).releaseVote child
    · exact isDelivered_storeBlock (Or.inl hHash.symm)

omit [Crypto H] in
theorem Shelved.beginDelivery
    (hShelved : Shelved cx)
    (block : Block H) :
    Shelved (beginDelivery block cx) :=
  (hShelved.store block).releaseVote _

omit [Crypto H] in
theorem Shelved.doDelivery
    (hShelved : Shelved cx)
    (block : Block H) :
    Shelved (doDelivery block cx) := by
  apply doDelivery_rule (fun _ now => Shelved now) Shelved
  · exact hShelved.beginDelivery block
  · intro hash child now hNow hWaiting
    exact (hNow.deliverChild hWaiting).1
  · intro last now hNow _
    exact hNow
  · intro now hNow
    exact hNow.of_eq rfl rfl (fun _ h => h)

theorem Shelved.transition
    (hShelved : Shelved node.cx)
    (hTransition : Transition node event cx') :
    Shelved cx' := by
  cases hTransition.holdings with
  | same hSame => exact hShelved.of_same hSame
  | deliver _ _ _ hEq hSame =>
      rw [hEq]
      exact (hShelved.of_same hSame).doDelivery _
  | park _ _ hSame =>
      refine Shelved.of_same ⟨?_, ?_⟩ hSame
      · exact FinMap.forall_insert hShelved.filed rfl
      · intro parent child hLookup
        dsimp only at hLookup ⊢
        rw [FinMap.lookup_insert_eq] at hLookup ⊢
        split
        · exact Or.inl ⟨_, rfl⟩
        · rename_i hOther
          split at hLookup
          · cases hLookup
            exact absurd rfl hOther
          · exact hShelved.parked parent child hLookup
  | keep _ hSame =>
      refine Shelved.of_same ?_ hSame
      exact hShelved.of_eq rfl rfl (fun _ h => h)
  | await _ hSame =>
      refine Shelved.of_same ?_ hSame
      exact hShelved.of_eq rfl rfl (fun _ h => h)
  | take hSame =>
      refine Shelved.of_same ?_ hSame
      exact hShelved.of_eq rfl rfl (fun _ h => h)

theorem shelved_new
    (config : Config) :
    Shelved (Node.new config : Node H).cx := by
  constructor
  · intro hash block hLookup
    simp [Node.new, Context.new,
      Context.announceHeightToBatcher,
      Context.tellBatcher] at hLookup
  · intro parent child hLookup
    simp [Node.new, Context.new,
      Context.announceHeightToBatcher,
      Context.tellBatcher] at hLookup

theorem Reach.shelved
    {config : Config}
    {guard : Node H → Event H → Prop}
    (hReach :
      Machine.Reach step guard (Node.new config) node) :
    Shelved node.cx := by
  apply hReach.invariant (fun node => Shelved node.cx)
    (shelved_new config)
  intro node node' event hShelved _ hStep
  exact hShelved.transition (step_transition hStep)

end Artemis

end LibApollo

------------------------------------------------------------
-- Votes of Later Rounds
------------------------------------------------------------

namespace LibApollo

namespace Artemis

variable {H : Type} [DecidableEq H] [Crypto H]
variable {cx cx' : Context H}
variable {node node' : Node H}
variable {event : Event H}
variable {round : Nat}

/-
  The step takes a vote out of the waiting ones: its block
  is delivered.
-/
def StepReleases
    (node : Node H)
    (event : Event H)
    (v : UCRVote H) : Prop :=
  ∃ hash, node.cx.voteWaiting.lookup hash = some v ∧
    ∀ node', step node event = .ok node' →
      node'.cx.voteWaiting.lookup hash = none

/- A vote that comes or is released. -/
def TakesUpVote
    (node : Node H)
    (event : Event H)
    (v : UCRVote H) : Prop :=
  NextVote node event v ∨ StepReleases node event v

omit [Crypto H] in
/-
  A delivery keeps the vote of a round, or releases a vote
  of this round.
-/
structure KeepsReady
    (round : Nat)
    (cx cx' : Context H) : Prop where
  waiting :
    ∀ hash v, cx'.voteWaiting.lookup hash = some v →
      cx.voteWaiting.lookup hash = some v
  ready :
    cx'.voteReady.lookup round =
        cx.voteReady.lookup round ∨
      ∃ hash v,
        cx.voteWaiting.lookup hash = some v ∧
          v.round = round ∧
          cx'.voteWaiting.lookup hash = none

omit [Crypto H] in
theorem KeepsReady.refl
    (round : Nat)
    (cx : Context H) :
    KeepsReady round cx cx :=
  ⟨fun _ _ h => h, Or.inl rfl⟩

omit [Crypto H] in
theorem KeepsReady.of_eq
    {now : Context H}
    (hKeeps : KeepsReady round cx cx')
    (hWaiting : now.voteWaiting = cx'.voteWaiting)
    (hReady : now.voteReady = cx'.voteReady) :
    KeepsReady round cx now := by
  constructor
  · rw [hWaiting]
    exact hKeeps.waiting
  · rw [hWaiting, hReady]
    exact hKeeps.ready

omit [Crypto H] in
theorem KeepsReady.releaseVote
    (hKeeps : KeepsReady round cx cx')
    (hash : H) :
    KeepsReady round cx (releaseVote hash cx') := by
  unfold Artemis.releaseVote
  split
  · exact hKeeps
  rename_i v hLookup
  constructor
  · exact FinMap.forall_erase hKeeps.waiting
  · dsimp only
    by_cases hRound : v.round = round
    · right
      refine ⟨hash, v, hKeeps.waiting hash v hLookup,
        hRound, ?_⟩
      rw [FinMap.lookup_erase_eq, if_pos rfl]
    · rcases hKeeps.ready with
        hSame | ⟨other, w, hOther, hOf, hGone⟩
      · left
        rw [FinMap.lookup_insert_eq,
          if_neg (fun hEq => hRound hEq.symm)]
        exact hSame
      · right
        refine ⟨other, w, hOther, hOf, ?_⟩
        rw [FinMap.lookup_erase_eq]
        split
        · rfl
        · exact hGone

omit [Crypto H] in
theorem KeepsReady.deliverChild
    (hKeeps : KeepsReady round cx cx')
    (hash child : H) :
    KeepsReady round cx (deliverChild hash child cx') := by
  unfold Artemis.deliverChild
  dsimp only
  refine KeepsReady.releaseVote ?_ child
  split
  · exact hKeeps.of_eq rfl rfl
  · exact hKeeps.of_eq rfl rfl

omit [Crypto H] in
theorem KeepsReady.doDelivery
    (block : Block H)
    (hKeeps : KeepsReady round cx cx') :
    KeepsReady round cx (doDelivery block cx') := by
  apply doDelivery_rule
    (fun _ now => KeepsReady round cx now)
    (KeepsReady round cx)
  · refine KeepsReady.releaseVote ?_ _
    exact hKeeps.of_eq rfl rfl
  · intro hash child now hNow _
    exact hNow.deliverChild hash child
  · intro last now hNow _
    exact hNow
  · intro now hNow
    exact hNow.of_eq rfl rfl

/- The vote of a later round stays ready. -/
theorem step_voteReady
    (hLater : node.cx.round < round)
    (hOther :
      ∀ v, TakesUpVote node event v → v.round ≠ round)
    (hStep : step node event = .ok node') :
    node'.cx.voteReady.lookup round =
      node.cx.voteReady.lookup round := by
  cases (step_transition hStep).holdings with
  | same hSame => rw [hSame.voteReady]
  | @deliver block mid _ _ _ hEq hSame =>
      have hMid : KeepsReady round node.cx mid :=
        (KeepsReady.refl round node.cx).of_eq
          hSame.voteWaiting hSame.voteReady
      have hKeeps := hMid.doDelivery block
      rw [← hEq] at hKeeps
      rcases hKeeps.ready with
        hReady | ⟨hash, v, hWaiting, hRound, hGone⟩
      · exact hReady
      · refine absurd hRound (hOther v (Or.inr ?_))
        refine ⟨hash, hWaiting, ?_⟩
        intro other hTaken
        cases hStep.symm.trans hTaken
        exact hGone
  | park _ _ hSame => rw [hSame.voteReady]
  | @keep v hNext hSame =>
      have hRound := hOther v (Or.inl hNext)
      rw [hSame.voteReady, FinMap.lookup_insert_eq,
        if_neg (fun hEq => hRound hEq.symm)]
  | await _ hSame => rw [hSame.voteReady]
  | take hSame =>
      rw [hSame.voteReady, FinMap.lookup_erase_eq,
        if_neg (Nat.ne_of_gt hLater)]

end Artemis

end LibApollo

------------------------------------------------------------
-- Votes for Missing Blocks
------------------------------------------------------------

namespace LibApollo

namespace Artemis

variable {H : Type} [DecidableEq H] [Crypto H]
variable {cx cx' : Context H}
variable {node node' : Node H}
variable {event : Event H}
variable {wanted : H}

omit [Crypto H] in
/- A delivery keeps the vote, or its block is delivered. -/
def KeepsWaiting
    (wanted : H)
    (cx cx' : Context H) : Prop :=
  cx'.voteWaiting.lookup wanted =
      cx.voteWaiting.lookup wanted ∨
    cx'.storage.isDeliveredByHash wanted = true

omit [Crypto H] in
theorem KeepsWaiting.of_eq
    {now : Context H}
    (hKeeps : KeepsWaiting wanted cx cx')
    (hWaiting : now.voteWaiting = cx'.voteWaiting)
    (hDelivered :
      cx'.storage.isDeliveredByHash wanted = true →
        now.storage.isDeliveredByHash wanted = true) :
    KeepsWaiting wanted cx now := by
  rcases hKeeps with hSame | hKnown
  · left
    rw [hWaiting]
    exact hSame
  · exact Or.inr (hDelivered hKnown)

omit [Crypto H] in
/- Only the vote for a delivered block is released. -/
theorem KeepsWaiting.releaseVote
    {hash : H}
    (hKeeps : KeepsWaiting wanted cx cx')
    (hKnown :
      cx'.storage.isDeliveredByHash hash = true) :
    KeepsWaiting wanted cx (releaseVote hash cx') := by
  by_cases hSame : wanted = hash
  · right
    rw [releaseVote_storage, hSame]
    exact hKnown
  · unfold Artemis.releaseVote
    split
    · exact hKeeps
    · rcases hKeeps with hOld | hDelivered
      · left
        dsimp only
        rw [FinMap.lookup_erase_eq, if_neg hSame]
        exact hOld
      · exact Or.inr hDelivered

omit [Crypto H] in
theorem KeepsWaiting.deliverChild
    {hash child : H}
    (hShelved : Shelved cx')
    (hChild :
      cx'.blockParentWaiting.lookup hash = some child)
    (hKeeps : KeepsWaiting wanted cx cx') :
    KeepsWaiting wanted cx
      (deliverChild hash child cx') := by
  have hKnown := (hShelved.deliverChild hChild).2
  unfold Artemis.deliverChild at hKnown ⊢
  dsimp only at hKnown ⊢
  rw [releaseVote_storage] at hKnown
  refine KeepsWaiting.releaseVote ?_ hKnown
  split
  · exact hKeeps.of_eq rfl (fun h => h)
  · exact hKeeps.of_eq rfl
      (fun h => isDelivered_storeBlock (Or.inr h))

omit [Crypto H] in
theorem KeepsWaiting.doDelivery
    (block : Block H)
    (hShelved : Shelved cx')
    (hKeeps : KeepsWaiting wanted cx cx') :
    KeepsWaiting wanted cx (doDelivery block cx') := by
  apply doDelivery_rule
    (fun _ now => Shelved now ∧ KeepsWaiting wanted cx now)
    (KeepsWaiting wanted cx)
  · refine ⟨hShelved.beginDelivery block, ?_⟩
    refine KeepsWaiting.releaseVote ?_ ?_
    · exact hKeeps.of_eq rfl
        (fun h => isDelivered_storeBlock (Or.inr h))
    · exact isDelivered_storeBlock (Or.inl rfl)
  · intro hash child now hNow hChild
    exact ⟨(hNow.1.deliverChild hChild).1,
      hNow.2.deliverChild hNow.1 hChild⟩
  · intro last now hNow _
    exact hNow.2
  · intro now hNow
    exact hNow.of_eq rfl (fun h => h)

/- The vote for a missing block waits for it. -/
theorem step_voteWaiting
    (hShelved : Shelved node.cx)
    (hOther :
      ∀ v, NextVote node event v → v.hash ≠ wanted)
    (hStep : step node event = .ok node')
    (hMissing :
      node'.cx.storage.isDeliveredByHash wanted = false) :
    node'.cx.voteWaiting.lookup wanted =
      node.cx.voteWaiting.lookup wanted := by
  cases (step_transition hStep).holdings with
  | same hSame => rw [hSame.voteWaiting]
  | @deliver block mid _ _ _ hEq hSame =>
      have hMid : KeepsWaiting wanted node.cx mid :=
        Or.inl (by rw [hSame.voteWaiting])
      have hKeeps :=
        hMid.doDelivery block (hShelved.of_same hSame)
      rw [← hEq] at hKeeps
      rcases hKeeps with hWaiting | hKnown
      · exact hWaiting
      · rw [hMissing] at hKnown
        cases hKnown
  | park _ _ hSame => rw [hSame.voteWaiting]
  | keep _ hSame => rw [hSame.voteWaiting]
  | @await v hNext hSame =>
      have hHash := hOther v hNext
      rw [hSame.voteWaiting, FinMap.lookup_insert_eq,
        if_neg (fun hEq => hHash hEq.symm)]
  | take hSame => rw [hSame.voteWaiting]

end Artemis

end LibApollo
