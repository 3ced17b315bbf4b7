import LibApollo.Artemis.Reactor
import LibApollo.Artemis.Rotation

/-
  Block delivery of an Artemis node.

  `do_delivery` moves a block, and then a chain of blocks
  that waited for it, from the undelivered to the delivered
  ones and releases the votes that name them.  The loop is
  reasoned about with an invariant that exempts the block
  delivered last, whose children are still to be moved.

  Key definitions include:
    * `Scope`, `Data`
    * `Delivery`

  Key theorems include:
    * `doDelivery_rule`
    * `Data.doDelivery`
    * `Delivery.doDelivery`
-/

------------------------------------------------------------
-- The Loop over Waiting Children
------------------------------------------------------------

namespace LibApollo

namespace Artemis

variable {H : Type} [DecidableEq H]

@[simp] theorem storeBlock_blockParentWaiting
    (block : Block H)
    (cx : Context H) :
    (storeBlock block cx).blockParentWaiting =
      cx.blockParentWaiting := rfl

@[simp] theorem releaseVote_blockParentWaiting
    (hash : H)
    (cx : Context H) :
    (releaseVote hash cx).blockParentWaiting =
      cx.blockParentWaiting := by
  unfold releaseVote
  split
  · rfl
  · rfl

theorem deliverChild_blockParentWaiting
    (hash child : H)
    (cx : Context H) :
    (deliverChild hash child cx).blockParentWaiting =
      cx.blockParentWaiting.erase hash := by
  unfold deliverChild
  dsimp only
  rw [releaseVote_blockParentWaiting]
  split
  · rfl
  · rfl

/-
  What every iteration preserves, for the hash delivered
  last, holds when the loop ends, and then no child waits
  for this hash.
-/
theorem deliverChildren_rule
    (P : H → Context H → Prop)
    (hNext :
      ∀ hash child cx, P hash cx →
        cx.blockParentWaiting.lookup hash = some child →
        P child (deliverChild hash child cx))
    (fuel : Nat)
    (hash : H)
    (cx : Context H)
    (hFuel : cx.blockParentWaiting.keys.card ≤ fuel)
    (hStart : P hash cx) :
    ∃ last,
      P last (deliverChildren fuel hash cx) ∧
        (deliverChildren fuel hash
          cx).blockParentWaiting.lookup last = none := by
  induction fuel generalizing hash cx with
  | zero =>
      refine ⟨hash, hStart, ?_⟩
      exact FinMap.lookup_eq_none_of_card_eq_zero
        (Nat.le_zero.mp hFuel) hash
  | succ fuel ih =>
      unfold deliverChildren
      cases hLookup : cx.blockParentWaiting.lookup hash with
      | none => exact ⟨hash, hStart, hLookup⟩
      | some child =>
          dsimp only
          apply ih
          · rw [deliverChild_blockParentWaiting]
            have hLess :=
              FinMap.card_keys_erase_lt hLookup
            omega
          · exact hNext hash child cx hStart hLookup

/- The context in which the loop of a delivery starts. -/
def beginDelivery
    (block : Block H)
    (cx : Context H) : Context H :=
  let stored := storeBlock block cx
  releaseVote (BlockTrait.getHash block)
    { stored with
      undeliveredBlocks :=
        stored.undeliveredBlocks.erase
          (BlockTrait.getHash block) }

/- A rule for deliveries, from their start to their end. -/
theorem doDelivery_rule
    (P : H → Context H → Prop)
    (Q : Context H → Prop)
    {block : Block H}
    {cx : Context H}
    (hStart :
      P (BlockTrait.getHash block) (beginDelivery block cx))
    (hNext :
      ∀ hash child cx, P hash cx →
        cx.blockParentWaiting.lookup hash = some child →
        P child (deliverChild hash child cx))
    (hEnd :
      ∀ last cx, P last cx →
        cx.blockParentWaiting.lookup last = none → Q cx)
    (hTell : ∀ cx, Q cx → Q cx.announceHeightToBatcher) :
    Q (doDelivery block cx) := by
  have hLoop :
      Q (deliverChildren
        (beginDelivery block
          cx).blockParentWaiting.keys.card
        (BlockTrait.getHash block)
        (beginDelivery block cx)) := by
    rcases deliverChildren_rule P hNext
        (beginDelivery block
          cx).blockParentWaiting.keys.card
        (BlockTrait.getHash block) (beginDelivery block cx)
        (Nat.le_refl _) hStart with ⟨last, hLast, hNone⟩
    exact hEnd last _ hLast hNone
  unfold doDelivery
  dsimp only
  split
  · exact hTell _ hLoop
  · exact hLoop

end Artemis

end LibApollo

------------------------------------------------------------
-- What a Delivery Leaves Alone
------------------------------------------------------------

namespace LibApollo

namespace Artemis

variable {H : Type} [DecidableEq H]

/-
  The context differs in the delivered and the waiting
  blocks and votes and in the batcher channel only.
-/
def DeliveryOnly (cx cx' : Context H) : Prop :=
  ∃ storage lastSeenBlock undeliveredBlocks voteWaiting
      voteReady blockParentWaiting toBatcher,
    cx' =
        { cx with
          storage := storage
          lastSeenBlock := lastSeenBlock
          undeliveredBlocks := undeliveredBlocks
          voteWaiting := voteWaiting
          voteReady := voteReady
          blockParentWaiting := blockParentWaiting
          txConsensusToBatcher := toBatcher } ∧
      storage.committedBlocksByHash =
        cx.storage.committedBlocksByHash

theorem DeliveryOnly.refl
    (cx : Context H) : DeliveryOnly cx cx :=
  ⟨_, _, _, _, _, _, _, rfl, rfl⟩

theorem DeliveryOnly.trans
    {cx cx' cx'' : Context H}
    (hFirst : DeliveryOnly cx cx')
    (hSecond : DeliveryOnly cx' cx'') :
    DeliveryOnly cx cx'' := by
  rcases hFirst with
    ⟨_, _, _, _, _, _, _, rfl, hCommitted⟩
  rcases hSecond with
    ⟨_, _, _, _, _, _, _, rfl, hCommitted'⟩
  exact ⟨_, _, _, _, _, _, _, rfl,
    hCommitted'.trans hCommitted⟩

theorem releaseVote_deliveryOnly
    (hash : H)
    (cx : Context H) :
    DeliveryOnly cx (releaseVote hash cx) := by
  unfold releaseVote
  split
  · exact DeliveryOnly.refl cx
  · exact ⟨_, _, _, _, _, _, _, rfl, rfl⟩

theorem deliverChild_deliveryOnly
    (hash child : H)
    (cx : Context H) :
    DeliveryOnly cx (deliverChild hash child cx) := by
  unfold deliverChild
  dsimp only
  refine DeliveryOnly.trans ?_
    (releaseVote_deliveryOnly child _)
  split
  · exact ⟨_, _, _, _, _, _, _, rfl, rfl⟩
  · exact ⟨_, _, _, _, _, _, _, rfl, rfl⟩

theorem doDelivery_deliveryOnly
    (block : Block H)
    (cx : Context H) :
    DeliveryOnly cx (doDelivery block cx) := by
  apply doDelivery_rule
    (fun _ now => DeliveryOnly cx now) (DeliveryOnly cx)
  · refine DeliveryOnly.trans ?_
      (releaseVote_deliveryOnly _ _)
    exact ⟨_, _, _, _, _, _, _, rfl, rfl⟩
  · intro hash child now hNow _
    exact hNow.trans (deliverChild_deliveryOnly _ _ _)
  · intro last now hNow _
    exact hNow
  · intro now hNow
    exact hNow.trans ⟨_, _, _, _, _, _, _, rfl, rfl⟩

end Artemis

end LibApollo

------------------------------------------------------------
-- Scopes
------------------------------------------------------------

namespace LibApollo

namespace Artemis

variable {H : Type} [DecidableEq H]

/- Which votes and blocks may occur at a node. -/
structure Scope (H : Type) where
  okVote : UCRVote H → Prop
  okBlock : Block H → Prop

/- A message other than `Blame` with content in scope. -/
def Scope.OkMsg
    (scope : Scope H) : ProtocolMsg H → Prop
| .newBlock block _ => scope.okBlock block
| .ucrVote v => scope.okVote v
| .relay _ v => scope.okVote v
| .blame _ => False
| .request _ _ _ => True
| .response _ _ block _ => scope.okBlock block
| .invalid => True

/- The messages that are queued in `otherBuf`. -/
def Scope.OkOther
    (scope : Scope H) : ProtocolMsg H → Prop
| .ucrVote v => scope.okVote v
| .relay _ v => scope.okVote v
| .request _ _ _ => True
| _ => False

/- Everything a context holds or has sent is in scope. -/
structure Data
    (scope : Scope H)
    (cx : Context H) : Prop where
  blocks :
    ∀ x ∈ cx.blockProcessingWaiting, scope.okBlock x.1
  responses :
    ∀ x ∈ cx.responseWaiting, scope.okBlock x.2.1
  otherBuf : ∀ msg ∈ cx.otherBuf, scope.OkOther msg
  voteWaiting :
    ∀ hash v, cx.voteWaiting.lookup hash = some v →
      scope.okVote v
  voteReady :
    ∀ round v, cx.voteReady.lookup round = some v →
      scope.okVote v
  voteChain :
    ∀ round v, cx.voteChain.lookup round = some v →
      scope.okVote v
  undelivered :
    ∀ hash block,
      cx.undeliveredBlocks.lookup hash = some block →
        scope.okBlock block
  delivered :
    ∀ hash block,
      cx.storage.deliveredBlockFromHash hash =
          some block →
        scope.okBlock block
  lastSeen : scope.okBlock cx.lastSeenBlock
  lastVoted : scope.okBlock cx.lastVotedBlock
  outbox : ∀ x ∈ cx.outbox, scope.OkMsg x.2

variable {scope : Scope H}

omit [DecidableEq H] in
theorem Scope.OkMsg.mono
    {scope' : Scope H}
    {msg : ProtocolMsg H}
    (hVote : ∀ v, scope.okVote v → scope'.okVote v)
    (hBlock :
      ∀ block, scope.okBlock block →
        scope'.okBlock block)
    (hMsg : scope.OkMsg msg) :
    scope'.OkMsg msg := by
  cases msg with
  | newBlock block batch => exact hBlock block hMsg
  | ucrVote v => exact hVote v hMsg
  | relay sender v => exact hVote v hMsg
  | response sender reqId block batch =>
      exact hBlock block hMsg
  | blame v => exact hMsg
  | request sender reqId hash => trivial
  | invalid => trivial

/- A wider scope has room for the same data. -/
theorem Data.mono
    {scope' : Scope H}
    {cx : Context H}
    (hVote : ∀ v, scope.okVote v → scope'.okVote v)
    (hBlock :
      ∀ block, scope.okBlock block →
        scope'.okBlock block)
    (hData : Data scope cx) :
    Data scope' cx where
  blocks := fun x hMem => hBlock _ (hData.blocks x hMem)
  responses := fun x hMem =>
    hBlock _ (hData.responses x hMem)
  otherBuf := by
    intro msg hMem
    have hOther := hData.otherBuf msg hMem
    cases msg with
    | ucrVote v => exact hVote v hOther
    | relay sender v => exact hVote v hOther
    | request sender reqId hash => trivial
    | newBlock block batch => exact hOther
    | response sender reqId block batch => exact hOther
    | blame v => exact hOther
    | invalid => exact hOther
  voteWaiting := fun hash v hLookup =>
    hVote v (hData.voteWaiting hash v hLookup)
  voteReady := fun round v hLookup =>
    hVote v (hData.voteReady round v hLookup)
  voteChain := fun round v hLookup =>
    hVote v (hData.voteChain round v hLookup)
  undelivered := fun hash block hLookup =>
    hBlock block (hData.undelivered hash block hLookup)
  delivered := fun hash block hLookup =>
    hBlock block (hData.delivered hash block hLookup)
  lastSeen := hBlock _ hData.lastSeen
  lastVoted := hBlock _ hData.lastVoted
  outbox := fun x hMem =>
    (hData.outbox x hMem).mono hVote hBlock

theorem Data.storeBlock
    {block : Block H}
    {cx : Context H}
    (hData : Data scope cx)
    (hBlock : scope.okBlock block) :
    Data scope (storeBlock block cx) := by
  refine { hData with delivered := ?_, lastSeen := ?_ }
  · exact Storage.forall_addDeliveredBlock hData.delivered
      hBlock
  · unfold Artemis.storeBlock
    dsimp only
    split
    · exact hBlock
    · exact hData.lastSeen

theorem Data.releaseVote
    {hash : H}
    {cx : Context H}
    (hData : Data scope cx) :
    Data scope (releaseVote hash cx) := by
  unfold Artemis.releaseVote
  split
  · exact hData
  · rename_i v hLookup
    have hVote := hData.voteWaiting hash v hLookup
    refine { hData with
      voteWaiting := ?_
      voteReady := ?_ }
    · exact FinMap.forall_erase hData.voteWaiting
    · exact FinMap.forall_insert hData.voteReady hVote

theorem Data.forget
    {hash : H}
    {cx : Context H}
    (hData : Data scope cx) :
    Data scope
      { cx with
        undeliveredBlocks :=
          cx.undeliveredBlocks.erase hash } := by
  refine { hData with undelivered := ?_ }
  exact FinMap.forall_erase hData.undelivered

theorem Data.deliverChild
    {hash child : H}
    {cx : Context H}
    (hData : Data scope cx) :
    Data scope (deliverChild hash child cx) := by
  unfold Artemis.deliverChild
  dsimp only
  apply Data.releaseVote
  split
  · exact { hData with }
  · rename_i block hLookup
    apply Data.storeBlock
    · have hTaken :
          Data scope
            { cx with
              blockParentWaiting :=
                cx.blockParentWaiting.erase hash } :=
        { hData with }
      exact hTaken.forget
    · exact hData.undelivered child block hLookup

theorem Data.doDelivery
    {block : Block H}
    {cx : Context H}
    (hData : Data scope cx)
    (hBlock : scope.okBlock block) :
    Data scope (doDelivery block cx) := by
  apply doDelivery_rule (fun _ => Data scope) (Data scope)
  · exact ((hData.storeBlock hBlock).forget).releaseVote
  · intro hash child now hNow _
    exact hNow.deliverChild
  · intro last now hNow _
    exact hNow
  · intro now hNow
    exact { hNow with }

end Artemis

end LibApollo

------------------------------------------------------------
-- Growth of the Delivered Blocks
------------------------------------------------------------

namespace LibApollo

namespace Artemis

variable {H : Type} [DecidableEq H]

/- Delivered blocks stay, up to their signature. -/
def Grows (cx cx' : Context H) : Prop :=
  ∀ hash block,
    cx.storage.deliveredBlockFromHash hash = some block →
      ∃ block',
        cx'.storage.deliveredBlockFromHash hash =
            some block' ∧
          block'.blk = block.blk

theorem Grows.refl (cx : Context H) : Grows cx cx :=
  fun _ block hLookup => ⟨block, hLookup, rfl⟩

theorem Grows.trans
    {cx cx' cx'' : Context H}
    (hFirst : Grows cx cx')
    (hSecond : Grows cx' cx'') :
    Grows cx cx'' := by
  intro hash block hLookup
  rcases hFirst hash block hLookup with
    ⟨block', hLookup', hSame⟩
  rcases hSecond hash block' hLookup' with
    ⟨block'', hLookup'', hSame'⟩
  exact ⟨block'', hLookup'', hSame'.trans hSame⟩

theorem Grows.of_eq
    {cx cx' : Context H}
    (hEq :
      ∀ hash,
        cx'.storage.deliveredBlockFromHash hash =
          cx.storage.deliveredBlockFromHash hash) :
    Grows cx cx' := by
  intro hash block hLookup
  exact ⟨block, (hEq hash).trans hLookup, rfl⟩

theorem Grows.isDelivered
    {cx cx' : Context H}
    {hash : H}
    (hGrows : Grows cx cx')
    (hDelivered :
      cx.storage.isDeliveredByHash hash = true) :
    cx'.storage.isDeliveredByHash hash = true := by
  rw [Storage.isDeliveredByHash_iff] at hDelivered ⊢
  rcases hDelivered with ⟨block, hLookup⟩
  rcases hGrows hash block hLookup with ⟨block', hNow, _⟩
  exact ⟨block', hNow⟩

theorem Grows.parent
    {cx cx' : Context H}
    (hGrows : Grows cx cx')
    (hash above : H)
    (hParent : cx.storage.parent hash = some above) :
    cx'.storage.parent hash = some above := by
  rcases Storage.exists_delivered_of_parent hParent with
    ⟨block, hLookup, hPrev⟩
  rcases hGrows hash block hLookup with
    ⟨block', hNow, hSame⟩
  rw [Storage.parent_of_delivered hNow, ← hPrev]
  change some block'.blk.header.prev =
    some block.blk.header.prev
  rw [hSame]

theorem Grows.tellBatcher
    (cx : Context H)
    (msg : BatcherConsensusMsg Transaction) :
    Grows cx (cx.tellBatcher msg) :=
  Grows.refl cx

variable [Crypto H]

/- A scope whose blocks are identified by their hash. -/
def Scope.Proper (scope : Scope H) : Prop :=
  ∀ block, scope.okBlock block → block.blk.Proper

omit [DecidableEq H] in
/- Blocks in scope with one hash have one content. -/
theorem Scope.Proper.blk_eq
    {scope : Scope H}
    {left right : Block H}
    (hFree : CollisionFree H)
    (hProper : scope.Proper)
    (hLeft : scope.okBlock left)
    (hRight : scope.okBlock right)
    (hHash :
      BlockTrait.getHash left = BlockTrait.getHash right) :
    left.blk = right.blk :=
  LibApollo.Block.Proper.eq_of_hash_eq hFree
    (hProper left hLeft) (hProper right hRight) hHash

theorem storeBlock_grows
    {scope : Scope H}
    {block : Block H}
    {cx : Context H}
    (hFree : CollisionFree H)
    (hProper : scope.Proper)
    (hData : Data scope cx)
    (hBlock : scope.okBlock block) :
    Grows cx (storeBlock block cx) := by
  intro hash stored hLookup
  change ∃ block',
    (cx.storage.addDeliveredBlock
        block).deliveredBlockFromHash hash = some block' ∧
      block'.blk = stored.blk
  rw [Storage.addDeliveredBlock_deliveredBlockFromHash]
  by_cases hHash : hash = BlockTrait.getHash block
  · rw [if_pos hHash]
    refine ⟨block, rfl, ?_⟩
    apply hProper.blk_eq hFree hBlock
      (hData.delivered hash stored hLookup)
    rw [Storage.getHash_of_delivered hLookup, hHash]
  · rw [if_neg hHash]
    exact ⟨stored, hLookup, rfl⟩

omit [Crypto H] in
theorem releaseVote_storage
    (hash : H)
    (cx : Context H) :
    (releaseVote hash cx).storage = cx.storage := by
  unfold releaseVote
  split
  · rfl
  · rfl

omit [Crypto H] in
theorem releaseVote_grows
    (hash : H)
    (cx : Context H) :
    Grows cx (releaseVote hash cx) := by
  apply Grows.of_eq
  intro other
  rw [releaseVote_storage]

theorem deliverChild_grows
    {scope : Scope H}
    {hash child : H}
    {cx : Context H}
    (hFree : CollisionFree H)
    (hProper : scope.Proper)
    (hData : Data scope cx) :
    Grows cx (deliverChild hash child cx) := by
  unfold deliverChild
  dsimp only
  refine Grows.trans ?_ (releaseVote_grows child _)
  split
  · exact Grows.refl cx
  · rename_i block hLookup
    exact storeBlock_grows hFree hProper hData
      (hData.undelivered child block hLookup)

theorem doDelivery_grows
    {scope : Scope H}
    {block : Block H}
    {cx : Context H}
    (hFree : CollisionFree H)
    (hProper : scope.Proper)
    (hData : Data scope cx)
    (hBlock : scope.okBlock block) :
    Grows cx (doDelivery block cx) := by
  apply doDelivery_rule
    (fun _ now => Data scope now ∧ Grows cx now)
    (Grows cx)
  · refine
      ⟨((hData.storeBlock hBlock).forget).releaseVote, ?_⟩
    have hForgot :
        Grows cx
          { storeBlock block cx with
            undeliveredBlocks :=
              (storeBlock block cx).undeliveredBlocks.erase
                (BlockTrait.getHash block) } :=
      storeBlock_grows hFree hProper hData hBlock
    exact hForgot.trans (releaseVote_grows _ _)
  · intro hash child now hParts _
    rcases hParts with ⟨hNow, hGrows⟩
    exact ⟨hNow.deliverChild,
      hGrows.trans
        (deliverChild_grows hFree hProper hNow)⟩
  · intro last now hParts _
    rcases hParts with ⟨_, hGrows⟩
    exact hGrows
  · intro now hGrows
    exact hGrows.trans (Grows.tellBatcher _ _)

end Artemis

end LibApollo

------------------------------------------------------------
-- The Delivery Invariant
------------------------------------------------------------

namespace LibApollo

namespace Artemis

variable {H : Type} [DecidableEq H] [Crypto H]

/-
  The joint invariant of the five maps of a delivery.  The
  blocks in `free` may be delivered while children still
  wait for them.
-/
structure Delivery
    (free : H → Prop)
    (cx : Context H) : Prop where
  genesis :
    cx.storage.isDeliveredByHash Crypto.emptyHash = true
  closed :
    ∀ hash block,
      cx.storage.deliveredBlockFromHash hash =
          some block →
        cx.storage.isDeliveredByHash
          (BlockTrait.getPrev block) = true
  parked :
    ∀ prev hash,
      cx.blockParentWaiting.lookup prev = some hash →
        ∃ block,
          cx.undeliveredBlocks.lookup hash = some block ∧
            BlockTrait.getHash block = hash ∧
            BlockTrait.getPrev block = prev
  blocked :
    ∀ prev hash,
      cx.blockParentWaiting.lookup prev = some hash →
        ¬ free prev →
          cx.storage.isDeliveredByHash prev = false
  undelivered :
    ∀ hash block,
      cx.undeliveredBlocks.lookup hash = some block →
        BlockTrait.getHash block = hash
  ready :
    ∀ round v, cx.voteReady.lookup round = some v →
      v.round = round ∧
        cx.storage.isDeliveredByHash v.hash = true
  waiting :
    ∀ hash v, cx.voteWaiting.lookup hash = some v →
      v.hash = hash

/- The invariant between deliveries. -/
abbrev Settled (cx : Context H) : Prop :=
  Delivery (fun _ => False) cx

/- A block is stored whose parent is delivered. -/
theorem Delivery.storeBlock
    {scope : Scope H}
    {free : H → Prop}
    {block : Block H}
    {cx : Context H}
    (hFree : CollisionFree H)
    (hProper : scope.Proper)
    (hData : Data scope cx)
    (hBlock : scope.okBlock block)
    (hPrev :
      cx.storage.isDeliveredByHash
        (BlockTrait.getPrev block) = true)
    (hInv : Delivery free cx) :
    Delivery
      (fun hash =>
        free hash ∨ hash = BlockTrait.getHash block)
      (storeBlock block cx) := by
  have hGrows :=
    storeBlock_grows hFree hProper hData hBlock
  refine
    { genesis := hGrows.isDelivered hInv.genesis
      closed := ?_
      parked := hInv.parked
      blocked := ?_
      undelivered := hInv.undelivered
      ready := ?_
      waiting := hInv.waiting }
  · apply Storage.forall_addDeliveredBlock
    · intro hash stored hLookup
      exact hGrows.isDelivered
        (hInv.closed hash stored hLookup)
    · exact hGrows.isDelivered hPrev
  · intro prev hash hLookup hNotFree
    rw [not_or] at hNotFree
    have hBlocked :=
      hInv.blocked prev hash hLookup hNotFree.1
    unfold Storage.isDeliveredByHash at hBlocked ⊢
    change ((cx.storage.addDeliveredBlock
      block).deliveredBlockFromHash prev).isSome = false
    rw [Storage.addDeliveredBlock_deliveredBlockFromHash,
      if_neg hNotFree.2]
    exact hBlocked
  · intro round v hLookup
    rcases hInv.ready round v hLookup with
      ⟨hRound, hDelivered⟩
    exact ⟨hRound, hGrows.isDelivered hDelivered⟩

/- The vote for a delivered block becomes ready. -/
theorem Delivery.releaseVote
    {free : H → Prop}
    {hash : H}
    {cx : Context H}
    (hInv : Delivery free cx)
    (hDelivered :
      cx.storage.isDeliveredByHash hash = true) :
    Delivery free (releaseVote hash cx) := by
  unfold Artemis.releaseVote
  split
  · exact hInv
  · rename_i v hLookup
    have hName := hInv.waiting hash v hLookup
    refine { hInv with
      ready := ?_
      waiting := ?_ }
    · intro round w hOther
      rw [FinMap.lookup_insert_eq] at hOther
      split at hOther
      · rename_i hRound
        cases hOther
        refine ⟨hRound.symm, ?_⟩
        rw [hName]
        exact hDelivered
      · exact hInv.ready round w hOther
    · exact FinMap.forall_erase hInv.waiting

/- A block for which no entry waits is forgotten. -/
theorem Delivery.forget
    {free : H → Prop}
    {hash : H}
    {cx : Context H}
    (hInv : Delivery free cx)
    (hNoEntry :
      ∀ prev,
        cx.blockParentWaiting.lookup prev ≠ some hash) :
    Delivery free
      { cx with
        undeliveredBlocks :=
          cx.undeliveredBlocks.erase hash } := by
  refine { hInv with
    parked := ?_
    undelivered := ?_ }
  · intro prev child hLookup
    have hOther : child ≠ hash := by
      intro hSame
      rw [hSame] at hLookup
      exact hNoEntry prev hLookup
    dsimp only
    rw [FinMap.lookup_erase_eq, if_neg hOther]
    exact hInv.parked prev child hLookup
  · exact FinMap.forall_erase hInv.undelivered

/- The entry of the block delivered last is taken. -/
theorem Delivery.take
    {hash : H}
    {cx : Context H}
    (hInv : Delivery (fun prev => prev = hash) cx) :
    Settled
      { cx with
        blockParentWaiting :=
          cx.blockParentWaiting.erase hash } := by
  refine { hInv with
    parked := ?_
    blocked := ?_ }
  · exact FinMap.forall_erase hInv.parked
  · intro prev child hLookup _
    rw [FinMap.lookup_erase_eq] at hLookup
    split at hLookup
    · cases hLookup
    · rename_i hOther
      exact hInv.blocked prev child hLookup hOther

theorem Delivery.free_mono
    {free free' : H → Prop}
    {cx : Context H}
    (hMono : ∀ hash, free hash → free' hash)
    (hInv : Delivery free cx) :
    Delivery free' cx :=
  { hInv with
    blocked := fun prev hash hLookup hNotFree =>
      hInv.blocked prev hash hLookup
        (fun hPrev => hNotFree (hMono prev hPrev)) }

end Artemis

end LibApollo

------------------------------------------------------------
-- Deliveries Keep the Invariant
------------------------------------------------------------

namespace LibApollo

namespace Artemis

variable {H : Type} [DecidableEq H] [Crypto H]

omit [Crypto H] in
theorem storeBlock_isDelivered
    (block : Block H)
    (cx : Context H) :
    (storeBlock block cx).storage.isDeliveredByHash
      (BlockTrait.getHash block) = true := by
  rw [Storage.isDeliveredByHash_iff]
  exact ⟨block, Storage.addDeliveredBlock_self _ _⟩

/- An iteration moves on to the child it delivers. -/
theorem Delivery.deliverChild
    {scope : Scope H}
    {hash child : H}
    {cx : Context H}
    (hFree : CollisionFree H)
    (hProper : scope.Proper)
    (hData : Data scope cx)
    (hDelivered :
      cx.storage.isDeliveredByHash hash = true)
    (hEntry :
      cx.blockParentWaiting.lookup hash = some child)
    (hInv : Delivery (fun prev => prev = hash) cx) :
    Delivery (fun prev => prev = child)
        (deliverChild hash child cx) ∧
      (Artemis.deliverChild hash child
        cx).storage.isDeliveredByHash child = true := by
  rcases hInv.parked hash child hEntry with
    ⟨block, hParked, hHash, hPrev⟩
  have hTaken := hInv.take
  have hDataTaken :
      Data scope
        { cx with
          blockParentWaiting :=
            cx.blockParentWaiting.erase hash } :=
    { hData with }
  -- the entry that was taken is the only one for the child
  have hNoEntry :
      ∀ prev,
        (cx.blockParentWaiting.erase hash).lookup prev ≠
          some child := by
    intro prev hLookup
    rw [FinMap.lookup_erase_eq] at hLookup
    split at hLookup
    · cases hLookup
    · rename_i hOther
      rcases hInv.parked prev child hLookup with
        ⟨block', hParked', _, hPrev'⟩
      rw [hParked] at hParked'
      cases hParked'
      exact hOther (hPrev'.symm.trans hPrev)
  have hForgot := hTaken.forget hNoEntry
  have hStored :=
    hForgot.storeBlock hFree hProper hDataTaken.forget
      (hData.undelivered child block hParked)
      (by rw [hPrev]; exact hDelivered)
  have hChild :
      (Artemis.storeBlock block
        { cx with
          blockParentWaiting :=
            cx.blockParentWaiting.erase hash
          undeliveredBlocks :=
            cx.undeliveredBlocks.erase
              child }).storage.isDeliveredByHash child =
        true := by
    have hSelf := storeBlock_isDelivered block
      { cx with
        blockParentWaiting :=
          cx.blockParentWaiting.erase hash
        undeliveredBlocks :=
          cx.undeliveredBlocks.erase child }
    rwa [hHash] at hSelf
  unfold Artemis.deliverChild
  simp only [hParked]
  constructor
  · refine Delivery.free_mono ?_
      (hStored.releaseVote hChild)
    intro prev hCases
    rcases hCases with hNever | hSame
    · exact hNever.elim
    · exact hSame.trans hHash
  · rw [releaseVote_storage]
    exact hChild

/- A delivery settles with the block and its children. -/
theorem Delivery.doDelivery
    {scope : Scope H}
    {block : Block H}
    {cx : Context H}
    (hFree : CollisionFree H)
    (hProper : scope.Proper)
    (hData : Data scope cx)
    (hBlock : scope.okBlock block)
    (hPrev :
      cx.storage.isDeliveredByHash
        (BlockTrait.getPrev block) = true)
    (hInv : Settled cx) :
    Settled (doDelivery block cx) := by
  apply doDelivery_rule
    (fun hash now =>
      Data scope now ∧
        Delivery (fun prev => prev = hash) now ∧
        now.storage.isDeliveredByHash hash = true)
    Settled
  · have hSelf := storeBlock_isDelivered block cx
    -- an entry for the block would wait for its parent
    have hNoEntry :
        ∀ prev,
          cx.blockParentWaiting.lookup prev ≠
            some (BlockTrait.getHash block) := by
      intro prev hLookup
      rcases hInv.parked prev _ hLookup with
        ⟨waiting, hParked, hHash, hWaits⟩
      have hBlocked :=
        hInv.blocked prev _ hLookup (fun hNo => hNo)
      have hSame : waiting.blk = block.blk :=
        hProper.blk_eq hFree
          (hData.undelivered _ _ hParked) hBlock hHash
      have hSamePrev :
          prev = BlockTrait.getPrev block := by
        rw [← hWaits]
        change waiting.blk.header.prev =
          block.blk.header.prev
        rw [hSame]
      rw [hSamePrev, hPrev] at hBlocked
      cases hBlocked
    have hStored :=
      hInv.storeBlock hFree hProper hData hBlock hPrev
    refine
      ⟨((hData.storeBlock hBlock).forget).releaseVote,
        ?_, ?_⟩
    · have hForgot := hStored.forget hNoEntry
      refine Delivery.free_mono ?_
        (hForgot.releaseVote hSelf)
      intro prev hCases
      rcases hCases with hNever | hSame
      · exact hNever.elim
      · exact hSame
    · unfold beginDelivery
      dsimp only
      rw [releaseVote_storage]
      exact hSelf
  · intro hash child now hParts hEntry
    rcases hParts with ⟨hNow, hDelivery, hDelivered⟩
    rcases hDelivery.deliverChild hFree hProper hNow
        hDelivered hEntry with ⟨hNext, hChild⟩
    exact ⟨hNow.deliverChild, hNext, hChild⟩
  · intro last now hParts hNone
    rcases hParts with ⟨_, hDelivery, _⟩
    refine { hDelivery with blocked := ?_ }
    intro prev hash hLookup _
    apply hDelivery.blocked prev hash hLookup
    intro hSame
    rw [hSame, hNone] at hLookup
    cases hLookup
  · intro now hNow
    exact { hNow with }

/- A block is parked until its parent arrives. -/
theorem Delivery.awaitParent
    {scope : Scope H}
    {block : Block H}
    {cx : Context H}
    (hInv : Settled cx)
    (hFree : CollisionFree H)
    (hProper : scope.Proper)
    (hData : Data scope cx)
    (hBlock : scope.okBlock block)
    (hMissing :
      cx.storage.isDeliveredByHash
        (BlockTrait.getPrev block) = false) :
    Settled
      { cx with
        blockParentWaiting :=
          cx.blockParentWaiting.insert
            (BlockTrait.getPrev block)
            (BlockTrait.getHash block)
        undeliveredBlocks :=
          cx.undeliveredBlocks.insert
            (BlockTrait.getHash block) block } := by
  refine { hInv with
    parked := ?_
    blocked := ?_
    undelivered := ?_ }
  · intro prev hash hLookup
    dsimp only
    rw [FinMap.lookup_insert_eq] at hLookup ⊢
    split at hLookup
    · rename_i hPrev
      cases hLookup
      rw [if_pos rfl]
      exact ⟨block, rfl, rfl, hPrev.symm⟩
    · rcases hInv.parked prev hash hLookup with
        ⟨parked, hParked, hHash, hWaits⟩
      -- another block under this hash has this parent too
      by_cases hSame : hash = BlockTrait.getHash block
      · rw [if_pos hSame]
        have hContent : parked.blk = block.blk :=
          hProper.blk_eq hFree
            (hData.undelivered hash parked hParked) hBlock
            (hHash.trans hSame)
        refine ⟨block, rfl, hSame.symm, ?_⟩
        rw [← hWaits]
        change block.blk.header.prev =
          parked.blk.header.prev
        rw [hContent]
      · rw [if_neg hSame]
        exact ⟨parked, hParked, hHash, hWaits⟩
  · intro prev hash hLookup hNotFree
    rw [FinMap.lookup_insert_eq] at hLookup
    split at hLookup
    · rename_i hPrev
      rw [hPrev]
      exact hMissing
    · exact hInv.blocked prev hash hLookup hNotFree
  · exact FinMap.forall_insert hInv.undelivered rfl

end Artemis

end LibApollo
