import LibApollo.Mempool.Committer

/-
  The order of commits at nodes that share one chain.

  A log in which parents come first can list the blocks of a
  chain in one order only.  So what two nodes on one chain
  have told their routers differs in length alone.

  Key definitions include:
    * `Committer.OnChain`

  Key theorems include:
    * `Storage.AncestorsFirst.hashes_eq`
    * `Committer.Moves.router_grows`
    * `Committer.router_comparable`
-/

------------------------------------------------------------
-- Logs on a Chain
------------------------------------------------------------

namespace LibApollo

namespace Storage

variable {H B : Type} [DecidableEq H] [BlockTrait B H]
variable {chain : Nat → H}
variable {top : Nat}
variable {log : List B}

omit [DecidableEq H] in
/- Blocks of a chain, parents first and without repetition. -/
theorem AncestorsFirst.hashes_eq
    (hInjective :
      ∀ j k, j ≤ top → k ≤ top → chain j = chain k → j = k)
    (hOrder : AncestorsFirst (chain 0) log)
    (hOnce : (log.map BlockTrait.getHash).Nodup)
    (hOn :
      ∀ block ∈ log,
        ∃ k, k ≤ top ∧ BlockTrait.getHash block = chain k ∧
          (0 < k →
            BlockTrait.getPrev block = chain (k - 1))) :
    log.map BlockTrait.getHash =
      (List.range log.length).map chain := by
  induction hOrder with
  | nil => rfl
  | @snoc log block _ hParent ih =>
      rw [List.map_append, List.map_singleton] at hOnce
      have hApart := List.nodup_append.mp hOnce
      have hNew :
          BlockTrait.getHash block ∉
            log.map BlockTrait.getHash := by
        intro hMem
        exact hApart.2.2 _ hMem _
          (List.mem_singleton_self _) rfl
      have hBefore :=
        ih hApart.1
          (fun other hMem =>
            hOn other (List.mem_append_left _ hMem))
      rcases hOn block (by simp) with
        ⟨k, hBound, hHash, hPrev⟩
      have hAbove : log.length ≤ k := by
        by_contra hBelow
        apply hNew
        rw [hBefore, hHash]
        exact List.mem_map_of_mem
          (List.mem_range.mpr (Nat.not_le.mp hBelow))
      have hNext : k ≤ log.length := by
        by_cases hZero : k = 0
        · omega
        · rcases hParent with hRoot | hMem
          · rw [hHash] at hRoot
            exact absurd
              (hInjective k 0 hBound (Nat.zero_le top) hRoot)
              hZero
          · rw [hPrev (Nat.pos_of_ne_zero hZero), hBefore]
              at hMem
            rcases List.mem_map.mp hMem with
              ⟨j, hRange, hEq⟩
            have hLess := List.mem_range.mp hRange
            have hSame :=
              hInjective j (k - 1) (by omega) (by omega) hEq
            omega
      have hLast : log.length = k :=
        Nat.le_antisymm hAbove hNext
      rw [List.map_append, List.length_append,
        List.map_singleton, List.length_singleton,
        List.range_succ, List.map_append, hBefore, hHash,
        hLast]
      rfl

end Storage

end LibApollo

------------------------------------------------------------
-- What Two Nodes Tell
------------------------------------------------------------

namespace LibApollo

variable {H B : Type} [DecidableEq H] [BlockTrait B H]
variable {batchHashOf : B → H}
variable {root : H}

/- Logs of the same blocks have the same batches. -/
theorem batchHashes_congr
    {left right : List B}
    (hHashes :
      left.map BlockTrait.getHash =
        right.map (BlockTrait.getHash : B → H))
    (hSame :
      ∀ block ∈ left, ∀ other ∈ right,
        (BlockTrait.getHash block : H) =
            BlockTrait.getHash other →
          batchHashOf block = batchHashOf other) :
    batchHashes batchHashOf root left =
      batchHashes batchHashOf root right := by
  induction left generalizing right with
  | nil =>
      rw [List.map_nil] at hHashes
      rw [List.map_eq_nil_iff.mp hHashes.symm]
  | cons block left ih =>
      cases right with
      | nil => cases hHashes
      | cons other right =>
          rw [List.map_cons, List.map_cons,
            List.cons.injEq] at hHashes
          rcases hHashes with ⟨hHash, hRest⟩
          have hTail :=
            ih hRest
              (fun x hLeft y hRight =>
                hSame x (List.mem_cons_of_mem _ hLeft) y
                  (List.mem_cons_of_mem _ hRight))
          have hHead :=
            hSame block List.mem_cons_self other
              List.mem_cons_self hHash
          unfold batchHashes at hTail ⊢
          by_cases hRoot : BlockTrait.getHash other = root
          · rw [List.filter_cons, List.filter_cons, hHash,
              if_neg (by simp [hRoot]),
              if_neg (by simp [hRoot])]
            exact hTail
          · rw [List.filter_cons, List.filter_cons, hHash,
              if_pos (by simp [hRoot]),
              if_pos (by simp [hRoot]), List.map_cons,
              List.map_cons, hHead, hTail]

/- The loop over committed blocks only adds batches. -/
theorem Notices.tellCommits_router
    (batchHashOf : B → H)
    (notices : Notices H)
    (blocks : List B) :
    notices.toRouter <+:
      (notices.tellCommits batchHashOf blocks).toRouter := by
  induction blocks generalizing notices with
  | nil => exact List.prefix_rfl
  | cons block blocks ih =>
      refine List.IsPrefix.trans ?_ (ih _)
      unfold Notices.committed
      dsimp only
      split
      · exact List.prefix_rfl
      · exact List.prefix_append _ _

namespace Committer

variable [Crypto H]
variable {content : Content H B}
variable {c c' : Committer H B}

theorem Moves.router_grows
    (hMoves : Moves content c c') :
    c.notices.toRouter <+: c'.notices.toRouter := by
  induction hMoves with
  | refl => exact List.prefix_rfl
  | tail _ hMove ih =>
      refine ih.trans ?_
      cases hMove with
      | adjust _ _ _ _ _ _ => exact List.prefix_rfl
      | persist _ => exact List.prefix_rfl
      | read _ => exact List.prefix_rfl
      | tell _ _ => exact List.prefix_rfl
      | park _ _ _ => exact List.prefix_rfl
      | deliver _ _ => exact List.prefix_rfl
      | accept hash heads storage notices _ hDue =>
          rcases hDue with
            ⟨_, _, rfl⟩ | ⟨_, _, blocks, _, _, rfl⟩
          · exact List.prefix_rfl
          · exact Notices.tellCommits_router _ _ _

variable {chain : Nat → H}
variable {top : Nat}

omit [DecidableEq H] [BlockTrait B H] [Crypto H] in
/- Hashes that get deeper and deeper do not come again. -/
theorem chain_injective
    {depth : H → Nat}
    (hDeeper :
      ∀ k, k < top → depth (chain k) < depth (chain (k + 1)))
    (j k : Nat)
    (hLeft : j ≤ top)
    (hRight : k ≤ top)
    (hEq : chain j = chain k) : j = k := by
  have hLess :
      ∀ low high, low < high → high ≤ top →
        depth (chain low) < depth (chain high) := by
    intro low high hBelow hBound
    induction high with
    | zero => omega
    | succ high ih =>
        have hLast := hDeeper high (by omega)
        by_cases hSame : low = high
        · subst hSame
          exact hLast
        · exact Nat.lt_trans
            (ih (by omega) (by omega)) hLast
  rcases Nat.lt_trichotomy j k with hBelow | rfl | hAbove
  · have hDepths := hLess j k hBelow hRight
    rw [hEq] at hDepths
    omega
  · rfl
  · have hDepths := hLess k j hAbove hLeft
    rw [hEq] at hDepths
    omega

/- All that a node has committed is on the chain. -/
structure OnChain
    (chain : Nat → H)
    (top : Nat)
    (c : Committer H B) : Prop where
  committed :
    ∀ hash ∈ c.storage.committedBlocksByHash,
      ∃ k, k ≤ top ∧ hash = chain k
  linked :
    ∀ k block, k < top →
      c.storage.deliveredBlockFromHash (chain (k + 1)) =
          some block →
        BlockTrait.getPrev block = chain k

/- The blocks told are the first ones of the chain. -/
theorem OnChain.hashes_eq
    {notices : Notices H}
    {log : List B}
    (hInjective :
      ∀ j k, j ≤ top → k ≤ top → chain j = chain k → j = k)
    (hOn : c.OnChain chain top)
    (hTold :
      Announced content.batchHash (chain 0) notices
        c.storage log) :
    log.map BlockTrait.getHash =
      (List.range log.length).map chain := by
  have hLog := hTold.committed
  refine hLog.order.hashes_eq hInjective hLog.once ?_
  intro block hBlock
  have hCommitted :=
    (hLog.mem (BlockTrait.getHash block)).mpr
      (List.mem_map_of_mem hBlock)
  rcases hOn.committed _ hCommitted with ⟨k, hBound, hHash⟩
  refine ⟨k, hBound, hHash, ?_⟩
  intro hPos
  rcases Storage.exists_delivered_of_parent
      (hLog.parents block hBlock) with
    ⟨stored, hStored, hPrev⟩
  rw [← hPrev]
  apply hOn.linked (k - 1) stored (by omega)
  rw [Nat.sub_add_cancel hPos, ← hHash]
  exact hStored

/- Two nodes know the same block under a hash. -/
theorem Sound.batchHash_eq
    {hash : H}
    {block other stored stored' : B}
    (hFree : CollisionFree H)
    (hSound : c.Sound content)
    (hSound' : c'.Sound content)
    (hStored :
      c.storage.deliveredBlockFromHash hash = some stored)
    (hStored' :
      c'.storage.deliveredBlockFromHash hash = some stored')
    (hBlock :
      content.batchHash stored = content.batchHash block)
    (hOther :
      content.batchHash stored' = content.batchHash other) :
    content.batchHash block = content.batchHash other := by
  have hSame :=
    Content.eq_of_getHash hFree
      (hSound.delivered _ _ hStored)
      (hSound'.delivered _ _ hStored')
      ((Storage.getHash_of_delivered hStored).trans
        (Storage.getHash_of_delivered hStored').symm)
  rw [← hBlock, ← hOther, Content.batchHash, hSame]
  rfl

/- The shorter log is told as a part of the longer one. -/
theorem router_le
    {log log' : List B}
    (hFree : CollisionFree H)
    (hHash :
      Function.Injective
        (Crypto.batchHash : List Transaction → H))
    (hInjective :
      ∀ j k, j ≤ top → k ≤ top → chain j = chain k → j = k)
    (hSound : c.Sound content)
    (hSound' : c'.Sound content)
    (hOn : c.OnChain chain top)
    (hOn' : c'.OnChain chain top)
    (hTold :
      Announced content.batchHash (chain 0) c.notices
        c.storage log)
    (hTold' :
      Announced content.batchHash (chain 0) c'.notices
        c'.storage log')
    (hLength : log.length ≤ log'.length) :
    c.notices.toRouter <+: c'.notices.toRouter := by
  have hHashes := hOn.hashes_eq hInjective hTold
  have hHashes' := hOn'.hashes_eq hInjective hTold'
  have hTake :
      log.map BlockTrait.getHash =
        (log'.take log.length).map
          (BlockTrait.getHash : B → H) := by
    rw [List.map_take, hHashes', ← List.map_take,
      List.take_range, Nat.min_eq_left hLength, hHashes]
  have hBatches :
      batchHashes content.batchHash (chain 0) log =
        batchHashes content.batchHash (chain 0)
          (log'.take log.length) := by
    refine batchHashes_congr hTake ?_
    intro block hBlock other hOther hSame
    rcases hTold.payload block hBlock with
      ⟨stored, hStored, hEq⟩
    rcases hTold'.payload other
        (List.mem_of_mem_take hOther) with
      ⟨stored', hStored', hEq'⟩
    rw [hSame] at hStored
    exact hSound.batchHash_eq hFree hSound' hStored hStored'
      hEq hEq'
  have hParts :
      c.notices.toRouter.map CachedBatch.hash <+:
        c'.notices.toRouter.map
          (CachedBatch.hash : Batch → H) := by
    rw [hTold.tells.router, hTold'.tells.router, hBatches]
    nth_rewrite 2 [← List.take_append_drop log.length log']
    rw [batchHashes_append]
    exact List.prefix_append _ _
  refine
    (List.prefix_map_iff_of_injective ?_).mp hParts
  intro left right hEq
  cases left
  cases right
  exact congrArg CachedBatch.mk (hHash hEq)

/-
  What two nodes on one chain have told their routers is the
  same, as far as it goes.
-/
theorem router_comparable
    (hFree : CollisionFree H)
    (hHash :
      Function.Injective
        (Crypto.batchHash : List Transaction → H))
    (hInjective :
      ∀ j k, j ≤ top → k ≤ top → chain j = chain k → j = k)
    (hRoot : chain 0 = Crypto.emptyHash)
    (hSound : c.Sound content ∧ c.Stocked content)
    (hSound' : c'.Sound content ∧ c'.Stocked content)
    (hOn : c.OnChain chain top)
    (hOn' : c'.OnChain chain top) :
    c.notices.toRouter <+: c'.notices.toRouter ∨
      c'.notices.toRouter <+: c.notices.toRouter := by
  rcases hSound.2.told with ⟨log, hTold⟩
  rcases hSound'.2.told with ⟨log', hTold'⟩
  rw [← hRoot] at hTold hTold'
  rcases Nat.le_total log.length log'.length with
    hLess | hLess
  · exact Or.inl
      (router_le hFree hHash hInjective hSound.1 hSound'.1
        hOn hOn' hTold hTold' hLess)
  · exact Or.inr
      (router_le hFree hHash hInjective hSound'.1 hSound.1
        hOn' hOn hTold' hTold hLess)

end Committer

end LibApollo
