import LibApollo.Artemis.Invariant
import LibApollo.Base.Turns

/-
  Reordering of votes and blocks at an Artemis node is
  confluent.

  The blocks of the view leader reach a node in chain order
  and the votes of the first rounds in any order, interleaved
  in any way.  A vote is late, current or early, and its
  block is delivered or not: early votes are ready for their
  round, votes for missing blocks wait for the delivery,
  which makes them ready.  No vote is lost on these ways.

  Key definitions include:
    * `messageStep`
    * `VotedChain`
    * `VotePosition`, `VoteTracked`
    * `VoteReordering`

  Key theorems include:
    * `VoteReordering.takes`, `VoteReordering.works`
    * `vote_reordering_confluent`
-/

------------------------------------------------------------
-- Blocks and the Votes for Them
------------------------------------------------------------

namespace LibApollo

namespace Artemis

variable {H : Type} [DecidableEq H] [Crypto H]

/-
  `buffer_message` and `process_message` without the rest of
  the reactor: messages are buffered, and one iteration of
  the loops is one internal step.
-/
def messageStep : Machine (Node H) (Event H) Panic :=
  fun node event =>
    match event with
    | .recv msg =>
        .ok
          { cx := bufferMessage msg node.cx
            phase := .drain }
    | .internal =>
        if node.phase = .drain then
          .ok { node with phase := .blocks }
        else
          processMessage node
    | _ => .ok node

/- `process_message` is not running. -/
def Returned (node : Node H) : Prop :=
  node.phase = .select ∨ node.phase = .propose ∨
    node.phase = .vote

/-
  The first `m` blocks of the view leader and the votes of
  the first `k` rounds for different ones of them.  The view
  leader of view 0 is replica 0.
-/
structure VotedChain
    (H : Type) [DecidableEq H] [Crypto H]
    (config : Config)
    (m k : Nat) where
  block : Nat → Block H
  batch : Nat → Batch
  vote : Nat → UCRVote H
  genesis : block 0 = Block.genesis
  prev :
    ∀ j, j < m →
      (block (j + 1)).blk.header.prev = (block j).blk.hash
  sealed :
    ∀ j, 1 ≤ j → j ≤ m →
      (batch j).hash = (block j).blk.body.batchHash
  author :
    ∀ j, 1 ≤ j → j ≤ m → (block j).blk.header.author = 0
  origin : ∀ j, 1 ≤ j → j ≤ m → (block j).sig.origin = 0
  signature :
    ∀ j, 1 ≤ j → j ≤ m →
      ∃ publicKey,
        config.pkMap.lookup 0 = some publicKey ∧
          (block j).checkSig publicKey = true
  round : ∀ i, 1 ≤ i → i ≤ k → (vote i).round = i
  view : ∀ i, 1 ≤ i → i ≤ k → (vote i).view = 0
  names :
    ∀ i, 1 ≤ i → i ≤ k →
      ∃ j, (1 ≤ j ∧ j ≤ m) ∧
        (vote i).hash = (block j).blk.hash
  distinct :
    ∀ i i', (1 ≤ i ∧ i ≤ k) → (1 ≤ i' ∧ i' ≤ k) →
      (vote i).hash = (vote i').hash → i = i'
  signed :
    ∀ i, 1 ≤ i → i ≤ k →
      ∃ publicKey,
        config.pkMap.lookup
            (Leaders.leaderAt H config.numNodes
              config.numFaults i) = some publicKey ∧
          (vote i).checkSig publicKey = true

namespace VotedChain

variable {config : Config} {m k : Nat}

/- The message that carries a block of the chain. -/
def newBlock
    (chain : VotedChain H config m k)
    (j : Nat) : ProtocolMsg H :=
  .newBlock (chain.block j) (chain.batch j)

/- The message carries the vote of a round. -/
def Carries
    (chain : VotedChain H config m k)
    (i : Nat)
    (msg : ProtocolMsg H) : Prop :=
  msg = .ucrVote (chain.vote i) ∨
    ∃ sender, msg = .relay sender (chain.vote i)

/- The block is delivered at the node. -/
def Delivered
    (chain : VotedChain H config m k)
    (cx : Context H)
    (j : Nat) : Prop :=
  cx.storage.isDeliveredByHash (chain.block j).blk.hash =
    true

/- The parent of a block of the chain. -/
theorem prev_eq
    (chain : VotedChain H config m k)
    {j : Nat}
    (hj : 1 ≤ j ∧ j ≤ m) :
    BlockTrait.getPrev (chain.block j) =
      (chain.block (j - 1)).blk.hash := by
  have hLink := chain.prev (j - 1) (by omega)
  rwa [show j - 1 + 1 = j by omega] at hLink

/- A message carries the vote of one round only. -/
theorem carries_inj
    (chain : VotedChain H config m k)
    {i j : Nat}
    {msg : ProtocolMsg H}
    (hi : 1 ≤ i ∧ i ≤ k)
    (hj : 1 ≤ j ∧ j ≤ k)
    (hCarries : chain.Carries i msg)
    (hOther : chain.Carries j msg) :
    i = j := by
  have hVote : chain.vote i = chain.vote j := by
    rcases hCarries with rfl | ⟨sender, rfl⟩
    · rcases hOther with hEq | ⟨_, hEq⟩
      · injection hEq
      · cases hEq
    · rcases hOther with hEq | ⟨_, hEq⟩
      · cases hEq
      · injection hEq
  rw [← chain.round i hi.1 hi.2, hVote,
    chain.round j hj.1 hj.2]

end VotedChain

/-
  Where a node stands: the rounds before its own have their
  votes, and the delivered blocks are closed under parents.
-/
structure VotePosition
    {config : Config}
    {m k : Nat}
    (chain : VotedChain H config m k)
    (cx : Context H) : Prop where
  configured : Configured config cx
  round_pos : 1 ≤ cx.round
  round_le : cx.round ≤ k + 1
  passed :
    ∀ i, 1 ≤ i → i < cx.round →
      cx.voteChain.lookup i = some (chain.vote i) ∧
        cx.storage.isDeliveredByHash (chain.vote i).hash =
          true
  leaders :
    Leaders.schedule H config.numNodes config.numFaults
      (cx.round - 1) = .ok cx.leaders
  genesis : chain.Delivered cx 0
  closed :
    ∀ hash block,
      cx.storage.deliveredBlockFromHash hash =
          some block →
        cx.storage.isDeliveredByHash
          (BlockTrait.getPrev block) = true
  noChildren : cx.blockParentWaiting = ∅

namespace VotePosition

variable {config : Config} {m k : Nat}
variable {chain : VotedChain H config m k}
variable {cx cx' : Context H}

/- The vote of the current round passes all checks. -/
theorem onReceiveRoundVote_eq
    (hPos : VotePosition chain cx)
    (hBound : cx.round ≤ k) :
    onReceiveRoundVote (chain.vote cx.round) cx =
      acceptVote (chain.vote cx.round) cx := by
  have hView :
      cx.view = (chain.vote cx.round).view := by
    rw [chain.view _ hPos.round_pos hBound]
    exact hPos.configured.view
  unfold onReceiveRoundVote
  rw [if_neg (not_not.mpr hView)]
  by_cases hSelf : cx.myid = cx.leaders.roundLeader
  · rw [if_pos hSelf]
  · rw [if_neg hSelf]
    rcases chain.signed _ hPos.round_pos hBound with
      ⟨publicKey, hKey, hVerify⟩
    rw [Leaders.leaderAt_eq hPos.leaders] at hKey
    have hKey' :
        cx.pubKeyMap.lookup cx.leaders.roundLeader =
          some publicKey := by
      rw [hPos.configured.pubKeyMap,
        FinMap.lookup_erase_eq, if_neg]
      · exact hKey
      · rw [← hPos.configured.myid]
        exact fun hSame => hSelf hSame.symm
    rw [hKey']
    dsimp only
    rw [if_pos hVerify]

/- The vote of the current round is recorded. -/
theorem exists_accepted
    (hFaults : 1 ≤ config.numFaults)
    (hNodes : 2 * config.numFaults < config.numNodes)
    (hPos : VotePosition chain cx)
    (hBound : cx.round ≤ k)
    (hDelivered :
      cx.storage.isDeliveredByHash
        (chain.vote cx.round).hash = true) :
    ∃ cx',
      onReceiveRoundVote (chain.vote cx.round) cx =
          .ok cx' ∧
        Accepted (chain.vote cx.round) cx cx' := by
  have hRound :=
    chain.round cx.round hPos.round_pos hBound
  have hOk :
      ∃ cx', acceptVote (chain.vote cx.round) cx =
        .ok cx' := by
    apply Artemis.exists_acceptVote
    · intro hDue
      rw [hPos.configured.numFaults] at hDue ⊢
      rcases hPos.passed (cx.round - config.numFaults)
          (by omega) (by omega) with ⟨hLookup, hKnown⟩
      refine ⟨_, ?_,
        Storage.commitWalk_isSome_of_closed hPos.closed
          hKnown⟩
      rw [FinMap.lookup_insert_eq, hRound,
        if_neg (by omega)]
      exact hLookup
    · exact hDelivered
    · exact Leaders.exists_advance hFaults hNodes
        (Leaders.rotates_of_schedule hFaults hNodes
          hPos.leaders) cx.round
  rcases hOk with ⟨cx', hAccept⟩
  refine ⟨cx', ?_, acceptVote_ok hAccept⟩
  rw [hPos.onReceiveRoundVote_eq hBound]
  exact hAccept

/- After the acceptance the node stands one round further. -/
theorem accepted
    (hPos : VotePosition chain cx)
    (hBound : cx.round ≤ k)
    (hDelivered :
      cx.storage.isDeliveredByHash
        (chain.vote cx.round).hash = true)
    (hAccepted : Accepted (chain.vote cx.round) cx cx') :
    VotePosition chain cx' := by
  have hFirst := hPos.round_pos
  have hRound := chain.round cx.round hFirst hBound
  have hConfig' := hPos.configured.accepted hAccepted
  rcases hAccepted with
    ⟨storage, block, leaders, _, _, _, _, hOutcome, _,
      hAdvance, rfl⟩
  have hSame := hOutcome.delivered_eq
  have hKnown :
      ∀ hash,
        storage.isDeliveredByHash hash =
          cx.storage.isDeliveredByHash hash := by
    intro hash
    unfold Storage.isDeliveredByHash
    rw [hSame hash]
  refine
    { configured := hConfig'
      round_pos := Nat.le_add_left 1 _
      round_le := Nat.succ_le_succ hBound
      passed := ?_
      leaders := ?_
      genesis := (hKnown _).trans hPos.genesis
      closed := ?_
      noChildren := hPos.noChildren }
  · intro i hPositive hPassed
    dsimp only at hPassed ⊢
    rw [FinMap.lookup_insert_eq, hRound, hKnown]
    by_cases hLast : i = cx.round
    · rw [if_pos hLast, hLast]
      exact ⟨rfl, hDelivered⟩
    · rw [if_neg hLast]
      exact hPos.passed i hPositive (by omega)
  · dsimp only
    have hNext := Leaders.schedule_succ hPos.leaders
    rw [show cx.round - 1 + 1 = cx.round by omega] at hNext
    rw [show cx.round + 1 - 1 = cx.round by omega, hNext]
    exact hAdvance
  · intro hash stored hLookup
    dsimp only at hLookup ⊢
    rw [hKnown]
    exact hPos.closed hash stored
      ((hSame hash).symm.trans hLookup)

end VotePosition

end Artemis

end LibApollo

------------------------------------------------------------
-- Where Blocks and Votes Wait
------------------------------------------------------------

namespace LibApollo

namespace Artemis

variable {H : Type} [DecidableEq H] [Crypto H]
variable {config : Config} {m k : Nat}
variable {chain : VotedChain H config m k}
variable {cx cx' : Context H}
variable {i j : Nat}

/- The vote is accepted, or it waits in some place. -/
def VoteTracked
    (chain : VotedChain H config m k)
    (cx : Context H)
    (i : Nat) : Prop :=
  i < cx.round ∨
    (∃ msg ∈ cx.otherBuf, chain.Carries i msg) ∨
    (cx.voteReady.lookup i).isSome ∨
    ((cx.voteWaiting.lookup (chain.vote i).hash).isSome ∧
      cx.storage.isDeliveredByHash (chain.vote i).hash =
        false)

/- The block is delivered, or it is queued. -/
def BlockTracked
    (chain : VotedChain H config m k)
    (cx : Context H)
    (j : Nat) : Prop :=
  chain.Delivered cx j ∨
    (chain.block j, chain.batch j) ∈
      cx.blockProcessingWaiting

/-
  Blocks of the chain in line: the parent of a block is
  delivered or stands before it.
-/
def InLine
    (chain : VotedChain H config m k)
    (cx : Context H)
    (line : List (Block H × Batch)) : Prop :=
  ∀ before x after, line = before ++ x :: after →
    ∃ j, (1 ≤ j ∧ j ≤ m) ∧
      x = (chain.block j, chain.batch j) ∧
      (chain.Delivered cx (j - 1) ∨
        (chain.block (j - 1), chain.batch (j - 1)) ∈ before)

theorem InLine.nil : InLine chain cx [] := by
  intro before x after hSplit
  simp at hSplit

/- The first in line has its parent. -/
theorem InLine.head
    {x : Block H × Batch}
    {rest : List (Block H × Batch)}
    (hLine : InLine chain cx (x :: rest)) :
    ∃ j, (1 ≤ j ∧ j ≤ m) ∧
      x = (chain.block j, chain.batch j) ∧
      chain.Delivered cx (j - 1) := by
  rcases hLine [] x rest rfl with
    ⟨j, hj, hEntry, hKnown | hBefore⟩
  · exact ⟨j, hj, hEntry, hKnown⟩
  · exact absurd hBefore List.not_mem_nil

/- Once the first block is delivered the others move up. -/
theorem InLine.tail
    {x : Block H × Batch}
    {rest : List (Block H × Batch)}
    (hLine : InLine chain cx (x :: rest))
    (hMono :
      ∀ j, chain.Delivered cx j → chain.Delivered cx' j)
    (hFirst :
      cx'.storage.isDeliveredByHash x.1.blk.hash = true) :
    InLine chain cx' rest := by
  intro before y after hSplit
  rcases hLine (x :: before) y after (by rw [hSplit]; rfl)
    with ⟨j, hj, hEntry, hParent⟩
  refine ⟨j, hj, hEntry, ?_⟩
  rcases hParent with hKnown | hBefore
  · exact Or.inl (hMono _ hKnown)
  · rcases List.mem_cons.mp hBefore with hSame | hBefore
    · left
      rw [← hSame] at hFirst
      exact hFirst
    · exact Or.inr hBefore

/- A block may join when its parent is there. -/
theorem InLine.append
    {line : List (Block H × Batch)}
    (hj : 1 ≤ j ∧ j ≤ m)
    (hParent :
      chain.Delivered cx (j - 1) ∨
        (chain.block (j - 1), chain.batch (j - 1)) ∈ line)
    (hLine : InLine chain cx line) :
    InLine chain cx
      (line ++ [(chain.block j, chain.batch j)]) := by
  intro before x after hSplit
  rcases List.append_eq_append_iff.mp hSplit with
    ⟨mid, hBefore, hRest⟩ | ⟨mid, hBefore, hRest⟩
  · cases mid with
    | nil =>
        simp only [List.append_nil, List.nil_append,
          List.cons.injEq] at hBefore hRest
        rw [hBefore]
        exact ⟨j, hj, hRest.1.symm, hParent⟩
    | cons _ mid => simp at hRest
  · cases mid with
    | nil =>
        simp only [List.append_nil, List.nil_append,
          List.cons.injEq] at hBefore hRest
        rw [← hBefore]
        exact ⟨j, hj, hRest.1, hParent⟩
    | cons y mid =>
        rw [List.cons_append, List.cons.injEq] at hRest
        apply hLine before x mid
        rw [hBefore, hRest.1]

/- The queues hold votes of the chain only. -/
structure VoteQueues
    (chain : VotedChain H config m k)
    (cx : Context H) : Prop where
  responses : cx.responseWaiting = []
  others :
    ∀ msg ∈ cx.otherBuf,
      ∃ i, (1 ≤ i ∧ i ≤ k) ∧ chain.Carries i msg
  ready :
    ∀ r v, cx.voteReady.lookup r = some v →
      (1 ≤ r ∧ r ≤ k) ∧
        v = chain.vote r ∧
        cx.storage.isDeliveredByHash v.hash = true
  waiting :
    ∀ hash v, cx.voteWaiting.lookup hash = some v →
      ∃ i, (1 ≤ i ∧ i ≤ k) ∧
        v = chain.vote i ∧ hash = (chain.vote i).hash

/- What is left to do with the queued blocks and votes. -/
def voteLoad (cx : Context H) : Nat :=
  cx.blockProcessingWaiting.length +
    3 * cx.otherBuf.length +
    2 * cx.voteWaiting.keys.card +
    cx.voteReady.keys.card

/-
  The delivery of a block for which no child waits: the vote
  that waits for it becomes ready.
-/
structure Delivers
    (block : Block H)
    (cx cx' : Context H) : Prop where
  noChildren : cx'.blockParentWaiting = ∅
  delivered :
    ∀ hash,
      cx'.storage.deliveredBlockFromHash hash =
        if hash = BlockTrait.getHash block then some block
        else cx.storage.deliveredBlockFromHash hash
  votes :
    (cx.voteWaiting.lookup (BlockTrait.getHash block) =
          none ∧
        cx'.voteWaiting = cx.voteWaiting ∧
        cx'.voteReady = cx.voteReady) ∨
      ∃ v,
        cx.voteWaiting.lookup (BlockTrait.getHash block) =
            some v ∧
          cx'.voteWaiting =
            cx.voteWaiting.erase
              (BlockTrait.getHash block) ∧
          cx'.voteReady = cx.voteReady.insert v.round v

omit [Crypto H] in
theorem doDelivery_delivers
    (block : Block H)
    (hNone : cx.blockParentWaiting = ∅) :
    Delivers block cx (doDelivery block cx) := by
  have hStored :=
    Storage.addDeliveredBlock_deliveredBlockFromHash
      cx.storage block
  apply doDelivery_rule
    (fun _ now => Delivers block cx now) (Delivers block cx)
  · unfold beginDelivery storeBlock releaseVote
    dsimp only
    split
    · rename_i hWaits
      exact
        { noChildren := hNone
          delivered := hStored
          votes := Or.inl ⟨hWaits, rfl, rfl⟩ }
    · rename_i v hWaits
      exact
        { noChildren := hNone
          delivered := hStored
          votes := Or.inr ⟨v, hWaits, rfl, rfl⟩ }
  · intro hash child now hNow hChild
    rw [hNow.noChildren] at hChild
    simp at hChild
  · intro last now hNow _
    exact hNow
  · intro now hNow
    exact { hNow with }

omit [Crypto H] in
theorem Delivers.isDelivered
    {block : Block H}
    {hash : H}
    (hDelivers : Delivers block cx cx')
    (hHash :
      hash = BlockTrait.getHash block ∨
        cx.storage.isDeliveredByHash hash = true) :
    cx'.storage.isDeliveredByHash hash = true := by
  unfold Storage.isDeliveredByHash
  rw [hDelivers.delivered hash]
  split
  · rfl
  · rename_i hOther
    exact hHash.resolve_left hOther

omit [Crypto H] in
theorem Delivers.not_isDelivered
    {block : Block H}
    {hash : H}
    (hDelivers : Delivers block cx cx')
    (hOther : hash ≠ BlockTrait.getHash block) :
    cx'.storage.isDeliveredByHash hash =
      cx.storage.isDeliveredByHash hash := by
  unfold Storage.isDeliveredByHash
  rw [hDelivers.delivered hash, if_neg hOther]

theorem VotePosition.delivers
    {block : Block H}
    (hPos : VotePosition chain cx)
    (hPrev :
      cx.storage.isDeliveredByHash
        (BlockTrait.getPrev block) = true)
    (hDelivers : Delivers block cx (doDelivery block cx)) :
    VotePosition chain (doDelivery block cx) := by
  have hMono :
      ∀ hash, cx.storage.isDeliveredByHash hash = true →
        (doDelivery block cx).storage.isDeliveredByHash
          hash = true :=
    fun hash hKnown => hDelivers.isDelivered (Or.inr hKnown)
  have hClosed :
      ∀ hash stored,
        (doDelivery block
            cx).storage.deliveredBlockFromHash hash =
            some stored →
          (doDelivery block cx).storage.isDeliveredByHash
            (BlockTrait.getPrev stored) = true := by
    intro hash stored hLookup
    rw [hDelivers.delivered hash] at hLookup
    split at hLookup
    · cases hLookup
      exact hMono _ hPrev
    · exact hMono _ (hPos.closed hash stored hLookup)
  have hConfig := hPos.configured.deliver block
  have hNone := hDelivers.noChildren
  rcases doDelivery_deliveryOnly block cx with
    ⟨_, _, _, _, _, _, _, hEq, _⟩
  rw [hEq] at hMono hClosed hConfig hNone ⊢
  exact
    { configured := hConfig
      round_pos := hPos.round_pos
      round_le := hPos.round_le
      passed := fun i hFirst hPassed =>
        ⟨(hPos.passed i hFirst hPassed).1,
          hMono _ (hPos.passed i hFirst hPassed).2⟩
      leaders := hPos.leaders
      genesis := hMono _ hPos.genesis
      closed := hClosed
      noChildren := hNone }

/- A vote that waits for the block is ready after it. -/
theorem VoteTracked.delivers
    {block : Block H}
    (hQueues : VoteQueues chain cx)
    (hi : 1 ≤ i ∧ i ≤ k)
    (hDelivers : Delivers block cx (doDelivery block cx))
    (hTracked : VoteTracked chain cx i) :
    VoteTracked chain (doDelivery block cx) i := by
  have hReady :
      ∀ r, (cx.voteReady.lookup r).isSome →
        ((doDelivery block cx).voteReady.lookup
          r).isSome := by
    intro r hSome
    rcases hDelivers.votes with
      ⟨_, _, hSame⟩ | ⟨v, _, _, hInsert⟩
    · rw [hSame]
      exact hSome
    · rw [hInsert, FinMap.lookup_insert_eq]
      split
      · rfl
      · exact hSome
  rcases hTracked with
    hPassed | hBuffered | hSome | ⟨hWaits, hMissing⟩
  · left
    rcases doDelivery_deliveryOnly block cx with
      ⟨_, _, _, _, _, _, _, hEq, _⟩
    rw [hEq]
    exact hPassed
  · right
    left
    rcases doDelivery_deliveryOnly block cx with
      ⟨_, _, _, _, _, _, _, hEq, _⟩
    rw [hEq]
    exact hBuffered
  · exact Or.inr (Or.inr (Or.inl (hReady i hSome)))
  · right
    right
    by_cases hHash :
        (chain.vote i).hash = BlockTrait.getHash block
    · left
      rw [hHash] at hWaits
      rcases hDelivers.votes with
        ⟨hNone, _, _⟩ | ⟨v, hLookup, _, hInsert⟩
      · rw [hNone] at hWaits
        cases hWaits
      · rcases hQueues.waiting _ v hLookup with
          ⟨i', hi', rfl, hName⟩
        have hSame : i' = i :=
          chain.distinct i' i hi' hi
            (hName.symm.trans hHash.symm)
        rw [hInsert, hSame, chain.round i hi.1 hi.2,
          FinMap.lookup_insert_eq, if_pos rfl]
        rfl
    · right
      rw [hDelivers.not_isDelivered hHash]
      refine ⟨?_, hMissing⟩
      rcases hDelivers.votes with
        ⟨_, hSame, _⟩ | ⟨v, _, hErase, _⟩
      · rw [hSame]
        exact hWaits
      · rw [hErase, FinMap.lookup_erase_eq, if_neg hHash]
        exact hWaits

theorem VoteQueues.delivers
    {block : Block H}
    (hQueues : VoteQueues chain cx)
    (hDelivers : Delivers block cx (doDelivery block cx)) :
    VoteQueues chain (doDelivery block cx) := by
  have hMono :
      ∀ hash, cx.storage.isDeliveredByHash hash = true →
        (doDelivery block cx).storage.isDeliveredByHash
          hash = true :=
    fun hash hKnown => hDelivers.isDelivered (Or.inr hKnown)
  have hReady :
      ∀ r v,
        (doDelivery block cx).voteReady.lookup r = some v →
          (1 ≤ r ∧ r ≤ k) ∧
            v = chain.vote r ∧
            (doDelivery block cx).storage.isDeliveredByHash
              v.hash = true := by
    intro r v hLookup
    rcases hDelivers.votes with
      ⟨_, _, hSame⟩ | ⟨w, hWaits, _, hInsert⟩
    · rw [hSame] at hLookup
      rcases hQueues.ready r v hLookup with
        ⟨hr, hName, hKnown⟩
      exact ⟨hr, hName, hMono _ hKnown⟩
    · rw [hInsert, FinMap.lookup_insert_eq] at hLookup
      split at hLookup
      · rename_i hRound
        cases hLookup
        rcases hQueues.waiting _ _ hWaits with
          ⟨i, hi, rfl, hName⟩
        have hIndex : r = i := by
          rw [hRound, chain.round i hi.1 hi.2]
        rw [hIndex]
        exact ⟨hi, rfl,
          hDelivers.isDelivered (Or.inl hName.symm)⟩
      · rcases hQueues.ready r v hLookup with
          ⟨hr, hName, hKnown⟩
        exact ⟨hr, hName, hMono _ hKnown⟩
  have hWaiting :
      ∀ hash v,
        (doDelivery block cx).voteWaiting.lookup hash =
            some v →
          cx.voteWaiting.lookup hash = some v := by
    intro hash v hLookup
    rcases hDelivers.votes with
      ⟨_, hSame, _⟩ | ⟨w, _, hErase, _⟩
    · rw [hSame] at hLookup
      exact hLookup
    · rw [hErase, FinMap.lookup_erase_eq] at hLookup
      split at hLookup
      · cases hLookup
      · exact hLookup
  rcases doDelivery_deliveryOnly block cx with
    ⟨_, _, _, _, _, _, _, hEq, _⟩
  rw [hEq] at hReady hWaiting ⊢
  exact
    { responses := hQueues.responses
      others := hQueues.others
      ready := hReady
      waiting := fun hash v hLookup =>
        hQueues.waiting hash v (hWaiting hash v hLookup) }

omit [Crypto H] in
theorem Delivers.load_le
    {block : Block H}
    (hDelivers : Delivers block cx (doDelivery block cx)) :
    voteLoad (doDelivery block cx) ≤ voteLoad cx := by
  have hVotes := hDelivers.votes
  rcases doDelivery_deliveryOnly block cx with
    ⟨_, _, _, _, _, _, _, hEq, _⟩
  rw [hEq] at hVotes ⊢
  unfold voteLoad
  dsimp only at hVotes ⊢
  rcases hVotes with
    ⟨_, hWaiting, hReady⟩ | ⟨v, hLookup, hWaiting, hReady⟩
  · rw [hWaiting, hReady]
  · have hErased := FinMap.card_keys_erase_lt hLookup
    have hInserted :=
      FinMap.card_keys_insert_le cx.voteReady v.round v
    rw [hWaiting, hReady]
    omega

end Artemis

end LibApollo

------------------------------------------------------------
-- Receiving a Block of the Chain
------------------------------------------------------------

namespace LibApollo

namespace Artemis

variable {H : Type} [DecidableEq H] [Crypto H]
variable {config : Config} {m k : Nat}
variable {chain : VotedChain H config m k}
variable {cx cx' : Context H}
variable {j : Nat}

/- What holds after a block was processed. -/
structure BlockProcessed
    (chain : VotedChain H config m k)
    (j : Nat)
    (cx cx' : Context H) : Prop where
  position : VotePosition chain cx'
  queues : VoteQueues chain cx'
  delivered : chain.Delivered cx' j
  mono :
    ∀ hash, cx.storage.isDeliveredByHash hash = true →
      cx'.storage.isDeliveredByHash hash = true
  votes :
    ∀ i, (1 ≤ i ∧ i ≤ k) → VoteTracked chain cx i →
      VoteTracked chain cx' i
  waiting :
    cx'.blockProcessingWaiting = cx.blockProcessingWaiting
  load : voteLoad cx' ≤ voteLoad cx

/- A delivered parent and valid signature are enough. -/
theorem VotePosition.onReceiveNewBlockDirect_eq
    (hPos : VotePosition chain cx)
    (hj : 1 ≤ j ∧ j ≤ m)
    (hParent : chain.Delivered cx (j - 1))
    (hNew : ¬ chain.Delivered cx j) :
    onReceiveNewBlockDirect (chain.block j) cx =
      .ok (doDelivery (chain.block j) cx) := by
  have hPrev :
      cx.storage.isDeliveredByHash
        (BlockTrait.getPrev (chain.block j)) = true := by
    rw [chain.prev_eq hj]
    exact hParent
  have hFresh :
      ¬ cx.storage.isDeliveredByHash
        (BlockTrait.getHash (chain.block j)) = true := hNew
  have hLeader := hPos.configured.viewLeader
  have hNames :
      ¬ (cx.viewLeader ≠
            (chain.block j).blk.header.author ∨
          cx.viewLeader ≠ (chain.block j).sig.origin) := by
    rw [hLeader, chain.author j hj.1 hj.2,
      chain.origin j hj.1 hj.2]
    simp
  unfold onReceiveNewBlockDirect
  rw [if_neg hFresh, hPrev, if_neg (by simp), if_neg hNames]
  by_cases hSelf : cx.viewLeader = cx.myid
  · rw [if_pos hSelf]
  · rw [if_neg hSelf]
    rcases chain.signature j hj.1 hj.2 with
      ⟨publicKey, hKey, hVerify⟩
    have hKey' :
        cx.pubKeyMap.lookup cx.viewLeader =
          some publicKey := by
      rw [hPos.configured.pubKeyMap,
        FinMap.lookup_erase_eq, if_neg]
      · rw [hLeader]
        exact hKey
      · rw [← hPos.configured.myid]
        exact hSelf
    rw [hKey']
    dsimp only
    rw [if_pos hVerify]

theorem VotePosition.processBlock
    (hPos : VotePosition chain cx)
    (hQueues : VoteQueues chain cx)
    (hj : 1 ≤ j ∧ j ≤ m)
    (hParent : chain.Delivered cx (j - 1)) :
    ∃ cx',
      processBlock (chain.block j) (chain.batch j) cx =
          .ok cx' ∧
        BlockProcessed chain j cx cx' := by
  -- keeping the batch touches nothing that is tracked
  let kept :=
    cx.persistBatch (chain.block j).blk.body.batchHash
      (chain.batch j)
  have hPos' : VotePosition chain kept :=
    { hPos with configured := { hPos.configured with } }
  have hQueues' : VoteQueues chain kept :=
    { hQueues with }
  have hSealed :
      checkBatchHash (chain.block j) (chain.batch j) =
        true :=
    decide_eq_true (chain.sealed j hj.1 hj.2)
  unfold Artemis.processBlock
  rw [if_pos hSealed]
  by_cases hKnown : chain.Delivered cx j
  · refine ⟨kept, ?_, ?_⟩
    · unfold onReceiveNewBlockDirect
      exact if_pos hKnown
    · exact
        { position := hPos'
          queues := hQueues'
          delivered := hKnown
          mono := fun _ hHash => hHash
          votes := fun _ _ hTracked => hTracked
          waiting := rfl
          load := le_refl _ }
  · have hDelivers :
        Delivers (chain.block j) kept
          (doDelivery (chain.block j) kept) :=
      doDelivery_delivers _ hPos'.noChildren
    have hPrev :
        kept.storage.isDeliveredByHash
          (BlockTrait.getPrev (chain.block j)) = true := by
      rw [chain.prev_eq hj]
      exact hParent
    refine ⟨doDelivery (chain.block j) kept,
      hPos'.onReceiveNewBlockDirect_eq hj hParent hKnown,
      ?_⟩
    refine
      { position := hPos'.delivers hPrev hDelivers
        queues := hQueues'.delivers hDelivers
        delivered := hDelivers.isDelivered (Or.inl rfl)
        mono := fun hash hHash =>
          hDelivers.isDelivered (Or.inr hHash)
        votes := fun i hi hTracked =>
          VoteTracked.delivers hQueues' hi hDelivers hTracked
        waiting := ?_
        load := hDelivers.load_le }
    rcases doDelivery_deliveryOnly (chain.block j) kept with
      ⟨_, _, _, _, _, _, _, hEq, _⟩
    rw [hEq]
    rfl

end Artemis

end LibApollo

------------------------------------------------------------
-- Receiving a Vote of the Chain
------------------------------------------------------------

namespace LibApollo

namespace Artemis

variable {H : Type} [DecidableEq H] [Crypto H]
variable {config : Config} {m k : Nat}
variable {chain : VotedChain H config m k}
variable {cx cx' : Context H}
variable {i j : Nat}

/-
  What becomes of a vote: it is late, it is ready for its
  round, it waits for its block, or it is accepted.
-/
def VoteReceived
    (chain : VotedChain H config m k)
    (i : Nat)
    (cx cx' : Context H) : Prop :=
  (i < cx.round ∧ cx' = cx) ∨
    (cx.storage.isDeliveredByHash (chain.vote i).hash =
          true ∧
        cx' =
          { cx with
            voteReady :=
              cx.voteReady.insert i (chain.vote i) }) ∨
    (cx.storage.isDeliveredByHash (chain.vote i).hash =
          false ∧
        ∃ outbox,
          cx' =
            { cx with
              voteWaiting :=
                cx.voteWaiting.insert (chain.vote i).hash
                  (chain.vote i)
              outbox := outbox }) ∨
    (i = cx.round ∧
      cx.storage.isDeliveredByHash (chain.vote i).hash =
        true ∧
      Accepted (chain.vote i) cx cx')

omit [Crypto H] in
theorem awaitBlock_outbox
    (sender : Replica)
    (v : UCRVote H)
    (cx : Context H) :
    ∃ outbox,
      awaitBlock sender v cx =
        { cx with
          voteWaiting := cx.voteWaiting.insert v.hash v
          outbox := outbox } := by
  unfold awaitBlock doRequest Context.send
  dsimp only
  split
  · exact ⟨_, rfl⟩
  · exact ⟨_, rfl⟩

theorem VotePosition.tryReceiveRoundVote
    (hFaults : 1 ≤ config.numFaults)
    (hNodes : 2 * config.numFaults < config.numNodes)
    (hPos : VotePosition chain cx)
    (hi : 1 ≤ i ∧ i ≤ k)
    (sender : Replica) :
    ∃ cx',
      tryReceiveRoundVote sender (chain.vote i) cx =
          .ok cx' ∧
        VoteReceived chain i cx cx' := by
  have hRound := chain.round i hi.1 hi.2
  rcases awaitBlock_outbox sender (chain.vote i) cx with
    ⟨outbox, hAwait⟩
  unfold Artemis.tryReceiveRoundVote
  rw [hRound]
  cases hKnown :
      cx.storage.isDeliveredByHash
        (chain.vote i).hash with
  | false =>
      rcases Nat.lt_trichotomy i cx.round with
        hLate | hNow | hEarly
      · rw [if_pos hLate]
        exact ⟨cx, rfl, Or.inl ⟨hLate, rfl⟩⟩
      · rw [if_neg (by omega), if_neg (by omega),
          if_pos Bool.not_false]
        exact ⟨_, rfl,
          Or.inr (Or.inr (Or.inl ⟨hKnown, outbox, hAwait⟩))⟩
      · rw [if_neg (by omega), if_pos hEarly,
          if_neg (by simp)]
        exact ⟨_, rfl,
          Or.inr (Or.inr (Or.inl ⟨hKnown, outbox, hAwait⟩))⟩
  | true =>
      rcases Nat.lt_trichotomy i cx.round with
        hLate | hNow | hEarly
      · rw [if_pos hLate]
        exact ⟨cx, rfl, Or.inl ⟨hLate, rfl⟩⟩
      · rw [if_neg (by omega), if_neg (by omega),
          if_neg (by simp)]
        rw [hNow] at hKnown ⊢
        rcases hPos.exists_accepted hFaults hNodes
            (by omega) hKnown with ⟨cx', hOk, hAccepted⟩
        exact ⟨cx', hOk, Or.inr (Or.inr (Or.inr
          ⟨rfl, hKnown, hAccepted⟩))⟩
      · rw [if_neg (by omega), if_pos hEarly, if_pos rfl]
        exact ⟨_, rfl, Or.inr (Or.inl ⟨hKnown, rfl⟩)⟩

theorem VotePosition.received
    (hPos : VotePosition chain cx)
    (hi : i ≤ k)
    (hReceived : VoteReceived chain i cx cx') :
    VotePosition chain cx' := by
  rcases hReceived with
    ⟨_, rfl⟩ | ⟨_, rfl⟩ | ⟨_, _, rfl⟩ |
      ⟨rfl, hKnown, hAccepted⟩
  · exact hPos
  · exact { hPos with
      configured := { hPos.configured with } }
  · exact { hPos with
      configured := { hPos.configured with } }
  · exact hPos.accepted hi hKnown hAccepted

/- Receiving a vote changes no delivery. -/
theorem VoteReceived.isDelivered_eq
    (hReceived : VoteReceived chain i cx cx')
    (hash : H) :
    cx'.storage.isDeliveredByHash hash =
      cx.storage.isDeliveredByHash hash := by
  rcases hReceived with
    ⟨_, rfl⟩ | ⟨_, rfl⟩ | ⟨_, _, rfl⟩ |
      ⟨_, _, _, _, _, _, _, _, _, hOutcome, _, _, rfl⟩
  · rfl
  · rfl
  · rfl
  · unfold Storage.isDeliveredByHash
    rw [hOutcome.delivered_eq hash]

/- Receiving a vote leaves the message queues alone. -/
theorem VoteReceived.buffers_eq
    (hReceived : VoteReceived chain i cx cx') :
    cx'.blockProcessingWaiting =
        cx.blockProcessingWaiting ∧
      cx'.responseWaiting = cx.responseWaiting ∧
      cx'.otherBuf = cx.otherBuf := by
  rcases hReceived with
    ⟨_, rfl⟩ | ⟨_, rfl⟩ | ⟨_, _, rfl⟩ |
      ⟨_, _, _, _, _, _, _, _, _, _, _, _, rfl⟩
  · exact ⟨rfl, rfl, rfl⟩
  · exact ⟨rfl, rfl, rfl⟩
  · exact ⟨rfl, rfl, rfl⟩
  · exact ⟨rfl, rfl, rfl⟩

theorem VoteReceived.tracked
    (hReceived : VoteReceived chain i cx cx')
    (hTracked : j = i ∨ VoteTracked chain cx j) :
    VoteTracked chain cx' j := by
  rcases hReceived with
    ⟨hLate, rfl⟩ | ⟨_, rfl⟩ | ⟨hMissing, _, rfl⟩ |
      ⟨hNow, _, _, _, _, _, _, _, _, hOutcome, _, _, rfl⟩
  · rcases hTracked with rfl | hTracked
    · exact Or.inl hLate
    · exact hTracked
  · unfold VoteTracked
    dsimp only
    rw [FinMap.lookup_insert_eq]
    by_cases hSame : j = i
    · exact Or.inr (Or.inr (Or.inl (by simp [hSame])))
    · rw [if_neg hSame]
      exact hTracked.resolve_left hSame
  · unfold VoteTracked
    dsimp only
    rw [FinMap.lookup_insert_eq]
    rcases hTracked with
      rfl | hPassed | hBuffered | hReady | ⟨hWaits, hNot⟩
    · exact Or.inr (Or.inr (Or.inr ⟨by simp, hMissing⟩))
    · exact Or.inl hPassed
    · exact Or.inr (Or.inl hBuffered)
    · exact Or.inr (Or.inr (Or.inl hReady))
    · refine Or.inr (Or.inr (Or.inr ⟨?_, hNot⟩))
      split
      · rfl
      · exact hWaits
  · unfold VoteTracked Storage.isDeliveredByHash
    dsimp only
    rw [hOutcome.delivered_eq]
    rcases hTracked with rfl | hPassed | hWaits
    · exact Or.inl (by omega)
    · exact Or.inl (by omega)
    · exact Or.inr hWaits

theorem VoteReceived.queues
    (hReceived : VoteReceived chain i cx cx')
    (hi : 1 ≤ i ∧ i ≤ k)
    (hQueues : VoteQueues chain cx) :
    VoteQueues chain cx' := by
  have hSame := hReceived.isDelivered_eq
  rcases hReceived.buffers_eq with
    ⟨_, hResponses, hOthers⟩
  refine
    { responses := hResponses.trans hQueues.responses
      others := by rw [hOthers]; exact hQueues.others
      ready := ?_
      waiting := ?_ }
  · intro r v hLookup
    rw [hSame]
    rcases hReceived with
      ⟨_, rfl⟩ | ⟨hKnown, rfl⟩ | ⟨_, _, rfl⟩ |
        ⟨_, _, _, _, _, _, _, _, _, _, _, _, rfl⟩
    · exact hQueues.ready r v hLookup
    · dsimp only at hLookup
      rw [FinMap.lookup_insert_eq] at hLookup
      split at hLookup
      · rename_i hIndex
        cases hLookup
        rw [hIndex]
        exact ⟨hi, rfl, hKnown⟩
      · exact hQueues.ready r v hLookup
    · exact hQueues.ready r v hLookup
    · exact hQueues.ready r v hLookup
  · intro hash v hLookup
    rcases hReceived with
      ⟨_, rfl⟩ | ⟨_, rfl⟩ | ⟨_, _, rfl⟩ |
        ⟨_, _, _, _, _, _, _, _, _, _, _, _, rfl⟩
    · exact hQueues.waiting hash v hLookup
    · exact hQueues.waiting hash v hLookup
    · dsimp only at hLookup
      rw [FinMap.lookup_insert_eq] at hLookup
      split at hLookup
      · rename_i hName
        cases hLookup
        exact ⟨i, hi, rfl, hName⟩
      · exact hQueues.waiting hash v hLookup
    · exact hQueues.waiting hash v hLookup

theorem Accepted.load_eq
    {v : UCRVote H}
    (hAccepted : Accepted v cx cx') :
    voteLoad cx' = voteLoad cx := by
  rcases hAccepted with
    ⟨_, _, _, _, _, _, _, _, _, _, rfl⟩
  rfl

theorem VoteReceived.load_le
    (hReceived : VoteReceived chain i cx cx') :
    voteLoad cx' ≤ voteLoad cx + 2 := by
  rcases hReceived with
    ⟨_, rfl⟩ | ⟨_, rfl⟩ | ⟨_, _, rfl⟩ | ⟨_, _, hAccepted⟩
  · omega
  · have hCard :=
      FinMap.card_keys_insert_le cx.voteReady i
        (chain.vote i)
    unfold voteLoad
    dsimp only
    omega
  · have hCard :=
      FinMap.card_keys_insert_le cx.voteWaiting
        (chain.vote i).hash (chain.vote i)
    unfold voteLoad
    dsimp only
    omega
  · have hSame := hAccepted.load_eq
    omega

end Artemis

end LibApollo

------------------------------------------------------------
-- The Invariant of a Node That Reorders
------------------------------------------------------------

namespace LibApollo

namespace Artemis

variable {H : Type} [DecidableEq H] [Crypto H]
variable {config : Config} {m k : Nat}

/- How far `process_message` is from its end. -/
def Phase.rank : Phase → Nat
| .drain => 6
| .blocks => 5
| .responses => 4
| .ready => 3
| .others => 2
| .readyAgain => 1
| _ => 0

/- Every internal step makes this number smaller. -/
def Node.size (node : Node H) : Nat :=
  voteLoad node.cx + node.phase.rank

/- What holds after the events `seen`. -/
structure VoteReordering
    (chain : VotedChain H config m k)
    (seen : List (Event H))
    (node : Node H) : Prop where
  position : VotePosition chain node.cx
  queues : VoteQueues chain node.cx
  line :
    InLine chain node.cx node.cx.blockProcessingWaiting
  blocks :
    ∀ j, 1 ≤ j → j ≤ m →
      Event.recv (chain.newBlock j) ∈ seen →
        BlockTracked chain node.cx j
  votes :
    ∀ i msg, 1 ≤ i → i ≤ k → chain.Carries i msg →
      Event.recv msg ∈ seen →
        VoteTracked chain node.cx i
  blocksDrained :
    node.phase ≠ .drain → node.phase ≠ .blocks →
      node.cx.blockProcessingWaiting = []
  othersDrained :
    node.phase = .readyAgain ∨ Returned node →
      node.cx.otherBuf = []
  quiet :
    Returned node →
      node.cx.voteReady.lookup node.cx.round = none

variable {chain : VotedChain H config m k}
variable {seen : List (Event H)}
variable {node : Node H}

/- An internal step succeeds and leaves less to do. -/
def VoteProgress
    (chain : VotedChain H config m k)
    (seen : List (Event H))
    (node : Node H) : Prop :=
  ∃ node', messageStep node .internal = .ok node' ∧
    VoteReordering chain seen node' ∧
    node'.size < node.size

namespace VoteReordering

/- The queues that are empty are passed over. -/
theorem skip
    (hInv : VoteReordering chain seen node)
    (phase : Phase)
    (hStep :
      messageStep node .internal =
        .ok { node with phase := phase })
    (hLess : phase.rank < node.phase.rank)
    (hBlocks :
      phase ≠ .drain → phase ≠ .blocks →
        node.cx.blockProcessingWaiting = [])
    (hOthers :
      phase = .readyAgain ∨
          Returned { node with phase := phase } →
        node.cx.otherBuf = [])
    (hQuiet :
      Returned { node with phase := phase } →
        node.cx.voteReady.lookup node.cx.round = none) :
    VoteProgress chain seen node := by
  refine ⟨_, hStep, ?_, ?_⟩
  · exact { hInv with
      blocksDrained := hBlocks
      othersDrained := hOthers
      quiet := hQuiet }
  · unfold Node.size
    dsimp only
    omega

/- A vote that was taken from its place is received. -/
theorem afterReceived
    {cx cx' : Context H}
    {i : Nat}
    {phase : Phase}
    (hi : 1 ≤ i ∧ i ≤ k)
    (hPos : VotePosition chain cx)
    (hQueues : VoteQueues chain cx)
    (hBlocks :
      ∀ j, 1 ≤ j → j ≤ m →
        Event.recv (chain.newBlock j) ∈ seen →
          BlockTracked chain cx j)
    (hVotes :
      ∀ j msg, 1 ≤ j → j ≤ k → chain.Carries j msg →
        Event.recv msg ∈ seen →
          j = i ∨ VoteTracked chain cx j)
    (hEmpty : cx.blockProcessingWaiting = [])
    (hPhase :
      phase = .ready ∨ phase = .others ∨
        (phase = .readyAgain ∧ cx.otherBuf = []))
    (hReceived : VoteReceived chain i cx cx') :
    VoteReordering chain seen
      { cx := cx', phase := phase } := by
  rcases hReceived.buffers_eq with
    ⟨hBuffered, _, hOthers⟩
  have hRunning : ¬ Returned { cx := cx', phase := phase } := by
    intro hReturned
    rcases hPhase with rfl | rfl | ⟨rfl, _⟩ <;>
      rcases hReturned with hCase | hCase | hCase <;>
        cases hCase
  refine
    { position := hPos.received hi.2 hReceived
      queues := hReceived.queues hi hQueues
      line := ?_
      blocks := ?_
      votes := fun j msg hFirst hLast hCarries hSeen =>
        hReceived.tracked
          (hVotes j msg hFirst hLast hCarries hSeen)
      blocksDrained := fun _ _ => hBuffered.trans hEmpty
      othersDrained := ?_
      quiet := fun hReturned => absurd hReturned hRunning }
  · dsimp only
    rw [hBuffered, hEmpty]
    exact InLine.nil
  · intro j hFirst hLast hSeen
    unfold BlockTracked VotedChain.Delivered
    dsimp only
    rw [hReceived.isDelivered_eq, hBuffered]
    exact hBlocks j hFirst hLast hSeen
  · intro hCases
    rcases hCases with hAgain | hReturned
    · rcases hPhase with rfl | rfl | ⟨_, hNone⟩
      · cases hAgain
      · cases hAgain
      · exact hOthers.trans hNone
    · exact absurd hReturned hRunning

/- The first block in line is processed. -/
theorem block
    {x : Block H × Batch}
    {rest : List (Block H × Batch)}
    (hInv : VoteReordering chain seen node)
    (hPhase : node.phase = .blocks)
    (hQueue : node.cx.blockProcessingWaiting = x :: rest) :
    VoteProgress chain seen node := by
  have hLine := hInv.line
  rw [hQueue] at hLine
  rcases hLine.head with ⟨j, hj, rfl, hParent⟩
  let popped :=
    { node.cx with blockProcessingWaiting := rest }
  have hPos : VotePosition chain popped :=
    { hInv.position with
      configured := { hInv.position.configured with } }
  have hQueues : VoteQueues chain popped :=
    { hInv.queues with }
  rcases hPos.processBlock hQueues hj hParent with
    ⟨cx', hOk, hProcessed⟩
  have hWaiting :
      cx'.blockProcessingWaiting = rest :=
    hProcessed.waiting
  refine ⟨{ cx := cx', phase := .blocks }, ?_, ?_, ?_⟩
  · unfold messageStep processMessage
    simp only [hPhase, reduceCtorEq, if_false, hQueue]
    rw [hOk]
    rfl
  · refine
      { position := hProcessed.position
        queues := hProcessed.queues
        line := ?_
        blocks := ?_
        votes := fun i msg hFirst hLast hCarries hSeen =>
          hProcessed.votes i ⟨hFirst, hLast⟩
            (hInv.votes i msg hFirst hLast hCarries hSeen)
        blocksDrained := fun _ hOther =>
          absurd rfl hOther
        othersDrained := ?_
        quiet := ?_ }
    · rw [hWaiting]
      exact hLine.tail (fun j => hProcessed.mono _)
        hProcessed.delivered
    · intro i hFirst hLast hSeen
      rcases hInv.blocks i hFirst hLast hSeen with
        hKnown | hQueued
      · exact Or.inl (hProcessed.mono _ hKnown)
      · rw [hQueue, List.mem_cons] at hQueued
        rcases hQueued with hSame | hRest
        · left
          have hBlock := congrArg Prod.fst hSame
          dsimp only at hBlock
          unfold VotedChain.Delivered
          rw [hBlock]
          exact hProcessed.delivered
        · right
          rw [hWaiting]
          exact hRest
    · intro hCases
      rcases hCases with hCase | hCase | hCase | hCase <;>
        cases hCase
    · intro hReturned
      rcases hReturned with hCase | hCase | hCase <;>
        cases hCase
  · have hLoad := hProcessed.load
    have hPopped :
        voteLoad popped + 1 = voteLoad node.cx := by
      unfold voteLoad
      rw [hQueue, List.length_cons]
      dsimp only [popped]
      omega
    unfold Node.size
    rw [hPhase]
    dsimp only
    omega

/- One iteration of a loop over the ready votes. -/
theorem ready
    {next : Phase}
    (hFaults : 1 ≤ config.numFaults)
    (hNodes : 2 * config.numFaults < config.numNodes)
    (hInv : VoteReordering chain seen node)
    (hPhase :
      (node.phase = .ready ∧ next = .others) ∨
        (node.phase = .readyAgain ∧ next = .propose))
    (hStep :
      messageStep node .internal =
        readyLoop node.phase next node.cx) :
    VoteProgress chain seen node := by
  have hDrained : node.cx.blockProcessingWaiting = [] := by
    apply hInv.blocksDrained <;>
      rcases hPhase with ⟨hAt, _⟩ | ⟨hAt, _⟩ <;> simp [hAt]
  unfold readyLoop at hStep
  cases hReady : node.cx.voteReady.lookup node.cx.round with
  | none =>
      rw [hReady] at hStep
      refine hInv.skip next hStep ?_ (fun _ _ => hDrained)
        ?_ (fun _ => hReady)
      · rcases hPhase with ⟨hAt, rfl⟩ | ⟨hAt, rfl⟩ <;>
          rw [hAt] <;> decide
      · intro hCases
        rcases hPhase with ⟨_, rfl⟩ | ⟨hAt, _⟩
        · rcases hCases with
            hCase | hCase | hCase | hCase <;> cases hCase
        · exact hInv.othersDrained (Or.inl hAt)
  | some v =>
      rw [hReady] at hStep
      rcases hInv.queues.ready _ v hReady with
        ⟨hRound, rfl, hKnown⟩
      let popped :=
        { node.cx with
          voteReady :=
            node.cx.voteReady.erase node.cx.round }
      have hPos : VotePosition chain popped :=
        { hInv.position with
          configured := { hInv.position.configured with } }
      have hQueues : VoteQueues chain popped :=
        { hInv.queues with
          ready := by
            intro r v hLookup
            apply hInv.queues.ready r v
            dsimp only [popped] at hLookup
            rw [FinMap.lookup_erase_eq] at hLookup
            split at hLookup
            · cases hLookup
            · exact hLookup }
      have hVotes :
          ∀ j msg, 1 ≤ j → j ≤ k → chain.Carries j msg →
            Event.recv msg ∈ seen →
              j = node.cx.round ∨
                VoteTracked chain popped j := by
        intro j msg hFirst hLast hCarries hSeen
        by_cases hNow : j = node.cx.round
        · exact Or.inl hNow
        · right
          unfold VoteTracked
          dsimp only [popped]
          rw [FinMap.lookup_erase_eq, if_neg hNow]
          exact hInv.votes j msg hFirst hLast hCarries hSeen
      rcases hPos.exists_accepted hFaults hNodes hRound.2
          hKnown with ⟨cx', hOk, hAccepted⟩
      refine ⟨{ cx := cx', phase := node.phase }, ?_, ?_, ?_⟩
      · rw [hStep]
        change Node.continue node.phase
          (onReceiveRoundVote (chain.vote popped.round)
            popped) = _
        rw [hOk]
        rfl
      · apply afterReceived hRound hPos hQueues hInv.blocks
          hVotes hDrained
        · rcases hPhase with ⟨hAt, _⟩ | ⟨hAt, _⟩
          · exact Or.inl hAt
          · exact Or.inr (Or.inr
              ⟨hAt, hInv.othersDrained (Or.inl hAt)⟩)
        · exact Or.inr (Or.inr (Or.inr
            ⟨rfl, hKnown, hAccepted⟩))
      · have hLoad := hAccepted.load_eq
        have hErased := FinMap.card_keys_erase_lt hReady
        have hPopped :
            voteLoad popped < voteLoad node.cx := by
          unfold voteLoad
          dsimp only [popped]
          omega
        unfold Node.size
        dsimp only
        omega

/- A vote from the network is received. -/
theorem other
    {msg : ProtocolMsg H}
    {rest : List (ProtocolMsg H)}
    (hFaults : 1 ≤ config.numFaults)
    (hNodes : 2 * config.numFaults < config.numNodes)
    (hInv : VoteReordering chain seen node)
    (hPhase : node.phase = .others)
    (hQueue : node.cx.otherBuf = msg :: rest) :
    VoteProgress chain seen node := by
  have hDrained : node.cx.blockProcessingWaiting = [] := by
    apply hInv.blocksDrained <;> simp [hPhase]
  rcases hInv.queues.others msg (by simp [hQueue]) with
    ⟨i, hi, hCarries⟩
  let popped := { node.cx with otherBuf := rest }
  have hPos : VotePosition chain popped :=
    { hInv.position with
      configured := { hInv.position.configured with } }
  have hQueues : VoteQueues chain popped :=
    { hInv.queues with
      others := fun next hRest =>
        hInv.queues.others next
          (by rw [hQueue]; exact List.mem_cons_of_mem _ hRest) }
  have hVotes :
      ∀ j msg, 1 ≤ j → j ≤ k → chain.Carries j msg →
        Event.recv msg ∈ seen →
          j = i ∨ VoteTracked chain popped j := by
    intro j next hFirst hLast hNext hSeen
    rcases hInv.votes j next hFirst hLast hNext hSeen with
      hPassed | ⟨queued, hQueued, hHolds⟩ | hWaits
    · exact Or.inr (Or.inl hPassed)
    · rw [hQueue, List.mem_cons] at hQueued
      rcases hQueued with rfl | hRest
      · exact Or.inl
          (chain.carries_inj ⟨hFirst, hLast⟩ hi hHolds
            hCarries)
      · exact Or.inr (Or.inr (Or.inl
          ⟨queued, hRest, hHolds⟩))
    · exact Or.inr (Or.inr (Or.inr hWaits))
  have hOk :
      ∃ cx', handleOther msg popped = .ok cx' ∧
        VoteReceived chain i popped cx' := by
    rcases hCarries with rfl | ⟨sender, rfl⟩
    · exact hPos.tryReceiveRoundVote hFaults hNodes hi _
    · exact hPos.tryReceiveRoundVote hFaults hNodes hi _
  rcases hOk with ⟨cx', hOk, hReceived⟩
  refine ⟨{ cx := cx', phase := .others }, ?_, ?_, ?_⟩
  · unfold messageStep processMessage
    simp only [hPhase, reduceCtorEq, if_false, hQueue]
    rw [hOk]
    rfl
  · exact afterReceived hi hPos hQueues hInv.blocks hVotes
      hDrained (Or.inr (Or.inl rfl)) hReceived
  · have hLoad := hReceived.load_le
    have hPopped :
        voteLoad popped + 3 = voteLoad node.cx := by
      unfold voteLoad
      rw [hQueue, List.length_cons]
      dsimp only [popped]
      omega
    unfold Node.size
    rw [hPhase]
    dsimp only
    omega

/- An empty queue before the last loop is passed over. -/
theorem pass
    (hInv : VoteReordering chain seen node)
    (phase : Phase)
    (hStep :
      messageStep node .internal =
        .ok { node with phase := phase })
    (hLess : phase.rank < node.phase.rank)
    (hBlocks :
      phase ≠ .drain → phase ≠ .blocks →
        node.cx.blockProcessingWaiting = [])
    (hBefore : 2 ≤ phase.rank) :
    VoteProgress chain seen node := by
  have hRunning :
      ¬ (phase = .readyAgain ∨
        Returned { node with phase := phase }) := by
    intro hCases
    rcases hCases with rfl | rfl | rfl | rfl <;>
      simp [Phase.rank] at hBefore
  exact hInv.skip phase hStep hLess hBlocks
    (fun hCases => absurd hCases hRunning)
    (fun hReturned => absurd (Or.inr hReturned) hRunning)

/- Until it returns, `process_message` gets on. -/
theorem works
    (hFaults : 1 ≤ config.numFaults)
    (hNodes : 2 * config.numFaults < config.numNodes)
    (hInv : VoteReordering chain seen node)
    (hRunning : ¬ Returned node) :
    VoteProgress chain seen node := by
  have hDrained :
      2 ≤ node.phase.rank → node.phase.rank ≤ 4 →
        node.cx.blockProcessingWaiting = [] := by
    intro _ hRank
    apply hInv.blocksDrained <;> intro hAt <;>
      simp [hAt, Phase.rank] at hRank
  cases hPhase : node.phase with
  | select => exact absurd (Or.inl hPhase) hRunning
  | propose => exact absurd (Or.inr (Or.inl hPhase)) hRunning
  | vote => exact absurd (Or.inr (Or.inr hPhase)) hRunning
  | drain =>
      refine hInv.pass .blocks ?_ (by rw [hPhase]; decide)
        (fun _ hOther => absurd rfl hOther) (by decide)
      unfold messageStep
      simp only [hPhase, if_true]
  | blocks =>
      cases hQueue : node.cx.blockProcessingWaiting with
      | cons x rest => exact hInv.block hPhase hQueue
      | nil =>
          refine hInv.pass .responses ?_
            (by rw [hPhase]; decide) (fun _ _ => hQueue)
            (by decide)
          unfold messageStep processMessage
          simp only [hPhase, reduceCtorEq, if_false, hQueue]
  | responses =>
      rw [hPhase] at hDrained
      refine hInv.pass .ready ?_ (by rw [hPhase]; decide)
        (fun _ _ => hDrained (by decide) (by decide))
        (by decide)
      unfold messageStep processMessage
      simp only [hPhase, reduceCtorEq, if_false,
        hInv.queues.responses]
  | ready =>
      apply hInv.ready hFaults hNodes
        (Or.inl ⟨hPhase, rfl⟩)
      unfold messageStep processMessage
      simp only [hPhase, reduceCtorEq, if_false]
  | others =>
      cases hQueue : node.cx.otherBuf with
      | cons msg rest =>
          exact hInv.other hFaults hNodes hPhase hQueue
      | nil =>
          rw [hPhase] at hDrained
          refine hInv.skip .readyAgain ?_
            (by rw [hPhase]; decide)
            (fun _ _ => hDrained (by decide) (by decide))
            (fun _ => hQueue) ?_
          · unfold messageStep processMessage
            simp only [hPhase, reduceCtorEq, if_false, hQueue]
          · intro hReturned
            rcases hReturned with hCase | hCase | hCase <;>
              cases hCase
  | readyAgain =>
      apply hInv.ready hFaults hNodes
        (Or.inr ⟨hPhase, rfl⟩)
      unfold messageStep processMessage
      simp only [hPhase, reduceCtorEq, if_false]

end VoteReordering

end Artemis

end LibApollo

------------------------------------------------------------
-- All Orders Lead to the Same Place
------------------------------------------------------------

namespace LibApollo

namespace Artemis

variable {H : Type} [DecidableEq H] [Crypto H]
variable {config : Config} {m k : Nat}
variable {seen : List (Event H)}
variable {node : Node H}

/-
  What a node may be fed next: any vote of the chain, and a
  block once its parent was fed.
-/
def VotedChain.Feeds
    (chain : VotedChain H config m k)
    (seen : List (Event H))
    (event : Event H) : Prop :=
  (∃ j, (1 ≤ j ∧ j ≤ m) ∧
      event = .recv (chain.newBlock j) ∧
      (j = 1 ∨
        Event.recv (chain.newBlock (j - 1)) ∈ seen)) ∨
    ∃ i msg, (1 ≤ i ∧ i ≤ k) ∧ chain.Carries i msg ∧
      event = .recv msg

/- A fresh node is fed the groups, turn by turn. -/
def Fed
    (config : Config)
    (groups : List (List (Event H)))
    (node : Node H) : Prop :=
  Machine.Turns messageStep .internal Returned
    (Node.new config) groups node

variable {chain : VotedChain H config m k}

namespace VoteReordering

/- A block of the chain is buffered. -/
theorem takesBlock
    {j : Nat}
    (hInv : VoteReordering chain seen node)
    (hj : 1 ≤ j ∧ j ≤ m)
    (hParent :
      j = 1 ∨
        Event.recv (chain.newBlock (j - 1)) ∈ seen) :
    VoteReordering chain
      (seen ++ [.recv (chain.newBlock j)])
      { cx := bufferMessage (chain.newBlock j) node.cx
        phase := .drain } := by
  have hBefore :
      chain.Delivered node.cx (j - 1) ∨
        (chain.block (j - 1), chain.batch (j - 1)) ∈
          node.cx.blockProcessingWaiting := by
    by_cases hFirst : j = 1
    · rw [hFirst]
      exact Or.inl hInv.position.genesis
    · exact hInv.blocks (j - 1) (by omega) (by omega)
        (hParent.resolve_left hFirst)
  refine
    { position :=
        { hInv.position with
          configured := { hInv.position.configured with } }
      queues := { hInv.queues with }
      line := hInv.line.append hj hBefore
      blocks := ?_
      votes := ?_
      blocksDrained := fun hOther _ => absurd rfl hOther
      othersDrained := ?_
      quiet := ?_ }
  · intro i hFirst hLast hSeen
    unfold BlockTracked
    change chain.Delivered node.cx i ∨
      (chain.block i, chain.batch i) ∈
        node.cx.blockProcessingWaiting ++
          [(chain.block j, chain.batch j)]
    rw [List.mem_append]
    rcases List.mem_append.mp hSeen with hEarlier | hNow
    · exact (hInv.blocks i hFirst hLast hEarlier).imp_right
        Or.inl
    · right
      right
      have hSame := List.mem_singleton.mp hNow
      unfold VotedChain.newBlock at hSame
      injection hSame with hMsg
      injection hMsg with hBlock hBatch
      rw [hBlock, hBatch]
      exact List.mem_singleton.mpr rfl
  · intro i msg hFirst hLast hCarries hSeen
    rcases List.mem_append.mp hSeen with hEarlier | hNow
    · exact hInv.votes i msg hFirst hLast hCarries hEarlier
    · have hSame := List.mem_singleton.mp hNow
      injection hSame with hMsg
      rw [hMsg] at hCarries
      rcases hCarries with hCase | ⟨_, hCase⟩ <;> cases hCase
  · intro hCases
    rcases hCases with hCase | hCase | hCase | hCase <;>
      cases hCase
  · intro hReturned
    rcases hReturned with hCase | hCase | hCase <;>
      cases hCase

/- A vote of the chain is buffered. -/
theorem takesVote
    {i : Nat}
    {msg : ProtocolMsg H}
    (hInv : VoteReordering chain seen node)
    (hi : 1 ≤ i ∧ i ≤ k)
    (hCarries : chain.Carries i msg) :
    VoteReordering chain (seen ++ [.recv msg])
      { cx := bufferMessage msg node.cx
        phase := .drain } := by
  have hBuffered :
      bufferMessage msg node.cx =
        { node.cx with
          otherBuf := node.cx.otherBuf ++ [msg] } := by
    rcases hCarries with rfl | ⟨sender, rfl⟩ <;> rfl
  rw [hBuffered]
  refine
    { position :=
        { hInv.position with
          configured := { hInv.position.configured with } }
      queues := { hInv.queues with others := ?_ }
      line := hInv.line
      blocks := ?_
      votes := ?_
      blocksDrained := fun hOther _ => absurd rfl hOther
      othersDrained := ?_
      quiet := ?_ }
  · intro next hNext
    rcases List.mem_append.mp hNext with hOld | hNew
    · exact hInv.queues.others next hOld
    · rw [List.mem_singleton.mp hNew]
      exact ⟨i, hi, hCarries⟩
  · intro j hFirst hLast hSeen
    rcases List.mem_append.mp hSeen with hEarlier | hNow
    · exact hInv.blocks j hFirst hLast hEarlier
    · have hSame := List.mem_singleton.mp hNow
      injection hSame with hMsg
      rw [← hMsg] at hCarries
      rcases hCarries with hCase | ⟨_, hCase⟩ <;> cases hCase
  · intro j next hFirst hLast hHolds hSeen
    rcases List.mem_append.mp hSeen with hEarlier | hNow
    · rcases hInv.votes j next hFirst hLast hHolds
          hEarlier with
        hPassed | ⟨queued, hQueued, hHeld⟩ | hWaits
      · exact Or.inl hPassed
      · exact Or.inr (Or.inl
          ⟨queued, List.mem_append_left _ hQueued, hHeld⟩)
      · exact Or.inr (Or.inr hWaits)
    · have hSame := List.mem_singleton.mp hNow
      injection hSame with hMsg
      rw [hMsg] at hHolds
      exact Or.inr (Or.inl ⟨msg, by simp, hHolds⟩)
  · intro hCases
    rcases hCases with hCase | hCase | hCase | hCase <;>
      cases hCase
  · intro hReturned
    rcases hReturned with hCase | hCase | hCase <;>
      cases hCase

/-
  A node that has seen all blocks and votes has accepted all
  votes: that of a round it stopped at would wait for a
  block, and all blocks are delivered.
-/
theorem complete
    (hInv : VoteReordering chain seen node)
    (hReturned : Returned node)
    (hBlocks :
      ∀ j, 1 ≤ j → j ≤ m →
        Event.recv (chain.newBlock j) ∈ seen)
    (hVotes :
      ∀ i, 1 ≤ i → i ≤ k →
        ∃ msg, chain.Carries i msg ∧
          Event.recv msg ∈ seen) :
    node.cx.round = k + 1 := by
  have hFirst := hInv.position.round_pos
  have hBound := hInv.position.round_le
  by_contra hOther
  have hShort : node.cx.round ≤ k := by omega
  have hDrained : node.cx.blockProcessingWaiting = [] := by
    apply hInv.blocksDrained <;> intro hAt <;>
      simp [Returned, hAt] at hReturned
  rcases hVotes _ hFirst hShort with ⟨msg, hCarries, hSeen⟩
  rcases hInv.votes _ msg hFirst hShort hCarries hSeen with
    hPassed | ⟨queued, hQueued, _⟩ | hReady | ⟨_, hMissing⟩
  · exact Nat.lt_irrefl _ hPassed
  · rw [hInv.othersDrained (Or.inr hReturned)] at hQueued
    exact List.not_mem_nil hQueued
  · rw [hInv.quiet hReturned] at hReady
    cases hReady
  · rcases chain.names _ hFirst hShort with ⟨j, hj, hName⟩
    rcases hInv.blocks j hj.1 hj.2
        (hBlocks j hj.1 hj.2) with hKnown | hQueued
    · unfold VotedChain.Delivered at hKnown
      rw [hName, hKnown] at hMissing
      cases hMissing
    · rw [hDrained] at hQueued
      exact List.not_mem_nil hQueued

end VoteReordering

theorem votePosition_new
    (chain : VotedChain H config m k) :
    VotePosition chain
      (Node.new config : Node H).cx where
  configured := ⟨rfl, rfl, rfl, rfl, rfl, rfl⟩
  round_pos := Nat.le_refl 1
  round_le := Nat.le_add_left 1 k
  passed := by
    intro i hFirst hPassed
    exact absurd hPassed (Nat.not_lt.mpr hFirst)
  leaders := rfl
  genesis := by
    unfold VotedChain.Delivered
    rw [chain.genesis]
    exact (nodeInv_new config).context.settled.genesis
  closed := (nodeInv_new config).context.settled.closed
  noChildren := rfl

theorem voteReordering_new
    (chain : VotedChain H config m k) :
    VoteReordering chain [] (Node.new config : Node H) where
  position := votePosition_new chain
  queues := by
    constructor <;>
      simp [Node.new, Context.new, Context.tellBatcher,
        Context.announceHeightToBatcher]
  line := InLine.nil
  blocks := nofun
  votes := nofun
  blocksDrained := fun _ _ => rfl
  othersDrained := fun _ => rfl
  quiet := by
    intro _
    simp [Node.new, Context.new, Context.tellBatcher,
      Context.announceHeightToBatcher]

theorem voteReordering_drains
    (chain : VotedChain H config m k)
    (hFaults : 1 ≤ config.numFaults)
    (hNodes : 2 * config.numFaults < config.numNodes) :
    Machine.Drains messageStep .internal Returned
      (fun _ => True) chain.Feeds (VoteReordering chain)
      Node.size where
  opened := fun _ _ => trivial
  takes := by
    intro seen node event hInv _ hFeeds
    rcases hFeeds with
      ⟨j, hj, rfl, hParent⟩ | ⟨i, msg, hi, hCarries, rfl⟩
    · exact ⟨_, rfl, hInv.takesBlock hj hParent, trivial⟩
    · exact ⟨_, rfl, hInv.takesVote hi hCarries, trivial⟩
  works := fun seen node hInv hRunning =>
    hInv.works hFaults hNodes hRunning
  idles := by
    intro seen node _ hReturned
    unfold messageStep processMessage
    rcases hReturned with hAt | hAt | hAt <;> simp [hAt]

/-
  However blocks in chain order and votes in any order are
  interleaved, repeated and grouped, the node gets through
  them and records every vote in its round.
-/
theorem vote_reordering_confluent
    (chain : VotedChain H config m k)
    (groups : List (List (Event H)))
    (hFaults : 1 ≤ config.numFaults)
    (hNodes : 2 * config.numFaults < config.numNodes)
    (hOrder :
      Machine.InOrder chain.Feeds [] groups.flatten)
    (hBlocks :
      ∀ j, 1 ≤ j → j ≤ m →
        Event.recv (chain.newBlock j) ∈ groups.flatten)
    (hVotes :
      ∀ i, 1 ≤ i → i ≤ k →
        ∃ msg, chain.Carries i msg ∧
          Event.recv msg ∈ groups.flatten) :
    (∃ node, Fed config groups node) ∧
      ∀ node, Fed config groups node →
        node.cx.round = k + 1 ∧
          ∀ i, 1 ≤ i → i ≤ k →
            node.cx.voteChain.lookup i =
              some (chain.vote i) := by
  have hDrains :=
    voteReordering_drains chain hFaults hNodes
  have hStart := voteReordering_new chain
  refine ⟨hDrains.exists_turns hStart (Or.inl rfl) hOrder,
    ?_⟩
  intro node hFed
  rcases hDrains.invariant hStart (Or.inl rfl) hOrder
      hFed with ⟨hInv, hReturned⟩
  have hRound := hInv.complete hReturned hBlocks hVotes
  refine ⟨hRound, ?_⟩
  intro i hFirst hLast
  exact (hInv.position.passed i hFirst (by omega)).1

/- The view leader of three replicas extends its chain. -/
def ledBlock : Nat → Block Digest
| 0 => Block.genesis
| j + 1 => leaderBlock (ledBlock j).blk (j + 1)

/- Every block above genesis is made by the leader. -/
theorem ledBlock_made
    {j : Nat}
    (hFirst : 1 ≤ j) :
    (oneBatch : Batch).hash =
        (ledBlock j).blk.body.batchHash ∧
      (ledBlock j).blk.header.author = 0 ∧
      (ledBlock j).sig.origin = 0 ∧
      (ledBlock j).checkSig (Digest.keyOf 0) = true := by
  cases j with
  | zero => omega
  | succ j => exact ⟨rfl, rfl, rfl, decide_eq_true rfl⟩

theorem ledBlock_signature
    (j : Nat)
    (hFirst : 1 ≤ j)
    (_ : j ≤ 2) :
    ∃ publicKey,
      (smallConfig 1).pkMap.lookup 0 = some publicKey ∧
        (ledBlock j).checkSig publicKey = true := by
  have hKey :
      (Digest.keyMap [0, 1, 2]).lookup 0 =
        some (Digest.keyOf 0) := by
    decide
  exact ⟨Digest.keyOf 0, hKey, (ledBlock_made hFirst).2.2.2⟩

/- The vote of a round, for the blocks in reverse. -/
def ledVote (i : Nat) : UCRVote Digest :=
  voteFor (Leaders.leaderAt Digest 3 1 i) i
    (ledBlock (3 - i))

theorem ledVote_names
    (i : Nat)
    (hFirst : 1 ≤ i)
    (hLast : i ≤ 2) :
    ∃ j, (1 ≤ j ∧ j ≤ 2) ∧
      (ledVote i).hash = (ledBlock j).blk.hash := by
  refine ⟨3 - i, ?_, rfl⟩
  omega

theorem ledVote_distinct
    (i i' : Nat)
    (hi : 1 ≤ i ∧ i ≤ 2)
    (hi' : 1 ≤ i' ∧ i' ≤ 2)
    (hHash : (ledVote i).hash = (ledVote i').hash) :
    i = i' := by
  have hCases :
      ∀ j, 1 ≤ j ∧ j ≤ 2 → j = 1 ∨ j = 2 := by
    intro j hj
    omega
  rcases hCases i hi with rfl | rfl <;>
    rcases hCases i' hi' with rfl | rfl <;>
      first | rfl | (revert hHash; decide)

theorem ledVote_signed
    (i : Nat)
    (hFirst : 1 ≤ i)
    (hLast : i ≤ 2) :
    ∃ publicKey,
      (smallConfig 1).pkMap.lookup
          (Leaders.leaderAt Digest (smallConfig 1).numNodes
            (smallConfig 1).numFaults i) =
          some publicKey ∧
        (ledVote i).checkSig publicKey = true := by
  have hCases : i = 1 ∨ i = 2 := by omega
  rcases hCases with rfl | rfl
  · exact ⟨Digest.keyOf (Leaders.leaderAt Digest 3 1 1),
      by decide +kernel, by decide +kernel⟩
  · exact ⟨Digest.keyOf (Leaders.leaderAt Digest 3 1 2),
      by decide +kernel, by decide +kernel⟩

/- Two blocks, voted for in reverse by their leaders. -/
def ledChain : VotedChain Digest (smallConfig 1) 2 2 where
  block := ledBlock
  batch := fun _ => oneBatch
  vote := fun i =>
    voteFor (Leaders.leaderAt Digest 3 1 i) i
      (ledBlock (3 - i))
  genesis := rfl
  prev := fun _ _ => rfl
  sealed := fun _ hFirst _ => (ledBlock_made hFirst).1
  author := fun _ hFirst _ => (ledBlock_made hFirst).2.1
  origin := fun _ hFirst _ => (ledBlock_made hFirst).2.2.1
  signature := ledBlock_signature
  round := fun _ _ _ => rfl
  view := fun _ _ _ => rfl
  names := ledVote_names
  distinct := ledVote_distinct
  signed := ledVote_signed

/-
  The second vote comes twice and before the first block,
  the first vote comes as a relay after all blocks.
-/
def mixedGroups : List (List (Event Digest)) :=
  [[.recv (.ucrVote (ledChain.vote 2))],
    [.recv (ledChain.newBlock 1),
      .recv (.relay 2 (ledChain.vote 2)),
      .recv (ledChain.newBlock 2)],
    [.recv (.relay 0 (ledChain.vote 1))]]

theorem mixedGroups_inOrder :
    Machine.InOrder ledChain.Feeds []
      mixedGroups.flatten := by
  have hVote :
      ∀ i seen msg, (1 ≤ i ∧ i ≤ 2) →
        ledChain.Carries i msg →
          ledChain.Feeds seen (.recv msg) :=
    fun i _ msg hi hCarries =>
      Or.inr ⟨i, msg, hi, hCarries, rfl⟩
  refine .cons (hVote 2 _ _ (by omega) (Or.inl rfl)) ?_
  refine .cons (Or.inl ⟨1, by omega, rfl, Or.inl rfl⟩) ?_
  refine .cons
    (hVote 2 _ _ (by omega) (Or.inr ⟨2, rfl⟩)) ?_
  refine .cons
    (Or.inl ⟨2, by omega, rfl, Or.inr (by simp)⟩) ?_
  exact .cons
    (hVote 1 _ _ (by omega) (Or.inr ⟨0, rfl⟩)) .nil

theorem vote_reordering_confluent_mixed :
    (∃ node, Fed (smallConfig 1) mixedGroups node) ∧
      ∀ node, Fed (smallConfig 1) mixedGroups node →
        node.cx.round = 3 ∧
          ∀ i, 1 ≤ i → i ≤ 2 →
            node.cx.voteChain.lookup i =
              some (ledChain.vote i) := by
  apply vote_reordering_confluent ledChain mixedGroups
    (by decide) (by decide) mixedGroups_inOrder
  · intro j hFirst hLast
    have hCases : j = 1 ∨ j = 2 := by omega
    rcases hCases with rfl | rfl <;> simp [mixedGroups]
  · intro i hFirst hLast
    have hCases : i = 1 ∨ i = 2 := by omega
    rcases hCases with rfl | rfl
    · exact ⟨_, Or.inr ⟨0, rfl⟩, by simp [mixedGroups]⟩
    · exact ⟨_, Or.inl rfl, by simp [mixedGroups]⟩

end Artemis

end LibApollo
