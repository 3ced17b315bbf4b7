import LibApollo.Apollo.Authenticity
import LibApollo.Base.Turns

/-
  Reordering at an Apollo node is confluent.

  The proposals of the first rounds may reach a node in any
  order, any number of times and in any grouping.  A
  proposal that comes too early is kept for its round when
  its parent is stored, and parked under its parent when it
  is not; storing a block starts the loop over its parked
  descendants.  Nothing is lost on these ways: at the end of
  a turn the node has accepted every proposal up to the
  first that is missing.

  Key definitions include:
    * `ProposalChain`
    * `Position`, `Tracked`
    * `Reordering`

  Key theorems include:
    * `Reordering.takes`, `Reordering.works`
    * `reordering_confluent`
-/

------------------------------------------------------------
-- The Proposals of the First Rounds
------------------------------------------------------------

namespace LibApollo

namespace Apollo

variable {H : Type} [DecidableEq H] [Crypto H]

/-
  A chain of blocks above genesis, proposed in the rounds
  from 1 to `k` by their leaders.
-/
structure ProposalChain
    (H : Type) [DecidableEq H] [Crypto H]
    (config : Config)
    (k : Nat) where
  propose : Nat → Propose H
  block : Nat → Block H
  batch : Nat → Batch
  genesis : block 0 = Block.genesis
  round : ∀ i, 1 ≤ i → i ≤ k → (propose i).round = i
  height : ∀ i, i ≤ k → (block i).header.height = i
  prev :
    ∀ i, i < k →
      (block (i + 1)).header.prev = (block i).hash
  distinct :
    ∀ i j, i ≤ k → j ≤ k →
      (block i).hash = (block j).hash → i = j
  named :
    ∀ i, 1 ≤ i → i ≤ k →
      (block i).hash = (propose i).blockHash
  sealed :
    ∀ i, 1 ≤ i → i ≤ k →
      (batch i).hash = (block i).body.batchHash
  author :
    ∀ i, 1 ≤ i → i ≤ k →
      (block i).header.author = leaderOf config.numNodes i
  origin :
    ∀ i, 1 ≤ i → i ≤ k →
      (propose i).sig.origin = leaderOf config.numNodes i
  signature :
    ∀ i, 1 ≤ i → i ≤ k →
      ∃ publicKey,
        config.pkMap.lookup (leaderOf config.numNodes i) =
            some publicKey ∧
          (propose i).checkSig publicKey = true

namespace ProposalChain

variable {config : Config} {k : Nat}

/- The message that carries a proposal of the chain. -/
def message
    (chain : ProposalChain H config k)
    (i : Nat) : ProtocolMsg H :=
  .newProposal (chain.propose i) (chain.block i)
    (chain.batch i)

/- What the message becomes in the buffer of the node. -/
def entry
    (chain : ProposalChain H config k)
    (i : Nat) : Replica × Propose H × Block H × Batch :=
  ((chain.propose i).sig.origin, chain.propose i,
    chain.block i, chain.batch i)

/- The block is found in the index of the node. -/
def Stored
    (chain : ProposalChain H config k)
    (cx : Context H)
    (i : Nat) : Prop :=
  cx.storage.deliveredBlockFromHash (chain.block i).hash =
    some (chain.block i)

/- Proposals of different rounds are different. -/
theorem entry_inj
    (chain : ProposalChain H config k)
    {i j : Nat}
    (hi : 1 ≤ i ∧ i ≤ k)
    (hj : 1 ≤ j ∧ j ≤ k)
    (hEntry : chain.entry i = chain.entry j) :
    i = j := by
  have hPropose : chain.propose i = chain.propose j :=
    congrArg (fun x => x.2.1) hEntry
  rw [← chain.round i hi.1 hi.2, hPropose,
    chain.round j hj.1 hj.2]

end ProposalChain

/-
  Where a node stands on the chain: the rounds before its
  own have their proposals, and it stores no other blocks.
-/
structure Position
    {config : Config}
    {k : Nat}
    (chain : ProposalChain H config k)
    (cx : Context H) : Prop where
  chainInv : ChainInv cx
  linear : LinearInv cx
  configured : Configured config cx
  numFaults : cx.numFaults = config.numFaults
  round_le : cx.round ≤ k + 1
  passed :
    ∀ i, 1 ≤ i → i < cx.round →
      cx.propChainByRound.lookup i = some (chain.propose i)
  lastSeen : cx.lastSeenBlock = chain.block (cx.round - 1)
  known :
    ∀ hash block,
      cx.storage.deliveredBlockFromHash hash =
          some block →
        ∃ i, i ≤ k ∧ block = chain.block i
  heights :
    ∀ height block,
      cx.storage.deliveredBlockFromHt height =
          some block →
        ∃ i, i ≤ k ∧ block = chain.block i

namespace Position

variable {config : Config} {k : Nat}
variable {chain : ProposalChain H config k}
variable {cx cx' : Context H}
variable {i : Nat}

/- The proposal of a round is recorded once it has passed. -/
theorem lookup_isSome_iff
    (hPos : Position chain cx)
    (hi : 1 ≤ i) :
    (cx.propChainByRound.lookup i).isSome ↔
      i < cx.round := by
  rw [Option.isSome_iff_exists, hPos.chainInv.keys i]
  constructor
  · intro hParts
    exact hParts.2
  · intro hPassed
    exact ⟨hi, hPassed⟩

/- A block of the chain that is delivered is stored. -/
theorem stored_of_isDelivered
    (hPos : Position chain cx)
    (hi : i ≤ k)
    (hDelivered :
      cx.storage.isDeliveredByHash (chain.block i).hash =
        true) :
    chain.Stored cx i := by
  rcases (Storage.isDeliveredByHash_iff _ _).mp
      hDelivered with ⟨block, hLookup⟩
  rcases hPos.known _ _ hLookup with ⟨j, hj, rfl⟩
  have hSame : j = i :=
    chain.distinct j i hj hi
      (Storage.getHash_of_delivered hLookup)
  rw [hSame] at hLookup
  exact hLookup

/- The blocks of the rounds that have passed are stored. -/
theorem stored
    (hPos : Position chain cx)
    (hPassed : i < cx.round) :
    chain.Stored cx i := by
  have hBound := hPos.round_le
  apply hPos.stored_of_isDelivered (by omega)
  apply (Storage.isDeliveredByHash_iff _ _).mpr
  cases i with
  | zero =>
      rw [chain.genesis]
      exact ⟨_, hPos.chainInv.genesis⟩
  | succ i =>
      have hLookup := hPos.passed (i + 1) (by omega) hPassed
      rw [chain.named (i + 1) (by omega) (by omega)]
      exact (hPos.chainInv.entry _ _ hLookup).2

/- Storing a block of the chain loses none. -/
theorem delivered_mono
    (hPos : Position chain cx)
    (hi : i ≤ k)
    (hash : H)
    (stored : Block H)
    (hLookup :
      cx.storage.deliveredBlockFromHash hash =
        some stored) :
    (cx.storage.addDeliveredBlock
        (chain.block i)).deliveredBlockFromHash hash =
      some stored := by
  apply Storage.delivered_mono _ hLookup
  intro hSame
  rcases hPos.known _ _ hLookup with ⟨j, hj, rfl⟩
  rw [chain.distinct j i hj hi hSame]

theorem store
    (hPos : Position chain cx)
    (hi : i ≤ k) :
    Position chain
      (cx.addDeliveredBlock (chain.block i)) := by
  have hMono := hPos.delivered_mono hi
  refine { hPos with
    chainInv := hPos.chainInv.grow hMono
    linear := ?_
    configured := { hPos.configured with }
    known := ?_
    heights := ?_ }
  · have hSame :
        SameChain cx
          (cx.addDeliveredBlock (chain.block i)) :=
      ⟨rfl, rfl, rfl, rfl⟩
    refine LinearInv.sameChain ?_ hSame rfl hPos.linear
    intro hash above hParent
    rcases Storage.exists_delivered_of_parent hParent with
      ⟨stored, hLookup, hPrev⟩
    rw [← hPrev]
    exact Storage.parent_of_delivered
      (hMono _ _ hLookup)
  · exact Storage.forall_addDeliveredBlock hPos.known
      ⟨i, hi, rfl⟩
  · intro height block hLookup
    change (cx.storage.addDeliveredBlock
      (chain.block i)).deliveredBlockFromHt height = _
      at hLookup
    rw [Storage.addDeliveredBlock_deliveredBlockFromHt]
      at hLookup
    split at hLookup
    · cases hLookup
      exact ⟨i, hi, rfl⟩
    · exact hPos.heights height block hLookup

/- No other block is known at the height of a block. -/
theorem not_equivocates
    (hPos : Position chain cx)
    (hi : i ≤ k) :
    equivocates cx (chain.block i) = false := by
  unfold equivocates
  split
  · rename_i other hLookup
    rcases hPos.heights _ _ hLookup with ⟨j, hj, rfl⟩
    have hHeight :
        (chain.block j).header.height =
          (chain.block i).header.height :=
      cx.storage.height_key _ _ hLookup
    rw [chain.height j hj, chain.height i hi] at hHeight
    rw [hHeight]
    simp
  · rfl

/- The walk of a commit finds every block it needs. -/
theorem commitWalk_isSome
    (hPos : Position chain cx)
    (hNext : chain.Stored cx cx.round)
    (hBound : cx.round ≤ k)
    (hi : i ≤ cx.round) :
    (cx.storage.commitWalk (chain.block i).hash).isSome := by
  apply Storage.commitWalk_isSome
    (fun hash =>
      ∃ j, j ≤ cx.round ∧ hash = (chain.block j).hash)
  · exact ⟨i, hi, rfl⟩
  · intro hash hParts
    rcases hParts with ⟨j, hj, rfl⟩
    have hStored : chain.Stored cx j := by
      rcases Nat.lt_or_eq_of_le hj with hLt | rfl
      · exact hPos.stored hLt
      · exact hNext
    have hParent := Storage.parent_of_delivered hStored
    cases j with
    | zero =>
        refine ⟨_, hParent, 0, hj, ?_⟩
        rw [chain.genesis]
        rfl
    | succ j =>
        refine ⟨_, hParent, j, by omega, ?_⟩
        exact chain.prev j (by omega)

/- The proposal of the current round is recorded. -/
theorem exists_accepted
    (hPos : Position chain cx)
    (hNext : chain.Stored cx cx.round)
    (hBound : cx.round ≤ k) :
    ∃ cx',
      acceptProposal (chain.propose cx.round)
          (chain.block cx.round) cx = .ok cx' ∧
        Accepted (chain.propose cx.round)
          (chain.block cx.round) cx cx' := by
  have hFirst := hPos.chainInv.round_pos
  have hRound := chain.round cx.round hFirst hBound
  -- the round that is committed has its proposal
  have hCommits :
      ∀ i, 1 ≤ i → i ≤ cx.round →
        (cx.propChainByRound.insert
            (chain.propose cx.round).round
            (chain.propose cx.round)).lookup i =
          some (chain.propose i) := by
    intro i hPositive hi
    rw [FinMap.lookup_insert_eq, hRound]
    rcases Nat.lt_or_eq_of_le hi with hLt | rfl
    · rw [if_neg (by omega)]
      exact hPos.passed i hPositive hLt
    · rw [if_pos rfl]
  cases hAccept :
      acceptProposal (chain.propose cx.round)
        (chain.block cx.round) cx with
  | ok cx' => exact ⟨cx', rfl, acceptProposal_ok hAccept⟩
  | error panic =>
      exfalso
      rcases acceptProposal_error hAccept with
        ⟨hDue, ⟨_, hNone⟩ | ⟨_, q, hSome, hWalk⟩⟩
      · rw [hCommits _ (by omega) (by omega)] at hNone
        cases hNone
      · rw [hCommits _ (by omega) (by omega)] at hSome
        cases hSome
        have hFound := hPos.commitWalk_isSome hNext hBound
          (i := cx.round - cx.numFaults) (by omega)
        rw [chain.named _ (by omega) (by omega), hWalk]
          at hFound
        cases hFound

/- After the acceptance the node stands one round further. -/
theorem accepted
    (hPos : Position chain cx)
    (hNext : chain.Stored cx cx.round)
    (hBound : cx.round ≤ k)
    (hAccepted :
      Accepted (chain.propose cx.round)
        (chain.block cx.round) cx cx') :
    Position chain cx' := by
  have hFirst := hPos.chainInv.round_pos
  have hRound := chain.round cx.round hFirst hBound
  have hNamed := chain.named cx.round hFirst hBound
  have hPrev :
      (chain.block cx.round).header.prev =
        cx.lastSeenBlock.hash := by
    have hLink := chain.prev (cx.round - 1) (by omega)
    rw [show cx.round - 1 + 1 = cx.round by omega] at hLink
    rw [hLink, hPos.lastSeen]
  have hChain' :=
    hPos.chainInv.accepted hRound hNamed hNext hAccepted
  have hLinear' :=
    hPos.linear.accepted hPos.chainInv hRound hNamed hNext
      hPrev hAccepted
  have hConfig' := hPos.configured.accepted hAccepted
  rcases hAccepted with ⟨storage, _, _, _, _, hOutcome, hEq⟩
  have hDelivered := hOutcome.delivered_eq
  have hHeights :
      ∀ height,
        storage.deliveredBlockFromHt height =
          cx.storage.deliveredBlockFromHt height := by
    intro height
    rcases hOutcome with ⟨_, rfl⟩ | ⟨_, q, _, hSpec⟩
    · rfl
    · exact congrArg (Finmap.lookup height) hSpec.byHt
  refine
    { chainInv := hChain'
      linear := hLinear'
      configured := hConfig'
      numFaults := ?_
      round_le := ?_
      passed := ?_
      lastSeen := ?_
      known := ?_
      heights := ?_ }
  · rw [hEq]
    exact hPos.numFaults
  · rw [hEq]
    dsimp only
    omega
  · intro i hPositive hPassed
    rw [hEq] at hPassed ⊢
    dsimp only at hPassed ⊢
    rw [FinMap.lookup_insert_eq, hRound]
    by_cases hLast : i = cx.round
    · rw [if_pos hLast, hLast]
    · rw [if_neg hLast]
      exact hPos.passed i hPositive (by omega)
  · rw [hEq]
    rfl
  · intro hash block hLookup
    rw [hEq] at hLookup
    exact hPos.known hash block
      ((hDelivered hash).symm.trans hLookup)
  · intro height block hLookup
    rw [hEq] at hLookup
    exact hPos.heights height block
      ((hHeights height).symm.trans hLookup)

end Position

end Apollo

end LibApollo

------------------------------------------------------------
-- Receiving a Proposal of the Chain
------------------------------------------------------------

namespace LibApollo

namespace Apollo

variable {H : Type} [DecidableEq H] [Crypto H]
variable {config : Config} {k : Nat}
variable {chain : ProposalChain H config k}
variable {cx cx' : Context H}
variable {i j : Nat}

/-
  What becomes of a proposal whose block is stored: it is
  kept for its round, it is late, or it is accepted.
-/
def Received
    (chain : ProposalChain H config k)
    (sender : Replica)
    (i : Nat)
    (cx cx' : Context H) : Prop :=
  (cx.round < i ∧
      cx' =
        { cx with
          futureMsgs :=
            cx.futureMsgs.insert i
              (sender, chain.propose i) }) ∨
    (i < cx.round ∧ cx' = cx) ∨
    (i = cx.round ∧
      Accepted (chain.propose i) (chain.block i) cx cx')

/- The proposal of the current round passes all checks. -/
theorem Position.tryReceiveProposal_eq
    (hNodes : 0 < config.numNodes)
    (hPos : Position chain cx)
    (hBound : cx.round ≤ k)
    (sender : Replica) :
    tryReceiveProposal (chain.propose cx.round)
        (chain.block cx.round) sender cx =
      acceptProposal (chain.propose cx.round)
        (chain.block cx.round) cx := by
  have hFirst := hPos.chainInv.round_pos
  have hRound := chain.round cx.round hFirst hBound
  have hLeader :=
    hPos.chainInv.leaderOf_eq hPos.configured hNodes
  have hOrigin :
      cx.roundLeader =
        (chain.propose cx.round).sig.origin :=
    hLeader.trans (chain.origin _ hFirst hBound).symm
  have hAuthor :
      cx.roundLeader =
        (chain.block cx.round).header.author :=
    hLeader.trans (chain.author _ hFirst hBound).symm
  have hReceive :
      onReceiveProposal (chain.propose cx.round)
          (chain.block cx.round) cx =
        acceptProposal (chain.propose cx.round)
          (chain.block cx.round) cx := by
    unfold onReceiveProposal
    rw [hPos.not_equivocates hBound]
    rfl
  unfold tryReceiveProposal
  rw [hRound, if_neg (Nat.lt_irrefl _),
    if_neg (Nat.lt_irrefl _),
    if_neg (not_not.mpr (chain.named _ hFirst hBound)),
    if_neg (not_not.mpr hOrigin),
    if_neg (not_not.mpr hAuthor)]
  by_cases hSelf :
      (chain.propose cx.round).sig.origin = cx.myid
  · rw [if_pos hSelf]
    exact hReceive
  · rw [if_neg hSelf]
    rcases chain.signature _ hFirst hBound with
      ⟨publicKey, hKey, hVerify⟩
    have hKey' :
        cx.pubKeyMap.lookup
            (chain.propose cx.round).sig.origin =
          some publicKey := by
      rw [hPos.configured.pubKeyMap,
        FinMap.lookup_erase_eq,
        if_neg (by rw [← hPos.configured.myid]
                   exact hSelf),
        chain.origin _ hFirst hBound]
      exact hKey
    rw [hKey']
    dsimp only
    rw [if_pos hVerify]
    exact hReceive

/- A stored proposal is kept, late or accepted. -/
theorem Position.receiveOrKeep
    (hNodes : 0 < config.numNodes)
    (hPos : Position chain cx)
    (hi : 1 ≤ i ∧ i ≤ k)
    (hStored : chain.Stored cx i)
    (sender : Replica) :
    ∃ cx',
      receiveOrKeep sender (chain.propose i)
          (chain.block i) cx = .ok cx' ∧
        Received chain sender i cx cx' := by
  have hRound := chain.round i hi.1 hi.2
  unfold Apollo.receiveOrKeep
  rw [hRound]
  rcases Nat.lt_trichotomy cx.round i with
    hEarly | hNow | hLate
  · rw [if_pos hEarly]
    exact ⟨_, rfl, Or.inl ⟨hEarly, rfl⟩⟩
  · rw [if_neg (by omega), ← hNow,
      hPos.tryReceiveProposal_eq hNodes (by omega)]
    rw [← hNow] at hStored
    rcases hPos.exists_accepted hStored (by omega) with
      ⟨cx', hAccept, hAccepted⟩
    exact ⟨cx', hAccept, Or.inr (Or.inr ⟨rfl, hAccepted⟩)⟩
  · rw [if_neg (by omega)]
    unfold tryReceiveProposal
    rw [hRound, if_pos hLate]
    exact ⟨_, rfl, Or.inr (Or.inl ⟨hLate, rfl⟩)⟩

/- The chain moves on by a received proposal at most. -/
theorem Position.received
    {sender : Replica}
    (hPos : Position chain cx)
    (hi : i ≤ k)
    (hStored : chain.Stored cx i)
    (hReceived : Received chain sender i cx cx') :
    Position chain cx' := by
  rcases hReceived with
    ⟨_, rfl⟩ | ⟨_, rfl⟩ | ⟨rfl, hAccepted⟩
  · exact { hPos with
      chainInv := { hPos.chainInv with }
      linear := { hPos.linear with }
      configured := { hPos.configured with } }
  · exact hPos
  · exact hPos.accepted hStored hi hAccepted

end Apollo

end LibApollo

------------------------------------------------------------
-- Where a Proposal Waits
------------------------------------------------------------

namespace LibApollo

namespace Apollo

variable {H : Type} [DecidableEq H] [Crypto H]
variable {config : Config} {k : Nat}
variable {chain : ProposalChain H config k}
variable {cx cx' : Context H}
variable {sender : Replica}
variable {i j : Nat}

/- The proposal is accepted, or it waits in some place. -/
def Tracked
    (chain : ProposalChain H config k)
    (cx : Context H)
    (i : Nat) : Prop :=
  i < cx.round ∨
    chain.entry i ∈ cx.propBuf ∨
    (cx.futureMsgs.lookup i).isSome ∨
    (cx.propWaitingParent.lookup
      (chain.block (i - 1)).hash).isSome

/- The queues hold proposals of the chain only. -/
structure Queues
    (chain : ProposalChain H config k)
    (cx : Context H) : Prop where
  buffered :
    ∀ x ∈ cx.propBuf,
      ∃ i, (1 ≤ i ∧ i ≤ k) ∧ x = chain.entry i
  relayBuf : cx.relayBuf = []
  otherBuf : cx.otherBuf = []
  pendingBatches : cx.pendingBatches = []
  future :
    ∀ i x, cx.futureMsgs.lookup i = some x →
      (1 ≤ i ∧ i ≤ k) ∧
        x.2 = chain.propose i ∧
        chain.Stored cx i ∧
        chain.Stored cx (i - 1)
  parked :
    ∀ hash p, cx.propWaitingParent.lookup hash = some p →
      ∃ i, i < k ∧
        hash = (chain.block i).hash ∧
        p = chain.propose (i + 1) ∧
        chain.Stored cx (i + 1)

/- Children are parked only under blocks still to come. -/
def Clear
    (chain : ProposalChain H config k)
    (cx : Context H) : Prop :=
  ∀ i, i < k →
    (cx.propWaitingParent.lookup
      (chain.block i).hash).isSome →
      cx.round ≤ i

/- What is left to do with the queued proposals. -/
def load (cx : Context H) : Nat :=
  4 * cx.propBuf.length +
    3 * cx.propWaitingParent.keys.card +
    2 * cx.futureMsgs.keys.card

theorem Received.stored
    (hReceived : Received chain sender i cx cx')
    (hStored : chain.Stored cx j) :
    chain.Stored cx' j := by
  rcases hReceived with
    ⟨_, rfl⟩ | ⟨_, rfl⟩ |
      ⟨_, _, _, _, _, _, hOutcome, rfl⟩
  · exact hStored
  · exact hStored
  · exact (hOutcome.delivered_eq _).trans hStored

theorem Received.parked_eq
    (hReceived : Received chain sender i cx cx') :
    cx'.propWaitingParent = cx.propWaitingParent := by
  rcases hReceived with
    ⟨_, rfl⟩ | ⟨_, rfl⟩ | ⟨_, _, _, _, _, _, _, rfl⟩
  · rfl
  · rfl
  · rfl

theorem Received.propBuf_eq
    (hReceived : Received chain sender i cx cx') :
    cx'.propBuf = cx.propBuf := by
  rcases hReceived with
    ⟨_, rfl⟩ | ⟨_, rfl⟩ | ⟨_, _, _, _, _, _, _, rfl⟩
  · rfl
  · rfl
  · rfl

theorem Received.tracked
    (hReceived : Received chain sender i cx cx')
    (hTracked : j = i ∨ Tracked chain cx j) :
    Tracked chain cx' j := by
  rcases hReceived with
    ⟨_, rfl⟩ | ⟨hLate, rfl⟩ | ⟨hNow, _, _, _, _, _, _, rfl⟩
  · unfold Tracked
    dsimp only
    rw [FinMap.lookup_insert_eq]
    by_cases hSame : j = i
    · exact Or.inr (Or.inr (Or.inl (by simp [hSame])))
    · rw [if_neg hSame]
      exact hTracked.resolve_left hSame
  · rcases hTracked with rfl | hTracked
    · exact Or.inl hLate
    · exact hTracked
  · unfold Tracked
    dsimp only
    rcases hTracked with rfl | hPassed | hWaits
    · exact Or.inl (by omega)
    · exact Or.inl (by omega)
    · exact Or.inr hWaits

theorem Received.queues
    (hReceived : Received chain sender i cx cx')
    (hi : 1 ≤ i ∧ i ≤ k)
    (hStored : chain.Stored cx i)
    (hParent : chain.Stored cx (i - 1))
    (hQueues : Queues chain cx) :
    Queues chain cx' := by
  have hKeep := hReceived
  rcases hReceived with
    ⟨_, rfl⟩ | ⟨_, rfl⟩ | ⟨_, _, _, _, _, _, _, hEq⟩
  · refine { hQueues with future := ?_ }
    exact FinMap.forall_insert hQueues.future
      ⟨hi, rfl, hStored, hParent⟩
  · exact hQueues
  · refine
      { buffered := by rw [hEq]; exact hQueues.buffered
        relayBuf := by rw [hEq]; exact hQueues.relayBuf
        otherBuf := by rw [hEq]; exact hQueues.otherBuf
        pendingBatches := by
          rw [hEq]; exact hQueues.pendingBatches
        future := ?_
        parked := ?_ }
    · intro j x hLookup
      have hSame : cx'.futureMsgs = cx.futureMsgs := by
        rw [hEq]
      rw [hSame] at hLookup
      rcases hQueues.future j x hLookup with
        ⟨hj, hName, hOwn, hAbove⟩
      exact ⟨hj, hName, hKeep.stored hOwn,
        hKeep.stored hAbove⟩
    · intro hash p hLookup
      rw [hKeep.parked_eq] at hLookup
      rcases hQueues.parked hash p hLookup with
        ⟨j, hj, hHash, hName, hChild⟩
      exact ⟨j, hj, hHash, hName, hKeep.stored hChild⟩

/- Only the children of the block itself may be late. -/
theorem Received.clear
    (hReceived : Received chain sender i cx cx')
    (hClear : Clear chain cx)
    (hj : j < k)
    (hParked :
      (cx'.propWaitingParent.lookup
        (chain.block j).hash).isSome) :
    cx'.round ≤ j ∨ j = i := by
  rw [hReceived.parked_eq] at hParked
  have hLater := hClear j hj hParked
  rcases hReceived with
    ⟨_, rfl⟩ | ⟨_, rfl⟩ | ⟨hNow, _, _, _, _, _, _, rfl⟩
  · exact Or.inl hLater
  · exact Or.inl hLater
  · dsimp only
    omega

theorem Received.load_le
    (hReceived : Received chain sender i cx cx') :
    load cx' ≤
      load cx + (if cx.round < i then 2 else 0) := by
  rcases hReceived with
    ⟨hEarly, rfl⟩ | ⟨hLate, rfl⟩ |
      ⟨hNow, _, _, _, _, _, _, rfl⟩
  · have hCard :=
      FinMap.card_keys_insert_le cx.futureMsgs i
        (sender, chain.propose i)
    rw [if_pos hEarly]
    unfold load
    dsimp only
    omega
  · omega
  · unfold load
    dsimp only
    omega

end Apollo

end LibApollo

------------------------------------------------------------
-- The Invariant of a Node That Reorders
------------------------------------------------------------

namespace LibApollo

namespace Apollo

variable {H : Type} [DecidableEq H] [Crypto H]
variable {config : Config} {k : Nat}

/- How far the reactor is from `select`. -/
def Phase.rank : Phase → Nat
| .drain => 6
| .props => 5
| .relays => 4
| .others => 3
| .future => 2
| .propose => 1
| .select => 0

/- Every internal step makes this number smaller. -/
def Node.size (node : Node H) : Nat :=
  load node.cx + node.phase.rank +
    (if node.waiting.isSome then 1 else 0)

/-
  What holds after the events `seen`.  A child that is
  parked under an accepted block is the one that the loop
  over waiting children looks up next.
-/
structure Reordering
    (chain : ProposalChain H config k)
    (seen : List (Event H))
    (node : Node H) : Prop where
  position : Position chain node.cx
  queues : Queues chain node.cx
  tracked :
    ∀ i, 1 ≤ i → i ≤ k →
      Event.recv (chain.message i) ∈ seen →
        Tracked chain node.cx i
  released :
    ∀ i, i < k →
      (node.cx.propWaitingParent.lookup
        (chain.block i).hash).isSome →
        node.cx.round ≤ i ∨
          ∃ sender,
            node.waiting = some ((chain.block i).hash, sender)
  waiting :
    ∀ hash sender, node.waiting = some (hash, sender) →
      ∃ i, i ≤ k ∧
        hash = (chain.block i).hash ∧
        chain.Stored node.cx i
  drained :
    node.phase ≠ .drain → node.phase ≠ .props →
      node.cx.propBuf = []
  quiet :
    node.phase = .propose ∨ node.phase = .select →
      node.cx.futureMsgs.lookup node.cx.round = none
  idle :
    node.phase = .drain ∨ node.phase = .propose ∨
        node.phase = .select →
      node.waiting = none

/- The phase is one of the loops of `process_message`. -/
def Working (phase : Phase) (cx : Context H) : Prop :=
  (phase ≠ .drain ∧ phase ≠ .propose ∧ phase ≠ .select) ∧
    (phase ≠ .props → cx.propBuf = [])

namespace Reordering

variable {chain : ProposalChain H config k}
variable {seen : List (Event H)}
variable {node : Node H}

/- While no loop over children runs, none is late. -/
theorem clear
    (hInv : Reordering chain seen node)
    (hIdle : node.waiting = none) :
    Clear chain node.cx := by
  intro i hi hParked
  rcases hInv.released i hi hParked with
    hLater | ⟨sender, hWaiting⟩
  · exact hLater
  · rw [hIdle] at hWaiting
    cases hWaiting

/-
  The node after a received proposal, when its context was
  in order but for this proposal.
-/
theorem afterReceived
    {cx cx' : Context H}
    {sender : Replica}
    {i : Nat}
    {phase : Phase}
    (hi : 1 ≤ i ∧ i ≤ k)
    (hPos : Position chain cx)
    (hQueues : Queues chain cx)
    (hClear : Clear chain cx)
    (hTracked :
      ∀ j, 1 ≤ j → j ≤ k →
        Event.recv (chain.message j) ∈ seen →
          j = i ∨ Tracked chain cx j)
    (hStored : chain.Stored cx i)
    (hParent : chain.Stored cx (i - 1))
    (hWorking : Working phase cx)
    (hReceived : Received chain sender i cx cx') :
    Reordering chain seen
      { cx := cx'
        phase := phase
        waiting := some ((chain.block i).hash, sender) } where
  position := hPos.received hi.2 hStored hReceived
  queues :=
    hReceived.queues hi hStored hParent hQueues
  tracked := fun j hFirst hLast hSeen =>
    hReceived.tracked (hTracked j hFirst hLast hSeen)
  released := by
    intro j hj hParked
    rcases hReceived.clear hClear hj hParked with
      hLater | rfl
    · exact Or.inl hLater
    · exact Or.inr ⟨sender, rfl⟩
  waiting := by
    intro hash other hWaiting
    cases hWaiting
    exact ⟨i, hi.2, rfl, hReceived.stored hStored⟩
  drained := by
    intro _ hProps
    exact hReceived.propBuf_eq.trans (hWorking.2 hProps)
  quiet := by
    intro hCases
    rcases hCases with hPropose | hSelect
    · exact absurd hPropose hWorking.1.2.1
    · exact absurd hSelect hWorking.1.2.2
  idle := by
    intro hCases
    rcases hCases with hDrain | hPropose | hSelect
    · exact absurd hDrain hWorking.1.1
    · exact absurd hPropose hWorking.1.2.1
    · exact absurd hSelect hWorking.1.2.2

/- The waiting proposals by hash play no part. -/
theorem forget
    (hInv : Reordering chain seen node)
    (propWaiting : FinMap H (Propose H)) :
    Reordering chain seen
      { node with
        cx :=
          { node.cx with propWaiting := propWaiting } } where
  position :=
    { hInv.position with
      chainInv := { hInv.position.chainInv with }
      linear := { hInv.position.linear with }
      configured := { hInv.position.configured with } }
  queues := { hInv.queues with }
  tracked := hInv.tracked
  released := hInv.released
  waiting := hInv.waiting
  drained := hInv.drained
  quiet := hInv.quiet
  idle := hInv.idle

end Reordering

end Apollo

end LibApollo

------------------------------------------------------------
-- Delivering a Proposal of the Chain
------------------------------------------------------------

namespace LibApollo

namespace Apollo

variable {H : Type} [DecidableEq H] [Crypto H]
variable {config : Config} {k : Nat}
variable {chain : ProposalChain H config k}
variable {cx cx' : Context H}
variable {sender : Replica}
variable {i : Nat}

theorem Queues.store
    (hQueues : Queues chain cx)
    (hPos : Position chain cx)
    (hi : i ≤ k) :
    Queues chain
      (cx.addDeliveredBlock (chain.block i)) := by
  have hMono := hPos.delivered_mono hi
  refine { hQueues with
    future := ?_
    parked := ?_ }
  · intro j x hLookup
    rcases hQueues.future j x hLookup with
      ⟨hj, hName, hOwn, hAbove⟩
    exact ⟨hj, hName, hMono _ _ hOwn, hMono _ _ hAbove⟩
  · intro hash p hLookup
    rcases hQueues.parked hash p hLookup with
      ⟨j, hj, hHash, hName, hChild⟩
    exact ⟨j, hj, hHash, hName, hMono _ _ hChild⟩

omit [Crypto H] in
/- The context in which a node asks for a parent. -/
theorem requestParent_eq
    (sender : Replica)
    (p : Propose H)
    (block : Block H)
    (cx : Context H) :
    ∃ outbox,
      requestParent sender p block cx =
        { cx with
          storage := cx.storage.addDeliveredBlock block
          propWaitingParent :=
            cx.propWaitingParent.insert
              block.header.prev p
          outbox := outbox } := by
  unfold requestParent Context.send
  dsimp only
  split
  · exact ⟨_, rfl⟩
  · exact ⟨_, rfl⟩

/-
  A context that is in order but for one proposal, which is
  in hand, and the phase it is handled in.
-/
structure InHand
    (chain : ProposalChain H config k)
    (seen : List (Event H))
    (phase : Phase)
    (i : Nat)
    (cx : Context H) : Prop where
  bound : 1 ≤ i ∧ i ≤ k
  position : Position chain cx
  queues : Queues chain cx
  clear : Clear chain cx
  tracked :
    ∀ j, 1 ≤ j → j ≤ k →
      Event.recv (chain.message j) ∈ seen →
        j = i ∨ Tracked chain cx j
  working : Working phase cx

variable {seen : List (Event H)}
variable {phase : Phase}

/- The parent of a block of the chain. -/
theorem ProposalChain.prev_eq
    (chain : ProposalChain H config k)
    (hi : 1 ≤ i ∧ i ≤ k) :
    (chain.block i).header.prev =
      (chain.block (i - 1)).hash := by
  have hLink := chain.prev (i - 1) (by omega)
  rwa [show i - 1 + 1 = i by omega] at hLink

/- The block is stored and the proposal waits for it. -/
theorem InHand.parks
    {outbox : List (Replica × ProtocolMsg H)}
    (hHand : InHand chain seen phase i cx)
    (hMissing : ¬ chain.Stored cx (i - 1)) :
    Reordering chain seen
      { cx :=
          { cx with
            storage :=
              cx.storage.addDeliveredBlock (chain.block i)
            propWaitingParent :=
              cx.propWaitingParent.insert
                (chain.block i).header.prev
                (chain.propose i)
            outbox := outbox }
        phase := phase
        waiting := none } := by
  have hi := hHand.bound
  have hPrev := chain.prev_eq hi
  have hPos := hHand.position.store hi.2
  have hQueues := hHand.queues.store hHand.position hi.2
  have hSelf :
      chain.Stored
        (cx.addDeliveredBlock (chain.block i)) i :=
    Storage.addDeliveredBlock_self _ _
  -- the block that is missing is of a later round
  have hLater : cx.round ≤ i - 1 := by
    by_contra hPassed
    exact hMissing (hHand.position.stored (by omega))
  refine
    { position := ?_
      queues := ?_
      tracked := ?_
      released := ?_
      waiting := ?_
      drained := ?_
      quiet := ?_
      idle := fun _ => rfl }
  · refine { hPos with
      chainInv := ?_
      linear := { hPos.linear with }
      configured := { hPos.configured with } }
    refine { hPos.chainInv with waiting := ?_ }
    intro hash p hLookup
    dsimp only at hLookup
    rw [FinMap.lookup_insert_eq] at hLookup
    split at hLookup
    · cases hLookup
      rw [← chain.named i hi.1 hi.2]
      exact ⟨_, hSelf⟩
    · exact hPos.chainInv.waiting hash p hLookup
  · refine { hQueues with parked := ?_ }
    intro hash p hLookup
    dsimp only at hLookup
    rw [FinMap.lookup_insert_eq] at hLookup
    split at hLookup
    · rename_i hHash
      cases hLookup
      refine ⟨i - 1, by omega, hHash.trans hPrev, ?_, ?_⟩
      · rw [show i - 1 + 1 = i by omega]
      · rw [show i - 1 + 1 = i by omega]
        exact hSelf
    · exact hQueues.parked hash p hLookup
  · intro j hFirst hLast hSeen
    unfold Tracked
    dsimp only
    rw [FinMap.lookup_insert_eq, hPrev]
    rcases hHand.tracked j hFirst hLast hSeen with
      rfl | hPassed | hBuffered | hKept | hParked
    · exact Or.inr (Or.inr (Or.inr (by simp)))
    · exact Or.inl hPassed
    · exact Or.inr (Or.inl hBuffered)
    · exact Or.inr (Or.inr (Or.inl hKept))
    · refine Or.inr (Or.inr (Or.inr ?_))
      split
      · rfl
      · exact hParked
  · intro j hj hParked
    left
    dsimp only at hParked ⊢
    rw [FinMap.lookup_insert_eq, hPrev] at hParked
    split at hParked
    · rename_i hHash
      have hSame : j = i - 1 :=
        chain.distinct _ _ (by omega) (by omega) hHash
      omega
    · exact hHand.clear j hj hParked
  · intro hash other hWaiting
    cases hWaiting
  · intro _ hProps
    exact hHand.working.2 hProps
  · intro hCases
    rcases hCases with hPropose | hSelect
    · exact absurd hPropose hHand.working.1.2.1
    · exact absurd hSelect hHand.working.1.2.2

/- A proposal of a round that has passed is dropped. -/
theorem InHand.dropped
    (hHand : InHand chain seen phase i cx)
    (hLate : i < cx.round) :
    Reordering chain seen
      { cx := cx, phase := phase, waiting := none } where
  position := hHand.position
  queues := hHand.queues
  tracked := by
    intro j hFirst hLast hSeen
    rcases hHand.tracked j hFirst hLast hSeen with
      rfl | hTracked
    · exact Or.inl hLate
    · exact hTracked
  released := fun j hj hParked =>
    Or.inl (hHand.clear j hj hParked)
  waiting := nofun
  drained := fun _ hProps => hHand.working.2 hProps
  quiet := by
    intro hCases
    rcases hCases with hPropose | hSelect
    · exact absurd hPropose hHand.working.1.2.1
    · exact absurd hSelect hHand.working.1.2.2
  idle := fun _ => rfl

theorem InHand.persist
    (hHand : InHand chain seen phase i cx)
    (hash : H)
    (batch : Batch) :
    InHand chain seen phase i
      (cx.persistBatch hash batch) where
  bound := hHand.bound
  position :=
    { hHand.position with
      chainInv := { hHand.position.chainInv with }
      linear := { hHand.position.linear with }
      configured := { hHand.position.configured with } }
  queues := { hHand.queues with }
  clear := hHand.clear
  tracked := hHand.tracked
  working := hHand.working

theorem InHand.store
    (hHand : InHand chain seen phase i cx) :
    InHand chain seen phase i
      (cx.addDeliveredBlock (chain.block i)) where
  bound := hHand.bound
  position := hHand.position.store hHand.bound.2
  queues :=
    hHand.queues.store hHand.position hHand.bound.2
  clear := hHand.clear
  tracked := hHand.tracked
  working := hHand.working

/- With block and parent stored the proposal is received. -/
theorem InHand.receives
    (hNodes : 0 < config.numNodes)
    (hHand : InHand chain seen phase i cx)
    (hStored : chain.Stored cx i)
    (hParent : chain.Stored cx (i - 1))
    (sender : Replica) :
    ∃ cx',
      receiveOrKeep sender (chain.propose i)
          (chain.block i) cx = .ok cx' ∧
        Reordering chain seen
          { cx := cx'
            phase := phase
            waiting :=
              some ((chain.propose i).blockHash, sender) } ∧
        load cx' ≤
          load cx + (if cx.round < i then 2 else 0) := by
  have hi := hHand.bound
  rcases hHand.position.receiveOrKeep hNodes hi hStored
      sender with ⟨cx', hOk, hReceived⟩
  refine ⟨cx', hOk, ?_, hReceived.load_le⟩
  rw [← chain.named i hi.1 hi.2]
  exact Reordering.afterReceived hi hHand.position
    hHand.queues hHand.clear hHand.tracked hStored hParent
    hHand.working hReceived

/- A proposal is delivered on a stored parent. -/
theorem InHand.deliverBlock_received
    (hNodes : 0 < config.numNodes)
    (hHand : InHand chain seen phase i cx)
    (hParent : chain.Stored cx (i - 1))
    (sender : Replica) :
    ∃ cx',
      deliverBlock sender (chain.propose i) (chain.block i)
          cx =
          .ok (cx', some (chain.propose i).blockHash) ∧
        Reordering chain seen
          { cx := cx'
            phase := phase
            waiting :=
              some ((chain.propose i).blockHash, sender) } ∧
        load cx' ≤
          load cx + (if cx.round < i then 2 else 0) := by
  have hi := hHand.bound
  rcases hHand.store.receives hNodes
      (Storage.addDeliveredBlock_self _ _)
      (hHand.position.delivered_mono hi.2 _ _ hParent)
      sender with ⟨received, hOk, hInv, hLoad⟩
  refine
    ⟨{ received with
        propWaiting :=
          received.propWaiting.erase
            (chain.propose i).blockHash }, ?_,
      hInv.forget _, hLoad⟩
  have hDelivered :
      cx.storage.isDeliveredByHash
        (chain.block i).header.prev = true := by
    rw [chain.prev_eq hi]
    exact (Storage.isDeliveredByHash_iff _ _).mpr
      ⟨_, hParent⟩
  unfold Apollo.deliverBlock
  rw [if_pos hDelivered, hOk]
  rfl

/- A proposal is delivered before its parent. -/
theorem InHand.deliverBlock_parked
    (hHand : InHand chain seen phase i cx)
    (hMissing : ¬ chain.Stored cx (i - 1))
    (sender : Replica) :
    ∃ cx',
      deliverBlock sender (chain.propose i) (chain.block i)
          cx = .ok (cx', none) ∧
        Reordering chain seen
          { cx := cx'
            phase := phase
            waiting := none } ∧
        load cx' ≤ load cx + 3 := by
  have hi := hHand.bound
  rcases requestParent_eq sender (chain.propose i)
      (chain.block i) cx with ⟨outbox, hEq⟩
  refine
    ⟨requestParent sender (chain.propose i)
      (chain.block i) cx, ?_, ?_, ?_⟩
  · have hAbsent :
        ¬ cx.storage.isDeliveredByHash
            (chain.block i).header.prev = true := by
      rw [chain.prev_eq hi]
      intro hDelivered
      exact hMissing
        (hHand.position.stored_of_isDelivered (by omega)
          hDelivered)
    unfold Apollo.deliverBlock
    rw [if_neg hAbsent]
  · rw [hEq]
    exact hHand.parks hMissing
  · have hCard :=
      FinMap.card_keys_insert_le cx.propWaitingParent
        (chain.block i).header.prev (chain.propose i)
    rw [hEq]
    unfold load
    dsimp only
    omega

/- A proposal comes with its block and its batch. -/
theorem InHand.deliveryCheck_some
    (hNodes : 0 < config.numNodes)
    (hHand : InHand chain seen phase i cx)
    (sender : Replica) :
    ∃ cx' child,
      deliveryCheck sender (chain.propose i)
          (some (chain.block i, chain.batch i)) cx =
          .ok (cx', child) ∧
        Reordering chain seen
          { cx := cx'
            phase := phase
            waiting := child.map (·, sender) } ∧
        load cx' + (if child.isSome then 1 else 0) ≤
          load cx + 3 := by
  have hi := hHand.bound
  have hBatch :
      ¬ (!checkBatchHash (chain.block i)
        (chain.batch i)) = true := by
    simp [checkBatchHash, chain.sealed i hi.1 hi.2]
  unfold deliveryCheck
  rw [chain.round i hi.1 hi.2]
  by_cases hLate : i < cx.round
  · have hOld :=
      (hHand.position.lookup_isSome_iff hi.1).mpr hLate
    rw [if_pos hOld]
    exact ⟨cx, none, rfl, hHand.dropped hLate, by simp⟩
  · have hNew :
        ¬ (cx.propChainByRound.lookup i).isSome := by
      rw [hHand.position.lookup_isSome_iff hi.1]
      exact hLate
    rw [if_neg hNew]
    dsimp only
    rw [if_neg (not_not.mpr (chain.named i hi.1 hi.2)),
      if_neg hBatch]
    have hKept :=
      hHand.persist (chain.block i).body.batchHash
        (chain.batch i)
    have hSame :
        load (cx.persistBatch
          (chain.block i).body.batchHash
          (chain.batch i)) = load cx := rfl
    by_cases hParent :
        chain.Stored
          (cx.persistBatch (chain.block i).body.batchHash
            (chain.batch i)) (i - 1)
    · rcases hKept.deliverBlock_received hNodes hParent
          sender with ⟨cx', hOk, hNext, hLoad⟩
      refine ⟨cx', _, hOk, hNext, ?_⟩
      rw [Option.isSome_some, if_pos rfl]
      split at hLoad
      · omega
      · omega
    · rcases hKept.deliverBlock_parked hParent sender with
        ⟨cx', hOk, hNext, hLoad⟩
      refine ⟨cx', none, hOk, hNext, ?_⟩
      simp only [Option.isSome_none, Bool.false_eq_true,
        if_false]
      omega

/- A proposal that was kept comes up in its round. -/
theorem InHand.deliveryCheck_none
    (hNodes : 0 < config.numNodes)
    (hHand : InHand chain seen phase i cx)
    (hNow : cx.round = i)
    (hStored : chain.Stored cx i)
    (hParent : chain.Stored cx (i - 1))
    (sender : Replica) :
    ∃ cx',
      deliveryCheck sender (chain.propose i) none cx =
          .ok (cx', some (chain.propose i).blockHash) ∧
        Reordering chain seen
          { cx := cx'
            phase := phase
            waiting :=
              some ((chain.propose i).blockHash, sender) } ∧
        load cx' ≤ load cx := by
  have hi := hHand.bound
  have hNew :
      ¬ (cx.propChainByRound.lookup i).isSome := by
    rw [hHand.position.lookup_isSome_iff hi.1]
    omega
  have hFound :
      cx.storage.deliveredBlockFromHash
          (chain.propose i).blockHash =
        some (chain.block i) := by
    rw [← chain.named _ hi.1 hi.2]
    exact hStored
  rcases hHand.deliverBlock_received hNodes hParent
      sender with ⟨cx', hOk, hNext, hLoad⟩
  rw [if_neg (by omega)] at hLoad
  refine ⟨cx', ?_, hNext, hLoad⟩
  unfold deliveryCheck
  rw [chain.round _ hi.1 hi.2, if_neg hNew]
  dsimp only
  rw [hFound]
  exact hOk

end Apollo

end LibApollo

------------------------------------------------------------
-- Every Step Makes Progress
------------------------------------------------------------

namespace LibApollo

namespace Apollo

variable {H : Type} [DecidableEq H] [Crypto H]
variable {config : Config} {k : Nat}
variable {chain : ProposalChain H config k}
variable {seen : List (Event H)}
variable {node : Node H}

/- An internal step succeeds and leaves less to do. -/
def Progress
    (chain : ProposalChain H config k)
    (seen : List (Event H))
    (node : Node H) : Prop :=
  ∃ node', internalStep node = .ok node' ∧
    Reordering chain seen node' ∧ node'.size < node.size

namespace Reordering

/- A parked child is taken up by the loop. -/
theorem unpark
    {i : Nat}
    {sender : Replica}
    (hInv : Reordering chain seen node)
    (hWorking : Working node.phase node.cx)
    (hi : i < k)
    (hWaiting :
      node.waiting = some ((chain.block i).hash, sender)) :
    InHand chain seen node.phase (i + 1)
      { node.cx with
        propWaitingParent :=
          node.cx.propWaitingParent.erase
            (chain.block i).hash } := by
  have hOnly :
      ∀ j, j ≤ k →
        ((node.cx.propWaitingParent.erase
          (chain.block i).hash).lookup
            (chain.block j).hash).isSome →
          j ≠ i ∧
            (node.cx.propWaitingParent.lookup
              (chain.block j).hash).isSome := by
    intro j hj hParked
    rw [FinMap.lookup_erase_eq] at hParked
    split at hParked
    · cases hParked
    · rename_i hOther
      exact ⟨fun hSame => hOther (by rw [hSame]), hParked⟩
  refine
    { bound := ⟨by omega, by omega⟩
      position := ?_
      queues := ?_
      clear := ?_
      tracked := ?_
      working := hWorking }
  · refine { hInv.position with
      chainInv := ?_
      linear := { hInv.position.linear with }
      configured := { hInv.position.configured with } }
    refine { hInv.position.chainInv with waiting := ?_ }
    exact FinMap.forall_erase hInv.position.chainInv.waiting
  · refine { hInv.queues with parked := ?_ }
    exact FinMap.forall_erase hInv.queues.parked
  · intro j hj hParked
    rcases hOnly j (by omega) hParked with ⟨hOther, hParked⟩
    rcases hInv.released j hj hParked with
      hLater | ⟨who, hSame⟩
    · exact hLater
    · rw [hWaiting] at hSame
      simp only [Option.some.injEq, Prod.mk.injEq] at hSame
      exact absurd
        (chain.distinct j i (by omega) (by omega)
          hSame.1.symm) hOther
  · intro j hFirst hLast hSeen
    by_cases hChild : j = i + 1
    · exact Or.inl hChild
    · right
      rcases hInv.tracked j hFirst hLast hSeen with
        hPassed | hBuffered | hKept | hParked
      · exact Or.inl hPassed
      · exact Or.inr (Or.inl hBuffered)
      · exact Or.inr (Or.inr (Or.inl hKept))
      · refine Or.inr (Or.inr (Or.inr ?_))
        rw [FinMap.lookup_erase_eq, if_neg]
        · exact hParked
        · intro hHash
          have hSame :=
            chain.distinct (j - 1) i (by omega) (by omega)
              hHash
          omega

/- One iteration of the loop over waiting children. -/
theorem child
    {hash : H}
    {sender : Replica}
    (hNodes : 0 < config.numNodes)
    (hInv : Reordering chain seen node)
    (hWaiting : node.waiting = some (hash, sender)) :
    Progress chain seen node := by
  unfold Progress internalStep
  rw [hWaiting]
  dsimp only
  unfold deliverWaitingChild
  have hWorking : Working node.phase node.cx := by
    have hBusy :
        ∀ phase,
          (phase = .drain ∨ phase = .propose ∨
            phase = .select) →
          node.phase ≠ phase := by
      intro phase hCases hPhase
      rw [← hPhase] at hCases
      rw [hInv.idle hCases] at hWaiting
      cases hWaiting
    refine ⟨⟨hBusy _ (by simp), hBusy _ (by simp),
      hBusy _ (by simp)⟩, ?_⟩
    exact hInv.drained (hBusy _ (by simp))
  cases hLookup : node.cx.propWaitingParent.lookup hash with
  | none =>
      refine ⟨_, rfl, ?_, ?_⟩
      · refine { hInv with
          released := ?_
          waiting := ?_
          idle := fun _ => rfl }
        · intro i hi hParked
          rcases hInv.released i hi hParked with
            hLater | ⟨other, hSame⟩
          · exact Or.inl hLater
          · rw [hWaiting] at hSame
            cases hSame
            rw [hLookup] at hParked
            cases hParked
        · intro other who hNone
          cases hNone
      · unfold Node.size
        rw [hWaiting]
        simp
  | some p =>
      rcases hInv.queues.parked hash p hLookup with
        ⟨i, hi, rfl, rfl, hStored⟩
      rcases hInv.waiting _ _ hWaiting with
        ⟨j, hj, hHash, hParent⟩
      have hSame : j = i :=
        chain.distinct j i hj (by omega) hHash.symm
      rw [hSame] at hParent
      have hHand := hInv.unpark hWorking hi hWaiting
      rcases hHand.receives hNodes hStored hParent sender
        with ⟨cx', hOk, hNext, hLoad⟩
      have hFound :
          node.cx.storage.deliveredBlockFromHash
              (chain.propose (i + 1)).blockHash =
            some (chain.block (i + 1)) := by
        rw [← chain.named (i + 1) (by omega) (by omega)]
        exact hStored
      have hCard := FinMap.card_keys_erase_lt hLookup
      dsimp only
      rw [hFound]
      refine ⟨_, ?_, hNext, ?_⟩
      · dsimp only
        rw [hOk]
        rfl
      · unfold Node.size
        rw [hWaiting]
        unfold load at hLoad ⊢
        dsimp only at hLoad ⊢
        simp only [Option.isSome_some, if_true]
        split at hLoad
        · omega
        · omega

/- Another phase, when no loop over children runs. -/
theorem move
    {phase : Phase}
    (hInv : Reordering chain seen node)
    (hIdle : node.waiting = none)
    (hDrained :
      phase ≠ .drain → phase ≠ .props →
        node.cx.propBuf = [])
    (hQuiet :
      phase = .propose ∨ phase = .select →
        node.cx.futureMsgs.lookup node.cx.round = none) :
    Reordering chain seen { node with phase := phase } :=
  { hInv with
    drained := hDrained
    quiet := hQuiet
    idle := fun _ => hIdle }

/- The first buffered proposal is taken in hand. -/
theorem pop
    {i : Nat}
    {rest : List (Replica × Propose H × Block H × Batch)}
    (hInv : Reordering chain seen node)
    (hIdle : node.waiting = none)
    (hi : 1 ≤ i ∧ i ≤ k)
    (hBuf : node.cx.propBuf = chain.entry i :: rest) :
    InHand chain seen .props i
      { node.cx with propBuf := rest } := by
  refine
    { bound := hi
      position :=
        { hInv.position with
          chainInv := { hInv.position.chainInv with }
          linear := { hInv.position.linear with }
          configured := { hInv.position.configured with } }
      queues := ?_
      clear := hInv.clear hIdle
      tracked := ?_
      working := ?_ }
  · refine { hInv.queues with buffered := ?_ }
    intro x hMem
    apply hInv.queues.buffered x
    rw [hBuf]
    exact List.mem_cons_of_mem _ hMem
  · intro j hFirst hLast hSeen
    rcases hInv.tracked j hFirst hLast hSeen with
      hPassed | hBuffered | hWaits
    · exact Or.inr (Or.inl hPassed)
    · rw [hBuf] at hBuffered
      rcases List.mem_cons.mp hBuffered with hSame | hRest
      · exact Or.inl
          (chain.entry_inj ⟨hFirst, hLast⟩ hi hSame)
      · exact Or.inr (Or.inr (Or.inl hRest))
    · exact Or.inr (Or.inr (Or.inr hWaits))
  · exact ⟨⟨nofun, nofun, nofun⟩,
      fun hProps => absurd rfl hProps⟩

/- The proposal kept for the round is taken in hand. -/
theorem unkeep
    {x : Replica × Propose H}
    (hInv : Reordering chain seen node)
    (hIdle : node.waiting = none)
    (hPhase : node.phase = .future)
    (hKept :
      node.cx.futureMsgs.lookup node.cx.round = some x) :
    InHand chain seen .future node.cx.round
      { node.cx with
        futureMsgs :=
          node.cx.futureMsgs.erase node.cx.round } := by
  refine
    { bound := (hInv.queues.future _ _ hKept).1
      position :=
        { hInv.position with
          chainInv := { hInv.position.chainInv with }
          linear := { hInv.position.linear with }
          configured := { hInv.position.configured with } }
      queues := ?_
      clear := hInv.clear hIdle
      tracked := ?_
      working := ?_ }
  · refine { hInv.queues with future := ?_ }
    exact FinMap.forall_erase hInv.queues.future
  · intro j hFirst hLast hSeen
    by_cases hNow : j = node.cx.round
    · exact Or.inl hNow
    · right
      unfold Tracked
      dsimp only
      rw [FinMap.lookup_erase_eq, if_neg hNow]
      exact hInv.tracked j hFirst hLast hSeen
  · refine ⟨⟨nofun, nofun, nofun⟩, fun _ => ?_⟩
    apply hInv.drained
    · rw [hPhase]
      nofun
    · rw [hPhase]
      nofun

/- One iteration of the loop over buffered proposals. -/
theorem props
    (hNodes : 0 < config.numNodes)
    (hInv : Reordering chain seen node)
    (hIdle : node.waiting = none)
    (hPhase : node.phase = .props) :
    Progress chain seen node := by
  unfold Progress internalStep
  rw [hIdle, hPhase]
  dsimp only
  unfold processMessage
  rw [hPhase]
  dsimp only
  cases hBuf : node.cx.propBuf with
  | nil =>
      refine ⟨_, rfl, hInv.move hIdle (fun _ _ => hBuf) ?_,
        ?_⟩
      · intro hCases
        rcases hCases with hCase | hCase
        · cases hCase
        · cases hCase
      · simp [Node.size, hPhase, Phase.rank]
  | cons x rest =>
      rcases hInv.queues.buffered x (by simp [hBuf]) with
        ⟨i, hi, rfl⟩
      have hHand := hInv.pop hIdle hi hBuf
      rcases hHand.deliveryCheck_some hNodes
          (chain.propose i).sig.origin with
        ⟨cx', child, hOk, hNext, hLoad⟩
      refine ⟨_, ?_, hNext, ?_⟩
      · unfold ProposalChain.entry
        dsimp only
        rw [hOk]
        rfl
      · simp only [load] at hLoad
        simp only [Node.size, load, hPhase, Phase.rank,
          hIdle, hBuf, List.length_cons,
          Option.isSome_none, Option.isSome_map,
          Bool.false_eq_true, if_false]
        omega

/- One iteration of the loop over the kept proposals. -/
theorem future
    (hNodes : 0 < config.numNodes)
    (hInv : Reordering chain seen node)
    (hIdle : node.waiting = none)
    (hPhase : node.phase = .future) :
    Progress chain seen node := by
  unfold Progress internalStep
  rw [hIdle, hPhase]
  dsimp only
  unfold processMessage
  rw [hPhase]
  dsimp only
  cases hKept :
      node.cx.futureMsgs.lookup node.cx.round with
  | none =>
      refine ⟨_, rfl, hInv.move hIdle ?_ (fun _ => hKept),
        ?_⟩
      · intro _ _
        apply hInv.drained
        · rw [hPhase]
          nofun
        · rw [hPhase]
          nofun
      · simp [Node.size, hPhase, Phase.rank]
  | some x =>
      rcases x with ⟨sender, p⟩
      rcases hInv.queues.future _ _ hKept with
        ⟨_, hName, hStored, hParent⟩
      dsimp only at hName
      subst hName
      have hHand := hInv.unkeep hIdle hPhase hKept
      have hCard := FinMap.card_keys_erase_lt hKept
      rcases hHand.deliveryCheck_none hNodes rfl hStored
          hParent sender with ⟨cx', hOk, hNext, hLoad⟩
      refine ⟨_, ?_, hNext, ?_⟩
      · dsimp only at hOk ⊢
        rw [hOk]
        rfl
      · simp only [load] at hLoad
        simp only [Node.size, load, hPhase, Phase.rank,
          hIdle, Option.isSome_some, Option.isSome_none,
          if_true, Bool.false_eq_true, if_false]
        omega

/- The queues that stay empty are passed over. -/
theorem skip
    (hInv : Reordering chain seen node)
    (phase : Phase)
    (hIdle : node.waiting = none)
    (hStep :
      internalStep node = .ok { node with phase := phase })
    (hLess : phase.rank < node.phase.rank)
    (hDrained :
      phase ≠ .drain → phase ≠ .props →
        node.cx.propBuf = [])
    (hQuiet :
      phase = .propose ∨ phase = .select →
        node.cx.futureMsgs.lookup node.cx.round = none) :
    Progress chain seen node := by
  refine ⟨_, hStep, hInv.move hIdle hDrained hQuiet, ?_⟩
  unfold Node.size
  dsimp only
  omega

/- Until it is back in `select` a node makes progress. -/
theorem works
    (hNodes : 0 < config.numNodes)
    (hInv : Reordering chain seen node)
    (hBusy : node.phase ≠ .select) :
    Progress chain seen node := by
  cases hWaiting : node.waiting with
  | some entry => exact hInv.child hNodes hWaiting
  | none =>
      cases hPhase : node.phase with
      | select => exact absurd hPhase hBusy
      | drain =>
          apply hInv.skip .props hWaiting
          · simp [internalStep, hWaiting, hPhase]
          · simp [hPhase, Phase.rank]
          · intro _ hProps
            exact absurd rfl hProps
          · intro hClosed
            rcases hClosed with hClosed | hClosed
            · cases hClosed
            · cases hClosed
      | props => exact hInv.props hNodes hWaiting hPhase
      | relays =>
          apply hInv.skip .others hWaiting
          · simp [internalStep, hWaiting, hPhase,
              processMessage, hInv.queues.relayBuf]
          · simp [hPhase, Phase.rank]
          · intro _ _
            exact hInv.drained (by simp [hPhase])
              (by simp [hPhase])
          · intro hClosed
            rcases hClosed with hClosed | hClosed
            · cases hClosed
            · cases hClosed
      | others =>
          apply hInv.skip .future hWaiting
          · simp [internalStep, hWaiting, hPhase,
              processMessage, hInv.queues.otherBuf]
          · simp [hPhase, Phase.rank]
          · intro _ _
            exact hInv.drained (by simp [hPhase])
              (by simp [hPhase])
          · intro hClosed
            rcases hClosed with hClosed | hClosed
            · cases hClosed
            · cases hClosed
      | future => exact hInv.future hNodes hWaiting hPhase
      | propose =>
          apply hInv.skip .select hWaiting
          · simp [internalStep, hWaiting, hPhase,
              proposeLoop, hInv.queues.pendingBatches]
          · simp [hPhase, Phase.rank]
          · intro _ _
            exact hInv.drained (by simp [hPhase])
              (by simp [hPhase])
          · intro _
            exact hInv.quiet (Or.inl hPhase)

/- A node that is open takes in a proposal of the chain. -/
theorem takes
    {i : Nat}
    (hInv : Reordering chain seen node)
    (hOpen : node.phase = .select ∨ node.phase = .drain)
    (hi : 1 ≤ i ∧ i ≤ k) :
    Reordering chain
      (seen ++ [.recv (chain.message i)])
      { node with
        cx := handleMessage (chain.message i) node.cx
        phase := .drain } where
  position :=
    { hInv.position with
      chainInv := { hInv.position.chainInv with }
      linear := { hInv.position.linear with }
      configured := { hInv.position.configured with } }
  queues := by
    refine { hInv.queues with buffered := ?_ }
    intro x hMem
    rcases List.mem_append.mp hMem with hOld | hNew
    · exact hInv.queues.buffered x hOld
    · exact ⟨i, hi, List.mem_singleton.mp hNew⟩
  tracked := by
    intro j hFirst hLast hSeen
    have hMore :
        ∀ x, x ∈ node.cx.propBuf →
          x ∈ node.cx.propBuf ++ [chain.entry i] :=
      fun x hMem => List.mem_append_left _ hMem
    rcases List.mem_append.mp hSeen with hOld | hNew
    · rcases hInv.tracked j hFirst hLast hOld with
        hPassed | hBuffered | hWaits
      · exact Or.inl hPassed
      · exact Or.inr (Or.inl (hMore _ hBuffered))
      · exact Or.inr (Or.inr hWaits)
    · have hSame : chain.propose j = chain.propose i := by
        simp only [List.mem_singleton, Event.recv.injEq,
          ProposalChain.message,
          ProtocolMsg.newProposal.injEq] at hNew
        exact hNew.1
      have hIndex : j = i := by
        rw [← chain.round j hFirst hLast, hSame,
          chain.round i hi.1 hi.2]
      rw [hIndex]
      exact Or.inr (Or.inl
        (List.mem_append_right _
          (List.mem_singleton_self _)))
  released := hInv.released
  waiting := hInv.waiting
  drained := fun hDrain => absurd rfl hDrain
  quiet := nofun
  idle := by
    intro _
    apply hInv.idle
    rcases hOpen with hSelect | hDrain
    · exact Or.inr (Or.inr hSelect)
    · exact Or.inl hDrain

end Reordering

end Apollo

end LibApollo

------------------------------------------------------------
-- Confluence
------------------------------------------------------------

namespace LibApollo

namespace Apollo

variable {H : Type} [DecidableEq H] [Crypto H]
variable {config : Config} {k : Nat}

/-
  A fresh node is fed the proposals of the chain in groups:
  `handle_message` takes those of a group, then
  `process_message` runs to its end.
-/
def ProposalChain.Fed
    (chain : ProposalChain H config k)
    (groups : List (List Nat))
    (node : Node H) : Prop :=
  Machine.Turns step .internal
    (fun node => node.phase = .select) (Node.new config)
    (groups.map
      (fun group =>
        group.map (fun i => .recv (chain.message i))))
    node

/- The event brings a proposal of the chain. -/
def ProposalChain.Feeds
    (chain : ProposalChain H config k)
    (_ : List (Event H))
    (event : Event H) : Prop :=
  ∃ i, (1 ≤ i ∧ i ≤ k) ∧ event = .recv (chain.message i)

theorem reordering_drains
    (chain : ProposalChain H config k)
    (hNodes : 0 < config.numNodes) :
    Machine.Drains step .internal
      (fun node => node.phase = .select)
      (fun node => node.phase = .select ∨
        node.phase = .drain)
      chain.Feeds (Reordering chain) Node.size where
  opened := fun _ hDone => Or.inl hDone
  takes := by
    intro seen node event hInv hOpen hFeeds
    rcases hFeeds with ⟨i, hi, rfl⟩
    refine ⟨_, ?_, hInv.takes hOpen hi, Or.inr rfl⟩
    unfold step
    exact if_pos hOpen
  works := by
    intro seen node hInv hBusy
    exact hInv.works hNodes hBusy
  idles := by
    intro seen node hInv hDone
    have hIdle := hInv.idle (Or.inr (Or.inr hDone))
    simp [step, internalStep, hIdle, hDone]

theorem position_new
    (chain : ProposalChain H config k) :
    Position chain (Node.new config : Node H).cx where
  chainInv := chainInv_new config
  linear := linearInv_new config
  configured := ⟨rfl, rfl, rfl⟩
  numFaults := rfl
  round_le := Nat.le_add_left 1 k
  passed := by
    intro i hFirst hPassed
    change i < 1 at hPassed
    omega
  lastSeen := chain.genesis.symm
  known := by
    intro hash block hLookup
    refine ⟨0, Nat.zero_le k, ?_⟩
    rw [chain.genesis]
    exact Storage.eq_of_delivered_new hLookup
  heights := by
    intro height block hLookup
    refine ⟨0, Nat.zero_le k, ?_⟩
    rw [chain.genesis]
    change (Storage.new.addDeliveredBlock
      Block.genesis).deliveredBlockFromHt height = _
      at hLookup
    rw [Storage.addDeliveredBlock_deliveredBlockFromHt]
      at hLookup
    split at hLookup
    · exact (Option.some.inj hLookup).symm
    · simp [Storage.new, Storage.deliveredBlockFromHt]
        at hLookup

theorem reordering_new
    (chain : ProposalChain H config k) :
    Reordering chain [] (Node.new config : Node H) where
  position := position_new chain
  queues := by
    constructor <;>
      simp [Node.new, Context.new, Context.tellBatcher]
  tracked := by
    intro i _ _ hSeen
    cases hSeen
  released := by
    intro i _ hParked
    simp [Node.new, Context.new, Context.tellBatcher]
      at hParked
  waiting := nofun
  drained := fun _ _ => rfl
  quiet := by
    intro _
    simp [Node.new, Context.new, Context.tellBatcher]
  idle := fun _ => rfl

/-
  A node that has seen the whole chain and is back in
  `select` has accepted all of it: the proposal of a round
  it stopped at would wait in no place.
-/
theorem Reordering.complete
    {chain : ProposalChain H config k}
    {seen : List (Event H)}
    {node : Node H}
    (hInv : Reordering chain seen node)
    (hDone : node.phase = .select)
    (hAll :
      ∀ i, 1 ≤ i → i ≤ k →
        Event.recv (chain.message i) ∈ seen) :
    node.cx.round = k + 1 := by
  have hFirst := hInv.position.chainInv.round_pos
  have hBound := hInv.position.round_le
  by_contra hOther
  have hShort : node.cx.round ≤ k := by omega
  rcases hInv.tracked _ hFirst hShort
      (hAll _ hFirst hShort) with
    hPassed | hBuffered | hKept | hParked
  · exact Nat.lt_irrefl _ hPassed
  · rw [hInv.drained (by simp [hDone]) (by simp [hDone])]
      at hBuffered
    cases hBuffered
  · rw [hInv.quiet (Or.inr hDone)] at hKept
    cases hKept
  · rcases hInv.released _ (by omega) hParked with
      hLater | ⟨sender, hWaiting⟩
    · omega
    · rw [hInv.idle (Or.inr (Or.inr hDone))] at hWaiting
      cases hWaiting

/- The committed blocks of a node that has all proposals. -/
theorem Position.committed_eq
    {chain : ProposalChain H config k}
    {cx : Context H}
    (hPos : Position chain cx)
    (hRound : cx.round = k + 1) :
    cx.storage.committedBlocksByHash =
      if config.numFaults < k then
        (Finset.range (k - config.numFaults + 1)).image
          (fun i => (chain.block i).hash)
      else
        ∅ := by
  have hAccepted :
      ∀ i, i ≤ k →
        acceptedHash cx i = (chain.block i).hash := by
    intro i hi
    cases i with
    | zero =>
        rw [acceptedHash_zero, chain.genesis]
        rfl
    | succ i =>
        rw [acceptedHash_of_lookup hPos.chainInv
            (hPos.passed (i + 1) (by omega) (by omega)),
          chain.named (i + 1) (by omega) hi]
  ext hash
  rw [hPos.linear.committed hash, hPos.numFaults, hRound]
  split
  · rename_i hDue
    rw [Finset.mem_image]
    constructor
    · intro hParts
      rcases hParts with ⟨_, i, hi, rfl⟩
      exact ⟨i, Finset.mem_range.mpr (by omega),
        (hAccepted i (by omega)).symm⟩
    · intro hParts
      rcases hParts with ⟨i, hi, rfl⟩
      have hBound := Finset.mem_range.mp hi
      exact ⟨by omega, i, by omega,
        (hAccepted i (by omega)).symm⟩
  · rename_i hEarly
    constructor
    · intro hParts
      omega
    · intro hMem
      exact absurd hMem (Finset.notMem_empty hash)

/-
  In whatever order, repetition and grouping the proposals
  of the first `k` rounds arrive, the node gets through them
  and ends in the same place.
-/
theorem reordering_confluent
    (chain : ProposalChain H config k)
    (groups : List (List Nat))
    (hNodes : 0 < config.numNodes)
    (hOnly :
      ∀ group ∈ groups, ∀ i ∈ group, 1 ≤ i ∧ i ≤ k)
    (hAll :
      ∀ i, 1 ≤ i → i ≤ k →
        ∃ group ∈ groups, i ∈ group) :
    (∃ node, chain.Fed groups node) ∧
      ∀ node, chain.Fed groups node →
        node.cx.round = k + 1 ∧
          (∀ i, 1 ≤ i → i ≤ k →
            node.cx.propChainByRound.lookup i =
              some (chain.propose i)) ∧
          node.cx.lastSeenBlock = chain.block k ∧
          node.cx.storage.committedBlocksByHash =
            if config.numFaults < k then
              (Finset.range
                (k - config.numFaults + 1)).image
                (fun i => (chain.block i).hash)
            else
              ∅ := by
  have hDrains := reordering_drains chain hNodes
  have hStart := reordering_new chain
  have hOrder :
      Machine.InOrder chain.Feeds []
        (groups.map
          (fun group =>
            group.map (fun i =>
              Event.recv (chain.message i)))).flatten := by
    intro before event after hSplit
    have hMem :
        event ∈
          (groups.map
            (fun group =>
              group.map (fun i =>
                Event.recv (chain.message i)))).flatten := by
      rw [hSplit]
      simp
    simp only [List.mem_flatten, List.mem_map] at hMem
    rcases hMem with ⟨_, ⟨group, hGroup, rfl⟩, hEvent⟩
    rcases List.mem_map.mp hEvent with ⟨i, hi, rfl⟩
    exact ⟨i, hOnly group hGroup i hi, rfl⟩
  refine ⟨hDrains.exists_turns hStart rfl hOrder, ?_⟩
  intro node hFed
  rcases hDrains.invariant hStart rfl hOrder hFed with
    ⟨hInv, hDone⟩
  have hSeen :
      ∀ i, 1 ≤ i → i ≤ k →
        Event.recv (chain.message i) ∈
          (groups.map
            (fun group =>
              group.map (fun i =>
                Event.recv (chain.message i)))).flatten := by
    intro i hFirst hLast
    rcases hAll i hFirst hLast with ⟨group, hGroup, hi⟩
    simp only [List.mem_flatten, List.mem_map]
    exact ⟨_, ⟨group, hGroup, rfl⟩,
      List.mem_map.mpr ⟨i, hi, rfl⟩⟩
  have hRound := hInv.complete hDone hSeen
  refine ⟨hRound, ?_, ?_,
    hInv.position.committed_eq hRound⟩
  · intro i hFirst hLast
    exact hInv.position.passed i hFirst (by omega)
  · rw [hInv.position.lastSeen, hRound]
    rfl

/- Three replicas propose the same batch in turn. -/
def turnBlock : Nat → Block Digest
| 0 => Block.genesis
| i + 1 =>
    Digest.blockOn (turnBlock i) (leaderOf 3 (i + 1))
      (i + 1)

theorem turnBlock_height
    (i : Nat) : (turnBlock i).header.height = i := by
  cases i with
  | zero => rfl
  | succ i => rfl

theorem turnBlock_proper
    (i : Nat) : (turnBlock i).Proper := by
  cases i with
  | zero => exact Or.inl rfl
  | succ i =>
      exact Or.inr (Block.extending_wellHashed _ _ _ _)

def turnChain
    (id : Replica)
    (k : Nat) :
    ProposalChain Digest (smallConfig id) k where
  propose := fun i =>
    Propose.signed (Digest.keyOf (leaderOf 3 i))
      (leaderOf 3 i) i (turnBlock i).hash
  block := turnBlock
  batch := fun _ => oneBatch
  genesis := rfl
  round := fun _ _ _ => rfl
  height := fun i _ => turnBlock_height i
  prev := fun _ _ => rfl
  distinct := by
    intro i j _ _ hHash
    have hEq : turnBlock i = turnBlock j :=
      Block.Proper.eq_of_hash_eq Digest.collisionFree
        (turnBlock_proper i) (turnBlock_proper j) hHash
    rw [← turnBlock_height i, hEq, turnBlock_height j]
  named := fun _ _ _ => rfl
  sealed := by
    intro i hFirst _
    cases i with
    | zero => omega
    | succ i => rfl
  author := by
    intro i hFirst _
    cases i with
    | zero => omega
    | succ i => rfl
  origin := fun _ _ _ => rfl
  signature := by
    intro i _ _
    refine ⟨Digest.keyOf (leaderOf 3 i), ?_,
      decide_eq_true rfl⟩
    have hThree :
        ∀ n : Nat, n < 3 → n = 0 ∨ n = 1 ∨ n = 2 := by
      intro n hn
      omega
    change (Digest.keyMap [0, 1, 2]).lookup
      (leaderOf 3 i) = _
    rcases hThree (leaderOf 3 i)
        (Nat.mod_lt _ (by omega)) with hLeader | hRest
    · rw [hLeader]
      decide
    · rcases hRest with hLeader | hLeader
      · rw [hLeader]
        decide
      · rw [hLeader]
        decide

/- Three proposals arrive in reverse, the second twice. -/
theorem reordering_confluent_reversed :
    (∃ node, (turnChain 1 3).Fed [[3], [2, 2], [1]] node) ∧
      ∀ node,
        (turnChain 1 3).Fed [[3], [2, 2], [1]] node →
          node.cx.round = 4 ∧
            (∀ i, 1 ≤ i → i ≤ 3 →
              node.cx.propChainByRound.lookup i =
                some ((turnChain 1 3).propose i)) ∧
            node.cx.lastSeenBlock = turnBlock 3 ∧
            node.cx.storage.committedBlocksByHash =
              (Finset.range 3).image
                (fun i => (turnBlock i).hash) :=
  reordering_confluent (turnChain 1 3) [[3], [2, 2], [1]]
    (by decide) (by decide)
    (by
      intro i hFirst hLast
      have hCases : i = 1 ∨ i = 2 ∨ i = 3 := by omega
      rcases hCases with rfl | rfl | rfl <;> simp)

end Apollo

end LibApollo
