import LibApollo.Artemis.VoteSafety
import LibApollo.Base.Network
import LibApollo.Types.LeaderChain

/-
  Agreement of Artemis replicas that all follow the code.

  The view leader is the only replica that builds blocks,
  and it builds one block for each height.  The vote of a
  round is made once, by its leader, for a higher block of
  this chain than the vote before.  So all replicas accept
  the same votes, and what they commit is an initial part of
  the one chain.

  Key definitions include:
    * `VotesOnChain`, `CommittedInv`
    * `Made`, `mainScope`
    * `GlobalInv`

  Key theorems include:
    * `CommittedInv.accepted`
    * `GlobalInv.step`
    * `vote_agreement`
-/

------------------------------------------------------------
-- The Chain in the Store of a Node
------------------------------------------------------------

namespace LibApollo

namespace Artemis

open Ancestry LeaderChain

variable {H : Type} [DecidableEq H] [Crypto H]
variable {scope : Scope H}
variable {leader : Replica}
variable {chain : Nat → LibApollo.Block H}
variable {top : Nat}
variable {cx cx' : Context H}

/- A stored block under the hash of a chain block is it. -/
theorem stored_chain_block
    {k : Nat}
    (hFree : CollisionFree H)
    (hMain : LeaderChain leader chain top)
    (hScope :
      ∀ block, scope.okBlock block →
        OnChain chain top block.blk)
    (hInv : ContextInv scope cx)
    (hBound : k ≤ top)
    (hDelivered :
      cx.storage.isDeliveredByHash (chain k).hash = true) :
    ∃ block,
      cx.storage.deliveredBlockFromHash (chain k).hash =
          some block ∧
        block.blk = chain k := by
  rcases (Storage.isDeliveredByHash_iff _ _).mp hDelivered
    with ⟨block, hLookup⟩
  refine ⟨block, hLookup, ?_⟩
  exact hMain.eq_of_hash_eq hFree hBound
    (hScope _ (hInv.data.delivered _ _ hLookup)).1
    (Storage.getHash_of_delivered hLookup)

/- With a chain block all blocks below it are stored. -/
theorem chain_delivered_below
    {k : Nat}
    (hFree : CollisionFree H)
    (hMain : LeaderChain leader chain top)
    (hScope :
      ∀ block, scope.okBlock block →
        OnChain chain top block.blk)
    (hInv : ContextInv scope cx)
    (hBound : k ≤ top)
    (hDelivered :
      cx.storage.isDeliveredByHash (chain k).hash = true)
    (s : Nat)
    (hBelow : s ≤ k) :
    cx.storage.isDeliveredByHash (chain s).hash = true := by
  induction k with
  | zero =>
      rw [Nat.le_zero.mp hBelow]
      exact hDelivered
  | succ k ih =>
      rcases Nat.lt_or_eq_of_le hBelow with hLt | rfl
      · rcases stored_chain_block hFree hMain hScope hInv
          hBound hDelivered with ⟨block, hLookup, hBlock⟩
        have hPrev :
            cx.storage.isDeliveredByHash
              block.blk.header.prev = true :=
          hInv.settled.closed _ block hLookup
        rw [hBlock, hMain.prev k hBound] at hPrev
        exact ih (by omega) hPrev (by omega)
      · exact hDelivered

theorem chain_ancestor_iff
    {k : Nat}
    {a : H}
    (hFree : CollisionFree H)
    (hMain : LeaderChain leader chain top)
    (hScope :
      ∀ block, scope.okBlock block →
        OnChain chain top block.blk)
    (hInv : ContextInv scope cx)
    (hBound : k ≤ top)
    (hDelivered :
      cx.storage.isDeliveredByHash (chain k).hash = true) :
    Ancestor cx.storage.parent a (chain k).hash ↔
      ∃ s, s ≤ k ∧ a = (chain s).hash := by
  have hParent :
      ∀ s, s ≤ k →
        cx.storage.parent (chain s).hash =
          some (chain s).header.prev := by
    intro s hBelow
    rcases stored_chain_block hFree hMain hScope hInv
        (hBelow.trans hBound)
        (chain_delivered_below hFree hMain hScope hInv
          hBound hDelivered s hBelow) with
      ⟨block, hLookup, hBlock⟩
    rw [Storage.parent_of_delivered hLookup, ← hBlock]
    rfl
  refine hMain.ancestor_iff ?_ ?_
  · have hRoot := hParent 0 (Nat.zero_le k)
    rw [hMain.genesis] at hRoot
    exact hRoot
  · intro s hBelow
    rw [hParent (s + 1) hBelow,
      hMain.prev s (by omega)]

end Artemis

end LibApollo

------------------------------------------------------------
-- Votes and Commits on the Chain
------------------------------------------------------------

namespace LibApollo

namespace Artemis

open Ancestry LeaderChain

variable {H : Type} [DecidableEq H] [Crypto H]
variable {scope : Scope H}
variable {leader : Replica}
variable {chain : Nat → LibApollo.Block H}
variable {top : Nat}
variable {cx cx' : Context H}

/- The votes of a node climb the chain. -/
structure VotesOnChain
    (chain : Nat → LibApollo.Block H)
    (top : Nat)
    (cx : Context H) : Prop where
  voted :
    ∀ r v, cx.voteChain.lookup r = some v →
      ∃ k, 0 < k ∧ k ≤ top ∧ v.hash = (chain k).hash
  increasing :
    ∀ r s v w, r < s →
      cx.voteChain.lookup r = some v →
      cx.voteChain.lookup s = some w →
      ∀ j k, j ≤ top → k ≤ top →
        v.hash = (chain j).hash →
        w.hash = (chain k).hash → j < k

/-
  Committed are the chain blocks up to the one voted for
  `numFaults` rounds before the last.
-/
def CommittedInv
    (chain : Nat → LibApollo.Block H)
    (top : Nat)
    (cx : Context H) : Prop :=
  ∀ hash,
    hash ∈ cx.storage.committedBlocksByHash ↔
      cx.numFaults + 1 < cx.round ∧
        ∃ v k m,
          cx.voteChain.lookup
              (cx.round - 1 - cx.numFaults) = some v ∧
            k ≤ top ∧
            v.hash = (chain k).hash ∧
            m ≤ k ∧
            hash = (chain m).hash

/- The committed blocks are closed under parents. -/
theorem CommittedInv.closed
    (hFree : CollisionFree H)
    (hMain : LeaderChain leader chain top)
    (hScope :
      ∀ block, scope.okBlock block →
        OnChain chain top block.blk)
    (hInv : ContextInv scope cx)
    (hCommitted : CommittedInv chain top cx) :
    cx.storage.CommittedClosed := by
  intro hash hMem
  rcases (hCommitted hash).mp hMem with
    ⟨hDue, v, k, m, hLookup, hBound, hHash, hBelow, rfl⟩
  have hDelivered := (hInv.chain.entry _ v hLookup).2
  rw [hHash] at hDelivered
  have hStored :=
    chain_delivered_below hFree hMain hScope hInv hBound
      hDelivered m hBelow
  rcases stored_chain_block hFree hMain hScope hInv
      (hBelow.trans hBound) hStored with
    ⟨block, hBlock, hSame⟩
  refine ⟨_, Storage.parent_of_delivered hBlock, ?_⟩
  change block.blk.header.prev ∈ _
  rw [hSame]
  refine (hCommitted _).mpr
    ⟨hDue, v, k, m - 1, hLookup, hBound, hHash, by omega,
      ?_⟩
  cases m with
  | zero =>
      rw [hMain.genesis]
      rfl
  | succ m => exact hMain.prev m (by omega)

/- What an acceptance does, field by field. -/
theorem Accepted.fields
    {v : UCRVote H}
    (hAccepted : Accepted v cx cx') :
    cx'.round = cx.round + 1 ∧
      cx'.numFaults = cx.numFaults ∧
      cx'.voteChain = cx.voteChain.insert v.round v ∧
      cx'.signed = cx.signed ∧
      CommitOutcome
        { cx with
          voteChain := cx.voteChain.insert v.round v }
        cx'.storage := by
  rcases hAccepted with
    ⟨_, _, _, _, _, _, _, hOutcome, _, _, rfl⟩
  exact ⟨rfl, rfl, rfl, rfl, hOutcome⟩

/- Accepting a vote commits the next part of the chain. -/
theorem CommittedInv.accepted
    {v : UCRVote H}
    (hFree : CollisionFree H)
    (hMain : LeaderChain leader chain top)
    (hScope :
      ∀ block, scope.okBlock block →
        OnChain chain top block.blk)
    (hInv : ContextInv scope cx)
    (hInv' : ContextInv scope cx')
    (hVotes : VotesOnChain chain top cx')
    (hCurrent : Current cx v)
    (hAccepted : Accepted v cx cx')
    (hCommitted : CommittedInv chain top cx) :
    CommittedInv chain top cx' := by
  rcases hAccepted.fields with
    ⟨hRound, hFaults, hChain, _, hOutcome⟩
  have hPos := hInv.chain.round_pos
  intro hash
  rw [hRound, hFaults]
  rw [show cx.round + 1 - 1 - cx.numFaults =
    cx.round - cx.numFaults by omega]
  rcases hOutcome with ⟨hEarly, hSame⟩ |
    ⟨hDue, w, hLookup, hSpec⟩
  · rw [hSame]
    dsimp only at hEarly
    constructor
    · intro hMem
      have hLate := ((hCommitted hash).mp hMem).1
      omega
    · intro hParts
      rcases hParts with ⟨hLate, _⟩
      omega
  · dsimp only at hDue hLookup hSpec
    rw [← hChain] at hLookup
    rcases hVotes.voted _ w hLookup with
      ⟨k, _, hBound, hHash⟩
    have hDelivered :
        cx.storage.isDeliveredByHash (chain k).hash =
          true := by
      have hEntry :=
        (hInv'.chain.entry _ w hLookup).2
      rw [Storage.isDeliveredByHash,
        hSpec.deliveredBlockFromHash_eq, hHash] at hEntry
      exact hEntry
    have hAncestors :
        ∀ other,
          Ancestor cx.storage.parent other w.hash ↔
            ∃ s, s ≤ k ∧ other = (chain s).hash := by
      intro other
      rw [hHash]
      exact chain_ancestor_iff hFree hMain hScope hInv
        hBound hDelivered
    constructor
    · intro hMem
      refine ⟨by omega, w, k, ?_⟩
      rcases hSpec.mem hash hMem with hOld | hWalked
      · rcases (hCommitted hash).mp hOld with
          ⟨hLate, u, j, m, hBefore, hLow, hEq, hBelow, rfl⟩
        have hKept :
            cx'.voteChain.lookup
                (cx.round - 1 - cx.numFaults) =
              some u := by
          have hOther :
              cx.round - 1 - cx.numFaults ≠ v.round := by
            have hNow := hCurrent.1
            omega
          rw [hChain, FinMap.lookup_insert_eq,
            if_neg hOther]
          exact hBefore
        have hLower : j < k :=
          hVotes.increasing _ _ u w (by omega) hKept
            hLookup j k hLow hBound hEq hHash
        exact ⟨m, hLookup, hBound, hHash, by omega, rfl⟩
      · rcases (hAncestors hash).mp hWalked with
          ⟨m, hBelow, rfl⟩
        exact ⟨m, hLookup, hBound, hHash, hBelow, rfl⟩
    · intro hParts
      rcases hParts with
        ⟨_, u, j, m, hSame, hLow, hEq, hBelow, rfl⟩
      rw [hLookup, Option.some.injEq] at hSame
      subst hSame
      have hLevel : j = k :=
        hMain.hash_injective hFree hLow hBound
          (hEq.symm.trans hHash)
      have hClosed :=
        hSpec.committedClosed
          (hCommitted.closed hFree hMain hScope hInv)
      apply hClosed.ancestor _ hSpec.start_mem
      rw [hSpec.parent_eq]
      exact (hAncestors _).mpr ⟨m, by omega, rfl⟩

omit [Crypto H] in
theorem CommittedInv.of_same
    (hSame : SameVotes cx cx')
    (hFaults : cx'.numFaults = cx.numFaults)
    (hCommitted : CommittedInv chain top cx) :
    CommittedInv chain top cx' := by
  intro hash
  rw [hSame.committed, hSame.voteChain, hSame.round,
    hFaults]
  exact hCommitted hash

end Artemis

end LibApollo

------------------------------------------------------------
-- Votes Made in the System
------------------------------------------------------------

namespace LibApollo

namespace Artemis

open LeaderChain

variable {H : Type} [DecidableEq H] [Crypto H]

/- The leader of its round has the vote in its chain. -/
def Made
    (n f : Nat)
    (g : Replica → Node H)
    (v : UCRVote H) : Prop :=
  (g (Leaders.leaderAt H n f v.round)).cx.voteChain.lookup
    v.round = some v

/- Votes that were made and blocks of the view leader. -/
def mainScope
    (n f : Nat)
    (g : Replica → Node H)
    (chain : Nat → LibApollo.Block H)
    (top : Nat) : Scope H where
  okVote := Made n f g
  okBlock := fun block => OnChain chain top block.blk

/- The votes of the system climb the chain. -/
structure MadeInv
    (n f : Nat)
    (g : Replica → Node H)
    (chain : Nat → LibApollo.Block H)
    (top : Nat) : Prop where
  voted :
    ∀ v, Made n f g v →
      ∃ k, 0 < k ∧ k ≤ top ∧ v.hash = (chain k).hash
  increasing :
    ∀ v w, Made n f g v → Made n f g w →
      v.round < w.round →
      ∀ j k, j ≤ top → k ≤ top →
        v.hash = (chain j).hash →
        w.hash = (chain k).hash → j < k

variable {n f top : Nat}
variable {g : Replica → Node H}
variable {chain : Nat → LibApollo.Block H}

theorem mainScope_proper :
    (mainScope n f g chain top).Proper :=
  fun _ hBlock => hBlock.1

/- A round has one vote. -/
theorem Made.eq_of_round_eq
    {v w : UCRVote H}
    (hLeft : Made n f g v)
    (hRight : Made n f g w)
    (hRound : v.round = w.round) :
    v = w := by
  unfold Made at hLeft hRight
  rw [hRound, hRight] at hLeft
  exact (Option.some.inj hLeft).symm

/- The votes made after a step of one replica. -/
theorem made_update_iff
    {i : Replica}
    {node : Node H}
    {v : UCRVote H} :
    Made n f (Function.update g i node) v ↔
      if Leaders.leaderAt H n f v.round = i then
        node.cx.voteChain.lookup v.round = some v
      else
        Made n f g v := by
  unfold Made
  by_cases hLeader : Leaders.leaderAt H n f v.round = i
  · rw [if_pos hLeader, hLeader, Function.update_self]
  · rw [if_neg hLeader, Function.update_of_ne hLeader]

/- What is in scope depends on the made votes only. -/
theorem mainScope_congr
    {g' : Replica → Node H}
    (hMade : ∀ v, Made n f g' v ↔ Made n f g v) :
    mainScope n f g' chain top =
      mainScope n f g chain top := by
  unfold mainScope
  congr 1
  funext v
  exact propext (hMade v)

theorem MadeInv.congr
    {g' : Replica → Node H}
    (hVotes : MadeInv n f g chain top)
    (hMade : ∀ v, Made n f g' v ↔ Made n f g v) :
    MadeInv n f g' chain top := by
  constructor
  · intro v hVote
    exact hVotes.voted v ((hMade v).mp hVote)
  · intro v w hLeft hRight
    exact hVotes.increasing v w ((hMade v).mp hLeft)
      ((hMade w).mp hRight)

/- A node that holds only made votes has them in order. -/
theorem MadeInv.votesOnChain
    {cx : Context H}
    (hMade : MadeInv n f g chain top)
    (hInv : ContextInv (mainScope n f g chain top) cx) :
    VotesOnChain chain top cx := by
  constructor
  · intro r v hLookup
    exact hMade.voted v (hInv.data.voteChain r v hLookup)
  · intro r s v w hLess hLeft hRight
    have hRound := (hInv.chain.entry r v hLeft).1
    have hRound' := (hInv.chain.entry s w hRight).1
    exact hMade.increasing v w
      (hInv.data.voteChain r v hLeft)
      (hInv.data.voteChain s w hRight) (by omega)

/- Votes for rounds that a node has passed are its own. -/
theorem Made.lookup_of_lt
    {v : UCRVote H}
    {cx : Context H}
    (hInv : ContextInv (mainScope n f g chain top) cx)
    (hVote : Made n f g v)
    (hPos : 1 ≤ v.round)
    (hPassed : v.round < cx.round) :
    cx.voteChain.lookup v.round = some v := by
  rcases (hInv.chain.keys v.round).mpr ⟨hPos, hPassed⟩ with
    ⟨w, hLookup⟩
  have hSame : w = v :=
    (hInv.data.voteChain _ w hLookup).eq_of_round_eq hVote
      (hInv.chain.entry _ w hLookup).1
  rw [hSame] at hLookup
  exact hLookup

end Artemis

end LibApollo

------------------------------------------------------------
-- The Global Invariant
------------------------------------------------------------

namespace LibApollo

namespace Artemis

open LeaderChain

variable {H : Type} [DecidableEq H] [Crypto H]

/- The configurations of one system of `n` replicas. -/
def SystemConfig
    (n f : Nat)
    (config : Replica → Config) : Prop :=
  1 ≤ f ∧ 2 * f < n ∧
    ∀ i, i < n →
      (config i).id = i ∧ (config i).numNodes = n ∧
        (config i).numFaults = f

structure GlobalInv
    (n f : Nat)
    (config : Replica → Config)
    (g : Replica → Node H)
    (chain : Nat → LibApollo.Block H)
    (top : Nat) : Prop where
  main : LeaderChain 0 chain top
  bound : top < 2 ^ 64
  seen : (g 0).cx.lastSeenBlock.blk = chain top
  signed :
    ∀ k, k < top →
      SignData.hash (chain (k + 1)).hash ∈ (g 0).cx.signed
  context :
    ∀ i, i < n →
      ContextInv (mainScope n f g chain top) (g i).cx
  configured :
    ∀ i, i < n → Configured (config i) (g i).cx
  committed :
    ∀ i, i < n → CommittedInv chain top (g i).cx
  votes : MadeInv n f g chain top

variable {n f top : Nat}
variable {config : Replica → Config}
variable {g : Replica → Node H}
variable {chain : Nat → LibApollo.Block H}

/- Effects keep accepted votes. -/
theorem Effects.voteChain_mono
    {scope : Scope H}
    {acc : UCRVote H → Prop}
    {cx cx' : Context H}
    {r : Nat}
    {v : UCRVote H}
    (hFree : CollisionFree H)
    (hProper : scope.Proper)
    (hInv : ContextInv scope cx)
    (hEffects : Effects scope acc cx cx')
    (hLookup : cx.voteChain.lookup r = some v) :
    cx'.voteChain.lookup r = some v := by
  induction hEffects with
  | refl => exact hLookup
  | tail hBefore hEffect ih =>
      have hMid := hInv.effects hFree hProper hBefore
      rcases hEffect.sameVotes_or_accepts with
        hSame | ⟨w, _, _, _, hCurrent, hAccepted⟩
      · rw [hSame.voteChain]
        exact ih
      · have hPassed :=
          ((hMid.chain.keys r).mp ⟨v, ih⟩).2
        have hOther : r ≠ w.round := by
          have hNow := hCurrent.1
          omega
        rw [hAccepted.fields.2.2.1,
          FinMap.lookup_insert_eq, if_neg hOther]
        exact ih

/- Effects sign nothing. -/
theorem Effects.signed_eq
    {scope : Scope H}
    {acc : UCRVote H → Prop}
    {cx cx' : Context H}
    (hEffects : Effects scope acc cx cx') :
    cx'.signed = cx.signed := by
  induction hEffects with
  | refl => rfl
  | tail _ hEffect ih =>
      rcases hEffect.sameVotes_or_accepts with
        hSame | ⟨_, _, _, _, _, hAccepted⟩
      · exact hSame.signed.trans ih
      · exact hAccepted.fields.2.2.2.1.trans ih

/- Effects never lower the last seen block. -/
theorem Effects.lastSeen_height_le
    {scope : Scope H}
    {acc : UCRVote H → Prop}
    {cx cx' : Context H}
    (hFree : CollisionFree H)
    (hProper : scope.Proper)
    (hInv : ContextInv scope cx)
    (hEffects : Effects scope acc cx cx') :
    cx.lastSeenBlock.blk.header.height ≤
      cx'.lastSeenBlock.blk.header.height := by
  induction hEffects with
  | refl => exact Nat.le_refl _
  | @tail mid cx' hBefore hEffect ih =>
      have hMid := hInv.effects hFree hProper hBefore
      refine Nat.le_trans ih ?_
      cases hEffect with
      | channels hChannels =>
          rcases hChannels with ⟨_, _, _, _, rfl⟩
          exact Nat.le_refl _
      | receive msg _ => cases msg <;> exact Nat.le_refl _
      | deliver block hBlock _ =>
          exact (doDelivery_seen hFree hProper hMid.data
            hBlock hMid.chain.seen).height_le
      | send dest msg _ =>
          unfold Context.send
          split
          · exact Nat.le_refl _
          · exact Nat.le_refl _
      | accept v _ _ _ _ hAccepted =>
          rcases hAccepted with
            ⟨_, _, _, _, _, _, _, _, _, _, rfl⟩
          exact Nat.le_refl _
      | _ => exact Nat.le_refl _

/- A last seen block at the top is the top. -/
theorem lastSeen_eq_top
    {scope : Scope H}
    {cx : Context H}
    (hMain : LeaderChain 0 chain top)
    (hScope :
      ∀ block, scope.okBlock block →
        OnChain chain top block.blk)
    (hInv : ContextInv scope cx)
    (hTop : top ≤ cx.lastSeenBlock.blk.header.height) :
    cx.lastSeenBlock.blk = chain top := by
  rcases hInv.chain.seen_pos with hGenesis | hPos
  · rw [hGenesis] at hTop ⊢
    have hZero : top = 0 := Nat.le_zero.mp hTop
    rw [hZero, hMain.genesis]
    rfl
  · rcases (hScope _ hInv.data.lastSeen).2 hPos with
      ⟨hBound, hEq⟩
    rw [hEq]
    congr 1
    omega

/- The committed part of the chain after some effects. -/
theorem CommittedInv.effects
    {scope : Scope H}
    {acc : UCRVote H → Prop}
    {own : Config}
    {cx cx' : Context H}
    (hFree : CollisionFree H)
    (hMain : LeaderChain 0 chain top)
    (hScope :
      ∀ block, scope.okBlock block →
        OnChain chain top block.blk)
    (hVotes :
      ∀ cx, ContextInv scope cx →
        VotesOnChain chain top cx)
    (hInv : ContextInv scope cx)
    (hConfig : Configured own cx)
    (hEffects : Effects scope acc cx cx')
    (hCommitted : CommittedInv chain top cx) :
    CommittedInv chain top cx' := by
  have hProper : scope.Proper :=
    fun block hBlock => (hScope block hBlock).1
  induction hEffects with
  | refl => exact hCommitted
  | @tail mid cx' hBefore hEffect ih =>
      have hMid := hInv.effects hFree hProper hBefore
      have hAll := hBefore.tail hEffect
      have hAfter := hInv.effects hFree hProper hAll
      rcases hEffect.sameVotes_or_accepts with
        hSame | ⟨v, _, _, _, hCurrent, hAccepted⟩
      · refine ih.of_same hSame ?_
        rw [(hConfig.effects hAll).numFaults,
          (hConfig.effects hBefore).numFaults]
      · exact ih.accepted hFree hMain hScope hMid hAfter
          (hVotes _ hAfter) hCurrent hAccepted

end Artemis

end LibApollo

------------------------------------------------------------
-- Steps That Process Messages
------------------------------------------------------------

namespace LibApollo

namespace Artemis

open LeaderChain

variable {H : Type} [DecidableEq H] [Crypto H]
variable {n f top : Nat}
variable {config : Replica → Config}
variable {g : Replica → Node H}
variable {chain : Nat → LibApollo.Block H}
variable {i : Replica}
variable {node : Node H}

/- Effects accept only votes that were made before. -/
theorem GlobalInv.made_iff_of_effects
    {acc : UCRVote H → Prop}
    (hFree : CollisionFree H)
    (hGlobal : GlobalInv n f config g chain top)
    (hIndex : i < n)
    (hEffects :
      Effects (mainScope n f g chain top) acc (g i).cx
        node.cx)
    (v : UCRVote H) :
    Made n f (Function.update g i node) v ↔
      Made n f g v := by
  have hInv := hGlobal.context i hIndex
  have hInv' := hInv.effects hFree mainScope_proper hEffects
  rw [made_update_iff]
  by_cases hLeader : Leaders.leaderAt H n f v.round = i
  · rw [if_pos hLeader]
    constructor
    · intro hLookup
      exact hInv'.data.voteChain _ v hLookup
    · intro hMade
      unfold Made at hMade
      rw [hLeader] at hMade
      exact Effects.voteChain_mono hFree mainScope_proper
        hInv hEffects hMade
  · rw [if_neg hLeader]

/- Processing messages keeps the global invariant. -/
theorem GlobalInv.effects
    {acc : UCRVote H → Prop}
    (hFree : CollisionFree H)
    (hGlobal : GlobalInv n f config g chain top)
    (hIndex : i < n)
    (hEffects :
      Effects (mainScope n f g chain top) acc (g i).cx
        node.cx) :
    GlobalInv n f config (Function.update g i node) chain
      top := by
  have hInv := hGlobal.context i hIndex
  have hInv' := hInv.effects hFree mainScope_proper hEffects
  have hMade :=
    hGlobal.made_iff_of_effects hFree hIndex hEffects
  refine
    { main := hGlobal.main
      bound := hGlobal.bound
      seen := ?_
      signed := ?_
      context := ?_
      configured := ?_
      committed := ?_
      votes := hGlobal.votes.congr hMade }
  · refine Network.at_update
      (fun node : Node H =>
        node.cx.lastSeenBlock.blk = chain top)
      ?_ hGlobal.seen
    intro hZero
    subst hZero
    refine lastSeen_eq_top hGlobal.main
      (fun _ hBlock => hBlock) hInv' ?_
    have hLower :=
      Effects.lastSeen_height_le hFree mainScope_proper
        hInv hEffects
    rw [hGlobal.seen,
      hGlobal.main.height_eq (Nat.le_refl top)] at hLower
    exact hLower
  · intro k hBound
    refine Network.at_update
      (fun node : Node H =>
        SignData.hash (chain (k + 1)).hash ∈ node.cx.signed)
      ?_ (hGlobal.signed k hBound)
    intro hZero
    subst hZero
    rw [Effects.signed_eq hEffects]
    exact hGlobal.signed k hBound
  · rw [mainScope_congr hMade]
    exact Network.forall_update
      (fun _ (node : Node H) =>
        ContextInv (mainScope n f g chain top) node.cx)
      hInv' hGlobal.context
  · exact Network.forall_update
      (fun j (node : Node H) =>
        Configured (config j) node.cx)
      ((hGlobal.configured i hIndex).effects hEffects)
      hGlobal.configured
  · refine Network.forall_update
      (fun _ (node : Node H) =>
        CommittedInv chain top node.cx)
      ?_ hGlobal.committed
    exact (hGlobal.committed i hIndex).effects hFree
      hGlobal.main (fun _ hBlock => hBlock)
      (fun _ hOther => hGlobal.votes.votesOnChain hOther)
      hInv (hGlobal.configured i hIndex) hEffects

end Artemis

end LibApollo

------------------------------------------------------------
-- Steps That Dispatch a Block
------------------------------------------------------------

namespace LibApollo

namespace Artemis

open LeaderChain

variable {H : Type} [DecidableEq H] [Crypto H]
variable {n f top top' : Nat}
variable {config : Replica → Config}
variable {g : Replica → Node H}
variable {chain chain' : Nat → LibApollo.Block H}
variable {node : Node H}

omit [Crypto H] in
theorem storeBlock_height_le
    (block : Block H)
    (cx : Context H) :
    block.blk.header.height ≤
        (storeBlock block
          cx).lastSeenBlock.blk.header.height ∧
      cx.lastSeenBlock.blk.header.height ≤
        (storeBlock block
          cx).lastSeenBlock.blk.header.height := by
  unfold storeBlock
  dsimp only
  split
  · rename_i hHigher
    exact ⟨Nat.le_refl _, hHigher.le⟩
  · rename_i hLower
    exact ⟨Nat.not_lt.mp hLower, Nat.le_refl _⟩

omit [Crypto H] in
@[simp] theorem releaseVote_lastSeenBlock
    (hash : H)
    (cx : Context H) :
    (releaseVote hash cx).lastSeenBlock =
      cx.lastSeenBlock := by
  unfold releaseVote
  split
  · rfl
  · rfl

omit [Crypto H] in
/- The rest of a delivery does not lower the last seen. -/
theorem storeBlock_le_doDelivery
    (block : Block H)
    (cx : Context H) :
    (storeBlock block
        cx).lastSeenBlock.blk.header.height ≤
      (doDelivery block
        cx).lastSeenBlock.blk.header.height := by
  apply doDelivery_rule
    (fun _ now =>
      (storeBlock block
          cx).lastSeenBlock.blk.header.height ≤
        now.lastSeenBlock.blk.header.height)
    (fun now =>
      (storeBlock block
          cx).lastSeenBlock.blk.header.height ≤
        now.lastSeenBlock.blk.header.height)
  · unfold beginDelivery
    rw [releaseVote_lastSeenBlock]
  · intro hash child now hNow _
    unfold deliverChild
    dsimp only
    rw [releaseVote_lastSeenBlock]
    split
    · exact hNow
    · exact hNow.trans (storeBlock_height_le _ _).2
  · intro last now hNow _
    exact hNow
  · intro now hNow
    exact hNow

theorem MadeInv.extend
    (hFree : CollisionFree H)
    (hMain' : LeaderChain 0 chain' top')
    (hTop : top ≤ top')
    (hSame : ∀ k, k ≤ top → chain' k = chain k)
    (hVotes : MadeInv n f g chain top) :
    MadeInv n f g chain' top' := by
  constructor
  · intro v hVote
    rcases hVotes.voted v hVote with
      ⟨k, hPos, hBound, hHash⟩
    refine ⟨k, hPos, hBound.trans hTop, ?_⟩
    rw [hSame k hBound]
    exact hHash
  · intro v w hLeft hRight hLess j k hj hk hHash hHash'
    rcases hVotes.voted v hLeft with ⟨j', _, hLow, hEq⟩
    rcases hVotes.voted w hRight with ⟨k', _, hLow', hEq'⟩
    rw [hMain'.level_eq hFree hTop hSame hLow hEq hj hHash,
      hMain'.level_eq hFree hTop hSame hLow' hEq' hk
        hHash']
    exact hVotes.increasing v w hLeft hRight hLess j' k'
      hLow hLow' hEq hEq'

theorem CommittedInv.extend
    {cx : Context H}
    (hFree : CollisionFree H)
    (hMain' : LeaderChain 0 chain' top')
    (hTop : top ≤ top')
    (hSame : ∀ k, k ≤ top → chain' k = chain k)
    (hVotes : VotesOnChain chain top cx)
    (hCommitted : CommittedInv chain top cx) :
    CommittedInv chain' top' cx := by
  intro hash
  rw [hCommitted hash]
  constructor
  · intro hParts
    rcases hParts with
      ⟨hDue, v, k, m, hLookup, hBound, hHash, hBelow, hEq⟩
    refine ⟨hDue, v, k, m, hLookup, hBound.trans hTop, ?_,
      hBelow, ?_⟩
    · rw [hSame k hBound]
      exact hHash
    · rw [hSame m (hBelow.trans hBound)]
      exact hEq
  · intro hParts
    rcases hParts with
      ⟨hDue, v, k, m, hLookup, hBound, hHash, hBelow, hEq⟩
    rcases hVotes.voted _ v hLookup with
      ⟨j, _, hLow, hOld⟩
    have hLevel :=
      hMain'.level_eq hFree hTop hSame hLow hOld hBound
        hHash
    subst hLevel
    rw [hSame m (hBelow.trans hLow)] at hEq
    exact ⟨hDue, v, k, m, hLookup, hLow, hOld, hBelow, hEq⟩

/- The chain after the view leader dispatched a block. -/
theorem exists_extension
    {batchHash : H}
    {batch : Batch}
    {cx cx' : Context H}
    (hFree : CollisionFree H)
    (hMain : LeaderChain 0 chain top)
    (hTop : top < 2 ^ 64)
    (hInv : ContextInv (mainScope n f g chain top) cx)
    (hSelf : cx.myid = 0)
    (hSeen : cx.lastSeenBlock.blk = chain top)
    (hDispatched : Dispatched batchHash batch cx cx') :
    ∃ chain' top',
      LeaderChain 0 chain' top' ∧
        top ≤ top' ∧
        top' < 2 ^ 64 ∧
        (∀ k, k ≤ top → chain' k = chain k) ∧
        (∀ k, k < top' →
          k < top ∨
            chain' (k + 1) = (newBlock cx batchHash).blk) ∧
        OnChain chain' top' (newBlock cx batchHash).blk ∧
        top' ≤ cx'.lastSeenBlock.blk.header.height := by
  have hWell : (newBlock cx batchHash).blk.WellHashed :=
    LibApollo.Block.extending_wellHashed _ _ _ _
  have hPrev :
      (newBlock cx batchHash).blk.header.prev =
        (chain top).hash :=
    congrArg LibApollo.Block.hash hSeen
  have hTopHeight :
      cx.lastSeenBlock.blk.header.height = top := by
    rw [hSeen, hMain.height_eq (Nat.le_refl top)]
  have hHeight :
      (newBlock cx batchHash).blk.header.height =
        (top + 1) % 2 ^ 64 := by
    change succU64 cx.lastSeenBlock.blk.header.height = _
    rw [hTopHeight]
    rfl
  have hStore :=
    storeBlock_height_le (newBlock cx batchHash)
      (dispatching batchHash batch cx)
  have hRest :=
    storeBlock_le_doDelivery (newBlock cx batchHash)
      (dispatching batchHash batch cx)
  have hLower :
      top ≤ cx'.lastSeenBlock.blk.header.height := by
    rcases hDispatched with ⟨hEq, _⟩ | ⟨_, hEq⟩
    · rw [hEq]
      exact hTopHeight.ge
    · rw [hEq]
      exact hTopHeight.ge.trans (hStore.2.trans hRest)
  by_cases hWraps : top + 1 = 2 ^ 64
  · refine ⟨chain, top, hMain, Nat.le_refl top, hTop,
      fun _ _ => rfl, fun _ hBound => Or.inl hBound,
      ⟨Or.inr hWell, ?_⟩, hLower⟩
    rw [hHeight, hWraps, Nat.mod_self]
    intro hPos
    omega
  · rw [Nat.mod_eq_of_lt (by omega)] at hHeight
    refine ⟨Function.update chain (top + 1)
        (newBlock cx batchHash).blk, top + 1,
      hMain.extend hWell hPrev hHeight hSelf,
      Nat.le_succ top, by omega, ?_, ?_, ?_, ?_⟩
    · intro k hBound
      exact Function.update_of_ne (by omega) _ _
    · intro k hBound
      rcases Nat.lt_or_eq_of_le (Nat.le_of_lt_succ hBound)
        with hBelow | rfl
      · exact Or.inl hBelow
      · exact Or.inr (Function.update_self _ _ _)
    · refine ⟨Or.inr hWell, ?_⟩
      intro _
      rw [hHeight, Function.update_self]
      exact ⟨Nat.le_refl _, rfl⟩
    · rcases hDispatched with ⟨_, hKnown | hMissing⟩ |
        ⟨_, hEq⟩
      · -- A block above the top cannot be known already.
        rcases (Storage.isDeliveredByHash_iff _ _).mp hKnown
          with ⟨block, hLookup⟩
        have hBlock := hInv.data.delivered _ _ hLookup
        have hEq :=
          hBlock.1.eq_of_hash_eq hFree (Or.inr hWell)
            (Storage.getHash_of_delivered hLookup)
        have hBound := (hBlock.2 (by rw [hEq]; omega)).1
        rw [hEq] at hBound
        omega
      · have hStored := hInv.chain.seen
        exact absurd (hMissing.symm.trans hStored)
          Bool.false_ne_true
      · rw [hEq, ← hHeight]
        exact hStore.1.trans hRest

/- A dispatch signs and touches no votes and commits. -/
theorem Dispatched.votes_eq
    {batchHash : H}
    {batch : Batch}
    {cx cx' : Context H}
    (hDispatched : Dispatched batchHash batch cx cx') :
    cx'.voteChain = cx.voteChain ∧
      cx'.round = cx.round ∧
      cx'.numFaults = cx.numFaults ∧
      cx'.signed =
        cx.signed ++
          [.hash (newBlock cx batchHash).blk.hash] ∧
      cx'.storage.committedBlocksByHash =
        cx.storage.committedBlocksByHash := by
  rcases hDispatched with ⟨rfl, _⟩ | ⟨_, rfl⟩
  · exact ⟨rfl, rfl, rfl, rfl, rfl⟩
  · rcases doDelivery_deliveryOnly
        (newBlock cx batchHash)
        (dispatching batchHash batch cx) with
      ⟨_, _, _, _, _, _, _, hEq, hCommitted⟩
    rw [hEq]
    exact ⟨rfl, rfl, rfl, rfl, hCommitted⟩

/- Dispatching a block extends the chain. -/
theorem GlobalInv.dispatches
    {batchHash : H}
    {batch : Batch}
    {rest : List (H × Batch)}
    (hFree : CollisionFree H)
    (hGlobal : GlobalInv n f config g chain top)
    (hIndex : 0 < n)
    (hSelf : (g 0).cx.myid = 0)
    (hDispatched :
      Dispatched batchHash batch
        { (g 0).cx with pendingBatches := rest }
        node.cx) :
    ∃ chain' top',
      GlobalInv n f config (Function.update g 0 node) chain'
        top' := by
  have hInv := hGlobal.context 0 hIndex
  have hRest := hInv.pending rest
  have hSeen :
      ({ (g 0).cx with
        pendingBatches := rest } :
          Context H).lastSeenBlock.blk = chain top :=
    hGlobal.seen
  rcases exists_extension hFree hGlobal.main hGlobal.bound
      hRest hSelf hSeen hDispatched with
    ⟨chain', top', hMain', hTop, hBound', hSame, hNew,
      hBlock, hLower⟩
  rcases hDispatched.votes_eq with
    ⟨hChain, hRound, hFaults, hSigned, hSet⟩
  dsimp only at hChain hRound hFaults hSigned hSet
  have hMade :
      ∀ v,
        Made n f (Function.update g 0 node) v ↔
          Made n f g v := by
    intro v
    rw [made_update_iff, hChain]
    by_cases hLeader : Leaders.leaderAt H n f v.round = 0
    · rw [if_pos hLeader, Made, hLeader]
    · rw [if_neg hLeader]
  have hWide :
      ∀ j, j < n →
        ContextInv (mainScope n f g chain' top')
          (g j).cx := by
    intro j hBound
    refine (hGlobal.context j hBound).mono ?_ ?_
    · exact fun _ hVote => hVote
    · exact fun _ hOn => OnChain.mono hTop hSame hOn
  have hInv' :
      ContextInv (mainScope n f g chain' top') node.cx :=
    (hWide 0 hIndex).dispatched hFree mainScope_proper
      hBlock hDispatched
  have hExtend :
      ∀ j, j < n → CommittedInv chain' top' (g j).cx := by
    intro j hBound
    exact (hGlobal.committed j hBound).extend hFree hMain'
      hTop hSame
      (hGlobal.votes.votesOnChain
        (hGlobal.context j hBound))
  have hVotes' :=
    hGlobal.votes.extend hFree hMain' hTop hSame
  refine ⟨chain', top',
    { main := hMain'
      bound := hBound'
      seen := ?_
      signed := ?_
      context := ?_
      configured := ?_
      committed := ?_
      votes := hVotes'.congr hMade }⟩
  · rw [Function.update_self]
    exact lastSeen_eq_top hMain' (fun _ hOn => hOn) hInv'
      hLower
  · intro k hBound
    rw [Function.update_self, hSigned]
    rcases hNew k hBound with hBelow | hEq
    · rw [hSame (k + 1) hBelow]
      exact List.mem_append_left _ (hGlobal.signed k hBelow)
    · rw [hEq]
      exact List.mem_append_right _ List.mem_cons_self
  · rw [mainScope_congr hMade]
    exact Network.forall_update
      (fun _ (node : Node H) =>
        ContextInv (mainScope n f g chain' top') node.cx)
      hInv' hWide
  · exact Network.forall_update
      (fun j (node : Node H) =>
        Configured (config j) node.cx)
      ((hGlobal.configured 0 hIndex).dispatched hDispatched)
      hGlobal.configured
  · refine Network.forall_update
      (fun _ (node : Node H) =>
        CommittedInv chain' top' node.cx)
      ?_ hExtend
    intro hash
    rw [hSet, hChain, hRound, hFaults]
    exact hExtend 0 hIndex hash

end Artemis

end LibApollo

------------------------------------------------------------
-- Steps That Vote
------------------------------------------------------------

namespace LibApollo

namespace Artemis

open LeaderChain

variable {H : Type} [DecidableEq H] [Crypto H]
variable {n f top : Nat}
variable {config : Replica → Config}
variable {g : Replica → Node H}
variable {chain : Nat → LibApollo.Block H}
variable {i : Replica}
variable {node : Node H}

/- The last voted block is the one of the last vote. -/
theorem GlobalInv.lastVoted_height
    {u : UCRVote H}
    {k : Nat}
    (hFree : CollisionFree H)
    (hGlobal : GlobalInv n f config g chain top)
    (hIndex : i < n)
    (hLookup :
      (g i).cx.voteChain.lookup ((g i).cx.round - 1) =
        some u)
    (hBound : k ≤ top)
    (hHash : u.hash = (chain k).hash) :
    (g i).cx.lastVotedBlock.blk.header.height = k := by
  have hInv := hGlobal.context i hIndex
  have hTip := hInv.chain.tip u hLookup
  have hEq :=
    hGlobal.main.eq_of_hash_eq hFree hBound
      hInv.data.lastVoted.1 (hTip.symm.trans hHash)
  rw [hEq, hGlobal.main.height_eq hBound]

/- A new vote is above all votes of earlier rounds. -/
theorem GlobalInv.newVote_above
    {v : UCRVote H}
    {j : Nat}
    (hFree : CollisionFree H)
    (hGlobal : GlobalInv n f config g chain top)
    (hIndex : i < n)
    (hVotes : Votes (g i))
    (hMade : Made n f g v)
    (hPos : 1 ≤ v.round)
    (hEarlier : v.round < (g i).cx.round)
    (hBound : j ≤ top)
    (hHash : v.hash = (chain j).hash) :
    j < (g i).cx.lastSeenBlock.blk.header.height := by
  have hInv := hGlobal.context i hIndex
  have hOwn := hGlobal.votes.votesOnChain hInv
  have hLookup :=
    hMade.lookup_of_lt hInv hPos hEarlier
  rcases (hInv.chain.keys ((g i).cx.round - 1)).mpr
      ⟨by omega, by omega⟩ with ⟨u, hLast⟩
  rcases hOwn.voted _ u hLast with ⟨k, _, hLow, hEq⟩
  have hVoted :=
    hGlobal.lastVoted_height hFree hIndex hLast hLow hEq
  have hHigher := hVotes.2.2
  rw [hVoted] at hHigher
  rcases Nat.lt_or_eq_of_le (Nat.le_sub_one_of_lt hEarlier)
    with hLess | hSame
  · have hClimb :=
      hOwn.increasing _ _ v u hLess hLookup hLast j k
        hBound hLow hHash hEq
    omega
  · rw [hSame, hLast, Option.some.injEq] at hLookup
    rw [hLookup] at hEq
    have hLevel :=
      hGlobal.main.hash_injective hFree hBound hLow
        (hHash.symm.trans hEq)
    omega

/- No vote of a later round has been made. -/
theorem GlobalInv.not_made_later
    {w : UCRVote H}
    (hConfig : SystemConfig n f config)
    (hGlobal : GlobalInv n f config g chain top)
    (hIndex : i < n)
    (hLeader :
      Leaders.leaderAt H n f (g i).cx.round = i)
    (hMade : Made n f g w) :
    w.round < (g i).cx.round := by
  by_contra hLater
  have hInv := hGlobal.context i hIndex
  have hPeer :=
    hGlobal.context _
      (Leaders.leaderAt_lt (H := H) hConfig.1 hConfig.2.1
        w.round)
  have hPassed :=
    ((hPeer.chain.keys w.round).mp ⟨w, hMade⟩).2
  have hPos := hInv.chain.round_pos
  rcases (hPeer.chain.keys (g i).cx.round).mpr
      ⟨hPos, by omega⟩ with ⟨u, hLookup⟩
  have hRound := (hPeer.chain.entry _ u hLookup).1
  have hVote := hPeer.data.voteChain _ u hLookup
  change Made n f g u at hVote
  unfold Made at hVote
  rw [hRound, hLeader] at hVote
  have hKey :=
    ((hInv.chain.keys (g i).cx.round).mp ⟨u, hVote⟩).2
  exact Nat.lt_irrefl _ hKey

/- After a vote one more vote has been made. -/
theorem GlobalInv.made_iff_of_votes
    {v : UCRVote H}
    (hGlobal : GlobalInv n f config g chain top)
    (hIndex : i < n)
    (hLeader :
      Leaders.leaderAt H n f (g i).cx.round = i)
    (hAccepted :
      Accepted (newVote (g i).cx) (voting (g i).cx)
        node.cx) :
    Made n f (Function.update g i node) v ↔
      v = newVote (g i).cx ∨ Made n f g v := by
  have hInv := hGlobal.context i hIndex
  have hChain := hAccepted.fields.2.2.1
  rw [made_update_iff, hChain, FinMap.lookup_insert_eq]
  by_cases hSelf : Leaders.leaderAt H n f v.round = i
  · rw [if_pos hSelf]
    by_cases hRound : v.round = (g i).cx.round
    · have hNew : v.round = (newVote (g i).cx).round :=
        hRound
      rw [if_pos hNew, Option.some.injEq]
      constructor
      · intro hEq
        exact Or.inl hEq.symm
      · intro hCases
        rcases hCases with hEq | hMade
        · exact hEq.symm
        · unfold Made at hMade
          rw [hSelf] at hMade
          have hKey :=
            ((hInv.chain.keys _).mp ⟨v, hMade⟩).2
          omega
    · have hOld : v.round ≠ (newVote (g i).cx).round :=
        hRound
      rw [if_neg hOld]
      constructor
      · intro hLookup
        right
        unfold Made
        rw [hSelf]
        exact hLookup
      · intro hCases
        rcases hCases with rfl | hMade
        · exact absurd rfl hRound
        · unfold Made at hMade
          rw [hSelf] at hMade
          exact hMade
  · rw [if_neg hSelf]
    constructor
    · exact Or.inr
    · intro hCases
      rcases hCases with rfl | hMade
      · exact absurd hLeader hSelf
      · exact hMade

/- The new vote is for the next block of the chain. -/
theorem GlobalInv.newVote_onChain
    (hGlobal : GlobalInv n f config g chain top)
    (hIndex : i < n)
    (hVotes : Votes (g i)) :
    0 < (g i).cx.lastSeenBlock.blk.header.height ∧
      (g i).cx.lastSeenBlock.blk.header.height ≤ top ∧
      (newVote (g i).cx).hash =
        (chain
          (g i).cx.lastSeenBlock.blk.header.height).hash := by
  have hPos := Nat.zero_lt_of_lt hVotes.2.2
  rcases (hGlobal.context i hIndex).data.lastSeen.2 hPos
    with ⟨hBound, hEq⟩
  exact ⟨hPos, hBound, congrArg LibApollo.Block.hash hEq⟩

theorem GlobalInv.madeInv_of_votes
    (hFree : CollisionFree H)
    (hConfig : SystemConfig n f config)
    (hGlobal : GlobalInv n f config g chain top)
    (hIndex : i < n)
    (hLeader :
      Leaders.leaderAt H n f (g i).cx.round = i)
    (hVotes : Votes (g i))
    (hAccepted :
      Accepted (newVote (g i).cx) (voting (g i).cx)
        node.cx) :
    MadeInv n f (Function.update g i node) chain top := by
  rcases hGlobal.newVote_onChain hIndex hVotes with
    ⟨hPos, hBound, hHash⟩
  have hMade :
      ∀ v, Made n f (Function.update g i node) v →
        v = newVote (g i).cx ∨ Made n f g v :=
    fun v hVote =>
      (hGlobal.made_iff_of_votes hIndex hLeader
        hAccepted).mp hVote
  constructor
  · intro v hVote
    rcases hMade v hVote with rfl | hOld
    · exact ⟨_, hPos, hBound, hHash⟩
    · exact hGlobal.votes.voted v hOld
  · intro v w hLeft hRight hLess j k hj hk hEq hEq'
    rcases hMade v hLeft with rfl | hOld
    · rcases hMade w hRight with rfl | hOld'
      · exact absurd hLess (Nat.lt_irrefl _)
      · have hEarlier :=
          hGlobal.not_made_later hConfig hIndex hLeader
            hOld'
        exact absurd hLess (Nat.lt_asymm hEarlier)
    · rcases hMade w hRight with rfl | hOld'
      · have hFirst : 1 ≤ v.round :=
          (((hGlobal.context _
            (Leaders.leaderAt_lt (H := H) hConfig.1
              hConfig.2.1 v.round)).chain.keys _).mp
                ⟨v, hOld⟩).1
        have hLevel :=
          hGlobal.main.hash_injective hFree hk hBound
            (hEq'.symm.trans hHash)
        rw [hLevel]
        exact hGlobal.newVote_above hFree hIndex hVotes
          hOld hFirst hLess hj hEq
      · exact hGlobal.votes.increasing v w hOld hOld' hLess
          j k hj hk hEq hEq'

/- A vote keeps the global invariant. -/
theorem GlobalInv.votes_step
    (hFree : CollisionFree H)
    (hConfig : SystemConfig n f config)
    (hGlobal : GlobalInv n f config g chain top)
    (hIndex : i < n)
    (hLeader :
      Leaders.leaderAt H n f (g i).cx.round = i)
    (hVotes : Votes (g i))
    (hAccepted :
      Accepted (newVote (g i).cx) (voting (g i).cx)
        node.cx) :
    GlobalInv n f config (Function.update g i node) chain
      top := by
  have hMade :=
    fun v => hGlobal.made_iff_of_votes (v := v) hIndex
      hLeader hAccepted
  have hVotes' :=
    hGlobal.madeInv_of_votes hFree hConfig hIndex hLeader
      hVotes hAccepted
  have hWide :
      ∀ j, j < n →
        ContextInv
          (mainScope n f (Function.update g i node) chain
            top) (g j).cx := by
    intro j hBound
    refine (hGlobal.context j hBound).mono ?_ ?_
    · exact fun v hVote => (hMade v).mpr (Or.inr hVote)
    · exact fun _ hOn => hOn
  have hInv := hWide i hIndex
  have hOwn :
      Made n f (Function.update g i node)
        (newVote (g i).cx) := (hMade _).mpr (Or.inl rfl)
  have hCurrent := hInv.newVote_current
  have hVoting := hInv.voting hOwn
  have hInv' := hVoting.accepted hOwn hCurrent hAccepted
  have hStart : CommittedInv chain top (voting (g i).cx) :=
    hGlobal.committed i hIndex
  have hStartConfig :
      Configured (config i) (voting (g i).cx) :=
    { hGlobal.configured i hIndex with }
  have hSeen :
      node.cx.lastSeenBlock = (g i).cx.lastSeenBlock := by
    rcases hAccepted with
      ⟨_, _, _, _, _, _, _, _, _, _, hEq⟩
    rw [hEq]
    rfl
  refine
    { main := hGlobal.main
      bound := hGlobal.bound
      seen := ?_
      signed := ?_
      context := ?_
      configured := ?_
      committed := ?_
      votes := hVotes' }
  · refine Network.at_update
      (fun node : Node H =>
        node.cx.lastSeenBlock.blk = chain top)
      ?_ hGlobal.seen
    intro hZero
    subst hZero
    rw [hSeen]
    exact hGlobal.seen
  · intro k hBound
    have hOld := hGlobal.signed k hBound
    refine Network.at_update
      (fun node : Node H =>
        SignData.hash (chain (k + 1)).hash ∈ node.cx.signed)
      ?_ hOld
    intro hZero
    subst hZero
    rw [hAccepted.fields.2.2.2.1]
    exact List.mem_append_left _ hOld
  · exact Network.forall_update
      (fun _ (other : Node H) =>
        ContextInv
          (mainScope n f (Function.update g i node) chain
            top) other.cx)
      hInv' hWide
  · exact Network.forall_update
      (fun j (node : Node H) =>
        Configured (config j) node.cx)
      (hStartConfig.accepted hAccepted) hGlobal.configured
  · refine Network.forall_update
      (fun _ (node : Node H) =>
        CommittedInv chain top node.cx)
      ?_ hGlobal.committed
    exact hStart.accepted hFree hGlobal.main
      (fun _ hOn => hOn) hVoting hInv'
      (hVotes'.votesOnChain hInv') hCurrent hAccepted

end Artemis

end LibApollo

------------------------------------------------------------
-- Agreement
------------------------------------------------------------

namespace LibApollo

namespace Artemis

open Ancestry LeaderChain

variable {H : Type} [DecidableEq H] [Crypto H]
variable {n f top : Nat}
variable {config : Replica → Config}
variable {g : Replica → Node H}
variable {chain : Nat → LibApollo.Block H}

/- Packets a node has sent and messages an event delivers. -/
def interface :
    Network.Interface (Node H) (Event H) (ProtocolMsg H) where
  outbox node := node.cx.outbox
  received
  | .recv msg => some msg
  | _ => none

theorem globalInv_new
    (n f : Nat)
    (config : Replica → Config) :
    GlobalInv n f config
      (fun i => (Node.new (config i) : Node H))
      (fun _ => LibApollo.Block.genesis) 0 where
  main := LeaderChain.new 0
  bound := by decide
  seen := rfl
  signed := fun _ hBound => absurd hBound (by omega)
  context := by
    intro i _
    apply contextInv_new (config i)
    change OnChain (fun _ => LibApollo.Block.genesis) 0
      (LibApollo.Block.genesis : LibApollo.Block H)
    exact OnChain.genesis
  configured := fun _ _ => ⟨rfl, rfl, rfl, rfl, rfl, rfl⟩
  committed := by
    intro i hBound hash
    constructor
    · intro hMem
      simp [Node.new, Context.new,
        Context.announceHeightToBatcher,
        Context.tellBatcher] at hMem
    · intro hParts
      rcases hParts with ⟨hDue, _⟩
      change (config i).numFaults + 1 < 1 at hDue
      omega
  votes := by
    constructor
    · intro v hMade
      simp [Made, Node.new, Context.new,
        Context.announceHeightToBatcher,
        Context.tellBatcher] at hMade
    · intro v w hMade
      simp [Made, Node.new, Context.new,
        Context.announceHeightToBatcher,
        Context.tellBatcher] at hMade

/- Every step of a replica keeps the global invariant. -/
theorem GlobalInv.step
    {i : Replica}
    {event : Event H}
    {node : Node H}
    (hFree : CollisionFree H)
    (hConfig : SystemConfig n f config)
    (hGlobal : GlobalInv n f config g chain top)
    (hIndex : i < n)
    (hSent :
      ∀ msg, interface.received event = some msg →
        ∃ sender, sender < n ∧
          (i, msg) ∈ interface.outbox (g sender))
    (hStep : Artemis.step (g i) event = .ok node) :
    ∃ chain' top',
      GlobalInv n f config (Function.update g i node) chain'
        top' := by
  have hInv := hGlobal.context i hIndex
  have hOwn := hGlobal.configured i hIndex
  rcases hConfig.2.2 i hIndex with ⟨hId, hNodes, hFaults⟩
  have hMsg :
      ∀ msg, event = .recv msg →
        (mainScope n f g chain top).OkMsg msg := by
    intro msg hEq
    subst hEq
    rcases hSent msg rfl with ⟨sender, hSender, hMem⟩
    exact (hGlobal.context sender hSender).data.outbox _
      hMem
  rcases step_ok hInv.data hInv.settled hMsg hStep with
    hEffects | ⟨_, _, _, hDispatches, hDispatched⟩ |
      ⟨hVotes, _, hAccepted⟩
  · exact ⟨chain, top,
      hGlobal.effects hFree hIndex hEffects⟩
  · have hZero : i = 0 := by
      have hSelf := hDispatches.2.1
      rw [hOwn.viewLeader, hOwn.myid, hId] at hSelf
      exact hSelf.symm
    subst hZero
    exact hGlobal.dispatches hFree hIndex
      (hOwn.myid.trans hId) hDispatched
  · have hLeader :
        Leaders.leaderAt H n f (g i).cx.round = i := by
      have hRound := hInv.chain.roundLeader_eq
      rw [hOwn.numNodes, hOwn.numFaults, hNodes, hFaults]
        at hRound
      rw [← hRound, ← hVotes.2.1, hOwn.myid, hId]
    exact ⟨chain, top,
      hGlobal.votes_step hFree hConfig hIndex hLeader hVotes
        hAccepted⟩

/- The block of an accepted vote. -/
theorem GlobalInv.votedBlock
    {i : Replica}
    {r : Nat}
    {v : UCRVote H}
    (hFree : CollisionFree H)
    (hGlobal : GlobalInv n f config g chain top)
    (hIndex : i < n)
    (hLookup : (g i).cx.voteChain.lookup r = some v) :
    ∃ block k,
      (g i).cx.storage.deliveredBlockFromHash v.hash =
          some block ∧
        block.blk = chain k ∧
        v.hash = (chain k).hash ∧
        0 < k ∧ k ≤ top := by
  have hInv := hGlobal.context i hIndex
  rcases hGlobal.votes.voted v
      (hInv.data.voteChain r v hLookup) with
    ⟨k, hPos, hBound, hHash⟩
  have hDelivered := (hInv.chain.entry r v hLookup).2
  rw [hHash] at hDelivered
  rcases stored_chain_block hFree hGlobal.main
      (fun _ hOn => hOn) hInv hBound hDelivered with
    ⟨block, hStored, hBlock⟩
  refine ⟨block, k, ?_, hBlock, hHash, hPos, hBound⟩
  rw [hHash]
  exact hStored

/- The chain is in the store of the view leader. -/
theorem GlobalInv.ancestor_of_le
    {j k : Nat}
    (hFree : CollisionFree H)
    (hGlobal : GlobalInv n f config g chain top)
    (hPos : 0 < n)
    (hBelow : j ≤ k)
    (hBound : k ≤ top) :
    Ancestor (g 0).cx.storage.parent (chain j).hash
      (chain k).hash := by
  have hInv := hGlobal.context 0 hPos
  have hTop := hInv.chain.seen
  change (g 0).cx.storage.isDeliveredByHash
    (g 0).cx.lastSeenBlock.blk.hash = true at hTop
  rw [hGlobal.seen] at hTop
  have hStored :=
    chain_delivered_below hFree hGlobal.main
      (fun _ hOn => hOn) hInv (Nat.le_refl top) hTop k
      hBound
  exact (chain_ancestor_iff hFree hGlobal.main
    (fun _ hOn => hOn) hInv hBound hStored).mpr
      ⟨j, hBelow, rfl⟩

/- The replica that is behind has committed less. -/
theorem GlobalInv.committed_subset
    {i j : Replica}
    (hFree : CollisionFree H)
    (hConfig : SystemConfig n f config)
    (hGlobal : GlobalInv n f config g chain top)
    (hLeft : i < n)
    (hRight : j < n)
    (hBehind : (g i).cx.round ≤ (g j).cx.round) :
    (g i).cx.storage.committedBlocksByHash ⊆
      (g j).cx.storage.committedBlocksByHash := by
  have hInv := hGlobal.context i hLeft
  have hInv' := hGlobal.context j hRight
  have hFaults :
      ∀ l, l < n → (g l).cx.numFaults = f :=
    fun l hBound =>
      (hGlobal.configured l hBound).numFaults.trans
        (hConfig.2.2 l hBound).2.2
  intro hash hMem
  rcases (hGlobal.committed i hLeft hash).mp hMem with
    ⟨hDue, v, k, m, hLookup, hBound, hHash, hBelow, hEq⟩
  rw [hFaults i hLeft] at hDue hLookup
  refine (hGlobal.committed j hRight hash).mpr ?_
  rw [hFaults j hRight]
  rcases (hInv'.chain.keys ((g j).cx.round - 1 - f)).mpr
      ⟨by omega, by omega⟩ with ⟨w, hLookup'⟩
  rcases hGlobal.votes.voted w
      (hInv'.data.voteChain _ w hLookup') with
    ⟨k', _, hBound', hHash'⟩
  have hClimb : k ≤ k' := by
    have hRound := (hInv.chain.entry _ v hLookup).1
    have hRound' := (hInv'.chain.entry _ w hLookup').1
    have hVote := hInv.data.voteChain _ v hLookup
    have hVote' := hInv'.data.voteChain _ w hLookup'
    by_cases hSame : v.round = w.round
    · rw [hVote.eq_of_round_eq hVote' hSame, hHash']
        at hHash
      exact (hGlobal.main.hash_injective hFree hBound
        hBound' hHash.symm).le
    · exact (hGlobal.votes.increasing v w hVote hVote'
        (by omega) k k' hBound hBound' hHash hHash').le
  exact ⟨by omega, w, k', m, hLookup', hBound', hHash',
    hBelow.trans hClimb, hEq⟩

/- Two replicas share the votes of the rounds they passed. -/
theorem GlobalInv.vote_shared
    {i j : Replica}
    {r : Nat}
    (hGlobal : GlobalInv n f config g chain top)
    (hLeft : i < n)
    (hRight : j < n)
    (hFirst : 1 ≤ r)
    (hPassed : r < (g i).cx.round)
    (hPassed' : r < (g j).cx.round) :
    ∃ v,
      (g i).cx.voteChain.lookup r = some v ∧
        (g j).cx.voteChain.lookup r = some v := by
  have hInv := hGlobal.context i hLeft
  rcases (hInv.chain.keys r).mpr ⟨hFirst, hPassed⟩ with
    ⟨v, hLookup⟩
  have hRound := (hInv.chain.entry r v hLookup).1
  have hVote := hInv.data.voteChain r v hLookup
  subst hRound
  exact ⟨v, hLookup,
    hVote.lookup_of_lt (hGlobal.context j hRight) hFirst
      hPassed'⟩

/- A voted block is one that the view leader signed. -/
theorem GlobalInv.vote_signed
    {i : Replica}
    {r : Nat}
    {v : UCRVote H}
    (hFree : CollisionFree H)
    (hGlobal : GlobalInv n f config g chain top)
    (hIndex : i < n)
    (hLookup : (g i).cx.voteChain.lookup r = some v) :
    ∃ block,
      (g i).cx.storage.deliveredBlockFromHash v.hash =
          some block ∧
        block.blk.header.author = 0 ∧
        SignData.hash v.hash ∈ (g 0).cx.signed := by
  rcases hGlobal.votedBlock hFree hIndex hLookup with
    ⟨block, k, hStored, hBlock, hHash, hHigh, hBound⟩
  refine ⟨block, hStored, ?_, ?_⟩
  · rw [hBlock]
    exact hGlobal.main.author_eq hHigh hBound
  · have hSigned := hGlobal.signed (k - 1) (by omega)
    rw [Nat.sub_add_cancel hHigh] at hSigned
    rw [hHash]
    exact hSigned

/- The vote of a later round is for a higher descendant. -/
theorem GlobalInv.vote_ancestor
    {i j : Replica}
    {r s : Nat}
    {v w : UCRVote H}
    (hFree : CollisionFree H)
    (hGlobal : GlobalInv n f config g chain top)
    (hLeft : i < n)
    (hRight : j < n)
    (hLess : r < s)
    (hLookup : (g i).cx.voteChain.lookup r = some v)
    (hLookup' : (g j).cx.voteChain.lookup s = some w) :
    ∃ lower upper,
      (g i).cx.storage.deliveredBlockFromHash v.hash =
          some lower ∧
        (g j).cx.storage.deliveredBlockFromHash w.hash =
          some upper ∧
        lower.blk.header.height <
          upper.blk.header.height ∧
        Ancestor (g 0).cx.storage.parent v.hash
          w.hash := by
  rcases hGlobal.votedBlock hFree hLeft hLookup with
    ⟨lower, k, hStored, hBlock, hHash, _, hBound⟩
  rcases hGlobal.votedBlock hFree hRight hLookup' with
    ⟨upper, k', hStored', hBlock', hHash', _, hBound'⟩
  have hInv := hGlobal.context i hLeft
  have hInv' := hGlobal.context j hRight
  have hRound := (hInv.chain.entry r v hLookup).1
  have hRound' := (hInv'.chain.entry s w hLookup').1
  have hClimb : k < k' :=
    hGlobal.votes.increasing v w
      (hInv.data.voteChain r v hLookup)
      (hInv'.data.voteChain s w hLookup') (by omega) k k'
      hBound hBound' hHash hHash'
  refine ⟨lower, upper, hStored, hStored', ?_, ?_⟩
  · rw [hBlock, hBlock', hGlobal.main.height_eq hBound,
      hGlobal.main.height_eq hBound']
    exact hClimb
  · rw [hHash, hHash']
    exact hGlobal.ancestor_of_le hFree
      (Nat.zero_lt_of_lt hLeft) hClimb.le hBound'

/-
  In every state of `n` replicas that follow the code:
  replicas hold the same vote for every round both have
  passed; the voted blocks are signed by the view leader,
  and of two rounds the later one has a higher block that
  descends from the earlier one in the view leader's store;
  committed sets are nested.
-/
theorem vote_agreement
    (hFree : CollisionFree H)
    (hConfig : SystemConfig n f config)
    (hReach :
      Machine.Reach (Network.step step)
        (Network.Delivers interface n)
        (fun i => Node.new (config i)) g) :
    (∀ i j, i < n → j < n →
        ∀ r, 1 ≤ r → r < (g i).cx.round →
          r < (g j).cx.round →
            ∃ v,
              (g i).cx.voteChain.lookup r = some v ∧
                (g j).cx.voteChain.lookup r = some v) ∧
      (∀ i, i < n →
        ∀ r v, (g i).cx.voteChain.lookup r = some v →
          ∃ block,
            (g i).cx.storage.deliveredBlockFromHash v.hash =
                some block ∧
              block.blk.header.author = 0 ∧
              SignData.hash v.hash ∈ (g 0).cx.signed) ∧
      (∀ i j, i < n → j < n →
        ∀ r s v w, r < s →
          (g i).cx.voteChain.lookup r = some v →
          (g j).cx.voteChain.lookup s = some w →
            ∃ lower upper,
              (g i).cx.storage.deliveredBlockFromHash
                  v.hash = some lower ∧
                (g j).cx.storage.deliveredBlockFromHash
                  w.hash = some upper ∧
                lower.blk.header.height <
                  upper.blk.header.height ∧
                Ancestor (g 0).cx.storage.parent v.hash
                  w.hash) ∧
      ∀ i j, i < n → j < n →
        (g i).cx.storage.committedBlocksByHash ⊆
            (g j).cx.storage.committedBlocksByHash ∨
          (g j).cx.storage.committedBlocksByHash ⊆
            (g i).cx.storage.committedBlocksByHash := by
  have hExists :
      ∃ chain top, GlobalInv n f config g chain top := by
    apply Network.reach_invariant
      (fun g =>
        ∃ chain top, GlobalInv n f config g chain top)
      hReach
    · exact ⟨_, _, globalInv_new n f config⟩
    · intro g i event node hParts hIndex hSent hStep
      rcases hParts with ⟨chain, top, hGlobal⟩
      exact hGlobal.step hFree hConfig hIndex hSent hStep
  rcases hExists with ⟨chain, top, hGlobal⟩
  refine ⟨?_, ?_, ?_, ?_⟩
  · intro i j hLeft hRight r hFirst hPassed hPassed'
    exact hGlobal.vote_shared hLeft hRight hFirst hPassed
      hPassed'
  · intro i hIndex r v hLookup
    exact hGlobal.vote_signed hFree hIndex hLookup
  · intro i j hLeft hRight r s v w hLess hLookup hLookup'
    exact hGlobal.vote_ancestor hFree hLeft hRight hLess
      hLookup hLookup'
  · intro i j hLeft hRight
    rcases Nat.le_total (g i).cx.round (g j).cx.round with
      hBehind | hBehind
    · exact Or.inl (hGlobal.committed_subset hFree hConfig
        hLeft hRight hBehind)
    · exact Or.inr (hGlobal.committed_subset hFree hConfig
        hRight hLeft hBehind)

/- The mempool hands a node a batch. -/
def handBatch : Event Digest :=
  .batch oneBatch.hash oneBatch

/-
  Replica 0 dispatches a block, votes for it in round 1 and
  dispatches another; replica 1 receives all three and votes
  in round 2.
-/
def twoVotes : List (Replica × Event Digest) :=
  [(0, handBatch)] ++ List.replicate 3 (0, .internal) ++
    [(0, handBatch)] ++ List.replicate 3 (0, .internal) ++
    [(1, .recv (.newBlock firstBlock oneBatch)),
      (1, .recv (.newBlock secondBlock oneBatch)),
      (1, .recv (.ucrVote (voteFor 0 1 firstBlock)))] ++
    List.replicate 11 (1, .internal)

theorem vote_agreement_two_votes :
    ∃ g : Replica → Node Digest,
      Machine.Reach (Network.step step)
          (Network.Delivers interface 3)
          (fun i => Node.new (smallConfig i)) g ∧
        (g 0).cx.round = 2 ∧
        (g 1).cx.round = 3 ∧
        firstBlock.blk.hash ∈
          (g 1).cx.storage.committedBlocksByHash ∧
        ∃ v,
          (g 0).cx.voteChain.lookup 1 = some v ∧
            (g 1).cx.voteChain.lookup 1 = some v := by
  have hRun :
      Machine.runCheck (Network.step step)
        (Network.deliversCheck interface 3)
        (fun g =>
          decide ((g 0).cx.round = 2 ∧
            (g 1).cx.round = 3 ∧
            firstBlock.blk.hash ∈
              (g 1).cx.storage.committedBlocksByHash))
        (fun i => Node.new (smallConfig i)) twoVotes =
          true := by
    decide +kernel
  rcases Machine.Reach.of_runCheck
      (fun _ _ hCheck =>
        Network.delivers_of_deliversCheck hCheck)
      hRun with ⟨g, hReach, hFinal⟩
  rcases of_decide_eq_true hFinal with
    ⟨hZero, hOne, hCommitted⟩
  have hConfig : SystemConfig 3 1 smallConfig :=
    ⟨by decide, by decide, fun _ _ => ⟨rfl, rfl, rfl⟩⟩
  rcases vote_agreement Digest.collisionFree hConfig hReach
    with ⟨hSame, _, _, _⟩
  exact ⟨g, hReach, hZero, hOne, hCommitted,
    hSame 0 1 (by decide) (by decide) 1 (by decide)
      (by omega) (by omega)⟩

end Artemis

end LibApollo
