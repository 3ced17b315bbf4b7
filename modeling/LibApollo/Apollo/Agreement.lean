import LibApollo.Apollo.CommitSafety
import LibApollo.Base.Network

/-
  Agreement of Apollo replicas that all follow the code.

  The proposal of a round is made once, by its leader, and
  the leader's own chain remembers it.  Every proposal that
  occurs anywhere in the system has been made in this sense,
  so all nodes accept the same block in a round, each block
  extends the one of the round before, and the commits of a
  node are a prefix of this one chain.

  Key definitions include:
    * `acceptedHash`, `LinearInv`
    * `Made`, `madeScope`
    * `GlobalInv`

  Key theorems include:
    * `LinearInv.accepted`
    * `GlobalInv.step`
    * `agreement`
-/

------------------------------------------------------------
-- The Accepted Chain of a Node
------------------------------------------------------------

namespace LibApollo

namespace Apollo

open Ancestry

variable {H : Type} [DecidableEq H] [Crypto H]

/- The block hash accepted in a round; round 0 is genesis. -/
def acceptedHash (cx : Context H) (r : Nat) : H :=
  if r = 0 then Crypto.emptyHash
  else
    match cx.propChainByRound.lookup r with
    | some p => p.blockHash
    | none => Crypto.emptyHash

/-
  The accepted blocks are linked round by round, and exactly
  those of `numFaults` rounds ago and before are committed.
-/
structure LinearInv (cx : Context H) : Prop where
  linked :
    ∀ r, r + 1 < cx.round →
      cx.storage.parent (acceptedHash cx (r + 1)) =
        some (acceptedHash cx r)
  committed :
    ∀ hash,
      hash ∈ cx.storage.committedBlocksByHash ↔
        cx.numFaults + 1 < cx.round ∧
          ∃ r, r + cx.numFaults + 1 ≤ cx.round ∧
            hash = acceptedHash cx r

theorem acceptedHash_zero
    (cx : Context H) :
    acceptedHash cx 0 = Crypto.emptyHash :=
  if_pos rfl

theorem acceptedHash_of_lookup
    {cx : Context H}
    {r : Nat}
    {p : Propose H}
    (hChain : ChainInv cx)
    (hLookup : cx.propChainByRound.lookup r = some p) :
    acceptedHash cx r = p.blockHash := by
  have hPos := ((hChain.keys r).mp ⟨p, hLookup⟩).1
  unfold acceptedHash
  rw [if_neg (by omega), hLookup]

/- The last seen block is the one accepted last. -/
theorem acceptedHash_last
    {cx : Context H}
    (hChain : ChainInv cx) :
    acceptedHash cx (cx.round - 1) =
      cx.lastSeenBlock.hash := by
  have hPos := hChain.round_pos
  by_cases hFirst : cx.round = 1
  · rw [hChain.first hFirst, hFirst]
    exact acceptedHash_zero cx
  · rcases (hChain.keys (cx.round - 1)).mpr
        ⟨by omega, by omega⟩ with ⟨p, hLookup⟩
    rw [acceptedHash_of_lookup hChain hLookup]
    exact hChain.tip p hLookup

theorem LinearInv.root
    {cx : Context H}
    (hChain : ChainInv cx) :
    cx.storage.parent (acceptedHash cx 0) =
      some (acceptedHash cx 0) := by
  rw [acceptedHash_zero]
  exact Storage.parent_of_delivered hChain.genesis

/- The committed blocks of a linear chain are closed. -/
theorem LinearInv.committedClosed
    {cx : Context H}
    (hLinear : LinearInv cx)
    (hChain : ChainInv cx) :
    cx.storage.CommittedClosed := by
  intro hash hMem
  rcases (hLinear.committed hash).mp hMem with
    ⟨hDue, r, hBound, rfl⟩
  cases r with
  | zero =>
      exact ⟨_, LinearInv.root hChain, hMem⟩
  | succ r =>
      refine ⟨_, hLinear.linked r (by omega), ?_⟩
      exact (hLinear.committed _).mpr
        ⟨hDue, r, by omega, rfl⟩

end Apollo

end LibApollo

------------------------------------------------------------
-- Accepting the Next Block of the Chain
------------------------------------------------------------

namespace LibApollo

namespace Apollo

open Ancestry

variable {H : Type} [DecidableEq H] [Crypto H]

/- The chain after an acceptance. -/
theorem Accepted.acceptedHash_eq
    {cx cx' : Context H}
    {p : Propose H}
    {block : Block H}
    (hChain : ChainInv cx)
    (hRound : p.round = cx.round)
    (hAccepted : Accepted p block cx cx') :
    acceptedHash cx' cx.round = p.blockHash ∧
      ∀ r, r < cx.round →
        acceptedHash cx' r = acceptedHash cx r := by
  have hPos := hChain.round_pos
  rcases hAccepted with ⟨_, _, _, _, _, _, rfl⟩
  constructor
  · unfold acceptedHash
    rw [if_neg (by omega)]
    dsimp only
    rw [FinMap.lookup_insert_eq, if_pos hRound.symm]
  · intro r hPassed
    have hOther : r ≠ p.round := by omega
    unfold acceptedHash
    dsimp only
    rw [FinMap.lookup_insert_eq, if_neg hOther]

/- Links of the chain after the acceptance of a next block. -/
theorem LinearInv.linked_accepted
    {cx cx' : Context H}
    {p : Propose H}
    {block : Block H}
    (hLinear : LinearInv cx)
    (hChain : ChainInv cx)
    (hRound : p.round = cx.round)
    (hHash : block.hash = p.blockHash)
    (hStored :
      cx.storage.deliveredBlockFromHash block.hash =
        some block)
    (hPrev : block.header.prev = cx.lastSeenBlock.hash)
    (hAccepted : Accepted p block cx cx')
    (r : Nat)
    (hPassed : r + 1 ≤ cx.round) :
    cx.storage.parent (acceptedHash cx' (r + 1)) =
      some (acceptedHash cx' r) := by
  rcases hAccepted.acceptedHash_eq hChain hRound with
    ⟨hNew, hOld⟩
  rw [hOld r (by omega)]
  rcases Nat.lt_or_eq_of_le hPassed with hLt | hEq
  · rw [hOld (r + 1) hLt]
    exact hLinear.linked r hLt
  · rw [hEq, hNew, ← hHash]
    rw [Storage.parent_of_delivered hStored]
    have hLast := acceptedHash_last hChain
    rw [show cx.round - 1 = r by omega] at hLast
    rw [hLast, ← hPrev]
    rfl

/- What is committed after the acceptance of a next block. -/
theorem LinearInv.committed_accepted
    {cx cx' : Context H}
    {p : Propose H}
    {block : Block H}
    (hLinear : LinearInv cx)
    (hChain : ChainInv cx)
    (hChain' : ChainInv cx')
    (hRound : p.round = cx.round)
    (hHash : block.hash = p.blockHash)
    (hStored :
      cx.storage.deliveredBlockFromHash block.hash =
        some block)
    (hPrev : block.header.prev = cx.lastSeenBlock.hash)
    (hAccepted : Accepted p block cx cx')
    (hash : H) :
    hash ∈ cx'.storage.committedBlocksByHash ↔
      cx'.numFaults + 1 < cx'.round ∧
        ∃ r, r + cx'.numFaults + 1 ≤ cx'.round ∧
          hash = acceptedHash cx' r := by
  have hLinked :=
    hLinear.linked_accepted hChain hRound hHash hStored
      hPrev hAccepted
  rcases hAccepted.acceptedHash_eq hChain hRound with
    ⟨hNew, hOld⟩
  have hPos := hChain.round_pos
  have hRoot :
      cx.storage.parent (acceptedHash cx' 0) =
        some (acceptedHash cx' 0) := by
    rw [hOld 0 (by omega)]
    exact LinearInv.root hChain
  rcases hAccepted with
    ⟨storage, _, _, _, _, hOutcome, hEq⟩
  have hRound' : cx'.round = cx.round + 1 := by rw [hEq]
  have hFaults : cx'.numFaults = cx.numFaults := by rw [hEq]
  have hStorage : cx'.storage = storage := by rw [hEq]
  have hLookup' :
      cx'.propChainByRound =
        cx.propChainByRound.insert p.round p := by
    rw [hEq]
  rw [hRound', hFaults, hStorage]
  rcases hOutcome with
    ⟨hEarly, rfl⟩ | ⟨hDue, q, hLookup, hSpec⟩
  · rw [hLinear.committed hash]
    constructor
    · intro hParts
      rcases hParts with ⟨hLate, _⟩
      omega
    · intro hParts
      rcases hParts with ⟨hLate, _⟩
      omega
  · have hStart :
        q.blockHash =
          acceptedHash cx' (cx.round - cx.numFaults) := by
      rw [← hLookup'] at hLookup
      exact (acceptedHash_of_lookup hChain' hLookup).symm
    have hAncestors :
        ∀ other,
          Ancestor cx.storage.parent other q.blockHash ↔
            ∃ r, r ≤ cx.round - cx.numFaults ∧
              other = acceptedHash cx' r := by
      intro other
      rw [hStart]
      exact Ancestor.chain_iff (acceptedHash cx') hRoot
        (fun r hBelow => hLinked r (by omega))
    constructor
    · intro hMem
      refine ⟨by omega, ?_⟩
      rcases hSpec.mem hash hMem with hBefore | hWalked
      · rcases (hLinear.committed hash).mp hBefore with
          ⟨_, r, hBound, rfl⟩
        exact ⟨r, by omega, (hOld r (by omega)).symm⟩
      · rcases (hAncestors hash).mp hWalked with
          ⟨r, hBound, rfl⟩
        exact ⟨r, by omega, rfl⟩
    · intro hParts
      rcases hParts with ⟨_, r, hBound, rfl⟩
      have hClosed :=
        hSpec.committedClosed
          (hLinear.committedClosed hChain)
      apply hClosed.ancestor _ hSpec.start_mem
      rw [hSpec.parent_eq]
      exact (hAncestors _).mpr ⟨r, by omega, rfl⟩

/- Accepting a child of the last seen block keeps linear. -/
theorem LinearInv.accepted
    {cx cx' : Context H}
    {p : Propose H}
    {block : Block H}
    (hLinear : LinearInv cx)
    (hChain : ChainInv cx)
    (hRound : p.round = cx.round)
    (hHash : block.hash = p.blockHash)
    (hStored :
      cx.storage.deliveredBlockFromHash block.hash =
        some block)
    (hPrev : block.header.prev = cx.lastSeenBlock.hash)
    (hAccepted : Accepted p block cx cx') :
    LinearInv cx' := by
  have hChain' :=
    hChain.accepted hRound hHash hStored hAccepted
  constructor
  · intro r hPassed
    have hLink :=
      hLinear.linked_accepted hChain hRound hHash hStored
        hPrev hAccepted r
    rcases hAccepted with
      ⟨storage, _, _, _, _, hOutcome, hEq⟩
    have hRound' : cx'.round = cx.round + 1 := by rw [hEq]
    have hParent :
        cx'.storage.parent = cx.storage.parent := by
      funext other
      rw [Storage.parent, Storage.parent, hEq]
      exact congrArg _ (hOutcome.delivered_eq other)
    rw [hParent]
    exact hLink (by omega)
  · exact hLinear.committed_accepted hChain hChain' hRound
      hHash hStored hPrev hAccepted

end Apollo

end LibApollo

------------------------------------------------------------
-- Proposals Made in the System
------------------------------------------------------------

namespace LibApollo

namespace Apollo

variable {H : Type} [DecidableEq H] [Crypto H]

/- The leader of a round among `n` replicas. -/
def leaderOf (n r : Nat) : Replica :=
  (r - 1) % n

/- The leader of its round has the proposal in its chain. -/
def Made
    (n : Nat)
    (g : Replica → Node H)
    (p : Propose H) : Prop :=
  (g (leaderOf n p.round)).cx.propChainByRound.lookup
    p.round = some p

def madeScope
    (n : Nat)
    (g : Replica → Node H) : Scope H where
  okProp := Made n g
  okBlock := Block.Proper

omit [Crypto H] in
/- A round has one proposal. -/
theorem Made.eq_of_round_eq
    {n : Nat}
    {g : Replica → Node H}
    {p q : Propose H}
    (hLeft : Made n g p)
    (hRight : Made n g q)
    (hRound : p.round = q.round) :
    p = q := by
  unfold Made at hLeft hRight
  rw [hRound, hRight] at hLeft
  exact (Option.some.inj hLeft).symm

/-
  What a made proposal names: a block of the height of its
  round on the block of the round before.
-/
def NextBlock
    (n : Nat)
    (g : Replica → Node H)
    (p : Propose H)
    (block : Block H) : Prop :=
  block.WellHashed ∧
    block.hash = p.blockHash ∧
    block.header.height = p.round % 2 ^ 64 ∧
    ((p.round = 1 ∧
        block.header.prev = Crypto.emptyHash) ∨
      ∃ q, Made n g q ∧ q.round + 1 = p.round ∧
        block.header.prev = q.blockHash)

/- A block stays the next one when more is made. -/
theorem NextBlock.mono
    {n : Nat}
    {g g' : Replica → Node H}
    {p : Propose H}
    {block : Block H}
    (hMono : ∀ p, Made n g p → Made n g' p)
    (hNext : NextBlock n g p block) :
    NextBlock n g' p block := by
  rcases hNext with ⟨hWell, hHash, hHeight, hPrev⟩
  refine ⟨hWell, hHash, hHeight, ?_⟩
  rcases hPrev with hFirst | ⟨q, hMade, hBefore, hPrev⟩
  · exact Or.inl hFirst
  · exact Or.inr ⟨q, hMono q hMade, hBefore, hPrev⟩

structure PeerInv
    (n f : Nat)
    (g : Replica → Node H)
    (i : Replica)
    (cx : Context H) : Prop where
  data : Data (madeScope n g) cx
  chain : ChainInv cx
  linear : LinearInv cx
  myid : cx.myid = i
  numNodes : cx.numNodes = n
  numFaults : cx.numFaults = f

structure GlobalInv
    (n f : Nat)
    (g : Replica → Node H) : Prop where
  peer : ∀ i, i < n → PeerInv n f g i (g i).cx
  made :
    ∀ p, Made n g p → ∃ block, NextBlock n g p block

theorem madeScope_proper
    (n : Nat)
    (g : Replica → Node H) :
    (madeScope n g).Proper :=
  fun _ hBlock => hBlock

/- A peer knows the leader of its round. -/
theorem PeerInv.roundLeader_eq
    {n f : Nat}
    {g : Replica → Node H}
    {i : Replica}
    {cx : Context H}
    (hPeer : PeerInv n f g i cx)
    (hNodes : 0 < n) :
    cx.roundLeader = leaderOf n cx.round := by
  have hLeader := hPeer.chain.leader
  rw [hPeer.numNodes] at hLeader
  exact hLeader hNodes

/- Data stays in scope when more proposals are made. -/
theorem Data.made_mono
    {n : Nat}
    {g g' : Replica → Node H}
    {cx : Context H}
    (hMade : ∀ p, Made n g p → Made n g' p)
    (hData : Data (madeScope n g) cx) :
    Data (madeScope n g') cx :=
  hData.mono hMade (fun _ hBlock => hBlock)

omit [Crypto H] in
/- Made proposals at a node are those of its own chain. -/
theorem made_update_iff
    {n : Nat}
    {g : Replica → Node H}
    {i : Replica}
    {node : Node H}
    {p : Propose H} :
    Made n (Function.update g i node) p ↔
      if leaderOf n p.round = i then
        node.cx.propChainByRound.lookup p.round = some p
      else
        Made n g p := by
  unfold Made
  by_cases hLeader : leaderOf n p.round = i
  · rw [if_pos hLeader, hLeader, Function.update_self]
  · rw [if_neg hLeader, Function.update_of_ne hLeader]

/-
  The block of a made proposal is a child of the block that
  a node with only made proposals has seen last.
-/
theorem GlobalInv.prev_eq_lastSeen
    {n f : Nat}
    {g : Replica → Node H}
    {cx : Context H}
    {p : Propose H}
    {block : Block H}
    (hFree : CollisionFree H)
    (hGlobal : GlobalInv n f g)
    (hData : Data (madeScope n g) cx)
    (hChain : ChainInv cx)
    (hMade : Made n g p)
    (hRound : p.round = cx.round)
    (hHash : block.hash = p.blockHash)
    (hStored :
      cx.storage.deliveredBlockFromHash block.hash =
        some block) :
    block.header.prev = cx.lastSeenBlock.hash := by
  rcases hGlobal.made p hMade with
    ⟨made, hWell, hSame, _, hPrev⟩
  have hBlock : block = made :=
    Block.Proper.eq_of_hash_eq hFree
      (hData.delivered _ _ hStored) (Or.inr hWell)
      (hHash.trans hSame.symm)
  subst hBlock
  have hPos := hChain.round_pos
  rcases hPrev with ⟨hFirst, hRoot⟩ | ⟨q, hq, hBefore, hPrev⟩
  · rw [hRoot, hChain.first (by omega)]
    rfl
  · have hPassed : 1 ≤ cx.round - 1 := by
      by_contra hZero
      have hNone : q.round = 0 := by omega
      rcases hGlobal.made q hq with ⟨_, _, _, _, hCase⟩
      rcases hCase with ⟨hOne, _⟩ | ⟨_, _, hSucc, _⟩
      · omega
      · omega
    rcases (hChain.keys (cx.round - 1)).mpr
        ⟨hPassed, by omega⟩ with ⟨q', hLookup⟩
    have hRound' := (hChain.entry _ _ hLookup).1
    have hSameProp : q = q' :=
      hq.eq_of_round_eq (hData.byRound _ _ hLookup)
        (by omega)
    rw [hPrev, hSameProp]
    exact hChain.tip q' hLookup

end Apollo

end LibApollo

------------------------------------------------------------
-- Steps of One Replica
------------------------------------------------------------

namespace LibApollo

namespace Apollo

variable {H : Type} [DecidableEq H] [Crypto H]

/- The chain part of a context decides linearity. -/
theorem LinearInv.sameChain
    {cx cx' : Context H}
    (hMono :
      ∀ u v, cx.storage.parent u = some v →
        cx'.storage.parent u = some v)
    (hSame : SameChain cx cx')
    (hFaults : cx'.numFaults = cx.numFaults)
    (hLinear : LinearInv cx) :
    LinearInv cx' := by
  have hAccepted : acceptedHash cx' = acceptedHash cx := by
    funext r
    unfold acceptedHash
    rw [hSame.byRound]
  constructor
  · intro r hPassed
    rw [hSame.round] at hPassed
    rw [hAccepted]
    exact hMono _ _ (hLinear.linked r hPassed)
  · intro hash
    rw [hSame.committed, hSame.round, hFaults, hAccepted]
    exact hLinear.committed hash

theorem LinearInv.effects
    {n f : Nat}
    {g : Replica → Node H}
    {acc : Propose H → Block H → Prop}
    {cx cx' : Context H}
    (hFree : CollisionFree H)
    (hGlobal : GlobalInv n f g)
    (hData : Data (madeScope n g) cx)
    (hChain : ChainInv cx)
    (hLinear : LinearInv cx)
    (hEffects : Effects (madeScope n g) acc cx cx') :
    LinearInv cx' := by
  induction hEffects with
  | refl => exact hLinear
  | @tail mid cx' hBefore hEffect ih =>
      have hData' := hData.effects hBefore
      have hChain' :=
        hChain.effects hFree (madeScope_proper n g) hData
          hBefore
      have hSingle := Relation.ReflTransGen.single hEffect
      rcases hEffect.sameChain_or_accepts with
        hSame | ⟨p, block, hMade, _, hAcceptable, hStored,
          hAccepted⟩
      · exact ih.sameChain
          (Effects.parent_mono hFree (madeScope_proper n g)
            hData' hSingle)
          hSame (Effects.params hSingle).2.2
      · exact ih.accepted hChain' hAcceptable.1
          hAcceptable.2.1 hStored
          (hGlobal.prev_eq_lastSeen hFree hData' hChain'
            hMade hAcceptable.1 hAcceptable.2.1 hStored)
          hAccepted

/- A replica processes messages or handles a timer. -/
theorem GlobalInv.effects
    {n f : Nat}
    {g : Replica → Node H}
    {acc : Propose H → Block H → Prop}
    {i : Replica}
    {node : Node H}
    (hFree : CollisionFree H)
    (hGlobal : GlobalInv n f g)
    (hIndex : i < n)
    (hEffects :
      Effects (madeScope n g) acc (g i).cx node.cx) :
    GlobalInv n f (Function.update g i node) := by
  have hPeer := hGlobal.peer i hIndex
  have hData := hPeer.data.effects hEffects
  -- no proposal is made or forgotten
  have hMade :
      ∀ p, Made n (Function.update g i node) p ↔
        Made n g p := by
    intro p
    rw [made_update_iff]
    by_cases hLeader : leaderOf n p.round = i
    · rw [if_pos hLeader]
      constructor
      · intro hLookup
        exact hData.byRound _ _ hLookup
      · intro hLookup
        unfold Made at hLookup
        rw [hLeader] at hLookup
        exact Effects.byRound_mono hFree
          (madeScope_proper n g) hPeer.data hPeer.chain
          hEffects hLookup
    · rw [if_neg hLeader]
  constructor
  · intro j hBound
    by_cases hSelf : j = i
    · subst hSelf
      rw [Function.update_self]
      rcases Effects.params hEffects with
        ⟨hMyid, hNodes, hFaults⟩
      exact
        { data := hData.made_mono (fun p => (hMade p).mpr)
          chain :=
            hPeer.chain.effects hFree
              (madeScope_proper n g) hPeer.data hEffects
          linear :=
            hPeer.linear.effects hFree hGlobal hPeer.data
              hPeer.chain hEffects
          myid := hMyid.trans hPeer.myid
          numNodes := hNodes.trans hPeer.numNodes
          numFaults := hFaults.trans hPeer.numFaults }
    · rw [Function.update_of_ne hSelf]
      have hOther := hGlobal.peer j hBound
      exact { hOther with
        data :=
          hOther.data.made_mono (fun p => (hMade p).mpr) }
  · intro p hp
    rcases hGlobal.made p ((hMade p).mp hp) with
      ⟨block, hWell, hHash, hHeight, hPrev⟩
    refine ⟨block, hWell, hHash, hHeight, ?_⟩
    rcases hPrev with hFirst | ⟨q, hq, hBefore, hPrev⟩
    · exact Or.inl hFirst
    · exact Or.inr ⟨q, (hMade q).mpr hq, hBefore, hPrev⟩

/- The wrapping height counts the rounds. -/
theorem succU64_mod (r : Nat) :
    succU64 (r % 2 ^ 64) = (r + 1) % 2 ^ 64 := by
  unfold succU64
  omega

/- The block a leader makes is the next one. -/
theorem PeerInv.newBlock_next
    {n f : Nat}
    {g : Replica → Node H}
    {i : Replica}
    {cx : Context H}
    {batchHash : H}
    (hFree : CollisionFree H)
    (hGlobal : GlobalInv n f g)
    (hPeer : PeerInv n f g i cx) :
    NextBlock n g (newPropose cx batchHash)
      (newBlock cx batchHash) := by
  have hPos := hPeer.chain.round_pos
  refine ⟨Block.extending_wellHashed _ _ _ _, rfl, ?_⟩
  change
    succU64 cx.lastSeenBlock.header.height =
        cx.round % 2 ^ 64 ∧
      ((cx.round = 1 ∧
          cx.lastSeenBlock.hash = Crypto.emptyHash) ∨
        ∃ q, Made n g q ∧ q.round + 1 = cx.round ∧
          cx.lastSeenBlock.hash = q.blockHash)
  by_cases hFirst : cx.round = 1
  · rw [hPeer.chain.first hFirst, hFirst]
    exact ⟨rfl, Or.inl ⟨rfl, rfl⟩⟩
  · rcases (hPeer.chain.keys (cx.round - 1)).mpr
        ⟨by omega, by omega⟩ with ⟨q, hLookup⟩
    have hRound := (hPeer.chain.entry _ _ hLookup).1
    have hSucc : q.round + 1 = cx.round := by omega
    have hMade := hPeer.data.byRound _ _ hLookup
    have hTip := hPeer.chain.tip q hLookup
    rcases hGlobal.made q hMade with
      ⟨last, hWell, hHash, hHeight, _⟩
    have hLast : cx.lastSeenBlock = last :=
      Block.Proper.eq_of_hash_eq hFree hPeer.data.lastSeen
        (Or.inr hWell) (hTip.symm.trans hHash.symm)
    refine ⟨?_, Or.inr ⟨q, hMade, hSucc, hTip.symm⟩⟩
    rw [hLast, hHeight, succU64_mod, hSucc]

/- The leader itself after its proposal. -/
theorem PeerInv.proposing
    {n f : Nat}
    {g g' : Replica → Node H}
    {i : Replica}
    {cx cx' : Context H}
    {batchHash : H}
    {batch : Batch}
    (hFree : CollisionFree H)
    (hPeer : PeerInv n f g i cx)
    (hNew : Made n g' (newPropose cx batchHash))
    (hMono : ∀ p, Made n g p → Made n g' p)
    (hAccepted :
      Accepted (newPropose cx batchHash)
        (newBlock cx batchHash)
        (proposing batchHash batch cx) cx') :
    PeerInv n f g' i cx' := by
  have hBlock :
      (newBlock cx batchHash).Proper :=
    newBlock_ok cx batchHash
  have hData : Data (madeScope n g') cx :=
    hPeer.data.made_mono hMono
  have hChain :
      ChainInv (Apollo.proposing batchHash batch cx) :=
    hPeer.chain.proposing hFree (madeScope_proper n g')
      hData hBlock
  have hStored :=
    proposing_delivered batchHash batch cx
  have hLinear :
      LinearInv (Apollo.proposing batchHash batch cx) := by
    have hMoreParents :
        ∀ u v, cx.storage.parent u = some v →
          (Apollo.proposing batchHash batch
            cx).storage.parent u = some v :=
      fun u v hParent =>
        hData.parent_mono hFree (madeScope_proper n g')
          hBlock hParent
    exact hPeer.linear.sameChain hMoreParents
      ⟨rfl, rfl, rfl, rfl⟩ rfl
  have hParams :
      cx'.myid = cx.myid ∧ cx'.numNodes = cx.numNodes ∧
        cx'.numFaults = cx.numFaults := by
    rcases hAccepted with ⟨_, _, _, _, _, _, hEq⟩
    rw [hEq]
    exact ⟨rfl, rfl, rfl⟩
  exact
    { data :=
        (hData.proposing hNew hBlock).accepted hNew hBlock
          hAccepted
      chain := hChain.accepted rfl rfl hStored hAccepted
      linear :=
        hLinear.accepted hChain rfl rfl hStored rfl
          hAccepted
      myid := hParams.1.trans hPeer.myid
      numNodes := hParams.2.1.trans hPeer.numNodes
      numFaults := hParams.2.2.trans hPeer.numFaults }

/- A proposal of the round leader is made, and no other. -/
theorem PeerInv.made_update_iff
    {n f : Nat}
    {g : Replica → Node H}
    {i : Replica}
    {node : Node H}
    {cx : Context H}
    {p q : Propose H}
    (hPeer : PeerInv n f g i cx)
    (hSame :
      cx.propChainByRound = (g i).cx.propChainByRound)
    (hTurn : leaderOf n cx.round = i)
    (hRound : q.round = cx.round)
    (hLookup :
      node.cx.propChainByRound =
        cx.propChainByRound.insert cx.round q) :
    Made n (Function.update g i node) p ↔
      p = q ∨ Made n g p := by
  rw [Apollo.made_update_iff, hLookup,
    FinMap.lookup_insert_eq]
  by_cases hNow : p.round = cx.round
  · rw [hNow, if_pos hTurn, if_pos rfl, Option.some.injEq]
    constructor
    · intro hEq
      exact Or.inl hEq.symm
    · intro hCases
      rcases hCases with hEq | hOld
      · exact hEq.symm
      · unfold Made at hOld
        rw [hNow, hTurn, ← hSame] at hOld
        have hPassed :=
          (hPeer.chain.keys cx.round).mp ⟨p, hOld⟩
        omega
  · have hNe : p ≠ q := by
      intro hEq
      rw [hEq] at hNow
      exact hNow hRound
    rw [if_neg hNow]
    simp only [hNe, false_or]
    by_cases hOwn : leaderOf n p.round = i
    · rw [if_pos hOwn, hSame]
      unfold Made
      rw [hOwn]
    · rw [if_neg hOwn]

/- A replica proposes. -/
theorem GlobalInv.proposes
    {n f : Nat}
    {g : Replica → Node H}
    {i : Replica}
    {node : Node H}
    {cx : Context H}
    {batchHash : H}
    {batch : Batch}
    (hFree : CollisionFree H)
    (hGlobal : GlobalInv n f g)
    (hIndex : i < n)
    (hPeer : PeerInv n f g i cx)
    (hSame :
      cx.propChainByRound = (g i).cx.propChainByRound)
    (hLeader : cx.roundLeader = cx.myid)
    (hAccepted :
      Accepted (newPropose cx batchHash)
        (newBlock cx batchHash)
        (proposing batchHash batch cx) node.cx) :
    GlobalInv n f (Function.update g i node) := by
  have hTurn : leaderOf n cx.round = i := by
    rw [← hPeer.roundLeader_eq (Nat.zero_lt_of_lt hIndex),
      hLeader, hPeer.myid]
  have hLookup :
      node.cx.propChainByRound =
        cx.propChainByRound.insert cx.round
          (newPropose cx batchHash) := by
    rcases hAccepted with ⟨_, _, _, _, _, _, hEq⟩
    rw [hEq]
    rfl
  have hMade :
      ∀ p, Made n (Function.update g i node) p ↔
        p = newPropose cx batchHash ∨ Made n g p :=
    fun _ => hPeer.made_update_iff hSame hTurn rfl hLookup
  have hMono :
      ∀ p, Made n g p →
        Made n (Function.update g i node) p :=
    fun p hp => (hMade p).mpr (Or.inr hp)
  have hNext :
      NextBlock n g (newPropose cx batchHash)
        (newBlock cx batchHash) :=
    hPeer.newBlock_next hFree hGlobal
  constructor
  · intro j hBound
    by_cases hSelf : j = i
    · subst hSelf
      rw [Function.update_self]
      exact hPeer.proposing hFree
        ((hMade _).mpr (Or.inl rfl)) hMono hAccepted
    · rw [Function.update_of_ne hSelf]
      have hOther := hGlobal.peer j hBound
      exact { hOther with
        data := hOther.data.made_mono hMono }
  · intro p hp
    rcases (hMade p).mp hp with rfl | hOld
    · exact ⟨_, hNext.mono hMono⟩
    · rcases hGlobal.made p hOld with ⟨block, hBlock⟩
      exact ⟨block, hBlock.mono hMono⟩

end Apollo

end LibApollo

------------------------------------------------------------
-- Agreement
------------------------------------------------------------

namespace LibApollo

namespace Apollo

variable {H : Type} [DecidableEq H] [Crypto H]

/- Packets a node has sent and messages an event delivers. -/
def interface :
    Network.Interface (Node H) (Event H) (ProtocolMsg H) where
  outbox node := node.cx.outbox
  received
  | .recv msg => some msg
  | _ => none

/- The configurations of one system of `n` replicas. -/
def SystemConfig
    (n f : Nat)
    (config : Replica → Config) : Prop :=
  ∀ i, i < n →
    (config i).id = i ∧ (config i).numNodes = n ∧
      (config i).numFaults = f

theorem linearInv_new
    (config : Config) :
    LinearInv (Node.new config : Node H).cx := by
  constructor
  · intro r hPassed
    change r + 1 < 1 at hPassed
    omega
  · intro hash
    constructor
    · intro hMem
      simp [Node.new, Context.new, Context.tellBatcher]
        at hMem
    · intro hParts
      rcases hParts with ⟨hDue, _⟩
      change _ < 1 at hDue
      omega

theorem not_made_new
    (n : Nat)
    (config : Replica → Config)
    (p : Propose H) :
    ¬ Made n (fun i => Node.new (config i)) p := by
  intro hMade
  simp [Made, Node.new, Context.new, Context.tellBatcher]
    at hMade

theorem globalInv_new
    {n f : Nat}
    {config : Replica → Config}
    (hConfig : SystemConfig n f config) :
    GlobalInv n f
      (fun i => (Node.new (config i) : Node H)) := by
  constructor
  · intro i hBound
    rcases hConfig i hBound with ⟨hId, hNodes, hFaults⟩
    exact
      { data := data_new (config i) (Or.inl rfl)
        chain := chainInv_new (config i)
        linear := linearInv_new (config i)
        myid := hId
        numNodes := hNodes
        numFaults := hFaults }
  · intro p hMade
    exact absurd hMade (not_made_new n config p)

/- Every step of a replica keeps the global invariant. -/
theorem GlobalInv.step
    {n f : Nat}
    {g : Replica → Node H}
    {i : Replica}
    {event : Event H}
    {node : Node H}
    (hFree : CollisionFree H)
    (hGlobal : GlobalInv n f g)
    (hIndex : i < n)
    (hSent :
      ∀ msg, interface.received event = some msg →
        ∃ sender, sender < n ∧
          (i, msg) ∈ interface.outbox (g sender))
    (hStep : Apollo.step (g i) event = .ok node) :
    GlobalInv n f (Function.update g i node) := by
  have hPeer := hGlobal.peer i hIndex
  have hMsg :
      ∀ msg, event = .recv msg →
        (madeScope n g).OkMsg msg := by
    intro msg hEq
    subst hEq
    rcases hSent msg rfl with ⟨sender, hSender, hMem⟩
    exact (hGlobal.peer sender hSender).data.outbox _ hMem
  rcases step_ok hPeer.data hMsg hStep with
    hEffects | ⟨batchHash, batch, rest, -, hProposes,
      hAccepted⟩
  · exact hGlobal.effects hFree hIndex hEffects
  · have hRest :
        PeerInv n f g i
          { (g i).cx with pendingBatches := rest } :=
      { data := { hPeer.data with }
        chain := { hPeer.chain with }
        linear :=
          ⟨hPeer.linear.linked, hPeer.linear.committed⟩
        myid := hPeer.myid
        numNodes := hPeer.numNodes
        numFaults := hPeer.numFaults }
    exact hGlobal.proposes hFree hIndex hRest rfl
      hProposes.2.2.1 hAccepted

/- Chains of two replicas agree as far as both go. -/
theorem GlobalInv.acceptedHash_eq
    {n f : Nat}
    {g : Replica → Node H}
    {i j : Replica}
    {r : Nat}
    (hGlobal : GlobalInv n f g)
    (hLeft : i < n)
    (hRight : j < n)
    (hPassed : r < (g i).cx.round)
    (hPassed' : r < (g j).cx.round) :
    acceptedHash (g i).cx r = acceptedHash (g j).cx r := by
  have hPeer := hGlobal.peer i hLeft
  have hPeer' := hGlobal.peer j hRight
  by_cases hZero : r = 0
  · subst hZero
    rw [acceptedHash_zero, acceptedHash_zero]
  · rcases (hPeer.chain.keys r).mpr
        ⟨by omega, hPassed⟩ with ⟨p, hLookup⟩
    rcases (hPeer'.chain.keys r).mpr
        ⟨by omega, hPassed'⟩ with ⟨q, hLookup'⟩
    have hSame : p = q :=
      Made.eq_of_round_eq
        (hPeer.data.byRound _ _ hLookup)
        (hPeer'.data.byRound _ _ hLookup')
        ((hPeer.chain.entry _ _ hLookup).1.trans
          (hPeer'.chain.entry _ _ hLookup').1.symm)
    rw [acceptedHash_of_lookup hPeer.chain hLookup,
      acceptedHash_of_lookup hPeer'.chain hLookup', hSame]

/- The replica that is behind has committed less. -/
theorem GlobalInv.committed_subset
    {n f : Nat}
    {g : Replica → Node H}
    {i j : Replica}
    (hGlobal : GlobalInv n f g)
    (hLeft : i < n)
    (hRight : j < n)
    (hBehind : (g i).cx.round ≤ (g j).cx.round) :
    (g i).cx.storage.committedBlocksByHash ⊆
      (g j).cx.storage.committedBlocksByHash := by
  have hPeer := hGlobal.peer i hLeft
  have hPeer' := hGlobal.peer j hRight
  intro hash hMem
  rcases (hPeer.linear.committed hash).mp hMem with
    ⟨hDue, r, hBound, rfl⟩
  rw [hPeer.numFaults] at hDue hBound
  refine (hPeer'.linear.committed _).mpr ?_
  rw [hPeer'.numFaults]
  exact ⟨by omega, r, by omega,
    hGlobal.acceptedHash_eq hLeft hRight (by omega)
      (by omega)⟩

/- The block a replica accepted in a round. -/
theorem PeerInv.acceptedBlock
    {n f : Nat}
    {g : Replica → Node H}
    {i : Replica}
    {cx : Context H}
    {r : Nat}
    {p : Propose H}
    (hFree : CollisionFree H)
    (hGlobal : GlobalInv n f g)
    (hPeer : PeerInv n f g i cx)
    (hLookup : cx.propChainByRound.lookup r = some p) :
    ∃ block,
      cx.storage.deliveredBlockFromHash p.blockHash =
          some block ∧
        block.header.height = r % 2 ^ 64 ∧
        ((r = 1 ∧
            block.header.prev =
              (Block.genesis : Block H).hash) ∨
          ∃ q,
            cx.propChainByRound.lookup (r - 1) = some q ∧
              block.header.prev = q.blockHash) := by
  rcases hPeer.chain.entry r p hLookup with
    ⟨hRound, block, hStored⟩
  have hPassed := (hPeer.chain.keys r).mp ⟨p, hLookup⟩
  rcases hGlobal.made p (hPeer.data.byRound r p hLookup)
    with ⟨made, hWell, hHash, hHeight, _⟩
  have hBlock : block = made :=
    Block.Proper.eq_of_hash_eq hFree
      (hPeer.data.delivered _ _ hStored) (Or.inr hWell)
      ((Storage.getHash_of_delivered hStored).trans
        hHash.symm)
  refine ⟨block, hStored, ?_, ?_⟩
  · rw [hBlock, hHeight, hRound]
  · have hLink := hPeer.linear.linked (r - 1) (by omega)
    rw [show r - 1 + 1 = r by omega,
      acceptedHash_of_lookup hPeer.chain hLookup,
      Storage.parent_of_delivered hStored,
      Option.some.injEq] at hLink
    by_cases hFirst : r = 1
    · subst hFirst
      exact Or.inl ⟨rfl, hLink⟩
    · rcases (hPeer.chain.keys (r - 1)).mpr
          ⟨by omega, by omega⟩ with ⟨q, hBefore⟩
      rw [acceptedHash_of_lookup hPeer.chain hBefore]
        at hLink
      exact Or.inr ⟨q, hBefore, hLink⟩

/- A replica has committed a prefix of its chain. -/
theorem PeerInv.committed_initial
    {n f : Nat}
    {g : Replica → Node H}
    {i : Replica}
    {cx : Context H}
    (hPeer : PeerInv n f g i cx) :
    cx.storage.committedBlocksByHash = ∅ ∨
      ∃ last, last < cx.round ∧
        ∀ hash,
          hash ∈ cx.storage.committedBlocksByHash ↔
            ∃ r, r ≤ last ∧ hash = acceptedHash cx r := by
  have hCommitted := hPeer.linear.committed
  by_cases hDue : cx.numFaults + 1 < cx.round
  · refine Or.inr
      ⟨cx.round - cx.numFaults - 1, by omega, ?_⟩
    intro hash
    rw [hCommitted hash]
    constructor
    · intro hParts
      rcases hParts with ⟨_, r, hBound, hEq⟩
      exact ⟨r, by omega, hEq⟩
    · intro hParts
      rcases hParts with ⟨r, hBound, hEq⟩
      exact ⟨hDue, r, by omega, hEq⟩
  · left
    apply Finset.eq_empty_of_forall_notMem
    intro hash hMem
    exact hDue ((hCommitted hash).mp hMem).1

/-
  In every state of `n` replicas that follow the code:
  replicas accept the same block in a round; the block of
  round `r` has the 64-bit height `r` and its parent is the
  block of the round before, or genesis; committed sets are
  nested, and each is a prefix of the accepted chain.
-/
theorem agreement
    {n f : Nat}
    {config : Replica → Config}
    {g : Replica → Node H}
    (hFree : CollisionFree H)
    (hConfig : SystemConfig n f config)
    (hReach :
      Machine.Reach (Network.step step)
        (Network.Delivers interface n)
        (fun i => Node.new (config i)) g) :
    (∀ i j, i < n → j < n →
        ∀ r p q,
          (g i).cx.propChainByRound.lookup r = some p →
          (g j).cx.propChainByRound.lookup r = some q →
            p.blockHash = q.blockHash) ∧
      (∀ i, i < n →
        ∀ r p,
          (g i).cx.propChainByRound.lookup r = some p →
            ∃ block,
              (g i).cx.storage.deliveredBlockFromHash
                  p.blockHash = some block ∧
                block.header.height = r % 2 ^ 64 ∧
                ((r = 1 ∧
                    block.header.prev =
                      (Block.genesis : Block H).hash) ∨
                  ∃ q,
                    (g i).cx.propChainByRound.lookup
                        (r - 1) = some q ∧
                      block.header.prev =
                        q.blockHash)) ∧
      (∀ i j, i < n → j < n →
        (g i).cx.storage.committedBlocksByHash ⊆
            (g j).cx.storage.committedBlocksByHash ∨
          (g j).cx.storage.committedBlocksByHash ⊆
            (g i).cx.storage.committedBlocksByHash) ∧
      ∀ i, i < n →
        (g i).cx.storage.committedBlocksByHash = ∅ ∨
          ∃ last, last < (g i).cx.round ∧
            ∀ hash,
              hash ∈
                  (g i).cx.storage.committedBlocksByHash ↔
                ∃ r, r ≤ last ∧
                  hash = acceptedHash (g i).cx r := by
  have hGlobal : GlobalInv n f g := by
    apply Network.reach_invariant (GlobalInv n f) hReach
      (globalInv_new hConfig)
    intro g i event node hGlobal hIndex hSent hStep
    exact hGlobal.step hFree hIndex hSent hStep
  refine ⟨?_, ?_, ?_, ?_⟩
  · intro i j hLeft hRight r p q hLookup hLookup'
    have hPeer := hGlobal.peer i hLeft
    have hPeer' := hGlobal.peer j hRight
    rw [← acceptedHash_of_lookup hPeer.chain hLookup,
      ← acceptedHash_of_lookup hPeer'.chain hLookup']
    exact hGlobal.acceptedHash_eq hLeft hRight
      ((hPeer.chain.keys r).mp ⟨p, hLookup⟩).2
      ((hPeer'.chain.keys r).mp ⟨q, hLookup'⟩).2
  · intro i hIndex r p hLookup
    exact (hGlobal.peer i hIndex).acceptedBlock hFree
      hGlobal hLookup
  · intro i j hLeft hRight
    rcases Nat.le_total (g i).cx.round (g j).cx.round with
      hBehind | hBehind
    · exact Or.inl
        (hGlobal.committed_subset hLeft hRight hBehind)
    · exact Or.inr
        (hGlobal.committed_subset hRight hLeft hBehind)
  · intro i hIndex
    exact (hGlobal.peer i hIndex).committed_initial

/-
  Replica 0 proposes in round 1, replica 1 receives it and
  proposes in round 2.
-/
def twoRounds : List (Replica × Event Digest) :=
  [(0, handBatch), (0, .internal),
    (1, proposed 0 1 firstBlock)] ++
    List.replicate 8 (1, .internal) ++
    [(1, handBatch), (1, .internal)]

theorem agreement_two_rounds :
    ∃ g : Replica → Node Digest,
      Machine.Reach (Network.step step)
          (Network.Delivers interface 3)
          (fun i => Node.new (smallConfig i)) g ∧
        firstBlock.hash ∈
          (g 1).cx.storage.committedBlocksByHash ∧
        ((g 0).cx.storage.committedBlocksByHash ⊆
            (g 1).cx.storage.committedBlocksByHash ∨
          (g 1).cx.storage.committedBlocksByHash ⊆
            (g 0).cx.storage.committedBlocksByHash) := by
  have hRun :
      Machine.runCheck (Network.step step)
        (Network.deliversCheck interface 3)
        (fun g =>
          decide (firstBlock.hash ∈
            (g 1).cx.storage.committedBlocksByHash))
        (fun i => Node.new (smallConfig i)) twoRounds =
          true := by
    decide +kernel
  rcases Machine.Reach.of_runCheck
      (fun _ _ hCheck =>
        Network.delivers_of_deliversCheck hCheck)
      hRun with ⟨g, hReach, hMem⟩
  have hConfig : SystemConfig 3 1 smallConfig :=
    fun _ _ => ⟨rfl, rfl, rfl⟩
  rcases agreement Digest.collisionFree hConfig hReach with
    ⟨_, _, hNested, _⟩
  exact ⟨g, hReach, of_decide_eq_true hMem,
    hNested 0 1 (by omega) (by omega)⟩

end Apollo

end LibApollo
