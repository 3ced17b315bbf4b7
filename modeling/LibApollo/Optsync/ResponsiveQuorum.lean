import LibApollo.Optsync.Agreement
import LibApollo.Optsync.Ballots
import Mathlib.Data.Finset.Card

/-
  The responsive certificates of Opt Sync.

  A certificate that grows at a node holds votes that their
  origins have signed.  Two certificates for different
  blocks of one height would share an honest voter when two
  responsive quorums exceed the replicas by more than the
  faulty ones.

  Key definitions include:
    * `Backed`, `BallotInv`
    * `VotesOnce`, `Authentic`
    * `MakesResponsive`

  Key theorems include:
    * `exists_common_honest`
    * `BallotInv.step`
    * `responsive_quorums_intersect`
    * `two_blocks_responsive`
-/

------------------------------------------------------------
-- Quorum Intersection
------------------------------------------------------------

/-
  Two sets whose sizes exceed that of the universe by more
  than the faulty elements share one that is not faulty.
-/
theorem Finset.exists_common_honest
    {A : Type}
    [DecidableEq A]
    {all left right faulty : Finset A}
    (hLeft : left ⊆ all)
    (hRight : right ⊆ all)
    (hLarge :
      all.card + faulty.card < left.card + right.card) :
    ∃ a ∈ left, a ∈ right ∧ a ∉ faulty := by
  have hUnion : (left ∪ right).card ≤ all.card :=
    Finset.card_le_card (Finset.union_subset hLeft hRight)
  have hSplit := Finset.card_union_add_card_inter left right
  have hInter : faulty.card < (left ∩ right).card := by
    omega
  rcases Finset.exists_mem_notMem_of_card_lt_card hInter
    with ⟨a, hMem, hHonest⟩
  rcases Finset.mem_inter.mp hMem with ⟨hInLeft, hInRight⟩
  exact ⟨a, hInLeft, hInRight, hHonest⟩

------------------------------------------------------------
-- The Votes of a Certificate
------------------------------------------------------------

namespace LibApollo

namespace Optsync

open Synchs (Propose ProtocolMsg Panic Config Node Event)

variable {H : Type} [DecidableEq H]

/- The replicas whose votes a certificate has. -/
def voters (cert : Certificate H) : Finset Replica :=
  (cert.votes.map Vote.origin).toFinset

/- The node itself has signed a vote for the hash. -/
def HasVoted (cx : Context H) (hash : H) : Prop :=
  ∃ view, SignData.cert (.vote view hash) ∈ cx.signed

/-
  Each vote of the certificate is the node's own, or one of
  a known replica that signs votes for the hash.
-/
structure Backed
    (signs : Replica → H → Prop)
    (cx : Context H)
    (hash : H)
    (cert : Certificate H) : Prop where
  nonempty : cert.votes ≠ []
  votes :
    ∀ v ∈ cert.votes,
      (v.origin = cx.myid ∧ HasVoted cx hash) ∨
        ((cx.pubKeyMap.lookup v.origin).isSome = true ∧
          signs v.origin hash)

/- All growing certificates of a node are backed. -/
structure BallotInv
    (config : Config)
    (signs : Replica → H → Prop)
    (cx : Context H) : Prop where
  myid : cx.myid = config.id
  numNodes : cx.numNodes = config.numNodes
  pubKeyMap : cx.pubKeyMap = config.pkMap
  backed :
    ∀ hash cert,
      cx.voteMap.lookup hash = some cert →
        Backed signs cx hash cert

variable {config : Config}
variable {signs : Replica → H → Prop}
variable {cx cx' : Context H}
variable {hash : H}
variable {cert : Certificate H}

/- More signatures of the node back no fewer votes. -/
theorem Backed.mono
    (hBacked : Backed signs cx hash cert)
    (hSelf : cx'.myid = cx.myid)
    (hKeys : cx'.pubKeyMap = cx.pubKeyMap)
    (hSigned : cx.signed ⊆ cx'.signed) :
    Backed signs cx' hash cert := by
  refine ⟨hBacked.nonempty, ?_⟩
  intro v hVote
  rcases hBacked.votes v hVote with
    ⟨hOwn, view, hLog⟩ | hOther
  · left
    exact ⟨hOwn.trans hSelf.symm, view, hSigned hLog⟩
  · right
    rw [hKeys]
    exact hOther

/- A certificate of one vote that stands is backed. -/
theorem backed_single
    {vote : Vote}
    (hVotes : cert.votes = [vote])
    (hStands :
      (vote.origin = cx.myid ∧ HasVoted cx hash) ∨
        ((cx.pubKeyMap.lookup vote.origin).isSome = true ∧
          signs vote.origin hash)) :
    Backed signs cx hash cert := by
  refine ⟨by simp [hVotes], ?_⟩
  intro v hMem
  rw [hVotes] at hMem
  rw [List.mem_singleton.mp hMem]
  exact hStands

/- One more vote of a known replica that signs it. -/
theorem Backed.add
    {vote : Vote}
    (hBacked : Backed signs cx hash cert)
    (hKnown :
      (cx.pubKeyMap.lookup vote.origin).isSome = true)
    (hSigns : signs vote.origin hash) :
    Backed signs cx hash
      { cert with votes := cert.votes ++ [vote] } := by
  refine ⟨by simp, ?_⟩
  intro v hMem
  rcases List.mem_append.mp hMem with hIn | hNew
  · exact hBacked.votes v hIn
  · rw [List.mem_singleton.mp hNew]
    exact Or.inr ⟨hKnown, hSigns⟩

/- What is kept of a node, with other votes. -/
theorem BallotInv.same
    (hInv : BallotInv config signs cx)
    (hNode : SameNode cx cx')
    (hBacked :
      ∀ hash cert,
        cx'.voteMap.lookup hash = some cert →
          Backed signs cx' hash cert) :
    BallotInv config signs cx' where
  myid := hNode.myid.trans hInv.myid
  numNodes := hNode.numNodes.trans hInv.numNodes
  pubKeyMap := hNode.pubKeyMap.trans hInv.pubKeyMap
  backed := hBacked

/- A backed certificate is entered for its hash. -/
theorem BallotInv.enter
    (hInv : BallotInv config signs cx)
    (hNode : SameNode cx cx')
    (hVotes : cx'.voteMap = cx.voteMap.insert hash cert)
    (hBacked : Backed signs cx' hash cert) :
    BallotInv config signs cx' := by
  apply hInv.same hNode
  intro other entry hLookup
  rw [hVotes, FinMap.lookup_insert_eq] at hLookup
  split at hLookup
  · rename_i hKey
    cases hLookup
    rw [hKey]
    exact hBacked
  · exact (hInv.backed other entry hLookup).mono hNode.myid
      hNode.pubKeyMap hNode.signed

end Optsync

end LibApollo

------------------------------------------------------------
-- Steps Keep Certificates Backed
------------------------------------------------------------

namespace LibApollo

namespace Optsync

open Synchs (Propose ProtocolMsg Panic Config Node Event)

variable {H : Type} [DecidableEq H] [Crypto H]
variable {config : Config}
variable {signs : Replica → H → Prop}
variable {cx cx' : Context H}
variable {p : Propose H}
variable {c : Certificate H}

/-
  A received vote that verifies under the key of a replica
  is one that the replica signs.
-/
def GenuineVote
    (keys : FinMap Replica Bytes)
    (signs : Replica → H → Prop)
    (event : Event H) : Prop :=
  ∀ c p, event = .recv (.voteMsg c p) →
    ∀ view hash, c.msg = .vote view hash →
      ∀ v ∈ c.votes, ∀ replica publicKey,
        keys.lookup replica = some publicKey →
          Crypto.verify publicKey (.cert (.vote view hash))
            v.auth = true →
          signs replica hash

/- The votes of a step are backed, with those before. -/
theorem BallotInv.ballots
    {event : Event H}
    (hInv : BallotInv config signs cx)
    (hGenuine : GenuineVote config.pkMap signs event)
    (hNode : SameNode cx cx')
    (hBallots : Ballots cx event cx') :
    BallotInv config signs cx' := by
  -- a vote that was checked is from a replica that signs it
  have hStands :
      ∀ c p hash vote,
        event = .recv (.voteMsg c p) →
          Synchs.checkVote c p cx.toContext =
            .ok (some hash) →
          c.votes = [vote] →
            (cx.pubKeyMap.lookup vote.origin).isSome =
                true ∧
              signs vote.origin hash := by
    intro c p hash vote hEvent hCheck hSingle
    rcases Synchs.checkVote_some hCheck with
      ⟨view, other, publicKey, hMsg, hVotes, _, hKey,
        hVerify, _⟩
    rw [hSingle] at hVotes
    cases hVotes
    constructor
    · rw [hKey]
      rfl
    · rw [hInv.pubKeyMap] at hKey
      refine hGenuine c p hEvent view hash hMsg vote ?_ _ _
        hKey hVerify
      rw [hSingle]
      exact List.mem_singleton_self _
  cases hBallots with
  | kept hVotes _ =>
      apply hInv.same hNode
      intro hash cert hLookup
      rw [hVotes] at hLookup
      exact (hInv.backed hash cert hLookup).mono hNode.myid
        hNode.pubKeyMap hNode.signed
  | entered hash hSigned _ hVotes _ =>
      refine hInv.enter hNode hVotes ?_
      exact backed_single rfl
        (Or.inl ⟨hNode.myid.symm, cx.view, hSigned⟩)
  | first c p hash hEvent hCheck hVotes _ =>
      rcases Synchs.checkVote_some hCheck with
        ⟨_, vote, _, _, hSingle, _⟩
      refine hInv.enter hNode hVotes ?_
      apply backed_single hSingle
      rw [hNode.pubKeyMap]
      exact Or.inr (hStands c p hash vote hEvent hCheck
        hSingle)
  | added c p hash vote old cert hEvent hCheck _ hSingle
      hOld hCert hVotes _ =>
      rcases hStands c p hash vote hEvent hCheck hSingle
        with ⟨hKnown, hSigns⟩
      refine hInv.enter hNode hVotes ?_
      rw [hCert]
      exact ((hInv.backed hash old hOld).add hKnown
        hSigns).mono hNode.myid hNode.pubKeyMap
          hNode.signed

theorem BallotInv.step
    {node node' : Node (Context H)}
    {event : Event H}
    (hInv : BallotInv config signs node.cx)
    (hGenuine : GenuineVote config.pkMap signs event)
    (hStep : Optsync.step node event = .ok node') :
    BallotInv config signs node'.cx := by
  rcases step_ballots hStep with ⟨hNode, hBallots⟩
  exact hInv.ballots hGenuine hNode hBallots

theorem ballotInv_new
    (config : Config)
    (signs : Replica → H → Prop) :
    BallotInv config signs
      (Node.new config : Node (Context H)).cx := by
  refine
    { myid := rfl
      numNodes := rfl
      pubKeyMap := rfl
      backed := ?_ }
  intro hash cert hLookup
  simp [Node.new, Context.new, Synchs.Context.new]
    at hLookup

end Optsync

end LibApollo

------------------------------------------------------------
-- Responsive Quorums
------------------------------------------------------------

namespace LibApollo

namespace Optsync

open Synchs (Propose Config Node Event)

variable {H : Type} [DecidableEq H] [Crypto H]
variable {honest faulty : Finset Replica}
variable {keys : FinMap Replica Bytes}
variable {config : Replica → Config}
variable {signs : Replica → H → Prop}
variable {n f : Nat}
variable {g g' : Replica → Node (Context H)}

/-
  What the network may do to an honest node: hand it any
  message whose votes are signed by those who are said to.
-/
def Authentic
    (honest : Finset Replica)
    (keys : FinMap Replica Bytes)
    (signs : Replica → H → Prop)
    (_ : Replica → Node (Context H))
    (event : Replica × Event H) : Prop :=
  event.1 ∈ honest ∧ GenuineVote keys signs event.2

/-
  Validated configurations of the honest nodes: fewer than
  half of the nodes are faulty, and the keys are of nodes.
-/
structure Validated
    (honest : Finset Replica)
    (keys : FinMap Replica Bytes)
    (n f : Nat)
    (config : Replica → Config) : Prop where
  faults : 2 * f < n
  keys_lt :
    ∀ replica,
      (keys.lookup replica).isSome = true → replica < n
  honest_lt : ∀ i ∈ honest, i < n
  config :
    ∀ i ∈ honest,
      (config i).id = i ∧ (config i).pkMap = keys ∧
        (config i).numNodes = n ∧ (config i).numFaults = f

/- The replica signs votes for one block at each height. -/
def VotesOnce
    (signs : Replica → H → Prop)
    (replica : Replica) : Prop :=
  ∀ block block' : Block H,
    block.Proper → block'.Proper →
      signs replica block.hash →
      signs replica block'.hash →
      block.header.height = block'.header.height →
      block = block'

/- The honest nodes have signed no other votes. -/
def LogsWithin
    (honest : Finset Replica)
    (signs : Replica → H → Prop)
    (g : Replica → Node (Context H)) : Prop :=
  ∀ i ∈ honest, ∀ hash,
    HasVoted (g i).cx hash → signs i hash

/-
  On this event the addition of a vote returns `true`, with
  a certificate of enough votes of distinct replicas.
-/
def MakesResponsive
    (g : Replica → Node (Context H))
    (event : Replica × Event H)
    (hash : H) : Prop :=
  ∃ c p cx cert,
    event.2 = .recv (.voteMsg c p) ∧
      (g event.1).phase = .select ∧
      p.blockHash = hash ∧
      onVote c p (g event.1).cx = .ok (true, cx) ∧
      cx.respCert.lookup hash = some cert ∧
      responsiveQuorum (g event.1).cx ≤
        (voters cert).card

/- The certificates of all honest nodes are backed. -/
theorem ballotInv_of_reach
    (hValid : Validated honest keys n f config)
    (hReach :
      Machine.Reach (Network.step step)
        (Authentic honest keys signs)
        (fun i => Node.new (config i)) g) :
    ∀ i ∈ honest, BallotInv (config i) signs (g i).cx := by
  apply hReach.invariant
    (fun g =>
      ∀ i ∈ honest, BallotInv (config i) signs (g i).cx)
  · intro i _
    exact ballotInv_new (config i) signs
  · intro g g' event hInv hGuard hStep
    rcases event with ⟨i, event⟩
    rcases hGuard with ⟨hMoves, hGenuine⟩
    rcases Network.step_ok hStep with ⟨node, hNode, rfl⟩
    intro j hHonest
    refine Network.at_update
      (fun node : Node (Context H) =>
        BallotInv (config j) signs node.cx)
      ?_ (hInv j hHonest)
    intro hSame
    subst hSame
    refine (hInv i hHonest).step ?_ hNode
    rw [(hValid.config i hHonest).2.1]
    exact hGenuine

/-
  The voters of a responsive certificate are enough nodes,
  and all of them sign votes for the block.
-/
theorem MakesResponsive.voters_sign
    {event : Replica × Event H}
    {hash : H}
    (hValid : Validated honest keys n f config)
    (hReach :
      Machine.Reach (Network.step step)
        (Authentic honest keys signs)
        (fun i => Node.new (config i)) g)
    (hLogs : LogsWithin honest signs g)
    (hGuard : Authentic honest keys signs g event)
    (hMakes : MakesResponsive g event hash) :
    ∃ quorum : Finset Replica,
      quorum ⊆ Finset.range n ∧
        max 1 ((3 * n) / 4) ≤ quorum.card ∧
        ∀ replica ∈ quorum, signs replica hash := by
  rcases event with ⟨i, event⟩
  rcases hGuard with ⟨hHonest, hGenuine⟩
  rcases hMakes with
    ⟨c, p, cx, cert, hEvent, _, rfl, hVote, hCert,
      hQuorum⟩
  dsimp only at hEvent hVote hQuorum
  rcases hValid.config i hHonest with
    ⟨hId, hKeys, hNodes, _⟩
  have hInv := ballotInv_of_reach hValid hReach i hHonest
  have hGenuine' :
      GenuineVote (config i).pkMap signs
        (.recv (.voteMsg c p)) := by
    rw [hKeys, ← hEvent]
    exact hGenuine
  rcases onVote_ballots hVote with ⟨hNode, hBallots⟩
  have hAfter := hInv.ballots hGenuine' hNode hBallots
  rcases onVote_true hVote with
    ⟨cert', hGrown, hCert', _⟩
  have hSame : cert' = cert :=
    Option.some.inj (hCert'.symm.trans hCert)
  subst hSame
  have hBacked := hAfter.backed _ _ hGrown
  have hLedger := onVote_ledger hVote
  have hSigned : cx.signed = (g i).cx.signed :=
    congrArg Synchs.Ledger.signed hLedger
  have hVoter :
      ∀ replica ∈ voters cert',
        replica < n ∧ signs replica p.blockHash := by
    intro replica hMem
    simp only [voters, List.mem_toFinset, List.mem_map]
      at hMem
    rcases hMem with ⟨v, hIn, rfl⟩
    rcases hBacked.votes v hIn with
      ⟨hOwn, view, hLog⟩ | ⟨hKnown, hSigns⟩
    · rw [hOwn, hAfter.myid, hId]
      rw [hSigned] at hLog
      exact ⟨hValid.honest_lt i hHonest,
        hLogs i hHonest _ ⟨view, hLog⟩⟩
    · rw [hAfter.pubKeyMap, hKeys] at hKnown
      exact ⟨hValid.keys_lt _ hKnown, hSigns⟩
  refine ⟨voters cert', ?_, ?_,
    fun replica hMem => (hVoter replica hMem).2⟩
  · intro replica hMem
    exact Finset.mem_range.mpr (hVoter replica hMem).1
  · apply max_le
    · -- a certificate is never empty
      rw [Nat.one_le_iff_ne_zero, Finset.card_ne_zero]
      rcases List.exists_mem_of_ne_nil _ hBacked.nonempty
        with ⟨v, hIn⟩
      exact ⟨v.origin,
        List.mem_toFinset.mpr (List.mem_map_of_mem hIn)⟩
    · rw [responsiveQuorum, hInv.numNodes, hNodes] at hQuorum
      exact hQuorum

/-
  When two quorums exceed the nodes by more than the faulty
  ones, two blocks of one height that both make the addition
  of a vote return `true` at honest nodes are one block.  The
  two states may be any two of one run.
-/
theorem responsive_quorums_intersect
    {block block' : Block H}
    {event event' : Replica × Event H}
    (hValid : Validated honest keys n f config)
    (hLarge : n + f < 2 * max 1 ((3 * n) / 4))
    (hFaulty : faulty.card ≤ f)
    (hOnce :
      ∀ replica, replica ∉ faulty →
        VotesOnce signs replica)
    (hReach :
      Machine.Reach (Network.step step)
        (Authentic honest keys signs)
        (fun i => Node.new (config i)) g)
    (hReach' :
      Machine.Reach (Network.step step)
        (Authentic honest keys signs)
        (fun i => Node.new (config i)) g')
    (hLogs : LogsWithin honest signs g)
    (hLogs' : LogsWithin honest signs g')
    (hGuard : Authentic honest keys signs g event)
    (hGuard' : Authentic honest keys signs g' event')
    (hBlock : block.Proper)
    (hBlock' : block'.Proper)
    (hHeight :
      block.header.height = block'.header.height)
    (hMakes : MakesResponsive g event block.hash)
    (hMakes' : MakesResponsive g' event' block'.hash) :
    block = block' := by
  rcases hMakes.voters_sign hValid hReach hLogs hGuard with
    ⟨left, hLeft, hLeftCard, hLeftSigns⟩
  rcases hMakes'.voters_sign hValid hReach' hLogs' hGuard'
    with ⟨right, hRight, hRightCard, hRightSigns⟩
  have hSizes :
      (Finset.range n).card + faulty.card <
        left.card + right.card := by
    rw [Finset.card_range]
    omega
  rcases Finset.exists_common_honest hLeft hRight hSizes with
    ⟨replica, hInLeft, hInRight, hHonest⟩
  exact hOnce replica hHonest block block' hBlock hBlock'
    (hLeftSigns replica hInLeft)
    (hRightSigns replica hInRight) hHeight

end Optsync

end LibApollo

------------------------------------------------------------
-- Four Nodes
------------------------------------------------------------

namespace LibApollo

namespace Optsync

open Synchs (Propose Config Node Event)

variable {H : Type} [DecidableEq H] [Crypto H]

/- Executable form of `MakesResponsive`. -/
def makesResponsiveCheck
    (g : Replica → Node (Context H))
    (event : Replica × Event H)
    (hash : H) : Bool :=
  match event.2 with
  | .recv (.voteMsg c p) =>
      match onVote c p (g event.1).cx with
      | .ok (true, cx) =>
          match cx.respCert.lookup hash with
          | some cert =>
              decide
                ((g event.1).phase = .select ∧
                  p.blockHash = hash ∧
                  responsiveQuorum (g event.1).cx ≤
                    (voters cert).card)
          | none => false
      | _ => false
  | _ => false

theorem makesResponsive_of_check
    {g : Replica → Node (Context H)}
    {event : Replica × Event H}
    {hash : H}
    (hCheck : makesResponsiveCheck g event hash = true) :
    MakesResponsive g event hash := by
  unfold makesResponsiveCheck at hCheck
  split at hCheck
  · rename_i c p hEvent
    split at hCheck
    · rename_i cx hVote
      split at hCheck
      · rename_i cert hCert
        rcases of_decide_eq_true hCheck with
          ⟨hPhase, hHash, hQuorum⟩
        exact ⟨c, p, cx, cert, hEvent, hPhase, hHash, hVote,
          hCert, hQuorum⟩
      · cases hCheck
    · cases hCheck
  · cases hCheck

omit [Crypto H] in
/- What a node has signed is read off its log. -/
theorem logsWithin_of_logs
    {honest : Finset Replica}
    {signs : Replica → H → Prop}
    {g : Replica → Node (Context H)}
    (hashes : Replica → H)
    (hLog :
      ∀ i ∈ honest,
        (g i).cx.signed = [.cert (.vote 0 (hashes i))])
    (hSigns : ∀ i ∈ honest, signs i (hashes i)) :
    LogsWithin honest signs g := by
  intro i hHonest hash hVoted
  rcases hVoted with ⟨view, hMem⟩
  rw [hLog i hHonest, List.mem_singleton] at hMem
  cases hMem
  exact hSigns i hHonest

theorem validated_keyMap
    {honest : Finset Replica}
    {ids : List Replica}
    {n f : Nat}
    {config : Replica → Config}
    (hFaults : 2 * f < n)
    (hIds : ∀ id ∈ ids, id < n)
    (hHonest : ∀ i ∈ honest, i < n)
    (hConfig :
      ∀ i ∈ honest,
        (config i).id = i ∧
          (config i).pkMap = Digest.keyMap ids ∧
          (config i).numNodes = n ∧
          (config i).numFaults = f) :
    Validated honest (Digest.keyMap ids) n f config := by
  refine
    { faults := hFaults
      keys_lt := ?_
      honest_lt := hHonest
      config := hConfig }
  intro replica hKnown
  rcases Option.isSome_iff_exists.mp hKnown with
    ⟨key, hKey⟩
  exact hIds replica (Digest.lookup_keyMap hKey).1

/- Four nodes that tolerate one fault. -/
def fourNodes (id : Replica) : Config :=
  { Config.small id with
    numNodes := 4
    pkMap := Digest.keyMap [0, 1, 2, 3] }

/- A replica's vote for the first block, sent to a node. -/
def firstVote
    (dest origin : Replica) : Replica × Event Digest :=
  (dest,
    .recv
      (.voteMsg (votesFor [origin] firstBlock)
        firstProposal))

/- Replicas 1 and 2 vote and get the leader's vote. -/
def fourRun : List (Replica × Event Digest) :=
  [(1, .recv
      (.newProposal firstProposal firstBlock oneBatch)),
    (1, .internal), firstVote 1 0, (1, .internal),
    (2, .recv
      (.newProposal firstProposal firstBlock oneBatch)),
    (2, .internal), firstVote 2 0, (2, .internal)]

/- Votes are signed for the first block only. -/
def firstSigns (_ : Replica) (hash : Digest) : Prop :=
  hash = firstBlock.hash

def firstVotes
    (_ : Replica → Node (Context Digest))
    (event : Replica × Event Digest) : Bool :=
  decide (event.1 ∈ ({1, 2} : Finset Replica)) &&
    match event.2 with
    | .recv (.voteMsg c _) =>
        decide (c.msg = .vote 0 firstBlock.hash)
    | _ => true

theorem authentic_of_firstVotes
    (g : Replica → Node (Context Digest))
    (event : Replica × Event Digest)
    (hCheck : firstVotes g event = true) :
    Authentic {1, 2} (Digest.keyMap [0, 1, 2, 3])
      firstSigns g event := by
  unfold firstVotes at hCheck
  rw [Bool.and_eq_true] at hCheck
  refine ⟨of_decide_eq_true hCheck.1, ?_⟩
  intro c p hEvent view hash hMsg _ _ _ _ _ _
  have hNamed := hCheck.2
  rw [hEvent] at hNamed
  have hFirst := of_decide_eq_true hNamed
  rw [hMsg] at hFirst
  cases hFirst
  rfl

def fourFinal (g : Replica → Node (Context Digest)) : Bool :=
  makesResponsiveCheck g (firstVote 1 3) firstBlock.hash &&
    makesResponsiveCheck g (firstVote 2 3)
      firstBlock.hash &&
    decide
      ((g 1).cx.signed =
          [.cert (.vote 0 firstBlock.hash)] ∧
        (g 2).cx.signed =
          [.cert (.vote 0 firstBlock.hash)])

/- The third vote makes a certificate responsive. -/
theorem responsive_quorums_intersect_four :
    ∃ g : Replica → Node (Context Digest),
      Machine.Reach (Network.step step)
          (Authentic {1, 2} (Digest.keyMap [0, 1, 2, 3])
            firstSigns)
          (fun i => Node.new (fourNodes i)) g ∧
        MakesResponsive g (firstVote 1 3)
          firstBlock.hash ∧
        MakesResponsive g (firstVote 2 3)
          firstBlock.hash ∧
        ∀ block : Block Digest,
          block.Proper →
            firstBlock.header.height =
              block.header.height →
            MakesResponsive g (firstVote 2 3) block.hash →
            firstBlock = block := by
  have hRun :
      Machine.runCheck (Network.step step) firstVotes
        fourFinal (fun i => Node.new (fourNodes i))
        fourRun = true := by
    decide +kernel
  rcases Machine.Reach.of_runCheck authentic_of_firstVotes
      hRun with ⟨g, hReach, hFinal⟩
  unfold fourFinal at hFinal
  rw [Bool.and_eq_true, Bool.and_eq_true] at hFinal
  rcases hFinal with ⟨⟨hLeft, hRight⟩, hSigned⟩
  rcases of_decide_eq_true hSigned with ⟨hOne, hTwo⟩
  have hMakes := makesResponsive_of_check hLeft
  have hLogs : LogsWithin {1, 2} firstSigns g := by
    refine logsWithin_of_logs (fun _ => firstBlock.hash)
      ?_ ?_
    · intro i hHonest
      simp only [Finset.mem_insert, Finset.mem_singleton]
        at hHonest
      rcases hHonest with rfl | rfl
      · exact hOne
      · exact hTwo
    · intro i _
      rfl
  have hValid :
      Validated {1, 2} (Digest.keyMap [0, 1, 2, 3]) 4 1
        fourNodes :=
    validated_keyMap (by decide) (by decide) (by decide)
      (fun _ _ => ⟨rfl, rfl, rfl, rfl⟩)
  have hOnce :
      ∀ replica, replica ∉ ({0} : Finset Replica) →
        VotesOnce firstSigns replica := by
    intro _ _ block block' hBlock hBlock' hSigns hSigns' _
    exact hBlock.eq_of_hash_eq Digest.collisionFree hBlock'
      (hSigns.trans hSigns'.symm)
  refine ⟨g, hReach, hMakes,
    makesResponsive_of_check hRight, ?_⟩
  intro block hBlock hHeight hOther
  exact responsive_quorums_intersect hValid (by decide)
    (by decide) hOnce hReach hReach hLogs hLogs
    (authentic_of_firstVotes g (firstVote 1 3) rfl)
    (authentic_of_firstVotes g (firstVote 2 3) rfl)
    (Or.inr rfl) hBlock hHeight hMakes hOther

end Optsync

end LibApollo

------------------------------------------------------------
-- Two Blocks of One Height
------------------------------------------------------------

namespace LibApollo

namespace Optsync

open Synchs (Propose Config Node Event)

variable {H : Type} [DecidableEq H] [Crypto H]

def twinTransaction : Transaction where
  clientId := 0
  nonce := 1
  data := []
  request := []

/- A second block of height one by the leader. -/
def twinBlock : Block Digest :=
  Block.extending Block.genesis 0 1
    (Crypto.batchHash [twinTransaction])

def twinProposal : Propose Digest :=
  proposalOf twinBlock (Certificate.emptyCert Digest)

/- The faulty leader votes for both, the others for one. -/
def twinSigns (replica : Replica) (hash : Digest) : Prop :=
  (hash = firstBlock.hash ∧ (replica = 0 ∨ replica = 1)) ∨
    (hash = twinBlock.hash ∧ (replica = 0 ∨ replica = 2))

theorem twinSigns_once
    (replica : Replica)
    (hHonest : replica ∉ ({0} : Finset Replica)) :
    VotesOnce twinSigns replica := by
  intro block block' hBlock hBlock' hSigns hSigns' _
  have hNotLeader : replica ≠ 0 := by
    simpa using hHonest
  have hSame : block.hash = block'.hash := by
    rcases hSigns with
      ⟨hHash, hWho⟩ | ⟨hHash, hWho⟩
    · rcases hSigns' with
        ⟨hHash', _⟩ | ⟨_, hWho'⟩
      · rw [hHash, hHash']
      · have hOne := hWho.resolve_left hNotLeader
        have hTwo := hWho'.resolve_left hNotLeader
        simp [hOne] at hTwo
    · rcases hSigns' with
        ⟨_, hWho'⟩ | ⟨hHash', _⟩
      · have hTwo := hWho.resolve_left hNotLeader
        have hOne := hWho'.resolve_left hNotLeader
        simp [hTwo] at hOne
      · rw [hHash, hHash']
  exact hBlock.eq_of_hash_eq Digest.collisionFree hBlock'
    hSame

/- The vote of the leader for a block, sent to a node. -/
def leaderVote
    (dest : Replica)
    (block : Block Digest)
    (p : Propose Digest) : Replica × Event Digest :=
  (dest, .recv (.voteMsg (votesFor [0] block) p))

/-
  The leader sends replica 1 one block and replica 2 another
  of the same height.
-/
def twinRun : List (Replica × Event Digest) :=
  [(1, .recv
      (.newProposal firstProposal firstBlock oneBatch)),
    (1, .internal),
    (2, .recv
      (.newProposal twinProposal twinBlock
        ⟨[twinTransaction]⟩)),
    (2, .internal)]

/- Honest nodes take events that bring no votes. -/
def voteless
    (honest : Finset Replica)
    (_ : Replica → Node (Context H))
    (event : Replica × Event H) : Bool :=
  decide (event.1 ∈ honest) &&
    match event.2 with
    | .recv (.voteMsg _ _) => false
    | _ => true

theorem authentic_of_voteless
    {honest : Finset Replica}
    {keys : FinMap Replica Bytes}
    {signs : Replica → H → Prop}
    (g : Replica → Node (Context H))
    (event : Replica × Event H)
    (hCheck : voteless honest g event = true) :
    Authentic honest keys signs g event := by
  unfold voteless at hCheck
  rw [Bool.and_eq_true] at hCheck
  refine ⟨of_decide_eq_true hCheck.1, ?_⟩
  intro c p hEvent
  rw [hEvent] at hCheck
  cases hCheck.2

/- Only the leader's key accepts the leader's vote. -/
theorem authentic_leaderVote
    {honest : Finset Replica}
    {ids : List Replica}
    {signs : Replica → Digest → Prop}
    {g : Replica → Node (Context Digest)}
    {dest : Replica}
    {block : Block Digest}
    {p : Propose Digest}
    (hIds : ∀ id ∈ ids, id < 256)
    (hHonest : dest ∈ honest)
    (hSigns : signs 0 block.hash) :
    Authentic honest (Digest.keyMap ids) signs g
      (leaderVote dest block p) := by
  refine ⟨hHonest, ?_⟩
  intro c p' hEvent view hash hMsg v hVote replica publicKey
    hKey hVerify
  cases hEvent
  cases hMsg
  rw [List.mem_singleton.mp hVote] at hVerify
  rcases Digest.lookup_keyMap hKey with ⟨hMem, rfl⟩
  have hSame := of_decide_eq_true hVerify
  have hKeyEq :
      Digest.keyOf 0 = Digest.keyOf replica :=
    List.append_cancel_right hSame
  have hReplica : replica = 0 := by
    have hByte :
        (0 : Nat) % 256 = (replica : Nat) % 256 := by
      simpa [Digest.keyOf, ← UInt8.toNat_inj] using hKeyEq
    have hBound := hIds replica hMem
    rw [Nat.mod_eq_of_lt hBound] at hByte
    exact hByte.symm
  rw [hReplica]
  exact hSigns

/- The block that replicas 1 and 2 have voted for. -/
def twinVote (replica : Replica) : Digest :=
  if replica = 1 then firstBlock.hash else twinBlock.hash

def twinFinal (g : Replica → Node (Context Digest)) : Bool :=
  makesResponsiveCheck g
      (leaderVote 1 firstBlock firstProposal)
      firstBlock.hash &&
    match Network.step step g
        (leaderVote 1 firstBlock firstProposal) with
    | .error _ => false
    | .ok g' =>
        makesResponsiveCheck g'
            (leaderVote 2 twinBlock twinProposal)
            twinBlock.hash &&
          decide
            ((g' 1).cx.signed =
                [.cert (.vote 0 (twinVote 1))] ∧
              (g' 2).cx.signed =
                [.cert (.vote 0 (twinVote 2))])

/-
  Three nodes tolerate one fault and two votes of three make
  a certificate responsive: with a leader that votes twice,
  replicas 1 and 2 each commit a block of height one.
-/
theorem two_blocks_responsive :
    Validated {1, 2} (Digest.keyMap [0, 1, 2]) 3 1
        Config.small ∧
      ({0} : Finset Replica).card ≤ 1 ∧
      (∀ replica, replica ∉ ({0} : Finset Replica) →
        VotesOnce twinSigns replica) ∧
      ∃ (g g' : Replica → Node (Context Digest))
        (event event' : Replica × Event Digest),
        Machine.Reach (Network.step step)
            (Authentic {1, 2} (Digest.keyMap [0, 1, 2])
              twinSigns)
            (fun i => Node.new (Config.small i)) g ∧
          Authentic {1, 2} (Digest.keyMap [0, 1, 2])
            twinSigns g event ∧
          Network.step step g event = .ok g' ∧
          Authentic {1, 2} (Digest.keyMap [0, 1, 2])
            twinSigns g' event' ∧
          LogsWithin {1, 2} twinSigns g' ∧
          firstBlock.Proper ∧
          twinBlock.Proper ∧
          firstBlock.header.height =
            twinBlock.header.height ∧
          firstBlock ≠ twinBlock ∧
          MakesResponsive g event firstBlock.hash ∧
          MakesResponsive g' event' twinBlock.hash := by
  refine ⟨validated_keyMap (by decide) (by decide)
      (by decide) (fun _ _ => ⟨rfl, rfl, rfl, rfl⟩),
    by decide, twinSigns_once, ?_⟩
  have hRun :
      Machine.runCheck (Network.step step)
        (voteless {1, 2}) twinFinal
        (fun i => Node.new (Config.small i)) twinRun =
          true := by
    decide +kernel
  rcases Machine.Reach.of_runCheck
      authentic_of_voteless hRun with
    ⟨g, hReach, hFinal⟩
  unfold twinFinal at hFinal
  rw [Bool.and_eq_true] at hFinal
  rcases hFinal with ⟨hLeft, hRest⟩
  split at hRest
  · cases hRest
  · rename_i g' hStep
    rw [Bool.and_eq_true] at hRest
    rcases hRest with ⟨hRight, hLogs⟩
    rcases of_decide_eq_true hLogs with ⟨hOne, hTwo⟩
    refine ⟨g, g', _, _, hReach,
      authentic_leaderVote (by decide) (by decide)
        (Or.inl ⟨rfl, Or.inl rfl⟩),
      hStep,
      authentic_leaderVote (by decide) (by decide)
        (Or.inr ⟨rfl, Or.inl rfl⟩),
      logsWithin_of_logs twinVote ?_ ?_,
      Or.inr rfl, Or.inr rfl, rfl, by decide +kernel,
      makesResponsive_of_check hLeft,
      makesResponsive_of_check hRight⟩
    · intro i hHonest
      simp only [Finset.mem_insert, Finset.mem_singleton]
        at hHonest
      rcases hHonest with rfl | rfl
      · exact hOne
      · exact hTwo
    · intro i hHonest
      simp only [Finset.mem_insert, Finset.mem_singleton]
        at hHonest
      rcases hHonest with rfl | rfl
      · exact Or.inl ⟨rfl, Or.inr rfl⟩
      · exact Or.inr ⟨rfl, Or.inr rfl⟩

end Optsync

end LibApollo
