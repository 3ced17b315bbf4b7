import LibApollo.Optsync.ResponsiveQuorum
import LibApollo.Synchs.Steps

/-
  The certificates that nodes make of the votes they get, in
  Sync HotStuff and in Opt Sync.

  Votes are counted by the message.  The count is one of
  replicas as long as no replica is counted twice for a
  block, which the handlers do not check.

  Key definitions include:
    * `Synchs.ValidVote`, `Synchs.Backs`
    * `Synchs.Tally`, `Synchs.Repeats`
    * `Synchs.CountsOnce`, `Optsync.CountsOnce`

  Key theorems include:
    * `Synchs.certificates_backed`
    * `Synchs.voter_counted_twice`
    * `Optsync.responsive_votes_distinct`
    * `Optsync.repeated_vote_commits`
-/

------------------------------------------------------------
-- Counting Replicas
------------------------------------------------------------

namespace LibApollo

namespace Synchs

variable {H : Type} [Crypto H]
variable {keys : FinMap Replica Bytes}
variable {hash : H}
variable {old : Certificate H}
variable {vote : Vote}

/-
  The replica of the vote has signed one for the hash.  The
  view it signed is its own: the votes of a certificate may
  be for different views.
-/
def ValidVote
    (keys : FinMap Replica Bytes)
    (hash : H)
    (v : Vote) : Prop :=
  ∃ view publicKey,
    keys.lookup v.origin = some publicKey ∧
      Crypto.verify publicKey (.cert (.vote view hash))
        v.auth = true

/- There are valid votes of this many different replicas. -/
def Backs
    (keys : FinMap Replica Bytes)
    (hash : H)
    (cert : Certificate H)
    (count : Nat) : Prop :=
  ∃ quorum : Finset Replica,
    count ≤ quorum.card ∧
      ∀ replica ∈ quorum,
        ∃ v ∈ cert.votes,
          v.origin = replica ∧ ValidVote keys hash v

/- A replica that votes has a vote in the certificate. -/
def Repeats
    (c old : Certificate H) : Prop :=
  ∃ v ∈ c.votes, v.origin ∈ old.votes.map Vote.origin

/- All votes are valid, and no replica has two of them. -/
structure Tally
    (keys : FinMap Replica Bytes)
    (hash : H)
    (cert : Certificate H) : Prop where
  valid : ∀ v ∈ cert.votes, ValidVote keys hash v
  once : (cert.votes.map Vote.origin).Nodup

/- In a tally votes and voters are as many. -/
theorem Tally.backs
    {cert : Certificate H}
    {count : Nat}
    (hTally : Tally keys hash cert)
    (hCount : count ≤ cert.votes.length) :
    Backs keys hash cert count := by
  refine ⟨(cert.votes.map Vote.origin).toFinset, ?_, ?_⟩
  · rw [List.toFinset_card_of_nodup hTally.once,
      List.length_map]
    exact hCount
  · intro replica hMem
    rcases List.mem_map.mp (List.mem_toFinset.mp hMem) with
      ⟨v, hVote, hOrigin⟩
    exact ⟨v, hVote, hOrigin, hTally.valid v hVote⟩

/- There are no more replicas than the votes have. -/
theorem Backs.card_le
    {cert : Certificate H}
    {count : Nat}
    (hBacks : Backs keys hash cert count) :
    count ≤ (cert.votes.map Vote.origin).toFinset.card := by
  rcases hBacks with ⟨quorum, hCount, hVotes⟩
  apply Nat.le_trans hCount
  apply Finset.card_le_card
  intro replica hMem
  rcases hVotes replica hMem with ⟨v, hVote, hOrigin, _⟩
  rw [List.mem_toFinset, List.mem_map]
  exact ⟨v, hVote, hOrigin⟩

theorem tally_single
    {cert : Certificate H}
    (hVotes : cert.votes = [vote])
    (hValid : ValidVote keys hash vote) :
    Tally keys hash cert := by
  constructor
  · intro v hMem
    rw [hVotes, List.mem_singleton] at hMem
    rw [hMem]
    exact hValid
  · rw [hVotes]
    exact List.nodup_singleton _

/- The vote of a further replica. -/
theorem Tally.add
    {c : Certificate H}
    (hTally : Tally keys hash old)
    (hVotes : c.votes = [vote])
    (hValid : ValidVote keys hash vote)
    (hNew : ¬ Repeats c old) :
    Tally keys hash
      { old with votes := old.votes ++ [vote] } := by
  constructor
  · intro v hMem
    rcases List.mem_append.mp hMem with hOld | hLast
    · exact hTally.valid v hOld
    · rw [List.mem_singleton.mp hLast]
      exact hValid
  · rw [List.map_append]
    apply hTally.once.append (List.nodup_singleton _)
    intro origin hOld hLast
    apply hNew
    refine ⟨vote, ?_, ?_⟩
    · rw [hVotes]
      exact List.mem_singleton_self _
    · rw [List.mem_singleton.mp hLast] at hOld
      exact hOld

/- A vote that passes the checks is valid. -/
theorem validVote_of_check
    [DecidableEq H]
    {c : Certificate H}
    {p : Propose H}
    {cx : Context H}
    (hCheck : checkVote c p cx = .ok (some hash)) :
    hash = p.blockHash ∧
      ∃ vote, c.votes = [vote] ∧
        ValidVote cx.pubKeyMap hash vote := by
  rcases checkVote_some hCheck with
    ⟨view, vote, publicKey, _, hVotes, hNamed, hKey,
      hVerify, _⟩
  exact ⟨hNamed, vote, hVotes, view, publicKey, hKey,
    hVerify⟩

end Synchs

end LibApollo

------------------------------------------------------------
-- Sync HotStuff Certificates
------------------------------------------------------------

namespace LibApollo

namespace Synchs

variable {H : Type} [DecidableEq H] [Crypto H]
variable {config : Config}
variable {cx cx' : Context H}
variable {c : Certificate H}
variable {p : Propose H}

/-
  A vote message that the node would count is from a replica
  it has not counted yet for the block.
-/
def CountsOnce
    (node : Node (Context H))
    (event : Event H) : Prop :=
  ∀ c p hash old,
    event = .recv (.voteMsg c p) →
      checkVote c p node.cx = .ok (some hash) →
      node.cx.voteMap.lookup hash = some old →
      ¬ Repeats c old

/- Votes and what they are checked against are the same. -/
structure SameVotes (cx cx' : Context H) : Prop where
  numFaults : cx'.numFaults = cx.numFaults
  pubKeyMap : cx'.pubKeyMap = cx.pubKeyMap
  voteMap : cx'.voteMap = cx.voteMap
  certMap : cx'.certMap = cx.certMap

theorem sameVotes_onCommit
    (p : Propose H)
    (cx : Context H) :
    SameVotes cx (onCommit p cx) := by
  rcases onCommit_frame p cx with
    ⟨_, _, _, _, _, _, hEq⟩
  rw [hEq]
  exact ⟨rfl, rfl, rfl, rfl⟩

/- What grows is a tally, and what is finished a quorum. -/
structure TallyInv
    (config : Config)
    (cx : Context H) : Prop where
  numFaults : cx.numFaults = config.numFaults
  pubKeyMap : cx.pubKeyMap = config.pkMap
  growing :
    ∀ hash cert,
      cx.voteMap.lookup hash = some cert →
        Tally config.pkMap hash cert
  finished :
    ∀ hash cert,
      cx.certMap.lookup hash = some cert →
        hash ≠ (Block.genesis : Block H).hash →
        Backs config.pkMap hash cert (config.numFaults + 1)

theorem TallyInv.same
    (hInv : TallyInv config cx)
    (hSame : SameVotes cx cx') :
    TallyInv config cx' where
  numFaults := hSame.numFaults.trans hInv.numFaults
  pubKeyMap := hSame.pubKeyMap.trans hInv.pubKeyMap
  growing := by
    rw [hSame.voteMap]
    exact hInv.growing
  finished := by
    rw [hSame.certMap]
    exact hInv.finished

theorem TallyInv.addVote
    {hash : H}
    (hInv : TallyInv config cx)
    (hCheck : checkVote c p cx = .ok (some hash))
    (hOnce :
      ∀ old, cx.voteMap.lookup hash = some old →
        ¬ Repeats c old)
    (hAdd : Synchs.addVote c hash cx = .ok cx') :
    TallyInv config cx' := by
  rcases validVote_of_check hCheck with
    ⟨_, vote, hVotes, hValid⟩
  rw [hInv.pubKeyMap] at hValid
  rcases addVote_ok hVotes hAdd with
    ⟨rfl, _⟩ | ⟨_, ⟨_, rfl⟩ |
      ⟨old, hOld, ⟨hEnough, rfl⟩ | rfl⟩⟩
  · exact hInv
  · refine { hInv with growing := ?_ }
    exact FinMap.forall_insert hInv.growing
      (tally_single hVotes hValid)
  · have hTally :=
      (hInv.growing hash old hOld).add hVotes hValid
        (hOnce old hOld)
    refine { hInv with growing := ?_, finished := ?_ }
    · exact FinMap.forall_erase hInv.growing
    · intro other cert hLookup hOther
      dsimp only at hLookup
      rw [FinMap.lookup_insert_eq] at hLookup
      split at hLookup
      · rename_i hSame
        cases hLookup
        rw [hSame]
        rw [hInv.numFaults] at hEnough
        exact hTally.backs hEnough
      · exact hInv.finished other cert hLookup hOther
  · have hTally :=
      (hInv.growing hash old hOld).add hVotes hValid
        (hOnce old hOld)
    refine { hInv with growing := ?_ }
    intro other cert hLookup
    dsimp only at hLookup
    rw [FinMap.insert_erase_self,
      FinMap.lookup_insert_eq] at hLookup
    split at hLookup
    · rename_i hSame
      cases hLookup
      rw [hSame]
      exact hTally
    · exact hInv.growing other cert hLookup

theorem TallyInv.processMsg
    {node : Node (Context H)}
    {msg : ProtocolMsg H}
    (hInv : TallyInv config node.cx)
    (hOnce : CountsOnce node (.recv msg))
    (hProcess : Synchs.processMsg msg node.cx = .ok cx') :
    TallyInv config cx' := by
  cases processMsg_processed hProcess with
  | ignored => exact hInv
  | stored p block batch =>
      exact hInv.same ⟨rfl, rfl, rfl, rfl⟩
  | accepted p block batch =>
      exact hInv.same ⟨rfl, rfl, rfl, rfl⟩
  | counted c p decision voted hVote =>
      rcases onVote_ok hVote with rfl | ⟨hash, hCheck, hAdd⟩
      · exact hInv
      · exact hInv.addVote hCheck
          (fun old hOld =>
            hOnce c p hash old rfl hCheck hOld)
          hAdd

theorem TallyInv.propose
    {batchHash : H}
    {batch : Batch}
    (hInv : TallyInv config cx)
    (hPropose :
      Synchs.propose batchHash batch cx = .ok cx') :
    TallyInv config cx' := by
  rcases propose_ok hPropose with ⟨block, p, _, _, rfl⟩
  exact hInv.same ⟨rfl, rfl, rfl, rfl⟩

theorem TallyInv.step
    {node node' : Node (Context H)}
    {event : Event H}
    (hInv : TallyInv config node.cx)
    (hOnce : CountsOnce node event)
    (hStep : Synchs.step node event = .ok node') :
    TallyInv config node'.cx := by
  cases Protocol.step_ok hStep with
  | idle => exact hInv
  | recv msg cx _ hProcess =>
      exact hInv.processMsg hOnce hProcess
  | batch =>
      exact hInv.same ⟨rfl, rfl, rfl, rfl⟩
  | timer index p _ _ =>
      have hRemoved :
          TallyInv config (removeTimer index node.cx) :=
        hInv.same ⟨rfl, rfl, rfl, rfl⟩
      exact hRemoved.same (sameVotes_onCommit p _)
  | sealed =>
      exact hInv.same ⟨rfl, rfl, rfl, rfl⟩
  | propose batchHash batch rest cx _ _ hPropose =>
      have hKept :
          TallyInv config (keepBatches rest node.cx) :=
        hInv.same ⟨rfl, rfl, rfl, rfl⟩
      exact hKept.propose hPropose

theorem tallyInv_new
    (config : Config) :
    TallyInv config (Context.new config : Context H) where
  numFaults := rfl
  pubKeyMap := rfl
  growing := by
    intro hash cert hLookup
    simp [Context.new] at hLookup
  finished := by
    intro hash cert hLookup hOther
    simp only [Context.new] at hLookup
    rw [FinMap.lookup_insert_eq, if_neg hOther] at hLookup
    simp at hLookup

/-
  In every run in which no replica is counted twice for a
  block, a certificate of a block other than genesis has
  valid votes of more than `numFaults` replicas.
-/
theorem certificates_backed
    {node : Node (Context H)}
    (hReach :
      Machine.Reach step CountsOnce (Node.new config) node)
    (hash : H)
    (cert : Certificate H)
    (hCert : node.cx.certMap.lookup hash = some cert)
    (hOther : hash ≠ (Block.genesis : Block H).hash) :
    Backs config.pkMap hash cert (config.numFaults + 1) := by
  have hInv : TallyInv config node.cx := by
    apply hReach.invariant
      (fun node => TallyInv config node.cx)
      (tallyInv_new config)
    intro s s' event hInv hOnce hStep
    exact hInv.step hOnce hStep
  exact hInv.finished hash cert hCert hOther

/- Executable form of `Repeats`. -/
def repeatsCheck (c old : Certificate H) : Bool :=
  c.votes.any
    (fun v => decide (v.origin ∈ old.votes.map Vote.origin))

omit [DecidableEq H] [Crypto H] in
theorem not_repeats_of_repeatsCheck
    {c old : Certificate H}
    (hCheck : repeatsCheck c old = false) :
    ¬ Repeats c old := by
  intro hRepeats
  rcases hRepeats with ⟨v, hVote, hOld⟩
  have hNot := List.any_eq_false.mp hCheck v hVote
  exact hNot (decide_eq_true hOld)

/- Executable form of `CountsOnce`. -/
def countsOnceCheck
    (node : Node (Context H))
    (event : Event H) : Bool :=
  match event with
  | .recv (.voteMsg c p) =>
      match checkVote c p node.cx with
      | .ok (some hash) =>
          match node.cx.voteMap.lookup hash with
          | some old => !repeatsCheck c old
          | none => true
      | _ => true
  | _ => true

theorem countsOnce_of_check
    (node : Node (Context H))
    (event : Event H)
    (hCheck : countsOnceCheck node event = true) :
    CountsOnce node event := by
  intro c p hash old hEvent hChecked hOld
  rw [hEvent] at hCheck
  simp only [countsOnceCheck, hChecked, hOld,
    Bool.not_eq_true'] at hCheck
  exact not_repeats_of_repeatsCheck hCheck

open Optsync (firstBlock firstProposal votesFor)

/- The first proposal, and then a vote of each replica. -/
def votesOf (origins : List Replica) : List (Event Digest) :=
  .recv (.newProposal firstProposal firstBlock oneBatch) ::
    .internal ::
    origins.flatMap
      (fun origin =>
        [.recv
          (.voteMsg (votesFor [origin] firstBlock)
            firstProposal),
          .internal])

theorem certificates_backed_two_voters :
    ∃ node : Node (Context Digest),
      Machine.Reach step CountsOnce
          (Node.new (Config.small 1)) node ∧
        node.cx.certMap.lookup firstBlock.hash =
          some (votesFor [0, 2] firstBlock) ∧
        Backs (Digest.keyMap [0, 1, 2]) firstBlock.hash
          (votesFor [0, 2] firstBlock) 2 := by
  have hRun :
      Machine.runCheck step countsOnceCheck
        (fun node : Node (Context Digest) =>
          decide
            (node.cx.certMap.lookup firstBlock.hash =
              some (votesFor [0, 2] firstBlock)))
        (Node.new (Config.small 1)) (votesOf [0, 2]) =
          true := by
    decide +kernel
  rcases Machine.Reach.of_runCheck countsOnce_of_check hRun
    with ⟨node, hReach, hFinal⟩
  have hCert := of_decide_eq_true hFinal
  exact ⟨node, hReach, hCert,
    certificates_backed hReach _ _ hCert
      (by decide +kernel)⟩

/- One replica that votes twice makes a certificate. -/
theorem voter_counted_twice :
    ∃ (node : Node (Context Digest))
      (cert : Certificate Digest),
      Machine.Reach step (fun _ _ => True)
          (Node.new (Config.small 1)) node ∧
        node.cx.certMap.lookup firstBlock.hash =
          some cert ∧
        firstBlock.hash ≠
          (Block.genesis : Block Digest).hash ∧
        ¬ Backs (Config.small 1).pkMap firstBlock.hash cert
            ((Config.small 1).numFaults + 1) := by
  have hRun :
      Machine.runCheck step (fun _ _ => true)
        (fun node : Node (Context Digest) =>
          decide
            (node.cx.certMap.lookup firstBlock.hash =
              some (votesFor [0, 0] firstBlock)))
        (Node.new (Config.small 1)) (votesOf [0, 0]) =
          true := by
    decide +kernel
  rcases Machine.Reach.of_runCheck
      (fun _ _ _ => trivial) hRun with
    ⟨node, hReach, hFinal⟩
  refine ⟨node, _, hReach, of_decide_eq_true hFinal,
    by decide +kernel, ?_⟩
  intro hBacks
  exact absurd hBacks.card_le (by decide +kernel)

end Synchs

end LibApollo

------------------------------------------------------------
-- Opt Sync Certificates
------------------------------------------------------------

namespace LibApollo

namespace Optsync

open Synchs (Propose ProtocolMsg Config Node Event)
open Synchs (ValidVote Backs Tally Repeats)

variable {H : Type} [DecidableEq H] [Crypto H]
variable {config : Config}
variable {cx cx' : Context H}
variable {c : Certificate H}
variable {p : Propose H}

/-
  A vote message that the node would count is from a replica
  it has not counted yet for the block.
-/
def CountsOnce
    (node : Node (Context H))
    (event : Event H) : Prop :=
  ∀ c p hash old,
    event = .recv (.voteMsg c p) →
      Synchs.checkVote c p node.cx.toContext =
        .ok (some hash) →
      node.cx.respCert.lookup hash = none →
      node.cx.voteMap.lookup hash = some old →
      ¬ Repeats c old

/- What the node signs verifies under its public key. -/
def OwnKey (H : Type) [Crypto H] (config : Config) : Prop :=
  ∃ publicKey,
    config.pkMap.lookup config.id = some publicKey ∧
      ∀ data : SignData H,
        Crypto.verify publicKey data
          (Crypto.sign config.secretKeyBytes data) = true

structure TallyInv
    (config : Config)
    (cx : Context H) : Prop where
  myid : cx.myid = config.id
  numNodes : cx.numNodes = config.numNodes
  mySecretKey : cx.mySecretKey = config.secretKeyBytes
  pubKeyMap : cx.pubKeyMap = config.pkMap
  growing :
    ∀ hash cert,
      cx.voteMap.lookup hash = some cert →
        Tally config.pkMap hash cert

/- What is kept of a node, with other votes. -/
theorem TallyInv.same
    (hInv : TallyInv config cx)
    (hNode : SameNode cx cx')
    (hGrowing :
      ∀ hash cert,
        cx'.voteMap.lookup hash = some cert →
          Tally config.pkMap hash cert) :
    TallyInv config cx' where
  myid := hNode.myid.trans hInv.myid
  numNodes := hNode.numNodes.trans hInv.numNodes
  mySecretKey := hNode.mySecretKey.trans hInv.mySecretKey
  pubKeyMap := hNode.pubKeyMap.trans hInv.pubKeyMap
  growing := hGrowing

/- The own vote is valid and the only one. -/
theorem TallyInv.ownVote
    (hOwn : OwnKey H config)
    (hInv : TallyInv config cx)
    (hash : H) :
    Tally config.pkMap hash
      (Synchs.ownVote cx.toContext hash) := by
  rcases hOwn with ⟨publicKey, hKey, hVerify⟩
  apply Synchs.tally_single rfl
  refine ⟨cx.view, publicKey, ?_, ?_⟩
  · dsimp only
    rw [hInv.myid]
    exact hKey
  · dsimp only
    rw [hInv.mySecretKey]
    exact hVerify _

/- Votes of further replicas are added. -/
theorem TallyInv.ballots
    {node : Node (Context H)}
    {event : Event H}
    (hOwn : OwnKey H config)
    (hInv : TallyInv config node.cx)
    (hOnce : CountsOnce node event)
    (hNode : SameNode node.cx cx')
    (hBallots : Ballots node.cx event cx') :
    TallyInv config cx' := by
  apply hInv.same hNode
  cases hBallots with
  | kept hVotes _ =>
      rw [hVotes]
      exact hInv.growing
  | entered hash _ _ hVotes _ =>
      rw [hVotes]
      exact FinMap.forall_insert hInv.growing
        (hInv.ownVote hOwn hash)
  | first c p hash hEvent hCheck hVotes _ =>
      rcases Synchs.validVote_of_check hCheck with
        ⟨_, vote, hSingle, hValid⟩
      rw [hInv.pubKeyMap] at hValid
      rw [hVotes]
      exact FinMap.forall_insert hInv.growing
        (Synchs.tally_single hSingle hValid)
  | added c p hash vote old cert hEvent hCheck hNone hSingle
      hOld hCert hVotes _ =>
      rcases Synchs.validVote_of_check hCheck with
        ⟨_, other, hOther, hValid⟩
      rw [hInv.pubKeyMap] at hValid
      have hNew :=
        hOnce c p hash old hEvent hCheck hNone hOld
      rw [hSingle] at hOther
      cases hOther
      rw [hVotes, hCert]
      exact FinMap.forall_insert hInv.growing
        ((hInv.growing hash old hOld).add hSingle hValid
          hNew)

theorem TallyInv.step
    {node node' : Node (Context H)}
    {event : Event H}
    (hOwn : OwnKey H config)
    (hInv : TallyInv config node.cx)
    (hOnce : CountsOnce node event)
    (hStep : Optsync.step node event = .ok node') :
    TallyInv config node'.cx := by
  rcases step_ballots hStep with ⟨hNode, hBallots⟩
  exact hInv.ballots hOwn hOnce hNode hBallots

theorem tallyInv_new
    (config : Config) :
    TallyInv config (Context.new config : Context H) where
  myid := rfl
  numNodes := rfl
  mySecretKey := rfl
  pubKeyMap := rfl
  growing := by
    intro hash cert hLookup
    simp [Context.new, Synchs.Context.new] at hLookup

/-
  In every run in which no replica is counted twice for a
  block, a vote that makes the node commit completes a
  certificate with valid votes of three quarters of the
  nodes.
-/
theorem responsive_votes_distinct
    {node : Node (Context H)}
    (hOwn : OwnKey H config)
    (hReach :
      Machine.Reach step CountsOnce (Node.new config) node)
    (hOnce : CountsOnce node (.recv (.voteMsg c p)))
    (hVote : onVote c p node.cx = .ok (true, cx')) :
    ∃ cert,
      cx'.respCert.lookup p.blockHash = some cert ∧
        Backs config.pkMap p.blockHash cert
          ((3 * config.numNodes) / 4) := by
  have hInv : TallyInv config node.cx := by
    apply hReach.invariant
      (fun node => TallyInv config node.cx)
      (tallyInv_new config)
    intro s s' event hInv hOnce hStep
    exact hInv.step hOwn hOnce hStep
  rcases onVote_ballots hVote with ⟨hNode, hBallots⟩
  have hAfter := hInv.ballots hOwn hOnce hNode hBallots
  rcases onVote_true hVote with
    ⟨cert, hGrown, hCert, hQuorum⟩
  rw [responsiveQuorum, hInv.numNodes] at hQuorum
  exact ⟨cert, hCert,
    (hAfter.growing _ cert hGrown).backs hQuorum⟩

/- Executable form of `CountsOnce`. -/
def countsOnceCheck
    (node : Node (Context H))
    (event : Event H) : Bool :=
  match event with
  | .recv (.voteMsg c p) =>
      match Synchs.checkVote c p node.cx.toContext with
      | .ok (some hash) =>
          match node.cx.voteMap.lookup hash with
          | some old => !Synchs.repeatsCheck c old
          | none => true
      | _ => true
  | _ => true

theorem countsOnce_of_check
    (node : Node (Context H))
    (event : Event H)
    (hCheck : countsOnceCheck node event = true) :
    CountsOnce node event := by
  intro c p hash old hEvent hChecked _ hOld
  rw [hEvent] at hCheck
  simp only [countsOnceCheck, hChecked, hOld,
    Bool.not_eq_true'] at hCheck
  exact Synchs.not_repeats_of_repeatsCheck hCheck

/- The vote returns `true` and leaves this certificate. -/
def commitsWith
    (c : Certificate Digest)
    (cert : Certificate Digest)
    (node : Node (Context Digest)) : Bool :=
  match onVote c firstProposal node.cx with
  | .ok (true, cx) =>
      decide
        (cx.respCert.lookup firstBlock.hash = some cert)
  | _ => false

theorem onVote_of_commitsWith
    {c cert : Certificate Digest}
    {node : Node (Context Digest)}
    (hCheck : commitsWith c cert node = true) :
    ∃ cx,
      onVote c firstProposal node.cx = .ok (true, cx) ∧
        cx.respCert.lookup firstBlock.hash =
          some cert := by
  unfold commitsWith at hCheck
  split at hCheck
  · rename_i cx hVote
    exact ⟨cx, hVote, of_decide_eq_true hCheck⟩
  · cases hCheck

theorem ownKey_fourNodes : OwnKey Digest (fourNodes 1) := by
  refine ⟨Digest.keyOf 1, by decide +kernel, ?_⟩
  intro data
  exact decide_eq_true rfl

/- The own vote and those of replicas 0 and 3. -/
theorem responsive_votes_distinct_three :
    ∃ (node : Node (Context Digest))
      (cx : Context Digest),
      Machine.Reach step CountsOnce
          (Node.new (fourNodes 1)) node ∧
        onVote (votesFor [3] firstBlock) firstProposal
            node.cx = .ok (true, cx) ∧
        ∃ cert,
          cx.respCert.lookup firstBlock.hash = some cert ∧
            Backs (Digest.keyMap [0, 1, 2, 3])
              firstBlock.hash cert 3 := by
  have hRun :
      Machine.runCheck step countsOnceCheck
        (fun node =>
          commitsWith (votesFor [3] firstBlock)
              (votesFor [1, 0, 3] firstBlock) node &&
            countsOnceCheck node
              (.recv
                (.voteMsg (votesFor [3] firstBlock)
                  firstProposal)))
        (Node.new (fourNodes 1)) (Synchs.votesOf [0]) =
          true := by
    decide +kernel
  rcases Machine.Reach.of_runCheck countsOnce_of_check hRun
    with ⟨node, hReach, hFinal⟩
  rcases Bool.and_eq_true_iff.mp hFinal with
    ⟨hCommits, hOnce⟩
  rcases onVote_of_commitsWith hCommits with ⟨cx, hVote, _⟩
  exact ⟨node, cx, hReach, hVote,
    responsive_votes_distinct ownKey_fourNodes hReach
      (countsOnce_of_check _ _ hOnce) hVote⟩

/- The vote of replica 0, sent twice, is counted twice. -/
theorem repeated_vote_commits :
    OwnKey Digest (fourNodes 1) ∧
      ∃ (node : Node (Context Digest))
        (cx : Context Digest),
        Machine.Reach step (fun _ _ => True)
            (Node.new (fourNodes 1)) node ∧
          onVote (votesFor [0] firstBlock) firstProposal
              node.cx = .ok (true, cx) ∧
          ∀ cert,
            cx.respCert.lookup firstProposal.blockHash =
                some cert →
              ¬ Backs (fourNodes 1).pkMap
                  firstProposal.blockHash cert
                  ((3 * (fourNodes 1).numNodes) / 4) := by
  refine ⟨ownKey_fourNodes, ?_⟩
  have hRun :
      Machine.runCheck step (fun _ _ => true)
        (commitsWith (votesFor [0] firstBlock)
          (votesFor [1, 0, 0] firstBlock))
        (Node.new (fourNodes 1)) (Synchs.votesOf [0]) =
          true := by
    decide +kernel
  rcases Machine.Reach.of_runCheck
      (fun _ _ _ => trivial) hRun with
    ⟨node, hReach, hFinal⟩
  rcases onVote_of_commitsWith hFinal with
    ⟨cx, hVote, hCert⟩
  refine ⟨node, cx, hReach, hVote, ?_⟩
  intro cert hLookup hBacks
  have hSame : votesFor [1, 0, 0] firstBlock = cert :=
    Option.some.inj (hCert.symm.trans hLookup)
  rw [← hSame] at hBacks
  exact absurd hBacks.card_le (by decide +kernel)

end Optsync

end LibApollo
