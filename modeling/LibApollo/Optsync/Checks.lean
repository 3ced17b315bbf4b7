import LibApollo.Optsync.ResponsiveQuorum

/-
  What the checks of a message let through, and the messages
  that stop a node, in Sync HotStuff and in Opt Sync.

  The checks of a proposal count the voters of its
  certificate with an early test on the number of votes and
  a late one on the number of voters, and the two do not
  agree.  A node stops at a proposal of the leader that is
  marked with another view, and at a single vote of a known
  replica that is of another type.

  Key definitions include:
    * `Synchs.ParentCertified`
    * `Synchs.Vouched`, `Synchs.Stops`

  Key theorems include:
    * `Optsync.accepted_parent_certified_iff`
    * `Optsync.processMsg_returns_iff`
-/

------------------------------------------------------------
-- Certificates of Parents
------------------------------------------------------------

namespace LibApollo

namespace Synchs

open Optsync (voters)

variable {H : Type} [DecidableEq H] [Crypto H]
variable {p : Propose H} {block : Block H}
variable {cx : Context H}

/- A quorum has certified the last seen block. -/
structure ParentCertified
    (cx : Context H)
    (p : Propose H)
    (block : Block H) : Prop where
  cert : ∃ view, p.cert.msg = .vote view block.header.prev
  signed : ∀ v ∈ p.cert.votes, SignedVote cx p.cert.msg v
  quorum : cx.numFaults + 1 ≤ (voters p.cert).card
  parent : block.header.prev = cx.lastSeenBlock.hash

/- One voter too few is let through, and nothing else. -/
theorem parentCertified_iff
    (hHeight : 1 < block.header.height)
    (hCheck : checkProposal p block cx = .ok true) :
    ParentCertified cx p block ↔
      (voters p.cert).card ≠ cx.numFaults := by
  rcases checkProposal_true hCheck with
    ⟨_, _, _, _, _, hLater⟩
  rcases checkParentCert_true (hLater (by omega)) with
    ⟨hCert, hSigned, hVoters, hParent⟩
  constructor
  · intro hCertified hEq
    have hQuorum := hCertified.quorum
    omega
  · intro hNe
    refine ⟨hCert, hSigned, ?_, hParent⟩
    change cx.numFaults ≤ (voters p.cert).card at hVoters
    omega

end Synchs

namespace Optsync

open Synchs (Propose Panic Config ParentCertified)

variable {H : Type} [DecidableEq H] [Crypto H]

/-
  An accepted proposal above height one has the certificate
  of a quorum for its parent exactly when its votes are not
  from `numFaults` replicas.
-/
theorem accepted_parent_certified_iff :
    (∀ (p : Propose H) (block : Block H)
        (cx : Synchs.Context H),
      1 < block.header.height →
        Synchs.checkProposal p block cx = .ok true →
        (ParentCertified cx p block ↔
          (voters p.cert).card ≠ cx.numFaults)) ∧
      ∀ (p : Propose H) (block : Block H) (cx : Context H),
        1 < block.header.height →
          checkProposal p block cx = .ok true →
          (ParentCertified cx.toContext p block ↔
            (voters p.cert).card ≠ cx.numFaults) := by
  constructor
  · intro p block cx hHeight hCheck
    exact Synchs.parentCertified_iff hHeight hCheck
  · intro p block cx hHeight hCheck
    exact Synchs.parentCertified_iff hHeight hCheck

/- A node of three that has seen the first block. -/
def seenFirst : Context Digest :=
  (Context.new (Config.small 1)).lift
    (fun cx => { cx with lastSeenBlock := firstBlock })

theorem accepted_parent_certified_two_voters :
    ParentCertified seenFirst.toContext secondProposal
        secondBlock ∧
      checkProposal secondProposal secondBlock seenFirst =
        .ok true := by
  have hCheck :
      checkProposal secondProposal secondBlock seenFirst =
        .ok true := by
    decide +kernel
  refine ⟨?_, hCheck⟩
  exact
    (accepted_parent_certified_iff.2 secondProposal
      secondBlock seenFirst (by decide) hCheck).mpr
      (by decide +kernel)

/- Two votes of replica 0 certify the first block. -/
theorem single_voter_accepted :
    let p :=
      proposalOf secondBlock (votesFor [0, 0] firstBlock)
    1 < secondBlock.header.height ∧
      Synchs.checkProposal p secondBlock
          seenFirst.toContext = .ok true ∧
      checkProposal p secondBlock seenFirst = .ok true ∧
      ¬ ParentCertified seenFirst.toContext p
          secondBlock := by
  refine ⟨by decide, by decide +kernel, by decide +kernel,
    ?_⟩
  intro hCertified
  exact absurd hCertified.quorum (by decide +kernel)

end Optsync

end LibApollo

------------------------------------------------------------
-- Messages That Stop a Node
------------------------------------------------------------

namespace LibApollo

namespace Synchs

variable {H : Type} [DecidableEq H] [Crypto H]
variable {p : Propose H} {block : Block H} {batch : Batch}
variable {c : Certificate H} {cx : Context H}

/- What is checked of a proposal before its view. -/
structure Vouched
    (cx : Context H)
    (p : Propose H)
    (block : Block H) : Prop where
  hash : block.hash = p.blockHash
  author : block.header.author = cx.leaderOfView
  first :
    block.header.height = 1 →
      block.header.prev = Crypto.emptyHash
  votes :
    1 < block.header.height →
      cx.numFaults < p.cert.votes.length
  proof :
    ∃ publicKey,
      cx.pubKeyMap.lookup block.header.author =
          some publicKey ∧
        Crypto.verify publicKey (.hash block.hash) p.proof =
          true

/-
  The messages that stop a node: a new block that the leader
  has signed, with a view that is not the current one, and a
  single vote of a known replica that is not of vote type.
-/
def Stops (cx : Context H) : ProtocolMsg H → Prop
| .newProposal p block _ =>
    cx.storage.isDeliveredByHash block.hash = false ∧
      Vouched cx p block ∧ cx.view ≠ p.view
| .voteMsg c _ =>
    ∃ v,
      c.votes = [v] ∧
        (cx.pubKeyMap.lookup v.origin).isSome = true ∧
        ∀ view hash, c.msg ≠ .vote view hash
| _ => False

/- The leader of the view is a known replica. -/
def KnowsLeader (cx : Context H) : Prop :=
  (cx.pubKeyMap.lookup cx.leaderOfView).isSome = true

theorem checkProposal_of_vouched
    (hVouched : Vouched cx p block) :
    checkProposal p block cx =
      if cx.view ≠ p.view then .error .viewCheck
      else if block.header.height = 1 then .ok true
      else .ok (checkParentCert p block cx) := by
  rcases hVouched.proof with ⟨publicKey, hKey, hVerify⟩
  have hFirst :
      ¬ (block.header.height = 1 ∧
        block.header.prev ≠ Crypto.emptyHash) :=
    fun hBoth => hBoth.2 (hVouched.first hBoth.1)
  have hVotes :
      ¬ (1 < block.header.height ∧
        p.cert.votes.length ≤ cx.numFaults) :=
    fun hBoth =>
      Nat.not_le_of_lt (hVouched.votes hBoth.1) hBoth.2
  unfold checkProposal
  rw [if_neg (not_not.mpr hVouched.hash),
    if_neg (not_not.mpr hVouched.author), if_neg hFirst,
    if_neg hVotes, hKey]
  simp only [hVerify, Bool.not_true, Bool.false_eq_true,
    if_false]

theorem checkProposal_of_not_vouched
    (hLeader : KnowsLeader cx)
    (hNot : ¬ Vouched cx p block) :
    checkProposal p block cx = .ok false := by
  unfold checkProposal
  split
  · rfl
  · rename_i hHash
    split
    · rfl
    · rename_i hAuthor
      split
      · rfl
      · rename_i hFirst
        split
        · rfl
        · rename_i hVotes
          split
          · rename_i hKey
            rw [not_not.mp hAuthor] at hKey
            rw [KnowsLeader, hKey] at hLeader
            cases hLeader
          · rename_i publicKey hKey
            split
            · rfl
            · rename_i hVerify
              refine absurd ?_ hNot
              refine
                { hash := not_not.mp hHash
                  author := not_not.mp hAuthor
                  first := ?_
                  votes := ?_
                  proof :=
                    ⟨publicKey, hKey, by
                      simpa using hVerify⟩ }
              · intro hHeight
                by_contra hPrev
                exact hFirst ⟨hHeight, hPrev⟩
              · intro hHeight
                by_contra hFew
                exact hVotes ⟨hHeight, by omega⟩

/- The checks of a proposal stop at its view. -/
theorem checkProposal_returns_iff
    (hLeader : KnowsLeader cx) :
    (∃ valid, checkProposal p block cx = .ok valid) ↔
      ¬ (Vouched cx p block ∧ cx.view ≠ p.view) := by
  by_cases hVouched : Vouched cx p block
  · rw [checkProposal_of_vouched hVouched]
    by_cases hView : cx.view = p.view
    · rw [if_neg (not_not.mpr hView)]
      refine iff_of_true ?_
        (fun hStops => hStops.2 hView)
      split
      · exact ⟨_, rfl⟩
      · exact ⟨_, rfl⟩
    · rw [if_pos hView]
      refine iff_of_false ?_
        (fun hNot => hNot ⟨hVouched, hView⟩)
      intro hReturns
      rcases hReturns with ⟨valid, hOk⟩
      cases hOk
  · rw [checkProposal_of_not_vouched hLeader hVouched]
    exact iff_of_true ⟨_, rfl⟩
      (fun hStops => hVouched hStops.1)

theorem checkReceived_returns_iff
    (hLeader : KnowsLeader cx) :
    (∃ passed,
        checkReceived p block batch cx = .ok passed) ↔
      ¬ Stops cx (.newProposal p block batch) := by
  unfold checkReceived Stops
  split
  · rename_i hDelivered
    refine iff_of_true ⟨_, rfl⟩ ?_
    intro hStops
    rw [hStops.1] at hDelivered
    cases hDelivered
  · rename_i hFresh
    rw [Result.bind_returns_iff,
      checkProposal_returns_iff hLeader]
    · simp [hFresh]
    · intro valid _
      cases valid with
      | false => exact ⟨_, rfl⟩
      | true => exact ⟨_, rfl⟩

/- The checks of a vote stop at its type. -/
theorem checkVote_returns_iff :
    (∃ checked, checkVote c p cx = .ok checked) ↔
      ¬ Stops cx (.voteMsg c p) := by
  unfold checkVote
  split
  · rename_i v hVotes
    split
    · rename_i hKey
      refine iff_of_true ⟨_, rfl⟩ ?_
      intro hStops
      rcases hStops with ⟨v', hVotes', hKnown, _⟩
      rw [hVotes, List.singleton_inj] at hVotes'
      rw [← hVotes', hKey] at hKnown
      cases hKnown
    · rename_i publicKey hKey
      split
      · rename_i view hash hMsg
        refine iff_of_true ?_ ?_
        · split
          · exact ⟨_, rfl⟩
          · split
            · exact ⟨_, rfl⟩
            · split
              · exact ⟨_, rfl⟩
              · rename_i hDelivered
                -- a delivered block is found in the index
                rw [Storage.isDeliveredByHash] at hDelivered
                split
                · rename_i hNone
                  rw [hNone] at hDelivered
                  exact absurd rfl hDelivered
                · split
                  · exact ⟨_, rfl⟩
                  · split
                    · exact ⟨_, rfl⟩
                    · exact ⟨_, rfl⟩
        · intro hStops
          rcases hStops with ⟨_, _, _, hType⟩
          exact hType view hash hMsg
      · rename_i hMsg
        refine iff_of_false ?_ ?_
        · intro hReturns
          rcases hReturns with ⟨checked, hOk⟩
          cases hOk
        · intro hNot
          apply hNot
          refine ⟨v, hVotes, ?_, ?_⟩
          · rw [hKey]
            rfl
          · intro view hash hEq
            exact hMsg view hash hEq
  · rename_i hVotes
    refine iff_of_true ⟨_, rfl⟩ ?_
    intro hStops
    rcases hStops with ⟨v, hSingle, _⟩
    exact hVotes v hSingle

omit [DecidableEq H] [Crypto H] in
/- A single vote is always added. -/
theorem addLastVote_returns
    {v : Vote}
    (hVotes : c.votes = [v])
    (cert : Certificate H) :
    addLastVote c cert =
      .ok { cert with votes := cert.votes ++ [v] } := by
  simp [addLastVote, hVotes]

omit [Crypto H] in
theorem addVote_returns
    {hash : H}
    {v : Vote}
    (hVotes : c.votes = [v]) :
    ∃ cx', addVote c hash cx = .ok cx' := by
  unfold addVote
  split
  · exact ⟨_, rfl⟩
  · split
    · exact ⟨_, rfl⟩
    · apply (Result.bind_returns_iff _).mpr
      · exact ⟨_, addLastVote_returns hVotes _⟩
      · intro cert _
        dsimp only
        split
        · exact ⟨_, rfl⟩
        · exact ⟨_, rfl⟩

/- A message is processed unless it stops the node. -/
theorem processMsg_returns
    (hLeader : KnowsLeader cx)
    (msg : ProtocolMsg H) :
    (∃ cx', processMsg msg cx = .ok cx') ↔
      ¬ Stops cx msg := by
  cases msg with
  | newProposal p block batch =>
      rw [← checkReceived_returns_iff hLeader]
      unfold processMsg onReceiveProposal
      rw [Result.bind_returns_iff, Result.bind_returns_iff]
      · intro passed _
        cases passed with
        | false => exact ⟨_, rfl⟩
        | true => exact ⟨_, rfl⟩
      · intro received _
        dsimp only
        split
        · exact ⟨_, rfl⟩
        · exact ⟨_, rfl⟩
  | voteMsg c p =>
      rw [← checkVote_returns_iff]
      unfold processMsg onVote
      rw [Result.bind_returns_iff, Result.bind_returns_iff]
      · intro checked hChecked
        cases checked with
        | none => exact ⟨_, rfl⟩
        | some hash =>
            rcases checkVote_some hChecked with
              ⟨_, v, _, _, hVotes, _⟩
            rcases addVote_returns hVotes with ⟨cx', hAdd⟩
            exact ⟨_, Result.bind_eq_ok.mpr
              ⟨cx', hAdd, rfl⟩⟩
      · intro voted _
        exact ⟨_, rfl⟩
  | _ =>
      refine iff_of_true ⟨cx, rfl⟩ ?_
      intro hStops
      exact hStops

end Synchs

end LibApollo

------------------------------------------------------------
-- Runs Without a Stop
------------------------------------------------------------

namespace LibApollo

namespace Optsync

open Synchs (Propose ProtocolMsg Config Node Event Stops
  KnowsLeader)

variable {H : Type} [DecidableEq H] [Crypto H]
variable {config : Config}
variable {cx cx' : Context H}
variable {c : Certificate H}

omit [Crypto H] in
/- The votes a node collects are for delivered blocks. -/
def VotesDelivered (cx : Context H) : Prop :=
  ∀ hash,
    (cx.voteMap.lookup hash).isSome = true →
      cx.storage.isDeliveredByHash hash = true

omit [Crypto H] in
/- Votes are entered for a delivered block. -/
theorem VotesDelivered.insert
    {hash : H}
    {cert : Certificate H}
    (hVoted : VotesDelivered cx)
    (hNode : SameNode cx cx')
    (hMap : cx'.voteMap = cx.voteMap.insert hash cert)
    (hStored :
      cx'.storage.isDeliveredByHash hash = true) :
    VotesDelivered cx' := by
  intro other hSome
  rw [hMap, FinMap.lookup_insert_eq] at hSome
  by_cases hSame : other = hash
  · rw [hSame]
    exact hStored
  · rw [if_neg hSame] at hSome
    exact hNode.delivered other (hVoted other hSome)

theorem VotesDelivered.step
    {node node' : Node (Context H)}
    {event : Event H}
    (hVoted : VotesDelivered node.cx)
    (hStep : Optsync.step node event = .ok node') :
    VotesDelivered node'.cx := by
  rcases step_ballots hStep with ⟨hNode, hBallots⟩
  -- only votes for delivered blocks pass the checks
  have hChecked :
      ∀ c p hash,
        Synchs.checkVote c p node.cx.toContext =
            .ok (some hash) →
          node'.cx.storage.isDeliveredByHash hash =
            true := by
    intro c p hash hCheck
    rcases Synchs.checkVote_some hCheck with
      ⟨_, _, _, _, _, _, _, _, hDelivered⟩
    exact hNode.delivered hash hDelivered
  cases hBallots with
  | kept hVotes _ =>
      intro hash hSome
      rw [hVotes] at hSome
      exact hNode.delivered hash (hVoted hash hSome)
  | entered hash _ hDelivered hVotes _ =>
      exact hVoted.insert hNode hVotes hDelivered
  | first c p hash _ hCheck hVotes _ =>
      exact hVoted.insert hNode hVotes
        (hChecked c p hash hCheck)
  | added c p hash _ _ _ _ hCheck _ _ _ _ hVotes _ =>
      exact hVoted.insert hNode hVotes
        (hChecked c p hash hCheck)

/- A block that passes the checks has no votes yet. -/
theorem VotesDelivered.lookup_of_received
    {p : Propose H}
    {block : Block H}
    {batch : Batch}
    (hVoted : VotesDelivered cx)
    (hReceived :
      checkReceived p block batch cx = .ok true) :
    cx.voteMap.lookup p.blockHash = none := by
  rcases Synchs.checkReceived_true hReceived with
    ⟨hFresh, hCheck, _⟩
  rw [(Synchs.checkProposal_true hCheck).1] at hFresh
  by_contra hSome
  have hDelivered :=
    hVoted p.blockHash
      (Option.isSome_iff_ne_none.mpr hSome)
  rw [hFresh] at hDelivered
  cases hDelivered

omit [Crypto H] in
theorem addVote_returns
    {hash : H}
    {v : Vote}
    (hVotes : c.votes = [v]) :
    ∃ result, addVote c hash cx = .ok result := by
  unfold addVote
  split
  · exact ⟨_, rfl⟩
  · apply (Result.bind_returns_iff _).mpr
    · exact ⟨_, Synchs.addLastVote_returns hVotes _⟩
    · intro cert _
      exact ⟨_, rfl⟩

/- A message is processed unless it stops the node. -/
theorem processMsg_returns
    (hLeader : KnowsLeader cx.toContext)
    (hVoted : VotesDelivered cx)
    (msg : ProtocolMsg H) :
    (∃ cx', processMsg msg cx = .ok cx') ↔
      ¬ Stops cx.toContext msg := by
  cases msg with
  | newProposal p block batch =>
      rw [← Synchs.checkReceived_returns_iff hLeader]
      unfold processMsg onReceiveProposal
      rw [Result.bind_returns_iff, Result.bind_returns_iff]
      · rfl
      · intro passed hPassed
        cases passed with
        | false => exact ⟨_, rfl⟩
        | true =>
            have hNone := hVoted.lookup_of_received hPassed
            simp only [if_true]
            unfold onNewValidProposal
            split
            · exact ⟨_, rfl⟩
            · dsimp only
              split
              · rename_i vote hSome
                cases hNone.symm.trans hSome
              · exact ⟨_, rfl⟩
      · intro received _
        dsimp only
        split
        · exact ⟨_, rfl⟩
        · exact ⟨_, rfl⟩
  | voteMsg c p =>
      rw [← Synchs.checkVote_returns_iff]
      unfold processMsg onVote
      rw [Result.bind_returns_iff, Result.bind_returns_iff]
      · intro checked hChecked
        cases checked with
        | none => exact ⟨_, rfl⟩
        | some hash =>
            dsimp only
            split
            · exact ⟨_, rfl⟩
            · rcases Synchs.checkVote_some hChecked with
                ⟨_, v, _, _, hVotes, _⟩
              exact addVote_returns hVotes
      · intro voted _
        dsimp only
        split
        · exact ⟨_, rfl⟩
        · exact ⟨_, rfl⟩
  | _ =>
      refine iff_of_true ⟨cx, rfl⟩ ?_
      intro hStops
      exact hStops

theorem votesDelivered_new
    (config : Config) :
    VotesDelivered (Context.new config : Context H) := by
  intro hash hSome
  simp [Context.new, Synchs.Context.new] at hSome

/- Every replica has a public key, the leader too. -/
structure CompleteKeys (config : Config) : Prop where
  member : config.id < config.numNodes
  keys :
    ∀ replica < config.numNodes,
      (config.pkMap.lookup replica).isSome = true

omit [Crypto H] in
theorem CompleteKeys.knowsLeader
    {cx : Synchs.Context H}
    (hKeys : CompleteKeys config)
    (hFollows : cx.ledger.Follows config) :
    KnowsLeader cx := by
  have hNodes : cx.numNodes = config.numNodes :=
    hFollows.numNodes
  have hMap : cx.pubKeyMap = config.pkMap :=
    hFollows.pubKeyMap
  unfold KnowsLeader Synchs.Context.leaderOfView
  rw [hNodes, hMap]
  apply hKeys.keys
  apply Nat.mod_lt
  exact Nat.zero_lt_of_lt hKeys.member

/-
  In every reachable state of a node with all public keys a
  message is processed, and does not stop the node, exactly
  when it is not one of those that `Stops` names.
-/
theorem processMsg_returns_iff
    (hKeys : CompleteKeys config) :
    (∀ node : Node (Synchs.Context H),
      Machine.Reach Synchs.step (fun _ _ => True)
          (Synchs.Node.new config) node →
        ∀ msg : ProtocolMsg H,
          (∃ cx, Synchs.processMsg msg node.cx = .ok cx) ↔
            ¬ Stops node.cx msg) ∧
      ∀ node : Node (Context H),
        Machine.Reach step (fun _ _ => True)
            (Node.new config) node →
          ∀ msg : ProtocolMsg H,
            (∃ cx, processMsg msg node.cx = .ok cx) ↔
              ¬ Stops node.cx.toContext msg := by
  constructor
  · intro node hReach msg
    have hFollows :=
      Synchs.protocol_refines.follows
        (Synchs.follows_new config) hReach
    exact Synchs.processMsg_returns
      (hKeys.knowsLeader hFollows) msg
  · intro node hReach msg
    have hFollows :=
      protocol_refines.follows
        (Synchs.follows_new config) hReach
    have hVoted : VotesDelivered node.cx := by
      apply hReach.invariant
        (fun node => VotesDelivered node.cx)
        (votesDelivered_new config)
      intro s s' event hVoted _ hStep
      exact hVoted.step hStep
    exact processMsg_returns (hKeys.knowsLeader hFollows)
      hVoted msg

theorem completeKeys_small :
    CompleteKeys (Config.small 1) := by
  have hAll :
      ∀ replica < 3,
        ((Digest.keyMap [0, 1, 2]).lookup replica).isSome =
          true := by
    decide +kernel
  exact ⟨by decide, hAll⟩

theorem processMsg_returns_first :
    CompleteKeys (Config.small 1) ∧
      (∃ cx,
        Synchs.processMsg
            (.newProposal firstProposal firstBlock oneBatch)
            (Synchs.Node.new (Config.small 1)).cx =
          .ok cx) ∧
      ∃ cx,
        processMsg
            (.newProposal firstProposal firstBlock oneBatch)
            (Node.new (Config.small 1)).cx = .ok cx := by
  refine ⟨completeKeys_small, ?_, ?_⟩
  · apply ((processMsg_returns_iff completeKeys_small).1 _
      .start _).mpr
    intro hStops
    exact hStops.2.2 rfl
  · apply ((processMsg_returns_iff completeKeys_small).2 _
      .start _).mpr
    intro hStops
    exact hStops.2.2 rfl

/- The first proposal of the leader in another view. -/
def movedProposal : Propose Digest :=
  { firstProposal with view := 1 }

/- A blame certificate in place of a vote. -/
def blameVote : Certificate Digest :=
  { votesFor [2] firstBlock with msg := .blame 0 0 }

theorem stops_moved_and_blame :
    Stops (Synchs.Context.new (Config.small 1))
        (.newProposal movedProposal firstBlock oneBatch) ∧
      Stops (Synchs.Context.new (Config.small 1))
        (.voteMsg blameVote firstProposal) := by
  constructor
  · refine ⟨by decide +kernel, ?_, by decide⟩
    refine
      { hash := rfl
        author := by decide
        first := fun _ => by decide +kernel
        votes := fun hHeight =>
          absurd hHeight (by decide)
        proof := ⟨Digest.keyOf 0, by decide +kernel, ?_⟩ }
    exact decide_eq_true rfl
  · refine ⟨_, rfl, by decide +kernel, ?_⟩
    intro view hash hEq
    cases hEq

/-
  The captured first proposal with its view changed, and a
  vote message of blame type, stop a node that has just
  started.
-/
theorem altered_message_stops :
    CompleteKeys (Config.small 1) ∧
      ∀ msg ∈
          [ProtocolMsg.newProposal movedProposal firstBlock
              oneBatch,
            .voteMsg blameVote firstProposal],
        (∀ cx,
          Synchs.processMsg msg
              (Synchs.Node.new (Config.small 1)).cx ≠
            .ok cx) ∧
          ∀ cx,
            processMsg msg (Node.new (Config.small 1)).cx ≠
              .ok cx := by
  refine ⟨completeKeys_small, ?_⟩
  intro msg hMem
  have hStops :
      Stops (Synchs.Context.new (Config.small 1)) msg := by
    rcases List.mem_cons.mp hMem with rfl | hMem
    · exact stops_moved_and_blame.1
    · rw [List.mem_singleton.mp hMem]
      exact stops_moved_and_blame.2
  have hFollows :=
    Synchs.follows_new (H := Digest) (Config.small 1)
  have hLeader :=
    completeKeys_small.knowsLeader hFollows
  constructor
  · intro cx hOk
    exact (Synchs.processMsg_returns hLeader msg).mp
      ⟨cx, hOk⟩ hStops
  · intro cx hOk
    refine (processMsg_returns hLeader ?_ msg).mp ⟨cx, hOk⟩
      hStops
    exact votesDelivered_new (Config.small 1)

end Optsync

end LibApollo
