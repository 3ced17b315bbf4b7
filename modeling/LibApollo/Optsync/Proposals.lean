import LibApollo.Optsync.Tallies
import LibApollo.Optsync.Checks
import LibApollo.Optsync.VoteChain

/-
  The proposals of an Opt Sync leader and the checks they
  meet.

  A leader adds every vote for a block to the certificate
  that grows for it, whatever view the vote is for, while a
  replica checks all votes of a certificate against the one
  message it carries, and counts the replicas.  The two
  agree in the runs in which each vote that is added is
  signed for the message of its certificate, and no
  certificate is finished with too few replicas.

  Key definitions include:
    * `Signs`, `Uniform`, `Convincing`
    * `Ready`, `Passes`
    * `VoteFits`, `Steady`
    * `PoolInv`, `ProposerInv`

  Key theorems include:
    * `passes_of_convincing`
    * `PoolInv.step`, `ProposerInv.step`
    * `proposals_pass`
-/

------------------------------------------------------------
-- Certificates That Pass
------------------------------------------------------------

namespace LibApollo

namespace Optsync

open Synchs (Propose ProtocolMsg Config Node Event)

variable {H : Type} [DecidableEq H] [Crypto H]
variable {keys : FinMap Replica Bytes}
variable {hash : H}
variable {cert : Certificate H}
variable {p : Propose H} {block : Block H}
variable {cx : Synchs.Context H}

omit [DecidableEq H] in
/- The replica of the vote has signed the message. -/
def Signs
    (keys : FinMap Replica Bytes)
    (msg : CertType H)
    (v : Vote) : Prop :=
  ∃ publicKey,
    keys.lookup v.origin = some publicKey ∧
      Crypto.verify publicKey (.cert msg) v.auth = true

/- All votes are signed for the one message about a hash. -/
structure Uniform
    (keys : FinMap Replica Bytes)
    (hash : H)
    (cert : Certificate H) : Prop where
  msg : ∃ view, cert.msg = .vote view hash
  signed : ∀ v ∈ cert.votes, Signs keys cert.msg v

/- A certificate that the checks let through. -/
structure Convincing
    (config : Config)
    (hash : H)
    (cert : Certificate H) : Prop extends
    Uniform config.pkMap hash cert where
  votes : config.numFaults < cert.votes.length
  voters : config.numFaults ≤ (Optsync.voters cert).card

/-
  A replica that is to check a proposal: it is in the view
  of the proposal, tolerates as many faults, has all public
  keys, and has seen the parent last.
-/
structure Ready
    (config : Config)
    (p : Propose H)
    (block : Block H)
    (cx : Synchs.Context H) : Prop where
  view : cx.view = p.view
  numFaults : cx.numFaults = config.numFaults
  keys :
    ∀ replica publicKey,
      config.pkMap.lookup replica = some publicKey →
        cx.pubKeyMap.lookup replica = some publicKey
  lastSeen : cx.lastSeenBlock.hash = block.header.prev

/- Every replica that is ready accepts the proposal. -/
def Passes
    (config : Config)
    (p : Propose H)
    (block : Block H) : Prop :=
  ∀ cx : Context H,
    Ready config p block cx.toContext →
      checkProposal p block cx = .ok true

/- The loop over signed votes goes through them all. -/
theorem uniqVotes_of_signed
    {msg : CertType H}
    {votes : List Vote}
    (hSigned : ∀ v ∈ votes, Synchs.SignedVote cx msg v)
    (start : Finset Replica) :
    Synchs.uniqVotes cx msg start votes =
      some (start ∪ (votes.map Vote.origin).toFinset) := by
  induction votes generalizing start with
  | nil => simp [Synchs.uniqVotes]
  | cons v votes ih =>
      rcases hSigned v List.mem_cons_self with
        ⟨publicKey, hKey, hVerify⟩
      have hRest :=
        ih (fun other hMem =>
          hSigned other (List.mem_cons_of_mem _ hMem))
      simp only [Synchs.uniqVotes, hKey, hVerify, if_true]
      rw [hRest]
      simp [Finset.insert_union]

/- A convincing certificate for the last seen block. -/
theorem checkParentCert_of_convincing
    {config : Config}
    (hReady : Ready config p block cx)
    (hCert :
      Convincing config block.header.prev p.cert) :
    Synchs.checkParentCert p block cx = true := by
  have hSigned :
      ∀ v ∈ p.cert.votes,
        Synchs.SignedVote cx p.cert.msg v := by
    intro v hMem
    rcases hCert.signed v hMem with
      ⟨publicKey, hKey, hVerify⟩
    exact ⟨publicKey, hReady.keys _ _ hKey, hVerify⟩
  have hVoters := uniqVotes_of_signed hSigned ∅
  rw [Finset.empty_union] at hVoters
  have hEnough :
      ¬ (p.cert.votes.map Vote.origin).toFinset.card <
          cx.numFaults := by
    rw [hReady.numFaults]
    exact Nat.not_lt_of_le hCert.voters
  rcases hCert.msg with ⟨view, hMsg⟩
  unfold Synchs.checkParentCert
  rw [hVoters, hMsg]
  dsimp only
  rw [if_neg (not_not.mpr rfl), if_neg hEnough]
  exact decide_eq_true hReady.lastSeen.symm

/- A leader's proposal of a block with a good certificate. -/
theorem passes_of_convincing
    {config : Config}
    (hLeader : config.id = 0)
    (hOwn : OwnKey H config)
    (hAuthor : block.header.author = config.id)
    (hHeight : 1 < block.header.height)
    (hHash : p.blockHash = block.hash)
    (hProof :
      p.proof =
        Crypto.sign config.secretKeyBytes
          (.hash block.hash))
    (hView : p.view = 0)
    (hCert :
      Convincing config block.header.prev p.cert) :
    Passes config p block := by
  intro cx hReady
  rcases hOwn with ⟨publicKey, hKey, hVerify⟩
  have hVouched :
      Synchs.Vouched cx.toContext p block := by
    refine
      { hash := hHash.symm
        author := ?_
        first := fun hFirst => by omega
        votes := fun _ => ?_
        proof := ⟨publicKey, ?_, ?_⟩ }
    · rw [hAuthor, hLeader, Synchs.Context.leaderOfView,
        hReady.view, hView, Nat.zero_mod]
    · rw [hReady.numFaults]
      exact hCert.votes
    · rw [hAuthor]
      exact hReady.keys _ _ hKey
    · rw [hProof]
      exact hVerify _
  change Synchs.checkProposal p block cx.toContext = _
  rw [Synchs.checkProposal_of_vouched hVouched,
    if_neg (not_not.mpr hReady.view),
    if_neg (by omega),
    checkParentCert_of_convincing hReady hCert]

end Optsync

end LibApollo

------------------------------------------------------------
-- Votes That Fit
------------------------------------------------------------

namespace LibApollo

namespace Optsync

open Synchs (Propose Config Node Event)

variable {H : Type} [DecidableEq H] [Crypto H]
variable {config : Config}
variable {cx cx' : Context H}

/-
  A vote that is added to a certificate for a block other
  than genesis is signed for the message of the certificate,
  and one that finishes a certificate leaves it with votes
  of enough replicas.
-/
def VoteFits
    (cx : Context H)
    (event : Event H) : Prop :=
  ∀ c p hash vote old,
    event = .recv (.voteMsg c p) →
      Synchs.checkVote c p cx.toContext = .ok (some hash) →
      cx.respCert.lookup hash = none →
      c.votes = [vote] →
      cx.voteMap.lookup hash = some old →
      hash ≠ (Block.genesis : Block H).hash →
        Signs cx.pubKeyMap old.msg vote ∧
          (cx.numFaults ≤ old.votes.length →
            cx.numFaults ≤
              (insert vote.origin (voters old)).card)

/- The certificates of a node, growing and finished. -/
structure PoolInv
    (config : Config)
    (cx : Context H) : Prop where
  myid : cx.myid = config.id
  numFaults : cx.numFaults = config.numFaults
  mySecretKey : cx.mySecretKey = config.secretKeyBytes
  pubKeyMap : cx.pubKeyMap = config.pkMap
  growing :
    ∀ hash cert,
      cx.voteMap.lookup hash = some cert →
        hash ≠ (Block.genesis : Block H).hash →
          Uniform config.pkMap hash cert
  finished :
    ∀ hash cert,
      cx.certMap.lookup hash = some cert →
        hash ≠ (Block.genesis : Block H).hash →
          Convincing config hash cert

omit [DecidableEq H] in
/- One more vote for the message of the certificate. -/
theorem Uniform.add
    {keys : FinMap Replica Bytes}
    {hash : H}
    {old : Certificate H}
    {vote : Vote}
    (hUniform : Uniform keys hash old)
    (hSigns : Signs keys old.msg vote) :
    Uniform keys hash
      { old with votes := old.votes ++ [vote] } := by
  refine ⟨hUniform.msg, ?_⟩
  intro v hMem
  rcases List.mem_append.mp hMem with hOld | hNew
  · exact hUniform.signed v hOld
  · rw [List.mem_singleton.mp hNew]
    exact hSigns

omit [DecidableEq H] in
/- A certificate with one vote that was checked. -/
theorem uniform_single
    {keys : FinMap Replica Bytes}
    {hash : H}
    {cert : Certificate H}
    {view : Nat}
    {vote : Vote}
    (hMsg : cert.msg = .vote view hash)
    (hVotes : cert.votes = [vote])
    (hSigns : Signs keys cert.msg vote) :
    Uniform keys hash cert := by
  refine ⟨⟨view, hMsg⟩, ?_⟩
  intro v hMem
  rw [hVotes, List.mem_singleton] at hMem
  rw [hMem]
  exact hSigns

omit [DecidableEq H] [Crypto H] in
/- The voters of a certificate with one more vote. -/
theorem voters_add
    (old : Certificate H)
    (vote : Vote) :
    voters { old with votes := old.votes ++ [vote] } =
      insert vote.origin (voters old) := by
  unfold voters
  rw [List.map_append, List.toFinset_append,
    Finset.union_comm]
  rfl

theorem PoolInv.ownVote
    (hOwn : OwnKey H config)
    (hInv : PoolInv config cx)
    (hash : H) :
    Uniform config.pkMap hash
      (Synchs.ownVote cx.toContext hash) := by
  rcases hOwn with ⟨publicKey, hKey, hVerify⟩
  refine uniform_single rfl rfl ⟨publicKey, ?_, ?_⟩
  · dsimp only
    rw [hInv.myid]
    exact hKey
  · dsimp only [Synchs.ownVote]
    rw [hInv.mySecretKey]
    exact hVerify _

/- A vote that fits is added to what grows. -/
theorem PoolInv.add
    {hash : H}
    {old : Certificate H}
    {vote : Vote}
    (hInv : PoolInv config cx)
    (hOld : cx.voteMap.lookup hash = some old)
    (hNot : hash ≠ (Block.genesis : Block H).hash)
    (hSigns : Signs cx.pubKeyMap old.msg vote) :
    Uniform config.pkMap hash
      { old with votes := old.votes ++ [vote] } := by
  rw [hInv.pubKeyMap] at hSigns
  exact (hInv.growing hash old hOld hNot).add hSigns

/- What is kept of a node, with other votes. -/
theorem PoolInv.same
    (hInv : PoolInv config cx)
    (hNode : SameNode cx cx')
    (hGrowing :
      ∀ hash cert,
        cx'.voteMap.lookup hash = some cert →
          hash ≠ (Block.genesis : Block H).hash →
            Uniform config.pkMap hash cert)
    (hFinished :
      ∀ hash cert,
        cx'.certMap.lookup hash = some cert →
          hash ≠ (Block.genesis : Block H).hash →
            Convincing config hash cert) :
    PoolInv config cx' where
  myid := hNode.myid.trans hInv.myid
  numFaults := hNode.numFaults.trans hInv.numFaults
  mySecretKey := hNode.mySecretKey.trans hInv.mySecretKey
  pubKeyMap := hNode.pubKeyMap.trans hInv.pubKeyMap
  growing := hGrowing
  finished := hFinished

/- Steps whose votes fit keep the certificates good. -/
theorem PoolInv.step
    {node node' : Node (Context H)}
    {event : Event H}
    (hOwn : OwnKey H config)
    (hInv : PoolInv config node.cx)
    (hFits : VoteFits node.cx event)
    (hStep : Optsync.step node event = .ok node') :
    PoolInv config node'.cx := by
  rcases step_ballots hStep with ⟨hNode, hBallots⟩
  cases hBallots with
  | kept hVotes hCerts =>
      apply hInv.same hNode
      · rw [hVotes]
        exact hInv.growing
      · rw [hCerts.certMap]
        exact hInv.finished
  | entered hash _ _ hVotes hCerts =>
      apply hInv.same hNode
      · rw [hVotes]
        exact FinMap.forall_insert hInv.growing
          (fun _ => hInv.ownVote hOwn hash)
      · rw [hCerts.certMap]
        exact hInv.finished
  | first c p hash hEvent hCheck hVotes hCerts =>
      rcases Synchs.checkVote_some hCheck with
        ⟨view, vote, publicKey, hMsg, hSingle, _, hKey,
          hVerify, _⟩
      rw [hInv.pubKeyMap] at hKey
      rw [← hMsg] at hVerify
      apply hInv.same hNode
      · rw [hVotes]
        exact FinMap.forall_insert hInv.growing
          (fun _ =>
            uniform_single hMsg hSingle
              ⟨publicKey, hKey, hVerify⟩)
      · rw [hCerts.certMap]
        exact hInv.finished
  | added c p hash vote old cert hEvent hCheck hNone hSingle
      hOld hCert hVotes hMap =>
      have hFit :=
        hFits c p hash vote old hEvent hCheck hNone hSingle
          hOld
      have hGrown :
          hash ≠ (Block.genesis : Block H).hash →
            Uniform config.pkMap hash cert := by
        intro hNot
        rw [hCert]
        exact hInv.add hOld hNot (hFit hNot).1
      apply hInv.same hNode
      · rw [hVotes]
        exact FinMap.forall_insert hInv.growing hGrown
      · rw [hMap]
        split
        · rename_i hLong
          refine FinMap.forall_insert hInv.finished ?_
          intro hNot
          rw [hInv.numFaults] at hLong hFit
          refine ⟨hGrown hNot, hLong, ?_⟩
          rw [hCert, List.length_append] at hLong
          rw [hCert, voters_add]
          exact (hFit hNot).2 (Nat.le_of_lt_succ hLong)
        · exact hInv.finished

theorem poolInv_new
    (config : Config) :
    PoolInv config (Context.new config : Context H) where
  myid := rfl
  numFaults := rfl
  mySecretKey := rfl
  pubKeyMap := rfl
  growing := by
    intro hash cert hLookup
    simp [Context.new, Synchs.Context.new] at hLookup
  finished := by
    intro hash cert hLookup hNot
    change
      ((∅ : FinMap H (Certificate H)).insert
        (Block.genesis : Block H).hash
        (Certificate.emptyCert H)).lookup hash = _
      at hLookup
    rw [FinMap.lookup_insert_eq, if_neg hNot] at hLookup
    simp at hLookup

end Optsync

end LibApollo

------------------------------------------------------------
-- The Proposals of a Leader
------------------------------------------------------------

namespace LibApollo

namespace Optsync

open Synchs (Propose ProtocolMsg Config Node Event)
open Synchs (Unforged Silent)

variable {H : Type} [DecidableEq H] [Crypto H]
variable {config : Config}
variable {cx cx' : Context H}
variable {node node' : Node (Context H)}
variable {event : Event H}

/- A block and its proposal are built and sent. -/
structure Sends
    (cx : Context H)
    (p : Propose H)
    (block : Block H)
    (batch : Batch)
    (cx' : Context H) : Prop where
  built :
    ∃ batchHash,
      Synchs.newBlock batchHash cx.toContext = .ok block
  signed : Synchs.newPropose block cx.toContext = .ok p
  multicasts :
    cx'.multicasts =
      cx.multicasts ++ [.newProposal p block batch]
  lastSeenBlock : cx'.lastSeenBlock = block

/- Only proposals that a leader signed carry its signature. -/
def OwnProposals
    (node : Node (Context H))
    (event : Event H) : Prop :=
  ∀ publicKey,
    node.cx.pubKeyMap.lookup node.cx.myid =
        some publicKey →
      Unforged publicKey node.cx.signed event

/- A leader is silent, or sends a proposal of its own. -/
theorem step_silent_or_sends
    (hLeads : node.cx.ledger.Leads)
    (hUnforged : OwnProposals node event)
    (hStep : step node event = .ok node') :
    Silent node.cx.toContext node'.cx.toContext ∨
      ∃ p block batch,
        Sends node.cx p block batch node'.cx := by
  cases Synchs.Protocol.step_ok hStep with
  | idle => exact Or.inl (.of_eq rfl rfl rfl)
  | recv msg cx _ hProcess =>
      rcases protocol_voices msg _ _ hProcess with
        hSilent | ⟨p, block, batch, rfl, hCasts⟩
      · exact Or.inl hSilent
      · exact absurd hCasts.accepts.valid
          (hLeads.not_valid hUnforged rfl)
  | batch => exact Or.inl (.of_eq rfl rfl rfl)
  | timer index p _ _ =>
      have hRemoved :
          Silent node.cx.toContext
            (Synchs.removeTimer index node.cx.toContext) :=
        .of_eq rfl rfl rfl
      exact Or.inl
        (hRemoved.trans (Synchs.silent_onCommit p _))
  | sealed => exact Or.inl (.of_eq rfl rfl rfl)
  | propose batchHash batch rest cx _ _ hPropose =>
      rcases propose_ok hPropose with
        ⟨block, p, hBlock, hNew, rfl⟩
      exact Or.inr ⟨p, block, batch,
        { built := ⟨batchHash, hBlock⟩
          signed := hNew
          multicasts := rfl
          lastSeenBlock := rfl }⟩

/-
  A leader with good certificates, whose proposals on blocks
  other than genesis have all passed.
-/
structure ProposerInv
    (config : Config)
    (cx : Context H) : Prop where
  follows : cx.ledger.Follows config
  leads : cx.ledger.Leads
  pool : PoolInv config cx
  height :
    cx.lastSeenBlock.hash ≠
        (Block.genesis : Block H).hash →
      0 < cx.lastSeenBlock.header.height
  sent :
    ∀ p block batch,
      .newProposal p block batch ∈ cx.multicasts →
        block.header.prev ≠
            (Block.genesis : Block H).hash →
          Passes config p block

/- What a leader builds passes the checks. -/
theorem ProposerInv.passes
    {p : Propose H}
    {block : Block H}
    {batchHash : H}
    (hLeader : config.id = 0)
    (hOwn : OwnKey H config)
    (hInv : ProposerInv config cx)
    (hBlock :
      Synchs.newBlock batchHash cx.toContext = .ok block)
    (hNew : Synchs.newPropose block cx.toContext = .ok p)
    (hNot :
      block.header.prev ≠
        (Block.genesis : Block H).hash) :
    Passes config p block := by
  have hBuilt := Synchs.newBlock_ok hBlock
  have hPrev :
      block.header.prev = cx.lastSeenBlock.hash := by
    rw [hBuilt, Block.extending_prev]
  have hAuthor : block.header.author = config.id := by
    rw [hBuilt, Block.extending_author]
    exact hInv.pool.myid
  have hHeight : 1 < block.header.height := by
    rw [hPrev] at hNot
    have hAbove := hInv.height hNot
    rw [hBuilt, Block.extending_height]
    omega
  rcases Synchs.newPropose_ok hNew with
    ⟨cert, hLookup, rfl⟩
  refine passes_of_convincing hLeader hOwn hAuthor hHeight
    rfl ?_ hInv.follows.view ?_
  · dsimp only
    rw [hInv.pool.mySecretKey]
  · dsimp only
    rw [← hPrev] at hLookup
    exact hInv.pool.finished _ cert hLookup hNot

theorem ProposerInv.step
    (hLeader : config.id = 0)
    (hOwn : OwnKey H config)
    (hInv : ProposerInv config node.cx)
    (hUnforged : OwnProposals node event)
    (hFits : VoteFits node.cx event)
    (hStep : Optsync.step node event = .ok node') :
    ProposerInv config node'.cx := by
  have hLedger := protocol_refines.step hStep
  have hFollows := hInv.follows.step hLedger
  have hLeads := hInv.leads.step hUnforged hLedger
  have hPool := hInv.pool.step hOwn hFits hStep
  rcases step_silent_or_sends hInv.leads hUnforged hStep
    with hSilent | ⟨p, block, batch, hSends⟩
  · refine ⟨hFollows, hLeads, hPool, ?_, ?_⟩
    · rw [hSilent.lastSeenBlock]
      exact hInv.height
    · rw [hSilent.multicasts]
      exact hInv.sent
  · rcases hSends.built with ⟨batchHash, hBlock⟩
    refine ⟨hFollows, hLeads, hPool, ?_, ?_⟩
    · rw [hSends.lastSeenBlock, Synchs.newBlock_ok hBlock,
        Block.extending_height]
      intro _
      exact Nat.succ_pos _
    · intro p' block' batch' hMem hNot
      rw [hSends.multicasts, List.mem_append,
        List.mem_singleton] at hMem
      rcases hMem with hOld | hLast
      · exact hInv.sent p' block' batch' hOld hNot
      · cases hLast
        exact hInv.passes hLeader hOwn hBlock hSends.signed
          hNot

theorem proposerInv_new
    (hLeader : config.id = 0) :
    ProposerInv config
      (Context.new config : Context H) where
  follows := Synchs.follows_new config
  leads := by
    constructor
    · change 0 % config.numNodes = config.id
      rw [Nat.zero_mod, hLeader]
    · intro hash hSigned
      exact absurd hSigned List.not_mem_nil
  pool := poolInv_new config
  height := fun hNot => absurd rfl hNot
  sent := by
    intro p block batch hMem
    exact absurd hMem List.not_mem_nil

/-
  In every run in which each vote fits the certificate it is
  added to, what the leader proposes on a block other than
  genesis passes the checks of all replicas that are ready
  for it.
-/
theorem proposals_pass
    (hLeader : config.id = 0)
    (hOwn : OwnKey H config)
    (hReach :
      Machine.Reach step
        (fun node event =>
          OwnProposals node event ∧ VoteFits node.cx event)
        (Node.new config) node)
    (p : Propose H)
    (block : Block H)
    (batch : Batch)
    (hSent :
      .newProposal p block batch ∈ node.cx.multicasts)
    (hParent :
      block.header.prev ≠ (Block.genesis : Block H).hash) :
    Passes config p block := by
  have hInv : ProposerInv config node.cx := by
    apply hReach.invariant
      (fun node => ProposerInv config node.cx)
      (proposerInv_new hLeader)
    intro s s' event hInv hGuard hStep
    exact hInv.step hLeader hOwn hGuard.1 hGuard.2 hStep
  exact hInv.sent p block batch hSent hParent

/- Executable form of `OwnProposals`. -/
def ownProposalsCheck
    (node : Node (Context H))
    (event : Event H) : Bool :=
  match node.cx.pubKeyMap.lookup node.cx.myid with
  | none => true
  | some publicKey =>
      Synchs.unforgedCheck publicKey node.cx.signed event

theorem ownProposals_of_check
    (node : Node (Context H))
    (event : Event H)
    (hCheck : ownProposalsCheck node event = true) :
    OwnProposals node event := by
  intro publicKey hKey
  rw [ownProposalsCheck, hKey] at hCheck
  exact Synchs.unforged_of_unforgedCheck hCheck

/- A vote for the message, of the replica it names. -/
def signsCheck
    (keys : FinMap Replica Bytes)
    (msg : CertType H)
    (v : Vote) : Bool :=
  match keys.lookup v.origin with
  | none => false
  | some publicKey =>
      Crypto.verify publicKey (.cert msg) v.auth

omit [DecidableEq H] in
theorem signs_of_signsCheck
    {keys : FinMap Replica Bytes}
    {msg : CertType H}
    {v : Vote}
    (hCheck : signsCheck keys msg v = true) :
    Signs keys msg v := by
  unfold signsCheck at hCheck
  split at hCheck
  · cases hCheck
  · rename_i publicKey hKey
    exact ⟨publicKey, hKey, hCheck⟩

/- Executable form of `VoteFits`. -/
def voteFitsCheck
    (cx : Context H)
    (event : Event H) : Bool :=
  match event with
  | .recv (.voteMsg c p) =>
      match cx.voteMap.lookup p.blockHash with
      | none => true
      | some old =>
          c.votes.all
            (fun vote =>
              signsCheck cx.pubKeyMap old.msg vote &&
                decide
                  (cx.numFaults ≤
                    (insert vote.origin
                      (voters old)).card))
  | _ => true

theorem voteFits_of_check
    (cx : Context H)
    (event : Event H)
    (hCheck : voteFitsCheck cx event = true) :
    VoteFits cx event := by
  intro c p hash vote old hEvent hVote _ hSingle hOld _
  rcases Synchs.checkVote_some hVote with
    ⟨_, _, _, _, _, hNamed, _⟩
  rw [hNamed] at hOld
  rw [hEvent] at hCheck
  simp only [voteFitsCheck, hOld, hSingle, List.all_cons,
    List.all_nil, Bool.and_true, Bool.and_eq_true,
    decide_eq_true_eq] at hCheck
  exact ⟨signs_of_signsCheck hCheck.1, fun _ => hCheck.2⟩

theorem ownKey_small : OwnKey Digest (Config.small 0) := by
  refine ⟨Digest.keyOf 0, by decide +kernel, ?_⟩
  intro data
  exact decide_eq_true rfl

/-
  The leader proposes a block, gets a vote for it and
  proposes another one.
-/
def twoProposed
    (c : Certificate Digest) : List (Event Digest) :=
  [.batch oneBatch.hash oneBatch, .internal, .internal,
    .recv (.voteMsg c firstProposal), .internal,
    .batch oneBatch.hash oneBatch, .internal]

/- The proposal has been sent. -/
def wasSent
    (cx : Context Digest)
    (p : Propose Digest)
    (block : Block Digest) : Bool :=
  cx.multicasts.contains (.newProposal p block oneBatch)

theorem proposals_pass_second_block :
    ∃ node : Node (Context Digest),
      Machine.Reach step
          (fun node event =>
            OwnProposals node event ∧
              VoteFits node.cx event)
          (Node.new (Config.small 0)) node ∧
        .newProposal secondProposal secondBlock oneBatch ∈
          node.cx.multicasts ∧
        Ready (Config.small 0) secondProposal secondBlock
          seenFirst.toContext ∧
        checkProposal secondProposal secondBlock seenFirst =
          .ok true := by
  have hRun :
      Machine.runCheck step
        (fun node event =>
          ownProposalsCheck node event &&
            voteFitsCheck node.cx event)
        (fun node =>
          wasSent node.cx secondProposal secondBlock)
        (Node.new (Config.small 0))
        (twoProposed (votesFor [1] firstBlock)) = true := by
    decide +kernel
  have hSound :
      ∀ (node : Node (Context Digest))
        (event : Event Digest),
        (ownProposalsCheck node event &&
            voteFitsCheck node.cx event) = true →
          OwnProposals node event ∧
            VoteFits node.cx event := by
    intro node event hBoth
    rcases Bool.and_eq_true_iff.mp hBoth with
      ⟨hOwn, hFits⟩
    exact ⟨ownProposals_of_check node event hOwn,
      voteFits_of_check node.cx event hFits⟩
  rcases Machine.Reach.of_runCheck hSound hRun with
    ⟨node, hReach, hFinal⟩
  have hSent :
      .newProposal secondProposal secondBlock oneBatch ∈
        node.cx.multicasts :=
    List.contains_iff_mem.mp hFinal
  have hReady :
      Ready (Config.small 0) secondProposal secondBlock
        seenFirst.toContext :=
    ⟨rfl, rfl, fun _ _ hKey => hKey, rfl⟩
  exact ⟨node, hReach, hSent, hReady,
    proposals_pass rfl ownKey_small hReach secondProposal
      secondBlock oneBatch hSent (by decide +kernel) seenFirst
      hReady⟩

/- The vote of replica 2 for the first block, in view 7. -/
def strayVote : Certificate Digest where
  msg := .vote 7 firstBlock.hash
  votes :=
    [{ origin := 2
       auth :=
        Crypto.sign (Digest.keyOf 2)
          (.cert (.vote 7 firstBlock.hash)) }]

/- The second proposal with the two votes the leader has. -/
def mixedProposal : Propose Digest :=
  proposalOf secondBlock
    { votesFor [0] firstBlock with
      votes :=
        (votesFor [0] firstBlock).votes ++ strayVote.votes }

/-
  The vote of view 7 joins the leader's own vote of view 0,
  and replica 1, which has the first block, rejects the
  block proposed with the two.
-/
theorem stray_vote_rejected :
    OwnKey Digest (Config.small 0) ∧
      ∃ node replica : Node (Context Digest),
        Machine.Reach step OwnProposals
            (Node.new (Config.small 0)) node ∧
          .newProposal mixedProposal secondBlock oneBatch ∈
            node.cx.multicasts ∧
          secondBlock.header.prev ≠
            (Block.genesis : Block Digest).hash ∧
          Machine.Reach step (fun _ _ => True)
            (Node.new (Config.small 1)) replica ∧
          Ready (Config.small 0) mixedProposal secondBlock
            replica.cx.toContext ∧
          checkProposal mixedProposal secondBlock
              replica.cx = .ok false := by
  have hRun :
      Machine.runCheck step ownProposalsCheck
        (fun node =>
          wasSent node.cx mixedProposal secondBlock)
        (Node.new (Config.small 0))
        (twoProposed strayVote) = true := by
    decide +kernel
  have hOther :
      Machine.runCheck step (fun _ _ => true)
        (fun node : Node (Context Digest) =>
          decide
            (node.cx.view = 0 ∧
              node.cx.numFaults = 1 ∧
              node.cx.pubKeyMap =
                (Config.small 0).pkMap ∧
              node.cx.lastSeenBlock.hash =
                secondBlock.header.prev ∧
              checkProposal mixedProposal secondBlock
                  node.cx = .ok false))
        (Node.new (Config.small 1))
        [.recv
          (.newProposal firstProposal firstBlock oneBatch)] =
          true := by
    decide +kernel
  rcases Machine.Reach.of_runCheck ownProposals_of_check
    hRun with ⟨node, hReach, hSent⟩
  rcases Machine.Reach.of_runCheck
      (fun _ _ _ => trivial) hOther with
    ⟨replica, hReplica, hFinal⟩
  rcases of_decide_eq_true hFinal with
    ⟨hView, hFaults, hKeys, hSeen, hRejected⟩
  refine ⟨ownKey_small, node, replica, hReach,
    List.contains_iff_mem.mp hSent, by decide +kernel,
    hReplica, ⟨hView, hFaults, ?_, hSeen⟩, hRejected⟩
  intro _ _ hKey
  rw [hKeys]
  exact hKey

end Optsync

end LibApollo
