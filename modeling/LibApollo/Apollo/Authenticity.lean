import LibApollo.Apollo.Agreement
import LibApollo.Apollo.CommitSafety

/-
  Who has signed what an Apollo node accepts.

  Signatures cannot be forged, but a node does not check a
  proposal that names the node itself as its origin, and a
  signature covers the hash of a block and not its round.
  The first lets anyone speak for the leader at the leader,
  the second lets a signature be used again in the other
  rounds of its leader.

  Key definitions include:
    * `SignedBy`, `Genuine`, `Carries`
    * `AuthenticStep`, `CheckedStep`
    * `AuthInv`
    * `Replays`, `SingleStep`

  Key theorems include:
    * `AuthInv.step`
    * `proposals_signed`, `unsigned_proposal_accepted`
    * `not_replayed`, `proposal_replayed`
-/

------------------------------------------------------------
-- Signatures
------------------------------------------------------------

namespace LibApollo

namespace Apollo

variable {H : Type} [DecidableEq H] [Crypto H]

/-
  The replica has signed the data: the node itself when its
  log says so, another replica when it has produced it.
-/
def SignedBy
    (config : Config)
    (produced : Replica → SignData H → Prop)
    (signed : List (SignData H))
    (replica : Replica)
    (data : SignData H) : Prop :=
  if replica = config.id then data ∈ signed
  else produced replica data

/- Whose key accepts the signature has signed the block. -/
def Genuine
    (config : Config)
    (produced : Replica → SignData H → Prop)
    (signed : List (SignData H))
    (p : Propose H) : Prop :=
  ∀ replica publicKey,
    config.pkMap.lookup replica = some publicKey →
      p.checkSig publicKey = true →
      SignedBy config produced signed replica
        (.hash p.blockHash)

/- The event brings this proposal from the network. -/
def Carries (event : Event H) (p : Propose H) : Prop :=
  (∃ block batch,
      event = .recv (.newProposal p block batch)) ∨
    (∃ sender reqId block batch,
      event = .recv (.response sender reqId p block batch)) ∨
    ∃ sender, event = .recv (.relay sender p)

/- Decoded messages with signatures nobody has forged. -/
def AuthenticStep
    (config : Config)
    (produced : Replica → SignData H → Prop)
    (node : Node H)
    (event : Event H) : Prop :=
  Decoded event ∧
    ∀ p, Carries event p →
      Genuine config produced node.cx.signed p

/-
  Moreover, a proposal that is considered while the node
  leads the round has a signature under the node's own key.
-/
def CheckedStep
    (config : Config)
    (produced : Replica → SignData H → Prop)
    (node : Node H)
    (event : Event H) : Prop :=
  AuthenticStep config produced node event ∧
    ∀ p block, StepConsiders node event p block →
      node.cx.myid = node.cx.roundLeader →
        ∃ publicKey,
          config.pkMap.lookup config.id =
              some publicKey ∧
            p.checkSig publicKey = true

/- What the configuration fixes for the life of a node. -/
structure Configured
    (config : Config)
    (cx : Context H) : Prop where
  myid : cx.myid = config.id
  numNodes : cx.numNodes = config.numNodes
  pubKeyMap : cx.pubKeyMap = config.pkMap.erase config.id

omit [DecidableEq H] in
/- Messages in scope, given the proposals they carry. -/
theorem okMsg_of_carries
    {scope : Scope H}
    {event : Event H}
    (hBlock : ∀ block : Block H,
      block.Proper → scope.okBlock block)
    (hDecoded : Decoded event)
    (hProp : ∀ p, Carries event p → scope.okProp p) :
    ∀ msg, event = .recv msg → scope.OkMsg msg := by
  intro msg hEq
  subst hEq
  have hMsg := hDecoded msg rfl
  cases msg with
  | newProposal p block batch =>
      exact ⟨hProp p (Or.inl ⟨block, batch, rfl⟩),
        hBlock block hMsg.2⟩
  | relay sender p =>
      exact hProp p (Or.inr (Or.inr ⟨sender, rfl⟩))
  | request sender reqId hash => trivial
  | response sender reqId p block batch =>
      exact ⟨hProp p (Or.inr (Or.inl
          ⟨sender, reqId, block, batch, rfl⟩)),
        hBlock block hMsg.2⟩
  | blame v => exact hMsg

variable {config : Config}
variable {cx cx' : Context H}

theorem Configured.effects
    {scope : Scope H}
    {acc : Propose H → Block H → Prop}
    (hConfig : Configured config cx)
    (hEffects : Effects scope acc cx cx') :
    Configured config cx' := by
  rcases hEffects.params with ⟨hSelf, hNodes, _⟩
  exact ⟨hSelf.trans hConfig.myid,
    hNodes.trans hConfig.numNodes,
    hEffects.credentials.1.trans hConfig.pubKeyMap⟩

omit [Crypto H] in
theorem Configured.accepted
    {p : Propose H}
    {block : Block H}
    (hConfig : Configured config cx)
    (hAccepted : Accepted p block cx cx') :
    Configured config cx' := by
  rcases hAccepted with ⟨_, _, _, _, _, _, rfl⟩
  exact ⟨hConfig.myid, hConfig.numNodes,
    hConfig.pubKeyMap⟩

/- The round leader is the one of the schedule. -/
theorem ChainInv.leaderOf_eq
    (hChain : ChainInv cx)
    (hConfig : Configured config cx)
    (hNodes : 0 < config.numNodes) :
    cx.roundLeader = leaderOf config.numNodes cx.round := by
  have hLeader := hChain.leader
  rw [hConfig.numNodes] at hLeader
  exact hLeader hNodes

end Apollo

end LibApollo

------------------------------------------------------------
-- Runs Within a Scope
------------------------------------------------------------

namespace LibApollo

namespace Apollo

variable {H : Type} [DecidableEq H] [Crypto H]
variable {config : Config}
variable {scope : Scope H}
variable {acc : Propose H → Block H → Prop}
variable {cx cx' : Context H}

/- A configured node whose messages stay within a scope. -/
structure RunInv
    (scope : Scope H)
    (config : Config)
    (cx : Context H) : Prop where
  data : Data scope cx
  chain : ChainInv cx
  configured : Configured config cx

theorem RunInv.effects
    (hFree : CollisionFree H)
    (hProper : scope.Proper)
    (hInv : RunInv scope config cx)
    (hEffects : Effects scope acc cx cx') :
    RunInv scope config cx' where
  data := hInv.data.effects hEffects
  chain := hInv.chain.effects hFree hProper hInv.data
    hEffects
  configured := hInv.configured.effects hEffects

/- The node's own proposal, when it is in scope. -/
theorem RunInv.proposes
    {batchHash : H}
    {batch : Batch}
    (hFree : CollisionFree H)
    (hProper : scope.Proper)
    (hInv : RunInv scope config cx)
    (hProp : scope.okProp (newPropose cx batchHash))
    (hBlock : scope.okBlock (newBlock cx batchHash))
    (hAccepted :
      Accepted (newPropose cx batchHash)
        (newBlock cx batchHash)
        (proposing batchHash batch cx) cx') :
    RunInv scope config cx' := by
  have hChain : ChainInv (proposing batchHash batch cx) :=
    hInv.chain.proposing hFree hProper hInv.data hBlock
  have hConfig :
      Configured config (proposing batchHash batch cx) :=
    ⟨hInv.configured.myid, hInv.configured.numNodes,
      hInv.configured.pubKeyMap⟩
  exact
    { data := (hInv.data.proposing hProp hBlock).accepted
        hProp hBlock hAccepted
      chain := hChain.accepted rfl rfl
        (proposing_delivered _ _ _) hAccepted
      configured := hConfig.accepted hAccepted }

theorem runInv_new
    (config : Config)
    (hGenesis : scope.okBlock Block.genesis) :
    RunInv scope config (Node.new config : Node H).cx where
  data := data_new config hGenesis
  chain := chainInv_new config
  configured := ⟨rfl, rfl, rfl⟩

/- Every round that has passed holds such a proposal. -/
def Entries
    (Q : Nat → Propose H → Prop)
    (cx : Context H) : Prop :=
  ∀ r p, cx.propChainByRound.lookup r = some p → Q r p

variable {Q : Nat → Propose H → Prop}

omit [Crypto H] in
theorem Entries.accepted
    {p : Propose H}
    {block : Block H}
    (hEntries : Entries Q cx)
    (hEntry : Q p.round p)
    (hAccepted : Accepted p block cx cx') :
    Entries Q cx' := by
  rcases hAccepted with ⟨_, _, _, _, _, _, rfl⟩
  exact FinMap.forall_insert hEntries hEntry

/- Effects keep the entries when what they accept fits. -/
theorem RunInv.entries_effects
    (hFree : CollisionFree H)
    (hProper : scope.Proper)
    (hInv : RunInv scope config cx)
    (hEntries : Entries Q cx)
    (hAcc :
      ∀ mid p block, RunInv scope config mid →
        scope.okProp p →
        scope.okBlock block →
        acc p block →
        Acceptable mid p block →
        Q p.round p)
    (hEffects : Effects scope acc cx cx') :
    Entries Q cx' := by
  induction hEffects with
  | refl => exact hEntries
  | @tail mid cx' hBefore hEffect ih =>
      rcases hEffect.sameChain_or_accepts with
        hSame | ⟨p, block, hProp, hAllowed, hAcceptable,
          hStored, hAccepted⟩
      · intro r p hLookup
        rw [hSame.byRound] at hLookup
        exact ih r p hLookup
      · have hMid := hInv.effects hFree hProper hBefore
        refine ih.accepted ?_ hAccepted
        exact hAcc mid p block hMid hProp
          (hMid.data.delivered _ _ hStored) hAllowed
          hAcceptable

theorem entries_new
    (config : Config) :
    Entries Q (Node.new config : Node H).cx := by
  intro r p hLookup
  simp [Node.new, Context.new, Context.tellBatcher]
    at hLookup

end Apollo

end LibApollo

------------------------------------------------------------
-- Proposals Signed by Their Leaders
------------------------------------------------------------

namespace LibApollo

namespace Apollo

variable {H : Type} [DecidableEq H] [Crypto H]
variable {config : Config}
variable {produced : Replica → SignData H → Prop}
variable {signed signed' : List (SignData H)}
variable {cx cx' : Context H}

/- Genuine proposals, and those the node made as leader. -/
def authScope
    (config : Config)
    (produced : Replica → SignData H → Prop)
    (signed : List (SignData H)) : Scope H where
  okProp := fun p =>
    Genuine config produced signed p ∨
      (leaderOf config.numNodes p.round = config.id ∧
        SignData.hash p.blockHash ∈ signed)
  okBlock := Block.Proper

omit [DecidableEq H] [Crypto H] in
theorem SignedBy.mono
    {replica : Replica}
    {data : SignData H}
    (hSubset : signed ⊆ signed')
    (hSigned :
      SignedBy config produced signed replica data) :
    SignedBy config produced signed' replica data := by
  unfold SignedBy at hSigned ⊢
  split at hSigned
  · rename_i hSelf
    rw [if_pos hSelf]
    exact hSubset hSigned
  · rename_i hOther
    rw [if_neg hOther]
    exact hSigned

omit [DecidableEq H] in
theorem authScope_mono
    (hSubset : signed ⊆ signed')
    (p : Propose H)
    (hProp :
      (authScope config produced signed).okProp p) :
    (authScope config produced signed').okProp p := by
  rcases hProp with hGenuine | ⟨hLeader, hOwn⟩
  · left
    intro replica publicKey hKey hCheck
    exact (hGenuine replica publicKey hKey hCheck).mono
      hSubset
  · exact Or.inr ⟨hLeader, hSubset hOwn⟩

omit [DecidableEq H] in
theorem authScope_proper :
    (authScope config produced signed).Proper :=
  fun _ hBlock => hBlock

/- The leader of the round signed an acceptable block. -/
theorem Acceptable.signedBy
    {p : Propose H}
    {block : Block H}
    (hNodes : 0 < config.numNodes)
    (hConfig : Configured config cx)
    (hChain : ChainInv cx)
    (hProp :
      (authScope config produced signed).okProp p)
    (hOwn :
      cx.myid = cx.roundLeader →
        ∃ publicKey,
          config.pkMap.lookup config.id =
              some publicKey ∧
            p.checkSig publicKey = true)
    (hAcceptable : Acceptable cx p block) :
    SignedBy config produced signed
      (leaderOf config.numNodes p.round)
      (.hash p.blockHash) := by
  rcases hAcceptable with ⟨hRound, _, hOrigin, _, hCheck⟩
  have hLeader := hChain.leaderOf_eq hConfig hNodes
  rw [← hRound] at hLeader
  rcases hProp with hGenuine | ⟨hSelf, hMem⟩
  · rw [← hLeader]
    rcases hCheck with hSelf | ⟨publicKey, hKey, hVerify⟩
    · have hLeads : cx.myid = cx.roundLeader :=
        hSelf.symm.trans hOrigin.symm
      rcases hOwn hLeads with ⟨publicKey, hKey, hVerify⟩
      rw [← hLeads, hConfig.myid]
      exact hGenuine _ publicKey hKey hVerify
    · rw [hConfig.pubKeyMap, FinMap.lookup_erase_eq] at hKey
      split at hKey
      · cases hKey
      · rw [hOrigin]
        exact hGenuine _ publicKey hKey hVerify
  · rw [SignedBy, if_pos hSelf]
    exact hMem

/- The leader of the round signed the block of its entry. -/
def EntrySigned
    (config : Config)
    (produced : Replica → SignData H → Prop)
    (signed : List (SignData H))
    (r : Nat)
    (p : Propose H) : Prop :=
  SignedBy config produced signed
    (leaderOf config.numNodes r) (.hash p.blockHash)

structure AuthInv
    (config : Config)
    (produced : Replica → SignData H → Prop)
    (cx : Context H) : Prop where
  run :
    RunInv (authScope config produced cx.signed) config cx
  entries :
    Entries (EntrySigned config produced cx.signed) cx

theorem AuthInv.effects
    {acc : Propose H → Block H → Prop}
    (hFree : CollisionFree H)
    (hNodes : 0 < config.numNodes)
    (hInv : AuthInv config produced cx)
    (hAcc :
      ∀ p block, acc p block →
        p.round = cx.round ∧
          (cx.myid = cx.roundLeader →
            ∃ publicKey,
              config.pkMap.lookup config.id =
                  some publicKey ∧
                p.checkSig publicKey = true))
    (hEffects :
      Effects (authScope config produced cx.signed) acc cx
        cx') :
    AuthInv config produced cx' := by
  constructor
  case run =>
    rw [hEffects.credentials.2]
    exact hInv.run.effects hFree authScope_proper hEffects
  case entries =>
    rw [hEffects.credentials.2]
    refine hInv.run.entries_effects hFree authScope_proper
      hInv.entries ?_ hEffects
    intro mid p block hMid hProp _ hAllowed hAcceptable
    rcases hAcc p block hAllowed with ⟨hRound, hOwn⟩
    -- the step accepts in the round it starts in
    have hLeader : mid.roundLeader = cx.roundLeader := by
      rw [hMid.chain.leaderOf_eq hMid.configured hNodes,
        hInv.run.chain.leaderOf_eq hInv.run.configured
          hNodes,
        ← hAcceptable.1, hRound]
    have hSelf : mid.myid = cx.myid :=
      hMid.configured.myid.trans
        hInv.run.configured.myid.symm
    refine hAcceptable.signedBy hNodes hMid.configured
      hMid.chain hProp ?_
    rw [hSelf, hLeader]
    exact hOwn

/- The own proposal is for a round the node leads. -/
theorem AuthInv.proposes
    {node : Node H}
    {batchHash : H}
    {batch : Batch}
    {rest : List (H × Batch)}
    (hFree : CollisionFree H)
    (hNodes : 0 < config.numNodes)
    (hInv : AuthInv config produced node.cx)
    (hProposes : Proposes node batchHash batch rest)
    (hAccepted :
      Accepted
        (newPropose
          { node.cx with pendingBatches := rest } batchHash)
        (newBlock
          { node.cx with pendingBatches := rest } batchHash)
        (proposing batchHash batch
          { node.cx with pendingBatches := rest })
        cx') :
    AuthInv config produced cx' := by
  let before : Context H :=
    { node.cx with pendingBatches := rest }
  let sent := proposing batchHash batch before
  have hSubset : node.cx.signed ⊆ sent.signed :=
    List.subset_append_left _ _
  have hSigned : cx'.signed = sent.signed := by
    rcases hAccepted with ⟨_, _, _, _, _, _, rfl⟩
    rfl
  have hLeader :
      leaderOf config.numNodes node.cx.round =
        config.id := by
    rw [← hInv.run.chain.leaderOf_eq hInv.run.configured
        hNodes,
      hProposes.2.2.1, hInv.run.configured.myid]
  have hMem :
      SignData.hash (newBlock before batchHash).hash ∈
        sent.signed :=
    List.mem_append_right _ (List.mem_singleton_self _)
  have hWide :
      RunInv (authScope config produced sent.signed) config
        before :=
    { data :=
        { hInv.run.data.mono (authScope_mono hSubset)
            (fun _ hBlock => hBlock) with }
      chain := { hInv.run.chain with }
      configured := { hInv.run.configured with } }
  have hEntries :
      Entries (EntrySigned config produced sent.signed)
        sent :=
    fun r p hLookup =>
      (hInv.entries r p hLookup).mono hSubset
  constructor
  case run =>
    rw [hSigned]
    exact hWide.proposes hFree authScope_proper
      (Or.inr ⟨hLeader, hMem⟩) (newBlock_ok _ _) hAccepted
  case entries =>
    rw [hSigned]
    refine hEntries.accepted ?_ hAccepted
    unfold EntrySigned SignedBy
    exact (if_pos hLeader).mpr hMem

theorem AuthInv.step
    {node node' : Node H}
    {event : Event H}
    (hFree : CollisionFree H)
    (hNodes : 0 < config.numNodes)
    (hInv : AuthInv config produced node.cx)
    (hEvent : CheckedStep config produced node event)
    (hStep : Apollo.step node event = .ok node') :
    AuthInv config produced node'.cx := by
  have hMsg :
      ∀ msg, event = .recv msg →
        (authScope config produced node.cx.signed).OkMsg
          msg :=
    okMsg_of_carries (fun _ hBlock => hBlock) hEvent.1.1
      (fun p hCarries => Or.inl (hEvent.1.2 p hCarries))
  rcases step_ok hInv.run.data hMsg hStep with
    hEffects | ⟨batchHash, batch, rest, _, hProposes,
      hAccepted⟩
  · refine hInv.effects hFree hNodes ?_ hEffects
    intro p block hConsiders
    exact ⟨hConsiders.2.2.1, hEvent.2 p block hConsiders⟩
  · exact hInv.proposes hFree hNodes hProposes hAccepted

theorem authInv_new
    (config : Config)
    (produced : Replica → SignData H → Prop) :
    AuthInv config produced
      (Node.new config : Node H).cx where
  run := runInv_new config (Or.inl rfl)
  entries := entries_new config

/-
  While proposals considered in the node's own rounds carry
  its signature, every accepted block was signed by the
  leader of its round.
-/
theorem proposals_signed
    {node : Node H}
    (hFree : CollisionFree H)
    (hNodes : 0 < config.numNodes)
    (hReach :
      Machine.Reach step (CheckedStep config produced)
        (Node.new config) node) :
    ∀ r p, node.cx.propChainByRound.lookup r = some p →
      p.round = r ∧
        SignedBy config produced node.cx.signed
          (leaderOf config.numNodes r)
          (.hash p.blockHash) := by
  have hInv : AuthInv config produced node.cx := by
    apply hReach.invariant
      (fun node => AuthInv config produced node.cx)
    · exact authInv_new config produced
    · intro s s' event hInv hEvent hStep
      exact hInv.step hFree hNodes hEvent hStep
  intro r p hLookup
  exact ⟨(hInv.run.chain.entry r p hLookup).1,
    hInv.entries r p hLookup⟩

end Apollo

end LibApollo

------------------------------------------------------------
-- A Proposal Nobody Signed
------------------------------------------------------------

namespace LibApollo

namespace Apollo

/- The event brings one of these proposals, or none. -/
def carriesOnly
    (proposals : List (Propose Digest))
    (event : Event Digest) : Bool :=
  decodedCheck event &&
    match event with
    | .recv (.newProposal p _ _) => proposals.contains p
    | .recv (.response _ _ p _ _) => proposals.contains p
    | .recv (.relay _ p) => proposals.contains p
    | _ => true

theorem mem_of_carriesOnly
    {proposals : List (Propose Digest)}
    {event : Event Digest}
    {p : Propose Digest}
    (hCheck : carriesOnly proposals event = true)
    (hCarries : Carries event p) :
    p ∈ proposals := by
  have hListed := (Bool.and_eq_true_iff.mp hCheck).2
  rcases hCarries with
    ⟨_, _, rfl⟩ | ⟨_, _, _, _, rfl⟩ | ⟨_, rfl⟩
  · simpa using hListed
  · simpa using hListed
  · simpa using hListed

/- Events with listed genuine proposals are authentic. -/
theorem authenticStep_of_carriesOnly
    {config : Config}
    {produced : Replica → SignData Digest → Prop}
    {proposals : List (Propose Digest)}
    {node : Node Digest}
    {event : Event Digest}
    (hGenuine :
      ∀ p ∈ proposals, ∀ signed,
        Genuine config produced signed p)
    (hCheck : carriesOnly proposals event = true) :
    AuthenticStep config produced node event := by
  refine ⟨decoded_of_decodedCheck
    (Bool.and_eq_true_iff.mp hCheck).1, ?_⟩
  intro p hCarries
  exact hGenuine p (mem_of_carriesOnly hCheck hCarries) _

/- A proposal of the first leader's block with no auth. -/
def unsignedProposal : Propose Digest where
  sig := { origin := 0, auth := [] }
  round := 1
  blockHash := firstBlock.hash

theorem unsignedProposal_genuine
    (produced : Replica → SignData Digest → Prop)
    (signed : List (SignData Digest)) :
    Genuine (smallConfig 0) produced signed
      unsignedProposal := by
  intro replica publicKey hKey hCheck
  rcases Digest.lookup_keyMap hKey with ⟨_, rfl⟩
  simp [Propose.checkSig, unsignedProposal, Crypto.verify,
    Digest.keyOf] at hCheck

/- Someone sends the leader a block in its own name. -/
def unsignedRun : List (Event Digest) :=
  [.recv
      (.newProposal unsignedProposal firstBlock
        oneBatch)] ++
    List.replicate 6 .internal

/- The leader of round 1 accepts what it did not sign. -/
theorem unsigned_proposal_accepted :
    CollisionFree Digest ∧
      ∃ (produced : Replica → SignData Digest → Prop)
        (node : Node Digest),
        Machine.Reach step
            (AuthenticStep (smallConfig 0) produced)
            (Node.new (smallConfig 0)) node ∧
          ∃ p,
            node.cx.propChainByRound.lookup 1 = some p ∧
              ¬ SignedBy (smallConfig 0) produced
                node.cx.signed (leaderOf 3 1)
                (.hash p.blockHash) := by
  refine ⟨Digest.collisionFree, fun _ _ => False, ?_⟩
  have hRun :
      Machine.runCheck step
        (fun _ event => carriesOnly [unsignedProposal] event)
        (fun node =>
          decide
            (node.cx.propChainByRound.lookup 1 =
                some unsignedProposal ∧
              node.cx.signed = []))
        (Node.new (smallConfig 0)) unsignedRun = true := by
    decide +kernel
  have hGenuine :
      ∀ p ∈ [unsignedProposal], ∀ signed,
        Genuine (smallConfig 0) (fun _ _ => False) signed
          p := by
    intro p hMem signed
    rw [List.mem_singleton.mp hMem]
    exact unsignedProposal_genuine _ _
  rcases Machine.Reach.of_runCheck
      (fun _ _ hCheck =>
        authenticStep_of_carriesOnly hGenuine hCheck)
      hRun with ⟨node, hReach, hFinal⟩
  rcases of_decide_eq_true hFinal with ⟨hLookup, hSigned⟩
  refine ⟨node, hReach, _, hLookup, ?_⟩
  rw [hSigned]
  unfold SignedBy
  split
  · exact List.not_mem_nil
  · exact fun hFalse => hFalse

/- Replica 0 has signed the first block, nothing else. -/
def firstProduced
    (replica : Replica)
    (data : SignData Digest) : Prop :=
  replica = 0 ∧ data = .hash firstBlock.hash

def firstProposal : Propose Digest :=
  Propose.signed (Digest.keyOf 0) 0 1 firstBlock.hash

/- A signature is genuine when its signer produced it. -/
theorem signed_genuine
    {id signer round : Nat}
    {hash : Digest}
    {produced : Replica → SignData Digest → Prop}
    (hMem : signer ∈ [0, 1, 2])
    (hOther : signer ≠ id)
    (hProduced : produced signer (.hash hash))
    (signed : List (SignData Digest)) :
    Genuine (smallConfig id) produced signed
      (Propose.signed (Digest.keyOf signer) signer round
        hash) := by
  intro replica publicKey hKey hCheck
  rcases Digest.lookup_keyMap hKey with ⟨hListed, rfl⟩
  have hSame :
      Digest.keyOf signer = Digest.keyOf replica :=
    List.append_cancel_right (of_decide_eq_true hCheck)
  have hSigner : replica = signer := by
    simp only [List.mem_cons, List.not_mem_nil, or_false]
      at hMem hListed
    rcases hMem with rfl | rfl | rfl <;>
      rcases hListed with rfl | rfl | rfl <;>
      simp_all [Digest.keyOf]
  rw [hSigner]
  unfold SignedBy
  exact (if_neg hOther).mpr hProduced

/- The first proposal only, and none in the own rounds. -/
def checkedCheck
    (node : Node Digest)
    (event : Event Digest) : Bool :=
  carriesOnly [firstProposal] event &&
    (decide (node.cx.myid ≠ node.cx.roundLeader) ||
      (candidate node).isNone)

theorem checkedStep_of_checkedCheck
    {node : Node Digest}
    {event : Event Digest}
    (hCheck : checkedCheck node event = true) :
    CheckedStep (smallConfig 1) firstProduced node
      event := by
  simp only [checkedCheck, Bool.and_eq_true,
    Bool.or_eq_true, decide_eq_true_eq] at hCheck
  rcases hCheck with ⟨hCarries, hOwn⟩
  constructor
  · apply authenticStep_of_carriesOnly ?_ hCarries
    intro p hMem signed
    rw [List.mem_singleton.mp hMem]
    exact signed_genuine (by simp) (by simp) ⟨rfl, rfl⟩ _
  · intro p block hParts hSelf
    rcases hParts with ⟨_, hCandidate, _⟩
    rcases hOwn with hOther | hNone
    · exact absurd hSelf hOther
    · rw [hCandidate] at hNone
      cases hNone

/- Replica 0 leads round 1 and the node leads round 2. -/
theorem proposals_signed_third_round :
    ∃ node : Node Digest,
      Machine.Reach step
          (CheckedStep (smallConfig 1) firstProduced)
          (Node.new (smallConfig 1)) node ∧
        node.cx.round = 3 ∧
        ∀ r p,
          node.cx.propChainByRound.lookup r = some p →
            p.round = r ∧
              SignedBy (smallConfig 1) firstProduced
                node.cx.signed (leaderOf 3 r)
                (.hash p.blockHash) := by
  have hRun :
      Machine.runCheck step checkedCheck
        (fun node => decide (node.cx.round = 3))
        (Node.new (smallConfig 1)) groundedRun = true := by
    decide +kernel
  rcases Machine.Reach.of_runCheck
      (fun _ _ hCheck => checkedStep_of_checkedCheck hCheck)
      hRun with ⟨node, hReach, hRound⟩
  exact ⟨node, hReach, of_decide_eq_true hRound,
    proposals_signed Digest.collisionFree (by decide)
      hReach⟩

end Apollo

end LibApollo

------------------------------------------------------------
-- Proposals Used Again in Another Round
------------------------------------------------------------

namespace LibApollo

namespace Apollo

variable {H : Type} [DecidableEq H] [Crypto H]
variable {config : Config}
variable {leader : Replica}
variable {block : Block H}
variable {r : Nat}
variable {cx cx' : Context H}

/-
  The proposal names the block in another round of the same
  leader and passes as signed by it.
-/
def Replays
    (config : Config)
    (leader : Replica)
    (block : Block H)
    (r : Nat)
    (p : Propose H) : Prop :=
  p.blockHash = block.hash ∧
    p.round ≠ r ∧
    leaderOf config.numNodes p.round = leader ∧
    p.sig.origin = leader ∧
    (config.id = leader ∨
      ∃ publicKey,
        config.pkMap.lookup leader = some publicKey ∧
          p.checkSig publicKey = true)

/-
  The leader proposes the block in one round only, and no
  message proposes it for another.
-/
def SingleStep
    (config : Config)
    (leader : Replica)
    (block : Block H)
    (r : Nat)
    (node : Node H)
    (event : Event H) : Prop :=
  Decoded event ∧
    (∀ p, Carries event p →
      ¬ Replays config leader block r p) ∧
    (config.id = leader →
      ∀ batchHash batch rest,
        event = .internal →
          Proposes node batchHash batch rest →
          (newBlock node.cx batchHash).hash = block.hash →
          node.cx.round = r)

def singleScope
    (config : Config)
    (leader : Replica)
    (block : Block H)
    (r : Nat) : Scope H where
  okProp := fun p => ¬ Replays config leader block r p
  okBlock := Block.Proper

/- The block is recorded for its own round at most. -/
def EntrySingle
    (block : Block H)
    (r r' : Nat)
    (p : Propose H) : Prop :=
  p.blockHash = block.hash → r' = r

omit [DecidableEq H] in
theorem singleScope_proper :
    (singleScope config leader block r).Proper :=
  fun _ hBlock => hBlock

/- An acceptable proposal of the block is for its round. -/
theorem RunInv.entrySingle
    {p : Propose H}
    {accepted : Block H}
    (hFree : CollisionFree H)
    (hNodes : 0 < config.numNodes)
    (hBlock : block.Proper)
    (hAuthor : block.header.author = leader)
    (hInv :
      RunInv (singleScope config leader block r) config cx)
    (hProp :
      (singleScope config leader block r).okProp p)
    (hStored : accepted.Proper)
    (hAcceptable : Acceptable cx p accepted) :
    EntrySingle block r p.round p := by
  intro hSame
  rcases hAcceptable with
    ⟨hRound, hHash, hOrigin, hLeads, hCheck⟩
  have hEq : accepted = block :=
    hStored.eq_of_hash_eq hFree hBlock (hHash.trans hSame)
  have hLeader : cx.roundLeader = leader := by
    rw [hLeads, hEq, hAuthor]
  by_contra hOther
  refine hProp ⟨hSame, hOther, ?_, ?_, ?_⟩
  · rw [hRound, ← hInv.chain.leaderOf_eq hInv.configured
      hNodes, hLeader]
  · rw [← hOrigin, hLeader]
  · rw [← hOrigin, hLeader] at hCheck
    rcases hCheck with hSelf | ⟨publicKey, hKey, hVerify⟩
    · exact Or.inl
        (hInv.configured.myid.symm.trans hSelf.symm)
    · rw [hInv.configured.pubKeyMap,
        FinMap.lookup_erase_eq] at hKey
      split at hKey
      · cases hKey
      · exact Or.inr ⟨publicKey, hKey, hVerify⟩

structure SingleInv
    (config : Config)
    (leader : Replica)
    (block : Block H)
    (r : Nat)
    (cx : Context H) : Prop where
  run : RunInv (singleScope config leader block r) config cx
  entries : Entries (EntrySingle block r) cx

/- A block the node builds itself is for its own round. -/
theorem SingleInv.proposes
    {node : Node H}
    {batchHash : H}
    {batch : Batch}
    {rest : List (H × Batch)}
    (hFree : CollisionFree H)
    (hBlock : block.Proper)
    (hAuthor : block.header.author = leader)
    (hInv : SingleInv config leader block r node.cx)
    (hEvent :
      SingleStep config leader block r node .internal)
    (hProposes : Proposes node batchHash batch rest)
    (hAccepted :
      Accepted
        (newPropose
          { node.cx with pendingBatches := rest } batchHash)
        (newBlock
          { node.cx with pendingBatches := rest } batchHash)
        (proposing batchHash batch
          { node.cx with pendingBatches := rest })
        cx') :
    SingleInv config leader block r cx' := by
  let before : Context H :=
    { node.cx with pendingBatches := rest }
  have hRound :
      (newBlock before batchHash).hash = block.hash →
        node.cx.round = r := by
    intro hHash
    have hEq : newBlock before batchHash = block :=
      Block.Proper.eq_of_hash_eq hFree (newBlock_ok _ _)
        hBlock hHash
    have hSelf : config.id = leader := by
      rw [← hAuthor, ← hEq]
      exact hInv.run.configured.myid.symm
    exact hEvent.2.2 hSelf batchHash batch rest rfl
      hProposes hHash
  have hBefore :
      RunInv (singleScope config leader block r) config
        before :=
    { data := { hInv.run.data with }
      chain := { hInv.run.chain with }
      configured := { hInv.run.configured with } }
  have hProp :
      (singleScope config leader block r).okProp
        (newPropose before batchHash) :=
    fun hReplays => hReplays.2.1 (hRound hReplays.1)
  have hEntries :
      Entries (EntrySingle block r)
        (proposing batchHash batch before) :=
    hInv.entries
  exact
    { run := hBefore.proposes hFree singleScope_proper hProp
        (newBlock_ok _ _) hAccepted
      entries :=
        hEntries.accepted (p := newPropose before batchHash)
          hRound hAccepted }

theorem SingleInv.step
    {node node' : Node H}
    {event : Event H}
    (hFree : CollisionFree H)
    (hNodes : 0 < config.numNodes)
    (hBlock : block.Proper)
    (hAuthor : block.header.author = leader)
    (hInv : SingleInv config leader block r node.cx)
    (hEvent : SingleStep config leader block r node event)
    (hStep : Apollo.step node event = .ok node') :
    SingleInv config leader block r node'.cx := by
  have hMsg :
      ∀ msg, event = .recv msg →
        (singleScope config leader block r).OkMsg msg :=
    okMsg_of_carries (fun _ hBlock => hBlock) hEvent.1
      hEvent.2.1
  rcases step_ok hInv.run.data hMsg hStep with
    hEffects | ⟨batchHash, batch, rest, rfl, hProposes,
      hAccepted⟩
  · refine
      { run := hInv.run.effects hFree singleScope_proper
          hEffects
        entries := ?_ }
    apply hInv.run.entries_effects hFree singleScope_proper
      hInv.entries ?_ hEffects
    intro mid p accepted hMid hProp hStored _ hAcceptable
    exact hMid.entrySingle hFree hNodes hBlock hAuthor hProp
      hStored hAcceptable
  · exact hInv.proposes hFree hBlock hAuthor hEvent
      hProposes hAccepted

/-
  While no message proposes the block of a leader for another
  of its rounds, it is accepted for its own round only.
-/
theorem not_replayed
    {node : Node H}
    (hFree : CollisionFree H)
    (hNodes : 0 < config.numNodes)
    (hBlock : block.Proper)
    (hAuthor : block.header.author = leader)
    (hReach :
      Machine.Reach step (SingleStep config leader block r)
        (Node.new config) node) :
    ∀ r' p, node.cx.propChainByRound.lookup r' = some p →
      p.blockHash = block.hash → r' = r := by
  have hInv : SingleInv config leader block r node.cx := by
    apply hReach.invariant
      (fun node => SingleInv config leader block r node.cx)
    · exact ⟨runInv_new config (Or.inl rfl),
        entries_new config⟩
    · intro s s' event hInv hEvent hStep
      exact hInv.step hFree hNodes hBlock hAuthor hEvent
        hStep
  exact hInv.entries

end Apollo

end LibApollo

------------------------------------------------------------
-- A Proposal That Is Replayed
------------------------------------------------------------

namespace LibApollo

namespace Apollo

def secondBlock : Block Digest :=
  Digest.blockOn firstBlock 1 2

def thirdBlock : Block Digest :=
  Digest.blockOn secondBlock 2 3

def thirdProposal : Propose Digest :=
  Propose.signed (Digest.keyOf 2) 2 3 thirdBlock.hash

/- Someone moves the first proposal to round 4. -/
def replayedProposal : Propose Digest :=
  { firstProposal with round := 4 }

/- The other two replicas have signed one block each. -/
def onceProduced
    (replica : Replica)
    (data : SignData Digest) : Prop :=
  (replica = 0 ∧ data = .hash firstBlock.hash) ∨
    (replica = 2 ∧ data = .hash thirdBlock.hash)

/-
  The replicas propose in turn; then the first proposal
  comes again, for the next round of its leader.
-/
def replayRun : List (Event Digest) :=
  [proposed 0 1 firstBlock] ++
    List.replicate 8 .internal ++
    [handBatch, .internal, .internal,
      proposed 2 3 thirdBlock] ++
    List.replicate 8 .internal ++
    [.recv
        (.newProposal replayedProposal firstBlock
          oneBatch)] ++
    List.replicate 8 .internal

def onceProposals : List (Propose Digest) :=
  [firstProposal, thirdProposal, replayedProposal]

theorem onceProposals_genuine
    (p : Propose Digest)
    (hMem : p ∈ onceProposals)
    (signed : List (SignData Digest)) :
    Genuine (smallConfig 1) onceProduced signed p := by
  simp only [onceProposals, List.mem_cons,
    List.not_mem_nil, or_false] at hMem
  rcases hMem with rfl | rfl | rfl
  · exact signed_genuine (by simp) (by simp)
      (Or.inl ⟨rfl, rfl⟩) _
  · exact signed_genuine (by simp) (by simp)
      (Or.inr ⟨rfl, rfl⟩) _
  · exact signed_genuine (by simp) (by simp)
      (Or.inl ⟨rfl, rfl⟩) _

/-
  Replica 0 signs one block, for round 1; the node accepts
  it for round 1 and for round 4.
-/
theorem proposal_replayed :
    CollisionFree Digest ∧
      ∃ (produced : Replica → SignData Digest → Prop)
        (node : Node Digest),
        (∀ data, produced 0 data →
            data = .hash firstBlock.hash) ∧
          Machine.Reach step
            (AuthenticStep (smallConfig 1) produced)
            (Node.new (smallConfig 1)) node ∧
          leaderOf 3 1 = 0 ∧
          (∃ p,
            node.cx.propChainByRound.lookup 1 = some p ∧
              p.blockHash = firstBlock.hash) ∧
          ∃ p,
            node.cx.propChainByRound.lookup 4 = some p ∧
              p.blockHash = firstBlock.hash := by
  have hRun :
      Machine.runCheck step
        (fun _ event => carriesOnly onceProposals event)
        (fun node =>
          decide
            (node.cx.propChainByRound.lookup 1 =
                some firstProposal ∧
              node.cx.propChainByRound.lookup 4 =
                some replayedProposal))
        (Node.new (smallConfig 1)) replayRun = true := by
    decide +kernel
  rcases Machine.Reach.of_runCheck
      (fun _ _ hCheck =>
        authenticStep_of_carriesOnly onceProposals_genuine
          hCheck)
      hRun with ⟨node, hReach, hFinal⟩
  rcases of_decide_eq_true hFinal with ⟨hFirst, hFourth⟩
  refine ⟨Digest.collisionFree, onceProduced, node, ?_,
    hReach, rfl, ⟨_, hFirst, rfl⟩, ⟨_, hFourth, rfl⟩⟩
  intro data hProduced
  rcases hProduced with ⟨_, hData⟩ | ⟨hOther, _⟩
  · exact hData
  · cases hOther

/- Two rounds without a replay. -/
theorem not_replayed_third_round :
    ∃ node : Node Digest,
      Machine.Reach step
          (SingleStep (smallConfig 1) 0 firstBlock 1)
          (Node.new (smallConfig 1)) node ∧
        node.cx.round = 3 ∧
        ∀ r' p,
          node.cx.propChainByRound.lookup r' = some p →
            p.blockHash = firstBlock.hash → r' = 1 := by
  have hRun :
      Machine.runCheck step
        (fun _ event => carriesOnly [firstProposal] event)
        (fun node => decide (node.cx.round = 3))
        (Node.new (smallConfig 1)) groundedRun = true := by
    decide +kernel
  have hSound :
      ∀ (node : Node Digest) event,
        carriesOnly [firstProposal] event = true →
          SingleStep (smallConfig 1) 0 firstBlock 1 node
            event := by
    intro node event hCheck
    refine ⟨decoded_of_decodedCheck
      (Bool.and_eq_true_iff.mp hCheck).1, ?_, ?_⟩
    · intro p hCarries hReplays
      have hMem := mem_of_carriesOnly hCheck hCarries
      rw [List.mem_singleton.mp hMem] at hReplays
      exact hReplays.2.1 rfl
    · intro hSelf
      cases hSelf
  rcases Machine.Reach.of_runCheck hSound hRun with
    ⟨node, hReach, hRound⟩
  exact ⟨node, hReach, of_decide_eq_true hRound,
    not_replayed Digest.collisionFree (by decide)
      (Or.inr (by decide +kernel)) rfl hReach⟩

end Apollo

end LibApollo
