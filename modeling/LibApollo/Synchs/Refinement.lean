import LibApollo.Synchs.Ledger

/-
  The steps of a protocol are steps of its ledger, so what
  holds in all runs of ledgers holds of the protocol.

  Key definitions include:
    * `Context.ledger`
    * `Accepts`, `Processed`
    * `Protocol.Refines`

  Key theorems include:
    * `checkProposal_true`
    * `onReceiveProposal_ok`, `onVote_ok`
    * `processMsg_processed`, `propose_ok`
    * `onCommit_cases`, `onCommit_frame`
    * `Protocol.Refines.step`
    * `protocol_refines`
-/

------------------------------------------------------------
-- Handlers
------------------------------------------------------------

namespace LibApollo

namespace Synchs

variable {H : Type} [DecidableEq H] [Crypto H]
variable {p : Propose H} {block : Block H} {batch : Batch}
variable {c : Certificate H} {cx cx' : Context H}

omit [Crypto H] in
/- What a ledger keeps of a context. -/
def Context.ledger (cx : Context H) : Ledger H where
  myid := cx.myid
  leader := cx.lastLeader
  view := cx.view
  numNodes := cx.numNodes
  pubKeyMap := cx.pubKeyMap
  pendingBatches := cx.pendingBatches
  storage := cx.storage
  lastSeenBlock := cx.lastSeenBlock
  multicasts := cx.multicasts
  signed := cx.signed

/- The vote is signed by the replica it names. -/
def SignedVote
    (cx : Context H)
    (msg : CertType H)
    (v : Vote) : Prop :=
  ∃ publicKey,
    cx.pubKeyMap.lookup v.origin = some publicKey ∧
      Crypto.verify publicKey (.cert msg) v.auth = true

/- The loop over the votes collects their origins. -/
theorem uniqVotes_some
    {msg : CertType H}
    {votes : List Vote}
    {start voters : Finset Replica}
    (hVotes : uniqVotes cx msg start votes = some voters) :
    voters = start ∪ (votes.map Vote.origin).toFinset ∧
      ∀ v ∈ votes, SignedVote cx msg v := by
  induction votes generalizing start with
  | nil =>
      cases hVotes
      refine ⟨by simp, ?_⟩
      intro v hMem
      cases hMem
  | cons v votes ih =>
      unfold uniqVotes at hVotes
      split at hVotes
      · cases hVotes
      · rename_i publicKey hKey
        split at hVotes
        · rename_i hVerify
          rcases ih hVotes with ⟨hVoters, hSigned⟩
          constructor
          · rw [hVoters]
            simp [Finset.insert_union]
          · intro other hMem
            rcases List.mem_cons.mp hMem with rfl | hMem
            · exact ⟨publicKey, hKey, hVerify⟩
            · exact hSigned other hMem
        · cases hVotes

/- What the certificate of a parent has to be. -/
theorem checkParentCert_true
    (hCheck : checkParentCert p block cx = true) :
    (∃ view, p.cert.msg = .vote view block.header.prev) ∧
      (∀ v ∈ p.cert.votes, SignedVote cx p.cert.msg v) ∧
      cx.numFaults ≤
        (p.cert.votes.map Vote.origin).toFinset.card ∧
      block.header.prev = cx.lastSeenBlock.hash := by
  unfold checkParentCert at hCheck
  split at hCheck
  · rename_i view hash hMsg
    split at hCheck
    · cases hCheck
    · rename_i hHash
      split at hCheck
      · cases hCheck
      · rename_i voters hVotes
        split at hCheck
        · cases hCheck
        · rename_i hEnough
          rcases uniqVotes_some hVotes with
            ⟨hVoters, hSigned⟩
          rw [Finset.empty_union] at hVoters
          refine ⟨⟨view, ?_⟩, hSigned, ?_,
            of_decide_eq_true hCheck⟩
          · rw [hMsg, not_not.mp hHash]
          · rw [← hVoters]
            exact Nat.le_of_not_lt hEnough
  · cases hCheck

/- An accepted proposal has passed every check. -/
theorem checkProposal_true
    (hCheck : checkProposal p block cx = .ok true) :
    block.hash = p.blockHash ∧
      block.header.author = cx.leaderOfView ∧
      (block.header.height = 1 →
        block.header.prev = Crypto.emptyHash) ∧
      (∃ publicKey,
        cx.pubKeyMap.lookup block.header.author =
            some publicKey ∧
          Crypto.verify publicKey (.hash block.hash)
            p.proof = true) ∧
      cx.view = p.view ∧
      (block.header.height ≠ 1 →
        checkParentCert p block cx = true) := by
  unfold checkProposal at hCheck
  split at hCheck
  · cases hCheck
  · rename_i hHash
    split at hCheck
    · cases hCheck
    · rename_i hAuthor
      split at hCheck
      · cases hCheck
      · rename_i hFirst
        split at hCheck
        · cases hCheck
        · split at hCheck
          · cases hCheck
          · rename_i publicKey hKey
            split at hCheck
            · cases hCheck
            · rename_i hVerify
              split at hCheck
              · cases hCheck
              · rename_i hView
                refine
                  ⟨not_not.mp hHash, not_not.mp hAuthor,
                    ?_, ⟨publicKey, hKey, by
                      simpa using hVerify⟩,
                    not_not.mp hView, ?_⟩
                · intro hHeight
                  by_contra hPrev
                  exact hFirst ⟨hHeight, hPrev⟩
                · intro hHeight
                  rw [if_neg hHeight] at hCheck
                  exact Except.ok.inj hCheck

theorem checkReceived_true
    (hCheck : checkReceived p block batch cx = .ok true) :
    cx.storage.isDeliveredByHash block.hash = false ∧
      checkProposal p block cx = .ok true ∧
      checkBatchHash block batch = true := by
  unfold checkReceived at hCheck
  split at hCheck
  · cases hCheck
  · rename_i hFresh
    rcases Result.bind_eq_ok.mp hCheck with
      ⟨valid, hValid, hRest⟩
    cases valid with
    | false => cases hRest
    | true =>
        exact ⟨by simpa using hFresh, hValid,
          Except.ok.inj hRest⟩

/- A fresh block that passed the checks, on its parent. -/
structure Accepts
    (cx : Context H)
    (p : Propose H)
    (block : Block H) : Prop where
  fresh : cx.storage.isDeliveredByHash block.hash = false
  check : checkProposal p block cx = .ok true
  parent :
    cx.storage.isDeliveredByHash block.header.prev = true

theorem Accepts.valid
    (hAccepts : Accepts cx p block) :
    cx.ledger.Valid p block := by
  rcases checkProposal_true hAccepts.check with
    ⟨hHash, hAuthor, hFirst, hProof, hView, hCert⟩
  exact
    { hash := hHash
      author := hAuthor
      first := hFirst
      later := fun hHeight =>
        (checkParentCert_true (hCert hHeight)).2.2.2
      proof := hProof
      view := hView
      fresh := hAccepts.fresh
      parent := hAccepts.parent }

/- Everything a received proposal can do. -/
theorem onReceiveProposal_ok
    {decision : Bool}
    (hReceive :
      onReceiveProposal p block batch cx =
        .ok (decision, cx')) :
    (decision = false ∧
        (cx' = cx ∨
          (checkBatchHash block batch = true ∧
            cx' =
              cx.persistBatch block.body.batchHash
                batch))) ∨
      (decision = true ∧
        Accepts cx p block ∧
        checkBatchHash block batch = true ∧
        cx' =
          castVote p block
            (cx.persistBatch block.body.batchHash
              batch)) := by
  rcases Result.bind_eq_ok.mp hReceive with
    ⟨passed, hCheck, hRest⟩
  cases passed with
  | false =>
      cases hRest
      exact Or.inl ⟨rfl, Or.inl rfl⟩
  | true =>
      rcases checkReceived_true hCheck with
        ⟨hFresh, hValid, hBatch⟩
      simp only [if_true, Except.ok.injEq] at hRest
      unfold onNewValidProposal at hRest
      split at hRest
      · cases hRest
        exact Or.inl ⟨rfl, Or.inr ⟨hBatch, rfl⟩⟩
      · rename_i hParent
        cases hRest
        refine Or.inr
          ⟨rfl, ⟨hFresh, hValid, ?_⟩, hBatch, rfl⟩
        simpa [Context.persistBatch] using hParent

/- Everything a message can do to the context. -/
inductive Processed
    (cx : Context H) : ProtocolMsg H → Context H → Prop
| ignored (msg : ProtocolMsg H) : Processed cx msg cx
| stored
    (p : Propose H)
    (block : Block H)
    (batch : Batch)
    (hBatch : checkBatchHash block batch = true) :
    Processed cx (.newProposal p block batch)
      (cx.persistBatch block.body.batchHash batch)
| accepted
    (p : Propose H)
    (block : Block H)
    (batch : Batch)
    (hAccepts : Accepts cx p block)
    (hBatch : checkBatchHash block batch = true) :
    Processed cx (.newProposal p block batch)
      (startTimer p
        (castVote p block
          (cx.persistBatch block.body.batchHash batch)))
| counted
    (c : Certificate H)
    (p : Propose H)
    (decision : Bool)
    (voted : Context H)
    (hVote : onVote c p cx = .ok (decision, voted)) :
    Processed cx (.voteMsg c p) voted

theorem processMsg_processed
    {msg : ProtocolMsg H}
    (hProcess : processMsg msg cx = .ok cx') :
    Processed cx msg cx' := by
  cases msg with
  | newProposal p block batch =>
      rcases Result.bind_eq_ok.mp hProcess with
        ⟨⟨decision, received⟩, hReceive, hDone⟩
      rcases onReceiveProposal_ok hReceive with
        ⟨rfl, rfl | ⟨hBatch, rfl⟩⟩ |
          ⟨rfl, hAccepts, hBatch, rfl⟩
      · cases hDone
        exact .ignored _
      · cases hDone
        exact .stored p block batch hBatch
      · cases hDone
        exact .accepted p block batch hAccepts hBatch
  | voteMsg c p =>
      rcases Result.bind_eq_ok.mp hProcess with
        ⟨⟨decision, voted⟩, hVote, hDone⟩
      cases hDone
      exact .counted c p decision _ hVote
  | _ =>
      cases hProcess
      exact .ignored _

/- What a proposal leaves behind. -/
theorem propose_ok
    {batchHash : H}
    (hPropose : propose batchHash batch cx = .ok cx') :
    ∃ block p,
      newBlock batchHash cx = .ok block ∧
        newPropose block cx = .ok p ∧
        cx' = startTimer p (dispatch p block batch cx) := by
  rcases Result.bind_eq_ok.mp hPropose with
    ⟨⟨p, proposed⟩, hDo, hDone⟩
  rcases Result.bind_eq_ok.mp hDo with
    ⟨block, hBlock, hRest⟩
  rcases Result.bind_eq_ok.mp hRest with
    ⟨p', hNew, hEnd⟩
  cases hEnd
  cases hDone
  exact ⟨block, p, hBlock, hNew, rfl⟩

omit [Crypto H] in
/- Adding a vote touches the collected votes only. -/
theorem addVote_frame
    {hash : H}
    (hAdd : addVote c hash cx = .ok cx') :
    ∃ voteMap certMap cert,
      cx' =
        { cx with
          voteMap := voteMap
          certMap := certMap
          lastSeenCert := cert } := by
  unfold addVote at hAdd
  split at hAdd
  · cases hAdd
    exact ⟨_, _, _, rfl⟩
  · split at hAdd
    · cases hAdd
      exact ⟨_, _, _, rfl⟩
    · rcases Result.bind_eq_ok.mp hAdd with
        ⟨cert, _, hRest⟩
      dsimp only at hRest
      split at hRest
      · cases hRest
        exact ⟨_, _, _, rfl⟩
      · cases hRest
        exact ⟨_, _, _, rfl⟩

/- A vote message is dropped, or its vote is added. -/
theorem onVote_ok
    {decision : Bool}
    (hVote : onVote c p cx = .ok (decision, cx')) :
    cx' = cx ∨
      ∃ hash,
        checkVote c p cx = .ok (some hash) ∧
          addVote c hash cx = .ok cx' := by
  rcases Result.bind_eq_ok.mp hVote with
    ⟨checked, hCheck, hRest⟩
  cases checked with
  | none =>
      cases hRest
      exact Or.inl rfl
  | some hash =>
      rcases Result.bind_eq_ok.mp hRest with
        ⟨added, hAdd, hDone⟩
      cases hDone
      exact Or.inr ⟨hash, hCheck, hAdd⟩

theorem onVote_frame
    {decision : Bool}
    (hVote : onVote c p cx = .ok (decision, cx')) :
    ∃ voteMap certMap cert,
      cx' =
        { cx with
          voteMap := voteMap
          certMap := certMap
          lastSeenCert := cert } := by
  rcases onVote_ok hVote with rfl | ⟨hash, _, hAdd⟩
  · exact ⟨_, _, _, rfl⟩
  · exact addVote_frame hAdd

theorem onVote_ledger
    {decision : Bool}
    (hVote : onVote c p cx = .ok (decision, cx')) :
    cx'.ledger = cx.ledger := by
  rcases onVote_frame hVote with ⟨_, _, _, rfl⟩
  rfl

/- A commit also touches batch stores and announcements. -/
theorem commitBlock_eq
    (block : Block H)
    (cx : Context H) :
    ∃ batches announced,
      commitBlock block cx =
        { cx with
          lastCommittedBlockHt := block.header.height
          storage := cx.storage.addCommittedBlock block
          batches := batches
          announced := announced } := by
  unfold commitBlock Context.multicastClient
  dsimp only
  split
  · exact ⟨_, _, rfl⟩
  · exact ⟨_, _, rfl⟩

/-
  What `on_commit` can do: nothing, or commit the delivered
  block of the proposal.
-/
theorem onCommit_cases
    (p : Propose H)
    (cx : Context H) :
    onCommit p cx = cx ∨
      ∃ block batches announced,
        cx.storage.deliveredBlockFromHash p.blockHash =
            some block ∧
          cx.storage.isCommittedByHash block.hash = false ∧
          onCommit p cx =
            { cx with
              lastCommittedBlockHt := block.header.height
              storage := cx.storage.addCommittedBlock block
              batches := batches
              announced := announced } := by
  unfold onCommit
  cases hLookup :
      cx.storage.deliveredBlockFromHash p.blockHash with
  | none => exact Or.inl rfl
  | some block =>
      dsimp only
      split
      · exact Or.inl rfl
      · rename_i hOpen
        rcases commitBlock_eq block cx with
          ⟨batches, announced, hEq⟩
        exact Or.inr ⟨block, batches, announced, rfl,
          (Bool.not_eq_true _).mp hOpen, hEq⟩

/- The blocks that are stored and all else stay as they are. -/
theorem onCommit_frame
    (p : Propose H)
    (cx : Context H) :
    ∃ height storage batches announced,
      storage.deliveredBlockFromHash =
          cx.storage.deliveredBlockFromHash ∧
        storage.deliveredBlockFromHt =
          cx.storage.deliveredBlockFromHt ∧
        onCommit p cx =
          { cx with
            lastCommittedBlockHt := height
            storage := storage
            batches := batches
            announced := announced } := by
  rcases onCommit_cases p cx with
    hSame | ⟨block, batches, announced, _, _, hEq⟩
  · exact ⟨cx.lastCommittedBlockHt, cx.storage, cx.batches,
      cx.announced, rfl, rfl, hSame⟩
  · exact ⟨block.header.height,
      cx.storage.addCommittedBlock block, batches,
      announced, rfl, rfl, hEq⟩

/- A commit is a step of the ledger. -/
theorem onCommit_ledger
    (movesOn : Bool)
    (event : Event H)
    (p : Propose H)
    (cx : Context H) :
    Ledger.Step movesOn event cx.ledger
      (onCommit p cx).ledger := by
  rcases onCommit_cases p cx with
    hSame | ⟨block, _, _, hLookup, _, hEq⟩
  · rw [hSame]
    exact .skip
  · rw [hEq]
    have hHash : block.hash = p.blockHash :=
      Storage.getHash_of_delivered hLookup
    refine .commit block ?_
    rw [hHash]
    exact hLookup

omit [Crypto H] in
theorem nextHeight_ok
    {height next : Nat}
    (hNext : nextHeight height = .ok next) :
    next = height + 1 := by
  unfold nextHeight at hNext
  split at hNext
  · exact (Except.ok.inj hNext).symm
  · cases hNext

theorem newBlock_ok
    {batchHash : H}
    (hNew : newBlock batchHash cx = .ok block) :
    block =
      Block.extending cx.lastSeenBlock cx.myid
        (cx.lastSeenBlock.header.height + 1)
        batchHash := by
  rcases Result.bind_eq_ok.mp hNew with
    ⟨height, hHeight, hBlock⟩
  rw [nextHeight_ok hHeight] at hBlock
  exact (Except.ok.inj hBlock).symm

theorem newPropose_ok
    (hNew : newPropose block cx = .ok p) :
    ∃ cert,
      cx.certMap.lookup cx.lastSeenBlock.hash = some cert ∧
        p =
          { proof :=
              Crypto.sign cx.mySecretKey (.hash block.hash)
            cert := cert
            view := cx.view
            blockHash := block.hash } := by
  unfold newPropose at hNew
  cases hCert :
      cx.certMap.lookup cx.lastSeenBlock.hash with
  | none => simp [hCert] at hNew
  | some cert =>
      simp only [hCert, Except.ok.injEq] at hNew
      exact ⟨cert, rfl, hNew.symm⟩

/- A signed block and its proposal are what `Builds` says. -/
theorem builds_of_ok
    {batchHash : H}
    (hBlock : newBlock batchHash cx = .ok block)
    (hPropose : newPropose block cx = .ok p) :
    cx.ledger.Builds batchHash p block := by
  rcases newPropose_ok hPropose with ⟨cert, _, rfl⟩
  exact ⟨newBlock_ok hBlock, rfl, rfl⟩

end Synchs

end LibApollo

------------------------------------------------------------
-- Refinement
------------------------------------------------------------

namespace LibApollo

namespace Synchs

variable {H C : Type} [DecidableEq H] [Crypto H]

/- The handlers of a protocol are steps of its ledger. -/
structure Protocol.Refines
    (protocol : Protocol H C)
    (movesOn : Bool) : Prop where
  processMsg :
    ∀ msg cx cx',
      protocol.processMsg msg cx = .ok cx' →
        Ledger.Step movesOn (.recv msg)
          (protocol.base cx).ledger
          (protocol.base cx').ledger
  propose :
    ∀ batchHash batch rest cx cx',
      protocol.propose batchHash batch
          (protocol.lift (keepBatches rest) cx) =
        .ok cx' →
        ∃ p block,
          (protocol.base cx).ledger.Builds batchHash p
              block ∧
            (protocol.base cx').ledger =
              (protocol.base cx).ledger.propose movesOn p
                block batch rest

theorem Protocol.Refines.proposeLoop
    {protocol : Protocol H C}
    {movesOn : Bool}
    {event : Event H}
    {node node' : Node C}
    (hRefines : protocol.Refines movesOn)
    (hLoop : protocol.proposeLoop node = .ok node') :
    Ledger.Step movesOn event
      (protocol.base node.cx).ledger
      (protocol.base node'.cx).ledger := by
  unfold Protocol.proposeLoop at hLoop
  dsimp only at hLoop
  split at hLoop
  · cases hLoop
    exact .skip
  · rename_i batchHash batch rest hPending
    split at hLoop
    · rename_i hGuard
      rcases Result.map_eq_ok.mp hLoop with
        ⟨proposed, hPropose, rfl⟩
      rcases hRefines.propose _ _ _ _ _ hPropose with
        ⟨p, block, hBuilds, hLedger⟩
      dsimp only
      rw [hLedger]
      exact .propose p block batchHash batch rest hGuard.1
        hPending hBuilds
    · cases hLoop
      exact .skip

/- Every step of the reactor is a step of the ledger. -/
theorem Protocol.Refines.step
    {protocol : Protocol H C}
    {movesOn : Bool}
    {event : Event H}
    {node node' : Node C}
    (hRefines : protocol.Refines movesOn)
    (hStep : protocol.step node event = .ok node') :
    Ledger.Step movesOn event
      (protocol.base node.cx).ledger
      (protocol.base node'.cx).ledger := by
  unfold Protocol.step at hStep
  split at hStep
  · rcases Result.map_eq_ok.mp hStep with
      ⟨processed, hProcess, rfl⟩
    exact hRefines.processMsg _ _ _ hProcess
  · cases hStep
    dsimp only
    rw [protocol.base_lift]
    exact .queue _ _ rfl
  · split at hStep
    · cases hStep
      exact .skip
    · cases hStep
      dsimp only
      rw [protocol.base_lift]
      exact onCommit_ledger (H := H) movesOn _ _
        (removeTimer _ (protocol.base node.cx))
  · cases hStep
    dsimp only
    rw [protocol.base_lift]
    exact .skip
  · exact hRefines.proposeLoop hStep
  · cases hStep
    exact .skip

/- A Sync HotStuff leader stays at its last seen block. -/
theorem protocol_refines :
    (protocol : Protocol H (Context H)).Refines false where
  processMsg := by
    intro msg cx cx' hProcess
    cases processMsg_processed hProcess with
    | ignored => exact .skip
    | stored p block batch => exact .skip
    | accepted p block batch hAccepts =>
        exact .deliver p block batch _ rfl hAccepts.valid
    | counted c p decision voted hVote =>
        change Ledger.Step _ _ cx.ledger cx'.ledger
        rw [onVote_ledger hVote]
        exact .skip
  propose := by
    intro batchHash batch rest cx cx' hPropose
    rcases propose_ok hPropose with
      ⟨block, p, hBlock, hNew, rfl⟩
    exact ⟨p, block, builds_of_ok hBlock hNew, rfl⟩

end Synchs

end LibApollo
