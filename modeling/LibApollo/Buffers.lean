import LibApollo.Apollo.CommitSafety
import LibApollo.Apollo.Transitions
import LibApollo.Artemis.Buffers
import LibApollo.Artemis.Invariant

/-
  Proposals and votes that are kept for later rounds, in
  Apollo and Artemis.

  Signatures are checked when a round is reached and not
  when a message is kept.  An entry stays until its round,
  unless a proposal or vote for the same round is taken up
  and takes its place, be it signed or not.

  Key definitions include:
    * `Apollo.TakesUp`

  Key theorems include:
    * `Apollo.step_futureMsgs`
    * `buffered_until_taken_up`
-/

------------------------------------------------------------
-- Proposals of Later Rounds
------------------------------------------------------------

namespace LibApollo

namespace Apollo

variable {H : Type} [DecidableEq H] [Crypto H]
variable {cx cx' : Context H}
variable {node node' : Node H}
variable {event : Event H}
variable {sender : Replica}
variable {p : Propose H}
variable {block : Block H}
variable {round : Nat}

/- The proposal that is handed to `tryReceiveProposal`. -/
def TakesUp
    (node : Node H)
    (event : Event H)
    (p : Propose H) : Prop :=
  event = .internal ∧
    ∃ block, candidate node = some (p, block)

omit [Crypto H] in
theorem send_futureMsgs
    (cx : Context H)
    (dest : Replica)
    (msg : ProtocolMsg H) :
    (cx.send dest msg).futureMsgs = cx.futureMsgs := by
  rcases send_outbox cx dest msg with ⟨_, hEq⟩
  rw [hEq]

theorem Receives.futureMsgs
    (hReceives : Receives sender p block cx cx')
    (hRound : p.round ≠ round) :
    cx'.futureMsgs.lookup round =
      cx.futureMsgs.lookup round := by
  cases hReceives with
  | refuse _ _ => rfl
  | keep _ =>
      rw [FinMap.lookup_insert_eq,
        if_neg (fun hEq => hRound hEq.symm)]
  | equivocation _ _ => rfl
  | accept _ _ hAccept =>
      rcases acceptProposal_ok hAccept with
        ⟨_, _, _, _, _, _, rfl⟩
      rfl

/- A proposal is kept only if its block can be delivered. -/
theorem Delivers.futureMsgs
    (hDelivers : Delivers sender p block cx cx')
    (hOther :
      cx.storage.isDeliveredByHash block.header.prev =
          true →
        p.round ≠ round) :
    cx'.futureMsgs.lookup round =
      cx.futureMsgs.lookup round := by
  cases hDelivers with
  | park _ =>
      unfold requestParent
      rw [send_futureMsgs]
      rfl
  | hand hParent hReceives =>
      have hKept := hReceives.futureMsgs (hOther hParent)
      exact hKept

theorem deliveryCheck_futureMsgs
    {blockAndBatch : Option (Block H × Batch)}
    {next : Option H}
    (hCheck :
      deliveryCheck sender p blockAndBatch cx =
        .ok (cx', next))
    (hSent :
      ∀ block batch,
        cx.propChainByRound.lookup p.round = none →
          blockAndBatch = some (block, batch) →
          block.hash = p.blockHash →
          checkBatchHash block batch = true →
          cx.storage.isDeliveredByHash block.header.prev =
            true →
          p.round ≠ round)
    (hStored :
      ∀ block,
        cx.propChainByRound.lookup p.round = none →
          blockAndBatch = none →
          cx.storage.deliveredBlockFromHash p.blockHash =
            some block →
          cx.storage.isDeliveredByHash block.header.prev =
            true →
          p.round ≠ round) :
    cx'.futureMsgs.lookup round =
      cx.futureMsgs.lookup round := by
  by_cases hDone :
      (cx.propChainByRound.lookup p.round).isSome
  · unfold deliveryCheck at hCheck
    rw [if_pos hDone] at hCheck
    cases hCheck
    rfl
  have hOpen :
      cx.propChainByRound.lookup p.round = none := by
    simpa using hDone
  cases deliveryCheck_resolves hCheck with
  | leave => rfl
  | ask _ _ =>
      unfold requestBlock
      rw [send_futureMsgs]
  | sent hPair hHash hBatch hDelivers =>
      have hKept :=
        hDelivers.futureMsgs
          (hSent _ _ hOpen hPair hHash hBatch)
      exact hKept
  | stored hNone hLookup hDelivers =>
      exact hDelivers.futureMsgs
        (hStored _ hOpen hNone hLookup)

omit [Crypto H] in
/- The proposal of a block that is stored already. -/
theorem storedCandidate_eq
    (hOpen : cx.propChainByRound.lookup p.round = none)
    (hLookup :
      cx.storage.deliveredBlockFromHash p.blockHash =
        some block)
    (hParent :
      cx.storage.isDeliveredByHash block.header.prev =
        true) :
    storedCandidate cx p = some (p, block) := by
  simp [storedCandidate, hLookup, hOpen, hParent]

theorem processMessage_futureMsgs
    (hIdle : node.waiting = none)
    (hLater : node.cx.round < round)
    (hOther :
      ∀ p, TakesUp node .internal p → p.round ≠ round)
    (hStep : processMessage node = .ok node') :
    node'.cx.futureMsgs.lookup round =
      node.cx.futureMsgs.lookup round := by
  unfold processMessage at hStep
  dsimp only at hStep
  split at hStep
  · rename_i hPhase
    split at hStep
    · cases hStep
      rfl
    · rename_i sender p block batch rest hQueue
      rcases afterDelivery_cx hStep with ⟨next, hCheck⟩
      apply deliveryCheck_futureMsgs hCheck
      · intro other otherBatch hOpen hPair hHash hBatch
          hParent
        cases hPair
        refine hOther p ⟨rfl, block, ?_⟩
        unfold candidate
        dsimp only at hOpen hParent ⊢
        rw [hIdle, hPhase, hQueue]
        simp [hOpen, hHash, hBatch, hParent]
      · intro other _ hNone
        cases hNone
  · rename_i hPhase
    split at hStep
    · cases hStep
      rfl
    · rename_i sender p rest hQueue
      rcases afterDelivery_cx hStep with ⟨next, hCheck⟩
      apply deliveryCheck_futureMsgs hCheck
      · intro _ _ _ hPair
        cases hPair
      · intro block hOpen _ hLookup hParent
        refine hOther p ⟨rfl, block, ?_⟩
        unfold candidate
        dsimp only
        rw [hIdle, hPhase, hQueue]
        exact storedCandidate_eq hOpen hLookup hParent
  · split at hStep
    · cases hStep
      rfl
    · split at hStep
      · rename_i sender reqId hash _
        cases hStep
        rcases onRecvRequest_eq sender reqId hash
            { node.cx with otherBuf := _ } with
          ⟨_, _, hEq⟩
        dsimp only
        rw [hEq]
      · cases hStep
      · cases hStep
        rfl
  · rename_i hPhase
    split at hStep
    · cases hStep
      rfl
    · rename_i sender p hFuture
      rcases afterDelivery_cx hStep with ⟨next, hCheck⟩
      have hKept :
          (node.cx.futureMsgs.erase
              node.cx.round).lookup round =
            node.cx.futureMsgs.lookup round := by
        rw [FinMap.lookup_erase_eq,
          if_neg (Nat.ne_of_gt hLater)]
      rw [← hKept]
      apply deliveryCheck_futureMsgs hCheck
      · intro _ _ _ hPair
        cases hPair
      · intro block hOpen _ hLookup hParent
        refine hOther p ⟨rfl, block, ?_⟩
        unfold candidate
        dsimp only
        rw [hIdle, hPhase, hFuture]
        exact storedCandidate_eq hOpen hLookup hParent
  · cases hStep
    rfl

theorem deliverWaitingChild_futureMsgs
    {hash : H}
    {next : Option H}
    (hWaiting : node.waiting = some (hash, sender))
    (hOther :
      ∀ p, TakesUp node .internal p → p.round ≠ round)
    (hDeliver :
      deliverWaitingChild sender hash node.cx =
        .ok (cx', next)) :
    cx'.futureMsgs.lookup round =
      node.cx.futureMsgs.lookup round := by
  unfold deliverWaitingChild at hDeliver
  split at hDeliver
  · cases hDeliver
    rfl
  · rename_i p hParked
    dsimp only at hDeliver
    split at hDeliver
    · cases hDeliver
    · rename_i child hChild
      rcases Result.bind_eq_ok.mp hDeliver with
        ⟨received, hReceive, hEnd⟩
      cases hEnd
      have hRound : p.round ≠ round := by
        refine hOther p ⟨rfl, child, ?_⟩
        unfold candidate
        dsimp only
        rw [hWaiting]
        dsimp only
        rw [hParked]
        dsimp only
        rw [hChild]
        rfl
      have hKept :=
        (receiveOrKeep_receives hReceive).futureMsgs hRound
      exact hKept

theorem doPropose_futureMsgs
    {batchHash : H}
    {batch : Batch}
    (hPropose : doPropose batchHash batch cx = .ok cx') :
    cx'.futureMsgs = cx.futureMsgs := by
  unfold doPropose onReceiveProposal at hPropose
  dsimp only at hPropose
  split at hPropose
  · cases hPropose
    rfl
  · rcases acceptProposal_ok hPropose with
      ⟨_, _, _, _, _, _, rfl⟩
    rfl

/- Outside input is queued only. -/
theorem input_futureMsgs
    (hInput : event ≠ .internal)
    (hStep : step node event = .ok node') :
    node'.cx.futureMsgs = node.cx.futureMsgs := by
  cases event with
  | tick =>
      simp only [step] at hStep
      split at hStep
      · cases hStep
        dsimp only
        split
        · rfl
        · rfl
      · cases hStep
        rfl
  | recv msg =>
      simp only [step] at hStep
      split at hStep
      · cases hStep
        cases msg <;> rfl
      · cases hStep
        rfl
  | sealed batch =>
      cases hStep
      rfl
  | batch batchHash batch =>
      simp only [step] at hStep
      split at hStep
      · cases hStep
        rfl
      · cases hStep
        rfl
  | internal => exact absurd rfl hInput

/- The proposal of a later round is kept. -/
theorem step_futureMsgs
    (hLater : node.cx.round < round)
    (hOther :
      ∀ p, TakesUp node event p → p.round ≠ round)
    (hStep : step node event = .ok node') :
    node'.cx.futureMsgs.lookup round =
      node.cx.futureMsgs.lookup round := by
  by_cases hInternal : event = .internal
  · subst hInternal
    change internalStep node = .ok node' at hStep
    unfold internalStep at hStep
    split at hStep
    · rename_i hWaiting
      rcases afterDelivery_cx hStep with ⟨next, hDeliver⟩
      exact deliverWaitingChild_futureMsgs hWaiting hOther
        hDeliver
    · rename_i hIdle
      split at hStep
      · cases hStep
        rfl
      · cases hStep
        rfl
      · unfold proposeLoop at hStep
        dsimp only at hStep
        split at hStep
        · cases hStep
          rfl
        · split at hStep
          · rcases Result.bind_eq_ok.mp hStep with
              ⟨proposed, hPropose, hEnd⟩
            cases hEnd
            rw [doPropose_futureMsgs hPropose]
          · cases hStep
            rfl
      · exact processMessage_futureMsgs hIdle hLater hOther
          hStep
  · rw [input_futureMsgs hInternal hStep]

end Apollo

end LibApollo

------------------------------------------------------------
-- Runs
------------------------------------------------------------

namespace LibApollo

variable {H : Type} [DecidableEq H] [Crypto H]

/-
  Entries for later rounds stay until another proposal or
  vote of the round is taken up, and votes for missing
  blocks until another vote for the block is taken up or the
  block is delivered, whatever is received.
-/
theorem buffered_until_taken_up :
    (∀ (start node : Apollo.Node H) round entry,
      start.cx.futureMsgs.lookup round = some entry →
        Machine.Reach Apollo.step
            (fun node event =>
              node.cx.round < round ∧
                ∀ p, Apollo.TakesUp node event p →
                  p.round ≠ round)
            start node →
        node.cx.futureMsgs.lookup round = some entry) ∧
      (∀ (start node : Artemis.Node H) round v,
        start.cx.voteReady.lookup round = some v →
          Machine.Reach Artemis.step
              (fun node event =>
                node.cx.round < round ∧
                  ∀ w, Artemis.TakesUpVote node event w →
                    w.round ≠ round)
              start node →
          node.cx.voteReady.lookup round = some v) ∧
      ∀ config (start node : Artemis.Node H) hash v,
        Machine.Reach Artemis.step (fun _ _ => True)
            (Artemis.Node.new config) start →
          start.cx.voteWaiting.lookup hash = some v →
          Machine.Reach Artemis.step
              (fun node event =>
                (∀ w, Artemis.NextVote node event w →
                  w.hash ≠ hash) ∧
                ∀ node',
                  Artemis.step node event = .ok node' →
                    node'.cx.storage.isDeliveredByHash
                      hash = false)
              start node →
          node.cx.voteWaiting.lookup hash = some v := by
  refine ⟨?_, ?_, ?_⟩
  · intro start node round entry hEntry hReach
    apply hReach.invariant
      (fun node =>
        node.cx.futureMsgs.lookup round = some entry)
      hEntry
    intro node node' event hNow hGuard hStep
    rw [Apollo.step_futureMsgs hGuard.1 hGuard.2 hStep]
    exact hNow
  · intro start node round v hEntry hReach
    apply hReach.invariant
      (fun node => node.cx.voteReady.lookup round = some v)
      hEntry
    intro node node' event hNow hGuard hStep
    rw [Artemis.step_voteReady hGuard.1 hGuard.2 hStep]
    exact hNow
  · intro config start node hash v hStart hEntry hReach
    have hBoth :
        Artemis.Shelved node.cx ∧
          node.cx.voteWaiting.lookup hash = some v := by
      apply hReach.invariant
        (fun node =>
          Artemis.Shelved node.cx ∧
            node.cx.voteWaiting.lookup hash = some v)
        ⟨Artemis.Reach.shelved hStart, hEntry⟩
      intro node node' event hNow hGuard hStep
      refine ⟨hNow.1.transition
        (Artemis.step_transition hStep), ?_⟩
      rw [Artemis.step_voteWaiting hNow.1 hGuard.1 hStep
        (hGuard.2 node' hStep)]
      exact hNow.2
    exact hBoth.2

end LibApollo

------------------------------------------------------------
-- Entries That Are Replaced
------------------------------------------------------------

namespace LibApollo

namespace Apollo

/- A proposal of the leader of round 2, as it is signed. -/
def signedProposal : Propose Digest :=
  Propose.signed (Digest.keyOf 1) 1 2
    (Digest.blockOn Block.genesis 1 1).hash

/- One in its name, without a signature. -/
def bareProposal : Propose Digest where
  sig := ⟨1, []⟩
  round := 2
  blockHash := (Digest.blockOn Block.genesis 1 2).hash

/- The signed proposal comes while round 1 goes on. -/
def keptRun : List (Event Digest) :=
  .recv (.newProposal signedProposal
      (Digest.blockOn Block.genesis 1 1) oneBatch) ::
    List.replicate 8 .internal

/- Only this message comes in. -/
def onlyCheck
    (msg : ProtocolMsg Digest)
    (event : Event Digest) : Bool :=
  decide (event = .internal ∨ event = .recv msg)

def futureCheck
    (node : Node Digest)
    (round : Nat)
    (entry : Replica × Propose Digest) : Bool :=
  decide (node.cx.round < round ∧
    node.cx.futureMsgs.lookup round = some entry)

/- The unsigned proposal takes the place of the signed one. -/
theorem future_replaced :
    ∃ start node : Node Digest,
      Machine.Reach step (fun _ event => Decoded event)
          (Node.new (smallConfig 2)) start ∧
        (start.cx.round < 2 ∧
          start.cx.futureMsgs.lookup 2 =
            some (1, signedProposal)) ∧
        Machine.Reach step
          (fun _ event =>
            event = .internal ∨
              event = .recv
                (.newProposal bareProposal
                  (Digest.blockOn Block.genesis 1 2)
                  oneBatch))
          start node ∧
        node.cx.round < 2 ∧
        node.cx.futureMsgs.lookup 2 =
          some (1, bareProposal) := by
  have hRun :
      Machine.runCheck step
        (fun _ event => decodedCheck event)
        (fun start =>
          futureCheck start 2 (1, signedProposal) &&
            Machine.runCheck step
              (fun _ event =>
                onlyCheck
                  (.newProposal bareProposal
                    (Digest.blockOn Block.genesis 1 2)
                    oneBatch) event)
              (fun node =>
                futureCheck node 2 (1, bareProposal))
              start
              [.recv (.newProposal bareProposal
                (Digest.blockOn Block.genesis 1 2) oneBatch),
                .internal, .internal])
        (Node.new (smallConfig 2)) keptRun = true := by
    decide +kernel
  rcases Machine.Reach.through
      (fun _ _ hCheck => decoded_of_decodedCheck hCheck)
      (fun _ _ hCheck => of_decide_eq_true hCheck) hRun with
    ⟨start, node, hStart, hSigned, hReach, hUnsigned⟩
  exact ⟨start, node, hStart, of_decide_eq_true hSigned,
    hReach, of_decide_eq_true hUnsigned⟩

end Apollo

namespace Artemis

/- The vote of the leader of round 2, as it is signed. -/
def signedVote : UCRVote Digest :=
  voteFor 1 2 firstBlock

/- One in its name, without a signature. -/
def bareVote : UCRVote Digest :=
  { signedVote with vote := ⟨1, []⟩ }

def onlyCheck
    (msg : ProtocolMsg Digest)
    (event : Event Digest) : Bool :=
  decide (event = .internal ∨ event = .recv msg)

def readyCheck
    (node : Node Digest)
    (v : UCRVote Digest) : Bool :=
  decide (node.cx.round < 2 ∧
    node.cx.voteReady.lookup 2 = some v)

def waitingCheck
    (node : Node Digest)
    (v : Option (UCRVote Digest)) : Bool :=
  decide (node.cx.round < 2 ∧
    node.cx.voteWaiting.lookup firstBlock.blk.hash = v)

/- The block and the signed vote for it. -/
def readyRun : List (Event Digest) :=
  [.recv (.newBlock firstBlock oneBatch),
    .recv (.ucrVote signedVote)] ++
    List.replicate 10 .internal

/- The signed vote without the block. -/
def waitingRun : List (Event Digest) :=
  .recv (.ucrVote signedVote) :: List.replicate 9 .internal

theorem ready_replaced :
    ∃ start node : Node Digest,
      Machine.Reach step (fun _ event => Decoded event)
          (Node.new (smallConfig 2)) start ∧
        (start.cx.round < 2 ∧
          start.cx.voteReady.lookup 2 = some signedVote) ∧
        Machine.Reach step
          (fun _ event =>
            event = .internal ∨
              event = .recv (.ucrVote bareVote))
          start node ∧
        node.cx.round < 2 ∧
        node.cx.voteReady.lookup 2 = some bareVote := by
  have hRun :
      Machine.runCheck step
        (fun _ event => decodedCheck event)
        (fun start =>
          readyCheck start signedVote &&
            Machine.runCheck step
              (fun _ event =>
                onlyCheck (.ucrVote bareVote) event)
              (fun node => readyCheck node bareVote)
              start
              (.recv (.ucrVote bareVote) ::
                List.replicate 5 .internal))
        (Node.new (smallConfig 2)) readyRun = true := by
    decide +kernel
  rcases Machine.Reach.through
      (fun _ _ hCheck => decoded_of_decodedCheck hCheck)
      (fun _ _ hCheck => of_decide_eq_true hCheck) hRun with
    ⟨start, node, hStart, hSigned, hReach, hUnsigned⟩
  exact ⟨start, node, hStart, of_decide_eq_true hSigned,
    hReach, of_decide_eq_true hUnsigned⟩

/- What becomes of the waiting vote after a message. -/
theorem waiting_changed
    {msg : ProtocolMsg Digest}
    {later : Option (UCRVote Digest)}
    (hRun :
      Machine.runCheck step
        (fun _ event => decodedCheck event)
        (fun start =>
          waitingCheck start (some signedVote) &&
            Machine.runCheck step
              (fun _ event => onlyCheck msg event)
              (fun node => waitingCheck node later)
              start
              (.recv msg :: List.replicate 5 .internal))
        (Node.new (smallConfig 2)) waitingRun = true) :
    ∃ start node : Node Digest,
      Machine.Reach step (fun _ event => Decoded event)
          (Node.new (smallConfig 2)) start ∧
        (start.cx.round < 2 ∧
          start.cx.voteWaiting.lookup firstBlock.blk.hash =
            some signedVote) ∧
        Machine.Reach step
          (fun _ event =>
            event = .internal ∨ event = .recv msg)
          start node ∧
        node.cx.round < 2 ∧
        node.cx.voteWaiting.lookup firstBlock.blk.hash =
          later := by
  rcases Machine.Reach.through
      (fun _ _ hCheck => decoded_of_decodedCheck hCheck)
      (fun _ _ hCheck => of_decide_eq_true hCheck) hRun with
    ⟨start, node, hStart, hSigned, hReach, hLater⟩
  exact ⟨start, node, hStart, of_decide_eq_true hSigned,
    hReach, of_decide_eq_true hLater⟩

end Artemis

end LibApollo

namespace LibApollo

/-
  Signed entries are replaced by unsigned messages before
  their round is reached, and a block that comes from anyone
  takes the vote that waits for it out of the buffer.
-/
theorem signed_entries_replaced :
    (Apollo.signedProposal.checkSig (Digest.keyOf 1) =
          true ∧
        Apollo.bareProposal.checkSig (Digest.keyOf 1) =
          false ∧
        Artemis.signedVote.checkSig (Digest.keyOf 1) =
          true ∧
        Artemis.bareVote.checkSig (Digest.keyOf 1) =
          false) ∧
      (∃ start node : Apollo.Node Digest,
        Machine.Reach Apollo.step
            (fun _ event => Apollo.Decoded event)
            (Apollo.Node.new (Apollo.smallConfig 2))
            start ∧
          (start.cx.round < 2 ∧
            start.cx.futureMsgs.lookup 2 =
              some (1, Apollo.signedProposal)) ∧
          Machine.Reach Apollo.step
            (fun _ event =>
              event = .internal ∨
                event = .recv
                  (.newProposal Apollo.bareProposal
                    (Digest.blockOn Block.genesis 1 2)
                    oneBatch))
            start node ∧
          node.cx.round < 2 ∧
          node.cx.futureMsgs.lookup 2 =
            some (1, Apollo.bareProposal)) ∧
      (∃ start node : Artemis.Node Digest,
        Machine.Reach Artemis.step
            (fun _ event => Artemis.Decoded event)
            (Artemis.Node.new (Artemis.smallConfig 2))
            start ∧
          (start.cx.round < 2 ∧
            start.cx.voteReady.lookup 2 =
              some Artemis.signedVote) ∧
          Machine.Reach Artemis.step
            (fun _ event =>
              event = .internal ∨
                event =
                  .recv (.ucrVote Artemis.bareVote))
            start node ∧
          node.cx.round < 2 ∧
          node.cx.voteReady.lookup 2 =
            some Artemis.bareVote) ∧
      ∀ msg later,
        (msg = .ucrVote Artemis.bareVote ∧
            later = some Artemis.bareVote) ∨
          (msg = .response 0 0 Artemis.firstBlock oneBatch ∧
            later = none) →
        ∃ start node : Artemis.Node Digest,
          Machine.Reach Artemis.step
              (fun _ event => Artemis.Decoded event)
              (Artemis.Node.new (Artemis.smallConfig 2))
              start ∧
            (start.cx.round < 2 ∧
              start.cx.voteWaiting.lookup
                  Artemis.firstBlock.blk.hash =
                some Artemis.signedVote) ∧
            Machine.Reach Artemis.step
              (fun _ event =>
                event = .internal ∨ event = .recv msg)
              start node ∧
            node.cx.round < 2 ∧
            node.cx.voteWaiting.lookup
              Artemis.firstBlock.blk.hash = later := by
  refine ⟨by decide +kernel, Apollo.future_replaced,
    Artemis.ready_replaced, ?_⟩
  intro msg later hCases
  rcases hCases with ⟨rfl, rfl⟩ | ⟨rfl, rfl⟩
  · exact Artemis.waiting_changed (by decide +kernel)
  · exact Artemis.waiting_changed (by decide +kernel)

/- No proposal of this round is taken up. -/
def Apollo.untouchedCheck
    (round : Nat)
    (node : Apollo.Node Digest)
    (_event : Apollo.Event Digest) : Bool :=
  decide (node.cx.round < round) &&
    (Apollo.candidate node).all
      (fun taken => decide (taken.1.round ≠ round))

theorem Apollo.guard_of_untouchedCheck
    {round : Nat}
    {node : Apollo.Node Digest}
    {event : Apollo.Event Digest}
    (hCheck :
      Apollo.untouchedCheck round node event = true) :
    node.cx.round < round ∧
      ∀ p, Apollo.TakesUp node event p →
        p.round ≠ round := by
  simp only [Apollo.untouchedCheck, Bool.and_eq_true,
    decide_eq_true_eq] at hCheck
  refine ⟨hCheck.1, ?_⟩
  intro p hTakes
  rcases hTakes with ⟨_, block, hCandidate⟩
  rw [hCandidate] at hCheck
  exact of_decide_eq_true hCheck.2

/- The signed proposal stays when others come. -/
theorem buffered_among_others :
    ∃ start node : Apollo.Node Digest,
      start.cx.futureMsgs.lookup 2 =
          some (1, Apollo.signedProposal) ∧
        Machine.Reach Apollo.step
          (fun node event =>
            node.cx.round < 2 ∧
              ∀ p, Apollo.TakesUp node event p →
                p.round ≠ 2)
          start node ∧
        node.cx.futureMsgs.lookup 3 =
          some (0, { Apollo.bareProposal with
            round := 3 }) ∧
        node.cx.futureMsgs.lookup 2 =
          some (1, Apollo.signedProposal) := by
  have hRun :
      Machine.runCheck Apollo.step
        (fun _ event => Apollo.decodedCheck event)
        (fun start =>
          Apollo.futureCheck start 2
              (1, Apollo.signedProposal) &&
            Machine.runCheck Apollo.step
              (Apollo.untouchedCheck 2)
              (fun node =>
                Apollo.futureCheck node 3
                  (0, { Apollo.bareProposal with
                    round := 3 }))
              start
              [.recv (.response 0 0
                { Apollo.bareProposal with round := 3 }
                (Digest.blockOn Block.genesis 1 2) oneBatch),
                .internal, .internal])
        (Apollo.Node.new (Apollo.smallConfig 2))
        Apollo.keptRun = true := by
    decide +kernel
  rcases Machine.Reach.through
      (fun _ _ hCheck =>
        Apollo.decoded_of_decodedCheck hCheck)
      (fun _ _ hCheck =>
        Apollo.guard_of_untouchedCheck hCheck)
      hRun with
    ⟨start, node, _, hSigned, hReach, hOther⟩
  have hEntry := (of_decide_eq_true hSigned).2
  exact ⟨start, node, hEntry, hReach,
    (of_decide_eq_true hOther).2,
    buffered_until_taken_up.1 start node 2 _ hEntry
      hReach⟩

end LibApollo
