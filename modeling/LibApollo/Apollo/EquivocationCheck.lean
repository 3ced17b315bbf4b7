import LibApollo.Apollo.Rounds

/-
  The equivocation check of an Apollo node.

  The check looks up the block stored last at the height of
  the block in hand.  A block that is resolved from a
  message, a relay or the buffer of future proposals has
  just been stored itself, so that the check finds this very
  block.  Only a block that waited for its parent was stored
  earlier, and another one may have been stored at its
  height since.

  Key definitions include:
    * `checkedBlock`
    * `Equivocation`
    * `Rejected`

  Key theorems include:
    * `equivocates_addDeliveredBlock`
    * `equivocation_rejected_iff`
-/

------------------------------------------------------------
-- Outcomes of a Considered Proposal
------------------------------------------------------------

namespace LibApollo

namespace Apollo

variable {H : Type} [DecidableEq H] [Crypto H]
variable {cx cx' : Context H}
variable {sender : Replica}
variable {p : Propose H}
variable {block : Block H}

/- Nothing is relayed or entered, and the round stays. -/
structure Rejected (cx cx' : Context H) : Prop where
  round : cx'.round = cx.round
  chain : cx'.propChainByRound = cx.propChainByRound
  outbox : cx'.outbox = cx.outbox

omit [Crypto H] in
/- A block that was just stored is no equivocation. -/
theorem equivocates_addDeliveredBlock
    (cx : Context H)
    (block : Block H) :
    equivocates (cx.addDeliveredBlock block) block =
      false := by
  have hHeight :
      (cx.addDeliveredBlock
          block).storage.deliveredBlockFromHt
            block.header.height = some block := by
    refine (Storage.addDeliveredBlock_deliveredBlockFromHt
      cx.storage block _).trans ?_
    exact if_pos rfl
  simp [equivocates, hHeight]

/- A proposal in hand is rejected by a check only. -/
theorem Receives.rejected_iff
    (hReceives : Receives sender p block cx cx') :
    Rejected cx cx' ↔
      (Acceptable cx p block →
        equivocates cx block = true) := by
  cases hReceives with
  | refuse _ hNot =>
      constructor
      · intro _ hAcceptable
        exact absurd hAcceptable hNot
      · intro _
        exact ⟨rfl, rfl, rfl⟩
  | keep hFuture =>
      constructor
      · intro _ hAcceptable
        rw [hAcceptable.1] at hFuture
        exact absurd hFuture (Nat.lt_irrefl _)
      · intro _
        exact ⟨rfl, rfl, rfl⟩
  | equivocation _ hEquivocates =>
      constructor
      · intro _ _
        exact hEquivocates
      · intro _
        exact ⟨rfl, rfl, rfl⟩
  | accept hAcceptable hNone hAccept =>
      constructor
      · intro hRejected
        have hRound := hRejected.round
        rcases acceptProposal_ok hAccept with
          ⟨_, _, _, _, _, _, rfl⟩
        exact absurd hRound (Nat.succ_ne_self _)
      · intro hCheck
        rw [hCheck hAcceptable] at hNone
        cases hNone

end Apollo

end LibApollo

------------------------------------------------------------
-- Steps That Consider a Proposal
------------------------------------------------------------

namespace LibApollo

namespace Apollo

variable {H : Type} [DecidableEq H] [Crypto H]
variable {node node' : Node H}
variable {cx cx' : Context H}
variable {sender : Replica}
variable {p : Propose H}
variable {block : Block H}
variable {next : Option H}

/- A block whose parent is there is stored and handed on. -/
theorem deliverBlock_rejected_iff
    (hDeliver :
      deliverBlock sender p block cx = .ok (cx', next))
    (hParent :
      cx.storage.isDeliveredByHash block.header.prev =
        true) :
    Rejected cx cx' ↔ ¬ Acceptable cx p block := by
  cases deliverBlock_delivers hDeliver with
  | park hMissing =>
      rw [hParent] at hMissing
      cases hMissing
  | hand hPresent hReceives =>
      rename_i received
      have hIff := hReceives.rejected_iff
      rw [equivocates_addDeliveredBlock] at hIff
      constructor
      · intro hRejected hAcceptable
        have hStored :
            Acceptable (cx.addDeliveredBlock block) p
              block :=
          hAcceptable.of_eq rfl rfl rfl rfl
        have hReceived :
            Rejected (cx.addDeliveredBlock block)
              received :=
          ⟨hRejected.round, hRejected.chain,
            hRejected.outbox⟩
        exact Bool.false_ne_true
          (hIff.mp hReceived hStored)
      · intro hNot
        have hReceived := hIff.mpr (by
          intro hStored
          exact absurd
            (hStored.of_eq rfl rfl rfl rfl) hNot)
        exact ⟨hReceived.round, hReceived.chain,
          hReceived.outbox⟩

/- The same for a proposal whose block is in the index. -/
theorem deliveryCheck_stored_rejected_iff
    (hCheck :
      deliveryCheck sender p none cx = .ok (cx', next))
    (hCandidate : storedCandidate cx p = some (p, block)) :
    Rejected cx cx' ↔ ¬ Acceptable cx p block := by
  unfold storedCandidate at hCandidate
  split at hCandidate
  · cases hCandidate
  · rename_i stored hLookup
    split at hCandidate
    · rename_i hReady
      cases hCandidate
      unfold deliveryCheck at hCheck
      rw [if_neg (by simpa using hReady.1)] at hCheck
      dsimp only at hCheck
      rw [hLookup] at hCheck
      exact deliverBlock_rejected_iff hCheck hReady.2
    · cases hCandidate

omit [Crypto H] in
/- The pair is what the stored proposal says. -/
theorem storedCandidate_fst
    {q : Propose H}
    (hCandidate : storedCandidate cx p = some (q, block)) :
    q = p := by
  unfold storedCandidate at hCandidate
  split at hCandidate
  · cases hCandidate
  · split at hCandidate
    · cases hCandidate
      rfl
    · cases hCandidate

/- Taking the proposal from its queue is no matter. -/
theorem rejected_of_popped
    {popped : Context H}
    (hIff :
      Rejected popped cx' ↔ ¬ Acceptable popped p block)
    (hRound : popped.round = cx.round)
    (hLeader : popped.roundLeader = cx.roundLeader)
    (hMyid : popped.myid = cx.myid)
    (hKeys : popped.pubKeyMap = cx.pubKeyMap)
    (hChain :
      popped.propChainByRound = cx.propChainByRound)
    (hOutbox : popped.outbox = cx.outbox) :
    Rejected cx cx' ↔ ¬ Acceptable cx p block := by
  constructor
  · intro hRejected hAcceptable
    have hPopped : Rejected popped cx' :=
      ⟨hRejected.round.trans hRound.symm,
        hRejected.chain.trans hChain.symm,
        hRejected.outbox.trans hOutbox.symm⟩
    exact hIff.mp hPopped
      (hAcceptable.of_eq hRound hLeader hMyid hKeys)
  · intro hNot
    have hRejected := hIff.mpr (fun hAcceptable =>
      hNot (hAcceptable.of_eq hRound.symm hLeader.symm
        hMyid.symm hKeys.symm))
    exact ⟨hRejected.round.trans hRound,
      hRejected.chain.trans hChain,
      hRejected.outbox.trans hOutbox⟩

/- A released child is checked against the index. -/
theorem deliverWaitingChild_rejected_iff
    {hash : H}
    (hParked :
      cx.propWaitingParent.lookup hash = some p)
    (hChild :
      cx.storage.deliveredBlockFromHash p.blockHash =
        some block)
    (hDeliver :
      deliverWaitingChild sender hash cx =
        .ok (cx', next)) :
    Rejected cx cx' ↔
      (Acceptable cx p block →
        equivocates cx block = true) := by
  unfold deliverWaitingChild at hDeliver
  rw [hParked] at hDeliver
  dsimp only at hDeliver
  rw [hChild] at hDeliver
  rcases Result.bind_eq_ok.mp hDeliver with
    ⟨received, hReceive, hEnd⟩
  cases hEnd
  have hIff :=
    (receiveOrKeep_receives hReceive).rejected_iff
  constructor
  · intro hRejected hAcceptable
    exact hIff.mp
      ⟨hRejected.round, hRejected.chain, hRejected.outbox⟩
      (hAcceptable.of_eq rfl rfl rfl rfl)
  · intro hOnly
    have hRejected := hIff.mpr (fun hAcceptable =>
      hOnly (hAcceptable.of_eq rfl rfl rfl rfl))
    exact ⟨hRejected.round, hRejected.chain,
      hRejected.outbox⟩

/- The loops of `process_message` store before they check. -/
theorem processMessage_rejected_iff
    (hWaiting : node.waiting = none)
    (hCandidate : candidate node = some (p, block))
    (hStep : processMessage node = .ok node') :
    Rejected node.cx node'.cx ↔
      ¬ Acceptable node.cx p block := by
  unfold candidate at hCandidate
  rw [hWaiting] at hCandidate
  dsimp only at hCandidate
  unfold processMessage at hStep
  cases hPhase : node.phase with
  | props =>
      rw [hPhase] at hStep hCandidate
      dsimp only at hStep hCandidate
      split at hCandidate
      · cases hCandidate
      rename_i sender q sent batch rest hQueue
      rw [hQueue] at hStep
      rcases afterDelivery_cx hStep with ⟨next, hCheck⟩
      split at hCandidate
      · rename_i hReady
        cases hCandidate
        rcases hReady with ⟨hFree, hHash, hBatch, hParent⟩
        unfold deliveryCheck at hCheck
        rw [if_neg (by simpa using hFree)] at hCheck
        dsimp only at hCheck
        rw [if_neg (not_not.mpr hHash),
          if_neg (by simpa using hBatch)] at hCheck
        exact rejected_of_popped
          (deliverBlock_rejected_iff hCheck hParent)
          rfl rfl rfl rfl rfl rfl
      · cases hCandidate
  | relays =>
      rw [hPhase] at hStep hCandidate
      dsimp only at hStep hCandidate
      split at hCandidate
      · cases hCandidate
      rename_i sender q rest hQueue
      rw [hQueue] at hStep
      rcases afterDelivery_cx hStep with ⟨next, hCheck⟩
      cases storedCandidate_fst hCandidate
      have hIff :=
        deliveryCheck_stored_rejected_iff hCheck hCandidate
      exact rejected_of_popped hIff
        rfl rfl rfl rfl rfl rfl
  | future =>
      rw [hPhase] at hStep hCandidate
      dsimp only at hStep hCandidate
      split at hCandidate
      · cases hCandidate
      rename_i sender q hFuture
      rw [hFuture] at hStep
      rcases afterDelivery_cx hStep with ⟨next, hCheck⟩
      cases storedCandidate_fst hCandidate
      have hIff :=
        deliveryCheck_stored_rejected_iff hCheck hCandidate
      exact rejected_of_popped hIff
        rfl rfl rfl rfl rfl rfl
  | select =>
      rw [hPhase] at hCandidate
      cases hCandidate
  | drain =>
      rw [hPhase] at hCandidate
      cases hCandidate
  | others =>
      rw [hPhase] at hCandidate
      cases hCandidate
  | propose =>
      rw [hPhase] at hCandidate
      cases hCandidate

theorem internalStep_rejected_iff
    (hCandidate : candidate node = some (p, block))
    (hStep : step node .internal = .ok node') :
    Rejected node.cx node'.cx ↔
      (Acceptable node.cx p block →
        node.waiting ≠ none ∧
          equivocates node.cx block = true) := by
  change internalStep node = .ok node' at hStep
  unfold internalStep at hStep
  cases hWaiting : node.waiting with
  | some pair =>
      rcases pair with ⟨hash, sender⟩
      unfold candidate at hCandidate
      rw [hWaiting] at hStep hCandidate
      dsimp only at hStep hCandidate
      rcases afterDelivery_cx hStep with ⟨next, hDeliver⟩
      split at hCandidate
      · cases hCandidate
      rename_i q hParked
      rcases Option.map_eq_some_iff.mp hCandidate with
        ⟨child, hChild, hPair⟩
      cases hPair
      rw [deliverWaitingChild_rejected_iff hParked hChild
        hDeliver]
      simp
  | none =>
      have hDirect :
          Rejected node.cx node'.cx ↔
            ¬ Acceptable node.cx p block := by
        rw [hWaiting] at hStep
        dsimp only at hStep
        split at hStep
        · rename_i hPhase
          unfold candidate at hCandidate
          rw [hWaiting, hPhase] at hCandidate
          cases hCandidate
        · rename_i hPhase
          unfold candidate at hCandidate
          rw [hWaiting, hPhase] at hCandidate
          cases hCandidate
        · rename_i hPhase
          unfold candidate at hCandidate
          rw [hWaiting, hPhase] at hCandidate
          cases hCandidate
        · exact processMessage_rejected_iff hWaiting
            hCandidate hStep
      rw [hDirect]
      simp

/- Own proposals pass the checks on received ones. -/
theorem acceptable_newPropose
    {batchHash : H}
    (hLeader : cx.roundLeader = cx.myid) :
    Acceptable cx (newPropose cx batchHash)
      (newBlock cx batchHash) :=
  ⟨rfl, rfl, hLeader, hLeader, Or.inl rfl⟩

/-
  The next internal step hands this pair to
  `tryReceiveProposal`, or it is the node's own proposal and
  goes to `onReceiveProposal` directly.
-/
def Processes
    (node : Node H)
    (p : Propose H)
    (block : Block H) : Prop :=
  candidate node = some (p, block) ∨
    ∃ batchHash batch rest,
      Proposes node batchHash batch rest ∧
        p =
          newPropose
            { node.cx with pendingBatches := rest }
            batchHash ∧
        block =
          newBlock
            { node.cx with pendingBatches := rest }
            batchHash

/-
  What the node processes next is rejected if and only if it
  fails a check of `tryReceiveProposal`, or it waited for
  its parent and the check for equivocation finds another
  block of its author.
-/
theorem step_rejected_iff
    (hProcesses : Processes node p block)
    (hStep : step node .internal = .ok node') :
    Rejected node.cx node'.cx ↔
      (Acceptable node.cx p block →
        node.waiting ≠ none ∧
          equivocates node.cx block = true) := by
  rcases hProcesses with
    hCandidate | ⟨batchHash, batch, rest, hProposes, rfl, rfl⟩
  · exact internalStep_rejected_iff hCandidate hStep
  · constructor
    · intro hRejected
      have hMade := (step_advances hStep).made _
        (madeProposal_of_proposes ⟨rfl, hProposes⟩)
      have hRound := hRejected.round
      rw [hMade.2] at hRound
      exact absurd hRound (Nat.succ_ne_self _)
    · intro hOnly
      have hOwn :
          Acceptable node.cx
            (newPropose
              { node.cx with pendingBatches := rest }
              batchHash)
            (newBlock
              { node.cx with pendingBatches := rest }
              batchHash) :=
        (acceptable_newPropose hProposes.2.2.1).of_eq
          rfl rfl rfl rfl
      exact absurd hProposes.1 (hOnly hOwn).1

end Apollo

end LibApollo

------------------------------------------------------------
-- Runs with an Equivocation
------------------------------------------------------------

namespace LibApollo

namespace Apollo

variable {H : Type} [DecidableEq H] [Crypto H]
variable {config : Config}
variable {past : List (Node H × Event H)}
variable {node node' : Node H}
variable {p : Propose H}
variable {first second : Block H}

/- The block that `deliveryCheck` stores, if any. -/
def checkedBlock
    (cx : Context H)
    (p : Propose H)
    (blockAndBatch : Option (Block H × Batch)) :
    Option (Block H) :=
  if (cx.propChainByRound.lookup p.round).isSome then
    none
  else
    match blockAndBatch with
    | some (block, batch) =>
        if block.hash = p.blockHash ∧
            checkBatchHash block batch then
          some block
        else
          none
    | none =>
        cx.storage.deliveredBlockFromHash p.blockHash

/- The block that the next internal step stores that way. -/
def storesNext (node : Node H) : Option (Block H) :=
  match node.waiting, node.phase with
  | none, .props =>
      match node.cx.propBuf with
      | [] => none
      | (_, p, block, batch) :: _ =>
          checkedBlock node.cx p (some (block, batch))
  | none, .relays =>
      match node.cx.relayBuf with
      | [] => none
      | (_, p) :: _ => checkedBlock node.cx p none
  | none, .future =>
      match node.cx.futureMsgs.lookup node.cx.round with
      | none => none
      | some (_, p) => checkedBlock node.cx p none
  | _, _ => none

/-
  In a run, an earlier step has stored `first` in
  `deliveryCheck`, and the next one processes a proposal for
  `second`, another block of the same author at the same
  height.
-/
structure Equivocation
    (config : Config)
    (past : List (Node H × Event H))
    (node : Node H)
    (p : Propose H)
    (first second : Block H) : Prop where
  run : Machine.Trace step (Node.new config) past node
  stored :
    ∃ taken ∈ past,
      taken.2 = .internal ∧
        storesNext taken.1 = some first
  processed : Processes node p second
  height : second.header.height = first.header.height
  author : second.header.author = first.header.author
  other : second.hash ≠ first.hash

/-
  In every run, the proposal for the second block of an
  equivocation is rejected if and only if it fails another
  check, or it is released after its parent has arrived and
  the block stored last at its height is a different one of
  the same author.
-/
theorem equivocation_rejected_iff
    (hTwo : Equivocation config past node p first second)
    (hStep : step node .internal = .ok node') :
    Rejected node.cx node'.cx ↔
      (Acceptable node.cx p second →
        node.waiting ≠ none ∧
          ∃ last,
            node.cx.storage.deliveredBlockFromHt
                second.header.height = some last ∧
              last.hash ≠ second.hash ∧
              last.header.author =
                second.header.author) := by
  rw [step_rejected_iff hTwo.processed hStep]
  have hEquivocates :
      equivocates node.cx second = true ↔
        ∃ last,
          node.cx.storage.deliveredBlockFromHt
              second.header.height = some last ∧
            last.hash ≠ second.hash ∧
            last.header.author = second.header.author := by
    unfold equivocates
    cases node.cx.storage.deliveredBlockFromHt
        second.header.height with
    | none => simp
    | some last => simp
  rw [hEquivocates]

/- A block of replica 0 next to its first one. -/
def rivalBatch : Batch :=
  ⟨[{ clientId := 1, nonce := 1, data := [],
      request := [] }]⟩

def rivalBlock : Block Digest :=
  Block.extending Block.genesis 0 1 rivalBatch.hash

def rivalProposal : Propose Digest :=
  Propose.signed (Digest.keyOf 0) 0 1 rivalBlock.hash

/- The first block comes early, for round 4. -/
def rivalInputs : List (Event Digest) :=
  [proposed 0 4 firstBlock,
    .recv (.newProposal rivalProposal rivalBlock rivalBatch),
    .internal]

/- The node is about to accept the other block. -/
def acceptsRival (node : Node Digest) : Bool :=
  decide (candidate node = some (rivalProposal, rivalBlock)) &&
    match step node .internal with
    | .ok after =>
        decide (after.cx.round = 2) &&
          decide (after.cx.propChainByRound.lookup 1 =
            some rivalProposal)
    | .error _ => false

/-
  Replica 0 has two blocks at height 1, and the node takes
  the second one after it has stored the first.
-/
theorem equivocation_accepted :
    ∃ (past : List (Node Digest × Event Digest))
        (node after : Node Digest),
      Equivocation (smallConfig 1) past node rivalProposal
          firstBlock rivalBlock ∧
        step node .internal = .ok after ∧
        after.cx.propChainByRound.lookup 1 =
          some rivalProposal ∧
        ¬ Rejected node.cx after.cx := by
  have hRun :
      Machine.runCheck step (fun _ _ => true)
        (fun node =>
          decide (storesNext node = some firstBlock) &&
            Machine.runCheck step (fun _ _ => true)
              (fun node =>
                decide (node.cx.round = 1) &&
                  acceptsRival node) node
              [.internal, .internal])
        (Node.new (smallConfig 1)) rivalInputs = true := by
    decide +kernel
  rcases Machine.Trace.through hRun with
    ⟨past, mid, node, hTrace, hMem, hStores, hFinal⟩
  rw [Bool.and_eq_true] at hFinal
  rcases hFinal with ⟨hBefore, hAccepts⟩
  simp only [acceptsRival, Bool.and_eq_true] at hAccepts
  rcases hAccepts with ⟨hCandidate, hStepped⟩
  split at hStepped
  · rename_i after hStep
    rw [Bool.and_eq_true] at hStepped
    refine ⟨past, node, after,
      { run := hTrace
        stored :=
          ⟨(mid, .internal), hMem, rfl,
            of_decide_eq_true hStores⟩
        processed := Or.inl (of_decide_eq_true hCandidate)
        height := rfl
        author := rfl
        other := by decide +kernel },
      hStep, of_decide_eq_true hStepped.2, ?_⟩
    intro hRejected
    have hRound := hRejected.round
    rw [of_decide_eq_true hStepped.1,
      of_decide_eq_true hBefore] at hRound
    cases hRound
  · cases hStepped

/- Another block of replica 0 at height 2. -/
def lateBlock : Block Digest :=
  Digest.blockOn Block.genesis 0 2

/- The block at height 2 waits; the other one comes. -/
def lateInputs : List (Event Digest) :=
  [proposed 0 1 orphanBlock, proposed 0 4 lateBlock,
    proposed 0 4 firstBlock, .internal, .internal]

def orphanProposal : Propose Digest :=
  Propose.signed (Digest.keyOf 0) 0 1 orphanBlock.hash

def rejectsLate (node : Node Digest) : Bool :=
  decide
      (candidate node =
        some (orphanProposal, orphanBlock)) &&
    (decide (node.waiting ≠ none) &&
      (decide
          (node.cx.storage.deliveredBlockFromHt 2 =
            some lateBlock) &&
        (step node .internal).isOk))

/- The block that waited is rejected when it is released. -/
theorem equivocation_rejected_late :
    ∃ (past : List (Node Digest × Event Digest))
        (node after : Node Digest),
      Equivocation (smallConfig 1) past node orphanProposal
          lateBlock orphanBlock ∧
        step node .internal = .ok after ∧
        Rejected node.cx after.cx := by
  have hRun :
      Machine.runCheck step (fun _ _ => true)
        (fun node =>
          decide (storesNext node = some lateBlock) &&
            Machine.runCheck step (fun _ _ => true)
              rejectsLate node
              [.internal, .internal, .internal])
        (Node.new (smallConfig 1)) lateInputs = true := by
    decide +kernel
  rcases Machine.Trace.through hRun with
    ⟨past, mid, node, hTrace, hMem, hStores, hFinal⟩
  simp only [rejectsLate, Bool.and_eq_true] at hFinal
  rcases hFinal with
    ⟨hCandidate, hWaiting, hLast, hStepped⟩
  cases hStep : step node .internal with
  | error panic =>
      rw [hStep] at hStepped
      cases hStepped
  | ok after =>
      have hTwo :
          Equivocation (smallConfig 1) past node
            orphanProposal lateBlock orphanBlock :=
        { run := hTrace
          stored :=
            ⟨(mid, .internal), hMem, rfl,
              of_decide_eq_true hStores⟩
          processed :=
            Or.inl (of_decide_eq_true hCandidate)
          height := rfl
          author := rfl
          other := by decide +kernel }
      refine ⟨past, node, after, hTwo, hStep,
        (equivocation_rejected_iff hTwo hStep).mpr ?_⟩
      intro _
      exact ⟨of_decide_eq_true hWaiting, lateBlock,
        of_decide_eq_true hLast, by decide +kernel, rfl⟩

end Apollo

end LibApollo
