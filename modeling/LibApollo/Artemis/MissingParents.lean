import LibApollo.Artemis.Invariant
import LibApollo.Artemis.Transitions

/-
  What an Artemis node asks for when the parent of a block
  is missing.

  A block that comes in a response is parked under the hash
  of its parent.  The request that is sent then names the
  block and not the parent, so that the parent has been
  asked for only if this happened before.

  Key definitions include:
    * `StepParks`, `ParkedFrom`
    * `StepAwaits`, `Requests`
    * `Asked`, `AsksForParents`
    * `AskedBefore`

  Key theorems include:
    * `Transition.waits`
    * `asked_iff_requested`
    * `asked_iff_of_parks`
    * `parents_asked_iff`
-/

------------------------------------------------------------
-- Parking a Block
------------------------------------------------------------

namespace LibApollo

namespace Artemis

variable {H : Type} [DecidableEq H] [Crypto H]
variable {cx cx' : Context H}
variable {node node' : Node H}
variable {event : Event H}
variable {peer : Replica}
variable {hash : H}
variable {block : Block H}

instance
    (block : Block H)
    (batch : Batch)
    (cx : Context H) :
    Decidable (Orphan block batch cx) :=
  inferInstanceAs (Decidable (_ ∧ _ ∧ _ ∧ _))

/- The step parks a block from a response of `peer`. -/
def StepParks
    (node : Node H)
    (event : Event H)
    (peer : Replica)
    (block : Block H) : Prop :=
  event = .internal ∧
    node.phase = .responses ∧
    ∃ batch rest,
      node.cx.responseWaiting =
          (peer, block, batch) :: rest ∧
        Orphan block batch node.cx

/-
  The step handles a vote that came from `peer` and whose
  block is unknown.
-/
def StepAwaits
    (node : Node H)
    (event : Event H)
    (peer : Replica)
    (hash : H) : Prop :=
  event = .internal ∧
    node.phase = .others ∧
    ∃ msg rest v,
      node.cx.otherBuf = msg :: rest ∧
        msg.carriedVote = some (peer, v) ∧
        v.hash = hash ∧
        node.cx.round ≤ v.round ∧
        node.cx.storage.isDeliveredByHash hash = false

/-
  What makes a node ask another one for a hash: a vote for
  an unknown block, or a response that parks the block.
-/
def Requests
    (node : Node H)
    (event : Event H)
    (peer : Replica)
    (hash : H) : Prop :=
  peer ≠ node.cx.myid ∧
    (StepAwaits node event peer hash ∨
      ∃ block, StepParks node event peer block ∧
        BlockTrait.getHash block = hash)

omit [Crypto H] in
/- A request for a hash has been sent to `peer`. -/
def Asked
    (cx : Context H)
    (peer : Replica)
    (hash : H) : Prop :=
  ∃ reqId,
    (peer, ProtocolMsg.request cx.myid reqId hash) ∈
      cx.outbox

/- The context after a block has been parked. -/
theorem StepParks.cx_eq
    (hParks : StepParks node event peer block)
    (hStep : step node event = .ok node') :
    ∃ batch rest,
      node'.cx =
        doRequest peer (BlockTrait.getHash block)
          (parked block batch
            { node.cx with responseWaiting := rest }) := by
  rcases hParks with
    ⟨rfl, hPhase, batch, rest, hQueue, hOrphan⟩
  refine ⟨batch, rest, ?_⟩
  have hParked :=
    processResponse_parks peer
      (show Orphan block batch
        { node.cx with responseWaiting := rest } from
          hOrphan)
  simp only [step, internalStep, hPhase, processMessage,
    hQueue, hParked, Except.ok.injEq] at hStep
  rw [← hStep]

omit [Crypto H] in
/- A request reaches every other node. -/
theorem asked_doRequest
    {dest : Replica}
    {wanted : H} :
    Asked (doRequest dest wanted cx) peer hash ↔
      Asked cx peer hash ∨
        (wanted = hash ∧ dest = peer ∧ peer ≠ cx.myid) := by
  unfold doRequest Context.send Asked
  split
  · rename_i hSelf
    constructor
    · exact Or.inl
    · intro hEither
      rcases hEither with hOld | ⟨_, rfl, hOther⟩
      · exact hOld
      · exact absurd hSelf hOther
  · rename_i hOther
    constructor
    · intro hSent
      rcases hSent with ⟨reqId, hMem⟩
      rcases List.mem_append.mp hMem with hOld | hNew
      · exact Or.inl ⟨reqId, hOld⟩
      · rw [List.mem_singleton] at hNew
        cases hNew
        exact Or.inr ⟨rfl, rfl, hOther⟩
    · intro hEither
      rcases hEither with ⟨reqId, hOld⟩ | ⟨rfl, rfl, _⟩
      · exact ⟨reqId, List.mem_append_left _ hOld⟩
      · exact ⟨cx.reqCtr, List.mem_append_right _
          (List.mem_singleton_self _)⟩

/- The context after a vote has been parked. -/
theorem StepAwaits.cx_eq
    (hAwaits : StepAwaits node event peer hash)
    (hStep : step node event = .ok node') :
    ∃ rest v,
      v.hash = hash ∧
        node'.cx =
          awaitBlock peer v
            { node.cx with otherBuf := rest } := by
  rcases hAwaits with
    ⟨rfl, hPhase, msg, rest, v, hQueue, hVote, rfl, hRound,
      hUnknown⟩
  refine ⟨rest, v, rfl, ?_⟩
  have hTry :
      tryReceiveRoundVote peer v
          { node.cx with otherBuf := rest } =
        .ok (awaitBlock peer v
          { node.cx with otherBuf := rest }) := by
    unfold tryReceiveRoundVote
    rw [if_neg (Nat.not_lt.mpr hRound)]
    simp [hUnknown]
  have hHandle :
      handleOther msg { node.cx with otherBuf := rest } =
        .ok (awaitBlock peer v
          { node.cx with otherBuf := rest }) := by
    cases msg with
    | ucrVote other =>
        cases hVote
        exact hTry
    | relay sender other =>
        cases hVote
        exact hTry
    | newBlock block batch => cases hVote
    | blame other => cases hVote
    | request sender reqId wanted => cases hVote
    | response sender reqId block batch => cases hVote
    | invalid => cases hVote
  simp only [step, internalStep, hPhase, processMessage,
    hQueue, hHandle] at hStep
  rcases Result.map_eq_ok.mp hStep with ⟨cx, hCx, rfl⟩
  cases hCx
  rfl

/- What a step asks for has been asked for afterwards. -/
theorem Requests.asked
    (hRequests : Requests node event peer hash)
    (hStep : step node event = .ok node') :
    Asked node'.cx peer hash := by
  rcases hRequests with
    ⟨hOther, hAwaits | ⟨block, hParks, hHash⟩⟩
  · rcases hAwaits.cx_eq hStep with ⟨rest, v, hHash, hEq⟩
    rw [hEq]
    exact asked_doRequest.mpr (Or.inr ⟨hHash, rfl, hOther⟩)
  · rcases hParks.cx_eq hStep with ⟨batch, rest, hEq⟩
    rw [hEq]
    exact asked_doRequest.mpr (Or.inr ⟨hHash, rfl, hOther⟩)

/- When the parent has been asked for after the parking. -/
theorem asked_iff_of_parks
    (hParks : StepParks node event peer block)
    (hStep : step node event = .ok node') :
    Asked node'.cx peer (BlockTrait.getPrev block) ↔
      Asked node.cx peer (BlockTrait.getPrev block) ∨
        (BlockTrait.getHash block =
            (BlockTrait.getPrev block : H) ∧
          peer ≠ node.cx.myid) := by
  rcases hParks.cx_eq hStep with ⟨batch, rest, hEq⟩
  rw [hEq, asked_doRequest]
  constructor
  · intro hEither
    rcases hEither with hOld | ⟨hSame, _, hOther⟩
    · exact Or.inl hOld
    · exact Or.inr ⟨hSame, hOther⟩
  · intro hEither
    rcases hEither with hOld | ⟨hSame, hOther⟩
    · exact Or.inl hOld
    · exact Or.inr ⟨hSame, rfl, hOther⟩

theorem StepAwaits.waiting_eq
    (hAwaits : StepAwaits node event peer hash)
    (hStep : step node event = .ok node') :
    node'.cx.blockParentWaiting =
      node.cx.blockParentWaiting := by
  rcases hAwaits.cx_eq hStep with ⟨rest, v, _, hEq⟩
  rw [hEq]
  unfold awaitBlock doRequest Context.send
  dsimp only
  split
  · rfl
  · rfl

/- The parked block waits for its parent. -/
theorem StepParks.waiting_eq
    (hParks : StepParks node event peer block)
    (hStep : step node event = .ok node') :
    node'.cx.blockParentWaiting =
      node.cx.blockParentWaiting.insert
        (BlockTrait.getPrev block)
        (BlockTrait.getHash block) := by
  rcases hParks.cx_eq hStep with ⟨batch, rest, hEq⟩
  rw [hEq]
  unfold doRequest Context.send
  split
  · rfl
  · rfl

end Artemis

end LibApollo

------------------------------------------------------------
-- What Waits and What Was Sent
------------------------------------------------------------

namespace LibApollo

namespace Artemis

variable {H : Type} [DecidableEq H] [Crypto H]
variable {cx cx' : Context H}
variable {node node' : Node H}
variable {event : Event H}

omit [Crypto H] in
/-
  No more waits than before, what was sent was sent, and
  there is no new request.
-/
structure Continues (cx cx' : Context H) : Prop where
  myid : cx'.myid = cx.myid
  outbox : cx.outbox ⊆ cx'.outbox
  requests :
    ∀ dest sender reqId hash,
      (dest, ProtocolMsg.request sender reqId hash) ∈
          cx'.outbox →
        (dest, ProtocolMsg.request sender reqId hash) ∈
          cx.outbox
  waiting :
    ∀ parent child,
      cx'.blockParentWaiting.lookup parent = some child →
        cx.blockParentWaiting.lookup parent = some child

omit [Crypto H] in
theorem Continues.of_eq
    (hMyid : cx'.myid = cx.myid)
    (hOutbox : cx'.outbox = cx.outbox)
    (hWaiting :
      cx'.blockParentWaiting = cx.blockParentWaiting) :
    Continues cx cx' := by
  refine ⟨hMyid, ?_, ?_, ?_⟩
  · rw [hOutbox]
    exact fun _ hMem => hMem
  · rw [hOutbox]
    exact fun _ _ _ _ hMem => hMem
  · rw [hWaiting]
    exact fun _ _ hLookup => hLookup

omit [Crypto H] in
theorem Continues.refl (cx : Context H) : Continues cx cx :=
  .of_eq rfl rfl rfl

omit [Crypto H] in
theorem Continues.trans
    {last : Context H}
    (hFirst : Continues cx cx')
    (hSecond : Continues cx' last) :
    Continues cx last where
  myid := hSecond.myid.trans hFirst.myid
  outbox := fun _ hMem =>
    hSecond.outbox (hFirst.outbox hMem)
  requests := fun _ _ _ _ hMem =>
    hFirst.requests _ _ _ _ (hSecond.requests _ _ _ _ hMem)
  waiting := fun _ _ hLookup =>
    hFirst.waiting _ _ (hSecond.waiting _ _ hLookup)

omit [Crypto H] in
/- More packets are sent, none of them a request. -/
theorem Continues.sends
    {packets : List (Replica × ProtocolMsg H)}
    (hContinues : Continues cx cx')
    (hPackets :
      ∀ dest sender reqId hash,
        (dest, ProtocolMsg.request sender reqId hash) ∉
          packets) :
    Continues cx
      { cx' with outbox := cx'.outbox ++ packets } where
  myid := hContinues.myid
  outbox := fun _ hMem =>
    List.mem_append_left _ (hContinues.outbox hMem)
  requests := by
    intro dest sender reqId hash hMem
    rcases List.mem_append.mp hMem with hOld | hNew
    · exact hContinues.requests _ _ _ _ hOld
    · exact absurd hNew (hPackets _ _ _ _)
  waiting := hContinues.waiting

omit [Crypto H] in
theorem Continues.broadcast
    {msg : ProtocolMsg H}
    (hContinues : Continues cx cx')
    (hMsg :
      ∀ sender reqId hash,
        msg ≠ .request sender reqId hash) :
    Continues cx
      { cx' with
        outbox :=
          cx'.outbox ++ cx'.broadcastPeers.map (·, msg) } := by
  refine hContinues.sends ?_
  intro dest sender reqId hash hMem
  rcases List.mem_map.mp hMem with ⟨_, _, hEq⟩
  exact hMsg _ _ _ (congrArg Prod.snd hEq)

omit [Crypto H] in
/- A delivery only ends waiting. -/
theorem Continues.doDelivery
    {block : Block H}
    (hContinues : Continues cx cx') :
    Continues cx (doDelivery block cx') := by
  have hOnly := doDelivery_deliveryOnly block cx'
  have hWaiting :
      ∀ parent child,
        (Artemis.doDelivery block
          cx').blockParentWaiting.lookup parent =
            some child →
          cx'.blockParentWaiting.lookup parent =
            some child := by
    apply doDelivery_rule
      (fun _ now =>
        ∀ parent child,
          now.blockParentWaiting.lookup parent =
              some child →
            cx'.blockParentWaiting.lookup parent =
              some child)
      (fun now =>
        ∀ parent child,
          now.blockParentWaiting.lookup parent =
              some child →
            cx'.blockParentWaiting.lookup parent =
              some child)
    · intro parent child hLookup
      rw [beginDelivery,
        releaseVote_blockParentWaiting] at hLookup
      exact hLookup
    · intro hash child now hNow _ parent other hLookup
      rw [deliverChild_blockParentWaiting,
        FinMap.lookup_erase_eq] at hLookup
      split at hLookup
      · cases hLookup
      · exact hNow parent other hLookup
    · intro last now hNow _
      exact hNow
    · intro now hNow
      exact hNow
  rcases hOnly with ⟨_, _, _, _, _, _, _, hEq, _⟩
  refine ⟨?_, ?_, ?_, ?_⟩
  · rw [hEq]
    exact hContinues.myid
  · rw [hEq]
    exact hContinues.outbox
  · rw [hEq]
    exact hContinues.requests
  · intro parent child hLookup
    exact hContinues.waiting parent child
      (hWaiting parent child hLookup)

omit [Crypto H] in
theorem not_mem_relayPackets
    (cx : Context H)
    (next : Replica)
    (v : UCRVote H)
    (dest sender : Replica)
    (reqId : Nat)
    (hash : H) :
    (dest, ProtocolMsg.request sender reqId hash) ∉
      relayPackets cx next v := by
  unfold relayPackets
  split
  · exact List.not_mem_nil
  · rw [List.mem_singleton]
    intro hEq
    cases hEq

theorem Accepted.continues
    {v : UCRVote H}
    (hAccepted : Accepted v cx cx') :
    Continues cx cx' := by
  rcases hAccepted with
    ⟨_, _, leaders, _, _, _, _, _, _, _, rfl⟩
  have hRelays := (Continues.refl cx).sends
    (not_mem_relayPackets cx leaders.roundLeader v)
  exact { hRelays with }

theorem Considers.continues
    {v : UCRVote H}
    (hConsiders : Considers v cx cx') :
    Continues cx cx' := by
  cases hConsiders with
  | refuse _ => exact .refl cx
  | accept _ hAccepted => exact hAccepted.continues

theorem TakesVote.continues
    {sender : Replica}
    {v : UCRVote H}
    (hTakes : TakesVote sender v cx cx') :
    Continues cx cx' ∨
      (cx.round ≤ v.round ∧
        cx.storage.isDeliveredByHash v.hash = false) := by
  cases hTakes with
  | past _ => exact Or.inl (.refl cx)
  | keep _ _ => exact Or.inl (.of_eq rfl rfl rfl)
  | await hRound hUnknown =>
      exact Or.inr ⟨hRound, hUnknown⟩
  | consider _ hConsiders =>
      exact Or.inl hConsiders.continues

omit [Crypto H] in
theorem Answers.continues
    {sender : Replica}
    {reqId : Nat}
    {hash : H}
    (hAnswers : Answers sender reqId hash cx cx') :
    Continues cx cx' := by
  cases hAnswers with
  | pass => exact .refl cx
  | missing _ => exact .of_eq rfl rfl rfl
  | @respond block batch _ _ =>
      have hRead :
          Continues cx
            (cx.readBatch block.blk.body.batchHash).2 :=
        .of_eq rfl rfl rfl
      unfold Context.send
      split
      · exact hRead
      · refine hRead.sends ?_
        intro dest other otherId wanted hMem
        cases List.mem_singleton.mp hMem

/-
  A step lets no new block wait and asks for none, unless it
  parks a block or a vote.
-/
theorem Transition.waits
    (hTransition : Transition node event cx') :
    Continues node.cx cx' ∨
      (∃ peer hash, StepAwaits node event peer hash) ∨
      ∃ peer block, StepParks node event peer block := by
  cases hTransition with
  | stay => exact Or.inl (.refl _)
  | count => exact Or.inl (.of_eq rfl rfl rfl)
  | queue msg =>
      left
      cases msg <;> exact .of_eq rfl rfl rfl
  | install batch => exact Or.inl (.of_eq rfl rfl rfl)
  | pend batchHash batch =>
      exact Or.inl (.of_eq rfl rfl rfl)
  | block _ _ hTakes =>
      left
      cases hTakes with
      | drop => exact .of_eq rfl rfl rfl
      | leave _ => exact .of_eq rfl rfl rfl
      | deliver _ _ =>
          refine Continues.doDelivery ?_
          exact .of_eq rfl rfl rfl
  | @response sender block batch rest _ hPhase hQueue
      hTakes =>
      cases hTakes with
      | drop => exact Or.inl (.of_eq rfl rfl rfl)
      | leave _ => exact Or.inl (.of_eq rfl rfl rfl)
      | park hOrphan =>
          exact Or.inr (Or.inr ⟨sender, block, rfl, hPhase,
            batch, rest, hQueue, hOrphan⟩)
      | deliver _ _ =>
          refine Or.inl (Continues.doDelivery ?_)
          exact .of_eq rfl rfl rfl
  | ready _ _ hConsiders =>
      exact Or.inl { hConsiders.continues with }
  | @vote msg sender v rest _ hPhase hQueue hVote hTakes =>
      rcases hTakes.continues with
        hContinues | ⟨hRound, hUnknown⟩
      · exact Or.inl { hContinues with }
      · exact Or.inr (Or.inl ⟨sender, v.hash, rfl, hPhase,
          msg, rest, v, hQueue, hVote, rfl, hRound,
          hUnknown⟩)
  | answer _ _ hAnswers =>
      exact Or.inl { hAnswers.continues with }
  | dispatch _ hDispatched =>
      left
      have hSent :
          ∀ batchHash batch rest,
            Continues node.cx
              (dispatching batchHash batch
                { node.cx with pendingBatches := rest }) := by
        intro batchHash batch rest
        have hMsg :
            ∀ sender reqId hash,
              ProtocolMsg.newBlock
                  (newBlock node.cx batchHash) batch ≠
                .request sender reqId hash := by
          intro _ _ _ hEq
          cases hEq
        have hBlocks :=
          (Continues.refl node.cx).broadcast hMsg
        exact { hBlocks with }
      rcases hDispatched with ⟨hEq, _⟩ | ⟨_, hEq⟩
      · rw [hEq]
        exact hSent _ _ _
      · rw [hEq]
        exact (hSent _ _ _).doDelivery
  | own _ hAccepted =>
      left
      have hMsg :
          ∀ sender reqId hash,
            ProtocolMsg.ucrVote (newVote node.cx) ≠
              .request sender reqId hash := by
        intro _ _ _ hEq
        cases hEq
      have hVotes :=
        (Continues.refl node.cx).broadcast hMsg
      have hVoting : Continues node.cx (voting node.cx) :=
        { hVotes with }
      exact hVoting.trans hAccepted.continues

end Artemis

end LibApollo

------------------------------------------------------------
-- Runs
------------------------------------------------------------

namespace LibApollo

namespace Artemis

variable {H : Type} [DecidableEq H] [Crypto H]
variable {node node' : Node H}
variable {event : Event H}
variable {past : List (Node H × Event H)}

/- A response of `peer` made a child wait for its parent. -/
def ParkedFrom
    (past : List (Node H × Event H))
    (peer : Replica)
    (parent child : H) : Prop :=
  ∃ taken ∈ past, ∃ block : Block H,
    StepParks taken.1 taken.2 peer block ∧
      BlockTrait.getPrev block = parent ∧
      BlockTrait.getHash block = child

/-
  Every block that waits came in a response, and whoever
  sent the response has been asked for the parent.
-/
def AsksForParents
    (past : List (Node H × Event H))
    (node : Node H) : Prop :=
  ∀ parent child,
    node.cx.blockParentWaiting.lookup parent = some child →
      (∃ peer, ParkedFrom past peer parent child) ∧
        ∀ peer, ParkedFrom past peer parent child →
          Asked node.cx peer parent

theorem ParkedFrom.later
    {peer : Replica}
    {parent child : H}
    (hParked : ParkedFrom past peer parent child)
    (later : List (Node H × Event H)) :
    ParkedFrom (past ++ later) peer parent child := by
  rcases hParked with ⟨taken, hTaken, block, hBlock⟩
  exact ⟨taken, List.mem_append_left _ hTaken, block,
    hBlock⟩

/- What has been asked for stays asked for. -/
theorem asked_step
    {peer : Replica}
    {hash : H}
    (hStep : step node event = .ok node')
    (hAsked : Asked node.cx peer hash) :
    Asked node'.cx peer hash := by
  rcases (step_transition hStep).waits with
    hContinues | ⟨other, wanted, hAwaits⟩ |
      ⟨other, block, hParks⟩
  · rcases hAsked with ⟨reqId, hMem⟩
    refine ⟨reqId, ?_⟩
    rw [hContinues.myid]
    exact hContinues.outbox hMem
  · rcases hAwaits.cx_eq hStep with ⟨rest, v, _, hEq⟩
    rw [hEq]
    exact asked_doRequest.mpr (Or.inl hAsked)
  · rcases hParks.cx_eq hStep with ⟨batch, rest, hEq⟩
    rw [hEq, asked_doRequest]
    exact Or.inl hAsked

/- What is asked for was asked for before, or now. -/
theorem asked_origin
    {peer : Replica}
    {hash : H}
    (hStep : step node event = .ok node')
    (hAsked : Asked node'.cx peer hash) :
    Asked node.cx peer hash ∨
      Requests node event peer hash := by
  rcases (step_transition hStep).waits with
    hContinues | ⟨other, wanted, hAwaits⟩ |
      ⟨other, block, hParks⟩
  · rcases hAsked with ⟨reqId, hMem⟩
    rw [hContinues.myid] at hMem
    exact Or.inl ⟨reqId,
      hContinues.requests _ _ _ _ hMem⟩
  · rcases hAwaits.cx_eq hStep with ⟨rest, v, hHash, hEq⟩
    rw [hEq] at hAsked
    rcases asked_doRequest.mp hAsked with
      hOld | ⟨hSame, rfl, hOther⟩
    · exact Or.inl hOld
    · refine Or.inr ⟨hOther, Or.inl ?_⟩
      rw [← hSame, hHash]
      exact hAwaits
  · rcases hParks.cx_eq hStep with ⟨batch, rest, hEq⟩
    rw [hEq] at hAsked
    rcases asked_doRequest.mp hAsked with
      hOld | ⟨hSame, rfl, hOther⟩
    · exact Or.inl hOld
    · exact Or.inr ⟨hOther, Or.inr ⟨block, hParks, hSame⟩⟩

/-
  A node has asked for what the votes and the responses it
  has handled made it ask for.
-/
theorem asked_iff_requested
    {config : Config}
    {peer : Replica}
    {hash : H}
    (hTrace :
      Machine.Trace step (Node.new config) past node) :
    Asked node.cx peer hash ↔
      ∃ taken ∈ past,
        Requests taken.1 taken.2 peer hash := by
  induction hTrace with
  | start =>
      constructor
      · intro hAsked
        rcases hAsked with ⟨reqId, hMem⟩
        simp [Node.new, Context.new,
          Context.announceHeightToBatcher,
          Context.tellBatcher] at hMem
      · intro hTaken
        rcases hTaken with ⟨taken, hTaken, _⟩
        exact absurd hTaken List.not_mem_nil
  | @next before last _ event _ hStep ih =>
      constructor
      · intro hAsked
        rcases asked_origin hStep hAsked with hOld | hNew
        · rcases ih.mp hOld with ⟨taken, hTaken, hRequests⟩
          exact ⟨taken, List.mem_append_left _ hTaken,
            hRequests⟩
        · exact ⟨_, List.mem_append_right _
            (List.mem_singleton_self _), hNew⟩
      · intro hTaken
        rcases hTaken with ⟨taken, hTaken, hRequests⟩
        rcases List.mem_append.mp hTaken with hOld | hLast
        · exact asked_step hStep
            (ih.mpr ⟨taken, hOld, hRequests⟩)
        · rw [List.mem_singleton] at hLast
          subst hLast
          exact hRequests.asked hStep

/- Every block that waits was parked by some step. -/
theorem waiting_parked
    {config : Config}
    {parent child : H}
    (hTrace :
      Machine.Trace step (Node.new config) past node)
    (hWaiting :
      node.cx.blockParentWaiting.lookup parent =
        some child) :
    ∃ peer, ParkedFrom past peer parent child := by
  induction hTrace generalizing parent child with
  | start =>
      simp [Node.new, Context.new,
        Context.announceHeightToBatcher,
        Context.tellBatcher] at hWaiting
  | @next before last _ event _ hStep ih =>
      have hOld :
          ∀ parent child,
            last.cx.blockParentWaiting.lookup parent =
                some child →
              ∃ peer,
                ParkedFrom (before ++ [(last, event)]) peer
                  parent child := by
        intro parent child hLookup
        rcases ih hLookup with ⟨peer, hParked⟩
        exact ⟨peer, hParked.later _⟩
      rcases (step_transition hStep).waits with
        hContinues | ⟨peer, wanted, hAwaits⟩ |
          ⟨peer, block, hParks⟩
      · exact hOld parent child
          (hContinues.waiting parent child hWaiting)
      · rw [hAwaits.waiting_eq hStep] at hWaiting
        exact hOld parent child hWaiting
      · rw [hParks.waiting_eq hStep,
          FinMap.lookup_insert_eq] at hWaiting
        split at hWaiting
        · rename_i hParent
          cases hWaiting
          exact ⟨peer, _, List.mem_append_right _
            (List.mem_singleton_self _), block, hParks,
            hParent.symm, rfl⟩
        · exact hOld parent child hWaiting

/-
  A vote or a response that came from the same peer before
  made the node ask for the parent of the block, or the
  block names itself as its parent.
-/
def AskedBefore
    (past : List (Node H × Event H))
    (node : Node H)
    (event : Event H) : Prop :=
  ∀ peer block, StepParks node event peer block →
    (∃ taken ∈ past,
      Requests taken.1 taken.2 peer
        (BlockTrait.getPrev block)) ∨
      (BlockTrait.getHash block =
          (BlockTrait.getPrev block : H) ∧
        peer ≠ node.cx.myid)

/- The same, read off what the node has sent. -/
theorem askedBefore_iff
    {config : Config}
    (hTrace :
      Machine.Trace step (Node.new config) past node) :
    AskedBefore past node event ↔
      ∀ peer block, StepParks node event peer block →
        Asked node.cx peer (BlockTrait.getPrev block) ∨
          (BlockTrait.getHash block =
              (BlockTrait.getPrev block : H) ∧
            peer ≠ node.cx.myid) := by
  unfold AskedBefore
  simp only [asked_iff_requested hTrace]

/- Where parents are asked for before, they are asked for. -/
theorem asked_of_parked
    {config : Config}
    {peer : Replica}
    {parent child : H}
    (hTrace :
      Machine.Trace step (Node.new config) past node)
    (hBefore :
      ∀ earlier mid event,
        earlier ++ [(mid, event)] <+: past →
          AskedBefore earlier mid event)
    (hParked : ParkedFrom past peer parent child) :
    Asked node.cx peer parent := by
  induction hTrace with
  | start =>
      rcases hParked with ⟨taken, hTaken, _⟩
      exact absurd hTaken List.not_mem_nil
  | @next before last _ event hEarlier hStep ih =>
      rcases hParked with
        ⟨taken, hTaken, block, hParks, rfl, hChild⟩
      rcases List.mem_append.mp hTaken with hOld | hLast
      · refine asked_step hStep (ih ?_ ?_)
        · intro earlier mid other hPrefix
          exact hBefore earlier mid other
            (hPrefix.trans (List.prefix_append _ _))
        · exact ⟨taken, hOld, block, hParks, rfl, hChild⟩
      · have hAsked :=
          (askedBefore_iff hEarlier).mp
            (hBefore before last event List.prefix_rfl)
        rw [List.mem_singleton] at hLast
        subst hLast
        exact (asked_iff_of_parks hParks hStep).mpr
          (hAsked peer block hParks)

/-
  In a run, the parent of every block that waits has been
  asked for from the peer that sent the block, in all states
  of the run, exactly if, before each block was parked, a
  vote or a response of that peer had made the node ask for
  the parent.
-/
theorem parents_asked_iff
    {config : Config}
    (hTrace :
      Machine.Trace step (Node.new config) past node) :
    (∀ earlier mid, earlier <+: past →
      Machine.Trace step (Node.new config) earlier mid →
        AsksForParents earlier mid) ↔
      ∀ earlier mid event,
        earlier ++ [(mid, event)] <+: past →
          AskedBefore earlier mid event := by
  constructor
  · intro hAsks earlier mid event hPrefix
    rcases hTrace.split hPrefix with
      ⟨next, hEarlier, hStep⟩
    rw [askedBefore_iff hEarlier]
    intro peer block hParks
    have hNext := hAsks _ next hPrefix (hEarlier.next hStep)
    have hWaiting :
        next.cx.blockParentWaiting.lookup
            (BlockTrait.getPrev block) =
          some (BlockTrait.getHash block : H) := by
      rw [hParks.waiting_eq hStep]
      exact Finmap.lookup_insert _
    refine (asked_iff_of_parks hParks hStep).mp ?_
    refine (hNext _ _ hWaiting).2 peer ?_
    exact ⟨(mid, event), List.mem_append_right _
      (List.mem_singleton_self _), block, hParks, rfl, rfl⟩
  · intro hBefore earlier mid hPrefix hEarlier parent child
      hWaiting
    refine ⟨waiting_parked hEarlier hWaiting, ?_⟩
    intro peer hParked
    refine asked_of_parked hEarlier ?_ hParked
    intro before last event hMore
    exact hBefore before last event (hMore.trans hPrefix)

end Artemis

end LibApollo

------------------------------------------------------------
-- A Block Before Its Parent
------------------------------------------------------------

namespace LibApollo

namespace Artemis

variable {H : Type} [DecidableEq H] [Crypto H]

omit [Crypto H] in
/- Whether a request for a hash has been sent. -/
def askedCheck
    (cx : Context H)
    (peer : Replica)
    (hash : H) : Bool :=
  cx.outbox.any
    (fun packet =>
      match packet.2 with
      | .request sender _ wanted =>
          decide (packet.1 = peer ∧ sender = cx.myid ∧
            wanted = hash)
      | _ => false)

omit [Crypto H] in
theorem asked_iff_askedCheck
    {cx : Context H}
    {peer : Replica}
    {hash : H} :
    Asked cx peer hash ↔
      askedCheck cx peer hash = true := by
  unfold Asked askedCheck
  rw [List.any_eq_true]
  constructor
  · intro hAsked
    rcases hAsked with ⟨reqId, hMem⟩
    exact ⟨_, hMem, decide_eq_true ⟨rfl, rfl, rfl⟩⟩
  · intro hFound
    rcases hFound with ⟨⟨dest, msg⟩, hMem, hMatch⟩
    cases msg with
    | request sender reqId wanted =>
        rcases of_decide_eq_true hMatch with
          ⟨hDest, hSender, hHash⟩
        dsimp only at hDest
        rw [hDest, hSender, hHash] at hMem
        exact ⟨reqId, hMem⟩
    | newBlock block batch => cases hMatch
    | ucrVote v => cases hMatch
    | relay sender v => cases hMatch
    | blame v => cases hMatch
    | response sender reqId block batch => cases hMatch
    | invalid => cases hMatch

/- The parent of the next response has been asked for. -/
def askedBeforeCheck
    (node : Node H)
    (_event : Event H) : Bool :=
  match node.cx.responseWaiting with
  | [] => true
  | (peer, block, _) :: _ =>
      askedCheck node.cx peer (BlockTrait.getPrev block)

theorem askedBefore_of_check
    {config : Config}
    {past : List (Node H × Event H)}
    {node : Node H}
    {event : Event H}
    (hTrace :
      Machine.Trace step (Node.new config) past node)
    (hCheck : askedBeforeCheck node event = true) :
    AskedBefore past node event := by
  rw [askedBefore_iff hTrace]
  intro peer block hParks
  rcases hParks with ⟨_, _, batch, rest, hQueue, _⟩
  unfold askedBeforeCheck at hCheck
  rw [hQueue] at hCheck
  exact Or.inl (asked_iff_askedCheck.mpr hCheck)

/-
  A peer relays the vote of round 1 before it sends the
  second block; its parent is asked for because of the vote.
-/
def askedRun : List (Event Digest) :=
  [.recv (.relay 2 (voteFor 0 1 firstBlock))] ++
    List.replicate 9 .internal ++
    [.recv (.response 2 0 secondBlock oneBatch)] ++
    List.replicate 3 .internal

theorem parents_asked_after_vote :
    ∃ past, ∃ node : Node Digest,
      Machine.Trace step (Node.new (smallConfig 1)) past
          node ∧
        node.cx.blockParentWaiting.lookup
            firstBlock.blk.hash =
          some secondBlock.blk.hash ∧
        AsksForParents past node := by
  have hRun :
      Machine.runCheck step askedBeforeCheck
        (fun node =>
          decide
            (node.cx.blockParentWaiting.lookup
                firstBlock.blk.hash =
              some secondBlock.blk.hash))
        (Node.new (smallConfig 1)) askedRun = true := by
    decide +kernel
  rcases Machine.Trace.of_runCheck .start hRun with
    ⟨past, node, hTrace, _, _, hChecks, hFinal⟩
  rw [List.nil_append] at hTrace
  have hBefore :
      ∀ earlier mid event,
        earlier ++ [(mid, event)] <+: past →
          AskedBefore earlier mid event := by
    intro earlier mid event hPrefix
    rcases hTrace.split hPrefix with ⟨_, hEarlier, _⟩
    refine
      askedBefore_of_check hEarlier
        (hChecks (mid, event) ?_)
    exact hPrefix.subset (List.mem_append_right _
      (List.mem_singleton_self _))
  have hAsks := (parents_asked_iff hTrace).mpr hBefore
  exact ⟨past, node, hTrace, of_decide_eq_true hFinal,
    hAsks past node List.prefix_rfl hTrace⟩

/-
  The second block comes as a response and waits for the
  first one, which the node never asks for: it asks for the
  block that it has.
-/
theorem missing_parent_not_asked :
    ∃ past, ∃ node : Node Digest,
      Machine.Trace step (Node.new (smallConfig 1)) past
          node ∧
        node.cx.blockParentWaiting.lookup
            firstBlock.blk.hash =
          some secondBlock.blk.hash ∧
        ParkedFrom past 2 firstBlock.blk.hash
          secondBlock.blk.hash ∧
        node.cx.outbox =
          [(2, .request 1 0 secondBlock.blk.hash)] ∧
        ¬ AsksForParents past node := by
  have hRun :
      Machine.runCheck step (fun _ _ => true)
        (fun mid =>
          decide (mid.phase = .responses ∧
            mid.cx.responseWaiting =
              [(2, secondBlock, oneBatch)] ∧
            Orphan secondBlock oneBatch mid.cx) &&
          Machine.runCheck step (fun _ _ => true)
            (fun node =>
              decide
                (node.cx.blockParentWaiting.lookup
                    firstBlock.blk.hash =
                  some secondBlock.blk.hash ∧
                node.cx.outbox =
                  [(2, .request 1 0
                    secondBlock.blk.hash)]) &&
              !askedCheck node.cx 2 firstBlock.blk.hash)
            mid [.internal])
        (Node.new (smallConfig 1))
        [.recv (.response 2 0 secondBlock oneBatch),
          .internal, .internal] = true := by
    decide +kernel
  rcases Machine.Trace.through hRun with
    ⟨past, mid, node, hTrace, hTaken, hHere, hFinal⟩
  rcases of_decide_eq_true hHere with
    ⟨hPhase, hQueue, hOrphan⟩
  rw [Bool.and_eq_true, Bool.not_eq_true'] at hFinal
  rcases of_decide_eq_true hFinal.1 with
    ⟨hWaiting, hOutbox⟩
  have hParked :
      ParkedFrom past 2 firstBlock.blk.hash
        secondBlock.blk.hash :=
    ⟨(mid, .internal), hTaken, secondBlock,
      ⟨rfl, hPhase, oneBatch, [], hQueue, hOrphan⟩, rfl,
      rfl⟩
  refine ⟨past, node, hTrace, hWaiting, hParked, hOutbox,
    ?_⟩
  intro hAsks
  have hAsked := (hAsks _ _ hWaiting).2 2 hParked
  rw [asked_iff_askedCheck, hFinal.2] at hAsked
  cases hAsked

end Artemis

end LibApollo
