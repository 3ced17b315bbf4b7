import LibApollo.Apollo.Effects

/-
  The transitions of an Apollo node, for any messages.

  Each handler that resolves a proposal is described by what
  it can do, with the conditions under which it does so, and
  every step is one of the transitions listed here or the
  proposal of a batch.  Unlike the effects, the transitions
  name the handler that acts and ask nothing of the
  messages.

  Key definitions include:
    * `Receives`, `Delivers`, `Resolves`
    * `Transition`

  Key theorems include:
    * `receiveOrKeep_receives`
    * `deliveryCheck_resolves`
    * `step_transition`
-/

------------------------------------------------------------
-- Receiving a Proposal
------------------------------------------------------------

namespace LibApollo

namespace Apollo

variable {H : Type} [DecidableEq H] [Crypto H]
variable {cx cx' : Context H}
variable {sender : Replica}
variable {p : Propose H}
variable {block : Block H}

/- What `receiveOrKeep` does with a proposal. -/
inductive Receives
    (sender : Replica)
    (p : Propose H)
    (block : Block H)
    (cx : Context H) : Context H → Prop where
| refuse :
    p.round ≤ cx.round →
      ¬ Acceptable cx p block →
      Receives sender p block cx cx
| keep :
    cx.round < p.round →
      Receives sender p block cx
        { cx with
          futureMsgs :=
            cx.futureMsgs.insert p.round (sender, p) }
| equivocation :
    Acceptable cx p block →
      equivocates cx block = true →
      Receives sender p block cx cx
| accept {cx' : Context H} :
    Acceptable cx p block →
      equivocates cx block = false →
      acceptProposal p block cx = .ok cx' →
      Receives sender p block cx cx'

theorem onReceiveProposal_receives
    (hAcceptable : Acceptable cx p block)
    (hReceive : onReceiveProposal p block cx = .ok cx') :
    Receives sender p block cx cx' := by
  unfold onReceiveProposal at hReceive
  split at hReceive
  · rename_i hEquivocates
    cases hReceive
    exact .equivocation hAcceptable hEquivocates
  · rename_i hEquivocates
    exact .accept hAcceptable
      (Bool.eq_false_iff.mpr hEquivocates) hReceive

theorem tryReceiveProposal_receives
    (hTry :
      tryReceiveProposal p block sender cx = .ok cx') :
    Receives sender p block cx cx' := by
  unfold tryReceiveProposal at hTry
  split at hTry
  · rename_i hPast
    cases hTry
    refine .refuse (Nat.le_of_lt hPast) ?_
    intro hAcceptable
    rw [hAcceptable.1] at hPast
    exact Nat.lt_irrefl _ hPast
  rename_i hPast
  split at hTry
  · rename_i hFuture
    cases hTry
    exact .keep hFuture
  rename_i hFuture
  have hLe : p.round ≤ cx.round := Nat.not_lt.mp hFuture
  have hRound : p.round = cx.round :=
    Nat.le_antisymm hLe (Nat.not_lt.mp hPast)
  split at hTry
  · rename_i hHash
    cases hTry
    exact .refuse hLe
      (fun hAcceptable => hHash hAcceptable.2.1)
  rename_i hHash
  split at hTry
  · rename_i hOrigin
    cases hTry
    exact .refuse hLe
      (fun hAcceptable => hOrigin hAcceptable.2.2.1)
  rename_i hOrigin
  split at hTry
  · rename_i hAuthor
    cases hTry
    exact .refuse hLe
      (fun hAcceptable => hAuthor hAcceptable.2.2.2.1)
  rename_i hAuthor
  rw [not_not] at hHash hOrigin hAuthor
  split at hTry
  · rename_i hSelf
    exact onReceiveProposal_receives
      ⟨hRound, hHash, hOrigin, hAuthor, Or.inl hSelf⟩ hTry
  · rename_i hSelf
    split at hTry
    · cases hTry
    · rename_i publicKey hKey
      split at hTry
      · rename_i hSig
        exact onReceiveProposal_receives
          ⟨hRound, hHash, hOrigin, hAuthor,
            Or.inr ⟨publicKey, hKey, hSig⟩⟩ hTry
      · rename_i hSig
        cases hTry
        refine .refuse hLe ?_
        intro hAcceptable
        rcases hAcceptable.2.2.2.2 with
          hOwn | ⟨other, hOther, hValid⟩
        · exact hSelf hOwn
        · cases hKey.symm.trans hOther
          exact hSig hValid

theorem receiveOrKeep_receives
    (hReceive :
      receiveOrKeep sender p block cx = .ok cx') :
    Receives sender p block cx cx' := by
  unfold receiveOrKeep at hReceive
  split at hReceive
  · rename_i hFuture
    cases hReceive
    exact .keep hFuture
  · exact tryReceiveProposal_receives hReceive

end Apollo

end LibApollo

------------------------------------------------------------
-- Resolving a Proposal
------------------------------------------------------------

namespace LibApollo

namespace Apollo

variable {H : Type} [DecidableEq H] [Crypto H]
variable {cx cx' : Context H}
variable {sender : Replica}
variable {p : Propose H}
variable {block : Block H}
variable {next : Option H}

/- What `deliverBlock` does with a proposal and its block. -/
inductive Delivers
    (sender : Replica)
    (p : Propose H)
    (block : Block H)
    (cx : Context H) : Context H → Prop where
| park :
    cx.storage.isDeliveredByHash block.header.prev =
      false →
      Delivers sender p block cx
        (requestParent sender p block cx)
| hand {received : Context H} :
    cx.storage.isDeliveredByHash block.header.prev =
      true →
      Receives sender p block (cx.addDeliveredBlock block)
        received →
      Delivers sender p block cx
        { received with
          propWaiting :=
            received.propWaiting.erase p.blockHash }

theorem deliverBlock_delivers
    (hDeliver :
      deliverBlock sender p block cx = .ok (cx', next)) :
    Delivers sender p block cx cx' := by
  unfold deliverBlock at hDeliver
  split at hDeliver
  · rename_i hParent
    rcases Result.bind_eq_ok.mp hDeliver with
      ⟨received, hReceive, hEnd⟩
    cases hEnd
    exact .hand hParent (receiveOrKeep_receives hReceive)
  · rename_i hParent
    cases hDeliver
    exact .park (Bool.eq_false_iff.mpr hParent)

/- What `deliveryCheck` does with a proposal. -/
inductive Resolves
    (sender : Replica)
    (p : Propose H)
    (blockAndBatch : Option (Block H × Batch))
    (cx : Context H) : Context H → Prop where
| leave : Resolves sender p blockAndBatch cx cx
| ask :
    blockAndBatch = none →
      cx.storage.deliveredBlockFromHash p.blockHash =
        none →
      Resolves sender p blockAndBatch cx
        (requestBlock sender p cx)
| sent {block : Block H} {batch : Batch}
    {cx' : Context H} :
    blockAndBatch = some (block, batch) →
      block.hash = p.blockHash →
      checkBatchHash block batch = true →
      Delivers sender p block
        (cx.persistBatch block.body.batchHash batch) cx' →
      Resolves sender p blockAndBatch cx cx'
| stored {block : Block H} {cx' : Context H} :
    blockAndBatch = none →
      cx.storage.deliveredBlockFromHash p.blockHash =
        some block →
      Delivers sender p block cx cx' →
      Resolves sender p blockAndBatch cx cx'

theorem deliveryCheck_resolves
    {blockAndBatch : Option (Block H × Batch)}
    (hCheck :
      deliveryCheck sender p blockAndBatch cx =
        .ok (cx', next)) :
    Resolves sender p blockAndBatch cx cx' := by
  unfold deliveryCheck at hCheck
  split at hCheck
  · cases hCheck
    exact .leave
  split at hCheck
  · split at hCheck
    · cases hCheck
      exact .leave
    rename_i hHash
    split at hCheck
    · cases hCheck
      exact .leave
    · rename_i hBatch
      exact .sent rfl (not_not.mp hHash)
        (by simpa using hBatch)
        (deliverBlock_delivers hCheck)
  · split at hCheck
    · rename_i block hLookup
      exact .stored rfl hLookup
        (deliverBlock_delivers hCheck)
    · rename_i hLookup
      cases hCheck
      exact .ask rfl hLookup

end Apollo

end LibApollo

------------------------------------------------------------
-- Transitions
------------------------------------------------------------

namespace LibApollo

namespace Apollo

variable {H : Type} [DecidableEq H] [Crypto H]
variable {cx cx' : Context H}
variable {node node' : Node H}
variable {event : Event H}

/- The handler call of a step and what it does. -/
inductive Transition
    (cx : Context H) : Event H → Context H → Prop where
| stay {event : Event H} : Transition cx event cx
| count (bench : Nat) :
    Transition cx .tick
      { cx with benchCommittedTxCount := bench }
| queue (msg : ProtocolMsg H) :
    Transition cx (.recv msg) (handleMessage msg cx)
| install (batch : Batch) :
    Transition cx (.sealed batch)
      (cx.persistBatch batch.hash batch)
| pend (batchHash : H) (batch : Batch) :
    Transition cx (.batch batchHash batch)
      { cx with
        pendingBatches :=
          cx.pendingBatches ++ [(batchHash, batch)] }
| proposal {sender : Replica} {p : Propose H}
    {block : Block H} {batch : Batch}
    {rest : List (Replica × Propose H × Block H × Batch)}
    {cx' : Context H} :
    cx.propBuf = (sender, p, block, batch) :: rest →
      Resolves sender p (some (block, batch))
        { cx with propBuf := rest } cx' →
      Transition cx .internal cx'
| relay {sender : Replica} {p : Propose H}
    {rest : List (Replica × Propose H)}
    {cx' : Context H} :
    cx.relayBuf = (sender, p) :: rest →
      Resolves sender p none
        { cx with relayBuf := rest } cx' →
      Transition cx .internal cx'
| answer {sender : Replica} {reqId : Nat} {hash : H}
    {rest : List (ProtocolMsg H)} :
    cx.otherBuf = .request sender reqId hash :: rest →
      Transition cx .internal
        (onRecvRequest sender reqId hash
          { cx with otherBuf := rest })
| skip (rest : List (ProtocolMsg H)) :
    Transition cx .internal { cx with otherBuf := rest }
| future {sender : Replica} {p : Propose H}
    {cx' : Context H} :
    cx.futureMsgs.lookup cx.round = some (sender, p) →
      Resolves sender p none
        { cx with
          futureMsgs := cx.futureMsgs.erase cx.round }
        cx' →
      Transition cx .internal cx'
| child {sender : Replica} {hash : H} {p : Propose H}
    {block : Block H} {cx' : Context H} :
    cx.propWaitingParent.lookup hash = some p →
      cx.storage.deliveredBlockFromHash p.blockHash =
        some block →
      Receives sender p block
        { cx with
          propWaitingParent :=
            cx.propWaitingParent.erase hash } cx' →
      Transition cx .internal cx'

/- The step takes a batch from the queue and proposes it. -/
def StepProposes
    (node : Node H)
    (event : Event H)
    (batchHash : H)
    (batch : Batch)
    (rest : List (H × Batch)) : Prop :=
  event = .internal ∧ Proposes node batchHash batch rest

omit [Crypto H] in
theorem send_outbox
    (cx : Context H)
    (dest : Replica)
    (msg : ProtocolMsg H) :
    ∃ outbox,
      cx.send dest msg = { cx with outbox := outbox } := by
  unfold Context.send
  split
  · exact ⟨_, rfl⟩
  · exact ⟨_, rfl⟩

omit [Crypto H] in
/- An answer changes the stores and the outbox only. -/
theorem onRecvRequest_eq
    (sender : Replica)
    (reqId : Nat)
    (hash : H)
    (cx : Context H) :
    ∃ batches outbox,
      onRecvRequest sender reqId hash cx =
        { cx with batches := batches, outbox := outbox } := by
  unfold onRecvRequest
  split
  · exact ⟨_, _, rfl⟩
  split
  · exact ⟨_, _, rfl⟩
  split
  · rename_i hRead
    have hEq := congrArg Prod.snd hRead
    dsimp only at hEq
    rw [← hEq]
    exact ⟨_, _, rfl⟩
  · rename_i batch read hRead
    have hEq := congrArg Prod.snd hRead
    dsimp only at hEq
    rcases send_outbox read sender
      (.response read.myid reqId _ _ batch) with
      ⟨outbox, hSent⟩
    rw [hSent, ← hEq]
    exact ⟨_, _, rfl⟩

omit [Crypto H] in
/- The context of a node after a delivery. -/
theorem afterDelivery_cx
    {phase : Phase}
    {sender : Replica}
    {result : Except Panic (Context H × Option H)}
    (hStep :
      Node.afterDelivery phase sender result =
        .ok node') :
    ∃ next, result = .ok (node'.cx, next) := by
  rcases Result.bind_eq_ok.mp hStep with
    ⟨pair, hPair, hEnd⟩
  cases hEnd
  exact ⟨pair.2, hPair⟩

theorem deliverWaitingChild_transition
    {sender : Replica}
    {hash : H}
    {next : Option H}
    (hDeliver :
      deliverWaitingChild sender hash cx =
        .ok (cx', next)) :
    Transition cx .internal cx' := by
  unfold deliverWaitingChild at hDeliver
  split at hDeliver
  · cases hDeliver
    exact .stay
  · rename_i p hWaiting
    dsimp only at hDeliver
    split at hDeliver
    · cases hDeliver
    · rename_i child hChild
      rcases Result.bind_eq_ok.mp hDeliver with
        ⟨received, hReceive, hEnd⟩
      cases hEnd
      exact .child hWaiting hChild
        (receiveOrKeep_receives hReceive)

theorem processMessage_transition
    (hStep : processMessage node = .ok node') :
    Transition node.cx .internal node'.cx := by
  unfold processMessage at hStep
  dsimp only at hStep
  split at hStep
  · split at hStep
    · cases hStep
      exact .stay
    · rename_i hQueue
      rcases afterDelivery_cx hStep with ⟨next, hCheck⟩
      exact .proposal hQueue (deliveryCheck_resolves hCheck)
  · split at hStep
    · cases hStep
      exact .stay
    · rename_i hQueue
      rcases afterDelivery_cx hStep with ⟨next, hCheck⟩
      exact .relay hQueue (deliveryCheck_resolves hCheck)
  · split at hStep
    · cases hStep
      exact .stay
    · rename_i hQueue
      split at hStep
      · cases hStep
        exact .answer hQueue
      · cases hStep
      · cases hStep
        exact .skip _
  · split at hStep
    · cases hStep
      exact .stay
    · rename_i hFuture
      rcases afterDelivery_cx hStep with ⟨next, hCheck⟩
      exact .future hFuture (deliveryCheck_resolves hCheck)
  · cases hStep
    exact .stay

/- An internal step that does not propose. -/
theorem internalStep_transition
    (hIdle :
      ∀ batchHash batch rest,
        ¬ Proposes node batchHash batch rest)
    (hStep : internalStep node = .ok node') :
    Transition node.cx .internal node'.cx := by
  unfold internalStep at hStep
  split at hStep
  · rcases afterDelivery_cx hStep with ⟨next, hDeliver⟩
    exact deliverWaitingChild_transition hDeliver
  · rename_i hWaiting
    split at hStep
    · cases hStep
      exact .stay
    · cases hStep
      exact .stay
    · rename_i hPhase
      unfold proposeLoop at hStep
      dsimp only at hStep
      split at hStep
      · cases hStep
        exact .stay
      · rename_i hPending
        split at hStep
        · rename_i hLeader
          exact absurd
            ⟨hWaiting, hPhase, hLeader, hPending⟩
            (hIdle _ _ _)
        · cases hStep
          exact .stay
    · exact processMessage_transition hStep

/- A step on outside input. -/
theorem input_transition
    (hInput : event ≠ .internal)
    (hStep : step node event = .ok node') :
    Transition node.cx event node'.cx := by
  cases event with
  | tick =>
      simp only [step] at hStep
      split at hStep
      · cases hStep
        dsimp only
        split
        · exact .count 0
        · exact .stay
      · cases hStep
        exact .stay
  | recv msg =>
      simp only [step] at hStep
      split at hStep
      · cases hStep
        exact .queue msg
      · cases hStep
        exact .stay
  | sealed batch =>
      cases hStep
      exact .install batch
  | batch batchHash batch =>
      simp only [step] at hStep
      split at hStep
      · cases hStep
        exact .pend batchHash batch
      · cases hStep
        exact .stay
  | internal => exact absurd rfl hInput

/- Every step is a transition or proposes a batch. -/
theorem step_transition
    (hStep : step node event = .ok node') :
    (Transition node.cx event node'.cx ∧
      ∀ batchHash batch rest,
        ¬ StepProposes node event batchHash batch rest) ∨
    ∃ batchHash batch rest,
      StepProposes node event batchHash batch rest ∧
        doPropose batchHash batch
          { node.cx with pendingBatches := rest } =
            .ok node'.cx := by
  by_cases hInternal : event = .internal
  · subst hInternal
    by_cases hProposes :
        ∃ batchHash batch rest,
          Proposes node batchHash batch rest
    · rcases hProposes with
        ⟨batchHash, batch, rest, hProposes⟩
      right
      refine ⟨batchHash, batch, rest, ⟨rfl, hProposes⟩, ?_⟩
      change internalStep node = .ok node' at hStep
      rw [internalStep_proposes hProposes] at hStep
      rcases Result.map_eq_ok.mp hStep with
        ⟨cx', hPropose, rfl⟩
      exact hPropose
    · left
      have hIdle :
          ∀ batchHash batch rest,
            ¬ Proposes node batchHash batch rest :=
        fun batchHash batch rest hBatch =>
          hProposes ⟨batchHash, batch, rest, hBatch⟩
      refine ⟨internalStep_transition hIdle hStep, ?_⟩
      intro batchHash batch rest hBatch
      exact hIdle batchHash batch rest hBatch.2
  · left
    refine ⟨input_transition hInternal hStep, ?_⟩
    intro batchHash batch rest hBatch
    exact hInternal hBatch.1

end Apollo

end LibApollo
