import LibApollo.Apollo.Reactor

/-
  What the steps of an Apollo node can do to its context.

  Every step decomposes into primitive effects: updates of
  the channels and queues, parking and releasing proposals,
  storing a block, sending a message and accepting a
  proposal.  Invariants are proved effect by effect.

  Key definitions include:
    * `Scope`, `Data`
    * `Effect`, `Effects`

  Key theorems include:
    * `acceptProposal_ok`
    * `Data.effects`
    * `internalStep_effects`
-/

------------------------------------------------------------
-- Frames
------------------------------------------------------------

namespace LibApollo

namespace Apollo

variable {H : Type} [DecidableEq H]

/- The context differs in batches and channels only. -/
def ChannelsOnly (cx cx' : Context H) : Prop :=
  ∃ batches toBatcher toRouter bench,
    cx' =
      { cx with
        batches := batches
        txConsensusToBatcher := toBatcher
        txCommittedToRouter := toRouter
        benchCommittedTxCount := bench }

theorem ChannelsOnly.refl
    (cx : Context H) : ChannelsOnly cx cx :=
  ⟨_, _, _, _, rfl⟩

theorem ChannelsOnly.trans
    {cx cx' cx'' : Context H}
    (hFirst : ChannelsOnly cx cx')
    (hSecond : ChannelsOnly cx' cx'') :
    ChannelsOnly cx cx'' := by
  rcases hFirst with ⟨_, _, _, _, rfl⟩
  rcases hSecond with ⟨_, _, _, _, rfl⟩
  exact ⟨_, _, _, _, rfl⟩

theorem readBatch_channels
    (cx : Context H)
    (hash : H) :
    ChannelsOnly cx (cx.readBatch hash).2 :=
  ⟨_, _, _, _, rfl⟩

theorem notifyCommitted_channels
    (cx : Context H)
    (block : Block H) :
    ChannelsOnly cx (notifyCommitted cx block) := by
  unfold notifyCommitted
  have hRead := readBatch_channels cx block.body.batchHash
  rcases hBatch : cx.readBatch block.body.batchHash with
    ⟨batch, read⟩
  rw [hBatch] at hRead
  rcases hRead with ⟨_, _, _, _, rfl⟩
  cases batch with
  | none => exact ⟨_, _, _, _, rfl⟩
  | some batch => exact ⟨_, _, _, _, rfl⟩

theorem foldl_notifyCommitted_channels
    (blocks : List (Block H))
    (cx : Context H) :
    ChannelsOnly cx (blocks.foldl notifyCommitted cx) := by
  induction blocks generalizing cx with
  | nil => exact ChannelsOnly.refl cx
  | cons block blocks ih =>
      exact (notifyCommitted_channels cx block).trans
        (ih (notifyCommitted cx block))

end Apollo

end LibApollo

------------------------------------------------------------
-- Accepting a Proposal
------------------------------------------------------------

namespace LibApollo

namespace Apollo

variable {H : Type} [DecidableEq H]

/-
  The block index after the commit of an acceptance in
  `cx`: nothing happens in the first `numFaults` rounds,
  then the walk from the proposal of `numFaults` rounds ago.
-/
def CommitOutcome
    (cx : Context H)
    (p : Propose H)
    (storage : Storage H (Block H)) : Prop :=
  (cx.round ≤ cx.numFaults ∧ storage = cx.storage) ∨
    (cx.numFaults < cx.round ∧
      ∃ q,
        (cx.propChainByRound.insert p.round p).lookup
            (cx.round - cx.numFaults) = some q ∧
          cx.storage.WalkSpec q.blockHash storage)

/- The packets an acceptance adds: a relay, unless to self. -/
def relayPackets
    (cx : Context H)
    (p : Propose H) : List (Replica × ProtocolMsg H) :=
  if cx.nextLeader = cx.myid then []
  else [(cx.nextLeader, .relay cx.myid p)]

/- The context after an acceptance. -/
def Accepted
    (p : Propose H)
    (block : Block H)
    (cx cx' : Context H) : Prop :=
  ∃ storage batches toBatcher toRouter bench,
    CommitOutcome cx p storage ∧
      cx' =
        { cx with
          propChainByRound :=
            cx.propChainByRound.insert p.round p
          propChainByHash :=
            cx.propChainByHash.insert p.blockHash p
          round := cx.round + 1
          roundLeader := cx.nextLeader
          lastSeenBlock := block
          storage := storage
          outbox := cx.outbox ++ relayPackets cx p
          batches := batches
          txConsensusToBatcher := toBatcher
          txCommittedToRouter := toRouter
          benchCommittedTxCount := bench }

theorem send_relay
    (cx : Context H)
    (p : Propose H) :
    cx.send cx.nextLeader (.relay cx.myid p) =
      { cx with
        outbox := cx.outbox ++ relayPackets cx p } := by
  unfold Context.send relayPackets
  by_cases hSelf : cx.nextLeader = cx.myid
  · simp [hSelf]
  · simp [hSelf]

theorem recordProposal_eq
    (p : Propose H)
    (block : Block H)
    (cx : Context H) :
    ChannelsOnly
      { cx with
        propChainByRound :=
          cx.propChainByRound.insert p.round p
        propChainByHash :=
          cx.propChainByHash.insert p.blockHash p
        outbox := cx.outbox ++ relayPackets cx p }
      (recordProposal p block cx) := by
  have hChannels := readBatch_channels
    ({ cx with
      outbox := cx.outbox ++ relayPackets cx p
      propChainByHash :=
        cx.propChainByHash.insert p.blockHash p
      propChainByRound :=
        cx.propChainByRound.insert p.round p } :
      Context H) block.body.batchHash
  unfold recordProposal
  rw [send_relay]
  dsimp only
  split
  · rename_i batch read hRead
    rw [hRead] at hChannels
    exact hChannels.trans ⟨_, _, _, _, rfl⟩
  · rename_i read hRead
    rw [hRead] at hChannels
    exact hChannels

theorem doCommit_ok
    {cx cx' : Context H}
    (hCommit : doCommit cx = .ok cx') :
    ∃ q storage,
      cx.propChainByRound.lookup
          (cx.round - cx.numFaults) = some q ∧
        cx.storage.WalkSpec q.blockHash storage ∧
        ChannelsOnly { cx with storage := storage } cx' := by
  unfold doCommit at hCommit
  dsimp only at hCommit
  cases hLookup :
      cx.propChainByRound.lookup
        (cx.round - cx.numFaults) with
  | none => simp [hLookup] at hCommit
  | some q =>
      simp only [hLookup] at hCommit
      cases hWalk : cx.storage.commitWalk q.blockHash with
      | none => simp [hWalk] at hCommit
      | some result =>
          rcases result with ⟨storage, blocks⟩
          simp only [hWalk, Except.ok.injEq] at hCommit
          refine ⟨q, storage, rfl,
            Storage.commitWalk_spec hWalk, ?_⟩
          rw [← hCommit]
          exact foldl_notifyCommitted_channels _ _

/- A successful acceptance has the `Accepted` effect. -/
theorem acceptProposal_ok
    {p : Propose H}
    {block : Block H}
    {cx cx' : Context H}
    (hAccept : acceptProposal p block cx = .ok cx') :
    Accepted p block cx cx' := by
  rcases recordProposal_eq p block cx with
    ⟨batches, toBatcher, toRouter, bench, hRecorded⟩
  rcases Result.bind_eq_ok.mp hAccept with
    ⟨committed, hCommitted, hFinal⟩
  rw [hRecorded, commitIfDue] at hCommitted
  simp only [Except.ok.injEq] at hFinal
  subst hFinal
  by_cases hRounds : cx.numFaults < cx.round
  · rw [if_pos hRounds] at hCommitted
    rcases doCommit_ok hCommitted with
      ⟨q, storage, hLookup, hSpec, _, _, _, _, rfl⟩
    exact ⟨storage, _, _, _, _,
      Or.inr ⟨hRounds, q, hLookup, hSpec⟩, rfl⟩
  · rw [if_neg hRounds, Except.ok.injEq] at hCommitted
    subst hCommitted
    exact ⟨cx.storage, _, _, _, _,
      Or.inl ⟨Nat.le_of_not_lt hRounds, rfl⟩, rfl⟩

/- An acceptance fails only in its commit. -/
theorem acceptProposal_error
    {p : Propose H}
    {block : Block H}
    {cx : Context H}
    {panic : Panic}
    (hAccept : acceptProposal p block cx = .error panic) :
    cx.numFaults < cx.round ∧
      ((panic = .commitRound ∧
          (cx.propChainByRound.insert p.round p).lookup
            (cx.round - cx.numFaults) = none) ∨
        (panic = .commitBlock ∧
          ∃ q,
            (cx.propChainByRound.insert p.round p).lookup
                (cx.round - cx.numFaults) = some q ∧
              cx.storage.commitWalk q.blockHash =
                none)) := by
  rcases recordProposal_eq p block cx with
    ⟨batches, toBatcher, toRouter, bench, hRecorded⟩
  rcases Result.bind_eq_error.mp hAccept with
    hCommitted | ⟨_, _, hFinal⟩
  · rw [hRecorded, commitIfDue] at hCommitted
    by_cases hRounds : cx.numFaults < cx.round
    · refine ⟨hRounds, ?_⟩
      rw [if_pos hRounds, doCommit] at hCommitted
      dsimp only at hCommitted
      cases hLookup :
          (cx.propChainByRound.insert p.round p).lookup
            (cx.round - cx.numFaults) with
      | none =>
          simp only [hLookup, Except.error.injEq]
            at hCommitted
          exact Or.inl ⟨hCommitted.symm, rfl⟩
      | some q =>
          simp only [hLookup] at hCommitted
          cases hWalk :
              cx.storage.commitWalk q.blockHash with
          | none =>
              simp only [hWalk, Except.error.injEq]
                at hCommitted
              exact Or.inr
                ⟨hCommitted.symm, q, rfl, hWalk⟩
          | some result =>
              simp [hWalk] at hCommitted
    · rw [if_neg hRounds] at hCommitted
      cases hCommitted
  · cases hFinal

end Apollo

end LibApollo

------------------------------------------------------------
-- Scopes and Primitive Effects
------------------------------------------------------------

namespace LibApollo

namespace Apollo

variable {H : Type} [DecidableEq H]

/- Which proposals and blocks may occur at a node. -/
structure Scope (H : Type) where
  okProp : Propose H → Prop
  okBlock : Block H → Prop

/- A message other than `Blame` with content in scope. -/
def Scope.OkMsg
    (scope : Scope H) : ProtocolMsg H → Prop
| .newProposal p block _ =>
    scope.okProp p ∧ scope.okBlock block
| .response _ _ p block _ =>
    scope.okProp p ∧ scope.okBlock block
| .relay _ p => scope.okProp p
| .request _ _ _ => True
| .blame _ => False

/- Everything a context holds or has sent is in scope. -/
structure Data
    (scope : Scope H)
    (cx : Context H) : Prop where
  propBuf :
    ∀ x ∈ cx.propBuf,
      scope.okProp x.2.1 ∧ scope.okBlock x.2.2.1
  relayBuf : ∀ x ∈ cx.relayBuf, scope.okProp x.2
  otherBuf : ∀ msg ∈ cx.otherBuf, scope.OkMsg msg
  futureMsgs :
    ∀ round x,
      cx.futureMsgs.lookup round = some x →
        scope.okProp x.2
  propWaiting :
    ∀ hash p,
      cx.propWaiting.lookup hash = some p →
        scope.okProp p
  propWaitingParent :
    ∀ hash p,
      cx.propWaitingParent.lookup hash = some p →
        scope.okProp p
  byRound :
    ∀ round p,
      cx.propChainByRound.lookup round = some p →
        scope.okProp p
  byHash :
    ∀ hash p,
      cx.propChainByHash.lookup hash = some p →
        scope.okProp p
  delivered :
    ∀ hash block,
      cx.storage.deliveredBlockFromHash hash =
          some block →
        scope.okBlock block
  lastSeen : scope.okBlock cx.lastSeenBlock
  outbox : ∀ x ∈ cx.outbox, scope.OkMsg x.2

end Apollo

namespace Apollo

variable {H : Type} [DecidableEq H] [Crypto H]

/-
  The primitive effects.  `acc` bounds the pairs that may
  be accepted.
-/
inductive Effect
    (scope : Scope H)
    (acc : Propose H → Block H → Prop)
    (cx : Context H) : Context H → Prop where
| channels {cx' : Context H} :
    ChannelsOnly cx cx' → Effect scope acc cx cx'
| buffers
    (propBuf :
      List (Replica × Propose H × Block H × Batch))
    (relayBuf : List (Replica × Propose H))
    (otherBuf : List (ProtocolMsg H)) :
    propBuf ⊆ cx.propBuf →
      relayBuf ⊆ cx.relayBuf →
      otherBuf ⊆ cx.otherBuf →
      Effect scope acc cx
        { cx with
          propBuf := propBuf
          relayBuf := relayBuf
          otherBuf := otherBuf }
| receive (msg : ProtocolMsg H) :
    scope.OkMsg msg →
      Effect scope acc cx (handleMessage msg cx)
| pending (pendingBatches : List (H × Batch)) :
    Effect scope acc cx
      { cx with pendingBatches := pendingBatches }
| keep (sender : Replica) (p : Propose H) :
    scope.okProp p →
      cx.round < p.round →
      Effect scope acc cx
        { cx with
          futureMsgs :=
            cx.futureMsgs.insert p.round (sender, p) }
| takeFuture (round : Nat) :
    Effect scope acc cx
      { cx with futureMsgs := cx.futureMsgs.erase round }
| awaitBlock (p : Propose H) :
    scope.okProp p →
      Effect scope acc cx
        { cx with
          propWaiting :=
            cx.propWaiting.insert p.blockHash p }
| forgetBlock (hash : H) :
    Effect scope acc cx
      { cx with propWaiting := cx.propWaiting.erase hash }
| takeWaiting (hash : H) :
    Effect scope acc cx
      { cx with
        propWaitingParent :=
          cx.propWaitingParent.erase hash }
| send (dest : Replica) (msg : ProtocolMsg H) :
    scope.OkMsg msg →
      Effect scope acc cx (cx.send dest msg)
| store (block : Block H) :
    scope.okBlock block →
      cx.storage.isDeliveredByHash block.header.prev =
        true →
      Effect scope acc cx (cx.addDeliveredBlock block)
| orphan (p : Propose H) (block : Block H) :
    scope.okProp p →
      scope.okBlock block →
      block.hash = p.blockHash →
      cx.storage.isDeliveredByHash block.header.prev =
        false →
      Effect scope acc cx
        { cx.addDeliveredBlock block with
          propWaitingParent :=
            cx.propWaitingParent.insert
              block.header.prev p }
| accept (p : Propose H) (block : Block H)
    {cx' : Context H} :
    scope.okProp p →
      acc p block →
      Acceptable cx p block →
      cx.storage.deliveredBlockFromHash block.hash =
        some block →
      equivocates cx block = false →
      Accepted p block cx cx' →
      Effect scope acc cx cx'

/- Any number of primitive effects. -/
abbrev Effects
    (scope : Scope H)
    (acc : Propose H → Block H → Prop) :
    Context H → Context H → Prop :=
  Relation.ReflTransGen (Effect scope acc)

end Apollo

end LibApollo

------------------------------------------------------------
-- Effects Keep the Data in Scope
------------------------------------------------------------

namespace LibApollo

namespace Apollo

variable {H : Type} [DecidableEq H]
variable {scope : Scope H}

theorem CommitOutcome.delivered_eq
    {cx : Context H}
    {p : Propose H}
    {storage : Storage H (Block H)}
    (hOutcome : CommitOutcome cx p storage)
    (hash : H) :
    storage.deliveredBlockFromHash hash =
      cx.storage.deliveredBlockFromHash hash := by
  rcases hOutcome with ⟨_, rfl⟩ | ⟨_, q, _, hSpec⟩
  · rfl
  · exact hSpec.deliveredBlockFromHash_eq hash

/- Relays carry proposals in scope. -/
theorem okMsg_of_mem_relayPackets
    {cx : Context H}
    {p : Propose H}
    {x : Replica × ProtocolMsg H}
    (hProp : scope.okProp p)
    (hMem : x ∈ relayPackets cx p) :
    scope.OkMsg x.2 := by
  unfold relayPackets at hMem
  split at hMem
  · simp at hMem
  · rw [List.mem_singleton] at hMem
    subst hMem
    exact hProp

theorem Data.accepted
    {p : Propose H}
    {block : Block H}
    {cx cx' : Context H}
    (hData : Data scope cx)
    (hProp : scope.okProp p)
    (hBlock : scope.okBlock block)
    (hAccepted : Accepted p block cx cx') :
    Data scope cx' := by
  rcases hAccepted with
    ⟨storage, _, _, _, _, hOutcome, rfl⟩
  refine { hData with
    byRound := ?_
    byHash := ?_
    delivered := ?_
    lastSeen := hBlock
    outbox := ?_ }
  · exact FinMap.forall_insert hData.byRound hProp
  · exact FinMap.forall_insert hData.byHash hProp
  · intro hash other hLookup
    rw [hOutcome.delivered_eq] at hLookup
    exact hData.delivered hash other hLookup
  · intro x hMem
    rcases List.mem_append.mp hMem with hOld | hNew
    · exact hData.outbox x hOld
    · exact okMsg_of_mem_relayPackets hProp hNew

/- A received message is queued with its content. -/
theorem Data.handleMessage
    {msg : ProtocolMsg H}
    {cx : Context H}
    (hData : Data scope cx)
    (hMsg : scope.OkMsg msg) :
    Data scope (handleMessage msg cx) := by
  cases msg with
  | newProposal p block batch =>
      refine { hData with propBuf := ?_ }
      intro x hMem
      rcases List.mem_append.mp hMem with hOld | hNew
      · exact hData.propBuf x hOld
      · rw [List.mem_singleton] at hNew
        subst hNew
        exact hMsg
  | response sender reqId p block batch =>
      refine { hData with propBuf := ?_ }
      intro x hMem
      rcases List.mem_append.mp hMem with hOld | hNew
      · exact hData.propBuf x hOld
      · rw [List.mem_singleton] at hNew
        subst hNew
        exact hMsg
  | relay sender p =>
      refine { hData with relayBuf := ?_ }
      intro x hMem
      rcases List.mem_append.mp hMem with hOld | hNew
      · exact hData.relayBuf x hOld
      · rw [List.mem_singleton] at hNew
        subst hNew
        exact hMsg
  | request sender reqId hash =>
      refine { hData with otherBuf := ?_ }
      intro x hMem
      rcases List.mem_append.mp hMem with hOld | hNew
      · exact hData.otherBuf x hOld
      · rw [List.mem_singleton] at hNew
        subst hNew
        exact hMsg
  | blame v => exact hMsg.elim

theorem Data.addDeliveredBlock
    {block : Block H}
    {cx : Context H}
    (hData : Data scope cx)
    (hBlock : scope.okBlock block) :
    Data scope (cx.addDeliveredBlock block) := by
  refine { hData with delivered := ?_ }
  exact Storage.forall_addDeliveredBlock hData.delivered
    hBlock

variable [Crypto H]
variable {acc : Propose H → Block H → Prop}

theorem Data.effect
    {cx cx' : Context H}
    (hData : Data scope cx)
    (hEffect : Effect scope acc cx cx') :
    Data scope cx' := by
  cases hEffect with
  | channels hChannels =>
      rcases hChannels with ⟨_, _, _, _, rfl⟩
      exact { hData with }
  | buffers propBuf relayBuf otherBuf hProp hRelay hOther =>
      exact { hData with
        propBuf := fun x hx => hData.propBuf x (hProp hx)
        relayBuf :=
          fun x hx => hData.relayBuf x (hRelay hx)
        otherBuf :=
          fun x hx => hData.otherBuf x (hOther hx) }
  | receive msg hMsg => exact hData.handleMessage hMsg
  | pending pendingBatches => exact { hData with }
  | keep sender p hProp _ =>
      refine { hData with futureMsgs := ?_ }
      exact FinMap.forall_insert hData.futureMsgs hProp
  | takeFuture taken =>
      refine { hData with futureMsgs := ?_ }
      exact FinMap.forall_erase hData.futureMsgs
  | awaitBlock p hProp =>
      refine { hData with propWaiting := ?_ }
      exact FinMap.forall_insert hData.propWaiting hProp
  | forgetBlock forgotten =>
      refine { hData with propWaiting := ?_ }
      exact FinMap.forall_erase hData.propWaiting
  | takeWaiting taken =>
      refine { hData with propWaitingParent := ?_ }
      exact FinMap.forall_erase hData.propWaitingParent
  | send dest msg hMsg =>
      unfold Context.send
      split
      · exact hData
      · refine { hData with outbox := ?_ }
        intro x hMem
        rcases List.mem_append.mp hMem with hOld | hNew
        · exact hData.outbox x hOld
        · rw [List.mem_singleton] at hNew
          subst hNew
          exact hMsg
  | store block hBlock _ =>
      exact hData.addDeliveredBlock hBlock
  | orphan p block hProp hBlock _ _ =>
      refine { hData.addDeliveredBlock hBlock with
        propWaitingParent := ?_ }
      exact FinMap.forall_insert hData.propWaitingParent
        hProp
  | accept p block hProp _ _ hStored _ hAccepted =>
      exact hData.accepted hProp
        (hData.delivered _ _ hStored) hAccepted

theorem Data.effects
    {cx cx' : Context H}
    (hData : Data scope cx)
    (hEffects : Effects scope acc cx cx') :
    Data scope cx' := by
  induction hEffects with
  | refl => exact hData
  | tail _ hEffect ih => exact ih.effect hEffect

omit [Crypto H] in
/- Data stays in a wider scope. -/
theorem Data.mono
    {scope' : Scope H}
    {cx : Context H}
    (hData : Data scope cx)
    (hProp : ∀ p, scope.okProp p → scope'.okProp p)
    (hBlock :
      ∀ block, scope.okBlock block → scope'.okBlock block) :
    Data scope' cx := by
  have hMsg :
      ∀ msg, scope.OkMsg msg → scope'.OkMsg msg := by
    intro msg hMsg
    cases msg with
    | newProposal p block batch =>
        exact ⟨hProp p hMsg.1, hBlock block hMsg.2⟩
    | relay sender p => exact hProp p hMsg
    | request sender reqId hash => trivial
    | response sender reqId p block batch =>
        exact ⟨hProp p hMsg.1, hBlock block hMsg.2⟩
    | blame v => exact hMsg
  exact
    { propBuf := fun x hx =>
        ⟨hProp _ (hData.propBuf x hx).1,
          hBlock _ (hData.propBuf x hx).2⟩
      relayBuf := fun x hx => hProp _ (hData.relayBuf x hx)
      otherBuf := fun m hm => hMsg m (hData.otherBuf m hm)
      futureMsgs := fun r x hx =>
        hProp _ (hData.futureMsgs r x hx)
      propWaiting := fun h p hp =>
        hProp p (hData.propWaiting h p hp)
      propWaitingParent := fun h p hp =>
        hProp p (hData.propWaitingParent h p hp)
      byRound := fun r p hp =>
        hProp p (hData.byRound r p hp)
      byHash := fun h p hp => hProp p (hData.byHash h p hp)
      delivered := fun h b hb =>
        hBlock b (hData.delivered h b hb)
      lastSeen := hBlock _ hData.lastSeen
      outbox := fun x hx => hMsg _ (hData.outbox x hx) }

end Apollo

end LibApollo

------------------------------------------------------------
-- Handlers as Sequences of Effects
------------------------------------------------------------

namespace LibApollo

namespace Apollo

variable {H : Type} [DecidableEq H] [Crypto H]
variable {scope : Scope H}
variable {acc : Propose H → Block H → Prop}

/- How a step can stop the node. -/
inductive Failure
    (scope : Scope H)
    (acc : Propose H → Block H → Prop)
    (cx : Context H) : Panic → Prop where
| blame {v : Vote} :
    .blame v ∈ cx.otherBuf → Failure scope acc cx .blame
| pubKey {mid : Context H} :
    Effects scope acc cx mid →
      mid.roundLeader ≠ mid.myid →
      mid.pubKeyMap.lookup mid.roundLeader = none →
      Failure scope acc cx .pubKey
| childBlock {hash : H} {p : Propose H} :
    cx.propWaitingParent.lookup hash = some p →
      cx.storage.deliveredBlockFromHash p.blockHash =
        none →
      Failure scope acc cx .childBlock
| commit {mid : Context H} {p : Propose H}
    {block : Block H} {panic : Panic} :
    Effects scope acc cx mid →
      acc p block →
      Acceptable mid p block →
      mid.storage.deliveredBlockFromHash block.hash =
        some block →
      acceptProposal p block mid = .error panic →
      Failure scope acc cx panic

/- A result is a sequence of effects or a failure. -/
def Outcome
    {A : Type}
    (scope : Scope H)
    (acc : Propose H → Block H → Prop)
    (cx : Context H)
    (proj : A → Context H)
    (result : Except Panic A) : Prop :=
  match result with
  | .ok a => Effects scope acc cx (proj a)
  | .error panic => Failure scope acc cx panic

/- Continue a result that only fails by itself. -/
theorem Outcome.bind
    {A B : Type}
    {cx : Context H}
    {projA : A → Context H}
    {projB : B → Context H}
    {first : Except Panic A}
    {rest : A → Except Panic B}
    (hFirst : Outcome scope acc cx projA first)
    (hRest :
      ∀ a, ∃ b, rest a = .ok b ∧
        Effects scope acc (projA a) (projB b)) :
    Outcome scope acc cx projB (first >>= rest) := by
  cases first with
  | error panic => exact hFirst
  | ok a =>
      rcases hRest a with ⟨b, hOk, hEffects⟩
      change Outcome scope acc cx projB (rest a)
      rw [hOk]
      exact Relation.ReflTransGen.trans hFirst hEffects

theorem Acceptable.of_eq
    {cx cx' : Context H}
    {p : Propose H}
    {block : Block H}
    (hAcceptable : Acceptable cx p block)
    (hRound : cx'.round = cx.round)
    (hLeader : cx'.roundLeader = cx.roundLeader)
    (hMyid : cx'.myid = cx.myid)
    (hKeys : cx'.pubKeyMap = cx.pubKeyMap) :
    Acceptable cx' p block := by
  simpa only [Acceptable, hRound, hLeader, hMyid, hKeys]
    using hAcceptable

/-
  Trying a proposal after `cx` has turned into `mid` with
  the same round and keys.
-/
theorem tryReceiveProposal_outcome
    {cx mid : Context H}
    {p : Propose H}
    {block : Block H}
    {sender : Replica}
    (hEffects : Effects scope acc cx mid)
    (hProp : scope.okProp p)
    (hStored :
      mid.storage.deliveredBlockFromHash block.hash =
        some block)
    (hAcc : Acceptable mid p block → acc p block) :
    Outcome scope acc cx id
      (tryReceiveProposal p block sender mid) := by
  unfold tryReceiveProposal
  split
  · exact hEffects
  rename_i hPast
  split
  · rename_i hFuture
    exact hEffects.tail (.keep sender p hProp hFuture)
  rename_i hFuture
  split
  · exact hEffects
  rename_i hHash
  split
  · exact hEffects
  rename_i hOrigin
  split
  · exact hEffects
  rename_i hAuthor
  have hRound : p.round = mid.round := by omega
  rw [not_not] at hHash hOrigin hAuthor
  have hReceive :
      ∀ hAcceptable : Acceptable mid p block,
        Outcome scope acc cx id
          (onReceiveProposal p block mid) := by
    intro hAcceptable
    unfold onReceiveProposal
    split
    · exact hEffects
    · rename_i hEquivocates
      cases hAccept : acceptProposal p block mid with
      | ok cx' =>
          exact hEffects.tail
            (.accept p block hProp (hAcc hAcceptable)
              hAcceptable hStored (by simpa using
                hEquivocates)
              (acceptProposal_ok hAccept))
      | error panic =>
          exact .commit hEffects (hAcc hAcceptable)
            hAcceptable hStored hAccept
  split
  · rename_i hSelf
    exact hReceive
      ⟨hRound, hHash, hOrigin, hAuthor, Or.inl hSelf⟩
  · rename_i hSelf
    split
    · rename_i hKey
      refine Failure.pubKey hEffects ?_ ?_
      · rwa [hOrigin]
      · rwa [hOrigin]
    · rename_i publicKey hKey
      split
      · rename_i hSig
        exact hReceive
          ⟨hRound, hHash, hOrigin, hAuthor,
            Or.inr ⟨publicKey, hKey, hSig⟩⟩
      · exact hEffects

theorem receiveOrKeep_outcome
    {cx mid : Context H}
    {p : Propose H}
    {block : Block H}
    {sender : Replica}
    (hEffects : Effects scope acc cx mid)
    (hProp : scope.okProp p)
    (hStored :
      mid.storage.deliveredBlockFromHash block.hash =
        some block)
    (hAcc : Acceptable mid p block → acc p block) :
    Outcome scope acc cx id
      (receiveOrKeep sender p block mid) := by
  unfold receiveOrKeep
  split
  · rename_i hFuture
    exact hEffects.tail (.keep sender p hProp hFuture)
  · exact tryReceiveProposal_outcome hEffects hProp
      hStored hAcc

theorem deliverBlock_outcome
    {cx mid : Context H}
    {p : Propose H}
    {block : Block H}
    {sender : Replica}
    (hEffects : Effects scope acc cx mid)
    (hProp : scope.okProp p)
    (hBlock : scope.okBlock block)
    (hHash : block.hash = p.blockHash)
    (hAcc :
      mid.storage.isDeliveredByHash block.header.prev =
          true →
        Acceptable mid p block → acc p block) :
    Outcome scope acc cx Prod.fst
      (deliverBlock sender p block mid) := by
  unfold deliverBlock
  split
  · rename_i hParent
    have hStore :
        Effects scope acc cx
          (mid.addDeliveredBlock block) :=
      hEffects.tail (.store block hBlock hParent)
    have hReceive :
        Outcome scope acc cx id
          (receiveOrKeep sender p block
            (mid.addDeliveredBlock block)) := by
      apply receiveOrKeep_outcome hStore hProp
      · exact Storage.addDeliveredBlock_self
          mid.storage block
      · intro hAcceptable
        exact hAcc hParent
          (hAcceptable.of_eq rfl rfl rfl rfl)
    apply hReceive.bind
    intro received
    exact ⟨_, rfl,
      Relation.ReflTransGen.single (.forgetBlock _)⟩
  · rename_i hParent
    have hMissing :
        mid.storage.isDeliveredByHash
          block.header.prev = false := by
      simpa using hParent
    have hOrphan :=
      hEffects.tail
        (.orphan p block hProp hBlock hHash hMissing)
    exact hOrphan.tail (.send sender _ trivial)

theorem deliveryCheck_outcome
    {cx mid : Context H}
    {p : Propose H}
    {sender : Replica}
    {blockAndBatch : Option (Block H × Batch)}
    (hEffects : Effects scope acc cx mid)
    (hData : Data scope mid)
    (hProp : scope.okProp p)
    (hBlock :
      ∀ block batch,
        blockAndBatch = some (block, batch) →
          scope.okBlock block)
    (hSent :
      ∀ block batch,
        blockAndBatch = some (block, batch) →
          (mid.propChainByRound.lookup
              p.round).isNone = true →
          block.hash = p.blockHash →
          checkBatchHash block batch = true →
          mid.storage.isDeliveredByHash
            block.header.prev = true →
          Acceptable mid p block → acc p block)
    (hStored :
      blockAndBatch = none →
        ∀ block,
          storedCandidate mid p = some (p, block) →
            Acceptable mid p block → acc p block) :
    Outcome scope acc cx Prod.fst
      (deliveryCheck sender p blockAndBatch mid) := by
  unfold deliveryCheck
  split
  · exact hEffects
  rename_i hRound
  have hFresh :
      (mid.propChainByRound.lookup p.round).isNone =
        true := by
    simpa using hRound
  split
  · rename_i block batch
    split
    · exact hEffects
    rename_i hHash
    rw [not_not] at hHash
    split
    · exact hEffects
    rename_i hBatch
    have hBatchOk : checkBatchHash block batch = true := by
      simpa using hBatch
    apply deliverBlock_outcome
      (hEffects.tail (.channels ⟨_, _, _, _, rfl⟩))
      hProp (hBlock block batch rfl) hHash
    intro hParent hAcceptable
    exact hSent block batch rfl hFresh hHash hBatchOk
      hParent (hAcceptable.of_eq rfl rfl rfl rfl)
  · cases hLookup :
        mid.storage.deliveredBlockFromHash p.blockHash with
    | some block =>
        apply deliverBlock_outcome hEffects hProp
          (hData.delivered _ _ hLookup)
          (Storage.getHash_of_delivered hLookup)
        intro hParent hAcceptable
        refine hStored rfl block ?_ hAcceptable
        simp [storedCandidate, hLookup, hParent]
        simpa using hFresh
    | none =>
        have hWait :=
          hEffects.tail (.awaitBlock p hProp)
        exact hWait.tail (.send sender _ trivial)

theorem deliverWaitingChild_outcome
    {cx : Context H}
    {sender : Replica}
    {hash : H}
    (hData : Data scope cx)
    (hAcc :
      ∀ p block,
        cx.propWaitingParent.lookup hash = some p →
          cx.storage.deliveredBlockFromHash p.blockHash =
            some block →
          Acceptable cx p block → acc p block) :
    Outcome scope acc cx Prod.fst
      (deliverWaitingChild sender hash cx) := by
  unfold deliverWaitingChild
  cases hLookup : cx.propWaitingParent.lookup hash with
  | none => exact Relation.ReflTransGen.refl
  | some p =>
      dsimp only
      cases hChild :
          cx.storage.deliveredBlockFromHash p.blockHash with
      | none => exact Failure.childBlock hLookup hChild
      | some child =>
          have hTake :
              Effects scope acc cx
                { cx with
                  propWaitingParent :=
                    cx.propWaitingParent.erase hash } :=
            Relation.ReflTransGen.single
              (.takeWaiting hash)
          have hStored :
              cx.storage.deliveredBlockFromHash
                child.hash = some child := by
            have hHash :
                child.hash = p.blockHash :=
              Storage.getHash_of_delivered hChild
            rwa [hHash]
          have hReceive :
              Outcome scope acc cx id
                (receiveOrKeep sender p child
                  { cx with
                    propWaitingParent :=
                      cx.propWaitingParent.erase
                        hash }) := by
            apply receiveOrKeep_outcome hTake
              (hData.propWaitingParent hash p hLookup)
              hStored
            intro hAcceptable
            exact hAcc p child hLookup hChild
              (hAcceptable.of_eq rfl rfl rfl rfl)
          apply hReceive.bind
          intro received
          exact ⟨_, rfl, Relation.ReflTransGen.refl⟩

end Apollo

end LibApollo

------------------------------------------------------------
-- Steps as Sequences of Effects
------------------------------------------------------------

namespace LibApollo

namespace Apollo

variable {H : Type} [DecidableEq H] [Crypto H]
variable {scope : Scope H}

/- The next internal step may accept this pair. -/
def Considers
    (node : Node H)
    (p : Propose H)
    (block : Block H) : Prop :=
  candidate node = some (p, block) ∧
    Acceptable node.cx p block

theorem afterDelivery_outcome
    {acc : Propose H → Block H → Prop}
    {cx : Context H}
    {phase : Phase}
    {sender : Replica}
    {result : Except Panic (Context H × Option H)}
    (hResult : Outcome scope acc cx Prod.fst result) :
    Outcome scope acc cx Node.cx
      (Node.afterDelivery phase sender result) := by
  apply hResult.bind
  intro pair
  exact ⟨_, rfl, Relation.ReflTransGen.refl⟩

/- The loops over proposals that come without a block. -/
theorem relayed_outcome
    {acc : Propose H → Block H → Prop}
    {cx mid : Context H}
    {phase : Phase}
    {sender : Replica}
    {p : Propose H}
    (hEffects : Effects scope acc cx mid)
    (hData : Data scope mid)
    (hProp : scope.okProp p)
    (hStored :
      ∀ block,
        storedCandidate mid p = some (p, block) →
          Acceptable mid p block → acc p block) :
    Outcome scope acc cx Node.cx
      (Node.afterDelivery phase sender
        (deliveryCheck sender p none mid)) := by
  apply afterDelivery_outcome
  apply deliveryCheck_outcome hEffects hData hProp
  · intro block batch hNone
    cases hNone
  · intro block batch hNone
    cases hNone
  · intro _ block hCandidate hAcceptable
    exact hStored block hCandidate hAcceptable

/- The request loop only reads and answers. -/
theorem onRecvRequest_effects
    {acc : Propose H → Block H → Prop}
    {cx : Context H}
    {sender : Replica}
    {reqId : Nat}
    {hash : H}
    (hData : Data scope cx) :
    Effects scope acc cx
      (onRecvRequest sender reqId hash cx) := by
  unfold onRecvRequest
  cases hProp : cx.propChainByHash.lookup hash with
  | none => exact Relation.ReflTransGen.refl
  | some p =>
      dsimp only
      cases hBlock :
          cx.storage.deliveredBlockFromHash hash with
      | none => exact Relation.ReflTransGen.refl
      | some block =>
          dsimp only
          have hChannels :=
            readBatch_channels cx block.body.batchHash
          rcases hRead :
              cx.readBatch block.body.batchHash with
            ⟨batch, read⟩
          rw [hRead] at hChannels
          have hReadEffect : Effects scope acc cx read :=
            Relation.ReflTransGen.single
              (.channels hChannels)
          cases batch with
          | none => exact hReadEffect
          | some batch =>
              exact hReadEffect.tail
                (.send sender _
                  ⟨hData.byHash hash p hProp,
                    hData.delivered hash block hBlock⟩)

/- The loop over proposals with their blocks. -/
theorem processProps_outcome
    {acc : Propose H → Block H → Prop}
    {node : Node H}
    (hData : Data scope node.cx)
    (hAcc :
      ∀ p block, Considers node p block → acc p block)
    (hWaiting : node.waiting = none)
    (hPhase : node.phase = .props) :
    Outcome scope acc node.cx Node.cx
      (processMessage node) := by
  unfold processMessage
  simp only [hPhase]
  cases hBuf : node.cx.propBuf with
  | nil => exact Relation.ReflTransGen.refl
  | cons entry rest =>
      rcases entry with ⟨sender, p, block, batch⟩
      have hPop :
          Effects scope acc node.cx
            { node.cx with propBuf := rest } :=
        Relation.ReflTransGen.single
          (.buffers rest node.cx.relayBuf node.cx.otherBuf
            (by simp [hBuf]) (List.Subset.refl _)
            (List.Subset.refl _))
      have hEntry := hData.propBuf
        (sender, p, block, batch) (by simp [hBuf])
      apply afterDelivery_outcome
      apply deliveryCheck_outcome hPop
        (hData.effects hPop) hEntry.1
      · intro _ _ hParts
        rcases hParts with ⟨rfl, rfl⟩
        exact hEntry.2
      · intro _ _ hParts hFresh hHash hBatch hParent
          hAcceptable
        rcases hParts with ⟨rfl, rfl⟩
        refine hAcc _ _ ⟨?_, hAcceptable⟩
        simp only [candidate, hWaiting, hPhase, hBuf]
        exact if_pos ⟨hFresh, hHash, hBatch, hParent⟩
      · intro hNone
        cases hNone

/- The loop over relayed proposals. -/
theorem processRelays_outcome
    {acc : Propose H → Block H → Prop}
    {node : Node H}
    (hData : Data scope node.cx)
    (hAcc :
      ∀ p block, Considers node p block → acc p block)
    (hWaiting : node.waiting = none)
    (hPhase : node.phase = .relays) :
    Outcome scope acc node.cx Node.cx
      (processMessage node) := by
  unfold processMessage
  simp only [hPhase]
  cases hBuf : node.cx.relayBuf with
  | nil => exact Relation.ReflTransGen.refl
  | cons entry rest =>
      rcases entry with ⟨sender, p⟩
      have hPop :
          Effects scope acc node.cx
            { node.cx with relayBuf := rest } :=
        Relation.ReflTransGen.single
          (.buffers node.cx.propBuf rest node.cx.otherBuf
            (List.Subset.refl _) (by simp [hBuf])
            (List.Subset.refl _))
      have hEntry := hData.relayBuf
        (sender, p) (by simp [hBuf])
      apply relayed_outcome hPop (hData.effects hPop)
        hEntry
      intro block hCandidate hAcceptable
      refine hAcc _ _ ⟨?_, hAcceptable⟩
      simp only [candidate, hWaiting, hPhase, hBuf]
      exact hCandidate

/- The loop over requests and blames. -/
theorem processOthers_outcome
    {acc : Propose H → Block H → Prop}
    {node : Node H}
    (hData : Data scope node.cx)
    (hPhase : node.phase = .others) :
    Outcome scope acc node.cx Node.cx
      (processMessage node) := by
  unfold processMessage
  simp only [hPhase]
  cases hBuf : node.cx.otherBuf with
  | nil => exact Relation.ReflTransGen.refl
  | cons msg rest =>
      have hPop :
          Effects scope acc node.cx
            { node.cx with otherBuf := rest } :=
        Relation.ReflTransGen.single
          (.buffers node.cx.propBuf node.cx.relayBuf rest
            (List.Subset.refl _) (List.Subset.refl _)
            (by simp [hBuf]))
      cases msg with
      | request sender reqId hash =>
          exact hPop.trans
            (onRecvRequest_effects (hData.effects hPop))
      | blame v =>
          exact Failure.blame (v := v) (by simp [hBuf])
      | newProposal p block batch => exact hPop
      | relay sender p => exact hPop
      | response sender reqId p block batch => exact hPop

/- The proposals put off to the current round. -/
theorem processFuture_outcome
    {acc : Propose H → Block H → Prop}
    {node : Node H}
    (hData : Data scope node.cx)
    (hAcc :
      ∀ p block, Considers node p block → acc p block)
    (hWaiting : node.waiting = none)
    (hPhase : node.phase = .future) :
    Outcome scope acc node.cx Node.cx
      (processMessage node) := by
  unfold processMessage
  simp only [hPhase]
  cases hFuture :
      node.cx.futureMsgs.lookup node.cx.round with
  | none => exact Relation.ReflTransGen.refl
  | some entry =>
      rcases entry with ⟨sender, p⟩
      have hPop :
          Effects scope acc node.cx
            { node.cx with
              futureMsgs :=
                node.cx.futureMsgs.erase
                  node.cx.round } :=
        Relation.ReflTransGen.single
          (.takeFuture node.cx.round)
      have hEntry :=
        hData.futureMsgs node.cx.round (sender, p) hFuture
      apply relayed_outcome hPop (hData.effects hPop)
        hEntry
      intro block hCandidate hAcceptable
      refine hAcc _ _ ⟨?_, hAcceptable⟩
      simp only [candidate, hWaiting, hPhase, hFuture]
      exact hCandidate

theorem processMessage_outcome
    {acc : Propose H → Block H → Prop}
    {node : Node H}
    (hData : Data scope node.cx)
    (hAcc :
      ∀ p block, Considers node p block → acc p block)
    (hWaiting : node.waiting = none) :
    Outcome scope acc node.cx Node.cx
      (processMessage node) := by
  cases hPhase : node.phase with
  | props =>
      exact processProps_outcome hData hAcc hWaiting hPhase
  | relays =>
      exact processRelays_outcome hData hAcc hWaiting hPhase
  | others => exact processOthers_outcome hData hPhase
  | future =>
      exact processFuture_outcome hData hAcc hWaiting hPhase
  | select =>
      simp only [processMessage, hPhase]
      exact Relation.ReflTransGen.refl
  | drain =>
      simp only [processMessage, hPhase]
      exact Relation.ReflTransGen.refl
  | propose =>
      simp only [processMessage, hPhase]
      exact Relation.ReflTransGen.refl

/- An internal step outside the leader loop. -/
theorem internalStep_outcome
    {acc : Propose H → Block H → Prop}
    {node : Node H}
    (hData : Data scope node.cx)
    (hAcc :
      ∀ p block, Considers node p block → acc p block)
    (hPhase : node.waiting = none → node.phase ≠ .propose) :
    Outcome scope acc node.cx Node.cx
      (internalStep node) := by
  unfold internalStep
  cases hWaiting : node.waiting with
  | some pair =>
      rcases pair with ⟨hash, sender⟩
      apply afterDelivery_outcome
      apply deliverWaitingChild_outcome hData
      intro p block hLookup hChild hAcceptable
      refine hAcc _ _ ⟨?_, hAcceptable⟩
      simp [candidate, hWaiting, hLookup, hChild]
  | none =>
      have hNotPropose := hPhase hWaiting
      have hProcess :=
        processMessage_outcome hData hAcc hWaiting
      cases hCase : node.phase with
      | select => exact Relation.ReflTransGen.refl
      | drain => exact Relation.ReflTransGen.refl
      | propose => exact absurd hCase hNotPropose
      | props => exact hProcess
      | relays => exact hProcess
      | others => exact hProcess
      | future => exact hProcess

end Apollo

end LibApollo

------------------------------------------------------------
-- Proposing
------------------------------------------------------------

namespace LibApollo

namespace Apollo

variable {H : Type} [DecidableEq H] [Crypto H]
variable {scope : Scope H}

/- The proposal the node signs for a batch. -/
def newPropose
    (cx : Context H)
    (batchHash : H) : Propose H :=
  Propose.signed cx.mySecretKey cx.myid cx.round
    (newBlock cx batchHash).hash

/- The context in which a node accepts its own proposal. -/
def proposing
    (batchHash : H)
    (batch : Batch)
    (cx : Context H) : Context H :=
  let block := newBlock cx batchHash
  { cx with
    signed := cx.signed ++ [SignData.hash block.hash]
    outbox :=
      cx.outbox ++
        cx.broadcastPeers.map
          (·, .newProposal (newPropose cx batchHash) block
            batch)
    txConsensusToBatcher :=
      cx.txConsensusToBatcher ++
        [.proposed batch cx.round]
    storage := cx.storage.addDeliveredBlock block }

/- A leader always accepts its own proposal. -/
theorem doPropose_eq
    (batchHash : H)
    (batch : Batch)
    (cx : Context H) :
    doPropose batchHash batch cx =
      acceptProposal (newPropose cx batchHash)
        (newBlock cx batchHash)
        (proposing batchHash batch cx) := by
  have hNone :
      equivocates (proposing batchHash batch cx)
        (newBlock cx batchHash) = false := by
    have hHeight :
        (proposing batchHash batch
            cx).storage.deliveredBlockFromHt
              (newBlock cx batchHash).header.height =
          some (newBlock cx batchHash) := by
      refine (Storage.addDeliveredBlock_deliveredBlockFromHt
        cx.storage (newBlock cx batchHash) _).trans ?_
      exact if_pos rfl
    simp [equivocates, hHeight]
  unfold doPropose onReceiveProposal
  exact if_neg (by rw [← Bool.not_eq_true] at hNone
                   exact hNone)

/- The leader loop of `node` proposes this batch next. -/
def Proposes
    (node : Node H)
    (batchHash : H)
    (batch : Batch)
    (rest : List (H × Batch)) : Prop :=
  node.waiting = none ∧
    node.phase = .propose ∧
    node.cx.roundLeader = node.cx.myid ∧
    node.cx.pendingBatches = (batchHash, batch) :: rest

theorem internalStep_proposes
    {node : Node H}
    {batchHash : H}
    {batch : Batch}
    {rest : List (H × Batch)}
    (hProposes : Proposes node batchHash batch rest) :
    internalStep node =
      (doPropose batchHash batch
          { node.cx with pendingBatches := rest }).map
        (fun cx => { node with cx := cx }) := by
  rcases hProposes with ⟨hWaiting, hPhase, hLeader, hPending⟩
  simp only [internalStep, hWaiting, hPhase, proposeLoop,
    hPending, hLeader, if_true]
  cases doPropose batchHash batch
      { node.cx with pendingBatches := rest } with
  | ok cx => rfl
  | error panic => rfl

/- The step on this event may accept this pair. -/
def StepConsiders
    (node : Node H)
    (event : Event H)
    (p : Propose H)
    (block : Block H) : Prop :=
  event = .internal ∧ Considers node p block

/-
  A step is a sequence of effects that accepts at most what
  the node considers, or it proposes.
-/
theorem step_outcome
    {node : Node H}
    {event : Event H}
    (hData : Data scope node.cx)
    (hMsg :
      ∀ msg, event = .recv msg → scope.OkMsg msg) :
    Outcome scope (StepConsiders node event) node.cx
        Node.cx (step node event) ∨
      (event = .internal ∧
        ∃ batchHash batch rest,
          Proposes node batchHash batch rest) := by
  cases event with
  | tick =>
      left
      unfold step
      dsimp only
      split
      · refine Relation.ReflTransGen.single
          (.channels ?_)
        dsimp only
        split
        · exact ⟨_, _, _, _, rfl⟩
        · exact ChannelsOnly.refl _
      · exact Relation.ReflTransGen.refl
  | recv msg =>
      left
      unfold step
      dsimp only
      split
      · exact Relation.ReflTransGen.single
          (.receive msg (hMsg msg rfl))
      · exact Relation.ReflTransGen.refl
  | sealed batch =>
      left
      exact Relation.ReflTransGen.single
        (.channels ⟨_, _, _, _, rfl⟩)
  | batch batchHash batch =>
      left
      unfold step
      dsimp only
      split
      · exact Relation.ReflTransGen.single (.pending _)
      · exact Relation.ReflTransGen.refl
  | internal =>
      by_cases hPhase :
          node.waiting = none ∧ node.phase = .propose
      · rcases hPhase with ⟨hWaiting, hPhase⟩
        cases hPending : node.cx.pendingBatches with
        | nil =>
            left
            simp only [step, internalStep, hWaiting, hPhase,
              proposeLoop, hPending]
            exact Relation.ReflTransGen.refl
        | cons entry rest =>
            rcases entry with ⟨batchHash, batch⟩
            by_cases hLeader :
                node.cx.roundLeader = node.cx.myid
            · right
              exact ⟨rfl, batchHash, batch, rest, hWaiting,
                hPhase, hLeader, hPending⟩
            · left
              simp only [step, internalStep, hWaiting,
                hPhase, proposeLoop, hPending, hLeader,
                if_false]
              exact Relation.ReflTransGen.refl
      · left
        apply internalStep_outcome hData
          (fun p block hPair => ⟨rfl, hPair⟩)
        intro hWaiting hPropose
        exact hPhase ⟨hWaiting, hPropose⟩

/- What a successful step did to the context. -/
theorem step_ok
    {node node' : Node H}
    {event : Event H}
    (hData : Data scope node.cx)
    (hMsg :
      ∀ msg, event = .recv msg → scope.OkMsg msg)
    (hStep : step node event = .ok node') :
    Effects scope (StepConsiders node event) node.cx
        node'.cx ∨
      ∃ batchHash batch rest,
        event = .internal ∧
          Proposes node batchHash batch rest ∧
          Accepted
            (newPropose
              { node.cx with pendingBatches := rest }
              batchHash)
            (newBlock
              { node.cx with pendingBatches := rest }
              batchHash)
            (proposing batchHash batch
              { node.cx with pendingBatches := rest })
            node'.cx := by
  rcases step_outcome hData hMsg with
    hOutcome | ⟨rfl, batchHash, batch, rest, hProposes⟩
  · rw [hStep] at hOutcome
    exact Or.inl hOutcome
  · refine Or.inr
      ⟨batchHash, batch, rest, rfl, hProposes, ?_⟩
    change internalStep node = .ok node' at hStep
    rw [internalStep_proposes hProposes, doPropose_eq]
      at hStep
    rcases Result.map_eq_ok.mp hStep with
      ⟨cx', hAccept, rfl⟩
    exact acceptProposal_ok hAccept

/- How a step that fails did so. -/
theorem step_error
    {node : Node H}
    {event : Event H}
    {panic : Panic}
    (hData : Data scope node.cx)
    (hMsg :
      ∀ msg, event = .recv msg → scope.OkMsg msg)
    (hStep : step node event = .error panic) :
    Failure scope (StepConsiders node event) node.cx
        panic ∨
      ∃ batchHash batch rest,
        Proposes node batchHash batch rest ∧
          acceptProposal
            (newPropose
              { node.cx with pendingBatches := rest }
              batchHash)
            (newBlock
              { node.cx with pendingBatches := rest }
              batchHash)
            (proposing batchHash batch
              { node.cx with pendingBatches := rest }) =
            .error panic := by
  rcases step_outcome hData hMsg with
    hOutcome | ⟨rfl, batchHash, batch, rest, hProposes⟩
  · rw [hStep] at hOutcome
    exact Or.inl hOutcome
  · refine Or.inr
      ⟨batchHash, batch, rest, hProposes, ?_⟩
    change internalStep node = .error panic at hStep
    rw [internalStep_proposes hProposes, doPropose_eq]
      at hStep
    exact Result.map_eq_error.mp hStep

end Apollo

end LibApollo
