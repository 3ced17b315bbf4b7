import LibApollo.Apollo.Effects
import LibApollo.Apollo.Invariant

/-
  What an Apollo node tells its batcher.

  A node keeps a batch for every block it stores, so that a
  proposal it accepts is always reported to the batcher,
  before the new round is.  A step either tells nothing, or
  it takes one proposal and tells: the batch, the batches
  it commits, and at last the new round.

  Key definitions include:
    * `Stocked`
    * `Silent`, `Informs`
    * `Quiet`, `Takes`

  Key theorems include:
    * `acceptProposal_takes`
    * `step_reports`, `proposes_takes`
-/

------------------------------------------------------------
-- Stored Batches and News
------------------------------------------------------------

namespace LibApollo

namespace Apollo

variable {H : Type} [DecidableEq H] [Crypto H]

/-
  Batches are kept under their own hashes, and there is one
  for every block but genesis.
-/
structure Stocked (cx : Context H) : Prop where
  filed :
    ∀ hash batch,
      cx.batches.Holds hash batch → batch.hash = hash
  blocks :
    ∀ hash block,
      cx.storage.deliveredBlockFromHash hash =
          some block →
        block = Block.genesis ∨
          ∃ batch,
            cx.batches.Holds block.body.batchHash batch

/- Messages about batches, with no round and no rollback. -/
def Silent
    (news : List (BatcherConsensusMsg Transaction)) : Prop :=
  ∀ msg ∈ news,
    (∃ batch round, msg = .proposed batch round) ∨
      ∃ batch round, msg = .committed batch round

theorem Silent.append
    {news more : List (BatcherConsensusMsg Transaction)}
    (hNews : Silent news)
    (hMore : Silent more) :
    Silent (news ++ more) := by
  intro msg hMem
  rcases List.mem_append.mp hMem with hFirst | hLater
  · exact hNews msg hFirst
  · exact hMore msg hLater

/- The news are told and no batch is lost. -/
structure Informs
    (news : List (BatcherConsensusMsg Transaction))
    (cx cx' : Context H) : Prop where
  silent : Silent news
  log :
    cx'.txConsensusToBatcher =
      cx.txConsensusToBatcher ++ news
  holds :
    ∀ hash batch,
      cx'.batches.Holds hash batch ↔
        cx.batches.Holds hash batch

omit [Crypto H]

theorem Informs.refl
    (cx : Context H) : Informs [] cx cx where
  silent := nofun
  log := (List.append_nil _).symm
  holds := fun _ _ => Iff.rfl

theorem Informs.trans
    {news more : List (BatcherConsensusMsg Transaction)}
    {cx mid cx' : Context H}
    (hFirst : Informs news cx mid)
    (hSecond : Informs more mid cx') :
    Informs (news ++ more) cx cx' where
  silent := hFirst.silent.append hSecond.silent
  log := by
    rw [hSecond.log, hFirst.log, List.append_assoc]
  holds := fun hash batch =>
    (hSecond.holds hash batch).trans
      (hFirst.holds hash batch)

theorem readBatch_informs
    (cx : Context H)
    (hash : H) :
    Informs [] cx (cx.readBatch hash).2 where
  silent := nofun
  log := (List.append_nil _).symm
  holds := fun other batch =>
    BatchStores.readBatch_holds cx.batches hash other batch

/- A commit is told with its batch, when that is found. -/
theorem notifyCommitted_informs
    (cx : Context H)
    (block : Block H) :
    ∃ news, Informs news cx (notifyCommitted cx block) := by
  have hRead := readBatch_informs cx block.body.batchHash
  unfold notifyCommitted
  rcases hBatch : cx.readBatch block.body.batchHash with
    ⟨batch, read⟩
  rw [hBatch] at hRead
  cases batch with
  | none => exact ⟨[], hRead⟩
  | some batch =>
      refine ⟨[.committed batch block.header.height],
        hRead.trans ?_⟩
      exact
        { silent := by
            intro msg hMem
            rw [List.mem_singleton.mp hMem]
            exact Or.inr ⟨_, _, rfl⟩
          log := rfl
          holds := fun _ _ => Iff.rfl }

theorem foldl_notifyCommitted_informs
    (blocks : List (Block H))
    (cx : Context H) :
    ∃ news,
      Informs news cx
        (blocks.foldl notifyCommitted cx) := by
  induction blocks generalizing cx with
  | nil => exact ⟨[], Informs.refl cx⟩
  | cons block blocks ih =>
      rcases notifyCommitted_informs cx block with
        ⟨first, hFirst⟩
      rcases ih (notifyCommitted cx block) with
        ⟨later, hLater⟩
      exact ⟨first ++ later, hFirst.trans hLater⟩

theorem commitIfDue_informs
    {cx cx' : Context H}
    (hCommit : commitIfDue cx = .ok cx') :
    ∃ news, Informs news cx cx' := by
  unfold commitIfDue doCommit at hCommit
  split at hCommit
  · dsimp only at hCommit
    split at hCommit
    · cases hCommit
    · split at hCommit
      · cases hCommit
      · rename_i storage blocks _
        rw [Except.ok.injEq] at hCommit
        rw [← hCommit]
        rcases foldl_notifyCommitted_informs blocks.reverse
            { cx with storage := storage } with
          ⟨news, hNews⟩
        exact ⟨news, { hNews with }⟩
  · cases hCommit
    exact ⟨[], Informs.refl cx⟩

end Apollo

end LibApollo

------------------------------------------------------------
-- Accepting Tells the Batch and the Round
------------------------------------------------------------

namespace LibApollo

namespace Apollo

variable {H : Type} [DecidableEq H] [Crypto H]

/- The batch of a block is among the proposed ones. -/
def Announces
    (news : List (BatcherConsensusMsg Transaction))
    (block : Block H) : Prop :=
  ∃ batch round,
    .proposed batch round ∈ news ∧
      batch.hash = block.body.batchHash

theorem recordProposal_informs
    {cx : Context H}
    {p : Propose H}
    {block : Block H}
    (hStocked : Stocked cx)
    (hStored :
      cx.storage.deliveredBlockFromHash block.hash =
        some block) :
    ∃ news,
      Informs news cx (recordProposal p block cx) ∧
        (block = Block.genesis ∨ Announces news block) := by
  have hInforms := readBatch_informs
    ({ cx with
      outbox := cx.outbox ++ relayPackets cx p
      propChainByHash :=
        cx.propChainByHash.insert p.blockHash p
      propChainByRound :=
        cx.propChainByRound.insert p.round p } :
      Context H) block.body.batchHash
  unfold recordProposal
  rw [send_relay]
  dsimp only
  split
  · rename_i batch read hBatch
    rw [hBatch] at hInforms
    have hFound :
        (cx.batches.readBatch block.body.batchHash).1 =
          some batch :=
      congrArg Prod.fst hBatch
    refine ⟨[.proposed batch p.round], ?_, Or.inr
      ⟨batch, p.round, List.mem_singleton.mpr rfl,
        hStocked.filed _ _
          (BatchStores.holds_of_readBatch hFound)⟩⟩
    exact
      { silent := by
          intro msg hMem
          rw [List.mem_singleton.mp hMem]
          exact Or.inl ⟨_, _, rfl⟩
        log := by
          have hLog := hInforms.log
          rw [List.append_nil] at hLog
          exact congrArg (· ++ [.proposed batch p.round])
            hLog
        holds := hInforms.holds }
  · rename_i read hBatch
    rw [hBatch] at hInforms
    refine ⟨[], { hInforms with }, ?_⟩
    rcases hStocked.blocks _ _ hStored with
      hGenesis | hHolds
    · exact Or.inl hGenesis
    · exfalso
      rcases BatchStores.readBatch_isSome hHolds with
        ⟨found, hFound⟩
      have hNone :
          (cx.batches.readBatch block.body.batchHash).1 =
            none :=
        congrArg Prod.fst hBatch
      rw [hFound] at hNone
      cases hNone

/-
  One proposal is accepted: its batch is told and then the
  new round.
-/
structure Takes
    (p : Propose H)
    (block : Block H)
    (cx cx' : Context H) : Prop where
  now : p.round = cx.round
  round : cx'.round = cx.round + 1
  chain :
    cx'.propChainByRound =
      cx.propChainByRound.insert p.round p
  named : block.hash = p.blockHash
  stored :
    cx'.storage.deliveredBlockFromHash p.blockHash =
      some block
  log :
    ∃ news, Silent news ∧
      (block = Block.genesis ∨ Announces news block) ∧
      cx'.txConsensusToBatcher =
        cx.txConsensusToBatcher ++ news ++
          [.newRound cx'.roundLeader cx'.round]
  pending : cx'.pendingBatches = cx.pendingBatches
  kept :
    ∀ hash, (∃ batch, cx.batches.Holds hash batch) →
      ∃ batch, cx'.batches.Holds hash batch
  stocked : Stocked cx'

theorem acceptProposal_takes
    {cx cx' : Context H}
    {p : Propose H}
    {block : Block H}
    (hStocked : Stocked cx)
    (hRound : p.round = cx.round)
    (hNamed : block.hash = p.blockHash)
    (hStored :
      cx.storage.deliveredBlockFromHash block.hash =
        some block)
    (hAccept : acceptProposal p block cx = .ok cx') :
    Takes p block cx cx' := by
  rcases recordProposal_informs (p := p) hStocked hStored
    with ⟨first, hFirst, hAnnounces⟩
  have hAccepted := acceptProposal_ok hAccept
  rcases Result.bind_eq_ok.mp hAccept with
    ⟨committed, hCommitted, hFinal⟩
  rcases commitIfDue_informs hCommitted with
    ⟨later, hLater⟩
  have hTold := hFirst.trans hLater
  rw [Except.ok.injEq] at hFinal
  have hLog :
      cx'.txConsensusToBatcher =
        cx.txConsensusToBatcher ++ (first ++ later) ++
          [.newRound cx'.roundLeader cx'.round] := by
    rw [← hTold.log, ← hFinal]
    rfl
  have hHolds :
      ∀ hash batch,
        cx'.batches.Holds hash batch ↔
          cx.batches.Holds hash batch := by
    rw [← hFinal]
    exact hTold.holds
  have hDelivered :
      ∀ hash,
        cx'.storage.deliveredBlockFromHash hash =
          cx.storage.deliveredBlockFromHash hash := by
    rcases hAccepted with ⟨_, _, _, _, _, hOutcome, hEq⟩
    intro hash
    rw [hEq]
    exact hOutcome.delivered_eq hash
  refine
    { now := hRound
      round := ?_
      chain := ?_
      named := hNamed
      stored := ?_
      log := ⟨first ++ later, hTold.silent, ?_, hLog⟩
      pending := ?_
      kept := ?_
      stocked := ?_ }
  · rcases hAccepted with ⟨_, _, _, _, _, _, hEq⟩
    rw [hEq]
  · rcases hAccepted with ⟨_, _, _, _, _, _, hEq⟩
    rw [hEq]
  · rw [hDelivered, ← hNamed]
    exact hStored
  · rcases hAnnounces with
      hGenesis | ⟨batch, round, hMem, hHash⟩
    · exact Or.inl hGenesis
    · exact Or.inr ⟨batch, round,
        List.mem_append_left _ hMem, hHash⟩
  · rcases hAccepted with ⟨_, _, _, _, _, _, hEq⟩
    rw [hEq]
  · intro hash hHas
    rcases hHas with ⟨batch, hHeld⟩
    exact ⟨batch, (hHolds hash batch).mpr hHeld⟩
  · constructor
    · intro hash batch hHeld
      exact hStocked.filed hash batch
        ((hHolds hash batch).mp hHeld)
    · intro hash other hLookup
      rw [hDelivered] at hLookup
      rcases hStocked.blocks hash other hLookup with
        hGenesis | ⟨batch, hHeld⟩
      · exact Or.inl hGenesis
      · exact Or.inr ⟨batch, (hHolds _ batch).mpr hHeld⟩

end Apollo

end LibApollo

------------------------------------------------------------
-- Steps That Tell Nothing
------------------------------------------------------------

namespace LibApollo

namespace Apollo

variable {H : Type} [DecidableEq H] [Crypto H]
variable {cx mid cx' : Context H}
variable {p : Propose H}
variable {block : Block H}

/- Nothing is accepted and nothing is told. -/
structure Quiet (cx cx' : Context H) : Prop where
  round : cx'.round = cx.round
  chain : cx'.propChainByRound = cx.propChainByRound
  log : cx'.txConsensusToBatcher = cx.txConsensusToBatcher
  pending : cx'.pendingBatches = cx.pendingBatches
  kept :
    ∀ hash, (∃ batch, cx.batches.Holds hash batch) →
      ∃ batch, cx'.batches.Holds hash batch
  stocked : Stocked cx'

theorem Quiet.refl (hStocked : Stocked cx) : Quiet cx cx where
  round := rfl
  chain := rfl
  log := rfl
  pending := rfl
  kept := fun _ hHas => hHas
  stocked := hStocked

theorem Quiet.trans
    (hFirst : Quiet cx mid)
    (hSecond : Quiet mid cx') :
    Quiet cx cx' where
  round := hSecond.round.trans hFirst.round
  chain := hSecond.chain.trans hFirst.chain
  log := hSecond.log.trans hFirst.log
  pending := hSecond.pending.trans hFirst.pending
  kept := fun hash hHas =>
    hSecond.kept hash (hFirst.kept hash hHas)
  stocked := hSecond.stocked

theorem Takes.afterQuiet
    (hQuiet : Quiet cx mid)
    (hTakes : Takes p block mid cx') :
    Takes p block cx cx' := by
  refine { hTakes with
    now := hTakes.now.trans hQuiet.round
    round := ?_
    chain := ?_
    log := ?_
    pending := hTakes.pending.trans hQuiet.pending
    kept := fun hash hHas =>
      hTakes.kept hash (hQuiet.kept hash hHas) }
  · rw [hTakes.round, hQuiet.round]
  · rw [hTakes.chain, hQuiet.chain]
  · rcases hTakes.log with
      ⟨news, hSilent, hAnnounces, hLog⟩
    rw [hQuiet.log] at hLog
    exact ⟨news, hSilent, hAnnounces, hLog⟩

/- What a step reports, unless it proposes. -/
def Reports (cx cx' : Context H) : Prop :=
  Quiet cx cx' ∨ ∃ p block, Takes p block cx cx'

theorem Reports.afterQuiet
    (hQuiet : Quiet cx mid)
    (hReports : Reports mid cx') :
    Reports cx cx' := by
  rcases hReports with hLater | ⟨p, block, hTakes⟩
  · exact Or.inl (hQuiet.trans hLater)
  · exact Or.inr ⟨p, block, hTakes.afterQuiet hQuiet⟩

/- A block is stored whose batch is there. -/
theorem Stocked.addDeliveredBlock
    (hStocked : Stocked cx)
    (hHas :
      block = Block.genesis ∨
        ∃ batch,
          cx.batches.Holds block.body.batchHash batch) :
    Stocked (cx.addDeliveredBlock block) where
  filed := hStocked.filed
  blocks :=
    Storage.forall_addDeliveredBlock hStocked.blocks hHas

theorem Stocked.addDeliveredBlock_quiet
    (hStocked : Stocked cx)
    (hHas :
      block = Block.genesis ∨
        ∃ batch,
          cx.batches.Holds block.body.batchHash batch) :
    Quiet cx (cx.addDeliveredBlock block) :=
  { Quiet.refl hStocked with
    stocked := hStocked.addDeliveredBlock hHas }

/- A batch is kept under its hash. -/
theorem Stocked.persistBatch_quiet
    {hash : H}
    {batch : Batch}
    (hStocked : Stocked cx)
    (hHash : batch.hash = hash) :
    Quiet cx (cx.persistBatch hash batch) := by
  refine { Quiet.refl hStocked with
    kept := fun _ hHas =>
      BatchStores.exists_holds_persistBatch hHas
    stocked := ?_ }
  constructor
  · intro other found hHolds
    rcases BatchStores.holds_of_persistBatch hHolds with
      hOld | ⟨rfl, rfl⟩
    · exact hStocked.filed other found hOld
    · exact hHash
  · intro other stored hLookup
    exact (hStocked.blocks other stored hLookup).imp_right
      BatchStores.exists_holds_persistBatch

omit [Crypto H] in
/- Sending leaves the batch side alone. -/
theorem send_eq
    (cx : Context H)
    (dest : Replica)
    (msg : ProtocolMsg H) :
    ∃ outbox, cx.send dest msg = { cx with outbox := outbox } := by
  unfold Context.send
  split
  · exact ⟨cx.outbox, rfl⟩
  · exact ⟨_, rfl⟩

theorem Stocked.send_quiet
    (hStocked : Stocked cx)
    (dest : Replica)
    (msg : ProtocolMsg H) :
    Quiet cx (cx.send dest msg) := by
  rcases send_eq cx dest msg with ⟨outbox, hEq⟩
  rw [hEq]
  exact { Quiet.refl hStocked with
    stocked := { hStocked with } }

/- A read fills the cache at most. -/
theorem Stocked.readBatch_quiet
    (hStocked : Stocked cx)
    (hash : H) :
    Quiet cx (cx.readBatch hash).2 := by
  have hInforms := readBatch_informs cx hash
  refine { Quiet.refl hStocked with
    kept := ?_
    stocked := ?_ }
  · intro other hHas
    rcases hHas with ⟨batch, hHolds⟩
    exact ⟨batch, (hInforms.holds other batch).mpr hHolds⟩
  · constructor
    · intro other batch hHolds
      exact hStocked.filed other batch
        ((hInforms.holds other batch).mp hHolds)
    · intro other stored hLookup
      rcases hStocked.blocks other stored hLookup with
        hGenesis | ⟨batch, hHolds⟩
      · exact Or.inl hGenesis
      · exact Or.inr
          ⟨batch, (hInforms.holds _ batch).mpr hHolds⟩

end Apollo

end LibApollo

------------------------------------------------------------
-- What the Handlers Report
------------------------------------------------------------

namespace LibApollo

namespace Apollo

variable {H : Type} [DecidableEq H] [Crypto H]
variable {cx cx' : Context H}
variable {sender : Replica}
variable {p : Propose H}
variable {block : Block H}

theorem tryReceiveProposal_reports
    (hStocked : Stocked cx)
    (hStored :
      cx.storage.deliveredBlockFromHash block.hash =
        some block)
    (hTry :
      tryReceiveProposal p block sender cx = .ok cx') :
    Reports cx cx' := by
  have hSame : Reports cx cx := Or.inl (Quiet.refl hStocked)
  unfold tryReceiveProposal at hTry
  split at hTry
  · cases hTry
    exact hSame
  · rename_i hNotPast
    split at hTry
    · cases hTry
      exact Or.inl { Quiet.refl hStocked with
        stocked := { hStocked with } }
    · rename_i hNotFuture
      split at hTry
      · cases hTry
        exact hSame
      · rename_i hNamed
        have hReceive :
            ∀ {last},
              onReceiveProposal p block cx = .ok last →
                Reports cx last := by
          intro last hReceive
          unfold onReceiveProposal at hReceive
          split at hReceive
          · cases hReceive
            exact hSame
          · exact Or.inr ⟨p, block,
              acceptProposal_takes hStocked
                (Nat.le_antisymm
                  (Nat.not_lt.mp hNotFuture)
                  (Nat.not_lt.mp hNotPast))
                (not_not.mp hNamed) hStored hReceive⟩
        split at hTry
        · cases hTry
          exact hSame
        · split at hTry
          · cases hTry
            exact hSame
          · split at hTry
            · exact hReceive hTry
            · split at hTry
              · cases hTry
              · split at hTry
                · exact hReceive hTry
                · cases hTry
                  exact hSame

theorem receiveOrKeep_reports
    (hStocked : Stocked cx)
    (hStored :
      cx.storage.deliveredBlockFromHash block.hash =
        some block)
    (hReceive :
      receiveOrKeep sender p block cx = .ok cx') :
    Reports cx cx' := by
  unfold receiveOrKeep at hReceive
  split at hReceive
  · cases hReceive
    exact Or.inl { Quiet.refl hStocked with
      stocked := { hStocked with } }
  · exact tryReceiveProposal_reports hStocked hStored
      hReceive

/- Changes of the parked proposals are not reported. -/
theorem Reports.parked
    (hReports : Reports cx cx')
    (propWaiting : FinMap H (Propose H)) :
    Reports cx
      { cx' with propWaiting := propWaiting } := by
  rcases hReports with hQuiet | ⟨p, block, hTakes⟩
  · exact Or.inl { hQuiet with
      stocked := { hQuiet.stocked with } }
  · exact Or.inr ⟨p, block, { hTakes with
      stocked := { hTakes.stocked with } }⟩

theorem deliverBlock_reports
    {next : Option H}
    (hStocked : Stocked cx)
    (hHas :
      block = Block.genesis ∨
        ∃ batch,
          cx.batches.Holds block.body.batchHash batch)
    (hDeliver :
      deliverBlock sender p block cx = .ok (cx', next)) :
    Reports cx cx' := by
  have hStore := hStocked.addDeliveredBlock_quiet hHas
  unfold deliverBlock at hDeliver
  split at hDeliver
  · rcases Result.bind_eq_ok.mp hDeliver with
      ⟨received, hReceive, hEnd⟩
    cases hEnd
    apply Reports.parked
    apply Reports.afterQuiet hStore
    exact receiveOrKeep_reports hStore.stocked
      (Storage.addDeliveredBlock_self _ _) hReceive
  · cases hDeliver
    left
    apply hStore.trans
    have hParked :
        Stocked
          { cx.addDeliveredBlock block with
            propWaitingParent :=
              cx.propWaitingParent.insert
                block.header.prev p } :=
      { hStore.stocked with }
    exact { hParked.send_quiet sender _ with }

theorem deliveryCheck_reports
    {blockAndBatch : Option (Block H × Batch)}
    {next : Option H}
    (hStocked : Stocked cx)
    (hCheck :
      deliveryCheck sender p blockAndBatch cx =
        .ok (cx', next)) :
    Reports cx cx' := by
  have hSame : Reports cx cx := Or.inl (Quiet.refl hStocked)
  unfold deliveryCheck at hCheck
  split at hCheck
  · cases hCheck
    exact hSame
  · cases blockAndBatch with
    | some pair =>
        rcases pair with ⟨block, batch⟩
        dsimp only at hCheck
        split at hCheck
        · cases hCheck
          exact hSame
        · split at hCheck
          · cases hCheck
            exact hSame
          · rename_i hSealed
            have hHash :
                batch.hash = block.body.batchHash := by
              simpa [checkBatchHash] using hSealed
            have hKeep := hStocked.persistBatch_quiet hHash
            apply Reports.afterQuiet hKeep
            exact deliverBlock_reports hKeep.stocked
              (Or.inr ⟨batch,
                BatchStores.persistBatch_holds _ _ _⟩)
              hCheck
    | none =>
        dsimp only at hCheck
        split at hCheck
        · rename_i block hLookup
          exact deliverBlock_reports hStocked
            (hStocked.blocks _ _ hLookup) hCheck
        · cases hCheck
          left
          have hWaits :
              Stocked
                { cx with
                  propWaiting :=
                    cx.propWaiting.insert p.blockHash p } :=
            { hStocked with }
          exact { hWaits.send_quiet sender _ with }

theorem deliverWaitingChild_reports
    {hash : H}
    {next : Option H}
    (hStocked : Stocked cx)
    (hDeliver :
      deliverWaitingChild sender hash cx =
        .ok (cx', next)) :
    Reports cx cx' := by
  unfold deliverWaitingChild at hDeliver
  split at hDeliver
  · cases hDeliver
    exact Or.inl (Quiet.refl hStocked)
  · rename_i p hLookup
    dsimp only at hDeliver
    split at hDeliver
    · cases hDeliver
    · rename_i child hChild
      rcases Result.bind_eq_ok.mp hDeliver with
        ⟨received, hReceive, hEnd⟩
      cases hEnd
      have hTaken :
          Quiet cx
            { cx with
              propWaitingParent :=
                cx.propWaitingParent.erase hash } :=
        { Quiet.refl hStocked with
          stocked := { hStocked with } }
      apply Reports.afterQuiet hTaken
      apply receiveOrKeep_reports hTaken.stocked _ hReceive
      have hSame :=
        Storage.getHash_of_delivered hChild
      change child.hash = p.blockHash at hSame
      rw [hSame]
      exact hChild

theorem onRecvRequest_quiet
    {reqId : Nat}
    {hash : H}
    (hStocked : Stocked cx) :
    Quiet cx (onRecvRequest sender reqId hash cx) := by
  unfold onRecvRequest
  split
  · exact Quiet.refl hStocked
  · split
    · exact Quiet.refl hStocked
    · rename_i block _
      have hRead :=
        hStocked.readBatch_quiet block.body.batchHash
      split
      · rename_i read hEq
        rw [hEq] at hRead
        exact hRead
      · rename_i batch read hEq
        rw [hEq] at hRead
        exact hRead.trans (hRead.stocked.send_quiet _ _)

end Apollo

end LibApollo

------------------------------------------------------------
-- What a Step Reports
------------------------------------------------------------

namespace LibApollo

namespace Apollo

variable {H : Type} [DecidableEq H] [Crypto H]
variable {node node' : Node H}

theorem afterDelivery_reports
    {cx : Context H}
    {phase : Phase}
    {sender : Replica}
    {result : Except Panic (Context H × Option H)}
    (hResult :
      ∀ cx' next, result = .ok (cx', next) →
        Reports cx cx')
    (hStep :
      Node.afterDelivery phase sender result =
        .ok node') :
    Reports cx node'.cx := by
  rcases Result.bind_eq_ok.mp hStep with
    ⟨pair, hPair, hEnd⟩
  rcases pair with ⟨cx', next⟩
  cases hEnd
  exact hResult cx' next hPair

theorem processMessage_reports
    (hStocked : Stocked node.cx)
    (hStep : processMessage node = .ok node') :
    Reports node.cx node'.cx := by
  have hSame : Reports node.cx node.cx :=
    Or.inl (Quiet.refl hStocked)
  unfold processMessage at hStep
  dsimp only at hStep
  split at hStep
  · split at hStep
    · cases hStep
      exact hSame
    · rename_i sender p block batch rest _
      have hPop :
          Quiet node.cx { node.cx with propBuf := rest } :=
        { Quiet.refl hStocked with
          stocked := { hStocked with } }
      refine afterDelivery_reports ?_ hStep
      intro cx' next hCheck
      exact Reports.afterQuiet hPop
        (deliveryCheck_reports hPop.stocked hCheck)
  · split at hStep
    · cases hStep
      exact hSame
    · rename_i sender p rest _
      have hPop :
          Quiet node.cx { node.cx with relayBuf := rest } :=
        { Quiet.refl hStocked with
          stocked := { hStocked with } }
      refine afterDelivery_reports ?_ hStep
      intro cx' next hCheck
      exact Reports.afterQuiet hPop
        (deliveryCheck_reports hPop.stocked hCheck)
  · split at hStep
    · cases hStep
      exact hSame
    · rename_i msg rest _
      have hPop :
          Quiet node.cx { node.cx with otherBuf := rest } :=
        { Quiet.refl hStocked with
          stocked := { hStocked with } }
      split at hStep
      · cases hStep
        exact Or.inl
          (hPop.trans (onRecvRequest_quiet hPop.stocked))
      · cases hStep
      · cases hStep
        exact Or.inl hPop
  · split at hStep
    · cases hStep
      exact hSame
    · rename_i sender p _
      have hPop :
          Quiet node.cx
            { node.cx with
              futureMsgs :=
                node.cx.futureMsgs.erase node.cx.round } :=
        { Quiet.refl hStocked with
          stocked := { hStocked with } }
      refine afterDelivery_reports ?_ hStep
      intro cx' next hCheck
      exact Reports.afterQuiet hPop
        (deliveryCheck_reports hPop.stocked hCheck)
  · cases hStep
    exact hSame

/- An internal step outside the leader loop. -/
theorem internalStep_reports
    (hStocked : Stocked node.cx)
    (hOther :
      ∀ batchHash batch rest,
        ¬ Proposes node batchHash batch rest)
    (hStep : internalStep node = .ok node') :
    Reports node.cx node'.cx := by
  have hSame : Reports node.cx node.cx :=
    Or.inl (Quiet.refl hStocked)
  unfold internalStep at hStep
  cases hWaiting : node.waiting with
  | some pair =>
      rw [hWaiting] at hStep
      refine afterDelivery_reports ?_ hStep
      intro cx' next hDeliver
      exact deliverWaitingChild_reports hStocked hDeliver
  | none =>
      rw [hWaiting] at hStep
      dsimp only at hStep
      split at hStep
      · cases hStep
        exact hSame
      · cases hStep
        exact hSame
      · rename_i hPhase
        unfold proposeLoop at hStep
        dsimp only at hStep
        split at hStep
        · cases hStep
          exact hSame
        · rename_i batchHash batch rest hPending
          split at hStep
          · rename_i hLeader
            exact absurd
              ⟨hWaiting, hPhase, hLeader, hPending⟩
              (hOther batchHash batch rest)
          · cases hStep
            exact hSame
      · exact processMessage_reports hStocked hStep

/- A message that comes in is only queued. -/
theorem handleMessage_quiet
    {cx : Context H}
    (hStocked : Stocked cx)
    (msg : ProtocolMsg H) :
    Quiet cx (handleMessage msg cx) := by
  unfold handleMessage
  split
  all_goals
    exact { Quiet.refl hStocked with
      stocked := { hStocked with } }

/-
  What a step of the reactor reports that neither takes a
  batch in nor proposes.
-/
theorem step_reports
    {event : Event H}
    (hStocked : Stocked node.cx)
    (hEvent :
      event = .tick ∨ (∃ msg, event = .recv msg) ∨
        (event = .internal ∧
          ∀ batchHash batch rest,
            ¬ Proposes node batchHash batch rest))
    (hStep : step node event = .ok node') :
    Reports node.cx node'.cx := by
  have hSame : Reports node.cx node.cx :=
    Or.inl (Quiet.refl hStocked)
  rcases hEvent with rfl | ⟨msg, rfl⟩ | ⟨rfl, hOther⟩
  · simp only [step] at hStep
    split at hStep
    · cases hStep
      dsimp only
      split
      · exact Or.inl { Quiet.refl hStocked with
          stocked := { hStocked with } }
      · exact hSame
    · cases hStep
      exact hSame
  · simp only [step] at hStep
    split at hStep
    · cases hStep
      exact Or.inl (handleMessage_quiet hStocked msg)
    · cases hStep
      exact hSame
  · exact internalStep_reports hStocked hOther hStep

/- A node that proposes takes its own proposal. -/
theorem doPropose_takes
    {cx cx' : Context H}
    {batchHash : H}
    {batch : Batch}
    (hStocked : Stocked cx)
    (hHas : ∃ found, cx.batches.Holds batchHash found)
    (hPropose : doPropose batchHash batch cx = .ok cx') :
    Takes (newPropose cx batchHash) (newBlock cx batchHash)
      cx cx' := by
  rw [doPropose_eq] at hPropose
  have hStored :
      Stocked
        (cx.addDeliveredBlock (newBlock cx batchHash)) :=
    hStocked.addDeliveredBlock (Or.inr hHas)
  have hProposing :
      Stocked (proposing batchHash batch cx) :=
    ⟨hStored.filed, hStored.blocks⟩
  have hTakes :=
    acceptProposal_takes hProposing rfl rfl
      (Storage.addDeliveredBlock_self _ _) hPropose
  refine
    { now := rfl
      round := hTakes.round
      chain := hTakes.chain
      named := rfl
      stored := hTakes.stored
      log := ?_
      pending := hTakes.pending
      kept := hTakes.kept
      stocked := hTakes.stocked }
  rcases hTakes.log with ⟨news, hSilent, hAnnounces, hLog⟩
  refine ⟨.proposed batch cx.round :: news, ?_, ?_, ?_⟩
  · intro msg hMem
    rcases List.mem_cons.mp hMem with rfl | hRest
    · exact Or.inl ⟨_, _, rfl⟩
    · exact hSilent msg hRest
  · rcases hAnnounces with
      hGenesis | ⟨found, round, hMem, hHash⟩
    · exact Or.inl hGenesis
    · exact Or.inr ⟨found, round,
        List.mem_cons_of_mem _ hMem, hHash⟩
  · rw [hLog]
    change cx.txConsensusToBatcher ++
      [.proposed batch cx.round] ++ news ++ _ = _
    simp

theorem proposes_takes
    {batchHash : H}
    {batch : Batch}
    {rest : List (H × Batch)}
    (hStocked : Stocked node.cx)
    (hHas :
      ∃ found, node.cx.batches.Holds batchHash found)
    (hProposes : Proposes node batchHash batch rest)
    (hStep : step node .internal = .ok node') :
    Takes
      (newPropose
        { node.cx with pendingBatches := rest } batchHash)
      (newBlock
        { node.cx with pendingBatches := rest } batchHash)
      { node.cx with pendingBatches := rest } node'.cx := by
  change internalStep node = .ok node' at hStep
  rw [internalStep_proposes hProposes] at hStep
  rcases Result.map_eq_ok.mp hStep with ⟨cx', hPropose, rfl⟩
  exact doPropose_takes { hStocked with } hHas hPropose

theorem stocked_new
    (config : Config) :
    Stocked (Node.new config : Node H).cx where
  filed := by
    intro hash batch hHolds
    rcases hHolds with hCache | hStore
    · simp [Node.new, Context.new, Context.tellBatcher]
        at hCache
    · simp [Node.new, Context.new, Context.tellBatcher]
        at hStore
  blocks := fun _ _ hLookup =>
    Or.inl (Storage.eq_of_delivered_new hLookup)

end Apollo

end LibApollo
