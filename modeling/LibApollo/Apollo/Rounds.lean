import LibApollo.Apollo.Transitions
import LibApollo.Apollo.CommitSafety
import Mathlib.Order.Interval.Finset.Nat

/-
  The rounds of an Apollo node, for any messages.

  A step moves the round only by accepting a proposal of the
  current round, which enters the chain under it.  The
  equivocation check never stops a leader's own proposal, so
  that every proposal it makes takes it to the next round.

  Key definitions include:
    * `RoundInv`
    * `madeProposal`, `madeProposals`

  Key theorems include:
    * `RoundInv.step`
    * `rounds_kept`
-/

------------------------------------------------------------
-- What Moves the Round
------------------------------------------------------------

namespace LibApollo

namespace Apollo

variable {H : Type} [DecidableEq H] [Crypto H]
variable {cx cx' cx'' mid : Context H}
variable {sender : Replica}
variable {p : Propose H}
variable {block : Block H}

/- Round, leader, chain and signatures stay. -/
structure SameRound (cx cx' : Context H) : Prop where
  round : cx'.round = cx.round
  roundLeader : cx'.roundLeader = cx.roundLeader
  chain : cx'.propChainByRound = cx.propChainByRound
  numNodes : cx'.numNodes = cx.numNodes
  signed : cx'.signed = cx.signed

omit [Crypto H] in
theorem SameRound.refl
    (cx : Context H) : SameRound cx cx :=
  ⟨rfl, rfl, rfl, rfl, rfl⟩

omit [Crypto H] in
theorem SameRound.trans
    (hFirst : SameRound cx mid)
    (hSecond : SameRound mid cx') :
    SameRound cx cx' where
  round := hSecond.round.trans hFirst.round
  roundLeader :=
    hSecond.roundLeader.trans hFirst.roundLeader
  chain := hSecond.chain.trans hFirst.chain
  numNodes := hSecond.numNodes.trans hFirst.numNodes
  signed := hSecond.signed.trans hFirst.signed

/- At most one proposal of the round is accepted. -/
inductive RoundStep
    (cx : Context H) : Context H → Prop where
| same {cx' : Context H} :
    SameRound cx cx' → RoundStep cx cx'
| accept {p : Propose H} {block : Block H}
    {mid done cx' : Context H} :
    SameRound cx mid →
      p.round = mid.round →
      Accepted p block mid done →
      SameRound done cx' →
      RoundStep cx cx'

omit [Crypto H] in
theorem RoundStep.between
    {before after : Context H}
    (hStep : RoundStep cx cx')
    (hBefore : SameRound before cx)
    (hAfter : SameRound cx' after) :
    RoundStep before after := by
  cases hStep with
  | same hSame =>
      exact .same ((hBefore.trans hSame).trans hAfter)
  | accept hSame hRound hAccepted hLater =>
      exact .accept (hBefore.trans hSame) hRound hAccepted
        (hLater.trans hAfter)

omit [Crypto H] in
theorem send_sameRound
    (cx : Context H)
    (dest : Replica)
    (msg : ProtocolMsg H) :
    SameRound cx (cx.send dest msg) := by
  unfold Context.send
  split
  · exact SameRound.refl cx
  · exact ⟨rfl, rfl, rfl, rfl, rfl⟩

theorem Receives.roundStep
    (hReceives : Receives sender p block cx cx') :
    RoundStep cx cx' := by
  cases hReceives with
  | refuse _ _ => exact .same (SameRound.refl cx)
  | keep _ => exact .same ⟨rfl, rfl, rfl, rfl, rfl⟩
  | equivocation _ _ => exact .same (SameRound.refl cx)
  | accept hAcceptable _ hAccept =>
      exact .accept (SameRound.refl cx) hAcceptable.1
        (acceptProposal_ok hAccept) (SameRound.refl cx')

theorem Delivers.roundStep
    (hDelivers : Delivers sender p block cx cx') :
    RoundStep cx cx' := by
  cases hDelivers with
  | park _ =>
      refine .same (SameRound.trans ?_
        (send_sameRound _ _ _))
      exact ⟨rfl, rfl, rfl, rfl, rfl⟩
  | hand _ hReceives =>
      exact hReceives.roundStep.between
        ⟨rfl, rfl, rfl, rfl, rfl⟩
        ⟨rfl, rfl, rfl, rfl, rfl⟩

theorem Resolves.roundStep
    {blockAndBatch : Option (Block H × Batch)}
    (hResolves : Resolves sender p blockAndBatch cx cx') :
    RoundStep cx cx' := by
  cases hResolves with
  | leave => exact .same (SameRound.refl cx)
  | ask _ _ =>
      refine .same (SameRound.trans ?_
        (send_sameRound _ _ _))
      exact ⟨rfl, rfl, rfl, rfl, rfl⟩
  | sent _ _ _ hDelivers =>
      exact hDelivers.roundStep.between
        ⟨rfl, rfl, rfl, rfl, rfl⟩ (SameRound.refl cx')
  | stored _ _ hDelivers => exact hDelivers.roundStep

omit [Crypto H] in
theorem readBatch_sameRound
    {hash : H}
    {batch : Option Batch}
    {read : Context H}
    (hRead : cx.readBatch hash = (batch, read)) :
    SameRound cx read := by
  have hEq : (cx.readBatch hash).2 = read := by
    rw [hRead]
  rw [← hEq]
  exact ⟨rfl, rfl, rfl, rfl, rfl⟩

omit [Crypto H] in
theorem onRecvRequest_sameRound
    (sender : Replica)
    (reqId : Nat)
    (hash : H)
    (cx : Context H) :
    SameRound cx (onRecvRequest sender reqId hash cx) := by
  unfold onRecvRequest
  split
  · exact SameRound.refl cx
  · split
    · exact SameRound.refl cx
    · split
      · rename_i hRead
        exact readBatch_sameRound hRead
      · rename_i hRead
        exact (readBatch_sameRound hRead).trans
          (send_sameRound _ _ _)

theorem Transition.roundStep
    (hTransition : Transition cx event cx') :
    RoundStep cx cx' := by
  cases hTransition with
  | stay => exact .same (SameRound.refl cx)
  | count _ => exact .same ⟨rfl, rfl, rfl, rfl, rfl⟩
  | queue msg =>
      cases msg <;>
        exact .same ⟨rfl, rfl, rfl, rfl, rfl⟩
  | install _ => exact .same ⟨rfl, rfl, rfl, rfl, rfl⟩
  | pend _ _ => exact .same ⟨rfl, rfl, rfl, rfl, rfl⟩
  | proposal _ hResolves =>
      exact hResolves.roundStep.between
        ⟨rfl, rfl, rfl, rfl, rfl⟩ (SameRound.refl cx')
  | relay _ hResolves =>
      exact hResolves.roundStep.between
        ⟨rfl, rfl, rfl, rfl, rfl⟩ (SameRound.refl cx')
  | answer _ =>
      refine .same (SameRound.trans ?_
        (onRecvRequest_sameRound _ _ _ _))
      exact ⟨rfl, rfl, rfl, rfl, rfl⟩
  | skip _ => exact .same ⟨rfl, rfl, rfl, rfl, rfl⟩
  | future _ hResolves =>
      exact hResolves.roundStep.between
        ⟨rfl, rfl, rfl, rfl, rfl⟩ (SameRound.refl cx')
  | child _ _ hReceives =>
      exact hReceives.roundStep.between
        ⟨rfl, rfl, rfl, rfl, rfl⟩ (SameRound.refl cx')

end Apollo

end LibApollo

------------------------------------------------------------
-- The Chain of Rounds
------------------------------------------------------------

namespace LibApollo

namespace Apollo

variable {H : Type} [DecidableEq H] [Crypto H]
variable {cx cx' mid : Context H}
variable {p : Propose H}
variable {block : Block H}

/-
  The chain has one proposal of every round before the
  current one, and the leader is the one of the round.
-/
structure RoundInv (cx : Context H) : Prop where
  started : 1 ≤ cx.round
  keys :
    ∀ r, (∃ p, cx.propChainByRound.lookup r = some p) ↔
      1 ≤ r ∧ r < cx.round
  entry :
    ∀ r p, cx.propChainByRound.lookup r = some p →
      p.round = r
  leader : cx.roundLeader = (cx.round - 1) % cx.numNodes

omit [Crypto H] in
theorem RoundInv.same
    (hInv : RoundInv cx)
    (hSame : SameRound cx cx') :
    RoundInv cx' where
  started := by
    rw [hSame.round]
    exact hInv.started
  keys := by
    intro r
    rw [hSame.chain, hSame.round]
    exact hInv.keys r
  entry := by
    rw [hSame.chain]
    exact hInv.entry
  leader := by
    rw [hSame.roundLeader, hSame.round, hSame.numNodes]
    exact hInv.leader

omit [Crypto H] in
theorem RoundInv.nextLeader
    (hInv : RoundInv cx) :
    cx.nextLeader = cx.round % cx.numNodes := by
  have hStarted := hInv.started
  have hRound : cx.round - 1 + 1 = cx.round := by omega
  unfold Context.nextLeader Context.nextOf
  rw [hInv.leader]
  rcases Nat.eq_zero_or_pos cx.numNodes with hNone | hSome
  · rw [hNone, Nat.mod_zero, Nat.mod_zero,
      if_neg (Nat.succ_ne_zero _), hRound]
  · rw [succ_mod_eq_ite hSome, hRound]

omit [Crypto H] in
theorem RoundInv.accepted
    (hInv : RoundInv cx)
    (hRound : p.round = cx.round)
    (hAccepted : Accepted p block cx cx') :
    RoundInv cx' := by
  have hStarted := hInv.started
  have hNext := hInv.nextLeader
  rcases hAccepted with ⟨_, _, _, _, _, _, rfl⟩
  refine ⟨?_, ?_, ?_, ?_⟩
  · exact Nat.le_add_left 1 cx.round
  · intro r
    dsimp only
    rw [FinMap.lookup_insert_eq]
    by_cases hKey : r = p.round
    · rw [if_pos hKey]
      constructor
      · intro _
        omega
      · intro _
        exact ⟨p, rfl⟩
    · rw [if_neg hKey, hInv.keys r]
      omega
  · exact FinMap.forall_insert hInv.entry rfl
  · dsimp only
    rw [hNext, Nat.add_sub_cancel]

omit [Crypto H] in
theorem RoundInv.roundStep
    (hInv : RoundInv cx)
    (hStep : RoundStep cx cx') :
    RoundInv cx' := by
  cases hStep with
  | same hSame => exact hInv.same hSame
  | accept hSame hRound hAccepted hLater =>
      exact ((hInv.same hSame).accepted hRound
        hAccepted).same hLater

omit [Crypto H] in
/- The round never falls. -/
theorem RoundStep.round_le
    (hStep : RoundStep cx cx') :
    cx.round ≤ cx'.round := by
  cases hStep with
  | same hSame => rw [hSame.round]
  | accept hSame _ hAccepted hLater =>
      rcases hAccepted with ⟨_, _, _, _, _, _, rfl⟩
      rw [hLater.round, ← hSame.round]
      exact Nat.le_succ _

omit [Crypto H] in
/- Nothing is signed outside of proposing. -/
theorem RoundStep.signed
    (hStep : RoundStep cx cx') :
    cx'.signed = cx.signed := by
  cases hStep with
  | same hSame => exact hSame.signed
  | accept hSame _ hAccepted hLater =>
      rcases hAccepted with ⟨_, _, _, _, _, _, rfl⟩
      rw [hLater.signed]
      exact hSame.signed

end Apollo

end LibApollo

------------------------------------------------------------
-- The Proposals a Node Makes
------------------------------------------------------------

namespace LibApollo

namespace Apollo

variable {H : Type} [DecidableEq H] [Crypto H]
variable {config : Config}
variable {node node' : Node H}
variable {event : Event H}
variable {past : List (Node H × Event H)}

/- The proposal that the step signs in `doPropose`. -/
def madeProposal
    (node : Node H)
    (event : Event H) : Option (Propose H) :=
  if event = .internal ∧ node.waiting = none ∧
      node.phase = .propose ∧
      node.cx.roundLeader = node.cx.myid then
    match node.cx.pendingBatches with
    | [] => none
    | (batchHash, _) :: rest =>
        some
          (newPropose
            { node.cx with pendingBatches := rest }
            batchHash)
  else
    none

/- The proposals of the steps taken, oldest first. -/
def madeProposals
    (past : List (Node H × Event H)) :
    List (Propose H) :=
  past.filterMap (fun taken => madeProposal taken.1 taken.2)

theorem madeProposal_of_proposes
    {batchHash : H}
    {batch : Batch}
    {rest : List (H × Batch)}
    (hProposes :
      StepProposes node event batchHash batch rest) :
    madeProposal node event =
      some
        (newPropose
          { node.cx with pendingBatches := rest }
          batchHash) := by
  rcases hProposes with
    ⟨hEvent, hWaiting, hPhase, hLeader, hPending⟩
  unfold madeProposal
  rw [if_pos ⟨hEvent, hWaiting, hPhase, hLeader⟩, hPending]

theorem madeProposal_of_idle
    (hIdle :
      ∀ batchHash batch rest,
        ¬ StepProposes node event batchHash batch rest) :
    madeProposal node event = none := by
  unfold madeProposal
  split
  · rename_i hReady
    rcases hReady with ⟨hEvent, hWaiting, hPhase, hLeader⟩
    split
    · rfl
    · rename_i batchHash batch rest hPending
      exact absurd
        ⟨hEvent, hWaiting, hPhase, hLeader, hPending⟩
        (hIdle batchHash batch rest)
  · rfl

/- What a step does to round, chain and signatures. -/
structure Advances
    (node : Node H)
    (event : Event H)
    (node' : Node H) : Prop where
  inv : RoundInv node.cx → RoundInv node'.cx
  round_le : node.cx.round ≤ node'.cx.round
  signed :
    node'.cx.signed =
      node.cx.signed ++
        (madeProposal node event).toList.map
          (fun p => SignData.hash p.blockHash)
  made :
    ∀ p, madeProposal node event = some p →
      p.round = node.cx.round ∧
        node'.cx.round = node.cx.round + 1

theorem step_advances
    (hStep : step node event = .ok node') :
    Advances node event node' := by
  rcases step_transition hStep with
    ⟨hTransition, hIdle⟩ |
      ⟨batchHash, batch, rest, hProposes, hPropose⟩
  · have hRound := hTransition.roundStep
    have hNone := madeProposal_of_idle hIdle
    refine ⟨fun hInv => hInv.roundStep hRound,
      hRound.round_le, ?_, ?_⟩
    · rw [hNone, hRound.signed]
      simp
    · intro p hMade
      rw [hNone] at hMade
      cases hMade
  · rw [doPropose_eq] at hPropose
    have hAccepted := acceptProposal_ok hPropose
    have hMade := madeProposal_of_proposes hProposes
    have hRounds :
        node'.cx.round = node.cx.round + 1 ∧
          node'.cx.signed =
            node.cx.signed ++
              [SignData.hash
                (newBlock
                  { node.cx with pendingBatches := rest }
                  batchHash).hash] := by
      rcases hAccepted with ⟨_, _, _, _, _, _, hEq⟩
      rw [hEq]
      exact ⟨rfl, rfl⟩
    refine ⟨?_, ?_, ?_, ?_⟩
    · intro hInv
      have hStart :
          RoundInv
            (proposing batchHash batch
              { node.cx with pendingBatches := rest }) :=
        ⟨hInv.started, hInv.keys, hInv.entry, hInv.leader⟩
      exact hStart.accepted rfl hAccepted
    · rw [hRounds.1]
      exact Nat.le_succ _
    · rw [hMade, hRounds.2]
      rfl
    · intro p hSome
      rw [hMade] at hSome
      cases hSome
      exact ⟨rfl, hRounds.1⟩

theorem roundInv_new
    (config : Config) :
    RoundInv (Node.new config : Node H).cx where
  started := Nat.le_refl 1
  keys := by
    intro r
    simp [Node.new, Context.new, Context.tellBatcher]
    omega
  entry := by
    intro r p hLookup
    simp [Node.new, Context.new, Context.tellBatcher]
      at hLookup
  leader := (Nat.zero_mod _).symm

/- What is known of rounds after the steps of a run. -/
structure RoundHistory
    (past : List (Node H × Event H))
    (node : Node H) : Prop where
  inv : RoundInv node.cx
  signed :
    node.cx.signed =
      (madeProposals past).map
        (fun p => SignData.hash p.blockHash)
  before :
    ∀ p ∈ madeProposals past, p.round < node.cx.round
  increasing :
    (madeProposals past).Pairwise
      (fun p q => p.round < q.round)

theorem RoundHistory.step
    (hHistory : RoundHistory past node)
    (hStep : Apollo.step node event = .ok node') :
    RoundHistory (past ++ [(node, event)]) node' := by
  have hAdvances := step_advances hStep
  have hMore :
      madeProposals (past ++ [(node, event)]) =
        madeProposals past ++
          (madeProposal node event).toList := by
    unfold madeProposals
    rw [List.filterMap_append]
    cases hMade : madeProposal node event with
    | none => simp [hMade]
    | some p => simp [hMade]
  refine ⟨hAdvances.inv hHistory.inv, ?_, ?_, ?_⟩
  · rw [hMore, hAdvances.signed, hHistory.signed,
      List.map_append]
  · intro p hMem
    rw [hMore, List.mem_append] at hMem
    rcases hMem with hOld | hNew
    · exact Nat.lt_of_lt_of_le (hHistory.before p hOld)
        hAdvances.round_le
    · rcases hAdvances.made p
          (Option.mem_toList.mp hNew) with
        ⟨hRound, hNext⟩
      rw [hRound, hNext]
      exact Nat.lt_succ_self _
  · rw [hMore, List.pairwise_append]
    refine ⟨hHistory.increasing, ?_, ?_⟩
    · cases madeProposal node event with
      | none => exact List.Pairwise.nil
      | some p => exact List.pairwise_singleton _ _
    · intro p hOld q hNew
      rw [(hAdvances.made q
        (Option.mem_toList.mp hNew)).1]
      exact hHistory.before p hOld

theorem roundHistory_of_trace
    (hTrace :
      Machine.Trace step (Node.new config) past node) :
    RoundHistory past node := by
  induction hTrace with
  | start =>
      exact ⟨roundInv_new config, rfl,
        fun p hMem => absurd hMem List.not_mem_nil,
        List.Pairwise.nil⟩
  | next _ hStep ih => exact ih.step hStep

/-
  In every run, whatever the network sends: the chain by
  round has exactly the rounds from 1 to the one before the
  current, each with a proposal of that round; the leader is
  the one of the round; what the node has signed are its
  proposals, whose rounds increase; and a step that proposes
  does so in the current round and moves to the next.
-/
theorem rounds_kept
    (hTrace :
      Machine.Trace step (Node.new config) past node) :
    node.cx.propChainByRound.keys =
        Finset.Ico 1 node.cx.round ∧
      (∀ r p,
        node.cx.propChainByRound.lookup r = some p →
          p.round = r) ∧
      node.cx.roundLeader =
        (node.cx.round - 1) % node.cx.numNodes ∧
      node.cx.signed =
        (madeProposals past).map
          (fun p => SignData.hash p.blockHash) ∧
      (madeProposals past).Pairwise
        (fun p q => p.round < q.round) ∧
      ∀ event after,
        step node event = .ok after →
          ∀ p, madeProposal node event = some p →
            p.round = node.cx.round ∧
              after.cx.round = node.cx.round + 1 := by
  have hHistory := roundHistory_of_trace hTrace
  refine ⟨?_, hHistory.inv.entry, hHistory.inv.leader,
    hHistory.signed, hHistory.increasing, ?_⟩
  · ext r
    rw [Finmap.mem_keys, Finset.mem_Ico,
      ← hHistory.inv.keys r, ← Finmap.lookup_isSome,
      Option.isSome_iff_exists]
  · intro event after hStep
    exact (step_advances hStep).made

/- The node accepts a proposal, then proposes itself. -/
theorem rounds_kept_third_round :
    ∃ (past : List (Node Digest × Event Digest))
        (node : Node Digest),
      Machine.Trace step (Node.new (smallConfig 1)) past
          node ∧
        past.map Prod.snd = groundedRun ∧
        node.cx.round = 3 ∧
        node.cx.propChainByRound.keys = Finset.Ico 1 3 ∧
        (madeProposals past).Pairwise
          (fun p q => p.round < q.round) := by
  have hRun :
      Machine.runCheck step (fun _ _ => true)
        (fun node => decide (node.cx.round = 3))
        (Node.new (smallConfig 1)) groundedRun = true := by
    decide +kernel
  rcases Machine.Trace.of_runCheck .start hRun with
    ⟨past, node, hTrace, hEvents, _, _, hFinal⟩
  have hRound := of_decide_eq_true hFinal
  rcases rounds_kept hTrace with
    ⟨hKeys, _, _, _, hIncreasing, _⟩
  rw [hRound] at hKeys
  exact ⟨past, node, hTrace, hEvents, hRound, hKeys,
    hIncreasing⟩

end Apollo

end LibApollo
