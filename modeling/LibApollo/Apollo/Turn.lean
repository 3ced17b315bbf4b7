import LibApollo.Apollo.Confluence
import LibApollo.Apollo.Transitions

/-
  A turn of the Apollo reactor ends.

  Between two waits in `select` the reactor runs five loops,
  and one more over the waiting children of every delivered
  block.  What one loop takes from its queue it may put into
  another: a proposal is parked under its parent, kept for
  its round, and parked again when its round has come.  Each
  place has a price, which pays for all that may still
  happen to a proposal that is there.  A parked proposal is
  the cheaper one once its round has come, since then it
  cannot be kept any more.

  Key definitions include:
    * `Context.burden`, `Node.work`
    * `KeptByRound`
    * `Node.AtRest`, `runTurn`

  Key theorems include:
    * `Resolves.burden_le`
    * `internalStep_work`
    * `turn_ends`
-/

------------------------------------------------------------
-- The Work Left in a Turn
------------------------------------------------------------

namespace LibApollo

namespace Apollo

variable {H : Type} [DecidableEq H]

/- The price of a proposal parked under its parent. -/
def parkedPrice (round : Nat) (p : Propose H) : Nat :=
  if round < p.round then 4 else 1

/- The price of all that is queued, kept or parked. -/
def Context.burden (cx : Context H) : Nat :=
  6 * (cx.propBuf.length + cx.relayBuf.length +
      cx.otherBuf.length) +
    3 * cx.futureMsgs.keys.card +
    FinMap.total (parkedPrice cx.round)
      cx.propWaitingParent +
    cx.pendingBatches.length

/- How many internal steps a turn may still take. -/
def Node.work (node : Node H) : Nat :=
  node.cx.burden + node.phase.rank +
    (if node.waiting.isSome then 1 else 0)

omit [DecidableEq H] in
theorem parkedPrice_le
    (round : Nat)
    (p : Propose H) :
    parkedPrice round p ≤ 4 := by
  unfold parkedPrice
  split
  · omega
  · omega

omit [DecidableEq H] in
/- A parked proposal does not get dearer. -/
theorem parkedPrice_anti
    {round round' : Nat}
    (hLe : round ≤ round')
    (p : Propose H) :
    parkedPrice round' p ≤ parkedPrice round p := by
  unfold parkedPrice
  by_cases hLater : round' < p.round
  · rw [if_pos hLater, if_pos (by omega)]
  · rw [if_neg hLater]
    split
    · omega
    · omega

/- An acceptance queues nothing. -/
theorem Accepted.burden_le
    {p : Propose H}
    {block : Block H}
    {cx cx' : Context H}
    (hAccepted : Accepted p block cx cx') :
    cx'.burden ≤ cx.burden := by
  rcases hAccepted with ⟨_, _, _, _, _, _, rfl⟩
  have hParked :
      FinMap.total (parkedPrice (cx.round + 1))
          cx.propWaitingParent ≤
        FinMap.total (parkedPrice cx.round)
          cx.propWaitingParent :=
    FinMap.total_le_of_le
      (parkedPrice_anti (Nat.le_succ _))
      cx.propWaitingParent
  unfold Context.burden
  dsimp only
  omega

end Apollo

end LibApollo

------------------------------------------------------------
-- What the Handlers Add
------------------------------------------------------------

namespace LibApollo

namespace Apollo

variable {H : Type} [DecidableEq H] [Crypto H]
variable {cx cx' : Context H}
variable {sender : Replica}
variable {p : Propose H}
variable {block : Block H}

/- A received proposal is at most kept for its round. -/
theorem Receives.burden_le
    (hReceives : Receives sender p block cx cx') :
    cx'.burden + 1 ≤
      cx.burden + parkedPrice cx.round p := by
  unfold parkedPrice
  cases hReceives with
  | refuse hLe _ =>
      rw [if_neg (by omega)]
  | keep hLater =>
      have hCard :=
        FinMap.card_keys_insert_le cx.futureMsgs p.round
          (sender, p)
      rw [if_pos hLater]
      unfold Context.burden
      dsimp only
      omega
  | equivocation hAcceptable _ =>
      rw [if_neg (by rw [hAcceptable.1]; omega)]
  | accept hAcceptable _ hAccept =>
      have hLe := (acceptProposal_ok hAccept).burden_le
      rw [if_neg (by rw [hAcceptable.1]; omega)]
      omega

/- A delivered proposal is parked or received. -/
theorem Delivers.burden_le
    (hDelivers : Delivers sender p block cx cx') :
    cx'.burden ≤ cx.burden + parkedPrice cx.round p := by
  cases hDelivers with
  | park hMissing =>
      rcases requestParent_eq sender p block cx with
        ⟨outbox, hEq⟩
      have hTotal :=
        FinMap.total_insert_le
          (parkedPrice cx.round) cx.propWaitingParent
          block.header.prev p
      rw [hEq]
      unfold Context.burden
      dsimp only
      omega
  | @hand received hParent hReceives =>
      have hLe := hReceives.burden_le
      change received.burden ≤ _
      change received.burden + 1 ≤
        cx.burden + parkedPrice cx.round p at hLe
      omega

theorem Resolves.burden_le
    {blockAndBatch : Option (Block H × Batch)}
    (hResolves :
      Resolves sender p blockAndBatch cx cx') :
    cx'.burden ≤ cx.burden + parkedPrice cx.round p := by
  cases hResolves with
  | leave => omega
  | ask _ _ =>
      rcases send_outbox
          ({ cx with
              propWaiting :=
                cx.propWaiting.insert p.blockHash p } :
            Context H) sender
          (.request cx.myid cx.reqCtr p.blockHash) with
        ⟨outbox, hEq⟩
      unfold requestBlock
      rw [hEq]
      exact Nat.le_add_right _ _
  | sent _ _ _ hDelivers => exact hDelivers.burden_le
  | stored _ _ hDelivers => exact hDelivers.burden_le

omit [Crypto H] in
/- An answer queues nothing. -/
theorem onRecvRequest_burden
    (sender : Replica)
    (reqId : Nat)
    (hash : H)
    (cx : Context H) :
    (onRecvRequest sender reqId hash cx).burden =
      cx.burden := by
  rcases onRecvRequest_eq sender reqId hash cx with
    ⟨batches, outbox, hEq⟩
  rw [hEq]
  rfl

end Apollo

end LibApollo

------------------------------------------------------------
-- Proposals Kept for Their Round
------------------------------------------------------------

namespace LibApollo

namespace Apollo

variable {H : Type} [DecidableEq H] [Crypto H]
variable {cx cx' : Context H}
variable {sender : Replica}
variable {p : Propose H}
variable {block : Block H}

omit [Crypto H] in
/- A proposal is kept under its own round. -/
def KeptByRound (cx : Context H) : Prop :=
  ∀ r x, cx.futureMsgs.lookup r = some x → x.2.round = r

theorem Receives.keptByRound
    (hReceives : Receives sender p block cx cx')
    (hKept : KeptByRound cx) :
    KeptByRound cx' := by
  cases hReceives with
  | refuse _ _ => exact hKept
  | keep _ => exact FinMap.forall_insert hKept rfl
  | equivocation _ _ => exact hKept
  | accept _ _ hAccept =>
      rcases acceptProposal_ok hAccept with
        ⟨_, _, _, _, _, _, rfl⟩
      exact hKept

theorem Delivers.keptByRound
    (hDelivers : Delivers sender p block cx cx')
    (hKept : KeptByRound cx) :
    KeptByRound cx' := by
  cases hDelivers with
  | park _ =>
      rcases requestParent_eq sender p block cx with
        ⟨outbox, hEq⟩
      rw [hEq]
      exact hKept
  | hand _ hReceives => exact hReceives.keptByRound hKept

theorem Resolves.keptByRound
    {blockAndBatch : Option (Block H × Batch)}
    (hResolves : Resolves sender p blockAndBatch cx cx')
    (hKept : KeptByRound cx) :
    KeptByRound cx' := by
  cases hResolves with
  | leave => exact hKept
  | ask _ _ =>
      unfold requestBlock Context.send
      split
      · exact hKept
      · exact hKept
  | sent _ _ _ hDelivers =>
      exact hDelivers.keptByRound hKept
  | stored _ _ hDelivers =>
      exact hDelivers.keptByRound hKept

theorem Transition.keptByRound
    {event : Event H}
    (hTransition : Transition cx event cx')
    (hKept : KeptByRound cx) :
    KeptByRound cx' := by
  cases hTransition with
  | stay => exact hKept
  | count _ => exact hKept
  | queue msg => cases msg <;> exact hKept
  | install _ => exact hKept
  | pend _ _ => exact hKept
  | proposal _ hResolves =>
      exact hResolves.keptByRound hKept
  | relay _ hResolves => exact hResolves.keptByRound hKept
  | @answer sender reqId hash rest _ =>
      rcases onRecvRequest_eq sender reqId hash
          { cx with otherBuf := rest } with
        ⟨_, _, hEq⟩
      rw [hEq]
      exact hKept
  | skip _ => exact hKept
  | future _ hResolves =>
      refine hResolves.keptByRound ?_
      exact FinMap.forall_erase hKept
  | child _ _ hReceives =>
      exact hReceives.keptByRound hKept

theorem keptByRound_step
    {node node' : Node H}
    {event : Event H}
    (hKept : KeptByRound node.cx)
    (hStep : step node event = .ok node') :
    KeptByRound node'.cx := by
  rcases step_transition hStep with
    ⟨hTransition, _⟩ | ⟨_, _, _, _, hPropose⟩
  · exact hTransition.keptByRound hKept
  · rw [doPropose_eq] at hPropose
    rcases acceptProposal_ok hPropose with
      ⟨_, _, _, _, _, _, hEq⟩
    rw [hEq]
    exact hKept

theorem keptByRound_new
    (config : Config) :
    KeptByRound (Node.new config : Node H).cx := by
  intro r x hLookup
  simp [Node.new, Context.new, Context.tellBatcher]
    at hLookup

end Apollo

end LibApollo

------------------------------------------------------------
-- The End of a Turn
------------------------------------------------------------

namespace LibApollo

namespace Apollo

variable {H : Type} [DecidableEq H] [Crypto H]
variable {node node' : Node H}

omit [Crypto H] in
theorem afterDelivery_ok
    {phase : Phase}
    {sender : Replica}
    {result : Except Panic (Context H × Option H)}
    (hStep :
      Node.afterDelivery phase sender result =
        .ok node') :
    ∃ next,
      result = .ok (node'.cx, next) ∧
        node'.phase = phase ∧
        node'.waiting = next.map (·, sender) := by
  rcases Result.bind_eq_ok.mp hStep with
    ⟨pair, hPair, hEnd⟩
  cases hEnd
  exact ⟨pair.2, hPair, rfl, rfl⟩

omit [Crypto H] in
theorem Node.work_le
    (node : Node H) :
    node.work ≤ node.cx.burden + node.phase.rank + 1 := by
  unfold Node.work
  split
  · omega
  · omega

omit [Crypto H] in
theorem Node.le_work
    (node : Node H) :
    node.cx.burden + node.phase.rank ≤ node.work :=
  Nat.le_add_right _ _

/- The loop over waiting children releases one. -/
theorem deliverWaitingChild_burden
    {cx cx' : Context H}
    {sender : Replica}
    {hash : H}
    {next : Option H}
    (hDeliver :
      deliverWaitingChild sender hash cx =
        .ok (cx', next)) :
    (cx' = cx ∧ next = none) ∨
      cx'.burden + 1 ≤ cx.burden := by
  unfold deliverWaitingChild at hDeliver
  split at hDeliver
  · cases hDeliver
    exact Or.inl ⟨rfl, rfl⟩
  · rename_i p hWaiting
    dsimp only at hDeliver
    split at hDeliver
    · cases hDeliver
    · rcases Result.bind_eq_ok.mp hDeliver with
        ⟨received, hReceive, hEnd⟩
      cases hEnd
      have hLe := (receiveOrKeep_receives hReceive).burden_le
      have hTotal :=
        FinMap.total_erase_of_some
          (w := parkedPrice cx.round) hWaiting
      right
      unfold Context.burden at hLe ⊢
      dsimp only at hLe
      omega

omit [Crypto H] in
theorem burden_popOther
    {cx : Context H}
    {msg : ProtocolMsg H}
    {rest : List (ProtocolMsg H)}
    (hQueue : cx.otherBuf = msg :: rest) :
    ({ cx with otherBuf := rest } : Context H).burden + 6 =
      cx.burden := by
  unfold Context.burden
  dsimp only
  rw [hQueue, List.length_cons]
  omega

/- A proposed batch leaves its queue. -/
theorem burden_proposing
    {cx : Context H}
    {batchHash : H}
    {batch : Batch}
    {rest : List (H × Batch)}
    (hPending :
      cx.pendingBatches = (batchHash, batch) :: rest) :
    (proposing batchHash batch
        { cx with pendingBatches := rest }).burden + 1 =
      cx.burden := by
  unfold Context.burden proposing
  dsimp only
  rw [hPending, List.length_cons]
  omega

/- A loop of `process_message` takes from its queue. -/
theorem processMessage_work
    (hKept : KeptByRound node.cx)
    (hIdle : node.waiting = none)
    (hPhase :
      node.phase ≠ .select ∧ node.phase ≠ .drain ∧
        node.phase ≠ .propose)
    (hStep : processMessage node = .ok node') :
    node'.work < node.work := by
  have hBefore := node.le_work
  have hAfter := node'.work_le
  unfold processMessage at hStep
  dsimp only at hStep
  split at hStep
  · rename_i hProps
    split at hStep
    · cases hStep
      simp [Node.work, hIdle, hProps, Phase.rank]
    · rename_i sender p block batch rest hQueue
      rcases afterDelivery_ok hStep with
        ⟨next, hCheck, hSame, -⟩
      have hLe := (deliveryCheck_resolves hCheck).burden_le
      have hPrice := parkedPrice_le node.cx.round p
      rw [hSame, ← hProps] at hAfter
      unfold Context.burden at hLe hBefore hAfter
      simp only [hQueue, List.length_cons] at hBefore
      dsimp only at hLe
      omega
  · rename_i hRelays
    split at hStep
    · cases hStep
      simp [Node.work, hIdle, hRelays, Phase.rank]
    · rename_i sender p rest hQueue
      rcases afterDelivery_ok hStep with
        ⟨next, hCheck, hSame, -⟩
      have hLe := (deliveryCheck_resolves hCheck).burden_le
      have hPrice := parkedPrice_le node.cx.round p
      rw [hSame, ← hRelays] at hAfter
      unfold Context.burden at hLe hBefore hAfter
      simp only [hQueue, List.length_cons] at hBefore
      dsimp only at hLe
      omega
  · rename_i hOthers
    split at hStep
    · cases hStep
      simp [Node.work, hIdle, hOthers, Phase.rank]
    · rename_i msg rest hQueue
      have hShorter := burden_popOther hQueue
      split at hStep
      · rename_i sender reqId hash
        cases hStep
        dsimp only at hAfter
        rw [onRecvRequest_burden] at hAfter
        omega
      · cases hStep
      · cases hStep
        dsimp only at hAfter
        omega
  · rename_i hFuture
    split at hStep
    · cases hStep
      simp [Node.work, hIdle, hFuture, Phase.rank]
    · rename_i sender p hLookup
      rcases afterDelivery_ok hStep with
        ⟨next, hCheck, hSame, -⟩
      have hLe := (deliveryCheck_resolves hCheck).burden_le
      -- its round has come, so it is not kept again
      have hPrice : parkedPrice node.cx.round p = 1 := by
        have hRound := hKept _ _ hLookup
        dsimp only at hRound
        unfold parkedPrice
        rw [hRound, if_neg (Nat.lt_irrefl _)]
      have hCard := FinMap.card_keys_erase_lt hLookup
      rw [hSame, ← hFuture] at hAfter
      unfold Context.burden at hLe hBefore hAfter
      dsimp only at hLe
      omega
  · rename_i hProps hRelays hOthers hFuture
    cases hPhaseEq : node.phase with
    | select => exact absurd hPhaseEq hPhase.1
    | drain => exact absurd hPhaseEq hPhase.2.1
    | propose => exact absurd hPhaseEq hPhase.2.2
    | props => exact absurd hPhaseEq hProps
    | relays => exact absurd hPhaseEq hRelays
    | others => exact absurd hPhaseEq hOthers
    | future => exact absurd hPhaseEq hFuture

omit [Crypto H] in
/- The reactor waits in `select`. -/
def Node.AtRest (node : Node H) : Prop :=
  node.waiting = none ∧ node.phase = .select

instance (node : Node H) : Decidable node.AtRest :=
  inferInstanceAs
    (Decidable (node.waiting = none ∧ node.phase = .select))

/- Every internal step leaves less to do. -/
theorem internalStep_work
    (hKept : KeptByRound node.cx)
    (hBusy : ¬ node.AtRest)
    (hStep : internalStep node = .ok node') :
    node'.work < node.work := by
  unfold internalStep at hStep
  split at hStep
  · rename_i hash sender hWaiting
    rcases afterDelivery_ok hStep with
      ⟨next, hDeliver, hPhase, hNext⟩
    rcases deliverWaitingChild_burden hDeliver with
      ⟨hSame, hNone⟩ | hLess
    · unfold Node.work
      rw [hSame, hPhase, hNext, hNone, hWaiting]
      simp
    · have hAfter := node'.work_le
      rw [hPhase] at hAfter
      unfold Node.work at hAfter ⊢
      rw [hWaiting]
      simp only [Option.isSome_some, if_true]
      omega
  · rename_i hIdle
    split at hStep
    · rename_i hSelect
      exact absurd ⟨hIdle, hSelect⟩ hBusy
    · rename_i hDrain
      cases hStep
      simp [Node.work, hIdle, hDrain, Phase.rank]
    · rename_i hPropose
      unfold proposeLoop at hStep
      dsimp only at hStep
      split at hStep
      · cases hStep
        simp [Node.work, hIdle, hPropose, Phase.rank]
      · rename_i batchHash batch rest hPending
        split at hStep
        · rcases Result.bind_eq_ok.mp hStep with
            ⟨proposed, hDo, hEnd⟩
          cases hEnd
          rw [doPropose_eq] at hDo
          have hLe := (acceptProposal_ok hDo).burden_le
          have hShorter := burden_proposing hPending
          unfold Node.work
          dsimp only
          omega
        · cases hStep
          simp [Node.work, hIdle, hPropose, Phase.rank]
    · rename_i hSelect hDrain hPropose
      exact processMessage_work hKept hIdle
        ⟨hSelect, hDrain, hPropose⟩ hStep

end Apollo

end LibApollo

------------------------------------------------------------
-- Turns in a Run
------------------------------------------------------------

namespace LibApollo

namespace Apollo

variable {H : Type} [DecidableEq H] [Crypto H]
variable {config : Config}
variable {node node' : Node H}
variable {past : List (Node H × Event H)}

/- The rest of a turn, in at most so many steps. -/
def runTurn : Nat → Node H → Except Panic (Node H)
| 0, node => .ok node
| steps + 1, node =>
    if node.AtRest then .ok node
    else internalStep node >>= runTurn steps

/- The iterations of loops among the steps of a run. -/
def iterations (past : List (Node H × Event H)) : Nat :=
  past.countP
    (fun taken =>
      decide (taken.2 = .internal ∧ ¬ taken.1.AtRest))

/- The messages, batches and timers among them. -/
def inputs (past : List (Node H × Event H)) : Nat :=
  past.countP (fun taken => decide (taken.2 ≠ .internal))

omit [Crypto H] in
theorem iterations_append
    (past : List (Node H × Event H))
    (node : Node H)
    (event : Event H) :
    iterations (past ++ [(node, event)]) =
      iterations past +
        (if event = .internal ∧ ¬ node.AtRest then 1
          else 0) := by
  unfold iterations
  rw [List.countP_append, List.countP_singleton]
  simp only [decide_eq_true_eq]

omit [Crypto H] in
theorem inputs_append
    (past : List (Node H × Event H))
    (node : Node H)
    (event : Event H) :
    inputs (past ++ [(node, event)]) =
      inputs past +
        (if event ≠ .internal then 1 else 0) := by
  unfold inputs
  rw [List.countP_append, List.countP_singleton]
  simp only [decide_eq_true_eq]

/- The end of a turn, when there are enough steps for it. -/
theorem runTurn_ends
    {steps : Nat}
    (hKept : KeptByRound node.cx)
    (hEnough : node.work ≤ steps) :
    (∃ panic, runTurn steps node = .error panic) ∨
      ∃ node', runTurn steps node = .ok node' ∧
        node'.AtRest := by
  induction steps generalizing node with
  | zero =>
      have hRank : node.phase.rank = 0 := by
        have hLe := node.le_work
        omega
      have hIdle : node.waiting = none := by
        unfold Node.work at hEnough
        cases hWaiting : node.waiting with
        | none => rfl
        | some pair => simp [hWaiting] at hEnough
      refine Or.inr ⟨node, rfl, hIdle, ?_⟩
      cases hPhase : node.phase with
      | select => rfl
      | _ => simp [hPhase, Phase.rank] at hRank
  | succ steps ih =>
      unfold runTurn
      by_cases hRest : node.AtRest
      · rw [if_pos hRest]
        exact Or.inr ⟨node, rfl, hRest⟩
      · rw [if_neg hRest]
        cases hStep : internalStep node with
        | error panic => exact Or.inl ⟨panic, rfl⟩
        | ok next =>
            have hLess :=
              internalStep_work hKept hRest hStep
            have hNext : step node .internal = .ok next :=
              hStep
            have hStill : next.work ≤ steps := by
              omega
            exact ih (keptByRound_step hKept hNext) hStill

omit [Crypto H] in
theorem handleMessage_burden
    (msg : ProtocolMsg H)
    (cx : Context H) :
    (handleMessage msg cx).burden = cx.burden + 6 := by
  unfold handleMessage Context.burden
  cases msg with
  | newProposal p block batch =>
      simp only [List.length_append, List.length_singleton]
      omega
  | relay sender p =>
      simp only [List.length_append, List.length_singleton]
      omega
  | request sender reqId hash =>
      simp only [List.length_append, List.length_singleton]
      omega
  | response sender reqId p block batch =>
      simp only [List.length_append, List.length_singleton]
      omega
  | blame v =>
      simp only [List.length_append, List.length_singleton]
      omega

/- What an input adds to the work of a turn. -/
theorem input_work
    {event : Event H}
    (hInput : event ≠ .internal)
    (hStep : step node event = .ok node') :
    node'.work ≤ node.work + 12 := by
  cases event with
  | internal => exact absurd rfl hInput
  | tick =>
      simp only [step] at hStep
      split at hStep
      · rename_i hSelect
        cases hStep
        have hSame :
            (if node.cx.myid = node.cx.benchMetricsNode then
              { node.cx with benchCommittedTxCount := 0 }
            else node.cx).burden = node.cx.burden := by
          split
          · rfl
          · rfl
        unfold Node.work
        dsimp only at hSame ⊢
        rw [hSame, hSelect]
        simp only [Phase.rank]
        omega
      · cases hStep
        omega
  | recv msg =>
      simp only [step] at hStep
      split at hStep
      · cases hStep
        unfold Node.work
        dsimp only
        rw [handleMessage_burden]
        simp only [Phase.rank]
        omega
      · cases hStep
        omega
  | sealed batch =>
      cases hStep
      exact Nat.le_add_right _ _
  | batch batchHash batch =>
      simp only [step] at hStep
      split at hStep
      · rename_i hSelect
        cases hStep
        unfold Node.work Context.burden
        rw [hSelect]
        simp only [List.length_append,
          List.length_singleton, Phase.rank]
        omega
      · cases hStep
        omega

/- An internal step works, or the node is at rest. -/
theorem internal_work
    (hKept : KeptByRound node.cx)
    (hStep : step node .internal = .ok node') :
    node'.work + (if node.AtRest then 0 else 1) ≤
      node.work := by
  by_cases hRest : node.AtRest
  · have hSame : internalStep node = .ok node := by
      unfold internalStep
      rw [hRest.1, hRest.2]
    rw [if_pos hRest]
    change internalStep node = .ok node' at hStep
    rw [hSame] at hStep
    cases hStep
    exact Nat.le_refl _
  · rw [if_neg hRest]
    exact internalStep_work hKept hRest hStep

/-
  For any messages, batches and timers: every turn ends or
  stops the node, and all loops together have made and will
  make in the current turn at most twelve iterations for
  each input that the node has had.
-/
theorem turn_ends
    (hTrace :
      Machine.Trace step (Node.new config) past node) :
    ((∃ panic, runTurn node.work node = .error panic) ∨
        ∃ node', runTurn node.work node = .ok node' ∧
          node'.AtRest) ∧
      iterations past + node.work ≤ 12 * inputs past := by
  have hBoth :
      KeptByRound node.cx ∧
        iterations past + node.work ≤ 12 * inputs past := by
    induction hTrace with
    | start =>
        refine ⟨keptByRound_new config, ?_⟩
        simp [iterations, inputs, Node.work, Node.new,
          Context.new, Context.tellBatcher, Context.burden,
          Phase.rank]
    | @next past s s' event hBefore hStep ih =>
        rcases ih with ⟨hKept, hPaid⟩
        refine ⟨keptByRound_step hKept hStep, ?_⟩
        rw [iterations_append, inputs_append]
        by_cases hInternal : event = .internal
        · subst hInternal
          have hLess := internal_work hKept hStep
          by_cases hRest : s.AtRest
          · rw [if_pos hRest] at hLess
            rw [if_neg (fun hBusy => hBusy.2 hRest),
              if_neg (fun hInput => hInput rfl)]
            omega
          · rw [if_neg hRest] at hLess
            rw [if_pos ⟨rfl, hRest⟩,
              if_neg (fun hInput => hInput rfl)]
            omega
        · have hMore := input_work hInternal hStep
          rw [if_neg (fun hBusy => hInternal hBusy.1),
            if_pos hInternal]
          omega
  exact ⟨runTurn_ends hBoth.1 (Nat.le_refl _), hBoth.2⟩

/- The node takes a proposal and then makes its own. -/
theorem turn_ends_third_round :
    ∃ (past : List (Node Digest × Event Digest))
        (node : Node Digest),
      Machine.Trace step (Node.new (smallConfig 1)) past
          node ∧
        past.map Prod.snd = groundedRun ∧
        inputs past = 2 ∧
        iterations past + node.work ≤ 24 := by
  have hRun :
      Machine.runCheck step (fun _ _ => true)
        (fun node => decide (node.cx.round = 3))
        (Node.new (smallConfig 1)) groundedRun = true := by
    decide +kernel
  rcases Machine.Trace.of_runCheck .start hRun with
    ⟨past, node, hTrace, hEvents, _, _, hFinal⟩
  have hInputs : inputs past = 2 := by
    have hMap :
        inputs past =
          (past.map Prod.snd).countP
            (fun event => decide (event ≠ .internal)) := by
      rw [List.countP_map]
      rfl
    rw [hMap, hEvents]
    rfl
  rcases turn_ends hTrace with ⟨_, hPaid⟩
  rw [List.nil_append, hInputs] at hPaid
  exact ⟨past, node, hTrace, hEvents, hInputs, hPaid⟩

end Apollo

end LibApollo
