import LibApollo.Base.Result
import LibApollo.Base.Run
import LibApollo.Synchs.Context
import LibApollo.Types.Symbolic

/-
  The clients of Sync HotStuff and Opt Sync, which run the
  same loop.

  A client sends transactions and counts the pushes of a
  block, whoever sends them.  The run is observed: a session
  pairs the client with the pushes it has received and their
  senders, which the client does not look at.  A block that
  is pushed has been decoded, so its hash is that of its
  content.

  Key definitions include:
    * `Client`, `Client.onNewBlock`, `Client.handle`
    * `Session`, `Session.step`
    * `Session.Backed`
    * `Session.DistinctPushers`, `Session.Affordable`

  Key theorems include:
    * `Session.backed_step_iff`
    * `Session.step_underflow_iff`
    * `Session.counts_nodes_iff`
-/

------------------------------------------------------------
-- The Client
------------------------------------------------------------

namespace LibApollo

namespace Synchs

/- The part of a client's configuration the loop reads. -/
structure ClientConfig where
  numFaults : Nat
  blockSize : Nat
  metric : Nat
  window : Nat

/- `returned` is set when enough commands are counted. -/
structure Client (H : Type) [DecidableEq H] where
  pending : Nat
  timeMap : FinMap H Nat
  countMap : FinMap H Nat
  finishedMap : Finset H
  latencyMap : FinMap H (Nat × Nat)
  numCmds : Nat
  returned : Bool

/-
  Why the loop does not go on.  The command counter is
  unsigned: a subtraction below zero stops the model.
-/
inductive ClientStop where
| underflow
| listenerClosed
| producerClosed
| disabled
| returned
deriving DecidableEq, Repr

/- What the loop waits for; times are read off a clock. -/
inductive ClientEvent (H : Type) where
| produced (tx : Option Transaction) (now : Nat)
| pushed (node : Replica) (msg : ClientMsg H) (now : Nat)
| badBytes
| closed
deriving DecidableEq, Repr

namespace Client

variable {H : Type} [DecidableEq H]

def new (config : ClientConfig) : Client H where
  pending := config.window
  timeMap := ∅
  countMap := ∅
  finishedMap := ∅
  latencyMap := ∅
  numCmds := 0
  returned := false

/- The pushes counted for a block. -/
def count (client : Client H) (hash : H) : Nat :=
  (client.countMap.lookup hash).getD 0

/- One transaction hash of a committed block. -/
def recordTx
    (now : Nat)
    (client : Client H)
    (hash : H) : Except ClientStop (Client H) :=
  match client.timeMap.lookup hash with
  | some old =>
      .ok
        { client with
          latencyMap :=
            client.latencyMap.insert hash (old, now) }
  | none =>
      if client.numCmds = 0 then
        .error .underflow
      else
        .ok { client with numCmds := client.numCmds - 1 }

/- The check at the end of an iteration. -/
def checkMetric
    (config : ClientConfig)
    (client : Client H) : Client H :=
  { client with
    returned := decide (config.metric < client.numCmds) }

/-
  A block is counted.  Before it has been pushed `f + 1`
  times, and after it was finished, nothing else happens.
-/
def onNewBlock
    (config : ClientConfig)
    (block : Block H)
    (txHashes : List H)
    (now : Nat)
    (client : Client H) :
    Except ClientStop (Client H) :=
  let count := client.count block.hash + 1
  let counted :=
    { client with
      countMap :=
        client.countMap.insert block.hash count }
  if count < config.numFaults + 1 then
    .ok counted
  else if block.hash ∈ client.finishedMap then
    .ok counted
  else do
    let recorded ←
      txHashes.foldlM (recordTx now)
        { counted with
          pending := counted.pending + config.blockSize
          numCmds := counted.numCmds + config.blockSize }
    .ok
      (checkMetric config
        { recorded with
          finishedMap :=
            insert block.hash recorded.finishedMap })

/- One iteration of the loop. -/
def handle
    [Crypto H]
    (config : ClientConfig)
    (client : Client H) :
    ClientEvent H → Except ClientStop (Client H)
| .produced tx now =>
    if client.pending = 0 then
      .error .disabled
    else
      match tx with
      | none => .error .producerClosed
      | some tx =>
          .ok
            (checkMetric config
              { client with
                timeMap :=
                  client.timeMap.insert
                    (Crypto.txHash tx) now
                pending := client.pending - 1 })
| .pushed _ (.newBlock block txHashes _) now =>
    onNewBlock config block txHashes now client
| .pushed _ (.request _) _ => .ok client
| .pushed _ (.response _ _) _ => .ok client
| .badBytes => .ok (checkMetric config client)
| .closed => .error .listenerClosed

end Client

/- A client with the pushes it has received, in order. -/
structure Session (H : Type) [DecidableEq H] where
  client : Client H
  pushes : List (Replica × H)

namespace Session

variable {H : Type} [DecidableEq H]

def new (config : ClientConfig) : Session H where
  client := Client.new config
  pushes := []

/- The push an event stands for. -/
def pushOf : ClientEvent H → List (Replica × H)
| .pushed node (.newBlock block _ _) _ =>
    [(node, block.hash)]
| _ => []

def step
    [Crypto H]
    (config : ClientConfig) :
    Machine (Session H) (ClientEvent H) ClientStop :=
  fun session event =>
    if session.client.returned then
      .error .returned
    else do
      let client ← session.client.handle config event
      .ok
        { client := client
          pushes := session.pushes ++ pushOf event }

/- The senders of the pushes of a block. -/
def pushersOf
    (session : Session H)
    (hash : H) : List Replica :=
  (session.pushes.filter (fun push => push.2 = hash)).map
    Prod.fst

/- Finished blocks were pushed by `f + 1` nodes. -/
def Backed
    (config : ClientConfig)
    (session : Session H) : Prop :=
  ∀ hash ∈ session.client.finishedMap,
    config.numFaults + 1 ≤
      (session.pushersOf hash).toFinset.card

/-
  The push that makes `f + 1` pushes of a block: no node is
  among their senders twice.
-/
def DistinctPushers
    (config : ClientConfig)
    (session : Session H) : ClientEvent H → Prop
| .pushed node (.newBlock block _ _) _ =>
    (session.pushersOf block.hash).length =
        config.numFaults →
      (session.pushersOf block.hash ++ [node]).Nodup
| _ => True

instance
    (config : ClientConfig)
    (session : Session H)
    (event : ClientEvent H) :
    Decidable (DistinctPushers config session event) :=
  match event with
  | .pushed _ (.newBlock _ _ _) _ =>
      inferInstanceAs (Decidable (_ = _ → List.Nodup _))
  | .pushed _ (.request _) _ => .isTrue trivial
  | .pushed _ (.response _ _) _ => .isTrue trivial
  | .produced _ _ => .isTrue trivial
  | .badBytes => .isTrue trivial
  | .closed => .isTrue trivial

/- The listed hashes that the client has not sent. -/
def unknown
    (client : Client H)
    (txHashes : List H) : List H :=
  txHashes.filter
    (fun hash => client.timeMap.lookup hash = none)

/-
  The push that makes `f + 1` pushes of a block: the hashes
  that the client has not sent are no more than the commands
  it has counted, those of the block included.
-/
def Affordable
    (config : ClientConfig)
    (session : Session H) : ClientEvent H → Prop
| .pushed _ (.newBlock block txHashes _) _ =>
    (session.pushersOf block.hash).length =
        config.numFaults →
      (unknown session.client txHashes).length ≤
        session.client.numCmds + config.blockSize
| _ => True

end Session

end Synchs

end LibApollo

------------------------------------------------------------
-- Counting Pushes
------------------------------------------------------------

namespace LibApollo

namespace Synchs

namespace Client

variable {H : Type} [DecidableEq H]
variable {client client' : Client H}

/- What recording transactions leaves alone. -/
structure SameCounts (client client' : Client H) : Prop where
  timeMap : client'.timeMap = client.timeMap
  countMap : client'.countMap = client.countMap
  finishedMap : client'.finishedMap = client.finishedMap

theorem SameCounts.trans
    {mid : Client H}
    (hFirst : SameCounts client mid)
    (hSecond : SameCounts mid client') :
    SameCounts client client' where
  timeMap := hSecond.timeMap.trans hFirst.timeMap
  countMap := hSecond.countMap.trans hFirst.countMap
  finishedMap :=
    hSecond.finishedMap.trans hFirst.finishedMap

/- A known hash is free, an unknown one costs a command. -/
def cost (client : Client H) (hash : H) : Nat :=
  if client.timeMap.lookup hash = none then 1 else 0

theorem unknown_cons
    (client : Client H)
    (hash : H)
    (txHashes : List H) :
    (Session.unknown client (hash :: txHashes)).length =
      client.cost hash +
        (Session.unknown client txHashes).length := by
  unfold Session.unknown cost
  by_cases hNone : client.timeMap.lookup hash = none
  · simp [hNone, Nat.add_comm]
  · simp [hNone]

/- Recording one hash fails when it cannot be paid. -/
theorem recordTx_cases
    (now : Nat)
    (client : Client H)
    (hash : H) :
    (client.numCmds < client.cost hash ∧
        recordTx now client hash = .error .underflow) ∨
      ∃ next,
        recordTx now client hash = .ok next ∧
          SameCounts client next ∧
          next.numCmds + client.cost hash =
            client.numCmds := by
  unfold recordTx cost
  cases hSent : client.timeMap.lookup hash with
  | some old =>
      exact Or.inr ⟨_, rfl, ⟨rfl, rfl, rfl⟩, rfl⟩
  | none =>
      by_cases hZero : client.numCmds = 0
      · left
        simp [hZero]
      · right
        simp only [hZero, if_false, if_true]
        refine ⟨_, rfl, ⟨rfl, rfl, rfl⟩, ?_⟩
        dsimp only
        omega

/- Recording fails when the unknown hashes are too many. -/
theorem recordLoop_spec
    (now : Nat)
    (txHashes : List H)
    (client : Client H) :
    (client.numCmds <
        (Session.unknown client txHashes).length ∧
      txHashes.foldlM (recordTx now) client =
        .error .underflow) ∨
    ((Session.unknown client txHashes).length ≤
        client.numCmds ∧
      ∃ after,
        txHashes.foldlM (recordTx now) client = .ok after ∧
          SameCounts client after) := by
  induction txHashes generalizing client with
  | nil =>
      right
      exact ⟨Nat.zero_le _, client, rfl, rfl, rfl, rfl⟩
  | cons hash txHashes ih =>
      rw [List.foldlM_cons, unknown_cons]
      rcases recordTx_cases now client hash with
        ⟨hPoor, hFails⟩ | ⟨next, hNext, hSame, hPaid⟩
      · left
        rw [hFails]
        exact ⟨by omega, rfl⟩
      · rw [hNext]
        have hUnknown :
            Session.unknown next txHashes =
              Session.unknown client txHashes := by
          unfold Session.unknown
          rw [hSame.timeMap]
        rcases ih next with
          ⟨hMany, hFails⟩ | ⟨hFew, after, hOk, hLater⟩
        · rw [hUnknown] at hMany
          exact Or.inl ⟨by omega, hFails⟩
        · rw [hUnknown] at hFew
          exact Or.inr ⟨by omega, after, hOk,
            hSame.trans hLater⟩

/- The effect of a push that is taken. -/
structure Counts
    (config : ClientConfig)
    (hash : H)
    (client client' : Client H) : Prop where
  count :
    ∀ other,
      client'.count other =
        client.count other + if other = hash then 1 else 0
  finished :
    ∀ other,
      other ∈ client'.finishedMap ↔
        other ∈ client.finishedMap ∨
          (other = hash ∧
            config.numFaults ≤ client.count hash)

/- The block of a push is counted. -/
theorem count_insert
    {hash : H}
    (hCounts :
      client'.countMap =
        client.countMap.insert hash (client.count hash + 1))
    (other : H) :
    client'.count other =
      client.count other + if other = hash then 1 else 0 := by
  unfold count at hCounts ⊢
  rw [hCounts, FinMap.lookup_insert_eq]
  by_cases hOther : other = hash
  · rw [if_pos hOther, if_pos hOther, hOther]
    rfl
  · rw [if_neg hOther, if_neg hOther, Nat.add_zero]

/- A push that finishes its block and costs too much. -/
structure Overdraws
    (config : ClientConfig)
    (hash : H)
    (txHashes : List H)
    (client : Client H) : Prop where
  pushed : config.numFaults ≤ client.count hash
  unfinished : hash ∉ client.finishedMap
  poor :
    client.numCmds + config.blockSize <
      (Session.unknown client txHashes).length

/- Every other push is taken. -/
theorem onNewBlock_spec
    (config : ClientConfig)
    (block : Block H)
    (txHashes : List H)
    (now : Nat)
    (client : Client H) :
    (Overdraws config block.hash txHashes client ∧
        onNewBlock config block txHashes now client =
          .error .underflow) ∨
      (¬ Overdraws config block.hash txHashes client ∧
        ∃ after,
          onNewBlock config block txHashes now client =
              .ok after ∧
            Counts config block.hash client after) := by
  unfold onNewBlock
  dsimp only
  by_cases hFew :
      client.count block.hash + 1 < config.numFaults + 1
  · right
    rw [if_pos hFew]
    refine ⟨fun hOver => ?_, _, rfl, count_insert rfl, ?_⟩
    · have hPushed := hOver.pushed
      omega
    intro other
    constructor
    · exact Or.inl
    · intro hEither
      rcases hEither with hOld | ⟨_, hMany⟩
      · exact hOld
      · omega
  · rw [if_neg hFew]
    have hMany :
        config.numFaults ≤ client.count block.hash := by
      omega
    by_cases hDone : block.hash ∈ client.finishedMap
    · right
      rw [if_pos hDone]
      refine ⟨fun hOver => hOver.unfinished hDone, _, rfl,
        count_insert rfl, ?_⟩
      intro other
      constructor
      · exact Or.inl
      · intro hEither
        rcases hEither with hOld | ⟨rfl, _⟩
        · exact hOld
        · exact hDone
    · rw [if_neg hDone]
      rcases recordLoop_spec now txHashes
          { client with
            countMap :=
              client.countMap.insert block.hash
                (client.count block.hash + 1)
            pending := client.pending + config.blockSize
            numCmds :=
              client.numCmds + config.blockSize } with
        ⟨hUnknown, hFails⟩ | ⟨hUnknown, after, hOk, hSame⟩
      · left
        rw [hFails]
        exact ⟨⟨hMany, hDone, hUnknown⟩, rfl⟩
      · right
        rw [hOk]
        refine ⟨fun hOver =>
          Nat.not_lt.mpr hUnknown hOver.poor, _, rfl,
          count_insert hSame.countMap, ?_⟩
        intro other
        change other ∈ insert block.hash
          after.finishedMap ↔ _
        rw [hSame.finishedMap, Finset.mem_insert]
        constructor
        · intro hEither
          rcases hEither with hNew | hOld
          · exact Or.inr ⟨hNew, hMany⟩
          · exact Or.inl hOld
        · intro hEither
          rcases hEither with hOld | ⟨hNew, _⟩
          · exact Or.inr hOld
          · exact Or.inl hNew

end Client

end Synchs

end LibApollo

------------------------------------------------------------
-- Counting Nodes
------------------------------------------------------------

namespace LibApollo

namespace Synchs

namespace Session

open Machine.Trace

variable {H : Type} [DecidableEq H]
variable {config : ClientConfig}
variable {session session' : Session H}
variable {event : ClientEvent H}

/- The tallies are those of the pushes, finished or not. -/
structure Tallied
    (config : ClientConfig)
    (session : Session H) : Prop where
  counted :
    ∀ hash,
      session.client.count hash =
        (session.pushersOf hash).length
  finished :
    ∀ hash,
      hash ∈ session.client.finishedMap ↔
        config.numFaults < (session.pushersOf hash).length

theorem tallied_new
    (config : ClientConfig) :
    Tallied config (new config : Session H) where
  counted := fun _ => rfl
  finished := by
    intro hash
    change hash ∈ (∅ : Finset H) ↔ config.numFaults < 0
    simp

theorem backed_new
    (config : ClientConfig) :
    Backed config (new config : Session H) := by
  intro hash hHash
  exact absurd hHash (Finset.notMem_empty hash)

/- One more push of a block. -/
theorem pushersOf_append
    {node : Replica}
    {hash : H}
    (hPushes :
      session'.pushes = session.pushes ++ [(node, hash)])
    (other : H) :
    session'.pushersOf other =
      if other = hash then
        session.pushersOf other ++ [node]
      else
        session.pushersOf other := by
  unfold pushersOf
  rw [hPushes, List.filter_append, List.map_append]
  by_cases hOther : other = hash
  · simp [hOther]
  · simp [hOther, Ne.symm hOther]

/- No push, and the senders are the same. -/
theorem pushersOf_same
    (hPushes : session'.pushes = session.pushes)
    (other : H) :
    session'.pushersOf other = session.pushersOf other := by
  unfold pushersOf
  rw [hPushes]

variable [Crypto H]

/- A step is a push that is counted, or counts nothing. -/
theorem step_cases
    (hStep : step config session event = .ok session') :
    (∃ node block txHashes payload now,
      event =
          .pushed node (.newBlock block txHashes payload)
            now ∧
        Client.Counts config block.hash session.client
          session'.client ∧
        session'.pushes =
          session.pushes ++ [(node, block.hash)]) ∨
      (DistinctPushers config session event ∧
        Affordable config session event ∧
        session'.client.countMap =
          session.client.countMap ∧
        session'.client.finishedMap =
          session.client.finishedMap ∧
        session'.pushes = session.pushes) := by
  unfold step at hStep
  split at hStep
  · cases hStep
  rcases Result.bind_eq_ok.mp hStep with
    ⟨client, hHandle, hSession⟩
  cases hSession
  cases event with
  | produced tx now =>
      right
      by_cases hFull : session.client.pending = 0
      · simp [Client.handle, hFull] at hHandle
      · cases tx with
        | none => simp [Client.handle, hFull] at hHandle
        | some tx =>
            simp only [Client.handle, hFull, if_false]
              at hHandle
            cases hHandle
            exact ⟨trivial, trivial, rfl, rfl,
              List.append_nil _⟩
  | pushed node msg now =>
      cases msg with
      | newBlock block txHashes payload =>
          left
          refine ⟨node, block, txHashes, payload, now, rfl,
            ?_, rfl⟩
          rcases Client.onNewBlock_spec config block txHashes
              now session.client with
            ⟨_, hFails⟩ | ⟨_, after, hOk, hCounts⟩
          · rw [Client.handle, hFails] at hHandle
            cases hHandle
          · rw [Client.handle, hOk] at hHandle
            cases hHandle
            exact hCounts
      | request hash =>
          right
          cases hHandle
          exact ⟨trivial, trivial, rfl, rfl,
            List.append_nil _⟩
      | response hash block =>
          right
          cases hHandle
          exact ⟨trivial, trivial, rfl, rfl,
            List.append_nil _⟩
  | badBytes =>
      right
      cases hHandle
      exact ⟨trivial, trivial, rfl, rfl,
        List.append_nil _⟩
  | closed => cases hHandle

theorem Tallied.step
    (hTallied : Tallied config session)
    (hStep :
      Session.step config session event = .ok session') :
    Tallied config session' := by
  rcases step_cases hStep with
    ⟨node, block, _, _, _, _, hCounts, hPushes⟩ |
      ⟨_, _, hCount, hFinished, hPushes⟩
  · have hPushers :
        ∀ hash,
          (session'.pushersOf hash).length =
            (session.pushersOf hash).length +
              if hash = block.hash then 1 else 0 := by
      intro hash
      rw [pushersOf_append hPushes]
      by_cases hHash : hash = block.hash
      · simp [hHash]
      · simp [hHash]
    refine ⟨?_, ?_⟩
    · intro hash
      rw [hCounts.count, hPushers, hTallied.counted]
    · intro hash
      rw [hCounts.finished, hTallied.finished,
        hTallied.counted, hPushers]
      by_cases hHash : hash = block.hash
      · subst hHash
        simp only [true_and, if_true]
        omega
      · simp only [hHash, false_and, or_false, if_false,
          Nat.add_zero]
  · refine ⟨?_, ?_⟩
    · intro hash
      rw [Client.count, hCount, pushersOf_same hPushes]
      exact hTallied.counted hash
    · intro hash
      rw [hFinished, pushersOf_same hPushes]
      exact hTallied.finished hash

/-
  A step keeps finished blocks backed exactly when the push
  that finishes a block does not repeat a sender.
-/
theorem backed_step_iff
    (hTallied : Tallied config session)
    (hBacked : Backed config session)
    (hStep : step config session event = .ok session') :
    Backed config session' ↔
      DistinctPushers config session event := by
  have hTallied' := hTallied.step hStep
  rcases step_cases hStep with
    ⟨node, block, txHashes, payload, now, rfl, _, hPushes⟩ |
      ⟨hDistinct, _, _, hFinished, hPushes⟩
  · have hPushers :
        session'.pushersOf block.hash =
          session.pushersOf block.hash ++ [node] := by
      rw [pushersOf_append hPushes, if_pos rfl]
    constructor
    · intro hBacked' hLength
      have hFinished :
          block.hash ∈ session'.client.finishedMap := by
        rw [hTallied'.finished, hPushers,
          List.length_append, List.length_singleton]
        omega
      have hMany := hBacked' _ hFinished
      rw [hPushers] at hMany
      have hFew :=
        List.toFinset_card_le
          (session.pushersOf block.hash ++ [node])
      rw [List.length_append, List.length_singleton,
        hLength] at hFew
      apply Multiset.coe_nodup.mp
      apply Multiset.toFinset_card_eq_card_iff_nodup.mp
      rw [Multiset.coe_card, List.length_append,
        List.length_singleton, hLength]
      exact Nat.le_antisymm hFew hMany
    · intro hDistinct hash hFinished
      rw [hTallied'.finished] at hFinished
      by_cases hHash : hash = block.hash
      · subst hHash
        rw [hPushers, List.length_append,
          List.length_singleton] at hFinished
        rw [hPushers]
        by_cases hLast :
            (session.pushersOf block.hash).length =
              config.numFaults
        · rw [List.toFinset_card_of_nodup
            (hDistinct hLast), List.length_append,
            List.length_singleton, hLast]
        · have hBefore :
              block.hash ∈ session.client.finishedMap := by
            rw [hTallied.finished]
            omega
          apply Nat.le_trans (hBacked _ hBefore)
          apply Finset.card_le_card
          rw [List.toFinset_append]
          exact Finset.subset_union_left
      · rw [pushersOf_append hPushes, if_neg hHash,
          ← hTallied.finished] at hFinished
        rw [pushersOf_append hPushes, if_neg hHash]
        exact hBacked _ hFinished
  · refine iff_of_true ?_ hDistinct
    intro hash hHash
    rw [hFinished] at hHash
    rw [pushersOf_same hPushes]
    exact hBacked hash hHash

/- The command counter underflows at no other pushes. -/
theorem step_underflow_iff
    (hTallied : Tallied config session)
    (hRuns : session.client.returned = false) :
    step config session event = .error .underflow ↔
      ¬ Affordable config session event := by
  have hHandle :
      step config session event = .error .underflow ↔
        session.client.handle config event =
          .error .underflow := by
    unfold step
    rw [hRuns]
    cases hNext : session.client.handle config event with
    | error stop => simp [bind, Except.bind]
    | ok client => simp [bind, Except.bind]
  rw [hHandle]
  cases event with
  | produced tx now =>
      refine iff_of_false ?_ (fun hNot => hNot trivial)
      by_cases hFull : session.client.pending = 0
      · simp [Client.handle, hFull]
      · cases tx with
        | none => simp [Client.handle, hFull]
        | some tx => simp [Client.handle, hFull]
  | pushed node msg now =>
      cases msg with
      | newBlock block txHashes payload =>
          have hCount := hTallied.counted block.hash
          have hDone := hTallied.finished block.hash
          rw [Client.handle, Affordable]
          rcases Client.onNewBlock_spec config block
              txHashes now session.client with
            ⟨⟨hMany, hOpen, hUnknown⟩, hFails⟩ |
              ⟨hNot, after, hOk, _⟩
          · refine iff_of_true hFails ?_
            intro hAffordable
            rw [hDone] at hOpen
            have := hAffordable (by omega)
            omega
          · rw [hOk]
            refine iff_of_false (by simp) ?_
            intro hCostly
            apply hCostly
            intro hLast
            by_contra hUnknown
            apply hNot
            refine ⟨by omega, ?_, by omega⟩
            rw [hDone]
            omega
      | request hash =>
          exact iff_of_false (by simp [Client.handle])
            (fun hNot => hNot trivial)
      | response hash block =>
          exact iff_of_false (by simp [Client.handle])
            (fun hNot => hNot trivial)
  | badBytes =>
      exact iff_of_false (by simp [Client.handle])
        (fun hNot => hNot trivial)
  | closed =>
      exact iff_of_false (by simp [Client.handle])
        (fun hNot => hNot trivial)

/-
  The client counts pushes and not nodes.  In a run its
  finished blocks are backed by `f + 1` nodes as long as the
  pushes that finish a block come from distinct nodes, and
  the next push underflows the command counter when it
  finishes a block and lists too many unknown hashes.
-/
theorem counts_nodes_iff
    {past : List (Session H × ClientEvent H)}
    (hTrace :
      Machine.Trace (step config) (new config) past
        session) :
    ((∀ state, Visited past session state →
          Backed config state) ↔
        ∀ taken ∈ past,
          DistinctPushers config taken.1 taken.2) ∧
      ∀ event,
        session.client.returned = false →
          (step config session event = .error .underflow ↔
            ¬ Affordable config session event) := by
  have hTallied :
      ∀ state, Visited past session state →
        Tallied config state := by
    refine hTrace.forall_visited (Tallied config) ?_
      (tallied_new config)
      (fun _ _ _ hBefore (_ : True) hOk =>
        hBefore.step hOk)
    intro taken hTaken
    trivial
  constructor
  · have hBoth :
        (∀ state, Visited past session state →
            Tallied config state ∧
              Backed config state) ↔
          ∀ taken ∈ past,
            DistinctPushers config taken.1 taken.2 := by
      apply hTrace.forall_visited_iff
        (fun state =>
          Tallied config state ∧ Backed config state)
        ⟨tallied_new config, backed_new config⟩
      intro state state' event hBefore hOk
      rw [← backed_step_iff hBefore.1 hBefore.2 hOk]
      exact and_iff_right (hBefore.1.step hOk)
    rw [← hBoth]
    constructor
    · intro hBacked state hVisited
      exact ⟨hTallied state hVisited,
        hBacked state hVisited⟩
    · intro hAll state hVisited
      exact (hAll state hVisited).2
  · intro event hRuns
    exact step_underflow_iff (hTallied _ (Or.inl rfl)) hRuns

/- One fault among three nodes, blocks of one command. -/
def threeNodes : ClientConfig where
  numFaults := 1
  blockSize := 1
  metric := 10
  window := 4

/- A push of a block that lists some hashes. -/
def pushFrom
    (node : Replica)
    (txHashes : List Digest) : ClientEvent Digest :=
  .pushed node
    (.newBlock (Block.init (Block.withBatch []))
      txHashes [])
    0

/- The block that is pushed. -/
def pushedHash : Digest :=
  (Block.init (Block.withBatch ([] : Digest))).hash

/-
  One of three nodes pushes a block twice and finishes it
  alone.  Its second push can also list two hashes that the
  client has not sent.
-/
theorem one_node_finishes_block :
    (∃ (past : List
          (Session Digest × ClientEvent Digest))
        (s : Session Digest),
      Machine.Trace (step threeNodes) (new threeNodes)
          past s ∧
        past.map Prod.snd = [pushFrom 2 [], pushFrom 2 []] ∧
        pushedHash ∈ s.client.finishedMap ∧
        (s.pushersOf pushedHash).toFinset = {2} ∧
        ¬ Backed threeNodes s) ∧
      ∃ once : Session Digest,
        step threeNodes (new threeNodes) (pushFrom 2 []) =
            .ok once ∧
          step threeNodes once (pushFrom 2 [[1], [2]]) =
            .error .underflow := by
  constructor
  · have hRun :
        Machine.runCheck (step threeNodes)
          (fun _ _ => true)
          (fun s =>
            decide (pushedHash ∈ s.client.finishedMap) &&
              decide ((s.pushersOf pushedHash).toFinset =
                {2}))
          (new threeNodes)
          [pushFrom 2 [], pushFrom 2 []] = true := by
      decide +kernel
    rcases Machine.Trace.of_runCheck .start hRun with
      ⟨past, s, hTrace, hEvents, _, _, hFinal⟩
    simp only [Bool.and_eq_true, decide_eq_true_eq]
      at hFinal
    rcases hFinal with ⟨hFinished, hOne⟩
    refine ⟨past, s, hTrace, hEvents, hFinished, hOne, ?_⟩
    intro hBacked
    have hTwo := hBacked pushedHash hFinished
    rw [hOne] at hTwo
    simp [threeNodes] at hTwo
  · exact ⟨_, rfl, rfl⟩

/- Two nodes push a block, which the client finishes. -/
theorem two_nodes_finish_block :
    ∃ (past : List
          (Session Digest × ClientEvent Digest))
        (s : Session Digest),
      Machine.Trace (step threeNodes) (new threeNodes)
          past s ∧
        past.map Prod.snd = [pushFrom 0 [], pushFrom 1 []] ∧
        pushedHash ∈ s.client.finishedMap ∧
        s.client.returned = false ∧
        Backed threeNodes s ∧
        step threeNodes s (pushFrom 2 [[1], [2]]) ≠
          .error .underflow := by
  have hRun :
      Machine.runCheck (step threeNodes)
        (fun s event =>
          decide (DistinctPushers threeNodes s event))
        (fun s =>
          decide (pushedHash ∈ s.client.finishedMap) &&
            !s.client.returned &&
            decide
              ((s.pushersOf pushedHash).length =
                threeNodes.numFaults + 1))
        (new threeNodes)
        [pushFrom 0 [], pushFrom 1 []] = true := by
    decide +kernel
  rcases Machine.Trace.of_runCheck .start hRun with
    ⟨past, s, hTrace, hEvents, _, hChecks, hFinal⟩
  simp only [Bool.and_eq_true, decide_eq_true_eq,
    Bool.not_eq_true'] at hFinal
  rcases hFinal with ⟨⟨hFinished, hRuns⟩, hLength⟩
  have hSpec := counts_nodes_iff hTrace
  refine ⟨past, s, hTrace, hEvents, hFinished, hRuns, ?_,
    ?_⟩
  · refine hSpec.1.mpr ?_ s (Or.inl rfl)
    intro taken hTaken
    exact of_decide_eq_true (hChecks taken hTaken)
  · intro hUnderflow
    apply (hSpec.2 _ hRuns).mp hUnderflow
    intro hLast
    change (s.pushersOf pushedHash).length = _ at hLast
    omega

end Session

end Synchs

end LibApollo
