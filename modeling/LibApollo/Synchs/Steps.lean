import LibApollo.Synchs.Refinement

/-
  What a step of the reactor does, said once for both
  protocols, and what the vote handlers can do.

  Key definitions include:
    * `Protocol.Steps`
    * `Ledger.Follows`

  Key theorems include:
    * `Protocol.step_ok`
    * `Protocol.Refines.follows`
    * `checkVote_some`
-/

------------------------------------------------------------
-- Steps of the Reactor
------------------------------------------------------------

namespace LibApollo

namespace Synchs

variable {H C : Type} [DecidableEq H] [Crypto H]

/- The ways in which a node can take a step. -/
inductive Protocol.Steps
    (protocol : Protocol H C)
    (node : Node C) : Event H → Node C → Prop where
| idle (event : Event H) (phase : Phase) :
    Steps protocol node event { node with phase := phase }
| recv (msg : ProtocolMsg H) (cx : C) :
    node.phase = .select →
      protocol.processMsg msg node.cx = .ok cx →
      Steps protocol node (.recv msg)
        { cx := cx, phase := .propose }
| batch (batchHash : H) (batch : Batch) :
    Steps protocol node (.batch batchHash batch)
      { cx :=
          protocol.lift (queueBatch batchHash batch) node.cx
        phase := .propose }
| timer (index : Nat) (p : Propose H) :
    node.phase = .select →
      (protocol.base node.cx).commitQueue[index]? = some p →
      Steps protocol node (.timer index)
        { cx :=
            protocol.lift
              (fun cx => onCommit p (removeTimer index cx))
              node.cx
          phase := .propose }
| sealed (batch : Batch) :
    Steps protocol node (.sealed batch)
      { node with
        cx :=
          protocol.lift (·.persistBatch batch.hash batch)
            node.cx }
| propose (batchHash : H) (batch : Batch)
    (rest : List (H × Batch)) (cx : C) :
    (protocol.base node.cx).pendingBatches =
        (batchHash, batch) :: rest →
      (protocol.base node.cx).nextLeader =
        (protocol.base node.cx).myid →
      protocol.propose batchHash batch
          (protocol.lift (keepBatches rest) node.cx) =
        .ok cx →
      Steps protocol node .internal { node with cx := cx }

theorem Protocol.proposeLoop_ok
    {protocol : Protocol H C}
    {node node' : Node C}
    (hLoop : protocol.proposeLoop node = .ok node') :
    protocol.Steps node .internal node' := by
  unfold Protocol.proposeLoop at hLoop
  dsimp only at hLoop
  split at hLoop
  · cases hLoop
    exact .idle _ _
  · rename_i batchHash batch rest hPending
    split at hLoop
    · rename_i hGuard
      rcases Result.map_eq_ok.mp hLoop with
        ⟨proposed, hPropose, rfl⟩
      exact .propose batchHash batch rest proposed hPending
        hGuard.1 hPropose
    · cases hLoop
      exact .idle _ _

/- What a successful step did. -/
theorem Protocol.step_ok
    {protocol : Protocol H C}
    {event : Event H}
    {node node' : Node C}
    (hStep : protocol.step node event = .ok node') :
    protocol.Steps node event node' := by
  unfold Protocol.step at hStep
  split at hStep
  · rename_i msg hPhase
    rcases Result.map_eq_ok.mp hStep with
      ⟨processed, hProcess, rfl⟩
    exact .recv msg processed hPhase hProcess
  · cases hStep
    exact .batch _ _
  · split at hStep
    · cases hStep
      exact .idle _ node.phase
    · rename_i index hPhase _ p hTimer
      cases hStep
      exact .timer index p hPhase hTimer
  · cases hStep
    exact .sealed _
  · exact Protocol.proposeLoop_ok hStep
  · cases hStep
    exact .idle _ node.phase

end Synchs

end LibApollo

------------------------------------------------------------
-- What No Step Changes
------------------------------------------------------------

namespace LibApollo

namespace Synchs

variable {H C : Type} [DecidableEq H] [Crypto H]
variable {config : Config}

omit [Crypto H] in
/- The ledger of a node in the view it started in. -/
structure Ledger.Follows
    (config : Config)
    (ledger : Ledger H) : Prop where
  myid : ledger.myid = config.id
  leader : ledger.leader = 0
  view : ledger.view = 0
  numNodes : ledger.numNodes = config.numNodes
  pubKeyMap : ledger.pubKeyMap = config.pkMap

theorem Ledger.Follows.step
    {ledger ledger' : Ledger H}
    {event : Event H}
    {movesOn : Bool}
    (hFollows : ledger.Follows config)
    (hStep : Ledger.Step movesOn event ledger ledger') :
    ledger'.Follows config := by
  cases hStep with
  | skip => exact hFollows
  | queue => exact { hFollows with }
  | deliver => exact { hFollows with }
  | propose => exact { hFollows with }
  | commit => exact { hFollows with }

theorem follows_new
    (config : Config) :
    (Context.new config : Context H).ledger.Follows
      config :=
  ⟨rfl, rfl, rfl, rfl, rfl⟩

/- A node never leaves its view. -/
theorem Protocol.Refines.follows
    {protocol : Protocol H C}
    {movesOn : Bool}
    {guard : Node C → Event H → Prop}
    {start node : Node C}
    (hRefines : protocol.Refines movesOn)
    (hStart :
      (protocol.base start.cx).ledger.Follows config)
    (hReach :
      Machine.Reach protocol.step guard start node) :
    (protocol.base node.cx).ledger.Follows config := by
  apply hReach.invariant
    (fun node =>
      (protocol.base node.cx).ledger.Follows config) hStart
  intro s s' event hFollows _ hStep
  exact hFollows.step (hRefines.step hStep)

end Synchs

end LibApollo

------------------------------------------------------------
-- Votes
------------------------------------------------------------

namespace LibApollo

namespace Synchs

variable {H : Type} [DecidableEq H]
variable {c : Certificate H} {cx cx' : Context H}
variable {hash : H}

/- Everything the addition of a single vote can do. -/
theorem addVote_ok
    {vote : Vote}
    (hSingle : c.votes = [vote])
    (hAdd : addVote c hash cx = .ok cx') :
    (cx' = cx ∧ (cx.certMap.lookup hash).isSome = true) ∨
      (cx.certMap.lookup hash = none ∧
        ((cx.voteMap.lookup hash = none ∧
            cx' =
              { cx with
                voteMap := cx.voteMap.insert hash c }) ∨
          ∃ old,
            cx.voteMap.lookup hash = some old ∧
              let cert : Certificate H :=
                { old with votes := old.votes ++ [vote] }
              (cx.numFaults < cert.votes.length ∧
                cx' =
                  { cx with
                    voteMap := cx.voteMap.erase hash
                    certMap := cx.certMap.insert hash cert
                    lastSeenCert := cert }) ∨
              cx' =
                { cx with
                  voteMap :=
                    (cx.voteMap.erase hash).insert hash
                      cert })) := by
  unfold addVote at hAdd
  split at hAdd
  · rename_i hCertified
    cases hAdd
    exact Or.inl ⟨rfl, hCertified⟩
  · rename_i hOpen
    refine Or.inr ⟨by simpa using hOpen, ?_⟩
    split at hAdd
    · rename_i hNone
      cases hAdd
      exact Or.inl ⟨hNone, rfl⟩
    · rename_i old hOld
      refine Or.inr ⟨old, hOld, ?_⟩
      simp only [addLastVote, hSingle,
        List.getLast?_singleton] at hAdd
      change (if cx.numFaults < _ then _ else _) = _ at hAdd
      split at hAdd
      · rename_i hEnough
        cases hAdd
        exact Or.inl ⟨hEnough, rfl⟩
      · cases hAdd
        exact Or.inr rfl

variable [Crypto H]

/- A vote that passes the checks is a single signed one. -/
theorem checkVote_some
    {p : Propose H}
    (hCheck : checkVote c p cx = .ok (some hash)) :
    ∃ view vote publicKey,
      c.msg = .vote view hash ∧
        c.votes = [vote] ∧
        hash = p.blockHash ∧
        cx.pubKeyMap.lookup vote.origin =
          some publicKey ∧
        Crypto.verify publicKey (.cert (.vote view hash))
          vote.auth = true ∧
        cx.storage.isDeliveredByHash hash = true := by
  unfold checkVote at hCheck
  split at hCheck
  · rename_i vote hVotes
    split at hCheck
    · cases hCheck
    · rename_i publicKey hKey
      split at hCheck
      · rename_i view named hMsg
        split at hCheck
        · cases hCheck
        · rename_i hNamed
          split at hCheck
          · cases hCheck
          · rename_i hVerify
            split at hCheck
            · cases hCheck
            · rename_i hDelivered
              -- the last check is on the height of the block
              have hSame : named = hash := by
                split at hCheck
                · cases hCheck
                · split at hCheck
                  · cases hCheck
                    rfl
                  · split at hCheck
                    · cases hCheck
                    · cases hCheck
                      rfl
              subst hSame
              rw [hMsg] at hVerify
              exact ⟨view, vote, publicKey, hMsg, hVotes,
                not_not.mp hNamed, hKey,
                by simpa using hVerify,
                by simpa using hDelivered⟩
      · cases hCheck
  · cases hCheck

end Synchs

end LibApollo
