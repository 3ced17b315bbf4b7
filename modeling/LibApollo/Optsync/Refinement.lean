import LibApollo.Optsync.Reactor
import LibApollo.Synchs.Refinement

/-
  The steps of Opt Sync are steps of a ledger whose leader
  moves on to the block it proposes.

  Key definitions include:
    * `enterVote`, `enterBlock`
    * `Processed`

  Key theorems include:
    * `onReceiveProposal_ok`, `onVote_ok`
    * `processMsg_processed`, `propose_ok`
    * `onVote_ledger`
    * `protocol_refines`
-/

namespace LibApollo

namespace Optsync

open Synchs (Propose Panic Protocol Accepts ProtocolMsg)

variable {H : Type} [DecidableEq H] [Crypto H]
variable {p : Propose H} {block : Block H} {batch : Batch}
variable {c : Certificate H} {cx cx' : Context H}

/- The context in which a node casts its vote. -/
def enterVote
    (p : Propose H)
    (block : Block H)
    (batch : Batch)
    (cx : Context H) : Context H :=
  { cx.lift
      (·.persistBatch block.body.batchHash batch) with
    voteMap :=
      cx.voteMap.insert p.blockHash
        (Synchs.ownVote cx.toContext block.hash) }

/- Everything a received proposal can do. -/
theorem onReceiveProposal_ok
    {decision : Bool}
    (hReceive :
      onReceiveProposal p block batch cx =
        .ok (decision, cx')) :
    (decision = false ∧
        (cx' = cx ∨
          (checkBatchHash block batch = true ∧
            cx' =
              cx.lift
                (·.persistBatch block.body.batchHash
                  batch)))) ∨
      (decision = true ∧
        Accepts cx.toContext p block ∧
        checkBatchHash block batch = true ∧
        cx.voteMap.lookup p.blockHash = none ∧
        cx' =
          (enterVote p block batch cx).lift
            (Synchs.castVote p block)) := by
  rcases Result.bind_eq_ok.mp hReceive with
    ⟨passed, hCheck, hRest⟩
  cases passed with
  | false =>
      cases hRest
      exact Or.inl ⟨rfl, Or.inl rfl⟩
  | true =>
      change
        Synchs.checkReceived p block batch cx.toContext =
          .ok true at hCheck
      rcases Synchs.checkReceived_true hCheck with
        ⟨hFresh, hValid, hBatch⟩
      simp only [if_true] at hRest
      unfold onNewValidProposal at hRest
      split at hRest
      · cases hRest
        exact Or.inl ⟨rfl, Or.inr ⟨hBatch, rfl⟩⟩
      · rename_i hParent
        dsimp only at hRest
        split at hRest
        · cases hRest
        · rename_i hVote
          cases hRest
          refine Or.inr
            ⟨rfl, ⟨hFresh, hValid, ?_⟩, hBatch, hVote,
              rfl⟩
          simpa [Context.lift,
            Synchs.Context.persistBatch] using hParent

/- Everything a message can do to the context. -/
inductive Processed
    (cx : Context H) : ProtocolMsg H → Context H → Prop
| ignored (msg : ProtocolMsg H) : Processed cx msg cx
| stored
    (p : Propose H)
    (block : Block H)
    (batch : Batch)
    (hBatch : checkBatchHash block batch = true) :
    Processed cx (.newProposal p block batch)
      (cx.lift (·.persistBatch block.body.batchHash batch))
| accepted
    (p : Propose H)
    (block : Block H)
    (batch : Batch)
    (hAccepts : Accepts cx.toContext p block)
    (hBatch : checkBatchHash block batch = true)
    (hNone : cx.voteMap.lookup p.blockHash = none) :
    Processed cx (.newProposal p block batch)
      (((enterVote p block batch cx).lift
        (Synchs.castVote p block)).lift
          (Synchs.startTimer p))
| counted
    (c : Certificate H)
    (p : Propose H)
    (voted : Context H)
    (hVote : onVote c p cx = .ok (false, voted)) :
    Processed cx (.voteMsg c p) voted
| committed
    (c : Certificate H)
    (p : Propose H)
    (voted : Context H)
    (hVote : onVote c p cx = .ok (true, voted)) :
    Processed cx (.voteMsg c p) (onCommit p voted)

theorem processMsg_processed
    {msg : ProtocolMsg H}
    (hProcess : processMsg msg cx = .ok cx') :
    Processed cx msg cx' := by
  cases msg with
  | newProposal p block batch =>
      rcases Result.bind_eq_ok.mp hProcess with
        ⟨⟨decision, received⟩, hReceive, hDone⟩
      rcases onReceiveProposal_ok hReceive with
        ⟨rfl, rfl | ⟨hBatch, rfl⟩⟩ |
          ⟨rfl, hAccepts, hBatch, hNone, rfl⟩
      · cases hDone
        exact .ignored _
      · cases hDone
        exact .stored p block batch hBatch
      · cases hDone
        exact .accepted p block batch hAccepts hBatch hNone
  | voteMsg c p =>
      rcases Result.bind_eq_ok.mp hProcess with
        ⟨⟨decision, voted⟩, hVote, hDone⟩
      cases decision with
      | false =>
          cases hDone
          exact .counted c p _ hVote
      | true =>
          cases hDone
          exact .committed c p voted hVote
  | _ =>
      cases hProcess
      exact .ignored _

/- The context in which a leader sends its proposal. -/
def enterBlock
    (block : Block H)
    (cx : Context H) : Context H :=
  { cx with
    voteMap :=
      cx.voteMap.insert block.hash
        (Synchs.ownVote cx.toContext block.hash)
    height := block.header.height
    lastSeenBlock := block
    lastCommittedBlockHt := block.header.height }

/- What a proposal leaves behind. -/
theorem propose_ok
    {batchHash : H}
    (hPropose : propose batchHash batch cx = .ok cx') :
    ∃ block p,
      Synchs.newBlock batchHash cx.toContext = .ok block ∧
        Synchs.newPropose block cx.toContext = .ok p ∧
        cx' =
          ((enterBlock block cx).lift
            (Synchs.dispatch p block batch)).lift
              (Synchs.startTimer p) := by
  rcases Result.bind_eq_ok.mp hPropose with
    ⟨⟨p, proposed⟩, hDo, hDone⟩
  rcases Result.bind_eq_ok.mp hDo with
    ⟨block, hBlock, hRest⟩
  rcases Result.bind_eq_ok.mp hRest with
    ⟨p', hNew, hEnd⟩
  cases hEnd
  cases hDone
  exact ⟨block, p, hBlock, hNew, rfl⟩

omit [Crypto H] in
/- Adding a vote touches the collected votes only. -/
theorem addVote_frame
    {hash : H}
    {decision : Bool}
    (hAdd : addVote c hash cx = .ok (decision, cx')) :
    ∃ voteMap certMap cert,
      cx'.toContext =
        { cx.toContext with
          voteMap := voteMap
          certMap := certMap
          lastSeenCert := cert } := by
  unfold addVote at hAdd
  split at hAdd
  · cases hAdd
    exact ⟨_, _, _, rfl⟩
  · rcases Result.bind_eq_ok.mp hAdd with
      ⟨cert, _, hRest⟩
    cases hRest
    dsimp only
    split
    · split
      · exact ⟨_, _, _, rfl⟩
      · exact ⟨_, _, _, rfl⟩
    · split
      · exact ⟨_, _, _, rfl⟩
      · exact ⟨_, _, _, rfl⟩

/- A vote is ignored or added to what is collected. -/
theorem onVote_ok
    {decision : Bool}
    (hVote : onVote c p cx = .ok (decision, cx')) :
    (decision = false ∧ cx' = cx) ∨
      ∃ hash,
        Synchs.checkVote c p cx.toContext =
            .ok (some hash) ∧
          cx.respCert.lookup hash = none ∧
          addVote c hash cx = .ok (decision, cx') := by
  rcases Result.bind_eq_ok.mp hVote with
    ⟨checked, hCheck, hRest⟩
  cases checked with
  | none =>
      cases hRest
      exact Or.inl ⟨rfl, rfl⟩
  | some hash =>
      dsimp only at hRest
      split at hRest
      · cases hRest
        exact Or.inl ⟨rfl, rfl⟩
      · rename_i hOpen
        exact Or.inr ⟨hash, hCheck, by simpa using hOpen,
          hRest⟩

theorem onVote_frame
    {decision : Bool}
    (hVote : onVote c p cx = .ok (decision, cx')) :
    ∃ voteMap certMap cert,
      cx'.toContext =
        { cx.toContext with
          voteMap := voteMap
          certMap := certMap
          lastSeenCert := cert } := by
  rcases onVote_ok hVote with
    ⟨_, rfl⟩ | ⟨hash, _, _, hAdd⟩
  · exact ⟨_, _, _, rfl⟩
  · exact addVote_frame hAdd

theorem onVote_ledger
    {decision : Bool}
    (hVote : onVote c p cx = .ok (decision, cx')) :
    cx'.toContext.ledger = cx.toContext.ledger := by
  rcases onVote_frame hVote with ⟨_, _, _, hFrame⟩
  rw [hFrame]
  rfl

/- An Opt Sync leader moves on to its new block. -/
theorem protocol_refines :
    (protocol : Protocol H (Context H)).Refines true where
  processMsg := by
    intro msg cx cx' hProcess
    cases processMsg_processed hProcess with
    | ignored => exact .skip
    | stored p block batch => exact .skip
    | accepted p block batch hAccepts =>
        exact .deliver p block batch _ rfl hAccepts.valid
    | counted c p voted hVote =>
        change Synchs.Ledger.Step _ _ cx.toContext.ledger
          cx'.toContext.ledger
        rw [onVote_ledger hVote]
        exact .skip
    | committed c p voted hVote =>
        change Synchs.Ledger.Step _ _ cx.toContext.ledger _
        rw [← onVote_ledger hVote]
        exact Synchs.onCommit_ledger true _ p
          voted.toContext
  propose := by
    intro batchHash batch rest cx cx' hPropose
    rcases propose_ok hPropose with
      ⟨block, p, hBlock, hNew, rfl⟩
    exact ⟨p, block, Synchs.builds_of_ok hBlock hNew, rfl⟩

end Optsync

end LibApollo
