import LibApollo.Optsync.Checks
import LibApollo.Optsync.Tallies

/-
  The three maps in which an Opt Sync node collects votes.

  Their keys are hashes of delivered blocks: a vote counts
  only after its block was delivered, and a certificate is
  made of the votes that were collected.  So a new block has
  no votes yet, and what the handlers take for granted about
  the maps holds in every run.

  Key definitions include:
    * `VoteMaps`
    * `Elsewhere`

  Key theorems include:
    * `VoteMaps.step`
    * `VoteMaps.step_elsewhere`
    * `vote_panics_unreachable`
-/

------------------------------------------------------------
-- Keys of the Maps
------------------------------------------------------------

namespace LibApollo

namespace Optsync

open Synchs (Propose ProtocolMsg Config Node Event)

variable {H : Type} [DecidableEq H] [Crypto H]
variable {cx cx' : Context H}
variable {node node' : Node (Context H)}
variable {event : Event H}

omit [Crypto H] in
/- What the maps of a node satisfy together. -/
structure VoteMaps (cx : Context H) : Prop where
  votes : VotesDelivered cx
  nonempty :
    ∀ hash cert,
      cx.voteMap.lookup hash = some cert → cert.votes ≠ []
  responsive :
    ∀ hash,
      (cx.respCert.lookup hash).isSome = true →
        cx.storage.isDeliveredByHash hash = true
  certified :
    ∀ hash,
      (cx.certMap.lookup hash).isSome = true →
        cx.storage.isDeliveredByHash hash = true

/- Only the genesis block is certified. -/
theorem voteMaps_new
    (config : Config) :
    VoteMaps (Context.new config : Context H) where
  votes := votesDelivered_new config
  nonempty := by
    intro hash cert hSome
    simp [Context.new, Synchs.Context.new] at hSome
  responsive := by
    intro hash hSome
    simp [Context.new] at hSome
  certified := by
    intro hash hSome
    change
      (((∅ : FinMap H (Certificate H)).insert
        (Block.genesis : Block H).hash _).lookup
          hash).isSome = true at hSome
    rw [FinMap.lookup_insert_eq] at hSome
    by_cases hGenesis : hash = (Block.genesis : Block H).hash
    · exact Storage.isDeliveredByHash_addDeliveredBlock
        (Or.inl hGenesis)
    · rw [if_neg hGenesis] at hSome
      simp at hSome

/- A responsive certificate is one that was growing. -/
theorem onVote_respCert
    {c : Certificate H}
    {p : Propose H}
    {decision : Bool}
    (hVote : onVote c p cx = .ok (decision, cx'))
    (hash : H)
    (hSome : (cx'.respCert.lookup hash).isSome = true) :
    (cx.respCert.lookup hash).isSome = true ∨
      (cx'.voteMap.lookup hash).isSome = true := by
  rcases onVote_ok hVote with
    ⟨_, rfl⟩ | ⟨voted, hCheck, _, hAdd⟩
  · exact Or.inl hSome
  · rcases Synchs.checkVote_some hCheck with
      ⟨_, vote, _, _, hVotes, _⟩
    rcases addVote_ok hVotes hAdd with
      ⟨_, _, rfl⟩ |
        ⟨_, cert, _, _, _, _, _, _, rfl⟩
    · exact Or.inl hSome
    · by_cases hSame : hash = voted
      · right
        simp [FinMap.lookup_insert_eq, hSame]
      · left
        cases decision with
        | false => exact hSome
        | true =>
            simpa [FinMap.lookup_insert_eq, hSame]
              using hSome

/- No other handler makes responsive certificates. -/
theorem step_respCert
    (hStep : step node event = .ok node')
    (hash : H)
    (hSome : (node'.cx.respCert.lookup hash).isSome = true) :
    (node.cx.respCert.lookup hash).isSome = true ∨
      (node'.cx.voteMap.lookup hash).isSome = true := by
  cases Synchs.Protocol.step_ok hStep with
  | idle => exact Or.inl hSome
  | recv msg cx _ hProcess =>
      cases processMsg_processed hProcess with
      | ignored => exact Or.inl hSome
      | stored p block batch => exact Or.inl hSome
      | accepted p block batch => exact Or.inl hSome
      | counted c p voted hVote =>
          exact onVote_respCert hVote hash hSome
      | committed c p voted hVote =>
          rcases sameNode_onCommit p voted with
            ⟨_, hVotes, hCerts⟩
          dsimp only at hSome ⊢
          rw [hCerts.respCert] at hSome
          rw [hVotes]
          exact onVote_respCert hVote hash hSome
  | batch => exact Or.inl hSome
  | timer index p _ _ =>
      rcases sameNode_onCommit p
          (node.cx.lift (Synchs.removeTimer index)) with
        ⟨_, _, hCerts⟩
      left
      change
        ((onCommit p (node.cx.lift
          (Synchs.removeTimer index))).respCert.lookup
            hash).isSome = true at hSome
      rw [hCerts.respCert] at hSome
      exact hSome
  | sealed => exact Or.inl hSome
  | propose batchHash batch rest cx _ _ hPropose =>
      rcases propose_ok hPropose with ⟨_, _, _, _, rfl⟩
      exact Or.inl hSome

/- A certificate is one that was growing. -/
theorem step_certMap
    (hStep : step node event = .ok node')
    (hash : H)
    (hSome : (node'.cx.certMap.lookup hash).isSome = true) :
    (node.cx.certMap.lookup hash).isSome = true ∨
      (node'.cx.voteMap.lookup hash).isSome = true := by
  rcases step_ballots hStep with ⟨_, hBallots⟩
  cases hBallots with
  | kept _ hCerts =>
      rw [hCerts.certMap] at hSome
      exact Or.inl hSome
  | entered _ _ _ _ hCerts =>
      rw [hCerts.certMap] at hSome
      exact Or.inl hSome
  | first _ _ _ _ _ _ hCerts =>
      rw [hCerts.certMap] at hSome
      exact Or.inl hSome
  | added _ _ voted _ _ cert _ _ _ _ _ _ hVotes hMap =>
      by_cases hSame : hash = voted
      · right
        rw [hVotes, FinMap.lookup_insert_eq, if_pos hSame]
        rfl
      · left
        rw [hMap] at hSome
        split at hSome
        · rw [FinMap.lookup_insert_eq, if_neg hSame]
            at hSome
          exact hSome
        · exact hSome

/- Certificates that grow start with a vote. -/
theorem step_nonempty
    (hStep : step node event = .ok node')
    (hOld :
      ∀ hash cert,
        node.cx.voteMap.lookup hash = some cert →
          cert.votes ≠ []) :
    ∀ hash cert,
      node'.cx.voteMap.lookup hash = some cert →
        cert.votes ≠ [] := by
  rcases step_ballots hStep with ⟨_, hBallots⟩
  cases hBallots with
  | kept hVotes _ =>
      rw [hVotes]
      exact hOld
  | entered voted _ _ hVotes _ =>
      rw [hVotes]
      exact FinMap.forall_insert hOld (List.cons_ne_nil _ _)
  | first c p voted _ hCheck hVotes _ =>
      rcases Synchs.checkVote_some hCheck with
        ⟨_, vote, _, _, hSingle, _⟩
      rw [hVotes]
      apply FinMap.forall_insert hOld
      rw [hSingle]
      exact List.cons_ne_nil _ _
  | added _ _ voted vote old cert _ _ _ _ _ hCert hVotes _ =>
      rw [hVotes]
      apply FinMap.forall_insert hOld
      rw [hCert]
      simp

theorem VoteMaps.step
    (hMaps : VoteMaps node.cx)
    (hStep : Optsync.step node event = .ok node') :
    VoteMaps node'.cx := by
  have hNode := (step_ballots hStep).1
  have hVotes := hMaps.votes.step hStep
  refine ⟨hVotes, step_nonempty hStep hMaps.nonempty, ?_,
    ?_⟩
  · intro hash hSome
    rcases step_respCert hStep hash hSome with
      hOld | hGrown
    · exact hNode.delivered hash
        (hMaps.responsive hash hOld)
    · exact hVotes hash hGrown
  · intro hash hSome
    rcases step_certMap hStep hash hSome with hOld | hGrown
    · exact hNode.delivered hash
        (hMaps.certified hash hOld)
    · exact hVotes hash hGrown

end Optsync

end LibApollo

------------------------------------------------------------
-- Panics Out of Reach
------------------------------------------------------------

namespace LibApollo

namespace Optsync

open Synchs (Propose ProtocolMsg Panic Config Node Event)
open Result (Yields)

variable {H : Type} [DecidableEq H] [Crypto H]
variable {cx : Context H}
variable {node : Node (Context H)}
variable {batch : Batch}

/-
  The panics that are not about the maps: those of the
  checks and the overflow of a height.
-/
def Elsewhere (panic : Panic) : Prop :=
  panic ∈
    [Panic.authorKey, .viewCheck, .voteType,
      .heightOverflow]

instance (panic : Panic) : Decidable (Elsewhere panic) :=
  inferInstanceAs (Decidable (_ ∈ _))

theorem checkProposal_elsewhere
    (p : Propose H)
    (block : Block H)
    (cx : Synchs.Context H) :
    Yields Elsewhere (fun _ => True)
      (Synchs.checkProposal p block cx) := by
  unfold Synchs.checkProposal
  split
  · trivial
  split
  · trivial
  split
  · trivial
  split
  · trivial
  split
  · exact (by decide : Elsewhere .authorKey)
  split
  · trivial
  split
  · exact (by decide : Elsewhere .viewCheck)
  split
  · trivial
  · trivial

theorem checkReceived_elsewhere
    (p : Propose H)
    (block : Block H)
    (batch : Batch)
    (cx : Context H) :
    Yields Elsewhere (fun _ => True)
      (checkReceived p block batch cx) := by
  unfold checkReceived
  split
  · trivial
  · apply Yields.bind_of_ok
    · exact checkProposal_elsewhere p block cx.toContext
    · intro valid _
      cases valid with
      | false => trivial
      | true => trivial

/- A delivered block is found in the index. -/
theorem checkVote_elsewhere
    (c : Certificate H)
    (p : Propose H)
    (cx : Synchs.Context H) :
    Yields Elsewhere (fun _ => True)
      (Synchs.checkVote c p cx) := by
  unfold Synchs.checkVote
  split
  · split
    · trivial
    · split
      · split
        · trivial
        split
        · trivial
        split
        · trivial
        rename_i hDelivered
        rw [Storage.isDeliveredByHash] at hDelivered
        split
        · rename_i hNone
          rw [hNone] at hDelivered
          exact absurd rfl hDelivered
        split
        · trivial
        split
        · trivial
        · trivial
      · exact (by decide : Elsewhere .voteType)
  · trivial

/- A block that passes the checks has no votes yet. -/
theorem VoteMaps.onReceiveProposal_elsewhere
    (hMaps : VoteMaps cx)
    (p : Propose H)
    (block : Block H)
    (batch : Batch) :
    Yields Elsewhere (fun _ => True)
      (onReceiveProposal p block batch cx) := by
  unfold onReceiveProposal
  apply Yields.bind_of_ok
    (checkReceived_elsewhere p block batch cx)
  intro passed hReceived
  cases passed with
  | false => trivial
  | true =>
      have hNone :=
        hMaps.votes.lookup_of_received hReceived
      simp only [if_true]
      unfold onNewValidProposal
      split
      · trivial
      · dsimp only
        split
        · rename_i vote hSome
          cases hNone.symm.trans hSome
        · trivial

/- A vote that passes the checks can be added. -/
theorem onVote_elsewhere
    (c : Certificate H)
    (p : Propose H)
    (cx : Context H) :
    Yields Elsewhere (fun _ => True) (onVote c p cx) := by
  unfold onVote
  apply Yields.bind_of_ok
    (checkVote_elsewhere c p cx.toContext)
  intro checked hChecked
  cases checked with
  | none => trivial
  | some hash =>
      dsimp only
      split
      · trivial
      · rcases Synchs.checkVote_some hChecked with
          ⟨_, v, _, _, hVotes, _⟩
        have hReturns :
            ∃ result, addVote c hash cx = .ok result :=
          addVote_returns hVotes
        rcases hReturns with ⟨result, hAdd⟩
        rw [hAdd]
        trivial

theorem VoteMaps.processMsg_elsewhere
    (hMaps : VoteMaps cx)
    (msg : ProtocolMsg H) :
    Yields Elsewhere (fun _ => True)
      (processMsg msg cx) := by
  cases msg with
  | newProposal p block batch =>
      unfold processMsg
      apply Yields.bind_of_ok
        (hMaps.onReceiveProposal_elsewhere p block batch)
      intro received _
      dsimp only
      split
      · trivial
      · trivial
  | voteMsg c p =>
      unfold processMsg
      apply Yields.bind_of_ok (onVote_elsewhere c p cx)
      intro voted _
      dsimp only
      split
      · trivial
      · trivial
  | _ => trivial

/- A leader whose last seen block is certified proposes. -/
theorem propose_elsewhere
    {batchHash : H}
    (hCertified :
      (cx.certMap.lookup
        cx.lastSeenBlock.hash).isSome = true) :
    Yields Elsewhere (fun _ => True)
      (propose batchHash batch cx) := by
  rcases Option.isSome_iff_exists.mp hCertified with
    ⟨cert, hCert⟩
  have hBlock :
      Yields Elsewhere (fun _ => True)
        (Synchs.newBlock batchHash cx.toContext) := by
    unfold Synchs.newBlock Synchs.nextHeight
    split
    · trivial
    · exact (by decide : Elsewhere .heightOverflow)
  unfold propose doPropose
  apply Yields.bind_of_ok
  · apply Yields.bind_of_ok hBlock
    intro block _
    apply Yields.bind_of_ok
    · unfold Synchs.newPropose
      rw [hCert]
      trivial
    · intro p _
      trivial
  · intro proposed _
    trivial

/- A step stops the node elsewhere, or not at all. -/
theorem VoteMaps.step_elsewhere
    (hMaps : VoteMaps node.cx)
    (event : Event H) :
    Yields Elsewhere (fun _ => True)
      (Optsync.step node event) := by
  unfold Optsync.step Synchs.Protocol.step
  split
  · apply Yields.map
    exact hMaps.processMsg_elsewhere _
  · trivial
  · split
    · trivial
    · trivial
  · trivial
  · unfold Synchs.Protocol.proposeLoop
    dsimp only
    split
    · trivial
    · split
      · rename_i hGuard
        apply Yields.map
        exact propose_elsewhere hGuard.2
      · trivial
  · trivial

end Optsync

end LibApollo

------------------------------------------------------------
-- Runs
------------------------------------------------------------

namespace LibApollo

namespace Optsync

open Synchs (Panic Config Node Event)

variable {H : Type} [DecidableEq H] [Crypto H]

/-
  In every reachable state the votes and certificates are
  those of delivered blocks, no certificate is empty while
  it grows, and no step stops the node where its handlers
  rely on that.
-/
theorem vote_panics_unreachable
    {config : Config}
    {node : Node (Context H)}
    (hReach :
      Machine.Reach step (fun _ _ => True)
        (Node.new config) node) :
    (∀ hash,
      (node.cx.voteMap.lookup hash).isSome = true ∨
          (node.cx.respCert.lookup hash).isSome = true ∨
          (node.cx.certMap.lookup hash).isSome = true →
        ∃ block,
          node.cx.storage.deliveredBlockFromHash hash =
              some block ∧
            block.hash = hash) ∧
      (∀ hash cert,
        node.cx.voteMap.lookup hash = some cert →
          cert.votes ≠ []) ∧
      ∀ event panic,
        step node event = .error panic →
          panic ≠ .alreadyVoted ∧
            panic ≠ .parentUncertified ∧
            panic ≠ .noVote := by
  have hMaps : VoteMaps node.cx := by
    apply hReach.invariant
      (fun node => VoteMaps node.cx) (voteMaps_new config)
    intro s s' event hBefore _ hStep
    exact hBefore.step hStep
  refine ⟨?_, hMaps.nonempty, ?_⟩
  · intro hash hKey
    have hDelivered :
        node.cx.storage.isDeliveredByHash hash = true := by
      rcases hKey with hVote | hResp | hCert
      · exact hMaps.votes hash hVote
      · exact hMaps.responsive hash hResp
      · exact hMaps.certified hash hCert
    rcases (Storage.isDeliveredByHash_iff _ _).mp
        hDelivered with ⟨block, hLookup⟩
    exact ⟨block, hLookup,
      Storage.getHash_of_delivered hLookup⟩
  · intro event panic hStep
    have hYields := hMaps.step_elsewhere event
    rw [hStep] at hYields
    change Elsewhere panic at hYields
    have hNot :
        ∀ other, ¬ Elsewhere other → panic ≠ other := by
      intro other hOther hEq
      rw [hEq] at hYields
      exact hOther hYields
    exact ⟨hNot _ (by decide), hNot _ (by decide),
      hNot _ (by decide)⟩

/- The first block has a vote in each of the maps. -/
theorem vote_panics_unreachable_collected :
    ∃ node : Node (Context Digest),
      Machine.Reach step (fun _ _ => True)
          (Node.new (fourNodes 1)) node ∧
        (node.cx.voteMap.lookup
          firstBlock.hash).isSome = true ∧
        (node.cx.respCert.lookup
          firstBlock.hash).isSome = true ∧
        (node.cx.certMap.lookup
          firstBlock.hash).isSome = true ∧
        (∃ block,
          node.cx.storage.deliveredBlockFromHash
              firstBlock.hash = some block ∧
            block.hash = firstBlock.hash) ∧
        step node
            (.recv
              (.newProposal firstProposal firstBlock
                oneBatch)) ≠ .error .alreadyVoted := by
  have hRun :
      Machine.runCheck step (fun _ _ => true)
        (fun node =>
          (node.cx.voteMap.lookup
              firstBlock.hash).isSome &&
            ((node.cx.respCert.lookup
                firstBlock.hash).isSome &&
              (node.cx.certMap.lookup
                firstBlock.hash).isSome))
        (Node.new (fourNodes 1)) (Synchs.votesOf [0, 3]) =
          true := by
    decide +kernel
  rcases Machine.Reach.of_runCheck
      (fun _ _ _ => trivial) hRun with
    ⟨node, hReach, hFinal⟩
  rw [Bool.and_eq_true, Bool.and_eq_true] at hFinal
  rcases hFinal with ⟨hVote, hResp, hCert⟩
  rcases vote_panics_unreachable hReach with
    ⟨hKeys, _, hPanics⟩
  refine ⟨node, hReach, hVote, hResp, hCert,
    hKeys _ (Or.inl hVote), ?_⟩
  intro hStep
  exact (hPanics _ _ hStep).1 rfl

end Optsync

end LibApollo
