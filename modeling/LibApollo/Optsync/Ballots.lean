import LibApollo.Optsync.Refinement
import LibApollo.Synchs.Steps

/-
  What a step of an Opt Sync node does to the votes it has
  collected, said once for all invariants about them.

  Key definitions include:
    * `SameNode`
    * `Ballots`

  Key theorems include:
    * `addVote_ok`
    * `onVote_true`
    * `step_ballots`
-/

------------------------------------------------------------
-- Adding Votes
------------------------------------------------------------

namespace LibApollo

namespace Optsync

variable {H : Type} [DecidableEq H]
variable {cx cx' : Context H}
variable {hash : H}
variable {c : Certificate H}

/- Everything the addition of a single vote can do. -/
theorem addVote_ok
    {vote : Vote}
    {decision : Bool}
    (hSingle : c.votes = [vote])
    (hAdd : addVote c hash cx = .ok (decision, cx')) :
    (cx.voteMap.lookup hash = none ∧
        decision = false ∧
        cx' =
          { cx with
            voteMap := cx.voteMap.insert hash c }) ∨
      ∃ old cert certMap lastSeenCert,
        cx.voteMap.lookup hash = some old ∧
          cert = { old with votes := old.votes ++ [vote] } ∧
          (decision = true →
            responsiveQuorum cx ≤ cert.votes.length) ∧
          (certMap =
            if cx.numFaults < cert.votes.length then
              cx.certMap.insert hash cert
            else
              cx.certMap) ∧
          cx' =
            { cx with
              certMap := certMap
              lastSeenCert := lastSeenCert
              voteMap :=
                (cx.voteMap.erase hash).insert hash cert
              respCert :=
                if decision then
                  cx.respCert.insert hash cert
                else
                  cx.respCert } := by
  unfold addVote at hAdd
  split at hAdd
  · rename_i hNone
    cases hAdd
    exact Or.inl ⟨hNone, rfl, rfl⟩
  · rename_i old hSome
    rcases Result.bind_eq_ok.mp hAdd with
      ⟨cert, hCert, hRest⟩
    have hGrown :
        cert = { old with votes := old.votes ++ [vote] } := by
      simp only [Synchs.addLastVote, hSingle,
        List.getLast?_singleton, Except.ok.injEq] at hCert
      exact hCert.symm
    cases hRest
    -- whether the vote completes either certificate
    by_cases hQuorum :
        responsiveQuorum cx ≤ cert.votes.length
    · by_cases hCertified :
          cx.numFaults < cert.votes.length
      · refine Or.inr ⟨old, cert,
          cx.certMap.insert hash cert, cert, hSome, hGrown,
          fun _ => hQuorum, (if_pos hCertified).symm, ?_⟩
        simp [hQuorum, hCertified]
      · refine Or.inr ⟨old, cert, cx.certMap,
          cx.lastSeenCert, hSome, hGrown,
          fun _ => hQuorum, (if_neg hCertified).symm, ?_⟩
        simp [hQuorum, hCertified]
    · by_cases hCertified :
          cx.numFaults < cert.votes.length
      · refine Or.inr ⟨old, cert,
          cx.certMap.insert hash cert, cert, hSome, hGrown,
          by simp [hQuorum], (if_pos hCertified).symm, ?_⟩
        simp [hQuorum, hCertified]
      · refine Or.inr ⟨old, cert, cx.certMap,
          cx.lastSeenCert, hSome, hGrown,
          by simp [hQuorum], (if_neg hCertified).symm, ?_⟩
        simp [hQuorum, hCertified]

end Optsync

end LibApollo

------------------------------------------------------------
-- Collecting Votes
------------------------------------------------------------

namespace LibApollo

namespace Optsync

open Synchs (Propose ProtocolMsg Node Event)

variable {H : Type} [DecidableEq H] [Crypto H]
variable {cx mid cx' : Context H}
variable {event : Event H}

omit [Crypto H] in
/-
  What a node keeps, with the log and the delivered blocks
  that only grow.
-/
structure SameNode (cx cx' : Context H) : Prop where
  myid : cx'.myid = cx.myid
  numNodes : cx'.numNodes = cx.numNodes
  numFaults : cx'.numFaults = cx.numFaults
  mySecretKey : cx'.mySecretKey = cx.mySecretKey
  pubKeyMap : cx'.pubKeyMap = cx.pubKeyMap
  view : cx'.view = cx.view
  signed : cx.signed ⊆ cx'.signed
  delivered :
    ∀ hash,
      cx.storage.isDeliveredByHash hash = true →
        cx'.storage.isDeliveredByHash hash = true

/- The certificates of both kinds stay what they were. -/
structure SameCerts (cx cx' : Context H) : Prop where
  certMap : cx'.certMap = cx.certMap
  respCert : cx'.respCert = cx.respCert

/-
  The ways in which the votes of a node change: its own vote
  is entered, or one that was received is the first for its
  block or joins a certificate that grows.
-/
inductive Ballots
    (cx : Context H)
    (event : Event H)
    (cx' : Context H) : Prop where
| kept :
    cx'.voteMap = cx.voteMap →
      SameCerts cx cx' →
      Ballots cx event cx'
| entered (hash : H) :
    SignData.cert (.vote cx.view hash) ∈ cx'.signed →
      cx'.storage.isDeliveredByHash hash = true →
      cx'.voteMap =
        cx.voteMap.insert hash
          (Synchs.ownVote cx.toContext hash) →
      SameCerts cx cx' →
      Ballots cx event cx'
| first (c : Certificate H) (p : Propose H) (hash : H) :
    event = .recv (.voteMsg c p) →
      Synchs.checkVote c p cx.toContext = .ok (some hash) →
      cx'.voteMap = cx.voteMap.insert hash c →
      SameCerts cx cx' →
      Ballots cx event cx'
| added
    (c : Certificate H) (p : Propose H) (hash : H)
    (vote : Vote) (old cert : Certificate H) :
    event = .recv (.voteMsg c p) →
      Synchs.checkVote c p cx.toContext = .ok (some hash) →
      cx.respCert.lookup hash = none →
      c.votes = [vote] →
      cx.voteMap.lookup hash = some old →
      cert = { old with votes := old.votes ++ [vote] } →
      cx'.voteMap = cx.voteMap.insert hash cert →
      (cx'.certMap =
        if cx.numFaults < cert.votes.length then
          cx.certMap.insert hash cert
        else
          cx.certMap) →
      Ballots cx event cx'

omit [Crypto H] in
theorem SameNode.refl (cx : Context H) : SameNode cx cx :=
  ⟨rfl, rfl, rfl, rfl, rfl, rfl, List.Subset.refl _,
    fun _ hOld => hOld⟩

theorem sameNode_onCommit
    (p : Propose H)
    (cx : Context H) :
    SameNode cx (onCommit p cx) ∧
      (onCommit p cx).voteMap = cx.voteMap ∧
      SameCerts cx (onCommit p cx) := by
  unfold onCommit Context.lift
  rcases Synchs.onCommit_frame p cx.toContext with
    ⟨_, storage, _, _, hByHash, _, hEq⟩
  rw [hEq]
  refine ⟨⟨rfl, rfl, rfl, rfl, rfl, rfl,
    List.Subset.refl _, ?_⟩, rfl, rfl, rfl⟩
  intro hash hDelivered
  change (storage.deliveredBlockFromHash hash).isSome = true
  rw [hByHash]
  exact hDelivered

omit [Crypto H] in
theorem SameNode.trans
    (hFirst : SameNode cx mid)
    (hSecond : SameNode mid cx') :
    SameNode cx cx' where
  myid := hSecond.myid.trans hFirst.myid
  numNodes := hSecond.numNodes.trans hFirst.numNodes
  numFaults := hSecond.numFaults.trans hFirst.numFaults
  mySecretKey :=
    hSecond.mySecretKey.trans hFirst.mySecretKey
  pubKeyMap := hSecond.pubKeyMap.trans hFirst.pubKeyMap
  view := hSecond.view.trans hFirst.view
  signed := List.Subset.trans hFirst.signed hSecond.signed
  delivered := fun hash hOld =>
    hSecond.delivered hash (hFirst.delivered hash hOld)

/- What leaves the votes alone may follow. -/
theorem Ballots.followed
    (hBallots : Ballots cx event mid)
    (hNode : SameNode mid cx')
    (hVotes : cx'.voteMap = mid.voteMap)
    (hCerts : SameCerts mid cx') :
    Ballots cx event cx' := by
  have hSame :
      SameCerts cx mid → SameCerts cx cx' := by
    intro hFirst
    exact ⟨hCerts.certMap.trans hFirst.certMap,
      hCerts.respCert.trans hFirst.respCert⟩
  cases hBallots with
  | kept hMid hKept =>
      exact .kept (hVotes.trans hMid) (hSame hKept)
  | entered hash hSigned hDelivered hMid hKept =>
      exact .entered hash (hNode.signed hSigned)
        (hNode.delivered hash hDelivered)
        (hVotes.trans hMid) (hSame hKept)
  | first c p hash hEvent hCheck hMid hKept =>
      exact .first c p hash hEvent hCheck
        (hVotes.trans hMid) (hSame hKept)
  | added c p hash vote old cert hEvent hCheck hNone hSingle
      hOld hCert hMid hMap =>
      exact .added c p hash vote old cert hEvent hCheck
        hNone hSingle hOld hCert (hVotes.trans hMid)
        (hCerts.certMap.trans hMap)

theorem onVote_ballots
    {c : Certificate H}
    {p : Propose H}
    {decision : Bool}
    (hVote : onVote c p cx = .ok (decision, cx')) :
    SameNode cx cx' ∧
      Ballots cx (.recv (.voteMsg c p)) cx' := by
  rcases onVote_ok hVote with
    ⟨_, rfl⟩ | ⟨hash, hCheck, hNone, hAdd⟩
  · exact ⟨.refl _, .kept rfl ⟨rfl, rfl⟩⟩
  · rcases Synchs.checkVote_some hCheck with
      ⟨_, vote, _, _, hVotes, _⟩
    rcases addVote_ok hVotes hAdd with
      ⟨_, _, rfl⟩ |
        ⟨old, cert, certMap, _, hOld, hCert, _, hMap, rfl⟩
    · exact ⟨⟨rfl, rfl, rfl, rfl, rfl, rfl,
          List.Subset.refl _, fun _ hOld => hOld⟩,
        .first c p hash rfl hCheck rfl ⟨rfl, rfl⟩⟩
    · exact ⟨⟨rfl, rfl, rfl, rfl, rfl, rfl,
          List.Subset.refl _, fun _ hOld => hOld⟩,
        .added c p hash vote old cert rfl hCheck hNone
          hVotes hOld hCert
          (FinMap.insert_erase_self _ _ _) hMap⟩

/- The vote that commits a block completes its certificate. -/
theorem onVote_true
    {c : Certificate H}
    {p : Propose H}
    (hVote : onVote c p cx = .ok (true, cx')) :
    ∃ cert,
      cx'.voteMap.lookup p.blockHash = some cert ∧
        cx'.respCert.lookup p.blockHash = some cert ∧
        responsiveQuorum cx ≤ cert.votes.length := by
  rcases onVote_ok hVote with
    ⟨hFalse, _⟩ | ⟨hash, hCheck, _, hAdd⟩
  · cases hFalse
  · rcases Synchs.checkVote_some hCheck with
      ⟨_, vote, _, _, hVotes, rfl, _⟩
    rcases addVote_ok hVotes hAdd with
      ⟨_, hFalse, _⟩ |
        ⟨old, cert, _, _, _, _, hQuorum, _, rfl⟩
    · cases hFalse
    · refine ⟨cert, ?_, ?_, hQuorum rfl⟩
      · dsimp only
        rw [FinMap.lookup_insert_eq, if_pos rfl]
      · dsimp only
        rw [if_pos rfl, FinMap.lookup_insert_eq, if_pos rfl]

theorem processMsg_ballots
    {msg : ProtocolMsg H}
    (hProcess : processMsg msg cx = .ok cx') :
    SameNode cx cx' ∧ Ballots cx (.recv msg) cx' := by
  cases processMsg_processed hProcess with
  | ignored => exact ⟨.refl _, .kept rfl ⟨rfl, rfl⟩⟩
  | stored p block batch =>
      exact ⟨⟨rfl, rfl, rfl, rfl, rfl, rfl,
          List.Subset.refl _, fun _ hOld => hOld⟩,
        .kept rfl ⟨rfl, rfl⟩⟩
  | accepted p block batch hAccepts =>
      have hHash : block.hash = p.blockHash :=
        (Synchs.checkProposal_true hAccepts.check).1
      refine ⟨⟨rfl, rfl, rfl, rfl, rfl, rfl,
        List.subset_append_left _ _, fun _ hOld =>
          Storage.isDeliveredByHash_addDeliveredBlock
            (Or.inr hOld)⟩, ?_⟩
      refine .entered block.hash ?_ ?_ ?_ ⟨rfl, rfl⟩
      · exact List.mem_append_right _
          (List.mem_singleton_self _)
      · exact Storage.isDeliveredByHash_addDeliveredBlock
          (Or.inl rfl)
      · change cx.voteMap.insert p.blockHash _ = _
        rw [← hHash]
  | counted c p voted hVote => exact onVote_ballots hVote
  | committed c p voted hVote =>
      rcases onVote_ballots hVote with ⟨hNode, hBallots⟩
      rcases sameNode_onCommit p voted with
        ⟨hAfter, hVotes, hCerts⟩
      exact ⟨hNode.trans hAfter,
        hBallots.followed hAfter hVotes hCerts⟩

theorem propose_ballots
    {batchHash : H}
    {batch : Batch}
    {rest : List (H × Batch)}
    (hPropose :
      propose batchHash batch
          (cx.lift (Synchs.keepBatches rest)) =
        .ok cx') :
    SameNode cx cx' ∧ Ballots cx .internal cx' := by
  rcases propose_ok hPropose with ⟨block, p, _, _, rfl⟩
  refine ⟨⟨rfl, rfl, rfl, rfl, rfl, rfl,
    List.subset_append_left _ _, fun _ hOld =>
      Storage.isDeliveredByHash_addDeliveredBlock
        (Or.inr hOld)⟩, ?_⟩
  refine .entered block.hash ?_ ?_ rfl ⟨rfl, rfl⟩
  · exact List.mem_append_right _
      (List.mem_cons_of_mem _ (List.mem_singleton_self _))
  · exact Storage.isDeliveredByHash_addDeliveredBlock
      (Or.inl rfl)

/- What a step does to the votes of a node. -/
theorem step_ballots
    {node node' : Node (Context H)}
    (hStep : step node event = .ok node') :
    SameNode node.cx node'.cx ∧
      Ballots node.cx event node'.cx := by
  cases Synchs.Protocol.step_ok hStep with
  | idle => exact ⟨.refl _, .kept rfl ⟨rfl, rfl⟩⟩
  | recv msg cx _ hProcess =>
      exact processMsg_ballots hProcess
  | batch =>
      exact ⟨⟨rfl, rfl, rfl, rfl, rfl, rfl,
          List.Subset.refl _, fun _ hOld => hOld⟩,
        .kept rfl ⟨rfl, rfl⟩⟩
  | timer index p _ _ =>
      rcases sameNode_onCommit p
          (node.cx.lift (Synchs.removeTimer index)) with
        ⟨hNode, hVotes, hCerts⟩
      exact ⟨{ hNode with },
        .kept hVotes ⟨hCerts.certMap, hCerts.respCert⟩⟩
  | sealed =>
      exact ⟨⟨rfl, rfl, rfl, rfl, rfl, rfl,
          List.Subset.refl _, fun _ hOld => hOld⟩,
        .kept rfl ⟨rfl, rfl⟩⟩
  | propose batchHash batch rest cx _ _ hPropose =>
      exact propose_ballots hPropose

end Optsync

end LibApollo
