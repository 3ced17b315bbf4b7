import LibApollo.Apollo.Agreement
import LibApollo.Base.ReplicatedLog
import LibApollo.Mempool.CommitOrder
import LibApollo.Responses

/-
  Apollo as a replicated log of batches.

  The output of a replica is what it has told its
  confirmation router.  The blocks that replicas send carry
  their hashes, so that every replica has a run of its own
  in which its commits are told once and in order, and the
  agreement on accepted blocks makes the outputs comparable.

  Key definitions include:
    * `SendsHashed`
    * `routerLog`

  Key theorems include:
    * `Reach.sendsHashed`
    * `GlobalInv.comparable`
    * `implements_log`
-/

------------------------------------------------------------
-- Blocks Are Sent With Their Hashes
------------------------------------------------------------

namespace LibApollo

namespace Apollo

variable {H : Type} [DecidableEq H] [Crypto H]
variable {cx cx' : Context H}
variable {node node' : Node H}
variable {event : Event H}
variable {sender : Replica}
variable {p : Propose H}
variable {block : Block H}

def SendsHashed (cx : Context H) : Prop :=
  ∀ packet ∈ cx.outbox, packet.2.Hashed

theorem SendsHashed.append
    {more : List (Replica × ProtocolMsg H)}
    (hSends : SendsHashed cx)
    (hMore : ∀ packet ∈ more, packet.2.Hashed)
    (hEq : cx'.outbox = cx.outbox ++ more) :
    SendsHashed cx' := by
  intro packet hMem
  rw [hEq] at hMem
  rcases List.mem_append.mp hMem with hOld | hNew
  · exact hSends packet hOld
  · exact hMore packet hNew

theorem SendsHashed.send
    {dest : Replica}
    {msg : ProtocolMsg H}
    (hSends : SendsHashed cx)
    (hMsg : msg.Hashed) :
    SendsHashed (cx.send dest msg) := by
  unfold Context.send
  split
  · exact hSends
  · exact hSends.append (List.forall_mem_singleton.mpr hMsg)
      rfl

theorem SendsHashed.acceptProposal
    (hSends : SendsHashed cx)
    (hAccept : acceptProposal p block cx = .ok cx') :
    SendsHashed cx' := by
  rcases acceptProposal_ok hAccept with
    ⟨_, _, _, _, _, _, rfl⟩
  refine hSends.append ?_ rfl
  unfold relayPackets
  split
  · exact List.forall_mem_nil _
  · exact List.forall_mem_singleton.mpr trivial

theorem SendsHashed.receives
    (hSends : SendsHashed cx)
    (hReceives : Receives sender p block cx cx') :
    SendsHashed cx' := by
  cases hReceives with
  | refuse _ _ => exact hSends
  | keep _ => exact hSends
  | equivocation _ _ => exact hSends
  | accept _ _ hAccept => exact hSends.acceptProposal hAccept

theorem SendsHashed.delivers
    (hSends : SendsHashed cx)
    (hDelivers : Delivers sender p block cx cx') :
    SendsHashed cx' := by
  cases hDelivers with
  | park _ =>
      refine SendsHashed.send ?_ trivial
      exact hSends
  | hand _ hReceives =>
      have hStored :
          SendsHashed (cx.addDeliveredBlock block) :=
        hSends
      have hReceived := hStored.receives hReceives
      exact hReceived

theorem SendsHashed.resolves
    {blockAndBatch : Option (Block H × Batch)}
    (hSends : SendsHashed cx)
    (hResolves :
      Resolves sender p blockAndBatch cx cx') :
    SendsHashed cx' := by
  cases hResolves with
  | leave => exact hSends
  | ask _ _ =>
      refine SendsHashed.send ?_ trivial
      exact hSends
  | @sent block batch _ _ _ _ hDelivers =>
      have hPersisted :
          SendsHashed
            (cx.persistBatch block.body.batchHash batch) :=
        hSends
      exact hPersisted.delivers hDelivers
  | stored _ _ hDelivers => exact hSends.delivers hDelivers

/- The answer to a request has a block with a batch. -/
theorem SendsHashed.onRecvRequest
    {reqId : Nat}
    {hash : H}
    (hBatches :
      ∀ payload,
        Crypto.batchHash (H := H) payload ≠
          Crypto.emptyHash)
    (hIntact : cx.committer.Intact content)
    (hSends : SendsHashed cx) :
    SendsHashed (onRecvRequest sender reqId hash cx) := by
  unfold Apollo.onRecvRequest
  split
  · exact hSends
  split
  · exact hSends
  rename_i block hBlock
  split
  · rename_i read hRead
    have hSecond := congrArg Prod.snd hRead
    dsimp only at hSecond
    rw [← hSecond]
    exact hSends
  · rename_i batch read hRead
    have hFirst := congrArg Prod.fst hRead
    have hSecond := congrArg Prod.snd hRead
    dsimp only at hFirst hSecond
    have hHeld :
        cx.batches.Holds block.body.batchHash batch :=
      BatchStores.holds_of_readBatch hFirst
    have hWell :=
      (hIntact.wellHashed hBatches
        (hIntact.delivered hash block hBlock) hHeld rfl).1
    rw [← hSecond]
    refine SendsHashed.send ?_ hWell
    exact hSends

theorem SendsHashed.transition
    (hBatches :
      ∀ payload,
        Crypto.batchHash (H := H) payload ≠
          Crypto.emptyHash)
    (hIntact : cx.committer.Intact content)
    (hSends : SendsHashed cx)
    (hTransition : Transition cx event cx') :
    SendsHashed cx' := by
  cases hTransition with
  | stay => exact hSends
  | count _ => exact hSends
  | queue msg => cases msg <;> exact hSends
  | install _ => exact hSends
  | pend _ _ => exact hSends
  | @proposal _ _ _ _ rest _ _ hResolves =>
      have hPopped :
          SendsHashed { cx with propBuf := rest } :=
        hSends
      exact hPopped.resolves hResolves
  | @relay _ _ rest _ _ hResolves =>
      have hPopped :
          SendsHashed { cx with relayBuf := rest } :=
        hSends
      exact hPopped.resolves hResolves
  | @answer _ _ _ rest _ =>
      have hPopped :
          SendsHashed { cx with otherBuf := rest } :=
        hSends
      exact hPopped.onRecvRequest hBatches hIntact
  | skip _ => exact hSends
  | future _ hResolves =>
      have hTaken :
          SendsHashed { cx with
            futureMsgs := cx.futureMsgs.erase cx.round } :=
        hSends
      exact hTaken.resolves hResolves
  | @child _ hash _ _ _ _ _ hReceives =>
      have hTaken :
          SendsHashed { cx with
            propWaitingParent :=
              cx.propWaitingParent.erase hash } :=
        hSends
      exact hTaken.receives hReceives

/- A proposal carries a block that was just built. -/
theorem SendsHashed.doPropose
    {batchHash : H}
    {batch : Batch}
    (hSends : SendsHashed cx)
    (hPropose : doPropose batchHash batch cx = .ok cx') :
    SendsHashed cx' := by
  have hSent :
      ∀ packet ∈ cx.broadcastPeers.map (·,
          ProtocolMsg.newProposal
            (Propose.signed cx.mySecretKey cx.myid cx.round
              (newBlock cx batchHash).hash)
            (newBlock cx batchHash) batch),
        packet.2.Hashed := by
    intro packet hMem
    rcases List.mem_map.mp hMem with ⟨dest, _, rfl⟩
    exact Block.extending_wellHashed _ _ _ _
  unfold Apollo.doPropose onReceiveProposal at hPropose
  dsimp only at hPropose
  split at hPropose
  · cases hPropose
    exact hSends.append hSent rfl
  · refine SendsHashed.acceptProposal ?_ hPropose
    exact hSends.append hSent rfl

theorem Reach.sendsHashed
    {config : Config}
    (hBatches :
      ∀ payload,
        Crypto.batchHash (H := H) payload ≠
          Crypto.emptyHash)
    (hReach :
      Machine.Reach step (fun _ event => Network event)
        (Node.new config) node) :
    SendsHashed node.cx := by
  induction hReach with
  | start => exact List.forall_mem_nil _
  | @next node node' event hBefore _ hStep hSends =>
      have hIntact := (Reach.intact hBefore).1
      rcases step_transition hStep with
        ⟨hTransition, _⟩ | ⟨_, _, rest, _, hPropose⟩
      · exact hSends.transition hBatches hIntact hTransition
      · have hTaken :
            SendsHashed
              { node.cx with pendingBatches := rest } :=
          hSends
        exact hTaken.doPropose hPropose

end Apollo

end LibApollo

------------------------------------------------------------
-- One Log for All Replicas
------------------------------------------------------------

namespace LibApollo

namespace Apollo

variable {H : Type} [DecidableEq H] [Crypto H]
variable {n f : Nat}
variable {config : Replica → Config}
variable {g : Replica → Node H}
variable {depth : H → Nat}

/- What a replica has told its confirmation router. -/
def routerLog
    (g : Replica → Node H)
    (i : Nat) : List Batch :=
  (g i).cx.txCommittedToRouter

/- Accepted blocks are deeper round by round. -/
theorem GlobalInv.depth_lt
    {i : Replica}
    {r : Nat}
    (hFree : CollisionFree H)
    (hDepth : HashDepth depth)
    (hGlobal : GlobalInv n f g)
    (hIndex : i < n)
    (hPassed : r + 1 < (g i).cx.round) :
    depth (acceptedHash (g i).cx r) <
      depth (acceptedHash (g i).cx (r + 1)) := by
  have hPeer := hGlobal.peer i hIndex
  rcases (hPeer.chain.keys (r + 1)).mpr
      ⟨by omega, hPassed⟩ with ⟨p, hLookup⟩
  rcases (hPeer.chain.entry _ p hLookup).2 with
    ⟨stored, hStored⟩
  rcases hGlobal.made p (hPeer.data.byRound _ p hLookup)
    with ⟨made, hWell, hHash, _⟩
  have hSame : stored = made :=
    Block.Proper.eq_of_hash_eq hFree
      (hPeer.data.delivered _ _ hStored) (Or.inr hWell)
      ((Storage.getHash_of_delivered hStored).trans
        hHash.symm)
  have hLink := hPeer.linear.linked r hPassed
  rw [acceptedHash_of_lookup hPeer.chain hLookup] at hLink ⊢
  rw [Storage.parent_of_delivered hStored,
    Option.some.injEq] at hLink
  rw [← hLink, hSame, ← hHash, hWell]
  exact hDepth _ _

/- What a replica has committed is on the longer chain. -/
theorem GlobalInv.onChain
    {i j : Replica}
    (hFree : CollisionFree H)
    (hGlobal : GlobalInv n f g)
    (hLeft : i < n)
    (hRight : j < n)
    (hBehind : (g i).cx.round ≤ (g j).cx.round) :
    (g i).cx.committer.OnChain (acceptedHash (g j).cx)
      ((g j).cx.round - 1) := by
  have hPeer := hGlobal.peer i hLeft
  have hPeer' := hGlobal.peer j hRight
  constructor
  · intro hash hMem
    rcases (hPeer.linear.committed hash).mp hMem with
      ⟨hDue, r, hBound, rfl⟩
    exact ⟨r, by omega,
      hGlobal.acceptedHash_eq hLeft hRight (by omega)
        (by omega)⟩
  · intro k block hBound hStored
    have hLink := hPeer'.linear.linked k (by omega)
    rcases Storage.exists_delivered_of_parent hLink with
      ⟨stored, hOther, hPrev⟩
    have hSame : block = stored :=
      Block.Proper.eq_of_hash_eq hFree
        (hPeer.data.delivered _ _ hStored)
        (hPeer'.data.delivered _ _ hOther)
        ((Storage.getHash_of_delivered hStored).trans
          (Storage.getHash_of_delivered hOther).symm)
    rw [hSame]
    exact hPrev

theorem GlobalInv.comparable
    (hFree : CollisionFree H)
    (hDepth : HashDepth depth)
    (hHash :
      Function.Injective
        (Crypto.batchHash : List Transaction → H))
    (hGlobal : GlobalInv n f g)
    (hStocked :
      ∀ i, i < n →
        (g i).cx.committer.Sound content ∧
          (g i).cx.committer.Stocked content) :
    ReplicatedLog.Comparable n (routerLog g) := by
  have hBehind :
      ∀ i j, i < n → j < n →
        (g i).cx.round ≤ (g j).cx.round →
          routerLog g i <+: routerLog g j ∨
            routerLog g j <+: routerLog g i := by
    intro i j hLeft hRight hLess
    have hDeeper :
        ∀ k, k < (g j).cx.round - 1 →
          depth (acceptedHash (g j).cx k) <
            depth (acceptedHash (g j).cx (k + 1)) := by
      intro k hBound
      exact hGlobal.depth_lt hFree hDepth hRight (by omega)
    exact Committer.router_comparable hFree hHash
      (Committer.chain_injective hDeeper)
      (acceptedHash_zero _) (hStocked i hLeft)
      (hStocked j hRight)
      (hGlobal.onChain hFree hLeft hRight hLess)
      (hGlobal.onChain hFree hRight hRight (Nat.le_refl _))
  intro i j hLeft hRight
  rcases Nat.le_total (g i).cx.round (g j).cx.round with
    hLess | hLess
  · exact hBehind i j hLeft hRight hLess
  · exact (hBehind j i hRight hLeft hLess).symm

/-
  Only what a replica has sent arrives, and a batch that is
  handed over was stored when it was sealed.
-/
def Runs
    (n : Nat)
    (g : Replica → Node H)
    (event : Replica × Event H) : Prop :=
  Network.Delivers interface n g event ∧
    Sealed (g event.1) event.2

/- What arrives carries its hashes. -/
theorem Runs.hashed
    {i : Replica}
    {event : Event H}
    (hBatches :
      ∀ payload,
        Crypto.batchHash (H := H) payload ≠
          Crypto.emptyHash)
    (hEach :
      ∀ i,
        Machine.Reach step
          (fun node event =>
            Network event ∧ Sealed node event)
          (Node.new (config i)) (g i))
    (hRuns : Runs n g (i, event)) :
    Network event := by
  rintro msg rfl
  rcases hRuns.1.2 msg rfl with ⟨sender, _, hMem⟩
  have hAlone :=
    (hEach sender).mono (fun _ _ hGuard => hGuard.1)
  exact Reach.sendsHashed hBatches hAlone _ hMem

/- Each replica has a run of its own. -/
theorem Runs.reach_each
    (hBatches :
      ∀ payload,
        Crypto.batchHash (H := H) payload ≠
          Crypto.emptyHash)
    (hReach :
      Machine.Reach (Network.step step) (Runs n)
        (fun i => Node.new (config i)) g) :
    ∀ i,
      Machine.Reach step
        (fun node event =>
          Network event ∧ Sealed node event)
        (Node.new (config i)) (g i) := by
  apply Network.reach_each hReach
  intro g i event hEach hRuns
  exact ⟨hRuns.hashed hBatches hEach, hRuns.2⟩

/- A step adds to what the replica has told. -/
theorem router_grows
    {node node' : Node H}
    {event : Event H}
    (hEvent : Network event)
    (hStep : step node event = .ok node') :
    node.cx.txCommittedToRouter <+:
      node'.cx.txCommittedToRouter := by
  rcases step_moves hEvent hStep with
    hMoves | ⟨_, _, _, _, _, hTakes⟩
  · exact Committer.Moves.router_grows hMoves
  · have hNotices := congrArg Committer.notices hTakes
    have hSame := congrArg Notices.toRouter hNotices
    change _ <+: node'.cx.committer.notices.toRouter
    rw [hSame]
    exact List.prefix_rfl

theorem implements_log
    (hFree : CollisionFree H)
    (hDepth : HashDepth depth)
    (hHash :
      Function.Injective
        (Crypto.batchHash : List Transaction → H))
    (hBatches :
      ∀ payload,
        Crypto.batchHash (H := H) payload ≠
          Crypto.emptyHash)
    (hConfig : SystemConfig n f config) :
    ReplicatedLog.Implements
      (Network.step (step : Machine (Node H) _ _)) (Runs n)
      (fun i => Node.new (config i)) n routerLog := by
  apply ReplicatedLog.Implements.of_comparable
  · intro i _
    rfl
  · rintro g g' ⟨i, event⟩ hReach hGuard hStep
    have hEach := Runs.reach_each hBatches hReach
    rcases Network.step_ok hStep with ⟨node, hOk, rfl⟩
    refine ⟨i, hGuard.1.1, ?_, ?_⟩
    · unfold routerLog
      rw [Function.update_self]
      exact router_grows (hGuard.hashed hBatches hEach) hOk
    · intro j hOther
      unfold routerLog
      rw [Function.update_of_ne hOther]
  · intro g hReach
    have hGlobal : GlobalInv n f g := by
      apply Network.reach_invariant (GlobalInv n f)
        (hReach.mono (fun _ _ hGuard => hGuard.1))
        (globalInv_new hConfig)
      intro g i event node hGlobal hIndex hSent hStep
      exact hGlobal.step hFree hIndex hSent hStep
    refine hGlobal.comparable hFree hDepth hHash ?_
    intro i _
    exact Reach.stocked hFree hDepth hBatches
      (Runs.reach_each hBatches hReach i)

end Apollo

end LibApollo
