import LibApollo.Artemis.Agreement
import LibApollo.Artemis.Transitions
import LibApollo.Base.ReplicatedLog
import LibApollo.Mempool.CommitOrder
import LibApollo.Responses

/-
  Artemis as a replicated log of batches.

  As for Apollo, the output of a replica is what it has told
  its confirmation router.  Here all replicas commit blocks
  of the one chain of the view leader.

  Key definitions include:
    * `SendsHashed`
    * `routerLog`

  Key theorems include:
    * `Reach.sendsHashed`
    * `GlobalInv.comparable`
    * `implements_log`
-/

------------------------------------------------------------
-- Blocks Are Sent With Their Hashes
------------------------------------------------------------

namespace LibApollo

namespace Artemis

variable {H : Type} [DecidableEq H] [Crypto H]
variable {cx cx' : Context H}
variable {node node' : Node H}
variable {event : Event H}
variable {sender : Replica}
variable {v : UCRVote H}

def SendsHashed (cx : Context H) : Prop :=
  ∀ packet ∈ cx.outbox, packet.2.Hashed

theorem SendsHashed.append
    {more : List (Replica × ProtocolMsg H)}
    (hSends : SendsHashed cx)
    (hMore : ∀ packet ∈ more, packet.2.Hashed)
    (hEq : cx'.outbox = cx.outbox ++ more) :
    SendsHashed cx' := by
  intro packet hMem
  rw [hEq] at hMem
  rcases List.mem_append.mp hMem with hOld | hNew
  · exact hSends packet hOld
  · exact hMore packet hNew

theorem SendsHashed.send
    {dest : Replica}
    {msg : ProtocolMsg H}
    (hSends : SendsHashed cx)
    (hMsg : msg.Hashed) :
    SendsHashed (cx.send dest msg) := by
  unfold Context.send
  split
  · exact hSends
  · exact hSends.append (List.forall_mem_singleton.mpr hMsg)
      rfl

/- A delivery sends nothing. -/
theorem SendsHashed.doDelivery
    {block : Block H}
    (hSends : SendsHashed cx) :
    SendsHashed (doDelivery block cx) := by
  rcases doDelivery_deliveryOnly block cx with
    ⟨_, _, _, _, _, _, _, hEq, _⟩
  rw [hEq]
  exact hSends

theorem SendsHashed.accepted
    (hSends : SendsHashed cx)
    (hAccepted : Accepted v cx cx') :
    SendsHashed cx' := by
  rcases hAccepted with
    ⟨_, _, _, _, _, _, _, _, _, _, rfl⟩
  refine hSends.append ?_ rfl
  unfold relayPackets
  split
  · exact List.forall_mem_nil _
  · exact List.forall_mem_singleton.mpr trivial

theorem SendsHashed.considers
    (hSends : SendsHashed cx)
    (hConsiders : Considers v cx cx') :
    SendsHashed cx' := by
  cases hConsiders with
  | refuse _ => exact hSends
  | accept _ hAccepted => exact hSends.accepted hAccepted

theorem SendsHashed.takesVote
    (hSends : SendsHashed cx)
    (hTakes : TakesVote sender v cx cx') :
    SendsHashed cx' := by
  cases hTakes with
  | past _ => exact hSends
  | keep _ _ => exact hSends
  | await _ _ =>
      have hSent : SendsHashed (doRequest sender v.hash cx) :=
        hSends.send trivial
      exact hSent
  | consider _ hConsiders => exact hSends.considers hConsiders

/- A dispatched block was just built. -/
theorem SendsHashed.dispatched
    {batchHash : H}
    {batch : Batch}
    (hSends : SendsHashed cx)
    (hDispatched : Dispatched batchHash batch cx cx') :
    SendsHashed cx' := by
  have hSent :
      SendsHashed (dispatching batchHash batch cx) := by
    refine hSends.append ?_ rfl
    intro packet hMem
    rcases List.mem_map.mp hMem with ⟨dest, _, rfl⟩
    exact LibApollo.Block.extending_wellHashed _ _ _ _
  rcases hDispatched with ⟨rfl, _⟩ | ⟨_, rfl⟩
  · exact hSent
  · exact hSent.doDelivery

theorem SendsHashed.voting
    (hSends : SendsHashed cx) :
    SendsHashed (voting cx) := by
  refine hSends.append ?_ rfl
  intro packet hMem
  rcases List.mem_map.mp hMem with ⟨dest, _, rfl⟩
  trivial

/- The answer to a request has a block with a batch. -/
theorem SendsHashed.answers
    {config : Config}
    {reqId : Nat}
    {hash : H}
    {rest : List (ProtocolMsg H)}
    (hBatches :
      ∀ payload,
        Crypto.batchHash (H := H) payload ≠
          Crypto.emptyHash)
    (hReach :
      Machine.Reach step (fun _ event => Network event)
        (Node.new config) node)
    (hSends : SendsHashed node.cx)
    (hAnswers :
      Answers sender reqId hash
        { node.cx with otherBuf := rest } cx') :
    SendsHashed cx' := by
  cases hAnswers with
  | pass => exact hSends
  | missing _ => exact hSends
  | @respond block batch hRequested hRead =>
      have hProper :=
        (requestedBlock_proper hReach hRequested).1
      have hHeld :
          node.cx.batches.Holds block.blk.body.batchHash
            batch :=
        BatchStores.holds_of_readBatch hRead
      have hWell :=
        ((Reach.intact hReach).wellHashed hBatches hProper
          hHeld rfl).1
      refine SendsHashed.send ?_ hWell
      exact hSends

theorem SendsHashed.transition
    {config : Config}
    (hBatches :
      ∀ payload,
        Crypto.batchHash (H := H) payload ≠
          Crypto.emptyHash)
    (hReach :
      Machine.Reach step (fun _ event => Network event)
        (Node.new config) node)
    (hSends : SendsHashed node.cx)
    (hTransition : Transition node event cx') :
    SendsHashed cx' := by
  cases hTransition with
  | stay => exact hSends
  | count => exact hSends
  | queue msg => cases msg <;> exact hSends
  | install _ => exact hSends
  | pend _ _ => exact hSends
  | block _ _ hTakes =>
      cases hTakes with
      | drop => exact hSends
      | leave _ => exact hSends
      | deliver _ _ =>
          refine SendsHashed.doDelivery ?_
          exact hSends
  | response _ _ hTakes =>
      cases hTakes with
      | drop => exact hSends
      | leave _ => exact hSends
      | park _ =>
          refine SendsHashed.send ?_ trivial
          exact hSends
      | deliver _ _ =>
          refine SendsHashed.doDelivery ?_
          exact hSends
  | ready _ _ hConsiders =>
      refine SendsHashed.considers ?_ hConsiders
      exact hSends
  | vote _ _ _ hTakes =>
      refine SendsHashed.takesVote ?_ hTakes
      exact hSends
  | answer _ _ hAnswers =>
      exact hSends.answers hBatches hReach hAnswers
  | dispatch _ hDispatched =>
      refine SendsHashed.dispatched ?_ hDispatched
      exact hSends
  | own _ hAccepted =>
      exact hSends.voting.accepted hAccepted

theorem Reach.sendsHashed
    {config : Config}
    (hBatches :
      ∀ payload,
        Crypto.batchHash (H := H) payload ≠
          Crypto.emptyHash)
    (hReach :
      Machine.Reach step (fun _ event => Network event)
        (Node.new config) node) :
    SendsHashed node.cx := by
  induction hReach with
  | start => exact List.forall_mem_nil _
  | next hBefore _ hStep hSends =>
      exact hSends.transition hBatches hBefore
        (step_transition hStep)

end Artemis

end LibApollo

------------------------------------------------------------
-- One Log for All Replicas
------------------------------------------------------------

namespace LibApollo

namespace Artemis

variable {H : Type} [DecidableEq H] [Crypto H]
variable {n f top : Nat}
variable {config : Replica → Config}
variable {g : Replica → Node H}
variable {chain : Nat → LibApollo.Block H}
variable {depth : H → Nat}

/- What a replica has told its confirmation router. -/
def routerLog
    (g : Replica → Node H)
    (i : Nat) : List Batch :=
  (g i).cx.txCommittedToRouter

/- What a replica has committed is of the view leader. -/
theorem GlobalInv.onChain
    {i : Replica}
    (hFree : CollisionFree H)
    (hGlobal : GlobalInv n f config g chain top)
    (hIndex : i < n) :
    (g i).cx.committer.OnChain (fun k => (chain k).hash)
      top := by
  constructor
  · intro hash hMem
    rcases (hGlobal.committed i hIndex hash).mp hMem with
      ⟨_, _, k, m, _, hBound, _, hBelow, rfl⟩
    exact ⟨m, hBelow.trans hBound, rfl⟩
  · intro k block hBound hStored
    have hInv := hGlobal.context i hIndex
    have hSame :=
      hGlobal.main.eq_of_hash_eq hFree hBound
        (hInv.data.delivered _ _ hStored).1
        (Storage.getHash_of_delivered hStored)
    change block.blk.header.prev = (chain k).hash
    rw [hSame]
    exact hGlobal.main.prev k hBound

theorem GlobalInv.comparable
    (hFree : CollisionFree H)
    (hHash :
      Function.Injective
        (Crypto.batchHash : List Transaction → H))
    (hGlobal : GlobalInv n f config g chain top)
    (hStocked :
      ∀ i, i < n →
        (g i).cx.committer.Sound content ∧
          (g i).cx.committer.Stocked content) :
    ReplicatedLog.Comparable n (routerLog g) := by
  intro i j hLeft hRight
  have hInjective :
      ∀ a b, a ≤ top → b ≤ top →
        (chain a).hash = (chain b).hash → a = b :=
    fun _ _ hFirst hSecond =>
      hGlobal.main.hash_injective hFree hFirst hSecond
  have hRoot : (chain 0).hash = Crypto.emptyHash := by
    rw [hGlobal.main.genesis]
    rfl
  exact Committer.router_comparable hFree hHash hInjective
    hRoot (hStocked i hLeft) (hStocked j hRight)
    (hGlobal.onChain hFree hLeft)
    (hGlobal.onChain hFree hRight)

/-
  Only what a replica has sent arrives, and a batch that is
  handed over was stored when it was sealed.
-/
def Runs
    (n : Nat)
    (g : Replica → Node H)
    (event : Replica × Event H) : Prop :=
  Network.Delivers interface n g event ∧
    Sealed (g event.1) event.2

/- What arrives carries its hashes. -/
theorem Runs.hashed
    {i : Replica}
    {event : Event H}
    (hBatches :
      ∀ payload,
        Crypto.batchHash (H := H) payload ≠
          Crypto.emptyHash)
    (hEach :
      ∀ i,
        Machine.Reach step
          (fun node event =>
            Network event ∧ Sealed node event)
          (Node.new (config i)) (g i))
    (hRuns : Runs n g (i, event)) :
    Network event := by
  rintro msg rfl
  rcases hRuns.1.2 msg rfl with ⟨sender, _, hMem⟩
  have hAlone :=
    (hEach sender).mono (fun _ _ hGuard => hGuard.1)
  exact Reach.sendsHashed hBatches hAlone _ hMem

/- Each replica has a run of its own. -/
theorem Runs.reach_each
    (hBatches :
      ∀ payload,
        Crypto.batchHash (H := H) payload ≠
          Crypto.emptyHash)
    (hReach :
      Machine.Reach (Network.step step) (Runs n)
        (fun i => Node.new (config i)) g) :
    ∀ i,
      Machine.Reach step
        (fun node event =>
          Network event ∧ Sealed node event)
        (Node.new (config i)) (g i) := by
  apply Network.reach_each hReach
  intro g i event hEach hRuns
  exact ⟨hRuns.hashed hBatches hEach, hRuns.2⟩

/- A step adds to what the replica has told. -/
theorem router_grows
    {node node' : Node H}
    {event : Event H}
    (hReady : Ready node.cx)
    (hEvent : Network event)
    (hStep : step node event = .ok node') :
    node.cx.txCommittedToRouter <+:
      node'.cx.txCommittedToRouter := by
  rcases step_follows hReady hEvent hStep with
    hFollows | ⟨_, _, _, _, _, _, hTakes⟩
  · exact Committer.Moves.router_grows hFollows.moves
  · have hNotices := congrArg Committer.notices hTakes
    have hSame := congrArg Notices.toRouter hNotices
    change _ <+: node'.cx.committer.notices.toRouter
    rw [hSame]
    exact List.prefix_rfl

theorem implements_log
    (hFree : CollisionFree H)
    (hDepth : HashDepth depth)
    (hHash :
      Function.Injective
        (Crypto.batchHash : List Transaction → H))
    (hBatches :
      ∀ payload,
        Crypto.batchHash (H := H) payload ≠
          Crypto.emptyHash)
    (hConfig : SystemConfig n f config) :
    ReplicatedLog.Implements
      (Network.step (step : Machine (Node H) _ _)) (Runs n)
      (fun i => Node.new (config i)) n routerLog := by
  apply ReplicatedLog.Implements.of_comparable
  · intro i _
    rfl
  · rintro g g' ⟨i, event⟩ hReach hGuard hStep
    have hEach := Runs.reach_each hBatches hReach
    have hAlone :=
      (hEach i).mono (fun _ _ hGuard => hGuard.1)
    rcases Network.step_ok hStep with ⟨node, hOk, rfl⟩
    refine ⟨i, hGuard.1.1, ?_, ?_⟩
    · unfold routerLog
      rw [Function.update_self]
      exact router_grows (Reach.sound hFree hAlone).1
        (hGuard.hashed hBatches hEach) hOk
    · intro j hOther
      unfold routerLog
      rw [Function.update_of_ne hOther]
  · intro g hReach
    have hExists :
        ∃ chain top, GlobalInv n f config g chain top := by
      apply Network.reach_invariant
        (fun g =>
          ∃ chain top, GlobalInv n f config g chain top)
        (hReach.mono (fun _ _ hGuard => hGuard.1))
      · exact ⟨_, _, globalInv_new n f config⟩
      · intro g i event node hParts hIndex hSent hStep
        rcases hParts with ⟨chain, top, hGlobal⟩
        exact hGlobal.step hFree hConfig hIndex hSent hStep
    rcases hExists with ⟨chain, top, hGlobal⟩
    refine hGlobal.comparable hFree hHash ?_
    intro i _
    exact Reach.stocked hFree hDepth hBatches
      (Runs.reach_each hBatches hReach i)

end Artemis

end LibApollo
