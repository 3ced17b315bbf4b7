import LibApollo.Apollo.Agreement
import LibApollo.Apollo.EquivocationCheck
import LibApollo.Apollo.Inclusion
import LibApollo.Apollo.Rounds
import LibApollo.Apollo.Turn
import LibApollo.Base.Progress

/-
  Apollo replicas that all follow the code do not get stuck.

  The proposal of a round was multicast by its leader with
  the batch it names, and it passes every check of a replica
  that has reached its round.  Hence a replica that is
  behind can take the proposals it lacks one by one, in any
  state that lost and reordered messages have left, and the
  leader of the last round can propose as soon as it has a
  batch.  No step on the way stops a replica.

  Key definitions include:
    * `KeysMatch`, `Honest`
    * `Setup`, `Spread`, `LiveInv`
    * `Due`

  Key theorems include:
    * `LiveInv.step`
    * `LiveInv.exists_step`
    * `LiveInv.settles`
    * `LiveInv.catchesUp`
    * `rounds_always_reachable`
-/

------------------------------------------------------------
-- Systems That Follow the Code
------------------------------------------------------------

namespace LibApollo

namespace Apollo

variable {H : Type} [DecidableEq H] [Crypto H]

/- All replicas can verify the signatures of each other. -/
def KeysMatch
    (H : Type)
    [Crypto H]
    (n : Nat)
    (config : Replica → Config) : Prop :=
  ∀ i j, i < n → j < n →
    ∃ publicKey,
      (config i).pkMap.lookup j = some publicKey ∧
        ∀ data : SignData H,
          Crypto.verify publicKey data
            (Crypto.sign (config j).secretKeyBytes data) =
              true

/-
  Replicas receive what replicas have sent, and batches
  under their own hash.
-/
def Honest
    (n : Nat)
    (g : Replica → Node H)
    (event : Replica × Event H) : Prop :=
  Network.Delivers interface n g event ∧
    ∀ batchHash batch,
      event.2 = .batch batchHash batch →
        batchHash = batch.hash

/- What a replica has from its configuration. -/
structure Setup
    (n : Nat)
    (config : Config)
    (cx : Context H) : Prop where
  keys : cx.pubKeyMap = config.pkMap.erase config.id
  secret : cx.mySecretKey = config.secretKeyBytes
  peers :
    cx.broadcastPeers =
      (List.range n).filter (· ≠ config.id)
  pending :
    ∀ x ∈ cx.pendingBatches, x.1 = x.2.hash
  kept : KeptByRound cx

/- A proposal of a leader, with its block and its batch. -/
structure Offer
    (n : Nat)
    (config : Replica → Config)
    (p : Propose H)
    (block : Block H)
    (batch : Batch) : Prop where
  hash : block.hash = p.blockHash
  author : block.header.author = leaderOf n p.round
  batch : batch.hash = block.body.batchHash
  signed :
    p =
      Propose.signed
        (config (leaderOf n p.round)).secretKeyBytes
        (leaderOf n p.round) p.round p.blockHash

/- The leader has offered the proposal to all others. -/
def Spread
    (n : Nat)
    (config : Replica → Config)
    (g : Replica → Node H)
    (p : Propose H) : Prop :=
  ∃ block batch,
    Offer n config p block batch ∧
      ∀ j, j < n → j ≠ leaderOf n p.round →
        (j, ProtocolMsg.newProposal p block batch) ∈
          (g (leaderOf n p.round)).cx.outbox

structure LiveInv
    (n f : Nat)
    (config : Replica → Config)
    (g : Replica → Node H) : Prop where
  global : GlobalInv n f g
  setup : ∀ i, i < n → Setup n (config i) (g i).cx
  spread : ∀ p, Made n g p → Spread n config g p

end Apollo

end LibApollo

------------------------------------------------------------
-- What the Handlers Leave Alone
------------------------------------------------------------

namespace LibApollo

namespace Apollo

variable {H : Type} [DecidableEq H] [Crypto H]
variable {cx cx' cx'' : Context H}
variable {sender : Replica}
variable {p : Propose H}
variable {block : Block H}

/- Keys, peers and batches stay, and packets are added. -/
structure Frame (cx cx' : Context H) : Prop where
  keys : cx'.pubKeyMap = cx.pubKeyMap
  secret : cx'.mySecretKey = cx.mySecretKey
  peers : cx'.broadcastPeers = cx.broadcastPeers
  pending : cx'.pendingBatches = cx.pendingBatches
  outbox : cx.outbox <+: cx'.outbox

omit [Crypto H] in
theorem Frame.refl (cx : Context H) : Frame cx cx :=
  ⟨rfl, rfl, rfl, rfl, List.prefix_rfl⟩

omit [Crypto H] in
theorem Frame.after
    (hSecond : Frame cx' cx'')
    (hFirst : Frame cx cx') :
    Frame cx cx'' where
  keys := hSecond.keys.trans hFirst.keys
  secret := hSecond.secret.trans hFirst.secret
  peers := hSecond.peers.trans hFirst.peers
  pending := hSecond.pending.trans hFirst.pending
  outbox := hFirst.outbox.trans hSecond.outbox

omit [Crypto H] in
theorem send_frame
    (cx : Context H)
    (dest : Replica)
    (msg : ProtocolMsg H) :
    Frame cx (cx.send dest msg) := by
  unfold Context.send
  split
  · exact Frame.refl cx
  · exact ⟨rfl, rfl, rfl, rfl, List.prefix_append _ _⟩

omit [Crypto H] in
theorem Accepted.frame
    (hAccepted : Accepted p block cx cx') :
    Frame cx cx' := by
  rcases hAccepted with ⟨_, _, _, _, _, _, rfl⟩
  exact ⟨rfl, rfl, rfl, rfl, List.prefix_append _ _⟩

theorem Receives.frame
    (hReceives : Receives sender p block cx cx') :
    Frame cx cx' := by
  cases hReceives with
  | refuse _ _ => exact Frame.refl cx
  | keep _ =>
      exact ⟨rfl, rfl, rfl, rfl, List.prefix_rfl⟩
  | equivocation _ _ => exact Frame.refl cx
  | accept _ _ hAccept =>
      exact (acceptProposal_ok hAccept).frame

theorem Delivers.frame
    (hDelivers : Delivers sender p block cx cx') :
    Frame cx cx' := by
  cases hDelivers with
  | park _ =>
      refine (send_frame _ _ _).after ?_
      exact ⟨rfl, rfl, rfl, rfl, List.prefix_rfl⟩
  | hand _ hReceives =>
      have hFrame := hReceives.frame
      exact
        { keys := hFrame.keys
          secret := hFrame.secret
          peers := hFrame.peers
          pending := hFrame.pending
          outbox := hFrame.outbox }

theorem Resolves.frame
    {blockAndBatch : Option (Block H × Batch)}
    (hResolves : Resolves sender p blockAndBatch cx cx') :
    Frame cx cx' := by
  cases hResolves with
  | leave => exact Frame.refl cx
  | ask _ _ =>
      refine (send_frame _ _ _).after ?_
      exact ⟨rfl, rfl, rfl, rfl, List.prefix_rfl⟩
  | sent _ _ _ hDelivers =>
      have hFrame := hDelivers.frame
      exact
        { keys := hFrame.keys
          secret := hFrame.secret
          peers := hFrame.peers
          pending := hFrame.pending
          outbox := hFrame.outbox }
  | stored _ _ hDelivers => exact hDelivers.frame

omit [Crypto H] in
theorem onRecvRequest_frame
    (sender : Replica)
    (reqId : Nat)
    (hash : H)
    (cx : Context H) :
    Frame cx (onRecvRequest sender reqId hash cx) := by
  unfold onRecvRequest
  split
  · exact Frame.refl cx
  split
  · exact Frame.refl cx
  split
  · rename_i hRead
    have hEq := congrArg Prod.snd hRead
    dsimp only at hEq
    rw [← hEq]
    exact ⟨rfl, rfl, rfl, rfl, List.prefix_rfl⟩
  · rename_i hRead
    have hEq := congrArg Prod.snd hRead
    dsimp only at hEq
    rw [← hEq]
    refine (send_frame _ _ _).after ?_
    exact ⟨rfl, rfl, rfl, rfl, List.prefix_rfl⟩

/- A setup does not depend on the queues of messages. -/
theorem Setup.frame
    {n : Nat}
    {config : Config}
    (hSetup : Setup n config cx)
    (hFrame : Frame cx cx')
    (hKept : KeptByRound cx') :
    Setup n config cx' where
  keys := hFrame.keys.trans hSetup.keys
  secret := hFrame.secret.trans hSetup.secret
  peers := hFrame.peers.trans hSetup.peers
  pending := by
    rw [hFrame.pending]
    exact hSetup.pending
  kept := hKept

end Apollo

end LibApollo

------------------------------------------------------------
-- The Invariant of the System
------------------------------------------------------------

namespace LibApollo

namespace Apollo

variable {H : Type} [DecidableEq H] [Crypto H]
variable {n f : Nat}
variable {config : Replica → Config}
variable {g : Replica → Node H}
variable {i : Replica}
variable {node : Node H}

/- An event other than a batch leaves the batches alone. -/
theorem Transition.setup
    {config : Config}
    {cx cx' : Context H}
    {event : Event H}
    (hTransition : Transition cx event cx')
    (hOwn :
      ∀ batchHash batch,
        event = .batch batchHash batch →
          batchHash = batch.hash)
    (hSetup : Setup n config cx) :
    Setup n config cx' ∧ cx.outbox <+: cx'.outbox := by
  have hKept := hTransition.keptByRound hSetup.kept
  cases hTransition with
  | stay => exact ⟨hSetup, List.prefix_rfl⟩
  | count _ => exact ⟨{ hSetup with }, List.prefix_rfl⟩
  | queue msg =>
      cases msg <;>
        exact ⟨{ hSetup with }, List.prefix_rfl⟩
  | install _ => exact ⟨{ hSetup with }, List.prefix_rfl⟩
  | pend batchHash batch =>
      refine ⟨{ hSetup with pending := ?_ },
        List.prefix_rfl⟩
      intro x hMem
      rcases List.mem_append.mp hMem with hOld | hNew
      · exact hSetup.pending x hOld
      · rw [List.mem_singleton] at hNew
        subst hNew
        exact hOwn batchHash batch rfl
  | proposal _ hResolves =>
      have hFrame : Frame cx cx' :=
        hResolves.frame.after
          ⟨rfl, rfl, rfl, rfl, List.prefix_rfl⟩
      exact ⟨hSetup.frame hFrame hKept, hFrame.outbox⟩
  | relay _ hResolves =>
      have hFrame : Frame cx cx' :=
        hResolves.frame.after
          ⟨rfl, rfl, rfl, rfl, List.prefix_rfl⟩
      exact ⟨hSetup.frame hFrame hKept, hFrame.outbox⟩
  | @answer sender reqId hash rest _ =>
      have hFrame :
          Frame cx
            (onRecvRequest sender reqId hash
              { cx with otherBuf := rest }) :=
        (onRecvRequest_frame _ _ _ _).after
          ⟨rfl, rfl, rfl, rfl, List.prefix_rfl⟩
      exact ⟨hSetup.frame hFrame hKept, hFrame.outbox⟩
  | skip _ => exact ⟨{ hSetup with }, List.prefix_rfl⟩
  | future _ hResolves =>
      have hFrame : Frame cx cx' :=
        hResolves.frame.after
          ⟨rfl, rfl, rfl, rfl, List.prefix_rfl⟩
      exact ⟨hSetup.frame hFrame hKept, hFrame.outbox⟩
  | child _ _ hReceives =>
      have hFrame : Frame cx cx' :=
        hReceives.frame.after
          ⟨rfl, rfl, rfl, rfl, List.prefix_rfl⟩
      exact ⟨hSetup.frame hFrame hKept, hFrame.outbox⟩

/- Every step keeps the setup and what has been sent. -/
theorem Setup.step
    {config : Config}
    {node node' : Node H}
    {event : Event H}
    (hSetup : Setup n config node.cx)
    (hOwn :
      ∀ batchHash batch,
        event = .batch batchHash batch →
          batchHash = batch.hash)
    (hStep : Apollo.step node event = .ok node') :
    Setup n config node'.cx ∧
      node.cx.outbox <+: node'.cx.outbox := by
  have hKept := keptByRound_step hSetup.kept hStep
  rcases step_transition hStep with
    ⟨hTransition, _⟩ |
      ⟨batchHash, batch, rest, ⟨_, hProposes⟩, hPropose⟩
  · exact hTransition.setup hOwn hSetup
  · rw [doPropose_eq] at hPropose
    have hFrame := (acceptProposal_ok hPropose).frame
    refine ⟨Setup.frame ?_ hFrame hKept, ?_⟩
    · refine { hSetup with pending := ?_ }
      intro x hMem
      refine hSetup.pending x ?_
      rw [hProposes.2.2.2]
      exact List.mem_cons_of_mem _ hMem
    · exact (List.prefix_append _ _).trans hFrame.outbox

/- A spread proposal stays so. -/
theorem Spread.mono
    {p : Propose H}
    {g' : Replica → Node H}
    (hSpread : Spread n config g p)
    (hOutbox :
      (g (leaderOf n p.round)).cx.outbox <+:
        (g' (leaderOf n p.round)).cx.outbox) :
    Spread n config g' p := by
  rcases hSpread with ⟨block, batch, hOffer, hSent⟩
  refine ⟨block, batch, hOffer, ?_⟩
  intro j hBound hOther
  exact hOutbox.subset (hSent j hBound hOther)

/- A proposal is spread when it is made. -/
theorem spread_newPropose
    {batchHash : H}
    {batch : Batch}
    {cx : Context H}
    (hId : (config i).id = i)
    (hPeer : PeerInv n f g i cx)
    (hTurn : leaderOf n cx.round = i)
    (hSetup : Setup n (config i) cx)
    (hBatch : batchHash = batch.hash)
    (hAccepted :
      Accepted (newPropose cx batchHash)
        (newBlock cx batchHash)
        (proposing batchHash batch cx) node.cx) :
    Spread n config (Function.update g i node)
      (newPropose cx batchHash) := by
  have hLeader :
      leaderOf n (newPropose cx batchHash).round = i := hTurn
  refine ⟨newBlock cx batchHash, batch, ?_, ?_⟩
  · refine
      { hash := rfl
        author := ?_
        batch := hBatch.symm
        signed := ?_ }
    · rw [hLeader]
      exact hPeer.myid
    · rw [hLeader, ← hSetup.secret]
      unfold newPropose
      rw [hPeer.myid]
      rfl
  · intro j hBound hOther
    rw [hLeader, Function.update_self]
    rw [hLeader] at hOther
    apply hAccepted.frame.outbox.subset
    apply List.mem_append_right
    rw [hSetup.peers, hId, List.mem_map]
    refine ⟨j, ?_, rfl⟩
    rw [List.mem_filter, List.mem_range]
    exact ⟨hBound, decide_eq_true hOther⟩

/- Every step of a replica keeps the invariant. -/
theorem LiveInv.step
    {event : Event H}
    (hFree : CollisionFree H)
    (hConfig : SystemConfig n f config)
    (hLive : LiveInv n f config g)
    (hIndex : i < n)
    (hEvent : Honest n g (i, event))
    (hStep : Apollo.step (g i) event = .ok node) :
    LiveInv n f config (Function.update g i node) := by
  have hPeer := hLive.global.peer i hIndex
  rcases (hLive.setup i hIndex).step hEvent.2 hStep with
    ⟨hSetup, hOutbox⟩
  have hMono :
      ∀ k, (g k).cx.outbox <+:
        (Function.update g i node k).cx.outbox := by
    intro k
    exact Network.at_update
      (fun s : Node H => (g k).cx.outbox <+: s.cx.outbox)
      (fun hSame => hSame ▸ hOutbox) List.prefix_rfl
  refine
    { global :=
        hLive.global.step hFree hIndex hEvent.1.2 hStep
      setup :=
        Network.forall_update
          (fun j (s : Node H) => Setup n (config j) s.cx) hSetup
          hLive.setup
      spread := ?_ }
  intro p hMade
  rw [Apollo.made_update_iff] at hMade
  split at hMade
  · rename_i hLeader
    have hMsg :
        ∀ msg, event = .recv msg →
          (madeScope n g).OkMsg msg := by
      intro msg hEq
      subst hEq
      rcases hEvent.1.2 msg rfl with
        ⟨sender, hSender, hMem⟩
      exact (hLive.global.peer sender
        hSender).data.outbox _ hMem
    rcases step_ok hPeer.data hMsg hStep with
      hEffects | ⟨batchHash, batch, rest, -, hProposes,
        hAccepted⟩
    · have hOld :=
        (hPeer.data.effects hEffects).byRound _ _ hMade
      exact (hLive.spread p hOld).mono (hMono _)
    · have hRest :
          PeerInv n f g i
            { (g i).cx with pendingBatches := rest } :=
        { data := { hPeer.data with }
          chain := { hPeer.chain with }
          linear :=
            ⟨hPeer.linear.linked, hPeer.linear.committed⟩
          myid := hPeer.myid
          numNodes := hPeer.numNodes
          numFaults := hPeer.numFaults }
      have hBatch : batchHash = batch.hash := by
        refine (hLive.setup i hIndex).pending
          (batchHash, batch) ?_
        rw [hProposes.2.2.2]
        exact List.mem_cons_self
      have hBefore :
          Setup n (config i)
            { (g i).cx with pendingBatches := rest } := by
        refine { hLive.setup i hIndex with pending := ?_ }
        intro x hMem
        refine (hLive.setup i hIndex).pending x ?_
        rw [hProposes.2.2.2]
        exact List.mem_cons_of_mem _ hMem
      have hTurn :
          leaderOf n (g i).cx.round = i := by
        rw [← hPeer.roundLeader_eq
          (Nat.zero_lt_of_lt hIndex), hProposes.2.2.1,
          hPeer.myid]
      have hNew :=
        spread_newPropose (hConfig i hIndex).1 hRest hTurn
          hBefore hBatch hAccepted
      have hLookup :
          node.cx.propChainByRound =
            (g i).cx.propChainByRound.insert
              (g i).cx.round
              (newPropose
                { (g i).cx with pendingBatches := rest }
                batchHash) := by
        rcases hAccepted with ⟨_, _, _, _, _, _, hEq⟩
        rw [hEq]
        rfl
      rw [hLookup, FinMap.lookup_insert_eq] at hMade
      split at hMade
      · cases hMade
        exact hNew
      · have hOld : Made n g p := by
          unfold Made
          rw [hLeader]
          exact hMade
        exact (hLive.spread p hOld).mono (hMono _)
  · exact (hLive.spread p hMade).mono (hMono _)

/- With fewer than `2 ^ 16` nodes every other one is a peer. -/
theorem liveInv_new
    (hFew : n < 2 ^ 16)
    (hConfig : SystemConfig n f config) :
    LiveInv n f config
      (fun i => (Node.new (config i) : Node H)) where
  global := globalInv_new hConfig
  setup := by
    intro i hIndex
    rcases hConfig i hIndex with ⟨_, hNodes, _⟩
    exact
      { keys := rfl
        secret := rfl
        peers := by
          rw [← Nat.mod_eq_of_lt hFew, ← hNodes]
          rfl
        pending := fun x hMem => absurd hMem List.not_mem_nil
        kept := keptByRound_new (config i) }
  spread := by
    intro p hMade
    exact absurd hMade (not_made_new n config p)

end Apollo

end LibApollo

------------------------------------------------------------
-- No Step Fails
------------------------------------------------------------

namespace LibApollo

namespace Apollo

open Ancestry

variable {H : Type} [DecidableEq H] [Crypto H]
variable {n f : Nat}
variable {config : Replica → Config}
variable {g : Replica → Node H}
variable {i : Replica}

/- A linear chain has no gaps. -/
theorem LinearInv.groundInv
    {cx : Context H}
    (hLinear : LinearInv cx)
    (hChain : ChainInv cx) :
    GroundInv cx := by
  have hPos := hChain.round_pos
  have hAll :
      ∀ r, r < cx.round →
        Complete cx (acceptedHash cx r) := by
    intro r
    induction r with
    | zero =>
        intro _
        rw [acceptedHash_zero]
        exact Grounded.root
    | succ r ih =>
        intro hPassed
        exact Grounded.step (hLinear.linked r hPassed)
          (ih (by omega))
  constructor
  · intro r p hLookup
    rw [← acceptedHash_of_lookup hChain hLookup]
    exact hAll r ((hChain.keys r).mp ⟨p, hLookup⟩).2
  · rw [← acceptedHash_last hChain]
    exact hAll _ (by omega)

omit [Crypto H] in
theorem storedCandidate_some
    {cx : Context H}
    {p q : Propose H}
    {block : Block H}
    (hCandidate :
      storedCandidate cx q = some (p, block)) :
    p = q := by
  unfold storedCandidate at hCandidate
  split at hCandidate
  · cases hCandidate
  · split at hCandidate
    · cases hCandidate
      rfl
    · cases hCandidate

/- What a step considers was held before. -/
theorem Data.candidate_ok
    {scope : Scope H}
    {node : Node H}
    {p : Propose H}
    {block : Block H}
    (hData : Data scope node.cx)
    (hCandidate : candidate node = some (p, block)) :
    scope.okProp p := by
  unfold candidate at hCandidate
  dsimp only at hCandidate
  split at hCandidate
  · split at hCandidate
    · cases hCandidate
    · rename_i q hLookup
      rcases Option.map_eq_some_iff.mp hCandidate with
        ⟨_, _, hPair⟩
      cases hPair
      exact hData.propWaitingParent _ _ hLookup
  split at hCandidate
  · split at hCandidate
    · cases hCandidate
    · rename_i sender _ _ batch _ hQueue
      split at hCandidate
      · cases hCandidate
        refine (hData.propBuf (sender, p, block, batch) ?_).1
        rw [hQueue]
        exact List.mem_cons_self
      · cases hCandidate
  · split at hCandidate
    · cases hCandidate
    · rename_i sender q rest hQueue
      rw [storedCandidate_some hCandidate]
      refine hData.relayBuf (sender, q) ?_
      rw [hQueue]
      exact List.mem_cons_self
  · split at hCandidate
    · cases hCandidate
    · rename_i hLookup
      rw [storedCandidate_some hCandidate]
      exact hData.futureMsgs _ _ hLookup
  · cases hCandidate

theorem leaderOf_lt
    (hPos : 0 < n)
    (r : Nat) :
    leaderOf n r < n :=
  Nat.mod_lt _ hPos

/- The key of another leader is known. -/
theorem Setup.publicKey
    {leader : Replica}
    {cx : Context H}
    (hKeys : KeysMatch H n config)
    (hId : (config i).id = i)
    (hSetup : Setup n (config i) cx)
    (hIndex : i < n)
    (hLeader : leader < n)
    (hOther : leader ≠ i) :
    ∃ publicKey,
      cx.pubKeyMap.lookup leader = some publicKey ∧
        ∀ data : SignData H,
          Crypto.verify publicKey data
            (Crypto.sign (config leader).secretKeyBytes
              data) = true := by
  rcases hKeys i leader hIndex hLeader with
    ⟨publicKey, hLookup, hVerify⟩
  refine ⟨publicKey, ?_, hVerify⟩
  rw [hSetup.keys, FinMap.lookup_erase_eq, hId,
    if_neg hOther]
  exact hLookup

/- An acceptance of a made proposal does not fail. -/
theorem GlobalInv.accept_ne_error
    {cx : Context H}
    {p : Propose H}
    {block : Block H}
    {panic : Panic}
    (hFree : CollisionFree H)
    (hGlobal : GlobalInv n f g)
    (hData : Data (madeScope n g) cx)
    (hChain : ChainInv cx)
    (hLinear : LinearInv cx)
    (hMade : Made n g p)
    (hRound : p.round = cx.round)
    (hHash : block.hash = p.blockHash)
    (hStored :
      cx.storage.deliveredBlockFromHash block.hash =
        some block) :
    acceptProposal p block cx ≠ .error panic := by
  have hGround := hLinear.groundInv hChain
  have hPrev :=
    hGlobal.prev_eq_lastSeen hFree hData hChain hMade
      hRound hHash hStored
  refine hGround.acceptProposal_ne_error hChain hRound ?_
    panic
  rw [← hHash]
  refine Complete.of_prev hStored ?_
  rw [hPrev]
  exact hGround.lastSeen

/- No step stops a replica. -/
theorem LiveInv.exists_step
    {event : Event H}
    (hFree : CollisionFree H)
    (hConfig : SystemConfig n f config)
    (hKeys : KeysMatch H n config)
    (hLive : LiveInv n f config g)
    (hEvent : Honest n g (i, event)) :
    ∃ node, Apollo.step (g i) event = .ok node := by
  have hIndex : i < n := hEvent.1.1
  have hPeer := hLive.global.peer i hIndex
  have hSetup := hLive.setup i hIndex
  have hMsg :
      ∀ msg, event = .recv msg →
        (madeScope n g).OkMsg msg := by
    intro msg hEq
    subst hEq
    rcases hEvent.1.2 msg rfl with ⟨sender, hSender, hMem⟩
    exact (hLive.global.peer sender
      hSender).data.outbox _ hMem
  cases hStep : Apollo.step (g i) event with
  | ok node => exact ⟨node, rfl⟩
  | error panic =>
      exfalso
      rcases Apollo.step_error hPeer.data hMsg hStep with
        hFailure | ⟨batchHash, batch, rest, _, hAccept⟩
      · cases hFailure with
        | blame hMem =>
            exact hPeer.data.otherBuf _ hMem
        | @pubKey mid hEffects hOther hNone =>
            have hChain :=
              hPeer.chain.effects hFree
                (madeScope_proper n g) hPeer.data hEffects
            rcases Effects.params hEffects with
              ⟨hMyid, hNodes, _⟩
            rw [hPeer.numNodes] at hNodes
            have hPos := Nat.zero_lt_of_lt hIndex
            have hLeader : mid.roundLeader < n := by
              have hEq := hChain.leader
              rw [hNodes] at hEq
              rw [hEq hPos]
              exact Nat.mod_lt _ hPos
            rw [hMyid, hPeer.myid] at hOther
            rcases hSetup.publicKey hKeys
                (hConfig i hIndex).1 hIndex hLeader
                hOther with ⟨publicKey, hLookup, _⟩
            rw [(Effects.credentials hEffects).1, hLookup]
              at hNone
            cases hNone
        | childBlock hLookup hNone =>
            rcases hPeer.chain.waiting _ _ hLookup with
              ⟨block, hStored⟩
            rw [hNone] at hStored
            cases hStored
        | @commit mid p block _ hEffects hPair hAcceptable
            hStored hAccept =>
            have hMade : Made n g p :=
              hPeer.data.candidate_ok hPair.2.1
            exact hLive.global.accept_ne_error hFree
              (hPeer.data.effects hEffects)
              (hPeer.chain.effects hFree
                (madeScope_proper n g) hPeer.data hEffects)
              (hPeer.linear.effects hFree hLive.global
                hPeer.data hPeer.chain hEffects)
              hMade hAcceptable.1 hAcceptable.2.1 hStored
              hAccept
      · have hInv : NodeInv (g i) :=
          { data :=
              hPeer.data.mono (fun _ _ => trivial)
                (fun _ hBlock => hBlock)
            chain := hPeer.chain }
        have hGround :=
          hPeer.linear.groundInv hPeer.chain
        rcases hInv.groundedProposal hFree hGround with
          ⟨hBefore, hComplete⟩
        rcases hInv.proposes hFree with ⟨_, hChain⟩
        exact hBefore.acceptProposal_ne_error hChain rfl
          hComplete panic hAccept

end Apollo

end LibApollo

------------------------------------------------------------
-- Taking the Proposal of the Round
------------------------------------------------------------

namespace LibApollo

namespace Apollo

variable {H : Type} [DecidableEq H] [Crypto H]
variable {n f : Nat}
variable {config : Replica → Config}
variable {g : Replica → Node H}
variable {i : Replica}
variable {p : Propose H}
variable {block : Block H}
variable {batch : Batch}

/- The parent of the block of the round is delivered. -/
theorem GlobalInv.parent_delivered
    (hFree : CollisionFree H)
    (hGlobal : GlobalInv n f g)
    (hIndex : i < n)
    (hMade : Made n g p)
    (hRound : p.round = (g i).cx.round)
    (hHash : block.hash = p.blockHash)
    (hProper : block.Proper) :
    (g i).cx.storage.isDeliveredByHash
      block.header.prev = true := by
  have hPeer := hGlobal.peer i hIndex
  rcases hGlobal.made p hMade with
    ⟨made, hWell, hSame, _, hPrev⟩
  have hBlock : block = made :=
    Block.Proper.eq_of_hash_eq hFree hProper
      (Or.inr hWell) (hHash.trans hSame.symm)
  subst hBlock
  rw [Storage.isDeliveredByHash_iff]
  rcases hPrev with ⟨_, hRoot⟩ | ⟨q, hq, hBefore, hPrev⟩
  · rw [hRoot]
    exact ⟨_, hPeer.chain.genesis⟩
  · have hLookup :=
      hGlobal.lookup_of_made hIndex hq (by omega)
    rw [hPrev]
    exact (hPeer.chain.entry _ _ hLookup).2

/- A spread proposal of the round passes all checks. -/
theorem LiveInv.acceptable
    {cx : Context H}
    (hConfig : SystemConfig n f config)
    (hKeys : KeysMatch H n config)
    (hLive : LiveInv n f config g)
    (hIndex : i < n)
    (hOther : leaderOf n p.round ≠ i)
    (hRound : p.round = (g i).cx.round)
    (hOffer : Offer n config p block batch)
    (hSameRound : cx.round = (g i).cx.round)
    (hSameLeader : cx.roundLeader = (g i).cx.roundLeader)
    (hSameKeys : cx.pubKeyMap = (g i).cx.pubKeyMap) :
    Acceptable cx p block := by
  have hPos := Nat.zero_lt_of_lt hIndex
  have hPeer := hLive.global.peer i hIndex
  have hOrigin : p.sig.origin = leaderOf n p.round := by
    rw [hOffer.signed]
    rfl
  have hLeader : cx.roundLeader = leaderOf n p.round := by
    rw [hSameLeader, hPeer.roundLeader_eq hPos, hRound]
  rcases (hLive.setup i hIndex).publicKey hKeys
      (hConfig i hIndex).1 hIndex
      (leaderOf_lt hPos p.round) hOther with
    ⟨publicKey, hLookup, hVerify⟩
  refine ⟨hRound.trans hSameRound.symm, hOffer.hash,
    hLeader.trans hOrigin.symm,
    hLeader.trans hOffer.author.symm,
    Or.inr ⟨publicKey, ?_, ?_⟩⟩
  · rw [hSameKeys, hOrigin]
    exact hLookup
  · unfold Propose.checkSig
    rw [hOffer.signed]
    exact hVerify _

/- A replica accepts the proposal of its round. -/
theorem LiveInv.accepts
    {cx' : Context H}
    {sender : Replica}
    {rest : List (Replica × Propose H × Block H × Batch)}
    {next : Option H}
    (hFree : CollisionFree H)
    (hConfig : SystemConfig n f config)
    (hKeys : KeysMatch H n config)
    (hLive : LiveInv n f config g)
    (hIndex : i < n)
    (hOther : leaderOf n p.round ≠ i)
    (hMade : Made n g p)
    (hRound : p.round = (g i).cx.round)
    (hOffer : Offer n config p block batch)
    (hProper : block.Proper)
    (hCheck :
      deliveryCheck sender p (some (block, batch))
        { (g i).cx with propBuf := rest } =
          .ok (cx', next)) :
    cx'.round = p.round + 1 := by
  have hPeer := hLive.global.peer i hIndex
  have hNone :
      (g i).cx.propChainByRound.lookup p.round = none := by
    cases hLookup :
        (g i).cx.propChainByRound.lookup p.round with
    | none => rfl
    | some q =>
        have hPassed :=
          (hPeer.chain.keys p.round).mp ⟨q, hLookup⟩
        omega
  have hSealed : checkBatchHash block batch = true :=
    decide_eq_true hOffer.batch
  unfold deliveryCheck at hCheck
  dsimp only at hCheck
  rw [hNone, Option.isSome_none,
    if_neg Bool.false_ne_true, if_neg (not_not.mpr hOffer.hash),
    hSealed, Bool.not_true, if_neg Bool.false_ne_true]
    at hCheck
  have hParent :=
    hLive.global.parent_delivered hFree hIndex hMade
      hRound hOffer.hash hProper
  cases deliverBlock_delivers hCheck with
  | park hMissing =>
      rw [Bool.eq_false_iff] at hMissing
      exact absurd hParent hMissing
  | @hand received _ hReceives =>
      change received.round = p.round + 1
      cases hReceives with
      | refuse _ hNot =>
          exact absurd
            (hLive.acceptable hConfig hKeys hIndex hOther
              hRound hOffer rfl rfl rfl) hNot
      | keep hLater =>
          change (g i).cx.round < p.round at hLater
          omega
      | equivocation _ hEquivocates =>
          rw [equivocates_addDeliveredBlock] at hEquivocates
          cases hEquivocates
      | accept _ _ hAccept =>
          rcases acceptProposal_ok hAccept with
            ⟨_, _, _, _, _, _, hEq⟩
          rw [hEq, hRound]
          rfl

end Apollo

end LibApollo

------------------------------------------------------------
-- Coming to Rest
------------------------------------------------------------

namespace LibApollo

namespace Apollo

variable {H : Type} [DecidableEq H] [Crypto H]
variable {n f : Nat}
variable {config : Replica → Config}
variable {g : Replica → Node H}
variable {i : Replica}

/- A run in which no other replica has moved. -/
structure Moves
    (n : Nat)
    (i : Replica)
    (g g' : Replica → Node H) : Prop where
  reach :
    Machine.Reach (Network.step Apollo.step) (Honest n) g g'
  others : ∀ j, j ≠ i → g' j = g j

theorem Moves.refl
    (n : Nat)
    (i : Replica)
    (g : Replica → Node H) :
    Moves n i g g :=
  ⟨.start, fun _ _ => rfl⟩

theorem Moves.trans
    {g' g'' : Replica → Node H}
    (hFirst : Moves n i g g')
    (hSecond : Moves n i g' g'') :
    Moves n i g g'' where
  reach := hFirst.reach.trans hSecond.reach
  others := by
    intro j hOther
    rw [hSecond.others j hOther, hFirst.others j hOther]

/- One step of a replica is a move of it. -/
theorem Moves.step
    {event : Event H}
    {node : Node H}
    (hEvent : Honest n g (i, event))
    (hStep : Apollo.step (g i) event = .ok node) :
    Moves n i g (Function.update g i node) where
  reach := by
    refine .next .start hEvent ?_
    simp only [Network.step, hStep]
  others := fun _ hOther => Function.update_of_ne hOther _ _

theorem honest_internal
    (g : Replica → Node H)
    (hIndex : i < n) :
    Honest n g (i, .internal) := by
  refine ⟨⟨hIndex, ?_⟩, ?_⟩
  · intro msg hReceived
    cases hReceived
  · intro batchHash batch hEq
    cases hEq

/-
  A replica can finish its turn, and what each of its steps
  keeps then still holds.
-/
theorem LiveInv.settles
    (P : Node H → Prop)
    (hFree : CollisionFree H)
    (hConfig : SystemConfig n f config)
    (hKeys : KeysMatch H n config)
    (hLive : LiveInv n f config g)
    (hIndex : i < n)
    (hKeep :
      ∀ s node, LiveInv n f config s →
        (∀ j, j ≠ i → s j = g j) → P (s i) →
        Apollo.step (s i) .internal = .ok node → P node)
    (hStart : P (g i)) :
    ∃ g', Moves n i g g' ∧ LiveInv n f config g' ∧
      (g' i).AtRest ∧ P (g' i) := by
  have hRest :
      ∃ g',
        Machine.Reach (Network.step Apollo.step) (Honest n)
            g g' ∧
          (LiveInv n f config g' ∧ P (g' i) ∧
            ∀ j, j ≠ i → g' j = g j) ∧
          (g' i).AtRest := by
    refine Machine.exists_rest
      (fun s => LiveInv n f config s ∧ P (s i) ∧
        ∀ j, j ≠ i → s j = g j)
      (fun s => (s i).AtRest) (fun s => (s i).work) ?_
      ⟨hLive, hStart, fun _ _ => rfl⟩
    intro s hParts hBusy
    rcases hParts with ⟨hInv, hP, hOthers⟩
    have hEvent := honest_internal s hIndex
    rcases hInv.exists_step hFree hConfig hKeys hEvent with
      ⟨node, hStep⟩
    have hSelf :=
      Function.update_self i node s
    refine ⟨(i, .internal), Function.update s i node,
      hEvent, ?_, ⟨?_, ?_, ?_⟩, ?_⟩
    · simp only [Network.step, hStep]
    · exact hInv.step hFree hConfig hIndex hEvent hStep
    · rw [hSelf]
      exact hKeep s node hInv hOthers hP hStep
    · intro j hOther
      rw [Function.update_of_ne hOther]
      exact hOthers j hOther
    · rw [hSelf]
      exact internalStep_work (hInv.setup i hIndex).kept
        hBusy hStep
  rcases hRest with
    ⟨g', hReach, ⟨hLive', hP, hOthers⟩, hRest⟩
  exact ⟨g', ⟨hReach, hOthers⟩, hLive', hRest, hP⟩

end Apollo

end LibApollo

------------------------------------------------------------
-- Catching Up
------------------------------------------------------------

namespace LibApollo

namespace Apollo

variable {H : Type} [DecidableEq H] [Crypto H]
variable {cx cx' : Context H}
variable {sender : Replica}
variable {p : Propose H}
variable {block : Block H}

theorem Receives.propBuf_eq
    (hReceives : Receives sender p block cx cx') :
    cx'.propBuf = cx.propBuf := by
  cases hReceives with
  | refuse _ _ => rfl
  | keep _ => rfl
  | equivocation _ _ => rfl
  | accept _ _ hAccept =>
      rcases acceptProposal_ok hAccept with
        ⟨_, _, _, _, _, _, rfl⟩
      rfl

theorem Delivers.propBuf_eq
    (hDelivers : Delivers sender p block cx cx') :
    cx'.propBuf = cx.propBuf := by
  cases hDelivers with
  | park _ =>
      rcases requestParent_eq sender p block cx with
        ⟨_, hEq⟩
      rw [hEq]
  | hand _ hReceives => exact hReceives.propBuf_eq

theorem Resolves.propBuf_eq
    {blockAndBatch : Option (Block H × Batch)}
    (hResolves : Resolves sender p blockAndBatch cx cx') :
    cx'.propBuf = cx.propBuf := by
  cases hResolves with
  | leave => rfl
  | ask _ _ =>
      unfold requestBlock Context.send
      split
      · rfl
      · rfl
  | sent _ _ _ hDelivers => exact hDelivers.propBuf_eq
  | stored _ _ hDelivers => exact hDelivers.propBuf_eq

theorem deliverWaitingChild_propBuf
    {hash : H}
    {next : Option H}
    (hDeliver :
      deliverWaitingChild sender hash cx =
        .ok (cx', next)) :
    cx'.propBuf = cx.propBuf := by
  unfold deliverWaitingChild at hDeliver
  split at hDeliver
  · cases hDeliver
    rfl
  · dsimp only at hDeliver
    split at hDeliver
    · cases hDeliver
    · rcases Result.bind_eq_ok.mp hDeliver with
        ⟨received, hReceive, hEnd⟩
      cases hEnd
      exact (receiveOrKeep_receives hReceive).propBuf_eq

/- Not before the reactor has been through the proposals. -/
def Phase.Early (phase : Phase) : Prop :=
  phase = .drain ∨ phase = .props

/-
  The round has been passed, or its proposal is in the queue
  and the reactor will still come to it.
-/
def Due
    (entry : Replica × Propose H × Block H × Batch)
    (node : Node H) : Prop :=
  entry.2.1.round < node.cx.round ∨
    (entry.2.1.round = node.cx.round ∧
      entry ∈ node.cx.propBuf ∧ node.phase.Early)

variable {n f : Nat}
variable {config : Replica → Config}
variable {g : Replica → Node H}
variable {i : Replica}
variable {batch : Batch}

/- A proposal that is due stays so until it is accepted. -/
theorem LiveInv.due_step
    {node : Node H}
    (hFree : CollisionFree H)
    (hConfig : SystemConfig n f config)
    (hKeys : KeysMatch H n config)
    (hLive : LiveInv n f config g)
    (hIndex : i < n)
    (hOther : leaderOf n p.round ≠ i)
    (hOffer : Offer n config p block batch)
    (hProper : block.Proper)
    (hMade : Made n g p)
    (hDue : Due (sender, p, block, batch) (g i))
    (hStep : Apollo.step (g i) .internal = .ok node) :
    Due (sender, p, block, batch) node := by
  have hLater := (step_advances hStep).round_le
  rcases hDue with hPassed | ⟨hNow, hQueued, hEarly⟩
  · exact Or.inl (Nat.lt_of_lt_of_le hPassed hLater)
  by_cases hPassed : p.round < node.cx.round
  · exact Or.inl hPassed
  refine Or.inr ⟨?_, ?_⟩
  · exact Nat.le_antisymm (hNow.le.trans hLater)
      (Nat.le_of_not_lt hPassed)
  change internalStep (g i) = .ok node at hStep
  unfold internalStep at hStep
  split at hStep
  · rcases afterDelivery_ok hStep with
      ⟨next, hDeliver, hPhase, _⟩
    rw [deliverWaitingChild_propBuf hDeliver, hPhase]
    exact ⟨hQueued, hEarly⟩
  rcases hEarly with hDrain | hProps
  · rw [hDrain] at hStep
    cases hStep
    exact ⟨hQueued, Or.inr rfl⟩
  · rw [hProps] at hStep
    simp only [processMessage, hProps] at hStep
    split at hStep
    · rename_i hEmpty
      rw [hEmpty] at hQueued
      exact absurd hQueued List.not_mem_nil
    · rename_i other q qBlock qBatch rest hQueue
      rcases afterDelivery_ok hStep with
        ⟨next, hCheck, hPhase, _⟩
      rw [hQueue] at hQueued
      rcases List.mem_cons.mp hQueued with hHead | hRest
      · cases hHead
        have hAccepted :=
          hLive.accepts hFree hConfig hKeys hIndex hOther
            hMade hNow hOffer hProper hCheck
        rw [hAccepted] at hPassed
        exact absurd (Nat.lt_succ_self _) hPassed
      · rw [(deliveryCheck_resolves hCheck).propBuf_eq,
          hPhase]
        exact ⟨hRest, Or.inr rfl⟩

/- A replica can take the proposal of its round. -/
theorem LiveInv.catchesUp
    (hFree : CollisionFree H)
    (hConfig : SystemConfig n f config)
    (hKeys : KeysMatch H n config)
    (hLive : LiveInv n f config g)
    (hIndex : i < n)
    (hMade : Made n g p)
    (hRound : p.round = (g i).cx.round) :
    ∃ g', Moves n i g g' ∧ LiveInv n f config g' ∧
      p.round < (g' i).cx.round := by
  have hPos := Nat.zero_lt_of_lt hIndex
  have hPeer := hLive.global.peer i hIndex
  have hOther : leaderOf n p.round ≠ i := by
    intro hSelf
    unfold Made at hMade
    rw [hSelf] at hMade
    have hPassed := (hPeer.chain.keys _).mp ⟨p, hMade⟩
    omega
  rcases hLive.spread p hMade with
    ⟨block, batch, hOffer, hSent⟩
  have hPacket := hSent i hIndex (Ne.symm hOther)
  have hProper : block.Proper :=
    ((hLive.global.peer _ (leaderOf_lt hPos
      p.round)).data.outbox _ hPacket).2
  -- the turn in which the proposal finds the replica
  rcases hLive.settles
      (fun node => p.round ≤ node.cx.round) hFree hConfig
      hKeys hIndex
      (fun s node _ _ hLe hStep =>
        hLe.trans (step_advances hStep).round_le)
      hRound.le with ⟨g₁, hMoves, hLive₁, hRest, hLe⟩
  rcases Nat.lt_or_eq_of_le hLe with hPassed | hStill
  · exact ⟨g₁, hMoves, hLive₁, hPassed⟩
  -- the turn in which the replica takes it
  have hLeader :
      g₁ (leaderOf n p.round) = g (leaderOf n p.round) :=
    hMoves.others _ hOther
  have hEvent :
      Honest n g₁ (i, .recv (.newProposal p block batch)) := by
    refine ⟨⟨hIndex, ?_⟩, ?_⟩
    · intro msg hReceived
      cases hReceived
      refine ⟨leaderOf n p.round, leaderOf_lt hPos _, ?_⟩
      rw [hLeader]
      exact hPacket
    · intro batchHash other hEq
      cases hEq
  rcases hLive₁.exists_step hFree hConfig hKeys hEvent with
    ⟨node, hStep⟩
  have hLive₂ :=
    hLive₁.step hFree hConfig hIndex hEvent hStep
  have hDue :
      Due (p.sig.origin, p, block, batch)
        (Function.update g₁ i node i) := by
    rw [Function.update_self]
    simp only [Apollo.step, hRest.2, true_or, if_true,
      Except.ok.injEq] at hStep
    subst hStep
    refine Or.inr ⟨hStill, ?_, Or.inl rfl⟩
    exact List.mem_append_right _ List.mem_cons_self
  rcases hLive₂.settles
      (Due (p.sig.origin, p, block, batch)) hFree hConfig
      hKeys hIndex
      (by
        intro s next hInv hOthers hStart hTaken
        have hSame : Made n s p := by
          unfold Made
          rw [hOthers _ hOther, Function.update_of_ne hOther,
            hLeader]
          exact hMade
        exact hInv.due_step hFree hConfig hKeys hIndex
          hOther hOffer hProper hSame hStart hTaken)
      hDue with ⟨g₃, hMoves₃, hLive₃, hRest₃, hDue₃⟩
  refine ⟨g₃,
    (hMoves.trans (Moves.step hEvent hStep)).trans hMoves₃,
    hLive₃, ?_⟩
  rcases hDue₃ with hPassed | ⟨_, _, hEarly⟩
  · exact hPassed
  · rcases hEarly with hDrain | hProps
    · rw [hRest₃.2] at hDrain
      cases hDrain
    · rw [hRest₃.2] at hProps
      cases hProps

/- A replica can get as far as any other has got. -/
theorem LiveInv.follows
    {k : Replica}
    {target : Nat}
    (hFree : CollisionFree H)
    (hConfig : SystemConfig n f config)
    (hKeys : KeysMatch H n config)
    (hLive : LiveInv n f config g)
    (hIndex : i < n)
    (hAhead : k < n)
    (hTarget : target ≤ (g k).cx.round) :
    ∃ g', Moves n i g g' ∧ LiveInv n f config g' ∧
      target ≤ (g' i).cx.round := by
  -- by induction on how far it is behind
  generalize hGap : target - (g i).cx.round = gap
  induction gap using Nat.strong_induction_on
    generalizing g with
  | _ gap ih =>
      by_cases hDone : target ≤ (g i).cx.round
      · exact ⟨g, Moves.refl n i g, hLive, hDone⟩
      have hNe : k ≠ i := by
        intro hSelf
        rw [hSelf] at hTarget
        exact hDone hTarget
      have hPeer := hLive.global.peer i hIndex
      have hPeer' := hLive.global.peer k hAhead
      rcases (hPeer'.chain.keys (g i).cx.round).mpr
          ⟨hPeer.chain.round_pos, by omega⟩ with
        ⟨p, hLookup⟩
      have hMade := hPeer'.data.byRound _ _ hLookup
      have hRound := (hPeer'.chain.entry _ _ hLookup).1
      rcases hLive.catchesUp hFree hConfig hKeys hIndex
          hMade hRound with
        ⟨g₁, hMoves, hLive₁, hPassed⟩
      have hStill : target ≤ (g₁ k).cx.round := by
        rw [hMoves.others k hNe]
        exact hTarget
      rcases ih (target - (g₁ i).cx.round) (by omega)
          hLive₁ hStill rfl with
        ⟨g₂, hMoves₂, hLive₂, hReached⟩
      exact ⟨g₂, hMoves.trans hMoves₂, hLive₂, hReached⟩

end Apollo

end LibApollo

------------------------------------------------------------
-- The System Does Not Get Stuck
------------------------------------------------------------

namespace LibApollo

namespace Apollo

variable {H : Type} [DecidableEq H] [Crypto H]
variable {n f : Nat}
variable {config : Replica → Config}
variable {g : Replica → Node H}
variable {i : Replica}

/- All replicas can get as far as one has got. -/
theorem LiveInv.allFollow
    {k : Replica}
    {target : Nat}
    (hFree : CollisionFree H)
    (hConfig : SystemConfig n f config)
    (hKeys : KeysMatch H n config)
    (hLive : LiveInv n f config g)
    (hAhead : k < n)
    (hTarget : target ≤ (g k).cx.round) :
    ∃ g',
      Machine.Reach (Network.step Apollo.step) (Honest n)
          g g' ∧
        LiveInv n f config g' ∧
        ∀ i, i < n → target ≤ (g' i).cx.round := by
  -- one replica after the other
  have hSome :
      ∀ m, m ≤ n →
        ∃ g',
          Machine.Reach (Network.step Apollo.step)
              (Honest n) g g' ∧
            LiveInv n f config g' ∧
            target ≤ (g' k).cx.round ∧
            ∀ i, i < m → target ≤ (g' i).cx.round := by
    intro m
    induction m with
    | zero =>
        intro _
        exact ⟨g, .start, hLive, hTarget,
          fun i hNone => absurd hNone (Nat.not_lt_zero i)⟩
    | succ m ih =>
        intro hBound
        rcases ih (by omega) with
          ⟨g₁, hReach, hLive₁, hAhead₁, hFirst⟩
        rcases hLive₁.follows hFree hConfig hKeys
            (show m < n by omega) hAhead hAhead₁ with
          ⟨g₂, hMoves, hLive₂, hReached⟩
        have hKept :
            ∀ j, target ≤ (g₁ j).cx.round →
              target ≤ (g₂ j).cx.round := by
          intro j hBefore
          by_cases hSelf : j = m
          · rw [hSelf]
            exact hReached
          · rw [hMoves.others j hSelf]
            exact hBefore
        refine ⟨g₂, hReach.trans hMoves.reach, hLive₂,
          hKept k hAhead₁, ?_⟩
        intro i hLt
        by_cases hSelf : i = m
        · rw [hSelf]
          exact hReached
        · exact hKept i (hFirst i (by omega))
  rcases hSome n (Nat.le_refl n) with
    ⟨g', hReach, hLive', _, hAll⟩
  exact ⟨g', hReach, hLive', hAll⟩

/- The leader of its round can propose. -/
theorem LiveInv.leads
    (hFree : CollisionFree H)
    (hConfig : SystemConfig n f config)
    (hKeys : KeysMatch H n config)
    (hLive : LiveInv n f config g)
    (hIndex : i < n)
    (hTurn : leaderOf n (g i).cx.round = i) :
    ∃ g', Moves n i g g' ∧ LiveInv n f config g' ∧
      (g i).cx.round < (g' i).cx.round := by
  have hPos := Nat.zero_lt_of_lt hIndex
  rcases hLive.settles
      (fun node => (g i).cx.round ≤ node.cx.round) hFree
      hConfig hKeys hIndex
      (fun s node _ _ hLe hStep =>
        hLe.trans (step_advances hStep).round_le)
      (Nat.le_refl _) with
    ⟨g₁, hMoves, hLive₁, hRest, hLe⟩
  rcases Nat.lt_or_eq_of_le hLe with hPassed | hStill
  · exact ⟨g₁, hMoves, hLive₁, hPassed⟩
  -- a batch comes in, and the leader loop takes the first
  have hEvent :
      Honest n g₁
        (i, .batch oneBatch.hash oneBatch) := by
    refine ⟨⟨hIndex, ?_⟩, ?_⟩
    · intro msg hReceived
      cases hReceived
    · intro batchHash batch hEq
      cases hEq
      rfl
  rcases hLive₁.exists_step hFree hConfig hKeys hEvent with
    ⟨node, hStep⟩
  have hLive₂ :=
    hLive₁.step hFree hConfig hIndex hEvent hStep
  have hEvent' :=
    honest_internal (Function.update g₁ i node) hIndex
  rcases hLive₂.exists_step hFree hConfig hKeys hEvent' with
    ⟨node', hStep'⟩
  have hReady :
      ∃ batchHash batch rest,
        Proposes node batchHash batch rest ∧
          node.cx.round = (g₁ i).cx.round := by
    have hPeer := hLive₁.global.peer i hIndex
    have hLeader : (g₁ i).cx.roundLeader = (g₁ i).cx.myid := by
      rw [hPeer.roundLeader_eq hPos, ← hStill, hTurn,
        hPeer.myid]
    simp only [Apollo.step, hRest.2, if_true,
      Except.ok.injEq] at hStep
    subst hStep
    have hSome :
        (g₁ i).cx.pendingBatches ++
          [(oneBatch.hash, oneBatch)] ≠ [] := by
      simp
    rcases List.exists_cons_of_ne_nil hSome with
      ⟨⟨batchHash, batch⟩, rest, hQueue⟩
    exact ⟨batchHash, batch, rest,
      ⟨hRest.1, rfl, hLeader, hQueue⟩, rfl⟩
  rcases hReady with
    ⟨batchHash, batch, rest, hProposes, hSame⟩
  rw [Function.update_self] at hStep'
  refine ⟨Function.update (Function.update g₁ i node) i
      node', (hMoves.trans (Moves.step hEvent hStep)).trans
        (Moves.step hEvent' ?_), ?_, ?_⟩
  · rw [Function.update_self]
    exact hStep'
  · refine hLive₂.step hFree hConfig hIndex hEvent' ?_
    rw [Function.update_self]
    exact hStep'
  · have hMade :=
      (step_advances hStep').made _
        (madeProposal_of_proposes ⟨rfl, hProposes⟩)
    rw [Function.update_self, hMade.2, hSame, ← hStill]
    exact Nat.lt_succ_self _

/- Any round can be reached by all replicas. -/
theorem LiveInv.allReach
    (hFree : CollisionFree H)
    (hConfig : SystemConfig n f config)
    (hKeys : KeysMatch H n config)
    (hLive : LiveInv n f config g)
    (target : Nat) :
    ∃ g',
      Machine.Reach (Network.step Apollo.step) (Honest n)
          g g' ∧
        LiveInv n f config g' ∧
        ∀ i, i < n → target ≤ (g' i).cx.round := by
  by_cases hSome : 0 < n
  case neg =>
    exact ⟨g, .start, hLive, fun i hIndex =>
      absurd (Nat.zero_lt_of_lt hIndex) hSome⟩
  induction target with
  | zero =>
      exact ⟨g, .start, hLive, fun _ _ => Nat.zero_le _⟩
  | succ target ih =>
      rcases ih with ⟨g₁, hReach, hLive₁, hAll⟩
      -- the leader of the round, unless it has passed it
      have hLeader := leaderOf_lt hSome target
      have hAhead :
          ∃ g₂,
            Machine.Reach (Network.step Apollo.step)
                (Honest n) g₁ g₂ ∧
              LiveInv n f config g₂ ∧
              target + 1 ≤
                (g₂ (leaderOf n target)).cx.round := by
        rcases Nat.lt_or_eq_of_le (hAll _ hLeader) with
          hPassed | hNow
        · exact ⟨g₁, .start, hLive₁, hPassed⟩
        · rcases hLive₁.leads hFree hConfig hKeys hLeader
              (by rw [← hNow]) with
            ⟨g₂, hMoves, hLive₂, hNext⟩
          refine ⟨g₂, hMoves.reach, hLive₂, ?_⟩
          rw [← hNow] at hNext
          exact hNext
      rcases hAhead with ⟨g₂, hReach₂, hLive₂, hPassed⟩
      rcases hLive₂.allFollow hFree hConfig hKeys hLeader
          hPassed with ⟨g₃, hReach₃, hLive₃, hAll₃⟩
      exact ⟨g₃, (hReach.trans hReach₂).trans hReach₃,
        hLive₃, hAll₃⟩

/-
  In every state that `n` replicas which follow the code can
  get into, with messages lost, repeated and reordered: no
  step stops a replica, and from there all replicas can get
  to any round, with the blocks of all rounds up to
  `numFaults` before it committed.
-/
theorem rounds_always_reachable
    (hFew : n < 2 ^ 16)
    (hFree : CollisionFree H)
    (hConfig : SystemConfig n f config)
    (hKeys : KeysMatch H n config)
    (hReach :
      Machine.Reach (Network.step Apollo.step) (Honest n)
        (fun i => Node.new (config i)) g) :
    (∀ event, Honest n g event →
        ∀ panic,
          Network.step Apollo.step g event ≠
            .error panic) ∧
      ∀ target,
        ∃ g',
          Machine.Reach (Network.step Apollo.step)
              (Honest n) g g' ∧
            ∀ i, i < n →
              target ≤ (g' i).cx.round ∧
                ∀ r, 0 < r → r + f < target →
                  acceptedHash (g' i).cx r ∈
                    (g' i).cx.storage.committedBlocksByHash := by
  have hLive : LiveInv n f config g := by
    apply hReach.invariant (LiveInv n f config)
      (liveInv_new hFew hConfig)
    rintro s s' ⟨i, event⟩ hLive hEvent hStep
    rcases Network.step_ok hStep with ⟨node, hOwn, rfl⟩
    exact hLive.step hFree hConfig hEvent.1.1 hEvent hOwn
  constructor
  · rintro ⟨i, event⟩ hEvent panic hStep
    rcases hLive.exists_step hFree hConfig hKeys hEvent with
      ⟨node, hOk⟩
    simp [Network.step, hOk] at hStep
  · intro target
    rcases hLive.allReach hFree hConfig hKeys target with
      ⟨g', hReach', hLive', hAll⟩
    refine ⟨g', hReach', ?_⟩
    intro i hIndex
    have hPeer := hLive'.global.peer i hIndex
    have hFar := hAll i hIndex
    refine ⟨hFar, ?_⟩
    intro r hPos hBound
    refine (hPeer.linear.committed _).mpr ?_
    rw [hPeer.numFaults]
    exact ⟨by omega, r, by omega, rfl⟩

theorem keysMatch_smallConfig :
    KeysMatch Digest 3 smallConfig := by
  intro i j _ hBound
  refine ⟨Digest.keyOf j, ?_, ?_⟩
  · have hCases : j = 0 ∨ j = 1 ∨ j = 2 := by omega
    change (Digest.keyMap [0, 1, 2]).lookup j = _
    rcases hCases with rfl | rfl | rfl
    · decide
    · decide
    · decide
  · intro data
    exact decide_eq_true rfl

/- Executable form of the condition on events. -/
def honestCheck
    (n : Nat)
    (g : Replica → Node Digest)
    (event : Replica × Event Digest) : Bool :=
  Network.deliversCheck interface n g event &&
    match event.2 with
    | .batch batchHash batch =>
        decide (batchHash = batch.hash)
    | _ => true

theorem honest_of_honestCheck
    {g : Replica → Node Digest}
    {event : Replica × Event Digest}
    (hCheck : honestCheck n g event = true) :
    Honest n g event := by
  unfold honestCheck at hCheck
  rw [Bool.and_eq_true] at hCheck
  refine ⟨Network.delivers_of_deliversCheck hCheck.1, ?_⟩
  intro batchHash batch hEq
  have hOwn := hCheck.2
  rw [hEq] at hOwn
  exact of_decide_eq_true hOwn

/-
  Two replicas have gone ahead and the third has received
  nothing yet.
-/
theorem rounds_always_reachable_two_rounds :
    ∃ g : Replica → Node Digest,
      Machine.Reach (Network.step Apollo.step) (Honest 3)
          (fun i => Node.new (smallConfig i)) g ∧
        (g 1).cx.round = 3 ∧
        (g 2).cx.round = 1 ∧
        ∃ g',
          Machine.Reach (Network.step Apollo.step)
              (Honest 3) g g' ∧
            100 ≤ (g' 2).cx.round ∧
            acceptedHash (g' 2).cx 98 ∈
              (g' 2).cx.storage.committedBlocksByHash := by
  have hRun :
      Machine.runCheck (Network.step Apollo.step)
        (honestCheck 3)
        (fun g =>
          decide ((g 1).cx.round = 3 ∧
            (g 2).cx.round = 1))
        (fun i => Node.new (smallConfig i)) twoRounds =
          true := by
    decide +kernel
  rcases Machine.Reach.of_runCheck
      (fun _ _ hCheck => honest_of_honestCheck hCheck)
      hRun with ⟨g, hReach, hFinal⟩
  rcases of_decide_eq_true hFinal with ⟨hFirst, hThird⟩
  have hConfig : SystemConfig 3 1 smallConfig :=
    fun _ _ => ⟨rfl, rfl, rfl⟩
  rcases (rounds_always_reachable (by decide)
      Digest.collisionFree hConfig keysMatch_smallConfig
      hReach).2 100 with
    ⟨g', hReach', hAll⟩
  rcases hAll 2 (by omega) with ⟨hFar, hCommitted⟩
  exact ⟨g, hReach, hFirst, hThird, g', hReach', hFar,
    hCommitted 98 (by omega) (by omega)⟩

end Apollo

end LibApollo
