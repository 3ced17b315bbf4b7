import LibApollo.Apollo.TotalOrder
import LibApollo.Artemis.TotalOrder
import LibApollo.Mempool.Service

/-
  Replicas with their confirmation routers and any number of
  clients.

  Both protocols implement a replicated log of batches.  The
  router of a replica takes the batches its replica has told
  it and any registrations, in any order, and the network
  may lose, repeat and delay its confirmations.  What the
  clients count is then in the one log.

  Key definitions include:
    * `Cluster`, `Cluster.step`, `Cluster.Runs`

  Key theorems include:
    * `replicas_implement_log`
    * `Cluster.Inv.step`
    * `clients_count_logged`
-/

------------------------------------------------------------
-- Replicated Logs of Batches
------------------------------------------------------------

namespace LibApollo

variable {H : Type} [DecidableEq H] [Crypto H]

/-
  In every run of either protocol, whatever is lost,
  repeated or reordered, the batches that the replicas tell
  their routers are those of one replicated log.
-/
theorem replicas_implement_log
    {depth : H → Nat}
    (hFree : CollisionFree H)
    (hDepth : HashDepth depth)
    (hHash :
      Function.Injective
        (Crypto.batchHash : List Transaction → H))
    (hBatches :
      ∀ payload,
        Crypto.batchHash (H := H) payload ≠
          Crypto.emptyHash) :
    (∀ n f config, Apollo.SystemConfig n f config →
      ReplicatedLog.Implements
        (Network.step
          (Apollo.step : Machine (Apollo.Node H) _ _))
        (Apollo.Runs n)
        (fun i => Apollo.Node.new (config i)) n
        Apollo.routerLog) ∧
      ∀ n f config, Artemis.SystemConfig n f config →
        ReplicatedLog.Implements
          (Network.step
            (Artemis.step : Machine (Artemis.Node H) _ _))
          (Artemis.Runs n)
          (fun i => Artemis.Node.new (config i)) n
          Artemis.routerLog := by
  constructor
  · intro n f config hConfig
    exact Apollo.implements_log hFree hDepth hHash hBatches
      hConfig
  · intro n f config hConfig
    exact Artemis.implements_log hFree hDepth hHash hBatches
      hConfig

def Apollo.runsCheck
    (n : Nat)
    (g : Replica → Apollo.Node Digest)
    (event : Replica × Apollo.Event Digest) : Bool :=
  Network.deliversCheck Apollo.interface n g event &&
    Apollo.sealedCheck (g event.1) event.2

theorem Apollo.runs_of_runsCheck
    {n : Nat}
    {g : Replica → Apollo.Node Digest}
    {event : Replica × Apollo.Event Digest}
    (hCheck : Apollo.runsCheck n g event = true) :
    Apollo.Runs n g event := by
  rcases (Bool.and_eq_true _ _).mp hCheck with
    ⟨hDelivers, hSealed⟩
  exact ⟨Network.delivers_of_deliversCheck hDelivers,
    (Apollo.guard_of_sealedCheck hSealed).2⟩

def Artemis.runsCheck
    (n : Nat)
    (g : Replica → Artemis.Node Digest)
    (event : Replica × Artemis.Event Digest) : Bool :=
  Network.deliversCheck Artemis.interface n g event &&
    Artemis.sealedCheck (g event.1) event.2

theorem Artemis.runs_of_runsCheck
    {n : Nat}
    {g : Replica → Artemis.Node Digest}
    {event : Replica × Artemis.Event Digest}
    (hCheck : Artemis.runsCheck n g event = true) :
    Artemis.Runs n g event := by
  rcases (Bool.and_eq_true _ _).mp hCheck with
    ⟨hDelivers, hSealed⟩
  exact ⟨Network.delivers_of_deliversCheck hDelivers,
    (Artemis.guard_of_sealedCheck hSealed).2⟩

/- In a run of each protocol replica 1 is ahead of 0. -/
theorem replicas_implement_log_one_ahead :
    (∃ (g : Replica → Apollo.Node Digest)
        (s : ReplicatedLog Batch),
      Machine.Reach (Network.step Apollo.step)
          (Apollo.Runs 3)
          (fun i => Apollo.Node.new (Apollo.smallConfig i))
          g ∧
        Apollo.routerLog g 0 = [] ∧
        Apollo.routerLog g 1 = [oneBatch] ∧
        ReplicatedLog.Shows 3 (Apollo.routerLog g) s) ∧
      ∃ (g : Replica → Artemis.Node Digest)
          (s : ReplicatedLog Batch),
        Machine.Reach (Network.step Artemis.step)
            (Artemis.Runs 3)
            (fun i =>
              Artemis.Node.new (Artemis.smallConfig i)) g ∧
          Artemis.routerLog g 0 = [] ∧
          Artemis.routerLog g 1 = [oneBatch] ∧
          ReplicatedLog.Shows 3 (Artemis.routerLog g) s := by
  rcases replicas_implement_log Digest.collisionFree
      Digest.hashDepth Digest.batchHash_injective
      Digest.batchHash_ne_emptyHash with
    ⟨hApollo, hArtemis⟩
  constructor
  · have hRun :
        Machine.runCheck (Network.step Apollo.step)
          (Apollo.runsCheck 3)
          (fun g =>
            decide (Apollo.routerLog g 0 = [] ∧
              Apollo.routerLog g 1 = [oneBatch]))
          (fun i => Apollo.Node.new (Apollo.smallConfig i))
          ([(0, .sealed oneBatch), (1, .sealed oneBatch)] ++
            Apollo.twoRounds) = true := by
      decide +kernel
    rcases Machine.Reach.of_runCheck
        (fun _ _ hCheck => Apollo.runs_of_runsCheck hCheck)
        hRun with ⟨g, hReach, hFinal⟩
    rcases of_decide_eq_true hFinal with ⟨hZero, hOne⟩
    rcases (hApollo 3 1 Apollo.smallConfig
        (fun _ _ => ⟨rfl, rfl, rfl⟩)).reach hReach with
      ⟨s, _, hShows⟩
    exact ⟨g, s, hReach, hZero, hOne, hShows⟩
  · have hRun :
        Machine.runCheck (Network.step Artemis.step)
          (Artemis.runsCheck 3)
          (fun g =>
            decide (Artemis.routerLog g 0 = [] ∧
              Artemis.routerLog g 1 = [oneBatch]))
          (fun i =>
            Artemis.Node.new (Artemis.smallConfig i))
          ((0, .sealed oneBatch) :: Artemis.twoVotes) =
            true := by
      decide +kernel
    rcases Machine.Reach.of_runCheck
        (fun _ _ hCheck => Artemis.runs_of_runsCheck hCheck)
        hRun with ⟨g, hReach, hFinal⟩
    rcases of_decide_eq_true hFinal with ⟨hZero, hOne⟩
    rcases (hArtemis 3 1 Artemis.smallConfig
        ⟨by decide, by decide, fun _ _ => ⟨rfl, rfl, rfl⟩⟩
        ).reach hReach with ⟨s, _, hShows⟩
    exact ⟨g, s, hReach, hZero, hOne, hShows⟩

end LibApollo

------------------------------------------------------------
-- Clusters
------------------------------------------------------------

namespace LibApollo

/- What a client is started with. -/
structure ClientSetup (A : Type) where
  clientId : ClientId
  payload : Nat
  txsPerBurst : Nat
  metric : Nat
  replyTo : A

/-
  The replicas, what the router of each has taken and how
  many batches of its replica are among it, and the clients.
-/
structure Cluster (S H A : Type) where
  system : S
  routers : Nat → List (ConfirmationRouter.Event H A)
  taken : Nat → Nat
  clients : Nat → KeyedClient H A

namespace Cluster

variable {S E F H A : Type}
variable [DecidableEq H] [DecidableEq A] [Crypto H]

inductive Event (E H A : Type) where
| system (event : E)
| register (i : Nat) (hash : H) (addr : A)
| commit (i : Nat)
| client (k : Nat) (event : KeyedClient.Event H A)

inductive Failure (F : Type) where
| system (failure : F)
| client (failure : Config.Failure)

omit [DecidableEq H] [DecidableEq A] [Crypto H] in
def new
    (start : S)
    (setup : Nat → ClientSetup A) : Cluster S H A where
  system := start
  routers := fun _ => []
  taken := fun _ => 0
  clients := fun k =>
    .new (setup k).clientId (setup k).payload
      (setup k).txsPerBurst (setup k).metric
      (setup k).replyTo

omit [DecidableEq H] [DecidableEq A] [Crypto H] in
/- A router takes from one of its channels. -/
def route
    (cluster : Cluster S H A)
    (i : Nat)
    (event : ConfirmationRouter.Event H A) :
    Cluster S H A :=
  { cluster with
    routers :=
      Function.update cluster.routers i
        (cluster.routers i ++ [event]) }

omit [DecidableEq A] in
def step
    (checks : Bool)
    (machine : Machine S E F)
    (out : S → Nat → List Batch) :
    Machine (Cluster S H A) (Event E H A) (Failure F) :=
  fun cluster event =>
    match event with
    | .system event => do
        let system ←
          (machine cluster.system event).mapError .system
        .ok { cluster with system := system }
    | .register i hash addr =>
        .ok (cluster.route i (.register hash addr))
    | .commit i =>
        match (out cluster.system i)[cluster.taken i]? with
        | none => .ok cluster
        | some batch =>
            .ok
              { cluster.route i (.committed batch) with
                taken :=
                  Function.update cluster.taken i
                    (cluster.taken i + 1) }
    | .client k event => do
        let client ←
          (KeyedClient.step checks (cluster.clients k)
            event).mapError .client
        .ok
          { cluster with
            clients :=
              Function.update cluster.clients k client }

/-
  A confirmation that arrives at a client was sent to its
  address by the router of a replica, now or earlier, and
  may arrive again.
-/
def Runs
    (guard : S → E → Prop)
    (n : Nat)
    (cluster : Cluster S H A) : Event E H A → Prop
| .system event => guard cluster.system event
| .register i _ _ => i < n
| .commit i => i < n
| .client k (.arrive (.message (.confirmation hash))) =>
    ∃ i, i < n ∧
      ((cluster.clients k).replyTo, hash) ∈
        (ConfirmationRouter.run (cluster.routers i)).sent
| .client _ _ => True

end Cluster

end LibApollo

------------------------------------------------------------
-- What Clients Count
------------------------------------------------------------

namespace LibApollo

namespace Cluster

variable {S E F H A : Type}
variable [DecidableEq H] [DecidableEq A] [Crypto H]
variable {checks : Bool}
variable {machine : Machine S E F}
variable {guard : S → E → Prop}
variable {start : S}
variable {n : Nat}
variable {out : S → Nat → List Batch}
variable {setup : Nat → ClientSetup A}
variable {s s' : ReplicatedLog Batch}
variable {cluster cluster' : Cluster S H A}
variable {event : Event E H A}

/- A transaction with this hash is in the log. -/
def Logged
    (s : ReplicatedLog Batch)
    (hash : H) : Prop :=
  ∃ batch ∈ s.log, ∃ tx ∈ batch.payload,
    Crypto.txHash tx = hash

omit [DecidableEq H] in
theorem Logged.later
    {hash : H}
    (hLogged : Logged s hash)
    (hSteps : ReplicatedLog.Steps s s') :
    Logged s' hash := by
  rcases hLogged with ⟨batch, hBatch, hTx⟩
  exact ⟨batch, hSteps.log_grows.subset hBatch, hTx⟩

/-
  Routers have taken batches of the log only, and the
  clients are settled and were told of the log only.
-/
structure Inv
    (checks : Bool)
    (n : Nat)
    (setup : Nat → ClientSetup A)
    (s : ReplicatedLog Batch)
    (cluster : Cluster S H A) : Prop where
  routers :
    ∀ i, i < n → ∀ batch,
      .committed batch ∈ cluster.routers i →
        batch ∈ s.log
  settled :
    ∀ k,
      KeyedClient.Settled checks (setup k).clientId
        (setup k).payload (setup k).txsPerBurst
        (setup k).metric (setup k).replyTo
        (cluster.clients k)
  told :
    ∀ k, KeyedClient.Told (Logged s) (cluster.clients k)

omit [DecidableEq A] in
theorem inv_new :
    Inv checks n setup .new (new start setup :
      Cluster S H A) where
  routers := nofun
  settled := fun _ => KeyedClient.Settled.start
  told := fun _ => ⟨nofun, nofun⟩

omit [DecidableEq A] in
/- The log may go on, with other replicas. -/
theorem Inv.later
    (hInv : Inv checks n setup s cluster)
    (hSteps : ReplicatedLog.Steps s s')
    (system : S) :
    Inv checks n setup s'
      { cluster with system := system } where
  routers := by
    intro i hIndex batch hMem
    exact hSteps.log_grows.subset
      (hInv.routers i hIndex batch hMem)
  settled := hInv.settled
  told := by
    intro k
    refine ⟨?_, ?_⟩
    · intro hash time hMem
      exact ((hInv.told k).read hash time hMem).later hSteps
    · intro hash hMem
      exact ((hInv.told k).waiting hash hMem).later hSteps

omit [DecidableEq A] in
/- A router takes a registration or a batch of the log. -/
theorem Inv.route
    {taken : ConfirmationRouter.Event H A}
    (hInv : Inv checks n setup s cluster)
    (i : Nat)
    (hTaken :
      ∀ batch, taken = .committed batch → batch ∈ s.log) :
    Inv checks n setup s (cluster.route i taken) := by
  refine { hInv with routers := ?_ }
  intro j hIndex batch hMem
  unfold Cluster.route at hMem
  dsimp only at hMem
  by_cases hSame : j = i
  · subst hSame
    rw [Function.update_self] at hMem
    rcases List.mem_append.mp hMem with hOld | hNew
    · exact hInv.routers j hIndex batch hOld
    · exact hTaken batch (List.mem_singleton.mp hNew).symm
  · rw [Function.update_of_ne hSame] at hMem
    exact hInv.routers j hIndex batch hMem

/- A client that hears from routers hears of the log. -/
theorem Inv.client
    {k : Nat}
    {event : KeyedClient.Event H A}
    {client : KeyedClient H A}
    (hInv : Inv checks n setup s cluster)
    (hGuard :
      Runs guard n cluster (.client k event))
    (hStep :
      KeyedClient.step checks (cluster.clients k) event =
        .ok client) :
    Inv checks n setup s
      { cluster with
        clients :=
          Function.update cluster.clients k client } := by
  have hArrive :
      ∀ hash,
        event = .arrive (.message (.confirmation hash)) →
          Logged s hash := by
    rintro hash rfl
    rcases hGuard with ⟨i, hIndex, hSent⟩
    rcases (ConfirmationRouter.mem_sent hSent).2 with
      ⟨batch, hCommitted, hTx⟩
    exact ⟨batch, hInv.routers i hIndex batch hCommitted,
      hTx⟩
  refine { hInv with settled := ?_, told := ?_ }
  · intro j
    by_cases hSame : j = k
    · subst hSame
      dsimp only
      rw [Function.update_self]
      exact (hInv.settled j).step hStep
    · dsimp only
      rw [Function.update_of_ne hSame]
      exact hInv.settled j
  · intro j
    by_cases hSame : j = k
    · subst hSame
      dsimp only
      rw [Function.update_self]
      exact (hInv.told j).step hArrive hStep
    · dsimp only
      rw [Function.update_of_ne hSame]
      exact hInv.told j

/- Steps of the cluster go with steps of the log. -/
theorem Inv.step
    {Relates : S → ReplicatedLog Batch → Prop}
    (hShows :
      ∀ g s, Relates g s → ReplicatedLog.Shows n (out g) s)
    (hMatch :
      ∀ g g' e s, Relates g s → guard g e →
        machine g e = .ok g' →
          ∃ s', ReplicatedLog.Steps s s' ∧ Relates g' s')
    (hRelates : Relates cluster.system s)
    (hInv : Inv checks n setup s cluster)
    (hGuard : Runs guard n cluster event)
    (hStep :
      Cluster.step checks machine out cluster event =
        .ok cluster') :
    ∃ s', ReplicatedLog.Steps s s' ∧
      Relates cluster'.system s' ∧
      Inv checks n setup s' cluster' := by
  cases event with
  | system event =>
      rcases Result.bind_eq_ok.mp hStep with
        ⟨system, hSystem, hOk⟩
      cases hOk
      rcases hMatch _ _ event s hRelates hGuard
          (Result.mapError_eq_ok.mp hSystem) with
        ⟨s', hSteps, hRelates'⟩
      exact ⟨s', hSteps, hRelates', hInv.later hSteps system⟩
  | register i hash addr =>
      cases hStep
      exact ⟨s, .refl, hRelates, hInv.route i nofun⟩
  | commit i =>
      unfold Cluster.step at hStep
      dsimp only at hStep
      split at hStep
      · cases hStep
        exact ⟨s, .refl, hRelates, hInv⟩
      · rename_i batch hNext
        cases hStep
        have hMem := List.mem_of_getElem? hNext
        rw [(hShows _ s hRelates).views i hGuard] at hMem
        have hRouted :
            Inv checks n setup s
              (cluster.route i (.committed batch)) := by
          apply hInv.route
          rintro other hEq
          cases hEq
          exact List.mem_of_mem_take hMem
        exact ⟨s, .refl, hRelates, { hRouted with }⟩
  | client k event =>
      rcases Result.bind_eq_ok.mp hStep with
        ⟨client, hClient, hOk⟩
      cases hOk
      exact ⟨s, .refl, hRelates,
        hInv.client hGuard
          (Result.mapError_eq_ok.mp hClient)⟩

/-
  Every client counts different transactions of its own, all
  of them in batches of the log, and returns when they are
  more than it was to wait for.
-/
def CountsLogged
    (checks : Bool)
    (setup : Nat → ClientSetup A)
    (s : ReplicatedLog Batch)
    (cluster : Cluster S H A) : Prop :=
  ∀ k,
    checks = true ∨
        (cluster.clients k).sent.length ≤ 2 ^ 64 →
      ∃ counted : List Transaction,
        counted.Sublist (cluster.clients k).sent ∧
          counted.Nodup ∧
          counted.length = (cluster.clients k).numCmds ∧
          (∀ tx ∈ counted,
            ∃ batch ∈ s.log, tx ∈ batch.payload) ∧
          ((cluster.clients k).returned = true →
            (setup k).metric < counted.length)

omit [DecidableEq A] in
theorem Inv.countsLogged
    (hTx :
      Function.Injective
        (Crypto.txHash : Transaction → H))
    (hInv : Inv checks n setup s cluster) :
    CountsLogged checks setup s cluster := by
  intro k hNonces
  rcases (hInv.settled k).exists_counted hTx (hInv.told k)
      hNonces with
    ⟨counted, hSent, hOnce, hCount, hLogged, hReturned⟩
  refine ⟨counted, hSent, hOnce, hCount, ?_, hReturned⟩
  intro tx hMem
  rcases hLogged tx hMem with ⟨batch, hBatch, other, hOther, hEq⟩
  rw [hTx hEq] at hOther
  exact ⟨batch, hBatch, hOther⟩

/- Clients of a system that implements the log. -/
theorem exists_countsLogged
    (hTx :
      Function.Injective
        (Crypto.txHash : Transaction → H))
    (hImplements :
      ReplicatedLog.Implements machine guard start n out)
    (hReach :
      Machine.Reach (step checks machine out)
        (Runs guard n) (new start setup) cluster) :
    ∃ s, ReplicatedLog.Steps .new s ∧
      ReplicatedLog.Shows n (out cluster.system) s ∧
      CountsLogged checks setup s cluster := by
  rcases hImplements with
    ⟨Relates, hStart, hShows, hMatch⟩
  have hExists :
      ∃ s, ReplicatedLog.Steps .new s ∧
        Relates cluster.system s ∧
        Inv checks n setup s cluster := by
    apply hReach.invariant
      (fun cluster =>
        ∃ s, ReplicatedLog.Steps .new s ∧
          Relates cluster.system s ∧
          Inv checks n setup s cluster)
    · exact ⟨.new, .refl, hStart, inv_new⟩
    · intro cluster cluster' event hParts hGuard hStep
      rcases hParts with ⟨s, hSteps, hRelates, hInv⟩
      rcases hInv.step hShows hMatch hRelates hGuard hStep
        with ⟨s', hMore, hRelates', hInv'⟩
      exact ⟨s', hSteps.trans hMore, hRelates', hInv'⟩
  rcases hExists with ⟨s, hSteps, hRelates, hInv⟩
  exact ⟨s, hSteps, hShows _ s hRelates,
    hInv.countsLogged hTx⟩

end Cluster

/-
  In every run of the replicas of either protocol with their
  routers and clients, all that the clients count is in the
  one log that the replicas agree on.
-/
theorem clients_count_logged
    {H A : Type} [DecidableEq H] [DecidableEq A] [Crypto H]
    {depth : H → Nat}
    (hFree : CollisionFree H)
    (hDepth : HashDepth depth)
    (hHash :
      Function.Injective
        (Crypto.batchHash : List Transaction → H))
    (hBatches :
      ∀ payload,
        Crypto.batchHash (H := H) payload ≠
          Crypto.emptyHash)
    (hTx :
      Function.Injective
        (Crypto.txHash : Transaction → H))
    (checks : Bool)
    (n f : Nat)
    (setup : Nat → ClientSetup A) :
    (∀ config
        (cluster : Cluster (Replica → Apollo.Node H) H A),
      Apollo.SystemConfig n f config →
        Machine.Reach
            (Cluster.step checks
              (Network.step Apollo.step) Apollo.routerLog)
            (Cluster.Runs (Apollo.Runs n) n)
            (.new (fun i => Apollo.Node.new (config i))
              setup) cluster →
          ∃ s, ReplicatedLog.Steps .new s ∧
            ReplicatedLog.Shows n
              (Apollo.routerLog cluster.system) s ∧
            cluster.CountsLogged checks setup s) ∧
      ∀ config
          (cluster :
            Cluster (Replica → Artemis.Node H) H A),
        Artemis.SystemConfig n f config →
          Machine.Reach
              (Cluster.step checks
                (Network.step Artemis.step)
                Artemis.routerLog)
              (Cluster.Runs (Artemis.Runs n) n)
              (.new (fun i => Artemis.Node.new (config i))
                setup) cluster →
            ∃ s, ReplicatedLog.Steps .new s ∧
              ReplicatedLog.Shows n
                (Artemis.routerLog cluster.system) s ∧
              cluster.CountsLogged checks setup s := by
  constructor
  · intro config cluster hConfig hReach
    exact Cluster.exists_countsLogged hTx
      (Apollo.implements_log hFree hDepth hHash hBatches
        hConfig) hReach
  · intro config cluster hConfig hReach
    exact Cluster.exists_countsLogged hTx
      (Artemis.implements_log hFree hDepth hHash hBatches
        hConfig) hReach

namespace Cluster

/- The check of a run with confirmations from routers. -/
def clusterCheck
    {S E H A : Type} [DecidableEq H] [DecidableEq A]
    [Crypto H]
    (check : S → E → Bool)
    (n : Nat)
    (cluster : Cluster S H A) : Event E H A → Bool
| .system event => check cluster.system event
| .register i _ _ => decide (i < n)
| .commit i => decide (i < n)
| .client k (.arrive (.message (.confirmation hash))) =>
    (List.range n).any
      (fun i =>
        (ConfirmationRouter.run
            (cluster.routers i)).sent.any
          (fun message =>
            decide
              (message =
                ((cluster.clients k).replyTo, hash))))
| .client _ _ => true

theorem runs_of_clusterCheck
    {S E H A : Type} [DecidableEq H] [DecidableEq A]
    [Crypto H]
    {guard : S → E → Prop}
    {check : S → E → Bool}
    {n : Nat}
    (hSound : ∀ s e, check s e = true → guard s e)
    (cluster : Cluster S H A)
    (event : Event E H A)
    (hCheck : clusterCheck check n cluster event = true) :
    Runs guard n cluster event := by
  cases event with
  | system event => exact hSound _ _ hCheck
  | register i hash addr =>
      have hIndex : i < n := of_decide_eq_true hCheck
      exact hIndex
  | commit i =>
      have hIndex : i < n := of_decide_eq_true hCheck
      exact hIndex
  | client k event =>
      unfold Runs
      split
      · rename_i hEq
        cases hEq
      · rename_i hEq
        cases hEq
      · rename_i hEq
        cases hEq
      · rename_i hEq
        cases hEq
        rcases List.any_eq_true.mp hCheck with
          ⟨i, hRange, hAny⟩
        rcases List.any_eq_true.mp hAny with
          ⟨message, hSent, hSame⟩
        rw [of_decide_eq_true hSame] at hSent
        exact ⟨i, List.mem_range.mp hRange, hSent⟩
      · trivial

def paidTx : Transaction :=
  Transaction.newDummyTxKeyed 7 1 0

def paidBlock : Block Digest :=
  Block.extending Block.genesis 0 1
    (Crypto.batchHash [paidTx])

/-
  The client sends one transaction; replica 0 proposes it,
  replica 1 commits it with its own proposal, and its router
  confirms it.
-/
def paidRun :
    List (Event (Replica × Apollo.Event Digest) Digest Nat) :=
  [.client 0 (.burst 5000000),
    .system (0, .sealed ⟨[paidTx]⟩),
    .system
      (0, .batch (Crypto.batchHash [paidTx]) ⟨[paidTx]⟩),
    .system (0, .internal),
    .system
      (1,
        .recv
          (.newProposal
            (Apollo.Propose.signed (Digest.keyOf 0) 0 1
              paidBlock.hash)
            paidBlock ⟨[paidTx]⟩))] ++
    List.replicate 8 (.system (1, .internal)) ++
    [.system (1, .sealed oneBatch),
      .system (1, Apollo.handBatch),
      .system (1, .internal),
      .register 1 (Crypto.txHash paidTx) 9,
      .commit 1,
      .client 0
        (.arrive
          (.message (.confirmation (Crypto.txHash paidTx)))),
      .client 0 (.confirm 8000000 0)]

end Cluster

theorem clients_count_logged_paid :
    ∃ (cluster :
        Cluster (Replica → Apollo.Node Digest) Digest Nat)
      (s : ReplicatedLog Batch)
      (counted : List Transaction),
      Apollo.routerLog cluster.system 0 = [] ∧
        (cluster.clients 0).returned = true ∧
        counted.length = 1 ∧
        ReplicatedLog.Shows 3
          (Apollo.routerLog cluster.system) s ∧
        ∀ tx ∈ counted,
          ∃ batch ∈ s.log, tx ∈ batch.payload := by
  have hRun :
      Machine.runCheck
          (Cluster.step true (Network.step Apollo.step)
            Apollo.routerLog)
          (Cluster.clusterCheck (Apollo.runsCheck 3) 3)
          (fun cluster =>
            decide
              (Apollo.routerLog cluster.system 0 = [] ∧
                (cluster.clients 0).returned = true ∧
                (cluster.clients 0).numCmds = 1))
          (.new
            (fun i =>
              Apollo.Node.new (Apollo.smallConfig i))
            (fun _ => ⟨7, 0, 1, 0, 9⟩))
          Cluster.paidRun = true := by
    decide +kernel
  rcases Machine.Reach.of_runCheck
      (Cluster.runs_of_clusterCheck
        (fun _ _ hCheck => Apollo.runs_of_runsCheck hCheck))
      hRun with ⟨cluster, hReach, hFinal⟩
  rcases of_decide_eq_true hFinal with
    ⟨hBehind, hReturned, hCount⟩
  rcases (clients_count_logged Digest.collisionFree
      Digest.hashDepth Digest.batchHash_injective
      Digest.batchHash_ne_emptyHash
      Digest.txHash_injective true 3 1
      (fun _ => ⟨7, 0, 1, 0, 9⟩)).1 Apollo.smallConfig
      cluster (fun _ _ => ⟨rfl, rfl, rfl⟩) hReach with
    ⟨s, _, hShows, hLogged⟩
  rcases hLogged 0 (Or.inl rfl) with
    ⟨counted, _, _, hLength, hMem, _⟩
  exact ⟨cluster, s, counted, hBehind, hReturned,
    hLength.trans hCount, hShows, hMem⟩

end LibApollo
