import LibApollo.Mempool.Client

/-
  A client together with the servers that answer it.

  The routers of the servers register and commit what they
  like, and the network may lose, repeat and delay their
  confirmations.  A count of the client then stands for as
  many of its own transactions that have been committed.

  Key definitions include:
    * `KeyedClient.Told`
    * `Service`, `Service.step`, `Service.FromServers`
    * `Service.Backed`

  Key theorems include:
    * `ConfirmationRouter.mem_sent`
    * `KeyedClient.Settled.exists_counted`
    * `Service.Inv.step`
    * `Service.counted_are_committed`
-/

------------------------------------------------------------
-- What the Client Is Told
------------------------------------------------------------

namespace LibApollo

/- An address is answered after it was registered. -/
theorem Cell.mem_answered
    {A : Type}
    {notices : List (Notice A)}
    {addr : A}
    (hMem : addr ∈ (Cell.run notices).answered) :
    .registered addr ∈ notices ∧ .committed ∈ notices := by
  refine ⟨?_, ?_⟩
  · have hAll :
        ∀ other,
          other ∈ (Cell.run notices).answered ∨
            (Cell.run notices).pending = some other →
          .registered other ∈ notices := by
      clear hMem
      induction notices using List.reverseRecOn with
      | nil => simp [Cell.run]
      | append_singleton notices notice ih =>
          intro other hOther
          rw [Cell.run_append, List.foldl_cons,
            List.foldl_nil] at hOther
          cases notice with
          | registered addr =>
              by_cases hSame : addr = other
              · simp [hSame]
              · apply List.mem_append_left
                apply ih
                left
                simpa [Cell.step, hSame] using hOther
          | committed =>
              apply List.mem_append_left
              apply ih
              cases hPending : (Cell.run notices).pending with
              | none =>
                  simpa [Cell.step, hPending] using hOther
              | some addr =>
                  rw [Cell.step, hPending] at hOther
                  simpa [eq_comm] using hOther
    exact hAll addr (.inl hMem)
  · by_contra hNone
    rw [Cell.run_answered_nil hNone] at hMem
    exact List.not_mem_nil hMem

namespace ConfirmationRouter

variable {H A : Type} [DecidableEq H] [DecidableEq A]
variable [Crypto H]

/- What the router sends was registered and committed. -/
theorem mem_sent
    {events : List (Event H A)}
    {hash : H}
    {addr : A}
    (hSent : (addr, hash) ∈ (run events).sent) :
    .register hash addr ∈ events ∧
      Committed events hash := by
  have hMem :
      addr ∈ (Cell.run (history hash events)).answered := by
    rw [← cell_run]
    simpa [cell] using hSent
  rcases Cell.mem_answered hMem with ⟨hReg, hCommit⟩
  exact ⟨registered_mem_history.mp hReg,
    committed_mem_history.mp hCommit⟩

end ConfirmationRouter

namespace KeyedClient

variable {H A : Type} [DecidableEq H] [Crypto H]
variable {P : H → Prop}
variable {checks : Bool}
variable {now ready count : Nat}
variable {client client' : KeyedClient H A}
variable {batch batch' : List Transaction}
variable {event : Event H A}

/- All that the client was told of has a property. -/
structure Told
    (P : H → Prop)
    (client : KeyedClient H A) : Prop where
  read : ∀ hash time, .stop hash time ∈ client.history → P hash
  waiting :
    ∀ hash,
      .message (.confirmation hash) ∈ client.confirmRecv →
        P hash

namespace Told

omit [DecidableEq H] [Crypto H] in
theorem emitWindowLatency
    (hTold : Told P client) :
    Told P client.emitWindowLatency := by
  unfold KeyedClient.emitWindowLatency
  split
  · exact hTold
  · exact ⟨hTold.read, hTold.waiting⟩

omit [DecidableEq H] [Crypto H] in
theorem checkMetric
    (hTold : Told P client) :
    Told P client.checkMetric := by
  unfold KeyedClient.checkMetric
  split
  · exact ⟨hTold.emitWindowLatency.read,
      hTold.emitWindowLatency.waiting⟩
  · exact hTold

omit [Crypto H] in
theorem confirmed
    {hash : H}
    {rest : List (Item H A)}
    (hTold : Told P client)
    (hNext :
      client.confirmRecv =
        .message (.confirmation hash) :: rest) :
    Told P
      (KeyedClient.confirmed now hash
        { client with confirmRecv := rest }) := by
  have hHash : P hash := by
    apply hTold.waiting hash
    rw [hNext]
    exact List.mem_cons_self
  have hRead :
      ∀ other time,
        .stop other time ∈
            client.history ++ [.stop hash now] →
          P other := by
    intro other time hMem
    rcases List.mem_append.mp hMem with hOld | hNew
    · exact hTold.read other time hOld
    · cases List.mem_singleton.mp hNew
      exact hHash
  have hWaiting :
      ∀ other,
        .message (.confirmation other) ∈ rest →
          P other := by
    intro other hMem
    apply hTold.waiting other
    rw [hNext]
    exact List.mem_cons_of_mem _ hMem
  unfold KeyedClient.confirmed
  dsimp only
  split
  · exact ⟨hRead, hWaiting⟩
  · exact ⟨hRead, hWaiting⟩

omit [DecidableEq H] [Crypto H] in
theorem skipped
    {item : Item H A}
    {rest : List (Item H A)}
    (hTold : Told P client)
    (hNext : client.confirmRecv = item :: rest) :
    Told P { client with confirmRecv := rest } := by
  refine ⟨hTold.read, ?_⟩
  intro hash hMem
  apply hTold.waiting hash
  rw [hNext]
  exact List.mem_cons_of_mem _ hMem

omit [Crypto H] in
theorem drain
    (hTold : Told P client) :
    Told P (client.drain now ready) := by
  induction ready generalizing client with
  | zero => exact hTold
  | succ ready ih =>
      rw [KeyedClient.drain]
      split
      · exact hTold
      · rename_i hNext
        exact ih (hTold.confirmed hNext)
      · rename_i hNext
        exact hTold.skipped hNext

theorem mint
    (hTold : Told P client)
    (hMint :
      KeyedClient.mint checks now count client batch =
        .ok (client', batch')) :
    Told P client' := by
  induction count generalizing client batch with
  | zero =>
      cases hMint
      exact hTold
  | succ count ih =>
      rcases Result.bind_eq_ok.mp hMint with
        ⟨nonce, hWrap, hRest⟩
      refine ih ?_ hRest
      refine ⟨?_, hTold.waiting⟩
      intro hash time hMem
      rcases List.mem_append.mp hMem with hOld | hNew
      · exact hTold.read hash time hOld
      · cases List.mem_singleton.mp hNew

theorem step
    (hTold : Told P client)
    (hArrive :
      ∀ hash,
        event = .arrive (.message (.confirmation hash)) →
          P hash)
    (hStep :
      KeyedClient.step checks client event = .ok client') :
    Told P client' := by
  unfold KeyedClient.step at hStep
  by_cases hReturned : client.returned = true
  · rw [if_pos hReturned] at hStep
    cases hStep
    exact hTold
  · rw [if_neg hReturned] at hStep
    cases event with
    | latWindow =>
        cases hStep
        exact hTold.emitWindowLatency.checkMetric
    | burst now =>
        rcases Result.bind_eq_ok.mp hStep with
          ⟨sent, hBurst, hCheck⟩
        cases hCheck
        rcases Result.bind_eq_ok.mp hBurst with
          ⟨⟨mid, batch⟩, hMint, hSend⟩
        cases hSend
        have hMid := hTold.mint hMint
        have hSent : Told P
            { mid with
              broadcasts :=
                mid.broadcasts ++
                  [.newBatch batch mid.replyTo] } :=
          ⟨hMid.read, hMid.waiting⟩
        exact hSent.checkMetric
    | arrive item =>
        cases hStep
        refine ⟨hTold.read, ?_⟩
        intro hash hMem
        rcases List.mem_append.mp hMem with hOld | hNew
        · exact hTold.waiting hash hOld
        · apply hArrive hash
          rw [List.mem_singleton.mp hNew]
    | confirm now ready =>
        dsimp only at hStep
        split at hStep
        · cases hStep
          exact hTold
        · rename_i hNext
          cases hStep
          exact (hTold.confirmed hNext).drain.checkMetric
        · rename_i hNext
          cases hStep
          exact (hTold.skipped hNext).checkMetric
        · rename_i hNext
          cases hStep
          exact hTold.skipped hNext

end Told

/-
  The transactions that the client has counted, and what it
  was told of them.
-/
theorem Settled.exists_counted
    {clientId : ClientId}
    {payload txsPerBurst metric : Nat}
    {replyTo : A}
    (hHash :
      Function.Injective
        (Crypto.txHash : Transaction → H))
    (hSettled :
      Settled checks clientId payload txsPerBurst metric
        replyTo client)
    (hTold : Told P client)
    (hNonces :
      checks = true ∨ client.sent.length ≤ 2 ^ 64) :
    ∃ counted : List Transaction,
      counted.Sublist client.sent ∧
        counted.Nodup ∧
        counted.length = client.numCmds ∧
        (∀ tx ∈ counted, P (Crypto.txHash tx)) ∧
        (client.returned = true →
          metric < counted.length) := by
  have hAccount := hSettled.account
  have hOnce := hAccount.starts_nodup hHash hNonces
  have hSent : client.sent.Nodup := by
    have hStarted := hAccount.started
    rw [List.append_nil] at hStarted
    rw [hStarted] at hOnce
    exact hOnce.of_map
  have hCount := hAccount.numCmds_eq hOnce
  rw [List.countP_eq_length_filter] at hCount
  refine ⟨_, List.filter_sublist, hSent.filter _,
    hCount.symm, ?_, ?_⟩
  · intro tx hTx
    rcases Stopwatch.mem_of_lap
        (List.mem_filter.mp hTx).2 with ⟨time, hStop⟩
    exact hTold.read _ time hStop
  · intro hReturned
    rw [← hCount]
    have hMetric := hSettled.returned
    rw [hReturned] at hMetric
    exact of_decide_eq_true hMetric.symm

end KeyedClient

end LibApollo

------------------------------------------------------------
-- The Client and its Servers
------------------------------------------------------------

namespace LibApollo

/-
  A client and servers in `N`: what the router of each has
  taken until now.
-/
structure Service (N H A : Type) where
  client : KeyedClient H A
  events : N → List (ConfirmationRouter.Event H A)

namespace Service

variable {N H A : Type}
variable [DecidableEq N] [DecidableEq H] [DecidableEq A]
variable [Crypto H]

inductive Event (N H A : Type) where
| client (event : KeyedClient.Event H A)
| server (id : N) (event : ConfirmationRouter.Event H A)

def step (checks : Bool) :
    Machine (Service N H A) (Event N H A) Config.Failure :=
  fun service event =>
    match event with
    | .client event => do
        let client ←
          KeyedClient.step checks service.client event
        .ok { service with client := client }
    | .server id event =>
        .ok
          { service with
            events :=
              Function.update service.events id
                (service.events id ++ [event]) }

/-
  A confirmation that arrives was sent to the client by the
  router of a server, now or earlier, and may arrive again.
-/
def FromServers
    (service : Service N H A) : Event N H A → Prop
| .client (.arrive (.message (.confirmation hash))) =>
    ∃ id,
      (service.client.replyTo, hash) ∈
        (ConfirmationRouter.run (service.events id)).sent
| _ => True

/- A server has committed what the client is told of. -/
def Backed
    (service : Service N H A)
    (replyTo : A)
    (hash : H) : Prop :=
  ∃ id, .register hash replyTo ∈ service.events id ∧
    ConfirmationRouter.Committed (service.events id) hash

variable {checks : Bool}
variable {clientId : ClientId}
variable {payload txsPerBurst metric : Nat}
variable {replyTo : A}
variable {service service' : Service N H A}

def new
    (clientId : ClientId)
    (payload txsPerBurst metric : Nat)
    (replyTo : A) : Service N H A where
  client :=
    .new clientId payload txsPerBurst metric replyTo
  events := fun _ => []

/- The client is settled and was told of commits only. -/
structure Inv
    (checks : Bool)
    (clientId : ClientId)
    (payload txsPerBurst metric : Nat)
    (replyTo : A)
    (service : Service N H A) : Prop where
  settled :
    KeyedClient.Settled checks clientId payload txsPerBurst
      metric replyTo service.client
  told :
    KeyedClient.Told (service.Backed replyTo) service.client

omit [DecidableEq H] [DecidableEq A] in
/- A server that takes more keeps what it has taken. -/
theorem Backed.server
    {hash : H}
    (hBacked : service.Backed replyTo hash)
    (id : N)
    (event : ConfirmationRouter.Event H A) :
    Backed
      { service with
        events :=
          Function.update service.events id
            (service.events id ++ [event]) }
      replyTo hash := by
  rcases hBacked with ⟨other, hRegister, batch, hCommit, hTx⟩
  have hMore :
      ∀ earlier ∈ service.events other,
        earlier ∈
          Function.update service.events id
            (service.events id ++ [event]) other := by
    intro earlier hMem
    by_cases hSame : other = id
    · subst hSame
      rw [Function.update_self]
      exact List.mem_append_left _ hMem
    · rw [Function.update_of_ne hSame]
      exact hMem
  exact ⟨other, hMore _ hRegister, batch,
    hMore _ hCommit, hTx⟩

theorem Inv.step
    {event : Event N H A}
    (hInv :
      Inv checks clientId payload txsPerBurst metric replyTo
        service)
    (hGuard : service.FromServers event)
    (hStep : Service.step checks service event = .ok service') :
    Inv checks clientId payload txsPerBurst metric replyTo
      service' := by
  cases event with
  | server id event =>
      cases hStep
      refine ⟨hInv.settled, ?_, ?_⟩
      · intro hash time hMem
        exact (hInv.told.read hash time hMem).server id event
      · intro hash hMem
        exact (hInv.told.waiting hash hMem).server id event
  | client event =>
      rcases Result.bind_eq_ok.mp hStep with
        ⟨client, hClient, hOk⟩
      cases hOk
      refine ⟨hInv.settled.step hClient, ?_⟩
      refine hInv.told.step ?_ hClient
      rintro hash rfl
      rcases hGuard with ⟨id, hSent⟩
      rw [hInv.settled.replyTo_eq] at hSent
      exact ⟨id, ConfirmationRouter.mem_sent hSent⟩

/-
  What the client counts are different transactions of its
  own, each registered and committed at some server.
-/
theorem counted_are_committed
    (hHash :
      Function.Injective
        (Crypto.txHash : Transaction → H))
    (hReach :
      Machine.Reach (step checks) FromServers
        (new clientId payload txsPerBurst metric replyTo)
        service)
    (hNonces :
      checks = true ∨
        service.client.sent.length ≤ 2 ^ 64) :
    ∃ counted : List Transaction,
      counted.Sublist service.client.sent ∧
        counted.Nodup ∧
        counted.length = service.client.numCmds ∧
        (∀ tx ∈ counted,
          service.Backed replyTo (Crypto.txHash tx)) ∧
        (service.client.returned = true →
          metric < counted.length) := by
  have hInv :=
    hReach.invariant
      (Inv checks clientId payload txsPerBurst metric
        replyTo)
      ⟨KeyedClient.Settled.start, ⟨nofun, nofun⟩⟩
      (fun _ _ _ hInv hGuard hStep => hInv.step hGuard hStep)
  exact hInv.settled.exists_counted hHash hInv.told hNonces

/- The check of a run with confirmations from servers. -/
def fromServersCheck
    (ids : List N)
    (service : Service N H A) : Event N H A → Bool
| .client (.arrive (.message (.confirmation hash))) =>
    ids.any
      (fun id =>
        decide
          ((service.client.replyTo, hash) ∈
            (ConfirmationRouter.run
              (service.events id)).sent))
| _ => true

omit [DecidableEq N] in
theorem fromServers_of_check
    {ids : List N}
    (service : Service N H A)
    (event : Event N H A)
    (hCheck : fromServersCheck ids service event = true) :
    service.FromServers event := by
  unfold fromServersCheck at hCheck
  split at hCheck
  · rcases List.any_eq_true.mp hCheck with ⟨id, -, hSent⟩
    exact ⟨id, of_decide_eq_true hSent⟩
  · rename_i hOther
    unfold FromServers
    split
    · rename_i hash
      exact absurd rfl (hOther hash)
    · trivial

/- One server registers and commits, and is heard twice. -/
def heardTwice : List (Event Nat Digest Nat) :=
  let tx := Transaction.newDummyTxKeyed 7 1 0
  let told : Event Nat Digest Nat :=
    .client
      (.arrive (.message (.confirmation (Crypto.txHash tx))))
  [.client (.burst 5000000),
    .server 1 (.register (Crypto.txHash tx) 9),
    .server 1 (.committed ⟨[tx]⟩),
    told, told,
    .client (.confirm 8000000 1)]

theorem counted_are_committed_heard_twice :
    ∃ (service : Service Nat Digest Nat)
      (counted : List Transaction),
      Machine.Reach (step true) FromServers
          (new 7 0 1 0 9) service ∧
        service.client.returned = true ∧
        counted.length = 1 ∧
        ∀ tx ∈ counted,
          service.Backed 9 (Crypto.txHash tx) := by
  have hRun :
      Machine.runCheck (step true) (fromServersCheck [1])
          (fun service =>
            decide
              (service.client.numCmds = 1 ∧
                service.client.returned = true))
          (new 7 0 1 0 9) heardTwice = true := by
    decide
  rcases Machine.Reach.of_runCheck fromServers_of_check hRun
    with ⟨service, hReach, hFinal⟩
  rcases of_decide_eq_true hFinal with ⟨hCount, hReturned⟩
  rcases counted_are_committed Digest.txHash_injective
      hReach (.inl rfl) with
    ⟨counted, -, -, hLength, hBacked, -⟩
  exact ⟨service, counted, hReach, hReturned,
    hLength.trans hCount, hBacked⟩

end Service

end LibApollo
