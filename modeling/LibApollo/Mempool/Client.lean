import LibApollo.Base.Run
import LibApollo.Base.Stopwatch
import LibApollo.Config
import LibApollo.Mempool.ConfirmationRouter

/-
  The client of the keyed mempool: it sends its transactions
  in bursts and waits for a confirmation of each.

  One loop serves the burst timer, the timer of the latency
  windows and the confirmations.  A confirmation may come
  from any server, more than once, or for a hash that was
  never sent.  What the client counts is read off a
  stopwatch that is started by sending a transaction and
  stopped by a confirmation.

  Key definitions include:
    * `Transaction.newDummyTxKeyed`
    * `KeyedClient`, `KeyedClient.step`
    * `KeyedClient.sent`

  Key theorems include:
    * `KeyedClient.Settled.step`
    * `KeyedClient.confirmations_counted_once`
-/

------------------------------------------------------------
-- The Client
------------------------------------------------------------

namespace LibApollo

/- The eight bytes of a 64-bit number, high byte first. -/
def toBeBytes (value : Nat) : Bytes :=
  (List.range 8).map
    (fun i => UInt8.ofNat (value / 256 ^ (7 - i)))

def Transaction.newDummyTxKeyed
    (clientId : ClientId)
    (nonce payload : Nat) : Transaction where
  clientId := clientId
  nonce := nonce
  data := toBeBytes nonce
  request := List.replicate payload 1

namespace KeyedClient

/- What the receiver of confirmations yields. -/
inductive Item (H A : Type) where
| message (msg : ClientMsg H A)
| badBytes
| closed
deriving DecidableEq, Repr

/-
  The timers, something that arrives for the receiver, and
  the branch of the loop that reads it; `ready` is how many
  further reads find something at once.
-/
inductive Event (H A : Type) where
| latWindow
| burst (now : Nat)
| arrive (item : Item H A)
| confirm (now ready : Nat)
deriving DecidableEq, Repr

end KeyedClient

/-
  The variables of the loop, with what it has broadcast, the
  latencies it has printed and, as `history`, when it has
  sent each hash and read each confirmation.  Times are in
  nanoseconds.
-/
structure KeyedClient (H A : Type) where
  clientId : ClientId
  payload : Nat
  burstSize : Nat
  metric : Nat
  replyTo : A
  nonce : Nat
  timeMap : FinMap H Nat
  numCmds : Nat
  windowSamples : List Nat
  confirmRecv : List (KeyedClient.Item H A)
  broadcasts : List (ClientMsg H A)
  latencies : List Nat
  history : List (Mark H)
  returned : Bool

namespace KeyedClient

variable {H A : Type}

def new
    (clientId : ClientId)
    (payload txsPerBurst metric : Nat)
    (replyTo : A) : KeyedClient H A where
  clientId := clientId
  payload := payload
  burstSize := max txsPerBurst 1
  metric := metric
  replyTo := replyTo
  nonce := 1
  timeMap := ∅
  numCmds := 0
  windowSamples := []
  confirmRecv := []
  broadcasts := []
  latencies := []
  history := []
  returned := false

/- The middle of the sorted samples, or the mean of two. -/
def median (samples : List Nat) : Nat :=
  let sorted := samples.mergeSort (fun a b => decide (a ≤ b))
  let mid := samples.length / 2
  if samples.length % 2 = 0 then
    (sorted.getD (mid - 1) 0 + sorted.getD mid 0) / 2
  else
    sorted.getD mid 0

def emitWindowLatency
    (client : KeyedClient H A) : KeyedClient H A :=
  if client.windowSamples.isEmpty then client
  else
    { client with
      latencies :=
        client.latencies ++ [median client.windowSamples]
      windowSamples := [] }

/- The end of an iteration. -/
def checkMetric
    (client : KeyedClient H A) : KeyedClient H A :=
  if client.metric < client.numCmds then
    { emitWindowLatency client with returned := true }
  else
    client

variable [DecidableEq H]

/- A confirmation that was read. -/
def confirmed
    (now : Nat)
    (hash : H)
    (client : KeyedClient H A) : KeyedClient H A :=
  let read :=
    { client with
      history := client.history ++ [.stop hash now] }
  match read.timeMap.lookup hash with
  | none => read
  | some sentAt =>
      { read with
        timeMap := read.timeMap.erase hash
        windowSamples :=
          read.windowSamples ++ [(now - sentAt) / 1000000]
        numCmds := read.numCmds + 1 }

/- Take the confirmations that are there already. -/
def drain
    (now : Nat) : Nat → KeyedClient H A → KeyedClient H A
| 0, client => client
| ready + 1, client =>
    match client.confirmRecv with
    | [] => client
    | .message (.confirmation hash) :: rest =>
        drain now ready
          (confirmed now hash
            { client with confirmRecv := rest })
    | _ :: rest => { client with confirmRecv := rest }

variable [Crypto H]

/- The loop that fills a burst. -/
def mint
    (checks : Bool)
    (now : Nat) :
    Nat → KeyedClient H A → List Transaction →
      Except Config.Failure
        (KeyedClient H A × List Transaction)
| 0, client, batch => .ok (client, batch)
| count + 1, client, batch => do
    let tx :=
      Transaction.newDummyTxKeyed client.clientId
        client.nonce client.payload
    let nonce ← Config.wrap checks 64 (client.nonce + 1)
    mint checks now count
      { client with
        nonce := nonce
        timeMap :=
          client.timeMap.insert (Crypto.txHash tx) now
        history :=
          client.history ++
            [.start (Crypto.txHash tx) now] }
      (batch ++ [tx])

def burst
    (checks : Bool)
    (now : Nat)
    (client : KeyedClient H A) :
    Except Config.Failure (KeyedClient H A) := do
  let (client, batch) ←
    mint checks now client.burstSize client []
  .ok
    { client with
      broadcasts :=
        client.broadcasts ++
          [.newBatch batch client.replyTo] }

/-
  One iteration of the loop.  Bytes that do not decode and a
  closed stream skip the end of the iteration.
-/
def step (checks : Bool) :
    Machine (KeyedClient H A) (Event H A) Config.Failure :=
  fun client event =>
    if client.returned then
      .ok client
    else
      match event with
      | .latWindow =>
          .ok (checkMetric (emitWindowLatency client))
      | .burst now => do
          let sent ← burst checks now client
          .ok (checkMetric sent)
      | .arrive item =>
          .ok
            { client with
              confirmRecv := client.confirmRecv ++ [item] }
      | .confirm now ready =>
          match client.confirmRecv with
          | [] => .ok client
          | .message (.confirmation hash) :: rest =>
              .ok
                (checkMetric
                  (drain now ready
                    (confirmed now hash
                      { client with confirmRecv := rest })))
          | .message _ :: rest =>
              .ok
                (checkMetric
                  { client with confirmRecv := rest })
          | _ :: rest =>
              .ok { client with confirmRecv := rest }

/- The transactions of the bursts, in order. -/
def sent (client : KeyedClient H A) : List Transaction :=
  client.broadcasts.flatMap
    (fun msg =>
      match msg with
      | .newBatch batch _ => batch
      | _ => [])

end KeyedClient

end LibApollo

------------------------------------------------------------
-- Sending
------------------------------------------------------------

namespace LibApollo

namespace KeyedClient

open Stopwatch

variable {H A : Type} [DecidableEq H] [Crypto H]
variable {checks : Bool}
variable {now count : Nat}
variable {client client' : KeyedClient H A}
variable {batch batch' : List Transaction}

/- The transaction a client sends at a position. -/
def dummy
    (client : KeyedClient H A)
    (position : Nat) : Transaction :=
  Transaction.newDummyTxKeyed client.clientId
    ((position + 1) % 2 ^ 64) client.payload

/-
  The client while it fills a burst with `batch`: what it
  has sent, and what the stopwatch of its history says.
-/
structure Account
    (checks : Bool)
    (batch : List Transaction)
    (client : KeyedClient H A) : Prop where
  nonce :
    client.nonce =
      ((client.sent ++ batch).length + 1) % 2 ^ 64
  checked :
    checks = true →
      client.nonce = (client.sent ++ batch).length + 1
  minted :
    client.sent ++ batch =
      (List.range (client.sent ++ batch).length).map
        client.dummy
  started :
    starts client.history =
      (client.sent ++ batch).map Crypto.txHash
  running :
    client.timeMap = (after client.history).running
  counted :
    client.numCmds = (after client.history).laps.length
  windows :
    ∃ windows : List (List Nat),
      client.latencies = windows.map median ∧
        (∀ window ∈ windows, window ≠ []) ∧
        windows.flatten ++ client.windowSamples =
          (after client.history).laps.map (· / 1000000)

namespace Account

/- One turn of the loop that fills a burst. -/
theorem mint
    {nonce : Nat}
    (hAccount : Account checks batch client)
    (hWrap :
      Config.wrap checks 64 (client.nonce + 1) = .ok nonce) :
    Account checks
      (batch ++
        [Transaction.newDummyTxKeyed client.clientId
          client.nonce client.payload])
      { client with
        nonce := nonce
        timeMap :=
          client.timeMap.insert
            (Crypto.txHash
              (Transaction.newDummyTxKeyed client.clientId
                client.nonce client.payload)) now
        history :=
          client.history ++
            [.start
              (Crypto.txHash
                (Transaction.newDummyTxKeyed
                  client.clientId client.nonce
                  client.payload)) now] } := by
  rcases Config.wrap_eq_ok.mp hWrap with ⟨hNonce, hFits⟩
  have hSame :
      Transaction.newDummyTxKeyed client.clientId
          client.nonce client.payload =
        client.dummy (client.sent ++ batch).length := by
    rw [hAccount.nonce]
    rfl
  have hLength :
      (client.sent ++ (batch ++
        [client.dummy
          (client.sent ++ batch).length])).length =
        (client.sent ++ batch).length + 1 := by
    simp [Nat.add_assoc]
  rw [hSame]
  refine
    { nonce := ?_
      checked := ?_
      minted := ?_
      started := ?_
      running := ?_
      counted := ?_
      windows := ?_ }
  · change nonce =
      ((client.sent ++ (batch ++ _)).length + 1) % 2 ^ 64
    rw [hLength, hNonce, hAccount.nonce, Nat.mod_add_mod]
  · intro hChecks
    change nonce = (client.sent ++ (batch ++ _)).length + 1
    rw [hLength, hNonce, Nat.mod_eq_of_lt (hFits hChecks),
      hAccount.checked hChecks]
  · change client.sent ++ (batch ++ _) =
      (List.range
        (client.sent ++ (batch ++ _)).length).map
          client.dummy
    rw [hLength, List.range_succ, List.map_append,
      ← hAccount.minted, List.append_assoc]
    rfl
  · change starts (client.history ++ _) =
      (client.sent ++ (batch ++ _)).map Crypto.txHash
    rw [starts_append, hAccount.started]
    simp [starts]
  · change client.timeMap.insert _ now =
      (after (client.history ++ _)).running
    rw [after_append, hAccount.running]
    rfl
  · change client.numCmds =
      (after (client.history ++ _)).laps.length
    rw [after_append, hAccount.counted]
    rfl
  · change ∃ windows : List (List Nat), _ ∧ _ ∧
      windows.flatten ++ client.windowSamples =
        (after (client.history ++ _)).laps.map _
    rw [after_append]
    exact hAccount.windows

end Account

/- What only a burst and the end of a turn change. -/
structure Keeps (client client' : KeyedClient H A) :
    Prop where
  clientId : client'.clientId = client.clientId
  payload : client'.payload = client.payload
  burstSize : client'.burstSize = client.burstSize
  metric : client'.metric = client.metric
  replyTo : client'.replyTo = client.replyTo
  broadcasts : client'.broadcasts = client.broadcasts
  returned : client'.returned = client.returned

namespace Keeps

omit [DecidableEq H] [Crypto H] in
theorem refl (client : KeyedClient H A) :
    Keeps client client :=
  ⟨rfl, rfl, rfl, rfl, rfl, rfl, rfl⟩

omit [DecidableEq H] [Crypto H] in
theorem after
    {client'' : KeyedClient H A}
    (hSecond : Keeps client' client'')
    (hFirst : Keeps client client') :
    Keeps client client'' :=
  ⟨hSecond.clientId.trans hFirst.clientId,
    hSecond.payload.trans hFirst.payload,
    hSecond.burstSize.trans hFirst.burstSize,
    hSecond.metric.trans hFirst.metric,
    hSecond.replyTo.trans hFirst.replyTo,
    hSecond.broadcasts.trans hFirst.broadcasts,
    hSecond.returned.trans hFirst.returned⟩

end Keeps

/- The loop that fills a burst. -/
theorem mint_ok
    (hAccount : Account checks batch client)
    (hMint :
      mint checks now count client batch =
        .ok (client', batch')) :
    Account checks batch' client' ∧
      batch'.length = batch.length + count ∧
      Keeps client client' := by
  induction count generalizing client batch with
  | zero =>
      cases hMint
      exact ⟨hAccount, rfl, .refl _⟩
  | succ count ih =>
      rcases Result.bind_eq_ok.mp hMint with
        ⟨nonce, hWrap, hRest⟩
      rcases ih (hAccount.mint hWrap) hRest with
        ⟨hFinal, hLength, hKeeps⟩
      refine ⟨hFinal, ?_,
        hKeeps.after ⟨rfl, rfl, rfl, rfl, rfl, rfl, rfl⟩⟩
      rw [hLength, List.length_append,
        List.length_singleton]
      omega

/- A burst is a broadcast of the next transactions. -/
theorem burst_ok
    (hAccount : Account checks [] client)
    (hBurst : burst checks now client = .ok client') :
    Account checks [] client' ∧
      ∃ batch mid,
        batch.length = client.burstSize ∧
          Keeps client mid ∧
          client' =
            { mid with
              broadcasts :=
                mid.broadcasts ++
                  [.newBatch batch mid.replyTo] } := by
  rcases Result.bind_eq_ok.mp hBurst with
    ⟨⟨mid, batch⟩, hMint, hSend⟩
  cases hSend
  rcases mint_ok hAccount hMint with
    ⟨hMid, hLength, hKeeps⟩
  refine ⟨?_, batch, mid, ?_, hKeeps, rfl⟩
  · have hSent :
        KeyedClient.sent
            { mid with
              broadcasts :=
                mid.broadcasts ++
                  [.newBatch batch mid.replyTo] } ++ [] =
          mid.sent ++ batch := by
      simp [sent]
    exact
      { nonce := by
          rw [hSent]
          exact hMid.nonce
        checked := by
          rw [hSent]
          exact hMid.checked
        minted := by
          rw [hSent]
          exact hMid.minted
        started := by
          rw [hSent]
          exact hMid.started
        running := hMid.running
        counted := hMid.counted
        windows := hMid.windows }
  · simpa using hLength

end KeyedClient

end LibApollo

------------------------------------------------------------
-- Counting
------------------------------------------------------------

namespace LibApollo

namespace KeyedClient

open Stopwatch

variable {H A : Type} [DecidableEq H] [Crypto H]
variable {checks : Bool}
variable {now ready : Nat}
variable {client client' : KeyedClient H A}
variable {batch : List Transaction}

namespace Account

/- What has arrived is no part of the account. -/
theorem received
    (hAccount : Account checks batch client)
    (items : List (Item H A)) :
    Account checks batch
      { client with confirmRecv := items } :=
  ⟨hAccount.nonce, hAccount.checked, hAccount.minted,
    hAccount.started, hAccount.running, hAccount.counted,
    hAccount.windows⟩

theorem ended
    (hAccount : Account checks batch client) :
    Account checks batch { client with returned := true } :=
  ⟨hAccount.nonce, hAccount.checked, hAccount.minted,
    hAccount.started, hAccount.running, hAccount.counted,
    hAccount.windows⟩

theorem emitWindowLatency
    (hAccount : Account checks batch client) :
    Account checks batch client.emitWindowLatency := by
  unfold KeyedClient.emitWindowLatency
  split
  · exact hAccount
  · rename_i hSome
    rcases hAccount.windows with
      ⟨windows, hLatencies, hNonempty, hFlat⟩
    refine
      ⟨hAccount.nonce, hAccount.checked, hAccount.minted,
        hAccount.started, hAccount.running,
        hAccount.counted,
        windows ++ [client.windowSamples], ?_, ?_, ?_⟩
    · simp [hLatencies]
    · intro window hWindow
      rcases List.mem_append.mp hWindow with hOld | hNew
      · exact hNonempty window hOld
      · rw [List.mem_singleton.mp hNew]
        simpa using hSome
    · simpa using hFlat

/- A confirmation stops the hand of its hash. -/
theorem confirmed
    (hAccount : Account checks batch client)
    (hash : H) :
    Account checks batch (client.confirmed now hash) := by
  have hStarted :
      starts (client.history ++ [.stop hash now]) =
        (client.sent ++ batch).map Crypto.txHash := by
    rw [starts_append, hAccount.started]
    exact List.append_nil _
  rcases hAccount.windows with
    ⟨windows, hLatencies, hNonempty, hFlat⟩
  have hAfter := after_append client.history (.stop hash now)
  unfold KeyedClient.confirmed
  cases hRun : client.timeMap.lookup hash with
  | none =>
      have hWatch := hRun
      rw [hAccount.running] at hWatch
      rw [press_stop_of_none hWatch] at hAfter
      simp only [hRun]
      refine
        ⟨hAccount.nonce, hAccount.checked,
          hAccount.minted, hStarted, ?_, ?_,
          windows, hLatencies, hNonempty, ?_⟩
      · exact hAccount.running.trans
          (congrArg Stopwatch.running hAfter.symm)
      · exact hAccount.counted.trans
          (congrArg (List.length ∘ Stopwatch.laps)
            hAfter.symm)
      · rw [hAfter]
        exact hFlat
  | some sentAt =>
      have hWatch := hRun
      rw [hAccount.running] at hWatch
      rw [press_stop_of_some hWatch] at hAfter
      simp only [hRun]
      refine
        ⟨hAccount.nonce, hAccount.checked,
          hAccount.minted, hStarted, ?_, ?_,
          windows, hLatencies, hNonempty, ?_⟩
      · rw [hAfter, hAccount.running]
      · rw [hAfter, hAccount.counted]
        simp
      · rw [hAfter, ← List.append_assoc, hFlat]
        simp

theorem drain
    (hAccount : Account checks batch client) :
    Account checks batch (client.drain now ready) := by
  induction ready generalizing client with
  | zero => exact hAccount
  | succ ready ih =>
      rw [KeyedClient.drain]
      split
      · exact hAccount
      · exact ih ((hAccount.received _).confirmed _)
      · exact hAccount.received _

end Account

omit [DecidableEq H] [Crypto H] in
theorem keeps_emitWindowLatency
    (client : KeyedClient H A) :
    Keeps client client.emitWindowLatency := by
  unfold emitWindowLatency
  split
  · exact .refl _
  · exact ⟨rfl, rfl, rfl, rfl, rfl, rfl, rfl⟩

omit [Crypto H] in
theorem keeps_confirmed
    (now : Nat)
    (hash : H)
    (client : KeyedClient H A) :
    Keeps client (client.confirmed now hash) := by
  unfold confirmed
  dsimp only
  split
  · exact ⟨rfl, rfl, rfl, rfl, rfl, rfl, rfl⟩
  · exact ⟨rfl, rfl, rfl, rfl, rfl, rfl, rfl⟩

omit [Crypto H] in
theorem keeps_drain
    (now ready : Nat)
    (client : KeyedClient H A) :
    Keeps client (client.drain now ready) := by
  induction ready generalizing client with
  | zero => exact .refl _
  | succ ready ih =>
      rw [drain]
      split
      · exact .refl _
      · exact (ih _).after ((keeps_confirmed _ _ _).after
          ⟨rfl, rfl, rfl, rfl, rfl, rfl, rfl⟩)
      · exact ⟨rfl, rfl, rfl, rfl, rfl, rfl, rfl⟩

end KeyedClient

end LibApollo

------------------------------------------------------------
-- Runs of the Client
------------------------------------------------------------

namespace LibApollo

namespace KeyedClient

open Stopwatch

variable {H A : Type} [DecidableEq H] [Crypto H]
variable {checks : Bool}
variable {now ready : Nat}
variable {clientId : ClientId}
variable {payload txsPerBurst metric : Nat}
variable {replyTo : A}
variable {client client' : KeyedClient H A}
variable {event : Event H A}

/- The client inside an iteration of its loop. -/
structure Looping
    (checks : Bool)
    (clientId : ClientId)
    (payload txsPerBurst metric : Nat)
    (replyTo : A)
    (client : KeyedClient H A) : Prop where
  account : Account checks [] client
  clientId_eq : client.clientId = clientId
  payload_eq : client.payload = payload
  burstSize_eq : client.burstSize = max txsPerBurst 1
  metric_eq : client.metric = metric
  replyTo_eq : client.replyTo = replyTo
  bursts :
    ∀ msg ∈ client.broadcasts, ∃ batch,
      msg = .newBatch batch replyTo ∧
        batch.length = max txsPerBurst 1

/- The client between two iterations. -/
structure Settled
    (checks : Bool)
    (clientId : ClientId)
    (payload txsPerBurst metric : Nat)
    (replyTo : A)
    (client : KeyedClient H A) : Prop extends
    Looping checks clientId payload txsPerBurst metric
      replyTo client where
  returned :
    client.returned = decide (metric < client.numCmds)
  flushed :
    client.returned = true → client.windowSamples = []

namespace Looping

theorem of_keeps
    (hLoop :
      Looping checks clientId payload txsPerBurst metric
        replyTo client)
    (hAccount : Account checks [] client')
    (hKeeps : Keeps client client') :
    Looping checks clientId payload txsPerBurst metric
      replyTo client' where
  account := hAccount
  clientId_eq := hKeeps.clientId.trans hLoop.clientId_eq
  payload_eq := hKeeps.payload.trans hLoop.payload_eq
  burstSize_eq := hKeeps.burstSize.trans hLoop.burstSize_eq
  metric_eq := hKeeps.metric.trans hLoop.metric_eq
  replyTo_eq := hKeeps.replyTo.trans hLoop.replyTo_eq
  bursts := by
    rw [hKeeps.broadcasts]
    exact hLoop.bursts

theorem received
    (hLoop :
      Looping checks clientId payload txsPerBurst metric
        replyTo client)
    (items : List (Item H A)) :
    Looping checks clientId payload txsPerBurst metric
      replyTo { client with confirmRecv := items } :=
  hLoop.of_keeps (hLoop.account.received items)
    ⟨rfl, rfl, rfl, rfl, rfl, rfl, rfl⟩

/- A confirmation and those that are there already. -/
theorem confirmed
    (hLoop :
      Looping checks clientId payload txsPerBurst metric
        replyTo client)
    (hash : H)
    (rest : List (Item H A)) :
    Looping checks clientId payload txsPerBurst metric
        replyTo
        (KeyedClient.drain now ready
          (KeyedClient.confirmed now hash
            { client with confirmRecv := rest })) ∧
      (KeyedClient.drain now ready
        (KeyedClient.confirmed now hash
          { client with confirmRecv := rest })).returned =
        client.returned := by
  have hRead := hLoop.received rest
  have hKeeps :=
    (keeps_drain now ready _).after
      (keeps_confirmed now hash
        { client with confirmRecv := rest })
  exact
    ⟨hRead.of_keeps (hRead.account.confirmed hash).drain
        hKeeps,
      hKeeps.returned⟩

theorem burst
    (hLoop :
      Looping checks clientId payload txsPerBurst metric
        replyTo client)
    (hBurst :
      KeyedClient.burst checks now client = .ok client') :
    Looping checks clientId payload txsPerBurst metric
        replyTo client' ∧
      client'.returned = client.returned := by
  rcases burst_ok hLoop.account hBurst with
    ⟨hAccount, batch, mid, hLength, hKeeps, rfl⟩
  refine
    ⟨{ account := hAccount
       clientId_eq := hKeeps.clientId.trans hLoop.clientId_eq
       payload_eq := hKeeps.payload.trans hLoop.payload_eq
       burstSize_eq :=
         hKeeps.burstSize.trans hLoop.burstSize_eq
       metric_eq := hKeeps.metric.trans hLoop.metric_eq
       replyTo_eq := hKeeps.replyTo.trans hLoop.replyTo_eq
       bursts := ?_ },
      hKeeps.returned⟩
  intro msg hMsg
  rcases List.mem_append.mp hMsg with hOld | hNew
  · rw [hKeeps.broadcasts] at hOld
    exact hLoop.bursts msg hOld
  · rw [List.mem_singleton.mp hNew, hKeeps.replyTo,
      hLoop.replyTo_eq]
    exact ⟨batch, rfl, hLength.trans hLoop.burstSize_eq⟩

/- The end of an iteration settles the client. -/
theorem checkMetric
    (hLoop :
      Looping checks clientId payload txsPerBurst metric
        replyTo client)
    (hGoing : client.returned = false) :
    Settled checks clientId payload txsPerBurst metric
      replyTo client.checkMetric := by
  unfold KeyedClient.checkMetric
  by_cases hDone : client.metric < client.numCmds
  · rw [if_pos hDone]
    have hEmit :=
      hLoop.of_keeps hLoop.account.emitWindowLatency
        (keeps_emitWindowLatency client)
    refine
      { account := hEmit.account.ended
        clientId_eq := hEmit.clientId_eq
        payload_eq := hEmit.payload_eq
        burstSize_eq := hEmit.burstSize_eq
        metric_eq := hEmit.metric_eq
        replyTo_eq := hEmit.replyTo_eq
        bursts := hEmit.bursts
        returned := ?_
        flushed := ?_ }
    · change true =
        decide (metric < client.emitWindowLatency.numCmds)
      rw [hLoop.metric_eq] at hDone
      unfold emitWindowLatency
      split
      · simp [hDone]
      · simp [hDone]
    · intro _
      change client.emitWindowLatency.windowSamples = []
      unfold emitWindowLatency
      split
      · rename_i hNone
        simpa using hNone
      · rfl
  · rw [if_neg hDone]
    rw [hLoop.metric_eq] at hDone
    refine { hLoop with returned := ?_, flushed := ?_ }
    · simp [hGoing, hDone]
    · simp [hGoing]

end Looping

namespace Settled

theorem start :
    Settled checks clientId payload txsPerBurst metric
      replyTo
      (new clientId payload txsPerBurst metric replyTo :
        KeyedClient H A) where
  account :=
    { nonce := rfl
      checked := fun _ => rfl
      minted := rfl
      started := rfl
      running := rfl
      counted := rfl
      windows := ⟨[], rfl, List.forall_mem_nil _, rfl⟩ }
  clientId_eq := rfl
  payload_eq := rfl
  burstSize_eq := rfl
  metric_eq := rfl
  replyTo_eq := rfl
  bursts := List.forall_mem_nil _
  returned := by simp [new]
  flushed := fun hReturned => nomatch hReturned

/- What has arrived is no part of it. -/
theorem received
    (hSettled :
      Settled checks clientId payload txsPerBurst metric
        replyTo client)
    (items : List (Item H A)) :
    Settled checks clientId payload txsPerBurst metric
      replyTo { client with confirmRecv := items } :=
  { hSettled.toLooping.received items with
    returned := hSettled.returned
    flushed := hSettled.flushed }

theorem step
    (hSettled :
      Settled checks clientId payload txsPerBurst metric
        replyTo client)
    (hStep :
      KeyedClient.step checks client event = .ok client') :
    Settled checks clientId payload txsPerBurst metric
      replyTo client' := by
  unfold KeyedClient.step at hStep
  by_cases hReturned : client.returned = true
  · rw [if_pos hReturned] at hStep
    cases hStep
    exact hSettled
  · rw [if_neg hReturned] at hStep
    have hGoing : client.returned = false := by
      simpa using hReturned
    have hLoop := hSettled.toLooping
    cases event with
    | latWindow =>
        cases hStep
        have hKeeps := keeps_emitWindowLatency client
        exact (hLoop.of_keeps
          hLoop.account.emitWindowLatency hKeeps).checkMetric
            (hKeeps.returned.trans hGoing)
    | burst now =>
        rcases Result.bind_eq_ok.mp hStep with
          ⟨sent, hBurst, hCheck⟩
        cases hCheck
        rcases hLoop.burst hBurst with ⟨hSent, hStill⟩
        exact hSent.checkMetric (hStill.trans hGoing)
    | arrive item =>
        cases hStep
        exact hSettled.received _
    | confirm now ready =>
        dsimp only at hStep
        split at hStep
        · cases hStep
          exact hSettled
        · cases hStep
          rcases hLoop.confirmed _ _ with ⟨hRead, hStill⟩
          exact hRead.checkMetric (hStill.trans hGoing)
        · cases hStep
          exact (hLoop.received _).checkMetric hGoing
        · cases hStep
          exact hSettled.received _

end Settled

/- Every nonce is used once until the numbers run out. -/
theorem Account.starts_nodup
    (hAccount : Account checks [] client)
    (hHash :
      Function.Injective
        (Crypto.txHash : Transaction → H))
    (hNonces :
      checks = true ∨ client.sent.length ≤ 2 ^ 64) :
    (starts client.history).Nodup := by
  have hFew : client.sent.length ≤ 2 ^ 64 := by
    rcases hNonces with hChecks | hFew
    · have hNonce := hAccount.nonce
      rw [hAccount.checked hChecks,
        List.append_nil] at hNonce
      have hLess :=
        Nat.mod_lt (client.sent.length + 1)
          (Nat.two_pow_pos 64)
      omega
    · exact hFew
  have hMinted := hAccount.minted
  have hStarted := hAccount.started
  rw [List.append_nil] at hMinted hStarted
  rw [hStarted, hMinted]
  apply (List.nodup_map_iff hHash).mpr
  apply List.Nodup.map_on ?_ List.nodup_range
  intro i hI j hJ hSame
  rw [List.mem_range] at hI hJ
  have hNonce : (i + 1) % 2 ^ 64 = (j + 1) % 2 ^ 64 :=
    congrArg Transaction.nonce hSame
  omega

/- The count of the client, read off its history. -/
theorem Account.numCmds_eq
    (hAccount : Account checks [] client)
    (hOnce : (starts client.history).Nodup) :
    client.numCmds =
      client.sent.countP
        (fun tx =>
          (lap (Crypto.txHash tx)
            client.history).isSome) := by
  have hStarted := hAccount.started
  rw [List.append_nil] at hStarted
  rw [hAccount.counted, (laps_perm hOnce).length_eq,
    hStarted, List.filterMap_map,
    List.length_filterMap_eq_countP]
  rfl

/-
  Whatever confirmations come, the client counts each of its
  transactions at most once, and the latencies it prints are
  the medians of the first confirmations.
-/
theorem confirmations_counted_once
    (hHash :
      Function.Injective
        (Crypto.txHash : Transaction → H))
    (hReach :
      Machine.Reach (step checks) (fun _ _ => True)
        (new clientId payload txsPerBurst metric replyTo)
        client)
    (hNonces :
      checks = true ∨ client.sent.length ≤ 2 ^ 64) :
    client.sent =
        (List.range client.sent.length).map
          (fun i =>
            Transaction.newDummyTxKeyed clientId
              ((i + 1) % 2 ^ 64) payload) ∧
      (∀ msg ∈ client.broadcasts, ∃ batch,
        msg = .newBatch batch replyTo ∧
          batch.length = max txsPerBurst 1) ∧
      client.numCmds =
        client.sent.countP
          (fun tx =>
            (lap (Crypto.txHash tx)
              client.history).isSome) ∧
      client.numCmds + client.timeMap.keys.card =
        client.sent.length ∧
      (∃ windows : List (List Nat),
        client.latencies = windows.map median ∧
          (∀ window ∈ windows, window ≠ []) ∧
          (windows.flatten ++ client.windowSamples).Perm
            (client.sent.filterMap
              (fun tx =>
                (lap (Crypto.txHash tx)
                  client.history).map (· / 1000000)))) ∧
      client.returned = decide (metric < client.numCmds) ∧
      (client.returned = true →
        client.windowSamples = []) := by
  have hSettled :=
    hReach.invariant
      (Settled checks clientId payload txsPerBurst metric
        replyTo)
      Settled.start
      (fun _ _ _ hInv _ hStep => hInv.step hStep)
  have hAccount := hSettled.account
  have hOnce := hAccount.starts_nodup hHash hNonces
  have hMinted := hAccount.minted
  have hStarted := hAccount.started
  rw [List.append_nil] at hMinted hStarted
  refine ⟨?_, hSettled.bursts, hAccount.numCmds_eq hOnce,
    ?_, ?_, hSettled.returned, hSettled.flushed⟩
  · unfold dummy at hMinted
    rw [hSettled.clientId_eq, hSettled.payload_eq] at hMinted
    exact hMinted
  · have hTotal := laps_add_running hOnce
    rw [hStarted, List.length_map] at hTotal
    rw [hAccount.counted, hAccount.running]
    exact hTotal
  · rcases hAccount.windows with
      ⟨windows, hLatencies, hNonempty, hFlat⟩
    refine ⟨windows, hLatencies, hNonempty, ?_⟩
    rw [hFlat]
    have hPerm := (laps_perm hOnce).map (· / 1000000)
    rw [hStarted, List.filterMap_map,
      List.map_filterMap] at hPerm
    exact hPerm

/-
  Two transactions are sent.  The first is confirmed twice,
  and between these comes the hash of one never sent.
-/
def strayConfirmations : List (Event Digest Nat) :=
  let first :=
    Crypto.txHash (Transaction.newDummyTxKeyed 7 1 0)
  let stray :=
    Crypto.txHash (Transaction.newDummyTxKeyed 8 1 0)
  [.burst 5000000,
    .arrive (.message (.confirmation first)),
    .arrive (.message (.confirmation stray)),
    .arrive (.message (.confirmation first)),
    .confirm 8000000 2,
    .latWindow]

theorem confirmations_counted_once_stray :
    ∃ client : KeyedClient Digest Nat,
      Machine.Reach (step true) (fun _ _ => True)
          (new 7 0 2 1 9) client ∧
        client.sent.length = 2 ∧
        client.numCmds = 1 ∧
        client.timeMap.keys.card = 1 ∧
        client.returned = false := by
  have hRun :
      Machine.runCheck (step true) (fun _ _ => true)
          (fun client =>
            decide
              (client.sent.length = 2 ∧
                client.numCmds = 1))
          (new 7 0 2 1 9) strayConfirmations = true := by
    decide
  rcases Machine.Reach.of_runCheck
      (fun _ _ _ => trivial) hRun with
    ⟨client, hReach, hFinal⟩
  rcases of_decide_eq_true hFinal with ⟨hSent, hCount⟩
  rcases confirmations_counted_once Digest.txHash_injective
      hReach (.inl rfl) with
    ⟨-, -, -, hTotal, -, hReturned, -⟩
  refine ⟨client, hReach, hSent, hCount, ?_, ?_⟩
  · omega
  · rw [hReturned, hCount]
    rfl

end KeyedClient

end LibApollo
