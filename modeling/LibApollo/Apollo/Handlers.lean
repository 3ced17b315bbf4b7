import LibApollo.Apollo.Context
import LibApollo.Base.Result

/-
  The Apollo handlers: committing, accepting, proposing,
  serving requests and resolving proposals to delivered
  state.

  A handler returns the new context or the panic that stops
  the node.  `deliveryCheck` stops before the loop over the
  waiting children of the delivered block and returns the
  hash this loop starts from; `deliverWaitingChild` is one
  iteration of the loop.

  Key definitions include:
    * `doCommit`
    * `onReceiveProposal`, `tryReceiveProposal`
    * `doPropose`
    * `onRecvRequest`
    * `handleMessage`, `deliveryCheck`
    * `deliverWaitingChild`
-/

------------------------------------------------------------
-- Committing
------------------------------------------------------------

namespace LibApollo

namespace Apollo

variable {H : Type} [DecidableEq H] [Crypto H]

omit [Crypto H] in
/- Announce one committed block to batcher and router. -/
def notifyCommitted
    (cx : Context H)
    (block : Block H) : Context H :=
  match cx.readBatch block.body.batchHash with
  | (none, cx) => cx
  | (some batch, cx) =>
      let counted :=
        { cx with
          benchCommittedTxCount :=
            min (2 ^ 64 - 1)
              (cx.benchCommittedTxCount +
                batch.payload.length) }
      let told :=
        counted.tellBatcher
          (.committed batch block.header.height)
      { told with
        txCommittedToRouter :=
          told.txCommittedToRouter ++ [batch] }

omit [Crypto H] in
/- Commit the block accepted `numFaults` rounds ago. -/
def doCommit (cx : Context H) : Except Panic (Context H) :=
  let commitRound := cx.round - cx.numFaults
  match cx.propChainByRound.lookup commitRound with
  | none => .error .commitRound
  | some p =>
      match cx.storage.commitWalk p.blockHash with
      | none => .error .commitBlock
      | some (storage, newlyCommitted) =>
          .ok
            (newlyCommitted.reverse.foldl notifyCommitted
              { cx with storage := storage })

end Apollo

end LibApollo

------------------------------------------------------------
-- Accepting Proposals
------------------------------------------------------------

namespace LibApollo

namespace Apollo

variable {H : Type} [DecidableEq H] [Crypto H]

omit [Crypto H] in
/-
  The last block stored at the height of `block` is another
  block of the same author.
-/
def equivocates
    (cx : Context H)
    (block : Block H) : Bool :=
  match cx.storage.deliveredBlockFromHt
      block.header.height with
  | some x =>
      decide (x.hash ≠ block.hash ∧
        x.header.author = block.header.author)
  | none => false

omit [Crypto H] in
/- Record a proposal, relay it and signal its batch. -/
def recordProposal
    (p : Propose H)
    (block : Block H)
    (cx : Context H) : Context H :=
  let relayed := cx.send cx.nextLeader (.relay cx.myid p)
  let chained :=
    { relayed with
      propChainByHash :=
        relayed.propChainByHash.insert p.blockHash p
      propChainByRound :=
        relayed.propChainByRound.insert p.round p }
  match chained.readBatch block.body.batchHash with
  | (some batch, read) =>
      read.tellBatcher (.proposed batch p.round)
  | (none, read) => read

omit [Crypto H] in
/- Commit once more than `numFaults` rounds have passed. -/
def commitIfDue
    (cx : Context H) : Except Panic (Context H) :=
  if cx.numFaults < cx.round then doCommit cx
  else .ok cx

omit [Crypto H] in
/- Enter a proposal in the chain and advance the round. -/
def acceptProposal
    (p : Propose H)
    (block : Block H)
    (cx : Context H) : Except Panic (Context H) := do
  let committed ← commitIfDue (recordProposal p block cx)
  .ok
    ({ committed with
        lastSeenBlock := block } : Context H).updateRound

omit [Crypto H] in
/- Accept a proposal whose block is delivered. -/
def onReceiveProposal
    (p : Propose H)
    (block : Block H)
    (cx : Context H) : Except Panic (Context H) :=
  if equivocates cx block then
    .ok cx
  else
    acceptProposal p block cx

/- Check an incoming proposal against the current round. -/
def tryReceiveProposal
    (p : Propose H)
    (block : Block H)
    (sender : Replica)
    (cx : Context H) : Except Panic (Context H) :=
  if p.round < cx.round then
    .ok cx
  else if cx.round < p.round then
    .ok
      { cx with
        futureMsgs :=
          cx.futureMsgs.insert p.round (sender, p) }
  else if block.hash ≠ p.blockHash then
    .ok cx
  else if cx.roundLeader ≠ p.sig.origin then
    .ok cx
  else if cx.roundLeader ≠ block.header.author then
    .ok cx
  else if p.sig.origin = cx.myid then
    onReceiveProposal p block cx
  else
    match cx.pubKeyMap.lookup p.sig.origin with
    | none => .error .pubKey
    | some publicKey =>
        if p.checkSig publicKey then
          onReceiveProposal p block cx
        else
          .ok cx

/- The batch is the one the block commits to. -/
def checkBatchHash
    (block : Block H)
    (batch : Batch) : Bool :=
  decide (batch.hash = block.body.batchHash)

end Apollo

end LibApollo

------------------------------------------------------------
-- Proposing and Serving Requests
------------------------------------------------------------

namespace LibApollo

namespace Apollo

variable {H : Type} [DecidableEq H] [Crypto H]

/- The block the node builds for a batch. -/
def newBlock
    (cx : Context H)
    (batchHash : H) : Block H :=
  Block.extending cx.lastSeenBlock cx.myid
    (succU64 cx.lastSeenBlock.header.height) batchHash

/- Propose a block for a batch in the current round. -/
def doPropose
    (batchHash : H)
    (batch : Batch)
    (cx : Context H) : Except Panic (Context H) :=
  let block := newBlock cx batchHash
  let p :=
    Propose.signed cx.mySecretKey cx.myid cx.round
      block.hash
  let signed :=
    { cx with
      signed := cx.signed ++ [SignData.hash block.hash] }
  let sent :=
    signed.multicast (.newProposal p block batch)
  let told := sent.tellBatcher (.proposed batch cx.round)
  onReceiveProposal p block
    (told.addDeliveredBlock block)

omit [Crypto H] in
/- Answer a request for an accepted block. -/
def onRecvRequest
    (sender : Replica)
    (reqId : Nat)
    (hash : H)
    (cx : Context H) : Context H :=
  match cx.propChainByHash.lookup hash with
  | none => cx
  | some p =>
      match cx.storage.deliveredBlockFromHash hash with
      | none => cx
      | some block =>
          match cx.readBatch block.body.batchHash with
          | (none, read) => read
          | (some batch, read) =>
              read.send sender
                (.response read.myid reqId p block batch)

end Apollo

end LibApollo

------------------------------------------------------------
-- Reordering and Delivery
------------------------------------------------------------

namespace LibApollo

namespace Apollo

variable {H : Type} [DecidableEq H] [Crypto H]

omit [Crypto H] in
/- Queue a message by its kind. -/
def handleMessage
    (message : ProtocolMsg H)
    (cx : Context H) : Context H :=
  match message with
  | .newProposal p block batch =>
      { cx with
        propBuf :=
          cx.propBuf ++ [(p.sig.origin, p, block, batch)] }
  | .response sender _ p block batch =>
      { cx with
        propBuf :=
          cx.propBuf ++ [(sender, p, block, batch)] }
  | .relay sender p =>
      { cx with relayBuf := cx.relayBuf ++ [(sender, p)] }
  | other =>
      { cx with otherBuf := cx.otherBuf ++ [other] }

omit [Crypto H] in
/- Park a proposal whose block is unknown and ask for it. -/
def requestBlock
    (sender : Replica)
    (p : Propose H)
    (cx : Context H) : Context H :=
  ({ cx with
      propWaiting :=
        cx.propWaiting.insert p.blockHash p } :
    Context H).send sender
      (.request cx.myid cx.reqCtr p.blockHash)

omit [Crypto H] in
/-
  Store a block whose parent is missing, park its proposal
  under the parent and ask for the parent.
-/
def requestParent
    (sender : Replica)
    (p : Propose H)
    (block : Block H)
    (cx : Context H) : Context H :=
  let stored := cx.addDeliveredBlock block
  ({ stored with
      propWaitingParent :=
        stored.propWaitingParent.insert
          block.header.prev p } :
    Context H).send sender
      (.request cx.myid cx.reqCtr block.header.prev)

/-
  Hand a delivered proposal on, or keep it for its round.
-/
def receiveOrKeep
    (sender : Replica)
    (p : Propose H)
    (block : Block H)
    (cx : Context H) : Except Panic (Context H) :=
  if cx.round < p.round then
    .ok
      { cx with
        futureMsgs :=
          cx.futureMsgs.insert p.round (sender, p) }
  else
    tryReceiveProposal p block sender cx

/-
  Deliver a proposal together with its block.  The result
  names the hash whose waiting children are next, if any.
-/
def deliverBlock
    (sender : Replica)
    (p : Propose H)
    (block : Block H)
    (cx : Context H) :
    Except Panic (Context H × Option H) :=
  if cx.storage.isDeliveredByHash block.header.prev then do
    let received ←
      receiveOrKeep sender p block
        (cx.addDeliveredBlock block)
    .ok
      ({ received with
          propWaiting :=
            received.propWaiting.erase p.blockHash },
        some p.blockHash)
  else
    .ok (requestParent sender p block cx, none)

/- Resolve a proposal to delivered state. -/
def deliveryCheck
    (sender : Replica)
    (p : Propose H)
    (blockAndBatch : Option (Block H × Batch))
    (cx : Context H) :
    Except Panic (Context H × Option H) :=
  if (cx.propChainByRound.lookup p.round).isSome then
    .ok (cx, none)
  else
    match blockAndBatch with
    | some (block, batch) =>
        if block.hash ≠ p.blockHash then
          .ok (cx, none)
        else if !checkBatchHash block batch then
          .ok (cx, none)
        else
          deliverBlock sender p block
            (cx.persistBatch block.body.batchHash batch)
    | none =>
        match cx.storage.deliveredBlockFromHash
            p.blockHash with
        | some block => deliverBlock sender p block cx
        | none => .ok (requestBlock sender p cx, none)

/- One iteration of the loop over waiting children. -/
def deliverWaitingChild
    (sender : Replica)
    (childParentHash : H)
    (cx : Context H) :
    Except Panic (Context H × Option H) :=
  match cx.propWaitingParent.lookup childParentHash with
  | none => .ok (cx, none)
  | some p =>
      let removed :=
        { cx with
          propWaitingParent :=
            cx.propWaitingParent.erase childParentHash }
      match removed.storage.deliveredBlockFromHash
          p.blockHash with
      | none => .error .childBlock
      | some child => do
          let received ←
            receiveOrKeep sender p child removed
          .ok (received, some p.blockHash)

end Apollo

end LibApollo
