import LibApollo.Artemis.Context
import LibApollo.Base.Result

/-
  The Artemis handlers: delivering blocks, serving and
  making requests, committing, voting and dispatching new
  blocks.

  A handler returns the new context or the panic that stops
  the node.

  Key definitions include:
    * `doDelivery`
    * `onReceiveNewBlockDirect`, `updateDelivery`
    * `handleRequest`
    * `doCommit`
    * `tryReceiveRoundVote`, `onReceiveRoundVote`
    * `doNewBlock`, `tryRoundVote`
-/

------------------------------------------------------------
-- Delivery
------------------------------------------------------------

namespace LibApollo

namespace Artemis

variable {H : Type} [DecidableEq H]

/- Store a block; a higher block becomes the last seen. -/
def storeBlock
    (block : Block H)
    (cx : Context H) : Context H :=
  { cx with
    storage := cx.storage.addDeliveredBlock block
    lastSeenBlock :=
      if cx.lastSeenBlock.blk.header.height <
          block.blk.header.height then
        block
      else
        cx.lastSeenBlock }

/- Make the vote that waits for a block ready. -/
def releaseVote
    (hash : H)
    (cx : Context H) : Context H :=
  match cx.voteWaiting.lookup hash with
  | none => cx
  | some v =>
      { cx with
        voteWaiting := cx.voteWaiting.erase hash
        voteReady := cx.voteReady.insert v.round v }

/- One iteration of the loop over waiting children. -/
def deliverChild
    (hash child : H)
    (cx : Context H) : Context H :=
  let taken :=
    { cx with
      blockParentWaiting :=
        cx.blockParentWaiting.erase hash }
  let stored :=
    match taken.undeliveredBlocks.lookup child with
    | none => taken
    | some block =>
        storeBlock block
          { taken with
            undeliveredBlocks :=
              taken.undeliveredBlocks.erase child }
  releaseVote child stored

/-
  Deliver waiting children for as long as there are any.
  Every iteration removes an entry of `blockParentWaiting`,
  so their number is enough fuel.
-/
def deliverChildren :
    Nat → H → Context H → Context H
| 0, _, cx => cx
| fuel + 1, hash, cx =>
    match cx.blockParentWaiting.lookup hash with
    | none => cx
    | some child =>
        deliverChildren fuel child
          (deliverChild hash child cx)

/- Deliver a block whose parent is delivered. -/
def doDelivery
    (block : Block H)
    (cx : Context H) : Context H :=
  let hash := BlockTrait.getHash block
  let stored := storeBlock block cx
  let removed :=
    { stored with
      undeliveredBlocks :=
        stored.undeliveredBlocks.erase hash }
  let released := releaseVote hash removed
  let final :=
    deliverChildren
      released.blockParentWaiting.keys.card hash released
  if cx.lastSeenBlock.blk.header.height <
      final.lastSeenBlock.blk.header.height then
    final.announceHeightToBatcher
  else
    final

/- Ask `dest` for a block. -/
def doRequest
    (dest : Replica)
    (hash : H)
    (cx : Context H) : Context H :=
  cx.send dest (.request cx.myid cx.reqCtr hash)

/- Deliver a block, or park it until its parent arrives. -/
def updateDelivery
    (block : Block H)
    (sender : Replica)
    (cx : Context H) : Context H :=
  let hash := BlockTrait.getHash block
  let prev := BlockTrait.getPrev block
  if cx.storage.isDeliveredByHash hash then
    cx
  else if (cx.blockParentWaiting.lookup prev).isSome then
    cx
  else if !cx.storage.isDeliveredByHash prev then
    doRequest sender hash
      { cx with
        blockParentWaiting :=
          cx.blockParentWaiting.insert prev hash
        undeliveredBlocks :=
          cx.undeliveredBlocks.insert hash block }
  else
    doDelivery block cx

variable [Crypto H]

/- A block that comes from the view leader directly. -/
def onReceiveNewBlockDirect
    (block : Block H)
    (cx : Context H) : Except Panic (Context H) :=
  if cx.storage.isDeliveredByHash
      (BlockTrait.getHash block) then
    .ok cx
  else if !cx.storage.isDeliveredByHash
      (BlockTrait.getPrev block) then
    .ok cx
  else if cx.viewLeader ≠ block.blk.header.author ∨
      cx.viewLeader ≠ block.sig.origin then
    .ok cx
  else if cx.viewLeader = cx.myid then
    .ok (doDelivery block cx)
  else
    match cx.pubKeyMap.lookup cx.viewLeader with
    | none => .error .viewLeaderKey
    | some publicKey =>
        if block.checkSig publicKey then
          .ok (doDelivery block cx)
        else
          .ok cx

/- The batch is the one the block commits to. -/
def checkBatchHash
    (block : Block H)
    (batch : Batch) : Bool :=
  decide (batch.hash = block.blk.body.batchHash)

end Artemis

end LibApollo

------------------------------------------------------------
-- Requests
------------------------------------------------------------

namespace LibApollo

namespace Artemis

variable {H : Type} [DecidableEq H]

/- The block held under a hash, delivered or not. -/
def requestedBlock
    (cx : Context H)
    (hash : H) : Except Panic (Block H) :=
  let found :=
    if cx.storage.isDeliveredByHash hash then
      cx.storage.deliveredBlockFromHash hash
    else
      cx.undeliveredBlocks.lookup hash
  match found with
  | none => .error .requestedBlock
  | some block => .ok block

/- Answer a request for a block that is known. -/
def handleRequest
    (sender : Replica)
    (reqId : Nat)
    (hash : H)
    (cx : Context H) : Except Panic (Context H) :=
  if !cx.storage.isDeliveredByHash hash ∧
      !(cx.undeliveredBlocks.lookup hash).isSome then
    .ok cx
  else do
    let block ← requestedBlock cx hash
    match cx.readBatch block.blk.body.batchHash with
    | (none, read) => .ok read
    | (some batch, read) =>
        .ok
          (read.send sender
            (.response read.myid reqId block batch))

end Artemis

end LibApollo

------------------------------------------------------------
-- Committing
------------------------------------------------------------

namespace LibApollo

namespace Artemis

variable {H : Type} [DecidableEq H]

/- Announce one committed block to batcher and router. -/
def notifyCommitted
    (cx : Context H)
    (block : Block H) : Context H :=
  match cx.readBatch block.blk.body.batchHash with
  | (none, cx) => cx
  | (some batch, cx) =>
      let counted :=
        { cx with
          benchCommittedTxCount :=
            min (2 ^ 64 - 1)
              (cx.benchCommittedTxCount +
                batch.payload.length) }
      let told :=
        counted.tellBatcher
          (.committed batch block.blk.header.height)
      { told with
        txCommittedToRouter :=
          told.txCommittedToRouter ++ [batch] }

/- Commit the block voted for `numFaults` rounds ago. -/
def doCommit (cx : Context H) : Except Panic (Context H) :=
  let commitRound := cx.round - cx.numFaults
  match cx.voteChain.lookup commitRound with
  | none => .error .commitRound
  | some v =>
      match cx.storage.commitWalk v.hash with
      | none => .error .commitBlock
      | some (storage, newlyCommitted) =>
          .ok
            (newlyCommitted.reverse.foldl notifyCommitted
              { cx with storage := storage })

/- Commit once more than `numFaults` rounds have passed. -/
def commitIfDue
    (cx : Context H) : Except Panic (Context H) :=
  if cx.numFaults < cx.round then doCommit cx
  else .ok cx

end Artemis

end LibApollo

------------------------------------------------------------
-- Round Votes
------------------------------------------------------------

namespace LibApollo

namespace Artemis

variable {H : Type} [DecidableEq H] [Crypto H]

omit [Crypto H] in
/- The block of an accepted vote becomes the last voted. -/
def recordVotedBlock
    (v : UCRVote H)
    (cx : Context H) : Except Panic (Context H) :=
  match cx.storage.deliveredBlockFromHash v.hash with
  | none => .error .unknownHash
  | some block => .ok { cx with lastVotedBlock := block }

/- Enter a vote in the chain and advance the round. -/
def acceptVote
    (v : UCRVote H)
    (cx : Context H) : Except Panic (Context H) := do
  let committed ←
    commitIfDue
      { cx with
        voteChain := cx.voteChain.insert v.round v }
  let voted ← recordVotedBlock v committed
  let next ← voted.nextRoundLeader
  (voted.send next (.relay voted.myid v)).updateRound

/-
  A vote for the current round.  A node that leads the round
  itself does not check the signature.
-/
def onReceiveRoundVote
    (v : UCRVote H)
    (cx : Context H) : Except Panic (Context H) :=
  if cx.view ≠ v.view then
    .ok cx
  else if cx.myid = cx.leaders.roundLeader then
    acceptVote v cx
  else
    match cx.pubKeyMap.lookup cx.leaders.roundLeader with
    | none => .error .roundLeaderKey
    | some publicKey =>
        if v.checkSig publicKey then
          acceptVote v cx
        else
          .ok cx

omit [Crypto H] in
/- Park a vote whose block is unknown and ask for it. -/
def awaitBlock
    (sender : Replica)
    (v : UCRVote H)
    (cx : Context H) : Context H :=
  let sent := doRequest sender v.hash cx
  { sent with
    voteWaiting := sent.voteWaiting.insert v.hash v }

/- A vote of any round, from the network. -/
def tryReceiveRoundVote
    (sender : Replica)
    (v : UCRVote H)
    (cx : Context H) : Except Panic (Context H) :=
  if v.round < cx.round then
    .ok cx
  else if cx.round < v.round then
    if cx.storage.isDeliveredByHash v.hash then
      .ok
        { cx with
          voteReady := cx.voteReady.insert v.round v }
    else
      .ok (awaitBlock sender v cx)
  else if !cx.storage.isDeliveredByHash v.hash then
    .ok (awaitBlock sender v cx)
  else
    onReceiveRoundVote v cx

/- The vote of the node in its own round. -/
def newVote (cx : Context H) : UCRVote H :=
  UCRVote.computeSig
    { hash := BlockTrait.getHash cx.lastSeenBlock
      round := cx.round
      view := cx.view
      vote := { origin := 0, auth := [] } }
    cx.myid cx.mySecretKey

def doRoundVote
    (cx : Context H) : Except Panic (Context H) :=
  let v := newVote cx
  let signed :=
    { cx with
      signed := cx.signed ++ [SignData.hash v.digest] }
  onReceiveRoundVote v (signed.multicast (.ucrVote v))

/- Vote when it is the node's turn and there is news. -/
def tryRoundVote
    (cx : Context H) : Except Panic (Context H) :=
  if cx.myid ≠ cx.leaders.roundLeader then
    .ok cx
  else if cx.lastSeenBlock.blk.header.height ≤
      cx.lastVotedBlock.blk.header.height then
    .ok cx
  else
    doRoundVote cx

end Artemis

end LibApollo

------------------------------------------------------------
-- New Blocks
------------------------------------------------------------

namespace LibApollo

namespace Artemis

variable {H : Type} [DecidableEq H] [Crypto H]

/- The block the view leader builds for a batch. -/
def newBlock
    (cx : Context H)
    (batchHash : H) : Block H :=
  Block.sign
    { blk :=
        LibApollo.Block.extending cx.lastSeenBlock.blk
          cx.myid
          (succU64 cx.lastSeenBlock.blk.header.height)
          batchHash
      sig := { origin := cx.myid, auth := [] } }
    cx.mySecretKey

/- Dispatch a block for a batch. -/
def doNewBlock
    (batchHash : H)
    (batch : Batch)
    (cx : Context H) : Except Panic (Context H) :=
  let block := newBlock cx batchHash
  let signed :=
    { cx with
      signed := cx.signed ++ [SignData.hash block.blk.hash] }
  let sent := signed.multicast (.newBlock block batch)
  let told :=
    sent.tellBatcher
      (.proposed batch block.blk.header.height)
  onReceiveNewBlockDirect block told

omit [Crypto H] in
/- Queue a message by its kind. -/
def bufferMessage
    (message : ProtocolMsg H)
    (cx : Context H) : Context H :=
  match message with
  | .invalid => cx
  | .newBlock block batch =>
      { cx with
        blockProcessingWaiting :=
          cx.blockProcessingWaiting ++ [(block, batch)] }
  | .response sender _ block batch =>
      { cx with
        responseWaiting :=
          cx.responseWaiting ++ [(sender, block, batch)] }
  | other =>
      { cx with otherBuf := cx.otherBuf ++ [other] }

end Artemis

end LibApollo
