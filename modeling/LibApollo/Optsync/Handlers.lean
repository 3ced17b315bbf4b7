import LibApollo.Synchs.Handlers

/-
  The Opt Sync node: the state of a Sync HotStuff node with
  the responsive certificates, and the handlers that differ.

  The checks of a proposal and of a vote are those of Sync
  HotStuff.  A leader that proposes moves on to its new
  block, a node enters its own vote when it accepts a block,
  and a block with votes of three quarters of the nodes is
  committed at once.

  Key definitions include:
    * `Context`, `Context.new`
    * `onReceiveProposal`, `onNewValidProposal`
    * `doPropose`
    * `addVote`, `onVote`
    * `onCommit`
-/

------------------------------------------------------------
-- Local State
------------------------------------------------------------

namespace LibApollo

namespace Optsync

open Synchs (Propose ProtocolMsg ClientMsg Panic Config)

structure Context (H : Type) [DecidableEq H] extends
    Synchs.Context H where
  respCert : FinMap H (Certificate H)

variable {H : Type} [DecidableEq H]

namespace Context

/- The context a node starts from. -/
def new [Crypto H] (config : Config) : Context H where
  toContext := Synchs.Context.new config
  respCert := ∅

/- Change the part of the state Sync HotStuff has too. -/
def lift
    (f : Synchs.Context H → Synchs.Context H)
    (cx : Context H) : Context H :=
  { cx with toContext := f cx.toContext }

end Context

end Optsync

end LibApollo

------------------------------------------------------------
-- Proposals
------------------------------------------------------------

namespace LibApollo

namespace Optsync

open Synchs (Propose ProtocolMsg Panic)

variable {H : Type} [DecidableEq H] [Crypto H]

def checkProposal
    (p : Propose H)
    (block : Block H)
    (cx : Context H) : Except Panic Bool :=
  Synchs.checkProposal p block cx.toContext

def checkBatchHash
    (block : Block H)
    (batch : Batch) : Bool :=
  Synchs.checkBatchHash block batch

/- What a received proposal has to pass. -/
def checkReceived
    (p : Propose H)
    (block : Block H)
    (batch : Batch)
    (cx : Context H) : Except Panic Bool :=
  if cx.storage.isDeliveredByHash block.hash then
    .ok false
  else do
    let valid ← checkProposal p block cx
    if !valid then
      .ok false
    else
      .ok (checkBatchHash block batch)

/- The node's own vote is the first one for the block. -/
def onNewValidProposal
    (p : Propose H)
    (block : Block H)
    (cx : Context H) :
    Except Panic (Bool × Context H) :=
  if !cx.storage.isDeliveredByHash block.header.prev then
    .ok (false, cx)
  else
    let myVote :=
      Synchs.ownVote cx.toContext block.hash
    match cx.voteMap.lookup p.blockHash with
    | some _ => .error .alreadyVoted
    | none =>
        let entered :=
          { cx with
            voteMap :=
              cx.voteMap.insert p.blockHash myVote }
        .ok
          (true, entered.lift (Synchs.castVote p block))

def onReceiveProposal
    (p : Propose H)
    (block : Block H)
    (batch : Batch)
    (cx : Context H) :
    Except Panic (Bool × Context H) := do
  let passed ← checkReceived p block batch cx
  if passed then
    onNewValidProposal p block
      (cx.lift
        (·.persistBatch block.body.batchHash batch))
  else
    .ok (false, cx)

/-
  Propose a block for a batch.  The new block becomes the
  last seen one and carries the leader's vote.
-/
def doPropose
    (batchHash : H)
    (batch : Batch)
    (cx : Context H) :
    Except Panic (Propose H × Context H) := do
  let block ← Synchs.newBlock batchHash cx.toContext
  let p ← Synchs.newPropose block cx.toContext
  let moved :=
    { cx with
      voteMap :=
        cx.voteMap.insert block.hash
          (Synchs.ownVote cx.toContext block.hash)
      height := block.header.height
      lastSeenBlock := block
      lastCommittedBlockHt := block.header.height }
  let sent := moved.lift (Synchs.dispatch p block batch)
  .ok (p, sent.lift (Synchs.startTimer p))

end Optsync

end LibApollo

------------------------------------------------------------
-- Votes
------------------------------------------------------------

namespace LibApollo

namespace Optsync

open Synchs (Propose Panic)

variable {H : Type} [DecidableEq H]

/- Votes from this number on make a responsive certificate. -/
def responsiveQuorum (cx : Context H) : Nat :=
  (3 * cx.numNodes) / 4

/-
  Add a vote to the certificate that grows for a block.  The
  decision is to commit once it is responsive.
-/
def addVote
    (c : Certificate H)
    (hash : H)
    (cx : Context H) :
    Except Panic (Bool × Context H) :=
  match cx.voteMap.lookup hash with
  | none =>
      .ok
        (false,
          { cx with voteMap := cx.voteMap.insert hash c })
  | some old => do
      let cert ← Synchs.addLastVote c old
      let responsive : Bool :=
        responsiveQuorum cx ≤ cert.votes.length
      let collected :=
        if responsive then
          { cx with
            respCert := cx.respCert.insert hash cert }
        else
          cx
      let certified :=
        if collected.numFaults < cert.votes.length then
          { collected with
            certMap := collected.certMap.insert hash cert
            lastSeenCert := cert }
        else
          collected
      .ok
        (responsive,
          { certified with
            voteMap :=
              (certified.voteMap.erase hash).insert hash
                cert })

variable [Crypto H]

def onVote
    (c : Certificate H)
    (p : Propose H)
    (cx : Context H) :
    Except Panic (Bool × Context H) := do
  match ← Synchs.checkVote c p cx.toContext with
  | none => .ok (false, cx)
  | some hash =>
      if (cx.respCert.lookup hash).isSome then
        .ok (false, cx)
      else
        addVote c hash cx

/- Commit the block of a proposal, once. -/
def onCommit
    (p : Propose H)
    (cx : Context H) : Context H :=
  cx.lift (Synchs.onCommit p)

end Optsync

end LibApollo
