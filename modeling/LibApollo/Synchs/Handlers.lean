import LibApollo.Synchs.Context
import LibApollo.Base.Result

/-
  The Sync HotStuff handlers: checking and accepting
  proposals, proposing, collecting votes and committing.

  A handler returns the new context or the panic that stops
  the node.  The build is one with overflow checks, in which
  a height that does not fit stops the node.  The checks and
  the parts that Opt Sync shares are definitions of their
  own.

  Key definitions include:
    * `checkProposal`, `checkBatchHash`, `checkReceived`
    * `onReceiveProposal`, `onNewValidProposal`
    * `doPropose`
    * `checkVote`, `addVote`, `onVote`
    * `onCommit`
-/

------------------------------------------------------------
-- Checking Proposals
------------------------------------------------------------

namespace LibApollo

namespace Synchs

variable {H : Type} [DecidableEq H] [Crypto H]

/-
  The loop over the votes of a certificate: the voters, when
  every vote is signed by its origin.
-/
def uniqVotes
    (cx : Context H)
    (msg : CertType H) :
    Finset Replica → List Vote → Option (Finset Replica)
| voters, [] => some voters
| voters, v :: votes =>
    match cx.pubKeyMap.lookup v.origin with
    | none => none
    | some publicKey =>
        if Crypto.verify publicKey (.cert msg) v.auth then
          uniqVotes cx msg (insert v.origin voters) votes
        else
          none

/- The certificate of a block above height one. -/
def checkParentCert
    (p : Propose H)
    (block : Block H)
    (cx : Context H) : Bool :=
  match p.cert.msg with
  | .vote _ hash =>
      if hash ≠ block.header.prev then
        false
      else
        match uniqVotes cx p.cert.msg ∅ p.cert.votes with
        | none => false
        | some voters =>
            if voters.card < cx.numFaults then
              false
            else
              decide
                (block.header.prev = cx.lastSeenBlock.hash)
  | _ => false

def checkProposal
    (p : Propose H)
    (block : Block H)
    (cx : Context H) : Except Panic Bool :=
  if block.hash ≠ p.blockHash then
    .ok false
  else if block.header.author ≠ cx.leaderOfView then
    .ok false
  else if block.header.height = 1 ∧
      block.header.prev ≠ Crypto.emptyHash then
    .ok false
  else if 1 < block.header.height ∧
      p.cert.votes.length ≤ cx.numFaults then
    .ok false
  else
    match cx.pubKeyMap.lookup block.header.author with
    | none => .error .authorKey
    | some publicKey =>
        if !Crypto.verify publicKey (.hash block.hash)
            p.proof then
          .ok false
        else if cx.view ≠ p.view then
          .error .viewCheck
        else if block.header.height = 1 then
          .ok true
        else
          .ok (checkParentCert p block cx)

/- The batch is the one the block commits to. -/
def checkBatchHash
    (block : Block H)
    (batch : Batch) : Bool :=
  decide (batch.hash = block.body.batchHash)

/-
  What a received proposal has to pass: the block is new to
  the node, the proposal is valid and the batch is the one
  of the block.
-/
def checkReceived
    (p : Propose H)
    (block : Block H)
    (batch : Batch)
    (cx : Context H) : Except Panic Bool :=
  if cx.storage.isDeliveredByHash block.hash then
    .ok false
  else do
    let valid ← checkProposal p block cx
    if !valid then
      .ok false
    else
      .ok (checkBatchHash block batch)

end Synchs

end LibApollo

------------------------------------------------------------
-- Receiving Proposals
------------------------------------------------------------

namespace LibApollo

namespace Synchs

variable {H : Type} [DecidableEq H] [Crypto H]

/- The certificate with the node's own vote only. -/
def ownVote
    (cx : Context H)
    (hash : H) : Certificate H where
  msg := .vote cx.view hash
  votes :=
    [{ origin := cx.myid
       auth :=
        Crypto.sign cx.mySecretKey
          (.cert (.vote cx.view hash)) }]

omit [Crypto H] in
/- Start the commit timer of a proposal. -/
def startTimer
    (p : Propose H)
    (cx : Context H) : Context H :=
  { cx with commitQueue := cx.commitQueue ++ [p] }

/- Deliver a block and send the node's vote for it. -/
def castVote
    (p : Propose H)
    (block : Block H)
    (cx : Context H) : Context H :=
  let myVote := ownVote cx block.hash
  let voted :=
    { cx with
      storage := cx.storage.addDeliveredBlock block
      height := block.header.height
      lastSeenBlock := block
      lastSeenCert := p.cert
      signed := cx.signed ++ [SignData.cert myVote.msg] }
  voted.multicast (.voteMsg myVote p)

def onNewValidProposal
    (p : Propose H)
    (block : Block H)
    (cx : Context H) : Bool × Context H :=
  if !cx.storage.isDeliveredByHash block.header.prev then
    (false, cx)
  else
    (true, castVote p block cx)

def onReceiveProposal
    (p : Propose H)
    (block : Block H)
    (batch : Batch)
    (cx : Context H) :
    Except Panic (Bool × Context H) := do
  let passed ← checkReceived p block batch cx
  if passed then
    .ok
      (onNewValidProposal p block
        (cx.persistBatch block.body.batchHash batch))
  else
    .ok (false, cx)

end Synchs

end LibApollo

------------------------------------------------------------
-- Proposing
------------------------------------------------------------

namespace LibApollo

namespace Synchs

variable {H : Type} [DecidableEq H] [Crypto H]

/-
  The `u64` successor of a height in a build with overflow
  checks, which stops past the last height.
-/
def nextHeight (height : Nat) : Except Panic Nat :=
  if height + 1 < 2 ^ 64 then .ok (height + 1)
  else .error .heightOverflow

/- The block the leader builds on its last seen block. -/
def newBlock
    (batchHash : H)
    (cx : Context H) : Except Panic (Block H) := do
  let height ← nextHeight cx.lastSeenBlock.header.height
  .ok
    (Block.extending cx.lastSeenBlock cx.myid height
      batchHash)

/- The proposal of a block, with the parent's certificate. -/
def newPropose
    (block : Block H)
    (cx : Context H) : Except Panic (Propose H) :=
  match cx.certMap.lookup cx.lastSeenBlock.hash with
  | none => .error .parentUncertified
  | some cert =>
      .ok
        { proof :=
            Crypto.sign cx.mySecretKey (.hash block.hash)
          cert := cert
          view := cx.view
          blockHash := block.hash }

/- Store and send a proposal that was just signed. -/
def dispatch
    (p : Propose H)
    (block : Block H)
    (batch : Batch)
    (cx : Context H) : Context H :=
  let signed :=
    { cx with
      storage := cx.storage.addDeliveredBlock block
      signed :=
        cx.signed ++
          [SignData.hash block.hash,
            SignData.cert (ownVote cx block.hash).msg] }
  signed.multicast (.newProposal p block batch)

/-
  Propose a block for a batch.  The last seen block stays
  what it was.
-/
def doPropose
    (batchHash : H)
    (batch : Batch)
    (cx : Context H) :
    Except Panic (Propose H × Context H) := do
  let block ← newBlock batchHash cx
  let p ← newPropose block cx
  .ok (p, dispatch p block batch cx)

end Synchs

end LibApollo

------------------------------------------------------------
-- Votes
------------------------------------------------------------

namespace LibApollo

namespace Synchs

variable {H : Type} [DecidableEq H]

/- A certificate with the last vote of another added. -/
def addLastVote
    (c cert : Certificate H) :
    Except Panic (Certificate H) :=
  match c.votes.getLast? with
  | none => .error .noVote
  | some v => .ok { cert with votes := cert.votes ++ [v] }

/-
  Add a vote to the certificate that grows for a block, and
  promote it once it has more than `numFaults` votes.
-/
def addVote
    (c : Certificate H)
    (hash : H)
    (cx : Context H) : Except Panic (Context H) :=
  if (cx.certMap.lookup hash).isSome then
    .ok cx
  else
    match cx.voteMap.lookup hash with
    | none =>
        .ok { cx with voteMap := cx.voteMap.insert hash c }
    | some old => do
        let cert ← addLastVote c old
        let removed := cx.voteMap.erase hash
        if cx.numFaults < cert.votes.length then
          .ok
            { cx with
              voteMap := removed
              certMap := cx.certMap.insert hash cert
              lastSeenCert := cert }
        else
          .ok
            { cx with
              voteMap := removed.insert hash cert }

variable [Crypto H]

/-
  The checks on a vote message: the hash of a delivered
  block, unless the vote is to be dropped.
-/
def checkVote
    (c : Certificate H)
    (p : Propose H)
    (cx : Context H) : Except Panic (Option H) :=
  match c.votes with
  | [vote] =>
      match cx.pubKeyMap.lookup vote.origin with
      | none => .ok none
      | some publicKey =>
          match c.msg with
          | .vote _ hash =>
              if hash ≠ p.blockHash then
                .ok none
              else if !Crypto.verify publicKey
                  (.cert c.msg) vote.auth then
                .ok none
              else if !cx.storage.isDeliveredByHash hash then
                .ok none
              else
                match cx.storage.deliveredBlockFromHash
                    hash with
                | none => .error .unknownBlock
                | some block =>
                    match cx.storage.deliveredBlockFromHt
                        block.header.height with
                    | none => .ok (some hash)
                    | some other =>
                        if other.hash ≠ hash then .ok none
                        else .ok (some hash)
          | _ => .error .voteType
  | _ => .ok none

/- A vote message; the decision is never to commit. -/
def onVote
    (c : Certificate H)
    (p : Propose H)
    (cx : Context H) :
    Except Panic (Bool × Context H) := do
  match ← checkVote c p cx with
  | none => .ok (false, cx)
  | some hash =>
      let added ← addVote c hash cx
      .ok (false, added)

end Synchs

end LibApollo

------------------------------------------------------------
-- Committing
------------------------------------------------------------

namespace LibApollo

namespace Synchs

variable {H : Type} [DecidableEq H] [Crypto H]

/- Mark a block committed and announce it to the clients. -/
def commitBlock
    (block : Block H)
    (cx : Context H) : Context H :=
  let committed :=
    { cx with
      lastCommittedBlockHt := block.header.height
      storage := cx.storage.addCommittedBlock block }
  let (batch, read) :=
    committed.readBatch block.body.batchHash
  let txHashes :=
    match batch with
    | some batch => batch.txHashes
    | none => []
  read.multicastClient
    (.newBlock block txHashes (withPayload read.payload))

/- Commit the block of a proposal, once. -/
def onCommit
    (p : Propose H)
    (cx : Context H) : Context H :=
  match cx.storage.deliveredBlockFromHash p.blockHash with
  | none => cx
  | some block =>
      if cx.storage.isCommittedByHash block.hash then cx
      else commitBlock block cx

end Synchs

end LibApollo
