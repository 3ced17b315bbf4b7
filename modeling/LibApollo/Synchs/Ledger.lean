import LibApollo.Synchs.Reactor

/-
  The part of a node that decides which blocks it builds,
  delivers and commits, as an abstract machine.

  A ledger leaves out votes, certificates, batches in the
  stores and timers: it may commit any delivered block at
  any time.

  Key definitions include:
    * `Ledger`, `Ledger.Valid`, `Ledger.Builds`
    * `Ledger.Step`
    * `proposedBlocks`
    * `Unforged`, `Ledger.Leads`

  Key theorems include:
    * `Ledger.Leads.not_valid`
    * `Ledger.Leads.step`
-/

------------------------------------------------------------
-- Ledgers
------------------------------------------------------------

namespace LibApollo

namespace Synchs

structure Ledger (H : Type) [DecidableEq H] where
  myid : Replica
  leader : Replica
  view : Nat
  numNodes : Nat
  pubKeyMap : FinMap Replica Bytes
  pendingBatches : List (H × Batch)
  storage : Storage H (Block H)
  lastSeenBlock : Block H
  multicasts : List (ProtocolMsg H)
  signed : List (SignData H)

namespace Ledger

variable {H : Type} [DecidableEq H]

/- Take a batch from the mempool. -/
def queue
    (ledger : Ledger H)
    (batchHash : H)
    (batch : Batch) : Ledger H :=
  { ledger with
    pendingBatches :=
      ledger.pendingBatches ++ [(batchHash, batch)] }

/- Deliver a received block and vote for it. -/
def deliver
    (ledger : Ledger H)
    (p : Propose H)
    (block : Block H)
    (myVote : Certificate H) : Ledger H :=
  { ledger with
    storage := ledger.storage.addDeliveredBlock block
    lastSeenBlock := block
    multicasts := ledger.multicasts ++ [.voteMsg myVote p]
    signed := ledger.signed ++ [SignData.cert myVote.msg] }

/-
  Sign, deliver and send a block of one's own, which is the
  last seen block afterwards when the leader moves on.
-/
def propose
    (ledger : Ledger H)
    (movesOn : Bool)
    (p : Propose H)
    (block : Block H)
    (batch : Batch)
    (rest : List (H × Batch)) : Ledger H :=
  { ledger with
    pendingBatches := rest
    storage := ledger.storage.addDeliveredBlock block
    lastSeenBlock :=
      if movesOn then block else ledger.lastSeenBlock
    multicasts :=
      ledger.multicasts ++ [.newProposal p block batch]
    signed :=
      ledger.signed ++
        [SignData.hash block.hash,
          SignData.cert (.vote ledger.view block.hash)] }

def commit
    (ledger : Ledger H)
    (block : Block H) : Ledger H :=
  { ledger with
    storage := ledger.storage.addCommittedBlock block }

variable [Crypto H]

/- What a node checks of a proposal before it votes. -/
structure Valid
    (ledger : Ledger H)
    (p : Propose H)
    (block : Block H) : Prop where
  hash : block.hash = p.blockHash
  author :
    block.header.author = ledger.view % ledger.numNodes
  first :
    block.header.height = 1 →
      block.header.prev = Crypto.emptyHash
  later :
    block.header.height ≠ 1 →
      block.header.prev = ledger.lastSeenBlock.hash
  proof :
    ∃ publicKey,
      ledger.pubKeyMap.lookup block.header.author =
          some publicKey ∧
        Crypto.verify publicKey (.hash block.hash) p.proof =
          true
  view : ledger.view = p.view
  fresh : ledger.storage.isDeliveredByHash block.hash = false
  parent :
    ledger.storage.isDeliveredByHash block.header.prev =
      true

/- The block a leader builds for a batch. -/
structure Builds
    (ledger : Ledger H)
    (batchHash : H)
    (p : Propose H)
    (block : Block H) : Prop where
  built :
    block =
      Block.extending ledger.lastSeenBlock ledger.myid
        (ledger.lastSeenBlock.header.height + 1) batchHash
  hash : p.blockHash = block.hash
  view : p.view = ledger.view

/- What a node may do on an event. -/
inductive Step
    (movesOn : Bool)
    (event : Event H)
    (ledger : Ledger H) : Ledger H → Prop where
| skip : Step movesOn event ledger ledger
| queue (batchHash : H) (batch : Batch) :
    event = .batch batchHash batch →
      Step movesOn event ledger
        (ledger.queue batchHash batch)
| deliver
    (p : Propose H) (block : Block H) (batch : Batch)
    (myVote : Certificate H) :
    event = .recv (.newProposal p block batch) →
      ledger.Valid p block →
      Step movesOn event ledger
        (ledger.deliver p block myVote)
| propose
    (p : Propose H) (block : Block H) (batchHash : H)
    (batch : Batch) (rest : List (H × Batch)) :
    ledger.leader = ledger.myid →
      ledger.pendingBatches = (batchHash, batch) :: rest →
      ledger.Builds batchHash p block →
      Step movesOn event ledger
        (ledger.propose movesOn p block batch rest)
| commit (block : Block H) :
    ledger.storage.deliveredBlockFromHash block.hash =
        some block →
      Step movesOn event ledger (ledger.commit block)

end Ledger

end Synchs

end LibApollo

------------------------------------------------------------
-- Leaders
------------------------------------------------------------

namespace LibApollo

namespace Synchs

variable {H : Type}

/- The blocks of the proposals among the messages sent. -/
def proposedBlocks
    (msgs : List (ProtocolMsg H)) : List (Block H) :=
  msgs.filterMap
    (fun msg =>
      match msg with
      | .newProposal _ block _ => some block
      | _ => none)

theorem mem_proposedBlocks
    {msgs : List (ProtocolMsg H)}
    {block : Block H} :
    block ∈ proposedBlocks msgs ↔
      ∃ p batch, .newProposal p block batch ∈ msgs := by
  unfold proposedBlocks
  rw [List.mem_filterMap]
  constructor
  · intro hParts
    rcases hParts with ⟨msg, hMem, hSome⟩
    cases msg with
    | newProposal p other batch =>
        cases hSome
        exact ⟨p, batch, hMem⟩
    | _ => cases hSome
  · intro hParts
    rcases hParts with ⟨p, batch, hMem⟩
    exact ⟨_, hMem, rfl⟩

@[simp] theorem proposedBlocks_append_newProposal
    (msgs : List (ProtocolMsg H))
    (p : Propose H)
    (block : Block H)
    (batch : Batch) :
    proposedBlocks (msgs ++ [.newProposal p block batch]) =
      proposedBlocks msgs ++ [block] := by
  simp [proposedBlocks]

@[simp] theorem proposedBlocks_append_voteMsg
    (msgs : List (ProtocolMsg H))
    (c : Certificate H)
    (p : Propose H) :
    proposedBlocks (msgs ++ [.voteMsg c p]) =
      proposedBlocks msgs := by
  simp [proposedBlocks]

variable [DecidableEq H] [Crypto H]

/- Proposals that were sent stay on record. -/
theorem Ledger.Step.proposed_mono
    {ledger ledger' : Ledger H}
    {event : Event H}
    {movesOn : Bool}
    {block : Block H}
    (hStep : Ledger.Step movesOn event ledger ledger')
    (hMem : block ∈ proposedBlocks ledger.multicasts) :
    block ∈ proposedBlocks ledger'.multicasts := by
  cases hStep with
  | deliver p other batch myVote _ _ =>
      rw [Ledger.deliver, proposedBlocks_append_voteMsg]
      exact hMem
  | propose p other batchHash batch rest _ _ _ =>
      rw [Ledger.propose, proposedBlocks_append_newProposal]
      exact List.mem_append_left _ hMem
  | _ => exact hMem

/-
  The signature of a received proposal verifies under the
  key only when the owner of the key has signed the block.
-/
def Unforged
    (publicKey : Bytes)
    (signed : List (SignData H))
    (event : Event H) : Prop :=
  ∀ p block batch,
    event = .recv (.newProposal p block batch) →
      Crypto.verify publicKey (.hash block.hash) p.proof =
          true →
        SignData.hash block.hash ∈ signed

/- Executable form of `Unforged`. -/
def unforgedCheck
    (publicKey : Bytes)
    (signed : List (SignData H))
    (event : Event H) : Bool :=
  match event with
  | .recv (.newProposal p block _) =>
      !Crypto.verify publicKey (.hash block.hash) p.proof ||
        signed.contains (SignData.hash block.hash)
  | _ => true

theorem unforged_of_unforgedCheck
    {publicKey : Bytes}
    {signed : List (SignData H)}
    {event : Event H}
    (hCheck : unforgedCheck publicKey signed event = true) :
    Unforged publicKey signed event := by
  intro p block batch hEq hVerify
  subst hEq
  simpa [unforgedCheck, hVerify] using hCheck

namespace Ledger

/-
  The ledger of the leader of its view, who holds every
  block it has signed.
-/
structure Leads (ledger : Ledger H) : Prop where
  author : ledger.view % ledger.numNodes = ledger.myid
  delivered :
    ∀ hash,
      SignData.hash hash ∈ ledger.signed →
        ledger.storage.isDeliveredByHash hash = true

/- A leader accepts no proposal of the network. -/
theorem Leads.not_valid
    {ledger : Ledger H}
    {event : Event H}
    {p : Propose H}
    {block : Block H}
    {batch : Batch}
    (hLeads : ledger.Leads)
    (hUnforged :
      ∀ publicKey,
        ledger.pubKeyMap.lookup ledger.myid =
            some publicKey →
          Unforged publicKey ledger.signed event)
    (hEvent : event = .recv (.newProposal p block batch)) :
    ¬ ledger.Valid p block := by
  intro hValid
  rcases hValid.proof with ⟨publicKey, hKey, hVerify⟩
  rw [hValid.author, hLeads.author] at hKey
  have hSigned :=
    hUnforged publicKey hKey p block batch hEvent hVerify
  have hDelivered := hLeads.delivered block.hash hSigned
  rw [hValid.fresh] at hDelivered
  cases hDelivered

/- A leader stays a leader. -/
theorem Leads.step
    {ledger ledger' : Ledger H}
    {event : Event H}
    {movesOn : Bool}
    (hLeads : ledger.Leads)
    (hUnforged :
      ∀ publicKey,
        ledger.pubKeyMap.lookup ledger.myid =
            some publicKey →
          Unforged publicKey ledger.signed event)
    (hStep : Step movesOn event ledger ledger') :
    ledger'.Leads := by
  cases hStep with
  | skip => exact hLeads
  | queue => exact ⟨hLeads.author, hLeads.delivered⟩
  | deliver p block batch myVote hEvent hValid =>
      exact absurd hValid
        (hLeads.not_valid hUnforged hEvent)
  | propose p block batchHash batch rest _ _ _ =>
      refine ⟨hLeads.author, ?_⟩
      intro hash hSigned
      apply Storage.isDeliveredByHash_addDeliveredBlock
      simp only [propose, List.mem_append,
        List.mem_cons, SignData.hash.injEq, reduceCtorEq,
        List.not_mem_nil, or_false] at hSigned
      rcases hSigned with hOld | hNew
      · exact Or.inr (hLeads.delivered hash hOld)
      · exact Or.inl hNew
  | commit => exact ⟨hLeads.author, hLeads.delivered⟩

end Ledger

end Synchs

end LibApollo
