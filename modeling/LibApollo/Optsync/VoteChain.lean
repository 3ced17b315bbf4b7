import LibApollo.Optsync.ResponsiveQuorum

/-
  The votes of a node that does not lead, in Sync HotStuff
  and in Opt Sync.

  A block at height one is accepted on genesis whatever the
  node has seen, and the height of a later block is never
  compared with that of its parent.  Where the leader stays
  clear of both gaps, the blocks a node has voted for are a
  chain with one block at each height.

  Key definitions include:
    * `Synchs.votedHashes`, `Synchs.VoteChain`
    * `Synchs.CastsVote`, `Synchs.Protocol.Voices`
    * `Synchs.VotesApart`

  Key theorems include:
    * `Optsync.votes_chain`
    * `Optsync.two_votes_at_one_height`
-/

------------------------------------------------------------
-- Votes Sent
------------------------------------------------------------

namespace LibApollo

namespace Synchs

variable {H : Type}

/- The hashes of the votes among the messages sent. -/
def votedHashes (msgs : List (ProtocolMsg H)) : List H :=
  msgs.filterMap
    (fun msg =>
      match msg with
      | .voteMsg { msg := .vote _ hash, .. } _ => some hash
      | _ => none)

@[simp] theorem votedHashes_append_voteMsg
    (msgs : List (ProtocolMsg H))
    (view : Nat)
    (hash : H)
    (votes : List Vote)
    (p : Propose H) :
    votedHashes
        (msgs ++ [.voteMsg ⟨.vote view hash, votes⟩ p]) =
      votedHashes msgs ++ [hash] := by
  simp [votedHashes]

variable [DecidableEq H]
variable {cx cx' : Context H}
variable {blocks : List (Block H)}

/-
  The blocks a node has voted for, in order: one for each
  height, and each on the one before.
-/
structure VoteChain
    (cx : Context H)
    (blocks : List (Block H)) : Prop where
  voted : votedHashes cx.multicasts = blocks.map Block.hash
  delivered :
    ∀ block ∈ blocks,
      cx.storage.deliveredBlockFromHash block.hash =
        some block
  heights :
    (blocks.map (fun block => block.header.height)).Nodup
  parents :
    blocks.IsChain
      (fun parent block =>
        block.header.prev = parent.hash)

/- Nothing is sent and no block is delivered. -/
structure Silent (cx cx' : Context H) : Prop where
  multicasts : cx'.multicasts = cx.multicasts
  lastSeenBlock : cx'.lastSeenBlock = cx.lastSeenBlock
  byHash :
    cx'.storage.deliveredBlockFromHash =
      cx.storage.deliveredBlockFromHash
  byHt :
    cx'.storage.deliveredBlockFromHt =
      cx.storage.deliveredBlockFromHt

variable [Crypto H]

/- The node accepts a block and votes for it. -/
structure CastsVote
    (cx : Context H)
    (p : Propose H)
    (block : Block H)
    (batch : Batch)
    (cx' : Context H) : Prop where
  accepts : Accepts cx p block
  batch : checkBatchHash block batch = true
  multicasts :
    cx'.multicasts =
      cx.multicasts ++ [.voteMsg (ownVote cx block.hash) p]
  lastSeenBlock : cx'.lastSeenBlock = block
  storage : cx'.storage = cx.storage.addDeliveredBlock block

/- A message is a proposal to vote for, or changes nothing. -/
def Protocol.Voices
    {C : Type}
    (protocol : Protocol H C) : Prop :=
  ∀ msg cx cx',
    protocol.processMsg msg cx = .ok cx' →
      Silent (protocol.base cx) (protocol.base cx') ∨
        ∃ p block batch,
          msg = .newProposal p block batch ∧
            CastsVote (protocol.base cx) p block batch
              (protocol.base cx')

omit [Crypto H] in
theorem Silent.of_eq
    (hMulticasts : cx'.multicasts = cx.multicasts)
    (hLastSeen : cx'.lastSeenBlock = cx.lastSeenBlock)
    (hStorage : cx'.storage = cx.storage) :
    Silent cx cx' := by
  refine ⟨hMulticasts, hLastSeen, ?_, ?_⟩
  · rw [hStorage]
  · rw [hStorage]

omit [Crypto H] in
theorem Silent.trans
    {cx'' : Context H}
    (hFirst : Silent cx cx')
    (hSecond : Silent cx' cx'') :
    Silent cx cx'' where
  multicasts := hSecond.multicasts.trans hFirst.multicasts
  lastSeenBlock :=
    hSecond.lastSeenBlock.trans hFirst.lastSeenBlock
  byHash := hSecond.byHash.trans hFirst.byHash
  byHt := hSecond.byHt.trans hFirst.byHt

theorem silent_onCommit
    (p : Propose H)
    (cx : Context H) :
    Silent cx (onCommit p cx) := by
  rcases onCommit_frame p cx with
    ⟨_, _, _, _, hByHash, hByHt, hEq⟩
  rw [hEq]
  exact ⟨rfl, rfl, hByHash, hByHt⟩

omit [Crypto H] in
/- Contexts with one ledger differ in nothing seen here. -/
theorem silent_of_ledger
    (hLedger : cx'.ledger = cx.ledger) :
    Silent cx cx' :=
  .of_eq (congrArg Ledger.multicasts hLedger)
    (congrArg Ledger.lastSeenBlock hLedger)
    (congrArg Ledger.storage hLedger)

theorem protocol_voices :
    (protocol : Protocol H (Context H)).Voices := by
  intro msg cx cx' hProcess
  cases processMsg_processed hProcess with
  | ignored => exact Or.inl (.of_eq rfl rfl rfl)
  | stored p block batch =>
      exact Or.inl (.of_eq rfl rfl rfl)
  | accepted p block batch hAccepts hBatch =>
      exact Or.inr ⟨p, block, batch, rfl, hAccepts, hBatch,
        rfl, rfl, rfl⟩
  | counted c p decision voted hVote =>
      exact Or.inl (silent_of_ledger (onVote_ledger hVote))

end Synchs

namespace Optsync

open Synchs (Protocol Silent)

variable {H : Type} [DecidableEq H] [Crypto H]

theorem protocol_voices :
    (protocol : Protocol H (Context H)).Voices := by
  intro msg cx cx' hProcess
  cases processMsg_processed hProcess with
  | ignored => exact Or.inl (.of_eq rfl rfl rfl)
  | stored p block batch =>
      exact Or.inl (.of_eq rfl rfl rfl)
  | accepted p block batch hAccepts hBatch =>
      exact Or.inr ⟨p, block, batch, rfl, hAccepts, hBatch,
        rfl, rfl, rfl⟩
  | counted c p voted hVote =>
      exact Or.inl
        (Synchs.silent_of_ledger (onVote_ledger hVote))
  | committed c p voted hVote =>
      have hVoted : Silent cx.toContext voted.toContext :=
        Synchs.silent_of_ledger (onVote_ledger hVote)
      exact Or.inl
        (hVoted.trans (Synchs.silent_onCommit p _))

end Optsync

end LibApollo

------------------------------------------------------------
-- Steps Extend the Chain
------------------------------------------------------------

namespace LibApollo

namespace Synchs

variable {H C : Type} [DecidableEq H] [Crypto H]
variable {config : Config}
variable {cx cx' : Context H}
variable {blocks : List (Block H)}
variable {p : Propose H} {block : Block H} {batch : Batch}

/-
  A proposal the node votes for is the only block at its
  height, genesis aside, and is built on the last seen one.
-/
def VotesApart
    (cx : Context H)
    (event : Event H) : Prop :=
  ∀ p block batch,
    event = .recv (.newProposal p block batch) →
      Accepts cx p block →
      checkBatchHash block batch = true →
      (∀ other,
        cx.storage.deliveredBlockFromHt
            block.header.height = some other →
          other = Block.genesis) ∧
        block.header.prev = cx.lastSeenBlock.hash

/- The chain of votes with what makes it grow. -/
structure VoteInv
    (cx : Context H)
    (blocks : List (Block H)) : Prop extends
    VoteChain cx blocks where
  byHt :
    ∀ block ∈ blocks,
      cx.storage.deliveredBlockFromHt block.header.height =
        some block
  last : ∀ block ∈ blocks.getLast?, cx.lastSeenBlock = block
  proper : ∀ block ∈ blocks, block ≠ Block.genesis
  genesis :
    cx.storage.deliveredBlockFromHash Crypto.emptyHash =
      some Block.genesis

theorem VoteInv.silent
    (hInv : VoteInv cx blocks)
    (hSilent : Silent cx cx') :
    VoteInv cx' blocks := by
  refine
    { voted := ?_
      delivered := ?_
      heights := hInv.heights
      parents := hInv.parents
      byHt := ?_
      last := ?_
      proper := hInv.proper
      genesis := ?_ }
  · rw [hSilent.multicasts]
    exact hInv.voted
  · rw [hSilent.byHash]
    exact hInv.delivered
  · rw [hSilent.byHt]
    exact hInv.byHt
  · rw [hSilent.lastSeenBlock]
    exact hInv.last
  · rw [hSilent.byHash]
    exact hInv.genesis

/- A further vote extends the chain. -/
theorem VoteInv.castsVote
    (hInv : VoteInv cx blocks)
    (hApart :
      VotesApart cx (.recv (.newProposal p block batch)))
    (hCasts : CastsVote cx p block batch cx') :
    VoteInv cx' (blocks ++ [block]) := by
  rcases hApart p block batch rfl hCasts.accepts
      hCasts.batch with ⟨hAlone, hParent⟩
  have hFresh := hCasts.accepts.fresh
  have hHeight :
      ∀ other ∈ blocks,
        other.header.height ≠ block.header.height := by
    intro other hMem hSame
    have hStored := hInv.byHt other hMem
    rw [hSame] at hStored
    exact hInv.proper other hMem (hAlone other hStored)
  refine
    { voted := ?_
      delivered := ?_
      heights := ?_
      parents := ?_
      byHt := ?_
      last := ?_
      proper := ?_
      genesis := ?_ }
  · rw [hCasts.multicasts, ownVote,
      votedHashes_append_voteMsg, hInv.voted]
    simp
  · intro other hMem
    rw [hCasts.storage]
    rcases List.mem_append.mp hMem with hOld | hNew
    · exact Storage.delivered_of_fresh hFresh
        (hInv.delivered other hOld)
    · rw [List.mem_singleton.mp hNew]
      exact Storage.addDeliveredBlock_self cx.storage block
  · rw [List.map_append]
    apply hInv.heights.append (List.nodup_singleton _)
    intro height hOld hNew
    rcases List.mem_map.mp hOld with ⟨other, hMem, rfl⟩
    exact hHeight other hMem (List.mem_singleton.mp hNew)
  · apply hInv.parents.append (List.isChain_singleton _)
    intro parent hLast other hHead
    cases hHead
    rw [← hInv.last parent hLast]
    exact hParent
  · intro other hMem
    rw [hCasts.storage,
      Storage.addDeliveredBlock_deliveredBlockFromHt]
    rcases List.mem_append.mp hMem with hOld | hNew
    · exact (if_neg (hHeight other hOld)).trans
        (hInv.byHt other hOld)
    · rw [List.mem_singleton.mp hNew]
      exact if_pos rfl
  · intro other hLast
    rw [List.getLast?_append] at hLast
    cases hLast
    exact hCasts.lastSeenBlock
  · intro other hMem hGenesis
    rcases List.mem_append.mp hMem with hOld | hNew
    · exact hInv.proper other hOld hGenesis
    · rw [← List.mem_singleton.mp hNew, hGenesis,
        Storage.isDeliveredByHash, Block.genesis_hash,
        hInv.genesis] at hFresh
      cases hFresh
  · rw [hCasts.storage]
    exact Storage.delivered_of_fresh hFresh hInv.genesis

/- A node that does not lead votes or stays silent. -/
theorem Protocol.Voices.step
    {protocol : Protocol H C}
    {event : Event H}
    {node node' : Node C}
    (hVoices : protocol.Voices)
    (hFollows :
      (protocol.base node.cx).ledger.Follows config)
    (hOther : config.id ≠ 0)
    (hStep : protocol.step node event = .ok node') :
    Silent (protocol.base node.cx)
        (protocol.base node'.cx) ∨
      ∃ p block batch,
        event = .recv (.newProposal p block batch) ∧
          CastsVote (protocol.base node.cx) p block batch
            (protocol.base node'.cx) := by
  cases Protocol.step_ok hStep with
  | idle => exact Or.inl (.of_eq rfl rfl rfl)
  | recv msg cx _ hProcess =>
      rcases hVoices msg node.cx cx hProcess with
        hSilent | ⟨p, block, batch, rfl, hCasts⟩
      · exact Or.inl hSilent
      · exact Or.inr ⟨p, block, batch, rfl, hCasts⟩
  | batch batchHash batch =>
      left
      dsimp only
      rw [protocol.base_lift]
      exact .of_eq rfl rfl rfl
  | timer index p _ _ =>
      left
      dsimp only
      rw [protocol.base_lift]
      have hRemoved :
          Silent (protocol.base node.cx)
            (removeTimer index (protocol.base node.cx)) :=
        .of_eq rfl rfl rfl
      exact hRemoved.trans (silent_onCommit p _)
  | sealed batch =>
      left
      dsimp only
      rw [protocol.base_lift]
      exact .of_eq rfl rfl rfl
  | propose batchHash batch rest cx _ hLeader _ =>
      -- the leader is replica 0
      have hSelf := hFollows.myid
      have hZero := hFollows.leader
      exact absurd
        (hSelf.symm.trans (hLeader.symm.trans hZero)) hOther

end Synchs

end LibApollo

------------------------------------------------------------
-- Runs of a Voter
------------------------------------------------------------

namespace LibApollo

namespace Synchs

variable {H C : Type} [DecidableEq H] [Crypto H]
variable {config : Config}

theorem voteInv_new
    (config : Config) :
    VoteInv (Context.new config : Context H) [] := by
  refine
    { voted := rfl
      delivered := ?_
      heights := List.nodup_nil
      parents := List.isChain_nil
      byHt := ?_
      last := ?_
      proper := ?_
      genesis := ?_ }
  · intro block hMem
    cases hMem
  · intro block hMem
    cases hMem
  · intro block hMem
    cases hMem
  · intro block hMem
    cases hMem
  · exact Storage.addDeliveredBlock_self Storage.new
      (Block.genesis : Block H)

/- The votes of every run form a chain. -/
theorem Protocol.Voices.voteChain
    {protocol : Protocol H C}
    {movesOn : Bool}
    {start node : Node C}
    (hVoices : protocol.Voices)
    (hRefines : protocol.Refines movesOn)
    (hOther : config.id ≠ 0)
    (hStart :
      protocol.base start.cx = Context.new config)
    (hReach :
      Machine.Reach protocol.step
        (fun node event =>
          VotesApart (protocol.base node.cx) event)
        start node) :
    ∃ blocks,
      VoteChain (protocol.base node.cx) blocks := by
  have hFollows :
      (protocol.base start.cx).ledger.Follows config := by
    rw [hStart]
    exact follows_new config
  have hInv :
      (protocol.base node.cx).ledger.Follows config ∧
        ∃ blocks,
          VoteInv (protocol.base node.cx) blocks := by
    apply hReach.invariant
      (fun node =>
        (protocol.base node.cx).ledger.Follows config ∧
          ∃ blocks, VoteInv (protocol.base node.cx) blocks)
    · refine ⟨hFollows, [], ?_⟩
      rw [hStart]
      exact voteInv_new config
    · intro node node' event hParts hApart hStep
      rcases hParts with ⟨hFollows, blocks, hInv⟩
      refine ⟨hFollows.step (hRefines.step hStep), ?_⟩
      rcases hVoices.step hFollows hOther hStep with
        hSilent | ⟨p, block, batch, rfl, hCasts⟩
      · exact ⟨blocks, hInv.silent hSilent⟩
      · exact ⟨blocks ++ [block],
          hInv.castsVote hApart hCasts⟩
  rcases hInv with ⟨_, blocks, hInv⟩
  exact ⟨blocks, hInv.toVoteChain⟩

end Synchs

namespace Optsync

open Synchs (Propose Config Node Event VoteChain
  VotesApart)

variable {H : Type} [DecidableEq H] [Crypto H]
variable {config : Config}

/-
  In every run in which each proposal voted for is on the
  last seen block and the first one at its height, a node
  that does not lead has voted for a chain of blocks of
  different heights.
-/
theorem votes_chain
    (hOther : config.id ≠ 0) :
    (∀ node : Node (Synchs.Context H),
      Machine.Reach Synchs.step
          (fun node event => VotesApart node.cx event)
          (Synchs.Node.new config) node →
        ∃ blocks, VoteChain node.cx blocks) ∧
      ∀ node : Node (Context H),
        Machine.Reach step
            (fun node event =>
              VotesApart node.cx.toContext event)
            (Node.new config) node →
          ∃ blocks, VoteChain node.cx.toContext blocks := by
  constructor
  · intro node hReach
    exact Synchs.protocol_voices.voteChain
      Synchs.protocol_refines hOther rfl hReach
  · intro node hReach
    exact protocol_voices.voteChain protocol_refines hOther
      rfl hReach

/- Executable form of `VotesApart`. -/
def votesApartCheck
    (cx : Synchs.Context H)
    (event : Event H) : Bool :=
  match event with
  | .recv (.newProposal _ block _) =>
      (match cx.storage.deliveredBlockFromHt
          block.header.height with
      | none => true
      | some other => decide (other = Block.genesis)) &&
        decide (block.header.prev = cx.lastSeenBlock.hash)
  | _ => true

theorem votesApart_of_check
    {cx : Synchs.Context H}
    {event : Event H}
    (hCheck : votesApartCheck cx event = true) :
    VotesApart cx event := by
  intro p block batch hEvent _ _
  subst hEvent
  unfold votesApartCheck at hCheck
  rcases Bool.and_eq_true_iff.mp hCheck with
    ⟨hAlone, hParent⟩
  refine ⟨?_, of_decide_eq_true hParent⟩
  intro other hStored
  rw [hStored] at hAlone
  exact of_decide_eq_true hAlone

/- The node has voted for these two blocks. -/
def votedFor
    (first second : Block Digest)
    (cx : Synchs.Context Digest) : Bool :=
  decide
    (Synchs.votedHashes cx.multicasts =
        [first.hash, second.hash] ∧
      cx.storage.deliveredBlockFromHash first.hash =
        some first ∧
      cx.storage.deliveredBlockFromHash second.hash =
        some second)

/- Two proposals that a node receives. -/
def twoProposals
    (p : Propose Digest)
    (block : Block Digest)
    (batch : Batch) : List (Event Digest) :=
  [.recv (.newProposal firstProposal firstBlock oneBatch),
    .internal, .recv (.newProposal p block batch)]

theorem votes_chain_two_blocks :
    ∃ node : Node (Context Digest),
      Machine.Reach step
          (fun node event =>
            VotesApart node.cx.toContext event)
          (Node.new (Config.small 1)) node ∧
        Synchs.votedHashes node.cx.multicasts =
          [firstBlock.hash, secondBlock.hash] ∧
        ∃ blocks, VoteChain node.cx.toContext blocks := by
  have hRun :
      Machine.runCheck step
        (fun node event =>
          votesApartCheck node.cx.toContext event)
        (fun node =>
          votedFor firstBlock secondBlock node.cx.toContext)
        (Node.new (Config.small 1))
        (twoProposals secondProposal secondBlock oneBatch) =
          true := by
    decide +kernel
  rcases Machine.Reach.of_runCheck
      (fun _ _ hCheck => votesApart_of_check hCheck) hRun
    with ⟨node, hReach, hFinal⟩
  have hOther : (Config.small 1).id ≠ 0 := by decide
  exact ⟨node, hReach, (of_decide_eq_true hFinal).1,
    (votes_chain hOther).2 node hReach⟩

/- Two votes for blocks of one height are no chain. -/
theorem not_voteChain_of_votedFor
    {first second : Block Digest}
    {cx : Synchs.Context Digest}
    (hVoted : votedFor first second cx = true)
    (hHeight :
      first.header.height = second.header.height)
    (blocks : List (Block Digest)) :
    ¬ VoteChain cx blocks := by
  intro hChain
  rcases of_decide_eq_true hVoted with
    ⟨hHashes, hFirst, hSecond⟩
  have hMap :
      blocks.map Block.hash =
        [first.hash, second.hash] :=
    hChain.voted.symm.trans hHashes
  rcases List.map_eq_cons_iff.mp hMap with
    ⟨left, rest, rfl, hLeft, hRest⟩
  rcases List.map_eq_singleton_iff.mp hRest with
    ⟨right, rfl, hRight⟩
  have hLeftStored := hChain.delivered left (by simp)
  have hRightStored := hChain.delivered right (by simp)
  rw [hLeft, hFirst] at hLeftStored
  rw [hRight, hSecond] at hRightStored
  cases hLeftStored
  cases hRightStored
  exact (List.nodup_cons.mp hChain.heights).1
    (List.mem_singleton.mpr hHeight)

/-
  The leader sends two blocks of height one, and replica 1
  votes for both.
-/
theorem two_votes_at_one_height :
    (Config.small 1).id ≠ 0 ∧
      (∃ node : Node (Synchs.Context Digest),
        Machine.Reach Synchs.step (fun _ _ => True)
            (Synchs.Node.new (Config.small 1)) node ∧
          ∀ blocks, ¬ VoteChain node.cx blocks) ∧
      ∃ node : Node (Context Digest),
        Machine.Reach step (fun _ _ => True)
            (Node.new (Config.small 1)) node ∧
          ∀ blocks,
            ¬ VoteChain node.cx.toContext blocks := by
  refine ⟨by decide, ?_, ?_⟩
  · have hRun :
        Machine.runCheck Synchs.step (fun _ _ => true)
          (fun node => votedFor firstBlock twinBlock node.cx)
          (Synchs.Node.new (Config.small 1))
          (twoProposals twinProposal twinBlock
            ⟨[twinTransaction]⟩) = true := by
      decide +kernel
    rcases Machine.Reach.of_runCheck
        (fun _ _ _ => trivial) hRun with
      ⟨node, hReach, hFinal⟩
    exact ⟨node, hReach,
      not_voteChain_of_votedFor hFinal (by decide)⟩
  · have hRun :
        Machine.runCheck step (fun _ _ => true)
          (fun node =>
            votedFor firstBlock twinBlock node.cx.toContext)
          (Node.new (Config.small 1))
          (twoProposals twinProposal twinBlock
            ⟨[twinTransaction]⟩) = true := by
      decide +kernel
    rcases Machine.Reach.of_runCheck
        (fun _ _ _ => trivial) hRun with
      ⟨node, hReach, hFinal⟩
    exact ⟨node, hReach,
      not_voteChain_of_votedFor hFinal (by decide)⟩

end Optsync

end LibApollo
