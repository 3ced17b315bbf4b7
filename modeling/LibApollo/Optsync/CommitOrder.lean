import LibApollo.Optsync.ResponsiveQuorum

/-
  The order of commits in Sync HotStuff and in Opt Sync.

  A commit marks one block and none of its ancestors.  Timers
  and responsive certificates bring the blocks in any order,
  so the committed blocks have all of their ancestors only
  where every block comes after its parent.

  Key definitions include:
    * `Synchs.CommitsAncestors`, `Synchs.InOrder`
    * `Synchs.CommitsInOrder`, `Optsync.CommitsInOrder`

  Key theorems include:
    * `Synchs.OrderInv.onCommit`
    * `Optsync.committed_ancestors`
    * `Optsync.child_committed_alone`
-/

------------------------------------------------------------
-- Commits After Parents
------------------------------------------------------------

namespace LibApollo

namespace Synchs

open Ancestry

variable {H : Type} [DecidableEq H] [Crypto H]
variable {st : Storage H (Block H)}
variable {block : Block H}
variable {p : Propose H}

/- Committed blocks lead to genesis by committed blocks. -/
def CommitsAncestors (st : Storage H (Block H)) : Prop :=
  ∀ hash ∈ st.committedBlocksByHash,
    Grounded st.parent Crypto.emptyHash hash ∧
      ∀ other,
        Ancestor st.parent other hash →
          other ∈ st.committedBlocksByHash

omit [Crypto H] in
/- A block to be committed has a committed parent. -/
def InOrder
    (st : Storage H (Block H))
    (p : Propose H) : Prop :=
  ∀ block,
    st.deliveredBlockFromHash p.blockHash = some block →
      st.isCommittedByHash block.hash = false →
      block.header.prev ∈ st.committedBlocksByHash

structure OrderInv (st : Storage H (Block H)) : Prop where
  proper :
    ∀ hash block,
      st.deliveredBlockFromHash hash = some block →
        block.Proper
  closed : st.CommittedClosed
  grounded :
    ∀ hash ∈ st.committedBlocksByHash,
      Grounded st.parent Crypto.emptyHash hash

theorem OrderInv.commitsAncestors
    (hInv : OrderInv st) :
    CommitsAncestors st := by
  intro hash hMem
  refine ⟨hInv.grounded hash hMem, ?_⟩
  intro other hAncestor
  exact hInv.closed.ancestor hAncestor hMem

/- Parents stay what they are when a block is stored. -/
theorem OrderInv.parent_mono
    (hInv : OrderInv st)
    (hFree : CollisionFree H)
    (hProper : block.Proper)
    (hash above : H)
    (hParent : st.parent hash = some above) :
    (st.addDeliveredBlock block).parent hash =
      some above := by
  rcases Storage.exists_delivered_of_parent hParent with
    ⟨stored, hLookup, hPrev⟩
  rw [← hPrev]
  apply Storage.parent_of_delivered
  refine Storage.delivered_mono ?_ hLookup
  intro hHash
  exact (hInv.proper hash stored hLookup).eq_of_hash_eq
    hFree hProper hHash

theorem OrderInv.deliver
    (hInv : OrderInv st)
    (hFree : CollisionFree H)
    (hProper : block.Proper) :
    OrderInv (st.addDeliveredBlock block) := by
  have hMono := hInv.parent_mono hFree hProper
  refine ⟨?_, ?_, ?_⟩
  · exact Storage.forall_addDeliveredBlock hInv.proper
      hProper
  · intro hash hMem
    rcases hInv.closed hash hMem with
      ⟨above, hParent, hAbove⟩
    exact ⟨above, hMono hash above hParent, hAbove⟩
  · intro hash hMem
    exact (hInv.grounded hash hMem).mono hMono

/- A block is committed after its parent. -/
theorem OrderInv.commit
    {hash : H}
    (hInv : OrderInv st)
    (hLookup :
      st.deliveredBlockFromHash hash = some block)
    (hPrev : block.header.prev ∈ st.committedBlocksByHash) :
    OrderInv (st.addCommittedBlock block) := by
  have hParent : st.parent hash = some block.header.prev :=
    Storage.parent_of_delivered hLookup
  have hHash : block.hash = hash :=
    Storage.getHash_of_delivered hLookup
  refine ⟨hInv.proper, ?_, ?_⟩
  · intro other hMem
    rcases Finset.mem_insert.mp hMem with rfl | hOld
    · refine ⟨block.header.prev, ?_,
        Finset.mem_insert_of_mem hPrev⟩
      change st.parent block.hash = _
      rw [hHash]
      exact hParent
    · rcases hInv.closed other hOld with
        ⟨above, hAbove, hCommitted⟩
      exact ⟨above, hAbove,
        Finset.mem_insert_of_mem hCommitted⟩
  · intro other hMem
    rcases Finset.mem_insert.mp hMem with rfl | hOld
    · change Grounded st.parent _ block.hash
      rw [hHash]
      exact .step hParent (hInv.grounded _ hPrev)
    · exact hInv.grounded other hOld

theorem OrderInv.onCommit
    {cx : Context H}
    (hInv : OrderInv cx.storage)
    (hOrder : InOrder cx.storage p) :
    OrderInv (Synchs.onCommit p cx).storage := by
  rcases onCommit_cases p cx with
    hSame | ⟨block, _, _, hLookup, hOpen, hEq⟩
  · rw [hSame]
    exact hInv
  · rw [hEq]
    exact hInv.commit hLookup (hOrder block hLookup hOpen)

theorem orderInv_new
    (config : Config) :
    OrderInv (Context.new config : Context H).storage := by
  have hGenesis :
      (Context.new config : Context H).storage.parent
          Crypto.emptyHash = some Crypto.emptyHash :=
    Storage.parent_of_delivered
      (Storage.addDeliveredBlock_self Storage.new
        (Block.genesis : Block H))
  have hOnly :
      ∀ hash ∈
          (Context.new config :
            Context H).storage.committedBlocksByHash,
        hash = Crypto.emptyHash := by
    intro hash hMem
    exact Finset.mem_singleton.mp hMem
  refine ⟨?_, ?_, ?_⟩
  · intro hash block hLookup
    exact Or.inl (Storage.eq_of_delivered_new hLookup)
  · intro hash hMem
    rw [hOnly hash hMem]
    exact ⟨_, hGenesis, Finset.mem_insert_self _ _⟩
  · intro hash hMem
    rw [hOnly hash hMem]
    exact .root

end Synchs

end LibApollo

------------------------------------------------------------
-- Runs With Commits in Order
------------------------------------------------------------

namespace LibApollo

namespace Synchs

open Optsync (Decoded)

variable {H C : Type} [DecidableEq H] [Crypto H]

/- A timer expires after the parent is committed. -/
def CommitsInOrder
    (node : Node C)
    (cx : Context H)
    (event : Event H) : Prop :=
  Decoded event ∧
    ∀ index p,
      event = .timer index →
        node.phase = .select →
        cx.commitQueue[index]? = some p →
        InOrder cx.storage p

/- A step keeps the order when the message it takes does. -/
theorem OrderInv.step
    {protocol : Protocol H C}
    {movesOn : Bool}
    {event : Event H}
    {node node' : Node C}
    (hRefines : protocol.Refines movesOn)
    (hFree : CollisionFree H)
    (hInv : OrderInv (protocol.base node.cx).storage)
    (hOrder :
      CommitsInOrder node (protocol.base node.cx) event)
    (hRecv :
      ∀ msg cx,
        event = .recv msg →
          node.phase = .select →
          protocol.processMsg msg node.cx = .ok cx →
          OrderInv (protocol.base cx).storage)
    (hStep : protocol.step node event = .ok node') :
    OrderInv (protocol.base node'.cx).storage := by
  cases Protocol.step_ok hStep with
  | idle => exact hInv
  | recv msg cx hPhase hProcess =>
      exact hRecv msg cx rfl hPhase hProcess
  | batch batchHash batch =>
      dsimp only
      rw [protocol.base_lift]
      exact hInv
  | timer index p hPhase hQueue =>
      dsimp only
      rw [protocol.base_lift]
      have hRemoved :
          OrderInv
            (removeTimer index
              (protocol.base node.cx)).storage := hInv
      exact hRemoved.onCommit
        (hOrder.2 index p rfl hPhase hQueue)
  | sealed batch =>
      dsimp only
      rw [protocol.base_lift]
      exact hInv
  | propose batchHash batch rest cx _ _ hPropose =>
      rcases hRefines.propose _ _ _ _ _ hPropose with
        ⟨p, block, hBuilds, hLedger⟩
      have hStorage :
          (protocol.base cx).storage =
            (protocol.base
              node.cx).storage.addDeliveredBlock block :=
        congrArg Ledger.storage hLedger
      dsimp only
      rw [hStorage]
      apply hInv.deliver hFree
      rw [hBuilds.built]
      exact Or.inr (Block.extending_wellHashed _ _ _ _)

/- No message makes a Sync HotStuff node commit. -/
theorem OrderInv.processMsg
    {msg : ProtocolMsg H}
    {cx cx' : Context H}
    (hFree : CollisionFree H)
    (hInv : OrderInv cx.storage)
    (hDecoded : Decoded (.recv msg))
    (hProcess : Synchs.processMsg msg cx = .ok cx') :
    OrderInv cx'.storage := by
  cases processMsg_processed hProcess with
  | ignored => exact hInv
  | stored p block batch => exact hInv
  | accepted p block batch =>
      exact hInv.deliver hFree
        (Or.inr (hDecoded p block batch rfl))
  | counted c p decision voted hVote =>
      have hStorage : cx'.storage = cx.storage :=
        congrArg Ledger.storage (onVote_ledger hVote)
      rw [hStorage]
      exact hInv

end Synchs

namespace Optsync

open Synchs (Propose ProtocolMsg Config Node Event InOrder
  OrderInv CommitsAncestors)

variable {H : Type} [DecidableEq H] [Crypto H]
variable {config : Config}

/-
  Neither a timer nor a responsive certificate comes before
  the parent is committed.
-/
def CommitsInOrder
    (node : Node (Context H))
    (event : Event H) : Prop :=
  Synchs.CommitsInOrder node node.cx.toContext event ∧
    ∀ c p cx,
      event = .recv (.voteMsg c p) →
        node.phase = .select →
        onVote c p node.cx = .ok (true, cx) →
        InOrder node.cx.storage p

theorem orderInv_processMsg
    {msg : ProtocolMsg H}
    {node : Node (Context H)}
    {cx : Context H}
    (hFree : CollisionFree H)
    (hInv : OrderInv node.cx.storage)
    (hOrder : CommitsInOrder node (.recv msg))
    (hPhase : node.phase = .select)
    (hProcess : processMsg msg node.cx = .ok cx) :
    OrderInv cx.storage := by
  have hSame :
      ∀ {c p decision voted},
        onVote c p node.cx = .ok (decision, voted) →
          voted.storage = node.cx.storage := by
    intro c p decision voted hVote
    exact congrArg Synchs.Ledger.storage
      (onVote_ledger hVote)
  cases processMsg_processed hProcess with
  | ignored => exact hInv
  | stored p block batch => exact hInv
  | accepted p block batch =>
      exact hInv.deliver hFree
        (Or.inr (hOrder.1.1 p block batch rfl))
  | counted c p voted hVote =>
      rw [hSame hVote]
      exact hInv
  | committed c p voted hVote =>
      have hVoted : OrderInv voted.storage := by
        rw [hSame hVote]
        exact hInv
      apply hVoted.onCommit
      rw [hSame hVote]
      exact hOrder.2 c p voted rfl hPhase hVote

/-
  In every run in which each commit finds the parent of its
  block committed, the ancestors of every committed block
  are committed, down to genesis.
-/
theorem committed_ancestors
    (hFree : CollisionFree H) :
    (∀ node : Node (Synchs.Context H),
      Machine.Reach Synchs.step
          (fun node event =>
            Synchs.CommitsInOrder node node.cx event)
          (Synchs.Node.new config) node →
        CommitsAncestors node.cx.storage) ∧
      ∀ node : Node (Context H),
        Machine.Reach step CommitsInOrder (Node.new config)
            node →
          CommitsAncestors node.cx.storage := by
  constructor
  · intro node hReach
    apply OrderInv.commitsAncestors
    apply hReach.invariant
      (fun node => OrderInv node.cx.storage)
      (Synchs.orderInv_new config)
    intro node node' event hInv hOrder hStep
    refine OrderInv.step Synchs.protocol_refines hFree hInv
      hOrder ?_ hStep
    intro msg cx hEvent _ hProcess
    rw [hEvent] at hOrder
    exact OrderInv.processMsg hFree hInv hOrder.1 hProcess
  · intro node hReach
    apply OrderInv.commitsAncestors
    apply hReach.invariant
      (fun node => OrderInv node.cx.storage)
      (Synchs.orderInv_new config)
    intro node node' event hInv hOrder hStep
    refine OrderInv.step protocol_refines hFree hInv
      hOrder.1 ?_ hStep
    intro msg cx hEvent hPhase hProcess
    rw [hEvent] at hOrder
    exact orderInv_processMsg hFree hInv hOrder hPhase
      hProcess

/- Executable form of `InOrder`. -/
def inOrderCheck
    (st : Storage H (Block H))
    (p : Propose H) : Bool :=
  match st.deliveredBlockFromHash p.blockHash with
  | none => true
  | some block =>
      decide
        (block.header.prev ∈ st.committedBlocksByHash)

/- Executable form of `Decoded`. -/
def decodedCheck (event : Event H) : Bool :=
  match event with
  | .recv (.newProposal _ block _) =>
      decide block.WellHashed
  | _ => true

theorem decoded_of_check
    {event : Event H}
    (hCheck : decodedCheck event = true) :
    Decoded event := by
  intro p block batch hEvent
  rw [hEvent] at hCheck
  exact of_decide_eq_true hCheck

/- Executable form of `CommitsInOrder`. -/
def commitsInOrderCheck
    (node : Node (Context H))
    (event : Event H) : Bool :=
  decodedCheck event &&
    match event with
    | .recv (.voteMsg _ p) => inOrderCheck node.cx.storage p
    | .timer index =>
        match node.cx.commitQueue[index]? with
        | none => true
        | some p => inOrderCheck node.cx.storage p
    | _ => true

omit [Crypto H] in
theorem inOrder_of_check
    {st : Storage H (Block H)}
    {p : Propose H}
    (hCheck : inOrderCheck st p = true) :
    InOrder st p := by
  intro block hLookup _
  rw [inOrderCheck, hLookup] at hCheck
  exact of_decide_eq_true hCheck

theorem commitsInOrder_of_check
    (node : Node (Context H))
    (event : Event H)
    (hCheck : commitsInOrderCheck node event = true) :
    CommitsInOrder node event := by
  rcases Bool.and_eq_true_iff.mp hCheck with
    ⟨hDecoded, hOrder⟩
  refine ⟨⟨decoded_of_check hDecoded, ?_⟩, ?_⟩
  · intro index p hEvent _ hQueue
    rw [hEvent] at hOrder
    simp only [hQueue] at hOrder
    exact inOrder_of_check hOrder
  · intro c p cx hEvent _ _
    rw [hEvent] at hOrder
    exact inOrder_of_check hOrder

/- The two proposals of the leader. -/
def bothProposals : List (Event Digest) :=
  [.recv (.newProposal firstProposal firstBlock oneBatch),
    .internal,
    .recv (.newProposal secondProposal secondBlock oneBatch),
    .internal]

theorem committed_ancestors_two_blocks :
    ∃ node : Node (Context Digest),
      Machine.Reach step CommitsInOrder
          (Node.new (Config.small 1)) node ∧
        secondBlock.hash ∈
          node.cx.storage.committedBlocksByHash ∧
        CommitsAncestors node.cx.storage := by
  have hRun :
      Machine.runCheck step commitsInOrderCheck
        (fun node =>
          decide
            (secondBlock.hash ∈
              node.cx.storage.committedBlocksByHash))
        (Node.new (Config.small 1))
        (bothProposals ++
          [.timer 0, .internal, .timer 0]) = true := by
    decide +kernel
  rcases Machine.Reach.of_runCheck commitsInOrder_of_check
      hRun with ⟨node, hReach, hFinal⟩
  exact ⟨node, hReach, of_decide_eq_true hFinal,
    (committed_ancestors Digest.collisionFree).2 node
      hReach⟩

/- The second block is committed and the first is not. -/
def secondOnly
    (st : Storage Digest (Block Digest)) : Bool :=
  decide
    (secondBlock.hash ∈ st.committedBlocksByHash ∧
      firstBlock.hash ∉ st.committedBlocksByHash ∧
      st.parent secondBlock.hash = some firstBlock.hash)

theorem not_commitsAncestors_of_secondOnly
    {st : Storage Digest (Block Digest)}
    (hOnly : secondOnly st = true) :
    ¬ CommitsAncestors st := by
  intro hAncestors
  rcases of_decide_eq_true hOnly with
    ⟨hSecond, hFirst, hParent⟩
  exact hFirst ((hAncestors _ hSecond).2 _
    (Ancestry.Ancestor.of_parent hParent))

/-
  The timer of the second block expires first, or in Opt
  Sync its votes are complete first.
-/
theorem child_committed_alone :
    (∃ node : Node (Synchs.Context Digest),
      Machine.Reach Synchs.step (fun _ event => Decoded event)
          (Synchs.Node.new (Config.small 1)) node ∧
        ¬ CommitsAncestors node.cx.storage) ∧
      ∃ node : Node (Context Digest),
        Machine.Reach step (fun _ event => Decoded event)
            (Node.new (Config.small 1)) node ∧
          ¬ CommitsAncestors node.cx.storage := by
  constructor
  · have hRun :
        Machine.runCheck Synchs.step
          (fun _ event => decodedCheck event)
          (fun node => secondOnly node.cx.storage)
          (Synchs.Node.new (Config.small 1))
          (bothProposals ++ [.timer 1]) = true := by
      decide +kernel
    rcases Machine.Reach.of_runCheck
        (fun _ _ hCheck => decoded_of_check hCheck) hRun
      with ⟨node, hReach, hFinal⟩
    exact ⟨node, hReach,
      not_commitsAncestors_of_secondOnly hFinal⟩
  · have hRun :
        Machine.runCheck step
          (fun _ event => decodedCheck event)
          (fun node => secondOnly node.cx.storage)
          (Node.new (Config.small 1))
          (bothProposals ++
            [.recv
              (.voteMsg (votesFor [0] secondBlock)
                secondProposal)]) = true := by
      decide +kernel
    rcases Machine.Reach.of_runCheck
        (fun _ _ hCheck => decoded_of_check hCheck) hRun
      with ⟨node, hReach, hFinal⟩
    exact ⟨node, hReach,
      not_commitsAncestors_of_secondOnly hFinal⟩

end Optsync

end LibApollo
