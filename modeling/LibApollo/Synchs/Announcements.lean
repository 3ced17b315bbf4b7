import LibApollo.Synchs.Steps
import LibApollo.Mempool.Notices

/-
  What a node tells its clients.

  A board is the part of a context that decides it: the
  batch stores, the batches waiting to be proposed, the
  block index and the announcements.  The handlers of Sync
  HotStuff and of Opt Sync move a board in five ways, and
  each of them keeps the board faithful: a block is
  announced once, with the transactions of its batch.

  Key definitions include:
    * `announcedBlocks`, `Announces`
    * `Board`, `Board.Move`, `Board.Faithful`
    * `Sealed`
    * `Protocol.Posts`

  Key theorems include:
    * `Board.Faithful.move`
    * `Protocol.Posts.announces`
    * `protocol_posts`
-/

------------------------------------------------------------
-- Announcements
------------------------------------------------------------

namespace LibApollo

namespace Synchs

variable {H : Type}

/- The block that a message announces. -/
def ClientMsg.announces : ClientMsg H → Option (Block H)
| .newBlock block _ _ => some block
| _ => none

/- The blocks announced to the clients, in order. -/
def announcedBlocks
    (msgs : List (ClientMsg H)) : List (Block H) :=
  msgs.filterMap ClientMsg.announces

@[simp] theorem announcedBlocks_append_newBlock
    (msgs : List (ClientMsg H))
    (block : Block H)
    (txHashes : List H)
    (payload : Bytes) :
    announcedBlocks
        (msgs ++ [.newBlock block txHashes payload]) =
      announcedBlocks msgs ++ [block] := by
  simp [announcedBlocks, ClientMsg.announces]

variable [DecidableEq H] [Crypto H]

/-
  No block is announced twice and the genesis block never,
  and the hashes that come with a block are those of the
  transactions of its batch, which is in the cache.
-/
structure Announces (cx : Context H) : Prop where
  once :
    ((announcedBlocks cx.announced).map Block.hash).Nodup
  notGenesis :
    ∀ block ∈ announcedBlocks cx.announced,
      block.hash ≠ (Block.genesis : Block H).hash
  exact :
    ∀ block txHashes payload,
      .newBlock block txHashes payload ∈ cx.announced →
        ∃ batch,
          cx.batches.batchCache.lookup
              block.body.batchHash = some batch ∧
            batch.hash = block.body.batchHash ∧
            txHashes = batch.payload.map Crypto.txHash

end Synchs

end LibApollo

------------------------------------------------------------
-- Boards
------------------------------------------------------------

namespace LibApollo

namespace Synchs

structure Board (H : Type) [DecidableEq H] where
  batches : BatchStores H
  pendingBatches : List (H × Batch)
  storage : Storage H (Block H)
  announced : List (ClientMsg H)

variable {H : Type} [DecidableEq H]

/- What a board keeps of a context. -/
def Context.board (cx : Context H) : Board H where
  batches := cx.batches
  pendingBatches := cx.pendingBatches
  storage := cx.storage
  announced := cx.announced

namespace Board

/- The batch with this hash is in the stores. -/
def Has (board : Board H) (hash : H) : Prop :=
  ∃ found, board.batches.Holds hash found

/- Commit a block and tell the clients. -/
def commit
    (board : Board H)
    (block : Block H)
    (told : List (ClientMsg H)) : Board H :=
  { board with
    batches :=
      (board.batches.readBatch block.body.batchHash).2
    storage := board.storage.addCommittedBlock block
    announced := board.announced ++ told }

variable [Crypto H]

/-
  What is said at a commit: nothing when there are no
  clients, else the block with the hashes of the batch that
  was read.
-/
inductive Tells
    (board : Board H)
    (block : Block H) : List (ClientMsg H) → Prop where
| nobody : Tells board block []
| clients (txHashes : List H) (payload : Bytes) :
    (∀ batch,
      (board.batches.readBatch block.body.batchHash).1 =
          some batch →
        txHashes = batch.txHashes) →
      Tells board block [.newBlock block txHashes payload]

/- The ways in which a node can change a board. -/
inductive Move (board : Board H) : Board H → Prop where
| persist (hash : H) (batch : Batch) :
    batch.hash = hash →
      Move board
        { board with
          batches := board.batches.persistBatch hash batch }
| queue (hash : H) (batch : Batch) :
    board.Has hash →
      Move board
        { board with
          pendingBatches :=
            board.pendingBatches ++ [(hash, batch)] }
| deliver (block : Block H) :
    board.Has block.body.batchHash →
      Move board
        { board with
          storage := board.storage.addDeliveredBlock block }
| build
    (block : Block H) (batch : Batch)
    (rest : List (H × Batch)) :
    board.pendingBatches =
        (block.body.batchHash, batch) :: rest →
      Move board
        { board with
          pendingBatches := rest
          storage := board.storage.addDeliveredBlock block }
| commit (block : Block H) (told : List (ClientMsg H)) :
    board.storage.deliveredBlockFromHash block.hash =
        some block →
      board.storage.isCommittedByHash block.hash = false →
      board.Tells block told →
      Move board (board.commit block told)

end Board

end Synchs

end LibApollo

------------------------------------------------------------
-- Faithful Boards
------------------------------------------------------------

namespace LibApollo

namespace Synchs

namespace Board

variable {H : Type} [DecidableEq H] [Crypto H]
variable {board board' : Board H}

/- The batch that an announcement is about. -/
def Names
    (board : Board H)
    (block : Block H)
    (txHashes : List H) : Prop :=
  ∃ batch,
    board.batches.batchCache.lookup block.body.batchHash =
        some batch ∧
      batch.hash = block.body.batchHash ∧
      txHashes = batch.txHashes

/-
  The batches of all delivered blocks but genesis are there,
  and what was announced is committed.
-/
structure Faithful (board : Board H) : Prop where
  filed : board.batches.Filed
  queued :
    ∀ entry ∈ board.pendingBatches, board.Has entry.1
  stocked :
    ∀ hash block,
      board.storage.deliveredBlockFromHash hash =
          some block →
        hash ≠ Crypto.emptyHash →
          board.Has block.body.batchHash
  root :
    Crypto.emptyHash ∈ board.storage.committedBlocksByHash
  committed :
    ∀ block ∈ announcedBlocks board.announced,
      block.hash ∈ board.storage.committedBlocksByHash
  once :
    ((announcedBlocks board.announced).map
      Block.hash).Nodup
  notGenesis :
    ∀ block ∈ announcedBlocks board.announced,
      block.hash ≠ Crypto.emptyHash
  named :
    ∀ block txHashes payload,
      .newBlock block txHashes payload ∈ board.announced →
        board.Names block txHashes

theorem Faithful.persist
    {batch : Batch}
    (hFaithful : board.Faithful) :
    Faithful
      { board with
        batches :=
          board.batches.persistBatch batch.hash batch } :=
  { hFaithful with
    filed := hFaithful.filed.persist rfl
    queued := by
      intro entry hMem
      exact BatchStores.exists_holds_persistBatch
        (hFaithful.queued entry hMem)
    stocked := by
      intro hash block hLookup hNot
      exact BatchStores.exists_holds_persistBatch
        (hFaithful.stocked hash block hLookup hNot)
    named := by
      intro block txHashes payload hMem
      rcases hFaithful.named block txHashes payload hMem
        with ⟨found, hCached, hHash, hTx⟩
      exact ⟨found,
        BatchStores.cached_cacheInsert hCached _ _, hHash,
        hTx⟩ }

theorem Faithful.deliver
    {block : Block H}
    (hFaithful : board.Faithful)
    (hHas : board.Has block.body.batchHash) :
    Faithful
      { board with
        storage :=
          board.storage.addDeliveredBlock block } :=
  { hFaithful with
    stocked :=
      Storage.forall_addDeliveredBlock hFaithful.stocked
        (fun _ => hHas) }

omit [Crypto H] in
theorem Has.commit
    {hash : H}
    (hHas : board.Has hash)
    (block : Block H)
    (told : List (ClientMsg H)) :
    (board.commit block told).Has hash := by
  rcases hHas with ⟨found, hHolds⟩
  exact ⟨found,
    (BatchStores.readBatch_holds _ _ hash found).mpr
      hHolds⟩

theorem Names.commit
    {other : Block H}
    {txHashes : List H}
    (hNames : board.Names other txHashes)
    (block : Block H)
    (told : List (ClientMsg H)) :
    (board.commit block told).Names other txHashes := by
  rcases hNames with ⟨batch, hCached, hHash, hTx⟩
  exact ⟨batch,
    BatchStores.cached_readBatch (Or.inl hCached), hHash,
    hTx⟩

omit [Crypto H] in
@[simp] theorem commit_nil_announced
    (board : Board H)
    (block : Block H) :
    (board.commit block []).announced = board.announced :=
  List.append_nil _

/- A commit that nobody is told about. -/
theorem Faithful.commitSilent
    (hFaithful : board.Faithful)
    (block : Block H) :
    (board.commit block []).Faithful where
  filed := hFaithful.filed.read _
  queued := by
    intro entry hMem
    exact (hFaithful.queued entry hMem).commit block []
  stocked := by
    intro hash other hLookup hNot
    exact (hFaithful.stocked hash other hLookup hNot).commit
      block []
  root := Finset.mem_insert_of_mem hFaithful.root
  committed := by
    intro other hMem
    rw [commit_nil_announced] at hMem
    exact Finset.mem_insert_of_mem
      (hFaithful.committed other hMem)
  once := by
    rw [commit_nil_announced]
    exact hFaithful.once
  notGenesis := by
    rw [commit_nil_announced]
    exact hFaithful.notGenesis
  named := by
    intro other txHashes payload hMem
    rw [commit_nil_announced] at hMem
    exact (hFaithful.named other txHashes payload
      hMem).commit block []

/- An open block with its batch may be announced. -/
theorem Faithful.tell
    {block : Block H}
    {txHashes : List H}
    (hFaithful : board.Faithful)
    (hCommitted :
      block.hash ∈ board.storage.committedBlocksByHash)
    (hNew :
      ∀ other ∈ announcedBlocks board.announced,
        other.hash ≠ block.hash)
    (hNot : block.hash ≠ Crypto.emptyHash)
    (hNames : board.Names block txHashes)
    (payload : Bytes) :
    Faithful
      { board with
        announced :=
          board.announced ++
            [.newBlock block txHashes payload] } :=
  { hFaithful with
    committed := by
      intro other hMem
      dsimp only at hMem
      rw [announcedBlocks_append_newBlock, List.mem_append,
        List.mem_singleton] at hMem
      rcases hMem with hOld | rfl
      · exact hFaithful.committed other hOld
      · exact hCommitted
    once := by
      dsimp only
      rw [announcedBlocks_append_newBlock, List.map_append,
        List.map_singleton, ← List.concat_eq_append]
      apply List.Nodup.concat _ hFaithful.once
      intro hMem
      rcases List.mem_map.mp hMem with
        ⟨other, hOther, hSame⟩
      exact hNew other hOther hSame
    notGenesis := by
      intro other hMem
      dsimp only at hMem
      rw [announcedBlocks_append_newBlock, List.mem_append,
        List.mem_singleton] at hMem
      rcases hMem with hOld | rfl
      · exact hFaithful.notGenesis other hOld
      · exact hNot
    named := by
      intro other hashes bytes hMem
      dsimp only at hMem
      rw [List.mem_append, List.mem_singleton] at hMem
      rcases hMem with hOld | hLast
      · exact hFaithful.named other hashes bytes hOld
      · cases hLast
        exact hNames }

theorem Faithful.commit
    {block : Block H}
    {told : List (ClientMsg H)}
    (hFaithful : board.Faithful)
    (hLookup :
      board.storage.deliveredBlockFromHash block.hash =
        some block)
    (hOpen :
      board.storage.isCommittedByHash block.hash = false)
    (hTells : board.Tells block told) :
    (board.commit block told).Faithful := by
  have hFree :
      block.hash ∉ board.storage.committedBlocksByHash := by
    rw [← Storage.isCommittedByHash_iff, hOpen]
    exact Bool.false_ne_true
  have hNot : block.hash ≠ Crypto.emptyHash := by
    intro hEq
    rw [hEq] at hFree
    exact hFree hFaithful.root
  have hSilent := hFaithful.commitSilent block
  cases hTells with
  | nobody => exact hSilent
  | clients txHashes payload hTx =>
      have hHas :=
        hFaithful.stocked block.hash block hLookup hNot
      rcases BatchStores.readBatch_isSome hHas with
        ⟨found, hRead⟩
      have hHash : found.hash = block.body.batchHash :=
        hFaithful.filed _ found
          (BatchStores.holds_of_readBatch hRead)
      have hNames :
          (board.commit block []).Names block txHashes :=
        ⟨found,
          BatchStores.cached_readBatch
            (Or.inr ⟨rfl, hRead⟩),
          hHash, hTx found hRead⟩
      have hNew :
          ∀ other ∈ announcedBlocks
              (board.commit block []).announced,
            other.hash ≠ block.hash := by
        intro other hMem hSame
        rw [commit_nil_announced] at hMem
        apply hFree
        rw [← hSame]
        exact hFaithful.committed other hMem
      have hTold :=
        hSilent.tell (Finset.mem_insert_self _ _) hNew hNot
          hNames payload
      rw [commit_nil_announced] at hTold
      exact hTold

/- Every move keeps a board faithful. -/
theorem Faithful.move
    (hFaithful : board.Faithful)
    (hMove : board.Move board') :
    board'.Faithful := by
  cases hMove with
  | persist hash batch hHash =>
      subst hHash
      exact hFaithful.persist
  | queue hash batch hHas =>
      refine { hFaithful with queued := ?_ }
      intro entry hMem
      rw [List.mem_append, List.mem_singleton] at hMem
      rcases hMem with hOld | rfl
      · exact hFaithful.queued entry hOld
      · exact hHas
  | deliver block hHas => exact hFaithful.deliver hHas
  | build block batch rest hPending =>
      have hHas : board.Has block.body.batchHash := by
        apply hFaithful.queued (block.body.batchHash, batch)
        rw [hPending]
        exact List.mem_cons_self
      refine { hFaithful.deliver hHas with queued := ?_ }
      intro entry hMem
      apply hFaithful.queued entry
      rw [hPending]
      exact List.mem_cons_of_mem _ hMem
  | commit block told hLookup hOpen hTells =>
      exact hFaithful.commit hLookup hOpen hTells

theorem Faithful.moves
    (hFaithful : board.Faithful)
    (hMoves :
      Relation.ReflTransGen Board.Move board board') :
    board'.Faithful := by
  induction hMoves with
  | refl => exact hFaithful
  | tail _ hMove ih => exact ih.move hMove

end Board

end Synchs

end LibApollo

------------------------------------------------------------
-- Protocols
------------------------------------------------------------

namespace LibApollo

namespace Synchs

variable {H C : Type} [DecidableEq H] [Crypto H]

/- A context changes its board by moves. -/
def Moves (cx cx' : Context H) : Prop :=
  Relation.ReflTransGen Board.Move cx.board cx'.board

/- A commit either changes nothing or is a move. -/
theorem onCommit_moves
    (p : Propose H)
    (cx : Context H) :
    Moves cx (onCommit p cx) := by
  unfold onCommit
  split
  · exact .refl
  · rename_i block hLookup
    split
    · exact .refl
    · rename_i hOpen
      have hKey :
          cx.board.storage.deliveredBlockFromHash
              block.hash = some block := by
        have hHash : block.hash = p.blockHash :=
          Storage.getHash_of_delivered hLookup
        rw [hHash]
        exact hLookup
      have hFree :
          cx.board.storage.isCommittedByHash block.hash =
            false :=
        (Bool.not_eq_true _).mp hOpen
      have hCommit :
          ∃ told,
            cx.board.Tells block told ∧
              (commitBlock block cx).board =
                cx.board.commit block told := by
        unfold commitBlock Context.multicastClient
        dsimp only
        split
        · refine ⟨[], .nobody, ?_⟩
          simp [Context.board, Board.commit,
            Context.readBatch]
        · refine ⟨_, .clients _ _ ?_, rfl⟩
          intro batch hRead
          dsimp only [Context.board] at hRead
          dsimp only [Context.readBatch]
          rw [hRead]
      rcases hCommit with ⟨told, hTells, hEq⟩
      refine .single ?_
      rw [hEq]
      exact .commit block told hKey hFree hTells

/- The handlers of a protocol move its board. -/
structure Protocol.Posts
    (protocol : Protocol H C) : Prop where
  processMsg :
    ∀ msg cx cx',
      protocol.processMsg msg cx = .ok cx' →
        Moves (protocol.base cx) (protocol.base cx')
  propose :
    ∀ batchHash batch rest cx cx',
      (protocol.base cx).pendingBatches =
          (batchHash, batch) :: rest →
        protocol.propose batchHash batch
            (protocol.lift (keepBatches rest) cx) =
          .ok cx' →
          Moves (protocol.base cx) (protocol.base cx')

/-
  The batches that are handed over for a proposal have been
  stored under their hash when they were sealed.
-/
def Sealed
    (protocol : Protocol H C)
    (node : Node C)
    (event : Event H) : Prop :=
  ∀ batchHash batch,
    event = .batch batchHash batch →
      ∃ found,
        (protocol.base node.cx).batches.Holds batchHash
          found

/- What a step does to the board. -/
theorem Protocol.Posts.step
    {protocol : Protocol H C}
    {event : Event H}
    {node node' : Node C}
    (hPosts : protocol.Posts)
    (hSealed : Sealed protocol node event)
    (hStep : protocol.step node event = .ok node') :
    Moves (protocol.base node.cx)
      (protocol.base node'.cx) := by
  cases Protocol.step_ok hStep with
  | idle => exact .refl
  | recv msg cx _ hProcess =>
      exact hPosts.processMsg msg _ _ hProcess
  | batch batchHash batch =>
      refine .single ?_
      dsimp only
      rw [protocol.base_lift]
      exact .queue batchHash batch
        (hSealed batchHash batch rfl)
  | timer index p =>
      dsimp only
      rw [protocol.base_lift]
      exact onCommit_moves p
        (removeTimer index (protocol.base node.cx))
  | sealed batch =>
      refine .single ?_
      dsimp only
      rw [protocol.base_lift]
      exact .persist batch.hash batch rfl
  | propose batchHash batch rest cx hPending _ hPropose =>
      exact hPosts.propose _ _ _ _ _ hPending hPropose

theorem Board.faithful_new
    (config : Config) :
    (Context.new config : Context H).board.Faithful where
  filed := by
    intro hash batch hHeld
    rcases hHeld with hCache | hStore
    · simp [Context.board, Context.new] at hCache
    · simp [Context.board, Context.new] at hStore
  queued := by
    intro entry hMem
    exact absurd hMem List.not_mem_nil
  stocked := by
    intro hash block hLookup hNot
    change
      (Storage.new.addDeliveredBlock
        (Block.genesis : Block H)).deliveredBlockFromHash
          hash = some block at hLookup
    have hGenesis := Storage.eq_of_delivered_new hLookup
    have hHash : block.hash = hash :=
      Storage.getHash_of_delivered hLookup
    rw [hGenesis, Block.genesis_hash] at hHash
    exact absurd hHash.symm hNot
  root := Finset.mem_insert_self _ _
  committed := by
    intro block hMem
    exact absurd hMem List.not_mem_nil
  once := List.nodup_nil
  notGenesis := by
    intro block hMem
    exact absurd hMem List.not_mem_nil
  named := by
    intro block txHashes payload hMem
    exact absurd hMem List.not_mem_nil

/- A faithful board has the right announcements. -/
theorem Board.Faithful.announces
    {cx : Context H}
    (hFaithful : cx.board.Faithful) :
    Announces cx where
  once := hFaithful.once
  notGenesis := hFaithful.notGenesis
  exact := hFaithful.named

/- The announcements of any run of a protocol. -/
theorem Protocol.Posts.announces
    {protocol : Protocol H C}
    {start node : Node C}
    {config : Config}
    (hPosts : protocol.Posts)
    (hStart : protocol.base start.cx = Context.new config)
    (hReach :
      Machine.Reach protocol.step (Sealed protocol) start
        node) :
    Announces (protocol.base node.cx) := by
  apply Board.Faithful.announces
  apply hReach.invariant
    (fun node => (protocol.base node.cx).board.Faithful)
  · rw [hStart]
    exact Board.faithful_new config
  · intro s s' event hFaithful hSealed hStep
    exact hFaithful.moves (hPosts.step hSealed hStep)

end Synchs

end LibApollo

------------------------------------------------------------
-- Sync HotStuff
------------------------------------------------------------

namespace LibApollo

namespace Synchs

variable {H : Type} [DecidableEq H] [Crypto H]
variable {block : Block H} {batch : Batch}

/- A batch that passed the check is persisted. -/
theorem moves_persistBatch
    (cx : Context H)
    (hBatch : checkBatchHash block batch = true) :
    Moves cx
      (cx.persistBatch block.body.batchHash batch) :=
  .single (.persist _ batch (of_decide_eq_true hBatch))

/- A block is delivered after its batch was persisted. -/
theorem moves_castVote
    (p : Propose H)
    (cx : Context H)
    (hBatch : checkBatchHash block batch = true) :
    Moves cx
      (startTimer p
        (castVote p block
          (cx.persistBatch block.body.batchHash
            batch))) := by
  refine (moves_persistBatch cx hBatch).tail ?_
  exact .deliver block
    ⟨batch, BatchStores.persistBatch_holds _ _ batch⟩

/- A leader delivers its block for a waiting batch. -/
theorem moves_dispatch
    {cx : Context H}
    {batchHash : H}
    {rest : List (H × Batch)}
    (p : Propose H)
    (hPending :
      cx.pendingBatches = (batchHash, batch) :: rest)
    (hBlock :
      newBlock batchHash (keepBatches rest cx) =
        .ok block) :
    Moves cx
      (dispatch p block batch (keepBatches rest cx)) := by
  have hHash : block.body.batchHash = batchHash := by
    rw [newBlock_ok hBlock]
    rfl
  refine .single ?_
  refine .build block batch rest ?_
  rw [hHash]
  exact hPending

theorem protocol_posts :
    (protocol : Protocol H (Context H)).Posts where
  processMsg := by
    intro msg cx cx' hProcess
    cases processMsg_processed hProcess with
    | ignored => exact .refl
    | stored p block batch hBatch =>
        exact moves_persistBatch cx hBatch
    | accepted p block batch _ hBatch =>
        exact moves_castVote p cx hBatch
    | counted c p decision voted hVote =>
        rcases onVote_frame hVote with ⟨_, _, _, rfl⟩
        exact .refl
  propose := by
    intro batchHash batch rest cx cx' hPending hPropose
    rcases propose_ok hPropose with
      ⟨block, p, hBlock, _, rfl⟩
    exact moves_dispatch p hPending hBlock

end Synchs

end LibApollo
