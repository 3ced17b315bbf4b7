import LibApollo.Synchs.Refinement

/-
  The proposals of a Sync HotStuff leader.

  Proposing does not move the last seen block of the leader,
  and no message of the network can, so every proposal is a
  block on genesis.  Two batches with different hashes make
  two blocks of one height.  A leader to whom the mempool
  hands batches of one hash only does not equivocate.

  Key definitions include:
    * `NoEquivocation`
    * `Authentic`, `SteadyStep`
    * `Ledger.AtGenesis`

  Key theorems include:
    * `leader_stays_at_genesis`
    * `noEquivocation_iff`
    * `no_equivocation`
    * `two_batches_equivocate`
-/

------------------------------------------------------------
-- Equivocation
------------------------------------------------------------

namespace LibApollo

namespace Synchs

variable {H : Type} [DecidableEq H]

/-
  The proposals a node has sent in one view carry one block
  for each height.
-/
def NoEquivocation (cx : Context H) : Prop :=
  ∀ p block batch p' block' batch',
    .newProposal p block batch ∈ cx.multicasts →
      .newProposal p' block' batch' ∈ cx.multicasts →
      block.header.height = block'.header.height →
      p.view = p'.view →
      block = block'

/- The hashes of the batches a node has queued or proposed. -/
def Ledger.usedHashes (ledger : Ledger H) : List H :=
  ledger.pendingBatches.map Prod.fst ++
    (proposedBlocks ledger.multicasts).map
      (fun block => block.body.batchHash)

variable [Crypto H]

/- Nobody else can sign for the node. -/
def Authentic
    (node : Node (Context H))
    (event : Event H) : Prop :=
  ∀ publicKey,
    node.cx.pubKeyMap.lookup node.cx.myid =
        some publicKey →
      Unforged publicKey node.cx.signed event

/-
  A step in which the mempool hands over no batch that
  differs from one the node has.
-/
def SteadyStep
    (node : Node (Context H))
    (event : Event H) : Prop :=
  Authentic node event ∧
    ∀ batchHash batch,
      event = .batch batchHash batch →
        ∀ used ∈ node.cx.ledger.usedHashes,
          used = batchHash

end Synchs

end LibApollo

------------------------------------------------------------
-- Blocks on Genesis
------------------------------------------------------------

namespace LibApollo

namespace Synchs

variable {H : Type} [DecidableEq H] [Crypto H]

namespace Ledger

/- A leader that has not moved and all of its proposals. -/
structure AtGenesis
    (leader : Replica)
    (ledger : Ledger H) : Prop where
  leads : ledger.Leads
  myid : ledger.myid = leader
  lastSeen : ledger.lastSeenBlock = Block.genesis
  proposed :
    ∀ p block batch,
      .newProposal p block batch ∈ ledger.multicasts →
        p.view = ledger.view ∧
          block =
            Block.extending Block.genesis leader 1
              block.body.batchHash

/- Proposing on genesis leaves the leader there. -/
theorem AtGenesis.step
    {leader : Replica}
    {ledger ledger' : Ledger H}
    {event : Event H}
    (hInv : ledger.AtGenesis leader)
    (hUnforged :
      ∀ publicKey,
        ledger.pubKeyMap.lookup ledger.myid =
            some publicKey →
          Unforged publicKey ledger.signed event)
    (hStep : Step false event ledger ledger') :
    ledger'.AtGenesis leader := by
  have hLeads := hInv.leads.step hUnforged hStep
  cases hStep with
  | skip => exact hInv
  | queue =>
      exact ⟨hLeads, hInv.myid, hInv.lastSeen,
        hInv.proposed⟩
  | deliver p block batch myVote hEvent hValid =>
      exact absurd hValid
        (hInv.leads.not_valid hUnforged hEvent)
  | propose p block batchHash batch rest _ _ hBuilds =>
      refine ⟨hLeads, hInv.myid, hInv.lastSeen, ?_⟩
      intro p' other batch' hOther
      rcases List.mem_append.mp hOther with hOld | hNew
      · exact hInv.proposed p' other batch' hOld
      · cases List.mem_singleton.mp hNew
        have hBlock := hBuilds.built
        rw [hInv.lastSeen, hInv.myid] at hBlock
        refine ⟨hBuilds.view, ?_⟩
        rw [hBlock]
        rfl
  | commit =>
      exact ⟨hLeads, hInv.myid, hInv.lastSeen,
        hInv.proposed⟩

/- A step uses no hash but one that is handed over. -/
theorem Step.usedHashes
    {ledger ledger' : Ledger H}
    {event : Event H}
    {movesOn : Bool}
    {hash : H}
    (hStep : Step movesOn event ledger ledger')
    (hMem : hash ∈ ledger'.usedHashes) :
    hash ∈ ledger.usedHashes ∨
      ∃ batch, event = .batch hash batch := by
  cases hStep with
  | skip => exact Or.inl hMem
  | queue batchHash batch hEvent =>
      simp only [Ledger.usedHashes, Ledger.queue,
        List.map_append, List.mem_append, List.map_cons,
        List.map_nil, List.mem_singleton] at hMem ⊢
      rcases hMem with (hOld | rfl) | hOld
      · exact Or.inl (Or.inl hOld)
      · exact Or.inr ⟨batch, hEvent⟩
      · exact Or.inl (Or.inr hOld)
  | deliver p block batch myVote hEvent hValid =>
      left
      simpa [Ledger.usedHashes, Ledger.deliver] using hMem
  | propose p block batchHash batch rest _ hPending hBuilds =>
      left
      simp only [Ledger.usedHashes, Ledger.propose,
        proposedBlocks_append_newProposal,
        List.map_append, List.mem_append, List.map_cons,
        List.map_nil, List.mem_cons, List.not_mem_nil,
        or_false, hPending] at hMem ⊢
      rcases hMem with hOld | hOld | hNew
      · exact Or.inl (Or.inr hOld)
      · exact Or.inr hOld
      · left
        left
        rw [hNew, hBuilds.built]
        rfl
  | commit => exact Or.inl hMem

end Ledger

end Synchs

end LibApollo

------------------------------------------------------------
-- Runs of a Leader
------------------------------------------------------------

namespace LibApollo

namespace Synchs

variable {H : Type} [DecidableEq H] [Crypto H]
variable {config : Config}
variable {node : Node (Context H)}

/- Every proposal of a leader is a block on genesis. -/
theorem leader_stays_at_genesis
    (hLeader : config.id = 0)
    (hReach :
      Machine.Reach step Authentic (Node.new config)
        node) :
    node.cx.ledger.AtGenesis 0 := by
  refine hReach.invariant
    (fun node => node.cx.ledger.AtGenesis 0) ?_ ?_
  · refine
      { leads := ⟨?_, ?_⟩
        myid := hLeader
        lastSeen := rfl
        proposed := ?_ }
    · exact (Nat.zero_mod _).trans hLeader.symm
    · intro hash hSigned
      cases hSigned
    · intro p block batch hSent
      cases hSent
  · intro node node' event hInv hAuthentic hStep
    exact hInv.step hAuthentic
      (protocol_refines.step hStep)

/- In a steady run all batches have one hash. -/
theorem usedHashes_eq
    {hash hash' : H}
    (hReach :
      Machine.Reach step SteadyStep (Node.new config)
        node)
    (hLeft : hash ∈ node.cx.ledger.usedHashes)
    (hRight : hash' ∈ node.cx.ledger.usedHashes) :
    hash = hash' := by
  have hInv :
      ∀ left ∈ node.cx.ledger.usedHashes,
        ∀ right ∈ node.cx.ledger.usedHashes,
          left = right := by
    refine hReach.invariant
      (fun node =>
        ∀ left ∈ node.cx.ledger.usedHashes,
          ∀ right ∈ node.cx.ledger.usedHashes,
            left = right) ?_ ?_
    · intro left hLeft
      cases hLeft
    · intro node node' event hInv hSteady hStep left hLeft
        right hRight
      have hLedger := protocol_refines.step hStep
      rcases hLedger.usedHashes hLeft with
        hLeft | ⟨batch, hLeft⟩
      · rcases hLedger.usedHashes hRight with
          hRight | ⟨batch, hRight⟩
        · exact hInv left hLeft right hRight
        · exact hSteady.2 right batch hRight left hLeft
      · rcases hLedger.usedHashes hRight with
          hRight | ⟨batch', hRight⟩
        · exact (hSteady.2 left batch hLeft right
            hRight).symm
        · cases hLeft.symm.trans hRight
          rfl
  exact hInv hash hLeft hash' hRight

/-
  A leader equivocates exactly when it has proposed batches
  with different hashes.
-/
theorem noEquivocation_iff
    (hLeader : config.id = 0)
    (hReach :
      Machine.Reach step Authentic
        (Node.new config : Node (Context H)) node) :
    NoEquivocation node.cx ↔
      ∀ left ∈ proposedBlocks node.cx.multicasts,
        ∀ right ∈ proposedBlocks node.cx.multicasts,
          left.body.batchHash = right.body.batchHash := by
  have hGenesis := leader_stays_at_genesis hLeader hReach
  constructor
  · intro hNone left hLeft right hRight
    rcases mem_proposedBlocks.mp hLeft with
      ⟨p, batch, hSent⟩
    rcases mem_proposedBlocks.mp hRight with
      ⟨p', batch', hSent'⟩
    rcases hGenesis.proposed p left batch hSent with
      ⟨hView, hBlock⟩
    rcases hGenesis.proposed p' right batch' hSent' with
      ⟨hView', hBlock'⟩
    have hHeight :
        left.header.height = right.header.height := by
      rw [hBlock, hBlock', Block.extending_height,
        Block.extending_height]
    rw [hNone p left batch p' right batch' hSent hSent'
      hHeight (hView.trans hView'.symm)]
  · intro hSame p block batch p' block' batch' hSent hSent'
      _ _
    have hHash :=
      hSame block (mem_proposedBlocks.mpr ⟨p, batch, hSent⟩)
        block' (mem_proposedBlocks.mpr ⟨p', batch', hSent'⟩)
    rw [(hGenesis.proposed p block batch hSent).2,
      (hGenesis.proposed p' block' batch' hSent').2, hHash]

/-
  In every run in which the mempool hands over batches of
  one hash the leader does not equivocate.
-/
theorem no_equivocation
    (hLeader : config.id = 0)
    (hReach :
      Machine.Reach step SteadyStep
        (Node.new config : Node (Context H)) node) :
    NoEquivocation node.cx := by
  have hAuthentic :=
    hReach.mono (fun _ _ hSteady => hSteady.1)
  apply (noEquivocation_iff hLeader hAuthentic).mpr
  intro left hLeft right hRight
  apply usedHashes_eq hReach
  · exact List.mem_append_right _
      (List.mem_map_of_mem hLeft)
  · exact List.mem_append_right _
      (List.mem_map_of_mem hRight)

/- A batch of one transaction. -/
def oneTx : Batch where
  payload :=
    [{ clientId := 0, nonce := 0, data := [], request := [] }]

/- Executable form of `Authentic`. -/
def authenticCheck
    (node : Node (Context H))
    (event : Event H) : Bool :=
  match node.cx.pubKeyMap.lookup node.cx.myid with
  | none => true
  | some publicKey =>
      unforgedCheck publicKey node.cx.signed event

theorem authentic_of_authenticCheck
    (node : Node (Context H))
    (event : Event H)
    (hCheck : authenticCheck node event = true) :
    Authentic node event := by
  intro publicKey hKey
  rw [authenticCheck, hKey] at hCheck
  exact unforged_of_unforgedCheck hCheck

/- Executable form of `SteadyStep`. -/
def steadyCheck
    (node : Node (Context H))
    (event : Event H) : Bool :=
  authenticCheck node event &&
    match event with
    | .batch batchHash _ =>
        node.cx.ledger.usedHashes.all (· = batchHash)
    | _ => true

theorem steadyStep_of_steadyCheck
    (node : Node (Context H))
    (event : Event H)
    (hCheck : steadyCheck node event = true) :
    SteadyStep node event := by
  unfold steadyCheck at hCheck
  rw [Bool.and_eq_true] at hCheck
  refine ⟨authentic_of_authenticCheck _ _ hCheck.1, ?_⟩
  intro batchHash batch hEq used hUsed
  subst hEq
  have hAll :
      node.cx.ledger.usedHashes.all (· = batchHash) =
        true := hCheck.2
  simpa using List.all_eq_true.mp hAll used hUsed

/- One batch, handed over and proposed twice. -/
theorem no_equivocation_one_hash :
    ∃ node : Node (Context Digest),
      Machine.Reach step SteadyStep
          (Node.new (Config.small 0)) node ∧
        (proposedBlocks node.cx.multicasts).length = 2 ∧
        NoEquivocation node.cx := by
  have hRun :
      Machine.runCheck step steadyCheck
        (fun node : Node (Context Digest) =>
          decide
            ((proposedBlocks
              node.cx.multicasts).length = 2))
        (Node.new (Config.small 0))
        [.batch oneBatch.hash oneBatch, .internal,
          .internal, .batch oneBatch.hash oneBatch,
          .internal, .internal] = true := by
    decide +kernel
  rcases Machine.Reach.of_runCheck
      steadyStep_of_steadyCheck hRun with
    ⟨node, hReach, hFinal⟩
  exact ⟨node, hReach, of_decide_eq_true hFinal,
    no_equivocation rfl hReach⟩

/- Two proposals of one height and view. -/
def conflictCheck (cx : Context H) : Bool :=
  match cx.multicasts with
  | [.newProposal p block _, .newProposal p' block' _] =>
      decide
        (block.header.height = block'.header.height ∧
          p.view = p'.view ∧ block ≠ block')
  | _ => false

omit [Crypto H] in
theorem not_noEquivocation_of_conflictCheck
    {cx : Context H}
    (hCheck : conflictCheck cx = true) :
    ¬ NoEquivocation cx := by
  intro hNone
  unfold conflictCheck at hCheck
  split at hCheck
  · rename_i p block batch p' block' batch' hSent
    rcases of_decide_eq_true hCheck with
      ⟨hHeight, hView, hNe⟩
    apply hNe
    apply hNone p block batch p' block' batch' _ _ hHeight
      hView
    · rw [hSent]
      exact List.mem_cons_self
    · rw [hSent]
      exact List.mem_cons_of_mem _ List.mem_cons_self
  · cases hCheck

/-
  The mempool hands over two batches of one transaction; the
  leader proposes both at height 1.
-/
theorem two_batches_equivocate :
    ∃ node : Node (Context Digest),
      Machine.Reach step Authentic
          (Node.new (Config.small 0)) node ∧
        ¬ NoEquivocation node.cx := by
  have hRun :
      Machine.runCheck step authenticCheck
        (fun node : Node (Context Digest) =>
          conflictCheck node.cx)
        (Node.new (Config.small 0))
        [.batch oneBatch.hash oneBatch, .internal,
          .internal, .batch oneTx.hash oneTx,
          .internal] = true := by
    decide +kernel
  rcases Machine.Reach.of_runCheck
      authentic_of_authenticCheck hRun with
    ⟨node, hReach, hFinal⟩
  exact ⟨node, hReach,
    not_noEquivocation_of_conflictCheck hFinal⟩

end Synchs

end LibApollo
