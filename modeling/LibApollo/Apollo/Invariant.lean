import LibApollo.Apollo.Effects

/-
  The chain bookkeeping of an Apollo node under arbitrary
  messages: the accepted rounds are exactly the rounds
  passed, every accepted block is delivered, and the last
  seen block is the one accepted last.

  Key definitions include:
    * `networkScope`
    * `ChainInv`

  Key theorems include:
    * `ChainInv.effects`
    * `Effects.parent_mono`, `Effects.byRound_mono`
    * `Effect.sameChain_or_accepts`
    * `ChainInv.proposing`
    * `NodeInv.step`
-/

------------------------------------------------------------
-- Decoded Content
------------------------------------------------------------

namespace LibApollo

namespace Apollo

variable {H : Type} [DecidableEq H] [Crypto H]

/-
  What the network can make a node hold: any proposal, and
  any block whose hash was recomputed when it was decoded.
-/
def networkScope (H : Type) [Crypto H] : Scope H where
  okProp := fun _ => True
  okBlock := Block.Proper

/- A scope whose blocks are identified by their hash. -/
def Scope.Proper (scope : Scope H) : Prop :=
  ∀ block, scope.okBlock block → block.Proper

omit [DecidableEq H] in
theorem networkScope_proper :
    (networkScope H).Proper :=
  fun _ hBlock => hBlock

/- Delivered blocks survive the storing of another block. -/
theorem Data.delivered_mono
    {scope : Scope H}
    {cx : Context H}
    {block stored : Block H}
    {hash : H}
    (hFree : CollisionFree H)
    (hProper : scope.Proper)
    (hData : Data scope cx)
    (hBlock : scope.okBlock block)
    (hLookup :
      cx.storage.deliveredBlockFromHash hash =
        some stored) :
    (cx.storage.addDeliveredBlock
        block).deliveredBlockFromHash hash =
      some stored := by
  apply Storage.delivered_mono _ hLookup
  intro hSame
  exact Block.Proper.eq_of_hash_eq hFree
    (hProper _ (hData.delivered _ _ hLookup))
    (hProper _ hBlock) hSame

theorem Data.parent_mono
    {scope : Scope H}
    {cx : Context H}
    {block : Block H}
    {hash above : H}
    (hFree : CollisionFree H)
    (hProper : scope.Proper)
    (hData : Data scope cx)
    (hBlock : scope.okBlock block)
    (hParent : cx.storage.parent hash = some above) :
    (cx.storage.addDeliveredBlock block).parent hash =
      some above := by
  rcases Storage.exists_delivered_of_parent hParent with
    ⟨stored, hLookup, hPrev⟩
  rw [← hPrev]
  exact Storage.parent_of_delivered
    (hData.delivered_mono hFree hProper hBlock hLookup)

end Apollo

end LibApollo

------------------------------------------------------------
-- The Chain Invariant
------------------------------------------------------------

namespace LibApollo

namespace Apollo

variable {H : Type} [DecidableEq H] [Crypto H]

structure ChainInv (cx : Context H) : Prop where
  round_pos : 1 ≤ cx.round
  keys :
    ∀ r, (∃ p, cx.propChainByRound.lookup r = some p) ↔
      1 ≤ r ∧ r < cx.round
  entry :
    ∀ r p, cx.propChainByRound.lookup r = some p →
      p.round = r ∧
        ∃ block,
          cx.storage.deliveredBlockFromHash p.blockHash =
            some block
  leader :
    0 < cx.numNodes →
      cx.roundLeader = (cx.round - 1) % cx.numNodes
  lastSeen :
    cx.storage.deliveredBlockFromHash
        cx.lastSeenBlock.hash = some cx.lastSeenBlock
  tip :
    ∀ p, cx.propChainByRound.lookup (cx.round - 1) =
        some p →
      p.blockHash = cx.lastSeenBlock.hash
  first :
    cx.round = 1 → cx.lastSeenBlock = Block.genesis
  waiting :
    ∀ hash p,
      cx.propWaitingParent.lookup hash = some p →
        ∃ block,
          cx.storage.deliveredBlockFromHash p.blockHash =
            some block
  genesis :
    cx.storage.deliveredBlockFromHash Crypto.emptyHash =
      some Block.genesis

/- Round-robin succession counts modulo the nodes. -/
theorem succ_mod_eq_ite
    {n k : Nat}
    (hNodes : 0 < n) :
    (if k % n + 1 = n then 0 else k % n + 1) =
      (k + 1) % n := by
  have hBound := Nat.mod_lt k hNodes
  have hSplit : (k + 1) % n = (k % n + 1) % n := by
    rw [Nat.add_mod, Nat.add_mod (k % n) 1, Nat.mod_mod]
  rw [hSplit]
  by_cases hLast : k % n + 1 = n
  · rw [if_pos hLast, hLast, Nat.mod_self]
  · rw [if_neg hLast]
    exact (Nat.mod_eq_of_lt (by omega)).symm

theorem ChainInv.nextLeader_eq
    {cx : Context H}
    (hInv : ChainInv cx)
    (hNodes : 0 < cx.numNodes) :
    cx.nextLeader = cx.round % cx.numNodes := by
  have hRound := hInv.round_pos
  have hSucc :=
    succ_mod_eq_ite (k := cx.round - 1) hNodes
  rw [← hInv.leader hNodes] at hSucc
  rw [show cx.round - 1 + 1 = cx.round by omega] at hSucc
  exact hSucc

/- The invariant when no stored block is lost. -/
theorem ChainInv.grow
    {cx : Context H}
    {storage : Storage H (Block H)}
    (hMono :
      ∀ hash stored,
        cx.storage.deliveredBlockFromHash hash =
            some stored →
          storage.deliveredBlockFromHash hash =
            some stored)
    (hInv : ChainInv cx) :
    ChainInv { cx with storage := storage } := by
  refine { hInv with
    entry := ?_
    lastSeen := hMono _ _ hInv.lastSeen
    waiting := ?_
    genesis := hMono _ _ hInv.genesis }
  · intro r p hLookup
    rcases hInv.entry r p hLookup with
      ⟨hRound, stored, hStored⟩
    exact ⟨hRound, stored, hMono _ _ hStored⟩
  · intro hash p hLookup
    rcases hInv.waiting hash p hLookup with
      ⟨stored, hStored⟩
    exact ⟨stored, hMono _ _ hStored⟩

/- A store keeps the invariant. -/
theorem ChainInv.addDeliveredBlock
    {scope : Scope H}
    {cx : Context H}
    {block : Block H}
    (hFree : CollisionFree H)
    (hProper : scope.Proper)
    (hData : Data scope cx)
    (hInv : ChainInv cx)
    (hBlock : scope.okBlock block) :
    ChainInv (cx.addDeliveredBlock block) :=
  hInv.grow (fun _ _ hLookup =>
    hData.delivered_mono hFree hProper hBlock hLookup)

/- An acceptance keeps the invariant. -/
theorem ChainInv.accepted
    {cx cx' : Context H}
    {p : Propose H}
    {block : Block H}
    (hInv : ChainInv cx)
    (hRound : p.round = cx.round)
    (hHash : block.hash = p.blockHash)
    (hStored :
      cx.storage.deliveredBlockFromHash block.hash =
        some block)
    (hAccepted : Accepted p block cx cx') :
    ChainInv cx' := by
  rcases hAccepted with
    ⟨storage, _, _, _, _, hOutcome, rfl⟩
  have hPos := hInv.round_pos
  refine
    { round_pos := ?_
      keys := ?_
      entry := ?_
      leader := ?_
      lastSeen := ?_
      tip := ?_
      first := ?_
      waiting := ?_
      genesis := ?_ }
  · dsimp only
    omega
  · intro r
    dsimp only
    rw [FinMap.lookup_insert_eq]
    by_cases hKey : r = p.round
    · rw [if_pos hKey]
      constructor
      · intro _
        omega
      · intro _
        exact ⟨p, rfl⟩
    · rw [if_neg hKey, hInv.keys r]
      omega
  · intro r q hLookup
    dsimp only at hLookup ⊢
    rw [hOutcome.delivered_eq]
    rw [FinMap.lookup_insert_eq] at hLookup
    split at hLookup
    · rename_i hKey
      cases hLookup
      exact ⟨hKey.symm, block, hHash ▸ hStored⟩
    · exact hInv.entry r q hLookup
  · intro hNodes
    dsimp only at hNodes ⊢
    rw [hInv.nextLeader_eq hNodes]
    rfl
  · dsimp only
    rw [hOutcome.delivered_eq]
    exact hStored
  · intro q hLookup
    dsimp only at hLookup ⊢
    rw [FinMap.lookup_insert_eq, if_pos (by omega)]
      at hLookup
    cases hLookup
    exact hHash.symm
  · intro hOne
    dsimp only at hOne
    omega
  · intro hash q hLookup
    dsimp only at hLookup ⊢
    rw [hOutcome.delivered_eq]
    exact hInv.waiting hash q hLookup
  · dsimp only
    rw [hOutcome.delivered_eq]
    exact hInv.genesis

theorem ChainInv.effect
    {scope : Scope H}
    {acc : Propose H → Block H → Prop}
    {cx cx' : Context H}
    (hFree : CollisionFree H)
    (hProper : scope.Proper)
    (hData : Data scope cx)
    (hInv : ChainInv cx)
    (hEffect : Effect scope acc cx cx') :
    ChainInv cx' := by
  cases hEffect with
  | channels hChannels =>
      rcases hChannels with ⟨_, _, _, _, rfl⟩
      exact { hInv with }
  | buffers _ _ _ _ _ _ => exact { hInv with }
  | receive msg _ =>
      cases msg <;> exact { hInv with }
  | pending _ => exact { hInv with }
  | keep _ _ _ _ => exact { hInv with }
  | takeFuture _ => exact { hInv with }
  | awaitBlock _ _ => exact { hInv with }
  | forgetBlock _ => exact { hInv with }
  | takeWaiting taken =>
      refine { hInv with waiting := ?_ }
      exact FinMap.forall_erase hInv.waiting
  | send dest msg _ =>
      unfold Context.send
      split
      · exact hInv
      · exact { hInv with }
  | store block hBlock _ =>
      exact hInv.addDeliveredBlock hFree hProper hData
        hBlock
  | orphan p block _ hBlock hHash _ =>
      have hStored :=
        hInv.addDeliveredBlock hFree hProper hData hBlock
      refine { hStored with waiting := ?_ }
      intro hash q hLookup
      rw [FinMap.lookup_insert_eq] at hLookup
      split at hLookup
      · cases hLookup
        refine ⟨block, ?_⟩
        rw [← hHash]
        exact Storage.addDeliveredBlock_self
          cx.storage block
      · exact hStored.waiting hash q hLookup
  | accept p block _ _ hAcceptable hStored _ hAccepted =>
      exact hInv.accepted hAcceptable.1 hAcceptable.2.1
        hStored hAccepted

theorem ChainInv.effects
    {scope : Scope H}
    {acc : Propose H → Block H → Prop}
    {cx cx' : Context H}
    (hFree : CollisionFree H)
    (hProper : scope.Proper)
    (hData : Data scope cx)
    (hInv : ChainInv cx)
    (hEffects : Effects scope acc cx cx') :
    ChainInv cx' := by
  induction hEffects with
  | refl => exact hInv
  | tail hBefore hEffect ih =>
      exact ih.effect hFree hProper
        (hData.effects hBefore) hEffect

end Apollo

end LibApollo

------------------------------------------------------------
-- Growth Along Effects
------------------------------------------------------------

namespace LibApollo

namespace Apollo

variable {H : Type} [DecidableEq H] [Crypto H]
variable {scope : Scope H}
variable {acc : Propose H → Block H → Prop}
variable {cx cx' : Context H}

theorem Effect.delivered_mono
    (hFree : CollisionFree H)
    (hProper : scope.Proper)
    (hData : Data scope cx)
    (hEffect : Effect scope acc cx cx')
    {hash : H}
    {block : Block H}
    (hLookup :
      cx.storage.deliveredBlockFromHash hash =
        some block) :
    cx'.storage.deliveredBlockFromHash hash =
      some block := by
  cases hEffect with
  | channels hChannels =>
      rcases hChannels with ⟨_, _, _, _, rfl⟩
      exact hLookup
  | buffers _ _ _ _ _ _ => exact hLookup
  | receive msg _ => cases msg <;> exact hLookup
  | pending _ => exact hLookup
  | keep _ _ _ _ => exact hLookup
  | takeFuture _ => exact hLookup
  | awaitBlock _ _ => exact hLookup
  | forgetBlock _ => exact hLookup
  | takeWaiting _ => exact hLookup
  | send dest msg _ =>
      unfold Context.send
      split
      · exact hLookup
      · exact hLookup
  | store stored hBlock _ =>
      exact hData.delivered_mono hFree hProper hBlock
        hLookup
  | orphan p stored _ hBlock _ _ =>
      exact hData.delivered_mono hFree hProper hBlock
        hLookup
  | accept p stored _ _ _ _ _ hAccepted =>
      rcases hAccepted with
        ⟨storage, _, _, _, _, hOutcome, rfl⟩
      exact (hOutcome.delivered_eq hash).trans hLookup

theorem Effects.delivered_mono
    (hFree : CollisionFree H)
    (hProper : scope.Proper)
    (hData : Data scope cx)
    (hEffects : Effects scope acc cx cx')
    {hash : H}
    {block : Block H}
    (hLookup :
      cx.storage.deliveredBlockFromHash hash =
        some block) :
    cx'.storage.deliveredBlockFromHash hash =
      some block := by
  induction hEffects with
  | refl => exact hLookup
  | tail hBefore hEffect ih =>
      exact hEffect.delivered_mono hFree hProper
        (hData.effects hBefore) ih

/- Parents only become known. -/
theorem Effects.parent_mono
    (hFree : CollisionFree H)
    (hProper : scope.Proper)
    (hData : Data scope cx)
    (hEffects : Effects scope acc cx cx')
    (hash above : H)
    (hParent : cx.storage.parent hash = some above) :
    cx'.storage.parent hash = some above := by
  rcases Storage.exists_delivered_of_parent hParent with
    ⟨block, hLookup, hPrev⟩
  rw [← hPrev]
  exact Storage.parent_of_delivered
    (hEffects.delivered_mono hFree hProper hData hLookup)

/- What the chain of a context consists of. -/
structure SameChain (cx cx' : Context H) : Prop where
  byRound : cx'.propChainByRound = cx.propChainByRound
  lastSeen : cx'.lastSeenBlock = cx.lastSeenBlock
  round : cx'.round = cx.round
  committed :
    cx'.storage.committedBlocksByHash =
      cx.storage.committedBlocksByHash

/- Only an acceptance changes the chain. -/
theorem Effect.sameChain_or_accepts
    (hEffect : Effect scope acc cx cx') :
    SameChain cx cx' ∨
      ∃ p block,
        scope.okProp p ∧
          acc p block ∧
          Acceptable cx p block ∧
          cx.storage.deliveredBlockFromHash block.hash =
            some block ∧
          Accepted p block cx cx' := by
  cases hEffect with
  | channels hChannels =>
      rcases hChannels with ⟨_, _, _, _, rfl⟩
      exact Or.inl ⟨rfl, rfl, rfl, rfl⟩
  | receive msg _ =>
      cases msg <;> exact Or.inl ⟨rfl, rfl, rfl, rfl⟩
  | send dest msg _ =>
      unfold Context.send
      split
      · exact Or.inl ⟨rfl, rfl, rfl, rfl⟩
      · exact Or.inl ⟨rfl, rfl, rfl, rfl⟩
  | accept p block hProp hAcc hAcceptable hStored _
      hAccepted =>
      exact Or.inr
        ⟨p, block, hProp, hAcc, hAcceptable, hStored,
          hAccepted⟩
  | _ => exact Or.inl ⟨rfl, rfl, rfl, rfl⟩

/- Until the round changes the last seen block does not. -/
theorem Effects.lastSeenBlock_eq
    (hEffects : Effects scope acc cx cx') :
    cx.round ≤ cx'.round ∧
      (cx'.round = cx.round →
        cx'.lastSeenBlock = cx.lastSeenBlock) := by
  induction hEffects with
  | refl => exact ⟨Nat.le_refl _, fun _ => rfl⟩
  | tail _ hEffect ih =>
      rcases hEffect.sameChain_or_accepts with
        hSame | ⟨p, block, _, _, _, _, hAccepted⟩
      · rw [hSame.round, hSame.lastSeen]
        exact ih
      · rcases hAccepted with ⟨_, _, _, _, _, _, rfl⟩
        refine ⟨Nat.le_succ_of_le ih.1, ?_⟩
        intro hRound
        dsimp only at hRound
        omega

/- Entries of the accepted chain stay. -/
theorem Effects.byRound_mono
    (hFree : CollisionFree H)
    (hProper : scope.Proper)
    (hData : Data scope cx)
    (hInv : ChainInv cx)
    (hEffects : Effects scope acc cx cx')
    {r : Nat}
    {p : Propose H}
    (hLookup : cx.propChainByRound.lookup r = some p) :
    cx'.propChainByRound.lookup r = some p := by
  induction hEffects with
  | refl => exact hLookup
  | @tail mid cx' hBefore hEffect ih =>
      rcases hEffect.sameChain_or_accepts with
        hSame | ⟨q, block, _, _, hAcceptable, _, hAccepted⟩
      · rw [hSame.byRound]
        exact ih
      · have hChain :=
          hInv.effects hFree hProper hData hBefore
        have hPassed := (hChain.keys r).mp ⟨p, ih⟩
        have hRound := hAcceptable.1
        rcases hAccepted with ⟨_, _, _, _, _, _, rfl⟩
        dsimp only
        rw [FinMap.lookup_insert_eq, if_neg (by omega)]
        exact ih

/-
  Identity and size of the system do not change, nor do the
  keys and what the node has signed.
-/
theorem Effects.fixed
    (hEffects : Effects scope acc cx cx') :
    (cx'.myid = cx.myid ∧
        cx'.numNodes = cx.numNodes ∧
        cx'.numFaults = cx.numFaults) ∧
      cx'.pubKeyMap = cx.pubKeyMap ∧
      cx'.signed = cx.signed := by
  induction hEffects with
  | refl => exact ⟨⟨rfl, rfl, rfl⟩, rfl, rfl⟩
  | tail _ hEffect ih =>
      cases hEffect with
      | channels hChannels =>
          rcases hChannels with ⟨_, _, _, _, rfl⟩
          exact ih
      | receive msg _ => cases msg <;> exact ih
      | send dest msg _ =>
          unfold Context.send
          split
          · exact ih
          · exact ih
      | accept p block _ _ _ _ _ hAccepted =>
          rcases hAccepted with ⟨_, _, _, _, _, _, rfl⟩
          exact ih
      | _ => exact ih

theorem Effects.params
    (hEffects : Effects scope acc cx cx') :
    cx'.myid = cx.myid ∧
      cx'.numNodes = cx.numNodes ∧
      cx'.numFaults = cx.numFaults :=
  hEffects.fixed.1

theorem Effects.credentials
    (hEffects : Effects scope acc cx cx') :
    cx'.pubKeyMap = cx.pubKeyMap ∧
      cx'.signed = cx.signed :=
  hEffects.fixed.2

end Apollo

end LibApollo

------------------------------------------------------------
-- Proposing
------------------------------------------------------------

namespace LibApollo

namespace Apollo

variable {H : Type} [DecidableEq H] [Crypto H]

/- Own proposals bring their block and message in scope. -/
theorem Data.proposing
    {scope : Scope H}
    {cx : Context H}
    {batchHash : H}
    {batch : Batch}
    (hData : Data scope cx)
    (hProp : scope.okProp (newPropose cx batchHash))
    (hBlock : scope.okBlock (newBlock cx batchHash)) :
    Data scope (proposing batchHash batch cx) := by
  have hStored := hData.addDeliveredBlock hBlock
  refine { hStored with outbox := ?_ }
  intro x hMem
  rcases List.mem_append.mp hMem with hOld | hNew
  · exact hData.outbox x hOld
  · rcases List.mem_map.mp hNew with ⟨dest, _, rfl⟩
    exact ⟨hProp, hBlock⟩

theorem ChainInv.proposing
    {scope : Scope H}
    {cx : Context H}
    {batchHash : H}
    {batch : Batch}
    (hFree : CollisionFree H)
    (hProper : scope.Proper)
    (hData : Data scope cx)
    (hInv : ChainInv cx)
    (hBlock : scope.okBlock (newBlock cx batchHash)) :
    ChainInv (proposing batchHash batch cx) := by
  have hStored :=
    hInv.addDeliveredBlock hFree hProper hData hBlock
  exact { hStored with }

/- The own block is stored when it is accepted. -/
theorem proposing_delivered
    (batchHash : H)
    (batch : Batch)
    (cx : Context H) :
    (proposing batchHash batch
        cx).storage.deliveredBlockFromHash
          (newBlock cx batchHash).hash =
      some (newBlock cx batchHash) :=
  Storage.addDeliveredBlock_self cx.storage
    (newBlock cx batchHash)

end Apollo

end LibApollo

------------------------------------------------------------
-- Invariants of a Node
------------------------------------------------------------

namespace LibApollo

namespace Apollo

variable {H : Type} [DecidableEq H] [Crypto H]

/- What holds at a node whatever the network sends. -/
structure NodeInv (node : Node H) : Prop where
  data : Data (networkScope H) node.cx
  chain : ChainInv node.cx

/- The network delivers decoded messages but no `Blame`. -/
def Decoded (event : Event H) : Prop :=
  ∀ msg, event = .recv msg → (networkScope H).OkMsg msg

omit [DecidableEq H] in
theorem newBlock_ok
    [DecidableEq H]
    (cx : Context H)
    (batchHash : H) :
    (networkScope H).okBlock (newBlock cx batchHash) :=
  Or.inr (Block.extending_wellHashed _ _ _ _)

/- A node that starts holds the genesis block only. -/
theorem data_new
    {scope : Scope H}
    (config : Config)
    (hScope : scope.okBlock Block.genesis) :
    Data scope (Node.new config : Node H).cx := by
  constructor
  case delivered =>
    intro hash block hLookup
    rw [Storage.eq_of_delivered_new hLookup]
    exact hScope
  case lastSeen => exact hScope
  all_goals
    simp [Node.new, Context.new, Context.tellBatcher]

theorem chainInv_new
    (config : Config) :
    ChainInv (Node.new config : Node H).cx := by
  have hStored :
      (Node.new config :
        Node H).cx.storage.deliveredBlockFromHash
          Crypto.emptyHash = some Block.genesis :=
    Storage.addDeliveredBlock_self _ _
  constructor
  case round_pos => exact Nat.le_refl 1
  case keys =>
    intro r
    simp [Node.new, Context.new, Context.tellBatcher]
    omega
  case leader =>
    intro _
    exact (Nat.zero_mod _).symm
  case lastSeen => exact hStored
  case first => exact fun _ => rfl
  case genesis => exact hStored
  all_goals
    simp [Node.new, Context.new, Context.tellBatcher]

theorem nodeInv_new
    (config : Config) :
    NodeInv (Node.new config : Node H) where
  data := data_new config (Or.inl rfl)
  chain := chainInv_new config

/- A proposal of the node keeps the invariants. -/
theorem NodeInv.proposes
    {node : Node H}
    {batchHash : H}
    {batch : Batch}
    {rest : List (H × Batch)}
    (hFree : CollisionFree H)
    (hInv : NodeInv node) :
    Data (networkScope H)
        (proposing batchHash batch
          { node.cx with pendingBatches := rest }) ∧
      ChainInv
        (proposing batchHash batch
          { node.cx with pendingBatches := rest }) := by
  have hData :
      Data (networkScope H)
        { node.cx with pendingBatches := rest } :=
    { hInv.data with }
  have hChain :
      ChainInv { node.cx with pendingBatches := rest } :=
    { hInv.chain with }
  exact
    ⟨hData.proposing trivial (newBlock_ok _ _),
      hChain.proposing hFree networkScope_proper hData
        (newBlock_ok _ _)⟩

theorem NodeInv.step
    {node node' : Node H}
    {event : Event H}
    (hFree : CollisionFree H)
    (hInv : NodeInv node)
    (hDecoded : Decoded event)
    (hStep : step node event = .ok node') :
    NodeInv node' := by
  rcases step_ok hInv.data hDecoded hStep with
    hEffects | ⟨batchHash, batch, rest, -, -, hAccepted⟩
  · exact
      ⟨hInv.data.effects hEffects,
        hInv.chain.effects hFree networkScope_proper
          hInv.data hEffects⟩
  · rcases hInv.proposes hFree with ⟨hData, hChain⟩
    exact
      ⟨hData.accepted trivial (newBlock_ok _ _) hAccepted,
        hChain.accepted rfl rfl
          (proposing_delivered _ _ _) hAccepted⟩

end Apollo

end LibApollo
