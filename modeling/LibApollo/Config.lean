import LibApollo.Apollo.Context
import LibApollo.Artemis.Rotation
import LibApollo.Base.Result
import LibApollo.Optsync.Handlers

/-
  The configuration of a node: its validation, and the
  checked construction of the four contexts from it.

  Arithmetic on machine integers wraps in an optimised build
  and stops the node in a build with overflow checks; both
  are covered.  The decoders of the key blobs are those of
  the cryptography library, and a decoded key is represented
  by its blob.

  Key definitions include:
    * `Config.Node`, `Config.validate`
    * `Config.artemisContext`, `Config.apolloContext`
    * `Config.synchsContext`, `Config.optsyncContext`
    * `Config.Sufficient`, `Config.Complete`

  Key theorems include:
    * `Config.validate_facts`
    * `Config.sufficient_iff`
-/

------------------------------------------------------------
-- Configurations and their Validation
------------------------------------------------------------

namespace LibApollo

namespace Config

inductive Algorithm where
| ed25519
| secp256k1
| rsa
deriving DecidableEq, Repr

inductive ParseError where
| invalidMapLen (expected actual : Nat)
| incorrectFaults (faults nodes : Nat)
| invalidMapEntry (replica : Replica)
| invalidPkSize (size : Nat)
| invalidSkSize (size : Nat)
| unimplemented (feature : String)
deriving DecidableEq, Repr

/- Why a configuration is refused or a node stops. -/
inductive Failure where
| parse (error : ParseError)
| overflow
| underflow
| divisionByZero
| secretKey
| publicKey
| algorithm
deriving DecidableEq, Repr

/-
  The fields that the validation and the contexts read.
  Replica ids are 16-bit numbers.
-/
structure Node where
  netMap : FinMap Replica String
  clientNetMap : FinMap ClientId String
  delta : Nat
  id : Replica
  numNodes : Nat
  numFaults : Nat
  blockSize : Nat
  payload : Nat
  benchMetricsNode : Replica
  cryptoAlg : Algorithm
  pkMap : FinMap Replica Bytes
  secretKeyBytes : Bytes
  net_lt : ∀ replica ∈ netMap.keys, replica < 2 ^ 16

/- A result of so many bits, with or without checks. -/
def wrap
    (checks : Bool)
    (bits value : Nat) : Except Failure Nat :=
  if value < 2 ^ bits then
    .ok value
  else if checks then
    .error .overflow
  else
    .ok (value % 2 ^ bits)

/- `a - b` on 64 bits, with or without checks. -/
def subUsize
    (checks : Bool)
    (a b : Nat) : Except Failure Nat :=
  if b ≤ a then
    .ok (a - b)
  else if checks then
    .error .underflow
  else
    .ok (2 ^ 64 + a - b)

def ensure
    (condition : Prop)
    [Decidable condition]
    (failure : Failure) : Except Failure Unit :=
  if condition then .ok () else .error failure

def isValidReplica (replica : Replica) (n : Nat) : Prop :=
  replica < n

instance (replica : Replica) (n : Nat) :
    Decidable (isValidReplica replica n) :=
  inferInstanceAs (Decidable (replica < n))

/-
  The maps are visited in increasing order; the order
  matters only for which of several errors is reported.
-/
def validate
    (checks : Bool)
    (config : Node) : Except Failure Unit := do
  ensure (config.netMap.keys.card = config.numNodes)
    (.parse (.invalidMapLen config.numNodes
      config.netMap.keys.card))
  let doubled ← wrap checks 64 (2 * config.numFaults)
  ensure (doubled < config.numNodes)
    (.parse (.incorrectFaults config.numFaults
      config.numNodes))
  (FinMap.ascending config.netMap.keys).forM
    (fun replica =>
      ensure (isValidReplica replica config.numNodes)
        (.parse (.invalidMapEntry replica)))
  match config.cryptoAlg with
  | .rsa => .error (.parse (.unimplemented "RSA"))
  | .ed25519 | .secp256k1 => do
      (FinMap.ascending config.pkMap.keys).forM
        (fun replica => do
          let bytes :=
            (config.pkMap.lookup replica).getD []
          ensure (isValidReplica replica config.numNodes)
            (.parse (.invalidMapEntry replica))
          ensure (bytes ≠ [])
            (.parse (.invalidPkSize bytes.length)))
      ensure (config.secretKeyBytes ≠ [])
        (.parse (.invalidSkSize
          config.secretKeyBytes.length))

theorem ensure_eq_ok
    {condition : Prop}
    [Decidable condition]
    {failure : Failure} :
    ensure condition failure = .ok () ↔ condition := by
  unfold ensure
  by_cases hCondition : condition
  · simp [hCondition]
  · simp [hCondition]

/- A result that fits is the exact one. -/
theorem wrap_of_lt
    {bits value : Nat}
    (checks : Bool)
    (hFits : value < 2 ^ bits) :
    wrap checks bits value = .ok value := by
  unfold wrap
  rw [if_pos hFits]

/- A result of a number that may not have fit. -/
theorem wrap_eq_ok
    {checks : Bool}
    {bits value result : Nat} :
    wrap checks bits value = .ok result ↔
      result = value % 2 ^ bits ∧
        (checks = true → value < 2 ^ bits) := by
  unfold wrap
  by_cases hFits : value < 2 ^ bits
  · simp [hFits, Nat.mod_eq_of_lt hFits, eq_comm]
  · cases checks with
    | true => simp [hFits]
    | false => simp [hFits, eq_comm]

/- The operation returns, unless checks find an overflow. -/
theorem wrap_returns_iff
    {checks : Bool}
    {bits value : Nat} :
    (∃ result, wrap checks bits value = .ok result) ↔
      (checks = true → value < 2 ^ bits) := by
  unfold wrap
  by_cases hFits : value < 2 ^ bits
  · simp [hFits]
  · cases checks with
    | true => simp [hFits]
    | false => simp [hFits]

theorem subUsize_of_le
    {a b : Nat}
    (checks : Bool)
    (hLe : b ≤ a) :
    subUsize checks a b = .ok (a - b) := by
  unfold subUsize
  rw [if_pos hLe]

/- What a validated configuration is known to be. -/
structure Validated
    (config : Node) : Prop where
  nodes_le : config.numNodes ≤ 2 ^ 16
  nodes_pos : 0 < config.numNodes
  faults :
    config.numFaults < 2 ^ 63 →
      2 * config.numFaults < config.numNodes
  algorithm : config.cryptoAlg ≠ .rsa

theorem validate_facts
    {checks : Bool}
    {config : Node}
    (hValid : validate checks config = .ok ()) :
    Validated config := by
  unfold validate at hValid
  rcases Result.bind_eq_ok.mp hValid with
    ⟨_, hLength, hValid⟩
  rcases Result.bind_eq_ok.mp hValid with
    ⟨doubled, hDoubled, hValid⟩
  rcases Result.bind_eq_ok.mp hValid with
    ⟨_, hFaults, hValid⟩
  rcases Result.bind_eq_ok.mp hValid with
    ⟨_, hEntries, hValid⟩
  have hCard := ensure_eq_ok.mp hLength
  have hLess := ensure_eq_ok.mp hFaults
  -- as many keys as nodes, each of them a node
  have hKeys :
      config.netMap.keys =
        Finset.range config.numNodes := by
    apply Finset.eq_of_subset_of_card_le
    · intro replica hMem
      have hEntry :=
        Result.forM_eq_ok.mp hEntries replica
          ((FinMap.mem_ascending _ _).mpr hMem)
      exact Finset.mem_range.mpr (ensure_eq_ok.mp hEntry)
    · rw [Finset.card_range, hCard]
  refine
    { nodes_le := ?_
      nodes_pos := Nat.lt_of_le_of_lt (Nat.zero_le _) hLess
      faults := ?_
      algorithm := ?_ }
  · by_contra hMany
    have hMem : 2 ^ 16 ∈ config.netMap.keys := by
      rw [hKeys, Finset.mem_range]
      exact Nat.not_le.mp hMany
    exact Nat.lt_irrefl _ (config.net_lt _ hMem)
  · intro hSmall
    rw [wrap_of_lt checks (by omega)] at hDoubled
    cases hDoubled
    exact hLess
  · intro hRsa
    rw [hRsa] at hValid
    cases hValid

end Config

end LibApollo

------------------------------------------------------------
-- Checked Construction of Contexts
------------------------------------------------------------

namespace LibApollo

namespace Config

/- Which blobs the cryptography library decodes. -/
structure KeyCodec where
  secret : Algorithm → Bytes → Bool
  publicKey : Algorithm → Bytes → Bool

/- Decode a blob of one of the supported algorithms. -/
def decode
    (decodes : Algorithm → Bytes → Bool)
    (failure : Failure)
    (algorithm : Algorithm)
    (bytes : Bytes) : Except Failure Bytes :=
  match algorithm with
  | .ed25519 | .secp256k1 =>
      if decodes algorithm bytes then .ok bytes
      else .error failure
  | .rsa => .error .algorithm

def loadSecretKey
    (codec : KeyCodec)
    (config : Node) : Except Failure Bytes :=
  decode codec.secret .secretKey config.cryptoAlg
    config.secretKeyBytes

/- Decode the key of one replica, unless it is skipped. -/
def loadPublicKey
    (codec : KeyCodec)
    (config : Node)
    (skipped : List Replica)
    (keys : FinMap Replica Bytes)
    (replica : Replica) :
    Except Failure (FinMap Replica Bytes) :=
  if replica ∈ skipped then
    .ok keys
  else
    match config.pkMap.lookup replica with
    | none => .ok keys
    | some bytes => do
        let key ←
          decode codec.publicKey .publicKey
            config.cryptoAlg bytes
        .ok (keys.insert replica key)

def loadPublicKeys
    (codec : KeyCodec)
    (config : Node)
    (skipped : List Replica) :
    Except Failure (FinMap Replica Bytes) :=
  (FinMap.ascending config.pkMap.keys).foldlM
    (loadPublicKey codec config skipped) ∅

/- The part that an Artemis context reads. -/
def Node.artemis (config : Node) : Artemis.Config where
  id := config.id
  numNodes := config.numNodes
  numFaults := config.numFaults
  pkMap := config.pkMap
  secretKeyBytes := config.secretKeyBytes
  benchMetricsNode := config.benchMetricsNode

/- The part that an Apollo context reads. -/
def Node.apollo (config : Node) : Apollo.Config where
  id := config.id
  numNodes := config.numNodes
  numFaults := config.numFaults
  pkMap := config.pkMap
  secretKeyBytes := config.secretKeyBytes
  benchMetricsNode := config.benchMetricsNode

/- The part that the other two contexts read. -/
def Node.synchs (config : Node) : Synchs.Config where
  id := config.id
  numNodes := config.numNodes
  numFaults := config.numFaults
  payload := config.payload
  blockSize := config.blockSize
  pkMap := config.pkMap
  secretKeyBytes := config.secretKeyBytes
  clients := FinMap.ascending config.clientNetMap.keys

variable (H : Type) [DecidableEq H] [Crypto H]

def artemisContext
    (checks : Bool)
    (codec : KeyCodec)
    (config : Node) :
    Except Failure (Artemis.Context H) := do
  let secretKey ← loadSecretKey codec config
  let leader ← subUsize checks config.numFaults 1
  let _ ← wrap checks 64 (config.payload * config.blockSize)
  let keys ← loadPublicKeys codec config [config.id]
  let cx := Artemis.Context.new config.artemis
  .ok
    { cx with
      mySecretKey := secretKey
      leaders :=
        { cx.leaders with roundLeader := leader % 2 ^ 16 }
      pubKeyMap := keys }

def apolloContext
    (codec : KeyCodec)
    (config : Node) :
    Except Failure (Apollo.Context H) := do
  let secretKey ← loadSecretKey codec config
  let keys ← loadPublicKeys codec config [config.id]
  .ok
    { Apollo.Context.new config.apollo with
      mySecretKey := secretKey
      pubKeyMap := keys }

def synchsContext
    (checks : Bool)
    (codec : KeyCodec)
    (config : Node) :
    Except Failure (Synchs.Context H) := do
  let secretKey ← loadSecretKey codec config
  let payload ←
    wrap checks 64 (config.payload * config.blockSize)
  let keys ← loadPublicKeys codec config []
  .ok
    { Synchs.Context.new config.synchs with
      mySecretKey := secretKey
      payload := payload
      pubKeyMap := keys }

/- As in Sync HotStuff, with the commit timer `2 * delta`. -/
def optsyncContext
    (checks : Bool)
    (codec : KeyCodec)
    (config : Node) :
    Except Failure (Optsync.Context H) := do
  let secretKey ← loadSecretKey codec config
  let _ ← wrap checks 64 (2 * config.delta)
  let payload ←
    wrap checks 64 (config.payload * config.blockSize)
  let keys ← loadPublicKeys codec config []
  .ok
    { Optsync.Context.new config.synchs with
      mySecretKey := secretKey
      payload := payload
      pubKeyMap := keys }

omit [Crypto H] in
variable {H} in
/- `next_of` on 16-bit replica ids. -/
def nextOf
    (checks : Bool)
    (cx : Apollo.Context H)
    (prev : Replica) : Except Failure Replica :=
  if prev + 1 = cx.numNodes then .ok 0
  else wrap checks 16 (prev + 1)

omit [Crypto H] in
variable {H} in
/- `leader_of_view`, cut to a 16-bit replica id. -/
def leaderOfView
    (cx : Synchs.Context H) : Except Failure Replica :=
  if cx.numNodes = 0 then .error .divisionByZero
  else .ok (cx.leaderOfView % 2 ^ 16)

/- All key blobs of the configuration decode. -/
structure Decodes
    (codec : KeyCodec)
    (config : Node) : Prop where
  secret :
    codec.secret config.cryptoAlg config.secretKeyBytes =
      true
  publicKeys :
    ∀ replica bytes,
      config.pkMap.lookup replica = some bytes →
        codec.publicKey config.cryptoAlg bytes = true

theorem decode_eq_ok
    {decodes : Algorithm → Bytes → Bool}
    {algorithm : Algorithm}
    {bytes : Bytes}
    (failure : Failure)
    (hSupported : algorithm ≠ .rsa)
    (hDecodes : decodes algorithm bytes = true) :
    decode decodes failure algorithm bytes = .ok bytes := by
  cases algorithm with
  | rsa => exact absurd rfl hSupported
  | ed25519 => exact if_pos hDecodes
  | secp256k1 => exact if_pos hDecodes

variable {codec : KeyCodec}
variable {config : Node}

theorem loadSecretKey_eq
    (hSupported : config.cryptoAlg ≠ .rsa)
    (hDecodes : Decodes codec config) :
    loadSecretKey codec config =
      .ok config.secretKeyBytes :=
  decode_eq_ok .secretKey hSupported hDecodes.secret

/- A key that is not skipped is entered under its replica. -/
theorem loadPublicKey_ok
    (hSupported : config.cryptoAlg ≠ .rsa)
    (hDecodes : Decodes codec config)
    (skipped : List Replica)
    (keys : FinMap Replica Bytes)
    (replica : Replica) :
    ∃ keys',
      loadPublicKey codec config skipped keys replica =
          .ok keys' ∧
        ∀ other,
          keys'.lookup other =
            if other = replica ∧ replica ∉ skipped then
              (config.pkMap.lookup replica).or
                (keys.lookup replica)
            else
              keys.lookup other := by
  unfold loadPublicKey
  by_cases hSkip : replica ∈ skipped
  · rw [if_pos hSkip]
    exact ⟨keys, rfl, by simp [hSkip]⟩
  · rw [if_neg hSkip]
    cases hLookup : config.pkMap.lookup replica with
    | none =>
        refine ⟨keys, rfl, ?_⟩
        intro other
        by_cases hOther : other = replica
        · subst hOther
          simp
        · simp [hOther]
    | some bytes =>
        have hKey :=
          decode_eq_ok .publicKey hSupported
            (hDecodes.publicKeys replica bytes hLookup)
        refine ⟨keys.insert replica bytes, ?_, ?_⟩
        · dsimp only
          rw [hKey]
          rfl
        · intro other
          rw [FinMap.lookup_insert_eq]
          simp [hSkip]

/- The keys of the visited replicas are entered. -/
theorem loadPublicKeyLoop_ok
    (hSupported : config.cryptoAlg ≠ .rsa)
    (hDecodes : Decodes codec config)
    (skipped visited : List Replica)
    (keys : FinMap Replica Bytes) :
    ∃ keys',
      visited.foldlM (loadPublicKey codec config skipped)
          keys = .ok keys' ∧
        ∀ other,
          keys'.lookup other =
            if other ∈ visited ∧ other ∉ skipped then
              (config.pkMap.lookup other).or
                (keys.lookup other)
            else
              keys.lookup other := by
  induction visited generalizing keys with
  | nil => exact ⟨keys, rfl, by simp⟩
  | cons first visited ih =>
      rcases loadPublicKey_ok hSupported hDecodes skipped
          keys first with ⟨mid, hFirst, hMid⟩
      rcases ih mid with ⟨keys', hRest, hKeys⟩
      refine ⟨keys', ?_, ?_⟩
      · rw [List.foldlM_cons]
        exact Result.bind_eq_ok.mpr ⟨mid, hFirst, hRest⟩
      · intro other
        rw [hKeys, hMid]
        by_cases hSkip : other ∈ skipped
        · by_cases hOther : other = first
          · simp [hSkip, ← hOther]
          · simp [hSkip, hOther]
        · by_cases hOther : other = first
          · subst hOther
            cases config.pkMap.lookup other with
            | none => simp
            | some bytes => simp [hSkip]
          · simp [hOther]

/- All keys are loaded, but those that are skipped. -/
theorem loadPublicKeys_eq
    (hSupported : config.cryptoAlg ≠ .rsa)
    (hDecodes : Decodes codec config)
    (skipped : List Replica) :
    ∃ keys,
      loadPublicKeys codec config skipped = .ok keys ∧
        ∀ replica,
          keys.lookup replica =
            if replica ∈ skipped then none
            else config.pkMap.lookup replica := by
  rcases loadPublicKeyLoop_ok hSupported hDecodes skipped
      (FinMap.ascending config.pkMap.keys) ∅ with
    ⟨keys, hLoad, hKeys⟩
  refine ⟨keys, hLoad, ?_⟩
  intro replica
  rw [hKeys]
  by_cases hSkip : replica ∈ skipped
  · simp [hSkip]
  · by_cases hPresent : replica ∈ config.pkMap
    · have hVisited :
          replica ∈ FinMap.ascending config.pkMap.keys := by
        rw [FinMap.mem_ascending, Finmap.mem_keys]
        exact hPresent
      simp [hSkip, hVisited]
    · have hNone : config.pkMap.lookup replica = none :=
        Finmap.lookup_eq_none.mpr hPresent
      simp [hSkip, hNone]

end Config

end LibApollo

------------------------------------------------------------
-- Sufficient Configurations
------------------------------------------------------------

namespace LibApollo

namespace Config

variable (H : Type) [DecidableEq H] [Crypto H]

/- A leader other than the node itself has a key. -/
def HasKey
    (myid : Replica)
    (keys : FinMap Replica Bytes)
    (leader : Replica) : Prop :=
  leader ≠ myid → leader ∈ keys

/-
  The four contexts are constructed.  After any number of
  rounds Artemis and Apollo compute their next leader, in
  any view Sync HotStuff and Opt Sync theirs, and all these
  leaders have keys.
-/
structure Sufficient
    (checks : Bool)
    (codec : KeyCodec)
    (config : Node) : Prop where
  artemis :
    ∃ cx : Artemis.Context H,
      artemisContext H checks codec config = .ok cx ∧
        ∀ rounds,
          ∃ later leader,
            cx.afterRounds rounds = .ok later ∧
              later.nextRoundLeader = .ok leader ∧
              HasKey later.myid later.pubKeyMap leader
  apollo :
    ∃ cx : Apollo.Context H,
      apolloContext H codec config = .ok cx ∧
        ∀ rounds later,
          later = Apollo.Context.updateRound^[rounds] cx →
            nextOf checks later later.roundLeader =
                .ok later.nextLeader ∧
              HasKey later.myid later.pubKeyMap
                later.nextLeader
  synchs :
    ∃ cx : Synchs.Context H,
      synchsContext H checks codec config = .ok cx ∧
        ∀ view, ∃ leader,
          leaderOfView { cx with view := view } =
              .ok leader ∧
            HasKey cx.myid cx.pubKeyMap leader
  optsync :
    ∃ cx : Optsync.Context H,
      optsyncContext H checks codec config = .ok cx ∧
        ∀ view, ∃ leader,
          leaderOfView { cx.toContext with view := view } =
              .ok leader ∧
            HasKey cx.myid cx.pubKeyMap leader

/-
  What the validation does not ask for: at least one fault,
  few enough that twice their number is a 64-bit number, a
  key for every other node, and, with overflow checks, 64-bit
  products.
-/
structure Complete
    (checks : Bool)
    (config : Node) : Prop where
  faults_pos : 0 < config.numFaults
  faults_lt : config.numFaults < 2 ^ 63
  keys :
    ∀ replica, replica < config.numNodes →
      replica ≠ config.id → replica ∈ config.pkMap
  payload :
    checks = true →
      config.payload * config.blockSize < 2 ^ 64
  delta : checks = true → 2 * config.delta < 2 ^ 64

variable {H}
variable {checks : Bool}
variable {codec : KeyCodec}
variable {config : Node}

omit [Crypto H] in
theorem leaderOfView_eq
    {cx : Synchs.Context H}
    (hPos : 0 < cx.numNodes)
    (hNodes : cx.numNodes ≤ 2 ^ 16) :
    leaderOfView cx = .ok (cx.view % cx.numNodes) := by
  have hLess : cx.view % cx.numNodes < 2 ^ 16 :=
    Nat.lt_of_lt_of_le (Nat.mod_lt _ hPos) hNodes
  unfold leaderOfView Synchs.Context.leaderOfView
  rw [if_neg (Nat.pos_iff_ne_zero.mp hPos),
    Nat.mod_eq_of_lt hLess]

/- Rounds change the leaders of Artemis only. -/
theorem afterRounds_fields
    {cx later : Artemis.Context H}
    {rounds : Nat}
    (hLater : cx.afterRounds rounds = .ok later) :
    later.myid = cx.myid ∧
      later.pubKeyMap = cx.pubKeyMap := by
  induction rounds generalizing later with
  | zero =>
      cases hLater
      exact ⟨rfl, rfl⟩
  | succ rounds ih =>
      rcases Result.bind_eq_ok.mp hLater with
        ⟨mid, hMid, hUpdate⟩
      rcases Result.bind_eq_ok.mp hUpdate with
        ⟨leaders, _, hEq⟩
      have hOld := ih hMid
      cases hEq
      exact hOld

/- The keys of a context that skips the node itself. -/
theorem loadOthers_eq
    (hValid : Validated config)
    (hDecodes : Decodes codec config) :
    loadPublicKeys codec config [config.id] =
      .ok (config.pkMap.erase config.id) := by
  rcases loadPublicKeys_eq hValid.algorithm hDecodes
      [config.id] with ⟨keys, hLoad, hKeys⟩
  have hErase : keys = config.pkMap.erase config.id := by
    apply Finmap.ext_lookup
    intro replica
    rw [hKeys, FinMap.lookup_erase_eq]
    simp
  rw [hLoad, hErase]

/- The keys of a context that skips none. -/
theorem loadAll_eq
    (hValid : Validated config)
    (hDecodes : Decodes codec config) :
    loadPublicKeys codec config [] = .ok config.pkMap := by
  rcases loadPublicKeys_eq hValid.algorithm hDecodes [] with
    ⟨keys, hLoad, hKeys⟩
  have hSame : keys = config.pkMap := by
    apply Finmap.ext_lookup
    intro replica
    rw [hKeys]
    simp
  rw [hLoad, hSame]

/- A node of a complete configuration has a key. -/
theorem Complete.hasKey
    {leader : Replica}
    (hComplete : Complete checks config)
    (hLeader : leader < config.numNodes) :
    HasKey config.id config.pkMap leader ∧
      HasKey config.id (config.pkMap.erase config.id)
        leader := by
  refine ⟨hComplete.keys leader hLeader, ?_⟩
  intro hOther
  rw [Finmap.mem_erase]
  exact ⟨hOther, hComplete.keys leader hLeader hOther⟩

theorem Complete.artemis
    (hComplete : Complete checks config)
    (hValid : Validated config)
    (hDecodes : Decodes codec config) :
    ∃ cx : Artemis.Context H,
      artemisContext H checks codec config = .ok cx ∧
        ∀ rounds,
          ∃ later leader,
            cx.afterRounds rounds = .ok later ∧
              later.nextRoundLeader = .ok leader ∧
              HasKey later.myid later.pubKeyMap leader := by
  have hNodes := hValid.faults hComplete.faults_lt
  have hLeader :=
    subUsize_of_le checks hComplete.faults_pos
  -- the first leader is a node, whose id is not cut
  have hFirst :
      (config.numFaults - 1) % 2 ^ 16 =
        config.numFaults - 1 := by
    have hFew := hValid.nodes_le
    exact Nat.mod_eq_of_lt (by omega)
  rcases wrap_returns_iff.mpr hComplete.payload with
    ⟨payload, hPayload⟩
  refine ⟨Artemis.Context.new config.artemis, ?_, ?_⟩
  · unfold artemisContext
    rw [loadSecretKey_eq hValid.algorithm hDecodes,
      hLeader, hPayload, loadOthers_eq hValid hDecodes]
    dsimp only [bind, Except.bind]
    rw [hFirst]
    rfl
  · intro rounds
    rcases Artemis.exists_roundRun config.artemis
        hComplete.faults_pos hNodes (H := H) with
      ⟨run, hRun, hAfter⟩
    have hRotates := hRun.rotates rounds
    have hEligible :
        0 < (run rounds).leaders.eligibleLeaders.length := by
      rw [hRotates.eligibleLength]
      change 0 < config.numNodes - config.numFaults
      omega
    rcases Artemis.Leaders.exists_computeNextRoundLeader
        hEligible (run rounds).round (H := H) with
      ⟨next, idx, hNext⟩
    refine ⟨run rounds, next, hAfter rounds, ?_, ?_⟩
    · exact Result.bind_eq_ok.mpr ⟨(next, idx), hNext, rfl⟩
    · rcases afterRounds_fields (hAfter rounds) with
        ⟨hId, hPub⟩
      rw [hId, hPub]
      have hMem :=
        List.mem_of_getElem?
          (Artemis.Leaders.computeNextRoundLeader_ok hNext)
      have hLess : next < config.numNodes :=
        List.mem_range.mp
          (hRotates.all.mem_iff.mp
            (List.mem_append_right _ hMem))
      exact (hComplete.hasKey hLess).2

/- Rounds change the leader of Apollo only. -/
structure ApolloRound
    (config : Node)
    (cx : Apollo.Context H) : Prop where
  myid : cx.myid = config.id
  keys : cx.pubKeyMap = config.pkMap.erase config.id
  nodes : cx.numNodes = config.numNodes
  leader_lt : cx.roundLeader < config.numNodes

omit [Crypto H] in
theorem ApolloRound.nextLeader_lt
    {cx : Apollo.Context H}
    (hRound : ApolloRound config cx) :
    cx.nextLeader < config.numNodes := by
  have hLess := Nat.succ_le_of_lt hRound.leader_lt
  unfold Apollo.Context.nextLeader Apollo.Context.nextOf
  rw [hRound.nodes]
  by_cases hLast : cx.roundLeader + 1 = config.numNodes
  · rw [if_pos hLast]
    exact Nat.lt_of_lt_of_le (Nat.succ_pos _) hLess
  · rw [if_neg hLast]
    exact Nat.lt_of_le_of_ne hLess hLast

omit [Crypto H] in
theorem ApolloRound.updateRound
    {cx : Apollo.Context H}
    (hRound : ApolloRound config cx) :
    ApolloRound config cx.updateRound where
  myid := hRound.myid
  keys := hRound.keys
  nodes := hRound.nodes
  leader_lt := hRound.nextLeader_lt

omit [Crypto H] in
/- Among so few nodes the next leader is a 16-bit number. -/
theorem ApolloRound.nextOf_eq
    {cx : Apollo.Context H}
    (checks : Bool)
    (hValid : Validated config)
    (hRound : ApolloRound config cx) :
    nextOf checks cx cx.roundLeader =
      .ok cx.nextLeader := by
  have hLess := Nat.succ_le_of_lt hRound.leader_lt
  have hFew := hValid.nodes_le
  unfold nextOf Apollo.Context.nextLeader
    Apollo.Context.nextOf
  rw [hRound.nodes]
  by_cases hLast : cx.roundLeader + 1 = config.numNodes
  · rw [if_pos hLast, if_pos hLast]
  · rw [if_neg hLast, if_neg hLast]
    apply wrap_of_lt
    exact Nat.lt_of_lt_of_le
      (Nat.lt_of_le_of_ne hLess hLast) hFew

theorem Complete.apollo
    (hComplete : Complete checks config)
    (hValid : Validated config)
    (hDecodes : Decodes codec config) :
    ∃ cx : Apollo.Context H,
      apolloContext H codec config = .ok cx ∧
        ∀ rounds later,
          later = Apollo.Context.updateRound^[rounds] cx →
            nextOf checks later later.roundLeader =
                .ok later.nextLeader ∧
              HasKey later.myid later.pubKeyMap
                later.nextLeader := by
  refine ⟨Apollo.Context.new config.apollo, ?_, ?_⟩
  · unfold apolloContext
    rw [loadSecretKey_eq hValid.algorithm hDecodes,
      loadOthers_eq hValid hDecodes]
    rfl
  · intro rounds later hLater
    have hRound : ApolloRound config later := by
      rw [hLater]
      clear hLater
      induction rounds with
      | zero => exact ⟨rfl, rfl, rfl, hValid.nodes_pos⟩
      | succ rounds ih =>
          rw [Function.iterate_succ_apply']
          exact ih.updateRound
    refine ⟨hRound.nextOf_eq checks hValid, ?_⟩
    rw [hRound.myid, hRound.keys]
    exact (hComplete.hasKey hRound.nextLeader_lt).2

theorem Complete.synchs
    (hComplete : Complete checks config)
    (hValid : Validated config)
    (hDecodes : Decodes codec config) :
    ∃ cx : Synchs.Context H,
      synchsContext H checks codec config = .ok cx ∧
        ∀ view, ∃ leader,
          leaderOfView { cx with view := view } =
              .ok leader ∧
            HasKey cx.myid cx.pubKeyMap leader := by
  rcases wrap_returns_iff.mpr hComplete.payload with
    ⟨payload, hPayload⟩
  refine
    ⟨{ Synchs.Context.new config.synchs with
        payload := payload }, ?_, ?_⟩
  · unfold synchsContext
    rw [loadSecretKey_eq hValid.algorithm hDecodes,
      hPayload, loadAll_eq hValid hDecodes]
    rfl
  · intro view
    refine ⟨view % config.numNodes,
      leaderOfView_eq hValid.nodes_pos hValid.nodes_le, ?_⟩
    exact (hComplete.hasKey
      (Nat.mod_lt _ hValid.nodes_pos)).1

theorem Complete.optsync
    (hComplete : Complete checks config)
    (hValid : Validated config)
    (hDecodes : Decodes codec config) :
    ∃ cx : Optsync.Context H,
      optsyncContext H checks codec config = .ok cx ∧
        ∀ view, ∃ leader,
          leaderOfView { cx.toContext with view := view } =
              .ok leader ∧
            HasKey cx.myid cx.pubKeyMap leader := by
  rcases wrap_returns_iff.mpr hComplete.payload with
    ⟨payload, hPayload⟩
  rcases wrap_returns_iff.mpr hComplete.delta with
    ⟨timer, hTimer⟩
  refine
    ⟨{ Optsync.Context.new config.synchs with
        payload := payload }, ?_, ?_⟩
  · unfold optsyncContext
    rw [loadSecretKey_eq hValid.algorithm hDecodes, hTimer,
      hPayload, loadAll_eq hValid hDecodes]
    rfl
  · intro view
    refine ⟨view % config.numNodes,
      leaderOfView_eq hValid.nodes_pos hValid.nodes_le, ?_⟩
    exact (hComplete.hasKey
      (Nat.mod_lt _ hValid.nodes_pos)).1

theorem Sufficient.complete
    (hSufficient : Sufficient H checks codec config)
    (hValid : Validated config)
    (hDecodes : Decodes codec config) :
    Complete checks config := by
  rcases hSufficient.artemis with ⟨cx, hArtemis, hRounds⟩
  rcases Result.bind_eq_ok.mp hArtemis with
    ⟨_, _, hArtemis⟩
  rcases Result.bind_eq_ok.mp hArtemis with
    ⟨first, hFirst, hArtemis⟩
  rcases Result.bind_eq_ok.mp hArtemis with
    ⟨payload, hPayload, hArtemis⟩
  rcases Result.bind_eq_ok.mp hArtemis with ⟨_, _, hCx⟩
  rcases hSufficient.optsync with ⟨_, hOptsync, _⟩
  rcases Result.bind_eq_ok.mp hOptsync with
    ⟨_, _, hOptsync⟩
  rcases Result.bind_eq_ok.mp hOptsync with
    ⟨timer, hTimer, _⟩
  refine
    { faults_pos := ?_
      faults_lt := ?_
      keys := ?_
      payload := wrap_returns_iff.mp ⟨payload, hPayload⟩
      delta := wrap_returns_iff.mp ⟨timer, hTimer⟩ }
  · -- without a last leader the first round does not end
    by_contra hNone
    rcases hRounds 1 with ⟨later, leader, hLater, _, _⟩
    rcases Result.bind_eq_ok.mp hLater with
      ⟨cx', hStart, hUpdate⟩
    cases hStart
    rcases Result.bind_eq_ok.mp hUpdate with
      ⟨leaders, hAdvance, _⟩
    rcases Result.bind_eq_ok.mp hAdvance with
      ⟨drawn, _, hOldest⟩
    cases hCx
    have hLast : List.range config.numFaults = [] := by
      rw [Nat.lt_one_iff.mp (Nat.not_le.mp hNone)]
      rfl
    simp [Artemis.Context.new, Artemis.Leaders.new,
      Node.artemis, hLast] at hOldest
  · -- some replica is eligible as a leader
    rcases hRounds 0 with ⟨later, leader, hLater, hNext, _⟩
    cases hLater
    rcases Result.bind_eq_ok.mp hNext with
      ⟨⟨next, idx⟩, hDraw, _⟩
    have hSome :=
      Artemis.Leaders.computeNextRoundLeader_ok hDraw
    cases hCx
    have hLess :
        idx <
          (List.range' config.numFaults
            (config.numNodes - config.numFaults)).length :=
      (List.getElem?_eq_some_iff.mp hSome).1
    rw [List.length_range'] at hLess
    have hFew := hValid.nodes_le
    omega
  · intro replica hNode hOther
    rcases hSufficient.synchs with ⟨cx, hSynchs, hViews⟩
    rcases Result.bind_eq_ok.mp hSynchs with
      ⟨_, _, hSynchs⟩
    rcases Result.bind_eq_ok.mp hSynchs with
      ⟨_, _, hSynchs⟩
    rw [loadAll_eq hValid hDecodes] at hSynchs
    cases hSynchs
    rcases hViews replica with ⟨leader, hLeader, hKey⟩
    rw [leaderOfView_eq hValid.nodes_pos hValid.nodes_le]
      at hLeader
    cases hLeader
    have hSame : replica % config.numNodes = replica :=
      Nat.mod_eq_of_lt hNode
    change HasKey config.id config.pkMap
      (replica % config.numNodes) at hKey
    rw [hSame] at hKey
    exact hKey hOther

/-
  A validated configuration whose key blobs decode is
  sufficient if and only if it is complete.
-/
theorem sufficient_iff
    (hValid : validate checks config = .ok ())
    (hDecodes : Decodes codec config) :
    Sufficient H checks codec config ↔
      Complete checks config := by
  have hFacts := validate_facts hValid
  constructor
  · intro hSufficient
    exact hSufficient.complete hFacts hDecodes
  · intro hComplete
    exact
      { artemis := hComplete.artemis hFacts hDecodes
        apollo := hComplete.apollo hFacts hDecodes
        synchs := hComplete.synchs hFacts hDecodes
        optsync := hComplete.optsync hFacts hDecodes }

/- A library that decodes every blob. -/
def anyBlob : KeyCodec where
  secret := fun _ _ => true
  publicKey := fun _ _ => true

/- The addresses of three nodes. -/
def threeAddresses : FinMap Replica String :=
  (((∅ : FinMap Replica String).insert 0 "n0").insert 1
    "n1").insert 2 "n2"

theorem threeAddresses_lt :
    ∀ replica ∈ threeAddresses.keys, replica < 2 ^ 16 := by
  decide

/- Three nodes that know the keys of some of them. -/
def threeNodes
    (numFaults : Nat)
    (keys : List Replica) : Node where
  netMap := threeAddresses
  clientNetMap := ∅
  delta := 50
  id := 0
  numNodes := 3
  numFaults := numFaults
  blockSize := 400
  payload := 0
  benchMetricsNode := 0
  cryptoAlg := .ed25519
  pkMap := Digest.keyMap keys
  secretKeyBytes := Digest.keyOf 0
  net_lt := threeAddresses_lt

theorem decodes_anyBlob
    (config : Node) : Decodes anyBlob config where
  secret := rfl
  publicKeys := fun _ _ _ => rfl

/-
  Without a fault the first leader of Artemis underflows,
  and without keys no leader has one.
-/
theorem validated_not_sufficient :
    (validate true (threeNodes 0 [0, 1, 2]) = .ok () ∧
      artemisContext Digest true anyBlob
          (threeNodes 0 [0, 1, 2]) = .error .underflow ∧
      ¬ Sufficient Digest true anyBlob
        (threeNodes 0 [0, 1, 2])) ∧
    (validate true (threeNodes 1 []) = .ok () ∧
      ¬ Sufficient Digest true anyBlob
        (threeNodes 1 [])) := by
  have hNoFault :
      validate true (threeNodes 0 [0, 1, 2]) = .ok () := by
    decide +kernel
  have hNoKeys :
      validate true (threeNodes 1 []) = .ok () := by
    decide +kernel
  refine ⟨⟨hNoFault, rfl, ?_⟩, hNoKeys, ?_⟩
  · intro hSufficient
    have hComplete := hSufficient.complete
      (validate_facts hNoFault) (decodes_anyBlob _)
    exact absurd hComplete.faults_pos (by decide)
  · intro hSufficient
    have hComplete := hSufficient.complete
      (validate_facts hNoKeys) (decodes_anyBlob _)
    exact absurd
      (hComplete.keys 1 (by decide) (by decide))
      (by decide)

/- One fault and all keys are enough. -/
theorem three_nodes_sufficient :
    validate true (threeNodes 1 [0, 1, 2]) = .ok () ∧
      Sufficient Digest true anyBlob
        (threeNodes 1 [0, 1, 2]) := by
  have hValid :
      validate true (threeNodes 1 [0, 1, 2]) = .ok () := by
    decide +kernel
  refine ⟨hValid,
    (sufficient_iff hValid (decodes_anyBlob _)).mpr ?_⟩
  refine
    { faults_pos := by decide
      faults_lt := by decide
      keys := ?_
      payload := fun _ => by decide
      delta := fun _ => by decide }
  intro replica hNode _
  have hCases :
      replica = 0 ∨ replica = 1 ∨ replica = 2 := by
    change replica < 3 at hNode
    omega
  rcases hCases with rfl | rfl | rfl
  · decide
  · decide
  · decide

end Config

end LibApollo
