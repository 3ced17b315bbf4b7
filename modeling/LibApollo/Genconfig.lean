import LibApollo.CommandLine

/-
  The tool that writes the configurations of a deployment.

  The tool fills the configurations of all nodes and clients
  in one pass over the nodes and one over the clients, shares
  the maps it has filled with all of them, and writes and
  validates each of the results.  Key pairs and certificates
  come from libraries; of these and of the files, the model
  says which are asked for, and stops at the first that
  fails.

  Key definitions include:
    * `Config.Client`, `Config.Client.validate`
    * `Genconfig.perform`, `Genconfig.generate`
    * `Genconfig.main`
    * `Genconfig.Args.effects`, `Genconfig.Args.Fits`
    * `Genconfig.Maps.Filled`

  Key theorems include:
    * `Genconfig.addNode_ok`, `Genconfig.mintClient_ok`
    * `Genconfig.generate_ok`, `Genconfig.generate_returns`
    * `Genconfig.generator_succeeds_iff`
-/

------------------------------------------------------------
-- Configurations of Clients
------------------------------------------------------------

namespace LibApollo

namespace Config

/- The fields of a client, without the certificate paths. -/
structure Client where
  netMap : FinMap Replica String
  cryptoAlg : Algorithm
  serverPk : FinMap Replica Bytes
  numNodes : Nat
  numFaults : Nat
  blockSize : Nat
  payload : Nat
  myId : ClientId
  myListenAddr : String

namespace Client

def new : Client where
  netMap := ∅
  cryptoAlg := .ed25519
  serverPk := ∅
  numNodes := 0
  numFaults := 0
  blockSize := 0
  payload := 0
  myId := 0
  myListenAddr := ""

/- As for a node, without a secret key. -/
def validate
    (checks : Bool)
    (client : Client) : Except Failure Unit := do
  ensure (client.netMap.keys.card = client.numNodes)
    (.parse (.invalidMapLen client.numNodes
      client.netMap.keys.card))
  let doubled ← wrap checks 64 (2 * client.numFaults)
  ensure (doubled < client.numNodes)
    (.parse (.incorrectFaults client.numFaults
      client.numNodes))
  (FinMap.ascending client.netMap.keys).forM
    (fun replica =>
      ensure (isValidReplica replica client.numNodes)
        (.parse (.invalidMapEntry replica)))
  match client.cryptoAlg with
  | .rsa => .error (.parse (.unimplemented "RSA"))
  | .ed25519 | .secp256k1 =>
      (FinMap.ascending client.serverPk.keys).forM
        (fun replica => do
          let bytes :=
            (client.serverPk.lookup replica).getD []
          ensure (isValidReplica replica client.numNodes)
            (.parse (.invalidMapEntry replica))
          ensure (bytes ≠ [])
            (.parse (.invalidPkSize bytes.length)))

end Client

/- Addresses by 16-bit replica ids. -/
abbrev NetMap :=
  { map : FinMap Replica String //
    ∀ replica ∈ map.keys, replica < 2 ^ 16 }

namespace NetMap

theorem empty_lt :
    ∀ replica ∈ (∅ : FinMap Replica String).keys,
      replica < 2 ^ 16 := by
  simp

def empty : NetMap :=
  ⟨∅, empty_lt⟩

theorem insert_lt
    (map : NetMap)
    (index : Nat)
    (addr : String) :
    ∀ replica ∈
        (map.val.insert (index % 2 ^ 16) addr).keys,
      replica < 2 ^ 16 := by
  intro replica hMem
  rw [Finmap.mem_keys, Finmap.mem_insert] at hMem
  rcases hMem with hSame | hOld
  · rw [hSame]
    exact Nat.mod_lt _ (Nat.two_pow_pos 16)
  · exact map.property replica (Finmap.mem_keys.mpr hOld)

/- `insert` at an index cut to a replica id. -/
def insert
    (map : NetMap)
    (index : Nat)
    (addr : String) : NetMap :=
  ⟨map.val.insert (index % 2 ^ 16) addr,
    map.insert_lt index addr⟩

end NetMap

end Config

end LibApollo

------------------------------------------------------------
-- The Generator
------------------------------------------------------------

namespace LibApollo

namespace Genconfig

open Config (Failure Algorithm NetMap)

/- A node with the fields that only the mempool reads. -/
structure Node extends Config.Node where
  clientPort : Nat
  mempoolPort : Nat
  mempoolNetMap : FinMap Replica String

/- The effects in order, up to the first that fails. -/
def perform
    (world : World)
    (effects : List Effect) : Except Panic Unit :=
  effects.forM (fun effect =>
    if world.succeeds effect then .ok ()
    else .error (.failed effect))

/- A root certificate, in the new directory. -/
def rootEffects (args : Args) : List Effect :=
  [.newRootCert, .createDir args.target,
    .certFile args.target "root-cert.pem"]

/- Only this generation can fail. -/
def keyEffects
    (args : Args)
    (index : Nat) : List Effect :=
  match args.algorithm with
  | .ed25519 => [.keyPair index]
  | .secp256k1 | .rsa => []

/- A signed certificate, and the files of its halves. -/
def certEffects
    (args : Args)
    (owner : String)
    (ips : List String) : List Effect :=
  [.signedCert owner ips,
    .certFile args.target (owner ++ ".chain.pem"),
    .certFile args.target (owner ++ ".key.pem")]

def nodeCert (args : Args) (index : Nat) : List Effect :=
  certEffects args ("node-" ++ toString index) args.nodeIps

def clientCert (args : Args) (index : Nat) : List Effect :=
  certEffects args ("client-" ++ toString index)
    args.clientIps

def extension (outType : String) : Option String :=
  match outType with
  | "json" => some ".json"
  | "binary" => some ".dat"
  | "toml" => some ".toml"
  | "yaml" => some ".yml"
  | _ => none

/- The file of a configuration, in one of the formats. -/
def configEffects
    (args : Args)
    (stem : String) : List Effect :=
  match extension args.outType with
  | some ending =>
      [.configFile (args.target ++ "/" ++ stem ++ ending)]
  | none => []

def nodeFile (args : Args) (index : Nat) : List Effect :=
  configEffects args ("nodes-" ++ toString index)

def clientFile (args : Args) (index : Nat) : List Effect :=
  configEffects args ("client-" ++ toString index)

/- `base + (i as u16)` -/
def addPort
    (checks : Bool)
    (base index : Nat) : Except Panic Nat :=
  (Config.wrap checks 16
    (base + index % 2 ^ 16)).mapError .stopped

def loopback (port : Nat) : String :=
  "127.0.0.1:" ++ toString port

/- What the loop over the nodes fills. -/
structure Draft where
  nodes : List Node
  clients : List Config.Client
  pk : FinMap Replica Bytes
  ip : NetMap
  mempoolIp : FinMap Replica String

/- `Node::new()`, with what is set before the maps are. -/
def newNode
    (args : Args)
    (keyPair : KeyPair)
    (index clientPort mempoolPort : Nat) : Node where
  netMap := NetMap.empty.val
  clientNetMap := ∅
  delta := args.delay.val
  id := index % 2 ^ 16
  numNodes := args.numNodes.val
  numFaults := args.numFaults.val
  blockSize := args.blockSize.val
  payload := args.payload.val
  benchMetricsNode := 0
  cryptoAlg := args.algorithm
  pkMap := ∅
  secretKeyBytes :=
    match args.algorithm with
    | .rsa => []
    | .ed25519 | .secp256k1 => keyPair.secretKey
  net_lt := NetMap.empty.property
  clientPort := clientPort
  mempoolPort := mempoolPort
  mempoolNetMap := ∅

/-
  One node.  The ports for the mempool and the clients are
  computed once more for the maps, with the same results.
-/
def addNode
    (checks : Bool)
    (world : World)
    (args : Args)
    (draft : Draft)
    (index : Nat) : Except Panic Draft := do
  let clientPort ←
    addPort checks args.clientBasePort.val index
  let mempoolPort ←
    addPort checks args.mempoolBasePort.val index
  perform world (keyEffects args index)
  let port ← addPort checks args.basePort.val index
  perform world (nodeCert args index)
  .ok
    { nodes :=
        draft.nodes ++
          [newNode args (world.keys index) index clientPort
            mempoolPort]
      clients :=
        draft.clients.map
          (fun client =>
            { client with
              netMap :=
                client.netMap.insert (index % 2 ^ 16)
                  (loopback clientPort) })
      pk :=
        match args.algorithm with
        | .rsa => draft.pk
        | .ed25519 | .secp256k1 =>
            draft.pk.insert (index % 2 ^ 16)
              (world.keys index).publicKey
      ip := draft.ip.insert index (loopback port)
      mempoolIp :=
        draft.mempoolIp.insert (index % 2 ^ 16)
          (loopback mempoolPort) }

/- A client that knows the addresses in `net`. -/
def linked
    (args : Args)
    (net : FinMap Replica String) : Config.Client :=
  { Config.Client.new with
    netMap := net
    blockSize := args.blockSize.val
    cryptoAlg := args.algorithm
    numNodes := args.numNodes.val
    numFaults := args.numFaults.val }

def newDraft (args : Args) : Draft where
  nodes := []
  clients :=
    List.replicate args.numClients.val (linked args ∅)
  pk := ∅
  ip := NetMap.empty
  mempoolIp := ∅

/- One client, with its identity and its own address. -/
def mintClient
    (checks : Bool)
    (world : World)
    (args : Args)
    (minted : List Config.Client × FinMap ClientId String)
    (index : Nat) :
    Except Panic
      (List Config.Client × FinMap ClientId String) := do
  let port ←
    (Config.wrap checks 16
      (args.clientListenPort.val + index)).mapError .stopped
  perform world (clientCert args index)
  .ok
    (minted.1.modify index
        (fun client =>
          { client with
            myId := index
            myListenAddr := loopback port }),
      minted.2.insert index (loopback port))

/- The maps that every node gets a copy of. -/
def shareMaps
    (draft : Draft)
    (clientNetMap : FinMap ClientId String)
    (node : Node) : Node :=
  { node with
    pkMap := draft.pk
    netMap := draft.ip.val
    mempoolNetMap := draft.mempoolIp
    clientNetMap := clientNetMap
    net_lt := draft.ip.property }

/- The keys of the servers, for every client. -/
def keyed
    (pk : FinMap Replica Bytes)
    (client : Config.Client) : Config.Client :=
  { client with serverPk := pk }

/- A file is written before its configuration is checked. -/
def writeNode
    (checks : Bool)
    (world : World)
    (args : Args)
    (entry : Node × Nat) : Except Panic Unit := do
  perform world (nodeFile args entry.2)
  (Config.validate checks entry.1.toNode).mapError .stopped

def writeClient
    (checks : Bool)
    (world : World)
    (args : Args)
    (entry : Config.Client × Nat) : Except Panic Unit := do
  perform world (clientFile args entry.2)
  (entry.1.validate checks).mapError .stopped

/- What the files are written from. -/
structure Output where
  nodes : List Node
  clients : List Config.Client

/- The part of `main` after the command line is read. -/
def generate
    (checks : Bool)
    (world : World)
    (args : Args) : Except Panic Output := do
  perform world (rootEffects args)
  let draft ←
    (List.range args.numNodes.val).foldlM
      (addNode checks world args) (newDraft args)
  let (clients, clientNetMap) ←
    (List.range args.numClients.val).foldlM
      (mintClient checks world args) (draft.clients, ∅)
  let nodes := draft.nodes.map (shareMaps draft clientNetMap)
  let clients := clients.map (keyed draft.pk)
  nodes.zipIdx.forM (writeNode checks world args)
  clients.zipIdx.forM (writeClient checks world args)
  perform world (configEffects args "client")
  .ok { nodes := nodes, clients := clients }

def main
    (checks : Bool)
    (world : World)
    (given : Matches) : Except Panic Output := do
  let args ← Args.parse checks world given
  generate checks world args

end Genconfig

end LibApollo

------------------------------------------------------------
-- What the Validations Ask
------------------------------------------------------------

namespace LibApollo

namespace Config

/- What both validations ask of their common fields. -/
structure Passes
    (checks : Bool)
    (netMap : FinMap Replica String)
    (numNodes numFaults : Nat)
    (algorithm : Algorithm)
    (keys : FinMap Replica Bytes) : Prop where
  length : netMap.keys.card = numNodes
  checked : checks = true → 2 * numFaults < 2 ^ 64
  faults : 2 * numFaults % 2 ^ 64 < numNodes
  entries : ∀ replica ∈ netMap.keys, replica < numNodes
  algorithm : algorithm ≠ .rsa
  keyEntries :
    ∀ replica ∈ keys.keys,
      replica < numNodes ∧
        (keys.lookup replica).getD [] ≠ []

variable {checks : Bool}

theorem keys_checked_iff
    {keys : FinMap Replica Bytes}
    {nodes : Nat} :
    (FinMap.ascending keys.keys).forM
        (fun replica => do
          let bytes := (keys.lookup replica).getD []
          ensure (isValidReplica replica nodes)
            (.parse (.invalidMapEntry replica))
          ensure (bytes ≠ [])
            (.parse (.invalidPkSize bytes.length))) =
        .ok () ↔
      ∀ replica ∈ keys.keys,
        replica < nodes ∧
          (keys.lookup replica).getD [] ≠ [] := by
  rw [Result.forM_eq_ok]
  simp only [FinMap.mem_ascending]
  refine forall₂_congr fun replica hMem => ?_
  constructor
  · intro hChecked
    rcases Result.bind_eq_ok.mp hChecked with
      ⟨_, hValid, hSize⟩
    exact ⟨ensure_eq_ok.mp hValid, ensure_eq_ok.mp hSize⟩
  · intro hParts
    exact Result.bind_eq_ok.mpr
      ⟨(), ensure_eq_ok.mpr hParts.1,
        ensure_eq_ok.mpr hParts.2⟩

theorem entries_checked_iff
    {netMap : FinMap Replica String}
    {nodes : Nat} :
    (FinMap.ascending netMap.keys).forM
        (fun replica =>
          ensure (isValidReplica replica nodes)
            (.parse (.invalidMapEntry replica))) =
        .ok () ↔
      ∀ replica ∈ netMap.keys, replica < nodes := by
  rw [Result.forM_eq_ok]
  simp only [FinMap.mem_ascending, ensure_eq_ok]
  rfl

/- The checks that both validations begin with. -/
theorem common_checked_iff
    {netMap : FinMap Replica String}
    {nodes faults : Nat}
    {badLength badFaults : Failure}
    {rest : Except Failure Unit} :
    (do
        ensure (netMap.keys.card = nodes) badLength
        let doubled ← wrap checks 64 (2 * faults)
        ensure (doubled < nodes) badFaults
        (FinMap.ascending netMap.keys).forM
          (fun replica =>
            ensure (isValidReplica replica nodes)
              (.parse (.invalidMapEntry replica)))
        rest) = .ok () ↔
      netMap.keys.card = nodes ∧
        (checks = true → 2 * faults < 2 ^ 64) ∧
        2 * faults % 2 ^ 64 < nodes ∧
        (∀ replica ∈ netMap.keys, replica < nodes) ∧
        rest = .ok () := by
  constructor
  · intro hChecked
    rcases Result.bind_eq_ok.mp hChecked with
      ⟨_, hLength, hChecked⟩
    rcases Result.bind_eq_ok.mp hChecked with
      ⟨doubled, hWrap, hChecked⟩
    rcases wrap_eq_ok.mp hWrap with ⟨rfl, hFits⟩
    rcases Result.bind_eq_ok.mp hChecked with
      ⟨_, hLess, hChecked⟩
    rcases Result.bind_eq_ok.mp hChecked with
      ⟨_, hEntries, hRest⟩
    exact ⟨ensure_eq_ok.mp hLength, hFits,
      ensure_eq_ok.mp hLess,
      entries_checked_iff.mp hEntries, hRest⟩
  · intro hParts
    rcases hParts with
      ⟨hLength, hFits, hLess, hEntries, hRest⟩
    refine Result.bind_eq_ok.mpr
      ⟨(), ensure_eq_ok.mpr hLength, ?_⟩
    refine Result.bind_eq_ok.mpr
      ⟨_, wrap_eq_ok.mpr ⟨rfl, hFits⟩, ?_⟩
    refine Result.bind_eq_ok.mpr
      ⟨(), ensure_eq_ok.mpr hLess, ?_⟩
    exact Result.bind_eq_ok.mpr
      ⟨(), entries_checked_iff.mpr hEntries, hRest⟩

theorem passes_iff
    {netMap : FinMap Replica String}
    {nodes faults : Nat}
    {algorithm : Algorithm}
    {keys : FinMap Replica Bytes} :
    Passes checks netMap nodes faults algorithm keys ↔
      netMap.keys.card = nodes ∧
        (checks = true → 2 * faults < 2 ^ 64) ∧
        2 * faults % 2 ^ 64 < nodes ∧
        (∀ replica ∈ netMap.keys, replica < nodes) ∧
        algorithm ≠ .rsa ∧
        ∀ replica ∈ keys.keys,
          replica < nodes ∧
            (keys.lookup replica).getD [] ≠ [] := by
  constructor
  · intro hPasses
    exact ⟨hPasses.length, hPasses.checked, hPasses.faults,
      hPasses.entries, hPasses.algorithm,
      hPasses.keyEntries⟩
  · intro hParts
    rcases hParts with
      ⟨hLength, hChecked, hFaults, hEntries, hAlgorithm,
        hKeys⟩
    exact ⟨hLength, hChecked, hFaults, hEntries,
      hAlgorithm, hKeys⟩

theorem validate_eq_ok
    {config : Node} :
    validate checks config = .ok () ↔
      Passes checks config.netMap config.numNodes
          config.numFaults config.cryptoAlg config.pkMap ∧
        config.secretKeyBytes ≠ [] := by
  have hKeys :
      ((do
          (FinMap.ascending config.pkMap.keys).forM
            (fun replica => do
              let bytes :=
                (config.pkMap.lookup replica).getD []
              ensure
                (isValidReplica replica config.numNodes)
                (.parse (.invalidMapEntry replica))
              ensure (bytes ≠ [])
                (.parse (.invalidPkSize bytes.length)))
          ensure (config.secretKeyBytes ≠ [])
            (.parse (.invalidSkSize
              config.secretKeyBytes.length))) :
          Except Failure Unit) = .ok () ↔
        (∀ replica ∈ config.pkMap.keys,
          replica < config.numNodes ∧
            (config.pkMap.lookup replica).getD [] ≠ []) ∧
          config.secretKeyBytes ≠ [] := by
    rw [Result.bind_eq_ok]
    constructor
    · intro hChecked
      rcases hChecked with ⟨_, hKeys, hSecret⟩
      exact ⟨keys_checked_iff.mp hKeys,
        ensure_eq_ok.mp hSecret⟩
    · intro hParts
      exact ⟨(), keys_checked_iff.mpr hParts.1,
        ensure_eq_ok.mpr hParts.2⟩
  unfold validate
  rw [common_checked_iff, passes_iff]
  cases config.cryptoAlg with
  | rsa => simp
  | ed25519 =>
      rw [hKeys]
      simp [and_assoc]
  | secp256k1 =>
      rw [hKeys]
      simp [and_assoc]

theorem Client.validate_eq_ok
    {client : Client} :
    client.validate checks = .ok () ↔
      Passes checks client.netMap client.numNodes
        client.numFaults client.cryptoAlg
        client.serverPk := by
  unfold Client.validate
  rw [common_checked_iff, passes_iff]
  cases client.cryptoAlg with
  | rsa => simp
  | ed25519 =>
      rw [keys_checked_iff]
      simp
  | secp256k1 =>
      rw [keys_checked_iff]
      simp

end Config

end LibApollo

------------------------------------------------------------
-- The Two Passes
------------------------------------------------------------

namespace LibApollo

/- The entries of a map are those of the first numbers. -/
def FinMap.Tabulates
    {V : Type}
    (map : FinMap Nat V)
    (count : Nat)
    (value : Nat → V) : Prop :=
  ∀ index,
    map.lookup index =
      if index < count then some (value index) else none

namespace FinMap.Tabulates

variable {V : Type}
variable {map : FinMap Nat V}
variable {count : Nat}
variable {value : Nat → V}

theorem empty (value : Nat → V) :
    Tabulates ∅ 0 value := by
  intro index
  simp

theorem insert
    (hTable : Tabulates map count value) :
    Tabulates (map.insert count (value count)) (count + 1)
      value := by
  intro index
  rw [FinMap.lookup_insert_eq, hTable]
  by_cases hSame : index = count
  · subst hSame
    simp
  · rw [if_neg hSame]
    by_cases hLess : index < count
    · rw [if_pos hLess, if_pos (by omega)]
    · rw [if_neg hLess, if_neg (by omega)]

theorem keys_eq
    (hTable : Tabulates map count value) :
    map.keys = Finset.range count := by
  ext index
  rw [Finmap.mem_keys, Finset.mem_range,
    ← Finmap.lookup_isSome, hTable]
  by_cases hLess : index < count
  · simp [hLess]
  · simp [hLess]

end FinMap.Tabulates

namespace Genconfig

open Config (Failure Algorithm NetMap)

variable {checks : Bool}
variable {world : World}
variable {args : Args}

/- All of the effects succeed. -/
def Done
    (world : World)
    (effects : List Effect) : Prop :=
  ∀ effect ∈ effects, world.succeeds effect = true

theorem perform_eq_ok
    {effects : List Effect} :
    perform world effects = .ok () ↔
      Done world effects := by
  unfold perform Done
  rw [Result.forM_eq_ok]
  refine forall₂_congr fun effect _ => ?_
  cases world.succeeds effect with
  | false => simp
  | true => simp

/- The port of a base and an index, cut to 16 bits. -/
def port (base : Word 16) (index : Nat) : Nat :=
  (base.val + index) % 2 ^ 16

theorem addPort_eq_ok
    {base : Word 16}
    {index result : Nat} :
    addPort checks base.val index = .ok result ↔
      result = port base index ∧
        (checks = true →
          base.val + index % 2 ^ 16 < 2 ^ 16) := by
  unfold addPort port
  rw [Result.mapError_eq_ok, Config.wrap_eq_ok,
    Nat.add_mod_mod]

/- The ports of a node are numbers of 16 bits. -/
def Args.PortsFit (args : Args) (index : Nat) : Prop :=
  args.clientBasePort.val + index < 2 ^ 16 ∧
    args.mempoolBasePort.val + index < 2 ^ 16 ∧
    args.basePort.val + index < 2 ^ 16

instance (args : Args) (index : Nat) :
    Decidable (args.PortsFit index) :=
  inferInstanceAs (Decidable (_ ∧ _ ∧ _))

/- The node of an index, before the maps are shared. -/
def draftNode
    (world : World)
    (args : Args)
    (index : Nat) : Node :=
  newNode args (world.keys index) index
    (port args.clientBasePort index)
    (port args.mempoolBasePort index)

/- What the pass over the nodes has filled. -/
structure Drafted
    (checks : Bool)
    (world : World)
    (args : Args)
    (count : Nat)
    (draft : Draft) : Prop where
  ports :
    checks = true →
      ∀ index < count, args.PortsFit (index % 2 ^ 16)
  keys :
    ∀ index < count, Done world (keyEffects args index)
  certs :
    ∀ index < count, Done world (nodeCert args index)
  nodes :
    draft.nodes =
      (List.range count).map (draftNode world args)
  clients :
    ∃ net,
      draft.clients =
          List.replicate args.numClients.val
            (linked args net) ∧
        (count ≤ 2 ^ 16 →
          FinMap.Tabulates net count
            (fun index =>
              loopback (port args.clientBasePort index)))
  pk :
    count ≤ 2 ^ 16 →
      args.algorithm = .ed25519 →
        FinMap.Tabulates draft.pk count
          (fun index => (world.keys index).publicKey)
  ip :
    count ≤ 2 ^ 16 →
      FinMap.Tabulates draft.ip.val count
        (fun index => loopback (port args.basePort index))
  mempoolIp :
    count ≤ 2 ^ 16 →
      FinMap.Tabulates draft.mempoolIp count
        (fun index =>
          loopback (port args.mempoolBasePort index))

theorem drafted_newDraft :
    Drafted checks world args 0 (newDraft args) where
  ports := fun _ _ hIndex => absurd hIndex (Nat.not_lt_zero _)
  keys := fun _ hIndex => absurd hIndex (Nat.not_lt_zero _)
  certs := fun _ hIndex => absurd hIndex (Nat.not_lt_zero _)
  nodes := rfl
  clients := ⟨∅, rfl, fun _ => FinMap.Tabulates.empty _⟩
  pk := fun _ _ => FinMap.Tabulates.empty _
  ip := fun _ => FinMap.Tabulates.empty _
  mempoolIp := fun _ => FinMap.Tabulates.empty _

/- One more index of a counted loop. -/
theorem forall_lt_succ
    {P : Nat → Prop}
    {count : Nat}
    (hBefore : ∀ index < count, P index)
    (hLast : P count) :
    ∀ index < count + 1, P index := by
  intro index hIndex
  rcases Nat.lt_succ_iff_lt_or_eq.mp hIndex with hLess | hSame
  · exact hBefore index hLess
  · exact hSame ▸ hLast

/- One turn of the pass over the nodes. -/
theorem addNode_ok
    {index : Nat}
    {draft draft' : Draft}
    (hDraft : Drafted checks world args index draft)
    (hAdd :
      addNode checks world args draft index = .ok draft') :
    Drafted checks world args (index + 1) draft' := by
  rcases Result.bind_eq_ok.mp hAdd with
    ⟨clientPort, hClient, hAdd⟩
  rcases Result.bind_eq_ok.mp hAdd with
    ⟨mempoolPort, hMempool, hAdd⟩
  rcases Result.bind_eq_ok.mp hAdd with ⟨_, hKey, hAdd⟩
  rcases Result.bind_eq_ok.mp hAdd with
    ⟨basePort, hBase, hAdd⟩
  rcases Result.bind_eq_ok.mp hAdd with ⟨_, hCert, hAdd⟩
  rcases addPort_eq_ok.mp hClient with ⟨rfl, hClientFits⟩
  rcases addPort_eq_ok.mp hMempool with
    ⟨rfl, hMempoolFits⟩
  rcases addPort_eq_ok.mp hBase with ⟨rfl, hBaseFits⟩
  cases hAdd
  have hCut :
      index + 1 ≤ 2 ^ 16 → index % 2 ^ 16 = index := by
    intro hCount
    exact Nat.mod_eq_of_lt hCount
  refine
    { ports := ?_
      keys := forall_lt_succ hDraft.keys
        (perform_eq_ok.mp hKey)
      certs := forall_lt_succ hDraft.certs
        (perform_eq_ok.mp hCert)
      nodes := ?_
      clients := ?_
      pk := ?_
      ip := ?_
      mempoolIp := ?_ }
  · intro hChecks
    exact forall_lt_succ (hDraft.ports hChecks)
      ⟨hClientFits hChecks, hMempoolFits hChecks,
        hBaseFits hChecks⟩
  · rw [List.range_succ, List.map_append, ← hDraft.nodes]
    rfl
  · rcases hDraft.clients with ⟨net, hClients, hNet⟩
    refine ⟨net.insert (index % 2 ^ 16)
      (loopback (port args.clientBasePort index)), ?_, ?_⟩
    · dsimp only
      rw [hClients, List.map_replicate]
      rfl
    · intro hCount
      rw [hCut hCount]
      exact (hNet (by omega)).insert
  · intro hCount hAlgorithm
    have hTable := hDraft.pk (by omega) hAlgorithm
    dsimp only
    rw [hCut hCount, hAlgorithm]
    exact hTable.insert
  · intro hCount
    have hTable := (hDraft.ip (by omega)).insert
    unfold NetMap.insert
    dsimp only
    rw [hCut hCount]
    exact hTable
  · intro hCount
    dsimp only
    rw [hCut hCount]
    exact (hDraft.mempoolIp (by omega)).insert

theorem addNode_returns
    {index : Nat}
    (hPorts :
      checks = true → args.PortsFit (index % 2 ^ 16))
    (hKey : Done world (keyEffects args index))
    (hCert : Done world (nodeCert args index))
    (draft : Draft) :
    ∃ draft',
      addNode checks world args draft index =
        .ok draft' := by
  refine Result.bind_returns (addPort_eq_ok.mpr
    ⟨rfl, fun hChecks => (hPorts hChecks).1⟩) ?_
  refine Result.bind_returns (addPort_eq_ok.mpr
    ⟨rfl, fun hChecks => (hPorts hChecks).2.1⟩) ?_
  refine Result.bind_returns (perform_eq_ok.mpr hKey) ?_
  refine Result.bind_returns (addPort_eq_ok.mpr
    ⟨rfl, fun hChecks => (hPorts hChecks).2.2⟩) ?_
  exact Result.bind_returns (perform_eq_ok.mpr hCert)
    ⟨_, rfl⟩

/- The client of an index, with its identity. -/
def identified
    (args : Args)
    (client : Config.Client)
    (index : Nat) : Config.Client :=
  { client with
    myId := index
    myListenAddr :=
      loopback (port args.clientListenPort index) }

/- What the pass over the clients has filled. -/
structure Minted
    (checks : Bool)
    (world : World)
    (args : Args)
    (client : Config.Client)
    (count : Nat)
    (minted : List Config.Client × FinMap ClientId String) :
    Prop where
  ports :
    checks = true →
      ∀ index < count,
        args.clientListenPort.val + index < 2 ^ 16
  certs :
    ∀ index < count, Done world (clientCert args index)
  clients :
    minted.1 =
      (List.range args.numClients.val).map
        (fun index =>
          if index < count then identified args client index
          else client)
  net :
    FinMap.Tabulates minted.2 count
      (fun index =>
        loopback (port args.clientListenPort index))

theorem minted_start
    (client : Config.Client) :
    Minted checks world args client 0
      (List.replicate args.numClients.val client, ∅) where
  ports := fun _ _ hIndex => absurd hIndex (Nat.not_lt_zero _)
  certs := fun _ hIndex => absurd hIndex (Nat.not_lt_zero _)
  clients := by
    simp [List.map_const']
  net := FinMap.Tabulates.empty _

theorem mintClient_ok
    {client : Config.Client}
    {index : Nat}
    {minted minted' :
      List Config.Client × FinMap ClientId String}
    (hMinted : Minted checks world args client index minted)
    (hMint :
      mintClient checks world args minted index =
        .ok minted') :
    Minted checks world args client (index + 1) minted' := by
  rcases Result.bind_eq_ok.mp hMint with
    ⟨listen, hListen, hMint⟩
  rcases Result.bind_eq_ok.mp hMint with ⟨_, hCert, hMint⟩
  rw [Result.mapError_eq_ok, Config.wrap_eq_ok] at hListen
  rcases hListen with ⟨rfl, hFits⟩
  cases hMint
  refine
    { ports := ?_
      certs := forall_lt_succ hMinted.certs
        (perform_eq_ok.mp hCert)
      clients := ?_
      net := ?_ }
  · intro hChecks
    exact forall_lt_succ (hMinted.ports hChecks)
      (hFits hChecks)
  · dsimp only
    rw [hMinted.clients]
    apply List.ext_getElem?
    intro other
    rw [List.getElem?_modify, List.getElem?_map,
      List.getElem?_map]
    by_cases hLess : other < args.numClients.val
    · rw [List.getElem?_range hLess]
      by_cases hSame : index = other
      · subst hSame
        simp [identified, port]
      · have hIff : other < index + 1 ↔ other < index := by
          omega
        simp only [Option.map_some, hIff]
        simp [hSame]
    · rw [List.getElem?_eq_none (by simpa using hLess)]
      simp
  · exact hMinted.net.insert

end Genconfig

end LibApollo

------------------------------------------------------------
-- When the Generator Succeeds
------------------------------------------------------------

namespace LibApollo

namespace Genconfig

open Config (Failure Algorithm NetMap Passes)

variable {checks : Bool}
variable {world : World}
variable {given : Matches}
variable {args : Args}
variable {out : Output}

/- Everything that a complete run asks for, in parts. -/
def Args.effects (args : Args) : List Effect :=
  rootEffects args ++
    (List.range args.numNodes.val).flatMap
      (fun index =>
        keyEffects args index ++ nodeCert args index ++
          nodeFile args index) ++
    (List.range args.numClients.val).flatMap
      (fun index =>
        clientCert args index ++ clientFile args index) ++
    configEffects args "client"

/-
  There are at most as many nodes as replica ids and more
  than twice as many as faults, the keys are not empty and,
  with overflow checks, all sums fit.  Certificates are
  signed for the given addresses, and all files written.
-/
structure Args.Fits
    (checks : Bool)
    (world : World)
    (args : Args) : Prop where
  nodes : args.numNodes.val ≤ 2 ^ 16
  checked : checks = true → 2 * args.numFaults.val < 2 ^ 64
  faults :
    2 * args.numFaults.val % 2 ^ 64 < args.numNodes.val
  keys :
    ∀ index < args.numNodes.val,
      (world.keys index).secretKey ≠ [] ∧
        (world.keys index).publicKey ≠ []
  ports :
    checks = true →
      ∀ index < args.numNodes.val, args.PortsFit index
  listen :
    checks = true →
      ∀ index < args.numClients.val,
        args.clientListenPort.val + index < 2 ^ 16
  effects : Done world args.effects

theorem done_append
    {first second : List Effect} :
    Done world (first ++ second) ↔
      Done world first ∧ Done world second :=
  List.forall_mem_append

theorem done_flatMap_range
    {count : Nat}
    {effects : Nat → List Effect} :
    Done world ((List.range count).flatMap effects) ↔
      ∀ index < count, Done world (effects index) := by
  unfold Done
  simp only [List.mem_flatMap, List.mem_range]
  constructor
  · intro hAll index hIndex effect hMem
    exact hAll effect ⟨index, hIndex, hMem⟩
  · intro hAll effect hMem
    rcases hMem with ⟨index, hIndex, hMem⟩
    exact hAll index hIndex effect hMem

/- The effects of a run, by the place that asks for them. -/
theorem done_effects_iff :
    Done world args.effects ↔
      ((Done world (rootEffects args) ∧
            ∀ index < args.numNodes.val,
              (Done world (keyEffects args index) ∧
                  Done world (nodeCert args index)) ∧
                Done world (nodeFile args index)) ∧
          ∀ index < args.numClients.val,
            Done world (clientCert args index) ∧
              Done world (clientFile args index)) ∧
        Done world (configEffects args "client") := by
  unfold Args.effects
  simp only [done_append, done_flatMap_range]

/- The maps of a deployment. -/
structure Maps where
  pk : FinMap Replica Bytes
  ip : NetMap
  mempoolIp : FinMap Replica String
  clientNet : FinMap ClientId String
  serverNet : FinMap Replica String

/- The maps list the keys and addresses of all. -/
structure Maps.Filled
    (world : World)
    (args : Args)
    (maps : Maps) : Prop where
  pk :
    FinMap.Tabulates maps.pk args.numNodes.val
      (fun index => (world.keys index).publicKey)
  ip :
    FinMap.Tabulates maps.ip.val args.numNodes.val
      (fun index => loopback (port args.basePort index))
  mempoolIp :
    FinMap.Tabulates maps.mempoolIp args.numNodes.val
      (fun index =>
        loopback (port args.mempoolBasePort index))
  clientNet :
    FinMap.Tabulates maps.clientNet args.numClients.val
      (fun index =>
        loopback (port args.clientListenPort index))
  serverNet :
    FinMap.Tabulates maps.serverNet args.numNodes.val
      (fun index =>
        loopback (port args.clientBasePort index))

/- The node of an index with the maps. -/
def Maps.node
    (maps : Maps)
    (world : World)
    (args : Args)
    (index : Nat) : Node :=
  { draftNode world args index with
    pkMap := maps.pk
    netMap := maps.ip.val
    mempoolNetMap := maps.mempoolIp
    clientNetMap := maps.clientNet
    net_lt := maps.ip.property }

/- The client of an index with the maps. -/
def Maps.client
    (maps : Maps)
    (args : Args)
    (index : Nat) : Config.Client :=
  keyed maps.pk
    (identified args (linked args maps.serverNet) index)

/- The common fields of generated configurations pass. -/
theorem passes_of_tables
    {netMap : FinMap Replica String}
    {pk : FinMap Replica Bytes}
    {addr : Nat → String}
    (hAlgorithm : args.algorithm = .ed25519)
    (hFits : args.Fits checks world)
    (hNet :
      FinMap.Tabulates netMap args.numNodes.val addr)
    (hPk :
      FinMap.Tabulates pk args.numNodes.val
        (fun index => (world.keys index).publicKey)) :
    Passes checks netMap args.numNodes.val
      args.numFaults.val args.algorithm pk where
  length := by
    rw [hNet.keys_eq, Finset.card_range]
  checked := hFits.checked
  faults := hFits.faults
  entries := by
    intro replica hMem
    rw [hNet.keys_eq] at hMem
    exact Finset.mem_range.mp hMem
  algorithm := by
    rw [hAlgorithm]
    decide
  keyEntries := by
    intro replica hMem
    rw [hPk.keys_eq, Finset.mem_range] at hMem
    refine ⟨hMem, ?_⟩
    rw [hPk, if_pos hMem]
    exact (hFits.keys replica hMem).2

/- The secret key of a generated node is its own. -/
theorem draftNode_secretKeyBytes
    (hAlgorithm : args.algorithm = .ed25519)
    (index : Nat) :
    (draftNode world args index).secretKeyBytes =
      (world.keys index).secretKey := by
  unfold draftNode newNode
  dsimp only
  rw [hAlgorithm]

/- What a run has done: two passes, and all the files. -/
structure Generated
    (checks : Bool)
    (world : World)
    (args : Args)
    (out : Output)
    (draft : Draft)
    (clientNetMap : FinMap ClientId String)
    (net : FinMap Replica String) : Prop where
  root : Done world (rootEffects args)
  drafted :
    Drafted checks world args args.numNodes.val draft
  serverNet :
    args.numNodes.val ≤ 2 ^ 16 →
      FinMap.Tabulates net args.numNodes.val
        (fun index =>
          loopback (port args.clientBasePort index))
  minted :
    Minted checks world args (linked args net)
      args.numClients.val
      ((List.range args.numClients.val).map
        (identified args (linked args net)), clientNetMap)
  nodes :
    out.nodes =
      (List.range args.numNodes.val).map
        (fun index =>
          shareMaps draft clientNetMap
            (draftNode world args index))
  clients :
    out.clients =
      (List.range args.numClients.val).map
        (fun index =>
          keyed draft.pk
            (identified args (linked args net) index))
  nodeFiles :
    ∀ index < args.numNodes.val,
      Done world (nodeFile args index) ∧
        Config.validate checks
            (shareMaps draft clientNetMap
              (draftNode world args index)).toNode = .ok ()
  clientFiles :
    ∀ index < args.numClients.val,
      Done world (clientFile args index) ∧
        Config.Client.validate checks
            (keyed draft.pk
              (identified args (linked args net) index)) =
          .ok ()
  canonical : Done world (configEffects args "client")

/- Both kinds of files are written and then checked. -/
theorem written_eq_ok
    {effects : List Effect}
    {check : Except Failure Unit} :
    (do
        perform world effects
        check.mapError Panic.stopped) = .ok () ↔
      Done world effects ∧ check = .ok () := by
  rw [Result.bind_eq_ok]
  constructor
  · intro hBoth
    rcases hBoth with ⟨_, hPerform, hCheck⟩
    exact ⟨perform_eq_ok.mp hPerform,
      Result.mapError_eq_ok.mp hCheck⟩
  · intro hBoth
    exact ⟨(), perform_eq_ok.mpr hBoth.1,
      Result.mapError_eq_ok.mpr hBoth.2⟩

theorem writeNodes_eq_ok
    {count : Nat}
    {node : Nat → Node} :
    ((List.range count).map node).zipIdx.forM
          (writeNode checks world args) = .ok () ↔
      ∀ index < count,
        Done world (nodeFile args index) ∧
          Config.validate checks (node index).toNode =
            .ok () := by
  rw [Result.forM_zipIdx_eq_ok]
  exact forall₂_congr fun _ _ => written_eq_ok

theorem writeClients_eq_ok
    {count : Nat}
    {client : Nat → Config.Client} :
    ((List.range count).map client).zipIdx.forM
          (writeClient checks world args) = .ok () ↔
      ∀ index < count,
        Done world (clientFile args index) ∧
          (client index).validate checks = .ok () := by
  rw [Result.forM_zipIdx_eq_ok]
  exact forall₂_congr fun _ _ => written_eq_ok

theorem generate_eq_ok
    (hGenerate : generate checks world args = .ok out) :
    ∃ draft clientNetMap net,
      Generated checks world args out draft clientNetMap
        net := by
  rcases Result.bind_eq_ok.mp hGenerate with
    ⟨_, hRoot, hGenerate⟩
  rcases Result.bind_eq_ok.mp hGenerate with
    ⟨draft, hDraft, hGenerate⟩
  rcases Result.bind_eq_ok.mp hGenerate with
    ⟨⟨clients, clientNetMap⟩, hMint, hGenerate⟩
  rcases Result.bind_eq_ok.mp hGenerate with
    ⟨_, hNodes, hGenerate⟩
  rcases Result.bind_eq_ok.mp hGenerate with
    ⟨_, hClients, hGenerate⟩
  rcases Result.bind_eq_ok.mp hGenerate with
    ⟨_, hCanonical, hGenerate⟩
  have hDrafted :=
    Result.loop_ok (Drafted checks world args) hDraft
      drafted_newDraft
      (fun _ _ _ _ hInv hAdd => addNode_ok hInv hAdd)
  rcases hDrafted.clients with ⟨net, hReplicated, hNet⟩
  rw [hReplicated] at hMint
  have hMinted :=
    Result.loop_ok
      (Minted checks world args (linked args net))
      hMint (minted_start _)
      (fun _ _ _ _ hInv hAdd => mintClient_ok hInv hAdd)
  have hAll :
      clients =
        (List.range args.numClients.val).map
          (identified args (linked args net)) := by
    refine hMinted.clients.trans ?_
    apply List.map_congr_left
    intro index hIndex
    exact if_pos (List.mem_range.mp hIndex)
  subst hAll
  cases hGenerate
  rw [hDrafted.nodes, List.map_map] at hNodes
  rw [List.map_map] at hClients
  exact
    ⟨draft, clientNetMap, net,
      { root := perform_eq_ok.mp hRoot
        drafted := hDrafted
        serverNet := hNet
        minted := hMinted
        nodes := by
          dsimp only
          rw [hDrafted.nodes, List.map_map]
          rfl
        clients := by
          dsimp only
          rw [List.map_map]
          rfl
        nodeFiles := writeNodes_eq_ok.mp hNodes
        clientFiles := writeClients_eq_ok.mp hClients
        canonical := perform_eq_ok.mp hCanonical }⟩

theorem node_validated
    {node : Node}
    (hGenerate : generate checks world args = .ok out)
    (hNode : node ∈ out.nodes) :
    Config.validate checks node.toNode = .ok () := by
  rcases generate_eq_ok hGenerate with ⟨_, _, _, hRun⟩
  rw [hRun.nodes] at hNode
  rcases List.mem_map.mp hNode with ⟨index, hIndex, rfl⟩
  exact (hRun.nodeFiles index (List.mem_range.mp hIndex)).2

section

variable {draft : Draft}
variable {clientNetMap : FinMap ClientId String}
variable {net : FinMap Replica String}

/- There is a first client, and it passes its validation. -/
theorem Generated.passes
    (hRun :
      Generated checks world args out draft clientNetMap
        net) :
    Passes checks net args.numNodes.val
      args.numFaults.val args.algorithm draft.pk :=
  Config.Client.validate_eq_ok.mp
    (hRun.clientFiles 0 args.clients_pos).2

/- So there is a first node, whose addresses bound all. -/
theorem Generated.nodes_le
    (hRun :
      Generated checks world args out draft clientNetMap
        net) :
    args.numNodes.val ≤ 2 ^ 16 := by
  have hLess := hRun.passes.faults
  exact (Config.validate_facts
    (hRun.nodeFiles 0 (by omega)).2).nodes_le

theorem Generated.keys_ne_nil
    (hAlgorithm : args.algorithm = .ed25519)
    (hRun :
      Generated checks world args out draft clientNetMap
        net)
    {index : Nat}
    (hIndex : index < args.numNodes.val) :
    (world.keys index).secretKey ≠ [] ∧
      (world.keys index).publicKey ≠ [] := by
  constructor
  · have hSecret :=
      (Config.validate_eq_ok.mp
        (hRun.nodeFiles index hIndex).2).2
    change
      (draftNode world args index).secretKeyBytes ≠ []
      at hSecret
    rwa [draftNode_secretKeyBytes hAlgorithm] at hSecret
  · have hPk :=
      hRun.drafted.pk hRun.nodes_le hAlgorithm
    have hMem : index ∈ draft.pk.keys := by
      rw [hPk.keys_eq]
      exact Finset.mem_range.mpr hIndex
    have hEntry := (hRun.passes.keyEntries index hMem).2
    rwa [hPk, if_pos hIndex] at hEntry

theorem Generated.effects
    (hRun :
      Generated checks world args out draft clientNetMap
        net) :
    Done world args.effects := by
  refine done_effects_iff.mpr
    ⟨⟨⟨hRun.root, ?_⟩, ?_⟩, hRun.canonical⟩
  · intro index hIndex
    exact ⟨⟨hRun.drafted.keys index hIndex,
      hRun.drafted.certs index hIndex⟩,
      (hRun.nodeFiles index hIndex).1⟩
  · intro index hIndex
    exact ⟨hRun.minted.certs index hIndex,
      (hRun.clientFiles index hIndex).1⟩

theorem Generated.fits
    (hAlgorithm : args.algorithm = .ed25519)
    (hRun :
      Generated checks world args out draft clientNetMap
        net) :
    args.Fits checks world where
  nodes := hRun.nodes_le
  checked := hRun.passes.checked
  faults := hRun.passes.faults
  keys := fun _ hIndex =>
    hRun.keys_ne_nil hAlgorithm hIndex
  ports := by
    intro hChecks index hIndex
    have hFew := hRun.nodes_le
    have hPorts := hRun.drafted.ports hChecks index hIndex
    rwa [Nat.mod_eq_of_lt (by omega)] at hPorts
  listen := hRun.minted.ports
  effects := hRun.effects

end

/- What is generated, from arguments that fit. -/
theorem generate_ok
    (hAlgorithm : args.algorithm = .ed25519)
    (hGenerate : generate checks world args = .ok out) :
    args.Fits checks world ∧
      ∃ maps : Maps,
        maps.Filled world args ∧
          out.nodes =
            (List.range args.numNodes.val).map
              (maps.node world args) ∧
          out.clients =
            (List.range args.numClients.val).map
              (maps.client args) := by
  rcases generate_eq_ok hGenerate with
    ⟨draft, clientNetMap, net, hRun⟩
  have hMany := hRun.nodes_le
  refine ⟨hRun.fits hAlgorithm,
    ⟨draft.pk, draft.ip, draft.mempoolIp, clientNetMap,
      net⟩, ?_, hRun.nodes, hRun.clients⟩
  exact
    { pk := hRun.drafted.pk hMany hAlgorithm
      ip := hRun.drafted.ip hMany
      mempoolIp := hRun.drafted.mempoolIp hMany
      clientNet := hRun.minted.net
      serverNet := hRun.serverNet hMany }

theorem addNodes_returns
    (hFits : args.Fits checks world) :
    ∃ draft,
      (List.range args.numNodes.val).foldlM
            (addNode checks world args) (newDraft args) =
          .ok draft ∧
        Drafted checks world args args.numNodes.val
          draft := by
  refine Result.loop_returns (Drafted checks world args)
    drafted_newDraft ?_
  intro index before hIndex hInv
  have hCut : index % 2 ^ 16 = index :=
    Nat.mod_eq_of_lt
      (Nat.lt_of_lt_of_le hIndex hFits.nodes)
  have hPorts :
      checks = true → args.PortsFit (index % 2 ^ 16) := by
    rw [hCut]
    exact fun hChecks => hFits.ports hChecks index hIndex
  have hEffects :=
    ((done_effects_iff.mp hFits.effects).1.1.2 index
      hIndex).1
  rcases addNode_returns hPorts hEffects.1 hEffects.2
      before with
    ⟨after, hAdd⟩
  exact ⟨after, hAdd, addNode_ok hInv hAdd⟩

theorem mintClients_returns
    (client : Config.Client)
    (hFits : args.Fits checks world) :
    ∃ minted,
      (List.range args.numClients.val).foldlM
            (mintClient checks world args)
            (List.replicate args.numClients.val client, ∅) =
          .ok minted ∧
        Minted checks world args client args.numClients.val
          minted := by
  refine Result.loop_returns
    (Minted checks world args client)
    (minted_start client) ?_
  intro index before hIndex hInv
  have hListen :=
    Result.mapError_eq_ok (f := Panic.stopped) |>.mpr
      (Config.wrap_eq_ok.mpr
        ⟨rfl, fun hChecks =>
          hFits.listen hChecks index hIndex⟩)
  have hCert :=
    ((done_effects_iff.mp hFits.effects).1.2 index hIndex).1
  have hMint :
      ∃ after,
        mintClient checks world args before index =
          .ok after :=
    Result.bind_returns hListen
      (Result.bind_returns (perform_eq_ok.mpr hCert)
        ⟨_, rfl⟩)
  rcases hMint with ⟨after, hMint⟩
  exact ⟨after, hMint, mintClient_ok hInv hMint⟩

theorem generate_returns
    (hAlgorithm : args.algorithm = .ed25519)
    (hFits : args.Fits checks world) :
    ∃ out, generate checks world args = .ok out := by
  rcases done_effects_iff.mp hFits.effects with
    ⟨⟨⟨hRoot, hNodeEffects⟩, hClientEffects⟩,
      hCanonical⟩
  rcases addNodes_returns hFits with
    ⟨draft, hLoop, hDraft⟩
  rcases hDraft.clients with ⟨net, hReplicated, hNet⟩
  rcases mintClients_returns (linked args net) hFits with
    ⟨⟨clients, clientNetMap⟩, hMint, hMinted⟩
  have hPk := hDraft.pk hFits.nodes hAlgorithm
  have hNodes :
      (draft.nodes.map
            (shareMaps draft clientNetMap)).zipIdx.forM
          (writeNode checks world args) = .ok () := by
    rw [hDraft.nodes, List.map_map, writeNodes_eq_ok]
    intro index hIndex
    refine ⟨(hNodeEffects index hIndex).2,
      Config.validate_eq_ok.mpr
        ⟨passes_of_tables hAlgorithm hFits
          (hDraft.ip hFits.nodes) hPk, ?_⟩⟩
    change (draftNode world args index).secretKeyBytes ≠ []
    rw [draftNode_secretKeyBytes hAlgorithm]
    exact (hFits.keys index hIndex).1
  have hClients :
      (clients.map (keyed draft.pk)).zipIdx.forM
          (writeClient checks world args) = .ok () := by
    rw [show clients = _ from hMinted.clients, List.map_map,
      writeClients_eq_ok]
    intro index hIndex
    refine ⟨(hClientEffects index hIndex).2, ?_⟩
    rw [Function.comp_apply, if_pos hIndex]
    exact Config.Client.validate_eq_ok.mpr
      (passes_of_tables hAlgorithm hFits (hNet hFits.nodes)
        hPk)
  refine Result.bind_returns (perform_eq_ok.mpr hRoot) ?_
  refine Result.bind_returns hLoop ?_
  rw [hReplicated]
  refine Result.bind_returns hMint ?_
  refine Result.bind_returns hNodes ?_
  refine Result.bind_returns hClients ?_
  exact Result.bind_returns (perform_eq_ok.mpr hCanonical)
    ⟨_, rfl⟩

/- What is read, and what it generates. -/
theorem main_eq_ok :
    main checks world given = .ok out ↔
      ∃ args : Args,
        args.Reads checks given ∧
          generate checks world args = .ok out := by
  unfold main
  rw [Result.bind_eq_ok]
  simp only [Args.parse_eq_ok]

/- The values read decide the rest of the run. -/
theorem generate_of_main
    (hMain : main checks world given = .ok out)
    (hReads : args.Reads checks given) :
    generate checks world args = .ok out := by
  rcases Result.bind_eq_ok.mp hMain with
    ⟨other, hParse, hGenerate⟩
  rw [Args.parse_eq_ok.mpr hReads] at hParse
  cases hParse
  exact hGenerate

theorem main_ok
    (hMain : main checks world given = .ok out)
    (hReads : args.Reads checks given) :
    args.Fits checks world ∧
      ∃ maps : Maps,
        maps.Filled world args ∧
          out.nodes =
            (List.range args.numNodes.val).map
              (maps.node world args) ∧
          out.clients =
            (List.range args.numClients.val).map
              (maps.client args) :=
  generate_ok hReads.algorithm
    (generate_of_main hMain hReads)

section

open Result (Yields)

theorem stopped_missing
    {A : Type}
    (result : Except Failure A) :
    Yields OnlyTarget (fun _ => True)
      (result.mapError .stopped) := by
  cases result with
  | ok a => trivial
  | error failure => exact nofun

theorem perform_missing
    (effects : List Effect) :
    Yields OnlyTarget (fun _ => True)
      (perform world effects) := by
  refine Yields.forM (fun effect => ?_) effects
  split
  · trivial
  · exact nofun

theorem addNode_missing
    (draft : Draft)
    (index : Nat) :
    Yields OnlyTarget (fun _ => True)
      (addNode checks world args draft index) := by
  refine (stopped_missing _).bind fun _ _ => ?_
  refine (stopped_missing _).bind fun _ _ => ?_
  refine (perform_missing _).bind fun _ _ => ?_
  refine (stopped_missing _).bind fun _ _ => ?_
  refine (perform_missing _).bind fun _ _ => ?_
  trivial

theorem mintClient_missing
    (minted : List Config.Client × FinMap ClientId String)
    (index : Nat) :
    Yields OnlyTarget (fun _ => True)
      (mintClient checks world args minted index) := by
  refine (stopped_missing _).bind fun _ _ => ?_
  refine (perform_missing _).bind fun _ _ => ?_
  trivial

theorem writeNode_missing
    (entry : Node × Nat) :
    Yields OnlyTarget (fun _ => True)
      (writeNode checks world args entry) := by
  refine (perform_missing _).bind fun _ _ => ?_
  exact stopped_missing _

theorem writeClient_missing
    (entry : Config.Client × Nat) :
    Yields OnlyTarget (fun _ => True)
      (writeClient checks world args entry) := by
  refine (perform_missing _).bind fun _ _ => ?_
  exact stopped_missing _

/- Once the command line is read, nothing is missing. -/
theorem generate_missing :
    Yields OnlyTarget (fun _ => True)
      (generate checks world args) := by
  refine (perform_missing _).bind fun _ _ => ?_
  refine (Yields.foldlM (fun _ _ => True)
    (fun index _ draft _ => addNode_missing draft index)
    _ trivial).bind fun _ _ => ?_
  refine (Yields.foldlM (fun _ _ => True)
    (fun index _ minted _ =>
      mintClient_missing minted index)
    _ trivial).bind fun _ _ => ?_
  refine (Yields.forM writeNode_missing _).bind
    fun _ _ => ?_
  refine (Yields.forM writeClient_missing _).bind
    fun _ _ => ?_
  refine (perform_missing _).bind fun _ _ => ?_
  trivial

theorem main_missing
    {name : String}
    (hMissing :
      main checks world given = .error (.missing name)) :
    name = "target" := by
  have hMain :
      Yields OnlyTarget (fun _ => True)
        (main checks world given) :=
    (Args.parse_missing checks world given).bind
      fun _ _ => generate_missing
  rw [hMissing] at hMain
  exact hMain name rfl

end

/-
  The tool succeeds exactly when the command line can be
  read, with a target among it, and what is read fits.  Of
  the arguments only the target can be found missing.
-/
theorem generator_succeeds_iff
    (checks : Bool)
    (world : World)
    (given : Matches) :
    ((∃ out, main checks world given = .ok out) ↔
        ∃ args : Args,
          args.Reads checks given ∧
            args.Fits checks world) ∧
      ∀ name,
        main checks world given = .error (.missing name) →
          name = "target" := by
  refine ⟨?_, fun _ => main_missing⟩
  simp only [main_eq_ok]
  constructor
  · intro hReturns
    rcases hReturns with ⟨out, args, hReads, hGenerate⟩
    exact ⟨args, hReads,
      (generate_ok hReads.algorithm hGenerate).1⟩
  · intro hReads
    rcases hReads with ⟨args, hReads, hFits⟩
    rcases generate_returns hReads.algorithm hFits with
      ⟨out, hGenerate⟩
    exact ⟨out, args, hReads, hGenerate⟩

end Genconfig

end LibApollo
