import LibApollo.Genconfig

/-
  Deployments: the generated configurations taken together,
  and the addresses that a node reads when it is started.

  A node that is given a list of addresses enters them under
  the replica ids in order, with a wildcard for its own, so
  that it binds to the port that the others know.

  Key definitions include:
    * `Genconfig.updateConfig`
    * `Genconfig.Entered`

  Key theorems include:
    * `Genconfig.updateConfig_validate_iff`
    * `Genconfig.generated_files_agree`
    * `Genconfig.generated_nodes_start`
-/

------------------------------------------------------------
-- Addresses at the Start
------------------------------------------------------------

namespace LibApollo

namespace Genconfig

open Config (NetMap)

/- What follows the last colon. -/
def lastPart (addr : String) : List Char :=
  (addr.toList.reverse.takeWhile (· ≠ ':')).reverse

example :
    (parseUnsigned 16 (lastPart "10.0.0.1:7000")).isSome ∧
      (parseUnsigned 16 (lastPart "10.0.0.1:70000")).isNone :=
  by decide

/- The address that a node enters for a replica. -/
def entered
    (id index : Nat)
    (addr : String) : Except Panic String :=
  if index = id then
    match parseUnsigned 16 (lastPart addr) with
    | none => .error .badPort
    | some port => .ok ("0.0.0.0:" ++ toString port.val)
  else
    .ok addr

/- One address of the list, under the next replica id. -/
def enter
    (checks : Bool)
    (id : Replica)
    (net : NetMap × Nat)
    (addr : String) : Except Panic (NetMap × Nat) := do
  let addr ← entered id net.2 addr
  let next ←
    (Config.wrap checks 16 (net.2 + 1)).mapError .stopped
  .ok (net.1.insert net.2 addr, next)

/- The addresses of the servers, its own as a wildcard. -/
def updateConfig
    (checks : Bool)
    (node : Config.Node)
    (ips : List String) : Except Panic Config.Node := do
  let (net, _) ←
    ips.foldlM (enter checks node.id)
      (⟨node.netMap, node.net_lt⟩, 0)
  .ok
    { node with
      netMap := net.val
      net_lt := net.property }

variable {checks : Bool}
variable {node node' : Config.Node}
variable {ips : List String}

/- The addresses that have been entered so far. -/
structure Entered
    (node : Config.Node)
    (ips : List String)
    (net : NetMap) : Prop where
  present :
    ∀ replica addr,
      ips[replica]? = some addr →
        ∃ address,
          entered node.id replica addr = .ok address ∧
            net.val.lookup replica = some address
  others :
    ∀ replica,
      ips.length ≤ replica →
        net.val.lookup replica = node.netMap.lookup replica

theorem enter_ok
    {done : List String}
    {addr : String}
    {net net' : NetMap}
    {next next' : Nat}
    (hEntered : Entered node done net)
    (hNext : next = done.length)
    (hFew : done.length + 1 < 2 ^ 16)
    (hEnter :
      enter checks node.id (net, next) addr =
        .ok (net', next')) :
    Entered node (done ++ [addr]) net' ∧
      next' = (done ++ [addr]).length := by
  rcases Result.bind_eq_ok.mp hEnter with
    ⟨address, hAddress, hEnter⟩
  rcases Result.bind_eq_ok.mp hEnter with
    ⟨following, hWrap, hEnter⟩
  rw [Result.mapError_eq_ok, Config.wrap_eq_ok] at hWrap
  rcases hWrap with ⟨rfl, -⟩
  cases hEnter
  subst hNext
  have hInsert :
      (net.insert done.length address).val =
        net.val.insert done.length address :=
    congrArg (net.val.insert · address)
      (Nat.mod_eq_of_lt (Nat.lt_of_succ_lt hFew))
  refine ⟨⟨?_, ?_⟩, ?_⟩
  · intro replica other hOther
    rw [hInsert, FinMap.lookup_insert_eq]
    by_cases hSame : replica = done.length
    · rw [hSame, List.getElem?_concat_length] at hOther
      cases hOther
      rw [if_pos hSame, hSame]
      exact ⟨address, hAddress, rfl⟩
    · rw [if_neg hSame]
      apply hEntered.present replica other
      have hLess := (List.getElem?_eq_some_iff.mp hOther).1
      rw [List.length_append, List.length_singleton] at hLess
      have hBefore : replica < done.length :=
        Nat.lt_of_le_of_ne (Nat.le_of_lt_succ hLess) hSame
      rwa [List.getElem?_append_left hBefore] at hOther
  · intro replica hBeyond
    rw [List.length_append, List.length_singleton] at hBeyond
    rw [hInsert, FinMap.lookup_insert_eq,
      if_neg (Nat.ne_of_gt hBeyond)]
    exact hEntered.others replica (Nat.le_of_lt hBeyond)
  · dsimp only
    rw [Nat.mod_eq_of_lt hFew, List.length_append,
      List.length_singleton]

theorem enterAll_ok
    {done rest : List String}
    {net net' : NetMap}
    {next next' : Nat}
    (hEntered : Entered node done net)
    (hNext : next = done.length)
    (hFew : (done ++ rest).length < 2 ^ 16)
    (hLoop :
      rest.foldlM (enter checks node.id) (net, next) =
        .ok (net', next')) :
    Entered node (done ++ rest) net' := by
  induction rest generalizing done net next with
  | nil =>
      cases hLoop
      rwa [List.append_nil]
  | cons addr rest ih =>
      rw [List.foldlM_cons] at hLoop
      rcases Result.bind_eq_ok.mp hLoop with
        ⟨⟨mid, following⟩, hEnter, hRest⟩
      rw [List.length_append, List.length_cons] at hFew
      rcases enter_ok hEntered hNext (by omega) hEnter with
        ⟨hMid, hFollowing⟩
      have hStill :
          (done ++ [addr] ++ rest).length < 2 ^ 16 := by
        simp only [List.length_append, List.length_singleton]
        omega
      have hAll := ih hMid hFollowing hStill hRest
      rwa [List.append_assoc, List.singleton_append] at hAll

/- A new list of addresses changes the addresses only. -/
theorem updateConfig_ok
    (hFew : ips.length < 2 ^ 16)
    (hUpdate : updateConfig checks node ips = .ok node') :
    ∃ net : NetMap,
      Entered node ips net ∧
        node' =
          { node with
            netMap := net.val
            net_lt := net.property } := by
  rcases Result.bind_eq_ok.mp hUpdate with
    ⟨⟨net, next⟩, hLoop, hUpdate⟩
  cases hUpdate
  have hStart :
      Entered node [] ⟨node.netMap, node.net_lt⟩ := by
    refine ⟨?_, fun _ _ => rfl⟩
    intro replica addr hAddr
    cases hAddr
  have hAll : Entered node ([] ++ ips) net :=
    enterAll_ok hStart rfl hFew hLoop
  exact ⟨net, hAll, rfl⟩

/- The replicas with an address, before and after. -/
theorem Entered.mem_keys
    {net : NetMap}
    (hEntered : Entered node ips net)
    (replica : Replica) :
    replica ∈ net.val.keys ↔
      replica < ips.length ∨ replica ∈ node.netMap.keys := by
  rw [Finmap.mem_keys, Finmap.mem_keys,
    ← Finmap.lookup_isSome, ← Finmap.lookup_isSome]
  by_cases hLess : replica < ips.length
  · rcases hEntered.present replica ips[replica]
        (List.getElem?_eq_getElem hLess) with
      ⟨address, -, hLookup⟩
    simp [hLookup, hLess]
  · rw [hEntered.others replica (Nat.not_lt.mp hLess)]
    simp [hLess]

/- The validation passes again unless there are too many. -/
theorem updateConfig_validate_iff
    (hValid : Config.validate checks node = .ok ())
    (hFew : ips.length < 2 ^ 16)
    (hUpdate : updateConfig checks node ips = .ok node') :
    Config.validate checks node' = .ok () ↔
      ips.length ≤ node.numNodes := by
  rcases updateConfig_ok hFew hUpdate with
    ⟨net, hEntered, rfl⟩
  rcases Config.validate_eq_ok.mp hValid with
    ⟨hPasses, hSecret⟩
  have hRange :
      node.netMap.keys = Finset.range node.numNodes := by
    apply Finset.eq_of_subset_of_card_le
    · intro replica hMem
      exact Finset.mem_range.mpr
        (hPasses.entries replica hMem)
    · rw [Finset.card_range, hPasses.length]
  have hKeys := hEntered.mem_keys
  rw [hRange] at hKeys
  rw [Config.validate_eq_ok]
  constructor
  · intro hAgain
    by_contra hMany
    have hMem : node.numNodes ∈ net.val.keys :=
      (hKeys _).mpr (.inl (Nat.not_le.mp hMany))
    exact Nat.lt_irrefl _ (hAgain.1.entries _ hMem)
  · intro hLength
    have hSame :
        net.val.keys = Finset.range node.numNodes := by
      ext replica
      rw [hKeys, Finset.mem_range]
      constructor
      · intro hEither
        rcases hEither with hListed | hOld
        · exact Nat.lt_of_lt_of_le hListed hLength
        · exact hOld
      · exact Or.inr
    refine ⟨{ hPasses with length := ?_, entries := ?_ },
      hSecret⟩
    · dsimp only
      rw [hSame, Finset.card_range]
    · dsimp only
      intro replica hMem
      rw [hSame] at hMem
      exact Finset.mem_range.mp hMem

end Genconfig

end LibApollo

------------------------------------------------------------
-- Deployments
------------------------------------------------------------

namespace LibApollo

theorem Config.Complete.sufficient
    {H : Type} [DecidableEq H] [Crypto H]
    {checks : Bool}
    {codec : KeyCodec}
    {config : Node}
    (hComplete : Complete checks config)
    (hValid : validate checks config = .ok ())
    (hDecodes : Decodes codec config) :
    Sufficient H checks codec config := by
  have hFacts := validate_facts hValid
  exact
    { artemis := hComplete.artemis hFacts hDecodes
      apollo := hComplete.apollo hFacts hDecodes
      synchs := hComplete.synchs hFacts hDecodes
      optsync := hComplete.optsync hFacts hDecodes }

namespace Genconfig

open Config (Sufficient Complete Decodes KeyCodec NetMap)

variable {checks : Bool}
variable {world : World}
variable {given : Matches}
variable {args : Args}
variable {out : Output}

/- Different nodes have different ports of a kind. -/
theorem port_injective
    {base : Word 16}
    {i j : Nat}
    (hI : i < 2 ^ 16)
    (hJ : j < 2 ^ 16)
    (hPort : port base i = port base j) :
    i = j := by
  unfold port at hPort
  omega

/-
  The files fit together: every node is reached under its
  own ports and known by its own key, every client under the
  address at which it listens.
-/
theorem generated_files_agree
    {i j : Nat}
    {node : Node}
    {client : Config.Client}
    (hMain : main checks world given = .ok out)
    (hReads : args.Reads checks given)
    (hNode : out.nodes[i]? = some node)
    (hClient : out.clients[j]? = some client) :
    node.id = i ∧
      node.secretKeyBytes = (world.keys i).secretKey ∧
      client.myId = j ∧
      client.netMap.lookup i =
        some (loopback node.clientPort) ∧
      client.serverPk = node.pkMap ∧
      (∀ k other, out.nodes[k]? = some other →
        other.pkMap.lookup i =
            some (world.keys i).publicKey ∧
          other.netMap.lookup i =
            some (loopback (port args.basePort i)) ∧
          other.mempoolNetMap.lookup i =
            some (loopback node.mempoolPort) ∧
          other.clientNetMap.lookup j =
            some client.myListenAddr ∧
          (other.clientPort = node.clientPort ∨
              other.mempoolPort = node.mempoolPort →
            k = i)) := by
  rcases main_ok hMain hReads with
    ⟨hFits, maps, hFilled, hNodes, hClients⟩
  have hLookup :
      ∀ k other, out.nodes[k]? = some other →
        k < args.numNodes.val ∧
          other = maps.node world args k := by
    intro k other hOther
    rw [hNodes, List.getElem?_map] at hOther
    rcases Option.map_eq_some_iff.mp hOther with
      ⟨index, hIndex, rfl⟩
    rcases List.getElem?_eq_some_iff.mp hIndex with
      ⟨hLess, rfl⟩
    rw [List.length_range] at hLess
    rw [List.getElem_range]
    exact ⟨hLess, rfl⟩
  rcases hLookup i node hNode with ⟨hI, rfl⟩
  rw [hClients, List.getElem?_map] at hClient
  rcases Option.map_eq_some_iff.mp hClient with
    ⟨index, hIndex, rfl⟩
  rcases List.getElem?_eq_some_iff.mp hIndex with
    ⟨hJ, rfl⟩
  rw [List.length_range] at hJ
  rw [List.getElem_range]
  have hCut :
      ∀ k < args.numNodes.val, k < 2 ^ 16 := by
    intro k hK
    exact Nat.lt_of_lt_of_le hK hFits.nodes
  refine ⟨Nat.mod_eq_of_lt (hCut i hI),
    draftNode_secretKeyBytes hReads.algorithm i,
    rfl, ?_, rfl, ?_⟩
  · exact (hFilled.serverNet i).trans (if_pos hI)
  · intro k other hOther
    rcases hLookup k other hOther with ⟨hK, rfl⟩
    refine ⟨(hFilled.pk i).trans (if_pos hI),
      (hFilled.ip i).trans (if_pos hI),
      (hFilled.mempoolIp i).trans (if_pos hI),
      (hFilled.clientNet j).trans (if_pos hJ), ?_⟩
    intro hPorts
    rcases hPorts with hSame | hSame
    · exact port_injective (hCut k hK) (hCut i hI) hSame
    · exact port_injective (hCut k hK) (hCut i hI) hSame

/- Three nodes and two clients. -/
def threeAndTwo : List (String × String) :=
  [("num_nodes", "3"), ("delay", "50"),
    ("base_port", "3000"), ("block_size", "400"),
    ("client_base_port", "4000"), ("crypto", "SECP256K1"),
    ("target", "out"), ("client_listen_port", "5000"),
    ("mempool_base_port", "6000"), ("num_clients", "2"),
    ("node_ips", "10.0.0.1,10.0.0.2")]

theorem threeAndTwo_listed :
    Matches.Listed threeAndTwo := by
  decide

def threeAndTwoGiven : Matches :=
  .ofPairs threeAndTwo threeAndTwo_listed

theorem two_clients : 0 < (Word.cut 16 2).val := by
  decide

def threeAndTwoArgs : Args where
  numNodes := Word.cut 64 3
  numFaults := Word.cut 64 1
  delay := Word.cut 64 50
  basePort := Word.cut 16 3000
  blockSize := Word.cut 64 400
  clientBasePort := Word.cut 16 4000
  algorithm := .ed25519
  outType := "json"
  target := "out"
  payload := Word.cut 64 0
  clientListenPort := Word.cut 16 5000
  mempoolBasePort := Word.cut 16 6000
  numClients := Word.cut 16 2
  nodeIps := ["10.0.0.1", "10.0.0.2"]
  clientIps := []
  clients_pos := two_clients

theorem threeAndTwo_reads :
    threeAndTwoArgs.Reads true threeAndTwoGiven where
  numNodes := ⟨"3", by decide⟩
  numFaults := .inr (by decide)
  delay := ⟨"50", by decide⟩
  basePort := ⟨"3000", by decide⟩
  blockSize := ⟨"400", by decide⟩
  clientBasePort := ⟨"4000", by decide⟩
  algorithm := rfl
  outType := by decide
  target := by decide
  payload := by decide
  clientListenPort := ⟨"5000", by decide⟩
  mempoolBasePort := ⟨"6000", by decide⟩
  numClients := by decide
  nodeIps := by decide
  clientIps := by decide

def smallKeys (index : Nat) : KeyPair where
  secretKey := [1]
  publicKey := [UInt8.ofNat index]

def smallWorld : World where
  succeeds := fun _ => true
  keys := smallKeys
  algorithmNamed := fun name =>
    if name = "ED25519" then some .ed25519
    else if name = "SECP256K1" then some .secp256k1
    else none
  named_ed25519 := rfl

theorem threeAndTwo_fits :
    threeAndTwoArgs.Fits true smallWorld where
  nodes := by decide
  checked := by decide
  faults := by decide
  keys := by decide
  ports := by decide
  listen := by decide
  effects := fun _ _ => rfl

theorem threeAndTwo_generates :
    ∃ out,
      main true smallWorld threeAndTwoGiven = .ok out := by
  rcases generate_returns rfl threeAndTwo_fits with
    ⟨out, hGenerate⟩
  exact ⟨out, main_eq_ok.mpr
    ⟨_, threeAndTwo_reads, hGenerate⟩⟩

theorem generated_files_agree_three_and_two :
    ∃ (out : Output) (node : Node) (client : Config.Client),
      main true smallWorld threeAndTwoGiven = .ok out ∧
        out.nodes[2]? = some node ∧
        out.clients[1]? = some client ∧
        client.netMap.lookup 2 =
          some (loopback node.clientPort) ∧
        node.clientNetMap.lookup 1 =
          some client.myListenAddr := by
  rcases threeAndTwo_generates with ⟨out, hMain⟩
  rcases main_ok hMain threeAndTwo_reads with
    ⟨-, maps, -, hNodes, hClients⟩
  have hNode :
      out.nodes[2]? =
        some (maps.node smallWorld threeAndTwoArgs 2) := by
    rw [hNodes]
    rfl
  have hClient :
      out.clients[1]? =
        some (maps.client threeAndTwoArgs 1) := by
    rw [hClients]
    rfl
  have hAgree :=
    generated_files_agree hMain threeAndTwo_reads hNode
      hClient
  exact ⟨out, _, _, hMain, hNode, hClient,
    hAgree.2.2.2.1,
    (hAgree.2.2.2.2.2 2 _ hNode).2.2.2.1⟩

variable {H : Type} [DecidableEq H] [Crypto H]
variable {codec : KeyCodec}

/- A generated node is complete, whatever its addresses. -/
theorem complete_of_main
    {node : Node}
    {config : Config.Node}
    (hMain : main checks world given = .ok out)
    (hReads : args.Reads checks given)
    (hPositive : 0 < args.numFaults.val)
    (hSmall : args.numFaults.val < 2 ^ 63)
    (hPayload :
      checks = true →
        args.payload.val * args.blockSize.val < 2 ^ 64)
    (hDelay : checks = true → 2 * args.delay.val < 2 ^ 64)
    (hCodec :
      ∀ index < args.numNodes.val,
        codec.secret args.algorithm
              (world.keys index).secretKey = true ∧
          codec.publicKey args.algorithm
              (world.keys index).publicKey = true)
    (hNode : node ∈ out.nodes)
    (hConfig :
      ∃ net : NetMap,
        config =
          { node.toNode with
            netMap := net.val
            net_lt := net.property }) :
    Complete checks config ∧ Decodes codec config := by
  rcases main_ok hMain hReads with
    ⟨-, maps, hFilled, hNodes, -⟩
  rw [hNodes] at hNode
  rcases List.mem_map.mp hNode with ⟨index, hIndex, rfl⟩
  rcases hConfig with ⟨net, rfl⟩
  have hKeys := hCodec index (List.mem_range.mp hIndex)
  constructor
  · refine
      { faults_pos := hPositive
        faults_lt := hSmall
        keys := ?_
        payload := hPayload
        delta := hDelay }
    intro replica hReplica _
    change replica ∈ maps.pk
    rw [← Finmap.lookup_isSome, hFilled.pk]
    rw [if_pos
      (show replica < args.numNodes.val from hReplica)]
    rfl
  · refine { secret := ?_, publicKeys := ?_ }
    · change codec.secret args.algorithm
        (draftNode world args index).secretKeyBytes = true
      rw [draftNode_secretKeyBytes hReads.algorithm]
      exact hKeys.1
    · intro replica bytes hBytes
      change maps.pk.lookup replica = some bytes at hBytes
      rw [hFilled.pk] at hBytes
      split at hBytes
      · rename_i hReplica
        cases hBytes
        exact (hCodec replica hReplica).2
      · cases hBytes

/-
  Every generated node starts under each of the protocols,
  and does after its addresses have been replaced.
-/
theorem generated_nodes_start
    (hMain : main checks world given = .ok out)
    (hReads : args.Reads checks given)
    (hPositive : 0 < args.numFaults.val)
    (hSmall : args.numFaults.val < 2 ^ 63)
    (hPayload :
      checks = true →
        args.payload.val * args.blockSize.val < 2 ^ 64)
    (hDelay : checks = true → 2 * args.delay.val < 2 ^ 64)
    (hCodec :
      ∀ index < args.numNodes.val,
        codec.secret args.algorithm
              (world.keys index).secretKey = true ∧
          codec.publicKey args.algorithm
              (world.keys index).publicKey = true) :
    ∀ node ∈ out.nodes,
      Sufficient H checks codec node.toNode ∧
        ∀ ips started,
          ips.length ≤ args.numNodes.val →
          ips.length < 2 ^ 16 →
          updateConfig checks node.toNode ips =
              .ok started →
            Config.validate checks started = .ok () ∧
              Sufficient H checks codec started := by
  intro node hNode
  have hValid :
      Config.validate checks node.toNode = .ok () :=
    node_validated (generate_of_main hMain hReads) hNode
  have hNumNodes : node.numNodes = args.numNodes.val := by
    rcases main_ok hMain hReads with
      ⟨-, maps, -, hNodes, -⟩
    rw [hNodes] at hNode
    rcases List.mem_map.mp hNode with ⟨index, -, rfl⟩
    rfl
  constructor
  · rcases complete_of_main hMain hReads hPositive hSmall
        hPayload hDelay hCodec hNode
        ⟨⟨node.netMap, node.net_lt⟩, rfl⟩ with
      ⟨hComplete, hDecodes⟩
    exact hComplete.sufficient hValid hDecodes
  · intro ips started hLength hFew hUpdate
    have hAgain :
        Config.validate checks started = .ok () :=
      (updateConfig_validate_iff hValid hFew hUpdate).mpr
        (hNumNodes ▸ hLength)
    rcases updateConfig_ok hFew hUpdate with ⟨net, -, hEq⟩
    rcases complete_of_main hMain hReads hPositive hSmall
        hPayload hDelay hCodec hNode ⟨net, hEq⟩ with
      ⟨hComplete, hDecodes⟩
    exact ⟨hAgain, hComplete.sufficient hAgain hDecodes⟩

theorem generated_nodes_start_two_addresses :
    ∃ (out : Output) (node : Node) (started : Config.Node),
      main true smallWorld threeAndTwoGiven = .ok out ∧
        node ∈ out.nodes ∧
        updateConfig true node.toNode
            ["10.0.0.1:7000", "10.0.0.2:7000"] =
          .ok started ∧
        Config.validate true started = .ok () ∧
        Sufficient Digest true Config.anyBlob started := by
  rcases threeAndTwo_generates with ⟨out, hMain⟩
  rcases main_ok hMain threeAndTwo_reads with
    ⟨-, maps, -, hNodes, -⟩
  have hNode :
      maps.node smallWorld threeAndTwoArgs 2 ∈
        out.nodes := by
    rw [hNodes]
    exact List.mem_map.mpr
      ⟨2, List.mem_range.mpr (by decide), rfl⟩
  have hUpdate :
      ∃ started,
        updateConfig true
            (maps.node smallWorld threeAndTwoArgs 2).toNode
            ["10.0.0.1:7000", "10.0.0.2:7000"] =
          .ok started :=
    ⟨_, rfl⟩
  rcases hUpdate with ⟨started, hUpdate⟩
  have hCodec :
      ∀ index < threeAndTwoArgs.numNodes.val,
        Config.anyBlob.secret threeAndTwoArgs.algorithm
              (smallKeys index).secretKey = true ∧
          Config.anyBlob.publicKey threeAndTwoArgs.algorithm
              (smallKeys index).publicKey = true :=
    fun _ _ => ⟨rfl, rfl⟩
  have hStart :=
    (generated_nodes_start (H := Digest) hMain
      threeAndTwo_reads (by decide) (by decide)
      (by decide) (by decide) hCodec _
      hNode).2 _ started
      (by decide) (by decide) hUpdate
  exact ⟨out, _, started, hMain, hNode, hUpdate,
    hStart.1, hStart.2⟩

end Genconfig

end LibApollo
