import LibApollo.Config

/-
  The command line of the tool that writes configurations.

  The parser of the command line matches the texts against a
  table of declared arguments; the tool then reads them under
  their names and turns them into numbers of the width of the
  variable that receives them.  The algorithm is read under a
  name that the table does not have.

  Key definitions include:
    * `Genconfig.Word`, `Genconfig.parseUnsigned`
    * `Genconfig.cli`, `Genconfig.Matches`
    * `Genconfig.Args`, `Genconfig.Args.parse`
    * `Genconfig.Args.Reads`

  Key theorems include:
    * `Genconfig.Matches.valueOf_algorithm`
    * `Genconfig.Args.parse_eq_ok`
    * `Genconfig.Args.parse_missing`
-/

------------------------------------------------------------
-- Numbers and Lists in Texts
------------------------------------------------------------

namespace LibApollo

namespace Genconfig

/- The values of an unsigned type of so many bits. -/
abbrev Word (bits : Nat) :=
  { value : Nat // value < 2 ^ bits }

/- `as`, into a type of so many bits. -/
def Word.cut (bits value : Nat) : Word bits :=
  ⟨value % 2 ^ bits, Nat.mod_lt _ (Nat.two_pow_pos bits)⟩

/- A decimal number in range, with or without a plus sign. -/
def parseUnsigned
    (bits : Nat)
    (text : List Char) : Option (Word bits) :=
  let digits : List Char :=
    match text with
    | '+' :: rest => rest
    | text => text
  let value : Nat :=
    digits.foldl
      (fun acc c => acc * 10 + (c.toNat - '0'.toNat)) 0
  if digits ≠ [] ∧ digits.all Char.isDigit then
    if hFits : value < 2 ^ bits then
      some ⟨value, hFits⟩
    else
      none
  else
    none

/- The characters of Unicode that `trim` removes. -/
def isWhiteSpace (c : Char) : Bool :=
  decide (9 ≤ c.toNat ∧ c.toNat ≤ 13) ||
    decide (0x2000 ≤ c.toNat ∧ c.toNat ≤ 0x200A) ||
    [0x20, 0x85, 0xA0, 0x1680, 0x2028, 0x2029, 0x202F,
      0x205F, 0x3000].contains c.toNat

def trim (text : List Char) : List Char :=
  ((text.dropWhile isWhiteSpace).reverse.dropWhile
    isWhiteSpace).reverse

/- Addresses between commas, without the empty ones. -/
def parseIpList (spec : Option String) : List String :=
  match spec with
  | none => []
  | some text =>
      ((text.toList.splitOn ',').map
        (fun part => String.ofList (trim part))).filter
        (· ≠ "")

example :
    parseIpList (some " 10.0.0.1,,10.0.0.2 ") =
      ["10.0.0.1", "10.0.0.2"] := by
  decide

end Genconfig

end LibApollo

------------------------------------------------------------
-- Arguments
------------------------------------------------------------

namespace LibApollo

namespace Genconfig

open Config (Failure Algorithm)

/- What the tool asks of libraries and the file system. -/
inductive Effect where
| newRootCert
| createDir (target : String)
| certFile (target name : String)
| keyPair (index : Nat)
| signedCert (owner : String) (ips : List String)
| configFile (path : String)
deriving DecidableEq, Repr

/- A panic of the tool, or the error that it returns. -/
inductive Panic where
| missing (name : String)
| notANumber (name : String)
| noClients
| badPort
| stopped (failure : Failure)
| failed (effect : Effect)
deriving DecidableEq, Repr

/- The serialised halves of a generated key pair. -/
structure KeyPair where
  secretKey : Bytes
  publicKey : Bytes

/-
  What surrounds a run: which of its effects succeed, the
  keys that are generated, and the algorithms by name.
-/
structure World where
  succeeds : Effect → Bool
  keys : Nat → KeyPair
  algorithmNamed : String → Option Algorithm
  named_ed25519 : algorithmNamed "ED25519" = some .ed25519

/- A declared argument; no values listed means any value. -/
structure Declared where
  name : String
  required : Bool
  possibleValues : List String
deriving DecidableEq

/- The table `cli.yml`. -/
def cli : List Declared :=
  [⟨"num_nodes", true, []⟩,
    ⟨"delay", true, []⟩,
    ⟨"block_size", true, []⟩,
    ⟨"client_base_port", true, []⟩,
    ⟨"base_port", true, []⟩,
    ⟨"crypto", false, ["ED25519", "SECP256K1"]⟩,
    ⟨"num_faults", false, []⟩,
    ⟨"out_type", false,
      ["json", "binary", "toml", "yaml"]⟩,
    ⟨"target", false, []⟩,
    ⟨"payload", false, []⟩,
    ⟨"client_listen_port", true, []⟩,
    ⟨"num_clients", false, []⟩,
    ⟨"mempool_base_port", true, []⟩,
    ⟨"node_ips", false, []⟩,
    ⟨"client_ips", false, []⟩]

/- A command line that the parser of the table lets pass. -/
structure Matches where
  valueOf : String → Option String
  declared :
    ∀ name text,
      valueOf name = some text →
        ∃ argument ∈ cli, argument.name = name
  required :
    ∀ argument ∈ cli,
      argument.required = true →
        (valueOf argument.name).isSome
  possible :
    ∀ argument ∈ cli,
      ∀ text,
        valueOf argument.name = some text →
          argument.possibleValues = [] ∨
            text ∈ argument.possibleValues

namespace Matches

/- Pairs of names and texts that pass, as `Matches` asks. -/
def Listed (pairs : List (String × String)) : Prop :=
  (∀ pair ∈ pairs,
      ∃ argument ∈ cli, argument.name = pair.1) ∧
    ∀ argument ∈ cli,
      (argument.required = true →
          (pairs.lookup argument.name).isSome) ∧
        ∀ text ∈ pairs.lookup argument.name,
          argument.possibleValues = [] ∨
            text ∈ argument.possibleValues

instance (pairs : List (String × String)) :
    Decidable (Listed pairs) :=
  inferInstanceAs (Decidable (_ ∧ _))

def ofPairs
    (pairs : List (String × String))
    (hListed : Listed pairs) : Matches where
  valueOf := fun name => pairs.lookup name
  declared := by
    intro name text hLookup
    rcases List.lookup_eq_some_iff.mp hLookup with
      ⟨before, after, hPairs, -⟩
    apply hListed.1 (name, text)
    rw [hPairs]
    exact List.mem_append_cons_self
  required := fun argument hMem =>
    (hListed.2 argument hMem).1
  possible := fun argument hMem =>
    (hListed.2 argument hMem).2

/- No argument is declared under the name that is read. -/
theorem valueOf_algorithm
    (given : Matches) :
    given.valueOf "algorithm" = none := by
  cases hValue : given.valueOf "algorithm" with
  | none => rfl
  | some text =>
      rcases given.declared _ _ hValue with
        ⟨argument, hMem, hName⟩
      have hOther :
          ∀ argument ∈ cli,
            argument.name ≠ "algorithm" := by
        decide
      exact absurd hName (hOther argument hMem)

/- `value_of(name).expect(..)` -/
def expected
    (given : Matches)
    (name : String) : Except Panic String :=
  match given.valueOf name with
  | some text => .ok text
  | none => .error (.missing name)

/- `value_of(name).unwrap_or(default)` -/
def textOr
    (given : Matches)
    (name default : String) : String :=
  (given.valueOf name).getD default

end Matches

/- `text.parse::<_>().expect(..)` -/
def number
    (bits : Nat)
    (name text : String) : Except Panic (Word bits) :=
  match parseUnsigned bits text.toList with
  | some value => .ok value
  | none => .error (.notANumber name)

/- A number that has to be given. -/
def Matches.numberOf
    (given : Matches)
    (bits : Nat)
    (name : String) : Except Panic (Word bits) := do
  let text ← given.expected name
  number bits name text

/- `(num_nodes-1)/2` -/
def defaultFaults
    (checks : Bool)
    (numNodes : Word 64) : Except Failure (Word 64) := do
  let others ← Config.subUsize checks numNodes.val 1
  .ok (Word.cut 64 (others / 2))

/- The values that are read from the command line. -/
structure Args where
  numNodes : Word 64
  numFaults : Word 64
  delay : Word 64
  basePort : Word 16
  blockSize : Word 64
  clientBasePort : Word 16
  algorithm : Algorithm
  outType : String
  target : String
  payload : Word 64
  clientListenPort : Word 16
  mempoolBasePort : Word 16
  numClients : Word 16
  nodeIps : List String
  clientIps : List String
  clients_pos : 0 < numClients.val

def Matches.numFaults
    (given : Matches)
    (checks : Bool)
    (numNodes : Word 64) : Except Panic (Word 64) :=
  match given.valueOf "num_faults" with
  | some text => number 64 "num_faults" text
  | none => (defaultFaults checks numNodes).mapError .stopped

/- The first part of `main`, up to the lists of addresses. -/
def Args.parse
    (checks : Bool)
    (world : World)
    (given : Matches) : Except Panic Args := do
  let numNodes ← given.numberOf 64 "num_nodes"
  let numFaults ← given.numFaults checks numNodes
  let delay ← given.numberOf 64 "delay"
  let basePort ← given.numberOf 16 "base_port"
  let blockSize ← given.numberOf 64 "block_size"
  let clientBasePort ← given.numberOf 16 "client_base_port"
  let target ← given.expected "target"
  let payload ←
    number 64 "payload" (given.textOr "payload" "0")
  let clientListenPort ←
    given.numberOf 16 "client_listen_port"
  let mempoolBasePort ←
    given.numberOf 16 "mempool_base_port"
  let numClients ←
    number 16 "num_clients" (given.textOr "num_clients" "1")
  if hClients : 0 < numClients.val then
    .ok
      { numNodes := numNodes
        numFaults := numFaults
        delay := delay
        basePort := basePort
        blockSize := blockSize
        clientBasePort := clientBasePort
        algorithm :=
          (world.algorithmNamed
            (given.textOr "algorithm" "ED25519")).getD
            .ed25519
        outType := given.textOr "out_type" "json"
        target := target
        payload := payload
        clientListenPort := clientListenPort
        mempoolBasePort := mempoolBasePort
        numClients := numClients
        nodeIps := parseIpList (given.valueOf "node_ips")
        clientIps := parseIpList (given.valueOf "client_ips")
        clients_pos := hClients }
  else
    .error .noClients

end Genconfig

end LibApollo

------------------------------------------------------------
-- What is Read
------------------------------------------------------------

namespace LibApollo

namespace Genconfig

variable {bits : Nat}
variable {given : Matches}

/- A text under the name spells the number. -/
def Matches.Spells
    (given : Matches)
    (name : String)
    (value : Word bits) : Prop :=
  ∃ text,
    given.valueOf name = some text ∧
      parseUnsigned bits text.toList = some value

/-
  Every number that is required is spelled by its text in
  the range of its type, and so is an optional one when it
  is given.  A target is given.
-/
structure Args.Reads
    (checks : Bool)
    (given : Matches)
    (args : Args) : Prop where
  numNodes : given.Spells "num_nodes" args.numNodes
  numFaults :
    given.Spells "num_faults" args.numFaults ∨
      given.valueOf "num_faults" = none ∧
        defaultFaults checks args.numNodes =
          .ok args.numFaults
  delay : given.Spells "delay" args.delay
  basePort : given.Spells "base_port" args.basePort
  blockSize : given.Spells "block_size" args.blockSize
  clientBasePort :
    given.Spells "client_base_port" args.clientBasePort
  algorithm : args.algorithm = .ed25519
  outType : args.outType = given.textOr "out_type" "json"
  target : given.valueOf "target" = some args.target
  payload :
    parseUnsigned 64 (given.textOr "payload" "0").toList =
      some args.payload
  clientListenPort :
    given.Spells "client_listen_port" args.clientListenPort
  mempoolBasePort :
    given.Spells "mempool_base_port" args.mempoolBasePort
  numClients :
    parseUnsigned 16
        (given.textOr "num_clients" "1").toList =
      some args.numClients
  nodeIps :
    args.nodeIps = parseIpList (given.valueOf "node_ips")
  clientIps :
    args.clientIps = parseIpList (given.valueOf "client_ips")

theorem expected_eq_ok
    {name text : String} :
    given.expected name = .ok text ↔
      given.valueOf name = some text := by
  unfold Matches.expected
  cases given.valueOf name with
  | none => simp
  | some other => simp

theorem number_eq_ok
    {name text : String}
    {value : Word bits} :
    number bits name text = .ok value ↔
      parseUnsigned bits text.toList = some value := by
  unfold number
  cases parseUnsigned bits text.toList with
  | none => simp
  | some other => simp

theorem numberOf_eq_ok
    {name : String}
    {value : Word bits} :
    given.numberOf bits name = .ok value ↔
      given.Spells name value := by
  unfold Matches.numberOf Matches.Spells
  rw [Result.bind_eq_ok]
  simp only [expected_eq_ok, number_eq_ok]

theorem numFaults_eq_ok
    {checks : Bool}
    {numNodes numFaults : Word 64} :
    given.numFaults checks numNodes = .ok numFaults ↔
      given.Spells "num_faults" numFaults ∨
        given.valueOf "num_faults" = none ∧
          defaultFaults checks numNodes = .ok numFaults := by
  unfold Matches.numFaults Matches.Spells
  cases given.valueOf "num_faults" with
  | none => simp [Result.mapError_eq_ok]
  | some text => simp [number_eq_ok]

/- The algorithm is always the default. -/
theorem algorithm_read
    (world : World)
    (given : Matches) :
    (world.algorithmNamed
        (given.textOr "algorithm" "ED25519")).getD
        .ed25519 = .ed25519 := by
  unfold Matches.textOr
  rw [given.valueOf_algorithm, Option.getD_none,
    world.named_ed25519, Option.getD_some]

namespace Args

variable {checks : Bool}
variable {world : World}
variable {args : Args}

theorem reads_of_parse
    (hParse : Args.parse checks world given = .ok args) :
    args.Reads checks given := by
  rcases Result.bind_eq_ok.mp hParse with
    ⟨numNodes, hNodes, hParse⟩
  rcases Result.bind_eq_ok.mp hParse with
    ⟨numFaults, hFaults, hParse⟩
  rcases Result.bind_eq_ok.mp hParse with
    ⟨delay, hDelay, hParse⟩
  rcases Result.bind_eq_ok.mp hParse with
    ⟨basePort, hBase, hParse⟩
  rcases Result.bind_eq_ok.mp hParse with
    ⟨blockSize, hBlock, hParse⟩
  rcases Result.bind_eq_ok.mp hParse with
    ⟨clientBasePort, hClientBase, hParse⟩
  rcases Result.bind_eq_ok.mp hParse with
    ⟨target, hTarget, hParse⟩
  rcases Result.bind_eq_ok.mp hParse with
    ⟨payload, hPayload, hParse⟩
  rcases Result.bind_eq_ok.mp hParse with
    ⟨clientListenPort, hListen, hParse⟩
  rcases Result.bind_eq_ok.mp hParse with
    ⟨mempoolBasePort, hMempool, hParse⟩
  rcases Result.bind_eq_ok.mp hParse with
    ⟨numClients, hClients, hParse⟩
  by_cases hPos : 0 < numClients.val
  · rw [dif_pos hPos] at hParse
    cases hParse
    exact
      { numNodes := numberOf_eq_ok.mp hNodes
        numFaults := numFaults_eq_ok.mp hFaults
        delay := numberOf_eq_ok.mp hDelay
        basePort := numberOf_eq_ok.mp hBase
        blockSize := numberOf_eq_ok.mp hBlock
        clientBasePort := numberOf_eq_ok.mp hClientBase
        algorithm := algorithm_read world given
        outType := rfl
        target := expected_eq_ok.mp hTarget
        payload := number_eq_ok.mp hPayload
        clientListenPort := numberOf_eq_ok.mp hListen
        mempoolBasePort := numberOf_eq_ok.mp hMempool
        numClients := number_eq_ok.mp hClients
        nodeIps := rfl
        clientIps := rfl }
  · rw [dif_neg hPos] at hParse
    cases hParse

theorem parse_of_reads
    (hReads : args.Reads checks given) :
    Args.parse checks world given = .ok args := by
  refine Result.bind_eq_ok.mpr
    ⟨_, numberOf_eq_ok.mpr hReads.numNodes, ?_⟩
  refine Result.bind_eq_ok.mpr
    ⟨_, numFaults_eq_ok.mpr hReads.numFaults, ?_⟩
  refine Result.bind_eq_ok.mpr
    ⟨_, numberOf_eq_ok.mpr hReads.delay, ?_⟩
  refine Result.bind_eq_ok.mpr
    ⟨_, numberOf_eq_ok.mpr hReads.basePort, ?_⟩
  refine Result.bind_eq_ok.mpr
    ⟨_, numberOf_eq_ok.mpr hReads.blockSize, ?_⟩
  refine Result.bind_eq_ok.mpr
    ⟨_, numberOf_eq_ok.mpr hReads.clientBasePort, ?_⟩
  refine Result.bind_eq_ok.mpr
    ⟨_, expected_eq_ok.mpr hReads.target, ?_⟩
  refine Result.bind_eq_ok.mpr
    ⟨_, number_eq_ok.mpr hReads.payload, ?_⟩
  refine Result.bind_eq_ok.mpr
    ⟨_, numberOf_eq_ok.mpr hReads.clientListenPort, ?_⟩
  refine Result.bind_eq_ok.mpr
    ⟨_, numberOf_eq_ok.mpr hReads.mempoolBasePort, ?_⟩
  refine Result.bind_eq_ok.mpr
    ⟨_, number_eq_ok.mpr hReads.numClients, ?_⟩
  rw [dif_pos args.clients_pos]
  congr
  · exact (algorithm_read world given).trans
      hReads.algorithm.symm
  · exact hReads.outType.symm
  · exact hReads.nodeIps.symm
  · exact hReads.clientIps.symm

/- Exactly the command lines that can be read are. -/
theorem parse_eq_ok :
    Args.parse checks world given = .ok args ↔
      args.Reads checks given :=
  ⟨reads_of_parse, parse_of_reads⟩

end Args

end Genconfig

end LibApollo

------------------------------------------------------------
-- What can be Missing
------------------------------------------------------------

namespace LibApollo

namespace Genconfig

open Result (Yields)

variable {bits : Nat}
variable {given : Matches}

/- If an argument is missing, it is the target. -/
def OnlyTarget (panic : Panic) : Prop :=
  ∀ name, panic = .missing name → name = "target"

theorem number_missing
    {name text : String} :
    Yields OnlyTarget (fun _ => True)
      (number bits name text) := by
  unfold number
  cases parseUnsigned bits text.toList with
  | none => exact nofun
  | some value => trivial

/- The table requires what has no default. -/
theorem numberOf_missing
    {argument : Declared}
    (hMem : argument ∈ cli)
    (hRequired : argument.required = true) :
    Yields OnlyTarget (fun _ => True)
      (given.numberOf bits argument.name) := by
  have hGiven := given.required argument hMem hRequired
  rcases Option.isSome_iff_exists.mp hGiven with
    ⟨text, hText⟩
  unfold Matches.numberOf
  rw [expected_eq_ok.mpr hText]
  exact number_missing

theorem numFaults_missing
    {checks : Bool}
    {numNodes : Word 64} :
    Yields OnlyTarget (fun _ => True)
      (given.numFaults checks numNodes) := by
  unfold Matches.numFaults
  cases given.valueOf "num_faults" with
  | some text => exact number_missing
  | none =>
      cases defaultFaults checks numNodes with
      | ok value => trivial
      | error failure => exact nofun

theorem target_missing :
    Yields OnlyTarget (fun _ => True)
      (given.expected "target") := by
  unfold Matches.expected
  cases given.valueOf "target" with
  | some text => trivial
  | none =>
      intro name hName
      cases hName
      rfl

/- Only the target can be missing when the tool reads. -/
theorem Args.parse_missing
    (checks : Bool)
    (world : World)
    (given : Matches) :
    Yields OnlyTarget (fun _ => True)
      (Args.parse checks world given) := by
  have hRequired :
      ∀ bits name,
        ⟨name, true, []⟩ ∈ cli →
          Yields OnlyTarget (fun _ => True)
            (given.numberOf bits name) :=
    fun _ _ hMem => numberOf_missing hMem rfl
  refine (hRequired 64 _ (by decide)).bind fun _ _ => ?_
  refine numFaults_missing.bind fun _ _ => ?_
  refine (hRequired 64 _ (by decide)).bind fun _ _ => ?_
  refine (hRequired 16 _ (by decide)).bind fun _ _ => ?_
  refine (hRequired 64 _ (by decide)).bind fun _ _ => ?_
  refine (hRequired 16 _ (by decide)).bind fun _ _ => ?_
  refine target_missing.bind fun _ _ => ?_
  refine number_missing.bind fun _ _ => ?_
  refine (hRequired 16 _ (by decide)).bind fun _ _ => ?_
  refine (hRequired 16 _ (by decide)).bind fun _ _ => ?_
  refine number_missing.bind fun numClients _ => ?_
  by_cases hClients : 0 < numClients.val
  · rw [dif_pos hClients]
    trivial
  · rw [dif_neg hClients]
    exact nofun

end Genconfig

end LibApollo
