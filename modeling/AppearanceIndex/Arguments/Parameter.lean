import AppearanceIndex.Address
import AppearanceIndex.Files.Path
import AppearanceIndex.Text.Decimal

/-!
# Parameters of the command line

What can be set on the command line, by which name, and which values it takes. `Settings.assign`
sets a parameter once; a second time is a fault, and so is a value that the parameter does not
take.
-/

namespace AppearanceIndex

inductive ArgumentFault where
  | helpRequested
  | versionRequested
  | noArguments
  | missingCommand
  | unknownCommand
  | missingArgument
  | unknownArgument
  | repeatedArgument
  /-- An option ends the line, or another option follows where its value should be. -/
  | missingValue
  | emptyValue
  | invalidValue
  /-- A flag was given a value. -/
  | unexpectedValue
deriving DecidableEq

inductive Parameter where
  | configPath
  | address
  | chain
  | sort
  | fromBlock
  | toBlock
deriving DecidableEq

/-- All but flags take a value. -/
def Parameter.takesValue : Parameter → Bool
  | sort => false
  | _ => true

/-! ## Names -/

/-- Whose arguments are being read. -/
inductive ArgumentLevel where
  /-- Those in front of the command. -/
  | program
  | find
  | ingest
deriving DecidableEq

/-- What an option asks for. -/
inductive Switch where
  | parameter (p : Parameter)
  | help
  | version
deriving DecidableEq

namespace ArgumentLevel

/-- The option of a long name. -/
def long? : ArgumentLevel → String → Option Switch
  | _, "help" => some .help
  | program, "version" => some .version
  | program, "config-path" => some (.parameter .configPath)
  | find, "chain" => some (.parameter .chain)
  | find, "sort" => some (.parameter .sort)
  | ingest, "chain" => some (.parameter .chain)
  | ingest, "from-block" => some (.parameter .fromBlock)
  | ingest, "to-block" => some (.parameter .toBlock)
  | _, _ => none

def short? : ArgumentLevel → Char → Option Switch
  | _, 'h' => some .help
  | program, 'V' => some .version
  | program, 'c' => some (.parameter .configPath)
  | _, _ => none

/-- The parameter that is given without a name. -/
def unnamed? : ArgumentLevel → Option Parameter
  | find => some .address
  | _ => none

end ArgumentLevel

/-! ## Values -/

structure Settings where
  configPath : Option Path
  address : Option Address
  chain : Option String
  sort : Bool
  fromBlock : Option UInt64
  toBlock : Option UInt64

namespace Settings

def none : Settings := ⟨.none, .none, .none, false, .none, .none⟩

def has (s : Settings) : Parameter → Bool
  | .configPath => s.configPath.isSome
  | .address => s.address.isSome
  | .chain => s.chain.isSome
  | .sort => s.sort
  | .fromBlock => s.fromBlock.isSome
  | .toBlock => s.toBlock.isSome

/-- The number of a block. -/
def block (word : String) : Except ArgumentFault UInt64 :=
  match Decimal.unsigned? UInt64.size word.toList with
  | some n => .ok (UInt64.ofNat n)
  | .none => .error .invalidValue

def insert (s : Settings) (p : Parameter) (word : String) : Except ArgumentFault Settings :=
  match p with
  | .configPath =>
    if word = "" then .error .emptyValue else .ok { s with configPath := some ⟨word⟩ }
  | .address =>
    match Address.parse? word with
    | some address => .ok { s with address := some address }
    | .none => .error .invalidValue
  | .chain => .ok { s with chain := some word }
  | .sort => .ok { s with sort := true }
  | .fromBlock => (block word).map fun n => { s with fromBlock := some n }
  | .toBlock => (block word).map fun n => { s with toBlock := some n }

/-- Sets a parameter that was not set before. -/
def assign (s : Settings) (p : Parameter) (word : Option String) :
    Except ArgumentFault Settings :=
  if p.takesValue ∧ word = .none then .error .missingValue
  else if s.has p then .error .repeatedArgument
  else s.insert p (word.getD "")

end Settings

end AppearanceIndex
