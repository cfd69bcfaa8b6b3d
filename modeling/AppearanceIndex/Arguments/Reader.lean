import AppearanceIndex.Arguments.Parameter
import AppearanceIndex.Index.Chunks

/-!
# Reading the command line

The words of a command line are taken one by one. A word that begins with a hyphen names an option,
unless a lone `--` has come before; the value of an option is attached to it or is the next word.
What was named last is settled only when the next option, the next argument or the end comes; until
then, a fault of another kind wins over a fault of its value.
-/

namespace AppearanceIndex

inductive Command where
  /-- Prints the appearances of an address. -/
  | find (address : Address) (chain : String) (sort : Bool)
  /-- Adds the appearances of a chain to the appearance file. -/
  | ingest (chain : String) (window : BlockWindow)

/-- A command and where its configuration is. -/
structure Arguments where
  configPath : Path
  command : Command

/-! ## Words -/

inductive ArgumentWord where
  /-- Two hyphens alone: no more options. -/
  | endOfOptions
  | long (name : String) (attached : Option String)
  | short (letter : Char) (rest : List Char)
  | plain

namespace ArgumentWord

/-- A long option, with its value behind the first equals sign. -/
def ofLong (cs : List Char) : ArgumentWord :=
  match cs.dropWhile (· ≠ '=') with
  | [] => long (String.ofList cs) none
  | _ :: attached => long (String.ofList (cs.takeWhile (· ≠ '='))) (some (String.ofList attached))

/-- What a word looks like. A hyphen alone is a plain word. -/
def ofText (word : String) : ArgumentWord :=
  match word.toList with
  | ['-', '-'] => endOfOptions
  | '-' :: '-' :: cs => ofLong cs
  | '-' :: c :: cs => short c cs
  | _ => plain

/-- The value behind the letter of an option; an equals sign may stand between them. -/
def attached? : List Char → Option String
  | [] => none
  | '=' :: cs => some (String.ofList cs)
  | cs => some (String.ofList cs)

end ArgumentWord

inductive CommandName where
  | find
  | ingest
  | help
deriving DecidableEq

def CommandName.ofText? : String → Option CommandName
  | "find" => some find
  | "ingest" => some ingest
  | "help" => some help
  | _ => none

/-! ## Word by word -/

/-- What was read of the arguments of one level. -/
structure ArgumentReader where
  settings : Settings
  /-- What was named last, with its value once that is known. -/
  pending : Option (Parameter × Option String)
  optionsEnded : Bool

namespace ArgumentReader

def start : ArgumentReader := ⟨.none, none, false⟩

def awaitsValue (r : ArgumentReader) : Bool := r.pending matches some (_, none)

/-- Sets what was named last. -/
def settle (r : ArgumentReader) : Except ArgumentFault ArgumentReader :=
  match r.pending with
  | none => .ok r
  | some (p, word) =>
    (r.settings.assign p word).map fun settings => { r with settings, pending := none }

/-- An option with its value, or one whose value comes next, or a flag. -/
def onParameter (r : ArgumentReader) (p : Parameter) (attached : Option String) :
    Except ArgumentFault ArgumentReader := do
  let r ← r.settle
  if p.takesValue ∧ attached = none then return { r with pending := some (p, none) }
  else return { r with settings := ← r.settings.assign p attached }

def onSwitch (r : ArgumentReader) (switch : Switch) (attached : Option String) :
    Except ArgumentFault ArgumentReader :=
  match switch with
  | .parameter p =>
    if p.takesValue ∨ attached = none then r.onParameter p attached else .error .unexpectedValue
  | .help =>
    if attached = none then r.settle.bind fun _ => .error .helpRequested
    else .error .unexpectedValue
  | .version =>
    if attached = none then r.settle.bind fun _ => .error .versionRequested
    else .error .unexpectedValue

def onLetter (r : ArgumentReader) (switch : Switch) (rest : List Char) :
    Except ArgumentFault ArgumentReader :=
  match switch with
  | .parameter p => r.onSwitch (.parameter p) (ArgumentWord.attached? rest)
  | other => r.onSwitch other none

/-- The parameter was named or set. -/
def has (r : ArgumentReader) (p : Parameter) : Bool :=
  r.settings.has p || r.pending.any (·.1 = p)

/-- The fault of an argument for which there is no place. -/
def misplaced (r : ArgumentReader) (level : ArgumentLevel) (word : String) : ArgumentFault :=
  if level = .program ∧ ¬(r.optionsEnded ∧ (CommandName.ofText? word).isSome) then .unknownCommand
  else .unknownArgument

def onUnnamed (r : ArgumentReader) (level : ArgumentLevel) (word : String) :
    Except ArgumentFault ArgumentReader :=
  match level.unnamed? with
  | none => .error (r.misplaced level word)
  | some p =>
    if r.has p then .error (r.misplaced level word)
    else r.settle.map fun r => { r with pending := some (p, some word) }

def take (level : ArgumentLevel) (r : ArgumentReader) (word : String) :
    Except ArgumentFault ArgumentReader :=
  if r.optionsEnded then r.onUnnamed level word
  else
    match ArgumentWord.ofText word with
    | .endOfOptions => .ok { r with optionsEnded := true }
    | .long name attached =>
      match level.long? name with
      | some switch => r.onSwitch switch attached
      | none => .error .unknownArgument
    | .short letter rest =>
      match level.short? letter with
      | some switch => r.onLetter switch rest
      | none => .error .unknownArgument
    | .plain =>
      match r.pending with
      | some (p, none) => .ok { r with pending := some (p, some word) }
      | _ => r.onUnnamed level word

def readAll (level : ArgumentLevel) (words : List String) : Except ArgumentFault Settings := do
  let r ← words.foldlM (take level) start
  return (← r.settle).settings

end ArgumentReader

/-! ## Commands -/

namespace Command

/-- The chain of a command that names none. -/
def defaultChain : String := "mainnet"

def readFind (words : List String) : Except ArgumentFault Command := do
  let s ← ArgumentReader.readAll .find words
  match s.address with
  | some address => return find address (s.chain.getD defaultChain) s.sort
  | none => .error .missingArgument

def readIngest (words : List String) : Except ArgumentFault Command := do
  let s ← ArgumentReader.readAll .ingest words
  return ingest (s.chain.getD defaultChain) ⟨s.fromBlock, s.toBlock⟩

/-- Help is available on the program as a whole and on each command. -/
def readHelp : List String → Except ArgumentFault Command
  | [] => .error .helpRequested
  | [word] =>
    .error (if (CommandName.ofText? word).isSome then .helpRequested else .unknownCommand)
  | _ => .error .unknownCommand

def read : CommandName → List String → Except ArgumentFault Command
  | .find, words => readFind words
  | .ingest, words => readIngest words
  | .help, words => readHelp words

end Command

namespace Arguments

/-- Where the configuration is unless the command line says otherwise. -/
def defaultConfigPath : Path := ⟨"unchained.toml"⟩

/-- The command that begins with a word, unless the word is the value of an option. -/
def command? (r : ArgumentReader) (word : String) : Option CommandName :=
  if r.optionsEnded ∨ r.awaitsValue then none else CommandName.ofText? word

def readFrom (r : ArgumentReader) : List String → Except ArgumentFault Arguments
  | [] => do
    let r ← r.settle
    .error (if r.settings.configPath.isSome then .missingCommand else .noArguments)
  | word :: words =>
    match command? r word with
    | some name => do
      let command ← Command.read name words
      let r ← r.settle
      return ⟨r.settings.configPath.getD defaultConfigPath, command⟩
    | none => do readFrom (← r.take .program word) words

/-- Reads a command line without the name of the program. -/
def read (words : List String) : Except ArgumentFault Arguments := readFrom .start words

end Arguments

end AppearanceIndex
