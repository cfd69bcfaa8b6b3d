import AppearanceIndex.Program

/-!
# The command line

The outer layer brings what a command touches from the disk into a file store, runs the command
there, and then makes the disk agree: lines are printed, and files get what they have gained.
-/

namespace AppearanceIndex.CommandLine

/-! ## Messages -/

def usage : String :=
  "Usage: unchained [-c <CONFIG_PATH>] <COMMAND>\n\n" ++
  "Commands:\n" ++
  "  find [--chain <CHAIN>] [--sort] <ADDRESS>\n" ++
  "  ingest [--chain <CHAIN>] [--from-block <BLOCK>] [--to-block <BLOCK>]\n" ++
  "  help [COMMAND]\n"

def faultText : ArgumentFault → String
  | .helpRequested | .versionRequested | .noArguments => ""
  | .missingCommand => "a command is missing"
  | .unknownCommand => "there is no such command"
  | .missingArgument => "an argument is missing"
  | .unknownArgument => "there is no such argument"
  | .repeatedArgument => "an argument is given more than once"
  | .missingValue | .emptyValue => "an argument lacks its value"
  | .invalidValue => "an argument has an invalid value"
  | .unexpectedValue => "a flag takes no value"

/-- A text whose lines stand behind a margin, the first of them behind a label as wide. -/
def labelled (label text : String) : String :=
  ("\n" ++ "".pushn ' ' label.length).intercalate (text.splitOn "\n") |> (label ++ ·)

def numbered (cause : String × Nat) : String :=
  let number := Decimal.render cause.2
  labelled ("".pushn ' ' (5 - number.length) ++ number ++ ": ") cause.1

def account (f : Failure) : String :=
  let causes := match f.chain with
    | [cause] => [labelled "    " cause]
    | causes => causes.zipIdx.map numbered
  "Error: run unchained\n\nCaused by:\n" ++ "\n".intercalate causes

/-! ## From the disk -/

def textOf (place : Place) : String := "/" ++ "/".intercalate place

/-- Brings what is at a place into the store. -/
def loadPlace (files : FileStore) (place : Place) : IO FileStore := do
  if (files.node? place).isSome then return files
  match ← (IO.FS.realPath (textOf place)).toBaseIO with
  | .error _ => return files
  | .ok path =>
    match (← path.metadata).type with
    | .dir => return files.put place .directory
    | .file => return files.put place (.file (← IO.FS.readBinFile path).toList)
    | _ => return files.put place (.device (place = ["dev", "full"]))

def loadPath (files : FileStore) (path : Path) : IO FileStore := do
  let follow (state : Place × FileStore) (name : String) : IO (Place × FileStore) := do
    let place :=
      if name = "." then state.1 else if name = ".." then state.1.dropLast else state.1 ++ [name]
    return (place, ← loadPlace state.2 place)
  let origin := if path.isAbsolute then [] else files.workingPlace
  return (← path.components.foldlM follow (origin, files)).2

def loadDirectory (files : FileStore) (path : Path) : IO FileStore := do
  let files ← loadPath files path
  match files.locate path with
  | .error _ => return files
  | .ok place =>
    match files.node? place with
    | some .directory =>
      let entries ← (← IO.FS.realPath (textOf place)).readDir
      entries.foldlM (fun files entry => loadPlace files (place ++ [entry.fileName])) files
    | _ => return files

def workingStore : IO FileStore := do
  let working := (← IO.currentDir).toString
  let empty : FileStore := { workingPlace := [], nodes := [] }
  let files ← loadPath empty ⟨working⟩
  return { files with workingPlace := Path.components ⟨working⟩ }

def load (arguments : Arguments) : IO FileStore := do
  let files ← loadPath (← workingStore) arguments.configPath
  match Program.readConfig files arguments.configPath with
  | .error _ => return files
  | .ok config =>
    let files ← (Program.directories config arguments.command).foldlM loadDirectory files
    (Program.outputs config arguments.command).foldlM loadPath files

/-! ## To the disk -/

/-- Makes files on the disk grow as they have grown in the store. -/
def save (before after : FileStore) : IO Unit :=
  after.nodes.forM fun (place, node) => do
    match node, before.node? place with
    | .file bs _, some (.file old _) =>
      if old.length < bs.length then
        let handle ← IO.FS.Handle.mk (textOf place) .append
        handle.write (bs.drop old.length).toByteArray
    | .file bs _, none => IO.FS.writeBinFile (textOf place) bs.toByteArray
    | _, _ => pure ()

def refuse (fault : ArgumentFault) : IO UInt32 :=
  match fault with
  | .helpRequested => do
    IO.print usage
    return 0
  | .versionRequested => do
    IO.println "unchained 0.0.1"
    return 0
  | fault => do
    if fault ≠ .noArguments then IO.eprintln ("error: " ++ faultText fault ++ "\n")
    IO.eprint usage
    return 2

def perform (arguments : Arguments) : IO UInt32 := do
  let files ← load arguments
  match Program.run files arguments with
  | none =>
    IO.eprintln "the configured capacities are too large"
    return 101
  | some outcome =>
    save files outcome.files
    IO.print (String.ofList outcome.printed)
    match outcome.result with
    | .ok () => return 0
    | .error f =>
      IO.eprintln (account f)
      return 1

end AppearanceIndex.CommandLine

def main (words : List String) : IO UInt32 :=
  match AppearanceIndex.Arguments.read words with
  | .error fault => AppearanceIndex.CommandLine.refuse fault
  | .ok arguments => AppearanceIndex.CommandLine.perform arguments
