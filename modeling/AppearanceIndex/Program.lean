import AppearanceIndex.Arguments.Reader
import AppearanceIndex.Config
import AppearanceIndex.Ingest.Run
import AppearanceIndex.Scan.Receive

/-!
# The program

`Program.run` carries out a command: it reads the configuration, and then prints the appearances of
an address, or adds those of a chain to the appearance file. What a search prints hangs only on what
its scan sent, so `Program.report` is stated without a scan: unsorted, every appearance is printed
as it comes, also those before a failure; sorted, nothing is printed until all are known.
-/

namespace AppearanceIndex

/-- How a command ended, what it printed, and what files it left. -/
structure Outcome where
  result : Except Failure Unit
  printed : List Char
  files : FileStore

/-- The command failed before it printed anything. -/
def Outcome.failed (files : FileStore) (f : Failure) : Outcome := ⟨.error f, [], files⟩

namespace Program

/-! ## Configuration -/

def readConfig (files : FileStore) (path : Path) : Except Failure Config := do
  let bs ← Activity.readConfig.ofIo (files.contentOf path)
  match Utf8.decode? bs with
  | none => .error (Failure.ofIoError .readConfig .invalidUtf8)
  | some text =>
    match Config.parse? text.toList with
    | none => .error ⟨[], .malformedConfig⟩
    | some config => .ok config

/-! ## Searching -/

/-- The line of an appearance: the block, a tab and the transaction. -/
def line (app : Appearance) : List Char :=
  Decimal.digits app.block.toNat ++ '\t' :: Decimal.digits app.transaction.toNat ++ ['\n']

def lines (apps : List Appearance) : List Char := apps.flatMap line

/-- How a search ends and what it prints, if a scan sent these appearances and then, perhaps, a
failure. -/
def report (sort : Bool) (apps : List Appearance) (failure : Option Failure) :
    Except Failure Unit × List Char :=
  match failure, sort with
  | none, false => (.ok (), lines apps)
  | none, true => (.ok (), lines (apps.mergeSort Appearance.le))
  | some f, false => (.error (f.within .findAppearances), lines apps)
  | some f, true => (.error (f.within .findAppearances), [])

/-- Prints the appearances of an address; none if the queues cannot be as large as configured. -/
def find (config : Config) (files : FileStore) (address : Address) (chain : String)
    (sort : Bool) : Option Outcome := do
  let scan ← Scan.start? (config.index.source files chain) chain address config.scan
  let (apps, failure) := scan.receiveAll
  let (result, printed) := report sort apps failure
  return ⟨result, printed, files⟩

/-! ## Ingesting -/

def openLog (files : FileStore) (path : Option Path) :
    Except Failure (Option StatusLog × FileStore) :=
  match path with
  | none => .ok (none, files)
  | some path => do
    let (log, files) ← Activity.openStatusLog.around (StatusLog.openAt files path)
    return (some log, files)

/-- The bounds of the command line, or else those of the configuration. -/
def bounds (config : Config) (window : BlockWindow) : BlockWindow where
  first := window.first.or config.ingest.window.first
  last := window.last.or config.ingest.window.last

def startRun (config : Config) (files : FileStore) (chain : String) (window : BlockWindow)
    (sink : RowSink) (log : Option StatusLog) : IngestRun RowSink :=
  .start { config.ingest with window := bounds config window }
    (config.index.chunkDirectory chain) log files sink

def ingest (config : Config) (files : FileStore) (chain : String) (window : BlockWindow) :
    Outcome :=
  match config.sink with
  | none => .failed files ⟨[], .missingSink⟩
  | some path =>
    match Activity.openSink.around (RowSink.openAt files path) with
    | .error f => .failed files f
    | .ok (sink, files) =>
      match openLog files config.statusLog with
      | .error f => .failed files f
      | .ok (log, files) =>
        let (result, files) := (startRun config files chain window sink log).finish
        ⟨result, [], files⟩

/-! ## Commands -/

/-- Carries out a command. None means that it cannot even begin, because it asks for queues that are
too large. -/
def run (files : FileStore) (arguments : Arguments) : Option Outcome :=
  match readConfig files arguments.configPath with
  | .error f => some (.failed files f)
  | .ok config =>
    match arguments.command with
    | .find address chain sort => find config files address chain sort
    | .ingest chain window => some (ingest config files chain window)

/-! ## What a command touches -/

/-- The directories in which a command looks for files. -/
def directories (config : Config) : Command → List Path
  | .find _ chain _ => [config.index.bloomDirectory chain, config.index.chunkDirectory chain]
  | .ingest chain _ => [config.index.chunkDirectory chain]

/-- The files that a command adds to. -/
def outputs (config : Config) : Command → List Path
  | .find .. => []
  | .ingest .. => config.sink.toList ++ config.statusLog.toList

end Program

end AppearanceIndex
