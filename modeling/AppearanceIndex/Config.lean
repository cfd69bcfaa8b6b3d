import AppearanceIndex.Index.Directory
import AppearanceIndex.Ingest.Pipeline
import AppearanceIndex.Scan.Pipeline
import AppearanceIndex.Toml.Document
import AppearanceIndex.Toml.Fields

/-!
# Configuration files

A configuration names the index and, for an ingest, the file that the appearances go to. Everything
else has a default.
-/

namespace AppearanceIndex

/-- The queues of a scan hold a hundred entries each. -/
def ScanSettings.default : ScanSettings where
  hitCapacity := ⟨100, by decide⟩
  outputCapacity := ⟨100, by decide⟩

/-- Up to a hundred workers, batches of five thousand, ten thousand appearances on their way, and
every chunk. -/
def IngestSettings.default : IngestSettings where
  maxWorkers := ⟨100, by decide⟩
  batchSize := ⟨5000, by decide⟩
  channelCapacity := ⟨10000, by decide⟩
  window := ⟨none, none⟩

structure Config where
  index : IndexDirectory
  scan : ScanSettings
  ingest : IngestSettings
  statusLog : Option Path
  /-- The appearance file. -/
  sink : Option Path

namespace Config

open Toml (FieldReader record?)
open Toml.Fields (required orDefault optional)

/-! ## Values -/

def positive? (value : Toml) : Option Positive := value.natural?.bind Positive.ofNat?

def block? (value : Toml) : Option UInt64 := value.natural?.map UInt64.ofNat

def path? (value : Toml) : Option Path := value.text?.map Path.mk

/-! ## Sections -/

def index? : Toml → Option IndexDirectory :=
  record? (IndexDirectory.mk <$> required "path" path?)

def scan? : Toml → Option ScanSettings :=
  record? (ScanSettings.mk
    <$> orDefault "hit_channel_capacity" positive? ScanSettings.default.hitCapacity
    <*> orDefault "output_channel_capacity" positive? ScanSettings.default.outputCapacity)

def ingestFields : FieldReader (IngestSettings × Option Path) := do
  let maxWorkers ← orDefault "max_workers" positive? IngestSettings.default.maxWorkers
  let batchSize ← orDefault "batch_size" positive? IngestSettings.default.batchSize
  let channelCapacity ←
    orDefault "channel_capacity" positive? IngestSettings.default.channelCapacity
  let first ← optional "from_block" block?
  let last ← optional "to_block" block?
  let statusLog ← optional "status_path" path?
  return (⟨maxWorkers, batchSize, channelCapacity, ⟨first, last⟩⟩, statusLog)

def ingest? : Toml → Option (IngestSettings × Option Path) := record? ingestFields

def sink? : Toml → Option Path := record? (required "path" path?)

def sections : FieldReader Config := do
  let index ← required "index" index?
  let scan ← orDefault "scan" scan? ScanSettings.default
  let (ingest, statusLog) ← orDefault "ingest" ingest? (IngestSettings.default, none)
  let sink ← optional "sink" sink?
  return ⟨index, scan, ingest, statusLog, sink⟩

def parse? (text : List Char) : Option Config := (Toml.parse? text).bind (record? sections)

end Config

end AppearanceIndex
