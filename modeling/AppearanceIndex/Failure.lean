import AppearanceIndex.Error

/-!
# Failures and what was being done

A `Failure` is the cause of a failed run together with the activities that were under way, the
outermost first. Each activity that fails because a part of it failed puts itself in front and keeps
the rest, so the cause is never lost: `Failure.chain` tells the whole story.
-/

namespace AppearanceIndex

/-- What went wrong in the first place. -/
inductive Cause where
  | index (error : Error)
  | io (error : IoError)
  | countMismatch (range : BlockRange) (declared decoded : Nat)
  | malformedConfig
  | missingSink
  /-- A source of ranges gives a reason of its own. -/
  | reported (text : String)
deriving DecidableEq

/-- The texts of a cause. A failed read is told with the operation and once more by itself. -/
def Cause.texts : Cause → List String
  | index (.io operation source) => [(Error.io operation source).message, source.message]
  | index error => [error.message]
  | io error => [error.message]
  | countMismatch range declared decoded =>
    ["chunk " ++ range.text ++ " declares " ++ Decimal.render declared ++ " appearances but "
      ++ Decimal.render decoded ++ " were decoded"]
  | malformedConfig => ["parse config"]
  | missingSink => ["ingest needs a [sink] section in config"]
  | reported text => [text]

/-- An activity that can fail because a part of it fails. -/
inductive Activity where
  | readConfig
  | openSink
  | openSinkFile (path : String)
  | insertAppearances
  | flushSink
  | openStatusLog
  | openStatusFile
  | writeStatusLine
  | recordStatus
  | listChunks (directory : String)
  | readChunkDirectory
  | decodeChunks
  | decodeChunk (path : String)
  | openChunkFile
  | startDecoding
  | decodeShard (first stop : Nat) (range : BlockRange)
  | decodeAddress (first stop : Nat) (range : BlockRange) (address : Address)
  | writeAppearances (chunk : String)
  | findAppearances
  | listBlooms (chain : String)
  | readBloomDirectory (directory : String)
  | openBloom (name : String)
  | openBloomFile (path : String)
  | readBloom (name : String)
  | testBloom (name : String)
  | openChunk (name : String)
  | openChunkPath (path : String)
  | readChunk (name : String)
  | searchChunk (name : String)
deriving DecidableEq

def Activity.shardText (first stop : Nat) (range : BlockRange) : String :=
  "decode shard " ++ Decimal.render first ++ ".." ++ Decimal.render stop ++ " of chunk "
    ++ range.text

def Activity.text : Activity → String
  | readConfig => "read config file"
  | openSink => "open sink"
  | openSinkFile path => "open sink file " ++ path
  | insertAppearances => "write appearances"
  | flushSink => "flush sink file"
  | openStatusLog => "open status log"
  | openStatusFile => "open status file"
  | writeStatusLine => "write status line"
  | recordStatus => "record chunk status"
  | listChunks directory => "list chunks in " ++ directory
  | readChunkDirectory => "read chunk directory"
  | decodeChunks => "decode chunks"
  | decodeChunk path => "decode chunk " ++ path
  | openChunkFile => "open chunk file"
  | startDecoding => "start decoding chunk"
  | decodeShard first stop range => shardText first stop range
  | decodeAddress first stop range address =>
    shardText first stop range ++ " address " ++ address.text
  | writeAppearances chunk => "write appearances of " ++ chunk
  | findAppearances => "find appearances"
  | listBlooms chain => "list bloom filters of " ++ chain
  | readBloomDirectory directory => "read bloom directory " ++ directory
  | openBloom name => "open bloom " ++ name
  | openBloomFile path => "open bloom file " ++ path
  | readBloom name => "read bloom " ++ name
  | testBloom name => "test bloom " ++ name
  | openChunk name => "open chunk " ++ name
  | openChunkPath path => "open chunk file " ++ path
  | readChunk name => "read chunk " ++ name
  | searchChunk name => "search chunk " ++ name

/-- A cause and the activities that failed because of it, the outermost first. -/
structure Failure where
  activities : List Activity
  cause : Cause
deriving DecidableEq

namespace Failure

/-- The failure of an index file, a source or a name, with no activity around it. -/
def ofError (error : Error) : Failure := ⟨[], .index error⟩

def ofIoError (activity : Activity) (error : IoError) : Failure := ⟨[activity], .io error⟩

/-- The failure as that of a larger activity. -/
def within (f : Failure) (activity : Activity) : Failure := ⟨activity :: f.activities, f.cause⟩

/-- Every text of a failure, the outermost activity first. -/
def chain (f : Failure) : List String := f.activities.map Activity.text ++ f.cause.texts

/-- The outermost text. -/
def message (f : Failure) : String := f.chain.headD ""

/-- The error of the index that caused the failure, if one did. -/
def indexError? (f : Failure) : Option Error :=
  match f.cause with
  | .index error => some error
  | _ => none

end Failure

/-- A result whose failure is that of an activity. -/
def Activity.around {α : Type} (activity : Activity) : Except Failure α → Except Failure α
  | .ok a => .ok a
  | .error f => .error (f.within activity)

def Activity.ofIo {α : Type} (activity : Activity) : Except IoError α → Except Failure α
  | .ok a => .ok a
  | .error e => .error (Failure.ofIoError activity e)

def Activity.ofIndex {α : Type} (activity : Activity) : Except Error α → Except Failure α
  | .ok a => .ok a
  | .error e => .error ((Failure.ofError e).within activity)

namespace Activity

variable {α : Type} {activity : Activity} {a : α}

theorem eq_of_around {result : Except Failure α} (h : activity.around result = .ok a) :
    result = .ok a := by
  cases result with
  | ok b => exact h
  | error f => cases h

theorem eq_of_ofIo {result : Except IoError α} (h : activity.ofIo result = .ok a) :
    result = .ok a := by
  cases result with
  | ok b => exact congrArg Except.ok (Except.ok.inj h)
  | error e => cases h

theorem eq_of_ofIndex {result : Except Error α} (h : activity.ofIndex result = .ok a) :
    result = .ok a := by
  cases result with
  | ok b => exact congrArg Except.ok (Except.ok.inj h)
  | error e => cases h

end Activity

end AppearanceIndex
