import AppearanceIndex.Address
import AppearanceIndex.BlockRange
import AppearanceIndex.IoError
import AppearanceIndex.Text.Quoted

/-!
# Errors of the index files

An `Error` says that a file is malformed, that a source failed during some `Operation`, that a name
or an address does not parse, or that the work was cancelled. `Error.message` is its text. Only a
malformed file is an error of format (`Error.isFormat`): a failed read says nothing about the file.
-/

namespace AppearanceIndex

inductive FileKind where
  | chunk
  | bloom
deriving DecidableEq

def FileKind.text : FileKind → String
  | chunk => "chunk"
  | bloom => "bloom"

/-- What a reader asks of its source. -/
inductive Operation where
  | seekChunkHeader
  | readChunkHeader
  | seekChunkEnd
  | measureChunk
  | seekAddressRecord
  | readAddressRecord
  | readAddressRecords
  | seekAppearances
  | readAppearances
  | seekBloomHeader
  | readBloomHeader
  | seekBloomEnd
  | seekBloomByte
  | readBloomByte
deriving DecidableEq

/-- What the operation does, as messages say it. -/
def Operation.text : Operation → String
  | seekChunkHeader => "seek to chunk header"
  | readChunkHeader => "read chunk header"
  | seekChunkEnd => "get chunk file size"
  | measureChunk => "get chunk size"
  | seekAddressRecord => "seek to address record"
  | readAddressRecord => "read address record"
  | readAddressRecords => "read address records"
  | seekAppearances => "seek to appearance records"
  | readAppearances => "read appearance records"
  | seekBloomHeader => "seek to bloom header"
  | readBloomHeader => "read bloom header"
  | seekBloomEnd => "get bloom file size"
  | seekBloomByte => "seek to bloom byte"
  | readBloomByte => "read bloom byte"

/-- What is wrong with a file, or with a request that its header rules out. -/
inductive Malformation where
  | truncatedHeader
  /-- The first bytes, as a number of `width` bytes, are not those of the file's kind. -/
  | badMagic (width magic : Nat)
  | negativeBlockCount (count : Int)
  | blocksTooLong (blocks needed size : Nat)
  | tablesTooLong (needed size : Nat)
  | positionOutside (position addresses : Nat)
  | spanOutside (offset count : Nat) (address : Address) (appearances : Nat)
deriving DecidableEq

def Malformation.text : Malformation → String
  | truncatedHeader => "truncated header"
  | badMagic width magic => "bad magic " ++ Hex.prefixed width magic
  | negativeBlockCount count => "negative block count -" ++ Decimal.render count.natAbs
  | blocksTooLong blocks needed size =>
    Decimal.render blocks ++ " blocks need " ++ Decimal.render needed ++ " bytes but file has "
      ++ Decimal.render size
  | tablesTooLong needed size =>
    "tables need " ++ Decimal.render needed ++ " bytes but file has " ++ Decimal.render size
  | positionOutside position addresses =>
    "address position " ++ Decimal.render position ++ " out of " ++ Decimal.render addresses
  | spanOutside offset count address appearances =>
    "span " ++ Decimal.render offset ++ "+" ++ Decimal.render count ++ " of " ++ address.text
      ++ " exceeds appearance table of " ++ Decimal.render appearances

/-- Why an index file, a name or an address was refused. -/
inductive Error where
  | malformed (kind : FileKind) (range : BlockRange) (reason : Malformation)
  | io (operation : Operation) (source : IoError)
  | invalidBlockRange (name : String)
  | invalidAddress (text : String)
  | cancelled
deriving DecidableEq

namespace Error

def message : Error → String
  | malformed kind range reason =>
    "Malformed " ++ kind.text ++ " file " ++ range.text ++ ": " ++ reason.text
  | io operation source => "Failed to " ++ operation.text ++ ":\n" ++ source.message
  | invalidBlockRange name => "Invalid block range name " ++ Quoted.encode name
  | invalidAddress text => "Invalid address " ++ Quoted.encode text
  | cancelled => "Operation was cancelled."

/-- The file itself is unusable. -/
def isFormat : Error → Bool
  | malformed .. => true
  | _ => false

/-- The error of a failed header read: a source that ends too early is a malformed file. -/
def ofHeaderRead (kind : FileKind) (range : BlockRange) (operation : Operation)
    (source : IoError) : Error :=
  if source.isEndOfFile then malformed kind range .truncatedHeader else io operation source

end Error

def BlockRange.ofName (name : String) : Except Error BlockRange :=
  match BlockRange.parse? name with
  | some range => .ok range
  | none => .error (.invalidBlockRange name)

def Address.ofText (text : String) : Except Error Address :=
  match Address.parse? text with
  | some address => .ok address
  | none => .error (.invalidAddress text)

/-- The address of exactly twenty bytes; any other number of bytes is refused. -/
def Address.ofByteString (bs : Bytes) : Except Error Address :=
  match Address.ofBytes? bs with
  | some address => .ok address
  | none => .error (.invalidAddress (Decimal.render bs.length ++ " bytes"))

end AppearanceIndex
