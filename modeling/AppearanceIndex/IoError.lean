import AppearanceIndex.Text.Decimal

/-!
# Input and output errors

The ways in which a read, a write or a lookup in the file system fails, each with its message.
Running out of bytes is told apart from every other failure (`IoError.isEndOfFile`), because a
source that ends inside a header is a malformed file and not a failed read.
-/

namespace AppearanceIndex

/-- Why an operation on a source or on the file system failed. -/
inductive IoError where
  | notFound
  | alreadyExists
  | notDirectory
  | isDirectory
  | invalidArgument
  | noSpace
  | nameTooLong
  /-- A file name holds a NUL character. -/
  | nulInName
  /-- A sequential read met the end of its source. -/
  | unfilled
  /-- A positional read reached beyond its source. -/
  | pastEnd
  /-- Text was asked for and the bytes are not UTF-8. -/
  | invalidUtf8
  /-- A failure that a source reports itself, as an end of file or not. -/
  | reported (endOfFile : Bool) (text : String)
deriving DecidableEq

namespace IoError

/-- The text of an error of the operating system. -/
def system (text : String) (code : Nat) : String :=
  text ++ " (os error " ++ Decimal.render code ++ ")"

def message : IoError → String
  | notFound => system "No such file or directory" 2
  | alreadyExists => system "File exists" 17
  | notDirectory => system "Not a directory" 20
  | isDirectory => system "Is a directory" 21
  | invalidArgument => system "Invalid argument" 22
  | noSpace => system "No space left on device" 28
  | nameTooLong => system "File name too long" 36
  | nulInName => "file name contained an unexpected NUL byte"
  | unfilled => "failed to fill whole buffer"
  | pastEnd => "read past the end of source"
  | invalidUtf8 => "stream did not contain valid UTF-8"
  | reported _ text => text

/-- The source has no more bytes. -/
def isEndOfFile : IoError → Bool
  | unfilled | pastEnd => true
  | reported endOfFile _ => endOfFile
  | _ => false

end IoError

end AppearanceIndex
