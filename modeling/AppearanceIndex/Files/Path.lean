/-!
# Paths and file names

A path is kept as it was written; only `Path.push` builds longer ones. `Path.components` are the
names between its slashes, and `FileName.split` divides a file name into stem and extension at its
last dot.
-/

namespace AppearanceIndex

structure Path where
  text : String
deriving DecidableEq, Inhabited

namespace Path

def isAbsolute (p : Path) : Bool := p.text.toList.head? = some '/'

def endsInSlash (p : Path) : Bool := p.text.toList.getLast? = some '/'

/-- The second path taken from the first: an absolute one replaces it, any other is appended
behind a slash. -/
def push (p q : Path) : Path :=
  if q.isAbsolute then q
  else if p.text = "" || p.endsInSlash then ⟨p.text ++ q.text⟩
  else ⟨p.text ++ "/" ++ q.text⟩

def entry (p : Path) (name : String) : Path := p.push ⟨name⟩

def pieces : List Char → List (List Char)
  | [] => [[]]
  | c :: cs =>
    if c = '/' then [] :: pieces cs
    else
      match pieces cs with
      | [] => [[c]]
      | piece :: rest => (c :: piece) :: rest

/-- The names on the way, without empty ones. -/
def components (p : Path) : List String :=
  ((pieces p.text.toList).filter (· ≠ [])).map String.ofList

end Path

namespace FileName

/-- The stem and the extension of a name: what stands before and after its last dot. A name with no
dot, or with only a first character that is one, has no extension. -/
def split (name : List Char) : List Char × Option (List Char) :=
  let ending := (name.reverse.takeWhile (· ≠ '.')).reverse
  let stem := name.take (name.length - (ending.length + 1))
  if ending.length = name.length ∨ stem = [] then (name, none) else (stem, some ending)

/-- The stem of a name that has the given extension. -/
def stemIf? (extension : String) (name : String) : Option String :=
  match split name.toList with
  | (stem, some ending) => if ending = extension.toList then some (String.ofList stem) else none
  | (_, none) => none

end FileName

end AppearanceIndex
