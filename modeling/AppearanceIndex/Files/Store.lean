import AppearanceIndex.Bytes
import AppearanceIndex.Files.Path
import AppearanceIndex.IoError

/-!
# File stores

A `FileStore` holds what a run finds and leaves on disk: directories, regular files, and devices
that swallow or refuse what is written to them. A regular file may refuse a write too, and keep a
part of it. A path is followed name by name from the root or from the working directory, and every
directory on the way must exist. Files are opened by path and then known by their place, so several
handles on one file append to the same content.
-/

namespace AppearanceIndex

/-- How much of one write a file takes, and how it refuses the rest if there is more. -/
structure WriteLimit where
  room : Nat
  refusal : IoError

inductive FileNode where
  | directory
  /-- The next writes meet these limits, one after another, and those behind them none. -/
  | file (content : Bytes) (limits : List WriteLimit := [])
  /-- Holds nothing; a full device refuses what is written to it. -/
  | device (full : Bool)

/-- A place in the store: the names that lead to it from the root. -/
abbrev Place := List String

/-- Directories, files and devices by place, at most one at each. The root is always there. -/
structure FileStore where
  workingPlace : Place
  nodes : List (Place × FileNode)
  nodup : (nodes.map Prod.fst).Nodup := by simp

inductive OpenedFile where
  | directory
  | content (bs : Bytes)

namespace FileStore

def node? (s : FileStore) (place : Place) : Option FileNode :=
  if place = [] then some .directory else (s.nodes.find? (·.1 = place)).map Prod.snd

/-- The node of a place, replaced among nodes. -/
def replaced (place : Place) (node : FileNode) (entry : Place × FileNode) : Place × FileNode :=
  if entry.1 = place then (place, node) else entry

theorem fst_replaced (place : Place) (node : FileNode) (entry : Place × FileNode) :
    (replaced place node entry).1 = entry.1 := by
  unfold replaced
  split
  · next h => exact h.symm
  · rfl

/-- The store with something else, or something new, at a place. -/
def put (s : FileStore) (place : Place) (node : FileNode) : FileStore :=
  if h : (s.nodes.find? (·.1 = place)).isSome then
    { s with
      nodes := s.nodes.map (replaced place node)
      nodup := by simpa [fst_replaced, Function.comp_def] using s.nodup }
  else
    { s with
      nodes := s.nodes ++ [(place, node)]
      nodup := by
        have hnew : ∀ entry ∈ s.nodes, entry.1 ≠ place := fun entry hmem heq =>
          h (List.find?_isSome.mpr ⟨entry, hmem, by simpa using heq⟩)
        rw [List.map_append, List.nodup_append]
        refine ⟨s.nodup, by simp, ?_⟩
        intro a ha b hb hab
        obtain ⟨entry, hmem, rfl⟩ := List.mem_map.mp ha
        have hb : b = place := by simpa using hb
        exact hnew entry hmem (hab.trans hb) }

/-! ## Following paths -/

def maxNameBytes : Nat := 255

def maxPathBytes : Nat := 4095

/-- One name further, from a place that must hold a directory. -/
def enter (s : FileStore) (place : Place) (name : String) : Except IoError Place :=
  match s.node? place with
  | none => .error .notFound
  | some .directory =>
    if name = "." then .ok place
    else if name = ".." then .ok place.dropLast
    else if maxNameBytes < name.utf8ByteSize then .error .nameTooLong
    else .ok (place ++ [name])
  | some _ => .error .notDirectory

/-- Where a path begins, if it is one at all. -/
def origin (s : FileStore) (path : Path) : Except IoError Place :=
  if path.text.toList.contains '\x00' then .error .nulInName
  else if path.text = "" then .error .notFound
  else if maxPathBytes < path.text.utf8ByteSize then .error .nameTooLong
  else .ok (if path.isAbsolute then [] else s.workingPlace)

/-- The place to which a path leads; whether something is there is left open. -/
def locate (s : FileStore) (path : Path) : Except IoError Place := do
  path.components.foldlM s.enter (← s.origin path)

def meansDirectory (path : Path) : Bool :=
  path.endsInSlash || path.components.getLast? = some "." || path.components.getLast? = some ".."

/-! ## Operations -/

def openRead (s : FileStore) (path : Path) : Except IoError OpenedFile := do
  match s.node? (← s.locate path) with
  | none => .error .notFound
  | some .directory => .ok .directory
  | some (.file bs _) => if meansDirectory path then .error .notDirectory else .ok (.content bs)
  | some (.device _) => if meansDirectory path then .error .notDirectory else .ok (.content [])

def contentOf (s : FileStore) (path : Path) : Except IoError Bytes := do
  match ← s.openRead path with
  | .directory => .error .isDirectory
  | .content bs => .ok bs

def readDirectory (s : FileStore) (path : Path) : Except IoError (List (String × FileNode)) := do
  let place ← s.locate path
  match s.node? place with
  | none => .error .notFound
  | some .directory =>
    .ok (s.nodes.filterMap fun (at_, node) =>
      match at_.getLast? with
      | some name => if at_ = place ++ [name] then some (name, node) else none
      | none => none)
  | some _ => .error .notDirectory

/-- Opens a file to write to it, and creates it if nothing is there. -/
def openWrite (s : FileStore) (path : Path) : Except IoError (Place × FileStore) := do
  let place ← s.locate path
  if meansDirectory path then .error .isDirectory
  else
    match s.node? place with
    | none => .ok (place, s.put place (.file []))
    | some .directory => .error .isDirectory
    | some _ => .ok (place, s)

/-- What becomes of a write under a limit, and what of it the file keeps. -/
def limited (bs : Bytes) : Option WriteLimit → Except IoError Unit × Bytes
  | none => (.ok (), bs)
  | some limit =>
    if bs.length ≤ limit.room then (.ok (), bs) else (.error limit.refusal, bs.take limit.room)

/-- Adds bytes at the end of an opened file. -/
def append (s : FileStore) (place : Place) (bs : Bytes) : Except IoError Unit × FileStore :=
  match s.node? place with
  | some (.file content limits) =>
    let (result, kept) := limited bs limits.head?
    (result, s.put place (.file (content ++ kept) limits.tail))
  | some (.device full) => (if full && !bs.isEmpty then .error .noSpace else .ok (), s)
  | _ => (.ok (), s)

def truncate (s : FileStore) (place : Place) : FileStore :=
  match s.node? place with
  | some (.file _ limits) => s.put place (.file [] limits)
  | _ => s

def write (s : FileStore) (path : Path) (bs : Bytes) : Except IoError FileStore := do
  let (place, t) ← s.openWrite path
  match (t.truncate place).append place bs with
  | (.ok (), t) => .ok t
  | (.error e, _) => .error e

/-- One name further, where a directory is made if nothing is there. -/
def enterNew (state : Place × FileStore) (name : String) : Except IoError (Place × FileStore) := do
  let place ← state.2.enter state.1 name
  match state.2.node? place with
  | none => .ok (place, state.2.put place .directory)
  | some _ => .ok (place, state.2)

/-- Makes a directory and those on the way to it. -/
def createDirectories (s : FileStore) (path : Path) : Except IoError FileStore := do
  if path.text = "" then .ok s
  else
    let (place, t) ← path.components.foldlM enterNew (← s.origin path, s)
    match t.node? place with
    | some .directory => .ok t
    | _ => .error .alreadyExists

end FileStore

end AppearanceIndex
