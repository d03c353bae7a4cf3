/-
# Files in memory

A tree of files and folders with a working folder.  A path is walked segment by
segment from the root or the working folder; every segment but the first needs a
folder to stand in, also one that is empty or a dot, so a path that ends in a
slash names a folder.

| operation | on a folder | on nothing, with its folder present |
| --- | --- | --- |
| read | fails | fails |
| write | fails | makes the file |
| make a folder | fails | makes the folder |
-/

import Outline.Files.Disk

namespace Outline

/-- A file with its content, or a folder. -/
inductive Entry
  | file (content : ByteArray)
  | folder
  deriving DecidableEq

/-- Where an entry stands: the names from the root down to it. -/
abbrev Place := List String

/-- Files and folders by their places; the root is always a folder. -/
structure FileTree where
  entries : List (Place × Entry) := []
  /-- The place that paths start from unless they start at the root. -/
  workingFolder : Place := []

namespace FileTree

/-- The entry at a place. -/
def lookup (t : FileTree) (p : Place) : Option Entry :=
  if p = [] then some .folder else t.entries.lookup p

/-- Puts an entry at a place, instead of what was there. -/
def put (t : FileTree) (p : Place) (e : Entry) : FileTree :=
  { t with entries := (p, e) :: t.entries.filter (·.1 ≠ p) }

theorem lookup_put_self (t : FileTree) {p : Place} (e : Entry) (h : p ≠ []) :
    (t.put p e).lookup p = some e := by simp [lookup, put, h]

theorem lookup_filter_ne (p q : Place) (es : List (Place × Entry)) (h : q ≠ p) :
    (es.filter (·.1 ≠ p)).lookup q = es.lookup q := by
  induction es with
  | nil => rfl
  | cons e es ih =>
    by_cases he : e.1 = p
    · have hne : (q == e.1) = false := by simp [he, h]
      rw [List.filter_cons_of_neg (by simp [he]), ih, List.lookup_cons, hne]
    · rw [List.filter_cons_of_pos (by simp [he]), List.lookup_cons, List.lookup_cons, ih]

theorem lookup_put_of_ne (t : FileTree) {p q : Place} (e : Entry) (h : q ≠ p) :
    (t.put p e).lookup q = t.lookup q := by
  have hne : (q == p) = false := by simp [h]
  simp only [lookup, put, List.lookup_cons, hne, lookup_filter_ne p q _ h]

/-- Fails unless a folder is at the place. -/
def needFolder (t : FileTree) (p : Place) : Except IoError Unit :=
  match t.lookup p with
  | some .folder => .ok ()
  | some (.file _) => .error .notDirectory
  | none => .error .notFound

/-- A name that can stand in a folder. -/
def checkName (name : String) : Except IoError String :=
  if 255 < name.utf8ByteSize then .error .nameTooLong else .ok name

/-- The place of an entry that a segment leads to from the place of another. -/
def step (t : FileTree) (p : Place) (segment : List Char) : Except IoError Place := do
  t.needFolder p
  if segment = [] ∨ segment = ['.'] then return p
  else if segment = ['.', '.'] then return p.dropLast
  else
    let child := p ++ [← checkName (String.ofList segment)]
    match t.lookup child with
    | some _ => return child
    | none => throw .notFound

/-- The segments of a path and where they start. -/
def start (t : FileTree) (p : Path) : Except IoError (Place × List (List Char)) :=
  if p.text.toList.contains '\x00' then .error .invalidPath
  else if p.text.isEmpty then .error .notFound
  else if 4096 ≤ p.text.utf8ByteSize then .error .nameTooLong
  else .ok (if p.isAbsolute then [] else t.workingFolder, Path.segments p.text.toList)

/-- The place of the entry at a path. -/
def find (t : FileTree) (p : Path) : Except IoError Place := do
  let (first, segments) ← t.start p
  segments.foldlM t.step first

/-- The entry at a path. -/
def entryAt (t : FileTree) (p : Path) : Except IoError Entry := do
  match t.lookup (← t.find p) with
  | some e => return e
  | none => throw .notFound

/-- Whether a folder is at a path. -/
def isFolder (t : FileTree) (p : Path) : Bool :=
  match t.entryAt p with
  | .ok .folder => true
  | _ => false

/-- The content of the file at a path. -/
def read (t : FileTree) (p : Path) : Except IoError ByteArray := do
  match ← t.entryAt p with
  | .file content => return content
  | .folder => throw .isDirectory

/-- The folder that the last segment of a path stands in, that segment, and
whether slashes follow it.  The segment is missing if there are only slashes. -/
def lastSegment (t : FileTree) (p : Path) :
    Except IoError (Place × Option (List Char) × Bool) := do
  let (first, segments) ← t.start p
  let named := (segments.reverse.dropWhile (·.isEmpty)).reverse
  let folder ← named.dropLast.foldlM t.step first
  t.needFolder folder
  return (folder, named.getLast?, named.length < segments.length)

/-- Whether a segment names no entry of the folder that it stands in. -/
def isDots (segment : List Char) : Bool := segment == ['.'] || segment == ['.', '.']

/-- The tree after a file is written. -/
def write (t : FileTree) (p : Path) (content : ByteArray) : Except IoError FileTree := do
  match ← t.lastSegment p with
  | (folder, some segment, false) =>
    if isDots segment then throw .isDirectory
    let place := folder ++ [← checkName (String.ofList segment)]
    match t.lookup place with
    | some .folder => throw .isDirectory
    | _ => return t.put place (.file content)
  | _ => throw .isDirectory

/-- The tree after a folder is made in one that is there. -/
def makeFolder (t : FileTree) (p : Path) : Except IoError FileTree := do
  match ← t.lastSegment p with
  | (folder, some segment, _) =>
    if isDots segment then throw .exists
    let place := folder ++ [← checkName (String.ofList segment)]
    match t.lookup place with
    | some _ => throw .exists
    | none => return t.put place .folder
  | _ => throw .exists

/-- What remains of making a folder once the folders above it are there; a
folder that is there already is no failure. -/
def settleFolder (t : FileTree) (p : Path) : Except IoError Unit × FileTree :=
  match t.makeFolder p with
  | .ok t => (.ok (), t)
  | .error e => (if t.isFolder p then .ok () else .error e, t)

/-- Makes the first of some folders, each standing in the next one.  The folders
above are made only if the folder cannot be made without them. -/
def makeAll (t : FileTree) : List Path → Except IoError Unit × FileTree
  | [] => (.error (.other "failed to create whole tree"), t)
  | p :: above =>
    if p.parts = [] then (.ok (), t)
    else match t.makeFolder p with
      | .error .notFound =>
        match t.makeAll above with
        | (.ok _, t) => t.settleFolder p
        | failed => failed
      | _ => t.settleFolder p

/-- The tree as a disk. -/
def disk : Disk (StateM FileTree) where
  isPresent p := fun t => ((t.entryAt p).toBool, t)
  isFile p := fun t => ((t.read p).toBool, t)
  read p := fun t => (t.read p, t)
  write p content := fun t => match t.write p content with
    | .ok t => (.ok (), t)
    | .error e => (.error e, t)
  makeFolders p := fun t => t.makeAll p.ancestors

end FileTree
end Outline
