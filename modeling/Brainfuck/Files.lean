/-! Files by name. Folders hold files and further folders, from the root folder down. A path names
one of them by the names on the way to it, separated by slashes; it starts at the root folder if it
begins with a slash, and at the working folder if not. -/

namespace Brainfuck

/-- What a path can lead to. -/
inductive FileEntry where
  | file (content : List UInt8)
  | folder
  /-- The device that is empty when it is read and drops what is written to it. -/
  | null
  deriving DecidableEq, Repr

/-- Where an entry is: the names on the way to it from the root folder, which has none. -/
abbrev Place := List String

/-- What can be done at a place, unless it is denied. -/
inductive Access where
  | read
  /-- Writes to a file, or makes a file in a folder. -/
  | write
  /-- Goes on from a folder. -/
  | search
  deriving DecidableEq, Repr

/-- Where temporary files are made: in a folder, under the first of the names that is free there. -/
structure Temporary where
  folder : Place
  names : List String
  deriving DecidableEq, Repr

/-- A file system. -/
structure Files where
  /-- The place of the working folder. -/
  working : Place
  temporary : Temporary
  /-- What is where, the root folder apart. -/
  entries : List (Place × FileEntry)
  /-- What may not be done, and where. -/
  denied : List (Access × Place)
  deriving DecidableEq, Repr

/-- Why a file cannot be opened. -/
inductive OpenError where
  | missing
  | isFolder
  | notFolder
  | nameTooLong
  | denied
  /-- No name that was tried for a temporary file is free. -/
  | noFreeName
  /-- The path holds a null character. -/
  | nullCharacter
  deriving DecidableEq, Repr

def OpenError.message : OpenError → String
  | missing => "No such file or directory"
  | isFolder => "Is a directory"
  | notFolder => "Not a directory"
  | nameTooLong => "File name too long"
  | denied => "Permission denied"
  | noFreeName => "No usable temporary file name found"
  | nullCharacter => "embedded null byte"

/-- The most bytes that a name can have. -/
def maxNameBytes : Nat := 255

/-- The most bytes that a path can have. -/
def maxPathBytes : Nat := 4095

namespace Files

def find? (f : Files) (place : Place) : Option FileEntry :=
  if place.isEmpty then some .folder else f.entries.lookup place

def denies (f : Files) (access : Access) (place : Place) : Bool := f.denied.contains (access, place)

/-- Goes on from `here` along the names of a path. Two dots lead to the folder above, and from the
root folder nowhere. -/
def walk (f : Files) (here : Place) : List String → Except OpenError Place
  | [] => .ok here
  | name :: rest =>
    match f.find? here with
    | none => .error .missing
    | some .folder =>
      if name = "" then f.walk here rest
      else if f.denies .search here then .error .denied
      else if name = "." then f.walk here rest
      else if name = ".." then f.walk here.dropLast rest
      else if name.utf8ByteSize > maxNameBytes then .error .nameTooLong
      else f.walk (here ++ [name]) rest
    | some _ => .error .notFolder

/-- The names that slashes separate in a path. -/
def pathNames (path : String) : List String := (path.toList.splitOn '/').map String.ofList

/-- The place that a path leads to, where `choose` tells which of its names to follow. -/
def locate (f : Files) (path : String) (choose : List String → List String) :
    Except OpenError Place :=
  if path.toList.contains '\x00' then .error .nullCharacter
  else if path = "" then .error .missing
  else if path.utf8ByteSize > maxPathBytes then .error .nameTooLong
  else f.walk (if path.toList.head? = some '/' then [] else f.working) (choose (pathNames path))

/-- The content of the file at a path. -/
def read (f : Files) (path : String) : Except OpenError (List UInt8) :=
  match f.locate path id with
  | .error e => .error e
  | .ok place =>
    match f.find? place with
    | none => .error .missing
    | some entry =>
      if f.denies .read place then .error .denied
      else
        match entry with
        | .folder => .error .isFolder
        | .null => .ok []
        | .file content => .ok content

/-- Puts a file in the place of any entry there. -/
def put (f : Files) (place : Place) (content : List UInt8) : Files :=
  { f with entries := (place, .file content) :: f.entries.filter (·.1 != place) }

/-- Removes the entry at a place. -/
def remove (f : Files) (place : Place) : Files :=
  { f with entries := f.entries.filter (·.1 != place) }

/-- The names to follow before a file is written. A name with a slash behind it is a folder's, even
if nothing has that name, so the folder that it stands in takes its place. -/
def namesToWrite (names : List String) : List String :=
  match names.reverse with
  | "" :: before => (before.dropWhile (· = "")).tail.reverse ++ ["."]
  | _ => names

/-- Writes a file, which is created if it is not there. -/
def write (f : Files) (path : String) (content : List UInt8) : Except OpenError Files :=
  match f.locate path namesToWrite with
  | .error e => .error e
  | .ok place =>
    match f.find? place with
    | some .folder => .error .isFolder
    | some .null => if f.denies .write place then .error .denied else .ok f
    | some (.file _) =>
      if f.denies .write place then .error .denied else .ok (f.put place content)
    | none => if f.denies .write place.dropLast then .error .denied else .ok (f.put place content)

/-- The place of a new temporary file, under the first of the names that is free. -/
def temporaryPlace (f : Files) : List String → Except OpenError Place
  | [] => .error .noFreeName
  | name :: rest =>
    match f.walk [] (f.temporary.folder ++ [name]) with
    | .error e => .error e
    | .ok place =>
      match f.find? place with
      | some _ => f.temporaryPlace rest
      | none => if f.denies .write place.dropLast then .error .denied else .ok place

/-- Makes an empty temporary file, and tells where it is. -/
def makeTemporary (f : Files) : Except OpenError (Place × Files) :=
  (f.temporaryPlace f.temporary.names).map fun place => (place, f.put place [])

/-- The text of the file at a place. -/
def text? (f : Files) (place : Place) : Option String :=
  match f.find? place with
  | some (.file content) => String.fromUTF8? ⟨content.toArray⟩
  | _ => none

/-- The files right in the working folder that are not the same in `before`. -/
def changes (f before : Files) : List (String × List UInt8) :=
  f.entries.filterMap fun (place, entry) =>
    match entry with
    | .file content =>
      if place.dropLast = f.working ∧ before.find? place ≠ some entry then
        place.getLast?.map (·, content)
      else none
    | _ => none

end Files

end Brainfuck
