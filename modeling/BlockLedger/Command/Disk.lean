import BlockLedger.History.Folder

/-
# Disks

What a program finds on the disk, as far as it is given to it: files and folders by their places.
A place is the list of names on the way to it, from the folder that the program runs in or, if the
first of them is a slash, from the root.
-/

namespace BlockLedger

/-- Files and folders by path. -/
structure Disk where
  nodes : Std.HashMap (List String) Node := {}

namespace Disk

instance : Inhabited Disk := ⟨{}⟩

/-- The root. -/
def root : List String := ["/"]

/-- Where a path starts. -/
def origin (path : String) : List String := if path.startsWith "/" then root else []

/-- Whether a place is one that paths start from. -/
def isOrigin (place : List String) : Bool := place.isEmpty || place == root

/-- The place that something lies in. -/
def outer (place : List String) : List String := if place = root then root else place.dropLast

/-- What stands at a place.  The folders that paths start from are always there. -/
def at? (d : Disk) (place : List String) : Option Node :=
  if isOrigin place then some .folder else d.nodes[place]?

/-- Puts something at a place, together with the folders that it is in. -/
def put (d : Disk) (place : List String) (n : Node) : Disk :=
  let folders := ((List.range place.length).map fun i => place.take i).filter (!isOrigin ·)
  ⟨(folders.foldl (fun nodes p => nodes.insertIfNew p .folder) d.nodes).insert place n⟩

/-- The names in a path, without those that lead nowhere. -/
def namesOf (path : String) : List String :=
  (path.splitOn "/").filter fun name => name != "" && name != "."

/-- Goes along names from a place on; all but the last must be folders. -/
def walk (d : Disk) : List String → List String → Except FileFault (List String)
  | place, [] => .ok place
  | place, name :: rest =>
    match d.at? place with
    | some .folder => walk d (if name = ".." then outer place else place ++ [name]) rest
    | some (.file _) => .error .notDirectory
    | none => .error .notFound

/-- The place that a path leads to. -/
def placeOf (d : Disk) (path : String) : Except FileFault (List String) :=
  d.walk (origin path) (namesOf path)

/-- Whether a path can lead to nothing but a folder. -/
def asksFolder (path : String) : Bool := path.endsWith "/" || path.endsWith "/."

/-- What a path leads to. -/
def find (d : Disk) (path : String) : Except FileFault Node := do
  let place ← d.placeOf path
  match d.at? place with
  | some (.file bytes) => if asksFolder path then throw .notDirectory else return .file bytes
  | some .folder => return .folder
  | none => throw .notFound

/-- Whether a path leads to a folder. -/
def isFolder (d : Disk) (path : String) : Bool :=
  match d.find path with
  | .ok .folder => true
  | _ => false

/-- The bytes of a file. -/
def read (d : Disk) (path : String) : Except FileFault (List UInt8) := do
  match ← d.find path with
  | .file bytes => return bytes
  | .folder => throw .isDirectory

/-- What is in the folder at a place. -/
def folderAt (d : Disk) (place : List String) : Folder :=
  ⟨d.nodes.fold (fun found p n =>
      match p.getLast? with
      | some name =>
        if p.dropLast = place && !isOrigin p then found.insert name n else found
      | none => found) {}⟩

/-- What is in a folder. -/
def folder (d : Disk) (path : String) : Except FileFault Folder := do
  let place ← d.placeOf path
  match d.at? place with
  | some .folder => return d.folderAt place
  | some (.file _) => throw .notDirectory
  | none => throw .notFound

/-- Creates the folders that lie between a place and what names lead to. -/
def createFrom (d : Disk) : List String → List String → Except FileFault Disk
  | place, [] =>
    match d.at? place with
    | some .folder => .ok d
    | some (.file _) => .error .occupied
    | none => .ok (d.put place .folder)
  | place, name :: rest =>
    match d.at? place with
    | some (.file _) => .error .notDirectory
    | some .folder => createFrom d (if name = ".." then outer place else place ++ [name]) rest
    | none =>
      createFrom (d.put place .folder)
        (if name = ".." then outer place else place ++ [name]) rest

/-- Makes sure that a path leads to a folder. -/
def createFolder (d : Disk) (path : String) : Except FileFault Disk :=
  d.createFrom (origin path) (namesOf path)

/-- Puts something where a path leads, together with the folders on the way. -/
def putAt (d : Disk) (path : String) (n : Node) : Except FileFault Disk := do
  let d ← d.createFrom (origin path) (namesOf path).dropLast
  return d.put (← d.placeOf path) n

/-- Replaces what is in the folder at a place. -/
def withFolder (d : Disk) (place : List String) (f : Folder) : Disk :=
  let others := d.nodes.filter fun p _ => isOrigin p || p.dropLast != place
  ⟨f.nodes.fold (fun nodes name n => nodes.insert (place ++ [name]) n) others⟩

end Disk

end BlockLedger
