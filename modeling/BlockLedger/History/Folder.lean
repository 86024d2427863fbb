import BlockLedger.Segment.Fault
import Std.Data.HashMap

/-
# Folders

A folder as far as history is concerned: the files in it, with their bytes, and the names of other
folders.  Writing goes in small steps, so that what a write leaves behind when it is cut short is
the outcome of the steps before.
-/

namespace BlockLedger

/-- What stands under a name. -/
inductive Node where
  | file (bytes : List UInt8)
  | folder
  deriving DecidableEq, Inhabited, Repr

namespace Node

/-- The number of bytes that a listing gives: those of a file, and a block of 4096 for a folder. -/
def size : Node → Nat
  | file bytes => bytes.length
  | folder => 4096

end Node

/-- Files and folders by name. -/
structure Folder where
  nodes : Std.HashMap String Node := {}

namespace Folder

instance : Inhabited Folder := ⟨{}⟩

/-- What stands under a name. -/
def find? (f : Folder) (name : String) : Option Node := f.nodes[name]?

/-- All names, in order. -/
def names (f : Folder) : List String := f.nodes.keys.mergeSort fun a b => !(b < a)

/-- Puts something under a name, in the place of what was there. -/
def put (f : Folder) (name : String) (n : Node) : Folder := ⟨f.nodes.insert name n⟩

/-- Takes away what stands under a name. -/
def erase (f : Folder) (name : String) : Folder := ⟨f.nodes.erase name⟩

/-- The bytes of a file. -/
def read (f : Folder) (name : String) : Except FileFault (List UInt8) :=
  match f.find? name with
  | some (.file bytes) => .ok bytes
  | some .folder => .error .isDirectory
  | none => .error .notFound

/-- Removes a file. -/
def remove (f : Folder) (name : String) : Except FileFault Folder :=
  match f.find? name with
  | some (.file _) => .ok (f.erase name)
  | some .folder => .error .isDirectory
  | none => .error .notFound

/-- A step of a write. -/
inductive Step where
  /-- Creates an empty file, or empties one. -/
  | create (name : String)
  /-- Adds bytes to the end of a file. -/
  | append (name : String) (bytes : List UInt8)
  /-- Waits until a file is safe from a crash. -/
  | sync (name : String)
  /-- Gives a file another name, in the place of a file that had it. -/
  | rename (source target : String)
  deriving DecidableEq, Repr

/-- Carries out one step. -/
def apply (f : Folder) : Step → Except FileFault Folder
  | .create name =>
    match f.find? name with
    | some .folder => .error .isDirectory
    | _ => .ok (f.put name (.file []))
  | .append name bytes => do
    let before ← f.read name
    return f.put name (.file (before ++ bytes))
  | .sync name => do
    let _ ← f.read name
    return f
  | .rename source target => do
    let bytes ← f.read source
    match f.find? target with
    | some .folder => throw .isDirectory
    | _ => return (f.erase source).put target (.file bytes)

/-- Carries out steps up to the first that fails; what was done until then stays. -/
def run (f : Folder) : List Step → Option FileFault × Folder
  | [] => (none, f)
  | step :: rest =>
    match f.apply step with
    | .ok f => f.run rest
    | .error e => (some e, f)

end Folder

end BlockLedger
