import Tablature.Text.Quoted

/-!
Files and folders. A tree lists its files and empty folders by their names from the root; a folder
also exists if something lies in it. Relative paths start at the working folder. -/
namespace Tablature.CommandLine
open Tablature.Text

structure SystemError where
  number : Nat
  text : String
  deriving DecidableEq, Repr

namespace SystemError

def missing : SystemError := ⟨2, "No such file or directory"⟩

def notFolder : SystemError := ⟨20, "Not a directory"⟩

def isFolder : SystemError := ⟨21, "Is a directory"⟩

def nameTooLong : SystemError := ⟨36, "File name too long"⟩

def message (e : SystemError) (path : String) : String :=
  "[Errno " ++ toString e.number ++ "] " ++ e.text ++ ": " ++ quoted path

end SystemError

/-- How a program reaches files: reading answers the bytes of a file, writing creates a file or
replaces it. -/
structure Files (m : Type → Type) where
  read : String → m (Except SystemError (List UInt8))
  write : String → List UInt8 → m (Option SystemError)

abbrev Location := List String

inductive Item where
  | file (bytes : List UInt8)
  | folder
  deriving DecidableEq, Repr

structure FileTree where
  items : List (Location × Item)
  working : Location
  deriving DecidableEq, Repr

namespace FileTree

def find? (t : FileTree) (l : Location) : Option Item :=
  match t.items.lookup l with
  | some item => some item
  | none =>
    if l.isPrefixOf t.working || t.items.any (fun item => l.isPrefixOf item.1) then some .folder
      else none

/-- Goes from a folder along names; two points lead back. -/
def walk (t : FileTree) : Location → List String → Except SystemError Location
  | here, [] => .ok here
  | here, name :: rest => match t.find? here with
    | none => .error .missing
    | some (.file _) => .error .notFolder
    | some .folder =>
      if name = "" ∨ name = "." then t.walk here rest
      else if name = ".." then t.walk here.dropLast rest
      else if 255 < name.utf8ByteSize then .error .nameTooLong
      else match t.find? (here ++ [name]) with
        | none => .error .missing
        | some _ => t.walk (here ++ [name]) rest

/-- Where a path starts. -/
def origin (t : FileTree) (path : String) : Location :=
  if path.startsWith "/" then [] else t.working

def pathLimit : Nat := 4096

def read (t : FileTree) (path : String) : Except SystemError (List UInt8) :=
  if path = "" then .error .missing
  else if pathLimit ≤ path.utf8ByteSize then .error .nameTooLong
  else match t.walk (t.origin path) (path.splitOn "/") with
    | .error e => .error e
    | .ok l => match t.find? l with
      | some (.file bytes) => .ok bytes
      | some .folder => .error .isFolder
      | none => .error .missing

def put (t : FileTree) (l : Location) (bytes : List UInt8) : FileTree :=
  { t with items := t.items.filter (fun item => item.1 != l) ++ [(l, .file bytes)] }

/-- The location at which a path would create a file. -/
def target (t : FileTree) (path : String) : Except SystemError Location :=
  if path = "" then .error .missing
  else if pathLimit ≤ path.utf8ByteSize then .error .nameTooLong
  else
    let names := (path.splitOn "/").filter (· != "")
    match names.getLast? with
    | none => .error .isFolder
    | some name => match t.walk (t.origin path) names.dropLast with
      | .error e => .error e
      | .ok here => match t.find? here with
        | none => .error .missing
        | some (.file _) => .error .notFolder
        | some .folder =>
          if path.endsWith "/" ∨ name = "." ∨ name = ".." then .error .isFolder
          else if 255 < name.utf8ByteSize then .error .nameTooLong
          else match t.find? (here ++ [name]) with
            | some .folder => .error .isFolder
            | _ => .ok (here ++ [name])

def write (t : FileTree) (path : String) (bytes : List UInt8) : Except SystemError FileTree :=
  (t.target path).map fun l => t.put l bytes

def files : Files (StateM FileTree) where
  read path := fun t => (t.read path, t)
  write path bytes := fun t => match t.write path bytes with
    | .ok t' => (none, t')
    | .error e => (some e, t)

end FileTree
end Tablature.CommandLine
