/-!
Paths. A path is a root, empty or of slashes, with the names behind it; empty names and single
points are left out. The suffix of a name begins at its last point, unless that point is the first
or the last character. -/
namespace Tablature.CommandLine

structure Path where
  root : String
  names : List String
  deriving DecidableEq, Repr

namespace Path

/-- Two slashes at the start are kept, any other number above one counts as one. -/
def rootOf (s : List Char) : String :=
  match (s.takeWhile (· == '/')).length with
  | 0 => ""
  | 2 => "//"
  | _ => "/"

def split (s : List Char) : List String := (String.ofList s).splitOn "/"

def ofText (s : String) : Path :=
  ⟨rootOf s.toList, (split s.toList).filter fun n => n != "" && n != "."⟩

def text (p : Path) : String :=
  if p.root = "" ∧ p.names = [] then "." else p.root ++ String.intercalate "/" p.names

def name (p : Path) : String := p.names.getLastD ""

/-- A name in front of its suffix, and the suffix with its point. -/
def splitSuffix (name : List Char) : List Char × List Char :=
  match name.reverse.takeWhile (· != '.'), name.reverse.dropWhile (· != '.') with
  | last, point :: start =>
    if start.isEmpty || last.isEmpty then (name, []) else (start.reverse, point :: last.reverse)
  | _, [] => (name, [])

theorem splitSuffix_append (name : List Char) :
    (splitSuffix name).1 ++ (splitSuffix name).2 = name := by
  have key := List.takeWhile_append_dropWhile (p := (· != '.')) (l := name.reverse)
  unfold splitSuffix
  split
  · next h =>
    split
    · simp
    · rw [h] at key
      simpa using congrArg List.reverse key
  · simp

def stem (p : Path) : String := String.ofList (splitSuffix p.name.toList).1

def withSuffix (p : Path) (suffix : String) : Path :=
  { p with names := p.names.dropLast ++ [p.stem ++ suffix] }

end Path
end Tablature.CommandLine
