/-!
Words of a command line. A word that begins with a dash sets options: a long name with its value
behind an equals sign or in the next word, or a row of short names of which the last may take the
rest of the row or the next word. All other words are operands, and so is everything behind a double
dash. -/
namespace Tablature.CommandLine

/-- An option: its long name, its short name if it has one, and whether it takes a value. -/
structure OptionRule where
  long : String
  short : Option Char := none
  takesValue : Bool := true
  deriving DecidableEq, Repr

structure Setting where
  long : String
  value : String := ""
  deriving DecidableEq, Repr

structure WordSettings where
  settings : List Setting := []
  pending : Option String := none
  deriving DecidableEq, Repr

def shortRow (rules : List OptionRule) : List Char → Option WordSettings
  | [] => some {}
  | c :: rest => match rules.find? fun r => r.short == some c with
    | none => none
    | some rule =>
      if rule.takesValue then
        if rest.isEmpty then some ⟨[], some rule.long⟩
          else some ⟨[⟨rule.long, String.ofList rest⟩], none⟩
      else (shortRow rules rest).map fun w => ⟨⟨rule.long, ""⟩ :: w.settings, w.pending⟩

def splitValue (word : List Char) : String × Option String :=
  match word.dropWhile (· != '=') with
  | [] => (String.ofList word, none)
  | _ :: value => (String.ofList (word.takeWhile (· != '=')), some (String.ofList value))

/-- What an option word sets; nothing if it names no option or gives a value to one that takes
none. -/
def optionWord (rules : List OptionRule) (word : String) : Option WordSettings :=
  match rules.find? fun r => r.long == (splitValue word.toList).1, (splitValue word.toList).2 with
  | some rule, some value => if rule.takesValue then some ⟨[⟨rule.long, value⟩], none⟩ else none
  | some rule, none =>
    if rule.takesValue then some ⟨[], some rule.long⟩ else some ⟨[⟨rule.long, ""⟩], none⟩
  | none, _ => if word.startsWith "--" then none else shortRow rules (word.toList.drop 1)

/-- A single dash is an operand. -/
def isOptionWord (word : String) : Bool := word.startsWith "-" && word != "-"

/-- Settings and operands of a command line. -/
structure WordList where
  settings : List Setting := []
  operands : List String := []
  deriving DecidableEq, Repr

/-- Sorts words. Unless they may be mixed, the first operand ends the options. -/
def sortWords (rules : List OptionRule) (mixed : Bool) : List String → Option WordList
  | [] => some {}
  | word :: rest =>
    if word = "--" then some ⟨[], rest⟩
    else if isOptionWord word then
      match optionWord rules word with
      | none => none
      | some ⟨settings, none⟩ =>
        (sortWords rules mixed rest).map fun w => ⟨settings ++ w.settings, w.operands⟩
      | some ⟨settings, some long⟩ => match rest with
        | [] => none
        | value :: rest =>
          (sortWords rules mixed rest).map fun w => ⟨settings ++ ⟨long, value⟩ :: w.settings,
            w.operands⟩
    else if mixed then (sortWords rules mixed rest).map fun w => ⟨w.settings, word :: w.operands⟩
    else some ⟨[], word :: rest⟩

namespace WordList

def has (w : WordList) (long : String) : Bool := w.settings.any (·.long == long)

/-- The value set last. -/
def value? (w : WordList) (long : String) : Option String :=
  ((w.settings.filter (·.long == long)).getLast?).map Setting.value

end WordList
end Tablature.CommandLine
