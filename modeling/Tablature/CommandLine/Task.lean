import Tablature.CommandLine.Words
import Tablature.Rendition
import Tablature.Text.Numeral

/-!
What a command line asks for: one of four tasks, or a word about the program itself. A line that
asks for nothing the program knows has no meaning, and `Invocation.ofWords` answers nothing.
Operands behind the input of a task are kept as its surplus. -/
namespace Tablature.CommandLine
open Tablature.Engraving Tablature.Text

inductive Task where
  | render (input : String) (output title : Option String) (kind : DocumentKind)
    (format : PageFormat)
  | tokens (input : String)
  | symbols (input : String)
  | midi (input : String) (output : Option String) (tempo : Nat)
  deriving DecidableEq, Repr

def Task.input : Task → String
  | render input _ _ _ _ => input
  | tokens input => input
  | symbols input => input
  | midi input _ _ => input

inductive Invocation where
  | version
  | help
  | task (verbose : Bool) (task : Task) (surplus : List String)
  deriving DecidableEq, Repr

def helpRule : OptionRule := ⟨"--help", some 'h', false⟩

def outputRule : OptionRule := ⟨"--output", some 'o', true⟩

def programRules : List OptionRule :=
  [helpRule, ⟨"--version", none, false⟩, ⟨"--verbose", some 'v', false⟩]

def renderRules : List OptionRule :=
  [helpRule, outputRule, ⟨"--beats", some 'b', true⟩, ⟨"--measures", some 'm', true⟩,
   ⟨"--format", none, true⟩, ⟨"--title", none, true⟩]

def midiRules : List OptionRule := [helpRule, outputRule, ⟨"--tempo", none, true⟩]

/-- A whole number between bounds, or the default if the option is not set. -/
def numberSetting (w : WordList) (long : String) (missing least : Nat) (most : Option Nat) :
    Option Nat :=
  match w.value? long with
  | none => some missing
  | some text => match integer? text.toList with
    | none => none
    | some n =>
      if (least : Int) ≤ n ∧ most.all (fun m => decide (n ≤ (m : Int))) = true then some n.toNat
        else none

/-- Letters are compared without case; the long s counts as an s. -/
def foldCase (c : Char) : Char := if c = 'ſ' then 's' else c.toLower

def kindSetting (w : WordList) : Option DocumentKind :=
  match w.value? "--format" with
  | none => some .svg
  | some text =>
    [DocumentKind.svg, DocumentKind.html].find? fun k => k.name.toList == text.toList.map foldCase

def renderTask (w : WordList) : Option Task :=
  match w.operands.head?, numberSetting w "--beats" 8 1 none,
    numberSetting w "--measures" 7 1 none, kindSetting w with
  | some input, some beats, some measures, some kind =>
    match PageFormat.ofInts beats measures with
    | .ok format => some (.render input (w.value? "--output") (w.value? "--title") kind format)
    | .error _ => none
  | _, _, _, _ => none

def midiTask (w : WordList) : Option Task :=
  match w.operands.head?, numberSetting w "--tempo" 80 20 (some 300) with
  | some input, some tempo => some (.midi input (w.value? "--output") tempo)
  | _, _ => none

def commandTask (rules : List OptionRule) (task : WordList → Option Task) (verbose : Bool)
    (words : List String) :
    Option Invocation :=
  (sortWords rules true words).bind fun w =>
    if w.has "--help" then some .help else (task w).map fun t => .task verbose t (w.operands.drop 1)

def aboutProgram (w : WordList) : Option Invocation :=
  (w.settings.find? fun s => s.long == "--version" || s.long == "--help").map fun s =>
    if s.long = "--version" then .version else .help

/-- An unknown command may hide options of the program behind a double dash. -/
def ofCommand (verbose : Bool) : List String → Option Invocation
  | [] => none
  | command :: words => match command with
    | "render" => commandTask renderRules renderTask verbose words
    | "tokens" => commandTask [helpRule] (fun w => w.operands.head?.map .tokens) verbose words
    | "symbols" => commandTask [helpRule] (fun w => w.operands.head?.map .symbols) verbose words
    | "midi" => commandTask midiRules midiTask verbose words
    | _ => (sortWords programRules false (command :: words)).bind aboutProgram

def Invocation.ofWords (words : List String) : Option Invocation :=
  (sortWords programRules false words).bind fun w => match aboutProgram w with
    | some about => some about
    | none => ofCommand (w.has "--verbose") w.operands

end Tablature.CommandLine
