import Tablature.CommandLine.FileTree
import Tablature.CommandLine.Journal
import Tablature.CommandLine.Path
import Tablature.CommandLine.Task
import Tablature.Midi.File
import Tablature.Text.ControlSequence
import Tablature.Text.Newline

/-!
Runs of the program. A run reads at most one file and writes at most one, through whatever access it
is given, and reports what it prints. A document is written only when it is complete; a MIDI file
begins with its header, and a note that does not fit its bytes leaves the file at that. -/
namespace Tablature.CommandLine
open Tablature.Text Tablature.Number Tablature.Music Tablature.Notation Tablature.Engraving

inductive Crash where
  | notUtf8
  | noteRange
  | coordinate (fault : Coordinate.Fault)
  | pathWithNull
  deriving DecidableEq, Repr

structure Report where
  exitCode : Nat := 0
  out : String := ""
  err : String := ""
  crash : Option Crash := none
  deriving DecidableEq, Repr

namespace Report

def usage : Report :=
  { exitCode := 2, err := "Usage: kablature [-v] render|tokens|symbols|midi [OPTIONS] FILE\n" }

def failed (out err message : String) : Report :=
  { exitCode := 1, out := out, err := err ++ "  ERROR: " ++ message ++ "\n" }

def crashed (out err : String) (crash : Crash) : Report :=
  { exitCode := 1, out := out, err := err, crash := some crash }

end Report

def version : String := "0.3.0"

def decode? (bytes : List UInt8) : Option String :=
  (String.fromUTF8? ⟨bytes.toArray⟩).map fun s => String.ofList (unifyNewlines s.toList)

def encode (text : String) : List UInt8 := text.toUTF8.toList

def hasNull (path : String) : Bool := path.toList.contains '\x00'

def line (text : String) : String := text ++ "\n"

/-- A line that names files. Control sequences are left out of it, also one that a name begins and
the words behind the name complete. -/
def notice (text : String) : String := line (String.ofList (withoutControls text.toList))

/-- The output of a task that names none: the input with another suffix. -/
def defaultOutput (input suffix : String) : String := ((Path.ofText input).withSuffix suffix).text

/-- A title made of the name of a file, with blanks for low lines. -/
def defaultTitle (input : String) : String :=
  String.ofList ((Path.ofText input).stem.toList.map fun c => if c = '_' then ' ' else c)

def printTokens (text : String) : Report :=
  let found := untilError (readings text)
  let out := String.join (found.1.map fun t => line t.display)
  match found.2 with
  | none => { out := out }
  | some e => .failed out "" e.message

def printSymbols (v : Verbosity) (text : String) : Report :=
  match Notation.symbols text with
  | .error e => .failed "" "" e.message
  | .ok symbols =>
    { out := String.join (symbols.map fun s => line s.text),
      err := printed v [.parsed symbols.length] }

variable {m : Type → Type} [Monad m]

/-- Writes bytes to a path; what was printed before is at hand for the report. -/
def save (files : Files m) (path : String) (bytes : List UInt8) (out err failure : String)
    (done : Report) :
    m Report :=
  if hasNull path then pure (.crashed out err .pathWithNull)
  else do
    match ← files.write path bytes with
    | some e => pure (.failed out err (failure ++ e.message path))
    | none => pure done

def banner (input output : String) (r : Rendition) : String :=
  line ("kablature v" ++ version) ++ notice ("  Input  : " ++ input) ++
  line ("  Format : " ++ r.kind.name ++ "  |  " ++ toString r.format.beatsPerMeasure ++
    " beats x " ++
    toString r.format.measuresPerPage ++ " measures") ++
  notice ("  Output : " ++ output) ++ "\n"

def runRender (files : Files m) (v : Verbosity) (input output : String) (r : Rendition)
    (bytes : List UInt8) :
    m Report :=
  let out := banner input output r
  match decode? bytes with
  | none => pure (.crashed out "" .notUtf8)
  | some text =>
    let err := printed v (documentEntries r text)
    match r.document text with
    | .error (.coordinate f) => pure (.crashed out err (.coordinate f))
    | .error f => pure (.failed out err ("Could not render score: " ++ f.message))
    | .ok document =>
      save files output (encode document) out err "Could not read or write file: "
        { out := out ++ notice ("Done!  Open '" ++ output ++ "' in any browser or SVG viewer."),
          err := err }

def runMidi (files : Files m) (v : Verbosity) (output : String) (tempo : Nat) (bytes : List UInt8) :
    m Report :=
  match decode? bytes with
  | none => pure (.crashed "" "" .notUtf8)
  | some text => match Notation.symbols text with
    | .error e => pure (.failed "" "" ("Could not parse notation: " ++ e.message))
    | .ok symbols =>
      let err := printed v [.parsed symbols.length]
      let out :=
        notice ("Writing " ++ toString symbols.length ++ " symbol(s) → '" ++ output ++ "'...")
      let failure := "Could not write MIDI file: "
      let done : Report :=
        { out := out ++ notice ("Done!  Open '" ++ output ++ "' in any MIDI player."), err := err }
      match (Midi.Melody.ofSymbols (.exact tempo) 80 symbols).bind Midi.Melody.bytes with
      | .ok file => save files output file out err failure done
      | .error _ => save files output Midi.header out err failure (.crashed out err .noteRange)

def Task.runOn (files : Files m) (v : Verbosity) (bytes : List UInt8) : Task → m Report
  | .tokens _ => match decode? bytes with
    | none => pure (.crashed "" "" .notUtf8)
    | some text => pure (printTokens text)
  | .symbols _ => match decode? bytes with
    | none => pure (.crashed "" "" .notUtf8)
    | some text => pure (printSymbols v text)
  | .render input output title kind format =>
    runRender files v input (output.getD (defaultOutput input kind.extension))
      ⟨title.getD (defaultTitle input), kind, format⟩ bytes
  | .midi input output tempo =>
    runMidi files v (output.getD (defaultOutput input ".mid")) tempo bytes

/-- An input that cannot be read is a fault of the command line, and so is a surplus; a name that no
file can have is met before either. -/
def Task.run (files : Files m) (v : Verbosity) (surplus : List String) (task : Task) : m Report :=
  if hasNull task.input then pure (.crashed "" "" .pathWithNull)
  else if !surplus.isEmpty then pure .usage
  else do
    match ← files.read task.input with
    | .error _ => pure .usage
    | .ok bytes => task.runOn files v bytes

def run (files : Files m) (words : List String) : m Report :=
  match Invocation.ofWords words with
  | none => pure .usage
  | some .version => pure { out := line ("kablature, version " ++ version) }
  | some .help => pure { out := Report.usage.err }
  | some (.task verbose task surplus) => task.run files (.ofFlag verbose) surplus

end Tablature.CommandLine
