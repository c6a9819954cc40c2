import Mathlib.Data.List.TakeWhile
import Tablature.Proofs.Decimals
import Tablature.Proofs.Letters
import Tablature.Proofs.Lines
import Tablature.Proofs.Rendering

/-!
The commands that list tokens and symbols. Tokens are printed as they are found, so those in front
of a refused character are listed before the error; symbols are printed when all of them are read,
so an error stands alone. What is listed has one line for each of them (`lines?_join`). Where there
are symbols to list, no character is refused, and neither command changes a file
(`listings_of_text`). -/
namespace Tablature.Notation
open Tablature.Text Tablature.Music

/-- The first character of a text that no token begins with, with its place. -/
def rejected? (text : String) : Option (Char × Place) :=
  (charactersRead text).find? fun read => ¬Readable read.1

def accepted (text : String) : List (Char × Place) :=
  (charactersRead text).takeWhile fun read => Readable read.1

theorem untilError_map_fst (read : List (Char × Place)) :
    (untilError (read.map yield)).1.map .ok =
      (read.takeWhile fun read => Readable read.1).map yield := by
  induction read with
  | nil => rfl
  | cons first read ih =>
    obtain ⟨c, place⟩ := first
    by_cases hc : Readable c
    · obtain ⟨k, hk⟩ := hc
      have hfirst : yield (c, place) = .ok ⟨k, String.singleton c, place⟩ := yield_of_mem hk place
      have hreadable : Readable c := ⟨k, hk⟩
      simp [hfirst, untilError, ih, hreadable]
    · simp [yield_of_not_readable hc, untilError, hc]

theorem mem_linesCharacters {read : Char × Place} {line : ℕ} {lines : List (List Char)}
    (h : read ∈ linesCharacters line lines) :
    isBlank read.1 = false ∧ ∃ line column : ℕ, read.2 = .known line column := by
  obtain ⟨⟨s, line'⟩, -, hread⟩ := List.mem_flatMap.mp h
  obtain ⟨⟨c, column⟩, -, hsome⟩ := List.mem_filterMap.mp hread
  by_cases hb : isBlank c = true
  · simp [hb] at hsome
  · obtain rfl : (c, Place.known line' column) = read := by simpa [hb] using hsome
    exact ⟨by simpa using hb, line', column, rfl⟩

end Tablature.Notation

namespace Tablature.CommandLine
open Tablature.Text Tablature.Music Tablature.Notation

/-- The lines of a printed text, each of them ended; nothing if the last one is not. -/
def lines? (printed : String) : Option (List String) :=
  let parts := printed.toList.splitOn '\n'
  if parts.getLast? = some [] then some (parts.dropLast.map String.ofList) else none

def OneLine (s : String) : Prop := '\n' ∉ s.toList

instance (s : String) : Decidable (OneLine s) := inferInstanceAs (Decidable (_ ∉ _))

theorem splitOn_join {printed : List String} (h : ∀ s ∈ printed, OneLine s) :
    (String.join (printed.map line)).toList.splitOn '\n' = printed.map String.toList ++ [[]] := by
  induction printed with
  | nil => rfl
  | cons s printed ih =>
    have hline : (String.join ((s :: printed).map line)).toList =
        s.toList ++ '\n' :: (String.join (printed.map line)).toList := by
      simp [line, String.join_cons]
    rw [hline, List.splitOn_append_cons_self_of_not_mem (h s List.mem_cons_self),
      ih fun s' hs' => h s' (List.mem_cons_of_mem s hs')]
    rfl

theorem lines?_join {printed : List String} (h : ∀ s ∈ printed, OneLine s) :
    lines? (String.join (printed.map line)) = some printed := by
  rw [lines?, splitOn_join h, List.getLast?_concat, if_pos rfl, List.dropLast_concat, List.map_map]
  simp [Function.comp_def]

theorem lines?_line {s : String} (h : OneLine s) : lines? (line s) = some [s] := by
  have hjoin := lines?_join (List.forall_mem_singleton.mpr h)
  simpa [String.join_cons] using hjoin

section OneLine

theorem OneLine.append {a b : String} (ha : OneLine a) (hb : OneLine b) : OneLine (a ++ b) := by
  rw [OneLine, String.toList_append, List.mem_append, not_or]
  exact ⟨ha, hb⟩

theorem oneLine_nat (n : ℕ) : OneLine (toString n) :=
  Number.Coordinate.notMem_toString (by decide) n

theorem oneLine_int (n : ℤ) : OneLine (toString n) := by
  cases n with
  | ofNat n => exact oneLine_nat n
  | negSucc n =>
    have hsign : toString (Int.negSucc n) = "-" ++ toString (n + 1) := rfl
    rw [hsign]
    exact .append (by decide) (oneLine_nat (n + 1))

theorem oneLine_intercalate {separator : String} (hsep : OneLine separator) {parts : List String}
    (h : ∀ s ∈ parts, OneLine s) : OneLine (separator.intercalate parts) := by
  induction parts with
  | nil => simp [OneLine]
  | cons s parts ih =>
    obtain ⟨hs, hparts⟩ := List.forall_mem_cons.mp h
    cases parts with
    | nil => simpa using hs
    | cons s' parts =>
      rw [String.intercalate_cons_cons]
      exact (hs.append hsep).append (ih hparts)

theorem oneLine_text (s : Symbol) : OneLine s.text := by
  obtain ⟨d, sound⟩ := s
  have hdotted : OneLine (Symbol.truthText d.dotted) := by cases d.dotted <;> decide
  have hduration : OneLine (Symbol.durationText d) :=
    ((oneLine_nat _).append (by decide)).append hdotted
  have hstart : ∀ {word : String}, OneLine word → OneLine (word ++ Symbol.durationText d ++ " ") :=
    fun hword =>
    (hword.append hduration).append (by decide)
  have hend : OneLine ">" := by decide
  cases sound with
  | note p => exact ((hstart (by decide : OneLine "<NOTE ")).append (oneLine_int p)).append hend
  | chord ps =>
    have hpitches : OneLine (", ".intercalate (ps.map (toString : Pitch → String))) :=
      oneLine_intercalate (by decide) (List.forall_mem_map.mpr fun p _ => oneLine_int p)
    have hlist : OneLine (Symbol.listText ps) :=
      (OneLine.append (by decide) hpitches).append (by decide)
    exact ((hstart (by decide : OneLine "<CHORD ")).append hlist).append hend
  | rest => exact (OneLine.append (by decide) hduration).append hend
  | other => exact (by decide : OneLine "<OTHER>")

theorem oneLine_singleton {c : Char} (hc : isBlank c = false) : OneLine (String.singleton c) := by
  rw [OneLine, String.toList_singleton, List.mem_singleton]
  rintro rfl
  cases hc

theorem oneLine_display (k : Kind) {c : Char} (hc : isBlank c = false) (place : Place) :
    OneLine (Token.mk k (String.singleton c) place).display := by
  have hname : OneLine ("<" ++ k.name ++ " \"") := by cases k <;> decide
  exact (hname.append (oneLine_singleton hc)).append (by decide)

end OneLine

def refusal (c : Char) (row column : ℕ) : String :=
  "line " ++ toString row ++ ", column " ++ toString column ++ ": " ++
    ("Unexpected character '" ++ String.singleton c ++ "'.")

/-- The tokens of a text are listed up to the first refused character: a line for each of them, in
their order. If there is such a character, an error tells it and its place. -/
structure ListsTokens (text : String) (report : Report) : Prop where
  listed : ∃ ts : List Token, ts.map .ok = (accepted text).map yield ∧
    lines? report.out = some (ts.map Token.display)
  whole : rejected? text = none → report.exitCode = 0 ∧ report.err = ""
  broken : ∀ c place, rejected? text = some (c, place) → report.exitCode = 1 ∧
    ∃ row column, place = .known row column ∧
    lines? report.err = some ["  ERROR: " ++ refusal c row column]
  crash : report.crash = none

/-- The symbols of a text that is read are listed, a line for each of them, in their order. If the
text is not read, its error stands alone. -/
structure ListsSymbols (text : String) (report : Report) : Prop where
  listed : ∀ symbols, Notation.symbols text = .ok symbols →
    report.exitCode = 0 ∧ lines? report.out = some (symbols.map Symbol.text)
  broken : ∀ e, Notation.symbols text = .error e →
    report.exitCode = 1 ∧ report.out = "" ∧ report.err = "  ERROR: " ++ e.message ++ "\n"
  crash : report.crash = none

section Lists

theorem accepted_spec {text : String} {read : Char × Place} (h : read ∈ accepted text) :
    isBlank read.1 = false ∧ Readable read.1 :=
  ⟨(mem_linesCharacters ((List.takeWhile_sublist _).subset h)).1,
    by simpa using List.mem_takeWhile_imp h⟩

theorem oneLine_accepted {text : String} {ts : List Token}
    (h : ts.map .ok = (accepted text).map yield) :
    ∀ s ∈ ts.map Token.display, OneLine s := by
  refine List.forall_mem_map.mpr fun t ht => ?_
  have hmem : .ok t ∈ (accepted text).map yield := h ▸ List.mem_map_of_mem ht
  obtain ⟨⟨c, place⟩, hread, hyield⟩ := List.mem_map.mp hmem
  obtain ⟨hblank, k, hk⟩ := accepted_spec hread
  obtain rfl := Except.ok.inj ((yield_of_mem hk place).symm.trans hyield)
  exact oneLine_display k hblank place

theorem locate_known (row column : ℕ) (message : String) :
    (Place.known row column).locate message =
      "line " ++ toString row ++ ", column " ++ toString column ++ ": " ++ message := by
  have hnumber : ∀ n : ℕ, toString (n : ℤ) = toString n := fun _ => rfl
  rw [← hnumber row, ← hnumber column]
  rfl

theorem lines?_refusal (row column : ℕ) {c : Char} (hc : isBlank c = false) :
    lines? (line ("  ERROR: " ++ refusal c row column)) =
      some ["  ERROR: " ++ refusal c row column] := by
  have hrow : OneLine ("line " ++ toString row) := .append (by decide) (oneLine_nat row)
  have hplace : OneLine ("line " ++ toString row ++ ", column " ++ toString column ++ ": ") :=
    ((hrow.append (by decide)).append (oneLine_nat column)).append (by decide)
  have hcause : OneLine ("Unexpected character '" ++ String.singleton c ++ "'.") :=
    (OneLine.append (by decide) (oneLine_singleton hc)).append (by decide)
  exact lines?_line (.append (by decide) (hplace.append hcause))

theorem listsTokens_printTokens (text : String) : ListsTokens text (printTokens text) := by
  have hfirst : (untilError (readings text)).1.map .ok = (accepted text).map yield := by
    rw [readings_eq_map, untilError_map_fst, accepted]
  have hsecond : (untilError (readings text)).2 = (rejected? text).map fun read =>
    ⟨read.1, read.2⟩ := by
    rw [readings_eq_map, untilError_map, rejected?]
  rcases hfound : untilError (readings text) with ⟨ts, error⟩
  rw [hfound] at hfirst hsecond
  have hlines : lines? (String.join (ts.map fun t => line t.display)) =
      some (ts.map Token.display) := by
    rw [← lines?_join (oneLine_accepted hfirst), List.map_map]
    rfl
  cases hrefused : rejected? text with
  | none =>
    obtain rfl : error = none := by simpa [hrefused] using hsecond
    have hprint : printTokens text = { out := String.join (ts.map fun t => line t.display) } := by
      simp only [printTokens, hfound]
    rw [hprint]
    exact ⟨⟨ts, hfirst, hlines⟩, fun _ => ⟨rfl, rfl⟩, by simp [hrefused], rfl⟩
  | some read =>
    obtain ⟨c, place⟩ := read
    obtain rfl : error = some ⟨c, place⟩ := by simpa [hrefused] using hsecond
    obtain ⟨hblank, row, column, hplace⟩ := mem_linesCharacters (List.mem_of_find?_eq_some hrefused)
    obtain rfl : place = .known row column := hplace
    have hprint : printTokens text =
        .failed (String.join (ts.map fun t => line t.display)) "" (refusal c row column) := by
      simp only [printTokens, hfound]
      exact congrArg _ (locate_known row column _)
    rw [hprint]
    refine ⟨⟨ts, hfirst, hlines⟩, by simp [hrefused], fun c' place' h => ?_, rfl⟩
    obtain ⟨rfl, rfl⟩ : c = c' ∧ Place.known row column = place' := by simpa [hrefused] using h
    exact ⟨rfl, row, column, rfl, lines?_refusal row column hblank⟩

theorem listsSymbols_printSymbols (v : Verbosity) (text : String) :
    ListsSymbols text (printSymbols v text) := by
  cases hread : Notation.symbols text with
  | error e =>
    have hprint : printSymbols v text = .failed "" "" e.message := by
      simp only [printSymbols, hread]
    rw [hprint]
    refine ⟨by simp [hread], fun e' h => ?_, rfl⟩
    obtain rfl := Except.error.inj (hread.symm.trans h)
    exact ⟨rfl, rfl, rfl⟩
  | ok symbols =>
    have hlines : lines? (String.join (symbols.map fun s => line s.text)) =
        some (symbols.map Symbol.text) := by
      rw [← lines?_join (List.forall_mem_map.mpr fun s _ => oneLine_text s), List.map_map]
      rfl
    have hprint : printSymbols v text =
        { out := String.join (symbols.map fun s => line s.text),
          err := printed v [.parsed symbols.length] } := by
      simp only [printSymbols, hread]
    rw [hprint]
    refine ⟨fun symbols' h => ?_, by simp [hread], rfl⟩
    obtain rfl := Except.ok.inj (hread.symm.trans h)
    exact ⟨rfl, hlines⟩

/-- A text that is read has no character that is refused. -/
theorem rejected?_of_symbols {text : String} {symbols : List Symbol}
    (h : Notation.symbols text = .ok symbols) :
    rejected? text = none := by
  have hall := (tokens_isOk_iff text).mp (tokens_of_symbols h)
  simpa [rejected?, List.find?_eq_none] using hall

theorem ListsSymbols.exit_of_exit {text : String} {tokens symbols : Report}
    (htokens : ListsTokens text tokens)
    (hsymbols : ListsSymbols text symbols) (h : symbols.exitCode = 0) : tokens.exitCode = 0 := by
  cases hread : Notation.symbols text with
  | error e => simp [(hsymbols.broken e hread).1] at h
  | ok found => exact (htokens.whole (rejected?_of_symbols hread)).1

end Lists

section Commands
variable {tree : FileTree} {words : List String} {input text : String}

/-- The line asks for a task, and its input is a file of the tree with a text. -/
structure Supplies (tree : FileTree) (words : List String) (task : Task) (text : String) :
    Prop where
  asked : ∃ verbose, Invocation.ofWords words = some (.task verbose task [])
  named : hasNull task.input = false
  read : ∃ bytes, tree.read task.input = .ok bytes ∧ decode? bytes = some text

theorem ofWords_listing (h : isOptionWord input = false) :
    Invocation.ofWords ["tokens", input] = some (.task false (.tokens input) []) ∧
      Invocation.ofWords ["symbols", input] = some (.task false (.symbols input) []) := by
  have hcommand : isOptionWord "tokens" = false ∧ isOptionWord "symbols" = false := by
    decide +kernel
  have hsorted : sortWords [helpRule] true [input] = some ⟨[], [input]⟩ := by
    simp [sortWords, h, ne_of_operand h]
  constructor
  · rw [Invocation.ofWords, sortWords_of_operand _ hcommand.1, Option.bind_some]
    simp [aboutProgram, ofCommand, commandTask, hsorted, WordList.has]
  · rw [Invocation.ofWords, sortWords_of_operand _ hcommand.2, Option.bind_some]
    simp [aboutProgram, ofCommand, commandTask, hsorted, WordList.has]

theorem runOn_tokens (h : Supplies tree words (.tokens input) text) :
    runOn tree words = (printTokens text, tree) := by
  obtain ⟨⟨verbose, hasked⟩, hnamed, bytes, hread, htext⟩ := h
  have hrun : runOn tree words = (Task.tokens input).on (.ofFlag verbose) tree := by
    simp only [runOn, run, hasked, Task.on]
  rw [hrun, Task.on_of_read (.tokens input) hnamed hread]
  simp only [Task.runOn, htext]
  rfl

theorem runOn_symbols (h : Supplies tree words (.symbols input) text) :
    ∃ v, runOn tree words = (printSymbols v text, tree) := by
  obtain ⟨⟨verbose, hasked⟩, hnamed, bytes, hread, htext⟩ := h
  have hrun : runOn tree words = (Task.symbols input).on (.ofFlag verbose) tree := by
    simp only [runOn, run, hasked, Task.on]
  refine ⟨.ofFlag verbose, ?_⟩
  rw [hrun, Task.on_of_read (.symbols input) hnamed hread]
  simp only [Task.runOn, htext]
  rfl

end Commands

/-- On one and the same text, whatever it is, one command lists the tokens in front of the first
refused character and exits with zero if there is none, and with one behind an error that tells the
character and its place if there is. The other lists all symbols and exits with zero if the text is
read, and else prints nothing but the error and exits with one. So if the second exits with zero,
the first does, and neither changes a file. -/
theorem listings_of_text {tree : FileTree} {words words' : List String} {input text : String}
    (htokens : Supplies tree words (.tokens input) text)
    (hsymbols : Supplies tree words' (.symbols input) text) :
    ListsTokens text (runOn tree words).1 ∧ ListsSymbols text (runOn tree words').1 ∧
      ((runOn tree words').1.exitCode = 0 → (runOn tree words).1.exitCode = 0) ∧
      (runOn tree words).2 = tree ∧ (runOn tree words').2 = tree := by
  obtain ⟨v, hrun'⟩ := runOn_symbols hsymbols
  rw [runOn_tokens htokens, hrun']
  have hlist := listsTokens_printTokens text
  have hlist' := listsSymbols_printSymbols v text
  exact ⟨hlist, hlist', ListsSymbols.exit_of_exit hlist hlist', rfl, rfl⟩

def sunkenLines : List UInt8 := [60, 13, 10, 99, 32, 63]

/-- The tokens in front of the character are listed, but no symbol is: the shift is at fault before
it. -/
theorem listings_of_sunkenLines :
    Supplies (folderOf sunkenLines) ["tokens", "m"] (.tokens "m") "<\nc ?" ∧
      Supplies (folderOf sunkenLines) ["symbols", "m"] (.symbols "m") "<\nc ?" ∧
      lines? (runOn (folderOf sunkenLines) ["tokens", "m"]).1.out =
        some ["<OCTAVE_DOWN \"<\">", "<NOTE_LETTER \"c\">"] ∧
      (runOn (folderOf sunkenLines) ["symbols", "m"]).1.err =
        "  ERROR: line 1, column 1: Unexpected '<'; can't downshift from octave 0.\n" := by
  have hinput : isOptionWord "m" = false := by decide +kernel
  have hread : ∃ bytes, (folderOf sunkenLines).read "m" = .ok bytes ∧
      decode? bytes = some "<\nc ?" :=
    ⟨sunkenLines, read_folderOf _, by decide +kernel⟩
  have htokens : Supplies (folderOf sunkenLines) ["tokens", "m"] (.tokens "m") "<\nc ?" :=
    ⟨⟨false, (ofWords_listing hinput).1⟩, by decide +kernel, hread⟩
  have hsymbols : Supplies (folderOf sunkenLines) ["symbols", "m"] (.symbols "m") "<\nc ?" :=
    ⟨⟨false, (ofWords_listing hinput).2⟩, by decide +kernel, hread⟩
  obtain ⟨hlist, hlist', -⟩ := listings_of_text htokens hsymbols
  refine ⟨htokens, hsymbols, ?_, ?_⟩
  · obtain ⟨ts, hts, hlines⟩ := hlist.listed
    have haccepted : (accepted "<\nc ?").map yield =
        ([⟨.octaveDown, "<", .known 1 1⟩, ⟨.noteLetter, "c", .known 2 1⟩] : List Token).map
          .ok := by decide +kernel
    rw [hlines, List.map_injective_iff.mpr (fun _ _ => Except.ok.inj) (hts.trans haccepted)]
    decide +kernel
  · have hfault : Notation.symbols "<\nc ?" = .error (.refused (.lowestOctave "<") (.known 1 1)) :=
      Progress.symbols_eq_error_iff.mpr (by decide +kernel)
    rw [(hlist'.broken _ hfault).2.2]
    decide +kernel

end Tablature.CommandLine
