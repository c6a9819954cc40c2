import Tablature.Proofs.Acceptance
import Tablature.Proofs.Printing
import Tablature.Proofs.Pulling
import Tablature.Proofs.Rendering
import Tablature.Proofs.Wrapping

/-!
What becomes of a text that is to be rendered. Unless its score is oversized, the notation alone
decides: there is a document, or a character, a token or a symbol is at fault. An oversized score
has no document; where its notation has no fault, that leaves nothing to report but a coordinate,
and the command breaks off. -/
namespace Tablature.Drawing
open Tablature.Text

namespace Html

theorem exists_page? (title : String) (lines : List String) :
    ∃ page, page? title [Svg.document (Svg.declaration :: lines)] = some page := by
  obtain ⟨rest, hrest⟩ : ∃ rest, (Svg.document (Svg.declaration :: lines)).toList =
      Svg.declaration.toList ++ rest := by
    rw [Svg.document, String.toList_append, String.toList_intercalate, List.map_cons]
    cases lines with
    | nil => exact ⟨"\n".toList, by simp⟩
    | cons line lines =>
      exact ⟨_, by rw [List.map_cons, List.intercalate_cons_cons, List.append_assoc,
        List.append_assoc]⟩
  exact ⟨_, page?_of_body? title (body?_eq hrest)⟩

end Html
end Tablature.Drawing

namespace Tablature
open Tablature.Text Tablature.Number Tablature.Music Tablature.Notation Tablature.Engraving
  Tablature.Drawing

/-- A fault that the notation has: a character, a token or chord, a measure that is overfull, or a
pitch without a lane. -/
inductive DocumentFault.OfNotation : DocumentFault → Prop
  | scan (e : ScanError) : OfNotation (.reading (.scan e))
  | refused (cause : Cause) (place : Place) : OfNotation (.reading (.refused cause place))
  | overfull (beats measure received : Nat) :
    OfNotation (.engraving (.overfull beats measure received))
  | outOfRange (pitch : Pitch) : OfNotation (.engraving (.outOfRange pitch))

theorem ofNotation_of_symbols {text : String} {e : ReadError}
    (h : Notation.symbols text = .error e) :
    DocumentFault.OfNotation (.reading e) := by
  cases htokens : untilError (readings text) with
  | mk ts error =>
    cases error with
    | none =>
      have hok : tokens text = .ok ts := by rw [tokens, htokens]
      rw [symbols_of_tokens hok] at h
      obtain ⟨cause, place, rfl⟩ := Progress.refused_of_all (scanned_of_tokens hok) h
      exact .refused cause place
    | some error =>
      rcases refused_or_scan htokens with ⟨cause, place, -, -, htext⟩ | ⟨-, htext⟩
      · obtain rfl := Except.error.inj (h.symm.trans htext)
        exact .refused cause place
      · obtain rfl := Except.error.inj (h.symm.trans htext)
        exact .scan error

theorem playable_of_writable {s : Symbol} (h : Writable s) : s.Playable := by
  rcases s with ⟨d, p | ps | _ | _⟩
  · trivial
  · exact h.1
  · trivial
  · exact h.elim

theorem ofNotation_of_fault? {format : PageFormat} {m : Moment} {f : Engraving.Fault}
    (hplay : m.symbol.Playable)
    (h : m.fault? format = some f) : DocumentFault.OfNotation (.engraving f) := by
  by_cases hfits : m.Fits format
  · rw [Moment.fault?, if_pos hfits] at h
    obtain ⟨p, hp⟩ : ∃ p, m.symbol.pitches.find? (fun p => ¬InReach p) = some p := by
      rw [← Option.isSome_iff_exists, List.find?_isSome]
      by_contra hnone
      have hdrawable : Drawable m.symbol := ⟨hplay, by simpa using hnone⟩
      simp [(glyphFault?_eq_none_iff _).mpr hdrawable] at h
    obtain rfl := Option.some.inj ((glyphFault?_of_find? hplay hp).symm.trans h)
    exact .outOfRange p
  · rw [Moment.fault?, if_neg hfits] at h
    obtain rfl := Option.some.inj h
    exact .overfull _ _ _

namespace Rendition
variable (r : Rendition) {symbols : List Symbol}

theorem svgOf_engrave {f : PageFormat} {pages : Int}
    (hwritten : Svg.firstFault? (((Sheet.forSymbols f symbols).engrave pages symbols).drawing.map
      instruction) = none)
    (hfault : ((Sheet.forSymbols f symbols).engrave pages symbols).fault = none) :
    ∃ lines, svgOf ((Sheet.forSymbols f symbols).engrave pages symbols) =
      .ok (Svg.document (Svg.declaration :: lines)) := by
  simp only [svgOf, hwritten, hfault]
  rw [engrave_drawing_eq_pageMarks, List.map_cons] at hwritten ⊢
  obtain ⟨e, -, hlines⟩ := Svg.writeAll_start hwritten
  exact ⟨_, congrArg (Except.ok ∘ Svg.document) hlines⟩

/-- An oversized score has a coordinate that cannot be written; any other has a drawing or a fault
of its notation. -/
theorem svg_cases (symbols : List Symbol) :
    (Oversized r.format symbols ∧ ∃ f, r.svg symbols = .error (.coordinate f)) ∨
    ¬Oversized r.format symbols ∧
      ((∃ m f, refused? r.format symbols = some m ∧ m.fault? r.format = some f ∧
          r.svg symbols = .error (.engraving f)) ∨
        refused? r.format symbols = none ∧
          ∃ lines, r.svg symbols = .ok (Svg.document (Svg.declaration :: lines))) := by
  cases hpages : (Sheet.forSymbols r.format symbols).pageCount? with
  | none =>
    have hsvg : r.svg symbols = .error (.coordinate .outOfRange) := by
      rw [svg_eq, engrave?, hpages, Option.map_none]
    exact .inl ⟨.pages (Sheet.pageCount?_eq_none_iff.mp hpages), _, hsvg⟩
  | some pages =>
    have hsvg : r.svg symbols =
        svgOf ((Sheet.forSymbols r.format symbols).engrave pages symbols) := by
      rw [svg_eq, engrave?, hpages, Option.map_some]
    have hprinted :=
      Svg.firstFault?_eq_none_iff ((Sheet.forSymbols r.format symbols).engrave pages
        symbols).drawing
    rw [printable_iff_not_oversized hpages] at hprinted
    rw [hsvg]
    cases hwritten : Svg.firstFault?
        (((Sheet.forSymbols r.format symbols).engrave pages symbols).drawing.map instruction) with
    | some f =>
      have hover : Oversized r.format symbols := by
        by_contra hover
        cases hwritten.symm.trans (hprinted.mpr hover)
      exact .inl ⟨hover, f, by simp only [svgOf, hwritten]⟩
    | none =>
      refine .inr ⟨hprinted.mp hwritten, ?_⟩
      cases hfault : ((Sheet.forSymbols r.format symbols).engrave pages symbols).fault with
      | some f =>
        obtain ⟨m, hm, hf⟩ :=
          Option.bind_eq_some_iff.mp ((engrave_fault r.format symbols pages).symm.trans hfault)
        exact .inl ⟨m, f, hm, hf, by simp only [svgOf, hwritten, hfault]⟩
      | none =>
        exact .inr ⟨(engrave_fault_eq_none_iff r.format symbols pages).mp hfault,
          svgOf_engrave hwritten hfault⟩

theorem exists_wrap (lines : List String) :
    ∃ document, r.wrap (Svg.document (Svg.declaration :: lines)) = .ok document := by
  rw [wrap]
  cases r.kind with
  | svg => exact ⟨_, rfl⟩
  | html =>
    obtain ⟨page, hpage⟩ := Html.exists_page? r.title lines
    exact ⟨page, by simp [hpage]⟩

/-- The text is read, and its score is oversized. -/
def TooLarge (text : String) : Prop :=
  ∃ symbols, Notation.symbols text = .ok symbols ∧ Oversized r.format symbols

theorem tooLarge_iff {text : String} (h : Notation.symbols text = .ok symbols) :
    r.TooLarge text ↔ Oversized r.format symbols := by
  constructor
  · rintro ⟨symbols', hok, hover⟩
    exact Except.ok.inj (h.symm.trans hok) ▸ hover
  · exact fun hover => ⟨symbols, h, hover⟩

theorem document_cases (text : String) :
    (r.TooLarge text ∧ ∃ f, r.document text = .error (.coordinate f)) ∨
    ¬r.TooLarge text ∧ ((∃ document, r.document text = .ok document) ∨
      ∃ f, DocumentFault.OfNotation f ∧ r.document text = .error f) := by
  fun_cases document r text with
  | case1 e he =>
    refine .inr ⟨?_, .inr ⟨_, ofNotation_of_symbols he, rfl⟩⟩
    rintro ⟨symbols, hok, -⟩
    cases he.symm.trans hok
  | case2 symbols hsymbols f hf =>
    rw [r.tooLarge_iff hsymbols]
    rcases r.svg_cases symbols with
      ⟨hover, f', hsvg⟩ | ⟨hover, ⟨m, f', hm, hfault, hsvg⟩ | ⟨-, lines, hsvg⟩⟩
    · obtain rfl := Except.error.inj (hf.symm.trans hsvg)
      exact .inl ⟨hover, f', rfl⟩
    · obtain rfl := Except.error.inj (hf.symm.trans hsvg)
      have hread : m.symbol ∈ symbols := by
        rw [← timeline_map_symbol 0 symbols]
        exact List.mem_map_of_mem (List.mem_of_find?_eq_some hm)
      have hplay := playable_of_writable (writable_of_all hsymbols m.symbol hread)
      exact .inr ⟨hover, .inr ⟨_, ofNotation_of_fault? hplay hfault, rfl⟩⟩
    · cases hf.symm.trans hsvg
  | case3 symbols hsymbols drawing hdrawing =>
    rw [r.tooLarge_iff hsymbols]
    rcases r.svg_cases symbols with ⟨-, f, hsvg⟩ | ⟨hover, ⟨-, f, -, -, hsvg⟩ | ⟨-, lines, hsvg⟩⟩
    · cases hdrawing.symm.trans hsvg
    · cases hdrawing.symm.trans hsvg
    · obtain rfl := Except.ok.inj (hdrawing.symm.trans hsvg)
      exact .inr ⟨hover, .inl (r.exists_wrap lines)⟩

variable {r} in
theorem coordinate_of_tooLarge {text : String} (h : r.TooLarge text) :
    ∃ f, r.document text = .error (.coordinate f) := by
  rcases r.document_cases text with ⟨-, hfault⟩ | ⟨hsmall, -⟩
  · exact hfault
  · exact absurd h hsmall

theorem fails_of_notation_iff (text : String) :
    ((∃ document, r.document text = .ok document) ∨
      ∃ f, DocumentFault.OfNotation f ∧ r.document text = .error f) ↔ ¬r.TooLarge text := by
  rcases r.document_cases text with ⟨hlarge, f, hfault⟩ | ⟨hsmall, houtcome⟩
  · refine iff_of_false ?_ (not_not.mpr hlarge)
    rintro (⟨document, hok⟩ | ⟨f', hnotation, herror⟩)
    · cases hfault.symm.trans hok
    · obtain rfl := Except.error.inj (hfault.symm.trans herror)
      cases hnotation
  · exact iff_of_true houtcome hsmall

theorem tooLarge_of_coordinate {text : String} {f : Coordinate.Fault}
    (h : r.document text = .error (.coordinate f)) :
    r.TooLarge text := by
  by_contra hsmall
  rcases (r.fails_of_notation_iff text).mpr hsmall with ⟨document, hok⟩ | ⟨f', hnotation, herror⟩
  · cases h.symm.trans hok
  · obtain rfl := Except.error.inj (h.symm.trans herror)
    cases hnotation

theorem refused?_of_sound {text : String} (hsymbols : Notation.symbols text = .ok symbols)
    (hsound : ∀ i s, symbols[i]? = some s →
      StaysInMeasure r.format symbols i s ∧ ∀ p ∈ s.pitches, InReach p) :
    refused? r.format symbols = none := by
  rw [refused?_eq_none_iff]
  intro i s hs
  have hplayable : s.Playable :=
    playable_of_writable (writable_of_all hsymbols s (List.mem_of_getElem? hs))
  exact (accepted_momentAt_iff hplayable).mpr (hsound i s hs)

theorem document_of_sound {text : String} (hsymbols : Notation.symbols text = .ok symbols)
    (hsound : ∀ i s, symbols[i]? = some s →
      StaysInMeasure r.format symbols i s ∧ ∀ p ∈ s.pitches, InReach p) :
    (∃ document, r.document text = .ok document) ↔ ¬Oversized r.format symbols := by
  have hrefused := r.refused?_of_sound hsymbols hsound
  have hsvg := r.svg_cases symbols
  simp only [hrefused, reduceCtorEq, exists_false, false_and, false_or, true_and] at hsvg
  fun_cases document r text with
  | case1 e he => cases he.symm.trans hsymbols
  | case2 symbols' hsymbols' f hf =>
    obtain rfl := Except.ok.inj (hsymbols.symm.trans hsymbols')
    rcases hsvg with ⟨hover, -⟩ | ⟨-, lines, hsvg⟩
    · simp [hover]
    · cases hf.symm.trans hsvg
  | case3 symbols' hsymbols' drawing hdrawing =>
    obtain rfl := Except.ok.inj (hsymbols.symm.trans hsymbols')
    rcases hsvg with ⟨-, f, hsvg⟩ | ⟨hover, lines, hsvg⟩
    · cases hdrawing.symm.trans hsvg
    · obtain rfl := Except.ok.inj (hdrawing.symm.trans hsvg)
      exact iff_of_true (r.exists_wrap lines) hover

end Rendition
end Tablature

namespace Tablature.CommandLine
open Tablature.Text Tablature.Number Tablature.Music Tablature.Engraving

/-- The line asks for a rendition of a file, and the tree has a text there. -/
structure Takes (tree : FileTree) (words : List String) (r : Rendition) (text : String) : Prop where
  read : ∃ input path bytes, AsksFor words input path r ∧ hasNull input = false ∧
    tree.read input = .ok bytes ∧
    decode? bytes = some text

section Crashes
variable {tree : FileTree} {v : Verbosity} {input path : String} {r : Rendition}
  {f : Coordinate.Fault}

theorem save_crash_ne (bytes : List UInt8) {done : Report} (hdone : done.crash = none)
    (out err complaint : String) :
    ((save FileTree.files path bytes out err complaint done).run tree).run.1.crash ≠
      some (.coordinate f) := by
  cases hnull : hasNull path with
  | true => simp [save_of_null _ _ _ _ _ hnull, Report.crashed]
  | false =>
    cases htarget : tree.target path with
    | error e => simp [save_of_error _ _ _ _ _ hnull htarget, Report.failed]
    | ok l => simp [save_of_target _ _ _ _ _ hnull htarget, hdone]

theorem runRender_crash_iff {bytes : List UInt8} :
    ((runRender FileTree.files v input path r bytes).run tree).run.1.crash = some (.coordinate f) ↔
      ∃ text, decode? bytes = some text ∧ r.document text = .error (.coordinate f) := by
  cases htext : decode? bytes with
  | none =>
    simp only [runRender, htext, reduceCtorEq, false_and, exists_false, iff_false]
    simp [Report.crashed]
  | some text =>
    simp only [Option.some.injEq, exists_eq_left']
    cases hdocument : r.document text with
    | error f' =>
      cases f' with
      | coordinate f' =>
        simp only [runRender, htext, hdocument, Except.error.injEq, DocumentFault.coordinate.injEq]
        exact ⟨fun h => Crash.coordinate.inj (Option.some.inj h),
          fun h => congrArg (some ∘ Crash.coordinate) h⟩
      | reading | engraving | declaration =>
        simp only [runRender, htext, hdocument, Except.error.injEq, reduceCtorEq, iff_false]
        simp [Report.failed]
    | ok document =>
      simp only [runRender, htext, hdocument, reduceCtorEq, iff_false]
      exact save_crash_ne _ rfl _ _ _

theorem render_crash_iff {output title : Option String} {kind : DocumentKind} {format : PageFormat}
    (hr : ⟨title.getD (defaultTitle input), kind, format⟩ = r) (surplus : List String)
    {result : Report × FileTree}
    (hresult : (((Task.render input output title kind format).run FileTree.files v surplus).run
      tree).run = result) :
    result.1.crash = some (.coordinate f) ↔ surplus = [] ∧ hasNull input = false ∧
      ∃ bytes text, tree.read input = .ok bytes ∧ decode? bytes = some text ∧
        r.document text = .error (.coordinate f) := by
  rcases render_reads rfl hr surplus hresult with
    ⟨hsurplus, hname, bytes, hread, rfl⟩ | ⟨hunread, -, hcrash⟩
  · rw [runRender_crash_iff]
    simp [hsurplus, hname, hread]
  · refine iff_of_false (hcrash f) ?_
    rintro ⟨hsurplus, hname, bytes, _, hread, -⟩
    exact hunread ⟨bytes, hsurplus, hname, hread⟩

end Crashes

/-- The command breaks off at a coordinate if and only if it takes a text whose document does. -/
theorem crash_iff (tree : FileTree) {words : List String} (h : CallsFor "render" words)
    (f : Coordinate.Fault) :
    (runOn tree words).1.crash = some (.coordinate f) ↔
      ∃ r text, Takes tree words r text ∧ r.document text = .error (.coordinate f) := by
  rcases ofWords_of_callsFor_render h with hnone | hhelp | hrender
  · have hrun : runOn tree words = (.usage, tree) := by simp only [runOn, run, hnone]; rfl
    rw [hrun]
    refine iff_of_false (by simp [Report.usage]) ?_
    rintro ⟨_, _, ⟨_, _, _, ⟨_, _, _, hsome, -⟩, -⟩, -⟩
    simp [hnone] at hsome
  · refine iff_of_false (by simp [runOn, run, hhelp]) ?_
    rintro ⟨_, _, ⟨_, _, _, ⟨_, _, _, hsome, -⟩, -⟩, -⟩
    simp [hhelp] at hsome
  · obtain ⟨verbose, input, output, title, kind, format, surplus, hwords⟩ := hrender
    have hrun : (((Task.render input output title kind format).run FileTree.files
        (.ofFlag verbose) surplus).run tree).run = runOn tree words := by
      simp only [runOn, run, hwords]
    rw [render_crash_iff rfl surplus hrun]
    have hasks := asksFor_iff hwords
    constructor
    · rintro ⟨hsurplus, hname, bytes, text, hread, htext, hdocument⟩
      exact ⟨_, text, ⟨input, _, bytes, (hasks _ _ _).mpr ⟨hsurplus, rfl, rfl, rfl⟩, hname, hread,
        htext⟩, hdocument⟩
    · rintro ⟨r, text, ⟨input', path, bytes, hline, hname, hread, htext⟩, hdocument⟩
      obtain ⟨hsurplus, rfl, rfl, rfl⟩ := (hasks _ _ _).mp hline
      exact ⟨hsurplus, hname, bytes, text, hread, htext, hdocument⟩

theorem crash_iff_tooLarge (tree : FileTree) {words : List String} (h : CallsFor "render" words) :
    (∃ f, (runOn tree words).1.crash = some (.coordinate f)) ↔
      ∃ r text, Takes tree words r text ∧ r.TooLarge text := by
  simp only [crash_iff tree h]
  constructor
  · rintro ⟨f, r, text, htakes, hdocument⟩
    exact ⟨r, text, htakes, r.tooLarge_of_coordinate hdocument⟩
  · rintro ⟨r, text, htakes, hlarge⟩
    obtain ⟨f, hdocument⟩ := r.coordinate_of_tooLarge hlarge
    exact ⟨f, r, text, htakes, hdocument⟩

/-- Unless its score is oversized, a text has a document or a fault of its notation, and it has a
document if its symbols keep to their measures and to the lanes; an oversized score leaves a
coordinate without a text. The command breaks off there, and at no other coordinate. -/
theorem renders_unless_oversized (r : Rendition) (text : String) (tree : FileTree)
    {words : List String} (h : CallsFor "render" words) :
    (((∃ document, r.document text = .ok document) ∨
        ∃ f, DocumentFault.OfNotation f ∧ r.document text = .error f) ↔ ¬r.TooLarge text) ∧
      (r.TooLarge text → ∃ f, r.document text = .error (.coordinate f)) ∧
      (∀ symbols, Notation.symbols text = .ok symbols →
        (∀ i s, symbols[i]? = some s → StaysInMeasure r.format symbols i s ∧ ∀ p ∈ s.pitches,
          InReach p) →
        ((∃ document, r.document text = .ok document) ↔ ¬Oversized r.format symbols)) ∧
      ((∃ f, (runOn tree words).1.crash = some (.coordinate f)) ↔
        ∃ r text, Takes tree words r text ∧ r.TooLarge text) :=
  ⟨r.fails_of_notation_iff text, r.coordinate_of_tooLarge, fun _ => r.document_of_sound,
    crash_iff_tooLarge tree h⟩

theorem ofWords_of_format {f : PageFormat} {input beats measures : String}
    (hinput : isOptionWord input = false) (output : String)
    (hbeats : integer? beats.toList = some (f.beatsPerMeasure : Int))
    (hmeasures : integer? measures.toList = some (f.measuresPerPage : Int)) :
    Invocation.ofWords ["render", input, "-o", output, "--beats", beats, "--measures", measures] =
      some (.task false (.render input (some output) none .svg f) []) := by
  have hcommand : isOptionWord "render" = false := by decide +kernel
  have hoption : isOptionWord "-o" = true ∧ isOptionWord "--beats" = true ∧
      isOptionWord "--measures" = true := by decide +kernel
  have hwaits : optionWord renderRules "-o" = some ⟨[], some "--output"⟩ ∧
      optionWord renderRules "--beats" = some ⟨[], some "--beats"⟩ ∧
      optionWord renderRules "--measures" = some ⟨[], some "--measures"⟩ := by decide +kernel
  have hsorted : sortWords renderRules true
        [input, "-o", output, "--beats", beats, "--measures", measures] =
      some ⟨[⟨"--output", output⟩, ⟨"--beats", beats⟩, ⟨"--measures", measures⟩], [input]⟩ := by
    simp [sortWords, hinput, ne_of_operand hinput, hoption, hwaits]
  have hpositive := f.beats_pos
  have hpositive' := f.measures_pos
  have htask : renderTask
        ⟨[⟨"--output", output⟩, ⟨"--beats", beats⟩, ⟨"--measures", measures⟩], [input]⟩ =
      some (.render input (some output) none .svg f) := by
    have hle : 1 ≤ (f.beatsPerMeasure : Int) ∧ 1 ≤ (f.measuresPerPage : Int) := by omega
    simp [renderTask, numberSetting, kindSetting, WordList.value?, hbeats, hmeasures, hle,
      PageFormat.ofInts, hpositive, hpositive']
  rw [Invocation.ofWords, sortWords_of_operand _ hcommand, Option.bind_some]
  simp [aboutProgram, ofCommand, commandTask, hsorted, htask, WordList.has]

def wideFormat : PageFormat := ⟨10 ^ 308, 1, by decide +kernel, by decide⟩

def wideRendition : Rendition := ⟨defaultTitle "m", .svg, wideFormat⟩

def wideLine : List String :=
  ["render", "m", "-o", "n", "--beats", toString (10 ^ 308), "--measures", "1"]

/-- The bytes of 1.cc, a dotted eighth note and another one that it puts half a pixel off. -/
def dottedBytes : List UInt8 := [49, 46, 99, 99]

def dottedNotes : List Symbol := [⟨⟨.eighth, true⟩, .note 0⟩, ⟨⟨.eighth, true⟩, .note 0⟩]

theorem callsFor_wideLine : CallsFor "render" wideLine := callsFor_of_operand (by decide +kernel) _

theorem takes_wideLine : Takes (folderOf dottedBytes) wideLine wideRendition "1.cc" := by
  have hbeats : integer? (toString (10 ^ 308)).toList =
      some (wideFormat.beatsPerMeasure : Int) := by
    rw [Nat.toString_eq_repr, Nat.toList_repr]
    decide +kernel
  have hwords :=
    ofWords_of_format (f := wideFormat) (by decide +kernel : isOptionWord "m" = false) "n" hbeats
    (by decide +kernel : integer? "1".toList = _)
  have hasks := (asksFor_iff hwords "m" "n" wideRendition).mpr ⟨rfl, rfl, rfl, rfl⟩
  exact ⟨"m", "n", dottedBytes, hasks, by decide +kernel, read_folderOf _, by decide +kernel⟩

theorem symbols_dottedNotes : Notation.symbols "1.cc" = .ok dottedNotes := by decide +kernel

theorem sound_dottedNotes (i : Nat) (s : Symbol) (h : dottedNotes[i]? = some s) :
    StaysInMeasure wideFormat dottedNotes i s ∧ ∀ p ∈ s.pitches, InReach p := by
  match i with
  | 0 | 1 =>
    cases h
    decide +kernel

theorem oversized_dottedNotes : Oversized wideFormat dottedNotes :=
  .halfPixel (m := ⟨3, ⟨⟨.eighth, true⟩, .note 0⟩⟩) (.inl (by decide +kernel)) (by decide +kernel)
    (by decide +kernel)

/-- Two notes that fit in their measure are too far down, and the command breaks off. -/
theorem outcome_of_wideLine :
    (∃ f, wideRendition.document "1.cc" = .error (.coordinate f)) ∧
      ∃ f, (runOn (folderOf dottedBytes) wideLine).1.crash = some (.coordinate f) := by
  obtain ⟨-, hfault, -, hcrash⟩ :=
    renders_unless_oversized wideRendition "1.cc" (folderOf dottedBytes) callsFor_wideLine
  have hlarge : wideRendition.TooLarge "1.cc" :=
    ⟨dottedNotes, symbols_dottedNotes, oversized_dottedNotes⟩
  exact ⟨hfault hlarge, hcrash.mpr ⟨wideRendition, "1.cc", takes_wideLine, hlarge⟩⟩

/-- The notation of a text that is not rendered need not be at fault. -/
theorem sound_not_rendered :
    Notation.symbols "1.cc" = .ok dottedNotes ∧
      (∀ i s, dottedNotes[i]? = some s →
        StaysInMeasure wideRendition.format dottedNotes i s ∧ ∀ p ∈ s.pitches, InReach p) ∧
      ¬((∃ document, wideRendition.document "1.cc" = .ok document) ∨
        ∃ f, DocumentFault.OfNotation f ∧ wideRendition.document "1.cc" = .error f) ∧
      ∃ f, (runOn (folderOf dottedBytes) wideLine).1.crash = some (.coordinate f) := by
  have hlarge : wideRendition.TooLarge "1.cc" :=
    ⟨dottedNotes, symbols_dottedNotes, oversized_dottedNotes⟩
  refine ⟨symbols_dottedNotes, sound_dottedNotes, ?_, ?_⟩
  · exact fun houtcome => (wideRendition.fails_of_notation_iff "1.cc").mp houtcome hlarge
  · exact (crash_iff_tooLarge _ callsFor_wideLine).mpr
      ⟨wideRendition, "1.cc", takes_wideLine, hlarge⟩

end Tablature.CommandLine
