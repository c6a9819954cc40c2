import Tablature.CommandLine.Run
import Tablature.Proofs.Encoding
import Tablature.Proofs.Writing

/-!
The command that writes MIDI files. It reports a failure of the file system in a line of its own and
leaves the files as they were. But a note that is too high for a data byte is written all the same,
and one that is too high for a byte breaks the run off with the header written;
`midi_keeps_promise_iff` says for which scores neither happens. -/
namespace Tablature.CommandLine
open Tablature.Text Tablature.Music Tablature.Midi

namespace FileTree

theorem find?_put (tree : FileTree) (l : Location) (bytes : List UInt8) :
    (tree.put l bytes).find? l = some (.file bytes) := by
  have hnone : (tree.items.filter fun item => item.1 != l).lookup l = none := by
    apply List.lookup_eq_none_iff.mpr
    intro item hitem
    have hne : item.1 ≠ l := by simpa using (List.mem_filter.mp hitem).2
    simp [hne.symm]
  have hlookup : (tree.put l bytes).items.lookup l = some (.file bytes) := by
    simp [put, List.lookup_append, hnone]
  simp only [find?, hlookup]

end FileTree

def Task.on (task : Task) (v : Verbosity) (tree : FileTree) : Report × FileTree :=
  ((task.run FileTree.files v []).run tree).run

theorem Task.on_of_read (task : Task) {v : Verbosity} {tree : FileTree} {bytes : List UInt8}
    (hname : hasNull task.input = false) (hread : tree.read task.input = .ok bytes) :
    task.on v tree = ((task.runOn FileTree.files v bytes).run tree).run := by
  have hbind : ∀ k : Except SystemError (List UInt8) → StateM FileTree Report,
      ((FileTree.files.read task.input >>= k).run tree).run =
        ((k (tree.read task.input)).run tree).run := fun _ => rfl
  simp only [Task.on, Task.run, hname, Bool.false_eq_true, if_false, List.isEmpty_nil,
    Bool.not_true]
  rw [hbind, hread]

section Save
variable {tree : FileTree} {path : String} (bytes : List UInt8) (out err failure : String)
  (done : Report)

theorem save_of_null (hnull : hasNull path = true) :
    ((save FileTree.files path bytes out err failure done).run tree).run =
      (.crashed out err .pathWithNull, tree) := by
  simp only [save, hnull, if_true]
  rfl

theorem save_of_error (hnull : hasNull path = false) {e : SystemError}
    (htarget : tree.target path = .error e) :
    ((save FileTree.files path bytes out err failure done).run tree).run =
      (.failed out err (failure ++ e.message path), tree) := by
  have hwrite : (FileTree.files.write path bytes).run tree = (some e, tree) := by
    simp [FileTree.files, FileTree.write, htarget, StateT.run, Except.map]
  simp only [save, hnull, Bool.false_eq_true, if_false, StateT.run_bind, hwrite]
  rfl

theorem save_of_target (hnull : hasNull path = false) {l : Location}
    (htarget : tree.target path = .ok l) :
    ((save FileTree.files path bytes out err failure done).run tree).run =
      (done, tree.put l bytes) := by
  have hwrite : (FileTree.files.write path bytes).run tree = (none, tree.put l bytes) := by
    simp [FileTree.files, FileTree.write, htarget, StateT.run, Except.map]
  simp only [save, hnull, Bool.false_eq_true, if_false, StateT.run_bind, hwrite]
  rfl

end Save

structure Task.Reads (tree : FileTree) (input : String) (symbols : List Symbol) : Prop where
  named : hasNull input = false
  read : ∃ bytes text, tree.read input = .ok bytes ∧ decode? bytes = some text ∧
    Notation.symbols text = .ok symbols

section Midi
variable {tree : FileTree} {input path : String} {symbols : List Symbol} {tempo : Nat}
  {v : Verbosity}

def midiNotice (path : String) (symbols : List Symbol) : String :=
  notice ("Writing " ++ toString symbols.length ++ " symbol(s) → '" ++ path ++ "'...")

def midiDone (v : Verbosity) (path : String) (symbols : List Symbol) : Report :=
  { out := midiNotice path symbols ++ notice ("Done!  Open '" ++ path ++ "' in any MIDI player.")
    err := printed v [.parsed symbols.length] }

def midiFailed (v : Verbosity) (path : String) (symbols : List Symbol) (e : SystemError) : Report :=
  .failed (midiNotice path symbols) (printed v [.parsed symbols.length])
    ("Could not write MIDI file: " ++ e.message path)

def midiCrashed (v : Verbosity) (path : String) (symbols : List Symbol) (crash : Crash) : Report :=
  .crashed (midiNotice path symbols) (printed v [.parsed symbols.length]) crash

section Outcomes
variable (h : Task.Reads tree input symbols) (output : Option String)
  (hpath : output.getD (defaultOutput input ".mid") = path)
include h hpath

/-- A run on a notation that is accepted saves the whole file if there is one. -/
theorem midi_eq_save {file : List UInt8}
    (hfile : (Melody.ofSymbols (.exact tempo) 80 symbols).bind Melody.bytes = .ok file) :
    (Task.midi input output tempo).on v tree =
      ((save FileTree.files path file (midiNotice path symbols) (printed v [.parsed symbols.length])
        "Could not write MIDI file: " (midiDone v path symbols)).run tree).run := by
  obtain ⟨bytes, text, hread, htext, hsymbols⟩ := h.read
  rw [Task.on_of_read (.midi input output tempo) h.named hread]
  simp only [Task.runOn, runMidi, htext, hsymbols, hpath, hfile]
  rfl

theorem midi_eq_save_header {f : Fault}
    (hfile : (Melody.ofSymbols (.exact tempo) 80 symbols).bind Melody.bytes = .error f) :
    (Task.midi input output tempo).on v tree =
      ((save FileTree.files path header (midiNotice path symbols)
        (printed v [.parsed symbols.length])
        "Could not write MIDI file: " (midiCrashed v path symbols .noteRange)).run tree).run := by
  obtain ⟨bytes, text, hread, htext, hsymbols⟩ := h.read
  rw [Task.on_of_read (.midi input output tempo) h.named hread]
  simp only [Task.runOn, runMidi, htext, hsymbols, hpath, hfile]
  rfl

theorem midi_of_null (hnull : hasNull path = true) :
    (Task.midi input output tempo).on v tree =
      (midiCrashed v path symbols .pathWithNull, tree) := by
  cases hfile : (Melody.ofSymbols (.exact tempo) 80 symbols).bind Melody.bytes with
  | error f =>
    rw [midi_eq_save_header h output hpath hfile]
    exact save_of_null _ _ _ _ _ hnull
  | ok file =>
    rw [midi_eq_save h output hpath hfile]
    exact save_of_null _ _ _ _ _ hnull

theorem midi_of_error (hnull : hasNull path = false) {e : SystemError}
    (htarget : tree.target path = .error e) :
    (Task.midi input output tempo).on v tree = (midiFailed v path symbols e, tree) := by
  cases hfile : (Melody.ofSymbols (.exact tempo) 80 symbols).bind Melody.bytes with
  | error f =>
    rw [midi_eq_save_header h output hpath hfile]
    exact save_of_error _ _ _ _ _ hnull htarget
  | ok file =>
    rw [midi_eq_save h output hpath hfile]
    exact save_of_error _ _ _ _ _ hnull htarget

end Outcomes

/-- What the command promises: a whole MIDI file whose notes are data bytes, or a failure that is
reported and leaves the files as they were. -/
def KeepsPromise (tree : FileTree) (path : String) (result : Report × FileTree) : Prop :=
  (result.1.exitCode = 0 ∧ result.1.crash = none ∧
    ∃ l bytes file, tree.target path = .ok l ∧ result.2.find? l = some (.file bytes) ∧
    readFile bytes = some file ∧
      ∀ track ∈ file.tracks, ∀ e ∈ track, e.2.IsData) ∨
  (result.1.exitCode = 1 ∧ result.1.crash = none ∧
    (∃ before message, result.1.err = before ++ "  ERROR: " ++ message ++ "\n") ∧ result.2 = tree)

theorem not_keepsPromise_of_crash {result : Report × FileTree} (h : result.1.crash ≠ none) :
    ¬KeepsPromise tree path result := by
  rintro (⟨-, hnone, -⟩ | ⟨-, hnone, -⟩) <;> exact h hnone

theorem keepsPromise_iff_of_written {l : Location} {file : List UInt8}
    (htarget : tree.target path = .ok l)
    (hfile : (Melody.ofSymbols (.exact tempo) 80 symbols).bind Melody.bytes = .ok file) :
    KeepsPromise tree path (midiDone v path symbols, tree.put l file) ↔
      ∀ s ∈ symbols, ∀ p ∈ s.pitches, 0 ≤ p.key ∧ p.key < 128 := by
  obtain ⟨content, hread, hdata⟩ := exists_file hfile
  rw [← hdata]
  constructor
  · rintro (⟨-, -, l', bytes, found, htarget', hfind, hfound, hnotes⟩ | ⟨hexit, -⟩)
    · obtain rfl : l = l' := Except.ok.inj (htarget.symm.trans htarget')
      obtain rfl : file = bytes := by simpa using (tree.find?_put l file).symm.trans hfind
      obtain rfl : content = found := Option.some.inj (hread.symm.trans hfound)
      exact hnotes
    · exact absurd hexit (by simp [midiDone])
  · intro hnotes
    exact .inl ⟨rfl, rfl, l, file, content, htarget, tree.find?_put l file, hread, hnotes⟩

/-- The reader makes notes from middle C upwards and nothing that is unknown. -/
theorem pitches_of_reads (h : Task.Reads tree input symbols) :
    (∀ s ∈ symbols, s.sound ≠ .other) ∧ ∀ s ∈ symbols, ∀ p ∈ s.pitches, (0 : Int) ≤ p := by
  obtain ⟨bytes, text, -, -, hsymbols⟩ := h.read
  have hwritable := Notation.writable_of_all hsymbols
  refine ⟨?_, ?_⟩
  · rintro ⟨d, sound⟩ hs rfl
    exact hwritable _ hs
  · intro s hs p hp
    have hwithin := Notation.within_octaveOf (hwritable s hs) 0 p hp
    have hle : 7 * (Notation.octaveOf 0 s : Int) ≤ p := hwithin.1
    omega

theorem data_iff (h : Task.Reads tree input symbols) :
    (∀ s ∈ symbols, ∀ p ∈ s.pitches, 0 ≤ p.key ∧ p.key < 128) ↔
      ∀ s ∈ symbols, ∀ p ∈ s.pitches, p ≤ 39 := by
  refine forall₄_congr fun s hs p hp => ?_
  obtain ⟨hsixty, hdata, -⟩ := key_bounds ((pitches_of_reads h).2 s hs p hp)
  exact ⟨fun hkey => hdata.mp hkey.2, fun hle => ⟨by omega, hdata.mpr hle⟩⟩

/-- The scores that are accepted and have a file: their keys are bytes and the track is not too
long. -/
theorem encoded_iff (htempo : 0 < tempo) (h : Task.Reads tree input symbols) :
    (∃ file, (Melody.ofSymbols (.exact tempo) 80 symbols).bind Melody.bytes = .ok file) ↔
      (∀ s ∈ symbols, ∀ p ∈ s.pitches, p ≤ 113) ∧ trackLength symbols < wordLimit := by
  obtain ⟨hknown, hlow⟩ := pitches_of_reads h
  rw [bytes_ok_iff htempo hknown]
  refine and_congr_left fun _ => forall₄_congr fun s hs p hp => ?_
  obtain ⟨hsixty, -, hbyte⟩ := key_bounds (hlow s hs p hp)
  exact ⟨fun hkey => hbyte.mp hkey.2, fun hle => ⟨by omega, hbyte.mpr hle⟩⟩

theorem midi_of_unencodable (htempo : 0 < tempo) (h : Task.Reads tree input symbols)
    (output : Option String) (hpath : output.getD (defaultOutput input ".mid") = path)
    (hnull : hasNull path = false) {l : Location} (htarget : tree.target path = .ok l)
    (hhigh : ¬((∀ s ∈ symbols, ∀ p ∈ s.pitches, p ≤ 113) ∧ trackLength symbols < wordLimit)) :
    (Task.midi input output tempo).on v tree =
      (midiCrashed v path symbols .noteRange, tree.put l header) := by
  cases hfile : (Melody.ofSymbols (.exact tempo) 80 symbols).bind Melody.bytes with
  | error f =>
    rw [midi_eq_save_header h output hpath hfile]
    exact save_of_target _ _ _ _ _ hnull htarget
  | ok file => exact absurd ((encoded_iff htempo h).mp ⟨file, hfile⟩) hhigh

/-- If the file can be made, the promise hangs on the notes alone. -/
theorem keepsPromise_iff_of_target (htempo : 0 < tempo) (h : Task.Reads tree input symbols)
    (output : Option String) (hpath : output.getD (defaultOutput input ".mid") = path)
    (hnull : hasNull path = false) {l : Location} (htarget : tree.target path = .ok l) :
    KeepsPromise tree path ((Task.midi input output tempo).on v tree) ↔
      (∀ s ∈ symbols, ∀ p ∈ s.pitches, p ≤ 39) ∧ trackLength symbols < wordLimit := by
  by_cases hfits : (∀ s ∈ symbols, ∀ p ∈ s.pitches, p ≤ 113) ∧ trackLength symbols < wordLimit
  · obtain ⟨file, hfile⟩ := (encoded_iff htempo h).mpr hfits
    rw [midi_eq_save h output hpath hfile, save_of_target _ _ _ _ _ hnull htarget,
      keepsPromise_iff_of_written htarget hfile, data_iff h]
    exact (and_iff_left hfits.2).symm
  · have hbroken : ¬KeepsPromise tree path ((Task.midi input output tempo).on v tree) := by
      rw [midi_of_unencodable htempo h output hpath hnull htarget hfits]
      exact not_keepsPromise_of_crash (by simp [midiCrashed, Report.crashed])
    refine iff_of_false hbroken fun hlow => hfits ⟨fun s hs p hp => ?_, hlow.2⟩
    exact Int.le_trans (hlow.1 s hs p hp) (by decide)

end Midi

/-- The promise is kept if and only if the path is no name with a null in it and cannot be written,
or else no note lies above the greatest key of a data byte and the track is not too long. A run
breaks off where a note does not even fit a byte, or the track its word, and the header is left
behind. -/
theorem midi_keeps_promise_iff {tree : FileTree} {input : String} {symbols : List Symbol}
    {tempo : Nat} (htempo : 0 < tempo) (h : Task.Reads tree input symbols) (output : Option String)
    (path : String) (hpath : output.getD (defaultOutput input ".mid") = path) (v : Verbosity) :
    (KeepsPromise tree path ((Task.midi input output tempo).on v tree) ↔
      hasNull path = false ∧ ((∃ e, tree.target path = .error e) ∨
        (∀ s ∈ symbols, ∀ p ∈ s.pitches, p ≤ 39) ∧ trackLength symbols < wordLimit)) ∧
    (hasNull path = false → ∀ l, tree.target path = .ok l →
      (∃ s ∈ symbols, ∃ p ∈ s.pitches, 113 < p) ∨ wordLimit ≤ trackLength symbols →
        ((Task.midi input output tempo).on v tree).1.crash = some .noteRange ∧
        ((Task.midi input output tempo).on v tree).2 = tree.put l header) := by
  refine ⟨?_, ?_⟩
  · cases hnull : hasNull path with
    | true =>
      have hbroken : ¬KeepsPromise tree path ((Task.midi input output tempo).on v tree) := by
        rw [midi_of_null h output hpath hnull]
        exact not_keepsPromise_of_crash (by simp [midiCrashed, Report.crashed])
      simp [hbroken]
    | false =>
      cases htarget : tree.target path with
      | error e =>
        have hkept : KeepsPromise tree path ((Task.midi input output tempo).on v tree) := by
          rw [midi_of_error h output hpath hnull htarget]
          exact .inr ⟨rfl, rfl, ⟨_, _, rfl⟩, rfl⟩
        simp [hkept]
      | ok l => simp [keepsPromise_iff_of_target htempo h output hpath hnull htarget]
  · intro hnull l htarget hhigh
    have hfits : ¬((∀ s ∈ symbols, ∀ p ∈ s.pitches, p ≤ 113) ∧
      trackLength symbols < wordLimit) := by
      rintro ⟨hlow, hlength⟩
      obtain ⟨s, hs, p, hp, hgt⟩ | hlong := hhigh
      · exact absurd hgt (Int.not_lt.mpr (hlow s hs p hp))
      · omega
    rw [midi_of_unencodable htempo h output hpath hnull htarget hfits]
    exact ⟨rfl, rfl⟩

def folderOf (bytes : List UInt8) : FileTree := ⟨[(["m"], .file bytes)], []⟩

theorem splitOn_letters : "m".splitOn "/" = ["m"] ∧ "n".splitOn "/" = ["n"] := by
  constructor <;>
  · rw [String.splitOn, if_neg (by decide), String.splitOnAux, if_neg (by decide),
      if_neg (by decide), String.splitOnAux, if_pos (by decide)]
    decide

theorem origin_folderOf (bytes : List UInt8) (path : String) :
    (folderOf bytes).origin path = [] := by
  unfold FileTree.origin
  split <;> rfl

theorem read_folderOf (bytes : List UInt8) : (folderOf bytes).read "m" = .ok bytes := by
  rw [FileTree.read, if_neg (by decide), if_neg (by decide), splitOn_letters.1, origin_folderOf]
  rfl

theorem target_folderOf (bytes : List UInt8) : (folderOf bytes).target "n" = .ok ["n"] := by
  have hend : "n".endsWith "/" = false := by decide +kernel
  rw [FileTree.target, if_neg (by decide), if_neg (by decide), splitOn_letters.2, origin_folderOf]
  simp [FileTree.walk, FileTree.find?, hend]
  rfl

theorem reads_folderOf {bytes : List UInt8} {text : String} {symbols : List Symbol}
    (htext : decode? bytes = some text)
    (hsymbols : Notation.symbols text = .ok symbols) : Task.Reads (folderOf bytes) "m" symbols :=
  ⟨by decide +kernel, bytes, text, read_folderOf bytes, htext, hsymbols⟩

def raised (octaves : Nat) : List UInt8 := List.replicate octaves 62 ++ [99]

/-- What becomes of that c when it is written to a file called n. -/
def raisedRun (octaves : Nat) : Report × FileTree :=
  (Task.midi "m" (some "n") 120).on (.ofFlag false) (folderOf (raised octaves))

theorem reads_raised_17 : Task.Reads (folderOf (raised 17)) "m" [⟨⟨.quarter, false⟩, .note 119⟩] :=
  reads_folderOf (by decide +kernel : decode? (raised 17) = some ">>>>>>>>>>>>>>>>>c")
    (by decide +kernel)

/-- Middle C is written; seventeen octaves above it only the header is. -/
theorem promise_of_raised :
    KeepsPromise (folderOf (raised 0)) "n" (raisedRun 0) ∧
    (raisedRun 17).1.crash = some .noteRange ∧
      (raisedRun 17).2 = (folderOf (raised 17)).put ["n"] header := by
  have hnull : hasNull "n" = false := by decide +kernel
  have hreads : Task.Reads (folderOf (raised 0)) "m" [⟨⟨.quarter, false⟩, .note 0⟩] :=
    reads_folderOf (by decide +kernel : decode? (raised 0) = some "c") (by decide +kernel)
  have hlength : trackLength [⟨⟨.quarter, false⟩, .note 0⟩] < wordLimit := by
    rw [trackLength, List.mergeSort_of_pairwise (by decide +kernel)]
    decide +kernel
  obtain ⟨hkept, -⟩ :=
    midi_keeps_promise_iff (by decide : 0 < 120) hreads (some "n") "n" rfl (.ofFlag false)
  obtain ⟨-, hbroken⟩ :=
    midi_keeps_promise_iff (by decide : 0 < 120) reads_raised_17 (some "n") "n" rfl (.ofFlag false)
  exact ⟨hkept.mpr ⟨hnull, .inr ⟨by decide, hlength⟩⟩, hbroken hnull ["n"] (target_folderOf _)
    (.inl ⟨_, List.mem_singleton_self _, 119, List.mem_singleton_self _, by decide⟩)⟩

/-- There is a notation that the reader accepts and for which the promise is broken. -/
theorem promise_broken :
    Task.Reads (folderOf (raised 17)) "m" [⟨⟨.quarter, false⟩, .note 119⟩] ∧
      ¬KeepsPromise (folderOf (raised 17)) "n" (raisedRun 17) := by
  have hnull : hasNull "n" = false := by decide +kernel
  have hiff : KeepsPromise (folderOf (raised 17)) "n" (raisedRun 17) ↔ _ :=
    keepsPromise_iff_of_target (by decide) reads_raised_17 (some "n") rfl hnull (target_folderOf _)
  refine ⟨reads_raised_17, fun hkept => ?_⟩
  exact absurd ((hiff.mp hkept).1 _ (List.mem_singleton_self _) 119 (List.mem_singleton_self _))
    (by decide)

end Tablature.CommandLine
