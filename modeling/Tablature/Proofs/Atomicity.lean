import Tablature.Proofs.Printing

/-!
Commands that cannot be written. A command fails exactly if one of its coordinates has no text,
whichever it is (`fails_iff`). A command that fails adds nothing to the document, and the document
is that of the other commands alone. Only a canvas is different: its declaration is written before
its size (`untouched_iff`). Documents are told apart by their lengths. -/
namespace Tablature.Number.Coordinate
open Tablature.Text

/-- A whole number of not too many digits, or any other number within the range of binary64. -/
def Writable : Coordinate → Prop
  | .undefined | .infinite _ => False
  | .exact q =>
    if q.den = 1 then q.num.natAbs < 10 ^ digitLimit else q.num.natAbs < rangeLimit * q.den

theorem exists_text_iff_writable (a : Coordinate) : (∃ t, a.text = .ok t) ↔ a.Writable := by
  cases a with
  | undefined | infinite => simp [text, Writable]
  | exact q =>
    by_cases hwhole : q.den = 1
    · have hnone := numeral?_eq_none_iff q.num
      rw [Writable, if_pos hwhole, ← not_le, ← hnone, text, if_pos hwhole]
      cases numeral? q.num <;> simp
    · have hnone := nearestUnits?_eq_none_iff q.num.natAbs q.den_pos
      rw [Writable, if_neg hwhole, ← not_le, ← hnone, text, if_neg hwhole]
      cases nearestUnits? q.num.natAbs q.den <;> simp

end Tablature.Number.Coordinate

namespace Tablature.Drawing

def Command.isStart {α : Type} : Command α → Bool
  | .start _ _ => true
  | _ => false

namespace Svg
open Tablature.Number

def Fails (c : Instruction) : Prop := (write c).2 ≠ none

instance (c : Instruction) : Decidable (Fails c) := inferInstanceAs (Decidable (_ ≠ _))

theorem fails_iff (c : Instruction) : Fails c ↔ ∃ a ∈ c.coordinates, ¬a.Writable := by
  have hwrite : ¬Fails c ↔ ∃ e, element c = .ok e := by
    rw [Fails, not_not, write]
    cases element c <;> simp
  rw [← not_iff_not, hwrite, element_isOk_iff]
  simp [Coordinate.exists_text_iff_writable]

theorem write_of_fails {c : Instruction} (h : Fails c) : (write c).1 = preamble c := by
  unfold Fails write at h
  rw [write]
  cases he : element c with
  | ok e => simp [he] at h
  | error f => rfl

theorem preamble_eq_nil_iff (c : Instruction) : preamble c = [] ↔ c.isStart = false := by
  cases c <;> simp [preamble, Command.isStart]

theorem element_ne_empty {c : Instruction} {e : String} (h : element c = .ok e) : e ≠ "" := by
  rintro rfl
  obtain ⟨p, htext, -, -⟩ := exists_piece_of_element h
  cases p <;> cases htext

theorem ne_empty_of_mem_preamble {c : Instruction} {line : String} (h : line ∈ preamble c) :
    line ≠ "" := by
  cases c with
  | start width height =>
    rw [List.mem_singleton.mp h]
    decide
  | finish | rect | line | circle | text | openGroup | closeGroup => cases h

theorem write_of_not_fails {c : Instruction} (h : ¬Fails c) :
    (write c).1 ≠ [] ∧ ∀ line ∈ (write c).1, line ≠ "" := by
  unfold Fails write at h
  rw [write]
  cases he : element c with
  | error f => simp [he] at h
  | ok e =>
    refine ⟨by simp, fun line hline => ?_⟩
    rcases List.mem_append.mp hline with hline | hline
    · exact ne_empty_of_mem_preamble hline
    · exact List.mem_singleton.mp hline ▸ element_ne_empty he

section Length
variable {a b : List String}

/-- The characters of some lines with the ends of the lines. -/
def extent (lines : List String) : Nat := (lines.map fun line => line.length + 1).sum

theorem extent_append (a b : List String) : extent (a ++ b) = extent a + extent b := by
  simp [extent]

theorem two_le_extent (hb : b ≠ []) (hlines : ∀ line ∈ b, line ≠ "") : 2 ≤ extent b := by
  cases b with
  | nil => exact absurd rfl hb
  | cons line rest =>
    have hline : line.length ≠ 0 :=
      fun h => hlines line List.mem_cons_self (String.length_eq_zero_iff.mp h)
    simp only [extent, List.map_cons, List.sum_cons]
    omega

theorem document_cons_cons (line next : String) (rest : List String) :
    document (line :: next :: rest) = line ++ "\n" ++ document (next :: rest) := by
  simp [document, String.ext_iff, String.toList_intercalate]

theorem length_document (lines : List String) : (document lines).length = max 1 (extent lines) := by
  have hbreak : "\n".length = 1 := rfl
  have hcons : ∀ rest line, (document (line :: rest)).length = extent (line :: rest) := by
    intro rest
    induction rest with
    | nil => simp [document, extent, hbreak]
    | cons next rest ih =>
      intro line
      rw [document_cons_cons, String.length_append, String.length_append, ih, hbreak]
      simp [extent]
  cases lines with
  | nil => rfl
  | cons line rest =>
    rw [hcons]
    simp only [extent, List.map_cons, List.sum_cons]
    omega

theorem document_ne_of_extent (hb : b ≠ []) (hlines : ∀ line ∈ b, line ≠ "") {lines : List String}
    (h : extent lines = extent a + extent b) : document lines ≠ document a := by
  intro heq
  have hlength := congrArg String.length heq
  have hextent := two_le_extent hb hlines
  rw [length_document, length_document, h] at hlength
  omega

end Length

theorem writeAll_concat (cs : List Instruction) (c : Instruction) :
    (writeAll (cs ++ [c])).1 = (writeAll cs).1 ++ (write c).1 := by
  simp [writeAll]

theorem document_concat_eq_iff (cs : List Instruction) (c : Instruction) :
    document (writeAll (cs ++ [c])).1 = document (writeAll cs).1 ↔ Fails c ∧ c.isStart = false := by
  have hextent : extent (writeAll (cs ++ [c])).1 = extent (writeAll cs).1 + extent (write c).1 := by
    rw [writeAll_concat, extent_append]
  by_cases hfails : Fails c
  · rw [← preamble_eq_nil_iff]
    rw [write_of_fails hfails] at hextent
    constructor
    · intro heq
      by_contra hne
      exact document_ne_of_extent (fun h => hne ⟨hfails, h⟩) (fun _ => ne_empty_of_mem_preamble)
        hextent heq
    · rintro ⟨-, hnil⟩
      rw [writeAll_concat, write_of_fails hfails, hnil, List.append_nil]
  · obtain ⟨hne, hlines⟩ := write_of_not_fails hfails
    exact iff_of_false (document_ne_of_extent hne hlines hextent) fun h => hfails h.1

def succeeding (cs : List Instruction) : List Instruction := cs.filter fun c => ¬Fails c

/-- What the commands that fail leave behind. -/
def remains (cs : List Instruction) : List String := (cs.filter fun c => Fails c).flatMap preamble

theorem remains_eq_nil_iff (cs : List Instruction) :
    remains cs = [] ↔ ∀ c ∈ cs, Fails c → c.isStart = false := by
  simp [remains, List.flatMap_eq_nil_iff, preamble_eq_nil_iff]

theorem ne_empty_of_mem_remains {cs : List Instruction} {line : String} (h : line ∈ remains cs) :
    line ≠ "" := by
  obtain ⟨c, -, hline⟩ := List.mem_flatMap.mp h
  exact ne_empty_of_mem_preamble hline

theorem extent_writeAll (cs : List Instruction) :
    extent (writeAll cs).1 = extent (writeAll (succeeding cs)).1 + extent (remains cs) := by
  unfold succeeding remains
  induction cs with
  | nil => rfl
  | cons c cs ih =>
    rw [writeAll_cons, extent_append, ih]
    by_cases h : Fails c
    · rw [write_of_fails h, List.filter_cons_of_neg (by simp [h]),
        List.filter_cons_of_pos (by simp [h]), List.flatMap_cons, extent_append]
      omega
    · rw [List.filter_cons_of_pos (by simp [h]), List.filter_cons_of_neg (by simp [h]),
        writeAll_cons, extent_append]
      omega

theorem writeAll_succeeding {cs : List Instruction} (h : remains cs = []) :
    (writeAll (succeeding cs)).1 = (writeAll cs).1 := by
  unfold succeeding
  induction cs with
  | nil => rfl
  | cons c cs ih =>
    have hrest : remains cs = [] := by
      rw [remains_eq_nil_iff] at h ⊢
      exact fun c' hc' => h c' (List.mem_cons_of_mem c hc')
    by_cases hfails : Fails c
    · have hnil : (write c).1 = [] := by
        rw [write_of_fails hfails, preamble_eq_nil_iff]
        exact (remains_eq_nil_iff _).mp h c List.mem_cons_self hfails
      rw [List.filter_cons_of_neg (by simp [hfails]), writeAll_cons, hnil, ih hrest,
        List.nil_append]
    · rw [List.filter_cons_of_pos (by simp [hfails]), writeAll_cons, writeAll_cons, ih hrest]

theorem document_succeeding_eq_iff (cs : List Instruction) :
    document (writeAll (succeeding cs)).1 = document (writeAll cs).1 ↔
      ∀ c ∈ cs, Fails c → c.isStart = false := by
  rw [← remains_eq_nil_iff]
  refine ⟨fun heq => ?_, fun h => congrArg document (writeAll_succeeding h)⟩
  by_contra hne
  exact document_ne_of_extent hne (fun _ => ne_empty_of_mem_remains) (extent_writeAll cs) heq.symm

/-- Behind any commands, one more leaves the document as it was if and only if it fails and opens no
canvas; a canvas that fails adds its declaration. A document is the one of the commands that do not
fail alone, if and only if no canvas is among those that do. A command fails exactly if one of its
coordinates, in whatever place, is no number, infinite, a whole number of too many digits, or any
other beyond the range of binary64. -/
theorem untouched_iff (cs : List Instruction) (c : Instruction) :
    (document (writeAll (cs ++ [c])).1 = document (writeAll cs).1 ↔ Fails c ∧ c.isStart = false) ∧
    (Fails c →
      (writeAll (cs ++ [c])).1 = (writeAll cs).1 ++ if c.isStart then [declaration] else []) ∧
    (document (writeAll (succeeding cs)).1 = document (writeAll cs).1 ↔
      ∀ c ∈ cs, Fails c → c.isStart = false) ∧
    (Fails c ↔ ∃ a ∈ c.coordinates, ¬a.Writable) := by
  refine ⟨document_concat_eq_iff cs c, fun h => ?_, document_succeeding_eq_iff cs, fails_iff c⟩
  rw [writeAll_concat, write_of_fails h]
  cases c <;> rfl

/-- A canvas whose width is no number leaves its declaration in the document. -/
theorem declaration_of_failing_canvas :
    Fails (.start .undefined (.exact 1)) ∧
      document (writeAll ([] ++ [.start .undefined (.exact 1)])).1 ≠ document (writeAll []).1 ∧
      document (writeAll (succeeding [.start .undefined (.exact 1)])).1 ≠
        document (writeAll [.start .undefined (.exact 1)]).1 := by
  decide +kernel

end Svg
end Tablature.Drawing
