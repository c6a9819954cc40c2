import Mathlib.Data.List.Infix
import Tablature.Notation.Reader
import Tablature.Proofs.Scanning

/-!
The grammar of a melody and its meaning. A melody is a list of items, each written with a few
tokens. What an item means is told from the items before it: the latest length among them, and by
how much the shifts up outnumber those down. -/
namespace Tablature.Notation
open Tablature.Music

/-- A letter, in either case, with or without the raise mark. -/
structure WrittenNote where
  letter : Char
  raised : Bool
  letter_mem : letter.toLower ∈ stepNames
  deriving DecidableEq, Repr

inductive Item where
  | octaveUp
  | octaveDown
  | length (base : Length) (dotted : Bool)
  | note (note : WrittenNote)
  | chord (first : WrittenNote) (others : List WrittenNote)
  | rest
  deriving DecidableEq, Repr

def optional (present : Bool) (mark : Kind × String) : List (Kind × String) :=
  if present then [mark] else []

def WrittenNote.contents (n : WrittenNote) : List (Kind × String) :=
  (.noteLetter, String.singleton n.letter) :: optional n.raised (.raiseMark, "'")

def Item.contents : Item → List (Kind × String)
  | .octaveUp => [(.octaveUp, ">")]
  | .octaveDown => [(.octaveDown, "<")]
  | .length base dotted => (.digit, toString base.eighths) :: optional dotted (.dot, ".")
  | .note n => n.contents
  | .chord first others =>
    (.chordOpen, "(") :: ((first :: others).flatMap WrittenNote.contents ++ [(.chordClose, ")")])
  | .rest => [(.restMark, "r")]

def written (items : List Item) : List (Kind × String) := items.flatMap Item.contents

/-- No octave lies below the lowest: up to any item there are at least as many shifts up as down. -/
def Balanced (items : List Item) : Prop :=
  ∀ before, before <+: items → before.count .octaveDown ≤ before.count .octaveUp

instance (items : List Item) : Decidable (Balanced items) :=
  decidable_of_iff (∀ before ∈ items.inits, before.count .octaveDown ≤ before.count .octaveUp)
    (by simp [Balanced])

/-- The octave behind some items. -/
def octaveBehind (items : List Item) : Int := items.count .octaveUp - items.count .octaveDown

@[simp] def Item.duration? : Item → Option Duration
  | .length base dotted => some ⟨base, dotted⟩
  | _ => none

/-- The duration behind some items: the latest that was set, or else a quarter. -/
def durationBehind (items : List Item) : Duration :=
  ((items.filterMap Item.duration?).getLast?).getD ⟨.quarter, false⟩

def WrittenNote.pitch (octave : Int) (n : WrittenNote) : Pitch :=
  stepNames.idxOf n.letter.toLower + 7 * octave + if n.raised then 7 else 0

@[simp] def Item.sound? (octave : Int) : Item → Option Sound
  | .note n => some (.note (n.pitch octave))
  | .chord first others => some (.chord ((first :: others).map (WrittenNote.pitch octave)))
  | .rest => some .rest
  | _ => none

/-- The symbol that an item stands for behind some others. -/
def Item.symbol? (before : List Item) (item : Item) : Option Symbol :=
  (item.sound? (octaveBehind before)).map fun sound => ⟨durationBehind before, sound⟩

/-- The symbols of a melody, each read behind all the items before it. -/
def meaning (items : List Item) : List Symbol :=
  items.zipIdx.filterMap fun (item, i) => item.symbol? (items.take i)

def meaningBehind (before items : List Item) : List Symbol :=
  (items.zipIdx before.length).filterMap fun (item, i) => item.symbol? ((before ++ items).take i)

theorem meaningBehind_nil_left (items : List Item) : meaningBehind [] items = meaning items := rfl

theorem meaningBehind_cons (before : List Item) (item : Item) (rest : List Item) :
    meaningBehind before (item :: rest) = (item.symbol? before).toList ++ meaningBehind (before ++
      [item]) rest := by
  have htake : (before ++ item :: rest).take before.length = before := List.take_left
  have hcons : before ++ item :: rest = before ++ [item] ++ rest := by simp
  have hlength : (before ++ [item]).length = before.length + 1 := by simp
  unfold meaningBehind
  rw [List.zipIdx_cons, List.filterMap_cons, hlength, ← hcons]
  simp only [htake]
  cases item.symbol? before with
  | none => rfl
  | some symbol => rfl

/-- What an item adds to the octave. -/
@[simp] def Item.shift : Item → Int
  | .octaveUp => 1
  | .octaveDown => -1
  | _ => 0

theorem octaveBehind_append (before : List Item) (item : Item) :
    octaveBehind (before ++ [item]) = octaveBehind before + item.shift := by
  unfold octaveBehind
  cases item <;> simp <;> omega

theorem durationBehind_append (before : List Item) (item : Item) :
    durationBehind (before ++ [item]) = item.duration?.getD (durationBehind before) := by
  unfold durationBehind
  cases item <;> simp

theorem balanced_iff (items : List Item) :
    Balanced items ↔ ∀ before, before <+: items → 0 ≤ octaveBehind before := by
  unfold Balanced octaveBehind
  constructor
  · intro h before hb
    have := h before hb
    omega
  · intro h before hb
    have := h before hb
    omega

theorem balanced_nil : Balanced [] := by
  intro before hb
  rw [List.prefix_nil.mp hb]
  exact Nat.le_refl _

theorem Balanced.octave_nonneg {items : List Item} (h : Balanced items) : 0 ≤ octaveBehind items :=
  (balanced_iff items).mp h items (List.prefix_refl items)

theorem Balanced.of_prefix {before items : List Item} (h : Balanced items) (hb : before <+: items) :
    Balanced before :=
  fun before' hb' => h before' (hb'.trans hb)

theorem Balanced.octave_nonneg_mid {before : List Item} {item : Item} {rest : List Item}
    (h : Balanced (before ++ item :: rest)) :
    0 ≤ octaveBehind before ∧ 0 ≤ octaveBehind (before ++ [item]) := by
  have hmid : before ++ [item] <+: before ++ item :: rest := ⟨rest, by simp⟩
  exact ⟨(h.of_prefix (List.prefix_append before (item :: rest))).octave_nonneg,
    (h.of_prefix hmid).octave_nonneg⟩

theorem Balanced.append {before : List Item} {item : Item} (h : Balanced before)
    (hitem : 0 ≤ octaveBehind (before ++ [item])) : Balanced (before ++ [item]) := by
  refine (balanced_iff _).mpr fun before' hb => ?_
  cases List.prefix_concat_iff.mp hb with
  | inl heq => exact heq ▸ hitem
  | inr hb => exact (balanced_iff before).mp h before' hb

theorem head_written (items : List Item) :
    ∀ c ∈ (written items).head?, c.1 ≠ .raiseMark ∧ c.1 ≠ .dot := by
  cases items with
  | nil => exact nofun
  | cons item rest =>
    intro c hc
    cases item <;> cases hc <;> exact ⟨nofun, nofun⟩

end Tablature.Notation
