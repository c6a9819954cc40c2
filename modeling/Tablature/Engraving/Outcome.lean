import Tablature.Engraving.Glyph

/-!
Steps of a drawing. A step answers what it drew and the state it left, also when it fails, so that a
caller may go on from there. `Outcome.andThen` puts a second step behind one that did not fail; it
is associative. -/
namespace Tablature.Engraving
open Tablature.Music

/-- Where a drawing stands: the measures still free on the page, the measure under way and how far
it is filled, the height of the cursor, and the head of an eighth note that waits for a beam. -/
structure State where
  page : Nat := 0
  pageOpen : Bool := false
  measuresLeft : Nat := 0
  measure : Nat := 0
  filled : Nat := 0
  y : HalfPixel := 0
  waiting : Option HalfPixel := none
  deriving DecidableEq, Repr

inductive Fault where
  | beyondTotal (total : Int)
  | overfull (beats measure received : Nat)
  | outOfRange (pitch : Pitch)
  | unknownSymbol
  | emptyChord
  deriving DecidableEq, Repr

def beatsText (halves : Nat) : String :=
  if halves % 2 = 0 then toString (halves / 2) else toString halves ++ "/2"

namespace Fault

def message : Fault → String
  | beyondTotal total => "Score holds more than the " ++ toString total ++ " measure(s) counted."
  | overfull beats measure received =>
    "Expected " ++ toString beats ++ " beats in measure " ++ toString measure ++ ", received " ++
      beatsText received ++ "."
  | outOfRange pitch => "Pitch " ++ toString pitch ++ " out of range."
  | unknownSymbol => "Unrecognized symbol <OTHER>."
  | emptyChord => "Chord without pitches."

end Fault

/-- What a step drew, the state it left, and why it stopped short if it did. -/
structure Outcome where
  drawn : List Mark
  state : State
  fault : Option Fault := none
  deriving DecidableEq, Repr

namespace Outcome

/-- Goes on with another step unless the first one failed. -/
def andThen (o : Outcome) (step : State → Outcome) : Outcome :=
  match o.fault with
  | some _ => o
  | none => let next := step o.state; ⟨o.drawn ++ next.drawn, next.state, next.fault⟩

theorem andThen_of_fault {o : Outcome} {f : Fault} (h : o.fault = some f) (step : State → Outcome) :
    o.andThen step = o := by
  simp only [andThen, h]

theorem andThen_of_ok {o : Outcome} (h : o.fault = none) (step : State → Outcome) :
    o.andThen step = ⟨o.drawn ++ (step o.state).drawn, (step o.state).state,
      (step o.state).fault⟩ := by
  simp only [andThen, h]

theorem andThen_assoc (o : Outcome) (f g : State → Outcome) :
    (o.andThen f).andThen g = o.andThen fun s => (f s).andThen g := by
  rcases o with ⟨drawn, state, fault⟩
  cases fault with
  | some e => rfl
  | none => cases hf : (f state).fault <;> simp only [andThen, hf, List.append_assoc]

end Outcome
end Tablature.Engraving
