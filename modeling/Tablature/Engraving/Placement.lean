import Tablature.Engraving.Outcome
import Tablature.Music.Symbol

/-!
Symbols at the cursor. An eighth note waits for the symbol behind it: another single eighth is
joined to it by a beam, anything else leaves it with a taper. The heads of a chord are drawn in the
order of its pitches, up to the first that has no lane. -/
namespace Tablature.Engraving
open Tablature.Music

def findHead (p : Pitch) : Except Fault Int :=
  match headX? p with
  | some x => .ok x
  | none => .error (.outOfRange p)

/-- The heads of some pitches up to the first that has no lane, with their places. -/
def heads (y : HalfPixel) (d : Duration) : List Pitch → List Mark × Except Fault (List Int)
  | [] => ([], .ok [])
  | p :: rest => match findHead p with
    | .error f => ([], .error f)
    | .ok x => match heads y d rest with
      | (drawn, .ok xs) => (headGlyph x y d ++ drawn, .ok (x :: xs))
      | (drawn, .error f) => (headGlyph x y d ++ drawn, .error f)

/-- The greatest of some places; heads lie to the right of zero. -/
def rightmost : List Int → Int
  | [] => 0
  | x :: rest => max x (rightmost rest)

namespace State

def settle (s : State) : Outcome :=
  match s.waiting with
  | none => ⟨[], s, none⟩
  | some y => ⟨[taperGlyph y], { s with waiting := none }, none⟩

@[simp] theorem settle_fault (s : State) : s.settle.fault = none := by
  unfold settle
  split <;> rfl

@[simp] theorem settle_waiting (s : State) : s.settle.state.waiting = none := by
  unfold settle
  split
  · assumption
  · rfl

/-- A head with its stem; of two single eighths in a row the first waits and the second makes the
beam. -/
def placeHead (d : Duration) (p : Pitch) (s : State) : Outcome :=
  match findHead p with
  | .error f => ⟨[], s, some f⟩
  | .ok x =>
    if d.length = .eighth then
      match s.waiting with
      | none =>
        ⟨headGlyph x s.y d ++ stemGlyph x s.y d.length, { s with waiting := some s.y }, none⟩
      | some earlier =>
        ⟨headGlyph x s.y d ++ stemGlyph x s.y d.length ++ [beamGlyph s.y earlier],
          { s with waiting := none }, none⟩
    else ⟨headGlyph x s.y d ++ stemGlyph x s.y d.length, s, none⟩

def placeNote (d : Duration) (p : Pitch) (s : State) : Outcome :=
  if d.length = .eighth then s.placeHead d p else s.settle.andThen (placeHead d p)

/-- One stem reaches to the rightmost head. -/
def placeHeads (d : Duration) (ps : List Pitch) (s : State) : Outcome :=
  match ps, heads s.y d ps with
  | [], _ => ⟨[], s, some .emptyChord⟩
  | _, (drawn, .error f) => ⟨drawn, s, some f⟩
  | _, (drawn, .ok xs) =>
    ⟨drawn ++ stemGlyph (rightmost xs) s.y d.length ++ (if d.length = .eighth then [taperGlyph s.y]
      else []), s, none⟩

def place (symbol : Symbol) (s : State) : Outcome :=
  match symbol.sound with
  | .note p => s.placeNote symbol.duration p
  | .chord ps => s.settle.andThen (placeHeads symbol.duration ps)
  | .rest => s.settle.andThen fun s => ⟨restGlyph s.y symbol.duration.length, s, none⟩
  | .other => ⟨[], s, some .unknownSymbol⟩

def advance (symbol : Symbol) (s : State) : Outcome :=
  ⟨[], { s with y := s.y - beatHeight * symbol.halves, filled := s.filled + symbol.halves }, none⟩

def beginMeasure (s : State) : Outcome :=
  ⟨barGlyph (s.y - px 1) (s.measure + 1),
    { s with
      measure := s.measure + 1
      measuresLeft := s.measuresLeft - 1
      filled := 0
      y := s.y - px beatHeight },
    none⟩

def close (s : State) : Outcome :=
  (if s.pageOpen then
    s.settle.andThen fun s => ⟨endGlyph ++ [.closeGroup], { s with pageOpen := false }, none⟩
  else ⟨[], s, none⟩).andThen fun s => ⟨[.finish], s, none⟩

@[simp] theorem close_fault (s : State) : s.close.fault = none := by
  unfold close
  split <;> simp [Outcome.andThen]

end State
end Tablature.Engraving
