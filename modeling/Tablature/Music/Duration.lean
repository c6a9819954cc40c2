/-!
Durations. A base length is an eighth, a quarter, a half or a whole note, and a dot adds one half of
it. Lengths are counted in halves of an eighth beat, so that every duration is a whole number. -/
namespace Tablature.Music

inductive Length where
  | eighth
  | quarter
  | half
  | whole
  deriving DecidableEq, Repr

namespace Length

def eighths : Length → Nat
  | eighth => 1
  | quarter => 2
  | half => 4
  | whole => 8

def ofNat? : Nat → Option Length
  | 1 => some eighth
  | 2 => some quarter
  | 4 => some half
  | 8 => some whole
  | _ => none

theorem ofNat?_eighths (l : Length) : ofNat? l.eighths = some l := by cases l <;> rfl

theorem eighths_of_ofNat? {n : Nat} {l : Length} (h : ofNat? n = some l) : l.eighths = n := by
  unfold ofNat? at h
  split at h <;> simp_all [eighths] <;> subst h <;> rfl

end Length

structure LengthFault where
  length : Int
  deriving DecidableEq, Repr

def LengthFault.message (f : LengthFault) : String :=
  "Invalid note length " ++ toString f.length ++ "."

structure Duration where
  length : Length := .quarter
  dotted : Bool := false
  deriving DecidableEq, Repr

namespace Duration

def halves (d : Duration) : Nat := if d.dotted then 3 * d.length.eighths else 2 * d.length.eighths

theorem halves_pos (d : Duration) : 0 < d.halves := by
  rcases d with ⟨l, b⟩
  cases l <;> cases b <;> decide

def beats (d : Duration) : Rat := mkRat d.halves 2

def ofInt (length : Int) (dotted : Bool) : Except LengthFault Duration :=
  match length with
  | .ofNat n => match Length.ofNat? n with
    | some l => .ok ⟨l, dotted⟩
    | none => .error ⟨length⟩
  | .negSucc _ => .error ⟨length⟩

end Duration
end Tablature.Music
