import Mathlib.Order.Hom.Basic
import Tablature.Proofs.Encoding
import Tablature.Proofs.Transposition

/-!
Pitches and white keys. The steps of an octave rise within its twelve semitones, and behind the last
of them stands the first step of the next octave; so a pitch sounds below the next one, also where
an octave ends (`key_lt_key_succ`). The remainder of a key names its step and the quotient its
octave, which gives every white key its one pitch (`whiteKeys`). -/
namespace Tablature.Music

/-- A key of C major, in any octave above or below middle C. -/
def IsWhite (key : ℤ) : Prop := (key - 60) % 12 ∈ [0, 2, 4, 5, 7, 9, 11]

instance (key : ℤ) : Decidable (IsWhite key) := inferInstanceAs (Decidable (_ ∈ _))

def pitchOn (key : ℤ) : Pitch := 7 * ((key - 60) / 12) + (semitones.idxOf ((key - 60) % 12) : ℕ)

theorem exists_octave_step (p : ℤ) : ∃ (octave : ℤ) (step : ℕ), step < 7 ∧ p = 7 * octave + step :=
  ⟨p / 7, (p % 7).toNat, by omega, by omega⟩

theorem key_octave_step (octave : ℤ) {step : ℕ} (h : step < 7) :
    Pitch.key (7 * octave + step) = 60 + octave * 12 + semitones.getD step 0 := by
  rw [Midi.key_eq (by omega) (by omega), Int.toNat_natCast]

/-- All steps lie within their octave, on its white keys. -/
theorem semitones_spec : ∀ step < 7, 0 ≤ semitones.getD step 0 ∧ semitones.getD step 0 < 12 ∧
    semitones.getD step 0 ∈ ([0, 2, 4, 5, 7, 9, 11] : List ℤ) := by
  decide

theorem semitones_lt_succ : ∀ step < 6, semitones.getD step 0 < semitones.getD (step + 1) 0 := by
  decide

theorem key_lt_key_succ (p : ℤ) : Pitch.key p < Pitch.key (p + 1) := by
  obtain ⟨octave, step, hstep, rfl⟩ := exists_octave_step p
  rcases Nat.lt_or_eq_of_le (Nat.le_of_lt_succ hstep) with hinside | rfl
  · have hnext : 7 * octave + (step : ℤ) + 1 = 7 * octave + ((step + 1 : ℕ) : ℤ) := by omega
    have hlt := semitones_lt_succ step hinside
    rw [hnext, key_octave_step octave hstep, key_octave_step octave (by omega : step + 1 < 7)]
    omega
  · have hnext : 7 * octave + ((6 : ℕ) : ℤ) + 1 = 7 * (octave + 1) + ((0 : ℕ) : ℤ) := by omega
    have hends : semitones.getD 6 0 = 11 ∧ semitones.getD 0 0 = 0 := by decide
    rw [hnext, key_octave_step octave hstep, key_octave_step (octave + 1) (by decide), hends.1,
      hends.2]
    omega

theorem key_lt_key_iff (p q : Pitch) : p.key < q.key ↔ p < q :=
  (strictMono_int_of_lt_succ key_lt_key_succ).lt_iff_lt

theorem key_le_key_iff (p q : Pitch) : p.key ≤ q.key ↔ p ≤ q := by
  rw [← not_lt, key_lt_key_iff, not_lt]

theorem key_eq_key_iff (p q : Pitch) : p.key = q.key ↔ p = q := by
  rw [le_antisymm_iff, key_le_key_iff, key_le_key_iff, ← le_antisymm_iff]

theorem isWhite_key (p : ℤ) : IsWhite (Pitch.key p) := by
  obtain ⟨octave, step, hstep, rfl⟩ := exists_octave_step p
  obtain ⟨hlow, hup, hmem⟩ := semitones_spec step hstep
  have hmod : (Pitch.key (7 * octave + step) - 60) % 12 = semitones.getD step 0 := by
    rw [key_octave_step octave hstep]
    omega
  rw [IsWhite, hmod]
  exact hmem

theorem step_of_isWhite : ∀ a ∈ ([0, 2, 4, 5, 7, 9, 11] : List ℤ),
    semitones.idxOf a < 7 ∧ semitones.getD (semitones.idxOf a) 0 = a := by
  decide

theorem key_pitchOn {key : ℤ} (h : IsWhite key) : (pitchOn key).key = key := by
  obtain ⟨hstep, hsemitones⟩ := step_of_isWhite _ h
  rw [pitchOn, key_octave_step _ hstep, hsemitones]
  omega

/-- Pitches and white keys are the same in number and order. -/
def whiteKeys : Pitch ≃o {key : ℤ // IsWhite key} where
  toFun p := ⟨p.key, isWhite_key p⟩
  invFun key := pitchOn key
  left_inv p := (key_eq_key_iff _ p).mp (key_pitchOn (isWhite_key p))
  right_inv key := Subtype.ext (key_pitchOn key.2)
  map_rel_iff' := key_le_key_iff _ _

theorem exists_key_eq_iff (key : ℤ) : (∃ p : Pitch, p.key = key) ↔ IsWhite key :=
  ⟨fun ⟨p, hp⟩ => hp ▸ isWhite_key p, fun h => ⟨pitchOn key, key_pitchOn h⟩⟩

/-- Pitches sound in their order on the white keys, one on each. A lower pitch has a lower key, and
seven steps are twelve keys, below middle C as above it; the keys that sound are those that lie as
far above a C as the steps of its octave do, and each of them sounds for one pitch alone. -/
theorem keys_of_pitches_in_order :
    (∀ p q : Pitch, p.key < q.key ↔ p < q) ∧
      (∀ p : Pitch, Pitch.key (p + 7) = p.key + 12) ∧
      (∀ m : ℤ, (∃ p : Pitch, p.key = m) ↔ (m - 60) % 12 ∈ [0, 2, 4, 5, 7, 9, 11]) ∧
      (∀ p q : Pitch, p.key = q.key ↔ p = q) ∧
      ∃ iso : Pitch ≃o {key : ℤ // IsWhite key}, ∀ p, (iso p : ℤ) = p.key :=
  ⟨key_lt_key_iff, Pitch.key_octave, exists_key_eq_iff, key_eq_key_iff, whiteKeys, fun _ => rfl⟩

/-- Keys in the octaves below middle C, up to it. -/
example : [-8, -7, -6, -1, 0].map Pitch.key = [47, 48, 50, 59, 60] := by decide

end Tablature.Music
