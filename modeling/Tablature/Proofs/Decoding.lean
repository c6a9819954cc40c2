import Tablature.Midi.File

/-!
A reader of standard MIDI files. It knows the format and nothing of the melody: it follows the
declared lengths of the chunks, and within a track it takes quantities and messages off the front
until the end mark, which has to use up the chunk. What the tracks do not use up, nothing may
follow. -/
namespace Tablature.Midi

/-- A quantity, behind the part of it that was read before. -/
def readQuantity (n : Nat) : List UInt8 → Option (Nat × List UInt8)
  | [] => none
  | b :: rest =>
    if b.toNat < 128 then some (128 * n + b.toNat, rest)
      else readQuantity (128 * n + (b.toNat - 128)) rest

def readWord : List UInt8 → Option (Nat × List UInt8)
  | a :: b :: c :: d :: rest =>
    some (((a.toNat * 256 + b.toNat) * 256 + c.toNat) * 256 + d.toNat, rest)
  | _ => none

inductive Message where
  | info (kind : UInt8) (content : List UInt8)
  | noteOn (key force : Int)
  | noteOff (key force : Int)
  deriving DecidableEq, Repr

def readMessage : List UInt8 → Option (Message × List UInt8)
  | status :: first :: rest =>
    if status = 0xFF then
      match readQuantity 0 rest with
      | some (n, rest) =>
        if n ≤ rest.length then some (.info first (rest.take n), rest.drop n) else none
      | none => none
    else match rest with
      | second :: rest =>
        if status = 0x90 then some (.noteOn first.toNat second.toNat, rest)
        else if status = 0x80 then some (.noteOff first.toNat second.toNat, rest)
        else none
      | [] => none
  | _ => none

/-- An event: the ticks since the event before it, and a message. -/
def readEvent (bytes : List UInt8) : Option ((Nat × Message) × List UInt8) :=
  match readQuantity 0 bytes with
  | some (since, rest) => (readMessage rest).map fun found => ((since, found.1), found.2)
  | none => none

theorem readQuantity_length {n m : Nat} {bytes rest : List UInt8}
    (h : readQuantity n bytes = some (m, rest)) :
    rest.length < bytes.length := by
  induction bytes generalizing n with
  | nil => cases h
  | cons b bytes ih =>
    rw [readQuantity] at h
    split at h
    · cases h
      exact Nat.lt_succ_self _
    · exact Nat.lt_succ_of_lt (ih h)

theorem readMessage_length {message : Message} {bytes rest : List UInt8}
    (h : readMessage bytes = some (message, rest)) : rest.length ≤ bytes.length := by
  unfold readMessage at h
  split at h
  · split at h
    · split at h
      · next hq =>
        have hlt := readQuantity_length hq
        split at h
        · cases h
          simp only [List.length_drop, List.length_cons]
          omega
        · cases h
      · cases h
    · split at h
      · split at h
        · cases h
          simp only [List.length_cons]
          omega
        · split at h
          · cases h
            simp only [List.length_cons]
            omega
          · cases h
      · cases h
  · cases h

theorem readEvent_length {e : Nat × Message} {bytes rest : List UInt8}
    (h : readEvent bytes = some (e, rest)) :
    rest.length < bytes.length := by
  unfold readEvent at h
  split at h
  · next hq =>
    obtain ⟨⟨message, rest'⟩, hm, hfound⟩ := Option.map_eq_some_iff.mp h
    cases hfound
    exact Nat.lt_of_le_of_lt (readMessage_length hm) (readQuantity_length hq)
  · cases h

def endMessage : Message := .info 0x2F []

/-- The events of a track, up to the end mark and no further. -/
def readEvents (bytes : List UInt8) : Option (List (Nat × Message)) :=
  match _h : readEvent bytes with
  | none => none
  | some (e, rest) =>
    if e.2 = endMessage then if rest = [] then some [e] else none
    else (readEvents rest).map (e :: ·)
  termination_by bytes.length
  decreasing_by exact readEvent_length _h

/-- The content of a chunk with a mark: as many bytes as the chunk declares. -/
def readChunk (mark bytes : List UInt8) : Option (List UInt8 × List UInt8) :=
  if bytes.take 4 = mark then
    match readWord (bytes.drop 4) with
    | some (n, rest) => if n ≤ rest.length then some (rest.take n, rest.drop n) else none
    | none => none
  else none

/-- So many tracks, and nothing behind them. -/
def readTracks : Nat → List UInt8 → Option (List (List (Nat × Message)))
  | 0, bytes => if bytes = [] then some [] else none
  | n + 1, bytes =>
    match readChunk [0x4D, 0x54, 0x72, 0x6B] bytes with
    | some (content, rest) =>
      match readEvents content, readTracks n rest with
      | some events, some others => some (events :: others)
      | _, _ => none
    | none => none

structure File where
  format : Nat
  /-- The ticks of a quarter note. -/
  division : Nat
  tracks : List (List (Nat × Message))
  deriving DecidableEq, Repr

def readFile (bytes : List UInt8) : Option File :=
  match readChunk [0x4D, 0x54, 0x68, 0x64] bytes with
  | some ([a, b, c, d, e, f], rest) =>
    (readTracks (c.toNat * 256 + d.toNat) rest).map
      (⟨a.toNat * 256 + b.toNat, e.toNat * 256 + f.toNat, ·⟩)
  | _ => none

def atTicks : Nat → List (Nat × Message) → List (Nat × Message)
  | _, [] => []
  | now, (since, message) :: rest => (now + since, message) :: atTicks (now + since) rest

theorem byte_toNat {n : Nat} (h : n < 256) : (byte n).toNat = n := by
  rw [byte, UInt8.toNat_ofNat', Nat.mod_eq_of_lt h]

theorem readWord_word {n : Nat} (h : n < wordLimit) (rest : List UInt8) :
    readWord (word n ++ rest) = some (n, rest) := by
  simp only [wordLimit] at h
  simp only [word, List.cons_append, List.nil_append, readWord, Option.some.injEq, Prod.mk.injEq,
    and_true]
  rw [byte_toNat (Nat.mod_lt _ (by decide)), byte_toNat (Nat.mod_lt _ (by decide)),
    byte_toNat (Nat.mod_lt _ (by decide)), byte_toNat (Nat.mod_lt _ (by decide))]
  omega

theorem readQuantity_leadingBytes (n : Nat) (rest : List UInt8) :
    readQuantity 0 (leadingBytes n ++ rest) = readQuantity n rest := by
  induction n using Nat.strongRecOn generalizing rest with
  | _ n ih =>
    rw [leadingBytes]
    by_cases h : n = 0
    · simp [h]
    · have hbyte : (byte (128 + n % 128)).toNat = 128 + n % 128 := byte_toNat (by omega)
      have hnext : 128 * (n / 128) + (128 + n % 128 - 128) = n := by omega
      have hhigh : ¬128 + n % 128 < 128 := by omega
      rw [if_neg h, List.append_assoc, ih (n / 128) (by omega), List.cons_append, readQuantity,
        hbyte, if_neg hhigh, hnext, List.nil_append]

theorem readQuantity_quantity (n : Nat) (rest : List UInt8) :
    readQuantity 0 (quantity n ++ rest) = some (n, rest) := by
  have hbyte : (byte (n % 128)).toNat = n % 128 := byte_toNat (by omega)
  have hlow : n % 128 < 128 := Nat.mod_lt _ (by decide)
  rw [quantity, List.append_assoc, readQuantity_leadingBytes, List.cons_append, readQuantity,
    hbyte, if_pos hlow, Nat.div_add_mod]
  rfl

theorem readChunk_append {mark content : List UInt8} (hmark : mark.length = 4)
    (h : content.length < wordLimit) (rest : List UInt8) :
    readChunk mark (mark ++ word content.length ++ content ++ rest) = some (content, rest) := by
  have htake : (mark ++ word content.length ++ content ++ rest).take 4 = mark := by
    simp [List.append_assoc, ← hmark]
  have hdrop : (mark ++ word content.length ++ content ++ rest).drop 4 =
      word content.length ++ (content ++ rest) := by
    simp [List.append_assoc, ← hmark]
  rw [readChunk, if_pos htake, hdrop, readWord_word h]
  simp

theorem readEvents_cons {e : Nat × Message} {bytes rest : List UInt8}
    (h : readEvent bytes = some (e, rest))
    (hend : e.2 ≠ endMessage) : readEvents bytes = (readEvents rest).map (e :: ·) := by
  rw [readEvents]
  split
  · next hnone =>
    rw [h] at hnone
    cases hnone
  · next e' rest' hsome =>
    rw [h] at hsome
    cases hsome
    rw [if_neg hend]

theorem readEvents_trackEnd : readEvents trackEnd = some [(0, endMessage)] := by
  have h : readEvent trackEnd = some ((0, endMessage), []) := by decide +kernel
  rw [readEvents]
  split
  · next hnone =>
    rw [h] at hnone
    cases hnone
  · next e rest hsome =>
    rw [h] at hsome
    cases hsome
    rfl

end Tablature.Midi
