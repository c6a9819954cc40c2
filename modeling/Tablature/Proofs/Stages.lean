import Tablature.Proofs.Melodies

/-!
Reading one token at a time. The reader looks ahead for raise marks and dots and takes a chord as a
whole. `Progress` says instead what is under way behind the readings so far; it takes one reading
more or refuses it at once. The reader reports what is refused first (`all_eq_error_iff`). What is
under way can always be completed, and a reading that is refused stays refused whatever follows. -/
namespace Tablature.Notation
open Tablature.Text Tablature.Music

/-- What is under way behind some readings. Behind a note a raise mark may follow, and behind a
length a dot. -/
inductive Stage where
  | between
  | note
  | length
  | chord (opening : Token) (isEmpty : Bool)
  | chordNote (opening : Token)
  deriving DecidableEq, Repr

structure Progress where
  octave : Nat
  stage : Stage
  deriving DecidableEq, Repr

def lengthFault? (t : Token) : Option ReadError :=
  if isDigits t.text.toList then
    match decimal? t.text.toList with
    | none => some (.notNumeral t.text)
    | some n => match Length.ofNat? n with
      | none => some (.refused (.badLength t.text) t.place)
      | some _ => none
  else some (.refused (.badLength t.text) t.place)

namespace Progress

def begin (octave : Nat) (t : Token) : Except ReadError Progress :=
  match t.kind with
  | .noteLetter =>
    if isStepName t.text then .ok ⟨octave, .note⟩
      else .error (.refused (.unknownNote t.text) t.place)
  | .chordOpen => .ok ⟨octave, .chord t true⟩
  | .restMark => .ok ⟨octave, .between⟩
  | .digit => match lengthFault? t with
    | none => .ok ⟨octave, .length⟩
    | some e => .error e
  | .octaveUp => .ok ⟨octave + 1, .between⟩
  | .octaveDown => match octave with
    | 0 => .error (.refused (.lowestOctave t.text) t.place)
    | lower + 1 => .ok ⟨lower, .between⟩
  | _ => .error (.refused (.misplaced t.text) t.place)

def inside (octave : Nat) (opening : Token) (isEmpty : Bool) (t : Token) :
    Except ReadError Progress :=
  match t.kind with
  | .chordClose =>
    if isEmpty then .error (.refused .emptyChord opening.place) else .ok ⟨octave, .between⟩
  | .noteLetter =>
    if isStepName t.text then .ok ⟨octave, .chordNote opening⟩
    else .error (.refused (.unknownNote t.text) t.place)
  | _ => .error (.refused (.insideChord t.text) t.place)

def step (p : Progress) (t : Token) : Except ReadError Progress :=
  match p.stage with
  | .between => begin p.octave t
  | .note => if t.kind = .raiseMark then .ok ⟨p.octave, .between⟩ else begin p.octave t
  | .length => if t.kind = .dot then .ok ⟨p.octave, .between⟩ else begin p.octave t
  | .chord opening isEmpty => inside p.octave opening isEmpty t
  | .chordNote opening =>
    if t.kind = .raiseMark then .ok ⟨p.octave, .chord opening false⟩
      else inside p.octave opening false t

def take (p : Progress) : Reading → Except ReadError Progress
  | .ok t => p.step t
  | .error e => .error (.scan e)

/-- What is under way behind some more readings, or the error of the first that is refused. -/
def run (p : Progress) (feed : List Reading) : Except ReadError Progress := feed.foldlM take p

/-- At the end of a text a chord may still be open. -/
def endFault? (p : Progress) : Option ReadError :=
  match p.stage with
  | .chord opening _ | .chordNote opening => some (.refused .unclosedChord opening.place)
  | _ => none

def fault? (p : Progress) (feed : List Reading) : Option ReadError :=
  match p.run feed with
  | .error e => some e
  | .ok p' => p'.endFault?

@[simp] theorem run_nil (p : Progress) : p.run [] = .ok p := rfl

theorem run_cons (p : Progress) (r : Reading) (feed : List Reading) :
    p.run (r :: feed) = (p.take r).bind fun p' => p'.run feed := rfl

theorem run_append (p : Progress) (a b : List Reading) :
    p.run (a ++ b) = (p.run a).bind fun p' => p'.run b :=
  List.foldlM_append

@[simp] theorem fault?_nil (p : Progress) : p.fault? [] = p.endFault? := rfl

theorem fault?_cons (p : Progress) (r : Reading) (feed : List Reading) :
    p.fault? (r :: feed) = match p.take r with
      | .error e => some e
      | .ok p' => p'.fault? feed := by
  rw [fault?, run_cons]
  cases p.take r <;> rfl

theorem fault?_append {p p' : Progress} {a : List Reading} (h : p.run a = .ok p')
    (b : List Reading) :
    p.fault? (a ++ b) = p'.fault? b := by
  rw [fault?, run_append, h]
  rfl

/-- A mark that may be left out, seen from both sides of the look ahead. -/
theorem fault?_of_optional (p p' : Progress) (kind : Kind) (hend : p.endFault? = p'.endFault?)
    (hstep : ∀ t, p.step t = if t.kind = kind then .ok p' else p'.step t) (feed : List Reading) :
    p.fault? feed = match takeKind kind feed with
      | (.error e, _) => some (.scan e)
      | (.ok _, rest) => p'.fault? rest := by
  cases feed with
  | nil => exact hend
  | cons r rest =>
    cases r with
    | error e => rfl
    | ok t =>
      rw [fault?_cons, take, hstep]
      by_cases hk : t.kind = kind
      · simp [takeKind, hk]
      · simp [takeKind, hk, fault?_cons, take]

theorem fault?_letter (p p' : Progress) (hend : p.endFault? = p'.endFault?)
    (hstep : ∀ t, p.step t = if t.kind = .raiseMark then .ok p' else p'.step t) (octave : Nat)
    (t : Token) (feed : List Reading) :
    (if isStepName t.text then p.fault? feed else some (.refused (.unknownNote t.text) t.place)) =
      match readPitch octave t feed with
      | (.error e, _) => some e
      | (.ok _, rest) => p'.fault? rest := by
  rw [fault?_of_optional p p' .raiseMark hend hstep, readPitch, isStepName]
  cases stepOf? t.text with
  | none => rfl
  | some n =>
    rcases takeKind .raiseMark feed with ⟨_ | _, rest⟩
    · rfl
    · rfl

theorem fault?_length (octave : Nat) (t : Token) (feed : List Reading) :
    (match lengthFault? t with
      | none => fault? ⟨octave, .length⟩ feed
      | some e => some e) = match readLength t feed with
      | (.error e, _) => some e
      | (.ok _, rest) => fault? ⟨octave, .between⟩ rest := by
  have hdot := fault?_of_optional ⟨octave, .length⟩ ⟨octave, .between⟩ .dot rfl (fun _ => rfl) feed
  rw [hdot, lengthFault?, readLength]
  by_cases hdigits : isDigits t.text.toList = true
  · simp only [hdigits, if_true]
    cases decimal? t.text.toList with
    | none => rfl
    | some n =>
      dsimp only
      cases Length.ofNat? n with
      | none => rfl
      | some base =>
        rcases takeKind .dot feed with ⟨_ | _, rest⟩
        · rfl
        · rfl
  · simp only [hdigits, if_false, Bool.false_eq_true]

theorem fault?_chord (octave : Nat) (opening : Token) (found : List Pitch) (feed : List Reading) :
    fault? ⟨octave, .chord opening found.isEmpty⟩ feed =
      match readChord octave opening found feed with
      | (.error e, _) => some e
      | (.ok _, rest) => fault? ⟨octave, .between⟩ rest := by
  fun_induction readChord octave opening found feed with
  | case1 found => rfl
  | case2 found e rest => rfl
  | case3 found t rest hclose hempty => simp [fault?_cons, take, step, inside, hclose, hempty]
  | case4 found t rest hclose hnotes => simp [fault?_cons, take, step, inside, hclose, hnotes]
  | case5 found t rest hclose hletter e rest' hpitch =>
    have hfault := fault?_letter ⟨octave, .chordNote opening⟩ ⟨octave, .chord opening false⟩ rfl
      (fun _ => rfl) octave
      t rest
    rw [hpitch] at hfault
    simp only [fault?_cons, take, step, inside, hletter]
    refine Eq.trans ?_ hfault
    cases isStepName t.text <;> rfl
  | case6 found t rest hclose hletter pitch rest' hpitch ih =>
    have hfault := fault?_letter ⟨octave, .chordNote opening⟩ ⟨octave, .chord opening false⟩ rfl
      (fun _ => rfl) octave
      t rest
    have hnonempty : (found ++ [pitch]).isEmpty = false := by simp
    rw [hpitch] at hfault
    rw [← ih, hnonempty]
    simp only [fault?_cons, take, step, inside, hletter]
    refine Eq.trans ?_ hfault
    cases isStepName t.text <;> rfl
  | case7 found t rest hclose hletter =>
    have hinside : inside octave opening found.isEmpty t =
        .error (.refused (.insideChord t.text) t.place) := by
      rw [inside.eq_def]
      split
      · next h => exact absurd h hclose
      · next h => exact absurd h hletter
      · rfl
    simp only [fault?_cons, take, step, hinside]

theorem fault?_handle (r : Reader) (t : Token) :
    fault? ⟨r.octave, .between⟩ (.ok t :: r.feed) = match r.handle t with
      | (.failed e, _) => some e
      | (_, r') => fault? ⟨r'.octave, .between⟩ r'.feed := by
  rw [fault?_cons, take, step, begin.eq_def, Reader.handle]
  cases hkind : t.kind with
  | noteLetter =>
    have hfault :=
      fault?_letter ⟨r.octave, .note⟩ ⟨r.octave, .between⟩ rfl (fun _ => rfl) r.octave t r.feed
    rcases hpitch : readPitch r.octave t r.feed with ⟨e | pitch, rest⟩ <;> rw [hpitch] at hfault <;>
      exact Eq.trans (by cases isStepName t.text <;> rfl) hfault
  | chordOpen =>
    have hfault := fault?_chord r.octave t [] r.feed
    rcases hchord : readChord r.octave t [] r.feed with ⟨e | pitches, rest⟩ <;>
      rw [hchord] at hfault <;> exact hfault
  | digit =>
    have hfault := fault?_length r.octave t r.feed
    rcases hlength : readLength t r.feed with ⟨e | duration, rest⟩ <;> rw [hlength] at hfault <;>
      exact Eq.trans (by cases lengthFault? t <;> rfl) hfault
  | octaveDown => cases r.octave <;> rfl
  | restMark | octaveUp | chordClose | raiseMark | dot => rfl

/-- The reader reports the first fault of the readings ahead. -/
theorem fault?_reader (r : Reader) :
    fault? ⟨r.octave, .between⟩ r.feed = match r.all with
      | .error e => some e
      | .ok _ => none := by
  induction r using Reader.handle_induction with
  | nil duration octave =>
    rw [Reader.all_nil]
    rfl
  | error e feed duration octave =>
    rw [Reader.all_error]
    rfl
  | token t feed duration octave ih =>
    rw [Reader.all_cons ⟨feed, duration, octave⟩ t feed]
    refine (fault?_handle ⟨feed, duration, octave⟩ t).trans ?_
    rcases hhandle : Reader.handle ⟨feed, duration, octave⟩ t with ⟨verdict, r'⟩
    rw [hhandle] at ih
    cases verdict with
    | failed e => rfl
    | onward => exact ih
    | symbol s =>
      refine ih.trans ?_
      dsimp only
      cases r'.all <;> rfl

theorem all_eq_error_iff {r : Reader} {e : ReadError} :
    r.all = .error e ↔ fault? ⟨r.octave, .between⟩ r.feed = some e := by
  rw [fault?_reader]
  cases r.all <;> simp

theorem all_eq_ok_iff {r : Reader} :
    (∃ result, r.all = .ok result) ↔ fault? ⟨r.octave, .between⟩ r.feed = none := by
  rw [fault?_reader]
  cases r.all <;> simp

theorem symbols_eq_error_iff {text : String} {e : ReadError} :
    symbols text = .error e ↔ fault? ⟨0, .between⟩ (readings text) = some e := all_eq_error_iff

theorem symbols_eq_ok_iff {text : String} :
    (∃ result, symbols text = .ok result) ↔ fault? ⟨0, .between⟩ (readings text) = none :=
  all_eq_ok_iff

theorem exists_refused {p : Progress} {feed : List Reading} {e : ReadError}
    (h : p.fault? feed = some e) :
    (∃ p', p.run feed = .ok p' ∧ p'.endFault? = some e) ∨
      ∃ before r after p', feed = before ++ r :: after ∧ p.run before = .ok p' ∧
        p'.take r = .error e := by
  induction feed generalizing p with
  | nil => exact Or.inl ⟨p, rfl, h⟩
  | cons r feed ih =>
    rw [fault?_cons] at h
    cases htake : p.take r with
    | error e' =>
      rw [htake] at h
      cases h
      exact Or.inr ⟨[], r, feed, p, rfl, rfl, htake⟩
    | ok q =>
      rw [htake] at h
      cases ih h with
      | inl hend =>
        obtain ⟨p', hrun, hend⟩ := hend
        exact Or.inl ⟨p', by rw [run_cons, htake]; exact hrun, hend⟩
      | inr hrefused =>
        obtain ⟨before, r', after, p', rfl, hrun, htake'⟩ := hrefused
        exact Or.inr ⟨r :: before, r', after, p', rfl, by rw [run_cons, htake]; exact hrun, htake'⟩

/-- What is refused stays refused, whatever follows it. -/
theorem fault?_refused {p p' : Progress} {before : List Reading} {r : Reading} {e : ReadError}
    (hrun : p.run before = .ok p') (htake : p'.take r = .error e) (after : List Reading) :
    p.fault? (before ++ r :: after) = some e := by
  rw [fault?_append hrun, fault?_cons, htake]

end Progress

/-- The tokens that complete what is under way: a chord is given a last note and closed. -/
def Stage.completion : Stage → List (Kind × String)
  | .chord _ _ | .chordNote _ => [(.noteLetter, "c"), (.chordClose, ")")]
  | .between | .note | .length => []

namespace Progress

theorem fault?_completion {p : Progress} {ts : List Token}
    (h : ts.map Token.content = p.stage.completion) :
    p.fault? (ts.map .ok) = none := by
  obtain ⟨octave, stage⟩ := p
  cases stage with
  | between | note | length =>
    rw [List.map_eq_nil_iff.mp h]
    rfl
  | chord opening _ | chordNote opening =>
    obtain ⟨letter, rest, rfl, hletter, hrest⟩ := List.map_eq_cons_iff.mp h
    obtain ⟨close, behind, rfl, hclose, hbehind⟩ := List.map_eq_cons_iff.mp hrest
    obtain ⟨kind, text, place⟩ := letter
    obtain ⟨kind', text', place'⟩ := close
    cases hletter
    cases hclose
    have hc : isStepName "c" = true := by decide +kernel
    rw [List.map_eq_nil_iff.mp hbehind]
    simp [fault?_cons, take, step, inside, hc, endFault?]

end Progress

/-- The text of the token that a cause blames. A chord that is empty or not closed is reported where
it begins. -/
def Cause.blamed? : Cause → Option String
  | .unknownNote text | .insideChord text | .badLength text | .lowestOctave text | .misplaced
    text => some text
  | .unclosedChord | .emptyChord => none

def ReadError.BlamesToken (e : ReadError) (t : Token) : Prop :=
  ∃ cause, e = .refused cause t.place ∧ cause.blamed? = some t.text

namespace Progress

theorem lengthFault?_blames {t : Token} {e : ReadError} (ht : Scanned t) (hkind : t.kind = .digit)
    (h : lengthFault? t = some e) : e.BlamesToken t := by
  cases ht with
  | digit place hc =>
    simp only [lengthFault?, String.toList_singleton, isDigits_of_isDigit hc,
      decimal?_of_isDigit hc, if_true] at h
    split at h
    · cases h
      exact ⟨_, rfl, rfl⟩
    · cases h
  | letter | chordOpen | chordClose | octaveUp | octaveDown | raiseMark | dot | restMark =>
    cases hkind

theorem begin_blames {octave : Nat} {t : Token} {e : ReadError} (ht : Scanned t)
    (h : begin octave t = .error e) :
    e.BlamesToken t := by
  rw [begin.eq_def] at h
  split at h
  · split at h
    · cases h
    · cases h
      exact ⟨_, rfl, rfl⟩
  · cases h
  · cases h
  · next hkind =>
    split at h
    · cases h
    · next e' hfault =>
      cases h
      exact lengthFault?_blames ht hkind hfault
  · cases h
  · split at h
    · cases h
      exact ⟨_, rfl, rfl⟩
    · cases h
  · cases h
    exact ⟨_, rfl, rfl⟩

theorem inside_blames {octave : Nat} {opening t : Token} {isEmpty : Bool} {e : ReadError}
    (h : inside octave opening isEmpty t = .error e) :
    e.BlamesToken t ∨ isEmpty = true ∧ t.kind = .chordClose ∧
      e = .refused .emptyChord opening.place := by
  rw [inside.eq_def] at h
  split at h
  · next hkind =>
    split at h
    · next hempty =>
      cases h
      exact Or.inr ⟨hempty, hkind, rfl⟩
    · cases h
  · split at h
    · cases h
    · cases h
      exact Or.inl ⟨_, rfl, rfl⟩
  · cases h
    exact Or.inl ⟨_, rfl, rfl⟩

/-- A token that is refused is the one to blame, unless it closes a chord that is empty. -/
theorem step_blames {p : Progress} {t : Token} {e : ReadError} (ht : Scanned t)
    (h : p.step t = .error e) :
    e.BlamesToken t ∨
      ∃ opening, p.stage = .chord opening true ∧ t.kind = .chordClose ∧
        e = .refused .emptyChord opening.place := by
  obtain ⟨octave, stage⟩ := p
  cases stage with
  | between => exact Or.inl (begin_blames ht h)
  | note | length =>
    simp only [step] at h
    split at h
    · cases h
    · exact Or.inl (begin_blames ht h)
  | chord opening isEmpty =>
    refine (inside_blames h).imp id ?_
    rintro ⟨rfl, hclose, he⟩
    exact ⟨opening, rfl, hclose, he⟩
  | chordNote opening =>
    simp only [step] at h
    split at h
    · cases h
    · refine (inside_blames h).imp id ?_
      rintro ⟨hempty, -⟩
      cases hempty

theorem endFault?_refused {p : Progress} {e : ReadError} (h : p.endFault? = some e) :
    ∃ place, e = .refused .unclosedChord place := by
  obtain ⟨octave, stage⟩ := p
  cases stage with
  | between | note | length => cases h
  | chord opening _ | chordNote opening =>
    cases h
    exact ⟨opening.place, rfl⟩

theorem refused_of_run {p : Progress} {ts : List Token} {e : ReadError} (hts : ∀ t ∈ ts, Scanned t)
    (h : p.run (ts.map .ok) = .error e) :
    ∃ cause place, e = .refused cause place ∧ cause ≠ .unclosedChord := by
  induction ts generalizing p with
  | nil => cases h
  | cons t ts ih =>
    obtain ⟨ht, hts⟩ := List.forall_mem_cons.mp hts
    rw [List.map_cons, run_cons, take] at h
    cases hstep : p.step t with
    | ok p' =>
      rw [hstep] at h
      exact ih hts h
    | error e' =>
      rw [hstep] at h
      cases h
      cases step_blames ht hstep with
      | inl htoken =>
        obtain ⟨cause, rfl, hblamed⟩ := htoken
        refine ⟨cause, t.place, rfl, ?_⟩
        rintro rfl
        cases hblamed
      | inr hempty =>
        obtain ⟨opening, -, -, rfl⟩ := hempty
        exact ⟨.emptyChord, opening.place, rfl, nofun⟩

theorem refused_of_fault? {p : Progress} {ts : List Token} {e : ReadError}
    (hts : ∀ t ∈ ts, Scanned t)
    (h : p.fault? (ts.map .ok) = some e) : ∃ cause place, e = .refused cause place := by
  rw [fault?] at h
  cases hrun : p.run (ts.map .ok) with
  | error e' =>
    rw [hrun] at h
    cases h
    obtain ⟨cause, place, rfl, -⟩ := refused_of_run hts hrun
    exact ⟨cause, place, rfl⟩
  | ok p' =>
    rw [hrun] at h
    obtain ⟨place, rfl⟩ := endFault?_refused h
    exact ⟨.unclosedChord, place, rfl⟩

theorem refused_of_all {ts : List Token} {e : ReadError} (hts : ∀ t ∈ ts, Scanned t)
    (h : (Reader.ofTokens ts).all = .error e) : ∃ cause place, e = .refused cause place :=
  refused_of_fault? hts (all_eq_error_iff.mp h)

end Progress

def Opens (feed : List Reading) (opening : Token) (notes : List Token) : Prop :=
  opening.kind = .chordOpen ∧ (∀ t ∈ notes, t.kind = .noteLetter ∨ t.kind = .raiseMark) ∧
    ∃ before, feed = before ++ .ok opening :: notes.map .ok

/-- The stage is what some readings leave under way. -/
def Stage.Follows (feed : List Reading) : Stage → Prop
  | .chord opening isEmpty => ∃ notes, Opens feed opening notes ∧ (isEmpty = true → notes = [])
  | .chordNote opening => ∃ notes, Opens feed opening notes
  | .between | .note | .length => True

theorem Opens.append {feed : List Reading} {opening t : Token} {notes : List Token}
    (h : Opens feed opening notes)
    (ht : t.kind = .noteLetter ∨ t.kind = .raiseMark) :
    Opens (feed ++ [.ok t]) opening (notes ++ [t]) := by
  obtain ⟨hopening, hnotes, before, rfl⟩ := h
  refine ⟨hopening, ?_, before, by simp⟩
  intro t' ht'
  cases List.mem_append.mp ht' with
  | inl h => exact hnotes t' h
  | inr h => exact List.mem_singleton.mp h ▸ ht

namespace Progress

theorem follows_begin {octave : Nat} {t : Token} {p : Progress} (h : begin octave t = .ok p)
    (feed : List Reading) :
    p.stage.Follows (feed ++ [.ok t]) := by
  rw [begin.eq_def] at h
  split at h
  · split at h <;> cases h
    trivial
  · next hkind =>
    cases h
    exact ⟨[], ⟨hkind, nofun, feed, rfl⟩, fun _ => rfl⟩
  · cases h
    trivial
  · split at h <;> cases h
    trivial
  · cases h
    trivial
  · split at h <;> cases h
    trivial
  · cases h

theorem follows_inside {octave : Nat} {opening t : Token} {isEmpty : Bool} {p : Progress}
    {feed : List Reading} {notes : List Token} (hopens : Opens feed opening notes)
    (h : inside octave opening isEmpty t = .ok p) :
    p.stage.Follows (feed ++ [.ok t]) := by
  rw [inside.eq_def] at h
  split at h
  · split at h <;> cases h
    trivial
  · next hkind =>
    split at h <;> cases h
    exact ⟨notes ++ [t], hopens.append (Or.inl hkind)⟩
  · cases h

theorem follows_step {p p' : Progress} {t : Token} {feed : List Reading} (hp : p.stage.Follows feed)
    (h : p.step t = .ok p') : p'.stage.Follows (feed ++ [.ok t]) := by
  obtain ⟨octave, stage⟩ := p
  cases stage with
  | between => exact follows_begin h feed
  | note | length =>
    simp only [step] at h
    split at h
    · cases h
      trivial
    · exact follows_begin h feed
  | chord opening isEmpty =>
    obtain ⟨notes, hopens, -⟩ := hp
    exact follows_inside hopens h
  | chordNote opening =>
    obtain ⟨notes, hopens⟩ := hp
    simp only [step] at h
    split at h
    · next hkind =>
      cases h
      exact ⟨notes ++ [t], hopens.append (Or.inr hkind), nofun⟩
    · exact follows_inside hopens h

theorem follows_run {p p' : Progress} {before feed : List Reading} (hp : p.stage.Follows before)
    (h : p.run feed = .ok p') : p'.stage.Follows (before ++ feed) := by
  induction feed generalizing p before with
  | nil =>
    cases h
    rwa [List.append_nil]
  | cons r feed ih =>
    rw [run_cons] at h
    cases r with
    | error e => cases h
    | ok t =>
      cases htake : p.step t with
      | error e =>
        rw [take, htake] at h
        cases h
      | ok q =>
        rw [take, htake] at h
        have hq := ih (follows_step hp htake) h
        rwa [List.append_assoc] at hq

theorem follows_of_run {octave : Nat} {p : Progress} {feed : List Reading}
    (h : run ⟨octave, .between⟩ feed = .ok p) : p.stage.Follows feed := by
  have hbetween : Stage.Follows [] (mk octave .between).stage := trivial
  exact follows_run hbetween h

end Progress
end Tablature.Notation
