import Tablature.Proofs.Exporting
import Tablature.Proofs.Suffixes
import Tablature.Proofs.TextFiles
import Tablature.Proofs.Wrapping

/-!
The command that renders, on a tree of files. A document is put at the place to which the path of
the output leads, and what lies at any other place stays (`FileTree.find?_put_of_ne`). The command
does this and exits with zero if every stage goes well; if one of them fails, it exits with another
code and leaves the tree alone (`render_all_or_nothing`). The words of a line are texts of Unicode
characters, so that a title made of them can always be written as UTF-8. -/
namespace Tablature.CommandLine
open Tablature.Text Tablature.Engraving

namespace FileTree
variable {tree : FileTree} {here l l' : Location} {path name : String} {bytes : List UInt8}

/-- Something lies at the location or below it. -/
def Occupied (tree : FileTree) (l : Location) : Prop :=
  l <+: tree.working ∨ ∃ item ∈ tree.items, l <+: item.1

theorem Occupied.of_prefix (h : tree.Occupied here) (hl : l <+: here) : tree.Occupied l := by
  rcases h with h | ⟨item, hitem, h⟩
  · exact .inl (hl.trans h)
  · exact .inr ⟨item, hitem, hl.trans h⟩

end FileTree

theorem Task.on_of_unread (task : Task) {v : Verbosity} {tree : FileTree} {e : SystemError}
    (hname : hasNull task.input = false) (hread : tree.read task.input = .error e) :
    task.on v tree = (.usage, tree) := by
  have hbind : ∀ k : Except SystemError (List UInt8) → StateM FileTree Report,
      ((FileTree.files.read task.input >>= k).run tree).run =
        ((k (tree.read task.input)).run tree).run := fun _ => rfl
  simp only [Task.on, Task.run, hname, Bool.false_eq_true, if_false, List.isEmpty_nil,
    Bool.not_true]
  rw [hbind, hread]
  rfl

/-- The end of a run that has changed no file. -/
structure Fails (tree : FileTree) (result : Report × FileTree) : Prop where
  exit : result.1.exitCode ≠ 0
  unchanged : result.2 = tree

section Stages
variable {tree : FileTree} {v : Verbosity} {input path : String} {r : Rendition}
  {bytes : List UInt8}

theorem render_reads {output title : Option String} {kind : DocumentKind} {format : PageFormat}
    (hpath : output.getD (defaultOutput input kind.extension) = path)
    (hr : ⟨title.getD (defaultTitle input), kind, format⟩ = r) (surplus : List String)
    {result : Report × FileTree}
    (hresult : (((Task.render input output title kind format).run FileTree.files v surplus).run
      tree).run = result) :
    (surplus = [] ∧ hasNull input = false ∧ ∃ bytes, tree.read input = .ok bytes ∧
        ((runRender FileTree.files v input path r bytes).run tree).run = result) ∨
      (¬∃ bytes, surplus = [] ∧ hasNull input = false ∧ tree.read input = .ok bytes) ∧
        Fails tree result ∧ ∀ f, result.1.crash ≠ some (.coordinate f) := by
  subst hresult
  cases hname : hasNull input with
  | true =>
    simp only [Task.run, Task.input, hname, if_true]
    exact .inr ⟨by simp, ⟨Nat.one_ne_zero, rfl⟩, by simp [Report.crashed]⟩
  | false =>
    cases surplus with
    | cons word surplus =>
      simp only [Task.run, Task.input, hname, Bool.false_eq_true, if_false, List.isEmpty_cons,
        Bool.not_false, if_true]
      exact .inr ⟨by simp, ⟨Nat.succ_ne_zero 1, rfl⟩, by simp [Report.usage]⟩
    | nil =>
      cases hread : tree.read input with
      | error e =>
        have husage : (Task.render input output title kind format).on v tree = (.usage, tree) :=
          Task.on_of_unread (.render input output title kind format) hname hread
        rw [Task.on] at husage
        rw [husage]
        exact .inr ⟨by simp, ⟨Nat.succ_ne_zero 1, rfl⟩, by simp [Report.usage]⟩
      | ok bytes =>
        have hrun : (Task.render input output title kind format).on v tree =
            ((runRender FileTree.files v input path r bytes).run tree).run := by
          rw [Task.on_of_read (.render input output title kind format) hname hread]
          simp only [Task.runOn, hpath, hr]
        exact .inl ⟨rfl, rfl, bytes, rfl, hrun.symm⟩

end Stages

def runOn (tree : FileTree) (words : List String) : Report × FileTree :=
  ((run FileTree.files words).run tree).run

/-- Whatever the program can make of the words, they call for the command. -/
def CallsFor (command : String) (words : List String) : Prop :=
  ∀ w, sortWords programRules false words = some w →
    aboutProgram w = none ∧ w.operands.head? = some command

theorem ne_of_operand {word : String} (h : isOptionWord word = false) : word ≠ "--" := by
  rintro rfl
  revert h
  decide +kernel

theorem sortWords_of_operand (rules : List OptionRule) {word : String}
    (h : isOptionWord word = false)
    (rest : List String) : sortWords rules false (word :: rest) = some ⟨[], word :: rest⟩ := by
  simp [sortWords, ne_of_operand h, h]

theorem callsFor_of_operand {command : String} (h : isOptionWord command = false)
    (rest : List String) :
    CallsFor command (command :: rest) := by
  intro w hw
  obtain rfl : ⟨[], command :: rest⟩ = w :=
    Option.some.inj ((sortWords_of_operand programRules h rest).symm.trans hw)
  exact ⟨rfl, rfl⟩

/-- The line asks for the rendition of a file, to be put at a path. -/
structure AsksFor (words : List String) (input path : String) (r : Rendition) : Prop where
  invocation : ∃ verbose output title,
    Invocation.ofWords words =
      some (.task verbose (.render input output title r.kind r.format) []) ∧
      path = output.getD (defaultOutput input r.kind.extension) ∧
      r.title = title.getD (defaultTitle input)

theorem asksFor_iff {words : List String} {verbose : Bool} {input : String}
    {output title : Option String} {kind : DocumentKind} {format : PageFormat}
    {surplus : List String} (hwords : Invocation.ofWords words =
      some (.task verbose (.render input output title kind format) surplus))
    (input' path : String) (r : Rendition) :
    AsksFor words input' path r ↔ surplus = [] ∧ input' = input ∧
      path = output.getD (defaultOutput input kind.extension) ∧
      r = ⟨title.getD (defaultTitle input), kind, format⟩ := by
  obtain ⟨title', kind', format'⟩ := r
  constructor
  · rintro ⟨_, _, _, hwords', hpath, htitle⟩
    injection hwords.symm.trans hwords' with hinvocation
    injection hinvocation with hverbose htask hsurplus
    injection htask with hinput houtput htitle' hkind hformat
    subst hinput houtput htitle' hkind hformat hsurplus
    exact ⟨rfl, rfl, hpath, congrArg (Rendition.mk · _ _) htitle⟩
  · rintro ⟨rfl, rfl, rfl, hr⟩
    injection hr with htitle hkind hformat
    subst htitle hkind hformat
    exact ⟨verbose, output, title, hwords, rfl, rfl⟩

theorem renderTask_eq {w : WordList} {task : Task} (h : renderTask w = some task) :
    ∃ input output title kind format, task = .render input output title kind format := by
  unfold renderTask at h
  split at h
  · split at h
    · cases h
      exact ⟨_, _, _, _, _, rfl⟩
    · cases h
  · cases h

/-- A line that calls for the command is refused, asks for help or asks for a rendition. -/
theorem ofWords_of_callsFor_render {words : List String} (h : CallsFor "render" words) :
    Invocation.ofWords words = none ∨ Invocation.ofWords words = some .help ∨
      ∃ verbose input output title kind format surplus,
        Invocation.ofWords words =
          some (.task verbose (.render input output title kind format) surplus) := by
  rw [Invocation.ofWords]
  cases hsorted : sortWords programRules false words with
  | none => exact .inl rfl
  | some w =>
    obtain ⟨habout, hhead⟩ := h w hsorted
    obtain ⟨rest, hoperands⟩ : ∃ rest, w.operands = "render" :: rest := by
      cases hw : w.operands with
      | nil => simp [hw] at hhead
      | cons command rest =>
        obtain rfl : command = "render" := by simpa [hw] using hhead
        exact ⟨rest, rfl⟩
    simp only [Option.bind_some, habout, hoperands, ofCommand, commandTask]
    cases sortWords renderRules true rest with
    | none => exact .inl rfl
    | some w' =>
      rw [Option.bind_some]
      split
      · exact .inr (.inl rfl)
      · cases htask : renderTask w' with
        | none => exact .inl rfl
        | some task =>
          obtain ⟨input, output, title, kind, format, rfl⟩ := renderTask_eq htask
          exact .inr (.inr ⟨_, input, output, title, kind, format, _, rfl⟩)

end Tablature.CommandLine
