import ClassCompiler.Proofs.Meaning.Machine

/-!
# The depth of the stack

A verifier of machine code does not run it.  It knows of each instruction how many words it takes
from the stack and how many it puts there, follows every path through the lines, and wants to find
the same depth whichever way it gets to a line.

A line can be given one depth in advance: that of the line before it, changed by what that line
does, or zero where the line before never goes on.  Lines are *level* if this agrees with where the
jumps lead: a label that ends a comparison has one word below it, every other label none.  Then each
path finds the depth that was given in advance.  The machine itself takes these paths, so that its
stack is never deeper than they are.

* `Op.pops`, `Op.pushes`: what an instruction does to the depth.
* `Arrives`: a path through lines, with the depth that it has at its end.
* `Level`, `Level.arrives`: level lines, and the paths through them.
* `Arrives.runs`: the paths of the machine.
-/

namespace ClassCompiler
namespace Machine

/-! ## What instructions do to the depth -/

/-- The words that an instruction takes from the stack. -/
def Op.pops : Op → Nat
  | iconst _ | bipush _ | sipush _ | ldcInt _ | ldcString _ | load _ _ | new _ | goto _ | ret => 0
  | store _ _ | ifeq _ | ifne _ | arraylength | newarray | dup | pop | getfield _ _ _ | ireturn
  | areturn => 1
  | iadd | isub | imul | idiv | iand | ior | ixor | ifIcmplt _ | ifIcmpgt _ | iaload
  | putfield _ _ _ => 2
  | iastore => 3
  | invoke kind _ _ signature => signature.params.length + if kind = .static then 0 else 1

/-- The words that an instruction puts on the stack. -/
def Op.pushes : Op → Nat
  | iconst _ | bipush _ | sipush _ | ldcInt _ | ldcString _ | load _ _ | new _ => 1
  | iadd | isub | imul | idiv | iand | ior | ixor | iaload | arraylength | newarray => 1
  | getfield _ _ _ => 1
  | dup => 2
  | invoke _ _ _ signature => if signature.result = .void then 0 else 1
  | store _ _ | ifeq _ | ifne _ | ifIcmplt _ | ifIcmpgt _ | goto _ | pop | iastore
  | putfield _ _ _ | ret | ireturn | areturn => 0

/-- The depth behind an instruction. -/
def Op.change (o : Op) (depth : Nat) : Nat :=
  depth - o.pops + o.pushes

/-- The label that an instruction may jump to. -/
def Op.target? : Op → Option String
  | ifIcmplt name | ifIcmpgt name | ifeq name | ifne name | goto name => some name
  | _ => none

/-- An instruction may be followed by the next line. -/
def Op.goesOn : Op → Bool
  | goto _ | ret | ireturn | areturn => false
  | _ => true

/-- A path through lines gets to a line with a depth.  It starts on the first line with an empty
stack, and goes on to the next line or to where a label is set. -/
inductive Arrives (lines : List (Line Op)) : Nat → Nat → Prop
  | start : Arrives lines 0 0
  | label {line depth name} (h : Arrives lines line depth)
    (hline : lines[line]? = some (.label name)) : Arrives lines (line + 1) depth
  | next {line depth o} (h : Arrives lines line depth) (hline : lines[line]? = some (.op o))
    (hgoes : o.goesOn = true) : Arrives lines (line + 1) (o.change depth)
  | jump {line depth o name line'} (h : Arrives lines line depth)
    (hline : lines[line]? = some (.op o)) (htarget : o.target? = some name)
    (hlabel : lines[line']? = some (.label name)) : Arrives lines line' (o.change depth)

/-! ## Level lines -/

/-- The depth at a label: what a comparison gives is on the stack where it ends. -/
def labelDepth (name : String) : Nat :=
  if "CMP_END_".toList <+: name.toList then 1 else 0

@[simp] theorem labelDepth_trueLabel (k : Nat) : labelDepth (trueLabel k) = 0 := by
  have hlist : (trueLabel k).toList = "CMP_TRUE_".toList ++ (toString k).toList :=
    String.toList_append
  rw [labelDepth, hlist, if_neg]
  simp

@[simp] theorem labelDepth_endLabel (k : Nat) : labelDepth (endLabel k) = 1 := by
  have hlist : (endLabel k).toList = "CMP_END_".toList ++ (toString k).toList :=
    String.toList_append
  rw [labelDepth, hlist, if_pos (List.prefix_append ..)]

/-- The depth that the line behind an instruction has.  Nothing gets there from an instruction that
does not go on; what follows it starts with an empty stack. -/
def Op.settle (o : Op) (depth : Nat) : Nat :=
  if o.goesOn then o.change depth else 0

/-- Lines that lead from one depth to another without taking what is not there, without exceeding a
bound, and with the same depth wherever a label is set or jumped to. -/
inductive Level (bound : Nat) : Nat → List (Line Op) → Nat → Prop
  | nil {depth} : Level bound depth [] depth
  | op {depth o lines after} (hpops : o.pops ≤ depth) (hbound : o.change depth ≤ bound)
    (htarget : ∀ name, o.target? = some name → labelDepth name = o.change depth)
    (h : Level bound (o.settle depth) lines after) : Level bound depth (.op o :: lines) after
  | label {depth name lines after} (hlabel : labelDepth name = depth)
    (h : Level bound depth lines after) : Level bound depth (.label name :: lines) after

namespace Level

variable {bound depth depth' after after' : Nat} {lines lines' : List (Line Op)}

theorem append (h : Level bound depth lines depth') (h' : Level bound depth' lines' after) :
    Level bound depth (lines ++ lines') after := by
  induction h with
  | nil => exact h'
  | op hpops hbound htarget _ ih => exact .op hpops hbound htarget (ih h')
  | label hlabel _ ih => exact .label hlabel (ih h')

/-- Lines lead from one depth to only one other. -/
theorem unique (h : Level bound depth lines after) (h' : Level bound depth lines after') :
    after = after' := by
  induction h with
  | nil => cases h'; rfl
  | op _ _ _ _ ih => cases h' with | op _ _ _ h' => exact ih h'
  | label _ _ ih => cases h' with | label _ h' => exact ih h'

/-- At each line, the lines before it are level, and so is the rest. -/
theorem split (h : Level bound depth (lines ++ lines') after) :
    ∃ middle, Level bound depth lines middle ∧ Level bound middle lines' after := by
  induction lines generalizing depth with
  | nil => exact ⟨depth, .nil, h⟩
  | cons l lines ih =>
    cases h with
    | op hpops hbound htarget h =>
      obtain ⟨middle, hbefore, hrest⟩ := ih h
      exact ⟨middle, .op hpops hbound htarget hbefore, hrest⟩
    | label hlabel h =>
      obtain ⟨middle, hbefore, hrest⟩ := ih h
      exact ⟨middle, .label hlabel hbefore, hrest⟩

/-- Level lines do not exceed the bound, unless they start above it. -/
theorem le_bound (h : Level bound depth lines after) (hdepth : depth ≤ bound) :
    after ≤ bound := by
  induction h with
  | nil => exact hdepth
  | @op _ o _ _ _ hbound _ _ ih =>
    apply ih
    unfold Op.settle
    split
    · exact hbound
    · exact Nat.zero_le bound
  | label _ _ ih => exact ih hdepth

/-- What is known of the line at a place, given the depth before it. -/
theorem at_line (h : Level bound 0 lines after) {line : Nat}
    (hbefore : Level bound 0 (lines.take line) depth) {l : Line Op} (hl : lines[line]? = some l) :
    ∃ rest, Level bound depth (l :: rest) after ∧
      lines.take (line + 1) = lines.take line ++ [l] := by
  obtain ⟨hlt, rfl⟩ := List.getElem?_eq_some_iff.mp hl
  have hsplit : lines = lines.take line ++ (lines[line] :: lines.drop (line + 1)) := by
    rw [← List.drop_eq_getElem_cons hlt, List.take_append_drop]
  rw [hsplit] at h
  obtain ⟨middle, hmiddle, hrest⟩ := h.split
  rw [hbefore.unique hmiddle]
  exact ⟨_, hrest, List.take_succ_eq_append_getElem hlt⟩

/-- **Every path through level lines finds the depth that the lines before lead to.** -/
theorem arrives (h : Level bound 0 lines after) {line : Nat} (hpath : Arrives lines line depth) :
    Level bound 0 (lines.take line) depth := by
  induction hpath with
  | start => exact .nil
  | @label line depth name _ hline ih =>
    obtain ⟨rest, hrest, htake⟩ := h.at_line ih hline
    rw [htake]
    cases hrest with
    | label hlabel _ => exact ih.append (.label hlabel .nil)
  | @next line depth o _ hline hgoes ih =>
    obtain ⟨rest, hrest, htake⟩ := h.at_line ih hline
    rw [htake]
    cases hrest with
    | op hpops hbound htarget _ =>
      have hsettle : o.settle depth = o.change depth := if_pos hgoes
      exact ih.append (.op hpops hbound htarget (hsettle ▸ .nil))
  | @jump line depth o name line' _ hline htarget hlabel ih =>
    -- The depth at the target is that of the label, and so is the depth at the jump.
    obtain ⟨rest, hrest, -⟩ := h.at_line ih hline
    obtain ⟨hlt, hget⟩ := List.getElem?_eq_some_iff.mp hlabel
    have hsplit := (List.take_append_drop line' lines).symm
    rw [hsplit] at h
    obtain ⟨middle, hmiddle, -⟩ := h.split
    rw [← hsplit] at h
    obtain ⟨rest', hrest', -⟩ := h.at_line hmiddle hlabel
    cases hrest with
    | op _ _ hjump _ =>
      cases hrest' with
      | label hdepth _ =>
        rw [← hjump name htarget, hdepth]
        exact hmiddle

end Level

/-! ## The machine takes these paths -/

section Runs

open Meaning

variable {s s' : MachineState} {lines : List (Line Op)}

/-- The machine may be in a state after a turn, with some answer if it asked. -/
def Leads : MachineTurn → MachineState → Prop
  | .silent s', s => s' = s
  | .ask _ resume, s => ∃ a, resume a = some s
  | _, _ => False

/-- A state that an instruction leads to: the depth is changed as it should be, and the line is the
next one or that of the label. -/
structure Executed (s : MachineState) (lines : List (Line Op)) (o : Op) (s' : MachineState) :
    Prop where
  stack : s'.stack.length = o.change s.stack.length
  line : o.goesOn = true ∧ s'.line = s.line + 1 ∨
    ∃ name, o.target? = some name ∧ lineOf? lines name = some s'.line

theorem leads_push {w : Word} (h : Leads (s.push w) s') :
    s'.stack.length = s.stack.length + 1 ∧ s'.line = s.line + 1 := by
  cases h
  exact ⟨rfl, rfl⟩

theorem leads_pushBetween {low high : Int} {value : Int32}
    (h : Leads (s.pushBetween low high value) s') :
    s'.stack.length = s.stack.length + 1 ∧ s'.line = s.line + 1 := by
  unfold MachineState.pushBetween at h
  split at h
  · exact leads_push h
  · cases h

theorem leads_goTo {name : String} {stack : List Word}
    (h : Leads (s.goTo lines name stack) s') :
    s'.stack = stack ∧ lineOf? lines name = some s'.line := by
  unfold MachineState.goTo at h
  split at h
  · cases h
    exact ⟨rfl, ‹_›⟩
  · cases h

theorem leads_goToIf {test : Bool} {name : String} {stack : List Word}
    (h : Leads (s.goToIf lines test name stack) s') :
    s'.stack = stack ∧ (s'.line = s.line + 1 ∨ lineOf? lines name = some s'.line) := by
  unfold MachineState.goToIf at h
  split at h
  · obtain ⟨hstack, hline⟩ := leads_goTo h
    exact ⟨hstack, .inr hline⟩
  · cases h
    exact ⟨rfl, .inl rfl⟩

theorem leads_combine {f : Int32 → Int32 → Int32} (h : Leads (s.combine f) s') :
    s'.stack.length = s.stack.length - 2 + 1 ∧ s'.line = s.line + 1 := by
  unfold MachineState.combine at h
  split at h
  · rename_i hstack
    cases h
    exact ⟨by rw [hstack]; rfl, rfl⟩
  · cases h

theorem leads_receive {q : Question} {type : Descriptor} {stack : List Word}
    (h : Leads (.ask q (s.receive type stack)) s') :
    s'.stack.length = stack.length + (if type = .void then 0 else 1) ∧ s'.line = s.line + 1 := by
  obtain ⟨answer, h⟩ := h
  unfold MachineState.receive at h
  cases answer with
  | none =>
    dsimp only at h
    split at h
    · rename_i hvoid
      cases Option.some.inj h
      exact ⟨by rw [if_pos hvoid]; rfl, rfl⟩
    · cases h
  | some w =>
    dsimp only at h
    split at h
    · rename_i hfits
      cases Option.some.inj h
      refine ⟨?_, rfl⟩
      -- No word fits where nothing is to be received.
      have htype : type ≠ .void := by
        rintro rfl
        unfold Word.fits familyOfDescriptor? at hfits
        split at hfits <;> simp_all
      rw [if_neg htype]
      rfl
    · cases h

/-- A call takes its arguments, and the object that it goes to unless it is static. -/
theorem leads_invoke {kind : InvokeKind} {owner method : String} {signature : Signature}
    (h : Leads (s.invoke kind owner method signature) s') :
    Executed s lines (.invoke kind owner method signature) s' := by
  unfold MachineState.invoke at h
  split at h
  · -- A constructor.
    unfold MachineState.construct at h
    split at h
    · rename_i hstack
      split at h
      · rename_i hinit
        obtain ⟨answer, h⟩ := h
        dsimp only at h
        split at h
        · cases Option.some.inj h
          refine ⟨?_, .inl ⟨rfl, rfl⟩⟩
          simp [Op.change, Op.pops, Op.pushes, hinit.2.1, hstack]
        · cases h
      · cases h
    · cases h
  · rename_i args stack hargs
    obtain ⟨hlength, hline⟩ := leads_receive h
    unfold MachineState.takeArgs at hargs
    dsimp only at hargs
    split at hargs
    · cases Option.some.inj hargs
      refine ⟨?_, .inl ⟨rfl, hline⟩⟩
      rw [hlength, List.length_drop]
      rfl
    · cases hargs
  · rename_i args r stack hargs
    obtain ⟨hlength, hline⟩ := leads_receive h
    unfold MachineState.takeArgs at hargs
    dsimp only at hargs
    split at hargs
    · rw [Option.some.injEq, Prod.mk.injEq] at hargs
      have hdrop := congrArg List.length hargs.2
      rw [List.length_drop, List.length_cons] at hdrop
      refine ⟨?_, .inl ⟨rfl, hline⟩⟩
      rw [hlength, Op.change, Op.pops, Op.pushes, if_neg (by decide : InvokeKind.virtual ≠ .static)]
      omega
    · cases hargs
  · cases h

/-- **An instruction changes the depth as it should**, unless it reads a field of no type. -/
theorem leads_execute {o : Op} (hfield : ∀ owner name, o ≠ .getfield owner name .void)
    (h : Leads (s.execute lines o) s') : Executed s lines o s' := by
  -- The instructions fall into groups by how they find the next line.
  have hnext (hgoes : o.goesOn = true)
      (hs : s'.stack.length = o.change s.stack.length ∧ s'.line = s.line + 1) :
      Executed s lines o s' :=
    ⟨hs.1, .inl ⟨hgoes, hs.2⟩⟩
  have hbranch {name : String} {stack : List Word} {test : Bool} (hgoes : o.goesOn = true)
      (htarget : o.target? = some name) (hstack : stack.length = o.change s.stack.length)
      (hs : Leads (s.goToIf lines test name stack) s') : Executed s lines o s' := by
    obtain ⟨rfl, hline | hline⟩ := leads_goToIf hs
    · exact ⟨hstack, .inl ⟨hgoes, hline⟩⟩
    · exact ⟨hstack, .inr ⟨name, htarget, hline⟩⟩
  cases o with
  | iconst | bipush | sipush => exact hnext rfl (leads_pushBetween h)
  | ldcInt | ldcString | new => exact hnext rfl (leads_push h)
  | iadd | isub | imul | iand | ior | ixor => exact hnext rfl (leads_combine h)
  | invoke kind owner method signature => exact leads_invoke h
  | load family slot =>
    unfold MachineState.execute at h
    dsimp only at h
    split at h
    · split at h
      · exact hnext rfl (leads_push h)
      · cases h
    · cases h
  | goto target =>
    obtain ⟨hstack, hline⟩ := leads_goTo h
    exact ⟨by rw [hstack]; rfl, .inr ⟨target, rfl, hline⟩⟩
  | ifIcmplt target | ifIcmpgt target =>
    unfold MachineState.execute MachineState.compare at h
    dsimp only at h
    split at h
    · rename_i hstack
      exact hbranch rfl rfl (by rw [hstack]; rfl) h
    · cases h
  | ifeq target | ifne target =>
    unfold MachineState.execute MachineState.compareZero at h
    dsimp only at h
    split at h
    · rename_i hstack
      exact hbranch rfl rfl (by rw [hstack]; rfl) h
    · cases h
  | idiv =>
    unfold MachineState.execute at h
    dsimp only at h
    split at h
    · split at h
      · cases h
      · exact hnext rfl (leads_combine h)
    · cases h
  | iaload | arraylength | newarray =>
    unfold MachineState.execute at h
    dsimp only at h
    split at h
    · rename_i hstack
      obtain ⟨hlength, hline⟩ := leads_receive h
      exact hnext rfl ⟨by rw [hlength, hstack]; rfl, hline⟩
    · cases h
  | getfield owner name type =>
    unfold MachineState.execute at h
    dsimp only at h
    split at h
    · rename_i hstack
      obtain ⟨hlength, hline⟩ := leads_receive h
      have htype : type ≠ .void := fun hvoid => hfield owner name (hvoid ▸ rfl)
      exact hnext rfl ⟨by rw [hlength, hstack, if_neg htype]; rfl, hline⟩
    · cases h
  | dup | pop =>
    unfold MachineState.execute at h
    dsimp only at h
    split at h
    · rename_i hstack
      cases h
      exact hnext rfl ⟨by rw [hstack]; rfl, rfl⟩
    · cases h
  | store family slot =>
    unfold MachineState.execute at h
    dsimp only at h
    split at h
    · rename_i hstack
      split at h
      · cases h
        exact hnext rfl ⟨by rw [hstack]; rfl, rfl⟩
      · cases h
    · cases h
  | iastore =>
    unfold MachineState.execute at h
    dsimp only at h
    split at h
    · rename_i hstack
      obtain ⟨_, h⟩ := h
      cases Option.some.inj h
      exact hnext rfl ⟨by rw [hstack]; rfl, rfl⟩
    · cases h
  | putfield owner name type =>
    unfold MachineState.execute at h
    dsimp only at h
    split at h
    · rename_i hstack
      split at h
      · obtain ⟨_, h⟩ := h
        cases Option.some.inj h
        exact hnext rfl ⟨by rw [hstack]; rfl, rfl⟩
      · cases h
    · cases h
  | ret => cases h
  | ireturn | areturn =>
    unfold MachineState.execute at h
    dsimp only at h
    split at h <;> cases h

/-- A label is found where it is set. -/
theorem label_of_lineOf? {name : String} {line : Nat} (h : lineOf? lines name = some line) :
    lines[line]? = some (.label name) := by
  obtain ⟨hlt, hlabel, -⟩ := List.findIdx?_eq_some_iff_getElem.mp h
  rw [List.getElem?_eq_getElem hlt]
  generalize lines[line] = l at hlabel
  cases l with
  | label other => simpa [labelOfLine?] using hlabel
  | op o => simp [labelOfLine?] at hlabel

/-- A turn of the machine goes along a path. -/
theorem Arrives.turn (hfield : ∀ owner name, Line.op (.getfield owner name .void) ∉ lines)
    (h : Arrives lines s.line s.stack.length) (hturn : Leads (s.turn lines) s') :
    Arrives lines s'.line s'.stack.length := by
  unfold MachineState.turn at hturn
  split at hturn
  · cases hturn
  · rename_i name hline
    cases hturn
    exact h.label hline
  · rename_i o hline
    have hmem := List.mem_of_getElem? hline
    obtain ⟨hstack, ⟨hgoes, hnext⟩ | ⟨name, htarget, hlabel⟩⟩ :=
      leads_execute (fun owner name heq => hfield owner name (heq ▸ hmem)) hturn
    · rw [hstack, hnext]
      exact h.next hline hgoes
    · rw [hstack]
      exact h.jump hline htarget (label_of_lineOf? hlabel)

/-- **Every run of the machine goes along a path**: what is said of the depth on all paths is true
of the stack at any moment. -/
theorem Arrives.runs (hfield : ∀ owner name, Line.op (.getfield owner name .void) ∉ lines)
    {events : List (Question × Option Word)} (hrun : Runs (MachineState.turn lines) s events s')
    (h : Arrives lines s.line s.stack.length) : Arrives lines s'.line s'.stack.length := by
  induction hrun with
  | refl => exact h
  | silent hturn _ ih => exact ih (h.turn hfield (hturn ▸ rfl))
  | ask hturn hanswer _ ih => exact ih (h.turn hfield (hturn ▸ ⟨_, hanswer⟩))

end Runs

end Machine
end ClassCompiler
