import ClassCompiler.Proofs.Machine.Layout
import ClassCompiler.Proofs.ThreeAddress.Linked
import Mathlib.Data.List.TakeWhile

/-!
# How members are referred to

A class is written with a line for each field and a header for each method, and with instructions
that refer to members by the path of a class, a name and a descriptor.  The assembler does not
compare the two; a reference that differs from the declaration by a letter is to another member.  In
the text of linked code, every reference to a member of the class is to its declaration.

* `memberOps`: the references in lines.
* `ownerPath_eq_className`: the members that are referred to by the path of the class.
* `RefersAsDeclared`: the lines of an instruction refer to the member that it uses.
* `select_refersAsDeclared`, `methodsRefer_of_linked`: the lines of linked code do.
* `Declares`, `classText_declares`: the lines of a class declare its members.
-/

namespace ClassCompiler

theorem ClassTable.lastSegment_of_not_mem {path : String} (h : '.' ∉ path.toList) :
    lastSegment path = path := by
  have hall : ∀ c ∈ path.toList.reverse, decide (c ≠ '.') = true := by
    intro c hc
    refine decide_eq_true fun heq => h ?_
    rw [← heq]
    exact List.mem_reverse.mp hc
  unfold lastSegment
  rw [List.takeWhile_eq_self_iff.mpr hall, List.reverse_reverse, String.ofList_toList]

namespace Machine

open ThreeAddress
open Meaning (except_bind_eq_ok CodeAt)

variable {T : ClassTable} {F : Frame} {k : Nat}

/-! ## The class that a member belongs to -/

/-- A path without slashes has no points. -/
theorem slashed_eq_self {path : String} (h : '/' ∉ (slashed path).toList) :
    '.' ∉ path.toList ∧ slashed path = path := by
  unfold slashed at h ⊢
  rw [String.toList_ofList] at h
  have hpoint : '.' ∉ path.toList := fun hmem => h (List.mem_map.mpr ⟨'.', hmem, rfl⟩)
  have hsame : path.toList.map (fun c => if c = '.' then '/' else c) = path.toList := by
    refine (List.map_congr_left fun c hc => if_neg fun heq => hpoint ?_).trans (List.map_id _)
    rw [← heq]
    exact hc
  rw [hsame, String.ofList_toList]
  exact ⟨hpoint, rfl⟩

theorem qualify_eq_className (hslash : '/' ∉ T.className.toList) {name : String}
    (h : qualify T name = .ok T.className) : name = T.className := by
  by_contra hname
  unfold qualify at h
  rw [if_neg hname] at h
  split at h
  · -- An import has its own name for a path, if it has no points.
    rename_i path hpath
    have hpath' := Except.ok.inj h
    rw [← hpath'] at hslash
    obtain ⟨hpoint, hsame⟩ := slashed_eq_self hslash
    have hlast := List.find?_some hpath
    rw [ClassTable.lastSegment_of_not_mem hpoint, beq_iff_eq] at hlast
    rw [hsame, hlast] at hpath'
    exact hname hpath'
  · split at h
    · rw [← Except.ok.inj h] at hslash
      exact hslash (by decide)
    · split at h
      · exact hname (Except.ok.inj h)
      · cases h

theorem ownerPath_of_type {o : Operand} (h : o.type = .object T.className) :
    ownerPath T o = .ok T.className := by
  unfold ownerPath
  rw [h]
  exact if_pos rfl

/-- **The members that are referred to by the path of a class are those of the class**, unless its
name is itself a path with slashes. -/
theorem ownerPath_eq_className (hslash : '/' ∉ T.className.toList) {o : Operand} :
    ownerPath T o = .ok T.className ↔ o.type = .object T.className := by
  constructor
  · intro h
    unfold ownerPath at h
    split at h
    · rename_i name hname
      rw [hname, qualify_eq_className hslash h]
    · cases h
  · exact ownerPath_of_type

/-! ## References -/

/-- A machine instruction that refers to a member of a class. -/
def Op.usesMember : Op → Bool
  | .getfield .. | .putfield .. | .invoke .. => true
  | _ => false

/-- The instruction in a line. -/
def opOf? : Line Op → Option Op
  | .op o => some o
  | .label _ => none

/-- The instructions among lines that refer to members. -/
def memberOps (lines : List (Line Op)) : List Op :=
  (lines.filterMap opOf?).filter Op.usesMember

@[simp] theorem memberOps_append (lines lines' : List (Line Op)) :
    memberOps (lines ++ lines') = memberOps lines ++ memberOps lines' := by
  rw [memberOps, List.filterMap_append, List.filter_append]
  rfl

@[simp] theorem memberOps_opLines (ops : List Op) :
    memberOps (opLines ops) = ops.filter Op.usesMember := by
  rw [memberOps, opLines, List.filterMap_map]
  exact congrArg _ List.filterMap_some

theorem memberOps_cons {o : Op} (h : o.usesMember = false) (ops : List Op) :
    memberOps (opLines (o :: ops)) = memberOps (opLines ops) := by
  rw [memberOps_opLines, memberOps_opLines, List.filter_cons_of_neg (by simp [h])]

theorem usesMember_pushInt (value : Int32) : (pushInt value).usesMember = false := by
  unfold pushInt
  dsimp only
  split
  · rfl
  · split
    · rfl
    · split <;> rfl

theorem usesMember_push {o : Operand} {op : Op} (h : push F o = .ok op) :
    op.usesMember = false := by
  cases o with
  | int value =>
    cases Except.ok.inj h
    exact usesMember_pushInt value
  | bool value =>
    cases Except.ok.inj h
    exact usesMember_pushInt _
  | string value =>
    cases Except.ok.inj h
    rfl
  | var v =>
    obtain ⟨index, -, rfl⟩ := push_var_eq_ok h
    rfl
  | this name =>
    obtain ⟨-, rfl⟩ := push_this_eq_ok h
    rfl
  | classRef name => cases h

theorem pushAll_usesMember {os : List Operand} {ops : List Op} (h : pushAll F os = .ok ops) :
    ops.filter Op.usesMember = [] := by
  induction os generalizing ops with
  | nil =>
    cases Except.ok.inj h
    rfl
  | cons o os ih =>
    obtain ⟨op, rest, hop, hrest, rfl⟩ := pushAll_cons_eq_ok h
    rw [List.filter_cons_of_neg (by simp [usesMember_push hop]), ih hrest]

theorem binaryLines_memberOps (op : BinaryOp) : memberOps (binaryLines k op) = [] := by
  have hpush (value : Bool) : ¬ (pushBool value).usesMember = true := by
    rw [pushBool, usesMember_pushInt]
    simp
  have hcomparison {jump : String → Op} (hjump : ∀ label, (jump label).usesMember = false) :
      memberOps (comparisonLines k jump) = [] := by
    refine List.filter_eq_nil_iff.mpr fun o ho => ?_
    simp only [comparisonLines, List.filterMap_cons, opOf?, List.filterMap_nil, List.mem_cons,
      List.not_mem_nil, or_false] at ho
    rcases ho with rfl | rfl | rfl | rfl
    · simp [hjump]
    · exact hpush false
    · simp [Op.usesMember]
    · exact hpush true
  cases op with
  | lt | gt => exact hcomparison fun _ => rfl
  | _ => rfl

/-- A call refers to the class of its target by the types of its parameters and of its result. -/
theorem selectCall_memberOps {c : Call} {ops : List Op} (h : selectCall T F c = .ok ops) :
    ∃ kind owner s, ownerPath T c.target = .ok owner ∧ signatureOf T c.params c.result = .ok s ∧
      ops.filter Op.usesMember = [.invoke kind owner c.method s] := by
  obtain ⟨target, kind, owner, args, s, htarget, -, hargs, hs, rfl⟩ := selectCall_eq_ok h
  have hpushed : target.filter Op.usesMember = [] ∧ ownerPath T c.target = .ok owner := by
    cases htarget with
    | static _ htarget howner =>
      rw [htarget]
      exact ⟨rfl, howner⟩
    | virtual _ hop howner => exact ⟨by simp [usesMember_push hop], howner⟩
  refine ⟨kind, owner, s, hpushed.2, hs, ?_⟩
  rw [List.filter_append, List.filter_append, hpushed.1, pushAll_usesMember hargs]
  rfl

/-- The references in the lines of an instruction, by the member that the instruction uses. -/
inductive Refers (T : ClassTable) : Option Member → List Op → Prop
  | call {c kind owner s} (howner : ownerPath T c.target = .ok owner)
    (hs : signatureOf T c.params c.result = .ok s) :
    Refers T (some (.call c)) [.invoke kind owner c.method s]
  | read {o x owner type} (howner : ownerPath T o = .ok owner)
    (htype : descriptorOf T x.type = .ok type) :
    Refers T (some (.field o x)) [.getfield owner x.name type]
  | write {o x owner type} (howner : ownerPath T o = .ok owner)
    (htype : descriptorOf T x.type = .ok type) :
    Refers T (some (.field o x)) [.putfield owner x.name type]
  | constructor {path} : Refers T none [.invoke .special path "<init>" ⟨[], .void⟩]
  | nothing : Refers T none []

theorem selectRhs_refers {rhs : Rhs} {lines : List (Line Op)}
    (h : selectRhs T F k rhs = .ok lines) : Refers T rhs.member? (memberOps lines) := by
  cases selectRhs_cases h with
  | operand hop | arrayLength hop | newArray hop =>
    rw [memberOps_cons (usesMember_push hop)]
    exact .nothing
  | not hop =>
    rw [memberOps_cons (usesMember_push hop), memberOps_cons (usesMember_pushInt 1)]
    exact .nothing
  | binary hl hr =>
    rw [memberOps_append, binaryLines_memberOps, memberOps_cons (usesMember_push hl),
      memberOps_cons (usesMember_push hr)]
    exact .nothing
  | arrayLoad _ hop =>
    rw [memberOps_cons rfl, memberOps_cons (usesMember_push hop)]
    exact .nothing
  | call hcall =>
    obtain ⟨kind, owner, s, howner, hs, hops⟩ := selectCall_memberOps hcall
    rw [memberOps_opLines, hops]
    exact .call howner hs
  | getField hop howner htype =>
    rw [memberOps_cons (usesMember_push hop)]
    exact .read howner htype
  | newObject => exact .constructor

/-- **The references in the lines of an instruction.** -/
theorem select_refers {i : Instr} {own : List (Line Op)} (h : select T F k i = .ok own) :
    Refers T i.member? (memberOps own) := by
  cases select_cases h with
  | assign hrhs hslot =>
    rw [memberOps_append, memberOps_cons rfl]
    exact (List.append_nil (memberOps _)).symm ▸ selectRhs_refers hrhs
  | call hcall =>
    obtain ⟨kind, owner, s, howner, hs, hops⟩ := selectCall_memberOps hcall
    rw [memberOps_opLines]
    split
    · rw [hops]
      exact .call howner hs
    · rw [List.filter_append, hops]
      exact .call howner hs
  | arrayStore _ hi hv =>
    rw [memberOps_cons rfl, memberOps_cons (usesMember_push hi),
      memberOps_cons (usesMember_push hv)]
    exact .nothing
  | putField ho hv howner htype =>
    rw [memberOps_cons (usesMember_push ho), memberOps_cons (usesMember_push hv)]
    exact .write howner htype
  | @returnSome value _ hop =>
    have hreturn : (returnOf value.type).usesMember = false := by
      unfold returnOf
      split
      · rfl
      · split <;> rfl
    rw [memberOps_cons (usesMember_push hop), memberOps_cons hreturn]
    exact .nothing
  | @branch _ negated target _ hop =>
    have hjump : (if negated then Op.ifeq target else .ifne target).usesMember = false := by
      split <;> rfl
    rw [memberOps_cons (usesMember_push hop), memberOps_cons hjump]
    exact .nothing
  | returnNone | jump | label | noop => exact .nothing

/-! ## Linked code -/

/-- The lines of an instruction refer to the member that it uses as the class declares it, and to no
other, if it is one of the class.  An instruction that uses none refers at most to a constructor. -/
structure RefersAsDeclared (T : ClassTable) (code : ClassCode) (i : Instr) (own : List (Line Op)) :
    Prop where
  call : ∀ c, i.member? = some (.call c) → c.target.type = .object code.name →
    ∀ callee ∈ code.methods, callee.name = c.method → ∃ kind s,
      signatureOf T (callee.params.map Var.type) callee.result = .ok s ∧
        memberOps own = [.invoke kind code.name c.method s]
  field : ∀ o x, i.member? = some (.field o x) → x ∈ code.fields ∧
    (∀ y ∈ code.fields, y.name = x.name → y = x) ∧ ∃ type, descriptorOf T x.type = .ok type ∧
      (memberOps own = [.getfield code.name x.name type] ∨
        memberOps own = [.putfield code.name x.name type])
  other : i.member? = none →
    ∀ o ∈ memberOps own, ∃ path, o = .invoke .special path "<init>" ⟨[], .void⟩

/-- **The lines of linked code refer to members as they are declared.** -/
theorem select_refersAsDeclared {code : ClassCode} (hname : code.name = T.className) {i : Instr}
    (hlinks : ∀ m, i.member? = some m → m.LinksTo code) {own : List (Line Op)}
    (h : select T F k i = .ok own) : RefersAsDeclared T code i own := by
  have hrefers := select_refers h
  have howns {o : Operand} {owner : String} (htype : o.type = .object code.name)
      (howner : ownerPath T o = .ok owner) : owner = code.name := by
    rw [hname] at htype ⊢
    exact Except.ok.inj (howner.symm.trans (ownerPath_of_type htype))
  refine ⟨fun c hc hown callee hcallee hmethod => ?_, fun o x hfield => ?_, fun hnone => ?_⟩
  · obtain ⟨hparams, hresult⟩ := hlinks _ hc hown callee hcallee hmethod
    rw [hc] at hrefers
    generalize memberOps own = ops at hrefers ⊢
    cases hrefers with
    | call howner hs =>
      rw [hparams, hresult] at hs
      rw [howns hown howner]
      exact ⟨_, _, hs, rfl⟩
  · obtain ⟨hown, hmem, hunique⟩ := hlinks _ hfield
    refine ⟨hmem, hunique, ?_⟩
    rw [hfield] at hrefers
    generalize memberOps own = ops at hrefers ⊢
    cases hrefers with
    | read howner htype =>
      rw [howns hown howner]
      exact ⟨_, htype, .inl rfl⟩
    | write howner htype =>
      rw [howns hown howner]
      exact ⟨_, htype, .inr rfl⟩
  · rw [hnone] at hrefers
    generalize memberOps own = ops at hrefers ⊢
    cases hrefers with
    | constructor =>
      intro o ho
      exact ⟨_, List.mem_singleton.mp ho⟩
    | nothing => exact fun o ho => absurd ho List.not_mem_nil

/-- In the lines of every method, the lines of each instruction refer to members as they are
declared. -/
def MethodsRefer (T : ClassTable) (budget : Nat) (code : ClassCode) : Prop :=
  ∀ m ∈ code.methods, ∀ F listing, Frame.build budget m = .ok F → F.listing T = .ok listing →
    ∀ place i, m.code[place]? = some i → ∃ line own, StartsAt T F place line ∧
      CodeAt listing.lines line own ∧ StartsAt T F (place + 1) (line + own.length) ∧
        RefersAsDeclared T code i own

theorem methodsRefer_of_linked {code : ClassCode} (hname : code.name = T.className)
    (hlinked : code.Linked) (budget : Nat) : MethodsRefer T budget code := by
  intro m hm F listing hF hlisting place i hi
  obtain ⟨rfl, -, -⟩ := Frame.build_eq_ok hF
  obtain ⟨lines, hselect, hlisting⟩ := except_bind_eq_ok.mp hlisting
  cases Except.ok.inj hlisting
  obtain ⟨-, before, -, -, hbefore, -⟩ := selectAll_at hselect hi
  have hstart : StartsAt T F place before.length := ⟨before, hbefore, rfl⟩
  obtain ⟨number, own, hown, hat, hnext⟩ := hstart.own hselect hi
  have hlinks := hlinked F.method hm i (List.mem_of_getElem? hi)
  exact ⟨before.length, own, hstart, hat, hnext, select_refersAsDeclared hname hlinks hown⟩

/-! ## Declarations -/

/-- The line of a field. -/
def fieldLine (x : Var) (type : Descriptor) : String :=
  s!".field private {x.name} {type.text}"

/-- The header of a method. -/
def headerLine (m : Method) (s : Signature) : String :=
  let modifiers := if m.isStatic then "public static" else "public"
  s!".method {modifiers} {m.name}{s.text}"

/-- The lines declare the members of a class: its fields by their descriptors, and its methods, with
their lines, by their signatures. -/
structure Declares (T : ClassTable) (budget : Nat) (code : ClassCode) (lines : List String) :
    Prop where
  fields : ∀ x ∈ code.fields, ∃ type, descriptorOf T x.type = .ok type ∧ fieldLine x type ∈ lines
  methods : ∀ m ∈ code.methods, ∃ F s listing, Frame.build budget m = .ok F ∧
    signatureOf T (m.params.map Var.type) m.result = .ok s ∧ F.listing T = .ok listing ∧
      headerLine m s :: s!"    .limit stack {stackLimit}" :: s!"    .limit locals {F.limit}" ::
        listing.lines.map (Line.text Op.text) ++ [".end method"] <:+: lines

theorem fieldLines_declares {xs : List Var} {lines : List String}
    (h : fieldLines T xs = .ok lines) :
    ∀ x ∈ xs, ∃ type, descriptorOf T x.type = .ok type ∧ fieldLine x type ∈ lines := by
  induction xs generalizing lines with
  | nil => exact fun x hx => absurd hx List.not_mem_nil
  | cons y ys ih =>
    obtain ⟨type, htype, h⟩ := except_bind_eq_ok.mp h
    obtain ⟨rest, hrest, h⟩ := except_bind_eq_ok.mp h
    rw [← Except.ok.inj h]
    intro x hx
    rcases List.mem_cons.mp hx with rfl | hx
    · exact ⟨type, htype, List.mem_cons_self⟩
    · obtain ⟨type', htype', hmem⟩ := ih hrest x hx
      exact ⟨type', htype', List.mem_cons_of_mem _ hmem⟩

theorem methodsLines_infix {budget : Nat} {ms : List Method} {lines : List String}
    (h : methodsLines T budget ms = .ok lines) :
    ∀ m ∈ ms, ∃ own, methodLines T budget m = .ok own ∧ own <:+: lines := by
  induction ms generalizing lines with
  | nil => exact fun m hm => absurd hm List.not_mem_nil
  | cons m ms ih =>
    obtain ⟨first, hfirst, h⟩ := except_bind_eq_ok.mp h
    obtain ⟨rest, hrest, h⟩ := except_bind_eq_ok.mp h
    rw [← Except.ok.inj h]
    intro u hu
    rcases List.mem_cons.mp hu with rfl | hu
    · exact ⟨first, hfirst, [""], rest, rfl⟩
    · obtain ⟨own, hown, hinfix⟩ := ih hrest u hu
      exact ⟨own, hown, hinfix.trans (List.suffix_append _ _).isInfix⟩

/-- **The text of a class declares its members.** -/
theorem classText_declares {budget : Nat} {code : ClassCode} {text : String}
    (h : classText T budget code = .ok text) :
    ∃ lines, text = Text.unlines lines ∧ Declares T budget code lines := by
  obtain ⟨superclass, -, h⟩ := except_bind_eq_ok.mp h
  obtain ⟨fields, hfields, h⟩ := except_bind_eq_ok.mp h
  obtain ⟨methods, hmethods, h⟩ := except_bind_eq_ok.mp h
  refine ⟨_, (Except.ok.inj h).symm, ?_, ?_⟩
  · intro x hx
    obtain ⟨type, htype, hmem⟩ := fieldLines_declares hfields x hx
    have hne : ¬ fields.isEmpty = true := by
      rw [List.isEmpty_iff]
      exact List.ne_nil_of_mem hmem
    refine ⟨type, htype, ?_⟩
    rw [if_neg hne]
    simp [hmem]
  · intro m hm
    obtain ⟨own, hown, hinfix⟩ := methodsLines_infix hmethods m hm
    obtain ⟨F, hF, hown⟩ := except_bind_eq_ok.mp hown
    obtain ⟨s, hs, hown⟩ := except_bind_eq_ok.mp hown
    obtain ⟨listing, hlisting, hown⟩ := except_bind_eq_ok.mp hown
    rw [← Except.ok.inj hown] at hinfix
    exact ⟨F, s, listing, hF, hs, hlisting, hinfix.trans (List.suffix_append _ _).isInfix⟩

end Machine
end ClassCompiler
