import ClassCompiler.Proofs.Compilation.Linking
import ClassCompiler.Proofs.Machine.Match
import ClassCompiler.Proofs.ThreeAddress.CallKind

/-!
# Calls of static methods

A static method has no receiver, and the machine finds it by another instruction than the other
methods.  The instruction of a call is chosen by its target.  It is the right one as long as a static
method is called on the name of its class; nothing refuses a program that calls one on an object, and
its code asks an object for a method that has none.

* `Machine.select_invokes`, `Machine.MethodsInvoke`: the machine instruction of a call.
* `accepted_call_kinds`: when the calls of an accepted program fit the methods that they call.
-/

namespace ClassCompiler

open Constant Machine Typing ThreeAddress
open List (Forall₂)
open Meaning (except_bind_eq_ok CodeAt kindOf)

namespace Machine

variable {T : ClassTable} {F : Frame} {k : Nat}

theorem selectCall_invokes {c : Call} {ops : List Op} (h : selectCall T F c = .ok ops) :
    ∃ owner s, ops.getLast? = some (.invoke (kindOf c.kind) owner c.method s) := by
  obtain ⟨target, kind, owner, args, s, htarget, -, -, -, rfl⟩ := selectCall_eq_ok h
  refine ⟨owner, s, ?_⟩
  rw [List.getLast?_concat]
  cases htarget with
  | static hkind => rw [hkind, kindOf]
  | virtual hkind => rw [hkind, kindOf]

/-- The only reference in the lines of a call is by the instruction for its kind. -/
theorem select_invokes {i : Instr} {c : Call} (hc : i.member? = some (.call c))
    {own : List (Line Op)} (h : select T F k i = .ok own) :
    ∃ owner s, memberOps own = [.invoke (kindOf c.kind) owner c.method s] := by
  have hlast {ops : List Op} (h : selectCall T F c = .ok ops) :
      ∃ owner s, ops.filter Op.usesMember = [.invoke (kindOf c.kind) owner c.method s] := by
    obtain ⟨owner, s, hlast⟩ := selectCall_invokes h
    obtain ⟨kind, owner', s', -, -, hops⟩ := selectCall_memberOps h
    have hmem : Op.invoke (kindOf c.kind) owner c.method s ∈ ops.filter Op.usesMember :=
      List.mem_filter.mpr ⟨List.mem_of_getLast? hlast, rfl⟩
    refine ⟨owner, s, ?_⟩
    rw [hops] at hmem ⊢
    rw [List.mem_singleton.mp hmem]
  cases select_cases h with
  | assign hrhs hslot =>
    cases selectRhs_cases hrhs with
    | call hcall =>
      cases Option.some.inj hc
      obtain ⟨owner, s, hops⟩ := hlast hcall
      refine ⟨owner, s, ?_⟩
      rw [memberOps_append, memberOps_cons rfl, memberOps_opLines, hops]
      rfl
    | _ => cases hc
  | call hcall =>
    cases Option.some.inj hc
    obtain ⟨owner, s, hops⟩ := hlast hcall
    refine ⟨owner, s, ?_⟩
    rw [memberOps_opLines]
    split
    · exact hops
    · rw [List.filter_append, hops]
      rfl
  | _ => cases hc

/-- In the lines of every method, a call is made by the instruction for its kind. -/
def MethodsInvoke (T : ClassTable) (budget : Nat) (code : ClassCode) : Prop :=
  ∀ m ∈ code.methods, ∀ F listing, Frame.build budget m = .ok F → F.listing T = .ok listing →
    ∀ place i c, m.code[place]? = some i → i.member? = some (.call c) → ∃ line own owner s,
      StartsAt T F place line ∧ CodeAt listing.lines line own ∧
        memberOps own = [.invoke (kindOf c.kind) owner c.method s]

theorem methodsInvoke (T : ClassTable) (budget : Nat) (code : ClassCode) :
    MethodsInvoke T budget code := by
  intro m hm F listing hF hlisting place i c hi hc
  obtain ⟨rfl, -, -⟩ := Frame.build_eq_ok hF
  obtain ⟨lines, hselect, hlisting⟩ := except_bind_eq_ok.mp hlisting
  cases Except.ok.inj hlisting
  obtain ⟨-, before, -, -, hbefore, -⟩ := selectAll_at hselect hi
  have hstart : StartsAt T F place before.length := ⟨before, hbefore, rfl⟩
  obtain ⟨number, own, hown, hat, -⟩ := hstart.own hselect hi
  obtain ⟨owner, s, hops⟩ := select_invokes hc hown
  exact ⟨before.length, own, owner, s, hstart, hat, hops⟩

end Machine

/-- A class that starts over by its entry method: once on the object at hand, once by the name of
the class. -/
def jobClass : Program :=
  .ofSource <| .classOf "Job" none [
    .entry [],
    .method .void "restart" [.argument ⟨"String", true⟩ "args"] [
      .expression (.invoke .this "main" [.identifier "args"])],
    .method .void "repeat" [.argument ⟨"String", true⟩ "args"] [
      .expression (.invoke (.identifier "Job") "main" [.identifier "args"]),
      .expression (.invoke .this "restart" [.identifier "args"])]]

theorem jobClass_calls_static_on_object :
    ∃ a l assembly, jobClass.analyze {} = .ok a ∧ a.accepted = true ∧ a.lower = .ok l ∧
      l.assemble a.table = .ok assembly ∧
      ∃ m ∈ l.code.methods, ∃ c, .call c ∈ m.code ∧ c.target = .this l.code.name ∧
        c.kind = .virtual ∧
        ∃ callee ∈ l.code.methods, callee.name = c.method ∧ callee.isStatic = true := by
  refine ⟨_, _, _, rfl, rfl, rfl, rfl, ?_⟩
  refine ⟨_, .tail _ (.head _), _, .head _, rfl, rfl, ?_⟩
  exact ⟨_, .head _, rfl, rfl⟩

/-- **When calls fit the methods that they call.**  Take the code of an accepted program, optimized
or not, and the calls in a method of methods of the class, on the class or on an object of it.  A
static call is always of a static method.  All these calls are static exactly where the method that
is called is, if and only if no static method is called on an object.  In the text for the
assembler, the headers say which methods are static, and a call is made by the instruction for its
kind. -/
theorem accepted_call_kinds {p : Program} {settings : Settings} {a a' : Analysis} {count : Nat}
    {l : Lowered} (h : p.analyze settings = .ok a) (haccepted : a.accepted = true)
    (hoptimize : a.optimize = .ok (a', count)) (hl : a'.lower = .ok l) :
    ∃ c, a'.program.tree.classTree = .ok c ∧
      Forall₂ (KindsAsNamed a'.table l.code) c.methods l.code.methods ∧
      MethodsInvoke a'.table l.settings.budget l.code ∧
      ∀ assembly, l.assemble a'.table = .ok assembly → ∃ lines,
        assembly.text = Text.unlines lines ∧
        Declares a'.table l.settings.budget l.code lines := by
  obtain ⟨rfl, htable, hcheck⟩ := Program.analyze_gives h haccepted
  obtain ⟨hsame, c, c', hc, hc', hedit⟩ := Analysis.optimize_edited htable hcheck hoptimize
  obtain ⟨hcode, -⟩ := Analysis.lower_eq_ok.mp hl
  rw [hsame] at hcode ⊢
  refine ⟨c', hc', lowerClass_kinds htable hcheck hc hedit hc' hcode, methodsInvoke _ _ _, ?_⟩
  intro assembly hassembly
  obtain ⟨text, htext, hassembly⟩ := except_bind_eq_ok.mp hassembly
  cases Except.ok.inj hassembly
  exact classText_declares htext

theorem jobClass_call_kinds :
    ∃ a l c, jobClass.analyze {} = .ok a ∧ a.accepted = true ∧ a.optimize = .ok (a, 0) ∧
      a.lower = .ok l ∧ jobClass.tree.classTree = .ok c ∧
      c.methods.map (callsByName a.table) = [true, false, true] ∧
      Forall₂ (KindsAsNamed a.table l.code) c.methods l.code.methods := by
  obtain ⟨c, hc, hkinds, -⟩ :=
    accepted_call_kinds (show jobClass.analyze {} = .ok _ from rfl) rfl rfl rfl
  refine ⟨_, _, c, rfl, rfl, rfl, rfl, hc, ?_, hkinds⟩
  cases Except.ok.inj hc
  rfl

end ClassCompiler
