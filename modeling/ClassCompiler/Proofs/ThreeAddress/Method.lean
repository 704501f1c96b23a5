import ClassCompiler.Proofs.Class.Declared
import ClassCompiler.Proofs.ThreeAddress.Statement

/-!
# Lowered methods behave like their trees

The statements of a method are followed by what it means to come to their end.  A method without a
result returns then, and its code has a return for that; any other has failed to return.  The code
has no second return if it ends in one already, and then its end is never come to, since a jump
leads to a label and an instruction before the last leads to the next.

* `run_inside`: code that ends in a return is not run past its end.
* `lowerMethod_follows`: the code of a method follows its tree for every limit.
* `lowerMethods_implement`: the code of every method implements its meaning.
-/

namespace ClassCompiler

/-! ## What lowering gives -/

namespace ThreeAddress

open Meaning (except_bind_eq_ok)

theorem varsOf_names {symbols : List Symbol} {vars : List Var} (h : varsOf symbols = .ok vars) :
    vars.map Var.name = symbols.map Symbol.name := by
  induction symbols generalizing vars with
  | nil => rw [← Except.ok.inj h, List.map_nil, List.map_nil]
  | cons s ss ih =>
    obtain ⟨type, -, h⟩ := except_bind_eq_ok.mp h
    obtain ⟨rest, hrest, h⟩ := except_bind_eq_ok.mp h
    rw [← Except.ok.inj h, List.map_cons, List.map_cons, ih hrest]

/-- What a method that is lowered gives. -/
theorem lowerMethod_eq_ok {T : ClassTable} {info : MethodInfo} {ts : List Ast} {m : Method}
    (h : lowerMethod T info ts = .ok m) :
    ∃ code f, (lowerStatements ⟨T, info⟩ ts).run { reserved := reservedNames T info } =
        .ok (code, f) ∧
      ValueType.ofType info.returnType = .ok m.result ∧ varsOf info.parameters = .ok m.params ∧
      varsOf info.locals = .ok m.locals ∧ m.name = info.name ∧ m.isStatic = info.isStatic ∧
      m.code = closeBody m.result code := by
  obtain ⟨⟨code, f⟩, hcode, h⟩ := except_bind_eq_ok.mp h
  obtain ⟨result, hresult, h⟩ := except_bind_eq_ok.mp h
  obtain ⟨params, hparams, h⟩ := except_bind_eq_ok.mp h
  obtain ⟨locals, hlocals, h⟩ := except_bind_eq_ok.mp h
  rw [← Except.ok.inj h]
  exact ⟨code, f, hcode, hresult, hparams, hlocals, rfl, rfl, rfl⟩

/-- Where a method of a class that is lowered comes from. -/
theorem mem_lowerMethods {T : ClassTable} {members : List Ast} {ms : List Method}
    (h : lowerMethods T members = .ok ms) {m : Method} (hm : m ∈ ms) :
    ∃ member ∈ members, ∃ name info, member.kind.methodName? = some name ∧
      T.method? name = some info ∧ lowerMethod T info member.children = .ok m := by
  induction members generalizing ms with
  | nil =>
    rw [← Except.ok.inj h] at hm
    exact absurd hm List.not_mem_nil
  | cons member members ih =>
    have hlater {ms : List Method} (h : lowerMethods T members = .ok ms) (hm : m ∈ ms) :
        ∃ member' ∈ member :: members, ∃ name info, member'.kind.methodName? = some name ∧
          T.method? name = some info ∧ lowerMethod T info member'.children = .ok m := by
      obtain ⟨member', hmember', hrest⟩ := ih h hm
      exact ⟨member', List.mem_cons_of_mem member hmember', hrest⟩
    rw [lowerMethods] at h
    split at h
    · exact hlater h hm
    · rename_i name hname
      split at h
      · cases h
      · rename_i info hinfo
        obtain ⟨first, hfirst, h⟩ := except_bind_eq_ok.mp h
        obtain ⟨rest, hrest, h⟩ := except_bind_eq_ok.mp h
        rw [← Except.ok.inj h] at hm
        rcases List.mem_cons.mp hm with rfl | hm
        · exact ⟨member, List.mem_cons_self, name, info, hname, hinfo, hfirst⟩
        · exact hlater hrest hm

/-- A method without a result is one that returns nothing. -/
theorem ValueType.ofType_eq_void {t : Ty} {type : ValueType} (h : ValueType.ofType t = .ok type) :
    type = .void ↔ t.isVoid = true := by
  unfold ValueType.ofType at h
  unfold Ty.isVoid
  grind

/-- The variables that a method declares. -/
def Method.frameNames (m : Method) : List String :=
  (m.params ++ m.locals).map Var.name

end ThreeAddress

namespace Meaning

open ThreeAddress Status

variable {σ : Type} {S : Setting σ}

/-! ## The end of the code -/

/-- An execution that has not got past the end of the code. -/
def Status.Inside (S : Setting σ) : Status σ → Prop
  | running place _ => place < S.code.length
  | ended _ _ => True

theorem moveOf_ret {D : Discipline} {receiver : Reference} {vars : Vars} {operand : Option Operand}
    {move : Move} (h : moveOf D receiver vars (.ret operand) = .ok move) :
    ∃ result, move = .stop result := by
  cases operand with
  | none => exact ⟨none, (Except.ok.inj h).symm⟩
  | some o =>
    obtain ⟨value, -, h⟩ := except_bind_eq_ok.mp h
    exact ⟨some value, (Except.ok.inj h).symm⟩

theorem labelIndex?_lt {code : List Instr} {name : String} {place : Nat}
    (h : labelIndex? code name = some place) : place < code.length := by
  obtain ⟨hlt, -⟩ := List.findIdx?_eq_some_iff_getElem.mp h
  exact hlt

/-- A step of code that ends in a return. -/
theorem step_inside {operand : Option Operand} (hlast : S.code.getLast? = some (.ret operand))
    {status : Status σ} (h : status.Inside S) : (step S status).Inside S := by
  cases status with
  | ended c s => exact h
  | running place s =>
    obtain ⟨i, hi⟩ : ∃ i, S.code[place]? = some i := ⟨_, List.getElem?_eq_getElem h⟩
    -- Only the last instruction has nothing after it, and that one goes nowhere.
    have hnext {move : Move} (hmove : moveOf .free S.receiver s.vars i = .ok move)
        (hstop : ∀ result, move ≠ .stop result) : place + 1 < S.code.length := by
      refine Nat.lt_of_le_of_ne h fun hplace => ?_
      rw [List.getLast?_eq_getElem?, ← hplace, Nat.succ_sub_one, hi] at hlast
      rw [Option.some.inj hlast] at hmove
      obtain ⟨result, rfl⟩ := moveOf_ret hmove
      exact hstop result rfl
    rw [step, hi]
    dsimp only
    cases hmove : moveOf .free S.receiver s.vars i with
    | error f => exact trivial
    | ok move =>
      cases move with
      | stop result => exact trivial
      | next vars => exact hnext hmove (by simp)
      | jump name =>
        rw [afterMove]
        split
        · exact labelIndex?_lt ‹_›
        · exact trivial
      | ask r resume =>
        have hlt := hnext hmove (by simp)
        rw [afterMove]
        split
        · exact trivial
        · split
          · exact trivial
          · exact hlt

/-- **Code that ends in a return is not run past its end.** -/
theorem run_inside {operand : Option Operand} (hlast : S.code.getLast? = some (.ret operand))
    {status : Status σ} (h : status.Inside S) (n : Nat) : (run S n status).Inside S := by
  induction n generalizing status with
  | zero => exact h
  | succ n ih => exact ih (step_inside hlast h)

/-! ## Methods -/

theorem closeBody_cases (result : ValueType) (code : List Instr) :
    (result ≠ .void ∧ closeBody result code = code) ∨
      (result = .void ∧ closeBody result code = code ++ [.ret none]) ∨
      (result = .void ∧ closeBody result code = code ∧
        ∃ operand, code.getLast? = some (.ret operand)) := by
  unfold closeBody
  split
  · exact .inr (.inr ⟨rfl, rfl, _, ‹_›⟩)
  · exact .inr (.inl ⟨rfl, rfl⟩)
  · rename_i hvoid _
    exact .inl ⟨hvoid, rfl⟩

theorem labelsOf_closeBody (result : ValueType) (code : List Instr) :
    labelsOf (closeBody result code) = labelsOf code := by
  rcases closeBody_cases result code with ⟨-, h⟩ | ⟨-, h⟩ | ⟨-, h, -⟩
  · rw [h]
  · rw [h]
    simp [Instr.label?]
  · rw [h]

/-- What becomes of an execution that comes to the end of the statements of a method. -/
theorem Reaches.atEnd {result : ValueType} {code : List Instr}
    (hcode : S.code = closeBody result code)
    {isVoid : Bool} (hvoid : result = .void ↔ isVoid = true) {s s' : State σ}
    (h : Reaches S 0 (.running 0 s) (.running code.length s')) :
    Reaches S 0 (.running 0 s) (.ended (Completion.normal.atEnd isVoid) s') := by
  rcases closeBody_cases result code with ⟨hresult, hclose⟩ | ⟨hresult, hclose⟩ |
    ⟨hresult, hclose, operand, hlast⟩
  · -- Nothing comes after the statements.
    have hisVoid : isVoid = false := by
      rw [← Bool.not_eq_true, ← hvoid]
      exact hresult
    have hend : S.code[code.length]? = none := by
      rw [hcode, hclose]
      exact List.getElem?_eq_none (Nat.le_refl _)
    refine h.trans ⟨1, Nat.zero_le 1, ?_⟩
    rw [run, run, Status.step, hend, hisVoid]
    rfl
  · -- A return comes after the statements.
    have hend : S.code[code.length]? = some (.ret none) := by
      rw [hcode, hclose, List.getElem?_append_right (Nat.le_refl _), Nat.sub_self,
        List.getElem?_cons_zero]
    rw [hvoid.mp hresult]
    exact h.trans ((Reaches.step hend).mono (Nat.zero_le 1))
  · -- The statements end in a return, so their end is not come to.
    rw [hclose] at hcode
    obtain ⟨n, -, hrun⟩ := h
    have hstart : (running 0 s : Status σ).Inside S := by
      rw [Status.Inside, hcode]
      exact List.length_pos_of_mem (List.mem_of_getLast? hlast)
    have hinside := run_inside (hcode ▸ hlast) hstart n
    rw [hrun, Status.Inside, hcode] at hinside
    exact absurd hinside (Nat.lt_irrefl _)

/-- What matches is the same as far as the names go. -/
theorem Matches.restrict_eq {N : List String} {source vars : Vars} (h : Matches N source vars) :
    vars.restrict N = source.restrict N := by
  refine Vars.restrict_congr fun x hx => ?_
  obtain ⟨value, hsource, hvars⟩ := h x hx
  rw [hsource, hvars]

/-- An execution of statements, with what follows their end. -/
theorem Arrived.follows {N : List String} {limit finish : Nat} {start : Status σ} {isVoid : Bool}
    {r : Completion × State σ} (h : Arrived S N limit start finish r)
    (hend : ∀ s, Reaches S 0 start (.running finish s) →
      Reaches S 0 start (.ended (Completion.normal.atEnd isVoid) s)) :
    Follows N S start limit (r.1.atEnd isVoid, r.2) := by
  obtain ⟨c, s⟩ := r
  have hended {c : Completion} (hc : c ≠ .unfinished) {vars : Vars}
      (hmatch : Matches N s.vars vars) (hreach : Reaches S 0 start (.ended c ⟨vars, s.outside⟩)) :
      Follows N S start limit (c, s) := by
    obtain ⟨n, -, hrun⟩ := hreach
    cases c with
    | unfinished => exact absurd rfl hc
    | normal | returned _ | faulted _ => exact ⟨n, _, hrun, rfl, hmatch.restrict_eq⟩
  cases c with
  | normal =>
    obtain ⟨vars, hmatch, hreach⟩ := h
    exact hended (by cases isVoid <;> simp [Completion.atEnd]) hmatch (hend _ hreach)
  | returned _ | faulted _ =>
    obtain ⟨vars, hmatch, hreach⟩ := h
    exact hended (by simp [Completion.atEnd]) hmatch hreach
  | unfinished =>
    obtain ⟨place, vars, hmatch, n, hn, hrun⟩ := h
    exact ⟨n, hn, place, _, hrun, rfl⟩

/-- **The code of a method follows its tree**, from any variables that hold something. -/
theorem lowerMethod_follows {T : ClassTable} {info : MethodInfo} {ts : List Ast} {m : Method}
    (hΓ : (⟨T, info⟩ : Site).IsListed) (h : lowerMethod T info ts = .ok m) (w : World σ)
    (receiver : Reference) {vars : Vars}
    (hvars : ∀ x ∈ m.frameNames, ∃ value, vars x = some value) (o : Outside σ) (limit : Nat) :
    Follows m.frameNames ⟨w, receiver, m.code⟩ (.running 0 ⟨vars, o⟩) limit
      (runBody w (activationOf ⟨T, info⟩ receiver) limit info.returnType.isVoid ts ⟨vars, o⟩) := by
  obtain ⟨code, f, hlower, hresult, hparams, hlocals, -, -, hcode⟩ := lowerMethod_eq_ok h
  have hnames : (⟨T, info⟩ : Site).frameNames = m.frameNames := by
    rw [Site.frameNames, Method.frameNames, List.map_append, List.map_append,
      varsOf_names hparams, varsOf_names hlocals]
  have hf : (⟨T, info⟩ : Site).Reserved { reserved := reservedNames T info } := rfl
  have hlabels : LabelsResolve m.code := by
    intro place name hplace
    refine labelIndex?_of_nodup ?_ hplace
    rw [hcode, labelsOf_closeBody]
    exact (lowerStatements_labels (fun _ _ _ _ _ hf h => lowerStatement_labels hΓ hf h) hf
      hlower).2.1
  have hplace : CodeAt m.code 0 code := by
    rw [hcode]
    rcases closeBody_cases m.result code with ⟨-, hclose⟩ | ⟨-, hclose⟩ | ⟨-, hclose, -⟩
    · rw [hclose]
      exact .whole code
    · rw [hclose]
      exact (CodeAt.whole _).left
    · rw [hclose]
      exact .whole code
  have hmatch : Matches (⟨T, info⟩ : Site).frameNames vars vars := by
    intro x hx
    obtain ⟨value, hvalue⟩ := hvars x (hnames ▸ hx)
    exact ⟨value, hvalue, hvalue⟩
  have harrived := lowerStatements_performs (S := ⟨w, receiver, m.code⟩) hΓ hlabels hf hlower
    limit 0 hplace vars vars o hmatch trivial
  rw [hnames, Nat.zero_add] at harrived
  exact harrived.follows fun s => Reaches.atEnd hcode (ValueType.ofType_eq_void hresult)

/-! ## Classes -/

/-- The method is the one that the table declares. -/
structure Declared (info : MethodInfo) (m : Method) : Prop where
  name : m.name = info.name
  isStatic : m.isStatic = info.isStatic
  params : m.params.map Var.name = info.parameters.map Symbol.name
  locals : m.locals.map Var.name = info.locals.map Symbol.name
  isVoid : m.result = .void ↔ info.returnType.isVoid = true

/-- The code of a method implements a meaning under the name of the method: started with any values
in its parameters and locals, on any object and in any world, it behaves as the meaning says. -/
def Implements (T : ClassTable) (entry : String × MethodMeaning) (m : Method) : Prop :=
  ∃ info, T.method? entry.1 = some info ∧ Declared info m ∧
    ∀ (σ : Type) (w : World σ) (receiver : Reference) (vars : Vars) (o : Outside σ),
      (∀ x ∈ m.frameNames, ∃ value, vars x = some value) →
      SameBehaviour m.frameNames
        (fun limit => entry.2 σ w info.isStatic receiver limit info.returnType.isVoid ⟨vars, o⟩)
        (fun n => Status.run ⟨w, receiver, m.code⟩ n (.running 0 ⟨vars, o⟩))

theorem lowerMethod_implements {T : ClassTable} {name : String} {info : MethodInfo} {ts : List Ast}
    {m : Method} (hinfo : T.method? name = some info) (h : lowerMethod T info ts = .ok m) :
    Implements T (name, meaningOf T name ts) m := by
  obtain rfl := ClassTable.name_of_method? hinfo
  obtain ⟨code, f, -, hresult, hparams, hlocals, hname, hstatic, -⟩ := lowerMethod_eq_ok h
  refine ⟨info, hinfo, ⟨hname, hstatic, varsOf_names hparams, varsOf_names hlocals,
    ValueType.ofType_eq_void hresult⟩, fun σ w receiver vars o hvars => ?_⟩
  exact sameBehaviour_of_follows fun limit => lowerMethod_follows hinfo h w receiver hvars o limit

/-- **Every method of a class that is lowered implements its meaning.** -/
theorem lowerMethods_implement {T : ClassTable} {members : List Ast} {ms : List Method}
    (h : lowerMethods T members = .ok ms) :
    List.Forall₂ (Implements T) (members.filterMap (memberMeaning? T)) ms := by
  induction members generalizing ms with
  | nil =>
    rw [← Except.ok.inj h]
    exact .nil
  | cons member members ih =>
    rw [lowerMethods] at h
    cases hname : member.kind.methodName? with
    | none =>
      rw [hname] at h
      rw [List.filterMap_cons_none (by rw [memberMeaning?, hname, Option.map_none])]
      exact ih h
    | some name =>
      rw [hname] at h
      rw [List.filterMap_cons_some (by rw [memberMeaning?, hname, Option.map_some])]
      dsimp only at h
      split at h
      · cases h
      · obtain ⟨m, hm, h⟩ := except_bind_eq_ok.mp h
        obtain ⟨rest, hrest, h⟩ := except_bind_eq_ok.mp h
        rw [← Except.ok.inj h]
        exact .cons (lowerMethod_implements ‹_› hm) (ih hrest)

/-- The class of a tree that is lowered, method by method. -/
theorem lowerClass_implements {T : ClassTable} {t : Ast} {code : ClassCode}
    (h : lowerClass T t = .ok code) :
    List.Forall₂ (Implements T) (meanings T t) code.methods := by
  obtain ⟨c, hc, h⟩ := except_bind_eq_ok.mp h
  obtain ⟨fields, -, h⟩ := except_bind_eq_ok.mp h
  obtain ⟨ms, hms, h⟩ := except_bind_eq_ok.mp h
  rw [← Except.ok.inj h, meanings, hc]
  exact lowerMethods_implement hms

end Meaning
end ClassCompiler
