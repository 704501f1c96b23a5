import ClassCompiler.Proofs.Machine.Intact
import ClassCompiler.Proofs.ThreeAddress.Member
import ClassCompiler.Proofs.ThreeAddress.WellTyped

/-!
# Members as they are declared

The parameters and the result of a call are written down where the call is, argument by argument,
and so is the type of a field where it is read or written.  In the code of a class they are those
that the class declares, if the members are its own.  For a call this hangs on the number of its
arguments: an argument that the method has no parameter for would be written down by its own type,
and a parameter without an argument not at all.  The checker counts the arguments where the type of
the target is that of the class, lowering looks at the type of the operand, and the two types agree.

Edits keep all this.  A literal that takes the place of a target is no object of the class.

* `Member.LinksTo`, `ClassCode.Linked`: members that are used as they are declared.
* `Site.links`: the condition on a node.
* `links_of_accepted`, `links_of_edited`: accepted and edited trees.
* `lowerClass_linked`: their code.
-/

namespace ClassCompiler
namespace ThreeAddress

open Constant (Domain Edited EditedClass ofKind? forall₂_mem_right)
open List (Forall₂)

/-- The member is used as the class declares it, if it is one of the class: a call by the types of
the parameters and of the result of every method that it may mean, and a field by its type. -/
def Member.LinksTo (code : ClassCode) : Member → Prop
  | .call c => c.target.type = .object code.name → ∀ callee ∈ code.methods, callee.name = c.method →
    c.params = callee.params.map Var.type ∧ c.result = callee.result
  | .field object x => object.type = .object code.name ∧ x ∈ code.fields ∧
    ∀ y ∈ code.fields, y.name = x.name → y = x

/-- Every member that the code of a class uses is used as the class declares it. -/
def ClassCode.Linked (code : ClassCode) : Prop :=
  ∀ m ∈ code.methods, UsesOnly (Member.LinksTo code) m.code

/-! ## The condition on trees -/

/-- Where a method of the class is called on the class or on an object of it, it gets as many
arguments as it has parameters. -/
def countsArgs (T : ClassTable) (method : String) : Ast → Bool
  | .node n ts =>
    match n.kind, ts with
    | .invocation callee, target :: args =>
      valueType? T method none target != some (.object T.className) ||
        (T.method? callee).all fun info => info.parameters.length == args.length
    | _, _ => true

/-- A node is admitted, and the arguments of a call are counted. -/
def Site.links (Γ : Site) (t : Ast) : Bool :=
  Γ.admits t.kind && countsArgs Γ.table Γ.info.name t

theorem admits_of_links {Γ : Site} {t : Ast} (h : t.everywhere Γ.links = true) : Γ.Admits t :=
  Tree.everywhere_imp (fun _ hlinks _ => (Bool.and_eq_true_iff.mp hlinks).1) h h

theorem countsArgs_invocation {T : ClassTable} {method callee : String} {n : Numbered}
    (hk : n.kind = .invocation callee) {target : Ast} {args : List Ast} :
    countsArgs T method (.node n (target :: args)) = true ↔
      (valueType? T method none target = some (.object T.className) →
        ∀ info, T.method? callee = some info → info.parameters.length = args.length) := by
  unfold countsArgs
  simp only [hk]
  rw [Bool.or_eq_true, bne_iff_ne, ← imp_iff_not_or, Option.all_eq_true]
  simp only [beq_iff_eq]

theorem countsArgs_of_ne {T : ClassTable} {method : String} {n : Numbered} {ts : List Ast}
    (hk : ∀ callee, n.kind ≠ .invocation callee) : countsArgs T method (.node n ts) = true := by
  unfold countsArgs
  dsimp only
  split
  · rename_i hkind
    exact absurd hkind (hk _)
  · rfl

/-! ## Accepted trees -/

section

open Typing

variable {Γ : Site}

/-- An expression whose value is an object of the class has the class for its type. -/
theorem isOwnTarget_of_valueType? {t : Ast} {type : Ty}
    (h : (infer Γ.context t).Gives (some type))
    (hvalue : valueType? Γ.table Γ.info.name none t = some (.object Γ.table.className)) :
    Γ.context.isOwnTarget type := by
  have hnamed {type : Ty} (harray : type.isArray = false)
      (hname : type.name = Γ.table.className) : Γ.context.isOwnTarget type :=
    .inr ⟨by rw [harray]; rfl, hname⟩
  have hreference {name : String} {type : Ty}
      (hclass : Γ.table.classReference? name = some type)
      (hvalue : some (ValueType.object name) = some (.object Γ.table.className)) :
      Γ.context.isOwnTarget type := by
    have harray := ClassTable.classReference?_isArray hclass
    have hname := ClassTable.classReference?_name hclass
    exact hnamed harray (hname.trans (ValueType.object.inj (Option.some.inj hvalue)))
  have hdeclared {type : Ty}
      (hvalue : (ValueType.ofType type).toOption = some (.object Γ.table.className)) :
      type.isArray = false ∧ type.name = Γ.table.className := by
    cases htype : ValueType.ofType type with
    | error e =>
      rw [htype] at hvalue
      cases hvalue
    | ok value =>
      rw [htype] at hvalue
      cases Option.some.inj hvalue
      obtain ⟨hname, harray, -⟩ := Machine.ofType_eq_object htype
      exact ⟨harray, hname⟩
  induction t using Tree.induction generalizing type with
  | node n ts ih =>
    obtain ⟨_, heq, htyped⟩ := infer_cases h
    cases Option.some.inj heq
    change Types Γ.context n ts _ at htyped
    rw [valueType?.eq_def] at hvalue
    cases htyped with
    | this hk => exact .inl rfl
    | className hk hclass | newObject hk hclass =>
      simp only [hk] at hvalue
      exact hreference hclass hvalue
    | @«variable» name scope symbol _ hk hres hstatic =>
      have hres : Γ.table.resolve? Γ.info.name name = some (scope, symbol) := hres
      simp only [hk] at hvalue
      unfold leafType? at hvalue
      simp only [hres] at hvalue
      obtain ⟨harray, hname⟩ := hdeclared hvalue
      obtain ⟨hsame, hsame'⟩ := Γ.table.tagOrigin_keeps symbol.type
      exact hnamed (hsame'.trans harray) (hsame.trans hname)
    | @classRef name _ _ hk hres hclass =>
      have hres : Γ.table.resolve? Γ.info.name name = none := hres
      simp only [hk] at hvalue
      unfold leafType? at hvalue
      simp only [hres] at hvalue
      exact hreference hclass hvalue
    | parenthesis hk h =>
      simp only [hk] at hvalue
      exact ih _ List.mem_cons_self h hvalue
    | @invocation method t args target _ hk ht hargs hcall =>
      simp only [hk] at hvalue
      split at hvalue
      · rename_i htarget
        have hown := ih t List.mem_cons_self ht htarget
        cases hinfo : Γ.table.method? method with
        | none =>
          rw [hinfo] at hvalue
          cases hvalue
        | some info =>
          rw [hinfo] at hvalue
          obtain ⟨harray, hname⟩ := hdeclared hvalue
          rcases inferCall_gives hcall with ⟨-, info', hinfo', -, -, hresult⟩ | ⟨-, hnone, -⟩ |
            ⟨hother, -⟩
          · cases Option.some.inj (hinfo.symm.trans hinfo')
            cases Option.some.inj hresult
            exact hnamed harray hname
          · cases hinfo.symm.trans hnone
          · exact absurd hown hother
      · cases hvalue
    | integer hk | boolean hk | string hk | negation hk | arrayAccess hk | arrayLength hk
    | newArray hk =>
      simp only [hk] at hvalue
      cases hvalue
    | @binary op _ _ _ _ _ hk =>
      simp only [hk, resultType] at hvalue
      split at hvalue <;> cases hvalue

/-- An accepted expression is admitted, and the arguments of its calls are counted. -/
theorem links_of_infer {t : Ast} {type : Ty} (h : (infer Γ.context t).Gives (some type)) :
    Γ.links t = true := by
  refine Bool.and_eq_true_iff.mpr ⟨admits_of_infer h, ?_⟩
  obtain ⟨n, ts⟩ := t
  by_cases hkind : ∃ callee, n.kind = .invocation callee
  · obtain ⟨callee, hkind⟩ := hkind
    obtain ⟨_, -, htyped⟩ := infer_cases h
    change Types Γ.context n ts _ at htyped
    cases htyped with
    | @invocation method t args target _ hk ht hargs hcall =>
      refine (countsArgs_invocation hk).mpr fun hvalue info hinfo => ?_
      have hown := isOwnTarget_of_valueType? ht hvalue
      rcases inferCall_gives hcall with ⟨-, info', hinfo', -, hcount, -⟩ | ⟨-, hnone, -⟩ |
        ⟨hother, -⟩
      · cases Option.some.inj (hinfo.symm.trans hinfo')
        exact hcount
      · cases hinfo.symm.trans hnone
      · exact absurd hown hother
    | integer hk | boolean hk | string hk | this hk | className hk | newObject hk | «variable» hk
    | classRef hk | parenthesis hk | binary hk | negation hk | arrayAccess hk | arrayLength hk
    | newArray hk =>
      rw [hkind] at hk
      cases hk
  · exact countsArgs_of_ne fun callee hk => hkind ⟨callee, hk⟩

theorem links_of_check {t : Ast} (h : (checkStatement Γ.context t).Gives ()) :
    Γ.links t = true := by
  obtain ⟨n, ts⟩ := t
  by_cases hkind : ∃ callee, n.kind = .invocation callee
  · obtain ⟨callee, hkind⟩ := hkind
    cases checkStatement_cases h with
    | effect hk he => exact links_of_infer he
    | declaration hk => simp [hkind, Kind.writtenType?] at hk
    | sequence hk => simp [hkind] at hk
    | conditional hk | loop hk | condition hk | expression hk | assignment hk | element hk
    | returnOutside hk | returnNone hk | returnSome hk =>
      rw [hkind] at hk
      cases hk
  · refine Bool.and_eq_true_iff.mpr ⟨admits_of_check h, ?_⟩
    exact countsArgs_of_ne fun callee hk => hkind ⟨callee, hk⟩

/-- **The calls of an accepted statement are linked**, wherever they stand in it. -/
theorem links_of_accepted {t : Ast} (h : (checkStatement Γ.context t).Gives ()) :
    t.everywhere Γ.links = true :=
  everywhere_of_accepted rfl (fun _ _ h => links_of_infer h) (fun _ h => links_of_check h) h

end

/-! ## Edited trees -/

section

variable {κ : Type} {D : Domain κ} {T : ClassTable} {method : String}

/-- Edits make no object of the class. -/
theorem valueType?_of_edited {t t' : Ast} (hedit : Edited D t t') {name : String}
    (h : valueType? T method none t' = some (.object name)) :
    valueType? T method none t = some (.object name) := by
  induction t using Tree.induction generalizing t' name with
  | node n ts ih =>
    cases hedit with
    | @literal _ n' c _ hk =>
      rw [valueType?.eq_def] at h
      cases hkind : n'.kind <;> rw [hkind] at hk <;> simp only [ofKind?, reduceCtorEq] at hk
      all_goals
        simp only [hkind] at h
        cases h
    | @node _ _ ts' hts =>
      rw [valueType?.eq_def] at h ⊢
      dsimp only at h ⊢
      cases hkind : n.kind with
      | parenthesis =>
        rw [hkind] at h
        cases hts with
        | nil => cases h
        | cons ht _ => exact ih _ List.mem_cons_self ht h
      | invocation callee =>
        rw [hkind] at h
        cases hts with
        | nil => cases h
        | cons ht _ =>
          dsimp only at h ⊢
          split at h
          · rename_i htarget
            rw [if_pos (ih _ List.mem_cons_self ht htarget)]
            exact h
          · cases h
      | _ =>
        rw [hkind] at h
        exact h

theorem links_of_edited {Γ : Site} {t t' : Ast} (hedit : Edited D t t')
    (h : t.everywhere Γ.links = true) : t'.everywhere Γ.links = true := by
  refine Machine.everywhere_of_edited (fun n c hk => ?_) (fun n ts ts' hts hroot => ?_) hedit h
  · cases hkind : n.kind <;> rw [hkind] at hk <;> simp only [ofKind?, reduceCtorEq] at hk
    all_goals simp [Site.links, Site.admits, Tree.kind, Tree.label, countsArgs, hkind]
  · obtain ⟨hadmits, hcounts⟩ := Bool.and_eq_true_iff.mp hroot
    refine Bool.and_eq_true_iff.mpr ⟨hadmits, ?_⟩
    by_cases hkind : ∃ callee, n.kind = .invocation callee
    · obtain ⟨callee, hk⟩ := hkind
      cases hts with
      | nil => exact hcounts
      | cons ht hargs =>
        refine (countsArgs_invocation hk).mpr fun hvalue info hinfo => ?_
        rw [← hargs.length_eq]
        exact (countsArgs_invocation hk).mp hcounts (valueType?_of_edited ht hvalue) info hinfo
    · exact countsArgs_of_ne fun callee hk => hkind ⟨callee, hk⟩

end

/-! ## Lowered classes -/

/-- The types of the parameters, if there are as many arguments. -/
theorem lowerArgs_params {Γ : Site} {declared : List Symbol} {ts : List Ast} {f f' : Fresh}
    {args : LoweredArgs} (h : (lowerArgs Γ declared ts).run f = .ok (args, f'))
    (hlength : declared.length = ts.length) {vars : List Var} (hvars : varsOf declared = .ok vars) :
    args.params = vars.map Var.type := by
  induction ts generalizing declared f args vars with
  | nil =>
    obtain rfl := List.eq_nil_of_length_eq_zero hlength
    cases Except.ok.inj hvars
    obtain ⟨rfl, -⟩ := lowerArgs_nil_eq_ok h
    rfl
  | cons t ts ih =>
    cases declared with
    | nil => cases hlength
    | cons s ss =>
      obtain ⟨type, htype, hvars⟩ := Meaning.except_bind_eq_ok.mp hvars
      obtain ⟨vars, hrest, hvars⟩ := Meaning.except_bind_eq_ok.mp hvars
      cases Except.ok.inj hvars
      obtain ⟨param, arg, f₁, rest, hparam, -, hargs, rfl⟩ := lowerArgs_cons_eq_ok h
      have hparam : param = some type := by
        obtain ⟨type', htype', hparam⟩ := Meaning.except_bind_eq_ok.mp hparam
        cases Except.ok.inj (htype.symm.trans htype')
        exact (Except.ok.inj hparam).symm
      rw [List.map_cons, ← ih hargs (Nat.succ.inj hlength) hrest, hparam]
      rfl

section

variable {T : ClassTable} {t c : Ast} {code : ClassCode}

theorem lowerClass_name (h : lowerClass T t = .ok code) : code.name = T.className := by
  obtain ⟨_, -, h⟩ := Meaning.except_bind_eq_ok.mp h
  obtain ⟨_, -, h⟩ := Meaning.except_bind_eq_ok.mp h
  obtain ⟨_, -, h⟩ := Meaning.except_bind_eq_ok.mp h
  rw [← Except.ok.inj h]

/-- A method of the code has the parameters and the result that the table has under its name. -/
theorem declared_of_mem {members : List Ast} (hmethods : lowerMethods T members = .ok code.methods)
    {callee : Method} (hcallee : callee ∈ code.methods) :
    ∃ info, T.method? callee.name = some info ∧ varsOf info.parameters = .ok callee.params ∧
      ValueType.ofType info.returnType = .ok callee.result := by
  obtain ⟨member, -, name, info, -, hinfo, hlower⟩ := mem_lowerMethods hmethods hcallee
  obtain ⟨-, -, -, hresult, hparams, -, hname, -, -⟩ := lowerMethod_eq_ok hlower
  obtain rfl := ClassTable.name_of_method? hinfo
  rw [← hname] at hinfo
  exact ⟨info, hinfo, hparams, hresult⟩

/-- What a linked tree is lowered to is linked. -/
theorem yields_linksTo (hnodup : (T.fields.map Symbol.name).Nodup)
    (hname : code.name = T.className) (hfields : varsOf T.fields = .ok code.fields)
    {members : List Ast} (hmethods : lowerMethods T members = .ok code.methods)
    (info : MethodInfo) :
    Site.Yields ⟨T, info⟩ (Site.links ⟨T, info⟩) (Member.LinksTo code) where
  field name symbol type hres htype := by
    obtain ⟨rfl, ⟨-, hsymbol⟩ | ⟨hscope, -⟩⟩ := ClassTable.resolve?_cases hres
    · refine ⟨congrArg ValueType.object hname.symm, mem_varsOf hfields hsymbol htype, ?_⟩
      intro y hy hsame
      rw [← varsOf_names hfields] at hnodup
      exact List.inj_on_of_nodup_map hnodup hy (mem_varsOf hfields hsymbol htype) hsame
    · exact absurd rfl hscope
  call n method ts hk hlinks expected f before call f' hlower := by
    obtain ⟨t, rest, target, f₁, args, result, rfl, htarget, hargs, hresult, -, rfl⟩ :=
      lowerCall_eq_ok hlower
    intro hown callee hcallee hmethod
    have hown : target.value.type = .object T.className := hown.trans (by rw [hname])
    obtain ⟨hroot, hbelow⟩ := Tree.everywhere_node.mp hlinks
    rw [hk] at hbelow
    -- The type of the target is the one that the arguments were counted by.
    have hvalue : valueType? T info.name none t = some (.object T.className) := by
      rw [← hown]
      exact lowerExpr_type (Γ := ⟨T, info⟩) (admits_of_links (hbelow t List.mem_cons_self)) htarget
    obtain ⟨decl, hdecl, hparams, hreturn⟩ := declared_of_mem hmethods hcallee
    rw [hmethod] at hdecl
    have hknown : Site.callee? ⟨T, info⟩ target.value method = some decl := by
      unfold Site.callee?
      rw [if_pos (Site.isOwn_eq_true.mpr hown)]
      exact hdecl
    rw [hknown] at hargs hresult
    have hcount : decl.parameters.length = rest.length :=
      (countsArgs_invocation hk).mp (Bool.and_eq_true_iff.mp hroot).2 hvalue decl hdecl
    exact ⟨lowerArgs_params hargs hcount hparams, Except.ok.inj (hresult.symm.trans hreturn)⟩

/-- **The code of an accepted class is linked**, and so is the code of a class that was edited. -/
theorem lowerClass_linked {κ : Type} {D : String → Domain κ} {t' c' : Ast}
    (htable : (ClassTable.ofTree t).Gives T) (hcheck : (Typing.checkClass T t).Gives ())
    (hc : t.classTree = .ok c) (hedit : EditedClass D c c') (hc' : t'.classTree = .ok c')
    (hcode : lowerClass T t' = .ok code) : code.Linked := by
  obtain ⟨hfields, hmethods⟩ := Machine.lowerClass_eq_ok hc' hcode
  intro m hm
  obtain ⟨member', hmember', name, info, hname, hinfo, hlower⟩ := mem_lowerMethods hmethods hm
  obtain rfl := ClassTable.name_of_method? hinfo
  obtain ⟨member, hmember, hedited⟩ := forall₂_mem_right hedit.members hmember'
  rw [hedited.methodName?] at hname
  obtain ⟨info', hinfo', hbody⟩ := Typing.body_of_accepted htable hcheck hc hmember hname
  cases Option.some.inj (hinfo.symm.trans hinfo')
  have hyields := yields_linksTo (ClassTable.fields_nodup htable) (lowerClass_name hcode) hfields
    hmethods info
  refine lowerMethod_uses hyields (fun u' hu' => ?_) hlower
  obtain ⟨u, hu, hedited⟩ := forall₂_mem_right (hedited.children hname).2 hu'
  exact links_of_edited hedited (links_of_accepted (Γ := ⟨T, info⟩) (hbody u hu))

end

end ThreeAddress
end ClassCompiler
