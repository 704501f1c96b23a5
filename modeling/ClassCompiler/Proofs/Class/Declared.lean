import ClassCompiler.Proofs.Typing.Accepted

/-!
# Where the entries of a symbol table come from

The table of an accepted class has nothing but what is declared in it, and every declaration is in
it: nothing was dropped, since a second declaration of a name is reported.  Each type in the table
is therefore one that is written in the class, or one of those that the entry method has without
saying so, and has been checked where it is written.

* `addMembers_gives`: the entries of a table and the members they come from.
* `resolve?_cases`: what a name can mean.
* `AllTypes.of_accepted`: a property of every type of an accepted class.
* `checkMethods_gives`: the body of every method is accepted.
* `ofTree_gives`: both for the class of a tree.
* `everyBody_of_accepted`: a property of every node in the bodies of an accepted class.
-/

namespace ClassCompiler

open Checked

/-- A type that a method writes among its children, or that the entry method has. -/
def WrittenIn (children : List Ast) (type : Ty) : Prop :=
  type = .void ∨ type = .stringArray ∨
    ∃ c ∈ children, ∃ written, c.kind.writtenType? = some written ∧ type = .ofDeclared written

theorem WrittenIn.mono {ts ts' : List Ast} {type : Ty} (h : WrittenIn ts type)
    (hsub : ∀ t ∈ ts, t ∈ ts') : WrittenIn ts' type := by
  rcases h with h | h | ⟨c, hc, written, hwritten, htype⟩
  · exact .inl h
  · exact .inr (.inl h)
  · exact .inr (.inr ⟨c, hsub c hc, written, hwritten, htype⟩)

/-- The types of a method. -/
def MethodInfo.types (info : MethodInfo) : List Ty :=
  info.returnType :: (info.parameters ++ info.locals).map Symbol.type

/-- A member of a class declares a method with nothing but types that it writes. -/
def DeclaresMethod (member : Ast) (info : MethodInfo) : Prop :=
  member.kind.methodName? = some info.name ∧ ∀ type ∈ info.types, WrittenIn member.children type

namespace ClassTable

/-- The origin is the only thing that the table adds to a type. -/
theorem tagOrigin_keeps (T : ClassTable) (type : Ty) :
    (T.tagOrigin type).name = type.name ∧ (T.tagOrigin type).isArray = type.isArray := by
  unfold tagOrigin
  grind

theorem declareFrame_gives {method : String} {ts : List Ast} {params locals : List Symbol}
    {result : List Symbol × List Symbol}
    (h : (declareFrame method params locals ts).Gives result) {s : Symbol}
    (hs : s ∈ result.1 ++ result.2) : s ∈ params ++ locals ∨ WrittenIn ts s.type := by
  induction ts generalizing params locals with
  | nil =>
    rw [← pure_gives.mp h] at hs
    exact .inl hs
  | cons t ts ih =>
    -- What is declared by `t`, or was there before, is looked for after `t`.
    have hlater {params' locals' : List Symbol}
        (h : (declareFrame method params' locals' ts).Gives result)
        (hnew : s ∈ params' ++ locals' → s ∈ params ++ locals ∨
          ∃ type, t.kind.writtenType? = some type ∧ s.type = .ofDeclared type) :
        s ∈ params ++ locals ∨ WrittenIn (t :: ts) s.type := by
      rcases ih h with hs | hs
      · rcases hnew hs with hs | ⟨type, htype, hs⟩
        · exact .inl hs
        · exact .inr (.inr (.inr ⟨t, List.mem_cons_self, type, htype, hs⟩))
      · exact .inr (hs.mono fun u hu => List.mem_cons_of_mem t hu)
    rw [declareFrame] at h
    cases hk : t.kind with
    | argument name type =>
      simp only [hk] at h
      split at h
      · exact absurd h (not_report_bind_gives rfl)
      · refine hlater h fun hs => ?_
        simp only [List.mem_append, List.mem_singleton] at hs ⊢
        rcases hs with (hs | rfl) | hs
        · exact .inl (.inl hs)
        · exact .inr ⟨type, by rw [hk, Kind.writtenType?], rfl⟩
        · exact .inl (.inr hs)
    | localVar name type =>
      simp only [hk] at h
      split at h
      · exact absurd h (not_report_bind_gives rfl)
      · split at h
        · exact absurd h (not_report_bind_gives rfl)
        · refine hlater h fun hs => ?_
          simp only [List.mem_append, List.mem_singleton] at hs ⊢
          rcases hs with hs | hs | rfl
          · exact .inl (.inl hs)
          · exact .inl (.inr hs)
          · exact .inr ⟨type, by rw [hk, Kind.writtenType?], rfl⟩
    | _ =>
      simp only [hk] at h
      exact hlater h .inl

/-- A method with a return type and parameters that are written or belong to the entry method. -/
theorem declareMethod_gives {name : String} {returnType : Ty} {isStatic : Bool}
    {params : List Symbol} {children : List Ast} {info : MethodInfo}
    (h : (declareMethod name returnType isStatic params children).Gives info)
    (hreturn : WrittenIn children returnType) (hparams : ∀ s ∈ params, WrittenIn children s.type) :
    info.name = name ∧ ∀ type ∈ info.types, WrittenIn children type := by
  obtain ⟨⟨params', locals⟩, hframe, h⟩ := bind_gives.mp h
  rw [← pure_gives.mp h]
  refine ⟨rfl, fun type htype => ?_⟩
  rcases List.mem_cons.mp htype with rfl | htype
  · exact hreturn
  · obtain ⟨s, hs, rfl⟩ := List.mem_map.mp htype
    rcases declareFrame_gives hframe hs with hs | hs
    · rw [List.append_nil] at hs
      exact hparams s hs
    · exact hs

theorem writtenIn_of_returnType? {children : List Ast} {type : TypeName}
    (h : Tree.returnType? children = some type) : WrittenIn children (.ofDeclared type) := by
  obtain ⟨c, hc, htype⟩ := List.exists_of_findSome?_eq_some h
  refine .inr (.inr ⟨c, hc, type, ?_, rfl⟩)
  split at htype
  · rename_i hk
    rw [hk, ← htype]
    rfl
  · cases htype

/-! ## Members -/

/-- A table has the entries of another and those that members declare, and a method for every member
that declares one. -/
structure Extends (T : ClassTable) (members : List Ast) (T' : ClassTable) : Prop where
  fields : ∀ s ∈ T'.fields, s ∈ T.fields ∨
    ∃ member ∈ members, ∃ type, member.kind = .classField s.name type ∧ s.type = .ofDeclared type
  methods : ∀ info ∈ T'.methods, info ∈ T.methods ∨
    ∃ member ∈ members, DeclaresMethod member info
  kept : ∀ info ∈ T.methods, info ∈ T'.methods
  listed : ∀ member ∈ members, ∀ name, member.kind.methodName? = some name →
    ∃ info ∈ T'.methods, info.name = name
  distinct : (T.fields.map Symbol.name).Nodup → (T'.fields.map Symbol.name).Nodup

theorem Extends.nil (T : ClassTable) : Extends T [] T :=
  ⟨fun _ => .inl, fun _ => .inl, fun _ => id, fun _ h => absurd h List.not_mem_nil, id⟩

theorem Extends.cons {T T₁ T₂ : ClassTable} {member : Ast} {members : List Ast}
    (h : Extends T [member] T₁) (h' : Extends T₁ members T₂) :
    Extends T (member :: members) T₂ where
  fields s hs := by
    rcases h'.fields s hs with hs | ⟨m, hm, htype⟩
    · rcases h.fields s hs with hs | ⟨m, hm, htype⟩
      · exact .inl hs
      · rw [List.mem_singleton] at hm
        exact .inr ⟨m, hm ▸ List.mem_cons_self, htype⟩
    · exact .inr ⟨m, List.mem_cons_of_mem member hm, htype⟩
  methods info hinfo := by
    rcases h'.methods info hinfo with hinfo | ⟨m, hm, hdeclares⟩
    · rcases h.methods info hinfo with hinfo | ⟨m, hm, hdeclares⟩
      · exact .inl hinfo
      · rw [List.mem_singleton] at hm
        exact .inr ⟨m, hm ▸ List.mem_cons_self, hdeclares⟩
    · exact .inr ⟨m, List.mem_cons_of_mem member hm, hdeclares⟩
  kept info hinfo := h'.kept info (h.kept info hinfo)
  listed m hm name hname := by
    rcases List.mem_cons.mp hm with rfl | hm
    · obtain ⟨info, hinfo, rfl⟩ := h.listed m List.mem_cons_self name hname
      exact ⟨info, h'.kept info hinfo, rfl⟩
    · exact h'.listed m hm name hname
  distinct hnodup := h'.distinct (h.distinct hnodup)

theorem addMethod_gives {T T' : ClassTable} {n : Numbered} {info : MethodInfo} {member : Ast}
    (h : (T.addMethod n info).Gives T') (hdeclares : DeclaresMethod member info) :
    Extends T [member] T' := by
  unfold addMethod at h
  split at h
  · exact absurd h (not_report_bind_gives rfl)
  · rw [← pure_gives.mp h]
    refine ⟨fun _ => .inl, fun other hother => ?_, fun _ => List.mem_append_left _, ?_, id⟩
    · rcases List.mem_append.mp hother with hother | hother
      · exact .inl hother
      · rw [List.mem_singleton.mp hother]
        exact .inr ⟨member, List.mem_cons_self, hdeclares⟩
    · intro m hm name hname
      rw [List.mem_singleton.mp hm, hdeclares.1] at hname
      exact ⟨info, by simp, Option.some.inj hname⟩

theorem addField_gives {T T' : ClassTable} {n : Numbered} {name : String} {type : TypeName}
    {member : Ast} (h : (T.addField n name type).Gives T')
    (hk : member.kind = .classField name type) : Extends T [member] T' := by
  unfold addField at h
  split at h
  · exact absurd h (not_report_bind_gives rfl)
  · rename_i hnew
    rw [← pure_gives.mp h]
    refine ⟨fun s hs => ?_, fun _ => .inl, fun _ => id, fun m hm other hother => ?_,
      fun hnodup => ?_⟩
    · rcases List.mem_append.mp hs with hs | hs
      · exact .inl hs
      · rw [List.mem_singleton.mp hs]
        exact .inr ⟨member, List.mem_cons_self, type, hk, rfl⟩
    · rw [List.mem_singleton.mp hm, hk] at hother
      cases hother
    · rw [List.map_append, List.nodup_append]
      refine ⟨hnodup, by simp, fun other hother new hname heq => ?_⟩
      obtain ⟨s, hs, rfl⟩ := List.mem_map.mp hother
      cases List.mem_singleton.mp hname
      refine hnew (List.find?_isSome.mpr ⟨s, hs, ?_⟩)
      exact beq_iff_eq.mpr heq

theorem addMember_gives {T T' : ClassTable} {member : Ast} (h : (T.addMember member).Gives T') :
    Extends T [member] T' := by
  unfold addMember at h
  split at h
  · exact addField_gives h ‹_›
  · rename_i name _ hk
    split at h
    · exact absurd h not_fail_gives
    · rename_i type hreturn
      obtain ⟨info, hinfo, h⟩ := bind_gives.mp h
      obtain ⟨hname, htypes⟩ := declareMethod_gives hinfo (writtenIn_of_returnType? hreturn)
        fun _ hs => absurd hs List.not_mem_nil
      exact addMethod_gives h ⟨by rw [hk, Kind.methodName?, hname], htypes⟩
  · rename_i argument hk
    obtain ⟨info, hinfo, h⟩ := bind_gives.mp h
    obtain ⟨hname, htypes⟩ := declareMethod_gives hinfo (.inl rfl)
      fun s hs => .inr (.inl (by rw [List.mem_singleton.mp hs]))
    exact addMethod_gives h ⟨by rw [hk, Kind.methodName?, hname], htypes⟩
  · exact absurd h not_fail_gives

/-- **The entries of a table and the members they come from.** -/
theorem addMembers_gives {T T' : ClassTable} {members : List Ast}
    (h : (T.addMembers members).Gives T') : Extends T members T' := by
  induction members generalizing T with
  | nil =>
    rw [← pure_gives.mp h]
    exact .nil T
  | cons member members ih =>
    obtain ⟨T₁, hmember, h⟩ := bind_gives.mp h
    exact (addMember_gives hmember).cons (ih h)

/-- The table of the class of a tree. -/
theorem ofTree_gives {T : ClassTable} {t : Ast} (h : (ofTree t).Gives T) :
    ∃ c, t.classTree = .ok c ∧ Extends (ofHeader t.imports c.kind) c.children T := by
  obtain ⟨c, hc, h⟩ := bind_gives.mp h
  exact ⟨c, ofExcept_gives.mp hc, addMembers_gives h⟩

/-- A class has nothing before its members are read. -/
theorem ofHeader_empty (imports : List String) (kind : Kind) :
    (ofHeader imports kind).fields = [] ∧ (ofHeader imports kind).methods = [] := by
  unfold ofHeader
  split <;> exact ⟨rfl, rfl⟩

/-- The fields of a class have different names. -/
theorem fields_nodup {T : ClassTable} {t : Ast} (h : (ofTree t).Gives T) :
    (T.fields.map Symbol.name).Nodup := by
  obtain ⟨c, -, hextends⟩ := ofTree_gives h
  refine hextends.distinct ?_
  rw [(ofHeader_empty _ _).1]
  exact .nil

theorem method?_mem {T : ClassTable} {name : String} {info : MethodInfo}
    (h : T.method? name = some info) : info ∈ T.methods :=
  List.mem_of_find?_eq_some h

theorem name_of_method? {T : ClassTable} {name : String} {info : MethodInfo}
    (h : T.method? name = some info) : info.name = name := by
  unfold method? at h
  have hname := List.find?_some h
  exact eq_of_beq hname

theorem method?_of_listed {T : ClassTable} {name : String}
    (h : ∃ info ∈ T.methods, info.name = name) : ∃ info, T.method? name = some info := by
  obtain ⟨info, hinfo, rfl⟩ := h
  exact Option.isSome_iff_exists.mp (List.find?_isSome.mpr ⟨info, hinfo, beq_self_eq_true _⟩)

/-- What a name means: a field, or a parameter or local of the method. -/
theorem resolve?_cases {T : ClassTable} {method name : String} {scope : Scope} {symbol : Symbol}
    (h : T.resolve? method name = some (scope, symbol)) :
    symbol.name = name ∧ ((scope = .field ∧ symbol ∈ T.fields) ∨
      scope ≠ .field ∧ ∃ info, T.method? method = some info ∧
        symbol ∈ info.parameters ++ info.locals) := by
  have hfind {symbols : List Symbol} {s : Symbol} (hs : Symbol.find? symbols name = some s) :
      s.name = name ∧ s ∈ symbols := by
    unfold Symbol.find? at hs
    have hname := List.find?_some hs
    exact ⟨eq_of_beq hname, List.mem_of_find?_eq_some hs⟩
  unfold resolve? at h
  dsimp only at h
  split at h
  · rename_i found hfound
    obtain ⟨info, hinfo, hframe⟩ := Option.bind_eq_some_iff.mp hfound
    cases h
    unfold frameVariable? at hframe
    split at hframe
    · rename_i s hlocal
      cases hframe
      obtain ⟨hname, hmem⟩ := hfind hlocal
      exact ⟨hname, .inr ⟨by simp, info, hinfo, List.mem_append_right _ hmem⟩⟩
    · obtain ⟨s, hparam, heq⟩ := Option.map_eq_some_iff.mp hframe
      cases heq
      obtain ⟨hname, hmem⟩ := hfind hparam
      exact ⟨hname, .inr ⟨by simp, info, hinfo, List.mem_append_left _ hmem⟩⟩
  · obtain ⟨s, hfield, heq⟩ := Option.map_eq_some_iff.mp h
    cases heq
    obtain ⟨hname, hmem⟩ := hfind hfield
    exact ⟨hname, .inl ⟨rfl, hmem⟩⟩

end ClassTable

/-! ## What has been checked -/

namespace Typing

theorem checkFields_gives {T : ClassTable} {members : List Ast}
    (h : (checkFields T members).Gives ()) {member : Ast} (hmember : member ∈ members)
    {name : String} {type : TypeName} (hk : member.kind = .classField name type) :
    (({ table := T } : Context).checkDeclared member.label type).Gives () := by
  induction members with
  | nil => exact absurd hmember List.not_mem_nil
  | cons m members ih =>
    rw [checkFields] at h
    rcases List.mem_cons.mp hmember with rfl | hmember
    · simp only [hk] at h
      obtain ⟨_, hdeclared, -⟩ := bind_gives.mp h
      exact hdeclared
    · split at h
      · obtain ⟨_, -, h⟩ := bind_gives.mp h
        exact ih h hmember
      · exact ih h hmember

/-- **The body of every method is accepted.** -/
theorem checkMethods_gives {T : ClassTable} {members : List Ast}
    (h : (checkMethods T members).Gives ()) {member : Ast} (hmember : member ∈ members)
    {name : String} {info : MethodInfo} (hname : member.kind.methodName? = some name)
    (hinfo : T.method? name = some info) :
    (checkStatements (contextOf T name info) member.children).Gives () := by
  induction members with
  | nil => exact absurd hmember List.not_mem_nil
  | cons m members ih =>
    rw [checkMethods] at h
    rcases List.mem_cons.mp hmember with rfl | hmember
    · simp only [hname, hinfo] at h
      obtain ⟨_, hbody, -⟩ := bind_gives.mp h
      exact hbody
    · split at h
      · exact ih h hmember
      · split at h
        · exact ih h hmember
        · obtain ⟨_, -, h⟩ := bind_gives.mp h
          exact ih h hmember

end Typing

/-! ## The types of a class -/

namespace ClassTable

/-- A property of every type that the table has. -/
structure AllTypes (P : Ty → Prop) (T : ClassTable) : Prop where
  fields : ∀ s ∈ T.fields, P s.type
  methods : ∀ info ∈ T.methods, ∀ type ∈ info.types, P type

variable {P : Ty → Prop} {T : ClassTable}

/-- A variable has one of the types. -/
theorem AllTypes.resolve? (h : T.AllTypes P) {method name : String} {scope : Scope}
    {symbol : Symbol} (hres : T.resolve? method name = some (scope, symbol)) : P symbol.type := by
  obtain ⟨-, ⟨-, hmem⟩ | ⟨-, info, hinfo, hmem⟩⟩ := resolve?_cases hres
  · exact h.fields symbol hmem
  · exact h.methods info (method?_mem hinfo) symbol.type
      (List.mem_cons_of_mem _ (List.mem_map_of_mem hmem))

/-- **Every type of an accepted class was checked where it is written**, or is one of the two that
the entry method has without saying so. -/
theorem AllTypes.of_accepted (hvoid : P .void) (hargs : P .stringArray)
    (hwritten : ∀ (Γ : Typing.Context) (n : Numbered) (type : TypeName), Γ.table = T →
      (Γ.checkDeclared n type).Gives () → P (.ofDeclared type))
    {t : Ast} (htable : (ofTree t).Gives T) (hcheck : (Typing.checkClass T t).Gives ()) :
    T.AllTypes P := by
  obtain ⟨c, hc, hextends⟩ := ofTree_gives htable
  obtain ⟨c', hc', hcheck⟩ := bind_gives.mp hcheck
  obtain rfl : c = c' := Except.ok.inj (hc.symm.trans (ofExcept_gives.mp hc'))
  obtain ⟨_, hfields, hmethods⟩ := bind_gives.mp hcheck
  obtain ⟨hnoFields, hnoMethods⟩ := ofHeader_empty t.imports c.kind
  constructor
  · intro s hs
    rcases hextends.fields s hs with hs | ⟨member, hmember, type, hk, htype⟩
    · rw [hnoFields] at hs
      exact absurd hs List.not_mem_nil
    · rw [htype]
      exact hwritten _ _ _ rfl (Typing.checkFields_gives hfields hmember hk)
  · intro info hinfo type htype
    rcases hextends.methods info hinfo with hinfo | ⟨member, hmember, hname, hdeclares⟩
    · rw [hnoMethods] at hinfo
      exact absurd hinfo List.not_mem_nil
    · -- The type was checked among the statements of the method that writes it.
      obtain ⟨info', hinfo'⟩ := method?_of_listed (hextends.listed member hmember _ hname)
      have hbody := Typing.checkMethods_gives hmethods hmember hname hinfo'
      rcases hdeclares type htype with rfl | rfl | ⟨child, hchild, written, hk, rfl⟩
      · exact hvoid
      · exact hargs
      · have hstatement := Typing.checkStatements_gives hbody child hchild
        exact hwritten _ _ _ rfl (Typing.checkStatement_written hstatement hk)

end ClassTable

/-! ## The bodies of a class -/

namespace Typing

/-- **The statements of every method of an accepted class are accepted.** -/
theorem body_of_accepted {T : ClassTable} {t c m : Ast} (htable : (ClassTable.ofTree t).Gives T)
    (hcheck : (checkClass T t).Gives ()) (hc : t.classTree = .ok c) (hm : m ∈ c.children)
    {name : String} (hname : m.kind.methodName? = some name) :
    ∃ info, T.method? name = some info ∧
      ∀ u ∈ m.children, (checkStatement (contextOf T name info) u).Gives () := by
  obtain ⟨_, hc', hextends⟩ := ClassTable.ofTree_gives htable
  cases Except.ok.inj (hc.symm.trans hc')
  obtain ⟨_, hc', hcheck⟩ := bind_gives.mp hcheck
  cases Except.ok.inj (hc.symm.trans (ofExcept_gives.mp hc'))
  obtain ⟨_, -, hmethods⟩ := bind_gives.mp hcheck
  obtain ⟨info, hinfo⟩ := ClassTable.method?_of_listed (hextends.listed m hm name hname)
  exact ⟨info, hinfo, checkStatements_gives (checkMethods_gives hmethods hm hname hinfo)⟩

/-- What holds of every accepted expression and statement holds at every node that is read in the
bodies of an accepted class. -/
theorem everyBody_of_accepted {T : ClassTable} {t c : Ast} (htable : (ClassTable.ofTree t).Gives T)
    (hcheck : (checkClass T t).Gives ()) (hc : t.classTree = .ok c) {p : String → Ast → Bool}
    (hexpr : ∀ name info, T.method? name = some info → ∀ t type,
      (infer (contextOf T name info) t).Gives (some type) → p name t = true)
    (hstatement : ∀ name info, T.method? name = some info → ∀ t,
      (checkStatement (contextOf T name info) t).Gives () → p name t = true) :
    c.everyBody p = true := by
  refine Tree.everyBody_eq_true.mpr fun m hm name hname u hu => ?_
  obtain ⟨info, hinfo, hbody⟩ := body_of_accepted htable hcheck hc hm hname
  exact everywhere_of_accepted rfl (hexpr name info hinfo) (hstatement name info hinfo) (hbody u hu)

end Typing
end ClassCompiler
