import Mathlib.Data.List.Forall2
import Mathlib.Data.List.Nodup
import Mathlib.Data.List.Perm.Subperm
import ClassCompiler.Class.Declarations
import ClassCompiler.Tree.Construct

/-!
# The first declaration of every name

A symbol table is read member by member, and a declaration whose name is there already is reported
and dropped.  What the table has in the end can be said without going through the members: the names
that are declared, each where it first stands, with what is declared there.  The names of fields, of
methods, of the parameters of a method and of its locals are kept apart, but for one thing: a local
may not have the name of a parameter.  So the parameters must be known before the locals are read,
and all that is said here of locals is said of methods with their arguments in front.

The entry method has a parameter before its arguments are read.  A method that is dropped was read,
and what is dropped inside it is reported too.

* `FirstOf`: what is kept of declarations, by their names.
* `DeclaredAs`: what a member of a class declares as a method.
* `dropped`: the number of declarations that are dropped in a class.
* `declareFrame_reads`, `addMember_reads`: one method, and one member.
* `ClassTable.ofTree_keeps_first`: the whole table.
-/

namespace ClassCompiler

open List (Forall₂)

/-! ## Lists of declarations -/

/-- What is kept of declarations: the declared names in order, each once, and with each name what is
declared first under it. -/
structure FirstOf {α : Type} (name : α → String) (declared kept : List α) : Prop where
  names : kept.map name = (declared.map name).eraseDups
  first : ∀ a ∈ kept, declared.find? (fun b => name b == name a) = some a
  distinct : (kept.map name).Nodup

namespace FirstOf

variable {α : Type} {name : α → String} {declared kept : List α} {a : α}

theorem nil : FirstOf name [] [] :=
  ⟨rfl, fun _ h => absurd h List.not_mem_nil, .nil⟩

/-- No name is lost. -/
theorem mem_names (h : FirstOf name declared kept) {x : String} :
    x ∈ kept.map name ↔ x ∈ declared.map name := by
  rw [h.names, List.mem_eraseDups]

theorem length_eq (h : FirstOf name declared kept) :
    kept.length = (declared.map name).eraseDups.length := by
  rw [← h.names, List.length_map]

/-- A declaration under a new name is kept. -/
theorem keep (h : FirstOf name declared kept) (hnew : name a ∉ kept.map name) :
    FirstOf name (declared ++ [a]) (kept ++ [a]) := by
  have hnone : name a ∉ declared.map name := fun hmem => hnew (h.mem_names.mpr hmem)
  refine ⟨?_, fun b hb => ?_, ?_⟩
  · rw [List.map_append, List.map_append, List.eraseDups_append, h.names, List.map_singleton,
      List.cons_removeAll, if_pos (by simpa using hnone)]
    rfl
  · rw [List.find?_append]
    rcases List.mem_append.mp hb with hb | hb
    · rw [h.first b hb, Option.some_or]
    · rw [List.mem_singleton.mp hb]
      have hnot : declared.find? (fun b => name b == name a) = none := by
        refine List.find?_eq_none.mpr fun b hb heq => hnone ?_
        exact List.mem_map.mpr ⟨b, hb, eq_of_beq heq⟩
      rw [hnot, Option.none_or, List.find?_singleton, beq_self_eq_true, if_pos rfl]
  · rw [List.map_append, List.map_singleton, List.nodup_append]
    refine ⟨h.distinct, List.nodup_singleton _, fun x hx y hy heq => hnew ?_⟩
    rwa [← List.mem_singleton.mp hy, ← heq]

/-- A declaration under a name that is known is dropped. -/
theorem drop (h : FirstOf name declared kept) (hknown : name a ∈ kept.map name) :
    FirstOf name (declared ++ [a]) kept := by
  refine ⟨?_, fun b hb => ?_, h.distinct⟩
  · rw [List.map_append, List.eraseDups_append, h.names, List.map_singleton, List.cons_removeAll,
      if_neg (by simpa using h.mem_names.mp hknown)]
    exact (List.append_nil _).symm
  · rw [List.find?_append, h.first b hb, Option.some_or]

/-- There is not more than was declared. -/
theorem length_le (h : FirstOf name declared kept) : kept.length ≤ declared.length := by
  have hle := (h.distinct.subperm fun _ hx => h.mem_names.mp hx).length_le
  rwa [List.length_map, List.length_map] at hle

/-- Among what is kept a name belongs to one declaration. -/
theorem find?_eq_some (h : FirstOf name declared kept) :
    a ∈ kept ↔ kept.find? (fun b => name b == name a) = some a := by
  refine ⟨fun ha => ?_, List.mem_of_find?_eq_some⟩
  obtain ⟨b, hb⟩ : ∃ b, kept.find? (fun b => name b == name a) = some b :=
    Option.isSome_iff_exists.mp (List.find?_isSome.mpr ⟨a, ha, beq_self_eq_true _⟩)
  have hname : name b = name a := by
    have := List.find?_some hb
    exact eq_of_beq this
  rw [hb, List.inj_on_of_nodup_map h.distinct (List.mem_of_find?_eq_some hb) ha hname]

end FirstOf

theorem Symbol.find?_isSome {symbols : List Symbol} {name : String} :
    (Symbol.find? symbols name).isSome = true ↔ name ∈ symbols.map Symbol.name := by
  simp [Symbol.find?]

/-! ## What a class declares -/

/-- The field that a member declares. -/
def fieldOf? : Kind → Option Symbol
  | .classField name type => some ⟨name, .ofDeclared type⟩
  | _ => none

/-- The parameter that a child of a method declares. -/
def argumentOf? : Kind → Option Symbol
  | .argument name type => some ⟨name, .ofDeclared type⟩
  | _ => none

/-- The local that a child of a method declares. -/
def localOf? : Kind → Option Symbol
  | .localVar name type => some ⟨name, .ofDeclared type⟩
  | _ => none

/-- The parameter that a method has without an argument of its own. -/
def ownParameters : Kind → List Symbol
  | .entry argument => [⟨argument, .stringArray⟩]
  | _ => []

def declaredArguments (children : List Ast) : List Symbol :=
  children.filterMap fun t => argumentOf? t.kind

def declaredLocals (children : List Ast) : List Symbol :=
  children.filterMap fun t => localOf? t.kind

def declaredFields (members : List Ast) : List Symbol :=
  members.filterMap fun m => fieldOf? m.kind

/-- The members of a class that are methods. -/
def declaredMethods (members : List Ast) : List Ast :=
  members.filter fun m => m.kind.methodName?.isSome

/-- The names of the methods of a class. -/
def declaredNames (members : List Ast) : List String :=
  (declaredMethods members).filterMap fun m => m.kind.methodName?

/-- The parameters of a method, those that are declared again included. -/
def declaredParameters (m : Ast) : List Symbol :=
  ownParameters m.kind ++ declaredArguments m.children

/-- The symbols that are not named like one of the parameters. -/
def unlike (parameters symbols : List Symbol) : List Symbol :=
  symbols.filter fun s => s.name ∉ parameters.map Symbol.name

/-- A method lists its arguments before its locals. -/
def ArgumentsFirst (children : List Ast) : Prop :=
  children.Pairwise fun t u => (localOf? t.kind).isSome → argumentOf? u.kind = none

instance (children : List Ast) : Decidable (ArgumentsFirst children) :=
  inferInstanceAs (Decidable (List.Pairwise _ children))

/-- The type that a method gives back: the entry method gives back nothing. -/
def returnTypeOf? (m : Ast) : Option Ty :=
  match m.kind with
  | .entry _ => some .void
  | _ => (Tree.returnType? m.children).map Ty.ofDeclared

def isEntry : Kind → Bool
  | .entry _ => true
  | _ => false

/-- A method as a member of a class declares it. -/
structure DeclaredAs (m : Ast) (info : MethodInfo) : Prop where
  name : m.kind.methodName? = some info.name
  returnType : returnTypeOf? m = some info.returnType
  isStatic : info.isStatic = isEntry m.kind
  parameters : FirstOf Symbol.name (declaredParameters m) info.parameters
  locals : FirstOf Symbol.name (unlike (declaredParameters m) (declaredLocals m.children))
    info.locals
  distinct : ((info.parameters ++ info.locals).map Symbol.name).Nodup

/-- How often a name stands in a list that stands there before. -/
def repeats (names : List String) : Nat :=
  names.length - names.eraseDups.length

/-- The number of declarations that are dropped inside a method: parameters that are repeated, and
all locals but the first of each name that no parameter has. -/
def droppedInside (m : Ast) : Nat :=
  repeats ((declaredParameters m).map Symbol.name) +
    ((declaredLocals m.children).length -
      ((unlike (declaredParameters m) (declaredLocals m.children)).map
        Symbol.name).eraseDups.length)

/-- The number of declarations that are dropped inside methods. -/
def droppedInsideAll : List Ast → Nat
  | [] => 0
  | m :: ms => droppedInside m + droppedInsideAll ms

/-- The number of declarations that are dropped in a class, also inside the methods that are. -/
def dropped (members : List Ast) : Nat :=
  repeats ((declaredFields members).map Symbol.name) +
    repeats (declaredNames members) +
    droppedInsideAll (declaredMethods members)

/-! ## One method -/

namespace Checked

/-- The parts of a computation that comes to a value. -/
theorem bind_eq_ok {α β : Type} {x : Checked α} {f : α → Checked β} {b : β}
    (h : (x >>= f).outcome = .ok b) :
    ∃ a, x.outcome = .ok a ∧ (f a).outcome = .ok b ∧
      (x >>= f).diagnostics = x.diagnostics ++ (f a).diagnostics := by
  obtain ⟨ds, e | a⟩ := x
  · cases h
  · exact ⟨a, rfl, h, rfl⟩

theorem bind_of_ok {α β : Type} {x : Checked α} {f : α → Checked β} {a : α}
    (h : x.outcome = .ok a) :
    x >>= f = ⟨x.diagnostics ++ (f a).diagnostics, (f a).outcome⟩ := by
  obtain ⟨ds, outcome⟩ := x
  cases h
  rfl

end Checked

theorem unlike_concat_of_mem {P L : List Symbol} {s : Symbol} (h : s.name ∈ P.map Symbol.name) :
    unlike P (L ++ [s]) = unlike P L := by
  rw [unlike, List.filter_append, List.filter_cons_of_neg (by simpa using h), List.filter_nil,
    List.append_nil, unlike]

theorem unlike_concat_of_not_mem {P L : List Symbol} {s : Symbol}
    (h : s.name ∉ P.map Symbol.name) : unlike P (L ++ [s]) = unlike P L ++ [s] := by
  rw [unlike, List.filter_append, List.filter_cons_of_pos (by simpa using h), List.filter_nil,
    unlike]

/-- A name that a local has is none of a parameter. -/
theorem not_mem_of_mem_unlike {P L : List Symbol} {x : String}
    (h : x ∈ (unlike P L).map Symbol.name) : x ∉ P.map Symbol.name := by
  obtain ⟨s, hs, rfl⟩ := List.mem_map.mp h
  simpa using (List.mem_filter.mp hs).2

theorem declaredArguments_cons (t : Ast) (ts : List Ast) :
    declaredArguments (t :: ts) = (argumentOf? t.kind).toList ++ declaredArguments ts := by
  rw [declaredArguments, List.filterMap_cons, declaredArguments]
  cases argumentOf? t.kind <;> rfl

theorem declaredLocals_cons (t : Ast) (ts : List Ast) :
    declaredLocals (t :: ts) = (localOf? t.kind).toList ++ declaredLocals ts := by
  rw [declaredLocals, List.filterMap_cons, declaredLocals]
  cases localOf? t.kind <;> rfl

/-- What was read of a method: the parameters and the locals that are kept of those declared so far.
What is not kept was reported. -/
structure FrameRead (P L : List Symbol) (reports : Nat) (params locs : List Symbol) : Prop where
  parameters : FirstOf Symbol.name P params
  locals : FirstOf Symbol.name (unlike P L) locs
  count : reports + params.length + locs.length = P.length + L.length

namespace FrameRead

variable {P L params locs : List Symbol} {s : Symbol} {k : Nat}

theorem parameter_repeated (h : FrameRead P [] k params locs)
    (hknown : s.name ∈ params.map Symbol.name) : FrameRead (P ++ [s]) [] (k + 1) params locs := by
  have hcount := h.count
  refine ⟨h.parameters.drop hknown, h.locals, ?_⟩
  rw [List.length_append, List.length_singleton]
  omega

theorem parameter_new (h : FrameRead P [] k params locs) (hnew : s.name ∉ params.map Symbol.name) :
    FrameRead (P ++ [s]) [] k (params ++ [s]) locs := by
  have hcount := h.count
  refine ⟨h.parameters.keep hnew, h.locals, ?_⟩
  rw [List.length_append, List.length_append]
  omega

theorem local_repeated (h : FrameRead P L k params locs)
    (hknown : s.name ∈ locs.map Symbol.name) : FrameRead P (L ++ [s]) (k + 1) params locs := by
  have hcount := h.count
  refine ⟨h.parameters, ?_, ?_⟩
  · rw [unlike_concat_of_not_mem (not_mem_of_mem_unlike (h.locals.mem_names.mp hknown))]
    exact h.locals.drop hknown
  · rw [List.length_append, List.length_singleton]
    omega

theorem local_like_parameter (h : FrameRead P L k params locs)
    (hlike : s.name ∈ params.map Symbol.name) : FrameRead P (L ++ [s]) (k + 1) params locs := by
  have hcount := h.count
  refine ⟨h.parameters, ?_, ?_⟩
  · rw [unlike_concat_of_mem (h.parameters.mem_names.mp hlike)]
    exact h.locals
  · rw [List.length_append, List.length_singleton]
    omega

theorem local_new (h : FrameRead P L k params locs) (hunlike : s.name ∉ params.map Symbol.name)
    (hnew : s.name ∉ locs.map Symbol.name) : FrameRead P (L ++ [s]) k params (locs ++ [s]) := by
  have hcount := h.count
  refine ⟨h.parameters, ?_, ?_⟩
  · rw [unlike_concat_of_not_mem fun hmem => hunlike (h.parameters.mem_names.mpr hmem)]
    exact h.locals.keep hnew
  · rw [List.length_append, List.length_append]
    omega

/-- No name is both of a parameter and of a local. -/
theorem distinct (h : FrameRead P L k params locs) :
    ((params ++ locs).map Symbol.name).Nodup := by
  rw [List.map_append, List.nodup_append]
  refine ⟨h.parameters.distinct, h.locals.distinct, fun x hx y hy hxy => ?_⟩
  exact not_mem_of_mem_unlike (h.locals.mem_names.mp hy) (h.parameters.mem_names.mp (hxy ▸ hx))

/-- The reports of a method that is read are what is dropped in it. -/
theorem reports_eq {m : Ast}
    (h : FrameRead (declaredParameters m) (declaredLocals m.children) k params locs) :
    k = droppedInside m := by
  have hparams := h.parameters.length_le
  have hlocs := h.locals.length_le
  have hunlike := List.length_filter_le (fun s => s.name ∉ (declaredParameters m).map Symbol.name)
    (declaredLocals m.children)
  have hcount := h.count
  rw [droppedInside, repeats, ← h.parameters.length_eq, ← h.locals.length_eq, List.length_map]
  unfold unlike at hlocs
  omega

end FrameRead

theorem frameRead_ownParameters (kind : Kind) :
    FrameRead (ownParameters kind) [] 0 (ownParameters kind) [] := by
  refine ⟨?_, .nil, by simp⟩
  cases kind with
  | entry argument => exact FirstOf.nil.keep List.not_mem_nil
  | _ => exact .nil

/-- A computation comes to what is kept of a method, after a number of reports. -/
def FrameReads (P L : List Symbol) (reports : Nat) (x : Checked (List Symbol × List Symbol)) :
    Prop :=
  ∃ params locs, x.outcome = .ok (params, locs) ∧
    FrameRead P L (reports + x.diagnostics.length) params locs

theorem FrameReads.report {P L : List Symbol} {k : Nat} {x : Checked (List Symbol × List Symbol)}
    (h : FrameReads P L (k + 1) x) (n : Numbered) (problem : Problem) :
    FrameReads P L k (Checked.report n problem >>= fun _ => x) := by
  obtain ⟨params, locs, houtcome, hread⟩ := h
  refine ⟨params, locs, houtcome, ?_⟩
  rwa [Nat.add_assoc, Nat.add_comm 1] at hread

namespace ClassTable

variable {m : Ast} {ts : List Ast} {P L params locs : List Symbol} {k : Nat}

/-- **The children of a method are read.**  Every declaration among them is kept or reported. -/
theorem declareFrame_reads (method : String) (h : FrameRead P L k params locs)
    (hts : ArgumentsFirst ts) (hlater : L = [] ∨ declaredArguments ts = []) :
    FrameReads (P ++ declaredArguments ts) (L ++ declaredLocals ts) k
      (declareFrame method params locs ts) := by
  induction ts generalizing P L k params locs with
  | nil =>
    have hargs : declaredArguments [] = [] := rfl
    have hlocals : declaredLocals [] = [] := rfl
    rw [hargs, hlocals, List.append_nil, List.append_nil]
    exact ⟨params, locs, rfl, h⟩
  | cons t ts ih =>
    obtain ⟨hbehind, hts⟩ := List.pairwise_cons.mp hts
    have hlater' : L ++ (localOf? t.kind).toList = [] ∨ declaredArguments ts = [] := by
      cases hlocal : localOf? t.kind with
      | none =>
        rw [declaredArguments_cons, List.append_eq_nil_iff] at hlater
        exact hlater.imp (by simp) And.right
      | some s =>
        exact .inr (List.filterMap_eq_nil_iff.mpr fun u hu => hbehind u hu (by simp [hlocal]))
    rw [declaredArguments_cons] at hlater ⊢
    rw [declaredLocals_cons, ← List.append_assoc, ← List.append_assoc, declareFrame]
    cases hk : t.kind with
    | argument name type =>
      rw [hk] at hlater hlater'
      obtain rfl : L = [] := hlater.resolve_right (List.cons_ne_nil _ _)
      dsimp only
      split
      · rename_i hknown
        exact .report (ih (h.parameter_repeated (Symbol.find?_isSome.mp hknown)) hts hlater') _ _
      · rename_i hnew
        exact ih (h.parameter_new (mt Symbol.find?_isSome.mpr hnew)) hts hlater'
    | localVar name type =>
      rw [hk] at hlater'
      have hP : P ++ (argumentOf? (.localVar name type)).toList = P := List.append_nil P
      rw [hP]
      dsimp only
      split
      · rename_i hknown
        exact .report (ih (h.local_repeated (Symbol.find?_isSome.mp hknown)) hts hlater') _ _
      · rename_i hunknown
        split
        · rename_i hlike
          exact .report (ih (h.local_like_parameter (Symbol.find?_isSome.mp hlike)) hts hlater') _ _
        · rename_i hunlike
          exact ih (h.local_new (mt Symbol.find?_isSome.mpr hunlike)
            (mt Symbol.find?_isSome.mpr hunknown)) hts hlater'
    | _ =>
      rw [hk] at hlater'
      simp only [argumentOf?, localOf?, Option.toList_none, List.append_nil] at hlater' ⊢
      exact ih h hts hlater'

/-- **A method is read.** -/
theorem declareMethod_reads {name : String} {returnType : Ty} (hargs : ArgumentsFirst m.children)
    (hname : m.kind.methodName? = some name) (hreturns : returnTypeOf? m = some returnType) :
    ∃ info, DeclaredAs m info ∧ ∃ ds, ds.length = droppedInside m ∧
      declareMethod name returnType (isEntry m.kind) (ownParameters m.kind) m.children =
        ⟨ds, .ok info⟩ := by
  obtain ⟨params, locs, houtcome, hread⟩ :=
    declareFrame_reads name (frameRead_ownParameters m.kind) hargs (.inl rfl)
  rw [List.nil_append, Nat.zero_add] at hread
  refine ⟨⟨name, returnType, params, locs, isEntry m.kind⟩,
    ⟨hname, hreturns, rfl, hread.parameters, hread.locals, hread.distinct⟩, _,
    hread.reports_eq, ?_⟩
  rw [declareMethod, Checked.bind_of_ok houtcome]
  exact congrArg (Checked.mk · _) (List.append_nil _)

end ClassTable

/-! ## The members of a class -/

theorem droppedInsideAll_concat (ms : List Ast) (m : Ast) :
    droppedInsideAll (ms ++ [m]) = droppedInsideAll ms + droppedInside m := by
  induction ms with
  | nil => exact Nat.add_comm _ _
  | cons u ms ih =>
    rw [List.cons_append, droppedInsideAll, droppedInsideAll, ih]
    omega

/-- What was read of a class: the fields and the methods that are kept of those declared so far.
What is not kept was reported, and so was what is dropped inside the methods. -/
structure TableRead (members : List Ast) (reports : Nat) (T : ClassTable) : Prop where
  fields : FirstOf Symbol.name (declaredFields members) T.fields
  methods : ∃ infos, Forall₂ DeclaredAs (declaredMethods members) infos ∧
    FirstOf MethodInfo.name infos T.methods
  count : reports + T.fields.length + T.methods.length =
    (declaredFields members).length + (declaredMethods members).length +
      droppedInsideAll (declaredMethods members)

namespace ClassTable

variable {T T' : ClassTable} {m : Ast} {ms : List Ast} {k : Nat} {n : Numbered}

theorem method?_isSome {name : String} :
    (T.method? name).isSome = true ↔ name ∈ T.methods.map MethodInfo.name := by
  simp [method?]

theorem addField_reads {name : String} {type : TypeName} (h : TableRead ms k T)
    (hm : m.kind = .classField name type) (hT' : (T.addField n name type).outcome = .ok T') :
    TableRead (ms ++ [m]) (k + (T.addField n name type).diagnostics.length) T' := by
  have hfields : declaredFields (ms ++ [m]) = declaredFields ms ++ [⟨name, .ofDeclared type⟩] := by
    simp [declaredFields, hm, fieldOf?]
  have hmethods : declaredMethods (ms ++ [m]) = declaredMethods ms := by
    simp [declaredMethods, hm, Kind.methodName?]
  have hcount := h.count
  unfold addField at hT' ⊢
  split at hT'
  · rename_i hknown
    obtain rfl := Except.ok.inj hT'
    rw [if_pos hknown]
    refine ⟨?_, hmethods ▸ h.methods, ?_⟩
    · rw [hfields]
      exact h.fields.drop (Symbol.find?_isSome.mp hknown)
    · rw [hfields, hmethods, List.length_append]
      change k + 1 + _ + _ = _
      rw [List.length_singleton]
      omega
  · rename_i hnew
    obtain rfl := Except.ok.inj hT'
    rw [if_neg hnew]
    refine ⟨?_, hmethods ▸ h.methods, ?_⟩
    · rw [hfields]
      exact h.fields.keep (mt Symbol.find?_isSome.mpr hnew)
    · change k + 0 + (T.fields ++ [_]).length + T.methods.length = _
      rw [hfields, hmethods, List.length_append, List.length_append]
      omega

theorem addMethod_reads {info : MethodInfo} (h : TableRead ms k T) (hinfo : DeclaredAs m info)
    (hT' : (T.addMethod n info).outcome = .ok T') :
    TableRead (ms ++ [m]) (k + droppedInside m + (T.addMethod n info).diagnostics.length) T' := by
  have hfield : fieldOf? m.kind = none := by
    have hname := hinfo.name
    cases hk : m.kind with
    | classField name type =>
      rw [hk] at hname
      cases hname
    | _ => rfl
  have hfields : declaredFields (ms ++ [m]) = declaredFields ms := by
    simp [declaredFields, hfield]
  have hmethods : declaredMethods (ms ++ [m]) = declaredMethods ms ++ [m] := by
    simp [declaredMethods, hinfo.name]
  obtain ⟨infos, hinfos, hkept⟩ := h.methods
  have hinfos' : Forall₂ DeclaredAs (declaredMethods (ms ++ [m])) (infos ++ [info]) := by
    rw [hmethods]
    exact List.rel_append hinfos (.cons hinfo .nil)
  have hcount := h.count
  unfold addMethod at hT' ⊢
  split at hT'
  · rename_i hknown
    obtain rfl := Except.ok.inj hT'
    rw [if_pos hknown]
    refine ⟨hfields ▸ h.fields, ⟨_, hinfos', hkept.drop (method?_isSome.mp hknown)⟩, ?_⟩
    rw [hfields, hmethods, List.length_append, droppedInsideAll_concat]
    change k + droppedInside m + 1 + _ + _ = _
    rw [List.length_singleton]
    omega
  · rename_i hnew
    obtain rfl := Except.ok.inj hT'
    rw [if_neg hnew]
    refine ⟨hfields ▸ h.fields, ⟨_, hinfos', hkept.keep (mt method?_isSome.mpr hnew)⟩, ?_⟩
    change k + droppedInside m + 0 + T.fields.length + (T.methods ++ [info]).length = _
    rw [hfields, hmethods, List.length_append, List.length_append, droppedInsideAll_concat,
      List.length_singleton, List.length_singleton]
    omega

/-- **A member is read.** -/
theorem addMember_reads (h : TableRead ms k T) (hargs : ArgumentsFirst m.children)
    (hT' : (T.addMember m).outcome = .ok T') :
    TableRead (ms ++ [m]) (k + (T.addMember m).diagnostics.length) T' := by
  -- a member that declares a method is read as one, and then kept or reported
  have hmethod {name : String} {returnType : Ty} (hname : m.kind.methodName? = some name)
      (hreturns : returnTypeOf? m = some returnType)
      (hmember : T.addMember m = declareMethod name returnType (isEntry m.kind)
        (ownParameters m.kind) m.children >>= T.addMethod m.label) :
      TableRead (ms ++ [m]) (k + (T.addMember m).diagnostics.length) T' := by
    obtain ⟨info, hinfo, ds, hds, hdeclared⟩ := declareMethod_reads hargs hname hreturns
    rw [hdeclared] at hmember
    rw [hmember] at hT' ⊢
    change TableRead _ (k + (ds ++ _).length) _
    rw [List.length_append, hds, ← Nat.add_assoc]
    exact addMethod_reads h hinfo hT'
  cases hk : m.kind with
  | classField name type =>
    have hmember : T.addMember m = T.addField m.label name type := by simp only [addMember, hk]
    rw [hmember] at hT' ⊢
    exact addField_reads h hk hT'
  | method name isPublic =>
    cases htype : Tree.returnType? m.children with
    | none =>
      simp only [addMember, hk, htype] at hT'
      cases hT'
    | some type =>
      refine @hmethod name (.ofDeclared type) ?_ ?_ ?_
      · rw [hk]
        rfl
      · simp only [returnTypeOf?, hk, htype, Option.map_some]
      · simp only [addMember, hk, htype]
        rfl
  | entry argument =>
    refine @hmethod Kind.entryName .void ?_ ?_ ?_
    · rw [hk]
      rfl
    · simp only [returnTypeOf?, hk]
    · simp only [addMember, hk]
      rfl
  | _ =>
    simp only [addMember, hk] at hT'
    cases hT'

/-- **All members are read.** -/
theorem addMembers_reads {more : List Ast} (h : TableRead ms k T)
    (hargs : ∀ m ∈ more, ArgumentsFirst m.children) (hT' : (T.addMembers more).outcome = .ok T') :
    TableRead (ms ++ more) (k + (T.addMembers more).diagnostics.length) T' := by
  induction more generalizing ms k T with
  | nil =>
    obtain rfl := Except.ok.inj hT'
    rw [List.append_nil]
    exact h
  | cons m more ih =>
    rw [addMembers] at hT' ⊢
    obtain ⟨T₁, hT₁, hrest, hds⟩ := Checked.bind_eq_ok hT'
    have hread := addMember_reads h (hargs m List.mem_cons_self) hT₁
    rw [hds, List.length_append, ← Nat.add_assoc, List.append_cons]
    exact ih hread (fun u hu => hargs u (List.mem_cons_of_mem m hu)) hrest

end ClassTable

/-! ## The whole table -/

/-- A table keeps the first declarations of a class: fields and methods stand in it in the order of
their declaration, with what is declared first under their names. -/
structure FirstDeclarations (members : List Ast) (T : ClassTable) : Prop where
  fields : FirstOf Symbol.name (declaredFields members) T.fields
  methodNames : T.methods.map MethodInfo.name = (declaredNames members).eraseDups
  methods : ∀ info ∈ T.methods, ∃ m,
    (declaredMethods members).find? (fun m => m.kind.methodName? == some info.name) = some m ∧
      DeclaredAs m info
  distinct : (T.methods.map MethodInfo.name).Nodup
  /-- The methods that are listed are those that are found under their names. -/
  found : ∀ info, info ∈ T.methods ↔ T.method? info.name = some info

/-- What members declare as methods has their names. -/
theorem names_of_declaredAs {ms : List Ast} {infos : List MethodInfo}
    (h : Forall₂ DeclaredAs ms infos) :
    infos.map MethodInfo.name = ms.filterMap fun m => m.kind.methodName? := by
  induction h with
  | nil => rfl
  | cons hinfo _ ih => simp only [List.map_cons, List.filterMap_cons, hinfo.name, ih]

/-- What is declared first under a name comes from the first member of that name. -/
theorem find?_of_declaredAs {ms : List Ast} {infos : List MethodInfo} {name : String}
    {info : MethodInfo} (h : Forall₂ DeclaredAs ms infos)
    (hfirst : infos.find? (fun info => info.name == name) = some info) :
    ∃ m, ms.find? (fun m => m.kind.methodName? == some name) = some m ∧ DeclaredAs m info := by
  induction h with
  | nil => cases hfirst
  | @cons m declared ms infos hm _ ih =>
    rw [List.find?_cons] at hfirst ⊢
    have hsame : (m.kind.methodName? == some name) = (declared.name == name) := by
      rw [hm.name]
      rfl
    rw [hsame]
    cases hname : declared.name == name with
    | true =>
      rw [hname] at hfirst
      exact ⟨m, rfl, Option.some.inj hfirst ▸ hm⟩
    | false =>
      rw [hname] at hfirst
      exact ih hfirst

namespace TableRead

variable {members : List Ast} {k : Nat} {T : ClassTable}

theorem firstDeclarations (h : TableRead members k T) : FirstDeclarations members T := by
  obtain ⟨infos, hinfos, hkept⟩ := h.methods
  refine ⟨h.fields, ?_, fun info hinfo => ?_, hkept.distinct, fun info => hkept.find?_eq_some⟩
  · rw [hkept.names, names_of_declaredAs hinfos, declaredNames]
  · exact find?_of_declaredAs hinfos (hkept.first info hinfo)

theorem reports_eq (h : TableRead members k T) : k = dropped members := by
  obtain ⟨infos, hinfos, hkept⟩ := h.methods
  have hfields := h.fields.length_le
  have hmethods := hkept.length_le
  have hcount := h.count
  rw [dropped, repeats, repeats, declaredNames, ← names_of_declaredAs hinfos, ← h.fields.length_eq,
    ← hkept.length_eq, List.length_map, List.length_map]
  rw [hinfos.length_eq] at hcount
  omega

end TableRead

theorem ClassTable.ofTree_eq {t c : Ast} (hc : t.classTree = .ok c) :
    ofTree t = (ofHeader t.imports c.kind).addMembers c.children := by
  rw [ofTree, hc]
  rfl

/-- **The symbol table keeps the first declarations**: of a class whose methods list their arguments
before their locals, every name is in the table once, where and as it is declared first, and the
number of reports is that of the declarations that are dropped. -/
theorem ClassTable.ofTree_keeps_first {t c : Ast} {T : ClassTable} (hc : t.classTree = .ok c)
    (hargs : ∀ m ∈ c.children, ArgumentsFirst m.children) (hT : (ofTree t).outcome = .ok T) :
    FirstDeclarations c.children T ∧
      (ofTree t).diagnostics.length = dropped c.children := by
  have hheader : TableRead [] 0 (ofHeader t.imports c.kind) := by
    unfold ofHeader
    split
    all_goals exact ⟨.nil, ⟨[], .nil, .nil⟩, rfl⟩
  rw [ofTree_eq hc] at hT ⊢
  have hread := addMembers_reads hheader hargs hT
  rw [Nat.zero_add] at hread
  exact ⟨hread.firstDeclarations, hread.reports_eq⟩

/-- A class with a field, a method, parameters and locals that are declared twice, and with locals
that are named like parameters. -/
def twiceClass : Source :=
  .classOf "Twice" none [
    .field .int "total",
    .method .int "add" [.argument .int "a", .argument .boolean "a"]
      [.localVar .int "sum", .localVar .boolean "sum", .localVar .int "a"],
    .field .boolean "total",
    .entry [.localVar .int "args", .localVar .int "sum"],
    .method .boolean "add" [.argument .int "b", .argument .int "b"] []]

theorem twiceClass_keeps_first :
    (∀ m ∈ (twiceClass.number 0).children, ArgumentsFirst m.children) ∧
      dropped (twiceClass.number 0).children = 7 ∧
      ∃ T, (ClassTable.ofTree (twiceClass.number 0)).outcome = .ok T ∧
        FirstDeclarations (twiceClass.number 0).children T ∧
        (ClassTable.ofTree (twiceClass.number 0)).diagnostics.length =
          dropped (twiceClass.number 0).children :=
  ⟨by decide, by decide, _, rfl, ClassTable.ofTree_keeps_first rfl (by decide) rfl⟩

end ClassCompiler
