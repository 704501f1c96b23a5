import ClassCompiler.Proofs.Class.FirstDeclarations
import ClassCompiler.Proofs.Constant.Replacement
import ClassCompiler.Proofs.Store.Folding

/-!
# What optimizing leaves alone

Optimizing a store redoes a log in it, and the log is that of a chain of rewrites.  So the tree of
the store afterwards is the one before with literals in the place of expressions.  All else is where
it was and what it was, down to the numbers of the nodes.

Declarations are no expressions.  A symbol table that could be read before is therefore read again,
with the same reports: members of a class that are expressions make reading it fail, and those in
the body of a method are passed over, before and after.

* `ofTree_replaced`: the symbol table of a tree in which expressions were replaced.
* `optimize_only_replaces`: what optimizing does to a store.
-/

namespace ClassCompiler

open Constant (Replaced ReplacedBelow Rewrites isReducible)
open List (Forall₂)

/-! ## Declarations -/

variable {first : Nat} {t t' m m' : Ast} {ts ts' : List Ast}

/-- A reading of kinds that finds the same in all expressions that may be replaced, and in
literals. -/
structure Blind {β : Type} (f : Kind → β) (b : β) : Prop where
  identifier : ∀ name, f (.identifier name) = b
  binary : ∀ op, f (.binary op) = b
  negation : f .negation = b
  parenthesis : f .parenthesis = b
  integer : ∀ value, f (.integer value) = b
  boolean : ∀ value, f (.boolean value) = b

theorem Blind.eq_of_replaced {β : Type} {f : Kind → β} {b : β} (hf : Blind f b)
    (h : Replaced first t t') : f t'.kind = f t.kind := by
  cases h with
  | kept n _ => rfl
  | @literal n ts id hk _ value =>
    have hold : f n.kind = b := by
      cases hkind : n.kind with
      | identifier name => exact hf.identifier name
      | binary op => exact hf.binary op
      | negation => exact hf.negation
      | parenthesis => exact hf.parenthesis
      | _ =>
        rw [hkind] at hk
        cases hk
    have hnew : f value.kind = b := by
      cases value with
      | int value => exact hf.integer value
      | bool value => exact hf.boolean value
    exact hnew.trans hold.symm

theorem blind_argumentOf? : Blind argumentOf? none :=
  ⟨fun _ => rfl, fun _ => rfl, rfl, rfl, fun _ => rfl, fun _ => rfl⟩

theorem blind_localOf? : Blind localOf? none :=
  ⟨fun _ => rfl, fun _ => rfl, rfl, rfl, fun _ => rfl, fun _ => rfl⟩

/-- Lists are read tree by tree. -/
theorem Blind.filterMap_replaced {β : Type} {f : Kind → Option β} {b : Option β} (hf : Blind f b)
    (h : Forall₂ (Replaced first) ts ts') :
    (ts'.filterMap fun t => f t.kind) = ts.filterMap fun t => f t.kind := by
  induction h with
  | nil => rfl
  | cons ht _ ih => rw [List.filterMap_cons, List.filterMap_cons, hf.eq_of_replaced ht, ih]

/-- The path of an import declaration. -/
def importOf? : Kind → Option String
  | .importDeclaration path => some (".".intercalate path)
  | _ => none

theorem imports_replaced (h : ReplacedBelow first t t') : t'.imports = t.imports := by
  have hpaths : (t'.children.filterMap fun c => importOf? c.kind) =
      t.children.filterMap fun c => importOf? c.kind :=
    Blind.filterMap_replaced (b := none)
      ⟨fun _ => rfl, fun _ => rfl, rfl, rfl, fun _ => rfl, fun _ => rfl⟩ h.children
  have hkind : t'.kind = t.kind := congrArg (fun n => n.kind) h.label
  have himports : ∀ u : Ast, u.imports =
      if u.kind = .program then u.children.filterMap fun c => importOf? c.kind else [] := by
    intro u
    unfold Tree.imports
    cases u.kind <;> rfl
  rw [himports, himports, hkind, hpaths]

/-- The type of a return type declaration. -/
def returnTypeOfKind? : Kind → Option TypeName
  | .returnType type => some type
  | _ => none

theorem returnType?_replaced (h : Forall₂ (Replaced first) ts ts') :
    Tree.returnType? ts' = Tree.returnType? ts := by
  have hblind : Blind returnTypeOfKind? none :=
    ⟨fun _ => rfl, fun _ => rfl, rfl, rfl, fun _ => rfl, fun _ => rfl⟩
  have hread : ∀ us : List Ast,
      Tree.returnType? us = us.findSome? fun c => returnTypeOfKind? c.kind := fun _ => rfl
  rw [hread, hread]
  induction h with
  | nil => rfl
  | cons ht _ ih => rw [List.findSome?_cons, List.findSome?_cons, hblind.eq_of_replaced ht, ih]

namespace ClassTable

variable {T T' : ClassTable} {ms ms' : List Ast}

/-- A child of a method that declares nothing. -/
theorem declareFrame_other {method : String} {params locs : List Symbol}
    (harg : argumentOf? t.kind = none) (hlocal : localOf? t.kind = none) (ts : List Ast) :
    declareFrame method params locs (t :: ts) = declareFrame method params locs ts := by
  rw [declareFrame]
  cases hk : t.kind with
  | argument name type =>
    rw [hk] at harg
    cases harg
  | localVar name type =>
    rw [hk] at hlocal
    cases hlocal
  | _ => rfl

theorem declareFrame_replaced {method : String} (h : Forall₂ (Replaced first) ts ts')
    (params locs : List Symbol) :
    declareFrame method params locs ts' = declareFrame method params locs ts := by
  induction h generalizing params locs with
  | nil => rfl
  | cons ht _ ih =>
    have harg := blind_argumentOf?.eq_of_replaced ht
    have hlocal := blind_localOf?.eq_of_replaced ht
    cases ht with
    | kept n _ =>
      rw [declareFrame, declareFrame]
      simp only [Tree.kind, Tree.label, ih]
    | @literal n _ id hk _ value =>
      have harg' : argumentOf? (Constant.literal id n value).kind = none := by cases value <;> rfl
      have hlocal' : localOf? (Constant.literal id n value).kind = none := by cases value <;> rfl
      rw [declareFrame_other harg' hlocal', ih]
      exact (declareFrame_other (harg.symm.trans harg') (hlocal.symm.trans hlocal') _).symm

/-- A member that was read is no expression, so it is still there. -/
theorem addMember_replaced (h : Replaced first m m') (hT : (T.addMember m).outcome = .ok T') :
    T.addMember m' = T.addMember m := by
  cases h with
  | kept n hts =>
    simp only [addMember, declareMethod, Tree.kind, Tree.label, Tree.id, Tree.children,
      returnType?_replaced hts, declareFrame_replaced hts]
  | @literal n ts id hk _ value =>
    have hkind : (Tree.node n ts : Ast).kind = n.kind := rfl
    unfold addMember at hT
    cases hn : n.kind with
    | identifier name =>
      simp only [hkind, hn] at hT
      cases hT
    | binary op =>
      simp only [hkind, hn] at hT
      cases hT
    | negation =>
      simp only [hkind, hn] at hT
      cases hT
    | parenthesis =>
      simp only [hkind, hn] at hT
      cases hT
    | _ =>
      rw [hn] at hk
      cases hk

theorem addMembers_replaced (h : Forall₂ (Replaced first) ms ms')
    (hT : (T.addMembers ms).outcome = .ok T') : T.addMembers ms' = T.addMembers ms := by
  induction h generalizing T with
  | nil => rfl
  | cons hm _ ih =>
    rw [addMembers] at hT
    obtain ⟨T₁, hT₁, hrest, -⟩ := Checked.bind_eq_ok hT
    rw [addMembers, addMembers, addMember_replaced hm hT₁, Checked.bind_of_ok hT₁,
      Checked.bind_of_ok hT₁, ih hrest]

end ClassTable

/-- The kind of a class. -/
def isClassKind : Kind → Bool
  | .classDeclaration _ _ => true
  | _ => false

/-- A class stays one, and nothing else becomes one. -/
theorem isClass_replaced (h : Replaced first t t') :
    t'.isClass = t.isClass ∧ (t.isClass = true → ReplacedBelow first t t') := by
  have hblind : Blind isClassKind false :=
    ⟨fun _ => rfl, fun _ => rfl, rfl, rfl, fun _ => rfl, fun _ => rfl⟩
  refine ⟨hblind.eq_of_replaced h, fun hclass => ?_⟩
  cases h with
  | kept n hts => exact ⟨rfl, hts⟩
  | @literal n ts _ hk _ _ =>
    change isClassKind n.kind = true at hclass
    cases hn : n.kind with
    | classDeclaration name superclass =>
      rw [hn] at hk
      cases hk
    | _ =>
      rw [hn] at hclass
      cases hclass

/-- The class of a tree is still its class. -/
theorem classTree_replaced {c : Ast} (h : ReplacedBelow first t t') (hc : t.classTree = .ok c) :
    ∃ c', t'.classTree = .ok c' ∧ ReplacedBelow first c c' := by
  have hroot : t'.isClass = t.isClass := by
    rw [Tree.isClass, Tree.kind, h.label, Tree.isClass, Tree.kind]
  rcases Constant.classTree_eq_ok.mp hc with ⟨hclass, rfl⟩ | ⟨hclass, hfind⟩
  · exact ⟨t', Constant.classTree_eq_ok.mpr (.inl ⟨hroot.trans hclass, rfl⟩), h⟩
  · obtain ⟨c', hfind', hbelow⟩ :=
      Constant.find?_class (h.children.imp fun _ _ => isClass_replaced) hfind
    exact ⟨c', Constant.classTree_eq_ok.mpr (.inr ⟨hroot.trans hclass, hfind'⟩), hbelow⟩

theorem ClassTable.ofTree_replaced {T : ClassTable} (h : ReplacedBelow first t t')
    (hT : (ofTree t).outcome = .ok T) : ofTree t' = ofTree t := by
  obtain ⟨c, hc, -⟩ := Checked.bind_eq_ok hT
  obtain ⟨c', hc', hbelow⟩ := classTree_replaced h hc
  have hkind : c'.kind = c.kind := congrArg (fun n => n.kind) hbelow.label
  rw [ofTree_eq hc] at hT ⊢
  rw [ofTree_eq hc', imports_replaced h, hkind, addMembers_replaced hbelow.children hT]

/-! ## The store -/

namespace Store

variable {s : Store}

/-- **Optimizing only replaces expressions by literals.**  The store still has a tree: that of
before, in which literals with new numbers, at the positions of variables, operations and
parentheses, have taken their places.  All other nodes are as they were, and so is the symbol table
that is read off the tree, with what is reported. -/
theorem optimize_only_replaces (hs : s.Linked) (T : ClassTable) :
    ∃ t t', s.treeAt root = .ok t ∧ (s.optimize T).1.treeAt root = .ok t' ∧
      ReplacedBelow s.size t t' ∧
      ∀ table, (ClassTable.ofTree t).outcome = .ok table →
        ClassTable.ofTree t' = ClassTable.ofTree t := by
  obtain ⟨t, ht⟩ : ∃ t, s.treeAt root = .ok t :=
    treeAt_of_ends hs hs.nonempty (.of_parentless hs.root)
  obtain ⟨hbears, hid⟩ := bears_of_treeAt hs ht
  have hrewrites := Constant.optimize_rewrites T s.size t
  have hbelow : ReplacedBelow s.size t (Constant.optimize T s.size t).tree :=
    Constant.Rewrites.replaced hrewrites
  have hredone := Redone.rewrites (hbears.redone []) hrewrites
  have hoptimize : (s.optimize T).1 = s.redo (Constant.optimize T s.size t).log.edits := by
    rw [optimize, ht]
  have hroot : (Constant.optimize T s.size t).tree.id = root := by
    rw [← hid, Tree.id, hbelow.label, Tree.id]
  refine ⟨t, _, ht, ?_, hbelow, fun table htable => ?_⟩
  · rw [hoptimize, ← hroot]
    exact hredone.bears.treeAt
  · exact ClassTable.ofTree_replaced hbelow htable

/-- A method that computes a sum, stores it in a field and gives back its argument. -/
def sumSource : Source :=
  .classOf "Sum" none [
    .field .int "last",
    .method .int "keep" [.argument .int "a"] [
      .localVar .int "x",
      .assign "x" (.parenthesis (.binary .add (.int 1) (.int 2))),
      .assign "last" (.identifier "x"),
      .returnValue (.parenthesis (.identifier "a"))]]

/-- The sum, its parenthesis and the variable that holds it are replaced. -/
theorem sumSource_only_replaces :
    (ofSource sumSource).Linked ∧ ∃ T, (ClassTable.ofTree (sumSource.number 0)).outcome = .ok T ∧
      ((ofSource sumSource).optimize T).2.2.toOption = some 3 ∧
      ∃ t', ((ofSource sumSource).optimize T).1.treeAt root = .ok t' ∧
        ReplacedBelow (ofSource sumSource).size (sumSource.number 0) t' ∧
        ClassTable.ofTree t' = ClassTable.ofTree (sumSource.number 0) := by
  have hlinked : (ofSource sumSource).Linked := linked_ofSource sumSource
  refine ⟨hlinked, _, rfl, by decide +kernel, ?_⟩
  obtain ⟨t, t', ht, ht', hreplaced, htable⟩ := optimize_only_replaces hlinked _
  obtain rfl : sumSource.number 0 = t := Except.ok.inj ((treeAt_ofSource sumSource).symm.trans ht)
  exact ⟨t', ht', hreplaced, htable _ rfl⟩

end Store
end ClassCompiler
