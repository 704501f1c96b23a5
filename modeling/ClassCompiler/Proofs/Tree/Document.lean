import ClassCompiler.Proofs.Json.RoundTrip
import ClassCompiler.Proofs.Tree.Induction
import ClassCompiler.Tree.Document

/-!
# Documents are read back

Writing a tree as a document and reading it gives the tree back, if it is one that a document can
describe: the coordinates of its nodes fit 64 bits, and attributes stand in the order of their names.
Every tree that was read is such a tree, and its document nests no deeper than the one that it was
read from, however that was spelled.

* `readKind_payload`: the kind of a node is read back from its members.
* `ofValue_toValue`: a tree is read back from its value.
* `proper_of_ofValue`: what is known of a tree that was read.
* `read_write`: a tree that was read is read back from its document.
-/

namespace ClassCompiler

open Json (Value Number anyNumber)

/-! ## Attributes -/

namespace Attributes

/-- The names increase. -/
def Sorted (attributes : Attributes) : Prop :=
  attributes.Pairwise fun a b => a.1 < b.1

theorem insert_of_forall_lt {name value : String} {attributes : Attributes}
    (h : ∀ a ∈ attributes, a.1 < name) :
    Attributes.insert name value attributes = attributes ++ [(name, value)] := by
  induction attributes with
  | nil => rfl
  | cons a rest ih =>
    obtain ⟨hfirst, hrest⟩ := List.forall_mem_cons.mp h
    have hne : name ≠ a.1 := by
      rintro rfl
      exact String.lt_irrefl _ hfirst
    rw [Attributes.insert, if_neg (String.lt_asymm hfirst), if_neg hne, ih hrest, List.cons_append]

theorem mem_insert {name value : String} {attributes : Attributes} {a : String × String}
    (h : a ∈ Attributes.insert name value attributes) : a.1 = name ∨ a ∈ attributes := by
  induction attributes with
  | nil => exact .inl (congrArg Prod.fst (List.mem_singleton.mp h))
  | cons b rest ih =>
    rw [Attributes.insert] at h
    split at h
    · rcases List.mem_cons.mp h with rfl | h
      · exact .inl rfl
      · exact .inr h
    · split at h
      · rcases List.mem_cons.mp h with rfl | h
        · exact .inl rfl
        · exact .inr (List.mem_cons_of_mem b h)
      · rcases List.mem_cons.mp h with rfl | h
        · exact .inr List.mem_cons_self
        · exact (ih h).imp_right (List.mem_cons_of_mem b)

theorem Sorted.insert {attributes : Attributes} (h : attributes.Sorted) (name value : String) :
    Sorted (Attributes.insert name value attributes) := by
  induction attributes with
  | nil => exact List.pairwise_singleton _ _
  | cons a rest ih =>
    obtain ⟨hfirst, hrest⟩ := List.pairwise_cons.mp h
    rw [Attributes.insert]
    split
    · next hlt =>
      refine List.pairwise_cons.mpr ⟨List.forall_mem_cons.mpr ⟨hlt, fun b hb => ?_⟩, h⟩
      exact String.lt_trans hlt (hfirst b hb)
    · next hnot =>
      split
      · next heq => exact List.pairwise_cons.mpr ⟨fun b hb => heq ▸ hfirst b hb, hrest⟩
      · next hne =>
        refine List.pairwise_cons.mpr ⟨fun b hb => ?_, ih hrest⟩
        rcases mem_insert hb with hname | hb
        · rw [hname]
          exact String.not_le.mp fun hle => hne (String.le_antisymm hle (String.not_lt.mp hnot))
        · exact hfirst b hb

end Attributes

namespace Document

/-- Attributes that stand in order are read back. -/
theorem readAttributes_map {soFar attributes : Attributes}
    (h : Attributes.Sorted (soFar ++ attributes)) :
    readAttributes soFar (attributes.map fun a => (a.1, .string a.2)) =
      some (soFar ++ attributes) := by
  induction attributes generalizing soFar with
  | nil => rw [List.append_nil]; rfl
  | cons a rest ih =>
    have hbefore : ∀ b ∈ soFar, b.1 < a.1 :=
      fun b hb => (List.pairwise_append.mp h).2.2 b hb a List.mem_cons_self
    rw [List.append_cons] at h ⊢
    rw [List.map_cons, readAttributes]
    show (readAttributes (Attributes.insert a.1 a.2 soFar) _) = _
    rw [Attributes.insert_of_forall_lt hbefore]
    exact ih h

theorem sorted_of_readAttributes {members : Members} :
    ∀ {soFar attributes : Attributes}, readAttributes soFar members = some attributes →
      soFar.Sorted → attributes.Sorted := by
  induction members with
  | nil =>
    intro soFar attributes h hsorted
    cases Option.some.inj h
    exact hsorted
  | cons m members ih =>
    intro soFar attributes h hsorted
    obtain ⟨value, -, h⟩ := Option.bind_eq_some_iff.mp h
    exact ih h (hsorted.insert m.1 value)

/-! ## Members -/

/-- The names of the members that belong to kinds. -/
def payloadNames : List String :=
  ["path", "name", "extends", "ty", "isPublic", "argName", "op", "method", "class", "value"]

theorem mem_payloadNames {k : Kind} {m : String × Value} (h : m ∈ payload k) :
    m.1 ∈ payloadNames := by
  have hall : ∀ m ∈ payload k, m.1 ∈ payloadNames := by
    cases k <;> simp [payload, payloadNames]
  exact hall m h

/-- The members of a name. -/
def named (name : String) (members : Members) : Members :=
  members.filter fun m => m.1 == name

theorem optional_congr {members members' : Members} {name : String}
    (h : named name members = named name members') :
    optional members name = optional members' name := by
  unfold optional
  rw [show (members.filter fun m => m.1 == name) = _ from h]
  rfl

theorem named_append (name : String) (members members' : Members) :
    named name (members ++ members') = named name members ++ named name members' :=
  List.filter_append ..

theorem named_of_forall_ne {name : String} {members : Members} (h : ∀ m ∈ members, m.1 ≠ name) :
    named name members = [] :=
  List.filter_eq_nil_iff.mpr fun m hm => by simpa using h m hm

theorem named_payload {name : String} {k : Kind} (h : name ∉ payloadNames) :
    named name (payload k) = [] := by
  refine named_of_forall_ne fun m hm heq => h ?_
  rw [← heq]
  exact mem_payloadNames hm

/-- What stands behind the members of the kind. -/
def footer (n : Node) (children : List Value) : Members :=
  (if children.isEmpty then [] else [("children", .array children)])
    ++ [("line", .nat n.position.line), ("col", .nat n.position.column)]
    ++ (if n.attributes.isEmpty then []
        else [("attrs", .object (n.attributes.map fun a => (a.1, .string a.2)))])

theorem nodeMembers_eq (n : Node) (children : List Value) :
    nodeMembers n children =
      ("kind", .string n.kind.name) :: (payload n.kind ++ footer n children) := by
  simp only [nodeMembers, footer, List.cons_append, List.append_assoc]

theorem named_kind_cons {name : String} (h : name ≠ "kind") (v : Value) (members : Members) :
    named name (("kind", v) :: members) = named name members :=
  List.filter_cons_of_neg (by simpa using h.symm)

theorem mem_footer {n : Node} {children : List Value} {m : String × Value}
    (h : m ∈ footer n children) :
    (children ≠ [] ∧ m = ("children", .array children)) ∨ m = ("line", .nat n.position.line) ∨
      m = ("col", .nat n.position.column) ∨
      (n.attributes ≠ [] ∧
        m = ("attrs", .object (n.attributes.map fun a => (a.1, .string a.2)))) := by
  unfold footer at h
  simp only [List.mem_append, List.mem_cons, List.not_mem_nil, or_false] at h
  rcases h with (h | hline | hcolumn) | h
  · split at h
    · exact absurd h List.not_mem_nil
    · next hne => exact .inl ⟨fun heq => hne (List.isEmpty_iff.mpr heq), List.mem_singleton.mp h⟩
  · exact .inr (.inl hline)
  · exact .inr (.inr (.inl hcolumn))
  · split at h
    · exact absurd h List.not_mem_nil
    · next hne =>
      exact .inr (.inr (.inr
        ⟨fun heq => hne (List.isEmpty_iff.mpr heq), List.mem_singleton.mp h⟩))

theorem name_mem_of_mem_footer {n : Node} {children : List Value} {m : String × Value}
    (h : m ∈ footer n children) : m.1 ∈ ["children", "line", "col", "attrs"] := by
  rcases mem_footer h with ⟨-, rfl⟩ | rfl | rfl | ⟨-, rfl⟩
  · exact .head _
  · exact .tail _ (.head _)
  · exact .tail _ (.tail _ (.head _))
  · exact .tail _ (.tail _ (.tail _ (.head _)))

/-- The members of the kind are found among all. -/
theorem optional_of_mem_payloadNames {name : String} (h : name ∈ payloadNames) (n : Node)
    (children : List Value) :
    optional (nodeMembers n children) name = optional (payload n.kind) name := by
  have hapart : ∀ other ∈ ["kind", "children", "line", "col", "attrs"], other ∉ payloadNames := by
    simp [payloadNames]
  have hfooter : named name (footer n children) = [] := by
    refine named_of_forall_ne fun m hm heq => ?_
    exact hapart m.1 (List.mem_cons_of_mem _ (name_mem_of_mem_footer hm)) (heq ▸ h)
  have hkind : name ≠ "kind" := by
    rintro rfl
    exact hapart "kind" List.mem_cons_self h
  refine optional_congr ?_
  rw [nodeMembers_eq, named_kind_cons hkind, named_append, hfooter, List.append_nil]

/-- The other members are found among all. -/
theorem optional_of_not_mem_payloadNames {name : String} (h : name ∉ payloadNames)
    (hkind : name ≠ "kind") (n : Node) (children : List Value) :
    optional (nodeMembers n children) name = optional (footer n children) name := by
  refine optional_congr ?_
  rw [nodeMembers_eq, named_kind_cons hkind, named_append, named_payload h, List.nil_append]

theorem optional_kind (n : Node) (children : List Value) :
    optional (nodeMembers n children) "kind" = some (some (.string n.kind.name)) := by
  have hrest : named "kind" (payload n.kind ++ footer n children) = [] := by
    rw [named_append, named_payload (by simp [payloadNames]), List.nil_append]
    refine named_of_forall_ne fun m hm heq => ?_
    exact absurd (heq ▸ name_mem_of_mem_footer hm) (by simp)
  have hall : named "kind" (nodeMembers n children) =
      named "kind" [("kind", .string n.kind.name)] := by
    rw [nodeMembers_eq, ← List.singleton_append, named_append, hrest, List.append_nil]
  rw [optional_congr hall]
  rfl

theorem readKind_congr {name : String} {members members' : Members}
    (h : ∀ other ∈ payloadNames, optional members other = optional members' other) :
    readKind name members = readKind name members' := by
  have hpath := h "path" (by simp [payloadNames])
  have hname := h "name" (by simp [payloadNames])
  have hextends := h "extends" (by simp [payloadNames])
  have hty := h "ty" (by simp [payloadNames])
  have hisPublic := h "isPublic" (by simp [payloadNames])
  have hargName := h "argName" (by simp [payloadNames])
  have hop := h "op" (by simp [payloadNames])
  have hmethod := h "method" (by simp [payloadNames])
  have hclass := h "class" (by simp [payloadNames])
  have hvalue := h "value" (by simp [payloadNames])
  unfold readKind
  simp only [textOf, typeOf, required, hpath, hname, hextends, hty, hisPublic, hargName, hop,
    hmethod, hclass, hvalue]

theorem readAll_map_string (texts : List String) :
    readAll Value.string? (texts.map Value.string) = some texts := by
  induction texts with
  | nil => rfl
  | cons text texts ih =>
    rw [List.map_cons, readAll, ih]
    rfl

theorem integerIn_int {low high n : Int} (hlow : low ≤ n) (hhigh : n ≤ high) :
    integerIn low high (.int n) = some n :=
  if_pos ⟨hlow, hhigh⟩

/-- The kind of a node is read back from its members. -/
theorem readKind_payload (k : Kind) : readKind k.name (payload k) = some k := by
  cases k with
  | importDeclaration path =>
    show ((readAll Value.string? (path.map Value.string)).bind _) = _
    rw [readAll_map_string]
    rfl
  | classDeclaration name superclass => cases superclass <;> rfl
  | binary op => cases op <;> rfl
  | boolean value => cases value <;> rfl
  | integer value =>
    have hvalue : integerIn (-2147483648) 2147483647 (.int value.toInt) = some value.toInt :=
      integerIn_int (Int32.le_toInt value) (Int.le_of_lt_add_one (Int32.toInt_lt value))
    show (integerIn (-2147483648) 2147483647 (.int value.toInt)).bind _ = _
    rw [hvalue, Option.bind_some, Int32.ofInt_toInt]
  | _ => rfl

theorem kindOf_nodeMembers (n : Node) (children : List Value) :
    kindOf (nodeMembers n children) = some n.kind := by
  have hkind : required (nodeMembers n children) "kind" = some (.string n.kind.name) := by
    rw [required, optional_kind]
    rfl
  have hread : readKind n.kind.name (nodeMembers n children) = some n.kind := by
    rw [← readKind_payload n.kind]
    exact readKind_congr fun other hother => optional_of_mem_payloadNames hother n children
  rw [kindOf, hkind]
  exact hread

/-! ## Nodes -/

/-- A node that a document can describe. -/
structure Proper (n : Node) : Prop where
  line : n.position.line < 18446744073709551616
  column : n.position.column < 18446744073709551616
  attributes : n.attributes.Sorted

theorem coordinate_eq {members : Members} {name : String} {n : Nat}
    (h : optional members name = some (some (.nat n))) (hn : n < 18446744073709551616) :
    coordinate members name = some n := by
  rw [coordinate, h]
  show (integerIn 0 18446744073709551615 (.int n)).bind _ = _
  rw [integerIn_int (by omega) (by omega)]
  rfl

/-- What is found among the members behind those of the kind. -/
theorem optional_footer (n : Node) (children : List Value) :
    optional (footer n children) "children" =
        some (if children.isEmpty then none else some (.array children)) ∧
      optional (footer n children) "line" = some (some (.nat n.position.line)) ∧
      optional (footer n children) "col" = some (some (.nat n.position.column)) ∧
      optional (footer n children) "attrs" =
        some (if n.attributes.isEmpty then none
          else some (.object (n.attributes.map fun a => (a.1, .string a.2)))) := by
  obtain ⟨kind, position, attributes⟩ := n
  cases children <;> cases attributes <;> exact ⟨rfl, rfl, rfl, rfl⟩

theorem readNode_nodeMembers {n : Node} (h : Proper n) (children : List Value) :
    readNode (nodeMembers n children) = some n := by
  obtain ⟨hchildren, hline, hcolumn, hattributes⟩ := optional_footer n children
  have hfooter : ∀ {name}, name ∉ payloadNames → name ≠ "kind" →
      optional (nodeMembers n children) name = optional (footer n children) name :=
    fun hname hkind => optional_of_not_mem_payloadNames hname hkind n children
  rw [← hfooter (by simp [payloadNames]) (by simp)] at hchildren hline hcolumn hattributes
  have hline := coordinate_eq hline h.line
  have hcolumn := coordinate_eq hcolumn h.column
  simp only [readNode, kindOf_nodeMembers, hchildren, hline, hcolumn, hattributes,
    Option.bind_eq_bind, Option.bind_some]
  obtain ⟨kind, position, attributes⟩ := n
  cases attributes with
  | nil => rfl
  | cons a rest =>
    have hread : readAttributes [] ((a :: rest).map fun a => (a.1, .string a.2)) =
        some (a :: rest) := readAttributes_map h.attributes
    show (readAttributes [] _).bind _ = _
    rw [hread]
    rfl

theorem childrenOf_cons {name : String} (h : name ≠ "children") (v : Value) (members : Members) :
    childrenOf ((name, v) :: members) = childrenOf members := by
  rw [childrenOf.eq_def]
  exact if_neg h

theorem childrenOf_append {before after : Members} (h : ∀ m ∈ before, m.1 ≠ "children") :
    childrenOf (before ++ after) = childrenOf after := by
  induction before with
  | nil => rfl
  | cons m before ih =>
    obtain ⟨hfirst, hrest⟩ := List.forall_mem_cons.mp h
    rw [List.cons_append, childrenOf_cons hfirst, ih hrest]

theorem childrenOf_nodeMembers (n : Node) (children : List Value) :
    childrenOf (nodeMembers n children) = ofValues children := by
  have hbefore : ∀ m ∈ ("kind", Value.string n.kind.name) :: payload n.kind,
      m.1 ≠ "children" := by
    refine List.forall_mem_cons.mpr ⟨by simp, fun m hm heq => ?_⟩
    exact absurd (heq ▸ mem_payloadNames hm) (by simp [payloadNames])
  rw [nodeMembers_eq, ← List.cons_append, childrenOf_append hbefore]
  obtain ⟨kind, position, attributes⟩ := n
  cases children <;> cases attributes <;> rfl

/-! ## Trees -/

theorem toValues_eq_map (ts : List Source) : toValues ts = ts.map toValue := by
  induction ts with
  | nil => rfl
  | cons t ts ih => rw [toValues, ih, List.map_cons]

theorem ofValues_map {ts : List Source} (h : ∀ t ∈ ts, ofValue (toValue t) = some t) :
    ofValues (ts.map toValue) = some ts := by
  induction ts with
  | nil => rfl
  | cons t ts ih =>
    obtain ⟨hfirst, hrest⟩ := List.forall_mem_cons.mp h
    rw [List.map_cons, ofValues, hfirst, ih hrest]
    rfl

/-- A tree is read back from its value. -/
theorem ofValue_toValue (t : Source) (h : ∀ n ∈ t.preorder, Proper n) :
    ofValue (toValue t) = some t := by
  induction t using Tree.induction with
  | node n ts ih =>
    rw [Tree.preorder, Tree.preorderAll_eq_flatMap] at h
    obtain ⟨hn, hts⟩ := List.forall_mem_cons.mp h
    have hchildren : ofValues (ts.map toValue) = some ts :=
      ofValues_map fun t ht => ih t ht fun m hm => hts m (List.mem_flatMap.mpr ⟨t, ht, hm⟩)
    rw [toValue, toValues_eq_map, ofValue, readNode_nodeMembers hn, childrenOf_nodeMembers,
      hchildren]
    rfl

/-! ## What is known of a tree that was read -/

theorem one_le_of_array {P : Number → Prop} {d : Nat} {items : List Value}
    (h : (Value.array items).Within P d) : 1 ≤ d := by
  cases h
  exact Nat.succ_pos _

theorem one_le_of_object {P : Number → Prop} {d : Nat} {members : Members}
    (h : (Value.object members).Within P d) : 1 ≤ d := by
  cases h
  exact Nat.succ_pos _

/-- The kinds whose members are no arrays or objects. -/
def isFlat : Kind → Bool
  | .importDeclaration _ | .classField _ _ | .argument _ _ | .localVar _ _ | .returnType _ => false
  | _ => true

theorem within_typeValue (type : TypeName) {d : Nat} (h : 1 ≤ d) :
    (typeValue type).Within Number.Small d := by
  obtain ⟨d, rfl⟩ := Nat.exists_eq_add_of_le' h
  refine .object fun m hm => ?_
  rcases List.mem_cons.mp hm with rfl | hm
  · exact .string _
  · cases List.mem_singleton.mp hm
    exact .bool _

theorem within_int {n : Int} {d : Nat} (h : n.natAbs < 18446744073709551616) :
    (Value.int n).Within Number.Small d :=
  .number h

theorem within_payload {k : Kind} {d : Nat} (h : isFlat k = true ∨ 1 ≤ d) :
    ∀ m ∈ payload k, m.2.Within Number.Small d := by
  have hd : isFlat k = false → 1 ≤ d :=
    fun hk => h.resolve_left (by rw [hk]; exact Bool.false_ne_true)
  cases k with
  | importDeclaration path =>
    refine List.forall_mem_singleton.mpr ?_
    obtain ⟨d, rfl⟩ := Nat.exists_eq_add_of_le' (hd rfl)
    refine .array fun v hv => ?_
    obtain ⟨text, -, rfl⟩ := List.mem_map.mp hv
    exact .string text
  | classDeclaration name superclass =>
    refine List.forall_mem_cons.mpr ⟨.string name, List.forall_mem_singleton.mpr ?_⟩
    cases superclass with
    | none => exact .null
    | some superclass => exact .string superclass
  | classField name type | argument name type | localVar name type =>
    exact List.forall_mem_cons.mpr
      ⟨.string name, List.forall_mem_singleton.mpr (within_typeValue type (hd rfl))⟩
  | returnType type => exact List.forall_mem_singleton.mpr (within_typeValue type (hd rfl))
  | method name isPublic =>
    exact List.forall_mem_cons.mpr ⟨.string name, List.forall_mem_singleton.mpr (.bool isPublic)⟩
  | integer value =>
    have hlow := Int32.le_toInt value
    have hhigh := Int32.toInt_lt value
    exact List.forall_mem_singleton.mpr (within_int (by omega))
  | entry | assignment | arrayAssignment | binary | invocation | newObject | identifier | string
  | className => exact List.forall_mem_singleton.mpr (.string _)
  | _ => exact fun m hm => absurd hm List.not_mem_nil

variable {members : Members} {d : Nat}

theorem within_of_optional {name : String} {v : Value}
    (hmembers : ∀ m ∈ members, m.2.Within anyNumber d) (h : optional members name = some (some v)) :
    v.Within anyNumber d := by
  unfold optional at h
  split at h
  · cases h
  · next m hm =>
    cases Option.some.inj (Option.some.inj h)
    refine hmembers m (List.mem_of_mem_filter (p := fun m => m.1 == name) ?_)
    rw [hm]
    exact List.mem_singleton.mpr rfl
  · cases h

theorem within_of_required {name : String} {v : Value}
    (hmembers : ∀ m ∈ members, m.2.Within anyNumber d) (h : required members name = some v) :
    v.Within anyNumber d := by
  obtain ⟨found, hfound, rfl⟩ := Option.bind_eq_some_iff.mp h
  exact within_of_optional hmembers hfound

theorem one_le_of_typeOf {type : TypeName} (hmembers : ∀ m ∈ members, m.2.Within anyNumber d)
    (h : typeOf members = some type) : 1 ≤ d := by
  obtain ⟨v, hv, htype⟩ := Option.bind_eq_some_iff.mp h
  have hwithin := within_of_required hmembers hv
  unfold readType at htype
  split at htype
  · exact one_le_of_object hwithin
  · exact one_le_of_array hwithin
  · exact one_le_of_array hwithin
  · cases htype

theorem one_le_of_items? {v : Value} {items : List Value} (hv : v.Within anyNumber d)
    (h : v.items? = some items) : 1 ≤ d := by
  unfold Value.items? at h
  split at h
  · exact one_le_of_array hv
  · cases h

theorem one_le_of_members? {v : Value} {members : Members} (hv : v.Within anyNumber d)
    (h : v.members? = some members) : 1 ≤ d := by
  unfold Value.members? at h
  split at h
  · exact one_le_of_object hv
  · cases h

/-- A kind with an array or an object is read from members that have one. -/
theorem isFlat_of_readKind {name : String} {k : Kind}
    (hmembers : ∀ m ∈ members, m.2.Within anyNumber d) (h : readKind name members = some k) :
    isFlat k = true ∨ 1 ≤ d := by
  unfold readKind at h
  -- One case for each of `kindNames`, in that order.
  split at h
  -- A path is an array, and a declared type is an array or an object.
  case h_2 =>
    obtain ⟨v, hv, h⟩ := Option.bind_eq_some_iff.mp h
    obtain ⟨items, hitems, -⟩ := Option.bind_eq_some_iff.mp h
    exact .inr (one_le_of_items? (within_of_required hmembers hv) hitems)
  case h_4 | h_7 | h_8 =>
    obtain ⟨_, -, h⟩ := Option.bind_eq_some_iff.mp h
    obtain ⟨_, htype, -⟩ := Option.bind_eq_some_iff.mp h
    exact .inr (one_le_of_typeOf hmembers htype)
  case h_9 =>
    obtain ⟨_, htype, -⟩ := Option.bind_eq_some_iff.mp h
    exact .inr (one_le_of_typeOf hmembers htype)
  -- The other kinds are flat, whatever their members say.
  case h_3 =>
    obtain ⟨_, -, h⟩ := Option.bind_eq_some_iff.mp h
    obtain ⟨_, -, h⟩ := Option.bind_eq_some_iff.mp h
    split at h
    · cases Option.some.inj h; exact .inl rfl
    · cases Option.some.inj h; exact .inl rfl
    · cases Option.some.inj h; exact .inl rfl
    · cases h
  case h_5 =>
    obtain ⟨_, -, h⟩ := Option.bind_eq_some_iff.mp h
    obtain ⟨found, -, h⟩ := Option.bind_eq_some_iff.mp h
    cases found with
    | none => cases Option.some.inj h; exact .inl rfl
    | some v =>
      obtain ⟨_, -, h⟩ := Option.bind_eq_some_iff.mp h
      cases Option.some.inj h; exact .inl rfl
  case h_6 =>
    obtain ⟨found, -, h⟩ := Option.bind_eq_some_iff.mp h
    cases found with
    | none => cases Option.some.inj h; exact .inl rfl
    | some v =>
      obtain ⟨_, -, h⟩ := Option.bind_eq_some_iff.mp h
      cases Option.some.inj h; exact .inl rfl
  case h_20 | h_28 =>
    obtain ⟨_, -, h⟩ := Option.bind_eq_some_iff.mp h
    obtain ⟨_, -, h⟩ := Option.bind_eq_some_iff.mp h
    cases Option.some.inj h; exact .inl rfl
  all_goals first
    | cases Option.some.inj h; exact .inl rfl
    | obtain ⟨_, -, h⟩ := Option.bind_eq_some_iff.mp h
      cases Option.some.inj h
      exact .inl rfl
    | cases h

theorem lt_of_coordinate {name : String} {n : Nat} (h : coordinate members name = some n) :
    n < 18446744073709551616 := by
  obtain ⟨found, -, h⟩ := Option.bind_eq_some_iff.mp h
  cases found with
  | none =>
    cases Option.some.inj h
    exact Nat.zero_lt_succ _
  | some v =>
    obtain ⟨m, hm, h⟩ := Option.bind_eq_some_iff.mp h
    obtain ⟨m', -, hrange⟩ := Option.bind_eq_some_iff.mp hm
    split at hrange
    · next hbounds =>
      cases Option.some.inj hrange
      cases Option.some.inj h
      omega
    · cases hrange

/-- A node that a document describes whose members nest no deeper. -/
structure Fits (d : Nat) (n : Node) : Prop extends Proper n where
  kind : isFlat n.kind = true ∨ 1 ≤ d
  depth : n.attributes = [] ∨ 1 ≤ d

theorem fits_of_readNode {n : Node} (hmembers : ∀ m ∈ members, m.2.Within anyNumber d)
    (h : readNode members = some n) : Fits d n := by
  obtain ⟨kind, hkind, h⟩ := Option.bind_eq_some_iff.mp h
  obtain ⟨_, -, h⟩ := Option.bind_eq_some_iff.mp h
  obtain ⟨line, hline, h⟩ := Option.bind_eq_some_iff.mp h
  obtain ⟨column, hcolumn, h⟩ := Option.bind_eq_some_iff.mp h
  obtain ⟨found, hfound, h⟩ := Option.bind_eq_some_iff.mp h
  obtain ⟨_, -, hkind⟩ := Option.bind_eq_some_iff.mp hkind
  obtain ⟨_, -, hkind⟩ := Option.bind_eq_some_iff.mp hkind
  have hflat := isFlat_of_readKind hmembers hkind
  have hline := lt_of_coordinate hline
  have hcolumn := lt_of_coordinate hcolumn
  cases found with
  | none =>
    cases Option.some.inj h
    exact ⟨⟨hline, hcolumn, List.Pairwise.nil⟩, hflat, .inl rfl⟩
  | some v =>
    obtain ⟨named, hnamed, h⟩ := Option.bind_eq_some_iff.mp h
    obtain ⟨attributes, hattributes, h⟩ := Option.bind_eq_some_iff.mp h
    cases Option.some.inj h
    have hsorted := sorted_of_readAttributes hattributes List.Pairwise.nil
    have hdepth := one_le_of_members? (within_of_optional hmembers hfound) hnamed
    exact ⟨⟨hline, hcolumn, hsorted⟩, hflat, .inr hdepth⟩

theorem exists_of_ofValues {items : List Value} :
    ∀ {ts : List Source}, ofValues items = some ts → ∀ t ∈ ts, ∃ v ∈ items, ofValue v = some t := by
  induction items with
  | nil =>
    intro ts h t ht
    cases Option.some.inj h
    exact absurd ht List.not_mem_nil
  | cons v items ih =>
    intro ts h t ht
    obtain ⟨first, hfirst, h⟩ := Option.bind_eq_some_iff.mp h
    obtain ⟨rest, hrest, h⟩ := Option.bind_eq_some_iff.mp h
    cases Option.some.inj h
    rcases List.mem_cons.mp ht with rfl | ht
    · exact ⟨v, List.mem_cons_self, hfirst⟩
    · obtain ⟨w, hw, ht⟩ := ih hrest t ht
      exact ⟨w, List.mem_cons_of_mem v hw, ht⟩

theorem exists_of_childrenOf {ts : List Source} (h : childrenOf members = some ts) :
    ts = [] ∨ ∃ items, ("children", Value.array items) ∈ members ∧ ofValues items = some ts := by
  induction members with
  | nil => exact .inl (Option.some.inj h).symm
  | cons m members ih =>
    obtain ⟨name, v⟩ := m
    by_cases hname : name = "children"
    · subst hname
      rw [childrenOf.eq_def] at h
      replace h := (if_pos rfl).symm.trans h
      split at h
      · exact .inr ⟨_, List.mem_cons_self, h⟩
      · cases h
    · rw [childrenOf_cons hname] at h
      refine (ih h).imp_right fun hitems => ?_
      obtain ⟨items, hmem, hitems⟩ := hitems
      exact ⟨items, List.mem_cons_of_mem _ hmem, hitems⟩

theorem within_nodeMembers {n : Node} {children : List Value} (hn : Fits d n)
    (hchildren : children = [] ∨ (Value.array children).Within Number.Small d) :
    (Value.object (nodeMembers n children)).Within Number.Small (d + 1) := by
  refine .object fun m hm => ?_
  rw [nodeMembers_eq] at hm
  rcases List.mem_cons.mp hm with rfl | hm
  · exact .string _
  rcases List.mem_append.mp hm with hm | hm
  · exact within_payload hn.kind m hm
  rcases mem_footer hm with ⟨hne, rfl⟩ | rfl | rfl | ⟨hne, rfl⟩
  · exact hchildren.resolve_left hne
  · exact within_int hn.line
  · exact within_int hn.column
  · obtain ⟨d, rfl⟩ := Nat.exists_eq_add_of_le' (hn.depth.resolve_left hne)
    refine .object fun a ha => ?_
    obtain ⟨_, -, rfl⟩ := List.mem_map.mp ha
    exact .string _

/-- What is known of a tree that was read: a document can describe its nodes, and it nests no deeper
than what it was read from. -/
theorem proper_of_ofValue {v : Value} (hv : v.Within anyNumber d) {t : Source}
    (h : ofValue v = some t) :
    (∀ n ∈ t.preorder, Proper n) ∧ (toValue t).Within Number.Small d := by
  induction d using Nat.strong_induction_on generalizing v t with
  | h d ih =>
    cases hv with
    | @object d members hmembers =>
      obtain ⟨n, hn, h⟩ := Option.bind_eq_some_iff.mp h
      obtain ⟨ts, hts, h⟩ := Option.bind_eq_some_iff.mp h
      cases Option.some.inj h
      have hn := fits_of_readNode hmembers hn
      rw [Tree.preorder, Tree.preorderAll_eq_flatMap, toValue, toValues_eq_map]
      rcases exists_of_childrenOf hts with rfl | ⟨items, hitems, hts⟩
      · exact ⟨List.forall_mem_singleton.mpr hn.toProper, within_nodeMembers hn (.inl rfl)⟩
      · -- The children stand two levels below: the array that holds them is a level of its own.
        have hall := hmembers _ hitems
        cases hall with
        | @array d _ hall =>
          have hchild : ∀ t ∈ ts, (∀ n ∈ t.preorder, Proper n) ∧
              (toValue t).Within Number.Small d := by
            intro t ht
            obtain ⟨w, hw, ht⟩ := exists_of_ofValues hts t ht
            exact ih d (by omega) (hall w hw) ht
          refine ⟨List.forall_mem_cons.mpr ⟨hn.toProper, fun m hm => ?_⟩,
            within_nodeMembers hn (.inr (.array fun w hw => ?_))⟩
          · obtain ⟨t, ht, hm⟩ := List.mem_flatMap.mp hm
            exact (hchild t ht).1 m hm
          · obtain ⟨t, ht, rfl⟩ := List.mem_map.mp hw
            exact (hchild t ht).2
    | _ => cases h

theorem read_eq_ok {text : String} {t : Source} :
    read text = .ok t ↔ ∃ v, Json.read maxDepth text = some v ∧ ofValue v = some t := by
  rw [← Option.bind_eq_some_iff]
  unfold read
  split
  · next heq => rw [heq, Except.ok.injEq, Option.some.injEq]
  · next heq => simp [heq]

/-- **A tree that was read is read back from its document**, which nests no deeper than documents
may. -/
theorem read_write {text : String} {t : Source} (h : read text = .ok t) :
    read (write t) = .ok t ∧ (toValue t).Within Number.Small maxDepth := by
  obtain ⟨v, hv, ht⟩ := read_eq_ok.mp h
  obtain ⟨hproper, hwithin⟩ := proper_of_ofValue (Json.within_of_read hv) ht
  refine ⟨read_eq_ok.mpr ⟨toValue t, ?_, ofValue_toValue t hproper⟩, hwithin⟩
  exact Json.read_prettyText hwithin

end Document
end ClassCompiler
