import ClassCompiler.Machine.ClassText
import ClassCompiler.Proofs.Machine.Layout
import ClassCompiler.Proofs.Machine.Slots
import ClassCompiler.ThreeAddress.Liveness
import Mathlib.Data.Finset.Card

/-!
# What can be emitted

To emit a method fails for four reasons.  An instruction may want something that the machine does
not have: a class where a value is pushed, a member of what is no object, a class that has no path.
A variable may have no slot, or there may be too many of them.  A label may be set twice, and a jump
may lead nowhere.

Here each reason is told apart from the others.  What an instruction wants does not depend on slots
(`selectable`); the number of slots is a number of names (`slotsNeeded`); and code in which
variables are assigned before they are read, and in which jumps stay inside, gives no other cause to
fail.

* `selectable`, `select_isOk`: instructions.
* `slotsNeeded`, `allocate_isOk`: slots.
* `IsClosed`, `methodLines_isOk`: methods.
* `classText_isOk`: classes.
-/

namespace ClassCompiler

/-- A class that has a path. -/
def ClassTable.hasPath (T : ClassTable) (name : String) : Bool :=
  name == T.className || T.isImport name || name == "String" || T.isSuperclass name

namespace Machine

open ThreeAddress
open Meaning (except_bind_eq_ok)

/-! ## Results without an error -/

/-- There is a result. -/
def IsOk {α : Type} (x : Except Error α) : Prop :=
  ∃ a, x = .ok a

section

variable {α β : Type} {x : Except Error α} {g : α → Except Error β} {P : Prop}

@[simp] theorem isOk_ok (a : α) : IsOk (.ok a : Except Error α) :=
  ⟨a, rfl⟩

@[simp] theorem isOk_pure (a : α) : IsOk (pure a : Except Error α) :=
  ⟨a, rfl⟩

@[simp] theorem not_isOk_error (e : Error) : ¬ IsOk (.error e : Except Error α) :=
  fun h => nomatch h

theorem isOk_bind : IsOk (x >>= g) ↔ ∃ a, x = .ok a ∧ IsOk (g a) := by
  constructor
  · rintro ⟨b, hb⟩
    obtain ⟨a, ha, hb⟩ := except_bind_eq_ok.mp hb
    exact ⟨a, ha, b, hb⟩
  · rintro ⟨a, ha, b, hb⟩
    exact ⟨b, except_bind_eq_ok.mpr ⟨a, ha, hb⟩⟩

/-- What comes later has a result under a condition that does not depend on the first one. -/
theorem isOk_bind_iff (h : ∀ a, x = .ok a → (IsOk (g a) ↔ P)) :
    IsOk (x >>= g) ↔ IsOk x ∧ P := by
  rw [isOk_bind]
  constructor
  · rintro ⟨a, ha, hg⟩
    exact ⟨⟨a, ha⟩, (h a ha).mp hg⟩
  · rintro ⟨⟨a, ha⟩, hP⟩
    exact ⟨a, ha, (h a ha).mpr hP⟩

/-- What comes later always has a result. -/
theorem isOk_bind_of (h : ∀ a, IsOk (g a)) : IsOk (x >>= g) ↔ IsOk x := by
  rw [isOk_bind_iff (P := True) fun a _ => iff_true_intro (h a)]
  exact and_iff_left trivial

end

variable {T : ClassTable} {F : Frame}

/-! ## Classes and types -/

theorem qualify_isOk {name : String} : IsOk (qualify T name) ↔ T.hasPath name = true := by
  unfold qualify ClassTable.hasPath ClassTable.isImport
  by_cases hown : name = T.className
  · simp [hown]
  · cases himport : T.importPath? name with
    | some path => simp [hown]
    | none =>
      by_cases hstring : name = "String"
      · subst hstring
        simp [hown]
      · cases hsuper : T.isSuperclass name <;> simp [hown, hstring]

/-- A type that the machine has a descriptor for. -/
def describes (T : ClassTable) : ValueType → Bool
  | .object name => T.hasPath name
  | _ => true

theorem descriptorOf_isOk {type : ValueType} :
    IsOk (descriptorOf T type) ↔ describes T type = true := by
  cases type with
  | object name =>
    rw [descriptorOf, isOk_bind_of fun _ => isOk_pure _, qualify_isOk]
    rfl
  | _ => simp [descriptorOf, describes]

theorem descriptorsOf_isOk {types : List ValueType} :
    IsOk (descriptorsOf T types) ↔ types.all (describes T) = true := by
  induction types with
  | nil => simp [descriptorsOf]
  | cons type types ih =>
    rw [descriptorsOf, isOk_bind_iff fun _ _ => (isOk_bind_of fun _ => isOk_pure _).trans ih,
      descriptorOf_isOk, List.all_cons, Bool.and_eq_true]

theorem signatureOf_isOk {params : List ValueType} {result : ValueType} :
    IsOk (signatureOf T params result) ↔
      params.all (describes T) = true ∧ describes T result = true := by
  rw [signatureOf, isOk_bind_iff fun _ _ =>
    (isOk_bind_of fun _ => isOk_pure _).trans descriptorOf_isOk, descriptorsOf_isOk]

/-- A type whose values have members. -/
def hasMembers (T : ClassTable) : ValueType → Bool
  | .object name => T.hasPath name
  | _ => false

theorem ownerPath_isOk {o : Operand} : IsOk (ownerPath T o) ↔ hasMembers T o.type = true := by
  unfold ownerPath
  cases o.type with
  | object name => exact qualify_isOk
  | _ => simp [hasMembers]

/-! ## Instructions -/

/-- An operand that can be pushed: no class, and no receiver where there is none. -/
def isPushed (isStatic : Bool) : Operand → Bool
  | .this _ => !isStatic
  | .classRef _ => false
  | _ => true

/-- A target that a call of its kind can have. -/
def selectableTarget (T : ClassTable) (isStatic : Bool) (c : Call) : Bool :=
  match c.kind, c.target with
  | .static, .classRef name => T.hasPath name
  | .static, _ => false
  | .virtual, target => isPushed isStatic target && hasMembers T target.type

/-- A call whose parts can be selected. -/
def selectableCall (T : ClassTable) (isStatic : Bool) (c : Call) : Bool :=
  selectableTarget T isStatic c && c.params.length == c.args.length &&
    c.args.all (isPushed isStatic) && c.params.all (describes T) && describes T c.result

/-- A right-hand side whose parts can be selected. -/
def selectableRhs (T : ClassTable) (isStatic : Bool) : Rhs → Bool
  | .operand value => isPushed isStatic value
  | .binary _ left right => isPushed isStatic left && isPushed isStatic right
  | .not value => isPushed isStatic value
  | .call c => selectableCall T isStatic c
  | .getField object field =>
    isPushed isStatic object && hasMembers T object.type && describes T field.type
  | .arrayLength array => isPushed isStatic array
  | .arrayLoad _ index => isPushed isStatic index
  | .newObject name => T.hasPath name
  | .newArray length => isPushed isStatic length

/-- An instruction whose parts can be selected. -/
def selectable (T : ClassTable) (isStatic : Bool) : Instr → Bool
  | .assign _ rhs => selectableRhs T isStatic rhs
  | .arrayStore _ index value => isPushed isStatic index && isPushed isStatic value
  | .call c => selectableCall T isStatic c
  | .putField object field value =>
    isPushed isStatic object && isPushed isStatic value && hasMembers T object.type &&
      describes T field.type
  | .ret (some value) => isPushed isStatic value
  | .branch cond _ _ => isPushed isStatic cond
  | .ret none | .jump _ | .label _ | .noop _ => true

/-- Every name has a slot. -/
def Frame.Covers (F : Frame) (names : List String) : Prop :=
  ∀ x ∈ names, (F.slots.get? x).isSome = true

theorem Frame.Covers.mono {names names' : List String} (h : F.Covers names)
    (hsub : ∀ x ∈ names', x ∈ names) : F.Covers names' :=
  fun x hx => h x (hsub x hx)

theorem Frame.slot_isOk {v : Var} (h : (F.slots.get? v.name).isSome = true) : IsOk (F.slot v) := by
  obtain ⟨s, hs⟩ := Option.isSome_iff_exists.mp h
  unfold Frame.slot
  rw [hs]
  exact isOk_ok s.index

theorem push_isOk {o : Operand} (h : F.Covers o.uses) :
    IsOk (push F o) ↔ isPushed F.method.isStatic o = true := by
  cases o with
  | int _ | bool _ | string _ => simp [push, isPushed]
  | var v =>
    have hslot : IsOk (F.slot v) := Frame.slot_isOk (h v.name List.mem_cons_self)
    rw [push, isOk_bind_of fun _ => isOk_pure _]
    simp [hslot, isPushed]
  | this name => cases hstatic : F.method.isStatic <;> simp [push, isPushed, hstatic, Frame.fault]
  | classRef name => simp [push, isPushed, Frame.fault]

theorem pushAll_isOk {os : List Operand} (h : F.Covers (os.flatMap Operand.uses)) :
    IsOk (pushAll F os) ↔ os.all (isPushed F.method.isStatic) = true := by
  induction os with
  | nil => simp [pushAll]
  | cons o os ih =>
    have hrest := ih (h.mono fun x hx => by
      simp only [List.flatMap_cons, List.mem_append, hx, or_true])
    rw [pushAll, isOk_bind_iff fun _ _ => (isOk_bind_of fun _ => isOk_pure _).trans hrest,
      push_isOk (h.mono fun x hx => by simp only [List.flatMap_cons, List.mem_append, hx, true_or]),
      List.all_cons, Bool.and_eq_true]

theorem selectTarget_isOk {c : Call} (h : F.Covers c.target.uses) :
    IsOk (selectTarget T F c) ↔ selectableTarget T F.method.isStatic c = true := by
  obtain ⟨kind, target, method, args, params, result⟩ := c
  cases kind with
  | static =>
    cases target with
    | classRef name =>
      rw [selectTarget, isOk_bind_of fun _ => isOk_pure _]
      exact qualify_isOk
    | _ => exact iff_of_false (not_isOk_error _) (by simp [selectableTarget])
  | virtual =>
    rw [selectTarget, isOk_bind_iff fun _ _ => (isOk_bind_of fun _ => isOk_pure _).trans
      ownerPath_isOk, push_isOk h, selectableTarget, Bool.and_eq_true]

theorem selectCall_isOk {c : Call} (h : F.Covers c.uses) :
    IsOk (selectCall T F c) ↔ selectableCall T F.method.isStatic c = true := by
  have htarget : F.Covers c.target.uses := h.mono fun _ hx => List.mem_append_left _ hx
  have hargs : F.Covers (c.args.flatMap Operand.uses) :=
    h.mono fun _ hx => List.mem_append_right _ hx
  have hrest (target : List Op) (kind : InvokeKind) (owner : String) :
      IsOk (if c.params.length ≠ c.args.length then
          F.fault (.argumentCount c.method c.args.length c.params.length)
        else do
          let args ← pushAll F c.args
          let signature ← signatureOf T c.params c.result
          return target ++ args ++ [.invoke kind owner c.method signature]) ↔
        c.params.length = c.args.length ∧ c.args.all (isPushed F.method.isStatic) = true ∧
          c.params.all (describes T) = true ∧ describes T c.result = true := by
    split
    · rename_i hlength
      exact iff_of_false (not_isOk_error _) fun hall => hlength hall.1
    · rename_i hlength
      rw [isOk_bind_iff fun _ _ => (isOk_bind_of fun _ => isOk_pure _).trans signatureOf_isOk,
        pushAll_isOk hargs]
      exact (and_iff_right (Decidable.not_not.mp hlength)).symm
  rw [selectCall, isOk_bind_iff fun r _ => hrest r.1 r.2.1 r.2.2, selectTarget_isOk htarget,
    selectableCall]
  simp only [Bool.and_eq_true, beq_iff_eq, and_assoc]

theorem selectRhs_isOk {k : Nat} {rhs : Rhs} (h : F.Covers rhs.uses) :
    IsOk (selectRhs T F k rhs) ↔ selectableRhs T F.method.isStatic rhs = true := by
  cases rhs with
  | operand o | not o | arrayLength o | newArray o =>
    rw [selectRhs, isOk_bind_of fun _ => isOk_pure _]
    exact push_isOk h
  | binary op left right =>
    have hleft : F.Covers left.uses := h.mono fun _ hx => List.mem_append_left _ hx
    have hright : F.Covers right.uses := h.mono fun _ hx => List.mem_append_right _ hx
    rw [selectRhs, isOk_bind_iff fun _ _ => (isOk_bind_of fun _ => isOk_pure _).trans
      (push_isOk hright), push_isOk hleft, selectableRhs, Bool.and_eq_true]
  | call c =>
    rw [selectRhs, isOk_bind_of fun _ => isOk_pure _]
    exact selectCall_isOk h
  | getField object field =>
    rw [selectRhs, isOk_bind_iff fun _ _ => isOk_bind_iff fun _ _ =>
      (isOk_bind_of fun _ => isOk_pure _).trans descriptorOf_isOk, push_isOk h, ownerPath_isOk,
      selectableRhs, Bool.and_eq_true, Bool.and_eq_true, and_assoc]
  | arrayLoad array index =>
    have hslot : IsOk (F.slot array) := Frame.slot_isOk (h array.name List.mem_cons_self)
    have hindex : F.Covers index.uses := h.mono fun _ hx => List.mem_cons_of_mem _ hx
    rw [selectRhs, isOk_bind_iff fun _ _ => (isOk_bind_of fun _ => isOk_pure _).trans
      (push_isOk hindex)]
    exact and_iff_right hslot
  | newObject name =>
    rw [selectRhs, isOk_bind_of fun _ => isOk_pure _]
    exact qualify_isOk

/-- **An instruction can be selected if its parts can**, where its variables have slots. -/
theorem select_isOk {k : Nat} {i : Instr} (h : F.Covers (i.uses ++ i.defs)) :
    IsOk (select T F k i) ↔ selectable T F.method.isStatic i = true := by
  have huses : F.Covers i.uses := h.mono fun _ hx => List.mem_append_left _ hx
  cases i with
  | assign dest rhs =>
    have hslot : IsOk (F.slot dest) :=
      Frame.slot_isOk (h dest.name (List.mem_append_right _ List.mem_cons_self))
    rw [select, isOk_bind_iff fun _ _ => (isOk_bind_of fun _ => isOk_pure _).trans
      (iff_true_intro hslot), and_true]
    exact selectRhs_isOk huses
  | arrayStore array index value =>
    have hslot : IsOk (F.slot array) := Frame.slot_isOk (huses array.name List.mem_cons_self)
    have hindex : F.Covers index.uses :=
      huses.mono fun _ hx => List.mem_cons_of_mem _ (List.mem_append_left _ hx)
    have hvalue : F.Covers value.uses :=
      huses.mono fun _ hx => List.mem_cons_of_mem _ (List.mem_append_right _ hx)
    rw [select, isOk_bind_iff fun _ _ => isOk_bind_iff fun _ _ =>
      (isOk_bind_of fun _ => isOk_pure _).trans (push_isOk hvalue), push_isOk hindex,
      and_iff_right hslot, selectable, Bool.and_eq_true]
  | call c =>
    rw [select, isOk_bind_of fun _ => isOk_pure _]
    exact selectCall_isOk huses
  | putField object field value =>
    have hobject : F.Covers object.uses := huses.mono fun _ hx => List.mem_append_left _ hx
    have hvalue : F.Covers value.uses := huses.mono fun _ hx => List.mem_append_right _ hx
    rw [select, isOk_bind_iff fun _ _ => isOk_bind_iff fun _ _ => isOk_bind_iff fun _ _ =>
      (isOk_bind_of fun _ => isOk_pure _).trans descriptorOf_isOk, push_isOk hobject,
      push_isOk hvalue, ownerPath_isOk, selectable]
    simp only [Bool.and_eq_true, and_assoc]
  | ret value =>
    cases value with
    | none => exact iff_of_true (isOk_ok _) rfl
    | some value =>
      rw [select, isOk_bind_of fun _ => isOk_pure _]
      exact push_isOk huses
  | branch cond negated target =>
    rw [select, isOk_bind_of fun _ => isOk_pure _]
    exact push_isOk huses
  | jump _ | label _ | noop _ => exact iff_of_true (isOk_ok _) rfl

theorem selectAll_isOk {code : List Instr} (h : ∀ i ∈ code, F.Covers (i.uses ++ i.defs)) (k : Nat) :
    IsOk (selectAll T F k code) ↔ code.all (selectable T F.method.isStatic) = true := by
  induction code generalizing k with
  | nil => simp [selectAll]
  | cons i is ih =>
    rw [selectAll, isOk_bind_iff fun _ _ => (isOk_bind_of fun _ => isOk_pure _).trans
      (ih (fun j hj => h j (List.mem_cons_of_mem i hj)) _), select_isOk (h i List.mem_cons_self),
      List.all_cons, Bool.and_eq_true]

/-! ## Slots -/

namespace SlotTable

/-- The names of variables that have no slot yet. -/
def newNames (t : SlotTable) (vs : List Var) : Finset String :=
  (vs.map Var.name).toFinset.filter fun x => (t.get? x).isNone

theorem newNames_cons_of_some {t : SlotTable} {v : Var} {s : Slot} (hs : t.get? v.name = some s)
    (vs : List Var) : t.newNames (v :: vs) = t.newNames vs := by
  unfold newNames
  rw [List.map_cons, List.toFinset_cons, Finset.filter_insert, if_neg (by simp [hs])]

/-- A name that gets a slot is new, and no more so afterwards. -/
theorem card_newNames_cons {t t' : SlotTable} {v : Var} (hnone : t.get? v.name = none)
    (hget : ∀ x, t'.get? x = if v.name = x then some ⟨t.used, v.type⟩ else t.get? x)
    (vs : List Var) : (t.newNames (v :: vs)).card = (t'.newNames vs).card + 1 := by
  have heq : t.newNames (v :: vs) = insert v.name (t'.newNames vs) := by
    ext x
    simp only [newNames, List.map_cons, List.toFinset_cons, Finset.mem_filter, Finset.mem_insert,
      hget]
    by_cases hx : v.name = x
    · simp [← hx, hnone]
    · simp [hx, Ne.symm hx]
  rw [heq, Finset.card_insert_of_notMem]
  simp [newNames, hget]

/-- **Variables get slots if there are enough for their names.** -/
theorem assignAll_isOk {t : SlotTable} (ht : t.used ≤ maxSlots) (vs : List Var) :
    IsOk (t.assignAll vs) ↔ t.used + (t.newNames vs).card ≤ maxSlots := by
  induction vs generalizing t with
  | nil => simpa [assignAll, newNames] using ht
  | cons v vs ih =>
    rw [assignAll]
    cases hget : t.get? v.name with
    | some s =>
      have hassign : t.assign v = .ok (t, s.index) := by simp only [assign, hget]
      rw [hassign, newNames_cons_of_some hget]
      exact ih ht
    | none =>
      by_cases hroom : t.used < maxSlots
      · have hassign : IsOk (t.assign v) := by simp [assign, hget, hroom]
        obtain ⟨⟨t', i⟩, hassign⟩ := hassign
        rcases assign_cases hassign with ⟨s, hs, -⟩ | ⟨-, hused, hget'⟩
        · rw [hget] at hs
          cases hs
        · rw [hassign, card_newNames_cons hget hget']
          refine (ih (by omega)).trans ?_
          omega
      · have hassign : t.assign v = .error .tooManySlots := by simp [assign, hget, hroom]
        have hmem : v.name ∈ t.newNames (v :: vs) := by simp [newNames, hget]
        have hpos := Finset.card_pos.mpr ⟨_, hmem⟩
        rw [hassign]
        refine iff_of_false (not_isOk_error _) ?_
        omega

/-- Every variable has a slot in the end. -/
theorem assignAll_covers {t t' : SlotTable} {vs : List Var} (h : t.assignAll vs = .ok t') {v : Var}
    (hv : v ∈ vs) : (t'.get? v.name).isSome = true := by
  induction vs generalizing t with
  | nil => exact absurd hv List.not_mem_nil
  | cons u vs ih =>
    obtain ⟨t₁, i, hu, hvs⟩ := assignAll_cons h
    rcases List.mem_cons.mp hv with rfl | hv
    · have hslot : ∃ s, t₁.get? v.name = some s := by
        rcases assign_cases hu with ⟨s, hs, rfl⟩ | ⟨-, -, hget⟩
        · exact ⟨s, hs⟩
        · exact ⟨⟨t.used, v.type⟩, by rw [hget, if_pos rfl]⟩
      obtain ⟨s, hs⟩ := hslot
      rw [assignAll_keeps hvs hs]
      rfl
    · exact ih hvs hv

end SlotTable

/-- The number of slots that a method needs: one for the receiver, if it has one, and one for every
name. -/
def slotsNeeded (m : Method) : Nat :=
  firstSlot m + ((frameVars m).map Var.name).toFinset.card

/-- **A method has slots if it needs no more than there are.** -/
theorem allocate_isOk (m : Method) : IsOk (allocate m) ↔ slotsNeeded m ≤ maxSlots := by
  obtain ⟨start, heq, hused, hnone⟩ := allocate_eq m
  have hstart : start.used ≤ maxSlots := by
    rw [hused, firstSlot, maxSlots]
    split <;> decide
  have hnames : start.newNames (frameVars m) = ((frameVars m).map Var.name).toFinset :=
    Finset.filter_true_of_mem fun x _ => by rw [hnone]; rfl
  rw [heq, SlotTable.assignAll_isOk hstart, hused, hnames, slotsNeeded]

/-! ## Labels -/

theorem collectLabels_isOk {method : String} {start : Nat} {known : List (String × Nat)}
    {code : List Instr} (h : (known.map Prod.fst ++ labelsOf code).Nodup) :
    ∃ labels, collectLabels method start known code = .ok labels ∧
      ∀ name ∈ known.map Prod.fst ++ labelsOf code, (labels.lookup name).isSome = true := by
  induction code generalizing start known with
  | nil =>
    refine ⟨known, rfl, fun name hname => ?_⟩
    simpa [List.lookup_isSome_iff] using hname
  | cons c cs ih =>
    rw [collectLabels]
    rw [labelsOf_cons] at h ⊢
    cases hc : c.label? with
    | none =>
      rw [hc] at h
      exact ih h
    | some name =>
      simp only [hc, Option.toList] at h ⊢
      have hnew : ¬ (known.lookup name).isSome = true := by
        rw [List.nodup_append] at h
        simp only [List.lookup_isSome_iff, beq_iff_eq, not_exists, not_and]
        intro entry hentry hname
        exact h.2.2 entry.1 (List.mem_map_of_mem hentry) name (by simp) hname.symm
      rw [if_neg hnew]
      have hnodup : ((known ++ [(name, start)]).map Prod.fst ++ labelsOf cs).Nodup := by
        simpa using h
      obtain ⟨labels, hlabels, hall⟩ := ih hnodup
      refine ⟨labels, hlabels, fun x hx => hall x ?_⟩
      simpa using hx

theorem checkJumps_isOk {method : String} {labels : List (String × Nat)} {code : List Instr}
    (h : ∀ i ∈ code, ∀ name, i.target? = some name → (labels.lookup name).isSome = true) :
    checkJumps method labels code = .ok () := by
  induction code with
  | nil => rfl
  | cons c cs ih =>
    have hrest := ih fun i hi => h i (List.mem_cons_of_mem c hi)
    rw [checkJumps]
    cases hc : c.target? with
    | none => exact hrest
    | some name =>
      dsimp only
      rw [if_pos (h c List.mem_cons_self name hc), hrest]

/-! ## Methods -/

/-- Code that refers to nothing outside it: a variable that is read is declared or assigned
somewhere, a label is set once, and a jump leads to a label. -/
structure IsClosed (m : Method) : Prop where
  reads : ∀ i ∈ m.code, ∀ x ∈ i.uses, x ∈ (frameVars m).map Var.name
  labels : (labelsOf m.code).Nodup
  jumps : ∀ i ∈ m.code, ∀ name, i.target? = some name → name ∈ labelsOf m.code

/-- What is assigned gets a slot. -/
theorem defs_subset_frameVars {m : Method} {i : Instr} (hi : i ∈ m.code) {x : String}
    (hx : x ∈ i.defs) : x ∈ (frameVars m).map Var.name := by
  cases i with
  | assign dest rhs =>
    rw [List.mem_singleton.mp hx]
    refine List.mem_map_of_mem (List.mem_append_right _ ?_)
    exact List.mem_filterMap.mpr ⟨_, hi, rfl⟩
  | _ => exact absurd hx List.not_mem_nil

theorem build_isOk {m : Method} (h : IsClosed m) (budget : Nat) :
    IsOk (Frame.build budget m) ↔ slotsNeeded m ≤ maxSlots := by
  obtain ⟨labels, hlabels, hall⟩ : ∃ labels, collectLabels m.name 0 [] m.code = .ok labels ∧
      ∀ name ∈ labelsOf m.code, (labels.lookup name).isSome = true := collectLabels_isOk h.labels
  have hjumps : checkJumps m.name labels m.code = .ok () :=
    checkJumps_isOk fun i hi name hname => hall name (h.jumps i hi name hname)
  rw [Frame.build, isOk_bind_of fun slots => ?_, allocate_isOk]
  exact isOk_bind.mpr ⟨labels, hlabels, isOk_bind.mpr ⟨(), hjumps, isOk_pure _⟩⟩

/-- **A method can be emitted if it does not need too many slots, its types have descriptors, and
its instructions can be selected.** -/
theorem methodLines_isOk {m : Method} (h : IsClosed m) (budget : Nat) :
    IsOk (methodLines T budget m) ↔ slotsNeeded m ≤ maxSlots ∧
      ((m.params.map Var.type).all (describes T) = true ∧ describes T m.result = true) ∧
        m.code.all (selectable T m.isStatic) = true := by
  have hlisting : ∀ F, Frame.build budget m = .ok F →
      (IsOk (F.listing T) ↔ m.code.all (selectable T m.isStatic) = true) := by
    intro F hF
    obtain ⟨rfl, hslots, -⟩ := Frame.build_eq_ok hF
    obtain ⟨start, heq, -⟩ := allocate_eq F.method
    rw [heq] at hslots
    rw [Frame.listing, isOk_bind_of fun _ => isOk_pure _, selectAll_isOk]
    intro i hi x hx
    have hx : x ∈ (frameVars F.method).map Var.name := by
      rcases List.mem_append.mp hx with hx | hx
      · exact h.reads i hi x hx
      · exact defs_subset_frameVars hi hx
    obtain ⟨v, hv, rfl⟩ := List.mem_map.mp hx
    exact SlotTable.assignAll_covers hslots hv
  rw [methodLines, isOk_bind_iff fun F hF => isOk_bind_iff fun _ _ =>
    (isOk_bind_of fun _ => isOk_pure _).trans (hlisting F hF), build_isOk h, signatureOf_isOk]

/-! ## Classes -/

theorem fieldLines_isOk {fields : List Var} (h : ∀ v ∈ fields, describes T v.type = true) :
    IsOk (fieldLines T fields) := by
  induction fields with
  | nil => exact isOk_ok []
  | cons v vs ih =>
    have hrest := ih fun u hu => h u (List.mem_cons_of_mem v hu)
    rw [fieldLines, isOk_bind_iff fun _ _ => (isOk_bind_of fun _ => isOk_pure _).trans
      (iff_true_intro hrest), descriptorOf_isOk]
    exact ⟨h v List.mem_cons_self, trivial⟩

theorem methodsLines_isOk {budget : Nat} {ms : List Method} :
    IsOk (methodsLines T budget ms) ↔ ∀ m ∈ ms, IsOk (methodLines T budget m) := by
  induction ms with
  | nil => simp [methodsLines]
  | cons m ms ih =>
    rw [methodsLines, isOk_bind_iff fun _ _ => (isOk_bind_of fun _ => isOk_pure _).trans ih]
    simp

theorem superclassPath_isOk (T : ClassTable) : IsOk (superclassPath T) := by
  unfold superclassPath
  split
  · rename_i name hname
    rw [qualify_isOk, ClassTable.hasPath, ClassTable.isSuperclass, hname]
    simp
  · exact isOk_ok _

/-- **A class whose fields have descriptors can be emitted if its methods can.** -/
theorem classText_isOk {c : ClassCode} (hfields : ∀ v ∈ c.fields, describes T v.type = true)
    (budget : Nat) :
    IsOk (classText T budget c) ↔ ∀ m ∈ c.methods, IsOk (methodLines T budget m) := by
  rw [classText, isOk_bind_iff fun _ _ => isOk_bind_iff fun _ _ =>
    (isOk_bind_of fun _ => isOk_pure _).trans methodsLines_isOk]
  exact (and_iff_right (superclassPath_isOk T)).trans (and_iff_right (fieldLines_isOk hfields))

end Machine
end ClassCompiler
