import ClassCompiler.Proofs.Store.Change
import ClassCompiler.Proofs.Store.Reading

/-!
# The history of a store

A store begins as that of a tree and goes through operations, one after another.  Its links agree at
every moment, and the tree below the root can always be read.

A node that was taken out of the tree can be hung below itself, since nothing looks at what is below
it.  This is the only way to a cycle.

* `Operation.changes`: what one operation does.
* `finish_linked`: what a whole history keeps.
* `narrow_history_iff`: the histories for which numbers of 32 bits are enough.
* `linked_of_history`: the links of a store with a history.
* `acyclic_history_iff`: the histories without cycles.
-/

namespace ClassCompiler
namespace Store

open Relation (ReflTransGen TransGen)

/-- What can be done to a store. -/
inductive Operation where
  | add (node : Node)
  | append (parent id : Nat)
  | replaceChild (parent index new : Nat)
  | replaceNode (old new : Nat)
  | insert (parent : Nat) (t : Source)
  | copy (id : Nat)
  | fold (id : Nat) (warned : List Nat)
  | propagate (T : ClassTable)

/-- The change to the store that a function gives, if it gives one. -/
def Change.become {α : Type} (f : Store → Except Error (Store × α)) : Change Unit := do
  let (s, _) ← ask f
  set s

namespace Operation

/-- The numbers of nodes in an operation. -/
def ids : Operation → List Nat
  | add _ | propagate _ => []
  | append parent id => [parent, id]
  | replaceChild parent _ new => [parent, new]
  | replaceNode old new => [old, new]
  | insert parent _ => [parent]
  | copy id | fold id _ => [id]

/-- An operation as a change of a store in its place. -/
def change : Operation → Change Unit
  | add node => modify fun s => (s.add node).1
  | append parent id => Change.append parent id
  | replaceChild parent index new => do let _ ← Change.replaceChild parent index new
  | replaceNode old new => Change.replaceNode old new
  | insert parent t => Change.become (·.insert parent t)
  | copy id => Change.become (·.copy id)
  | fold id warned => Change.become (·.fold id warned)
  | propagate T => fun s =>
    match s.propagate T with
    | (s', .ok _) => .ok () s'
    | (s', .error e) => .error e s'

/-- The store after an operation, whether it succeeded or not. -/
def after (op : Operation) (s : Store) : Store :=
  match op.change.run s with
  | .ok _ s' => s'
  | .error _ s' => s'

/-- The nodes of an operation are in the store. -/
def InRange (s : Store) (op : Operation) : Prop :=
  ∀ id ∈ op.ids, id < s.size

instance (s : Store) (op : Operation) : Decidable (op.InRange s) :=
  List.decidableBAll (· < s.size) op.ids

/-- The place where an operation hangs a node, and the node. -/
def place? (s : Store) : Operation → Option (Nat × Nat)
  | append parent id => some (parent, id)
  | replaceChild parent _ new => some (parent, new)
  | replaceNode old new => (s.parentOf old).map (·, new)
  | _ => none

/-- The same, if the operation succeeds. -/
def hung? (s : Store) (op : Operation) : Option (Nat × Nat) :=
  match op.change.run s with
  | .ok _ _ => op.place? s
  | .error _ _ => none

/-- An operation hangs no node below itself. -/
def Safe (s : Store) (op : Operation) : Prop :=
  ∀ parent id, op.hung? s = some (parent, id) → ¬ s.Below parent id

variable {s s' : Store} {op : Operation}

/-! ## One operation -/

/-- The ways in which operations change a store: by steps with bare nodes, or by hanging one node
somewhere. -/
def Changes (s : Store) (hung? : Option (Nat × Nat)) (s' : Store) : Prop :=
  (hung? = none ∧ Steps Bare s s') ∨ ∃ parent id, hung? = some (parent, id) ∧ s.Hung parent id s'

theorem changes_of_atomic
    (h : Change.Atomic s (fun _ s' => Changes s (op.place? s) s') (op.change.run s)) :
    Changes s (op.hung? s) (op.after s) := by
  rw [hung?, after]
  revert h
  cases op.change.run s with
  | ok a s' =>
    intro h
    cases h with
    | ok h => exact h
  | error e s' =>
    intro h
    cases h with
    | error => exact .inl ⟨rfl, .refl⟩

theorem become_atomic {α : Type} (f : Store → Except Error (Store × α))
    (h : ∀ s' a, f s = .ok (s', a) → Steps Bare s s') :
    Change.Atomic s (fun _ s' => Changes s none s') ((Change.become f).run s) :=
  Change.atomic_ask fun _ hs' => .ok (.inl ⟨rfl, h _ _ hs'⟩)

/-- What one operation does. -/
theorem changes (h : s.Linked) (hrange : op.InRange s) :
    Changes s (op.hung? s) (op.after s) := by
  cases op with
  | add n => exact .inl ⟨rfl, .single (.add n)⟩
  | append parent id =>
    refine changes_of_atomic ((Change.append_atomic s parent id).imp fun _ s' hhung => ?_)
    exact .inr ⟨parent, id, rfl, hhung⟩
  | replaceChild parent index new =>
    refine changes_of_atomic ((Change.replaceChild_atomic s parent index new).ignore ?_)
    rintro old s' ⟨hold, hnew, rfl⟩
    exact .inr ⟨parent, new, rfl, .exchange hold hnew⟩
  | replaceNode old new =>
    refine changes_of_atomic ((Change.replaceNode_atomic s old new).imp ?_)
    rintro _ s' ⟨parent, hparent, hhung⟩
    exact .inr ⟨parent, new, by rw [place?, hparent, Option.map_some], hhung⟩
  | insert parent t =>
    have hparent : parent < s.size := hrange parent List.mem_cons_self
    exact changes_of_atomic (become_atomic _ fun _ _ hs' => insert_steps h hparent hs')
  | copy id => exact changes_of_atomic (become_atomic _ fun _ _ hs' => copy_steps h hs')
  | fold id warned => exact changes_of_atomic (become_atomic _ fun _ _ hs' => fold_steps h hs')
  | propagate T =>
    -- What was replaced before a failure stays replaced.
    have hsteps := propagate_steps h T
    simp only [hung?, after, EStateM.run, change]
    revert hsteps
    rcases s.propagate T with ⟨s', e | count⟩
    · exact fun hsteps => .inl ⟨rfl, hsteps⟩
    · exact fun hsteps => .inl ⟨rfl, hsteps⟩

/-- An operation keeps the links, and what the nodes are. -/
theorem linked_after (h : s.Linked) (hrange : op.InRange s) :
    (op.after s).Linked ∧ s.Keeps (op.after s) := by
  rcases changes h hrange with ⟨-, hsteps⟩ | ⟨parent, id, -, hhung⟩
  · exact ⟨Steps.linked hsteps h, Steps.keeps hsteps⟩
  · exact ⟨hhung.linked h, hhung.keeps⟩

/-- An operation that hangs no node below itself closes no cycle. -/
theorem acyclic_after (h : s.Linked) (hrange : op.InRange s) (hacyclic : s.Acyclic)
    (hsafe : op.Safe s) : (op.after s).Acyclic := by
  rcases changes h hrange with ⟨-, hsteps⟩ | ⟨parent, id, hhung?, hhung⟩
  · exact Steps.acyclic hsteps h hacyclic
  · exact hhung.acyclic h hacyclic (hsafe parent id hhung?)

/-- An operation that hangs a node below itself closes a cycle. -/
theorem cycle_after (h : s.Linked) (hrange : op.InRange s) (hacyclic : s.Acyclic)
    (hcloses : ¬ op.Safe s) : ∃ id, TransGen (op.after s).Hangs id id := by
  simp only [Safe, not_forall, not_not] at hcloses
  obtain ⟨parent, id, hsome, hbelow⟩ := hcloses
  rcases changes h hrange with ⟨hnone, -⟩ | ⟨parent', id', hsome', hhung⟩
  · exact absurd (hsome.symm.trans hnone) (Option.some_ne_none _)
  · cases hsome.symm.trans hsome'
    exact ⟨id, hhung.cycle h hacyclic hbelow⟩

end Operation

/-! ## Histories -/

/-- A condition on every operation of a history and the store that it finds. -/
def Along (P : Store → Operation → Prop) (s : Store) : List Operation → Prop
  | [] => True
  | op :: ops => P s op ∧ Along P (op.after s) ops

/-- The stores of a history, from the first to the last. -/
def stores (s : Store) : List Operation → List Store
  | [] => [s]
  | op :: ops => s :: stores (op.after s) ops

/-- The store at the end of a history. -/
def finish (s : Store) (ops : List Operation) : Store :=
  ops.foldl (fun s op => op.after s) s

variable {s : Store} {ops : List Operation}

/-- The links agree at the end, and every node is what it was. -/
theorem finish_linked (h : s.Linked) (hrange : Along Operation.InRange s ops) :
    (finish s ops).Linked ∧ s.Keeps (finish s ops) := by
  induction ops generalizing s with
  | nil => exact ⟨h, .refl s⟩
  | cons op ops ih =>
    obtain ⟨hfirst, hrest⟩ := hrange
    obtain ⟨hlinked, hkeeps⟩ := Operation.linked_after h hfirst
    obtain ⟨hlinked, hkeeps'⟩ := ih hlinked hrest
    exact ⟨hlinked, hkeeps.trans hkeeps'⟩

/-- Whatever holds without cycles and of no store with a cycle holds of all stores of a history
exactly if no operation hangs a node below itself. -/
theorem forall_stores_iff {P : Store → Prop} (hP : ∀ s, s.Linked → s.Acyclic → P s)
    (hcycle : ∀ s id, s.Linked → TransGen s.Hangs id id → ¬ P s) (h : s.Linked)
    (hacyclic : s.Acyclic) (hrange : Along Operation.InRange s ops) :
    (∀ s' ∈ stores s ops, P s') ↔ Along Operation.Safe s ops := by
  induction ops generalizing s with
  | nil => exact ⟨fun _ => trivial, fun _ s' hs' => List.mem_singleton.mp hs' ▸ hP s h hacyclic⟩
  | cons op ops ih =>
    obtain ⟨hfirst, hrest⟩ := hrange
    have hlinked := (Operation.linked_after h hfirst).1
    rw [stores, List.forall_mem_cons, Along]
    refine ⟨?_, ?_⟩
    · rintro ⟨-, hstores⟩
      have hsafe : op.Safe s := by
        by_contra hcloses
        obtain ⟨id, hid⟩ := Operation.cycle_after h hfirst hacyclic hcloses
        have hmem : op.after s ∈ stores (op.after s) ops := by
          cases ops with
          | nil => exact List.mem_singleton.mpr rfl
          | cons => exact List.mem_cons_self
        exact hcycle _ id hlinked hid (hstores _ hmem)
      have hafter := Operation.acyclic_after h hfirst hacyclic hsafe
      exact ⟨hsafe, (ih hlinked hafter hrest).mp hstores⟩
    · rintro ⟨hsafe, hsafes⟩
      have hafter := Operation.acyclic_after h hfirst hacyclic hsafe
      exact ⟨hP s h hacyclic, (ih hlinked hafter hrest).mpr hsafes⟩

theorem acyclic_ofSource (t : Source) : (ofSource t).Acyclic := by
  refine Steps.acyclic (ofSource_steps t) (linked_single t.label) fun id => ?_
  refine .of_parentless ?_
  rw [parentOf_add]
  rfl

/-! ## Numbers of 32 bits -/

/-- The numbers of the nodes, and those in the links, are as 32 bits keep them. -/
structure Narrow (s : Store) : Prop where
  node : ∀ id < s.size, (UInt32.ofNat id).toNat = id
  parent : ∀ p c, s.parentOf c = some p → (UInt32.ofNat p).toNat = p
  child : ∀ p c, c ∈ s.childrenOf p → (UInt32.ofNat c).toNat = c

theorem Linked.narrow_iff (h : s.Linked) : s.Narrow ↔ s.size ≤ numberLimit := by
  constructor
  · intro hnarrow
    by_contra hmore
    exact absurd (hnarrow.node numberLimit (Nat.lt_of_not_le hmore)) (by decide)
  · intro hroom
    have hnode : ∀ id < s.size, (UInt32.ofNat id).toNat = id :=
      fun id hid => UInt32.toNat_ofNat_of_lt' (Nat.lt_of_lt_of_le hid hroom)
    exact ⟨hnode, fun p c hp => hnode p (h.parent_lt hp), fun p c hc => hnode c (h.child_lt hc)⟩

/-- A store of a history is linked, and the last one has no fewer nodes. -/
theorem linked_of_mem_stores (h : s.Linked) (hrange : Along Operation.InRange s ops) {s' : Store}
    (hs' : s' ∈ stores s ops) : s'.Linked ∧ s'.size ≤ (finish s ops).size := by
  induction ops generalizing s with
  | nil =>
    obtain rfl := List.mem_singleton.mp hs'
    exact ⟨h, Nat.le_refl _⟩
  | cons op ops ih =>
    rcases List.mem_cons.mp hs' with rfl | hs'
    · exact ⟨h, (finish_linked h hrange).2.size_le⟩
    · exact ih (Operation.linked_after h hrange.1).1 hrange.2 hs'

theorem finish_mem_stores (s : Store) (ops : List Operation) : finish s ops ∈ stores s ops := by
  induction ops generalizing s with
  | nil => exact List.mem_singleton.mpr rfl
  | cons op ops ih => exact List.mem_cons_of_mem s (ih (op.after s))

/-- **Numbers of 32 bits.**  Where a node gets the number of nodes so far, cut to 32 bits, nothing is
ever cut in a history, neither from the number of a node nor from a link, exactly if its last store
has no more nodes than there are such numbers. -/
theorem narrow_history_iff {t : Source} (hrange : Along Operation.InRange (ofSource t) ops) :
    (∀ s ∈ stores (ofSource t) ops, s.Narrow) ↔
      (finish (ofSource t) ops).size ≤ numberLimit := by
  have h := linked_ofSource t
  constructor
  · intro hnarrow
    have hlast := finish_mem_stores (ofSource t) ops
    exact (linked_of_mem_stores h hrange hlast).1.narrow_iff.mp (hnarrow _ hlast)
  · intro hroom s hs
    obtain ⟨hlinked, hle⟩ := linked_of_mem_stores h hrange hs
    exact hlinked.narrow_iff.mpr (Nat.le_trans hle hroom)

/-! ## The links of a store with a history -/

/-- A way down from one node to another, from parents to children. -/
def Reaches (s : Store) : Nat → Nat → Prop :=
  ReflTransGen fun p c => c ∈ s.childrenOf p

theorem Linked.reaches_iff (h : s.Linked) {a b : Nat} : s.Reaches a b ↔ s.Below b a := by
  have hflip : (fun p c => c ∈ s.childrenOf p) = Function.swap s.Hangs := by
    ext p c
    exact h.listed.mem_iff
  rw [Reaches, hflip]
  exact Relation.reflTransGen_swap

/-- **The links of a store.**  After any history, whatever it did with nodes of the store: a parent
lists each of its children once and nothing else, all links lead to nodes of the store, and the root
has no parent.  Every node stays what it is in all that may follow.  The nodes that are reached from
the root can be listed, each once.  A node that cannot be hung somewhere is not, and then the store
is as it was. -/
theorem linked_of_history {t : Source} (hrange : Along Operation.InRange (ofSource t) ops)
    (hs : finish (ofSource t) ops = s) :
    (∀ p c, (s.childrenOf p).count c = if s.parentOf c = some p then 1 else 0) ∧
      (∀ p c, s.parentOf c = some p → p < s.size) ∧ (∀ p c, c ∈ s.childrenOf p → c < s.size) ∧
      s.parentOf root = none ∧
      (∀ later, Along Operation.InRange s later → s.Keeps (finish s later)) ∧
      (∃ ids, s.preorder root = .ok ids ∧ ids.Nodup ∧ ∀ id, id ∈ ids ↔ s.Reaches root id) ∧
      ∀ e s',
        (∀ parent id, (Change.append parent id).run s = .error e s' → s' = s) ∧
        (∀ parent index new,
          (Change.replaceChild parent index new).run s = .error e s' → s' = s) ∧
        ∀ old new, (Change.replaceNode old new).run s = .error e s' → s' = s := by
  obtain ⟨h, -⟩ := finish_linked (linked_ofSource t) hrange
  rw [hs] at h
  refine ⟨h.listed, fun _ _ => h.parent_lt, fun _ _ => h.child_lt, h.root, ?_, ?_, ?_⟩
  · exact fun later hlater => (finish_linked h hlater).2
  · obtain ⟨ids, hids, hnodup, hmem⟩ := preorder_of_ends h h.nonempty (.of_parentless h.root)
    exact ⟨ids, hids, hnodup, fun id => (hmem id).trans h.reaches_iff.symm⟩
  · intro e s'
    refine ⟨fun parent id => ?_, fun parent index new => ?_, fun old new => ?_⟩
    · exact (Change.append_atomic s parent id).eq_of_error
    · exact (Change.replaceChild_atomic s parent index new).eq_of_error
    · exact (Change.replaceNode_atomic s old new).eq_of_error

/-- A block without statements. -/
def block : Node := { kind := .block }

/-- A history in which a block is added and hung below itself. -/
def loop : List Operation :=
  [.add block, .append 1 1]

theorem loop_linked :
    Along Operation.InRange (ofSource (.node block [])) loop ∧
      ∃ s, finish (ofSource (.node block [])) loop = s ∧ s.childrenOf 1 = [1] ∧
        (∀ p c, (s.childrenOf p).count c = if s.parentOf c = some p then 1 else 0) ∧
        ∃ ids, s.preorder root = .ok ids ∧ ids.Nodup ∧ ∀ id, id ∈ ids ↔ s.Reaches root id := by
  have hrange : Along Operation.InRange (ofSource (.node block [])) loop :=
    ⟨by decide, by decide, trivial⟩
  obtain ⟨hlisted, -, -, -, -, hpreorder, -⟩ := linked_of_history hrange rfl
  exact ⟨hrange, _, rfl, rfl, hlisted, hpreorder⟩

/-! ## Cycles -/

/-- The tree below a node can be listed, read and copied. -/
structure Readable (s : Store) (id : Nat) : Prop where
  lists : ∃ ids, s.preorder id = .ok ids
  reads : ∃ t, s.treeAt id = .ok t
  copies : ∃ copied, s.copy id = .ok copied

theorem readable_of_treeAt {id : Nat} {t : Ast} (h : s.treeAt id = .ok t) : s.Readable id := by
  refine ⟨⟨t.preorder.map Numbered.id, ?_⟩, ⟨t, h⟩, ⟨s.plant t.source, ?_⟩⟩
  · rw [preorder, h]
    rfl
  · rw [copy, h]
    rfl

theorem readable_of_acyclic (h : s.Linked) (hacyclic : s.Acyclic) {id : Nat} (hid : id < s.size) :
    s.Readable id := by
  obtain ⟨t, ht⟩ := treeAt_of_ends h hid (hacyclic id)
  exact readable_of_treeAt ht

theorem not_readable_of_cycle (h : s.Linked) {id : Nat} (hcycle : TransGen s.Hangs id id) :
    ¬ s.Readable id := by
  intro hreadable
  obtain ⟨t, ht⟩ := hreadable.reads
  rw [treeAt_of_cycle h hcycle] at ht
  cases ht

theorem lt_size_of_cycle {id : Nat} (hcycle : TransGen s.Hangs id id) : id < s.size := by
  obtain ⟨p, hp, -⟩ := TransGen.head'_iff.mp hcycle
  exact lt_size_of_parentOf hp

theorem loop_closes_cycle :
    Along Operation.InRange (ofSource (.node block [])) loop ∧
      ∃ s, finish (ofSource (.node block [])) loop = s ∧ s.size = 2 ∧ s.parentOf 1 = some 1 ∧
        ¬ s.Ends 1 ∧ (∀ depth, s.treeWithin depth 1 = none) ∧ ¬ s.Readable 1 := by
  have hrange : Along Operation.InRange (ofSource (.node block [])) loop :=
    ⟨by decide, by decide, trivial⟩
  have hlinked := (finish_linked (linked_ofSource (.node block [])) hrange).1
  have hcycle : TransGen (finish (ofSource (.node block [])) loop).Hangs 1 1 := .single rfl
  refine ⟨hrange, _, rfl, rfl, rfl, fun hends => hends.not_cycle hcycle, fun depth => ?_, ?_⟩
  · exact treeWithin_of_cycle hlinked hcycle
  · exact not_readable_of_cycle hlinked hcycle

/-- **The histories without cycles.**  At every moment of a history the way up ends from every node,
if and only if no operation hangs a node below itself or below a node that is below it.  In the same
histories the tree below every node can be listed, read and copied at every moment. -/
theorem acyclic_history_iff {t : Source} (hrange : Along Operation.InRange (ofSource t) ops) :
    ((∀ s ∈ stores (ofSource t) ops, s.Acyclic) ↔ Along Operation.Safe (ofSource t) ops) ∧
      ((∀ s ∈ stores (ofSource t) ops, ∀ id < s.size, s.Readable id) ↔
        Along Operation.Safe (ofSource t) ops) := by
  have h := linked_ofSource t
  have hacyclic := acyclic_ofSource t
  refine ⟨forall_stores_iff (fun _ _ hs => hs) ?_ h hacyclic hrange,
    forall_stores_iff (fun _ h hs _ => readable_of_acyclic h hs) ?_ h hacyclic hrange⟩
  · exact fun s id _ hcycle hs => (hs id).not_cycle hcycle
  · intro s id h hcycle hall
    exact not_readable_of_cycle h hcycle (hall id (lt_size_of_cycle hcycle))

/-- A history in which a block takes the place of another one, which is then hung below it. -/
def moves : List Operation :=
  [.add block, .replaceNode 1 2, .append 2 1]

theorem moves_closes_no_cycle :
    Along Operation.InRange (ofSource (.node block [.node block []])) moves ∧
      (∀ s ∈ stores (ofSource (.node block [.node block []])) moves,
        s.Acyclic ∧ ∀ id < s.size, s.Readable id) := by
  have hrange : Along Operation.InRange (ofSource (.node block [.node block []])) moves :=
    ⟨by decide, by decide, by decide, trivial⟩
  obtain ⟨hacyclic, hreadable⟩ := acyclic_history_iff hrange
  -- Going up from the new place, the root is met before the node.
  have hsafe : Along Operation.Safe (ofSource (.node block [.node block []])) moves := by
    refine ⟨?_, ?_, ?_, trivial⟩
    · intro parent id h
      cases h
    · intro parent id h hbelow
      cases h
      rcases ReflTransGen.cases_head_iff.mp hbelow with h | ⟨p, hp, -⟩
      · cases h
      · cases hp
    · intro parent id h hbelow
      cases h
      rcases ReflTransGen.cases_head_iff.mp hbelow with h | ⟨p, hp, hbelow⟩
      · cases h
      · cases hp
        rcases ReflTransGen.cases_head_iff.mp hbelow with h | ⟨p, hp, -⟩
        · cases h
        · cases hp
  exact ⟨hrange, fun s hs => ⟨hacyclic.mpr hsafe s hs, hreadable.mpr hsafe s hs⟩⟩

end Store
end ClassCompiler
