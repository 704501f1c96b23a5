import ClassCompiler.Proofs.Tree.Induction

/-!
# What holds at every node that is read

A node may have more children than its kind has a use for, and no pass looks at those.  What is said
here of every node of a tree is said of the nodes that are read.

* `Kind.used`: the children of a node that are read.
* `Tree.everywhere`: a condition on all nodes that are read.
* `Tree.everyBody`: the same for the methods of a class.
-/

namespace ClassCompiler

namespace Kind

variable {α β : Type}

/-- The children that are read: all statements and all arguments, otherwise as many as the kind has
places for. -/
def used (kind : Kind) (ts : List α) : List α :=
  match kind with
  | .block | .thenBranch | .elseBranch | .loop | .invocation _ => ts
  | .conditional => ts.take 3
  | .binary _ | .arrayAccess | .arrayAssignment _ => ts.take 2
  | .parenthesis | .negation | .arrayLength | .newArray => ts.take 1
  | .condition | .expression | .assignment _ | .ret => ts.take 1
  | _ => []

theorem used_map (kind : Kind) (f : α → β) (ts : List α) :
    kind.used (ts.map f) = (kind.used ts).map f := by
  unfold used
  split <;> simp [List.map_take]

theorem mem_of_mem_used {kind : Kind} {ts : List α} {t : α} (h : t ∈ kind.used ts) : t ∈ ts := by
  unfold used at h
  split at h
  all_goals first
    | exact h
    | exact List.mem_of_mem_take h
    | exact absurd h List.not_mem_nil

end Kind

namespace Tree

mutual

/-- Every node that is read satisfies a condition. -/
def everywhere (p : Ast → Bool) : Ast → Bool
  | .node n ts => p (.node n ts) && (n.kind.used (everywhereAll p ts)).all fun holds => holds

/-- For each tree, whether every node of it that is read satisfies a condition. -/
def everywhereAll (p : Ast → Bool) : List Ast → List Bool
  | [] => []
  | t :: ts => everywhere p t :: everywhereAll p ts

end

variable {p q : Ast → Bool}

theorem everywhereAll_eq_map (ts : List Ast) : everywhereAll p ts = ts.map (everywhere p) := by
  induction ts with
  | nil => rfl
  | cons t ts ih => rw [everywhereAll, ih, List.map_cons]

theorem everywhere_node {n : Numbered} {ts : List Ast} :
    everywhere p (.node n ts) = true ↔
      p (.node n ts) = true ∧ ∀ t ∈ n.kind.used ts, everywhere p t = true := by
  rw [everywhere, everywhereAll_eq_map, Kind.used_map, Bool.and_eq_true, List.all_map,
    List.all_eq_true]
  rfl

/-- What holds at all nodes holds at all nodes that are read. -/
theorem everywhere_of_forall (h : ∀ t, p t = true) (t : Ast) : everywhere p t = true := by
  induction t using Tree.induction with
  | node n ts ih => exact everywhere_node.mpr ⟨h _, fun t ht => ih t (Kind.mem_of_mem_used ht)⟩

/-- What follows from two conditions holds wherever both do. -/
theorem everywhere_imp {r : Ast → Bool} (h : ∀ t, p t = true → q t = true → r t = true) {t : Ast}
    (hp : everywhere p t = true) (hq : everywhere q t = true) : everywhere r t = true := by
  induction t using Tree.induction with
  | node n ts ih =>
    obtain ⟨hroot, hbelow⟩ := everywhere_node.mp hp
    obtain ⟨hroot', hbelow'⟩ := everywhere_node.mp hq
    refine everywhere_node.mpr ⟨h _ hroot hroot', fun t ht => ?_⟩
    exact ih t (Kind.mem_of_mem_used ht) (hbelow t ht) (hbelow' t ht)

/-- Every node that is read in the method bodies of a class satisfies the condition that belongs to
the method. -/
def everyBody (p : String → Ast → Bool) (c : Ast) : Bool :=
  c.children.all fun m =>
    match m.kind.methodName? with
    | none => true
    | some name => m.children.all (everywhere (p name))

theorem everyBody_eq_true {p : String → Ast → Bool} {c : Ast} :
    everyBody p c = true ↔ ∀ m ∈ c.children, ∀ name, m.kind.methodName? = some name →
      ∀ t ∈ m.children, everywhere (p name) t = true := by
  unfold everyBody
  rw [List.all_eq_true]
  refine forall₂_congr fun m _ => ?_
  cases m.kind.methodName? with
  | none => simp
  | some name => simp

end Tree
end ClassCompiler
