import ClassCompiler.Proofs.ThreeAddress.Liveness

/-!
# Sweeping until nothing changes

The sets of live variables can also be had by a loop that does not look at the equations as a whole.
It keeps the sets on both sides of every instruction.  A round computes both anew, from the last
instruction to the first, and writes them down if one of them is new; there are rounds until one
writes nothing.

The loop ends, and with the sets of `Method.liveness`.  The sets before the instructions go through
the same sweeps in both.  Once they are all there, a round may still write sets after instructions,
and the round after that finds nothing to write.

* `Sides.visit`, `Sides.round`: one instruction, and one round.
* `Sides.changed_round_iff`: a round that writes nothing has found the equations to hold on both
  sides.
* `Sides.Loops`: the loop, without a bound on its rounds.
* `Method.liveness_loops`: the loop ends with the live variables, and with nothing else.
-/

namespace ClassCompiler
namespace ThreeAddress

/-- The names before and after every instruction, and whether the round has changed a set. -/
structure Sides where
  before : Array Names
  after : Array Names
  changed : Bool

namespace Sides

/-- Computes the sets of one instruction anew, and writes both down if one of them changes. -/
def visit (nodes : Array FlowNode) (i : Nat) (b : Sides) : Sides :=
  match nodes[i]? with
  | some n =>
    if liveIn b.before n != b.before.getD i ∅ || liveOut b.before n != b.after.getD i ∅ then
      { before := b.before.setIfInBounds i (liveIn b.before n)
        after := b.after.setIfInBounds i (liveOut b.before n)
        changed := true }
    else b
  | none => b

/-- One round, from the last instruction to the first. -/
def round (nodes : Array FlowNode) (b : Sides) : Sides :=
  (List.range nodes.size).foldr (visit nodes) { b with changed := false }

/-- Empty sets, as if they had just been changed. -/
def start (nodes : Array FlowNode) : Sides where
  before := Array.replicate nodes.size ∅
  after := Array.replicate nodes.size ∅
  changed := true

/-- There are rounds while the last one has changed something. -/
inductive Loops (nodes : Array FlowNode) : Sides → Sides → Prop
  | stop {b : Sides} (same : b.changed = false) : Loops nodes b b
  | again {b b' : Sides} (change : b.changed = true) (rest : Loops nodes (round nodes b) b') :
    Loops nodes b b'

/-- Both equations of an instruction hold. -/
def Balanced (nodes : Array FlowNode) (b : Sides) (i : Nat) : Prop :=
  ∀ n, nodes[i]? = some n →
    liveIn b.before n = b.before.getD i ∅ ∧ liveOut b.before n = b.after.getD i ∅

variable {nodes : Array FlowNode} {b : Sides} {i : Nat} {is : List Nat} {n : FlowNode}
  {live live' : Array Names}

/-! ## One instruction -/

theorem setIfInBounds_getD (sets : Array Names) (i : Nat) :
    sets.setIfInBounds i (sets.getD i ∅) = sets := by
  refine Array.ext (by simp) fun j hj hj' => ?_
  rw [Array.getElem_setIfInBounds hj']
  split_ifs with hij
  · subst hij
    rw [Array.getD_eq_getD_getElem?, Array.getElem?_eq_getElem hj', Option.getD_some]
  · rfl

theorem visit_of_balanced (h : Balanced nodes b i) : visit nodes i b = b := by
  unfold visit
  split
  · next n hn =>
    obtain ⟨hin, hout⟩ := h n hn
    simp [hin, hout]
  · rfl

theorem visit_of_not_balanced (hn : nodes[i]? = some n) (h : ¬ Balanced nodes b i) :
    visit nodes i b =
      { before := b.before.setIfInBounds i (liveIn b.before n)
        after := b.after.setIfInBounds i (liveOut b.before n)
        changed := true } := by
  have hnew : (liveIn b.before n != b.before.getD i ∅ ||
      liveOut b.before n != b.after.getD i ∅) = true := by
    rw [Bool.or_eq_true, bne_iff_ne, bne_iff_ne, ← not_and_or]
    intro hboth
    refine h fun n' hn' => ?_
    cases Option.some.inj (hn.symm.trans hn')
    exact hboth
  simp only [visit, hn, hnew, if_true]

theorem changed_visit_iff :
    (visit nodes i b).changed = false ↔ b.changed = false ∧ Balanced nodes b i := by
  by_cases h : Balanced nodes b i
  · rw [visit_of_balanced h, and_iff_left h]
  · obtain ⟨n, hfails⟩ := not_forall.mp h
    obtain ⟨hn, -⟩ := Classical.not_imp.mp hfails
    rw [visit_of_not_balanced hn h]
    simp [h]

/-- The sets before the instructions are revised, whether this is written down or not. -/
theorem before_visit : (visit nodes i b).before = revise nodes i b.before := by
  cases hn : nodes[i]? with
  | none => simp only [visit, revise, hn]
  | some n =>
    by_cases h : Balanced nodes b i
    · rw [visit_of_balanced h]
      simp only [revise, hn, (h n hn).1, setIfInBounds_getD]
    · rw [visit_of_not_balanced hn h]
      simp only [revise, hn]

theorem after_visit (hn : nodes[i]? = some n) :
    (visit nodes i b).after = b.after.setIfInBounds i (liveOut b.before n) := by
  by_cases h : Balanced nodes b i
  · rw [visit_of_balanced h, (h n hn).2, setIfInBounds_getD]
  · rw [visit_of_not_balanced hn h]

theorem size_after_visit : (visit nodes i b).after.size = b.after.size := by
  cases hn : nodes[i]? with
  | none => simp only [visit, hn]
  | some n => rw [after_visit hn, Array.size_setIfInBounds]

theorem after_visit_of_ne {j : Nat} (hij : i ≠ j) :
    (visit nodes i b).after[j]? = b.after[j]? := by
  cases hn : nodes[i]? with
  | none => simp only [visit, hn]
  | some n => rw [after_visit hn, Array.getElem?_setIfInBounds_ne hij]

/-! ## One round -/

theorem foldr_visit_of_balanced (h : ∀ i ∈ is, Balanced nodes b i) :
    is.foldr (visit nodes) b = b := by
  induction is with
  | nil => rfl
  | cons i is ih =>
    rw [List.foldr_cons, ih fun j hj => h j (List.mem_cons_of_mem i hj),
      visit_of_balanced (h i List.mem_cons_self)]

theorem changed_foldr_visit_iff :
    (is.foldr (visit nodes) b).changed = false ↔
      b.changed = false ∧ ∀ i ∈ is, Balanced nodes b i := by
  induction is with
  | nil => simp
  | cons i is ih =>
    rw [List.foldr_cons, changed_visit_iff, ih, List.forall_mem_cons]
    constructor
    · rintro ⟨⟨hsame, hrest⟩, hfirst⟩
      rw [foldr_visit_of_balanced hrest] at hfirst
      exact ⟨hsame, hfirst, hrest⟩
    · rintro ⟨hsame, hfirst, hrest⟩
      rw [foldr_visit_of_balanced hrest]
      exact ⟨⟨hsame, hrest⟩, hfirst⟩

/-- A round changes nothing exactly if all equations hold, on both sides. -/
theorem changed_round_iff :
    (round nodes b).changed = false ↔ ∀ i < nodes.size, Balanced nodes b i := by
  rw [round, changed_foldr_visit_iff]
  simp only [List.mem_range, true_and]
  exact Iff.rfl

theorem round_of_balanced (h : ∀ i < nodes.size, Balanced nodes b i) :
    round nodes b = { b with changed := false } :=
  foldr_visit_of_balanced fun i hi => h i (List.mem_range.mp hi)

/-- A round is a sweep to the sets before the instructions. -/
theorem before_round : (round nodes b).before = sweep nodes b.before := by
  have hfoldr : ∀ (is : List Nat) (b : Sides),
      (is.foldr (visit nodes) b).before = is.foldr (revise nodes) b.before := by
    intro is b
    induction is with
    | nil => rfl
    | cons i is ih => rw [List.foldr_cons, List.foldr_cons, before_visit, ih]
  exact hfoldr _ _

theorem size_after_round : (round nodes b).after.size = b.after.size := by
  have hfoldr : ∀ (is : List Nat) (b : Sides),
      (is.foldr (visit nodes) b).after.size = b.after.size := by
    intro is b
    induction is with
    | nil => rfl
    | cons i is ih => rw [List.foldr_cons, size_after_visit, ih]
  exact hfoldr _ _

/-- Where the sets before the instructions stay, those after them are read off. -/
theorem foldr_visit_of_solution (hsize : b.after.size = nodes.size)
    (hsolution : isSolution nodes b.before = true) :
    (is.foldr (visit nodes) b).before = b.before ∧
      (is.foldr (visit nodes) b).after.size = nodes.size ∧
      ∀ i ∈ is, ∀ n, nodes[i]? = some n →
        (is.foldr (visit nodes) b).after[i]? = some (liveOut b.before n) := by
  induction is with
  | nil => exact ⟨rfl, hsize, fun _ hi => absurd hi List.not_mem_nil⟩
  | cons i is ih =>
    obtain ⟨hbefore, hafter, hrest⟩ := ih
    rw [List.foldr_cons]
    refine ⟨?_, size_after_visit.trans hafter, fun j hj n hn => ?_⟩
    · rw [before_visit, hbefore, revise]
      split
      · next n hn => rw [isSolution_iff.mp hsolution i n hn, setIfInBounds_getD]
      · rfl
    · by_cases hij : i = j
      · subst hij
        obtain ⟨hi, -⟩ := Array.getElem?_eq_some_iff.mp hn
        rw [after_visit hn, hbefore, Array.getElem?_setIfInBounds_self_of_lt (hafter ▸ hi)]
      · rw [after_visit_of_ne hij]
        exact hrest j ((List.mem_cons.mp hj).resolve_left (Ne.symm hij)) n hn

/-- The sets before the instructions with those that follow from them. -/
def settled (nodes : Array FlowNode) (live : Array Names) : Sides where
  before := live
  after := nodes.map (liveOut live)
  changed := false

theorem round_of_solution (hsize : b.after.size = nodes.size)
    (hsolution : isSolution nodes b.before = true) :
    round nodes b = { settled nodes b.before with changed := (round nodes b).changed } := by
  obtain ⟨hbefore, hafter, hrest⟩ := @foldr_visit_of_solution nodes { b with changed := false }
    (List.range nodes.size) hsize hsolution
  have hmap : (round nodes b).after = nodes.map (liveOut b.before) := by
    refine Array.ext_getElem? fun i => ?_
    rw [Array.getElem?_map]
    cases hn : nodes[i]? with
    | none =>
      have hi : nodes.size ≤ i := Array.getElem?_eq_none_iff.mp hn
      exact Array.getElem?_eq_none (by rw [round, hafter]; exact hi)
    | some n =>
      obtain ⟨hi, -⟩ := Array.getElem?_eq_some_iff.mp hn
      exact hrest i (List.mem_range.mpr hi) n hn
  rw [settled, ← hmap, ← show (round nodes b).before = b.before from hbefore]

/-- Nothing is left to be changed in them. -/
theorem round_settled (hsolution : isSolution nodes live = true) (changed : Bool) :
    round nodes { settled nodes live with changed } = settled nodes live := by
  refine round_of_balanced fun i _ n hn => ⟨isSolution_iff.mp hsolution i n hn, ?_⟩
  show liveOut live n = (nodes.map (liveOut live)).getD i ∅
  rw [Array.getD_eq_getD_getElem?, Array.getElem?_map, hn, Option.map_some, Option.getD_some]

/-! ## The loop -/

namespace Loops

/-- From a solution, there are one or two rounds. -/
theorem of_solution (hsize : b.after.size = nodes.size) (hchanged : b.changed = true)
    (hsolution : isSolution nodes b.before = true) :
    Loops nodes b (settled nodes b.before) := by
  refine .again hchanged ?_
  rw [round_of_solution hsize hsolution]
  cases (round nodes b).changed with
  | false => exact .stop rfl
  | true =>
    -- It was a set after an instruction that changed, so it is there now.
    refine .again rfl ?_
    rw [round_settled hsolution]
    exact .stop rfl

/-- While the sweeps go on, so does the loop. -/
theorem of_settles {m : Method} (hcharts : Charts m nodes) (h : Settles nodes live live') :
    ∀ {b : Sides}, b.before = live → b.after.size = nodes.size → b.changed = true →
      Approaches m nodes live → Loops nodes b (settled nodes live') := by
  induction h with
  | @done live same =>
    rintro b rfl hsize hchanged happroaches
    exact .of_solution hsize hchanged ((happroaches.isSolution_iff_sweep hcharts).mpr same)
  | @again live live' change _ ih =>
    rintro b rfl hsize hchanged happroaches
    -- A round without a change would have been a sweep without one.
    have hagain : (round nodes b).changed = true := by
      by_contra hsame
      have hbalanced := changed_round_iff.mp (Bool.eq_false_of_not_eq_true hsame)
      rw [← before_round, round_of_balanced hbalanced] at change
      exact change rfl
    exact .again hchanged (ih before_round (size_after_round.trans hsize) hagain
      (happroaches.sweep hcharts).1)

theorem unique {b₁ b₂ : Sides} (h₁ : Loops nodes b b₁) (h₂ : Loops nodes b b₂) : b₁ = b₂ := by
  induction h₁ with
  | stop same =>
    cases h₂ with
    | stop => rfl
    | again change _ => rw [same] at change; cases change
  | again change _ ih =>
    cases h₂ with
    | stop same => rw [same] at change; cases change
    | again _ rest => exact ih rest

end Loops
end Sides

/-- **The loop ends with the live variables**, on both sides of every instruction, and with nothing
else. -/
theorem Method.liveness_loops {m : Method} {L : Liveness} (h : m.liveness = .ok L) :
    ∃ b, (∀ b', Sides.Loops L.nodes (.start L.nodes) b' ↔ b' = b) ∧
      ∀ i, b.before.getD i ∅ = L.before i ∧ b.after.getD i ∅ = L.after i := by
  obtain ⟨hcharts, -, hsettles⟩ := liveness_settles h
  have hloops : Sides.Loops L.nodes (.start L.nodes) (.settled L.nodes L.live) :=
    .of_settles hcharts hsettles rfl Array.size_replicate rfl approaches_empty
  refine ⟨.settled L.nodes L.live, fun b' => ⟨fun h' => h'.unique hloops, fun h' => ?_⟩, ?_⟩
  · rw [h']
    exact hloops
  · intro i
    refine ⟨rfl, ?_⟩
    rw [Liveness.after, Sides.settled, Array.getD_eq_getD_getElem?, Array.getElem?_map]

end ThreeAddress
end ClassCompiler
