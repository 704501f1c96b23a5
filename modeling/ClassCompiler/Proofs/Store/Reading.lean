import Mathlib.Data.List.Pairwise
import Mathlib.Data.List.Perm.Subperm
import ClassCompiler.Proofs.Store.Links
import ClassCompiler.Proofs.Tree.Induction

/-!
# Reading the tree below a node

Whoever follows the children of a node comes to an end exactly if the node is not below itself.  Where
the way up from a node ends, at a node without a parent, the node is not below itself, and neither is
any node below it; so its tree is read to the end, and every node below it is met once.

* `Store.Below`, `Store.Ends`, `Store.Acyclic`: ways along the parents.
* `treeAt_of_ends`, `treeAt_of_cycle`: when a tree can be read.
* `preorder_of_ends`: the nodes of a tree, each once.
* `Hung.acyclic`, `Hung.cycle`: when hanging a node somewhere closes a cycle.
-/

namespace ClassCompiler
namespace Store

open Relation (ReflTransGen TransGen)

/-- `c` hangs directly below `p`. -/
def Hangs (s : Store) (c p : Nat) : Prop :=
  s.parentOf c = some p

/-- A node is another one, or hangs below it. -/
def Below (s : Store) : Nat → Nat → Prop :=
  ReflTransGen s.Hangs

/-- The way up from a node ends, at a node without a parent. -/
def Ends (s : Store) (id : Nat) : Prop :=
  ∃ top, s.Below id top ∧ s.parentOf top = none

/-- The way up ends from every node. -/
def Acyclic (s : Store) : Prop :=
  ∀ id, s.Ends id

variable {s s' : Store} {a c p q n id depth : Nat}

/-! ## Ways up -/

theorem Hangs.unique : Relator.RightUnique s.Hangs := by
  intro c p q hp hq
  exact Option.some.inj (hp.symm.trans hq)

theorem Ends.of_parentless (h : s.parentOf id = none) : s.Ends id :=
  ⟨id, .refl, h⟩

theorem Ends.child (h : s.Ends p) (hc : s.Hangs c p) : s.Ends c := by
  obtain ⟨top, hbelow, htop⟩ := h
  exact ⟨top, .head hc hbelow, htop⟩

/-- A cycle goes on through the parent. -/
theorem cycle_parent (hc : s.Hangs c p) (hcycle : TransGen s.Hangs c c) :
    TransGen s.Hangs p p := by
  obtain ⟨q, hq, hback⟩ := TransGen.head'_iff.mp hcycle
  cases Hangs.unique hc hq
  exact TransGen.tail' hback hc

/-- A cycle goes on through a child. -/
theorem cycle_child (hcycle : TransGen s.Hangs p p) :
    ∃ c, s.Hangs c p ∧ TransGen s.Hangs c c := by
  obtain ⟨c, hbelow, hc⟩ := TransGen.tail'_iff.mp hcycle
  exact ⟨c, hc, TransGen.head' hc hbelow⟩

theorem Ends.not_cycle (h : s.Ends id) : ¬ TransGen s.Hangs id id := by
  obtain ⟨top, hbelow, htop⟩ := h
  induction hbelow using ReflTransGen.head_induction_on with
  | refl =>
    intro hcycle
    obtain ⟨p, hp, -⟩ := TransGen.head'_iff.mp hcycle
    exact Option.some_ne_none p (hp.symm.trans htop)
  | head hc _ ih =>
    intro hcycle
    exact ih (cycle_parent hc hcycle)

/-- The way up ends as before where the parents are as before, up to a node whose way up is known to
end. -/
theorem Ends.of_same (h : s.Ends q)
    (hsame : ∀ c, s.Below q c → s'.parentOf c = s.parentOf c ∨ s'.Ends c) : s'.Ends q := by
  obtain ⟨top, hbelow, htop⟩ := h
  induction hbelow using ReflTransGen.head_induction_on with
  | refl =>
    rcases hsame top .refl with htop' | hends
    · exact .of_parentless (htop'.trans htop)
    · exact hends
  | @head c p hc _ ih =>
    rcases hsame c .refl with hc' | hends
    · exact (ih fun d hd => hsame d (.head hc hd)).child (hc'.trans hc)
    · exact hends

theorem Below.of_same (h : s.Below q n)
    (hsame : ∀ c, s.Below q c → c ≠ n → s'.parentOf c = s.parentOf c) : s'.Below q n := by
  induction h using ReflTransGen.head_induction_on with
  | refl => exact .refl
  | @head c p hc _ ih =>
    by_cases hcn : c = n
    · exact hcn ▸ .refl
    · exact .head ((hsame c .refl hcn).trans hc) (ih fun d hd => hsame d (.head hc hd))

/-! ## Hanging a node somewhere -/

/-- If nothing but one node gets a new parent, and it is not above that parent, all ways up still
end. -/
theorem acyclic_of_rehung (h : s.Acyclic) (hfree : ¬ s.Below p n)
    (hup : ∀ c, s'.parentOf c = s.parentOf c ∨ s'.parentOf c = none ∨
      c = n ∧ s'.parentOf c = some p) : s'.Acyclic := by
  have hp : s'.Ends p := by
    refine (h p).of_same fun c hc => ?_
    rcases hup c with hsame | hnone | ⟨rfl, -⟩
    · exact .inl hsame
    · exact .inr (.of_parentless hnone)
    · exact absurd hc hfree
  intro q
  refine (h q).of_same fun c _ => ?_
  rcases hup c with hsame | hnone | ⟨-, hc⟩
  · exact .inl hsame
  · exact .inr (.of_parentless hnone)
  · exact .inr (hp.child hc)

/-- If a node is hung below one that is below it, this closes a cycle. -/
theorem cycle_of_rehung (hbelow : s.Below p n) (hn : s'.parentOf n = some p)
    (hsame : ∀ c, s.Below p c → c ≠ n → s'.parentOf c = s.parentOf c) :
    TransGen s'.Hangs n n :=
  TransGen.head' hn (hbelow.of_same hsame)

/-- What hanging a node does to the parents: the node gets one, and the child in whose place it is
put loses its own. -/
theorem Hung.parents (hhung : s.Hung p n s') (h : s.Linked) :
    s'.parentOf n = some p ∧
      ∀ c, c ≠ n → s'.parentOf c = s.parentOf c ∨ s'.parentOf c = none ∧ s.Hangs c p := by
  cases hhung with
  | attach hp hn =>
    rw [parentOf_attach hn.lt]
    refine ⟨Function.update_self .., fun c hc => .inl ?_⟩
    rw [Function.update_of_ne hc]
  | @exchange index old hold hn =>
    have hmem : old ∈ s.childrenOf p := List.mem_of_getElem? hold
    have hup : s.Hangs old p := h.listed.mem_iff.mp hmem
    have hne : n ≠ old := by
      rintro rfl
      exact Option.some_ne_none p (hup.symm.trans hn.parent)
    rw [parentOf_exchange (h.child_lt hmem) hn.lt]
    refine ⟨?_, fun c hc => ?_⟩
    · rw [Function.update_of_ne hne, Function.update_self]
    · by_cases hold : c = old
      · subst hold
        exact .inr ⟨Function.update_self .., hup⟩
      · rw [Function.update_of_ne hold, Function.update_of_ne hc]
        exact .inl rfl

theorem Hung.acyclic (hhung : s.Hung p n s') (h : s.Linked) (hacyclic : s.Acyclic)
    (hfree : ¬ s.Below p n) : s'.Acyclic := by
  obtain ⟨hn, hothers⟩ := hhung.parents h
  refine acyclic_of_rehung hacyclic hfree fun c => ?_
  by_cases hc : c = n
  · exact .inr (.inr ⟨hc, hc ▸ hn⟩)
  · rcases hothers c hc with hsame | ⟨hnone, -⟩
    · exact .inl hsame
    · exact .inr (.inl hnone)

theorem Hung.cycle (hhung : s.Hung p n s') (h : s.Linked) (hacyclic : s.Acyclic)
    (hbelow : s.Below p n) : TransGen s'.Hangs n n := by
  obtain ⟨hn, hothers⟩ := hhung.parents h
  refine cycle_of_rehung hbelow hn fun c hc hne => ?_
  rcases hothers c hne with hsame | ⟨-, hhangs⟩
  · exact hsame
  · exact absurd (TransGen.tail' hc hhangs) (hacyclic p).not_cycle

theorem Bare.not_below (h : s.Linked) (hbare : s.Bare p n) : ¬ s.Below p n := by
  intro hbelow
  rcases (ReflTransGen.cases_tail_iff _ _ _).mp hbelow with heq | ⟨c, -, hc⟩
  · exact hbare.1 heq.symm
  · have hmem : c ∈ s.childrenOf n := h.listed.mem_iff.mpr hc
    rw [hbare.2] at hmem
    exact absurd hmem List.not_mem_nil

theorem Steps.acyclic (hsteps : Steps Bare s s') (h : s.Linked) (hacyclic : s.Acyclic) :
    s'.Acyclic := by
  induction hsteps with
  | refl => exact hacyclic
  | tail hsteps hstep ih =>
    cases hstep with
    | add n =>
      intro id
      refine (ih id).of_same fun c _ => .inl ?_
      rw [parentOf_add]
    | hang hbare hhung =>
      have hlinked := Steps.linked hsteps h
      exact hhung.acyclic hlinked ih (hbare.not_below hlinked)

/-! ## The tree below a node -/

theorem treeWithin_succ {t : Ast} :
    s.treeWithin (depth + 1) id = some t ↔
      ∃ cell ts, s.cells[id]? = some cell ∧ cell.children.mapM (s.treeWithin depth) = some ts ∧
        t = .node { cell.node with id } ts := by
  rw [treeWithin, Option.bind_eq_bind, Option.bind_eq_some_iff]
  refine exists_congr fun cell => ?_
  rw [Option.bind_eq_bind, Option.bind_eq_some_iff, exists_and_left]
  refine and_congr_right fun _ => exists_congr fun ts => ?_
  rw [Option.some.injEq, eq_comm (a := t)]

theorem id_of_treeWithin {t : Ast} (h : s.treeWithin depth id = some t) : t.id = id := by
  cases depth with
  | zero => cases h
  | succ depth =>
    obtain ⟨cell, ts, -, -, rfl⟩ := treeWithin_succ.mp h
    rfl

theorem mapM_treeWithin {ids : List Nat} {ts : List Ast}
    (h : ids.mapM (s.treeWithin depth) = some ts) :
    ts.map Tree.id = ids ∧ ∀ t ∈ ts, s.treeWithin depth t.id = some t := by
  induction ids generalizing ts with
  | nil =>
    cases Option.some.inj h
    exact ⟨rfl, fun t ht => absurd ht List.not_mem_nil⟩
  | cons c ids ih =>
    rw [List.mapM_cons] at h
    obtain ⟨t, ht, h⟩ := Option.bind_eq_some_iff.mp h
    obtain ⟨us, hus, h⟩ := Option.bind_eq_some_iff.mp h
    cases Option.some.inj h
    obtain ⟨hids, htrees⟩ := ih hus
    have hid := id_of_treeWithin ht
    refine ⟨by rw [List.map_cons, hid, hids], fun u hu => ?_⟩
    rcases List.mem_cons.mp hu with rfl | hu
    · rw [hid, ht]
    · exact htrees u hu

theorem exists_mapM_treeWithin {ids : List Nat}
    (h : ∀ c ∈ ids, ∃ t, s.treeWithin depth c = some t) :
    ∃ ts, ids.mapM (s.treeWithin depth) = some ts := by
  induction ids with
  | nil => exact ⟨[], rfl⟩
  | cons c ids ih =>
    obtain ⟨t, ht⟩ := h c List.mem_cons_self
    obtain ⟨ts, hts⟩ := ih fun d hd => h d (List.mem_cons_of_mem c hd)
    exact ⟨t :: ts, by rw [List.mapM_cons, ht, hts]; rfl⟩

/-- A tree that was read is made of its root and the trees of its children. -/
theorem parts_of_treeWithin (h : s.Linked) {t : Ast} (ht : s.treeWithin (depth + 1) id = some t) :
    ∃ n ts, t = .node n ts ∧ n.id = id ∧ (ts.map Tree.id).Nodup ∧
      (∀ c, s.Hangs c id ↔ c ∈ ts.map Tree.id) ∧
      ∀ u ∈ ts, s.treeWithin depth u.id = some u := by
  obtain ⟨cell, ts, hcell, hmap, rfl⟩ := treeWithin_succ.mp ht
  obtain ⟨hids, htrees⟩ := mapM_treeWithin hmap
  rw [← childrenOf_of_cell hcell] at hids
  refine ⟨_, ts, rfl, rfl, ?_, fun c => ?_, htrees⟩
  · rw [hids]
    exact h.listed.nodup id
  · rw [hids, h.listed.mem_iff, Hangs]

/-- A chain of nodes whose ways up end has no node twice. -/
theorem nodup_of_chain {ids : List Nat} (hchain : ids.IsChain s.Hangs)
    (hends : ∀ id ∈ ids, s.Ends id) : ids.Nodup := by
  have hpairs : ids.Pairwise (TransGen s.Hangs) :=
    (hchain.imp fun _ _ => TransGen.single).pairwise
  refine hpairs.imp_of_mem fun {a b} ha _ hab heq => ?_
  subst heq
  exact (hends a ha).not_cycle hab

/-- A tree is read to the end: the nodes from the place where the reading began down to the node at
hand are all different, so there are no more of them than nodes in the store. -/
theorem exists_treeWithin (h : s.Linked) :
    ∀ {depth id : Nat} {above : List Nat}, (id :: above).IsChain s.Hangs →
      (∀ a ∈ id :: above, s.Ends a ∧ a < s.size) → s.size ≤ above.length + depth →
      ∃ t, s.treeWithin depth id = some t := by
  intro depth
  induction depth with
  | zero =>
    intro id above hchain hall hsize
    have hnodup := nodup_of_chain hchain fun a ha => (hall a ha).1
    have hsub : id :: above ⊆ List.range s.size :=
      fun a ha => List.mem_range.mpr (hall a ha).2
    have hle := (hnodup.subperm hsub).length_le
    rw [List.length_range, List.length_cons] at hle
    omega
  | succ depth ih =>
    intro id above hchain hall hsize
    obtain ⟨hends, hlt⟩ := hall id List.mem_cons_self
    obtain ⟨cell, hcell⟩ := exists_cell hlt
    have hchildren : ∀ c ∈ cell.children, ∃ t, s.treeWithin depth c = some t := by
      intro c hc
      rw [← childrenOf_of_cell hcell] at hc
      have hhangs : s.Hangs c id := h.listed.mem_iff.mp hc
      refine @ih c (id :: above) (.cons_cons hhangs hchain) ?_ ?_
      · intro a ha
        rcases List.mem_cons.mp ha with rfl | ha
        · exact ⟨hends.child hhangs, h.child_lt hc⟩
        · exact hall a ha
      · rw [List.length_cons]
        omega
    obtain ⟨ts, hts⟩ := exists_mapM_treeWithin hchildren
    exact ⟨_, treeWithin_succ.mpr ⟨cell, ts, hcell, hts, rfl⟩⟩

theorem treeAt_eq_ok {t : Ast} : s.treeAt id = .ok t ↔ s.treeWithin s.size id = some t := by
  unfold treeAt
  split
  · next h => rw [h, Except.ok.injEq, Option.some.injEq]
  · next h => simp [h]

/-- The tree below a node can be read if the way up from the node ends. -/
theorem treeAt_of_ends (h : s.Linked) (hid : id < s.size) (hends : s.Ends id) :
    ∃ t, s.treeAt id = .ok t := by
  simp only [treeAt_eq_ok]
  refine exists_treeWithin h (.singleton id) (fun a ha => ?_) (Nat.le_add_left _ _)
  cases List.mem_singleton.mp ha
  exact ⟨hends, hid⟩

/-- The tree of a node that is below itself has no end. -/
theorem treeWithin_of_cycle (h : s.Linked) (hcycle : TransGen s.Hangs id id) :
    s.treeWithin depth id = none := by
  induction depth generalizing id with
  | zero => rfl
  | succ depth ih =>
    by_contra hsome
    obtain ⟨t, ht⟩ := Option.ne_none_iff_exists'.mp hsome
    obtain ⟨n, ts, -, -, -, hchildren, htrees⟩ := parts_of_treeWithin h ht
    obtain ⟨c, hc, hcycle⟩ := cycle_child hcycle
    obtain ⟨u, hu, rfl⟩ := List.mem_map.mp ((hchildren c).mp hc)
    exact Option.some_ne_none u ((htrees u hu).symm.trans (ih hcycle))

theorem treeAt_of_cycle (h : s.Linked) (hcycle : TransGen s.Hangs id id) :
    s.treeAt id = .error (.noSuchNode id) := by
  rw [treeAt, treeWithin_of_cycle h hcycle]

/-! ## The nodes of a tree -/

theorem mem_preorder_iff (h : s.Linked) {t : Ast} (ht : s.treeWithin depth id = some t) :
    a ∈ t.preorder.map Numbered.id ↔ s.Below a id := by
  induction depth generalizing id t with
  | zero => cases ht
  | succ depth ih =>
    obtain ⟨n, ts, rfl, rfl, -, hchildren, htrees⟩ := parts_of_treeWithin h ht
    rw [Tree.preorder, Tree.preorderAll_eq_flatMap, List.map_cons, List.map_flatMap, List.mem_cons,
      List.mem_flatMap, Below, ReflTransGen.cases_tail_iff, eq_comm]
    refine or_congr_right ⟨?_, ?_⟩
    · rintro ⟨u, hu, ha⟩
      exact ⟨u.id, (ih (htrees u hu)).mp ha, (hchildren _).mpr (List.mem_map_of_mem hu)⟩
    · rintro ⟨c, ha, hc⟩
      obtain ⟨u, hu, rfl⟩ := List.mem_map.mp ((hchildren c).mp hc)
      exact ⟨u, hu, (ih (htrees u hu)).mpr ha⟩

/-- Two children of a node have nothing below them in common. -/
theorem eq_of_below_siblings (hfree : ¬ TransGen s.Hangs id id) (hp : s.Hangs p id)
    (hq : s.Hangs q id) (hap : s.Below a p) (haq : s.Below a q) : p = q := by
  have hstop : ∀ {x y}, s.Hangs x id → s.Hangs y id → s.Below x y → x = y := by
    intro x y hx hy hxy
    rcases ReflTransGen.cases_head_iff.mp hxy with heq | ⟨z, hz, hzy⟩
    · exact heq
    · cases Hangs.unique hx hz
      exact absurd (TransGen.tail' hzy hy) hfree
  rcases ReflTransGen.total_of_right_unique Hangs.unique hap haq with hpq | hqp
  · exact hstop hp hq hpq
  · exact (hstop hq hp hqp).symm

/-- A tree that can be read has no node twice. -/
theorem preorder_nodup (h : s.Linked) {t : Ast} (ht : s.treeWithin depth id = some t) :
    (t.preorder.map Numbered.id).Nodup := by
  induction depth generalizing id t with
  | zero => cases ht
  | succ depth ih =>
    have hfree : ¬ TransGen s.Hangs id id := fun hcycle =>
      Option.some_ne_none t (ht.symm.trans (treeWithin_of_cycle h hcycle))
    obtain ⟨n, ts, rfl, rfl, hnodup, hchildren, htrees⟩ := parts_of_treeWithin h ht
    have hhangs : ∀ u ∈ ts, s.Hangs u.id n.id :=
      fun u hu => (hchildren _).mpr (List.mem_map_of_mem hu)
    rw [Tree.preorder, Tree.preorderAll_eq_flatMap, List.map_cons, List.map_flatMap,
      List.nodup_cons, List.nodup_flatMap]
    refine ⟨?_, fun u hu => ih (htrees u hu), ?_⟩
    · intro hmem
      obtain ⟨u, hu, ha⟩ := List.mem_flatMap.mp hmem
      have hbelow := (mem_preorder_iff h (htrees u hu)).mp ha
      exact hfree (TransGen.tail' hbelow (hhangs u hu))
    · refine (List.pairwise_map.mp hnodup).imp_of_mem fun {u v} hu hv hne => ?_
      intro a hau hav
      have hau := (mem_preorder_iff h (htrees u hu)).mp hau
      have hav := (mem_preorder_iff h (htrees v hv)).mp hav
      exact hne (eq_of_below_siblings hfree (hhangs u hu) (hhangs v hv) hau hav)

/-- Where the way up from a node ends, its nodes can be listed: those below it, each once. -/
theorem preorder_of_ends (h : s.Linked) (hid : id < s.size) (hends : s.Ends id) :
    ∃ ids, s.preorder id = .ok ids ∧ ids.Nodup ∧ ∀ a, a ∈ ids ↔ s.Below a id := by
  obtain ⟨t, ht⟩ := treeAt_of_ends h hid hends
  have hread := treeAt_eq_ok.mp ht
  refine ⟨_, by rw [preorder, ht]; rfl, ?_, ?_⟩
  · exact preorder_nodup h hread
  · exact fun a => mem_preorder_iff h hread

end Store
end ClassCompiler
