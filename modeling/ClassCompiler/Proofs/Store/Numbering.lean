import ClassCompiler.Proofs.Store.Reading
import ClassCompiler.Proofs.Tree.Document

/-!
# The store of a tree is numbered in pre-order

Hanging a tree into a store puts its nodes behind those that are there, each before what is below
it, and touches no other node but the one that it is hung below.  So the store of a tree is a list
that can be written down beforehand, and the tree that is read off it is the tree with the numbers
from zero on.

* `Store.cellsOf`: the nodes of a tree with their links, in a row.
* `Store.graft_eq`, `Store.plant_eq`: they are what a store grows by.
* `Store.treeAt_ofSource`: the tree is read off its store, numbered in pre-order.
* `Store.read_write_root`: a store that was read from a document is read from the document that is
  written of it.
-/

namespace ClassCompiler

namespace Tree

theorem id_number (t : Source) (next : Nat) : (t.number next).id = next := by
  cases t with
  | node n ts => rfl

theorem sourceAll_numberAll {ts : List Source}
    (h : ∀ t ∈ ts, ∀ next, (t.number next).source = t) :
    ∀ next, mapAll Numbered.toNode (numberAll next ts) = ts := by
  induction ts with
  | nil => exact fun _ => rfl
  | cons t ts ih =>
    intro next
    rw [numberAll, mapAll, ih fun u hu => h u (List.mem_cons_of_mem t hu)]
    exact congrArg (· :: ts) (h t List.mem_cons_self next)

/-- Without its numbers a numbered tree is as before. -/
theorem source_number (t : Source) : ∀ next, (t.number next).source = t := by
  induction t using Tree.induction with
  | node n ts ih =>
    intro next
    rw [number, source, map, sourceAll_numberAll ih]

end Tree

namespace Store

/-- The store with nodes added as they are. -/
def extend (s : Store) (cells : List Cell) : Store :=
  ⟨s.cells ++ cells.toArray⟩

mutual

/-- The nodes of a tree with their links, if the first one gets the number `next`. -/
def cellsOf (parent : Option Nat) (next : Nat) : Source → List Cell
  | .node n ts =>
    { node := n, children := (Tree.numberAll (next + 1) ts).map Tree.id, parent } ::
      cellsOfAll next (next + 1) ts

/-- The nodes of trees that follow one another below the same node. -/
def cellsOfAll (parent next : Nat) : List Source → List Cell
  | [] => []
  | t :: ts => cellsOf (some parent) next t ++ cellsOfAll parent (next + t.size) ts

end

theorem length_cellsOfAll {ts : List Source}
    (h : ∀ t ∈ ts, ∀ parent next, (cellsOf parent next t).length = t.size) :
    ∀ parent next, (cellsOfAll parent next ts).length = Tree.sizeAll ts := by
  induction ts with
  | nil => exact fun _ _ => rfl
  | cons t ts ih =>
    intro parent next
    rw [cellsOfAll, List.length_append, h t List.mem_cons_self,
      ih fun u hu => h u (List.mem_cons_of_mem t hu), Tree.sizeAll]

theorem length_cellsOf (t : Source) :
    ∀ parent next, (cellsOf parent next t).length = t.size := by
  induction t using Tree.induction with
  | node n ts ih =>
    intro parent next
    rw [cellsOf, List.length_cons, length_cellsOfAll ih, Tree.size]

variable {s : Store} {cells cells' : List Cell} {parent id : Nat}

@[simp]
theorem size_extend : (s.extend cells).size = s.size + cells.length :=
  Array.size_append

theorem extend_extend : (s.extend cells).extend cells' = s.extend (cells ++ cells') := by
  simp only [extend, Array.append_assoc, List.append_toArray]

theorem cells_extend (j : Nat) :
    (s.extend cells).cells[j]? = if j < s.size then s.cells[j]? else cells[j - s.size]? := by
  rw [extend, Array.getElem?_append, size]
  split
  · rfl
  · exact List.getElem?_toArray

/-- The first of the nodes that were added. -/
theorem cells_extend_cons (cell : Cell) : (s.extend (cell :: cells)).cells[s.size]? = some cell := by
  rw [cells_extend, if_neg (Nat.lt_irrefl _), Nat.sub_self, List.getElem?_cons_zero]

theorem relist_extend (h : id < s.size) (f : List Nat → List Nat) :
    (s.extend cells).relist id f = (s.relist id f).extend cells := by
  refine eq_of_cells fun j => ?_
  rw [relist, cells_update, cells_extend, cells_extend, size_relist, relist, cells_update]
  by_cases hj : j < s.size
  · rw [if_pos hj, if_pos hj]
  · rw [if_neg hj, if_neg hj, if_neg (by omega)]

theorem relist_extend_last (cell : Cell) (f : List Nat → List Nat) :
    (s.extend [cell]).relist s.size f = s.extend [{ cell with children := f cell.children }] := by
  refine eq_of_cells fun j => ?_
  rw [relist, cells_update, cells_extend, cells_extend]
  by_cases hj : s.size = j
  · subst hj
    rw [if_pos rfl, if_neg (Nat.lt_irrefl _), if_neg (Nat.lt_irrefl _), Nat.sub_self]
    rfl
  · rw [if_neg hj]
    split
    · rfl
    · rw [List.getElem?_eq_none (by simp; omega), List.getElem?_eq_none (by simp; omega)]

theorem relist_relist (f g : List Nat → List Nat) :
    (s.relist id f).relist id g = s.relist id (g ∘ f) := by
  refine eq_of_cells fun j => ?_
  rw [relist, cells_update, relist, cells_update, relist, cells_update]
  split
  · rw [Option.map_map]
    rfl
  · rfl

theorem relist_nil : s.relist id (· ++ []) = s := by
  refine eq_of_cells fun j => ?_
  rw [relist, cells_update]
  simp

/-! ## What a store grows by -/

theorem graftAll_eq {ts : List Source}
    (hgraft : ∀ t ∈ ts, ∀ {s : Store} {parent}, parent < s.size → s.graft parent t =
      (s.relist parent (· ++ [s.size])).extend (cellsOf (some parent) s.size t)) :
    ∀ {s : Store}, parent < s.size → s.graftAll parent ts =
      (s.relist parent (· ++ (Tree.numberAll s.size ts).map Tree.id)).extend
        (cellsOfAll parent s.size ts) := by
  induction ts with
  | nil =>
    intro s _
    rw [graftAll, Tree.numberAll, cellsOfAll, List.map_nil, relist_nil]
    simp [extend]
  | cons t ts ih =>
    intro s hparent
    have hsize : ((s.relist parent (· ++ [s.size])).extend
        (cellsOf (some parent) s.size t)).size = s.size + t.size := by
      rw [size_extend, size_relist, length_cellsOf]
    have hroots : (fun ids => ids ++ (Tree.numberAll (s.size + t.size) ts).map Tree.id) ∘
        (fun ids => ids ++ [s.size]) =
          fun ids => ids ++ (Tree.numberAll s.size (t :: ts)).map Tree.id := by
      ext1 ids
      rw [Tree.numberAll, List.map_cons, Tree.id_number]
      exact List.append_assoc ..
    rw [graftAll, hgraft t List.mem_cons_self hparent,
      ih (fun u hu => hgraft u (List.mem_cons_of_mem t hu)) (by rw [hsize]; omega), hsize,
      relist_extend (by rw [size_relist]; exact hparent), relist_relist, hroots, extend_extend,
      cellsOfAll]

/-- **Hanging a tree into a store** lists its root last among the children of its parent, and puts
its nodes behind those that are there. -/
theorem graft_eq (t : Source) :
    ∀ {s : Store} {parent : Nat}, parent < s.size → s.graft parent t =
      (s.relist parent (· ++ [s.size])).extend (cellsOf (some parent) s.size t) := by
  induction t using Tree.induction with
  | node n ts ih =>
    intro s parent hparent
    have hroot : s.graft parent (.node n ts) =
        ((s.relist parent (· ++ [s.size])).extend [{ node := n, parent := some parent }]).graftAll
          s.size ts := by
      rw [← relist_extend hparent, graft, extend, ← Array.push_eq_append]
      rfl
    have hsize : (s.relist parent (· ++ [s.size])).size = s.size := size_relist _
    rw [hroot, graftAll_eq ih (by simp)]
    generalize s.relist parent (· ++ [s.size]) = grown at hsize ⊢
    rw [← hsize, relist_extend_last, extend_extend, size_extend]
    rfl

/-- A tree that stands alone is put behind the nodes that are there. -/
theorem plant_eq (s : Store) (t : Source) :
    (s.plant t).1 = s.extend (cellsOf none s.size t) := by
  cases t with
  | node n ts =>
    have hroot : (s.plant (.node n ts)).1 = (s.extend [{ node := n }]).graftAll s.size ts := by
      rw [extend, ← Array.push_eq_append]
      rfl
    rw [hroot, graftAll_eq (fun t _ => graft_eq t) (by simp), relist_extend_last, extend_extend,
      size_extend]
    rfl

/-! ## What is read off it -/

theorem mapM_treeWithin_extend {ts : List Source} {depth : Nat}
    (hread : ∀ t ∈ ts, ∀ (s : Store) (parent : Option Nat) (after : List Cell), t.size ≤ depth →
      ((s.extend (cellsOf parent s.size t)).extend after).treeWithin depth s.size =
        some (t.number s.size)) :
    ∀ (s : Store) (parent : Nat) (after : List Cell), Tree.sizeAll ts ≤ depth →
      ((Tree.numberAll s.size ts).map Tree.id).mapM
          (((s.extend (cellsOfAll parent s.size ts)).extend after).treeWithin depth) =
        some (Tree.numberAll s.size ts) := by
  induction ts with
  | nil => exact fun _ _ _ _ => rfl
  | cons t ts ih =>
    intro s parent after hdepth
    rw [Tree.sizeAll] at hdepth
    have hfirst := hread t List.mem_cons_self s (some parent)
      (cellsOfAll parent (s.size + t.size) ts ++ after) (by omega)
    have hrest := ih (fun u hu => hread u (List.mem_cons_of_mem t hu))
      (s.extend (cellsOf (some parent) s.size t)) parent after (by omega)
    rw [size_extend, length_cellsOf] at hrest
    rw [cellsOfAll, Tree.numberAll, List.map_cons, Tree.id_number, List.mapM_cons]
    simp only [extend_extend, List.append_assoc] at hfirst hrest ⊢
    rw [hfirst, hrest]
    rfl

theorem treeWithin_extend (t : Source) :
    ∀ (s : Store) (parent : Option Nat) (after : List Cell) {depth : Nat}, t.size ≤ depth →
      ((s.extend (cellsOf parent s.size t)).extend after).treeWithin depth s.size =
        some (t.number s.size) := by
  induction t using Tree.induction with
  | node n ts ih =>
    intro s parent after depth hdepth
    rw [Tree.size] at hdepth
    obtain ⟨depth, rfl⟩ : ∃ d, depth = d + 1 := ⟨depth - 1, by omega⟩
    have hroot := @cells_extend_cons s (cellsOfAll s.size (s.size + 1) ts ++ after)
      { node := n, children := (Tree.numberAll (s.size + 1) ts).map Tree.id, parent }
    have hchildren := mapM_treeWithin_extend (fun t ht s parent after => ih t ht s parent after)
      (s.extend [{ node := n, children := (Tree.numberAll (s.size + 1) ts).map Tree.id, parent }])
      s.size after (Nat.le_of_succ_le_succ hdepth)
    rw [size_extend, extend_extend, extend_extend] at hchildren
    rw [extend_extend, cellsOf]
    exact treeWithin_succ.mpr ⟨_, _, hroot, hchildren, rfl⟩

theorem size_ofSource (t : Source) : (ofSource t).size = t.size := by
  rw [ofSource, plant_eq, size_extend, length_cellsOf]
  exact Nat.zero_add _

/-- **The tree is read off its store**, numbered in pre-order. -/
theorem treeAt_ofSource (t : Source) : (ofSource t).treeAt root = .ok (t.number 0) := by
  have hstore : (ofSource t).extend [] = ofSource t := by simp [extend]
  have hread := treeWithin_extend t ⟨#[]⟩ none [] (Nat.le_refl t.size)
  rw [← plant_eq, ← ofSource, hstore] at hread
  rw [treeAt_eq_ok, size_ofSource]
  exact hread

/-! ## Documents -/

/-- **A store that was read from a document is read again from the document of its tree**: every
node has the number, kind, position, attributes, children and parent that it had, however the first
document was spelled. -/
theorem read_write_root {text : String} {s : Store}
    (h : (Document.read text).map ofSource = .ok s) :
    ∃ t, s.treeAt root = .ok t ∧
      (Document.read (Document.write t.source)).map ofSource = .ok s ∧
      (Document.toValue t.source).Within Json.Number.Small Document.maxDepth := by
  cases hsource : Document.read text with
  | error e =>
    rw [hsource] at h
    cases h
  | ok source =>
    rw [hsource] at h
    cases Except.ok.inj h
    obtain ⟨hread, hwithin⟩ := Document.read_write hsource
    refine ⟨source.number 0, treeAt_ofSource source, ?_, ?_⟩
    · rw [Tree.source_number, hread]
      rfl
    · rw [Tree.source_number]
      exact hwithin

/-- A document in a spelling of its own: kinds by number, a type as a list, an operator as a member,
a name with an escape, a member that nobody knows, and defaults left out. -/
def spelled : String :=
  "\x7b\"col\": 7, \"note\": [null], \"kind\": 9, \"children\": [" ++
    "\x7b\"ty\": [\"int\", true], \"kind\": \"VarDeclaration\", \"name\": \"\\u0061\"\x7d," ++
    "\x7b\"kind\": 19, \"op\": \x7b\"+\": null\x7d\x7d]\x7d"

/-- The store of that document. -/
def spelledStore : Store :=
  ⟨#[{ node := { kind := .block, position := ⟨0, 7⟩ }, children := [1, 2] },
    { node := { kind := .localVar "a" ⟨"int", true⟩ }, parent := some 0 },
    { node := { kind := .binary .add }, parent := some 0 }]⟩

theorem spelled_read_again :
    (Document.read spelled).map ofSource = .ok spelledStore ∧
      ∃ t, spelledStore.treeAt root = .ok t ∧
        (Document.read (Document.write t.source)).map ofSource = .ok spelledStore ∧
        (Document.toValue t.source).Within Json.Number.Small Document.maxDepth := by
  have hread : (Document.read spelled).map ofSource = .ok spelledStore := by decide +kernel
  exact ⟨hread, read_write_root hread⟩

end Store
end ClassCompiler
