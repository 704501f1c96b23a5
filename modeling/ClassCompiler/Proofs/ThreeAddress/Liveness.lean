import Mathlib.Data.Finset.Card
import Mathlib.Data.Finset.Prod
import ClassCompiler.Proofs.Meaning.World
import ClassCompiler.ThreeAddress.Liveness

/-!
# Live variables are those that some path reads

The sets of live variables are computed by sweeps that change them in their place, so that one sweep
mixes sets of before and after it.  It makes no difference.  Whatever the order, a set is only ever
replaced by a larger one, and a name is only ever put into a set because a path from there reads it
before it assigns it.  There are finitely many names to put somewhere, so a sweep comes that changes
nothing; then the equations hold, and a name that a path reads has been carried back along the path.

* `Method.ReadsAhead`: a path that reads a name before it assigns it.
* `Approaches`: what every revision of a set keeps.
* `Settles`: sweeping comes to an end by itself.
* `Method.liveness_eq_error`: when there are no sets.
* `Method.liveness_least`: the sweeps end, and give the least sets, those of the paths.
-/

namespace ClassCompiler
namespace ThreeAddress

open Meaning (except_bind_eq_ok)

/-! ## Control flow -/

variable {m : Method} {name : String} {i j : Nat}

theorem labelIndex?_eq_none {code : List Instr} :
    labelIndex? name i code = none ↔ ∀ c ∈ code, c.label? ≠ some name := by
  induction code generalizing i with
  | nil => simp [labelIndex?]
  | cons c code ih =>
    rw [labelIndex?, List.forall_mem_cons, ← @ih (i + 1)]
    cases labelIndex? name (i + 1) code with
    | some j => simp
    | none => by_cases hc : c.label? = some name <;> simp [hc]

theorem labelIndex?_eq_some {code : List Instr} (h : labelIndex? name i code = some j) :
    ∃ k c, j = i + k ∧ code[k]? = some c ∧ c.label? = some name := by
  induction code generalizing i with
  | nil => cases h
  | cons c code ih =>
    rw [labelIndex?] at h
    cases hlater : labelIndex? name (i + 1) code with
    | some later =>
      rw [hlater] at h
      cases Option.some.inj h
      obtain ⟨k, c', rfl, hk, hc'⟩ := ih hlater
      exact ⟨k + 1, c', by omega, hk, hc'⟩
    | none =>
      rw [hlater] at h
      dsimp only at h
      split at h
      · next hc => exact ⟨0, c, by rw [← Option.some.inj h]; omega, rfl, hc⟩
      · cases h

/-- The instructions have no successors exactly if a jump goes nowhere. -/
theorem successors_eq_error {c : Instr} :
    (∃ e, successors m i c = .error e) ↔
      ∃ name, c.target? = some name ∧ ∀ c' ∈ m.code, c'.label? ≠ some name := by
  unfold successors
  cases htarget : c.target? with
  | none => simp
  | some name =>
    have hset := @labelIndex?_eq_none name 0 m.code
    cases hplace : labelIndex? name 0 m.code with
    | none =>
      have hnone := hset.mp hplace
      dsimp only
      simpa [hplace] using hnone
    | some j =>
      have hsome := mt hset.mpr (hplace ▸ Option.some_ne_none j)
      dsimp only
      simpa [hplace] using hsome

theorem mem_successors {c : Instr} {succ : List Nat} (h : successors m i c = .ok succ) :
    j ∈ succ ↔ (c.isTerminator = false ∧ j = i + 1 ∧ j < m.code.length) ∨
      ∃ label, c.target? = some label ∧ labelIndex? label 0 m.code = some j := by
  have hnext : j ∈ (if !c.isTerminator && decide (i + 1 < m.code.length) then [i + 1] else []) ↔
      c.isTerminator = false ∧ j = i + 1 ∧ j < m.code.length := by
    split_ifs with hcond
    · simp only [Bool.and_eq_true, Bool.not_eq_true', decide_eq_true_eq] at hcond
      rw [List.mem_singleton]
      exact ⟨fun hj => ⟨hcond.1, hj, hj ▸ hcond.2⟩, fun hj => hj.2.1⟩
    · simp only [Bool.and_eq_true, Bool.not_eq_true', decide_eq_true_eq] at hcond
      exact iff_of_false List.not_mem_nil fun hj => hcond ⟨hj.1, hj.2.1 ▸ hj.2.2⟩
  unfold successors at h
  rw [← hnext]
  generalize (if !c.isTerminator && decide (i + 1 < m.code.length) then [i + 1] else []) = next at h
  cases htarget : c.target? with
  | none =>
    rw [htarget] at h
    rw [← Except.ok.inj h]
    simp
  | some label =>
    cases hplace : labelIndex? label 0 m.code with
    | none => simp [htarget, hplace] at h
    | some target =>
      simp only [htarget, hplace] at h
      rw [← Except.ok.inj h]
      split_ifs with hcontains
      · have htargets := List.contains_iff_mem.mp hcontains
        refine ⟨.inl, ?_⟩
        rintro (hj | ⟨label', hlabel', hj⟩)
        · exact hj
        · cases Option.some.inj hlabel'
          rwa [← Option.some.inj (hplace.symm.trans hj)]
      · rw [List.mem_append, List.mem_singleton]
        simp [hplace, eq_comm]

theorem successorsFrom_eq_ok {cs : List Instr} {succs : List (List Nat)}
    (h : successorsFrom m i cs = .ok succs) :
    succs.length = cs.length ∧
      ∀ k c, cs[k]? = some c → ∃ js, succs[k]? = some js ∧ successors m (i + k) c = .ok js := by
  induction cs generalizing i succs with
  | nil =>
    cases Except.ok.inj h
    exact ⟨rfl, fun k c hc => by simp at hc⟩
  | cons c cs ih =>
    obtain ⟨js, hjs, h⟩ := except_bind_eq_ok.mp h
    obtain ⟨rest, hrest, h⟩ := except_bind_eq_ok.mp h
    cases Except.ok.inj h
    obtain ⟨hlength, hat⟩ := ih hrest
    refine ⟨by rw [List.length_cons, List.length_cons, hlength], fun k c' hk => ?_⟩
    cases k with
    | zero =>
      cases Option.some.inj hk
      exact ⟨js, rfl, hjs⟩
    | succ k =>
      rw [List.getElem?_cons_succ] at hk ⊢
      rw [Nat.add_comm k 1, ← Nat.add_assoc]
      exact hat k c' hk

theorem successorsFrom_eq_error {cs : List Instr} :
    (∃ e, successorsFrom m i cs = .error e) ↔
      ∃ c ∈ cs, ∃ name, c.target? = some name ∧ ∀ c' ∈ m.code, c'.label? ≠ some name := by
  induction cs generalizing i with
  | nil => simp [successorsFrom]
  | cons c cs ih =>
    rw [List.exists_mem_cons_iff, ← ih (i := i + 1), ← successors_eq_error (i := i), successorsFrom]
    cases successors m i c with
    | error e => simp [bind, Except.bind]
    | ok js => cases successorsFrom m (i + 1) cs <;> simp [bind, Except.bind, pure, Except.pure]

/-- The nodes of the equations are the instructions of the method. -/
structure Charts (m : Method) (nodes : Array FlowNode) : Prop where
  size : nodes.size = m.code.length
  node : ∀ i c, m.code[i]? = some c → ∃ succ, successors m i c = .ok succ ∧
    nodes[i]? = some { uses := .ofList c.uses, defs := .ofList c.defs, succ }

theorem charts_flowNodes {nodes : Array FlowNode} (h : flowNodes m = .ok nodes) :
    Charts m nodes := by
  obtain ⟨succs, hsuccs, h⟩ := except_bind_eq_ok.mp h
  cases Except.ok.inj h
  obtain ⟨hlength, hat⟩ := successorsFrom_eq_ok hsuccs
  refine ⟨by simp [hlength], fun i c hc => ?_⟩
  obtain ⟨succ, hsucc, hok⟩ := hat i c hc
  rw [Nat.zero_add] at hok
  refine ⟨succ, hok, ?_⟩
  rw [List.getElem?_toArray, List.getElem?_map,
    List.getElem?_zip_eq_some (z := (c, succ)) |>.mpr ⟨hc, hsucc⟩]
  rfl

namespace Charts

variable {nodes : Array FlowNode}

/-- Every node of the equations is an instruction. -/
theorem instr (h : Charts m nodes) {n : FlowNode} (hn : nodes[i]? = some n) :
    ∃ c, m.code[i]? = some c ∧ successors m i c = .ok n.succ ∧
      (∀ x, x ∈ n.uses ↔ x ∈ c.uses) ∧ ∀ x, x ∈ n.defs ↔ x ∈ c.defs := by
  obtain ⟨hi, -⟩ := Array.getElem?_eq_some_iff.mp hn
  have hc := List.getElem?_eq_getElem (h.size ▸ hi)
  obtain ⟨succ, hsucc, hnode⟩ := h.node i _ hc
  cases Option.some.inj (hn.symm.trans hnode)
  refine ⟨_, hc, hsucc, fun x => ?_, fun x => ?_⟩
  · rw [Std.ExtTreeSet.mem_ofList, List.contains_iff_mem]
  · rw [Std.ExtTreeSet.mem_ofList, List.contains_iff_mem]

end Charts

/-! ## Paths -/

namespace Method

/-- Control may go from one place to another. -/
def LeadsTo (m : Method) (i j : Nat) : Prop :=
  ∃ c succ, m.code[i]? = some c ∧ successors m i c = .ok succ ∧ j ∈ succ

/-- Every jump goes somewhere. -/
def JumpsLand (m : Method) : Prop :=
  ∀ c ∈ m.code, ∀ label, c.target? = some label → ∃ c' ∈ m.code, c'.label? = some label

/-- Control goes on to the next instruction or to the target of a jump. -/
theorem leadsTo_iff (hland : m.JumpsLand) {c : Instr} (hc : m.code[i]? = some c) :
    m.LeadsTo i j ↔ (c.isTerminator = false ∧ j = i + 1 ∧ j < m.code.length) ∨
      ∃ label, c.target? = some label ∧ labelIndex? label 0 m.code = some j := by
  constructor
  · rintro ⟨c', succ, hc', hsucc, hj⟩
    cases Option.some.inj (hc.symm.trans hc')
    exact (mem_successors hsucc).mp hj
  · intro hj
    cases hsucc : successors m i c with
    | ok succ => exact ⟨c, succ, hc, hsucc, (mem_successors hsucc).mpr hj⟩
    | error e =>
      obtain ⟨label, htarget, hmissing⟩ := successors_eq_error.mp ⟨e, hsucc⟩
      obtain ⟨c', hc', hlabel⟩ := hland c (List.mem_of_getElem? hc) label htarget
      exact absurd hlabel (hmissing c' hc')

/-- The instruction at a place reads a name. -/
def ReadsAt (m : Method) (name : String) (i : Nat) : Prop :=
  ∃ c, m.code[i]? = some c ∧ name ∈ c.uses

/-- The instruction at a place assigns a name. -/
def AssignsAt (m : Method) (name : String) (i : Nat) : Prop :=
  ∃ c, m.code[i]? = some c ∧ name ∈ c.defs

theorem readsAt_iff {c : Instr} (hc : m.code[i]? = some c) :
    m.ReadsAt name i ↔ name ∈ c.uses := by
  refine ⟨?_, fun hname => ⟨c, hc, hname⟩⟩
  rintro ⟨c', hc', hname⟩
  rwa [Option.some.inj (hc.symm.trans hc')]

theorem assignsAt_iff {c : Instr} (hc : m.code[i]? = some c) :
    m.AssignsAt name i ↔ name ∈ c.defs := by
  refine ⟨?_, fun hname => ⟨c, hc, hname⟩⟩
  rintro ⟨c', hc', hname⟩
  rwa [Option.some.inj (hc.symm.trans hc')]

/-- A path from a place comes to an instruction that reads a name, and assigns it nowhere before. -/
def ReadsAhead (m : Method) (name : String) (i : Nat) : Prop :=
  ∃ (k : Nat) (path : Nat → Nat), path 0 = i ∧ (∀ j < k, m.LeadsTo (path j) (path (j + 1))) ∧
    m.ReadsAt name (path k) ∧ ∀ j < k, ¬ m.AssignsAt name (path j)

theorem ReadsAhead.here (h : m.ReadsAt name i) : m.ReadsAhead name i :=
  ⟨0, fun _ => i, rfl, fun _ hj => absurd hj (Nat.not_lt_zero _), h,
    fun _ hj => absurd hj (Nat.not_lt_zero _)⟩

/-- A path goes on to an instruction that comes before it. -/
theorem ReadsAhead.step (hflow : m.LeadsTo i j) (hkeep : ¬ m.AssignsAt name i)
    (h : m.ReadsAhead name j) : m.ReadsAhead name i := by
  obtain ⟨k, path, rfl, hflows, hread, hkeeps⟩ := h
  refine ⟨k + 1, fun n => if n = 0 then i else path (n - 1), rfl, fun n hn => ?_, hread,
    fun n hn => ?_⟩
  · cases n with
    | zero => exact hflow
    | succ n => exact hflows n (Nat.lt_of_succ_lt_succ hn)
  · cases n with
    | zero => exact hkeep
    | succ n => exact hkeeps n (Nat.lt_of_succ_lt_succ hn)

/-- **What is read ahead** is kept by whatever a path takes back to the place where it starts. -/
theorem ReadsAhead.induction {P : Nat → Prop} (h : m.ReadsAhead name i)
    (here : ∀ i, m.ReadsAt name i → P i)
    (step : ∀ i j, m.LeadsTo i j → ¬ m.AssignsAt name i → P j → P i) : P i := by
  obtain ⟨k, path, rfl, hflows, hread, hkeeps⟩ := h
  induction k generalizing path with
  | zero => exact here _ hread
  | succ k ih =>
    refine step _ _ (hflows 0 (Nat.succ_pos k)) (hkeeps 0 (Nat.succ_pos k)) ?_
    exact ih (fun n => path (n + 1)) (fun n hn => hflows _ (Nat.succ_lt_succ hn)) hread
      fun n hn => hkeeps _ (Nat.succ_lt_succ hn)

/-- What an instruction assigns and does not read is not read ahead of it. -/
theorem not_readsAhead_of_assigned {c : Instr} (hc : m.code[i]? = some c) (huses : name ∉ c.uses)
    (hdefs : name ∈ c.defs) : ¬ m.ReadsAhead name i := by
  rintro ⟨k, path, rfl, -, hread, hkeep⟩
  cases k with
  | zero => exact huses ((readsAt_iff hc).mp hread)
  | succ k => exact hkeep 0 k.succ_pos ((assignsAt_iff hc).mpr hdefs)

/-- What is read ahead is read by some instruction. -/
theorem ReadsAhead.exists_reads (h : m.ReadsAhead name i) : ∃ c ∈ m.code, name ∈ c.uses := by
  obtain ⟨k, path, -, -, ⟨c, hc, hname⟩, -⟩ := h
  exact ⟨c, List.mem_of_getElem? hc, hname⟩

/-- A path starts at an instruction. -/
theorem ReadsAhead.lt_length (h : m.ReadsAhead name i) : i < m.code.length := by
  refine h.induction (P := fun i => i < m.code.length) ?_ ?_
  · rintro i ⟨c, hc, -⟩
    exact (List.getElem?_eq_some_iff.mp hc).1
  · rintro i j ⟨c, succ, hc, -, -⟩ - -
    exact (List.getElem?_eq_some_iff.mp hc).1

end Method

/-! ## The equations -/

section Equations

variable {nodes : Array FlowNode} {live live' : Array Names} {n : FlowNode}

theorem mem_foldl_union (succ : List Nat) (names : Names) :
    name ∈ succ.foldl (fun names s => names ∪ live.getD s ∅) names ↔
      name ∈ names ∨ ∃ s ∈ succ, name ∈ live.getD s ∅ := by
  induction succ generalizing names with
  | nil => simp
  | cons s succ ih =>
    rw [List.foldl_cons, ih, Std.ExtTreeSet.mem_union_iff, or_assoc, List.exists_mem_cons_iff]

theorem mem_liveOut : name ∈ liveOut live n ↔ ∃ s ∈ n.succ, name ∈ live.getD s ∅ := by
  rw [liveOut, mem_foldl_union]
  simp [Std.ExtTreeSet.not_mem_empty]

theorem mem_liveIn :
    name ∈ liveIn live n ↔ name ∈ n.uses ∨ name ∈ liveOut live n ∧ name ∉ n.defs := by
  rw [liveIn, Std.ExtTreeSet.mem_union_iff, Std.ExtTreeSet.mem_diff_iff]

theorem isSolution_iff :
    isSolution nodes live = true ↔
      ∀ i n, nodes[i]? = some n → liveIn live n = live.getD i ∅ := by
  unfold isSolution
  rw [List.all_eq_true]
  constructor
  · intro h i n hn
    obtain ⟨hi, -⟩ := Array.getElem?_eq_some_iff.mp hn
    have hat := h i (List.mem_range.mpr hi)
    rw [hn] at hat
    exact eq_of_beq hat
  · intro h i _
    cases hn : nodes[i]? with
    | none => rfl
    | some n => exact beq_iff_eq.mpr (h i n hn)

/-- The sets with one of them computed anew. -/
def revise (nodes : Array FlowNode) (i : Nat) (live : Array Names) : Array Names :=
  match nodes[i]? with
  | some n => live.setIfInBounds i (liveIn live n)
  | none => live

theorem sweep_eq_foldr : sweep nodes live = (List.range nodes.size).foldr (revise nodes) live :=
  rfl

/-- The sets are contained in others. -/
def Within (live live' : Array Names) : Prop :=
  ∀ i name, name ∈ live.getD i ∅ → name ∈ live'.getD i ∅

theorem Within.refl (live : Array Names) : Within live live :=
  fun _ _ => id

theorem Within.trans {live'' : Array Names} (h : Within live live') (h' : Within live' live'') :
    Within live live'' :=
  fun i name hname => h' i name (h i name hname)

theorem Within.antisymm (hsize : live.size = live'.size) (h : Within live live')
    (h' : Within live' live) : live = live' := by
  refine Array.ext hsize fun i hi hi' => Std.ExtTreeSet.ext_mem fun name => ?_
  have hname := h i name
  have hname' := h' i name
  simp only [Array.getD_eq_getD_getElem?, Array.getElem?_eq_getElem hi,
    Array.getElem?_eq_getElem hi', Option.getD_some] at hname hname'
  exact ⟨hname, hname'⟩

/-- What is computed from larger sets is larger. -/
theorem Within.liveIn (h : Within live live') (hname : name ∈ liveIn live n) :
    name ∈ ThreeAddress.liveIn live' n := by
  rw [mem_liveIn, mem_liveOut] at hname ⊢
  rcases hname with huses | ⟨⟨s, hs, hlive⟩, hdefs⟩
  · exact .inl huses
  · exact .inr ⟨⟨s, hs, h s name hlive⟩, hdefs⟩

/-- Sets on the way to the solution: each is contained in what is computed from them, and has only
names that a path reads. -/
structure Approaches (m : Method) (nodes : Array FlowNode) (live : Array Names) : Prop where
  size : live.size = nodes.size
  grows : ∀ i n, nodes[i]? = some n → ∀ name, name ∈ live.getD i ∅ → name ∈ liveIn live n
  reads : ∀ i name, name ∈ live.getD i ∅ → m.ReadsAhead name i

/-- A name that is computed from such sets is read by a path as well. -/
theorem Approaches.reads_liveIn (h : Approaches m nodes live) (hcharts : Charts m nodes)
    (hn : nodes[i]? = some n) (hname : name ∈ liveIn live n) : m.ReadsAhead name i := by
  obtain ⟨c, hc, hsucc, huses, hdefs⟩ := hcharts.instr hn
  rcases mem_liveIn.mp hname with hread | ⟨hout, hkeep⟩
  · exact .here ⟨c, hc, (huses name).mp hread⟩
  · obtain ⟨s, hs, hlive⟩ := mem_liveOut.mp hout
    refine .step ⟨c, n.succ, hc, hsucc, hs⟩ (fun hassign => hkeep ?_) (h.reads s name hlive)
    exact (hdefs name).mpr ((Method.assignsAt_iff hc).mp hassign)

theorem getD_revise (hsize : live.size = nodes.size) (hn : nodes[i]? = some n) (j : Nat) :
    (revise nodes i live).getD j ∅ = if j = i then liveIn live n else live.getD j ∅ := by
  obtain ⟨hi, -⟩ := Array.getElem?_eq_some_iff.mp hn
  simp only [revise, hn, Array.getD_eq_getD_getElem?, Array.getElem?_setIfInBounds]
  by_cases hj : i = j
  · subst hj
    simp [hsize, hi]
  · simp [hj, Ne.symm hj]

/-- **The step.**  Computing one set anew comes closer. -/
theorem Approaches.revise (h : Approaches m nodes live) (hcharts : Charts m nodes)
    (hi : i < nodes.size) :
    Approaches m nodes (revise nodes i live) ∧ Within live (ThreeAddress.revise nodes i live) := by
  have hn := Array.getElem?_eq_getElem hi
  have hget := getD_revise h.size hn
  have hwithin : Within live (ThreeAddress.revise nodes i live) := by
    intro j name hname
    rw [hget]
    split_ifs with hj
    · subst hj
      exact h.grows _ _ hn name hname
    · exact hname
  refine ⟨⟨?_, ?_, ?_⟩, hwithin⟩
  · simpa [ThreeAddress.revise, hn] using h.size
  · intro j n' hn' name hname
    rw [hget] at hname
    split_ifs at hname with hj
    · subst hj
      cases Option.some.inj (hn.symm.trans hn')
      exact hwithin.liveIn hname
    · exact hwithin.liveIn (h.grows j n' hn' name hname)
  · intro j name hname
    rw [hget] at hname
    split_ifs at hname with hj
    · subst hj
      exact h.reads_liveIn hcharts hn hname
    · exact h.reads j name hname

/-- **The run.**  So does computing one after the other. -/
theorem Approaches.foldr_revise (h : Approaches m nodes live) (hcharts : Charts m nodes)
    {places : List Nat} (hplaces : ∀ i ∈ places, i < nodes.size) :
    Approaches m nodes (places.foldr (ThreeAddress.revise nodes) live) ∧
      Within live (places.foldr (ThreeAddress.revise nodes) live) := by
  induction places with
  | nil => exact ⟨h, .refl live⟩
  | cons i places ih =>
    obtain ⟨hi, hplaces⟩ := List.forall_mem_cons.mp hplaces
    obtain ⟨happroaches, hwithin⟩ := ih hplaces
    obtain ⟨happroaches', hwithin'⟩ := happroaches.revise hcharts hi
    exact ⟨happroaches', hwithin.trans hwithin'⟩

theorem Approaches.sweep (h : Approaches m nodes live) (hcharts : Charts m nodes) :
    Approaches m nodes (sweep nodes live) ∧ Within live (ThreeAddress.sweep nodes live) :=
  h.foldr_revise hcharts fun _ hi => List.mem_range.mp hi

/-- If the sets are the same at the end of a run, they were so all the way. -/
theorem Approaches.liveIn_of_foldr (h : Approaches m nodes live) (hcharts : Charts m nodes)
    {places : List Nat} (hplaces : ∀ i ∈ places, i < nodes.size)
    (hsame : places.foldr (ThreeAddress.revise nodes) live = live) :
    ∀ i ∈ places, ∀ n, nodes[i]? = some n → liveIn live n = live.getD i ∅ := by
  induction places with
  | nil => exact fun i hi => absurd hi List.not_mem_nil
  | cons i places ih =>
    obtain ⟨hi, hplaces⟩ := List.forall_mem_cons.mp hplaces
    obtain ⟨happroaches, hwithin⟩ := h.foldr_revise hcharts hplaces
    obtain ⟨-, hback⟩ := happroaches.revise hcharts hi
    rw [List.foldr_cons] at hsame
    rw [hsame] at hback
    have hrest : places.foldr (ThreeAddress.revise nodes) live = live :=
      hback.antisymm (happroaches.size.trans h.size.symm) hwithin
    refine List.forall_mem_cons.mpr ⟨fun n hn => ?_, ih hplaces hrest⟩
    rw [hrest] at hsame
    have hget := getD_revise h.size hn i
    rw [hsame, if_pos rfl] at hget
    exact hget.symm

/-- The equations hold exactly when a sweep changes nothing. -/
theorem Approaches.isSolution_iff_sweep (h : Approaches m nodes live) (hcharts : Charts m nodes) :
    isSolution nodes live = true ↔ ThreeAddress.sweep nodes live = live := by
  rw [isSolution_iff]
  constructor
  · intro hsolution
    refine Within.antisymm ((h.sweep hcharts).1.size.trans h.size.symm) ?_ (h.sweep hcharts).2
    suffices hsame : ∀ places : List Nat, (∀ i ∈ places, i < nodes.size) →
        places.foldr (ThreeAddress.revise nodes) live = live by
      rw [sweep_eq_foldr, hsame _ fun _ hi => List.mem_range.mp hi]
      exact .refl live
    intro places hplaces
    induction places with
    | nil => rfl
    | cons i places ih =>
      obtain ⟨hi, hplaces⟩ := List.forall_mem_cons.mp hplaces
      rw [List.foldr_cons, ih hplaces]
      have hn := Array.getElem?_eq_getElem hi
      obtain ⟨happroaches, hwithin⟩ := h.revise hcharts hi
      refine Within.antisymm (happroaches.size.trans h.size.symm) (fun j name hname => ?_) hwithin
      rw [getD_revise h.size hn] at hname
      split_ifs at hname with hj
      · subst hj
        rwa [← hsolution _ _ hn]
      · exact hname
  · intro hsame i n hn
    obtain ⟨hi, -⟩ := Array.getElem?_eq_some_iff.mp hn
    exact h.liveIn_of_foldr hcharts (fun _ hj => List.mem_range.mp hj) hsame i
      (List.mem_range.mpr hi) n hn

/-- Sets that contain what is computed from them have every name that a path reads. -/
theorem mem_of_readsAhead (hcharts : Charts m nodes)
    (hclosed : ∀ i n, nodes[i]? = some n → ∀ name ∈ liveIn live n, name ∈ live.getD i ∅)
    (h : m.ReadsAhead name i) : name ∈ live.getD i ∅ := by
  refine h.induction (P := fun i => name ∈ live.getD i ∅) (fun i hread => ?_)
    fun i j hflow hkeep hlive => ?_
  · obtain ⟨c, hc, hname⟩ := hread
    obtain ⟨succ, -, hn⟩ := hcharts.node i c hc
    refine hclosed i _ hn name (mem_liveIn.mpr (.inl ?_))
    rwa [Std.ExtTreeSet.mem_ofList, List.contains_iff_mem]
  · obtain ⟨c, succ, hc, hsucc, hj⟩ := hflow
    obtain ⟨succ', hsucc', hn⟩ := hcharts.node i c hc
    cases Except.ok.inj (hsucc.symm.trans hsucc')
    refine hclosed i _ hn name (mem_liveIn.mpr (.inr ⟨mem_liveOut.mpr ⟨j, hj, hlive⟩, ?_⟩))
    intro hdefs
    rw [Std.ExtTreeSet.mem_ofList, List.contains_iff_mem] at hdefs
    exact hkeep ⟨c, hc, hdefs⟩

theorem approaches_empty : Approaches m nodes (Array.replicate nodes.size ∅) := by
  have hempty : ∀ i name, name ∉ (Array.replicate nodes.size (∅ : Names)).getD i ∅ := by
    intro i name
    rw [Array.getD_eq_getD_getElem?, Array.getElem?_replicate]
    split_ifs
    · exact Std.ExtTreeSet.not_mem_empty
    · exact Std.ExtTreeSet.not_mem_empty
  exact ⟨Array.size_replicate, fun i _ _ name hname => absurd hname (hempty i name),
    fun i name hname => absurd hname (hempty i name)⟩

end Equations

/-! ## The number of sweeps -/

section Sweeps

variable {nodes : Array FlowNode} {live : Array Names}

/-- The names that are read somewhere. -/
def readNames (nodes : Array FlowNode) : Finset String :=
  (nodes.toList.flatMap fun n => n.uses.toList).toFinset

/-- The places with the names in their sets. -/
def livePairs (nodes : Array FlowNode) (live : Array Names) : Finset (Nat × String) :=
  (Finset.range nodes.size ×ˢ readNames nodes).filter fun p => p.2 ∈ live.getD p.1 ∅

theorem card_livePairs_le : (livePairs nodes live).card ≤ sweepLimit nodes := by
  have htotal : ∀ (ns : List FlowNode) (total : Nat),
      total + (ns.flatMap fun n => n.uses.toList).length =
        ns.foldl (fun total n => total + n.uses.size) total := by
    intro ns
    induction ns with
    | nil => exact fun _ => rfl
    | cons n ns ih =>
      intro total
      rw [List.foldl_cons, ← ih, List.flatMap_cons, List.length_append,
        Std.ExtTreeSet.length_toList, Nat.add_assoc]
  calc (livePairs nodes live).card
      ≤ (Finset.range nodes.size ×ˢ readNames nodes).card := Finset.card_filter_le _ _
    _ = nodes.size * (readNames nodes).card := by rw [Finset.card_product, Finset.card_range]
    _ ≤ sweepLimit nodes := by
      refine Nat.mul_le_mul_left _ ?_
      rw [← htotal, Nat.zero_add]
      exact List.toFinset_card_le _

theorem Approaches.mem_livePairs (h : Approaches m nodes live) (hcharts : Charts m nodes) :
    (i, name) ∈ livePairs nodes live ↔ name ∈ live.getD i ∅ := by
  rw [livePairs, Finset.mem_filter, Finset.mem_product, Finset.mem_range]
  refine ⟨fun hpair => hpair.2, fun hname => ⟨⟨?_, ?_⟩, hname⟩⟩
  · rw [← h.size]
    by_contra hi
    rw [Array.getD_eq_getD_getElem?, Array.getElem?_eq_none (Nat.le_of_not_lt hi)] at hname
    exact Std.ExtTreeSet.not_mem_empty hname
  · refine (h.reads i name hname).induction (P := fun _ => name ∈ readNames nodes)
      (fun j hread => ?_) fun _ _ _ _ hmem => hmem
    obtain ⟨c, hc, hread⟩ := hread
    obtain ⟨succ, -, hn⟩ := hcharts.node j c hc
    have hnode := Array.mem_toList_iff.mpr (Array.mem_of_getElem? hn)
    refine List.mem_toFinset.mpr (List.mem_flatMap.mpr ⟨_, hnode, ?_⟩)
    rwa [Std.ExtTreeSet.mem_toList, Std.ExtTreeSet.mem_ofList, List.contains_iff_mem]

/-- A sweep that changes something adds a name to a set. -/
theorem Approaches.card_lt_card_sweep (h : Approaches m nodes live) (hcharts : Charts m nodes)
    (hchange : ThreeAddress.sweep nodes live ≠ live) :
    (livePairs nodes live).card < (livePairs nodes (ThreeAddress.sweep nodes live)).card := by
  obtain ⟨happroaches, hwithin⟩ := h.sweep hcharts
  refine Finset.card_lt_card ⟨?_, fun hback => hchange ?_⟩
  · rintro ⟨i, name⟩ hpair
    rw [h.mem_livePairs hcharts] at hpair
    exact (happroaches.mem_livePairs hcharts).mpr (hwithin i name hpair)
  · refine Within.antisymm (happroaches.size.trans h.size.symm) (fun i name hname => ?_) hwithin
    exact (h.mem_livePairs hcharts).mp (hback ((happroaches.mem_livePairs hcharts).mpr hname))

/-- Sweeping goes on while something changes, and ends with sets that stay as they are. -/
inductive Settles (nodes : Array FlowNode) : Array Names → Array Names → Prop
  | done {live : Array Names} (same : sweep nodes live = live) : Settles nodes live live
  | again {live live' : Array Names} (change : sweep nodes live ≠ live)
      (rest : Settles nodes (sweep nodes live) live') : Settles nodes live live'

/-- **The sweeps come to their end** within the limit. -/
theorem Approaches.settles_sweeps (hcharts : Charts m nodes) (fuel : Nat) :
    ∀ {live : Array Names}, Approaches m nodes live →
      sweepLimit nodes ≤ (livePairs nodes live).card + fuel →
      Settles nodes live (sweeps nodes fuel live) := by
  induction fuel with
  | zero =>
    intro live h hfuel
    refine .done (by_contra fun hchange => ?_)
    have hlt := h.card_lt_card_sweep hcharts hchange
    have hle : (livePairs nodes (ThreeAddress.sweep nodes live)).card ≤ sweepLimit nodes :=
      card_livePairs_le
    omega
  | succ fuel ih =>
    intro live h hfuel
    have hiff := h.isSolution_iff_sweep hcharts
    rw [sweeps]
    split_ifs with hsolution
    · exact .done (hiff.mp hsolution)
    · have hchange := mt hiff.mpr hsolution
      have hlt := h.card_lt_card_sweep hcharts hchange
      exact .again hchange (ih (h.sweep hcharts).1 (by omega))

theorem Settles.sweep_eq {live' : Array Names} (h : Settles nodes live live') :
    sweep nodes live' = live' := by
  induction h with
  | done same => exact same
  | again _ _ ih => exact ih

theorem Settles.approaches {live' : Array Names} (hcharts : Charts m nodes)
    (h : Settles nodes live live') (happroaches : Approaches m nodes live) :
    Approaches m nodes live' := by
  induction h with
  | done => exact happroaches
  | again _ _ ih => exact ih (happroaches.sweep hcharts).1

end Sweeps

/-! ## The live variables of a method -/

namespace Method

theorem liveness_eq_ok {L : Liveness} : m.liveness = .ok L ↔
    flowNodes m = .ok L.nodes ∧
      L.live = sweeps L.nodes (sweepLimit L.nodes) (Array.replicate L.nodes.size ∅) := by
  unfold liveness
  rw [except_bind_eq_ok]
  constructor
  · rintro ⟨nodes, hnodes, h⟩
    cases Except.ok.inj h
    exact ⟨hnodes, rfl⟩
  · rintro ⟨hnodes, hlive⟩
    refine ⟨L.nodes, hnodes, congrArg Except.ok ?_⟩
    rw [← hlive]

/-- The sets of a method are where the sweeps from empty sets come to their end. -/
theorem liveness_settles {L : Liveness} (h : m.liveness = .ok L) :
    Charts m L.nodes ∧ Approaches m L.nodes L.live ∧
      Settles L.nodes (Array.replicate L.nodes.size ∅) L.live := by
  obtain ⟨hnodes, hlive⟩ := liveness_eq_ok.mp h
  have hcharts := charts_flowNodes hnodes
  have hsettles : Settles L.nodes (Array.replicate L.nodes.size ∅) L.live := by
    rw [hlive]
    exact approaches_empty.settles_sweeps hcharts _ (Nat.le_add_left _ _)
  exact ⟨hcharts, hsettles.approaches hcharts approaches_empty, hsettles⟩

/-- A name is live before an instruction exactly if a path from there reads it. -/
theorem mem_before {L : Liveness} (h : m.liveness = .ok L) :
    name ∈ L.before i ↔ m.ReadsAhead name i := by
  obtain ⟨hcharts, happroaches, hsettles⟩ := liveness_settles h
  have hsolution := (happroaches.isSolution_iff_sweep hcharts).mpr hsettles.sweep_eq
  refine ⟨happroaches.reads i name, mem_of_readsAhead hcharts fun i n hn name hname => ?_⟩
  rwa [← isSolution_iff.mp hsolution i n hn]

/-- A name is live after an instruction exactly if it is live before one that may come next. -/
theorem mem_after {L : Liveness} (h : m.liveness = .ok L) :
    name ∈ L.after i ↔ ∃ j, m.LeadsTo i j ∧ name ∈ L.before j := by
  obtain ⟨hcharts, -, -⟩ := liveness_settles h
  rw [Liveness.after]
  constructor
  · intro hname
    cases hn : L.nodes[i]? with
    | none => simp [hn, Std.ExtTreeSet.not_mem_empty] at hname
    | some n =>
      obtain ⟨c, hc, hsucc, -⟩ := hcharts.instr hn
      simp only [hn, Option.map_some, Option.getD_some, mem_liveOut] at hname
      obtain ⟨j, hj, hname⟩ := hname
      exact ⟨j, ⟨c, n.succ, hc, hsucc, hj⟩, hname⟩
  · rintro ⟨j, ⟨c, succ, hc, hsucc, hj⟩, hname⟩
    obtain ⟨succ', hsucc', hn⟩ := hcharts.node i c hc
    cases Except.ok.inj (hsucc.symm.trans hsucc')
    simp only [hn, Option.map_some, Option.getD_some, mem_liveOut]
    exact ⟨j, hj, hname⟩

/-- There are no live variables exactly if a jump goes nowhere. -/
theorem liveness_eq_error : (∃ e, m.liveness = .error e) ↔
    ∃ c ∈ m.code, ∃ label, c.target? = some label ∧ ∀ c' ∈ m.code, c'.label? ≠ some label := by
  rw [← successorsFrom_eq_error (i := 0), liveness, flowNodes]
  cases successorsFrom m 0 m.code <;> simp [bind, Except.bind, pure, Except.pure]

theorem JumpsLand.liveness (h : m.JumpsLand) : ∃ L, m.liveness = .ok L := by
  cases hL : m.liveness with
  | ok L => exact ⟨L, rfl⟩
  | error e =>
    obtain ⟨c, hc, label, htarget, hmissing⟩ := liveness_eq_error.mp ⟨e, hL⟩
    obtain ⟨c', hc', hlabel⟩ := h c hc label htarget
    exact absurd hlabel (hmissing c' hc')

/-- **The live variables are the least solution of the equations.**  There are none exactly if a
jump goes nowhere.  Otherwise the sweeps end by themselves, with sets that solve the equations and
are contained in those of every other solution; a name is live before an instruction exactly if a
path from there reads it before it assigns it, and live after it exactly if it is live before an
instruction that may come next. -/
theorem liveness_least (m : Method) :
    ((∃ e, m.liveness = .error e) ↔
      ∃ c ∈ m.code, ∃ label, c.target? = some label ∧ ∀ c' ∈ m.code, c'.label? ≠ some label) ∧
    (m.JumpsLand → ∃ L, m.liveness = .ok L ∧ Charts m L.nodes ∧
      L.live.size = m.code.length ∧
      Settles L.nodes (Array.replicate L.nodes.size ∅) L.live ∧
      isSolution L.nodes L.live = true ∧
      (∀ live, isSolution L.nodes live = true → Within L.live live) ∧
      ∀ i name, (name ∈ L.before i ↔ m.ReadsAhead name i) ∧
        (name ∈ L.after i ↔ ∃ j, m.LeadsTo i j ∧ name ∈ L.before j)) := by
  refine ⟨liveness_eq_error, fun hland => ?_⟩
  obtain ⟨L, hL⟩ := hland.liveness
  obtain ⟨hcharts, happroaches, hsettles⟩ := liveness_settles hL
  refine ⟨L, hL, hcharts, happroaches.size.trans hcharts.size, hsettles,
    (happroaches.isSolution_iff_sweep hcharts).mpr hsettles.sweep_eq, ?_,
    fun i name => ⟨mem_before hL, mem_after hL⟩⟩
  intro live hsolution i name hname
  refine mem_of_readsAhead hcharts (fun i n hn name hname => ?_) (happroaches.reads i name hname)
  rwa [← isSolution_iff.mp hsolution i n hn]

/-- A loop that counts up to a bound. -/
def countUp : Method where
  name := "count"
  isStatic := false
  params := [⟨"n", .int⟩]
  locals := [⟨"i", .int⟩]
  result := .int
  code :=
    [.assign ⟨"i", .int⟩ (.operand (.int 0)),
      .label "Loop_0",
      .assign ⟨"t0", .bool⟩ (.binary .lt (.var ⟨"i", .int⟩) (.var ⟨"n", .int⟩)),
      .branch (.var ⟨"t0", .bool⟩) true "End_0",
      .assign ⟨"t1", .int⟩ (.binary .add (.var ⟨"i", .int⟩) (.int 1)),
      .assign ⟨"i", .int⟩ (.operand (.var ⟨"t1", .int⟩)),
      .jump "Loop_0",
      .label "End_0",
      .ret (some (.var ⟨"i", .int⟩))]

theorem countUp_jumpsLand : countUp.JumpsLand := by
  have h : ∀ c ∈ countUp.code, ∀ label ∈ c.target?, ∃ c' ∈ countUp.code,
      c'.label? = some label := by
    decide
  exact h

/-- The bound is live at the end of the loop, since the loop goes back to where it is read; the
counter is not live at the start, where it is assigned. -/
theorem liveness_countUp : countUp.JumpsLand ∧
    ∃ L, countUp.liveness = .ok L ∧ "n" ∈ L.before 6 ∧ "i" ∉ L.before 0 := by
  obtain ⟨L, hL, -, -, -, -, -, hlive⟩ := (liveness_least countUp).2 countUp_jumpsLand
  refine ⟨countUp_jumpsLand, L, hL, (hlive 6 "n").1.mpr ?_, mt (hlive 0 "i").1.mp ?_⟩
  · refine .step (j := 1) ⟨_, [1], rfl, by decide, by decide⟩ ?_
      (.step (j := 2) ⟨_, [2], rfl, by decide, by decide⟩ ?_ (.here ?_))
    · rw [assignsAt_iff (c := .jump "Loop_0") rfl]
      decide
    · rw [assignsAt_iff (c := .label "Loop_0") rfl]
      decide
    · exact ⟨_, rfl, by decide⟩
  · exact not_readsAhead_of_assigned (c := .assign ⟨"i", .int⟩ (.operand (.int 0))) rfl
      (by decide) (by decide)

end Method

end ThreeAddress
end ClassCompiler
