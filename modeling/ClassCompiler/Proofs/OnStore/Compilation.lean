import ClassCompiler.Proofs.OnStore.Checking
import ClassCompiler.Proofs.OnStore.Folding
import ClassCompiler.Proofs.OnStore.Lowering
import ClassCompiler.Proofs.OnStore.Propagation
import ClassCompiler.Proofs.Store.History
import ClassCompiler.Proofs.Store.Numbering
import ClassCompiler.Tree.Construct

/-!
# Compilation in a store

The parts of the way from a class to its text, on the store in which the nodes of the class are.
The analysis and the lowering read the store, optimizing changes it.  The text for the assembler is
made from the code and the symbol table, without the store.

Whatever a program lacks is an error that is returned, or something that is reported.  Nothing is
asked of the program here, so the later parts may follow an analysis that reported errors, and also
an attempt at optimizing that ended with an error in the middle.

* `fit_ofSource`: a store that was just filled has numbers left for all nodes that may be replaced,
  if its tree has fewer than 2147483648 nodes.
* `analyze_eq`, `optimize_shows`, `lower_eq`, `assemble_eq`, `compile_eq`: each part on a fit store
  returns what it returns on the tree.
* `Reached.shows`: optimizing leaves the store fit, however often it is done.
* `stages_never_abort`: the parts together.
-/

namespace ClassCompiler
namespace OnStore

open Constant (Folding FoldState)
open InPlace (onState)

/-! ## The parts -/

/-- Rounds of folding and propagation. -/
def rounds (T : ClassTable) : Nat → InPlace Unit
  | 0 => return ()
  | n + 1 => do
    let before ← onState (return (← get).count)
    fold Store.root
    propagate T
    let after ← onState (return (← get).count)
    if after = before then return () else rounds T n

/-- A class that was checked, in its store. -/
structure Stored where
  store : Store
  table : ClassTable
  diagnostics : List Diagnostic
  settings : Settings

/-- The analysis of a program. -/
def analyze (s : Store) (settings : Settings) : ExceptT Abort (Except Error) Stored := do
  let checked := (check s).run
  let table ← ExceptT.mk checked.outcome
  return { store := s, table, diagnostics := checked.diagnostics, settings }

namespace Stored

/-- Optimizes the class if the settings ask for it.  What was changed before an error stays. -/
def optimize (a : Stored) : Except Abort (Except Error Nat × Stored) :=
  if a.settings.optimize then do
    let (result, w) ←
      rounds a.table Constant.roundLimit ⟨a.store, { log := { next := a.store.size } }⟩
    return (result.map fun _ => w.state.count,
      { a with store := w.store, diagnostics := a.diagnostics ++ w.state.diagnostics })
  else .ok (.ok 0, a)

/-- Optimizes the class, and goes on with it unless there was an error. -/
def optimized (a : Stored) : ExceptT Abort (Except Error) Stored :=
  match a.optimize with
  | .ok (.ok _, a) => pure a
  | .ok (.error e, _) => sure (.error e)
  | .error reason => abort reason

/-- Lowers the class. -/
def lower (a : Stored) : ExceptT Abort (Except Error) Lowered := do
  return { code := ← lowerClass a.store a.table, settings := a.settings }

/-- Lowers the class and gives the text for the assembler. -/
def assemble (a : Stored) : ExceptT Abort (Except Error) (Lowered × Assembly) := do
  let lowered ← a.lower
  return (lowered, ← sure (lowered.assemble a.table))

end Stored

/-- What became of a class. -/
structure Compiled where
  analysis : Stored
  lowered : Option Lowered := none
  assembly : Option Assembly := none

/-- Compiles the program in a store. -/
def compile (s : Store) (settings : Settings) : ExceptT Abort (Except Error) Compiled := do
  let analysis ← analyze s settings
  if Diagnostic.accepted analysis.diagnostics then
    let analysis ← analysis.optimized
    let (lowered, assembly) ← analysis.assemble
    return { analysis, lowered := some lowered, assembly := some assembly }
  else return { analysis }

/-! ## Optimizing -/

variable {b : Bounds} {w : Work} {t : Ast}

theorem folding_bind_run {α β : Type} {x : Folding α} {a : α} {state state' : FoldState}
    (h : x state = (a, state')) (f : α → Folding β) : (x >>= f) state = f a state' := by
  show f (x state).1 (x state).2 = f a state'
  rw [h]

/-- A round on a tree. -/
def round (T : ClassTable) (t : Ast) : Folding (Ast × Except Error Unit) := do
  let t ← Constant.fold t
  (Constant.propagate T t).lift

section Rounds

variable {T : ClassTable} {t' : Ast} {state state' : FoldState} {n : Nat}

theorem rounds_of_error {e : Error} (h : round T t state = ((t', .error e), state')) :
    Constant.rounds T (n + 1) t state = ((t', .error e), state') := by
  have hpass : (Constant.propagate T (Constant.fold t state).1).lift (Constant.fold t state).2 =
      ((t', .error e), state') := h
  rw [Constant.rounds]
  refine (folding_bind_run (x := get) rfl _).trans ?_
  refine (folding_bind_run (x := Constant.fold t) rfl _).trans ?_
  exact folding_bind_run hpass _

theorem rounds_of_ok (h : round T t state = ((t', .ok ()), state')) :
    Constant.rounds T (n + 1) t state =
      if state'.count = state.count then ((t', .ok ()), state')
      else Constant.rounds T n t' state' := by
  have hpass : (Constant.propagate T (Constant.fold t state).1).lift (Constant.fold t state).2 =
      ((t', .ok ()), state') := h
  rw [Constant.rounds]
  refine (folding_bind_run (x := get) rfl _).trans ?_
  refine (folding_bind_run (x := Constant.fold t) rfl _).trans ?_
  refine (folding_bind_run hpass _).trans ?_
  refine (folding_bind_run (x := get) rfl _).trans ?_
  exact apply_ite (fun x : Folding (Ast × Except Error Unit) => x state') _ _ _

/-- **The rounds do what the rounds on trees do**, also where an error ends them. -/
theorem rounds_reaches (hroot : b.root = Store.root) (h : Sound b w t) :
    Reaches b w (rounds T n) ((Constant.rounds T n t) w.state).1.2
      ((Constant.rounds T n t) w.state).2 ((Constant.rounds T n t) w.state).1.1 := by
  induction n generalizing t w with
  | zero => exact .pure h ()
  | succ n ih =>
    have hround : ∀ s, Sound b ⟨s, (Constant.fold t w.state).2⟩ (Constant.fold t w.state).1 →
        Reaches b ⟨s, (Constant.fold t w.state).2⟩ (propagate T) (round T t w.state).1.2
          (round T t w.state).2 (round T t w.state).1.1 :=
      fun s hsound => propagate_reaches hroot hsound
    rw [rounds]
    refine .onState h fun s hsound => ?_
    refine .bind (hroot ▸ fold_reaches hsound) fun s hsound => ?_
    specialize hround s hsound
    obtain ⟨⟨⟨t', e | ⟨⟩⟩, state⟩, hrun⟩ : ∃ r, round T t w.state = r := ⟨_, rfl⟩
    · rw [hrun] at hround
      rw [rounds_of_error hrun]
      exact .bind_error hround
    · rw [hrun] at hround
      rw [rounds_of_ok hrun]
      refine .bind hround fun s hsound => ?_
      refine .onState hsound fun s hsound => ?_
      show Reaches b _ (if state.count = w.state.count then pure () else rounds T n) _ _ _
      by_cases hsame : state.count = w.state.count
      · rw [if_pos hsame, if_pos hsame]
        exact .pure hsound ()
      · rw [if_neg hsame, if_neg hsame]
        exact ih hsound

end Rounds

theorem Fit.sound {s : Store} (h : Fit s t) :
    Sound ⟨Store.root, 0, t.replaceable⟩ ⟨s, { log := { next := s.size } }⟩ t where
  toRoomy := h.toRoomy
  root := h.root
  next := rfl
  lower := Nat.le_refl 0
  upper := Nat.le_of_eq (Nat.zero_add _)

/-- A store in which a tree was just written down has room for it twice. -/
theorem fit_ofSource {t : Source} (hsize : t.size < 2147483648) :
    Fit (Store.ofSource t) (t.number 0) := by
  have hread := Store.treeAt_eq_ok.mp (Store.treeAt_ofSource t)
  have hholds := Store.holds_of_treeWithin hread
  have hnodup := Store.preorder_nodup (Store.linked_ofSource t) hread
  have hle := hholds.size_le hnodup
  have hreplaceable : (t.number 0).replaceable ≤ (t.number 0).size := by
    rw [← Tree.length_preorder]
    exact List.countP_le_length
  have hlimit : Store.numberLimit = 4294967296 := rfl
  rw [Store.size_ofSource] at hle
  exact {
    linked := Store.linked_ofSource t
    holds := hholds
    root := Tree.id_number t 0
    nodup := hnodup
    room := by
      rw [Store.size_ofSource]
      omega }

/-! ## The parts return -/

/-- A checked class in a store, by its analysis. -/
def Stored.of (s : Store) (A : Analysis) : Stored :=
  { store := s, table := A.table, diagnostics := A.diagnostics, settings := A.settings }

/-- The compilation of a class in a store. -/
def Compiled.of (s : Store) (c : Compilation) : Compiled :=
  { analysis := .of s c.analysis, lowered := c.lowered, assembly := c.assembly }

/-- A class that is in a store belongs to an analysis of the tree there. -/
structure Stored.Shows (a : Stored) (A : Analysis) : Prop where
  eq_of : a = .of a.store A
  next : A.program.next = a.store.size
  fit : Fit a.store A.program.tree

/-- An analysis as optimizing leaves it, also where an error ends the work. -/
def leave (A : Analysis) : Analysis :=
  if A.settings.optimize then
    let result := Constant.optimize A.table A.program.next A.program.tree
    { A with
      program := ⟨result.tree, result.log.next⟩
      diagnostics := A.diagnostics ++ result.diagnostics }
  else A

theorem optimize_eq_leave (A : Analysis) :
    A.optimize = (A.optimize.map Prod.snd).map fun count => (leave A, count) := by
  rw [Analysis.optimize, leave]
  by_cases h : A.settings.optimize
  · simp only [h, if_true]
    generalize Constant.optimize A.table A.program.next A.program.tree = result
    rcases result.outcome with e | count <;> rfl
  · simp only [h]
    rfl

theorem run_sure {α : Type} (x : Checked α) :
    (sure x).run = ⟨x.diagnostics, x.outcome.map .ok⟩ := by
  rcases x with ⟨ds, e | a⟩
  · rfl
  · show (⟨ds ++ [], _⟩ : Checked (Except Abort α)) = _
    rw [List.append_nil]
    rfl

variable {s : Store} {a : Stored} {A : Analysis}

/-- **The analysis returns.** -/
theorem analyze_eq (h : Fit s t) (settings : Settings) :
    analyze s settings = sure ((Program.analyze ⟨t, s.size⟩ settings).map (.of s)) := by
  rw [analyze, check_eq h.holds h.root h.size_le s.size, run_sure, Program.analyze]
  generalize Program.check ⟨t, s.size⟩ = checked
  rcases checked with ⟨ds, e | table⟩ <;> rfl

theorem shows_of_analyze {settings : Settings} (h : Fit s t)
    (hanalysis : Program.analyze ⟨t, s.size⟩ settings = .ok A) : (Stored.of s A).Shows A := by
  have hprogram : A.program = ⟨t, s.size⟩ := by
    rw [Program.analyze] at hanalysis
    generalize Program.check ⟨t, s.size⟩ = checked at hanalysis
    rcases checked with ⟨ds, e | table⟩
    · cases hanalysis
    · cases hanalysis
      rfl
  exact ⟨rfl, by rw [hprogram, Stored.of], by rw [hprogram]; exact h⟩

/-- **Optimizing returns**, and leaves a class in its store. -/
theorem optimize_shows (h : a.Shows A) :
    ∃ a', a.optimize = .ok (A.optimize.map Prod.snd, a') ∧ a'.Shows (leave A) := by
  obtain ⟨s, table, ds, settings⟩ := a
  obtain ⟨heq, hnext, hfit⟩ := h
  obtain ⟨⟨t, next⟩, _, _, _⟩ := A
  obtain ⟨rfl, rfl, rfl⟩ : table = _ ∧ ds = _ ∧ settings = _ := by simpa [Stored.of] using heq
  obtain rfl : next = s.size := hnext
  rw [Stored.optimize, Analysis.optimize, leave]
  by_cases hon : settings.optimize
  · obtain ⟨s', hrun, hsound⟩ :=
      rounds_reaches (T := table) (n := Constant.roundLimit) rfl hfit.sound
    simp only [hon, if_true, hrun]
    refine ⟨⟨s', table, ds ++ (Constant.optimize table s.size t).diagnostics, settings⟩, ?_, rfl,
      hsound.next, hsound.toRoomy, hsound.root⟩
    have houtcome : (Constant.optimize table s.size t).outcome =
        (Constant.rounds table Constant.roundLimit t { log := { next := s.size } }).1.2.map fun _ =>
          (Constant.rounds table Constant.roundLimit t { log := { next := s.size } }).2.count := rfl
    rw [houtcome]
    rcases (Constant.rounds table Constant.roundLimit t { log := { next := s.size } }).1.2
      with e | _ <;> rfl
  · simp only [hon]
    exact ⟨_, rfl, heq, rfl, hfit⟩

/-- **Lowering returns.** -/
theorem lower_eq (h : a.Shows A) : a.lower = sure A.lower := by
  rw [Stored.lower, h.eq_of]
  simp only [Stored.of, lowerClass_eq h.fit.holds h.fit.root h.fit.size_le]
  rw [sure_bind_pure]
  rfl

theorem assemble_eq (h : a.Shows A) :
    a.assemble = sure (do let l ← A.lower; return (l, ← l.assemble A.table)) := by
  rw [Stored.assemble, lower_eq h, h.eq_of]
  simp only [Stored.of, sure_bind_pure, sure_bind]

/-- **Compiling returns.** -/
theorem compile_eq (h : Fit s t) (settings : Settings) :
    ∃ s', compile s settings = sure ((Program.compile ⟨t, s.size⟩ settings).map (.of s')) := by
  rw [compile, analyze_eq h, Program.compile]
  cases hanalysis : Program.analyze ⟨t, s.size⟩ settings with
  | error e => exact ⟨s, rfl⟩
  | ok A =>
    by_cases haccepted : A.accepted
    · obtain ⟨a, hrun, hleft⟩ := optimize_shows (shows_of_analyze h hanalysis)
      have hgoOn : (Stored.of s A).optimized =
          sure (A.optimize.map fun _ => a) := by
        rw [Stored.optimized, hrun]
        rcases A.optimize with e | ⟨A', count⟩ <;> rfl
      refine ⟨a.store, ?_⟩
      show (if A.accepted then _ else _) = sure (Except.map _ (if A.accepted then _ else _))
      rw [if_pos haccepted, if_pos haccepted, hgoOn, optimize_eq_leave]
      cases A.optimize with
      | error e => rfl
      | ok result =>
        show (a.assemble >>= _) = _
        rw [assemble_eq hleft, hleft.eq_of]
        show _ = sure (Except.map _ (do
          let l ← (leave A).lower
          let assembly ← l.assemble (leave A).table
          return (⟨leave A, some l, some assembly⟩ : Compilation)))
        cases (leave A).lower with
        | error e => rfl
        | ok l =>
          show (sure (l.assemble (leave A).table >>= _) >>= _) =
            sure (Except.map _ (l.assemble (leave A).table >>= _))
          rcases l.assemble (leave A).table with e | assembly <;> rfl
    · refine ⟨s, ?_⟩
      show (if A.accepted then _ else _) = sure (Except.map _ (if A.accepted then _ else _))
      rw [if_neg haccepted, if_neg haccepted]
      rfl

/-- The checked classes that there are after an analysis, accepted or not, and after optimizing any
number of times with any settings, also where an error ended that. -/
inductive Reached (s : Store) : Stored → Prop
  | analyzed {settings : Settings} {a : Stored} (h : analyze s settings = pure a) : Reached s a
  | told {a : Stored} (settings : Settings) (h : Reached s a) : Reached s { a with settings }
  | optimized {a a' : Stored} {result : Except Error Nat} (h : Reached s a)
      (hrun : a.optimize = .ok (result, a')) : Reached s a'

theorem Reached.shows (hfit : Fit s t) (h : Reached s a) : ∃ A, a.Shows A := by
  induction h with
  | @analyzed settings a h =>
    rw [analyze_eq hfit] at h
    cases hanalysis : Program.analyze ⟨t, s.size⟩ settings with
    | error e =>
      rw [hanalysis] at h
      cases h
    | ok A =>
      rw [hanalysis] at h
      obtain rfl : Stored.of s A = a := by
        cases h
        rfl
      exact ⟨A, shows_of_analyze hfit hanalysis⟩
  | told settings _ ih =>
    obtain ⟨A, hA⟩ := ih
    refine ⟨{ A with settings }, ?_, hA.next, hA.fit⟩
    exact congrArg (fun a : Stored => { a with settings }) hA.eq_of
  | optimized _ hrun ih =>
    obtain ⟨A, hA⟩ := ih
    obtain ⟨a', hrun', hleft⟩ := optimize_shows hA
    rw [hrun] at hrun'
    obtain ⟨-, rfl⟩ : _ ∧ _ := by simpa using hrun'
    exact ⟨_, hleft⟩

/-- **No part of the way breaks off.**  For every tree with fewer than 2147483648 nodes and all
settings the analysis and the whole compilation return what they return on trees, a result or an
error.  So do optimizing, lowering and the text for the assembler on every class that was reached,
whether the analysis accepted it or not. -/
theorem stages_never_abort (t : Source) (hsize : t.size < 2147483648) :
    (∀ settings, analyze (Store.ofSource t) settings =
      sure (((Program.ofSource t).analyze settings).map (.of (Store.ofSource t)))) ∧
    (∀ a, Reached (Store.ofSource t) a → ∃ A, a.Shows A ∧
      (∃ a', a.optimize = .ok (A.optimize.map Prod.snd, a')) ∧
      a.lower = sure A.lower ∧
      a.assemble = sure (do let l ← A.lower; return (l, ← l.assemble A.table))) ∧
    ∀ settings, ∃ s, compile (Store.ofSource t) settings =
      sure (((Program.ofSource t).compile settings).map (.of s)) := by
  have hfit := fit_ofSource hsize
  have hprogram : Program.ofSource t = ⟨t.number 0, (Store.ofSource t).size⟩ := by
    rw [Program.ofSource, Store.size_ofSource]
  rw [hprogram]
  refine ⟨analyze_eq hfit, fun a ha => ?_, compile_eq hfit⟩
  obtain ⟨A, hshows⟩ := ha.shows hfit
  obtain ⟨a', hrun, -⟩ := optimize_shows hshows
  exact ⟨A, hshows, ⟨a', hrun⟩, lower_eq hshows, assemble_eq hshows⟩

/-- A class with an unknown variable, and with a loop without children where a condition should be.
The analysis reports both; optimizing replaces a variable and then ends with an error. -/
def slipSource : Source :=
  .classOf "Slip" none [
    .method .int "get" [] [
      .localVar .int "a",
      .assign "a" (.int 3),
      .assign "b" (.binary .add (.identifier "a") (.int 1)),
      .of .conditional [.of .loop [], .of .thenBranch []],
      .returnValue (.identifier "a")]]

theorem slipSource_stages_return :
    slipSource.size < 2147483648 ∧
      ∃ a, Reached (Store.ofSource slipSource) a ∧ Diagnostic.accepted a.diagnostics = false ∧
        ∃ A, a.Shows A ∧ (∃ a', a.optimize = .ok (A.optimize.map Prod.snd, a')) ∧
          a.lower = sure A.lower := by
  have hsize : slipSource.size < 2147483648 := by decide
  obtain ⟨hanalyze, hlater, -⟩ := stages_never_abort slipSource hsize
  obtain ⟨A, hA, hrejected⟩ : ∃ A,
      (Program.ofSource slipSource).analyze { optimize := true } = .ok A ∧
        A.accepted = false := ⟨_, rfl, rfl⟩
  specialize hanalyze { optimize := true }
  rw [hA] at hanalyze
  have hreached : Reached (Store.ofSource slipSource) (.of (Store.ofSource slipSource) A) :=
    .analyzed hanalyze
  obtain ⟨A', hshows, hoptimize, hlower, -⟩ := hlater _ hreached
  exact ⟨hsize, _, hreached, hrejected, A', hshows, hoptimize, hlower⟩

end OnStore
end ClassCompiler
