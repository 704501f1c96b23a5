import ClassCompiler.Proofs.ThreeAddress.Labels

/-!
# Lowered statements do what the tree does

A statement is code in the middle of the code of its method, and its jumps stay inside it.
`Performs` says that a piece of code does what an execution does wherever it stands, provided that
every label is set at one place only.  Conditionals and loops have a rule each, which follows the
layout of their code; the other statements evaluate something and go on.

* `Performs.conditional`, `Performs.loop`: the layouts with jumps.
* `lowerStatement_performs`: every statement.
* `lowerStatements_performs`: the body of a method.
-/

namespace ClassCompiler
namespace Meaning

open ThreeAddress Status

variable {σ α : Type} {S : Setting σ} {N : List String} {limit : Nat}

/-- Every label is found where it is set. -/
def LabelsResolve (code : List Instr) : Prop :=
  ∀ place name, code[place]? = some (.label name) → labelIndex? code name = some place

/-- The code does what an execution does, wherever it stands. -/
def Performs (S : Setting σ) (N : List String) (steps : Nat) (code : List Instr) (x : Exec σ) :
    Prop :=
  ∀ start, CodeAt S.code start code →
    Executes S N (fun _ => True) steps start (start + code.length) x

/-! ## Instructions that only go somewhere -/

theorem Reaches.label {place : Nat} {name : String} (h : S.code[place]? = some (.label name))
    (s : State σ) : Reaches S 0 (.running place s) (.running (place + 1) s) := by
  have hstep := Reaches.step (s := s) h
  exact hstep.mono (Nat.zero_le 1)

theorem Reaches.jump {place target : Nat} {name : String} (h : S.code[place]? = some (.jump name))
    (htarget : labelIndex? S.code name = some target) (s : State σ) :
    Reaches S 0 (.running place s) (.running target s) := by
  have hstep := Reaches.step (s := s) h
  rw [moveOf] at hstep
  change Reaches S 1 _ (afterMove S place s (.ok (.jump name))) at hstep
  rw [afterMove, htarget] at hstep
  exact hstep.mono (Nat.zero_le 1)

namespace Performs

/-! ## Layouts -/

theorem nil : Performs S N limit [] (Exec.stop .normal) :=
  fun _ _ => .normal

theorem append {code code' : List Instr} {x y : Exec σ} (hx : Performs S N limit code x)
    (hy : Performs S N limit code' y) : Performs S N limit (code ++ code') (Exec.andThen x y) := by
  intro start hcode
  rw [List.length_append, ← Nat.add_assoc]
  exact (hx start hcode.left).andThen (hy _ hcode.right)

/-- Something is evaluated and that is all. -/
theorem evaluating {C : String → Prop} {Q : α → Vars → Prop} {code : List Instr}
    {e : Vars → Effect σ α} (hC : ∀ x ∈ N, ¬ C x)
    (he : Evaluates S N (fun _ => True) C code e Q) :
    Performs S N limit code (Exec.evaluating e fun _ => Exec.stop .normal) :=
  fun _ hcode => .evaluating hC he hcode fun _ => .normal

/-- The code of a conditional. -/
theorem conditional (hlabels : LabelsResolve S.code) {C : String → Prop} (hC : ∀ x ∈ N, ¬ C x)
    {k : Nat} {cond : Lowered} {thenCode elseCode : List Instr} {e : Vars → Effect σ Value}
    {yes no : Exec σ}
    (hcond : Evaluates S N (fun _ => True) C cond.code e
      fun a vars => readOperand .free S.receiver vars cond.value = .ok a)
    (hyes : Performs S N limit thenCode yes) (hno : Performs S N limit elseCode no) :
    Performs S N limit (conditionalCode k cond thenCode elseCode)
      (Exec.evaluating e fun value => Exec.branch value yes no) := by
  intro start hcode
  simp only [conditionalCode, List.append_assoc, List.cons_append, List.nil_append] at hcode
  have hbranch := hcode.right
  have hthen := hbranch.tail
  have hjump := hthen.right
  have helse := hjump.tail
  have hend := helse.tail.right
  have hfinish : start + (conditionalCode k cond thenCode elseCode).length =
      start + cond.code.length + 1 + thenCode.length + 1 + 1 + elseCode.length + 1 := by
    simp only [conditionalCode, List.length_append, List.length_cons, List.length_nil]
    omega
  rw [hfinish]
  refine .evaluating hC hcond hcode.left fun a => Executes.mono ?_ (Nat.le_succ limit)
  refine .branch hbranch.head (fun _ hread => hread) (if_pos rfl)
    ((if_neg (by simp)).trans (hlabels _ _ helse.head)) ?_ ?_
  · refine (hyes _ hthen.left).goOn fun s => ?_
    exact (Reaches.jump hjump.head (hlabels _ _ hend.head) s).trans (Reaches.label hend.head s)
  · refine Executes.after ?_ (Reaches.label helse.head)
    exact (hno _ helse.tail.left).goOn (Reaches.label hend.head)

/-- The code of a loop. -/
theorem loop (hlabels : LabelsResolve S.code) {C C' : String → Prop} (hC : ∀ x ∈ N, ¬ C x)
    (hC' : ∀ x ∈ N, ¬ C' x) {k : Nat} {first again : Lowered} {body : List Instr}
    {e : Vars → Effect σ Value} {x : Exec σ}
    (hfirst : Evaluates S N (fun _ => True) C first.code e
      fun a vars => readOperand .free S.receiver vars first.value = .ok a)
    (hbody : Performs S N limit body x)
    (hagain : Evaluates S N (fun _ => True) C' again.code e
      fun a vars => readOperand .free S.receiver vars again.value = .ok a) :
    Performs S N limit (loopCode k first body again) (Exec.loop e x limit) := by
  intro start hcode
  simp only [loopCode, List.append_assoc, List.cons_append, List.nil_append] at hcode
  have hbranch := hcode.right
  have hloop := hbranch.tail
  have hrest := hloop.tail.right
  have hbranch' := hrest.right
  have hend := hbranch'.tail
  have hfinish : start + (loopCode k first body again).length =
      start + first.code.length + 1 + 1 + body.length + again.code.length + 1 + 1 := by
    simp only [loopCode, List.length_append, List.length_cons, List.length_nil]
    omega
  rw [hfinish]
  refine Executes.goOn ?_ (Reaches.label hend.head)
  refine Executes.loop (fun test hplace steps yes no hyes hno => ?_)
    (Executes.after (hbody _ hloop.tail.left) (Reaches.label hloop.head)) (Nat.le_refl limit)
  rcases hplace with rfl | rfl
  · -- The test before the first round jumps out of the loop, or goes on.
    refine .evaluating hC hfirst hcode.left fun a => ?_
    exact .branch hbranch.head (fun _ hread => hread) (if_pos rfl)
      ((if_neg (by simp)).trans (hlabels _ _ hend.head)) hyes hno
  · -- The test after a round jumps back, or goes on.
    refine .evaluating hC' hagain hrest.left fun a => ?_
    exact .branch hbranch'.head (fun _ hread => hread)
      ((if_neg (by simp)).trans (hlabels _ _ hloop.head)) (if_pos rfl) hyes hno

end Performs

/-! ## Assignments -/

/-- The array that an element is assigned to. -/
theorem lowerArray_evaluates {Γ : Site} (hΓ : Γ.IsListed) {name : String} {scope : Scope}
    {symbol : Symbol} {type : ValueType} {f f' : Fresh} {code : List Instr} {array : Var}
    (hf : Γ.Reserved f) (hres : Γ.table.resolve? Γ.info.name name = some (scope, symbol))
    (h : (lowerArray Γ scope ⟨name, type⟩).run f = .ok ((code, array), f')) :
    Tidy f f' (.var array) ∧ Evaluates S Γ.frameNames (fun _ => True) (f.Gives f') code
      ((activationOf Γ S.receiver).readArray S.world · name)
      fun a vars => readOperand .free S.receiver vars (.var array) = .ok a := by
  -- A variable of the method is read where it is; a field is read into a temporary first.
  have hframe (hscope : scope ≠ .field) :
      Tidy f f (.var ⟨name, type⟩) ∧ Evaluates S Γ.frameNames (fun _ => True) (f.Gives f) []
        ((activationOf Γ S.receiver).readArray S.world · name)
        fun a vars => readOperand .free S.receiver vars (.var ⟨name, type⟩) = .ok a := by
    have hmem := Γ.mem_frameNames hΓ hres hscope
    refine ⟨⟨.refl f, fun v hv => ?_⟩, .nil fun source vars hmatch _ => ?_⟩
    · rw [← Operand.var.inj hv]
      exact Fresh.settled_of_mem (hf.mem hmem)
    · obtain ⟨a, hsource, hvars⟩ := hmatch name hmem
      refine ⟨a, ?_, readVar_free hvars⟩
      unfold Activation.readArray activationOf
      cases scope with
      | field => exact absurd rfl hscope
      | «local» | parameter => simp only [hres, Vars.read, hsource, Effect.ofExcept_ok]
  cases scope with
  | field =>
    obtain ⟨temp, f₁, htemp, h⟩ := Lowering.bind_eq_ok.mp h
    obtain ⟨rfl, rfl⟩ := Lowering.newTemp_eq_ok.mp htemp
    obtain ⟨heq, rfl⟩ := Lowering.pure_eq_ok.mp h
    obtain ⟨rfl, rfl⟩ := Prod.mk.inj heq
    refine ⟨Fresh.lowered_tidy (.refl f) [] type (.getField Γ.this ⟨name, type⟩), ?_⟩
    refine (Evaluates.assign fun source vars _ _ => ?_).mono (fun _ => id)
      (fun x hx => hx ▸ f.temp_gives type) fun a vars hvars => readVar_free hvars
    simp only [Activation.readArray, activationOf, hres]
    exact evalRhs_of_ask _ rfl
  | «local» | parameter =>
    obtain ⟨heq, rfl⟩ := Lowering.pure_eq_ok.mp h
    obtain ⟨rfl, rfl⟩ := Prod.mk.inj heq
    exact hframe (by simp)

/-- The code of an assignment to an element. -/
theorem lowerElement_evaluates {Γ : Site} (hΓ : Γ.IsListed) {name : String} {scope : Scope}
    {symbol : Symbol} {type : ValueType} {i e : Ast} {rest : List Ast} {f f₁ f₂ f₃ : Fresh}
    {code : List Instr} {array : Var} {index value : Lowered} (hf : Γ.Reserved f)
    (hres : Γ.table.resolve? Γ.info.name name = some (scope, symbol))
    (ha : (lowerArray Γ scope ⟨name, type⟩).run f = .ok ((code, array), f₁))
    (hi : (lowerExpr Γ (some .int) i).run f₁ = .ok (index, f₂))
    (he : (lowerExpr Γ (some .int) e).run f₂ = .ok (value, f₃)) :
    Evaluates S Γ.frameNames (fun _ => True) (f.Gives f₃)
      (code ++ index.code ++ value.code ++ [.arrayStore array index.value value.value])
      (evalElement S.world (activationOf Γ S.receiver) · name (i :: e :: rest))
      fun _ _ => True := by
  obtain ⟨htidy, harray⟩ := lowerArray_evaluates (S := S) hΓ hf hres ha
  have hf₁ := hf.mono htidy.before
  have hindex := lowerExpr_tidy hΓ hf₁ hi
  have hf₂ := hf₁.mono hindex.before
  have hvalue := lowerExpr_tidy hΓ hf₂ he
  rw [List.append_assoc, List.append_assoc]
  refine .bind hf.not_gives (fun x hx => hx.right (hindex.before.trans hvalue.before)) harray
    fun a => ?_
  refine .bind hf₁.not_gives (fun x hx => (hx.left htidy.before).right hvalue.before)
    ((lowerExpr_computes hΓ hf₁ hi).value.waiting htidy.settled a) fun b => ?_
  -- The array and the index wait while the value is computed.
  have hwait := (lowerExpr_computes (S := S) hΓ hf₂ he).value.keeping
    (R := fun vars => readOperand .free S.receiver vars index.value = .ok b ∧
      readOperand .free S.receiver vars (.var array) = .ok a)
    fun _ _ hvars hread => ⟨readOperand_keep hindex.settled hvars hread.1,
      readOperand_keep (fun v hv => (htidy.settled v hv).mono hindex.before) hvars hread.2⟩
  refine .bind hf₂.not_gives (fun x hx => hx.left (htidy.before.trans hindex.before))
    (hwait.mono (fun _ hread => ⟨trivial, hread⟩) (fun _ => id) fun _ _ => id) fun c => ?_
  refine .tell fun source vars _ hread => ⟨Request.storeTo a b c, ?_, rfl⟩
  obtain ⟨hc, hb, ha⟩ := hread
  rw [readOperand] at ha
  rw [moveOf, ha, hb, hc]
  exact except_bind_pure ..

/-- The code of an assignment to a field. -/
theorem putField_evaluates {Γ : Site} {dest : Var} {o : Operand} {a : Value} {C : String → Prop} :
    Evaluates S N (fun vars => readOperand .free S.receiver vars o = .ok a) C
      [.putField Γ.this dest o]
      (fun _ => S.world.ask (.putField S.receiver dest.name a) >>= fun _ => pure ())
      fun _ _ => True := by
  refine .tell fun source vars _ hread => ⟨.ok (.putField S.receiver dest.name a), ?_, rfl⟩
  rw [moveOf, hread]
  rfl

/-! ## Every statement -/

/-- What is no statement by its kind is an expression that is run for its effect. -/
theorem execStatement_of_not_isStatement {w : World σ} {A : Activation} {n : Numbered}
    (hk : n.kind.isStatement = false) (ts : List Ast) :
    execStatement w A limit (.node n ts) =
      Exec.evaluating (evalEffect w A · (.node n ts)) fun _ => Exec.stop .normal := by
  rw [execStatement.eq_def]
  cases hkind : n.kind <;> simp [hkind, Kind.isStatement] at hk ⊢

theorem execStatement_declaration {w : World σ} {A : Activation} {n : Numbered}
    (hk : n.kind.isDeclaration) (ts : List Ast) :
    execStatement w A limit (.node n ts) = Exec.stop .normal := by
  rw [execStatement.eq_def]
  cases hkind : n.kind <;> simp [hkind, Kind.isDeclaration] at hk ⊢

theorem execStatement_sequence {w : World σ} {A : Activation} {n : Numbered}
    (hk : n.kind = .block ∨ n.kind = .thenBranch ∨ n.kind = .elseBranch) (ts : List Ast) :
    execStatement w A limit (.node n ts) = execStatements w A limit ts := by
  rw [execStatement.eq_def]
  rcases hk with hk | hk | hk <;> simp only [hk]

/-- An answer that is not looked at. -/
theorem Exec.evaluating_ignoring (e : Vars → Effect σ α) (x : Exec σ) :
    Exec.evaluating e (fun _ => x) =
      Exec.evaluating (fun source => e source >>= fun _ => pure ()) fun _ => x := by
  funext s
  unfold Exec.evaluating
  dsimp only
  rw [Effect.bind_apply]
  rcases e s.vars s.outside with ⟨_ | _, _⟩ <;> rfl

theorem lowerStatements_performs_of {Γ : Site} {ts : List Ast}
    (h : ∀ t ∈ ts, ∀ f code f', Γ.Reserved f → (lowerStatement Γ t).run f = .ok (code, f') →
      f.Before f' ∧ Performs S Γ.frameNames limit code
        (execStatement S.world (activationOf Γ S.receiver) limit t))
    {f f' : Fresh} {code : List Instr} (hf : Γ.Reserved f)
    (hlower : (lowerStatements Γ ts).run f = .ok (code, f')) :
    Performs S Γ.frameNames limit code
      (execStatements S.world (activationOf Γ S.receiver) limit ts) := by
  induction ts generalizing f code with
  | nil =>
    obtain ⟨rfl, rfl⟩ := lowerStatements_nil_eq_ok hlower
    rw [execStatements]
    exact .nil
  | cons t ts ih =>
    obtain ⟨first, f₁, rest, ht, hts, rfl⟩ := lowerStatements_cons_eq_ok hlower
    obtain ⟨hbefore, hfirst⟩ := h t List.mem_cons_self _ _ _ hf ht
    rw [execStatements]
    exact hfirst.append (ih (fun u hu => h u (List.mem_cons_of_mem t hu)) (hf.mono hbefore) hts)

/-- **A lowered statement does what the tree does.** -/
theorem lowerStatement_performs {Γ : Site} (hΓ : Γ.IsListed) (hlabels : LabelsResolve S.code)
    {t : Ast} {f f' : Fresh} {code : List Instr} (hf : Γ.Reserved f)
    (hlower : (lowerStatement Γ t).run f = .ok (code, f')) :
    Performs S Γ.frameNames limit code
      (execStatement S.world (activationOf Γ S.receiver) limit t) := by
  induction t using Tree.induction generalizing f code f' with
  | node n ts ih =>
    cases lowerStatement_cases hlower with
    | declaration hk =>
      rw [execStatement_declaration hk]
      exact .nil
    | sequence hk h =>
      rw [execStatement_sequence hk]
      exact lowerStatements_performs_of
        (fun t ht _ _ _ hf h => ⟨(lowerStatement_labels hΓ hf h).1, ih t ht hf h⟩) hf h
    | conditional hk hc ht he =>
      have hf₁ := hf.mono f.label_before
      have hf₂ := hf₁.mono (lowerCondition_tidy hΓ hf₁ hc).before
      have hf₃ := hf₂.mono (lowerStatement_labels hΓ hf₂ ht).1
      rw [execStatement_conditional hk]
      refine .conditional hlabels hf₁.not_gives (lowerCondition_computes hΓ hf₁ hc).value
        (ih _ (by simp) hf₂ ht) ?_
      rename_i rest _ _ _ _ _
      cases rest with
      | nil =>
        obtain ⟨rfl, rfl⟩ := Lowering.pure_eq_ok.mp he
        exact .nil
      | cons e rest => exact ih e (by simp) hf₃ he
    | loop hk hc hb hc' =>
      have hstatement : ∀ t ∈ _, ∀ f code f', Γ.Reserved f →
          (lowerStatement Γ t).run f = .ok (code, f') → f.Before f' ∧ Performs S _ limit code _ :=
        fun t ht _ _ _ hf h =>
          ⟨(lowerStatement_labels hΓ hf h).1, ih t (List.mem_cons_of_mem _ ht) hf h⟩
      have hf₁ := hf.mono f.label_before
      have hf₂ := hf₁.mono (lowerCondition_tidy hΓ hf₁ hc).before
      have hf₃ := hf₂.mono (lowerStatements_labels
        (fun _ _ _ _ _ hf h => lowerStatement_labels hΓ hf h) hf₂ hb).1
      rw [execStatement_loop hk]
      exact .loop hlabels hf₁.not_gives hf₃.not_gives (lowerCondition_computes hΓ hf₁ hc).value
        (lowerStatements_performs_of hstatement hf₂ hb) (lowerCondition_computes hΓ hf₃ hc').value
    | expression hk h =>
      rw [execStatement.eq_def]
      simp only [hk]
      exact .evaluating hf.not_gives (lowerEffect_evaluates hΓ hf h)
    | effect hk h =>
      rw [execStatement_of_not_isStatement hk]
      exact .evaluating hf.not_gives (lowerEffect_evaluates hΓ hf h)
    | element hk hres _ ha hi he =>
      rw [execStatement.eq_def]
      simp only [hk]
      exact .evaluating hf.not_gives (lowerElement_evaluates hΓ hf hres ha hi he)
    | @«variable» name scope symbol type _ _ _ _ hk hres hscope _ h =>
      have hassign : ∀ value, Exec.assign S.world (activationOf Γ S.receiver) name value =
          fun s => (.normal, { s with vars := s.vars.set name value }) := by
        intro value
        unfold Exec.assign activationOf
        cases scope with
        | field => exact absurd rfl hscope
        | «local» | parameter => simp only [hres]
      intro start hcode
      rw [execStatement.eq_def]
      simp only [hk, hassign]
      exact .assign (fun x hx hCx => hCx.resolve_left (hf.not_gives x hx))
        ((lowerExpr_computes hΓ hf h).storeIn hf.not_gives ⟨name, type⟩) hcode
    | @field name symbol _ _ _ _ _ hk hres _ h =>
      have hassign : ∀ value, Exec.assign S.world (activationOf Γ S.receiver) name value =
          Exec.evaluating
            (fun _ => S.world.ask (.putField S.receiver name value) >>= fun _ => pure ())
            fun _ => Exec.stop .normal := by
        intro value
        rw [← Exec.evaluating_ignoring]
        unfold Exec.assign activationOf
        simp only [hres]
      intro start hcode
      rw [execStatement.eq_def, List.length_append, ← Nat.add_assoc]
      simp only [hk, hassign]
      refine .evaluating hf.not_gives (lowerExpr_computes hΓ hf h).value hcode.left fun a => ?_
      exact .evaluating (C := fun _ => False) (fun _ _ => id) putField_evaluates hcode.right
        fun _ => .normal
    | returnNone hk =>
      intro start hcode
      rw [execStatement.eq_def]
      simp only [hk]
      exact .returned hcode.head fun _ _ => rfl
    | returnSome hk _ h =>
      intro start hcode
      rw [execStatement.eq_def]
      simp only [hk]
      refine .evaluating hf.not_gives (lowerExpr_computes hΓ hf h).value hcode.left fun a => ?_
      refine .returned hcode.right.head fun vars hread => ?_
      rw [moveOf, hread]
      rfl
    | condition hk h =>
      rw [execStatement.eq_def]
      simp only [hk]
      rw [Exec.evaluating_ignoring]
      refine .evaluating hf.not_gives (C := f.Gives f') (Q := fun _ _ => True) ?_
      refine .bind hf.not_gives (fun _ => id) (lowerCondition_computes hΓ hf h).value fun a => ?_
      exact .noop fun _ vars _ hread => ⟨⟨a, hread⟩, (), rfl, trivial⟩

/-- **The statements of a method do what the tree does.** -/
theorem lowerStatements_performs {Γ : Site} (hΓ : Γ.IsListed) (hlabels : LabelsResolve S.code)
    {ts : List Ast} {f f' : Fresh} {code : List Instr} (hf : Γ.Reserved f)
    (hlower : (lowerStatements Γ ts).run f = .ok (code, f')) (limit : Nat) :
    Performs S Γ.frameNames limit code
      (execStatements S.world (activationOf Γ S.receiver) limit ts) :=
  lowerStatements_performs_of (fun _ _ _ _ _ hf h =>
    ⟨(lowerStatement_labels hΓ hf h).1, lowerStatement_performs hΓ hlabels hf h⟩) hf hlower

end Meaning
end ClassCompiler
