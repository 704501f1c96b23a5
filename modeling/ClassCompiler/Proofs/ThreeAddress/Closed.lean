import ClassCompiler.Proofs.ThreeAddress.Labels
import ClassCompiler.ThreeAddress.Liveness

/-!
# Lowered code is closed

Lowered code refers to nothing that it does not provide itself, but for the variables of its method.
What it reads it has assigned, what it jumps to it sets, and the temporaries that it assigns were
all handed out while it was made, each for one instruction.

An expression that is assigned to a variable loses its last temporary.  So expressions are described
by their shape (`Named`): an operand, or code and one more right-hand side that is assigned to a new
temporary, or to a variable instead.

* `tempsOf`: the temporaries that code assigns.
* `Closed`: what is said of code.
* `lowerExpr_named`, `lowerStatement_closed`: expressions and statements.
-/

namespace ClassCompiler
namespace ThreeAddress

/-! ## Names that code assigns -/

/-- The names that code assigns. -/
def destsOf (code : List Instr) : List String :=
  code.flatMap Instr.defs

/-- The names that code assigns which are not among the given ones. -/
def tempsOf (N : List String) (code : List Instr) : List String :=
  (destsOf code).filter fun x => x ∉ N

section

variable {N : List String} {code code' : List Instr} {x : String}

@[simp] theorem destsOf_nil : destsOf [] = [] := rfl

@[simp] theorem destsOf_append (code code' : List Instr) :
    destsOf (code ++ code') = destsOf code ++ destsOf code' :=
  List.flatMap_append

@[simp] theorem destsOf_cons (i : Instr) (code : List Instr) :
    destsOf (i :: code) = i.defs ++ destsOf code :=
  List.flatMap_cons

@[simp] theorem tempsOf_nil : tempsOf N [] = [] := rfl

@[simp] theorem tempsOf_append (code code' : List Instr) :
    tempsOf N (code ++ code') = tempsOf N code ++ tempsOf N code' := by
  rw [tempsOf, destsOf_append, List.filter_append]
  rfl

theorem mem_tempsOf : x ∈ tempsOf N code ↔ x ∈ destsOf code ∧ x ∉ N := by
  simp [tempsOf]

/-- A name that is there when the code has run. -/
def Provides (N : List String) (code : List Instr) (x : String) : Prop :=
  x ∈ N ∨ x ∈ destsOf code

theorem Provides.left (h : Provides N code x) (code' : List Instr) :
    Provides N (code ++ code') x :=
  h.imp_right fun hx => by simp [hx]

theorem Provides.right (h : Provides N code' x) (code : List Instr) :
    Provides N (code ++ code') x :=
  h.imp_right fun hx => by simp [hx]

end

/-- What was handed out is not handed out later. -/
theorem Fresh.Gives.not_gives {f f₁ f₂ : Fresh} {x : String} (h : f.Gives f₁ x) :
    ¬ f₁.Gives f₂ x := by
  rintro ⟨k, hk, -, -, hname⟩
  obtain ⟨j, -, hj, -, rfl⟩ := h
  have hnumber : j = k := Fresh.tempName_inj hname
  omega

/-! ## Closed code -/

/-- Code that was made between two moments of the supply of names, and refers to names and labels
outside of it only if they are given. -/
structure Closed (N L : List String) (f f' : Fresh) (code : List Instr) : Prop where
  before : f.Before f'
  gives : ∀ x ∈ tempsOf N code, f.Gives f' x
  nodup : (tempsOf N code).Nodup
  reads : ∀ i ∈ code, ∀ x ∈ i.uses, Provides N code x
  jumps : ∀ i ∈ code, ∀ name, i.target? = some name → name ∈ L ∨ name ∈ labelsOf code

namespace Closed

variable {N L : List String} {f f₁ f₂ f' : Fresh} {code code' : List Instr}

theorem nil (h : f.Before f') : Closed N L f f' [] where
  before := h
  gives _ hx := absurd hx List.not_mem_nil
  nodup := List.nodup_nil
  reads _ hi := absurd hi List.not_mem_nil
  jumps _ hi := absurd hi List.not_mem_nil

theorem append (h : Closed N L f f₁ code) (h' : Closed N L f₁ f₂ code') :
    Closed N L f f₂ (code ++ code') where
  before := h.before.trans h'.before
  gives x hx := by
    rw [tempsOf_append] at hx
    rcases List.mem_append.mp hx with hx | hx
    · exact (h.gives x hx).right h'.before
    · exact (h'.gives x hx).left h.before
  nodup := by
    rw [tempsOf_append]
    refine List.nodup_append.mpr ⟨h.nodup, h'.nodup, ?_⟩
    rintro x hx y hy rfl
    exact (h.gives x hx).not_gives (h'.gives x hy)
  reads i hi x hx := by
    rcases List.mem_append.mp hi with hi | hi
    · exact (h.reads i hi x hx).left code'
    · exact (h'.reads i hi x hx).right code
  jumps i hi name hname := by
    rw [labelsOf_append, List.mem_append]
    rcases List.mem_append.mp hi with hi | hi
    · exact (h.jumps i hi name hname).imp_right .inl
    · exact (h'.jumps i hi name hname).imp_right .inr

/-- Code that was made later. -/
theorem later (h : Closed N L f₁ f' code) (hle : f.Before f₁) : Closed N L f f' code :=
  (Closed.nil hle).append h

theorem mono {L' : List String} (h : Closed N L f f' code) (hL : ∀ name ∈ L, name ∈ L') :
    Closed N L' f f' code :=
  ⟨h.before, h.gives, h.nodup, h.reads, fun i hi name hname =>
    (h.jumps i hi name hname).imp_left (hL name)⟩

/-- Labels that the code sets itself need not be given. -/
theorem inside (h : Closed N L f f' code) (hL : ∀ name ∈ L, name ∈ labelsOf code) :
    Closed N [] f f' code :=
  ⟨h.before, h.gives, h.nodup, h.reads, fun i hi name hname =>
    .inr ((h.jumps i hi name hname).elim (hL name) id)⟩

/-- One more instruction, which assigns nothing. -/
theorem snoc (h : Closed N L f f' code) {i : Instr} (hdefs : i.defs = [])
    (huses : ∀ x ∈ i.uses, Provides N code x)
    (htarget : ∀ name, i.target? = some name → name ∈ L) : Closed N L f f' (code ++ [i]) where
  before := h.before
  gives x hx := by
    have hx : x ∈ tempsOf N code := by simpa [tempsOf, hdefs] using hx
    exact h.gives x hx
  nodup := by
    have heq : tempsOf N (code ++ [i]) = tempsOf N code := by simp [tempsOf, hdefs]
    rw [heq]
    exact h.nodup
  reads j hj x hx := by
    rcases List.mem_append.mp hj with hj | hj
    · exact (h.reads j hj x hx).left [i]
    · rw [List.mem_singleton.mp hj] at hx
      exact (huses x hx).left [i]
  jumps j hj name hname := by
    rcases List.mem_append.mp hj with hj | hj
    · exact (h.jumps j hj name hname).imp_right fun hmem => by simp [hmem]
    · rw [List.mem_singleton.mp hj] at hname
      exact .inl (htarget name hname)

/-- An assignment to a variable of the method. -/
theorem assign (h : Closed N L f f' code) {dest : Var} (hdest : dest.name ∈ N) {rhs : Rhs}
    (huses : ∀ x ∈ rhs.uses, Provides N code x) :
    Closed N L f f' (code ++ [.assign dest rhs]) where
  before := h.before
  gives x hx := by
    have hx : x ∈ tempsOf N code := by simpa [tempsOf, Instr.defs, hdest] using hx
    exact h.gives x hx
  nodup := by
    have heq : tempsOf N (code ++ [.assign dest rhs]) = tempsOf N code := by
      simp [tempsOf, Instr.defs, hdest]
    rw [heq]
    exact h.nodup
  reads j hj x hx := by
    rcases List.mem_append.mp hj with hj | hj
    · exact (h.reads j hj x hx).left _
    · rw [List.mem_singleton.mp hj] at hx
      exact (huses x hx).left _
  jumps j hj name hname := by
    rcases List.mem_append.mp hj with hj | hj
    · exact (h.jumps j hj name hname).imp_right fun hmem => by simp [hmem]
    · rw [List.mem_singleton.mp hj] at hname
      cases hname

/-- An assignment to a new temporary. -/
theorem temp (h : Closed N L f f₁ code) (type : ValueType) {rhs : Rhs}
    (huses : ∀ x ∈ rhs.uses, Provides N code x) :
    Closed N L f (f₁.temp type).2 (f₁.lowered code type rhs).code := by
  have hgives := f₁.temp_gives type
  have hown : tempsOf N [.assign (f₁.temp type).1 rhs] ⊆ [(f₁.temp type).1.name] := by
    intro x hx
    exact (mem_tempsOf.mp hx).1
  have hone : (tempsOf N [.assign (f₁.temp type).1 rhs]).Nodup :=
    (List.nodup_singleton (f₁.temp type).1.name).filter _
  constructor
  case before => exact h.before.trans (f₁.temp_before type)
  case gives =>
    intro x hx
    rw [Fresh.lowered, tempsOf_append] at hx
    rcases List.mem_append.mp hx with hx | hx
    · exact (h.gives x hx).right (f₁.temp_before type)
    · rw [List.mem_singleton.mp (hown hx)]
      exact hgives.left h.before
  case nodup =>
    rw [Fresh.lowered, tempsOf_append]
    refine List.nodup_append.mpr ⟨h.nodup, hone, ?_⟩
    rintro x hx y hy rfl
    rw [List.mem_singleton.mp (hown hy)] at hx
    exact (h.gives _ hx).not_gives hgives
  case reads =>
    intro i hi x hx
    rcases List.mem_append.mp hi with hi | hi
    · exact (h.reads i hi x hx).left _
    · rw [List.mem_singleton.mp hi] at hx
      exact (huses x hx).left _
  case jumps =>
    intro i hi name hname
    rcases List.mem_append.mp hi with hi | hi
    · exact (h.jumps i hi name hname).imp_right fun hmem => by simp [Fresh.lowered, hmem]
    · rw [List.mem_singleton.mp hi] at hname
      cases hname

end Closed

/-! ## Expressions -/

/-- The shape of a lowered expression: an operand over variables of the method, or closed code and a
right-hand side over what it provides. -/
inductive Named (N : List String) (f : Fresh) : Lowered → Fresh → Prop
  | operand {o : Operand} (h : ∀ x ∈ o.uses, x ∈ N) : Named N f (.ofOperand o) f
  | temp {f₁ : Fresh} {code : List Instr} {type : ValueType} {rhs : Rhs}
    (h : Closed N [] f f₁ code) (huses : ∀ x ∈ rhs.uses, Provides N code x) :
    Named N f (f₁.lowered code type rhs) (f₁.temp type).2

theorem Lowered.storeIn_ofOperand (o : Operand) (dest : Var) :
    (Lowered.ofOperand o).storeIn dest = [.assign dest (.operand o)] := by
  cases o <;> rfl

theorem Fresh.storeIn_lowered (f : Fresh) (code : List Instr) (type : ValueType) (rhs : Rhs)
    (dest : Var) :
    (f.lowered code type rhs).storeIn dest =
      if type = dest.type then code ++ [.assign dest rhs]
      else (f.lowered code type rhs).code ++ [.assign dest (.operand (.var (f.temp type).1))] := by
  have hstore : (f.lowered code type rhs).storeIn dest =
      if (f.temp type).1 = (f.temp type).1 ∧ (f.temp type).1.type = dest.type
      then code ++ [.assign dest rhs]
      else (f.lowered code type rhs).code ++ [.assign dest (.operand (.var (f.temp type).1))] := by
    simp only [Lowered.storeIn, Fresh.lowered, List.getLast?_append, List.getLast?_singleton,
      Option.some_or, List.dropLast_concat]
  rw [hstore]
  simp [Fresh.temp]

namespace Named

variable {N : List String} {f f' : Fresh} {v : Lowered}

theorem closed (h : Named N f v f') : Closed N [] f f' v.code := by
  cases h with
  | operand _ => exact .nil (.refl f)
  | temp hcode huses => exact hcode.temp _ huses

/-- The value can be read when the code has run. -/
theorem value (h : Named N f v f') : ∀ x ∈ v.value.uses, Provides N v.code x := by
  cases h with
  | operand h => exact fun x hx => .inl (h x hx)
  | @temp f₁ code type rhs _ _ =>
    intro x hx
    refine .inr ?_
    rw [List.mem_singleton.mp hx]
    simp [Fresh.lowered, Instr.defs]

theorem storeIn (h : Named N f v f') {dest : Var} (hdest : dest.name ∈ N) :
    Closed N [] f f' (v.storeIn dest) := by
  have hclosed := h.closed
  have hvalue := h.value
  cases h with
  | operand h =>
    rw [Lowered.storeIn_ofOperand]
    exact (Closed.nil (.refl f)).assign hdest fun x hx => .inl (h x hx)
  | @temp f₁ code type rhs hcode huses =>
    rw [Fresh.storeIn_lowered]
    split
    · have hassign := hcode.assign hdest huses
      have hbefore := f₁.temp_before type
      exact List.append_nil (code ++ [.assign dest rhs]) ▸ hassign.append (.nil hbefore)
    · exact hclosed.assign hdest hvalue

end Named

section

variable {Γ : Site}

theorem lowerArgs_closed {ts : List Ast}
    (h : ∀ t ∈ ts, ∀ expected f v f', Γ.Reserved f →
      (lowerExpr Γ expected t).run f = .ok (v, f') → Named Γ.frameNames f v f')
    {declared : List Symbol} {f f' : Fresh} {args : LoweredArgs} (hf : Γ.Reserved f)
    (hargs : (lowerArgs Γ declared ts).run f = .ok (args, f')) :
    Closed Γ.frameNames [] f f' args.code ∧
      ∀ x ∈ args.args.flatMap Operand.uses, Provides Γ.frameNames args.code x := by
  induction ts generalizing declared f args with
  | nil =>
    obtain ⟨rfl, rfl⟩ := lowerArgs_nil_eq_ok hargs
    exact ⟨.nil (.refl f'), fun _ hx => absurd hx List.not_mem_nil⟩
  | cons t ts ih =>
    obtain ⟨param, arg, f₁, rest, -, harg, hrest, rfl⟩ := lowerArgs_cons_eq_ok hargs
    have hfirst := h t List.mem_cons_self _ _ _ _ hf harg
    obtain ⟨hclosed, hreads⟩ := ih (fun u hu => h u (List.mem_cons_of_mem t hu))
      (hf.mono hfirst.closed.before) hrest
    refine ⟨hfirst.closed.append hclosed, fun x hx => ?_⟩
    rw [List.flatMap_cons] at hx
    rcases List.mem_append.mp hx with hx | hx
    · exact (hfirst.value x hx).left _
    · exact (hreads x hx).right _

theorem lowerCall_closed_of {n : Numbered} {method : String} {expected : Option ValueType}
    {ts : List Ast}
    (h : ∀ t ∈ ts, ∀ expected f v f', Γ.Reserved f →
      (lowerExpr Γ expected t).run f = .ok (v, f') → Named Γ.frameNames f v f')
    {f f' : Fresh} {code : List Instr} {call : Call} (hf : Γ.Reserved f)
    (hcall : (lowerCall Γ n method expected ts).run f = .ok ((code, call), f')) :
    Closed Γ.frameNames [] f f' code ∧ ∀ x ∈ call.uses, Provides Γ.frameNames code x := by
  obtain ⟨t, rest, target, f₁, args, result, rfl, ht, hargs, -, rfl, rfl⟩ := lowerCall_eq_ok hcall
  have htarget := h t List.mem_cons_self _ _ _ _ hf ht
  obtain ⟨hclosed, hreads⟩ := lowerArgs_closed (fun u hu => h u (List.mem_cons_of_mem t hu))
    (hf.mono htarget.closed.before) hargs
  refine ⟨htarget.closed.append hclosed, fun x hx => ?_⟩
  rcases List.mem_append.mp hx with hx | hx
  · exact (htarget.value x hx).left _
  · exact (hreads x hx).right _

/-- **The names of a lowered expression.** -/
theorem lowerExpr_named (hΓ : Γ.IsListed) {t : Ast} {expected : Option ValueType} {f f' : Fresh}
    {v : Lowered} (hf : Γ.Reserved f) (hlower : (lowerExpr Γ expected t).run f = .ok (v, f')) :
    Named Γ.frameNames f v f' := by
  induction t using Tree.induction generalizing expected f v f' with
  | node n ts ih =>
    cases lowerExpr_cases hlower with
    | integer _ | boolean _ | string _ | this _ | className _ | classRef _ _ _ =>
      exact .operand fun _ hx => absurd hx List.not_mem_nil
    | «variable» hk hres hscope htype =>
      refine .operand fun x hx => ?_
      rw [List.mem_singleton.mp hx]
      exact Γ.mem_frameNames hΓ hres hscope
    | parenthesis _ h => exact ih _ List.mem_cons_self hf h
    | field _ _ _ _ | newObject _ =>
      exact .temp (.nil (.refl f)) fun _ hx => absurd hx List.not_mem_nil
    | binary _ hl hr =>
      have hleft := ih _ List.mem_cons_self hf hl
      have hright := ih _ (by simp) (hf.mono hleft.closed.before) hr
      refine .temp (hleft.closed.append hright.closed) fun x hx => ?_
      rcases List.mem_append.mp hx with hx | hx
      · exact (hleft.value x hx).left _
      · exact (hright.value x hx).right _
    | negation _ h | arrayLength _ h | newArray _ h =>
      have hinner := ih _ List.mem_cons_self hf h
      exact .temp hinner.closed hinner.value
    | @arrayAccess a i rest base f₁ index f₂ array _ ha hi harray =>
      have hbase := ih _ List.mem_cons_self hf ha
      have hindex := ih _ (by simp) (hf.mono hbase.closed.before) hi
      refine .temp (hbase.closed.append hindex.closed) fun x hx => ?_
      rcases List.mem_cons.mp hx with rfl | hx
      · have harray' : array.name ∈ base.value.uses := by simp [harray, Operand.uses]
        exact (hbase.value _ harray').left _
      · exact (hindex.value x hx).right _
    | invocation _ h =>
      obtain ⟨hclosed, hreads⟩ :=
        lowerCall_closed_of (fun t ht _ _ _ _ hf h => ih t ht hf h) hf h
      exact .temp hclosed hreads

theorem lowerCondition_named (hΓ : Γ.IsListed) {t : Ast} {f f' : Fresh} {v : Lowered}
    (hf : Γ.Reserved f) (hlower : (lowerCondition Γ t).run f = .ok (v, f')) :
    Named Γ.frameNames f v f' := by
  obtain ⟨n, ts⟩ := t
  rcases lowerCondition_eq_ok hlower with ⟨t, rest, -, -, h⟩ | ⟨-, h⟩
  · exact lowerExpr_named hΓ hf h
  · exact lowerExpr_named hΓ hf h

theorem lowerEffect_closed (hΓ : Γ.IsListed) {t : Ast} {f f' : Fresh} {code : List Instr}
    (hf : Γ.Reserved f) (hlower : (lowerEffect Γ t).run f = .ok (code, f')) :
    Closed Γ.frameNames [] f f' code := by
  induction t using Tree.induction generalizing code with
  | node n ts ih =>
    cases lowerEffect_cases hlower with
    | parenthesis _ h => exact ih _ List.mem_cons_self h
    | invocation _ h =>
      obtain ⟨hclosed, hreads⟩ :=
        lowerCall_closed_of (fun _ _ _ _ _ _ hf h => lowerExpr_named hΓ hf h) hf h
      exact hclosed.snoc rfl hreads fun _ hname => by cases hname
    | value _ _ h =>
      have hvalue := lowerExpr_named hΓ hf h
      exact hvalue.closed.snoc rfl hvalue.value fun _ hname => by cases hname

/-! ## Statements -/

/-- The array that an element is assigned to can be read. -/
theorem lowerArray_closed (hΓ : Γ.IsListed) {name : String} {scope : Scope} {symbol : Symbol}
    {type : ValueType} (hres : Γ.table.resolve? Γ.info.name name = some (scope, symbol))
    {array : Var} {f f' : Fresh} {code : List Instr}
    (h : (lowerArray Γ scope ⟨name, type⟩).run f = .ok ((code, array), f')) :
    Closed Γ.frameNames [] f f' code ∧ Provides Γ.frameNames code array.name := by
  cases scope with
  | field =>
    obtain ⟨temp, f₁, htemp, h⟩ := Lowering.bind_eq_ok.mp h
    obtain ⟨rfl, rfl⟩ := Lowering.newTemp_eq_ok.mp htemp
    obtain ⟨heq, rfl⟩ := Lowering.pure_eq_ok.mp h
    obtain ⟨rfl, rfl⟩ := Prod.mk.inj heq
    have hnil : Closed Γ.frameNames [] f f [] := .nil (.refl f)
    refine ⟨hnil.temp type fun _ hx => absurd hx List.not_mem_nil, .inr ?_⟩
    simp [Instr.defs]
  | «local» | parameter =>
    obtain ⟨heq, rfl⟩ := Lowering.pure_eq_ok.mp h
    obtain ⟨rfl, rfl⟩ := Prod.mk.inj heq
    exact ⟨.nil (.refl f'), .inl (Γ.mem_frameNames hΓ hres (by simp))⟩

theorem lowerStatements_closed_of {ts : List Ast}
    (h : ∀ t ∈ ts, ∀ f code f', Γ.Reserved f → (lowerStatement Γ t).run f = .ok (code, f') →
      Closed Γ.frameNames [] f f' code)
    {f f' : Fresh} {code : List Instr} (hf : Γ.Reserved f)
    (hlower : (lowerStatements Γ ts).run f = .ok (code, f')) :
    Closed Γ.frameNames [] f f' code := by
  induction ts generalizing f code with
  | nil =>
    obtain ⟨rfl, rfl⟩ := lowerStatements_nil_eq_ok hlower
    exact .nil (.refl f')
  | cons t ts ih =>
    obtain ⟨first, f₁, rest, ht, hts, rfl⟩ := lowerStatements_cons_eq_ok hlower
    have hfirst := h t List.mem_cons_self _ _ _ hf ht
    exact hfirst.append
      (ih (fun u hu => h u (List.mem_cons_of_mem t hu)) (hf.mono hfirst.before) hts)

theorem lowerElse_closed {ts : List Ast}
    (h : ∀ t ∈ ts, ∀ f code f', Γ.Reserved f → (lowerStatement Γ t).run f = .ok (code, f') →
      Closed Γ.frameNames [] f f' code)
    {f f' : Fresh} {code : List Instr} (hf : Γ.Reserved f)
    (hlower : (lowerElse Γ ts).run f = .ok (code, f')) : Closed Γ.frameNames [] f f' code := by
  cases ts with
  | nil =>
    obtain ⟨rfl, rfl⟩ := Lowering.pure_eq_ok.mp hlower
    exact .nil (.refl f')
  | cons e rest => exact h e List.mem_cons_self _ _ _ hf hlower

/-- The labels around the parts of a conditional are set there. -/
theorem conditionalCode_closed {N : List String} {f f₁ f₂ f₃ : Fresh} (k : Nat) {cond : Lowered}
    {thenCode elseCode : List Instr} (hcond : Named N f cond f₁)
    (hthen : Closed N [] f₁ f₂ thenCode) (helse : Closed N [] f₂ f₃ elseCode) :
    Closed N [] f f₃ (conditionalCode k cond thenCode elseCode) := by
  have hgiven {f f' : Fresh} {code : List Instr} (h : Closed N [] f f' code) :
      Closed N [s!"Else_{k}", s!"EndIf_{k}"] f f' code :=
    h.mono fun _ hname => absurd hname List.not_mem_nil
  have hbranch := (hgiven hcond.closed).snoc (i := .branch cond.value true s!"Else_{k}") rfl
    hcond.value fun _ hname => by simp [← Option.some.inj hname]
  have hjump := (hbranch.append (hgiven hthen)).snoc (i := .jump s!"EndIf_{k}") rfl
    (fun _ hx => absurd hx List.not_mem_nil) fun _ hname => by simp [← Option.some.inj hname]
  have helse' := (hjump.snoc (i := .label s!"Else_{k}") rfl
    (fun _ hx => absurd hx List.not_mem_nil) fun _ hname => by cases hname).append (hgiven helse)
  have hend := helse'.snoc (i := .label s!"EndIf_{k}") rfl
    (fun _ hx => absurd hx List.not_mem_nil) fun _ hname => by cases hname
  have hcode : conditionalCode k cond thenCode elseCode =
      cond.code ++ [.branch cond.value true s!"Else_{k}"] ++ thenCode ++ [.jump s!"EndIf_{k}"] ++
        [.label s!"Else_{k}"] ++ elseCode ++ [.label s!"EndIf_{k}"] := by
    simp [conditionalCode]
  rw [hcode]
  refine hend.inside fun name hname => ?_
  simp only [List.mem_cons, List.not_mem_nil, or_false] at hname
  rcases hname with rfl | rfl <;> simp [Instr.label?]

/-- The labels around the parts of a loop are set there. -/
theorem loopCode_closed {N : List String} {f f₁ f₂ f₃ : Fresh} (k : Nat) {first again : Lowered}
    {body : List Instr} (hfirst : Named N f first f₁) (hbody : Closed N [] f₁ f₂ body)
    (hagain : Named N f₂ again f₃) : Closed N [] f f₃ (loopCode k first body again) := by
  have hgiven {f f' : Fresh} {code : List Instr} (h : Closed N [] f f' code) :
      Closed N [s!"Loop_{k}", s!"EndLoop_{k}"] f f' code :=
    h.mono fun _ hname => absurd hname List.not_mem_nil
  have hbranch := (hgiven hfirst.closed).snoc (i := .branch first.value true s!"EndLoop_{k}") rfl
    hfirst.value fun _ hname => by simp [← Option.some.inj hname]
  have hloop := (hbranch.snoc (i := .label s!"Loop_{k}") rfl
    (fun _ hx => absurd hx List.not_mem_nil) fun _ hname => by cases hname).append (hgiven hbody)
  have hback := (hloop.append (hgiven hagain.closed)).snoc
    (i := .branch again.value false s!"Loop_{k}") rfl (fun x hx => (hagain.value x hx).right _)
    fun _ hname => by simp [← Option.some.inj hname]
  have hend := hback.snoc (i := .label s!"EndLoop_{k}") rfl
    (fun _ hx => absurd hx List.not_mem_nil) fun _ hname => by cases hname
  have hcode : loopCode k first body again =
      first.code ++ [.branch first.value true s!"EndLoop_{k}"] ++ [.label s!"Loop_{k}"] ++ body ++
        again.code ++ [.branch again.value false s!"Loop_{k}"] ++ [.label s!"EndLoop_{k}"] := by
    simp [loopCode]
  rw [hcode]
  refine hend.inside fun name hname => ?_
  simp only [List.mem_cons, List.not_mem_nil, or_false] at hname
  rcases hname with rfl | rfl <;> simp [Instr.label?]

/-- **Lowered statements are closed.** -/
theorem lowerStatement_closed (hΓ : Γ.IsListed) {t : Ast} {f f' : Fresh} {code : List Instr}
    (hf : Γ.Reserved f) (hlower : (lowerStatement Γ t).run f = .ok (code, f')) :
    Closed Γ.frameNames [] f f' code := by
  induction t using Tree.induction generalizing f code f' with
  | node n ts ih =>
    cases lowerStatement_cases hlower with
    | declaration _ => exact .nil (.refl f)
    | returnNone _ =>
      exact (Closed.nil (.refl f)).snoc rfl (fun _ hx => absurd hx List.not_mem_nil)
        fun _ hname => by cases hname
    | sequence _ h => exact lowerStatements_closed_of (fun t ht _ _ _ hf h => ih t ht hf h) hf h
    | expression _ h | effect _ h => exact lowerEffect_closed hΓ hf h
    | «variable» _ hres hscope _ h =>
      exact (lowerExpr_named hΓ hf h).storeIn (Γ.mem_frameNames hΓ hres hscope)
    | field _ _ _ h =>
      have hvalue := lowerExpr_named hΓ hf h
      exact hvalue.closed.snoc rfl hvalue.value fun _ hname => by cases hname
    | returnSome _ _ h =>
      have hvalue := lowerExpr_named hΓ hf h
      exact hvalue.closed.snoc rfl hvalue.value fun _ hname => by cases hname
    | condition _ h =>
      have hvalue := lowerCondition_named hΓ hf h
      exact hvalue.closed.snoc rfl hvalue.value fun _ hname => by cases hname
    | element _ hres _ ha hi he =>
      obtain ⟨hcode, harray⟩ := lowerArray_closed hΓ hres ha
      have hindex := lowerExpr_named hΓ (hf.mono hcode.before) hi
      have hvalue := lowerExpr_named hΓ (hf.mono (hcode.before.trans hindex.closed.before)) he
      refine ((hcode.append hindex.closed).append hvalue.closed).snoc rfl (fun x hx => ?_)
        fun _ hname => by cases hname
      rcases List.mem_cons.mp hx with rfl | hx
      · exact (harray.left _).left _
      · rcases List.mem_append.mp hx with hx | hx
        · exact ((hindex.value x hx).right _).left _
        · exact (hvalue.value x hx).right _
    | conditional _ hc ht he =>
      have hcond := lowerCondition_named hΓ (hf.mono f.label_before) hc
      have hf₁ := hf.mono (f.label_before.trans hcond.closed.before)
      have hthen := ih _ (by simp) hf₁ ht
      have helse := lowerElse_closed (fun t ht _ _ _ hf h => ih t (by simp [ht]) hf h)
        (hf₁.mono hthen.before) he
      exact (conditionalCode_closed f.nextLabel hcond hthen helse).later f.label_before
    | loop _ hc hb hc' =>
      have hfirst := lowerCondition_named hΓ (hf.mono f.label_before) hc
      have hf₁ := hf.mono (f.label_before.trans hfirst.closed.before)
      have hbody := lowerStatements_closed_of (fun t ht _ _ _ hf h => ih t (by simp [ht]) hf h)
        hf₁ hb
      have hagain := lowerCondition_named hΓ (hf₁.mono hbody.before) hc'
      exact (loopCode_closed f.nextLabel hfirst hbody hagain).later f.label_before

theorem lowerStatements_closed (hΓ : Γ.IsListed) {ts : List Ast} {f f' : Fresh}
    {code : List Instr} (hf : Γ.Reserved f)
    (hlower : (lowerStatements Γ ts).run f = .ok (code, f')) : Closed Γ.frameNames [] f f' code :=
  lowerStatements_closed_of (fun _ _ _ _ _ hf h => lowerStatement_closed hΓ hf h) hf hlower

end

end ThreeAddress
end ClassCompiler
