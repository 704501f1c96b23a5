import ClassCompiler.Proofs.ThreeAddress.Expression
import Mathlib.Data.List.Count

/-!
# Labels of lowered code

A control structure sets two labels with a number of its own, and the numbers of the control
structures inside it come later.  So the labels of lowered code are labels of numbers between two
moments of the supply (`LabelsWithin`), and no label is set twice.

* `labelsOf_lowerExpr`: the code of expressions sets no labels.
* `lowerStatement_labels`: the labels that a statement sets, and the supply after it.
-/

namespace ClassCompiler
namespace ThreeAddress

/-! ## Expressions -/

theorem labelsOf_lowerArgs {Γ : Site} {ts : List Ast}
    (h : ∀ t ∈ ts, ∀ expected f v f', (lowerExpr Γ expected t).run f = .ok (v, f') →
      labelsOf v.code = [])
    {declared : List Symbol} {f f' : Fresh} {args : LoweredArgs}
    (hargs : (lowerArgs Γ declared ts).run f = .ok (args, f')) : labelsOf args.code = [] := by
  induction ts generalizing declared f args with
  | nil =>
    obtain ⟨rfl, -⟩ := lowerArgs_nil_eq_ok hargs
    rfl
  | cons t ts ih =>
    obtain ⟨param, arg, f₁, rest, -, harg, hrest, rfl⟩ := lowerArgs_cons_eq_ok hargs
    rw [labelsOf_append, h t List.mem_cons_self _ _ _ _ harg,
      ih (fun u hu => h u (List.mem_cons_of_mem t hu)) hrest, List.append_nil]

theorem Fresh.labelsOf_lowered {f : Fresh} {code : List Instr} (h : labelsOf code = [])
    (type : ValueType) (rhs : Rhs) : labelsOf (f.lowered code type rhs).code = [] := by
  rw [Fresh.lowered, labelsOf_append, h]
  rfl

/-- The code of expressions sets no labels. -/
theorem labelsOf_lowerExpr {Γ : Site} {t : Ast} {expected : Option ValueType} {f f' : Fresh}
    {v : Lowered} (hlower : (lowerExpr Γ expected t).run f = .ok (v, f')) :
    labelsOf v.code = [] := by
  induction t using Tree.induction generalizing expected f v f' with
  | node n ts ih =>
    cases lowerExpr_cases hlower with
    | integer _ | boolean _ | string _ | this _ | className _ | classRef _ _ _ => rfl
    | «variable» _ _ _ _ => rfl
    | parenthesis _ h => exact ih _ List.mem_cons_self h
    | field _ _ _ _ | newObject _ => exact Fresh.labelsOf_lowered rfl ..
    | binary _ hl hr =>
      refine Fresh.labelsOf_lowered ?_ ..
      rw [labelsOf_append, ih _ List.mem_cons_self hl, ih _ (by simp) hr, List.append_nil]
    | arrayAccess _ ha hi _ =>
      refine Fresh.labelsOf_lowered ?_ ..
      rw [labelsOf_append, ih _ List.mem_cons_self ha, ih _ (by simp) hi, List.append_nil]
    | negation _ h | arrayLength _ h | newArray _ h =>
      exact Fresh.labelsOf_lowered (ih _ List.mem_cons_self h) ..
    | invocation _ h =>
      obtain ⟨t, rest, target, f₁, args, result, rfl, ht, hargs, -, rfl, -⟩ := lowerCall_eq_ok h
      refine Fresh.labelsOf_lowered ?_ ..
      rw [labelsOf_append, ih t List.mem_cons_self ht, List.nil_append]
      exact labelsOf_lowerArgs (fun u hu _ _ _ _ hu' => ih u (List.mem_cons_of_mem t hu) hu') hargs

theorem labelsOf_lowerCondition {Γ : Site} {t : Ast} {f f' : Fresh} {v : Lowered}
    (hlower : (lowerCondition Γ t).run f = .ok (v, f')) : labelsOf v.code = [] := by
  obtain ⟨n, ts⟩ := t
  rcases lowerCondition_eq_ok hlower with ⟨t, rest, -, -, h⟩ | ⟨-, h⟩
  · exact labelsOf_lowerExpr h
  · exact labelsOf_lowerExpr h

theorem labelsOf_lowerEffect {Γ : Site} {t : Ast} {f f' : Fresh} {code : List Instr}
    (hlower : (lowerEffect Γ t).run f = .ok (code, f')) : labelsOf code = [] := by
  induction t using Tree.induction generalizing code with
  | node n ts ih =>
    cases lowerEffect_cases hlower with
    | parenthesis _ h => exact ih _ List.mem_cons_self h
    | invocation _ h =>
      obtain ⟨t, rest, target, f₁, args, result, rfl, ht, hargs, -, rfl, -⟩ := lowerCall_eq_ok h
      simp [labelsOf_lowerExpr ht, Instr.label?,
        labelsOf_lowerArgs (fun _ _ _ _ _ _ h => labelsOf_lowerExpr h) hargs]
    | value _ _ h => simp [labelsOf_lowerExpr h, Instr.label?]

theorem labelsOf_storeIn {v : Lowered} (h : labelsOf v.code = []) (dest : Var) :
    labelsOf (v.storeIn dest) = [] := by
  have hcopy : labelsOf (v.code ++ [.assign dest (.operand v.value)]) = [] := by
    simp [h, Instr.label?]
  unfold Lowered.storeIn
  split
  · split
    · have hinit : labelsOf v.code.dropLast = [] := by
        refine List.eq_nil_of_subset_nil ?_
        rw [← h]
        exact (v.code.dropLast_sublist.filterMap _).subset
      simp [hinit, Instr.label?]
    · exact hcopy
  · exact hcopy

/-! ## Statements -/

/-- The names are labels of numbers from `a` on and below `b`, each once. -/
def LabelsWithin (a b : Nat) (names : List String) : Prop :=
  names.Nodup ∧ ∀ name ∈ names, ∃ k, a ≤ k ∧ k < b ∧ name ∈ labelNames k

namespace LabelsWithin

variable {a b c : Nat} {names names' : List String}

theorem nil : LabelsWithin a b [] :=
  ⟨List.nodup_nil, fun _ h => absurd h List.not_mem_nil⟩

theorem mono {a' b' : Nat} (h : LabelsWithin a b names) (ha : a' ≤ a) (hb : b ≤ b') :
    LabelsWithin a' b' names := by
  refine ⟨h.1, fun name hname => ?_⟩
  obtain ⟨k, hak, hkb, hk⟩ := h.2 name hname
  exact ⟨k, Nat.le_trans ha hak, Nat.lt_of_lt_of_le hkb hb, hk⟩

theorem append (h : LabelsWithin a b names) (h' : LabelsWithin b c names') (hab : a ≤ b)
    (hbc : b ≤ c) : LabelsWithin a c (names ++ names') := by
  refine ⟨List.nodup_append.mpr ⟨h.1, h'.1, ?_⟩, fun name hname => ?_⟩
  · rintro x hx y hy rfl
    obtain ⟨j, _, hjb, hj⟩ := h.2 x hx
    obtain ⟨k, hbk, _, hk⟩ := h'.2 x hy
    have := labelNames_disjoint hj hk
    omega
  · rcases List.mem_append.mp hname with hname | hname
    · exact (h.mono (Nat.le_refl a) hbc).2 name hname
    · exact (h'.mono hab (Nat.le_refl c)).2 name hname

theorem perm (h : LabelsWithin a b names) (hp : names.Perm names') : LabelsWithin a b names' :=
  ⟨hp.nodup_iff.mp h.1, fun name hname => h.2 name (hp.mem_iff.mpr hname)⟩

/-- The labels of one number. -/
theorem own {k : Nat} (h : names.Sublist (labelNames k)) : LabelsWithin k (k + 1) names :=
  ⟨h.nodup (labelNames_nodup k), fun _ hname =>
    ⟨k, Nat.le_refl k, Nat.lt_succ_self k, h.subset hname⟩⟩

end LabelsWithin

/-- The labels of a statement, and the supply after it. -/
def LabelsBetween (f f' : Fresh) (code : List Instr) : Prop :=
  f.Before f' ∧ LabelsWithin f.nextLabel f'.nextLabel (labelsOf code)

theorem LabelsBetween.of_nil {f f' : Fresh} {code : List Instr} (h : f.Before f')
    (hcode : labelsOf code = []) : LabelsBetween f f' code := by
  refine ⟨h, ?_⟩
  rw [hcode]
  exact .nil

theorem LabelsBetween.append {f f₁ f₂ : Fresh} {code code' : List Instr}
    (h : LabelsBetween f f₁ code) (h' : LabelsBetween f₁ f₂ code') :
    LabelsBetween f f₂ (code ++ code') := by
  refine ⟨h.1.trans h'.1, ?_⟩
  rw [labelsOf_append]
  exact h.2.append h'.2 h.1.label h'.1.label

/-- Two labels of a new number, anywhere around the code of the parts. -/
theorem LabelsBetween.around {f f' : Fresh} {inner code : List Instr} (names : List String)
    (h : LabelsBetween f.label.2 f' inner) (hnames : names.Sublist (labelNames f.nextLabel))
    (hperm : (names ++ labelsOf inner).Perm (labelsOf code)) : LabelsBetween f f' code := by
  refine ⟨f.label_before.trans h.1, LabelsWithin.perm ?_ hperm⟩
  exact (LabelsWithin.own hnames).append h.2 (Nat.le_succ _) h.1.label

theorem lowerStatements_labels {Γ : Site} {ts : List Ast}
    (h : ∀ t ∈ ts, ∀ f code f', Γ.Reserved f → (lowerStatement Γ t).run f = .ok (code, f') →
      LabelsBetween f f' code)
    {f f' : Fresh} {code : List Instr} (hf : Γ.Reserved f)
    (hlower : (lowerStatements Γ ts).run f = .ok (code, f')) : LabelsBetween f f' code := by
  induction ts generalizing f code with
  | nil =>
    obtain ⟨rfl, rfl⟩ := lowerStatements_nil_eq_ok hlower
    exact .of_nil (.refl f') rfl
  | cons t ts ih =>
    obtain ⟨first, f₁, rest, ht, hts, rfl⟩ := lowerStatements_cons_eq_ok hlower
    have hfirst := h t List.mem_cons_self _ _ _ hf ht
    exact hfirst.append
      (ih (fun u hu => h u (List.mem_cons_of_mem t hu)) (hf.mono hfirst.1) hts)

theorem lowerElse_labels {Γ : Site} {ts : List Ast}
    (h : ∀ t ∈ ts, ∀ f code f', Γ.Reserved f → (lowerStatement Γ t).run f = .ok (code, f') →
      LabelsBetween f f' code)
    {f f' : Fresh} {code : List Instr} (hf : Γ.Reserved f)
    (hlower : (lowerElse Γ ts).run f = .ok (code, f')) : LabelsBetween f f' code := by
  cases ts with
  | nil =>
    obtain ⟨rfl, rfl⟩ := Lowering.pure_eq_ok.mp hlower
    exact .of_nil (.refl f') rfl
  | cons e rest => exact h e List.mem_cons_self _ _ _ hf hlower

theorem lowerArray_before {Γ : Site} {scope : Scope} {v array : Var} {f f' : Fresh}
    {code : List Instr} (h : (lowerArray Γ scope v).run f = .ok ((code, array), f')) :
    f.Before f' ∧ labelsOf code = [] := by
  cases scope with
  | field =>
    obtain ⟨temp, f₁, htemp, h⟩ := Lowering.bind_eq_ok.mp h
    obtain ⟨rfl, rfl⟩ := Lowering.newTemp_eq_ok.mp htemp
    obtain ⟨heq, rfl⟩ := Lowering.pure_eq_ok.mp h
    obtain ⟨rfl, -⟩ := Prod.mk.inj heq
    exact ⟨f.temp_before _, rfl⟩
  | «local» | parameter =>
    obtain ⟨heq, rfl⟩ := Lowering.pure_eq_ok.mp h
    obtain ⟨rfl, -⟩ := Prod.mk.inj heq
    exact ⟨.refl f', rfl⟩

/-- **The labels that a statement sets**, and the supply of names after it. -/
theorem lowerStatement_labels {Γ : Site} (hΓ : Γ.IsListed) {t : Ast} {f f' : Fresh}
    {code : List Instr} (hf : Γ.Reserved f)
    (hlower : (lowerStatement Γ t).run f = .ok (code, f')) : LabelsBetween f f' code := by
  induction t using Tree.induction generalizing f code f' with
  | node n ts ih =>
    cases lowerStatement_cases hlower with
    | declaration _ | returnNone _ => exact .of_nil (.refl f) rfl
    | sequence _ h => exact lowerStatements_labels (fun t ht _ _ _ hf h => ih t ht hf h) hf h
    | expression _ h | effect _ h =>
      exact .of_nil (lowerEffect_before hΓ hf h) (labelsOf_lowerEffect h)
    | «variable» _ _ _ _ h =>
      exact .of_nil (lowerExpr_tidy hΓ hf h).before (labelsOf_storeIn (labelsOf_lowerExpr h) _)
    | field _ _ _ h | returnSome _ _ h =>
      exact .of_nil (lowerExpr_tidy hΓ hf h).before (by simp [labelsOf_lowerExpr h, Instr.label?])
    | condition _ h =>
      exact .of_nil (lowerCondition_tidy hΓ hf h).before
        (by simp [labelsOf_lowerCondition h, Instr.label?])
    | element _ _ _ ha hi he =>
      obtain ⟨harray, hcode⟩ := lowerArray_before ha
      have hindex := (lowerExpr_tidy hΓ (hf.mono harray) hi).before
      have hvalue := (lowerExpr_tidy hΓ (hf.mono (harray.trans hindex)) he).before
      exact .of_nil (harray.trans (hindex.trans hvalue))
        (by simp [hcode, labelsOf_lowerExpr hi, labelsOf_lowerExpr he, Instr.label?])
    | conditional _ hc ht he =>
      have hcond := (lowerCondition_tidy hΓ (hf.mono f.label_before) hc).before
      have hf₁ := hf.mono (f.label_before.trans hcond)
      have hthen := ih _ (by simp) hf₁ ht
      have helse := lowerElse_labels (fun t ht _ _ _ hf h => ih t (by simp [ht]) hf h)
        (hf₁.mono hthen.1) he
      refine .around [s!"Else_{f.nextLabel}", s!"EndIf_{f.nextLabel}"]
        (.append (.of_nil hcond (labelsOf_lowerCondition hc)) (hthen.append helse))
        (.cons_cons _ (.cons_cons _ (List.nil_sublist _))) (List.perm_iff_count.mpr fun name => ?_)
      simp only [conditionalCode, labelsOf_append, labelsOf_cons, labelsOf_nil, Instr.label?,
        List.count_append, List.count_cons, List.count_nil, Option.toList]
      omega
    | loop _ hc hb hc' =>
      have hfirst := (lowerCondition_tidy hΓ (hf.mono f.label_before) hc).before
      have hf₁ := hf.mono (f.label_before.trans hfirst)
      have hbody := lowerStatements_labels (fun t ht _ _ _ hf h => ih t (by simp [ht]) hf h) hf₁ hb
      have hagain := (lowerCondition_tidy hΓ (hf₁.mono hbody.1) hc').before
      refine .around [s!"Loop_{f.nextLabel}", s!"EndLoop_{f.nextLabel}"]
        (.append (.of_nil hfirst (labelsOf_lowerCondition hc))
          (hbody.append (.of_nil hagain (labelsOf_lowerCondition hc'))))
        (.cons _ (.cons _ (.refl _))) (List.perm_iff_count.mpr fun name => ?_)
      simp only [loopCode, labelsOf_append, labelsOf_cons, labelsOf_nil, Instr.label?,
        List.count_append, List.count_cons, List.count_nil, Option.toList]
      omega

end ThreeAddress
end ClassCompiler
