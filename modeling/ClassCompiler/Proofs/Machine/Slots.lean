import ClassCompiler.Machine.Select
import ClassCompiler.Proofs.Meaning.World
import Std.Data.TreeMap.Lemmas

/-!
# Slots of a method

Every name has a slot of its own.  The slots of a method start after the one of the receiver, if it
has a receiver, and the parameters have the first of them, in their order.

* `SlotTable.Apart`: no slot belongs to two names.
* `allocate_apart`: the slots of a method.
* `allocate_params`: the slots of its parameters.
-/

namespace ClassCompiler
namespace Machine

open ThreeAddress
open Meaning (except_bind_eq_ok)

namespace SlotTable

/-- No slot belongs to two names, and all of them are from `base` on and below the next one. -/
structure Apart (base : Nat) (t : SlotTable) : Prop where
  base_le : base ≤ t.used
  bounds : ∀ x s, t.get? x = some s → base ≤ s.index ∧ s.index < t.used
  inj : ∀ x y s s', t.get? x = some s → t.get? y = some s' → s.index = s'.index → x = y

/-- What it means to give a variable a slot. -/
theorem assign_cases {t t' : SlotTable} {v : Var} {i : Nat} (h : t.assign v = .ok (t', i)) :
    (∃ s, t.get? v.name = some s ∧ t' = t) ∨
      (t.get? v.name = none ∧ t'.used = t.used + 1 ∧
        ∀ x, t'.get? x = if v.name = x then some ⟨t.used, v.type⟩ else t.get? x) := by
  unfold assign at h
  split at h
  · cases h
    exact .inl ⟨_, ‹_›, rfl⟩
  · split at h
    · cases h
      refine .inr ⟨‹_›, rfl, fun x => ?_⟩
      unfold get?
      rw [Std.TreeMap.getElem?_insert]
      simp only [Std.LawfulEqCmp.compare_eq_iff_eq]
    · cases h

theorem assign_apart {base : Nat} {t t' : SlotTable} {v : Var} {i : Nat} (ht : t.Apart base)
    (h : t.assign v = .ok (t', i)) : t'.Apart base := by
  rcases assign_cases h with ⟨s, -, rfl⟩ | ⟨-, hused, hget⟩
  · exact ht
  have hbounds := ht.bounds
  have hinj := ht.inj
  have hbase := ht.base_le
  -- A slot is an old one, which is below the next, or the next one, and then the name is new.
  have hcases : ∀ x s, t'.get? x = some s →
      (t.get? x = some s ∧ s.index < t.used) ∨ (v.name = x ∧ s.index = t.used) := by
    intro x s hx
    rw [hget] at hx
    split at hx
    · cases hx
      exact .inr ⟨‹_›, rfl⟩
    · exact .inl ⟨hx, (hbounds x s hx).2⟩
  refine ⟨by omega, fun x s hx => ?_, fun x y s s' hx hy hindex => ?_⟩
  · rcases hcases x s hx with ⟨hold, hlt⟩ | ⟨-, hnew⟩
    · have := (hbounds x s hold).1
      omega
    · omega
  · rcases hcases x s hx with ⟨hold, hlt⟩ | ⟨rfl, hnew⟩
    · rcases hcases y s' hy with ⟨hold', -⟩ | ⟨-, hnew'⟩
      · exact hinj x y s s' hold hold' hindex
      · omega
    · rcases hcases y s' hy with ⟨-, hlt'⟩ | ⟨rfl, -⟩
      · omega
      · rfl

/-- A variable keeps its slot. -/
theorem assign_keeps {t t' : SlotTable} {v : Var} {i : Nat} (h : t.assign v = .ok (t', i))
    {x : String} {s : Slot} (hx : t.get? x = some s) : t'.get? x = some s := by
  rcases assign_cases h with ⟨-, -, rfl⟩ | ⟨hnone, -, hget⟩
  · exact hx
  · rw [hget, if_neg]
    · exact hx
    · rintro rfl
      rw [hnone] at hx
      cases hx

theorem assignAll_cons {t t' : SlotTable} {v : Var} {vs : List Var}
    (h : t.assignAll (v :: vs) = .ok t') :
    ∃ t₁ i, t.assign v = .ok (t₁, i) ∧ t₁.assignAll vs = .ok t' := by
  obtain ⟨⟨t₁, i⟩, hv, hvs⟩ := except_bind_eq_ok.mp h
  exact ⟨t₁, i, hv, hvs⟩

theorem assignAll_apart {base : Nat} {t t' : SlotTable} {vs : List Var} (ht : t.Apart base)
    (h : t.assignAll vs = .ok t') : t'.Apart base := by
  induction vs generalizing t with
  | nil =>
    cases h
    exact ht
  | cons v vs ih =>
    obtain ⟨t₁, i, hv, hvs⟩ := assignAll_cons h
    exact ih (assign_apart ht hv) hvs

theorem assignAll_keeps {t t' : SlotTable} {vs : List Var} (h : t.assignAll vs = .ok t')
    {x : String} {s : Slot} (hx : t.get? x = some s) : t'.get? x = some s := by
  induction vs generalizing t with
  | nil =>
    cases h
    exact hx
  | cons v vs ih =>
    obtain ⟨t₁, i, hv, hvs⟩ := assignAll_cons h
    exact ih hvs (assign_keeps hv hx)

/-- Variables with names that are new and different get the next slots, in their order. -/
theorem assignAll_new {t t' : SlotTable} {vs rest : List Var}
    (h : t.assignAll (vs ++ rest) = .ok t') (hnew : ∀ v ∈ vs, t.get? v.name = none)
    (hnodup : (vs.map Var.name).Nodup) {i : Nat} {v : Var} (hv : vs[i]? = some v) :
    ∃ s, t'.get? v.name = some s ∧ s.index = t.used + i := by
  induction vs generalizing t i with
  | nil => simp at hv
  | cons u vs ih =>
    obtain ⟨t₁, _, hu, hvs⟩ := assignAll_cons h
    rcases assign_cases hu with ⟨s, hs, -⟩ | ⟨-, hused, hget⟩
    · rw [hnew u List.mem_cons_self] at hs
      cases hs
    obtain ⟨hfresh, hnodup'⟩ := List.nodup_cons.mp hnodup
    cases i with
    | zero =>
      rw [List.getElem?_cons_zero, Option.some.injEq] at hv
      subst hv
      exact ⟨⟨t.used, u.type⟩, assignAll_keeps hvs (by rw [hget, if_pos rfl]), rfl⟩
    | succ i =>
      rw [List.getElem?_cons_succ] at hv
      have hnew₁ : ∀ w ∈ vs, t₁.get? w.name = none := by
        intro w hw
        rw [hget, if_neg]
        · exact hnew w (List.mem_cons_of_mem u hw)
        · intro hname
          exact hfresh (List.mem_map.mpr ⟨w, hw, hname.symm⟩)
      obtain ⟨s, hs, hindex⟩ := ih hvs hnew₁ hnodup' hv
      exact ⟨s, hs, by omega⟩

end SlotTable

/-- The number of slots before those of the variables. -/
def firstSlot (m : Method) : Nat :=
  if m.isStatic then 0 else 1

/-- The table of a method before its variables have slots. -/
theorem allocate_eq (m : Method) :
    ∃ start : SlotTable, allocate m = start.assignAll (frameVars m) ∧ start.used = firstSlot m ∧
      ∀ x, start.get? x = none := by
  unfold allocate firstSlot
  have hnone (n : Nat) (x : String) : ({ used := n } : SlotTable).get? x = none := by
    unfold SlotTable.get?
    exact Std.TreeMap.getElem?_emptyc
  cases m.isStatic with
  | true => exact ⟨{}, rfl, rfl, hnone 0⟩
  | false => exact ⟨{ used := 1 }, rfl, rfl, hnone 1⟩

/-- **No slot of a method belongs to two names**, nor to the receiver. -/
theorem allocate_apart {m : Method} {t : SlotTable} (h : allocate m = .ok t) :
    t.Apart (firstSlot m) := by
  obtain ⟨start, heq, hused, hnone⟩ := allocate_eq m
  rw [heq] at h
  refine SlotTable.assignAll_apart ⟨by omega, fun x s hx => ?_, fun x y s s' hx => ?_⟩ h
  · rw [hnone] at hx
    cases hx
  · rw [hnone] at hx
    cases hx

/-- **The parameters have the first slots.** -/
theorem allocate_params {m : Method} {t : SlotTable} (h : allocate m = .ok t)
    (hnodup : (m.params.map Var.name).Nodup) {i : Nat} {v : Var} (hv : m.params[i]? = some v) :
    ∃ s, t.get? v.name = some s ∧ s.index = firstSlot m + i := by
  obtain ⟨start, heq, hused, hnone⟩ := allocate_eq m
  rw [heq, frameVars, List.append_assoc] at h
  obtain ⟨s, hs, hindex⟩ := SlotTable.assignAll_new h (fun v _ => hnone v.name) hnodup hv
  exact ⟨s, hs, by omega⟩

end Machine
end ClassCompiler
