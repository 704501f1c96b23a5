import ClassCompiler.Proofs.Machine.Selectable
import ClassCompiler.Proofs.ThreeAddress.Closed
import ClassCompiler.Proofs.ThreeAddress.Method

/-!
# Classes that can be emitted

Lowered methods are closed, so to emit one fails only if it asks for what the machine does not have,
or for too many slots.  How many it needs can be counted: no two of its temporaries have the same
name, and none has the name of a parameter or a local.

* `lowerMethod_isClosed`: names and labels give no cause to fail.
* `slotsNeeded_eq`: the number of slots.
* `classText_isOk_iff`: when an accepted class can be emitted.
-/

namespace ClassCompiler
namespace Machine

open ThreeAddress
open Meaning (except_bind_eq_ok)

theorem destsOf_eq (code : List Instr) :
    (code.filterMap Instr.dest?).map Var.name = destsOf code := by
  induction code with
  | nil => rfl
  | cons i is ih =>
    rw [destsOf_cons, ← ih]
    cases i <;> rfl

theorem varsOf_described {T : ClassTable} {symbols : List Symbol} {vars : List Var}
    (h : varsOf symbols = .ok vars) (hsymbols : ∀ s ∈ symbols, Described T s.type) :
    ∀ v ∈ vars, describes T v.type = true := by
  induction symbols generalizing vars with
  | nil =>
    cases Except.ok.inj h
    exact fun _ hv => absurd hv List.not_mem_nil
  | cons s ss ih =>
    obtain ⟨type, htype, h⟩ := except_bind_eq_ok.mp h
    obtain ⟨rest, hrest, h⟩ := except_bind_eq_ok.mp h
    cases Except.ok.inj h
    intro v hv
    rcases List.mem_cons.mp hv with rfl | hv
    · exact hsymbols s List.mem_cons_self type htype
    · exact ih hrest (fun s' hs' => hsymbols s' (List.mem_cons_of_mem s hs')) v hv

/-! ## Methods -/

section

variable (T : ClassTable) (isStatic : Bool) (N : List String)

/-- The return that a method is given at its end asks for nothing. -/
theorem selectable_closeBody (result : ValueType) (code : List Instr) :
    (closeBody result code).all (selectable T isStatic) =
      code.all (selectable T isStatic) := by
  rcases Meaning.closeBody_cases result code with ⟨-, heq⟩ | ⟨-, heq⟩ | ⟨-, heq, -⟩
  · rw [heq]
  · rw [heq, List.all_append]
    simp [selectable]
  · rw [heq]

theorem tempsOf_closeBody (result : ValueType) (code : List Instr) :
    tempsOf N (closeBody result code) = tempsOf N code := by
  rcases Meaning.closeBody_cases result code with ⟨-, heq⟩ | ⟨-, heq⟩ | ⟨-, heq, -⟩
  · rw [heq]
  · rw [heq, tempsOf_append]
    exact List.append_nil _
  · rw [heq]

end

section

variable {T : ClassTable} {info : MethodInfo} {ts : List Ast} {m : Method}

/-- The names that get slots: those of the method, and those that its code assigns. -/
theorem frameVars_names (h : lowerMethod T info ts = .ok m) :
    (frameVars m).map Var.name = Site.frameNames ⟨T, info⟩ ++ destsOf m.code := by
  obtain ⟨_, _, -, -, hparams, hlocals, -⟩ := lowerMethod_eq_ok h
  rw [frameVars, List.map_append, List.map_append, destsOf_eq, varsOf_names hparams,
    varsOf_names hlocals, Site.frameNames, List.map_append]

theorem lowerMethod_closed (hinfo : T.method? info.name = some info)
    (h : lowerMethod T info ts = .ok m) :
    ∃ f, Closed (Site.frameNames ⟨T, info⟩) [] { reserved := reservedNames T info } f m.code := by
  obtain ⟨code, f, hcode, -, -, -, -, -, hclose⟩ := lowerMethod_eq_ok h
  have hlisted : Site.IsListed ⟨T, info⟩ := hinfo
  have hreserved : Site.Reserved ⟨T, info⟩ { reserved := reservedNames T info } := rfl
  have hclosed := lowerStatements_closed hlisted hreserved hcode
  refine ⟨f, ?_⟩
  rw [hclose]
  rcases Meaning.closeBody_cases m.result code with ⟨-, heq⟩ | ⟨-, heq⟩ | ⟨-, heq, -⟩
  · rw [heq]
    exact hclosed
  · rw [heq]
    exact hclosed.snoc rfl (fun _ hx => absurd hx List.not_mem_nil) fun _ hname => by cases hname
  · rw [heq]
    exact hclosed

/-- **Lowered methods are closed.** -/
theorem lowerMethod_isClosed (hinfo : T.method? info.name = some info)
    (h : lowerMethod T info ts = .ok m) : IsClosed m := by
  obtain ⟨f, hclosed⟩ := lowerMethod_closed hinfo h
  obtain ⟨code, f', hcode, -, -, -, -, -, hclose⟩ := lowerMethod_eq_ok h
  have hlisted : Site.IsListed ⟨T, info⟩ := hinfo
  have hreserved : Site.Reserved ⟨T, info⟩ { reserved := reservedNames T info } := rfl
  have hlabels := lowerStatements_labels
    (fun _ _ _ _ _ hf h => lowerStatement_labels hlisted hf h) hreserved hcode
  constructor
  case reads =>
    intro i hi x hx
    rw [frameVars_names h]
    exact List.mem_append.mpr (hclosed.reads i hi x hx)
  case labels =>
    rw [hclose, Meaning.labelsOf_closeBody]
    exact hlabels.2.1
  case jumps =>
    intro i hi name hname
    exact (hclosed.jumps i hi name hname).resolve_left List.not_mem_nil

/-- **The slots of a lowered method**: one for the receiver, if there is one, one for each name of
the method, and one for each temporary. -/
theorem slotsNeeded_eq (hinfo : T.method? info.name = some info)
    (h : lowerMethod T info ts = .ok m) :
    slotsNeeded m = firstSlot m + (Site.frameNames ⟨T, info⟩).toFinset.card +
      (tempsOf (Site.frameNames ⟨T, info⟩) m.code).length := by
  obtain ⟨f, hclosed⟩ := lowerMethod_closed hinfo h
  have htemps : (destsOf m.code).toFinset \ (Site.frameNames ⟨T, info⟩).toFinset =
      (tempsOf (Site.frameNames ⟨T, info⟩) m.code).toFinset := by
    ext x
    simp [mem_tempsOf]
  have hcard := Finset.card_sdiff_add_card (destsOf m.code).toFinset
    (Site.frameNames ⟨T, info⟩).toFinset
  rw [htemps, List.toFinset_card_of_nodup hclosed.nodup, Finset.union_comm] at hcard
  rw [slotsNeeded, frameVars_names h, List.toFinset_append]
  omega

/-- The types in the signature of a method have descriptors. -/
theorem lowerMethod_described (hT : T.AllTypes (Described T))
    (hinfo : T.method? info.name = some info) (h : lowerMethod T info ts = .ok m) :
    (m.params.map Var.type).all (describes T) = true ∧ describes T m.result = true := by
  obtain ⟨_, _, -, hresult, hparams, -⟩ := lowerMethod_eq_ok h
  have htypes := hT.methods info (ClassTable.method?_mem hinfo)
  have hsymbols : ∀ s ∈ info.parameters, Described T s.type := fun s hs =>
    htypes s.type (List.mem_cons_of_mem _ (List.mem_map_of_mem (List.mem_append_left _ hs)))
  refine ⟨?_, htypes _ List.mem_cons_self _ hresult⟩
  rw [List.all_map, List.all_eq_true]
  exact varsOf_described hparams hsymbols

/-- The code of a method can be selected if its statements can be emitted. -/
theorem lowerMethod_selectable (hT : T.AllTypes (Described T))
    (hinfo : T.method? info.name = some info) (hts : ∀ t ∈ ts, Site.Admits ⟨T, info⟩ t)
    (h : lowerMethod T info ts = .ok m) :
    m.code.all (selectable T m.isStatic) = true ↔
      ∀ t ∈ ts, t.everywhere (emits T info.name) = true := by
  obtain ⟨code, f, hcode, -, -, -, -, hstatic, hclose⟩ := lowerMethod_eq_ok h
  have hresult := hT.methods info (ClassTable.method?_mem hinfo) _ List.mem_cons_self
  have hbody : code.all (selectable T info.isStatic) = true ↔
      ∀ t ∈ ts, t.everywhere (emits T info.name) = true :=
    lowerStatements_selectable_of (Γ := ⟨T, info⟩)
      (fun t ht _ _ _ h => lowerStatement_selectable hT hresult (hts t ht) h) hcode
  rw [← hbody, hstatic, hclose, selectable_closeBody]

/-- **A method can be emitted if its statements can, and it does not need too many slots.** -/
theorem lowerMethod_isOk (hT : T.AllTypes (Described T))
    (hinfo : T.method? info.name = some info) (hts : ∀ t ∈ ts, Site.Admits ⟨T, info⟩ t)
    (h : lowerMethod T info ts = .ok m) (budget : Nat) :
    IsOk (methodLines T budget m) ↔
      (∀ t ∈ ts, t.everywhere (emits T info.name) = true) ∧ slotsNeeded m ≤ maxSlots := by
  rw [methodLines_isOk (lowerMethod_isClosed hinfo h), lowerMethod_selectable hT hinfo hts h,
    and_iff_right (lowerMethod_described hT hinfo h), and_comm]

end

/-! ## Classes -/

/-- Every method of a class that is lowered is there. -/
theorem lowerMethods_lowered {T : ClassTable} {members : List Ast} {ms : List Method}
    (h : lowerMethods T members = .ok ms) {member : Ast} (hmember : member ∈ members)
    {name : String} (hname : member.kind.methodName? = some name) :
    ∃ info, T.method? name = some info ∧
      ∃ m ∈ ms, lowerMethod T info member.children = .ok m := by
  induction members generalizing ms with
  | nil => exact absurd hmember List.not_mem_nil
  | cons first members ih =>
    rw [lowerMethods] at h
    rcases List.mem_cons.mp hmember with rfl | hmember
    · simp only [hname] at h
      cases hinfo : T.method? name with
      | none =>
        rw [hinfo] at h
        cases h
      | some info =>
        rw [hinfo] at h
        obtain ⟨m, hm, h⟩ := except_bind_eq_ok.mp h
        obtain ⟨rest, -, h⟩ := except_bind_eq_ok.mp h
        cases Except.ok.inj h
        exact ⟨info, rfl, m, List.mem_cons_self, hm⟩
    · split at h
      · exact ih h hmember
      · split at h
        · cases h
        · obtain ⟨m, -, h⟩ := except_bind_eq_ok.mp h
          obtain ⟨rest, hrest, h⟩ := except_bind_eq_ok.mp h
          cases Except.ok.inj h
          obtain ⟨info, hinfo, m', hm', hlower⟩ := ih hrest hmember
          exact ⟨info, hinfo, m', List.mem_cons_of_mem m hm', hlower⟩

theorem lowerClass_eq_ok {T : ClassTable} {t c : Ast} {code : ClassCode} (hc : t.classTree = .ok c)
    (h : lowerClass T t = .ok code) :
    varsOf T.fields = .ok code.fields ∧ lowerMethods T c.children = .ok code.methods := by
  obtain ⟨_, hc', h⟩ := except_bind_eq_ok.mp h
  cases Except.ok.inj (hc.symm.trans hc')
  obtain ⟨fields, hfields, h⟩ := except_bind_eq_ok.mp h
  obtain ⟨methods, hmethods, h⟩ := except_bind_eq_ok.mp h
  cases Except.ok.inj h
  exact ⟨hfields, hmethods⟩

/-- **An accepted class can be emitted exactly if** no class is named where a value is needed,
methods are called on objects only, and no method needs too many slots. -/
theorem classText_isOk_iff {T : ClassTable} {t c : Ast} {code : ClassCode}
    (htable : (ClassTable.ofTree t).Gives T) (hcheck : (Typing.checkClass T t).Gives ())
    (hc : t.classTree = .ok c) (hcode : lowerClass T t = .ok code) (budget : Nat) :
    IsOk (classText T budget code) ↔
      c.everyBody (emits T) = true ∧ ∀ m ∈ code.methods, slotsNeeded m ≤ maxSlots := by
  obtain ⟨hfields, hmethods⟩ := lowerClass_eq_ok hc hcode
  have hT := described_of_accepted htable hcheck
  -- What is known of each method, whether it is given as code or as a tree.
  have hmethod {member : Ast} (hmember : member ∈ c.children) {name : String} {info : MethodInfo}
      {m : Method} (hname : member.kind.methodName? = some name)
      (hinfo : T.method? name = some info) (hm : lowerMethod T info member.children = .ok m) :
      IsOk (methodLines T budget m) ↔
        (∀ t ∈ member.children, t.everywhere (emits T name) = true) ∧
          slotsNeeded m ≤ maxSlots := by
    obtain ⟨info', hinfo', hbody⟩ := Typing.body_of_accepted htable hcheck hc hmember hname
    cases hinfo.symm.trans hinfo'
    obtain rfl := ClassTable.name_of_method? hinfo
    have hadmits : ∀ t ∈ member.children, Site.Admits ⟨T, info⟩ t := fun t ht =>
      admits_of_accepted (hbody t ht)
    exact lowerMethod_isOk hT hinfo hadmits hm budget
  rw [classText_isOk (varsOf_described hfields hT.fields) budget, Tree.everyBody_eq_true]
  constructor
  · intro hall
    constructor
    · intro member hmember name hname
      obtain ⟨info, hinfo, m, hmem, hm⟩ := lowerMethods_lowered hmethods hmember hname
      exact ((hmethod hmember hname hinfo hm).mp (hall m hmem)).1
    · intro m hmem
      obtain ⟨member, hmember, name, info, hname, hinfo, hm⟩ := mem_lowerMethods hmethods hmem
      exact ((hmethod hmember hname hinfo hm).mp (hall m hmem)).2
  · rintro ⟨hbodies, hslots⟩ m hmem
    obtain ⟨member, hmember, name, info, hname, hinfo, hm⟩ := mem_lowerMethods hmethods hmem
    exact (hmethod hmember hname hinfo hm).mpr ⟨hbodies member hmember name hname, hslots m hmem⟩

end Machine
end ClassCompiler
