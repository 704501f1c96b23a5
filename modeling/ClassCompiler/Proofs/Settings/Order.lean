import Mathlib.Data.List.Nodup
import ClassCompiler.Proofs.Settings.RoundTrip

/-!
# Settings and the order of their entries

A map hands out its entries in an order of its own, and the next run may see another one.  Reading
takes them as they come and stops at the first value that does not fit, so two orders of one map
have to be compared.

What a map says is the same in every order.  Each of the settings is looked up under its name, and a
name that is missing leaves the default (`ofLookup`).  What a map has wrong is not one thing.  Every
entry with a value that does not fit has a complaint of its own, with its name and its value in the
text, and reading ends with the complaint that comes first.  So two orders differ exactly if they
begin to complain at different entries, and this can happen as soon as there are two of these.

* `complaint?`: what is wrong with one entry.
* `ofEntries_of_complaint`, `ofEntries_of_faultless`: what reading comes to, in closed form.
* `findSome?_perm_iff`: when the first hit in a list is the same in every order.
* `ofEntries_eq_iff_of_perm`: when two orders of one map agree.
* `ofEntries_perm_iff`: when all of them do.
-/

namespace ClassCompiler

/-- The entry that a fault is about. -/
def SettingFault.entry : SettingFault → String × String
  | notBoolean key value => (key, value)
  | notInteger key value => (key, value)

namespace Settings

/-! ## One entry -/

/-- What is wrong with an entry: its value does not fit what its name stands for. -/
def complaint? (entry : String × String) : Option SettingFault :=
  if entry.1 = "optimize" ∨ entry.1 = "debug" then
    if (readBoolean entry.2).isSome then none else some (.notBoolean entry.1 entry.2)
  else if entry.1 = "registerAllocation" then
    if (readInteger entry.2).isSome then none else some (.notInteger entry.1 entry.2)
  else none

/-- What a map says: each of the settings under its name, or its default. -/
def ofLookup (value? : String → Option String) : Settings where
  input := value? "inputFile"
  optimize := ((value? "optimize").bind readBoolean).getD false
  slotBudget := ((value? "registerAllocation").bind readInteger).bind budgetOf
  debug := ((value? "debug").bind readBoolean).getD false

/-- An entry with a value that does not fit. -/
def Unfit (entry : String × String) : Prop :=
  (complaint? entry).isSome

variable {entry other : String × String} {fault fault' : SettingFault}
  {entries others : List (String × String)}

/-- Three names have values that may not fit.  A complaint is about the entry that gives rise to
it. -/
theorem entry_of_complaint (h : complaint? entry = some fault) :
    entry.1 ∈ keys.tail ∧ fault.entry = entry := by
  unfold complaint? at h
  split at h
  · next hkey =>
    split at h
    · cases h
    · cases h
      exact ⟨by rcases hkey with hkey | hkey <;> simp [keys, hkey], rfl⟩
  · split at h
    · next hkey =>
      split at h
      · cases h
      · cases h
        exact ⟨by simp [keys, hkey], rfl⟩
    · cases h

/-- Whatever was read before, an entry that does not fit ends the reading. -/
theorem set_of_complaint (h : complaint? entry = some fault) (s : Settings) :
    s.set entry.1 entry.2 = .error (.badSetting fault) := by
  obtain ⟨key, value⟩ := entry
  have hkey := (entry_of_complaint h).1
  simp only [keys, List.tail_cons, List.mem_cons, List.not_mem_nil, or_false] at hkey
  rcases hkey with rfl | rfl | rfl
  · cases hread : readBoolean value <;> simp_all [complaint?, set]
  · cases hread : readBoolean value <;> simp_all [complaint?, set]
  · cases hread : readInteger value <;> simp_all [complaint?, set]

/-- An entry that fits says what its map says. -/
theorem describes_ofLookup {value? : String → Option String} (hfit : complaint? entry = none)
    (hvalue : value? entry.1 = some entry.2) : Describes (ofLookup value?) entry := by
  obtain ⟨key, value⟩ := entry
  by_cases hknown : key ∈ keys
  · simp only [keys, List.mem_cons, List.not_mem_nil, or_false] at hknown
    intro s
    rcases hknown with rfl | rfl | rfl | rfl
    · simp_all [set, adopt, ofLookup]
    · cases hread : readBoolean value <;> simp_all [complaint?, set, adopt, ofLookup]
    · cases hread : readBoolean value <;> simp_all [complaint?, set, adopt, ofLookup]
    · cases hread : readInteger value <;> simp_all [complaint?, set, adopt, ofLookup]
  · exact describes_of_unknown hknown value

/-! ## All entries -/

/-- Entries that fit are read one after another, up to the first complaint. -/
theorem foldlM_of_complaint (h : entries.findSome? complaint? = some fault) (s : Settings) :
    entries.foldlM (fun s entry => s.set entry.1 entry.2) s = .error (.badSetting fault) := by
  induction entries generalizing s with
  | nil => cases h
  | cons entry entries ih =>
    rw [List.foldlM_cons]
    cases hentry : complaint? entry with
    | some found =>
      rw [List.findSome?_cons_of_isSome (by simp [hentry]), hentry] at h
      cases h
      rw [set_of_complaint hentry s]
      rfl
    | none =>
      rw [List.findSome?_cons_of_isNone (by simp [hentry])] at h
      -- the entry fits any map that has its value, so there are settings to go on with
      rw [@describes_ofLookup entry (fun _ => some entry.2) hentry rfl s]
      exact ih h _

/-- **Reading ends with the first complaint.** -/
theorem ofEntries_of_complaint (h : entries.findSome? complaint? = some fault) :
    ofEntries entries = .error (.badSetting fault) :=
  foldlM_of_complaint h {}

/-- In a map, what is found under a name is what stands beside it. -/
theorem lookup_eq_some_iff_mem (hmap : (entries.map Prod.fst).Nodup) {key value : String} :
    entries.lookup key = some value ↔ (key, value) ∈ entries := by
  rw [List.lookup_eq_some_iff]
  constructor
  · rintro ⟨before, after, rfl, -⟩
    simp
  · intro hmem
    obtain ⟨before, after, rfl⟩ := List.append_of_mem hmem
    refine ⟨before, after, rfl, fun entry hentry => bne_iff_ne.mpr ?_⟩
    rintro rfl
    rw [List.map_append, List.nodup_append] at hmap
    exact hmap.2.2 _ (List.mem_map_of_mem hentry) _ (by simp) rfl

theorem lookup_eq_none_of_not_mem {key : String} (h : key ∉ entries.map Prod.fst) :
    entries.lookup key = none :=
  List.lookup_eq_none_iff.mpr fun _ hentry =>
    bne_iff_ne.mpr fun heq => h (heq ▸ List.mem_map_of_mem hentry)

/-- A setting is taken over by reading names, if it is the default where its name is missing. -/
theorem StandsFor.foldl_eq {α : Type} {read : Settings → α} {key : String} {names : List String}
    {c : Settings} (h : StandsFor key read) (hdefault : key ∉ names → read {} = read c) :
    read (names.foldl c.adopt {}) = read c := by
  rw [h.foldl, ite_eq_left_iff]
  exact hdefault

/-- **Without complaints, reading gives what the map says.** -/
theorem ofEntries_of_faultless (hmap : (entries.map Prod.fst).Nodup)
    (h : entries.findSome? complaint? = none) :
    ofEntries entries = .ok (ofLookup fun key => entries.lookup key) := by
  rw [List.findSome?_eq_none_iff] at h
  have hread : ofEntries entries = .ok ((entries.map Prod.fst).foldl
      (adopt (ofLookup fun key => entries.lookup key)) {}) :=
    foldlM_of_describes fun entry hentry =>
      describes_ofLookup (h entry hentry) ((lookup_eq_some_iff_mem hmap).mpr hentry)
  have hmissing {key : String} := @lookup_eq_none_of_not_mem entries key
  obtain ⟨hinput, hoptimize, hdebug, hbudget⟩ := standsFor_each
  refine hread.trans (congrArg Except.ok (eq_of_fields ?_ ?_ ?_ ?_))
  · exact hinput.foldl_eq fun hnot => by simp [ofLookup, hmissing hnot]
  · exact hoptimize.foldl_eq fun hnot => by simp [ofLookup, hmissing hnot]
  · exact hbudget.foldl_eq fun hnot => by simp [ofLookup, hmissing hnot]
  · exact hdebug.foldl_eq fun hnot => by simp [ofLookup, hmissing hnot]

theorem ofEntries_eq_error_iff (hmap : (entries.map Prod.fst).Nodup) {e : Error} :
    ofEntries entries = .error e ↔
      ∃ fault, entries.findSome? complaint? = some fault ∧ e = .badSetting fault := by
  cases hfirst : entries.findSome? complaint? with
  | none => simp [ofEntries_of_faultless hmap hfirst]
  | some fault => simp [ofEntries_of_complaint hfirst, eq_comm]

/-! ## Two orders -/

section Order

variable {α β : Type} {f : α → Option β} {l l' : List α}

theorem findSome?_eq_none_iff_of_perm (h : l.Perm l') :
    l.findSome? f = none ↔ l'.findSome? f = none := by
  simp only [List.findSome?_eq_none_iff, h.mem_iff]

/-- The first hit is the same in every order exactly if all hits are the same: each of them comes
first in some order. -/
theorem findSome?_perm_iff :
    (∀ l', l.Perm l' → l'.findSome? f = l.findSome? f) ↔
      ∀ a ∈ l, ∀ b ∈ l, ∀ x y, f a = some x → f b = some y → x = y := by
  constructor
  · intro hsame
    have hfirst : ∀ a ∈ l, ∀ x, f a = some x → l.findSome? f = some x := by
      intro a ha x hx
      obtain ⟨before, after, rfl⟩ := List.append_of_mem ha
      rw [← hsame _ List.perm_middle, List.findSome?_cons_of_isSome (by simp [hx]), hx]
    intro a ha b hb x y hx hy
    exact Option.some.inj ((hfirst a ha x hx).symm.trans (hfirst b hb y hy))
  · intro hall l' hperm
    cases hfirst : l.findSome? f with
    | none => exact (findSome?_eq_none_iff_of_perm hperm).mp hfirst
    | some x =>
      obtain ⟨a, ha, hx⟩ := List.exists_of_findSome?_eq_some hfirst
      cases hfirst' : l'.findSome? f with
      | none =>
        rw [(findSome?_eq_none_iff_of_perm hperm).mpr hfirst'] at hfirst
        cases hfirst
      | some y =>
        obtain ⟨b, hb, hy⟩ := List.exists_of_findSome?_eq_some hfirst'
        rw [hall a ha b (hperm.mem_iff.mpr hb) x y hx hy]

end Order

theorem nodup_keys_of_perm (hmap : (entries.map Prod.fst).Nodup) (hperm : entries.Perm others) :
    (others.map Prod.fst).Nodup :=
  (hperm.map Prod.fst).nodup_iff.mp hmap

/-- A map says the same in every order. -/
theorem lookup_eq_of_perm (hmap : (entries.map Prod.fst).Nodup) (hperm : entries.Perm others)
    (key : String) : entries.lookup key = others.lookup key := by
  have hmap' := nodup_keys_of_perm hmap hperm
  ext value
  rw [lookup_eq_some_iff_mem hmap, lookup_eq_some_iff_mem hmap', hperm.mem_iff]

/-- Without complaints it does not matter in which order entries are read. -/
theorem ofEntries_eq_of_faultless (hmap : (entries.map Prod.fst).Nodup)
    (hperm : entries.Perm others) (h : entries.findSome? complaint? = none) :
    ofEntries entries = ofEntries others := by
  have hmap' := nodup_keys_of_perm hmap hperm
  have h' : others.findSome? complaint? = none := (findSome?_eq_none_iff_of_perm hperm).mp h
  rw [ofEntries_of_faultless hmap h, ofEntries_of_faultless hmap' h',
    funext (lookup_eq_of_perm hmap hperm)]

theorem ofEntries_eq_ok_iff_of_perm (hmap : (entries.map Prod.fst).Nodup)
    (hperm : entries.Perm others) (c : Settings) :
    ofEntries entries = .ok c ↔ ofEntries others = .ok c := by
  cases hfirst : entries.findSome? complaint? with
  | none => rw [ofEntries_eq_of_faultless hmap hperm hfirst]
  | some fault =>
    obtain ⟨fault', hfirst'⟩ : ∃ fault', others.findSome? complaint? = some fault' := by
      rw [← Option.ne_none_iff_exists', Ne, ← findSome?_eq_none_iff_of_perm hperm, hfirst]
      exact Option.some_ne_none fault
    simp [ofEntries_of_complaint hfirst, ofEntries_of_complaint hfirst']

/-- **Two orders agree exactly if the same complaint comes first**, or none. -/
theorem ofEntries_eq_iff_of_perm (hmap : (entries.map Prod.fst).Nodup)
    (hperm : entries.Perm others) :
    ofEntries entries = ofEntries others ↔
      entries.findSome? complaint? = others.findSome? complaint? := by
  cases hfirst : entries.findSome? complaint? with
  | none =>
    rw [(findSome?_eq_none_iff_of_perm hperm).mp hfirst]
    exact iff_of_true (ofEntries_eq_of_faultless hmap hperm hfirst) rfl
  | some fault =>
    have hmap' := nodup_keys_of_perm hmap hperm
    rw [ofEntries_of_complaint hfirst, eq_comm, ofEntries_eq_error_iff hmap', eq_comm]
    simp

/-! ## Texts of complaints -/

/-- A complaint is worded with the name first. -/
theorem message_badSetting (fault : SettingFault) : ∃ rest,
    (Error.badSetting fault).message = "Configuration error: '" ++ (fault.entry.1 ++ rest) := by
  have hopen : "Configuration error: '" = "Configuration error: " ++ "'" := rfl
  cases fault with
  | notBoolean key value =>
    refine ⟨"' expects a boolean, found '" ++ (value ++ "'"), ?_⟩
    change "Configuration error: " ++
      ("'" ++ key ++ "' expects a boolean, found '" ++ value ++ "'") = _
    simp only [hopen, SettingFault.entry, String.append_assoc]
  | notInteger key value =>
    refine ⟨"' expects an integer, found '" ++ (value ++ "'"), ?_⟩
    change "Configuration error: " ++
      ("'" ++ key ++ "' expects an integer, found '" ++ value ++ "'") = _
    simp only [hopen, SettingFault.entry, String.append_assoc]

/-- The text of a complaint tells which name it is about: no two of the names begin alike. -/
theorem key_eq_of_message (h : complaint? entry = some fault) (h' : complaint? other = some fault')
    (hmessage : (Error.badSetting fault).message = (Error.badSetting fault').message) :
    entry.1 = other.1 := by
  obtain ⟨hkey, rfl⟩ := entry_of_complaint h
  obtain ⟨hkey', rfl⟩ := entry_of_complaint h'
  obtain ⟨rest, hrest⟩ := message_badSetting fault
  obtain ⟨rest', hrest'⟩ := message_badSetting fault'
  rw [hrest, hrest', String.append_right_inj] at hmessage
  have hinitial : (fault.entry.1.toList ++ rest.toList).head? =
      (fault'.entry.1.toList ++ rest'.toList).head? := by
    rw [← String.toList_append, hmessage, String.toList_append]
  generalize fault.entry.1 = key at hkey hinitial ⊢
  generalize fault'.entry.1 = key' at hkey' hinitial ⊢
  simp only [keys, List.tail_cons, List.mem_cons, List.not_mem_nil, or_false] at hkey hkey'
  rcases hkey with rfl | rfl | rfl <;> rcases hkey' with rfl | rfl | rfl <;>
    first
      | rfl
      | exact absurd hinitial (by simp)

/-- Two orders that complain with the same text have the same complaint. -/
theorem message_eq_iff_of_perm (hmap : (entries.map Prod.fst).Nodup)
    (hperm : entries.Perm others) {e e' : Error} (h : ofEntries entries = .error e)
    (h' : ofEntries others = .error e') : e.message = e'.message ↔ e = e' := by
  have hmap' := nodup_keys_of_perm hmap hperm
  obtain ⟨fault, hfirst, rfl⟩ := (ofEntries_eq_error_iff hmap).mp h
  obtain ⟨fault', hfirst', rfl⟩ := (ofEntries_eq_error_iff hmap').mp h'
  obtain ⟨entry, hentry, hfault⟩ := List.exists_of_findSome?_eq_some hfirst
  obtain ⟨other, hother, hfault'⟩ := List.exists_of_findSome?_eq_some hfirst'
  refine ⟨fun hmessage => ?_, congrArg Error.message⟩
  have hsame : entry = other := List.inj_on_of_nodup_map hmap hentry (hperm.mem_iff.mpr hother)
    (key_eq_of_message hfault hfault' hmessage)
  rw [hsame, hfault'] at hfault
  rw [Option.some.inj hfault]

/-! ## All orders -/

/-- **All orders agree exactly if at most one entry does not fit.** -/
theorem ofEntries_perm_iff (hmap : (entries.map Prod.fst).Nodup) :
    (∀ order, entries.Perm order → ofEntries order = ofEntries entries) ↔
      ∀ a ∈ entries, ∀ b ∈ entries, Unfit a → Unfit b → a = b := by
  have hfirst : (∀ order, entries.Perm order → ofEntries order = ofEntries entries) ↔
      ∀ order, entries.Perm order →
        order.findSome? complaint? = entries.findSome? complaint? := by
    refine forall₂_congr fun order hperm => ?_
    rw [eq_comm, ofEntries_eq_iff_of_perm hmap hperm, eq_comm]
  rw [hfirst, findSome?_perm_iff]
  refine forall₂_congr fun a _ => forall₂_congr fun b _ => ?_
  simp only [Unfit, Option.isSome_iff_exists]
  constructor
  · rintro hsame ⟨x, hx⟩ ⟨y, hy⟩
    rw [← (entry_of_complaint hx).2, hsame x y hx hy, (entry_of_complaint hy).2]
  · rintro hsame x y hx hy
    rw [hsame ⟨x, hx⟩ ⟨y, hy⟩, hy] at hx
    exact (Option.some.inj hx).symm

/-- **What two orders of one map have in common.**  Both give the same settings or neither gives
any.  Otherwise each ends with the complaint that comes first in it, so they give the same result
exactly if this is the same one, and two different complaints have different texts.  All orders give
the same result exactly if no two entries have values that do not fit. -/
theorem ofEntries_orders_agree_iff (hmap : (entries.map Prod.fst).Nodup)
    (hperm : entries.Perm others) :
    (∀ c, ofEntries entries = .ok c ↔ ofEntries others = .ok c) ∧
    (∀ order, entries.Perm order → ∀ e, ofEntries order = .error e ↔
      ∃ fault, order.findSome? complaint? = some fault ∧ e = .badSetting fault) ∧
    (ofEntries entries = ofEntries others ↔
      entries.findSome? complaint? = others.findSome? complaint?) ∧
    (∀ e e', ofEntries entries = .error e → ofEntries others = .error e' →
      (e.message = e'.message ↔ e = e')) ∧
    ((∀ order, entries.Perm order → ofEntries order = ofEntries entries) ↔
      ∀ a ∈ entries, ∀ b ∈ entries, Unfit a → Unfit b → a = b) :=
  ⟨ofEntries_eq_ok_iff_of_perm hmap hperm,
    fun _ horder _ => ofEntries_eq_error_iff (nodup_keys_of_perm hmap horder),
    ofEntries_eq_iff_of_perm hmap hperm, fun _ _ => message_eq_iff_of_perm hmap hperm,
    ofEntries_perm_iff hmap⟩

/-- A bad number and a bad truth value among entries that fit or mean nothing. -/
def crossed : List (String × String) :=
  [("theme", "dark"), ("registerAllocation", "twelve"), ("debug", " TRUE"), ("inputFile", ""),
    ("optimize", "yes")]

theorem crossed_orders_disagree :
    (crossed.map Prod.fst).Nodup ∧ crossed.Perm crossed.reverse ∧
      crossed.findSome? complaint? = some (.notInteger "registerAllocation" "twelve") ∧
      crossed.reverse.findSome? complaint? = some (.notBoolean "optimize" "yes") ∧
      ofEntries crossed ≠ ofEntries crossed.reverse ∧
      ¬ ∀ order, crossed.Perm order → ofEntries order = ofEntries crossed := by
  have hmap : (crossed.map Prod.fst).Nodup := by decide
  have hperm : crossed.Perm crossed.reverse := (List.reverse_perm crossed).symm
  have hfirst : crossed.findSome? complaint? =
      some (.notInteger "registerAllocation" "twelve") := by decide
  have hlast : crossed.reverse.findSome? complaint? =
      some (.notBoolean "optimize" "yes") := by decide
  obtain ⟨-, -, hiff, -, -⟩ := ofEntries_orders_agree_iff hmap hperm
  have hne : ofEntries crossed ≠ ofEntries crossed.reverse := by
    rw [Ne, hiff, hfirst, hlast]
    decide
  exact ⟨hmap, hperm, hfirst, hlast, hne, fun hall => hne (hall _ hperm).symm⟩

/-- A truth value and a number that cannot be read. -/
def mistyped : List (String × String) :=
  [("optimize", "yes"), ("registerAllocation", "twelve"), ("theme", "dark")]

/-- With two bad values, the text that comes out is a matter of the order. -/
theorem mistyped_text_depends_on_order :
    (mistyped.map Prod.fst).Nodup ∧ mistyped.Perm mistyped.reverse ∧
      (ofEntries mistyped).mapError Error.message =
        .error "Configuration error: 'optimize' expects a boolean, found 'yes'" ∧
      (ofEntries mistyped.reverse).mapError Error.message =
        .error "Configuration error: 'registerAllocation' expects an integer, found 'twelve'" ∧
      ofEntries mistyped ≠ ofEntries mistyped.reverse := by
  have hread : ofEntries mistyped = .error (.badSetting (.notBoolean "optimize" "yes")) := by decide
  have hread' : ofEntries mistyped.reverse =
      .error (.badSetting (.notInteger "registerAllocation" "twelve")) := by decide
  refine ⟨by decide, (List.reverse_perm mistyped).symm, ?_, ?_, ?_⟩
  · rw [hread]
    rfl
  · rw [hread']
    rfl
  · rw [hread, hread']
    decide

end Settings
end ClassCompiler
