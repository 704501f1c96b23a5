import Mathlib.Data.List.Perm.Basic
import ClassCompiler.Proofs.Json.Token
import ClassCompiler.Settings

/-!
# Settings and the entries that describe them

Settings are handed on as a map from names to texts, and the entries of a map come in no particular
order, with names among them that mean nothing here.  Reading an entry changes only what its name
stands for.  So it does not matter when an entry is read, as long as each of them says the same as
the settings that were written: whoever reads them all has these settings in the end.

The one number among the values is written in decimal digits and read as an integer of 64 bits,
whatever white space is around it, and then narrowed to 32 bits.  A number that is missing is
written as one that does not fit.

* `readInteger_toString`: every integer of 64 bits is read back.
* `Describes`: an entry that says the same as given settings.
* `foldlM_of_describes`: what reading such entries comes to, in any order.
* `ofEntries_of_perm`: settings are read back.
-/

namespace ClassCompiler

/-! ## Numbers -/

namespace Text

theorem isBlank_of_isDigit {c : Char} (h : c.isDigit = true) : isBlank c = false := by
  have hrange : 48 ≤ c.toNat ∧ c.toNat ≤ 57 := Char.isDigit_iff_toNat.mp h
  simp only [isBlank, Bool.or_eq_false_iff, Bool.and_eq_false_iff, decide_eq_false_iff_not,
    beq_eq_false_iff_ne]
  omega

/-- A text without white space stays as it is. -/
theorem trim_of_not_blank {cs : List Char} (h : ∀ c ∈ cs, isBlank c = false) : trim cs = cs := by
  have hkeep : ∀ {ds : List Char}, (∀ c ∈ ds, isBlank c = false) → ds.dropWhile isBlank = ds := by
    intro ds hds
    cases ds with
    | nil => rfl
    | cons c ds => exact List.dropWhile_cons_of_neg (by simp [hds c List.mem_cons_self])
  rw [trim, hkeep h, hkeep fun c hc => h c (List.mem_reverse.mp hc), List.reverse_reverse]

end Text

namespace Settings

open Json (isDigit_of_mem_toDigits)

theorem readNatural_toDigits (n : Nat) : readNatural (Nat.toDigits 10 n) = some n := by
  have hdigits : (Nat.toDigits 10 n).all Char.isDigit = true :=
    List.all_eq_true.mpr fun _ => isDigit_of_mem_toDigits
  have hsome : (Nat.toDigits 10 n).isEmpty = false :=
    List.isEmpty_eq_false_iff.mpr Nat.toDigits_ne_nil
  rw [readNatural, if_neg (by simp [hdigits, hsome]), Nat.ofDigitChars_ten_toDigits]

/-- A number without a sign does not begin like one with a sign. -/
theorem readSigned_toDigits (n : Nat) : readSigned (Nat.toDigits 10 n) = some (n : Int) := by
  unfold readSigned
  split
  · next heq => exact absurd (isDigit_of_mem_toDigits (heq ▸ List.mem_cons_self)) (by decide)
  · next heq => exact absurd (isDigit_of_mem_toDigits (heq ▸ List.mem_cons_self)) (by decide)
  · rw [readNatural_toDigits]
    rfl

/-- The decimal digits of an integer, with a sign if it is negative. -/
theorem toList_toString (n : Int) :
    (toString n).toList =
      if n < 0 then '-' :: Nat.toDigits 10 n.natAbs else Nat.toDigits 10 n.natAbs := by
  have hdigits (m : Nat) : (toString m).toList = Nat.toDigits 10 m := by
    rw [Nat.toString_eq_ofList_toDigits, String.toList_ofList]
  cases n with
  | ofNat m =>
    have hnonneg : ¬ Int.ofNat m < 0 := Int.not_lt.mpr (Int.natCast_nonneg m)
    rw [if_neg hnonneg]
    exact hdigits m
  | negSucc m =>
    have htext : toString (Int.negSucc m) = "-" ++ toString (m + 1) := rfl
    rw [if_pos (Int.negSucc_lt_zero m), htext, String.toList_append, hdigits]
    rfl

/-- **Every integer of 64 bits is read back** from its decimal digits. -/
theorem readInteger_toString {n : Int} (hmin : -9223372036854775808 ≤ n)
    (hmax : n ≤ 9223372036854775807) : readInteger (toString n) = some n := by
  have hblank : ∀ c ∈ (toString n).toList, Text.isBlank c = false := by
    intro c hc
    rw [toList_toString] at hc
    split at hc
    · rcases List.mem_cons.mp hc with rfl | hc
      · decide
      · exact Text.isBlank_of_isDigit (isDigit_of_mem_toDigits hc)
    · exact Text.isBlank_of_isDigit (isDigit_of_mem_toDigits hc)
  have hsigned : readSigned (toString n).toList = some n := by
    rw [toList_toString]
    split
    · next hneg =>
      rw [readSigned, readNatural_toDigits]
      show some (-(n.natAbs : Int)) = some n
      rw [Int.ofNat_natAbs_of_nonpos (by omega), Int.neg_neg]
    · next hpos =>
      rw [readSigned_toDigits, Int.natAbs_of_nonneg (by omega)]
  rw [readInteger, Text.trim_of_not_blank hblank, hsigned]
  exact if_pos ⟨hmin, hmax⟩

theorem budgetOf_toNat (n : UInt32) : budgetOf n.toNat = some n := by
  have := n.toNat_lt
  rw [budgetOf, if_pos (by omega), Int.toNat_natCast, UInt32.ofNat_toNat]

theorem readBoolean_booleanText (b : Bool) : readBoolean (booleanText b) = some b := by
  cases b <;> decide

/-! ## Entries -/

/-- The names that mean something. -/
def keys : List String :=
  ["inputFile", "optimize", "debug", "registerAllocation"]

/-- The settings with what a name stands for taken over from others. -/
def adopt (c s : Settings) (key : String) : Settings :=
  if key = "inputFile" then { s with input := c.input }
  else if key = "optimize" then { s with optimize := c.optimize }
  else if key = "debug" then { s with debug := c.debug }
  else if key = "registerAllocation" then { s with slotBudget := c.slotBudget }
  else s

/-- An entry says the same as given settings: reading it takes over from them what its name stands
for, and changes nothing else. -/
def Describes (c : Settings) (entry : String × String) : Prop :=
  ∀ s : Settings, s.set entry.1 entry.2 = .ok (c.adopt s entry.1)

variable {c s : Settings} {key : String} {entries extra : List (String × String)}

/-- A name that means nothing is passed over. -/
theorem describes_of_unknown (h : key ∉ keys) (value : String) : Describes c (key, value) := by
  simp only [keys, List.mem_cons, List.not_mem_nil, or_false, not_or] at h
  obtain ⟨hinput, hoptimize, hdebug, hbudget⟩ := h
  intro s
  simp only [set, adopt, hinput, hoptimize, hdebug, hbudget, if_false]

/-- The entries of settings describe them. -/
theorem describes_of_mem_toEntries {entry : String × String} (h : entry ∈ c.toEntries) :
    Describes c entry := by
  obtain ⟨input, optimize, budget, debug⟩ := c
  intro s
  simp only [toEntries, List.mem_append, List.mem_cons, List.not_mem_nil, or_false] at h
  rcases h with h | rfl | rfl | rfl
  · cases input with
    | none => exact absurd h List.not_mem_nil
    | some input =>
      cases List.mem_singleton.mp h
      rfl
  · simp only [set, adopt, readBoolean_booleanText]
    rfl
  · simp only [set, adopt, readBoolean_booleanText]
    rfl
  · cases budget with
    | none => rfl
    | some n =>
      have := n.toNat_lt
      simp only [set, adopt, readInteger_toString (n := n.toNat) (by omega) (by omega),
        budgetOf_toNat]
      rfl

/-- **Reading entries that describe settings** succeeds, and adopts what their names stand for. -/
theorem foldlM_of_describes (h : ∀ entry ∈ entries, Describes c entry) :
    entries.foldlM (fun s entry => s.set entry.1 entry.2) s =
      .ok ((entries.map Prod.fst).foldl c.adopt s) := by
  induction entries generalizing s with
  | nil => rfl
  | cons entry entries ih =>
    have hrest := @ih (c.adopt s entry.1) fun e he => h e (List.mem_cons_of_mem entry he)
    rw [List.foldlM_cons, h entry List.mem_cons_self s]
    exact hrest

/-- A name stands for one of the settings. -/
def StandsFor {α : Type} (key : String) (read : Settings → α) : Prop :=
  ∀ c s name, read (adopt c s name) = if name = key then read c else read s

theorem standsFor_each :
    StandsFor "inputFile" input ∧ StandsFor "optimize" optimize ∧ StandsFor "debug" debug ∧
      StandsFor "registerAllocation" slotBudget := by
  refine ⟨?_, ?_, ?_, ?_⟩ <;>
  · intro c s name
    unfold adopt
    split_ifs <;> simp_all

/-- A setting is taken over once its name was read, and stays as it was until then. -/
theorem StandsFor.foldl {α : Type} {read : Settings → α} (h : StandsFor key read)
    (names : List String) (s : Settings) :
    read (names.foldl c.adopt s) = if key ∈ names then read c else read s := by
  induction names generalizing s with
  | nil => rfl
  | cons name names ih =>
    rw [List.foldl_cons, ih, h]
    by_cases hname : name = key
    · subst hname
      rw [if_pos rfl, if_pos List.mem_cons_self, ite_self]
    · rw [if_neg hname]
      simp only [List.mem_cons, Ne.symm hname, false_or]

theorem eq_of_fields (hinput : s.input = c.input) (hoptimize : s.optimize = c.optimize)
    (hbudget : s.slotBudget = c.slotBudget) (hdebug : s.debug = c.debug) : s = c := by
  cases s
  cases c
  simp_all

/-- All names are written but that of an input that is missing. -/
theorem map_fst_toEntries (c : Settings) :
    c.toEntries.map Prod.fst = if c.input.isSome then keys else keys.tail := by
  rcases c with ⟨_ | input, _, _, _⟩ <;> rfl

/-- **Settings are read back** from their entries, in whatever order these come and whatever entries
with names of no meaning are among them.  No name stands twice in the entries of settings, so they
are those of a map. -/
theorem ofEntries_of_perm (c : Settings) (hextra : ∀ entry ∈ extra, entry.1 ∉ keys)
    (hperm : entries.Perm (c.toEntries ++ extra)) :
    (c.toEntries.map Prod.fst).Nodup ∧ ofEntries entries = .ok c := by
  have hall : ∀ entry ∈ entries, Describes c entry := by
    intro entry hentry
    rcases List.mem_append.mp (hperm.mem_iff.mp hentry) with hown | hother
    · exact describes_of_mem_toEntries hown
    · exact describes_of_unknown (hextra entry hother) entry.2
  have hnames : ∀ key ∈ c.toEntries.map Prod.fst, key ∈ entries.map Prod.fst := by
    intro key hkey
    rw [(hperm.map Prod.fst).mem_iff, List.map_append]
    exact List.mem_append_left _ hkey
  have hread : ofEntries entries = .ok ((entries.map Prod.fst).foldl c.adopt {}) :=
    foldlM_of_describes hall
  rw [map_fst_toEntries] at hnames ⊢
  have halways : ∀ key ∈ keys.tail, key ∈ entries.map Prod.fst := by
    intro key hkey
    refine hnames key ?_
    split
    · exact List.mem_of_mem_tail hkey
    · exact hkey
  obtain ⟨hinput, hoptimize, hdebug, hbudget⟩ := standsFor_each
  refine ⟨by split <;> decide, hread.trans (congrArg Except.ok (eq_of_fields ?_ ?_ ?_ ?_))⟩
  · -- an input that is missing has no entry, and none is what reading starts from
    rw [hinput.foldl]
    cases hc : c.input with
    | none => exact ite_self none
    | some input =>
      rw [hc, if_pos Option.isSome_some] at hnames
      exact if_pos (hnames _ (by decide))
  · rw [hoptimize.foldl, if_pos (halways _ (by decide))]
  · rw [hbudget.foldl, if_pos (halways _ (by decide))]
  · rw [hdebug.foldl, if_pos (halways _ (by decide))]

/-- Settings with the largest budget. -/
def widest : Settings :=
  { input := some "Counter.jmm", optimize := true, slotBudget := some 4294967295 }

/-- The entries of those settings in another order, with one among them that means nothing. -/
def shuffled : List (String × String) :=
  [("registerAllocation", "4294967295"), ("debugger", "maybe"), ("inputFile", "Counter.jmm"),
    ("debug", "false"), ("optimize", "true")]

theorem shuffled_read_back :
    "debugger" ∉ keys ∧ shuffled.Perm (widest.toEntries ++ [("debugger", "maybe")]) ∧
      ofEntries shuffled = .ok widest := by
  have hextra : ∀ entry ∈ [("debugger", "maybe")], entry.1 ∉ keys := by decide
  have hperm : shuffled.Perm (widest.toEntries ++ [("debugger", "maybe")]) := by decide
  exact ⟨by decide, hperm, (ofEntries_of_perm widest hextra hperm).2⟩

end Settings
end ClassCompiler
