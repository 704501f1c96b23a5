import Mathlib.Tactic.IntervalCases
import ClassCompiler.Json.Reader
import ClassCompiler.Machine.Instruction

/-!
# String constants are read as they were meant

The assembler reads a string constant from left to right: printable ASCII stands for itself, and a
backslash opens an escape that stands for one UTF-16 unit.  The first quote without a backslash ends
the constant.  `readConstant` is such a reader, and it refuses a text that goes on after that quote.
What it reads of a constant that was written are the UTF-16 units of the string.

Units are no characters yet: a character outside the basic plane is two of them.  No character has
the number of a surrogate, so the units of a string can be put together again in one way only, and
two strings are never written alike.

* `readConstant`: the reader of the assembler.
* `ofUnits16`: the characters that UTF-16 units write.
* `ofUnits16_units16`: the units of a string write that string.
* `readUnits_constantChar`: a character is read back whatever follows it.
* `constantText_reads`: all of it.
-/

namespace ClassCompiler

/-! ## UTF-16 units -/

namespace Text

def isHighSurrogate (unit : Nat) : Bool :=
  0xd800 ≤ unit && unit < 0xdc00

def isLowSurrogate (unit : Nat) : Bool :=
  0xdc00 ≤ unit && unit < 0xe000

/-- The characters that UTF-16 units write.  A surrogate without its other half writes none. -/
def ofUnits16 : List Nat → Option (List Char)
  | [] => some []
  | unit :: units =>
    if isHighSurrogate unit then
      match units with
      | [] => none
      | low :: units =>
        if isLowSurrogate low then
          (ofUnits16 units).map
            (Char.ofNat (0x10000 + (unit - 0xd800) * 0x400 + (low - 0xdc00)) :: ·)
        else none
    else if isLowSurrogate unit then none
    else (ofUnits16 units).map (Char.ofNat unit :: ·)

/-- The numbers of characters leave out the surrogates. -/
theorem toNat_range (c : Char) : c.toNat < 0xd800 ∨ (0xe000 ≤ c.toNat ∧ c.toNat < 0x110000) := by
  rcases c.valid with h | h
  · exact .inl h
  · exact .inr ⟨h.1, h.2⟩

/-- A unit has sixteen bits. -/
theorem lt_of_mem_units16 {c : Char} {unit : Nat} (h : unit ∈ units16 c) : unit < 0x10000 := by
  have hrange := toNat_range c
  unfold units16 at h
  dsimp only at h
  split at h
  · rename_i hplane
    rw [List.mem_singleton.mp h]
    exact hplane
  · rcases List.mem_cons.mp h with h | h
    · omega
    · rw [List.mem_singleton] at h
      omega

/-- The units of a character write it, whatever follows. -/
theorem ofUnits16_append (c : Char) (units : List Nat) :
    ofUnits16 (units16 c ++ units) = (ofUnits16 units).map (c :: ·) := by
  have hrange := toNat_range c
  unfold units16
  dsimp only
  split
  · rename_i hplane
    have hhigh : ¬ isHighSurrogate c.toNat = true := by
      simp only [isHighSurrogate, Bool.and_eq_true, decide_eq_true_eq]
      omega
    have hlow : ¬ isLowSurrogate c.toNat = true := by
      simp only [isLowSurrogate, Bool.and_eq_true, decide_eq_true_eq]
      omega
    rw [List.singleton_append, ofUnits16.eq_def]
    dsimp only
    rw [if_neg hhigh, if_neg hlow, Char.ofNat_toNat]
  · have hhigh : isHighSurrogate (0xd800 + (c.toNat - 0x10000) / 0x400) = true := by
      simp only [isHighSurrogate, Bool.and_eq_true, decide_eq_true_eq]
      omega
    have hlow : isLowSurrogate (0xdc00 + (c.toNat - 0x10000) % 0x400) = true := by
      simp only [isLowSurrogate, Bool.and_eq_true, decide_eq_true_eq]
      omega
    have hsum : 0x10000 + (0xd800 + (c.toNat - 0x10000) / 0x400 - 0xd800) * 0x400 +
        (0xdc00 + (c.toNat - 0x10000) % 0x400 - 0xdc00) = c.toNat := by omega
    rw [List.cons_append, List.singleton_append, ofUnits16.eq_def]
    dsimp only
    rw [if_pos hhigh, if_pos hlow, hsum, Char.ofNat_toNat]

/-- **The units of a string write that string.** -/
theorem ofUnits16_units16 (cs : List Char) : ofUnits16 (cs.flatMap units16) = some cs := by
  induction cs with
  | nil => rfl
  | cons c cs ih => rw [List.flatMap_cons, ofUnits16_append, ih, Option.map_some]

end Text

/-! ## Reading -/

namespace Machine

open Json (hexValue)
open Text (units16 ofUnits16 ofUnits16_units16)

/-- A character between the blank and the tilde. -/
def isAsciiPrintable (c : Char) : Bool :=
  ' ' ≤ c && c ≤ '~'

/-- The unit that four hexadecimal digits write. -/
def readHex (a b c d : Char) : Option Nat :=
  (Json.readUnit [a, b, c, d]).map Prod.fst

/-- The unit that a letter stands for after a backslash. -/
def readLetter (letter : Char) : Option Nat :=
  match letter with
  | '"' => some '"'.toNat
  | '\\' => some '\\'.toNat
  | 'n' => some '\n'.toNat
  | 'r' => some '\r'.toNat
  | 't' => some '\t'.toNat
  | _ => none

/-- The UTF-16 units up to the closing quote, which ends the text. -/
def readUnits : List Char → Option (List Nat)
  | [] => none
  | c :: rest =>
    if c = '"' then
      match rest with
      | [] => some []
      | _ :: _ => none
    else if c = '\\' then
      match rest with
      | [] => none
      | letter :: rest =>
        if letter = 'u' then
          match rest with
          | a :: b :: c :: d :: rest => do return (← readHex a b c d) :: (← readUnits rest)
          | _ => none
        else do return (← readLetter letter) :: (← readUnits rest)
    else if isAsciiPrintable c then do return c.toNat :: (← readUnits rest)
    else none

/-- The UTF-16 units of a string constant between its quotes. -/
def readConstant : List Char → Option (List Nat)
  | [] => none
  | c :: rest => if c = '"' then readUnits rest else none

/-! ## Four hexadecimal digits -/

theorem hexValue_digitChar {n : Nat} (h : n < 16) : hexValue n.digitChar = some n := by
  interval_cases n <;> rfl

theorem isAsciiPrintable_digitChar {n : Nat} (h : n < 16) :
    isAsciiPrintable n.digitChar = true := by
  interval_cases n <;> rfl

/-- A unit is written with its four digits, zeros in front included. -/
theorem escapeUnit_eq {unit : Nat} (h : unit < 0x10000) :
    escapeUnit unit = ['\\', 'u', (unit / 4096).digitChar, (unit / 256 % 16).digitChar,
      (unit / 16 % 16).digitChar, (unit % 16).digitChar] := by
  have hdigits (n : Nat) : Nat.toDigits 16 n =
      if n < 16 then [n.digitChar] else Nat.toDigits 16 (n / 16) ++ [(n % 16).digitChar] :=
    Nat.toDigits_eq_if (by decide)
  have hzero {n : Nat} (hn : n = 0) : n.digitChar = '0' := by
    rw [hn]
    rfl
  unfold escapeUnit
  dsimp only
  rw [hdigits unit, hdigits (unit / 16), hdigits (unit / 16 / 16), hdigits (unit / 16 / 16 / 16)]
  simp only [Nat.div_div_eq_div_mul]
  -- the number of digits decides how many zeros are in front
  rcases Nat.lt_or_ge unit 16 with h1 | h1
  · rw [if_pos h1, hzero (n := unit / 4096) (by omega), hzero (n := unit / 256 % 16) (by omega),
      hzero (n := unit / 16 % 16) (by omega), Nat.mod_eq_of_lt h1]
    rfl
  · rcases Nat.lt_or_ge unit 256 with h2 | h2
    · rw [if_neg (by omega), if_pos (by omega), hzero (n := unit / 4096) (by omega),
        hzero (n := unit / 256 % 16) (by omega), Nat.mod_eq_of_lt (a := unit / 16) (by omega)]
      rfl
    · rcases Nat.lt_or_ge unit 4096 with h3 | h3
      · rw [if_neg (by omega), if_neg (by omega), if_pos (by omega),
          hzero (n := unit / 4096) (by omega), Nat.mod_eq_of_lt (a := unit / (16 * 16)) (by omega)]
        rfl
      · rw [if_neg (by omega), if_neg (by omega), if_neg (by omega), if_pos (by omega)]
        rfl

theorem readHex_digitChar {unit : Nat} (h : unit < 0x10000) :
    readHex (unit / 4096).digitChar (unit / 256 % 16).digitChar (unit / 16 % 16).digitChar
      (unit % 16).digitChar = some unit := by
  have hsum : ((unit / 4096 * 16 + unit / 256 % 16) * 16 + unit / 16 % 16) * 16 + unit % 16 =
      unit := by omega
  rw [readHex, Json.readUnit, hexValue_digitChar (by omega), hexValue_digitChar (by omega),
    hexValue_digitChar (by omega), hexValue_digitChar (by omega)]
  exact congrArg some hsum

/-! ## One character -/

theorem readUnits_escapeUnit {unit : Nat} (h : unit < 0x10000) (rest : List Char) :
    readUnits (escapeUnit unit ++ rest) = (readUnits rest).map (unit :: ·) := by
  rw [escapeUnit_eq h]
  simp only [List.cons_append, List.nil_append]
  rw [readUnits.eq_def]
  dsimp only
  rw [if_neg (by decide), if_pos rfl, if_pos rfl, readHex_digitChar h]
  cases readUnits rest <;> rfl

/-- A letter after a backslash. -/
theorem readUnits_letter {letter : Char} {unit : Nat} (hletter : readLetter letter = some unit)
    (rest : List Char) : readUnits ('\\' :: letter :: rest) = (readUnits rest).map (unit :: ·) := by
  have hne : letter ≠ 'u' := by
    rintro rfl
    have hnone : readLetter 'u' = none := rfl
    rw [hnone] at hletter
    cases hletter
  rw [readUnits.eq_def]
  dsimp only
  rw [if_neg (by decide), if_pos rfl, if_neg hne, hletter]
  cases readUnits rest <;> rfl

theorem readUnits_escapeUnits {units : List Nat} (h : ∀ unit ∈ units, unit < 0x10000)
    (rest : List Char) :
    readUnits (units.flatMap escapeUnit ++ rest) = (readUnits rest).map (units ++ ·) := by
  induction units with
  | nil =>
    rw [List.flatMap_nil]
    exact Option.map_id'.symm
  | cons unit units ih =>
    rw [List.flatMap_cons, List.append_assoc, readUnits_escapeUnit (h unit List.mem_cons_self),
      ih fun u hu => h u (List.mem_cons_of_mem unit hu), Option.map_map]
    rfl

theorem readUnits_plain {c : Char} (hquote : c ≠ '"') (hbackslash : c ≠ '\\')
    (hplain : isAsciiPrintable c = true) (rest : List Char) :
    readUnits (c :: rest) = (readUnits rest).map (c.toNat :: ·) := by
  rw [readUnits.eq_def]
  dsimp only
  rw [if_neg hquote, if_neg hbackslash, if_pos hplain]
  cases readUnits rest <;> rfl

/-- A printable character is one unit. -/
theorem units16_plain {c : Char} (h : isAsciiPrintable c = true) : units16 c = [c.toNat] := by
  have hle : c.toNat ≤ '~'.toNat := by
    simp only [isAsciiPrintable, Bool.and_eq_true, decide_eq_true_eq] at h
    exact h.2
  have hlt : c.toNat < 0x10000 := Nat.lt_of_le_of_lt hle (by decide)
  exact if_pos hlt

/-- **A character is read back**, whatever follows it. -/
theorem readUnits_constantChar (c : Char) (rest : List Char) :
    readUnits (constantChar c ++ rest) = (readUnits rest).map (units16 c ++ ·) := by
  unfold constantChar
  split
  case h_6 hquote hbackslash _ _ _ =>
    split
    · rename_i hplain
      have hplain : isAsciiPrintable c = true := by simpa [isAsciiPrintable] using hplain
      rw [List.singleton_append, readUnits_plain hquote hbackslash hplain, units16_plain hplain]
      rfl
    · exact readUnits_escapeUnits (fun _ => Text.lt_of_mem_units16) rest
  all_goals exact readUnits_letter rfl rest

theorem isAsciiPrintable_of_mem_constantChar {c d : Char} (h : d ∈ constantChar c) :
    isAsciiPrintable d = true := by
  unfold constantChar at h
  split at h
  case h_6 =>
    split at h
    · rename_i hplain
      cases List.mem_singleton.mp h
      simpa [isAsciiPrintable] using hplain
    · obtain ⟨unit, hunit, hd⟩ := List.mem_flatMap.mp h
      have hlt := Text.lt_of_mem_units16 hunit
      rw [escapeUnit_eq hlt] at hd
      simp only [List.mem_cons, List.not_mem_nil, or_false] at hd
      rcases hd with rfl | rfl | rfl | rfl | rfl | rfl
      · rfl
      · rfl
      all_goals exact isAsciiPrintable_digitChar (by omega)
  all_goals
    simp only [List.mem_cons, List.not_mem_nil, or_false] at h
    rcases h with rfl | rfl <;> rfl

/-! ## The whole constant -/

theorem readUnits_flatMap (cs : List Char) :
    readUnits (cs.flatMap constantChar ++ ['"']) = some (cs.flatMap units16) := by
  induction cs with
  | nil => rfl
  | cons c cs ih =>
    rw [List.flatMap_cons, List.append_assoc, readUnits_constantChar, ih, Option.map_some,
      List.flatMap_cons]

theorem readConstant_constantText (s : String) :
    readConstant (constantText s).toList = some (s.toList.flatMap units16) := by
  rw [constantText, String.toList_ofList, List.cons_append, readConstant, if_pos rfl,
    readUnits_flatMap]

theorem isAsciiPrintable_of_mem_constantText {s : String} {c : Char}
    (h : c ∈ (constantText s).toList) : isAsciiPrintable c = true := by
  rw [constantText, String.toList_ofList, List.cons_append, List.mem_cons, List.mem_append,
    List.mem_flatMap, List.mem_singleton] at h
  rcases h with rfl | ⟨d, -, hc⟩ | rfl
  · rfl
  · exact isAsciiPrintable_of_mem_constantChar hc
  · rfl

/-- The units that are read write the string that was meant, so no other is written like it. -/
theorem constantText_injective : Function.Injective constantText := by
  intro s s' h
  have hread := readConstant_constantText s
  rw [h, readConstant_constantText s'] at hread
  have hchars := congrArg ofUnits16 (Option.some.inj hread)
  rw [ofUnits16_units16, ofUnits16_units16] at hchars
  exact String.toList_injective (Option.some.inj hchars).symm

/-- **String constants survive their escapes.**  The operand of the instruction that pushes a string
is printable ASCII.  Reading it from left to right up to the first quote without a backslash, which
is its end, gives the UTF-16 units of the string, and these write the string.  So two strings never
have one operand. -/
theorem constantText_reads (s : String) :
    (Op.ldcString s).text = "ldc " ++ constantText s ∧
      (∀ c ∈ (constantText s).toList, ' ' ≤ c ∧ c ≤ '~') ∧
      readConstant (constantText s).toList = some (s.toList.flatMap units16) ∧
      ofUnits16 (s.toList.flatMap units16) = some s.toList ∧
      ∀ s', constantText s' = constantText s → s' = s := by
  refine ⟨rfl, fun c hc => ?_, readConstant_constantText s, ofUnits16_units16 s.toList,
    fun s' h => constantText_injective h⟩
  simpa [isAsciiPrintable] using isAsciiPrintable_of_mem_constantText hc

end Machine
end ClassCompiler
