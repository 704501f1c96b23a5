import Mathlib.Tactic.IntervalCases
import ClassCompiler.Json.Reader
import ClassCompiler.Json.Writer

/-!
# Reading the tokens that were written

The tokens of a JSON text are read back as they were written, whatever follows them.  For a string
this is always so.  A number must be followed by something that cannot continue it, and double
precision must be able to hold it, which it can if the number has no more than 64 bits.

* `skipBlanks_append`, `skipBlanks_cons`: blanks are passed over, and nothing else.
* `readString_escape`: strings.
* `readNumber_writeInt`: integers.
-/

namespace ClassCompiler
namespace Json

/-! ## Blanks -/

/-- The characters that may stand between tokens. -/
def isBlank (c : Char) : Bool :=
  c == ' ' || c == '\t' || c == '\n' || c == '\r'

theorem skipBlanks_append {blanks cs : List Char} (h : ∀ c ∈ blanks, isBlank c = true) :
    skipBlanks (blanks ++ cs) = skipBlanks cs :=
  List.dropWhile_append_of_pos h

theorem skipBlanks_cons {c : Char} {cs : List Char} (h : isBlank c = false) :
    skipBlanks (c :: cs) = c :: cs :=
  List.dropWhile_cons_of_neg (Bool.eq_false_iff.mp h)

theorem isBlank_of_mem_newline {level : Nat} {c : Char} (h : c ∈ newline level) :
    isBlank c = true := by
  rcases List.mem_cons.mp h with rfl | h
  · rfl
  · cases List.eq_of_mem_replicate h
    rfl

/-! ## Strings -/

/-- A control character is read back from its number. -/
theorem readNumbered_escape {n : Nat} (h : n < 32) (rest : List Char) :
    readNumbered (List.replicate (4 - (Nat.toDigits 16 n).length) '0' ++
      Nat.toDigits 16 n ++ rest) = some (Char.ofNat n, rest) := by
  interval_cases n <;> rfl

theorem readChars_escapeNumber {c : Char} (h : c.toNat < 32) (fuel : Nat) (soFar rest : List Char) :
    readChars (fuel + 1) soFar (escapeNumber c ++ rest) = readChars fuel (c :: soFar) rest := by
  have hread := readNumbered_escape h rest
  rw [Char.ofNat_toNat] at hread
  exact congrArg (Option.bind · fun read => readChars fuel (read.1 :: soFar) read.2) hread

/-- A character inside a string is read back. -/
theorem readChars_escapeChar (c : Char) (fuel : Nat) (soFar rest : List Char) :
    readChars (fuel + 1) soFar (escapeChar c ++ rest) = readChars fuel (c :: soFar) rest := by
  unfold escapeChar
  split
  case h_8 hquote hbackslash _ _ _ _ _ =>
    split
    · next hcontrol => exact readChars_escapeNumber hcontrol fuel soFar rest
    · next hplain =>
      rw [List.singleton_append, readChars, if_neg hquote, if_neg hbackslash, if_neg hplain]
  all_goals rfl

/-- A string is read back, up to the quote that closes it. -/
theorem readChars_escape (cs : List Char) :
    ∀ {fuel : Nat} (soFar rest : List Char), cs.length < fuel →
      readChars fuel soFar (cs.flatMap escapeChar ++ '"' :: rest) =
        some (String.ofList (soFar.reverse ++ cs), rest) := by
  induction cs with
  | nil =>
    intro fuel soFar rest h
    obtain ⟨fuel, rfl⟩ := Nat.exists_eq_add_one_of_ne_zero (Nat.ne_of_gt h)
    rw [List.append_nil]
    rfl
  | cons c cs ih =>
    intro fuel soFar rest h
    obtain ⟨fuel, rfl⟩ := Nat.exists_eq_add_one_of_ne_zero (Nat.ne_zero_of_lt h)
    rw [List.length_cons] at h
    rw [List.flatMap_cons, List.append_assoc, readChars_escapeChar, ih _ _ (by omega),
      List.reverse_cons, List.append_assoc, List.singleton_append]

theorem readString_escape (s : String) {size : Nat} (h : s.toList.length < size)
    (rest : List Char) :
    readString size (s.toList.flatMap escapeChar ++ '"' :: rest) = some (s, rest) := by
  rw [readString, readChars_escape s.toList [] rest h, List.reverse_nil, List.nil_append,
    String.ofList_toList]

theorem writeString_append (s : String) (rest : List Char) :
    writeString s ++ rest = '"' :: (s.toList.flatMap escapeChar ++ '"' :: rest) := by
  rw [writeString, List.append_assoc, List.cons_append, List.singleton_append]

theorem length_escapeChar (c : Char) : 0 < (escapeChar c).length := by
  unfold escapeChar
  split
  case h_8 =>
    split
    · exact Nat.succ_pos _
    · exact Nat.one_pos
  all_goals exact Nat.succ_pos _

/-- A string is written with more characters than it has. -/
theorem length_lt_writeString (s : String) : s.toList.length < (writeString s).length := by
  have hle : ∀ cs : List Char, cs.length ≤ (cs.flatMap escapeChar).length := by
    intro cs
    induction cs with
    | nil => exact Nat.le_refl _
    | cons c cs ih =>
      have := length_escapeChar c
      rw [List.flatMap_cons, List.length_append, List.length_cons]
      omega
  have := hle s.toList
  rw [writeString, List.length_append, List.length_cons]
  omega

/-! ## Numbers -/

/-- What follows a value in a text: the end, a comma or a line end. -/
def Stops (rest : List Char) : Prop :=
  ∀ c ∈ rest.head?, c = ',' ∨ c = '\n'

theorem isDigit_of_mem_toDigits {n : Nat} {c : Char} (h : c ∈ Nat.toDigits 10 n) :
    c.isDigit = true :=
  Nat.isDigit_of_mem_toDigits (by decide) (by decide) h

/-- A number is written without a zero in front. -/
theorem exists_toDigits (n : Nat) :
    ∃ c cs, Nat.toDigits 10 n = c :: cs ∧ (c = '0' → Nat.toDigits 10 n = ['0']) := by
  induction n using Nat.strongRecOn with
  | ind n ih =>
    by_cases hn : n < 10
    · rw [Nat.toDigits_of_lt_base hn]
      exact ⟨n.digitChar, [], rfl, fun h => by rw [h]⟩
    · obtain ⟨c, cs, hcs, hzero⟩ := ih (n / 10) (by omega)
      rw [Nat.toDigits_of_base_le (by decide) (by omega), hcs]
      refine ⟨c, _, rfl, fun h => ?_⟩
      have hval : Nat.ofDigitChars 10 (Nat.toDigits 10 (n / 10)) 0 = n / 10 :=
        Nat.ofDigitChars_ten_toDigits
      rw [hzero h] at hval
      have : n / 10 = 0 := hval.symm
      omega

theorem takeWhile_digits (n : Nat) {rest : List Char} (h : Stops rest) :
    (Nat.toDigits 10 n ++ rest).takeWhile Char.isDigit = Nat.toDigits 10 n ∧
      (Nat.toDigits 10 n ++ rest).dropWhile Char.isDigit = rest := by
  have hdigits : ∀ c ∈ Nat.toDigits 10 n, c.isDigit = true := fun _ => isDigit_of_mem_toDigits
  rw [List.takeWhile_append_of_pos hdigits, List.dropWhile_append_of_pos hdigits]
  cases rest with
  | nil => exact ⟨List.append_nil _, rfl⟩
  | cons c cs =>
    rcases h c rfl with rfl | rfl
    · exact ⟨List.append_nil _, rfl⟩
    · exact ⟨List.append_nil _, rfl⟩

theorem readWhole_toDigits (n : Nat) {rest : List Char} (h : Stops rest) :
    readWhole (Nat.toDigits 10 n ++ rest) = some (Nat.toDigits 10 n, rest) := by
  obtain ⟨htake, hdrop⟩ := takeWhile_digits n h
  obtain ⟨c, cs, hcs, hzero⟩ := exists_toDigits n
  have hdigit : c.isDigit = true := isDigit_of_mem_toDigits (hcs ▸ List.mem_cons_self)
  by_cases hc : c = '0'
  · rw [hzero hc]
    rfl
  · rw [hcs] at htake hdrop ⊢
    rw [List.cons_append] at htake hdrop ⊢
    rw [readWhole, if_neg hc, if_pos hdigit, htake, hdrop]

theorem readFraction_of_stops {rest : List Char} (h : Stops rest) :
    readFraction rest = some (none, rest) := by
  cases rest with
  | nil => rfl
  | cons c cs =>
    rcases h c rfl with rfl | rfl
    · rfl
    · rfl

theorem readExponent_of_stops {rest : List Char} (h : Stops rest) :
    readExponent rest = some (none, rest) := by
  cases rest with
  | nil => rfl
  | cons c cs =>
    rcases h c rfl with rfl | rfl
    · rfl
    · rfl

theorem le_ofDigitChars (digits : List Char) :
    ∀ start : Nat, start ≤ Nat.ofDigitChars 10 digits start := by
  induction digits with
  | nil =>
    intro start
    rw [Nat.ofDigitChars_nil]
  | cons d ds ih =>
    intro start
    rw [Nat.ofDigitChars_cons]
    exact Nat.le_trans (by omega) (ih _)

theorem leadingDigits_of_lt (digits : List Char) :
    ∀ start : Nat, Nat.ofDigitChars 10 digits start < 18446744073709551616 →
      leadingDigits start digits = (Nat.ofDigitChars 10 digits start, digits.length) := by
  induction digits with
  | nil =>
    intro start _
    rw [leadingDigits, Nat.ofDigitChars_nil]
    rfl
  | cons d ds ih =>
    intro start h
    rw [Nat.ofDigitChars_cons] at h ⊢
    have hnext := Nat.lt_of_le_of_lt (le_ofDigitChars ds _) h
    rw [leadingDigits, if_pos hnext, ih _ h]
    rfl

/-- Rounding at most doubles a number. -/
theorem round53_le (n : Nat) : round53 n ≤ 2 * n := by
  unfold round53
  dsimp only
  split
  · omega
  · next hlog =>
    have hn : n ≠ 0 := by
      rintro rfl
      exact hlog (by decide)
    have hunit : Nat.pow 2 (n.log2 - 52) ≤ n := by
      exact Nat.le_trans (Nat.pow_le_pow_right (by decide) (Nat.sub_le _ _)) (Nat.log2_self_le hn)
    have hlow : n / Nat.pow 2 (n.log2 - 52) * Nat.pow 2 (n.log2 - 52) ≤ n := Nat.div_mul_le_self _ _
    split
    · omega
    · rw [Nat.add_mul, Nat.one_mul]
      omega

/-- A number that fits 64 bits is rounded to one below the largest that double precision can hold,
where that has its lowest bit at `m`. -/
theorem round53_lt {n m k : Nat} (h : n < 18446744073709551616) (hm : 66 ≤ m) (hk : m < k) :
    round53 n * 1 < Nat.pow 2 k - Nat.pow 2 m := by
  have hround := round53_le n
  have hsmall : Nat.pow 2 66 ≤ Nat.pow 2 m := Nat.pow_le_pow_right (by decide) hm
  have hlarge : Nat.pow 2 (m + 1) ≤ Nat.pow 2 k := Nat.pow_le_pow_right (by decide) hk
  have hdouble : Nat.pow 2 (m + 1) = Nat.pow 2 m * 2 := Nat.pow_succ 2 m
  have hvalue : Nat.pow 2 66 = 73786976294838206464 := rfl
  omega

theorem not_overflows {n : Nat} (h : n < 18446744073709551616) :
    overflows (Nat.toDigits 10 n) [] 0 = false := by
  have hvalue : Nat.ofDigitChars 10 (Nat.toDigits 10 n) 0 = n := Nat.ofDigitChars_ten_toDigits
  have hlead : leadingDigits 0 (Nat.toDigits 10 n) = (n, (Nat.toDigits 10 n).length) := by
    rw [leadingDigits_of_lt _ _ (by rw [hvalue]; exact h), hvalue]
  have hscale : (0 + (((Nat.toDigits 10 n).length - (Nat.toDigits 10 n).length : Nat) : Int)
      - ((0 : Nat) : Int)) = 0 := by
    rw [Nat.sub_self]
    rfl
  rw [overflows, hlead]
  dsimp only [leadingDigits]
  rw [hscale]
  by_cases hn : n = 0 ∨ (0 : Int) < 0
  · rw [if_pos hn]
  · rw [if_neg hn, if_neg (by decide)]
    have hone : round53 (Nat.pow 10 (0 : Int).toNat) = 1 := rfl
    rw [hone, decide_eq_false_iff_not, Nat.not_le]
    apply round53_lt h
    · decide
    · decide

/-- An integer of at most 64 bits. -/
def Number.Small : Number → Prop
  | .integer n => n.natAbs < 18446744073709551616
  | .decimal _ _ _ => False

/-- The digits of a number are read back, after its sign. -/
theorem readNumber_of_sign {cs rest : List Char} {negative : Bool} {n : Nat}
    (hsign : readSign cs = (negative, Nat.toDigits 10 n ++ rest))
    (hzero : ¬ (negative = true ∧ n = 0)) (h : n < 18446744073709551616) (hrest : Stops rest) :
    readNumber cs = some (.integer (if negative then -(n : Int) else n), rest) := by
  have hvalue : ofDigits (Nat.toDigits 10 n) = n := Nat.ofDigitChars_ten_toDigits
  rw [readNumber, hsign]
  dsimp only
  rw [readWhole_toDigits n hrest, Option.bind_eq_bind, Option.bind_some,
    readFraction_of_stops hrest, Option.bind_eq_bind, Option.bind_some,
    readExponent_of_stops hrest, Option.bind_eq_bind, Option.bind_some]
  simp only [Option.getD_none, not_overflows h, hvalue, if_neg hzero, Bool.false_eq_true, if_false]

theorem readNumber_writeInt {n : Int} (h : n.natAbs < 18446744073709551616) {rest : List Char}
    (hrest : Stops rest) : readNumber (writeInt n ++ rest) = some (.integer n, rest) := by
  cases n with
  | ofNat n =>
    have hsign : readSign (writeInt n ++ rest) = (false, Nat.toDigits 10 n ++ rest) := by
      obtain ⟨c, cs, hcs, -⟩ := exists_toDigits n
      have hdigit : c.isDigit = true := isDigit_of_mem_toDigits (hcs ▸ List.mem_cons_self)
      show readSign (Nat.toDigits 10 n ++ rest) = _
      rw [hcs, List.cons_append, readSign]
      intro rest' heq
      cases (List.cons.inj heq).1
      exact absurd hdigit (by decide)
    exact readNumber_of_sign hsign (by simp) h hrest
  | negSucc n =>
    have hsign : readSign (writeInt (.negSucc n) ++ rest) =
        (true, Nat.toDigits 10 (n + 1) ++ rest) := rfl
    exact readNumber_of_sign hsign (by simp) h hrest

end Json
end ClassCompiler
