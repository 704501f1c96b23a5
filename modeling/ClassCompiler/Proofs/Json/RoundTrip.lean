import Mathlib.Data.List.Basic
import ClassCompiler.Proofs.Json.Token

/-!
# Reading the values that were written

A value that is written with one item a line is read back from the text, whatever follows it, if the
reader is given as much depth as the value has and the numbers in it are integers of at most 64 bits.

What is read never nests deeper than the reader was told.

* `Value.Within`: how deep a value nests, and what its numbers are.
* `readValue_pretty`, `read_prettyText`: a value is read back.
* `within_of_readValue`: the depth of what is read.
-/

namespace ClassCompiler
namespace Json

/-- Arrays and objects nest at most so deep, and all numbers satisfy a condition. -/
inductive Value.Within (P : Number → Prop) : Nat → Value → Prop
  | null {d : Nat} : Within P d .null
  | bool {d : Nat} (b : Bool) : Within P d (.bool b)
  | number {d : Nat} {n : Number} (h : P n) : Within P d (.number n)
  | string {d : Nat} (s : String) : Within P d (.string s)
  | array {d : Nat} {items : List Value} (h : ∀ v ∈ items, Within P d v) :
      Within P (d + 1) (.array items)
  | object {d : Nat} {members : List (String × Value)} (h : ∀ m ∈ members, Within P d m.2) :
      Within P (d + 1) (.object members)

/-! ## The layout -/

theorem prettyItems_eq_map (level : Nat) (vs : List Value) :
    Value.prettyItems level vs = vs.map (Value.pretty level) := by
  induction vs with
  | nil => rfl
  | cons v vs ih => rw [Value.prettyItems, ih, List.map_cons]

/-- A member of an object, as it is written. -/
def prettyMember (level : Nat) (m : String × Value) : List Char :=
  writeString m.1 ++ [':', ' '] ++ m.2.pretty level

theorem prettyMembers_eq_map (level : Nat) (members : List (String × Value)) :
    Value.prettyMembers level members = members.map (prettyMember level) := by
  induction members with
  | nil => rfl
  | cons m members ih => rw [Value.prettyMembers, ih, List.map_cons]; rfl

/-- What follows the first item of a block: the other items, and the bracket that closes it. -/
def following (closing : Char) (level : Nat) : List (List Char) → List Char
  | [] => newline level ++ [closing]
  | x :: xs => ',' :: newline (level + 1) ++ x ++ following closing level xs

theorem block_cons (opening closing : Char) (level : Nat) (x : List Char) (xs : List (List Char)) :
    block opening closing level (x :: xs) =
      opening :: (newline (level + 1) ++ x ++ following closing level xs) := by
  have htail : ∀ x, List.intercalate (',' :: newline (level + 1)) (x :: xs) ++ newline level
      ++ [closing] = x ++ following closing level xs := by
    induction xs with
    | nil => intro x; simp [following]
    | cons y ys ih =>
      intro x
      have hrest := ih y
      rw [List.intercalate_cons_cons, following]
      simp only [List.append_assoc, List.cons_append] at hrest ⊢
      rw [hrest]
  rw [List.append_assoc, ← htail]
  simp [block]

theorem length_following (closing : Char) (level : Nat) (xs : List (List Char)) :
    xs.length ≤ (following closing level xs).length ∧
      ∀ x ∈ xs, x.length ≤ (following closing level xs).length := by
  induction xs with
  | nil => exact ⟨Nat.zero_le _, fun x hx => absurd hx List.not_mem_nil⟩
  | cons y ys ih =>
    have hlength : (following closing level (y :: ys)).length =
        1 + (newline (level + 1)).length + y.length + (following closing level ys).length := by
      simp [following]
      omega
    rw [hlength]
    refine ⟨by rw [List.length_cons]; omega, fun x hx => ?_⟩
    rcases List.mem_cons.mp hx with rfl | hx
    · omega
    · have := ih.2 x hx
      omega

/-- No item of a block is longer than the block, and there are no more of them than characters. -/
theorem length_block (opening closing : Char) (level : Nat) (xs : List (List Char)) :
    xs.length ≤ (block opening closing level xs).length ∧
      ∀ x ∈ xs, x.length ≤ (block opening closing level xs).length := by
  cases xs with
  | nil => exact ⟨Nat.zero_le _, fun x hx => absurd hx List.not_mem_nil⟩
  | cons y ys =>
    obtain ⟨hcount, hitems⟩ := length_following closing level ys
    rw [block_cons]
    simp only [List.length_cons, List.length_append]
    refine ⟨by omega, fun x hx => ?_⟩
    rcases List.mem_cons.mp hx with rfl | hx
    · omega
    · have := hitems x hx
      omega

theorem stops_following (closing : Char) (level : Nat) (xs : List (List Char))
    (rest : List Char) : Stops (following closing level xs ++ rest) := by
  intro c hc
  cases xs with
  | nil => exact .inr (Option.some.inj hc).symm
  | cons => exact .inl (Option.some.inj hc).symm

/-! ## Sequences -/

/-- A loop that reads items with commas between them reads back what was written.  How the loop goes
on after an item, and how it ends, is all that has to be known of it. -/
theorem sequence_following {α : Type} {closing : Char} {item : List Char → Option (α × List Char)}
    {loop : Nat → List α → List Char → Option (List α × List Char)}
    (hclosing : isBlank closing = false)
    (hnext : ∀ {fuel soFar cs a rest rest'}, item cs = some (a, rest) →
      skipBlanks rest = ',' :: rest' → loop (fuel + 1) soFar cs = loop fuel (a :: soFar) rest')
    (hlast : ∀ {fuel soFar cs a rest rest'}, item cs = some (a, rest) →
      skipBlanks rest = closing :: rest' →
      loop (fuel + 1) soFar cs = some ((a :: soFar).reverse, rest'))
    {level : Nat} {text : α → List Char} (rest : List Char) (as : List α) :
    ∀ {fuel : Nat} {soFar : List α} {a : α}, as.length < fuel →
      (∀ b ∈ a :: as, ∀ rest, Stops rest →
        item (newline (level + 1) ++ text b ++ rest) = some (b, rest)) →
      loop fuel soFar
          (newline (level + 1) ++ text a ++ following closing level (as.map text) ++ rest) =
        some (soFar.reverse ++ a :: as, rest) := by
  induction as with
  | nil =>
    intro fuel soFar a hfuel hitem
    obtain ⟨fuel, rfl⟩ := Nat.exists_eq_add_one_of_ne_zero (Nat.ne_of_gt hfuel)
    have hread := hitem a List.mem_cons_self _ (stops_following closing level [] rest)
    have hstop : skipBlanks (following closing level [] ++ rest) = closing :: rest := by
      rw [following, List.append_assoc, skipBlanks_append fun _ => isBlank_of_mem_newline]
      exact skipBlanks_cons hclosing
    rw [List.append_assoc, List.map_nil, hlast hread hstop, List.reverse_cons]
  | cons b bs ih =>
    intro fuel soFar a hfuel hitem
    obtain ⟨fuel, rfl⟩ := Nat.exists_eq_add_one_of_ne_zero (Nat.ne_zero_of_lt hfuel)
    rw [List.length_cons] at hfuel
    have hread := hitem a List.mem_cons_self _
      (stops_following closing level ((b :: bs).map text) rest)
    have hcomma : skipBlanks (following closing level ((b :: bs).map text) ++ rest) = ',' ::
        (newline (level + 1) ++ text b ++ following closing level (bs.map text) ++ rest) := by
      rw [List.map_cons, following, List.cons_append, List.cons_append, List.cons_append]
      exact skipBlanks_cons rfl
    rw [List.append_assoc, hnext hread hcomma, ih (by omega) fun c hc => ?_]
    · rw [List.reverse_cons, List.append_assoc, List.singleton_append]
    · exact hitem c (List.mem_cons_of_mem a hc)

theorem readItems_next {item : List Char → Option (Value × List Char)} {fuel : Nat}
    {soFar : List Value} {cs rest rest' : List Char} {v : Value} (hitem : item cs = some (v, rest))
    (hrest : skipBlanks rest = ',' :: rest') :
    readItems item (fuel + 1) soFar cs = readItems item fuel (v :: soFar) rest' := by
  simp only [readItems, hitem, hrest, Option.bind_eq_bind, Option.bind_some]

theorem readItems_last {item : List Char → Option (Value × List Char)} {fuel : Nat}
    {soFar : List Value} {cs rest rest' : List Char} {v : Value} (hitem : item cs = some (v, rest))
    (hrest : skipBlanks rest = ']' :: rest') :
    readItems item (fuel + 1) soFar cs = some ((v :: soFar).reverse, rest') := by
  simp only [readItems, hitem, hrest, Option.bind_eq_bind, Option.bind_some]

/-- A member of an object. -/
def readMember (size : Nat) (item : List Char → Option (Value × List Char)) (cs : List Char) :
    Option ((String × Value) × List Char) := do
  let (name, rest) ← readName size cs
  let (v, rest) ← item rest
  some ((name, v), rest)

theorem readMembers_of_readMember {size : Nat} {item : List Char → Option (Value × List Char)}
    {cs rest : List Char} {m : String × Value} (hmember : readMember size item cs = some (m, rest)) :
    ∃ rest', readName size cs = some (m.1, rest') ∧ item rest' = some (m.2, rest) := by
  obtain ⟨⟨name, rest'⟩, hname, hmember⟩ := Option.bind_eq_some_iff.mp hmember
  obtain ⟨⟨v, rest''⟩, hitem, hmember⟩ := Option.bind_eq_some_iff.mp hmember
  cases Option.some.inj hmember
  exact ⟨rest', hname, hitem⟩

theorem readMembers_next {size : Nat} {item : List Char → Option (Value × List Char)} {fuel : Nat}
    {soFar : List (String × Value)} {cs rest rest' : List Char} {m : String × Value}
    (hmember : readMember size item cs = some (m, rest)) (hrest : skipBlanks rest = ',' :: rest') :
    readMembers size item (fuel + 1) soFar cs = readMembers size item fuel (m :: soFar) rest' := by
  obtain ⟨_, hname, hitem⟩ := readMembers_of_readMember hmember
  simp only [readMembers, hname, hitem, hrest, Option.bind_eq_bind, Option.bind_some]

theorem readMembers_last {size : Nat} {item : List Char → Option (Value × List Char)} {fuel : Nat}
    {soFar : List (String × Value)} {cs rest rest' : List Char} {m : String × Value}
    (hmember : readMember size item cs = some (m, rest))
    (hrest : skipBlanks rest = '\x7d' :: rest') :
    readMembers size item (fuel + 1) soFar cs = some ((m :: soFar).reverse, rest') := by
  obtain ⟨_, hname, hitem⟩ := readMembers_of_readMember hmember
  simp only [readMembers, hname, hitem, hrest, Option.bind_eq_bind, Option.bind_some]

/-! ## Values -/

theorem readValue_skip {size d : Nat} {blanks cs : List Char} (h : ∀ c ∈ blanks, isBlank c = true) :
    readValue size d (blanks ++ cs) = readValue size d cs := by
  cases d with
  | zero => rw [readValue, readValue, skipBlanks_append h]
  | succ d => rw [readValue, readValue, skipBlanks_append h]

theorem readName_skip {size : Nat} {blanks cs : List Char} (h : ∀ c ∈ blanks, isBlank c = true) :
    readName size (blanks ++ cs) = readName size cs := by
  rw [readName, readName, skipBlanks_append h]

theorem readValue_scalar {size d : Nat} {c : Char} {cs : List Char} (hblank : isBlank c = false)
    (harray : c ≠ '[') (hobject : c ≠ '\x7b') :
    readValue size d (c :: cs) = readScalar size c cs := by
  cases d with
  | zero => simp only [readValue, skipBlanks_cons hblank, harray, hobject, or_self, if_false]
  | succ d => simp only [readValue, skipBlanks_cons hblank, harray, hobject, if_false]

/-- What an integer begins with. -/
def isNumberHead (c : Char) : Bool :=
  c.isDigit || c == '-'

theorem ne_of_isNumberHead {c x : Char} (h : isNumberHead c = true)
    (hx : isNumberHead x = false) : c ≠ x := by
  rintro rfl
  exact absurd (h.symm.trans hx) (by decide)

theorem exists_writeInt (n : Int) : ∃ c cs, writeInt n = c :: cs ∧ isNumberHead c = true := by
  cases n with
  | ofNat n =>
    obtain ⟨c, cs, hcs, -⟩ := exists_toDigits n
    have hdigit : c.isDigit = true := isDigit_of_mem_toDigits (hcs ▸ List.mem_cons_self)
    exact ⟨c, cs, hcs, by rw [isNumberHead, hdigit, Bool.true_or]⟩
  | negSucc n => exact ⟨'-', _, rfl, rfl⟩

theorem isBlank_of_isNumberHead {c : Char} (h : isNumberHead c = true) : isBlank c = false := by
  simp only [isBlank, Bool.or_eq_false_iff, beq_eq_false_iff_ne]
  exact ⟨⟨⟨ne_of_isNumberHead h rfl, ne_of_isNumberHead h rfl⟩, ne_of_isNumberHead h rfl⟩,
    ne_of_isNumberHead h rfl⟩

theorem exists_block (opening closing : Char) (level : Nat) (xs : List (List Char)) :
    ∃ cs, block opening closing level xs = opening :: cs := by
  cases xs with
  | nil => exact ⟨_, rfl⟩
  | cons x xs => exact ⟨_, block_cons ..⟩

/-- What a value begins with is no blank and does not close an array. -/
theorem exists_pretty {d : Nat} {v : Value} (h : v.Within Number.Small d) (level : Nat) :
    ∃ c cs, v.pretty level = c :: cs ∧ isBlank c = false ∧ c ≠ ']' := by
  cases h with
  | null => exact ⟨'n', _, rfl, rfl, by decide⟩
  | bool b =>
    cases b with
    | false => exact ⟨'f', _, rfl, rfl, by decide⟩
    | true => exact ⟨'t', _, rfl, rfl, by decide⟩
  | @number _ n hn =>
    cases n with
    | integer n =>
      obtain ⟨c, cs, hcs, hhead⟩ := exists_writeInt n
      exact ⟨c, cs, hcs, isBlank_of_isNumberHead hhead, ne_of_isNumberHead hhead rfl⟩
    | decimal => exact absurd hn not_false
  | string s => exact ⟨'"', _, rfl, rfl, by decide⟩
  | array =>
    obtain ⟨cs, hcs⟩ := exists_block '[' ']' level _
    exact ⟨'[', cs, hcs, rfl, by decide⟩
  | object =>
    obtain ⟨cs, hcs⟩ := exists_block '\x7b' '\x7d' level _
    exact ⟨'\x7b', cs, hcs, rfl, by decide⟩

theorem readScalar_number {size : Nat} {c : Char} {cs : List Char} (h : isNumberHead c = true) :
    readScalar size c cs =
      (readNumber (c :: cs)).bind fun read => some (.number read.1, read.2) := by
  unfold readScalar
  split
  case h_5 => rfl
  all_goals exact absurd h (by decide)

theorem readArray_of_readItems {size : Nat} {item : List Char → Option (Value × List Char)}
    {c : Char} {cs rest : List Char} {items : List Value}
    (hhead : (skipBlanks cs).head? = some c) (hclose : c ≠ ']')
    (hitems : readItems item size [] cs = some (items, rest)) :
    readArray size item cs = some (.array items, rest) := by
  unfold readArray
  split
  · next heq =>
    rw [heq] at hhead
    exact absurd (Option.some.inj hhead).symm hclose
  · rw [hitems]
    rfl

theorem readObject_of_readMembers {size : Nat} {item : List Char → Option (Value × List Char)}
    {c : Char} {cs rest : List Char} {members : List (String × Value)}
    (hhead : (skipBlanks cs).head? = some c) (hclose : c ≠ '\x7d')
    (hmembers : readMembers size item size [] cs = some (members, rest)) :
    readObject size item cs = some (.object members, rest) := by
  unfold readObject
  split
  · next heq =>
    rw [heq] at hhead
    exact absurd (Option.some.inj hhead).symm hclose
  · rw [hmembers]
    rfl

theorem readArray_pretty {size d level : Nat} {items : List Value} {rest : List Char}
    (hread : ∀ v ∈ items, ∀ rest, Stops rest →
      readValue size d (v.pretty (level + 1) ++ rest) = some (v, rest))
    (hhead : ∀ v ∈ items, ∃ c cs, v.pretty (level + 1) = c :: cs ∧ isBlank c = false ∧ c ≠ ']')
    (hsize : items.length ≤ size) :
    readValue size (d + 1) ((Value.array items).pretty level ++ rest) =
      some (.array items, rest) := by
  rw [Value.pretty, prettyItems_eq_map]
  cases items with
  | nil => rfl
  | cons v vs =>
    rw [List.length_cons] at hsize
    obtain ⟨c, cs, hcs, hblank, hclose⟩ := hhead v List.mem_cons_self
    rw [List.map_cons, block_cons, List.cons_append]
    show readArray size (readValue size d) _ = _
    refine readArray_of_readItems (c := c) ?_ hclose ?_
    · rw [List.append_assoc, List.append_assoc, skipBlanks_append fun _ => isBlank_of_mem_newline,
        hcs, List.cons_append, skipBlanks_cons hblank, List.head?_cons]
    · refine sequence_following rfl readItems_next readItems_last rest vs (by omega) ?_
      intro w hw rest hrest
      rw [List.append_assoc, readValue_skip fun _ => isBlank_of_mem_newline]
      exact hread w hw rest hrest

/-- A member is read back: its name, and after the colon and a blank its value. -/
theorem readMember_pretty {size d level : Nat} {m : String × Value} {rest : List Char}
    (hread : readValue size d (m.2.pretty level ++ rest) = some (m.2, rest))
    (hsize : m.1.toList.length < size) :
    readMember size (readValue size d) (newline level ++ prettyMember level m ++ rest) =
      some (m, rest) := by
  have hname : readName size (newline level ++ prettyMember level m ++ rest) =
      some (m.1, ' ' :: (m.2.pretty level ++ rest)) := by
    have htext : prettyMember level m ++ rest = '"' :: (m.1.toList.flatMap escapeChar ++
        '"' :: ':' :: ' ' :: (m.2.pretty level ++ rest)) := by
      rw [prettyMember, List.append_assoc, List.append_assoc, writeString_append]
      rfl
    have hquote : isBlank '"' = false := rfl
    have hcolon : isBlank ':' = false := rfl
    rw [List.append_assoc, readName_skip fun _ => isBlank_of_mem_newline, htext]
    simp only [readName, skipBlanks_cons hquote, readString_escape m.1 hsize,
      skipBlanks_cons hcolon, Option.bind_eq_bind, Option.bind_some]
  have hvalue : readValue size d (' ' :: (m.2.pretty level ++ rest)) = some (m.2, rest) := by
    rw [← hread]
    refine @readValue_skip size d [' '] _ fun c hc => ?_
    cases List.mem_singleton.mp hc
    rfl
  simp only [readMember, hname, hvalue, Option.bind_eq_bind, Option.bind_some]

theorem readObject_pretty {size d level : Nat} {members : List (String × Value)} {rest : List Char}
    (hread : ∀ m ∈ members, ∀ rest, Stops rest →
      readValue size d (m.2.pretty (level + 1) ++ rest) = some (m.2, rest))
    (hnames : ∀ m ∈ members, m.1.toList.length < size) (hsize : members.length ≤ size) :
    readValue size (d + 1) ((Value.object members).pretty level ++ rest) =
      some (.object members, rest) := by
  rw [Value.pretty, prettyMembers_eq_map]
  cases members with
  | nil => rfl
  | cons m ms =>
    rw [List.length_cons] at hsize
    rw [List.map_cons, block_cons, List.cons_append]
    show readObject size (readValue size d) _ = _
    refine readObject_of_readMembers (c := '"') ?_ (by decide) ?_
    · rw [List.append_assoc, List.append_assoc, skipBlanks_append fun _ => isBlank_of_mem_newline]
      exact congrArg List.head? (skipBlanks_cons rfl)
    · refine sequence_following rfl readMembers_next readMembers_last rest ms (by omega) ?_
      intro m' hm' rest hrest
      exact readMember_pretty (hread m' hm' rest hrest) (hnames m' hm')

/-- **A value is read back**, whatever follows it. -/
theorem readValue_pretty {d : Nat} {v : Value} (h : v.Within Number.Small d) :
    ∀ {size level : Nat} (rest : List Char), (v.pretty level).length ≤ size → Stops rest →
      readValue size d (v.pretty level ++ rest) = some (v, rest) := by
  induction h with
  | null =>
    intro size level rest _ _
    exact readValue_scalar rfl (by decide) (by decide)
  | bool b =>
    intro size level rest _ _
    cases b with
    | false => exact readValue_scalar rfl (by decide) (by decide)
    | true => exact readValue_scalar rfl (by decide) (by decide)
  | @number d n hn =>
    intro size level rest _ hrest
    cases n with
    | decimal => exact absurd hn not_false
    | integer n =>
      obtain ⟨c, cs, hcs, hhead⟩ := exists_writeInt n
      have hnumber := readNumber_writeInt hn hrest
      rw [hcs, List.cons_append] at hnumber
      rw [Value.pretty, writeNumber, hcs, List.cons_append,
        readValue_scalar (isBlank_of_isNumberHead hhead) (ne_of_isNumberHead hhead rfl)
          (ne_of_isNumberHead hhead rfl),
        readScalar_number hhead, hnumber, Option.bind_some]
  | string s =>
    intro size level rest hsize _
    have hlength := Nat.lt_of_lt_of_le (length_lt_writeString s) hsize
    rw [Value.pretty, writeString_append, readValue_scalar rfl (by decide) (by decide)]
    show (readString size _).bind _ = _
    rw [readString_escape s hlength]
    rfl
  | @array d items hitems ih =>
    intro size level rest hsize _
    rw [Value.pretty, prettyItems_eq_map] at hsize
    obtain ⟨hcount, hlengths⟩ := length_block '[' ']' level (items.map (Value.pretty (level + 1)))
    rw [List.length_map] at hcount
    refine readArray_pretty (fun v hv rest hrest => ?_) (fun v hv => exists_pretty (hitems v hv) _)
      (Nat.le_trans hcount hsize)
    exact ih v hv rest (Nat.le_trans (hlengths _ (List.mem_map_of_mem hv)) hsize) hrest
  | @object d members hmembers ih =>
    intro size level rest hsize _
    rw [Value.pretty, prettyMembers_eq_map] at hsize
    obtain ⟨hcount, hlengths⟩ :=
      length_block '\x7b' '\x7d' level (members.map (prettyMember (level + 1)))
    rw [List.length_map] at hcount
    have hmember : ∀ m ∈ members, m.1.toList.length < size ∧
        (m.2.pretty (level + 1)).length ≤ size := by
      intro m hm
      have hlength := Nat.le_trans (hlengths _ (List.mem_map_of_mem hm)) hsize
      have hname := length_lt_writeString m.1
      simp only [prettyMember, List.length_append] at hlength
      omega
    refine readObject_pretty (fun m hm rest hrest => ?_) (fun m hm => (hmember m hm).1)
      (Nat.le_trans hcount hsize)
    exact ih m hm rest (hmember m hm).2 hrest

theorem read_prettyText {d : Nat} {v : Value} (h : v.Within Number.Small d) :
    read d (prettyText v) = some v := by
  have htext : (prettyText v).toList = v.pretty 0 := String.toList_ofList
  have hread : readValue (v.pretty 0).length d (v.pretty 0 ++ []) = some (v, []) :=
    readValue_pretty h [] (Nat.le_refl _) fun c hc => by cases hc
  rw [List.append_nil] at hread
  rw [read, htext, hread]
  rfl

/-! ## The depth of what is read -/

theorem readItems_forall {item : List Char → Option (Value × List Char)} {Q : Value → Prop}
    (hitem : ∀ {cs v rest}, item cs = some (v, rest) → Q v) {fuel : Nat} :
    ∀ {soFar vs : List Value} {cs rest : List Char}, (∀ v ∈ soFar, Q v) →
      readItems item fuel soFar cs = some (vs, rest) → ∀ v ∈ vs, Q v := by
  induction fuel with
  | zero =>
    intro soFar vs cs rest _ h
    cases h
  | succ fuel ih =>
    intro soFar vs cs rest hsoFar h
    obtain ⟨⟨v, rest'⟩, hv, h⟩ := Option.bind_eq_some_iff.mp h
    have hmore : ∀ w ∈ v :: soFar, Q w := List.forall_mem_cons.mpr ⟨hitem hv, hsoFar⟩
    dsimp only at h
    split at h
    · exact ih hmore h
    · cases Option.some.inj h
      exact fun w hw => hmore w (List.mem_reverse.mp hw)
    · cases h

theorem readMembers_forall {size : Nat} {item : List Char → Option (Value × List Char)}
    {Q : Value → Prop} (hitem : ∀ {cs v rest}, item cs = some (v, rest) → Q v) {fuel : Nat} :
    ∀ {soFar ms : List (String × Value)} {cs rest : List Char}, (∀ m ∈ soFar, Q m.2) →
      readMembers size item fuel soFar cs = some (ms, rest) → ∀ m ∈ ms, Q m.2 := by
  induction fuel with
  | zero =>
    intro soFar ms cs rest _ h
    cases h
  | succ fuel ih =>
    intro soFar ms cs rest hsoFar h
    obtain ⟨⟨name, rest'⟩, -, h⟩ := Option.bind_eq_some_iff.mp h
    obtain ⟨⟨v, rest''⟩, hv, h⟩ := Option.bind_eq_some_iff.mp h
    have hmore : ∀ m ∈ (name, v) :: soFar, Q m.2 := List.forall_mem_cons.mpr ⟨hitem hv, hsoFar⟩
    dsimp only at h
    split at h
    · exact ih hmore h
    · cases Option.some.inj h
      exact fun m hm => hmore m (List.mem_reverse.mp hm)
    · cases h

/-- The condition that every number satisfies. -/
abbrev anyNumber : Number → Prop := fun _ => True

theorem within_of_readScalar {size d : Nat} {c : Char} {cs rest : List Char} {v : Value}
    (h : readScalar size c cs = some (v, rest)) : v.Within anyNumber d := by
  unfold readScalar at h
  split at h
  case h_5 =>
    obtain ⟨_, -, h⟩ := Option.bind_eq_some_iff.mp h
    cases Option.some.inj h
    exact .number trivial
  case h_4 =>
    obtain ⟨_, -, h⟩ := Option.bind_eq_some_iff.mp h
    cases Option.some.inj h
    exact .string _
  case h_1 =>
    obtain ⟨_, -, h⟩ := Option.bind_eq_some_iff.mp h
    cases Option.some.inj h
    exact .null
  all_goals
    obtain ⟨_, -, h⟩ := Option.bind_eq_some_iff.mp h
    cases Option.some.inj h
    exact .bool _

theorem within_of_readArray {size d : Nat} {item : List Char → Option (Value × List Char)}
    {cs rest : List Char} {v : Value}
    (hitem : ∀ {cs v rest}, item cs = some (v, rest) → v.Within anyNumber d)
    (h : readArray size item cs = some (v, rest)) : v.Within anyNumber (d + 1) := by
  unfold readArray at h
  split at h
  · cases Option.some.inj h
    exact .array fun v hv => absurd hv List.not_mem_nil
  · obtain ⟨⟨items, rest'⟩, hitems, h⟩ := Option.bind_eq_some_iff.mp h
    cases Option.some.inj h
    exact .array (readItems_forall hitem (fun v hv => absurd hv List.not_mem_nil) hitems)

theorem within_of_readObject {size d : Nat} {item : List Char → Option (Value × List Char)}
    {cs rest : List Char} {v : Value}
    (hitem : ∀ {cs v rest}, item cs = some (v, rest) → v.Within anyNumber d)
    (h : readObject size item cs = some (v, rest)) : v.Within anyNumber (d + 1) := by
  unfold readObject at h
  split at h
  · cases Option.some.inj h
    exact .object fun m hm => absurd hm List.not_mem_nil
  · obtain ⟨⟨members, rest'⟩, hmembers, h⟩ := Option.bind_eq_some_iff.mp h
    cases Option.some.inj h
    exact .object (readMembers_forall hitem (fun m hm => absurd hm List.not_mem_nil) hmembers)

/-- What is read nests no deeper than the reader was told. -/
theorem within_of_readValue {size : Nat} (d : Nat) :
    ∀ {cs rest : List Char} {v : Value}, readValue size d cs = some (v, rest) →
      v.Within anyNumber d := by
  induction d with
  | zero =>
    intro cs rest v h
    unfold readValue at h
    split at h
    · cases h
    · split at h
      · cases h
      · exact within_of_readScalar h
  | succ d ih =>
    intro cs rest v h
    unfold readValue at h
    split at h
    · cases h
    · split at h
      · exact within_of_readArray ih h
      · split at h
        · exact within_of_readObject ih h
        · exact within_of_readScalar h

theorem within_of_read {d : Nat} {text : String} {v : Value} (h : read d text = some v) :
    v.Within anyNumber d := by
  obtain ⟨⟨v', rest⟩, hread, h⟩ := Option.bind_eq_some_iff.mp h
  dsimp only at h
  split at h
  · cases Option.some.inj h
    exact within_of_readValue d hread
  · cases h

end Json
end ClassCompiler
