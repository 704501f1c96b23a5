import ClassCompiler.ThreeAddress.Fresh
import Mathlib.Data.List.Nodup
import Mathlib.Data.List.Perm.Subperm
import Std.Data.String.ToNat

/-!
# Fresh names are fresh

Temporaries and labels are texts with a number at the end.  That they do not clash rests on one
fact: where the text before the number has no digit, the two can be told apart again
(`numbered_inj`).

The supply of temporaries only ever grows, and passes over what is reserved.  `Settled` says of a
name that the supply will not hand it out any more, and `Gives` that it did so between two moments;
code that was made between them changes only names of the second sort.

* `tempName_firstFree`: a number whose name is not reserved is always found.
* `Fresh.temp_settled`, `Fresh.temp_gives`: a new temporary.
* `Fresh.Settled.not_gives`: what is settled stays.
* `labelNames_disjoint`: the labels of two control structures.
-/

namespace ClassCompiler
namespace ThreeAddress

/-! ## Texts with a number at the end -/

/-- No character of the text is a digit. -/
def NoDigit (s : String) : Prop :=
  ∀ c ∈ s.toList, c.isDigit = false

instance (s : String) : Decidable (NoDigit s) :=
  List.decidableBAll (fun c : Char => c.isDigit = false) s.toList

theorem takeWhile_numbered {s : String} (h : NoDigit s) (k : Nat) :
    ((s ++ toString k).toList.takeWhile fun c => !c.isDigit) = s.toList := by
  rw [String.toList_append, List.takeWhile_append_of_pos fun c hc => by simp [h c hc],
    Nat.toString_eq_ofList_toDigits, String.toList_ofList]
  cases hd : Nat.toDigits 10 k with
  | nil => exact absurd hd Nat.toDigits_ne_nil
  | cons d ds =>
    have hdigit : d.isDigit = true :=
      Nat.isDigit_of_mem_toDigits (by decide) (Nat.le_refl 10) (hd ▸ List.mem_cons_self)
    rw [List.takeWhile_cons_of_neg (by simp [hdigit]), List.append_nil]

/-- **The text and the number can be told apart.** -/
theorem numbered_inj {s s' : String} {j k : Nat} (hs : NoDigit s) (hs' : NoDigit s')
    (h : s ++ toString j = s' ++ toString k) : s = s' ∧ j = k := by
  have htext : s = s' := by
    rw [← String.toList_inj, ← takeWhile_numbered hs j, h, takeWhile_numbered hs' k]
  refine ⟨htext, ?_⟩
  rw [htext] at h
  have hlist := congrArg String.toList h
  rw [String.toList_append, String.toList_append] at hlist
  exact Nat.repr_inj.mp (String.toList_inj.mp (List.append_cancel_left hlist))

/-! ## Temporaries -/

namespace Fresh

theorem tempName_inj {j k : Nat} (h : tempName j = tempName k) : j = k := by
  have ht : NoDigit "t" := by decide
  exact (numbered_inj ht ht h).2

theorem le_firstFree (reserved : List String) (tries k : Nat) :
    k ≤ firstFree reserved tries k := by
  induction tries generalizing k with
  | zero => exact Nat.le_refl k
  | succ tries ih =>
    rw [firstFree]
    split
    · exact Nat.le_of_succ_le (ih (k + 1))
    · exact Nat.le_refl k

/-- If the search ends at a name that is taken, it has passed taken names only. -/
theorem mem_of_firstFree_mem {reserved : List String} {tries k : Nat}
    (h : tempName (firstFree reserved tries k) ∈ reserved) {i : Nat} (hi : i ≤ tries) :
    tempName (k + i) ∈ reserved := by
  induction tries generalizing k i with
  | zero =>
    rw [Nat.le_zero.mp hi]
    exact h
  | succ tries ih =>
    rw [firstFree] at h
    split at h
    · rename_i htaken
      cases i with
      | zero => simpa using htaken
      | succ i =>
        rw [Nat.add_comm i 1, ← Nat.add_assoc]
        exact ih h (Nat.le_of_succ_le_succ hi)
    · rename_i hfree
      exact absurd h (by simpa using hfree)

/-- **A number whose name is not reserved is always found**: more numbers are tried than there are
reserved names. -/
theorem tempName_firstFree (reserved : List String) (k : Nat) :
    tempName (firstFree reserved reserved.length k) ∉ reserved := by
  intro h
  have hsub : (List.range (reserved.length + 1)).map (fun i => tempName (k + i)) ⊆ reserved := by
    intro x hx
    obtain ⟨i, hi, rfl⟩ := List.mem_map.mp hx
    exact mem_of_firstFree_mem h (Nat.le_of_lt_succ (List.mem_range.mp hi))
  have hnodup : ((List.range (reserved.length + 1)).map fun i => tempName (k + i)).Nodup :=
    List.nodup_range.map fun i j hij => Nat.add_left_cancel (tempName_inj hij)
  have hlength := (hnodup.subperm hsub).length_le
  rw [List.length_map, List.length_range] at hlength
  omega

/-- What is handed out later than `f` is from the supply of `f`. -/
structure Before (f f' : Fresh) : Prop where
  reserved : f'.reserved = f.reserved
  temp : f.nextTemp ≤ f'.nextTemp
  label : f.nextLabel ≤ f'.nextLabel

/-- The name will not be handed out any more. -/
def Settled (f : Fresh) (x : String) : Prop :=
  ∀ k, f.nextTemp ≤ k → tempName k ∉ f.reserved → x ≠ tempName k

/-- The name was handed out between two moments. -/
def Gives (f f' : Fresh) (x : String) : Prop :=
  ∃ k, f.nextTemp ≤ k ∧ k < f'.nextTemp ∧ tempName k ∉ f.reserved ∧ x = tempName k

variable {f f₁ f₂ : Fresh} {x : String}

theorem Before.refl (f : Fresh) : Before f f :=
  ⟨rfl, Nat.le_refl _, Nat.le_refl _⟩

theorem Before.trans (h : Before f f₁) (h' : Before f₁ f₂) : Before f f₂ :=
  ⟨h'.reserved.trans h.reserved, Nat.le_trans h.temp h'.temp, Nat.le_trans h.label h'.label⟩

theorem settled_of_mem (h : x ∈ f.reserved) : Settled f x :=
  fun _ _ hfree hx => hfree (hx ▸ h)

theorem Settled.mono (h : Settled f x) (hle : Before f f₁) : Settled f₁ x :=
  fun k hk hfree => h k (Nat.le_trans hle.temp hk) (hle.reserved ▸ hfree)

/-- What is settled is not handed out. -/
theorem Settled.not_gives (h : Settled f x) : ¬ Gives f f₁ x :=
  fun ⟨k, hk, _, hfree, hx⟩ => h k hk hfree hx

theorem Gives.left (hle : Before f f₁) (h : Gives f₁ f₂ x) : Gives f f₂ x := by
  obtain ⟨k, hk, hlt, hfree, hx⟩ := h
  exact ⟨k, Nat.le_trans hle.temp hk, hlt, hle.reserved ▸ hfree, hx⟩

theorem Gives.right (hle : Before f₁ f₂) (h : Gives f f₁ x) : Gives f f₂ x := by
  obtain ⟨k, hk, hlt, hfree, hx⟩ := h
  exact ⟨k, hk, Nat.lt_of_lt_of_le hlt hle.temp, hfree, hx⟩

theorem not_mem_of_gives (h : Gives f f₁ x) : x ∉ f.reserved := by
  obtain ⟨k, _, _, hfree, rfl⟩ := h
  exact hfree

theorem temp_before (f : Fresh) (type : ValueType) : Before f (f.temp type).2 :=
  ⟨rfl, Nat.le_succ_of_le (le_firstFree ..), Nat.le_refl _⟩

/-- A new temporary was handed out. -/
theorem temp_gives (f : Fresh) (type : ValueType) :
    Gives f (f.temp type).2 (f.temp type).1.name :=
  ⟨_, le_firstFree .., Nat.lt_succ_self _, tempName_firstFree _ _, rfl⟩

/-- A new temporary will not be handed out again. -/
theorem temp_settled (f : Fresh) (type : ValueType) :
    Settled (f.temp type).2 (f.temp type).1.name := by
  intro k hk _ hname
  have hnumber := tempName_inj hname
  rw [← hnumber] at hk
  exact absurd hk (Nat.not_succ_le_self _)

theorem label_before (f : Fresh) : Before f f.label.2 :=
  ⟨rfl, Nat.le_refl _, Nat.le_succ _⟩

end Fresh

/-! ## Labels -/

/-- The labels that belong to a number. -/
def labelNames (k : Nat) : List String :=
  [s!"Else_{k}", s!"EndIf_{k}", s!"Loop_{k}", s!"EndLoop_{k}"]

/-- The texts of labels before the number. -/
def labelTexts : List String :=
  ["Else_", "EndIf_", "Loop_", "EndLoop_"]

theorem labelNames_eq (k : Nat) : labelNames k = labelTexts.map (· ++ toString k) := rfl

theorem noDigit_of_mem_labelTexts {s : String} (h : s ∈ labelTexts) : NoDigit s := by
  revert s
  decide

theorem labelNames_nodup (k : Nat) : (labelNames k).Nodup := by
  rw [labelNames_eq]
  refine List.Nodup.map_on (fun s hs s' hs' h => ?_) (by decide)
  exact (numbered_inj (noDigit_of_mem_labelTexts hs) (noDigit_of_mem_labelTexts hs') h).1

/-- **The labels of different numbers are different.** -/
theorem labelNames_disjoint {j k : Nat} {name : String} (hj : name ∈ labelNames j)
    (hk : name ∈ labelNames k) : j = k := by
  rw [labelNames_eq] at hj hk
  obtain ⟨s, hs, rfl⟩ := List.mem_map.mp hj
  obtain ⟨s', hs', h⟩ := List.mem_map.mp hk
  exact (numbered_inj (noDigit_of_mem_labelTexts hs') (noDigit_of_mem_labelTexts hs) h).2.symm

end ThreeAddress
end ClassCompiler
