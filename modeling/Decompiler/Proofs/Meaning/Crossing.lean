import Decompiler.Machine.Register
import Mathlib.Logic.Function.Basic

/-!
Moving an assignment behind other changes of the registers.  The changes that it can be moved
past keep its register and what its value reads, and do not look at its register.  Such changes
can be put one behind the other, so a whole list of them is crossed like a single one.
-/

namespace Decompiler

variable {V : Type*}

/-- A change of the registers that an assignment of `r` can be moved past, when its value
depends on the registers in `reads`. -/
structure Crosses (r : Register) (reads : Register → Prop)
    (change : (Register → V) → Register → V) : Prop where
  keeps : ∀ σ, change σ r = σ r
  keeps_reads : ∀ σ q, reads q → change σ q = σ q
  unread : ∀ σ τ, (∀ q ≠ r, σ q = τ q) → ∀ q ≠ r, change σ q = change τ q

namespace Crosses

variable {r : Register} {reads : Register → Prop} {change later : (Register → V) → Register → V}

theorem id : Crosses r reads (id : (Register → V) → Register → V) :=
  ⟨fun _ => rfl, fun _ _ _ => rfl, fun _ _ h => h⟩

theorem comp (hlater : Crosses r reads later) (h : Crosses r reads change) :
    Crosses r reads fun σ => later (change σ) where
  keeps σ := (hlater.keeps _).trans (h.keeps σ)
  keeps_reads σ q hq := (hlater.keeps_reads _ q hq).trans (h.keeps_reads σ q hq)
  unread σ τ hsame := hlater.unread _ _ (h.unread σ τ hsame)

theorem foldr {α : Type*} {step : α → (Register → V) → Register → V} {entries : List α}
    (h : ∀ a ∈ entries, Crosses r reads (step a)) :
    Crosses r reads fun σ => entries.foldr step σ := by
  induction entries with
  | nil => exact id
  | cons a entries ih =>
    exact (h a List.mem_cons_self).comp (ih fun b hb => h b (List.mem_cons_of_mem a hb))

/-- An assignment of another register that the value does not read, of a value that does not
depend on the register. -/
theorem update {d : Register} {value : (Register → V) → V} (hne : d ≠ r) (hunread : ¬ reads d)
    (hvalue : ∀ σ τ, (∀ q ≠ r, σ q = τ q) → value σ = value τ) :
    Crosses r reads fun σ => Function.update σ d (value σ) where
  keeps σ := Function.update_of_ne hne.symm _ _
  keeps_reads σ q hq := Function.update_of_ne (by rintro rfl; exact hunread hq) _ _
  unread σ τ hsame q hq := by
    rw [Function.update_apply, Function.update_apply, hvalue σ τ hsame, hsame q hq]

/-- Without an assignment in front of the change, only its register is different, and what its
value reads is still as it was there. -/
theorem moved (h : Crosses r reads change) (σ : Register → V) (w : V) :
    (∀ q ≠ r, change σ q = change (Function.update σ r w) q) ∧
      (∀ q, reads q → change σ q = σ q) ∧ change (Function.update σ r w) r = w := by
  refine ⟨h.unread _ _ fun q hq => ?_, h.keeps_reads σ, ?_⟩
  · rw [Function.update_of_ne hq]
  · rw [h.keeps, Function.update_self]

end Crosses

end Decompiler
