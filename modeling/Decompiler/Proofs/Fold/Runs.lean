import Decompiler.Machine.Assembly
import Decompiler.Proofs.Fold.Tame
import Decompiler.Typing.TypeTable

/-!
Folding the instructions of a routine in order, from the first one on.  Elements are only
ever added, so the instruction that an element comes from can be told from its handle.
-/

namespace Decompiler

namespace Context

/-- The state in which an instruction is folded, when those before it were folded in order. -/
def foldedBefore (cx : Context) (log : EventLog) (site : Nat) : FoldState :=
  (((List.range site).forM cx.pushInstruction).run (FoldState.start log)).2

/-- The context of a routine without declared types. -/
def untyped (r : Routine) : Context := .of r (({} : TypeTable).env r) .standard

/-- Assembles and folds a program without declared types, and checks what is left. -/
def foldsTo (name : String) (program : List Statement)
    (check : Routine → FoldState → Bool) : Bool :=
  match assemble name program with
  | .ok r =>
    match ((List.range r.code.size).forM (untyped r).pushInstruction).run (.start .empty) with
    | (.ok (), s) => check r s
    | (.error _, _) => false
  | .error _ => false

theorem foldsTo_eq_true {name : String} {program : List Statement}
    {check : Routine → FoldState → Bool} (h : foldsTo name program check = true) :
    ∃ r s, assemble name program = .ok r ∧
      ((List.range r.code.size).forM (untyped r).pushInstruction).run (.start .empty) =
        (.ok (), s) ∧ check r s = true := by
  unfold foldsTo at h
  split at h
  · rename_i r hr
    split at h
    · rename_i s hrun
      exact ⟨r, s, hr, hrun, h⟩
    · cases h
  · cases h

/-- The instruction that an element comes from. -/
def origin (cx : Context) (log : EventLog) (e : ElementId) : Nat :=
  (List.range cx.routine.code.size).findIdx fun site =>
    e.index < (cx.foldedBefore log (site + 1)).pool.elements.size

variable {cx : Context} {log : EventLog} {s : FoldState} {k n : Nat}

section

variable (h : ((List.range n).forM cx.pushInstruction).run (.start log) = (.ok (), s))
include h

theorem foldedBefore_eq : cx.foldedBefore log n = s := by
  rw [foldedBefore, h]

theorem run_range_succ {s' : FoldState} (hnext : (cx.pushInstruction n).run s = (.ok (), s')) :
    ((List.range (n + 1)).forM cx.pushInstruction).run (.start log) = (.ok (), s') := by
  rw [List.range_succ, List.forM_eq_forM, List.forM_append]
  exact (TryFoldM.run_bind_of_ok h).trans (TryFoldM.run_bind_of_ok hnext)

/-- When instructions can be folded one after the other, so can each of them. -/
theorem run_foldedBefore (hk : k < n) :
    (cx.pushInstruction k).run (cx.foldedBefore log k) = (.ok (), cx.foldedBefore log (k + 1)) := by
  induction n generalizing s with
  | zero => cases hk
  | succ n ih =>
    have hsplit := h
    rw [List.range_succ, List.forM_eq_forM, List.forM_append] at hsplit
    obtain ⟨⟨⟩, s', hbefore, hlast⟩ := TryFoldM.run_bind_eq_ok hsplit
    obtain ⟨⟨⟩, s'', hlast, hend⟩ := TryFoldM.run_bind_eq_ok hlast
    cases hend
    rcases Nat.lt_succ_iff_lt_or_eq.1 hk with hlt | rfl
    · exact ih hbefore hlt
    · rw [foldedBefore_eq hbefore, foldedBefore_eq h]
      exact hlast

/-- The number of elements never falls. -/
theorem size_foldedBefore_le {j : Nat} (hj : j ≤ k) (hk : k ≤ n) :
    (cx.foldedBefore log j).pool.elements.size ≤ (cx.foldedBefore log k).pool.elements.size := by
  induction k with
  | zero => exact Nat.le_of_eq (by rw [Nat.le_zero.1 hj])
  | succ k ih =>
    rcases Nat.le_succ_iff.1 hj with hle | rfl
    · have hadvance := ((cx.pushInstruction_tame k).advances _).of_run (run_foldedBefore h hk)
      exact Nat.le_trans (ih hle (Nat.le_of_succ_le hk)) hadvance.size
    · exact Nat.le_refl _

end

variable {e : ElementId}

/-- An element that an instruction added comes from it, also when the instructions behind are not
folded yet. -/
theorem origin_eq_of_run
    (h : ((List.range n).forM cx.pushInstruction).run (.start log) = (.ok (), s)) (hk : k < n)
    (hn : n ≤ cx.routine.code.size) (hnew : (cx.foldedBefore log k).pool.elements.size ≤ e.index)
    (hold : e.index < (cx.foldedBefore log (k + 1)).pool.elements.size) : cx.origin log e = k := by
  rw [origin, List.findIdx_eq (by rw [List.length_range]; exact Nat.lt_of_lt_of_le hk hn)]
  refine ⟨by simpa using hold, fun j hj => ?_⟩
  have hle := size_foldedBefore_le h (Nat.succ_le_of_lt hj) (Nat.le_of_lt hk)
  simpa using Nat.le_trans hle hnew

theorem origin_eq
    (h : ((List.range cx.routine.code.size).forM cx.pushInstruction).run (.start log) = (.ok (), s))
    (hk : k < cx.routine.code.size) (hnew : (cx.foldedBefore log k).pool.elements.size ≤ e.index)
    (hold : e.index < (cx.foldedBefore log (k + 1)).pool.elements.size) : cx.origin log e = k :=
  origin_eq_of_run h hk (Nat.le_refl _) hnew hold

end Context

end Decompiler
