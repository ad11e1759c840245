import Decompiler.Proofs.Fold.Operands
import Decompiler.Proofs.Meaning.Crossing
import Decompiler.Proofs.Meaning.Values

/-!
What the entries of the stack still have to do.  An entry that waits is an assignment that
comes later; popping it moves the value past the entries above it.  That is harmless for one
operand.  Several operands are popped one after the other, and there a value that was popped
may read a register whose own assignment is popped after it.
-/

namespace Decompiler

open List RegisterSet

variable {p : Pool} {σ : Registers} {r : Register} {t : FormTree} {effects : Bool}
  {E E' : List Held} {a : Atom}

namespace Pool

/-- Operands clash when a value was popped for one of them that reads the register of an
operand before it, whose value was popped as well. -/
def clash (p : Pool) : List (Atom × Option FormId) → Bool
  | [] => false
  | (a, popped) :: later =>
    (popped.isSome && later.any fun operand =>
      operand.2.any fun f => a.register?.any (p.formReadRegisters f).contains) || p.clash later

theorem clash_cons_eq_false {a : Atom} {popped : Option FormId}
    {later : List (Atom × Option FormId)} (h : p.clash ((a, popped) :: later) = false) :
    p.clash later = false ∧ (popped.isSome = true → ∀ r, a.register? = some r →
      ∀ b f, (b, some f) ∈ later → r ∉ p.formReadRegisters f) := by
  rw [clash, Bool.or_eq_false_iff] at h
  refine ⟨h.2, ?_⟩
  intro hpopped r hr b f hmem hread
  have hany : later.any (fun operand => operand.2.any fun g =>
      a.register?.any (p.formReadRegisters g).contains) = true := by
    refine any_eq_true.2 ⟨(b, some f), hmem, ?_⟩
    rw [hr]
    exact hread
  rw [hpopped, hany] at h
  cases h.1

theorem Owns.of_mem {rs : List Root} {t : FormTree} (h : p.Owns rs) (ht : .tree t ∈ rs) :
    p.Holds t ∧ t.elements.Nodup := by
  have hone : p.Owns [.tree t] := h.one ht
  exact ⟨hone.tree_holds, hone.tree_elements_nodup⟩

end Pool

namespace Stack

theorem not_intersects {s t : RegisterSet} (h : s.intersects t = false) (hs : r ∈ s) : r ∉ t := by
  intro ht
  have hempty : s ∩ t = ∅ := by
    rw [RegisterSet.intersects, Bool.not_eq_false'] at h
    exact beq_iff_eq.1 h
  have hmem : r ∈ s ∩ t := mem_inter.2 ⟨hs, ht⟩
  rw [hempty] at hmem
  exact not_mem_empty r hmem

/-- A value that may be popped reads nothing that a skipped entry writes, and no skipped entry
reads its register. -/
theorem Passes.apart {p : Pool} {barrier : RegisterSet} {effects : Bool} {above : List Pending}
    {f : FormId} (h : Passes p r barrier effects above f) {q : Pending} (hq : q ∈ above) :
    r ∉ q.reads p ∧ ∀ x ∈ p.formReadRegisters f, x ∉ q.writes p := by
  have hmay := h.may
  simp only [mayPop, Bool.and_eq_true, Bool.not_eq_true'] at hmay
  obtain ⟨⟨-, hwritten⟩, hread⟩ := hmay
  refine ⟨fun hr => ?_, fun x hx hw => ?_⟩
  · cases hread.symm.trans (Skipped.mem_reads.2 (.inr ⟨q, hq, hr⟩))
  · exact not_intersects hwritten hx (Skipped.mem_writes.2 (.inr ⟨q, hq, hw⟩))

end Stack

namespace Held.Pops

variable {barrier : RegisterSet}

theorem sublist (h : Pops p r barrier effects E t E') : E'.Sublist E := by
  cases h with
  | intro => exact (sublist_cons_self _ _).append_left _

theorem mem (h : Pops p r barrier effects E t E') :
    ∃ dst ordered notes, .value dst t ordered notes ∈ E := by
  cases h with
  | intro => exact ⟨_, _, _, mem_append_right _ mem_cons_self⟩

/-- A value that is popped can be moved past the assignments above it. -/
theorem crosses {above below : List Held} {dst d : Variable} {u : FormTree} {ordered o : Bool}
    {notes n : SetNotes}
    (howns : p.Owns ((above ++ .value dst t ordered notes :: below).map Held.root))
    (hpasses : Stack.Passes p r barrier effects (above.map Held.pending) t.id)
    (hheld : .value d u o n ∈ above) :
    d.register ≠ r ∧ d.register ∉ t.reads ∧ r ∉ u.reads := by
  have htree : p.Holds t ∧ t.elements.Nodup :=
    howns.of_mem (mem_map.2 ⟨_, mem_append_right _ mem_cons_self, rfl⟩)
  have hu : p.Holds u ∧ u.elements.Nodup :=
    howns.of_mem (mem_map.2 ⟨_, mem_append_left _ hheld, rfl⟩)
  obtain ⟨hread, hwritten⟩ := hpasses.apart (mem_map_of_mem hheld)
  refine ⟨?_, ?_, ?_⟩
  · intro hd
    have hnone := (hpasses.clear _ (mem_map_of_mem hheld)).1
    rw [Held.pending, Pending.valueFor?, if_pos hd] at hnone
    cases hnone
  · intro hd
    refine hwritten _ ((htree.1.mem_formReadRegisters htree.2).2 hd) ?_
    exact mem_union.2 (.inl (mem_single.2 rfl))
  · exact fun hr => hread ((hu.1.mem_formReadRegisters hu.2).2 hr)

end Held.Pops

namespace Context

def clashes (cx : Context) (site : Nat) (atoms : List Atom) (s : FoldState) : Bool :=
  s.pool.clash (atoms.zip (cx.popOperands site atoms (cx.consumed s.verbatim site) true s).1)

def poppedRegisters {α : Type} (as : List Atom) (os : List (Option α)) : List Register :=
  (as.zip os).filterMap fun operand => operand.2.bind fun _ => operand.1.register?

theorem poppedRegisters_map {α β : Type} (f : α → β) (as : List Atom) (os : List (Option α)) :
    poppedRegisters as (os.map (Option.map f)) = poppedRegisters as os := by
  rw [poppedRegisters, poppedRegisters, zip_map_right, filterMap_map]
  refine filterMap_congr fun operand _ => ?_
  cases h : operand.2 <;> simp [h]

def takes (cx : Context) (site : Nat) (atoms : List Atom) (s : FoldState) : List Register :=
  poppedRegisters atoms (cx.popOperands site atoms (cx.consumed s.verbatim site) true s).1

variable {atoms as : List Atom} {consumed : RegisterSet} {os : List (Option FormTree)}

theorem poppedRegisters_some (hr : a.register? = some r) (t : FormTree) (as : List Atom)
    (os : List (Option FormTree)) :
    poppedRegisters (a :: as) (some t :: os) = r :: poppedRegisters as os := by
  rw [poppedRegisters, zip_cons_cons, filterMap_cons]
  simp only [Option.bind_some, hr]
  rfl

namespace OperandPops

section

variable (h : OperandPops p atoms consumed effects as E os E')
include h

/-- Only a register that is read for the last time, and by one operand, is popped. -/
theorem of_mem_popped (hr : r ∈ poppedRegisters as os) :
    r ∈ consumed ∧ (atoms.filterMap Atom.register?).count r = 1 ∧
      r ∈ as.filterMap Atom.register? := by
  induction h with
  | nil => cases hr
  | @cons a as o os E E' E'' hrest hpop ih =>
    have htail : r ∈ poppedRegisters as os → r ∈ consumed ∧
        (atoms.filterMap Atom.register?).count r = 1 ∧
          r ∈ (a :: as).filterMap Atom.register? := by
      intro hr
      obtain ⟨hconsumed, honce, hmem⟩ := ih hr
      obtain ⟨b, hb, hbr⟩ := mem_filterMap.1 hmem
      exact ⟨hconsumed, honce, mem_filterMap.2 ⟨b, mem_cons_of_mem _ hb, hbr⟩⟩
    cases hpop with
    | kept => exact htail hr
    | @popped q E' E'' t hreg hconsumed honce hpops =>
      rw [poppedRegisters_some hreg] at hr
      rcases mem_cons.1 hr with rfl | hr
      · exact ⟨hconsumed, honce, mem_filterMap.2 ⟨a, mem_cons_self, hreg⟩⟩
      · exact htail hr

theorem sublist : E'.Sublist E := by
  induction h with
  | nil => exact List.Sublist.refl _
  | cons hrest hpop ih =>
    cases hpop with
    | kept => exact ih
    | popped hreg hconsumed honce hpops => exact hpops.sublist.trans ih

theorem mem (ht : some t ∈ os) :
    ∃ dst ordered notes, .value dst t ordered notes ∈ E := by
  induction h with
  | nil => cases ht
  | cons hrest hpop ih =>
    rcases mem_cons.1 ht with rfl | ht
    · cases hpop with
      | popped hreg hconsumed honce hpops =>
        obtain ⟨dst, ordered, notes, hmem⟩ := hpops.mem
        exact ⟨dst, ordered, notes, hrest.sublist.subset hmem⟩
    · exact ih ht

end

/-- A register that one of the operands is popped for is not read by the operands behind it. -/
theorem not_mem_of_once (hsuffix : a :: as <:+ atoms) (hr : a.register? = some r)
    (honce : (atoms.filterMap Atom.register?).count r = 1) : r ∉ as.filterMap Atom.register? := by
  intro hmem
  have hle := (hsuffix.sublist.filterMap Atom.register?).count_le r
  have hpos := count_pos_iff.2 hmem
  rw [filterMap_cons_some hr, count_cons_self] at hle
  omega

end OperandPops

/-- What is popped for an instruction dies in it, and is among its operands. -/
theorem mem_takes {cx : Context} {s : FoldState} {hs : List Root} {site : Nat} {q : Register}
    (h : s.Lists E hs) (hq : q ∈ cx.takes site atoms s) :
    q ∈ cx.consumed s.verbatim site ∧ q ∈ atoms.filterMap Atom.register? := by
  have hpop : (cx.popOperands site atoms (cx.consumed s.verbatim site) true).Ends s _ :=
    popOperands_lists h
  obtain ⟨os, E', hpopped, hpops, -⟩ := hpop
  rw [takes, hpopped, poppedRegisters_map] at hq
  obtain ⟨hconsumed, -, hmem⟩ := hpops.of_mem_popped hq
  exact ⟨hconsumed, hmem⟩

end Context

end Decompiler
