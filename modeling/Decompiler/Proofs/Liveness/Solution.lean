import Decompiler.Machine.Liveness
import Mathlib.Data.Finset.Card
import Mathlib.Data.Finset.Prod
import Mathlib.Data.Fintype.EquivFin

/-!
The liveness equations of a routine.  Recomputing the sets of a block is monotone, so sets
that start empty only grow from sweep to sweep.  There are finitely many registers, so
sweeping stops at sets that satisfy the equations of all blocks.
-/

namespace Decompiler

open RegisterSet

instance : Fintype Register :=
  Fintype.ofEquiv (Fin 67) ⟨Register.mk, Register.index, fun _ => rfl, fun _ => rfl⟩

theorem Register.card_eq_count : Fintype.card Register = Register.count :=
  Fintype.ofEquiv_card _

inductive BlockEnd
  | entry
  | exit
deriving DecidableEq

instance : Fintype BlockEnd := ⟨{.entry, .exit}, fun side => by cases side <;> simp⟩

namespace Liveness

variable {s t : Liveness}

def sets (s : Liveness) : BlockEnd → Array RegisterSet
  | .entry => s.entering
  | .exit => s.leaving

def live (s : Liveness) (side : BlockEnd) (b : BlockId) : RegisterSet := (s.sets side).getD b ∅

/-- One solution holds no register that another one lacks. -/
def Below (s t : Liveness) : Prop := ∀ side b q, q ∈ s.live side b → q ∈ t.live side b

/-- One set for each end of the first `n` blocks. -/
def Sized (s : Liveness) (n : Nat) : Prop := ∀ side, (s.sets side).size = n

theorem Below.refl (s : Liveness) : s.Below s := fun _ _ _ hq => hq

theorem Below.trans {u : Liveness} (hst : s.Below t) (htu : t.Below u) : s.Below u :=
  fun side b q hq => htu side b q (hst side b q hq)

/-- What a solution says, as a finite set of facts. -/
def facts (s : Liveness) (n : Nat) : Finset (BlockEnd × Nat × Register) :=
  (Finset.univ ×ˢ Finset.range n ×ˢ Finset.univ).filter fun fact =>
    fact.2.2 ∈ s.live fact.1 fact.2.1

theorem card_facts_le (s : Liveness) (n : Nat) : (s.facts n).card ≤ 2 * Register.count * n := by
  have hall : (Finset.univ ×ˢ Finset.range n ×ˢ Finset.univ :
      Finset (BlockEnd × Nat × Register)).card = 2 * (n * Register.count) := by
    rw [Finset.card_product, Finset.card_product, Finset.card_range, Finset.card_univ,
      Finset.card_univ, Register.card_eq_count]
    rfl
  refine (Finset.card_filter_le _ _).trans (hall.le.trans ?_)
  rw [Nat.mul_assoc, Nat.mul_comm n]

theorem facts_subset (h : s.Below t) (n : Nat) : s.facts n ⊆ t.facts n := by
  intro fact hfact
  simp only [facts, Finset.mem_filter] at hfact ⊢
  exact ⟨hfact.1, h _ _ _ hfact.2⟩

/-- Solutions with the same facts are the same. -/
theorem eq_of_facts {n : Nat} (hs : s.Sized n) (ht : t.Sized n) (h : s.facts n = t.facts n) :
    s = t := by
  have hsets : ∀ side, s.sets side = t.sets side := by
    intro side
    apply Array.ext
    · rw [hs side, ht side]
    · intro b hbs hbt
      have hat : s.live side b = t.live side b := by
        apply ext_mem
        intro q
        have hfact := Finset.ext_iff.1 h (side, b, q)
        have hb : b < n := hs side ▸ hbs
        simpa [facts, hb] using hfact
      simpa [Liveness.live, Array.getD, hbs, hbt] using hat
  obtain ⟨entering, leaving⟩ := s
  obtain ⟨entering', leaving'⟩ := t
  have hentry : entering = entering' := hsets .entry
  have hexit : leaving = leaving' := hsets .exit
  rw [hentry, hexit]

end Liveness

namespace Routine

variable {r : Routine} {s t : Liveness} {block : Block} {b position : BlockId} {q : Register}
  {n : Nat} {P : Liveness → Prop}

theorem mem_leavingSet {entering : Array RegisterSet} :
    q ∈ r.leavingSet entering block ↔
      (block.successors = [] ∧ q = r.resultRegister) ∨
        ∃ next ∈ block.successors, q ∈ entering.getD next ∅ := by
  unfold leavingSet
  split
  · rename_i hempty
    rw [List.isEmpty_iff] at hempty
    simp [hempty]
  · rename_i hempty
    rw [List.isEmpty_iff] at hempty
    rw [mem_foldl_union]
    simp only [not_mem_empty, hempty, false_or, false_and]

/-- What the equations of a block give at one of its ends. -/
def recomputed (r : Routine) (s : Liveness) (block : Block) : BlockEnd → RegisterSet
  | .entry => r.enteringSet block (r.leavingSet s.entering block)
  | .exit => r.leavingSet s.entering block

theorem recomputed_mono (h : s.Below t) (side : BlockEnd) (hq : q ∈ r.recomputed s block side) :
    q ∈ r.recomputed t block side := by
  have hleaving : ∀ q, q ∈ r.leavingSet s.entering block → q ∈ r.leavingSet t.entering block := by
    intro q hq
    rw [mem_leavingSet] at hq ⊢
    rcases hq with hresult | ⟨next, hnext, hq⟩
    · exact Or.inl hresult
    · exact Or.inr ⟨next, hnext, h .entry next q hq⟩
  cases side with
  | entry =>
    simp only [recomputed, enteringSet, mem_union, mem_diff] at hq ⊢
    rcases hq with hread | ⟨hlive, hkept⟩
    · exact Or.inl hread
    · exact Or.inr ⟨hleaving q hlive, hkept⟩
  | exit => exact hleaving q hq

theorem sized_noLiveness : r.noLiveness.Sized r.blocks.size := by
  intro side
  cases side <;> exact Array.size_replicate

theorem sized_updateBlock (h : s.Sized r.blocks.size) :
    (r.updateBlock s position).Sized r.blocks.size := by
  intro side
  unfold updateBlock
  split
  · exact h side
  · cases side
    · exact Array.size_setIfInBounds.trans (h .entry)
    · exact Array.size_setIfInBounds.trans (h .exit)

theorem updateBlock_eq (hblock : r.blocks[position]? = some block) (side : BlockEnd) :
    (r.updateBlock s position).sets side =
      (s.sets side).setIfInBounds position (r.recomputed s block side) := by
  rw [updateBlock, hblock]
  cases side <;> rfl

/-- Recomputing a block replaces its own sets. -/
theorem live_updateBlock_self (h : s.Sized r.blocks.size)
    (hblock : r.blocks[position]? = some block) (side : BlockEnd) :
    (r.updateBlock s position).live side position = r.recomputed s block side := by
  have hlt : position < (s.sets side).size := by
    rw [h side]
    exact (Array.getElem?_eq_some_iff.1 hblock).1
  rw [Liveness.live, updateBlock_eq hblock, Array.getD_eq_getD_getElem?,
    Array.getElem?_setIfInBounds_self_of_lt hlt]
  rfl

theorem live_updateBlock_ne (hne : b ≠ position) (side : BlockEnd) :
    (r.updateBlock s position).live side b = s.live side b := by
  cases hblock : r.blocks[position]? with
  | none => rw [updateBlock, hblock]
  | some block =>
    rw [Liveness.live, updateBlock_eq hblock, Array.getD_eq_getD_getElem?,
      Array.getElem?_setIfInBounds_ne (Ne.symm hne), ← Array.getD_eq_getD_getElem?]
    rfl

theorem updateBlock_none (hblock : r.blocks[position]? = none) : r.updateBlock s position = s := by
  rw [updateBlock, hblock]

/-- Recomputing a block is monotone. -/
theorem updateBlock_mono (hs : s.Sized r.blocks.size) (ht : t.Sized r.blocks.size) (h : s.Below t)
    (position : BlockId) : (r.updateBlock s position).Below (r.updateBlock t position) := by
  intro side b q hq
  cases hblock : r.blocks[position]? with
  | none =>
    rw [updateBlock_none hblock] at hq ⊢
    exact h side b q hq
  | some block =>
    by_cases hb : b = position
    · subst hb
      rw [live_updateBlock_self hs hblock] at hq
      rw [live_updateBlock_self ht hblock]
      exact recomputed_mono h side hq
    · rw [live_updateBlock_ne hb] at hq ⊢
      exact h side b q hq

/-- Sets that only grow when the sets of a block are recomputed. -/
structure Rising (r : Routine) (s : Liveness) : Prop where
  sized : s.Sized r.blocks.size
  grows : ∀ position, s.Below (r.updateBlock s position)

theorem noLiveness_live (side : BlockEnd) (b : BlockId) : r.noLiveness.live side b = ∅ := by
  have hset : (Array.replicate r.blocks.size (∅ : RegisterSet)).getD b ∅ = ∅ := by
    rw [Array.getD_eq_getD_getElem?, Array.getElem?_replicate]
    split <;> rfl
  cases side <;> exact hset

theorem rising_noLiveness : r.Rising r.noLiveness := by
  refine ⟨sized_noLiveness, fun position side b q hq => ?_⟩
  rw [noLiveness_live] at hq
  exact absurd hq (not_mem_empty q)

section

variable (h : r.Rising s)
include h

theorem Rising.updateBlock (position : BlockId) : r.Rising (r.updateBlock s position) := by
  refine ⟨sized_updateBlock h.sized, fun other side b q hq => ?_⟩
  -- Only the sets of `other` are replaced, by what its equations give for larger sets.
  by_cases hb : b = other
  · subst hb
    have hmono := updateBlock_mono h.sized (sized_updateBlock h.sized) (h.grows position) b
    by_cases hposition : b = position
    · subst hposition
      exact hmono side b q hq
    · rw [live_updateBlock_ne hposition] at hq
      exact hmono side b q (h.grows b side b q hq)
  · rw [live_updateBlock_ne hb]
    exact hq

theorem Rising.sweepBelow (n : Nat) : r.Rising (r.sweepBelow n s) := by
  induction n generalizing s with
  | zero => exact h
  | succ n ih => exact ih (h.updateBlock n)

theorem Rising.below_sweepBelow (n : Nat) : s.Below (r.sweepBelow n s) := by
  induction n generalizing s with
  | zero => exact .refl s
  | succ n ih => exact (h.grows n).trans (ih (h.updateBlock n))

/-- A sweep gives at least what recomputing any one block gives. -/
theorem Rising.updateBlock_below (hposition : position < n) :
    (r.updateBlock s position).Below (r.sweepBelow n s) := by
  induction n generalizing s with
  | zero => cases hposition
  | succ n ih =>
    have hstep := h.updateBlock n
    rcases Nat.lt_succ_iff_lt_or_eq.1 hposition with hlt | rfl
    · exact (updateBlock_mono h.sized hstep.sized (h.grows n) position).trans (ih hstep hlt)
    · exact hstep.below_sweepBelow position

/-- Every sweep that changes anything adds a fact. -/
theorem Rising.card_lt_sweep (hne : r.sweep s ≠ s) :
    (s.facts r.blocks.size).card < ((r.sweep s).facts r.blocks.size).card := by
  apply Finset.card_lt_card
  refine Finset.ssubset_iff_subset_ne.2
    ⟨Liveness.facts_subset (h.below_sweepBelow _) _, fun hfacts => hne ?_⟩
  exact (Liveness.eq_of_facts h.sized (h.sweepBelow _).sized hfacts).symm

/-- Sweeping is done when it stops, if it may go on for as long as facts can be added. -/
theorem Rising.sweep_sweepUntilStable
    (hn : 2 * Register.count * r.blocks.size < n + (s.facts r.blocks.size).card) :
    r.sweep (r.sweepUntilStable n s) = r.sweepUntilStable n s := by
  induction n generalizing s with
  | zero =>
    have hle := s.card_facts_le r.blocks.size
    omega
  | succ n ih =>
    rw [sweepUntilStable]
    split
    · assumption
    · rename_i hne
      have hlt := h.card_lt_sweep hne
      exact ih (h.sweepBelow _) (by omega)

end

theorem sweepUntilStable_induct (hstep : ∀ s position, P s → P (r.updateBlock s position))
    (hs : P s) (n : Nat) : P (r.sweepUntilStable n s) := by
  have hsweep : ∀ n s, P s → P (r.sweepBelow n s) := by
    intro n
    induction n with
    | zero => exact fun s hs => hs
    | succ n ih => exact fun s hs => ih _ (hstep s n hs)
  induction n generalizing s with
  | zero => exact hs
  | succ n ih =>
    rw [sweepUntilStable]
    split
    · exact hs
    · exact ih (hsweep _ s hs)

/-- What holds of empty sets and is kept when a block is recomputed holds of the solution. -/
theorem liveness_induct (hstart : P r.noLiveness)
    (hstep : ∀ s position, P s → P (r.updateBlock s position)) : P r.liveness :=
  sweepUntilStable_induct hstep hstart _

theorem rising_liveness : r.Rising r.liveness :=
  liveness_induct rising_noLiveness fun _ position h => h.updateBlock position

theorem sweep_liveness : r.sweep r.liveness = r.liveness := by
  apply rising_noLiveness.sweep_sweepUntilStable
  omega

/-- The solution satisfies the equations of every block. -/
theorem liveness_live (hblock : r.blocks[b]? = some block) (side : BlockEnd) :
    r.liveness.live side b = r.recomputed r.liveness block side := by
  have hrising : r.Rising r.liveness := rising_liveness
  have hlt : b < r.blocks.size := (Array.getElem?_eq_some_iff.1 hblock).1
  have hstable : (r.updateBlock r.liveness b).Below r.liveness := by
    have hsweep := hrising.updateBlock_below hlt
    rwa [show r.sweepBelow r.blocks.size r.liveness = r.liveness from sweep_liveness] at hsweep
  rw [← live_updateBlock_self hrising.sized hblock]
  apply ext_mem
  intro q
  exact ⟨hrising.grows b side b q, hstable side b q⟩

end Routine

end Decompiler
