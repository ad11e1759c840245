import Decompiler.Proofs.Fold.Held

/-!
What is taken off the stack and given back.  To take an entry is to mark it, so the checkpoint
of a stack brings back whatever was taken off it since.  A step that takes something off the stack
of a state either finds nothing or leaves a stack that the checkpoint undoes.
-/

namespace Decompiler

open List

namespace Stack

/-- What the entries hold, the latest first, active or not. -/
def contents (s : Stack) : List Pending := s.entries.map Entry.pending

/-- Entries that take the marks of others with the same contents become these. -/
theorem zipWith_active {entries entries' : List Entry}
    (h : entries.map Entry.pending = entries'.map Entry.pending) :
    entries.zipWith (fun entry active => { entry with active }) (entries'.map Entry.active) =
      entries' := by
  induction entries' generalizing entries with
  | nil => exact zipWith_nil_right
  | cons entry' entries' ih =>
    obtain ⟨entry, entries, rfl, hentry, hrest⟩ := map_eq_cons_iff.1 h
    rw [map_cons, zipWith_cons_cons, ih hrest, hentry]

/-- A checkpoint brings back its stack from any stack that has the same entries below others. -/
theorem restore_checkpoint {s s' : Stack} (h : s.contents <:+ s'.contents) :
    s'.restore s.checkpoint = s := by
  obtain ⟨held, hsplit⟩ := h
  obtain ⟨above, below, hentries, -, hbelow⟩ := map_eq_append_iff.1 hsplit.symm
  have hlength : below.length = s.entries.length := by simpa [contents] using congrArg length hbelow
  have hzip : (below.reverse ++ above.reverse).zipWith (fun entry active => { entry with active })
      ((s.entries.map Entry.active).reverse ++ []) = s.entries.reverse := by
    rw [zipWith_append (by simp [hlength]), zipWith_nil_right, append_nil,
      ← reverse_zipWith (by simp [hlength]), zipWith_active hbelow]
  rw [append_nil] at hzip
  rw [restore, checkpoint, hentries, reverse_append, hzip, reverse_reverse]

/-- The entries after some that were active have been taken, and what these held. -/
inductive Spends : List Entry → List Pending → List Entry → Prop
  | nil : Spends [] [] []
  | keep (entry : Entry) {before after : List Entry} {taken : List Pending}
      (h : Spends before taken after) : Spends (entry :: before) taken (entry :: after)
  | take (q : Pending) {before after : List Entry} {taken : List Pending}
      (h : Spends before taken after) :
      Spends (⟨q, true⟩ :: before) (q :: taken) (⟨q, false⟩ :: after)

namespace Spends

variable {before middle after : List Entry} {taken taken' : List Pending}

theorem refl (entries : List Entry) : Spends entries [] entries := by
  induction entries with
  | nil => exact .nil
  | cons entry entries ih => exact .keep entry ih

theorem one (above : List Entry) (q : Pending) (below : List Entry) :
    Spends (above ++ ⟨q, true⟩ :: below) [q] (above ++ ⟨q, false⟩ :: below) := by
  induction above with
  | nil => exact .take q (.refl below)
  | cons entry above ih => exact .keep entry ih

theorem trans (h : Spends before taken middle) (h' : Spends middle taken' after) :
    ∃ all, Spends before all after ∧ all.Perm (taken ++ taken') := by
  induction h generalizing taken' after with
  | nil =>
    cases h'
    exact ⟨[], .nil, .refl _⟩
  | keep entry _ ih =>
    cases h' with
    | keep _ h' =>
      obtain ⟨all, hall, hperm⟩ := ih h'
      exact ⟨all, .keep entry hall, hperm⟩
    | take q h' =>
      obtain ⟨all, hall, hperm⟩ := ih h'
      exact ⟨q :: all, .take q hall, (hperm.cons q).trans perm_middle.symm⟩
  | take q _ ih =>
    -- An entry that has been taken is not taken again.
    cases h' with
    | keep _ h' =>
      obtain ⟨all, hall, hperm⟩ := ih h'
      exact ⟨q :: all, .take q hall, hperm.cons q⟩

/-- Every entry that is taken makes one active entry less. -/
theorem countP_eq (h : Spends before taken after) :
    before.countP Entry.active = after.countP Entry.active + taken.length := by
  induction h with
  | nil => rfl
  | keep entry _ ih =>
    rw [countP_cons, countP_cons, ih]
    omega
  | take q _ ih =>
    rw [countP_cons_of_pos rfl, countP_cons_of_neg Bool.false_ne_true, ih, length_cons]
    omega

theorem ne_of_ne_nil (h : Spends before taken after) (htaken : taken ≠ []) : after ≠ before := by
  rintro rfl
  have hcount := h.countP_eq
  have hlength := length_pos_iff.2 htaken
  omega

theorem eq_of_nil (h : Spends before [] after) : after = before := by
  generalize hnil : ([] : List Pending) = taken at h
  induction h with
  | nil => rfl
  | keep entry _ ih => rw [ih hnil]
  | take q _ _ => cases hnil

theorem one_splits {q : Pending} (h : Spends before [q] after) :
    ∃ above below, before = above ++ ⟨q, true⟩ :: below ∧ after = above ++ ⟨q, false⟩ :: below := by
  generalize hone : [q] = taken at h
  induction h with
  | nil => cases hone
  | keep entry _ ih =>
    obtain ⟨above, below, rfl, rfl⟩ := ih hone
    exact ⟨entry :: above, below, rfl, rfl⟩
  | take q h _ =>
    cases hone
    exact ⟨[], _, rfl, h.eq_of_nil ▸ rfl⟩

theorem map_pending_eq (h : Spends before taken after) :
    after.map Entry.pending = before.map Entry.pending := by
  induction h with
  | nil => rfl
  | keep _ _ ih => exact congrArg (_ :: ·) ih
  | take _ _ ih => exact congrArg (_ :: ·) ih

/-- The checkpoint of a stack brings back whatever was taken off it. -/
theorem restore_eq {s s' : Stack} (h : Spends s.entries taken s'.entries) :
    s'.restore s.checkpoint = s := by
  have hsame : s'.contents = s.contents := h.map_pending_eq
  exact restore_checkpoint (hsame ▸ suffix_refl s.contents)

end Spends

theorem takeFirst_spends {α : Type} {a : α} {offer : Pending → Option α} {may : Skipped → α → Bool}
    {passes : Pending → Bool} {p : Pool} {s s' : Stack}
    (h : s.takeFirst p offer may passes = some (a, s')) :
    ∃ q, offer q = some a ∧ Spends s.entries [q] s'.entries := by
  obtain ⟨above, q, below, hbefore, hafter, hq, -⟩ := takeFirst_splits h
  exact ⟨q, hq, hbefore ▸ hafter ▸ .one above q below⟩

end Stack

namespace FoldM

variable {s : FoldState} {stack : Stack} {taken : List Pending}

/-- A step takes something off the stack of a state, or finds nothing and leaves the stack as it
is. -/
structure Takes {α : Type} (m : FoldM (Option α)) (pop : Stack → Option (α × Stack))
    (s : FoldState) (found : Option α) (stack : Stack) : Prop where
  run_eq : m s = (found, { s with stack })
  spends : ∃ taken, Stack.Spends s.stack.entries taken stack.entries
  kept : found = none → stack = s.stack
  popped : ∀ a, found = some a → pop s.stack = some (a, stack)

theorem exists_takes {α : Type} {pop : Pool → Stack → Option (α × Stack)}
    (hpop : ∀ a stack, pop s.pool s.stack = some (a, stack) →
      ∃ taken, Stack.Spends s.stack.entries taken stack.entries) :
    ∃ found stack, Takes (take pop) (pop s.pool) s found stack := by
  rcases hfound : pop s.pool s.stack with _ | ⟨a, stack⟩
  · refine ⟨none, s.stack, ?_, ⟨[], .refl _⟩, fun _ => rfl, by simp⟩
    rw [take, hfound]
  · refine ⟨some a, stack, ?_, hpop a stack hfound, (by simp), ?_⟩
    · rw [take, hfound]
    · rintro _ ⟨⟩
      exact hfound

theorem popRegister_takes (r : Register) (barrier : RegisterSet) (effects : Bool) (s : FoldState) :
    ∃ found stack, Takes (popRegister r barrier effects)
      (fun stack => stack.popRegister s.pool r barrier effects) s found stack :=
  exists_takes fun _ _ h => (Stack.takeFirst_spends h).imp' (fun q => [q]) fun _ hq => hq.2

theorem popTop_takes (r : Register) (s : FoldState) :
    ∃ found stack, Takes (popTop r) (fun stack => stack.popTop r) s found stack :=
  exists_takes fun _ _ h => (Stack.takeFirst_spends h).imp' (fun q => [q]) fun _ hq => hq.2

/-- What was taken is given back. -/
theorem restore_eq (h : Stack.Spends s.stack.entries taken stack.entries) :
    restore s.stack.checkpoint { s with stack } = ((), s) := by
  change ((), { s with stack := stack.restore s.stack.checkpoint }) = ((), s)
  rw [h.restore_eq]

end FoldM

end Decompiler
