import Decompiler.Proofs.Fold.Rollback
import Decompiler.Proofs.Tree.Growth

/-!
Histories of the operand stack: what is left after any run of pushes, pops, checkpoints and
restores.  A restore undoes the calls since its checkpoint.  Of the calls that it leaves, every
push has its place on the stack, and what was pushed is still active or was returned by one pop.
-/

namespace Decompiler

open List

/-- What a pop returns. -/
inductive Popped
  | value (f : FormId)
  | division (e : ElementId)
deriving DecidableEq, Inhabited, Repr

namespace Pending

/-- What a pop returns of an entry. -/
def popped? : Pending → Option Popped
  | assign _ source _ _ _ => some (.value source)
  | statement _ _ => none
  | division e => some (.division e)

/-- The element that an entry was pushed with. -/
def existing? : Pending → Option ElementId
  | assign _ _ _ _ existing => existing
  | statement e _ => some e
  | division e => some e

end Pending

/-- A push, with the pool that it looks into. -/
inductive StackPush
  | value (dst : Variable) (source : FormId) (ordered : Bool) (notes : SetNotes)
  | existing (p : Pool) (e : ElementId)
  | statement (e : ElementId) (ordered : Bool)
  | division (e : ElementId)
deriving DecidableEq, Repr

namespace StackPush

/-- The entry that is pushed. -/
def pending : StackPush → Pending
  | value dst source ordered notes => .assign dst source ordered notes none
  | existing p e =>
    match p.element e with
    | .set dst source ordered notes => .assign dst source ordered notes (some e)
    | other => .statement e other.isSequencePoint
  | statement e ordered => .statement e ordered
  | division e => .division e

def perform (s : Stack) : StackPush → Stack
  | value dst source ordered notes => s.pushValue dst source ordered notes
  | existing p e => s.pushExisting p e
  | statement e ordered => s.pushStatement e ordered
  | division e => s.pushDivision e

theorem perform_eq (x : StackPush) (s : Stack) : x.perform s = s.push x.pending := by
  cases x with
  | existing p e =>
    rw [perform, pending, Stack.pushExisting]
    generalize p.element e = element
    cases element <;> rfl
  | _ => rfl

end StackPush

/-- A pop, with the pool that it looks into. -/
inductive StackPop
  | register (p : Pool) (r : Register) (barrier : RegisterSet) (effects : Bool)
  | division (p : Pool)
  | top (r : Register)
deriving DecidableEq, Repr

namespace StackPop

/-- What is returned, and the stack that is left. -/
def perform? (s : Stack) : StackPop → Option (Popped × Stack)
  | register p r barrier effects => (s.popRegister p r barrier effects).map (Prod.map .value id)
  | division p => (s.popDivision p).map (Prod.map .division id)
  | top r => (s.popTop r).map (Prod.map .value id)

variable {s s' : Stack} {x : StackPop} {found : Popped}

/-- A pop takes one active entry and returns what it holds. -/
theorem perform?_spends (h : x.perform? s = some (found, s')) :
    ∃ q, q.popped? = some found ∧ Stack.Spends s.entries [q] s'.entries := by
  have hvalue : ∀ {q : Pending} {r : Register} {f : FormId}, q.valueFor? r = some f →
      q.popped? = some (.value f) := by
    intro q r f hq
    obtain ⟨dst, ordered, notes, existing, rfl, -⟩ := Stack.valueFor?_eq_some hq
    rfl
  cases x
  all_goals
    obtain ⟨⟨found, s₁⟩, hpop, heq⟩ := Option.map_eq_some_iff.1 h
    cases heq
    obtain ⟨q, hq, hspends⟩ := Stack.takeFirst_spends hpop
    refine ⟨q, ?_, hspends⟩
  case register | top => exact hvalue hq
  case division => exact Stack.division?_eq_some hq ▸ rfl

end StackPop

namespace Stack

variable {s s' : Stack} {n : Nat} {q : Pending}

/-- The entry at a place; places are counted from the oldest entry. -/
def entryAt? (s : Stack) (n : Nat) : Option Entry := s.entries.reverse[n]?

/-- The entry at a place was popped. -/
def Inactive (s : Stack) (n : Nat) : Prop := ∃ q, s.entryAt? n = some ⟨q, false⟩

theorem contents_getElem? : s.contents.reverse[n]? = some q ↔
    ∃ active, s.entryAt? n = some ⟨q, active⟩ := by
  rw [contents, ← map_reverse, getElem?_map, Option.map_eq_some_iff]
  constructor
  · rintro ⟨entry, hentry, rfl⟩
    exact ⟨entry.active, hentry⟩
  · rintro ⟨active, hentry⟩
    exact ⟨_, hentry, rfl⟩

theorem inactive_push : (s.push q).Inactive n ↔ s.Inactive n := by
  refine exists_congr fun q' => ?_
  rw [entryAt?, entryAt?, push, reverse_cons, getElem?_append]
  split
  · rfl
  · rename_i hn
    rw [getElem?_eq_none (Nat.le_of_not_lt hn), getElem?_singleton]
    split <;> simp

/-- A pop changes one place, from active to not active. -/
theorem Spends.entryAt? (h : Spends s.entries [q] s'.entries) :
    ∃ n, s.entryAt? n = some ⟨q, true⟩ ∧
      ∀ m, s'.entryAt? m = if m = n then some ⟨q, false⟩ else s.entryAt? m := by
  obtain ⟨above, below, hbefore, hafter⟩ := h.one_splits
  have hset : s'.entries.reverse = s.entries.reverse.set below.length ⟨q, false⟩ := by
    simp [hbefore, hafter, set_append_right]
  refine ⟨below.length, by simp [Stack.entryAt?, hbefore], fun m => ?_⟩
  rw [Stack.entryAt?, hset, getElem?_set]
  by_cases hm : m = below.length
  · simp [hm, hbefore]
  · rw [if_neg (Ne.symm hm), if_neg hm]
    rfl

/-- What an entry is rewritten to: the element it was pushed with, or else the new element at a
position, which assigns its value. -/
inductive Rewritten (p : Pool) (next : Nat) : Pending → ElementId → Prop
  | reused {q : Pending} {e : ElementId} (h : q.existing? = some e) : Rewritten p next q e
  | assigned {dst : Variable} {source : FormId} {ordered : Bool} {notes : SetNotes}
      (h : p.element ⟨next⟩ = .set dst source ordered notes) :
      Rewritten p next (.assign dst source ordered notes none) ⟨next⟩

/-- Entries are rewritten to one element each, in order; new elements are numbered in order. -/
def RewritesTo (p p' : Pool) (qs : List Pending) (es : List ElementId) : Prop :=
  es.length = qs.length ∧ ∀ (k : Nat) q, qs[k]? = some q → ∃ e, es[k]? = some e ∧
    Rewritten p' (p.elements.size + (qs.take k).countP fun q => q.existing?.isNone) q e

theorem rewritePending_eq (p : Pool) (q : Pending) :
    p.Extends (rewritePending p q).2 ∧
      (rewritePending p q).2.elements.size =
        p.elements.size + [q].countP (fun q => q.existing?.isNone) ∧
      ∀ p', (rewritePending p q).2.Extends p' →
        Rewritten p' p.elements.size q (rewritePending p q).1 := by
  cases q with
  | assign dst source ordered notes existing =>
    cases existing with
    | none =>
      refine ⟨p.extends_addElement _, Pool.size_addElement _ _, fun p' hext => .assigned ?_⟩
      have hnew := hext.element_eq _ (p.addElement_lt (.set dst source ordered notes))
      exact hnew.trans (p.element_addElement_self _)
    | some e => exact ⟨.refl p, rfl, fun _ _ => .reused rfl⟩
  | statement e ordered => exact ⟨.refl p, rfl, fun _ _ => .reused rfl⟩
  | division e => exact ⟨.refl p, rfl, fun _ _ => .reused rfl⟩

theorem rewriteEntries_rewritesTo (entries : List Entry) (p : Pool) :
    p.Extends (rewriteEntries entries p).2 ∧
      RewritesTo p (rewriteEntries entries p).2 (waitingIn entries) (rewriteEntries entries p).1 := by
  induction entries generalizing p with
  | nil => exact ⟨.refl p, rfl, fun k q hq => by cases hq⟩
  | cons entry entries ih =>
    by_cases hactive : entry.active = true
    · obtain ⟨hgrows, hsize, hone⟩ := rewritePending_eq p entry.pending
      obtain ⟨hext, hlength, hall⟩ := ih (rewritePending p entry.pending).2
      rw [waitingIn_cons_active hactive, rewriteEntries, if_pos hactive]
      refine ⟨hgrows.trans hext, congrArg (· + 1) hlength, fun k q hq => ?_⟩
      cases k with
      | zero =>
        cases hq
        exact ⟨_, rfl, hone _ hext⟩
      | succ k =>
        obtain ⟨e, he, hrewritten⟩ := hall k q hq
        refine ⟨e, he, ?_⟩
        rw [hsize, Nat.add_assoc, ← countP_append, singleton_append] at hrewritten
        exact hrewritten
    · rw [waitingIn_cons_inactive (by simpa using hactive), rewriteEntries, if_neg hactive]
      exact ih p

end Stack

/-- A call on the stack.  A restore names the call that took its checkpoint by its position. -/
inductive StackCall
  | push (x : StackPush)
  | pop (x : StackPop)
  | checkpoint
  | restore (mark : Nat)
deriving DecidableEq, Repr

namespace StackCall

/-- The stack after a call, given the stacks before it and before all calls that came earlier. -/
def perform (past : Nat → Stack) (s : Stack) : StackCall → Stack
  | push x => x.perform s
  | pop x => ((x.perform? s).map Prod.snd).getD s
  | checkpoint => s
  | restore mark => s.restore (past mark).checkpoint

section

variable (calls : List StackCall)

/-- The stack before the call at a position, and after the calls before it. -/
def stackAt : Nat → Stack
  | 0 => .empty
  | i + 1 =>
    match calls[i]? with
    | none => stackAt i
    | some call =>
      call.perform (fun mark => if _h : mark ≤ i then stackAt mark else .empty) (stackAt i)
termination_by i => i

/-- Every restore goes back to a checkpoint that an earlier call took, and no restore between the
two goes back to before that call. -/
def Nested : Prop :=
  ∀ i mark : Nat, calls[i]? = some (.restore mark) →
    mark < i ∧ calls[mark]? = some .checkpoint ∧
      ∀ j earlier : Nat, mark < j → j < i → calls[j]? = some (.restore earlier) → mark ≤ earlier

/-- Of the first calls, one is not undone by another that restores an older stack. -/
def Stands (time i : Nat) : Prop :=
  i < time ∧ ∀ j mark : Nat, i < j → j < time → calls[j]? = some (.restore mark) → i ≤ mark

/-- The entry that the call at a position pushes. -/
def pushed? (i : Nat) : Option Pending :=
  match calls[i]? with
  | some (.push x) => some x.pending
  | _ => none

def place (i : Nat) : Nat := (stackAt calls i).entries.length

/-- A call pops the entry at a place and returns what it holds. -/
def Returns (i n : Nat) : Prop :=
  ∃ x found rest q, calls[i]? = some (.pop x) ∧ x.perform? (stackAt calls i) = some (found, rest) ∧
    (stackAt calls i).entryAt? n = some ⟨q, true⟩ ∧ q.popped? = some found ∧
    (stackAt calls (i + 1)).entryAt? n = some ⟨q, false⟩

end

variable {calls : List StackCall} {call : StackCall} {i j n t mark : Nat} {q : Pending}
  {found : Popped} {rest : Stack} {x : StackPop}

theorem stackAt_of_push {x : StackPush} (h : calls[i]? = some (.push x)) :
    stackAt calls (i + 1) = (stackAt calls i).push x.pending := by
  rw [stackAt, h]
  exact x.perform_eq _

theorem stackAt_of_pop (h : calls[i]? = some (.pop x)) :
    stackAt calls (i + 1) = ((x.perform? (stackAt calls i)).map Prod.snd).getD (stackAt calls i) := by
  rw [stackAt, h]
  rfl

theorem stackAt_of_restore (h : calls[i]? = some (.restore mark)) (hmark : mark ≤ i) :
    stackAt calls (i + 1) = (stackAt calls i).restore (stackAt calls mark).checkpoint := by
  rw [stackAt, h]
  change (stackAt calls i).restore (Stack.checkpoint (dite _ _ _)) = _
  rw [dif_pos hmark]

/-- A successful pop returns the entry at one place and changes no other. -/
theorem returns_of_pop (h : calls[i]? = some (.pop x))
    (hfound : x.perform? (stackAt calls i) = some (found, rest)) :
    stackAt calls (i + 1) = rest ∧ ∃ n q, (stackAt calls i).entryAt? n = some ⟨q, true⟩ ∧
      (∀ m, rest.entryAt? m = if m = n then some ⟨q, false⟩ else (stackAt calls i).entryAt? m) ∧
      ∀ m, Returns calls i m ↔ m = n := by
  have hstack : stackAt calls (i + 1) = rest := by
    rw [stackAt_of_pop h, hfound]
    rfl
  obtain ⟨q, hq, hspends⟩ := StackPop.perform?_spends hfound
  obtain ⟨n, hactive, hplaces⟩ := hspends.entryAt?
  refine ⟨hstack, n, q, hactive, hplaces, fun m => ⟨?_, ?_⟩⟩
  · rintro ⟨_, _, _, q', -, -, hbefore, -, hafter⟩
    by_contra hm
    rw [hstack, hplaces, if_neg hm, hbefore] at hafter
    cases hafter
  · rintro rfl
    exact ⟨x, found, rest, q, h, hfound, hactive, hq, by rw [hstack, hplaces, if_pos rfl]⟩

/-- A call that does not restore leaves the entries in their places; it may push one more. -/
theorem contents_succ (hrestore : ∀ mark, calls[t]? ≠ some (.restore mark)) :
    (stackAt calls (t + 1)).contents = (pushed? calls t).toList ++ (stackAt calls t).contents := by
  cases hcall : calls[t]? with
  | none => rw [stackAt, pushed?, hcall]; rfl
  | some call =>
    cases call with
    | push x => rw [stackAt_of_push hcall, pushed?, hcall]; rfl
    | pop x =>
      rw [stackAt_of_pop hcall, pushed?, hcall]
      cases hfound : x.perform? (stackAt calls t) with
      | none => rfl
      | some found =>
        obtain ⟨q, -, hspends⟩ := StackPop.perform?_spends hfound
        exact hspends.map_pending_eq
    | checkpoint => rw [stackAt, pushed?, hcall]; rfl
    | restore mark => exact absurd hcall (hrestore mark)

/-- A call that does not restore makes that entry inactive which it returns. -/
theorem inactive_succ (hrestore : ∀ mark, calls[t]? ≠ some (.restore mark)) :
    (stackAt calls (t + 1)).Inactive n ↔ (stackAt calls t).Inactive n ∨ Returns calls t n := by
  by_cases hpop : ∃ x found rest, calls[t]? = some (.pop x) ∧
      x.perform? (stackAt calls t) = some (found, rest)
  · obtain ⟨x, found, rest, hcall, hfound⟩ := hpop
    obtain ⟨hstack, m, q, hactive, hplaces, hreturns⟩ := returns_of_pop hcall hfound
    rw [hreturns, hstack, Stack.Inactive, Stack.Inactive, hplaces]
    by_cases hn : n = m <;> simp [hn]
  · have hnone : ¬ Returns calls t n := by
      rintro ⟨x, found, rest, -, hcall, hfound, -⟩
      exact hpop ⟨x, found, rest, hcall, hfound⟩
    rw [or_iff_left hnone]
    cases hcall : calls[t]? with
    | none => rw [stackAt, hcall]
    | some call =>
      cases call with
      | push x => rw [stackAt_of_push hcall, Stack.inactive_push]
      | pop x =>
        rw [stackAt_of_pop hcall]
        cases hfound : x.perform? (stackAt calls t) with
        | none => rfl
        | some found => exact absurd ⟨x, _, _, hcall, hfound⟩ hpop
      | checkpoint => rw [stackAt, hcall]; rfl
      | restore mark => exact absurd hcall (hrestore mark)

/-- No restore between a checkpoint and its restore goes back to before the checkpoint. -/
theorem Nested.not_past (h : Nested calls) (hcall : calls[i]? = some (.restore mark))
    {earlier : Nat} (hj : mark ≤ j) (hji : j < i) (hrestore : calls[j]? = some (.restore earlier)) :
    mark ≤ earlier := by
  obtain ⟨-, hcheck, hbetween⟩ := h i mark hcall
  rcases Nat.lt_or_eq_of_le hj with hj | rfl
  · exact hbetween j earlier hj hji hrestore
  · cases hcheck.symm.trans hrestore

/-- Entries stay where they are until a restore goes back to before them. -/
theorem Nested.contents_suffix (h : Nested calls) (hle : n ≤ t)
    (hpast : ∀ j mark : Nat, n ≤ j → j < t → calls[j]? = some (.restore mark) → n ≤ mark) :
    (stackAt calls n).contents <:+ (stackAt calls t).contents := by
  induction t using Nat.strongRecOn generalizing n with
  | _ t ih =>
    rcases Nat.lt_or_eq_of_le hle with hlt | rfl
    · obtain ⟨t, rfl⟩ : ∃ t', t = t' + 1 := ⟨t - 1, by omega⟩
      have hbefore : (stackAt calls n).contents <:+ (stackAt calls t).contents :=
        ih t (by omega) (by omega) fun j mark hj hjt => hpast j mark hj (by omega)
      by_cases hrestore : ∀ mark, calls[t]? ≠ some (.restore mark)
      · rw [contents_succ hrestore]
        exact hbefore.trans (suffix_append _ _)
      · obtain ⟨mark, hcall⟩ := not_forall_not.1 hrestore
        have hmark := (h t mark hcall).1
        have hsuffix : (stackAt calls mark).contents <:+ (stackAt calls t).contents :=
          ih t (by omega) (by omega) fun _ _ => h.not_past hcall
        rw [stackAt_of_restore hcall (by omega), Stack.restore_checkpoint hsuffix]
        have hn := hpast t mark (by omega) (by omega) hcall
        exact ih mark (by omega) hn fun j mark' hj hjm => hpast j mark' hj (by omega)
    · exact suffix_refl _

/-- A restore brings back the stack of its checkpoint. -/
theorem Nested.stackAt_restore (h : Nested calls) (hcall : calls[i]? = some (.restore mark)) :
    stackAt calls (i + 1) = stackAt calls mark := by
  have hmark := (h i mark hcall).1
  rw [stackAt_of_restore hcall (by omega)]
  exact Stack.restore_checkpoint (h.contents_suffix (by omega) fun _ _ => h.not_past hcall)

theorem stands_succ (hrestore : ∀ mark, calls[t]? ≠ some (.restore mark)) :
    Stands calls (t + 1) i ↔ Stands calls t i ∨ i = t := by
  constructor
  · rintro ⟨hlt, hall⟩
    rcases Nat.lt_or_eq_of_le (Nat.le_of_lt_succ hlt) with hlt | rfl
    · exact .inl ⟨hlt, fun j mark hij hjt => hall j mark hij (by omega)⟩
    · exact .inr rfl
  · rintro (⟨hlt, hall⟩ | rfl)
    · refine ⟨by omega, fun j mark hij hjt hcall => ?_⟩
      rcases Nat.lt_or_eq_of_le (Nat.le_of_lt_succ hjt) with hjt | rfl
      · exact hall j mark hij hjt hcall
      · exact absurd hcall (hrestore mark)
    · exact ⟨by omega, fun j mark hij hjt => by omega⟩

/-- After a restore the calls stand that stood at its checkpoint. -/
theorem Nested.stands_restore (h : Nested calls) (hcall : calls[t]? = some (.restore mark))
    (hmark : i ≠ mark) (ht : i ≠ t) : Stands calls (t + 1) i ↔ Stands calls mark i := by
  have hlt := (h t mark hcall).1
  constructor
  · rintro ⟨hi, hall⟩
    have hle := hall t mark (by omega) (by omega) hcall
    exact ⟨by omega, fun j earlier hij hjm => hall j earlier hij (by omega)⟩
  · rintro ⟨hi, hall⟩
    refine ⟨by omega, fun j earlier hij hjt hrestore => ?_⟩
    rcases Nat.lt_or_ge j mark with hjm | hjm
    · exact hall j earlier hij hjm hrestore
    · rcases Nat.lt_or_eq_of_le (Nat.le_of_lt_succ hjt) with hjt | rfl
      · exact Nat.le_trans (Nat.le_of_lt hi) (h.not_past hcall hjm hjt hrestore)
      · cases hcall.symm.trans hrestore
        omega

theorem getElem?_reverse_toList_append {l : List Pending} {x : Option Pending} :
    (x.toList ++ l).reverse[n]? = some q ↔ l.reverse[n]? = some q ∨ x = some q ∧ l.length = n := by
  cases x with
  | none => simp
  | some q' =>
    rw [Option.toList_some, singleton_append, reverse_cons, getElem?_append]
    split
    · rename_i hn
      rw [length_reverse] at hn
      simp [Nat.ne_of_gt hn]
    · rename_i hn
      rw [getElem?_eq_none (Nat.le_of_not_lt hn), getElem?_singleton]
      rw [length_reverse] at hn ⊢
      have hplace : n - l.length = 0 ↔ l.length = n := by omega
      simp [hplace, and_comm]

/-- The calls that stand account for every entry of the stack. -/
structure Accounted (calls : List StackCall) (t : Nat) : Prop where
  /-- The entries are what was pushed, each in its place. -/
  contents_iff : ∀ n q, (stackAt calls t).contents.reverse[n]? = some q ↔
    ∃ i, Stands calls t i ∧ pushed? calls i = some q ∧ place calls i = n
  /-- Later entries lie above earlier ones. -/
  ascending : ∀ i j q q', pushed? calls i = some q → pushed? calls j = some q' →
    Stands calls t i → Stands calls t j → i < j → place calls i < place calls j
  /-- The entries that are no longer active are those that a pop returned. -/
  inactive_iff : ∀ n, (stackAt calls t).Inactive n ↔ ∃ j, Stands calls t j ∧ Returns calls j n
  once : ∀ i j n, Stands calls t i → Stands calls t j → Returns calls i n → Returns calls j n → i = j

namespace Accounted

variable {t' : Nat}

theorem start (calls : List StackCall) : Accounted calls 0 := by
  have hnone : ∀ i, ¬ Stands calls 0 i := fun i h => Nat.not_lt_zero i h.1
  have hempty : stackAt calls 0 = .empty := by rw [stackAt]
  constructor
  · simp [hnone, hempty, Stack.contents, Stack.empty]
  · exact fun i _ _ _ _ _ h => absurd h (hnone i)
  · simp [hnone, hempty, Stack.Inactive, Stack.entryAt?, Stack.empty]
  · exact fun i _ _ h => absurd h (hnone i)

/-- The same pushes and pops make the same stack. -/
theorem congr (h : Accounted calls t) (hstack : stackAt calls t' = stackAt calls t)
    (hpush : ∀ i q, pushed? calls i = some q → (Stands calls t' i ↔ Stands calls t i))
    (hpop : ∀ i n, Returns calls i n → (Stands calls t' i ↔ Stands calls t i)) :
    Accounted calls t' where
  contents_iff n q := by
    rw [hstack, h.contents_iff]
    exact exists_congr fun i => and_congr_left fun hi => (hpush i q hi.1).symm
  ascending i j q q' hi hj hsi hsj :=
    h.ascending i j q q' hi hj ((hpush i q hi).1 hsi) ((hpush j q' hj).1 hsj)
  inactive_iff n := by
    rw [hstack, h.inactive_iff]
    exact exists_congr fun j => and_congr_left fun hj => (hpop j n hj).symm
  once i j n hsi hsj hi hj := h.once i j n ((hpop i n hi).1 hsi) ((hpop j n hj).1 hsj) hi hj

/-- A call that does not restore adds its own push or pop to the account. -/
theorem step (h : Accounted calls t) (hrestore : ∀ mark, calls[t]? ≠ some (.restore mark)) :
    Accounted calls (t + 1) := by
  have hexists : ∀ {P : Nat → Prop}, (∃ i, Stands calls (t + 1) i ∧ P i) ↔
      (∃ i, Stands calls t i ∧ P i) ∨ P t := by
    simp only [stands_succ hrestore, or_and_right, exists_or, exists_eq_left, implies_true]
  constructor
  · intro n q
    rw [hexists, ← h.contents_iff, contents_succ hrestore]
    have hplace : (stackAt calls t).contents.length = place calls t := length_map _
    rw [getElem?_reverse_toList_append, hplace]
  · intro i j q q' hi hj hsi hsj hlt
    rcases (stands_succ hrestore).1 hsi with hsi | rfl
    · rcases (stands_succ hrestore).1 hsj with hsj | rfl
      · exact h.ascending i j q q' hi hj hsi hsj hlt
      · have hold := (h.contents_iff _ q).2 ⟨i, hsi, hi, rfl⟩
        simpa [Stack.contents, place] using (List.getElem?_eq_some_iff.1 hold).1
    · have := hsj.1
      omega
  · intro n
    rw [hexists, ← h.inactive_iff, inactive_succ hrestore]
  · -- What the last call returns was active before it.
    have hfresh : ∀ {j n}, Stands calls t j → Returns calls j n → ¬ Returns calls t n := by
      rintro j n hsj hj ⟨_, _, _, q, -, -, hactive, -⟩
      obtain ⟨q', hq'⟩ := (h.inactive_iff n).2 ⟨j, hsj, hj⟩
      cases hactive.symm.trans hq'
    intro i j n hsi hsj hi hj
    rcases (stands_succ hrestore).1 hsi with hsi | rfl
    · rcases (stands_succ hrestore).1 hsj with hsj | rfl
      · exact h.once i j n hsi hsj hi hj
      · exact absurd hj (hfresh hsi hi)
    · rcases (stands_succ hrestore).1 hsj with hsj | rfl
      · exact absurd hi (hfresh hsj hj)
      · rfl

end Accounted

/-- The calls that stand account for the stack at every time. -/
theorem Nested.accounted (h : Nested calls) (t : Nat) : Accounted calls t := by
  induction t using Nat.strongRecOn with
  | _ t ih =>
    cases t with
    | zero => exact .start calls
    | succ t =>
      by_cases hrestore : ∀ mark, calls[t]? ≠ some (.restore mark)
      · exact (ih t (by omega)).step hrestore
      obtain ⟨mark, hcall⟩ := not_forall_not.1 hrestore
      -- What was accounted for at the checkpoint still is.
      obtain ⟨hmark, hcheck, -⟩ := h t mark hcall
      refine (ih mark (by omega)).congr (h.stackAt_restore hcall) (fun i q hi => ?_) fun i n hi => ?_
      · refine h.stands_restore hcall ?_ ?_ <;> rintro rfl
        · simp [pushed?, hcheck] at hi
        · simp [pushed?, hcall] at hi
      · refine h.stands_restore hcall ?_ ?_ <;> rintro rfl
        · simp [Returns, hcheck] at hi
        · simp [Returns, hcall] at hi

/-- The operand stack neither loses nor duplicates entries.  After any run of calls with nested
restores, what was pushed and not undone is in its place, active or returned by one pop; nothing
else is on the stack; a pop that finds nothing changes nothing; a restore brings back the stack of
its checkpoint; and rewriting makes one element of each active entry, in the order of the pushes. -/
theorem Nested.entries_conserved (h : Nested calls) (t : Nat) :
    (∀ i q, pushed? calls i = some q → Stands calls t i →
      (stackAt calls t).entryAt? (place calls i) = some ⟨q, true⟩ ∧
          (∀ j, Stands calls t j → ¬ Returns calls j (place calls i)) ∨
        (stackAt calls t).entryAt? (place calls i) = some ⟨q, false⟩ ∧
          ∃! j, Stands calls t j ∧ Returns calls j (place calls i)) ∧
    (∀ n, n < (stackAt calls t).entries.length →
      ∃! i, (∃ q, pushed? calls i = some q) ∧ Stands calls t i ∧ place calls i = n) ∧
    (∀ i j q q', pushed? calls i = some q → pushed? calls j = some q' → Stands calls t i →
      Stands calls t j → i < j → place calls i < place calls j) ∧
    (∀ (i : Nat) x found rest, calls[i]? = some (.pop x) →
      x.perform? (stackAt calls i) = some (found, rest) →
      stackAt calls (i + 1) = rest ∧ ∃! n, Returns calls i n) ∧
    (∀ (i : Nat) x, calls[i]? = some (.pop x) → x.perform? (stackAt calls i) = none →
      stackAt calls (i + 1) = stackAt calls i) ∧
    (∀ i mark : Nat, calls[i]? = some (.restore mark) → stackAt calls (i + 1) = stackAt calls mark) ∧
    ∀ p, Stack.RewritesTo p ((stackAt calls t).rewrite p).2
      (Stack.waitingIn (stackAt calls t).entries.reverse) ((stackAt calls t).rewrite p).1 := by
  have haccounted := h.accounted t
  refine ⟨fun i q hi hsi => ?_, fun n hn => ?_, haccounted.ascending, ?_, ?_,
    fun i mark => h.stackAt_restore, fun p => (Stack.rewriteEntries_rewritesTo _ p).2⟩
  · have hplaced := (haccounted.contents_iff _ q).2 ⟨i, hsi, hi, rfl⟩
    obtain ⟨active, hentry⟩ := Stack.contents_getElem?.1 hplaced
    cases active with
    | true =>
      refine .inl ⟨hentry, fun j hsj hj => ?_⟩
      obtain ⟨q', hq'⟩ := (haccounted.inactive_iff _).2 ⟨j, hsj, hj⟩
      cases hentry.symm.trans hq'
    | false =>
      obtain ⟨j, hsj, hj⟩ := (haccounted.inactive_iff _).1 ⟨q, hentry⟩
      exact .inr ⟨hentry, j, ⟨hsj, hj⟩, fun j' hj' =>
        haccounted.once j' j _ hj'.1 hsj hj'.2 hj⟩
  · have hin : n < (stackAt calls t).contents.reverse.length := by simpa [Stack.contents] using hn
    obtain ⟨i, hsi, hi, hplace⟩ := (haccounted.contents_iff n _).1 (List.getElem?_eq_getElem hin)
    refine ⟨i, ⟨⟨_, hi⟩, hsi, hplace⟩, ?_⟩
    rintro j ⟨⟨q', hj⟩, hsj, hplace'⟩
    -- Of two entries in one place, neither can lie above the other.
    rcases Nat.lt_trichotomy j i with hlt | heq | hlt
    · have := haccounted.ascending j i _ _ hj hi hsj hsi hlt
      omega
    · exact heq
    · have := haccounted.ascending i j _ _ hi hj hsi hsj hlt
      omega
  · intro i x found rest hcall hfound
    obtain ⟨hstack, n, q, -, -, hreturns⟩ := returns_of_pop hcall hfound
    exact ⟨hstack, n, (hreturns n).2 rfl, fun m => (hreturns m).1⟩
  · intro i x hcall hnone
    rw [stackAt_of_pop hcall, hnone]
    rfl

/-- Two values, of which the second and then the first are popped; this is undone, and the first
is popped again. -/
def undonePops : List StackCall :=
  [.push (.value (.write .v0 0) ⟨0⟩ false {}), .checkpoint,
    .push (.value (.write .hi 1) ⟨1⟩ false {}), .pop (.top .hi), .pop (.top .v0), .restore 1,
    .pop (.top .v0), .push (.statement ⟨7⟩ true)]

theorem undonePops_nested : Nested undonePops := by
  intro i mark h
  rcases i with _ | _ | _ | _ | _ | _ | _ | _ | i <;> cases h
  refine ⟨by decide, rfl, fun j earlier hj hj' hrestore => ?_⟩
  obtain rfl | rfl | rfl : j = 2 ∨ j = 3 ∨ j = 4 := by omega
  all_goals cases hrestore

/-- Of the two pops that return the first value, one stands. -/
theorem undonePops_returned_once : Nested undonePops ∧
    ∃! j, Stands undonePops 8 j ∧ Returns undonePops j 0 := by
  obtain ⟨hkept, -⟩ := undonePops_nested.entries_conserved 8
  have hplace : place undonePops 0 = 0 := by decide +kernel
  have hinactive : (stackAt undonePops 8).entryAt? 0 =
      some ⟨.assign (.write .v0 0) ⟨0⟩ false {} none, false⟩ := by decide +kernel
  have hstands : Stands undonePops 8 0 := ⟨by decide, fun _ mark _ _ _ => Nat.zero_le mark⟩
  rcases hkept 0 _ rfl hstands with ⟨hactive, -⟩ | ⟨-, hone⟩
  · rw [hplace] at hactive
    cases hactive.symm.trans hinactive
  · rw [hplace] at hone
    exact ⟨undonePops_nested, hone⟩

end StackCall

end Decompiler
