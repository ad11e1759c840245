import Decompiler.Proofs.Meaning.Pending
import Decompiler.Proofs.Refold.Order

/-!
Trees that refolding leaves alone.  A tree is settled if no operand of an assignment reads a
register for the last time whose value could be moved to it.  Refolding changes nothing in a
settled tree, and makes at least one fold in any other.  One pass need not settle a tree: a
fold can take an assignment out of the way of an operand that was looked at before.
-/

namespace Decompiler

open List RegisterSet

variable {p : Pool} {register : Register} {es : List ElementId}

theorem RegisterSet.intersects_eq_false_iff {s t : RegisterSet} :
    s.intersects t = false ↔ ∀ q ∈ s, q ∉ t := by
  constructor
  · exact fun h q hs => Stack.not_intersects h hs
  · intro h
    have hempty : s ∩ t = ∅ := ext_mem fun q => by simpa using h q
    rw [intersects, hempty]
    rfl

namespace Pool

/-- A value for a register can be moved behind an element of its form: the element assigns
another register, need not stay in order, reads neither the register nor what the value
writes, and writes nothing that the value reads. -/
def CanPass (p : Pool) (register : Register) (value : FormId) (e : ElementId) : Prop :=
  ∃ dst source notes, p.element e = .set dst source false notes ∧ dst.register ≠ register ∧
    (∀ q ∈ RegisterSet.single dst.register ∪ p.formWrites source, q ∉ p.formReadRegisters value) ∧
    ∀ q ∈ p.formReadRegisters source, q ∉ p.formWrites value ∧ q ≠ register

/-- The latest value for a register among some elements can be moved behind all of them, to a
place beside reads of some registers. -/
def IsAvailable (p : Pool) (es : List ElementId) (registers : List Register)
    (register : Register) : Prop :=
  ∃ older e newer dst value ordered notes, es = older ++ e :: newer ∧
    p.element e = .set dst value ordered notes ∧ dst.register = register ∧
    (∀ e' ∈ newer, p.CanPass register value e') ∧
    ∀ q ∈ p.formWrites value, q ∈ registers → q = register

/-- An operand of a value is read for the last time, and only once beside the others, and its
value can be moved to it from some elements. -/
def SlotTakes (p : Pool) (r : Routine) (before : List ElementId) (source : FormId)
    (slot : FormId × Variable) : Prop :=
  r.isLastRead slot.2 = true ∧
    ((p.operandSlots source).map fun slot => slot.2.register).count slot.2.register = 1 ∧
    p.IsAvailable before ((p.operandSlots source).map fun slot => slot.2.register) slot.2.register

/-- An assignment has an operand that can take its value from elements before. -/
def CanTake (p : Pool) (r : Routine) (before : List ElementId) (e : ElementId) : Prop :=
  ∃ dst source ordered notes, p.element e = .set dst source ordered notes ∧
    ∃ slot ∈ p.operandSlots source, p.SlotTakes r before source slot

/-- No element of a form can take a value from elements before it. -/
def IsSettledAt (p : Pool) (r : Routine) (f : FormId) : Prop :=
  ∀ before e after, p.elementsOf f = before ++ e :: after → ¬p.CanTake r before e

/-- No element of any form below a root can take a value. -/
def IsSettled (p : Pool) (r : Routine) (root : FormId) : Prop :=
  ∀ f, p.Reaches root f → p.IsSettledAt r f

def pendingOf (p : Pool) (e : ElementId) : Pending := (p.element e).pending e

variable {e : ElementId} {value : FormId}

theorem canPass_iff :
    p.CanPass register value e ↔
      (p.pendingOf e).valueFor? register = none ∧ (p.pendingOf e).isSequencePoint = false ∧
      (∀ q ∈ (p.pendingOf e).writes p, q ∉ p.formReadRegisters value) ∧
      ∀ q ∈ (p.pendingOf e).reads p, q ∉ p.formWrites value ∧ q ≠ register := by
  constructor
  · rintro ⟨dst, source, notes, hset, hne, hwrites, hreads⟩
    rw [pendingOf, hset]
    exact ⟨if_neg hne, rfl, hwrites, hreads⟩
  · rintro ⟨hother, hpoint, hwrites, hreads⟩
    unfold pendingOf Element.pending at hother hpoint hwrites hreads
    split at hpoint
    · rename_i dst source ordered notes hset
      rw [hset] at hother hwrites hreads
      change ordered = false at hpoint
      subst hpoint
      refine ⟨dst, source, notes, hset, fun heq => ?_, hwrites, hreads⟩
      rw [Pending.valueFor?, if_pos heq] at hother
      cases hother
    · cases hpoint

theorem mayPop_iff {registers : List Register} {skipped : Stack.Skipped} :
    Stack.mayPop p register ((RegisterSet.ofList registers).erase register) true skipped value =
        true ↔
      (∀ q ∈ p.formWrites value, q ∈ registers → q = register) ∧
      (∀ q ∈ p.formWrites value, q ∉ skipped.reads) ∧
      (∀ q ∈ p.formReadRegisters value, q ∉ skipped.writes) ∧ register ∉ skipped.reads := by
  simp only [Stack.mayPop, Bool.true_or, Bool.true_and, Bool.and_eq_true, Bool.not_eq_true',
    intersects_eq_false_iff, and_assoc]
  refine and_congr ?_ (and_congr_right fun _ => and_congr_right fun _ => ?_)
  · refine forall₂_congr fun q _ => ?_
    rw [RegisterSet.erase, mem_diff, mem_ofList, mem_single]
    tauto
  · rw [← Bool.not_eq_true]
    rfl

end Pool

namespace Stack

/-- What can be taken, and is offered behind entries that can be passed, is taken. -/
theorem takeFirst_isSome {α : Type} {offer : Pending → Option α} {may : Skipped → α → Bool}
    {passes : Pending → Bool} {s : Stack} {above below : List Pending} {q : Pending} {a : α}
    (hwaiting : s.waiting = above ++ q :: below) (hq : offer q = some a)
    (hmay : may (above.foldl (Skipped.past p) {}) a = true)
    (habove : ∀ q ∈ above, offer q = none ∧ passes q = true) :
    (s.takeFirst p offer may passes).isSome = true := by
  rw [takeFirst, Option.isSome_map]
  unfold waiting at hwaiting
  generalize s.entries = entries, ({} : Skipped) = skipped at hwaiting hmay ⊢
  induction entries generalizing above skipped with
  | nil => simp [waitingIn] at hwaiting
  | cons entry entries ih =>
    rw [takeFirstFrom]
    by_cases hactive : entry.active = true
    · rw [if_neg (by simp [hactive])]
      rw [waitingIn_cons_active hactive] at hwaiting
      cases above with
      | nil =>
        obtain ⟨rfl, -⟩ := List.cons.inj hwaiting
        rw [foldl_nil] at hmay
        rw [hq]
        dsimp only
        rw [if_pos hmay]
        rfl
      | cons q' above =>
        obtain ⟨rfl, hrest⟩ := List.cons.inj hwaiting
        obtain ⟨hnone, hpasses⟩ := habove _ mem_cons_self
        rw [hnone]
        dsimp only
        rw [if_pos hpasses, Option.isSome_map]
        exact ih (fun q hq => habove q (mem_cons_of_mem _ hq)) _ hrest hmay
    · rw [if_pos (by simp [hactive]), Option.isSome_map]
      rw [waitingIn_cons_inactive (by simpa using hactive)] at hwaiting
      exact ih habove _ hwaiting hmay

variable {registers : List Register}

/-- What can be passed by a value are the entries that it may be moved past. -/
theorem canPass_all_iff {newer : List ElementId} {value : FormId} :
    (∀ e ∈ newer, p.CanPass register value e) ∧
        (∀ q ∈ p.formWrites value, q ∈ registers → q = register) ↔
      Passes p register ((RegisterSet.ofList registers).erase register) true
        (newer.map p.pendingOf).reverse value := by
  have hiff : Passes p register ((RegisterSet.ofList registers).erase register) true
      (newer.map p.pendingOf).reverse value ↔ _ ∧ _ := ⟨fun h => ⟨h.clear, h.may⟩, fun h => ⟨h.1, h.2⟩⟩
  rw [hiff]
  symm
  simp only [Pool.mayPop_iff, Skipped.mem_reads, Skipped.mem_writes, not_mem_empty, false_or,
    mem_reverse, mem_map, Pool.canPass_iff]
  constructor
  · rintro ⟨hcross, hbarrier, hwrites, hreads, hreg⟩
    refine ⟨fun e he => ?_, hbarrier⟩
    obtain ⟨hother, hpoint⟩ := hcross _ ⟨e, he, rfl⟩
    refine ⟨hother, hpoint, fun q hq hread => hreads q hread ⟨_, ⟨e, he, rfl⟩, hq⟩, fun q hq => ?_⟩
    refine ⟨fun hwrite => hwrites q hwrite ⟨_, ⟨e, he, rfl⟩, hq⟩, ?_⟩
    rintro rfl
    exact hreg ⟨_, ⟨e, he, rfl⟩, hq⟩
  · rintro ⟨hcan, hbarrier⟩
    refine ⟨?_, hbarrier, ?_, ?_, ?_⟩
    · rintro _ ⟨e, he, rfl⟩
      exact ⟨(hcan e he).1, (hcan e he).2.1⟩
    · rintro q hq ⟨_, ⟨e, he, rfl⟩, hread⟩
      exact ((hcan e he).2.2.2 q hread).1 hq
    · rintro q hq ⟨_, ⟨e, he, rfl⟩, hwrite⟩
      exact (hcan e he).2.2.1 q hwrite hq
    · rintro ⟨_, ⟨e, he, rfl⟩, hread⟩
      exact ((hcan e he).2.2.2 register hread).2 rfl

/-- A value can be popped from behind some elements if it is available there. -/
theorem popRegister_isSome_iff {s : Stack} {es : List ElementId}
    (hwaiting : s.waiting = (es.map p.pendingOf).reverse) :
    (s.popRegister p register ((RegisterSet.ofList registers).erase register) true).isSome = true ↔
      p.IsAvailable es registers register := by
  constructor
  · intro hpop
    obtain ⟨⟨value, stack⟩, hpop⟩ := Option.isSome_iff_exists.1 hpop
    obtain ⟨older, e, newer, dst, ordered, notes, existing, rfl, he, hdst, -, hpasses⟩ :=
      popRegister_of_waiting hwaiting hpop
    obtain ⟨hcan, hbarrier⟩ := canPass_all_iff.2 hpasses
    exact ⟨older, e, newer, dst, value, ordered, notes, rfl, Element.eq_set_of_pending he, hdst,
      hcan, hbarrier⟩
  · rintro ⟨older, e, newer, dst, value, ordered, notes, rfl, hset, hdst, hcan, hbarrier⟩
    have hpasses := canPass_all_iff.1 ⟨hcan, hbarrier⟩
    have hpending : p.pendingOf e = .assign dst value ordered notes (some e) := by
      rw [Pool.pendingOf, hset]
      rfl
    have hsplit : s.waiting = (newer.map p.pendingOf).reverse ++
        .assign dst value ordered notes (some e) :: (older.map p.pendingOf).reverse := by
      rw [← hpending]
      exact hwaiting.trans (by simp)
    refine takeFirst_isSome hsplit (if_pos hdst) hpasses.may fun q hq => ?_
    exact (hpasses.clear q hq).imp_right fun h => by rw [h]; rfl

end Stack

/-- What every step keeps, a run keeps. -/
theorem foldl_keeps {σ α : Type} {step : σ → α → σ} (marked : σ → Prop)
    (hkeep : ∀ s a, marked s → marked (step s a)) (as : List α) {s : σ} (h : marked s) :
    marked (as.foldl step s) := by
  induction as generalizing s with
  | nil => exact h
  | cons a as ih => exact ih (hkeep s a h)

/-- A step leaves a state alone or marks it, and marks stay.  Then so does a run. -/
theorem foldl_stays_or {σ α : Type} (step : σ → α → σ) (marked : σ → Prop) (takes : α → Prop) {s : σ}
    (hkeep : ∀ s a, marked s → marked (step s a)) (as : List α)
    (hstep : ∀ a ∈ as, step s a = s ∧ ¬takes a ∨ marked (step s a) ∧ takes a) :
    as.foldl step s = s ∧ (∀ a ∈ as, ¬takes a) ∨ marked (as.foldl step s) ∧ ∃ a ∈ as, takes a := by
  induction as with
  | nil => exact .inl ⟨rfl, by simp⟩
  | cons a as ih =>
    rw [foldl_cons]
    rcases hstep a mem_cons_self with ⟨hsame, hnot⟩ | ⟨hmark, htakes⟩
    · rw [hsame]
      rcases ih fun b hb => hstep b (mem_cons_of_mem _ hb) with
        ⟨hrest, hnone⟩ | ⟨hmark, b, hb, htakes⟩
      · exact .inl ⟨hrest, forall_mem_cons.2 ⟨hnot, hnone⟩⟩
      · exact .inr ⟨hmark, b, mem_cons_of_mem _ hb, htakes⟩
    · exact .inr ⟨foldl_keeps marked hkeep as hmark, a, mem_cons_self, htakes⟩

def Refolding.untouched (p : Pool) (es : List ElementId) : Refolding :=
  ⟨p, ⟨(es.map fun e => ⟨p.pendingOf e, true⟩).reverse⟩, false⟩

namespace Refolding

theorem waiting_untouched : (untouched p es).stack.waiting = (es.map p.pendingOf).reverse := by
  simp [untouched, Stack.waiting, Stack.waitingIn, filter_map, Function.comp_def]

theorem rewrite_untouched (p : Pool) (es : List ElementId) :
    (untouched p es).stack.rewrite (untouched p es).pool = (es, p) := by
  have hrewrite : (untouched p es).stack.rewrite p = (es.map id, p) :=
    Stack.rewrite_pending waiting_untouched p
  rw [map_id] at hrewrite
  exact hrewrite

theorem push_untouched (e : ElementId) :
    { untouched p es with stack := (untouched p es).stack.push (p.pendingOf e) } =
      untouched p (es ++ [e]) := by
  simp [untouched, Stack.push]

end Refolding

namespace Routine

variable {r : Routine} {s : Refolding}

theorem changed_refoldOperand {registers : List Register} {slot : FormId × Variable}
    (h : s.changed = true) : (r.refoldOperand registers s slot).changed = true := by
  rcases r.refoldOperand_cases registers s slot with hsame | ⟨_, _, _, -, hnew⟩
  · rw [hsame]
    exact h
  · rw [hnew]

/-- An operand takes a value exactly if one is available. -/
theorem refoldOperand_untouched (registers : List Register) (slot : FormId × Variable) :
    r.refoldOperand registers (.untouched p es) slot = .untouched p es ∧
        ¬(r.isLastRead slot.2 = true ∧ registers.count slot.2.register = 1 ∧
          p.IsAvailable es registers slot.2.register) ∨
      (r.refoldOperand registers (.untouched p es) slot).changed = true ∧
        r.isLastRead slot.2 = true ∧ registers.count slot.2.register = 1 ∧
          p.IsAvailable es registers slot.2.register := by
  have hpop : ((Refolding.untouched p es).stack.popRegister (Refolding.untouched p es).pool
      slot.2.register ((RegisterSet.ofList registers).erase slot.2.register) true).isSome = true ↔
        p.IsAvailable es registers slot.2.register :=
    Stack.popRegister_isSome_iff Refolding.waiting_untouched
  unfold refoldOperand
  dsimp only
  split
  · rename_i hguard
    refine .inl ⟨rfl, ?_⟩
    rintro ⟨hread, hcount, -⟩
    simp [hread, hcount] at hguard
  · rename_i hguard
    simp only [Bool.or_eq_true, Bool.not_eq_true', decide_eq_true_eq, not_or, Bool.not_eq_false,
      not_not] at hguard
    split
    · rename_i hnone
      refine .inl ⟨rfl, fun htakes => ?_⟩
      rw [hnone] at hpop
      cases hpop.2 htakes.2.2
    · rename_i value stack hsome
      rw [hsome] at hpop
      exact .inr ⟨rfl, hguard.1, hguard.2, hpop.1 rfl⟩

/-- The operands of a value stay as they are, or one of them takes a value. -/
theorem refoldOperands_untouched (source : FormId) :
    r.refoldOperands (.untouched p es) source = .untouched p es ∧
        (∀ slot ∈ p.operandSlots source, ¬p.SlotTakes r es source slot) ∨
      (r.refoldOperands (.untouched p es) source).changed = true ∧
        ∃ slot ∈ p.operandSlots source, p.SlotTakes r es source slot := by
  have hrun := foldl_stays_or
    (r.refoldOperand ((p.operandSlots source).map fun slot => slot.2.register))
    (fun s => s.changed = true) (p.SlotTakes r es source) (fun _ _ => changed_refoldOperand)
    (p.operandSlots source).reverse fun slot _ => refoldOperand_untouched _ slot
  simp only [mem_reverse] at hrun
  exact hrun

/-- An element stays as it is, or it can take a value. -/
theorem refoldElement_untouched (e : ElementId) :
    r.refoldElement (.untouched p es) e = .untouched p (es ++ [e]) ∧ ¬p.CanTake r es e ∨
      (r.refoldElement (.untouched p es) e).changed = true ∧ p.CanTake r es e := by
  unfold refoldElement
  split
  · rename_i dst source ordered notes hset
    change p.element e = .set dst source ordered notes at hset
    have hpush : ∀ s : Stack, s.pushExisting p e = s.push (p.pendingOf e) := by
      intro s
      rw [Stack.pushExisting, Pool.pendingOf, hset]
      rfl
    dsimp only
    rcases refoldOperands_untouched source with ⟨hsame, hnone⟩ | ⟨hchanged, slot, hslot, htakes⟩
    · refine .inl ⟨?_, ?_⟩
      · rw [hsame, ← Refolding.push_untouched, ← hpush]
        rfl
      · rintro ⟨dst', source', ordered', notes', hset', slot, hslot, htakes⟩
        rw [hset] at hset'
        cases hset'
        exact hnone slot hslot htakes
    · exact .inr ⟨hchanged, dst, source, ordered, notes, hset, slot, hslot, htakes⟩
  · rename_i hother
    change ∀ dst source ordered notes, p.element e = .set dst source ordered notes → False at hother
    refine .inl ⟨?_, ?_⟩
    · rw [← Refolding.push_untouched, Pool.pendingOf, Element.pending_eq_statement hother]
      rfl
    · rintro ⟨dst, source, ordered, notes, hset, -⟩
      exact hother dst source ordered notes hset

theorem changed_refoldElement {e : ElementId} (h : s.changed = true) :
    (r.refoldElement s e).changed = true := by
  unfold refoldElement
  split
  · exact foldl_keeps (Refolding.changed · = true) (fun _ _ => changed_refoldOperand) _ h
  · exact h

/-- The elements of a form all stay as they are, or one of them can take a value. -/
theorem foldl_refoldElement_untouched (r : Routine) (p : Pool) (es todo : List ElementId) :
    todo.foldl r.refoldElement (.untouched p es) = .untouched p (es ++ todo) ∧
        (∀ before e after, todo = before ++ e :: after → ¬p.CanTake r (es ++ before) e) ∨
      (todo.foldl r.refoldElement (.untouched p es)).changed = true ∧
        ∃ before e after, todo = before ++ e :: after ∧ p.CanTake r (es ++ before) e := by
  induction todo generalizing es with
  | nil => exact .inl ⟨by simp, by simp⟩
  | cons e todo ih =>
    rw [foldl_cons]
    rcases refoldElement_untouched e with ⟨hsame, hnot⟩ | ⟨hchanged, htakes⟩
    · rw [hsame]
      rcases ih (es ++ [e]) with ⟨hrest, hnone⟩ | ⟨hchanged, before, e', after, rfl, htakes⟩
      · refine .inl ⟨by rw [hrest]; simp, fun before e' after heq => ?_⟩
        cases before with
        | nil =>
          obtain ⟨rfl, rfl⟩ := List.cons.inj heq
          rw [append_nil]
          exact hnot
        | cons b before =>
          obtain ⟨rfl, rfl⟩ := List.cons.inj heq
          have hnext := hnone before e' after rfl
          rwa [append_assoc, singleton_append] at hnext
      · refine .inr ⟨hchanged, e :: before, e', after, rfl, ?_⟩
        rwa [append_assoc, singleton_append] at htakes
    · refine .inr ⟨?_, [], e, todo, rfl, ?_⟩
      · exact foldl_keeps (Refolding.changed · = true) (fun _ _ => changed_refoldElement) todo
          hchanged
      · rw [append_nil]
        exact htakes

/-- Refolding the elements of a form changes nothing, or one of them can take a value. -/
theorem refoldStatements_settled (f : FormId) :
    r.refoldStatements p f = (p, false) ∧ p.IsSettledAt r f ∨
      (r.refoldStatements p f).2 = true ∧ ¬p.IsSettledAt r f := by
  have hstart : (⟨p, .empty, false⟩ : Refolding) = .untouched p [] := rfl
  unfold refoldStatements
  rw [hstart]
  dsimp only
  rcases foldl_refoldElement_untouched r p [] (p.elementsOf f) with
    ⟨hsame, hnone⟩ | ⟨hchanged, before, e, after, hsplit, htakes⟩
  · refine .inl ⟨?_, hnone⟩
    rw [hsame, nil_append, Refolding.rewrite_untouched]
    dsimp only
    rw [if_pos rfl]
    rfl
  · refine .inr ⟨?_, fun hsettled => hsettled before e after hsplit htakes⟩
    split
    · exact hchanged
    · rfl

theorem changed_refoldWithin (depth : Nat) {s : Pool × Bool} {f : FormId} (h : s.2 = true) :
    (r.refoldWithin depth s f).2 = true := by
  induction depth generalizing s f with
  | zero => exact h
  | succ depth ih =>
    obtain ⟨p, changed⟩ := s
    change changed = true at h
    rw [refoldWithin, h]
    exact foldl_keeps (Prod.snd · = true) (fun _ _ => ih) _
      (Bool.true_or (r.refoldStatements p f).2)

end Routine

variable {t : FormTree}

/-- A tree is its root form, or is inside a tree right below it. -/
theorem FormTree.Sub.cases_root {u : FormTree} (h : t.Sub u) :
    u = t ∨ ∃ v ∈ t.nodes.flatMap Node.kids, v.Sub u := by
  induction h with
  | self => exact .inl rfl
  | @kid u w n hu hn hw ih =>
    right
    rcases ih with rfl | ⟨v, hv, hsub⟩
    · exact ⟨w, mem_flatMap.2 ⟨n, hn, hw⟩, .self⟩
    · exact ⟨v, hv, hsub.kid hn hw⟩

namespace Routine

/-- Refolding a form and all forms below it changes nothing, or there is a form in which an
element can take a value. -/
theorem refoldWithin_settled {r : Routine} {p : Pool} {t : FormTree} {depth : Nat} (h : p.Holds t)
    (hdepth : t.forms.length ≤ depth) :
    r.refoldWithin depth (p, false) t.id = (p, false) ∧
        (∀ u, t.Sub u → p.IsSettledAt r u.id) ∨
      (r.refoldWithin depth (p, false) t.id).2 = true ∧
        ∃ u, t.Sub u ∧ ¬p.IsSettledAt r u.id := by
  induction depth generalizing t with
  | zero =>
    rw [t.forms_eq, length_cons] at hdepth
    omega
  | succ depth ih =>
    have hkids : ∀ v ∈ t.nodes.flatMap Node.kids, t.Sub v ∧ v.forms.length ≤ depth := by
      intro v hv
      obtain ⟨n, hn, hv⟩ := mem_flatMap.1 hv
      refine ⟨FormTree.Sub.self.kid hn hv, ?_⟩
      have hbelow : v.forms.Sublist n.forms := FormTree.sublist_flatMap_of_mem hv
      have hle := (hbelow.trans (FormTree.sublist_flatMap_of_mem hn)).length_le
      rw [t.forms_eq, length_cons] at hdepth
      omega
    have hrun := foldl_stays_or (fun s (v : FormTree) => r.refoldWithin depth s v.id)
      (fun s => s.2 = true) (fun v => ∃ u, v.Sub u ∧ ¬p.IsSettledAt r u.id)
      (fun _ _ => changed_refoldWithin depth) (t.nodes.flatMap Node.kids).reverse fun v hv => by
        obtain ⟨hsub, hlength⟩ := hkids v (mem_reverse.1 hv)
        have hv := ih (h.sub hsub) hlength
        push Not
        exact hv
    rw [← foldl_map, map_reverse, ← childForms_eq h] at hrun
    rw [refoldWithin]
    rcases r.refoldStatements_settled t.id with ⟨hsame, hsettled⟩ | ⟨hchanged, hnot⟩
    · rw [hsame]
      dsimp only
      rw [Bool.false_or]
      rcases hrun with ⟨hstays, hnone⟩ | ⟨hchanged, v, hv, u, hu, hnot⟩
      · refine .inl ⟨hstays, fun u hu => ?_⟩
        rcases hu.cases_root with rfl | ⟨v, hv, hsub⟩
        · exact hsettled
        · by_contra hnot
          exact hnone v (mem_reverse.2 hv) ⟨u, hsub, hnot⟩
      · exact .inr ⟨hchanged, u, (hkids v (mem_reverse.1 hv)).1.trans hu, hnot⟩
    · refine .inr ⟨?_, t, .self, hnot⟩
      dsimp only
      rw [hchanged]
      exact foldl_keeps (Prod.snd · = true) (fun _ _ => changed_refoldWithin depth) _ rfl

end Routine

/-- No list without repetitions of forms in range is longer than the pool. -/
theorem Pool.Owns.forms_length_le {p : Pool} (h : p.Owns [.tree t]) :
    t.forms.length ≤ p.forms.size := by
  have hinjective : Function.Injective FormId.index := fun f g hfg => by
    cases f
    cases g
    congr
  have hsub : t.forms.map FormId.index ⊆ List.range p.forms.size := by
    intro i hi
    obtain ⟨f, hf, rfl⟩ := mem_map.1 hi
    exact mem_range.2 (h.tree_holds.forms_lt f hf)
  have hle := ((h.tree_forms_nodup.map hinjective).subperm hsub).length_le
  rw [length_map, length_range] at hle
  exact hle

/-- Refolding says that it changed something exactly if the tree is not settled, and leaves
everything as it is otherwise. -/
theorem Reconstruction.IsTree.refold_settled {t : Reconstruction} (h : t.IsTree) (r : Routine) :
    ((t.refold r).2 = false ↔ t.pool.IsSettled r t.root) ∧
      ((t.refold r).2 = false → (t.refold r).1 = t) := by
  obtain ⟨tree, hroot, howns⟩ := h
  have hsettled : t.pool.IsSettled r t.root ↔ ∀ u, tree.Sub u → t.pool.IsSettledAt r u.id := by
    rw [Pool.IsSettled, ← hroot]
    constructor
    · exact fun hall u hu => hall u.id (howns.tree_holds.reaches_iff.2 ⟨u, hu, rfl⟩)
    · intro hall f hf
      obtain ⟨u, hu, rfl⟩ := howns.tree_holds.reaches_iff.1 hf
      exact hall u hu
  obtain ⟨k, -, -, -, -, hflag, hsame⟩ := refold_refolds r hroot howns
  have hwithin := Routine.refoldWithin_settled (r := r) howns.tree_holds howns.forms_length_le
  rw [hroot] at hwithin
  refine ⟨?_, fun hfalse => hsame ?_⟩
  · rw [hsettled]
    change (r.refoldWithin t.pool.forms.size (t.pool, false) t.root).2 = false ↔ _
    rcases hwithin with ⟨hstays, hall⟩ | ⟨hchanged, u, hu, hnot⟩
    · rw [hstays]
      exact ⟨fun _ => hall, fun _ => rfl⟩
    · rw [hchanged]
      exact iff_of_false (by simp) fun hall => hnot (hall u hu)
  · rw [hflag, decide_eq_false_iff_not] at hfalse
    omega

/-- Refolding the outcome of a reconstruction, or any tree, once more says that nothing changed
exactly if no element of any form can take a value, and then everything is as it was.  This
holds behind any number of refolds. -/
theorem refold_unchanged_iff_settled (r : Routine) (t : Reconstruction) (n : Nat)
    (h : (∃ config region env log log',
      reconstruct config r region env log = (.ok t, log')) ∨ t.IsTree) :
    (((t.refoldTimes r n).refold r).2 = false ↔
        (t.refoldTimes r n).pool.IsSettled r (t.refoldTimes r n).root) ∧
      (((t.refoldTimes r n).refold r).2 = false →
        ((t.refoldTimes r n).refold r).1 = t.refoldTimes r n) := by
  have htree : t.IsTree := by
    rcases h with ⟨config, region, env, log, log', hrun⟩ | htree
    · exact reconstruct_isTree hrun
    · exact htree
  exact (htree.refoldTimes r n).refold_settled r

theorem threeCalls_settled :
    ∃ r t log, assemble "three-calls" threeCalls = .ok r ∧
      reconstruct .standard r (.linear r) (({} : TypeTable).env r) .empty = (.ok t, log) ∧
      ¬t.pool.IsSettled r t.root ∧
      (t.refoldTimes r 2).pool.IsSettled r (t.refoldTimes r 2).root ∧
      ((t.refoldTimes r 2).refold r).1 = t.refoldTimes r 2 := by
  have hchecked : (reconstructsTo "three-calls" threeCalls fun r t =>
      (t.refold r).2 && !((t.refoldTimes r 2).refold r).2) = true := by decide +kernel
  obtain ⟨r, t, log, hr, ht, hflags⟩ := reconstructsTo_eq_true hchecked
  rw [Bool.and_eq_true, Bool.not_eq_true'] at hflags
  obtain ⟨hfirst, hthird⟩ := hflags
  have hstart := refold_unchanged_iff_settled r t 0 (.inl ⟨_, _, _, _, _, ht⟩)
  have hend := refold_unchanged_iff_settled r t 2 (.inl ⟨_, _, _, _, _, ht⟩)
  refine ⟨r, t, log, hr, ht, fun hsettled => ?_, hend.1.1 hthird, hend.2 hthird⟩
  have hnone := hstart.1.2 hsettled
  rw [Reconstruction.refoldTimes, hfirst] at hnone
  cases hnone

/-- The call that is made second stands between the first one and its use, until it is moved
to its own use.  Only the next refold moves the first call. -/
theorem threeCalls_refolds_twice :
    ∃ r t log, assemble "three-calls" threeCalls = .ok r ∧
      reconstruct .standard r (.linear r) (({} : TypeTable).env r) .empty = (.ok t, log) ∧
      (t.refold r).2 = true ∧ ((t.refold r).1.refold r).2 = true := by
  have hchecked : (reconstructsTo "three-calls" threeCalls fun r t =>
      (t.refold r).2 && ((t.refold r).1.refold r).2) = true := by decide +kernel
  obtain ⟨r, t, log, hr, ht, hflags⟩ := reconstructsTo_eq_true hchecked
  rw [Bool.and_eq_true] at hflags
  exact ⟨r, t, log, hr, ht, hflags⟩

end Decompiler
