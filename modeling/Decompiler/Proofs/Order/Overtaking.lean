import Decompiler.Proofs.Fold.Runs
import Decompiler.Proofs.Order.Operations

/-!
Entries that overtake others.  An entry that is taken is evaluated behind those above it,
which is harmless unless the two are in conflict.  Sequence points keep this from happening,
but not everywhere: a division and a comparison of floats are no sequence points even if
their operands have effects, what only reads memory is none either, and a store turns its
operands around.
-/

namespace Decompiler

open List

namespace Pool

def evaluatedBy (p : Pool) : Pending → List ElementId
  | .assign _ source _ _ _ => p.evaluated source
  | .statement e _ => p.evaluatedUnder e
  | .division e => p.evaluatedUnder e

def acts (p : Pool) (q : Pending) : Bool :=
  (p.evaluatedBy q).any fun e => (p.element e).effect?.isSome

def hasPlace (p : Pool) (q : Pending) : Bool :=
  (p.evaluatedBy q).any fun e => (p.element e).isPlace

def bothAct (p : Pool) (upper lower : Pending) : Bool := p.acts upper && p.acts lower

def actsOnPlace (p : Pool) (upper lower : Pending) : Bool :=
  p.acts upper && p.hasPlace lower || p.hasPlace upper && p.acts lower

/-- Whether an entry is passed although it is not clear that it can be: it is deferred, or
has no effect. -/
def isLoose (p : Pool) (q : Pending) : Bool := q.isDeferred || !p.acts q

/-- Whether an operation puts the lower one of two entries behind the upper one.  It takes
the lower one from under a loose one that is kept, or both for operands, and then the upper
one is loose or the operation is a store. -/
def overtakes (p : Pool) (op : Operation) (kept : List Pending) (upper lower : Pending) : Bool :=
  !kept.contains lower &&
    if kept.contains upper then p.isLoose upper
    else [upper.register?, lower.register?].isSublist (op.evaluates.map Atom.register?) &&
      (p.isLoose upper || !op.isStrict)

end Pool

/-- Whether folding an instruction puts an entry behind one that it is in conflict with. -/
def Context.overtakesAt (cx : Context) (conflict : Pool → Pending → Pending → Bool)
    (log : EventLog) (site : Nat) : Bool :=
  match cx.routine.code[site]? with
  | some ⟨op, _⟩ =>
    let s := cx.foldedBefore log site
    let kept := (cx.foldedBefore log (site + 1)).stack.waiting.tail
    decide ¬s.stack.waiting.Pairwise fun upper lower =>
      (s.pool.overtakes op kept upper lower && conflict s.pool upper lower) = false
  | none => false

variable {held : Held}

theorem Held.mem_elements {o : Observation} (h : o ∈ held.trace) : o.1 ∈ held.root.elements := by
  cases held with
  | value dst t ordered notes =>
    exact t.evaluated_perm.subset (mem_map_of_mem (mem_filter.1 h).1)
  | statement n ordered =>
    exact n.evaluated_perm.subset (mem_map_of_mem (mem_filter.1 h).1)
  | division n => exact n.evaluated_perm.subset (mem_map_of_mem (mem_filter.1 h).1)

namespace FoldState.Lists

variable {s : FoldState} {E : List Held} {hs : List Root} {held upper lower : Held}
  (h : s.Lists E hs)
include h

theorem owns_one (hheld : held ∈ E) : s.pool.Owns [held.root] :=
  h.owns.one (mem_append_right _ (mem_map_of_mem hheld))

theorem trace_lt (hheld : held ∈ E) : ∀ o ∈ held.trace, o.1.index < s.pool.elements.size := by
  intro o ho
  apply (h.owns_one hheld).elements_lt
  rw [flatMap_singleton]
  exact Held.mem_elements ho

/-- Two entries have nothing in common. -/
theorem trace_ne (hE : Precedes E upper lower) {o o' : Observation} (ho : o ∈ upper.trace)
    (ho' : o' ∈ lower.trace) : o ≠ o' := by
  have hboth : s.pool.Owns [upper.root, lower.root] :=
    h.owns.sublist ((hE.map Held.root).trans (sublist_append_right _ _))
  have hnodup := hboth.elements
  rw [flatMap_cons, flatMap_singleton] at hnodup
  rintro rfl
  exact (nodup_append.1 hnodup).2.2 _ (Held.mem_elements ho) _ (Held.mem_elements ho') rfl

/-- What can be observed of an entry can be read off the pool. -/
theorem any_evaluatedBy (hheld : held ∈ E) {test : Element → Bool}
    (htest : ∀ element, test element = true → element.isObserved = true) :
    ((s.pool.evaluatedBy held.pending).any fun e => test (s.pool.element e)) = true ↔
      ∃ o ∈ held.trace, test o.2 = true := by
  have howns := h.owns_one hheld
  have hfilter : ∀ os : List Observation, (∀ o ∈ os, s.pool.element o.1 = o.2) →
      (((os.map Prod.fst).any fun e => test (s.pool.element e)) = true ↔
        ∃ o ∈ os.filter fun o => o.2.isObserved, test o.2 = true) := by
    intro os hos
    rw [any_map, any_eq_true]
    refine exists_congr fun o => ?_
    rw [mem_filter, and_assoc, Function.comp_apply]
    refine and_congr_right fun ho => ?_
    rw [hos o ho]
    exact ⟨fun hpass => ⟨htest o.2 hpass, hpass⟩, fun hpass => hpass.2⟩
  have hnode : ∀ n : Node FormTree, s.pool.Owns [.node n] →
      (((s.pool.evaluatedUnder n.id).any fun e => test (s.pool.element e)) = true ↔
        ∃ o ∈ n.trace, test o.2 = true) := by
    intro n hn
    have hholds : s.pool.HoldsNode n := hn.holds _ mem_cons_self
    rw [hn.evaluatedUnder_eq]
    exact hfilter _ hholds.element_eq_of_evaluated
  cases held with
  | value dst t ordered notes =>
    have hholds := howns.tree_holds
    change ((s.pool.evaluated t.id).any fun e => test (s.pool.element e)) = true ↔ _
    rw [hholds.evaluated_eq howns.tree_elements_nodup]
    exact hfilter _ hholds.element_eq_of_evaluated
  | statement n ordered => exact hnode n howns
  | division n => exact hnode n howns

theorem acts_iff (hheld : held ∈ E) :
    s.pool.acts held.pending = true ↔ ∃ o ∈ held.trace, o.2.effect?.isSome = true :=
  h.any_evaluatedBy hheld fun _ => Element.isObserved_of_effect?

theorem hasPlace_iff (hheld : held ∈ E) :
    s.pool.hasPlace held.pending = true ↔ ∃ o ∈ held.trace, o.2.isPlace = true :=
  h.any_evaluatedBy hheld fun _ => Element.isObserved_of_isPlace

/-- Entries that change places without a sequence point in between overtake each other. -/
theorem overtakes {op : Operation} {taken kept : List Held} (hguarded : ∀ held ∈ E, held.Guarded)
    (htakes : Held.Takes op.isStrict (op.evaluates.map Atom.register?) E taken kept)
    (hE : Precedes E upper lower) (hnew : Precedes (kept.reverse ++ taken) upper lower) :
    s.pool.overtakes op (kept.map Held.pending) upper.pending lower.pending = true := by
  have hkept : ∀ held ∈ E, (kept.map Held.pending).contains held.pending = true ↔ held ∈ kept := by
    intro held hheld
    rw [contains_iff_mem, mem_map]
    refine ⟨?_, fun hmem => ⟨held, hmem, rfl⟩⟩
    rintro ⟨held', hmem, heq⟩
    exact inj_on_of_nodup_map h.nodup_pending (htakes.sublist.subset hmem) hheld heq ▸ hmem
  have hloose : upper.pending.isSequencePoint = false → s.pool.isLoose upper.pending = true := by
    intro hpoint
    rw [Pool.isLoose, Bool.or_eq_true]
    rcases hguarded upper hE.left_mem with hordered | hdeferred | hpure
    · rw [hpoint] at hordered
      cases hordered
    · exact .inl hdeferred
    · right
      rw [Bool.not_eq_true', ← Bool.not_eq_true, h.acts_iff hE.left_mem]
      rintro ⟨o, ho, heffect⟩
      rw [hpure o (Held.mem_substance ho)] at heffect
      cases heffect
  obtain ⟨hlower, hupper⟩ := htakes.of_precedes h.nodup hE hnew
  rw [← hkept lower hE.right_mem, Bool.not_eq_true] at hlower
  rw [Pool.overtakes, hlower, Bool.not_false, Bool.true_and]
  rcases hupper with ⟨hmem, hpoint⟩ | ⟨hmem, hplaces, hpoint⟩
  · rw [if_pos ((hkept upper hE.left_mem).2 hmem)]
    exact hloose hpoint
  · rw [if_neg (mt (hkept upper hE.left_mem).1 hmem), isSublist_iff_sublist.2 hplaces,
      Bool.true_and]
    cases hstrict : op.isStrict with
    | true => rw [hloose (hpoint hstrict), Bool.true_or]
    | false => rw [Bool.not_false, Bool.or_true]

end FoldState.Lists

/-- Where nothing overtakes what it is in conflict with, what overtakes is not in conflict. -/
theorem Context.conflict_eq_false {cx : Context} {conflict : Pool → Pending → Pending → Bool}
    {log : EventLog} {site : Nat} {instr : Instruction} {E kept : List Held}
    {upper lower : Held} (hcode : cx.routine.code[site]? = some instr)
    (hclear : cx.overtakesAt conflict log site = false)
    (hbefore : (cx.foldedBefore log site).Lists E [])
    (hbehind : (cx.foldedBefore log (site + 1)).Lists (held :: kept) [])
    (hE : Precedes E upper lower)
    (hover : (cx.foldedBefore log site).pool.overtakes instr.op (kept.map Held.pending)
      upper.pending lower.pending = true) :
    conflict (cx.foldedBefore log site).pool upper.pending lower.pending = false := by
  have hkept : (cx.foldedBefore log (site + 1)).stack.waiting.tail = kept.map Held.pending := by
    rw [hbehind.1, map_cons, tail_cons]
  rw [Context.overtakesAt, hcode] at hclear
  simp only [decide_eq_false_iff_not, not_not, hkept, hbefore.1] at hclear
  have hpair := pairwise_iff_forall_sublist.1 hclear (hE.map Held.pending)
  rw [hover, Bool.true_and] at hpair
  exact hpair

/-- A conflict that arises between any two entries of which something is watched. -/
def Detects (watch : Observation → Bool) (conflict : Pool → Pending → Pending → Bool) : Prop :=
  ∀ (s : FoldState) (E : List Held), s.Lists E [] → ∀ upper lower, Precedes E upper lower →
    conflict s.pool upper.pending lower.pending = false →
      upper.trace.filter watch = [] ∨ lower.trace.filter watch = []

theorem detects_effects : Detects (fun o => o.2.effect?.isSome) Pool.bothAct := by
  intro s E h upper lower hE hclear
  have hquiet : ∀ held ∈ E, s.pool.acts held.pending = false →
      held.trace.filter (fun o => o.2.effect?.isSome) = [] := by
    intro held hheld hquiet
    rw [filter_eq_nil_iff]
    intro o ho heffect
    rw [(h.acts_iff hheld).2 ⟨o, ho, heffect⟩] at hquiet
    cases hquiet
  rcases Bool.and_eq_false_iff.1 hclear with hnone | hnone
  · exact .inl (hquiet upper hE.left_mem hnone)
  · exact .inr (hquiet lower hE.right_mem hnone)

/-- An effect and a place in memory. -/
theorem detects_pair {x y : Observation} (hx : x.2.effect?.isSome = true)
    (hy : y.2.isPlace = true) : Detects (fun o => decide (o = x ∨ o = y)) Pool.actsOnPlace := by
  intro s E h upper lower hE hclear
  by_contra hboth
  rw [not_or] at hboth
  obtain ⟨o, ho⟩ := exists_mem_of_ne_nil _ hboth.1
  obtain ⟨o', ho'⟩ := exists_mem_of_ne_nil _ hboth.2
  rw [mem_filter, decide_eq_true_iff] at ho ho'
  obtain ⟨hupper, ho⟩ := ho
  obtain ⟨hlower, ho'⟩ := ho'
  have hne := h.trace_ne hE hupper hlower
  suffices hconflict : s.pool.actsOnPlace upper.pending lower.pending = true by
    rw [hclear] at hconflict
    cases hconflict
  rw [Pool.actsOnPlace, Bool.or_eq_true, Bool.and_eq_true, Bool.and_eq_true,
    h.acts_iff hE.left_mem, h.acts_iff hE.right_mem, h.hasPlace_iff hE.left_mem,
    h.hasPlace_iff hE.right_mem]
  -- Both stand in one entry each, so they are not in the same one.
  rcases ho with rfl | rfl
  · rcases ho' with rfl | rfl
    · exact absurd rfl hne
    · exact .inl ⟨⟨o, hupper, hx⟩, o', hlower, hy⟩
  · rcases ho' with rfl | rfl
    · exact .inr ⟨⟨o, hupper, hy⟩, o', hlower, hx⟩
    · exact absurd rfl hne

end Decompiler
