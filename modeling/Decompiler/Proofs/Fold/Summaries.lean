import Decompiler.Proofs.Machine.Statements
import Decompiler.Proofs.Meaning.PendingDivisions

/-!
The registers that an entry of the stack is said to read and to write.  They are collected from
what the entry is made of, so what an operation reads is found there, unless the element that
stands for the operation has no operands.
-/

namespace Decompiler

def Pending.element? (p : Pool) : Pending → Option Element
  | assign _ _ _ _ _ => none
  | statement e _ => some (p.element e)
  | division e => some (p.element e)

theorem Element.localReads_of_isPlain {element : Element} (h : element.isPlain = true) :
    element.localReads = [] := by
  cases element with
  | atom a => rw [localReads, Option.map_eq_none_iff.1 (Option.isNone_iff_eq_none.1 h)]; rfl
  | _ => first | rfl | cases h

/-- The registers that some elements read are those of the elements of substance. -/
theorem Pool.mem_readRegistersOf {p : Pool} {es : List ElementId} {os : List Observation}
    (hperm : (os.map Prod.fst).Perm es) (helem : ∀ o ∈ os, p.element o.1 = o.2) {r : Register} :
    r ∈ p.readRegistersOf es ↔ ∃ o ∈ os.filter fun o => !o.2.isPlain, o.Reads r := by
  rw [readRegistersOf, RegisterSet.mem_ofList, List.mem_flatMap]
  constructor
  · rintro ⟨e, he, hr⟩
    obtain ⟨o, ho, rfl⟩ := List.mem_map.1 (hperm.mem_iff.2 he)
    rw [helem o ho] at hr
    refine ⟨o, List.mem_filter.2 ⟨ho, ?_⟩, List.mem_map.1 hr⟩
    cases hplain : o.2.isPlain with
    | false => rfl
    | true =>
      rw [Element.localReads_of_isPlain hplain] at hr
      cases hr
  · rintro ⟨o, ho, hr⟩
    have ho := (List.mem_filter.1 ho).1
    refine ⟨o.1, hperm.mem_iff.1 (List.mem_map_of_mem ho), ?_⟩
    rw [helem o ho]
    exact List.mem_map.2 hr

namespace Held

variable {p : Pool} {rs : List Root} {held : Held} {r : Register} (h : p.Owns rs)
  (hheld : held.root ∈ rs)
include h hheld

theorem mem_reads_iff : r ∈ held.pending.reads p ↔ ∃ o ∈ held.substance, o.Reads r := by
  have hnode : ∀ n, .node n ∈ rs →
      (r ∈ p.elementReadRegisters n.id ↔ ∃ o ∈ n.substance, o.Reads r) := by
    intro n hn
    obtain ⟨hholds, hnodup⟩ := h.node_of_mem hn
    rw [Pool.elementReadRegisters, hholds.elementsUnder_eq hnodup]
    exact Pool.mem_readRegistersOf n.evaluated_perm hholds.element_eq_of_evaluated
  cases held with
  | value dst t ordered notes =>
    obtain ⟨hholds, hnodup⟩ := h.of_mem hheld
    change r ∈ p.readRegistersOf (p.elementsIn t.id) ↔ _
    rw [hholds.elementsIn_eq hnodup]
    exact Pool.mem_readRegistersOf t.evaluated_perm hholds.element_eq_of_evaluated
  | statement n ordered => exact hnode n hheld
  | division n => exact hnode n hheld

theorem mem_writes (hr : r ∈ held.assigned) : r ∈ held.pending.writes p := by
  cases held with
  | value dst t ordered notes => exact RegisterSet.mem_union.2 (.inl hr)
  | statement n ordered =>
    obtain ⟨hholds, hnodup⟩ := h.node_of_mem hheld
    exact hholds.mem_elementWrites hnodup hr
  | division n =>
    obtain ⟨hholds, hnodup⟩ := h.node_of_mem hheld
    exact hholds.mem_elementWrites hnodup hr

theorem element?_pending : held.pending.element? p = held.element? := by
  cases held with
  | value dst t ordered notes => rfl
  | statement n ordered => exact congrArg some (h.node_of_mem hheld).1.element_eq
  | division n => exact congrArg some (h.node_of_mem hheld).1.element_eq

end Held

namespace Context

variable {cx : Context} {site : Nat} {op : Operation} {s s' : FoldState} {E : List Held}
  {hs : List Root}

/-- Only the result of a call that nothing reads is not written. -/
theorem mem_liveWrites {r : Register} (hr : r ∈ op.writes) :
    r ∈ cx.liveWrites site op ∨ ∃ callee args dst, op = .call callee args (some dst) ∧
      r = dst.register ∧ cx.isLiveAfter site r = false := by
  cases op with
  | call callee args result =>
    cases result with
    | none => exact .inl hr
    | some dst =>
      cases RegisterSet.mem_single.1 hr
      cases hlive : cx.isLiveAfter site dst.register with
      | true =>
        refine .inl ?_
        rw [liveWrites, Option.filter_some, if_pos hlive]
        exact hr
      | false => exact .inr ⟨callee, args, dst, rfl, rfl, rfl⟩
  | _ => exact .inl hr

/-- An operation that is folded pushes one entry, and the pool owns what waits as before.  Every
register that the operation reads is among those of the entry, or the value that waited for it was
taken, unless the entry hides it; what the operation writes is among what the entry writes, apart
from a result that nothing reads. -/
theorem push_summarized (cx : Context) (hlists : s.Lists E hs) (hmode : s.verbatim = false)
    (hop : op.isNop = false) (hrun : (cx.pushOperation site op).run s = (.ok (), s')) :
    (∃ E', s'.Lists E' hs) ∧
    ∃ q taken kept, s.stack.waiting.Perm (kept ++ taken) ∧ kept.Sublist s.stack.waiting ∧
      s'.stack.waiting = q :: kept ∧
      (∀ r ∈ op.reads, r ∈ q.reads s'.pool ∨ (∃ p ∈ taken, p.Supplies r) ∨
        cx.Hides op (q.element? s'.pool) r) ∧
      (∀ p ∈ taken, ∀ r ∈ p.reads s.pool, r ∈ q.reads s'.pool) ∧
      ∀ r ∈ op.writes, r ∈ q.writes s'.pool ∨ ∃ callee args dst,
        op = .call callee args (some dst) ∧ r = dst.register ∧ cx.isLiveAfter site r = false := by
  obtain ⟨read, own, held, hpushed, -, -, hreads, hassigned⟩ :=
    (pushOperation_adds hlists hmode hop).of_run hrun
  obtain ⟨taken, kept, T, htakes, hbrings, hlists', hheld, -⟩ := hpushed
  have hroot : held.root ∈ hs ++ (held :: kept).map Held.root :=
    List.mem_append_right _ List.mem_cons_self
  have hread : ∀ {r : Register}, (∃ o ∈ T ++ own, o.Reads r) →
      r ∈ held.pending.reads s'.pool := by
    rintro r ⟨o, ho, hr⟩
    exact (Held.mem_reads_iff hlists'.owns hroot).2 ⟨o, hheld ▸ ho, hr⟩
  refine ⟨⟨_, hlists'⟩, held.pending, taken.map Held.pending, kept.map Held.pending, ?_, ?_,
    hlists'.1, ?_, ?_, ?_⟩
  · rw [hlists.1, ← List.map_append]
    exact htakes.perm.map _
  · rw [hlists.1]
    exact htakes.sublist.map _
  · intro r hr
    rcases hreads r hr with hr | ⟨o, ho, hr⟩ | hhides
    · rcases hbrings.covers r hr with ⟨o, ho, hr⟩ | ⟨q, hq, hr⟩
      · exact .inl (hread ⟨o, List.mem_append_left _ ho, hr⟩)
      · exact .inr (.inl ⟨q.pending, List.mem_map_of_mem hq, hr⟩)
    · exact .inl (hread ⟨o, List.mem_append_right _ ho, hr⟩)
    · rw [Held.element?_pending hlists'.owns hroot]
      exact .inr (.inr hhides)
  · -- What was taken is part of the entry.
    intro p hp r hr
    obtain ⟨q, hq, rfl⟩ := List.mem_map.1 hp
    have hE : q.root ∈ hs ++ E.map Held.root := by
      refine List.mem_append_right _ (List.mem_map_of_mem ?_)
      exact htakes.perm.mem_iff.2 (List.mem_append_right _ hq)
    obtain ⟨o, ho, hr⟩ := (Held.mem_reads_iff hlists.owns hE).1 hr
    obtain ⟨fresh, -, hperm⟩ := hbrings.perm
    have hT : o ∈ T :=
      hperm.mem_iff.2 (List.mem_append_left _ (List.mem_flatMap.2 ⟨q, hq, ho⟩))
    exact hread ⟨o, List.mem_append_left _ hT, hr⟩
  · intro r hr
    refine (mem_liveWrites hr).imp_left fun hr => ?_
    exact Held.mem_writes hlists'.owns hroot (hassigned ▸ hr)

/-- A sum that is multiplied, and an instruction that the folder does not know. -/
def scaledSum : List Statement :=
  [.set ⟨8⟩ .add [.register ⟨4⟩, .register ⟨5⟩],
   .set .v0 .mulSigned [.register ⟨8⟩, .register ⟨6⟩],
   .asm "sync" none [.register ⟨7⟩]]

def scaledSumFirst : Operation :=
  .set (.write ⟨8⟩ 0) ⟨.add, [.var (.read ⟨4⟩ 0), .var (.read ⟨5⟩ 0)]⟩

def scaledSumSecond : Operation :=
  .set (.write .v0 1) ⟨.mulSigned, [.var (.read ⟨8⟩ 1), .var (.read ⟨6⟩ 1)]⟩

/-- The product takes the sum, and its entry reads what the sum reads. -/
theorem scaledSum_summarized :
    ∃ r s₁ s₂ p q, assemble "scaled-sum" scaledSum = .ok r ∧
      ((untyped r).pushOperation 0 scaledSumFirst).run (.start .empty) = (.ok (), s₁) ∧
      ((untyped r).pushOperation 1 scaledSumSecond).run s₁ = (.ok (), s₂) ∧
      s₁.stack.waiting = [p] ∧ s₂.stack.waiting = [q] ∧
      (∀ x ∈ scaledSumSecond.reads, x ∈ q.reads s₂.pool ∨ p.Supplies x ∨
        (untyped r).Hides scaledSumSecond (q.element? s₂.pool) x) ∧
      (∀ x ∈ p.reads s₁.pool, x ∈ q.reads s₂.pool) ∧ .v0 ∈ q.writes s₂.pool := by
  have hchecked : ((assemble "scaled-sum" scaledSum).toOption.any fun r =>
      let first := ((untyped r).pushOperation 0 scaledSumFirst).run (.start .empty)
      let second := ((untyped r).pushOperation 1 scaledSumSecond).run first.2
      first.1 == .ok () && second.1 == .ok () && first.2.stack.waiting.length == 1 &&
        second.2.stack.waiting.length == 1 && !first.2.verbatim) = true := by
    decide +kernel
  obtain ⟨r, hr, hcheck⟩ := exists_of_assembles hchecked
  simp only [Bool.and_eq_true, beq_iff_eq, Bool.not_eq_true'] at hcheck
  generalize hfirst : ((untyped r).pushOperation 0 scaledSumFirst).run (.start .empty) = first
    at hcheck
  obtain ⟨outcome, s₁⟩ := first
  generalize hsecond : ((untyped r).pushOperation 1 scaledSumSecond).run s₁ = second at hcheck
  obtain ⟨outcome', s₂⟩ := second
  obtain ⟨⟨⟨⟨rfl, rfl⟩, hsize₁⟩, hsize₂⟩, hmode⟩ := hcheck
  have hstart : (FoldState.start .empty).Lists [] [] := ⟨rfl, Pool.Owns.nil _⟩
  obtain ⟨⟨E, hlists⟩, -⟩ := push_summarized (untyped r) hstart rfl rfl hfirst
  obtain ⟨-, q, taken, kept, hperm, -, hpushed, hreads, htaken, hwrites⟩ :=
    push_summarized (untyped r) hlists hmode rfl hsecond
  obtain ⟨p, hp⟩ := List.length_eq_one_iff.1 hsize₁
  have hkept : kept = [] := by simpa [hpushed] using hsize₂
  have htakes : taken = [p] := by simpa [hkept, hp, List.singleton_perm, eq_comm] using hperm
  refine ⟨r, s₁, s₂, p, q, hr, hfirst, hsecond, hp, hkept ▸ hpushed, ?_, ?_, ?_⟩
  · simpa [htakes] using hreads
  · simpa [htakes] using htaken
  · refine (hwrites .v0 (RegisterSet.mem_single.2 rfl)).resolve_right ?_
    rintro ⟨callee, args, dst, hcall, -⟩
    cases hcall

/-- An instruction that is kept as it is reads a register, but its entry reads none. -/
theorem scaledSum_hides_read :
    ∃ r s' q, assemble "scaled-sum" scaledSum = .ok r ∧
      ((untyped r).pushOperation 2 (.asm "sync" none [.var (.read ⟨7⟩ 2)])).run
        ((untyped r).foldedBefore .empty 2) = (.ok (), s') ∧
      s'.stack.waiting = q :: ((untyped r).foldedBefore .empty 2).stack.waiting ∧
      ⟨7⟩ ∈ (Operation.asm "sync" none [.var (.read ⟨7⟩ 2)]).reads ∧ q.reads s'.pool = ∅ := by
  have hchecked : ((assemble "scaled-sum" scaledSum).toOption.any fun r =>
      let s := (untyped r).foldedBefore .empty 2
      let pushed := ((untyped r).pushOperation 2 (.asm "sync" none [.var (.read ⟨7⟩ 2)])).run s
      pushed.1 == .ok () && pushed.2.stack.waiting.tail == s.stack.waiting &&
        pushed.2.stack.waiting.head?.any fun q => q.reads pushed.2.pool == ∅) = true := by
    decide +kernel
  obtain ⟨r, hr, hcheck⟩ := exists_of_assembles hchecked
  simp only [Bool.and_eq_true, beq_iff_eq, Option.any_eq_true] at hcheck
  generalize hpush : ((untyped r).pushOperation 2 (.asm "sync" none [.var (.read ⟨7⟩ 2)])).run
    ((untyped r).foldedBefore .empty 2) = pushed at hcheck
  obtain ⟨outcome, s'⟩ := pushed
  obtain ⟨⟨rfl, htail⟩, q, hq, hreads⟩ := hcheck
  refine ⟨r, s', q, hr, hpush, ?_, by decide, hreads⟩
  rw [← htail]
  exact (List.eq_cons_of_mem_head? hq)

end Context

end Decompiler
