import Decompiler.Proofs.Fold.Operations

/-!
What can be observed of operations.  An operation pushes an entry that shows what the entries
that it takes show, in the order in which it evaluates its operands, and behind that what the
operation shows itself.
-/

namespace Decompiler

open List

def Held.trace : Held → List Observation
  | value _ t _ _ => t.trace
  | statement n _ => n.trace
  | division n => n.trace

theorem Held.filter_substance (held : Held) :
    (held.substance.filter fun o => o.2.isObserved) = held.trace := by
  cases held <;> exact filter_isObserved _

theorem Held.mem_substance {held : Held} {o : Observation} (h : o ∈ held.trace) :
    o ∈ held.substance := (mem_filter.1 (held.filter_substance ▸ h)).1

namespace Operation

def isLoad : Operation → Bool
  | load _ _ _ _ _ => true
  | _ => false

/-- The effect that an operation has when it is folded.  A comparison of floats and a
conditional move may be left as they are. -/
def Performs : Operation → Option Effect → Prop
  | call _ _ _, performed => performed = some .call
  | store _ _ _ _ _, performed => performed = some .store
  | special .nop, performed => performed = none
  | special _, performed | asm _ _ _, performed => performed = some .operation
  | floatCompare _ _ _, performed | conditionalMove _ _ _ _, performed =>
    performed = none ∨ performed = some .operation
  | set _ _, performed | setCondition _ _, performed | load _ _ _ _ _, performed
  | divide _ _ _, performed | branch _, performed => performed = none

/-- What can be observed of a folded operation itself: its effect, and for a load the place
in memory. -/
structure Shows (op : Operation) (own : List Observation) : Prop where
  effect : ∃ performed, op.Performs performed ∧
    own.filterMap (fun o => o.2.effect?) = performed.toList
  place : op.isLoad = true → ∃ o, own = [o] ∧ o.2.isPlace = true

variable {op : Operation} {site : Nat} {own : List Observation}

theorem Shows.nothing (h : op.Performs none) (hload : op.isLoad = false) : op.Shows [] :=
  ⟨⟨none, h, rfl⟩, fun hload' => by rw [hload] at hload'; cases hload'⟩

/-- An operation performs the effects of its own elements. -/
theorem Owns.performs {elements : List Element} (h : op.Owns site elements) :
    ∃ performed, op.Performs performed ∧
      elements.filterMap Element.effect? = performed.toList := by
  cases h with
  | nothing hop =>
    refine ⟨none, ?_, rfl⟩
    cases op <;> first | rfl | exact .inl rfl | cases hop
  | literal hop =>
    refine ⟨some .operation, ?_, rfl⟩
    cases op with
    | special kind => cases kind <;> first | rfl | cases hop
    | _ => first | rfl | exact .inr rfl | cases hop
  | falseMove dst source test onZero => exact ⟨none, .inl rfl, rfl⟩
  | load dst base offset size kind h =>
    exact ⟨none, rfl, filterMap_cons_none (Element.effect?_of_isPlace h)⟩
  | constantStore base offset value size kind => exact ⟨some .store, rfl, rfl⟩
  | store base offset value size kind h f g =>
    exact ⟨some .store, rfl, filterMap_cons_none (Element.effect?_of_isPlace h)⟩
  | call callee args result f fs => exact ⟨some .call, rfl, rfl⟩
  | branch b => exact ⟨none, rfl, rfl⟩

/-- An operation shows what can be observed of its own elements. -/
theorem Owns.shows (h : op.Owns site (own.map Prod.snd)) :
    op.Shows (own.filter fun o => o.2.isObserved) := by
  refine ⟨?_, fun hload => ?_⟩
  · obtain ⟨performed, hperforms, heffects⟩ := h.performs
    refine ⟨performed, hperforms, ?_⟩
    rw [← heffects, filterMap_map, filterMap_filter]
    refine filterMap_congr fun o _ => ?_
    split
    · rfl
    · rename_i hsilent
      cases heffect : o.2.effect? with
      | none => exact heffect.symm
      | some effect => exact absurd (Element.isObserved_of_effect? (by rw [heffect]; rfl)) hsilent
  · generalize hown : own.map Prod.snd = elements at h
    cases h with
    | load dst base offset size kind hplace =>
      obtain ⟨o, rfl, rfl⟩ := map_eq_singleton_iff.1 hown
      exact ⟨o, filter_cons_of_pos (Element.isObserved_of_isPlace hplace), hplace⟩
    | nothing hop =>
      cases op with
      | load => cases hop
      | _ => cases hload
    | literal hop =>
      cases op with
      | load => cases hop
      | _ => cases hload
    | _ => cases hload

end Operation

namespace Context

variable {cx : Context} {s : FoldState} {E : List Held} {hs : List Root} {site : Nat}

/-- Folding an instruction pushes an entry that shows what it takes and what its operation shows,
unless there is nothing to do. -/
theorem pushInstruction_shows (h : s.Lists E hs) (hmode : s.verbatim = false) :
    (cx.pushInstruction site).Ends s fun _ s' => ∃ instr, cx.routine.code[site]? = some instr ∧
      (instr.op.isNop = true ∧ s' = s ∨ ∃ taken kept held own,
        Held.Takes instr.op.isStrict (instr.op.evaluates.map Atom.register?) E taken kept ∧
        s'.Lists (held :: kept) hs ∧ held.trace = taken.flatMap Held.trace ++ own ∧ held.Guarded ∧
        instr.op.Shows own ∧ ∀ o ∈ own, s.pool.elements.size ≤ o.1.index) := by
  unfold pushInstruction Routine.instruction
  cases hcode : cx.routine.code[site]? with
  | none => simp
  | some instr =>
    dsimp only
    cases hnop : instr.op.isNop with
    | true =>
      rw [pushOperation, if_pos hnop, TryFoldM.ends_pure]
      exact ⟨instr, rfl, .inl ⟨hnop, rfl⟩⟩
    | false =>
      refine (pushOperation_adds h hmode hnop).mono fun _ s' hadds => ?_
      obtain ⟨read, own, held, hpushed, howns, hrecent, -⟩ := hadds
      obtain ⟨taken, kept, T, htakes, hbrings, hlists, hheld, -, hguarded⟩ := hpushed
      refine ⟨instr, rfl, .inr ⟨taken, kept, held, _, htakes, hlists, ?_, hguarded,
        howns.shows, fun o ho => hrecent o (mem_filter.1 ho).1⟩⟩
      rw [← held.filter_substance, hheld, filter_append, hbrings.observed, filter_flatMap]
      simp only [Held.filter_substance]

end Context

end Decompiler
