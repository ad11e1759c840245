import Decompiler.Proofs.Order.Overtaking

/-!
Program order.  Folding straight-line code keeps its effects in the order of the
instructions, and every load between the effects of the instructions around it, as long as
no entry of the stack overtakes another one that it is in conflict with.
-/

namespace Decompiler

open List

namespace Held

theorem Settles.trace_eq {held : Held} {n : Node FormTree} (h : held.Settles n) :
    n.trace = held.trace := by
  cases h with
  | value dst t ordered notes e =>
    rw [Node.trace_eq, flatMap_singleton]
    exact append_nil _
  | statement n ordered => rfl
  | division n => rfl

end Held

/-- The form that the stack is turned into shows the entries, the oldest first. -/
theorem FoldState.Lists.exists_form {s : FoldState} {E : List Held} {f : FormId} {p : Pool}
    (h : s.Lists E []) (hform : s.stack.rewriteToForm s.pool = (f, p)) :
    ∃ t, t.id = f ∧ p.Holds t ∧ t.elements.Nodup ∧ t.trace = E.reverse.flatMap Held.trace := by
  have htake : FoldM.takeForm s = (f, { s with pool := p, stack := .empty }) := by
    rw [FoldM.takeForm, hform]
  have hends := h.takeForm
  rw [FoldM.Ends, htake] at hends
  obtain ⟨ns, hlists, hsettles⟩ := hends
  refine ⟨.mk f ns, rfl, hlists.owns.tree_holds, hlists.owns.tree_elements_nodup, ?_⟩
  rw [FormTree.trace_mk]
  rcases hsettles with hsettles | ⟨rfl, e, rfl⟩
  · clear hlists
    generalize E.reverse = held at hsettles
    induction hsettles with
    | nil => rfl
    | cons hfirst hrest ih => rw [flatMap_cons, flatMap_cons, hfirst.trace_eq, ih]
  · rfl

namespace Context

/-- What folding the code before a position has achieved.  Every instruction has shown
something of its own, and the entries show all of it. -/
structure Follows (cx : Context) (log : EventLog) (k : Nat) (own : Nat → List Observation)
    (E : List Held) : Prop where
  lists : (cx.foldedBefore log k).Lists E []
  mode : (cx.foldedBefore log k).verbatim = false
  guarded : ∀ held ∈ E, held.Guarded
  shows : ∀ site < k, ∃ instr, cx.routine.code[site]? = some instr ∧
    instr.op.Shows (own site)
  fresh : ∀ site < k, ∀ o ∈ own site,
    (cx.foldedBefore log site).pool.elements.size ≤ o.1.index ∧
      o.1.index < (cx.foldedBefore log (site + 1)).pool.elements.size
  perm : (E.reverse.flatMap Held.trace).Perm ((List.range k).flatMap own)
  order : ∀ watch conflict, Detects watch conflict →
    (∀ site < k, cx.overtakesAt conflict log site = false) →
      (E.reverse.flatMap Held.trace).filter watch = ((List.range k).flatMap own).filter watch

variable {cx : Context} {log : EventLog} {s : FoldState} {k n : Nat}
  {own : Nat → List Observation} {E : List Held}

theorem Follows.start (cx : Context) (log : EventLog) :
    cx.Follows log 0 (fun _ => []) [] where
  lists := ⟨rfl, Pool.Owns.nil _⟩
  mode := rfl
  guarded := by simp
  shows := by simp
  fresh := by simp
  perm := .nil
  order := fun _ _ _ _ => rfl

/-- One more instruction that shows something new. -/
theorem Follows.extend (h : cx.Follows log k own E) {E' : List Held} {new : List Observation}
    {instr : Instruction} (hcode : cx.routine.code[k]? = some instr)
    (hlists : (cx.foldedBefore log (k + 1)).Lists E' [])
    (hmode : (cx.foldedBefore log (k + 1)).verbatim = false)
    (hguarded : ∀ held ∈ E', held.Guarded) (hshows : instr.op.Shows new)
    (hfresh : ∀ o ∈ new, (cx.foldedBefore log k).pool.elements.size ≤ o.1.index ∧
      o.1.index < (cx.foldedBefore log (k + 1)).pool.elements.size)
    (hperm : (E'.reverse.flatMap Held.trace).Perm (E.reverse.flatMap Held.trace ++ new))
    (horder : ∀ watch conflict, Detects watch conflict → cx.overtakesAt conflict log k = false →
      (E'.reverse.flatMap Held.trace).filter watch =
        (E.reverse.flatMap Held.trace).filter watch ++ new.filter watch) :
    cx.Follows log (k + 1) (Function.update own k new) E' := by
  have hrange : (List.range (k + 1)).flatMap (Function.update own k new) =
      (List.range k).flatMap own ++ new := by
    rw [range_succ, flatMap_append, flatMap_singleton, Function.update_self]
    congr 1
    refine flatMap_congr fun site hsite => ?_
    rw [Function.update_of_ne (Nat.ne_of_lt (mem_range.1 hsite))]
  refine ⟨hlists, hmode, hguarded, ?_, ?_, ?_, ?_⟩
  · intro site hsite
    rcases Nat.lt_succ_iff_lt_or_eq.1 hsite with hlt | rfl
    · rw [Function.update_of_ne (Nat.ne_of_lt hlt)]
      exact h.shows site hlt
    · rw [Function.update_self]
      exact ⟨instr, hcode, hshows⟩
  · intro site hsite
    rcases Nat.lt_succ_iff_lt_or_eq.1 hsite with hlt | rfl
    · rw [Function.update_of_ne (Nat.ne_of_lt hlt)]
      exact h.fresh site hlt
    · rw [Function.update_self]
      exact hfresh
  · rw [hrange]
    exact hperm.trans (h.perm.append_right new)
  · intro watch conflict hdetects hclear
    rw [hrange, filter_append, horder watch conflict hdetects (hclear k (Nat.lt_succ_self k)),
      h.order watch conflict hdetects fun site hsite => hclear site (Nat.lt_succ_of_lt hsite)]

/-- Folding one instruction. -/
theorem Follows.step (h : cx.Follows log k own E)
    (hstep : (cx.pushInstruction k).run (cx.foldedBefore log k) =
      (.ok (), cx.foldedBefore log (k + 1))) : ∃ own' E', cx.Follows log (k + 1) own' E' := by
  have hmode := (((cx.pushInstruction_tame k).advances _).of_run hstep).mode.trans h.mode
  obtain ⟨instr, hcode, ⟨hnop, hsame⟩ |
      ⟨taken, kept, held, own', htakes, hlists, htrace, hheld, hshows, hfresh⟩⟩ :=
    (pushInstruction_shows h.lists h.mode).of_run hstep
  · have hop : instr.op = .special .nop := by
      unfold Operation.isNop at hnop
      split at hnop
      · assumption
      · cases hnop
    have hshows : instr.op.Shows [] := by
      rw [hop]
      exact .nothing rfl rfl
    refine ⟨_, E, h.extend hcode (hsame ▸ h.lists) hmode h.guarded hshows (by simp) ?_ ?_⟩
    · rw [append_nil]
    · simp
  · have hsplit : (held :: kept).reverse.flatMap Held.trace =
        kept.reverse.flatMap Held.trace ++ taken.flatMap Held.trace ++ own' := by
      rw [reverse_cons, flatMap_append, flatMap_singleton, htrace, append_assoc]
    refine ⟨_, held :: kept, h.extend hcode hlists hmode ?_ hshows ?_ ?_ ?_⟩
    · exact forall_mem_cons.2 ⟨hheld, fun h' hkept => h.guarded h' (htakes.sublist.subset hkept)⟩
    · refine fun o ho => ⟨hfresh o ho, hlists.trace_lt mem_cons_self o ?_⟩
      rw [htrace]
      exact mem_append_right _ ho
    · rw [hsplit, ← flatMap_append]
      refine List.Perm.append_right own' (List.Perm.flatMap_right _ ?_)
      exact ((reverse_perm E).trans (htakes.perm.trans
        ((reverse_perm kept).symm.append_right taken))).symm
    · intro watch conflict hdetects hclear
      rw [hsplit, filter_append, filter_append, filter_flatMap, filter_flatMap, filter_flatMap]
      congr 1
      refine (htakes.flatMap_eq fun upper lower hE hplaces => ?_).symm
      refine hdetects _ E h.lists upper lower hE ?_
      exact conflict_eq_false hcode hclear h.lists hlists hE
        (h.lists.overtakes h.guarded htakes hE hplaces)

/-- Folding all code up to a position. -/
theorem exists_follows (h : ((List.range n).forM cx.pushInstruction).run (.start log) = (.ok (), s))
    (hk : k ≤ n) : ∃ own E, cx.Follows log k own E := by
  induction k with
  | zero => exact ⟨_, _, Follows.start cx log⟩
  | succ k ih =>
    obtain ⟨own, E, hfollows⟩ := ih (Nat.le_of_succ_le hk)
    exact hfollows.step (run_foldedBefore h hk)

theorem filterMap_performed_filter (os : List Observation) :
    (os.filter fun o => o.2.effect?.isSome).filterMap Observation.performed =
      os.filterMap Observation.performed := by
  rw [filterMap_filter]
  refine filterMap_congr fun o _ => ?_
  rw [Observation.performed]
  cases o.2.effect? <;> rfl

/-- The effects among some elements, with the instructions they come from. -/
def effectsFrom (cx : Context) (log : EventLog) (p : Pool) (es : List ElementId) :
    List (Nat × Effect) :=
  (p.effectsOf es).map fun effect => (cx.origin log effect.1, effect.2)

/-- The effects of the first instructions, in program order. -/
def programEffects (performed : Nat → Option Effect) (n : Nat) : List (Nat × Effect) :=
  (List.range n).filterMap fun site => (performed site).map fun effect => (site, effect)

/-- The effect that an instruction shows. -/
def effectShown (own : Nat → List Observation) (site : Nat) : Option Effect :=
  ((own site).filterMap fun o => o.2.effect?).head?

variable {site : Nat} {o : Observation}

theorem Follows.effectShown (h : cx.Follows log n own E) (hsite : site < n) :
    ((own site).filterMap fun o => o.2.effect?) = (Context.effectShown own site).toList ∧
      ∀ instr, cx.routine.code[site]? = some instr →
        instr.op.Performs (Context.effectShown own site) := by
  obtain ⟨instr, hcode, ⟨performed, hperforms, hown⟩, -⟩ := h.shows site hsite
  have hshown : Context.effectShown own site = performed := by
    rw [Context.effectShown, hown, Option.head?_toList]
  rw [hshown]
  refine ⟨hown, fun instruction' hcode' => ?_⟩
  cases hcode.symm.trans hcode'
  exact hperforms

/-- What the first instructions show has their effects. -/
theorem Follows.effects_eq (h : cx.Follows log cx.routine.code.size own E)
    (hrun : ((List.range cx.routine.code.size).forM cx.pushInstruction).run (.start log) =
      (.ok (), s)) (hk : k ≤ cx.routine.code.size) :
    (((List.range k).flatMap own).filterMap Observation.performed).map
        (fun effect => (cx.origin log effect.1, effect.2)) =
      programEffects (Context.effectShown own) k := by
  rw [programEffects, filterMap_flatMap, map_flatMap, filterMap_eq_flatMap_toList]
  refine flatMap_congr fun site hsite => ?_
  have hsite : site < cx.routine.code.size := Nat.lt_of_lt_of_le (mem_range.1 hsite) hk
  have hlocated : ((own site).filterMap Observation.performed).map
        (fun effect => (cx.origin log effect.1, effect.2)) =
      ((own site).filterMap fun o => o.2.effect?).map fun effect => (site, effect) := by
    rw [map_filterMap, map_filterMap]
    refine filterMap_congr fun o ho => ?_
    obtain ⟨hnew, hold⟩ := h.fresh site hsite o ho
    rw [Observation.performed, Option.map_map, ← origin_eq hrun hsite hnew hold]
    rfl
  rw [hlocated, (h.effectShown hsite).1]
  cases Context.effectShown own site <;> rfl

/-- Straight-line code that can be folded keeps the order of its effects, unless an entry
with an effect overtakes another one: the form that is left evaluates exactly the effects of
the instructions, in program order. -/
theorem effects_in_program_order (cx : Context) (log : EventLog) {s : FoldState} {f : FormId}
    {p : Pool}
    (hrun : ((List.range cx.routine.code.size).forM cx.pushInstruction).run (.start log) =
      (.ok (), s))
    (hform : s.stack.rewriteToForm s.pool = (f, p))
    (hclear : ∀ site < cx.routine.code.size, cx.overtakesAt Pool.bothAct log site = false) :
    ∃ performed : Nat → Option Effect,
      (∀ (site : Nat) (instr : Instruction), cx.routine.code[site]? = some instr →
        instr.op.Performs (performed site)) ∧
      cx.effectsFrom log p (p.evaluated f) = programEffects performed cx.routine.code.size := by
  obtain ⟨own, E, hfollows⟩ := exists_follows hrun (Nat.le_refl _)
  have hlists := hfollows.lists
  rw [foldedBefore_eq hrun] at hlists
  obtain ⟨t, rfl, hholds, hnodup, htrace⟩ := hlists.exists_form hform
  have horder := hfollows.order _ _ detects_effects hclear
  refine ⟨effectShown own, fun site instr hcode => ?_, ?_⟩
  · exact (hfollows.effectShown (Array.getElem?_eq_some_iff.1 hcode).1).2 instr hcode
  · rw [effectsFrom, hholds.evaluated_eq hnodup,
      Pool.effectsOf_evaluated hholds.element_eq_of_evaluated]
    change (t.trace.filterMap Observation.performed).map _ = _
    rw [htrace, ← filterMap_performed_filter, horder, filterMap_performed_filter]
    exact hfollows.effects_eq hrun (Nat.le_refl _)

/-- Adds the result of a call to a quotient that takes another call, and stores the sum at an
address that is loaded. -/
def storeQuotient : List Statement :=
  [.call ⟨25⟩ [],
   .move ⟨16⟩ (.register .v0),
   .call ⟨24⟩ [],
   .divide .v0 ⟨4⟩ true,
   .move .v0 (.register .lo),
   .set ⟨9⟩ .add [.register ⟨16⟩, .register .v0],
   .load ⟨8⟩ (.register ⟨4⟩) 0 4 .signed,
   .store (.register ⟨8⟩) 0 (.register ⟨9⟩) 4 .integer,
   .special .trap]

theorem storeQuotient_in_program_order :
    ∃ (r : Routine) (s : FoldState) (f : FormId) (p : Pool),
      assemble "store-quotient" storeQuotient = .ok r ∧
      ((List.range r.code.size).forM (untyped r).pushInstruction).run (.start .empty) =
        (.ok (), s) ∧
      s.stack.rewriteToForm s.pool = (f, p) ∧
      (∀ site < r.code.size, (untyped r).overtakesAt Pool.bothAct .empty site = false) ∧
      ∃ performed : Nat → Option Effect,
        (∀ (site : Nat) (instr : Instruction), r.code[site]? = some instr →
          instr.op.Performs (performed site)) ∧
        (untyped r).effectsFrom .empty p (p.evaluated f) =
          programEffects performed r.code.size := by
  have hchecked : (foldsTo "store-quotient" storeQuotient fun r _ =>
      (List.range r.code.size).all fun site =>
        !(untyped r).overtakesAt Pool.bothAct .empty site) = true := by decide +kernel
  obtain ⟨r, s, hr, hrun, hclear⟩ := foldsTo_eq_true hchecked
  simp only [List.all_eq_true, List.mem_range, Bool.not_eq_true'] at hclear
  exact ⟨r, s, _, _, hr, hrun, rfl, hclear,
    effects_in_program_order (untyped r) .empty hrun rfl hclear⟩

/-- Divides the result of a call, and then adds to the result of a call before it. -/
def twoCallsDivision : List Statement :=
  [.call ⟨25⟩ [],
   .move ⟨16⟩ (.register .v0),
   .call ⟨24⟩ [],
   .divide .v0 ⟨4⟩ true,
   .set .v0 .add [.register ⟨16⟩, .int 1]]

/-- The division holds the second call and is no sequence point.  The first call is taken
from under it, and is made behind it. -/
theorem twoCallsDivision_turns_calls :
    ∃ (r : Routine) (s : FoldState) (f : FormId) (p : Pool),
      assemble "two-calls-division" twoCallsDivision = .ok r ∧
      ((List.range r.code.size).forM (untyped r).pushInstruction).run (.start .empty) =
        (.ok (), s) ∧
      s.stack.rewriteToForm s.pool = (f, p) ∧
      (untyped r).effectsFrom .empty p (p.evaluated f) = [(2, .call), (0, .call)] := by
  have hchecked : (foldsTo "two-calls-division" twoCallsDivision fun r s =>
      let form := s.stack.rewriteToForm s.pool
      (untyped r).effectsFrom .empty form.2 (form.2.evaluated form.1) ==
        [(2, .call), (0, .call)]) = true := by decide +kernel
  obtain ⟨r, s, hr, hrun, heffects⟩ := foldsTo_eq_true hchecked
  exact ⟨r, s, _, _, hr, hrun, rfl, eq_of_beq heffects⟩

/-- All that the entries show comes from an instruction. -/
theorem Follows.mem_own (h : cx.Follows log cx.routine.code.size own E)
    (hrun : ((List.range cx.routine.code.size).forM cx.pushInstruction).run (.start log) =
      (.ok (), s)) (ho : o ∈ E.reverse.flatMap Held.trace) : o ∈ own (cx.origin log o.1) := by
  obtain ⟨site, hsite, ho⟩ := mem_flatMap.1 (h.perm.subset ho)
  obtain ⟨hnew, hold⟩ := h.fresh site (mem_range.1 hsite) o ho
  rw [origin_eq hrun (mem_range.1 hsite) hnew hold]
  exact ho

/-- What is evaluated before the place of a load has the effects of the instructions before
the load. -/
theorem Follows.before_place (h : cx.Follows log cx.routine.code.size own E)
    (hclear : ∀ site < cx.routine.code.size, cx.overtakesAt Pool.actsOnPlace log site = false)
    (hsite : site < cx.routine.code.size) (hown : own site = [o]) (hplace : o.2.isPlace = true)
    {before behind : List Observation} (hnodup : (before ++ o :: behind).Nodup)
    (htrace : E.reverse.flatMap Held.trace = before ++ o :: behind) :
    (before.filterMap Observation.performed).Perm
      (((List.range site).flatMap own).filterMap Observation.performed) := by
  obtain ⟨rest, hrest⟩ : ∃ rest, (List.range cx.routine.code.size).flatMap own =
      (List.range site).flatMap own ++ o :: rest := by
    obtain ⟨m, hm⟩ := Nat.exists_eq_add_of_lt hsite
    refine ⟨((List.range m).map (site + 1 + ·)).flatMap own, ?_⟩
    rw [hm, Nat.add_right_comm, range_add, range_succ, flatMap_append,
      flatMap_append, flatMap_singleton, hown, append_assoc]
    rfl
  have hnodup' : ((List.range site).flatMap own ++ o :: rest).Nodup := by
    rw [← hrest, ← h.perm.nodup_iff, htrace]
    exact hnodup
  -- An effect and the place stand in the same order in both.
  have hsame : ∀ x : Observation, x.2.effect?.isSome = true →
      (x ∈ before ↔ x ∈ (List.range site).flatMap own) := by
    intro x hx
    let watch : Observation → Bool := fun y => decide (y = x ∨ y = o)
    have horder := h.order watch _ (detects_pair hx hplace) hclear
    rw [htrace, hrest] at horder
    have hwatched : watch x = true := decide_eq_true (.inl rfl)
    have hwatched' : watch o = true := decide_eq_true (.inr rfl)
    rw [← Precedes.middle_iff hnodup, ← Precedes.middle_iff hnodup',
      ← Precedes.filter_iff hwatched hwatched', horder, Precedes.filter_iff hwatched hwatched']
  have hperm : (before.filter fun x => x.2.effect?.isSome).Perm
      (((List.range site).flatMap own).filter fun x => x.2.effect?.isSome) := by
    refine (perm_ext_iff_of_nodup ?_ ?_).2 fun x => ?_
    · exact (nodup_append.1 hnodup).1.filter _
    · exact (nodup_append.1 hnodup').1.filter _
    · rw [mem_filter, mem_filter]
      exact and_congr_left fun hx => hsame x hx
  rw [← filterMap_performed_filter, ← filterMap_performed_filter ((List.range site).flatMap own)]
  exact hperm.filterMap _

/-- Straight-line code that can be folded keeps its loads between its effects, unless an
entry with an effect and one with a place in memory overtake each other.  Every load is
evaluated, and what comes before the place of a load has exactly the effects of the
instructions before it. -/
theorem loads_between_effects (cx : Context) (log : EventLog) {s : FoldState} {f : FormId}
    {p : Pool}
    (hrun : ((List.range cx.routine.code.size).forM cx.pushInstruction).run (.start log) =
      (.ok (), s))
    (hform : s.stack.rewriteToForm s.pool = (f, p))
    (hclear : ∀ site < cx.routine.code.size, cx.overtakesAt Pool.actsOnPlace log site = false) :
    ∃ performed : Nat → Option Effect,
      (∀ (site : Nat) (instr : Instruction), cx.routine.code[site]? = some instr →
        instr.op.Performs (performed site)) ∧
      ∀ (site : Nat) (instr : Instruction), cx.routine.code[site]? = some instr →
        instr.op.isLoad = true →
        (∃ e ∈ p.evaluated f, (p.element e).isPlace = true ∧ cx.origin log e = site) ∧
        ∀ before e behind, p.evaluated f = before ++ e :: behind →
          (p.element e).isPlace = true → cx.origin log e = site →
          (cx.effectsFrom log p before).Perm (programEffects performed site) := by
  obtain ⟨own, E, hfollows⟩ := exists_follows hrun (Nat.le_refl _)
  have hlists := hfollows.lists
  rw [foldedBefore_eq hrun] at hlists
  obtain ⟨t, rfl, hholds, hnodup, htrace⟩ := hlists.exists_form hform
  refine ⟨effectShown own, fun site instr hcode => ?_, ?_⟩
  · exact (hfollows.effectShown (Array.getElem?_eq_some_iff.1 hcode).1).2 instr hcode
  · intro site instr hcode hload
    have hsite : site < cx.routine.code.size := (Array.getElem?_eq_some_iff.1 hcode).1
    obtain ⟨instruction', hcode', hshows⟩ := hfollows.shows site hsite
    cases hcode.symm.trans hcode'
    obtain ⟨o, hown, hplace⟩ := hshows.place hload
    have hevaluated := hholds.evaluated_eq hnodup
    have helem := hholds.element_eq_of_evaluated
    constructor
    · -- The load is among what the instructions show, and so among what is evaluated.
      have hmem : o ∈ own site := hown ▸ List.mem_cons_self
      have ho : o ∈ t.trace := by
        rw [htrace]
        exact hfollows.perm.symm.subset
          (List.mem_flatMap.2 ⟨site, List.mem_range.2 hsite, hmem⟩)
      have ho := (List.mem_filter.1 ho).1
      obtain ⟨hnew, hold⟩ := hfollows.fresh site hsite o hmem
      refine ⟨o.1, hevaluated ▸ List.mem_map_of_mem ho, ?_, origin_eq hrun hsite hnew hold⟩
      rw [helem o ho]
      exact hplace
    · intro before e behind hsplit hisPlace horigin
      rw [hevaluated] at hsplit
      obtain ⟨os, rest, hos, rfl, hrest⟩ := List.map_eq_append_iff.1 hsplit
      obtain ⟨o', os', rfl, rfl, rfl⟩ := List.map_eq_cons_iff.1 hrest
      have hmem : o' ∈ t.evaluated := hos ▸ List.mem_append_right _ List.mem_cons_self
      rw [helem o' hmem] at hisPlace
      have hobserved := Element.isObserved_of_isPlace hisPlace
      have ho' : o' ∈ own (cx.origin log o'.1) := by
        apply hfollows.mem_own hrun
        rw [← htrace]
        exact List.mem_filter.2 ⟨hmem, hobserved⟩
      rw [horigin, hown, List.mem_singleton] at ho'
      subst ho'
      have hevaluated' : t.trace = (os.filter fun o => o.2.isObserved) ++
          o' :: os'.filter fun o => o.2.isObserved := by
        rw [FormTree.trace, hos, List.filter_append, List.filter_cons, if_pos hobserved]
      have hbefore := hfollows.before_place hclear hsite hown hplace
        (hevaluated' ▸ t.trace_nodup hnodup) (htrace.symm.trans hevaluated')
      rw [effectsFrom, Pool.effectsOf_evaluated fun o ho =>
        helem o (hos ▸ List.mem_append_left _ ho)]
      exact (hbefore.map _).trans (.of_eq (hfollows.effects_eq hrun (Nat.le_of_lt hsite)))

theorem storeQuotient_loads :
    ∃ (r : Routine) (s : FoldState) (f : FormId) (p : Pool),
      assemble "store-quotient" storeQuotient = .ok r ∧
      ((List.range r.code.size).forM (untyped r).pushInstruction).run (.start .empty) =
        (.ok (), s) ∧
      s.stack.rewriteToForm s.pool = (f, p) ∧
      (∀ site < r.code.size, (untyped r).overtakesAt Pool.actsOnPlace .empty site = false) ∧
      ∃ performed : Nat → Option Effect,
        (∀ (site : Nat) (instr : Instruction), r.code[site]? = some instr →
          instr.op.Performs (performed site)) ∧
        ∃ before e behind, p.evaluated f = before ++ e :: behind ∧
          (p.element e).isPlace = true ∧ (untyped r).origin .empty e = 6 ∧
          ((untyped r).effectsFrom .empty p before).Perm (programEffects performed 6) := by
  have hchecked : (foldsTo "store-quotient" storeQuotient fun r _ =>
      (r.code[6]?.any fun instr => instr.op.isLoad) && (List.range r.code.size).all fun site =>
          !(untyped r).overtakesAt Pool.actsOnPlace .empty site) = true := by decide +kernel
  obtain ⟨r, s, hr, hrun, hclear⟩ := foldsTo_eq_true hchecked
  simp only [Bool.and_eq_true, Option.any_eq_true, List.all_eq_true, List.mem_range,
    Bool.not_eq_true'] at hclear
  obtain ⟨⟨instr, hcode, hload⟩, hclear⟩ := hclear
  obtain ⟨performed, hperforms, hloads⟩ :=
    loads_between_effects (untyped r) .empty hrun rfl hclear
  obtain ⟨⟨e, he, hplace, horigin⟩, hbefore⟩ := hloads 6 instr hcode hload
  obtain ⟨before, behind, hsplit⟩ := List.append_of_mem he
  exact ⟨r, s, _, _, hr, hrun, rfl, hclear, performed, hperforms, before, e, behind, hsplit, hplace,
    horigin, hbefore before e behind hsplit hplace horigin⟩

/-- Adds what is loaded behind a call to the result of the call. -/
def callAndLoad : List Statement :=
  [.call ⟨25⟩ [],
   .load ⟨8⟩ (.register ⟨4⟩) 0 4 .signed,
   .set .v0 .add [.register ⟨8⟩, .register .v0]]

/-- The load has no effect and is no sequence point.  The call is taken from under it for the
second operand, and the load is evaluated before the call. -/
theorem callAndLoad_turns_load :
    ∃ (r : Routine) (s : FoldState) (f : FormId) (p : Pool) (instr : Instruction),
      assemble "call-and-load" callAndLoad = .ok r ∧
      ((List.range r.code.size).forM (untyped r).pushInstruction).run (.start .empty) =
        (.ok (), s) ∧
      s.stack.rewriteToForm s.pool = (f, p) ∧
      r.code[1]? = some instr ∧ instr.op.isLoad = true ∧
      (untyped r).effectsFrom .empty p (p.evaluated f) = [(0, .call)] ∧
      ∃ before e behind, p.evaluated f = before ++ e :: behind ∧
        (p.element e).isPlace = true ∧ (untyped r).origin .empty e = 1 ∧
        (untyped r).effectsFrom .empty p before = [] := by
  have hchecked : (foldsTo "call-and-load" callAndLoad fun r s =>
      let form := s.stack.rewriteToForm s.pool
      (r.code[1]?.any fun instr => instr.op.isLoad) &&
        (untyped r).effectsFrom .empty form.2 (form.2.evaluated form.1) == [(0, .call)] &&
        form.2.evaluated form.1 == [⟨2⟩] ++ ⟨3⟩ :: [⟨0⟩, ⟨1⟩, ⟨4⟩, ⟨5⟩] &&
        (form.2.element ⟨3⟩).isPlace && (untyped r).origin .empty ⟨3⟩ == 1 &&
        (untyped r).effectsFrom .empty form.2 [⟨2⟩] == []) = true := by decide +kernel
  obtain ⟨r, s, hr, hrun, hform⟩ := foldsTo_eq_true hchecked
  simp only [Bool.and_eq_true, beq_iff_eq, Option.any_eq_true] at hform
  obtain ⟨⟨⟨⟨⟨⟨instr, hcode, hload⟩, heffects⟩, hsplit⟩, hplace⟩, horigin⟩, hnone⟩ := hform
  exact ⟨r, s, _, _, instr, hr, hrun, rfl, hcode, hload, heffects, _, _, _, hsplit, hplace,
    horigin, hnone⟩

end Context

end Decompiler
