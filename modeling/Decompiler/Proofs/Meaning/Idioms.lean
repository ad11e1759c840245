import Decompiler.Proofs.Meaning.IdiomBlocks
import Mathlib.Computability.Primrec.List
import Mathlib.Data.List.Permutation

/-!
What an idiom that spans blocks records.  Its operands are popped off the stack or read anew; in
either case the recorded forms have, behind the entries that stay, the values of the operands
behind all entries, whatever statements and divisions wait among these.  So the value that is
pushed for the destination is the one that running the blocks leaves there.
-/

namespace Decompiler

open TryFoldM List

namespace Pool

variable {p : Pool} {f : FormId} {a : Atom}

/-- An operand stays what it is when an element is added. -/
theorem single?_addSingle_of_atom (element : Element)
    (h : (p.single? f).map p.element = some (.atom a)) :
    ((p.addSingle element).2.single? f).map (p.addSingle element).2.element = some (.atom a) := by
  obtain ⟨e, he, ha⟩ := Option.map_eq_some_iff.1 h
  have hform : f.index < p.forms.size := by
    by_contra hout
    have hnone : p.single? f = none := by
      rw [single?, elementsOf, form, Array.getD_eq_getD_getElem?,
        Array.getElem?_eq_none (Nat.le_of_not_lt hout)]
      rfl
    cases hnone.symm.trans he
  have helem : e.index < p.elements.size := by
    by_contra hout
    rw [Pool.element, Array.getElem?_eq_none (Nat.le_of_not_lt hout)] at ha
    cases ha
  have hext := p.extends_addSingle element
  have hsingle : (p.addSingle element).2.single? f = some e := by
    rw [single?, hext.elementsOf_eq f hform]
    exact he
  rw [hsingle, Option.map_some, hext.element_eq e helem, ha]

/-- A pool is as it was, or one element was added to it. -/
def Adds (p p' : Pool) : Prop := p' = p ∨ ∃ element, p' = (p.addSingle element).2

end Pool

namespace Stack

variable {R : Type} {p p' : Pool} {consts : Constants} {actions : Actions Word R}
  {v : Variable} {popped : Option FormId} {f : FormId} {s s' : Stack}

/-- What was popped has been an assignment. -/
theorem framed_of_popRegister {r : Register} {barrier : RegisterSet} {effects : Bool}
    (hframed : ∀ q ∈ s.waiting, q.Framed p actions)
    (hpop : s.popRegister p r barrier effects = some (f, s')) :
    ∃ dst ordered notes existing,
      Pending.Framed p actions (.assign dst f ordered notes existing) := by
  obtain ⟨above, dst, ordered, notes, existing, below, hwaiting, -⟩ := popRegister_eq_some hpop
  rw [hwaiting] at hframed
  exact ⟨dst, ordered, notes, existing, hframed _ (mem_append_right _ mem_cons_self)⟩

/-- A form comes to stand for a variable: the value of its register is popped, or the variable
is added as a form. -/
inductive Supplies (p p' : Pool) (v : Variable) : Option FormId → FormId → Stack → Stack → Prop
  | popped {f : FormId} {barrier : RegisterSet} {s s' : Stack}
      (hpop : s.popRegister p v.register barrier true = some (f, s')) :
      Supplies p p' v (some f) f s s'
  | added {f : FormId} {s : Stack}
      (hatom : (p'.single? f).map p'.element = some (.atom (.var v))) : Supplies p p' v none f s s

namespace Supplies

theorem later {q : Pool} (h : Supplies p p' v popped f s s') (hadds : p'.Adds q) :
    Supplies p q v popped f s s' := by
  cases h with
  | popped hpop => exact .popped hpop
  | added hatom =>
    rcases hadds with rfl | ⟨element, rfl⟩
    · exact .added hatom
    · exact .added (Pool.single?_addSingle_of_atom element hatom)

theorem mem (h : Supplies p p' v popped f s s') : ∀ q ∈ s'.waiting, q ∈ s.waiting := by
  cases h with
  | popped hpop => exact mem_of_popRegister hpop
  | added => exact fun q hq => hq

section Values

variable (hframed : ∀ q ∈ s.waiting, q.Framed p actions)
  (hover : ∀ q ∈ s.waiting, q.overwrites p v.register = false)
include hframed hover

theorem value_eq (h : Supplies p p' v popped f s s') (state : Registers × R)
    (hatoms : ∀ {f a}, (p'.single? f).map p'.element = some (.atom a) →
      ∀ state, actions.value f state = a.value consts state.1) :
    actions.value f (s'.perform actions state) = (s.perform actions state).1 v.register := by
  cases h with
  | popped hpop => exact (popRegister_perform hframed hover hpop state).1
  | added hatom => exact hatoms hatom _

/-- If the form has no effect, no other register is affected. -/
theorem keeps (h : Supplies p p' v popped f s s') (heffect : popped.any p.formHasEffect = false)
    (state : Registers × R) :
    (s'.perform actions state).2 = (s.perform actions state).2 ∧
      ∀ q ≠ v.register, (s'.perform actions state).1 q = (s.perform actions state).1 q := by
  cases h with
  | popped hpop =>
    obtain ⟨_, _, _, _, hassign⟩ := framed_of_popRegister hframed hpop
    exact (popRegister_perform hframed hover hpop state).2 (hassign.2 (.inr heffect))
  | added hatom => exact ⟨rfl, fun q _ => rfl⟩

end Values

/-- The forms of two variables, the second of which is supplied first. -/
theorem value_eq_pair {x n : Variable} {poppedX poppedN : Option FormId} {g : FormId}
    {middle : Stack} (hn : Supplies p p' n poppedN g s middle)
    (hx : Supplies p p' x poppedX f middle s') (hframed : ∀ q ∈ s.waiting, q.Framed p actions)
    (hover : ∀ v ∈ [x, n], ∀ q ∈ s.waiting, q.overwrites p v.register = false)
    (hatoms : ∀ {f a}, (p'.single? f).map p'.element = some (.atom a) →
      ∀ state, actions.value f state = a.value consts state.1)
    (heffect : ∀ popped ∈ [poppedX, poppedN], popped.any p.formHasEffect = false)
    (honce : poppedX.isSome = true ∨ poppedN.isSome = true → x.register ≠ n.register)
    (hclear : poppedX.isSome = true → ∀ g, poppedN = some g → x.register ∉ p.formReadRegisters g)
    (state : Registers × R) :
    actions.value f (s'.perform actions state) = (s.perform actions state).1 x.register ∧
      actions.value g (s'.perform actions state) = (s.perform actions state).1 n.register := by
  have hmiddle : ∀ q ∈ middle.waiting, q.Framed p actions := fun q hq => hframed q (hn.mem q hq)
  have hoverX : ∀ q ∈ middle.waiting, q.overwrites p x.register = false := fun q hq =>
    hover x mem_cons_self q (hn.mem q hq)
  have hoverN := hover n (mem_cons_of_mem _ mem_cons_self)
  obtain ⟨-, hkeepsN⟩ :=
    hn.keeps hframed hoverN (heffect _ (mem_cons_of_mem _ mem_cons_self)) state
  obtain ⟨hrest, hkeepsX⟩ := hx.keeps hmiddle hoverX (heffect _ mem_cons_self) state
  constructor
  · rw [hx.value_eq hmiddle hoverX state hatoms]
    cases hn with
    | popped hpop => exact hkeepsN _ (honce (.inr rfl))
    | added hatom => rfl
  · rw [← hn.value_eq hframed hoverN state hatoms]
    cases hx with
    | added => rfl
    | popped hpop =>
      cases hn with
      | popped hpopN =>
        obtain ⟨_, _, _, _, hassign⟩ := framed_of_popRegister hframed hpopN
        rw [← Prod.mk.eta (p := s'.perform actions state), hrest]
        refine hassign.1 _ _ _ fun q hq => hkeepsX q ?_
        rintro rfl
        exact hclear rfl g rfl hq
      | added hatom =>
        rw [hatoms hatom, hatoms hatom]
        exact hkeepsX _ (honce (.inl rfl)).symm

end Supplies

end Stack

namespace IdiomShape

def readSite : IdiomShape → Nat
  | typeOf shape => shape.loadSite
  | ash shape => shape.shiftSite
  | abs shape => shape.site

end IdiomShape

namespace Element

/-- The value of an absolute value, of a shift or of a type, given the values of the operands. -/
def idiomValue (consts : Constants) (memory : Nat → LoadKind → Word → Word)
    (value : FormId → Word) : Element → Option Word
  | .abs f _ _ => some (value f).magnitude
  | .ash x n _ signed _ _ => some ((value x).shiftBy signed (value n))
  | .typeOf f _ _ => some (typeWord consts memory (value f))
  | _ => none

end Element

namespace Context

variable {cx : Context} {site : Nat} {atoms : List Atom} {consumed : RegisterSet} {v x n : Variable}
  {s s' : FoldState} {id : BlockId}

/-- What popping an operand does to the stack. -/
def PopsOperand (p : Pool) (v : Variable) (stack : Stack) : Option FormId → Stack → Prop
  | none, stack' => stack' = stack
  | some f, stack' =>
    ∃ barrier, stack.popRegister p v.register barrier true = some (f, stack')

theorem popOperand_pops :
    (cx.popOperand site atoms consumed true (.var v)).Ends s fun popped s' =>
      s'.pool = s.pool ∧ PopsOperand s.pool v s.stack popped s'.stack ∧
        (popped.isSome = true → (atoms.filterMap Atom.register?).count v.register = 1) := by
  unfold popOperand
  split
  · exact ⟨rfl, rfl, nofun⟩
  rename_i r hr
  cases hr
  split
  · exact ⟨rfl, rfl, nofun⟩
  · rename_i hlast
    refine FoldM.ends_bind.2 (FoldM.ends_take.2 ⟨fun _ => ⟨rfl, rfl, nofun⟩, fun f stack hpop => ?_⟩)
    refine ⟨rfl, ⟨_, hpop⟩, fun _ => ?_⟩
    rw [Bool.or_eq_true, not_or, decide_eq_true_eq, not_not] at hlast
    exact hlast.2

theorem operandForm_supplies {popped : Option FormId} :
    (cx.operandForm (.var v, popped)).Ends s fun out s' =>
      s'.stack = s.stack ∧ s.pool.Adds s'.pool ∧ ∀ p stack stack',
        PopsOperand p v stack popped stack' →
          Stack.Supplies p s'.pool v popped out.1 stack stack' := by
  cases popped with
  | none =>
    refine ⟨rfl, .inr ⟨_, rfl⟩, ?_⟩
    rintro p stack _ ⟨⟩
    exact .added (Pool.Extends.single?_addSingle (.refl _))
  | some f =>
    refine ⟨rfl, .inl rfl, ?_⟩
    rintro p stack stack' ⟨barrier, hpop⟩
    exact .popped hpop

/-- The forms of two operands, the second of which is popped first. -/
def SuppliesPair (p p' : Pool) (x n : Variable) (poppedX poppedN : Option FormId) (f g : FormId)
    (stack stack' : Stack) : Prop :=
  ∃ middle, Stack.Supplies p p' n poppedN g stack middle ∧
    Stack.Supplies p p' x poppedX f middle stack' ∧
    (poppedX.isSome = true ∨ poppedN.isSome = true → x.register ≠ n.register)

theorem operandsConsuming_one :
    (cx.operandsConsuming site [.var v] consumed true).Ends s fun out s' =>
      ∃ popped f marked, (cx.popOperands site [.var v] consumed true s).1 = [popped] ∧
        out = [(f, marked)] ∧ Stack.Supplies s.pool s'.pool v popped f s.stack s'.stack := by
  have hpops : (cx.popOperands site [.var v] consumed true).Ends s fun popped s' =>
      s'.pool = s.pool ∧ ∃ o, popped = [o] ∧ PopsOperand s.pool v s.stack o s'.stack := by
    unfold popOperands
    rw [FoldM.ends_bind, FoldM.ends_get]
    split
    · exact ⟨rfl, none, rfl, rfl⟩
    · simp only [reverse_singleton, mapM_cons, mapM_nil, FoldM.ends_bind,
        FoldM.ends_pure]
      exact popOperand_pops.mono fun o s' h => ⟨h.1, o, rfl, h.2.1⟩
  obtain ⟨hpool, o, hpopped, hpop⟩ := hpops
  rw [operandsConsuming, FoldM.ends_bind, FoldM.Ends, hpopped]
  simp only [zip_cons_cons, zip_nil_right, mapM_cons, mapM_nil, FoldM.ends_bind, FoldM.ends_pure]
  refine operandForm_supplies.mono fun out s' h => ?_
  rw [h.1]
  exact ⟨o, out.1, out.2, rfl, rfl, h.2.2 _ _ _ hpop⟩

theorem operandsConsuming_pair :
    (cx.operandsConsuming site [.var x, .var n] consumed true).Ends s fun out s' =>
      ∃ poppedX poppedN f g markedX markedN,
        (cx.popOperands site [.var x, .var n] consumed true s).1 = [poppedX, poppedN] ∧
        out = [(f, markedX), (g, markedN)] ∧
        SuppliesPair s.pool s'.pool x n poppedX poppedN f g s.stack s'.stack := by
  have hpops : (cx.popOperands site [.var x, .var n] consumed true).Ends s fun popped s' =>
      s'.pool = s.pool ∧ ∃ poppedX poppedN middle, popped = [poppedX, poppedN] ∧
        PopsOperand s.pool n s.stack poppedN middle ∧
        PopsOperand s.pool x middle poppedX s'.stack ∧
        (poppedX.isSome = true ∨ poppedN.isSome = true → x.register ≠ n.register) := by
    unfold popOperands
    rw [FoldM.ends_bind, FoldM.ends_get]
    split
    · exact ⟨rfl, none, none, s.stack, rfl, rfl, rfl, by simp⟩
    · simp only [reverse_cons, reverse_nil, nil_append, cons_append,
        mapM_cons, mapM_nil, FoldM.ends_bind, FoldM.ends_pure]
      refine popOperand_pops.mono fun poppedN s₁ hn => ?_
      refine popOperand_pops.mono fun poppedX s₂ hx => ?_
      rw [hn.1] at hx
      refine ⟨hx.1, poppedX, poppedN, s₁.stack, rfl, hn.2.1, hx.2.1, fun hsome hsame => ?_⟩
      have htwice : (List.filterMap Atom.register? [.var x, .var n]).count n.register = 2 := by
        simp [Atom.register?, Atom.var?, hsame]
      rcases hsome with hsome | hsome
      · have honce := hx.2.2 hsome
        rw [hsame, htwice] at honce
        cases honce
      · have honce := hn.2.2 hsome
        rw [htwice] at honce
        cases honce
  obtain ⟨hpool, poppedX, poppedN, middle, hpopped, hn, hx, hsame⟩ := hpops
  rw [operandsConsuming, FoldM.ends_bind, FoldM.Ends, hpopped]
  simp only [zip_cons_cons, zip_nil_right, mapM_cons, mapM_nil, FoldM.ends_bind, FoldM.ends_pure]
  refine operandForm_supplies.mono fun f s₁ hf => ?_
  refine operandForm_supplies.mono fun g s₂ hg => ?_
  rw [hg.1, hf.1]
  exact ⟨poppedX, poppedN, f.1, g.1, f.2, g.2, rfl, rfl, middle, hg.2.2 _ _ _ hn,
    (hf.2.2 _ _ _ hx).later hg.2.1, hsame⟩

theorem pushIdiom_records {dst : Variable} {element : Element} :
    (cx.pushIdiom site dst element).Ends s fun _ s' => s.pool.Adds s'.pool ∧ ∃ f ordered,
      s'.stack = s.stack.push (.assign dst f ordered {} none) ∧
        (s'.pool.single? f).map s'.pool.element = some element := by
  rw [pushIdiom, FoldM.ends_bind, FoldM.addSingle, FoldM.ends_onPool, FoldM.ends_bind,
    FoldM.ends_noteForm, FoldM.ends_note]
  exact ⟨.inr ⟨element, rfl⟩, _, _, rfl, Pool.Extends.single?_addSingle (.refl _)⟩

def idiomConsumed (cx : Context) (verbatim : Bool) : IdiomShape → RegisterSet
  | .typeOf shape => cx.consumed verbatim shape.loadSite
  | .ash shape => cx.consumed verbatim shape.branchSite ∪
      cx.consumed verbatim (shape.shiftSite - 1) ∪ cx.consumed verbatim shape.shiftSite
  | .abs shape => cx.consumed verbatim shape.site

/-- The values that are popped for the operands of an idiom. -/
def idiomPops (cx : Context) (shape : IdiomShape) (s : FoldState) : List (Option FormId) :=
  (cx.popOperands shape.readSite shape.operands (cx.idiomConsumed s.verbatim shape) true s).1

/-- Whether taking the operands of an idiom off the stack can change what they stand for: a popped
value reads the register of another operand, one of two operands has an effect, or a value is moved
across a division that writes its register. -/
def idiomClashes (cx : Context) (shape : IdiomShape) (s : FoldState) : Bool :=
  s.pool.clash (shape.operands.zip (cx.idiomPops shape s)) ||
    (decide (1 < shape.operands.length) &&
      (cx.idiomPops shape s).any fun popped => popped.any s.pool.formHasEffect) ||
    s.stack.waiting.any fun q =>
      (shape.operands.filterMap Atom.register?).any fun r => q.overwrites s.pool r

theorem pushBlockBody_runs :
    (cx.pushBlockBody id).Ends s fun found s₁ => ∃ block, cx.routine.blocks[id]? = some block ∧
      cx.routine.terminator id = .ok found ∧
      (cx.pushSites (List.range' block.start
        ((found.map Prod.fst).getD block.stop - block.start))).run s = (.ok (), s₁) := by
  unfold pushBlockBody
  simp only [ends_bind, ends_ofExcept, ends_pure]
  intro block hblock found hfound _ hrun
  exact ⟨block, Routine.block_eq_ok.1 hblock, hfound, Prod.ext hrun rfl⟩

/-- How the forms of the operands of an idiom come to stand for them. -/
inductive IdiomSupplied (cx : Context) (p' : Pool) (shape : IdiomShape) (s : FoldState)
    (remaining : Stack) : List FormId → Prop
  | one {v : Variable} {popped : Option FormId} {f : FormId} (hoperands : shape.operands = [.var v])
      (hsupplies : Stack.Supplies s.pool p' v popped f s.stack remaining) :
      IdiomSupplied cx p' shape s remaining [f]
  | pair {x n : Variable} {poppedX poppedN : Option FormId} {f g : FormId}
      (hoperands : shape.operands = [.var x, .var n])
      (hpopped : cx.idiomPops shape s = [poppedX, poppedN])
      (hsupplies : SuppliesPair s.pool p' x n poppedX poppedN f g s.stack remaining) :
      IdiomSupplied cx p' shape s remaining [f, g]

/-- What folding an idiom ends in: behind the instructions before the idiom, its operands are
taken, and an element that has them is pushed for the destination. -/
def IdiomFolded (cx : Context) (id : BlockId) (shape : IdiomShape) (s s' : FoldState) : Prop :=
  ∃ block s₁ remaining dst f ordered element fs,
    cx.routine.blocks[id]? = some block ∧
    (cx.pushSites (List.range' block.start (shape.start - block.start))).run s = (.ok (), s₁) ∧
    s'.stack = Stack.push remaining (.assign dst f ordered {} none) ∧ dst.register = shape.register ∧
    (s'.pool.single? f).map s'.pool.element = some element ∧
    cx.IdiomSupplied s'.pool shape s₁ remaining fs ∧
    ∀ consts memory value, element.idiomValue consts memory value =
      shape.compute consts memory (fs.map value)

theorem applyAbs_folds {shape : AbsShape} (h : cx.routine.HasShape id (.abs shape)) :
    (cx.applyAbs id shape).Ends s fun _ s' => cx.IdiomFolded id (.abs shape) s s' := by
  obtain ⟨branch, _, _, _, hends, -⟩ := (Routine.matchAbs_eq_some h).test
  rw [applyAbs]
  refine pushBlockBody_runs.bind fun found s₁ hbody => ?_
  obtain ⟨block, hblock, hfound, hrun⟩ := hbody
  cases hends.terminator.symm.trans hfound
  simp only [ends_bind, ends_lift, operandsMarked, FoldM.ends_bind, FoldM.ends_consumedNow]
  refine operandsConsuming_one.mono fun out s₂ hout => ?_
  obtain ⟨popped, f, marked, -, rfl, hsupplies⟩ := hout
  refine pushIdiom_records.mono fun _ s' hpushed => ?_
  obtain ⟨hadds, g, ordered, hstack, helem⟩ := hpushed
  exact ⟨block, s₁, s₂.stack, _, g, ordered, _, [f], hblock, hrun, hstack, rfl, helem,
    .one rfl (hsupplies.later hadds), fun _ _ _ => rfl⟩

theorem applyAsh_folds {shape : AshShape} (h : cx.routine.HasShape id (.ash shape)) :
    (cx.applyAsh id shape).Ends s fun _ s' => cx.IdiomFolded id (.ash shape) s s' := by
  obtain ⟨branch, _, _, hends, -⟩ := (Routine.matchAsh_eq_some h).test
  unfold applyAsh
  simp only [ends_bind, ends_lift, FoldM.ends_consumedNow]
  split
  · simp
  refine pushBlockBody_runs.bind fun found s₁ hbody => ?_
  obtain ⟨block, hblock, hfound, hrun⟩ := hbody
  cases hends.terminator.symm.trans hfound
  have hmode : s₁.verbatim = s.verbatim :=
    (((pushSites_bounded _).tame.advances s).of_run hrun).mode
  simp only [ends_bind, ends_lift, FoldM.ends_consumedNow]
  refine operandsConsuming_pair.mono fun out s₂ hout => ?_
  obtain ⟨poppedX, poppedN, f, g, markedX, markedN, hpopped, rfl, middle, hn, hx, hsame⟩ := hout
  refine pushIdiom_records.mono fun _ s' hpushed => ?_
  obtain ⟨hadds, e, ordered, hstack, helem⟩ := hpushed
  refine ⟨block, s₁, s₂.stack, _, e, ordered, _, [f, g], hblock, hrun, hstack, rfl, helem,
    .pair rfl ?_ ⟨middle, hn.later hadds, hx.later hadds, hsame⟩, fun _ _ _ => rfl⟩
  rw [← hmode] at hpopped
  exact hpopped

theorem applyTypeOf_folds {shape : TypeOfShape} (h : cx.routine.HasShape id (.typeOf shape)) :
    (cx.applyTypeOf id shape).Ends s fun _ s' => cx.IdiomFolded id (.typeOf shape) s s' := by
  obtain ⟨source, base, -, -, hbase⟩ := (Routine.matchTypeOf_eq_some h).tag
  obtain ⟨v, hv⟩ : ∃ v, shape.base = .var v := by
    cases hshape : shape.base <;> rw [hshape] at hbase <;> cases hbase
    exact ⟨_, rfl⟩
  unfold applyTypeOf
  simp only [ends_bind, ends_lift, FoldM.ends_consumedNow]
  split
  · simp
  simp only [ends_bind, ends_lift, ends_ofExcept]
  intro block hblock _ hrun
  rw [operand, operands, operandsMarked, hv]
  simp only [FoldM.ends_bind, FoldM.ends_pure, FoldM.ends_consumedNow]
  refine operandsConsuming_one.mono fun out s₂ hout => ?_
  obtain ⟨popped, f, marked, -, rfl, hsupplies⟩ := hout
  refine pushIdiom_records.mono fun _ s' hpushed => ?_
  obtain ⟨hadds, g, ordered, hstack, helem⟩ := hpushed
  exact ⟨block, _, s₂.stack, _, g, ordered, _, [f], Routine.block_eq_ok.1 hblock,
    Prod.ext hrun rfl, hstack, rfl, helem,
    .one (congrArg (fun a => [a]) hv) (hsupplies.later hadds), fun _ _ _ => rfl⟩

variable {shape : IdiomShape} {temporary : Register}

/-- What an idiom recorded has, behind the entries that stay, the values that its operands have
behind all entries that were on the stack. -/
theorem IdiomSupplied.values {p' : Pool} {remaining : Stack} {fs : List FormId}
    {consts : Constants} {R : Type} {actions : Actions Word R}
    (h : cx.IdiomSupplied p' shape s remaining fs) (hclear : cx.idiomClashes shape s = false)
    (hframed : ∀ q ∈ s.stack.waiting, q.Framed s.pool actions)
    (hatoms : ∀ {f a}, (p'.single? f).map p'.element = some (.atom a) →
      ∀ state, actions.value f state = a.value consts state.1) (state : Registers × R) :
    fs.map (fun g => actions.value g (remaining.perform actions state)) =
      shape.operands.map (Atom.value consts (s.stack.perform actions state).1) := by
  rw [idiomClashes, Bool.or_eq_false_iff, Bool.or_eq_false_iff] at hclear
  obtain ⟨⟨hclash, heffects⟩, hover⟩ := hclear
  have hover : ∀ v, .var v ∈ shape.operands → ∀ q ∈ s.stack.waiting,
      q.overwrites s.pool v.register = false := by
    intro v hv q hq
    have hnone := Bool.eq_false_iff.2 (List.any_eq_false.1 hover q hq)
    exact Bool.eq_false_iff.2 (List.any_eq_false.1 hnone _ (mem_filterMap.2 ⟨_, hv, rfl⟩))
  cases h with
  | one hoperands hsupplies =>
    rw [hoperands] at hover ⊢
    exact congrArg (fun w => [w]) (hsupplies.value_eq hframed (hover _ mem_cons_self) state hatoms)
  | @pair x n poppedX poppedN f g hoperands hpopped hsupplies =>
    obtain ⟨middle, hn, hx, honce⟩ := hsupplies
    rw [hoperands] at hclash heffects hover ⊢
    rw [hpopped] at hclash heffects
    have hunread := (Pool.clash_cons_eq_false hclash).2
    obtain ⟨hf, hg⟩ := hn.value_eq_pair hx hframed (by simpa using hover) hatoms
      (by simpa using heffects) honce
      (fun hsome g hg => hunread hsome x.register rfl (.var n) g (by simp [hg])) state
    rw [map_cons, map_cons, map_nil, hf, hg]
    rfl

theorem applyIdiom_folds (h : cx.routine.HasShape id shape) :
    (cx.applyIdiom id shape).Ends s fun _ s' => cx.IdiomFolded id shape s s' := by
  cases shape with
  | typeOf shape => exact applyTypeOf_folds h
  | ash shape => exact applyAsh_folds h
  | abs shape => exact applyAbs_folds h

/-- Whenever some blocks are taken for an idiom whose temporary is no operand that is read again,
running them on any machine leaves in the destination the value of the idiom for what the operands
hold where the idiom begins.  Unless its operands clash, this is also the value of the element that
was pushed, behind whatever else waits on the stack: assignments, calls, stores, other statements
and divisions. -/
theorem tryIdioms_keeps_value {window : List Region} {n : Nat}
    (hrun : (cx.tryIdioms window).run s = (.ok n, s')) (hn : n ≠ 0) :
    ∃ id shape block s₁ remaining dst f ordered element,
      (cx.FindsIn window id shape ∧ shape.size = n ∧ cx.routine.blocks[id]? = some block ∧
        (cx.pushSites (List.range' block.start (shape.start - block.start))).run s = (.ok (), s₁)) ∧
      (s'.stack = Stack.push remaining (.assign dst f ordered {} none) ∧
        (s'.pool.single? f).map s'.pool.element = some element) ∧
      (shape.isSeparate = true → ∀ {M : Type} (machine : Processor M) (m : M),
        let m₁ := machine.reached cx.routine block shape.start m
        ∃ m', machine.RunsTo cx.routine (id + n) id m m' ∧
          shape.compute machine.consts (machine.memory m₁)
              (shape.operands.map (Atom.value machine.consts (machine.registers m₁))) =
            some (machine.registers m' dst.register) ∧
          (cx.idiomClashes shape s₁ = false → ∀ {R : Type} (actions : Actions Word R),
            (∀ q ∈ s₁.stack.waiting, q.Framed s₁.pool actions) →
            (∀ {f a}, (s'.pool.single? f).map s'.pool.element = some (.atom a) →
              ∀ state, actions.value f state = a.value machine.consts state.1) →
            ∀ state : Registers × R,
              (∀ a ∈ shape.operands,
                a.value machine.consts (s₁.stack.perform actions state).1 =
                  a.value machine.consts (machine.registers m₁)) →
              element.idiomValue machine.consts (machine.memory m₁)
                  (fun g => actions.value g (remaining.perform actions state)) =
                some (machine.registers m' dst.register))) := by
  have hfolded : ∃ id shape, cx.FindsIn window id shape ∧ shape.size = n ∧
      cx.IdiomFolded id shape s s' := by
    have hends : (cx.tryIdioms window).Ends s fun n s' => n ≠ 0 → ∃ id shape,
        cx.FindsIn window id shape ∧ shape.size = n ∧ cx.IdiomFolded id shape s s' :=
      tryIdioms_ends (fun h => absurd rfl h) fun id shape hfinds =>
        (applyIdiom_folds hfinds.shape).mono fun _ s' hfolded _ => ⟨id, shape, hfinds, rfl, hfolded⟩
    exact hends.of_run hrun hn
  obtain ⟨id, shape, hfinds, rfl, block, s₁, remaining, dst, f, ordered, element, fs, hblock,
    hbefore, hstack, hdst, helem, hsupplied, hvalue⟩ := hfolded
  refine ⟨id, shape, block, s₁, remaining, dst, f, ordered, element,
    ⟨hfinds, rfl, hblock, hbefore⟩, ⟨hstack, helem⟩, ?_⟩
  intro hseparate M machine m m₁
  obtain ⟨m', hruns, hcompute⟩ := hfinds.shape.runsTo hseparate machine hblock m
  rw [hdst]
  refine ⟨m', hruns, hcompute, fun hclear R actions hframed hatoms state hagree => ?_⟩
  rw [hvalue, hsupplied.values hclear hframed hatoms state, List.map_congr_left hagree, hcompute]

/-- Shifts a register by the successor of another one. -/
def shiftNext (temporary : Register) : List Statement :=
  [.set ⟨8⟩ .add [.register ⟨5⟩, .int 1],
   .branch .greaterEqualZero [.register ⟨8⟩] "end" true
     (some ⟨.v0, .shiftLeft, [.register ⟨4⟩, .register ⟨8⟩]⟩),
   .set temporary .neg [.register ⟨8⟩],
   .set .v0 .shiftRightArith [.register ⟨4⟩, .register temporary],
   .label "end"]

def shiftNextRoutine (temporary : Register) : Routine where
  name := "shift-next"
  code := #[⟨.set (.write ⟨8⟩ 0) ⟨.add, [.var (.read ⟨5⟩ 0), .int 1]⟩, .single ⟨5⟩⟩,
    ⟨.branch ⟨⟨.greaterEqualZero, [.var (.read ⟨8⟩ 1)]⟩, true, 2,
      some (.set (.write .v0 1) ⟨.shiftLeft, [.var (.read ⟨4⟩ 1), .var (.read ⟨8⟩ 1)]⟩)⟩,
      .single ⟨4⟩ ∩ .single temporary⟩,
    ⟨.set (.write temporary 2) ⟨.neg, [.var (.read ⟨8⟩ 2)]⟩, .single ⟨8⟩⟩,
    ⟨.set (.write .v0 3) ⟨.shiftRightArith, [.var (.read ⟨4⟩ 3), .var (.read temporary 3)]⟩,
      .single ⟨4⟩ ∪ .single temporary⟩]
  blocks := #[⟨0, 0, 2, [1, 2]⟩, ⟨1, 2, 4, [2]⟩, ⟨2, 4, 4, []⟩]
  labels := [("end", 2), ("epilogue", 2)]
  epilogue := some 2
  resultRegister := .v0

/-- A store that waits on the stack. -/
def behindStore : FoldState :=
  { FoldState.start .empty with
    pool := (Pool.empty.addElement (.store 9)).2
    stack := Stack.empty.pushStatement ⟨0⟩ true }

def foldShiftNext (temporary : Register) : Except Error Nat × FoldState :=
  ((untyped (shiftNextRoutine temporary)).tryIdioms [.block 0, .block 1]).run behindStore

def shiftNextPool (temporary : Register) : Pool where
  elements := #[⟨none, .store 9⟩, ⟨some ⟨0⟩, .atom (.var (.read ⟨5⟩ 0))⟩,
    ⟨some ⟨1⟩, .atom (.int 1)⟩, ⟨some ⟨2⟩, .apply (.builtin .add) [⟨0⟩, ⟨1⟩]⟩,
    ⟨some ⟨3⟩, .atom (.var (.read ⟨4⟩ 1))⟩,
    ⟨some ⟨4⟩, .ash ⟨3⟩ ⟨2⟩ (some (.write temporary 2)) true (.single ⟨4⟩) 1⟩]
  forms := #[⟨some ⟨3⟩, [⟨1⟩]⟩, ⟨some ⟨3⟩, [⟨2⟩]⟩, ⟨some ⟨5⟩, [⟨3⟩]⟩, ⟨some ⟨5⟩, [⟨4⟩]⟩,
    ⟨none, [⟨5⟩]⟩]

/-- What the forms of the operands evaluate to. -/
def shiftNextValue : FormId → Registers → Word
  | ⟨0⟩, σ => σ ⟨5⟩
  | ⟨1⟩, _ => 1
  | ⟨2⟩, σ => σ ⟨5⟩ + 1
  | ⟨3⟩, σ => σ ⟨4⟩
  | _, _ => 0

def shiftNextActions {R : Type} (store : Registers × R → Registers × R) : Actions Word R :=
  ⟨fun f state => shiftNextValue f state.1, fun _ state => state, fun _ => store⟩

def shiftNextRest : Stack :=
  ⟨[⟨.assign (.write ⟨8⟩ 0) ⟨2⟩ false {} none, false⟩, ⟨.statement ⟨0⟩ true, true⟩]⟩

theorem foldShiftNext_eq (h : temporary ∈ [⟨9⟩, ⟨4⟩]) :
    foldShiftNext temporary = (.ok 2, (foldShiftNext temporary).2) ∧
      (foldShiftNext temporary).2.pool = shiftNextPool temporary ∧
      (foldShiftNext temporary).2.stack =
        shiftNextRest.push (.assign (.write .v0 3) ⟨4⟩ false {} none) := by
  have hchecked : ∀ temporary ∈ [(⟨9⟩ : Register), ⟨4⟩],
      (foldShiftNext temporary).1.toOption = some 2 ∧
        (foldShiftNext temporary).2.pool = shiftNextPool temporary ∧
        (foldShiftNext temporary).2.stack =
          shiftNextRest.push (.assign (.write .v0 3) ⟨4⟩ false {} none) := by decide +kernel
  obtain ⟨hresult, hpool, hstack⟩ := hchecked temporary h
  refine ⟨Prod.ext ?_ rfl, hpool, hstack⟩
  cases hok : (foldShiftNext temporary).1 with
  | error e => rw [hok] at hresult; cases hresult
  | ok n => rw [hok] at hresult; cases hresult; rfl

/-- The atoms among the forms of the shift have their own values. -/
theorem shiftNextValue_atom {f : FormId} {a : Atom}
    (h : ((shiftNextPool temporary).single? f).map (shiftNextPool temporary).element =
      some (.atom a)) (consts : Constants) (σ : Registers) :
    shiftNextValue f σ = a.value consts σ := by
  obtain ⟨_ | _ | _ | _ | _ | f⟩ := f <;> cases h <;> rfl

def shiftNextShape (temporary : Register) : IdiomShape :=
  .ash ⟨1, 3, .read ⟨8⟩ 1, .read ⟨4⟩ 1, .write temporary 2, .v0, true⟩

/-- In front of the shift, the successor and the store wait on the stack. -/
theorem shiftNext_before {s₁ : FoldState}
    (h : ((untyped (shiftNextRoutine ⟨9⟩)).pushSites [0]).run behindStore = (.ok (), s₁)) :
    s₁.stack.waiting = [.assign (.write ⟨8⟩ 0) ⟨2⟩ false {} none, .statement ⟨0⟩ true] ∧
      (untyped (shiftNextRoutine ⟨9⟩)).idiomClashes (shiftNextShape ⟨9⟩) s₁ = false ∧
      ⟨5⟩ ∈ s₁.pool.formReadRegisters ⟨2⟩ := by
  obtain rfl : (((untyped (shiftNextRoutine ⟨9⟩)).pushSites [0]).run behindStore).2 = s₁ :=
    congrArg Prod.snd h
  decide +kernel

/-- A shift by the successor of a register, which has been popped, behind a store, whatever that
does to the registers and to the memory. -/
theorem shiftNext_keeps_value :
    assemble "shift-next" (shiftNext ⟨9⟩) = .ok (shiftNextRoutine ⟨9⟩) ∧
    ∃ s', foldShiftNext ⟨9⟩ = (.ok 2, s') ∧
      s'.stack = shiftNextRest.push (.assign (.write .v0 3) ⟨4⟩ false {} none) ∧
      ∃ element, (s'.pool.single? ⟨4⟩).map s'.pool.element = some element ∧
        ∀ (consts : Constants) (memory : Nat → LoadKind → Word → Word) {R : Type}
          (store : Registers × R → Registers × R) (state : Registers × R),
          ∃ m', (plainMachine consts).RunsTo (shiftNextRoutine ⟨9⟩) 2 0
              ⟨(store state).1, memory⟩ m' ∧
            element.idiomValue consts memory (fun g => (shiftNextActions store).value g
                (shiftNextRest.perform (shiftNextActions store) state)) =
              some (m'.registers .v0) := by
  obtain ⟨hrun, hpool, hstack⟩ := foldShiftNext_eq (by decide : (⟨9⟩ : Register) ∈ [⟨9⟩, ⟨4⟩])
  refine ⟨by cbv, _, hrun, hstack, ?_⟩
  obtain ⟨id, shape, block, s₁, remaining, dst, f, ordered, element,
    ⟨hfinds, -, hblock, hbefore⟩, ⟨hpushed, helem⟩, hkeeps⟩ :=
    tryIdioms_keeps_value hrun (by decide)
  obtain ⟨rfl, hentry⟩ := Stack.push_inj (hstack.symm.trans hpushed)
  cases hentry
  obtain ⟨rest, hleading, -, -, -, hshape⟩ := hfinds
  cases hleading
  obtain rfl : shape = shiftNextShape ⟨9⟩ := hshape.unique rfl
  cases hblock
  obtain ⟨hwaiting, hclear, hread⟩ := shiftNext_before hbefore
  refine ⟨element, helem, fun consts memory R store state => ?_⟩
  obtain ⟨m', hruns, -, hvalue⟩ :=
    hkeeps rfl (plainMachine consts) ⟨(store state).1, memory⟩
  refine ⟨m', hruns, hvalue hclear (shiftNextActions store) ?_ ?_ state ?_⟩
  · rw [hwaiting, List.forall_mem_cons, List.forall_mem_singleton]
    exact ⟨⟨fun σ τ ρ hsame => congrArg (· + 1) (hsame _ hread), fun _ _ => rfl⟩, fun h => by cases h⟩
  · intro f a hatom state
    rw [hpool] at hatom
    exact shiftNextValue_atom hatom _ state.1
  · rw [Stack.perform, hwaiting]
    intro a ha
    rcases List.mem_pair.1 ha with rfl | rfl <;> rfl

/-- When the temporary is the register of the value, the shift to the right has lost the value:
what it shifts is its own amount. -/
theorem shiftNext_loses_value :
    assemble "shift-next" (shiftNext ⟨4⟩) = .ok (shiftNextRoutine ⟨4⟩) ∧
    ∃ s' element, foldShiftNext ⟨4⟩ = (.ok 2, s') ∧
      s'.stack = shiftNextRest.push (.assign (.write .v0 3) ⟨4⟩ false {} none) ∧
      (s'.pool.single? ⟨4⟩).map s'.pool.element = some element ∧
      ∃ (m m' : PlainState), (plainMachine fun _ => 0).RunsTo (shiftNextRoutine ⟨4⟩) 2 0 m m' ∧
        element.idiomValue (fun _ => 0) m.memory
          (fun g => (shiftNextActions fun state => state).value g
            (shiftNextRest.perform (shiftNextActions fun state => state) (m.registers, ()))) = some 4 ∧
        m'.registers .v0 = 0 := by
  obtain ⟨hrun, hpool, hstack⟩ := foldShiftNext_eq (by decide : (⟨4⟩ : Register) ∈ [⟨9⟩, ⟨4⟩])
  refine ⟨by cbv, _, _, hrun, hstack, by rw [hpool]; rfl, ?_⟩
  refine ⟨⟨fun q => if q = ⟨4⟩ then 8 else -2, fun _ _ _ => 0⟩, _,
    .passed (by decide) rfl rfl rfl (.next (by decide) rfl rfl (.arrived _)), by decide, by decide⟩

end Context

end Decompiler
