import Decompiler.Proofs.Fold.Runs
import Decompiler.Proofs.Meaning.Popping
import Decompiler.Proofs.Meaning.Processor
import Decompiler.Proofs.Tree.Growth

/-!
Conditional moves that are recognized together with the comparison in front of them.  The
comparison is popped, so the register that held its outcome is not assigned any more.  As long
as it is neither the destination nor the source of the move, the truth value, the minimum or the
maximum that is pushed is what the move would have left in its destination.
-/

namespace Decompiler

open List

namespace Pool

/-- An evaluator under which forms depend on what they read, operands have their own values, and
comparisons give one or zero. -/
structure EvaluatedBy (p : Pool) (consts : Constants) (eval : FormId → Registers → Word) :
    Prop where
  looks : p.LooksOnlyAtReads eval
  atom : ∀ {f : FormId} {a : Atom}, (p.single? f).map p.element = some (.atom a) →
    ∀ σ, eval f σ = a.value consts σ
  less : ∀ {f a b : FormId} {t : Test}, p.lessThan? f = some (t, a, b) →
    ∀ σ, (t.decide (consts .falsehood) [eval a σ, eval b σ]).map Word.ofFlag = some (eval f σ)

variable {p : Pool} {f : FormId}

theorem order_of_lessThan? {t : Test} {a b : FormId} (h : p.lessThan? f = some (t, a, b)) :
    t = .lessSigned ∨ t = .lessUnsigned := by
  obtain ⟨builtin, -, hcases⟩ := lessThan?_eq_some h
  exact hcases.imp And.right And.right

end Pool

namespace Stack

variable {V : Type*} {p : Pool} {eval : FormId → (Register → V) → V} {r : Register}
  {barrier : RegisterSet} {effects : Bool} {f : FormId} {s s' : Stack}

/-- Popping takes an entry away and leaves the others. -/
theorem mem_of_popRegister (hpop : s.popRegister p r barrier effects = some (f, s')) :
    ∀ q ∈ s'.waiting, q ∈ s.waiting := by
  obtain ⟨above, dst, ordered, notes, existing, below, hwaiting, hrest, -⟩ :=
    popRegister_eq_some hpop
  rw [hwaiting, hrest]
  exact (sublist_cons_self _ below).append_left above |>.subset

/-- The latest value is assigned behind everything else. -/
theorem popTop_execute {dst : Register} (hpop : s.popTop dst = some (f, s'))
    (eval : FormId → (Register → V) → V) (σ : Register → V) :
    s.execute eval σ = Function.update (s'.execute eval σ) dst (eval f (s'.execute eval σ)) ∧
      ∀ q ∈ s'.waiting, q ∈ s.waiting := by
  obtain ⟨v, ordered, notes, existing, hwaiting, rfl⟩ := popTop_eq_some hpop
  rw [execute, execute, hwaiting]
  exact ⟨rfl, fun q hq => mem_cons_of_mem _ hq⟩

variable {consts : Constants} {eval : FormId → Registers → Word} {dst source test : Register}
  {σ : Registers} {a b : FormId}

/-- Of a comparison under the true symbol, what its outcome was and what stays. -/
theorem truthTest_meaning {truth compare : FormId} {under : Stack} {t : Test}
    (hpure : ∀ q ∈ s.waiting, q.isPure p = true) (hreads : p.EvaluatedBy consts eval)
    (htop : s.popTop dst = some (truth, under)) (htruth : p.isTruth truth = true)
    (hcompare : under.popRegister p test (.single dst) true = some (compare, s'))
    (hless : p.lessThan? compare = some (t, a, b)) (hne : test ≠ dst) :
    s.execute eval σ dst = consts .truth ∧
      (t.decide (consts .falsehood) [eval a (s'.execute eval σ), eval b (s'.execute eval σ)]).map
        Word.ofFlag = some (s.execute eval σ test) := by
  obtain ⟨hexecute, hmem⟩ := popTop_execute htop eval σ
  obtain ⟨hvalue, -⟩ :=
    popRegister_execute (fun q hq => hpure q (hmem q hq)) hreads.looks hcompare σ
  rw [hexecute]
  constructor
  · rw [Function.update_self, hreads.atom (Pool.isTruth_eq_true htruth)]
    rfl
  · rw [Function.update_of_ne hne, hreads.less hless, hvalue]

/-- Of a comparison of two registers, what its outcome was and what its operands are. -/
theorem orderTest_meaning {compare : FormId} {t : Test} {swapped : Bool}
    (hpure : ∀ q ∈ s.waiting, q.isPure p = true) (hreads : p.EvaluatedBy consts eval)
    (hcompare : s.popRegister p test ∅ true = some (compare, s'))
    (hless : p.lessThan? compare = some (t, a, b))
    (horder : p.swapped? a b dst source = some swapped) (hdst : test ≠ dst)
    (hsource : test ≠ source) :
    (t.decide (consts .falsehood) [eval a (s'.execute eval σ), eval b (s'.execute eval σ)]).map
        Word.ofFlag = some (s.execute eval σ test) ∧
      eval (if swapped then b else a) (s'.execute eval σ) = s.execute eval σ dst ∧
      eval (if swapped then a else b) (s'.execute eval σ) = s.execute eval σ source := by
  obtain ⟨hvalue, hothers⟩ :=
    popRegister_execute hpure hreads.looks hcompare σ
  have hreg : ∀ {f q}, p.registerOf? f = some q → test ≠ q →
      eval f (s'.execute eval σ) = s.execute eval σ q := by
    intro f q hf hq
    obtain ⟨x, hatom, hx⟩ := Pool.registerOf?_eq_some hf
    rw [hreads.atom hatom, ← hothers q hq.symm]
    cases x <;> cases hx
    rfl
  obtain ⟨hleft, hright⟩ := Pool.swapped?_eq_some horder
  refine ⟨by rw [hreads.less hless, hvalue], ?_⟩
  cases swapped with
  | false => exact ⟨hreg hleft hdst, hreg hright hsource⟩
  | true => exact ⟨hreg hright hdst, hreg hleft hsource⟩

theorem push_inj {pending pending' : Pending} (h : s.push pending = s'.push pending') :
    s = s' ∧ pending = pending' := by
  cases s
  cases s'
  simp only [push, mk.injEq, List.cons.injEq, Entry.mk.injEq, and_true] at h
  exact ⟨by rw [h.2], h.1⟩

/-- The order of the comparison that waits for a register. -/
def pendingOrder? (s : Stack) (p : Pool) (test : Register) : Option Test :=
  (s.popRegister p test ∅ true).bind fun found => (p.lessThan? found.1).map Prod.fst

end Stack

/-- What a conditional move leaves in its destination. -/
def Operation.moved (consts : Constants) (dst : Variable) (source : Atom) (test : Variable)
    (onZero : Bool) (σ : Registers) : Word :=
  if (σ test.register == 0) = onZero then source.value consts σ else σ dst.register

/-- The value of a condition, and of a minimum or maximum in some order, given the values of the
operands. -/
def Element.chosen (consts : Constants) (order : Option Test) (value : FormId → Word) :
    Element → Option Word
  | .condition t fs _ flipped _ =>
    ((t.flippedBy flipped).decide (consts .falsehood) (fs.map value)).map fun holds =>
      if holds then consts .truth else consts .falsehood
  | .apply (.builtin .min) [a, b] => do
    let less ← (← order).decide (consts .falsehood) [value a, value b]
    return if less then value a else value b
  | .apply (.builtin .max) [a, b] => do
    let less ← (← order).decide (consts .falsehood) [value a, value b]
    return if less then value b else value a
  | _ => none

namespace Word

theorem ofFlag_eq_zero (b : Bool) : (ofFlag b == 0) = !b := by cases b <;> rfl

/-- Of two words that are ordered neither way, neither is smaller, so they are equal. -/
theorem less_cases {t : Test} (ht : t = .lessSigned ∨ t = .lessUnsigned) (z x y : Word) :
    ∃ less more, t.decide z [x, y] = some less ∧ t.decide z [y, x] = some more ∧
      (less = true → more = false) ∧ (less = false → more = false → x = y) := by
  rcases ht with rfl | rfl
  · refine ⟨x.slt y, y.slt x, rfl, rfl, ?_, ?_⟩
    · simp only [BitVec.slt, decide_eq_true_eq, decide_eq_false_iff_not]
      omega
    · simp only [BitVec.slt, decide_eq_false_iff_not]
      intro hless hmore
      exact BitVec.eq_of_toInt_eq (by omega)
  · refine ⟨x.ult y, y.ult x, rfl, rfl, ?_, ?_⟩
    · simp only [BitVec.ult, decide_eq_true_eq, decide_eq_false_iff_not]
      omega
    · simp only [BitVec.ult, decide_eq_false_iff_not]
      intro hless hmore
      exact BitVec.eq_of_toNat_eq (by omega)

end Word

namespace Element

variable {consts : Constants} {value : FormId → Word} {σ : Registers} {dst test : Variable}
  {source : Atom} {onZero : Bool} {t : Test} {a b : FormId}

/-- A comparison, or its negation, is what a move of the false symbol over the true one makes of
the outcome of the comparison. -/
theorem chosen_condition {order : Option Test} {consumed : RegisterSet} {site : Nat}
    (hdst : σ dst.register = consts .truth)
    (houtcome : (t.decide (consts .falsehood) [value a, value b]).map Word.ofFlag =
      some (σ test.register)) :
    (condition t [a, b] consumed (!onZero) site).chosen consts order value =
      some (Operation.moved consts dst .falsehood test onZero σ) := by
  obtain ⟨outcome, hdecide, hflag⟩ := Option.map_eq_some_iff.1 houtcome
  have hflipped := Test.decide_flippedBy hdecide (!onZero)
  rw [chosen, map_cons, map_cons, map_nil, hflipped, Option.map_some,
    Operation.moved, ← hflag, hdst, Word.ofFlag_eq_zero]
  cases outcome <;> cases onZero <;> rfl

/-- The minimum or the maximum of two values is what a move between them makes of the outcome of
their comparison. -/
theorem chosen_minMax {swapped : Bool} (ht : t = .lessSigned ∨ t = .lessUnsigned)
    (houtcome : (t.decide (consts .falsehood) [value a, value b]).map Word.ofFlag =
      some (σ test.register)) (hdst : value (if swapped then b else a) = σ dst.register)
    (hsource : value (if swapped then a else b) = source.value consts σ) :
    (apply (.builtin (if onZero != swapped then .min else .max))
        (if swapped then [b, a] else [a, b])).chosen consts (some t) value =
      some (Operation.moved consts dst source test onZero σ) := by
  obtain ⟨less, more, hless, hmore, hasymm, hequal⟩ :=
    Word.less_cases ht (consts .falsehood) (value a) (value b)
  rw [hless, Option.map_some] at houtcome
  rw [Operation.moved, ← Option.some.inj houtcome, Word.ofFlag_eq_zero, ← hdst, ← hsource]
  cases swapped with
  | false => cases onZero <;> cases less <;> simp [chosen, hless]
  | true => cases onZero <;> cases less <;> cases more <;> simp_all [chosen]

end Element

namespace Context

variable {cx : Context} {site : Nat} {dst test : Variable} {source : Atom} {onZero : Bool}
  {s s' : FoldState} {consts : Constants} {eval : FormId → Registers → Word}

/-- What pushing a conditional move ends in: it is a statement, or the value of its
destination. -/
def MovePushed (s : FoldState) (dst test : Variable) (onZero : Bool) (source : Atom)
    (s' : FoldState) : Prop :=
  (∃ e, s'.stack = s.stack.pushStatement e true) ∨
    ∃ f ordered notes remaining element,
      s'.stack = remaining.push (.assign dst f ordered notes none) ∧
      (s'.pool.single? f).map s'.pool.element = some element ∧
      Recognizes s dst test onZero source remaining element

theorem pushMove_ends :
    (cx.pushMove site dst source test onZero).Ends s
      fun _ s' => MovePushed s dst test onZero source s' := by
  have houtcome := cx.pushMove_outcome site dst source test onZero s
  intro a ha
  rcases hrun : (cx.pushMove site dst source test onZero).run s with ⟨result, s'⟩
  rw [hrun] at houtcome ha
  cases houtcome with
  | kept _ _ => exact .inl ⟨_, rfl⟩
  | refused _ _ _ => cases ha
  | recognized hfound _ notes =>
    exact .inr ⟨_, _, notes, _, _, rfl, Pool.Extends.single?_addSingle (.refl _), hfound⟩

/-- Whenever a conditional move is recognized, what is pushed for its destination has, behind
the entries that stay, the value that the move leaves there behind all entries that were on the
stack. -/
theorem pushMove_keeps_value {remaining : Stack} {dst' : Variable} {f : FormId} {ordered : Bool}
    {notes : SetNotes} {existing : Option ElementId}
    (hpure : ∀ q ∈ s.stack.waiting, q.isPure s.pool = true)
    (hreads : s.pool.EvaluatedBy consts eval)
    (hrun : (cx.pushMove site dst source test onZero).run s = (.ok (), s'))
    (hpushed : s'.stack = remaining.push (.assign dst' f ordered notes existing))
    (hdst : test.register ≠ dst.register) (hsource : source.register? ≠ some test.register) :
    dst' = dst ∧ ∃ element, (s'.pool.single? f).map s'.pool.element = some element ∧
      ∀ σ : Registers,
        element.chosen consts (s.stack.pendingOrder? s.pool test.register)
            (fun g => eval g (remaining.execute eval σ)) =
          some (Operation.moved consts dst source test onZero (s.stack.execute eval σ)) := by
  rcases pushMove_ends.of_run hrun with
    ⟨e, hstatement⟩ | ⟨f', ordered', notes', stack, element, hstack, helem, hrecognized⟩
  · cases (Stack.push_inj (hstatement.symm.trans hpushed)).2
  · obtain ⟨rfl, hentry⟩ := Stack.push_inj (hstack.symm.trans hpushed)
    cases hentry
    refine ⟨rfl, element, helem, fun σ => ?_⟩
    cases hrecognized with
    | truth htop htruth hpop hless =>
      obtain ⟨hvalue, houtcome⟩ :=
        Stack.truthTest_meaning hpure hreads htop htruth hpop hless hdst
      exact Element.chosen_condition hvalue houtcome
    | @minMax source compare a b t swapped stack hpop hless hswapped =>
      have hother : test.register ≠ source.register := fun heq => hsource (congrArg some heq.symm)
      obtain ⟨houtcome, hfirst, hsecond⟩ :=
        Stack.orderTest_meaning hpure hreads hpop hless hswapped hdst hother
      have horder : s.stack.pendingOrder? s.pool test.register = some t := by
        rw [Stack.pendingOrder?, hpop, Option.bind_some, hless, Option.map_some]
      rw [horder]
      exact Element.chosen_minMax (Pool.order_of_lessThan? hless) houtcome hfirst hsecond

/-- The forms of two registers, of their comparison and of a constant. -/
def comparisonPool (b : Builtin) (left right : Register) : Pool where
  elements := #[⟨some ⟨0⟩, .atom (.var (.read left 0))⟩, ⟨some ⟨1⟩, .atom (.var (.read right 0))⟩,
    ⟨some ⟨2⟩, .apply (.builtin b) [⟨0⟩, ⟨1⟩]⟩, ⟨some ⟨3⟩, .atom (.int 7)⟩]
  forms := #[⟨some ⟨2⟩, [⟨0⟩]⟩, ⟨some ⟨2⟩, [⟨1⟩]⟩, ⟨none, [⟨2⟩]⟩, ⟨none, [⟨3⟩]⟩]

def comparisonValue (less : Word → Word → Bool) (left right : Register) : FormId → Registers → Word
  | ⟨0⟩, σ => σ left
  | ⟨1⟩, σ => σ right
  | ⟨2⟩, σ => Word.ofFlag (less (σ left) (σ right))
  | ⟨3⟩, _ => 7
  | _, _ => 0

/-- The outcome of a comparison waits for a register, below a constant for another one. -/
def pendingComparison (b : Builtin) (left right : Register) : FoldState where
  pool := comparisonPool b left right
  stack := ⟨[⟨.assign (.write ⟨9⟩ 1) ⟨3⟩ false {} none, true⟩,
    ⟨.assign (.write ⟨8⟩ 0) ⟨2⟩ false {} none, true⟩]⟩
  log := .empty
  verbatim := false

/-- A routine whose only instruction reads the outcome for the last time. -/
def moving : Context := untyped { Routine.empty "move" with code := #[⟨default, .single ⟨8⟩⟩] }

/-- The elements of `comparisonPool`. -/
theorem comparisonPool_element {b : Builtin} {left right : Register} {f : FormId}
    {element : Element}
    (h : ((comparisonPool b left right).single? f).map (comparisonPool b left right).element =
      some element) :
    f = ⟨0⟩ ∧ element = .atom (.var (.read left 0)) ∨
      f = ⟨1⟩ ∧ element = .atom (.var (.read right 0)) ∨
      f = ⟨2⟩ ∧ element = .apply (.builtin b) [⟨0⟩, ⟨1⟩] ∨ f = ⟨3⟩ ∧ element = .atom (.int 7) := by
  obtain ⟨_ | _ | _ | _ | f⟩ := f
  · exact .inl ⟨rfl, (Option.some.inj h).symm⟩
  · exact .inr (.inl ⟨rfl, (Option.some.inj h).symm⟩)
  · exact .inr (.inr (.inl ⟨rfl, (Option.some.inj h).symm⟩))
  · exact .inr (.inr (.inr ⟨rfl, (Option.some.inj h).symm⟩))
  · cases h

/-- The comparison of words that an operator makes. -/
def comparisonOf : Builtin → Word → Word → Bool
  | .setLessUnsigned => BitVec.ult
  | _ => BitVec.slt

theorem comparisonPool_reads (b : Builtin) (left right : Register) (consts : Constants)
    (hleft : ∀ f ∈ [⟨0⟩, ⟨2⟩], left ∈ (comparisonPool b left right).formReadRegisters f)
    (hright : ∀ f ∈ [⟨1⟩, ⟨2⟩], right ∈ (comparisonPool b left right).formReadRegisters f) :
    (comparisonPool b left right).EvaluatedBy consts
      (comparisonValue (comparisonOf b) left right) where
  looks f σ τ hsame := by
    unfold comparisonValue
    split
    · exact hsame left (hleft ⟨0⟩ (by simp))
    · exact hsame right (hright ⟨1⟩ (by simp))
    · rw [hsame left (hleft ⟨2⟩ (by simp)), hsame right (hright ⟨2⟩ (by simp))]
    · rfl
    · rfl
  atom h σ := by
    rcases comparisonPool_element h with ⟨rfl, ha⟩ | ⟨rfl, ha⟩ | ⟨rfl, ha⟩ | ⟨rfl, ha⟩ <;>
      cases ha <;> rfl
  less h σ := by
    obtain ⟨builtin, helem, hcases⟩ := Pool.lessThan?_eq_some h
    rcases comparisonPool_element helem with ⟨-, ha⟩ | ⟨-, ha⟩ | ⟨rfl, ha⟩ | ⟨-, ha⟩ <;> cases ha
    rcases hcases with ⟨rfl, rfl⟩ | ⟨rfl, rfl⟩ <;> rfl

/-- Moves a register into another one, when the outcome of a comparison was zero. -/
def moveCompared (b : Builtin) (left right dst source : Register) : Except Error Unit × FoldState :=
  (moving.pushMove 0 (.write dst 0) (.var (.read source 0)) (.read ⟨8⟩ 0) true).run
    (pendingComparison b left right)

def comparisonPopped : Stack :=
  ⟨[⟨.assign (.write ⟨9⟩ 1) ⟨3⟩ false {} none, true⟩,
    ⟨.assign (.write ⟨8⟩ 0) ⟨2⟩ false {} none, false⟩]⟩

/-- The larger of two words without a sign, which are compared in the other order. -/
theorem larger_keeps_value :
    ∃ (s' : FoldState) (notes : SetNotes),
      moveCompared .setLessUnsigned ⟨5⟩ ⟨4⟩ ⟨4⟩ ⟨5⟩ = (.ok (), s') ∧
      s'.stack = comparisonPopped.push (.assign (.write ⟨4⟩ 0) ⟨4⟩ false notes none) ∧
      (s'.pool.single? ⟨4⟩).map s'.pool.element = some (.apply (.builtin .max) [⟨1⟩, ⟨0⟩]) ∧
      ∀ (consts : Constants) (σ : Registers),
        (Element.apply (.builtin .max) [⟨1⟩, ⟨0⟩]).chosen consts
            ((pendingComparison .setLessUnsigned ⟨5⟩ ⟨4⟩).stack.pendingOrder?
              (comparisonPool .setLessUnsigned ⟨5⟩ ⟨4⟩) ⟨8⟩)
            (fun g => comparisonValue BitVec.ult ⟨5⟩ ⟨4⟩ g
              (comparisonPopped.execute (comparisonValue BitVec.ult ⟨5⟩ ⟨4⟩) σ)) =
          some (Operation.moved consts (.write ⟨4⟩ 0) (.var (.read ⟨5⟩ 0)) (.read ⟨8⟩ 0) true
            ((pendingComparison .setLessUnsigned ⟨5⟩ ⟨4⟩).stack.execute
              (comparisonValue BitVec.ult ⟨5⟩ ⟨4⟩) σ)) := by
  have hpure : ∀ q ∈ (pendingComparison .setLessUnsigned ⟨5⟩ ⟨4⟩).stack.waiting,
      q.isPure (pendingComparison .setLessUnsigned ⟨5⟩ ⟨4⟩).pool = true := by decide
  have hrun : moveCompared .setLessUnsigned ⟨5⟩ ⟨4⟩ ⟨4⟩ ⟨5⟩ =
      (.ok (), (moveCompared .setLessUnsigned ⟨5⟩ ⟨4⟩ ⟨4⟩ ⟨5⟩).2) := rfl
  have hpushed : (moveCompared .setLessUnsigned ⟨5⟩ ⟨4⟩ ⟨4⟩ ⟨5⟩).2.stack = comparisonPopped.push
      (.assign (.write ⟨4⟩ 0) ⟨4⟩ false (moving.setNotes 0 (.write ⟨4⟩ 0) none) none) := rfl
  refine ⟨_, _, hrun, hpushed, rfl, fun consts σ => ?_⟩
  have hreads : (pendingComparison .setLessUnsigned ⟨5⟩ ⟨4⟩).pool.EvaluatedBy consts _ :=
    comparisonPool_reads .setLessUnsigned ⟨5⟩ ⟨4⟩ consts (by decide) (by decide)
  obtain ⟨-, element, helem, hvalue⟩ :=
    pushMove_keeps_value hpure hreads hrun hpushed (by decide) (by decide)
  cases helem
  exact hvalue σ

/-- When the outcome is in the destination itself, a move that is skipped keeps the outcome and
not the smaller word; when it is in the source, the outcome is what is moved. -/
theorem outcome_lost_in_move :
    (∃ (s : FoldState) (notes : SetNotes) (σ : Registers),
      moveCompared .setLess ⟨8⟩ ⟨5⟩ ⟨8⟩ ⟨5⟩ = (.ok (), s) ∧
      s.stack = comparisonPopped.push (.assign (.write ⟨8⟩ 0) ⟨4⟩ false notes none) ∧
      (s.pool.single? ⟨4⟩).map s.pool.element = some (.apply (.builtin .min) [⟨0⟩, ⟨1⟩]) ∧
      (Element.apply (.builtin .min) [⟨0⟩, ⟨1⟩]).chosen (fun _ => 0) (some .lessSigned)
          (fun g => comparisonValue BitVec.slt ⟨8⟩ ⟨5⟩ g
            (comparisonPopped.execute (comparisonValue BitVec.slt ⟨8⟩ ⟨5⟩) σ)) = some 0 ∧
      Operation.moved (fun _ => 0) (.write ⟨8⟩ 0) (.var (.read ⟨5⟩ 0)) (.read ⟨8⟩ 0) true
        ((pendingComparison .setLess ⟨8⟩ ⟨5⟩).stack.execute
          (comparisonValue BitVec.slt ⟨8⟩ ⟨5⟩) σ) = 1) ∧
    ∃ (s : FoldState) (notes : SetNotes) (σ : Registers),
      moveCompared .setLess ⟨4⟩ ⟨8⟩ ⟨4⟩ ⟨8⟩ = (.ok (), s) ∧
      s.stack = comparisonPopped.push (.assign (.write ⟨4⟩ 0) ⟨4⟩ false notes none) ∧
      (s.pool.single? ⟨4⟩).map s.pool.element = some (.apply (.builtin .min) [⟨0⟩, ⟨1⟩]) ∧
      (Element.apply (.builtin .min) [⟨0⟩, ⟨1⟩]).chosen (fun _ => 0) (some .lessSigned)
          (fun g => comparisonValue BitVec.slt ⟨4⟩ ⟨8⟩ g
            (comparisonPopped.execute (comparisonValue BitVec.slt ⟨4⟩ ⟨8⟩) σ)) = some 3 ∧
      Operation.moved (fun _ => 0) (.write ⟨4⟩ 0) (.var (.read ⟨8⟩ 0)) (.read ⟨8⟩ 0) true
        ((pendingComparison .setLess ⟨4⟩ ⟨8⟩).stack.execute
          (comparisonValue BitVec.slt ⟨4⟩ ⟨8⟩) σ) = 0 := by
  refine ⟨⟨_, _, fun q => if q = ⟨5⟩ then 5 else 0, rfl, rfl, rfl, ?_, ?_⟩,
    ⟨_, _, fun q => if q = ⟨4⟩ then 5 else 3, rfl, rfl, rfl, ?_, ?_⟩⟩ <;> decide

end Context

end Decompiler
