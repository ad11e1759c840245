import Decompiler.Proofs.Fold.Checkpoint

/-!
How a comparison is taken off the stack, for a conditional move or a test of the float flag.  A
recognizer takes values to look for the comparison; where there is none it gives them back.  The
move is then kept as it is; otherwise it becomes a value, or is refused if the comparison is read
again.
-/

namespace Decompiler.Context

open TryFoldM

variable {cx : Context} {site : Nat} {s : FoldState} {dst test : Variable} {source : Atom}
  {onZero : Bool}

def moveError (site : Nat) (source : Atom) (test : Variable) : Error :=
  .foldInvariant site
    ((if source.isFalse then "boolean conditional move folds "
      else "min/max conditional move folds ") ++ test.register.name ++ " but does not consume it")

/-- The element of a conditional move that belongs to no idiom. -/
def unpairedMove (site : Nat) (dst : Variable) (source : Atom) (test : Variable) (onZero : Bool) :
    Element :=
  if source.isFalse then .moveFalse dst test onZero site
  else .operation site (.single dst.register)

/-- How the comparison that set the float flag is taken: there is none, and nothing changes; or it
becomes the condition itself. -/
inductive FlagOutcome (s : FoldState) (test : Test) (flipped effects : Bool) :
    Option FormId × FoldState → Prop
  | nothing : FlagOutcome s test flipped effects (none, s)
  | taken {f : FormId} {e : ElementId} {t : Test} {args : List FormId} {consumed : RegisterSet}
      {wasFlipped : Bool} {at' : Nat} {stack : Stack}
      (hpop : s.stack.popRegister s.pool .fcc ∅ effects = some (f, stack))
      (hsingle : s.pool.single? f = some e)
      (helem : s.pool.element e = .condition t args consumed wasFlipped at') (log : EventLog) :
      FlagOutcome s test flipped effects (some f, { s with
        pool := s.pool.replace e
          (.condition t args consumed (wasFlipped ^^ ((test == .flagClear) ^^ flipped)) at')
        stack, log })

theorem popFloatFlag_outcome {test : Test} {flipped effects : Bool} :
    FlagOutcome s test flipped effects (cx.popFloatFlag site test flipped effects s) := by
  obtain ⟨found, stack, htakes⟩ := FoldM.popRegister_takes .fcc ∅ effects s
  obtain ⟨taken, hspends⟩ := htakes.spends
  suffices hends : (cx.popFloatFlag site test flipped effects).Ends s fun found s' =>
      FlagOutcome s test flipped effects (found, s') from hends
  rw [popFloatFlag, FoldM.ends_bind, FoldM.ends_get, FoldM.ends_bind, FoldM.Ends, htakes.run_eq]
  cases found with
  | none =>
    rw [htakes.kept rfl]
    exact .nothing
  | some f =>
    dsimp only
    rw [FoldM.ends_bind, FoldM.ends_single?]
    split
    · rename_i e t args consumed wasFlipped at' hsingle
      obtain ⟨e', he', heq⟩ := Option.map_eq_some_iff.1 hsingle
      obtain ⟨rfl, helem⟩ := Prod.mk.inj heq
      exact .taken (htakes.popped f rfl) he' helem _
    · rw [FoldM.ends_bind, FoldM.Ends, FoldM.restore_eq hspends]
      exact .nothing

/-- A conditional move is recognized, and an element stands for what it assigns. -/
inductive Recognizes (s : FoldState) (dst test : Variable) (onZero : Bool) :
    Atom → Stack → Element → Prop
  | truth {truth compare a b : FormId} {t : Test} {under remaining : Stack} {site : Nat}
      (htop : s.stack.popTop dst.register = some (truth, under))
      (htruth : s.pool.isTruth truth = true)
      (hpop : under.popRegister s.pool test.register (.single dst.register) true =
        some (compare, remaining))
      (hless : s.pool.lessThan? compare = some (t, a, b)) :
      Recognizes s dst test onZero .falsehood remaining (.condition t [a, b] ∅ (!onZero) site)
  | minMax {source : Variable} {compare a b : FormId} {t : Test} {swapped : Bool}
      {remaining : Stack}
      (hpop : s.stack.popRegister s.pool test.register ∅ true = some (compare, remaining))
      (hless : s.pool.lessThan? compare = some (t, a, b))
      (horder : s.pool.swapped? a b dst.register source.register = some swapped) :
      Recognizes s dst test onZero (.var source) remaining
        (.apply (.builtin (if onZero != swapped then .min else .max))
          (if swapped then [b, a] else [a, b]))

/-- How a recognizer of conditional moves ends.  It finds nothing, and changes nothing; or it
refuses what it has taken off the stack; or it makes a form of that and logs it. -/
inductive Recognition (cx : Context) (site : Nat) (s : FoldState) (dst : Variable) (source : Atom)
    (test : Variable) (onZero : Bool) : Except Error (Option FormId) × FoldState → Prop
  | nothing : Recognition cx site s dst source test onZero (.ok none, s)
  | refused {stack : Stack} {element : Element}
      (h : Recognizes s dst test onZero source stack element)
      (htest : (cx.consumed s.verbatim site).contains test.register = false) :
      Recognition cx site s dst source test onZero
        (.error (moveError site source test), { s with stack })
  | made {stack : Stack} {element : Element}
      (h : Recognizes s dst test onZero source stack element) (message : String) :
      Recognition cx site s dst source test onZero
        (.ok (some (s.pool.addSingle element).1), { s with
          pool := (s.pool.addSingle element).2, stack
          log := (s.log.after s.others).record .idiomRecognized (some cx.routine.name) (some site)
            (some message) })

/-- How a conditional move is pushed: it is kept as an element of its own, or it is refused, or
what is recognized becomes the value of its destination. -/
inductive MoveOutcome (cx : Context) (site : Nat) (s : FoldState) (dst : Variable) (source : Atom)
    (test : Variable) (onZero : Bool) : Except Error Unit × FoldState → Prop
  | kept {element : Element} (h : element = unpairedMove site dst source test onZero)
      (log : EventLog) :
      MoveOutcome cx site s dst source test onZero (.ok (), { s with
        pool := (s.pool.addElement element).2, log
        stack := s.stack.pushStatement (s.pool.addElement element).1 true })
  | refused {stack : Stack} {element : Element}
      (hallowed : cx.config.allows (if source.isFalse then .booleanMove else .minMax) = true)
      (h : Recognizes s dst test onZero source stack element)
      (htest : (cx.consumed s.verbatim site).contains test.register = false) :
      MoveOutcome cx site s dst source test onZero
        (.error (moveError site source test), { s with stack })
  | recognized {stack : Stack} {element : Element}
      (h : Recognizes s dst test onZero source stack element) (message : String)
      (notes : SetNotes) :
      MoveOutcome cx site s dst source test onZero
        (.ok (), (FoldM.pushValue dst (s.pool.addSingle element).1 notes { s with
          pool := (s.pool.addSingle element).2, stack
          log := (s.log.after s.others).record .idiomRecognized (some cx.routine.name) (some site)
            (some message) }).2)

/-- A recognizer that gives back what it has taken has changed nothing. -/
theorem restored_recognition {stack : Stack} {taken : List Pending}
    (h : Stack.Spends s.stack.entries taken stack.entries) :
    cx.Recognition site s dst source test onZero
      ((do FoldM.restore s.stack.checkpoint; return none : TryFoldM (Option FormId)).run
        { s with stack }) := by
  have hrun : (liftM (FoldM.restore s.stack.checkpoint) : TryFoldM Unit).run { s with stack } =
      (.ok (), s) := by
    rw [run_liftM, FoldM.restore_eq h]
  rw [run_bind_of_ok hrun]
  exact .nothing

theorem run_take {α : Type} {m : FoldM (Option α)} {pop : Stack → Option (α × Stack)}
    {found : Option α} {stack : Stack} (h : m.Takes pop s found stack) :
    (liftM m : TryFoldM (Option α)).run s = (.ok found, { s with stack }) := by
  rw [run_liftM, h.run_eq]

theorem foldMove_recognition {stack : Stack} {element : Element} {text : String}
    (htext : moveError site source test =
      .foldInvariant site (text ++ test.register.name ++ " but does not consume it"))
    (h : Recognizes s dst test onZero source stack element) :
    cx.Recognition site s dst source test onZero
      ((cx.foldMove site test.register text element).run { s with stack }) := by
  rw [foldMove, run_bind_of_ok run_liftM]
  split
  · rename_i htest
    rw [Bool.not_eq_true'] at htest
    exact htext ▸ .refused h htest
  · exact .made h _

theorem foldTruthMove_recognition :
    cx.Recognition site s dst .falsehood test onZero
      ((cx.foldTruthMove site dst.register test.register onZero).run s) := by
  have hget : ∀ s, (get : TryFoldM FoldState).run s = (.ok s, s) := fun _ => rfl
  obtain ⟨top, under, htop⟩ := FoldM.popTop_takes dst.register s
  obtain ⟨taken, hspends⟩ := htop.spends
  rw [foldTruthMove, run_bind_of_ok (hget s), run_bind_of_ok (run_take htop),
    run_bind_of_ok (hget _)]
  split
  · exact restored_recognition hspends
  · rename_i htruth
    obtain ⟨truth, rfl, hatom⟩ : ∃ truth, top = some truth ∧ s.pool.isTruth truth = true := by
      simpa [Option.any_eq_true] using htruth
    obtain ⟨compare, stack, hcompare⟩ :=
      FoldM.popRegister_takes test.register (.single dst.register) true { s with stack := under }
    obtain ⟨taken', hspends'⟩ := hcompare.spends
    obtain ⟨all, hall, -⟩ := hspends.trans hspends'
    rw [run_bind_of_ok (run_take hcompare), run_bind_of_ok (hget _)]
    split
    · rename_i t a b hless
      obtain ⟨compare, rfl, hless⟩ := Option.bind_eq_some_iff.1 hless
      exact foldMove_recognition rfl
        (.truth (htop.popped _ rfl) hatom (hcompare.popped _ rfl) hless)
    · exact restored_recognition hall

theorem foldMinMax_recognition {source : Variable} :
    cx.Recognition site s dst (.var source) test onZero
      ((cx.foldMinMax site dst.register source.register test.register onZero).run s) := by
  have hget : ∀ s, (get : TryFoldM FoldState).run s = (.ok s, s) := fun _ => rfl
  obtain ⟨compare, stack, hcompare⟩ := FoldM.popRegister_takes test.register ∅ true s
  obtain ⟨taken, hspends⟩ := hcompare.spends
  rw [foldMinMax, run_bind_of_ok (hget s), run_bind_of_ok (run_take hcompare),
    run_bind_of_ok (hget _)]
  split
  · rename_i t a b hless
    obtain ⟨compare, rfl, hless⟩ := Option.bind_eq_some_iff.1 hless
    rw [run_bind_of_ok (hget _)]
    split
    · rename_i swapped horder
      exact foldMove_recognition rfl (.minMax (hcompare.popped _ rfl) hless horder)
    · exact restored_recognition hspends
  · exact restored_recognition hspends

/-- A move is pushed as its recognizer ends. -/
theorem Recognition.outcome {recognizer : TryFoldM (Option FormId)}
    {push : Option FormId → TryFoldM Unit}
    (hallowed : cx.config.allows (if source.isFalse then .booleanMove else .minMax) = true)
    (h : cx.Recognition site s dst source test onZero (recognizer.run s))
    (hkept : cx.MoveOutcome site s dst source test onZero ((push none).run s))
    (hmade : ∀ f, push (some f) = liftM (FoldM.pushValue dst f (cx.setNotes site dst none))) :
    cx.MoveOutcome site s dst source test onZero ((recognizer >>= push).run s) := by
  rcases hrun : recognizer.run s with ⟨result, s'⟩
  rw [hrun] at h
  cases h with
  | nothing =>
    rw [run_bind_of_ok hrun]
    exact hkept
  | refused hrecognizes htest =>
    rw [run_bind_of_error hrun]
    exact .refused hallowed hrecognizes htest
  | made hrecognizes message =>
    rw [run_bind_of_ok hrun, hmade]
    exact .recognized hrecognizes message _

theorem pushMove_outcome (cx : Context) (site : Nat) (dst : Variable) (source : Atom)
    (test : Variable) (onZero : Bool) (s : FoldState) :
    cx.MoveOutcome site s dst source test onZero
      ((cx.pushMove site dst source test onZero).run s) := by
  unfold pushMove
  split
  · rename_i hfalse
    have hliteral : .moveFalse dst test onZero site = unpairedMove site dst source test onZero :=
      (if_pos hfalse).symm
    obtain rfl : source = .falsehood := eq_of_beq hfalse
    unfold pushFalseMove
    split
    · rename_i hallowed
      refine foldTruthMove_recognition.outcome ?_ (.kept hliteral _) fun _ => rfl
      rwa [if_pos hfalse]
    · exact .kept hliteral _
  · rename_i hfalse
    have hliteral : .operation site (.single dst.register) =
        unpairedMove site dst source test onZero := (if_neg hfalse).symm
    unfold pushValueMove
    cases source with
    | var v =>
      change cx.MoveOutcome _ _ _ _ _ _
        (((if cx.config.allows .minMax then _ else _) : TryFoldM Unit).run s)
      split
      · rename_i hallowed
        refine foldMinMax_recognition.outcome ?_ (.kept hliteral _) fun _ => rfl
        rwa [if_neg hfalse]
      · exact .kept hliteral _
    | _ => exact .kept hliteral _

end Decompiler.Context
