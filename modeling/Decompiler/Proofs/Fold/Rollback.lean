import Decompiler.Proofs.Fold.Failure
import Decompiler.Proofs.Fold.Held
import Decompiler.Proofs.Fold.Runs
import Decompiler.Proofs.Machine.Statements

/-!
Undoing what was taken off the stack.  To take an entry is to mark it, so the stack can be
brought back from a checkpoint.  A recognizer of conditional moves takes entries before it knows
whether they fit; it gives them back when they do not, but not when it refuses them.
-/

namespace Decompiler

open List

variable {cx : Context} {site : Nat} {s s' : FoldState}

theorem EventLog.count_lt_record (log : EventLog) (kind : EventKind) (routine : Option String)
    (site : Option Nat) (message : Option String) :
    log.count kind < (log.record kind routine site message).count kind := by
  simp [count, ofKind, record, push, toList]

namespace Context

/-- What is recognized was taken off the stack. -/
theorem Recognizes.spends {dst test : Variable} {source : Atom} {onZero : Bool} {stack : Stack}
    {element : Element} (h : Recognizes s dst test onZero source stack element) :
    ∃ taken, Stack.Spends s.stack.entries taken stack.entries ∧ taken ≠ [] := by
  cases h with
  | truth htop _ hpop _ =>
    obtain ⟨top, -, hfirst⟩ := Stack.takeFirst_spends htop
    obtain ⟨under, -, hsecond⟩ := Stack.takeFirst_spends hpop
    obtain ⟨taken, hspends, hperm⟩ := hfirst.trans hsecond
    refine ⟨taken, hspends, ?_⟩
    rintro rfl
    cases hperm.length_eq
  | minMax hpop =>
    obtain ⟨q, -, hspends⟩ := Stack.takeFirst_spends hpop
    exact ⟨[q], hspends, cons_ne_nil q []⟩

/-- A recognizer that finds no match has given back all that it took off the stack, and leaves
everything as it was.  So a conditional move that is pushed while no idiom is recognized adds one
statement, which keeps the move, and changes nothing that was there. -/
theorem unmatched_move_adds_statement (cx : Context) (site : Nat) (s : FoldState) :
    (∀ dst test onZero s',
      (cx.foldTruthMove site dst test onZero).run s = (.ok none, s') → s' = s) ∧
    (∀ dst source test onZero s',
      (cx.foldMinMax site dst source test onZero).run s = (.ok none, s') → s' = s) ∧
    (∀ test flipped effects s',
      cx.popFloatFlag site test flipped effects s = (none, s') → s' = s) ∧
    ∀ dst source test onZero s',
      (cx.pushOperation site (.conditionalMove dst source test onZero)).run s = (.ok (), s') →
      s'.log.count .idiomRecognized ≤ (s.log.after s.others).count .idiomRecognized →
      s'.stack = s.stack.pushStatement ⟨s.pool.elements.size⟩ true ∧
      s'.verbatim = s.verbatim ∧
      s'.pool = { s.pool with elements := s.pool.elements.push ⟨none,
        if s.verbatim then .operation site (.single dst.register)
        else unpairedMove site dst source test onZero⟩ } := by
  refine ⟨?_, ?_, ?_, ?_⟩
  · intro dst test onZero s' hrun
    have hends : cx.Recognition site s (.write dst site) .falsehood (.read test site) onZero
        ((cx.foldTruthMove site dst test onZero).run s) := foldTruthMove_recognition
    rw [hrun] at hends
    cases hends
    rfl
  · intro dst source test onZero s' hrun
    have hends : cx.Recognition site s (.write dst site) (.var (.read source site))
        (.read test site) onZero ((cx.foldMinMax site dst source test onZero).run s) :=
      foldMinMax_recognition
    rw [hrun] at hends
    cases hends
    rfl
  · intro test flipped effects s' hrun
    have hends : FlagOutcome s test flipped effects (none, s') := hrun ▸ popFloatFlag_outcome
    cases hends
    rfl
  · intro dst source test onZero s' hrun hcount
    cases hmode : s.verbatim with
    | true =>
      rw [run_pushOperation_verbatim hmode rfl] at hrun
      cases hrun
      exact ⟨rfl, hmode, rfl⟩
    | false =>
      rw [run_pushOperation hmode rfl] at hrun
      have houtcome := cx.pushMove_outcome site dst source test onZero s
      rw [show (cx.pushMove site dst source test onZero).run s = _ from hrun] at houtcome
      cases houtcome with
      | kept helem log =>
        refine ⟨rfl, hmode, ?_⟩
        subst helem
        unfold unpairedMove
        split <;> rfl
      | recognized hfound message notes =>
        exact absurd hcount (Nat.not_le_of_gt (EventLog.count_lt_record ..))

/-- A conditional move that tests a copy, while the float flag holds a copy too. -/
def copiedTest : List Statement :=
  [.move ⟨3⟩ (.register ⟨4⟩),
   .move .fcc (.register ⟨5⟩),
   .move .v0 (.symbol "#t"),
   .conditionalMove .v0 (.symbol "#f") ⟨3⟩ true]

/-- Two values are taken before the copy turns out to be no comparison; both are given back. -/
theorem copiedTest_adds_statement :
    ∃ r s s', assemble "copied-test" copiedTest = .ok r ∧
      (untyped r).foldedBefore .empty 3 = s ∧
      ((untyped r).foldTruthMove 3 .v0 ⟨3⟩ true).run s = (.ok none, s) ∧
      ((untyped r).foldMinMax 3 .v0 ⟨5⟩ ⟨3⟩ true).run s = (.ok none, s) ∧
      (untyped r).popFloatFlag 3 .flagSet false true s = (none, s) ∧
      ((untyped r).pushOperation 3 (.conditionalMove (.write .v0 3) (.symbol "#f")
        (.read ⟨3⟩ 3) true)).run s = (.ok (), s') ∧
      s'.stack.size = 4 ∧ s'.stack = s.stack.pushStatement ⟨s.pool.elements.size⟩ true := by
  have hchecked : ((assemble "copied-test" copiedTest).toOption.any fun r =>
      let s := (untyped r).foldedBefore .empty 3
      let pushed := ((untyped r).pushOperation 3 (.conditionalMove (.write .v0 3) (.symbol "#f")
        (.read ⟨3⟩ 3) true)).run s
      (((untyped r).foldTruthMove 3 .v0 ⟨3⟩ true).run s).1 == .ok none &&
      (((untyped r).foldMinMax 3 .v0 ⟨5⟩ ⟨3⟩ true).run s).1 == .ok none &&
      ((untyped r).popFloatFlag 3 .flagSet false true s).1 == none &&
      pushed.1 == .ok () && pushed.2.stack.size == 4 &&
      pushed.2.log.count .idiomRecognized ≤ (s.log.after s.others).count .idiomRecognized) =
        true := by
    decide +kernel
  obtain ⟨r, hr, hcheck⟩ := exists_of_assembles hchecked
  simp only [Bool.and_eq_true, beq_iff_eq, decide_eq_true_eq] at hcheck
  obtain ⟨⟨⟨⟨⟨htruth, horder⟩, hflag⟩, hpush⟩, hsize⟩, hcount⟩ := hcheck
  generalize hs : (untyped r).foldedBefore .empty 3 = s at *
  obtain ⟨htruth', horder', hflag', hpush'⟩ := unmatched_move_adds_statement (untyped r) 3 s
  have hkept := hpush' _ _ _ _ _ (Prod.ext hpush rfl) hcount
  refine ⟨r, s, _, hr, hs, Prod.ext htruth ?_, Prod.ext horder ?_, Prod.ext hflag ?_,
    Prod.ext hpush rfl, hsize, hkept.1⟩
  · exact htruth' _ _ _ _ (Prod.ext htruth rfl)
  · exact horder' _ _ _ _ _ (Prod.ext horder rfl)
  · exact hflag' _ _ _ _ (Prod.ext hflag rfl)

end Context

/-- How folding an operation fails: early, with everything as it was, or late, when entries have
been taken off the stack. -/
inductive PushFailure (s : FoldState) (e : Error) : FoldState → Prop
  | early (htag : e.tag = .malformedInput ∨ e.tag = .invalidHandle) : PushFailure s e s
  | late (htag : e.tag = .foldInvariant) {taken : List Pending} {stack : Stack}
      (h : Stack.Spends s.stack.entries taken stack.entries) (htaken : taken ≠ []) :
      PushFailure s e { s with stack }

namespace Context

variable {e : Error}

/-- Folding fails with everything as it was, unless a conditional move refuses what it has taken
off the stack. -/
theorem pushOperation_fails {op : Operation} (h : (cx.pushOperation site op).run s = (.error e, s')) :
    PushFailure s e s' := by
  have hnop : op.isNop = false := by
    refine Bool.eq_false_iff.2 fun hnop => ?_
    rw [pushOperation, if_pos hnop] at h
    cases h
  have hmode : s.verbatim = false := by
    refine Bool.eq_false_iff.2 fun hverbatim => ?_
    cases (run_pushOperation_verbatim hverbatim hnop).symm.trans h
  rw [run_pushOperation hmode hnop] at h
  cases op with
  | set dst source =>
    by_cases harity : (Operation.set dst source).hasArity = true
    · cases pushFolded_failsWith hmode harity e (congrArg Prod.fst h)
    · rw [pushFolded, foldExpression, if_pos fun heq => harity (beq_iff_eq.2 heq)] at h
      cases h
      exact .early (.inl rfl)
  | conditionalMove dst source test onZero =>
    have houtcome := cx.pushMove_outcome site dst source test onZero s
    rw [show (cx.pushMove site dst source test onZero).run s = (.error e, s') from h] at houtcome
    cases houtcome with
    | refused _ hfound _ =>
      obtain ⟨taken, hspends, htaken⟩ := hfound.spends
      exact .late rfl hspends htaken
  | _ => cases pushFolded_failsWith hmode rfl e (congrArg Prod.fst h)

theorem pushInstruction_fails (h : (cx.pushInstruction site).run s = (.error e, s')) :
    PushFailure s e s' := by
  unfold pushInstruction at h
  cases hinstr : cx.routine.instruction site with
  | ok instr =>
    rw [hinstr] at h
    exact pushOperation_fails h
  | error e' =>
    rw [hinstr] at h
    cases h
    unfold Routine.instruction at hinstr
    split at hinstr
    · cases hinstr
    · cases hinstr
      exact .early (.inr rfl)

/-- An operation or an instruction that cannot be folded changes the stack only, and the
checkpoint of the stack undoes that.  Without it the stack is as it was unless a conditional move
refused a comparison, and then it is not. -/
theorem failed_push_undone {e : Error} {step : TryFoldM Unit}
    (hstep : step = cx.pushInstruction site ∨ ∃ op, step = cx.pushOperation site op)
    (hrun : step.run s = (.error e, s')) :
    s' = { s with stack := s'.stack } ∧ s'.stack.restore s.stack.checkpoint = s.stack ∧
      (s'.stack = s.stack ↔ e.tag ≠ .foldInvariant) := by
  have hfails : PushFailure s e s' := by
    rcases hstep with rfl | ⟨op, rfl⟩
    · exact pushInstruction_fails hrun
    · exact pushOperation_fails hrun
  cases hfails with
  | early htag =>
    refine ⟨rfl, (Stack.Spends.refl _).restore_eq, iff_of_true rfl ?_⟩
    rcases htag with htag | htag <;> simp [htag]
  | late htag hspends htaken =>
    refine ⟨rfl, hspends.restore_eq, iff_of_false (fun hsame => ?_) (not_not_intro htag)⟩
    exact hspends.ne_of_ne_nil htaken (congrArg Stack.entries hsame)

/-- A sum of one operand that follows a comparison and a move. -/
def shortSum : List Statement :=
  [.set ⟨3⟩ .lessSigned [.register ⟨4⟩, .register ⟨5⟩],
   .move .v0 (.symbol "#t"),
   .set ⟨8⟩ .add [.register ⟨3⟩]]

/-- The sum is refused before anything is taken, so both values still wait. -/
theorem shortSum_undone :
    ∃ r s', assemble "short-sum" shortSum = .ok r ∧
      ((untyped r).pushInstruction 2).run ((untyped r).foldedBefore .empty 2) =
        (.error (.malformedInput "short-sum: instruction 2: + takes 2 operands, got 1"), s') ∧
      ((untyped r).foldedBefore .empty 2).stack.size = 2 ∧
      s'.stack = ((untyped r).foldedBefore .empty 2).stack := by
  have hchecked : ((assemble "short-sum" shortSum).toOption.any fun r =>
      (((untyped r).pushInstruction 2).run ((untyped r).foldedBefore .empty 2)).1 ==
        .error (.malformedInput "short-sum: instruction 2: + takes 2 operands, got 1") &&
      ((untyped r).foldedBefore .empty 2).stack.size == 2) = true := by
    decide +kernel
  obtain ⟨r, hr, hcheck⟩ := exists_of_assembles hchecked
  rw [Bool.and_eq_true, beq_iff_eq, beq_iff_eq] at hcheck
  refine ⟨r, _, hr, Prod.ext hcheck.1 rfl, hcheck.2, ?_⟩
  have hundone := failed_push_undone (.inl rfl) (Prod.ext hcheck.1 rfl)
  exact hundone.2.2.2 (by decide)

/-- A truth value whose comparison is read again. -/
def sharedTest : List Statement :=
  [.set ⟨3⟩ .lessSigned [.register ⟨4⟩, .register ⟨5⟩],
   .move .v0 (.symbol "#t"),
   .conditionalMove .v0 (.symbol "#f") ⟨3⟩ true,
   .move ⟨6⟩ (.register ⟨3⟩)]

/-- The move refuses the comparison, and both values that waited are gone. -/
theorem sharedTest_loses_values :
    ∃ r s', assemble "shared-test" sharedTest = .ok r ∧
      ((untyped r).pushInstruction 2).run ((untyped r).foldedBefore .empty 2) =
        (.error (.foldInvariant 2 "boolean conditional move folds v1 but does not consume it"),
          s') ∧
      ((untyped r).foldedBefore .empty 2).stack.size = 2 ∧ s'.stack.size = 0 := by
  have hchecked : ((assemble "shared-test" sharedTest).toOption.any fun r =>
      let outcome := ((untyped r).pushInstruction 2).run ((untyped r).foldedBefore .empty 2)
      outcome.1 ==
        .error (.foldInvariant 2 "boolean conditional move folds v1 but does not consume it") &&
      ((untyped r).foldedBefore .empty 2).stack.size == 2 && outcome.2.stack.size == 0) = true := by
    decide +kernel
  obtain ⟨r, hr, hcheck⟩ := exists_of_assembles hchecked
  simp only [Bool.and_eq_true, beq_iff_eq] at hcheck
  exact ⟨r, _, hr, Prod.ext hcheck.1.1 rfl, hcheck.1.2, hcheck.2⟩

end Context

end Decompiler
