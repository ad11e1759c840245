import Decompiler.Proofs.Fold.Moves
import Decompiler.Proofs.Fold.Tame

/-!
Steps that fail.  Folding refuses an operation for two reasons only: an assignment whose
expression has a wrong number of operands, and a conditional move that would take the
comparison it tests although it does not read it for the last time.  All other operations
can be folded in every state.
-/

namespace Decompiler

open TryFoldM

/-- Whatever error the step ends in is one of some errors. -/
def TryFoldM.FailsWith {α : Type} (m : TryFoldM α) (s : FoldState) (errors : List Error) : Prop :=
  ∀ e, (m.run s).1 = .error e → e ∈ errors

@[simp] theorem FoldM.ends_true {α : Type} {m : FoldM α} {s : FoldState} :
    m.Ends s fun _ _ => True := trivial

namespace TryFoldM

variable {α β : Type} {s : FoldState} {errors errors' : List Error} {m : TryFoldM α}

theorem FailsWith.mono (h : m.FailsWith s errors) (hsub : errors ⊆ errors') :
    m.FailsWith s errors' := fun e he => hsub (h e he)

/-- A step that cannot fail succeeds. -/
theorem FailsWith.exists_run (h : m.FailsWith s []) : ∃ a s', m.run s = (.ok a, s') := by
  rcases hrun : m.run s with ⟨e | a, s'⟩
  · cases h e (congrArg Prod.fst hrun)
  · exact ⟨a, s', rfl⟩

@[simp] theorem ends_true : m.Ends s fun _ _ => True := fun _ _ => trivial

@[simp] theorem failsWith_bind {m : TryFoldM β} {k : β → TryFoldM α} :
    (m >>= k).FailsWith s errors ↔
      m.FailsWith s errors ∧ m.Ends s fun b s' => (k b).FailsWith s' errors := by
  rcases hm : m.run s with ⟨e | b, s'⟩
  · simp [FailsWith, Ends, FoldM.Ends, run_bind_of_error hm, hm]
  · simp [FailsWith, Ends, FoldM.Ends, run_bind_of_ok hm, hm]

@[simp] theorem failsWith_pure {a : α} : (pure a : TryFoldM α).FailsWith s errors := by
  rintro e ⟨⟩

@[simp] theorem failsWith_lift {m : FoldM α} : (liftM m : TryFoldM α).FailsWith s errors := by
  rintro e ⟨⟩

@[simp] theorem failsWith_get : (get : TryFoldM FoldState).FailsWith s errors := by
  rintro e ⟨⟩

@[simp] theorem failsWith_throw {e : Error} :
    (throw e : TryFoldM α).FailsWith s errors ↔ e ∈ errors := by
  constructor
  · exact fun h => h e rfl
  · rintro h _ ⟨⟩
    exact h

@[simp] theorem failsWith_ofExcept {result : Except Error α} :
    (ofExcept result).FailsWith s errors ↔ ∀ e, result = .error e → e ∈ errors := Iff.rfl

@[simp] theorem ofExcept_bind {a : α} {k : α → TryFoldM β} : ofExcept (.ok a) >>= k = k a := rfl

@[simp] theorem failsWith_onFreshStack :
    (onFreshStack m).FailsWith s errors ↔ m.FailsWith { s with stack := .empty } errors := Iff.rfl

@[simp] theorem failsWith_inVerbatim :
    (inVerbatim m).FailsWith s errors ↔ m.FailsWith { s with verbatim := true } errors := Iff.rfl

@[simp] theorem failsWith_map {m : TryFoldM β} {f : β → α} :
    (f <$> m).FailsWith s errors ↔ m.FailsWith s errors := by
  rw [map_eq_pure_bind, failsWith_bind]
  exact and_iff_left (fun _ _ => failsWith_pure)

/-- Steps that keep the mode fail only as one of them does in that mode. -/
theorem failsWith_forM {f : β → TryFoldM PUnit} {bs : List β} (hadvances : ∀ b, (f b).Advances)
    (h : ∀ b ∈ bs, ∀ s', s'.verbatim = s.verbatim → (f b).FailsWith s' errors) :
    (bs.forM f).FailsWith s errors := by
  induction bs generalizing s with
  | nil => exact failsWith_pure
  | cons b bs ih =>
    refine failsWith_bind.2 ⟨h b List.mem_cons_self s rfl, fun u hu => ih fun b hb s' hmode => ?_⟩
    exact h b (List.mem_cons_of_mem _ hb) s' (hmode.trans (hadvances _ s u hu).mode)

end TryFoldM

def Operation.hasArity : Operation → Bool
  | .set _ source => source.args.length == source.operator.arity
  | _ => true

namespace Context

variable {cx : Context} {site : Nat} {s : FoldState} {op : Operation}

/-- Whether nothing about an operation keeps it from being folded at an instruction. -/
def accepts (cx : Context) (site : Nat) : Operation → Bool
  | .set _ source => source.args.length == source.operator.arity
  | .conditionalMove _ source test _ =>
    !cx.config.allows (if source.isFalse then .booleanMove else .minMax) ||
      (cx.consumed false site).contains test.register
  | _ => true

/-- The errors that an operation with the right number of operands may end in. -/
def operationErrors (cx : Context) (site : Nat) : Operation → List Error
  | .conditionalMove dst source test onZero =>
    if cx.accepts site (.conditionalMove dst source test onZero) then []
    else [moveError site source test]
  | _ => []

/-- A conditional move can be folded if its family is switched off, or if it reads its test
for the last time. -/
theorem pushMove_failsWith {dst : Variable} {source : Atom} {test : Variable} {onZero : Bool}
    (hmode : s.verbatim = false) :
    (cx.pushMove site dst source test onZero).FailsWith s
      (cx.operationErrors site (.conditionalMove dst source test onZero)) := by
  have houtcome := cx.pushMove_outcome site dst source test onZero s
  intro e he
  rcases hrun : (cx.pushMove site dst source test onZero).run s with ⟨result, s'⟩
  rw [hrun] at houtcome he
  cases houtcome with
  | kept _ _ => cases he
  | refused hallowed _ htest =>
    cases he
    rw [hmode] at htest
    rw [operationErrors, accepts, hallowed, htest]
    exact List.mem_cons_self
  | recognized _ _ _ => cases he

theorem run_pushOperation (hmode : s.verbatim = false) (hop : op.isNop = false) :
    (cx.pushOperation site op).run s = (cx.pushFolded site op).run s := by
  rw [pushOperation, hop]
  change (if s.verbatim then _ else cx.pushFolded site op).run s = _
  rw [hmode]
  rfl

theorem run_pushOperation_verbatim (hmode : s.verbatim = true) (hop : op.isNop = false) :
    (cx.pushOperation site op).run s = (.ok (), (pushVerbatim site op s).2) := by
  rw [pushOperation, hop]
  change (if s.verbatim then liftM (pushVerbatim site op) else _ : TryFoldM Unit).run s = _
  rw [hmode]
  rfl

theorem pushFolded_failsWith (hmode : s.verbatim = false) (h : op.hasArity = true) :
    (cx.pushFolded site op).FailsWith s (cx.operationErrors site op) := by
  cases op with
  | set dst source =>
    rw [pushFolded, foldExpression, if_neg (not_not_intro (beq_iff_eq.1 h))]
    rintro e ⟨⟩
  | conditionalMove dst source test onZero => exact pushMove_failsWith hmode
  | _ => rintro e ⟨⟩

/-- An operation with the right number of operands fails only as a conditional move does. -/
theorem pushOperation_failsWith (h : op.hasArity = true) (s : FoldState) :
    (cx.pushOperation site op).FailsWith s (cx.operationErrors site op) := by
  unfold pushOperation
  split
  · exact failsWith_pure
  · rw [failsWith_bind, ends_get]
    refine ⟨failsWith_get, ?_⟩
    split
    · exact failsWith_lift
    · rename_i hmode
      exact pushFolded_failsWith (Bool.eq_false_iff.2 hmode) h

/-- Only operations with the right number of operands can be folded. -/
theorem pushOperation_hasArity (hmode : s.verbatim = false) :
    (cx.pushOperation site op).Ends s fun _ _ => op.hasArity = true := by
  cases op with
  | set dst source =>
    unfold pushOperation
    rw [if_neg (by simp [Operation.isNop]), ends_bind, ends_get, hmode,
      if_neg Bool.false_ne_true, pushFolded, ends_bind, foldExpression]
    split
    · simp
    · rename_i harity
      exact fun _ _ => fun _ _ => beq_iff_eq.2 (Decidable.not_not.1 harity)
  | _ => exact fun _ _ => rfl

end Context

end Decompiler
