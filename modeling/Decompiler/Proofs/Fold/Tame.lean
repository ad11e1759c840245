import Decompiler.Proofs.Fold.Advance

/-!
Tame steps.  Folding is put together from a few basic steps: they look at the tree, the stack
and the mode but not at the log or at those who share it, take no element out of the pool, and log
only what happens on the way.  Every function of folding is tame; what is said of all states and
all logs is then shown once, for the basic steps.
-/

namespace Decompiler

/-- Whether an event marks the start or the end of a reconstruction. -/
def EventKind.isBoundary : EventKind → Bool
  | started | completed | failed => true
  | _ => false

namespace EventLog

/-- The log behind the events of a run, each of them behind what others have added. -/
def amid (others : Others) (log : EventLog) (events : List Event) : EventLog :=
  events.foldl (fun log e => (log.after others).push e) log

theorem amid_append (others : Others) (log : EventLog) (events events' : List Event) :
    log.amid others (events ++ events') = (log.amid others events).amid others events' :=
  List.foldl_append

theorem toList_amid_nobody (log : EventLog) (events : List Event) :
    (log.amid .nobody events).toList = log.toList ++ events := by
  induction events generalizing log with
  | nil => exact (List.append_nil _).symm
  | cons e events ih =>
    rw [amid, List.foldl_cons, after_nobody]
    refine (ih (log.push e)).trans ?_
    rw [push, toList, Array.toList_push, List.append_assoc]
    rfl

end EventLog

/-- The state with another log and others who share it. -/
def FoldState.on (s : FoldState) (log : EventLog) (others : Others) : FoldState :=
  { s with log, others }

namespace FoldM

def onFreshStack {α : Type} (m : FoldM α) : FoldM α := fun s =>
  ((m { s with stack := .empty }).1, { (m { s with stack := .empty }).2 with stack := s.stack })

def inVerbatim {α : Type} (m : FoldM α) : FoldM α := fun s =>
  ((m { s with verbatim := true }).1,
    { (m { s with verbatim := true }).2 with verbatim := s.verbatim })

/-- Steps that are put together from basic ones. -/
inductive Tame : {α : Type} → FoldM α → Prop
  | pure {α : Type} (a : α) : Tame (Pure.pure a)
  | bind {α β : Type} {m : FoldM β} {k : β → FoldM α} (hm : Tame m) (hk : ∀ b, Tame (k b)) :
    Tame (m >>= k)
  /-- Whatever a step sees of the state, it does the same on any log. -/
  | look {α : Type} {k : FoldState → FoldM α} (m : FoldState → FoldM α) (hm : ∀ s, Tame (m s))
    (hk : ∀ s log others, k (s.on log others) (s.on log others) = m s (s.on log others)) :
    Tame (MonadState.get >>= k)
  | onPool {α : Type} {f : Pool → α × Pool}
    (hf : ∀ p, p.elements.size ≤ (f p).2.elements.size) : Tame (FoldM.onPool f)
  | onStack (f : Stack → Stack) : Tame (FoldM.onStack f)
  | note (cx : Context) {kind : EventKind} (hkind : kind.isBoundary = false) (site : Nat)
    (message : String) : Tame (cx.note kind site message)
  | onFreshStack {α : Type} {m : FoldM α} (hm : Tame m) : Tame (FoldM.onFreshStack m)
  | inVerbatim {α : Type} {m : FoldM α} (hm : Tame m) : Tame (FoldM.inVerbatim m)

namespace Tame

variable {α β : Type} {m : FoldM α} {k : FoldState → FoldM α}

/-- After a tame step every state has advanced. -/
theorem advances (h : m.Tame) : m.Advances := by
  induction h with
  | pure a => exact fun s => .refl s
  | bind _ _ ihm ihk => exact .bind ihm ihk
  | @look α k m _ hk ih =>
    intro s
    have hnow : k s s = m s s := hk s s.log s.others
    rw [ends_bind, ends_get, FoldM.Ends, hnow]
    exact ih s s
  | onPool hf => exact fun s => ⟨rfl, hf s.pool⟩
  | onStack | note => exact fun _ => ⟨rfl, Nat.le_refl _⟩
  | onFreshStack _ ih =>
    intro s
    have hs := ih { s with stack := .empty }
    exact ⟨hs.mode, hs.size⟩
  | inVerbatim _ ih =>
    intro s
    have hs := ih { s with verbatim := true }
    exact ⟨rfl, hs.size⟩

/-- A tame step does the same and logs the same on any log, whatever others add to that in the
meantime, and it never logs the start or the end of a reconstruction. -/
theorem run_on (h : m.Tame) (s : FoldState) :
    ∃ events : List Event, (∀ e ∈ events, e.kind.isBoundary = false) ∧ ∀ log others,
      m (s.on log others) = ((m s).1, (m s).2.on (log.amid others events) others) := by
  induction h generalizing s with
  | pure | onPool | onStack => exact ⟨[], nofun, fun _ _ => rfl⟩
  | @bind α β m k _ _ ihm ihk =>
    obtain ⟨events, hquiet, hrun⟩ := ihm s
    obtain ⟨events', hquiet', hrun'⟩ := ihk (m s).1 (m s).2
    refine ⟨events ++ events', fun e he => (List.mem_append.1 he).elim (hquiet e) (hquiet' e),
      fun log others => ?_⟩
    change k (m (s.on log others)).1 (m (s.on log others)).2 = _
    rw [hrun, EventLog.amid_append]
    exact hrun' _ _
  | @look α k m _ hk ih =>
    obtain ⟨events, hquiet, hrun⟩ := ih s s
    have hnow : k s s = m s s := hk s s.log s.others
    refine ⟨events, hquiet, fun log others => ?_⟩
    change k (s.on log others) (s.on log others) = ((k s s).1, (k s s).2.on _ _)
    rw [hk, hnow, hrun]
  | @note cx kind hkind site message =>
    refine ⟨[⟨kind, some cx.routine.name, some site, message⟩], ?_, fun _ _ => rfl⟩
    exact List.forall_mem_singleton.2 hkind
  | onFreshStack _ ih =>
    obtain ⟨events, hquiet, hrun⟩ := ih { s with stack := .empty }
    refine ⟨events, hquiet, fun log others => ?_⟩
    exact congrArg (fun r => (r.1, { r.2 with stack := s.stack })) (hrun log others)
  | inVerbatim _ ih =>
    obtain ⟨events, hquiet, hrun⟩ := ih { s with verbatim := true }
    refine ⟨events, hquiet, fun log others => ?_⟩
    exact congrArg (fun r => (r.1, { r.2 with verbatim := s.verbatim })) (hrun log others)

theorem get_bind (hk : ∀ s, (k s).Tame) (hlog : ∀ s log others, k (s.on log others) = k s) :
    (MonadState.get >>= k).Tame :=
  .look k hk fun s log others => congrFun (hlog s log others) _

theorem take (pop : Pool → Stack → Option (α × Stack)) : (FoldM.take pop).Tame := by
  let found (s : FoldState) : FoldM (Option α) :=
    (pop s.pool s.stack).elim (Pure.pure none) fun popped =>
      FoldM.onStack (fun _ => popped.2) >>= fun _ => Pure.pure (some popped.1)
  refine .look (k := fun s _ => FoldM.take pop s) found (fun s => ?_) fun s log others => ?_
  · unfold found
    cases pop s.pool s.stack with
    | none => exact .pure none
    | some popped => exact .bind (.onStack _) fun _ => .pure _
  · dsimp only [found]
    rcases hpop : pop s.pool s.stack with _ | ⟨a, stack⟩ <;>
      simp only [FoldM.take, FoldState.on, hpop] <;> rfl

theorem changePool {f : Pool → Pool} (hf : ∀ p, (f p).elements.size = p.elements.size) :
    (FoldM.changePool f).Tame :=
  .onPool (f := fun p => ((), f p)) fun p => Nat.le_of_eq (hf p).symm

theorem describe (cx : Context) (f : FormId) : (cx.describe f).Tame :=
  .get_bind (fun _ => .pure _) fun _ _ _ => rfl

theorem noteForm (cx : Context) {kind : EventKind} (hkind : kind.isBoundary = false) (site : Nat)
    (f : FormId) : (cx.noteForm kind site f).Tame :=
  .bind (.describe cx f) fun _ => .note cx hkind site _

theorem formType (cx : Context) (f : FormId) : (cx.formType f).Tame :=
  .get_bind (fun _ => .pure _) fun _ _ _ => rfl

theorem consumedNow (cx : Context) (site : Nat) : (cx.consumedNow site).Tame :=
  .get_bind (fun _ => .pure _) fun _ _ _ => rfl

theorem addElement (element : Element) : (FoldM.addElement element).Tame :=
  .onPool fun p => by
    rw [Pool.size_addElement]
    exact Nat.le_succ _

theorem addSingle (element : Element) : (FoldM.addSingle element).Tame :=
  .onPool fun p => by
    rw [Pool.size_addSingle]
    exact Nat.le_succ _

theorem pushNew (element : Element) : (FoldM.pushNew element).Tame :=
  .bind (.addElement element) fun _ => .bind (.onStack _) fun _ => .pure _

theorem pushValue (dst : Variable) (f : FormId) (notes : SetNotes) :
    (FoldM.pushValue dst f notes).Tame :=
  .get_bind (fun _ => .onStack _) fun _ _ _ => rfl

theorem mapM {f : β → FoldM α} (hf : ∀ b, (f b).Tame) (bs : List β) : (bs.mapM f).Tame := by
  induction bs with
  | nil => exact .pure _
  | cons b bs ih =>
    rw [List.mapM_cons]
    exact .bind (hf b) fun _ => .bind ih fun _ => .pure _

end Tame

end FoldM

namespace TryFoldM

/-- Steps that can fail are tame when their outcome is that of a tame step. -/
def Tame {α : Type} (m : TryFoldM α) : Prop := FoldM.Tame m.run

namespace Tame

variable {α β : Type} {m : TryFoldM α} {k : FoldState → TryFoldM α}

theorem advances (h : m.Tame) : m.Advances := fun s _ _ => FoldM.Tame.advances h s

theorem pure (a : α) : (Pure.pure a : TryFoldM α).Tame := FoldM.Tame.pure _

theorem throw (e : Error) : (MonadExcept.throw e : TryFoldM α).Tame := FoldM.Tame.pure _

theorem ofExcept (result : Except Error α) : (TryFoldM.ofExcept result).Tame := FoldM.Tame.pure _

theorem lift {m : FoldM α} (hm : m.Tame) : (liftM m : TryFoldM α).Tame :=
  FoldM.Tame.bind hm fun _ => .pure _

theorem bind {m : TryFoldM β} {k : β → TryFoldM α} (hm : m.Tame) (hk : ∀ b, (k b).Tame) :
    (m >>= k).Tame := by
  rw [Tame, ExceptT.run_bind]
  refine FoldM.Tame.bind hm fun result => ?_
  cases result with
  | error e => exact .pure _
  | ok b => exact hk b

theorem look (m : FoldState → TryFoldM α) (hm : ∀ s, (m s).Tame)
    (hk : ∀ s log others, (k (s.on log others)).run (s.on log others) =
      (m s).run (s.on log others)) : (MonadState.get >>= k).Tame :=
  FoldM.Tame.look (k := fun s => (k s).run) (fun s => (m s).run) hm hk

theorem get_bind (hk : ∀ s, (k s).Tame) (hlog : ∀ s log others, k (s.on log others) = k s) :
    (MonadState.get >>= k).Tame :=
  .look k hk fun s log others => by rw [hlog]

theorem throw_bind (e : Error) (k : β → TryFoldM α) :
    ((MonadExcept.throw e : TryFoldM β) >>= k).Tame := FoldM.Tame.pure _

theorem onFreshStack (hm : m.Tame) : (TryFoldM.onFreshStack m).Tame :=
  FoldM.Tame.onFreshStack hm

theorem inVerbatim (hm : m.Tame) : (TryFoldM.inVerbatim m).Tame :=
  FoldM.Tame.inVerbatim hm

end Tame

end TryFoldM

namespace Context

open FoldM

variable (cx : Context) (site : Nat)

theorem atomForm_tame (a : Atom) : (cx.atomForm a).Tame := by
  unfold atomForm
  split
  · split <;> exact .addSingle _
  · exact .addSingle _

theorem popOperand_tame (atoms : List Atom) (consumed : RegisterSet) (effects : Bool)
    (a : Atom) : (cx.popOperand site atoms consumed effects a).Tame := by
  unfold popOperand
  split
  · exact .pure _
  · split
    · exact .pure _
    · refine .bind (.take _) fun found => ?_
      split
      · exact .pure _
      · exact .bind (.describe cx _) fun _ => .bind (.note cx rfl site _) fun _ => .pure _

theorem operandsConsuming_tame (atoms : List Atom) (consumed : RegisterSet) (effects : Bool) :
    (cx.operandsConsuming site atoms consumed effects).Tame := by
  have hpop : (cx.popOperands site atoms consumed effects).Tame := by
    unfold popOperands
    refine .get_bind (fun s => ?_) fun _ _ _ => rfl
    split
    · exact .pure _
    · exact .bind (.mapM (fun a => cx.popOperand_tame site atoms consumed effects a) _)
        fun _ => .pure _
  have hform : ∀ entry, (cx.operandForm entry).Tame := by
    intro entry
    unfold operandForm
    split
    · exact .pure _
    · exact .bind (cx.atomForm_tame _) fun _ => .pure _
  exact .bind hpop fun _ => .mapM hform _

theorem operandsMarked_tame (atoms : List Atom) (effects : Bool) :
    (cx.operandsMarked site atoms effects).Tame :=
  .bind (.consumedNow cx site) fun consumed =>
    cx.operandsConsuming_tame site atoms consumed effects

theorem operands_tame (atoms : List Atom) (effects : Bool) :
    (cx.operands site atoms effects).Tame :=
  .bind (cx.operandsMarked_tame site atoms effects) fun _ => .pure _

theorem castTo_tame (f : FormId) (desired : TypeName) : (cx.castTo site f desired).Tame := by
  unfold castTo
  split
  · exact .pure _
  · refine .bind (.formType cx f) fun type => ?_
    split
    · exact .pure _
    · split
      · exact .pure _
      · exact .bind (.addSingle _) fun _ => .bind (.noteForm _ rfl _ _) fun _ => .pure _

theorem matchOperands_tame (fs : List FormId) : (cx.matchOperands site fs).Tame := by
  unfold matchOperands
  split
  · refine .bind ?_ fun _ => .pure _
    unfold matchSignedness
    refine .bind (.formType cx _) fun first => .bind (.formType cx _) fun second => ?_
    split
    · split
      · exact cx.castTo_tame site _ _
      · exact .pure _
    · exact .pure _
  · exact .pure _

theorem forceInteger_tame (fs : List FormId) (signed : Bool) :
    (cx.forceInteger site fs signed).Tame :=
  .mapM (fun f => cx.castTo_tame site f _) fs

theorem shiftRight_tame (atoms : List Atom) (fs : List FormId) (signed : Bool) :
    (cx.shiftRight site atoms fs signed).Tame := by
  unfold shiftRight
  refine .bind ?_ fun found => ?_
  · unfold foldExtension
    refine .get_bind (fun s => ?_) fun _ _ _ => rfl
    dsimp only
    split
    · exact .pure _
    · exact .bind (.addSingle _) fun _ => .bind (.noteForm _ rfl _ _) fun _ => .pure _
  · split
    · exact .pure _
    · exact .addSingle _

theorem applyOperator_tame (e : Expression) (fs : List FormId) :
    (cx.applyOperator site e fs).Tame := by
  have hmatching : ∀ b, (cx.applyMatching site b fs).Tame := fun b =>
    .bind (cx.matchOperands_tame site fs) fun _ => .addSingle _
  have hbank : ∀ b, (cx.applyBankMove b fs).Tame := by
    intro b
    refine .bind (.formType cx _) fun type => ?_
    split
    · exact .pure _
    · exact .addSingle _
  have hforce : ∀ signed, (cx.forceInteger site fs signed >>=
      FoldM.applyBuiltin .mul : FoldM FormId).Tame := fun signed =>
    .bind (cx.forceInteger_tame site fs signed) fun _ => .addSingle _
  obtain ⟨operator, args⟩ := e
  rw [applyOperator]
  cases operator
  case identity => exact .pure _
  case toFloatRegister | toGeneralRegister => exact hbank _
  case sub | nor =>
    dsimp only
    split
    · exact .addSingle _
    · exact hmatching _
  case add | and | or | xor | lessSigned | lessUnsigned => exact hmatching _
  case mulSigned | mulUnsigned => exact hforce _
  case shiftRightArith | shiftRightLogic => exact cx.shiftRight_tame site _ _ _
  all_goals exact .addSingle _

theorem foldDivision_tame (e : ElementId) (remainder : Bool) :
    (cx.foldDivision site e remainder).Tame := by
  unfold foldDivision
  refine .get_bind (fun s => ?_) fun _ _ _ => rfl
  split
  · refine .bind (cx.forceInteger_tame _ _ _) fun _ => .bind (.onPool fun p => ?_) fun _ =>
      .bind (.noteForm _ rfl _ _) fun _ => .pure _
    exact Nat.le_of_eq ((Pool.size_addForm _ _).trans (p.size_replace e _)).symm
  · exact .onPool fun p => Nat.le_of_eq (p.size_addForm _).symm

theorem foldCopy_tame (a : Atom) : (cx.foldCopy site a).Tame := by
  have hoperand : (cx.operand site a true).Tame :=
    .bind (cx.operands_tame site _ _) fun _ => .pure _
  unfold foldCopy
  split
  · split
    · unfold foldQuotient
      split
      · refine .bind (.take _) fun found => ?_
        split
        · exact cx.foldDivision_tame site _ _
        · exact .bind (.note _ rfl _ _) fun _ => cx.atomForm_tame _
      · exact cx.atomForm_tame _
    · exact hoperand
  · exact hoperand

theorem foldOperator_tame (e : Expression) : (cx.foldOperator site e).Tame := by
  unfold foldOperator
  split
  · exact cx.foldCopy_tame site _
  · refine .bind ?_ fun found => ?_
    · unfold foldConstant
      split
      · exact .bind (cx.atomForm_tame _) fun _ => .bind (.note _ rfl _ _) fun _ => .pure _
      · exact .bind (cx.atomForm_tame _) fun _ => .bind (.noteForm _ rfl _ _) fun _ => .pure _
      · exact .pure _
    · split
      · exact .pure _
      · exact .bind (cx.operands_tame site _ _) fun _ => cx.applyOperator_tame site e _

theorem foldExpression_tame (e : Expression) : (cx.foldExpression site e).Tame := by
  unfold foldExpression
  split
  · exact .bind (.throw _) fun _ => .lift (cx.foldOperator_tame site e)
  · exact .lift (cx.foldOperator_tame site e)

theorem buildCondition_tame (test : Test) (args : List Atom) (flipped effects : Bool) :
    (cx.buildCondition site test args flipped effects).Tame := by
  have hplain : (cx.plainCondition site test args flipped effects).Tame := by
    unfold plainCondition
    refine .bind (cx.operandsMarked_tame site args effects) fun popped => ?_
    refine .bind (.consumedNow cx site) fun consumed => ?_
    dsimp only
    split
    · exact .addSingle _
    · exact .bind (cx.matchOperands_tame site _) fun _ => .addSingle _
  have hflag : (cx.popFloatFlag site test flipped effects).Tame := by
    refine .get_bind (fun s => .bind (.take _) fun found => ?_) fun _ _ _ => rfl
    split
    · refine .bind (.get_bind (fun _ => .pure _) fun _ _ _ => rfl) fun single => ?_
      split
      · exact .bind (.changePool fun p => p.size_replace _ _) fun _ =>
          .bind (.noteForm cx rfl site _) fun _ => .pure _
      · exact .bind (.onStack _) fun _ => .pure _
    · exact .pure _
  unfold buildCondition
  split
  · refine .bind hflag fun found => ?_
    split
    · exact .pure _
    · exact hplain
  · exact hplain

theorem memoryPlace_tame (base : FormId) (offset : Word) (size : Nat) (kind : LoadKind) :
    (cx.memoryPlace site base offset size kind).Tame := by
  have hpath : (cx.fieldPath? base offset size).Tame := by
    unfold fieldPath?
    split
    · exact .pure _
    · exact .bind (.formType cx base) fun _ => .pure _
  refine .bind hpath fun steps => ?_
  split
  · exact .bind (.addSingle _) fun _ => .bind (.noteForm _ rfl _ _) fun _ => .pure _
  · exact .addSingle _

theorem pushLiteral_tame (op : Operation) : (cx.pushLiteral site op).Tame :=
  .bind (.pushNew _) fun _ => .note _ rfl _ _

theorem foldMove_tame (test : Register) (text : String) (element : Element) :
    (cx.foldMove site test text element).Tame := by
  refine .bind (.lift (.consumedNow cx site)) fun consumed => ?_
  split
  · exact .throw_bind _ _
  · exact .bind (.lift (.addSingle _)) fun _ => .bind (.lift (.noteForm _ rfl _ _)) fun _ => .pure _

theorem FoldM.restore_tame (saved : Checkpoint) :
    (do FoldM.restore saved; return none : TryFoldM (Option FormId)).Tame :=
  .bind (.lift (.onStack (·.restore saved))) fun _ => .pure none

theorem foldTruthMove_tame (dst test : Register) (onZero : Bool) :
    (cx.foldTruthMove site dst test onZero).Tame := by
  refine .get_bind (fun s => .bind (.lift (.take _)) fun top => .get_bind (fun s' => ?_) ?_) ?_
  · split
    · exact FoldM.restore_tame _
    · refine .bind (.lift (.take _)) fun compare => .get_bind (fun s'' => ?_) fun _ _ _ => rfl
      split
      · exact cx.foldMove_tame site _ _ _
      · exact FoldM.restore_tame _
  · exact fun _ _ _ => rfl
  · exact fun _ _ _ => rfl

theorem foldMinMax_tame (dst source test : Register) (onZero : Bool) :
    (cx.foldMinMax site dst source test onZero).Tame := by
  refine .get_bind (fun s => .bind (.lift (.take _)) fun compare => .get_bind (fun s' => ?_) ?_) ?_
  · split
    · refine .get_bind (fun s'' => ?_) fun _ _ _ => rfl
      split
      · exact cx.foldMove_tame site _ _ _
      · exact FoldM.restore_tame _
    · exact FoldM.restore_tame _
  · exact fun _ _ _ => rfl
  · exact fun _ _ _ => rfl

theorem pushMove_tame (dst : Variable) (source : Atom) (test : Variable) (onZero : Bool) :
    (cx.pushMove site dst source test onZero).Tame := by
  have hvalue (f : FormId) :=
    TryFoldM.Tame.lift (FoldM.Tame.pushValue dst f (cx.setNotes site dst none))
  have hunpaired := TryFoldM.Tame.bind (.lift (.pushNew (.moveFalse dst test onZero site)))
    fun _ => .lift (.note cx (show EventKind.warning.isBoundary = false from rfl) site
      ("conditional move of #f into " ++ dst.register.name ++ " left unpaired"))
  have hliteral := TryFoldM.Tame.lift
    (cx.pushLiteral_tame site (.conditionalMove dst source test onZero))
  unfold pushMove
  split
  · unfold pushFalseMove
    split
    · refine .bind (cx.foldTruthMove_tame site _ _ _) fun value => ?_
      cases value with
      | some f => exact hvalue f
      | none => exact hunpaired
    · exact hunpaired
  · unfold pushValueMove
    split
    · split
      · refine .bind (cx.foldMinMax_tame site _ _ _ _) fun value => ?_
        cases value with
        | some f => exact hvalue f
        | none => exact hliteral
      · exact hliteral
    · exact hliteral

theorem pushStore_tame (base : Atom) (offset : Word) (value : Atom) (size : Nat)
    (kind : StoreKind) : (cx.pushStore site base offset value size kind).Tame := by
  unfold pushStore
  split
  · exact .bind (.pushNew _) fun _ => .note _ rfl _ _
  · exact .bind (cx.operands_tame site _ _) fun _ =>
      .bind (cx.memoryPlace_tame site _ _ _ _) fun _ => .bind (.pushNew _) fun _ => .pure _

theorem pushCall_tame (callee : Variable) (args : List Variable) (result : Option Variable) :
    (cx.pushCall site callee args result).Tame := by
  refine .bind (cx.operands_tame site _ _) fun forms => ?_
  dsimp only
  split
  · exact .bind (.addSingle _) fun _ => .onStack _
  · exact .bind (.pushNew _) fun _ => .pure _

theorem pushVerbatim_tame (op : Operation) : (pushVerbatim site op).Tame := by
  unfold pushVerbatim
  split
  · exact .bind (.addSingle _) fun _ => .bind (.pushNew _) fun _ => .pure _
  all_goals exact .bind (.pushNew _) fun _ => .pure _

theorem pushFolded_tame (op : Operation) : (cx.pushFolded site op).Tame := by
  cases op with
  | set dst source => exact .bind (cx.foldExpression_tame site _) fun _ => .lift (.pushValue _ _ _)
  | setCondition dst condition =>
    exact .bind (.lift (cx.buildCondition_tame site _ _ _ _)) fun _ => .lift (.pushValue _ _ _)
  | load dst base offset size kind =>
    refine .bind (.lift ?_) fun _ => .lift (.pushValue _ _ _)
    exact .bind (.bind (cx.operands_tame site _ _) fun _ => .pure _) fun _ =>
      cx.memoryPlace_tame site _ _ _ _
  | store base offset value size kind => exact .lift (cx.pushStore_tame site _ _ _ _ _)
  | divide a b signed =>
    exact .lift (.bind (cx.operands_tame site _ _) fun _ => .bind (.addElement _) fun _ =>
      .onStack _)
  | floatCompare test a b =>
    refine .lift ?_
    unfold pushFloatCompare
    split
    · exact .bind (cx.buildCondition_tame site _ _ _ _) fun _ => .onStack _
    · exact cx.pushLiteral_tame site _
  | call callee args result => exact .lift (cx.pushCall_tame site _ _ _)
  | conditionalMove dst source test onZero => exact cx.pushMove_tame site _ _ _ _
  | branch b => exact .bind (.lift (.pushNew _)) fun _ => .lift (.note _ rfl _ _)
  | special kind => exact .lift (cx.pushLiteral_tame site _)
  | asm mnemonic dst sources => exact .lift (cx.pushLiteral_tame site _)

theorem pushOperation_tame (op : Operation) : (cx.pushOperation site op).Tame := by
  unfold pushOperation
  split
  · exact .pure _
  · refine .get_bind (fun s => ?_) fun _ _ _ => rfl
    split
    · exact .lift (pushVerbatim_tame site _)
    · exact cx.pushFolded_tame site _

/-- Folding an instruction advances the state. -/
theorem pushInstruction_tame : (cx.pushInstruction site).Tame := by
  unfold pushInstruction
  split
  · exact cx.pushOperation_tame site _
  · exact .throw _

end Context

end Decompiler
