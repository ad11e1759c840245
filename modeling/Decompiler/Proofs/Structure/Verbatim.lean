import Decompiler.Proofs.Fold.Runs
import Decompiler.Proofs.Machine.Blocks
import Decompiler.Proofs.Structure.Tame
import Decompiler.Proofs.Tree.Growth

/-!
Unreachable code is kept as it is.  In verbatim mode every operation becomes one element, which
is written like the operation itself, and nothing that is added to the pool later changes how it
is written.  So the statements of a form that was built this way are the operations of its
blocks, one for one.
-/

namespace Decompiler

open TryFoldM List

variable {v : Vocabulary} {sexps : List Sexp} {es : List ElementId}

namespace Routine

/-- The operation at a position, unless it does nothing. -/
def effectiveAt? (r : Routine) (site : Nat) : Option Operation :=
  (r.code[site]?.map Instruction.op).filter fun op => !op.isNop

/-- The operations in the blocks of a region, in layout order, without those that do nothing. -/
def operationsIn (r : Routine) (region : Region) : List Operation :=
  region.blockIds.flatMap fun id =>
    ((r.blocks[id]?.map Block.sites).getD []).filterMap r.effectiveAt?

end Routine

namespace Vocabulary

/-- The operations of a region as they are; an empty statement stands for none. -/
def verbatimSexps (v : Vocabulary) (region : Region) : List Sexp :=
  let sexps := (v.routine.operationsIn region).map v.operationSexp
  if sexps.isEmpty then [.call "empty" []] else sexps

/-- An element is written as one s-expression, however much the pool grows. -/
structure Writes (v : Vocabulary) (p : Pool) (e : ElementId) (sexp : Sexp) : Prop where
  lt : e.index < p.elements.size
  render : ∀ {q : Pool} {depth : Nat}, p.Extends q → e.index < depth →
    v.renderWithin q depth e = .plain sexp

variable {p q : Pool} {sexp : Sexp}

theorem Writes.mono {e : ElementId} (h : v.Writes p e sexp) (hq : p.Extends q) :
    v.Writes q e sexp where
  lt := Nat.lt_of_lt_of_le h.lt hq.elements_le
  render hext hdepth := h.render (hq.trans hext) hdepth

/-- The element of an operation is written like the operation that stands at its position. -/
theorem writes_addElement {element : Element}
    (h : ∀ q child, v.elementRendered q child element = .plain sexp) :
    v.Writes (p.addElement element).2 (p.addElement element).1 sexp where
  lt := p.addElement_lt element
  render {q depth} hext hdepth := by
    obtain _ | depth := depth
    · cases hdepth
    · rw [renderWithin, hext.element_eq _ (p.addElement_lt element), p.element_addElement_self]
      exact h _ _

/-- An assignment of an expression is written like the machine operation. -/
theorem writes_set (dst : Variable) (source : Expression) (site : Nat) (ordered : Bool)
    (notes : SetNotes) :
    let value := p.addSingle (.expression source site)
    let added := value.2.addElement (.set dst value.1 ordered notes)
    v.Writes added.2 added.1 (v.operationSexp (.set dst source)) := by
  intro value added
  refine ⟨value.2.addElement_lt _, fun {q depth} hext hdepth => ?_⟩
  have hgrown : value.2.Extends q := (value.2.extends_addElement _).trans hext
  -- The expression was added first, so there is room for it below the assignment.
  obtain _ | _ | depth := depth
  · cases hdepth
  · have hroom : value.2.elements.size < 1 := hdepth
    rw [Pool.size_addSingle] at hroom
    omega
  obtain ⟨e, -, hform, hsource⟩ := hgrown.single
  rw [renderWithin, hext.element_eq _ (value.2.addElement_lt _), value.2.element_addElement_self]
  simp only [elementRendered, value, hform, map_cons, map_nil, renderWithin, hsource]
  rfl

/-- The elements of a form are written as some s-expressions, however much the pool grows. -/
structure WritesForm (v : Vocabulary) (p : Pool) (f : FormId) (sexps : List Sexp) : Prop where
  lt : f.index < p.forms.size
  elements : List.Forall₂ (v.Writes p) (p.elementsOf f) sexps

theorem WritesForm.statements {f : FormId} (h : v.WritesForm p f sexps) (hext : p.Extends q)
    {depth : Nat} (hdepth : p.elements.size ≤ depth) :
    Rendered.formStatements ((q.elementsOf f).map (v.renderWithin q depth)) = sexps := by
  rw [hext.elementsOf_eq f h.lt]
  have helements := h.elements
  clear h
  generalize p.elementsOf f = es at helements
  induction helements with
  | nil => rfl
  | @cons e sexp es sexps he _ ih =>
    rw [map_cons, he.render hext (Nat.lt_of_lt_of_le he.lt hdepth), Rendered.formStatements,
      flatMap_cons]
    exact congrArg (sexp :: ·) ih

/-- A form of elements is written like the elements. -/
theorem writesForm_addForm (h : List.Forall₂ (v.Writes p) es sexps) :
    v.WritesForm (p.addForm es).2 (p.addForm es).1 sexps where
  lt := p.addForm_lt es
  elements := by
    rw [p.elementsOf_addForm_self]
    exact h.imp fun _ _ he => he.mono (p.extends_addForm es)

/-- A form of no elements is written as an empty statement. -/
theorem writesForm_addBody (h : List.Forall₂ (v.Writes p) es sexps) :
    v.WritesForm (p.addBody es).2 (p.addBody es).1
      (if sexps.isEmpty then [.call "empty" []] else sexps) := by
  cases h with
  | nil => exact writesForm_addForm (.cons (writes_addElement fun _ _ => rfl) .nil)
  | cons he hes => exact writesForm_addForm (.cons he hes)

/-- An exit is written as the statement that leaves, and then its unreachable code. -/
theorem statements_exit {dead : FormId} (h : v.WritesForm p dead sexps) (kind : ExitKind)
    (code : FormId) (site : Nat) :
    let added := p.addElement (.exit kind code (some dead) site)
    ∃ args, (v.render added.2 added.1).statements =
      .call (if kind = .returns then "return" else "break") args :: sexps := by
  intro added
  have hdead := h.statements (p.extends_addElement (.exit kind code (some dead) site))
    (Nat.le_refl _)
  rw [render, Pool.size_addElement, renderWithin, p.element_addElement_self]
  dsimp only [elementRendered]
  rw [hdead]
  cases kind <;> exact ⟨_, rfl⟩

end Vocabulary

/-- Only statements wait on the stack, and each of them is written as the s-expression in its
place. -/
structure FoldState.Shows (v : Vocabulary) (s : FoldState) (es : List ElementId)
    (sexps : List Sexp) : Prop where
  stack : s.stack.entries.reverse = es.map fun e => ⟨.statement e true, true⟩
  writes : List.Forall₂ (v.Writes s.pool) es sexps

theorem Stack.rewriteEntries_statements (es : List ElementId) (p : Pool) :
    rewriteEntries (es.map fun e => ⟨.statement e true, true⟩) p = (es, p) := by
  induction es with
  | nil => rfl
  | cons e es ih =>
    rw [map_cons, rewriteEntries, if_pos rfl, rewritePending]
    dsimp only
    rw [ih]

namespace Context

variable {cx : Context} {site : Nat} {s : FoldState} {region : Region}

/-- A new statement goes behind those that are there. -/
theorem pushStatement_shows {s' : FoldState} {e : ElementId} {sexp : Sexp} (hs : s.Shows v es sexps)
    (hstack : s'.stack = s.stack.pushStatement e true) (hext : s.pool.Extends s'.pool)
    (he : v.Writes s'.pool e sexp) :
    s'.Shows v (es ++ [e]) (sexps ++ [sexp]) where
  stack := by
    rw [hstack, Stack.pushStatement, Stack.push, reverse_cons, hs.stack, map_append]
    rfl
  writes := rel_append (hs.writes.imp fun _ _ h => h.mono hext) (.cons he .nil)

/-- In verbatim mode an operation becomes a statement that is written like the operation. -/
theorem pushVerbatim_shows {instr : Instruction} (hs : s.Shows cx.vocabulary es sexps)
    (hcode : cx.routine.code[site]? = some instr) :
    (pushVerbatim site instr.op).Ends s fun _ s' =>
      s'.verbatim = s.verbatim ∧
        ∃ e, s'.Shows cx.vocabulary (es ++ [e])
          (sexps ++ [cx.vocabulary.operationSexp instr.op]) := by
  have hplain : cx.vocabulary.instructionSexp site = cx.vocabulary.operationSexp instr.op := by
    simp only [Vocabulary.instructionSexp, vocabulary, hcode]
  have hkept : ∀ element : Element,
      (∀ q child, cx.vocabulary.elementRendered q child element =
        .plain (cx.vocabulary.instructionSexp site)) →
      (do let _ ← FoldM.pushNew element; pure () : FoldM Unit).Ends s fun _ s' =>
        s'.verbatim = s.verbatim ∧ ∃ e, s'.Shows cx.vocabulary (es ++ [e])
          (sexps ++ [cx.vocabulary.operationSexp instr.op]) := by
    intro element helem
    rw [hplain] at helem
    exact ⟨rfl, _, pushStatement_shows hs rfl (s.pool.extends_addElement element)
      (Vocabulary.writes_addElement helem)⟩
  cases hop : instr.op with
  | set dst source =>
    exact ⟨rfl, _, pushStatement_shows hs rfl
      ((s.pool.extends_addSingle _).trans (Pool.extends_addElement _ _))
      (Vocabulary.writes_set dst source site true {})⟩
  | _ =>
    rw [hop] at hkept
    exact hkept _ fun _ _ => rfl

/-- Instructions that are pushed in verbatim mode are shown one after the other. -/
theorem pushSites_shows (sites : List Nat) (hs : s.Shows cx.vocabulary es sexps)
    (hverbatim : s.verbatim = true) :
    (cx.pushSites sites).Ends s fun _ s' => s'.verbatim = true ∧
      ∃ es', s'.Shows cx.vocabulary es' (sexps ++
        (sites.filterMap cx.routine.effectiveAt?).map cx.vocabulary.operationSexp) := by
  induction sites generalizing s es sexps with
  | nil => exact ends_pure.2 ⟨hverbatim, es, by simpa using hs⟩
  | cons site sites ih =>
    refine ends_bind.2 ?_
    rw [pushInstruction]
    split
    · rename_i instr hinstr
      have hcode := Routine.instruction_eq_ok.1 hinstr
      rw [pushOperation]
      by_cases hnop : instr.op.isNop
      · have hnone : cx.routine.effectiveAt? site = none := by
          simp [Routine.effectiveAt?, hcode, hnop]
        rw [if_pos hnop, filterMap_cons, hnone]
        exact ends_pure.2 (ih hs hverbatim)
      · have hsome : cx.routine.effectiveAt? site = some instr.op := by
          simp [Routine.effectiveAt?, hcode, hnop]
        rw [if_neg hnop, filterMap_cons, hsome, ends_bind, ends_get, if_pos hverbatim, ends_lift]
        refine (pushVerbatim_shows hs hcode).mono ?_
        rintro _ s' ⟨hmode, e, hs'⟩
        refine (ih hs' (hmode.trans hverbatim)).mono ?_
        rintro _ s'' ⟨hmode', es', hs''⟩
        exact ⟨hmode', es', by simpa using hs''⟩
    · exact ends_throw

/-- Blocks that are pushed in verbatim mode are shown one after the other. -/
theorem pushBlocks_shows (ids : List BlockId) (hs : s.Shows cx.vocabulary es sexps)
    (hverbatim : s.verbatim = true) :
    (ids.forM fun id => do
        let block ← TryFoldM.ofExcept (cx.routine.block id)
        cx.pushSites block.sites).Ends s fun _ s' =>
      ∃ es', s'.Shows cx.vocabulary es' (sexps ++
        (ids.flatMap fun id => ((cx.routine.blocks[id]?.map Block.sites).getD []).filterMap
          cx.routine.effectiveAt?).map cx.vocabulary.operationSexp) := by
  induction ids generalizing s es sexps with
  | nil => exact ends_pure.2 ⟨es, by simpa using hs⟩
  | cons id ids ih =>
    refine ends_bind.2 (ends_bind.2 (ends_ofExcept.2 fun block hblock => ?_))
    refine (pushSites_shows _ hs hverbatim).mono ?_
    rintro _ s' ⟨hmode, es', hs'⟩
    refine (ih hs' hmode).mono ?_
    rintro _ s'' ⟨es'', hs''⟩
    exact ⟨es'', by simpa [Routine.block_eq_ok.1 hblock] using hs''⟩

/-- In verbatim mode whatever is there can be pushed. -/
theorem pushInstruction_verbatim {instr : Instruction} {errors : List Error}
    (hcode : cx.routine.code[site]? = some instr) (hmode : s.verbatim = true) :
    (cx.pushInstruction site).FailsWith s errors := by
  unfold pushInstruction pushOperation
  rw [Routine.instruction_eq_ok.2 hcode]
  dsimp only
  split
  · exact failsWith_pure
  · rw [failsWith_bind, ends_get, hmode, if_pos rfl]
    exact ⟨failsWith_get, failsWith_lift⟩

/-- Code that cannot be reached can be built as it is. -/
theorem buildVerbatim_failsWith {errors : List Error} (hvalid : cx.routine.IsValid)
    (hregion : cx.routine.Contains region) : (cx.buildVerbatim region).FailsWith s errors := by
  rw [buildVerbatim, failsWith_onFreshStack, failsWith_bind, failsWith_inVerbatim]
  refine ⟨failsWith_forM (fun id => ?_) fun id hid s' hmode => ?_, fun _ _ => failsWith_lift⟩
  · exact (TryFoldM.Tame.bind (.ofExcept _) fun block => (pushSites_bounded _).tame).advances
  · obtain ⟨block, hblock⟩ := hregion id hid
    rw [Routine.block_eq_ok.2 hblock, ofExcept_bind]
    refine failsWith_forM (fun site => (cx.pushInstruction_tame site).advances)
      fun site hsite s'' hmode' => ?_
    obtain ⟨instr, hcode⟩ := hvalid.exists_instruction hblock (Block.mem_sites.1 hsite).2
    exact pushInstruction_verbatim hcode (hmode'.trans hmode)

/-- Turning statements into a form changes nothing about how they are written. -/
theorem takeForm_writes (hs : s.Shows v es sexps) :
    FoldM.takeForm.Ends s fun f s' => v.WritesForm s'.pool f
      (if sexps.isEmpty then [.call "empty" []] else sexps) := by
  have hrewrite : s.stack.rewrite s.pool = (es, s.pool) := by
    rw [Stack.rewrite, hs.stack, Stack.rewriteEntries_statements]
  have hform := Vocabulary.writesForm_addBody hs.writes
  change v.WritesForm (s.stack.rewriteToForm s.pool).2 (s.stack.rewriteToForm s.pool).1 _
  rw [Stack.rewriteToForm, hrewrite]
  exact hform

theorem buildVerbatim_writes (region : Region) (s : FoldState) :
    (cx.buildVerbatim region).Ends s fun f s' =>
      s'.verbatim = s.verbatim ∧ s'.stack = s.stack ∧
        cx.vocabulary.WritesForm s'.pool f (cx.vocabulary.verbatimSexps region) := by
  have hempty : FoldState.Shows cx.vocabulary { s with stack := .empty, verbatim := true } [] [] :=
    ⟨rfl, .nil⟩
  rw [buildVerbatim, ends_onFreshStack, ends_bind, ends_inVerbatim]
  refine (pushBlocks_shows _ hempty rfl).mono ?_
  rintro _ s' ⟨es, hs⟩
  have hform := takeForm_writes (s := { s' with verbatim := s.verbatim }) ⟨hs.stack, hs.writes⟩
  exact ends_lift.2 ⟨rfl, rfl, hform⟩

/-- Behind the statement that leaves, an exit is written with its unreachable code. -/
theorem pushExit_writes (body : Piece) (region : Region) (depth : Nat) (s : FoldState) :
    (cx.pushExit body (some region) depth).Ends s fun _ s' =>
      ∃ site jump e args, cx.routine.expectBranch body.region false = .ok (site, jump) ∧
        s'.stack = s.stack.pushStatement e true ∧
        (cx.vocabulary.render s'.pool e).statements =
          .call (if some jump.target = cx.routine.epilogue then "return" else "break") args ::
            cx.vocabulary.verbatimSexps region := by
  unfold pushExit
  rw [ends_bind]
  refine ends_ofExcept.2 ?_
  rintro ⟨site, jump⟩ hjump
  dsimp only
  rw [ends_bind, buildExitCode, ends_onFreshStack]
  intro code _
  rw [ends_bind, buildDead, ends_map]
  refine (buildVerbatim_writes region _).mono fun dead s₁ hwritten => ?_
  obtain ⟨-, hstack, hdead⟩ := hwritten
  obtain ⟨args, hwritten⟩ := Vocabulary.statements_exit hdead
    (if some jump.target == cx.routine.epilogue then .returns else .breaks) code site
  rw [ends_lift]
  refine ⟨site, jump, _, args, hjump, congrArg (fun st => Stack.pushStatement st _ true) hstack, ?_⟩
  refine hwritten.trans ?_
  by_cases hreturns : some jump.target = cx.routine.epilogue <;> simp [hreturns]

/-- Unreachable code can be built in every state, and what is built is written as the operations
of its blocks in order, each one as it is.  So is the code behind an exit, after the statement
that leaves. -/
theorem dead_code_kept_verbatim {region : Region} (hvalidate : cx.routine.validate = .ok ())
    (hregion : cx.routine.Contains region) (s : FoldState) :
    (∃ f s', (cx.buildVerbatim region).run s = (.ok f, s') ∧ s'.verbatim = s.verbatim ∧
      s'.stack = s.stack ∧
      cx.vocabulary.formStatements s'.pool f = cx.vocabulary.verbatimSexps region) ∧
    ∀ (body : Piece) (depth : Nat) (s' : FoldState),
      (cx.pushExit body (some region) depth).run s = (.ok (), s') →
        ∃ site jump e args, cx.routine.expectBranch body.region false = .ok (site, jump) ∧
          s'.stack = s.stack.pushStatement e true ∧
          (cx.vocabulary.render s'.pool e).statements =
            .call (if some jump.target = cx.routine.epilogue then "return" else "break") args ::
              cx.vocabulary.verbatimSexps region := by
  have hvalid := Routine.isValid_of_validate hvalidate
  obtain ⟨f, s', hrun⟩ := (buildVerbatim_failsWith hvalid hregion).exists_run
  obtain ⟨hmode, hstack, hform⟩ := (buildVerbatim_writes region s).of_run hrun
  refine ⟨⟨f, s', hrun, hmode, hstack, ?_⟩, fun body depth s' hexit => ?_⟩
  · exact hform.statements (.refl s'.pool) (Nat.le_refl _)
  · exact (pushExit_writes body region depth s).of_run hexit

/-- A routine that returns before a branch with a delay slot, next to an instruction that does
nothing, and a store. -/
def returningEarly : Context := untyped
  { name := "returns-early"
    code := #[⟨.set (.write .v0 0) ⟨.identity, [.int 1]⟩, ∅⟩,
      ⟨.branch ⟨⟨.always, []⟩, false, 3, none⟩, ∅⟩,
      ⟨.special .nop, ∅⟩,
      ⟨.branch ⟨⟨.lessZero, [.var (.read ⟨4⟩ 3)]⟩, true, 2,
        some (.set (.write ⟨4⟩ 3) ⟨.neg, [.var (.read ⟨4⟩ 3)]⟩)⟩, ∅⟩,
      ⟨.store (.var (.read ⟨4⟩ 4)) 8 (.var (.read ⟨5⟩ 4)) 4 .integer, ∅⟩]
    blocks := #[⟨0, 0, 2, [3]⟩, ⟨1, 2, 4, [2]⟩, ⟨2, 4, 5, [3]⟩, ⟨3, 5, 5, []⟩]
    labels := []
    epilogue := some 3
    resultRegister := .v0 }

theorem returningEarly_verbatim :
    let dead : Region := .sequence [.block 1, .block 2]
    let s : FoldState := { FoldState.start .empty with stack := Stack.empty.pushStatement ⟨0⟩ true }
    returningEarly.routine.validate = .ok () ∧ returningEarly.routine.Contains dead ∧
      returningEarly.routine.operationsIn dead =
        [.branch ⟨⟨.lessZero, [.var (.read ⟨4⟩ 3)]⟩, true, 2,
          some (.set (.write ⟨4⟩ 3) ⟨.neg, [.var (.read ⟨4⟩ 3)]⟩)⟩,
          .store (.var (.read ⟨4⟩ 4)) 8 (.var (.read ⟨5⟩ 4)) 4 .integer] ∧
      (∃ f s', (returningEarly.buildVerbatim dead).run s = (.ok f, s') ∧ s'.verbatim = false ∧
        s'.stack = s.stack ∧ returningEarly.vocabulary.formStatements s'.pool f =
          returningEarly.vocabulary.verbatimSexps dead) ∧
      ∃ s' e args, (returningEarly.pushExit (returningEarly.piece (.block 0)) (some dead) 0).run s =
          (.ok (), s') ∧
        s'.stack = s.stack.pushStatement e true ∧
        (returningEarly.vocabulary.render s'.pool e).statements =
          .call "return" args :: returningEarly.vocabulary.verbatimSexps dead := by
  intro dead s
  have hvalidate : returningEarly.routine.validate = .ok () := rfl
  have hdead : returningEarly.routine.Contains dead := by
    intro id hid
    have hids : id = 1 ∨ id = 2 := by simpa [dead] using hid
    rcases hids with rfl | rfl <;> exact ⟨_, rfl⟩
  obtain ⟨hbuilt, hexit⟩ := dead_code_kept_verbatim hvalidate hdead s
  refine ⟨hvalidate, hdead, rfl, hbuilt, ?_⟩
  have hjump : returningEarly.routine.expectBranch (returningEarly.piece (.block 0)).region false =
      .ok (1, ⟨⟨.always, []⟩, false, 3, none⟩) := rfl
  have hok : ((returningEarly.pushExit (returningEarly.piece (.block 0)) (some dead) 0).run s).1 =
      .ok () := by decide +kernel
  generalize hrun : (returningEarly.pushExit (returningEarly.piece (.block 0)) (some dead) 0).run s =
    outcome at hok
  obtain ⟨result, s'⟩ := outcome
  cases hok
  obtain ⟨site, jump, e, args, hfound, hstack, hwritten⟩ := hexit _ _ _ hrun
  rw [hjump] at hfound
  cases hfound
  exact ⟨s', e, args, rfl, hstack, hwritten⟩

end Context

end Decompiler
