import Decompiler.Proofs.Fold.Rollback
import Decompiler.Proofs.Structure.Shallow

/-!
Building a region is tame, as folding an instruction is.  It fails for the depth of the region
only where there is too little room: a region is folded at depths of its own, and a loop folds
its body two levels further down.
-/

namespace Decompiler

open List Region

namespace Pool

variable (p : Pool)

theorem size_setElements (f : FormId) (es : List ElementId) :
    (p.setElements f es).elements.size = p.elements.size :=
  size_foldl_adoptElement f es p.elements

theorem size_addBody (es : List ElementId) : p.elements.size ≤ (p.addBody es).2.elements.size := by
  unfold addBody
  split
  · rw [addEmpty, size_addSingle]
    exact Nat.le_succ _
  · rw [size_addForm]

theorem size_foldl_spliceTrailing (fs : List FormId) :
    (fs.foldl spliceTrailing p).elements.size = p.elements.size := by
  induction fs generalizing p with
  | nil => rfl
  | cons f fs ih =>
    rw [foldl_cons, ih, spliceTrailing]
    split
    · exact p.size_setElements f _
    · rfl

end Pool

theorem Stack.size_rewriteEntries (entries : List Entry) (p : Pool) :
    p.elements.size ≤ (rewriteEntries entries p).2.elements.size := by
  have hpending : ∀ (q : Pending) (p : Pool),
      p.elements.size ≤ (rewritePending p q).2.elements.size := by
    intro q p
    unfold rewritePending
    split
    · rw [Pool.size_addElement]
      exact Nat.le_succ _
    all_goals exact Nat.le_refl _
  induction entries generalizing p with
  | nil => exact Nat.le_refl _
  | cons entry entries ih =>
    unfold rewriteEntries
    split
    · exact (hpending entry.pending p).trans (ih _)
    · exact ih p

namespace FoldM.Tame

/-- The whole stack is turned into something of the tree. -/
theorem takeAll {α : Type} {f : Stack → Pool → α × Pool}
    (hf : ∀ stack p, p.elements.size ≤ (f stack p).2.elements.size) :
    FoldM.Tame fun s => ((f s.stack s.pool).1,
      { s with pool := (f s.stack s.pool).2, stack := .empty }) := by
  have htake : FoldM.Tame (do
      let s ← get
      let a ← FoldM.onPool (f s.stack)
      FoldM.onStack fun _ => .empty
      return a) :=
    .get_bind (fun s => .bind (.onPool (hf s.stack)) fun _ => .bind (.onStack _) fun _ => .pure _)
      fun _ _ _ => rfl
  exact htake

theorem takeStatements : FoldM.takeStatements.Tame :=
  takeAll fun stack p => Stack.size_rewriteEntries stack.entries.reverse p

theorem takeForm : FoldM.takeForm.Tame :=
  takeAll (f := Stack.rewriteToForm) fun stack p =>
    (Stack.size_rewriteEntries stack.entries.reverse p).trans (Pool.size_addBody _ _)

end FoldM.Tame

/-- However a piece is folded, no lower than at some depth, the step is bounded. -/
structure Piece.Bounded (deep : Prop) (lowest : Nat) (piece : Piece) : Prop where
  push : ∀ depth ≤ lowest, (piece.push depth).Bounded deep
  pushBody : ∀ depth ≤ lowest, (piece.pushBody depth).Bounded deep

namespace Context

open TryFoldM (Bounded)

variable {cx : Context} {deep : Prop} {depth lowest : Nat} {pieces : List Piece} {piece : Piece}

theorem pushOperation_bounded (site : Nat) (op : Operation) :
    (cx.pushOperation site op).Bounded False := by
  refine ⟨cx.pushOperation_tame site op, fun _ s e he => ?_⟩
  rcases hrun : (cx.pushOperation site op).run s with ⟨result, s'⟩
  rw [hrun] at he
  cases he
  cases pushOperation_fails hrun with
  | early htag => rcases htag with htag | htag <;> simp [htag]
  | late htag _ _ => simp [htag]

theorem pushInstruction_bounded (site : Nat) : (cx.pushInstruction site).Bounded False := by
  unfold pushInstruction
  split
  · exact pushOperation_bounded site _
  · rename_i e he
    exact .throw (beq_false_of_ne (cx.routine.instruction_shallow site e he))

theorem pushSites_bounded (sites : List Nat) : (cx.pushSites sites).Bounded False :=
  .forM sites pushInstruction_bounded

theorem pushDelay_bounded (site : Nat) (branch : Branch) :
    (cx.pushDelay site branch).Bounded False := by
  unfold pushDelay
  split
  · exact pushOperation_bounded site _
  · exact .pure _

theorem pushBlockBody_bounded (id : BlockId) : (cx.pushBlockBody id).Bounded False :=
  .bind (.ofExcept (cx.routine.block_shallow id)) fun _ =>
    .bind (.ofExcept (cx.routine.terminator_shallow id)) fun _ =>
      .bind (pushSites_bounded _) fun _ => .pure _

theorem pushBlock_bounded (id : BlockId) : (cx.pushBlock id).Bounded False := by
  refine .bind (pushBlockBody_bounded id) fun terminator => ?_
  split
  · exact .pure _
  · split
    · exact pushDelay_bounded _ _
    · exact pushInstruction_bounded _

theorem pushIdiom_tame (site : Nat) (dst : Variable) (element : Element) :
    (cx.pushIdiom site dst element).Tame :=
  .bind (.addSingle element) fun _ => .bind (.noteForm _ rfl _ _) fun _ => .pushValue _ _ _

theorem applyAbs_bounded (id : BlockId) (shape : AbsShape) : (cx.applyAbs id shape).Bounded False :=
  .bind (pushBlockBody_bounded id) fun _ =>
    .bind (.lift (cx.operandsMarked_tame _ _ _)) fun _ =>
      .bind (.lift (.consumedNow cx _)) fun _ => .lift (pushIdiom_tame _ _ _)

theorem applyAsh_bounded (id : BlockId) (shape : AshShape) :
    (cx.applyAsh id shape).Bounded False := by
  refine .bind (.lift (.consumedNow cx _)) fun consumed => ?_
  dsimp only
  split
  · exact .throw_bind rfl _
  · refine .bind (pushBlockBody_bounded id) fun _ => ?_
    refine .bind (.lift (.consumedNow cx _)) fun _ => .bind (.lift (.consumedNow cx _)) fun _ => ?_
    exact .bind (.lift (cx.operandsConsuming_tame _ _ _ _)) fun _ =>
      .lift (pushIdiom_tame _ _ _)

theorem applyTypeOf_bounded (id : BlockId) (shape : TypeOfShape) :
    (cx.applyTypeOf id shape).Bounded False := by
  refine .bind (.lift (.consumedNow cx _)) fun consumed => ?_
  dsimp only
  split
  · exact .throw_bind rfl _
  · refine .bind (.ofExcept (cx.routine.block_shallow id)) fun _ =>
      .bind (pushSites_bounded _) fun _ => ?_
    exact .bind (.lift (.bind (cx.operands_tame _ _ _) fun _ => .pure _)) fun _ =>
      .lift (pushIdiom_tame _ _ _)

theorem tryIdiomsAt_bounded (id : BlockId) (available : Nat) :
    (cx.tryIdiomsAt id available).Bounded False := by
  have hallowed : ∀ {α : Type} idiom {found : Except Error (Option α)}, Shallow found →
      (cx.whenAllowed idiom found).Bounded False := by
    intro α idiom found hfound
    unfold whenAllowed
    split
    · exact .ofExcept hfound
    · exact .pure _
  unfold tryIdiomsAt
  extract_lets tryAbs tryAsh
  have habs : ∀ u, (tryAbs u).Bounded False := by
    intro u
    refine .bind (hallowed _ (cx.routine.matchAbs_shallow id)) fun shape => ?_
    split
    · exact .bind (applyAbs_bounded _ _) fun _ => .pure _
    · exact .pure _
  have hash : ∀ u, (tryAsh u).Bounded False := by
    intro u
    unfold tryAsh
    split
    · refine .bind (hallowed _ (cx.routine.matchAsh_shallow id)) fun shape => ?_
      split
      · exact .bind (applyAsh_bounded _ _) fun _ => .pure _
      · exact habs ()
    · exact habs ()
  split
  · refine .bind (hallowed _ (cx.routine.matchTypeOf_shallow id)) fun shape => ?_
    split
    · exact .bind (applyTypeOf_bounded _ _) fun _ => .pure _
    · exact hash ()
  · exact hash ()

theorem tryIdioms_bounded (window : List Region) : (cx.tryIdioms window).Bounded False := by
  unfold tryIdioms
  dsimp only
  split
  · exact .pure _
  · split
    · exact tryIdiomsAt_bounded _ _
    · exact .pure _

theorem pushPieces_bounded (h : ∀ piece ∈ pieces, piece.Bounded deep lowest)
    (hdepth : depth < lowest) (skip : Nat) : (cx.pushPieces depth skip pieces).Bounded deep := by
  induction pieces generalizing skip with
  | nil =>
    rw [pushPieces]
    exact .pure _
  | cons piece rest ih =>
    have hrest := ih fun piece hpiece => h piece (mem_cons_of_mem _ hpiece)
    cases skip with
    | succ skip => exact hrest skip
    | zero =>
      rw [pushPieces]
      refine .bind (tryIdioms_bounded _).mono fun used => ?_
      split
      · exact hrest _
      · split
        · exact .bind (pushBlock_bounded _).mono fun _ => hrest 0
        · exact .bind ((h piece mem_cons_self).push _ hdepth) fun _ => hrest 0

theorem buildPieces_bounded (h : ∀ piece ∈ pieces, piece.Bounded deep lowest)
    (hdepth : depth < lowest) : (cx.buildPieces pieces depth).Bounded deep :=
  .onFreshStack (.bind (pushPieces_bounded h hdepth 0) fun _ => .lift .takeForm)

theorem buildPiece_bounded (h : piece.Bounded deep lowest) (hdepth : depth ≤ lowest) :
    (buildPiece piece depth).Bounded deep :=
  .onFreshStack (.bind (h.push depth hdepth) fun _ => .lift .takeForm)

theorem pushThroughDelay_bounded (h : piece.Bounded deep lowest) (hdepth : depth ≤ lowest)
    (site : Nat) (branch : Branch) : (cx.pushThroughDelay piece site branch depth).Bounded deep :=
  .bind (h.pushBody depth hdepth) fun _ => (pushDelay_bounded site branch).mono

theorem pushTestDelay_bounded (region : Region) (site : Nat) (branch : Branch) :
    (cx.pushTestDelay region site branch).Bounded False := by
  unfold pushTestDelay
  split
  · exact .pure _
  · dsimp only
    split
    · exact .throw_bind rfl _
    · split
      · exact .throw_bind rfl _
      · exact pushOperation_bounded site _

theorem capturedCondition_tame (site : Nat) (branch : Branch) (flipped : Bool)
    (result : Option Register) : (cx.capturedCondition site branch flipped result).Tame := by
  unfold capturedCondition
  dsimp only
  split
  · split
    · refine .bind (.take _) fun found => ?_
      split
      · exact .addSingle _
      · exact .bind (cx.atomForm_tame _) fun _ => .addSingle _
    · exact cx.buildCondition_tame site _ _ _ _
  · exact cx.buildCondition_tame site _ _ _ _

theorem finishTest_tame (site : Nat) (branch : Branch) (flipped : Bool) (result : Option Register) :
    (cx.finishTest site branch flipped result).Tame := by
  refine .bind (capturedCondition_tame _ _ _ _) fun form => .bind .takeStatements fun statements => ?_
  refine .bind (.changePool fun p => p.size_setElements _ _) fun _ => ?_
  split
  · exact .bind (.describe cx _) fun _ => .bind (.note _ rfl _ _) fun _ => .pure _
  · exact .pure _

theorem captureTest_bounded (h : piece.Bounded deep lowest) (hdepth : depth < lowest)
    (flipped emit : Bool) (result : Option Register) :
    (cx.captureTest piece flipped emit result depth).Bounded deep := by
  refine .bind (.ofExcept (cx.routine.expectBranch_shallow _ _)) fun entry =>
    .onFreshStack (.bind (h.pushBody _ hdepth) fun _ => ?_)
  have hfinish : (liftM (cx.finishTest entry.1 entry.2 flipped result) :
      TryFoldM CapturedTest).Bounded deep := .lift (finishTest_tame _ _ _ _)
  dsimp only
  split
  · exact .bind (pushTestDelay_bounded _ _ _).mono fun _ => hfinish
  · exact hfinish

theorem pushControl_tame (site : Nat) (element : Element) : (cx.pushControl site element).Tame :=
  .bind (.pushNew element) fun _ => .get_bind (fun _ => .note _ rfl _ _) fun _ _ _ => rfl

theorem pushControlValue_tame (site : Nat) (dst : Variable) (element : Element) :
    (cx.pushControlValue site dst element).Tame := by
  refine .bind (.addSingle element) fun f => .get_bind (fun s => ?_) fun _ _ _ => rfl
  split
  · exact .bind (.get_bind (fun _ => .note _ rfl _ _) fun _ _ _ => rfl) fun _ => .pushValue _ _ _
  · exact .pushValue _ _ _

/-- The body of a loop is pushed two levels below the loop. -/
theorem pushLoop_bounded (h : ∀ piece ∈ pieces, piece.Bounded deep lowest)
    (hdepth : depth + 1 < lowest) : (cx.pushLoop pieces depth).Bounded deep := by
  have htest : depth < lowest := Nat.lt_of_succ_lt hdepth
  cases pieces with
  | nil => exact .throw rfl
  | cons first rest =>
    have hfirst := h first mem_cons_self
    have hlast := h (rest.getLastD first) getLastD_mem_cons
    have hmore : ∀ piece ∈ rest.dropLast, piece.Bounded deep lowest := fun piece hpiece =>
      h piece (mem_cons_of_mem _ ((dropLast_sublist _).subset hpiece))
    refine .bind (.ofExcept (cx.routine.loopLayout_shallow _ _ _)) fun layout => ?_
    split
    · refine .bind (pushThroughDelay_bounded hfirst htest _ _) fun _ => ?_
      refine .bind (buildPieces_bounded hmore hdepth) fun _ => ?_
      exact .bind (captureTest_bounded hlast htest _ _ _) fun _ => .lift (pushControl_tame _ _)
    · refine .bind (buildPieces_bounded (fun piece hpiece =>
        h piece ((dropLast_sublist _).subset hpiece)) hdepth) fun _ => ?_
      exact .bind (captureTest_bounded hlast htest _ _ _) fun _ => .lift (pushControl_tame _ _)
    · refine .bind (captureTest_bounded hfirst htest _ _ _) fun _ => ?_
      refine .bind (.onFreshStack (.bind (pushPieces_bounded hmore hdepth 0) fun _ => ?_)) fun _ =>
        .lift (pushControl_tame _ _)
      exact .bind (pushThroughDelay_bounded hlast htest _ _) fun _ => .lift .takeForm

variable {body : Piece}

theorem buildArm_bounded (h : body.Bounded deep lowest) (hdepth : depth < lowest) (finish : BlockId)
    (required : Bool) : (cx.buildArm body finish required depth).Bounded deep := by
  refine .bind (.ofExcept (cx.routine.armJump_shallow _ _ _)) fun jump => ?_
  split
  · exact buildPiece_bounded h hdepth
  · exact .onFreshStack (.bind (pushThroughDelay_bounded h hdepth _ _) fun _ => .lift .takeForm)

theorem buildArms_bounded {bodies : List Piece} (h : ∀ piece ∈ bodies, piece.Bounded deep lowest)
    (hdepth : depth < lowest) (finish : BlockId) (alt : Bool) :
    (cx.buildArms finish alt depth bodies).Bounded deep := by
  induction bodies with
  | nil => exact .pure _
  | cons body rest ih =>
    exact .bind (buildArm_bounded (h body mem_cons_self) hdepth _ _) fun _ =>
      .bind (ih fun piece hpiece => h piece (mem_cons_of_mem _ hpiece)) fun _ => .pure _

theorem pushConditional_bounded {arms : List (Piece × Piece)} {alt : Option Piece}
    (harms : ∀ arm ∈ arms, arm.1.Bounded deep lowest ∧ arm.2.Bounded deep lowest)
    (hother : ∀ piece ∈ alt, piece.Bounded deep lowest) (hdepth : depth < lowest) :
    (cx.pushConditional arms alt depth).Bounded deep := by
  have hbodies : ∀ piece ∈ arms.map Prod.snd, piece.Bounded deep lowest := by
    intro piece hpiece
    obtain ⟨arm, harm, rfl⟩ := mem_map.1 hpiece
    exact (harms arm harm).2
  unfold pushConditional
  split
  · exact .throw rfl
  · dsimp only
    split
    · exact .throw rfl
    · refine .bind (.ofExcept (cx.routine.skippingBranches_shallow _ _)) fun branches =>
        .bind (buildArms_bounded hbodies hdepth _ _) fun _ => .bind ?_ fun other => ?_
      · cases alt with
        | none => exact .pure _
        | some piece => exact .bind (buildPiece_bounded (hother piece rfl) hdepth) fun _ => .pure _
      · refine .get_bind (fun s => .bind (.mapM fun arm harm => ?_) fun tests => ?_) fun _ _ _ => rfl
        · exact captureTest_bounded (harms arm harm).1 hdepth _ _ _
        · extract_lets site element push
          have hpush : (push ()).Bounded deep := by
            unfold push
            split
            · exact .lift (pushControlValue_tame _ _ _)
            · exact .lift (pushControl_tame _ _)
          split
          · exact .bind (.lift (.changePool fun p => p.size_foldl_spliceTrailing _)) fun _ => hpush
          · exact hpush

theorem pushChain_bounded (h : ∀ piece ∈ pieces, piece.Bounded deep lowest)
    (hdepth : depth < lowest) : (cx.pushChain pieces depth).Bounded deep := by
  unfold pushChain
  split
  · exact .throw rfl
  · rename_i last hlast
    refine .bind (.ofExcept (cx.routine.chainPlan_shallow _ _)) fun plan =>
      .bind (.mapM fun entry hentry => ?_) fun built => ?_
    · have hpiece := (dropLast_sublist _).subset (of_mem_zip hentry).1
      exact .bind (captureTest_bounded (h _ hpiece) hdepth _ _ _) fun _ => .pure _
    · refine .bind (buildPiece_bounded (h last (mem_of_getLast? hlast)) hdepth) fun tail => ?_
      refine .bind ?_ fun final => ?_
      · unfold chainFinal
        split
        · refine .map (.get_bind (fun s => ?_) fun _ _ _ => rfl) _
          split
          · exact .bind (.lift (.changePool fun p => p.size_foldl_spliceTrailing [tail])) fun _ =>
              .pure _
          · exact .bind (.ofExcept (cx.routine.block_shallow _)) fun _ => .throw rfl
        · exact .pure _
      · dsimp only
        split
        · exact .lift (pushControlValue_tame _ _ _)
        · exact .lift (pushControl_tame _ _)

theorem castResult_tame (site : Nat) (f : FormId) : (cx.castResult site f).Tame := by
  unfold castResult
  split
  · exact cx.castTo_tame site f _
  · exact .pure _

theorem popResult_tame (site : Nat) : (cx.popResult site).Tame := by
  refine .bind (.take _) fun found => ?_
  split
  · exact .pure _
  · exact .bind (castResult_tame site _) fun _ => .pure _

theorem pushExit_bounded (h : body.Bounded deep lowest) (hdepth : depth < lowest)
    (dead : Option Region) : (cx.pushExit body dead depth).Bounded deep := by
  refine .bind (.ofExcept (cx.routine.expectBranch_shallow _ _)) fun entry =>
    .bind (.onFreshStack ?_) fun code => ?_
  · refine .bind (pushThroughDelay_bounded h hdepth _ _) fun _ => ?_
    extract_lets finish
    have hfinish : ∀ value, (finish value).Bounded deep := fun value =>
      .bind (.lift .takeStatements) fun _ => .get_bind (fun _ =>
        .lift (.onPool fun p => p.size_addBody _)) fun _ _ _ => rfl
    split
    · exact .bind (.lift (popResult_tame _)) hfinish
    · exact .bind (.pure _) hfinish
  · refine .bind ?_ fun _ => .lift (pushControl_tame _ _)
    cases dead with
    | none => exact .pure _
    | some region =>
      refine .map (.onFreshStack (.bind (.inVerbatim (.forM _ fun id => ?_)) fun _ =>
        .lift .takeForm)) _
      exact .bind (.ofExcept (cx.routine.block_shallow id)) fun _ => (pushSites_bounded _).mono

theorem limitDepth_bounded {step : TryFoldM Unit} (h : step.Bounded deep)
    (hdepth : deep ∨ depth ≤ cx.config.maxDepth) : (cx.limitDepth depth step).Bounded deep := by
  unfold limitDepth
  split
  · rename_i hlimit
    refine ⟨.throw _, fun hdeep => ?_⟩
    exact absurd (hdepth.resolve_left hdeep) (Nat.not_le.2 hlimit)
  · exact h

theorem controlPiece_bounded (region : Region) {step : Nat → TryFoldM Unit}
    (h : ∀ depth ≤ lowest, (step depth).Bounded deep) (hlimit : deep ∨ lowest ≤ cx.config.maxDepth) :
    (cx.controlPiece region step).Bounded deep lowest := by
  have hlimited : ∀ depth ≤ lowest, (cx.limitDepth depth (step depth)).Bounded deep :=
    fun depth hdepth => limitDepth_bounded (h depth hdepth) (hlimit.imp_right hdepth.trans)
  exact ⟨hlimited, fun depth hdepth => .bind (hlimited depth hdepth) fun _ => .pure _⟩

theorem blockPiece_bounded (id : BlockId) (hlimit : deep ∨ lowest ≤ cx.config.maxDepth) :
    (cx.blockPiece id).Bounded deep lowest where
  push depth hdepth := by
    refine limitDepth_bounded (.bind (tryIdioms_bounded _).mono fun used => ?_)
      (hlimit.imp_right hdepth.trans)
    split
    · exact (pushBlock_bounded id).mono
    · exact .pure _
  pushBody _ _ := (pushBlockBody_bounded id).mono

theorem sequencePiece_bounded (h : ∀ piece ∈ pieces, piece.Bounded deep (lowest + 1))
    (hlimit : deep ∨ lowest ≤ cx.config.maxDepth) :
    (cx.sequencePiece pieces).Bounded deep lowest where
  push depth hdepth := limitDepth_bounded (pushPieces_bounded h (Nat.lt_succ_of_le hdepth) 0)
    (hlimit.imp_right hdepth.trans)
  pushBody depth hdepth := by
    dsimp only [sequencePiece]
    split
    · exact .pure _
    · rename_i last hlast
      refine .bind (pushPieces_bounded (fun piece hpiece =>
        h piece ((dropLast_sublist _).subset hpiece)) (Nat.lt_succ_of_le hdepth) 0) fun _ => ?_
      exact (h last (mem_of_getLast? hlast)).pushBody _ (Nat.succ_le_succ hdepth)

/-- A region is folded within the limit if the limit has room for its levels and for one more
for each loop around another part. -/
theorem piece_bounded (region : Region)
    (h : deep ∨ lowest + (region.depth + region.loopNesting) ≤ cx.config.maxDepth + 1) :
    (cx.piece region).Bounded deep lowest := by
  induction region using induct_children generalizing lowest with
  | h region ih =>
    have hdepth : 0 < region.depth := by
      rw [region.depth_eq, Region.above]
      omega
    have hlimit : deep ∨ lowest ≤ cx.config.maxDepth := h.imp_right fun h => by omega
    have hreached : (∀ body dead, region ≠ .exit body dead) → ∀ part ∈ region.children,
        (cx.piece part).Bounded deep (lowest + 1) := by
      intro hexit part hpart
      have hless := depth_lt_of_mem hpart
      have hnested := loopNesting_le_of_mem hpart hexit
      exact ih part hpart (h.imp_right fun h => by omega)
    have hitems : ∀ {items lowest}, (∀ item ∈ items, (cx.piece item).Bounded deep lowest) →
        ∀ piece ∈ Region.foldItems cx.pieceRules items, piece.Bounded deep lowest := by
      intro items lowest hitems piece hpiece
      rw [foldItems_eq_map] at hpiece
      obtain ⟨item, hitem, rfl⟩ := mem_map.1 hpiece
      exact hitems item hitem
    cases region with
    | block id => exact blockPiece_bounded id hlimit
    | sequence items => exact sequencePiece_bounded (hitems (hreached (by simp))) hlimit
    | loop items =>
      -- The nesting of the loop itself pays for the second level.
      have hparts : ∀ piece ∈ Region.foldItems cx.pieceRules items,
          piece.Bounded deep (lowest + 2) := by
        refine hitems fun item hitem => ?_
        have hinside : item ∈ (Region.loop items).children := hitem
        have hless := depth_lt_of_mem hinside
        have hinner := loopNesting_lt_of_mem hitem
        exact ih item hinside (h.imp_right fun h => by omega)
      exact controlPiece_bounded _ (fun depth hdepth => pushLoop_bounded hparts (by omega)) hlimit
    | conditional arms alt =>
      have hpart := hreached (by simp)
      have harms : ∀ arm ∈ Region.foldArms cx.pieceRules arms,
          arm.1.Bounded deep (lowest + 1) ∧ arm.2.Bounded deep (lowest + 1) := by
        intro pieces hpieces
        rw [foldArms_eq_map] at hpieces
        obtain ⟨arm, harm, rfl⟩ := mem_map.1 hpieces
        have hparts : ∀ part ∈ [arm.test, arm.body], (cx.piece part).Bounded deep (lowest + 1) :=
          fun part hmem =>
            hpart part (mem_append_left _ (mem_flatMap.2 ⟨arm, harm, hmem⟩))
        exact ⟨hparts _ mem_cons_self, hparts _ (mem_cons_of_mem _ mem_cons_self)⟩
      have hother : ∀ piece ∈ Region.foldOption cx.pieceRules alt,
          piece.Bounded deep (lowest + 1) := by
        intro piece hpiece
        rw [foldOption_eq_map] at hpiece
        obtain ⟨other, hother, rfl⟩ := Option.mem_map.1 hpiece
        exact hpart other (mem_append_right _ (Option.mem_toList.2 hother))
      exact controlPiece_bounded _ (fun depth hdepth =>
        pushConditional_bounded harms hother (Nat.lt_succ_of_le hdepth)) hlimit
    | chain items =>
      exact controlPiece_bounded _ (fun depth hdepth =>
        pushChain_bounded (hitems (hreached (by simp))) (Nat.lt_succ_of_le hdepth)) hlimit
    | exit body dead =>
      have hless : body.depth < (Region.exit body dead).depth := depth_lt_of_mem mem_cons_self
      have hnesting : (Region.exit body dead).loopNesting = body.loopNesting := rfl
      have hbody : (cx.piece body).Bounded deep (lowest + 1) :=
        ih body mem_cons_self (h.imp_right fun h => by omega)
      exact controlPiece_bounded _ (fun depth hdepth =>
        pushExit_bounded hbody (Nat.lt_succ_of_le hdepth) _) hlimit

/-- However a region is folded, the step is tame. -/
theorem piece_tame (region : Region) (lowest : Nat) : (cx.piece region).Bounded True lowest :=
  piece_bounded region (.inl trivial)

theorem stripResult_tame (root : FormId) : (cx.stripResult root).Tame := by
  refine .get_bind (fun s => ?_) fun _ _ _ => rfl
  dsimp only
  split
  · split
    · exact .bind (castResult_tame _ _) fun _ => .changePool fun p => p.size_setElements root _
    · exact .pure _
  · exact .pure _

/-- A reconstruction is tame, whether it succeeds or fails. -/
theorem reconstruct_tame (region : Region) : (cx.reconstruct region).Tame := by
  have hfinish : ∀ root, TryFoldM.Tame (do
      let pool := (← get).pool
      TryFoldM.ofExcept (pool.checkLinks root)
      return { pool, root : Reconstruction }) := fun root =>
    .get_bind (fun _ => .bind (.ofExcept _) fun _ => .pure _) fun _ _ _ => rfl
  refine .bind (.ofExcept _) fun _ => .bind (.ofExcept _) fun _ => ?_
  refine .bind (buildPiece_bounded (piece_tame region _) (Nat.le_refl _)).tame fun root => ?_
  dsimp only
  split
  · exact .bind (.lift (stripResult_tame root)) fun _ => hfinish root
  · exact hfinish root

end Context

/-- Events that tell of one reconstruction: its start, what happens on the way, and how it
ended. -/
def Bracketed (name : String) (outcome : Except Error Reconstruction) (events : List Event) : Prop :=
  ∃ first inner last, events = first :: (inner ++ [last]) ∧
    first.kind = .started ∧ first.routine = some name ∧
    (∀ e ∈ inner, e.kind.isBoundary = false) ∧
    last.kind = (if outcome.isOk then .completed else .failed) ∧ last.routine = some name

/-- What is logged at the end of a run depends on its result only. -/
theorem exists_conclude (routine : Routine) (result : Except Error Reconstruction)
    (s : FoldState) :
    ∃ outcome last, (∀ log others, conclude routine others (result, s.on log others) =
        (outcome, (log.after others).push last)) ∧
      last.kind = (if outcome.isOk then .completed else .failed) ∧
      last.routine = some routine.name := by
  cases result with
  | ok tree => exact ⟨_, ⟨.completed, _, none, _⟩, fun _ _ => rfl, rfl, rfl⟩
  | error e => exact ⟨_, ⟨.failed, _, _, _⟩, fun _ _ => rfl, rfl, rfl⟩

/-- A reconstruction comes to the same and logs the same on any log, whatever others add to that
in the meantime. -/
theorem exists_reconstructAmid (config : Config) (routine : Routine) (region : Region)
    (env : TypeEnv) :
    ∃ outcome events, Bracketed routine.name outcome events ∧ ∀ others log,
      reconstructAmid others config routine region env log =
        (outcome, log.amid others events) := by
  obtain ⟨inner, hquiet, hrun⟩ :=
    FoldM.Tame.run_on ((Context.of routine env config).reconstruct_tame region) (.start .empty)
  obtain ⟨outcome, last, hlast, hkind, hname⟩ := exists_conclude routine
    (((Context.of routine env config).reconstruct region).run (.start .empty)).1
    (((Context.of routine env config).reconstruct region).run (.start .empty)).2
  let first : Event := ⟨.started, some routine.name, none, EventKind.started.description⟩
  refine ⟨outcome, first :: (inner ++ [last]), ⟨first, inner, last, rfl, rfl, rfl, hquiet, hkind,
    hname⟩, fun others log => ?_⟩
  rw [EventLog.amid, List.foldl_cons, List.foldl_append]
  refine (congrArg (conclude routine others) ?_).trans (hlast _ others)
  exact hrun ((log.after others).push first) others

end Decompiler
