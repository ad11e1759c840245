import Decompiler.Proofs.Structure.Cover
import Decompiler.Proofs.Structure.Verbatim

/-!
Control structures with fewer idioms.  Whether a region has the layout that its kind asks for is
decided by the instructions of the routine; the idioms in use make no difference.  They do make
a difference to what the parts of a chain or of a conditional assign last, and to whether a
conditional move can take its test.
-/

namespace Decompiler

open TryFoldM List Routine

namespace Context

variable {cx : Context} {allows : Idiom → Bool} {depth : Nat} {errors : List Error}
  {region : Region} {site : Nat} {branch : Branch}

/-- Folding a region covers folding it with fewer idioms. -/
structure Covered (cx : Context) (allows : Idiom → Bool) (errors : List Error)
    (region : Region) : Prop where
  push : ∀ depth, ((cx.piece region).push depth).Covers
    (((cx.allowing allows).piece region).push depth) errors
  pushBody : ∀ depth, ((cx.piece region).pushBody depth).Covers
    (((cx.allowing allows).piece region).pushBody depth) errors

theorem buildPiece_covers (h : cx.Covered allows errors region) :
    (buildPiece (cx.piece region) depth).Covers
      (buildPiece ((cx.allowing allows).piece region) depth) errors :=
  .onFreshStack ((h.push depth).bind_total fun _ _ => failsWith_lift)

variable {s : FoldState} {id : BlockId} {branches : List (Nat × Branch)} {r : Routine}
  {tests : List Region} {alt : Option Region} {emit emit' : Bool} {body : Region}
  {arms : List RegionArm}

theorem pushTestDelay_fits (hbranch : cx.routine.expectBranch region true = .ok (site, branch))
    (hmode : s.verbatim = false) :
    (cx.pushTestDelay region site branch).Ends s fun _ _ =>
      (∀ op ∈ branch.delaySlot?, op.hasArity = true) ∧ cx.routine.delayErrors region = [] := by
  unfold pushTestDelay Routine.delayErrors
  rw [hbranch]
  dsimp only
  cases hop : branch.delaySlot? with
  | none => exact ends_pure.2 (by simp)
  | some op =>
    dsimp only
    split
    · exact ends_bind.2 ends_throw
    · split
      · exact ends_bind.2 ends_throw
      · refine (pushOperation_hasArity hmode).mono fun _ _ harity => ⟨?_, rfl⟩
        rintro _ ⟨⟩
        exact harity

/-- A delay slot that may not run in front of its test fails with the error for that. -/
theorem pushTestDelay_failsWith (hmoves : cx.moveErrors ⊆ errors)
    (hbranch : cx.routine.expectBranch region true = .ok (site, branch))
    (harity : ∀ op ∈ branch.delaySlot?, op.hasArity = true)
    (herrors : cx.routine.delayErrors region ⊆ errors) (s : FoldState) :
    (cx.pushTestDelay region site branch).FailsWith s errors := by
  have hat := regionTerminator_branchAt (expectBranch_eq_ok hbranch).1
  have hdelay := pushDelay_failsWith hmoves hat harity s
  unfold Routine.delayErrors at herrors
  unfold pushDelay at hdelay
  unfold pushTestDelay
  rw [hbranch] at herrors
  dsimp only at herrors
  cases hop : branch.delaySlot? with
  | none => exact failsWith_pure
  | some op =>
    rw [hop] at herrors hdelay
    dsimp only at herrors hdelay ⊢
    split
    · rename_i hlikely
      rw [if_pos hlikely] at herrors
      exact failsWith_bind.2 ⟨failsWith_throw.2 (herrors mem_cons_self), ends_throw⟩
    · rename_i hlikely
      rw [if_neg hlikely] at herrors
      split
      · rename_i hwrites
        rw [if_pos hwrites] at herrors
        exact failsWith_bind.2 ⟨failsWith_throw.2 (herrors mem_cons_self), ends_throw⟩
      · exact hdelay

/-- Folds a loop of regions whose layout is known. -/
def pushLaidOut (cx : Context) (first : Region) (rest : List Region) (depth : Nat) :
    LoopLayout → TryFoldM Unit
  | .entersAtTest site jump => do
    cx.pushThroughDelay (cx.piece first) site jump (depth + 1)
    let body ← cx.buildPieces (rest.dropLast.map cx.piece) (depth + 1)
    let test ← cx.captureTest (cx.piece (rest.getLastD first)) false true none depth
    cx.pushLoopElement .whileTrue test body
  | .testsLast => do
    let body ← cx.buildPieces ((first :: rest).dropLast.map cx.piece) (depth + 1)
    let test ← cx.captureTest (cx.piece (rest.getLastD first)) true true none depth
    cx.pushLoopElement .untilTrue test body
  | .testsFirst site back => do
    let test ← cx.captureTest (cx.piece first) true true none depth
    let body ← cx.buildLoopBody (rest.dropLast.map cx.piece) (cx.piece (rest.getLastD first)) site
      back depth
    cx.pushLoopElement .whileTrue test body

/-- A loop is folded when its layout has been found. -/
theorem pushLoop_eq (first : Region) (rest : List Region) :
    cx.pushLoop ((first :: rest).map cx.piece) depth = (do
      let layout ← TryFoldM.ofExcept (cx.routine.loopLayout first (rest.getLastD first) rest)
      cx.pushLaidOut first rest depth layout) := by
  have hlast : (rest.map cx.piece).getLastD (cx.piece first) = cx.piece (rest.getLastD first) := by
    rw [getLastD_eq_getLast?, getLastD_eq_getLast?, getLast?_map]
    cases rest.getLast? <;> rfl
  rw [map_cons, pushLoop, pushLoopParts, hlast, map_piece_region, piece_region, piece_region]
  refine bind_congr fun layout => ?_
  rw [← map_cons, ← map_dropLast, ← map_dropLast]
  cases layout <;> rfl

theorem buildPieces_keepsSound (items : List Region) :
    (cx.buildPieces (items.map cx.piece) depth).KeepsSound :=
  (buildPieces_builds (pieces_meet items)).keepsSound
    (buildPieces_bounded (pieces_tame items) (Nat.lt_succ_self _)).tame.advances

/-- The value of a chain is taken out of its last entry, or the entry does not set it. -/
theorem takeChainValue_failsWith {last : Region} {tail : FormId} {register : Register}
    (hlast : last.lastBlock? = some id) (hcontains : cx.routine.Contains last)
    (h : (∃ dst, s.pool.trailingSet? tail = some dst ∧ dst.register = register) ∨
      cx.routine.chainError last register ∈ errors) :
    (cx.takeChainValue last tail register).FailsWith s errors := by
  obtain ⟨block, hblock⟩ := hcontains id (mem_of_getLast? hlast)
  rw [takeChainValue, failsWith_bind, ends_get]
  refine ⟨failsWith_get, ?_⟩
  split
  · simp
  · rename_i hnone
    rw [hlast, Option.getD_some, block_eq_ok.2 hblock, ofExcept_bind, failsWith_throw]
    rcases h with ⟨dst, hdst, hreg⟩ | herror
    · simp [hdst, hreg] at hnone
    · simpa [Routine.chainError, hlast, hblock] using herror

/-- The delay slot that sets a register to false has the operand it needs. -/
theorem hasArity_of_falseDefault? {v : Variable} (h : branch.falseDefault? = some v) :
    ∀ op ∈ branch.delaySlot?, op.hasArity = true := by
  intro op hop
  cases (delaySlot?_of_falseDefault? h).symm.trans hop
  rfl

theorem exists_of_mapM {α β : Type} {f : α → Option β} {as : List α} {bs : List β}
    (h : as.mapM f = some bs) : ∀ a ∈ as, ∃ b, f a = some b := by
  induction as generalizing bs with
  | nil => simp
  | cons a as ih =>
    rw [mapM_cons] at h
    obtain ⟨b, hb, h⟩ := Option.bind_eq_some_iff.1 h
    obtain ⟨bs', hbs', -⟩ := Option.bind_eq_some_iff.1 h
    exact forall_mem_cons.2 ⟨⟨b, hb⟩, ih hbs'⟩

section

variable (hbranches : r.TestsBy tests branches)
include hbranches

/-- A conditional without an alternative is a value only if all tests set it to false. -/
theorem defaulted?_of_conditionalValue? {p : Pool} {bodies : List FormId} {dst : Variable}
    (h : p.conditionalValue? (branches.map Prod.snd) bodies none = some dst) :
    ∀ test ∈ tests, ∃ v, r.defaulted? test = some v := by
  obtain ⟨register, hreg, -⟩ := Option.bind_eq_some_iff.1 h
  obtain ⟨vars, hvars, -⟩ := Option.bind_eq_some_iff.1 hreg
  rw [← mapM_defaulted? hbranches] at hvars
  exact exists_of_mapM hvars

/-- The tests of a conditional that is a value and has no alternative all set a default. -/
theorem defaulted?_of_buildOption (halternative : alt.isSome = false) (s : FoldState) :
    (buildOption (alt.map cx.piece) depth).Ends s fun other _ =>
      ∀ {p : Pool} {bodies : List FormId} {dst : Variable},
        p.conditionalValue? (branches.map Prod.snd) bodies other = some dst →
          ∀ test ∈ tests, ∃ v, r.defaulted? test = some v := by
  intro other hother p bodies dst hdst
  have hsame := buildOption_isSome (alt.map cx.piece) s other hother
  rw [Option.isSome_map, halternative] at hsame
  rw [Option.not_isSome_iff_eq_none.1 (Bool.eq_false_iff.1 hsame)] at hdst
  exact defaulted?_of_conditionalValue? hbranches hdst

end

theorem buildArm_keepsSound (body : Region) (finish : BlockId) (required : Bool) :
    (cx.buildArm (cx.piece body) finish required depth).KeepsSound :=
  (buildArm_builds (piece_meets body)).keepsSound
    (buildArm_bounded (piece_tame body _) (Nat.lt_succ_self _) _ _).tame.advances

theorem buildArms_keepsSound (bodies : List Region) (finish : BlockId) (alt : Bool) :
    (cx.buildArms finish alt depth (bodies.map cx.piece)).KeepsSound := by
  induction bodies with
  | nil => exact .pure _
  | cons body rest ih =>
    exact .bind (buildArm_keepsSound body _ _) fun _ => .bind ih fun _ => .pure _

theorem buildOption_keepsSound (item : Option Region) :
    (buildOption (item.map cx.piece) depth).KeepsSound := by
  cases item with
  | none => exact .pure _
  | some region =>
    exact .bind ((buildPiece_builds (piece_meets region)).keepsSound
      (buildPiece_bounded (piece_tame region _) (Nat.le_refl _)).tame.advances) fun _ => .pure _

theorem buildOption_covers {item : Option Region}
    (h : ∀ region ∈ item, cx.Covered allows errors region) :
    (buildOption (item.map cx.piece) depth).Covers
      (buildOption (item.map (cx.allowing allows).piece) depth) errors := by
  cases item with
  | none => exact .of_total fun _ => failsWith_pure
  | some region =>
    exact (buildPiece_covers (h region rfl)).bind_total fun _ _ => failsWith_pure

theorem captureTest_keepsSound (region : Region) (flipped emit : Bool) (result : Option Register) :
    (cx.captureTest (cx.piece region) flipped emit result depth).KeepsSound := by
  intro s hs hsound
  obtain ⟨M, C, hholds⟩ := hsound.toHolds
  intro test htest
  obtain ⟨t, -, -, hholds'⟩ := captureTest_ends (piece_meets region) hholds test htest
  have hmode := ((captureTest_bounded (piece_tame region _) (Nat.lt_succ_self _) _ _
    _).tame.advances s test htest).mode
  exact (hholds'.toSound (hmode.trans hsound.1)).sublist (sublist_cons_self _ _)

theorem captureEntry_keepsSound (plan : ChainPlan) (entry : Region × ChainTest) :
    (cx.captureEntry plan depth (cx.piece entry.1, entry.2)).KeepsSound :=
  .bind (captureTest_keepsSound entry.1 _ _ _) fun _ => .pure _

theorem limitDepth_covers {step step' : TryFoldM Unit} (h : step.Covers step' errors) :
    (cx.limitDepth depth step).Covers ((cx.allowing allows).limitDepth depth step') errors := by
  unfold limitDepth
  by_cases hdepth : cx.config.maxDepth < depth
  · rw [if_pos hdepth]
    exact .throw _
  · rw [if_neg hdepth, if_neg hdepth]
    exact h

theorem controlPiece_covered {region' region'' : Region} {step step' : Nat → TryFoldM Unit}
    (hpiece : cx.piece region = cx.controlPiece region' step)
    (hpiece' : (cx.allowing allows).piece region = (cx.allowing allows).controlPiece region'' step')
    (h : ∀ depth, (step depth).Covers (step' depth) errors) : cx.Covered allows errors region := by
  constructor
  · intro depth
    rw [hpiece, hpiece']
    exact limitDepth_covers (h depth)
  · intro depth
    rw [hpiece, hpiece']
    exact (limitDepth_covers (h depth)).bind_total fun _ _ => failsWith_pure

/-- A block by itself is folded as a sequence of one. -/
theorem piece_block_push (id : BlockId) :
    (cx.piece (.block id)).push depth = cx.limitDepth depth (cx.pushRegions depth [.block id]) := by
  have hpush : cx.pushRegions depth [.block id] = (do
      if (← cx.tryIdioms [.block id]) = 0 then cx.pushBlock id) := by
    refine bind_congr fun used => ?_
    cases used with
    | zero => exact bind_pure_unit
    | succ used => cases used <;> rfl
  rw [hpush]
  rfl

variable (hmoves : (cx.allowing allows).moveErrors ⊆ errors) {region : Region}
include hmoves

theorem pushThroughDelay_covers (h : cx.Covered allows errors region)
    (hbranch : cx.routine.BranchAt site branch) :
    (cx.pushThroughDelay (cx.piece region) site branch depth).Covers
      ((cx.allowing allows).pushThroughDelay ((cx.allowing allows).piece region) site branch depth)
      errors :=
  (h.pushBody depth).bind (cx.pushBody_keepsSound region)
    ((cx.allowing allows).pushBody_keepsSound region) fun _ _ => pushDelay_covers hmoves hbranch

/-- A test covers the same test.  A delay slot that was not folded must not be the reason for
an error that is not expected. -/
theorem captureTest_covers (h : cx.Covered allows errors region) {flipped : Bool}
    {result : Option Register}
    (hemit : ∀ site branch, cx.routine.expectBranch region true = .ok (site, branch) →
      emit' = true → emit = false → (∀ op ∈ branch.delaySlot?, op.hasArity = true) ∧
        cx.routine.delayErrors region ⊆ errors) :
    (cx.captureTest (cx.piece region) flipped emit result depth).Covers
      ((cx.allowing allows).captureTest ((cx.allowing allows).piece region) flipped emit' result
        depth) errors := by
  unfold captureTest
  rw [piece_region, piece_region]
  refine .ofExcept_bind fun entry hentry => .onFreshStack ?_
  refine (h.pushBody (depth + 1)).bind (cx.pushBody_keepsSound region)
    ((cx.allowing allows).pushBody_keepsSound region) fun _ _ => ?_
  cases emit' with
  | false => exact .of_total fun _ => failsWith_lift
  | true =>
    cases emit with
    | false =>
      obtain ⟨harity, herrors⟩ := hemit entry.1 entry.2 hentry rfl rfl
      exact .of_total fun s => failsWith_bind.2
        ⟨pushTestDelay_failsWith hmoves hentry harity herrors s, fun _ _ => failsWith_lift⟩
    | true =>
      refine TryFoldM.Covers.bind_total (.of_fact (fun _ _ hsound =>
        pushTestDelay_fits hentry hsound.1) ?_) fun _ _ => failsWith_lift
      rintro ⟨harity, hnone⟩ s _ _
      refine pushTestDelay_failsWith hmoves hentry harity ?_ s
      rw [hnone]
      exact nil_subset _

theorem captureTest_covers_same (h : cx.Covered allows errors region) (flipped emit : Bool)
    (result : Option Register) :
    (cx.captureTest (cx.piece region) flipped emit result depth).Covers
      ((cx.allowing allows).captureTest ((cx.allowing allows).piece region) flipped emit result
        depth) errors := by
  refine captureTest_covers hmoves h fun _ _ _ htrue hfalse => ?_
  rw [htrue] at hfalse
  cases hfalse

variable (hvalid : cx.routine.IsValid)
  (hfewer : ∀ idiom, allows idiom = true → cx.config.allows idiom = true) {items : List Region}
include hvalid hfewer

theorem block_covered (hblock : ∃ block, cx.routine.blocks[id]? = some block) :
    cx.Covered allows errors (.block id) := by
  have hblocks : ∀ id', .block id' ∈ [Region.block id] →
      ∃ block, cx.routine.blocks[id']? = some block := by
    simpa using hblock
  refine ⟨fun depth => ?_, fun _ => pushBlockBody_covers hmoves id⟩
  rw [piece_block_push, piece_block_push]
  refine limitDepth_covers (pushRegions_covers hmoves hvalid hfewer hblocks fun item hitem => ?_)
  rw [mem_singleton.1 hitem]
  exact pushBlock_covers hmoves id

section

variable (hblocks : ∀ id, .block id ∈ items → ∃ block, cx.routine.blocks[id]? = some block)
  (hitems : ∀ item ∈ items, cx.Covered allows errors item)
include hblocks hitems

theorem sequence_covered : cx.Covered allows errors (.sequence items) := by
  have hpiece : ∀ cx : Context, cx.piece (.sequence items) =
      cx.sequencePiece (items.map cx.piece) := fun cx => Region.fold_sequence cx.pieceRules items
  constructor
  · intro depth
    rw [hpiece, hpiece]
    exact limitDepth_covers (pushRegions_covers hmoves hvalid hfewer hblocks fun item hitem =>
      pushItem_covers hmoves (hitems item hitem).push)
  · intro depth
    rw [hpiece, hpiece]
    unfold sequencePiece
    dsimp only
    rw [getLast?_map, getLast?_map, ← map_dropLast, ← map_dropLast]
    cases hlast : items.getLast? with
    | none => exact .of_total fun _ => failsWith_pure
    | some last =>
      have hsub := (dropLast_sublist items).subset
      refine (pushRegions_covers hmoves hvalid hfewer (fun id hid => hblocks id (hsub hid))
        fun item hitem => pushItem_covers hmoves (hitems item (hsub hitem)).push).bind
        (cx.pushRegions_keepsSound _)
        ((cx.allowing allows).pushRegions_keepsSound _) fun _ _ => ?_
      exact (hitems last (mem_of_getLast? hlast)).pushBody _

theorem buildPieces_covers :
    (cx.buildPieces (items.map cx.piece) depth).Covers
      ((cx.allowing allows).buildPieces (items.map (cx.allowing allows).piece) depth) errors :=
  .onFreshStack ((pushRegions_covers hmoves hvalid hfewer hblocks fun item hitem =>
    pushItem_covers hmoves (hitems item hitem).push).bind_total fun _ _ => failsWith_lift)

/-- A loop covers the same loop with fewer idioms. -/
theorem pushLoop_covers :
    (cx.pushLoop (items.map cx.piece) depth).Covers
      ((cx.allowing allows).pushLoop (items.map (cx.allowing allows).piece) depth) errors := by
  cases items with
  | nil => exact .throw _
  | cons first rest =>
    have hfirst := hitems first mem_cons_self
    have hlast : cx.Covered allows errors (rest.getLastD first) := hitems _ getLastD_mem_cons
    have hdrop : rest.dropLast ⊆ first :: rest := fun item hitem =>
      mem_cons_of_mem _ ((dropLast_sublist _).subset hitem)
    rw [pushLoop_eq, pushLoop_eq]
    refine .ofExcept_bind fun layout hlayout => ?_
    cases loopLayout_laidOut hlayout with
    | entersAtTest _ hjump =>
      refine (pushThroughDelay_covers hmoves hfirst
        (regionTerminator_branchAt hjump)).bind (cx.pushThroughDelay_keepsSound first _ _)
        ((cx.allowing allows).pushThroughDelay_keepsSound first _ _) fun _ _ => ?_
      refine (buildPieces_covers hmoves hvalid hfewer (fun id hid => hblocks id (hdrop hid))
        fun item hitem => hitems item (hdrop hitem)).bind (cx.buildPieces_keepsSound _)
        ((cx.allowing allows).buildPieces_keepsSound _) fun _ _ => ?_
      exact (captureTest_covers_same hmoves hlast _ _ _).bind_total fun _ _ =>
        failsWith_lift
    | testsLast =>
      have hsub := (dropLast_sublist (first :: rest)).subset
      refine (buildPieces_covers hmoves hvalid hfewer (fun id hid => hblocks id (hsub hid))
        fun item hitem => hitems item (hsub hitem)).bind (cx.buildPieces_keepsSound _)
        ((cx.allowing allows).buildPieces_keepsSound _) fun _ _ => ?_
      exact (captureTest_covers_same hmoves hlast _ _ _).bind_total fun _ _ =>
        failsWith_lift
    | testsFirst _ _ _ hback =>
      have hat := regionTerminator_branchAt (expectBranch_eq_ok hback).1
      refine (captureTest_covers_same hmoves hfirst _ _ _).bind
        (cx.captureTest_keepsSound first _ _ _)
        ((cx.allowing allows).captureTest_keepsSound first _ _ _) fun _ _ => ?_
      refine TryFoldM.Covers.bind_total (.onFreshStack ?_) fun _ _ => failsWith_lift
      refine (pushRegions_covers hmoves hvalid hfewer (fun id hid => hblocks id (hdrop hid))
        fun item hitem => pushItem_covers hmoves (hitems item (hdrop hitem)).push).bind
        (cx.pushRegions_keepsSound _) ((cx.allowing allows).pushRegions_keepsSound _) fun _ _ => ?_
      exact (pushThroughDelay_covers hmoves hlast hat).bind_total fun _ _ => failsWith_lift

end

omit hvalid hfewer

/-- An exit covers the same exit with fewer idioms. -/
theorem pushExit_covers (hvalid : cx.routine.IsValid) {dead : Option Region}
    (hbody : cx.Covered allows errors body) (hdead : ∀ region ∈ dead, cx.routine.Contains region) :
    (cx.pushExit (cx.piece body) dead depth).Covers
      ((cx.allowing allows).pushExit ((cx.allowing allows).piece body) dead depth) errors := by
  unfold pushExit
  rw [piece_region, piece_region]
  refine .ofExcept_bind fun entry hentry => ?_
  have hat := regionTerminator_branchAt (expectBranch_eq_ok hentry).1
  refine TryFoldM.Covers.bind_total (.onFreshStack ?_) fun code s => ?_
  · refine (pushThroughDelay_covers hmoves hbody hat).bind_total fun _ s => ?_
    extract_lets finish
    have hfinish : ∀ value s, (finish value).FailsWith s errors := by
      intro value s
      simp only [finish, failsWith_bind, failsWith_lift, failsWith_get, true_and, ends_true]
    split
    · exact failsWith_bind.2 ⟨failsWith_lift, fun value _ => hfinish value _⟩
    · exact failsWith_bind.2 ⟨failsWith_pure, fun value _ => hfinish value _⟩
  · refine failsWith_bind.2 ⟨?_, fun _ _ => failsWith_lift⟩
    cases dead with
    | none => exact failsWith_pure
    | some region =>
      exact failsWith_map.2 ((cx.allowing allows).buildVerbatim_failsWith hvalid (hdead region rfl))

theorem captureEntry_covers {entry : Region × ChainTest} (plan : ChainPlan)
    (h : cx.Covered allows errors entry.1) :
    (cx.captureEntry plan depth (cx.piece entry.1, entry.2)).Covers
      ((cx.allowing allows).captureEntry plan depth ((cx.allowing allows).piece entry.1, entry.2))
      errors :=
  (captureTest_covers_same hmoves h _ _ _).bind_total fun _ _ => failsWith_pure

/-- A chain covers the same chain with fewer idioms, unless its last entry may no longer set the
result. -/
theorem pushChain_covers (hvalid : cx.routine.IsValid)
    (hcontains : ∀ item ∈ items, cx.routine.Contains item)
    (hitems : ∀ item ∈ items, cx.Covered allows errors item)
    (herrors : (cx.allowing allows).chainErrors (items.map (cx.allowing allows).outlook) ⊆ errors) :
    (cx.pushChain (items.map cx.piece) depth).Covers
      ((cx.allowing allows).pushChain (items.map (cx.allowing allows).piece) depth) errors := by
  cases hlast : items.getLast? with
  | none =>
    rw [getLast?_eq_none_iff.1 hlast]
    exact .throw _
  | some last =>
    have hmem : last ∈ items := mem_of_getLast? hlast
    rw [pushChain_eq hlast, pushChain_eq hlast]
    refine .ofExcept_bind fun plan hplan => ?_
    obtain ⟨id, hid, -⟩ := (chainPlan_plans hplan).tests
    rw [chainErrors, planned?_eq hlast, hplan] at herrors
    unfold pushPlannedChain
    rw [zip_map_left, zip_map_left, mapM_map, mapM_map]
    refine TryFoldM.Covers.bind (.mapM (fun entry hentry => captureEntry_covers hmoves plan ?_)
      (fun entry => cx.captureEntry_keepsSound plan entry)
      fun entry => (cx.allowing allows).captureEntry_keepsSound plan entry)
      (.mapM (fun entry => cx.captureEntry_keepsSound plan entry) _)
      (.mapM (fun entry => (cx.allowing allows).captureEntry_keepsSound plan entry) _)
      fun built built' => ?_
    · exact hitems _ ((dropLast_sublist _).subset (of_mem_zip hentry).1)
    · intro s s' hs hs' hsound hsound'
      refine (buildPiece_covers (hitems last hmem) s s' hs hs' hsound hsound').bind
        fun tail _ tail' htail' _ _ => ?_
      refine failsWith_bind.2 ⟨?_, fun final _ => ?_⟩
      · unfold chainFinal
        rw [piece_region]
        cases hresult : plan.result with
        | none => exact failsWith_pure
        | some register =>
          refine failsWith_map.2 (takeChainValue_failsWith hid (hcontains last hmem) ?_)
          by_cases hwhole : ((cx.allowing allows).outlook last).whole = some register
          · exact .inl (buildPiece_assigns ((cx.allowing allows).piece_endsAs hvalid last
              (hcontains last hmem)) hwhole hsound' tail' htail')
          · refine .inr (herrors ?_)
            simp [Except.toOption, hresult, hwhole, outlook_region]
      · dsimp only
        split
        · exact failsWith_lift
        · exact failsWith_lift

theorem buildArm_covers (h : cx.Covered allows errors body) (finish : BlockId) (required : Bool) :
    (cx.buildArm (cx.piece body) finish required depth).Covers
      ((cx.allowing allows).buildArm ((cx.allowing allows).piece body) finish required depth)
      errors := by
  unfold buildArm
  rw [piece_region, piece_region]
  refine .ofExcept_bind fun jump hjump => ?_
  cases jump with
  | none => exact buildPiece_covers h
  | some entry =>
    have hat := regionTerminator_branchAt (armJump_eq_some hjump).1
    exact .onFreshStack ((pushThroughDelay_covers hmoves h hat).bind_total fun _ _ =>
      failsWith_lift)

theorem buildArms_covers {bodies : List Region}
    (h : ∀ body ∈ bodies, cx.Covered allows errors body) (finish : BlockId) (alt : Bool) :
    (cx.buildArms finish alt depth (bodies.map cx.piece)).Covers
      ((cx.allowing allows).buildArms finish alt depth
        (bodies.map (cx.allowing allows).piece)) errors := by
  induction bodies with
  | nil => exact .of_total fun _ => failsWith_pure
  | cons body rest ih =>
    rw [map_cons, map_cons, buildArms, buildArms, isEmpty_map, isEmpty_map]
    refine (buildArm_covers hmoves (h body mem_cons_self) finish _).bind
      (cx.buildArm_keepsSound body _ _) ((cx.allowing allows).buildArm_keepsSound body _ _) ?_
    exact fun _ _ => (ih fun item hitem => h item (mem_cons_of_mem _ hitem)).bind_total
      fun _ _ => failsWith_pure

/-- The tests of a conditional cover the same tests with fewer idioms.  A delay slot is folded
only with fewer idioms when the conditional was a value and is none any longer. -/
theorem captureTests_covers (harms : ∀ arm ∈ arms, cx.Covered allows errors arm.test)
    (hemit : emit' = true → emit = false → ∀ arm ∈ arms,
      (∃ v, cx.routine.defaulted? arm.test = some v) ∧
        cx.routine.delayErrors arm.test ⊆ errors) :
    ((cx.armPieces arms).mapM fun arm => cx.captureTest arm.1 true emit none depth).Covers
      (((cx.allowing allows).armPieces arms).mapM fun arm =>
        (cx.allowing allows).captureTest arm.1 true emit' none depth) errors := by
  rw [armPieces, armPieces, mapM_map, mapM_map]
  refine .mapM (fun arm harm => captureTest_covers hmoves (harms arm harm) ?_)
    (fun arm => cx.captureTest_keepsSound arm.test _ _ _)
    fun arm => (cx.allowing allows).captureTest_keepsSound arm.test _ _ _
  intro site branch hbranch htrue hfalse
  obtain ⟨⟨v, hv⟩, herrors⟩ := hemit htrue hfalse arm harm
  rw [Routine.defaulted?, hbranch] at hv
  exact ⟨hasArity_of_falseDefault? hv, herrors⟩

/-- A conditional covers the same conditional with fewer idioms, unless it may be a value no
longer and its tests have delay slots that cannot run in front of them. -/
theorem pushConditional_covers (hvalid : cx.routine.IsValid)
    (hcontains : cx.routine.Contains (.conditional arms alt))
    (harms : ∀ arm ∈ arms, cx.Covered allows errors arm.test ∧ cx.Covered allows errors arm.body)
    (hother : ∀ region ∈ alt, cx.Covered allows errors region)
    (herrors : (cx.allowing allows).conditionalEnd? ((cx.allowing allows).armOutlooks arms)
        (alt.map (cx.allowing allows).outlook) = none →
      ∀ arm ∈ arms, cx.routine.delayErrors arm.test ⊆ errors) :
    (cx.pushConditional (cx.armPieces arms) (alt.map cx.piece) depth).Covers
      ((cx.allowing allows).pushConditional ((cx.allowing allows).armPieces arms)
        (alt.map (cx.allowing allows).piece) depth) errors := by
  cases hstop : conditionalStop? arms alt with
  | none =>
    obtain ⟨e, he⟩ := cx.pushConditional_throws depth hstop
    rw [he]
    exact .throw e
  | some block =>
    rw [pushConditional_eq hstop, pushConditional_eq hstop]
    refine .ofExcept_bind fun branches hbranches => ?_
    have hforall := skippingBranches_testsBy hbranches
    have hbodies : ∀ body ∈ arms.map RegionArm.body, cx.Covered allows errors body := by
      intro body hbody
      obtain ⟨arm, harm, rfl⟩ := mem_map.1 hbody
      exact (harms arm harm).2
    intro s s' hs hs' hsound hsound'
    unfold pushArms
    rw [armPieces_bodies, armPieces_bodies, Option.isSome_map, Option.isSome_map]
    refine (buildArms_covers hmoves hbodies _ _ s s' hs hs' hsound hsound').bind
      fun bodies hbodiesRun bodies' hbodiesRun' => ?_
    have hsound₁ := cx.buildArms_keepsSound _ _ _ s hs hsound bodies hbodiesRun
    have hsound₁' := (cx.allowing allows).buildArms_keepsSound _ _ _ s' hs' hsound' bodies'
      hbodiesRun'
    refine (buildOption_covers hother _ _ hs hs' hsound₁ hsound₁').bind
      fun other hotherRun other' hotherRun' => ?_
    have hsound₂ := cx.buildOption_keepsSound _ _ hs hsound₁ other hotherRun
    have hsound₂' := (cx.allowing allows).buildOption_keepsSound _ _ hs' hsound₁' other' hotherRun'
    refine TryFoldM.CoversAt.bind (fun _ _ => failsWith_get) ?_
    rw [ends_get, ends_get]
    extract_lets value emit value' emit'
    have hemit : emit' = true → emit = false → ∀ arm ∈ arms,
        (∃ v, cx.routine.defaulted? arm.test = some v) ∧
          cx.routine.delayErrors arm.test ⊆ errors := by
      intro htrue hfalse
      obtain ⟨hvalue, halternative⟩ := Bool.or_eq_false_iff.1 hfalse
      -- The conditional was a value, without an alternative, and is none any longer.
      have hnone : value' = none := by
        rw [Bool.or_eq_true, halternative] at htrue
        exact Option.isNone_iff_eq_none.1 (htrue.resolve_right Bool.false_ne_true)
      have hends := (cx.allowing allows).conditionalEnd?_of_none hvalid hcontains hstop hforall
        hsound' bodies' hbodiesRun' other' hotherRun' hnone
      obtain ⟨dst, hdst⟩ := Option.isSome_iff_exists.1 (Option.isNone_eq_false_iff.1 hvalue)
      have hdefaults := defaulted?_of_buildOption hforall halternative _ other hotherRun hdst
      exact fun arm harm => ⟨hdefaults _ (mem_map_of_mem harm), herrors hends arm harm⟩
    refine TryFoldM.Covers.bind_total (captureTests_covers hmoves
      (fun arm harm => (harms arm harm).1) hemit) (fun tests s => ?_) _ _ hs hs' hsound₂ hsound₂'
    extract_lets site element push
    have hpush : ∀ s, (push ()).FailsWith s errors := by
      intro s
      unfold push
      generalize value' = final
      cases final <;> exact failsWith_lift
    split
    · exact failsWith_bind.2 ⟨failsWith_lift, fun _ _ => hpush _⟩
    · exact hpush s

end Context

end Decompiler
