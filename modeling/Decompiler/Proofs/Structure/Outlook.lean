import Decompiler.Proofs.Structure.Endings

/-!
What can be told of folding a region from its instructions alone: the register that it assigns
last, if that is certain, and the errors that may come up where it is not.
-/

namespace Decompiler

open TryFoldM List Region

/-- What can be told of folding a region from its instructions alone. -/
structure Outlook where
  region : Region
  /-- The register that is assigned last. -/
  whole : Option Register
  /-- The register that is assigned last up to the branch that ends the region. -/
  body : Option Register
  /-- The errors that may come up when parts of the region are not what they could be. -/
  risks : List Error

namespace Routine

/-- The error of a chain whose last entry does not end by setting the result. -/
def chainError (r : Routine) (last : Region) (register : Register) : Error :=
  .foldInvariant ((r.blocks[last.lastBlock?.getD 0]?.map Block.start).getD 0)
    ("short-circuit result " ++ register.name ++ " was not set last")

/-- The error of a test whose delay slot cannot run in front of it. -/
def delayErrors (r : Routine) (test : Region) : List Error :=
  match r.expectBranch test true with
  | .ok (site, branch) =>
    match branch.delaySlot? with
    | none => []
    | some op =>
      if branch.likely then
        [r.shapeError test (some site) "likely branch with a delay slot in a test"]
      else if op.writes.intersects branch.condition.operandRegisters then
        [r.shapeError test (some site) "delay slot overwrites the tested register"]
      else []
  | .error _ => []

/-- The variable that the delay slot of a test sets to false. -/
def defaulted? (r : Routine) (test : Region) : Option Variable :=
  (r.expectBranch test true).toOption.bind fun entry => entry.2.falseDefault?

end Routine

namespace Context

/-- The register that a region and the delay slot of its branch assign last. -/
def throughDelay? (cx : Context) (item : Outlook) (site : Nat) (branch : Branch) :
    Option Register :=
  match branch.delaySlot? with
  | some op => cx.assigned? site op
  | none => item.body

def armEnd? (cx : Context) (finish : BlockId) (item : Outlook) : Option Register :=
  match cx.routine.armJump item.region finish false with
  | .ok (some (site, jump)) => cx.throughDelay? item site jump
  | .ok none => item.whole
  | .error _ => none

/-- The register that may hold the value of a conditional: the one that the first arm assigns
last or, without an alternative, the one that all tests set to false. -/
def valueRegister? (cx : Context) (finish : BlockId) (arms : List (Outlook × Outlook))
    (alt : Option Outlook) : Option Register :=
  match alt with
  | some _ => arms.head?.bind fun arm => cx.armEnd? finish arm.2
  | none => (arms.mapM fun arm => cx.routine.defaulted? arm.1.region).bind commonRegister?

/-- The register that a conditional is the value of, if all its arms assign it last. -/
def armsEnd? (cx : Context) (finish : BlockId) (arms : List (Outlook × Outlook))
    (alt : Option Outlook) : Option Register :=
  (cx.valueRegister? finish arms alt).filter fun register =>
    (arms.all fun arm => cx.armEnd? finish arm.2 == some register) &&
      alt.all fun item => item.whole == some register

def conditionalEnd? (cx : Context) (arms : List (Outlook × Outlook))
    (alt : Option Outlook) : Option Register := do
  let last ← arms.getLast?
  let block ← (alt.getD last.2).region.lastBlock?
  cx.armsEnd? (block + 1) arms alt

/-- The last entry of a chain and the plan of the chain. -/
def planned? (cx : Context) (items : List Outlook) : Option (Outlook × ChainPlan) := do
  let last ← items.getLast?
  let plan ← (cx.routine.chainPlan (items.dropLast.map Outlook.region) last.region).toOption
  return (last, plan)

/-- The error of a chain, unless its last entry surely sets the result. -/
def chainErrors (cx : Context) (items : List Outlook) : List Error :=
  match cx.planned? items with
  | some (last, plan) =>
    (plan.result.filter fun register => last.whole ≠ some register).toList.map
      (cx.routine.chainError last.region)
  | none => []

def controlOutlook (region : Region) (register : Option Register) (risks : List Error) : Outlook :=
  ⟨region, register, register, risks⟩

/-- What can be told of each kind of region. -/
def outlookRules (cx : Context) : RegionRules Outlook where
  block id := ⟨.block id, cx.blockEnd? id, cx.bodyEnd? id, []⟩
  sequence items :=
    ⟨.sequence (items.map Outlook.region), items.getLast?.bind Outlook.whole,
      items.getLast?.bind Outlook.body, items.flatMap Outlook.risks⟩
  loop items :=
    controlOutlook (.loop (items.map Outlook.region)) none (items.flatMap Outlook.risks)
  conditional arms alt :=
    controlOutlook
      (.conditional (arms.map fun arm => ⟨arm.1.region, arm.2.region⟩) (alt.map Outlook.region))
      (cx.conditionalEnd? arms alt)
      ((arms.flatMap fun arm => arm.1.risks ++ arm.2.risks) ++ alt.toList.flatMap Outlook.risks ++
        if (cx.conditionalEnd? arms alt).isSome then []
        else arms.flatMap fun arm => cx.routine.delayErrors arm.1.region)
  chain items :=
    controlOutlook (.chain (items.map Outlook.region))
      ((cx.planned? items).bind fun planned => planned.2.result)
      (items.flatMap Outlook.risks ++ cx.chainErrors items)
  exit body dead :=
    controlOutlook (.exit body.region (dead.map Outlook.region)) none body.risks

def outlook (cx : Context) (region : Region) : Outlook := region.fold cx.outlookRules

variable {cx : Context} {depth : Nat} {s : FoldState} {block finish : BlockId} {register : Register}
  {hs : List Root} {items : List Region} {last region : Region} {required : Bool}
  {alt : Option Region} {arms : List RegionArm}

theorem outlook_region (region : Region) : (cx.outlook region).region = region :=
  fold_region cx.outlookRules Outlook.region (fun _ => rfl) (fun _ => rfl) (fun _ => rfl)
    (fun _ _ => rfl) (fun _ => rfl) (fun _ _ => rfl) region

theorem risks_sequence (items : List Region) :
    (cx.outlook (.sequence items)).risks = items.flatMap fun item => (cx.outlook item).risks := by
  rw [outlook, fold_sequence]
  exact flatMap_map ..

theorem risks_loop (items : List Region) :
    (cx.outlook (.loop items)).risks = items.flatMap fun item => (cx.outlook item).risks := by
  rw [outlook, fold_loop]
  exact flatMap_map ..

theorem risks_chain (items : List Region) :
    (cx.outlook (.chain items)).risks =
      (items.flatMap fun item => (cx.outlook item).risks) ++
        cx.chainErrors (items.map cx.outlook) := by
  rw [outlook, fold_chain]
  exact congrArg (· ++ _) (flatMap_map ..)

theorem risks_exit (body : Region) (dead : Option Region) :
    (cx.outlook (.exit body dead)).risks = (cx.outlook body).risks := by
  rw [outlook, fold_exit]
  rfl

/-- A piece that folds a region leaves what can be told of the region on top of the stack. -/
structure EndsAs (cx : Context) (region : Region) : Prop where
  push : ∀ {register}, (cx.outlook region).whole = some register → ∀ depth s hs, s.Sound hs →
    ((cx.piece region).push depth).Ends s fun _ s' => s'.stack.Assigns register
  pushBody : ∀ {register}, (cx.outlook region).body = some register → ∀ depth s hs, s.Sound hs →
    ((cx.piece region).pushBody depth).Ends s fun _ s' => s'.stack.Assigns register

theorem push_keepsSound (region : Region) : ((cx.piece region).push depth).KeepsSound :=
  ((piece_meets region).push depth).keepsSound
    ((piece_tame region depth).push depth (Nat.le_refl _)).tame.advances

theorem pushBody_keepsSound (region : Region) : ((cx.piece region).pushBody depth).KeepsSound :=
  ((piece_meets region).pushBody depth).keepsSound
    ((piece_tame region depth).pushBody depth (Nat.le_refl _)).tame.advances

theorem pieces_meet (items : List Region) :
    List.Forall₂ (Piece.Meets cx) (items.map cx.piece) (items.map cx.account) := by
  rw [forall₂_map_left_iff, forall₂_map_right_iff, forall₂_same]
  exact fun item _ => piece_meets item

theorem pieces_tame (items : List Region) :
    ∀ piece ∈ items.map cx.piece, piece.Bounded True (depth + 1) := by
  intro piece hpiece
  obtain ⟨item, -, rfl⟩ := mem_map.1 hpiece
  exact piece_tame item _

theorem pushRegions_keepsSound (items : List Region) : (cx.pushRegions depth items).KeepsSound :=
  (pushPieces_deposits (pieces_meet items)).keepsSound
    (pushPieces_bounded (pieces_tame items) (Nat.lt_succ_self _) 0).tame.advances

theorem applyIdiom_keepsSound (id : BlockId) (shape : IdiomShape) :
    (cx.applyIdiom id shape).KeepsSound := by
  cases shape with
  | typeOf shape =>
    exact applyTypeOf_deposits.keepsSound (applyTypeOf_bounded id shape).tame.advances
  | ash shape => exact applyAsh_deposits.keepsSound (applyAsh_bounded id shape).tame.advances
  | abs shape => exact applyAbs_deposits.keepsSound (applyAbs_bounded id shape).tame.advances

theorem limitDepth_ends {step : TryFoldM Unit} {Q : Unit → FoldState → Prop} (h : step.Ends s Q) :
    (cx.limitDepth depth step).Ends s Q := by
  unfold limitDepth
  split
  · exact ends_throw
  · exact h

theorem block_endsAs (hvalid : cx.routine.IsValid) {id : BlockId} {block : Block}
    (hblock : cx.routine.blocks[id]? = some block) : cx.EndsAs (.block id) where
  push {register} h depth s hs hsound := by
    have hend : cx.blockEnd? id = some register := h
    refine limitDepth_ends ?_
    have hnone : cx.tryIdioms [.block id] = pure 0 := by
      have hblocks : ∀ id', .block id' ∈ [Region.block id] →
          ∃ block, cx.routine.blocks[id']? = some block := by
        simp [hblock]
      rcases tryIdioms_eq hvalid hblocks with
        ⟨id', shape, hfinds, -⟩ | ⟨-, heq⟩
      · obtain ⟨rest, hleading, -, hshape⟩ := hfinds
        cases hleading
        exact absurd hshape.shape (Routine.not_hasShape_of_none (blockEnd?_eq_some hend).1 shape)
      · exact heq
    rw [hnone, pure_bind]
    exact pushBlock_assigns hend hsound.1
  pushBody {register} h depth s hs hsound := pushBlockBody_assigns h hsound.1

theorem pushBlock_keepsSound (id : BlockId) : (cx.pushBlock id).KeepsSound :=
  pushBlock_deposits.keepsSound (pushBlock_bounded id).tame.advances

theorem pushItem_keepsSound (item : Region) : (cx.pushItem depth item).KeepsSound := by
  unfold pushItem
  split
  · exact pushBlock_keepsSound _
  · exact push_keepsSound item

theorem pushItem_assigns {item : Region} (hends : cx.EndsAs item)
    (h : (cx.outlook item).whole = some register) (hsound : s.Sound hs) :
    (cx.pushItem depth item).Ends s fun _ s' => s'.stack.Assigns register := by
  unfold pushItem
  split
  · exact pushBlock_assigns h hsound.1
  · exact hends.push h _ s hs hsound

/-- Regions one after another assign last what the last one does. -/
theorem pushRegions_assigns (hvalid : cx.routine.IsValid) (hitems : ∀ item ∈ items, cx.EndsAs item)
    (hblocks : ∀ id, .block id ∈ items → ∃ block, cx.routine.blocks[id]? = some block)
    (hlast : items.getLast? = some last) (h : (cx.outlook last).whole = some register)
    (hsound : s.Sound hs) :
    (cx.pushRegions depth items).Ends s fun _ s' => s'.stack.Assigns register := by
  induction hlength : items.length using Nat.strong_induction_on generalizing items s with
  | _ length ih =>
    subst hlength
    cases items with
    | nil => cases hlast
    | cons item rest =>
      -- Behind what is folded first, either nothing is left or the last region still is.
      have hrest : ∀ {s' : FoldState} {more : List Region}, more <:+ item :: rest →
          more.length < (item :: rest).length → more ≠ [] → s'.Sound hs →
          (cx.pushRegions depth more).Ends s' fun _ s'' => s''.stack.Assigns register := by
        intro s' more hsuffix hlt hne hsound'
        refine ih _ hlt (fun item hitem => hitems item (hsuffix.subset hitem))
          (fun id hid => hblocks id (hsuffix.subset hid)) ?_ hsound' rfl
        obtain ⟨before, hbefore⟩ := hsuffix
        rw [← hbefore, getLast?_append_of_ne_nil _ hne] at hlast
        exact hlast
      rcases pushRegions_cons hvalid hblocks with ⟨id, shape, hfinds, heq⟩ | ⟨-, heq⟩
      · rw [heq, ends_bind]
        intro u hu
        have hsound' := applyIdiom_keepsSound id shape s hs hsound u hu
        have hwindow := hfinds.window_eq
        have hpos := shape.size_pos
        by_cases hmore : (item :: rest).drop shape.size = []
        · rw [hmore, append_nil] at hwindow
          have hblock : last = .block (id + shape.size - 1) := by
            rw [hwindow, getLast?_map, getLast?_range', if_neg (by omega)] at hlast
            exact (Option.some.inj hlast).symm
          rw [hblock] at h
          rw [hmore]
          exact ends_pure.2 (applyIdiom_assigns hfinds.shape h s u hu)
        · refine hrest (drop_suffix _ _) ?_ hmore hsound'
          rw [length_drop]
          simp only [length_cons]
          omega
      · rw [heq, ends_bind]
        intro u hu
        have hsound' := pushItem_keepsSound item s hs hsound u hu
        by_cases hmore : rest = []
        · subst hmore
          cases hlast
          exact ends_pure.2 (pushItem_assigns (hitems item mem_cons_self) h hsound u hu)
        · exact hrest (suffix_cons _ _) (Nat.lt_succ_self _) hmore hsound'

theorem pushControlValue_assigns (s : FoldState) (site : Nat) (dst : Variable) (element : Element) :
    (cx.pushControlValue site dst element).Ends s fun _ s' => s'.stack.Assigns dst.register := by
  rw [pushControlValue]
  refine FoldM.ends_true.bind fun f s' _ => ?_
  rw [FoldM.ends_bind, FoldM.ends_get]
  split
  · exact FoldM.ends_true.bind fun _ s'' _ => pushValue_assigns s'' dst f _
  · exact pushValue_assigns s' dst f _

theorem takeChainValue_register (last : Region) (tail : FormId) (register : Register)
    (s : FoldState) :
    (cx.takeChainValue last tail register).Ends s fun dst _ => dst.register = register := by
  rw [takeChainValue, ends_bind, ends_get]
  split
  · rename_i dst hdst
    rw [ends_bind]
    exact fun _ _ => ends_pure.2 (eq_of_beq (Option.filter_eq_some_iff.1 hdst).2)
  · rw [ends_bind]
    exact fun _ _ => ends_throw

/-- A chain that has a result is the value of its register. -/
theorem pushPlannedChain_assigns {plan : ChainPlan} (h : plan.result = some register)
    (entries : List Piece) (last : Piece) (s : FoldState) :
    (cx.pushPlannedChain plan entries last depth).Ends s fun _ s' =>
      s'.stack.Assigns register := by
  rw [pushPlannedChain]
  refine ends_true.bind fun built s₁ _ => ?_
  refine ends_true.bind fun tail s₂ _ => ?_
  rw [ends_bind, chainFinal, h]
  refine ends_map.2 ?_
  refine (takeChainValue_register _ _ _ s₂).mono fun dst s₃ hdst => ?_
  rw [← hdst]
  exact ends_lift.2 (pushControlValue_assigns s₃ _ dst _)

theorem planned?_eq (hlast : items.getLast? = some last) :
    cx.planned? (items.map cx.outlook) =
      (cx.routine.chainPlan items.dropLast last).toOption.map fun plan =>
        (cx.outlook last, plan) := by
  have hentries : (items.map cx.outlook).dropLast.map Outlook.region = items.dropLast := by
    rw [← map_dropLast, map_map]
    exact (map_congr_left fun item _ => outlook_region item).trans (map_id _)
  rw [planned?, getLast?_map, hlast]
  simp only [Option.map_some, Option.bind_eq_bind, Option.bind_some, outlook_region, hentries]
  cases (cx.routine.chainPlan items.dropLast last).toOption <;> rfl

theorem pushChain_eq (hlast : items.getLast? = some last) :
    cx.pushChain (items.map cx.piece) depth = (do
      let plan ← TryFoldM.ofExcept (cx.routine.chainPlan items.dropLast last)
      cx.pushPlannedChain plan (items.dropLast.map cx.piece) (cx.piece last) depth) := by
  unfold pushChain
  rw [getLast?_map, hlast, ← map_dropLast]
  dsimp only [Option.map_some]
  rw [map_piece_region, piece_region]

/-- A chain assigns last the register that it is the value of. -/
theorem pushChain_assigns
    (h : ((cx.planned? (items.map cx.outlook)).bind fun planned => planned.2.result) =
      some register) (s : FoldState) :
    (cx.pushChain (items.map cx.piece) depth).Ends s fun _ s' => s'.stack.Assigns register := by
  cases hlast : items.getLast? with
  | none =>
    rw [getLast?_eq_none_iff.1 hlast] at h
    cases h
  | some last =>
    rw [planned?_eq hlast] at h
    rw [pushChain_eq hlast, ends_bind, ends_ofExcept]
    intro plan hplan
    rw [hplan] at h
    exact pushPlannedChain_assigns h _ _ s

theorem pushThroughDelay_keepsSound (region : Region) (site : Nat) (branch : Branch) :
    (cx.pushThroughDelay (cx.piece region) site branch depth).KeepsSound :=
  (pushThroughDelay_deposits (piece_meets region)).keepsSound
    (pushThroughDelay_bounded (piece_tame region _) (Nat.le_refl _) site branch).tame.advances

theorem pushThroughDelay_assigns (hends : cx.EndsAs region) {site : Nat} {branch : Branch}
    (h : cx.throughDelay? (cx.outlook region) site branch = some register) (hsound : s.Sound hs) :
    (cx.pushThroughDelay (cx.piece region) site branch depth).Ends s fun _ s' =>
      s'.stack.Assigns register := by
  unfold throughDelay? at h
  unfold pushThroughDelay pushDelay
  rw [ends_bind]
  intro found hfound
  cases hop : branch.delaySlot? with
  | some op =>
    rw [hop] at h
    exact pushOperation_assigns h (pushBody_keepsSound region s hs hsound found hfound).1
  | none =>
    rw [hop] at h
    exact ends_pure.2 (hends.pushBody h depth s hs hsound found hfound)

theorem buildPiece_assigns (hends : cx.EndsAs region)
    (h : (cx.outlook region).whole = some register) (hsound : s.Sound hs) :
    (buildPiece (cx.piece region) depth).Ends s fun f s' =>
      ∃ dst, s'.pool.trailingSet? f = some dst ∧ dst.register = register :=
  (push_keepsSound region).ends_assigns (fun s hs hs' => hends.push h depth s hs hs') hsound

/-- An arm is built into a form that ends as the arm does. -/
theorem buildArm_assigns (hends : cx.EndsAs region)
    (h : cx.armEnd? finish (cx.outlook region) = some register) (hsound : s.Sound hs) :
    (cx.buildArm (cx.piece region) finish required depth).Ends s fun f s' =>
      ∃ dst, s'.pool.trailingSet? f = some dst ∧ dst.register = register := by
  rw [buildArm, ends_bind, ends_ofExcept]
  intro jump hjump
  rw [piece_region] at hjump
  rw [armEnd?, outlook_region, Routine.armJump_of_required hjump] at h
  cases jump with
  | none => exact buildPiece_assigns hends h hsound
  | some entry =>
    exact (pushThroughDelay_keepsSound region _ _).ends_assigns
      (fun s hs hs' => pushThroughDelay_assigns hends h hs') hsound

theorem buildArms_keeps {bodies : List Region} (hends : ∀ body ∈ bodies, cx.EndsAs body)
    {alt : Bool} (hsound : s.Sound hs) :
    (cx.buildArms finish alt depth (bodies.map cx.piece)).Ends s fun fs s' =>
      s'.Keeps (bodies.map fun body => cx.armEnd? finish (cx.outlook body)) fs hs := by
  induction bodies generalizing s hs with
  | nil => exact ends_pure.2 ⟨[], rfl, .nil, hsound⟩
  | cons body rest ih =>
    rw [map_cons, buildArms, ends_bind]
    have hbody := hends body mem_cons_self
    refine ((buildArm_builds (piece_meets body)).keeps
      (buildArm_bounded (piece_tame body _) (Nat.lt_succ_self _) _ _).tame.advances
      (fun register h => buildArm_assigns hbody h hsound) hsound).mono fun f s₁ hone => ?_
    obtain ⟨t, rfl, ht, hsound₁⟩ := hone
    refine (ih (fun item hitem => hends item (mem_cons_of_mem _ hitem)) hsound₁).bind
      fun fs s₂ hmore => ?_
    obtain ⟨ts, rfl, hts, hsound₂⟩ := hmore
    refine ends_pure.2 ⟨t :: ts, rfl, .cons ht hts, ?_⟩
    obtain ⟨hmode, E, hE⟩ := hsound₂
    exact ⟨hmode, E, hE.perm perm_middle⟩

variable {fs : List FormId} {branches : List (Nat × Branch)}

theorem buildOption_keeps {item : Option Region} (hends : ∀ region ∈ item, cx.EndsAs region)
    {ends : List (Option Register)} (hkeeps : s.Keeps ends fs hs) :
    (buildOption (item.map cx.piece) depth).Ends s fun f s' =>
      s'.Keeps (ends ++ item.toList.map fun region => (cx.outlook region).whole)
        (fs ++ f.toList) hs := by
  obtain ⟨ts, rfl, hts, hsound⟩ := hkeeps
  cases item with
  | none =>
    refine ends_pure.2 ⟨ts, ?_, ?_, hsound⟩
    · rw [Option.toList_none, append_nil]
    · rw [Option.toList_none, map_nil, append_nil]
      exact hts
  | some region =>
    rw [Option.map_some, buildOption]
    refine ((buildPiece_builds (piece_meets region)).keeps
      (buildPiece_bounded (piece_tame region _) (Nat.le_refl _)).tame.advances
      (fun register h => buildPiece_assigns (hends region rfl) h hsound)
      hsound).bind fun f s' hone => ?_
    obtain ⟨t, rfl, ht, hE⟩ := hone
    refine ends_pure.2 ⟨ts ++ [t], ?_, ?_, ?_⟩
    · rw [map_append]
      rfl
    · exact rel_append hts (.cons ht .nil)
    · obtain ⟨hmode, E, hE⟩ := hE
      refine ⟨hmode, E, hE.perm ?_⟩
      rw [map_append, append_assoc]
      exact perm_middle.symm

def armPieces (cx : Context) (arms : List RegionArm) : List (Piece × Piece) :=
  arms.map fun arm => (cx.piece arm.test, cx.piece arm.body)

def armOutlooks (cx : Context) (arms : List RegionArm) : List (Outlook × Outlook) :=
  arms.map fun arm => (cx.outlook arm.test, cx.outlook arm.body)

theorem risks_conditional (arms : List RegionArm) (alt : Option Region) :
    (cx.outlook (.conditional arms alt)).risks =
      (arms.flatMap fun arm => (cx.outlook arm.test).risks ++ (cx.outlook arm.body).risks) ++
        (alt.toList.flatMap fun region => (cx.outlook region).risks) ++
        if (cx.conditionalEnd? (cx.armOutlooks arms) (alt.map cx.outlook)).isSome then []
        else arms.flatMap fun arm => cx.routine.delayErrors arm.test := by
  have houtlook : cx.outlook (.conditional arms alt) =
      cx.outlookRules.conditional (cx.armOutlooks arms) (alt.map cx.outlook) :=
    fold_conditional cx.outlookRules arms alt
  have hother : (alt.map cx.outlook).toList.flatMap Outlook.risks =
      alt.toList.flatMap fun region => (cx.outlook region).risks := by
    cases alt <;> rfl
  rw [houtlook]
  simp only [outlookRules, controlOutlook, hother, armOutlooks, flatMap_map, outlook_region]
  rfl

theorem armPieces_bodies (arms : List RegionArm) :
    (cx.armPieces arms).map Prod.snd = (arms.map RegionArm.body).map cx.piece := by
  rw [armPieces, map_map, map_map]
  rfl

theorem armPieces_tests (arms : List RegionArm) :
    ((cx.armPieces arms).map fun arm => arm.1.region) = arms.map RegionArm.test := by
  rw [armPieces, map_map]
  exact map_congr_left fun arm _ => piece_region arm.test

theorem armOutlooks_tests (arms : List RegionArm) :
    ((cx.armOutlooks arms).map fun arm => arm.1.region) = arms.map RegionArm.test := by
  rw [armOutlooks, map_map]
  exact map_congr_left fun arm _ => outlook_region arm.test

theorem mapM_defaulted? {r : Routine} {tests : List Region}
    (h : r.TestsBy tests branches) :
    tests.mapM r.defaulted? = (branches.map Prod.snd).mapM Branch.falseDefault? := by
  induction h with
  | nil => rfl
  | cons hfirst hrest ih =>
    rw [map_cons, mapM_cons, mapM_cons, ih, Routine.defaulted?, hfirst]
    rfl

/-- Forms that all end by assigning a register have it as their common value. -/
theorem commonTrailing?_eq {p : Pool} (hne : fs ≠ [])
    (h : ∀ f ∈ fs, ∃ dst, p.trailingSet? f = some dst ∧ dst.register = register) :
    ∃ dst, p.commonTrailing? register fs = some dst ∧ dst.register = register := by
  have hvars : ∃ vars : List Variable, vars.length = fs.length ∧
      (∀ v ∈ vars, v.register = register) ∧
      (fs.mapM fun f => (p.trailingSet? f).filter fun v => v.register == register) = some vars := by
    clear hne
    induction fs with
    | nil => exact ⟨[], rfl, by simp, rfl⟩
    | cons f fs ih =>
      obtain ⟨dst, hdst, hreg⟩ := h f mem_cons_self
      obtain ⟨vars, hlength, hvars, hmap⟩ := ih fun f hf => h f (mem_cons_of_mem _ hf)
      refine ⟨dst :: vars, by rw [length_cons, length_cons, hlength], ?_, ?_⟩
      · exact forall_mem_cons.2 ⟨hreg, hvars⟩
      · have hfilter : (p.trailingSet? f).filter (fun v => v.register == register) = some dst :=
          Option.filter_eq_some_iff.2 ⟨hdst, beq_iff_eq.2 hreg⟩
        rw [mapM_cons, hfilter, hmap]
        rfl
  obtain ⟨vars, hlength, hregisters, hmap⟩ := hvars
  have hvars : vars ≠ [] := by
    rintro rfl
    exact hne (eq_nil_of_length_eq_zero hlength.symm)
  refine ⟨vars.getLast hvars, ?_, hregisters _ (getLast_mem hvars)⟩
  rw [Pool.commonTrailing?, hmap]
  exact getLast?_eq_some_getLast hvars

/-- A conditional whose arms surely assign a register is its value. -/
theorem conditionalValue?_eq {bodies : List FormId} {other : Option FormId}
    (h : cx.armsEnd? finish (cx.armOutlooks arms) (alt.map cx.outlook) = some register)
    (hbranches : cx.routine.TestsBy (arms.map RegionArm.test) branches)
    (hother : other.isSome = alt.isSome)
    (hkeeps : s.Keeps ((arms.map fun arm => cx.armEnd? finish (cx.outlook arm.body)) ++
      alt.toList.map fun region => (cx.outlook region).whole)
      (bodies ++ other.toList) hs) :
    ∃ dst, s.pool.conditionalValue? (branches.map Prod.snd) bodies other = some dst ∧
      dst.register = register := by
  obtain ⟨hvalue, hall⟩ := Option.filter_eq_some_iff.1 h
  rw [Bool.and_eq_true, all_eq_true, Option.all_eq_true] at hall
  have hends : ∀ e ∈ (arms.map fun arm => cx.armEnd? finish (cx.outlook arm.body)) ++
      alt.toList.map fun region => (cx.outlook region).whole, e = some register := by
    intro e he
    rcases mem_append.1 he with he | he
    · obtain ⟨arm, harm, rfl⟩ := mem_map.1 he
      exact eq_of_beq (hall.1 _ (mem_map_of_mem harm))
    · obtain ⟨region, hregion, rfl⟩ := mem_map.1 he
      rw [Option.mem_toList] at hregion
      exact eq_of_beq (hall.2 _ (Option.map_eq_some_iff.2 ⟨region, hregion, rfl⟩))
  have hforms := hkeeps.trailing hends
  have hbodies : bodies ≠ [] := by
    have hlength := hkeeps.length_eq
    have harms : arms ≠ [] := by
      rintro rfl
      cases alt <;> cases hvalue
    rintro rfl
    cases arms with
    | nil => exact harms rfl
    | cons arm rest => cases other <;> cases alt <;> simp at hlength hother
  have hfirst : (bodies.head?.bind s.pool.trailingSet?).map Variable.register = some register := by
    cases bodies with
    | nil => exact absurd rfl hbodies
    | cons f rest =>
      obtain ⟨dst, hdst, hreg⟩ := hforms f mem_cons_self
      rw [head?_cons, Option.bind_some, hdst, Option.map_some, hreg]
  obtain ⟨dst, hdst, hreg⟩ := commonTrailing?_eq
    (append_ne_nil_of_left_ne_nil hbodies other.toList) hforms
  refine ⟨dst, ?_, hreg⟩
  unfold Pool.conditionalValue?
  cases other with
  | some f => exact Option.bind_eq_some_iff.2 ⟨register, hfirst, hdst⟩
  | none =>
    cases alt with
    | some region => cases hother
    | none =>
      refine Option.bind_eq_some_iff.2 ⟨register, ?_, hdst⟩
      rw [← mapM_defaulted? hbranches, ← armOutlooks_tests, mapM_map]
      exact hvalue

theorem buildOption_isSome (item : Option Piece) (s : FoldState) :
    (buildOption item depth).Ends s fun f _ => f.isSome = item.isSome := by
  cases item with
  | none => exact ends_pure.2 rfl
  | some piece =>
    rw [buildOption, ends_bind]
    exact fun f _ => ends_pure.2 rfl

/-- When the arms of a conditional have been built, it is the value that it surely is. -/
theorem buildArms_value (harms : ∀ arm ∈ arms, cx.EndsAs arm.body)
    (hother : ∀ region ∈ alt, cx.EndsAs region)
    (h : cx.armsEnd? finish (cx.armOutlooks arms) (alt.map cx.outlook) = some register)
    (hbranches : cx.routine.TestsBy (arms.map RegionArm.test) branches) (hsound : s.Sound hs) :
    (cx.buildArms finish required depth ((arms.map RegionArm.body).map cx.piece)).Ends s
      fun bodies s₁ => (buildOption (alt.map cx.piece) (depth + 1)).Ends s₁ fun other s₂ =>
        ∃ dst, s₂.pool.conditionalValue? (branches.map Prod.snd) bodies other = some dst ∧
          dst.register = register := by
  have hbodies : ∀ body ∈ arms.map RegionArm.body, cx.EndsAs body := by
    intro body hbody
    obtain ⟨arm, harm, rfl⟩ := mem_map.1 hbody
    exact harms arm harm
  refine (buildArms_keeps hbodies hsound).mono fun bodies s₁ hkeeps => ?_
  rw [map_map] at hkeeps
  intro other hrun
  have hsame := buildOption_isSome (alt.map cx.piece) s₁ other hrun
  rw [Option.isSome_map] at hsame
  exact conditionalValue?_eq h hbranches hsame (buildOption_keeps hother hkeeps other hrun)

def conditionalStop? (arms : List RegionArm) (alt : Option Region) : Option BlockId :=
  arms.getLast?.bind fun last => (alt.getD last.body).lastBlock?

theorem conditionalEnd?_eq (hstop : conditionalStop? arms alt = some block) :
    cx.conditionalEnd? (cx.armOutlooks arms) (alt.map cx.outlook) =
      cx.armsEnd? (block + 1) (cx.armOutlooks arms) (alt.map cx.outlook) := by
  obtain ⟨last, hlast, hblock⟩ := Option.bind_eq_some_iff.1 hstop
  have hlast' : (cx.armOutlooks arms).getLast? =
      some (cx.outlook last.test, cx.outlook last.body) := by
    rw [armOutlooks, getLast?_map, hlast]
    rfl
  simp only [conditionalEnd?, hlast', Option.getD_map, outlook_region, hblock,
    Option.bind_eq_bind, Option.bind_some]

/-- A conditional with a last block is folded when its branches have been checked. -/
theorem pushConditional_eq (hstop : conditionalStop? arms alt = some block) :
    cx.pushConditional (cx.armPieces arms) (alt.map cx.piece) depth = (do
      let branches ← TryFoldM.ofExcept (cx.routine.skippingBranches
        ((alt.bind Region.firstBlock?) <|> some (block + 1)) (arms.map RegionArm.test))
      cx.pushArms (cx.armPieces arms) (alt.map cx.piece) branches (block + 1) depth) := by
  obtain ⟨last, hlast, hblock⟩ := Option.bind_eq_some_iff.1 hstop
  have hlast' : (cx.armPieces arms).getLast? = some (cx.piece last.test, cx.piece last.body) := by
    rw [armPieces, getLast?_map, hlast]
    rfl
  have hskip : ((alt.map cx.piece).bind fun piece => piece.region.firstBlock?) =
      alt.bind Region.firstBlock? := by
    rw [Option.bind_map]
    exact Option.bind_congr fun region _ => congrArg Region.firstBlock? (piece_region region)
  unfold pushConditional
  rw [hlast']
  dsimp only
  rw [Option.getD_map, piece_region, hblock]
  dsimp only
  rw [hskip, armPieces_tests]

/-- A conditional without a last block cannot be folded. -/
theorem pushConditional_throws (cx : Context) (depth : Nat)
    (hstop : conditionalStop? arms alt = none) :
    ∃ e, cx.pushConditional (cx.armPieces arms) (alt.map cx.piece) depth = throw e := by
  unfold pushConditional
  rw [armPieces, getLast?_map]
  cases hlast : arms.getLast? with
  | none => exact ⟨_, rfl⟩
  | some last =>
    rw [conditionalStop?, hlast, Option.bind_some] at hstop
    dsimp only [Option.map_some]
    rw [Option.getD_map, piece_region, hstop]
    exact ⟨_, rfl⟩

/-- A conditional assigns last the register that it surely is the value of. -/
theorem pushConditional_assigns (harms : ∀ arm ∈ arms, cx.EndsAs arm.body)
    (hother : ∀ region ∈ alt, cx.EndsAs region)
    (h : cx.conditionalEnd? (cx.armOutlooks arms) (alt.map cx.outlook) = some register)
    (hsound : s.Sound hs) :
    (cx.pushConditional (cx.armPieces arms) (alt.map cx.piece) depth).Ends s fun _ s' =>
      s'.stack.Assigns register := by
  cases hstop : conditionalStop? arms alt with
  | none =>
    obtain ⟨e, he⟩ := cx.pushConditional_throws depth hstop
    rw [he]
    exact ends_throw
  | some block =>
    rw [conditionalEnd?_eq hstop] at h
    rw [pushConditional_eq hstop, ends_bind, ends_ofExcept]
    intro branches hbranches
    rw [pushArms, armPieces_bodies]
    refine (buildArms_value harms hother h (Routine.skippingBranches_testsBy hbranches)
      hsound).bind fun bodies s₁ hbuilt => ?_
    refine hbuilt.bind fun other s₂ hvalue => ?_
    obtain ⟨dst, hdst, rfl⟩ := hvalue
    simp only [ends_bind, ends_get, hdst]
    refine ends_true.mono fun tests s₃ _ => ?_
    simp only [Option.isSome_some, if_true, ends_bind, ends_lift, FoldM.ends_changePool]
    exact pushControlValue_assigns _ _ _ _

theorem sequence_endsAs (hvalid : cx.routine.IsValid) (hitems : ∀ item ∈ items, cx.EndsAs item)
    (hblocks : ∀ id, .block id ∈ items → ∃ block, cx.routine.blocks[id]? = some block) :
    cx.EndsAs (.sequence items) := by
  have hpiece : cx.piece (.sequence items) = cx.sequencePiece (items.map cx.piece) :=
    fold_sequence cx.pieceRules items
  have houtlook : cx.outlook (.sequence items) = cx.outlookRules.sequence (items.map cx.outlook) :=
    fold_sequence cx.outlookRules items
  have hlast : ∀ {part : Outlook → Option Register} {register : Register},
      (items.map cx.outlook).getLast?.bind part = some register →
        ∃ last, items.getLast? = some last ∧ part (cx.outlook last) = some register := by
    intro part register h
    rw [getLast?_map, Option.bind_map] at h
    exact Option.bind_eq_some_iff.1 h
  constructor
  · intro register h depth s hs hsound
    rw [houtlook] at h
    obtain ⟨last, hend, hwhole⟩ := hlast h
    rw [hpiece]
    exact limitDepth_ends (pushRegions_assigns hvalid hitems hblocks hend hwhole hsound)
  · intro register h depth s hs hsound
    rw [houtlook] at h
    obtain ⟨last, hend, hbody⟩ := hlast h
    rw [hpiece, sequencePiece]
    dsimp only
    rw [getLast?_map, hend, ← map_dropLast]
    dsimp only [Option.map_some]
    rw [ends_bind]
    intro u hu
    exact (hitems last (mem_of_getLast? hend)).pushBody hbody _ _ hs
      (pushRegions_keepsSound items.dropLast s hs hsound u hu)

/-- A control region leaves what its step does. -/
theorem controlPiece_endsAs {region' region'' : Region} {step : Nat → TryFoldM Unit}
    {register? : Option Register} {risks : List Error}
    (hpiece : cx.piece region = cx.controlPiece region' step)
    (houtlook : cx.outlook region = controlOutlook region'' register? risks)
    (h : ∀ {register}, register? = some register → ∀ depth s hs, s.Sound hs →
      (step depth).Ends s fun _ s' => s'.stack.Assigns register) : cx.EndsAs region := by
  constructor
  · intro register hreg depth s hs hsound
    rw [houtlook] at hreg
    rw [hpiece]
    exact limitDepth_ends (h hreg depth s hs hsound)
  · intro register hreg depth s hs hsound
    rw [houtlook] at hreg
    rw [hpiece, controlPiece]
    dsimp only
    exact (limitDepth_ends (h hreg depth s hs hsound)).bind fun _ _ hassigns =>
      ends_pure.2 hassigns

/-- What can be told of a region holds however it is folded. -/
theorem piece_endsAs (hvalid : cx.routine.IsValid) (region : Region)
    (hcontains : cx.routine.Contains region) : cx.EndsAs region := by
  induction region using Region.induct with
  | hblock id =>
    obtain ⟨block, hblock⟩ := hcontains id mem_cons_self
    exact block_endsAs hvalid hblock
  | hsequence items ih =>
    exact sequence_endsAs hvalid (fun item h => ih item h (hcontains.child h)) fun id h =>
      hcontains.child h id mem_cons_self
  | hloop items ih =>
    exact controlPiece_endsAs (fold_loop cx.pieceRules items)
      (fold_loop cx.outlookRules items) (by simp)
  | hconditional arms alt iharms ihother =>
    refine controlPiece_endsAs (fold_conditional cx.pieceRules arms alt)
      (fold_conditional cx.outlookRules arms alt) fun h depth s hs hsound => ?_
    exact pushConditional_assigns (fun arm harm => (iharms arm harm).2 (hcontains.arm harm).2)
      (fun region hregion => ihother region hregion (hcontains.alternative hregion)) h hsound
  | hchain items ih =>
    exact controlPiece_endsAs (fold_chain cx.pieceRules items)
      (fold_chain cx.outlookRules items) fun h depth s hs _ => pushChain_assigns h s
  | hexit body dead ihbody ihdead =>
    exact controlPiece_endsAs (fold_exit cx.pieceRules body dead)
      (fold_exit cx.outlookRules body dead) (by simp)

/-- A conditional that turns out not to be a value was not surely one. -/
theorem conditionalEnd?_of_none (hvalid : cx.routine.IsValid)
    (hcontains : cx.routine.Contains (.conditional arms alt))
    (hstop : conditionalStop? arms alt = some block)
    (hbranches : cx.routine.TestsBy (arms.map RegionArm.test) branches) (hsound : s.Sound hs) :
    (cx.buildArms (block + 1) required depth ((arms.map RegionArm.body).map cx.piece)).Ends s
      fun bodies s₁ => (buildOption (alt.map cx.piece) (depth + 1)).Ends s₁ fun other s₂ =>
        s₂.pool.conditionalValue? (branches.map Prod.snd) bodies other = none →
          cx.conditionalEnd? (cx.armOutlooks arms) (alt.map cx.outlook) = none := by
  intro bodies hbodies other hother hnone
  by_contra hsome
  obtain ⟨register, hreg⟩ := Option.ne_none_iff_exists'.1 hsome
  rw [conditionalEnd?_eq hstop] at hreg
  obtain ⟨dst, hdst, -⟩ := buildArms_value
    (fun arm harm => piece_endsAs hvalid arm.body (hcontains.arm harm).2)
    (fun region hregion => piece_endsAs hvalid region (hcontains.alternative hregion))
    hreg hbranches hsound bodies hbodies other hother
  cases hnone.symm.trans hdst

end Context

end Decompiler
