import Decompiler.Proofs.Fold.Leaving

/-!
What folding a region adds to the stack.  A deposit says which marks and which control
structures a step may add.  The account of a region is computed from those of its parts
by one rule for each kind of region, as its piece is.
-/

namespace Decompiler

open List

/-- Induction over regions and their parts. -/
theorem Region.induct {P : Region → Prop} (hblock : ∀ id, P (.block id))
    (hsequence : ∀ items, (∀ item ∈ items, P item) → P (.sequence items))
    (hloop : ∀ items, (∀ item ∈ items, P item) → P (.loop items))
    (hconditional : ∀ arms alt, (∀ arm ∈ arms, P arm.test ∧ P arm.body) →
      (∀ region ∈ alt, P region) → P (.conditional arms alt))
    (hchain : ∀ items, (∀ item ∈ items, P item) → P (.chain items))
    (hexit : ∀ body dead, P body → (∀ region ∈ dead, P region) → P (.exit body dead)) :
    ∀ region, P region
  | .block id => hblock id
  | .sequence items => hsequence items fun item _hitem =>
      induct hblock hsequence hloop hconditional hchain hexit item
  | .loop items => hloop items fun item _hitem =>
      induct hblock hsequence hloop hconditional hchain hexit item
  | .conditional arms alt => hconditional arms alt
      (fun arm _harm => ⟨induct hblock hsequence hloop hconditional hchain hexit arm.test,
        induct hblock hsequence hloop hconditional hchain hexit arm.body⟩)
      (fun region _hregion => induct hblock hsequence hloop hconditional hchain hexit region)
  | .chain items => hchain items fun item _hitem =>
      induct hblock hsequence hloop hconditional hchain hexit item
  | .exit body dead => hexit body dead
      (induct hblock hsequence hloop hconditional hchain hexit body)
      (fun region _hregion => induct hblock hsequence hloop hconditional hchain hexit region)
termination_by region => sizeOf region
decreasing_by
  all_goals simp_wf
  · have := sizeOf_lt_of_mem _hitem
    omega
  · have := sizeOf_lt_of_mem _hitem
    omega
  · have := sizeOf_lt_of_mem _harm
    cases arm
    simp only [RegionArm.mk.sizeOf_spec] at *
    omega
  · have := sizeOf_lt_of_mem _harm
    cases arm
    simp only [RegionArm.mk.sizeOf_spec] at *
    omega
  · cases _hregion
    simp only [Option.some.sizeOf_spec]
    omega
  · have := sizeOf_lt_of_mem _hitem
    omega
  · omega
  · cases _hregion
    simp only [Option.some.sizeOf_spec]
    omega

/-- Induction over regions by the parts they have. -/
theorem Region.induct_children {P : Region → Prop}
    (h : ∀ region : Region, (∀ child ∈ region.children, P child) → P region) (region : Region) :
    P region := by
  induction region using Region.induct with
  | hblock id => exact h _ (by simp [Region.children])
  | hsequence items ih => exact h _ ih
  | hloop items ih => exact h _ ih
  | hconditional arms alt iharms ihother =>
    refine h _ fun child hchild => ?_
    rcases mem_append.1 hchild with hchild | hchild
    · obtain ⟨arm, harm, hpart⟩ := mem_flatMap.1 hchild
      rcases mem_cons.1 hpart with rfl | hpart
      · exact (iharms arm harm).1
      · exact mem_singleton.1 hpart ▸ (iharms arm harm).2
    · exact ihother child (Option.mem_toList.1 hchild)
  | hchain items ih => exact h _ ih
  | hexit body dead ihbody ihdead =>
    refine h _ fun child hchild => ?_
    rcases mem_cons.1 hchild with rfl | hchild
    · exact ihbody
    · exact ihdead child (Option.mem_toList.1 hchild)

variable {α : Type}

/-- What every rule keeps is true of what is computed from a region. -/
theorem Region.fold_induct (rules : RegionRules α) {P : α → Prop}
    (hblock : ∀ id, P (rules.block id))
    (hsequence : ∀ items, (∀ item ∈ items, P item) → P (rules.sequence items))
    (hloop : ∀ items, (∀ item ∈ items, P item) → P (rules.loop items))
    (hconditional : ∀ arms alt, (∀ arm ∈ arms, P arm.1 ∧ P arm.2) →
      (∀ item ∈ alt, P item) → P (rules.conditional arms alt))
    (hchain : ∀ items, (∀ item ∈ items, P item) → P (rules.chain items))
    (hexit : ∀ body dead, P body → (∀ item ∈ dead, P item) → P (rules.exit body dead))
    (region : Region) : P (region.fold rules) := by
  have hitems : ∀ items : List Region, (∀ item ∈ items, P (item.fold rules)) →
      ∀ value ∈ Region.foldItems rules items, P value := by
    intro items h value hvalue
    rw [Region.foldItems_eq_map] at hvalue
    obtain ⟨item, hitem, rfl⟩ := mem_map.1 hvalue
    exact h item hitem
  have hoption : ∀ region : Option Region, (∀ r ∈ region, P (r.fold rules)) →
      ∀ value ∈ Region.foldOption rules region, P value := by
    intro region h value hvalue
    rw [Region.foldOption_eq_map] at hvalue
    obtain ⟨r, hr, rfl⟩ := Option.map_eq_some_iff.1 hvalue
    exact h r hr
  induction region using Region.induct with
  | hblock id => exact hblock id
  | hsequence items ih => exact hsequence _ (hitems items ih)
  | hloop items ih => exact hloop _ (hitems items ih)
  | hconditional arms alt iharms ihother =>
    refine hconditional _ _ (fun value hvalue => ?_) (hoption alt ihother)
    rw [Region.foldArms_eq_map] at hvalue
    obtain ⟨arm, harm, rfl⟩ := mem_map.1 hvalue
    exact iharms arm harm
  | hchain items ih => exact hchain _ (hitems items ih)
  | hexit body dead ihbody ihdead => exact hexit _ _ ihbody (hoption dead ihdead)

namespace Region

variable {α : Type} (rules : RegionRules α)

theorem fold_sequence (items : List Region) :
    (sequence items).fold rules = rules.sequence (items.map (fold rules)) := by
  rw [fold, foldItems_eq_map]

theorem fold_loop (items : List Region) :
    (loop items).fold rules = rules.loop (items.map (fold rules)) := by
  rw [fold, foldItems_eq_map]

theorem fold_conditional (arms : List RegionArm) (alt : Option Region) :
    (conditional arms alt).fold rules =
      rules.conditional (arms.map fun arm => (arm.test.fold rules, arm.body.fold rules))
        (alt.map (fold rules)) := by
  rw [fold, foldArms_eq_map, foldOption_eq_map]

theorem fold_chain (items : List Region) :
    (chain items).fold rules = rules.chain (items.map (fold rules)) := by
  rw [fold, foldItems_eq_map]

theorem fold_exit (body : Region) (dead : Option Region) :
    (exit body dead).fold rules = rules.exit (body.fold rules) (dead.map (fold rules)) := by
  rw [fold, foldOption_eq_map]

end Region

/-- Rules that keep track of the region they are applied to end with that region. -/
theorem Region.fold_region (rules : RegionRules α) (regionOf : α → Region)
    (hblock : ∀ id, regionOf (rules.block id) = .block id)
    (hsequence : ∀ items, regionOf (rules.sequence items) = .sequence (items.map regionOf))
    (hloop : ∀ items, regionOf (rules.loop items) = .loop (items.map regionOf))
    (hconditional : ∀ arms alt, regionOf (rules.conditional arms alt) =
      .conditional (arms.map fun arm => ⟨regionOf arm.1, regionOf arm.2⟩) (alt.map regionOf))
    (hchain : ∀ items, regionOf (rules.chain items) = .chain (items.map regionOf))
    (hexit : ∀ body dead, regionOf (rules.exit body dead) =
      .exit (regionOf body) (dead.map regionOf)) (region : Region) :
    regionOf (region.fold rules) = region := by
  have hitems : ∀ items : List Region, (∀ item ∈ items, regionOf (item.fold rules) = item) →
      (Region.foldItems rules items).map regionOf = items := by
    intro items h
    rw [Region.foldItems_eq_map, map_map]
    exact (map_congr_left h).trans (map_id _)
  have hoption : ∀ region : Option Region, (∀ r ∈ region, regionOf (r.fold rules) = r) →
      (Region.foldOption rules region).map regionOf = region := by
    intro region h
    cases region with
    | none => rfl
    | some region => exact congrArg some (h region rfl)
  induction region using Region.induct with
  | hblock id => exact hblock id
  | hsequence items ih => exact (hsequence _).trans (congrArg Region.sequence (hitems items ih))
  | hloop items ih => exact (hloop _).trans (congrArg Region.loop (hitems items ih))
  | hconditional arms alt iharms ihother =>
    refine (hconditional _ _).trans (congrArg₂ Region.conditional ?_ (hoption alt ihother))
    rw [Region.foldArms_eq_map, map_map]
    refine (map_congr_left fun arm harm => ?_).trans (map_id _)
    obtain ⟨htest, hbody⟩ := iharms arm harm
    cases arm
    exact congrArg₂ RegionArm.mk htest hbody
  | hchain items ih => exact (hchain _).trans (congrArg Region.chain (hitems items ih))
  | hexit body dead ihbody ihdead =>
    exact (hexit _ _).trans (congrArg₂ Region.exit ihbody (hoption dead ihdead))

/-- The marks and the control structures that a step may add. -/
abbrev Deposit := Multiset Mark → List (Node FormTree) → Prop

namespace Deposit

def ofMarks (P : Multiset Mark → Prop) : Deposit := fun A D => P A ∧ D = []

def seq (P Q : Deposit) : Deposit := fun A D =>
  ∃ A₁ D₁ A₂ D₂, P A₁ D₁ ∧ Q A₂ D₂ ∧ A = A₁ + A₂ ∧ D = D₁ ++ D₂

/-- A form whose elements are what was deposited. -/
def Makes (P : Deposit) (t : FormTree) : Prop := ∃ A D, P A D ∧ Shows t.nodes A D

end Deposit

/-- A region and what folding it may add: all of it, or up to the branch that ends it. -/
structure RegionAccount where
  region : Region
  whole : Deposit
  body : Deposit

namespace Context

/-- The marks that instructions leave. -/
inductive SitesLeave (cx : Context) : List Nat → Multiset Mark → Prop
  | nil : SitesLeave cx [] 0
  | cons {site : Nat} {instr : Instruction} {sites : List Nat} {A B : Multiset Mark}
      (hinstr : cx.routine.instruction site = .ok instr)
      (hleaves : instr.op.Leaves site A) (hrest : SitesLeave cx sites B) :
      SitesLeave cx (site :: sites) (A + B)

/-- The marks that the delay slot of a branch leaves. -/
def DelayLeaves (site : Nat) (branch : Branch) (A : Multiset Mark) : Prop :=
  match branch.delaySlot? with
  | some op => op.Leaves site A
  | none => A = 0

/-- The marks that a block leaves up to the branch that ends it. -/
def BodyLeaves (cx : Context) (id : BlockId) (A : Multiset Mark) : Prop :=
  ∃ block terminator, cx.routine.block id = .ok block ∧
    cx.routine.terminator id = .ok terminator ∧
    cx.SitesLeave
      (List.range' block.start ((terminator.map Prod.fst).getD block.stop - block.start)) A

/-- The marks that the branch at the end of a block leaves. -/
def TerminatorLeaves (cx : Context) (id : BlockId) (A : Multiset Mark) : Prop :=
  ∃ terminator, cx.routine.terminator id = .ok terminator ∧
    match terminator with
    | none => A = 0
    | some (site, branch) =>
      if branch.isJump && branch.target == id + 1 then DelayLeaves site branch A
      else cx.SitesLeave [site] A

/-- The marks that an idiom in some consecutive blocks leaves. -/
inductive IdiomLeaves (cx : Context) (id : BlockId) : Nat → Multiset Mark → Prop
  | typeOf {shape : TypeOfShape} {block : Block} {A : Multiset Mark}
      (hallowed : cx.config.allows .typeOf = true)
      (hmatch : cx.routine.matchTypeOf id = .ok (some shape))
      (hblock : cx.routine.block id = .ok block)
      (hsites : cx.SitesLeave (List.range' block.start (shape.tagSite - block.start)) A) :
      IdiomLeaves cx id 3 A
  | ash {shape : AshShape} {A : Multiset Mark} (hallowed : cx.config.allows .ash = true)
      (hmatch : cx.routine.matchAsh id = .ok (some shape)) (hbody : cx.BodyLeaves id A) :
      IdiomLeaves cx id 2 A
  | abs {shape : AbsShape} {A : Multiset Mark} (hallowed : cx.config.allows .abs = true)
      (hmatch : cx.routine.matchAbs id = .ok (some shape)) (hbody : cx.BodyLeaves id A) :
      IdiomLeaves cx id 1 A

/-- What regions one after another add; an idiom takes several blocks at once. -/
inductive ItemsDeposit (cx : Context) : List RegionAccount → Deposit
  | nil : ItemsDeposit cx [] 0 []
  | idiom {id : BlockId} {count : Nat} {items rest : List RegionAccount} {A A' : Multiset Mark}
      {D : List (Node FormTree)} (hidiom : cx.IdiomLeaves id count A)
      (hitems : items.map RegionAccount.region = (List.range' id count).map .block)
      (hrest : ItemsDeposit cx rest A' D) : ItemsDeposit cx (items ++ rest) (A + A') D
  | item {item : RegionAccount} {rest : List RegionAccount} {A A' : Multiset Mark}
      {D D' : List (Node FormTree)} (hitem : item.whole A D)
      (hrest : ItemsDeposit cx rest A' D') : ItemsDeposit cx (item :: rest) (A + A') (D ++ D')

/-- What a region and the delay slot of its branch add. -/
def ThroughDelay (item : RegionAccount) (site : Nat) (branch : Branch) : Deposit :=
  item.body.seq (.ofMarks (DelayLeaves site branch))

/-- A test that was taken out of a region: what the region computes, then the condition of
its branch. -/
inductive Captures (cx : Context) (item : RegionAccount) (flipped emit : Bool) : FormTree → Prop
  | intro {f : FormId} {site : Nat} {branch : Branch} {A A' B : Multiset Mark}
      {D ns : List (Node FormTree)} {condition : FormTree}
      (hbranch : cx.routine.expectBranch item.region true = .ok (site, branch))
      (hbody : item.body A D) (hdelay : if emit then DelayLeaves site branch B else B = 0)
      (hcondition : ConditionTree cx site flipped condition) (hshows : Shows ns A' D)
      (hmarks : A' + condition.marks = A + B) :
      Captures cx item flipped emit (.mk f (ns ++ condition.nodes))

inductive LoopDeposit (cx : Context) : List RegionAccount → Deposit
  | entersAtTest {first : RegionAccount} {rest : List RegionAccount} {site : Nat} {jump : Branch}
      {A : Multiset Mark} {D : List (Node FormTree)} {test body : FormTree} {clean : Bool}
      {e : ElementId}
      (hlayout : cx.routine.loopLayout first.region (rest.getLastD first).region
        (rest.map RegionAccount.region) = .ok (.entersAtTest site jump))
      (hfirst : ThroughDelay first site jump A D)
      (hbody : Deposit.Makes (cx.ItemsDeposit rest.dropLast) body)
      (htest : cx.Captures (rest.getLastD first) false true test) :
      LoopDeposit cx (first :: rest) A
        (D ++ [⟨e, .loop .whileTrue test.id body.id clean, [test, body]⟩])
  | testsLast {first : RegionAccount} {rest : List RegionAccount} {test body : FormTree}
      {clean : Bool} {e : ElementId}
      (hlayout : cx.routine.loopLayout first.region (rest.getLastD first).region
        (rest.map RegionAccount.region) = .ok .testsLast)
      (hbody : Deposit.Makes (cx.ItemsDeposit (first :: rest).dropLast) body)
      (htest : cx.Captures (rest.getLastD first) true true test) :
      LoopDeposit cx (first :: rest) 0
        [⟨e, .loop .untilTrue test.id body.id clean, [body, test]⟩]
  | testsFirst {first : RegionAccount} {rest : List RegionAccount} {site : Nat} {back : Branch}
      {test body : FormTree} {clean : Bool} {e : ElementId}
      (hlayout : cx.routine.loopLayout first.region (rest.getLastD first).region
        (rest.map RegionAccount.region) = .ok (.testsFirst site back))
      (htest : cx.Captures first true true test)
      (hbody : Deposit.Makes ((cx.ItemsDeposit rest.dropLast).seq
        (ThroughDelay (rest.getLastD first) site back)) body) :
      LoopDeposit cx (first :: rest) 0
        [⟨e, .loop .whileTrue test.id body.id clean, [test, body]⟩]

/-- The form of an arm, without its jump to the end. -/
def ArmMakes (cx : Context) (finish : BlockId) (required : Bool) (item : RegionAccount)
    (t : FormTree) : Prop :=
  ∃ jump, cx.routine.armJump item.region finish required = .ok jump ∧
    match jump with
    | none => Deposit.Makes item.whole t
    | some (site, branch) => Deposit.Makes (ThroughDelay item site branch) t

/-- The forms of arms; every one but the last must jump to the end, and the last one too when
there is an alternative. -/
inductive ArmsMake (cx : Context) (finish : BlockId) (alt : Bool) :
    List RegionAccount → List FormTree → Prop
  | nil : ArmsMake cx finish alt [] []
  | cons {item : RegionAccount} {rest : List RegionAccount} {t : FormTree} {ts : List FormTree}
      (harm : cx.ArmMakes finish (alt || !rest.isEmpty) item t)
      (hrest : ArmsMake cx finish alt rest ts) :
      ArmsMake cx finish alt (item :: rest) (t :: ts)

/-- The parts of a conditional: its tests, its arms and the alternative. -/
structure ConditionalParts (cx : Context) (arms : List (RegionAccount × RegionAccount))
    (alt : Option RegionAccount) (emit : Bool) (tests bodies : List FormTree)
    (other : Option FormTree) : Prop where
  bodies : ∃ last block branches, arms.getLast? = some last ∧
    (alt.getD last.2).region.lastBlock? = some block ∧
    cx.routine.skippingBranches
      ((alt.bind fun item => item.region.firstBlock?) <|> some (block + 1))
      (arms.map fun arm => arm.1.region) = .ok branches ∧
    cx.ArmsMake (block + 1) alt.isSome (arms.map Prod.snd) bodies
  tests : List.Forall₂ (fun arm t => cx.Captures arm.1 true emit t) arms tests
  other : List.Forall₂ (fun item t => Deposit.Makes item.whole t) alt.toList other.toList

/-- The children of a conditional. -/
def conditionalKids (tests bodies : List FormTree) (other : Option FormTree) : List FormTree :=
  ((tests.zip bodies).flatMap fun arm => [arm.1, arm.2]) ++ other.toList

/-- What a conditional adds: a control structure, or a value. -/
inductive ConditionalDeposit (cx : Context) (arms : List (RegionAccount × RegionAccount))
    (alt : Option RegionAccount) : Deposit
  | statement {tests bodies : List FormTree} {other : Option FormTree}
      {captured : List CapturedTest} {e : ElementId}
      (hparts : cx.ConditionalParts arms alt true tests bodies other)
      (hcaptured : captured.map CapturedTest.form = tests.map FormTree.id) :
      ConditionalDeposit cx arms alt 0
        [⟨e, conditionalElement captured (bodies.map FormTree.id) (other.map FormTree.id) none,
          conditionalKids tests bodies other⟩]
  | value {emit : Bool} {tests bodies : List FormTree} {other : Option FormTree}
      (hparts : cx.ConditionalParts arms alt emit tests bodies other) :
      ConditionalDeposit cx arms alt
        ({.rewritten} + ((conditionalKids tests bodies other).map FormTree.marks).sum) []

/-- The parts of a chain: its tests and its last entry. -/
structure ChainParts (cx : Context) (items : List RegionAccount) (plan : ChainPlan)
    (tests : List FormTree) (tail : FormTree) : Prop where
  parts : ∃ last, items.getLast? = some last ∧
    cx.routine.chainPlan (items.dropLast.map RegionAccount.region) last.region = .ok plan ∧
    List.Forall₂
      (fun entry t =>
        cx.Captures entry.1 (plan.kind == .conjunction) (!entry.2.defaulted.isSome) t)
      (items.dropLast.zip plan.tests) tests ∧
    Deposit.Makes last.whole tail

/-- What a chain adds: a control structure, or a value. -/
inductive ChainDeposit (cx : Context) (items : List RegionAccount) : Deposit
  | statement {plan : ChainPlan} {tests : List FormTree} {tail : FormTree}
      {entries : List ChainEntry} {e : ElementId} (hparts : cx.ChainParts items plan tests tail)
      (hresult : plan.result = none)
      (hentries : entries.map ChainEntry.condition = (tests ++ [tail]).map FormTree.id) :
      ChainDeposit cx items 0 [⟨e, .chain plan.kind entries none false false, tests ++ [tail]⟩]
  | value {plan : ChainPlan} {tests : List FormTree} {tail : FormTree}
      (hparts : cx.ChainParts items plan tests tail) :
      ChainDeposit cx items ({.rewritten} + ((tests ++ [tail]).map FormTree.marks).sum) []

/-- The marks that blocks leave when all their instructions stay as they are. -/
inductive VerbatimLeaves (cx : Context) : List BlockId → Multiset Mark → Prop
  | nil : VerbatimLeaves cx [] 0
  | cons {id : BlockId} {block : Block} {ids : List BlockId} {A B : Multiset Mark}
      (hblock : cx.routine.block id = .ok block) (hsites : cx.SitesLeave block.sites A)
      (hrest : VerbatimLeaves cx ids B) : VerbatimLeaves cx (id :: ids) (A + B)

inductive ExitDeposit (cx : Context) (body : RegionAccount) (dead : Option Region) : Deposit
  | intro {site : Nat} {jump : Branch} {kind : ExitKind} {A : Multiset Mark}
      {D : List (Node FormTree)} {code : FormTree} {deads : Option FormTree} {e : ElementId}
      (hjump : cx.routine.expectBranch body.region false = .ok (site, jump))
      (hcode : ThroughDelay body site jump A D)
      (hmarks : code.marks = A + (D.map Node.marks).sum)
      (hdead : List.Forall₂ (fun region t => cx.VerbatimLeaves region.blockIds t.marks)
        dead.toList deads.toList) :
      ExitDeposit cx body dead 0
        [⟨e, .exit kind code.id (deads.map FormTree.id) site, code :: deads.toList⟩]

def blockAccount (cx : Context) (id : BlockId) : RegionAccount where
  region := .block id
  whole := fun A D =>
    Deposit.ofMarks (cx.IdiomLeaves id 1) A D ∨
      (Deposit.ofMarks (cx.BodyLeaves id)).seq (.ofMarks (cx.TerminatorLeaves id)) A D
  body := .ofMarks (cx.BodyLeaves id)

def sequenceAccount (cx : Context) (items : List RegionAccount) : RegionAccount where
  region := .sequence (items.map RegionAccount.region)
  whole := cx.ItemsDeposit items
  body :=
    match items.getLast? with
    | none => .ofMarks fun A => A = 0
    | some last => (cx.ItemsDeposit items.dropLast).seq last.body

def controlAccount (region : Region) (deposit : Deposit) : RegionAccount :=
  ⟨region, deposit, deposit⟩

/-- What each kind of region adds. -/
def accountRules (cx : Context) : RegionRules RegionAccount where
  block := cx.blockAccount
  sequence := cx.sequenceAccount
  loop items := controlAccount (.loop (items.map RegionAccount.region)) (cx.LoopDeposit items)
  conditional arms alt :=
    controlAccount
      (.conditional (arms.map fun arm => ⟨arm.1.region, arm.2.region⟩)
        (alt.map RegionAccount.region))
      (cx.ConditionalDeposit arms alt)
  chain items := controlAccount (.chain (items.map RegionAccount.region)) (cx.ChainDeposit items)
  exit body dead :=
    controlAccount (.exit body.region (dead.map RegionAccount.region))
      (cx.ExitDeposit body (dead.map RegionAccount.region))

def account (cx : Context) (region : Region) : RegionAccount := region.fold cx.accountRules

theorem account_region {cx : Context} (region : Region) : (cx.account region).region = region :=
  Region.fold_region cx.accountRules RegionAccount.region (fun _ => rfl) (fun _ => rfl)
    (fun _ => rfl) (fun _ _ => rfl) (fun _ => rfl) (fun _ _ => rfl) region

end Context

end Decompiler
