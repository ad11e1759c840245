import Decompiler.Proofs.Structure.Deposits
import Mathlib.Data.List.Forall2

/-!
What is known when a look-up or a check of the routine succeeds.
-/

namespace Decompiler

open List Region

variable {α β : Type}

theorem bind_eq_ok {x : Except Error α} {k : α → Except Error β} {b : β} :
    (x >>= k) = .ok b ↔ ∃ a, x = .ok a ∧ k a = .ok b := by
  cases x with
  | error e =>
    constructor
    · intro h
      cases h
    · rintro ⟨_, h, -⟩
      cases h
  | ok a =>
    constructor
    · intro h
      exact ⟨a, rfl, h⟩
    · rintro ⟨_, ⟨⟩, h⟩
      exact h

theorem pure_eq_ok {a b : α} : (pure a : Except Error α) = .ok b ↔ a = b :=
  ⟨fun h => by cases h; rfl, fun h => by rw [h]; rfl⟩

theorem mapM_eq_ok {check : α → Except Error β} {as : List α} {bs : List β}
    (h : as.mapM check = .ok bs) : List.Forall₂ (fun a b => check a = .ok b) as bs := by
  induction as generalizing bs with
  | nil =>
    rw [mapM_nil] at h
    cases pure_eq_ok.1 h
    exact .nil
  | cons a as ih =>
    rw [mapM_cons] at h
    obtain ⟨b, hb, h⟩ := bind_eq_ok.1 h
    obtain ⟨bs, hbs, h⟩ := bind_eq_ok.1 h
    cases pure_eq_ok.1 h
    exact .cons hb (ih hbs)

theorem of_guard {p : Prop} [Decidable p] {u : Unit} (h : (guard p : Option Unit) = some u) : p := by
  unfold guard at h
  split at h
  · assumption
  · cases h

namespace Region

@[simp] theorem blockIds_block (id : BlockId) : (block id).blockIds = [id] := rfl

@[simp] theorem blockIds_sequence (items : List Region) :
    (sequence items).blockIds = items.flatMap blockIds := by
  rw [blockIds, fold, foldItems_eq_map, flatMap_def]

@[simp] theorem blockIds_loop (items : List Region) :
    (loop items).blockIds = items.flatMap blockIds := by
  rw [blockIds, fold, foldItems_eq_map, flatMap_def]

@[simp] theorem blockIds_conditional (arms : List RegionArm) (alt : Option Region) :
    (conditional arms alt).blockIds =
      (arms.flatMap fun arm => arm.test.blockIds ++ arm.body.blockIds) ++
        alt.toList.flatMap blockIds := by
  rw [blockIds, fold, foldArms_eq_map]
  dsimp only
  rw [flatMap_map]
  cases alt with
  | none => rfl
  | some region =>
    rw [Option.toList_some, flatMap_singleton]
    rfl

@[simp] theorem blockIds_chain (items : List Region) :
    (chain items).blockIds = items.flatMap blockIds := by
  rw [blockIds, fold, foldItems_eq_map, flatMap_def]

@[simp] theorem blockIds_exit (body : Region) (dead : Option Region) :
    (exit body dead).blockIds = body.blockIds ++ dead.toList.flatMap blockIds := by
  rw [blockIds, fold]
  cases dead with
  | none => rfl
  | some region =>
    rw [Option.toList_some, flatMap_singleton]
    rfl

end Region

namespace Routine

def BranchAt (r : Routine) (site : Nat) (branch : Branch) : Prop :=
  ∃ instr, r.code[site]? = some instr ∧ instr.op = .branch branch

variable {r : Routine} {site : Nat} {id finish : BlockId} {branch : Branch} {region last : Region}
  {rest : List Region} {body first : Region} {required : Bool} {layout : LoopLayout}
  {dst : Variable}

theorem instruction_eq_ok {instr : Instruction} :
    r.instruction site = .ok instr ↔ r.code[site]? = some instr := by
  unfold Routine.instruction
  split <;> simp_all

theorem block_eq_ok {block : Block} : r.block id = .ok block ↔ r.blocks[id]? = some block := by
  unfold Routine.block
  split <;> simp_all

theorem eq_branch_of_branch? {op : Operation} (h : op.branch? = some branch) :
    op = .branch branch := by
  cases op <;> cases h
  rfl

/-- The branch that ends a block stands at its last position. -/
theorem terminator_eq_some (h : r.terminator id = .ok (some (site, branch))) :
    ∃ block, r.blocks[id]? = some block ∧ block.start < block.stop ∧ site = block.stop - 1 ∧
      r.BranchAt site branch := by
  unfold terminator at h
  obtain ⟨block, hblock, h⟩ := bind_eq_ok.1 h
  split at h
  · cases h
  · rename_i hempty
    obtain ⟨instr, hinstr, h⟩ := bind_eq_ok.1 h
    obtain ⟨branch', hbranch, hentry⟩ := Option.map_eq_some_iff.1 (pure_eq_ok.1 h)
    cases hentry
    refine ⟨block, block_eq_ok.1 hblock, ?_, rfl, instr, instruction_eq_ok.1 hinstr,
      eq_branch_of_branch? hbranch⟩
    rw [Block.isEmpty, decide_eq_true_eq] at hempty
    omega

theorem regionTerminator_sequence (items : List Region) :
    r.regionTerminator (.sequence items) =
      (items.getLast?.map r.regionTerminator).getD (.ok none) := by
  rw [regionTerminator, Region.fold, foldItems_eq_map]
  dsimp only
  rw [getLast?_map]

/-- The branch that ends a region ends one of its blocks, the last one. -/
theorem regionTerminator_eq_some (h : r.regionTerminator region = .ok (some (site, branch))) :
    ∃ id, region.lastBlock? = some id ∧ r.terminator id = .ok (some (site, branch)) := by
  induction region using Region.induct with
  | hblock id => exact ⟨id, rfl, h⟩
  | hsequence items ih =>
    rw [regionTerminator_sequence] at h
    rcases eq_nil_or_concat items with rfl | ⟨init, last, rfl⟩
    · cases h
    · rw [concat_eq_append] at ih h ⊢
      rw [getLast?_concat] at h
      obtain ⟨id, hid, hterm⟩ := ih last (mem_append_right _ mem_cons_self) h
      refine ⟨id, ?_, hterm⟩
      rw [Region.lastBlock?] at hid ⊢
      rw [blockIds_sequence, flatMap_append, flatMap_singleton, getLast?_append, hid]
      rfl
  | hloop items ih => cases h
  | hconditional arms alt iharms ihother => cases h
  | hchain items ih => cases h
  | hexit body dead ihbody ihdead => cases h

theorem expectBranch_eq_ok {conditional : Bool}
    (h : r.expectBranch region conditional = .ok (site, branch)) :
    r.regionTerminator region = .ok (some (site, branch)) ∧ branch.isJump = !conditional := by
  unfold expectBranch at h
  obtain ⟨terminator, hterm, h⟩ := bind_eq_ok.1 h
  cases terminator with
  | none => cases h
  | some entry =>
    obtain ⟨site', branch'⟩ := entry
    dsimp only at h
    split at h
    · rename_i hjump
      cases pure_eq_ok.1 h
      refine ⟨hterm, ?_⟩
      revert hjump
      cases branch.isJump <;> cases conditional <;> decide
    · cases h

theorem regionTerminator_branchAt (h : r.regionTerminator region = .ok (some (site, branch))) :
    r.BranchAt site branch := by
  obtain ⟨id, -, hterm⟩ := regionTerminator_eq_some h
  obtain ⟨block, -, -, -, hbranch⟩ := terminator_eq_some hterm
  exact hbranch

theorem armJump_eq_some (h : r.armJump body finish required = .ok (some (site, branch))) :
    r.regionTerminator body = .ok (some (site, branch)) ∧ branch.isJump = true ∧
      branch.target = finish := by
  unfold armJump at h
  obtain ⟨terminator, hterm, h⟩ := bind_eq_ok.1 h
  split at h
  · rename_i jump hfilter
    cases pure_eq_ok.1 h
    obtain ⟨rfl, hjump⟩ := Option.filter_eq_some_iff.1 hfilter
    rw [Bool.and_eq_true, beq_iff_eq] at hjump
    exact ⟨hterm, hjump⟩
  · split at h
    · cases h
    · cases h

theorem armJump_eq_none (h : r.armJump body finish required = .ok none) : required = false := by
  unfold armJump at h
  obtain ⟨terminator, hterm, h⟩ := bind_eq_ok.1 h
  split at h
  · cases h
  · split at h
    · cases h
    · rename_i hrequired
      exact Bool.eq_false_iff.2 hrequired

/-- What the jump at the end of an arm is does not depend on whether there has to be one. -/
theorem armJump_of_required {jump : Option (Nat × Branch)}
    (h : r.armJump body finish required = .ok jump) : r.armJump body finish false = .ok jump := by
  unfold armJump at h ⊢
  obtain ⟨terminator, hterm, h⟩ := bind_eq_ok.1 h
  refine bind_eq_ok.2 ⟨terminator, hterm, ?_⟩
  split at h
  · exact h
  · split at h
    · cases h
    · exact h

variable {test : Region} {branches : List (Nat × Branch)}

theorem skippingBranch_eq_ok {target : Option BlockId}
    (h : r.skippingBranch test target = .ok (site, branch)) :
    r.expectBranch test true = .ok (site, branch) ∧ some branch.target = target := by
  unfold skippingBranch at h
  obtain ⟨⟨site', branch'⟩, hbranch, h⟩ := bind_eq_ok.1 h
  dsimp only at h
  split at h
  · cases h
  · rename_i htarget
    cases pure_eq_ok.1 h
    exact ⟨hbranch, not_not.1 htarget⟩

/-- The branch of the first of some tests leads to the next one, or past the last one. -/
theorem skippingBranches_cons {finish : Option BlockId}
    (h : r.skippingBranches finish (test :: rest) = .ok branches) :
    ∃ site branch branches', r.expectBranch test true = .ok (site, branch) ∧
      some branch.target = (rest.head?.map Region.firstBlock?).getD finish ∧
        r.skippingBranches finish rest = .ok branches' := by
  cases rest with
  | nil =>
    rw [skippingBranches] at h
    obtain ⟨⟨site, branch⟩, hbranch, -⟩ := bind_eq_ok.1 h
    obtain ⟨hexpect, htarget⟩ := skippingBranch_eq_ok hbranch
    exact ⟨site, branch, [], hexpect, htarget, rfl⟩
  | cons next rest =>
    rw [skippingBranches] at h
    obtain ⟨⟨site, branch⟩, hbranch, h⟩ := bind_eq_ok.1 h
    obtain ⟨branches', hrest, -⟩ := bind_eq_ok.1 h
    obtain ⟨hexpect, htarget⟩ := skippingBranch_eq_ok hbranch
    exact ⟨site, branch, branches', hexpect, htarget, hrest⟩

/-- Tests with the branches that end them. -/
abbrev TestsBy (r : Routine) : List Region → List (Nat × Branch) → Prop :=
  List.Forall₂ fun test entry => r.expectBranch test true = .ok entry

theorem skippingBranches_testsBy {finish : Option BlockId} {tests : List Region}
    (h : r.skippingBranches finish tests = .ok branches) : r.TestsBy tests branches := by
  fun_induction skippingBranches r finish tests generalizing branches with
  | case1 =>
    cases pure_eq_ok.1 h
    exact .nil
  | case2 test =>
    obtain ⟨entry, hentry, h⟩ := bind_eq_ok.1 h
    cases pure_eq_ok.1 h
    exact .cons (skippingBranch_eq_ok hentry).1 .nil
  | case3 test next rest ih =>
    obtain ⟨entry, hentry, h⟩ := bind_eq_ok.1 h
    obtain ⟨entries, hentries, h⟩ := bind_eq_ok.1 h
    cases pure_eq_ok.1 h
    exact .cons (skippingBranch_eq_ok hentry).1 (ih hentries)

/-- What the layout of a loop says about its branches. -/
inductive LaidOut (r : Routine) (first last : Region) (rest : List Region) : LoopLayout → Prop
  | entersAtTest {site backSite : Nat} {jump back : Branch} {second : Region}
      (hsecond : rest.head? = some second)
      (hjump : r.regionTerminator first = .ok (some (site, jump))) (hisJump : jump.isJump = true)
      (htarget : some jump.target = last.firstBlock?)
      (hback : r.expectBranch last true = .ok (backSite, back))
      (hbackTarget : some back.target = second.firstBlock?) :
      LaidOut r first last rest (.entersAtTest site jump)
  | testsLast {backSite : Nat} {back : Branch}
      (hback : r.regionTerminator last = .ok (some (backSite, back)))
      (hisJump : back.isJump = false) (htarget : some back.target = first.firstBlock?) :
      LaidOut r first last rest .testsLast
  | testsFirst {site leaveSite : Nat} {back leave : Branch} (hrest : rest ≠ [])
      (hleave : r.expectBranch first true = .ok (leaveSite, leave))
      (hleaveTarget : some leave.target = last.lastBlock?.map (· + 1))
      (hback : r.expectBranch last false = .ok (site, back))
      (htarget : some back.target = first.firstBlock?) :
      LaidOut r first last rest (.testsFirst site back)

theorem testsFirstLayout_laidOut (hrest : rest ≠ [])
    (h : r.testsFirstLayout first last = .ok layout) : r.LaidOut first last rest layout := by
  unfold testsFirstLayout at h
  obtain ⟨⟨leaveSite, leave⟩, hleave, h⟩ := bind_eq_ok.1 h
  dsimp only at h
  split at h
  · cases h
  · rename_i hleaveTarget
    obtain ⟨⟨site, back⟩, hback, h⟩ := bind_eq_ok.1 h
    dsimp only at h
    split at h
    · cases h
    · rename_i htarget
      cases pure_eq_ok.1 h
      exact .testsFirst hrest hleave (not_not.1 hleaveTarget) hback (not_not.1 htarget)

theorem otherLayout_laidOut (h : r.otherLayout first last (!rest.isEmpty) = .ok layout) :
    r.LaidOut first last rest layout := by
  unfold otherLayout at h
  obtain ⟨found, hfound, h⟩ := bind_eq_ok.1 h
  split at h
  · rename_i htrue
    subst htrue
    cases pure_eq_ok.1 h
    unfold branchesBack at hfound
    obtain ⟨terminator, hterm, hfound⟩ := bind_eq_ok.1 hfound
    have hany := pure_eq_ok.1 hfound
    cases terminator with
    | none => cases hany
    | some entry =>
      rw [Option.any_some, Bool.and_eq_true, Bool.not_eq_true', beq_iff_eq] at hany
      exact .testsLast hterm hany.1 hany.2
  · split at h
    · rename_i hmore
      refine testsFirstLayout_laidOut ?_ h
      rintro rfl
      cases hmore
    · cases h

/-- A loop that is recognized has one of the three layouts. -/
theorem loopLayout_laidOut (h : r.loopLayout first last rest = .ok layout) :
    r.LaidOut first last rest layout := by
  unfold loopLayout at h
  cases rest with
  | nil => exact otherLayout_laidOut h
  | cons second more =>
    dsimp only at h
    obtain ⟨jump, hjump, h⟩ := bind_eq_ok.1 h
    cases jump with
    | none => exact otherLayout_laidOut h
    | some entry =>
      obtain ⟨site, jump⟩ := entry
      unfold entryJump? at hjump
      obtain ⟨terminator, hterm, hjump⟩ := bind_eq_ok.1 hjump
      obtain ⟨rfl, hentry⟩ := Option.filter_eq_some_iff.1 (pure_eq_ok.1 hjump)
      rw [Bool.and_eq_true, beq_iff_eq] at hentry
      obtain ⟨⟨backSite, back⟩, hback, h⟩ := bind_eq_ok.1 h
      dsimp only at h
      split at h
      · cases h
      · rename_i htarget
        cases pure_eq_ok.1 h
        exact .entersAtTest rfl hterm hentry.1 hentry.2 hback (not_not.1 htarget)

def SetAt (r : Routine) (site : Nat) (dst : Variable) (source : Expression) : Prop :=
  ∃ instr, r.code[site]? = some instr ∧ instr.op = .set dst source

/-- A block ends in a likely branch to a given block, with an assignment in the delay slot. -/
structure EndsLikely (r : Routine) (id : BlockId) (site : Nat) (branch : Branch)
    (target : BlockId) (dst : Variable) (source : Expression) : Prop where
  terminator : r.terminator id = .ok (some (site, branch))
  likely : branch.likely = true
  target_eq : branch.target = target
  delaySlot?_eq : branch.delaySlot? = some (.set dst source)

theorem delaySlot?_of_delaySet? {source : Expression} (h : branch.delaySet? = some (dst, source)) :
    branch.delaySlot? = some (.set dst source) := by
  unfold Branch.delaySet? at h
  split at h
  · rename_i hslot
    cases h
    exact hslot
  · cases h

structure AbsLayout (r : Routine) (id : BlockId) (shape : AbsShape) : Prop where
  test : ∃ branch dst source v, r.EndsLikely id shape.site branch (id + 1) dst source ∧
    branch.condition.test = .lessZero ∧ branch.tested? = some shape.value ∧
    source.negated? = some v ∧ v.register = shape.value.register ∧
    dst.register = shape.value.register

theorem matchAbs_eq_some {shape : AbsShape} (h : r.matchAbs id = .ok (some shape)) :
    r.AbsLayout id shape := by
  unfold matchAbs at h
  obtain ⟨terminator, hterm, h⟩ := bind_eq_ok.1 h
  obtain ⟨⟨site, branch⟩, rfl, hparts⟩ := Option.bind_eq_some_iff.1 (pure_eq_ok.1 h)
  obtain ⟨_, hbranch, hparts⟩ := Option.bind_eq_some_iff.1 hparts
  obtain ⟨value, hvalue, hparts⟩ := Option.bind_eq_some_iff.1 hparts
  obtain ⟨⟨dst, source⟩, hdelay, hparts⟩ := Option.bind_eq_some_iff.1 hparts
  obtain ⟨v, hnegated, hparts⟩ := Option.bind_eq_some_iff.1 hparts
  obtain ⟨_, hregisters, hparts⟩ := Option.bind_eq_some_iff.1 hparts
  cases hparts
  have hlikely := of_guard hbranch
  have hsame := of_guard hregisters
  simp only [Bool.and_eq_true, beq_iff_eq] at hlikely hsame
  exact ⟨branch, dst, source, v, ⟨hterm, hlikely.1.1, hlikely.1.2,
    delaySlot?_of_delaySet? hdelay⟩, hlikely.2, hvalue, hnegated, hsame⟩

structure AshLayout (r : Routine) (id : BlockId) (shape : AshShape) : Prop where
  test : ∃ branch dst by', r.EndsLikely id shape.branchSite branch (id + 2) dst
      ⟨.shiftLeft, [.var shape.value, by']⟩ ∧
    branch.condition.test = .greaterEqualZero ∧ branch.tested? = some shape.amount ∧
    by'.register? = some shape.amount.register ∧ dst.register = shape.dst
  right : ∃ right, r.blocks[id + 1]? = some right ∧ right.size = 2 ∧
    (∃ negation v, r.SetAt right.start shape.temporary negation ∧ negation.negated? = some v ∧
      v.register = shape.amount.register) ∧
    ∃ out source, r.SetAt (right.start + 1) out source ∧
      rightShiftSigned? source.operator = some shape.signed ∧
      readsPair source shape.value.register shape.temporary.register = true ∧
      out.register = shape.dst

/-- What the branch of a shift looks like. -/
theorem shiftOperands?_eq_some {right : Block} {amount value : Variable}
    (hterm : r.terminator id = .ok (some (site, branch)))
    (h : branch.shiftOperands? id right = some (amount, dst, value)) :
    right.size = 2 ∧ ∃ by', r.EndsLikely id site branch (id + 2) dst
        ⟨.shiftLeft, [.var value, by']⟩ ∧
      branch.condition.test = .greaterEqualZero ∧ branch.tested? = some amount ∧
      by'.register? = some amount.register := by
  obtain ⟨_, hbranch, h⟩ := Option.bind_eq_some_iff.1 h
  obtain ⟨amount', hamount, h⟩ := Option.bind_eq_some_iff.1 h
  obtain ⟨⟨dst', source⟩, hdelay, h⟩ := Option.bind_eq_some_iff.1 h
  have hlikely := of_guard hbranch
  simp only [Bool.and_eq_true, beq_iff_eq] at hlikely
  dsimp only at h
  split at h
  · rename_i value' by'
    obtain ⟨_, hby, h⟩ := Option.bind_eq_some_iff.1 h
    cases h
    exact ⟨hlikely.2, by', ⟨hterm, hlikely.1.1.1, hlikely.1.2,
      delaySlot?_of_delaySet? hdelay⟩, hlikely.1.1.2, hamount, eq_of_beq (of_guard hby)⟩
  · cases h

theorem matchAsh_eq_some {shape : AshShape} (h : r.matchAsh id = .ok (some shape)) :
    r.AshLayout id shape := by
  unfold matchAsh at h
  obtain ⟨terminator, hterm, h⟩ := bind_eq_ok.1 h
  split at h
  case h_2 => cases h
  rename_i branchSite branch
  obtain ⟨right, hright, h⟩ := bind_eq_ok.1 h
  split at h
  case h_2 => cases h
  rename_i amount dst value hoperands
  obtain ⟨negate, hnegate, h⟩ := bind_eq_ok.1 h
  split at h
  case h_2 => cases h
  rename_i temporary negation hnegateOp
  split at h
  case isTrue => cases h
  rename_i hamount
  obtain ⟨shift, hshift, h⟩ := bind_eq_ok.1 h
  split at h
  case h_2 => cases h
  rename_i out source hshiftOp
  obtain ⟨signed, hsigned, h⟩ := Option.bind_eq_some_iff.1 (pure_eq_ok.1 h)
  obtain ⟨_, hguard, h⟩ := Option.bind_eq_some_iff.1 h
  cases h
  have hpair := of_guard hguard
  rw [Bool.and_eq_true, beq_iff_eq] at hpair
  obtain ⟨v, hnegated, hv⟩ := Option.map_eq_some_iff.1 (Decidable.not_not.1 hamount)
  obtain ⟨hsize, by', hends, htest, htested, hby⟩ := shiftOperands?_eq_some hterm hoperands
  exact ⟨⟨branch, dst, by', hends, htest, htested, hby, rfl⟩,
    ⟨right, block_eq_ok.1 hright, hsize,
      ⟨negation, v, ⟨negate, instruction_eq_ok.1 hnegate, hnegateOp⟩, hnegated, hv⟩,
      ⟨out, source, ⟨shift, instruction_eq_ok.1 hshift, hshiftOp⟩, hsigned, hpair⟩⟩⟩

structure TypeOfLayout (r : Routine) (id : BlockId) (shape : TypeOfShape) : Prop where
  first : ∃ block, r.blocks[id]? = some block ∧ 2 ≤ block.size ∧ shape.tagSite = block.stop - 2
  tag : ∃ source base, r.SetAt shape.tagSite shape.temporary source ∧
    tagged? source = some base ∧ shape.base.register? = some base
  zeroTest : ∃ site branch dst, r.EndsLikely id site branch (id + 3) dst
      ⟨.identity, [.global "binteger"]⟩ ∧
    zeroTested? branch.condition = some shape.temporary.register ∧ dst.register = shape.dst
  second : ∃ block, r.blocks[id + 1]? = some block ∧ block.size = 1
  pairTest : ∃ branch dst v, r.EndsLikely (id + 1) shape.pairSite branch (id + 3) dst
      ⟨.identity, [.global "pair"]⟩ ∧
    branch.condition = ⟨.greaterZero, [.var v]⟩ ∧ v.register = shape.temporary.register ∧
    dst.register = shape.dst
  third : ∃ block instr dst, r.blocks[id + 2]? = some block ∧ block.size = 1 ∧
    r.code[block.start]? = some instr ∧
    instr.op = .load dst shape.base (-4) 4 .unsigned ∧ dst.register = shape.dst

/-- A branch that sets a register to the value of a global symbol. -/
theorem tagSet?_eq_some {target : BlockId} {symbol : String}
    (hterm : r.terminator id = .ok (some (site, branch)))
    (h : branch.tagSet? target symbol = some dst) :
    r.EndsLikely id site branch target dst ⟨.identity, [.global symbol]⟩ := by
  obtain ⟨_, hbranch, h⟩ := Option.bind_eq_some_iff.1 h
  obtain ⟨⟨dst', source⟩, hdelay, h⟩ := Option.bind_eq_some_iff.1 h
  obtain ⟨_, hsource, h⟩ := Option.bind_eq_some_iff.1 h
  cases h
  have hlikely := of_guard hbranch
  rw [Bool.and_eq_true, beq_iff_eq] at hlikely
  rw [← Expression.copied?_eq_some (eq_of_beq (of_guard hsource))]
  exact ⟨hterm, hlikely.1, hlikely.2, delaySlot?_of_delaySet? hdelay⟩

theorem matchTypeOf_eq_some {shape : TypeOfShape} (h : r.matchTypeOf id = .ok (some shape)) :
    r.TypeOfLayout id shape := by
  unfold matchTypeOf at h
  obtain ⟨first, hfirst, h⟩ := bind_eq_ok.1 h
  obtain ⟨second, hsecond, h⟩ := bind_eq_ok.1 h
  obtain ⟨third, hthird, h⟩ := bind_eq_ok.1 h
  split at h
  · cases h
  rename_i hsizes
  rw [not_or, not_or, not_lt, not_not, not_not] at hsizes
  obtain ⟨terminator, hterm, h⟩ := bind_eq_ok.1 h
  split at h
  case h_2 => cases h
  rename_i zeroSite zeroTest
  split at h
  case h_2 => cases h
  rename_i tested htested
  split at h
  case h_2 => cases h
  rename_i dst htagSet
  obtain ⟨tag, htag, h⟩ := bind_eq_ok.1 h
  split at h
  case h_2 => cases h
  rename_i temporary source htagOp
  split at h
  case h_2 => cases h
  rename_i base htagged
  split at h
  case isTrue => cases h
  rename_i htemporary
  obtain ⟨pair, hpair, h⟩ := bind_eq_ok.1 h
  split at h
  case h_2 => cases h
  rename_i pairSite pairTest
  extract_lets positive at h
  split at h
  case isTrue => cases h
  rename_i hpositive
  obtain ⟨load, hload, h⟩ := bind_eq_ok.1 h
  split at h
  case h_2 => cases h
  rename_i loaded loadBase offset size kind hloadOp
  split at h
  case isFalse => cases h
  rename_i hloaded
  obtain ⟨rfl, rfl, rfl, hdst, hbase⟩ := hloaded
  cases Option.some.inj (pure_eq_ok.1 h)
  obtain rfl := Decidable.not_not.1 htemporary
  rw [not_or, Bool.not_eq_true, Bool.not_eq_false', not_not] at hpositive
  obtain ⟨pairDst, hpairSet, hpairDst⟩ := Option.map_eq_some_iff.1 hpositive.2
  have hgreater : ∃ v, pairTest.condition = ⟨.greaterZero, [.var v]⟩ ∧
      v.register = temporary.register := by
    have htrue := hpositive.1
    unfold positive at htrue
    split at htrue
    · rename_i v hcondition
      exact ⟨v, hcondition, eq_of_beq htrue⟩
    · cases htrue
  obtain ⟨v, hcondition, hv⟩ := hgreater
  exact ⟨⟨first, block_eq_ok.1 hfirst, hsizes.1, rfl⟩,
    ⟨source, base, ⟨tag, instruction_eq_ok.1 htag, htagOp⟩, htagged, hbase⟩,
    ⟨zeroSite, zeroTest, dst, tagSet?_eq_some hterm htagSet, htested, rfl⟩,
    ⟨second, block_eq_ok.1 hsecond, hsizes.2.1⟩,
    ⟨pairTest, pairDst, v, tagSet?_eq_some hpair hpairSet, hcondition, hv, hpairDst⟩,
    ⟨third, load, loaded, block_eq_ok.1 hthird, hsizes.2.2, instruction_eq_ok.1 hload, hloadOp,
      hdst⟩⟩

theorem delaySlot?_of_falseDefault? {v : Variable} (h : branch.falseDefault? = some v) :
    branch.delaySlot? = some (.set v ⟨.identity, [.falsehood]⟩) := by
  obtain ⟨⟨dst, source⟩, hdelay, h⟩ := Option.bind_eq_some_iff.1 h
  obtain ⟨_, hguard, h⟩ := Option.bind_eq_some_iff.1 h
  cases h
  obtain ⟨a, hcopied, hfalse⟩ := (Option.any_eq_true _ _).1 (of_guard hguard)
  cases eq_of_beq hfalse
  rw [← Expression.copied?_eq_some hcopied]
  exact delaySlot?_of_delaySet? hdelay

theorem chainTest_eq_ok {entry : Region} {test : ChainTest}
    (h : r.chainTest finish entry = .ok test) :
    ∃ site, r.expectBranch entry true = .ok (site, test.branch) ∧
      test.branch.target = finish ∧ test.branch.chainKind? = some test.kind ∧
      test.defaulted = test.branch.falseDefault? := by
  unfold chainTest at h
  obtain ⟨⟨site, branch⟩, hbranch, h⟩ := bind_eq_ok.1 h
  dsimp only at h
  split at h
  · cases h
  rename_i htarget
  split at h
  · rename_i kind hkind
    cases pure_eq_ok.1 h
    exact ⟨site, hbranch, not_not.1 htarget, hkind, rfl⟩
  · cases h

/-- What the plan of a chain says about its entries. -/
structure Plans (r : Routine) (entries : List Region) (last : Region) (plan : ChainPlan) : Prop where
  nonempty : entries ≠ []
  tests : ∃ block, last.lastBlock? = some block ∧
    List.Forall₂ (fun entry test => r.chainTest (block + 1) entry = .ok test) entries plan.tests
  kinds : ∀ test ∈ plan.tests, test.kind = plan.kind
  result : r.chainResult plan.tests last = .ok plan.result
  defaults : ∀ test ∈ plan.tests, ∀ v ∈ test.defaulted, plan.result = some v.register

theorem chainPlan_plans {entries : List Region} {plan : ChainPlan}
    (h : r.chainPlan entries last = .ok plan) : r.Plans entries last plan := by
  unfold chainPlan at h
  extract_lets planned at h
  split at h
  case isTrue => cases h
  rename_i hempty
  unfold planned at h
  split at h
  case h_2 => cases h
  rename_i block hblock
  obtain ⟨tests, htests, h⟩ := bind_eq_ok.1 h
  extract_lets finish at h
  have hfinish : ∀ kind, finish kind = .ok plan → plan.kind = kind ∧ plan.tests = tests ∧
      r.chainResult tests last = .ok plan.result ∧
      ∀ test ∈ tests, ∀ v ∈ test.defaulted, plan.result = some v.register := by
    intro kind h
    obtain ⟨result, hresult, h⟩ := bind_eq_ok.1 h
    split at h
    case h_1 => cases h
    rename_i hnone
    cases pure_eq_ok.1 h
    refine ⟨rfl, rfl, hresult, fun test htest v hv => ?_⟩
    have hmem : v ∈ tests.filterMap ChainTest.defaulted := mem_filterMap.2 ⟨test, htest, hv⟩
    have hsame := find?_eq_none.1 hnone v hmem
    exact (not_not.1 (mt decide_eq_true hsame)).symm
  -- Whichever kind it is, all tests have it.
  have hplans : ∀ kind, (tests.all fun t => t.kind == kind) = true → finish kind = .ok plan →
      r.Plans entries last plan := by
    intro kind hall h
    obtain ⟨hkind, rfl, hresult, hdefaults⟩ := hfinish kind h
    refine ⟨?_, ⟨block, hblock, mapM_eq_ok htests⟩, ?_, hresult, hdefaults⟩
    · rintro rfl
      exact hempty rfl
    · intro test htest
      rw [hkind]
      exact eq_of_beq (all_eq_true.1 hall test htest)
  split at h
  · rename_i hall
    exact hplans _ hall h
  · split at h
    · rename_i hall
      exact hplans _ hall h
    · cases h

def Contains (r : Routine) (region : Region) : Prop :=
  ∀ id ∈ region.blockIds, ∃ block, r.blocks[id]? = some block

theorem Contains.child {child : Region} (h : r.Contains region) (hchild : child ∈ region.children) :
    r.Contains child := by
  have hsubset : ∀ {items : List Region}, child ∈ items →
      child.blockIds ⊆ items.flatMap Region.blockIds := fun hmem id hid =>
    mem_flatMap.2 ⟨child, hmem, hid⟩
  intro id hid
  refine h id ?_
  cases region with
  | block id => cases hchild
  | sequence items => exact blockIds_sequence items ▸ hsubset hchild hid
  | loop items => exact blockIds_loop items ▸ hsubset hchild hid
  | chain items => exact blockIds_chain items ▸ hsubset hchild hid
  | conditional arms alt =>
    have hflat := hsubset hchild hid
    rw [blockIds_conditional]
    simpa [Region.children, flatMap_append, flatMap_assoc] using hflat
  | exit body dead =>
    have hflat := hsubset hchild hid
    rw [blockIds_exit]
    exact hflat

/-- A region contains what its parts do. -/
theorem contains_of_children (hblock : ∀ id, region ≠ .block id)
    (h : ∀ child ∈ region.children, r.Contains child) : r.Contains region := by
  have hitems : ∀ {items : List Region}, (∀ child ∈ items, r.Contains child) →
      ∀ id ∈ items.flatMap Region.blockIds, ∃ block, r.blocks[id]? = some block := by
    intro items hitems id hid
    obtain ⟨item, hitem, hid⟩ := mem_flatMap.1 hid
    exact hitems item hitem id hid
  have hall := hitems h
  unfold Contains
  cases region with
  | block id => exact absurd rfl (hblock id)
  | sequence items => rwa [blockIds_sequence]
  | loop items => rwa [blockIds_loop]
  | chain items => rwa [blockIds_chain]
  | conditional arms alt =>
    rw [blockIds_conditional]
    simpa [Region.children, flatMap_append, flatMap_assoc] using hall
  | exit body dead =>
    rw [blockIds_exit]
    exact hall

theorem Contains.arm {arms : List RegionArm} {alt : Option Region}
    {arm : RegionArm} (h : r.Contains (.conditional arms alt)) (harm : arm ∈ arms) :
    r.Contains arm.test ∧ r.Contains arm.body := by
  have hchild : ∀ region ∈ [arm.test, arm.body], r.Contains region := fun region hregion =>
    h.child (mem_append_left _ (mem_flatMap.2 ⟨arm, harm, hregion⟩))
  exact ⟨hchild _ mem_cons_self, hchild _ (mem_cons_of_mem _ mem_cons_self)⟩

theorem Contains.alternative {arms : List RegionArm} {alt : Option Region}
    (h : r.Contains (.conditional arms alt)) (hregion : region ∈ alt) :
    r.Contains region :=
  h.child (mem_append_right _ (Option.mem_toList.2 hregion))

end Routine

end Decompiler
