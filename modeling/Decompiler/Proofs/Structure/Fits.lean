import Decompiler.Proofs.Structure.Endings

/-!
Blocks whose operations have the operands they need.  When a block was folded, by itself or in
an idiom, it is such a block.  Folding such a block again, whatever idioms are in use, can fail
only as a conditional move does.
-/

namespace Decompiler

open TryFoldM List Routine

variable {s : FoldState} {errors : List Error} {id : BlockId} {site : Nat}

/-- The operation of an instruction, and behind a branch also that of the delay slot. -/
def Instruction.operations (i : Instruction) : List Operation :=
  i.op :: (i.op.branch?.bind Branch.delaySlot?).toList

namespace Routine

variable {r : Routine} {block : Block}

def FitsAt (r : Routine) (site : Nat) : Prop :=
  ∃ instr, r.code[site]? = some instr ∧ instr.op.hasArity = true

/-- The instructions of a block have the operands they need, up to the branch that ends it. -/
def BodyFits (r : Routine) (id : BlockId) : Prop :=
  ∃ block terminator, r.blocks[id]? = some block ∧ r.terminator id = .ok terminator ∧
    ∀ site, block.start ≤ site → site < (terminator.map Prod.fst).getD block.stop → r.FitsAt site

/-- The instructions of a block have the operands they need, and also the delay slot of a jump
to the next block. -/
structure BlockFits (r : Routine) (id : BlockId) : Prop where
  body : r.BodyFits id
  delay : ∀ {site branch}, r.terminator id = .ok (some (site, branch)) →
    (branch.isJump && branch.target == id + 1) = true → ∀ op ∈ branch.delaySlot?,
      op.hasArity = true

theorem SetsAt.fits {register : Register} (h : r.SetsAt site register) : r.FitsAt site := by
  obtain ⟨instr, dst, source, hcode, hop, harity, -⟩ := h
  refine ⟨instr, hcode, ?_⟩
  rw [hop]
  exact beq_iff_eq.2 harity

theorem BranchAt.fits {branch : Branch} (h : r.BranchAt site branch) : r.FitsAt site := by
  obtain ⟨instr, hcode, hop⟩ := h
  refine ⟨instr, hcode, ?_⟩
  rw [hop]
  rfl

/-- A block that ends in anything but a branch has no branch. -/
theorem terminator_eq_none (hblock : r.blocks[id]? = some block) (hempty : block.start < block.stop)
    {instr : Instruction} (hcode : r.code[block.stop - 1]? = some instr)
    (hop : instr.op.branch? = none) : r.terminator id = .ok none := by
  have hnot : block.isEmpty = false := by
    rw [Block.isEmpty, decide_eq_false_iff_not]
    omega
  unfold terminator
  rw [block_eq_ok.2 hblock]
  dsimp only [bind, Except.bind]
  rw [if_neg (by simp [hnot]), instruction_eq_ok.2 hcode]
  dsimp only
  rw [hop]
  rfl

/-- A block without a branch fits when all of its instructions do. -/
theorem blockFits_of_none (hblock : r.blocks[id]? = some block) (hterm : r.terminator id = .ok none)
    (h : ∀ site, block.start ≤ site → site < block.stop → r.FitsAt site) : r.BlockFits id where
  body := ⟨block, none, hblock, hterm, h⟩
  delay hbranch := by
    rw [hterm] at hbranch
    cases hbranch

/-- A block that ends in a test fits when its instructions up to there do. -/
theorem TestsAt.blockFits {test : Test} (h : r.TestsAt id test) (htest : test ≠ .always)
    (hbody : r.BodyFits id) : r.BlockFits id where
  body := hbody
  delay {site branch} hbranch hjump := by
    obtain ⟨site', branch', hbranch', rfl⟩ := h
    cases hbranch.symm.trans hbranch'
    rw [Bool.and_eq_true, Branch.isJump, Condition.isAlways] at hjump
    exact absurd (eq_of_beq hjump.1) htest

/-- A test ends its block; what stands in front of it are the instructions of the body. -/
theorem TestsAt.bodyFits {test : Test} (h : r.TestsAt id test) (hblock : r.blocks[id]? = some block)
    (hsites : ∀ site, block.start ≤ site → site + 1 < block.stop → r.FitsAt site) :
    r.BodyFits id := by
  obtain ⟨branchSite, branch, hbranch, -⟩ := h
  obtain ⟨block', hblock', -, hlast, -⟩ := terminator_eq_some hbranch
  cases hblock.symm.trans hblock'
  refine ⟨block, _, hblock, hbranch, fun site hstart hstop => hsites site hstart ?_⟩
  rw [Option.map_some, Option.getD_some] at hstop
  omega

namespace ShiftsAt

variable {shape : AshShape} (h : r.ShiftsAt id shape)
include h

theorem terminator_right : r.terminator (id + 1) = .ok none := by
  obtain ⟨block, -, hblock, hsize, -, instr, dst, source, hcode, hop, -⟩ := h.right
  rw [Block.size] at hsize
  have hlast : block.start + 1 = block.stop - 1 := by omega
  rw [hlast] at hcode
  exact terminator_eq_none hblock (by omega) hcode (by rw [hop]; rfl)

/-- The block of a shift to the right fits. -/
theorem blockFits_right : r.BlockFits (id + 1) := by
  obtain ⟨block, register, hblock, hsize, hnegate, hshift⟩ := h.right
  rw [Block.size] at hsize
  refine blockFits_of_none hblock h.terminator_right fun site hstart hstop => ?_
  obtain rfl | rfl : site = block.start ∨ site = block.start + 1 := by omega
  · exact hnegate.fits
  · exact hshift.fits

end ShiftsAt

namespace DispatchLayout

variable {shape : TypeOfShape} (h : r.DispatchLayout id shape)
include h

/-- The first block of a dispatch fits when its instructions in front of the tag do. -/
theorem blockFits_first (hsites : ∀ block, r.blocks[id]? = some block → ∀ site, block.start ≤ site →
      site < shape.tagSite → r.FitsAt site) : r.BlockFits id := by
  obtain ⟨block, register, hblock, hsize, htag, hsets⟩ := h.first
  have hfits : ∀ site, block.start ≤ site → site + 1 < block.stop → r.FitsAt site := by
    intro site hstart hstop
    by_cases hlt : site < shape.tagSite
    · exact hsites block hblock site hstart hlt
    · obtain rfl : site = shape.tagSite := by omega
      exact hsets.fits
  rcases h.test with htest | htest
  · exact htest.blockFits (by simp) (htest.bodyFits hblock hfits)
  · exact htest.blockFits (by simp) (htest.bodyFits hblock hfits)

theorem blockFits_second : r.BlockFits (id + 1) := by
  obtain ⟨htest, block, hblock, hsize⟩ := h.second
  refine htest.blockFits (by simp) (htest.bodyFits hblock fun site hstart hstop => ?_)
  rw [Block.size] at hsize
  omega

theorem terminator_third : r.terminator (id + 2) = .ok none := by
  obtain ⟨block, instr, dst, base, offset, size, kind, hblock, hsize, hcode, hop, -⟩ :=
    h.third
  rw [Block.size] at hsize
  have hlast : block.start = block.stop - 1 := by omega
  rw [hlast] at hcode
  exact terminator_eq_none hblock (by omega) hcode (by rw [hop]; rfl)

theorem blockFits_third : r.BlockFits (id + 2) := by
  obtain ⟨block, instr, dst, base, offset, size, kind, hblock, hsize, hcode, hop, -⟩ :=
    h.third
  rw [Block.size] at hsize
  refine blockFits_of_none hblock h.terminator_third fun site hstart hstop => ?_
  obtain rfl : site = block.start := by omega
  exact ⟨instr, hcode, by rw [hop]; rfl⟩

end DispatchLayout

/-- No idiom starts inside another one. -/
theorem HasShape.alone {shape : IdiomShape} (h : r.HasShape id shape) :
    ∀ b ∈ List.range' (id + 1) (shape.size - 1), ∀ inner, ¬r.HasShape b inner := by
  intro b hb
  rw [mem_range'_1] at hb
  cases shape with
  | typeOf shape =>
    have hlayout := matchTypeOf_layout h
    rw [IdiomShape.size] at hb
    obtain rfl | rfl : b = id + 1 ∨ b = id + 2 := by omega
    · exact not_hasShape_of_test hlayout.second.1 rfl
    · exact not_hasShape_of_none hlayout.terminator_third
  | ash shape =>
    rw [IdiomShape.size] at hb
    obtain rfl : b = id + 1 := by omega
    exact not_hasShape_of_none (matchAsh_shiftsAt h).terminator_right
  | abs shape =>
    rw [IdiomShape.size] at hb
    omega

end Routine

namespace Context

variable {cx : Context}

/-- The errors that the conditional moves of a routine may end in. -/
def moveErrors (cx : Context) : List Error :=
  cx.routine.code.toList.zipIdx.flatMap fun entry =>
    entry.1.operations.flatMap (cx.operationErrors entry.2)

variable {instr : Instruction} {branch : Branch} {shape : IdiomShape}

theorem operationErrors_subset {op : Operation} (hcode : cx.routine.code[site]? = some instr)
    (hop : op ∈ instr.operations) : cx.operationErrors site op ⊆ cx.moveErrors := by
  intro e he
  rw [← Array.getElem?_toList] at hcode
  exact mem_flatMap.2 ⟨(instr, site), mem_zipIdx_iff_getElem?.2 hcode, mem_flatMap.2 ⟨op, hop, he⟩⟩

/-! What was folded fits. -/

theorem pushInstruction_fits (site : Nat) (hmode : s.verbatim = false) :
    (cx.pushInstruction site).Ends s fun _ _ => cx.routine.FitsAt site := by
  unfold pushInstruction
  split
  · rename_i instr hinstr
    exact (pushOperation_hasArity hmode).mono fun _ _ harity =>
      ⟨instr, instruction_eq_ok.1 hinstr, harity⟩
  · exact ends_throw

theorem pushSites_fits (sites : List Nat) (hmode : s.verbatim = false) :
    (cx.pushSites sites).Ends s fun _ _ => ∀ site ∈ sites, cx.routine.FitsAt site := by
  induction sites generalizing s with
  | nil => exact fun _ _ => by simp
  | cons site sites ih =>
    change (cx.pushInstruction site >>= fun _ => cx.pushSites sites).Ends s _
    rw [ends_bind]
    intro u hu
    have hfits := pushInstruction_fits site hmode u hu
    have hmode' := ((cx.pushInstruction_tame site).advances s u hu).mode.trans hmode
    refine (ih hmode').mono fun _ _ hrest => ?_
    exact forall_mem_cons.2 ⟨hfits, hrest⟩

theorem pushBlockBody_fits (hmode : s.verbatim = false) :
    (cx.pushBlockBody id).Ends s fun _ _ => cx.routine.BodyFits id := by
  unfold pushBlockBody
  simp only [ends_bind, ends_ofExcept, ends_pure]
  intro block hblock terminator hterm
  refine (pushSites_fits _ hmode).mono fun _ _ hfits => ?_
  refine ⟨block, terminator, block_eq_ok.1 hblock, hterm, fun site hstart hstop => ?_⟩
  exact hfits site (mem_range'_1.2 (by omega))

theorem pushDelay_fits (hmode : s.verbatim = false) :
    (cx.pushDelay site branch).Ends s fun _ _ => ∀ op ∈ branch.delaySlot?, op.hasArity = true := by
  unfold pushDelay
  split
  · rename_i op hop
    refine (pushOperation_hasArity hmode).mono fun _ _ harity op' hop' => ?_
    cases hop.symm.trans hop'
    exact harity
  · rename_i hop
    simp [hop]

theorem pushBlock_fits (hmode : s.verbatim = false) :
    (cx.pushBlock id).Ends s fun _ _ => cx.routine.BlockFits id := by
  rw [pushBlock, ends_bind]
  intro found hfound
  have hbody := pushBlockBody_fits hmode found hfound
  have hterm := pushBlockBody_found id s found hfound
  have hmode' := ((pushBlockBody_bounded id).tame.advances s found hfound).mode.trans hmode
  cases found with
  | none =>
    refine ends_pure.2 ⟨hbody, fun hbranch => ?_⟩
    rw [hterm] at hbranch
    cases hbranch
  | some entry =>
    obtain ⟨site, branch⟩ := entry
    dsimp only
    split
    · refine (pushDelay_fits hmode').mono fun _ _ harity => ⟨hbody, fun hbranch _ => ?_⟩
      cases hterm.symm.trans hbranch
      exact harity
    · rename_i hjump
      refine fun _ _ => ⟨hbody, fun hbranch hjump' => ?_⟩
      cases hterm.symm.trans hbranch
      exact absurd hjump' hjump

/-- The blocks of an idiom that was folded fit. -/
theorem applyIdiom_fits (hshape : cx.routine.HasShape id shape) (hmode : s.verbatim = false) :
    (cx.applyIdiom id shape).Ends s fun _ _ =>
      ∀ b ∈ List.range' id shape.size, cx.routine.BlockFits b := by
  cases shape with
  | typeOf shape =>
    have hlayout := matchTypeOf_layout hshape
    have hall : cx.routine.BlockFits id →
        ∀ b ∈ List.range' id 3, cx.routine.BlockFits b := by
      intro hfirst b hb
      rw [mem_range'_1] at hb
      obtain rfl | rfl | rfl : b = id ∨ b = id + 1 ∨ b = id + 2 := by omega
      · exact hfirst
      · exact hlayout.blockFits_second
      · exact hlayout.blockFits_third
    unfold applyIdiom applyTypeOf
    simp only [ends_bind, ends_lift, FoldM.ends_consumedNow]
    split
    · simp
    · simp only [ends_bind, ends_ofExcept]
      intro block hblock
      refine (pushSites_fits _ hmode).mono fun _ s' hfits => ?_
      refine ends_true.mono fun _ s'' _ => ends_true.mono fun _ _ _ => hall ?_
      refine hlayout.blockFits_first fun block' hblock' site hstart hstop => ?_
      cases hblock'.symm.trans (block_eq_ok.1 hblock)
      exact hfits site (mem_range'_1.2 (by omega))
  | ash shape =>
    have hlayout := matchAsh_shiftsAt hshape
    unfold applyIdiom applyAsh
    simp only [ends_bind, ends_lift, FoldM.ends_consumedNow]
    split
    · simp
    · simp only [ends_bind]
      refine (pushBlockBody_fits hmode).mono fun _ _ hbody => ?_
      refine ends_true.mono fun _ _ _ => ends_true.mono fun _ _ _ => ?_
      refine ends_true.mono fun _ _ _ => ends_true.mono fun _ _ _ b hb => ?_
      rw [mem_range'_1, IdiomShape.size] at hb
      obtain rfl | rfl : b = id ∨ b = id + 1 := by omega
      · exact hlayout.test.blockFits (by simp) hbody
      · exact hlayout.blockFits_right
  | abs shape =>
    unfold applyIdiom applyAbs
    refine (pushBlockBody_fits hmode).bind fun _ _ hbody => ends_true.mono ?_
    intro _ _ _ b hb
    rw [mem_range'_1, IdiomShape.size] at hb
    obtain rfl : b = id := by omega
    exact (matchAbs_testsAt hshape).blockFits (by simp) hbody

/-- Whether an idiom overwrites a temporary that is read again. -/
def clobbersLive (cx : Context) : IdiomShape → Bool
  | .typeOf shape =>
    (clobbered shape.temporary shape.dst).isSome &&
      !(cx.consumed false shape.pairSite).contains shape.temporary.register
  | .ash shape =>
    (clobbered shape.temporary shape.dst).isSome &&
      !(cx.consumed false shape.shiftSite).contains shape.temporary.register
  | .abs _ => false

theorem applyIdiom_clobbers (shape : IdiomShape) (hmode : s.verbatim = false) :
    (cx.applyIdiom id shape).Ends s fun _ _ => cx.clobbersLive shape = false := by
  cases shape with
  | typeOf shape =>
    unfold applyIdiom applyTypeOf
    simp only [ends_bind, ends_lift, FoldM.ends_consumedNow, hmode]
    split
    · simp
    · rename_i hclobber
      exact ends_true.mono fun _ _ _ => Bool.eq_false_iff.2 hclobber
  | ash shape =>
    unfold applyIdiom applyAsh
    simp only [ends_bind, ends_lift, FoldM.ends_consumedNow, hmode]
    split
    · simp
    · rename_i hclobber
      exact ends_true.mono fun _ _ _ => Bool.eq_false_iff.2 hclobber
  | abs shape => exact fun _ _ => rfl

/-! What fits can be folded, conditional moves apart. -/

variable (hmoves : cx.moveErrors ⊆ errors)
include hmoves

theorem pushInstruction_failsWith (h : cx.routine.FitsAt site) (s : FoldState) :
    (cx.pushInstruction site).FailsWith s errors := by
  obtain ⟨instr, hcode, harity⟩ := h
  unfold pushInstruction
  rw [instruction_eq_ok.2 hcode]
  exact ((pushOperation_failsWith harity s).mono
    (operationErrors_subset hcode mem_cons_self)).mono hmoves

theorem pushBlockBody_failsWith (h : cx.routine.BodyFits id) (s : FoldState) :
    (cx.pushBlockBody id).FailsWith s errors := by
  obtain ⟨block, terminator, hblock, hterm, hfits⟩ := h
  have hsites : (cx.pushSites (List.range' block.start
      ((terminator.map Prod.fst).getD block.stop - block.start))).FailsWith s errors := by
    refine failsWith_forM (fun site => (cx.pushInstruction_tame site).advances)
      fun site hsite s' _ => ?_
    rw [mem_range'_1] at hsite
    exact pushInstruction_failsWith hmoves (hfits site hsite.1 (by omega)) s'
  unfold pushBlockBody
  rw [block_eq_ok.2 hblock, hterm, ofExcept_bind, ofExcept_bind]
  exact failsWith_bind.2 ⟨hsites, fun _ _ => failsWith_pure⟩

theorem pushDelay_failsWith (hbranch : cx.routine.BranchAt site branch)
    (h : ∀ op ∈ branch.delaySlot?, op.hasArity = true) (s : FoldState) :
    (cx.pushDelay site branch).FailsWith s errors := by
  unfold pushDelay
  split
  · rename_i op hop
    obtain ⟨instr, hcode, hbranch⟩ := hbranch
    refine ((pushOperation_failsWith (h op hop) s).mono (operationErrors_subset hcode ?_)).mono
      hmoves
    simp [Instruction.operations, hbranch, Operation.branch?, hop]
  · exact failsWith_pure

theorem pushBlock_failsWith (h : cx.routine.BlockFits id) (s : FoldState) :
    (cx.pushBlock id).FailsWith s errors := by
  refine failsWith_bind.2 ⟨pushBlockBody_failsWith hmoves h.body s, fun found hfound => ?_⟩
  have hterm := pushBlockBody_found id s found hfound
  cases found with
  | none => exact failsWith_pure
  | some entry =>
    obtain ⟨site, branch⟩ := entry
    obtain ⟨-, -, -, -, hbranch⟩ := terminator_eq_some hterm
    dsimp only
    split
    · rename_i hjump
      exact pushDelay_failsWith hmoves hbranch (h.delay hterm hjump) _
    · exact pushInstruction_failsWith hmoves hbranch.fits _

/-- An idiom can be folded again when its first block fits. -/
theorem applyIdiom_failsWith (hshape : cx.routine.HasShape id shape)
    (hclobbers : cx.clobbersLive shape = false) (hfits : cx.routine.BodyFits id)
    (hmode : s.verbatim = false) : (cx.applyIdiom id shape).FailsWith s errors := by
  cases shape with
  | typeOf shape =>
    obtain ⟨block, -, hblock, hsize, htag, -⟩ := (matchTypeOf_layout hshape).first
    obtain ⟨test, ⟨branchSite, branch, hbranch, -⟩, -⟩ := hshape.test
    obtain ⟨block', terminator, hblock', hterm, hsites⟩ := hfits
    obtain ⟨block'', hblock'', -, hlast, -⟩ := terminator_eq_some hbranch
    cases hblock.symm.trans hblock'
    cases hblock.symm.trans hblock''
    cases hbranch.symm.trans hterm
    rw [Option.map_some, Option.getD_some] at hsites
    -- The tag stands right in front of the branch.
    have hfront : (cx.pushSites (List.range' block.start (shape.tagSite - block.start))).FailsWith s
        errors := by
      refine failsWith_forM (fun site => (cx.pushInstruction_tame site).advances)
        fun site hsite s' _ => ?_
      rw [mem_range'_1] at hsite
      exact pushInstruction_failsWith hmoves (hsites site hsite.1 (by omega)) s'
    unfold applyIdiom applyTypeOf
    rw [clobbersLive] at hclobbers
    simp only [failsWith_bind, failsWith_lift, ends_lift,
      FoldM.ends_consumedNow, hmode, hclobbers, true_and, Bool.false_eq_true, if_false,
      block_eq_ok.2 hblock, ofExcept_bind]
    exact ⟨hfront, fun _ _ => FoldM.ends_true⟩
  | ash shape =>
    unfold applyIdiom applyAsh
    rw [clobbersLive] at hclobbers
    simp only [failsWith_bind, failsWith_lift, ends_lift,
      FoldM.ends_consumedNow, hmode, hclobbers, true_and, Bool.false_eq_true, if_false]
    exact ⟨pushBlockBody_failsWith hmoves hfits s, fun _ _ => FoldM.ends_true⟩
  | abs shape =>
    unfold applyIdiom applyAbs
    refine failsWith_bind.2 ⟨pushBlockBody_failsWith hmoves hfits s, fun _ _ => ?_⟩
    simp

end Context

end Decompiler
