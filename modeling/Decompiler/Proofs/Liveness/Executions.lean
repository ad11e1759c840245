import Decompiler.Proofs.Liveness.Paths
import Mathlib.Computability.Primrec.List
import Mathlib.Data.List.Permutation

/-!
Consumed registers and the machine.  The machine executes one instruction after the other and
goes to a block when a branch to it is taken.  It runs the delay slot of a likely branch only
when the branch is taken, and a conditional move writes only when its test says so.  A
register that an instruction consumes is overwritten before it is used again, on every
execution that does not skip a write of it.
-/

namespace Decompiler

open RegisterSet

/-- Operations that may do nothing, or do something else before they are done. -/
def Operation.isConditional : Operation → Bool
  | .branch _ | .conditionalMove _ _ _ _ => true
  | _ => false

/-- The registers that the machine reads and those that it writes when it executes an
operation.  For a branch it also matters whether it is taken. -/
inductive Operation.Acts : Operation → Bool → RegisterSet → RegisterSet → Prop
  | plain {op : Operation} {taken : Bool} (hplain : op.isConditional = false) :
      Acts op taken op.reads op.writes
  | move {dst test : Variable} {source : Atom} {onZero taken : Bool} :
      Acts (.conditionalMove dst source test onZero) taken
        (Atom.registersOf [source] ∪ .single test.register) (.single dst.register)
  | skip {dst test : Variable} {source : Atom} {onZero taken : Bool} :
      Acts (.conditionalMove dst source test onZero) taken
        (Atom.registersOf [source] ∪ .single test.register) ∅
  | bare {condition : Condition} {likely taken : Bool} {target : BlockId} :
      Acts (.branch ⟨condition, likely, target, none⟩) taken condition.reads ∅
  | slot {condition : Condition} {likely taken inner : Bool} {target : BlockId} {op : Operation}
      {reads writes : RegisterSet} (hslot : taken = true ∨ likely = false)
      (hacts : Acts op inner reads writes) :
      Acts (.branch ⟨condition, likely, target, some op⟩) taken (condition.reads ∪ reads) writes
  | annulled {condition : Condition} {target : BlockId} {op : Operation} :
      Acts (.branch ⟨condition, true, target, some op⟩) false condition.reads ∅

theorem Operation.Acts.mem_reads {op : Operation} {taken : Bool} {reads writes : RegisterSet}
    (h : op.Acts taken reads writes) {q : Register} (hq : q ∈ reads) : q ∈ op.reads := by
  induction h with
  | plain => exact hq
  | move | skip =>
    rw [mem_union, mem_single] at hq
    rw [Operation.reads, mem_union, mem_ofList]
    rcases hq with hsource | rfl
    · exact .inl hsource
    · exact .inr (List.mem_cons_of_mem _ List.mem_cons_self)
  | bare | annulled =>
    rw [Operation.reads, Branch.reads, mem_union]
    exact .inl hq
  | slot _ _ ih =>
    rw [Operation.reads, Branch.reads, mem_union, Operation.delayReads]
    exact (mem_union.1 hq).imp_right ih

theorem Operation.exists_acts {op : Operation} (h : op.branch? = none) (taken : Bool) :
    ∃ reads writes, op.Acts taken reads writes := by
  cases op with
  | branch branch => cases h
  | conditionalMove dst source test onZero => exact ⟨_, _, .move⟩
  | _ => exact ⟨_, _, .plain rfl⟩

/-- An instruction that was executed: where it stands, what it read and wrote, and where the
machine went on. -/
structure Act where
  site : Nat
  reads : RegisterSet
  writes : RegisterSet
  next : Nat
deriving DecidableEq

namespace Routine

/-- What the machine can do at an instruction. -/
inductive Executes (r : Routine) : Act → Prop
  | plain {site : Nat} {instr : Instruction} {reads writes : RegisterSet}
      (hcode : r.code[site]? = some instr) (hbranch : instr.op.branch? = none)
      (hacts : instr.op.Acts false reads writes) :
      Executes r ⟨site, reads, writes, site + 1⟩
  | taken {site : Nat} {instr : Instruction} {branch : Branch} {target : Block}
      {reads writes : RegisterSet} (hcode : r.code[site]? = some instr)
      (hbranch : instr.op.branch? = some branch)
      (hacts : instr.op.Acts true reads writes)
      (htarget : r.blocks[branch.target]? = some target) :
      Executes r ⟨site, reads, writes, target.start⟩
  | untaken {site : Nat} {instr : Instruction} {branch : Branch}
      {reads writes : RegisterSet} (hcode : r.code[site]? = some instr)
      (hbranch : instr.op.branch? = some branch) (hjump : branch.isJump = false)
      (hacts : instr.op.Acts false reads writes) :
      Executes r ⟨site, reads, writes, site + 1⟩

/-- The machine executes instructions from one position until it comes to another. -/
inductive Runs (r : Routine) : Nat → List Act → Nat → Prop
  | nil (pc : Nat) : Runs r pc [] pc
  | cons {act : Act} {acts : List Act} {pc : Nat} (hact : r.Executes act)
      (hrest : Runs r act.next acts pc) : Runs r act.site (act :: acts) pc

/-- The machine uses what a register holds when it comes to a position: it reads the register
there, or leaves the routine and the register holds the result. -/
def UsedNext (r : Routine) (q : Register) (pc : Nat) : Prop :=
  (∃ act, r.Executes act ∧ act.site = pc ∧ q ∈ act.reads) ∨
    (pc = r.code.size ∧ q = r.resultRegister)

/-- The registers that an instruction may write and that the machine did not write. -/
def skipped (r : Routine) (act : Act) : RegisterSet :=
  match r.code[act.site]? with
  | some instr => instr.op.writes \ act.writes
  | none => ∅

/-- The point where the machine stands: before an instruction, or at the end of the last
block. -/
def StandsAt (r : Routine) (pc : Nat) (x : Point) : Prop :=
  x.site = pc ∧ ∃ block, r.blocks[x.block]? = some block ∧
    (pc ∈ block.sites ∨ (pc = block.stop ∧ pc = r.code.size ∧ block.successors = []))

variable {r : Routine} {q : Register} {b next : BlockId} {block target : Block} {act : Act}
  {acts : List Act} {pc pc' : Nat} {x y z : Point} {sites sites' : List Nat} {u : Routine}

theorem Path.trans (h : r.Path x sites y) (h' : r.Path y sites' z) :
    r.Path x (sites ++ sites') z := by
  induction h with
  | refl x => exact h'
  | pass hblock hsite _ ih => exact .pass hblock hsite (ih h')
  | follow hblock hnext htarget _ ih => exact .follow hblock hnext htarget (ih h')

namespace IsChained

theorem next_mem (h : r.IsChained) (hblock : r.blocks[b]? = some block) (hb : b + 1 < r.blocks.size)
    (hjump : ∀ branch, r.lastBranch? block = some branch → branch.isJump = false) :
    b + 1 ∈ block.successors := by
  rw [h.successors_eq hblock]
  unfold successorsOf
  cases hlast : r.lastBranch? block with
  | none => simp [hb]
  | some branch =>
    simp only [hb, hjump branch hlast, if_true, Bool.false_eq_true, if_false]
    split
    · exact List.mem_singleton.2 rfl
    · exact List.mem_cons_self

theorem target_mem (h : r.IsChained) (hblock : r.blocks[b]? = some block) {branch : Branch}
    (hlast : r.lastBranch? block = some branch) : branch.target ∈ block.successors := by
  rw [h.successors_eq hblock, hlast]
  unfold successorsOf
  dsimp only
  generalize (if b + 1 < r.blocks.size then [b + 1] else []) = behind
  split
  · exact List.mem_singleton.2 rfl
  · split
    · rename_i hcontains
      exact List.contains_iff_mem.1 hcontains
    · exact List.mem_append_right _ (List.mem_singleton.2 rfl)

variable (h : r.IsChained) (hvalid : r.IsValid) (hblock : r.blocks[b]? = some block)
include h hvalid hblock

/-- Where a block starts, the machine stands in it. -/
theorem standsAt_start : r.StandsAt block.start ⟨b, block.start⟩ := by
  refine ⟨rfl, block, hblock, ?_⟩
  have hlt : b < r.blocks.size := (Array.getElem?_eq_some_iff.1 hblock).1
  have hbounds := hvalid.bounds hblock
  by_cases hb : b + 1 < r.blocks.size
  · exact .inl (Block.mem_sites.2 ⟨Nat.le_refl _, h.start_lt hblock hb⟩)
  · have hstart := h.last_start hblock (Nat.le_antisymm hlt (Nat.not_lt.1 hb))
    have hempty : r.lastBranch? block = none := if_neg (by omega)
    refine .inr ⟨by omega, hstart, ?_⟩
    rw [h.successors_eq hblock, hempty]
    exact if_neg hb

/-- Behind the last instruction of a block the machine goes to a successor. -/
theorem follow (hnext : next ∈ block.successors) (htarget : r.blocks[next]? = some target) :
    ∃ y, r.Path ⟨b, block.stop⟩ [] y ∧ r.StandsAt target.start y :=
  ⟨_, .follow hblock hnext htarget (.refl _), h.standsAt_start hvalid htarget⟩

theorem follow_next (hnonempty : block.start < block.stop)
    (hjump : ∀ branch, r.lastBranch? block = some branch → branch.isJump = false) :
    ∃ y, r.Path ⟨b, block.stop⟩ [] y ∧ r.StandsAt block.stop y := by
  have hlt : b < r.blocks.size := (Array.getElem?_eq_some_iff.1 hblock).1
  have hb : b + 1 < r.blocks.size := by
    by_contra hlast
    have hstart := h.last_start hblock (Nat.le_antisymm hlt (Nat.not_lt.1 hlast))
    have hbounds := hvalid.bounds hblock
    omega
  have hnext := Array.getElem?_eq_getElem hb
  obtain ⟨y, hpath, hstands⟩ := h.follow hvalid hblock (h.next_mem hblock hb hjump) hnext
  exact ⟨y, hpath, hvalid.start_eq_stop hblock hnext ▸ hstands⟩

end IsChained

/-- One executed instruction is one step along a path. -/
theorem Executes.path (h : r.Executes act) (hvalid : r.IsValid) (hchained : r.IsChained)
    (hblock : r.blocks[b]? = some block) (hsite : act.site ∈ block.sites) :
    ∃ y, r.Path ⟨b, act.site + 1⟩ [] y ∧ r.StandsAt act.next y := by
  have hlast : ∀ {site : Nat} {instr : Instruction}, r.code[site]? = some instr →
      site + 1 = block.stop → site ∈ block.sites → r.lastBranch? block = instr.op.branch? := by
    intro site instr hcode hend hsite
    have hlt := Block.mem_sites.1 hsite
    rw [lastBranch?, if_pos (by omega), show block.stop - 1 = site by omega, hcode]
    rfl
  cases h with
  | @plain site instr reads writes hcode hbranch hacts =>
    have hrange := Block.mem_sites.1 hsite
    dsimp only at hrange ⊢
    by_cases hend : site + 1 = block.stop
    · rw [hend]
      refine hchained.follow_next hvalid hblock (by omega) fun branch hbranch' => ?_
      rw [hlast hcode hend hsite, hbranch] at hbranch'
      cases hbranch'
    · refine ⟨_, .refl _, rfl, block, hblock, .inl (Block.mem_sites.2 ?_)⟩
      omega
  | @taken site instr branch target reads writes hcode hbranch hacts htarget =>
    have hat : r.BranchAt site branch := ⟨instr, hcode, eq_branch_of_branch? hbranch⟩
    have hend := (hvalid.branch_last hblock hsite hat).1
    dsimp only
    rw [hend]
    have hmem := hchained.target_mem hblock ((hlast hcode hend hsite).trans hbranch)
    exact hchained.follow hvalid hblock hmem htarget
  | @untaken site instr branch reads writes hcode hbranch hjump hacts =>
    have hat : r.BranchAt site branch := ⟨instr, hcode, eq_branch_of_branch? hbranch⟩
    have hend := (hvalid.branch_last hblock hsite hat).1
    have hrange := Block.mem_sites.1 hsite
    dsimp only at hrange ⊢
    rw [hend]
    refine hchained.follow_next hvalid hblock (by omega) fun branch' hbranch' => ?_
    rw [hlast hcode hend hsite, hbranch] at hbranch'
    cases hbranch'
    exact hjump

theorem Executes.exists_code (h : r.Executes act) :
    ∃ instr taken, r.code[act.site]? = some instr ∧
      instr.op.Acts taken act.reads act.writes := by
  cases h with
  | plain hcode _ hacts => exact ⟨_, _, hcode, hacts⟩
  | taken hcode _ hacts _ => exact ⟨_, _, hcode, hacts⟩
  | untaken hcode _ _ hacts => exact ⟨_, _, hcode, hacts⟩

/-- Where the machine executes an instruction it stands before it. -/
theorem StandsAt.mem_sites (h : r.StandsAt act.site x) (hact : r.Executes act) :
    ∃ block, r.blocks[x.block]? = some block ∧ act.site ∈ block.sites := by
  obtain ⟨-, block, hblock, hsite | ⟨-, hend, -⟩⟩ := h
  · exact ⟨block, hblock, hsite⟩
  · obtain ⟨instr, _, hcode, -⟩ := hact.exists_code
    have hlt := (Array.getElem?_eq_some_iff.1 hcode).1
    omega

/-- A run of the machine is a path over the instructions that it executes. -/
theorem Runs.path (h : r.Runs pc acts pc') (hvalid : r.IsValid) (hchained : r.IsChained)
    (hstands : r.StandsAt pc x) : ∃ y, r.Path x (acts.map Act.site) y ∧ r.StandsAt pc' y := by
  induction h generalizing x with
  | nil pc => exact ⟨x, .refl x, hstands⟩
  | @cons act acts pc' hact hrest ih =>
    obtain ⟨block, hblock, hsite⟩ := hstands.mem_sites hact
    obtain ⟨y, hstep, hnext⟩ := hact.path hvalid hchained hblock hsite
    obtain ⟨z, hpath, hend⟩ := ih hnext
    obtain ⟨b, site⟩ := x
    obtain rfl : site = act.site := hstands.1
    exact ⟨z, .pass hblock hsite (hstep.trans hpath), hend⟩

/-- What the machine uses next is used at the point where it stands. -/
theorem UsedNext.uses (h : r.UsedNext q pc) (hvalid : r.IsValid) (hstands : r.StandsAt pc x) :
    r.Uses q x := by
  obtain ⟨b, site⟩ := x
  rcases h with ⟨act, hact, rfl, hread⟩ | ⟨hend, hresult⟩
  · obtain ⟨block, hblock, hsite⟩ := hstands.mem_sites hact
    obtain ⟨instr, taken, hcode, hacts⟩ := hact.exists_code
    obtain rfl : site = act.site := hstands.1
    exact .read hblock hsite hcode (hacts.mem_reads hread)
  · obtain ⟨hsite, block, hblock, hinside | ⟨hstop, -, hexit⟩⟩ := hstands
    · have hlt := (Block.mem_sites.1 hinside).2
      have hbounds := hvalid.bounds hblock
      omega
    · obtain rfl : site = block.stop := hsite.trans hstop
      exact .leave hblock hexit hresult

/-- The machine does not look at the consumed sets. -/
theorem Executes.of_annotate (h : u.annotate.Executes act) : u.Executes act := by
  cases h with
  | plain hcode hbranch hacts =>
    obtain ⟨base, hbase, hop, -⟩ := annotate_code hcode
    rw [← hop] at hbranch hacts
    exact .plain hbase hbranch hacts
  | taken hcode hbranch hacts htarget =>
    obtain ⟨base, hbase, hop, -⟩ := annotate_code hcode
    rw [← hop] at hbranch hacts
    exact .taken hbase hbranch hacts htarget
  | untaken hcode hbranch hjump hacts =>
    obtain ⟨base, hbase, hop, -⟩ := annotate_code hcode
    rw [← hop] at hbranch hacts
    exact .untaken hbase hbranch hjump hacts

theorem Runs.of_annotate (h : u.annotate.Runs pc acts pc') : u.Runs pc acts pc' := by
  induction h with
  | nil pc => exact .nil pc
  | cons hact _ ih => exact .cons hact.of_annotate ih

theorem Runs.executes (h : r.Runs pc acts pc') : ∀ act ∈ acts, r.Executes act := by
  induction h with
  | nil pc => exact fun act hact => nomatch hact
  | cons hfirst _ ih =>
    intro act hact
    rcases List.mem_cons.1 hact with rfl | hact
    · exact hfirst
    · exact ih act hact

theorem UsedNext.of_annotate (h : u.annotate.UsedNext q pc) : u.UsedNext q pc := by
  rcases h with ⟨act, hact, hsite, hread⟩ | ⟨hend, hresult⟩
  · exact .inl ⟨act, hact.of_annotate, hsite, hread⟩
  · exact .inr ⟨hend.trans u.size_annotate, hresult⟩

/-- What an instruction consumes is dead behind it, unless the instruction writes it. -/
theorem IsValid.not_liveAt_of_consumed (hvalid : u.IsValid) (hblock : u.blocks[b]? = some block)
    {i : Nat} (hi : i ∈ block.sites) {instr : Instruction}
    (hcode : u.annotate.code[i]? = some instr) (hq : q ∈ instr.consumed)
    (hkeep : q ∉ instr.op.writes) : ¬ u.LiveAt q ⟨b, i + 1⟩ := by
  obtain ⟨base, hbase, hop, hconsumed⟩ := annotate_code hcode
  rw [← hop] at hkeep
  have hsites := Block.mem_sites.1 hi
  rw [← hvalid.mem_liveWithin_iff hblock (Nat.le_succ_of_le hsites.1) hsites.2]
  exact ((hvalid.mem_consumed hblock hi hbase hconsumed).1 hq).2.resolve_left hkeep

/-- In an assembled routine, a register that an instruction consumes is overwritten, by the
instruction itself or later, before the machine uses what it holds again, if the execution
skips no write of the register. -/
theorem consumed_overwritten {name : String} {program : List Statement}
    (hr : assemble name program = .ok r) {i : Nat} {instr : Instruction}
    (hcode : r.code[i]? = some instr) (hq : q ∈ instr.consumed)
    (hrun : r.Runs i acts pc) (hacts : acts ≠ []) (hused : r.UsedNext q pc)
    (hskip : ∀ act ∈ acts, q ∉ r.skipped act) : ∃ act ∈ acts, q ∈ act.writes := by
  obtain ⟨u, rfl, hvalid, hchained⟩ := Draft.finish_eq_ok hr
  by_contra hnone
  -- What is neither written nor skipped is not among the writes of the instructions.
  have hkept : ∀ act ∈ acts, ∀ instr, u.annotate.code[act.site]? = some instr →
      q ∉ instr.op.writes := by
    intro act hact instr hcode hwrites
    apply hskip act hact
    rw [skipped, hcode]
    exact RegisterSet.mem_diff.2 ⟨hwrites, fun hwritten => hnone ⟨act, hact, hwritten⟩⟩
  cases hrun with
  | nil pc => exact hacts rfl
  | @cons first rest pc hfirst hrest =>
    have hlt : first.site < u.code.size :=
      u.size_annotate ▸ (Array.getElem?_eq_some_iff.1 hcode).1
    obtain ⟨b, block, hblock, hsite⟩ := hvalid.exists_block hlt
    obtain ⟨y, hstep, hstands⟩ := hfirst.of_annotate.path hvalid hchained hblock hsite
    obtain ⟨z, hpath, hend⟩ := hrest.of_annotate.path hvalid hchained hstands
    have hkeeps : u.Keeps q (rest.map Act.site) := by
      intro site hmem base hbase
      obtain ⟨act, hact, rfl⟩ := List.mem_map.1 hmem
      obtain ⟨later, _, hlater, -⟩ := (hrest.executes act hact).exists_code
      obtain ⟨base', hbase', hop, -⟩ := annotate_code hlater
      cases hbase.symm.trans hbase'
      rw [hop]
      exact hkept act (List.mem_cons_of_mem _ hact) later hlater
    exact hvalid.not_liveAt_of_consumed hblock hsite hcode hq
      (hkept first List.mem_cons_self instr hcode)
      ⟨_, z, hstep.trans hpath, hkeeps, hused.of_annotate.uses hvalid hend⟩

/-- Stores the successor of a register for as long as the register is not zero. -/
def storeLoop : List Statement :=
  [.label "top",
   .set ⟨8⟩ .add [.register ⟨4⟩, .int 1],
   .store (.register ⟨5⟩) 0 (.register ⟨8⟩) 4 .integer,
   .branch .nonZero [.register ⟨4⟩] "top" false none]

def storeLoopRoutine : Routine where
  name := "store-loop"
  code := #[⟨.set (.write ⟨8⟩ 0) ⟨.add, [.var (.read ⟨4⟩ 0), .int 1]⟩, ∅⟩,
    ⟨.store (.var (.read ⟨5⟩ 1)) 0 (.var (.read ⟨8⟩ 1)) 4 .integer, .single ⟨8⟩⟩,
    ⟨.branch ⟨⟨.nonZero, [.var (.read ⟨4⟩ 2)]⟩, false, 0, none⟩, ∅⟩]
  blocks := #[⟨0, 0, 3, [1, 0]⟩, ⟨1, 3, 3, []⟩]
  labels := [("epilogue", 1), ("top", 0)]
  epilogue := some 1
  resultRegister := .v0

/-- What the store reads is overwritten in the next round, before the store reads it again. -/
theorem storeLoop_overwritten :
    assemble "store-loop" storeLoop = .ok storeLoopRoutine ∧ ∃ acts,
      storeLoopRoutine.Runs 1 acts 1 ∧ acts ≠ [] ∧ storeLoopRoutine.UsedNext ⟨8⟩ 1 ∧
      (∀ act ∈ acts, ⟨8⟩ ∉ storeLoopRoutine.skipped act) ∧ ∃ act ∈ acts, ⟨8⟩ ∈ act.writes := by
  have hr : assemble "store-loop" storeLoop = .ok storeLoopRoutine := by cbv
  have htop : storeLoopRoutine.blocks[0]? = some ⟨0, 0, 3, [1, 0]⟩ := rfl
  have hcode : storeLoopRoutine.code[2]? = some _ := rfl
  have hset : storeLoopRoutine.Executes ⟨0, _, _, 1⟩ := .plain rfl rfl (.plain rfl)
  have hstore : storeLoopRoutine.Executes ⟨1, _, _, 2⟩ := .plain rfl rfl (.plain rfl)
  have hbranch := Executes.taken hcode rfl .bare htop
  have hrun : storeLoopRoutine.Runs 1 [_, _, _] 1 :=
    .cons hstore (.cons hbranch (.cons hset (.nil 1)))
  have hused : storeLoopRoutine.UsedNext ⟨8⟩ 1 := .inl ⟨_, hstore, rfl, by decide⟩
  exact ⟨hr, _, hrun, by decide, hused, by decide,
    consumed_overwritten hr rfl (by decide) hrun (by decide) hused (by decide)⟩

/-- Negates a register if it is negative, in the slot of a likely branch, and adds one to it
otherwise. -/
def negateOrNext : List Statement :=
  [.branch .lessZero [.register ⟨4⟩] "done" true (some ⟨⟨4⟩, .neg, [.register ⟨4⟩]⟩),
   .set ⟨4⟩ .add [.register ⟨4⟩, .int 1],
   .label "done",
   .move .v0 (.register ⟨4⟩)]

def negateOrNextRoutine : Routine where
  name := "negate-or-next"
  code := #[⟨.branch ⟨⟨.lessZero, [.var (.read ⟨4⟩ 0)]⟩, true, 2,
      some (.set (.write ⟨4⟩ 0) ⟨.neg, [.var (.read ⟨4⟩ 0)]⟩)⟩, .single ⟨4⟩⟩,
    ⟨.set (.write ⟨4⟩ 1) ⟨.add, [.var (.read ⟨4⟩ 1), .int 1]⟩, .single ⟨4⟩⟩,
    ⟨.set (.write .v0 2) ⟨.identity, [.var (.read ⟨4⟩ 2)]⟩, .single ⟨4⟩⟩]
  blocks := #[⟨0, 0, 1, [1, 2]⟩, ⟨1, 1, 2, [2]⟩, ⟨2, 2, 3, [3]⟩, ⟨3, 3, 3, []⟩]
  labels := [("done", 2), ("epilogue", 3)]
  epilogue := some 3
  resultRegister := .v0

/-- The branch consumes the register that it tests because its slot writes it.  When the branch
is not taken the slot is not run, and the next instruction reads the register again. -/
theorem negateOrNext_read_again :
    assemble "negate-or-next" negateOrNext = .ok negateOrNextRoutine ∧
      ∃ instr acts, negateOrNextRoutine.code[0]? = some instr ∧
        ⟨4⟩ ∈ instr.consumed ∧ negateOrNextRoutine.Runs 0 acts 1 ∧ acts ≠ [] ∧
        negateOrNextRoutine.UsedNext ⟨4⟩ 1 ∧ ∀ act ∈ acts, ⟨4⟩ ∉ act.writes := by
  have hr : assemble "negate-or-next" negateOrNext = .ok negateOrNextRoutine := by cbv
  have hbranch : negateOrNextRoutine.Executes ⟨0, _, _, 1⟩ := .untaken rfl rfl rfl .annulled
  have hadd : negateOrNextRoutine.Executes ⟨1, _, _, 2⟩ := .plain rfl rfl (.plain rfl)
  have hrun : negateOrNextRoutine.Runs 0 [_] 1 := .cons hbranch (.nil 1)
  exact ⟨hr, _, _, rfl, by decide, hrun, by decide, .inl ⟨_, hadd, rfl, by decide⟩, by decide⟩

end Routine

end Decompiler
