import Decompiler.Proofs.Liveness.Paths
import Decompiler.Proofs.Machine.Labels
import Decompiler.Proofs.Machine.Layout
import Decompiler.Proofs.Machine.Statements

/-!
Which programs are assembled, and what becomes of them.  A program is assembled exactly when
its labels can be resolved and its own branches stand where blocks end; then blocks start
where its labels and branch statements say, labels and branches lead to the blocks at the
labels, and control goes from block to block as the last instructions of the blocks say.
-/

namespace Decompiler

open List

variable {r : Routine} {b : BlockId} {block : Block} {branch : Branch} {i : Nat}

/-- The programs that can be assembled.  No name is defined twice, and branch statements name
labels of the program or the epilogue.  A branch that is taken as it is leads to a block, and
stands where a block ends for another reason. -/
structure Resolvable (program : List Statement) : Prop where
  labels_nodup : (program.filterMap Statement.label?).Nodup
  target_defined : ∀ {test args target likely delay},
    .branch test args target likely delay ∈ program →
      target = epilogueLabel ∨ .label target ∈ program
  raw_last : ∀ {branch : Branch} {i : Nat}, PlacedAt program (.operation (.branch branch)) i →
    i + 1 = instructionCount program ∨ ∃ name, PlacedAt program (.label name) (i + 1)
  raw_target : ∀ {branch : Branch} {i : Nat}, PlacedAt program (.operation (.branch branch)) i →
    branch.target < blockCount program

namespace Routine

/-- A block whose last instruction is a branch. -/
def EndsWith (r : Routine) (block : Block) (branch : Branch) : Prop :=
  block.start < block.stop ∧ r.BranchAt (block.stop - 1) branch

/-- A block that starts at a position. -/
def StartsAt (r : Routine) (b : BlockId) (i : Nat) : Prop :=
  ∃ block, r.blocks[b]? = some block ∧ block.start = i

/-- Where control goes from a block: nowhere from the last one, to the target of a jump, to
the next block and the target of a conditional branch, and to the next block otherwise. -/
inductive Leads (r : Routine) (block : Block) : List BlockId → Prop
  | leave (hlast : block.id + 1 = r.blocks.size) : Leads r block []
  | jump {branch : Branch} (hends : r.EndsWith block branch) (hjump : branch.isJump = true) :
    Leads r block [branch.target]
  | either {branch : Branch} (hends : r.EndsWith block branch) (hjump : branch.isJump = false)
    (hlt : block.id + 1 < r.blocks.size) (hother : branch.target ≠ block.id + 1) :
    Leads r block [block.id + 1, branch.target]
  | skip {branch : Branch} (hends : r.EndsWith block branch) (hjump : branch.isJump = false)
    (hlt : block.id + 1 < r.blocks.size) (hnext : branch.target = block.id + 1) :
    Leads r block [block.id + 1]
  | next (hnone : ∀ branch, ¬ r.EndsWith block branch) (hlt : block.id + 1 < r.blocks.size) :
    Leads r block [block.id + 1]

structure LaysOut (r : Routine) (program : List Statement) : Prop where
  size_code : r.code.size = instructionCount program
  tiles : Block.Tiles 0 r.blocks.toList (instructionCount program)
  id_eq : ∀ {b : BlockId} {block : Block}, r.blocks[b]? = some block → block.id = b
  -- The epilogue is the last block, and no other one is empty.
  epilogue : ∃ e, r.epilogue = some e ∧ e + 1 = r.blocks.size ∧
    ∀ {b : BlockId} {block : Block}, r.blocks[b]? = some block →
      (block.start = block.stop ↔ b = e)
  starts : ∀ {i : Nat}, i < instructionCount program →
    ((∃ b, r.StartsAt b i) ↔ StartsBlock program i)
  -- A label behind the last instruction names the epilogue, which is the block that starts there.
  label : ∀ {name : String} {i : Nat}, PlacedAt program (.label name) i →
    ∃ b, r.label? name = some b ∧ ∀ b', r.StartsAt b' i ↔ b' = b
  epilogue_label : .label epilogueLabel ∉ program → r.label? epilogueLabel = r.epilogue
  branch : ∀ {test args target likely delay i},
    PlacedAt program (.branch test args target likely delay) i →
      ∃ b, r.label? target = some b ∧
        r.BranchAt i ⟨⟨test, args.map (Operand.atom i)⟩, likely, b, delay.map (Delay.operation i)⟩
  successors : ∀ {b : BlockId} {block : Block}, r.blocks[b]? = some block →
    r.Leads block block.successors

theorem lastBranch?_eq_some : r.lastBranch? block = some branch ↔ r.EndsWith block branch := by
  unfold lastBranch? EndsWith BranchAt
  split
  · rename_i hlt
    simp only [hlt, true_and, Option.bind_eq_some_iff]
    refine exists_congr fun instr => and_congr_right fun _ => ⟨eq_branch_of_branch?, ?_⟩
    intro hop
    rw [hop]
    rfl
  · rename_i hlt
    simp [hlt]

theorem branchAt_annotate : r.annotate.BranchAt i branch ↔ r.BranchAt i branch := by
  constructor
  · rintro ⟨instr, hcode, hop⟩
    obtain ⟨base, hbase, heq, -⟩ := annotate_code hcode
    exact ⟨base, hbase, heq.trans hop⟩
  · rintro ⟨base, hbase, hop⟩
    have hlt : i < r.annotate.code.size := by
      rw [size_annotate]
      exact (Array.getElem?_eq_some_iff.1 hbase).1
    obtain ⟨base', hbase', heq, -⟩ := annotate_code (Array.getElem?_eq_getElem hlt)
    rw [hbase] at hbase'
    cases hbase'
    exact ⟨_, Array.getElem?_eq_getElem hlt, heq.symm.trans hop⟩

/-- Control goes from the blocks of a chained routine where their last instructions lead. -/
theorem IsChained.leads (h : r.IsChained) (hid : block.id = b)
    (hblock : r.blocks[b]? = some block) : r.Leads block block.successors := by
  have hlt : b < r.blocks.size := (Array.getElem?_eq_some_iff.1 hblock).1
  rw [h.successors_eq hblock]
  cases hlast : r.lastBranch? block with
  | none =>
    have hnone : ∀ branch, ¬ r.EndsWith block branch := by
      intro branch hends
      rw [lastBranch?_eq_some.2 hends] at hlast
      cases hlast
    by_cases hnext : b + 1 < r.blocks.size
    · simp only [successorsOf, hnext, if_true]
      rw [← hid] at hnext ⊢
      exact .next hnone hnext
    · simp only [successorsOf, hnext, if_false]
      apply Leads.leave
      rw [hid]
      exact Nat.le_antisymm hlt (Nat.not_lt.1 hnext)
  | some branch =>
    have hends := lastBranch?_eq_some.1 hlast
    have hnext : b + 1 < r.blocks.size := by
      by_contra hge
      have hstart := h.last_start hblock (Nat.le_antisymm hlt (Nat.not_lt.1 hge))
      obtain ⟨hnonempty, instr, hcode, -⟩ := hends
      have := (Array.getElem?_eq_some_iff.1 hcode).1
      omega
    cases hjump : branch.isJump with
    | true =>
      simp only [successorsOf, hjump, if_true]
      exact .jump hends hjump
    | false =>
      simp only [successorsOf, hjump, hnext, if_true, Bool.false_eq_true, if_false,
        contains_cons, contains_nil, Bool.or_false, beq_iff_eq]
      rw [← hid] at hnext ⊢
      by_cases htarget : branch.target = block.id + 1
      · simp only [htarget, if_true]
        exact .skip hends hjump hnext htarget
      · simp only [htarget, if_false]
        exact .either hends hjump hnext htarget

variable {nexts : List BlockId}

theorem Leads.lt (h : r.Leads block nexts)
    (htarget : ∀ {branch}, r.EndsWith block branch → branch.target < r.blocks.size) :
    ∀ next ∈ nexts, next < r.blocks.size := by
  cases h with
  | leave => simp
  | jump hends => simp [htarget hends]
  | either hends _ hlt => simp [htarget hends, hlt]
  | skip _ _ hlt | next _ hlt => simp [hlt]

theorem endsWith_annotate : r.annotate.EndsWith block branch ↔ r.EndsWith block branch :=
  and_congr_right fun _ => branchAt_annotate

theorem Leads.annotate (h : r.Leads block nexts) : r.annotate.Leads block nexts := by
  cases h with
  | leave hlast => exact .leave hlast
  | jump hends hjump => exact .jump (endsWith_annotate.2 hends) hjump
  | either hends hjump hlt hother => exact .either (endsWith_annotate.2 hends) hjump hlt hother
  | skip hends hjump hlt hnext => exact .skip (endsWith_annotate.2 hends) hjump hlt hnext
  | next hnone hlt => exact .next (fun branch hends => hnone branch (endsWith_annotate.1 hends)) hlt

end Routine

theorem exists_mapM_eq_ok {α β : Type} {check : α → Except Error β} {as : List α}
    (h : ∀ a ∈ as, ∃ b, check a = .ok b) : ∃ bs, as.mapM check = .ok bs := by
  induction as with
  | nil => exact ⟨[], rfl⟩
  | cons a as ih =>
    obtain ⟨b, hb⟩ := h a mem_cons_self
    obtain ⟨bs, hbs⟩ := ih fun other hother => h other (mem_cons_of_mem _ hother)
    refine ⟨b :: bs, ?_⟩
    rw [mapM_cons]
    exact bind_eq_ok.2 ⟨b, hb, bind_eq_ok.2 ⟨bs, hbs, rfl⟩⟩

theorem DraftOperation.resolve_branch_eq_ok {name target : String} {labels : Labels}
    {condition : Condition} {likely : Bool} {delay : Option Operation} {instr : Instruction} :
    (DraftOperation.branch condition likely target delay).resolve name labels = .ok instr ↔
      ∃ b, labels.lookup target = some b ∧
        instr = ⟨.branch ⟨condition, likely, b, delay⟩, ∅⟩ := by
  rw [DraftOperation.resolve]
  cases labels.lookup target <;> simp [eq_comm]

namespace Draft

variable {d : Draft} {program : List Statement} {name x : String} {labels : Labels}
  {code : Array Instruction}

/-- The routine of a draft before the consumed sets are filled in. -/
def routine (d : Draft) (name : String) (labels : Labels) (code : Array Instruction) : Routine :=
  { name, code, blocks := d.layout code, labels, epilogue := some d.epilogue,
    resultRegister := d.resultRegister }

/-- The labels of a draft, and its operations with blocks in place of labels. -/
structure Resolves (d : Draft) (name : String) (labels : Labels) (code : Array Instruction) :
    Prop where
  labels_eq : d.resolveLabels name = .ok labels
  code_eq : d.ops.toList.mapM (DraftOperation.resolve name labels) = .ok code.toList

theorem finish_eq_ok_iff :
    d.finish name = .ok r ↔ ∃ labels code, d.Resolves name labels code ∧
      (d.routine name labels code).validate = .ok () ∧ (d.routine name labels code).annotate = r := by
  have hmapM : ∀ labels (code : Array Instruction),
      d.ops.mapM (DraftOperation.resolve name labels) = .ok code ↔
        d.ops.toList.mapM (DraftOperation.resolve name labels) = .ok code.toList := by
    intro labels code
    rw [Array.mapM_eq_mapM_toList]
    cases d.ops.toList.mapM (DraftOperation.resolve name labels) with
    | error e => simp
    | ok ops => simp [← Array.toList_inj]
  constructor
  · intro h
    obtain ⟨labels, hlabels, h⟩ := bind_eq_ok.1 h
    obtain ⟨code, hcode, h⟩ := bind_eq_ok.1 h
    obtain ⟨_, hvalid, h⟩ := bind_eq_ok.1 h
    exact ⟨labels, code, ⟨hlabels, (hmapM labels code).1 hcode⟩, hvalid, pure_eq_ok.1 h⟩
  · rintro ⟨labels, code, ⟨hlabels, hcode⟩, hvalid, h⟩
    exact bind_eq_ok.2 ⟨labels, hlabels, bind_eq_ok.2 ⟨code, (hmapM labels code).2 hcode,
      bind_eq_ok.2 ⟨(), hvalid, pure_eq_ok.2 h⟩⟩⟩

theorem mem_boundaries_drafted :
    i ∈ (drafted program).boundaries ↔
      i = instructionCount program ∨ i < instructionCount program ∧ StartsBlock program i := by
  rw [boundaries, mem_append, mem_singleton, mem_starts, startsBlock_drafted,
    size_ops_drafted, or_comm]

theorem label_mem_boundaries (h : PlacedAt program (.label x) i) :
    i ∈ (drafted program).boundaries := by
  rcases Nat.eq_or_lt_of_le h.le with heq | hlt
  · exact mem_boundaries_drafted.2 (.inl heq)
  · exact mem_boundaries_drafted.2 (.inr ⟨hlt, .inr (.inl ⟨x, h⟩)⟩)

theorem behind_branch_mem_boundaries (h : BranchesAt program i) :
    i + 1 ∈ (drafted program).boundaries := by
  rcases Nat.eq_or_lt_of_le (Nat.succ_le_of_lt h.lt) with heq | hlt
  · exact mem_boundaries_drafted.2 (.inl heq)
  · exact mem_boundaries_drafted.2 (.inr ⟨hlt, .inr (.inr ⟨i, rfl, h⟩)⟩)

theorem length_ranges_drafted (program : List Statement) :
    (drafted program).ranges.length = blockCount program := by
  rw [length_ranges, starts_drafted, blockCount]

namespace Resolves

theorem code_getElem? (h : d.Resolves name labels code) {instr : Instruction} :
    code[i]? = some instr ↔ ∃ op, d.ops[i]? = some op ∧ op.resolve name labels = .ok instr := by
  obtain ⟨hlength, hget⟩ := forall₂_iff_get.1 (mapM_eq_ok h.code_eq)
  rw [← Array.getElem?_toList, ← Array.getElem?_toList]
  constructor
  · intro hcode
    obtain ⟨hi, rfl⟩ := List.getElem?_eq_some_iff.1 hcode
    have hi' : i < d.ops.toList.length := hlength ▸ hi
    exact ⟨_, getElem?_eq_getElem hi', hget i hi' hi⟩
  · rintro ⟨op, hop, hresolve⟩
    obtain ⟨hi, rfl⟩ := List.getElem?_eq_some_iff.1 hop
    have hi' : i < code.toList.length := hlength ▸ hi
    have heq : d.ops.toList[i].resolve name labels = .ok code.toList[i] := hget i hi hi'
    rw [hresolve] at heq
    cases heq
    exact getElem?_eq_getElem hi'

theorem size_code (h : d.Resolves name labels code) : code.size = d.ops.size :=
  (mapM_eq_ok h.code_eq).length_eq.symm

end Resolves

theorem exists_blockAt {entry : String × Nat} (h : entry ∈ (drafted program).labels.toList) :
    ∃ b, (drafted program).blockAt? entry.2 = some b := by
  have hmem : entry.2 ∈ (drafted program).boundaries :=
    label_mem_boundaries (mem_labels_drafted.1 h)
  obtain ⟨b, hb⟩ := getElem?_of_mem hmem
  exact ⟨b, blockAt?_eq_some_iff.2 hb⟩

theorem id_of_block (h : (d.layout code)[b]? = some block) : block.id = b := by
  obtain ⟨_, -, rfl⟩ := Option.map_eq_some_iff.1 ((layout_getElem? code b).symm.trans h)
  rfl

theorem range_of_block (h : (d.layout code)[b]? = some block) :
    d.ranges[b]? = some (block.start, block.stop) := by
  obtain ⟨_, hrange, rfl⟩ := Option.map_eq_some_iff.1 ((layout_getElem? code b).symm.trans h)
  exact hrange

/-- Only the epilogue is empty. -/
theorem range_empty_iff {start stop : Nat} (h : d.ranges[b]? = some (start, stop)) :
    start = stop ↔ b = d.epilogue := by
  have hb : b < d.starts.length + 1 := length_ranges ▸ (List.getElem?_eq_some_iff.1 h).1
  constructor
  · intro hempty
    rcases Nat.lt_or_eq_of_le (Nat.le_of_lt_succ hb) with hlt | heq
    · exact absurd hempty (Nat.ne_of_lt (ranges_lt hlt h))
    · exact heq
  · rintro rfl
    rw [epilogue, ranges_last] at h
    cases h
    rfl

theorem startsAt_iff (hr : r.blocks = d.layout code) :
    r.StartsAt b i ↔ d.boundaries[b]? = some i := by
  unfold Routine.StartsAt
  rw [hr]
  constructor
  · rintro ⟨block, hblock, rfl⟩
    exact boundary_of_range (range_of_block hblock)
  · intro h
    obtain ⟨stop, hrange⟩ := exists_range h
    have hblock : (d.layout code)[b]? = _ := layout_getElem? code b
    rw [hrange] at hblock
    exact ⟨_, hblock, rfl⟩

/-- The names that lead somewhere, and where. -/
theorem lookup_eq_some (h : (drafted program).resolveLabels name = .ok labels) :
    labels.lookup x = some b ↔
      (∃ i, PlacedAt program (.label x) i ∧ (drafted program).boundaries[b]? = some i) ∨
        x = epilogueLabel ∧ .label x ∉ program ∧ b = (drafted program).epilogue := by
  have hundefined : (∀ i, (x, i) ∉ (drafted program).labels.toList) ↔ .label x ∉ program := by
    simp only [mem_labels_drafted]
    constructor
    · intro hnone hmem
      obtain ⟨i, hi⟩ := exists_placedAt hmem
      exact hnone i hi
    · intro hnot i hi
      exact hnot hi.mem
  have hlookup := (resolveLabels_eq_ok h fun _ => exists_blockAt).2 x b
  rw [hundefined] at hlookup
  simpa only [mem_labels_drafted, blockAt?_eq_some_iff] using hlookup

namespace Resolves

section

variable (h : (drafted program).Resolves name labels code)
include h

theorem lookup_lt (hlookup : labels.lookup x = some b) : b < blockCount program := by
  rw [← length_ranges_drafted, length_ranges]
  rcases (lookup_eq_some h.labels_eq).1 hlookup with ⟨i, -, hb⟩ | ⟨-, -, rfl⟩
  · have hlt := (List.getElem?_eq_some_iff.1 hb).1
    simpa [boundaries] using hlt
  · exact Nat.lt_succ_self _

/-- The branches of the code are those that are taken as they are, and those of the branch
statements. -/
theorem branchAt_iff :
    ((drafted program).routine name labels code).BranchAt i branch ↔
      PlacedAt program (.operation (.branch branch)) i ∨
        ∃ test args target likely delay b,
          PlacedAt program (.branch test args target likely delay) i ∧
            labels.lookup target = some b ∧
              branch = ⟨⟨test, args.map (Operand.atom i)⟩, likely, b,
                delay.map (Delay.operation i)⟩ := by
  constructor
  · rintro ⟨instr, hcode, hbranch⟩
    obtain ⟨op, hop, hresolve⟩ := h.code_getElem?.1 hcode
    cases op with
    | ready raw =>
      cases hresolve
      cases hbranch
      exact .inl (placedAt_raw_iff.2 hop)
    | branch condition likely target delay =>
      obtain ⟨test, args, slot, hplaced, rfl, rfl⟩ := exists_branch_of_op hop
      obtain ⟨b, hlookup, rfl⟩ := DraftOperation.resolve_branch_eq_ok.1 hresolve
      cases hbranch
      exact .inr ⟨test, args, target, likely, slot, b, hplaced, hlookup, rfl⟩
  · rintro (hplaced | ⟨test, args, target, likely, delay, b, hplaced, hlookup, rfl⟩)
    · exact ⟨_, h.code_getElem?.2 ⟨_, placedAt_raw_iff.1 hplaced, rfl⟩, rfl⟩
    · obtain ⟨op, hop, rfl⟩ := hplaced.exists_op rfl
      exact ⟨_, h.code_getElem?.2
        ⟨_, hop, DraftOperation.resolve_branch_eq_ok.2 ⟨b, hlookup, rfl⟩⟩, rfl⟩

/-- A branch statement leads to a name that leads somewhere. -/
theorem exists_lookup {test args target likely delay}
    (hplaced : PlacedAt program (.branch test args target likely delay) i) :
    ∃ b, labels.lookup target = some b := by
  obtain ⟨op, hop, rfl⟩ := hplaced.exists_op rfl
  have hi : i < code.size := h.size_code ▸ (Array.getElem?_eq_some_iff.1 hop).1
  obtain ⟨_, hop', hresolve⟩ := h.code_getElem?.1 (Array.getElem?_eq_getElem hi)
  rw [hop] at hop'
  cases hop'
  obtain ⟨b, hlookup, -⟩ := DraftOperation.resolve_branch_eq_ok.1 hresolve
  exact ⟨b, hlookup⟩

/-- The branches of a program that can be assembled end blocks and lead to blocks. -/
theorem branch_mem_boundaries (hprogram : Resolvable program)
    (hbranch : ((drafted program).routine name labels code).BranchAt i branch) :
    i + 1 ∈ (drafted program).boundaries ∧ branch.target < blockCount program := by
  rcases h.branchAt_iff.1 hbranch with
    hraw | ⟨test, args, target, likely, delay, b, hplaced, hlookup, rfl⟩
  · refine ⟨?_, hprogram.raw_target hraw⟩
    rcases hprogram.raw_last hraw with hlast | ⟨x, hlabel⟩
    · exact mem_boundaries_drafted.2 (.inl hlast)
    · exact label_mem_boundaries hlabel
  · exact ⟨behind_branch_mem_boundaries ⟨test, args, target, likely, delay, hplaced⟩,
      h.lookup_lt hlookup⟩

end

theorem isChained (h : d.Resolves name labels code) : (d.routine name labels code).IsChained :=
  isChained_layout rfl h.size_code.symm

theorem isValid (h : (drafted program).Resolves name labels code) (hprogram : Resolvable program) :
    ((drafted program).routine name labels code).IsValid := by
  have hsize : ((drafted program).routine name labels code).blocks.size = blockCount program :=
    (size_layout code).trans (length_ranges_drafted program)
  constructor
  · have htiles := tiles_layout (d := drafted program) code
    rwa [← h.size_code] at htiles
  · intro b block hblock next hnext
    refine (h.isChained.leads (id_of_block hblock) hblock).lt ?_ next hnext
    intro branch hends
    exact hsize ▸ (h.branch_mem_boundaries hprogram hends.2).2
  · intro b block i branch hblock hi hbranch
    obtain ⟨hmem, htarget⟩ := h.branch_mem_boundaries hprogram hbranch
    refine ⟨?_, hsize ▸ htarget⟩
    have hbounds := Block.mem_sites.1 hi
    rcases not_boundary_inside (range_of_block hblock) hmem with hbefore | hbehind
    · omega
    · omega

/-- A program that passes the checks can be assembled. -/
theorem resolvable (h : (drafted program).Resolves name labels code)
    (hvalid : ((drafted program).routine name labels code).IsValid) : Resolvable program := by
  have hraw : ∀ {branch : Branch} {i : Nat}, PlacedAt program (.operation (.branch branch)) i →
      i + 1 ∈ (drafted program).boundaries ∧ branch.target < blockCount program := by
    intro branch i hplaced
    have hi : i < code.size := by
      rw [h.size_code, size_ops_drafted]
      exact hplaced.lt rfl
    obtain ⟨b, block, hblock, hsites⟩ := hvalid.exists_block hi
    obtain ⟨hstop, htarget⟩ := hvalid.branch_last hblock hsites (h.branchAt_iff.2 (.inl hplaced))
    rw [hstop, ← length_ranges_drafted, ← size_layout code]
    exact ⟨stop_mem_boundaries (range_of_block hblock), htarget⟩
  constructor
  · rw [← map_labels_drafted]
    exact (resolveLabels_eq_ok h.labels_eq fun _ => exists_blockAt).1
  · intro test args target likely delay hmem
    obtain ⟨i, hplaced⟩ := exists_placedAt hmem
    obtain ⟨b, hlookup⟩ := h.exists_lookup hplaced
    rcases (lookup_eq_some h.labels_eq).1 hlookup with ⟨i, hlabel, -⟩ | ⟨heq, -, -⟩
    · exact .inr hlabel.mem
    · exact .inl heq
  · intro branch i hplaced
    rcases mem_boundaries_drafted.1 (hraw hplaced).1 with hlast | ⟨-, hzero | hlabel | hbranch⟩
    · exact .inl hlast
    · omega
    · exact .inr hlabel
    · -- A branch that is taken as it is ends no block of its own accord.
      obtain ⟨before, heq, hbranches⟩ := hbranch
      cases heq
      rw [branchesAt_iff, placedAt_raw_iff.1 hplaced] at hbranches
      cases hbranches
  · intro branch i hplaced
    exact (hraw hplaced).2

end Resolves

theorem exists_resolves (hprogram : Resolvable program) (name : String) :
    ∃ labels code, (drafted program).Resolves name labels code := by
  have hnodup : ((drafted program).labels.toList.map Prod.fst).Nodup := by
    rw [map_labels_drafted]
    exact hprogram.labels_nodup
  have hlabels : ∃ labels, (drafted program).resolveLabels name = .ok labels :=
    exists_resolveLabels (fun _ => exists_blockAt) hnodup
  obtain ⟨labels, hlabels⟩ := hlabels
  have hdefined : ∀ {x}, x = epilogueLabel ∨ .label x ∈ program → ∃ b, labels.lookup x = some b := by
    intro x hx
    by_cases hmem : .label x ∈ program
    · obtain ⟨i, hplaced⟩ := exists_placedAt hmem
      obtain ⟨b, hb⟩ := getElem?_of_mem (label_mem_boundaries hplaced)
      exact ⟨b, (lookup_eq_some hlabels).2 (.inl ⟨i, hplaced, hb⟩)⟩
    · exact ⟨_, (lookup_eq_some hlabels).2 (.inr ⟨hx.resolve_right hmem, hmem, rfl⟩)⟩
  have hops : ∀ op ∈ (drafted program).ops.toList, ∃ instr, op.resolve name labels = .ok instr := by
    intro op hop
    cases op with
    | ready raw => exact ⟨_, rfl⟩
    | branch condition likely target delay =>
      obtain ⟨i, hi⟩ := getElem?_of_mem hop
      rw [Array.getElem?_toList] at hi
      obtain ⟨test, args, slot, hplaced, -⟩ := exists_branch_of_op hi
      obtain ⟨b, hlookup⟩ := hdefined (hprogram.target_defined hplaced.mem)
      exact ⟨_, DraftOperation.resolve_branch_eq_ok.2 ⟨b, hlookup, rfl⟩⟩
  obtain ⟨code, hcode⟩ := exists_mapM_eq_ok hops
  exact ⟨labels, code.toArray, hlabels, hcode⟩

namespace Resolves

theorem assemble_eq (h : (drafted program).Resolves name labels code)
    (hprogram : Resolvable program) :
    assemble name program = .ok ((drafted program).routine name labels code).annotate := by
  have hlast : (drafted program).epilogue < ((drafted program).layout code).size := by
    rw [size_layout, length_ranges]
    exact Nat.lt_succ_self _
  have hvalid := (h.isValid hprogram).validate_eq_ok id_of_block rfl hlast
  exact finish_eq_ok_iff.2 ⟨labels, code, h, hvalid, rfl⟩

/-- The routine of a program that passes the checks is laid out as the program says. -/
theorem laysOut (h : (drafted program).Resolves name labels code)
    (hvalid : ((drafted program).routine name labels code).IsValid) :
    ((drafted program).routine name labels code).annotate.LaysOut program := by
  have hsize : code.size = instructionCount program := h.size_code.trans (size_ops_drafted program)
  have hblocks : ((drafted program).routine name labels code).blocks.size =
      (drafted program).epilogue + 1 := (size_layout code).trans length_ranges
  have hstarts : ∀ {b i}, ((drafted program).routine name labels code).annotate.StartsAt b i ↔
      (drafted program).boundaries[b]? = some i := startsAt_iff rfl
  constructor
  · exact (Routine.size_annotate _).trans hsize
  · exact hsize ▸ hvalid.tiles
  · exact id_of_block
  · exact ⟨_, rfl, hblocks.symm, fun hblock => range_empty_iff (range_of_block hblock)⟩
  · intro i hi
    simp only [hstarts, ← mem_iff_getElem?, mem_boundaries_drafted]
    simp [hi, Nat.ne_of_lt hi]
  · intro x i hplaced
    obtain ⟨b, hb⟩ := getElem?_of_mem (label_mem_boundaries hplaced)
    refine ⟨b, (lookup_eq_some h.labels_eq).2 (.inl ⟨i, hplaced, hb⟩), fun b' => ?_⟩
    constructor
    · intro hb'
      exact boundary_inj hb (hstarts.1 hb')
    · rintro rfl
      exact hstarts.2 hb
  · intro hundefined
    exact (lookup_eq_some h.labels_eq).2 (.inr ⟨rfl, hundefined, rfl⟩)
  · intro test args target likely delay i hplaced
    obtain ⟨b, hlookup⟩ := h.exists_lookup hplaced
    exact ⟨b, hlookup, Routine.branchAt_annotate.2
      (h.branchAt_iff.2 (.inr ⟨_, _, _, _, _, b, hplaced, hlookup, rfl⟩))⟩
  · intro b block hblock
    exact (h.isChained.leads (id_of_block hblock) hblock).annotate

end Resolves

end Draft

/-- A program is assembled exactly if it can be resolved, and it is laid out as it says. -/
theorem assemble_eq_ok_iff_resolvable (name : String) (program : List Statement) :
    ((∃ r, assemble name program = .ok r) ↔ Resolvable program) ∧
      ∀ r, assemble name program = .ok r → r.LaysOut program := by
  have hassemble : ∀ {r}, assemble name program = .ok r ↔ _ := Draft.finish_eq_ok_iff
  refine ⟨⟨?_, ?_⟩, ?_⟩
  · rintro ⟨r, hr⟩
    obtain ⟨labels, code, hresolves, hvalid, -⟩ := hassemble.1 hr
    exact hresolves.resolvable (Routine.isValid_of_validate hvalid)
  · intro hprogram
    obtain ⟨labels, code, hresolves⟩ := Draft.exists_resolves hprogram name
    exact ⟨_, hresolves.assemble_eq hprogram⟩
  · intro r hr
    obtain ⟨labels, code, hresolves, hvalid, rfl⟩ := hassemble.1 hr
    exact hresolves.laysOut (Routine.isValid_of_validate hvalid)

/-- A loop whose first block takes the name of the epilogue, left by a branch that is taken as
it is and stands at the end of the code. -/
def spinning : List Statement :=
  [.label epilogueLabel, .branch .nonZero [.register .v0] epilogueLabel false none,
    .operation (.branch ⟨⟨.always, []⟩, false, 2, none⟩)]

theorem assemble_spinning :
    ∃ r, assemble "spin" spinning = .ok r ∧ Resolvable spinning ∧ r.LaysOut spinning := by
  obtain ⟨hiff, hlaysOut⟩ := assemble_eq_ok_iff_resolvable "spin" spinning
  have hok : (assemble "spin" spinning).isOk = true := by decide +kernel
  cases hr : assemble "spin" spinning with
  | error e =>
    rw [hr] at hok
    cases hok
  | ok r => exact ⟨r, rfl, hiff.1 ⟨r, hr⟩, hlaysOut r hr⟩

end Decompiler
