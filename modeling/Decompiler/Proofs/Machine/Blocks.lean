import Decompiler.Machine.Assembly
import Decompiler.Proofs.Structure.Checks

/-!
The blocks of a routine that passes its checks.  They tile the code in order, so every
instruction stands in exactly one of them, and a branch stands only at the end of a block.
In a routine that was assembled, control also goes where the last instructions of the blocks
say, and only the epilogue is empty.
-/

namespace Decompiler

open List

variable {start stop i b : Nat} {block next : Block} {r : Routine}

namespace Block

/-- Blocks that cover the positions from `start` up to `stop`, one after the other. -/
def Tiles : Nat → List Block → Nat → Prop
  | start, [], stop => start = stop
  | start, block :: rest, stop =>
    block.start = start ∧ block.start ≤ block.stop ∧ Tiles block.stop rest stop

theorem mem_sites {block : Block} {i : Nat} : i ∈ block.sites ↔ block.start ≤ i ∧ i < block.stop := by
  rw [sites, mem_range'_1, size]
  omega

namespace Tiles

variable {blocks before after : List Block}

theorem le (h : Tiles start blocks stop) : start ≤ stop := by
  induction blocks generalizing start with
  | nil => exact Nat.le_of_eq h
  | cons block blocks ih =>
    obtain ⟨hstart, hle, hrest⟩ := h
    exact hstart ▸ Nat.le_trans hle (ih hrest)

theorem append_iff : Tiles start (before ++ after) stop ↔
    ∃ middle, Tiles start before middle ∧ Tiles middle after stop := by
  induction before generalizing start with
  | nil =>
    constructor
    · exact fun h => ⟨start, rfl, h⟩
    · rintro ⟨_, rfl, h⟩
      exact h
  | cons block before ih =>
    simp only [cons_append, Tiles, ih]
    constructor
    · rintro ⟨hstart, hle, middle, hbefore, hafter⟩
      exact ⟨middle, ⟨hstart, hle, hbefore⟩, hafter⟩
    · rintro ⟨middle, ⟨hstart, hle, hbefore⟩, hafter⟩
      exact ⟨hstart, hle, middle, hbefore, hafter⟩

theorem bounds (h : Tiles start blocks stop) (hblock : block ∈ blocks) :
    start ≤ block.start ∧ block.start ≤ block.stop ∧ block.stop ≤ stop := by
  obtain ⟨before, after, rfl⟩ := append_of_mem hblock
  obtain ⟨middle, hbefore, hstart, hle, hafter⟩ := append_iff.1 h
  exact ⟨hstart ▸ hbefore.le, hle, hafter.le⟩

/-- No block behind another one has an instruction in common with it. -/
theorem not_mem_sites (h : Tiles start (before ++ block :: after) stop) (hi : i ∈ block.sites)
    (hnext : next ∈ after) : i ∉ next.sites := by
  obtain ⟨middle, hbefore, hstart, hle, hafter⟩ := append_iff.1 h
  have hbounds := hafter.bounds hnext
  rw [mem_sites] at hi ⊢
  omega

variable (h : Tiles start blocks stop)
include h

theorem not_mem_sites_of_lt {b' : Nat} (hblock : blocks[b]? = some block)
    (hnext : blocks[b']? = some next) (hlt : b < b') (hi : i ∈ block.sites) : i ∉ next.sites := by
  obtain ⟨hb, rfl⟩ := List.getElem?_eq_some_iff.1 hblock
  have hsplit : blocks.take b ++ blocks[b] :: blocks.drop (b + 1) = blocks := by
    rw [← drop_eq_getElem_cons hb, take_append_drop]
  rw [← hsplit] at h
  refine h.not_mem_sites hi (mem_of_getElem? (i := b' - (b + 1)) ?_)
  rw [getElem?_drop, Nat.add_sub_of_le hlt]
  exact hnext

theorem exists_mem_sites (hstart : start ≤ i) (hstop : i < stop) :
    ∃ block ∈ blocks, i ∈ block.sites := by
  induction blocks generalizing start with
  | nil =>
    rw [Tiles] at h
    omega
  | cons block blocks ih =>
    obtain ⟨rfl, hle, hrest⟩ := h
    by_cases hi : i < block.stop
    · exact ⟨block, mem_cons_self, mem_sites.2 ⟨hstart, hi⟩⟩
    · obtain ⟨other, hother, hsites⟩ := ih hrest (Nat.not_lt.1 hi)
      exact ⟨other, mem_cons_of_mem _ hother, hsites⟩

/-- A block starts where the one before it stops. -/
theorem start_eq_stop (hblock : blocks[b]? = some block) (hnext : blocks[b + 1]? = some next) :
    next.start = block.stop := by
  induction blocks generalizing start b with
  | nil => cases hblock
  | cons first blocks ih =>
    obtain ⟨-, -, hrest⟩ := h
    cases b with
    | succ b => exact ih hrest hblock hnext
    | zero =>
      cases blocks with
      | nil => cases hnext
      | cons second blocks =>
        cases hblock
        cases hnext
        exact hrest.1

end Tiles

end Block

namespace Routine

/-- What the checks of a routine establish. -/
structure IsValid (r : Routine) : Prop where
  tiles : Block.Tiles 0 r.blocks.toList r.code.size
  successor_lt : ∀ {b : BlockId} {block : Block}, r.blocks[b]? = some block →
    ∀ next ∈ block.successors, next < r.blocks.size
  branch_last : ∀ {b : BlockId} {block : Block} {i : Nat} {branch : Branch},
    r.blocks[b]? = some block → i ∈ block.sites → r.BranchAt i branch →
      i + 1 = block.stop ∧ branch.target < r.blocks.size

variable {position : Nat}

theorem forM_of_eq_ok {α : Type} {check : α → Except Error PUnit} {as : List α}
    (h : as.forM check = .ok ()) : ∀ a ∈ as, check a = .ok () := by
  induction as with
  | nil => exact fun a ha => nomatch ha
  | cons a as ih =>
    obtain ⟨_, hfirst, hrest⟩ := bind_eq_ok.1 h
    intro other hother
    rcases mem_cons.1 hother with rfl | hother
    · exact hfirst
    · exact ih hrest other hother

theorem checkBranch_eq_ok {i : Nat} {branch : Branch} (hbranch : r.BranchAt i branch)
    (h : r.checkBranch block i = .ok ()) : i + 1 = block.stop ∧ branch.target < r.blocks.size := by
  obtain ⟨instr, hcode, hop⟩ := hbranch
  rw [checkBranch, hcode, Option.bind_some, hop] at h
  dsimp only [Operation.branch?] at h
  split at h
  · cases h
  · rename_i hlast
    split at h
    · cases h
    · rename_i htarget
      exact ⟨Decidable.not_not.1 hlast, Nat.not_le.1 htarget⟩

/-- What is known of a block that passes the checks. -/
structure BlockChecked (r : Routine) (block : Block) : Prop where
  successor_lt : ∀ next ∈ block.successors, next < r.blocks.size
  branch_last : ∀ {i : Nat} {branch : Branch}, i ∈ block.sites → r.BranchAt i branch →
    i + 1 = block.stop ∧ branch.target < r.blocks.size

theorem checkBlock_ok (h : r.checkBlock start (block, position) = .ok stop) :
    block.start = start ∧ block.start ≤ block.stop ∧ block.stop = stop ∧ r.BlockChecked block := by
  unfold checkBlock at h
  dsimp only at h
  split at h
  · cases h
  · split at h
    · cases h
    · rename_i hrange
      split at h
      · cases h
      · rename_i hfind
        obtain ⟨_, hsites, hstop⟩ := bind_eq_ok.1 h
        refine ⟨by omega, by omega, pure_eq_ok.1 hstop, ?_, ?_⟩
        · intro next hnext
          have hnot := find?_eq_none.1 hfind next hnext
          rw [decide_eq_true_eq] at hnot
          exact Nat.not_le.1 hnot
        · intro i branch hi hbranch
          exact checkBranch_eq_ok hbranch (forM_of_eq_ok hsites i hi)

theorem foldlM_checkBlock {entries : List (Block × Nat)}
    (h : entries.foldlM r.checkBlock start = .ok stop) :
    Block.Tiles start (entries.map Prod.fst) stop ∧
      ∀ entry ∈ entries, r.BlockChecked entry.1 := by
  induction entries generalizing start with
  | nil => exact ⟨pure_eq_ok.1 h, fun entry hentry => nomatch hentry⟩
  | cons entry entries ih =>
    rw [foldlM_cons] at h
    obtain ⟨middle, hfirst, hrest⟩ := bind_eq_ok.1 h
    obtain ⟨hstart, hle, rfl, hchecked⟩ := checkBlock_ok hfirst
    obtain ⟨htiles, hall⟩ := ih hrest
    refine ⟨⟨hstart, hle, htiles⟩, fun other hother => ?_⟩
    rcases mem_cons.1 hother with rfl | hother
    · exact hchecked
    · exact hall other hother

/-- Every entry of a run of checks is checked at some point of it. -/
theorem foldlM_mem_ok {α β : Type} {check : β → α → Except Error β} {as : List α} {b b' : β}
    (h : as.foldlM check b = .ok b') : ∀ a ∈ as, ∃ c c', check c a = .ok c' := by
  induction as generalizing b with
  | nil => exact fun a ha => absurd ha not_mem_nil
  | cons a as ih =>
    rw [foldlM_cons] at h
    obtain ⟨c, hfirst, hrest⟩ := bind_eq_ok.1 h
    intro other hother
    rcases mem_cons.1 hother with rfl | hother
    · exact ⟨b, c, hfirst⟩
    · exact ih hrest other hother

/-- In a routine that passes the checks, a block is named by its position. -/
theorem id_eq_of_validate (h : r.validate = .ok ()) {b : BlockId}
    (hblock : r.blocks[b]? = some block) : block.id = b := by
  obtain ⟨stop, hfold, -⟩ := bind_eq_ok.1 h
  rw [← Array.getElem?_toList] at hblock
  obtain ⟨start, stop, hcheck⟩ :=
    foldlM_mem_ok hfold (block, b) (mk_mem_zipIdx_iff_getElem?.2 hblock)
  unfold checkBlock at hcheck
  dsimp only at hcheck
  split at hcheck
  · cases hcheck
  · rename_i hid
    exact Decidable.not_not.1 hid

theorem isValid_of_validate (h : r.validate = .ok ()) : r.IsValid := by
  obtain ⟨stop, hfold, hrest⟩ := bind_eq_ok.1 h
  obtain ⟨htiles, hall⟩ := foldlM_checkBlock hfold
  rw [zipIdx_map_fst] at htiles
  have hchecked : ∀ {b : BlockId} {block : Block}, r.blocks[b]? = some block →
      r.BlockChecked block := by
    intro b block hblock
    rw [← Array.getElem?_toList] at hblock
    exact hall (block, b) (mk_mem_zipIdx_iff_getElem?.2 hblock)
  refine ⟨?_, fun hblock => (hchecked hblock).successor_lt,
    fun hblock => (hchecked hblock).branch_last⟩
  by_cases hstop : stop = r.code.size
  · rwa [hstop] at htiles
  · rw [if_pos hstop] at hrest
    cases hrest

namespace IsValid

variable {b : BlockId}

theorem bounds (h : r.IsValid) (hblock : r.blocks[b]? = some block) :
    block.start ≤ block.stop ∧ block.stop ≤ r.code.size := by
  rw [← Array.getElem?_toList] at hblock
  exact (h.tiles.bounds (mem_of_getElem? hblock)).2

/-- Every instruction stands in a block. -/
theorem exists_block (h : r.IsValid) (hi : i < r.code.size) :
    ∃ (b : BlockId) (block : Block), r.blocks[b]? = some block ∧ i ∈ block.sites := by
  obtain ⟨block, hblock, hsites⟩ := h.tiles.exists_mem_sites (Nat.zero_le i) hi
  obtain ⟨b, hb⟩ := getElem?_of_mem hblock
  exact ⟨b, block, by rwa [← Array.getElem?_toList], hsites⟩

variable (h : r.IsValid) (hblock : r.blocks[b]? = some block)
include h hblock

/-- An instruction stands in one block only. -/
theorem block_unique {b' : BlockId} (hnext : r.blocks[b']? = some next) (hi : i ∈ block.sites)
    (hi' : i ∈ next.sites) : b = b' := by
  rw [← Array.getElem?_toList] at hblock hnext
  by_contra hne
  rcases Nat.lt_or_gt_of_ne hne with hlt | hgt
  · exact h.tiles.not_mem_sites_of_lt hblock hnext hlt hi hi'
  · exact h.tiles.not_mem_sites_of_lt hnext hblock hgt hi' hi

theorem exists_instruction (hi : i < block.stop) : ∃ instr, r.code[i]? = some instr :=
  ⟨_, Array.getElem?_eq_getElem (Nat.lt_of_lt_of_le hi (h.bounds hblock).2)⟩

theorem exists_terminator : ∃ terminator, r.terminator b = .ok terminator := by
  unfold terminator
  rw [block_eq_ok.2 hblock]
  dsimp only [bind, Except.bind]
  split
  · exact ⟨none, rfl⟩
  · rename_i hempty
    have hlast : block.stop - 1 < block.stop := by
      rw [Block.isEmpty, decide_eq_true_eq] at hempty
      omega
    obtain ⟨instr, hinstr⟩ := h.exists_instruction hblock hlast
    rw [instruction_eq_ok.2 hinstr]
    exact ⟨_, rfl⟩

theorem start_eq_stop (hnext : r.blocks[b + 1]? = some next) : next.start = block.stop := by
  rw [← Array.getElem?_toList] at hblock hnext
  exact h.tiles.start_eq_stop hblock hnext

end IsValid

def lastBranch? (r : Routine) (block : Block) : Option Branch :=
  if block.start < block.stop then
    r.code[block.stop - 1]?.bind fun instr => instr.op.branch?
  else none

/-- Control goes from block to block as their last instructions say, and the last block is
the only empty one. -/
structure IsChained (r : Routine) : Prop where
  successors_eq : ∀ {b : BlockId} {block : Block}, r.blocks[b]? = some block →
    block.successors = successorsOf r.blocks.size b (r.lastBranch? block)
  start_lt : ∀ {b : BlockId} {block : Block}, r.blocks[b]? = some block →
    b + 1 < r.blocks.size → block.start < block.stop
  last_start : ∀ {b : BlockId} {block : Block}, r.blocks[b]? = some block →
    b + 1 = r.blocks.size → block.start = r.code.size

end Routine

namespace Draft

variable {d : Draft}

theorem length_ranges : d.ranges.length = d.starts.length + 1 := by
  rw [ranges, length_append, length_zip, length_append, length_drop,
    length_singleton, length_singleton]
  omega

/-- The epilogue has no instructions. -/
theorem ranges_last : d.ranges[d.starts.length]? = some (d.ops.size, d.ops.size) := by
  have hlength : (d.starts.zip (d.starts.drop 1 ++ [d.ops.size])).length = d.starts.length := by
    rw [length_zip, length_append, length_drop, length_singleton]
    omega
  rw [ranges, getElem?_append_right (Nat.le_of_eq hlength), hlength, Nat.sub_self]
  rfl

/-- The other blocks end at the start of the next one, which lies behind their own. -/
theorem ranges_lt (hb : b < d.starts.length) (hrange : d.ranges[b]? = some (start, stop)) :
    start < stop := by
  have hlength : b < (d.starts.zip (d.starts.drop 1 ++ [d.ops.size])).length := by
    rw [length_zip, length_append, length_drop, length_singleton]
    omega
  rw [ranges, getElem?_append_left hlength, getElem?_zip_eq_some] at hrange
  obtain ⟨hstart, hstop⟩ := hrange
  have hincreasing : d.starts.Pairwise (· < ·) := pairwise_lt_range.filter _
  have hbound : start < d.ops.size := by
    have hmem := mem_of_getElem? hstart
    rw [starts, mem_filter, mem_range] at hmem
    exact hmem.1
  by_cases hnext : b + 1 < d.starts.length
  · rw [getElem?_append_left (by rw [length_drop]; omega), getElem?_drop,
      Nat.add_comm, getElem?_eq_getElem hnext] at hstop
    rw [getElem?_eq_getElem hb] at hstart
    cases hstart
    cases hstop
    exact pairwise_iff_getElem.1 hincreasing b (b + 1) hb hnext (Nat.lt_succ_self b)
  · rw [getElem?_append_right (by rw [length_drop]; omega), length_drop] at hstop
    rw [show b - (d.starts.length - 1) = 0 by omega] at hstop
    cases hstop
    exact hbound

theorem layout_getElem? (code : Array Instruction) (b : Nat) :
    (d.layout code)[b]? = d.ranges[b]?.map fun range =>
      { id := b, start := range.1, stop := range.2,
        successors := successorsOf d.ranges.length b
          (if range.1 < range.2 then
            code[range.2 - 1]?.bind fun instr => instr.op.branch?
          else none) } := by
  rw [layout, getElem?_toArray, getElem?_map, getElem?_zipIdx, Option.map_map, Nat.zero_add]
  rfl

theorem size_layout (code : Array Instruction) : (d.layout code).size = d.ranges.length := by
  rw [layout, size_toArray, length_map, length_zipIdx]

/-- The blocks of a draft are chained. -/
theorem isChained_layout (hblocks : r.blocks = d.layout r.code) (hsize : d.ops.size = r.code.size) :
    r.IsChained := by
  have hcount : r.blocks.size = d.starts.length + 1 := by
    rw [hblocks, size_layout, length_ranges]
  have hrange : ∀ {b : BlockId} {block : Block}, r.blocks[b]? = some block →
      d.ranges[b]? = some (block.start, block.stop) ∧
        block.successors = successorsOf r.blocks.size b (r.lastBranch? block) := by
    intro b block hblock
    rw [hblocks, layout_getElem?] at hblock
    obtain ⟨⟨start, stop⟩, hrange, rfl⟩ := Option.map_eq_some_iff.1 hblock
    refine ⟨hrange, ?_⟩
    rw [hcount, ← length_ranges]
    rfl
  refine ⟨fun hblock => (hrange hblock).2, fun hblock hlt => ?_, fun hblock hlast => ?_⟩
  · rw [hcount] at hlt
    exact ranges_lt (Nat.lt_of_succ_lt_succ hlt) (hrange hblock).1
  · obtain ⟨hrange, -⟩ := hrange hblock
    rw [Nat.succ.inj (hlast.trans hcount), ranges_last, hsize] at hrange
    exact (congrArg Prod.fst (Option.some.inj hrange)).symm

theorem finish_eq_ok {name : String} (h : d.finish name = .ok r) :
    ∃ u : Routine, r = u.annotate ∧ u.IsValid ∧ u.IsChained := by
  obtain ⟨labels, -, h⟩ := bind_eq_ok.1 h
  obtain ⟨code, hcode, h⟩ := bind_eq_ok.1 h
  obtain ⟨_, hvalid, h⟩ := bind_eq_ok.1 h
  refine ⟨_, (pure_eq_ok.1 h).symm, Routine.isValid_of_validate hvalid, isChained_layout rfl ?_⟩
  have hops : d.ops.toList.mapM (DraftOperation.resolve name labels) = .ok code.toList := by
    rw [← Array.toList_mapM, hcode]
    rfl
  exact (mapM_eq_ok hops).length_eq

end Draft

end Decompiler
