import Decompiler.Proofs.Liveness.Solution
import Decompiler.Proofs.Machine.Blocks

/-!
Liveness and paths.  A register is live after an instruction exactly when some path from
there leads to a read of the register, or out of the routine with the register as its result,
over instructions that do not write it.
-/

namespace Decompiler

open List RegisterSet

/-- A point in a block: before the instruction at a position, or at the end of the block. -/
structure Point where
  block : BlockId
  site : Nat
deriving DecidableEq

namespace Routine

/-- A path goes over the instructions of a block in order, and from the end of a block to the
start of a successor.  The list holds the positions of the instructions it goes over. -/
inductive Path (r : Routine) : Point → List Nat → Point → Prop
  | refl (x : Point) : Path r x [] x
  | pass {b : BlockId} {block : Block} {site : Nat} {sites : List Nat} {y : Point}
      (hblock : r.blocks[b]? = some block) (hsite : site ∈ block.sites)
      (hrest : Path r ⟨b, site + 1⟩ sites y) : Path r ⟨b, site⟩ (site :: sites) y
  | follow {b next : BlockId} {block target : Block} {sites : List Nat} {y : Point}
      (hblock : r.blocks[b]? = some block) (hnext : next ∈ block.successors)
      (htarget : r.blocks[next]? = some target) (hrest : Path r ⟨next, target.start⟩ sites y) :
      Path r ⟨b, block.stop⟩ sites y

/-- What a register holds is used at a point: the next instruction reads it, or control leaves
the routine there and it holds the result. -/
inductive Uses (r : Routine) (q : Register) : Point → Prop
  | read {b : BlockId} {block : Block} {site : Nat} {instr : Instruction}
      (hblock : r.blocks[b]? = some block) (hsite : site ∈ block.sites)
      (hcode : r.code[site]? = some instr) (hread : q ∈ instr.op.reads) :
      Uses r q ⟨b, site⟩
  | leave {b : BlockId} {block : Block} (hblock : r.blocks[b]? = some block)
      (hexit : block.successors = []) (hresult : q = r.resultRegister) :
      Uses r q ⟨b, block.stop⟩

/-- No instruction at some positions writes a register. -/
def Keeps (r : Routine) (q : Register) (sites : List Nat) : Prop :=
  ∀ site ∈ sites, ∀ instr, r.code[site]? = some instr → q ∉ instr.op.writes

/-- Some path from a point leads to a use of a register and does not write it before. -/
def LiveAt (r : Routine) (q : Register) (x : Point) : Prop :=
  ∃ sites y, r.Path x sites y ∧ r.Keeps q sites ∧ r.Uses q y

variable {r : Routine} {q : Register} {b next : BlockId} {block target : Block} {site : Nat}
  {instr : Instruction} {x : Point}

namespace LiveAt

theorem of_uses (h : r.Uses q x) : r.LiveAt q x :=
  ⟨[], x, .refl x, fun _ hsite => (nomatch hsite), h⟩

theorem pass (hblock : r.blocks[b]? = some block) (hsite : site ∈ block.sites)
    (hcode : r.code[site]? = some instr) (hkeep : q ∉ instr.op.writes)
    (h : r.LiveAt q ⟨b, site + 1⟩) : r.LiveAt q ⟨b, site⟩ := by
  obtain ⟨sites, y, hpath, hkeeps, huses⟩ := h
  refine ⟨site :: sites, y, .pass hblock hsite hpath, ?_, huses⟩
  intro other hother written hwritten
  rcases mem_cons.1 hother with rfl | hother
  · cases hcode.symm.trans hwritten
    exact hkeep
  · exact hkeeps other hother written hwritten

theorem follow (hblock : r.blocks[b]? = some block) (hnext : next ∈ block.successors)
    (htarget : r.blocks[next]? = some target) (h : r.LiveAt q ⟨next, target.start⟩) :
    r.LiveAt q ⟨b, block.stop⟩ := by
  obtain ⟨sites, y, hpath, hkeeps, huses⟩ := h
  exact ⟨sites, y, .follow hblock hnext htarget hpath, hkeeps, huses⟩

end LiveAt

/-- The registers live before some operations, given those live behind them. -/
def liveBefore (leaving : RegisterSet) : List Operation → RegisterSet
  | [] => leaving
  | op :: rest => (liveBefore leaving rest \ op.writes) ∪ op.reads

def blockOps (r : Routine) (block : Block) (k : Nat) : List Operation :=
  ((r.code.toList.take block.stop).drop k).map Instruction.op

theorem blockOps_stop : r.blockOps block block.stop = [] := by
  rw [blockOps, drop_eq_nil_of_le (length_take_le _ _)]
  rfl

theorem blockOps_cons (hsite : site < block.stop) (hcode : r.code[site]? = some instr) :
    r.blockOps block site = instr.op :: r.blockOps block (site + 1) := by
  obtain ⟨hlt, rfl⟩ := Array.getElem?_eq_some_iff.1 hcode
  have hlength : site < (r.code.toList.take block.stop).length := by
    rw [length_take, Array.length_toList]
    exact Nat.lt_min.2 ⟨hsite, hlt⟩
  rw [blockOps, drop_eq_getElem_cons hlength, map_cons, getElem_take, Array.getElem_toList]
  rfl

variable {live : RegisterSet} {positions : List Nat} {sites : Array SiteLiveness} {i : Nat}
  {entries : List (Block × Nat)}

theorem mem_liveBefore {code : List Instruction} :
    q ∈ liveBefore live (code.map Instruction.op) ↔
      q ∈ exposedReads code ∨ (q ∈ live ∧ q ∉ allWrites code) := by
  simp only [allWrites, mem_foldl_union, not_mem_empty, false_or]
  induction code with
  | nil => simp [liveBefore, exposedReads]
  | cons instr code ih =>
    simp only [map_cons, liveBefore, exposedReads, mem_union, mem_diff, ih, exists_mem_cons_iff]
    generalize (∃ later ∈ code, q ∈ later.op.writes) = written
    tauto

theorem enteringSet_eq (hstop : block.stop ≤ r.code.size) (live : RegisterSet) :
    r.enteringSet block live = liveBefore live (r.blockOps block block.start) := by
  apply ext_mem
  intro q
  rw [blockOps, mem_liveBefore, enteringSet, blockCode, if_pos hstop, mem_union, mem_diff]

/-- The registers that are live at a position of a block. -/
def liveWithin (r : Routine) (b : BlockId) (block : Block) (k : Nat) : RegisterSet :=
  liveBefore (r.liveness.live .exit b) (r.blockOps block k)

theorem liveWithin_stop : r.liveWithin b block block.stop = r.liveness.live .exit b := by
  rw [liveWithin, blockOps_stop, liveBefore]

theorem mem_liveWithin (hsite : site < block.stop) (hcode : r.code[site]? = some instr) :
    q ∈ r.liveWithin b block site ↔ (q ∈ r.liveWithin b block (site + 1) ∧ q ∉ instr.op.writes) ∨
        q ∈ instr.op.reads := by
  rw [liveWithin, blockOps_cons hsite hcode, liveBefore, mem_union, mem_diff]
  rfl

theorem mem_exit (hblock : r.blocks[b]? = some block) :
    q ∈ r.liveness.live .exit b ↔ (block.successors = [] ∧ q = r.resultRegister) ∨
      ∃ next ∈ block.successors, q ∈ r.liveness.live .entry next := by
  rw [liveness_live hblock]
  exact mem_leavingSet

namespace IsValid

theorem live_entry (hvalid : r.IsValid) (hblock : r.blocks[b]? = some block) :
    r.liveness.live .entry b = r.liveWithin b block block.start := by
  rw [liveness_live hblock, liveWithin, liveness_live hblock]
  exact enteringSet_eq (hvalid.bounds hblock).2 _

/-- What is used at a point is live there. -/
theorem mem_of_uses (h : r.Uses q x) (hblock : r.blocks[x.block]? = some block) :
    q ∈ r.liveWithin x.block block x.site := by
  cases h with
  | read hblock' hsite hcode hread =>
    cases hblock.symm.trans hblock'
    exact (mem_liveWithin (Block.mem_sites.1 hsite).2 hcode).2 (.inr hread)
  | leave hblock' hexit hresult =>
    cases hblock.symm.trans hblock'
    rw [liveWithin_stop, mem_exit hblock]
    exact .inl ⟨hexit, hresult⟩

/-- A path along which a register is kept carries its liveness backwards. -/
theorem mem_of_path (hvalid : r.IsValid) {y : Point} {sites : List Nat} (hpath : r.Path x sites y)
    (hkeeps : r.Keeps q sites) (huses : r.Uses q y) (hblock : r.blocks[x.block]? = some block) :
    q ∈ r.liveWithin x.block block x.site := by
  induction hpath generalizing block with
  | refl x => exact mem_of_uses huses hblock
  | @pass b block' site sites y hblock' hsite hrest ih =>
    cases hblock.symm.trans hblock'
    have hstop := (Block.mem_sites.1 hsite).2
    obtain ⟨instr, hcode⟩ := hvalid.exists_instruction hblock hstop
    have hkeep := hkeeps site mem_cons_self instr hcode
    have hlive := ih (fun other hother => hkeeps other (mem_cons_of_mem _ hother)) huses hblock
    exact (mem_liveWithin hstop hcode).2 (.inl ⟨hlive, hkeep⟩)
  | @follow b next block' target sites y hblock' hnext htarget hrest ih =>
    cases hblock.symm.trans hblock'
    have hlive := ih hkeeps huses htarget
    rw [liveWithin_stop, mem_exit hblock]
    refine .inr ⟨next, hnext, ?_⟩
    rw [hvalid.live_entry htarget]
    exact hlive

variable {k : Nat}

/-- Inside a block a register is live because it is read there, or because it is live at the
end. -/
theorem liveAt_of_mem_liveBefore (hvalid : r.IsValid) (hblock : r.blocks[b]? = some block)
    {live : RegisterSet} (hlive : q ∈ live → r.LiveAt q ⟨b, block.stop⟩) (hstart : block.start ≤ k)
    (hstop : k ≤ block.stop) (h : q ∈ liveBefore live (r.blockOps block k)) :
    r.LiveAt q ⟨b, k⟩ := by
  induction hrest : block.stop - k generalizing k with
  | zero =>
    obtain rfl : k = block.stop := by omega
    rw [blockOps_stop] at h
    exact hlive h
  | succ n ih =>
    have hlt : k < block.stop := by omega
    have hsite : k ∈ block.sites := Block.mem_sites.2 ⟨hstart, hlt⟩
    obtain ⟨instr, hcode⟩ := hvalid.exists_instruction hblock hlt
    rw [blockOps_cons hlt hcode, liveBefore, mem_union, mem_diff] at h
    rcases h with ⟨hbehind, hkeep⟩ | hread
    · exact .pass hblock hsite hcode hkeep (ih (by omega) hlt hbehind (by omega))
    · exact .of_uses (.read hblock hsite hcode hread)

/-- Every register of some sets is live because of a path. -/
structure Justified (r : Routine) (q : Register) (s : Liveness) : Prop where
  sized : s.Sized r.blocks.size
  exit : ∀ {b : BlockId} {block : Block}, r.blocks[b]? = some block →
    q ∈ s.live .exit b → r.LiveAt q ⟨b, block.stop⟩
  entry : ∀ {b : BlockId} {block : Block}, r.blocks[b]? = some block →
    q ∈ s.live .entry b → r.LiveAt q ⟨b, block.start⟩

theorem justified_noLiveness : Justified r q r.noLiveness := by
  refine ⟨sized_noLiveness, fun _ hq => ?_, fun _ hq => ?_⟩
  · rw [noLiveness_live] at hq
    exact absurd hq (not_mem_empty q)
  · rw [noLiveness_live] at hq
    exact absurd hq (not_mem_empty q)

/-- The equations of a block follow paths by one more block. -/
theorem Justified.updateBlock (hvalid : r.IsValid) {s : Liveness} (h : Justified r q s)
    (position : BlockId) : Justified r q (r.updateBlock s position) := by
  have hexit : ∀ {block : Block}, r.blocks[position]? = some block →
      q ∈ r.recomputed s block .exit → r.LiveAt q ⟨position, block.stop⟩ := by
    intro block hblock hq
    rcases mem_leavingSet.1 hq with ⟨hnone, hresult⟩ | ⟨next, hnext, hq⟩
    · exact .of_uses (.leave hblock hnone hresult)
    · have htarget := Array.getElem?_eq_getElem (hvalid.successor_lt hblock next hnext)
      exact .follow hblock hnext htarget (h.entry htarget hq)
  refine ⟨sized_updateBlock h.sized, fun {b block} hblock hq => ?_, fun {b block} hblock hq => ?_⟩
  · by_cases hb : b = position
    · subst hb
      rw [live_updateBlock_self h.sized hblock] at hq
      exact hexit hblock hq
    · rw [live_updateBlock_ne hb] at hq
      exact h.exit hblock hq
  · by_cases hb : b = position
    · subst hb
      have hbounds := hvalid.bounds hblock
      rw [live_updateBlock_self h.sized hblock, recomputed, enteringSet_eq hbounds.2] at hq
      exact hvalid.liveAt_of_mem_liveBefore hblock (hexit hblock) (Nat.le_refl _) hbounds.1 hq
    · rw [live_updateBlock_ne hb] at hq
      exact h.entry hblock hq

theorem justified_liveness (hvalid : r.IsValid) : Justified r q r.liveness :=
  liveness_induct justified_noLiveness fun _ position h => h.updateBlock hvalid position

/-- The registers found live at a position of a block are those live because of a path. -/
theorem mem_liveWithin_iff (hvalid : r.IsValid) (hblock : r.blocks[b]? = some block)
    (hstart : block.start ≤ k) (hstop : k ≤ block.stop) :
    q ∈ r.liveWithin b block k ↔ r.LiveAt q ⟨b, k⟩ := by
  constructor
  · intro h
    rw [liveWithin] at h
    exact hvalid.liveAt_of_mem_liveBefore hblock (hvalid.justified_liveness.exit hblock) hstart
      hstop h
  · rintro ⟨sites, y, hpath, hkeeps, huses⟩
    have hlive := hvalid.mem_of_path hpath hkeeps huses hblock
    exact hlive

end IsValid

/-- What holds of an instruction, given the registers that are live behind its block. -/
def siteWithin (r : Routine) (live : RegisterSet) (block : Block) (i : Nat) :
    Option SiteLiveness :=
  r.code[i]?.map fun instr =>
    let after := liveBefore live (r.blockOps block (i + 1))
    ⟨instr.op.reads \ (after \ instr.op.writes), after⟩

theorem size_walkBack : (r.walkBack positions live sites).size = sites.size := by
  induction positions generalizing live sites with
  | nil => rfl
  | cons i positions ih =>
    rw [walkBack]
    split
    · exact ih
    · rw [ih, Array.size_setIfInBounds]

theorem walkBack_of_not_mem (hi : i ∉ positions) :
    (r.walkBack positions live sites)[i]? = sites[i]? := by
  induction positions generalizing live sites with
  | nil => rfl
  | cons j positions ih =>
    rw [mem_cons, not_or] at hi
    rw [walkBack]
    split
    · exact ih hi.2
    · rw [ih hi.2, Array.getElem?_setIfInBounds_ne (Ne.symm hi.1)]

/-- Walking back over the first instructions of a block notes what holds of each of them. -/
theorem walkBack_sites (hstop : block.stop ≤ r.code.size) {n : Nat}
    (hn : block.start + n ≤ block.stop) (hsize : sites.size = r.code.size)
    (hstart : block.start ≤ i) (hi : i < block.start + n) :
    (r.walkBack (List.range' block.start n).reverse
      (liveBefore live (r.blockOps block (block.start + n))) sites)[i]? =
        r.siteWithin live block i := by
  induction n generalizing sites with
  | zero => omega
  | succ n ih =>
    have hlt : block.start + n < r.code.size := by omega
    have hcode := Array.getElem?_eq_getElem hlt
    have hops : r.blockOps block (block.start + n) = _ := blockOps_cons (by omega) hcode
    have hlive := congrArg (liveBefore live) hops
    rw [liveBefore] at hlive
    rw [range'_1_concat, reverse_append, reverse_singleton, singleton_append, walkBack, hcode]
    dsimp only
    rw [Nat.add_assoc] at hlive
    rw [← hlive]
    by_cases hbefore : i < block.start + n
    · exact ih (by omega) (by rw [Array.size_setIfInBounds, hsize]) hbefore
    · obtain rfl : i = block.start + n := by omega
      rw [walkBack_of_not_mem, Array.getElem?_setIfInBounds_self_of_lt (hsize ▸ hlt), siteWithin,
        hcode]
      · rfl
      · rw [mem_reverse, mem_range'_1]
        omega

/-- Walks back over some blocks, given the sets at their ends. -/
def walkBlocks (r : Routine) (entries : List (Block × Nat)) (sites : Array SiteLiveness) :
    Array SiteLiveness :=
  entries.foldl
    (fun sites entry => r.walkBack entry.1.sites.reverse (r.liveness.live .exit entry.2) sites) sites

theorem size_walkBlocks : (r.walkBlocks entries sites).size = sites.size := by
  induction entries generalizing sites with
  | nil => rfl
  | cons entry entries ih => exact ih.trans size_walkBack

theorem size_annotate (u : Routine) : u.annotate.code.size = u.code.size := by
  have hsites : u.siteLiveness.size = u.code.size := size_walkBlocks.trans Array.size_replicate
  change ((u.code.zip u.computeConsumed).map _).size = _
  rw [Array.size_map, Array.size_zip, computeConsumed, Array.size_map, hsites, Nat.min_self]

theorem annotate_code {u : Routine} (h : u.annotate.code[i]? = some instr) :
    ∃ base, u.code[i]? = some base ∧ base.op = instr.op ∧
      u.computeConsumed[i]? = some instr.consumed := by
  change ((u.code.zip u.computeConsumed).map _)[i]? = _ at h
  rw [Array.getElem?_map, Option.map_eq_some_iff] at h
  obtain ⟨⟨base, consumed⟩, hzip, rfl⟩ := h
  rw [Array.getElem?_zip_eq_some] at hzip
  exact ⟨base, hzip.1, rfl, hzip.2⟩

theorem walkBlocks_of_not_mem (h : ∀ entry ∈ entries, i ∉ entry.1.sites) :
    (r.walkBlocks entries sites)[i]? = sites[i]? := by
  induction entries generalizing sites with
  | nil => rfl
  | cons entry entries ih =>
    refine (ih fun other hother => h other (mem_cons_of_mem _ hother)).trans
      (walkBack_of_not_mem ?_)
    rw [mem_reverse]
    exact h entry mem_cons_self

section

variable (hvalid : r.IsValid) (hblock : r.blocks[b]? = some block) (hi : i ∈ block.sites)
include hvalid hblock hi

/-- What is noted of an instruction follows from the registers live at the end of its block. -/
theorem IsValid.siteLiveness_eq :
    r.siteLiveness[i]? = r.siteWithin (r.liveness.live .exit b) block i := by
  have hentry : (block, b) ∈ r.blocks.toList.zipIdx := by
    rw [mk_mem_zipIdx_iff_getElem?, Array.getElem?_toList]
    exact hblock
  obtain ⟨before, after, hsplit⟩ := append_of_mem hentry
  have htiles := hvalid.tiles
  rw [← zipIdx_map_fst 0 r.blocks.toList, hsplit, map_append, map_cons] at htiles
  have hafter : ∀ entry ∈ after, i ∉ entry.1.sites := fun entry hentry =>
    htiles.not_mem_sites hi (mem_map_of_mem hentry)
  have hwalk : r.siteLiveness = r.walkBlocks after (r.walkBack block.sites.reverse
      (r.liveness.live .exit b) (r.walkBlocks before (Array.replicate r.code.size ⟨∅, ∅⟩))) := by
    change r.blocks.toList.zipIdx.foldl _ _ = _
    rw [hsplit, foldl_append, foldl_cons]
    rfl
  have hbounds := hvalid.bounds hblock
  have hsize : block.start + block.size = block.stop := by
    rw [Block.size]
    omega
  have hlive : r.liveness.live .exit b = liveBefore (r.liveness.live .exit b)
      (r.blockOps block (block.start + block.size)) := by
    rw [hsize, blockOps_stop, liveBefore]
  have hsites := Block.mem_sites.1 hi
  rw [hwalk, walkBlocks_of_not_mem hafter, Block.sites, hlive]
  rw [walkBack_sites hbounds.2 (Nat.le_of_eq hsize) (size_walkBlocks.trans Array.size_replicate)
    hsites.1 (hsize ▸ hsites.2), ← hlive]

theorem IsValid.siteLiveness_of_code (hcode : r.code[i]? = some instr) :
    r.siteLiveness[i]? = some ⟨instr.op.reads \
      (r.liveWithin b block (i + 1) \ instr.op.writes), r.liveWithin b block (i + 1)⟩ := by
  rw [hvalid.siteLiveness_eq hblock hi, siteWithin, hcode]
  rfl

/-- An instruction consumes what it reads and writes, and what it reads and leaves dead. -/
theorem IsValid.mem_consumed (hcode : r.code[i]? = some instr) {consumed : RegisterSet}
    (hconsumed : r.computeConsumed[i]? = some consumed) :
    q ∈ consumed ↔ q ∈ instr.op.reads ∧
      (q ∈ instr.op.writes ∨ q ∉ r.liveWithin b block (i + 1)) := by
  rw [computeConsumed, Array.getElem?_map, hvalid.siteLiveness_of_code hblock hi hcode,
    Option.map_some, Option.some.injEq] at hconsumed
  subst hconsumed
  simp only [mem_diff, not_and_or, not_not]
  tauto

end

/-- A register is live after an instruction exactly when a path from behind it leads to a use
of the register without writing it before; the instruction consumes the registers that it
reads and that it writes or leaves dead. -/
theorem mem_liveAfter_iff_path (hvalid : r.validate = .ok ()) {i : Nat}
    (hcode : r.code[i]? = some instr) :
    ∃ live consumed, r.liveAfter[i]? = some live ∧ r.computeConsumed[i]? = some consumed ∧
      (∀ q, q ∈ live ↔ ∃ (b : BlockId) (block : Block), r.blocks[b]? = some block ∧
        i ∈ block.sites ∧ r.LiveAt q ⟨b, i + 1⟩) ∧
      ∀ q, q ∈ consumed ↔
        q ∈ instr.op.reads ∧ (q ∈ instr.op.writes ∨ q ∉ live) := by
  have hchecked := isValid_of_validate hvalid
  obtain ⟨b, block, hblock, hi⟩ :=
    hchecked.exists_block (Array.getElem?_eq_some_iff.1 hcode).1
  have hsite := hchecked.siteLiveness_of_code hblock hi hcode
  have hsites := Block.mem_sites.1 hi
  have hlive : r.liveAfter[i]? = some (r.liveWithin b block (i + 1)) := by
    rw [liveAfter, Array.getElem?_map, hsite]
    rfl
  have hconsumed : ∃ consumed, r.computeConsumed[i]? = some consumed := by
    rw [computeConsumed, Array.getElem?_map, hsite]
    exact ⟨_, rfl⟩
  obtain ⟨consumed, hconsumed⟩ := hconsumed
  refine ⟨_, consumed, hlive, hconsumed, fun q => ?_, fun q =>
    hchecked.mem_consumed hblock hi hcode hconsumed⟩
  rw [hchecked.mem_liveWithin_iff hblock (Nat.le_succ_of_le hsites.1) hsites.2]
  constructor
  · exact fun hpath => ⟨b, block, hblock, hi, hpath⟩
  · rintro ⟨b', block', hblock', hi', hpath⟩
    obtain rfl := hchecked.block_unique hblock hblock' hi hi'
    exact hpath

/-- Counts one register up to another; an empty block stands behind the loop. -/
def countUp : Routine where
  name := "count-up"
  code := #[⟨.set (.write ⟨3⟩ 0) ⟨.add, [.var (.read ⟨3⟩ 0), .int 1]⟩, ∅⟩,
    ⟨.branch ⟨⟨.notEqual, [.var (.read ⟨3⟩ 1), .var (.read ⟨4⟩ 1)]⟩, false, 0, none⟩, ∅⟩,
    ⟨.set (.write .v0 2) ⟨.identity, [.var (.read ⟨3⟩ 2)]⟩, ∅⟩]
  blocks := #[⟨0, 0, 2, [1, 0]⟩, ⟨1, 2, 2, [2]⟩, ⟨2, 2, 3, [3]⟩, ⟨3, 3, 3, []⟩]
  labels := []
  epilogue := some 3
  resultRegister := .v0

/-- Behind the branch the bound is live because of the loop; the result is written on every
path. -/
theorem countUp_live : countUp.validate = .ok () ∧ countUp.LiveAt ⟨4⟩ ⟨0, 2⟩ ∧
    ¬ countUp.LiveAt .v0 ⟨0, 2⟩ := by
  have hvalid : countUp.validate = .ok () := by rfl
  obtain ⟨live, consumed, hlive, -, hpaths, -⟩ :=
    mem_liveAfter_iff_path (i := 1) hvalid (Array.getElem?_eq_getElem (by decide))
  have hcomputed : countUp.liveAfter[1]? = some (RegisterSet.ofList [⟨3⟩, ⟨4⟩]) := by
    decide +kernel
  obtain rfl := Option.some.inj (hcomputed.symm.trans hlive)
  have hsite : 1 ∈ Block.sites ⟨0, 0, 2, [1, 0]⟩ := by decide
  refine ⟨hvalid, ?_, fun hresult => ?_⟩
  · obtain ⟨b, block, hblock, hsite', hpath⟩ := (hpaths ⟨4⟩).1 (by decide)
    obtain rfl := (isValid_of_validate hvalid).block_unique (b := 0) rfl hblock hsite hsite'
    exact hpath
  · exact absurd ((hpaths .v0).2 ⟨0, _, rfl, hsite, hresult⟩) (by decide)

end Routine

end Decompiler
