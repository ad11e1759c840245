import Decompiler.Proofs.Machine.Blocks

/-!
How a draft is laid out.  Its boundaries are the positions where blocks start, and the end of
the code; a block reaches from one boundary to the next, and the epilogue stands at the last
one.  Labels name the blocks at their positions, and the checks accept every routine whose
blocks tile the code and end at their branches.
-/

namespace Decompiler

open List

namespace Routine

variable {r : Routine} {block : Block} {position start stop : Nat}

theorem checkBranch_of_last {i : Nat}
    (h : ∀ branch, r.BranchAt i branch → i + 1 = block.stop ∧ branch.target < r.blocks.size) :
    r.checkBranch block i = .ok () := by
  unfold checkBranch
  split
  · rfl
  · rename_i branch hbranch
    obtain ⟨instr, hcode, hop⟩ := Option.bind_eq_some_iff.1 hbranch
    obtain ⟨hlast, htarget⟩ := h branch ⟨instr, hcode, eq_branch_of_branch? hop⟩
    rw [if_neg (not_not_intro hlast), if_neg (Nat.not_le.2 htarget)]

theorem checkBlock_of_checked (hid : block.id = position) (hle : block.start ≤ block.stop)
    (hstop : block.stop ≤ r.code.size) (h : r.BlockChecked block) :
    r.checkBlock block.start (block, position) = .ok block.stop := by
  have hfind : (block.successors.find? fun successor => r.blocks.size ≤ successor) = none := by
    rw [find?_eq_none]
    intro successor hmem
    simpa using h.successor_lt successor hmem
  have hsites : block.sites.forM (r.checkBranch block) = .ok () :=
    Pool.forM_eq_ok fun i hi => checkBranch_of_last fun branch hbranch => h.branch_last hi hbranch
  have hrange : ¬ (block.start ≠ block.start ∨ block.stop < block.start ∨
      r.code.size < block.stop) := by
    omega
  unfold checkBlock
  dsimp only
  rw [if_neg (not_not_intro hid), if_neg hrange, hfind, hsites]
  rfl

theorem foldlM_checkBlock_of_tiles {blocks : List Block} (htiles : Block.Tiles start blocks stop)
    (hstop : stop ≤ r.code.size) (hids : ∀ entry ∈ blocks.zipIdx position, entry.1.id = entry.2)
    (hchecked : ∀ block ∈ blocks, r.BlockChecked block) :
    (blocks.zipIdx position).foldlM r.checkBlock start = .ok stop := by
  induction blocks generalizing start position with
  | nil => exact congrArg _ htiles
  | cons block blocks ih =>
    obtain ⟨rfl, hle, hrest⟩ := htiles
    have hfirst : r.checkBlock block.start (block, position) = .ok block.stop :=
      checkBlock_of_checked (hids (block, position) mem_cons_self) hle
        (Nat.le_trans hrest.le hstop) (hchecked block mem_cons_self)
    rw [zipIdx_cons, foldlM_cons, hfirst]
    exact ih hrest (fun entry hentry => hids entry (mem_cons_of_mem _ hentry))
      fun other hother => hchecked other (mem_cons_of_mem _ hother)

/-- The checks accept a valid routine whose blocks are named by their positions and whose
epilogue exists. -/
theorem IsValid.validate_eq_ok (h : r.IsValid)
    (hid : ∀ {b : BlockId} {block : Block}, r.blocks[b]? = some block → block.id = b)
    {epilogue : BlockId} (hepilogue : r.epilogue = some epilogue)
    (hlt : epilogue < r.blocks.size) : r.validate = .ok () := by
  have hfold : r.blocks.toList.zipIdx.foldlM r.checkBlock 0 = .ok r.code.size := by
    apply foldlM_checkBlock_of_tiles h.tiles (Nat.le_refl _)
    · intro entry hentry
      have hblock := mk_mem_zipIdx_iff_getElem?.1 hentry
      rw [Array.getElem?_toList] at hblock
      exact hid hblock
    · intro block hblock
      obtain ⟨b, hb⟩ := getElem?_of_mem hblock
      rw [Array.getElem?_toList] at hb
      exact ⟨h.successor_lt hb, h.branch_last hb⟩
  rw [validate, hfold, hepilogue]
  change (if r.code.size ≠ r.code.size then _ else _) = _
  rw [if_neg (not_not_intro rfl), if_neg (Nat.not_le.2 hlt)]
  rfl

end Routine

namespace Block

/-- Blocks that each reach from one boundary to the next, and an empty one at the last. -/
theorem tiles_of_boundaries {starts : List Nat} {stop : Nat}
    (hincreasing : (starts ++ [stop]).Pairwise (· < ·)) {blocks : List Block}
    (hblocks : blocks.map (fun block => (block.start, block.stop)) =
      starts.zip (starts.drop 1 ++ [stop]) ++ [(stop, stop)]) :
    Tiles (starts.headD stop) blocks stop := by
  induction starts generalizing blocks with
  | nil =>
    obtain ⟨block, rfl, hrange⟩ := map_eq_singleton_iff.1 hblocks
    obtain ⟨hstart, hstop⟩ := Prod.ext_iff.1 hrange
    exact ⟨hstart, by simp_all, hstop⟩
  | cons start rest ih =>
    have hzip : (start :: rest).zip ((start :: rest).drop 1 ++ [stop]) ++ [(stop, stop)] =
        (start, rest.headD stop) :: (rest.zip (rest.drop 1 ++ [stop]) ++ [(stop, stop)]) := by
      cases rest <;> simp
    rw [hzip] at hblocks
    obtain ⟨block, more, rfl, hrange, hmore⟩ := map_eq_cons_iff.1 hblocks
    obtain ⟨hstart, hstop⟩ := Prod.ext_iff.1 hrange
    dsimp only at hstart hstop
    obtain ⟨hfirst, hrest⟩ := pairwise_cons.1 hincreasing
    have hlt : start < rest.headD stop := by
      apply hfirst
      cases rest <;> simp
    refine ⟨hstart, by omega, ?_⟩
    rw [hstop]
    exact ih hrest hmore

end Block

namespace Draft

variable {d : Draft} {b i start stop : Nat}

/-- The positions where blocks start, and the end of the code. -/
def boundaries (d : Draft) : List Nat := d.starts ++ [d.ops.size]

theorem mem_starts : i ∈ d.starts ↔ i < d.ops.size ∧ d.startsBlock i = true := by
  simp [starts]

theorem pairwise_boundaries : d.boundaries.Pairwise (· < ·) := by
  apply pairwise_append.2
  refine ⟨pairwise_lt_range.filter _, pairwise_singleton _ _, ?_⟩
  intro i hi n hn
  rw [mem_singleton.1 hn]
  exact (mem_starts.1 hi).1

/-- A block starts at the boundary of its position. -/
theorem boundary_of_range (h : d.ranges[b]? = some (start, stop)) :
    d.boundaries[b]? = some start := by
  have hfst : d.ranges.map Prod.fst = d.boundaries := by
    rw [ranges, map_append, map_fst_zip (by simp; omega)]
    rfl
  rw [← hfst, getElem?_map, h]
  rfl

theorem exists_range (h : d.boundaries[b]? = some start) :
    ∃ stop, d.ranges[b]? = some (start, stop) := by
  have hlt : b < d.ranges.length := by
    have := (List.getElem?_eq_some_iff.1 h).1
    simpa [boundaries, length_ranges] using this
  have hrange := getElem?_eq_getElem hlt
  have hstart := (boundary_of_range hrange).symm.trans h
  cases hstart
  exact ⟨_, hrange⟩

/-- A block stops at the next boundary. -/
theorem next_boundary_of_range (hb : b < d.starts.length)
    (h : d.ranges[b]? = some (start, stop)) : d.boundaries[b + 1]? = some stop := by
  have hlength : b < (d.starts.zip (d.starts.drop 1 ++ [d.ops.size])).length := by
    simp
    omega
  rw [ranges, getElem?_append_left hlength, getElem?_zip_eq_some] at h
  have hdrop : d.boundaries.drop 1 = d.starts.drop 1 ++ [d.ops.size] := by
    apply drop_append_of_le_length
    omega
  rw [← h.2, ← hdrop, getElem?_drop, Nat.add_comm]

variable {b' : Nat}

theorem boundary_inj (h : d.boundaries[b]? = some i) (h' : d.boundaries[b']? = some i) :
    b' = b := by
  have hlt := (List.getElem?_eq_some_iff.1 h).1
  have hnodup : d.boundaries.Nodup := pairwise_boundaries.imp Nat.ne_of_lt
  exact ((getElem?_inj hlt hnodup).1 (h.trans h'.symm)).symm

theorem boundary_lt {i' : Nat} (h : d.boundaries[b]? = some i) (h' : d.boundaries[b']? = some i')
    (hlt : b < b') : i < i' := by
  obtain ⟨hb, rfl⟩ := List.getElem?_eq_some_iff.1 h
  obtain ⟨hb', rfl⟩ := List.getElem?_eq_some_iff.1 h'
  exact pairwise_iff_getElem.1 pairwise_boundaries b b' hb hb' hlt

/-- No boundary lies inside of a block. -/
theorem not_boundary_inside (h : d.ranges[b]? = some (start, stop)) (hi : i ∈ d.boundaries) :
    i ≤ start ∨ stop ≤ i := by
  obtain ⟨k, hk⟩ := getElem?_of_mem hi
  have hstart := boundary_of_range h
  rcases Nat.lt_trichotomy k b with hlt | rfl | hgt
  · exact .inl (Nat.le_of_lt (boundary_lt hk hstart hlt))
  · rw [hstart] at hk
    cases hk
    exact .inl (Nat.le_refl _)
  · have hb : b < d.starts.length := by
      have := (List.getElem?_eq_some_iff.1 hk).1
      simp only [boundaries, length_append, length_singleton] at this
      omega
    have hstop := next_boundary_of_range hb h
    rcases Nat.lt_or_eq_of_le (Nat.succ_le_of_lt hgt) with hbehind | rfl
    · exact .inr (Nat.le_of_lt (boundary_lt hstop hk hbehind))
    · rw [hstop] at hk
      cases hk
      exact .inr (Nat.le_refl _)

theorem stop_mem_boundaries (h : d.ranges[b]? = some (start, stop)) : stop ∈ d.boundaries := by
  have hlt := (List.getElem?_eq_some_iff.1 h).1
  rw [length_ranges] at hlt
  rcases Nat.lt_or_eq_of_le (Nat.le_of_lt_succ hlt) with hb | rfl
  · exact mem_of_getElem? (next_boundary_of_range hb h)
  · rw [ranges_last] at h
    cases h
    simp [boundaries]

/-- A label names the block that starts at its position. -/
theorem blockAt?_eq_some_iff : d.blockAt? i = some b ↔ d.boundaries[b]? = some i := by
  have hlast : d.boundaries[d.starts.length]? = some d.ops.size := by simp [boundaries]
  unfold blockAt?
  split
  · rename_i hi
    subst hi
    constructor
    · rintro ⟨⟩
      exact hlast
    · intro h
      rw [boundary_inj hlast h]
      rfl
  · rename_i hi
    constructor
    · intro h
      obtain ⟨hb, hstart, -⟩ := findIdx?_eq_some_iff_getElem.1 h
      rw [boundaries, getElem?_append_left hb, getElem?_eq_getElem hb]
      simpa using hstart
    · intro h
      have hb : b < d.starts.length := by
        by_contra hge
        have hlt := (List.getElem?_eq_some_iff.1 h).1
        simp only [boundaries, length_append, length_singleton] at hlt
        obtain rfl : b = d.starts.length := by omega
        rw [hlast] at h
        exact hi (Option.some.inj h).symm
      have hstart := h
      rw [boundaries, getElem?_append_left hb, getElem?_eq_getElem hb] at hstart
      refine findIdx?_eq_some_iff_getElem.2 ⟨hb, by simpa using hstart, ?_⟩
      intro k hk heq
      have hstarts : d.boundaries[k]? = some i := by
        rw [boundaries, getElem?_append_left (Nat.lt_trans hk hb),
          getElem?_eq_getElem (Nat.lt_trans hk hb)]
        simpa using heq
      exact Nat.ne_of_lt hk (boundary_inj h hstarts)

/-- The blocks of a draft tile its operations. -/
theorem tiles_layout (code : Array Instruction) :
    Block.Tiles 0 (d.layout code).toList d.ops.size := by
  have hfirst : d.starts.headD d.ops.size = 0 := by
    cases hsize : d.ops.size with
    | zero => simp [starts, hsize]
    | succ n => simp [starts, hsize, range_succ_eq_map, startsBlock]
  rw [← hfirst]
  apply Block.tiles_of_boundaries pairwise_boundaries
  rw [layout, toList_toArray, map_map]
  exact zipIdx_map_fst ..

end Draft

end Decompiler
