import Decompiler.Proofs.Machine.Blocks
import Decompiler.Proofs.Structure.Pieces

/-!
Idioms that span blocks.  Which one a block can start is decided by the test of the branch
that ends the block, so there is at most one.  Looking for an idiom never fails when the
blocks are there, and the blocks that it takes have a known layout: besides what comes before
the idiom there are only the branches, assignments and loads of its shape.
-/

namespace Decompiler

open List

/-- A look-up that succeeds. -/
def Found {α : Type} (x : Except Error α) : Prop := ∃ a, x = .ok a

namespace Found

variable {α β : Type}

theorem pure (a : α) : Found (Pure.pure a) := ⟨a, rfl⟩

theorem bind {x : Except Error α} {k : α → Except Error β} (hx : Found x)
    (hk : ∀ a, x = .ok a → Found (k a)) : Found (x >>= k) := by
  obtain ⟨a, rfl⟩ := hx
  exact hk a rfl

end Found

/-- The idiom that a branch with a test may begin. -/
def Test.idiom? : Test → Option Idiom
  | zero | equal => some .typeOf
  | greaterEqualZero => some .ash
  | lessZero => some .abs
  | _ => none

namespace Routine

variable {r : Routine} {id : BlockId}

def TestsAt (r : Routine) (id : BlockId) (test : Test) : Prop :=
  ∃ site branch, r.terminator id = .ok (some (site, branch)) ∧ branch.condition.test = test

theorem TestsAt.unique {test test' : Test} (h : r.TestsAt id test) (h' : r.TestsAt id test') :
    test = test' := by
  obtain ⟨site, branch, hbranch, rfl⟩ := h
  obtain ⟨site', branch', hbranch', rfl⟩ := h'
  cases hbranch.symm.trans hbranch'
  rfl

theorem TestsAt.ne_none {test : Test} (h : r.TestsAt id test) : r.terminator id ≠ .ok none := by
  obtain ⟨site, branch, hbranch, -⟩ := h
  rw [hbranch]
  simp

/-- The instruction at a position assigns a register, and its operands are right. -/
def SetsAt (r : Routine) (site : Nat) (register : Register) : Prop :=
  ∃ instr dst source, r.code[site]? = some instr ∧ instr.op = .set dst source ∧
    source.args.length = source.operator.arity ∧ dst.register = register

variable {e : Expression} {register : Register}

theorem length_of_negated? {v : Variable} (h : e.negated? = some v) :
    e.args.length = e.operator.arity := by
  unfold Expression.negated? at h
  split at h
  · rfl
  · rfl
  · cases h

theorem length_of_tagged? (h : tagged? e = some register) : e.args.length = e.operator.arity := by
  unfold tagged? at h
  split at h
  · rfl
  · cases h

theorem arity_of_rightShiftSigned? {operator : Operator} {signed : Bool}
    (h : rightShiftSigned? operator = some signed) : operator.arity = 2 := by
  unfold rightShiftSigned? at h
  split at h
  · rfl
  · rfl
  · cases h

theorem length_of_readsPair {a b : Register} (h : readsPair e a b = true) : e.args.length = 2 := by
  unfold readsPair at h
  split at h
  · rename_i hargs
    rw [hargs]
    rfl
  · cases h

theorem SetAt.setsAt {site : Nat} {dst : Variable} {source : Expression}
    (h : r.SetAt site dst source) (harity : source.args.length = source.operator.arity) :
    r.SetsAt site dst.register := by
  obtain ⟨instr, hcode, hop⟩ := h
  exact ⟨instr, dst, source, hcode, hop, harity, rfl⟩

theorem matchAbs_testsAt {shape : AbsShape} (h : r.matchAbs id = .ok (some shape)) :
    r.TestsAt id .lessZero := by
  obtain ⟨branch, dst, source, v, hends, htest, -⟩ := (matchAbs_eq_some h).test
  exact ⟨_, branch, hends.terminator, htest⟩

/-- The layout of a shift in two blocks. -/
structure ShiftsAt (r : Routine) (id : BlockId) (shape : AshShape) : Prop where
  test : r.TestsAt id .greaterEqualZero
  right : ∃ block register, r.blocks[id + 1]? = some block ∧ block.size = 2 ∧
    r.SetsAt block.start register ∧ r.SetsAt (block.start + 1) shape.dst

theorem matchAsh_shiftsAt {shape : AshShape} (h : r.matchAsh id = .ok (some shape)) :
    r.ShiftsAt id shape := by
  have hlayout := matchAsh_eq_some h
  obtain ⟨branch, dst, by', hends, htest, -⟩ := hlayout.test
  obtain ⟨right, hright, hsize, ⟨negation, v, hnegate, hnegated, -⟩,
    ⟨out, source, hshift, hsigned, hpair, hout⟩⟩ := hlayout.right
  refine ⟨⟨_, branch, hends.terminator, htest⟩, right, shape.temporary.register, hright, hsize,
    hnegate.setsAt (length_of_negated? hnegated), hout ▸ hshift.setsAt ?_⟩
  exact (length_of_readsPair hpair).trans (arity_of_rightShiftSigned? hsigned).symm

/-- The layout of a dispatch on the type in three blocks. -/
structure DispatchLayout (r : Routine) (id : BlockId) (shape : TypeOfShape) : Prop where
  test : r.TestsAt id .zero ∨ r.TestsAt id .equal
  first : ∃ block register, r.blocks[id]? = some block ∧ 2 ≤ block.size ∧
    shape.tagSite = block.stop - 2 ∧ r.SetsAt shape.tagSite register
  second : r.TestsAt (id + 1) .greaterZero ∧
    ∃ block, r.blocks[id + 1]? = some block ∧ block.size = 1
  third : ∃ block instr dst base offset size kind, r.blocks[id + 2]? = some block ∧
    block.size = 1 ∧ r.code[block.start]? = some instr ∧
      instr.op = .load dst base offset size kind ∧ dst.register = shape.dst

theorem test_of_zeroTested? {c : Condition} (h : zeroTested? c = some register) :
    c.test = .zero ∨ c.test = .equal := by
  unfold zeroTested? at h
  split at h
  · exact .inl rfl
  · exact .inr rfl
  · cases h

theorem matchTypeOf_layout {shape : TypeOfShape} (h : r.matchTypeOf id = .ok (some shape)) :
    r.DispatchLayout id shape := by
  have hlayout := matchTypeOf_eq_some h
  obtain ⟨first, hfirst, hsize, htagSite⟩ := hlayout.first
  obtain ⟨source, base, htag, htagged, -⟩ := hlayout.tag
  obtain ⟨zeroSite, zeroTest, dst, hzero, htested, -⟩ := hlayout.zeroTest
  obtain ⟨pairTest, dst', v, hpair, hpositive, -⟩ := hlayout.pairTest
  obtain ⟨third, load, loaded, hthird, hone, hload, hloadOp, hloaded⟩ := hlayout.third
  refine ⟨?_, ?_, ⟨⟨_, pairTest, hpair.terminator, ?_⟩, hlayout.second⟩, ?_⟩
  · rcases test_of_zeroTested? htested with htest | htest
    · exact .inl ⟨zeroSite, zeroTest, hzero.terminator, htest⟩
    · exact .inr ⟨zeroSite, zeroTest, hzero.terminator, htest⟩
  · exact ⟨first, _, hfirst, hsize, htagSite, htag.setsAt (length_of_tagged? htagged)⟩
  · rw [hpositive]
  · exact ⟨third, load, loaded, _, _, _, _, hthird, hone, hload, hloadOp, hloaded⟩

theorem HasShape.test {shape : IdiomShape} (h : r.HasShape id shape) :
    ∃ test, r.TestsAt id test ∧ test.idiom? = some shape.family := by
  cases shape with
  | typeOf shape =>
    rcases (matchTypeOf_layout h).test with htest | htest
    · exact ⟨_, htest, rfl⟩
    · exact ⟨_, htest, rfl⟩
  | ash shape => exact ⟨_, (matchAsh_shiftsAt h).test, rfl⟩
  | abs shape => exact ⟨_, matchAbs_testsAt h, rfl⟩

/-- A block starts at most one idiom. -/
theorem HasShape.unique {shape shape' : IdiomShape} (h : r.HasShape id shape)
    (h' : r.HasShape id shape') : shape = shape' := by
  obtain ⟨test, htest, hfamily⟩ := h.test
  obtain ⟨test', htest', hfamily'⟩ := h'.test
  cases htest.unique htest'
  have hsame := Option.some.inj (hfamily.symm.trans hfamily')
  cases shape with
  | typeOf shape =>
    cases shape' with
    | typeOf shape' => cases Eq.trans (Eq.symm h) h'; rfl
    | _ => cases hsame
  | ash shape =>
    cases shape' with
    | ash shape' => cases Eq.trans (Eq.symm h) h'; rfl
    | _ => cases hsame
  | abs shape =>
    cases shape' with
    | abs shape' => cases Eq.trans (Eq.symm h) h'; rfl
    | _ => cases hsame

/-- A block that ends without a branch starts no idiom. -/
theorem not_hasShape_of_none (h : r.terminator id = .ok none) (shape : IdiomShape) :
    ¬r.HasShape id shape := by
  intro hshape
  obtain ⟨test, htest, -⟩ := hshape.test
  exact htest.ne_none h

theorem not_hasShape_of_test {test : Test} (h : r.TestsAt id test) (hidiom : test.idiom? = none)
    (shape : IdiomShape) : ¬r.HasShape id shape := by
  intro hshape
  obtain ⟨test', htest', hfamily⟩ := hshape.test
  cases h.unique htest'
  rw [hidiom] at hfamily
  cases hfamily

def HasBlocks (r : Routine) (id : BlockId) (count : Nat) : Prop :=
  ∀ b < count, ∃ block, r.blocks[id + b]? = some block

namespace IsValid

variable (hvalid : r.IsValid)
include hvalid

theorem matchAbs_found (h : r.HasBlocks id 1) : Found (r.matchAbs id) := by
  obtain ⟨block, hblock⟩ := h 0 Nat.one_pos
  exact .bind (hvalid.exists_terminator hblock) fun _ _ => .pure _

theorem matchAsh_found (h : r.HasBlocks id 2) : Found (r.matchAsh id) := by
  obtain ⟨block, hblock⟩ := h 0 Nat.two_pos
  obtain ⟨right, hright⟩ := h 1 Nat.one_lt_two
  have hinstr : ∀ {site : Nat}, site < right.stop → Found (r.instruction site) := by
    intro site hsite
    obtain ⟨instr, hcode⟩ := hvalid.exists_instruction hright hsite
    exact ⟨instr, instruction_eq_ok.2 hcode⟩
  refine .bind (hvalid.exists_terminator hblock) fun terminator _ => ?_
  split
  case h_2 => exact .pure _
  refine .bind ⟨right, block_eq_ok.2 hright⟩ fun right' hright' => ?_
  cases hright'.symm.trans (block_eq_ok.2 hright)
  split
  case h_2 => exact .pure _
  rename_i hoperands
  obtain ⟨_, hguard, -⟩ := Option.bind_eq_some_iff.1 hoperands
  have hsize := of_guard hguard
  rw [Bool.and_eq_true, beq_iff_eq, Block.size] at hsize
  refine .bind (hinstr (by omega)) fun negate _ => ?_
  split
  case h_2 => exact .pure _
  split
  · exact .pure _
  refine .bind (hinstr (by omega)) fun shift _ => ?_
  split
  · exact .pure _
  · exact .pure _

theorem matchTypeOf_found (h : r.HasBlocks id 3) : Found (r.matchTypeOf id) := by
  obtain ⟨first, hfirst⟩ := h 0 (by omega)
  obtain ⟨second, hsecond⟩ := h 1 (by omega)
  obtain ⟨third, hthird⟩ := h 2 (by omega)
  have hinstr : ∀ {b : BlockId} {block : Block} {site : Nat}, r.blocks[b]? = some block →
      site < block.stop → Found (r.instruction site) := by
    intro b block site hblock hsite
    obtain ⟨instr, hcode⟩ := hvalid.exists_instruction hblock hsite
    exact ⟨instr, instruction_eq_ok.2 hcode⟩
  refine .bind ⟨first, block_eq_ok.2 hfirst⟩ fun first' hfirst' => ?_
  refine .bind ⟨second, block_eq_ok.2 hsecond⟩ fun second' hsecond' => ?_
  refine .bind ⟨third, block_eq_ok.2 hthird⟩ fun third' hthird' => ?_
  cases hfirst'.symm.trans (block_eq_ok.2 hfirst)
  cases hsecond'.symm.trans (block_eq_ok.2 hsecond)
  cases hthird'.symm.trans (block_eq_ok.2 hthird)
  split
  · exact .pure _
  rename_i hsizes
  rw [not_or, not_or, not_lt, not_not, not_not, Block.size, Block.size, Block.size] at hsizes
  refine .bind (hvalid.exists_terminator hfirst) fun terminator _ => ?_
  split
  case h_2 => exact .pure _
  split
  case h_2 => exact .pure _
  split
  case h_2 => exact .pure _
  refine .bind (hinstr hfirst (by omega)) fun tag _ => ?_
  split
  case h_2 => exact .pure _
  split
  case h_2 => exact .pure _
  split
  · exact .pure _
  refine .bind (hvalid.exists_terminator hsecond) fun pair _ => ?_
  split
  case h_2 => exact .pure _
  extract_lets positive
  split
  · exact .pure _
  refine .bind (hinstr hthird (by omega)) fun load _ => ?_
  split
  case h_2 => exact .pure _
  split
  · exact .pure _
  · exact .pure _

end IsValid

end Routine

namespace Context

variable {cx : Context} {id : BlockId} {available : Nat}

variable {idiom : Idiom} {window : List Region}

theorem whenAllowed_eq_some {α : Type} {found : Except Error (Option α)} {a : α}
    (hallowed : cx.config.allows idiom = true) (hfound : found = .ok (some a)) :
    cx.whenAllowed idiom found = pure (some a) := by
  rw [whenAllowed, if_pos hallowed, hfound]
  rfl

theorem whenAllowed_eq_none {α : Type} {found : Except Error (Option α)} (hfound : Found found)
    (h : ∀ a, cx.config.allows idiom = true → found ≠ .ok (some a)) :
    cx.whenAllowed idiom found = pure none := by
  unfold whenAllowed
  split
  · rename_i hallowed
    obtain ⟨_ | a, rfl⟩ := hfound
    · rfl
    · exact absurd rfl (h a hallowed)
  · rfl

/-- When the blocks are there, trying idioms folds the one that is found, or does nothing. -/
theorem tryIdiomsAt_eq (hvalid : cx.routine.IsValid) (hblocks : cx.routine.HasBlocks id available)
    (havailable : 0 < available) :
    (∃ shape, cx.Finds id available shape ∧
        cx.tryIdiomsAt id available = (do cx.applyIdiom id shape; return shape.size)) ∨
      (∀ shape, ¬cx.Finds id available shape) ∧ cx.tryIdiomsAt id available = pure 0 := by
  have hfewer : ∀ {count}, count ≤ available → cx.routine.HasBlocks id count :=
    fun hle b hb => hblocks b (Nat.lt_of_lt_of_le hb hle)
  have htypeOf : 3 ≤ available → (∀ shape, ¬cx.Finds id available (.typeOf shape)) →
      cx.whenAllowed .typeOf (cx.routine.matchTypeOf id) = pure none := fun hle hnone =>
    whenAllowed_eq_none (hvalid.matchTypeOf_found (hfewer hle)) fun shape hallowed hshape =>
      hnone shape ⟨hle, hallowed, hshape⟩
  have hash : 2 ≤ available → (∀ shape, ¬cx.Finds id available (.ash shape)) →
      cx.whenAllowed .ash (cx.routine.matchAsh id) = pure none := fun hle hnone =>
    whenAllowed_eq_none (hvalid.matchAsh_found (hfewer hle)) fun shape hallowed hshape =>
      hnone shape ⟨hle, hallowed, hshape⟩
  have habs : (∀ shape, ¬cx.Finds id available (.abs shape)) →
      cx.whenAllowed .abs (cx.routine.matchAbs id) = pure none := fun hnone =>
    whenAllowed_eq_none (hvalid.matchAbs_found (hfewer havailable)) fun shape hallowed hshape =>
      hnone shape ⟨havailable, hallowed, hshape⟩
  by_cases hany : ∃ shape, cx.Finds id available shape
  · obtain ⟨shape, h⟩ := hany
    have honly : ∀ shape', shape' ≠ shape → ¬cx.Finds id available shape' := fun shape' hne h' =>
      hne (h'.shape.unique h.shape)
    refine .inl ⟨shape, h, ?_⟩
    unfold tryIdiomsAt
    cases shape with
    | typeOf shape =>
      have hle : 3 ≤ available := h.size
      have hfound : cx.whenAllowed .typeOf (cx.routine.matchTypeOf id) = pure (some shape) :=
        whenAllowed_eq_some h.allowed h.shape
      simp [hle, hfound, applyIdiom, IdiomShape.size]
    | ash shape =>
      have hle : 2 ≤ available := h.size
      have hfound : cx.whenAllowed .ash (cx.routine.matchAsh id) = pure (some shape) :=
        whenAllowed_eq_some h.allowed h.shape
      by_cases hthree : 3 ≤ available
      · have hskip := htypeOf hthree fun _ => honly _ (by simp)
        simp [hthree, hle, hskip, hfound, applyIdiom, IdiomShape.size]
      · simp [hthree, hle, hfound, applyIdiom, IdiomShape.size]
    | abs shape =>
      have hfound : cx.whenAllowed .abs (cx.routine.matchAbs id) = pure (some shape) :=
        whenAllowed_eq_some h.allowed h.shape
      have hskip : 3 ≤ available → cx.whenAllowed .typeOf (cx.routine.matchTypeOf id) = pure none :=
        fun hle => htypeOf hle fun _ => honly _ (by simp)
      have hskip' : 2 ≤ available → cx.whenAllowed .ash (cx.routine.matchAsh id) = pure none :=
        fun hle => hash hle fun _ => honly _ (by simp)
      by_cases hthree : 3 ≤ available
      · have htwo : 2 ≤ available := by omega
        simp [hthree, htwo, hskip hthree, hskip' htwo, hfound, applyIdiom, IdiomShape.size]
      · by_cases htwo : 2 ≤ available
        · simp [hthree, htwo, hskip' htwo, hfound, applyIdiom, IdiomShape.size]
        · simp [hthree, htwo, hfound, applyIdiom, IdiomShape.size]
  · rw [not_exists] at hany
    refine .inr ⟨hany, ?_⟩
    unfold tryIdiomsAt
    by_cases hthree : 3 ≤ available
    · have htwo : 2 ≤ available := by omega
      simp [hthree, htwo, htypeOf hthree fun _ => hany _, hash htwo fun _ => hany _,
        habs fun _ => hany _]
    · by_cases htwo : 2 ≤ available
      · simp [hthree, htwo, hash htwo fun _ => hany _, habs fun _ => hany _]
      · simp [hthree, htwo, habs fun _ => hany _]

theorem tryIdioms_eq (hvalid : cx.routine.IsValid)
    (hblocks : ∀ id, .block id ∈ window → ∃ block, cx.routine.blocks[id]? = some block) :
    (∃ id shape, cx.FindsIn window id shape ∧
        cx.tryIdioms window = (do cx.applyIdiom id shape; return shape.size)) ∨
      (∀ id shape, ¬cx.FindsIn window id shape) ∧ cx.tryIdioms window = pure 0 := by
  unfold tryIdioms FindsIn
  dsimp only
  have hstart := leadingBlocks_prefix (window.take 3)
  cases hleading : leadingBlocks (window.take 3) with
  | nil => exact .inr ⟨by simp, rfl⟩
  | cons id rest =>
    dsimp only
    split
    · rename_i hconsecutive
      rw [hleading, eq_range'_of_areConsecutive hconsecutive] at hstart
      have hhas : cx.routine.HasBlocks id (rest.length + 1) := by
        intro b hb
        refine hblocks _ ((List.take_prefix 3 window).subset (hstart.subset ?_))
        exact mem_map_of_mem (mem_range'_1.2 (by omega))
      rcases tryIdiomsAt_eq hvalid hhas (Nat.succ_pos _) with ⟨shape, hfinds, heq⟩ | ⟨hnone, heq⟩
      · exact .inl ⟨id, shape, ⟨rest, rfl, hconsecutive, hfinds⟩, heq⟩
      · refine .inr ⟨?_, heq⟩
        rintro id' shape ⟨rest', hsame, -, hfinds⟩
        cases hsame
        exact hnone shape hfinds
    · rename_i hconsecutive
      refine .inr ⟨?_, rfl⟩
      rintro id' shape ⟨rest', hsame, hconsecutive', -⟩
      cases hsame
      exact hconsecutive hconsecutive'

def pushRegions (cx : Context) (depth : Nat) (items : List Region) : TryFoldM Unit :=
  cx.pushPieces depth 0 (items.map cx.piece)

/-- Folds a region inside a sequence; idioms have been tried. -/
def pushItem (cx : Context) (depth : Nat) (item : Region) : TryFoldM Unit :=
  match item with
  | .block id => cx.pushBlock id
  | _ => (cx.piece item).push (depth + 1)

theorem piece_region (region : Region) : (cx.piece region).region = region :=
  Region.fold_region cx.pieceRules Piece.region (fun _ => rfl) (fun _ => rfl) (fun _ => rfl)
    (fun _ _ => rfl) (fun _ => rfl) (fun _ _ => rfl) region

theorem map_piece_region (items : List Region) : (items.map cx.piece).map Piece.region = items := by
  rw [map_map]
  exact (map_congr_left fun item _ => piece_region item).trans (map_id _)

/-- Of regions one after another, either the blocks of an idiom are folded as one, or the
first region is folded by itself. -/
theorem pushRegions_cons (hvalid : cx.routine.IsValid) {depth : Nat} {item : Region}
    {rest : List Region}
    (hblocks : ∀ id, .block id ∈ item :: rest → ∃ block, cx.routine.blocks[id]? = some block) :
    (∃ id shape, cx.FindsIn (item :: rest) id shape ∧
        cx.pushRegions depth (item :: rest) =
          (do cx.applyIdiom id shape; cx.pushRegions depth ((item :: rest).drop shape.size))) ∨
      (∀ id shape, ¬cx.FindsIn (item :: rest) id shape) ∧
        cx.pushRegions depth (item :: rest) =
          (do cx.pushItem depth item; cx.pushRegions depth rest) := by
  have hwindow : cx.tryIdioms ((((item :: rest).map cx.piece).take 3).map Piece.region) =
      cx.tryIdioms (item :: rest) := by
    rw [map_take, map_piece_region]
    unfold tryIdioms
    rw [take_take, Nat.min_self]
  rw [pushRegions, map_cons, pushPieces, ← map_cons, hwindow]
  rcases tryIdioms_eq hvalid hblocks with ⟨id, shape, hfinds, heq⟩ | ⟨hnone, heq⟩
  · refine .inl ⟨id, shape, hfinds, ?_⟩
    rw [heq]
    cases shape <;> simp [IdiomShape.size, pushRegions, pushPieces_skip]
  · refine .inr ⟨hnone, ?_⟩
    rw [heq, pure_bind]
    dsimp only
    rw [piece_region]
    cases item <;> rfl

end Context

end Decompiler
