import Decompiler.Proofs.Structure.Checks
import Decompiler.Proofs.Structure.Shape
import Mathlib.Data.Multiset.Count

/-!
Effects: calls, stores and operations that stay as they are.  The marks that blocks and
idioms leave are compared with the effects of their instructions.
-/

namespace Decompiler

open List Routine

namespace Operation

def isCall : Operation → Bool
  | call _ _ _ => true
  | _ => false

def isStore : Operation → Bool
  | store _ _ _ _ _ => true
  | _ => false

/-- Operations that never become anything else. -/
def isOpaque : Operation → Bool
  | special .nop => false
  | special _ | asm _ _ _ => true
  | _ => false

def effects (site : Nat) (op : Operation) : Multiset Mark :=
  if op.isCall then {.call} else if op.isStore then {.store}
  else if op.isOpaque then {.operation site} else 0

end Operation

namespace Routine

/-- Delay slots hold an assignment or nothing. -/
def DelaysAssign (r : Routine) : Prop :=
  ∀ site branch op, r.BranchAt site branch → branch.delaySlot? = some op →
    ∃ dst source, op = .set dst source

def sitesIn (r : Routine) (id : BlockId) : List Nat := (r.blocks[id]?.map Block.sites).getD []

def effectsAt (r : Routine) (site : Nat) : Multiset Mark :=
  (r.code[site]?.map fun instr => instr.op.effects site).getD 0

def effectsOf (r : Routine) (sites : List Nat) : Multiset Mark := (sites.map r.effectsAt).sum

def effectsIn (r : Routine) (ids : List BlockId) : Multiset Mark :=
  r.effectsOf (ids.flatMap r.sitesIn)

/-- The marks that stand for effects. -/
def Tracks (r : Routine) : Mark → Prop
  | .call | .store => True
  | .operation site => ∃ instr, r.code[site]? = some instr ∧
      instr.op.isOpaque = true
  | .branch _ | .control | .rewritten => False

variable {r : Routine} {site : Nat}

@[simp] theorem effectsOf_nil : r.effectsOf [] = 0 := rfl

@[simp] theorem effectsOf_append (sites sites' : List Nat) :
    r.effectsOf (sites ++ sites') = r.effectsOf sites + r.effectsOf sites' := by
  rw [effectsOf, map_append, sum_append]
  rfl

@[simp] theorem effectsOf_cons (site : Nat) (sites : List Nat) :
    r.effectsOf (site :: sites) = r.effectsAt site + r.effectsOf sites := by
  rw [effectsOf, map_cons, sum_cons]
  rfl

@[simp] theorem effectsIn_nil : r.effectsIn [] = 0 := rfl

@[simp] theorem effectsIn_append (ids ids' : List BlockId) :
    r.effectsIn (ids ++ ids') = r.effectsIn ids + r.effectsIn ids' := by
  rw [effectsIn, flatMap_append, effectsOf_append]
  rfl

theorem effectsIn_cons (id : BlockId) (ids : List BlockId) :
    r.effectsIn (id :: ids) = r.effectsOf (r.sitesIn id) + r.effectsIn ids := by
  rw [effectsIn, flatMap_cons, effectsOf_append]
  rfl

theorem sitesIn_eq {id : BlockId} {block : Block} (h : r.blocks[id]? = some block) :
    r.sitesIn id = List.range' block.start block.size := by
  rw [sitesIn, h]
  rfl

theorem effectsAt_eq_zero {instr : Instruction} (hcode : r.code[site]? = some instr)
    (hop : instr.op.effects site = 0) : r.effectsAt site = 0 := by
  rw [effectsAt, hcode, Option.map_some, hop]
  rfl

theorem BranchAt.effectsAt_eq {branch : Branch} (h : r.BranchAt site branch) :
    r.effectsAt site = 0 := by
  obtain ⟨instr, hcode, hop⟩ := h
  exact effectsAt_eq_zero hcode (by rw [hop]; rfl)

theorem SetAt.effectsAt_eq {dst : Variable} {source : Expression} (h : r.SetAt site dst source) :
    r.effectsAt site = 0 := by
  obtain ⟨instr, hcode, hop⟩ := h
  exact effectsAt_eq_zero hcode (by rw [hop]; rfl)

end Routine

variable {A : Multiset Mark} {m : Mark}

theorem count_add_congr {A' B B' : Multiset Mark} (h : A.count m = B.count m)
    (h' : A'.count m = B'.count m) : (A + A').count m = (B + B').count m := by
  rw [Multiset.count_add, Multiset.count_add, h, h']

/-- An operation leaves a mark of an effect as often as it has the effect. -/
theorem Operation.Leaves.count_eq {r : Routine} {site : Nat} {instr : Instruction}
    (h : instr.op.Leaves site A) (hcode : r.code[site]? = some instr) (hm : r.Tracks m) :
    A.count m = (r.effectsAt site).count m := by
  have heffects : r.effectsAt site = instr.op.effects site := by
    rw [Routine.effectsAt, hcode]
    rfl
  rw [heffects]
  obtain ⟨op, consumed⟩ := instr
  dsimp only at h ⊢
  -- An operation that may stay as it is does not stand at a position that is tracked.
  have hstays : op.isOpaque = false → A = 0 ∨ A = {.operation site} → A.count m = 0 := by
    rintro hkept (rfl | rfl)
    · exact Multiset.count_zero m
    · rw [Multiset.count_singleton, if_neg]
      rintro rfl
      obtain ⟨other, hother, htrue⟩ := hm
      rw [hcode] at hother
      cases hother
      rw [hkept] at htrue
      cases htrue
  cases op with
  | set | store | call | asm => rw [show A = _ from h]; rfl
  | branch b =>
    rw [show A = _ from h, Multiset.count_singleton, if_neg]
    · rfl
    · rintro rfl
      exact hm
  | special kind => cases kind <;> · rw [show A = _ from h]; rfl
  | setCondition | load | divide | floatCompare | conditionalMove => exact hstays rfl h

namespace Context

variable {cx : Context} {m : Mark} {id : BlockId} {A : Multiset Mark}

theorem SitesLeave.count_eq {sites : List Nat} (h : cx.SitesLeave sites A)
    (hm : cx.routine.Tracks m) : A.count m = (cx.routine.effectsOf sites).count m := by
  induction h with
  | nil => rfl
  | cons hinstr hleaves hrest ih =>
    rw [Multiset.count_add, ih, hleaves.count_eq (instruction_eq_ok.1 hinstr) hm,
      ← Multiset.count_add, Routine.effectsOf, Routine.effectsOf, map_cons, sum_cons]

theorem DelayLeaves.eq_zero {site : Nat} {branch : Branch} (h : DelayLeaves site branch A)
    (hdelays : cx.routine.DelaysAssign) (hbranch : cx.routine.BranchAt site branch) : A = 0 := by
  unfold DelayLeaves at h
  cases hslot : branch.delaySlot? with
  | none =>
    rw [hslot] at h
    exact h
  | some op =>
    obtain ⟨dst, source, rfl⟩ := hdelays site branch op hbranch hslot
    rw [hslot] at h
    exact h

/-- What a block leaves up to the branch that ends it are all its effects. -/
theorem BodyLeaves.count_eq (h : cx.BodyLeaves id A) (hm : cx.routine.Tracks m) :
    A.count m = (cx.routine.effectsIn [id]).count m := by
  obtain ⟨block, terminator, hblock, hterm, hsites⟩ := h
  rw [hsites.count_eq hm, effectsIn_cons, effectsIn_nil, add_zero,
    sitesIn_eq (block_eq_ok.1 hblock)]
  cases terminator with
  | none => rfl
  | some entry =>
    obtain ⟨site, branch⟩ := entry
    obtain ⟨block', hblock', hlt, rfl, hbranch⟩ := terminator_eq_some hterm
    rw [block_eq_ok.1 hblock] at hblock'
    cases hblock'
    have hall : List.range' block.start block.size =
        List.range' block.start (block.stop - 1 - block.start) ++ [block.stop - 1] := by
      have hsize : block.size = block.stop - 1 - block.start + 1 := by
        rw [Block.size]
        omega
      rw [hsize, range'_concat, Nat.one_mul]
      congr 2
      omega
    rw [hall, effectsOf_append, effectsOf_cons, hbranch.effectsAt_eq,
      effectsOf_nil, add_zero, add_zero]
    rfl

theorem TerminatorLeaves.count_eq (h : cx.TerminatorLeaves id A) (hm : cx.routine.Tracks m)
    (hdelays : cx.routine.DelaysAssign) : A.count m = 0 := by
  obtain ⟨terminator, hterm, hleaves⟩ := h
  cases terminator with
  | none =>
    rw [show A = 0 from hleaves]
    exact Multiset.count_zero m
  | some entry =>
    obtain ⟨site, branch⟩ := entry
    obtain ⟨block, -, -, -, hbranch⟩ := terminator_eq_some hterm
    dsimp only at hleaves
    split at hleaves
    · rw [DelayLeaves.eq_zero hleaves hdelays hbranch]
      exact Multiset.count_zero m
    · rw [hleaves.count_eq hm, effectsOf_cons, hbranch.effectsAt_eq, effectsOf_nil]
      exact Multiset.count_zero m

/-- The instructions that an idiom drops have no effects. -/
theorem IdiomLeaves.count_eq {count : Nat} (h : cx.IdiomLeaves id count A)
    (hm : cx.routine.Tracks m) :
    A.count m = (cx.routine.effectsIn (List.range' id count)).count m := by
  cases h with
  | abs hallowed hmatch hbody => exact hbody.count_eq hm
  | ash hallowed hmatch hbody =>
    obtain ⟨right, hright, hsize, ⟨negation, v, hnegate, -⟩, ⟨out, source, hshift, -⟩⟩ :=
      (matchAsh_eq_some hmatch).right
    have hsites : cx.routine.sitesIn (id + 1) = [right.start, right.start + 1] := by
      rw [sitesIn_eq hright, hsize]
      rfl
    have hblocks : List.range' id 2 = [id] ++ [id + 1] := rfl
    rw [hbody.count_eq hm, hblocks, effectsIn_append, effectsIn_cons (id + 1), hsites]
    simp only [effectsOf_cons, effectsOf_nil, effectsIn_nil,
      hnegate.effectsAt_eq, hshift.effectsAt_eq, add_zero]
  | @typeOf shape block A hallowed hmatch hblock hsites =>
    have hdispatch := matchTypeOf_eq_some hmatch
    obtain ⟨first, hfirst, htwo, htag⟩ := hdispatch.first
    obtain ⟨source, base, htagSet, -⟩ := hdispatch.tag
    obtain ⟨zeroSite, zeroTest, zeroDst, hzero, -⟩ := hdispatch.zeroTest
    obtain ⟨first', hfirst', -, rfl, hzeroBranch⟩ := terminator_eq_some hzero.terminator
    obtain ⟨second, hsecond, hone⟩ := hdispatch.second
    obtain ⟨pairTest, pairDst, v, hpair, -⟩ := hdispatch.pairTest
    obtain ⟨second', hsecond', hlt, hpairSite, hpairBranch⟩ := terminator_eq_some hpair.terminator
    rw [hpairSite] at hpairBranch
    obtain ⟨third, load, dst, hthird, hthirdOne, hload, hloadOp, -⟩ := hdispatch.third
    rw [block_eq_ok.1 hblock] at hfirst hfirst'
    cases hfirst
    cases hfirst'
    rw [hsecond] at hsecond'
    cases hsecond'
    rw [Block.size] at htwo hone hthirdOne
    have hsitesFirst : cx.routine.sitesIn id =
        List.range' block.start (shape.tagSite - block.start) ++ [shape.tagSite, block.stop - 1] := by
      have hsize : block.size = shape.tagSite - block.start + 2 := by
        rw [Block.size]
        omega
      rw [sitesIn_eq (block_eq_ok.1 hblock), hsize, ← range'_append_1]
      congr 1
      rw [range'_succ, range'_one]
      congr 1
      · omega
      · congr 1
        omega
    have hsitesSecond : cx.routine.sitesIn (id + 1) = [second.stop - 1] := by
      rw [sitesIn_eq hsecond, Block.size, hone, range'_one]
      congr 1
      omega
    have hsitesThird : cx.routine.sitesIn (id + 2) = [third.start] := by
      rw [sitesIn_eq hthird, Block.size, hthirdOne]
      rfl
    have hloadZero : cx.routine.effectsAt third.start = 0 :=
      effectsAt_eq_zero hload (by rw [hloadOp]; rfl)
    have hblocks : List.range' id 3 = [id, id + 1, id + 2] := rfl
    rw [hsites.count_eq hm, hblocks]
    simp only [effectsIn_cons, hsitesFirst, hsitesSecond, hsitesThird,
      effectsOf_append, effectsOf_cons, effectsOf_nil,
      effectsIn_nil, htagSet.effectsAt_eq, hzeroBranch.effectsAt_eq,
      hpairBranch.effectsAt_eq, hloadZero, add_zero]

end Context

end Decompiler
