import Decompiler.Proofs.Meaning.Expressions
import Decompiler.Proofs.Meaning.Moves
import Decompiler.Proofs.Structure.Fits

/-!
Idioms that span blocks compute what their blocks compute.  The blocks are run on any machine,
whatever stands in front of the idiom: behind its blocks the destination holds the absolute
value, the shifted value or the type of what the operands held where the idiom begins, unless the
temporary of the idiom overwrites an operand that is read again.
-/

namespace Decompiler

namespace Word

/-- The absolute value; the least word has none and stays as it is. -/
def magnitude (v : Word) : Word := if v.slt 0 then -v else v

/-- A shift to the left, or by a negative amount to the right. -/
def shiftBy (signed : Bool) (x n : Word) : Word :=
  if n.slt 0 then
    if signed then x.sshiftRight (shiftAmount (-n)) else x >>> shiftAmount (-n)
  else x <<< shiftAmount n

def tag (x : Word) : Nat := x.toNat % 8

theorem toNat_shiftLeft_61 (x : Word) : (x <<< 61).toNat = x.tag * 2 ^ 61 := by
  rw [BitVec.toNat_shiftLeft, Nat.shiftLeft_eq, tag]
  omega

theorem shiftLeft_61_eq_zero (x : Word) : (x <<< 61 == 0) = (x.tag == 0) := by
  have hzero : (0 : Word).toNat = 0 := rfl
  rw [Bool.eq_iff_iff, beq_iff_eq, beq_iff_eq, ← BitVec.toNat_inj, toNat_shiftLeft_61, hzero]
  omega

theorem zero_slt_shiftLeft_61 (x : Word) :
    (0 : Word).slt (x <<< 61) = (!(x.tag == 0) && decide (x.tag < 4)) := by
  have hlt : x.tag < 8 := Nat.mod_lt _ (by decide)
  have hzero : (0 : Word).toInt = 0 := rfl
  rw [Bool.eq_iff_iff, BitVec.slt, hzero, BitVec.toInt_eq_toNat_cond, toNat_shiftLeft_61]
  simp only [decide_eq_true_eq, Bool.and_eq_true, Bool.not_eq_true', beq_eq_false_iff_ne]
  omega

end Word

/-- The type of a value: small integers and pairs are told by their tags, and in front of any
other value stands the word of its type. -/
def typeWord (consts : Constants) (memory : Nat → LoadKind → Word → Word) (x : Word) : Word :=
  if x.tag = 0 then consts (.global "binteger")
  else if x.tag < 4 then consts (.global "pair")
  else memory 4 .unsigned (x - 4)

namespace IdiomShape

def start : IdiomShape → Nat
  | typeOf shape => shape.tagSite
  | ash shape => shape.branchSite
  | abs shape => shape.site

def register : IdiomShape → Register
  | typeOf shape => shape.dst
  | ash shape => shape.dst
  | abs shape => shape.value.register

def operands : IdiomShape → List Atom
  | typeOf shape => [shape.base]
  | ash shape => [.var shape.value, .var shape.amount]
  | abs shape => [.var shape.value]

/-- The value of the idiom, given those of its operands. -/
def compute (consts : Constants) (memory : Nat → LoadKind → Word → Word) :
    IdiomShape → List Word → Option Word
  | typeOf _, [x] => some (typeWord consts memory x)
  | ash shape, [x, n] => some (x.shiftBy shape.signed n)
  | abs _, [v] => some v.magnitude
  | _, _ => none

/-- Whether the temporary is another register than the operand that is read again behind it. -/
def isSeparate : IdiomShape → Bool
  | typeOf shape => shape.base.register? != some shape.temporary.register
  | ash shape => shape.value.register != shape.temporary.register
  | abs _ => true

end IdiomShape

variable {v : Variable}

theorem Expression.value_of_negated? {e : Expression} (h : e.negated? = some v)
    (consts : Constants) (σ : Registers) : e.value consts σ = some (-σ v.register) := by
  unfold negated? at h
  split at h
  · cases h
    rfl
  · split at h
    · rename_i hzero
      cases h
      rw [hzero]
      exact congrArg some (BitVec.zero_sub _)
    · cases h
  · cases h

theorem Branch.args_of_tested? {b : Branch} (h : b.tested? = some v) (consts : Constants)
    (σ : Registers) :
    ∃ rest, b.condition.args.map (Atom.value consts σ) = σ v.register :: rest := by
  obtain ⟨a, ha, hv⟩ := Option.bind_eq_some_iff.1 h
  obtain ⟨rest, hargs⟩ := List.head?_eq_some_iff.1 ha
  cases a <;> cases hv
  rw [hargs]
  exact ⟨_, rfl⟩

namespace Routine

variable {r : Routine} {id finish : BlockId} {M : Type} {machine : Processor M} {m m' : M}
  {block : Block} {site : Nat} {branch : Branch} {dst : Variable} {source : Expression}
  {q : Register}

namespace EndsLikely

variable (h : r.EndsLikely id site branch finish dst source)
  (hblock : r.blocks[id]? = some block) (hne : id ≠ finish)
include h hblock hne

theorem runsTo_taken (htruth : branch.condition.truth machine.consts
    (machine.registers (machine.reached r block site m)) = some true) :
    machine.RunsTo r finish id m
      (machine.execute (.set dst source) (machine.reached r block site m)) := by
  have hrun := Processor.RunsTo.taken hne hblock h.terminator h.target_eq (machine.holds_eq htruth)
  rw [Processor.executeDelay, h.delaySlot?_eq] at hrun
  exact hrun

theorem runsTo_skipped (htruth : branch.condition.truth machine.consts
    (machine.registers (machine.reached r block site m)) = some false)
    (hrest : machine.RunsTo r finish (id + 1) (machine.reached r block site m) m') :
    machine.RunsTo r finish id m m' := by
  refine .passed hne hblock h.terminator (machine.holds_eq htruth) ?_
  rw [h.likely, if_pos rfl]
  exact hrest

end EndsLikely

/-- Behind an absolute value, its register holds the absolute value of what it held. -/
theorem AbsLayout.runsTo {shape : AbsShape} (h : r.AbsLayout id shape) (machine : Processor M)
    (hblock : r.blocks[id]? = some block) (m : M) :
    ∃ m', machine.RunsTo r (id + 1) id m m' ∧
      machine.registers m' shape.value.register =
        Word.magnitude (machine.registers (machine.reached r block shape.site m)
          shape.value.register) := by
  obtain ⟨branch, dst, source, v, hends, htest, htested, hnegated, hv, hdst⟩ := h.test
  have hne : id ≠ id + 1 := (Nat.succ_ne_self id).symm
  let m₁ := machine.reached r block shape.site m
  have htruth : branch.condition.truth machine.consts (machine.registers m₁) =
      some ((machine.registers m₁ shape.value.register).slt 0) := by
    obtain ⟨rest, hargs⟩ := Branch.args_of_tested? htested machine.consts (machine.registers m₁)
    rw [Condition.truth, htest, hargs]
    rfl
  rw [Word.magnitude]
  cases hnegative : (machine.registers m₁ shape.value.register).slt 0 with
  | true =>
    rw [hnegative] at htruth
    refine ⟨_, hends.runsTo_taken hblock hne htruth, ?_⟩
    rw [← hdst, machine.execute_set (Expression.value_of_negated? hnegated _ _), hv, hdst,
      if_pos rfl]
  | false =>
    rw [hnegative] at htruth
    exact ⟨_, hends.runsTo_skipped hblock hne htruth (.arrived _), rfl⟩

variable {e : Expression}

theorem value_of_readsPair {a b : Register} (h : readsPair e a b = true) (consts : Constants)
    (σ : Registers) : e.value consts σ = e.operator.compute [σ a, σ b] := by
  unfold readsPair at h
  split at h
  · rename_i x y hargs
    rw [Bool.and_eq_true, beq_iff_eq, beq_iff_eq] at h
    rw [Expression.value, hargs, List.map_cons, List.map_cons, List.map_nil,
      Atom.value_of_register? h.1, Atom.value_of_register? h.2]
  · cases h

/-- An assignment keeps every register but its own. -/
theorem execute_set_of_ne (hq : q ≠ dst.register) :
    machine.registers (machine.execute (.set dst source) m) q = machine.registers m q :=
  machine.execute_keeps fun hmem => hq (RegisterSet.mem_single.1 hmem)

/-- Behind a shift, its destination holds the shifted value. -/
theorem AshLayout.runsTo {shape : AshShape} (h : r.AshLayout id shape)
    (hnone : r.terminator (id + 1) = .ok none)
    (hseparate : shape.value.register ≠ shape.temporary.register) (machine : Processor M)
    (hblock : r.blocks[id]? = some block) (m : M) :
    ∃ m', machine.RunsTo r (id + 2) id m m' ∧
      machine.registers m' shape.dst = Word.shiftBy shape.signed
        (machine.registers (machine.reached r block shape.branchSite m) shape.value.register)
        (machine.registers (machine.reached r block shape.branchSite m) shape.amount.register) := by
  obtain ⟨branch, dst, by', hends, htest, htested, hby, hdst⟩ := h.test
  have hne : id ≠ id + 2 := Nat.ne_of_lt (by omega)
  let m₁ := machine.reached r block shape.branchSite m
  let x := machine.registers m₁ shape.value.register
  let n := machine.registers m₁ shape.amount.register
  have htruth : branch.condition.truth machine.consts (machine.registers m₁) = some (!n.slt 0) := by
    obtain ⟨rest, hargs⟩ := Branch.args_of_tested? htested machine.consts (machine.registers m₁)
    rw [Condition.truth, htest, hargs]
    rfl
  change ∃ m', _ ∧ _ = Word.shiftBy shape.signed x n
  rw [Word.shiftBy]
  cases hnegative : n.slt 0 with
  | false =>
    rw [hnegative] at htruth
    refine ⟨_, hends.runsTo_taken hblock hne htruth, ?_⟩
    have hvalue : Expression.value machine.consts (machine.registers m₁)
        ⟨.shiftLeft, [.var shape.value, by']⟩ = some (x <<< Word.shiftAmount n) := by
      rw [Expression.value, List.map_cons, List.map_cons, Atom.value_of_register? hby]
      rfl
    rw [← hdst, machine.execute_set hvalue]
    rfl
  | true =>
    rw [hnegative] at htruth
    obtain ⟨right, hright, hsize, ⟨negation, v, ⟨negate, hnegateCode, hnegateOp⟩, hnegated, hv⟩,
      ⟨out, source, ⟨shift, hshiftCode, hshiftOp⟩, hsigned, hpair, hout⟩⟩ := h.right
    rw [Block.size] at hsize
    have hstop : right.stop = right.start + 1 + 1 := by omega
    refine ⟨_, hends.runsTo_skipped hblock hne htruth
      (.next (Nat.ne_of_lt (by omega)) hright hnone (.arrived _)), ?_⟩
    rw [hstop, Processor.reached_succ (Nat.le_succ _) hshiftCode,
      Processor.reached_succ (Nat.le_refl _) hnegateCode, Processor.reached_start, hshiftOp,
      hnegateOp, if_pos rfl]
    -- The temporary holds the negated amount, and the value is still there.
    let m₂ := machine.execute (.set shape.temporary negation) m₁
    have htemporary : machine.registers m₂ shape.temporary.register = -n := by
      rw [machine.execute_set (Expression.value_of_negated? hnegated _ _), hv]
    have hkept : machine.registers m₂ shape.value.register = x := execute_set_of_ne hseparate
    have hvalue := value_of_readsPair hpair machine.consts (machine.registers m₂)
    rw [htemporary, hkept] at hvalue
    rw [← hout]
    unfold rightShiftSigned? at hsigned
    split at hsigned
    · rename_i hoperator
      rw [hoperator] at hvalue
      rw [machine.execute_set hvalue, ← Option.some.inj hsigned, if_pos rfl]
    · rename_i hoperator
      rw [hoperator] at hvalue
      rw [machine.execute_set hvalue, ← Option.some.inj hsigned, if_neg Bool.false_ne_true]
    · cases hsigned

theorem truth_of_zeroTested? {c : Condition} (h : zeroTested? c = some q) (consts : Constants)
    (σ : Registers) : c.truth consts σ = some (σ q == 0) := by
  unfold zeroTested? at h
  split at h
  · cases h
    rfl
  · split at h
    · rename_i hzero
      cases h
      rw [hzero]
      rfl
    · cases h
  · cases h

theorem value_of_tagged? (h : tagged? e = some q) (consts : Constants) (σ : Registers) :
    e.value consts σ = some (σ q <<< 61) := by
  unfold tagged? at h
  split at h
  · split at h
    · rename_i hamount
      cases h
      rw [hamount]
      rfl
    · cases h
  · cases h

/-- Behind a dispatch on the type, its destination holds the type of the value. -/
theorem TypeOfLayout.runsTo {shape : TypeOfShape} (h : r.TypeOfLayout id shape)
    (hnone : r.terminator (id + 2) = .ok none)
    (hseparate : shape.base.register? ≠ some shape.temporary.register) (machine : Processor M)
    (hblock : r.blocks[id]? = some block) (m : M) :
    ∃ m', machine.RunsTo r (id + 3) id m m' ∧
      machine.registers m' shape.dst =
        typeWord machine.consts (machine.memory (machine.reached r block shape.tagSite m))
          (shape.base.value machine.consts
            (machine.registers (machine.reached r block shape.tagSite m))) := by
  obtain ⟨first, hfirst, hsize, htagSite⟩ := h.first
  cases hblock.symm.trans hfirst
  obtain ⟨source, base, ⟨tag, htagCode, htagOp⟩, htagged, hbase⟩ := h.tag
  obtain ⟨zeroSite, zeroTest, zeroDst, hzero, hzeroTested, hzeroDst⟩ := h.zeroTest
  obtain ⟨second, hsecond, hone⟩ := h.second
  obtain ⟨pairTest, pairDst, v, hpair, hpositive, hv, hpairDst⟩ := h.pairTest
  obtain ⟨third, load, loaded, hthird, hthirdOne, hloadCode, hloadOp, hloaded⟩ := h.third
  obtain ⟨-, -, hzeroSite⟩ := lastBranch?_of_terminator hblock hzero.terminator
  obtain ⟨-, -, hpairSite⟩ := lastBranch?_of_terminator hsecond hpair.terminator
  rw [Block.size] at hsize hone hthirdOne
  let m₁ := machine.reached r block shape.tagSite m
  let x := machine.registers m₁ base
  let m₂ := machine.execute (.set shape.temporary source) m₁
  have hx : shape.base.value machine.consts (machine.registers m₁) = x :=
    Atom.value_of_register? hbase _ _
  -- The branches see the tag in the temporary, and nothing else has changed.
  have htag : machine.registers m₂ shape.temporary.register = x <<< 61 :=
    machine.execute_set (value_of_tagged? htagged _ _)
  have hkept : machine.registers m₂ base = x := execute_set_of_ne fun heq => hseparate (heq ▸ hbase)
  have hreached : machine.reached r block zeroSite m = m₂ := by
    have hnext : zeroSite = shape.tagSite + 1 := by omega
    rw [hnext, Processor.reached_succ (by omega) htagCode, htagOp]
  have hreached' : machine.reached r second shape.pairSite m₂ = m₂ := by
    have hstart : shape.pairSite = second.start := by omega
    rw [hstart, Processor.reached_start]
  have hzeroTruth : zeroTest.condition.truth machine.consts
      (machine.registers (machine.reached r block zeroSite m)) = some (x.tag == 0) := by
    rw [hreached, truth_of_zeroTested? hzeroTested, htag, Word.shiftLeft_61_eq_zero]
  have hpairTruth : pairTest.condition.truth machine.consts
      (machine.registers (machine.reached r second shape.pairSite m₂)) =
        some (!(x.tag == 0) && decide (x.tag < 4)) := by
    rw [hreached', hpositive, ← Word.zero_slt_shiftLeft_61, ← htag, ← hv]
    rfl
  have hne : id ≠ id + 3 := Nat.ne_of_lt (by omega)
  have hne' : id + 1 ≠ id + 3 := Nat.ne_of_lt (by omega)
  rw [hx, typeWord]
  by_cases hinteger : x.tag = 0
  · rw [if_pos hinteger]
    rw [hinteger] at hzeroTruth
    refine ⟨_, hzero.runsTo_taken hblock hne hzeroTruth, ?_⟩
    rw [← hzeroDst]
    exact machine.execute_set rfl
  · rw [if_neg hinteger]
    rw [beq_false_of_ne hinteger] at hzeroTruth hpairTruth
    by_cases hlow : x.tag < 4
    · rw [if_pos hlow]
      rw [decide_eq_true hlow] at hpairTruth
      have hrest := hpair.runsTo_taken hsecond hne' hpairTruth
      rw [← hreached] at hrest
      refine ⟨_, hzero.runsTo_skipped hblock hne hzeroTruth hrest, ?_⟩
      rw [← hpairDst]
      exact machine.execute_set rfl
    · rw [if_neg hlow]
      rw [decide_eq_false hlow] at hpairTruth
      have hstop : third.stop = third.start + 1 := by omega
      have hload : machine.RunsTo r (id + 3) (id + 2) m₂ _ :=
        .next (Nat.ne_of_lt (by omega)) hthird hnone (.arrived _)
      have hrest : machine.RunsTo r (id + 3) (id + 1) m₂ _ :=
        hpair.runsTo_skipped hsecond hne' hpairTruth (by rw [hreached']; exact hload)
      rw [← hreached] at hrest
      refine ⟨_, hzero.runsTo_skipped hblock hne hzeroTruth hrest, ?_⟩
      rw [hreached, hstop, Processor.reached_succ (Nat.le_refl _) hloadCode,
        Processor.reached_start, hloadOp, ← hloaded, machine.execute_load,
        Atom.value_of_register? hbase, hkept, machine.memory_set, BitVec.sub_eq_add_neg]

/-- Behind the blocks of an idiom, its register holds the value of the idiom. -/
theorem HasShape.runsTo {shape : IdiomShape} (h : r.HasShape id shape)
    (hseparate : shape.isSeparate = true) (machine : Processor M)
    (hblock : r.blocks[id]? = some block) (m : M) :
    ∃ m', machine.RunsTo r (id + shape.size) id m m' ∧
      shape.compute machine.consts (machine.memory (machine.reached r block shape.start m))
          (shape.operands.map (Atom.value machine.consts
            (machine.registers (machine.reached r block shape.start m)))) =
        some (machine.registers m' shape.register) := by
  cases shape with
  | typeOf shape =>
    obtain ⟨m', hrun, hvalue⟩ := (matchTypeOf_eq_some h).runsTo
      (matchTypeOf_layout h).terminator_third (bne_iff_ne.1 hseparate) machine hblock m
    exact ⟨m', hrun, congrArg some hvalue.symm⟩
  | ash shape =>
    obtain ⟨m', hrun, hvalue⟩ := (matchAsh_eq_some h).runsTo (matchAsh_shiftsAt h).terminator_right
      (bne_iff_ne.1 hseparate) machine hblock m
    exact ⟨m', hrun, congrArg some hvalue.symm⟩
  | abs shape =>
    obtain ⟨m', hrun, hvalue⟩ := (matchAbs_eq_some h).runsTo machine hblock m
    exact ⟨m', hrun, congrArg some hvalue.symm⟩

end Routine

end Decompiler
