import Decompiler.Proofs.Meaning.Bodies

/-!
Folding of straight-line integer code keeps its result, unless operands clash.  The code is
folded like a block, and behind its end only the result register is live.
-/

namespace Decompiler

open List RegisterSet

/-- All code of a routine as one block. -/
def Routine.whole (r : Routine) : Block := ⟨0, 0, r.code.size, []⟩

namespace Routine.IsStraight

variable {r : Routine} {ops : List Operation} {k : Nat} {instr : Instruction} (h : r.IsStraight ops)
include h

theorem drop_eq (hcode : r.code[k]? = some instr) :
    ops.drop k = instr.op :: ops.drop (k + 1) := by
  have hk := (Array.getElem?_eq_some_iff.1 hcode).1
  obtain ⟨_, hcode', -, hdrop⟩ := exists_getElem? h.ops_eq (length_ops h.ops_eq ▸ hk)
  cases hcode.symm.trans hcode'
  exact hdrop

/-- Straight-line code is like a block whose live registers can be computed from its end. -/
theorem follows :
    r.Follows r.whole fun k q => q ∈ liveBefore (.single r.resultRegister) (ops.drop k) where
  read _ hcode hread := by
    rw [h.drop_eq hcode, liveBefore]
    exact mem_union.2 (.inr hread)
  kept _ hcode hkeep hq := by
    rw [h.drop_eq hcode, liveBefore]
    exact mem_union.2 (.inl (mem_diff.2 ⟨hq, hkeep⟩))
  dead _ hcode := h.dead hcode

/-- A machine that comes to the end of the code has done what running the code does. -/
theorem execute_eq (hops : ∀ op ∈ ops, op.isInteger = true) (consts : Constants)
    (m : PlainState) : r.execute consts m.registers =
      some ((plainMachine consts).reached r r.whole r.code.size m).registers := by
  have hlength := length_ops h.ops_eq
  have hbefore : ∀ k ≤ ops.length, (ops.take k).foldlM (Operation.step consts) m.registers =
      some ((plainMachine consts).reached r r.whole k m).registers := by
    intro k hk
    induction k with
    | zero => rfl
    | succ k ih =>
      obtain ⟨⟨op, consumed⟩, hcode, hop, -⟩ := exists_getElem? h.ops_eq hk
      obtain ⟨dst, source, rfl, hsource⟩ :=
        Operation.isInteger_eq_set (hops op (mem_of_getElem? hop))
      obtain ⟨w, hw⟩ := Expression.exists_value hsource consts
        ((plainMachine consts).reached r r.whole k m).registers
      rw [take_add_one, hop, foldlM_append, ih (Nat.le_of_succ_le hk),
        Processor.reached_succ (Nat.zero_le k) hcode]
      change (source.value consts _).map _ >>= pure = some ((plainMachine consts).registers _)
      rw [bind_pure, Processor.registers_set hw, hw]
      rfl
  rw [execute, ← hlength, ← hbefore ops.length (Nat.le_refl _), take_length, ← h.ops_eq, foldlM_map]

theorem noFloats {env : TypeEnv} (henv : ∀ instr ∈ r.code, env.NoFloats instr.op.reads) :
    ∀ op ∈ ops, env.NoFloats op.reads := by
  intro op hop
  rw [← h.ops_eq] at hop
  obtain ⟨instr, hinstr, rfl⟩ := mem_map.1 hop
  exact henv instr (Array.mem_def.2 hinstr)

end Routine.IsStraight

namespace Context

def clashesAt (cx : Context) (log : EventLog) (site : Nat) : Bool :=
  cx.clashesNow site (cx.foldedBefore log site)

theorem sitesClash_range {cx : Context} {log : EventLog} {s : FoldState} {n : Nat}
    (hrun : ((List.range n).forM cx.pushInstruction).run (.start log) = (.ok (), s))
    (h : ∀ site < n, cx.clashesAt log site = false) :
    cx.sitesClash (List.range n) (.start log) = false := by
  induction n generalizing s with
  | zero => rfl
  | succ n ih =>
    have hsplit := hrun
    rw [List.range_succ, List.forM_eq_forM, List.forM_append] at hsplit
    obtain ⟨⟨⟩, s', hbefore, -⟩ := TryFoldM.run_bind_eq_ok hsplit
    rw [List.range_succ, sitesClash_concat hbefore, Bool.or_eq_false_iff, ← foldedBefore_eq hbefore]
    exact ⟨ih hbefore fun site hsite => h site (Nat.lt_succ_of_lt hsite), h n (Nat.lt_succ_self n)⟩

/-- Straight-line integer code can be assembled, run and folded.  The statements that are
left on the stack can be run as well, and unless operands clash they leave the same result as
the code. -/
theorem fold_keeps_result (name : String) {program : List Statement}
    (hprogram : ∀ statement ∈ program, statement.isInteger = true) :
    ∃ r, assemble name program = .ok r ∧ ∀ (env : TypeEnv) (config : Config) (log : EventLog)
      (consts : Constants) (σ : Registers),
      (∀ instr ∈ r.code, env.NoFloats instr.op.reads) →
      ∃ (s : FoldState) (τ τ' : Registers),
        ((List.range r.code.size).forM (Context.of r env config).pushInstruction).run (.start log) =
          (.ok (), s) ∧
        r.execute consts σ = some τ ∧
        (s.stack.rewrite s.pool).2.execute consts σ (s.stack.rewrite s.pool).1 = some τ' ∧
        ((∀ site < r.code.size, (Context.of r env config).clashesAt log site = false) →
          τ' r.resultRegister = τ r.resultRegister) := by
  obtain ⟨r, ops, hr, hstraight, hops⟩ := assemble_straight name hprogram
  refine ⟨r, hr, fun env config log consts σ henv => ?_⟩
  have hlength : ops.length = r.code.size := Routine.length_ops hstraight.ops_eq
  have hinteger : ∀ site, 0 ≤ site → site < 0 + r.code.size →
      (Context.of r env config).IntegerAt site := by
    intro site _ hsite
    obtain ⟨instr, hcode, hop, -⟩ := Routine.exists_getElem? hstraight.ops_eq (k := site) (by omega)
    exact ⟨instr, hcode, hops _ (mem_of_getElem? hop), henv instr (Array.mem_of_getElem? hcode)⟩
  have hempty : (FoldState.start log).Lists [] [] := ⟨rfl, Pool.Owns.nil _⟩
  obtain ⟨s, E, hrun, -, hlists, hE, hagrees⟩ := pushSites_agrees
    (show r.whole.start ≤ 0 from Nat.le_refl 0) (Nat.le_of_eq (Nat.zero_add r.code.size)) hinteger
    hempty (by simp) rfl
  rw [← List.range_eq_range'] at hrun hagrees
  refine ⟨s, _, _, hrun, hstraight.execute_eq hops consts ⟨σ, fun _ _ _ => 0⟩,
    hlists.execute_eq hE consts σ, fun hclear => ?_⟩
  have hend := hagrees (sitesClash_range hrun hclear) hstraight.follows (plainMachine consts) σ
    ⟨σ, fun _ _ _ => 0⟩ (Processor.agreesAt_start fun _ _ => rfl) r.resultRegister
  rw [Nat.zero_add, ← hlength, List.drop_length] at hend
  rw [← hlength]
  exact hend (RegisterSet.mem_single.2 rfl)

/-- Without declared types, only what float registers hold is known to be a float. -/
theorem noFloats_of_no_types (r : Routine) {rs : RegisterSet}
    (h : ∀ q ∈ rs, q.isFloat = false) : (({} : TypeTable).env r).NoFloats rs := by
  refine ⟨fun v hv => ?_, rfl⟩
  have htype : (({} : TypeTable).env r).variableType v =
      if v.register.isFloat then some .float else none := by
    change ((r.argumentPosition? v).bind fun n => ([] : List TypeName)[n]?).orElse _ = _
    cases r.argumentPosition? v <;> rfl
  rw [htype, h v.register hv]
  exact fun hnone => by cases hnone

/-- Instructions that read no float register, in a routine without declared types. -/
theorem noFloats_of_all {r : Routine} (h : (r.code.all fun instr => Register.all.all fun q =>
      !(instr.op.reads.contains q && q.isFloat)) = true) :
    ∀ instr ∈ r.code, (untyped r).env.NoFloats instr.op.reads := by
  simp only [Array.all_eq_true_iff_forall_mem, List.all_eq_true, Bool.not_eq_true'] at h
  intro instr hinstr
  refine noFloats_of_no_types r fun q hq => ?_
  have hreg := h instr hinstr q (List.mem_map.2 ⟨q.index, List.mem_finRange _, rfl⟩)
  rw [show instr.op.reads.contains q = true from hq, Bool.true_and] at hreg
  exact hreg

/-- The lower half of a difference of a sum and a product. -/
def halfDifference : List Statement :=
  [.set ⟨8⟩ .add [.register ⟨4⟩, .int 1],
   .set ⟨9⟩ .mulSigned [.register ⟨5⟩, .int 2],
   .set ⟨10⟩ .sub [.register ⟨8⟩, .register ⟨9⟩],
   .set ⟨11⟩ .shiftLeft [.register ⟨10⟩, .int 32],
   .set .v0 .shiftRightArith [.register ⟨11⟩, .int 32]]

theorem halfDifference_keeps_result :
    ∃ r, assemble "half-difference" halfDifference = .ok r ∧
      (∀ instr ∈ r.code, (untyped r).env.NoFloats instr.op.reads) ∧
      (∀ site < r.code.size, (untyped r).clashesAt .empty site = false) ∧
      ∀ (consts : Constants) (σ : Registers), ∃ (s : FoldState) (τ τ' : Registers),
        ((List.range r.code.size).forM (untyped r).pushInstruction).run (.start .empty) =
          (.ok (), s) ∧
        r.execute consts σ = some τ ∧
        (s.stack.rewrite s.pool).2.execute consts σ (s.stack.rewrite s.pool).1 = some τ' ∧
        τ' r.resultRegister = τ r.resultRegister := by
  have hprogram : ∀ statement ∈ halfDifference, statement.isInteger = true := by decide
  have hchecked : (assemble "half-difference" halfDifference).toOption.any (fun r =>
      (r.code.all fun instr => Register.all.all fun q =>
        !(instr.op.reads.contains q && q.isFloat)) &&
      (List.range r.code.size).all fun site => !(untyped r).clashesAt .empty site) = true := by
    decide +kernel
  obtain ⟨r, hr, hkeeps⟩ := fold_keeps_result "half-difference" hprogram
  rw [hr] at hchecked
  simp only [Except.toOption, Option.any_some, Bool.and_eq_true, List.all_eq_true, List.mem_range,
    Bool.not_eq_true'] at hchecked
  have henv := noFloats_of_all hchecked.1
  refine ⟨r, hr, henv, hchecked.2, fun consts σ => ?_⟩
  obtain ⟨s, τ, τ', hrun, hτ, hτ', hsame⟩ := hkeeps _ .standard .empty consts σ henv
  exact ⟨s, τ, τ', hrun, hτ, hτ', hsame hchecked.2⟩

/-- A sum that is added to its double. -/
def sumAndDouble : List Statement :=
  [.set ⟨8⟩ .add [.register ⟨4⟩, .int 1],
   .set ⟨9⟩ .mulSigned [.register ⟨8⟩, .int 2],
   .set .v0 .add [.register ⟨8⟩, .register ⟨9⟩]]

/-- The last instruction pops the double, which reads the sum, and then the sum itself; the
statement that is left reads the register before anything is assigned to it. -/
theorem sumAndDouble_loses_result :
    (∀ statement ∈ sumAndDouble, statement.isInteger = true) ∧
      ∃ (r : Routine) (s : FoldState) (τ τ' : Registers),
        assemble "sum-and-double" sumAndDouble = .ok r ∧
        ((List.range r.code.size).forM (untyped r).pushInstruction).run (.start .empty) =
          (.ok (), s) ∧
        r.execute (fun _ => 0) (fun _ => 0) = some τ ∧
        (s.stack.rewrite s.pool).2.execute (fun _ => 0) (fun _ => 0) (s.stack.rewrite s.pool).1 =
          some τ' ∧
        τ r.resultRegister = 3 ∧ τ' r.resultRegister = 1 := by
  have hchecked : (foldsTo "sum-and-double" sumAndDouble fun r s =>
      (r.execute (fun _ => 0) (fun _ => 0)).map (fun τ => τ r.resultRegister) == some 3 &&
        ((s.stack.rewrite s.pool).2.execute (fun _ => 0) (fun _ => 0)
          (s.stack.rewrite s.pool).1).map (fun τ => τ r.resultRegister) == some 1) = true := by
    decide +kernel
  obtain ⟨r, s, hr, hrun, hcheck⟩ := foldsTo_eq_true hchecked
  simp only [Bool.and_eq_true, beq_iff_eq, Option.map_eq_some_iff] at hcheck
  obtain ⟨⟨τ, hτ, hcode⟩, τ', hτ', hfolded⟩ := hcheck
  exact ⟨by decide, r, s, τ, τ', hr, hrun, hτ, hτ', hcode, hfolded⟩

end Context

end Decompiler
