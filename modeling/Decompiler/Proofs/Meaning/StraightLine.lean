import Decompiler.Proofs.Liveness.Executions
import Decompiler.Proofs.Machine.Assembling
import Decompiler.Proofs.Meaning.Integers

/-!
Straight-line integer code.  It can always be assembled, and what is live in it can be computed
from its end.
-/

namespace Decompiler

open List RegisterSet

variable {r : Routine} {ops : List Operation} {d : Draft} {op : Operation}

def Operand.isInteger : Operand → Bool
  | .register r => r.isPlain
  | .float _ | .label _ => false
  | .int _ | .symbol _ | .global _ | .nil => true

/-- Assignments of integers to registers, and the choice of the result register. -/
def Statement.isInteger : Statement → Bool
  | .resultIn _ => true
  | .set dst operator args =>
    dst.isPlain && operator.isInteger && args.length == operator.arity &&
      args.all Operand.isInteger
  | _ => false

def Operation.isInteger : Operation → Bool
  | .set _ source => source.isInteger
  | _ => false

theorem Operand.isInteger_atom {operand : Operand} (h : operand.isInteger = true) (site : Nat) :
    (operand.atom site).isInteger = true := by
  cases operand with
  | register r =>
    have hplain : r.isPlain = true := h
    have hzero : r ≠ .zero := by
      rintro rfl
      cases hplain
    rw [atom, if_neg hzero]
    exact hplain
  | float | label => cases h
  | _ => rfl

theorem Operation.isInteger_eq_set {op : Operation} (h : op.isInteger = true) :
    ∃ dst source, op = .set dst source ∧ source.isInteger = true := by
  cases op with
  | set dst source => exact ⟨dst, source, rfl, h⟩
  | _ => cases h

namespace Operation

variable {step : Registers → Operation → Option Registers}

/-- Operations that can be run can be run one after the other. -/
theorem exists_foldlM (h : ∀ op ∈ ops, ∀ ρ, ∃ τ, step ρ op = some τ) (σ : Registers) :
    ∃ τ, ops.foldlM step σ = some τ := by
  induction ops generalizing σ with
  | nil => exact ⟨σ, rfl⟩
  | cons op ops ih =>
    obtain ⟨ρ, hρ⟩ := h op mem_cons_self σ
    rw [foldlM_cons, hρ]
    exact ih (fun op hop => h op (mem_cons_of_mem _ hop)) ρ

theorem foldlM_take_succ {σ τ : Registers} {k : Nat} (hop : ops[k]? = some op)
    (h : (ops.take (k + 1)).foldlM step σ = some τ) :
    ∃ ρ, (ops.take k).foldlM step σ = some ρ ∧ step ρ op = some τ := by
  rw [take_add_one, hop, foldlM_append] at h
  obtain ⟨ρ, hρ, hlast⟩ := Option.bind_eq_some_iff.1 h
  change (step ρ op >>= pure) = some τ at hlast
  rw [bind_pure] at hlast
  exact ⟨ρ, hρ, hlast⟩

end Operation

namespace Routine

theorem length_ops (hops : r.code.toList.map Instruction.op = ops) : ops.length = r.code.size := by
  rw [← hops, length_map, Array.length_toList]

variable {k : Nat} {s : Liveness}

theorem exists_getElem? (hops : r.code.toList.map Instruction.op = ops) (hk : k < ops.length) :
    ∃ instr, r.code[k]? = some instr ∧
      ops[k]? = some instr.op ∧ ops.drop k = instr.op :: ops.drop (k + 1) := by
  have hcode : k < r.code.size := length_ops hops ▸ hk
  subst hops
  have hop : (r.code.toList.map Instruction.op)[k]? = some r.code[k].op := by
    rw [getElem?_map, Array.getElem?_toList, Array.getElem?_eq_getElem hcode]
    rfl
  refine ⟨r.code[k], Array.getElem?_eq_getElem hcode, hop, ?_⟩
  rw [drop_eq_getElem_cons hk, getElem_map, Array.getElem_toList]

/-- Where an instruction that is no branch leads, the machine stands behind it. -/
theorem IsValid.liveAt_behind (hvalid : r.IsValid) (hchained : r.IsChained) {b : BlockId}
    {block : Block} {instr : Instruction} {q : Register} (hblock : r.blocks[b]? = some block)
    (hsite : k ∈ block.sites) (hcode : r.code[k]? = some instr)
    (hbranch : instr.op.branch? = none)
    (h : ∀ x, r.StandsAt (k + 1) x → r.LiveAt q x) : r.LiveAt q ⟨b, k + 1⟩ := by
  obtain ⟨reads, writes, hacts⟩ := Operation.exists_acts hbranch false
  obtain ⟨x, hpath, hstands⟩ := (Executes.plain hcode hbranch hacts).path hvalid hchained hblock hsite
  obtain ⟨sites, y, hrest, hkeeps, huses⟩ := h x hstands
  exact ⟨_, y, hpath.trans hrest, hkeeps, huses⟩

/-- A routine that runs some operations one after the other, and where none of them consumes
what is live behind it, unless it writes that. -/
structure IsStraight (r : Routine) (ops : List Operation) : Prop where
  ops_eq : r.code.toList.map Instruction.op = ops
  dead : ∀ {i : Nat} {instr : Instruction} {q : Register}, r.code[i]? = some instr →
    q ∈ instr.consumed → q ∉ instr.op.writes →
      q ∉ liveBefore (.single r.resultRegister) (ops.drop (i + 1))

section

variable (hvalid : r.IsValid) (hchained : r.IsChained)
  (hops : r.code.toList.map Instruction.op = ops) (hbranch : ∀ op ∈ ops, op.branch? = none)
include hvalid hchained hops hbranch

/-- In code without branches, a register is live where the machine stands if the rest of the code
reads it before it writes it. -/
theorem liveAt_of_unbranched {x : Point} {q : Register} (hstands : r.StandsAt k x)
    (hq : q ∈ liveBefore (.single r.resultRegister) (ops.drop k)) : r.LiveAt q x := by
  have hlength := length_ops hops
  -- The end of the code is reached after finitely many instructions.
  induction hrest : ops.length - k generalizing k x with
  | zero =>
    rw [drop_eq_nil_of_le (Nat.sub_eq_zero_iff_le.1 hrest), liveBefore, mem_single] at hq
    have hend : k = r.code.size := by
      obtain ⟨-, block, hblock, hsite | ⟨-, hend, -⟩⟩ := hstands
      · have hlt := Nat.lt_of_lt_of_le (Block.mem_sites.1 hsite).2 (hvalid.bounds hblock).2
        omega
      · exact hend
    exact .of_uses (UsedNext.uses (.inr ⟨hend, hq⟩) hvalid hstands)
  | succ n ih =>
    obtain ⟨instr, hcode, hop, hdrop⟩ := exists_getElem? hops (k := k) (by omega)
    obtain ⟨b, site⟩ := x
    obtain ⟨hpoint, block, hblock, hsite | ⟨-, hend, -⟩⟩ := hstands
    · obtain rfl : site = k := hpoint
      rw [hdrop, liveBefore, mem_union, mem_diff] at hq
      rcases hq with ⟨hbehind, hkeep⟩ | hread
      · refine .pass hblock hsite hcode hkeep (hvalid.liveAt_behind hchained hblock hsite hcode
          (hbranch _ (mem_of_getElem? hop)) fun y hy => ih hy hbehind ?_)
        omega
      · exact .of_uses (.read hblock hsite hcode hread)
    · omega

theorem isStraight_annotate : r.annotate.IsStraight ops := by
  have hlength := length_ops hops
  constructor
  · rw [← hops]
    refine ext_getElem (by simp [size_annotate]) fun i hi hi' => ?_
    rw [length_map, Array.length_toList] at hi
    obtain ⟨base, hbase, hop, -⟩ := annotate_code (Array.getElem?_eq_getElem hi)
    obtain ⟨hlt, rfl⟩ := Array.getElem?_eq_some_iff.1 hbase
    rw [getElem_map, getElem_map]
    exact hop.symm
  · intro i instr q hcode hq hkeep hlive
    obtain ⟨base, hbase, hop, -⟩ := annotate_code hcode
    have hi := (Array.getElem?_eq_some_iff.1 hbase).1
    obtain ⟨b, block, hblock, hsite⟩ := hvalid.exists_block hi
    have hplain : base.op ∈ ops := hops ▸ mem_map_of_mem (Array.mem_def.1 (Array.mem_of_getElem? hbase))
    exact hvalid.not_liveAt_of_consumed hblock hsite hcode hq hkeep
      (hvalid.liveAt_behind hchained hblock hsite hbase (hbranch _ hplain) fun x hx =>
        liveAt_of_unbranched hvalid hchained hops hbranch hx hlive)

end

end Routine

namespace Draft

/-- A draft of some operations without labels. -/
def IsStraight (d : Draft) (ops : List Operation) : Prop :=
  d.ops = (ops.map DraftOperation.ready).toArray ∧ d.labels = #[]

theorem IsStraight.push {d' : Draft} (h : d.IsStraight ops) (hops : d'.ops = d.ops.push (.ready op))
    (hlabels : d'.labels = d.labels) : d'.IsStraight (ops ++ [op]) := by
  refine ⟨?_, hlabels.trans h.2⟩
  rw [map_append, map_singleton, ← push_toArray, ← h.1, hops]

theorem IsStraight.exists_push {P : Operation → Prop} (h : d.IsStraight ops)
    (hops : ∀ o ∈ ops, P o) (hop : P op) :
    ∃ ops', (d.push op).IsStraight ops' ∧ ∀ o ∈ ops', P o := by
  refine ⟨ops ++ [op], h.push rfl rfl, fun o ho => ?_⟩
  rcases mem_append.1 ho with ho | ho
  · exact hops o ho
  · rw [mem_singleton.1 ho]
    exact hop

theorem IsStraight.add {statement : Statement} (h : d.IsStraight ops)
    (hops : ∀ op ∈ ops, op.isInteger = true) (hstatement : statement.isInteger = true) :
    ∃ ops', (d.add statement).IsStraight ops' ∧ ∀ op ∈ ops', op.isInteger = true := by
  cases statement with
  | resultIn r => exact ⟨ops, h, hops⟩
  | set dst operator args =>
    let source : Expression := ⟨operator, args.map (Operand.atom d.ops.size)⟩
    have hsource : (Operation.set (.write dst d.ops.size) source).isInteger = true := by
      simp only [Statement.isInteger, Bool.and_eq_true, all_eq_true] at hstatement
      simp only [Operation.isInteger, Expression.isInteger, Bool.and_eq_true, all_eq_true, source]
      refine ⟨⟨hstatement.1.1.2, ?_⟩, ?_⟩
      · rw [length_map]
        exact hstatement.1.2
      · intro a ha
        obtain ⟨operand, hoperand, rfl⟩ := mem_map.1 ha
        exact Operand.isInteger_atom (hstatement.2 operand hoperand) _
    exact h.exists_push hops hsource
  | _ => cases hstatement

theorem IsStraight.exists_ready {program : List Statement} (h : (drafted program).IsStraight ops)
    {i : Nat} {op : DraftOperation} (hop : (drafted program).ops[i]? = some op) :
    ∃ ready ∈ ops, op = .ready ready := by
  rw [h.1, getElem?_toArray, getElem?_map] at hop
  obtain ⟨ready, hready, rfl⟩ := Option.map_eq_some_iff.1 hop
  exact ⟨ready, mem_of_getElem? hready, rfl⟩

/-- A program without labels and branches can be assembled. -/
theorem IsStraight.resolvable {program : List Statement} (h : (drafted program).IsStraight ops)
    (hops : ∀ op ∈ ops, op.branch? = none) : Resolvable program := by
  have hraw : ∀ {branch : Branch} {i : Nat},
      ¬ PlacedAt program (.operation (.branch branch)) i := by
    intro branch i hplaced
    obtain ⟨ready, hready, heq⟩ := h.exists_ready (placedAt_raw_iff.1 hplaced)
    cases heq
    cases hops _ hready
  constructor
  · rw [← map_labels_drafted, h.2]
    exact nodup_nil
  · intro test args target likely delay hmem
    obtain ⟨i, hplaced⟩ := exists_placedAt hmem
    obtain ⟨op, hop, rfl⟩ := hplaced.exists_op rfl
    obtain ⟨ready, -, heq⟩ := h.exists_ready hop
    cases heq
  · exact fun hplaced => absurd hplaced hraw
  · exact fun hplaced => absurd hplaced hraw

theorem IsStraight.assemble {program : List Statement} (h : (drafted program).IsStraight ops)
    (hops : ∀ op ∈ ops, op.branch? = none) (name : String) :
    ∃ r, assemble name program = .ok r ∧ r.IsStraight ops := by
  have hprogram := h.resolvable hops
  obtain ⟨labels, code, hresolves⟩ := exists_resolves hprogram name
  have hready : (ops.map DraftOperation.ready).mapM (DraftOperation.resolve name labels) =
      .ok (ops.map fun op => Instruction.mk op ∅) := by
    rw [mapM_map]
    exact mapM_pure
  have hcode := hresolves.code_eq
  rw [h.1, hready, Except.ok.injEq] at hcode
  refine ⟨_, hresolves.assemble_eq hprogram, Routine.isStraight_annotate
    (hresolves.isValid hprogram) hresolves.isChained ?_ hops⟩
  change code.toList.map Instruction.op = ops
  rw [← hcode, map_map]
  exact map_id' ops

end Draft

variable {program : List Statement}

/-- Statements that add no labels and no branches assemble to straight-line code. -/
theorem assemble_straight_of {P : Statement → Prop} {Q : Operation → Prop}
    (hadd : ∀ {d : Draft} {ops : List Operation} {statement : Statement}, d.IsStraight ops →
      (∀ op ∈ ops, Q op) → P statement →
      ∃ ops', (d.add statement).IsStraight ops' ∧ ∀ op ∈ ops', Q op)
    (hbranch : ∀ {op : Operation}, Q op → op.branch? = none) (name : String)
    (h : ∀ statement ∈ program, P statement) :
    ∃ r ops, assemble name program = .ok r ∧ r.IsStraight ops ∧ ∀ op ∈ ops, Q op := by
  have hdraft : ∀ d : Draft, (∃ ops, d.IsStraight ops ∧ ∀ op ∈ ops, Q op) →
      ∃ ops, (program.foldl Draft.add d).IsStraight ops ∧ ∀ op ∈ ops, Q op := by
    induction program with
    | nil => exact fun d hd => hd
    | cons statement program ih =>
      rintro d ⟨ops, hd, hops⟩
      exact ih (fun st hst => h st (mem_cons_of_mem _ hst)) _
        (hadd hd hops (h statement mem_cons_self))
  obtain ⟨ops, hstraight, hops⟩ := hdraft Draft.empty ⟨[], ⟨rfl, rfl⟩, by simp⟩
  obtain ⟨r, hr, hstraight⟩ := hstraight.assemble (fun op hop => hbranch (hops op hop)) name
  exact ⟨r, ops, hr, hstraight, hops⟩

/-- Integer statements assemble to straight-line code. -/
theorem assemble_straight (name : String) (h : ∀ statement ∈ program, statement.isInteger = true) :
    ∃ r ops, assemble name program = .ok r ∧ r.IsStraight ops ∧
      ∀ op ∈ ops, op.isInteger = true := by
  refine assemble_straight_of Draft.IsStraight.add (fun hop => ?_) name h
  obtain ⟨dst, source, rfl, -⟩ := Operation.isInteger_eq_set hop
  rfl

end Decompiler
