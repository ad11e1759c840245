import Decompiler.Proofs.Machine.Blocks
import Decompiler.Proofs.Meaning.Values

/-!
Machines that run routines.  What assignments and tests of integers do is fixed, and that a load
gives what memory holds; any other instruction may do what it likes, as long as it keeps the
registers that it does not write.  A block is run up to the branch that ends it, and the delay
slot of that branch on both ways out, or only on the taken one if the branch is likely.
-/

namespace Decompiler

variable {id : BlockId} {block : Block} {site : Nat} {branch : Branch}

/-- Whether a test holds of some words.  One word is false, and every other one is true. -/
def Test.decide (falsehood : Word) : Test → List Word → Option Bool
  | .always, _ => some true
  | .never, _ => some false
  | .equal, a :: b :: _ => some (a == b)
  | .notEqual, a :: b :: _ => some (!(a == b))
  | .lessSigned, a :: b :: _ => some (a.slt b)
  | .greaterEqualSigned, a :: b :: _ => some (!a.slt b)
  | .greaterSigned, a :: b :: _ => some (b.slt a)
  | .lessEqualSigned, a :: b :: _ => some (!b.slt a)
  | .lessUnsigned, a :: b :: _ => some (a.ult b)
  | .greaterEqualUnsigned, a :: b :: _ => some (!a.ult b)
  | .greaterUnsigned, a :: b :: _ => some (b.ult a)
  | .lessEqualUnsigned, a :: b :: _ => some (!b.ult a)
  | .zero, a :: _ => some (a == 0)
  | .nonZero, a :: _ => some (!(a == 0))
  | .falsy, a :: _ => some (a == falsehood)
  | .truthy, a :: _ => some (!(a == falsehood))
  | .lessZero, a :: _ => some (a.slt 0)
  | .greaterEqualZero, a :: _ => some (!a.slt 0)
  | .greaterZero, a :: _ => some ((0 : Word).slt a)
  | .lessEqualZero, a :: _ => some (!(0 : Word).slt a)
  | _, _ => none

/-- The negated test holds exactly when the test does not. -/
theorem Test.decide_negate (falsehood : Word) (t : Test) (ws : List Word) :
    t.negate.decide falsehood ws = (t.decide falsehood ws).map not := by
  cases t <;> rcases ws with _ | ⟨a, _ | ⟨b, ws⟩⟩ <;> simp [Test.negate, Test.decide]

theorem Test.decide_flippedBy {falsehood : Word} {t : Test} {ws : List Word} {b : Bool}
    (h : t.decide falsehood ws = some b) (flipped : Bool) :
    (t.flippedBy flipped).decide falsehood ws = some (b ^^ flipped) := by
  cases flipped with
  | false => rw [flippedBy, if_neg Bool.false_ne_true, h, Bool.xor_false]
  | true => rw [flippedBy, if_pos rfl, decide_negate, h, Bool.xor_true]; rfl

/-- Whether a condition on integers holds. -/
def Condition.truth (consts : Constants) (σ : Registers) (c : Condition) : Option Bool :=
  c.test.decide (consts .falsehood) (c.args.map (Atom.value consts σ))

namespace Routine

variable {r : Routine}

theorem lastBranch?_of_terminator (hblock : r.blocks[id]? = some block)
    (h : r.terminator id = .ok (some (site, branch))) :
    r.lastBranch? block = some branch ∧ block.start < block.stop ∧ site = block.stop - 1 := by
  obtain ⟨block', hblock', hlt, hsite, instr, hcode, hop⟩ := terminator_eq_some h
  cases hblock.symm.trans hblock'
  refine ⟨?_, hlt, hsite⟩
  rw [lastBranch?, if_pos hlt, ← hsite, hcode, Option.bind_some, hop]
  rfl

theorem lastBranch?_of_terminator_none (hblock : r.blocks[id]? = some block)
    (h : r.terminator id = .ok none) : r.lastBranch? block = none := by
  unfold terminator at h
  rw [block_eq_ok.2 hblock] at h
  change (if block.isEmpty then pure none else _) = _ at h
  unfold lastBranch?
  split
  · rename_i hlt
    have hnot : block.isEmpty = false := by
      rw [Block.isEmpty, decide_eq_false_iff_not]
      omega
    rw [hnot, if_neg Bool.false_ne_true] at h
    obtain ⟨instr, hinstr, h⟩ := bind_eq_ok.1 h
    have hnone := pure_eq_ok.1 h
    rw [Option.map_eq_none_iff] at hnone
    rw [instruction_eq_ok.1 hinstr, Option.bind_some, hnone]
  · rfl

end Routine

/-- A machine with states of a given type. -/
structure Processor (M : Type) where
  consts : Constants
  registers : M → Registers
  /-- What memory holds, read in a given width and way at an address. -/
  memory : M → Nat → LoadKind → Word → Word
  execute : Operation → M → M
  holds : Condition → M → Bool
  execute_keeps : ∀ {op : Operation} {m : M} {q : Register}, q ∉ op.writes →
    registers (execute op m) q = registers m q
  execute_set : ∀ {dst : Variable} {source : Expression} {m : M} {w : Word},
    source.value consts (registers m) = some w →
      registers (execute (.set dst source) m) dst.register = w
  memory_set : ∀ (dst : Variable) (source : Expression) (m : M),
    memory (execute (.set dst source) m) = memory m
  execute_load : ∀ (dst : Variable) (base : Atom) (offset : Word) (size : Nat) (kind : LoadKind)
    (m : M), registers (execute (.load dst base offset size kind) m) dst.register =
      memory m size kind (base.value consts (registers m) + offset)
  holds_eq : ∀ {c : Condition} {m : M} {b : Bool}, c.truth consts (registers m) = some b →
    holds c m = b

namespace Processor

variable {M : Type} (machine : Processor M) (r : Routine)

def executeAt (m : M) (site : Nat) : M :=
  match r.code[site]? with
  | some instr => machine.execute instr.op m
  | none => m

def executeSites (sites : List Nat) (m : M) : M := sites.foldl (machine.executeAt r) m

/-- The state in which control reaches a position of a block. -/
def reached (block : Block) (site : Nat) (m : M) : M :=
  machine.executeSites r (List.range' block.start (site - block.start)) m

def executeDelay (branch : Branch) (m : M) : M :=
  match branch.delaySlot? with
  | some op => machine.execute op m
  | none => m

/-- Goes on behind a branch: to its target when the condition holds, else to the next block. -/
def follow (id : BlockId) (branch : Branch) (m : M) : BlockId × M :=
  if machine.holds branch.condition m then (branch.target, machine.executeDelay branch m)
  else (id + 1, if branch.likely then m else machine.executeDelay branch m)

def executeBlock (id : BlockId) (block : Block) (m : M) : BlockId × M :=
  match r.lastBranch? block with
  | some branch => machine.follow id branch (machine.reached r block (block.stop - 1) m)
  | none => (id + 1, machine.reached r block block.stop m)

/-- Running blocks one after another, control comes from one block to another one for the first
time. -/
inductive RunsTo (finish : BlockId) : BlockId → M → M → Prop
  | arrived (m : M) : RunsTo finish finish m m
  | block {id next : BlockId} {block : Block} {m m' m'' : M} (hne : id ≠ finish)
      (hblock : r.blocks[id]? = some block)
      (hrun : machine.executeBlock r id block m = (next, m')) (hrest : RunsTo finish next m' m'') :
      RunsTo finish id m m''

variable {machine r} {finish : BlockId} {m m' : M}

theorem executeSites_cons (site : Nat) (sites : List Nat) (m : M) :
    machine.executeSites r (site :: sites) m =
      machine.executeSites r sites (machine.executeAt r m site) := rfl

theorem executeSites_append (sites sites' : List Nat) (m : M) :
    machine.executeSites r (sites ++ sites') m =
      machine.executeSites r sites' (machine.executeSites r sites m) := List.foldl_append

variable {instr : Instruction} {q : Register}

theorem executeAt_eq (hcode : r.code[site]? = some instr) (m : M) :
    machine.executeAt r m site = machine.execute instr.op m := by
  rw [executeAt, hcode]

/-- A register that no instruction writes keeps its word. -/
theorem executeSites_keeps {sites : List Nat}
    (h : ∀ site ∈ sites, ∀ instr, r.code[site]? = some instr → q ∉ instr.op.writes) (m : M) :
    machine.registers (machine.executeSites r sites m) q = machine.registers m q := by
  induction sites generalizing m with
  | nil => rfl
  | cons site sites ih =>
    rw [executeSites_cons, ih fun site hsite => h site (List.mem_cons_of_mem _ hsite)]
    cases hcode : r.code[site]? with
    | none => rw [executeAt, hcode]
    | some instr =>
      rw [executeAt_eq hcode, machine.execute_keeps (h site List.mem_cons_self _ hcode)]

theorem executeDelay_keeps (h : ∀ op ∈ branch.delaySlot?, q ∉ op.writes) (m : M) :
    machine.registers (machine.executeDelay branch m) q = machine.registers m q := by
  rw [executeDelay]
  cases hslot : branch.delaySlot? with
  | none => rfl
  | some op => exact machine.execute_keeps (h op hslot)

/-- Unless a likely branch has a delay slot, it does not matter that it is likely. -/
theorem passed_eq (h : ∀ op, branch.delaySlot? = some op → branch.likely = false) (m : M) :
    (if branch.likely then m else machine.executeDelay branch m) =
      machine.executeDelay branch m := by
  cases hslot : branch.delaySlot? with
  | none =>
    rw [executeDelay, hslot]
    exact ite_self _
  | some op =>
    rw [h op hslot]
    rfl

theorem follow_snd (h : ∀ op, branch.delaySlot? = some op → branch.likely = false) (m : M) :
    (machine.follow id branch m).2 = machine.executeDelay branch m := by
  rw [follow]
  split
  · rfl
  · exact passed_eq h m

/-- An assignment changes one register. -/
theorem registers_set {dst : Variable} {source : Expression} {w : Word}
    (hw : source.value machine.consts (machine.registers m) = some w) :
    machine.registers (machine.execute (.set dst source) m) =
      Function.update (machine.registers m) dst.register w := by
  funext q
  by_cases hq : q = dst.register
  · rw [hq, Function.update_self, machine.execute_set hw]
  · rw [Function.update_of_ne hq]
    exact machine.execute_keeps fun hmem => hq (RegisterSet.mem_single.1 hmem)

theorem reached_start (block : Block) (m : M) : machine.reached r block block.start m = m := by
  rw [reached, Nat.sub_self]
  rfl

theorem reached_succ (hstart : block.start ≤ site) (hcode : r.code[site]? = some instr) :
    machine.reached r block (site + 1) m =
      machine.execute instr.op (machine.reached r block site m) := by
  have hsites : List.range' block.start (site + 1 - block.start) =
      List.range' block.start (site - block.start) ++ [site] := by
    rw [Nat.succ_sub hstart, List.range'_1_concat, Nat.add_sub_cancel' hstart]
  rw [reached, hsites, executeSites_append, executeSites_cons, executeAt_eq hcode]
  rfl

namespace RunsTo

variable (hne : id ≠ finish) (hblock : r.blocks[id]? = some block)
include hne hblock

/-- A branch that is taken leads to its target. -/
theorem taken (hbranch : r.terminator id = .ok (some (site, branch)))
    (htarget : branch.target = finish)
    (hholds : machine.holds branch.condition (machine.reached r block site m) = true) :
    machine.RunsTo r finish id m
      (machine.executeDelay branch (machine.reached r block site m)) := by
  obtain ⟨hlast, -, rfl⟩ := Routine.lastBranch?_of_terminator hblock hbranch
  have hrun : machine.executeBlock r id block m = (finish,
      machine.executeDelay branch (machine.reached r block (block.stop - 1) m)) := by
    rw [executeBlock, hlast]
    dsimp only
    rw [follow, if_pos hholds, htarget]
  exact .block hne hblock hrun (.arrived _)

/-- A branch that is not taken leads to the next block. -/
theorem passed (hbranch : r.terminator id = .ok (some (site, branch)))
    (hholds : machine.holds branch.condition (machine.reached r block site m) = false)
    (hrest : machine.RunsTo r finish (id + 1)
      (if branch.likely then machine.reached r block site m
        else machine.executeDelay branch (machine.reached r block site m)) m') :
    machine.RunsTo r finish id m m' := by
  obtain ⟨hlast, -, rfl⟩ := Routine.lastBranch?_of_terminator hblock hbranch
  refine .block hne hblock ?_ hrest
  rw [executeBlock, hlast]
  dsimp only
  rw [follow, if_neg (by simp [hholds])]

/-- A block without a branch leads to the next one. -/
theorem next (hnone : r.terminator id = .ok none)
    (hrest : machine.RunsTo r finish (id + 1) (machine.reached r block block.stop m) m') :
    machine.RunsTo r finish id m m' := by
  refine .block hne hblock ?_ hrest
  rw [executeBlock, Routine.lastBranch?_of_terminator_none hblock hnone]

end RunsTo

end Processor

/-- The registers and the memory of a machine that does nothing but assignments and loads. -/
structure PlainState where
  registers : Registers
  memory : Nat → LoadKind → Word → Word

def PlainState.assign (m : PlainState) (dst : Variable) (w : Word) : PlainState :=
  { m with registers := Function.update m.registers dst.register w }

theorem PlainState.assign_of_not_mem {dst : Variable} {q : Register}
    (h : q ∉ RegisterSet.single dst.register) (m : PlainState) (w : Word) :
    (m.assign dst w).registers q = m.registers q := by
  refine Function.update_of_ne ?_ _ _
  rintro rfl
  exact h (RegisterSet.mem_single.2 rfl)

/-- A machine that does nothing but assignments and loads. -/
def plainMachine (consts : Constants) : Processor PlainState where
  consts := consts
  registers := PlainState.registers
  memory := PlainState.memory
  execute op m :=
    match op with
    | .set dst source =>
      match source.value consts m.registers with
      | some w => m.assign dst w
      | none => m
    | .load dst base offset size kind =>
      m.assign dst (m.memory size kind (base.value consts m.registers + offset))
    | _ => m
  holds c m := (c.truth consts m.registers).getD false
  execute_keeps {op m q} hq := by
    cases op with
    | set dst source =>
      dsimp only
      split
      · exact PlainState.assign_of_not_mem hq m _
      · rfl
    | load dst base offset size kind => exact PlainState.assign_of_not_mem hq m _
    | _ => rfl
  execute_set {dst source m w} hw := by
    dsimp only
    rw [hw]
    exact Function.update_self ..
  memory_set dst source m := by
    dsimp only
    split <;> rfl
  execute_load dst base offset size kind m := Function.update_self ..
  holds_eq {c m b} hb := by rw [hb]; rfl

end Decompiler
