import Decompiler.Machine.Liveness

/-!
Assembly of routines from statements.  Every operation statement adds one
instruction, labels start blocks and branch statements end them, and the routine
ends with an empty block, the epilogue.
-/

namespace Decompiler

/-- An operand as it is written in a statement. -/
inductive Operand
  | register (r : Register)
  | int (w : Word)
  | float (x : Binary32)
  | symbol (name : String)
  | global (name : String)
  | label (name : String)
  | nil
deriving DecidableEq, Inhabited, Repr

/-- The atom of an operand at an instruction; the zero register is the constant zero. -/
def Operand.atom (site : Nat) : Operand → Atom
  | register r => if r = .zero then .int 0 else .var (.read r site)
  | int w => .int w
  | float x => .float x
  | symbol s => .symbol s
  | global s => .global s
  | label s => .label s
  | nil => .nil

/-- An assignment in the delay slot of a branch. -/
structure Delay where
  dst : Register
  operator : Operator
  args : List Operand
deriving DecidableEq, Inhabited, Repr

def Delay.operation (site : Nat) (d : Delay) : Operation :=
  .set (.write d.dst site) ⟨d.operator, d.args.map (Operand.atom site)⟩

/-- A line of assembly. -/
inductive Statement
  /-- Names the register that holds the result of the routine and of later calls. -/
  | resultIn (r : Register)
  /-- Names the block that starts here. -/
  | label (name : String)
  | set (dst : Register) (operator : Operator) (args : List Operand)
  | setCondition (dst : Register) (test : Test) (args : List Operand)
  | load (dst : Register) (base : Operand) (offset : Word) (size : Nat) (kind : LoadKind)
  | store (base : Operand) (offset : Word) (value : Operand) (size : Nat) (kind : StoreKind)
  | divide (a b : Register) (signed : Bool)
  | floatCompare (test : Test) (a b : Register)
  | call (callee : Register) (args : List Register)
  | conditionalMove (dst : Register) (source : Operand) (test : Register) (onZero : Bool)
  | special (kind : SpecialKind)
  | asm (mnemonic : String) (dst : Option Register) (sources : List Operand)
  /-- Leads to the block with a given label. -/
  | branch (test : Test) (args : List Operand) (target : String) (likely : Bool)
      (delay : Option Delay)
  /-- An operation that is taken as it is; a branch among these ends no block. -/
  | operation (op : Operation)
deriving Inhabited

/-- The label of the last block. -/
def epilogueLabel : String := "epilogue"

namespace Statement

def move (dst : Register) (source : Operand) : Statement := set dst .identity [source]

def jump (target : String) (delay : Option Delay) : Statement :=
  branch .always [] target false delay

def leave : Statement := jump epilogueLabel none

end Statement

/-- An operation before its label is resolved. -/
inductive DraftOperation
  | ready (op : Operation)
  | branch (condition : Condition) (likely : Bool) (target : String) (delay : Option Operation)
deriving Inhabited

def DraftOperation.isBranch : DraftOperation → Bool
  | branch _ _ _ _ => true
  | ready _ => false

/-- What has been assembled so far. -/
structure Draft where
  ops : Array DraftOperation
  labels : Array (String × Nat)
  resultRegister : Register
deriving Inhabited

namespace Draft

def empty : Draft := ⟨#[], #[], .v0⟩

def push (d : Draft) (op : Operation) : Draft := { d with ops := d.ops.push (.ready op) }

def add (d : Draft) (statement : Statement) : Draft :=
  let site := d.ops.size
  let atoms := fun (args : List Operand) => args.map (Operand.atom site)
  match statement with
  | .resultIn r => { d with resultRegister := r }
  | .label name => { d with labels := d.labels.push (name, site) }
  | .set dst operator args => d.push (.set (.write dst site) ⟨operator, atoms args⟩)
  | .setCondition dst test args =>
    d.push (.setCondition (.write dst site) ⟨test, atoms args⟩)
  | .load dst base offset size kind =>
    d.push (.load (.write dst site) (base.atom site) offset size kind)
  | .store base offset value size kind =>
    d.push (.store (base.atom site) offset (value.atom site) size kind)
  | .divide a b signed =>
    d.push (.divide ((Operand.register a).atom site) ((Operand.register b).atom site) signed)
  | .floatCompare test a b =>
    d.push (.floatCompare test ((Operand.register a).atom site)
      ((Operand.register b).atom site))
  | .call callee args =>
    d.push (.call (.read callee site) (args.map fun r => .read r site)
      (some (.write d.resultRegister site)))
  | .conditionalMove dst source test onZero =>
    d.push (.conditionalMove (.write dst site) (source.atom site) (.read test site) onZero)
  | .special kind => d.push (.special kind)
  | .asm mnemonic dst sources =>
    d.push (.asm mnemonic (dst.map fun r => .write r site) (atoms sources))
  | .branch test args target likely delay =>
    let delaySlot := delay.map (Delay.operation site)
    { d with ops := d.ops.push (.branch ⟨test, atoms args⟩ likely target delaySlot) }
  | .operation op => d.push op

/-- Whether a block starts at a position: at the first instruction, at a label, and
behind a branch. -/
def startsBlock (d : Draft) (i : Nat) : Bool :=
  i == 0 || d.labels.any (fun l => l.2 == i) ||
    (d.ops[i - 1]?.map DraftOperation.isBranch).getD false

/-- The positions where blocks with instructions start. -/
def starts (d : Draft) : List Nat := (List.range d.ops.size).filter d.startsBlock

/-- The first and the last position of each block, the epilogue last. -/
def ranges (d : Draft) : List (Nat × Nat) :=
  d.starts.zip (d.starts.drop 1 ++ [d.ops.size]) ++ [(d.ops.size, d.ops.size)]

/-- The position of the epilogue among the blocks. -/
def epilogue (d : Draft) : BlockId := d.starts.length

/-- The block at an instruction; labels behind the last instruction name the epilogue. -/
def blockAt? (d : Draft) (i : Nat) : Option BlockId :=
  if i = d.ops.size then some d.epilogue else d.starts.findIdx? (· == i)

end Draft

def assemblyError (name reason : String) : Error := .malformedInput (name ++ ": " ++ reason)

/-- Adds one label, whose name must be new. -/
def Draft.addLabel (d : Draft) (name : String) (labels : Labels) (label : String × Nat) :
    Except Error Labels :=
  match d.blockAt? label.2 with
  | none => .error (assemblyError name ("label " ++ label.1 ++ " has no block"))
  | some block =>
    if (labels.lookup label.1).isSome then
      .error (assemblyError name ("label " ++ label.1 ++ " defined twice"))
    else .ok (Labels.insert label.1 block labels)

/-- The blocks of all labels.  The epilogue has a label of its own unless a statement
defines that name. -/
def Draft.resolveLabels (d : Draft) (name : String) : Except Error Labels := do
  let labels ← d.labels.toList.foldlM (d.addLabel name) []
  return if (labels.lookup epilogueLabel).isSome then labels
    else Labels.insert epilogueLabel d.epilogue labels

/-- Replaces the label of a branch by its block. -/
def DraftOperation.resolve (name : String) (labels : Labels) :
    DraftOperation → Except Error Instruction
  | ready op => .ok ⟨op, ∅⟩
  | branch condition likely target delay =>
    match labels.lookup target with
    | some block => .ok ⟨.branch ⟨condition, likely, block, delay⟩, ∅⟩
    | none => .error (assemblyError name ("unknown label " ++ target))

/-- The blocks that control may reach from a block: the target of a jump, the next
block and the target of a conditional branch, or the next block. -/
def successorsOf (blockCount : Nat) (id : BlockId) (last : Option Branch) : List BlockId :=
  let next := if id + 1 < blockCount then [id + 1] else []
  match last with
  | none => next
  | some branch =>
    if branch.isJump then [branch.target]
    else if next.contains branch.target then next
    else next ++ [branch.target]

/-- The blocks of a draft with their successors. -/
def Draft.layout (d : Draft) (code : Array Instruction) : Array Block :=
  let ranges := d.ranges
  (ranges.zipIdx.map fun entry =>
    let ((start, stop), id) := entry
    let last := if start < stop then
        code[stop - 1]?.bind fun instruction => instruction.op.branch?
      else none
    { id, start, stop, successors := successorsOf ranges.length id last : Block }).toArray

/-- Turns a draft into a routine, with the consumed sets filled in. -/
def Draft.finish (d : Draft) (name : String) : Except Error Routine := do
  let labels ← d.resolveLabels name
  let code ← d.ops.mapM (DraftOperation.resolve name labels)
  let routine : Routine :=
    { name, code, blocks := d.layout code, labels, epilogue := some d.epilogue,
      resultRegister := d.resultRegister }
  routine.validate
  return routine.annotate

def assemble (name : String) (program : List Statement) : Except Error Routine :=
  (program.foldl Draft.add Draft.empty).finish name

end Decompiler
