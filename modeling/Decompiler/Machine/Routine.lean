import Decompiler.Error

/-!
Routines: instructions, the basic blocks that partition them, and labels.
-/

namespace Decompiler

/-- An operation and the registers it reads for the last time. -/
structure Instruction where
  op : Operation
  consumed : RegisterSet
deriving Inhabited

/-- A run of instructions `start, …, stop - 1` and the blocks control may reach
next. -/
structure Block where
  id : BlockId
  start : Nat
  stop : Nat
  successors : List BlockId
deriving DecidableEq, Inhabited, Repr

namespace Block

def isEmpty (b : Block) : Bool := b.stop ≤ b.start

def size (b : Block) : Nat := b.stop - b.start

def sites (b : Block) : List Nat := List.range' b.start b.size

end Block

/-- Block labels, ascending by name. -/
abbrev Labels := List (String × BlockId)

namespace Labels

/-- Gives a name to a block; an earlier block of that name loses it. -/
def insert (name : String) (block : BlockId) : Labels → Labels
  | [] => [(name, block)]
  | entry :: rest =>
    if name = entry.1 then (name, block) :: rest
    else if name < entry.1 then (name, block) :: entry :: rest
    else entry :: insert name block rest

def ofList (entries : List (String × BlockId)) : Labels :=
  entries.foldl (fun labels e => Labels.insert e.1 e.2 labels) []

end Labels

structure Routine where
  name : String
  code : Array Instruction
  blocks : Array Block
  labels : Labels
  epilogue : Option BlockId
  resultRegister : Register
deriving Inhabited

namespace Routine

def empty (name : String) : Routine := ⟨name, #[], #[], [], none, .v0⟩

def block (r : Routine) (b : BlockId) : Except Error Block :=
  match r.blocks[b]? with
  | some block => .ok block
  | none => .error (.invalidHandle ("block " ++ blockName b ++ " in " ++ r.name))

def instruction (r : Routine) (i : Nat) : Except Error Instruction :=
  match r.code[i]? with
  | some instruction => .ok instruction
  | none => .error (.invalidHandle ("instruction " ++ toString i ++ " in " ++ r.name))

/-- The block a label names. -/
def label? (r : Routine) (name : String) : Option BlockId := r.labels.lookup name

/-- The first name of a block. -/
def labelOf? (r : Routine) (b : BlockId) : Option String :=
  (r.labels.find? fun entry => entry.2 = b).map Prod.fst

/-- The branch that ends a block, with its position. -/
def terminator (r : Routine) (b : BlockId) : Except Error (Option (Nat × Branch)) := do
  let block ← r.block b
  if block.isEmpty then
    return none
  let last := block.stop - 1
  let instruction ← r.instruction last
  return instruction.op.branch?.map fun branch => (last, branch)

def malformed (r : Routine) (reason : String) : Error :=
  .malformedInput (r.name ++ ": " ++ reason)

/-- Checks one instruction of a block: a branch must come last and lead to a block
of the routine. -/
def checkBranch (r : Routine) (block : Block) (i : Nat) : Except Error Unit :=
  match r.code[i]?.bind fun instruction => instruction.op.branch? with
  | none => .ok ()
  | some branch =>
    if i + 1 ≠ block.stop then
      .error (r.malformed ("branch at " ++ toString i ++ " is not the last instruction of " ++
        blockName block.id))
    else if r.blocks.size ≤ branch.target then
      .error (r.malformed ("branch at " ++ toString i ++ " targets unknown block " ++
        blockName branch.target))
    else .ok ()

/-- Checks the block at a position, given where the block before it stops, and
returns where this one stops. -/
def checkBlock (r : Routine) (start : Nat) (entry : Block × Nat) : Except Error Nat := do
  let (block, position) := entry
  if block.id ≠ position then
    throw (r.malformed ("block at position " ++ toString position ++ " has id " ++
      blockName block.id))
  if block.start ≠ start ∨ block.stop < block.start ∨ r.code.size < block.stop then
    throw (r.malformed ("block " ++ blockName block.id ++ " covers " ++ toString block.start ++
      ".." ++ toString block.stop ++ ", expected to start at " ++ toString start))
  match block.successors.find? fun successor => r.blocks.size ≤ successor with
  | some successor =>
    throw (r.malformed ("block " ++ blockName block.id ++ " has unknown successor " ++
      blockName successor))
  | none => pure ()
  block.sites.forM (r.checkBranch block)
  return block.stop

/-- Checks that the blocks partition the code in order, that branches stand only at
the ends of blocks, and that successors, targets and the epilogue exist. -/
def validate (r : Routine) : Except Error Unit := do
  let stop ← r.blocks.toList.zipIdx.foldlM r.checkBlock 0
  if stop ≠ r.code.size then
    throw (r.malformed ("blocks cover " ++ toString stop ++ " of " ++ toString r.code.size ++
      " instructions"))
  match r.epilogue with
  | some epilogue => if r.blocks.size ≤ epilogue then throw (r.malformed "missing epilogue")
  | none => pure ()

end Routine

end Decompiler
