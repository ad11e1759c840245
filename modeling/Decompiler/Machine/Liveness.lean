import Decompiler.Machine.Routine

/-!
Register liveness.  A register is live at a point when some path from there reads
it before writing it, or leaves the routine and it holds the result.  The sets
for blocks are found by sweeping over the blocks until nothing changes; the sets
for instructions follow by walking each block backwards.
-/

namespace Decompiler

/-- The registers live where control enters and where it leaves each block. -/
structure Liveness where
  entering : Array RegisterSet
  leaving : Array RegisterSet
deriving DecidableEq, Inhabited

/-- What is known of an instruction: the registers it reads for the last time, and
those live after it. -/
structure SiteLiveness where
  consumed : RegisterSet
  after : RegisterSet
deriving DecidableEq, Inhabited

namespace Routine

/-- The instructions of a block, none if it reaches past the end of the code. -/
def blockCode (r : Routine) (b : Block) : List Instruction :=
  if b.stop ≤ r.code.size then (r.code.toList.take b.stop).drop b.start else []

/-- The registers that a run of instructions reads before writing them. -/
def exposedReads : List Instruction → RegisterSet
  | [] => ∅
  | i :: rest => i.op.reads ∪ (exposedReads rest \ i.op.writes)

def allWrites (code : List Instruction) : RegisterSet :=
  code.foldl (fun acc i => acc ∪ i.op.writes) ∅

/-- The registers live where control leaves a block, given those live where it
enters blocks. -/
def leavingSet (r : Routine) (entering : Array RegisterSet) (b : Block) : RegisterSet :=
  if b.successors.isEmpty then .single r.resultRegister
  else b.successors.foldl (fun acc s => acc ∪ entering.getD s ∅) ∅

/-- The registers live where control enters a block, given those live where it
leaves it. -/
def enteringSet (r : Routine) (b : Block) (leaving : RegisterSet) : RegisterSet :=
  exposedReads (r.blockCode b) ∪ (leaving \ allWrites (r.blockCode b))

def updateBlock (r : Routine) (s : Liveness) (position : Nat) : Liveness :=
  match r.blocks[position]? with
  | none => s
  | some b =>
    let leaving := r.leavingSet s.entering b
    { entering := s.entering.setIfInBounds position (r.enteringSet b leaving)
      leaving := s.leaving.setIfInBounds position leaving }

/-- Recomputes the sets of the blocks before a position, the last one first. -/
def sweepBelow (r : Routine) : Nat → Liveness → Liveness
  | 0, s => s
  | position + 1, s => r.sweepBelow position (r.updateBlock s position)

def sweep (r : Routine) (s : Liveness) : Liveness := r.sweepBelow r.blocks.size s

/-- Sweeps until nothing changes, at most `n` times. -/
def sweepUntilStable (r : Routine) : Nat → Liveness → Liveness
  | 0, s => s
  | n + 1, s =>
    let next := r.sweep s
    if next = s then s else r.sweepUntilStable n next

def noLiveness (r : Routine) : Liveness :=
  ⟨Array.replicate r.blocks.size ∅, Array.replicate r.blocks.size ∅⟩

/-- The least solution of the liveness equations.  A sweep that changes anything adds
a register to one of the sets, which bounds their number. -/
def liveness (r : Routine) : Liveness :=
  r.sweepUntilStable (2 * Register.count * r.blocks.size + 1) r.noLiveness

/-- Walks back over instruction positions, the last one first, and notes each one. -/
def walkBack (r : Routine) :
    List Nat → RegisterSet → Array SiteLiveness → Array SiteLiveness
  | [], _, sites => sites
  | i :: rest, live, sites =>
    match r.code[i]? with
    | none => r.walkBack rest live sites
    | some instruction =>
      let kept := live \ instruction.op.writes
      let reads := instruction.op.reads
      r.walkBack rest (kept ∪ reads) (sites.setIfInBounds i ⟨reads \ kept, live⟩)

def siteLiveness (r : Routine) : Array SiteLiveness :=
  let leaving := r.liveness.leaving
  r.blocks.toList.zipIdx.foldl
    (fun sites entry =>
      r.walkBack entry.1.sites.reverse (leaving.getD entry.2 ∅) sites)
    (Array.replicate r.code.size ⟨∅, ∅⟩)

/-- The registers that each instruction reads for the last time. -/
def computeConsumed (r : Routine) : Array RegisterSet := r.siteLiveness.map SiteLiveness.consumed

def liveAfter (r : Routine) : Array RegisterSet := r.siteLiveness.map SiteLiveness.after

/-- Stores the computed consumed sets. -/
def annotate (r : Routine) : Routine :=
  { r with code := (r.code.zip r.computeConsumed).map fun entry =>
      { entry.1 with consumed := entry.2 } }

end Routine

end Decompiler
