import Decompiler.Fold.Push
import Decompiler.Structure.Region

/-!
Folding of blocks, and stacks and modes that hold for a part of a routine only.
-/

namespace Decompiler

namespace TryFoldM

/-- An outcome that is already known. -/
def ofExcept (result : Except Error α) : TryFoldM α := ExceptT.mk (pure result)

/-- Runs a step on an empty stack of its own. -/
def onFreshStack (step : TryFoldM α) : TryFoldM α := ExceptT.mk fun s =>
  let (result, s') := step.run { s with stack := .empty }
  (result, { s' with stack := s.stack })

/-- Runs a step in verbatim mode. -/
def inVerbatim (step : TryFoldM α) : TryFoldM α := ExceptT.mk fun s =>
  let (result, s') := step.run { s with verbatim := true }
  (result, { s' with verbatim := s.verbatim })

end TryFoldM

namespace Context

def pushSites (cx : Context) (sites : List Nat) : TryFoldM Unit := sites.forM cx.pushInstruction

def pushDelay (cx : Context) (site : Nat) (branch : Branch) : TryFoldM Unit :=
  match branch.delaySlot? with
  | some op => cx.pushOperation site op
  | none => pure ()

/-- Pushes a block up to the branch that ends it, and returns the branch. -/
def pushBlockBody (cx : Context) (id : BlockId) : TryFoldM (Option (Nat × Branch)) := do
  let block ← TryFoldM.ofExcept (cx.routine.block id)
  let terminator ← TryFoldM.ofExcept (cx.routine.terminator id)
  let stop := (terminator.map Prod.fst).getD block.stop
  cx.pushSites (List.range' block.start (stop - block.start))
  return terminator

/-- Pushes a block outside of any control structure.  A jump to the next block is
dropped. -/
def pushBlock (cx : Context) (id : BlockId) : TryFoldM Unit := do
  match ← cx.pushBlockBody id with
  | none => pure ()
  | some (site, branch) =>
    if branch.isJump && branch.target == id + 1 then cx.pushDelay site branch
    else cx.pushInstruction site

/-- Builds the instructions of all blocks of a region as they are. -/
def buildVerbatim (cx : Context) (region : Region) : TryFoldM FormId :=
  TryFoldM.onFreshStack do
    TryFoldM.inVerbatim do
      region.blockIds.forM fun id => do
        let block ← TryFoldM.ofExcept (cx.routine.block id)
        cx.pushSites block.sites
    FoldM.takeForm

def noteControl (cx : Context) (site : Nat) (e : ElementId) : FoldM Unit := do
  cx.note .controlRecognized site (cx.vocabulary.elementText (← get).pool e)

def pushControl (cx : Context) (site : Nat) (element : Element) : FoldM Unit := do
  cx.noteControl site (← FoldM.pushNew element)

def pushControlValue (cx : Context) (site : Nat) (dst : Variable) (element : Element) :
    FoldM Unit := do
  let f ← FoldM.addSingle element
  match (← get).pool.single? f with
  | some e => cx.noteControl site e
  | none => pure ()
  FoldM.pushValue dst f {}

end Context

end Decompiler
