import Decompiler.Fold.Cast
import Decompiler.Fold.Operand

/-!
Conditions of branches and comparisons.
-/

namespace Decompiler

namespace Context

/-- Pops the comparison that set the float flag and turns it into the condition itself.
Anything else that sets the flag is given back. -/
def popFloatFlag (cx : Context) (site : Nat) (test : Test) (flipped effects : Bool) :
    FoldM (Option FormId) := do
  let saved := (← get).stack.checkpoint
  let some f ← FoldM.popRegister .fcc ∅ effects | return none
  match ← FoldM.single? f with
  | some (e, .condition t args consumed wasFlipped at') =>
    let flip := (test == .flagClear) ^^ flipped
    FoldM.changePool fun p => p.replace e (.condition t args consumed (wasFlipped ^^ flip) at')
    cx.noteForm .expressionFolded site f
    return some f
  | _ =>
    FoldM.restore saved
    return none

/-- The registers that a condition still reads for the last time: those of operands that
were not popped. -/
def openRegisters (consumed : RegisterSet) (args : List Atom) (popped : List (FormId × Bool)) :
    RegisterSet :=
  (args.zip popped).foldl
    (fun acc entry =>
      match entry.1.register? with
      | some r => if entry.2.2 then acc.erase r else acc
      | none => acc)
    (consumed ∩ Atom.registersOf args)

def plainCondition (cx : Context) (site : Nat) (test : Test) (args : List Atom)
    (flipped effects : Bool) : FoldM FormId := do
  let popped ← cx.operandsMarked site args effects
  let consumed := openRegisters (← cx.consumedNow site) args popped
  let forms := popped.map Prod.fst
  let forms ← if test.isFloat then pure forms else cx.matchOperands site forms
  FoldM.addSingle (.condition test forms consumed flipped site)

/-- Builds a condition.  A test of the float flag takes over the pending comparison. -/
def buildCondition (cx : Context) (site : Nat) (test : Test) (args : List Atom)
    (flipped effects : Bool) : FoldM FormId := do
  if test.readsFlag && cx.config.allows .floatCompare then
    match ← cx.popFloatFlag site test flipped effects with
    | some f => return f
    | none => cx.plainCondition site test args flipped effects
  else cx.plainCondition site test args flipped effects

end Context

end Decompiler
