import Decompiler.Fold.State

/-!
Operands of an operation.  The value of a register that the operation reads for the
last time is popped off the stack if it can be; any other operand becomes a new form.
-/

namespace Decompiler

namespace Context

/-- Pops the value of one of several operands.  A register that occurs twice is not
popped, and the value may not write the register of another operand. -/
def popOperand (cx : Context) (site : Nat) (atoms : List Atom) (consumed : RegisterSet)
    (effects : Bool) (a : Atom) : FoldM (Option FormId) := do
  match a.register? with
  | none => return none
  | some r =>
    if !consumed.contains r || (atoms.filterMap Atom.register?).count r ≠ 1 then
      return none
    match ← FoldM.popRegister r ((Atom.registersOf atoms).erase r) effects with
    | none => return none
    | some f =>
      cx.note .expressionFolded site (r.name ++ " <- " ++ (← cx.describe f))
      return some f

/-- Pops what can be popped of several operands, the last one first. -/
def popOperands (cx : Context) (site : Nat) (atoms : List Atom) (consumed : RegisterSet)
    (effects : Bool) : FoldM (List (Option FormId)) := do
  if (← get).verbatim then
    return atoms.map fun _ => none
  let popped ← atoms.reverse.mapM (cx.popOperand site atoms consumed effects)
  return popped.reverse

/-- The form of an operand, and whether it was popped. -/
def operandForm (cx : Context) (entry : Atom × Option FormId) : FoldM (FormId × Bool) := do
  match entry.2 with
  | some f => return (f, true)
  | none => return (← cx.atomForm entry.1, false)

/-- One form for each operand, and whether it was popped. -/
def operandsConsuming (cx : Context) (site : Nat) (atoms : List Atom)
    (consumed : RegisterSet) (effects : Bool) : FoldM (List (FormId × Bool)) := do
  let popped ← cx.popOperands site atoms consumed effects
  (atoms.zip popped).mapM cx.operandForm

/-- The forms of the operands of an instruction, and whether they were popped. -/
def operandsMarked (cx : Context) (site : Nat) (atoms : List Atom) (effects : Bool) :
    FoldM (List (FormId × Bool)) := do
  cx.operandsConsuming site atoms (← cx.consumedNow site) effects

def operands (cx : Context) (site : Nat) (atoms : List Atom) (effects : Bool) :
    FoldM (List FormId) :=
  return (← cx.operandsMarked site atoms effects).map Prod.fst

def operand (cx : Context) (site : Nat) (a : Atom) (effects : Bool) : FoldM FormId :=
  return (← cx.operands site [a] effects).headD default

end Context

end Decompiler
