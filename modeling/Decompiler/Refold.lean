import Decompiler.Reconstruction

/-!
Folding a finished tree once more.  Every assignment takes the values of the registers
that its operands read for the last time, by the rules that hold while a tree is built.
-/

namespace Decompiler

namespace Pool

def readOf? (p : Pool) (f : FormId) : Option Variable :=
  match (p.single? f).map p.element with
  | some (.atom (.var v)) => if v.isRead then some v else none
  | _ => none

/-- The operands of a value that are register reads: the value itself, or its child forms
unless it is a control structure or a condition. -/
def operandSlots (p : Pool) (source : FormId) : List (FormId × Variable) :=
  match p.readOf? source with
  | some v => [(source, v)]
  | none =>
    match (p.single? source).map p.element with
    | none => []
    | some (.condition _ _ _ _ _) => []
    | some element =>
      if element.isControl then []
      else element.children.filterMap fun child => (p.readOf? child).map fun v => (child, v)

end Pool

structure Refolding where
  pool : Pool
  stack : Stack
  changed : Bool
deriving Inhabited

namespace Routine

def isLastRead (r : Routine) (v : Variable) : Bool :=
  (r.code[v.site]?.map fun instruction => instruction.consumed.contains v.register).getD false

/-- Takes the pending value of one of several operands in its place. -/
def refoldOperand (r : Routine) (registers : List Register) (s : Refolding)
    (slot : FormId × Variable) : Refolding :=
  let register := slot.2.register
  if !r.isLastRead slot.2 || registers.count register ≠ 1 then s
  else
    let barrier := (RegisterSet.ofList registers).erase register
    match s.stack.popRegister s.pool register barrier true with
    | none => s
    | some (value, stack) =>
      { pool := s.pool.setElements slot.1 (s.pool.elementsOf value), stack, changed := true }

/-- Takes the pending values of the operands of a value, the last one first. -/
def refoldOperands (r : Routine) (s : Refolding) (source : FormId) : Refolding :=
  let slots := s.pool.operandSlots source
  slots.reverse.foldl (r.refoldOperand (slots.map fun slot => slot.2.register)) s

/-- Refolds one element of a form and pushes it. -/
def refoldElement (r : Routine) (s : Refolding) (e : ElementId) : Refolding :=
  match s.pool.element e with
  | .set _ source _ _ =>
    let s := r.refoldOperands s source
    { s with stack := s.stack.pushExisting s.pool e }
  | _ => { s with stack := s.stack.pushStatement e true }

/-- Refolds the elements of a form, but not the forms below it. -/
def refoldStatements (r : Routine) (p : Pool) (f : FormId) : Pool × Bool :=
  let elements := p.elementsOf f
  let s := elements.foldl r.refoldElement ⟨p, .empty, false⟩
  let (rewritten, pool) := s.stack.rewrite s.pool
  if rewritten = elements then (pool, s.changed) else (pool.setElements f rewritten, true)

/-- Refolds a form and the forms below it, down to a depth; of several child forms the last
one comes first. -/
def refoldWithin (r : Routine) : Nat → Pool × Bool → FormId → Pool × Bool
  | 0, s, _ => s
  | depth + 1, (p, changed), f =>
    let (p, changedHere) := r.refoldStatements p f
    (p.childForms f).reverse.foldl (r.refoldWithin depth) (p, changed || changedHere)

end Routine

/-- Folds a finished tree again, and says whether anything changed. -/
def Reconstruction.refold (t : Reconstruction) (r : Routine) : Reconstruction × Bool :=
  let (pool, changed) := r.refoldWithin t.pool.forms.size (t.pool, false) t.root
  ({ t with pool }, changed)

end Decompiler
