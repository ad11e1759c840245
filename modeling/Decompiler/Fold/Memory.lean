import Decompiler.Fold.Cast
import Decompiler.Fold.Operand

/-!
Loads, stores and calls.
-/

namespace Decompiler

namespace Context

/-- The fields that lead from a typed base to an offset. -/
def fieldPath? (cx : Context) (base : FormId) (offset : Word) (size : Nat) :
    FoldM (Option (List PathStep)) := do
  if !cx.config.allows .fieldAccess then
    return none
  let access := (← cx.formType base).bind fun type => cx.env.fieldAccess type offset size
  return access.map fun access => access.path.map PathStep.field

/-- The place in memory at an offset from a base. -/
def memoryPlace (cx : Context) (site : Nat) (base : FormId) (offset : Word) (size : Nat)
    (kind : LoadKind) : FoldM FormId := do
  match ← cx.fieldPath? base offset size with
  | some steps =>
    let f ← FoldM.addSingle (.path base false steps)
    cx.noteForm .expressionFolded site f
    return f
  | none => FoldM.addSingle (.load base offset size kind site)

def foldLoad (cx : Context) (site : Nat) (base : Atom) (offset : Word) (size : Nat)
    (kind : LoadKind) : FoldM FormId := do
  cx.memoryPlace site (← cx.operand site base true) offset size kind

def storedAs : StoreKind → LoadKind
  | .integer => .signed
  | .float => .float

/-- Pushes a store.  A store to a constant address stays as it is. -/
def pushStore (cx : Context) (site : Nat) (base : Atom) (offset : Word) (value : Atom)
    (size : Nat) (kind : StoreKind) : FoldM Unit := do
  if base.var?.isNone then
    let _ ← FoldM.pushNew (.store site)
    cx.note .literalOperation site "store to a constant address"
  else
    let args ← cx.operands site [base, value] true
    let place ← cx.memoryPlace site (args.getD 0 default) offset size (storedAs kind)
    let _ ← FoldM.pushNew (.setPlace place (args.getD 1 default))

/-- Pushes a call, as a value if its result is read later and as a statement otherwise. -/
def pushCall (cx : Context) (site : Nat) (callee : Variable) (args : List Variable)
    (result : Option Variable) : FoldM Unit := do
  let forms ← cx.operands site (.var callee :: args.map Atom.var) true
  let call := Element.apply (.callee (forms.headD default)) forms.tail
  match result.filter fun dst => cx.isLiveAfter site dst.register with
  | some dst =>
    let value ← FoldM.addSingle call
    FoldM.onStack fun stack => stack.pushValue dst value true {}
  | none =>
    let _ ← FoldM.pushNew call

end Context

end Decompiler
