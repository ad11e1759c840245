import Decompiler.Fold.Condition
import Decompiler.Fold.ConditionalMove
import Decompiler.Fold.Expression
import Decompiler.Fold.Memory

/-!
Folding of operations, one at a time and in program order.  An operation takes the
pending values it can and pushes its own result.
-/

namespace Decompiler

namespace Context

/-- Pushes an operation as an element of its own, without looking at the stack. -/
def pushVerbatim (site : Nat) (op : Operation) : FoldM Unit := do
  match op with
  | .set dst source =>
    let value ← FoldM.addSingle (.expression source site)
    let _ ← FoldM.pushNew (.set dst value true {})
  | .call _ _ _ => let _ ← FoldM.pushNew (.call site op.writes)
  | .store _ _ _ _ _ => let _ ← FoldM.pushNew (.store site)
  | .branch _ => let _ ← FoldM.pushNew (.branch site op.writes)
  | _ => let _ ← FoldM.pushNew (.operation site op.writes)

def pushDivide (cx : Context) (site : Nat) (a b : Atom) (signed : Bool) : FoldM Unit := do
  let args ← cx.operands site [a, b] true
  let e ← FoldM.addElement (.divide (args.getD 0 default) (args.getD 1 default) signed site)
  FoldM.onStack fun stack =>
    if cx.config.allows .division then stack.pushDivision e else stack.pushStatement e true

def pushFloatCompare (cx : Context) (site : Nat) (test : Test) (a b : Atom) : FoldM Unit := do
  if cx.config.allows .floatCompare then
    let f ← cx.buildCondition site test [a, b] false true
    FoldM.onStack fun stack => stack.pushValue (.write .fcc site) f false {}
  else cx.pushLiteral site (.floatCompare test a b)

/-- Pushes an operation, folding what it reads. -/
def pushFolded (cx : Context) (site : Nat) (op : Operation) : TryFoldM Unit := do
  match op with
  | .set dst source =>
    let value ← cx.foldExpression site source
    FoldM.pushValue dst value (cx.setNotes site dst (some source))
  | .setCondition dst condition =>
    let value ← cx.buildCondition site condition.test condition.args false true
    FoldM.pushValue dst value (cx.setNotes site dst none)
  | .load dst base offset size kind =>
    let value ← cx.foldLoad site base offset size kind
    FoldM.pushValue dst value (cx.setNotes site dst none)
  | .store base offset value size kind => cx.pushStore site base offset value size kind
  | .divide a b signed => cx.pushDivide site a b signed
  | .floatCompare test a b => cx.pushFloatCompare site test a b
  | .call callee args result => cx.pushCall site callee args result
  | .conditionalMove dst source test onZero => cx.pushMove site dst source test onZero
  | .branch _ =>
    let _ ← FoldM.pushNew (.branch site op.writes)
    cx.note .literalOperation site op.text
  | .special _ => cx.pushLiteral site op
  | .asm _ _ _ => cx.pushLiteral site op

/-- Pushes an operation on behalf of an instruction. -/
def pushOperation (cx : Context) (site : Nat) (op : Operation) : TryFoldM Unit := do
  if op.isNop then
    return
  if (← get).verbatim then pushVerbatim site op
  else cx.pushFolded site op

def pushInstruction (cx : Context) (site : Nat) : TryFoldM Unit := do
  match cx.routine.instruction site with
  | .ok instruction => cx.pushOperation site instruction.op
  | .error e => throw e

end Context

end Decompiler
