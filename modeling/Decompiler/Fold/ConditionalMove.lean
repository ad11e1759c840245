import Decompiler.Fold.Operand

/-!
Conditional moves.  Together with a comparison they make a truth value, a minimum or
a maximum.  What is taken off the stack to find that out is given back when it does not fit.
-/

namespace Decompiler

/-- The comparison and the operands of a value that says whether one operand is less. -/
def Pool.lessThan? (p : Pool) (f : FormId) : Option (Test × FormId × FormId) :=
  match (p.single? f).map p.element with
  | some (.apply (.builtin .setLess) [a, b]) => some (.lessSigned, a, b)
  | some (.apply (.builtin .setLessUnsigned) [a, b]) => some (.lessUnsigned, a, b)
  | _ => none

def Pool.registerOf? (p : Pool) (f : FormId) : Option Register :=
  ((p.single? f).map p.element).bind fun element => element.atom?.bind Atom.register?

def Pool.isTruth (p : Pool) (f : FormId) : Bool :=
  (((p.single? f).map p.element).bind Element.atom?).any Atom.isTrue

/-- Whether two forms are two registers in the other order, if they are these registers. -/
def Pool.swapped? (p : Pool) (a b : FormId) (dst source : Register) : Option Bool := do
  let left ← p.registerOf? a
  let right ← p.registerOf? b
  if left = dst ∧ right = source then return false
  else if left = source ∧ right = dst then return true
  else none

namespace Context

/-- Makes a form of a recognized move.  The move must be the last to read its test. -/
def foldMove (cx : Context) (site : Nat) (test : Register) (text : String) (element : Element) :
    TryFoldM (Option FormId) := do
  if !(← cx.consumedNow site).contains test then
    throw (.foldInvariant site (text ++ test.name ++ " but does not consume it"))
  let f ← FoldM.addSingle element
  cx.noteForm .idiomRecognized site f
  return some f

/-- A conditional move of the false symbol over the true one is the comparison itself, or
its negation. -/
def foldTruthMove (cx : Context) (site : Nat) (dst test : Register) (onZero : Bool) :
    TryFoldM (Option FormId) := do
  let saved := (← get).stack.checkpoint
  let top ← FoldM.popTop dst
  if !top.any (← get).pool.isTruth then
    FoldM.restore saved
    return none
  let compare ← FoldM.popRegister test (.single dst) true
  let some (t, a, b) := compare.bind (← get).pool.lessThan? | do
    FoldM.restore saved
    return none
  cx.foldMove site test "boolean conditional move folds " (.condition t [a, b] ∅ (!onZero) site)

/-- A conditional move between two compared registers is their minimum or maximum. -/
def foldMinMax (cx : Context) (site : Nat) (dst source test : Register) (onZero : Bool) :
    TryFoldM (Option FormId) := do
  let saved := (← get).stack.checkpoint
  let compare ← FoldM.popRegister test ∅ true
  let some (_, a, b) := compare.bind (← get).pool.lessThan? | do
    FoldM.restore saved
    return none
  let some swapped := (← get).pool.swapped? a b dst source | do
    FoldM.restore saved
    return none
  cx.foldMove site test "min/max conditional move folds "
    (.apply (.builtin (if onZero != swapped then .min else .max))
      (if swapped then [b, a] else [a, b]))

def pushLiteral (cx : Context) (site : Nat) (op : Operation) : FoldM Unit := do
  let _ ← FoldM.pushNew (.operation site op.writes)
  cx.note .literalOperation site op.text

def pushFalseMove (cx : Context) (site : Nat) (dst test : Variable) (onZero : Bool) :
    TryFoldM Unit := do
  let value ←
    if cx.config.allows .booleanMove then
      cx.foldTruthMove site dst.register test.register onZero
    else pure none
  match value with
  | some f => FoldM.pushValue dst f (cx.setNotes site dst none)
  | none =>
    let _ ← FoldM.pushNew (.moveFalse dst test onZero site)
    cx.note .warning site
      ("conditional move of #f into " ++ dst.register.name ++ " left unpaired")

def pushValueMove (cx : Context) (site : Nat) (dst : Variable) (source : Atom)
    (test : Variable) (onZero : Bool) : TryFoldM Unit := do
  let value ←
    match source.register? with
    | some r =>
      if cx.config.allows .minMax then
        cx.foldMinMax site dst.register r test.register onZero
      else pure none
    | none => pure none
  match value with
  | some f => FoldM.pushValue dst f (cx.setNotes site dst none)
  | none => cx.pushLiteral site (.conditionalMove dst source test onZero)

def pushMove (cx : Context) (site : Nat) (dst : Variable) (source : Atom) (test : Variable)
    (onZero : Bool) : TryFoldM Unit :=
  if source.isFalse then cx.pushFalseMove site dst test onZero
  else cx.pushValueMove site dst source test onZero

end Context

end Decompiler
