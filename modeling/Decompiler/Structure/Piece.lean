import Decompiler.Structure.Idiom

/-!
Regions as pieces: a region together with the ways in which it is folded into the
stack.  Control structures are built from the pieces of their parts.
-/

namespace Decompiler

/-- A region and how it is folded, at a given depth. -/
structure Piece where
  region : Region
  push : Nat → TryFoldM Unit
  /-- Pushes the region up to the branch that ends it, and returns the branch. -/
  pushBody : Nat → TryFoldM (Option (Nat × Branch))

namespace Context

/-- Pushes pieces one after another, after skipping some.  At each position idioms are
tried first. -/
def pushPieces (cx : Context) (depth : Nat) : Nat → List Piece → TryFoldM Unit
  | _, [] => pure ()
  | skip + 1, _ :: rest => cx.pushPieces depth skip rest
  | 0, piece :: rest => do
    match ← cx.tryIdioms (((piece :: rest).take 3).map Piece.region) with
    | used + 1 => cx.pushPieces depth used rest
    | 0 =>
      match piece.region with
      | .block id => cx.pushBlock id
      | _ => piece.push (depth + 1)
      cx.pushPieces depth 0 rest

def buildPieces (cx : Context) (pieces : List Piece) (depth : Nat) : TryFoldM FormId :=
  TryFoldM.onFreshStack do
    cx.pushPieces depth 0 pieces
    FoldM.takeForm

def buildPiece (piece : Piece) (depth : Nat) : TryFoldM FormId :=
  TryFoldM.onFreshStack do
    piece.push depth
    FoldM.takeForm

/-- Pushes a piece up to its branch, and then the delay slot of that branch. -/
def pushThroughDelay (cx : Context) (piece : Piece) (site : Nat) (branch : Branch)
    (depth : Nat) : TryFoldM Unit := do
  let _ ← piece.pushBody depth
  cx.pushDelay site branch

end Context

/-- A test that was taken out of a region. -/
structure CapturedTest where
  form : FormId
  site : Nat
  branch : Branch
  /-- Whether the region computes nothing but the condition. -/
  clean : Bool
deriving Inhabited

namespace Context

/-- Pushes the delay slot of a tested branch in front of the test.  It must run on both
outcomes and leave the tested registers alone. -/
def pushTestDelay (cx : Context) (region : Region) (site : Nat) (branch : Branch) :
    TryFoldM Unit := do
  match branch.delaySlot? with
  | none => pure ()
  | some op =>
    if branch.likely then
      throw (cx.routine.shapeError region (some site) "likely branch with a delay slot in a test")
    if op.writes.intersects branch.condition.operandRegisters then
      throw (cx.routine.shapeError region (some site) "delay slot overwrites the tested register")
    cx.pushOperation site op

/-- The condition of a captured branch.  A test of the register that holds the value of a
chain takes the pending value. -/
def capturedCondition (cx : Context) (site : Nat) (branch : Branch) (flipped : Bool)
    (result : Option Register) : FoldM FormId := do
  let test := branch.condition.test
  match branch.condition.args with
  | [.var v] =>
    if result = some v.register then
      let source ←
        match ← FoldM.popRegister v.register ∅ true with
        | some f => pure f
        | none => cx.atomForm (.var v)
      FoldM.addSingle (.condition test [source] ∅ flipped site)
    else cx.buildCondition site test [.var v] flipped true
  | args => cx.buildCondition site test args flipped true

/-- Builds the test of a branch.  What waits on the stack besides goes in front of the
condition. -/
def finishTest (cx : Context) (site : Nat) (branch : Branch) (flipped : Bool)
    (result : Option Register) : FoldM CapturedTest := do
  let form ← cx.capturedCondition site branch flipped result
  let statements ← FoldM.takeStatements
  FoldM.changePool fun p => p.setElements form (statements ++ p.elementsOf form)
  if !statements.isEmpty then
    cx.note .info site ("test at " ++ toString site ++ " captures " ++ (← cx.describe form))
  return { form, site, branch, clean := statements.isEmpty }

/-- Folds a region up to its conditional branch and builds the test. -/
def captureTest (cx : Context) (piece : Piece) (flipped emitDelay : Bool)
    (result : Option Register) (depth : Nat) : TryFoldM CapturedTest := do
  let (site, branch) ← TryFoldM.ofExcept (cx.routine.expectBranch piece.region true)
  TryFoldM.onFreshStack do
    let _ ← piece.pushBody (depth + 1)
    if emitDelay then
      cx.pushTestDelay piece.region site branch
    cx.finishTest site branch flipped result

end Context

namespace Pool

def trailingSet? (p : Pool) (f : FormId) : Option Variable :=
  (p.elementsOf f).getLast?.bind fun e => (p.element e).setVariable?

/-- Replaces a trailing assignment of a form by its value. -/
def spliceTrailing (p : Pool) (f : FormId) : Pool :=
  match (p.elementsOf f).getLast?.map p.element with
  | some (.set _ source _ _) =>
    p.setElements f ((p.elementsOf f).dropLast ++ p.elementsOf source)
  | _ => p

end Pool

end Decompiler
