import Decompiler.Structure.Piece

/-!
Conditionals.  Every test ends in a branch around its arm, to the next test or to the
end, and every arm but the last ends in a jump to the end.  A conditional whose arms
all end by setting one register is the value of that register.
-/

namespace Decompiler

namespace Routine

/-- The branch of a test, which must lead to a given block. -/
def skippingBranch (r : Routine) (test : Region) (target : Option BlockId) :
    Except Error (Nat × Branch) := do
  let (site, branch) ← r.expectBranch test true
  if some branch.target ≠ target then
    throw (r.shapeError test (some site) "test does not skip its arm")
  return (site, branch)

/-- The branches of tests, each of which leads to the next test and the last one to a given
block. -/
def skippingBranches (r : Routine) (finish : Option BlockId) :
    List Region → Except Error (List (Nat × Branch))
  | [] => return []
  | [test] => return [← r.skippingBranch test finish]
  | test :: next :: rest => do
    let branch ← r.skippingBranch test next.firstBlock?
    return branch :: (← r.skippingBranches finish (next :: rest))

/-- The jump to the end of a conditional at the end of an arm. -/
def armJump (r : Routine) (body : Region) (finish : BlockId) (required : Bool) :
    Except Error (Option (Nat × Branch)) := do
  let terminator ← r.regionTerminator body
  match terminator.filter fun entry => entry.2.isJump && entry.2.target == finish with
  | some jump => return some jump
  | none =>
    if required then
      throw (r.shapeError body (terminator.map Prod.fst)
        ("arm does not jump to " ++ blockName finish))
    return none

end Routine

def commonRegister? : List Variable → Option Register
  | [] => none
  | v :: rest => if rest.all fun w => w.register == v.register then some v.register else none

/-- The variable that the last of some forms assigns at its end, if all of them end by
assigning one register. -/
def Pool.commonTrailing? (p : Pool) (r : Register) (forms : List FormId) : Option Variable := do
  let vars ← forms.mapM fun f => (p.trailingSet? f).filter fun v => v.register == r
  vars.getLast?

/-- The variable that a conditional is the value of.  With an alternative, the first arm
names the register; without one, the branches must all set it to false. -/
def Pool.conditionalValue? (p : Pool) (branches : List Branch) (bodies : List FormId)
    (alternative : Option FormId) : Option Variable := do
  let r ← match alternative with
    | some _ => (bodies.head?.bind p.trailingSet?).map Variable.register
    | none => (branches.mapM Branch.falseDefault?).bind commonRegister?
  p.commonTrailing? r (bodies ++ alternative.toList)

namespace Context

/-- Builds an arm without its jump to the end. -/
def buildArm (cx : Context) (body : Piece) (finish : BlockId) (required : Bool) (depth : Nat) :
    TryFoldM FormId := do
  match ← TryFoldM.ofExcept (cx.routine.armJump body.region finish required) with
  | none => buildPiece body (depth + 1)
  | some (site, jump) =>
    TryFoldM.onFreshStack do
      cx.pushThroughDelay body site jump (depth + 1)
      FoldM.takeForm

/-- Builds arms; every one but the last must jump to the end, and the last one too when
there is an alternative. -/
def buildArms (cx : Context) (finish : BlockId) (alternative : Bool) (depth : Nat) :
    List Piece → TryFoldM (List FormId)
  | [] => return []
  | body :: rest => do
    let form ← cx.buildArm body finish (alternative || !rest.isEmpty) depth
    return form :: (← cx.buildArms finish alternative depth rest)

def buildOption (piece : Option Piece) (depth : Nat) : TryFoldM (Option FormId) :=
  match piece with
  | some piece => return some (← buildPiece piece depth)
  | none => return none

def conditionalElement (tests : List CapturedTest) (bodies : List FormId)
    (alternative : Option FormId) (value : Option Variable) : Element :=
  match alternative with
  | some alternative =>
    .condElse ((tests.zip bodies).map fun (test, body) => ⟨test.form, body, test.clean⟩)
      alternative value.isSome
  | none =>
    .cond ((tests.zip bodies).map fun (test, body) =>
        { condition := test.form, body
          falseDestination := if value.isSome then test.branch.falseDefault? else none
          branchSite := test.site, clean := test.clean })
      value value.isSome value.isSome

/-- Builds and pushes a conditional whose branches have been checked. -/
def pushArms (cx : Context) (arms : List (Piece × Piece)) (alternative : Option Piece)
    (branches : List (Nat × Branch)) (finish : BlockId) (depth : Nat) : TryFoldM Unit := do
  let bodies ← cx.buildArms finish alternative.isSome depth (arms.map Prod.snd)
  let other ← buildOption alternative (depth + 1)
  let value := (← get).pool.conditionalValue? (branches.map Prod.snd) bodies other
  let emitDelay := value.isNone || alternative.isSome
  let tests ← arms.mapM fun arm => cx.captureTest arm.1 true emitDelay none depth
  if value.isSome then
    FoldM.changePool fun p => (bodies ++ other.toList).foldl Pool.spliceTrailing p
  let site := (tests.map CapturedTest.site).headD 0
  let element := conditionalElement tests bodies other value
  match value with
  | some dst => cx.pushControlValue site dst element
  | none => cx.pushControl site element

def pushConditional (cx : Context) (arms : List (Piece × Piece)) (alternative : Option Piece)
    (depth : Nat) : TryFoldM Unit := do
  match arms.getLast? with
  | none => throw (cx.routine.malformed "conditional without arms")
  | some lastArm =>
    let lastRegion := (alternative.getD lastArm.2).region
    match lastRegion.lastBlock? with
    | none => throw (cx.routine.shapeError lastRegion none "conditional has no blocks")
    | some block =>
      let finish := block + 1
      let skipTo := (alternative.bind fun piece => piece.region.firstBlock?) <|> some finish
      let branches ← TryFoldM.ofExcept
        (cx.routine.skippingBranches skipTo (arms.map fun arm => arm.1.region))
      cx.pushArms arms alternative branches finish depth

end Context

end Decompiler
