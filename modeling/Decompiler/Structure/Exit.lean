import Decompiler.Structure.Piece

/-!
Exits: a jump to the epilogue returns, and any other jump out of a region breaks.
-/

namespace Decompiler

namespace Context

/-- Casts a value to the result type of the routine, if it has one. -/
def castResult (cx : Context) (site : Nat) (f : FormId) : FoldM FormId :=
  match cx.env.resultType with
  | some type => cx.castTo site f type
  | none => pure f

/-- Pops the value that a return takes, if the last thing that happened was to set the
result. -/
def popResult (cx : Context) (site : Nat) : FoldM (Option FormId) := do
  match ← FoldM.popTop cx.routine.resultRegister with
  | none => return none
  | some f => return some (← cx.castResult site f)

/-- Builds the code up to a jump out. -/
def buildExitCode (cx : Context) (body : Piece) (site : Nat) (jump : Branch) (returns : Bool)
    (depth : Nat) : TryFoldM FormId :=
  TryFoldM.onFreshStack do
    cx.pushThroughDelay body site jump (depth + 1)
    let value ←
      if returns && cx.config.stripResult then liftM (cx.popResult site) else pure none
    let statements ← FoldM.takeStatements
    let p := (← get).pool
    let elements := statements ++ (value.map p.elementsOf).getD []
    liftM (FoldM.onPool fun p => p.addBody elements)

def buildDead (cx : Context) : Option Region → TryFoldM (Option FormId)
  | some region => some <$> cx.buildVerbatim region
  | none => pure none

/-- Recognizes an exit, with the unreachable code behind it. -/
def pushExit (cx : Context) (body : Piece) (dead : Option Region) (depth : Nat) :
    TryFoldM Unit := do
  let (site, jump) ← TryFoldM.ofExcept (cx.routine.expectBranch body.region false)
  let returns := some jump.target == cx.routine.epilogue
  let code ← cx.buildExitCode body site jump returns depth
  let deadForm ← cx.buildDead dead
  cx.pushControl site (.exit (if returns then .returns else .breaks) code deadForm site)

end Context

end Decompiler
