import Decompiler.Structure.Piece

/-!
Loops.  The test stands at the end and is entered by a jump, or at the end and runs
after the body, or at the start.
-/

namespace Decompiler

inductive LoopLayout
  /-- The first part jumps to the test in the last part, which branches to the body. -/
  | entersAtTest (site : Nat) (jump : Branch)
  /-- The last part branches back to the first. -/
  | testsLast
  /-- The first part branches out of the loop, and the last part jumps back. -/
  | testsFirst (site : Nat) (back : Branch)
deriving Inhabited

namespace Routine

/-- The jump from the first part to a test in the last one. -/
def entryJump? (r : Routine) (first last : Region) : Except Error (Option (Nat × Branch)) := do
  return (← r.regionTerminator first).filter fun entry =>
    entry.2.isJump && some entry.2.target == last.firstBlock?

/-- Whether the last part branches back to a block. -/
def branchesBack (r : Routine) (last : Region) (head : Option BlockId) : Except Error Bool := do
  return (← r.regionTerminator last).any fun entry =>
    !entry.2.isJump && some entry.2.target == head

def testsFirstLayout (r : Routine) (first last : Region) : Except Error LoopLayout := do
  let (leaveSite, leave) ← r.expectBranch first true
  if some leave.target ≠ last.lastBlock?.map (· + 1) then
    throw (r.shapeError first (some leaveSite) "loop test does not leave the loop")
  let (backSite, back) ← r.expectBranch last false
  if some back.target ≠ first.firstBlock? then
    throw (r.shapeError last (some backSite) "loop does not jump back to its test")
  return .testsFirst backSite back

/-- The layout of a loop that is not entered at its test. -/
def otherLayout (r : Routine) (first last : Region) (more : Bool) : Except Error LoopLayout := do
  if ← r.branchesBack last first.firstBlock? then
    return .testsLast
  else if more then r.testsFirstLayout first last
  else throw (r.shapeError last none "loop has no back edge")

/-- The layout of a loop with a first and a last part and the parts behind the first. -/
def loopLayout (r : Routine) (first last : Region) (rest : List Region) :
    Except Error LoopLayout := do
  match rest with
  | [] => r.otherLayout first last false
  | second :: _ =>
    match ← r.entryJump? first last with
    | none => r.otherLayout first last true
    | some (site, jump) =>
      let (_, back) ← r.expectBranch last true
      if some back.target ≠ second.firstBlock? then
        throw (r.shapeError last none "loop test does not branch to the body")
      return .entersAtTest site jump

end Routine

namespace Context

def pushLoopElement (cx : Context) (kind : LoopKind) (test : CapturedTest) (body : FormId) :
    FoldM Unit :=
  cx.pushControl test.site (.loop kind test.form body test.clean)

/-- Builds a loop body and the jump back behind it. -/
def buildLoopBody (cx : Context) (items : List Piece) (last : Piece) (site : Nat)
    (back : Branch) (depth : Nat) : TryFoldM FormId :=
  TryFoldM.onFreshStack do
    cx.pushPieces (depth + 1) 0 items
    cx.pushThroughDelay last site back (depth + 1)
    FoldM.takeForm

/-- Recognizes a loop with a first part and further parts. -/
def pushLoopParts (cx : Context) (first : Piece) (rest : List Piece) (depth : Nat) :
    TryFoldM Unit := do
  let last := rest.getLastD first
  let layout ← TryFoldM.ofExcept
    (cx.routine.loopLayout first.region last.region (rest.map Piece.region))
  match layout with
  | .entersAtTest site jump =>
    cx.pushThroughDelay first site jump (depth + 1)
    let body ← cx.buildPieces rest.dropLast (depth + 1)
    let test ← cx.captureTest last false true none depth
    cx.pushLoopElement .whileTrue test body
  | .testsLast =>
    let body ← cx.buildPieces (first :: rest).dropLast (depth + 1)
    let test ← cx.captureTest last true true none depth
    cx.pushLoopElement .untilTrue test body
  | .testsFirst site back =>
    let test ← cx.captureTest first true true none depth
    let body ← cx.buildLoopBody rest.dropLast last site back depth
    cx.pushLoopElement .whileTrue test body

def pushLoop (cx : Context) (pieces : List Piece) (depth : Nat) : TryFoldM Unit :=
  match pieces with
  | [] => throw (cx.routine.malformed "empty loop region")
  | first :: rest => cx.pushLoopParts first rest depth

end Context

end Decompiler
