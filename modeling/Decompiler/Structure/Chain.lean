import Decompiler.Structure.Piece

/-!
Chains of tests with a common end.  A branch that is taken on the false symbol, or that
sets the result to false in its delay slot, belongs to a conjunction; one that is taken
on any other value belongs to a disjunction.
-/

namespace Decompiler

/-- What is known of an entry from its branch. -/
structure ChainTest where
  branch : Branch
  /-- The variable that the delay slot sets to false. -/
  defaulted : Option Variable
  kind : ChainKind
deriving Inhabited

/-- What is known of a chain before it is built. -/
structure ChainPlan where
  kind : ChainKind
  tests : List ChainTest
  /-- The register that holds the value of the chain. -/
  result : Option Register
deriving Inhabited

/-- The kind of chain that a branch belongs to. -/
def Branch.chainKind? (b : Branch) : Option ChainKind :=
  if b.falseDefault?.isSome then some .conjunction
  else
    match b.condition.test with
    | .falsy => some .conjunction
    | .truthy => some .disjunction
    | _ => none

/-- The register that a branch tests, if its condition has no other operand. -/
def Branch.onlyTested? (b : Branch) : Option Register :=
  match b.condition.args with
  | [.var v] => some v.register
  | _ => none

/-- The register that may hold the value of a chain: the first one that is set to false, or
the one that every branch tests. -/
def chainRegister? (tests : List ChainTest) : Option Register :=
  match tests.findSome? ChainTest.defaulted with
  | some v => some v.register
  | none =>
    match tests.map fun t => t.branch.onlyTested? with
    | some r :: rest => if rest.all fun other => other == some r then some r else none
    | _ => none

namespace Routine

/-- Checks the branch of an entry, which must lead to the end of the chain. -/
def chainTest (r : Routine) (finish : BlockId) (entry : Region) : Except Error ChainTest := do
  let (site, branch) ← r.expectBranch entry true
  if branch.target ≠ finish then
    throw (r.shapeError entry (some site) "entry does not branch to the end of the chain")
  match branch.chainKind? with
  | some kind => return { branch, defaulted := branch.falseDefault?, kind }
  | none =>
    throw (r.shapeError entry (some site)
      (branch.condition.test.operator ++ " test without a result in the delay slot"))

/-- Whether a plain region ends with an instruction that sets a register. -/
def endsBySetting (r : Routine) (region : Region) (register : Register) : Except Error Bool := do
  match region.lastBlock? with
  | none => return false
  | some id =>
    if !region.isPlain then
      return false
    let block ← r.block id
    if (← r.terminator block.id).isSome || block.isEmpty then
      return false
    let instruction ← r.instruction (block.stop - 1)
    return instruction.op.destination?.any fun dst => dst.register == register

/-- The register that holds the value of a chain, if its last entry sets it. -/
def chainResult (r : Routine) (tests : List ChainTest) (last : Region) :
    Except Error (Option Register) := do
  match chainRegister? tests with
  | none => return none
  | some register => return if ← r.endsBySetting last register then some register else none

def chainPlan (r : Routine) (entries : List Region) (last : Region) : Except Error ChainPlan := do
  if entries.isEmpty then
    throw (r.shapeError last none "short-circuit chain with a single entry")
  let some block := last.lastBlock?
    | throw (r.shapeError last none "short-circuit chain has no blocks")
  let tests ← entries.mapM (r.chainTest (block + 1))
  let kind ←
    if tests.all fun t => t.kind == .conjunction then pure ChainKind.conjunction
    else if tests.all fun t => t.kind == .disjunction then pure ChainKind.disjunction
    else throw (r.shapeError last none "short-circuit chain mixes and with or")
  let result ← r.chainResult tests last
  match (tests.filterMap ChainTest.defaulted).find? fun v => some v.register ≠ result with
  | some v =>
    throw (r.shapeError last none
      ("short-circuit result " ++ v.register.name ++ " is not the value of the chain"))
  | none => return { kind, tests, result }

end Routine

namespace Context

/-- Captures an entry.  A delay slot that sets the result is left out. -/
def captureEntry (cx : Context) (plan : ChainPlan) (depth : Nat) (entry : Piece × ChainTest) :
    TryFoldM ChainEntry := do
  let defaulted := entry.2.defaulted.isSome
  let test ← cx.captureTest entry.1 (plan.kind == .conjunction) (!defaulted) plan.result depth
  return { condition := test.form, branchSite := some test.site, setsResult := defaulted,
           clean := test.clean }

/-- Takes the value of a chain out of its last entry, which must end by setting it. -/
def takeChainValue (cx : Context) (last : Region) (tail : FormId) (register : Register) :
    TryFoldM Variable := do
  match ((← get).pool.trailingSet? tail).filter fun v => v.register == register with
  | some dst =>
    FoldM.changePool fun p => p.spliceTrailing tail
    return dst
  | none =>
    let block ← TryFoldM.ofExcept (cx.routine.block (last.lastBlock?.getD 0))
    throw (.foldInvariant block.start
      ("short-circuit result " ++ register.name ++ " was not set last"))

/-- The variable that a chain is the value of. -/
def chainFinal (cx : Context) (plan : ChainPlan) (last : Region) (tail : FormId) :
    TryFoldM (Option Variable) :=
  match plan.result with
  | some register => some <$> cx.takeChainValue last tail register
  | none => pure none

/-- Builds and pushes a chain that has been checked. -/
def pushPlannedChain (cx : Context) (plan : ChainPlan) (entries : List Piece) (last : Piece)
    (depth : Nat) : TryFoldM Unit := do
  let built ← (entries.zip plan.tests).mapM (cx.captureEntry plan depth)
  let tail ← buildPiece last (depth + 1)
  let final ← cx.chainFinal plan last.region tail
  let lastEntry : ChainEntry :=
    { condition := tail, branchSite := none, setsResult := false, clean := true }
  let site := (built.head?.bind ChainEntry.branchSite).getD 0
  let used := plan.result.isSome
  let element := Element.chain plan.kind (built ++ [lastEntry]) final used used
  match final with
  | some dst => cx.pushControlValue site dst element
  | none => cx.pushControl site element

def pushChain (cx : Context) (pieces : List Piece) (depth : Nat) : TryFoldM Unit := do
  match pieces.getLast? with
  | none => throw (cx.routine.malformed "empty short-circuit region")
  | some last =>
    let entries := pieces.dropLast
    let plan ← TryFoldM.ofExcept
      (cx.routine.chainPlan (entries.map Piece.region) last.region)
    cx.pushPlannedChain plan entries last depth

end Context

end Decompiler
