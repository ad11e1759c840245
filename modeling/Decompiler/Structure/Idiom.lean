import Decompiler.Structure.Blocks

/-!
Idioms that span several blocks: absolute value, shift by a signed amount, and dispatch
on the type of a value.  A shape is matched completely before anything is folded.
-/

namespace Decompiler

def Expression.negated? : Expression → Option Variable
  | ⟨.neg, [.var v]⟩ => some v
  | ⟨.sub, [.int w, .var v]⟩ => if w = 0 then some v else none
  | _ => none

namespace Branch

def delaySet? (b : Branch) : Option (Variable × Expression) :=
  match b.delaySlot? with
  | some (.set dst source) => some (dst, source)
  | _ => none

def tested? (b : Branch) : Option Variable := b.condition.args.head?.bind Atom.var?

/-- The variable that a likely branch to a block sets to the value of a global symbol. -/
def tagSet? (b : Branch) (target : BlockId) (symbol : String) : Option Variable := do
  guard (b.likely && b.target == target)
  let (dst, source) ← b.delaySet?
  guard (source.copied? == some (.global symbol))
  return dst

/-- The variable that the delay slot sets to the false symbol. -/
def falseDefault? (b : Branch) : Option Variable := do
  let (dst, source) ← b.delaySet?
  guard (source.copied?.any Atom.isFalse)
  return dst

/-- The amount, the destination and the value of the left shift in the delay slot of a
branch around a block. -/
def shiftOperands? (b : Branch) (id : BlockId) (right : Block) :
    Option (Variable × Variable × Variable) := do
  guard (b.likely && b.condition.test == .greaterEqualZero && b.target == id + 2 &&
    right.size == 2)
  let amount ← b.tested?
  let (dst, source) ← b.delaySet?
  match source with
  | ⟨.shiftLeft, [.var value, by']⟩ =>
    guard (by'.register? == some amount.register)
    return (amount, dst, value)
  | _ => none

end Branch

/-- An absolute value: a likely branch on a negative value that negates it. -/
structure AbsShape where
  site : Nat
  value : Variable
deriving Inhabited

/-- A shift: to the left by the amount if it is not negative, else to the right by the
negated amount, which a temporary holds. -/
structure AshShape where
  branchSite : Nat
  shiftSite : Nat
  amount : Variable
  value : Variable
  temporary : Variable
  dst : Register
  signed : Bool
deriving Inhabited

/-- A dispatch on the tag bits of a value, which a temporary holds: small integers, pairs,
and values with a type word in front. -/
structure TypeOfShape where
  tagSite : Nat
  pairSite : Nat
  loadSite : Nat
  base : Atom
  temporary : Variable
  dst : Register
deriving Inhabited

namespace Routine

def matchAbs (r : Routine) (id : BlockId) : Except Error (Option AbsShape) := do
  let terminator ← r.terminator id
  return do
    let (site, branch) ← terminator
    guard (branch.likely && branch.target == id + 1 && branch.condition.test == .lessZero)
    let value ← branch.tested?
    let (dst, source) ← branch.delaySet?
    let negated ← source.negated?
    guard (negated.register == value.register && dst.register == value.register)
    return { site, value }

def rightShiftSigned? : Operator → Option Bool
  | .shiftRightArith => some true
  | .shiftRightLogic => some false
  | _ => none

def readsPair (e : Expression) (a b : Register) : Bool :=
  match e.args with
  | [x, y] => x.register? == some a && y.register? == some b
  | _ => false

def matchAsh (r : Routine) (id : BlockId) : Except Error (Option AshShape) := do
  let some (branchSite, branch) ← r.terminator id | return none
  let right ← r.block (id + 1)
  let some (amount, dst, value) := branch.shiftOperands? id right | return none
  let negate ← r.instruction right.start
  let .set temporary negation := negate.op | return none
  if negation.negated?.map Variable.register ≠ some amount.register then
    return none
  let shift ← r.instruction (right.start + 1)
  let .set out source := shift.op | return none
  return do
    let signed ← rightShiftSigned? source.operator
    guard (readsPair source value.register temporary.register && out.register == dst.register)
    return { branchSite, shiftSite := right.start + 1, amount, value, temporary,
             dst := dst.register, signed }

/-- The register that a branch compares with zero. -/
def zeroTested? : Condition → Option Register
  | ⟨.zero, [.var v]⟩ => some v.register
  | ⟨.equal, [.var v, .int w]⟩ => if w = 0 then some v.register else none
  | _ => none

/-- The register whose tag bits an expression moves to the top of a word. -/
def tagged? : Expression → Option Register
  | ⟨.shiftLeft, [.var v, .int w]⟩ => if w = 61 then some v.register else none
  | _ => none

def matchTypeOf (r : Routine) (id : BlockId) : Except Error (Option TypeOfShape) := do
  let first ← r.block id
  let second ← r.block (id + 1)
  let third ← r.block (id + 2)
  if first.size < 2 ∨ second.size ≠ 1 ∨ third.size ≠ 1 then
    return none
  let some (_, zeroTest) ← r.terminator id | return none
  let some tested := zeroTested? zeroTest.condition | return none
  let some dst := zeroTest.tagSet? (id + 3) "binteger" | return none
  let tagSite := first.stop - 2
  let tag ← r.instruction tagSite
  let .set temporary source := tag.op | return none
  let some base := tagged? source | return none
  if temporary.register ≠ tested then
    return none
  let some (pairSite, pairTest) ← r.terminator (id + 1) | return none
  let positive := match pairTest.condition with
    | ⟨.greaterZero, [.var v]⟩ => v.register == tested
    | _ => false
  if !positive ∨ (pairTest.tagSet? (id + 3) "pair").map Variable.register ≠ some dst.register then
    return none
  let load ← r.instruction third.start
  let .load loaded loadBase offset size kind := load.op | return none
  if offset = -4 ∧ size = 4 ∧ kind = .unsigned ∧ loaded.register = dst.register ∧
      loadBase.register? = some base then
    return some { tagSite, pairSite, loadSite := third.start, base := loadBase, temporary,
                  dst := dst.register }
  return none

end Routine

namespace Context

/-- Logs an idiom and pushes its value. -/
def pushIdiom (cx : Context) (site : Nat) (dst : Variable) (element : Element) : FoldM Unit := do
  let f ← FoldM.addSingle element
  cx.noteForm .idiomRecognized site f
  FoldM.pushValue dst f {}

def applyAbs (cx : Context) (id : BlockId) (shape : AbsShape) : TryFoldM Unit := do
  let _ ← cx.pushBlockBody id
  let (source, popped) := (← cx.operandsMarked shape.site [.var shape.value] true).headD default
  let consumed ← cx.consumedNow shape.site
  let remaining := if popped then ∅ else consumed ∩ .single shape.value.register
  cx.pushIdiom shape.site (.write shape.value.register shape.site)
    (.abs source remaining shape.site)

/-- The temporary of an idiom, if it is not the destination. -/
def clobbered (temporary : Variable) (dst : Register) : Option Variable :=
  if temporary.register = dst then none else some temporary

/-- The registers of two operands that were not popped. -/
def unpopped (entries : List (Register × Bool)) : RegisterSet :=
  RegisterSet.ofList ((entries.filter fun entry => !entry.2).map Prod.fst)

/-- Folds a shift.  The amount is read last by the negation and the value by the shift. -/
def applyAsh (cx : Context) (id : BlockId) (shape : AshShape) : TryFoldM Unit := do
  let clobber := clobbered shape.temporary shape.dst
  let shiftConsumed ← cx.consumedNow shape.shiftSite
  if clobber.isSome && !shiftConsumed.contains shape.temporary.register then
    throw (.foldInvariant shape.shiftSite
      ("ash clobbers " ++ shape.temporary.register.name ++ " but it is still live"))
  let _ ← cx.pushBlockBody id
  let consumed := (← cx.consumedNow shape.branchSite) ∪
    (← cx.consumedNow (shape.shiftSite - 1)) ∪ shiftConsumed
  let forms ← cx.operandsConsuming shape.shiftSite [.var shape.value, .var shape.amount]
    consumed true
  let (value, valuePopped) := forms.getD 0 default
  let (amount, amountPopped) := forms.getD 1 default
  let remaining := consumed ∩
    unpopped [(shape.value.register, valuePopped), (shape.amount.register, amountPopped)]
  cx.pushIdiom shape.branchSite (.write shape.dst shape.shiftSite)
    (.ash value amount clobber shape.signed remaining shape.branchSite)

def applyTypeOf (cx : Context) (id : BlockId) (shape : TypeOfShape) : TryFoldM Unit := do
  let clobber := clobbered shape.temporary shape.dst
  if clobber.isSome && !(← cx.consumedNow shape.pairSite).contains shape.temporary.register then
    throw (.foldInvariant shape.pairSite
      ("rtype-of clobbers " ++ shape.temporary.register.name ++ " but it is still live"))
  let block ← TryFoldM.ofExcept (cx.routine.block id)
  cx.pushSites (List.range' block.start (shape.tagSite - block.start))
  let value ← cx.operand shape.loadSite shape.base true
  cx.pushIdiom shape.tagSite (.write shape.dst shape.loadSite)
    (.typeOf value clobber shape.tagSite)

def leadingBlocks : List Region → List BlockId
  | .block id :: rest => id :: leadingBlocks rest
  | _ => []

def areConsecutive : List BlockId → Bool
  | a :: b :: rest => b == a + 1 && areConsecutive (b :: rest)
  | _ => true

/-- The shape of an idiom that may be used, if it matches. -/
def whenAllowed (cx : Context) (idiom : Idiom) (found : Except Error (Option α)) :
    TryFoldM (Option α) :=
  if cx.config.allows idiom then TryFoldM.ofExcept found else pure none

/-- Folds an idiom at the start of consecutive blocks, the longest one that matches, and
returns the number of blocks it takes. -/
def tryIdiomsAt (cx : Context) (id : BlockId) (available : Nat) : TryFoldM Nat := do
  if 3 ≤ available then
    if let some shape ← cx.whenAllowed .typeOf (cx.routine.matchTypeOf id) then
      cx.applyTypeOf id shape
      return 3
  if 2 ≤ available then
    if let some shape ← cx.whenAllowed .ash (cx.routine.matchAsh id) then
      cx.applyAsh id shape
      return 2
  if let some shape ← cx.whenAllowed .abs (cx.routine.matchAbs id) then
    cx.applyAbs id shape
    return 1
  return 0

/-- Folds an idiom at the start of a window of regions and returns the number of regions it
takes. -/
def tryIdioms (cx : Context) (window : List Region) : TryFoldM Nat :=
  let blocks := leadingBlocks (window.take 3)
  match blocks with
  | [] => pure 0
  | id :: _ => if areConsecutive blocks then cx.tryIdiomsAt id blocks.length else pure 0

end Context

end Decompiler
