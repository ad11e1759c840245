import Decompiler.Machine.Routine

/-!
Regions: how the blocks of a routine are grouped into loops, conditionals, chains and
exits.  Whatever is computed from a region is computed from its parts, so it is given
by one rule for each kind of region; `Region.fold` applies such rules.
-/

namespace Decompiler

mutual

/-- A group of blocks in layout order. -/
inductive Region
  | block (id : BlockId)
  /-- Regions that run one after another. -/
  | sequence (items : List Region)
  /-- A loop with one entry. -/
  | loop (items : List Region)
  /-- Tested arms, and what runs when no test holds. -/
  | conditional (arms : List RegionArm) (alternative : Option Region)
  /-- Tests with a common end; all but the last end in a branch to it. -/
  | chain (items : List Region)
  /-- Code that ends in a jump out, and the unreachable code behind it. -/
  | exit (body : Region) (dead : Option Region)

/-- A test, which ends in a branch around its body. -/
structure RegionArm where
  test : Region
  body : Region

end

instance : Inhabited Region := ⟨.sequence []⟩

/-- One rule for each kind of region, on the results for its parts. -/
structure RegionRules (α : Type) where
  block : BlockId → α
  sequence : List α → α
  loop : List α → α
  conditional : List (α × α) → Option α → α
  chain : List α → α
  exit : α → Option α → α

mutual

/-- Applies rules to a region and its parts. -/
def Region.fold {α : Type} (rules : RegionRules α) : Region → α
  | .block id => rules.block id
  | .sequence items => rules.sequence (Region.foldItems rules items)
  | .loop items => rules.loop (Region.foldItems rules items)
  | .conditional arms alternative =>
    rules.conditional (Region.foldArms rules arms) (Region.foldOption rules alternative)
  | .chain items => rules.chain (Region.foldItems rules items)
  | .exit body dead => rules.exit (body.fold rules) (Region.foldOption rules dead)

def Region.foldItems {α : Type} (rules : RegionRules α) : List Region → List α
  | [] => []
  | item :: rest => item.fold rules :: Region.foldItems rules rest

def Region.foldArms {α : Type} (rules : RegionRules α) : List RegionArm → List (α × α)
  | [] => []
  | ⟨test, body⟩ :: rest => (test.fold rules, body.fold rules) :: Region.foldArms rules rest

def Region.foldOption {α : Type} (rules : RegionRules α) : Option Region → Option α
  | none => none
  | some region => some (region.fold rules)

end

theorem Region.foldItems_eq_map {α : Type} (rules : RegionRules α) (items : List Region) :
    Region.foldItems rules items = items.map (Region.fold rules) := by
  induction items with
  | nil => rfl
  | cons item rest ih => simp [Region.foldItems, ih]

theorem Region.foldOption_eq_map {α : Type} (rules : RegionRules α) (region : Option Region) :
    Region.foldOption rules region = region.map (Region.fold rules) := by
  cases region <;> rfl

theorem Region.foldArms_eq_map {α : Type} (rules : RegionRules α) (arms : List RegionArm) :
    Region.foldArms rules arms =
      arms.map fun arm => (arm.test.fold rules, arm.body.fold rules) := by
  induction arms with
  | nil => rfl
  | cons arm rest ih =>
    cases arm
    simp [Region.foldArms, ih]

namespace Region

def children : Region → List Region
  | block _ => []
  | sequence items | loop items | chain items => items
  | conditional arms alternative =>
    (arms.flatMap fun arm => [arm.test, arm.body]) ++ alternative.toList
  | exit body dead => body :: dead.toList

/-- The blocks of a region, in layout order. -/
def blockIds : Region → List BlockId :=
  fold {
    block := fun id => [id]
    sequence := List.flatten
    loop := List.flatten
    conditional := fun arms alternative =>
      (arms.flatMap fun arm => arm.1 ++ arm.2) ++ alternative.getD []
    chain := List.flatten
    exit := fun body dead => body ++ dead.getD [] }

def firstBlock? (r : Region) : Option BlockId := r.blockIds.head?

def lastBlock? (r : Region) : Option BlockId := r.blockIds.getLast?

/-- One more than the greatest of some depths. -/
def above (depths : List Nat) : Nat := 1 + depths.foldl max 0

/-- How deeply regions are nested; a block has depth one. -/
def depth : Region → Nat :=
  fold {
    block := fun _ => 1
    sequence := above
    loop := above
    conditional := fun arms alternative =>
      above ((arms.flatMap fun arm => [arm.1, arm.2]) ++ alternative.toList)
    chain := above
    exit := fun body dead => above (body :: dead.toList) }

/-- A block or a sequence, as opposed to a control region. -/
def isPlain : Region → Bool
  | block _ | sequence _ => true
  | _ => false

/-- All blocks of a routine but the epilogue, one after another. -/
def linear (r : Routine) : Region :=
  sequence (((r.blocks.toList.map Block.id).filter fun id => some id ≠ r.epilogue).map block)

def blocks (start stop : BlockId) : Region :=
  sequence ((List.range' start (stop - start)).map block)

end Region

namespace Routine

/-- Runs checks one level further down. -/
def checkParts (depth : Nat) (checks : List (Nat → Except Error Unit)) : Except Error Unit :=
  checks.forM fun check => check (depth + 1)

/-- Checks a region at a depth, after the depth itself. -/
def limited (limit : Nat) (check : Nat → Except Error Unit) (depth : Nat) : Except Error Unit :=
  if limit < depth then .error (.depthLimit limit) else check depth

def emptyRegion (r : Routine) : Error := r.malformed "empty loop or short-circuit region"

/-- Checks that a region names only blocks of the routine, that its groups are not empty,
and that it is not nested more deeply than allowed. -/
def validateRegion (r : Routine) (limit : Nat) (region : Region) : Except Error Unit :=
  let group := fun (items : List (Nat → Except Error Unit)) =>
    limited limit fun depth =>
      if items.isEmpty then .error r.emptyRegion else checkParts depth items
  region.fold
    { block := fun id => limited limit fun _ => (r.block id).map fun _ => ()
      sequence := fun items => limited limit fun depth => checkParts depth items
      loop := group
      conditional := fun arms alternative => limited limit fun depth =>
        if arms.isEmpty then .error (r.malformed "conditional region without arms")
        else checkParts depth ((arms.flatMap fun arm => [arm.1, arm.2]) ++ alternative.toList)
      chain := group
      exit := fun body dead => limited limit fun depth =>
        checkParts depth (body :: dead.toList) } 1

/-- The branch that ends a region.  Branches inside control regions belong to those. -/
def regionTerminator (r : Routine) : Region → Except Error (Option (Nat × Branch)) :=
  Region.fold
    { block := r.terminator
      sequence := fun items => items.getLast?.getD (.ok none)
      loop := fun _ => .ok none
      conditional := fun _ _ => .ok none
      chain := fun _ => .ok none
      exit := fun _ _ => .ok none }

/-- The error for a region whose branches do not have the layout of its kind.  It points
to an instruction, or to the start of the last block. -/
def shapeError (r : Routine) (region : Region) (site : Option Nat) (reason : String) : Error :=
  let block := region.lastBlock?.getD 0
  .branchShape block ((site <|> (r.blocks[block]?.map Block.start)).getD 0) reason

/-- The conditional branch, or the jump, that a region must end in. -/
def expectBranch (r : Routine) (region : Region) (conditional : Bool) :
    Except Error (Nat × Branch) := do
  match ← r.regionTerminator region with
  | some (site, branch) =>
    if branch.isJump != conditional then return (site, branch)
    else throw (r.shapeError region (some site)
      (if conditional then "expected a conditional branch" else "expected an unconditional jump"))
  | none => throw (r.shapeError region none "region does not end in a branch")

end Routine

end Decompiler
