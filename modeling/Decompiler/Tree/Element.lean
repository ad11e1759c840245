import Decompiler.Machine.Operation
import Decompiler.Tree.Builtin
import Decompiler.Typing.TypeEnv

/-!
The nodes of reconstructed trees.  A node is an element; the children of an element
are forms, and a form is a sequence of elements.  Both are named by handles.
-/

namespace Decompiler

@[ext]
structure ElementId where
  index : Nat
deriving DecidableEq, Inhabited, Repr

@[ext]
structure FormId where
  index : Nat
deriving DecidableEq, Inhabited, Repr

def ElementId.text (e : ElementId) : String := "e" ++ toString e.index

def FormId.text (f : FormId) : String := "f" ++ toString f.index

/-- What is noted about an assignment. -/
structure SetNotes where
  /-- It copies one register to another. -/
  eliminatedMove : Bool := false
  /-- Its value is never read. -/
  dead : Bool := false
  /-- Its value is the false symbol and is never read. -/
  deadFalse : Bool := false
deriving DecidableEq, Inhabited, Repr

/-- A step from a value to a part of it. -/
inductive PathStep
  | constant (value : Word)
  | computed (index : FormId)
  | field (name : String)
  | placeholder
deriving DecidableEq, Inhabited, Repr

/-- What stands at the head of an application. -/
inductive Head
  | builtin (b : Builtin)
  | test (t : Test)
  | callee (f : FormId)
deriving DecidableEq, Inhabited, Repr

/-- Whether a loop tests before or after its body, and when it goes on. -/
inductive LoopKind
  | whileTrue
  | untilTrue
deriving DecidableEq, Inhabited, Repr

/-- How control leaves a region. -/
inductive ExitKind
  | returns
  | breaks
deriving DecidableEq, Inhabited, Repr

/-- Whether a chain stops at the first false or at the first true entry. -/
inductive ChainKind
  | conjunction
  | disjunction
deriving DecidableEq, Inhabited, Repr

/-- A test and the body that runs when it holds.  A test is clean when it holds
nothing but its condition. -/
structure Arm where
  condition : FormId
  body : FormId
  clean : Bool
deriving DecidableEq, Inhabited, Repr

/-- An arm of a conditional without an alternative, with the variable that its branch
sets to false, and the branch. -/
structure GuardedArm where
  condition : FormId
  body : FormId
  falseDestination : Option Variable
  branchSite : Nat
  clean : Bool
deriving DecidableEq, Inhabited, Repr

/-- An entry of a chain, with its branch; the last entry has none.  The delay slot of
the branch may set the value of the chain. -/
structure ChainEntry where
  condition : FormId
  branchSite : Option Nat
  setsResult : Bool
  clean : Bool
deriving DecidableEq, Inhabited, Repr

/-- A node of a reconstructed tree. -/
inductive Element
  | atom (a : Atom)
  | text (s : String)
  | expression (e : Expression) (site : Nat)
  | load (base : FormId) (offset : Word) (size : Nat) (kind : LoadKind) (site : Nat)
  /-- The store of an instruction, as it is. -/
  | store (site : Nat)
  | set (dst : Variable) (source : FormId) (ordered : Bool) (notes : SetNotes)
  /-- An assignment to a place in memory. -/
  | setPlace (dst source : FormId)
  /-- The operation of an instruction, as it is. -/
  | operation (site : Nat) (writes : RegisterSet)
  /-- The call of an instruction, as it is. -/
  | call (site : Nat) (writes : RegisterSet)
  | divide (a b : FormId) (signed : Bool) (site : Nat)
  | condition (test : Test) (args : List FormId) (consumed : RegisterSet) (flipped : Bool)
      (site : Nat)
  /-- The branch of an instruction, as it is. -/
  | branch (site : Nat) (writes : RegisterSet)
  | apply (head : Head) (args : List FormId)
  | cast (type : TypeName) (source : FormId) (numeric : Bool)
  | path (base : FormId) (address : Bool) (steps : List PathStep)
  | loop (kind : LoopKind) (condition body : FormId) (clean : Bool)
  | condElse (arms : List Arm) (alternative : FormId) (rewritten : Bool)
  | cond (arms : List GuardedArm) (final : Option Variable) (used rewritten : Bool)
  | chain (kind : ChainKind) (entries : List ChainEntry) (final : Option Variable)
      (used rewritten : Bool)
  | exit (kind : ExitKind) (code : FormId) (dead : Option FormId) (site : Nat)
  | empty
  | abs (source : FormId) (consumed : RegisterSet) (site : Nat)
  | ash (value amount : FormId) (clobber : Option Variable) (signed : Bool)
      (consumed : RegisterSet) (site : Nat)
  | typeOf (value : FormId) (clobber : Option Variable) (site : Nat)
  /-- A conditional move of the false symbol. -/
  | moveFalse (dst source : Variable) (onZero : Bool) (site : Nat)
deriving DecidableEq, Inhabited, Repr

def Test.flippedBy (t : Test) (flipped : Bool) : Test := if flipped then t.negate else t

/-- The form of a path step that computes an index. -/
def PathStep.form? : PathStep → Option FormId
  | computed f => some f
  | _ => none

namespace Element

/-- The child forms, in order of evaluation. -/
def children : Element → List FormId
  | load base _ _ _ _ => [base]
  | set _ source _ _ => [source]
  | setPlace dst source => [source, dst]
  | divide a b _ _ => [a, b]
  | condition _ args _ _ _ => args
  | apply (.callee f) args => f :: args
  | apply _ args => args
  | cast _ source _ => [source]
  | path base _ steps => base :: steps.filterMap PathStep.form?
  | loop .whileTrue test body _ => [test, body]
  | loop .untilTrue test body _ => [body, test]
  | condElse arms alternative _ =>
    (arms.flatMap fun arm => [arm.condition, arm.body]) ++ [alternative]
  | cond arms _ _ _ => arms.flatMap fun arm => [arm.condition, arm.body]
  | chain _ entries _ _ _ => entries.map ChainEntry.condition
  | exit _ code dead _ => code :: dead.toList
  | abs source _ _ => [source]
  | ash value amount _ _ _ _ => [value, amount]
  | typeOf value _ _ => [value]
  | atom _ | text _ | expression _ _ | store _ | operation _ _ | call _ _ | branch _ _
  | empty | moveFalse _ _ _ _ => []

/-- Whether nothing may be moved across the element when it stands as a statement. -/
def isSequencePoint : Element → Bool
  | set _ _ ordered _ => ordered
  | apply (.callee _) _ => true
  | apply _ _ => false
  | atom _ | text _ | expression _ _ | load _ _ _ _ _ | condition _ _ _ _ _ | cast _ _ _
  | path _ _ _ | abs _ _ _ | ash _ _ _ _ _ _ | typeOf _ _ _ | empty => false
  | _ => true

def isControl : Element → Bool
  | loop _ _ _ _ | condElse _ _ _ | cond _ _ _ _ | chain _ _ _ _ _ | exit _ _ _ _ => true
  | _ => false

def setVariable? : Element → Option Variable
  | set dst _ _ _ => some dst
  | _ => none

def atom? : Element → Option Atom
  | atom a => some a
  | _ => none

def site? : Element → Option Nat
  | expression _ site | load _ _ _ _ site | store site | operation site _ | call site _
  | branch site _ | divide _ _ _ site | condition _ _ _ _ site | exit _ _ _ site | abs _ _ site
  | ash _ _ _ _ _ site | typeOf _ _ site | moveFalse _ _ _ site => some site
  | _ => none

/-- The variables that the element itself reads, apart from its children. -/
def localReads : Element → List Variable
  | atom a => a.var?.toList
  | expression e _ => e.vars
  | moveFalse _ source _ _ => [source]
  | _ => []

/-- The registers that the element itself writes. -/
def localWrites : Element → RegisterSet
  | set dst _ _ _ => .single dst.register
  | operation _ writes | call _ writes | branch _ writes => writes
  | divide _ _ _ _ => RegisterSet.ofList [.hi, .lo]
  | moveFalse dst _ _ _ => .single dst.register
  | cond _ final _ _ => Variable.optionalRegister final
  | chain _ _ final _ _ => Variable.optionalRegister final
  | _ => ∅

/-- Whether the element itself has an effect.  Loads have none. -/
def hasLocalEffect : Element → Bool
  | set _ _ _ _ | setPlace _ _ | store _ | call _ _ | operation _ _ | branch _ _
  | divide _ _ _ _ | exit _ _ _ _ | moveFalse _ _ _ _ => true
  | apply (.callee _) _ => true
  | _ => false

/-- The registers that the element itself still reads for the last time. -/
def localConsumed : Element → RegisterSet
  | condition _ _ consumed _ _ | abs _ consumed _ | ash _ _ _ _ consumed _ => consumed
  | _ => ∅

end Element

end Decompiler
