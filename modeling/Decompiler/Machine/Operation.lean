import Decompiler.Machine.Condition
import Decompiler.Machine.Expression

/-!
Machine operations, the registers they read and write, and their text.  A branch
carries the operation of its delay slot and answers for its reads and writes.
-/

namespace Decompiler

/-- The position of a basic block in its routine. -/
abbrev BlockId := Nat

def blockName (b : BlockId) : String := "B" ++ toString b

/-- How a loaded value is extended. -/
inductive LoadKind
  | signed
  | unsigned
  | float
deriving DecidableEq, Inhabited, Repr

/-- The bank a stored value comes from. -/
inductive StoreKind
  | integer
  | float
deriving DecidableEq, Inhabited, Repr

/-- Operations without operands. -/
inductive SpecialKind
  | nop
  | trap
  | suspend
deriving DecidableEq, Inhabited, Repr

mutual

inductive Operation
  | set (dst : Variable) (source : Expression)
  | setCondition (dst : Variable) (condition : Condition)
  | load (dst : Variable) (base : Atom) (offset : Word) (size : Nat) (kind : LoadKind)
  | store (base : Atom) (offset : Word) (value : Atom) (size : Nat) (kind : StoreKind)
  | divide (a b : Atom) (signed : Bool)
  | floatCompare (test : Test) (a b : Atom)
  | call (callee : Variable) (args : List Variable) (result : Option Variable)
  | branch (b : Branch)
  | conditionalMove (dst : Variable) (source : Atom) (test : Variable) (onZero : Bool)
  | special (kind : SpecialKind)
  | asm (mnemonic : String) (dst : Option Variable) (sources : List Atom)

/-- A branch to a block.  A likely branch runs its delay slot only when it is
taken. -/
structure Branch where
  condition : Condition
  likely : Bool
  target : BlockId
  delay : Option Operation

end

instance : Inhabited Operation := ⟨.special .nop⟩

instance : Inhabited Branch := ⟨default, false, 0, none⟩

namespace LoadKind

def name : LoadKind → String
  | signed => "Signed"
  | unsigned => "Unsigned"
  | float => "Float"

end LoadKind

namespace StoreKind

def name : StoreKind → String
  | integer => "Integer"
  | float => "Float"

end StoreKind

namespace SpecialKind

def mnemonic : SpecialKind → String
  | nop => "nop"
  | trap => "break!"
  | suspend => "suspend"

end SpecialKind

namespace Operation

def branch? : Operation → Option Branch
  | branch b => some b
  | _ => none

def isNop : Operation → Bool
  | special .nop => true
  | _ => false

/-- The variable that receives the result. -/
def destination? : Operation → Option Variable
  | set dst _ | setCondition dst _ | load dst _ _ _ _ | conditionalMove dst _ _ _ => some dst
  | call _ _ result => result
  | asm _ dst _ => dst
  | _ => none

end Operation

/-- The set of the register of a variable that may be absent. -/
def Variable.optionalRegister : Option Variable → RegisterSet
  | some v => .single v.register
  | none => ∅

mutual

/-- The registers that an operation reads.  A conditional move reads its
destination, which keeps its value when the move is skipped. -/
def Operation.reads : Operation → RegisterSet
  | .set _ source => source.reads
  | .setCondition _ condition => condition.reads
  | .load _ base _ _ _ => Atom.registersOf [base]
  | .store base _ value _ _ => Atom.registersOf [base, value]
  | .divide a b _ => Atom.registersOf [a, b]
  | .floatCompare _ a b => Atom.registersOf [a, b]
  | .call callee args _ => RegisterSet.ofList (callee.register :: args.map Variable.register)
  | .branch b => b.reads
  | .conditionalMove dst source test _ =>
    Atom.registersOf [source] ∪ RegisterSet.ofList [dst.register, test.register]
  | .special _ => ∅
  | .asm _ _ sources => Atom.registersOf sources

def Branch.reads : Branch → RegisterSet
  | ⟨condition, _, _, delay⟩ => condition.reads ∪ Operation.delayReads delay

def Operation.delayReads : Option Operation → RegisterSet
  | some op => op.reads
  | none => ∅

end

mutual

def Operation.writes : Operation → RegisterSet
  | .set dst _ => .single dst.register
  | .setCondition dst _ => .single dst.register
  | .load dst _ _ _ _ => .single dst.register
  | .store _ _ _ _ _ => ∅
  | .divide _ _ _ => RegisterSet.ofList [.hi, .lo]
  | .floatCompare _ _ _ => .single .fcc
  | .call _ _ result => Variable.optionalRegister result
  | .branch b => b.writes
  | .conditionalMove dst _ _ _ => .single dst.register
  | .special _ => ∅
  | .asm _ dst _ => Variable.optionalRegister dst

def Branch.writes : Branch → RegisterSet
  | ⟨_, _, _, delay⟩ => Operation.delayWrites delay

def Operation.delayWrites : Option Operation → RegisterSet
  | some op => op.writes
  | none => ∅

end

namespace Branch

def isJump (b : Branch) : Bool := b.condition.isAlways

/-- The operation of the delay slot, unless it does nothing. -/
def delaySlot? (b : Branch) : Option Operation := b.delay.filter fun op => !op.isNop

end Branch

namespace Operation

/-- Fields between braces, each with its name. -/
def fieldsText (name : String) (fields : List (String × String)) : String :=
  name ++ " \x7b " ++ ", ".intercalate (fields.map fun f => f.1 ++ ": " ++ f.2) ++ " \x7d"

def flagText (b : Bool) : String := if b then "true" else "false"

/-- A short text for sets, branches, assembler and special operations, and all
fields of any other operation. -/
def text : Operation → String
  | set dst source => "set " ++ dst.text ++ " " ++ source.operator.mnemonic
  | setCondition dst condition =>
    fieldsText "SetCondition" [("dst", dst.text), ("condition", condition.text)]
  | load dst base offset size kind =>
    fieldsText "Load" [("dst", dst.text), ("base", base.text), ("offset", offset.text),
      ("size", toString size), ("kind", kind.name)]
  | store base offset value size kind =>
    fieldsText "Store" [("base", base.text), ("offset", offset.text), ("value", value.text),
      ("size", toString size), ("kind", kind.name)]
  | divide a b signed =>
    fieldsText "Divide" [("a", a.text), ("b", b.text), ("signed", flagText signed)]
  | floatCompare test a b =>
    fieldsText "FloatCompare" [("kind", test.name), ("a", a.text), ("b", b.text)]
  | call callee args result =>
    fieldsText "Call" [("function", callee.text),
      ("args", "[" ++ ", ".intercalate (args.map Variable.text) ++ "]"),
      ("result", match result with
        | some v => "Some(" ++ v.text ++ ")"
        | none => "None")]
  | branch b => "branch " ++ b.condition.test.name ++ " -> " ++ blockName b.target
  | conditionalMove dst source test onZero =>
    fieldsText "ConditionalMove" [("dst", dst.text), ("src", source.text), ("test", test.text),
      ("on_zero", flagText onZero)]
  | special kind => kind.mnemonic
  | asm mnemonic _ _ => mnemonic

end Operation

end Decompiler
