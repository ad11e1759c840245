import Decompiler.Machine.Atom

/-!
Register-transfer expressions: one operator applied to operands.
-/

namespace Decompiler

inductive Operator
  | identity
  | toFloatRegister
  | toGeneralRegister
  | add
  | sub
  | mulSigned
  | mulUnsigned
  | neg
  | addFloat
  | subFloat
  | mulFloat
  | divFloat
  | minFloat
  | maxFloat
  | negFloat
  | absFloat
  | sqrtFloat
  | intToFloat
  | floatToInt
  | and
  | or
  | xor
  | nor
  | not
  | shiftLeft
  | shiftRightArith
  | shiftRightLogic
  | lessSigned
  | lessUnsigned
deriving DecidableEq, Inhabited, Repr

namespace Operator

/-- The mnemonic that stands at the head of an unfolded expression. -/
def mnemonic : Operator → String
  | identity => "identity"
  | toFloatRegister => "gpr->fpr"
  | toGeneralRegister => "fpr->gpr"
  | add => "+"
  | sub => "-"
  | mulSigned => "*"
  | mulUnsigned => "*.u"
  | neg => "neg"
  | addFloat => "+.s"
  | subFloat => "-.s"
  | mulFloat => "*.s"
  | divFloat => "/.s"
  | minFloat => "min.s"
  | maxFloat => "max.s"
  | negFloat => "neg.s"
  | absFloat => "abs.s"
  | sqrtFloat => "sqrt.s"
  | intToFloat => "int->float"
  | floatToInt => "float->int"
  | and => "and"
  | or => "or"
  | xor => "xor"
  | nor => "nor"
  | not => "not"
  | shiftLeft => "sll"
  | shiftRightArith => "sra"
  | shiftRightLogic => "srl"
  | lessSigned => "slt"
  | lessUnsigned => "sltu"

def arity : Operator → Nat
  | identity | toFloatRegister | toGeneralRegister | neg | negFloat | absFloat | sqrtFloat
  | intToFloat | floatToInt | not => 1
  | _ => 2

/-- Whether the operator computes a float from floats. -/
def isFloat : Operator → Bool
  | addFloat | subFloat | mulFloat | divFloat | minFloat | maxFloat | negFloat | absFloat
  | sqrtFloat => true
  | _ => false

end Operator

structure Expression where
  operator : Operator
  args : List Atom
deriving DecidableEq, Inhabited, Repr

namespace Expression

def copy (a : Atom) : Expression := ⟨.identity, [a]⟩

/-- The operand of an expression that copies one. -/
def copied? : Expression → Option Atom
  | ⟨.identity, [a]⟩ => some a
  | _ => none

def vars (e : Expression) : List Variable := e.args.filterMap Atom.var?

def reads (e : Expression) : RegisterSet := Atom.registersOf e.args

end Expression

end Decompiler
