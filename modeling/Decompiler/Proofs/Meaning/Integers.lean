import Decompiler.Proofs.Meaning.Pending

/-!
Integer code.  Its operators have a result on any integers, and that is no float.
-/

namespace Decompiler

open List

def Register.isPlain (r : Register) : Bool := r != .zero && r != .hi && r != .lo && r != .fcc

def Atom.isInteger : Atom → Bool
  | .var v => v.register.isPlain
  | .float _ | .label _ => false
  | .int _ | .symbol _ | .global _ | .nil => true

def Operator.isInteger : Operator → Bool
  | .identity | .add | .sub | .mulSigned | .mulUnsigned | .neg | .and | .or | .xor | .nor | .not
  | .shiftLeft | .shiftRightArith | .shiftRightLogic | .lessSigned | .lessUnsigned => true
  | _ => false

def Expression.isInteger (e : Expression) : Bool :=
  e.operator.isInteger && e.args.length == e.operator.arity && e.args.all Atom.isInteger

/-- No variable of some registers is known to be a float, and conversions are the usual ones. -/
structure TypeEnv.NoFloats (env : TypeEnv) (rs : RegisterSet) : Prop where
  variableType_ne : ∀ v : Variable, v.register ∈ rs → env.variableType v ≠ some .float
  coercion_eq : env.coercion = standardCoercion

/-- A built-in operator has a result on any integers of a given number. -/
def Builtin.Takes (b : Builtin) (n : Nat) : Prop :=
  ∀ ws : List Word, ws.length = n → ∃ w, b.compute ws = some w

variable {b : Builtin}

theorem Builtin.takes_one (h : ∀ a, ∃ w, b.compute [a] = some w) : b.Takes 1 := by
  intro ws hws
  obtain ⟨a, rfl⟩ := length_eq_one_iff.1 hws
  exact h a

theorem Builtin.takes_two (h : ∀ x y, ∃ w, b.compute [x, y] = some w) : b.Takes 2 := by
  intro ws hws
  obtain ⟨x, y, rfl⟩ := length_eq_two.1 hws
  exact h x y

/-- The result of an operator on integers has the type of an operand, if it has one. -/
theorem Builtin.Takes.resultType {n : Nat} (h : b.Takes n) {types : List (Option TypeName)}
    (htype : b.resultType types = some .float) : some .float ∈ types := by
  obtain ⟨w, hw⟩ := h (List.replicate n 0) (length_replicate ..)
  have hfound : types.findSome? id = some .float → some .float ∈ types := by
    intro hfound
    obtain ⟨type, hmem, htype⟩ := exists_of_findSome?_eq_some hfound
    exact htype ▸ hmem
  cases b
  case setLess | setLessUnsigned => cases htype
  case add | sub | mul | logAnd | logIor | logXor | logNor | logNot | shiftLeft | shiftRightArith |
      shiftRightLogic => exact hfound htype
  all_goals simp [compute] at hw

/-- Between types other than that of floats nothing is converted as a number. -/
theorem standardCoercion_ne_numeric {desired actual : TypeName} (hdesired : desired ≠ .float)
    (hactual : actual ≠ .float) : standardCoercion desired actual ≠ .numeric := by
  have hfloat : ∀ type : TypeName, type ≠ .float → type.isFloat = false := by
    intro type htype
    cases type with
    | float => exact absurd rfl htype
    | _ => rfl
  rw [standardCoercion, hfloat _ hdesired, hfloat _ hactual, Bool.false_and,
    Bool.and_false, Bool.or_false, if_neg Bool.false_ne_true]
  split <;> exact fun h => by cases h

end Decompiler
