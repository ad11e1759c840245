/-!
Machine registers.  A register is a position in a file of 67: 32 general
registers, 32 float registers, and the three registers that some operations
write implicitly.
-/

namespace Decompiler

inductive RegisterClass
  | general
  | float
  | special
deriving DecidableEq, Inhabited, Repr

/-- Positions in the register file are written as numerals. -/
instance registerFile_neZero : @NeZero Nat Zero.ofOfNat0 67 := ⟨by decide⟩

/-- A register, by its position in the register file. -/
@[ext]
structure Register where
  index : Fin 67
deriving DecidableEq, Inhabited, Repr

namespace Register

def count : Nat := 67

/-- The assembler names, in order of position. -/
def names : List String :=
  ["r0", "at", "v0", "v1", "a0", "a1", "a2", "a3",
   "t0", "t1", "t2", "t3", "t4", "t5", "t6", "t7",
   "s0", "s1", "s2", "s3", "s4", "s5", "s6", "s7",
   "t8", "t9", "k0", "k1", "gp", "sp", "fp", "ra",
   "f0", "f1", "f2", "f3", "f4", "f5", "f6", "f7",
   "f8", "f9", "f10", "f11", "f12", "f13", "f14", "f15",
   "f16", "f17", "f18", "f19", "f20", "f21", "f22", "f23",
   "f24", "f25", "f26", "f27", "f28", "f29", "f30", "f31",
   "hi", "lo", "fcc"]

/-- The constant-zero register. -/
def zero : Register := ⟨0⟩

/-- The register that holds results by convention. -/
def v0 : Register := ⟨2⟩

/-- The register that holds the base of the static data of a routine. -/
def fp : Register := ⟨30⟩

/-- The register that receives remainders. -/
def hi : Register := ⟨64⟩

/-- The register that receives quotients. -/
def lo : Register := ⟨65⟩

/-- The flag that float comparisons write. -/
def fcc : Register := ⟨66⟩

def ofIndex? (n : Nat) : Option Register :=
  if h : n < 67 then some ⟨⟨n, h⟩⟩ else none

/-- The general register with number `n`. -/
def general? (n : Nat) : Option Register :=
  if n < 32 then ofIndex? n else none

/-- The float register with number `n`. -/
def float? (n : Nat) : Option Register :=
  if n < 32 then ofIndex? (32 + n) else none

def all : List Register := (List.finRange 67).map Register.mk

def name (r : Register) : String := names.getD r.index "?"

def ofName? (s : String) : Option Register := all.find? fun r => r.name == s

def bank (r : Register) : RegisterClass :=
  if r.index.val < 32 then .general else if r.index.val < 64 then .float else .special

def isFloat (r : Register) : Bool := r.bank == .float

/-- The position of an argument register among the eight argument registers. -/
def argument? (r : Register) : Option Nat :=
  if 4 ≤ r.index.val ∧ r.index.val < 12 then some (r.index.val - 4) else none

instance : ToString Register := ⟨name⟩

end Register

end Decompiler
