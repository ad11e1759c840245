import Decompiler.Machine.Register

/-!
Finite sets of registers, one bit for each register.
-/

namespace Decompiler

/-- A set of registers; bit `i` is set when the register at position `i` is a
member. -/
@[ext]
structure RegisterSet where
  bits : BitVec 67
deriving DecidableEq, Repr

namespace RegisterSet

instance : EmptyCollection RegisterSet := ⟨⟨0⟩⟩

instance : Inhabited RegisterSet := ⟨∅⟩

def contains (s : RegisterSet) (r : Register) : Bool := s.bits.getLsbD r.index

instance : Membership Register RegisterSet := ⟨fun s r => s.contains r = true⟩

instance (s : RegisterSet) (r : Register) : Decidable (r ∈ s) :=
  inferInstanceAs (Decidable (s.contains r = true))

def single (r : Register) : RegisterSet := ⟨BitVec.twoPow 67 r.index⟩

def union (s t : RegisterSet) : RegisterSet := ⟨s.bits ||| t.bits⟩

def inter (s t : RegisterSet) : RegisterSet := ⟨s.bits &&& t.bits⟩

/-- The registers of the first set that are not in the second. -/
def diff (s t : RegisterSet) : RegisterSet := ⟨s.bits &&& ~~~t.bits⟩

instance : Union RegisterSet := ⟨union⟩

instance : Inter RegisterSet := ⟨inter⟩

instance : SDiff RegisterSet := ⟨diff⟩

def insert (s : RegisterSet) (r : Register) : RegisterSet := s ∪ single r

def erase (s : RegisterSet) (r : Register) : RegisterSet := s \ single r

def ofList (rs : List Register) : RegisterSet := rs.foldl insert ∅

/-- The members, in order of position. -/
def toList (s : RegisterSet) : List Register := Register.all.filter s.contains

def size (s : RegisterSet) : Nat := s.toList.length

def isEmpty (s : RegisterSet) : Bool := s == ∅

def intersects (s t : RegisterSet) : Bool := !(s ∩ t).isEmpty

/-- The names of the members between braces. -/
def text (s : RegisterSet) : String :=
  "\x7b" ++ ", ".intercalate (s.toList.map Register.name) ++ "\x7d"

theorem mem_def {s : RegisterSet} {r : Register} :
    r ∈ s ↔ s.bits.getLsbD r.index = true := Iff.rfl

theorem ext_mem {s t : RegisterSet} (h : ∀ r, r ∈ s ↔ r ∈ t) : s = t := by
  apply RegisterSet.ext
  apply BitVec.eq_of_getLsbD_eq
  intro i hi
  have := h ⟨⟨i, hi⟩⟩
  simp only [mem_def] at this
  exact Bool.eq_iff_iff.mpr this

@[simp] theorem not_mem_empty (r : Register) : ¬ r ∈ (∅ : RegisterSet) := by
  simp [mem_def, EmptyCollection.emptyCollection]

@[simp] theorem mem_union {s t : RegisterSet} {r : Register} :
    r ∈ s ∪ t ↔ r ∈ s ∨ r ∈ t := by
  simp [mem_def, Union.union, union]

@[simp] theorem mem_inter {s t : RegisterSet} {r : Register} :
    r ∈ s ∩ t ↔ r ∈ s ∧ r ∈ t := by
  simp [mem_def, Inter.inter, inter]

@[simp] theorem mem_diff {s t : RegisterSet} {r : Register} :
    r ∈ s \ t ↔ r ∈ s ∧ ¬ r ∈ t := by
  simp [mem_def, SDiff.sdiff, diff]

@[simp] theorem mem_single {r q : Register} : r ∈ single q ↔ r = q := by
  simp only [mem_def, single, BitVec.getLsbD_twoPow, Register.ext_iff, Fin.ext_iff]
  simp [eq_comm]

@[simp] theorem mem_insert {s : RegisterSet} {r q : Register} :
    r ∈ s.insert q ↔ r ∈ s ∨ r = q := by
  simp [insert]

theorem mem_foldl_union {α : Type} {f : α → RegisterSet} {as : List α} {s : RegisterSet}
    {r : Register} : r ∈ as.foldl (fun acc a => acc ∪ f a) s ↔ r ∈ s ∨ ∃ a ∈ as, r ∈ f a := by
  induction as generalizing s with
  | nil => simp
  | cons a as ih => simp [ih, or_assoc]

theorem mem_ofList {rs : List Register} {r : Register} : r ∈ ofList rs ↔ r ∈ rs := by
  suffices hfold : ∀ s : RegisterSet, r ∈ rs.foldl insert s ↔ r ∈ s ∨ r ∈ rs by
    simp [ofList, hfold]
  induction rs with
  | nil => simp
  | cons q rs ih =>
    intro s
    rw [List.foldl_cons, ih, mem_insert, List.mem_cons, or_assoc]

end RegisterSet

end Decompiler
