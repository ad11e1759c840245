import Decompiler.Tree.Pool

/-!
What a tree reads, writes and does.  Every summary goes over the elements of the tree
in order: an element before the elements of its child forms.
-/

namespace Decompiler

namespace Pool

/-- An element and the elements below it, down to a depth. -/
def elementsWithin (p : Pool) : Nat → ElementId → List ElementId
  | 0, _ => []
  | depth + 1, e =>
    e :: (p.element e).children.flatMap fun f =>
      (p.elementsOf f).flatMap (p.elementsWithin depth)

/-- An element and all elements below it.  In a tree no path is longer than the number of
elements. -/
def elementsUnder (p : Pool) (e : ElementId) : List ElementId :=
  p.elementsWithin p.elements.size e

def elementsIn (p : Pool) (f : FormId) : List ElementId :=
  (p.elementsOf f).flatMap p.elementsUnder

/-- The variables that some elements read, in order and each once. -/
def readsOf (p : Pool) (es : List ElementId) : List Variable :=
  Variable.sorted (es.flatMap fun e => (p.element e).localReads)

def readRegistersOf (p : Pool) (es : List ElementId) : RegisterSet :=
  RegisterSet.ofList (es.flatMap fun e => (p.element e).localReads.map Variable.register)

def writesOf (p : Pool) (es : List ElementId) : RegisterSet :=
  es.foldl (fun acc e => acc ∪ (p.element e).localWrites) ∅

def anyEffect (p : Pool) (es : List ElementId) : Bool :=
  es.any fun e => (p.element e).hasLocalEffect

/-- The registers that some elements still read for the last time. -/
def consumedOf (p : Pool) (es : List ElementId) : RegisterSet :=
  es.foldl (fun acc e => acc ∪ (p.element e).localConsumed) ∅

def elementReads (p : Pool) (e : ElementId) : List Variable := p.readsOf (p.elementsUnder e)

def elementReadRegisters (p : Pool) (e : ElementId) : RegisterSet :=
  p.readRegistersOf (p.elementsUnder e)

def elementWrites (p : Pool) (e : ElementId) : RegisterSet := p.writesOf (p.elementsUnder e)

def elementHasEffect (p : Pool) (e : ElementId) : Bool := p.anyEffect (p.elementsUnder e)

def elementConsumed (p : Pool) (e : ElementId) : RegisterSet := p.consumedOf (p.elementsUnder e)

def formReads (p : Pool) (f : FormId) : List Variable := p.readsOf (p.elementsIn f)

def formReadRegisters (p : Pool) (f : FormId) : RegisterSet := p.readRegistersOf (p.elementsIn f)

def formWrites (p : Pool) (f : FormId) : RegisterSet := p.writesOf (p.elementsIn f)

def formHasEffect (p : Pool) (f : FormId) : Bool := p.anyEffect (p.elementsIn f)

/-- The number of elements in a form and below it. -/
def formSize (p : Pool) (f : FormId) : Nat := (p.elementsIn f).length

end Pool

end Decompiler
