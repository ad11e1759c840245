import Decompiler.Tree.Element

/-!
The store of elements and forms.  Nothing is ever removed; an element knows the form
it stands in and a form the element it is a child of.
-/

namespace Decompiler

/-- An element with the form that it stands in. -/
structure ElementSlot where
  parent : Option FormId
  element : Element
deriving DecidableEq, Inhabited, Repr

/-- A sequence of elements with the element that it is a child of. -/
structure Form where
  parent : Option ElementId
  elements : List ElementId
deriving DecidableEq, Inhabited, Repr

/-- All elements and forms of one reconstruction. -/
structure Pool where
  elements : Array ElementSlot
  forms : Array Form
deriving DecidableEq, Repr

namespace Pool

def empty : Pool := ⟨#[], #[]⟩

instance : Inhabited Pool := ⟨empty⟩

/-- The element of a handle; a handle that was never given out stands for nothing. -/
def element (p : Pool) (e : ElementId) : Element :=
  (p.elements[e.index]?.map ElementSlot.element).getD .empty

def form (p : Pool) (f : FormId) : Form := p.forms.getD f.index ⟨none, []⟩

def elementsOf (p : Pool) (f : FormId) : List ElementId := (p.form f).elements

def parentForm? (p : Pool) (e : ElementId) : Option FormId :=
  p.elements[e.index]?.bind ElementSlot.parent

def parentElement? (p : Pool) (f : FormId) : Option ElementId := (p.form f).parent

def single? (p : Pool) (f : FormId) : Option ElementId :=
  match p.elementsOf f with
  | [e] => some e
  | _ => none

def adoptForm (e : ElementId) (forms : Array Form) (f : FormId) : Array Form :=
  forms.modify f.index fun form => { form with parent := some e }

def adoptElement (f : FormId) (slots : Array ElementSlot) (e : ElementId) : Array ElementSlot :=
  slots.modify e.index fun slot => { slot with parent := some f }

def adoptForms (p : Pool) (fs : List FormId) (e : ElementId) : Pool :=
  { p with forms := fs.foldl (adoptForm e) p.forms }

def adoptElements (p : Pool) (es : List ElementId) (f : FormId) : Pool :=
  { p with elements := es.foldl (adoptElement f) p.elements }

/-- Adds an element and makes it the parent of its child forms. -/
def addElement (p : Pool) (element : Element) : ElementId × Pool :=
  let e : ElementId := ⟨p.elements.size⟩
  (e, { p with elements := p.elements.push ⟨none, element⟩ }.adoptForms element.children e)

/-- Adds a form of existing elements. -/
def addForm (p : Pool) (es : List ElementId) : FormId × Pool :=
  let f : FormId := ⟨p.forms.size⟩
  (f, { p.adoptElements es f with forms := p.forms.push ⟨none, es⟩ })

def addSingle (p : Pool) (element : Element) : FormId × Pool :=
  let (e, p) := p.addElement element
  p.addForm [e]

def addEmpty (p : Pool) : FormId × Pool := p.addSingle .empty

/-- Puts another element in the place of one. -/
def replace (p : Pool) (e : ElementId) (element : Element) : Pool :=
  let p := p.adoptForms element.children e
  { p with elements := p.elements.modify e.index fun slot => { slot with element := element } }

def setElements (p : Pool) (f : FormId) (es : List ElementId) : Pool :=
  let p := p.adoptElements es f
  { p with forms := p.forms.modify f.index fun form => { form with elements := es } }

/-- Adds a form of elements, an empty one if there are none. -/
def addBody (p : Pool) (es : List ElementId) : FormId × Pool :=
  if es.isEmpty then p.addEmpty else p.addForm es

end Pool

end Decompiler
