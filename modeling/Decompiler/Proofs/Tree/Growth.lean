import Decompiler.Proofs.Fold.Advance
import Decompiler.Proofs.Tree.Ownership

/-!
Pools that grow.  Adding an element or a form leaves the elements and forms that are there as
they are, up to the parents that they know; so whatever is told from elements and the forms
they have can still be told in a larger pool.
-/

namespace Decompiler

namespace Pool

/-- The second pool has the elements and forms of the first, and maybe more. -/
structure Extends (p q : Pool) : Prop where
  elements_le : p.elements.size ≤ q.elements.size
  forms_le : p.forms.size ≤ q.forms.size
  element_eq : ∀ e : ElementId, e.index < p.elements.size → q.element e = p.element e
  elementsOf_eq : ∀ f : FormId, f.index < p.forms.size → q.elementsOf f = p.elementsOf f

namespace Extends

theorem refl (p : Pool) : p.Extends p :=
  ⟨Nat.le_refl _, Nat.le_refl _, fun _ _ => rfl, fun _ _ => rfl⟩

theorem trans {p q q' : Pool} (h : p.Extends q) (h' : q.Extends q') : p.Extends q' where
  elements_le := Nat.le_trans h.elements_le h'.elements_le
  forms_le := Nat.le_trans h.forms_le h'.forms_le
  element_eq e he :=
    (h'.element_eq e (Nat.lt_of_lt_of_le he h.elements_le)).trans (h.element_eq e he)
  elementsOf_eq f hf :=
    (h'.elementsOf_eq f (Nat.lt_of_lt_of_le hf h.forms_le)).trans (h.elementsOf_eq f hf)

end Extends

variable (p : Pool) {f : FormId} {e : ElementId}

theorem element_adoptElements (es : List ElementId) (f : FormId) (e : ElementId) :
    (p.adoptElements es f).element e = p.element e := by
  rw [element, element, getElem?_adoptElements]
  split
  · rw [Option.map_map]
    rfl
  · rfl

theorem elementsOf_eq_getD (f : FormId) :
    p.elementsOf f = (p.forms[f.index]?.map Form.elements).getD [] := by
  rw [elementsOf, form, Array.getD_eq_getD_getElem?]
  cases p.forms[f.index]? <;> rfl

theorem elementsOf_adoptForms (fs : List FormId) (e : ElementId) (f : FormId) :
    (p.adoptForms fs e).elementsOf f = p.elementsOf f := by
  rw [elementsOf_eq_getD, elements_getElem?_adoptForms, ← elementsOf_eq_getD]

theorem forms_size_adoptForms (fs : List FormId) (e : ElementId) :
    (p.adoptForms fs e).forms.size = p.forms.size := by
  change (fs.foldl (adoptForm e) p.forms).size = _
  induction fs generalizing p with
  | nil => rfl
  | cons f fs ih =>
    rw [List.foldl_cons]
    exact (ih { p with forms := adoptForm e p.forms f }).trans (Array.size_modify ..)

theorem extends_addElement (element : Element) : p.Extends (p.addElement element).2 where
  elements_le := Nat.le_of_lt (by rw [size_addElement]; omega)
  forms_le := Nat.le_of_eq (forms_size_adoptForms ..).symm
  element_eq e he := by
    change (((p.elements.push ⟨none, element⟩)[e.index]?.map ElementSlot.element).getD .empty) = _
    rw [Array.getElem?_push_lt he, Pool.element, Array.getElem?_eq_getElem he]
  elementsOf_eq f _ := elementsOf_adoptForms ..

theorem extends_addForm (es : List ElementId) : p.Extends (p.addForm es).2 where
  elements_le := Nat.le_of_eq (p.size_addForm es).symm
  forms_le := by
    change _ ≤ (p.forms.push ⟨none, es⟩).size
    rw [Array.size_push]
    exact Nat.le_succ _
  element_eq e _ := element_adoptElements ..
  elementsOf_eq f hf := by
    change (((p.forms.push ⟨none, es⟩).getD f.index ⟨none, []⟩).elements) = _
    rw [Array.getD_eq_getD_getElem?, Array.getElem?_push_lt hf, elementsOf, form,
      Array.getD_eq_getD_getElem?, Array.getElem?_eq_getElem hf]

theorem extends_addSingle (element : Element) : p.Extends (p.addSingle element).2 :=
  (p.extends_addElement element).trans (extends_addForm _ _)

@[simp] theorem element_addElement_self (element : Element) :
    (p.addElement element).2.element (p.addElement element).1 = element := by
  change (((p.elements.push ⟨none, element⟩)[p.elements.size]?.map ElementSlot.element).getD
    .empty) = _
  rw [Array.getElem?_push_size]
  rfl

@[simp] theorem elementsOf_addForm_self (es : List ElementId) :
    (p.addForm es).2.elementsOf (p.addForm es).1 = es := by
  change (((p.forms.push ⟨none, es⟩).getD p.forms.size ⟨none, []⟩).elements) = _
  rw [Array.getD_eq_getD_getElem?, Array.getElem?_push_size]
  rfl

theorem addElement_lt (element : Element) :
    (p.addElement element).1.index < (p.addElement element).2.elements.size := by
  rw [size_addElement]
  exact Nat.lt_succ_self _

theorem addForm_lt (es : List ElementId) :
    (p.addForm es).1.index < (p.addForm es).2.forms.size := by
  change _ < (p.forms.push ⟨none, es⟩).size
  rw [Array.size_push]
  exact Nat.lt_succ_self _

variable {element : Element} {q : Pool}

/-- The form of a new element has this element in every larger pool. -/
theorem Extends.single {p : Pool} (h : (p.addSingle element).2.Extends q) :
    ∃ e : ElementId, e.index < q.elements.size ∧ q.elementsOf (p.addSingle element).1 = [e] ∧
      q.element e = element := by
  let added := p.addElement element
  have hsize : added.1.index < (p.addSingle element).2.elements.size := by
    rw [size_addSingle]
    exact Nat.lt_succ_self _
  refine ⟨added.1, Nat.lt_of_lt_of_le hsize h.elements_le, ?_, ?_⟩
  · exact (h.elementsOf_eq _ (addForm_lt added.2 [added.1])).trans (elementsOf_addForm_self ..)
  · calc q.element added.1
        = (p.addSingle element).2.element added.1 := h.element_eq _ hsize
      _ = added.2.element added.1 := element_adoptElements ..
      _ = element := p.element_addElement_self element

theorem single?_of_elementsOf {p : Pool} (h : p.elementsOf f = [e]) : p.single? f = some e := by
  rw [single?, h]

theorem elementsOf_of_single? {p : Pool} (h : p.single? f = some e) : p.elementsOf f = [e] := by
  unfold single? at h
  split at h
  · rename_i hform
    rwa [Option.some.inj h] at hform
  · cases h

theorem mem_of_single? {p : Pool} (h : p.single? f = some e) : e ∈ p.elementsOf f := by
  rw [elementsOf_of_single? h]
  exact List.mem_singleton_self e

theorem Extends.single?_addSingle {p : Pool} (h : (p.addSingle element).2.Extends q) :
    (q.single? (p.addSingle element).1).map q.element = some element := by
  obtain ⟨e, -, hform, helem⟩ := h.single
  rw [single?_of_elementsOf hform, Option.map_some, helem]

end Pool

end Decompiler
