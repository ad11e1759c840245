import Decompiler.Tree.Summary

/-!
Trees as values, and what it means that a pool holds one.  A pool holds a tree when
every form lists the elements of the tree, every element lists its child forms, and both
know where they stand.  Nothing is said about the place of the root.
-/

namespace Decompiler

open List

/-- An element with what stands for its child forms. -/
structure Node (T : Type) where
  id : ElementId
  element : Element
  kids : List T

/-- A form with its elements and all that is below them. -/
inductive FormTree
  | mk (id : FormId) (nodes : List (Node FormTree))

namespace FormTree

def id : FormTree → FormId
  | mk f _ => f

def nodes : FormTree → List (Node FormTree)
  | mk _ nodes => nodes

@[simp] theorem id_mk (f : FormId) (nodes : List (Node FormTree)) : (mk f nodes).id = f := rfl

@[simp] theorem nodes_mk (f : FormId) (nodes : List (Node FormTree)) :
    (mk f nodes).nodes = nodes := rfl

theorem sizeOf_kid_lt {f : FormId} {nodes : List (Node FormTree)} {n : Node FormTree}
    {t : FormTree} (hn : n ∈ nodes) (ht : t ∈ n.kids) : sizeOf t < sizeOf (mk f nodes) := by
  have hnode := sizeOf_lt_of_mem hn
  have hkid := sizeOf_lt_of_mem ht
  cases n
  simp only [Node.mk.sizeOf_spec, mk.sizeOf_spec] at *
  omega

/-- Induction over trees: a tree has a property if all trees right below it do. -/
theorem induct {P : FormTree → Prop}
    (h : ∀ f nodes, (∀ n ∈ nodes, ∀ t ∈ n.kids, P t) → P (mk f nodes)) : ∀ t, P t
  | mk f nodes => h f nodes fun _ _hn t _ht => induct h t
termination_by t => sizeOf t
decreasing_by exact sizeOf_kid_lt _hn _ht

/-- Computes a value for a form from the values of the forms below it. -/
def fold {α : Type} (rule : FormId → List (Node α) → α) : FormTree → α
  | mk f nodes => rule f (nodes.attach.map fun ⟨n, _hn⟩ =>
      ⟨n.id, n.element, n.kids.attach.map fun ⟨t, _ht⟩ => fold rule t⟩)
termination_by t => sizeOf t
decreasing_by exact sizeOf_kid_lt _hn _ht

theorem fold_mk {α : Type} (rule : FormId → List (Node α) → α) (f : FormId)
    (nodes : List (Node FormTree)) :
    fold rule (mk f nodes) =
      rule f (nodes.map fun n => ⟨n.id, n.element, n.kids.map (fold rule)⟩) := by
  rw [fold]
  congr 1
  simp

/-- The elements of a tree, an element before the elements below it. -/
def elements : FormTree → List ElementId :=
  fold fun _ nodes => nodes.flatMap fun n => n.id :: n.kids.flatten

/-- The forms of a tree, a form before the forms below it. -/
def forms : FormTree → List FormId :=
  fold fun f nodes => f :: nodes.flatMap fun n => n.kids.flatten

end FormTree

namespace Node

def elements (n : Node FormTree) : List ElementId := n.id :: n.kids.flatMap FormTree.elements

def forms (n : Node FormTree) : List FormId := n.kids.flatMap FormTree.forms

end Node

@[simp] theorem FormTree.elements_mk (f : FormId) (nodes : List (Node FormTree)) :
    (FormTree.mk f nodes).elements = nodes.flatMap Node.elements := by
  rw [FormTree.elements, FormTree.fold_mk, flatMap_map]
  rfl

@[simp] theorem FormTree.forms_mk (f : FormId) (nodes : List (Node FormTree)) :
    (FormTree.mk f nodes).forms = f :: nodes.flatMap Node.forms := by
  rw [FormTree.forms, FormTree.fold_mk, flatMap_map]
  rfl

theorem FormTree.forms_eq (t : FormTree) : t.forms = t.id :: t.nodes.flatMap Node.forms := by
  cases t
  rw [forms_mk, id_mk, nodes_mk]

theorem FormTree.id_mem_forms (t : FormTree) : t.id ∈ t.forms := by
  rw [forms_eq]
  exact mem_cons_self

namespace Pool

variable {p q : Pool} {t : FormTree} {n : Node FormTree}

/-- The pool holds a tree. -/
inductive Holds (p : Pool) : FormTree → Prop
  | mk {f : FormId} {nodes : List (Node FormTree)} (parent : Option ElementId)
      (hform : p.forms[f.index]? = some ⟨parent, nodes.map Node.id⟩)
      (hslots : ∀ n ∈ nodes, p.elements[n.id.index]? = some ⟨some f, n.element⟩)
      (hkids : ∀ n ∈ nodes, n.element.children = n.kids.map FormTree.id)
      (hlinks : ∀ n ∈ nodes, ∀ t ∈ n.kids, p.parentElement? t.id = some n.id)
      (hbelow : ∀ n ∈ nodes, ∀ t ∈ n.kids, p.Holds t) : p.Holds (.mk f nodes)

/-- The pool holds an element with the trees below it. -/
structure HoldsNode (p : Pool) (n : Node FormTree) : Prop where
  slot : p.elements[n.id.index]?.map ElementSlot.element = some n.element
  kids : n.element.children = n.kids.map FormTree.id
  links : ∀ t ∈ n.kids, p.parentElement? t.id = some n.id
  below : ∀ t ∈ n.kids, p.Holds t

variable {f : FormId}

theorem holds_mk_iff {nodes : List (Node FormTree)} :
    p.Holds (.mk f nodes) ↔
      p.forms[f.index]?.map Form.elements = some (nodes.map Node.id) ∧
        ∀ n ∈ nodes, p.parentForm? n.id = some f ∧ p.HoldsNode n := by
  constructor
  · rintro ⟨parent, hform, hslots, hkids, hlinks, hbelow⟩
    refine ⟨by rw [hform]; rfl, ?_⟩
    intro n hn
    refine ⟨by rw [parentForm?, hslots n hn]; rfl, ?_, hkids n hn, hlinks n hn, hbelow n hn⟩
    rw [hslots n hn]
    rfl
  · rintro ⟨hform, hnodes⟩
    obtain ⟨⟨parent, elements⟩, hlookup, helements⟩ := Option.map_eq_some_iff.1 hform
    change elements = _ at helements
    subst helements
    refine ⟨parent, hlookup, ?_, fun n hn => (hnodes n hn).2.kids,
      fun n hn => (hnodes n hn).2.links, fun n hn => (hnodes n hn).2.below⟩
    intro n hn
    obtain ⟨hparent, hnode⟩ := hnodes n hn
    obtain ⟨⟨place, element⟩, hslot, helem⟩ := Option.map_eq_some_iff.1 hnode.slot
    change element = _ at helem
    subst helem
    rw [parentForm?, hslot] at hparent
    change place = some f at hparent
    rw [hslot, hparent]

/-- Two pools are the same on some elements and forms. -/
structure Agrees (p q : Pool) (es : List ElementId) (fs : List FormId) : Prop where
  elements : ∀ e ∈ es, q.elements[e.index]? = p.elements[e.index]?
  forms : ∀ f ∈ fs, q.forms[f.index]? = p.forms[f.index]?

theorem Agrees.mono {es es' : List ElementId} {fs fs' : List FormId} (h : p.Agrees q es fs)
    (hes : es' ⊆ es) (hfs : fs' ⊆ fs) : p.Agrees q es' fs' :=
  ⟨fun e he => h.elements e (hes he), fun f hf => h.forms f (hfs hf)⟩

theorem parentElement?_congr (h : q.forms[f.index]? = p.forms[f.index]?) :
    q.parentElement? f = p.parentElement? f := by
  simp only [parentElement?, form, Array.getD_eq_getD_getElem?, h]

/-- Nothing outside a tree matters to it, and neither does the parent of its root. -/
theorem Holds.frame (h : p.Holds t)
    (hroot : q.forms[t.id.index]?.map Form.elements = p.forms[t.id.index]?.map Form.elements)
    (hinner : p.Agrees q (t.nodes.flatMap Node.elements) (t.nodes.flatMap Node.forms)) :
    q.Holds t := by
  induction h with
  | @mk f nodes parent hform hslots hkids hlinks hbelow ih =>
    change q.forms[f.index]?.map Form.elements = p.forms[f.index]?.map Form.elements at hroot
    change p.Agrees q (nodes.flatMap Node.elements) (nodes.flatMap Node.forms) at hinner
    rw [hform] at hroot
    obtain ⟨⟨newParent, elements⟩, hlookup, helements⟩ := Option.map_eq_some_iff.1 hroot
    change elements = nodes.map Node.id at helements
    subst helements
    -- Every form below an element of the root keeps its parent and its elements.
    have hkid : ∀ n ∈ nodes, ∀ t ∈ n.kids, q.forms[t.id.index]? = p.forms[t.id.index]? := by
      intro n hn t ht
      apply hinner.forms
      simp only [Node.forms, mem_flatMap]
      exact ⟨n, hn, t, ht, t.id_mem_forms⟩
    refine ⟨newParent, hlookup, ?_, hkids, ?_, ?_⟩
    · intro n hn
      rw [hinner.elements, hslots n hn]
      simp only [Node.elements, mem_flatMap]
      exact ⟨n, hn, mem_cons_self⟩
    · intro n hn t ht
      rw [parentElement?_congr (hkid n hn t ht), hlinks n hn t ht]
    · intro n hn t ht
      apply ih n hn t ht
      · rw [hkid n hn t ht]
      · apply hinner.mono
        · intro e he
          simp only [Node.elements, mem_flatMap]
          refine ⟨n, hn, mem_cons_of_mem _ (mem_flatMap.2 ⟨t, ht, ?_⟩)⟩
          cases t
          rw [FormTree.elements_mk]
          exact he
        · intro g hg
          simp only [Node.forms, mem_flatMap]
          refine ⟨n, hn, t, ht, ?_⟩
          cases t
          rw [FormTree.forms_mk]
          exact mem_cons_of_mem _ hg

theorem Holds.congr (h : p.Holds t) (hagrees : p.Agrees q t.elements t.forms) : q.Holds t := by
  apply h.frame
  · rw [hagrees.forms t.id t.id_mem_forms]
  · cases t with
    | mk f nodes =>
      rw [FormTree.elements_mk, FormTree.forms_mk] at hagrees
      exact hagrees.mono (List.Subset.refl _) (subset_cons_self _ _)

/-- An element keeps what it holds if it is not replaced and nothing below it changes. -/
theorem HoldsNode.frame (h : p.HoldsNode n)
    (hslot : q.elements[n.id.index]?.map ElementSlot.element =
      p.elements[n.id.index]?.map ElementSlot.element)
    (hbelow : p.Agrees q (n.kids.flatMap FormTree.elements) n.forms) : q.HoldsNode n := by
  have hkid : ∀ t ∈ n.kids, p.Agrees q t.elements t.forms := fun t ht =>
    hbelow.mono (fun e he => mem_flatMap.2 ⟨t, ht, he⟩)
      (fun f hf => mem_flatMap.2 ⟨t, ht, hf⟩)
  refine ⟨hslot.trans h.slot, h.kids, ?_, fun t ht => (h.below t ht).congr (hkid t ht)⟩
  intro t ht
  rw [parentElement?_congr ((hkid t ht).forms t.id t.id_mem_forms), h.links t ht]

theorem Holds.elements_lt (h : p.Holds t) : ∀ e ∈ t.elements, e.index < p.elements.size := by
  induction h with
  | @mk f nodes parent hform hslots hkids hlinks hbelow ih =>
    intro e he
    rw [FormTree.elements_mk, mem_flatMap] at he
    obtain ⟨n, hn, he⟩ := he
    rw [Node.elements, mem_cons, mem_flatMap] at he
    rcases he with rfl | ⟨t, ht, he⟩
    · exact (Array.getElem?_eq_some_iff.1 (hslots n hn)).1
    · exact ih n hn t ht e he

theorem Holds.forms_lt (h : p.Holds t) : ∀ f ∈ t.forms, f.index < p.forms.size := by
  induction h with
  | @mk f nodes parent hform hslots hkids hlinks hbelow ih =>
    intro g hg
    rw [FormTree.forms_mk, mem_cons, mem_flatMap] at hg
    rcases hg with rfl | ⟨n, hn, hg⟩
    · exact (Array.getElem?_eq_some_iff.1 hform).1
    · rw [Node.forms, mem_flatMap] at hg
      obtain ⟨t, ht, hg⟩ := hg
      exact ih n hn t ht g hg

theorem HoldsNode.elements_lt (h : p.HoldsNode n) :
    ∀ e ∈ n.elements, e.index < p.elements.size := by
  intro e he
  rw [Node.elements, mem_cons, mem_flatMap] at he
  rcases he with rfl | ⟨t, ht, he⟩
  · obtain ⟨slot, hslot, -⟩ := Option.map_eq_some_iff.1 h.slot
    exact (Array.getElem?_eq_some_iff.1 hslot).1
  · exact (h.below t ht).elements_lt e he

theorem HoldsNode.forms_lt (h : p.HoldsNode n) : ∀ f ∈ n.forms, f.index < p.forms.size := by
  intro f hf
  rw [Node.forms, mem_flatMap] at hf
  obtain ⟨t, ht, hf⟩ := hf
  exact (h.below t ht).forms_lt f hf

theorem HoldsNode.element_eq (h : p.HoldsNode n) : p.element n.id = n.element := by
  rw [element, h.slot]
  rfl

theorem Holds.elementsOf_eq (h : p.Holds t) : p.elementsOf t.id = t.nodes.map Node.id := by
  obtain ⟨parent, hform, -, -, -, -⟩ := h
  rw [elementsOf, form, Array.getD_eq_getD_getElem?, FormTree.id_mk, hform]
  rfl

theorem Holds.node (h : p.Holds t) : ∀ n ∈ t.nodes, p.HoldsNode n := by
  cases t with
  | mk f nodes =>
    intro n hn
    exact ((holds_mk_iff.1 h).2 n hn).2

/-- A form with one element is a tree with one node. -/
theorem Holds.exists_single {e : ElementId} (h : p.Holds t) (hsingle : p.single? t.id = some e) :
    ∃ n : Node FormTree, t = .mk t.id [n] ∧ n.id = e ∧ p.HoldsNode n := by
  rw [single?, h.elementsOf_eq] at hsingle
  cases t with
  | mk f nodes =>
    match nodes, hsingle with
    | [n], hsingle =>
      refine ⟨n, rfl, Option.some.inj hsingle, ?_⟩
      exact h.node n mem_cons_self

theorem Holds.exists_element {element : Element} (h : p.Holds t)
    (helem : (p.single? t.id).map p.element = some element) :
    ∃ (e : ElementId) (kids : List FormTree), t = .mk t.id [⟨e, element, kids⟩] ∧
      p.HoldsNode ⟨e, element, kids⟩ := by
  obtain ⟨e, hsingle, rfl⟩ := Option.map_eq_some_iff.1 helem
  obtain ⟨n, ht, rfl, hnode⟩ := h.exists_single hsingle
  rw [hnode.element_eq]
  exact ⟨n.id, n.kids, ht, hnode⟩

/-- A form that ends in an assignment is a tree that ends in a node with one tree below it. -/
theorem Holds.exists_trailingSet {dst : Variable} {source : FormId} {ordered : Bool}
    {notes : SetNotes} (h : p.Holds t)
    (hlast : (p.elementsOf t.id).getLast?.map p.element = some (.set dst source ordered notes)) :
    ∃ (init : List (Node FormTree)) (n : Node FormTree) (value : FormTree),
      t = .mk t.id (init ++ [n]) ∧ n.element = .set dst source ordered notes ∧
        n.kids = [value] ∧ value.id = source := by
  obtain ⟨e, he, helem⟩ := Option.map_eq_some_iff.1 hlast
  cases t with
  | mk f nodes =>
    rw [h.elementsOf_eq, FormTree.nodes_mk] at he
    rcases eq_nil_or_concat nodes with rfl | ⟨init, n, rfl⟩
    · cases he
    · rw [concat_eq_append] at h he ⊢
      rw [map_append, map_singleton, getLast?_concat] at he
      cases he
      have hnode : p.HoldsNode n := h.node n (mem_append_right _ mem_cons_self)
      rw [hnode.element_eq] at helem
      have hkids := hnode.kids
      rw [helem] at hkids
      obtain ⟨value, rest, hrest, hid, hnil⟩ := map_eq_cons_iff.1 hkids.symm
      rw [map_eq_nil_iff.1 hnil] at hrest
      exact ⟨init, n, value, rfl, helem, hrest, hid⟩

end Pool

end Decompiler
