import Decompiler.Proofs.Tree.Traversal

/-!
The order of evaluation.  A form evaluates its elements in order, and an element evaluates
its child forms before it acts itself.  What can be told apart from outside are the effects
and the reads of memory; the trace of a tree has these in order.
-/

namespace Decompiler

open List

/-- What an element does besides computing a value. -/
inductive Effect
  | call
  | store
  /-- An operation that is left as it is. -/
  | operation
deriving DecidableEq, Repr

namespace Element

variable {element : Element}

/-- The effect of the element itself, apart from its children. -/
def effect? : Element → Option Effect
  | apply (.callee _) _ | call _ _ => some .call
  | setPlace _ _ | store _ => some .store
  | operation _ _ => some .operation
  | _ => none

def isPlace : Element → Bool
  | load _ _ _ _ _ | path _ _ _ => true
  | _ => false

/-- Whether it matters when the element is evaluated. -/
def isObserved (element : Element) : Bool := element.effect?.isSome || element.isPlace

theorem hasLocalEffect_of_effect? (h : element.effect?.isSome = true) :
    element.hasLocalEffect = true := by
  cases element with
  | apply head args => cases head <;> first | rfl | cases h
  | _ => first | rfl | cases h

theorem effect?_of_isPlace (h : element.isPlace = true) : element.effect? = none := by
  cases element <;> first | rfl | cases h

theorem isObserved_of_effect? (h : element.effect?.isSome = true) : element.isObserved = true := by
  rw [isObserved, h, Bool.true_or]

theorem isObserved_of_isPlace (h : element.isPlace = true) : element.isObserved = true := by
  rw [isObserved, h, Bool.or_true]

end Element

/-- Whether an element only puts together what its children bring.  Of itself it reads nothing,
leaves nothing behind and cannot be observed. -/
def Element.isPlain : Element → Bool
  | .atom a => a.register?.isNone
  | .text _ | .divide _ _ _ _ | .condition _ _ _ _ _ | .cast _ _ _ | .apply (.builtin _) _ => true
  | _ => false

theorem Element.isObserved_of_isPlain {element : Element} (h : element.isPlain = true) :
    element.isObserved = false := by
  cases element with
  | apply head args => cases head <;> first | rfl | cases h
  | _ => first | rfl | cases h

/-- An element that is evaluated, with its handle. -/
abbrev Observation := ElementId × Element

/-- What can be observed of an element itself. -/
def Element.observation (element : Element) (e : ElementId) : List Observation :=
  if element.isObserved then [(e, element)] else []

/-- The element itself, unless it is plain. -/
def Element.substance (element : Element) (e : ElementId) : List Observation :=
  if element.isPlain then [] else [(e, element)]

def Observation.performed (o : Observation) : Option (ElementId × Effect) :=
  o.2.effect?.map fun effect => (o.1, effect)

/-- What is evaluated for a form, in order. -/
def FormTree.evaluated : FormTree → List Observation :=
  FormTree.fold fun _ nodes => nodes.flatMap fun n => n.kids.flatten ++ [(n.id, n.element)]

def Node.evaluated (n : Node FormTree) : List Observation :=
  n.kids.flatMap FormTree.evaluated ++ [(n.id, n.element)]

/-- What a form is made of, in order of evaluation, apart from plain elements. -/
def FormTree.substance (t : FormTree) : List Observation := t.evaluated.filter fun o => !o.2.isPlain

def Node.substance (n : Node FormTree) : List Observation :=
  n.evaluated.filter fun o => !o.2.isPlain

/-- What can be observed of a form, in order. -/
def FormTree.trace (t : FormTree) : List Observation := t.evaluated.filter fun o => o.2.isObserved

def Node.trace (n : Node FormTree) : List Observation := n.evaluated.filter fun o => o.2.isObserved

@[simp] theorem FormTree.evaluated_mk (f : FormId) (nodes : List (Node FormTree)) :
    (FormTree.mk f nodes).evaluated = nodes.flatMap Node.evaluated := by
  rw [FormTree.evaluated, FormTree.fold_mk, flatMap_map]
  rfl

@[simp] theorem FormTree.trace_mk (f : FormId) (nodes : List (Node FormTree)) :
    (FormTree.mk f nodes).trace = nodes.flatMap Node.trace := by
  rw [FormTree.trace, evaluated_mk, filter_flatMap]
  rfl

/-- The trees below an element are observed before the element itself. -/
theorem Node.trace_eq (n : Node FormTree) :
    n.trace = n.kids.flatMap FormTree.trace ++ n.element.observation n.id := by
  rw [Node.trace, Node.evaluated, filter_append, filter_flatMap, filter_singleton, cond_eq_ite]
  rfl

@[simp] theorem FormTree.substance_mk (f : FormId) (nodes : List (Node FormTree)) :
    (FormTree.mk f nodes).substance = nodes.flatMap Node.substance := by
  rw [FormTree.substance, evaluated_mk, filter_flatMap]
  rfl

theorem FormTree.substance_single (f : FormId) (n : Node FormTree) :
    (FormTree.mk f [n]).substance = n.substance := by
  rw [substance_mk, flatMap_singleton]

theorem Node.substance_eq (n : Node FormTree) :
    n.substance = n.kids.flatMap FormTree.substance ++ n.element.substance n.id := by
  rw [Node.substance, Node.evaluated, filter_append, filter_flatMap,
    filter_singleton, Element.substance]
  cases n.element.isPlain <;> rfl

theorem Node.substance_of_isPlain {n : Node FormTree} (h : n.element.isPlain = true) :
    n.substance = n.kids.flatMap FormTree.substance := by
  rw [Node.substance_eq, Element.substance, if_pos h, append_nil]

/-- What can be observed is part of the substance. -/
theorem filter_isObserved (os : List Observation) :
    (os.filter fun o => !o.2.isPlain).filter (fun o => o.2.isObserved) =
      os.filter fun o => o.2.isObserved := by
  rw [filter_filter]
  refine filter_congr fun o _ => ?_
  cases hplain : o.2.isPlain with
  | false => rw [Bool.not_false, Bool.and_true]
  | true => rw [Element.isObserved_of_isPlain hplain, Bool.false_and]

/-- Every element of a tree is evaluated once. -/
theorem FormTree.evaluated_perm (t : FormTree) : (t.evaluated.map Prod.fst).Perm t.elements := by
  induction t using FormTree.induct with
  | h f nodes ih =>
    rw [evaluated_mk, elements_mk, map_flatMap]
    refine List.Perm.flatMap_left _ fun n hn => ?_
    rw [Node.evaluated, Node.elements, map_append, map_flatMap]
    exact (perm_append_singleton _ _).trans
      ((List.Perm.flatMap_left _ fun t ht => ih n hn t ht).cons _)

theorem Node.evaluated_perm (n : Node FormTree) : (n.evaluated.map Prod.fst).Perm n.elements := by
  have hn := (FormTree.mk default [n]).evaluated_perm
  rw [FormTree.evaluated_mk, FormTree.elements_mk, flatMap_singleton, flatMap_singleton] at hn
  exact hn

theorem FormTree.trace_nodup (t : FormTree) (h : t.elements.Nodup) : t.trace.Nodup :=
  ((t.evaluated_perm.nodup_iff.2 h).of_map _).filter _

namespace Pool

def evaluatedWithin (p : Pool) : Nat → ElementId → List ElementId
  | 0, _ => []
  | depth + 1, e =>
    ((p.element e).children.flatMap fun f =>
      (p.elementsOf f).flatMap (p.evaluatedWithin depth)) ++ [e]

/-- What is evaluated for an element: all below its child forms, in order, and then the
element itself. -/
def evaluatedUnder (p : Pool) (e : ElementId) : List ElementId :=
  p.evaluatedWithin p.elements.size e

def evaluated (p : Pool) (f : FormId) : List ElementId :=
  (p.elementsOf f).flatMap p.evaluatedUnder

def effectsOf (p : Pool) (es : List ElementId) : List (ElementId × Effect) :=
  es.filterMap fun e => (p.element e).effect?.map fun effect => (e, effect)

variable {p : Pool} {t : FormTree} {n : Node FormTree}

theorem HoldsNode.evaluatedWithin_eq (h : p.HoldsNode n) {depth : Nat}
    (hdepth : n.elements.length ≤ depth) :
    p.evaluatedWithin depth n.id = n.evaluated.map Prod.fst := by
  induction depth generalizing n with
  | zero =>
    rw [Node.elements, length_cons] at hdepth
    omega
  | succ depth ih =>
    rw [evaluatedWithin, h.element_eq, h.kids, flatMap_map, Node.evaluated, map_append, map_flatMap]
    congr 1
    refine flatMap_congr fun u hu => ?_
    rw [(h.below u hu).elementsOf_eq, flatMap_map]
    have hevaluated : u.evaluated = u.nodes.flatMap Node.evaluated := by
      cases u
      rw [FormTree.evaluated_mk, FormTree.nodes_mk]
    rw [hevaluated, map_flatMap]
    refine flatMap_congr fun m hm => ?_
    apply ih ((h.below u hu).node m hm)
    have := length_lt_of_kid hu hm
    omega

/-- What is evaluated in a pool for the root of a tree is what the tree says. -/
theorem Holds.evaluated_eq (h : p.Holds t) (hnodup : t.elements.Nodup) :
    p.evaluated t.id = t.evaluated.map Prod.fst := by
  rw [evaluated, h.elementsOf_eq, flatMap_map]
  cases t with
  | mk f nodes =>
    rw [FormTree.evaluated_mk, FormTree.nodes_mk, map_flatMap]
    exact flatMap_congr fun n hn =>
      (h.node n hn).evaluatedWithin_eq (h.length_le_size hnodup hn)

theorem Holds.element_eq_of_evaluated (h : p.Holds t) : ∀ o ∈ t.evaluated, p.element o.1 = o.2 := by
  induction h with
  | @mk f nodes parent hform hslots hkids hlinks hbelow ih =>
    have hholds : p.Holds (.mk f nodes) := ⟨parent, hform, hslots, hkids, hlinks, hbelow⟩
    intro o ho
    rw [FormTree.evaluated_mk] at ho
    obtain ⟨n, hn, ho⟩ := mem_flatMap.1 ho
    rcases mem_append.1 ho with ho | ho
    · obtain ⟨t, ht, ho⟩ := mem_flatMap.1 ho
      exact ih n hn t ht o ho
    · rw [mem_singleton] at ho
      subst ho
      exact (hholds.node n hn).element_eq

theorem HoldsNode.element_eq_of_evaluated (h : p.HoldsNode n) :
    ∀ o ∈ n.evaluated, p.element o.1 = o.2 := by
  intro o ho
  rcases mem_append.1 ho with ho | ho
  · obtain ⟨t, ht, ho⟩ := mem_flatMap.1 ho
    exact (h.below t ht).element_eq_of_evaluated o ho
  · rw [mem_singleton] at ho
    subst ho
    exact h.element_eq

theorem Owns.evaluatedUnder_eq (h : p.Owns [.node n]) :
    p.evaluatedUnder n.id = n.evaluated.map Prod.fst := by
  have hle := length_le_size h.elements h.elements_lt
  rw [flatMap_singleton] at hle
  exact HoldsNode.evaluatedWithin_eq (h.holds _ mem_cons_self) hle

/-- A form of one plain element without children has no substance. -/
theorem Holds.substance_of_leaf {element : Element} (h : p.Holds t)
    (hsingle : (p.single? t.id).map p.element = some element) (hchildren : element.children = [])
    (hplain : element.isPlain = true) : t.substance = [] := by
  obtain ⟨e, kids, htree, hnode⟩ := h.exists_element hsingle
  obtain rfl : kids = [] := map_eq_nil_iff.1 (hnode.kids.symm.trans hchildren)
  rw [htree, FormTree.substance_single, Node.substance_of_isPlain hplain]
  rfl

/-- A form without an effect shows none. -/
theorem Holds.effect?_eq_none (h : p.Holds t) (hnodup : t.elements.Nodup)
    (hpure : p.formHasEffect t.id = false) : ∀ o ∈ t.evaluated, o.2.effect? = none := by
  intro o ho
  have hmem : o.1 ∈ p.elementsIn t.id := by
    rw [h.elementsIn_eq hnodup]
    exact t.evaluated_perm.subset (mem_map_of_mem ho)
  rw [formHasEffect, anyEffect, any_eq_false] at hpure
  have hnone := hpure o.1 hmem
  rw [h.element_eq_of_evaluated o ho] at hnone
  rw [← Option.not_isSome_iff_eq_none]
  exact fun heffect => hnone (Element.hasLocalEffect_of_effect? heffect)

/-- The effects among elements that were evaluated are those in the trace. -/
theorem effectsOf_evaluated {os : List Observation} (h : ∀ o ∈ os, p.element o.1 = o.2) :
    p.effectsOf (os.map Prod.fst) =
      (os.filter fun o => o.2.isObserved).filterMap Observation.performed := by
  rw [effectsOf, filterMap_map, filterMap_filter]
  refine filterMap_congr fun o ho => ?_
  rw [Function.comp_apply, h o ho]
  split
  · rfl
  · rename_i hobserved
    cases heffect : o.2.effect? with
    | none => rfl
    | some effect =>
      exact absurd (Element.isObserved_of_effect? (by rw [heffect]; rfl)) hobserved

end Pool

end Decompiler
