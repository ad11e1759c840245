import Decompiler.Proofs.Tree.Ownership
import Mathlib.Algebra.BigOperators.Group.List.Basic
import Mathlib.Algebra.Order.Group.Multiset

/-!
Marks.  The elements that must be neither lost nor doubled leave marks: calls, stores,
operations and branches that stay as they are, and control structures.  The marks of a
tree are those of its elements, so taking trees apart and putting them together keeps
the marks.
-/

namespace Decompiler

open List

/-- What an element can leave behind. -/
inductive Mark
  | call
  | store
  | operation (site : Nat)
  | branch (site : Nat)
  /-- A control structure. -/
  | control
  /-- A control structure that was turned into a value. -/
  | rewritten
deriving DecidableEq

/-- The marks of an element, apart from its children. -/
def Element.marks : Element → Multiset Mark
  | .apply (.callee _) _ | .call _ _ => {.call}
  | .setPlace _ _ | .store _ => {.store}
  | .operation site _ => {.operation site}
  | .branch site _ => {.branch site}
  | .loop _ _ _ _ | .exit _ _ _ _ => {.control}
  | .condElse _ _ rewritten | .cond _ _ _ rewritten | .chain _ _ _ _ rewritten =>
    {if rewritten then .rewritten else .control}
  | _ => 0

def FormTree.marks : FormTree → Multiset Mark :=
  FormTree.fold fun _ nodes => (nodes.map fun n => n.element.marks + n.kids.sum).sum

/-- The marks of an element and of all below it. -/
def Node.marks (n : Node FormTree) : Multiset Mark :=
  n.element.marks + (n.kids.map FormTree.marks).sum

@[simp] theorem FormTree.marks_mk (f : FormId) (nodes : List (Node FormTree)) :
    (FormTree.mk f nodes).marks = (nodes.map Node.marks).sum := by
  rw [FormTree.marks, FormTree.fold_mk, map_map]
  rfl

theorem FormTree.marks_eq (t : FormTree) : t.marks = (t.nodes.map Node.marks).sum := by
  cases t with
  | mk f nodes => rw [marks_mk, nodes_mk]

/-- The marks of a tree are those of its elements. -/
theorem Pool.Holds.marks_eq {p : Pool} {t : FormTree} (h : p.Holds t) :
    t.marks = (t.elements.map fun e => (p.element e).marks).sum := by
  induction h with
  | @mk f nodes parent hform hslots hkids hlinks hbelow ih =>
    have hholds : p.Holds (.mk f nodes) := ⟨parent, hform, hslots, hkids, hlinks, hbelow⟩
    have hnode : ∀ n ∈ nodes,
        n.marks = (n.elements.map fun e => (p.element e).marks).sum := by
      intro n hn
      rw [Node.marks, Node.elements, map_cons, sum_cons, (hholds.node n hn).element_eq,
        map_flatMap, flatMap_def, sum_flatten, map_map]
      congr 2
      exact map_congr_left fun t ht => ih n hn t ht
    rw [FormTree.marks_mk, FormTree.elements_mk, map_flatMap, flatMap_def, sum_flatten, map_map]
    congr 1
    exact map_congr_left hnode

def Root.marks : Root → Multiset Mark
  | .tree t => t.marks
  | .node n => n.marks
  | .spareForm _ => 0
  | .spareElement _ => 0

def Root.allMarks (rs : List Root) : Multiset Mark := (rs.map Root.marks).sum

namespace Root

@[simp] theorem allMarks_nil : allMarks [] = 0 := rfl

@[simp] theorem allMarks_cons (r : Root) (rs : List Root) :
    allMarks (r :: rs) = r.marks + allMarks rs := by
  rw [allMarks, map_cons, sum_cons]
  rfl

@[simp] theorem allMarks_append (rs rs' : List Root) :
    allMarks (rs ++ rs') = allMarks rs + allMarks rs' := by
  rw [allMarks, map_append, sum_append]
  rfl

theorem allMarks_perm {rs rs' : List Root} (h : rs.Perm rs') : allMarks rs = allMarks rs' :=
  (h.map Root.marks).sum_eq

@[simp] theorem allMarks_trees (ts : List FormTree) :
    allMarks (ts.map .tree) = (ts.map FormTree.marks).sum := by
  rw [allMarks, map_map]
  rfl

@[simp] theorem allMarks_nodes (ns : List (Node FormTree)) :
    allMarks (ns.map .node) = (ns.map Node.marks).sum := by
  rw [allMarks, map_map]
  rfl

end Root

end Decompiler
