import Decompiler.Proofs.Machine.Variables
import Decompiler.Proofs.Tree.Grounded
import Mathlib.Data.Fintype.Card
import Mathlib.Data.Fintype.EquivFin
import Mathlib.Data.PFun

/-!
Going over a tree with a stack of pending elements.  The stack replaces a recursion: below a form
without cycles the visitor comes to an end, and it sees every element before the elements of its
child forms, in order.  What is summed up on the way is what the recursion would give.
-/

namespace Decompiler

namespace Pool

variable {p : Pool} {f g : FormId} {e : ElementId} {α β σ : Type}

/-- Puts the elements of the child forms of an element on a stack whose top is its end.  The last
child goes first, so the first one comes to lie on top. -/
def pushChildren (p : Pool) (pending : List ElementId) (e : ElementId) : List ElementId :=
  (p.element e).children.reverse.foldl (fun pending f => pending ++ (p.elementsOf f).reverse) pending

/-- Takes the element on top of a stack and visits it, or ends when there is none. -/
def visitNext (p : Pool) (visit : σ → ElementId → σ) (state : List ElementId × σ) :
    σ ⊕ List ElementId × σ :=
  match state.1.getLast? with
  | none => .inl state.2
  | some e => .inr (p.pushChildren state.1.dropLast e, visit state.2 e)

/-- Visits pending elements until none is left; there is a result only if this comes to an end. -/
def visitPending (p : Pool) (visit : σ → ElementId → σ) (pending : List ElementId) (acc : σ) :
    Part σ :=
  PFun.fix (p.visitNext visit) (pending, acc)

def visitElement (p : Pool) (visit : σ → ElementId → σ) (acc : σ) (e : ElementId) : Part σ :=
  p.visitPending visit [e] acc

/-- Visits all elements below a form. -/
def visitForm (p : Pool) (visit : σ → ElementId → σ) (f : FormId) (acc : σ) : Part σ :=
  (p.elementsOf f).foldlM (p.visitElement visit) acc

theorem pushChildren_eq (p : Pool) (pending : List ElementId) (e : ElementId) :
    p.pushChildren pending e = pending ++ ((p.element e).children.flatMap p.elementsOf).reverse := by
  rw [pushChildren, List.foldl_append_eq_append, ← List.flatMap_def, List.reverse_flatMap]
  rfl

theorem visitPending_nil (p : Pool) (visit : σ → ElementId → σ) (acc : σ) :
    p.visitPending visit [] acc = .some acc :=
  Part.eq_some_iff.2 (PFun.fix_stop (Part.mem_some _))

theorem visitPending_concat (p : Pool) (visit : σ → ElementId → σ) (pending : List ElementId)
    (e : ElementId) (acc : σ) :
    p.visitPending visit (pending ++ [e]) acc =
      p.visitPending visit (pending ++ ((p.element e).children.flatMap p.elementsOf).reverse)
        (visit acc e) := by
  refine PFun.fix_fwd_eq (Part.mem_some_iff.2 ?_)
  rw [visitNext, List.getLast?_concat, List.dropLast_concat, ← pushChildren_eq]

/-- A form right below another. -/
def Below (p : Pool) (g f : FormId) : Prop :=
  ∃ e ∈ p.elementsOf f, g ∈ (p.element e).children

theorem Grounded.acc (h : p.Grounded f) : Acc p.Below f := by
  induction h with
  | intro _ _ _ ih => exact ⟨_, fun g ⟨e, he, hg⟩ => ih e he g hg⟩

/-- Going down from finite forms comes to an end. -/
instance groundedRelation (p : Pool) : WellFoundedRelation {f // p.Grounded f} where
  rel g f := p.Below g.1 f.1
  wf := ⟨fun f => InvImage.accessible Subtype.val f.2.acc⟩

/-- Structural recursion over a finite form.  An element has a result of its own, which is joined
with those of its child forms in order; the results of the elements of a form are joined in order. -/
def recurse (p : Pool) (own : ElementId → α) (join : α → α → α) (unit : α)
    (f : {f // p.Grounded f}) : α :=
  ((p.elementsOf f.1).attach.map fun e =>
    join (own e.1) (((p.element e.1).children.attach.map fun g =>
      p.recurse own join unit ⟨g.1, f.2.child e.2 g.2⟩).foldr join unit)).foldr join unit
termination_by f
decreasing_by exact ⟨e.1, e.2, g.2⟩

/-- One step of the recursion, when the results of the forms right below are known. -/
theorem recurse_eq {own : ElementId → α} {join : α → α → α} {unit : α} (value : FormId → α)
    (f : {f // p.Grounded f})
    (h : ∀ e (he : e ∈ p.elementsOf f.1) g (hg : g ∈ (p.element e).children),
      p.recurse own join unit ⟨g, f.2.child he hg⟩ = value g) :
    p.recurse own join unit f = ((p.elementsOf f.1).map fun e =>
      join (own e) (((p.element e).children.map value).foldr join unit)).foldr join unit := by
  rw [recurse]
  congr 1
  refine Eq.trans (List.map_congr_left fun e _ => ?_) List.attach_map_val
  congr 2
  exact (List.map_congr_left fun g _ => h e.1 e.2 g.1 g.2).trans List.attach_map_val

/-- What goes through joining goes through the recursion. -/
theorem recurse_hom {own : ElementId → α} {join : α → α → α} {unit : α} {own' : ElementId → β}
    {join' : β → β → β} {unit' : β} (φ : α → β) (hown : ∀ e, φ (own e) = own' e)
    (hjoin : ∀ a b, φ (join a b) = join' (φ a) (φ b)) (hunit : φ unit = unit')
    (f : {f // p.Grounded f}) :
    φ (p.recurse own join unit f) = p.recurse own' join' unit' f := by
  have hfoldr (as : List α) : φ (as.foldr join unit) = (as.map φ).foldr join' unit' :=
    hunit ▸ (List.foldr_map_hom fun a b => (hjoin a b).symm).symm
  induction f using recurse.induct p with
  | _ f ih =>
    rw [recurse, recurse, hfoldr, List.map_map]
    congr 1
    refine List.map_congr_left fun e _ => ?_
    rw [Function.comp_apply, hjoin, hown, hfoldr, List.map_map]
    congr 2
    exact List.map_congr_left fun g _ => ih e g

def elementsDown (p : Pool) (depth : Nat) (f : FormId) : List ElementId :=
  (p.elementsOf f).flatMap (p.elementsWithin depth)

theorem elementsDown_succ (p : Pool) (depth : Nat) (f : FormId) :
    p.elementsDown (depth + 1) f =
      (p.elementsOf f).flatMap fun e =>
        e :: (p.element e).children.flatMap (p.elementsDown depth) := rfl

theorem elementsDown_goesDown (p : Pool) : p.GoesDownAs p.elementsDown p.elementsDown := by
  intro depth depth' f _ hbelow
  rw [elementsDown_succ, elementsDown_succ]
  refine List.flatMap_congr fun e he => ?_
  rw [List.flatMap_congr fun g hg => hbelow e he g hg]

theorem elementsDown_of_empty (h : p.elementsOf f = []) :
    p.elementsDown 1 f = p.elementsDown 0 f := by
  rw [elementsDown, elementsDown, h]
  rfl

/-- All elements below a finite form: each element of the form, followed by what is below its
child forms. -/
theorem Grounded.elementsIn_eq (h : p.Grounded f) :
    p.elementsIn f = (p.elementsOf f).flatMap fun e =>
      e :: (p.element e).children.flatMap p.elementsIn := by
  change p.elementsDown p.elements.size f = _
  cases hsize : p.elements.size with
  | zero =>
    have hnone : p.elementsOf f = [] := List.eq_nil_iff_forall_not_mem.2 fun e he => by
      have hlt := h.element_lt he
      omega
    rw [elementsDown, hnone]
    rfl
  | succ n =>
    rw [elementsDown_succ]
    refine List.flatMap_congr fun e he => ?_
    congr 1
    refine List.flatMap_congr fun g hg => ?_
    have hchild := h.child_eq p.elementsDown_goesDown (fun _ => elementsDown_of_empty) he hg
    rw [hsize, Nat.add_sub_cancel] at hchild
    rw [← hchild, ← hsize]
    rfl

/-- The elements below a finite form, by recursion: an element, then what is below its child
forms. -/
def preorder (p : Pool) (f : {f // p.Grounded f}) : List ElementId :=
  p.recurse (fun e => [e]) (· ++ ·) [] f

theorem Grounded.preorder_eq (h : p.Grounded f) : p.preorder ⟨f, h⟩ = p.elementsIn f := by
  induction h with
  | @intro f hform helements hbelow ih =>
    have h : p.Grounded f := .intro hform helements hbelow
    rw [preorder, recurse_eq p.elementsIn ⟨f, h⟩ ih, h.elementsIn_eq, List.foldr_map,
      List.foldr_append_eq_append, List.append_nil, ← List.flatMap_def]
    refine List.flatMap_congr fun e _ => ?_
    rw [List.foldr_map, List.foldr_append_eq_append, List.append_nil, ← List.flatMap_def]
    rfl

section Visiting

variable (visit : σ → ElementId → σ)

/-- A form on top of the stack is visited with all below it before the rest. -/
def VisitsFirst (p : Pool) (f : FormId) : Prop :=
  ∀ pending acc, p.visitPending visit (pending ++ (p.elementsOf f).reverse) acc =
    p.visitPending visit pending ((p.elementsIn f).foldl visit acc)

variable {visit}

theorem visitPending_forms {fs : List FormId} (h : ∀ f ∈ fs, p.VisitsFirst visit f)
    (pending : List ElementId) (acc : σ) :
    p.visitPending visit (pending ++ (fs.flatMap p.elementsOf).reverse) acc =
      p.visitPending visit pending ((fs.flatMap p.elementsIn).foldl visit acc) := by
  induction fs generalizing acc with
  | nil => simp
  | cons f fs ih =>
    rw [List.flatMap_cons, List.reverse_append, ← List.append_assoc, h f List.mem_cons_self,
      ih fun g hg => h g (List.mem_cons_of_mem _ hg), List.flatMap_cons, List.foldl_append]

/-- Elements on top of the stack are visited with all below them before the rest. -/
theorem visitPending_elements {es : List ElementId}
    (h : ∀ e ∈ es, ∀ g ∈ (p.element e).children, p.VisitsFirst visit g)
    (pending : List ElementId) (acc : σ) :
    p.visitPending visit (pending ++ es.reverse) acc =
      p.visitPending visit pending
        ((es.flatMap fun e => e :: (p.element e).children.flatMap p.elementsIn).foldl visit acc) := by
  induction es generalizing acc with
  | nil => simp
  | cons e es ih =>
    rw [List.reverse_cons, ← List.append_assoc, visitPending_concat,
      visitPending_forms (h e List.mem_cons_self),
      ih fun e' he' => h e' (List.mem_cons_of_mem _ he'), List.flatMap_cons, List.cons_append,
      List.foldl_cons, List.foldl_append]

theorem Grounded.visitsFirst (h : p.Grounded f) : p.VisitsFirst visit f := by
  induction h with
  | @intro f hform helements hbelow ih =>
    have h : p.Grounded f := .intro hform helements hbelow
    intro pending acc
    rw [visitPending_elements ih, ← h.elementsIn_eq]

/-- The visitor goes over a finite form as the recursion does. -/
theorem Grounded.visitForm_eq (h : p.Grounded f) (acc : σ) :
    p.visitForm visit f acc = .some ((p.elementsIn f).foldl visit acc) := by
  have hone : ∀ e ∈ p.elementsOf f, ∀ acc, p.visitElement visit acc e =
      .some ((e :: (p.element e).children.flatMap p.elementsIn).foldl visit acc) := by
    intro e he acc
    have hbelow : ∀ e' ∈ [e], ∀ g ∈ (p.element e').children, p.VisitsFirst visit g := by
      intro e' he' g hg
      rw [List.mem_singleton.1 he'] at hg
      exact (h.child he hg).visitsFirst
    have hall := visitPending_elements hbelow [] acc
    rw [visitPending_nil, List.flatMap_singleton] at hall
    exact hall
  rw [visitForm, h.elementsIn_eq]
  generalize p.elementsOf f = es at hone
  induction es generalizing acc with
  | nil => rfl
  | cons e es ih =>
    rw [List.foldlM_cons, hone e List.mem_cons_self, List.flatMap_cons, List.foldl_append]
    exact (Part.bind_some _ _).trans (ih _ fun e' he' => hone e' (List.mem_cons_of_mem _ he'))

end Visiting

section Acyclic

variable {root : FormId} {f' : FormId}

/-- Below a form every handle was given out, and no form comes back below itself. -/
structure Acyclic (p : Pool) (root : FormId) : Prop where
  forms_lt : ∀ f, p.Reaches root f → f.index < p.forms.size
  elements_lt : ∀ e, p.ReachesElement root e → e.index < p.elements.size
  noCycle : ∀ f g, p.Reaches root f → p.Below g f → ¬ p.Reaches g f

theorem Reaches.trans (h : p.Reaches f g) (h' : p.Reaches g f') : p.Reaches f f' := by
  induction h' with
  | root => exact h
  | child _ he hg ih => exact ih.child he hg

theorem Grounded.of_reaches (h : p.Grounded f) (hreaches : p.Reaches f g) : p.Grounded g := by
  induction hreaches with
  | root => exact h
  | child _ he hg ih => exact ih.child he hg

/-- A pool has finitely many forms, so a way down that does not end would come back. -/
theorem Acyclic.grounded (h : p.Acyclic root) : p.Grounded root := by
  let below : {f // p.Reaches root f} → {f // p.Reaches root f} → Prop :=
    fun g f => ∃ x, p.Below x f.1 ∧ p.Reaches x g.1
  have hfinite : Finite {f // p.Reaches root f} := by
    refine Finite.of_injective (fun f => (⟨f.1.index, h.forms_lt f.1 f.2⟩ : Fin p.forms.size)) ?_
    intro f g hsame
    exact Subtype.ext (FormId.ext (Fin.mk.inj hsame))
  have htrans : IsTrans _ below := by
    refine ⟨fun g f k ⟨x, hx, hxg⟩ ⟨y, hy, hyf⟩ => ⟨y, hy, ?_⟩⟩
    obtain ⟨e, he, hx⟩ := hx
    exact (hyf.child he hx).trans hxg
  have hirrefl : Std.Irrefl below := ⟨fun f ⟨x, hx, hxf⟩ => h.noCycle f.1 x f.2 hx hxf⟩
  have hwf := Finite.wellFounded_of_trans_of_irrefl below
  have hall : ∀ f : {f // p.Reaches root f}, p.Grounded f.1 := by
    intro f
    induction f using hwf.induction with
    | _ f ih =>
      refine ⟨h.forms_lt f.1 f.2, fun e he => h.elements_lt e ⟨f.1, f.2, he⟩, fun e he g hg => ?_⟩
      exact ih ⟨g, f.2.child he hg⟩ ⟨g, ⟨e, he, hg⟩, .root⟩
  exact hall ⟨root, .root⟩

theorem Grounded.acyclic (h : p.Grounded root) : p.Acyclic root where
  forms_lt _ hf := (h.of_reaches hf).form_lt
  elements_lt _ he := by
    obtain ⟨f, hf, he⟩ := he
    exact (h.of_reaches hf).element_lt he
  noCycle f g hf hbelow hback := by
    obtain ⟨e, he, hg⟩ := hbelow
    exact ((h.of_reaches hf).child he hg).not_below_self hback he hg

end Acyclic

section Summaries

variable (p : Pool) (es es' : List ElementId)

theorem writesOf_append : p.writesOf (es ++ es') = p.writesOf es ∪ p.writesOf es' := by
  refine RegisterSet.ext_mem fun r => ?_
  simp only [writesOf, RegisterSet.mem_foldl_union, RegisterSet.mem_union, RegisterSet.not_mem_empty,
    false_or, List.mem_append, or_and_right, exists_or]

theorem writesOf_singleton (e : ElementId) : p.writesOf [e] = (p.element e).localWrites :=
  RegisterSet.ext_mem fun r => by
    rw [writesOf, List.foldl_cons, List.foldl_nil, RegisterSet.mem_union,
      or_iff_right (RegisterSet.not_mem_empty r)]

theorem readsOf_append : p.readsOf (es ++ es') = Variable.sorted (p.readsOf es ++ p.readsOf es') := by
  rw [readsOf, List.flatMap_append]
  exact Variable.sorted_append _ _

theorem anyEffect_append : p.anyEffect (es ++ es') = (p.anyEffect es || p.anyEffect es') :=
  List.any_append

end Summaries

/-- Below a form without cycles the visitor comes to an end.  It sees the elements in the order of
the recursion, and the summaries of the form are what the recursion computes. -/
theorem Acyclic.visitor_is_recursion (h : p.Acyclic f) :
    (∀ (σ : Type) (visit : σ → ElementId → σ) (init : σ),
      p.visitForm visit f init = .some ((p.preorder ⟨f, h.grounded⟩).foldl visit init)) ∧
    p.elementsIn f = p.preorder ⟨f, h.grounded⟩ ∧
    p.formSize f = p.recurse (fun _ => 1) (· + ·) 0 ⟨f, h.grounded⟩ ∧
    p.formReads f = p.recurse (fun e => Variable.sorted (p.element e).localReads)
      (fun vs ws => Variable.sorted (vs ++ ws)) [] ⟨f, h.grounded⟩ ∧
    p.formWrites f =
      p.recurse (fun e => (p.element e).localWrites) (· ∪ ·) ∅ ⟨f, h.grounded⟩ ∧
    p.formHasEffect f =
      p.recurse (fun e => (p.element e).hasLocalEffect) (· || ·) false ⟨f, h.grounded⟩ := by
  have horder := h.grounded.preorder_eq
  refine ⟨fun σ visit init => ?_, horder.symm, ?_, ?_, ?_, ?_⟩
  · rw [horder, h.grounded.visitForm_eq]
  · rw [formSize, ← horder]
    exact recurse_hom List.length (fun _ => rfl) (fun _ _ => List.length_append) rfl _
  · rw [formReads, ← horder]
    exact recurse_hom p.readsOf (fun e => by rw [readsOf, List.flatMap_singleton]) p.readsOf_append
      rfl _
  · rw [formWrites, ← horder]
    exact recurse_hom p.writesOf p.writesOf_singleton p.writesOf_append rfl _
  · rw [formHasEffect, ← horder]
    exact recurse_hom p.anyEffect (fun e => by rw [anyEffect, List.any_cons, List.any_nil,
      Bool.or_false]) p.anyEffect_append rfl _

/-- A loop whose body assigns the value that the loop tests: one form is a child of two
elements. -/
def sharedTest : Pool where
  elements := #[⟨some ⟨0⟩, .atom (.var (.read .v0 0))⟩, ⟨some ⟨1⟩, .set (.write .v0 1) ⟨0⟩ false {}⟩,
    ⟨some ⟨1⟩, .empty⟩, ⟨some ⟨2⟩, .loop .whileTrue ⟨0⟩ ⟨1⟩ true⟩]
  forms := #[⟨some ⟨3⟩, [⟨0⟩]⟩, ⟨some ⟨3⟩, [⟨1⟩, ⟨2⟩]⟩, ⟨none, [⟨3⟩]⟩]

theorem sharedTest_grounded : sharedTest.Grounded ⟨2⟩ := by
  have htest : sharedTest.Grounded ⟨0⟩ := by
    refine ⟨by decide, by decide, fun e he g hg => ?_⟩
    cases List.mem_singleton.1 he
    cases hg
  have hbody : sharedTest.Grounded ⟨1⟩ := by
    refine ⟨by decide, by decide, fun e he g hg => ?_⟩
    rcases List.mem_pair.1 he with rfl | rfl
    · cases List.mem_singleton.1 hg
      exact htest
    · cases hg
  refine ⟨by decide, by decide, fun e he g hg => ?_⟩
  cases List.mem_singleton.1 he
  rcases List.mem_pair.1 hg with rfl | rfl
  · exact htest
  · exact hbody

/-- The shared form is visited below both elements. -/
theorem visitor_sharedTest : sharedTest.Acyclic ⟨2⟩ ∧
    sharedTest.visitForm (fun seen e => seen ++ [e.index]) ⟨2⟩ [] = .some [3, 0, 1, 0, 2] := by
  have hacyclic := sharedTest_grounded.acyclic
  obtain ⟨hvisit, horder, -⟩ := hacyclic.visitor_is_recursion
  refine ⟨hacyclic, ?_⟩
  rw [hvisit, ← horder]
  exact congrArg Part.some (by decide)

end Pool

end Decompiler
