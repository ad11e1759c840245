import Decompiler.Proofs.Tree.Change

/-!
Folds of a tree.  A fold takes an assignment out of a form and puts its value where a later
element of the form reads the register.  For the order of evaluation this moves the value
behind what stands between the two; the assignment and the read are gone.
-/

namespace Decompiler

open List

variable {orderly : Prop} {t u : FormTree}

def performedIn (os : List Observation) : List (ElementId × Effect) :=
  os.filterMap Observation.performed

@[simp] theorem performedIn_append (os os' : List Observation) :
    performedIn (os ++ os') = performedIn os ++ performedIn os' := filterMap_append

theorem performedIn_cons {o : Observation} (h : o.2.effect? = none) (os : List Observation) :
    performedIn (o :: os) = performedIn os :=
  filterMap_cons_none (by rw [Observation.performed, h]; rfl)

/-- A part of what is evaluated is moved behind another part, and two observations without
effects are left out.  In an orderly move no effect comes behind another one. -/
inductive Moves (orderly : Prop) : List Observation → List Observation → Prop
  | intro (start value crossed rest : List Observation) (assignment read : Observation)
      (hassignment : assignment.2.effect? = none) (hread : read.2.effect? = none)
      (horder : orderly → performedIn value = [] ∨ performedIn crossed = []) :
      Moves orderly (start ++ (value ++ assignment :: (crossed ++ read :: rest)))
        (start ++ (crossed ++ (value ++ rest)))

namespace Moves

variable {os os' : List Observation} (h : Moves orderly os os')
include h

theorem extend (before after : List Observation) :
    Moves orderly (before ++ (os ++ after)) (before ++ (os' ++ after)) := by
  obtain ⟨start, value, crossed, rest, assignment, read, hassignment, hread, horder⟩ := h
  have hmove := Moves.intro (before ++ start) value crossed (rest ++ after) assignment read
    hassignment hread horder
  simpa using hmove

theorem perm : ∃ assignment read : Observation, os.Perm (assignment :: read :: os') := by
  obtain ⟨start, value, crossed, rest, assignment, read, -, -, -⟩ := h
  refine ⟨assignment, read, perm_iff_count.2 fun o => ?_⟩
  simp only [count_append, count_cons]
  omega

theorem performedIn_perm : (performedIn os').Perm (performedIn os) := by
  obtain ⟨start, value, crossed, rest, assignment, read, hassignment, hread, -⟩ := h
  simp only [performedIn_append, performedIn_cons hassignment, performedIn_cons hread]
  refine List.Perm.append_left _ ?_
  rw [← append_assoc, ← append_assoc]
  exact perm_append_comm.append_right _

theorem performedIn_eq (horderly : orderly) : performedIn os' = performedIn os := by
  obtain ⟨start, value, crossed, rest, assignment, read, hassignment, hread, horder⟩ := h
  simp only [performedIn_append, performedIn_cons hassignment, performedIn_cons hread]
  rcases horder horderly with hnone | hnone
  · rw [hnone, nil_append, nil_append]
  · rw [hnone, nil_append, nil_append]

end Moves

/-- Among the elements of a form, an assignment gives its value to an operand of a later
element, past assignments that are no sequence points.  The fold is orderly if the value has no
effect or none is evaluated in between. -/
inductive Node.Folds (orderly : Prop) : List (Node FormTree) → List (Node FormTree) → Prop
  | intro (older newer rest : List (Node FormTree)) {m n n' : Node FormTree} {dst v : Variable}
      {source f : FormId} {ordered : Bool} {notes : SetNotes} {value : FormTree} {e : ElementId}
      {before : List FormTree} (hset : m.element = .set dst source ordered notes)
      (hvalue : m.kids = [value]) (hreg : dst.register = v.register)
      (hpassed : ∀ w ∈ newer, ∃ dst source notes, w.element = .set dst source false notes)
      (hoperand : Node.Exchanges (.mk f [⟨e, .atom (.var v), []⟩]) (.mk f value.nodes) before n n')
      (horder : orderly → performedIn value.evaluated = [] ∨
        performedIn (newer.flatMap Node.evaluated ++ before.flatMap FormTree.evaluated) = []) :
      Folds orderly (older ++ m :: (newer ++ n :: rest)) (older ++ (newer ++ n' :: rest))

/-- One fold, in the form itself or in a form below it. -/
inductive FormTree.Folds (orderly : Prop) : FormTree → FormTree → Prop
  | here (f : FormId) {ns ns' : List (Node FormTree)} (h : Node.Folds orderly ns ns') :
      Folds orderly (.mk f ns) (.mk f ns')
  | inside (f : FormId) (earlier later : List (Node FormTree)) (e : ElementId) (element : Element)
      (before after : List FormTree) {u u' : FormTree} (h : Folds orderly u u') :
      Folds orderly (.mk f (earlier ++ ⟨e, element, before ++ u :: after⟩ :: later))
        (.mk f (earlier ++ ⟨e, element, before ++ u' :: after⟩ :: later))

theorem FormTree.evaluated_eq (t : FormTree) : t.evaluated = t.nodes.flatMap Node.evaluated := by
  cases t
  rw [evaluated_mk, nodes_mk]

namespace Node.Folds

variable {ns ns' : List (Node FormTree)} (h : Node.Folds orderly ns ns')
include h

theorem moves : Moves orderly (ns.flatMap Node.evaluated) (ns'.flatMap Node.evaluated) := by
  cases h with
  | @intro older newer rest m n n' dst v source f ordered notes value e before hset hvalue hreg
      hpassed hoperand horder =>
    obtain ⟨after, hn, hn'⟩ := hoperand.evaluated_eq
    have hm : m.evaluated = value.evaluated ++ [(m.id, m.element)] := by
      rw [Node.evaluated, hvalue, flatMap_singleton]
    have hslot : (FormTree.mk f [⟨e, .atom (.var v), []⟩]).evaluated = [(e, .atom (.var v))] := by
      simp [Node.evaluated]
    have hnew : (FormTree.mk f value.nodes).evaluated = value.evaluated := by
      rw [FormTree.evaluated_mk, value.evaluated_eq]
    rw [hslot] at hn
    rw [hnew] at hn'
    have hmove := Moves.intro (older.flatMap Node.evaluated) value.evaluated
      (newer.flatMap Node.evaluated ++ before.flatMap FormTree.evaluated)
      (after ++ rest.flatMap Node.evaluated) (m.id, m.element) (e, .atom (.var v))
      (by rw [hset]; rfl) rfl horder
    simpa [hm, hn, hn'] using hmove

theorem length_eq : ns.length = ns'.length + 1 := by
  cases h with
  | intro =>
    simp only [length_append, length_cons]
    omega

/-- The form of the value is no longer in use. -/
theorem forms_perm :
    ∃ f, (ns.flatMap Node.forms).Perm (f :: ns'.flatMap Node.forms) := by
  cases h with
  | @intro older newer rest m n n' dst v source f ordered notes value e before hset hvalue hreg
      hpassed hoperand horder =>
    refine ⟨value.id, perm_iff_count.2 fun g => ?_⟩
    have hcount := hoperand.forms_perm.count_eq g
    have hm : m.forms = value.id :: value.nodes.flatMap Node.forms := by
      rw [Node.forms, hvalue, flatMap_singleton, value.forms_eq]
    have hslot : (FormTree.mk f [⟨e, .atom (.var v), []⟩]).forms = [f] := by simp [Node.forms]
    simp only [hslot, FormTree.forms_mk, count_append, count_cons, flatMap_append,
      flatMap_cons, hm, count_nil] at hcount ⊢
    omega

end Node.Folds

namespace FormTree

namespace Folds

theorem id_eq (h : Folds orderly t u) : u.id = t.id := by
  cases h <;> rfl

theorem moves (h : Folds orderly t u) : Moves orderly t.evaluated u.evaluated := by
  induction h with
  | here f h =>
    rw [evaluated_mk, evaluated_mk]
    exact h.moves
  | inside f earlier later e element before after h ih =>
    have hmove := ih.extend
      (earlier.flatMap Node.evaluated ++ before.flatMap evaluated)
      (after.flatMap evaluated ++ (e, element) :: later.flatMap Node.evaluated)
    simpa [Node.evaluated] using hmove

theorem forms_perm (h : Folds orderly t u) : ∃ f, t.forms.Perm (f :: u.forms) := by
  induction h with
  | here f h =>
    obtain ⟨g, hg⟩ := h.forms_perm
    refine ⟨g, ?_⟩
    rw [forms_mk, forms_mk]
    exact (hg.cons f).trans (List.Perm.swap _ _ _)
  | inside f earlier later e element before after h ih =>
    obtain ⟨g, hg⟩ := ih
    refine ⟨g, perm_iff_count.2 fun x => ?_⟩
    have hcount := hg.count_eq x
    simp only [forms_mk, Node.forms, flatMap_append, flatMap_cons, count_cons,
      count_append] at hcount ⊢
    omega

end Folds

/-- Folds, one after the other. -/
inductive Refolds (orderly : Prop) : Nat → FormTree → FormTree → Prop
  | refl (t : FormTree) : Refolds orderly 0 t t
  | step {k : Nat} {t u v : FormTree} (h : Folds orderly t u) (hrest : Refolds orderly k u v) :
      Refolds orderly (k + 1) t v

namespace Refolds

variable {k k' : Nat} {v : FormTree}

theorem trans (h : Refolds orderly k t u) (h' : Refolds orderly k' u v) :
    Refolds orderly (k + k') t v := by
  induction h with
  | refl t =>
    rw [Nat.zero_add]
    exact h'
  | @step k t u w hfold hrest ih =>
    rw [Nat.add_right_comm]
    exact .step hfold (ih h')

theorem eq_of_zero (h : Refolds orderly 0 t u) : u = t := by
  cases h
  rfl

variable (h : Refolds orderly k t u)
include h

theorem id_eq : u.id = t.id := by
  induction h with
  | refl t => rfl
  | step hfold hrest ih => exact ih.trans hfold.id_eq

/-- Folds in a form below are folds. -/
theorem inside (f : FormId) (earlier later : List (Node FormTree)) (e : ElementId)
    (element : Element) (before after : List FormTree) :
    Refolds orderly k (.mk f (earlier ++ ⟨e, element, before ++ t :: after⟩ :: later))
      (.mk f (earlier ++ ⟨e, element, before ++ u :: after⟩ :: later)) := by
  induction h with
  | refl t => exact .refl _
  | step hfold hrest ih => exact .step (.inside f earlier later e element before after hfold) ih

/-- Every fold takes two elements out of the tree, and none comes in. -/
theorem elements_perm :
    ∃ gone : List ElementId, gone.length = 2 * k ∧ t.elements.Perm (gone ++ u.elements) := by
  induction h with
  | refl t => exact ⟨[], rfl, List.Perm.refl _⟩
  | @step k t u v hfold hrest ih =>
    obtain ⟨gone, hlength, hperm⟩ := ih
    obtain ⟨assignment, read, hmoves⟩ := hfold.moves.perm
    have hmap : t.elements.Perm (assignment.1 :: read.1 :: u.elements) :=
      (t.evaluated_perm.symm.trans (hmoves.map Prod.fst)).trans ((u.evaluated_perm.cons _).cons _)
    refine ⟨assignment.1 :: read.1 :: gone, ?_, hmap.trans ((hperm.cons _).cons _)⟩
    rw [length_cons, length_cons, hlength]
    omega

theorem elements_subperm : u.elements.Subperm t.elements := by
  obtain ⟨gone, -, hperm⟩ := h.elements_perm
  exact (sublist_append_right gone u.elements).subperm.trans hperm.symm.subperm

theorem forms_subperm : u.forms.Subperm t.forms := by
  induction h with
  | refl t => exact List.Subperm.refl _
  | step hfold hrest ih =>
    obtain ⟨f, hperm⟩ := hfold.forms_perm
    exact ih.trans ((sublist_cons_self f _).subperm.trans hperm.symm.subperm)

/-- Folding keeps all effects. -/
theorem performedIn_perm : (performedIn u.evaluated).Perm (performedIn t.evaluated) := by
  induction h with
  | refl t => exact List.Perm.refl _
  | step hfold hrest ih => exact ih.trans hfold.moves.performedIn_perm

/-- Orderly folding keeps the effects in order. -/
theorem performedIn_eq (horderly : orderly) :
    performedIn u.evaluated = performedIn t.evaluated := by
  induction h with
  | refl t => rfl
  | step hfold hrest ih => exact ih.trans (hfold.moves.performedIn_eq horderly)

end Refolds

end FormTree

end Decompiler
