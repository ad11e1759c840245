import Decompiler.Proofs.Fold.Held
import Decompiler.Proofs.Tree.Marks

/-!
Accounts.  The account of a state says which marks there are in its entries and hands,
and which control structures stand as statements on its stack, in order.  Whatever a
step does, it accounts for the marks of what it held.
-/

namespace Decompiler

open List

namespace Held

variable {h : Held}

/-- The control structure that an entry is. -/
def control? : Held → Option (Node FormTree)
  | statement n _ => if n.element.isControl then some n else none
  | _ => none

/-- The marks of an entry that is not a control structure. -/
def marks : Held → Multiset Mark
  | value _ t _ _ => t.marks
  | statement n _ => if n.element.isControl then 0 else n.marks
  | division n => n.marks

def allMarks (E : List Held) : Multiset Mark := (E.map Held.marks).sum

/-- The control structures among several entries, the oldest first. -/
def controls (E : List Held) : List (Node FormTree) := (E.filterMap Held.control?).reverse

@[simp] theorem allMarks_nil : allMarks [] = 0 := rfl

@[simp] theorem allMarks_cons (h : Held) (E : List Held) :
    allMarks (h :: E) = h.marks + allMarks E := by
  rw [allMarks, map_cons, sum_cons]
  rfl

@[simp] theorem allMarks_append (E E' : List Held) :
    allMarks (E ++ E') = allMarks E + allMarks E' := by
  rw [allMarks, map_append, sum_append]
  rfl

@[simp] theorem controls_append (E E' : List Held) :
    controls (E ++ E') = controls E' ++ controls E := by
  rw [controls, filterMap_append, reverse_append]
  rfl

theorem controls_cons_none (hnone : h.control? = none) (E : List Held) :
    controls (h :: E) = controls E := by
  rw [controls, filterMap_cons_none hnone]
  rfl

variable {n : Node FormTree} {E E' : List Held} {barrier : RegisterSet} {effects : Bool} {p : Pool}
  {r : Register} {t : FormTree}

theorem controls_cons_some (hsome : h.control? = some n) (E : List Held) :
    controls (h :: E) = controls E ++ [n] := by
  rw [controls, filterMap_cons_some hsome, reverse_cons]
  rfl

theorem marks_of_control?_eq_none (hnone : h.control? = none) : h.marks = h.root.marks := by
  cases h with
  | value dst t ordered notes => rfl
  | statement n ordered =>
    rw [control?] at hnone
    split at hnone
    · cases hnone
    · rename_i hcontrol
      rw [marks, if_neg hcontrol]
      rfl
  | division n => rfl

theorem marks_of_control?_eq_some (hsome : h.control? = some n) :
    h.marks = 0 ∧ h.root = .node n := by
  cases h with
  | value dst t ordered notes => cases hsome
  | statement m ordered =>
    rw [control?] at hsome
    split at hsome
    · rename_i hcontrol
      cases hsome
      exact ⟨if_pos hcontrol, rfl⟩
    · cases hsome
  | division n => cases hsome

theorem allMarks_take (upper lower : List Held) (hplain : h.control? = none) :
    allMarks (upper ++ h :: lower) = allMarks (upper ++ lower) + h.root.marks := by
  rw [allMarks_append, allMarks_append, allMarks_cons, marks_of_control?_eq_none hplain, add_assoc,
    add_comm h.root.marks]

theorem controls_take (upper lower : List Held) (hplain : h.control? = none) :
    controls (upper ++ h :: lower) = controls (upper ++ lower) := by
  rw [controls_append, controls_append, controls_cons_none hplain]

theorem Pops.allMarks_eq (h : Pops p r barrier effects E t E') :
    allMarks E = allMarks E' + t.marks := by
  cases h with
  | intro => exact allMarks_take _ _ rfl

theorem Pops.controls_eq (h : Pops p r barrier effects E t E') : controls E = controls E' := by
  cases h with
  | intro => exact controls_take _ _ rfl

end Held

/-- The elements of a list are some control structures, in order, and others with some
marks. -/
inductive Shows : List (Node FormTree) → Multiset Mark → List (Node FormTree) → Prop
  | nil : Shows [] 0 []
  | plain {n : Node FormTree} {ns D : List (Node FormTree)} {A : Multiset Mark} :
      Shows ns A D → Shows (n :: ns) (n.marks + A) D
  | control {n : Node FormTree} {ns D : List (Node FormTree)} {A : Multiset Mark} :
      n.element.isControl → Shows ns A D → Shows (n :: ns) A (n :: D)

namespace Shows

theorem marks_eq {ns D : List (Node FormTree)} {A : Multiset Mark} (h : Shows ns A D) :
    (ns.map Node.marks).sum = A + (D.map Node.marks).sum := by
  induction h with
  | nil => rfl
  | plain h ih => rw [map_cons, sum_cons, ih, add_assoc]
  | control hcontrol h ih =>
    rw [map_cons, sum_cons, ih, map_cons, sum_cons, add_left_comm]

theorem single (n : Node FormTree) : Shows [n] n.marks [] := by
  have h := Shows.nil.plain (n := n)
  rw [add_zero] at h
  exact h

end Shows

theorem Held.Settles.marks_eq {h : Held} {n : Node FormTree} (hsettles : h.Settles n) :
    n.marks = h.root.marks := by
  cases hsettles with
  | value dst t ordered notes e =>
    have hset : Element.marks (.set dst t.id ordered notes) = 0 := rfl
    rw [Node.marks, map_singleton, sum_singleton, hset, zero_add]
    rfl
  | statement n ordered => rfl
  | division n => rfl

/-- Statements show the control structures of the entries they come from. -/
theorem Held.Settles.shows {E : List Held} {ns : List (Node FormTree)}
    (h : List.Forall₂ Held.Settles E.reverse ns) :
    Shows ns (Held.allMarks E) (Held.controls E) := by
  suffices hrun : ∀ {E : List Held} {ns : List (Node FormTree)},
      List.Forall₂ Held.Settles E ns → Shows ns (Held.allMarks E.reverse) (Held.controls E.reverse) by
    have hshows := hrun h
    rw [reverse_reverse] at hshows
    exact hshows
  intro E ns h
  induction h with
  | nil => exact .nil
  | @cons held n E ns hsettles hrest ih =>
    rw [reverse_cons, Held.allMarks_append, Held.controls_append, Held.allMarks_cons,
      Held.allMarks_nil, add_zero, add_comm]
    cases hcontrol : held.control? with
    | none =>
      rw [controls_cons_none hcontrol, marks_of_control?_eq_none hcontrol, ← hsettles.marks_eq]
      exact ih.plain
    | some m =>
      obtain ⟨hmarks, -⟩ := marks_of_control?_eq_some hcontrol
      rw [controls_cons_some hcontrol, hmarks, zero_add]
      cases hsettles with
      | value dst t ordered notes e => cases hcontrol
      | statement n ordered =>
        rw [control?] at hcontrol
        split at hcontrol
        · rename_i hc
          cases hcontrol
          exact ih.control hc
        · cases hcontrol
      | division n => cases hcontrol

/-- The account of a state: the marks in its entries and hands, the control structures that
stand as statements, and the hands. -/
def FoldState.Holds (s : FoldState) (M : Multiset Mark) (C : List (Node FormTree))
    (hs : List Root) : Prop :=
  ∃ E, s.Lists E hs ∧ Held.allMarks E + Root.allMarks hs = M ∧ Held.controls E = C

/-- The account of a state that has some forms in its hands. -/
def FoldState.Gives (s : FoldState) (M : Multiset Mark) (C : List (Node FormTree))
    (fs : List FormId) (hs : List Root) : Prop :=
  ∃ ts : List FormTree, ts.map FormTree.id = fs ∧ s.Holds M C (ts.map .tree ++ hs)

namespace FoldState

variable {s s' : FoldState} {M A : Multiset Mark} {C : List (Node FormTree)} {hs hs' : List Root}
  {f : FormId} {fs : List FormId} {element : Element} {ts : List FormTree}

theorem Lists.toHolds (h : s.Lists [] hs) : s.Holds (Root.allMarks hs) [] hs :=
  ⟨[], h, zero_add _, rfl⟩

/-- A step that changes only the hands adds the marks that they gain. -/
theorem Holds.hands (h : s.Holds M C hs) (hlists : ∀ E, s.Lists E hs → s'.Lists E hs')
    (hmarks : Root.allMarks hs' = Root.allMarks hs + A) : s'.Holds (M + A) C hs' := by
  obtain ⟨E, hE, hM, hC⟩ := h
  refine ⟨E, hlists E hE, ?_, hC⟩
  rw [hmarks, ← hM, add_assoc]

theorem Holds.keep (h : s.Holds M C hs) (hlists : ∀ E, s.Lists E hs → s'.Lists E hs')
    (hmarks : Root.allMarks hs' = Root.allMarks hs) : s'.Holds M C hs' := by
  have hsame := h.hands hlists (A := 0) (by rw [hmarks, add_zero])
  rw [add_zero] at hsame
  exact hsame

theorem Holds.perm (h : s.Holds M C hs) (hperm : hs.Perm hs') : s.Holds M C hs' :=
  h.keep (fun _ hE => hE.perm hperm) (Root.allMarks_perm hperm.symm)

theorem Gives.nil (h : s.Holds M C hs) : s.Gives M C [] hs := ⟨[], rfl, h⟩

theorem Gives.toHolds (h : s.Gives M C [] hs) : s.Holds M C hs := by
  obtain ⟨ts, hts, h⟩ := h
  rw [map_eq_nil_iff.1 hts] at h
  exact h

theorem gives_cons_iff :
    s.Gives M C (f :: fs) hs ↔ ∃ t : FormTree, t.id = f ∧ s.Gives M C fs (.tree t :: hs) := by
  constructor
  · rintro ⟨ts, hts, h⟩
    obtain ⟨t, ts, rfl, hf, rfl⟩ := map_eq_cons_iff.1 hts
    exact ⟨t, hf, ts, rfl, h.perm perm_middle.symm⟩
  · rintro ⟨t, rfl, ts, rfl, h⟩
    exact ⟨t :: ts, rfl, h.perm perm_middle⟩

theorem Gives.hands (h : s.Gives M C fs hs) (hperm : hs.Perm hs') : s.Gives M C fs hs' := by
  obtain ⟨ts, hts, h⟩ := h
  exact ⟨ts, hts, h.perm (hperm.append_left _)⟩

theorem Gives.perm {fs' : List FormId} (h : s.Gives M C fs hs) (hperm : fs.Perm fs') :
    s.Gives M C fs' hs := by
  induction hperm generalizing hs with
  | nil => exact h
  | cons f _ ih =>
    obtain ⟨t, ht, h⟩ := gives_cons_iff.1 h
    exact gives_cons_iff.2 ⟨t, ht, ih h⟩
  | swap f g fs =>
    obtain ⟨t, ht, h⟩ := gives_cons_iff.1 h
    obtain ⟨u, hu, h⟩ := gives_cons_iff.1 h
    exact gives_cons_iff.2 ⟨u, hu, gives_cons_iff.2 ⟨t, ht, h.hands (List.Perm.swap _ _ _)⟩⟩
  | trans _ _ ih ih' => exact ih' (ih h)

theorem Holds.addElement (h : s.Holds M C (ts.map .tree ++ hs))
    (hchildren : element.children = ts.map FormTree.id) :
    (FoldM.addElement element).Ends s fun e s' =>
      s'.Holds (M + element.marks) C (.node ⟨e, element, ts⟩ :: hs) := by
  refine h.hands (fun _ hE => hE.addElement hchildren) ?_
  rw [Root.allMarks_cons, Root.allMarks_append, Root.allMarks_trees, Root.marks, Node.marks,
    add_assoc, add_comm]

theorem Holds.addForm {ns : List (Node FormTree)} (h : s.Holds M C (ns.map .node ++ hs)) :
    (FoldM.onPool fun p => p.addForm (ns.map Node.id)).Ends s fun f s' =>
      s'.Holds M C (.tree (.mk f ns) :: hs) := by
  refine h.keep (fun _ hE => hE.addForm) ?_
  rw [Root.allMarks_cons, Root.allMarks_append, Root.allMarks_nodes, Root.marks, FormTree.marks_mk]

theorem Holds.addSingle (h : s.Holds M C (ts.map .tree ++ hs))
    (hchildren : element.children = ts.map FormTree.id) :
    (FoldM.addSingle element).Ends s fun f s' =>
      ∃ e, s'.Holds (M + element.marks) C (.tree (.mk f [⟨e, element, ts⟩]) :: hs) := by
  have hnode : (FoldM.addElement element s).2.Holds (M + element.marks) C
      ([⟨(FoldM.addElement element s).1, element, ts⟩].map .node ++ hs) := h.addElement hchildren
  exact ⟨_, hnode.addForm⟩

theorem Gives.addSingle (h : s.Gives M C element.children hs) :
    (FoldM.addSingle element).Ends s fun f s' => s'.Gives (M + element.marks) C [f] hs := by
  obtain ⟨ts, hts, h⟩ := h
  obtain ⟨e, hnew⟩ := h.addSingle hts.symm
  exact ⟨[_], rfl, hnew⟩

/-- What waits without being a control structure keeps its marks. -/
theorem Holds.push {held : Held} (h : s.Holds M C (held.root :: hs)) (hplain : held.control? = none) :
    { s with stack := s.stack.push held.pending }.Holds M C hs := by
  obtain ⟨E, hE, hM, hC⟩ := h
  refine ⟨held :: E, hE.push, ?_, ?_⟩
  · rw [← hM, Held.allMarks_cons, Held.marks_of_control?_eq_none hplain, Root.allMarks_cons,
      add_assoc, add_left_comm]
  · rw [Held.controls_cons_none hplain, hC]

theorem Gives.pushValue {dst : Variable} {ordered : Bool} {notes : SetNotes}
    (h : s.Gives M C [f] hs) :
    { s with stack := s.stack.pushValue dst f ordered notes }.Holds M C hs := by
  obtain ⟨t, rfl, ht⟩ := gives_cons_iff.1 h
  have hvalue : s.Holds M C ((Held.value dst t ordered notes).root :: hs) := ht.toHolds
  exact hvalue.push rfl

theorem Gives.ends_pushValue {dst : Variable} {notes : SetNotes} (h : s.Gives M C [f] hs) :
    (FoldM.pushValue dst f notes).Ends s fun _ s' => s'.Holds M C hs := by
  rw [FoldM.pushValue, FoldM.ends_bind, FoldM.ends_get]
  exact h.pushValue

theorem Holds.pushStatement {n : Node FormTree} {ordered : Bool} (h : s.Holds M C (.node n :: hs))
    (hplain : n.element.isControl = false) :
    { s with stack := s.stack.pushStatement n.id ordered }.Holds M C hs := by
  have hstatement : s.Holds M C ((Held.statement n ordered).root :: hs) := h
  refine hstatement.push ?_
  rw [Held.control?, hplain]
  rfl

/-- A new statement that is not a control structure. -/
theorem Gives.pushNew (h : s.Gives M C element.children hs) (hplain : element.isControl = false) :
    (FoldM.pushNew element).Ends s fun _ s' => s'.Holds (M + element.marks) C hs := by
  obtain ⟨ts, hts, h⟩ := h
  rw [FoldM.pushNew]
  exact (h.addElement hts.symm).bind fun e s' hnode => hnode.pushStatement hplain

/-- A control structure takes its marks out of the account of the others. -/
theorem Holds.pushControl (h : s.Holds (M + (ts.map FormTree.marks).sum) C (ts.map .tree ++ hs))
    (hchildren : element.children = ts.map FormTree.id) (hcontrol : element.isControl = true) :
    (FoldM.pushNew element).Ends s fun e s' => s'.Holds M (C ++ [⟨e, element, ts⟩]) hs := by
  obtain ⟨E, hE, hM, hC⟩ := h
  rw [FoldM.pushNew]
  refine (hE.addElement hchildren).bind fun e s' hnode => ?_
  have hentry : s'.Lists E ((Held.statement ⟨e, element, ts⟩ true).root :: hs) := hnode
  have hsome : (Held.statement ⟨e, element, ts⟩ true).control? = some ⟨e, element, ts⟩ :=
    if_pos hcontrol
  refine ⟨_, hentry.push, ?_, ?_⟩
  · rw [Root.allMarks_append, Root.allMarks_trees, add_left_comm, add_comm M] at hM
    rw [Held.allMarks_cons, (Held.marks_of_control?_eq_some hsome).1, zero_add]
    exact add_left_cancel hM
  · rw [Held.controls_cons_some hsome, hC]
    rfl

/-- Taking an entry that is not a control structure keeps the account. -/
theorem Holds.take (upper : List Held) (held : Held) {lower : List Held}
    (hM : Held.allMarks (upper ++ held :: lower) + Root.allMarks hs = M)
    (hC : Held.controls (upper ++ held :: lower) = C) (hplain : held.control? = none)
    (hlists : s.Lists (upper ++ lower) (held.root :: hs)) : s.Holds M C (held.root :: hs) := by
  refine ⟨upper ++ lower, hlists, ?_, ?_⟩
  · rw [← hM, Held.allMarks_take upper lower hplain, Root.allMarks_cons, add_assoc]
  · rw [← hC, Held.controls_take upper lower hplain]

variable {r : Register} {stack : Stack} (h : s.Holds M C hs)
include h

theorem Holds.popRegister {barrier : RegisterSet} {effects : Bool}
    (hpop : s.stack.popRegister s.pool r barrier effects = some (f, stack)) :
    { s with stack }.Gives M C [f] hs := by
  obtain ⟨E, hE, hM, hC⟩ := h
  obtain ⟨t, E', rfl, hpops, hlists⟩ := hE.popRegister hpop
  rw [hpops.allMarks_eq, add_assoc] at hM
  rw [hpops.controls_eq] at hC
  exact ⟨[t], rfl, E', hlists, by rw [← hM]; exact congrArg _ (Root.allMarks_cons _ _), hC⟩

theorem Holds.popTop (hpop : s.stack.popTop r = some (f, stack)) :
    { s with stack }.Gives M C [f] hs := by
  obtain ⟨E, hE, hM, hC⟩ := h
  obtain ⟨dst, t, ordered, notes, below, rfl, rfl, -, hlists⟩ := hE.popTop hpop
  exact ⟨[t], rfl, Holds.take [] (.value dst t ordered notes) hM hC rfl hlists⟩

theorem Holds.takeStatements :
    FoldM.takeStatements.Ends s fun es s' =>
      ∃ ns A, es = ns.map Node.id ∧ Shows ns A C ∧ A + Root.allMarks hs = M ∧
        s'.Lists [] (ns.map .node ++ hs) := by
  obtain ⟨E, hE, hM, rfl⟩ := h
  obtain ⟨ns, hns, hlists, hsettles⟩ := hE.takeStatements
  exact ⟨ns, Held.allMarks E, hns, Held.Settles.shows hsettles, hM, hlists⟩

theorem Holds.takeForm :
    FoldM.takeForm.Ends s fun f s' =>
      ∃ ns A, Shows ns A C ∧ A + Root.allMarks hs = M ∧
        s'.Lists [] (.tree (.mk f ns) :: hs) := by
  obtain ⟨E, hE, hM, rfl⟩ := h
  obtain ⟨ns, hlists, hbody⟩ := hE.takeForm
  refine ⟨ns, Held.allMarks E, ?_, hM, hlists⟩
  rcases hbody with hsettles | ⟨rfl, e, rfl⟩
  · exact Held.Settles.shows hsettles
  · exact .single ⟨e, .empty, []⟩

/-- A step on a stack of its own leaves the account of the others alone. -/
theorem Holds.onFreshStack {α : Type} {m : TryFoldM α} {R : α → List Root → Prop}
    (hm : ∀ s hs, s.Lists [] hs → m.Ends s fun a s' => ∃ new, s'.Lists [] (new ++ hs) ∧ R a new) :
    (TryFoldM.onFreshStack m).Ends s fun a s' =>
      ∃ new, s'.Holds (M + Root.allMarks new) C (new ++ hs) ∧ R a new := by
  obtain ⟨E, hE, hM, hC⟩ := h
  rw [TryFoldM.ends_onFreshStack]
  refine (hm _ _ hE.fresh).mono fun a s' ⟨new, hlists, hR⟩ => ⟨new, ⟨E, ?_, ?_, hC⟩, hR⟩
  · rw [← append_assoc] at hlists
    exact hE.unfresh hlists
  · rw [← hM, Root.allMarks_append]
    simp only [add_assoc, add_comm]

end FoldState

end Decompiler
