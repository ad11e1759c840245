import Decompiler.Proofs.Fold.Outcome

/-!
How a state advances.  No step of folding changes the mode, and none takes an element out
of the pool: the elements that a step adds are those behind the ones that were there.
-/

namespace Decompiler

namespace Pool

variable (p : Pool)

theorem size_foldl_adoptElement (f : FormId) (es : List ElementId) (slots : Array ElementSlot) :
    (es.foldl (adoptElement f) slots).size = slots.size := by
  induction es generalizing slots with
  | nil => rfl
  | cons e es ih => rw [List.foldl_cons, ih, adoptElement, Array.size_modify]

theorem size_addElement (element : Element) :
    (p.addElement element).2.elements.size = p.elements.size + 1 := by
  change (p.elements.push _).size = _
  rw [Array.size_push]

theorem size_addForm (es : List ElementId) : (p.addForm es).2.elements.size = p.elements.size :=
  size_foldl_adoptElement _ es p.elements

theorem size_addSingle (element : Element) :
    (p.addSingle element).2.elements.size = p.elements.size + 1 :=
  (size_addForm _ _).trans (p.size_addElement element)

theorem size_replace (e : ElementId) (element : Element) :
    (p.replace e element).elements.size = p.elements.size := by
  change (p.elements.modify _ _).size = _
  rw [Array.size_modify]

end Pool

/-- The mode is the same, and the elements that were there still are. -/
structure FoldState.Advances (s s' : FoldState) : Prop where
  mode : s'.verbatim = s.verbatim
  size : s.pool.elements.size ≤ s'.pool.elements.size

namespace FoldState.Advances

theorem refl (s : FoldState) : s.Advances s := ⟨rfl, Nat.le_refl _⟩

theorem trans {s s' s'' : FoldState} (h : s.Advances s') (h' : s'.Advances s'') :
    s.Advances s'' := ⟨h'.mode.trans h.mode, Nat.le_trans h.size h'.size⟩

end FoldState.Advances

/-- A step after which every state has advanced. -/
def FoldM.Advances {α : Type} (m : FoldM α) : Prop := ∀ s, m.Ends s fun _ s' => s.Advances s'

/-- A step after which every state has advanced, if it succeeds. -/
def TryFoldM.Advances {α : Type} (m : TryFoldM α) : Prop :=
  ∀ s, m.Ends s fun _ s' => s.Advances s'

namespace FoldM.Advances

variable {α β : Type}

theorem bind {m : FoldM β} {k : β → FoldM α} (hm : m.Advances) (hk : ∀ b, (k b).Advances) :
    (m >>= k).Advances := by
  intro s
  exact (hm s).bind fun b s' hs => (hk b s').mono fun a s'' hs' => hs.trans hs'

end FoldM.Advances

end Decompiler
