import Decompiler.Proofs.Fold.Account
import Decompiler.Proofs.Fold.Operands
import Decompiler.Proofs.Tree.Evaluation

/-!
Taking entries off the stack.  What waits on the stack is evaluated from the oldest entry
to the latest one; an entry that is taken is evaluated behind all that stay.  So it is
moved past the entries above it, and past those that are taken and evaluated before it.  What
is made of the entries consists of what they are made of, and of atoms for the operands that
were not popped.
-/

namespace Decompiler

open List

variable {E taken : List Held} {held : Held} {read : List Register} {T : List Observation}

/-- One member of a list stands before another. -/
def Precedes {α : Type} (l : List α) (x y : α) : Prop := [x, y].Sublist l

namespace Precedes

variable {α : Type} {l l' : List α} {x y : α}

theorem cons_iff {a : α} : Precedes (a :: l) x y ↔ x = a ∧ y ∈ l ∨ Precedes l x y := by
  rw [Precedes, cons_sublist_cons', singleton_sublist, or_comm]
  rfl

theorem append_iff :
    Precedes (l ++ l') x y ↔ Precedes l x y ∨ x ∈ l ∧ y ∈ l' ∨ Precedes l' x y := by
  induction l with
  | nil => simp [Precedes]
  | cons a l ih =>
    rw [cons_append, cons_iff, cons_iff, ih, mem_append, mem_cons]
    grind

theorem reverse_iff : Precedes l.reverse x y ↔ Precedes l y x := by
  rw [Precedes, ← reverse_sublist, reverse_reverse]
  rfl

theorem mono (h : Precedes l x y) (hsub : l.Sublist l') : Precedes l' x y := List.Sublist.trans h hsub

theorem left_mem (h : Precedes l x y) : x ∈ l := h.subset mem_cons_self

theorem right_mem (h : Precedes l x y) : y ∈ l :=
  h.subset (mem_cons_of_mem _ mem_cons_self)

theorem asymm (hnodup : l.Nodup) (h : Precedes l x y) : ¬Precedes l y x := by
  induction l with
  | nil => cases h
  | cons a l ih =>
    obtain ⟨ha, hl⟩ := nodup_cons.1 hnodup
    intro h'
    rcases cons_iff.1 h with ⟨rfl, hy⟩ | hxy
    · rcases cons_iff.1 h' with ⟨rfl, -⟩ | hyx
      · exact ha hy
      · exact ha hyx.right_mem
    · rcases cons_iff.1 h' with ⟨rfl, -⟩ | hyx
      · exact ha hxy.right_mem
      · exact ih hl hxy hyx

theorem filter_iff {test : α → Bool} (hx : test x = true) (hy : test y = true) :
    Precedes (l.filter test) x y ↔ Precedes l x y := by
  refine ⟨fun h => h.mono filter_sublist, fun h => ?_⟩
  have hboth := List.Sublist.filter test h
  rw [filter_cons_of_pos hx, filter_cons_of_pos hy, filter_nil] at hboth
  exact hboth

/-- What stands before a member is what stands left of it. -/
theorem middle_iff {l₁ l₂ : List α} (hnodup : (l₁ ++ y :: l₂).Nodup) :
    Precedes (l₁ ++ y :: l₂) x y ↔ x ∈ l₁ := by
  obtain ⟨-, hrest, hdisjoint⟩ := nodup_append.1 hnodup
  have hy : y ∉ l₂ := (nodup_cons.1 hrest).1
  rw [append_iff, cons_iff]
  constructor
  · rintro (hpair | ⟨hx, -⟩ | ⟨-, hmem⟩ | hpair)
    · exact absurd rfl (hdisjoint y hpair.right_mem y mem_cons_self)
    · exact hx
    · exact absurd hmem hy
    · exact absurd hpair.right_mem hy
  · exact fun hx => .inr (.inl ⟨hx, mem_cons_self⟩)

/-- Putting a list into another order does not change what its members produce one after the
other, if of two members that change places one produces nothing. -/
theorem flatMap_eq_of_perm {β : Type} {g : α → List β} (hperm : l.Perm l')
    (h : ∀ x y, Precedes l' x y → Precedes l y x → g x = [] ∨ g y = []) :
    l.flatMap g = l'.flatMap g := by
  induction l generalizing l' with
  | nil => rw [hperm.nil_eq]
  | cons a l ih =>
    obtain ⟨before, after, rfl⟩ := append_of_mem (hperm.subset mem_cons_self)
    have hrest : l.Perm (before ++ after) := (hperm.trans perm_middle).cons_inv
    have hsub : (before ++ after).Sublist (before ++ a :: after) :=
      (sublist_cons_self a after).append_left before
    have hsame := ih hrest fun x y hxy hyx => h x y (hxy.mono hsub) (cons_iff.2 (.inr hyx))
    -- All that come before the first member now came behind it.
    have hfirst : g a = [] ∨ before.flatMap g = [] := by
      by_cases ha : g a = []
      · exact .inl ha
      · refine .inr (flatMap_eq_nil_iff.2 fun x hx => ?_)
        refine (h x a ?_ ?_).resolve_right ha
        · exact append_iff.2 (.inr (.inl ⟨hx, mem_cons_self⟩))
        · exact cons_iff.2 (.inl ⟨rfl, hrest.symm.subset (mem_append_left _ hx)⟩)
    rw [flatMap_cons, hsame, flatMap_append, flatMap_append, flatMap_cons]
    rcases hfirst with hnil | hnil <;> rw [hnil] <;> rfl

end Precedes

def Pending.register? : Pending → Option Register
  | assign dst _ _ _ _ => some dst.register
  | statement _ _ => none
  | division _ => none

/-- An entry has the value of a register; a division has both of its results. -/
def Pending.Supplies (q : Pending) (r : Register) : Prop :=
  q.register? = some r ∨ (∃ e, q = .division e) ∧ (r = .hi ∨ r = .lo)

def Observation.Reads (o : Observation) (r : Register) : Prop :=
  ∃ v ∈ o.2.localReads, v.register = r

namespace Held

def substance : Held → List Observation
  | value _ t _ _ => t.substance
  | statement n _ => n.substance
  | division n => n.substance

/-- Some entries are taken off the stack and evaluated in a given order, the others are
kept.  An entry is never taken from under a sequence point that is kept.  If an entry is
evaluated before another one that is taken as well, its register comes first among the
operands; a strict rule does not turn them around at a sequence point either. -/
structure Takes (strict : Bool) (operands : List (Option Register))
    (E taken kept : List Held) : Prop where
  perm : E.Perm (kept ++ taken)
  sublist : kept.Sublist E
  crosses : ∀ upper ∈ kept, ∀ lower ∈ taken, Precedes E upper lower →
    upper.pending.isSequencePoint = false
  turns : strict = true → ∀ upper lower, Precedes taken upper lower → Precedes E upper lower →
    upper.pending.isSequencePoint = false
  places : ∀ first second, Precedes taken first second →
    [first.pending.register?, second.pending.register?].Sublist operands

namespace Takes

variable {strict : Bool} {operands : List (Option Register)} {kept : List Held}

/-- Nothing is taken. -/
theorem nothing (strict : Bool) (operands : List (Option Register)) (E : List Held) :
    Takes strict operands E [] E where
  perm := by rw [append_nil]
  sublist := List.Sublist.refl E
  crosses := by simp
  turns := by simp [Precedes]
  places := by simp [Precedes]

variable {above below : List Held}

/-- An entry is taken one after others; it is evaluated before them. -/
theorem cons (h : Takes strict operands E taken kept) (hnodup : E.Nodup)
    (hkept : kept = above ++ held :: below)
    (habove : ∀ upper ∈ above, upper.pending.isSequencePoint = false) (hplaces : ∀ second ∈ taken,
      [held.pending.register?, second.pending.register?].Sublist operands) :
    Takes strict operands E (held :: taken) (above ++ below) := by
  have hsub : (above ++ below).Sublist kept :=
    hkept ▸ (sublist_cons_self held below).append_left above
  have hheld : held ∈ kept := hkept ▸ mem_append_right _ mem_cons_self
  refine ⟨?_, hsub.trans h.sublist, ?_, ?_, ?_⟩
  · refine h.perm.trans ?_
    rw [hkept]
    exact (perm_middle.append_right taken).trans perm_middle.symm
  · intro upper hupper lower hlower hE
    rcases mem_cons.1 hlower with rfl | hlower
    · -- Only what is above the entry is crossed.
      rcases mem_append.1 hupper with hupper | hupper
      · exact habove upper hupper
      · have hbelow : Precedes kept lower upper := by
          rw [hkept]
          exact Precedes.append_iff.2 (.inr (.inr (Precedes.cons_iff.2 (.inl ⟨rfl, hupper⟩))))
        exact absurd (hbelow.mono h.sublist) (hE.asymm hnodup)
    · exact h.crosses upper (hsub.subset hupper) lower hlower hE
  · intro hstrict upper lower htaken hE
    rcases Precedes.cons_iff.1 htaken with ⟨rfl, hlower⟩ | htaken
    · exact h.crosses upper hheld lower hlower hE
    · exact h.turns hstrict upper lower htaken hE
  · intro first second hpair
    rcases Precedes.cons_iff.1 hpair with ⟨rfl, hsecond⟩ | hpair
    · exact hplaces second hsecond
    · exact h.places first second hpair

/-- One entry is taken. -/
theorem single (strict : Bool) (operands : List (Option Register))
    (hnodup : (above ++ held :: below).Nodup)
    (habove : ∀ upper ∈ above, upper.pending.isSequencePoint = false) :
    Takes strict operands (above ++ held :: below) [held] (above ++ below) :=
  (nothing strict operands _).cons hnodup rfl habove fun _ h => by cases h

variable (h : Takes strict operands E taken kept)
include h

/-- The entries that are taken can be evaluated in any order by a rule that is not strict. -/
theorem reorder {operands' : List (Option Register)} {taken' : List Held}
    (hperm : taken.Perm taken') (hplaces : ∀ first second, Precedes taken' first second →
      [first.pending.register?, second.pending.register?].Sublist operands') :
    Takes false operands' E taken' kept where
  perm := h.perm.trans (hperm.append_left kept)
  sublist := h.sublist
  crosses := fun upper hupper lower hlower => h.crosses upper hupper lower (hperm.mem_iff.2 hlower)
  turns := fun hstrict => by cases hstrict
  places := hplaces

/-- If two entries change places, the lower one is taken.  The upper one is kept, or it is
taken as well and comes first among the operands. -/
theorem of_precedes (hnodup : E.Nodup) {upper lower : Held} (hE : Precedes E upper lower)
    (hnew : Precedes (kept.reverse ++ taken) upper lower) :
    lower ∉ kept ∧ (upper ∈ kept ∧ upper.pending.isSequencePoint = false ∨ upper ∉ kept ∧
      [upper.pending.register?, lower.pending.register?].Sublist operands ∧
      (strict = true → upper.pending.isSequencePoint = false)) := by
  have hdisjoint : ∀ held ∈ taken, held ∉ kept := fun held htaken hkept =>
    (nodup_append.1 (h.perm.nodup_iff.1 hnodup)).2.2 held hkept held htaken rfl
  rcases Precedes.append_iff.1 hnew with hkept | ⟨hupper, hlower⟩ | htaken
  · exact absurd ((Precedes.reverse_iff.1 hkept).mono h.sublist) (hE.asymm hnodup)
  · have hupper := mem_reverse.1 hupper
    exact ⟨hdisjoint lower hlower, .inl ⟨hupper, h.crosses upper hupper lower hlower hE⟩⟩
  · exact ⟨hdisjoint lower htaken.right_mem, .inr ⟨hdisjoint upper htaken.left_mem,
      h.places upper lower htaken, fun hstrict => h.turns hstrict upper lower htaken hE⟩⟩

/-- If of two entries that change places one produces nothing, all produce the same as
before. -/
theorem flatMap_eq {β : Type} {g : Held → List β} (hclear : ∀ upper lower, Precedes E upper lower →
      Precedes (kept.reverse ++ taken) upper lower → g upper = [] ∨ g lower = []) :
    E.reverse.flatMap g = kept.reverse.flatMap g ++ taken.flatMap g := by
  have hperm : E.reverse.Perm (kept.reverse ++ taken) :=
    (reverse_perm E).trans (h.perm.trans ((reverse_perm kept).symm.append_right taken))
  rw [← flatMap_append]
  exact Precedes.flatMap_eq_of_perm hperm fun upper lower hnew hE =>
    hclear upper lower (Precedes.reverse_iff.1 hE) hnew

end Takes

end Held

variable {hs : List Root} {s : FoldState}

/-- Two entries never stand for the same. -/
theorem FoldState.Lists.nodup_pending (h : s.Lists E hs) : (E.map Held.pending).Nodup := by
  have howns : s.pool.Owns (E.map Held.root) := h.owns.sublist (sublist_append_right _ _)
  have helements := (pairwise_map.1 (nodup_flatMap.1 howns.elements).2)
  have hforms := (pairwise_map.1 (nodup_flatMap.1 howns.forms).2)
  rw [List.Nodup, pairwise_map]
  refine (helements.and hforms).imp fun {held held'} hdisjoint heq => ?_
  obtain ⟨helements, hforms⟩ := hdisjoint
  -- Values share their form, other entries their element.
  cases held with
  | value dst t ordered notes =>
    cases held' with
    | value dst' u ordered' notes' =>
      injection heq with _ hid
      exact hforms t.id_mem_forms (hid ▸ u.id_mem_forms)
    | statement n ordered' => cases heq
    | division n => cases heq
  | statement n ordered =>
    cases held' with
    | value dst' u ordered' notes' => cases heq
    | statement m ordered' =>
      injection heq with hid
      exact helements (a := n.id) mem_cons_self (hid ▸ mem_cons_self)
    | division m => cases heq
  | division n =>
    cases held' with
    | value dst' u ordered' notes' => cases heq
    | statement m ordered' => cases heq
    | division m =>
      injection heq with hid
      exact helements (a := n.id) mem_cons_self (hid ▸ mem_cons_self)

theorem FoldState.Lists.nodup (h : s.Lists E hs) : E.Nodup := h.nodup_pending.of_map

/-- Something is made of entries that were taken, in the order in which they are evaluated, and
of atoms.  Some registers are read by it, or entries that were taken supply them. -/
structure Brings (read : List Register) (taken : List Held) (T : List Observation) : Prop where
  plain : ∀ held ∈ taken, held.control? = none
  perm : ∃ fresh : List Observation, (∀ o ∈ fresh, ∃ a, o.2 = .atom a) ∧
    T.Perm (taken.flatMap Held.substance ++ fresh)
  observed : (T.filter fun o => o.2.isObserved) =
    (taken.flatMap Held.substance).filter fun o => o.2.isObserved
  covers : ∀ r ∈ read, (∃ o ∈ T, o.Reads r) ∨ ∃ held ∈ taken, held.pending.Supplies r

namespace Brings

theorem nothing : Brings [] [] [] :=
  ⟨by simp, ⟨[], by simp, .refl _⟩, rfl, by simp⟩

theorem mono {read' : List Register} (h : Brings read taken T) (hread : ∀ r ∈ read', r ∈ read) :
    Brings read' taken T := { h with covers := fun r hr => h.covers r (hread r hr) }

/-- An entry is taken as it is. -/
theorem single (hplain : held.control? = none) (hread : ∀ r ∈ read, held.pending.Supplies r) :
    Brings read [held] held.substance where
  plain := by simpa using hplain
  perm := ⟨[], by simp, by simp⟩
  observed := by rw [flatMap_singleton]
  covers r hr := .inr ⟨held, mem_cons_self, hread r hr⟩

/-- An entry of atoms is taken and put into another order. -/
theorem atoms (hplain : held.control? = none) (hperm : T.Perm held.substance)
    (hatoms : ∀ o ∈ held.substance, ∃ a, o.2 = .atom a)
    (hread : ∀ r ∈ read, (∃ o ∈ held.substance, o.Reads r) ∨ held.pending.Supplies r) :
    Brings read [held] T := by
  have hunseen : ∀ o ∈ held.substance, ¬o.2.isObserved = true := by
    intro o ho
    obtain ⟨a, ha⟩ := hatoms o ho
    rw [ha]
    exact Bool.false_ne_true
  refine ⟨by simpa using hplain, ⟨[], by simp, by simpa using hperm⟩, ?_, fun r hr => ?_⟩
  · rw [flatMap_singleton, filter_eq_nil_iff.2 hunseen]
    exact filter_eq_nil_iff.2 fun o ho => hunseen o (hperm.mem_iff.1 ho)
  · rcases hread r hr with ⟨o, ho, hreads⟩ | hsupplies
    · exact .inl ⟨o, hperm.mem_iff.2 ho, hreads⟩
    · exact .inr ⟨held, mem_cons_self, hsupplies⟩

end Brings

namespace Context

/-- What an operand became: the value of an entry that was popped for its register, or a new
atom. -/
inductive Served (cx : Context) (a : Atom) : Option Held → FormTree → Prop
  | popped (dst : Variable) (t : FormTree) (ordered : Bool) (notes : SetNotes)
      (hreg : a.register? = some dst.register) :
      Served cx a (some (.value dst t ordered notes)) t
  | fresh (f : FormId) (e : ElementId) : Served cx a none (.mk f [⟨e, cx.atomElement a, []⟩])

/-- The entries that were popped for operands, and the trees that the operands became. -/
inductive Serves (cx : Context) : List Atom → List (Option Held) → List FormTree → Prop
  | nil : Serves cx [] [] []
  | cons {a : Atom} {as : List Atom} {held : Option Held} {found : List (Option Held)}
      {t : FormTree} {ts : List FormTree} (hfirst : Served cx a held t)
      (hrest : Serves cx as found ts) : Serves cx (a :: as) (held :: found) (t :: ts)

variable {cx : Context} {p : Pool} {a : Atom} {atoms as : List Atom} {consumed : RegisterSet}
  {effects : Bool} {E' : List Held} {os : List (Option FormTree)} {t : FormTree}
  {ts : List FormTree} {held : Option Held} {found : List (Option Held)}

theorem atomElement_of_register? {r : Register} (h : a.register? = some r) :
    cx.atomElement a = .atom a := by
  cases a with
  | label name => cases h
  | _ => rfl

/-- Only an atom of a register is of substance. -/
theorem isPlain_atomElement (h : a.register? = none) : (cx.atomElement a).isPlain = true := by
  rcases cx.atomElement_cases a with ha | ⟨text, ha⟩
  · rw [ha, Element.isPlain, h]
    rfl
  · rw [ha]
    rfl

theorem substance_fresh (f : FormId) (e : ElementId) :
    (FormTree.mk f [⟨e, cx.atomElement a, []⟩]).substance = (cx.atomElement a).substance e := by
  rw [FormTree.substance_single, Node.substance_eq]
  rfl

theorem Served.substance_eq_nil (h : Served cx a held t) (hnone : a.register? = none) :
    t.substance = [] := by
  cases h with
  | popped dst t ordered notes hreg => cases hnone.symm.trans hreg
  | fresh f e => rw [substance_fresh, Element.substance, if_pos (isPlain_atomElement hnone)]

/-- An operand more is brought. -/
theorem Served.brings (h : Served cx a held t) (hrest : Brings read taken T) :
    Brings (a.register?.toList ++ read) (held.toList ++ taken) (t.substance ++ T) := by
  obtain ⟨hplain, ⟨fresh, hatoms, hperm⟩, hobserved, hcovers⟩ := hrest
  have hmore : ∀ r ∈ read, (∃ o ∈ t.substance ++ T, o.Reads r) ∨
      ∃ h ∈ held.toList ++ taken, h.pending.Supplies r := by
    intro r hr
    rcases hcovers r hr with ⟨o, ho, hreads⟩ | ⟨h, hh, hsupplies⟩
    · exact .inl ⟨o, mem_append_right _ ho, hreads⟩
    · exact .inr ⟨h, mem_append_right _ hh, hsupplies⟩
  cases h with
  | popped dst t ordered notes hreg =>
    refine ⟨forall_mem_cons.2 ⟨rfl, hplain⟩, ⟨fresh, hatoms, ?_⟩, ?_, fun r hr => ?_⟩
    · rw [Option.toList_some, singleton_append, flatMap_cons, append_assoc]
      exact hperm.append_left _
    · rw [Option.toList_some, singleton_append, flatMap_cons, filter_append,
        filter_append, hobserved]
      rfl
    · rw [hreg, Option.toList_some, singleton_append] at hr
      rcases mem_cons.1 hr with rfl | hr
      · exact .inr ⟨_, mem_cons_self, .inl rfl⟩
      · exact hmore r hr
  | fresh f e =>
    rw [substance_fresh] at hmore ⊢
    rw [Option.toList_none, nil_append] at hmore ⊢
    cases hreg : a.register? with
    | none =>
      rw [Element.substance, if_pos (isPlain_atomElement hreg)]
      exact ⟨hplain, ⟨fresh, hatoms, hperm⟩, hobserved, hcovers⟩
    | some r =>
      rw [atomElement_of_register? hreg] at hmore ⊢
      have hatom : (Element.atom a).substance e = [(e, .atom a)] := by
        rw [Element.substance, Element.isPlain, hreg]
        rfl
      rw [hatom] at hmore ⊢
      refine ⟨hplain, ⟨(e, .atom a) :: fresh, forall_mem_cons.2 ⟨⟨a, rfl⟩, hatoms⟩, ?_⟩,
        hobserved, fun r' hr' => ?_⟩
      · exact (hperm.cons _).trans perm_middle.symm
      · rcases mem_cons.1 hr' with rfl | hr'
        · obtain ⟨v, hv, hreg⟩ := Option.map_eq_some_iff.1 hreg
          exact .inl ⟨_, mem_cons_self, v, Option.mem_toList.2 hv, hreg⟩
        · exact hmore r' hr'

theorem filterMap_id_cons {α : Type} (o : Option α) (os : List (Option α)) :
    (o :: os).filterMap id = o.toList ++ os.filterMap id := by
  cases o <;> rfl

/-- Operands are brought in their order. -/
theorem Serves.brings (h : Serves cx as found ts) :
    Brings (as.filterMap Atom.register?) (found.filterMap id) (ts.flatMap FormTree.substance) := by
  induction h with
  | nil => exact .nothing
  | @cons a as held found t ts hfirst hrest ih =>
    have hsplit : (a :: as).filterMap Atom.register? =
        a.register?.toList ++ as.filterMap Atom.register? := by
      rw [filterMap_cons]
      cases a.register? <;> rfl
    rw [hsplit, filterMap_id_cons, flatMap_cons]
    exact hfirst.brings ih

/-- An operand that is not a register is of no substance. -/
theorem Serves.constant (h : Serves cx as found ts) :
    List.Forall₂ (fun a t => a.register? = none → t.substance = []) as ts := by
  induction h with
  | nil => exact .nil
  | cons hfirst hrest ih => exact .cons hfirst.substance_eq_nil ih

theorem Served.register_eq (h : Served cx a held t) :
    ∀ h ∈ held, h.pending.register? = a.register? := by
  cases h with
  | popped dst t ordered notes hreg =>
    rintro _ ⟨⟩
    exact hreg.symm
  | fresh f e => simp

theorem Serves.register_mem (h : Serves cx as found ts) :
    ∀ held ∈ found.filterMap id, held.pending.register? ∈ as.map Atom.register? := by
  induction h with
  | nil => simp
  | @cons a _ held _ _ _ hfirst hrest ih =>
    intro h hmem
    rw [filterMap_id_cons] at hmem
    rw [map_cons, mem_cons]
    rcases mem_append.1 hmem with hmem | hmem
    · exact .inl (hfirst.register_eq h (Option.mem_toList.1 hmem))
    · exact .inr (ih h hmem)

/-- Two operands can be evaluated in the opposite order. -/
theorem Serves.swap {b : Atom} (h : Serves cx [a, b] found ts)
    (htakes : Held.Takes true [a.register?, b.register?] E (found.filterMap id) E') :
    ∃ t u taken, ts = [t, u] ∧ Held.Takes false [b.register?, a.register?] E taken E' ∧
      Brings ([b, a].filterMap Atom.register?) taken ([u, t].flatMap FormTree.substance) := by
  cases h with
  | @cons _ _ x _ t _ hx hrest =>
  cases hrest with
  | @cons _ _ y _ u _ hy hrest =>
  cases hrest
  have hsingle : ∀ (o : Option Held) first second, ¬Precedes o.toList first second := by
    intro o first second
    cases o <;> simp [Precedes]
  rw [filterMap_id_cons, filterMap_id_cons, filterMap_nil, append_nil] at htakes
  have hbrings := (Serves.cons hy (.cons hx .nil)).brings
  rw [filterMap_id_cons, filterMap_id_cons, filterMap_nil, append_nil] at hbrings
  refine ⟨t, u, y.toList ++ x.toList, rfl, htakes.reorder perm_append_comm ?_, hbrings⟩
  intro first second hpair
  rcases Precedes.append_iff.1 hpair with hpair | ⟨hfirst, hsecond⟩ | hpair
  · exact absurd hpair (hsingle y first second)
  · rw [hy.register_eq first (Option.mem_toList.1 hfirst),
      hx.register_eq second (Option.mem_toList.1 hsecond)]
  · exact absurd hpair (hsingle x first second)

/-- Popping operands takes entries, and evaluates them in the order of the operands. -/
theorem OperandPops.takes (h : OperandPops p atoms consumed effects as E os E') (hnodup : E.Nodup)
    (htrees : List.Forall₂ (fun operand t => OperandTree cx operand.1 operand.2 t) (as.zip os) ts) :
    ∃ found, Held.Takes true (as.map Atom.register?) E (found.filterMap id) E' ∧
      Serves cx as found ts := by
  induction h generalizing ts with
  | nil =>
    cases htrees
    exact ⟨[], .nothing _ _ _, .nil⟩
  | @cons a as o os E E' E'' hrest hpop ih =>
    rw [zip_cons_cons] at htrees
    cases htrees with
    | @cons _ t _ ts htree hmore =>
    obtain ⟨found, htakes, hserves⟩ := ih hnodup hmore
    have htakes : Held.Takes true ((a :: as).map Atom.register?) E (found.filterMap id) E' :=
      { htakes with
        places := fun first second h => (htakes.places first second h).trans
          (sublist_cons_self _ _) }
    cases hpop with
    | kept =>
      cases htree
      exact ⟨none :: found, htakes, .cons (.fresh _ _) hserves⟩
    | @popped r _ _ _ hreg hconsumed honce hpops =>
      cases htree
      cases hpops with
      | @intro above below dst _ ordered notes hdst hpasses =>
        have hserved : Served cx a (some (.value dst t ordered notes)) t :=
          .popped dst t ordered notes (hreg.trans (congrArg some hdst.symm))
        refine ⟨some (.value dst t ordered notes) :: found, ?_, .cons hserved hserves⟩
        refine htakes.cons hnodup rfl hpasses.free fun second hsecond => ?_
        rw [hserved.register_eq _ rfl]
        exact (singleton_sublist.2 (hserves.register_mem second hsecond)).cons_cons _

end Context

end Decompiler
