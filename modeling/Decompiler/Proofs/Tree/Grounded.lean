import Decompiler.Proofs.Tree.Growth
import Decompiler.Proofs.Tree.Traversal
import Mathlib.Data.Finset.Card

/-!
Forms that are finite.  What is computed by going down from a form is bounded by the number of
elements in the pool.  No element comes twice on a way down from a finite form, so the bound is
never reached, and a larger pool with the same elements below the form gives the same result.
-/

namespace Decompiler

namespace Pool

/-- Everything below a form is in the pool, and every way down from it ends. -/
inductive Grounded (p : Pool) : FormId → Prop
  | intro {f : FormId} (hform : f.index < p.forms.size)
      (helements : ∀ e ∈ p.elementsOf f, e.index < p.elements.size)
      (hbelow : ∀ e ∈ p.elementsOf f, ∀ g ∈ (p.element e).children, Grounded p g) : Grounded p f

variable {p q : Pool} {f g : FormId} {e : ElementId} {f' : FormId}

namespace Grounded

section

variable (h : p.Grounded f)
include h

theorem form_lt : f.index < p.forms.size := by
  cases h
  assumption

theorem element_lt (he : e ∈ p.elementsOf f) : e.index < p.elements.size := by
  obtain ⟨-, helements, -⟩ := h
  exact helements e he

theorem child (he : e ∈ p.elementsOf f) (hg : g ∈ (p.element e).children) : p.Grounded g := by
  obtain ⟨-, -, hbelow⟩ := h
  exact hbelow e he g hg

theorem mono (hext : p.Extends q) : q.Grounded f := by
  induction h with
  | @intro f hform helements _ ih =>
    have hsame := hext.elementsOf_eq f hform
    refine ⟨Nat.lt_of_lt_of_le hform hext.forms_le, fun e he => ?_, fun e he g hg => ?_⟩
    · rw [hsame] at he
      exact Nat.lt_of_lt_of_le (helements e he) hext.elements_le
    · rw [hsame] at he
      rw [hext.element_eq e (helements e he)] at hg
      exact ih e he g hg

/-- The element of a finite form is the same in a larger pool. -/
theorem single?_eq (hext : p.Extends q) :
    (q.single? f).map q.element = (p.single? f).map p.element := by
  have hsame := hext.elementsOf_eq f h.form_lt
  cases hp : p.single? f with
  | none =>
    have hq : q.single? f = none := by
      rw [← hp, single?, single?, hsame]
    rw [hq]
    rfl
  | some e =>
    rw [single?_of_elementsOf (hsame.trans (elementsOf_of_single? hp)), Option.map_some,
      Option.map_some, hext.element_eq e (h.element_lt (mem_of_single? hp))]

/-- A finite form with an element can be looked into. -/
theorem exists_size (he : p.single? f = some e) : ∃ n, p.elements.size = n + 1 := by
  have hpos := h.element_lt (mem_of_single? he)
  exact ⟨p.elements.size - 1, by omega⟩

end

theorem addSingle {element : Element} (h : ∀ g ∈ element.children, p.Grounded g) :
    (p.addSingle element).2.Grounded (p.addSingle element).1 := by
  obtain ⟨e, he, hform, helem⟩ := (Extends.refl (p.addSingle element).2).single
  refine ⟨addForm_lt _ _, fun e' he' => ?_, fun e' he' g hg => ?_⟩
  · rw [hform, List.mem_singleton] at he'
    rwa [he']
  · rw [hform, List.mem_singleton] at he'
    rw [he', helem] at hg
    exact (h g hg).mono (p.extends_addSingle element)

/-- The root of a tree is a finite form. -/
theorem of_holds {t : FormTree} (h : p.Holds t) : p.Grounded t.id := by
  induction t using FormTree.induct with
  | h f nodes ih =>
    refine ⟨h.forms_lt _ (FormTree.id_mem_forms _), fun e he => ?_, fun e he g hg => ?_⟩
    · rw [h.elementsOf_eq] at he
      obtain ⟨n, hn, rfl⟩ := List.mem_map.1 he
      exact (h.node n hn).elements_lt _ List.mem_cons_self
    · rw [h.elementsOf_eq] at he
      obtain ⟨n, hn, rfl⟩ := List.mem_map.1 he
      have hnode := h.node n hn
      rw [hnode.element_eq, hnode.kids] at hg
      obtain ⟨u, hu, rfl⟩ := List.mem_map.1 hg
      exact ih n hn u hu (hnode.below u hu)

end Grounded

theorem Reaches.head (he : e ∈ p.elementsOf f) (hg : g ∈ (p.element e).children)
    (h : p.Reaches g f') : p.Reaches f f' := by
  induction h with
  | root => exact .child .root he hg
  | child _ he' hg' ih => exact ih.child he' hg'

theorem Reaches.cases_head (h : p.Reaches f f') :
    f' = f ∨ ∃ e ∈ p.elementsOf f, ∃ g ∈ (p.element e).children, p.Reaches g f' := by
  induction h with
  | root => exact .inl rfl
  | @child x g e _ he hg ih =>
    rcases ih with rfl | ⟨e', he', g', hg', hreaches⟩
    · exact .inr ⟨e, he, g, hg, .root⟩
    · exact .inr ⟨e', he', g', hg', hreaches.child he hg⟩

/-- A finite form does not come back below itself. -/
theorem Grounded.not_below_self (h : p.Grounded f) (hreaches : p.Reaches f f')
    (he : e ∈ p.elementsOf f') : f ∉ (p.element e).children := by
  induction h generalizing e f' with
  | @intro f _ _ _ ih =>
    intro hf
    -- A way from the form back to itself is also a way from the form after it back to that one.
    rcases hreaches.cases_head with rfl | ⟨e', he', g, hg, hreaches⟩
    · exact ih e he f' hf .root he hf
    · exact ih e' he' g hg (hreaches.child he hf) he' hg

theorem Grounded.not_reaches_self (h : p.Grounded f) (he : e ∈ p.elementsOf f)
    (hg : g ∈ (p.element e).children) {e' : ElementId} (hreaches : p.ReachesElement g e') :
    e'.index ≠ e.index := by
  intro hindex
  have hsame : e' = e := by
    cases e
    cases e'
    exact congrArg ElementId.mk hindex
  obtain ⟨f', hreaches, hmem⟩ := hreaches
  rw [hsame] at hmem
  exact (h.child he hg).not_below_self hreaches hmem hg

section Descent

variable {α : Type} {down down' : Nat → FormId → α}

/-- Two ways of going down from a form to a depth find the same when they find the same right
below it. -/
def GoesDownAs (p : Pool) (down down' : Nat → FormId → α) : Prop :=
  ∀ depth depth' f, p.Grounded f →
    (∀ e ∈ p.elementsOf f, ∀ g ∈ (p.element e).children, down depth g = down' depth' g) →
      down (depth + 1) f = down' (depth' + 1) f

variable {depth : Nat}

section

variable (hdown : p.GoesDownAs down down) (hempty : ∀ f, p.elementsOf f = [] → down 1 f = down 0 f)
  (h : p.Grounded f)
include hdown hempty h

/-- Elements that were met on the way down are not met again, so there are fewer left than the
depth allows. -/
theorem Grounded.succ_eq_of_met (met : Finset Nat) (hmet : ∀ i ∈ met, i < p.elements.size)
    (hfresh : ∀ e, p.ReachesElement f e → e.index ∉ met)
    (hdepth : p.elements.size ≤ depth + met.card) : down (depth + 1) f = down depth f := by
  induction depth generalizing f met with
  | zero =>
    have hall : met = Finset.range p.elements.size := by
      refine Finset.eq_of_subset_of_card_le (fun i hi => Finset.mem_range.2 (hmet i hi)) ?_
      rw [Finset.card_range]
      omega
    refine hempty f (List.eq_nil_iff_forall_not_mem.2 fun e he => ?_)
    refine hfresh e ⟨f, .root, he⟩ ?_
    rw [hall]
    exact Finset.mem_range.2 (h.element_lt he)
  | succ depth ih =>
    refine hdown _ _ f h fun e he g hg => ?_
    have hnew : e.index ∉ met := hfresh e ⟨f, .root, he⟩
    refine ih (h.child he hg) (insert e.index met) (fun i hi => ?_) (fun e' he' hi => ?_) ?_
    · rcases Finset.mem_insert.1 hi with rfl | hi
      · exact h.element_lt he
      · exact hmet i hi
    · rcases Finset.mem_insert.1 hi with hsame | hi
      · exact h.not_reaches_self he hg he' hsame
      · obtain ⟨f', hreaches, hmem⟩ := he'
        exact hfresh e' ⟨f', hreaches.head he hg, hmem⟩ hi
    · rw [Finset.card_insert_of_notMem hnew]
      omega

/-- From a finite form, going deeper than the pool is large finds nothing more. -/
theorem Grounded.deeper_eq (hdepth : p.elements.size ≤ depth) :
    down depth f = down p.elements.size f := by
  induction depth, hdepth using Nat.le_induction with
  | base => rfl
  | succ depth hle ih =>
    rw [← ih]
    exact h.succ_eq_of_met hdown hempty ∅ (by simp) (by simp) (by simpa using hle)

/-- Right below a finite form, one step less is enough. -/
theorem Grounded.child_eq (he : e ∈ p.elementsOf f) (hg : g ∈ (p.element e).children) :
    down p.elements.size g = down (p.elements.size - 1) g := by
  have hpos := h.element_lt he
  have hsize : p.elements.size - 1 + 1 = p.elements.size := by omega
  rw [← hsize]
  refine (h.child he hg).succ_eq_of_met hdown hempty {e.index} (by simpa using hpos) ?_ ?_
  · exact fun e' he' hsame => h.not_reaches_self he hg he' (Finset.mem_singleton.1 hsame)
  · rw [Finset.card_singleton]
    omega

end

/-- In a larger pool the same is found. -/
theorem Grounded.larger_eq (hdown : p.GoesDownAs down down) (hboth : p.GoesDownAs down' down)
    (hempty : ∀ f, p.elementsOf f = [] → down 1 f = down 0 f) (hzero : ∀ f, down' 0 f = down 0 f)
    (hext : p.Extends q) (h : p.Grounded f) : down' q.elements.size f = down p.elements.size f := by
  have hsame : ∀ depth {f}, p.Grounded f → down' depth f = down depth f := by
    intro depth
    induction depth with
    | zero => exact fun _ => hzero _
    | succ depth ih => exact fun h => hboth _ _ _ h fun e he g hg => ih (h.child he hg)
  rw [hsame _ h, h.deeper_eq hdown hempty hext.elements_le]

end Descent

end Pool

end Decompiler
