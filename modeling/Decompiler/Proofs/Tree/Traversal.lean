import Decompiler.Proofs.Tree.Ownership
import Decompiler.Reconstruction
import Mathlib.Data.List.Perm.Subperm
import Mathlib.Logic.Relation

/-!
Going over a tree in a pool.  What can be reached from the root of a tree is what belongs
to the tree, and every way of going over it that is bounded by the size of the pool sees
all of it.
-/

namespace Decompiler

open List

variable {t u : FormTree} {p : Pool} {n : Node FormTree}

/-- A tree inside another. -/
inductive FormTree.Sub (t : FormTree) : FormTree → Prop
  | self : FormTree.Sub t t
  | kid {u v : FormTree} {n : Node FormTree} (hu : FormTree.Sub t u) (hn : n ∈ u.nodes)
      (hv : v ∈ n.kids) : FormTree.Sub t v

namespace FormTree

theorem elements_eq (t : FormTree) : t.elements = t.nodes.flatMap Node.elements := by
  cases t
  rw [elements_mk, nodes_mk]

variable {α β : Type}

theorem sublist_flatMap_of_mem {f : α → List β} {a : α} {as : List α} (h : a ∈ as) :
    (f a).Sublist (as.flatMap f) := sublist_flatten_of_mem (mem_map_of_mem h)

/-- The heads of the lists that are put together are among them, in order. -/
theorem map_sublist_flatMap (own : α → List β) {inner : α → List β} {key : α → β}
    (hown : ∀ a, own a = key a :: inner a) (as : List α) :
    (as.map key).Sublist (as.flatMap own) := by
  induction as with
  | nil => exact .slnil
  | cons a as ih =>
    rw [map_cons, flatMap_cons, hown, cons_append]
    exact (ih.trans (sublist_append_right _ _)).cons_cons _

namespace Sub

theorem elements_sublist (h : t.Sub u) : u.elements.Sublist t.elements := by
  induction h with
  | self => exact List.Sublist.refl _
  | @kid u v n hu hn hv ih =>
    rw [u.elements_eq] at ih
    have hkid : v.elements.Sublist n.elements := (sublist_flatMap_of_mem hv).cons _
    exact (hkid.trans (sublist_flatMap_of_mem hn)).trans ih

variable {v : FormTree}

theorem trans (htu : t.Sub u) (huv : u.Sub v) : t.Sub v := by
  induction huv with
  | self => exact htu
  | kid _ hn hv ih => exact ih.kid hn hv

theorem forms_sublist (h : t.Sub u) : u.forms.Sublist t.forms := by
  induction h with
  | self => exact List.Sublist.refl _
  | @kid u v n hu hn hv ih =>
    rw [u.forms_eq] at ih
    have hkid : v.forms.Sublist n.forms := sublist_flatMap_of_mem hv
    exact ((hkid.trans (sublist_flatMap_of_mem hn)).cons _).trans ih

/-- The root of a tree does not come back below it. -/
theorem id_ne (hnodup : t.forms.Nodup) (h : t.Sub u) {n : Node FormTree} (hn : n ∈ u.nodes)
    (hv : v ∈ n.kids) : v.id ≠ t.id := by
  have hinner : ∀ {u : FormTree}, t.Sub u → u.nodes.flatMap Node.forms ⊆
      t.nodes.flatMap Node.forms := by
    intro u h
    induction h with
    | self => exact List.Subset.refl _
    | @kid u v n hu hn hv ih =>
      intro f hf
      refine ih (mem_flatMap.2 ⟨n, hn, mem_flatMap.2 ⟨v, hv, ?_⟩⟩)
      rw [v.forms_eq]
      exact mem_cons_of_mem _ hf
  intro heq
  rw [t.forms_eq, nodup_cons] at hnodup
  apply hnodup.1
  rw [← heq]
  exact hinner h (mem_flatMap.2 ⟨n, hn, mem_flatMap.2 ⟨v, hv, v.id_mem_forms⟩⟩)

end Sub

/-- The elements of a tree are those that stand in the trees inside it. -/
theorem mem_elements_iff {t : FormTree} {e : ElementId} :
    e ∈ t.elements ↔ ∃ u, t.Sub u ∧ ∃ n ∈ u.nodes, n.id = e := by
  constructor
  · induction t using FormTree.induct with
    | h f nodes ih =>
      intro he
      rw [elements_mk] at he
      obtain ⟨n, hn, he⟩ := mem_flatMap.1 he
      rcases mem_cons.1 he with rfl | he
      · exact ⟨_, .self, n, hn, rfl⟩
      · obtain ⟨v, hv, he⟩ := mem_flatMap.1 he
        obtain ⟨u, hu, m, hm, rfl⟩ := ih n hn v hv he
        exact ⟨u, (Sub.self.kid hn hv).trans hu, m, hm, rfl⟩
  · rintro ⟨u, hu, n, hn, rfl⟩
    apply hu.elements_sublist.subset
    rw [u.elements_eq]
    exact mem_flatMap.2 ⟨n, hn, mem_cons_self⟩

end FormTree

namespace Pool

/-- A form can be reached from another through the elements between. -/
inductive Reaches (p : Pool) (root : FormId) : FormId → Prop
  | root : Reaches p root root
  | child {f g : FormId} {e : ElementId} (hf : Reaches p root f) (he : e ∈ p.elementsOf f)
      (hg : g ∈ (p.element e).children) : Reaches p root g

/-- An element stands in a form that can be reached. -/
def ReachesElement (p : Pool) (root : FormId) (e : ElementId) : Prop :=
  ∃ f, p.Reaches root f ∧ e ∈ p.elementsOf f

/-- An element stands in a child form of another. -/
def ChildOf (p : Pool) (child e : ElementId) : Prop :=
  ∃ f ∈ (p.element e).children, child ∈ p.elementsOf f

/-- Going over elements with a list of those still to be visited; an element gives its place
to the elements of its child forms.  There is an order only if the list runs empty. -/
inductive Visits (p : Pool) : List ElementId → List ElementId → Prop
  | done : Visits p [] []
  | visit {e : ElementId} {pending order : List ElementId}
      (h : Visits p ((p.element e).children.flatMap p.elementsOf ++ pending) order) :
      Visits p (e :: pending) (e :: order)

variable {e : ElementId} {rs : List Root}

theorem Holds.sub (h : p.Holds t) (hu : t.Sub u) : p.Holds u := by
  induction hu with
  | self => exact h
  | kid hu hn hv ih => exact (ih.node _ hn).below _ hv

/-- What can be reached from the root of a tree are the forms of the trees inside it. -/
theorem Holds.reaches_iff (h : p.Holds t) {f : FormId} :
    p.Reaches t.id f ↔ ∃ u, t.Sub u ∧ u.id = f := by
  constructor
  · intro hf
    induction hf with
    | root => exact ⟨t, .self, rfl⟩
    | child hf he hg ih =>
      obtain ⟨u, hu, rfl⟩ := ih
      rw [(h.sub hu).elementsOf_eq] at he
      obtain ⟨n, hn, rfl⟩ := mem_map.1 he
      have hnode := (h.sub hu).node n hn
      rw [hnode.element_eq, hnode.kids] at hg
      obtain ⟨v, hv, rfl⟩ := mem_map.1 hg
      exact ⟨v, hu.kid hn hv, rfl⟩
  · rintro ⟨u, hu, rfl⟩
    induction hu with
    | self => exact .root
    | @kid u v n hu hn hv ih =>
      have hnode := (h.sub hu).node n hn
      refine ih.child (e := n.id) ?_ ?_
      · rw [(h.sub hu).elementsOf_eq]
        exact mem_map_of_mem hn
      · rw [hnode.element_eq, hnode.kids]
        exact mem_map_of_mem hv

theorem Holds.reachesElement_iff (h : p.Holds t) :
    p.ReachesElement t.id e ↔ ∃ u, t.Sub u ∧ ∃ n ∈ u.nodes, n.id = e := by
  constructor
  · rintro ⟨f, hf, he⟩
    obtain ⟨u, hu, rfl⟩ := h.reaches_iff.1 hf
    rw [(h.sub hu).elementsOf_eq] at he
    exact ⟨u, hu, mem_map.1 he⟩
  · rintro ⟨u, hu, n, hn, rfl⟩
    refine ⟨u.id, h.reaches_iff.2 ⟨u, hu, rfl⟩, ?_⟩
    rw [(h.sub hu).elementsOf_eq]
    exact mem_map_of_mem hn

theorem HoldsNode.childOf_iff (h : p.HoldsNode n) :
    p.ChildOf e n.id ↔ ∃ u ∈ n.kids, ∃ m ∈ u.nodes, m.id = e := by
  rw [ChildOf, h.element_eq, h.kids]
  constructor
  · rintro ⟨f, hf, he⟩
    obtain ⟨u, hu, rfl⟩ := mem_map.1 hf
    rw [(h.below u hu).elementsOf_eq] at he
    exact ⟨u, hu, mem_map.1 he⟩
  · rintro ⟨u, hu, m, hm, rfl⟩
    refine ⟨u.id, mem_map_of_mem hu, ?_⟩
    rw [(h.below u hu).elementsOf_eq]
    exact mem_map_of_mem hm

/-- Going down from an element of a tree comes to an end. -/
theorem Holds.acc (h : p.Holds t) : ∀ n ∈ t.nodes, Acc p.ChildOf n.id := by
  induction t using FormTree.induct with
  | h f nodes ih =>
    intro n hn
    have hnode := h.node n hn
    refine ⟨_, fun e he => ?_⟩
    obtain ⟨u, hu, m, hm, rfl⟩ := hnode.childOf_iff.1 he
    exact ih n hn u hu (hnode.below u hu) m hm

theorem Holds.links (h : p.Holds t) : ∀ n ∈ t.nodes, p.parentForm? n.id = some t.id := by
  cases t with
  | mk f nodes => exact fun n hn => ((holds_mk_iff.1 h).2 n hn).1

/-- No list without repetitions of elements in range is longer than the pool. -/
theorem length_le_size {es : List ElementId} (hnodup : es.Nodup)
    (hlt : ∀ e ∈ es, e.index < p.elements.size) : es.length ≤ p.elements.size := by
  have hinjective : Function.Injective ElementId.index := fun a b hab => by
    cases a
    cases b
    congr
  have hsub : es.map ElementId.index ⊆ List.range p.elements.size := by
    intro i hi
    obtain ⟨e, he, rfl⟩ := mem_map.1 hi
    exact mem_range.2 (hlt e he)
  have hle := ((hnodup.map hinjective).subperm hsub).length_le
  rw [length_map, length_range] at hle
  exact hle

theorem Owns.tree_holds (h : p.Owns (.tree t :: rs)) : p.Holds t :=
  h.holds _ mem_cons_self

theorem Owns.tree_elements_nodup (h : p.Owns (.tree t :: rs)) :
    t.elements.Nodup := h.elements.sublist (sublist_append_left _ _)

theorem Owns.tree_forms_nodup (h : p.Owns (.tree t :: rs)) : t.forms.Nodup :=
  h.forms.sublist (sublist_append_left _ _)

theorem Holds.length_le_size (h : p.Holds t) (hnodup : t.elements.Nodup) (hn : n ∈ t.nodes) :
    n.elements.length ≤ p.elements.size := by
  have hle := Pool.length_le_size hnodup h.elements_lt
  rw [t.elements_eq] at hle
  exact Nat.le_trans (FormTree.sublist_flatMap_of_mem hn).length_le hle

/-- Elements below an element are fewer. -/
theorem length_lt_of_kid {m : Node FormTree} (hu : u ∈ n.kids) (hm : m ∈ u.nodes) :
    m.elements.length < n.elements.length := by
  have hkid := (FormTree.sublist_flatMap_of_mem (f := FormTree.elements) hu).length_le
  have hnode := (FormTree.sublist_flatMap_of_mem (f := Node.elements) hm).length_le
  rw [u.elements_eq] at hkid
  change _ < (n.id :: n.kids.flatMap FormTree.elements).length
  rw [length_cons]
  omega

theorem HoldsNode.elementsWithin_eq (h : p.HoldsNode n) {depth : Nat}
    (hdepth : n.elements.length ≤ depth) : p.elementsWithin depth n.id = n.elements := by
  induction depth generalizing n with
  | zero =>
    rw [Node.elements, length_cons] at hdepth
    omega
  | succ depth ih =>
    rw [elementsWithin, h.element_eq, h.kids, flatMap_map, Node.elements]
    congr 1
    refine flatMap_congr fun u hu => ?_
    rw [(h.below u hu).elementsOf_eq, flatMap_map, u.elements_eq]
    refine flatMap_congr fun m hm => ?_
    apply ih ((h.below u hu).node m hm)
    have := length_lt_of_kid hu hm
    omega

section

variable (h : p.Holds t) (hnodup : t.elements.Nodup)
include h hnodup

theorem Holds.elementsUnder_eq (hn : n ∈ t.nodes) : p.elementsUnder n.id = n.elements :=
  (h.node n hn).elementsWithin_eq (h.length_le_size hnodup hn)

/-- All elements below the root of a tree are those of the tree. -/
theorem Holds.elementsIn_eq : p.elementsIn t.id = t.elements := by
  rw [elementsIn, h.elementsOf_eq, flatMap_map, t.elements_eq]
  exact flatMap_congr fun n hn => h.elementsUnder_eq hnodup hn

/-- All elements below the root of a tree are those that can be reached from it. -/
theorem Holds.mem_elementsIn_iff : e ∈ p.elementsIn t.id ↔ p.ReachesElement t.id e := by
  rw [h.elementsIn_eq hnodup, FormTree.mem_elements_iff, h.reachesElement_iff]

end

theorem node_elements_eq (n : Node FormTree) :
    n.elements = n.id :: (n.kids.flatMap FormTree.nodes).flatMap Node.elements := by
  rw [Node.elements, flatMap_assoc]
  exact congrArg _ (flatMap_congr fun u _ => u.elements_eq)

theorem HoldsNode.flatMap_elementsOf_eq (h : p.HoldsNode n) :
    (p.element n.id).children.flatMap p.elementsOf =
      (n.kids.flatMap FormTree.nodes).map Node.id := by
  rw [h.element_eq, h.kids, flatMap_map, map_flatMap]
  exact flatMap_congr fun u hu => (h.below u hu).elementsOf_eq

/-- Visiting runs through the elements of a tree in order, whatever is waiting behind them. -/
theorem visits_nodes {ns : List (Node FormTree)} (hns : ∀ n ∈ ns, p.HoldsNode n)
    {pending order : List ElementId} (h : p.Visits pending order) :
    p.Visits (ns.map Node.id ++ pending) (ns.flatMap Node.elements ++ order) := by
  -- A visit puts the elements below in front, so what shrinks is the number of elements left.
  induction hlength : (ns.flatMap Node.elements).length using Nat.strongRecOn
    generalizing ns with
  | _ length ih =>
    subst hlength
    cases ns with
    | nil => exact h
    | cons n ns =>
      have hnode := hns n mem_cons_self
      have hbelow : p.Visits ((n.kids.flatMap FormTree.nodes ++ ns).map Node.id ++ pending)
          ((n.kids.flatMap FormTree.nodes ++ ns).flatMap Node.elements ++ order) := by
        refine ih _ ?_ ?_ rfl
        · rw [flatMap_append, flatMap_cons, node_elements_eq n, cons_append,
            length_cons]
          exact Nat.lt_succ_self _
        · intro m hm
          rcases mem_append.1 hm with hm | hm
          · obtain ⟨u, hu, hm⟩ := mem_flatMap.1 hm
            exact (hnode.below u hu).node m hm
          · exact hns m (mem_cons_of_mem _ hm)
      rw [map_append, flatMap_append, append_assoc] at hbelow
      rw [map_cons, flatMap_cons, node_elements_eq, cons_append, cons_append, cons_append]
      refine .visit ?_
      rw [hnode.flatMap_elementsOf_eq]
      exact hbelow

/-- Visiting the elements of a form goes over all elements below it. -/
theorem Holds.visits (h : p.Holds t) (hnodup : t.elements.Nodup) :
    p.Visits (p.elementsOf t.id) (p.elementsIn t.id) := by
  have hall := visits_nodes h.node .done
  rw [append_nil, append_nil, ← t.elements_eq] at hall
  rw [h.elementsOf_eq, h.elementsIn_eq hnodup]
  exact hall

theorem forM_eq_ok {α : Type} {check : α → Except Error PUnit} {as : List α}
    (h : ∀ a ∈ as, check a = .ok ()) : as.forM check = .ok () := by
  induction as with
  | nil => rfl
  | cons a as ih =>
    rw [List.forM, h a mem_cons_self, ih fun b hb => h b (mem_cons_of_mem _ hb)]
    rfl

theorem Holds.checkForm_eq (h : p.Holds t) : p.checkForm t.id = .ok () := by
  refine forM_eq_ok fun e he => ?_
  rw [h.elementsOf_eq] at he
  obtain ⟨n, hn, rfl⟩ := mem_map.1 he
  have hnode := h.node n hn
  rw [if_neg (not_not_intro (h.links n hn)), hnode.element_eq, hnode.kids]
  refine forM_eq_ok fun f hf => ?_
  obtain ⟨u, hu, rfl⟩ := mem_map.1 hf
  rw [if_neg (not_not_intro (hnode.links u hu))]
  rfl

/-- No check of the links of a tree fails, however deep it looks. -/
theorem Holds.checkLinksWithin_eq (h : p.Holds t) (depth : Nat) :
    p.checkLinksWithin depth t.id = .ok () := by
  induction depth generalizing t with
  | zero => rfl
  | succ depth ih =>
    rw [checkLinksWithin, h.checkForm_eq]
    refine forM_eq_ok fun f hf => ?_
    rw [mem_reverse, childForms, h.elementsOf_eq, flatMap_map, mem_flatMap] at hf
    obtain ⟨n, hn, hf⟩ := hf
    have hnode := h.node n hn
    rw [hnode.element_eq, hnode.kids] at hf
    obtain ⟨u, hu, rfl⟩ := mem_map.1 hf
    exact ih (hnode.below u hu)

end Pool

namespace Vocabulary

variable {child child' : ElementId → Rendered}

theorem armSexps_congr {α : Type} {condition body : α → FormId} {arms : List α} (h : ∀ arm ∈ arms,
      (p.elementsOf (condition arm)).map child = (p.elementsOf (condition arm)).map child' ∧
        (p.elementsOf (body arm)).map child = (p.elementsOf (body arm)).map child') :
    (arms.map fun arm => Sexp.list (Rendered.formCondition ((p.elementsOf (condition arm)).map child)
        :: Rendered.formStatements ((p.elementsOf (body arm)).map child))) =
      arms.map fun arm => Sexp.list (Rendered.formCondition
        ((p.elementsOf (condition arm)).map child')
          :: Rendered.formStatements ((p.elementsOf (body arm)).map child')) :=
  map_congr_left fun arm harm => by rw [(h arm harm).1, (h arm harm).2]

/-- How an element is written depends only on how the elements of its child forms are. -/
theorem elementRendered_congr (v : Vocabulary) (p : Pool) {element : Element}
    (h : ∀ f ∈ element.children, ∀ e ∈ p.elementsOf f, child e = child' e) :
    v.elementRendered p child element = v.elementRendered p child' element := by
  have hparts : ∀ f ∈ element.children, (p.elementsOf f).map child = (p.elementsOf f).map child' :=
    fun f hf => map_congr_left (h f hf)
  have hforms : ∀ {fs : List FormId}, fs ⊆ element.children →
      (fs.map fun f => Rendered.formSexp ((p.elementsOf f).map child)) =
        fs.map fun f => Rendered.formSexp ((p.elementsOf f).map child') :=
    fun hfs => map_congr_left fun f hf => by rw [hparts f (hfs hf)]
  have harms : ∀ {α : Type} {condition body : α → FormId} {arms : List α},
      (arms.flatMap fun arm => [condition arm, body arm]) ⊆ element.children → ∀ arm ∈ arms,
        (p.elementsOf (condition arm)).map child = (p.elementsOf (condition arm)).map child' ∧
          (p.elementsOf (body arm)).map child = (p.elementsOf (body arm)).map child' :=
    fun hsub arm harm => ⟨hparts _ (hsub (mem_flatMap.2 ⟨arm, harm, by simp⟩)),
      hparts _ (hsub (mem_flatMap.2 ⟨arm, harm, by simp⟩))⟩
  cases element with
  | atom | text | expression | store | operation | call | branch | empty | moveFalse => rfl
  | load base | set _ base | cast _ base | abs base | typeOf base =>
    simp only [elementRendered, hparts base mem_cons_self]
  | setPlace f g | divide f g | ash f g =>
    simp only [elementRendered, hparts f (by simp [Element.children]),
      hparts g (by simp [Element.children])]
  | condition test args =>
    simp only [elementRendered, hforms (List.Subset.refl args)]
  | apply head args =>
    cases head with
    | builtin b => simp only [elementRendered, hforms (List.Subset.refl args)]
    | test t => simp only [elementRendered, hforms (List.Subset.refl args)]
    | callee f =>
      simp only [elementRendered, hparts f mem_cons_self, hforms (subset_cons_self f args)]
  | path base address steps =>
    have hsteps : steps.map (stepSexp fun f => Rendered.formSexp ((p.elementsOf f).map child)) =
        steps.map (stepSexp fun f => Rendered.formSexp ((p.elementsOf f).map child')) := by
      refine map_congr_left fun step hstep => ?_
      cases step with
      | computed f =>
        have hf : f ∈ (Element.path base address steps).children :=
          mem_cons_of_mem _ (mem_filterMap.2 ⟨.computed f, hstep, rfl⟩)
        simp only [stepSexp, hparts f hf]
      | constant | field | placeholder => rfl
    simp only [elementRendered, hparts base mem_cons_self, hsteps]
  | loop kind test body =>
    cases kind with
    | whileTrue | untilTrue =>
      simp only [elementRendered, hparts test (by simp [Element.children]),
        hparts body (by simp [Element.children])]
  | condElse arms alt =>
    have hboth := harms (subset_append_left (arms.flatMap fun arm => [arm.condition, arm.body]) [alt])
    simp only [elementRendered, hparts alt (by simp [Element.children])]
    split
    · rename_i arm
      rw [(hboth arm mem_cons_self).1, (hboth arm mem_cons_self).2]
    · rw [armSexps_congr hboth]
  | cond arms =>
    have hboth := harms (List.Subset.refl (arms.flatMap fun arm => [arm.condition, arm.body]))
    simp only [elementRendered]
    split
    · rename_i arm
      rw [(hboth arm mem_cons_self).1, (hboth arm mem_cons_self).2]
    · rw [armSexps_congr hboth]
  | chain kind entries =>
    have hentries : (entries.map fun entry =>
        Rendered.formCondition ((p.elementsOf entry.condition).map child)) =
        entries.map fun entry =>
          Rendered.formCondition ((p.elementsOf entry.condition).map child') :=
      map_congr_left fun entry hentry => by rw [hparts _ (mem_map_of_mem hentry)]
    simp only [elementRendered, hentries]
  | exit kind code dead =>
    cases dead with
    | none => simp only [elementRendered, hparts code mem_cons_self]
    | some dead =>
      simp only [elementRendered, hparts code mem_cons_self,
        hparts dead (by simp [Element.children])]

/-- Looking deeper than there are elements does not change how an element is written. -/
theorem renderWithin_eq (v : Vocabulary) (h : p.HoldsNode n) {depth depth' : Nat}
    (hdepth : n.elements.length ≤ depth) (hdepth' : n.elements.length ≤ depth') :
    v.renderWithin p depth n.id = v.renderWithin p depth' n.id := by
  induction depth generalizing n depth' with
  | zero =>
    rw [Node.elements, length_cons] at hdepth
    omega
  | succ depth ih =>
    cases depth' with
    | zero =>
      rw [Node.elements, length_cons] at hdepth'
      omega
    | succ depth' =>
      rw [renderWithin, renderWithin, h.element_eq]
      refine v.elementRendered_congr p fun f hf e he => ?_
      rw [h.kids] at hf
      obtain ⟨u, hu, rfl⟩ := mem_map.1 hf
      rw [(h.below u hu).elementsOf_eq] at he
      obtain ⟨m, hm, rfl⟩ := mem_map.1 he
      have hless := Pool.length_lt_of_kid hu hm
      exact ih ((h.below u hu).node m hm) (by omega) (by omega)

/-- On a tree the depth limit of writing is never felt. -/
theorem render_eq (v : Vocabulary) (h : p.HoldsNode n) (hsize : n.elements.length ≤ p.elements.size) :
    v.render p n.id = v.elementRendered p (v.render p) (p.element n.id) := by
  have hnext : v.render p n.id = v.renderWithin p (p.elements.size + 1) n.id :=
    v.renderWithin_eq h hsize (by omega)
  rw [hnext]
  rfl

end Vocabulary

end Decompiler
