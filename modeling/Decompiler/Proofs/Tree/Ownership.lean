import Decompiler.Proofs.Tree.Layout
import Mathlib.Data.List.Flatten
import Mathlib.Data.List.Nodup
import Mathlib.Data.List.Pairwise

/-!
Ownership in a pool.  A list of roots is owned when the pool holds each of them and no
element or form belongs to two of them.  Every operation on a pool takes some roots apart
or puts some together, and leaves the other roots alone.
-/

namespace Decompiler

open List

/-- What can be owned in a pool. -/
inductive Root
  | tree (t : FormTree)
  /-- An element that stands in no form yet. -/
  | node (n : Node FormTree)
  /-- A form whose elements are still to be set. -/
  | spareForm (f : FormId)
  /-- An element that is still to be replaced. -/
  | spareElement (e : ElementId)

namespace Root

def elements : Root → List ElementId
  | tree t => t.elements
  | node n => n.elements
  | spareForm _ => []
  | spareElement e => [e]

def forms : Root → List FormId
  | tree t => t.forms
  | node n => n.forms
  | spareForm f => [f]
  | spareElement _ => []

end Root

namespace Pool

def HoldsRoot (p : Pool) : Root → Prop
  | .tree t => p.Holds t
  | .node n => p.HoldsNode n
  | .spareForm f => f.index < p.forms.size
  | .spareElement e => e.index < p.elements.size

variable {p : Pool} {r : Root} {α : Type}

theorem HoldsRoot.elements_lt (h : p.HoldsRoot r) :
    ∀ e ∈ r.elements, e.index < p.elements.size := by
  cases r with
  | tree t => exact Holds.elements_lt h
  | node n => exact HoldsNode.elements_lt h
  | spareForm f => simp [Root.elements]
  | spareElement e => simpa [Root.elements, HoldsRoot] using h

theorem HoldsRoot.forms_lt (h : p.HoldsRoot r) : ∀ f ∈ r.forms, f.index < p.forms.size := by
  cases r with
  | tree t => exact Holds.forms_lt h
  | node n => exact HoldsNode.forms_lt h
  | spareForm f => simpa [Root.forms, HoldsRoot] using h
  | spareElement e => simp [Root.forms]

theorem HoldsRoot.congr {q : Pool} (h : p.HoldsRoot r) (hagrees : p.Agrees q r.elements r.forms) :
    q.HoldsRoot r := by
  cases r with
  | tree t => exact Holds.congr h hagrees
  | node n =>
    apply HoldsNode.frame h
    · rw [hagrees.elements n.id mem_cons_self]
    · exact hagrees.mono (subset_cons_self _ _) (List.Subset.refl _)
  | spareForm f =>
    have hlookup := hagrees.forms f mem_cons_self
    rw [Array.getElem?_eq_getElem h] at hlookup
    exact (Array.getElem?_eq_some_iff.1 hlookup).1
  | spareElement e =>
    have hlookup := hagrees.elements e mem_cons_self
    rw [Array.getElem?_eq_getElem h] at hlookup
    exact (Array.getElem?_eq_some_iff.1 hlookup).1

/-- The pool holds some roots, and no two of them share anything. -/
structure Owns (p : Pool) (roots : List Root) : Prop where
  holds : ∀ r ∈ roots, p.HoldsRoot r
  elements : (roots.flatMap Root.elements).Nodup
  forms : (roots.flatMap Root.forms).Nodup

namespace Owns

variable {p : Pool} {rs : List Root}

theorem nil (p : Pool) : p.Owns [] := ⟨by simp, by simp, by simp⟩

variable {rs' : List Root}

theorem perm (h : p.Owns rs) (hperm : rs.Perm rs') : p.Owns rs' :=
  ⟨fun r hr => h.holds r (hperm.mem_iff.2 hr),
    (hperm.flatMap_right Root.elements).nodup_iff.1 h.elements,
    (hperm.flatMap_right Root.forms).nodup_iff.1 h.forms⟩

/-- What is no longer needed can be forgotten. -/
theorem sublist (h : p.Owns rs) (hsub : rs'.Sublist rs) : p.Owns rs' :=
  ⟨fun r hr => h.holds r (hsub.subset hr), h.elements.sublist (hsub.map Root.elements).flatten,
    h.forms.sublist (hsub.map Root.forms).flatten⟩

theorem one {r : Root} (h : p.Owns rs) (hr : r ∈ rs) : p.Owns [r] :=
  h.sublist (singleton_sublist.2 hr)

theorem elements_lt (h : p.Owns rs) :
    ∀ e ∈ rs.flatMap Root.elements, e.index < p.elements.size := by
  intro e he
  obtain ⟨r, hr, he⟩ := mem_flatMap.1 he
  exact (h.holds r hr).elements_lt e he

theorem forms_lt (h : p.Owns rs) : ∀ f ∈ rs.flatMap Root.forms, f.index < p.forms.size := by
  intro f hf
  obtain ⟨r, hr, hf⟩ := mem_flatMap.1 hf
  exact (h.holds r hr).forms_lt f hf

/-- A root can be exchanged for roots with the same elements and forms. -/
theorem exchange (old new : List Root) (h : p.Owns (old ++ rs)) (hholds : ∀ r ∈ new, p.HoldsRoot r)
    (helements : (new.flatMap Root.elements).Perm (old.flatMap Root.elements))
    (hforms : (new.flatMap Root.forms).Perm (old.flatMap Root.forms)) : p.Owns (new ++ rs) := by
  refine ⟨?_, ?_, ?_⟩
  · intro r hr
    rcases mem_append.1 hr with hr | hr
    · exact hholds r hr
    · exact h.holds r (mem_append_right _ hr)
  · have hnodup := h.elements
    rw [flatMap_append] at hnodup ⊢
    exact (helements.append_right _).nodup_iff.2 hnodup
  · have hnodup := h.forms
    rw [flatMap_append] at hnodup ⊢
    exact (hforms.append_right _).nodup_iff.2 hnodup

theorem flatMap_node_elements (ns : List (Node FormTree)) :
    (ns.map Root.node).flatMap Root.elements = ns.flatMap Node.elements := by
  rw [flatMap_map]
  rfl

theorem flatMap_node_forms (ns : List (Node FormTree)) :
    (ns.map Root.node).flatMap Root.forms = ns.flatMap Node.forms := by
  rw [flatMap_map]
  rfl

theorem flatMap_tree_elements (ts : List FormTree) :
    (ts.map Root.tree).flatMap Root.elements = ts.flatMap FormTree.elements := by
  rw [flatMap_map]
  rfl

theorem flatMap_tree_forms (ts : List FormTree) :
    (ts.map Root.tree).flatMap Root.forms = ts.flatMap FormTree.forms := by
  rw [flatMap_map]
  rfl

/-- A tree is its form and the elements in it. -/
theorem openTree {f : FormId} {ns : List (Node FormTree)} (h : p.Owns (.tree (.mk f ns) :: rs)) :
    p.Owns (.spareForm f :: (ns.map .node ++ rs)) := by
  have htree : p.Holds (.mk f ns) := h.holds _ mem_cons_self
  apply exchange [.tree (.mk f ns)] (.spareForm f :: ns.map .node) h
  · intro r hr
    rcases mem_cons.1 hr with rfl | hr
    · exact htree.forms_lt f (by simp)
    · obtain ⟨n, hn, rfl⟩ := mem_map.1 hr
      exact htree.node n hn
  · rw [flatMap_cons, flatMap_node_elements]
    simp [Root.elements]
  · rw [flatMap_cons, flatMap_node_forms]
    simp [Root.forms]

/-- An element is its place and the trees below it. -/
theorem openNode {n : Node FormTree} (h : p.Owns (.node n :: rs)) :
    p.Owns (.spareElement n.id :: (n.kids.map .tree ++ rs)) := by
  have hnode : p.HoldsNode n := h.holds _ mem_cons_self
  apply exchange [.node n] (.spareElement n.id :: n.kids.map .tree) h
  · intro r hr
    rcases mem_cons.1 hr with rfl | hr
    · exact hnode.elements_lt n.id mem_cons_self
    · obtain ⟨t, ht, rfl⟩ := mem_map.1 hr
      exact hnode.below t ht
  · rw [flatMap_cons, flatMap_tree_elements]
    simp [Root.elements, Node.elements]
  · rw [flatMap_cons, flatMap_tree_forms]
    simp [Root.forms, Node.forms]

end Owns

/-! Adoption -/

theorem getElem?_foldl_modify {ι : Type} (key : ι → Nat) (g : α → α) (hg : ∀ a, g (g a) = g a)
    (is : List ι) (xs : Array α) (i : Nat) :
    (is.foldl (fun xs j => xs.modify (key j) g) xs)[i]? =
      if i ∈ is.map key then xs[i]?.map g else xs[i]? := by
  induction is generalizing xs with
  | nil => simp
  | cons j is ih =>
    rw [foldl_cons, ih, Array.getElem?_modify, map_cons]
    by_cases hj : key j = i <;> by_cases hi : i ∈ is.map key
    · simp [hj, hi, Function.comp_def, hg]
    · simp [hj, hi]
    · simp [hj, hi]
    · simp [hj, hi, Ne.symm hj]

theorem getElem?_adoptForms (p : Pool) (fs : List FormId) (e : ElementId) (f : FormId) :
    (p.adoptForms fs e).forms[f.index]? =
      if f ∈ fs then p.forms[f.index]?.map fun form => { form with parent := some e }
      else p.forms[f.index]? := by
  have hkey : f.index ∈ fs.map FormId.index ↔ f ∈ fs :=
    mem_map_of_injective fun a b hab => by cases a; cases b; congr
  have hlookup := getElem?_foldl_modify FormId.index
    (fun form : Form => { form with parent := some e }) (fun _ => rfl) fs p.forms f.index
  simp only [hkey] at hlookup
  exact hlookup

theorem getElem?_adoptElements (p : Pool) (es : List ElementId) (f : FormId) (e : ElementId) :
    (p.adoptElements es f).elements[e.index]? =
      if e ∈ es then p.elements[e.index]?.map fun slot => { slot with parent := some f }
      else p.elements[e.index]? := by
  have hkey : e.index ∈ es.map ElementId.index ↔ e ∈ es :=
    mem_map_of_injective fun a b hab => by cases a; cases b; congr
  have hlookup := getElem?_foldl_modify ElementId.index
    (fun slot : ElementSlot => { slot with parent := some f }) (fun _ => rfl) es p.elements e.index
  simp only [hkey] at hlookup
  exact hlookup

theorem parentElement?_adoptForms {fs : List FormId} {e : ElementId} {f : FormId} (hf : f ∈ fs)
    (hlt : f.index < p.forms.size) : (p.adoptForms fs e).parentElement? f = some e := by
  have hlookup := getElem?_adoptForms p fs e f
  rw [if_pos hf, Array.getElem?_eq_getElem hlt] at hlookup
  rw [parentElement?, form, Array.getD_eq_getD_getElem?, hlookup]
  rfl

theorem elements_getElem?_adoptForms (p : Pool) (fs : List FormId) (e : ElementId) (f : FormId) :
    (p.adoptForms fs e).forms[f.index]?.map Form.elements =
      p.forms[f.index]?.map Form.elements := by
  rw [getElem?_adoptForms]
  split
  · rw [Option.map_map]
    rfl
  · rfl

/-- In lists without repetition, what stands below a member is the key of no member. -/
theorem not_mem_map_key_of_mem_inner {β : Type} {own inner : α → List β} {key : α → β}
    (hown : ∀ a, own a = key a :: inner a) {as : List α} (hnodup : (as.flatMap own).Nodup) {a : α}
    (ha : a ∈ as) {b : β} (hb : b ∈ inner a) : b ∉ as.map key := by
  intro hkey
  obtain ⟨a', ha', rfl⟩ := mem_map.1 hkey
  rw [nodup_flatMap] at hnodup
  by_cases heq : a' = a
  · have hself := hnodup.1 a ha
    rw [hown, nodup_cons] at hself
    subst heq
    exact hself.1 hb
  · have : Std.Symm (Function.onFun List.Disjoint own) := ⟨fun _ _ hd _ hb hb' => hd hb' hb⟩
    have hdisjoint := hnodup.2.forall ha' ha heq
    refine hdisjoint (a := key a') ?_ ?_
    · rw [hown]
      exact mem_cons_self
    · rw [hown]
      exact mem_cons_of_mem _ hb

namespace Owns

variable {p q : Pool} {element : Element} {ts : List FormTree} {rs : List Root} {f : FormId}
  {e : ElementId} {ns init : List (Node FormTree)} {n : Node FormTree} {value : FormTree}

/-- Putting an element over trees that are owned. -/
theorem adopt (h : p.Owns (ts.map .tree ++ rs)) (hchildren : element.children = ts.map FormTree.id)
    (hfresh : e ∉ (ts.map Root.tree ++ rs).flatMap Root.elements)
    (hslot : q.elements[e.index]?.map ElementSlot.element = some element)
    (hsame : ∀ e' ∈ (ts.map Root.tree ++ rs).flatMap Root.elements,
      q.elements[e'.index]? = p.elements[e'.index]?)
    (hforms : q.forms = (p.adoptForms element.children e).forms) :
    q.Owns (.node ⟨e, element, ts⟩ :: rs) := by
  have htree : ∀ t ∈ ts, p.Holds t := fun t ht =>
    h.holds _ (mem_append_left _ (mem_map_of_mem ht))
  have hlt : ∀ t ∈ ts, t.id.index < p.forms.size := fun t ht =>
    (htree t ht).forms_lt t.id t.id_mem_forms
  have hnodup := h.forms
  rw [flatMap_append, flatMap_tree_forms] at hnodup
  have hadopted : ∀ f, f ∉ ts.map FormTree.id → q.forms[f.index]? = p.forms[f.index]? := by
    intro f hf
    rw [hforms, getElem?_adoptForms, hchildren, if_neg hf]
  have hold : ∀ r ∈ rs, q.HoldsRoot r := by
    intro r hr
    apply (h.holds r (mem_append_right _ hr)).congr
    refine ⟨fun e' he' => hsame e' ?_, fun f hf => hadopted f ?_⟩
    · rw [flatMap_append]
      exact mem_append_right _ (mem_flatMap.2 ⟨r, hr, he'⟩)
    · intro hroot
      obtain ⟨t, ht, rfl⟩ := mem_map.1 hroot
      exact (nodup_append.1 hnodup).2.2 t.id
        (mem_flatMap.2 ⟨t, ht, t.id_mem_forms⟩) t.id (mem_flatMap.2 ⟨r, hr, hf⟩) rfl
  have hnew : q.HoldsNode ⟨e, element, ts⟩ := by
    refine ⟨hslot, hchildren, ?_, ?_⟩
    · intro t ht
      have hparent := parentElement?_adoptForms (e := e)
        (mem_map_of_mem ht : t.id ∈ ts.map FormTree.id) (hlt t ht)
      rw [← hparent, ← hchildren]
      exact parentElement?_congr (by rw [hforms])
    · intro t ht
      apply (htree t ht).frame
      · rw [hforms, elements_getElem?_adoptForms]
      · cases t with
        | mk f nodes =>
          refine ⟨fun e' he' => hsame e' ?_, fun g hg => hadopted g ?_⟩
          · rw [flatMap_append, flatMap_tree_elements]
            refine mem_append_left _ (mem_flatMap.2 ⟨_, ht, ?_⟩)
            rw [FormTree.elements_mk]
            exact he'
          · exact not_mem_map_key_of_mem_inner FormTree.forms_eq (nodup_append.1 hnodup).1 ht hg
  refine ⟨?_, ?_, ?_⟩
  · intro r hr
    rcases mem_cons.1 hr with rfl | hr
    · exact hnew
    · exact hold r hr
  · have helements := nodup_cons.2 ⟨hfresh, h.elements⟩
    rw [flatMap_append, flatMap_tree_elements] at helements
    exact helements
  · exact hnodup

/-- Putting elements that are owned in a form. -/
theorem place (h : p.Owns (ns.map .node ++ rs))
    (hfresh : f ∉ (ns.map Root.node ++ rs).flatMap Root.forms)
    (hform : q.forms[f.index]?.map Form.elements = some (ns.map Node.id))
    (hsame : ∀ g ∈ (ns.map Root.node ++ rs).flatMap Root.forms,
      q.forms[g.index]? = p.forms[g.index]?)
    (helements : q.elements = (p.adoptElements (ns.map Node.id) f).elements) :
    q.Owns (.tree (.mk f ns) :: rs) := by
  have hnode : ∀ n ∈ ns, p.HoldsNode n := fun n hn =>
    h.holds _ (mem_append_left _ (mem_map_of_mem hn))
  have hnodup := h.elements
  rw [flatMap_append, flatMap_node_elements] at hnodup
  have hplaced : ∀ e, e ∉ ns.map Node.id → q.elements[e.index]? = p.elements[e.index]? := by
    intro e he
    rw [helements, getElem?_adoptElements, if_neg he]
  have hold : ∀ r ∈ rs, q.HoldsRoot r := by
    intro r hr
    apply (h.holds r (mem_append_right _ hr)).congr
    refine ⟨fun e he => hplaced e ?_, fun g hg => hsame g ?_⟩
    · intro hroot
      obtain ⟨n, hn, rfl⟩ := mem_map.1 hroot
      exact (nodup_append.1 hnodup).2.2 n.id
        (mem_flatMap.2 ⟨n, hn, mem_cons_self⟩) n.id (mem_flatMap.2 ⟨r, hr, he⟩) rfl
    · rw [flatMap_append]
      exact mem_append_right _ (mem_flatMap.2 ⟨r, hr, hg⟩)
  have hnew : q.Holds (.mk f ns) := by
    refine holds_mk_iff.2 ⟨hform, ?_⟩
    intro n hn
    have hslot := (hnode n hn).slot
    have hadopted : q.elements[n.id.index]? =
        p.elements[n.id.index]?.map fun slot => { slot with parent := some f } := by
      rw [helements, getElem?_adoptElements, if_pos (mem_map_of_mem hn)]
    obtain ⟨slot, hlookup, -⟩ := Option.map_eq_some_iff.1 hslot
    refine ⟨?_, (hnode n hn).frame ?_ ⟨fun e he => hplaced e ?_, fun g hg => hsame g ?_⟩⟩
    · rw [parentForm?, hadopted, hlookup]
      rfl
    · rw [hadopted, hlookup]
      rfl
    · exact not_mem_map_key_of_mem_inner (fun _ => rfl) (nodup_append.1 hnodup).1 hn he
    · rw [flatMap_append, flatMap_node_forms]
      exact mem_append_left _ (mem_flatMap.2 ⟨n, hn, hg⟩)
  refine ⟨?_, ?_, ?_⟩
  · intro r hr
    rcases mem_cons.1 hr with rfl | hr
    · exact hnew
    · exact hold r hr
  · rw [flatMap_cons]
    change ((FormTree.mk f ns).elements ++ _).Nodup
    rw [FormTree.elements_mk]
    exact hnodup
  · have hforms := nodup_cons.2 ⟨hfresh, h.forms⟩
    rw [flatMap_append, flatMap_node_forms] at hforms
    rw [flatMap_cons]
    change ((FormTree.mk f ns).forms ++ _).Nodup
    rw [FormTree.forms_mk]
    exact hforms

theorem addElement (h : p.Owns (ts.map .tree ++ rs))
    (hchildren : element.children = ts.map FormTree.id) :
    (p.addElement element).2.Owns (.node ⟨(p.addElement element).1, element, ts⟩ :: rs) := by
  apply h.adopt hchildren
  · intro hmem
    exact Nat.lt_irrefl _ (h.elements_lt _ hmem)
  · change (p.elements.push ⟨none, element⟩)[p.elements.size]?.map ElementSlot.element = some element
    rw [Array.getElem?_push_size]
    rfl
  · intro e he
    exact Array.getElem?_push_lt (h.elements_lt e he) ▸ (Array.getElem?_eq_getElem _).symm
  · rfl

theorem addForm (h : p.Owns (ns.map .node ++ rs)) :
    (p.addForm (ns.map Node.id)).2.Owns
      (.tree (.mk (p.addForm (ns.map Node.id)).1 ns) :: rs) := by
  apply h.place
  · intro hmem
    exact Nat.lt_irrefl _ (h.forms_lt _ hmem)
  · change (p.forms.push ⟨none, ns.map Node.id⟩)[p.forms.size]?.map Form.elements = _
    rw [Array.getElem?_push_size]
    rfl
  · intro g hg
    exact Array.getElem?_push_lt (h.forms_lt g hg) ▸ (Array.getElem?_eq_getElem _).symm
  · rfl

/-- Putting another element in a place that was left. -/
theorem replace (h : p.Owns (.spareElement e :: (ts.map .tree ++ rs)))
    (hchildren : element.children = ts.map FormTree.id) :
    (p.replace e element).Owns (.node ⟨e, element, ts⟩ :: rs) := by
  have hplace : e.index < p.elements.size := h.holds _ mem_cons_self
  have hfresh : e ∉ (ts.map Root.tree ++ rs).flatMap Root.elements := (nodup_cons.1 h.elements).1
  apply (h.sublist (sublist_cons_self _ _)).adopt hchildren hfresh
  · change (p.elements.modify e.index _)[e.index]?.map ElementSlot.element = some element
    rw [Array.getElem?_modify, if_pos rfl, Array.getElem?_eq_getElem hplace]
    rfl
  · intro e' he'
    change (p.elements.modify e.index _)[e'.index]? = _
    rw [Array.getElem?_modify, if_neg]
    intro hindex
    apply hfresh
    cases e
    cases e'
    change _ = _ at hindex
    subst hindex
    exact he'
  · rfl

/-- Putting elements in a form that was left. -/
theorem setElements (h : p.Owns (.spareForm f :: (ns.map .node ++ rs))) :
    (p.setElements f (ns.map Node.id)).Owns (.tree (.mk f ns) :: rs) := by
  have hplace : f.index < p.forms.size := h.holds _ mem_cons_self
  have hfresh : f ∉ (ns.map Root.node ++ rs).flatMap Root.forms := (nodup_cons.1 h.forms).1
  apply (h.sublist (sublist_cons_self _ _)).place hfresh
  · change (p.forms.modify f.index _)[f.index]?.map Form.elements = _
    rw [Array.getElem?_modify, if_pos rfl, Array.getElem?_eq_getElem hplace]
    rfl
  · intro g hg
    change (p.forms.modify f.index _)[g.index]? = _
    rw [Array.getElem?_modify, if_neg]
    intro hindex
    apply hfresh
    cases f
    cases g
    change _ = _ at hindex
    subst hindex
    exact hg
  · rfl

/-- Elements that stand in a form that lists them make a tree. -/
theorem closeTree (h : p.Owns (.spareForm f :: (ns.map .node ++ rs)))
    (hform : p.forms[f.index]?.map Form.elements = some (ns.map Node.id))
    (hparent : ∀ n ∈ ns, p.parentForm? n.id = some f) : p.Owns (.tree (.mk f ns) :: rs) := by
  apply exchange (.spareForm f :: ns.map .node) [.tree (.mk f ns)] h
  · intro r hr
    rw [mem_singleton] at hr
    subst hr
    refine holds_mk_iff.2 ⟨hform, fun n hn => ⟨hparent n hn, ?_⟩⟩
    exact h.holds _ (mem_cons_of_mem _ (mem_append_left _ (mem_map_of_mem hn)))
  · rw [flatMap_cons, flatMap_cons, flatMap_node_elements]
    simp [Root.elements]
  · rw [flatMap_cons, flatMap_cons, flatMap_node_forms]
    simp [Root.forms]

/-- Putting another element with the same children in the place of the only one of a form. -/
theorem replaceSingle (h : p.Owns (.tree (.mk f [n]) :: rs))
    (hchildren : element.children = n.element.children) :
    (p.replace n.id element).Owns (.tree (.mk f [⟨n.id, element, n.kids⟩]) :: rs) := by
  have htree : p.Holds (.mk f [n]) := h.holds _ mem_cons_self
  obtain ⟨hform, hnodes⟩ := holds_mk_iff.1 htree
  obtain ⟨hparent, hnode⟩ := hnodes n mem_cons_self
  have hopen : p.Owns (.node n :: .spareForm f :: rs) := h.openTree.perm (List.Perm.swap _ _ _)
  have hnew := hopen.openNode.replace (hchildren.trans hnode.kids)
  apply closeTree (hnew.perm (List.Perm.swap _ _ _))
  · change (p.adoptForms element.children n.id).forms[f.index]?.map Form.elements = _
    rw [elements_getElem?_adoptForms, hform]
    rfl
  · intro m hm
    rw [mem_singleton] at hm
    subst hm
    obtain ⟨slot, hslot, -⟩ := Option.map_eq_some_iff.1 hnode.slot
    change (p.elements.modify n.id.index _)[n.id.index]?.bind ElementSlot.parent = some f
    rw [Array.getElem?_modify, if_pos rfl, hslot, ← hparent, parentForm?, hslot]
    rfl

/-- An element with one child form at the end of a form can be taken off. -/
theorem takeLast (h : p.Owns (.tree (.mk f (init ++ [n])) :: rs)) (hkids : n.kids = [value]) :
    p.Owns (.tree value :: .spareForm f :: (init.map .node ++ rs)) := by
  have hopen := h.openTree
  rw [map_append, map_singleton, append_assoc, singleton_append] at hopen
  have hlast : p.Owns (.node n :: .spareForm f :: (init.map .node ++ rs)) :=
    hopen.perm ((perm_middle.cons _).trans (List.Perm.swap _ _ _))
  have hvalue := hlast.openNode.sublist (sublist_cons_self _ _)
  rw [hkids] at hvalue
  exact hvalue

/-- The elements of a form can be put behind others into another form. -/
theorem spliceForm (h : p.Owns (.tree value :: .spareForm f :: (init.map .node ++ rs))) :
    (p.setElements f (init.map Node.id ++ p.elementsOf value.id)).Owns
      (.tree (.mk f (init ++ value.nodes)) :: rs) := by
  have hvalue : p.Holds value := h.holds _ mem_cons_self
  rw [hvalue.elementsOf_eq, ← map_append]
  cases value with
  | mk g nodes =>
    have hnodes := h.openTree.sublist (sublist_cons_self _ _)
    apply setElements
    refine hnodes.perm (perm_middle.trans (.cons _ ?_))
    rw [FormTree.nodes_mk, map_append, ← append_assoc]
    exact perm_append_comm.append_right _

end Owns

end Pool

end Decompiler
