import Decompiler.Proofs.Tree.Evaluation

/-!
Changes inside a pool.  A change only moves elements between forms: every element stays what
it is and every form keeps its parent.  What a change does not touch is held as before, and a
tree that is exchanged for another one with the same root can be exchanged wherever it stands.
-/

namespace Decompiler

open List

variable {p q : Pool} {old new : FormTree} {before : List FormTree} {n n' : Node FormTree}

namespace Pool

/-- The later pool is the earlier one, except for the places of some elements and for what
stands in some forms. -/
structure Changes (p q : Pool) (es : List ElementId) (fs : List FormId) : Prop where
  element : ∀ e : ElementId, q.elements[e.index]?.map ElementSlot.element =
    p.elements[e.index]?.map ElementSlot.element
  parent : ∀ f : FormId, q.forms[f.index]?.map Form.parent = p.forms[f.index]?.map Form.parent
  elements : ∀ e ∉ es, q.elements[e.index]? = p.elements[e.index]?
  forms : ∀ f ∉ fs, q.forms[f.index]? = p.forms[f.index]?

namespace Changes

variable {es : List ElementId} {fs : List FormId}

theorem refl (p : Pool) (es : List ElementId) (fs : List FormId) : p.Changes p es fs :=
  ⟨fun _ => rfl, fun _ => rfl, fun _ _ => rfl, fun _ _ => rfl⟩

theorem trans {q' : Pool} (h : p.Changes q es fs) (h' : q.Changes q' es fs) : p.Changes q' es fs :=
  ⟨fun e => (h'.element e).trans (h.element e), fun f => (h'.parent f).trans (h.parent f),
    fun e he => (h'.elements e he).trans (h.elements e he),
    fun f hf => (h'.forms f hf).trans (h.forms f hf)⟩

variable {es' : List ElementId} {fs' : List FormId}

theorem mono (h : p.Changes q es fs) (hes : es ⊆ es') (hfs : fs ⊆ fs') : p.Changes q es' fs' :=
  ⟨h.element, h.parent, fun e he => h.elements e fun hmem => he (hes hmem),
    fun f hf => h.forms f fun hmem => hf (hfs hmem)⟩

/-- Putting elements into a form changes their places and that form. -/
theorem setElements (p : Pool) (f : FormId) (es : List ElementId) :
    p.Changes (p.setElements f es) es [f] := by
  have hforms : ∀ g : FormId, (p.setElements f es).forms[g.index]? =
      if f.index = g.index then p.forms[g.index]?.map fun form => { form with elements := es }
      else p.forms[g.index]? := fun g => Array.getElem?_modify
  refine ⟨fun e => ?_, fun g => ?_, fun e he => ?_, fun g hg => ?_⟩
  · change (p.adoptElements es f).elements[e.index]?.map _ = _
    rw [getElem?_adoptElements]
    split
    · simp [Function.comp_def]
    · rfl
  · rw [hforms]
    split
    · simp [Function.comp_def]
    · rfl
  · exact (getElem?_adoptElements p es f e).trans (if_neg he)
  · rw [hforms, if_neg]
    intro hindex
    refine hg (mem_singleton.2 ?_)
    cases f
    cases g
    exact congrArg _ hindex.symm

theorem parentElement?_eq (h : p.Changes q es fs) (f : FormId) :
    q.parentElement? f = p.parentElement? f := by
  have hform : ∀ r : Pool, r.parentElement? f = (r.forms[f.index]?.map Form.parent).getD none := by
    intro r
    rw [parentElement?, form, Array.getD_eq_getD_getElem?]
    cases r.forms[f.index]? <;> rfl
  rw [hform, hform, h.parent]

/-- What is not touched is the same in both. -/
theorem agrees (h : p.Changes q es fs) (hes : ∀ e ∈ es', e ∉ es) (hfs : ∀ f ∈ fs', f ∉ fs) :
    p.Agrees q es' fs' :=
  ⟨fun e he => h.elements e (hes e he), fun f hf => h.forms f (hfs f hf)⟩

end Changes

/-- An exchange in one part of what is owned leaves the other roots alone. -/
theorem Owns.change {p q : Pool} {old new rs : List Root} (h : p.Owns (old ++ rs))
    (hchanges : p.Changes q (old.flatMap Root.elements) (old.flatMap Root.forms))
    (hholds : ∀ r ∈ new, q.HoldsRoot r)
    (helements : (new.flatMap Root.elements).Subperm (old.flatMap Root.elements))
    (hforms : (new.flatMap Root.forms).Subperm (old.flatMap Root.forms)) : q.Owns (new ++ rs) := by
  have hnodup := h.elements
  have hnodup' := h.forms
  rw [flatMap_append] at hnodup hnodup'
  have hdisjoint := (nodup_append.1 hnodup).2.2
  have hdisjoint' := (nodup_append.1 hnodup').2.2
  refine ⟨fun r hr => ?_, ?_, ?_⟩
  · rcases mem_append.1 hr with hr | hr
    · exact hholds r hr
    · refine (h.holds r (mem_append_right _ hr)).congr (hchanges.agrees ?_ ?_)
      · exact fun e he hmem => hdisjoint e hmem e (mem_flatMap.2 ⟨r, hr, he⟩) rfl
      · exact fun f hf hmem => hdisjoint' f hmem f (mem_flatMap.2 ⟨r, hr, hf⟩) rfl
  · obtain ⟨es, hperm, hsub⟩ := helements
    rw [flatMap_append]
    exact (hperm.append_right _).nodup_iff.1 (hnodup.sublist (hsub.append_right _))
  · obtain ⟨fs, hperm, hsub⟩ := hforms
    rw [flatMap_append]
    exact (hperm.append_right _).nodup_iff.1 (hnodup'.sublist (hsub.append_right _))

end Pool

variable {α : Type}

/-- What stands under one entry of a list without repetitions stands under no other entry. -/
theorem not_mem_of_nodup_flatMap {β : Type} {g : α → List β} {before after : List α} {a u : α}
    (h : ((before ++ a :: after).flatMap g).Nodup) (hu : u ∈ before ++ after) {b : β} (hb : b ∈ g u) :
    b ∉ g a := by
  intro hmem
  rw [flatMap_append, flatMap_cons] at h
  obtain ⟨-, hrest, hdisjoint⟩ := nodup_append.1 h
  rcases mem_append.1 hu with hu | hu
  · exact hdisjoint b (mem_flatMap.2 ⟨u, hu, hb⟩) b (mem_append_left _ hmem) rfl
  · exact (nodup_append.1 hrest).2.2 b hmem b (mem_flatMap.2 ⟨u, hu, hb⟩) rfl

/-- Below an element a tree is exchanged for another one: a child form, or a child form of what
stands in the only child form as the only element.  The trees beside it that are evaluated
before it are known. -/
inductive Node.Exchanges (old new : FormTree) :
    List FormTree → Node FormTree → Node FormTree → Prop
  | kid (e : ElementId) (element : Element) (before after : List FormTree) :
      Exchanges old new before ⟨e, element, before ++ old :: after⟩
        ⟨e, element, before ++ new :: after⟩
  | inner {before : List FormTree} {n n' : Node FormTree} (e : ElementId) (element : Element)
      (f : FormId) (h : Exchanges old new before n n') :
      Exchanges old new before ⟨e, element, [.mk f [n]]⟩ ⟨e, element, [.mk f [n']]⟩

namespace Node.Exchanges

variable (h : Exchanges old new before n n')
include h

theorem id_eq : n'.id = n.id := by
  cases h <;> rfl

theorem element_eq : n'.element = n.element := by
  cases h <;> rfl

theorem elements_perm : (n'.elements ++ old.elements).Perm (n.elements ++ new.elements) := by
  induction h with
  | kid e element before after =>
    refine perm_iff_count.2 fun x => ?_
    simp [Node.elements, count_append, count_cons]
    omega
  | inner e element f h ih =>
    simpa [Node.elements] using ih

theorem forms_perm : (n'.forms ++ old.forms).Perm (n.forms ++ new.forms) := by
  induction h with
  | kid e element before after =>
    refine perm_iff_count.2 fun x => ?_
    simp [Node.forms, count_append]
    omega
  | inner e element f h ih =>
    simpa [Node.forms] using ih

/-- Evaluation changes in one place only. -/
theorem evaluated_eq :
    ∃ after, n.evaluated = before.flatMap FormTree.evaluated ++ (old.evaluated ++ after) ∧
      n'.evaluated = before.flatMap FormTree.evaluated ++ (new.evaluated ++ after) := by
  induction h with
  | kid e element before after =>
    exact ⟨after.flatMap FormTree.evaluated ++ [(e, element)], by simp [Node.evaluated],
      by simp [Node.evaluated]⟩
  | inner e element f h ih =>
    obtain ⟨after, hn, hn'⟩ := ih
    have hinner : ∀ m : Node FormTree,
        Node.evaluated ⟨e, element, [.mk f [m]]⟩ = m.evaluated ++ [(e, element)] := by
      intro m
      rw [Node.evaluated, flatMap_singleton, FormTree.evaluated_mk, flatMap_singleton]
    exact ⟨after ++ [(e, element)], by simp [hinner, hn], by simp [hinner, hn']⟩

theorem mem_elements {x : ElementId} (hx : x ∈ old.elements) :
    x ∈ n.kids.flatMap FormTree.elements := by
  induction h with
  | kid e element before after => simp [hx]
  | @inner before n n' e element f h ih =>
    have hmem : x ∈ n.elements := mem_cons_of_mem _ ih
    simpa using hmem

theorem mem_forms {f : FormId} (hf : f ∈ old.forms) : f ∈ n.forms := by
  induction h with
  | kid e element before after => simp [Node.forms, hf]
  | inner e element g h ih => simpa [Node.forms] using Or.inr ih

/-- An element holds the new tree in place of the old one when nothing else below it is
touched. -/
theorem holds {p q : Pool} {es : List ElementId} {fs : List FormId} (hid : new.id = old.id)
    (hnode : p.HoldsNode n) (helements : n.elements.Nodup) (hforms : n.forms.Nodup)
    (hchanges : p.Changes q es fs) (hes : ∀ e ∈ n.elements, e ∈ es → e ∈ old.elements)
    (hfs : ∀ f ∈ n.forms, f ∈ fs → f ∈ old.forms) (hnew : q.Holds new) : q.HoldsNode n' := by
  induction h with
  | kid e element before after =>
    have hkids : (before ++ new :: after).map FormTree.id =
        (before ++ old :: after).map FormTree.id := by simp [hid]
    have hother : ∀ u ∈ before ++ after, q.Holds u := by
      intro u hu
      have hmem : u ∈ before ++ old :: after := by
        rcases mem_append.1 hu with hu | hu <;> simp [hu]
      refine (hnode.below u hmem).congr (hchanges.agrees (fun x hx hmem' => ?_) fun f hf hmem' => ?_)
      · exact not_mem_of_nodup_flatMap (nodup_cons.1 helements).2 hu hx
          (hes x (mem_cons_of_mem _ (mem_flatMap.2 ⟨u, hmem, hx⟩)) hmem')
      · exact not_mem_of_nodup_flatMap hforms hu hf (hfs f (mem_flatMap.2 ⟨u, hmem, hf⟩) hmem')
    refine ⟨(hchanges.element e).trans hnode.slot, hnode.kids.trans hkids.symm, fun t ht => ?_,
      fun t ht => ?_⟩
    · have hmem : t.id ∈ (before ++ old :: after).map FormTree.id :=
        hkids ▸ mem_map_of_mem ht
      obtain ⟨u, hu, hid'⟩ := mem_map.1 hmem
      rw [hchanges.parentElement?_eq, ← hid']
      exact hnode.links u hu
    · rcases mem_append.1 ht with ht | ht
      · exact hother t (mem_append_left _ ht)
      · rcases mem_cons.1 ht with rfl | ht
        · exact hnew
        · exact hother t (mem_append_right _ ht)
  | @inner before n n' e element f h ih =>
    have hform : p.Holds (.mk f [n]) := hnode.below _ mem_cons_self
    obtain ⟨hlist, hnodes⟩ := Pool.holds_mk_iff.1 hform
    obtain ⟨hplace, hinner⟩ := hnodes n mem_cons_self
    have hsplit : Node.elements ⟨e, element, [.mk f [n]]⟩ = e :: n.elements := by
      simp [Node.elements]
    have hsplit' : Node.forms ⟨e, element, [.mk f [n]]⟩ = f :: n.forms := by
      simp [Node.forms]
    rw [hsplit] at helements hes
    rw [hsplit'] at hforms hfs
    have hnodup := (nodup_cons.1 helements).2
    have hf : f ∉ fs := fun hmem =>
      (nodup_cons.1 hforms).1 (h.mem_forms (hfs f mem_cons_self hmem))
    have hn : n.id ∉ es := fun hmem =>
      (nodup_cons.1 hnodup).1
        (h.mem_elements (hes n.id (mem_cons_of_mem _ mem_cons_self) hmem))
    have hnode' := ih hinner hnodup (nodup_cons.1 hforms).2
      (fun x hx => hes x (mem_cons_of_mem _ hx)) fun g hg => hfs g (mem_cons_of_mem _ hg)
    have hform' : q.Holds (.mk f [n']) := by
      refine Pool.holds_mk_iff.2 ⟨?_, fun m hm => ?_⟩
      · rw [hchanges.forms f hf, hlist, map_singleton, map_singleton, h.id_eq]
      · rw [mem_singleton.1 hm]
        refine ⟨?_, hnode'⟩
        rw [h.id_eq, Pool.parentForm?, hchanges.elements n.id hn]
        exact hplace
    refine ⟨(hchanges.element e).trans hnode.slot, hnode.kids, fun t ht => ?_, fun t ht => ?_⟩
    · rw [mem_singleton.1 ht, hchanges.parentElement?_eq]
      exact hnode.links (.mk f [n]) mem_cons_self
    · rw [mem_singleton.1 ht]
      exact hform'

end Node.Exchanges

theorem subperm_of_perm_append [DecidableEq α] {as bs cs ds gs : List α}
    (hperm : (as ++ bs).Perm (cs ++ ds)) (hsub : ds.Subperm (gs ++ bs)) :
    as.Subperm (gs ++ cs) := by
  refine subperm_ext_iff.2 fun a _ => ?_
  have hcount := hperm.count_eq a
  have hle := hsub.count_le a
  simp only [count_append] at hcount hle ⊢
  omega

namespace Pool.Owns

/-- What is owned is owned in all its parts. -/
theorem sub {t u : FormTree} (h : p.Owns [.tree t]) (hsub : t.Sub u) : p.Owns [.tree u] := by
  refine ⟨fun r hr => ?_, ?_, ?_⟩
  · rw [mem_singleton.1 hr]
    exact h.tree_holds.sub hsub
  · rw [flatMap_singleton]
    exact h.tree_elements_nodup.sublist hsub.elements_sublist
  · rw [flatMap_singleton]
    exact h.tree_forms_nodup.sublist hsub.forms_sublist

/-- A tree below an element can be exchanged for one with the same root, which may take from
some other roots. -/
theorem exchangeBelow {givers rs : List Root} (h : p.Owns (givers ++ .node n :: rs))
    (hexchange : Node.Exchanges old new before n n') (hid : new.id = old.id)
    (hchanges : p.Changes q (givers.flatMap Root.elements ++ old.elements)
      (givers.flatMap Root.forms ++ old.forms)) (hnew : q.Holds new)
    (helements : new.elements.Subperm (givers.flatMap Root.elements ++ old.elements))
    (hforms : new.forms.Subperm (givers.flatMap Root.forms ++ old.forms)) :
    q.Owns (.node n' :: rs) := by
  have hnode : p.HoldsNode n := h.holds (.node n) (by simp)
  have hsplit : p.Owns ((givers ++ [.node n]) ++ rs) := by simpa using h
  have hnodup := h.elements
  have hnodup' := h.forms
  rw [flatMap_append, flatMap_cons] at hnodup hnodup'
  obtain ⟨-, hright, hdisjoint⟩ := nodup_append.1 hnodup
  obtain ⟨-, hright', hdisjoint'⟩ := nodup_append.1 hnodup'
  have holdElements : old.elements ⊆ n.elements := fun x hx =>
    mem_cons_of_mem _ (hexchange.mem_elements hx)
  have holdForms : old.forms ⊆ n.forms := fun f hf => hexchange.mem_forms hf
  have hnew' : q.HoldsNode n' := by
    refine hexchange.holds hid hnode (nodup_append.1 hright).1 (nodup_append.1 hright').1
      hchanges (fun x hx hmem => ?_) (fun f hf hmem => ?_) hnew
    · rcases mem_append.1 hmem with hmem | hmem
      · exact absurd rfl (hdisjoint x hmem x (mem_append_left _ hx))
      · exact hmem
    · rcases mem_append.1 hmem with hmem | hmem
      · exact absurd rfl (hdisjoint' f hmem f (mem_append_left _ hf))
      · exact hmem
  have hroots : (givers ++ [Root.node n]).flatMap Root.elements =
      givers.flatMap Root.elements ++ n.elements := by
    rw [flatMap_append, flatMap_singleton]
    rfl
  have hroots' : (givers ++ [Root.node n]).flatMap Root.forms =
      givers.flatMap Root.forms ++ n.forms := by
    rw [flatMap_append, flatMap_singleton]
    rfl
  have hafter : q.Owns ([.node n'] ++ rs) := by
    apply hsplit.change
    · rw [hroots, hroots']
      exact hchanges.mono
        (append_subset.2 ⟨subset_append_left _ _,
          subset_append_of_subset_right _ holdElements⟩)
        (append_subset.2 ⟨subset_append_left _ _,
          subset_append_of_subset_right _ holdForms⟩)
    · intro r hr
      rw [mem_singleton.1 hr]
      exact hnew'
    · rw [hroots, flatMap_singleton]
      exact subperm_of_perm_append hexchange.elements_perm helements
    · rw [hroots', flatMap_singleton]
      exact subperm_of_perm_append hexchange.forms_perm hforms
  exact hafter

/-- The same for an element that stands in a form. -/
theorem exchangeInTree {f : FormId} {earlier later : List (Node FormTree)}
    (h : p.Owns [.tree (.mk f (earlier ++ n :: later))])
    (hexchange : Node.Exchanges old new before n n') (hid : new.id = old.id)
    (hchanges : p.Changes q old.elements old.forms) (hnew : q.Holds new)
    (helements : new.elements.Subperm old.elements) (hforms : new.forms.Subperm old.forms) :
    q.Owns [.tree (.mk f (earlier ++ n' :: later))] := by
  have htree := h.tree_holds
  have hf : f ∉ old.forms := by
    have hnodup := h.tree_forms_nodup
    rw [FormTree.forms_mk, nodup_cons] at hnodup
    exact fun hmem => hnodup.1 (mem_flatMap.2 ⟨n, by simp, hexchange.mem_forms hmem⟩)
  have hbelow : ∀ x ∈ (earlier ++ n :: later).map Node.id, x ∉ old.elements := by
    intro x hx hmem
    have hnodup := h.tree_elements_nodup
    rw [FormTree.elements_mk] at hnodup
    have hn : n ∈ earlier ++ n :: later := by simp
    exact not_mem_map_key_of_mem_inner (fun _ => rfl) hnodup hn (hexchange.mem_elements hmem) hx
  have hids : (earlier ++ n' :: later).map Node.id = (earlier ++ n :: later).map Node.id := by
    simp [hexchange.id_eq]
  have hopen : p.Owns ([] ++ .node n :: .spareForm f :: ((earlier ++ later).map .node)) := by
    refine h.openTree.perm ?_
    rw [append_nil, map_append, map_append, map_cons]
    exact (perm_middle.cons _).trans (List.Perm.swap _ _ _)
  have hclosed := hopen.exchangeBelow hexchange hid hchanges hnew helements hforms
  have hspare : q.Owns (.spareForm f :: ((earlier ++ n' :: later).map .node ++ [])) := by
    refine hclosed.perm ?_
    rw [append_nil, map_append, map_append, map_cons]
    exact (List.Perm.swap _ _ _).trans (perm_middle.symm.cons _)
  refine hspare.closeTree ?_ fun m hm => ?_
  · rw [hchanges.forms f hf, hids]
    exact (holds_mk_iff.1 htree).1
  · have hmem : m.id ∈ (earlier ++ n :: later).map Node.id := hids ▸ mem_map_of_mem hm
    obtain ⟨m', hm', hid'⟩ := mem_map.1 hmem
    rw [parentForm?, hchanges.elements m.id (hbelow m.id hmem), ← hid']
    exact ((holds_mk_iff.1 htree).2 m' hm').1

end Pool.Owns

end Decompiler
