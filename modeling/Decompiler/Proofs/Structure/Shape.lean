import Decompiler.Proofs.Structure.Build
import Decompiler.Proofs.Tree.Growth

/-!
The tree of a region is a tree: what can be reached from its root is in range, stands in
one place, and knows that place.  This stays so when the assignment of the result at its
end becomes its value.
-/

namespace Decompiler

open FoldM List

/-- What can be reached from a form is a tree. -/
structure Pool.IsTree (p : Pool) (root : FormId) : Prop where
  forms_lt : ∀ f, p.Reaches root f → f.index < p.forms.size
  elements_lt : ∀ e, p.ReachesElement root e → e.index < p.elements.size
  /-- An element occurs once, in one form. -/
  element_once : ∀ e, p.ReachesElement root e →
    ∃ f, p.Reaches root f ∧ (p.elementsOf f).count e = 1 ∧
      ∀ g, p.Reaches root g → e ∈ p.elementsOf g → g = f
  /-- A form other than the root is listed once, by one element. -/
  form_once : ∀ f, p.Reaches root f → f ≠ root →
    ∃ e, p.ReachesElement root e ∧ (p.element e).children.count f = 1 ∧
      ∀ e', p.ReachesElement root e' → f ∈ (p.element e').children → e' = e
  root_free : ∀ e, p.ReachesElement root e → root ∉ (p.element e).children
  /-- No element is its own descendant. -/
  acyclic : ∀ e, p.ReachesElement root e → ¬ Relation.TransGen p.ChildOf e e
  /-- Elements know their form, and child forms their element. -/
  links : ∀ f, p.Reaches root f → ∀ e ∈ p.elementsOf f, p.parentForm? e = some f ∧
    ∀ g ∈ (p.element e).children, p.parentElement? g = some e

/-- Going over what can be reached from a form comes to an end and finds nothing wrong. -/
structure Pool.IsTraversable (p : Pool) (root : FormId) : Prop where
  tree : p.IsTree root
  /-- No check of the links fails, however deep it looks. -/
  checkLinks : ∀ depth, p.checkLinksWithin depth root = .ok ()
  /-- Visiting ends, and has then seen each element once. -/
  visits : p.Visits (p.elementsOf root) (p.elementsIn root)
  nodup : (p.elementsIn root).Nodup
  /-- Writing is the same for every depth limit from the size of the pool on. -/
  render : ∀ (v : Vocabulary) e, p.ReachesElement root e → ∀ depth, p.elements.size ≤ depth →
    v.renderWithin p depth e = v.elementRendered p (v.render p) (p.element e)

namespace Pool

theorem not_of_acc {α : Type} {r : α → α → Prop} {a : α} (h : Acc r a) : ¬ r a a := by
  induction h with
  | intro a _ ih => exact fun hself => ih a hself hself

variable {p : Pool} {rs : List Root} {t : FormTree}

theorem Owns.isTree (h : p.Owns (.tree t :: rs)) : p.IsTree t.id := by
  have htree := h.tree_holds
  have helements := h.tree_elements_nodup
  have hforms := h.tree_forms_nodup
  constructor
  case forms_lt =>
    intro f hf
    obtain ⟨u, hu, rfl⟩ := htree.reaches_iff.1 hf
    exact (htree.sub hu).forms_lt _ u.id_mem_forms
  case elements_lt =>
    intro e he
    obtain ⟨u, hu, n, hn, rfl⟩ := htree.reachesElement_iff.1 he
    exact ((htree.sub hu).node n hn).elements_lt _ mem_cons_self
  case element_once =>
    intro e he
    obtain ⟨u, hu, n, hn, rfl⟩ := htree.reachesElement_iff.1 he
    refine ⟨u.id, htree.reaches_iff.2 ⟨u, hu, rfl⟩, ?_, ?_⟩
    · have hsub := FormTree.map_sublist_flatMap Node.elements (fun _ => rfl) u.nodes
      rw [(htree.sub hu).elementsOf_eq]
      refine count_eq_one_of_mem ?_ (mem_map_of_mem hn)
      rw [← u.elements_eq] at hsub
      exact helements.sublist (hsub.trans hu.elements_sublist)
    · intro g hg hmem
      obtain ⟨w, hw, rfl⟩ := htree.reaches_iff.1 hg
      rw [(htree.sub hw).elementsOf_eq] at hmem
      obtain ⟨m, hm, hid⟩ := mem_map.1 hmem
      have hplace := (htree.sub hw).links m hm
      rw [hid, (htree.sub hu).links n hn] at hplace
      exact (Option.some.inj hplace).symm
  case form_once =>
    intro f hf hne
    obtain ⟨v, hv, rfl⟩ := htree.reaches_iff.1 hf
    cases hv with
    | self => exact absurd rfl hne
    | @kid u _ n hu hn hv =>
      have hnode := (htree.sub hu).node n hn
      refine ⟨n.id, htree.reachesElement_iff.2 ⟨u, hu, n, hn, rfl⟩, ?_, ?_⟩
      · rw [hnode.element_eq, hnode.kids]
        refine count_eq_one_of_mem ?_ (mem_map_of_mem hv)
        have hkids := FormTree.map_sublist_flatMap FormTree.forms FormTree.forms_eq n.kids
        have hbelow : n.forms.Sublist u.forms := by
          rw [u.forms_eq]
          exact (FormTree.sublist_flatMap_of_mem hn).cons _
        exact hforms.sublist ((hkids.trans hbelow).trans hu.forms_sublist)
      · intro e' he' hmem
        obtain ⟨w, hw, m, hm, rfl⟩ := htree.reachesElement_iff.1 he'
        have hnode' := (htree.sub hw).node m hm
        rw [hnode'.element_eq, hnode'.kids] at hmem
        obtain ⟨x, hx, hid⟩ := mem_map.1 hmem
        have hplace := hnode'.links x hx
        rw [hid, hnode.links v hv] at hplace
        exact (Option.some.inj hplace).symm
  case root_free =>
    intro e he hmem
    obtain ⟨u, hu, n, hn, rfl⟩ := htree.reachesElement_iff.1 he
    have hnode := (htree.sub hu).node n hn
    rw [hnode.element_eq, hnode.kids] at hmem
    obtain ⟨v, hv, hid⟩ := mem_map.1 hmem
    exact FormTree.Sub.id_ne hforms hu hn hv hid
  case acyclic =>
    intro e he
    obtain ⟨u, hu, n, hn, rfl⟩ := htree.reachesElement_iff.1 he
    exact not_of_acc (acc_transGen_iff.2 ((htree.sub hu).acc n hn))
  case links =>
    intro f hf e he
    obtain ⟨u, hu, rfl⟩ := htree.reaches_iff.1 hf
    rw [(htree.sub hu).elementsOf_eq] at he
    obtain ⟨n, hn, rfl⟩ := mem_map.1 he
    have hnode := (htree.sub hu).node n hn
    refine ⟨(htree.sub hu).links n hn, ?_⟩
    rw [hnode.element_eq, hnode.kids]
    intro g hg
    obtain ⟨v, hv, rfl⟩ := mem_map.1 hg
    exact hnode.links v hv

theorem Owns.isTraversable (h : p.Owns (.tree t :: rs)) : p.IsTraversable t.id := by
  have htree := h.tree_holds
  have helements := h.tree_elements_nodup
  refine ⟨h.isTree, htree.checkLinksWithin_eq, htree.visits helements, ?_, ?_⟩
  · rw [htree.elementsIn_eq helements]
    exact helements
  · intro v e he depth hdepth
    obtain ⟨u, hu, n, hn, rfl⟩ := htree.reachesElement_iff.1 he
    have hnode := (htree.sub hu).node n hn
    have hsize := (htree.sub hu).length_le_size (helements.sublist hu.elements_sublist) hn
    rw [← v.render_eq hnode hsize]
    exact v.renderWithin_eq hnode (Nat.le_trans hsize hdepth) hsize

end Pool

namespace Context

variable {cx : Context} {s : FoldState} {site : Nat}

/-- Casting the result leaves the pool alone or adds one element in a form of its own. -/
theorem castResult_pool {f : FormId} :
    (cx.castResult site f).Ends s fun g s' =>
      g = f ∧ s'.pool = s.pool ∨
        ∃ type numeric, (g, s'.pool) = s.pool.addSingle (.cast type f numeric) := by
  unfold castResult
  split
  · rename_i type _
    unfold castTo
    split
    · exact .inl ⟨rfl, rfl⟩
    · rw [ends_bind, ends_formType]
      split
      · exact .inl ⟨rfl, rfl⟩
      · split
        · exact .inl ⟨rfl, rfl⟩
        · rw [ends_bind, FoldM.addSingle, ends_onPool, ends_bind,
            ends_noteForm, ends_note, ends_pure]
          exact .inr ⟨type, _, rfl⟩
  · exact .inl ⟨rfl, rfl⟩

/-- Casting the result keeps it a tree and leaves the elements of all other forms alone. -/
theorem castResult_owns {value : FormTree} {rs : List Root} (h : s.pool.Owns (.tree value :: rs)) :
    (cx.castResult site value.id).Ends s fun g s' =>
      (∃ value' : FormTree, value'.id = g ∧ s'.pool.Owns (.tree value' :: rs)) ∧
        ∀ f : FormId, f.index < s.pool.forms.size →
          s'.pool.elementsOf f = s.pool.elementsOf f := by
  refine castResult_pool.mono fun g s' hcast => ?_
  rcases hcast with ⟨rfl, hpool⟩ | ⟨type, numeric, hadd⟩
  · rw [hpool]
    exact ⟨⟨value, rfl, h⟩, fun _ _ => rfl⟩
  · obtain ⟨hg, hpool⟩ := Prod.mk.inj hadd
    rw [hg, hpool]
    have hone : s.pool.Owns ([value].map .tree ++ rs) := h
    have hform : (s.pool.addElement (.cast type value.id numeric)).2.Owns
        ([⟨(s.pool.addElement (.cast type value.id numeric)).1, .cast type value.id numeric,
          [value]⟩].map .node ++ rs) := hone.addElement rfl
    exact ⟨⟨_, rfl, hform.addForm⟩, (s.pool.extends_addSingle _).elementsOf_eq⟩

/-- An assignment of the result at the end of a tree can become its value. -/
theorem stripResult_owns {t : FormTree} (h : s.pool.Owns [.tree t]) :
    (cx.stripResult t.id).Ends s fun _ s' =>
      ∃ t' : FormTree, t'.id = t.id ∧ s'.pool.Owns [.tree t'] := by
  have htree := h.tree_holds
  unfold stripResult
  rw [ends_bind, ends_get]
  dsimp only
  split
  · rename_i dst source ordered notes hlast
    split
    · obtain ⟨init, n, value, ht, -, hkids, rfl⟩ := htree.exists_trailingSet hlast
      have helements := htree.elementsOf_eq
      have hroot := htree.forms_lt _ t.id_mem_forms
      rw [ht] at h helements
      refine (castResult_owns (h.takeLast hkids)).bind fun g s' hcast => ?_
      obtain ⟨⟨value', rfl, howns⟩, hsame⟩ := hcast
      have hinit : (s'.pool.elementsOf t.id).dropLast = init.map Node.id := by
        rw [hsame t.id hroot]
        change s.pool.elementsOf t.id = (init ++ [n]).map Node.id at helements
        rw [helements, map_append, map_singleton, dropLast_concat]
      rw [ends_changePool, hinit]
      exact ⟨.mk t.id (init ++ value'.nodes), rfl, howns.spliceForm⟩
    · exact ⟨t, rfl, h⟩
  · exact ⟨t, rfl, h⟩

/-- Whatever the state, building a region gives a tree that its account allows. -/
theorem build_owns (region : Region) (s : FoldState) :
    (cx.build region).Ends s fun root s' =>
      ∃ t : FormTree, t.id = root ∧ Deposit.Makes (cx.account region).whole t ∧
        s'.pool.Owns [.tree t] := by
  have hfresh : (cx.build region).Ends { s with stack := .empty } fun root s' =>
      ∃ t : FormTree, t.id = root ∧ Deposit.Makes (cx.account region).whole t ∧
        s'.pool.Owns [.tree t] := by
    have hnothing : { s with stack := .empty }.Lists [] [] := ⟨rfl, .nil _⟩
    refine (build_builds region _ _ _ _ hnothing.toHolds).mono fun root s' hbuilt => ?_
    obtain ⟨t, ht, hmakes, E, hlists, -, -⟩ := hbuilt
    exact ⟨t, ht, hmakes, hlists.owns.sublist (sublist_append_left _ _)⟩
  unfold build buildPiece at hfresh ⊢
  rw [TryFoldM.ends_onFreshStack] at hfresh ⊢
  exact hfresh

/-- All elements of a built tree are those that can be reached from its root, each once. -/
theorem build_elementsIn {region : Region} {s' : FoldState} {root : FormId}
    (hbuild : (cx.build region).run s = (.ok root, s')) :
    (s'.pool.elementsIn root).Nodup ∧
      ∀ e, e ∈ s'.pool.elementsIn root ↔ s'.pool.ReachesElement root e := by
  have hends := cx.build_owns region s root
  rw [hbuild] at hends
  obtain ⟨t, rfl, -, howns⟩ := hends rfl
  refine ⟨?_, fun e => howns.tree_holds.mem_elementsIn_iff howns.tree_elements_nodup⟩
  rw [howns.tree_holds.elementsIn_eq howns.tree_elements_nodup]
  exact howns.tree_elements_nodup

/-- The tree of a region is a tree, also when the assignment of the result at its end has
become its value.  So a reconstruction never fails for its links. -/
theorem build_isTraversable (cx : Context) (region : Region) (s s' : FoldState) (root : FormId)
    (hbuild : (cx.build region).run s = (.ok root, s')) :
    s'.pool.IsTraversable root ∧ (cx.stripResult root s').2.pool.IsTraversable root ∧
      (cx.routine.validate = .ok () →
        cx.routine.validateRegion cx.config.maxDepth region = .ok () →
        let final := if cx.config.stripResult then (cx.stripResult root s').2 else s'
        (cx.reconstruct region).run s = (.ok ⟨final.pool, root⟩, final)) := by
  have hends := cx.build_owns region s root
  rw [hbuild] at hends
  obtain ⟨t, rfl, -, howns⟩ := hends rfl
  obtain ⟨t', hid, howns'⟩ : ∃ t' : FormTree, t'.id = t.id ∧
      (cx.stripResult t.id s').2.pool.Owns [.tree t'] := stripResult_owns howns
  have htree := howns.isTraversable
  have htree' := howns'.isTraversable
  rw [hid] at htree'
  refine ⟨htree, htree', fun hvalidate hregion => ?_⟩
  extract_lets final
  unfold reconstruct
  rw [hvalidate, hregion, TryFoldM.run_bind_of_ok TryFoldM.run_ofExcept_ok,
    TryFoldM.run_bind_of_ok TryFoldM.run_ofExcept_ok,
    TryFoldM.run_bind_of_ok hbuild]
  extract_lets finish
  have hfinish : ∀ s : FoldState, s.pool.IsTraversable t.id →
      (finish ()).run s = (.ok ⟨s.pool, t.id⟩, s) := by
    intro s h
    unfold finish
    rw [TryFoldM.run_bind_of_ok (show (get : TryFoldM FoldState).run s = (.ok s, s) from rfl)]
    have hcheck : s.pool.checkLinks t.id = .ok () := h.checkLinks _
    extract_lets pool
    rw [hcheck, TryFoldM.run_bind_of_ok TryFoldM.run_ofExcept_ok]
    rfl
  unfold final
  split
  · rw [TryFoldM.run_bind_of_ok TryFoldM.run_liftM, hfinish _ htree']
  · exact hfinish s' htree

/-- A routine that returns the sum of two registers, one of which it may first set. -/
def guardedSum : Context where
  routine :=
    { name := "guarded-sum"
      code := #[⟨.branch ⟨⟨.zero, [.var (.read ⟨4⟩ 0)]⟩, false, 2, none⟩, ∅⟩,
        ⟨.set (.write ⟨5⟩ 1) ⟨.add, [.var (.read ⟨4⟩ 1), .int 1]⟩, ∅⟩,
        ⟨.set (.write .v0 2) ⟨.add, [.var (.read ⟨5⟩ 2), .var (.read ⟨4⟩ 2)]⟩, .ofList [⟨4⟩, ⟨5⟩]⟩]
      blocks := #[⟨0, 0, 1, [1, 2]⟩, ⟨1, 1, 2, [2]⟩, ⟨2, 2, 3, [3]⟩, ⟨3, 3, 3, []⟩]
      labels := []
      epilogue := some 3
      resultRegister := .v0 }
  env :=
    { variableType := fun _ => some .uint
      variableName := Variable.text
      resultType := some .int }
  config := .standard
  liveAfter := #[]

theorem guardedSum_isTraversable :
    ∃ root s', (guardedSum.build
        (.sequence [.conditional [⟨.block 0, .block 1⟩] none, .block 2])).run default =
          (.ok root, s') ∧
      s'.pool.IsTraversable root ∧ (guardedSum.stripResult root s').2.pool.IsTraversable root ∧
      ((guardedSum.reconstruct
        (.sequence [.conditional [⟨.block 0, .block 1⟩] none, .block 2])).run default).1 =
          .ok ⟨(guardedSum.stripResult root s').2.pool, root⟩ := by
  have hok : ((guardedSum.build (.sequence [.conditional [⟨.block 0, .block 1⟩] none,
      .block 2])).run default).1.toBool = true := by decide +kernel
  rcases hrun : (guardedSum.build (.sequence [.conditional [⟨.block 0, .block 1⟩] none,
      .block 2])).run default with ⟨e | root, s'⟩
  · rw [hrun] at hok
    cases hok
  · obtain ⟨htree, hstripped, hreconstruct⟩ := build_isTraversable guardedSum _ default s' root hrun
    refine ⟨root, s', rfl, htree, hstripped, ?_⟩
    rw [hreconstruct rfl rfl]
    rfl

end Context

end Decompiler
