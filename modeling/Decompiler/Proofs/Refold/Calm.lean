import Decompiler.Proofs.Refold.Run

/-!
Trees that can be refolded without a look at the order of effects: the flags of assignments say
which of them act, and still do so when values have been folded, and nothing acts in front of an
operand that may get a value that acts.
-/

namespace Decompiler

open List

variable {R : RegisterSet} {k : Nat} {n n' : Node FormTree} {old new t u : FormTree}
  {before : List FormTree} {os os' : List Observation} {orderly : Prop}

/-- What evaluating an element may do, where some registers are assigned what acts: nothing, or
act, or read one of these registers, so that anything may be folded into its place. -/
def Element.unrest (R : RegisterSet) : Element → Nat
  | .atom (.var v) => if v.register ∈ R then 2 else 0
  | element => if element.effect?.isSome then 1 else 0

def AtRest (R : RegisterSet) (k : Nat) (os : List Observation) : Prop := ∀ o ∈ os, o.2.unrest R ≤ k

namespace AtRest

theorem append : AtRest R k (os ++ os') ↔ AtRest R k os ∧ AtRest R k os' := forall_mem_append

theorem of_two_le (hk : 2 ≤ k) : AtRest R k os := by
  intro o _
  unfold Element.unrest
  split <;> split <;> omega

theorem performedIn_eq (h : AtRest R 0 os) : performedIn os = [] := by
  refine filterMap_eq_nil_iff.2 fun o ho => ?_
  have hnone : o.2.effect? = none := by
    have hrest := h o ho
    unfold Element.unrest at hrest
    split at hrest
    · rename_i hatom
      rw [hatom]
      rfl
    · simpa using hrest
  rw [Observation.performed, hnone]
  rfl

end AtRest

/-- Assignments that nothing may be moved across are to some registers, all others neither act nor
read these registers.  In front of an operand that reads one, an operand does neither. -/
structure Node.Steady (R : RegisterSet) (n : Node FormTree) : Prop where
  flagged : ∀ {dst source notes}, n.element = .set dst source true notes → dst.register ∈ R
  unflagged : ∀ {dst source notes}, n.element = .set dst source false notes → AtRest R 0 n.evaluated
  operands : n.kids.Pairwise fun u w => AtRest R 1 w.evaluated ∨ AtRest R 0 u.evaluated

inductive FormTree.Calm (R : RegisterSet) : FormTree → Prop
  | mk {f : FormId} {ns : List (Node FormTree)} (hsteady : ∀ n ∈ ns, n.Steady R)
      (hbelow : ∀ n ∈ ns, ∀ u ∈ n.kids, Calm R u) : Calm R (.mk f ns)

def Node.Calm (R : RegisterSet) (n : Node FormTree) : Prop := n.Steady R ∧ ∀ u ∈ n.kids, u.Calm R

theorem FormTree.calm_iff : t.Calm R ↔ ∀ n ∈ t.nodes, n.Calm R := by
  cases t with
  | mk f ns =>
    refine ⟨?_, fun h => ⟨fun n hn => (h n hn).1, fun n hn => (h n hn).2⟩⟩
    rintro ⟨hsteady, hbelow⟩ n hn
    exact ⟨hsteady n hn, hbelow n hn⟩

namespace Node.Exchanges

variable (h : Exchanges old new before n n')
include h

theorem atRest (hrest : AtRest R k old.evaluated → AtRest R k new.evaluated)
    (hn : AtRest R k n.evaluated) : AtRest R k n'.evaluated := by
  obtain ⟨after, heq, heq'⟩ := h.evaluated_eq
  rw [heq, AtRest.append, AtRest.append] at hn
  rw [heq', AtRest.append, AtRest.append]
  exact ⟨hn.1, hrest hn.2.1, hn.2.2⟩

/-- A tree can be exchanged for one that does no more. -/
theorem calm (hrest : ∀ k, AtRest R k old.evaluated → AtRest R k new.evaluated)
    (hnew : new.Calm R) (hn : n.Calm R) : n'.Calm R := by
  induction h with
  | kid e element before after =>
    obtain ⟨hsteady, hbelow⟩ := hn
    refine ⟨⟨hsteady.flagged, fun hset => ?_, ?_⟩, ?_⟩
    · exact (kid e element before after).atRest (hrest 0) (hsteady.unflagged hset)
    · have hpairs := hsteady.operands
      simp only [pairwise_append, pairwise_cons, forall_mem_cons] at hpairs ⊢
      obtain ⟨hbefore, ⟨hold, hafter⟩, hacross⟩ := hpairs
      exact ⟨hbefore, ⟨fun w hw => (hold w hw).imp_right (hrest 0), hafter⟩,
        fun u hu => ⟨(hacross u hu).1.imp_left (hrest 1), (hacross u hu).2⟩⟩
    · simp only [forall_mem_append, forall_mem_cons] at hbelow ⊢
      exact ⟨hbelow.1, hnew, hbelow.2.2⟩
  | inner e element f h ih =>
    obtain ⟨hsteady, hbelow⟩ := hn
    have hinner := FormTree.calm_iff.1 (hbelow _ mem_cons_self) _ mem_cons_self
    refine ⟨⟨hsteady.flagged, fun hset => ?_, pairwise_singleton _ _⟩, ?_⟩
    · exact (inner e element f h).atRest (hrest 0) (hsteady.unflagged hset)
    · exact forall_mem_singleton.2 (FormTree.calm_iff.2 (forall_mem_singleton.2 (ih hinner)))

/-- What may get a value that acts has nothing in front of it that does. -/
theorem before_atRest (hold : ¬ AtRest R 1 old.evaluated) (hn : n.Calm R) :
    AtRest R 0 (before.flatMap FormTree.evaluated) := by
  induction h with
  | kid e element before after =>
    intro o ho
    obtain ⟨u, hu, ho⟩ := mem_flatMap.1 ho
    exact ((pairwise_append.1 hn.1.operands).2.2 u hu old mem_cons_self).resolve_left hold o ho
  | inner e element f h ih => exact ih (FormTree.calm_iff.1 (hn.2 _ mem_cons_self) _ mem_cons_self)

end Node.Exchanges

/-- A fold among calm elements is orderly, and they stay calm. -/
theorem Node.Folds.calm {ns ns' : List (Node FormTree)} (h : Node.Folds orderly ns ns')
    (hcalm : ∀ n ∈ ns, n.Calm R) : Node.Folds True ns ns' ∧ ∀ n ∈ ns', n.Calm R := by
  cases h with
  | @intro older newer rest m n n' dst v source f ordered notes value e before hset hvalue hreg
      hpassed hoperand _ =>
    simp only [forall_mem_append, forall_mem_cons] at hcalm ⊢
    obtain ⟨holder, hm, hnewer, hn, hrest⟩ := hcalm
    have hslot : ∀ k, AtRest R k (FormTree.mk f [⟨e, .atom (.var v), []⟩]).evaluated ↔
        (if v.register ∈ R then 2 else 0) ≤ k := by
      simp [AtRest, Node.evaluated, Element.unrest]
    have hnew : (FormTree.mk f value.nodes).evaluated = value.evaluated := by
      rw [FormTree.evaluated_mk, value.evaluated_eq]
    -- Only a register of an assignment with the flag may get a value that acts.
    have hquiet : v.register ∉ R → AtRest R 0 value.evaluated := by
      intro hv
      cases ordered with
      | true => exact absurd (hreg ▸ hm.1.flagged hset) hv
      | false =>
        have hall := hm.1.unflagged hset
        rw [Node.evaluated, hvalue, flatMap_singleton, AtRest.append] at hall
        exact hall.1
    have hbelow := FormTree.calm_iff.1 (hm.2 value (hvalue ▸ mem_cons_self))
    refine ⟨.intro older newer rest hset hvalue hreg hpassed hoperand fun _ => ?_, holder,
      hnewer, hoperand.calm (fun k hk => ?_) (FormTree.calm_iff.2 hbelow) hn, hrest⟩
    · by_cases hv : v.register ∈ R
      · refine .inr (AtRest.performedIn_eq (R := R) (AtRest.append.2 ⟨fun o ho => ?_, ?_⟩))
        · obtain ⟨w, hw, ho⟩ := mem_flatMap.1 ho
          obtain ⟨dst', source', notes', hunflagged⟩ := hpassed w hw
          exact (hnewer w hw).1.unflagged hunflagged o ho
        · refine hoperand.before_atRest ?_ hn
          rw [hslot, if_pos hv]
          omega
      · exact .inl (hquiet hv).performedIn_eq
    · rw [hnew]
      rw [hslot] at hk
      split at hk
      · exact AtRest.of_two_le hk
      · rename_i hv
        exact fun o ho => (hquiet hv o ho).trans k.zero_le

theorem FormTree.Folds.calm (h : Folds orderly t u) (hcalm : t.Calm R) :
    Folds True t u ∧ u.Calm R := by
  induction h with
  | here f h =>
    obtain ⟨hfolds, hnew⟩ := h.calm (calm_iff.1 hcalm)
    exact ⟨.here f hfolds, calm_iff.2 hnew⟩
  | @inside f earlier later e element before after u u' h ih =>
    obtain ⟨hearlier, hhere⟩ := forall_mem_append.1 (calm_iff.1 hcalm)
    obtain ⟨hn, hlater⟩ := forall_mem_cons.1 hhere
    obtain ⟨hfolds, hnew⟩ := ih (hn.2 u (by simp))
    obtain ⟨assignment, read, hperm⟩ := h.moves.perm
    have hkid := (Node.Exchanges.kid e element before after).calm
      (fun k hk o ho => hk o (hperm.mem_iff.2 (by simp [ho]))) hnew hn
    exact ⟨.inside f earlier later e element before after hfolds,
      calm_iff.2 (forall_mem_append.2 ⟨hearlier, forall_mem_cons.2 ⟨hkid, hlater⟩⟩)⟩

/-- Folds of a calm tree keep its effects in order. -/
theorem FormTree.Refolds.calm (h : Refolds orderly k t u) (hcalm : t.Calm R) :
    performedIn u.evaluated = performedIn t.evaluated ∧ u.Calm R := by
  induction h with
  | refl t => exact ⟨rfl, hcalm⟩
  | step hfold hrest ih =>
    obtain ⟨horderly, hnext⟩ := hfold.calm hcalm
    obtain ⟨heq, hend⟩ := ih hnext
    exact ⟨heq.trans (horderly.moves.performedIn_eq trivial), hend⟩

namespace Pool

variable {p : Pool}

def atRest (p : Pool) (R : RegisterSet) (k : Nat) (es : List ElementId) : Bool :=
  es.all fun e => (p.element e).unrest R ≤ k

def isSteady (p : Pool) (R : RegisterSet) (e : ElementId) : Bool :=
  (match p.element e with
    | .set dst _ ordered _ =>
      if ordered then R.contains dst.register else p.atRest R 0 (p.evaluatedUnder e)
    | _ => true) &&
  decide ((p.element e).children.Pairwise fun f g =>
    p.atRest R 1 (p.evaluated g) ∨ p.atRest R 0 (p.evaluated f))

theorem atRest_iff (h : ∀ o ∈ os, p.element o.1 = o.2) :
    p.atRest R k (os.map Prod.fst) = true ↔ AtRest R k os := by
  rw [atRest, all_map, all_eq_true]
  refine forall₂_congr fun o ho => ?_
  rw [Function.comp_apply, h o ho, decide_eq_true_iff]

theorem Owns.atRest_iff (h : p.Owns [.tree t]) :
    p.atRest R k (p.evaluated t.id) = true ↔ AtRest R k t.evaluated := by
  rw [h.tree_holds.evaluated_eq h.tree_elements_nodup]
  exact Pool.atRest_iff h.tree_holds.element_eq_of_evaluated

theorem Owns.kid (h : p.Owns [.node n]) (hu : u ∈ n.kids) : p.Owns [.tree u] :=
  h.openNode.one (mem_cons_of_mem _ (mem_append_left _ (mem_map_of_mem hu)))

theorem Owns.steady (h : p.Owns [.node n]) (hn : p.isSteady R n.id = true) : n.Steady R := by
  have hnode : p.HoldsNode n := h.holds _ mem_cons_self
  rw [isSteady, hnode.element_eq, Bool.and_eq_true, decide_eq_true_iff, hnode.kids,
    pairwise_map] at hn
  refine ⟨fun hset => ?_, fun hset => ?_, hn.2.imp_of_mem fun {u w} hu hw hpair => ?_⟩
  · rw [hset] at hn
    exact hn.1
  · rw [← Pool.atRest_iff hnode.element_eq_of_evaluated, ← h.evaluatedUnder_eq]
    simpa [hset] using hn.1
  · rwa [(h.kid hw).atRest_iff, (h.kid hu).atRest_iff] at hpair

/-- A tree is calm if all that is evaluated for it is steady. -/
theorem Owns.calm (h : p.Owns [.tree t]) (hsteady : ∀ o ∈ t.evaluated, p.isSteady R o.1 = true) :
    t.Calm R := by
  induction t using FormTree.induct with
  | h f ns ih =>
    refine FormTree.calm_iff.2 fun n hn => ?_
    rw [FormTree.evaluated_mk] at hsteady
    have hnode : p.Owns [.node n] :=
      h.openTree.one (mem_cons_of_mem _ (mem_append_left _ (mem_map_of_mem hn)))
    have hown : ∀ o ∈ n.evaluated, p.isSteady R o.1 = true :=
      fun o ho => hsteady o (mem_flatMap.2 ⟨n, hn, ho⟩)
    refine ⟨hnode.steady (hown _ (mem_append_right _ mem_cons_self)), fun u hu => ?_⟩
    refine ih n hn u hu (hnode.kid hu) fun o ho => hown o ?_
    exact mem_append_left _ (mem_flatMap.2 ⟨u, hu, ho⟩)

end Pool

end Decompiler
