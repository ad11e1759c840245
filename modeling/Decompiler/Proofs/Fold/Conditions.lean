import Decompiler.Proofs.Fold.Expressions
import Decompiler.Proofs.Fold.Moves

/-!
What conditions are made of.  A condition, and a conditional move that stands for the truth of one
or for the least or greatest of two values, consists of what its operands bring, also where the
folder takes a comparison apart to build it anew.
-/

namespace Decompiler

open FoldM List

variable {cx : Context} {s : FoldState} {E kept : List Held} {T : List Observation} {hs : List Root}
  {site n : Nat} {op : Operation} {read : List Register}

namespace Context

variable {operands : List (Option Register)} {flipped effects : Bool} {test : Test}

/-- The form of a condition at a branch.  Only a comparison of floats can bring a test and a
flip of its own. -/
inductive ConditionTree (cx : Context) (site : Nat) (flipped : Bool) : FormTree → Prop
  | mk (f : FormId) (e : ElementId) (test : Test) (args : List FormId) (consumed : RegisterSet)
      (flip : Bool) (at' : Nat) (ts : List FormTree)
      (hplain : cx.config.allows .floatCompare = false → flip = flipped ∧ at' = site) :
      ConditionTree cx site flipped (.mk f [⟨e, .condition test args consumed flip at', ts⟩])

/-- A condition is made of entries that were taken off a stack. -/
def FoldsCondition (cx : Context) (site : Nat) (flipped : Bool)
    (operands : List (Option Register)) (read : List Register) (E : List Held) (hs : List Root)
    (f : FormId) (s : FoldState) : Prop :=
  ∃ t : FormTree, t.id = f ∧ ConditionTree cx site flipped t ∧ ∃ taken kept,
    Held.Takes true operands E taken kept ∧ Brings read taken t.substance ∧
      s.Lists kept (.tree t :: hs)

theorem FoldsCondition.folds {f : FormId}
    (h : cx.FoldsCondition site flipped operands read E hs f s) :
    s.Folds operands read E [f] hs := by
  obtain ⟨t, rfl, -, taken, kept, htakes, hbrings, hlists⟩ := h
  exact ⟨taken, kept, t.substance, htakes, hbrings, .of_single hlists⟩

theorem addCondition_folds (cx : Context) (test : Test) {fs : List FormId}
    (consumed : RegisterSet) (flipped : Bool) (h : s.Folds operands read E fs hs) :
    (FoldM.addSingle (.condition test fs consumed flipped site)).Ends s fun f s' =>
      cx.FoldsCondition site flipped operands read E hs f s' := by
  obtain ⟨taken, kept, T, htakes, hbrings, ts, rfl, hlists, rfl⟩ := h
  have hchildren : (Element.condition test (ts.map FormTree.id) consumed flipped site).children =
      ts.map FormTree.id := rfl
  refine (hlists.addSingle hchildren).mono fun f s' hnew => ?_
  obtain ⟨e, hlists'⟩ := hnew
  refine ⟨_, rfl, .mk f e test _ consumed flipped site ts fun _ => ⟨rfl, rfl⟩, taken, kept,
    htakes, ?_, hlists'⟩
  rw [FormTree.substance_single, Node.substance_of_isPlain rfl]
  exact hbrings

variable {args : List Atom}

theorem plainCondition_folds (h : s.Lists E hs) :
    (cx.plainCondition site test args flipped effects).Ends s fun f s' =>
      cx.FoldsCondition site flipped (args.map Atom.register?) (args.filterMap Atom.register?) E
        hs f s' := by
  rw [plainCondition]
  refine (operandsMarked_folds h).bind fun popped s' hpopped => ?_
  rw [ends_bind, ends_consumedNow]
  dsimp only
  split
  · exact addCondition_folds cx test _ flipped hpopped.2
  · exact (hpopped.2.then id fun _ _ => matchOperands_carries).bind
      fun fs s'' hfs => addCondition_folds cx test _ flipped hfs

/-- The pending comparison is taken and becomes the condition itself. -/
theorem popFloatFlag_folds (operands : List (Option Register)) (h : s.Lists E hs)
    (hallows : cx.config.allows .floatCompare = true) :
    (cx.popFloatFlag site test flipped effects).Ends s fun found s' =>
      match found with
      | some f => cx.FoldsCondition site flipped operands [.fcc] E hs f s'
      | none => s' = s := by
  have houtcome : FlagOutcome s test flipped effects
    (cx.popFloatFlag site test flipped effects s) := popFloatFlag_outcome
  rw [FoldM.Ends]
  rcases hrun : cx.popFloatFlag site test flipped effects s with ⟨found, s'⟩
  rw [hrun] at houtcome
  cases houtcome with
  | nothing => rfl
  | @taken f e t args consumed wasFlipped at' stack hpop hsingle helem log =>
    obtain ⟨tree, kept, rfl, hpops, hlists⟩ := h.popRegister hpop
    have htree : s.pool.Holds tree := hlists.holds mem_cons_self
    obtain ⟨n, heq, rfl, hnode⟩ := htree.exists_single hsingle
    rw [hnode.element_eq] at helem
    rw [heq] at hlists
    let element : Element :=
      .condition t args consumed (wasFlipped ^^ ((test == .flagClear) ^^ flipped)) at'
    have hnew : { s with pool := s.pool.replace n.id element, stack }.Lists kept
        (.tree (.mk tree.id [⟨n.id, element, n.kids⟩]) :: hs) :=
      hlists.replaceSingle (by rw [helem]; rfl)
    -- A condition is plain, before and after.
    have hsubstance : (FormTree.mk tree.id [⟨n.id, element, n.kids⟩]).substance =
        tree.substance := by
      rw [heq, FormTree.substance_single, FormTree.substance_single,
        Node.substance_of_isPlain rfl, Node.substance_of_isPlain (by rw [helem]; rfl)]
    refine ⟨.mk tree.id [⟨n.id, element, n.kids⟩], rfl,
      .mk tree.id n.id t args consumed _ at' n.kids ?_, ?_⟩
    · intro hnot
      cases hallows.symm.trans hnot
    · obtain ⟨hdst, hpasses⟩ := hpops
      refine ⟨_, _, .single true operands h.nodup hpasses.free,
        ?_, hnew⟩
      rw [hsubstance]
      refine .single rfl fun r hr => .inl ?_
      rw [mem_singleton.1 hr, ← hdst]
      rfl

/-- A condition reads its operands, or the flag in their place. -/
theorem buildCondition_folds (h : s.Lists E hs) :
    (cx.buildCondition site test args flipped effects).Ends s fun f s' => ∃ read,
      cx.FoldsCondition site flipped (args.map Atom.register?) read E hs f s' ∧
      (read = args.filterMap Atom.register? ∨ test.readsFlag = true ∧
        cx.config.allows .floatCompare = true ∧ read = [.fcc]) := by
  have hplain : (cx.plainCondition site test args flipped effects).Ends s fun f s' => ∃ read,
      cx.FoldsCondition site flipped (args.map Atom.register?) read E hs f s' ∧
      (read = args.filterMap Atom.register? ∨ test.readsFlag = true ∧
        cx.config.allows .floatCompare = true ∧ read = [.fcc]) :=
    (plainCondition_folds h).mono fun f s' hf => ⟨_, hf, .inl rfl⟩
  unfold buildCondition
  split
  · rename_i hflag
    obtain ⟨hflag, hallows⟩ := Bool.and_eq_true_iff.1 hflag
    refine (popFloatFlag_folds (args.map Atom.register?) h hallows).bind fun found s' hfound => ?_
    cases found with
    | some f => exact ⟨_, hfound, .inr ⟨hflag, hallows, rfl⟩⟩
    | none =>
      subst hfound
      exact hplain
  · exact hplain

end Context

variable {f : FormId} {p : Pool} {r : Register}

theorem Pool.lessThan?_eq_some {a b : FormId} {test : Test} (h : p.lessThan? f = some (test, a, b)) :
    ∃ builtin, (p.single? f).map p.element = some (.apply (.builtin builtin) [a, b]) ∧
      (builtin = .setLess ∧ test = .lessSigned ∨
        builtin = .setLessUnsigned ∧ test = .lessUnsigned) := by
  unfold Pool.lessThan? at h
  split at h
  · rename_i a' b' hsingle
    cases h
    exact ⟨_, hsingle, .inl ⟨rfl, rfl⟩⟩
  · rename_i a' b' hsingle
    cases h
    exact ⟨_, hsingle, .inr ⟨rfl, rfl⟩⟩
  · cases h

theorem Pool.isTruth_eq_true (h : p.isTruth f = true) :
    (p.single? f).map p.element = some (.atom .truth) := by
  rw [Pool.isTruth, Option.any_eq_true] at h
  obtain ⟨a, hatom, htrue⟩ := h
  obtain ⟨element, hsingle, hatom⟩ := Option.bind_eq_some_iff.1 hatom
  cases element <;> cases hatom
  rw [hsingle, eq_of_beq htrue]

theorem Pool.registerOf?_eq_some (h : p.registerOf? f = some r) :
    ∃ a, (p.single? f).map p.element = some (.atom a) ∧ a.register? = some r := by
  obtain ⟨element, hsingle, hatom⟩ := Option.bind_eq_some_iff.1 h
  obtain ⟨a, ha, hreg⟩ := Option.bind_eq_some_iff.1 hatom
  cases element <;> cases ha
  exact ⟨_, hsingle, hreg⟩

theorem Pool.swapped?_eq_some {a b : FormId} {dst source : Register} {swapped : Bool}
    (h : p.swapped? a b dst source = some swapped) :
    p.registerOf? a = some (if swapped then source else dst) ∧
      p.registerOf? b = some (if swapped then dst else source) := by
  unfold Pool.swapped? at h
  simp only [bind, Option.bind_eq_some_iff, pure] at h
  obtain ⟨left, hleft, right, hright, hresult⟩ := h
  split at hresult
  · rename_i horder
    cases hresult
    exact ⟨horder.1 ▸ hleft, horder.2 ▸ hright⟩
  · obtain ⟨horder, heq⟩ := Option.ite_none_right_eq_some.1 hresult
    cases heq
    exact ⟨horder.1 ▸ hleft, horder.2 ▸ hright⟩

/-- A form that is the variable of a register consists of its atom. -/
theorem Pool.Holds.substance_of_registerOf? {t : FormTree} (h : p.Holds t)
    (hr : p.registerOf? t.id = some r) :
    ∃ e a, t.substance = [(e, .atom a)] ∧ Observation.Reads (e, .atom a) r := by
  obtain ⟨a, hsingle, hreg⟩ := Pool.registerOf?_eq_some hr
  obtain ⟨e, kids, htree, hnode⟩ := h.exists_element hsingle
  obtain rfl : kids = [] := map_eq_nil_iff.1 hnode.kids.symm
  refine ⟨e, a, ?_, ?_⟩
  · rw [htree, FormTree.substance_single, Node.substance_eq, Element.substance, Element.isPlain,
      hreg]
    rfl
  · obtain ⟨v, hv, hv'⟩ := Option.map_eq_some_iff.1 hreg
    exact ⟨v, Option.mem_toList.2 hv, hv'⟩

namespace Context

variable {dst test : Register} {a b : FormId} {stack : Stack}

/-- A comparison and the true symbol above it are taken. -/
theorem truthTest_folds {truth compare : FormId} {under : Stack} {t : Test} (h : s.Lists E hs)
    (htop : s.stack.popTop dst = some (truth, under)) (htruth : s.pool.isTruth truth = true)
    (hcompare : under.popRegister s.pool test (.single dst) true = some (compare, stack))
    (hless : s.pool.lessThan? compare = some (t, a, b)) :
    { s with stack }.Folds [some test, some dst] [test, dst] E [a, b] hs := by
  have hatom := Pool.isTruth_eq_true htruth
  obtain ⟨builtin, hcall, -⟩ := Pool.lessThan?_eq_some hless
  obtain ⟨dst', u, ordered, notes, below, rfl, rfl, rfl, hbelow⟩ := h.popTop htop
  obtain ⟨v, kept, rfl, hpops, hlists⟩ := hbelow.popRegister hcompare
  have hu : u.substance = [] :=
    Pool.Holds.substance_of_leaf (hbelow.holds mem_cons_self) hatom rfl rfl
  have hvalue : { s with stack }.Carries kept v.substance [v.id] hs :=
    .of_single (hlists.sublist (.cons_cons _ (sublist_cons_self _ _)))
  have hboth : { s with stack }.Carries kept v.substance [a, b] hs :=
    hvalue.unwrap hcall rfl
  obtain ⟨hdst, hpasses⟩ := hpops
  have hfirst := (Held.Takes.nothing true [some test, some dst'.register] _).cons h.nodup
    (nil_append _).symm (by simp) (by simp)
  refine ⟨_, _, _, hfirst.cons h.nodup rfl hpasses.free ?_, ?_,
    hboth⟩
  · intro second hsecond
    rw [mem_singleton.1 hsecond]
    simp [Held.pending, Pending.register?, hdst]
  · refine ⟨by simp [Held.control?], ⟨[], by simp, ?_⟩, ?_, fun r hr => .inr ?_⟩
    · simp [Held.substance, hu]
    · simp [Held.substance, hu]
    · rcases mem_pair.1 hr with rfl | rfl
      · exact ⟨_, mem_cons_self, .inl (congrArg some hdst)⟩
      · exact ⟨_, mem_cons_of_mem _ mem_cons_self, .inl rfl⟩

/-- A comparison of two variables is taken.  As these are atoms, they can change places. -/
theorem orderTest_folds (operands : List (Option Register)) {source : Register} {swapped : Bool}
    {compare : FormId} {t : Test} (h : s.Lists E hs)
    (hcompare : s.stack.popRegister s.pool test ∅ true = some (compare, stack))
    (hless : s.pool.lessThan? compare = some (t, a, b))
    (horder : s.pool.swapped? a b dst source = some swapped) :
    { s with stack }.Folds operands [test, dst, source] E
      (if swapped then [b, a] else [a, b]) hs := by
  obtain ⟨hleft, hright⟩ := Pool.swapped?_eq_some horder
  obtain ⟨builtin, hcall, -⟩ := Pool.lessThan?_eq_some hless
  obtain ⟨v, kept, rfl, hpops, hlists⟩ := h.popRegister hcompare
  have hvalue : { s with stack }.Carries kept v.substance [v.id] hs := .of_single hlists
  have hunwrapped : { s with stack }.Carries kept v.substance [a, b] hs :=
    hvalue.unwrap hcall rfl
  obtain ⟨ts, hts, hboth, hv⟩ := hunwrapped
  obtain ⟨t, rest, rfl, rfl, hrest⟩ := map_eq_cons_iff.1 hts
  obtain ⟨u, rest, rfl, rfl, hnil⟩ := map_eq_cons_iff.1 hrest
  rw [map_eq_nil_iff] at hnil
  subst hnil
  obtain ⟨e, x, ht, hx⟩ := Pool.Holds.substance_of_registerOf? (hboth.holds mem_cons_self) hleft
  obtain ⟨e', y, hu, hy⟩ := Pool.Holds.substance_of_registerOf?
    (hboth.holds (mem_cons_of_mem _ mem_cons_self)) hright
  have hv : v.substance = [(e, .atom x), (e', .atom y)] := by simpa [ht, hu] using hv.symm
  -- Whatever their order, the two atoms are what the comparison consists of.
  have hperm : ((if swapped then [u, t] else [t, u]).flatMap FormTree.substance).Perm
      v.substance := by
    rw [hv]
    split
    · simpa [ht, hu] using List.Perm.swap _ _ _
    · simp [ht, hu]
  have hatom : ∀ o ∈ v.substance, ∃ z, o.2 = .atom z := by simp [hv]
  have hread : ∀ r ∈ [dst, source], ∃ o ∈ v.substance, o.Reads r := by
    have hleft : ∃ o ∈ v.substance, o.Reads (if swapped then source else dst) :=
      ⟨_, by rw [hv]; exact mem_cons_self, hx⟩
    have hright : ∃ o ∈ v.substance, o.Reads (if swapped then dst else source) :=
      ⟨(e', .atom y), by simp [hv], hy⟩
    intro r hr
    cases swapped <;> rcases mem_pair.1 hr with rfl | rfl <;> assumption
  obtain ⟨hdst, hpasses⟩ := hpops
  refine ⟨_, _, _, .single true operands h.nodup hpasses.free,
    .atoms rfl hperm hatom fun r hr => ?_, (if swapped then [u, t] else [t, u]), ?_, ?_, rfl⟩
  · rcases mem_cons.1 hr with rfl | hr
    · exact .inr (.inl (congrArg some hdst))
    · exact .inl (hread r hr)
  · split <;> rfl
  · split
    · exact hboth.perm (List.Perm.swap _ _ _)
    · exact hboth

/-- What is recognized is made of what the move reads. -/
theorem Recognizes.folds {dst test : Variable} {source : Atom} {onZero : Bool} {element : Element}
    (h : s.Lists E hs) (hfound : Recognizes s dst test onZero source stack element) :
    { s with stack }.Folds [some test.register, some dst.register]
        (test.register :: dst.register :: source.register?.toList) E element.children hs ∧
      element.isPlain = true := by
  cases hfound with
  | truth htop htruth hpop hless => exact ⟨truthTest_folds h htop htruth hpop hless, rfl⟩
  | minMax hpop hless horder => exact ⟨orderTest_folds _ h hpop hless horder, rfl⟩

end Context

end Decompiler
