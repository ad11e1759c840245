import Decompiler.Proofs.Meaning.Chains
import Decompiler.Proofs.Tree.Growth

/-!
Conditionals as values.  When all arms of a conditional and its alternative end by assigning one
register, the conditional becomes the value of that register and the arms give up their
assignments.  Whatever the tests, the arms and the assignment do, that is done as before and in
the same order.  When the arms do not agree on a register, they are left as they are.
-/

namespace Decompiler

open TryFoldM List

/-- What elements do, with effects of any kind.  A step gets the value of the step before it, so
the value of a form is that of its last element. -/
structure Semantics (m : Type → Type) (V : Type) where
  assign : Register → V → m V
  holds : V → m Bool
  /-- Runs any other element, given what its child forms do. -/
  other : ElementId → Element → List (V → m V) → V → m V

namespace Semantics

variable {m : Type → Type} {V : Type} [Monad m]

/-- Runs tests, each of which comes with an arm, up to the first that holds; then its arm, or the
alternative behind the last test. -/
def choose (I : Semantics m V) : List (V → m V) → V → m V
  | [], v => pure v
  | [alt], v => alt v
  | test :: body :: rest, v => do
    let w ← test v
    if ← I.holds w then body w else I.choose rest w

def perform (I : Semantics m V) (n : Node (V → m V)) (v : V) : m V :=
  match n.element with
  | .set dst _ _ _ => n.kids.foldlM (fun v source => source v) v >>= I.assign dst.register
  | .condElse _ _ _ => I.choose n.kids v
  | element => I.other n.id element n.kids v

end Semantics

section Run

variable {m : Type → Type} {V : Type} [Monad m]

def FormTree.run (I : Semantics m V) : FormTree → V → m V :=
  FormTree.fold fun _ nodes v => nodes.foldlM (fun v n => I.perform n v) v

def Node.run (I : Semantics m V) (n : Node FormTree) (v : V) : m V :=
  I.perform ⟨n.id, n.element, n.kids.map (FormTree.run I)⟩ v

theorem FormTree.run_mk (I : Semantics m V) (f : FormId) (nodes : List (Node FormTree)) (v : V) :
    (mk f nodes).run I v = nodes.foldlM (fun v n => n.run I v) v := by
  rw [run, fold_mk, foldlM_map]
  rfl

variable [LawfulMonad m] {r : Register}

theorem FormTree.run_single (I : Semantics m V) (f : FormId) (n : Node FormTree) (v : V) :
    (mk f [n]).run I v = n.run I v := by
  simp only [run_mk, foldlM_cons, foldlM_nil, bind_pure]

theorem Node.run_set (I : Semantics m V) (e : ElementId) (dst : Variable) (source : FormId)
    (ordered : Bool) (notes : SetNotes) (value : FormTree) (v : V) :
    Node.run I ⟨e, .set dst source ordered notes, [value]⟩ v =
      value.run I v >>= I.assign dst.register := by
  rw [Node.run, Semantics.perform]
  simp only [map_singleton, foldlM_cons, foldlM_nil, bind_pure]

/-- A form that ends by assigning a register, and the form with the value in place of that
assignment. -/
inductive FormTree.GivesUp (r : Register) : FormTree → FormTree → Prop
  | intro (f : FormId) (init : List (Node FormTree)) (e : ElementId) (dst : Variable)
      (value : FormTree) (ordered : Bool) (notes : SetNotes) (h : dst.register = r) :
      GivesUp r (.mk f (init ++ [⟨e, .set dst value.id ordered notes, [value]⟩]))
        (.mk f (init ++ value.nodes))

variable {t t' : FormTree}

theorem FormTree.GivesUp.id_eq (h : t.GivesUp r t') : t'.id = t.id := by
  cases h
  rfl

theorem FormTree.GivesUp.ids_eq {ts ts' : List FormTree} (h : List.Forall₂ (GivesUp r) ts ts') :
    ts'.map id = ts.map id := by
  induction h with
  | nil => rfl
  | cons hfirst hrest ih => rw [map_cons, map_cons, hfirst.id_eq, ih]

theorem FormTree.GivesUp.run_eq (h : t.GivesUp r t') (I : Semantics m V) (v : V) :
    t.run I v = t'.run I v >>= I.assign r := by
  cases h with
  | intro f init e dst value ordered notes h =>
    cases value with
    | mk g nodes =>
      simp only [run_mk, foldlM_append, foldlM_cons, foldlM_nil, bind_pure,
        nodes_mk, Node.run_set, h, bind_assoc]

/-- The assignment can be made after the choice, instead of in every arm. -/
theorem Semantics.choose_eq {tests bodies bodies' : List FormTree} {other other' : FormTree}
    (hbodies : List.Forall₂ (FormTree.GivesUp r) bodies bodies') (hother : other.GivesUp r other')
    (I : Semantics m V) (v : V) :
    I.choose ((Context.conditionalKids tests bodies (some other)).map (FormTree.run I)) v =
      I.choose ((Context.conditionalKids tests bodies' (some other')).map (FormTree.run I)) v >>=
        I.assign r := by
  induction hbodies generalizing tests v with
  | nil =>
    cases tests <;> exact hother.run_eq I v
  | @cons body body' bodies bodies' hbody hrest ih =>
    cases tests with
    | nil => exact hother.run_eq I v
    | cons test tests =>
      change (do
        let w ← test.run I v
        if ← I.holds w then body.run I w
        else I.choose ((Context.conditionalKids tests bodies (some other)).map (FormTree.run I)) w) =
        (do
          let w ← test.run I v
          if ← I.holds w then body'.run I w
          else I.choose ((Context.conditionalKids tests bodies' (some other')).map
            (FormTree.run I)) w) >>= I.assign r
      simp only [bind_assoc]
      refine bind_congr fun w => bind_congr fun holds => ?_
      cases holds with
      | true => exact hbody.run_eq I w
      | false => exact ih w

end Run

namespace Pool

variable {p : Pool} {r : Register} {rs : List Root}

/-- A form that assigns a register at its end gives that assignment up. -/
theorem Owns.spliceTrailing {t : FormTree} (h : p.Owns (.tree t :: rs)) (ht : t.Assigns r) :
    ∃ t', t.GivesUp r t' ∧ (p.spliceTrailing t.id).Owns (.tree t' :: rs) := by
  obtain ⟨n, dst, source, ordered, notes, hlast, helem, hreg⟩ := ht
  have hholds : p.Holds t := h.tree_holds
  have hset : (p.elementsOf t.id).getLast?.map p.element =
      some (.set dst source ordered notes) := by
    rw [hholds.elementsOf_eq, getLast?_map, hlast, Option.map_some, Option.map_some,
      (hholds.node n (mem_of_getLast? hlast)).element_eq, helem]
  obtain ⟨init, ⟨e, element, kids⟩, value, heq, rfl, rfl, rfl⟩ := hholds.exists_trailingSet hset
  rw [heq] at h ⊢
  exact ⟨_, .intro _ _ _ _ _ _ _ hreg, h.spliceTrailing_set.2⟩

variable {ts bodies : List FormTree} {dst : Variable} {branches : List Branch} {other : FormTree}

theorem Owns.spliceTrailings (h : p.Owns (ts.map .tree ++ rs)) (hts : ∀ t ∈ ts, t.Assigns r) :
    ∃ ts', List.Forall₂ (FormTree.GivesUp r) ts ts' ∧
      ((ts.map FormTree.id).foldl Pool.spliceTrailing p).Owns (ts'.map .tree ++ rs) := by
  induction ts generalizing p rs with
  | nil => exact ⟨[], .nil, h⟩
  | cons t ts ih =>
    obtain ⟨t', hgives, hfirst⟩ := Owns.spliceTrailing h (hts t mem_cons_self)
    obtain ⟨ts', hrest, howns⟩ := ih (hfirst.perm perm_middle.symm)
      fun t ht => hts t (mem_cons_of_mem _ ht)
    exact ⟨t' :: ts', .cons hgives hrest, howns.perm perm_middle⟩

/-- Forms that have a common value all end by assigning its register. -/
theorem assigns_of_commonTrailing? (hholds : ∀ t ∈ ts, p.Holds t)
    (h : p.commonTrailing? r (ts.map FormTree.id) = some dst) :
    dst.register = r ∧ ∀ t ∈ ts, t.Assigns r := by
  obtain ⟨vars, hvars, hlast⟩ := Option.bind_eq_some_iff.1 h
  have hall : (∀ v ∈ vars, v.register = r) ∧ ∀ t ∈ ts, t.Assigns r := by
    clear h hlast
    induction ts generalizing vars with
    | nil =>
      cases hvars
      exact ⟨by simp, by simp⟩
    | cons t ts ih =>
      rw [map_cons, mapM_cons] at hvars
      obtain ⟨v, hv, hvars⟩ := Option.bind_eq_some_iff.1 hvars
      obtain ⟨more, hmore, hvars⟩ := Option.bind_eq_some_iff.1 hvars
      cases hvars
      obtain ⟨hset, hreg⟩ := Option.filter_eq_some_iff.1 hv
      obtain ⟨hrest, hassigns⟩ := ih (fun t ht => hholds t (mem_cons_of_mem _ ht)) _ hmore
      have hr : v.register = r := eq_of_beq hreg
      refine ⟨forall_mem_cons.2 ⟨hr, hrest⟩, forall_mem_cons.2 ⟨?_, hassigns⟩⟩
      exact hr ▸ (hholds t mem_cons_self).assigns hset
  exact ⟨hall.1 dst (mem_of_getLast? hlast), hall.2⟩

/-- A conditional with an alternative is the value of a register when its arms and its alternative
all end by assigning it. -/
theorem conditionalValue?_eq_some (hholds : ∀ t ∈ bodies ++ [other], p.Holds t)
    (h : p.conditionalValue? branches (bodies.map FormTree.id) (some other.id) = some dst) :
    ∀ t ∈ bodies ++ [other], t.Assigns dst.register := by
  obtain ⟨r, -, hcommon⟩ := Option.bind_eq_some_iff.1 h
  have hids : bodies.map FormTree.id ++ (some other.id).toList =
      (bodies ++ [other]).map FormTree.id := by
    rw [map_append]
    rfl
  rw [hids] at hcommon
  obtain ⟨rfl, hassigns⟩ := assigns_of_commonTrailing? hholds hcommon
  exact hassigns

theorem conditionalValue?_eq_none (hholds : ∀ t ∈ bodies ++ [other], p.Holds t) (hne : bodies ≠ [])
    (h : p.conditionalValue? branches (bodies.map FormTree.id) (some other.id) = none)
    (r : Register) : ∃ t ∈ bodies ++ [other], ¬t.Assigns r := by
  by_contra hall
  push Not at hall
  obtain ⟨body, rest, rfl⟩ := exists_cons_of_ne_nil hne
  have hset : ∀ f ∈ ((body :: rest) ++ [other]).map FormTree.id,
      ∃ dst, p.trailingSet? f = some dst ∧ dst.register = r := by
    intro f hf
    obtain ⟨t, ht, rfl⟩ := mem_map.1 hf
    exact (hholds t ht).trailingSet?_eq (hall t ht)
  obtain ⟨first, hfirst, hreg⟩ := hset body.id (by simp)
  obtain ⟨dst, hdst, -⟩ := Context.commonTrailing?_eq (by simp) hset
  rw [map_append] at hdst
  rw [conditionalValue?, map_cons, head?_cons] at h
  simp only [Option.bind_some, hfirst, Option.map_some, hreg] at h
  exact Option.some_ne_none dst (hdst.symm.trans h)

end Pool

/-- A step that works beside the stack: it neither looks at the stack nor changes it. -/
def TryFoldM.Aside {α : Type} (step : TryFoldM α) : Prop :=
  ∀ (s : FoldState) (Q : α → FoldState → Prop), step.Ends { s with stack := .empty } Q →
    step.Ends s fun a s' => s'.stack = s.stack ∧ Q a { s' with stack := .empty }

namespace TryFoldM

variable {α β : Type}

theorem aside_onFreshStack (step : TryFoldM α) : (onFreshStack step).Aside := by
  intro s Q h
  rw [ends_onFreshStack] at h ⊢
  exact h.mono fun a s' hQ => ⟨rfl, hQ⟩

namespace Aside

theorem pure (a : α) : (Pure.pure a : TryFoldM α).Aside := by
  intro s Q h
  rw [ends_pure] at h ⊢
  exact ⟨rfl, h⟩

theorem ofExcept (result : Except Error α) : (TryFoldM.ofExcept result).Aside := by
  intro s Q h
  rw [ends_ofExcept] at h ⊢
  exact fun a ha => ⟨rfl, h a ha⟩

theorem bind {step : TryFoldM β} {next : β → TryFoldM α} (hstep : step.Aside)
    (hnext : ∀ b, (next b).Aside) : (step >>= next).Aside := by
  intro s Q h
  rw [ends_bind] at h ⊢
  refine (hstep s _ h).mono fun b s₁ hb => ?_
  obtain ⟨hstack, hb⟩ := hb
  exact (hnext b s₁ Q hb).mono fun a s₂ ha => ⟨ha.1.trans hstack, ha.2⟩

theorem mapM {step : β → TryFoldM α} (h : ∀ b, (step b).Aside) (bs : List β) :
    (bs.mapM step).Aside := by
  induction bs with
  | nil => exact pure _
  | cons b bs ih =>
    rw [mapM_cons]
    exact bind (h b) fun _ => bind ih fun _ => pure _

end Aside

end TryFoldM

namespace Context

variable {cx : Context} {depth : Nat}

theorem buildPiece_aside (piece : Piece) : (buildPiece piece depth).Aside :=
  aside_onFreshStack _

theorem buildArms_aside (finish : BlockId) (alt : Bool) (pieces : List Piece) :
    (cx.buildArms finish alt depth pieces).Aside := by
  induction pieces with
  | nil => exact .pure _
  | cons body rest ih =>
    refine .bind (.bind (.ofExcept _) fun jump => ?_) fun _ => .bind ih fun _ => .pure _
    cases jump with
    | none => exact buildPiece_aside body
    | some entry => exact aside_onFreshStack _

theorem captureTest_aside (piece : Piece) (flipped emitDelay : Bool) (result : Option Register) :
    (cx.captureTest piece flipped emitDelay result depth).Aside :=
  .bind (.ofExcept _) fun _ => aside_onFreshStack _

/-- How the parts of a conditional with an alternative are built: first the arms, then the
alternative, then the tests.  What has been built stays as it is while the next part is built. -/
structure BuildsConditional (cx : Context) (arms : List RegionArm) (alt : Region)
    (depth : Nat) (s : FoldState) (captured : List CapturedTest) (tests bodies : List FormTree)
    (other : FormTree) (built : FoldState) : Prop where
  runs : ∃ finish s₁ s₂,
    (cx.buildArms finish true depth (arms.map fun arm => cx.piece arm.body)).run s =
      (.ok (bodies.map FormTree.id), s₁) ∧
    (buildPiece (cx.piece alt) (depth + 1)).run s₁ = (.ok other.id, s₂) ∧
    s₂.pool.Owns ((other :: bodies).map .tree) ∧
    (arms.mapM fun arm => cx.captureTest (cx.piece arm.test) true true none depth).run s₂ =
      (.ok captured, built)
  captured_eq : captured.map CapturedTest.form = tests.map FormTree.id
  length_eq : tests.length = bodies.length
  nonempty : bodies ≠ []
  owns : built.pool.Owns ((conditionalKids tests bodies (some other)).map .tree)
  stack_eq : built.stack = s.stack

variable {arms : List RegionArm} {alt : Region} {s s' : FoldState} {finish : BlockId}

/-- The arms, the alternative and the tests of a conditional are trees of their own. -/
theorem buildsConditional_of_runs {s₁ s₂ built : FoldState} {forms : List FormId} {f : FormId}
    {captured : List CapturedTest} (hne : arms ≠ [])
    (hforms : (cx.buildArms finish true depth (arms.map fun arm => cx.piece arm.body)).run s =
      (.ok forms, s₁))
    (hbuild : (buildPiece (cx.piece alt) (depth + 1)).run s₁ = (.ok f, s₂))
    (hcaptured : (arms.mapM fun arm =>
      cx.captureTest (cx.piece arm.test) true true none depth).run s₂ = (.ok captured, built)) :
    ∃ tests bodies other, bodies.map FormTree.id = forms ∧ other.id = f ∧
      (∀ t ∈ bodies ++ [other], s₂.pool.Holds t) ∧
      cx.BuildsConditional arms alt depth s captured tests bodies other built := by
  have hstart : { s with stack := .empty }.Holds 0 [] [] := ⟨[], ⟨rfl, Pool.Owns.nil _⟩, rfl, rfl⟩
  have hmeets : ∀ part : RegionArm → Region, List.Forall₂ (Piece.Meets cx)
      (arms.map fun arm => cx.piece (part arm)) (arms.map fun arm => cx.account (part arm)) := by
    intro part
    rw [forall₂_map_left_iff, forall₂_map_right_iff, forall₂_same]
    exact fun arm _ => piece_meets (part arm)
  obtain ⟨hstack₁, bodies, rfl, hmake, h₁⟩ :=
    (buildArms_aside _ _ _ s _ (buildArms_holds (hmeets RegionArm.body) hstart)).of_run hforms
  obtain ⟨hstack₂, other, rfl, -, h₂⟩ := (buildPiece_aside _ s₁ _
    (buildPiece_builds (piece_meets alt) _ _ _ _ h₁)).of_run hbuild
  have hcapture : ∀ (piece : Piece) (account : RegionAccount), piece.Meets cx account →
      ∀ s M hs, s.Holds M [] hs → (cx.captureTest piece true true none depth).Ends s
        fun test s' => ∃ t : FormTree, t.id = test.form ∧ cx.Captures account true true t ∧
          s'.Holds (M + t.marks) [] (.tree t :: hs) :=
    fun _ _ h _ _ _ hholds => captureTest_ends h hholds
  have htests := mapM_holds CapturedTest.form (hmeets RegionArm.test) hcapture h₂
  rw [mapM_map] at htests
  have haside : ∀ arm : RegionArm,
      (cx.captureTest (cx.piece arm.test) true true none depth).Aside :=
    fun arm => captureTest_aside (cx.piece arm.test) true true none
  obtain ⟨hstack₃, tests, hids, hcaptures, h₃⟩ :=
    (TryFoldM.Aside.mapM haside arms s₂ _ htests).of_run hcaptured
  have hlength : tests.length = bodies.length := by
    rw [← hcaptures.length_eq, hmake.length_eq, length_map, length_map]
  have hbodies : bodies ≠ [] := by
    rintro rfl
    have hzero := hmake.length_eq
    rw [length_map, length_nil] at hzero
    exact hne (eq_nil_of_length_eq_zero hzero.symm)
  obtain ⟨E₂, ⟨-, howns₂⟩, -⟩ := h₂
  obtain ⟨E₃, ⟨-, howns₃⟩, -⟩ := h₃
  have hforms₂ : s₂.pool.Owns ((other :: bodies).map .tree) := howns₂.sublist (by simp)
  have hforms₃ : built.pool.Owns ((tests ++ (other :: bodies)).map .tree) :=
    howns₃.sublist (by simp)
  refine ⟨tests, bodies, other, rfl, rfl, fun t ht => ?_,
    ⟨finish, s₁, s₂, hforms, hbuild, hforms₂, hcaptured⟩, hids, hlength, hbodies, ?_,
    hstack₃.trans (hstack₂.trans hstack₁)⟩
  · exact hforms₂.holds (.tree t) (by simpa [or_comm] using ht)
  · exact hforms₃.perm ((conditionalKids_perm (some other) hlength).map Root.tree)

/-- A conditional is built and then pushed: as a value, after its arms and its alternative have
given up their assignments, or as a statement. -/
theorem pushArms_eq_ok {branches : List (Nat × Branch)} (hne : arms ≠ [])
    (hrun : (cx.pushArms (arms.map fun arm => (cx.piece arm.test, cx.piece arm.body))
      (some (cx.piece alt)) branches finish depth).run s = (.ok (), s')) :
    ∃ captured tests bodies other built site,
      cx.BuildsConditional arms alt depth s captured tests bodies other built ∧
      ((∃ dst : Variable, (∀ t ∈ bodies ++ [other], t.Assigns dst.register) ∧
        (cx.pushControlValue site dst (conditionalElement captured (bodies.map FormTree.id)
          (some other.id) (some dst)) { built with
            pool := ((bodies ++ [other]).map FormTree.id).foldl Pool.spliceTrailing built.pool }).2 =
          s') ∨
      ((∀ r, ∃ t ∈ bodies ++ [other], ¬t.Assigns r) ∧
        (cx.pushControl site (conditionalElement captured (bodies.map FormTree.id)
          (some other.id) none) built).2 = s')) := by
  obtain ⟨forms, s₁, hforms, hrun⟩ := run_bind_eq_ok hrun
  obtain ⟨otherForm, s₂, hother, hrun⟩ := run_bind_eq_ok hrun
  obtain ⟨f, s₂', hbuild, hsome⟩ := run_bind_eq_ok hother
  cases hsome
  obtain ⟨_, _, hget, hrun⟩ := run_bind_eq_ok hrun
  cases hget
  obtain ⟨captured, built, hcaptured, hrun⟩ := run_bind_eq_ok hrun
  dsimp only at hforms hcaptured hrun
  rw [map_map] at hforms
  rw [Option.isSome_some, Bool.or_true, mapM_map] at hcaptured
  obtain ⟨tests, bodies, other, rfl, rfl, hholds, hparts⟩ :=
    buildsConditional_of_runs hne hforms hbuild hcaptured
  refine ⟨captured, tests, bodies, other, built, (captured.map CapturedTest.site).headD 0, hparts,
    ?_⟩
  generalize hvalue : s₂.pool.conditionalValue? (branches.map Prod.snd) (bodies.map FormTree.id)
    (some other.id) = value at hrun
  cases value with
  | none =>
    right
    exact ⟨Pool.conditionalValue?_eq_none hholds hparts.nonempty hvalue, congrArg Prod.snd hrun⟩
  | some dst =>
    left
    refine ⟨dst, Pool.conditionalValue?_eq_some hholds hvalue, ?_⟩
    rw [map_append]
    exact congrArg Prod.snd hrun

theorem pushConditional_eq_ok {pieces : List (Piece × Piece)} {other : Option Piece}
    (hrun : (cx.pushConditional pieces other depth).run s = (.ok (), s')) :
    pieces ≠ [] ∧ ∃ branches finish,
      (cx.pushArms pieces other branches finish depth).run s = (.ok (), s') := by
  rw [pushConditional] at hrun
  cases hlast : pieces.getLast? with
  | none =>
    rw [hlast] at hrun
    cases hrun
  | some lastArm =>
    rw [hlast] at hrun
    dsimp only at hrun
    cases hblock : (other.getD lastArm.2).region.lastBlock? with
    | none =>
      rw [hblock] at hrun
      cases hrun
    | some block =>
      rw [hblock] at hrun
      obtain ⟨branches, _, hbranches, hpushed⟩ := run_bind_eq_ok hrun
      cases congrArg Prod.snd hbranches
      refine ⟨?_, branches, block + 1, hpushed⟩
      rintro rfl
      cases hlast

theorem pushControl_records {site : Nat} {element : Element} :
    (cx.pushControl site element).Ends s fun _ s' =>
      s'.stack = s.stack.push (.statement (s.pool.addElement element).1 true) ∧
        s'.pool = (s.pool.addElement element).2 := ⟨rfl, rfl⟩

/-- The element of a conditional with an alternative, over the trees of its parts. -/
def conditionalNode (e : ElementId) (captured : List CapturedTest) (tests bodies : List FormTree)
    (other : FormTree) (value : Option Variable) : Node FormTree :=
  ⟨e, conditionalElement captured (bodies.map FormTree.id) (some other.id) value,
    conditionalKids tests bodies (some other)⟩

namespace BuildsConditional

variable {captured : List CapturedTest} {tests bodies : List FormTree} {other : FormTree}
  {built : FoldState}
  (h : cx.BuildsConditional arms alt depth s captured tests bodies other built)
include h

theorem children_eq (e : ElementId) (bodies : List FormTree) (other : FormTree)
    (value : Option Variable) :
    (conditionalNode e captured tests bodies other value).element.children =
      (conditionalKids tests bodies (some other)).map FormTree.id :=
  @conditionalElement_children tests bodies (some other) captured value h.captured_eq

/-- The arms and the alternative of a conditional give up their assignments. -/
theorem spliceTrailings {r : Register} (hassigns : ∀ t ∈ bodies ++ [other], t.Assigns r) :
    ∃ bodies' other', List.Forall₂ (FormTree.GivesUp r) bodies bodies' ∧ other.GivesUp r other' ∧
      (((bodies ++ [other]).map FormTree.id).foldl Pool.spliceTrailing built.pool).Owns
        ((conditionalKids tests bodies' (some other')).map .tree ++ []) := by
  have hperm : ∀ (bodies : List FormTree) (other : FormTree), tests.length = bodies.length →
      (bodies ++ other :: tests).Perm (conditionalKids tests bodies (some other)) := by
    intro bodies other hlength
    have hswap : (bodies ++ other :: tests).Perm (tests ++ other :: bodies) :=
      perm_middle.trans ((perm_append_comm.cons other).trans perm_middle.symm)
    exact hswap.trans (conditionalKids_perm (some other) hlength)
  have hparts := h.owns.perm ((hperm bodies other h.length_eq).symm.map Root.tree)
  rw [map_append] at hparts
  obtain ⟨bodies', hbodies, howns⟩ := hparts.spliceTrailings fun t ht =>
    hassigns t (mem_append_left _ ht)
  obtain ⟨other', hother, howns⟩ := Pool.Owns.spliceTrailing (howns.perm perm_middle)
    (hassigns other (by simp))
  refine ⟨bodies', other', hbodies, hother, ?_⟩
  have hkids := (hperm bodies' other' (h.length_eq.trans hbodies.length_eq)).map Root.tree
  rw [map_append] at hkids
  rw [append_nil, map_append, foldl_append]
  exact (howns.perm perm_middle.symm).perm hkids

end BuildsConditional

/-- Taking an assignment out of the arms of a conditional keeps what is done.  When all arms and the
alternative end by assigning one register, the conditional is pushed as the value of that register,
with the value of every assignment in its place.  Setting the register to it does what the
conditional with the assignments does, with the same effects in the same order, whatever the tests
and the other elements do.  When they do not agree on a register, the conditional is a statement
over the arms as they were built, and no form has changed. -/
theorem pushConditional_hoists_assignment
    (hrun : (cx.pushConditional (arms.map fun arm => (cx.piece arm.test, cx.piece arm.body))
      (some (cx.piece alt)) depth).run s = (.ok (), s')) :
    ∃ captured tests bodies other built,
      cx.BuildsConditional arms alt depth s captured tests bodies other built ∧
      ((∃ dst ordered f e bodies' other',
        let value : FormTree :=
          .mk f [conditionalNode e captured tests bodies' other' (some dst)]
        (∀ t ∈ bodies ++ [other], t.Assigns dst.register) ∧
        List.Forall₂ (FormTree.GivesUp dst.register) bodies bodies' ∧
        other.GivesUp dst.register other' ∧
        s'.stack = s.stack.push (.assign dst f ordered {} none) ∧ s'.pool.Holds value ∧
        ∀ {m : Type → Type} [Monad m] [LawfulMonad m] {V : Type} (I : Semantics m V)
          (e₁ e₂ : ElementId) (v : V),
          Node.run I ⟨e₁, .set dst f ordered {}, [value]⟩ v =
            (conditionalNode e₂ captured tests bodies other none).run I v) ∨
      ((∀ r, ∃ t ∈ bodies ++ [other], ¬t.Assigns r) ∧
        ∃ e, s'.stack = s.stack.push (.statement e true) ∧ built.pool.Extends s'.pool ∧
          s'.pool.HoldsNode (conditionalNode e captured tests bodies other none))) := by
  obtain ⟨hne, branches, finish, hpushed⟩ := pushConditional_eq_ok hrun
  obtain ⟨captured, tests, bodies, other, built, site, hparts, hcases⟩ :=
    pushArms_eq_ok (fun h => hne (by rw [h, List.map_nil])) hpushed
  refine ⟨captured, tests, bodies, other, built, hparts, ?_⟩
  rcases hcases with ⟨dst, hassigns, hpush⟩ | ⟨hdiffer, hpush⟩
  · left
    obtain ⟨bodies', other', hbodies, hother, howns⟩ := hparts.spliceTrailings hassigns
    obtain ⟨f, ordered, hstack, hpool⟩ : (cx.pushControlValue _ dst _).Ends _ _ :=
      pushControlValue_records
    rw [← FormTree.GivesUp.ids_eq hbodies, ← hother.id_eq] at hpush
    rw [hpush] at hstack hpool
    have htree := howns.addSingle hpool (hparts.children_eq default bodies' other' (some dst))
    refine ⟨dst, ordered, f, _, bodies', other', hassigns, hbodies, hother, ?_, htree.tree_holds, ?_⟩
    · rw [hstack, ← hparts.stack_eq]
    · intro m _ _ V I e₁ e₂ v
      rw [Node.run_set, FormTree.run_single]
      exact (I.choose_eq hbodies hother v).symm
  · right
    obtain ⟨hstack, hpool⟩ : (cx.pushControl site _).Ends built _ := pushControl_records
    rw [hpush] at hstack hpool
    rw [hparts.stack_eq] at hstack
    have hkids := hparts.owns
    rw [← List.append_nil (List.map Root.tree _)] at hkids
    have hnode := hkids.addElement (hparts.children_eq default bodies other none)
    refine ⟨hdiffer, _, hstack, ?_⟩
    rw [hpool]
    exact ⟨Pool.extends_addElement _ _, hnode.holds _ List.mem_cons_self⟩

/-- Two tests and an alternative; the first arm stores before it assigns. -/
def choosingSum : Context := untyped
  { name := "choosing-sum"
    code := #[⟨.branch ⟨⟨.zero, [.var (.read ⟨4⟩ 0)]⟩, false, 2, none⟩, ∅⟩,
      ⟨.store (.var (.read ⟨5⟩ 1)) 8 (.var (.read ⟨6⟩ 1)) 4 .integer, ∅⟩,
      ⟨.set (.write .v0 2) ⟨.identity, [.int 1]⟩, ∅⟩,
      ⟨.branch ⟨⟨.always, []⟩, false, 5, none⟩, ∅⟩,
      ⟨.branch ⟨⟨.zero, [.var (.read ⟨5⟩ 4)]⟩, false, 4, none⟩, ∅⟩,
      ⟨.set (.write .v0 5) ⟨.identity, [.var (.read ⟨6⟩ 5)]⟩, ∅⟩,
      ⟨.branch ⟨⟨.always, []⟩, false, 5, none⟩, ∅⟩,
      ⟨.set (.write .v0 7) ⟨.add, [.var (.read ⟨5⟩ 7), .var (.read ⟨6⟩ 7)]⟩, ∅⟩]
    blocks := #[⟨0, 0, 1, [1, 2]⟩, ⟨1, 1, 4, [5]⟩, ⟨2, 4, 5, [3, 4]⟩, ⟨3, 5, 7, [5]⟩,
      ⟨4, 7, 8, [5]⟩, ⟨5, 8, 8, []⟩]
    labels := []
    epilogue := some 5
    resultRegister := .v0 }

def pushChoosingSum : Except Error Unit × FoldState :=
  (choosingSum.pushConditional ([⟨.block 0, .block 1⟩, ⟨.block 2, .block 3⟩].map
    fun arm : RegionArm => (choosingSum.piece arm.test, choosingSum.piece arm.body))
      (some (choosingSum.piece (.block 4))) 0).run (.start .empty)

theorem pushChoosingSum_eq : pushChoosingSum = (.ok (), pushChoosingSum.2) := by
  have hok : pushChoosingSum.1.toOption = some () := by decide +kernel
  generalize pushChoosingSum = outcome at hok ⊢
  obtain ⟨result, s'⟩ := outcome
  cases result with
  | error e => cases hok
  | ok => rfl

theorem choosingSum_hoists_assignment :
    ∃ captured tests bodies other built dst ordered f value s',
      pushChoosingSum = (.ok (), s') ∧
      choosingSum.BuildsConditional [⟨.block 0, .block 1⟩, ⟨.block 2, .block 3⟩] (.block 4) 0
        (.start .empty) captured tests bodies other built ∧
      s'.stack = Stack.empty.push (.assign dst f ordered {} none) ∧ s'.pool.Holds value ∧
      ∀ {m : Type → Type} [Monad m] [LawfulMonad m] {V : Type} (I : Semantics m V)
        (e₁ e₂ : ElementId) (v : V), Node.run I ⟨e₁, .set dst f ordered {}, [value]⟩ v =
          (conditionalNode e₂ captured tests bodies other none).run I v := by
  have hstack : pushChoosingSum.2.stack =
      Stack.empty.push (.assign (.write .v0 7) ⟨15⟩ true {} none) := by decide +kernel
  obtain ⟨captured, tests, bodies, other, built, hparts, hcases⟩ :=
    pushConditional_hoists_assignment pushChoosingSum_eq
  rcases hcases with ⟨dst, ordered, f, e, bodies', other', -, -, -, hvalue, hholds, hruns⟩ |
    ⟨-, e, hstatement, -⟩
  · exact ⟨captured, tests, bodies, other, built, dst, ordered, f, _, _, pushChoosingSum_eq, hparts,
      hvalue, hholds, hruns⟩
  · cases hstack.symm.trans hstatement

end Context

end Decompiler
