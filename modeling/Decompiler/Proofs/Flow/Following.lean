import Decompiler.Proofs.Flow.Walk
import Decompiler.Proofs.Structure.Checks

/-!
Blocks and tasks side by side.  Tasks follow the blocks from one block to another if both
execute the same branches on the way, for every bound on their number.  Forms follow blocks
if their control structures do, and tests lead both sides to the two targets of a branch.
-/

namespace Decompiler

open List

variable {b c bound site : Nat} {trace : List Nat} {A : Multiset Mark} {id : BlockId} {t : FormTree}
  {branch : Branch}

/-- Some blocks are those from one block up to another. -/
def Spans (ids : List Nat) (b c : Nat) : Prop := b ≤ c ∧ ids = List.range' b (c - b)

namespace Spans

variable {ids ids' : List Nat}

theorem eq_of_nil (h : Spans [] b c) : b = c := by
  obtain ⟨hle, hids⟩ := h
  have hlength := congrArg List.length hids
  rw [length_nil, length_range'] at hlength
  omega

/-- Two groups of blocks meet at a block. -/
theorem append (h : Spans (ids ++ ids') b c) : ∃ m, Spans ids b m ∧ Spans ids' m c := by
  obtain ⟨hle, hids⟩ := h
  have hlength := congrArg List.length hids
  rw [length_append, length_range'] at hlength
  have hsplit : List.range' b (c - b) =
      List.range' b ids.length ++ List.range' (b + ids.length) ids'.length := by
    rw [← hlength, range'_append_1]
  rw [hsplit] at hids
  obtain ⟨hfirst, hsecond⟩ := append_inj hids (length_range').symm
  refine ⟨b + ids.length, ⟨by omega, ?_⟩, ⟨by omega, ?_⟩⟩
  · rw [Nat.add_sub_cancel_left]
    exact hfirst
  · have hrest : c - (b + ids.length) = ids'.length := by omega
    rw [hrest]
    exact hsecond

variable {x : Nat}

theorem head (h : Spans ids b c) (hx : ids.head? = some x) : x = b ∧ b < c := by
  obtain ⟨hle, rfl⟩ := h
  cases hsize : c - b with
  | zero =>
    rw [hsize] at hx
    cases hx
  | succ n =>
    rw [hsize, range'_succ, head?_cons] at hx
    cases hx
    exact ⟨rfl, by omega⟩

theorem last (h : Spans ids b c) (hx : ids.getLast? = some x) : c = x + 1 ∧ b ≤ x := by
  obtain ⟨hle, rfl⟩ := h
  cases hsize : c - b with
  | zero =>
    rw [hsize] at hx
    cases hx
  | succ n =>
    rw [hsize, range'_concat, getLast?_concat] at hx
    cases hx
    omega

end Spans

/-- A routine and a tree that run side by side, the routine up to a block. -/
structure Pairing where
  context : Context
  pool : Pool
  stop : BlockId
  oracle : Nat → Bool

namespace Pairing

variable {S : Pairing} {b m c : BlockId} {tasks tasks' : List Task}

def flow (S : Pairing) : Machine BlockId := S.context.routine.flow S.stop

/-- With some branches executed, tasks execute the branches between two blocks, or both sides
go beyond a bound. -/
def FollowsFrom (S : Pairing) (bound : Nat) (trace : List Nat) (b : BlockId) (tasks : List Task)
    (c : BlockId) : Prop :=
  ∀ rest, Machine.Meets S.flow S.pool.walk S.oracle bound trace b (tasks ++ rest) c rest

def Follows (S : Pairing) (b : BlockId) (tasks : List Task) (c : BlockId) : Prop :=
  ∀ bound trace, S.FollowsFrom bound trace b tasks c

theorem FollowsFrom.append (h : S.FollowsFrom bound trace b tasks m)
    (h' : ∀ t, trace <+: t → S.FollowsFrom bound t m tasks' c) :
    S.FollowsFrom bound trace b (tasks ++ tasks') c := by
  intro rest
  rw [append_assoc]
  exact (h (tasks' ++ rest)).trans fun t ht => h' t ht rest

theorem Follows.append (h : S.Follows b tasks m) (h' : S.Follows m tasks' c) :
    S.Follows b (tasks ++ tasks') c := fun bound trace =>
  (h bound trace).append fun t _ => h' bound t

theorem follows_nil (b : BlockId) : S.Follows b [] b := fun _ _ _ => .refl

theorem follows_of_go (h : S.flow b = .go c) : S.Follows b [] c := fun _ _ _ =>
  .of_leads_left (.go h)

/-- Silent steps of the tree do not matter. -/
theorem FollowsFrom.of_leads
    (hleads : ∀ rest, S.pool.walk.Leads S.oracle (tasks ++ rest, trace) (tasks' ++ rest, trace))
    (h : S.FollowsFrom bound trace b tasks' c) : S.FollowsFrom bound trace b tasks c := by
  intro rest
  rcases h rest with ⟨t, hm, hm'⟩ | ⟨t, u, u', hlt, hm, hm'⟩
  · exact .inl ⟨t, hm, (hleads rest).trans hm'⟩
  · exact .inr ⟨t, u, u', hlt, hm, (hleads rest).trans hm'⟩

theorem Follows.of_leads (hleads : ∀ rest trace,
      S.pool.walk.Leads S.oracle (tasks ++ rest, trace) (tasks' ++ rest, trace))
    (h : S.Follows b tasks' c) : S.Follows b tasks c := fun bound trace =>
  (h bound trace).of_leads fun rest => hleads rest trace

/-- Elements one after another follow the blocks. -/
inductive FollowsNodes (S : Pairing) : BlockId → List (Node FormTree) → BlockId → Prop
  | nil {b c : BlockId} (h : S.Follows b [] c) : FollowsNodes S b [] c
  | cons {b m c : BlockId} {n : Node FormTree} {ns : List (Node FormTree)}
      (hfirst : S.Follows b [.element n.id] m) (hrest : FollowsNodes S m ns c) :
      FollowsNodes S b (n :: ns) c

theorem FollowsNodes.append {ns ns' : List (Node FormTree)} (h : S.FollowsNodes b ns m)
    (h' : S.FollowsNodes m ns' c) : S.FollowsNodes b (ns ++ ns') c := by
  induction h with
  | nil h =>
    cases h' with
    | nil h' => exact .nil (h.append h')
    | cons hfirst hrest => exact .cons (h.append hfirst) hrest
  | cons hfirst hrest ih => exact .cons hfirst (ih h')

/-- What a deposit adds follows the blocks between two blocks, and only its control structures
execute branches. -/
def Runs (S : Pairing) (P : Deposit) (b c : BlockId) : Prop :=
  ∀ A D, P A D → Structured (A + (D.map Node.marks).sum) → (∀ n ∈ D, S.pool.HoldsNode n) →
    Quiet A ∧ S.FollowsNodes b D c

theorem Runs.seq {P Q : Deposit} (hP : S.Runs P b m) (hQ : S.Runs Q m c) :
    S.Runs (P.seq Q) b c := by
  rintro A D ⟨A₁, D₁, A₂, D₂, h₁, h₂, rfl, rfl⟩ hmarks hholds
  rw [map_append, sum_append, add_add_add_comm, structured_add] at hmarks
  obtain ⟨hquiet₁, hfollows₁⟩ := hP A₁ D₁ h₁ hmarks.1 fun n hn =>
    hholds n (mem_append_left _ hn)
  obtain ⟨hquiet₂, hfollows₂⟩ := hQ A₂ D₂ h₂ hmarks.2 fun n hn =>
    hholds n (mem_append_right _ hn)
  exact ⟨quiet_add.2 ⟨hquiet₁, hquiet₂⟩, hfollows₁.append hfollows₂⟩

/-- Marks alone leave control where it is. -/
theorem runs_ofMarks {leaves : Multiset Mark → Prop}
    (h : ∀ A, leaves A → Structured A → Quiet A ∧ S.Follows b [] c) :
    S.Runs (.ofMarks leaves) b c := by
  rintro A D ⟨hleaves, rfl⟩ hmarks -
  rw [map_nil, sum_nil, add_zero] at hmarks
  obtain ⟨hquiet, hfollows⟩ := h A hleaves hmarks
  exact ⟨hquiet, .nil hfollows⟩

end Pairing

theorem Shows.subset {ns D : List (Node FormTree)} (h : Shows ns A D) : D ⊆ ns := by
  induction h with
  | nil => exact List.Subset.refl _
  | plain h ih => exact fun n hn => mem_cons_of_mem _ (ih hn)
  | control hcontrol h ih => exact cons_subset_cons _ ih

namespace Pairing

variable {S : Pairing} {m : Nat}

def elementTasks (ns : List (Node FormTree)) : List Task := ns.map fun n => .element n.id

variable {D ns : List (Node FormTree)} {P : Deposit}

/-- Elements follow the blocks if the control structures among them do. -/
theorem FollowsNodes.of_shows (hshows : Shows ns A D) (hquiet : Quiet A)
    (hholds : ∀ n ∈ ns, S.pool.HoldsNode n) (h : S.FollowsNodes b D c) :
    S.Follows b (elementTasks ns) c := by
  induction hshows generalizing b with
  | nil =>
    cases h with
    | nil h => exact h
  | @plain n ns D A hshows ih =>
    obtain ⟨hnode, hrest⟩ := quiet_add.1 hquiet
    refine Follows.of_leads (fun rest trace => ?_)
      (ih hrest (fun n hn => hholds n (mem_cons_of_mem _ hn)) h)
    exact (hholds n mem_cons_self).runsSilently hnode _ trace
  | @control n ns D A hcontrol hshows ih =>
    cases h with
    | cons hfirst hnodes =>
      exact hfirst.append (ih hquiet (fun n hn => hholds n (mem_cons_of_mem _ hn)) hnodes)

theorem Runs.follows_of_shows (h : S.Runs P b c) (hP : P A D) (hshows : Shows ns A D)
    (hmarks : Structured (ns.map Node.marks).sum) (hholds : ∀ n ∈ ns, S.pool.HoldsNode n) :
    S.Follows b (elementTasks ns) c := by
  rw [hshows.marks_eq] at hmarks
  obtain ⟨hquiet, hnodes⟩ := h A D hP hmarks fun n hn => hholds n (hshows.subset hn)
  exact hnodes.of_shows hshows hquiet hholds

theorem leads_form (h : S.pool.Holds t) (rest : List Task) :
    S.pool.walk.Leads S.oracle (.form t.id :: rest, trace) (elementTasks t.nodes ++ rest, trace) := by
  apply Machine.Leads.go
  rw [Pool.walk, h.elementsOf_eq, map_map]
  rfl

/-- The tree has a form, and nothing below it is a branch or a control structure that was
turned into a value. -/
structure Sees (S : Pairing) (t : FormTree) : Prop where
  holds : S.pool.Holds t
  marks : Structured t.marks

/-- A form follows the blocks if the deposit that it is made of does. -/
theorem Runs.follows_of_makes (h : S.Runs P b c) (ht : P.Makes t) (hsees : S.Sees t) :
    S.Follows b [.form t.id] c := by
  obtain ⟨A, D, hP, hshows⟩ := ht
  have hmarks := hsees.marks
  rw [t.marks_eq] at hmarks
  have hnodes := h.follows_of_shows hP hshows hmarks hsees.holds.node
  exact Follows.of_leads (fun rest trace => leads_form hsees.holds rest) hnodes

theorem flow_of_none (hlt : id < S.stop) (h : S.context.routine.terminator id = .ok none) :
    S.flow id = .go (id + 1) := by
  rw [flow, Routine.flow, if_neg (Nat.ne_of_lt hlt), h]

section

variable (hlt : id < S.stop) (h : S.context.routine.terminator id = .ok (some (site, branch)))
include hlt h

theorem flow_of_jump (hjump : branch.isJump = true) : S.flow id = .go branch.target := by
  rw [flow, Routine.flow, if_neg (Nat.ne_of_lt hlt), h]
  dsimp only
  rw [if_pos hjump]

theorem flow_of_branch (hjump : branch.isJump = false) :
    S.flow id = .branch site fun taken => if taken then branch.target else id + 1 := by
  rw [flow, Routine.flow, if_neg (Nat.ne_of_lt hlt), h]
  dsimp only
  rw [if_neg (by rw [hjump]; exact Bool.false_ne_true)]

end

/-- What a region adds runs like its blocks, and what it adds up to the branch that ends it
like its blocks up to the last one. -/
structure Matches (S : Pairing) (account : RegionAccount) : Prop where
  whole : ∀ b c, Spans account.region.blockIds b c → c ≤ S.stop → S.Runs account.whole b c
  body : ∀ b c entry, Spans account.region.blockIds b (c + 1) → c < S.stop →
    S.context.routine.regionTerminator account.region = .ok (some entry) →
      S.Runs account.body b c

end Pairing

theorem Operation.Leaves.quiet {op : Operation} {site : Nat} (h : op.Leaves site A)
    (hmarks : Structured A) : Quiet A := by
  have hstays : A = 0 ∨ A = {.operation site} → Quiet A := by
    rintro (rfl | rfl)
    · exact quiet_zero
    · intro m hm
      rw [Multiset.mem_singleton.1 hm]
      rfl
  have hsingle : ∀ mark : Mark, mark.isEffect = true → A = {mark} → Quiet A := by
    rintro mark hmark rfl m hm
    rw [Multiset.mem_singleton.1 hm]
    exact hmark
  cases op with
  | set => exact hstays (.inl h)
  | store => exact hsingle .store rfl h
  | call => exact hsingle .call rfl h
  | branch =>
    rw [show A = _ from h] at hmarks
    exact absurd (hmarks _ (Multiset.mem_singleton_self _)) Bool.false_ne_true
  | special kind =>
    cases kind with
    | nop => exact hstays (.inl h)
    | trap => exact hstays (.inr h)
    | suspend => exact hstays (.inr h)
  | asm => exact hstays (.inr h)
  | setCondition | load | divide | floatCompare | conditionalMove => exact hstays h

namespace Context

variable {cx : Context}

theorem SitesLeave.quiet {sites : List Nat} (h : cx.SitesLeave sites A) (hmarks : Structured A) :
    Quiet A := by
  induction h with
  | nil => exact quiet_zero
  | cons hinstr hleaves hrest ih =>
    rw [structured_add] at hmarks
    exact quiet_add.2 ⟨hleaves.quiet hmarks.1, ih hmarks.2⟩

theorem DelayLeaves.quiet {branch : Branch} (h : DelayLeaves site branch A)
    (hmarks : Structured A) : Quiet A := by
  unfold DelayLeaves at h
  split at h
  · exact Operation.Leaves.quiet h hmarks
  · rw [h]
    exact quiet_zero

theorem BodyLeaves.quiet {id : BlockId} (h : cx.BodyLeaves id A) (hmarks : Structured A) :
    Quiet A := by
  obtain ⟨block, terminator, -, -, hsites⟩ := h
  exact hsites.quiet hmarks

end Context

namespace Pairing

variable {S : Pairing} {item : RegionAccount} {flipped : Bool}

/-- A region that ends in a jump runs like its blocks, and control is then at the target. -/
theorem Matches.throughDelay (h : S.Matches item) (hspans : Spans item.region.blockIds b c)
    (hc : c ≤ S.stop) {jump : Branch}
    (hterm : S.context.routine.regionTerminator item.region = .ok (some (site, jump)))
    (hjump : jump.isJump = true) : S.Runs (Context.ThroughDelay item site jump) b jump.target := by
  obtain ⟨id, hid, hend⟩ := Routine.regionTerminator_eq_some hterm
  obtain ⟨rfl, -⟩ := hspans.last hid
  have hbody := h.body b id _ hspans hc hterm
  refine hbody.seq (runs_ofMarks fun A hA hmarks => ⟨hA.quiet hmarks, ?_⟩)
  exact follows_of_go (flow_of_jump hc hend hjump)

variable {no yes : List Task} {emit : Bool}

/-- Both sides execute the branch at the end of a test. -/
theorem followsFrom_ask {e : BlockId}
    (hflow : S.flow id = .branch site fun taken => if taken then branch.target else id + 1)
    (htaken : S.FollowsFrom bound (trace ++ [site]) branch.target (if flipped then no else yes) e)
    (hother : S.FollowsFrom bound (trace ++ [site]) (id + 1) (if flipped then yes else no) e) :
    S.FollowsFrom bound trace id [.ask site flipped yes no] e := by
  intro rest
  refine Machine.Meets.branch hflow rfl fun taken => ?_
  have hyes := htaken rest
  have hno := hother rest
  cases taken <;> cases flipped <;> assumption

/-- A test runs what stands before its condition, and then executes the branch. -/
theorem leads_test {f : FormId} {ns : List (Node FormTree)} {e : ElementId} {test : Test}
    {args : List FormId} {consumed : RegisterSet} {ts : List FormTree}
    (h : S.pool.Holds (.mk f (ns ++ [⟨e, .condition test args consumed flipped site, ts⟩])))
    (rest : List Task) :
    S.pool.walk.Leads S.oracle ([.test f yes no] ++ rest, trace)
      (elementTasks ns ++ (ts.map fun t => .form t.id) ++ [.ask site flipped yes no] ++ rest,
        trace) := by
  have hlast := h.node _ (mem_append_right _ mem_cons_self)
  have hform := h.elementsOf_eq
  have hargs : args = ts.map FormTree.id := hlast.kids
  rw [FormTree.id_mk, FormTree.nodes_mk, map_append, map_singleton] at hform
  have htasks : S.pool.testTasks? f yes no =
      some (elementTasks ns ++ (ts.map fun t => .form t.id) ++ [.ask site flipped yes no]) := by
    rw [Pool.testTasks?, hform, getLast?_concat, dropLast_concat, Option.map_some,
      hlast.element_eq, hargs, map_map]
    dsimp only
    rw [map_map]
    rfl
  apply Machine.Leads.go
  rw [singleton_append, Pool.walk, htasks]

/-- What stands before the condition of a test follows the region, and the operands of the
condition run silently. -/
theorem Matches.captures (hplain : S.context.config.allows .floatCompare = false)
    (h : S.Matches item) (hspans : Spans item.region.blockIds b (id + 1)) (hid : id < S.stop)
    (hterm : S.context.routine.regionTerminator item.region = .ok (some (site, branch)))
    (hcapture : S.context.Captures item flipped emit t) (hsees : S.Sees t) :
    branch.isJump = false ∧ ∃ ns e test args consumed ts,
      t = .mk t.id (ns ++ [⟨e, .condition test args consumed flipped site, ts⟩]) ∧
        S.Follows b (elementTasks ns) id ∧
          ∀ u ∈ ts, S.pool.RunsSilently S.oracle (.form u.id) := by
  obtain @⟨f, site', branch', A, A', B, D, ns, condition, hbranch, hbody, hdelay, hcondition,
    hshows, hsum⟩ := hcapture
  obtain ⟨hholds, hmarks⟩ := hsees
  obtain ⟨hsame, hjump⟩ := Routine.expectBranch_eq_ok hbranch
  rw [hterm] at hsame
  cases hsame
  obtain ⟨f', e, test, args, consumed, flip, at', ts, hsame⟩ := hcondition
  obtain ⟨rfl, rfl⟩ := hsame hplain
  have hnodes := hholds.node
  have hns : ∀ n ∈ ns, S.pool.HoldsNode n := fun n hn => hnodes n (mem_append_left _ hn)
  have hlast := hnodes _ (mem_append_right _ mem_cons_self)
  -- All marks of the test are those of the region and of the delay slot.
  have hsplit : (FormTree.mk f (ns ++ [⟨e, .condition test args consumed flip at', ts⟩])).marks =
      A + (D.map Node.marks).sum + B := by
    rw [FormTree.marks_mk, map_append, sum_append, hshows.marks_eq, add_right_comm,
      ← FormTree.marks_mk f', hsum, add_right_comm]
  rw [FormTree.nodes_mk, hsplit, structured_add] at hmarks
  obtain ⟨hquietBody, hfollows⟩ := h.body b id _ hspans hid hterm A D hbody hmarks.1
    fun n hn => hns n (hshows.subset hn)
  have hquietDelay : Quiet B := by
    split at hdelay
    · exact Context.DelayLeaves.quiet hdelay hmarks.2
    · rw [hdelay]
      exact quiet_zero
  have hquiet := quiet_add.2 ⟨hquietBody, hquietDelay⟩
  rw [← hsum, quiet_add, FormTree.marks_mk] at hquiet
  refine ⟨hjump, ns, e, test, args, consumed, ts, rfl, hfollows.of_shows hshows hquiet.1 hns, ?_⟩
  intro u hu
  have hlastQuiet := quiet_add.1 (hquiet.2.of_mem mem_cons_self)
  exact (hlast.below u hu).runsSilently (hlastQuiet.2.of_mem hu)

/-- A test of a tree leads both sides to one block if it holds and to another one if not. -/
def Decides (S : Pairing) (b : BlockId) (f : FormId) (holds fails : BlockId) : Prop :=
  ∀ bound trace yes no e,
    (∀ trace', trace.length < trace'.length → S.FollowsFrom bound trace' holds yes e) →
      (∀ trace', trace.length < trace'.length → S.FollowsFrom bound trace' fails no e) →
        S.FollowsFrom bound trace b [.test f yes no] e

/-- A test that was taken out of a region leads both sides to the two targets of its branch. -/
theorem Matches.decides (hplain : S.context.config.allows .floatCompare = false)
    (h : S.Matches item) (hspans : Spans item.region.blockIds b c) (hc : c ≤ S.stop)
    (hterm : S.context.routine.regionTerminator item.region = .ok (some (site, branch)))
    (hcapture : S.context.Captures item flipped emit t) (hsees : S.Sees t) :
    S.Decides b t.id (if flipped then c else branch.target)
      (if flipped then branch.target else c) := by
  intro bound trace yes no e hyes hno
  obtain ⟨id, hid, hend⟩ := Routine.regionTerminator_eq_some hterm
  obtain ⟨rfl, -⟩ := hspans.last hid
  obtain ⟨hjump, ns, e', test, args, consumed, ts, ht, hfollows, hsilent⟩ :=
    h.captures hplain hspans hc hterm hcapture hsees
  have hholds := hsees.holds
  rw [ht] at hholds
  refine FollowsFrom.of_leads (leads_test hholds) ?_
  rw [append_assoc]
  refine (hfollows bound trace).append fun trace' hprefix => ?_
  have hlonger : trace.length < (trace' ++ [site]).length := by
    have hle := hprefix.length_le
    rw [length_append, length_singleton]
    omega
  have hask : S.FollowsFrom bound trace' id [.ask site flipped yes no] e := by
    apply followsFrom_ask (flow_of_branch hc hend hjump)
    · cases flipped
      · exact hyes _ hlonger
      · exact hno _ hlonger
    · cases flipped
      · exact hno _ hlonger
      · exact hyes _ hlonger
  refine FollowsFrom.of_leads (fun rest => ?_) hask
  rw [append_assoc]
  refine Pool.leads_of_silent fun task htask => ?_
  obtain ⟨u, hu, rfl⟩ := mem_map.1 htask
  exact hsilent u hu

end Pairing

end Decompiler
