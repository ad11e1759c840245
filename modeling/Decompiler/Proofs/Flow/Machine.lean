import Mathlib.Logic.Function.Iterate

/-!
Machines that execute conditional branches.  A machine goes on silently or executes a
branch, and an oracle says whether the branch is taken.  Two machines agree when they
execute the same branches for every bound on their number.
-/

namespace Decompiler

inductive Action (σ : Type)
  | finish
  | go (next : σ)
  /-- Executes the conditional branch at a position. -/
  | branch (site : Nat) (next : Bool → σ)
  /-- No rule says how to go on. -/
  | stuck

abbrev Machine (σ : Type) := σ → Action σ

namespace Machine

variable {σ τ : Type} {m : Machine σ} {m' : Machine τ} {oracle : Nat → Bool}

/-- One step of a state together with the branches executed so far.  The oracle answers the
branches one after another. -/
def advance (m : Machine σ) (oracle : Nat → Bool) (x : σ × List Nat) : σ × List Nat :=
  match m x.1 with
  | .finish | .stuck => x
  | .go next => (next, x.2)
  | .branch site next => (next (oracle x.2.length), x.2 ++ [site])

def Leads (m : Machine σ) (oracle : Nat → Bool) (x y : σ × List Nat) : Prop :=
  ∃ n, (m.advance oracle)^[n] x = y

/-- A run executes some branches first. -/
def Executes (m : Machine σ) (oracle : Nat → Bool) (start : σ) (trace : List Nat) : Prop :=
  ∃ s, m.Leads oracle (start, []) (s, trace)

/-- A run finishes and has then executed some branches. -/
def Finishes (m : Machine σ) (oracle : Nat → Bool) (start : σ) (trace : List Nat) : Prop :=
  ∃ s, m.Leads oracle (start, []) (s, trace) ∧ m s = .finish

def Sticks (m : Machine σ) (oracle : Nat → Bool) (start : σ) : Prop :=
  ∃ s trace, m.Leads oracle (start, []) (s, trace) ∧ m s = .stuck

namespace Leads

variable {x y z : σ × List Nat} {s s' : σ} {trace trace' : List Nat}

theorem refl (x : σ × List Nat) : m.Leads oracle x x := ⟨0, rfl⟩

theorem trans (hxy : m.Leads oracle x y) (hyz : m.Leads oracle y z) : m.Leads oracle x z := by
  obtain ⟨n, rfl⟩ := hxy
  obtain ⟨k, rfl⟩ := hyz
  exact ⟨k + n, Function.iterate_add_apply _ k n x⟩

theorem advance (x : σ × List Nat) : m.Leads oracle x (m.advance oracle x) := ⟨1, rfl⟩

theorem go (h : m s = .go s') : m.Leads oracle (s, trace) (s', trace) := by
  have hstep : m.advance oracle (s, trace) = (s', trace) := by
    rw [Machine.advance, h]
  rw [← hstep]
  exact advance _

theorem branch {site : Nat} {next : Bool → σ} (h : m s = .branch site next) :
    m.Leads oracle (s, trace) (next (oracle trace.length), trace ++ [site]) := by
  have hstep : m.advance oracle (s, trace) = (next (oracle trace.length), trace ++ [site]) := by
    rw [Machine.advance, h]
  rw [← hstep]
  exact advance _

/-- A step executes at most one branch. -/
theorem advance_trace (x : σ × List Nat) :
    x.2 <+: (m.advance oracle x).2 ∧ (m.advance oracle x).2.length ≤ x.2.length + 1 := by
  unfold Machine.advance
  split
  · exact ⟨List.prefix_rfl, Nat.le_succ _⟩
  · exact ⟨List.prefix_rfl, Nat.le_succ _⟩
  · exact ⟨List.prefix_rfl, Nat.le_succ _⟩
  · refine ⟨List.prefix_append _ _, ?_⟩
    exact Nat.le_of_eq (by rw [List.length_append, List.length_singleton])

/-- What was executed stays executed. -/
theorem isPrefix (h : m.Leads oracle x y) : x.2 <+: y.2 := by
  obtain ⟨n, rfl⟩ := h
  induction n generalizing x with
  | zero => exact List.prefix_rfl
  | succ n ih =>
    rw [Function.iterate_succ_apply]
    exact (advance_trace x).1.trans ih

/-- A run goes through every shorter trace. -/
theorem through (h : m.Leads oracle x y) (hlow : x.2 <+: trace) (hhigh : trace <+: y.2) :
    ∃ s, m.Leads oracle x (s, trace) := by
  obtain ⟨n, rfl⟩ := h
  induction n generalizing x with
  | zero =>
    have heq : x.2 = trace := hlow.eq_of_length_le hhigh.length_le
    exact ⟨x.1, by rw [← heq]; exact refl x⟩
  | succ n ih =>
    by_cases heq : x.2 = trace
    · exact ⟨x.1, by rw [← heq]; exact refl x⟩
    · rw [Function.iterate_succ_apply] at hhigh
      have hnext : (m.advance oracle x).2 <+: trace := by
        have hrun : m.Leads oracle (m.advance oracle x)
            ((m.advance oracle)^[n] (m.advance oracle x)) := ⟨n, rfl⟩
        refine List.prefix_of_prefix_length_le hrun.isPrefix hhigh ?_
        have hlt : x.2.length < trace.length := by
          refine Nat.lt_of_le_of_ne hlow.length_le fun hlength => heq ?_
          exact hlow.eq_of_length hlength
        exact Nat.le_trans (advance_trace x).2 hlt
      obtain ⟨s, hs⟩ := ih hnext hhigh
      exact ⟨s, (advance x).trans hs⟩

/-- Of two states of a run, one comes after the other. -/
theorem total (hy : m.Leads oracle x y) (hz : m.Leads oracle x z) :
    m.Leads oracle y z ∨ m.Leads oracle z y := by
  obtain ⟨n, rfl⟩ := hy
  obtain ⟨k, rfl⟩ := hz
  rcases Nat.le_total n k with hle | hle
  · left
    exact ⟨k - n, by rw [← Function.iterate_add_apply, Nat.sub_add_cancel hle]⟩
  · right
    exact ⟨n - k, by rw [← Function.iterate_add_apply, Nat.sub_add_cancel hle]⟩

/-- Nothing comes after a state where a machine stops. -/
theorem eq_of_fixed (h : m.Leads oracle x y) (hfixed : m.advance oracle x = x) : y = x := by
  obtain ⟨n, rfl⟩ := h
  exact Function.iterate_fixed hfixed n

end Leads

variable {s : σ} {trace : List Nat}

theorem advance_of_finish (h : m s = .finish) : m.advance oracle (s, trace) = (s, trace) := by
  rw [advance, h]

theorem advance_of_stuck (h : m s = .stuck) : m.advance oracle (s, trace) = (s, trace) := by
  rw [advance, h]

/-- Two machines go from one pair of states to another and execute the same branches on the
way, or they execute the same branches beyond a bound. -/
def Meets (m : Machine σ) (m' : Machine τ) (oracle : Nat → Bool) (bound : Nat)
    (trace : List Nat) (s : σ) (s' : τ) (e : σ) (e' : τ) : Prop :=
  (∃ t, m.Leads oracle (s, trace) (e, t) ∧ m'.Leads oracle (s', trace) (e', t)) ∨
    ∃ t u u', bound < t.length ∧ m.Leads oracle (s, trace) (u, t) ∧
      m'.Leads oracle (s', trace) (u', t)

namespace Meets

variable {bound : Nat} {trace : List Nat} {s c e : σ} {s' c' e' : τ}

theorem refl : Meets m m' oracle bound trace s s' s s' := .inl ⟨trace, .refl _, .refl _⟩

theorem of_lt (h : bound < trace.length) : Meets m m' oracle bound trace s s' e e' :=
  .inr ⟨trace, s, s', h, .refl _, .refl _⟩

theorem swap (h : Meets m m' oracle bound trace s s' e e') :
    Meets m' m oracle bound trace s' s e' e := by
  rcases h with ⟨t, hm, hm'⟩ | ⟨t, u, u', hlt, hm, hm'⟩
  · exact .inl ⟨t, hm', hm⟩
  · exact .inr ⟨t, u', u, hlt, hm', hm⟩

theorem trans (h : Meets m m' oracle bound trace s s' c c')
    (hrest : ∀ t, trace <+: t → Meets m m' oracle bound t c c' e e') :
    Meets m m' oracle bound trace s s' e e' := by
  rcases h with ⟨t, hm, hm'⟩ | hbeyond
  · rcases hrest t hm.isPrefix with ⟨w, hw, hw'⟩ | ⟨w, u, u', hlt, hw, hw'⟩
    · exact .inl ⟨w, hm.trans hw, hm'.trans hw'⟩
    · exact .inr ⟨w, u, u', hlt, hm.trans hw, hm'.trans hw'⟩
  · exact .inr hbeyond

theorem of_leads_left (h : m.Leads oracle (s, trace) (c, trace)) :
    Meets m m' oracle bound trace s s' c s' := .inl ⟨trace, h, .refl _⟩

/-- Both machines execute the same branch and get the same answer. -/
theorem branch {site : Nat} {next : Bool → σ} {next' : Bool → τ} (h : m s = .branch site next)
    (h' : m' s' = .branch site next') (hrest : ∀ taken,
      Meets m m' oracle bound (trace ++ [site]) (next taken) (next' taken) e e') :
    Meets m m' oracle bound trace s s' e e' := by
  rcases hrest (oracle trace.length) with ⟨w, hw, hw'⟩ | ⟨w, u, u', hlt, hw, hw'⟩
  · exact .inl ⟨w, (Leads.branch h).trans hw, (Leads.branch h').trans hw'⟩
  · exact .inr ⟨w, u, u', hlt, (Leads.branch h).trans hw, (Leads.branch h').trans hw'⟩

end Meets

section Agreement

variable {s f : σ} {s' f' : τ} {trace : List Nat}

section

variable (h : ∀ bound, Meets m m' oracle bound [] s s' f f') (hfinish : m f = .finish)
include h hfinish

theorem Executes.of_meets (hm : m.Executes oracle s trace) : m'.Executes oracle s' trace := by
  obtain ⟨u, hu⟩ := hm
  -- The other machine goes at least as far as this run.
  have hfar : ∃ t w', trace <+: t ∧ m'.Leads oracle (s', []) (w', t) := by
    rcases h trace.length with ⟨t, hw, hw'⟩ | ⟨t, w, w', hlt, hw, hw'⟩
    · refine ⟨t, f', ?_, hw'⟩
      rcases hu.total hw with hbefore | hafter
      · exact hbefore.isPrefix
      · cases hafter.eq_of_fixed (advance_of_finish hfinish)
        exact List.prefix_rfl
    · refine ⟨t, w', ?_, hw'⟩
      rcases hu.total hw with hbefore | hafter
      · exact hbefore.isPrefix
      · have hle : t.length ≤ trace.length := hafter.isPrefix.length_le
        omega
  obtain ⟨t, w', hprefix, hw'⟩ := hfar
  exact hw'.through List.nil_prefix hprefix

/-- A run that stops somewhere has come to the common end. -/
theorem Leads.meets_of_fixed {u : σ} (hu : m.Leads oracle (s, []) (u, trace))
    (hfixed : m.advance oracle (u, trace) = (u, trace)) :
    u = f ∧ m'.Leads oracle (s', []) (f', trace) := by
  rcases h trace.length with ⟨t, hw, hw'⟩ | ⟨t, w, w', hlt, hw, hw'⟩
  · have heq : (u, trace) = (f, t) := by
      rcases hu.total hw with hbefore | hafter
      · exact (hbefore.eq_of_fixed hfixed).symm
      · exact hafter.eq_of_fixed (advance_of_finish hfinish)
    cases heq
    exact ⟨rfl, hw'⟩
  · have hle : t.length ≤ trace.length := by
      rcases hu.total hw with hbefore | hafter
      · cases hbefore.eq_of_fixed hfixed
        exact Nat.le_refl _
      · exact hafter.isPrefix.length_le
    omega

theorem Finishes.of_meets (hfinish' : m' f' = .finish) (hm : m.Finishes oracle s trace) :
    m'.Finishes oracle s' trace := by
  obtain ⟨u, hu, hend⟩ := hm
  exact ⟨f', (hu.meets_of_fixed h hfinish (advance_of_finish hend)).2, hfinish'⟩

theorem not_sticks_of_meets : ¬ m.Sticks oracle s := by
  rintro ⟨u, trace, hu, hstuck⟩
  obtain ⟨rfl, -⟩ := hu.meets_of_fixed h hfinish (advance_of_stuck hstuck)
  rw [hfinish] at hstuck
  cases hstuck

end

/-- Two machines execute the same branches, and one finishes if and only if the other does. -/
structure Agree (m : Machine σ) (m' : Machine τ) (oracle : Nat → Bool) (s : σ) (s' : τ) :
    Prop where
  executes : ∀ trace, m.Executes oracle s trace ↔ m'.Executes oracle s' trace
  finishes : ∀ trace, m.Finishes oracle s trace ↔ m'.Finishes oracle s' trace
  not_sticks : ¬ m.Sticks oracle s ∧ ¬ m'.Sticks oracle s'

theorem Agree.of_meets (h : ∀ bound, Meets m m' oracle bound [] s s' f f')
    (hfinish : m f = .finish) (hfinish' : m' f' = .finish) : Agree m m' oracle s s' where
  executes _ := ⟨.of_meets h hfinish, .of_meets (fun bound => (h bound).swap) hfinish'⟩
  finishes _ := ⟨.of_meets h hfinish hfinish',
    .of_meets (fun bound => (h bound).swap) hfinish' hfinish⟩
  not_sticks := ⟨not_sticks_of_meets h hfinish,
    not_sticks_of_meets (fun bound => (h bound).swap) hfinish'⟩

end Agreement

end Machine

end Decompiler
