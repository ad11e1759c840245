import Decompiler.Proofs.Liveness.Solution
import Mathlib.Logic.Function.Iterate

/-!
The liveness equations and their least solution.  The solver recomputes the blocks, the last
one first, for as long as a set changes.  It stops for every routine, also if blocks overlap,
reach past the end of the code or name successors that do not exist.  The sets it stops at
satisfy the equations, and every solution has at least the registers in them.
-/

namespace Decompiler

open List RegisterSet

namespace Liveness

variable {n : Nat} {s : Liveness}

theorem eq_of_live {t : Liveness} (hs : s.Sized n) (ht : t.Sized n)
    (h : ∀ side b, s.live side b = t.live side b) : s = t := by
  apply eq_of_facts hs ht
  simp [facts, h]

theorem Sized.lt_of_mem_live (hs : s.Sized n) (side : BlockEnd) {b : BlockId} {q : Register}
    (hq : q ∈ s.live side b) : b < n := by
  by_contra hb
  have hnone : (s.sets side)[b]? = none := by
    apply Array.getElem?_eq_none
    rw [hs side]
    exact Nat.le_of_not_lt hb
  rw [Liveness.live, Array.getD_eq_getD_getElem?, hnone] at hq
  exact not_mem_empty q hq

end Liveness

namespace Routine

/-- A position is one of a block whose range lies within the code. -/
def InBlock (r : Routine) (block : Block) (site : Nat) : Prop :=
  block.start ≤ site ∧ site < block.stop ∧ block.stop ≤ r.code.size

/-- An instruction of a block reads a register that no instruction before it in the block
writes. -/
def ReadsFirst (r : Routine) (block : Block) (q : Register) : Prop :=
  ∃ site instr, r.InBlock block site ∧ r.code[site]? = some instr ∧
    q ∈ instr.op.reads ∧ ∀ earlier < site, r.InBlock block earlier →
      ∀ other, r.code[earlier]? = some other → q ∉ other.op.writes

def WritesIn (r : Routine) (block : Block) (q : Register) : Prop :=
  ∃ site instr, r.InBlock block site ∧ r.code[site]? = some instr ∧
    q ∈ instr.op.writes

/-- Sets of registers at both ends of the blocks satisfy the liveness equations.  What is live
where control leaves a block is what is live where it enters a successor that exists, or the
result alone if the block has no successors. -/
structure Solves (r : Routine) (live : BlockEnd → BlockId → Register → Prop) : Prop where
  leaving : ∀ b block, r.blocks[b]? = some block → ∀ q, live .exit b q ↔
    (block.successors = [] ∧ q = r.resultRegister) ∨
      ∃ next ∈ block.successors, next < r.blocks.size ∧ live .entry next q
  entering : ∀ b block, r.blocks[b]? = some block → ∀ q, live .entry b q ↔
    r.ReadsFirst block q ∨ (live .exit b q ∧ ¬ r.WritesIn block q)

/-- Recomputes the sets of the blocks before a position, the last one first, and notes whether
a set changes. -/
def roundBelow (r : Routine) : Nat → Liveness × Bool → Liveness × Bool
  | 0, state => state
  | position + 1, (s, changed) =>
    let next := r.updateBlock s position
    r.roundBelow position
      (next, changed || decide (next.live .exit position ≠ s.live .exit position ∨
        next.live .entry position ≠ s.live .entry position))

/-- One turn of the solver's loop: as long as a set changed, all blocks are recomputed. -/
def solverTurn (r : Routine) : Liveness × Bool → Liveness × Bool
  | (s, false) => (s, false)
  | (s, true) => r.roundBelow r.blocks.size (s, false)

variable {r : Routine} {s : Liveness} {block : Block} {q : Register} {b : BlockId} {n : Nat}
  {other : BlockEnd → BlockId → Register → Prop}

theorem sweepBelow_live_of_le (hb : n ≤ b) (side : BlockEnd) :
    (r.sweepBelow n s).live side b = s.live side b := by
  induction n generalizing s with
  | zero => rfl
  | succ n ih =>
    rw [sweepBelow, ih (Nat.le_of_succ_le hb)]
    exact live_updateBlock_ne (Nat.ne_of_gt hb) side

/-- A round is a sweep, and it notes a change exactly if the sweep makes one.  A block is
recomputed once in a round, so what it changes stays changed. -/
theorem roundBelow_eq (hs : s.Sized r.blocks.size) (n : Nat) (changed : Bool) :
    r.roundBelow n (s, changed) =
      (r.sweepBelow n s, changed || decide (r.sweepBelow n s ≠ s)) := by
  induction n generalizing s changed with
  | zero => simp [roundBelow, sweepBelow]
  | succ n ih =>
    rw [roundBelow, ih (sized_updateBlock hs)]
    by_cases hsame : r.updateBlock s n = s
    · simp [sweepBelow, hsame]
    · have hlive : (r.updateBlock s n).live .exit n ≠ s.live .exit n ∨
          (r.updateBlock s n).live .entry n ≠ s.live .entry n := by
        by_contra hnot
        push Not at hnot
        apply hsame
        apply Liveness.eq_of_live (sized_updateBlock hs) hs
        intro side b
        by_cases hb : b = n
        · subst hb
          cases side
          · exact hnot.2
          · exact hnot.1
        · exact live_updateBlock_ne hb side
      have hsweep : r.sweepBelow n (r.updateBlock s n) ≠ s := by
        intro heq
        have hkept : ∀ side, (r.sweepBelow n (r.updateBlock s n)).live side n =
            (r.updateBlock s n).live side n := sweepBelow_live_of_le (Nat.le_refl n)
        rw [heq] at hkept
        rcases hlive with hexit | hentry
        · exact hexit (hkept .exit).symm
        · exact hentry (hkept .entry).symm
      simp [sweepBelow, hlive, hsweep]

theorem solverTurn_true (hs : s.Sized r.blocks.size) :
    r.solverTurn (s, true) = (r.sweep s, decide (r.sweep s ≠ s)) := by
  rw [solverTurn, roundBelow_eq hs, Bool.false_or]
  rfl

/-- The loop stops where the bounded one does, if that may go on for as long as facts can be
added. -/
theorem Rising.iterate_solverTurn (h : r.Rising s)
    (hn : 2 * Register.count * r.blocks.size < n + (s.facts r.blocks.size).card) :
    ∃ k ≤ n, r.solverTurn^[k] (s, true) = (r.sweepUntilStable n s, false) := by
  induction n generalizing s with
  | zero =>
    have hle := s.card_facts_le r.blocks.size
    omega
  | succ n ih =>
    by_cases hstable : r.sweep s = s
    · refine ⟨1, by omega, ?_⟩
      simp [solverTurn_true h.sized, sweepUntilStable, hstable]
    · have hlt := h.card_lt_sweep hstable
      obtain ⟨k, hk, hrun⟩ := ih (h.sweepBelow r.blocks.size) (by simp only [sweep] at hlt; omega)
      refine ⟨k + 1, by omega, ?_⟩
      rw [Function.iterate_succ_apply, solverTurn_true h.sized, sweepUntilStable, if_neg hstable,
        decide_eq_true hstable]
      exact hrun

/-! The instructions of a block -/

theorem getElem?_blockCode {k : Nat} {instr : Instruction} :
    (r.blockCode block)[k]? = some instr ↔
      r.InBlock block (block.start + k) ∧ r.code[block.start + k]? = some instr := by
  by_cases hstop : block.stop ≤ r.code.size
  · rw [blockCode, if_pos hstop, getElem?_drop, getElem?_take]
    by_cases hk : block.start + k < block.stop
    · simp [InBlock, hk, hstop]
    · simp [InBlock, hk]
  · simp [blockCode, InBlock, hstop]

theorem mem_exposedReads {code : List Instruction} :
    q ∈ exposedReads code ↔ ∃ (k : Nat) (instr : Instruction), code[k]? = some instr ∧
      q ∈ instr.op.reads ∧
        ∀ i < k, ∀ other : Instruction, code[i]? = some other → q ∉ other.op.writes := by
  induction code with
  | nil => simp [exposedReads]
  | cons first code ih =>
    simp only [exposedReads, mem_union, mem_diff, ih]
    constructor
    · rintro (hread | ⟨⟨k, instr, hcode, hread, hkept⟩, hwrite⟩)
      · exact ⟨0, first, rfl, hread, by simp⟩
      · refine ⟨k + 1, instr, hcode, hread, fun i hi other hother => ?_⟩
        cases i with
        | zero =>
          cases hother
          exact hwrite
        | succ i => exact hkept i (by omega) other hother
    · rintro ⟨_ | k, instr, hcode, hread, hkept⟩
      · cases hcode
        exact .inl hread
      · refine .inr ⟨⟨k, instr, hcode, hread, fun i hi other hother => ?_⟩, ?_⟩
        · exact hkept (i + 1) (by omega) other hother
        · exact hkept 0 (by omega) first rfl

theorem mem_exposedReads_blockCode :
    q ∈ exposedReads (r.blockCode block) ↔ r.ReadsFirst block q := by
  simp only [mem_exposedReads, getElem?_blockCode, ReadsFirst]
  constructor
  · rintro ⟨k, instr, ⟨hsite, hcode⟩, hread, hkept⟩
    refine ⟨block.start + k, instr, hsite, hcode, hread, ?_⟩
    intro earlier hearlier hin other hother
    obtain ⟨i, rfl⟩ := Nat.exists_eq_add_of_le hin.1
    exact hkept i (by omega) other ⟨hin, hother⟩
  · rintro ⟨site, instr, hsite, hcode, hread, hkept⟩
    obtain ⟨k, rfl⟩ := Nat.exists_eq_add_of_le hsite.1
    exact ⟨k, instr, ⟨hsite, hcode⟩, hread,
      fun i hi other hother => hkept (block.start + i) (by omega) hother.1 other hother.2⟩

theorem mem_allWrites_blockCode :
    q ∈ allWrites (r.blockCode block) ↔ r.WritesIn block q := by
  simp only [allWrites, mem_foldl_union, not_mem_empty, false_or,
    mem_iff_getElem?, getElem?_blockCode, WritesIn]
  constructor
  · rintro ⟨instr, ⟨k, hsite, hcode⟩, hwrite⟩
    exact ⟨block.start + k, instr, hsite, hcode, hwrite⟩
  · rintro ⟨site, instr, hsite, hcode, hwrite⟩
    obtain ⟨k, rfl⟩ := Nat.exists_eq_add_of_le hsite.1
    exact ⟨instr, ⟨k, hsite, hcode⟩, hwrite⟩

theorem mem_enteringSet {leaving : RegisterSet} :
    q ∈ r.enteringSet block leaving ↔
      r.ReadsFirst block q ∨ (q ∈ leaving ∧ ¬ r.WritesIn block q) := by
  rw [enteringSet, mem_union, mem_diff, mem_exposedReads_blockCode, mem_allWrites_blockCode]

/-! The least solution -/

/-- The sets that the solver returns satisfy the equations. -/
theorem solves_liveness (r : Routine) : r.Solves fun side b q => q ∈ r.liveness.live side b where
  leaving b block hblock q := by
    rw [liveness_live hblock .exit, recomputed, mem_leavingSet]
    apply or_congr_right
    constructor
    · rintro ⟨next, hnext, hq⟩
      exact ⟨next, hnext, rising_liveness.sized.lt_of_mem_live .entry hq, hq⟩
    · rintro ⟨next, hnext, -, hq⟩
      exact ⟨next, hnext, hq⟩
  entering b block hblock q := by
    rw [liveness_live hblock .entry, recomputed, mem_enteringSet]
    rw [liveness_live hblock .exit, recomputed]

/-- Recomputing a block does not lead out of a solution. -/
theorem Solves.updateBlock (h : r.Solves other) (hs : s.Sized r.blocks.size)
    (hbelow : ∀ side b q, q ∈ s.live side b → other side b q) (position : BlockId) {side : BlockEnd}
    (hq : q ∈ (r.updateBlock s position).live side b) : other side b q := by
  cases hblock : r.blocks[position]? with
  | none =>
    rw [updateBlock_none hblock] at hq
    exact hbelow side b q hq
  | some block =>
    by_cases hb : b = position
    · subst hb
      rw [live_updateBlock_self hs hblock] at hq
      have hleaving : ∀ q, q ∈ r.leavingSet s.entering block → other .exit b q := by
        intro q hq
        rw [mem_leavingSet] at hq
        apply (h.leaving b block hblock q).2
        rcases hq with hresult | ⟨next, hnext, hq⟩
        · exact .inl hresult
        · have hlt := hs.lt_of_mem_live .entry hq
          exact .inr ⟨next, hnext, hlt, hbelow .entry next q hq⟩
      cases side with
      | entry =>
        apply (h.entering b block hblock q).2
        rcases mem_enteringSet.1 hq with hread | ⟨hlive, hkept⟩
        · exact .inl hread
        · exact .inr ⟨hleaving q hlive, hkept⟩
      | exit => exact hleaving q hq
    · rw [live_updateBlock_ne hb] at hq
      exact hbelow side b q hq

theorem Solves.liveness_below (h : r.Solves other) :
    ∀ side b q, q ∈ r.liveness.live side b → other side b q := by
  have hinvariant : r.liveness.Sized r.blocks.size ∧
      ∀ side b q, q ∈ r.liveness.live side b → other side b q := by
    apply liveness_induct (P := fun s => s.Sized r.blocks.size ∧
      ∀ side b q, q ∈ s.live side b → other side b q)
    · refine ⟨sized_noLiveness, fun side b q hq => ?_⟩
      rw [noLiveness_live] at hq
      exact absurd hq (not_mem_empty q)
    · rintro s position ⟨hs, hbelow⟩
      exact ⟨sized_updateBlock hs, fun side b q => h.updateBlock hs hbelow position⟩
  exact hinvariant.2

/-- For every routine the loop of the solver stops, and the sets that it stops at are the least
solution of the liveness equations, one set for each end of each block. -/
theorem liveness_isLeast_solution (r : Routine) :
    (∃ n ≤ 2 * Register.count * r.blocks.size + 1,
        r.solverTurn^[n] (r.noLiveness, true) = (r.liveness, false)) ∧
      r.liveness.Sized r.blocks.size ∧
      r.Solves (fun side b q => q ∈ r.liveness.live side b) ∧
      ∀ other, r.Solves other → ∀ side b q, q ∈ r.liveness.live side b → other side b q := by
  refine ⟨?_, rising_liveness.sized, r.solves_liveness, fun other h => h.liveness_below⟩
  apply rising_noLiveness.iterate_solverTurn
  omega

/-- A block that goes back to itself, and one that reaches past the end of the code and goes on
to a block that does not exist. -/
def spin : Routine := { Routine.empty "spin" with blocks := #[⟨0, 0, 0, [0]⟩, ⟨1, 0, 3, [7]⟩] }

/-- The equations have a solution in which the result is live in the loop for ever.  The solver
finds the one in which nothing is live. -/
theorem spin_isLeast_solution :
    spin.validate ≠ .ok () ∧ spin.Solves (fun _ b q => b = 0 ∧ q = .v0) ∧
      spin.Solves (fun _ _ _ => False) ∧ ∀ side b q, q ∉ spin.liveness.live side b := by
  have hcases : ∀ b block, spin.blocks[b]? = some block →
      b = 0 ∧ block = ⟨0, 0, 0, [0]⟩ ∨ b = 1 ∧ block = ⟨1, 0, 3, [7]⟩ := by
    rintro (_ | _ | b) block hblock
    · exact .inl ⟨rfl, (Option.some.inj hblock).symm⟩
    · exact .inr ⟨rfl, (Option.some.inj hblock).symm⟩
    · cases hblock
  have hcode : ∀ block site, ¬ spin.InBlock block site := by
    rintro block site ⟨-, hlt, hle⟩
    exact Nat.not_lt_zero site (Nat.lt_of_lt_of_le hlt hle)
  have hempty : spin.Solves (fun _ _ _ => False) := by
    constructor
    · intro b block hblock q
      rcases hcases b block hblock with ⟨rfl, rfl⟩ | ⟨rfl, rfl⟩ <;> simp
    · intro b block hblock q
      simp [ReadsFirst, hcode]
  refine ⟨by decide, ?_, hempty, fun side b q => (liveness_isLeast_solution spin).2.2.2 _ hempty side b q⟩
  constructor
  · intro b block hblock q
    rcases hcases b block hblock with ⟨rfl, rfl⟩ | ⟨rfl, rfl⟩ <;> simp [spin]
  · intro b block hblock q
    simp [ReadsFirst, WritesIn, hcode]

end Routine

end Decompiler
