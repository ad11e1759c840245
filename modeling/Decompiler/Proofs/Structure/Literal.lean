import Decompiler.Proofs.Structure.Fits
import Decompiler.Proofs.Structure.Shape

/-!
The literal form of a routine.  When no idiom is in use and the blocks are taken one after
another, nothing is left that could fail: every block is there, every branch stands where it
is, and every assignment has the operands it needs.  So there is a tree for every routine that
passes the checks.
-/

namespace Decompiler

open TryFoldM List Routine Region

/-- Whether every assignment of a routine has as many operands as its operator takes. -/
def Routine.hasArities (r : Routine) : Bool :=
  r.code.toList.all fun i => i.operations.all Operation.hasArity

namespace Routine

variable {r : Routine}

theorem hasArity_of_hasArities (h : r.hasArities = true) {site : Nat} {instr : Instruction}
    (hcode : r.code[site]? = some instr) {op : Operation}
    (hop : op ∈ instr.operations) : op.hasArity = true := by
  rw [← Array.getElem?_toList] at hcode
  exact all_eq_true.1 (all_eq_true.1 h _ (mem_of_getElem? hcode)) op hop

/-- Where every assignment has the operands it needs, every block fits. -/
theorem IsValid.blockFits (hvalid : r.IsValid) (harities : r.hasArities = true) {id : BlockId}
    {block : Block} (hblock : r.blocks[id]? = some block) : r.BlockFits id where
  body := by
    obtain ⟨terminator, hterm⟩ := hvalid.exists_terminator hblock
    refine ⟨block, terminator, hblock, hterm, fun site _ hsite => ?_⟩
    have hstop : site < block.stop := by
      cases terminator with
      | none => exact hsite
      | some entry =>
        obtain ⟨block', hblock', -, hlast, -⟩ := terminator_eq_some hterm
        cases hblock.symm.trans hblock'
        rw [Option.map_some, Option.getD_some] at hsite
        omega
    obtain ⟨instr, hcode⟩ := hvalid.exists_instruction hblock hstop
    exact ⟨instr, hcode, hasArity_of_hasArities harities hcode mem_cons_self⟩
  delay hbranch _ op hop := by
    obtain ⟨-, -, -, -, instr, hcode, hbranch⟩ := terminator_eq_some hbranch
    refine hasArity_of_hasArities harities hcode (mem_cons_of_mem _ ?_)
    simp [hbranch, Operation.branch?, Option.mem_def.1 hop]

/-- The blocks of a linear region are blocks of the routine. -/
theorem exists_block_of_mem_linear (h : r.validate = .ok ()) {id : BlockId}
    (hid : id ∈ (r.blocks.toList.map Block.id).filter fun id => some id ≠ r.epilogue) :
    ∃ block, r.blocks[id]? = some block := by
  obtain ⟨block, hblock, rfl⟩ := mem_map.1 (mem_filter.1 hid).1
  obtain ⟨b, hb⟩ := getElem?_of_mem hblock
  rw [Array.getElem?_toList] at hb
  exact ⟨block, by rwa [id_eq_of_validate h hb]⟩

/-- The blocks of a routine, one after another, are a region of depth two. -/
theorem validateRegion_linear (h : r.validate = .ok ()) {limit : Nat} (hlimit : 2 ≤ limit) :
    r.validateRegion limit (Region.linear r) = .ok () := by
  rw [validateRegion, Region.linear, Region.fold, foldItems_eq_map, map_map]
  have hone : ¬limit < 1 := by omega
  have htwo : ¬limit < 2 := by omega
  simp only [limited, checkParts, if_neg hone]
  refine Pool.forM_eq_ok fun check hcheck => ?_
  obtain ⟨id, hid, rfl⟩ := mem_map.1 hcheck
  obtain ⟨block, hblock⟩ := exists_block_of_mem_linear h hid
  simp [Region.fold, limited, htwo, block_eq_ok.2 hblock, Except.map]

theorem limited_eq_ok {limit depth : Nat} {check : Nat → Except Error Unit}
    (h : limited limit check depth = .ok ()) : depth ≤ limit ∧ check depth = .ok () := by
  unfold limited at h
  split at h
  · cases h
  · rename_i hdepth
    exact ⟨Nat.not_lt.1 hdepth, h⟩

/-- What is checked of each kind of region. -/
def regionChecks (r : Routine) (limit : Nat) : RegionRules (Nat → Except Error Unit) :=
  let group := fun (items : List (Nat → Except Error Unit)) =>
    limited limit fun depth =>
      if items.isEmpty then .error r.emptyRegion else checkParts depth items
  { block := fun id => limited limit fun _ => (r.block id).map fun _ => ()
    sequence := fun items => limited limit fun depth => checkParts depth items
    loop := group
    conditional := fun arms alt => limited limit fun depth =>
      if arms.isEmpty then .error (r.malformed "conditional region without arms")
      else checkParts depth ((arms.flatMap fun arm => [arm.1, arm.2]) ++ alt.toList)
    chain := group
    exit := fun body dead => limited limit fun depth =>
      checkParts depth (body :: dead.toList) }

theorem validateRegion_eq (limit : Nat) (region : Region) :
    r.validateRegion limit region = region.fold (r.regionChecks limit) 1 := rfl

/-- Every check asks for the depth first, and checks the parts of the region. -/
theorem fold_regionChecks (limit : Nat) (region : Region) :
    ∃ check, region.fold (r.regionChecks limit) = limited limit check ∧
      ∀ depth, check depth = .ok () →
        checkParts depth (region.children.map (Region.fold (r.regionChecks limit))) = .ok () := by
  have hunless : ∀ {refused : Prop} [Decidable refused] {e : Error} {parts : Except Error Unit},
      (if refused then .error e else parts) = .ok () → parts = .ok () := by
    intro refused _ e parts h
    split at h
    · cases h
    · exact h
  cases region with
  | block id => exact ⟨_, rfl, fun _ _ => rfl⟩
  | sequence items =>
    rw [fold_sequence]
    exact ⟨_, rfl, fun _ h => h⟩
  | loop items =>
    rw [fold_loop]
    exact ⟨_, rfl, fun _ h => hunless h⟩
  | conditional arms alt =>
    rw [fold_conditional]
    refine ⟨_, rfl, fun _ h => ?_⟩
    rw [← hunless h, Region.children, map_append, map_flatMap, flatMap_map]
    cases alt <;> rfl
  | chain items =>
    rw [fold_chain]
    exact ⟨_, rfl, fun _ h => hunless h⟩
  | exit body dead =>
    rw [fold_exit]
    refine ⟨_, rfl, fun _ h => ?_⟩
    rw [← h]
    cases dead <;> rfl

/-- Whatever passes its check is nested within the limit, and its parts pass theirs one level
further down. -/
theorem children_of_regionChecks {limit depth : Nat} {region : Region}
    (h : region.fold (r.regionChecks limit) depth = .ok ()) :
    depth ≤ limit ∧
      ∀ child ∈ region.children, child.fold (r.regionChecks limit) (depth + 1) = .ok () := by
  obtain ⟨check, hcheck, hparts⟩ := fold_regionChecks (r := r) limit region
  rw [hcheck] at h
  obtain ⟨hdepth, hpassed⟩ := limited_eq_ok h
  exact ⟨hdepth, fun child hchild =>
    forM_of_eq_ok (hparts depth hpassed) _ (mem_map_of_mem hchild)⟩

/-- A region that passes the checks has only blocks of the routine. -/
theorem contains_of_validateRegion {limit : Nat} {region : Region}
    (h : r.validateRegion limit region = .ok ()) : r.Contains region := by
  rw [validateRegion_eq] at h
  generalize 1 = depth at h
  induction region using induct_children generalizing depth with
  | h region ih =>
    have hchildren := fun child hchild =>
      ih child hchild _ ((children_of_regionChecks h).2 child hchild)
    by_cases hblock : ∀ id, region ≠ .block id
    · exact contains_of_children hblock hchildren
    · obtain ⟨id, rfl⟩ := Classical.not_forall_not.1 hblock
      have hcheck : limited limit (fun _ => (r.block id).map fun _ => ()) depth = .ok () := h
      have hfound := (limited_eq_ok hcheck).2
      intro id' hid
      cases mem_singleton.1 hid
      cases hblock : r.block id with
      | error e =>
        rw [hblock] at hfound
        cases hfound
      | ok block => exact ⟨block, block_eq_ok.1 hblock⟩

end Routine

namespace Context

variable {cx : Context} {s : FoldState}

section

variable (hidioms : cx.config.allows = Config.reduced.allows)
include hidioms

/-- Without idioms, no conditional move is refused. -/
theorem moveErrors_eq_nil : cx.moveErrors = [] := by
  rw [moveErrors, flatMap_eq_nil_iff]
  intro entry _
  rw [flatMap_eq_nil_iff]
  intro op _
  cases op <;> simp [operationErrors, accepts, hidioms, Config.reduced]

/-- Without idioms, none is found. -/
theorem tryIdioms_eq_zero (window : List Region) : cx.tryIdioms window = pure 0 := by
  have hnone : ∀ {α : Type} idiom (found : Except Error (Option α)),
      cx.whenAllowed idiom found = pure none := by
    intro α idiom found
    simp [whenAllowed, hidioms, Config.reduced]
  unfold tryIdioms
  dsimp only
  cases leadingBlocks (window.take 3) with
  | nil => rfl
  | cons id rest => simp [tryIdiomsAt, hnone]

/-- Without idioms, blocks that fit can be folded one after another. -/
theorem pushBlocks_failsWith {depth : Nat} {ids : List BlockId}
    (hids : ∀ id ∈ ids, cx.routine.BlockFits id) (s : FoldState) :
    (cx.pushPieces depth 0 (ids.map cx.blockPiece)).FailsWith s [] := by
  induction ids generalizing s with
  | nil => exact failsWith_pure
  | cons id ids ih =>
    rw [map_cons, pushPieces, tryIdioms_eq_zero hidioms, pure_bind]
    refine failsWith_bind.2 ⟨pushBlock_failsWith ?_ (hids id mem_cons_self) s, fun _ _ => ?_⟩
    · rw [moveErrors_eq_nil hidioms]
      exact Subset.refl _
    · exact ih (fun id hid => hids id (mem_cons_of_mem _ hid)) _

/-- Without idioms, there is a tree for the blocks of a routine one after another. -/
theorem build_linear_failsWith (hvalidate : cx.routine.validate = .ok ())
    (harities : cx.routine.hasArities = true) (s : FoldState) :
    (cx.build (Region.linear cx.routine)).FailsWith s [] := by
  unfold build buildPiece
  rw [piece, Region.linear, Region.fold, foldItems_eq_map, map_map,
    failsWith_onFreshStack, failsWith_bind]
  dsimp only [pieceRules, sequencePiece]
  rw [limitDepth, if_neg (Nat.not_lt_zero _)]
  refine ⟨pushBlocks_failsWith hidioms (fun id hid => ?_) _, fun _ _ => failsWith_lift⟩
  obtain ⟨block, hblock⟩ := exists_block_of_mem_linear hvalidate hid
  exact (isValid_of_validate hvalidate).blockFits harities hblock

end

/-- When the checks pass, a reconstruction fails only as its tree cannot be built. -/
theorem reconstruct_failsWith {region : Region} {errors : List Error}
    (hvalidate : cx.routine.validate = .ok ())
    (hregion : cx.routine.validateRegion cx.config.maxDepth region = .ok ())
    (hbuild : (cx.build region).FailsWith s errors) :
    (cx.reconstruct region).FailsWith s errors := by
  rw [reconstruct, hvalidate, hregion, ofExcept_bind, ofExcept_bind, failsWith_bind]
  refine ⟨hbuild, fun root hroot => ?_⟩
  obtain ⟨t, rfl, -, howns⟩ := cx.build_owns region s root hroot
  extract_lets finish
  have hfinish : ∀ s' : FoldState, (∃ t' : FormTree, t'.id = t.id ∧ s'.pool.Owns [.tree t']) →
      (finish ()).FailsWith s' errors := by
    rintro s' ⟨t', hid, howns'⟩
    unfold finish
    rw [failsWith_bind, ends_get]
    extract_lets pool
    have hlinks : pool.checkLinks t.id = .ok () := by
      rw [← hid]
      exact howns'.tree_holds.checkLinksWithin_eq _
    rw [hlinks, ofExcept_bind]
    exact ⟨failsWith_get, failsWith_pure⟩
  split
  · rw [failsWith_bind, ends_lift]
    exact ⟨failsWith_lift, (stripResult_owns howns).mono fun _ => hfinish⟩
  · exact hfinish _ ⟨t, rfl, howns⟩

end Context

/-- Without idioms, and with depth two allowed, the blocks of a routine one after another can
always be reconstructed.  The log has all it had before, and of the events that mark the start
or the end of a reconstruction it gains that this one started and that it was completed. -/
theorem reconstruct_linear_succeeds (config : Config) (routine : Routine) (env : TypeEnv)
    (log : EventLog) (hidioms : config.allows = Config.reduced.allows)
    (hdepth : 2 ≤ config.maxDepth) (hvalidate : routine.validate = .ok ())
    (harities : routine.hasArities = true) :
    ∃ tree log' events,
      reconstruct config routine (Region.linear routine) env log = (.ok tree, log') ∧
        log'.toList = log.toList ++ events ∧
        (events.filter fun e => e.kind.isBoundary).map (fun e => (e.kind, e.routine)) =
          [(.started, some routine.name), (.completed, some routine.name)] := by
  set cx := Context.of routine env config with hcx
  obtain ⟨tree, s', hrun⟩ := (cx.reconstruct_failsWith hvalidate
    (Routine.validateRegion_linear hvalidate hdepth)
    (cx.build_linear_failsWith hidioms hvalidate harities
      (.start (log.record .started (some routine.name) none none)))).exists_run
  obtain ⟨outcome, _, ⟨first, inner, last, rfl, hfirst, hname, hquiet, hlast, hlastName⟩, hall⟩ :=
    exists_reconstructAmid config routine (Region.linear routine) env
  have hlogged : reconstruct config routine (Region.linear routine) env log =
      (outcome, log.amid .nobody (first :: (inner ++ [last]))) := hall .nobody log
  have hok : (reconstruct config routine (Region.linear routine) env log).1 = .ok tree := by
    rw [reconstruct_eq, ← hcx, hrun]
    rfl
  obtain rfl : outcome = .ok tree := (congrArg Prod.fst hlogged).symm.trans hok
  have hnone : inner.filter (fun e => e.kind.isBoundary) = [] := by
    simpa [List.filter_eq_nil_iff] using hquiet
  refine ⟨tree, _, _, hlogged, log.toList_amid_nobody _, ?_⟩
  rw [List.filter_cons_of_pos (by rw [hfirst]; rfl), List.filter_append, hnone, List.nil_append,
    List.filter_cons_of_pos (by rw [hlast]; rfl)]
  simp [hfirst, hname, hlast, hlastName, Except.isOk, Except.toBool]

/-- A routine with a division, a call, a conditional move, and a branch that negates its
operand in the delay slot. -/
def Routine.callOnQuotient : Routine where
  name := "call-on-quotient"
  code := #[⟨.branch ⟨⟨.lessZero, [.var (.read ⟨4⟩ 0)]⟩, true, 1,
        some (.set (.write ⟨4⟩ 0) ⟨.neg, [.var (.read ⟨4⟩ 0)]⟩)⟩, ∅⟩,
      ⟨.divide (.var (.read ⟨4⟩ 1)) (.var (.read ⟨5⟩ 1)) true, .ofList [⟨4⟩, ⟨5⟩]⟩,
      ⟨.set (.write ⟨4⟩ 2) ⟨.identity, [.var (.read .lo 2)]⟩, .single .lo⟩,
      ⟨.call (.read ⟨25⟩ 3) [.read ⟨4⟩ 3] (some (.write .v0 3)), .ofList [⟨4⟩, ⟨25⟩]⟩,
      ⟨.conditionalMove (.write .v0 4) (.symbol "#f") (.read ⟨6⟩ 4) false, ∅⟩]
  blocks := #[⟨0, 0, 1, [1]⟩, ⟨1, 1, 5, [2]⟩, ⟨2, 5, 5, []⟩]
  labels := []
  epilogue := some 2
  resultRegister := .v0

theorem callOnQuotient_reconstructed :
    Routine.callOnQuotient.validate = .ok () ∧ Routine.callOnQuotient.hasArities = true ∧
      ∃ tree log' events,
        reconstruct { Config.reduced with maxDepth := 2 } Routine.callOnQuotient
            (Region.linear Routine.callOnQuotient) (({} : TypeTable).env Routine.callOnQuotient)
            .empty = (.ok tree, log') ∧
          log'.toList = EventLog.empty.toList ++ events ∧
          (events.filter fun e => e.kind.isBoundary).map (fun e => (e.kind, e.routine)) =
            [(.started, some "call-on-quotient"), (.completed, some "call-on-quotient")] :=
  ⟨rfl, rfl, reconstruct_linear_succeeds { Config.reduced with maxDepth := 2 }
    Routine.callOnQuotient _ .empty rfl (Nat.le_refl 2) rfl rfl⟩

end Decompiler
