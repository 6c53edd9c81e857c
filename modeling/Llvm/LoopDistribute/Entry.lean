import Llvm.LoopDistribute.Preheader

/-!
# What `cloneLoops` is given

Every fact about the chain of copies `cloneLoops` builds (`cloneLoops_relinked`) asks for a
function whose ids are in order (`Func.Numbered`). This module shows that `distribute` keeps them
in order up to its call of `cloneLoops`, on both of its paths, and that the loop it is given still
has its blocks and their bodies:

* `SameCfg.numbered`, `Numbered.setInst` : a step that keeps the CFG keeps the ids in order when the
  operands it writes name ids below the counter;
* `numbered_newScope`, `numbered_annotateNoAlias` : the scopes are metadata;
* `numbered_addPHINode`, `numbered_addPHINodes` : an exit PHI takes the next id and names the value
  and its copy in the fallback loop, both below the counter;
* `CloneEntry`, `split_entry`, `beforeCloneLoops_entry` : what `cloneLoops` is given passes its
  checks with the exit block apart from the preheader, keeps the ids in order and the loop's
  bodies, and has a counter no smaller than the one `distribute` started with.
-/

namespace Llvm

namespace Func

/-- A step that keeps the CFG keeps the ids in order, when every operand it leaves names an id
below the counter. -/
theorem SameCfg.numbered {f g : Func} (h : SameCfg f g) (hf : f.Numbered)
    (hop : ∀ i ∈ g.allInsts, ∀ v ∈ (g.inst i).operands, ∀ j ∈ v.id?, j < g.fresh) : g.Numbered := by
  have ha := h.allInsts_eq
  refine ⟨h.blocks ▸ hf.blocks_nodup, ha ▸ hf.allInsts_nodup,
    fun b hb => lt_of_lt_of_le (hf.block_lt b (h.blocks ▸ hb)) h.fresh_le,
    fun i hi => lt_of_lt_of_le (hf.inst_lt i (ha ▸ hi)) h.fresh_le,
    fun b hb => ha ▸ hf.block_not_inst b (h.blocks ▸ hb), fun b hb s hs => ?_, hop⟩
  rw [h.succs_eq] at hs
  rw [h.blocks] at hb ⊢
  exact hf.succs_sub b hb s hs

/-- Replacing a placed instruction by one with the same block operands, naming ids below the
counter, keeps the ids in order. -/
theorem Numbered.setInst {f : Func} (hf : f.Numbered) {i : Nat} {x : Inst}
    (hx : x.operands.filterMap Value.getBlock? = (f.inst i).operands.filterMap Value.getBlock?)
    (hop : i ∈ f.allInsts → ∀ v ∈ x.operands, ∀ j ∈ v.id?, j < f.fresh) : (f.setInst i x).Numbered :=
  (SameCfg.setInst hx).numbered hf fun u hu v hv j hj => by
    rw [setInst_inst] at hv
    split_ifs at hv with hui
    · subst hui; exact hop hu v hv j hj
    · exact hf.operand_lt u hu v hv j hj

theorem mem_allInsts_of_body {f g : Func} {n i : Nat} (hi : i ∈ g.allInsts) (hin : i ≠ n)
    (hblocks : g.blocks = f.blocks) (hbody : ∀ b, ∀ i ∈ g.body b, i ∈ f.body b ∨ i = n) :
    i ∈ f.allInsts := by
  obtain ⟨b, hb, hib⟩ := mem_allInsts.1 hi
  exact mem_allInsts.2 ⟨b, hblocks ▸ hb, (hbody b i hib).resolve_right hin⟩

end Func

namespace LoopDistribute

open Func

/-! ## The scopes -/

theorem numbered_newScope {f : Func} (hf : f.Numbered) : (newScope f).1.Numbered :=
  (sameCfg_newScope f).numbered hf fun i hi v hv j hj => Nat.lt_succ_of_lt (hf.operand_lt i hi v hv j hj)

/-- `annotateNoAlias` writes metadata only: the ids stay in order. -/
theorem numbered_annotateNoAlias (ord : IterOrder) (scope : Nat) (fwd : Finset Nat)
    (parts : List DistPartition) {f : Func} (hf : f.Numbered) :
    (annotateNoAlias ord scope fwd parts f).Numbered := by
  refine List.foldlRecOn (motive := Func.Numbered) parts _ f hf fun g hg p _ => ?_
  dsimp only
  split
  · refine List.foldlRecOn (motive := Func.Numbered) _ _ g hg fun g' hg' o _ => ?_
    dsimp only
    split
    · exact hg'.setInst rfl fun hi v hv j hj => hg'.operand_lt _ hi v hv j hj
    · exact hg'
  · exact hg

/-! ## The exit PHIs -/

theorem exitPhiScan_mem {f : Func} {inst pn : Nat} :
    ∀ {l : List Nat}, exitPhiScan f inst l = .ok (some pn) → pn ∈ l
  | [], h => by cases h
  | i :: is, h => by
    unfold exitPhiScan at h
    split_ifs at h
    · cases h; exact List.mem_cons_self _ _
    · exact List.mem_cons_of_mem _ (exitPhiScan_mem h)
    · cases h

theorem mem_operands_addIncoming {x : Inst} {w v : Value} {b : Nat}
    (hv : v ∈ (addIncoming x w b).operands) : v ∈ x.operands ∨ v = w := by
  simpa [addIncoming] using hv

theorem mem_operands_replaceUsesOfWith {x : Inst} {a w v : Value}
    (hv : v ∈ (x.replaceUsesOfWith a w).operands) : v ∈ x.operands ∨ v = w := by
  simp only [Inst.replaceUsesOfWith, List.mem_map] at hv
  obtain ⟨o, ho, rfl⟩ := hv
  split_ifs
  · exact .inr rfl
  · exact .inl ho

theorem numbered_addIncoming {g : Func} (hg : g.Numbered) {pn j b : Nat} (hj : j < g.fresh) :
    (g.setInst pn (addIncoming (g.inst pn) (.inst j) b)).Numbered :=
  hg.setInst (blockOps_addIncoming _ _ _) fun hpn v hv k hk => by
    rcases mem_operands_addIncoming hv with hv | rfl
    · exact hg.operand_lt pn hpn v hv k hk
    · simp only [Value.id?, Option.mem_def, Option.some.injEq] at hk; exact hk ▸ hj

theorem numbered_newPhi {f : Func} (hf : f.Numbered) {pb : Nat} (hpb : pb ∈ f.blocks) :
    ({ f with
      body := Function.update f.body pb (f.fresh :: f.body pb)
      inst := Function.update f.inst f.fresh ⟨.phi, [], [], [], []⟩
      fresh := f.fresh + 1 } : Func).Numbered := by
  have hnot : f.fresh ∉ f.body pb := fun h => lt_irrefl _ (hf.mem_body_lt hpb h)
  have hbody : ∀ b, ∀ i ∈ Function.update f.body pb (f.fresh :: f.body pb) b, i ∈ f.body b ∨ i = f.fresh :=
    fun b i hi => by
      by_cases hbp : b = pb
      · subst hbp
        rw [Function.update_same, List.mem_cons] at hi
        exact hi.symm
      · rw [Function.update_noteq hbp] at hi
        exact .inl hi
  refine hf.update_body hpb rfl (fun b hb => Function.update_noteq hb _ _) ?_
    (fun i hi => (hbody pb i hi).imp_right fun h => ⟨h.ge, by dsimp only; omega⟩) (Nat.le_succ _)
    (fun b hb s hs => ?_) (fun i hi v hv j hj => ?_)
  · dsimp only
    rw [Function.update_same]
    exact List.nodup_cons.2 ⟨hnot, hf.body_nodup hpb⟩
  · rw [(sameEdges_newPhi pb hf.inst_lt).succs b hb] at hs
    exact hf.succs_sub b hb s hs
  · dsimp only at hv ⊢
    by_cases hi' : i = f.fresh
    · subst hi'; simp at hv
    · rw [Function.update_noteq hi'] at hv
      exact Nat.lt_succ_of_lt (hf.operand_lt i (mem_allInsts_of_body hi hi' rfl hbody) v hv j hj)

/-- One turn of `addPHINodes` for a value and a copy of it that name ids below the counter keeps
the ids in order. -/
theorem numbered_addPHINode {L : Loop} {v : Versioned} {pb inst : Nat} {f g : Func}
    (hf : f.Numbered) (hpb : pb ∈ f.blocks) (hi : inst < f.fresh) (hv : mapId v.vmap inst < f.fresh)
    (h : addPHINode L v pb f inst = .ok g) : g.Numbered ∧ f.fresh ≤ g.fresh := by
  unfold addPHINode at h
  rcases hx : v.nonDistributedLoop.getExitingBlock f with _ | x <;> simp only [hx] at h
  · cases h
  obtain ⟨r, -, h⟩ := bind_eq_ok h
  rcases r with _ | pn
  · rcases he : L.getExitingBlock f with _ | e <;> simp only [he] at h
    · cases h
    cases h
    -- the first user outside the loop now names the PHI, which has the id `f.fresh`
    have hnew := numbered_newPhi hf hpb
    have hus := rewriteFirstOutsideUser_elim
      (motive := fun g : Func => g.Numbered ∧ f.fresh + 1 ≤ g.fresh) L inst f.fresh
      (f.users (.inst inst)) ⟨hnew, le_rfl⟩ fun u _ _ =>
        ⟨hnew.setInst (blockOps_replaceUsesOfWith _ _ _) fun hu w hw j hj => by
          rcases mem_operands_replaceUsesOfWith hw with hw | rfl
          · exact hnew.operand_lt u hu w hw j hj
          · simp only [Value.id?, Option.mem_def, Option.some.injEq] at hj
            exact hj ▸ Nat.lt_succ_self _, le_rfl⟩
    have hlt : ∀ {j}, j < f.fresh → j < f.fresh + 1 := Nat.lt_succ_of_lt
    exact ⟨numbered_addIncoming (numbered_addIncoming hus.1 (lt_of_lt_of_le (hlt hi) hus.2))
      (lt_of_lt_of_le (hlt hv) hus.2), (Nat.le_succ _).trans hus.2⟩
  · cases h
    exact ⟨numbered_addIncoming hf hv, le_rfl⟩

theorem foldlM_addPHINode_numbered {L : Loop} {v : Versioned} {pb : Nat} {g : Func} :
    ∀ (l : List Nat) (f : Func), f.Numbered → pb ∈ f.blocks →
      (∀ d ∈ l, d < f.fresh ∧ mapId v.vmap d < f.fresh) →
      l.foldlM (addPHINode L v pb) f = .ok g → g.Numbered ∧ f.fresh ≤ g.fresh
  | [], _, hf, _, _, h => by cases h; exact ⟨hf, le_rfl⟩
  | d :: l, f, hf, hpb, hl, h => by
    rw [List.foldlM_cons] at h
    obtain ⟨f', hstep, h⟩ := bind_eq_ok h
    obtain ⟨hd, hvd⟩ := hl d (List.mem_cons_self _ _)
    obtain ⟨hn', hle⟩ := numbered_addPHINode hf hpb hd hvd hstep
    have hpb' : pb ∈ f'.blocks := (addPHINode_sameEdges hf.inst_lt hstep).1.blocks ▸ hpb
    obtain ⟨hg, hle'⟩ := foldlM_addPHINode_numbered l f' hn' hpb' (fun d' hd' =>
      (hl d' (List.mem_cons_of_mem _ hd')).imp (lt_of_lt_of_le · hle) (lt_of_lt_of_le · hle)) h
    exact ⟨hg, hle.trans hle'⟩

/-- `addPHINodes`, for values and copies naming ids below the counter, keeps the ids in order. -/
theorem numbered_addPHINodes {L : Loop} {v : Versioned} {defs : List Nat} {f g : Func} {X : Nat}
    (hf : f.Numbered) (hX : L.getExitBlock f = some X) (hXb : X ∈ f.blocks)
    (hdefs : ∀ d ∈ defs, d < f.fresh ∧ mapId v.vmap d < f.fresh)
    (h : addPHINodes L v defs f = .ok g) : g.Numbered ∧ f.fresh ≤ g.fresh := by
  unfold addPHINodes at h
  simp only [hX] at h
  exact foldlM_addPHINode_numbered defs f hf hXb hdefs h

/-! ## Up to `cloneLoops` -/

/-- What `cloneLoops` is given in `g`, from the function `f` that `distribute` started on: the ids
are in order, the checks of `cloneLoops` pass with an exit block apart from the preheader, and the
blocks of the loop are still there with their bodies, below a counter that only grew. -/
structure CloneEntry (f g : Func) (L : Loop) (X : Nat) : Prop where
  numbered : g.Numbered
  blocks_sub : ∀ b ∈ L.blocks, b ∈ g.blocks
  checks : ∃ origPH pred, ClonePre g L origPH pred X ∧ X ≠ origPH
  body : ∀ b ∈ L.blocks, g.body b = f.body b
  fresh_le : f.fresh ≤ g.fresh

theorem CloneEntry.of_sameCfg {f g k : Func} {L : Loop} {X : Nat} (h : CloneEntry f g L X)
    (hc : SameCfg g k) (hn : k.Numbered) : CloneEntry f k L X := by
  obtain ⟨p, pred, hcp, hXp⟩ := h.checks
  exact ⟨hn, fun b hb => hc.blocks ▸ h.blocks_sub b hb, ⟨p, pred, hcp.of_sameCfg hc, hXp⟩,
    fun b hb => by rw [hc.body]; exact h.body b hb, h.fresh_le.trans hc.fresh_le⟩

/-- The split of line 1001, unless the preheader `ph` holds only its terminator and has a single
predecessor. The exit block is not the preheader after it, when the single predecessor of `ph`, if
there is one, is outside the loop (as for every loop reached from the entry block): either the split
made a new preheader, or `ph` is kept and an exit edge into it would come from that predecessor. -/
theorem split_entry {L : Loop} {st st₁ : PassState} {ph X : Nat} (hf : st.f.Numbered)
    (hL : ∀ b ∈ L.blocks, b ∈ st.f.blocks) (hph : L.getLoopPreheader st.f = some ph)
    (hX : L.getExitBlock st.f = some X)
    (hpred : ∀ p, st.f.getSinglePredecessor ph = some p → p ∉ L.blocks)
    (h₁ : st₁ = if ((st.f.getSinglePredecessor ph).isNone || decide ((st.f.body ph).length ≠ 1)) = true
      then ⟨(st.f.splitBlock st.dt ph).1, (st.f.splitBlock st.dt ph).2.1⟩ else st) :
    CloneEntry st.f st₁.f L X := by
  obtain ⟨⟨p, pred, hcp⟩, hn₁, hL₁⟩ := clonePre_split hf hL hph hX h₁
  obtain ⟨-, -, hpb, hpL, -, -⟩ := L.getLoopPreheader_spec st.f hph
  have hphL : ph ∉ L.blocks := by simpa [Loop.containsBlock] using hpL
  obtain ⟨-, ⟨xb, hxb, hXs⟩, -⟩ := L.getExitBlock_spec st.f hX
  have hXlt := hf.block_lt X (hf.succs_sub xb (hL xb hxb) X hXs)
  refine ⟨hn₁, hL₁, ⟨p, pred, hcp, ?_⟩, fun b hb => ?_, ?_⟩ <;> split_ifs at h₁ <;> subst h₁
  · have := hcp.preheader.symm.trans (splitBlock_preheader st.dt hf hL hph).1
    rw [Option.some.injEq] at this
    omega
  · rw [hcp.preheader, Option.some.injEq] at hph
    subst hph
    rintro rfl
    exact hpred pred hcp.single_pred
      ((Func.getSinglePredecessor_spec _ hcp.single_pred).2.2 xb (hL xb hxb) hXs ▸ hxb)
  · exact @splitBlock_body_of_ne st.f st.dt ph hf b (hL b hb) fun h' => hphL (h' ▸ hb)
  · rfl
  · exact Nat.le_add_right _ _
  · exact le_rfl

/-- What `beforeCloneLoops` hands to `cloneLoops`, on both paths, for a loop whose preheader has no
single predecessor inside the loop: the checks of `cloneLoops` pass, the ids are in order, the loop
keeps its blocks and their bodies, and the partitions are the formed ones, none cloned yet. -/
theorem beforeCloneLoops_entry {cfg : Config} {ord : IterOrder} {lai : AccessInfo} {L : Loop}
    {ph X : Nat} {deps : List Dependence} {parts : List InstPartition} {st st' : PassState}
    {dparts : List DistPartition} (hf : st.f.Numbered) (hL : ∀ b ∈ L.blocks, b ∈ st.f.blocks)
    (hnd : L.blocks.Nodup) (hph : L.getLoopPreheader st.f = some ph)
    (hX : L.getExitBlock st.f = some X)
    (hpred : ∀ p, st.f.getSinglePredecessor ph = some p → p ∉ L.blocks)
    (h : beforeCloneLoops cfg ord lai L ph deps parts st = .ok (st', dparts)) :
    CloneEntry st.f st'.f L X ∧ dparts = parts.map fun p => { part := p } := by
  unfold beforeCloneLoops at h
  obtain ⟨ptr, -, h⟩ := bind_eq_ok h
  dsimp only at h
  generalize hst₁ : (if ((st.f.getSinglePredecessor ph).isNone || decide ((st.f.body ph).length ≠ 1)) = true
    then (⟨(st.f.splitBlock st.dt ph).1, (st.f.splitBlock st.dt ph).2.1⟩ : PassState) else st) = st₁ at h
  have he₁ := split_entry hf hL hph hX hpred hst₁.symm
  split at h
  · -- the versioned path: `versionLoop`, then the exit PHIs, then maybe the scopes
    obtain ⟨⟨st₃, v⟩, hv, h⟩ := bind_eq_ok h
    obtain ⟨f₄, hphi, h⟩ := bind_eq_ok h
    have hvs := versionLoop_spec he₁.numbered he₁.blocks_sub hnd (he₁.checks.elim fun _ h =>
      h.elim fun _ h => h.1.exit) hv
    obtain ⟨p, pred, hcp, hpX, -⟩ := hvs.checks
    obtain ⟨-, hL₃, hn₃, hfr₃, hb₃, hσ, -⟩ := hvs
    obtain ⟨hXL, ⟨xb, hxb, hXs⟩, -⟩ := L.getExitBlock_spec st₃.f hcp.exit
    have hXb := hn₃.succs_sub xb (hL₃ xb hxb) X hXs
    -- a value used outside the loop, and its copy in the fallback loop, are below the counter
    have hdefs : ∀ d ∈ findDefsUsedOutsideOfLoop st.f L,
        d < st₃.f.fresh ∧ mapId v.vmap d < st₃.f.fresh := fun d hd => by
      have hlt : d < st₃.f.fresh := by
        obtain ⟨b, hb, hdb⟩ := List.mem_flatMap.1 ((L.contains_iff st.f d).1
          (contains_of_mem_findDefsUsedOutsideOfLoop hd))
        exact lt_of_lt_of_le (hf.mem_body_lt (hL b hb) hdb) (he₁.fresh_le.trans hfr₃)
      refine ⟨hlt, ?_⟩
      unfold mapId
      cases hvd : v.vmap d with
      | none => exact hlt
      | some c => exact hσ d c hvd
    obtain ⟨hn₄, hfr₄⟩ := numbered_addPHINodes hn₃ hcp.exit hXb hdefs hphi
    obtain ⟨he₄, hb₄⟩ := addPHINodes_sameEdges hn₃.inst_lt hcp.exit hphi
    have hbX : ∀ b ∈ L.blocks, b ≠ X := fun b hb h' => hXL (h' ▸ hb)
    have hentry : CloneEntry st.f f₄ L X :=
      ⟨hn₄, fun b hb => he₄.blocks ▸ hL₃ b hb,
        ⟨p, pred, hcp.of_sameEdges he₄ hL₃ (hb₄ p hpX), fun h' => hpX h'.symm⟩,
        fun b hb => ((hb₄ b (hbX b hb)).trans (hb₃ b hb)).trans (he₁.body b hb),
        (he₁.fresh_le.trans hfr₃).trans hfr₄⟩
    split at h <;> cases h
    · exact ⟨hentry.of_sameCfg ((sameCfg_newScope f₄).trans (sameCfg_annotateNoAlias ord _ _ _ _))
        (numbered_annotateNoAlias ord _ _ _ (numbered_newScope hn₄)), rfl⟩
    · exact ⟨hentry, rfl⟩
  · cases h
    exact ⟨he₁, rfl⟩

end LoopDistribute

end Llvm
