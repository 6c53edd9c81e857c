import Llvm.LoopDistribute.Prune

/-!
# Nothing after `versionLoop` touches the fallback loop

When the memory checks are needed, `versionLoop` makes the fallback loop, run when a check fails:
a copy of the loop on new blocks, remapped to its own instructions (`Versioning.fallback`). The
steps of `distribute` after it keep the blocks of that copy, their bodies and every instruction in
them (`KeepsBlocks`):

* `keepsBlocks_addPHINodes` : the exit PHIs are in the exit block, and the uses they take over are
  uses of the loop's values, which the fallback loop does not make;
* `keepsBlocks_annotateNoAlias` : the scopes go on the partitions' instructions, of the loop;
* `keepsBlocks_cloneLoops` : the copies of the chain are on new blocks, and the relinked branch ends
  the memcheck block;
* `removeUnusedInsts_keepsBlocks` : the pruning erases instructions of the loop and of its new
  copies, which the fallback loop neither holds nor uses;
* `distribute_keeps_fallback` : so when `processLoop` returns, the fallback loop is still the copy
  `versionLoop` made, its operands copies or values from outside the loop, its exit edge on the
  exit block.
-/

namespace Llvm.LoopDistribute

open Func

/-! ## The pruning -/

theorem replaceAllUsesWith_inst_of_not_mem (f : Func) {v w : Value} {u : Nat}
    (hu : v ∉ (f.inst u).operands) : (f.replaceAllUsesWith v w).inst u = f.inst u := by
  simp [replaceAllUsesWith, users, hu]

theorem eraseUnused_body_sub (f : Func) (unused : List Nat) (b : Nat) :
    (eraseUnused f unused).body b ⊆ f.body b :=
  List.foldlRecOn (motive := fun g => g.body b ⊆ f.body b) _ _ f (List.Subset.refl _)
    fun g hg i _ => List.Subset.trans (by split <;> exact List.erase_subset _ _) hg

theorem eraseUnused_blocks (f : Func) (unused : List Nat) : (eraseUnused f unused).blocks = f.blocks :=
  List.foldlRecOn (motive := fun g => g.blocks = f.blocks) _ _ f rfl
    fun g hg _ _ => by split <;> exact hg

theorem removeUnusedInsts_blocks {L : Loop} :
    ∀ (parts : List DistPartition) (f g : Func), removeUnusedInsts L parts f = .ok g → g.blocks = f.blocks
  | [], f, g, h => by cases h; rfl
  | q :: qs, f, g, h => by
    unfold removeUnusedInsts at h
    rw [List.foldlM_cons] at h
    obtain ⟨f', hstep, h⟩ := bind_eq_ok h
    rw [removeUnusedInsts_blocks qs f' g h, DistPartition.removeUnusedInsts_eq hstep, eraseUnused_blocks]

theorem keepsBlocks_eraseStep (f : Func) {bs : List Nat} {i : Nat} (hi : ∀ b ∈ bs, i ∉ f.body b)
    (hu : ∀ b ∈ bs, ∀ u ∈ f.body b, Value.inst i ∉ (f.inst u).operands) :
    KeepsBlocks f ((if (f.users (.inst i)).isEmpty then f
      else f.replaceAllUsesWith (.inst i) .undef).eraseFromParent i) bs := by
  refine ⟨fun b hb => ?_, fun b hb u hu' => ?_⟩
  · split <;> exact List.erase_of_not_mem (hi b hb)
  · split
    · rfl
    · exact replaceAllUsesWith_inst_of_not_mem f (hu b hb u hu')

theorem keepsBlocks_eraseUnused (f : Func) {bs unused : List Nat}
    (hi : ∀ e ∈ unused, ∀ b ∈ bs, e ∉ f.body b)
    (hu : ∀ e ∈ unused, ∀ b ∈ bs, ∀ u ∈ f.body b, Value.inst e ∉ (f.inst u).operands) :
    KeepsBlocks f (eraseUnused f unused) bs :=
  List.foldlRecOn (motive := fun g => KeepsBlocks f g bs) _ _ f (KeepsBlocks.refl f bs)
    fun g hg e he => hg.trans (keepsBlocks_eraseStep g
      (fun b hb => by rw [hg.body b hb]; exact hi e (List.mem_reverse.1 he) b hb)
      fun b hb u hu' => by
        rw [hg.body b hb] at hu'
        rw [hg.inst b hb u hu']
        exact hu e (List.mem_reverse.1 he) b hb u hu')

/-- A run of `removeUnusedInsts` keeps the blocks `bs` when no partition sends an instruction of
the loop outside its set into them, or to a value their instructions use. -/
theorem removeUnusedInsts_keepsBlocks {L : Loop} {bs : List Nat} {f₀ : Func} :
    ∀ (parts : List DistPartition) (f g : Func), KeepsBlocks f₀ f bs → (∀ b, f.body b ⊆ f₀.body b) →
      (∀ q ∈ parts, ∀ i ∈ L.insts f₀, i ∉ q.part.set → ∀ b ∈ bs, q.getNewInst i ∉ f₀.body b ∧
        ∀ u ∈ f₀.body b, Value.inst (q.getNewInst i) ∉ (f₀.inst u).operands) →
      removeUnusedInsts L parts f = .ok g → KeepsBlocks f₀ g bs
  | [], f, g, hk, _, _, h => by cases h; exact hk
  | q :: qs, f, g, hk, hsub, hq, h => by
    unfold removeUnusedInsts at h
    rw [List.foldlM_cons] at h
    obtain ⟨f', hstep, h⟩ := bind_eq_ok h
    have hf' := DistPartition.removeUnusedInsts_eq hstep
    refine removeUnusedInsts_keepsBlocks qs f' g (hk.trans ?_)
      (fun b => hf' ▸ (eraseUnused_body_sub f _ b).trans (hsub b))
      (fun q' hq' => hq q' (List.mem_cons_of_mem _ hq')) h
    rw [hf']
    have hcol : ∀ e ∈ ((L.insts f).filter (· ∉ q.part.set)).map q.getNewInst, ∀ b ∈ bs,
        e ∉ f₀.body b ∧ ∀ u ∈ f₀.body b, Value.inst e ∉ (f₀.inst u).operands := fun e he => by
      obtain ⟨i, hi, rfl⟩ := List.mem_map.1 he
      obtain ⟨hiL, hiq⟩ := List.mem_filter.1 hi
      obtain ⟨b', hb', hib⟩ := List.mem_flatMap.1 hiL
      exact hq q (List.mem_cons_self _ _) i (List.mem_flatMap.2 ⟨b', hb', hsub b' hib⟩)
        (by simpa using hiq)
    refine keepsBlocks_eraseUnused f (fun e he b hb => ?_) fun e he b hb u hu => ?_
    · rw [hk.body b hb]; exact (hcol e he b hb).1
    · rw [hk.body b hb] at hu
      rw [hk.inst b hb u hu]
      exact (hcol e he b hb).2 u hu

/-! ## The scopes -/

/-- The scopes go only on the partitions' instructions: blocks holding none of them keep theirs. -/
theorem keepsBlocks_annotateNoAlias (ord : IterOrder) (scope : Nat) (fwd : Finset Nat)
    (parts : List DistPartition) (f : Func) {bs : List Nat}
    (h : ∀ p ∈ parts, ∀ i ∈ p.part.set, ∀ b ∈ bs, p.getNewInst i ∉ f.body b) :
    KeepsBlocks f (annotateNoAlias ord scope fwd parts f) bs := by
  refine List.foldlRecOn (motive := fun g => KeepsBlocks f g bs) parts _ f (KeepsBlocks.refl f bs)
    fun g hg p hp => ?_
  dsimp only
  split
  · refine List.foldlRecOn (motive := fun g' => KeepsBlocks f g' bs) _ _ g hg fun g' hg' o ho => ?_
    dsimp only
    split
    · exact hg'.trans (KeepsBlocks.setInst (fun b hb => by
        rw [hg'.body b hb]; exact h p hp o ((ord.mem_enum _ o).1 ho) b hb) _)
    · exact hg'
  · exact hg

/-! ## The chain of copies -/

/-- `cloneLoops` keeps every block of the function but the preheader's predecessor, whose
terminator it relinks: the chain of copies is on new blocks. -/
theorem keepsBlocks_cloneLoops {L : Loop} {st st' : PassState} {parts ps : List DistPartition}
    {origPH pred X : Nat} {bs : List Nat} (hf : st.f.Numbered)
    (hL : ∀ b ∈ L.blocks, b ∈ st.f.blocks) (hnd : L.blocks.Nodup)
    (hph : L.getLoopPreheader st.f = some origPH)
    (hpred : st.f.getSinglePredecessor origPH = some pred) (hX : L.getExitBlock st.f = some X)
    (hXph : X ≠ origPH) (hv : ∀ p ∈ parts, p.vmap = fun _ => none)
    (hbs : ∀ b ∈ bs, b ∈ st.f.blocks) (hbp : pred ∉ bs) (h : cloneLoops L st parts = .ok (st', ps)) :
    KeepsBlocks st.f st'.f bs := by
  obtain ⟨origPH', pred', X', stc, topPH, cloned, t, hph', hpred', hX', -, -, hc, -, ht, hst⟩ :=
    cloneLoops_eq_ok h
  rw [hph, Option.some.injEq] at hph'; subst hph'
  rw [hpred, Option.some.injEq] at hpred'; subst hpred'
  rw [hX, Option.some.injEq] at hX'; subst hX'
  have hs := LoopShape.of_checks hf hL hph hpred hX hXph
  obtain ⟨hcs, -⟩ := cloneChain_spec hnd
    (fun h => hs.exit_not_mem (List.mem_cons_of_mem _ h)) hXph _ _ _ hc
    (fun q hq => hv q (List.mem_of_mem_dropLast (List.mem_reverse.1 hq))) hf hL hph hs.ph_mem
    (fun h => (L.getLoopPreheader_spec st.f hph).elim fun _ h' => by
      simp [Loop.containsBlock, h] at h')
    hs.exit_mem
  -- the relinked terminator ends `pred`, which no block of `bs` is
  have htf : t ∈ stc.f.body pred := List.mem_of_mem_getLast? ht
  rw [hst]
  exact (KeepsBlocks.of_extends hf hbs hcs.ext).trans (KeepsBlocks.setInst (fun b hb htb =>
    hbp (hcs.numbered.eq_of_mem_body (hcs.ext.blocks b (hbs b hb)) (hcs.ext.blocks pred hs.pred_mem)
      htb htf ▸ hb)) _)

/-! ## The exit PHIs -/

/-- One turn of `addPHINodes` keeps the blocks other than the exit block `pb` whose instructions do
not use `inst`: it writes the exit block's PHIs, the new PHI at the counter, and the users of
`inst`. -/
theorem keepsBlocks_addPHINode {L : Loop} {v : Versioned} {pb inst : Nat} {f g : Func}
    {bs : List Nat} (hf : f.Numbered) (hpb : pb ∈ f.blocks) (hbs : ∀ b ∈ bs, b ∈ f.blocks ∧ b ≠ pb)
    (hu : ∀ b ∈ bs, ∀ u ∈ f.body b, Value.inst inst ∉ (f.inst u).operands)
    (h : addPHINode L v pb f inst = .ok g) : KeepsBlocks f g bs := by
  unfold addPHINode at h
  rcases hx : v.nonDistributedLoop.getExitingBlock f with _ | x <;> simp only [hx] at h
  · cases h
  obtain ⟨r, hr, h⟩ := bind_eq_ok h
  rcases r with _ | pn
  · rcases he : L.getExitingBlock f with _ | e <;> simp only [he] at h
    · cases h
    cases h
    have hfresh : ∀ b ∈ bs, f.fresh ∉ f.body b := fun b hb h' =>
      lt_irrefl _ (hf.mem_body_lt (hbs b hb).1 h')
    -- the new PHI, at the counter, then the users of `inst`, none of them in `bs`
    have hnew : KeepsBlocks f ({ f with
        body := Function.update f.body pb (f.fresh :: f.body pb)
        inst := Function.update f.inst f.fresh ⟨.phi, [], [], [], []⟩
        fresh := f.fresh + 1 } : Func) bs :=
      KeepsBlocks.of_lt hf (fun b hb => (hbs b hb).1)
        (fun b _ hb => Function.update_noteq (hbs b hb).2 _ _) fun _ hu => Function.update_noteq hu.ne _ _
    have hus := rewriteFirstOutsideUser_elim (motive := fun g : Func => KeepsBlocks f g bs) L inst
      f.fresh (f.users (.inst inst)) hnew fun u hu' _ =>
        hnew.trans (KeepsBlocks.setInst (fun b hb hub => hu b hb u (hnew.body b hb ▸ hub)
          (of_decide_eq_true (List.mem_filter.1 hu').2)) _)
    -- the two writes of the new PHI's incoming values
    have hpn : ∀ (g : Func) x, KeepsBlocks f g bs → KeepsBlocks f (g.setInst f.fresh x) bs :=
      fun g x hg => hg.trans (KeepsBlocks.setInst (fun b hb => hg.body b hb ▸ hfresh b hb) x)
    exact hpn _ _ (hpn _ _ hus)
  · cases h
    exact KeepsBlocks.setInst (fun b hb hpnb => (hbs b hb).2
      (hf.eq_of_mem_body (hbs b hb).1 hpb hpnb (exitPhiScan_mem hr))) _

theorem keepsBlocks_foldlM_addPHINode {L : Loop} {v : Versioned} {pb : Nat} {g : Func}
    {bs : List Nat} : ∀ (l : List Nat) (f : Func), f.Numbered → pb ∈ f.blocks →
      (∀ b ∈ bs, b ∈ f.blocks ∧ b ≠ pb) → (∀ d ∈ l, d < f.fresh ∧ mapId v.vmap d < f.fresh) →
      (∀ d ∈ l, ∀ b ∈ bs, ∀ u ∈ f.body b, Value.inst d ∉ (f.inst u).operands) →
      l.foldlM (addPHINode L v pb) f = .ok g → KeepsBlocks f g bs
  | [], f, _, _, _, _, _, h => by cases h; exact .refl _ _
  | d :: l, f, hf, hpb, hbs, hl, hu, h => by
    rw [List.foldlM_cons] at h
    obtain ⟨f', hstep, h⟩ := bind_eq_ok h
    obtain ⟨hd, hvd⟩ := hl d (List.mem_cons_self _ _)
    obtain ⟨hn', hle⟩ := numbered_addPHINode hf hpb hd hvd hstep
    have hk := keepsBlocks_addPHINode hf hpb hbs (hu d (List.mem_cons_self _ _)) hstep
    have hbl := (addPHINode_sameEdges hf.inst_lt hstep).1.blocks
    refine hk.trans (keepsBlocks_foldlM_addPHINode l f' hn' (hbl ▸ hpb)
      (fun b hb => ⟨hbl ▸ (hbs b hb).1, (hbs b hb).2⟩)
      (fun d' hd' => (hl d' (List.mem_cons_of_mem _ hd')).imp (lt_of_lt_of_le · hle)
        (lt_of_lt_of_le · hle))
      (fun d' hd' b hb u hub => ?_) h)
    rw [hk.body b hb] at hub
    rw [hk.inst b hb u hub]
    exact hu d' (List.mem_cons_of_mem _ hd') b hb u hub

/-- `addPHINodes` keeps the blocks other than the exit block whose instructions use none of the
values it is given. -/
theorem keepsBlocks_addPHINodes {L : Loop} {v : Versioned} {defs : List Nat} {f g : Func}
    {X : Nat} {bs : List Nat} (hf : f.Numbered) (hX : L.getExitBlock f = some X)
    (hXb : X ∈ f.blocks) (hbs : ∀ b ∈ bs, b ∈ f.blocks ∧ b ≠ X)
    (hdefs : ∀ d ∈ defs, d < f.fresh ∧ mapId v.vmap d < f.fresh)
    (hu : ∀ d ∈ defs, ∀ b ∈ bs, ∀ u ∈ f.body b, Value.inst d ∉ (f.inst u).operands)
    (h : addPHINodes L v defs f = .ok g) : KeepsBlocks f g bs := by
  unfold addPHINodes at h
  simp only [hX] at h
  exact keepsBlocks_foldlM_addPHINode defs f hf hXb hbs hdefs hu h

/-! ## The fallback loop as a copy -/

namespace CopiedAs

variable {f g : Func} {σ : ValueMap} {bs : List Nat}

theorem succs (hc : CopiedAs f g σ bs) {b : Nat} (hb : b ∈ bs) :
    g.succs (mapId σ b) = (f.succs b).map (mapId σ) := by
  obtain ⟨c, hσ, -, hbody, hi⟩ := hc b hb
  rw [show mapId σ b = c by simp [mapId, hσ]]
  unfold Func.succs getTerminator
  rw [hbody, List.getLast?_map]
  cases ht : (f.body b).getLast? with
  | none => rfl
  | some t =>
    obtain ⟨ct, hσt, hct⟩ := hi t (List.mem_of_mem_getLast? ht)
    simp only [Option.map_some', mapId, hσt, Option.getD_some, hct, Inst.remap,
      filterMap_getBlock?_mapValue]

theorem mem_body (hc : CopiedAs f g σ bs) {b u : Nat} (hb : b ∈ bs) (hu : u ∈ g.body (mapId σ b)) :
    ∃ i ∈ f.body b, σ i = some u ∧ g.inst u = (f.inst i).remap σ := by
  obtain ⟨c, hσ, -, hbody, hi⟩ := hc b hb
  rw [show mapId σ b = c by simp [mapId, hσ], hbody] at hu
  obtain ⟨i, hib, rfl⟩ := List.mem_map.1 hu
  obtain ⟨c', hσi, hic⟩ := hi i hib
  simp only [mapId, hσi, Option.getD_some]
  exact ⟨i, hib, hσi, hic⟩

end CopiedAs

/-! ## The versioned path -/

theorem split_inst {st st₁ : PassState} {ph i : Nat}
    (h₁ : st₁ = if ((st.f.getSinglePredecessor ph).isNone || decide ((st.f.body ph).length ≠ 1)) = true
      then ⟨(st.f.splitBlock st.dt ph).1, (st.f.splitBlock st.dt ph).2.1⟩ else st)
    (hi : i < st.f.fresh) : ∃ inc, st₁.f.inst i = { st.f.inst i with incoming := inc } := by
  split_ifs at h₁ <;> subst h₁
  · exact @splitBlock_inst st.f st.dt ph i (by omega)
  · exact ⟨_, rfl⟩

theorem beforeCloneLoops_versioned {cfg : Config} {ord : IterOrder} {lai : AccessInfo} {L : Loop}
    {ph : Nat} {deps : List Dependence} {parts : List InstPartition} {ptp : List Int}
    {st st₁ st' : PassState} {dparts : List DistPartition}
    (h₁ : st₁ = if ((st.f.getSinglePredecessor ph).isNone || decide ((st.f.body ph).length ≠ 1)) = true
      then ⟨(st.f.splitBlock st.dt ph).1, (st.f.splitBlock st.dt ph).2.1⟩ else st)
    (hptp : computePartitionSetForPointers (setupPartitionIdOnInstructions ord parts) lai.pointers
      lai.instructionsForAccess = .ok ptp)
    (hchk : lai.needsAnyChecking ptp (if cfg.addMemcheckForStoreToLoadElimination then
      storeToLoadForwarding st₁.f lai.memoryInstructions deps else (∅, [])).2 = true)
    (h : beforeCloneLoops cfg ord lai L ph deps parts st = .ok (st', dparts)) :
    ∃ st₃ v f₄, versionLoop L st₁ = .ok (st₃, v) ∧
      addPHINodes L v (findDefsUsedOutsideOfLoop st.f L) st₃.f = .ok f₄ ∧
      (st'.f = f₄ ∨ ∃ scope fwd, st'.f = annotateNoAlias ord scope fwd dparts (newScope f₄).1) := by
  unfold beforeCloneLoops at h
  dsimp only at h
  rw [← h₁] at h
  generalize (if cfg.addMemcheckForStoreToLoadElimination = true then
    storeToLoadForwarding st₁.f lai.memoryInstructions deps else (∅, [])) = fw at h hchk
  obtain ⟨fwd, ptrs⟩ := fw
  obtain ⟨ptr, hptr, h⟩ := bind_eq_ok h
  rw [hptp, Except.ok.injEq] at hptr
  subst hptr
  rw [if_pos hchk] at h
  obtain ⟨⟨st₃, v⟩, hv, h⟩ := bind_eq_ok h
  obtain ⟨f₄, hphi, h⟩ := bind_eq_ok h
  refine ⟨st₃, v, f₄, hv, hphi, ?_⟩
  split at h <;> cases h
  · exact .inr ⟨_, _, rfl⟩
  · exact .inl rfl

/-! ## What the fallback loop holds -/

theorem Loop.contains_congr {L : Loop} {f g : Func} (h : ∀ b ∈ L.blocks, g.body b = f.body b)
    (i : Nat) : L.contains g i = L.contains f i := by
  refine Bool.eq_iff_iff.2 ?_
  simp only [Loop.contains, List.any_eq_true, decide_eq_true_eq]
  exact ⟨fun ⟨b, hb, hi⟩ => ⟨b, hb, h b hb ▸ hi⟩, fun ⟨b, hb, hi⟩ => ⟨b, hb, (h b hb).symm ▸ hi⟩⟩

namespace Versioning

variable {f g : Func} {L : Loop} {X : Nat} {σ : ValueMap} (hv : Versioning f g L X σ)
include hv

theorem mem_fallback {c : Nat} (hc : c ∈ L.blocks.map (mapId σ)) : c ∈ g.blocks ∧ f.fresh ≤ c := by
  obtain ⟨b, hb, rfl⟩ := List.mem_map.1 hc
  obtain ⟨c, hσ, hcb, -⟩ := hv.fallback b hb
  simp only [mapId, hσ, Option.getD_some]
  exact ⟨hcb, hv.vmap_ge b c hσ⟩

theorem fresh_le_of_mem_fallback {c u : Nat} (hc : c ∈ L.blocks.map (mapId σ)) (hu : u ∈ g.body c) :
    f.fresh ≤ u := by
  obtain ⟨b, hb, rfl⟩ := List.mem_map.1 hc
  obtain ⟨i, -, hσi, -⟩ := hv.fallback.mem_body hb hu
  exact hv.vmap_ge i u hσi

theorem vmap_of_contains {d : Nat} (hd : L.contains g d = true) : ∃ c, σ d = some c := by
  obtain ⟨b, hb, hdb⟩ := List.mem_flatMap.1 ((L.contains_iff g d).1 hd)
  obtain ⟨-, -, -, -, hi⟩ := hv.fallback b hb
  obtain ⟨c, hσ, -⟩ := hi d hdb
  exact ⟨c, hσ⟩

theorem fallback_operand {c u j : Nat} (hc : c ∈ L.blocks.map (mapId σ)) (hu : u ∈ g.body c)
    (hj : Value.inst j ∈ (g.inst u).operands) : (∃ j₀, σ j₀ = some j) ∨ L.contains g j = false := by
  obtain ⟨b, hb, rfl⟩ := List.mem_map.1 hc
  obtain ⟨i, -, -, hiu⟩ := hv.fallback.mem_body hb hu
  rw [hiu] at hj
  obtain ⟨j₀, -, rfl⟩ := Inst.mem_remap_operands hj
  cases hσ : σ j₀ with
  | some c => exact .inl ⟨j₀, by simp [mapId, hσ]⟩
  | none =>
    simp only [mapId, hσ, Option.getD_none]
    refine .inr (Bool.eq_false_iff.2 fun hd => ?_)
    obtain ⟨c, hc⟩ := hv.vmap_of_contains hd
    rw [hσ] at hc
    cases hc

theorem fallback_not_use {c u d : Nat} (hc : c ∈ L.blocks.map (mapId σ)) (hu : u ∈ g.body c)
    (hd : L.contains g d = true) (hdf : d < f.fresh) : Value.inst d ∉ (g.inst u).operands := fun h => by
  rcases hv.fallback_operand hc hu h with ⟨j₀, hj₀⟩ | h'
  · have := hv.vmap_ge j₀ d hj₀
    omega
  · rw [hd] at h'
    cases h'

theorem loop_outside_fallback {d c : Nat} (hd : L.contains g d = true) (hdf : d < f.fresh)
    (hc : c ∈ L.blocks.map (mapId σ)) :
    d ∉ g.body c ∧ ∀ u ∈ g.body c, Value.inst d ∉ (g.inst u).operands :=
  ⟨fun h => absurd (hv.fresh_le_of_mem_fallback hc h) (by omega),
    fun _ hu => hv.fallback_not_use hc hu hd hdf⟩

end Versioning

theorem KeepsBlocks.succs {f g : Func} {bs : List Nat} (hk : KeepsBlocks f g bs) {b : Nat}
    (hb : b ∈ bs) : g.succs b = f.succs b :=
  succs_of_operands (hk.body b hb) fun t ht => by rw [hk.inst b hb t (List.mem_of_mem_getLast? ht)]

/-! ## The steps after `versionLoop` -/

theorem keepsBlocks_scopes {ord : IterOrder} {dparts : List DistPartition} {f₄ k : Func}
    {bs : List Nat} (hk : k = f₄ ∨ ∃ scope fwd, k = annotateNoAlias ord scope fwd dparts (newScope f₄).1)
    (h : ∀ p ∈ dparts, ∀ i ∈ p.part.set, ∀ b ∈ bs, p.getNewInst i ∉ f₄.body b) :
    SameCfg f₄ k ∧ KeepsBlocks f₄ k bs := by
  rcases hk with rfl | ⟨scope, fwd, rfl⟩
  · exact ⟨.refl _, .refl _ _⟩
  · exact ⟨(sameCfg_newScope f₄).trans (sameCfg_annotateNoAlias ord _ _ _ _),
      (⟨fun _ _ => rfl, fun _ _ _ _ => rfl⟩ : KeepsBlocks f₄ (newScope f₄).1 bs).trans
        (keepsBlocks_annotateNoAlias ord scope fwd _ _ h)⟩

/-- After `cloneLoops` from `f` to `g`, the pruning keeps the blocks `bs`, as `g` has them from `f₀`,
when they hold no instruction of the loop and name no id from the counter of `f` on: the partitions
that `cloneLoops` copied collect ids from there on, and the last one, left on the loop, collects the
loop's own instructions. -/
theorem keepsBlocks_prune {L : Loop} {f f₀ g k : Func} {origPH pred X : Nat}
    {rs last : List DistPartition} {bs : List Nat} (hr : Relinked f g L origPH pred X rs)
    (hk : KeepsBlocks f₀ g bs) (hlast : ∀ q ∈ last, q.clonedLoop = none)
    (hlow : ∀ b ∈ bs, ∀ u ∈ f₀.body b,
      u < f.fresh ∧ ∀ j, Value.inst j ∈ (f₀.inst u).operands → j < f.fresh)
    (hloop : ∀ i ∈ L.insts f, ∀ b ∈ bs,
      i ∉ f₀.body b ∧ ∀ u ∈ f₀.body b, Value.inst i ∉ (f₀.inst u).operands)
    (h : removeUnusedInsts L (rs ++ last) g = .ok k) : KeepsBlocks f₀ k bs := by
  refine hk.trans (removeUnusedInsts_keepsBlocks _ g k (.refl _ _) (fun _ => List.Subset.refl _)
    (fun q hq i hi _ b hb => ?_) h)
  obtain ⟨b', hb', hib⟩ := List.mem_flatMap.1 hi
  rw [(hr.body b' (List.mem_cons_of_mem _ hb')).1] at hib
  suffices key : q.getNewInst i ∉ f₀.body b ∧
      ∀ u ∈ f₀.body b, Value.inst (q.getNewInst i) ∉ (f₀.inst u).operands by
    rw [hk.body b hb]
    exact ⟨key.1, fun u hu => hk.inst b hb u hu ▸ key.2 u hu⟩
  rcases List.mem_append.1 hq with hq | hq
  · obtain ⟨_, nl, -, hnl, hl⟩ := hr.link_of_mem hq
    obtain ⟨c, hσ, hfc, -⟩ := hl.copy.inst b' (List.mem_cons_of_mem _ hb') i hib
    simp only [DistPartition.getNewInst, hnl, mapId, hσ, Option.getD_some]
    exact ⟨fun h' => absurd (hlow b hb c h').1 (by omega),
      fun u hu h' => absurd ((hlow b hb u hu).2 c h') (by omega)⟩
  · simp only [DistPartition.getNewInst, hlast q hq]
    exact hloop i (List.mem_flatMap.2 ⟨b', hb', hib⟩) b hb

/-! ## The fallback loop when `processLoop` returns -/

/-- For a loop `processLoop` accepts and versions, the fallback loop that `versionLoop` makes is,
when `processLoop` returns, still the remapped copy of the loop as `versionLoop` found it: the loop's
blocks as before the split, its instructions as before but for the incoming blocks of PHIs. No step
after `versionLoop` changes a block of the fallback loop or an instruction in it (`KeepsBlocks`: no
metadata, no erased instruction, no operand or successor); its instruction operands are copies or
values from outside the loop, and its exits still go to the exit block `X`. -/
theorem distribute_keeps_fallback {cfg : Config} {ord : IterOrder} {lai : AccessInfo}
    {bnp : Nat → Bool} {L : Loop} {ph X : Nat} {deps : List Dependence}
    {parts : List InstPartition} {ptp : List Int} {st st₁ st' : PassState}
    (hf : st.f.Numbered) (hwf : L.WellFormed st.f) (hnd : L.blocks.Nodup)
    (hph : L.getLoopPreheader st.f = some ph) (hX : L.getExitBlock st.f = some X)
    (hpred : ∀ p, st.f.getSinglePredecessor ph = some p → p ∉ L.blocks)
    (hin : ∀ x ∈ lai.memoryInstructions, L.contains st.f x = true)
    (hparts : formPartitions cfg ord st.f L bnp lai.memoryInstructions deps = .ok (some parts))
    (h₁ : st₁ = if ((st.f.getSinglePredecessor ph).isNone || decide ((st.f.body ph).length ≠ 1)) = true
      then ⟨(st.f.splitBlock st.dt ph).1, (st.f.splitBlock st.dt ph).2.1⟩ else st)
    (hptp : computePartitionSetForPointers (setupPartitionIdOnInstructions ord parts) lai.pointers
      lai.instructionsForAccess = .ok ptp)
    (hchk : lai.needsAnyChecking ptp (if cfg.addMemcheckForStoreToLoadElimination then
      storeToLoadForwarding st₁.f lai.memoryInstructions deps else (∅, [])).2 = true)
    (h : distribute cfg ord lai L ph deps parts st = .ok st') :
    ∃ st₃ v, versionLoop L st₁ = .ok (st₃, v) ∧
      (∀ b ∈ L.blocks, st₃.f.body b = st.f.body b) ∧
      (∀ i < st.f.fresh, ∃ inc, st₃.f.inst i = { st.f.inst i with incoming := inc }) ∧
      CopiedAs st₃.f st'.f v.vmap L.blocks ∧
      KeepsBlocks st₃.f st'.f (L.blocks.map (mapId v.vmap)) ∧
      (∀ b ∈ L.blocks, ∀ u ∈ st'.f.body (mapId v.vmap b), ∀ j, Value.inst j ∈ (st'.f.inst u).operands →
        (∃ j₀, v.vmap j₀ = some j) ∨ L.contains st.f j = false) ∧
      ∀ b ∈ L.blocks, X ∈ st.f.succs b → X ∈ st'.f.succs (mapId v.vmap b) := by
  rw [distribute_eq] at h
  obtain ⟨⟨st₂, dparts⟩, hb, h⟩ := bind_eq_ok h
  obtain ⟨⟨stc, ps⟩, hc, h⟩ := bind_eq_ok h
  obtain ⟨f', hr, h⟩ := bind_eq_ok h
  cases h
  obtain ⟨he, rfl⟩ := beforeCloneLoops_entry hf hwf.blocks_sub hnd hph hX hpred hb
  obtain ⟨st₃, v, f₄, hv, hphi, hst₂⟩ := beforeCloneLoops_versioned h₁ hptp hchk hb
  have he₁ := split_entry hf hwf.blocks_sub hph hX hpred h₁
  have hvs := versionLoop_spec he₁.numbered he₁.blocks_sub hnd
    (he₁.checks.elim fun _ h => h.elim fun _ h => h.1.exit) hv
  set σ := v.vmap
  set F := L.blocks.map (mapId σ)
  have hfr₁ := he₁.fresh_le
  have hbody : ∀ b ∈ L.blocks, st₃.f.body b = st.f.body b := fun b hb =>
    (hvs.body b hb).trans (he₁.body b hb)
  have hinst : ∀ i < st.f.fresh, ∃ inc, st₃.f.inst i = { st.f.inst i with incoming := inc } :=
    fun i hi => by
      obtain ⟨inc₁, h₁i⟩ := split_inst h₁ hi
      obtain ⟨inc, hinc⟩ := hvs.inst i (lt_of_lt_of_le hi hfr₁)
      exact ⟨inc, by rw [hinc, h₁i]⟩
  -- an instruction of the loop is old, and the fallback loop neither holds nor uses it
  have hold : ∀ i, L.contains st.f i = true → i < st₁.f.fresh := fun i hi => by
    obtain ⟨b, hb, hib⟩ := List.mem_flatMap.1 ((L.contains_iff st.f i).1 hi)
    exact lt_of_lt_of_le (hf.mem_body_lt (hwf.blocks_sub b hb) hib) hfr₁
  have hloop : ∀ i, L.contains st.f i = true → ∀ c ∈ F, i ∉ st₃.f.body c ∧
      ∀ u ∈ st₃.f.body c, Value.inst i ∉ (st₃.f.inst u).operands := fun i hi _ =>
    hvs.loop_outside_fallback ((Loop.contains_congr hbody i).trans hi) (hold i hi)
  -- `addPHINodes`: the exit PHIs are in `X`, and the uses they take over are of the loop's values
  obtain ⟨p, pred, hcp₃, hpX, hpred₁⟩ := hvs.checks
  obtain ⟨-, ⟨xb, hxb, hXs⟩, -⟩ := L.getExitBlock_spec st.f hX
  have hXlt : X < st₁.f.fresh :=
    lt_of_lt_of_le (hf.block_lt X (hf.succs_sub xb (hwf.blocks_sub xb hxb) X hXs)) hfr₁
  obtain ⟨-, ⟨xb₃, hxb₃, hXs₃⟩, -⟩ := L.getExitBlock_spec st₃.f hcp₃.exit
  have hXb : X ∈ st₃.f.blocks := hvs.numbered.succs_sub xb₃ (hvs.blocks_sub xb₃ hxb₃) X hXs₃
  have hdefs : ∀ d ∈ findDefsUsedOutsideOfLoop st.f L,
      d < st₃.f.fresh ∧ mapId σ d < st₃.f.fresh := fun d hd => by
    have hdL := contains_of_mem_findDefsUsedOutsideOfLoop hd
    obtain ⟨c, hσ⟩ := hvs.vmap_of_contains ((Loop.contains_congr hbody d).trans hdL)
    simp only [mapId, hσ, Option.getD_some]
    exact ⟨lt_of_lt_of_le (hold d hdL) hvs.fresh_le, hvs.vmap_lt d c hσ⟩
  have hk₄ : KeepsBlocks st₃.f f₄ F := keepsBlocks_addPHINodes hvs.numbered hcp₃.exit hXb
    (fun c hc => ⟨(hvs.mem_fallback hc).1, fun h' => by have := (hvs.mem_fallback hc).2; omega⟩)
    hdefs (fun d hd c hc => (hloop d (contains_of_mem_findDefsUsedOutsideOfLoop hd) c hc).2) hphi
  have hfr₄ := (numbered_addPHINodes hvs.numbered hcp₃.exit hXb hdefs hphi).2
  obtain ⟨he₄, hb₄⟩ := addPHINodes_sameEdges hvs.numbered.inst_lt hcp₃.exit hphi
  -- the scopes go on the partitions' instructions, of the loop
  obtain ⟨hcfg₂, hk₂⟩ := keepsBlocks_scopes hst₂ fun q hq i hi c hc => by
    obtain ⟨q, hqp, rfl⟩ := List.mem_map.1 hq
    obtain ⟨k, hk, rfl⟩ := List.getElem_of_mem hqp
    rw [hk₄.body c hc]
    exact (hloop i (contains_of_mem_formPartitions hwf hin hparts (q := k)
      (show i ∈ setAt parts k by rw [setAt_eq_getElem hk]; exact hi)) c hc).1
  have hcp₂ : ClonePre st₂.f L p pred X :=
    (hcp₃.of_sameEdges he₄ hvs.blocks_sub (hb₄ p hpX)).of_sameCfg hcfg₂
  have hbl₂ : ∀ b ∈ st₃.f.blocks, b ∈ st₂.f.blocks := fun b hb => by
    rw [hcfg₂.blocks, he₄.blocks]; exact hb
  -- `cloneLoops`: the chain is on new blocks, and the relinked branch ends `pred`, of `st₁`
  have hv₀ : ∀ q ∈ parts.map fun p => ({ part := p } : DistPartition), q.vmap = fun _ => none :=
    fun q hq => by obtain ⟨_, -, rfl⟩ := List.mem_map.1 hq; rfl
  have hkc := keepsBlocks_cloneLoops he.numbered he.blocks_sub hnd hcp₂.preheader hcp₂.single_pred
    hcp₂.exit (fun h' => hpX h'.symm) hv₀ (fun c hc => hbl₂ c (hvs.mem_fallback hc).1)
    (fun h' => by have := (hvs.mem_fallback h').2; have := he₁.numbered.block_lt pred hpred₁; omega) hc
  obtain ⟨rs, hrl, -, rfl⟩ := cloneLoops_relinked he.numbered he.blocks_sub hnd hcp₂.preheader
    hcp₂.single_pred hcp₂.exit (fun h' => hpX h'.symm) hv₀ hc
  -- the pruning: the fallback loop names only ids below the counter of `st₂`, and none of the loop
  have hk := keepsBlocks_prune hrl ((hk₄.trans hk₂).trans hkc) (fun q hq => by
      obtain ⟨_, -, rfl⟩ := List.mem_map.1 (List.mem_of_mem_getLast? (Option.mem_toList.1 hq)); rfl)
    (fun c hc u hu => by
      have hcb := (hvs.mem_fallback hc).1
      have := hcfg₂.fresh_le
      exact ⟨by have := hvs.numbered.mem_body_lt hcb hu; omega, fun j hj => by
        have := hvs.numbered.operand_lt u (mem_allInsts.2 ⟨c, hcb, hu⟩) _ hj j rfl; omega⟩)
    (fun i hi => hloop i (by rw [← Loop.contains_congr he.body]; exact (L.contains_iff _ i).2 hi)) hr
  refine ⟨st₃, v, hv, hbody, hinst, hvs.fallback.keeps hk fun b hb => ?_, hk,
    fun b hb u hu j hj => ?_, fun b hb hXb' => ?_⟩
  · rw [removeUnusedInsts_blocks _ _ _ hr]
    exact (hrl.mem_blocks b).2 (.inl (hbl₂ b hb))
  · have hc := List.mem_map_of_mem (mapId σ) hb
    rw [hk.body _ hc] at hu
    rw [hk.inst _ hc u hu] at hj
    rw [← Loop.contains_congr hbody]
    exact hvs.fallback_operand hc hu hj
  · -- the copy of a block branches to the images of its successors, and `σ` leaves `X` alone
    have hc := List.mem_map_of_mem (mapId σ) hb
    rw [hk.succs hc, hvs.fallback.succs hb, succs_of_operands (hbody b hb) fun t ht => ?_]
    · exact List.mem_map.2 ⟨X, hXb', by simp [mapId, hvs.vmap_exit]⟩
    · obtain ⟨inc, hinc⟩ := hinst t (hf.mem_body_lt (hwf.blocks_sub b hb) (List.mem_of_mem_getLast? ht))
      rw [hinc]

/-- `fourAccessFunc` versioned and distributed: the fallback loop is the copy of block 1 made by
`versionLoop`, and branches to the exit block 2. -/
theorem distribute_keeps_fallback_fourAccess :
    ∃ parts ptp st', formPartitions {} .ascending fourAccessFunc fourAccessLoop (fun _ => false)
        [12, 13, 14, 15] [⟨1, 2, true⟩] = .ok (some parts) ∧
      computePartitionSetForPointers (setupPartitionIdOnInstructions .ascending parts) [] (fun _ _ => [])
        = .ok ptp ∧
      distribute {} .ascending (fourAccessInfo [12, 13, 14, 15] [⟨1, 2, true⟩] true) fourAccessLoop 0
        [⟨1, 2, true⟩] parts ⟨fourAccessFunc, fourAccessDomTree⟩ = .ok st' ∧
      ∃ st₃ v, versionLoop fourAccessLoop splitFourAccess = .ok (st₃, v) ∧
        (∀ b ∈ fourAccessLoop.blocks, st₃.f.body b = fourAccessFunc.body b) ∧
        (∀ i < fourAccessFunc.fresh, ∃ inc, st₃.f.inst i = { fourAccessFunc.inst i with incoming := inc }) ∧
        CopiedAs st₃.f st'.f v.vmap fourAccessLoop.blocks ∧
        KeepsBlocks st₃.f st'.f (fourAccessLoop.blocks.map (mapId v.vmap)) ∧
        (∀ b ∈ fourAccessLoop.blocks, ∀ u ∈ st'.f.body (mapId v.vmap b), ∀ j,
          Value.inst j ∈ (st'.f.inst u).operands →
            (∃ j₀, v.vmap j₀ = some j) ∨ fourAccessLoop.contains fourAccessFunc j = false) ∧
        ∀ b ∈ fourAccessLoop.blocks, 2 ∈ fourAccessFunc.succs b →
          2 ∈ st'.f.succs (mapId v.vmap b) := by
  obtain ⟨parts, st', hp, hd⟩ : ∃ parts st', formPartitions {} .ascending fourAccessFunc fourAccessLoop
      (fun _ => false) [12, 13, 14, 15] [⟨1, 2, true⟩] = .ok (some parts) ∧
      distribute {} .ascending (fourAccessInfo [12, 13, 14, 15] [⟨1, 2, true⟩] true) fourAccessLoop 0
        [⟨1, 2, true⟩] parts ⟨fourAccessFunc, fourAccessDomTree⟩ = .ok st' := ⟨_, _, rfl, rfl⟩
  exact ⟨parts, [], st', hp, rfl, hd, @distribute_keeps_fallback {} .ascending
    (fourAccessInfo [12, 13, 14, 15] [⟨1, 2, true⟩] true) (fun _ => false) fourAccessLoop 0 2
    [⟨1, 2, true⟩] parts [] ⟨fourAccessFunc, fourAccessDomTree⟩ splitFourAccess st' (by decide)
    ⟨by decide, by decide, by decide, by decide⟩ (by decide) rfl rfl (fun _ h => nomatch h)
    (by decide) hp rfl rfl rfl hd⟩

end Llvm.LoopDistribute
