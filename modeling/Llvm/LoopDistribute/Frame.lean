import Llvm.LoopDistribute.Numbering

/-!
# `processLoop` leaves the rest of the function alone

`distribute` rewrites the loop, makes its copies on new blocks, and writes three blocks around it:
the preheader (split, then the memcheck block), the exit block (its PHIs), and the preheader's
single predecessor (relinked to the chain of copies). A block apart from all of these that uses no
value of the loop (`Apart`) keeps its body and every instruction in it (`KeepsBlocks`), through
each step of the pass:

* `keepsBlocks_splitBlock`, `split_keepsBlocks` : a split writes the split block, two new ids and
  the PHIs of its successors, here the header;
* `keepsBlocks_remapInstructionsInLoop`, `versionLoop_keepsBlocks` : versioning writes the
  memcheck block, the copy of the loop and its new ids;
* `beforeCloneLoops_keepsBlocks` : with the exit PHIs and the scopes, on both paths, leaving a
  preheader whose single predecessor is not one of the blocks;
* `distribute_keepsBlocks`, `processLoop_keeps_apart` : with the chain of copies and the pruning,
  on every run of `processLoop`.
-/

namespace Llvm

namespace Func

theorem splitBlock_inst_of_not_mem {f : Func} {dt : DomTree} {old i : Nat} (hi : i ≠ f.fresh + 1)
    (h : ∀ s ∈ f.succs old, i ∉ (f.splitBlock dt old).1.body s) :
    (f.splitBlock dt old).1.inst i = f.inst i := by
  unfold splitBlock renamePhiIncoming
  dsimp only
  rw [Function.update_noteq hi, if_neg]
  simp only [Bool.and_eq_true, List.any_eq_true, decide_eq_true_eq, not_and]
  exact fun ⟨s, hs, his⟩ => absurd his (h s hs)

end Func

theorem Loop.not_mem_succs_preheader {L : Loop} {f : Func} {ph b : Nat}
    (hph : L.getLoopPreheader f = some ph) (hb : b ∉ L.blocks) : b ∉ f.succs ph := by
  obtain ⟨hd, hhd, -, -, hps, -⟩ := L.getLoopPreheader_spec f hph
  rw [hps, List.mem_singleton]
  exact fun h' => hb (h' ▸ List.mem_of_mem_head? hhd)

namespace LoopDistribute

open Func

theorem keepsBlocks_splitBlock {f : Func} (dt : DomTree) {old : Nat} {bs : List Nat}
    (hf : f.Numbered) (hold : old ∈ f.blocks)
    (hbs : ∀ b ∈ bs, b ∈ f.blocks ∧ b ≠ old ∧ b ∉ f.succs old) :
    KeepsBlocks f (f.splitBlock dt old).1 bs := by
  refine ⟨fun b hb => splitBlock_body_of_ne hf (hbs b hb).1 (hbs b hb).2.1, fun b hb u hu => ?_⟩
  obtain ⟨hbf, hbo, hbs'⟩ := hbs b hb
  have hlt : u < f.fresh := hf.mem_body_lt hbf hu
  -- `u` lies in no successor of `old`, and only their PHIs are renamed
  have hns : ∀ s ∈ f.succs old, u ∉ (f.splitBlock dt old).1.body s := fun s hs hus => by
    have hsb := hf.succs_sub old hold s hs
    by_cases hso : s = old
    · subst hso
      rw [splitBlock_body, Function.update_same] at hus
      rcases List.mem_append.1 hus with hus | hus
      · exact hbo (hf.eq_of_mem_body hbf hold hu (List.mem_of_mem_dropLast hus))
      · rw [List.mem_singleton] at hus; omega
    · rw [splitBlock_body_of_ne hf hsb hso] at hus
      exact hbs' (hf.eq_of_mem_body hbf hsb hu hus ▸ hs)
  exact splitBlock_inst_of_not_mem (by omega) hns

theorem keepsBlocks_remapInstructionsInLoop {g : Func} {nb bs : List Nat} (hg : g.Numbered)
    (hnb : ∀ c ∈ nb, c ∈ g.blocks) (hnd : nb.Nodup) (hbs : ∀ b ∈ bs, b ∈ g.blocks ∧ b ∉ nb)
    (σ : ValueMap) : KeepsBlocks g (g.remapInstructionsInLoop nb σ) bs :=
  ⟨fun _ _ => by rw [remapInstructionsInLoop_body], fun b hb u hu => by
    rw [remapInstructionsInLoop_inst σ g nb (hg.nodup_flatMap_body hnb hnd), if_neg fun h' => ?_]
    obtain ⟨c, hc, huc⟩ := List.mem_flatMap.1 h'
    exact (hbs b hb).2 (hg.eq_of_mem_body (hbs b hb).1 (hnb c hc) hu huc ▸ hc)⟩

theorem Cloned.fresh_le {f g : Func} {L : Loop} {origPH : Nat} {σ : ValueMap} {bl : List Nat}
    (h : Cloned f g L origPH σ bl) : ∀ c ∈ bl, f.fresh ≤ c := fun c hc => by
  rw [h.newBlocks_eq] at hc
  obtain ⟨b, hb, rfl⟩ := List.mem_map.1 hc
  obtain ⟨c, hσ, -, hfc, -⟩ := h.copy.block b hb
  simpa [mapId, hσ] using hfc

/-- `versionLoop` keeps the blocks outside the loop other than the memcheck block, the preheader it
is given: the check and the branch go in the memcheck block, the split renames it in the PHIs of
the header, and the copy and its remapping are on new blocks. -/
theorem versionLoop_keepsBlocks {L : Loop} {st st' : PassState} {v : Versioned} {bs : List Nat}
    (hf : st.f.Numbered) (hL : ∀ b ∈ L.blocks, b ∈ st.f.blocks) (hnd : L.blocks.Nodup)
    (hbs : ∀ b ∈ bs, b ∈ st.f.blocks ∧ b ∉ L.blocks ∧ L.getLoopPreheader st.f ≠ some b)
    (h : versionLoop L st = .ok (st', v)) :
    KeepsBlocks st.f st'.f bs ∧ ∀ b ∈ st.f.blocks, b ∈ st'.f.blocks := by
  unfold versionLoop at h
  rcases hm : L.getLoopPreheader st.f with _ | m <;> simp only [hm] at h
  · cases h
  obtain ⟨⟨st₃, σ, nonDist, bl⟩, hcl, h⟩ := bind_eq_ok h
  dsimp only at h
  obtain ⟨-, -, hmb, -, -, -⟩ := L.getLoopPreheader_spec st.f hm
  have hbm : ∀ b ∈ bs, b ≠ m := fun b hb h' => (hbs b hb).2.2 (h' ▸ hm)
  -- the check, then the split of `m`, which renames `m` only in the PHIs of the header
  have hn₁ : (addRuntimeCheck st.f m).1.Numbered := numbered_addRuntimeCheck hf hmb
  have hk₁ : KeepsBlocks st.f (addRuntimeCheck st.f m).1 bs :=
    keepsBlocks_branch hf (fun b hb => (hbs b hb).1) (fun h' => hbm m h' rfl) _ _
  have hk₂ : KeepsBlocks _ ((addRuntimeCheck st.f m).1.splitBlock st.dt m).1 bs :=
    keepsBlocks_splitBlock st.dt hn₁ hmb fun b hb => ⟨(hbs b hb).1, hbm b hb, by
      rw [(addRuntimeCheck_sameEdges hf).succs m hmb]
      exact L.not_mem_succs_preheader hm (hbs b hb).2.1⟩
  -- the copy, on new blocks, whose instructions alone are remapped
  have hmem₂ : ∀ b, b ∈ ((addRuntimeCheck st.f m).1.splitBlock st.dt m).1.blocks ↔
      b = (addRuntimeCheck st.f m).1.fresh ∨ b ∈ st.f.blocks :=
    fun b => mem_splitBlock_blocks hn₁ hmb
  have hb₂ : ∀ b ∈ st.f.blocks, b ∈ ((addRuntimeCheck st.f m).1.splitBlock st.dt m).1.blocks :=
    fun b hb => (hmem₂ b).2 (.inr hb)
  have hn₂ : ((addRuntimeCheck st.f m).1.splitBlock st.dt m).1.Numbered := hn₁.splitBlock hmb
  obtain ⟨_, -, hc, -⟩ := cloneLoopWithPreheader_spec hcl hn₂
    (fun b hb => hb₂ b (hL b hb)) hnd ((hmem₂ _).2 (.inl rfl))
  have hk₃ := hk₂.trans (KeepsBlocks.of_extends hn₂ (fun b hb => hb₂ b (hbs b hb).1) hc.ext)
  have hfr : st.f.fresh ≤ ((addRuntimeCheck st.f m).1.splitBlock st.dt m).1.fresh :=
    Nat.le_add_right_of_le (Nat.le_succ _)
  have hk₄ : KeepsBlocks st₃.f (st₃.f.remapInstructionsInLoop bl σ) bs :=
    keepsBlocks_remapInstructionsInLoop hc.numbered (fun c hc' => (hc.mem_blocks c).2 (.inr hc'))
      hc.nodup (fun b hb => ⟨hc.ext.blocks b (hb₂ b (hbs b hb).1), fun h' =>
        absurd (hf.block_lt b (hbs b hb).1) (not_lt.2 (hfr.trans (hc.fresh_le b h')))⟩) σ
  rcases hn : nonDist.getLoopPreheader (st₃.f.remapInstructionsInLoop bl σ) with _ | nph <;>
    simp only [hn] at h
  · cases h
  rcases ho : L.getLoopPreheader (st₃.f.remapInstructionsInLoop bl σ) with _ | oph <;>
    simp only [ho] at h
  · cases h
  split_ifs at h
  · cases h
  -- the branch on the check ends `m`, at a new id
  split at h
  · cases h
    refine ⟨(hk₁.trans hk₃).trans (hk₄.trans ⟨fun b hb => Function.update_noteq (hbm b hb) _ _,
      fun b hb u hu => Function.update_noteq ?_ _ _⟩), fun b hb => ?_⟩
    · rw [hk₄.body b hb] at hu
      rw [remapInstructionsInLoop_fresh]
      exact (hc.numbered.mem_body_lt (hc.ext.blocks b (hb₂ b (hbs b hb).1)) hu).ne
    · show b ∈ (st₃.f.remapInstructionsInLoop bl σ).blocks
      rw [remapInstructionsInLoop_blocks]
      exact hc.ext.blocks b (hb₂ b hb)
  · cases h

/-- A block apart from what `distribute` writes for the loop `L` with the preheader `ph` and the
exit block `X`: a block of the function outside the loop, neither the preheader, nor the exit block,
nor the preheader's single predecessor, whose instructions use no value of the loop. -/
structure Apart (f : Func) (L : Loop) (ph X b : Nat) : Prop where
  mem : b ∈ f.blocks
  not_loop : b ∉ L.blocks
  ne_preheader : b ≠ ph
  ne_exit : b ≠ X
  not_pred : f.getSinglePredecessor ph ≠ some b
  no_use : ∀ u ∈ f.body b, ∀ j, L.contains f j = true → Value.inst j ∉ (f.inst u).operands

theorem Apart.not_mem_body {f : Func} {L : Loop} {ph X b i : Nat} (hf : f.Numbered)
    (hwf : L.WellFormed f) (hb : Apart f L ph X b) (hi : L.contains f i = true) : i ∉ f.body b := by
  intro hib
  obtain ⟨c, hc, hic⟩ := List.mem_flatMap.1 ((L.contains_iff f i).1 hi)
  exact hb.not_loop (hf.eq_of_mem_body hb.mem (hwf.blocks_sub c hc) hib hic ▸ hc)

/-- The split of line 1001 keeps the blocks apart from the loop: it writes the preheader, a new
block, and the PHIs of the header. After it, neither the preheader nor its single predecessor is
one of them. -/
theorem split_keepsBlocks {L : Loop} {st st₁ : PassState} {ph X : Nat} {bs : List Nat}
    (hf : st.f.Numbered) (hL : ∀ b ∈ L.blocks, b ∈ st.f.blocks)
    (hph : L.getLoopPreheader st.f = some ph) (hbs : ∀ b ∈ bs, Apart st.f L ph X b)
    (h₁ : st₁ = if ((st.f.getSinglePredecessor ph).isNone || decide ((st.f.body ph).length ≠ 1)) = true
      then ⟨(st.f.splitBlock st.dt ph).1, (st.f.splitBlock st.dt ph).2.1⟩ else st) :
    KeepsBlocks st.f st₁.f bs ∧ (∀ b ∈ st.f.blocks, b ∈ st₁.f.blocks) ∧ ∃ ph₁ pred₁,
      L.getLoopPreheader st₁.f = some ph₁ ∧ st₁.f.getSinglePredecessor ph₁ = some pred₁ ∧
      ∀ b ∈ bs, b ≠ ph₁ ∧ b ≠ pred₁ := by
  obtain ⟨-, -, hpb, -, -, -⟩ := L.getLoopPreheader_spec st.f hph
  split_ifs at h₁ with hc <;> subst h₁
  · obtain ⟨hph', hpred, -, -⟩ := splitBlock_preheader st.dt hf hL hph
    exact ⟨keepsBlocks_splitBlock st.dt hf hpb fun b hb => ⟨(hbs b hb).mem, (hbs b hb).ne_preheader,
        L.not_mem_succs_preheader hph (hbs b hb).not_loop⟩,
      fun b hb => (@mem_splitBlock_blocks st.f st.dt ph hf hpb b).2 (.inr hb), st.f.fresh, ph, hph',
      hpred,
      fun b hb => ⟨(hf.block_lt b (hbs b hb).mem).ne, (hbs b hb).ne_preheader⟩⟩
  · simp only [Bool.or_eq_true, Option.isNone_iff_eq_none, decide_eq_true_eq, not_or, not_not] at hc
    obtain ⟨pred, hpred⟩ := Option.ne_none_iff_exists'.1 hc.1
    exact ⟨.refl _ _, fun _ hb => hb, ph, pred, hph, hpred,
      fun b hb => ⟨(hbs b hb).ne_preheader, fun h' => (hbs b hb).not_pred (h' ▸ hpred)⟩⟩

/-- `beforeCloneLoops` keeps the blocks apart from the loop, on both of its paths: the split, then
`versionLoop`, the exit PHIs and the scopes when the checks are needed. The preheader it leaves has
a single predecessor that is not one of them, so `cloneLoops` relinks none of them. -/
theorem beforeCloneLoops_keepsBlocks {cfg : Config} {ord : IterOrder} {lai : AccessInfo}
    {bnp : Nat → Bool} {L : Loop} {ph X : Nat} {deps : List Dependence} {parts : List InstPartition}
    {st st' : PassState} {dparts : List DistPartition} {bs : List Nat}
    (hf : st.f.Numbered) (hwf : L.WellFormed st.f) (hnd : L.blocks.Nodup)
    (hph : L.getLoopPreheader st.f = some ph) (hX : L.getExitBlock st.f = some X)
    (hpred : ∀ p, st.f.getSinglePredecessor ph = some p → p ∉ L.blocks)
    (hin : ∀ x ∈ lai.memoryInstructions, L.contains st.f x = true)
    (hparts : formPartitions cfg ord st.f L bnp lai.memoryInstructions deps = .ok (some parts))
    (hbs : ∀ b ∈ bs, Apart st.f L ph X b)
    (h : beforeCloneLoops cfg ord lai L ph deps parts st = .ok (st', dparts)) :
    KeepsBlocks st.f st'.f bs ∧ (∀ b ∈ bs, b ∈ st'.f.blocks) ∧
      ∀ origPH pred, L.getLoopPreheader st'.f = some origPH →
        st'.f.getSinglePredecessor origPH = some pred → pred ∉ bs := by
  unfold beforeCloneLoops at h
  obtain ⟨ptr, -, h⟩ := bind_eq_ok h
  dsimp only at h
  generalize hst₁ : (if ((st.f.getSinglePredecessor ph).isNone || decide ((st.f.body ph).length ≠ 1)) = true
    then (⟨(st.f.splitBlock st.dt ph).1, (st.f.splitBlock st.dt ph).2.1⟩ : PassState) else st) = st₁ at h
  obtain ⟨hk₁, hbl₁, ph₁, pred₁, hph₁, hpred₁, hout₁⟩ :=
    split_keepsBlocks hf hwf.blocks_sub hph hbs hst₁.symm
  have he₁ := split_entry hf hwf.blocks_sub hph hX hpred hst₁.symm
  -- a block apart from the loop holds none of its instructions
  have hnot : ∀ i, L.contains st.f i = true → ∀ b ∈ bs, i ∉ st.f.body b :=
    fun i hi b hb => (hbs b hb).not_mem_body hf hwf hi
  split at h
  · -- the versioned path
    obtain ⟨⟨st₃, v⟩, hv, h⟩ := bind_eq_ok h
    obtain ⟨f₄, hphi, h⟩ := bind_eq_ok h
    have hvs := versionLoop_spec he₁.numbered he₁.blocks_sub hnd
      (he₁.checks.elim fun _ h => h.elim fun _ h => h.1.exit) hv
    obtain ⟨hk₃, hbl₃⟩ := versionLoop_keepsBlocks he₁.numbered he₁.blocks_sub hnd
      (fun b hb => ⟨hbl₁ b (hbs b hb).mem, (hbs b hb).not_loop,
        fun h' => (hout₁ b hb).1 (Option.some.inj (h'.symm.trans hph₁))⟩) hv
    have hk := hk₁.trans hk₃
    obtain ⟨p, _, hcp₃, hpX, -⟩ := hvs.checks
    obtain ⟨o, hcp₃'⟩ := hvs.memcheck ph₁ hph₁
    obtain rfl : o = p := Option.some.inj (hcp₃'.preheader.symm.trans hcp₃.preheader)
    -- the exit PHIs take over uses of the loop's values, which the blocks do not make
    obtain ⟨-, ⟨xb, hxb, hXs⟩, -⟩ := L.getExitBlock_spec st₃.f hcp₃.exit
    have hXb : X ∈ st₃.f.blocks := hvs.numbered.succs_sub xb (hvs.blocks_sub xb hxb) X hXs
    have hdefs : ∀ d ∈ findDefsUsedOutsideOfLoop st.f L,
        d < st₃.f.fresh ∧ mapId v.vmap d < st₃.f.fresh := fun d hd => by
      obtain ⟨b, hb, hdb⟩ := List.mem_flatMap.1 ((L.contains_iff st.f d).1
        (contains_of_mem_findDefsUsedOutsideOfLoop hd))
      have hlt := lt_of_lt_of_le (hf.mem_body_lt (hwf.blocks_sub b hb) hdb)
        (he₁.fresh_le.trans hvs.fresh_le)
      refine ⟨hlt, ?_⟩
      unfold mapId
      cases hvd : v.vmap d with
      | none => exact hlt
      | some c => exact hvs.vmap_lt d c hvd
    have hk₄ := keepsBlocks_addPHINodes hvs.numbered hcp₃.exit hXb
      (fun b hb => ⟨hbl₃ b (hbl₁ b (hbs b hb).mem), (hbs b hb).ne_exit⟩) hdefs
      (fun d hd b hb u hu => by
        rw [hk.body b hb] at hu
        rw [hk.inst b hb u hu]
        exact (hbs b hb).no_use u hu d (contains_of_mem_findDefsUsedOutsideOfLoop hd)) hphi
    obtain ⟨he₄, hb₄⟩ := addPHINodes_sameEdges hvs.numbered.inst_lt hcp₃.exit hphi
    -- the scopes go on the partitions' instructions, of the loop
    have hst₂ : st'.f = f₄ ∨
        ∃ scope fwd, st'.f = annotateNoAlias ord scope fwd dparts (newScope f₄).1 := by
      split at h <;> cases h
      exacts [.inr ⟨_, _, rfl⟩, .inl rfl]
    have hdp : dparts = parts.map fun p => { part := p } := by split at h <;> cases h <;> rfl
    obtain ⟨hcfg₂, hk₂⟩ := keepsBlocks_scopes hst₂ fun q hq i hi c hc => by
      obtain ⟨q, hqp, rfl⟩ := List.mem_map.1 (hdp ▸ hq)
      obtain ⟨k, hk', rfl⟩ := List.getElem_of_mem hqp
      rw [hk₄.body c hc, hk.body c hc]
      exact hnot i (contains_of_mem_formPartitions hwf hin hparts (q := k)
        (show i ∈ setAt parts k by rw [setAt_eq_getElem hk']; exact hi)) c hc
    have hcp₂ := (hcp₃'.of_sameEdges he₄ hvs.blocks_sub (hb₄ _ hpX)).of_sameCfg hcfg₂
    refine ⟨(hk.trans hk₄).trans hk₂, fun b hb => ?_, fun o q ho hq hqb => ?_⟩
    · rw [hcfg₂.blocks, he₄.blocks]
      exact hbl₃ b (hbl₁ b (hbs b hb).mem)
    · obtain rfl := Option.some.inj (ho.symm.trans hcp₂.preheader)
      exact (hout₁ q hqb).1 (Option.some.inj (hq.symm.trans hcp₂.single_pred))
  · -- no checks: the state after the split
    cases h
    exact ⟨hk₁, fun b hb => hbl₁ b (hbs b hb).mem, fun o q ho hq hqb => by
      obtain rfl := Option.some.inj (ho.symm.trans hph₁)
      exact (hout₁ q hqb).2 (Option.some.inj (hq.symm.trans hpred₁))⟩

/-- `distribute` keeps the blocks apart from the loop: the chain of copies is on new blocks and
relinks the preheader's predecessor, and the pruning erases instructions of the loop and of its
copies only. -/
theorem distribute_keepsBlocks {cfg : Config} {ord : IterOrder} {lai : AccessInfo}
    {bnp : Nat → Bool} {L : Loop} {ph X : Nat} {deps : List Dependence} {parts : List InstPartition}
    {st st' : PassState} {bs : List Nat}
    (hf : st.f.Numbered) (hwf : L.WellFormed st.f) (hnd : L.blocks.Nodup)
    (hph : L.getLoopPreheader st.f = some ph) (hX : L.getExitBlock st.f = some X)
    (hpred : ∀ p, st.f.getSinglePredecessor ph = some p → p ∉ L.blocks)
    (hin : ∀ x ∈ lai.memoryInstructions, L.contains st.f x = true)
    (hparts : formPartitions cfg ord st.f L bnp lai.memoryInstructions deps = .ok (some parts))
    (hbs : ∀ b ∈ bs, Apart st.f L ph X b)
    (h : distribute cfg ord lai L ph deps parts st = .ok st') : KeepsBlocks st.f st'.f bs := by
  rw [distribute_eq] at h
  obtain ⟨⟨st₂, dparts⟩, hb, h⟩ := bind_eq_ok h
  obtain ⟨⟨stc, ps⟩, hc, h⟩ := bind_eq_ok h
  obtain ⟨f', hr, h⟩ := bind_eq_ok h
  cases h
  obtain ⟨hk₂, hbl₂, hout₂⟩ :=
    beforeCloneLoops_keepsBlocks hf hwf hnd hph hX hpred hin hparts hbs hb
  obtain ⟨he, rfl⟩ := beforeCloneLoops_entry hf hwf.blocks_sub hnd hph hX hpred hb
  obtain ⟨p, pred, hcp, hXp⟩ := he.checks
  have hv₀ : ∀ q ∈ parts.map fun p => ({ part := p } : DistPartition), q.vmap = fun _ => none :=
    fun q hq => by obtain ⟨_, -, rfl⟩ := List.mem_map.1 hq; rfl
  have hkc := keepsBlocks_cloneLoops he.numbered he.blocks_sub hnd hcp.preheader hcp.single_pred
    hcp.exit hXp hv₀ hbl₂ (hout₂ p pred hcp.preheader hcp.single_pred) hc
  obtain ⟨rs, hrl, -, rfl⟩ := cloneLoops_relinked he.numbered he.blocks_sub hnd hcp.preheader
    hcp.single_pred hcp.exit hXp hv₀ hc
  -- the pruning: the blocks name only ids below the counter of `st₂`, and none of the loop
  refine keepsBlocks_prune hrl (hk₂.trans hkc) (fun q hq => by
      obtain ⟨_, -, rfl⟩ := List.mem_map.1 (List.mem_of_mem_getLast? (Option.mem_toList.1 hq)); rfl)
    (fun b hb u hu => ⟨lt_of_lt_of_le (hf.mem_body_lt (hbs b hb).mem hu) he.fresh_le, fun j hj =>
      lt_of_lt_of_le (hf.operand_lt u (mem_allInsts.2 ⟨b, (hbs b hb).mem, hu⟩) _ hj j rfl)
        he.fresh_le⟩)
    (fun i hi b hb => ?_) hr
  have hiL : L.contains st.f i = true := by
    rw [← Loop.contains_congr he.body]; exact (L.contains_iff _ i).2 hi
  exact ⟨(hbs b hb).not_mem_body hf hwf hiL, fun u hu => (hbs b hb).no_use u hu i hiL⟩

/-- **`processLoop` leaves the rest of the function alone.** For a well-formed loop whose
preheader's single predecessor, if any, is outside it, and whose memory accesses are its own, every
block apart from the loop keeps its body and every instruction in it, with its operands, incoming
blocks and metadata: a block of the function outside the loop that is neither its preheader, nor its
exit block, nor the preheader's single predecessor, and whose instructions use no value of the
loop. Whatever `processLoop` does, the copies, the runtime checks, the exit PHIs, the scopes and the
pruning, it writes only the loop, its copies, those three blocks and blocks it creates. -/
theorem processLoop_keeps_apart {cfg : Config} {ord : IterOrder} {lai : AccessInfo}
    {bnp : Nat → Bool} {L : Loop} {st st' : PassState} {b : Bool} {bs : List Nat}
    (hf : st.f.Numbered) (hwf : L.WellFormed st.f) (hnd : L.blocks.Nodup)
    (hpred : ∀ ph p, L.getLoopPreheader st.f = some ph → st.f.getSinglePredecessor ph = some p →
      p ∉ L.blocks)
    (hin : ∀ x ∈ lai.memoryInstructions, L.contains st.f x = true)
    (hbs : ∀ c ∈ bs, ∀ ph X, L.getLoopPreheader st.f = some ph → L.getExitBlock st.f = some X →
      Apart st.f L ph X c)
    (h : processLoop cfg ord lai bnp L st = .ok (b, st')) : KeepsBlocks st.f st'.f bs := by
  rcases hX : L.getExitBlock st.f with _ | X
  · rw [processLoop_of_getExitBlock_none h hX]
    exact .refl _ _
  rcases processLoop_eq_ok h with ⟨-, rfl⟩ | ⟨-, ph, deps, parts, hph, -, hparts, hd⟩
  · exact .refl _ _
  · exact distribute_keepsBlocks hf hwf hnd hph hX (hpred ph · hph) hin hparts
      (fun c hc => hbs c hc ph X hph hX) hd

/-- `fourAccessFunc` with a block 3 after the exit block 2, which computes from an argument and
returns. -/
def tailFunc : Func :=
  { blocks := [0, 1, 2, 3]
    body := fun b => match b with | 3 => [19, 20] | b => fourAccessFunc.body b
    inst := fun i => match i with
      | 18 => ⟨.br, [.block 3], [], [], []⟩
      | 19 => ⟨.other, [.arg 6], [], [], []⟩
      | 20 => ⟨.term, [.inst 19], [], [], []⟩
      | i => fourAccessFunc.inst i
    fresh := 21 }

/-- The dominator tree of `tailFunc`. -/
def tailDomTree : DomTree := fun b => match b with
  | 1 => some 0 | 2 => some 1 | 3 => some 2 | _ => none

theorem processLoop_keeps_apart_tail : ∃ b st', processLoop {} .ascending
      (fourAccessInfo [12, 13, 14, 15] [⟨1, 2, true⟩] true) (fun _ => false) fourAccessLoop
      ⟨tailFunc, tailDomTree⟩ = .ok (b, st') ∧ KeepsBlocks tailFunc st'.f [3] := by
  obtain ⟨b, st', h⟩ : ∃ b st', processLoop {} .ascending
      (fourAccessInfo [12, 13, 14, 15] [⟨1, 2, true⟩] true) (fun _ => false) fourAccessLoop
      ⟨tailFunc, tailDomTree⟩ = .ok (b, st') := ⟨_, _, rfl⟩
  refine ⟨b, st', h, processLoop_keeps_apart (by decide)
    ⟨by decide, by decide, by decide, by decide⟩ (by decide) (fun ph p hph hp => ?_) (by decide)
    (fun c hc ph X hph hX => ?_) h⟩
  · obtain rfl : ph = 0 := Option.some.inj (hph.symm.trans (by decide))
    exact nomatch hp
  · obtain rfl : c = 3 := List.mem_singleton.1 hc
    obtain rfl : ph = 0 := Option.some.inj (hph.symm.trans (by decide))
    obtain rfl : X = 2 := Option.some.inj (hX.symm.trans (by decide))
    refine ⟨by decide, by decide, by decide, by decide, by decide, fun u hu j hj hm => ?_⟩
    simp only [tailFunc, List.mem_cons, List.mem_singleton, List.not_mem_nil, or_false] at hu
    rcases hu with rfl | rfl <;> simp [tailFunc] at hm
    subst hm
    exact absurd hj (by decide)

end LoopDistribute

end Llvm
