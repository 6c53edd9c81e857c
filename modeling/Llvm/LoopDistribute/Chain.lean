import Llvm.IR.Fresh
import Llvm.LoopDistribute.Distribute

/-!
# `cloneLoops` builds a chain of loops

The copies `cloneLoops` makes, followed from `cloneBasicBlock` up to the whole relinked chain.

* `Copy f g σ bs tr` : `g` holds copies under `σ` of the blocks `bs` of `f`; `Copy.succs` : a
  remapped copy branches to the images of the original's successors;
* `cloneLoopWithPreheader_spec` : the copy of the loop and its preheader, new blocks only;
* `ChainLink`, `cloneChain_step` : one turn of `cloneChain`, a remapped copy whose exit edge goes to
  the preheader made before it;
* `ChainSpec`, `cloneChain_spec` : the whole reverse loop, links on disjoint new blocks;
* `cloneLoops_eq_ok` : what a run of `cloneLoops` that returns did.
-/

namespace Llvm.LoopDistribute

open Func

/-- `g` holds copies under `σ` of the blocks `bs` of `f`, new since `f`: each block's copy lists the
copies of its instructions, and each instruction's copy is the instruction passed through `tr`
(as it is, before the copy is remapped; remapped through `σ` after). -/
structure Copy (f g : Func) (σ : ValueMap) (bs : List Nat) (tr : Inst → Inst) : Prop where
  block : ∀ b ∈ bs, ∃ c, σ b = some c ∧ c ∈ g.blocks ∧ f.fresh ≤ c ∧
    g.body c = (f.body b).map (mapId σ)
  inst : ∀ b ∈ bs, ∀ i ∈ f.body b, ∃ c, σ i = some c ∧ f.fresh ≤ c ∧ g.inst c = tr (f.inst i)

namespace Copy

variable {f g : Func} {σ : ValueMap} {bs : List Nat} {tr : Inst → Inst}

theorem nil (f g : Func) (σ : ValueMap) (tr : Inst → Inst) : Copy f g σ [] tr :=
  ⟨fun _ h => absurd h (List.not_mem_nil _), fun _ h => absurd h (List.not_mem_nil _)⟩

/-- The copy of an instruction sits in the copy of its block. -/
theorem mem_body (hc : Copy f g σ bs tr) {b i : Nat} (hb : b ∈ bs) (hi : i ∈ f.body b) :
    ∃ cb c, σ b = some cb ∧ σ i = some c ∧ cb ∈ g.blocks ∧ c ∈ g.body cb := by
  obtain ⟨cb, hσb, hcb, -, hbody⟩ := hc.block b hb
  obtain ⟨c, hσi, -, -⟩ := hc.inst b hb i hi
  exact ⟨cb, c, hσb, hσi, hcb, by rw [hbody]; exact List.mem_map.2 ⟨i, hi, by simp [mapId, hσi]⟩⟩

end Copy

section CloneStep

variable {f g : Func} {σ : ValueMap} {bs : List Nat} {bb : Nat}

/-- One more block cloned, as `cloneLoopWithPreheader` clones each: the map sends the block to
its copy. -/
theorem Copy.cloneBasicBlock (hc : Copy f g σ bs id) (hf : f.Numbered) (hg : g.Numbered)
    (he : Extends f g) (hbb : bb ∈ f.blocks) (hbs : bb ∉ bs) (hbsf : ∀ b ∈ bs, b ∈ f.blocks) :
    Copy f (g.cloneBasicBlock σ bb).1
      (Function.update (g.cloneBasicBlock σ bb).2.1 bb (some g.fresh)) (bs ++ [bb]) id := by
  have hbody : g.body bb = f.body bb := he.body bb (hf.block_lt bb hbb)
  have hlt : ∀ i ∈ g.body bb, i < g.fresh + 1 := fun i hi =>
    Nat.lt_succ_of_lt (hg.mem_body_lt (he.blocks bb hbb) hi)
  have hnd := hg.body_nodup (he.blocks bb hbb)
  have hcopy := cloneBasicBlock_copy g σ bb hlt hnd
  -- the map is unchanged away from `bb` and its instructions
  have hagree : ∀ j, j ≠ bb → j ∉ f.body bb →
      Function.update (g.cloneBasicBlock σ bb).2.1 bb (some g.fresh) j = σ j := fun j h₁ h₂ => by
    rw [Function.update_noteq h₁, cloneBasicBlock_vmap_of_not_mem g σ bb (hbody ▸ h₂)]
  -- an instruction of another block of the list is neither `bb` nor one of its instructions
  have hother : ∀ b ∈ bs, ∀ i ∈ f.body b, i ≠ bb ∧ i ∉ f.body bb := fun b hb i hi =>
    ⟨fun he' => hf.block_not_inst bb hbb (he' ▸ mem_allInsts.2 ⟨b, hbsf b hb, hi⟩),
      fun hi' => hbs (hf.eq_of_mem_body (hbsf b hb) hbb hi hi' ▸ hb)⟩
  have hold_c : ∀ c ∈ g.allInsts, (g.cloneBasicBlock σ bb).1.inst c = g.inst c := fun c hc' =>
    cloneBasicBlock_inst_of_not_mem g σ bb fun hm => by
      have := hg.inst_lt c hc'; rw [List.mem_range'_1] at hm; omega
  constructor
  · intro b hb
    rw [List.mem_append, List.mem_singleton] at hb
    rcases hb with hb | rfl
    · obtain ⟨c, hσ, hcb, hfc, hbc⟩ := hc.block b hb
      have hbb' : b ≠ bb := fun h => hbs (h ▸ hb)
      have hbi : b ∉ f.body bb := fun h => hf.block_not_inst b (hbsf b hb) (mem_allInsts.2 ⟨bb, hbb, h⟩)
      refine ⟨c, (hagree b hbb' hbi).trans hσ, by simp [hcb], hfc, ?_⟩
      rw [cloneBasicBlock_body, Function.update_noteq (hg.block_lt c hcb).ne, hbc]
      exact List.map_congr_left fun i hi => by
        simp only [mapId, hagree i (hother b hb i hi).1 (hother b hb i hi).2]
    · refine ⟨g.fresh, Function.update_same _ _ _, by simp, he.fresh_le, ?_⟩
      rw [cloneBasicBlock_body_block g σ b hlt hnd, hbody]
      refine List.map_congr_left fun i hi => ?_
      have hib : i ≠ b := fun h => hf.block_not_inst b hbb (h ▸ mem_allInsts.2 ⟨b, hbb, hi⟩)
      simp only [mapId, Function.update_noteq hib]
  · intro b hb i hi
    rw [List.mem_append, List.mem_singleton] at hb
    rcases hb with hb | rfl
    · obtain ⟨c, hσ, hfc, hic⟩ := hc.inst b hb i hi
      obtain ⟨cb, c', hσb, hσi, hcb, hcc⟩ := hc.mem_body hb hi
      rw [hσ] at hσi; cases hσi
      refine ⟨c, (hagree i (hother b hb i hi).1 (hother b hb i hi).2).trans hσ, hfc, ?_⟩
      rw [hold_c c (mem_allInsts.2 ⟨cb, hcb, hcc⟩), hic]
    · have hib : i ≠ b := fun h => hf.block_not_inst b hbb (h ▸ mem_allInsts.2 ⟨b, hbb, hi⟩)
      obtain ⟨k, hk, hki⟩ := List.getElem_of_mem (hbody ▸ hi)
      have hp := hcopy (i, g.fresh + 1 + k) (List.mem_iff_getElem.2
        ⟨k, by simpa using hk, by simp [List.getElem_zip, List.getElem_range', hki]⟩)
      refine ⟨g.fresh + 1 + k, by rw [Function.update_noteq hib]; exact hp.1, by
        have := he.fresh_le; omega, ?_⟩
      exact hp.2.trans (he.inst i (hf.mem_body_lt hbb hi))

end CloneStep

/-- `cloneLoopBlocks` clones the listed blocks one after the other, appending the copies to the
layout; the map changes only at the listed blocks and their instructions. -/
theorem cloneLoopBlocks_spec {f : Func} (hf : f.Numbered) :
    ∀ (bbs : List Nat) (st : PassState) (σ : ValueMap) (done acc : List Nat)
      {r : PassState × ValueMap × List Nat},
    cloneLoopBlocks bbs (st, σ, acc) = .ok r →
    Copy f st.f σ done id → st.f.Numbered → Extends f st.f →
    (∀ b ∈ done ++ bbs, b ∈ f.blocks) → (done ++ bbs).Nodup →
    Copy f r.1.f r.2.1 (done ++ bbs) id ∧ r.1.f.Numbered ∧ Extends f r.1.f ∧
      r.1.f.blocks = st.f.blocks ++ bbs.map (mapId r.2.1) ∧ r.2.2 = acc ++ bbs.map (mapId r.2.1) ∧
      ∀ j ∉ bbs ++ bbs.flatMap f.body, r.2.1 j = σ j
  | [], st, σ, done, acc, r, h, hc, hn, he, _, _ => by
    cases h; exact ⟨by simpa using hc, hn, he, by simp, by simp, fun _ _ => rfl⟩
  | bb :: bbs, st, σ, done, acc, r, h, hc, hn, he, hmem, hnd => by
    simp only [cloneLoopBlocks] at h
    split at h
    · rename_i idom _
      have hbb : bb ∈ f.blocks := hmem bb (by simp)
      have hbs : bb ∉ done := fun hd => (List.nodup_append.1 hnd).2.2 hd (List.mem_cons_self _ _)
      have hc' := hc.cloneBasicBlock hf hn he hbb hbs fun b hb => hmem b (by simp [hb])
      have he' := he.trans (extends_cloneBasicBlock st.f σ bb)
      obtain ⟨hc'', hn'', he'', hbl, hacc, hagree⟩ := cloneLoopBlocks_spec hf bbs _ _ (done ++ [bb]) _ h hc'
        (hn.cloneBasicBlock σ bb (he.blocks bb hbb)) he' (by simpa using hmem) (by simpa using hnd)
      have hbbs : bb ∉ bbs ++ bbs.flatMap f.body := by
        rw [List.mem_append, not_or]
        refine ⟨(List.nodup_cons.1 (List.nodup_append.1 hnd).2.1).1, fun h' => ?_⟩
        obtain ⟨b', hb', hbb'⟩ := List.mem_flatMap.1 h'
        exact hf.block_not_inst bb hbb (mem_allInsts.2 ⟨b', hmem b' (by simp [hb']), hbb'⟩)
      have hσbb : r.2.1 bb = some st.f.fresh := by rw [hagree bb hbbs]; simp
      refine ⟨by simpa using hc'', hn'', he'', ?_, ?_, fun j hj => ?_⟩
      · rw [hbl]; simp [mapId, hσbb]
      · rw [hacc]; simp [mapId, hσbb]
      · simp only [List.cons_append, List.mem_cons, List.flatMap_cons, List.mem_append, not_or] at hj
        rw [hagree j (by simp [hj.2.1, hj.2.2.2]), Function.update_noteq hj.1,
          cloneBasicBlock_vmap_of_not_mem _ _ _ (by rw [he.body bb (hf.block_lt bb hbb)]; exact hj.2.2.1)]
    · cases h

/-- From `f` to `g` the blocks `bs` keep their bodies and every instruction in them. -/
structure KeepsBlocks (f g : Func) (bs : List Nat) : Prop where
  body : ∀ b ∈ bs, g.body b = f.body b
  inst : ∀ b ∈ bs, ∀ u ∈ f.body b, g.inst u = f.inst u

namespace KeepsBlocks

variable {f g k : Func} {bs : List Nat}

theorem refl (f : Func) (bs : List Nat) : KeepsBlocks f f bs := ⟨fun _ _ => rfl, fun _ _ _ _ => rfl⟩

theorem trans (h₁ : KeepsBlocks f g bs) (h₂ : KeepsBlocks g k bs) : KeepsBlocks f k bs :=
  ⟨fun b hb => (h₂.body b hb).trans (h₁.body b hb),
    fun b hb u hu => (h₂.inst b hb u (h₁.body b hb ▸ hu)).trans (h₁.inst b hb u hu)⟩

/-- A step that leaves every block and instruction below the counter alone keeps the blocks of
the function. -/
theorem of_lt (hf : f.Numbered) (hbs : ∀ b ∈ bs, b ∈ f.blocks)
    (hbody : ∀ b < f.fresh, b ∈ bs → g.body b = f.body b) (hinst : ∀ u < f.fresh, g.inst u = f.inst u) :
    KeepsBlocks f g bs :=
  ⟨fun b hb => hbody b (hf.block_lt b (hbs b hb)) hb,
    fun b hb u hu => hinst u (hf.mem_body_lt (hbs b hb) hu)⟩

theorem of_extends (hf : f.Numbered) (hbs : ∀ b ∈ bs, b ∈ f.blocks) (he : Extends f g) :
    KeepsBlocks f g bs :=
  of_lt hf hbs (fun b hb _ => he.body b hb) he.inst

/-- Writing one instruction outside the blocks keeps them. -/
theorem setInst {i : Nat} (hi : ∀ b ∈ bs, i ∉ f.body b) (x : Inst) :
    KeepsBlocks f (f.setInst i x) bs :=
  ⟨fun _ _ => rfl, fun b hb u hu => by
    rw [setInst_inst, if_neg fun h : u = i => hi b hb (h ▸ hu)]⟩

end KeepsBlocks

/-- `g` holds under `σ` the remapped copies of the blocks `bs` of `f`, as `remapInstructionsInLoop`
leaves them: each copy block lists the copies of the block's instructions, and each copy is the
instruction remapped through `σ`. -/
def CopiedAs (f g : Func) (σ : ValueMap) (bs : List Nat) : Prop :=
  ∀ b ∈ bs, ∃ c, σ b = some c ∧ c ∈ g.blocks ∧ g.body c = (f.body b).map (mapId σ) ∧
    ∀ i ∈ f.body b, ∃ c', σ i = some c' ∧ g.inst c' = (f.inst i).remap σ

namespace CopiedAs

variable {f f' g g' : Func} {σ : ValueMap} {bs : List Nat}

/-- The copy is one of the blocks as a later function still has them. -/
theorem of_source (hc : CopiedAs f g σ bs) (hk : KeepsBlocks f f' bs) : CopiedAs f' g σ bs :=
  fun b hb => by
    obtain ⟨c, hσ, hcb, hbc, hi⟩ := hc b hb
    refine ⟨c, hσ, hcb, by rw [hbc, hk.body b hb], fun i hi' => ?_⟩
    obtain ⟨c', hσi, hic⟩ := hi i (hk.body b hb ▸ hi')
    exact ⟨c', hσi, by rw [hic, hk.inst b hb i (hk.body b hb ▸ hi')]⟩

/-- The copy stays in a later function that keeps its blocks. -/
theorem keeps (hc : CopiedAs f g σ bs) (hk : KeepsBlocks g g' (bs.map (mapId σ)))
    (hbl : ∀ b ∈ g.blocks, b ∈ g'.blocks) : CopiedAs f g' σ bs := fun b hb => by
  obtain ⟨c, hσ, hcb, hbc, hi⟩ := hc b hb
  have hmem : c ∈ bs.map (mapId σ) := List.mem_map.2 ⟨b, hb, by simp [mapId, hσ]⟩
  refine ⟨c, hσ, hbl c hcb, (hk.body c hmem).trans hbc, fun i hi' => ?_⟩
  obtain ⟨c', hσi, hic⟩ := hi i hi'
  have hc' : c' ∈ g.body c := by rw [hbc]; exact List.mem_map.2 ⟨i, hi', by simp [mapId, hσi]⟩
  exact ⟨c', hσi, (hk.inst c hmem c' hc').trans hic⟩

end CopiedAs

/-- Remapping depends on the value map only through `mapId`. -/
theorem Inst.remap_congr {σ σ' : ValueMap} (h : ∀ j, mapId σ j = mapId σ' j) :
    Inst.remap σ = Inst.remap σ' := by
  have hm : mapId σ = mapId σ' := funext h
  have hv : mapValue σ = mapValue σ' := funext fun v => by cases v <;> simp only [mapValue, hm]
  exact funext fun i => by simp only [Inst.remap, hv, hm]

/-- A remapped copy under `σ'` is one under a map `σ` that remaps alike and sends the copied
blocks and instructions where `σ'` does. -/
theorem Copy.copiedAs {f g : Func} {σ σ' : ValueMap} {bs bs' : List Nat}
    (hc : Copy f g σ' bs' (Inst.remap σ')) (hsub : ∀ b ∈ bs, b ∈ bs')
    (hm : ∀ j, mapId σ j = mapId σ' j) (hσ : ∀ b ∈ bs, σ b = σ' b ∧ ∀ i ∈ f.body b, σ i = σ' i) :
    CopiedAs f g σ bs := fun b hb => by
  obtain ⟨c, hσb, hcb, -, hbc⟩ := hc.block b (hsub b hb)
  refine ⟨c, (hσ b hb).1.trans hσb, hcb, by rw [hbc, funext hm], fun i hi => ?_⟩
  obtain ⟨c', hσi, -, hic⟩ := hc.inst b (hsub b hb) i hi
  exact ⟨c', ((hσ b hb).2 i hi).trans hσi, by rw [hic, Inst.remap_congr hm]⟩

/-- Copies below the counter stay in every extension. -/
theorem Copy.extend {f g g' : Func} {σ : ValueMap} {bs : List Nat} {tr : Inst → Inst}
    (hc : Copy f g σ bs tr) (hg : g.Numbered) (he : Extends g g') : Copy f g' σ bs tr := by
  refine ⟨fun b hb => ?_, fun b hb i hi => ?_⟩
  · obtain ⟨c, hσ, hcb, hfc, hbc⟩ := hc.block b hb
    exact ⟨c, hσ, he.blocks c hcb, hfc, (he.body c (hg.block_lt c hcb)).trans hbc⟩
  · obtain ⟨c, hσ, hfc, hic⟩ := hc.inst b hb i hi
    obtain ⟨cb, c', -, hσi, hcb, hcc⟩ := hc.mem_body hb hi
    rw [hσ] at hσi; cases hσi
    exact ⟨c, hσ, hfc, (he.inst c (hg.mem_body_lt hcb hcc)).trans hic⟩

/-- What `cloneLoopWithPreheader` leaves: `g` extends `f` with the blocks `newBlocks`, copies under
`σ` of the preheader and the blocks of `L`. -/
structure Cloned (f g : Func) (L : Loop) (origPH : Nat) (σ : ValueMap) (newBlocks : List Nat) :
    Prop where
  copy : Copy f g σ (origPH :: L.blocks) id
  newBlocks_eq : newBlocks = (origPH :: L.blocks).map (mapId σ)
  numbered : g.Numbered
  ext : Extends f g
  mem_blocks : ∀ b, b ∈ g.blocks ↔ b ∈ f.blocks ∨ b ∈ newBlocks
  nodup : newBlocks.Nodup

theorem cloneLoopWithPreheader_spec {st st' : PassState} {before loopDomBB : Nat} {L : Loop}
    {vmap σ : ValueMap} {newLoop : Loop} {bl : List Nat}
    (h : cloneLoopWithPreheader st before loopDomBB L vmap = .ok (st', σ, newLoop, bl))
    (hf : st.f.Numbered) (hL : ∀ b ∈ L.blocks, b ∈ st.f.blocks) (hnd : L.blocks.Nodup)
    (hb : before ∈ st.f.blocks) :
    ∃ origPH, L.getLoopPreheader st.f = some origPH ∧ Cloned st.f st'.f L origPH σ bl ∧
      newLoop.blocks = L.blocks.map (mapId σ) ∧ σ origPH = some st.f.fresh ∧
      ∀ j ∉ (origPH :: L.blocks) ++ (origPH :: L.blocks).flatMap st.f.body, σ j = vmap j := by
  unfold cloneLoopWithPreheader at h
  rcases hph : L.getLoopPreheader st.f with _ | origPH <;> simp only [hph] at h
  · cases h
  obtain ⟨hd, -, hphb, hphL, -⟩ := L.getLoopPreheader_spec st.f hph
  have hphL' : origPH ∉ L.blocks := by simpa [Loop.containsBlock] using hphL
  obtain ⟨⟨st₁, σ₁, bl₁⟩, hclone, h⟩ := bind_eq_ok h
  cases h
  have hc0 := (Copy.nil st.f st.f vmap id).cloneBasicBlock hf hf (Extends.refl _) hphb
    (List.not_mem_nil _) (fun _ h => absurd h (List.not_mem_nil _))
  obtain ⟨hc, hn₁, he₁, hbl₁, hacc, hagree⟩ := cloneLoopBlocks_spec hf L.blocks _ _ _ _ hclone hc0
    (hf.cloneBasicBlock vmap origPH hphb) (extends_cloneBasicBlock st.f vmap origPH)
    (by simpa [or_imp, forall_and, hphb] using hL) (by simpa [hphL'] using hnd)
  dsimp only at hc hn₁ he₁ hbl₁ hacc hagree
  simp only [List.nil_append, cloneBasicBlock_blocks, cloneBasicBlock_block] at hc hbl₁ hacc
  have hnotinst : ∀ b ∈ st.f.blocks, b ∉ L.blocks.flatMap st.f.body := fun b hb hm => by
    obtain ⟨c, hc, hbc⟩ := List.mem_flatMap.1 hm
    exact hf.block_not_inst b hb (mem_allInsts.2 ⟨c, hL c hc, hbc⟩)
  have hσph : σ₁ origPH = some st.f.fresh := by
    rw [hagree origPH (by simp [hphL', hnotinst origPH hphb])]
    exact Function.update_same _ _ _
  have hbl : bl₁ = L.blocks.map (mapId σ₁) := by simpa using hacc
  have hnew : ∀ b ∈ bl₁, st.f.fresh ≤ b := fun b hb => by
    rw [hbl] at hb
    obtain ⟨b', hb', rfl⟩ := List.mem_map.1 hb
    obtain ⟨c, hσ, -, hfc, -⟩ := hc.block b' (by simp [hb'])
    simpa [mapId, hσ] using hfc
  have hbnd := hn₁.blocks_nodup
  rw [hbl₁, List.append_assoc, List.singleton_append] at hbnd
  have hnd₁ : (st.f.fresh :: bl₁).Nodup := by rw [hbl]; exact (List.nodup_append.1 hbnd).2.1
  have hbef : before ∈ st₁.f.blocks := he₁.blocks before hb
  have hbef₁ : before ∉ [st.f.fresh] := by simpa using (hf.block_lt before hb).ne
  have hbef₂ : before ∉ bl₁ := fun h' => absurd (hnew before h') (by simpa using hf.block_lt before hb)
  have hph₁ : ∀ m ∈ [st.f.fresh], m ∈ st₁.f.blocks := fun m hm => by simp_all
  have hn₂ := hn₁.spliceBefore hbef hbef₁ (List.nodup_singleton _) hph₁
  have he₂ := extends_spliceBefore hbef hbef₁
  have hbef' : before ∈ (st₁.f.spliceBefore before [st.f.fresh]).blocks := he₂.blocks before hbef
  have hbl_mem : ∀ m ∈ bl₁, m ∈ (st₁.f.spliceBefore before [st.f.fresh]).blocks := fun m hm =>
    he₂.blocks m (by rw [hbl₁]; simp [← hbl, hm])
  have hn₃ := hn₂.spliceBefore hbef' hbef₂ (List.nodup_cons.1 hnd₁).2 hbl_mem
  have he₃ := extends_spliceBefore hbef' hbef₂
  simp only [cloneBasicBlock_block]
  refine ⟨origPH, rfl, ⟨(hc.extend hn₁ he₂).extend hn₂ he₃, by simp [hbl, mapId, hσph], hn₃,
    he₁.trans (he₂.trans he₃), fun b => ?_, hnd₁⟩, hbl, hσph, fun j hj => ?_⟩
  · rw [mem_spliceBefore hbef' hbef₂, mem_spliceBefore hbef hbef₁, hbl₁]
    simp only [List.mem_append, List.mem_singleton, List.mem_cons, ← hbl, List.not_mem_nil, or_false,
      or_assoc]
    exact ⟨by rintro (h | h | h | h | h) <;> simp [h], by rintro (h | h | h) <;> simp [h]⟩
  · simp only [List.cons_append, List.mem_cons, List.flatMap_cons, List.mem_append, not_or] at hj
    rw [hagree j (by simp [hj.2.1, hj.2.2.2]), Function.update_noteq hj.1,
      cloneBasicBlock_vmap_of_not_mem _ _ _ hj.2.2.1]

/-- A loop whose block list, header first, names block 2 before its immediate dominator 3: the
preheader 0 branches to the header 1, 1 to 3, 3 to the latch 2, and 2 back to 1 or out to 4. -/
def idomOrderFunc : Func where
  blocks := [0, 1, 3, 2, 4]
  body b := match b with | 0 => [10] | 1 => [11] | 3 => [12] | 2 => [13] | 4 => [14] | _ => []
  inst i := match i with
    | 10 => ⟨.br, [.block 1], [], [], []⟩
    | 11 => ⟨.br, [.block 3], [], [], []⟩
    | 12 => ⟨.br, [.block 2], [], [], []⟩
    | 13 => ⟨.br, [.arg 0, .block 1, .block 4], [], [], []⟩
    | 14 => ⟨.term, [], [], [], []⟩
    | _ => default
  fresh := 15

/-- The loop of `idomOrderFunc`, its blocks in an order `LoopInfo` allows: the header first. -/
def idomOrderLoop : Loop := ⟨[1, 2, 3]⟩

/-- The dominator tree of `idomOrderFunc`: each block's only predecessor is its immediate
dominator. -/
def idomOrderDomTree : DomTree := fun b => match b with
  | 1 => some 0 | 3 => some 1 | 2 => some 3 | 4 => some 2 | _ => none

/-- On a loop that lists a block before its immediate dominator, `cloneLoopWithPreheader` looks up
the copy of the dominator before it is made. -/
theorem cloneLoopWithPreheader_fails_before_idom :
    idomOrderLoop.getHeader = some 1 ∧ idomOrderLoop.getLoopPreheader idomOrderFunc = some 0 ∧
      idomOrderFunc.getSinglePredecessor 2 = some 3 ∧ idomOrderDomTree 2 = some 3 ∧
      cloneLoopWithPreheader ⟨idomOrderFunc, idomOrderDomTree⟩ 4 0 idomOrderLoop (fun _ => none) =
        .error "cast<BasicBlock>(VMap[IDomBB]) of a block not cloned yet" := by
  refine ⟨rfl, by decide, by decide, rfl, rfl⟩

/-- A remapped copy branches to the images of the original's successors. -/
theorem Copy.succs {f g : Func} {σ : ValueMap} {bs : List Nat} (hc : Copy f g σ bs (Inst.remap σ))
    {b : Nat} (hb : b ∈ bs) : ∃ c, σ b = some c ∧ g.succs c = (f.succs b).map (mapId σ) := by
  obtain ⟨c, hσ, -, -, hbody⟩ := hc.block b hb
  refine ⟨c, hσ, ?_⟩
  unfold Func.succs getTerminator
  rw [hbody, List.getLast?_map]
  cases ht : (f.body b).getLast? with
  | none => rfl
  | some t =>
    obtain ⟨ct, hσt, -, hct⟩ := hc.inst b hb t (List.mem_of_mem_getLast? ht)
    simp only [Option.map_some', mapId, hσt, Option.getD_some, hct, Inst.remap,
      filterMap_getBlock?_mapValue]

/-- Remapping the new blocks turns a copy into a remapped copy, for a map that agrees on what was
copied. -/
theorem Copy.remap {f g : Func} {σ σ' : ValueMap} {bs nb : List Nat} (hc : Copy f g σ bs id)
    (hg : g.Numbered) (hnb : ∀ b ∈ nb, b ∈ g.blocks) (hnbd : nb.Nodup)
    (hcov : ∀ b ∈ bs, ∀ c, σ b = some c → c ∈ nb)
    (hagree : ∀ b ∈ bs, σ' b = σ b ∧ ∀ i ∈ f.body b, σ' i = σ i) :
    Copy f (g.remapInstructionsInLoop nb σ') σ' bs (Inst.remap σ') := by
  have hinst := remapInstructionsInLoop_inst σ' g nb (hg.nodup_flatMap_body hnb hnbd)
  refine ⟨fun b hb => ?_, fun b hb i hi => ?_⟩
  · obtain ⟨c, hσ, hcb, hfc, hbody⟩ := hc.block b hb
    refine ⟨c, (hagree b hb).1.trans hσ, by simpa using hcb, hfc, ?_⟩
    rw [remapInstructionsInLoop_body, hbody]
    exact List.map_congr_left fun i hi => by simp only [mapId, (hagree b hb).2 i hi]
  · obtain ⟨c, hσ, hfc, hic⟩ := hc.inst b hb i hi
    obtain ⟨cb, c', hσb, hσi, -, hcc⟩ := hc.mem_body hb hi
    rw [hσ] at hσi; cases hσi
    refine ⟨c, ((hagree b hb).2 i hi).trans hσ, hfc, ?_⟩
    rw [hinst, if_pos (List.mem_flatMap.2 ⟨cb, hcov b hb cb hσb, hcc⟩), hic]
    rfl

/-- One link of the chain: `g` holds a remapped copy under `σ` of the loop `L` of `f` and of its
preheader, the copy's blocks are `bl` (the preheader's first), and its exit edge goes to `top`. -/
structure ChainLink (f g : Func) (L : Loop) (origPH X top : Nat) (σ : ValueMap) (newLoop : Loop)
    (bl : List Nat) : Prop where
  copy : Copy f g σ (origPH :: L.blocks) (Inst.remap σ)
  exit : σ X = some top
  blocks_eq : bl = (origPH :: L.blocks).map (mapId σ)
  loop_eq : newLoop.blocks = L.blocks.map (mapId σ)
  nodup : bl.Nodup
  top_not_mem : top ∉ bl

section Step

variable {st st₁ : PassState} {before top pred X origPH : Nat} {L : Loop} {σ : ValueMap}
  {newLoop : Loop} {bl : List Nat}

/-- One turn of `cloneChain` (and the copy `versionLoop` makes, with `top` the exit block): the
copy of the loop with its preheader, placed before `before` and remapped with the exit edge sent to
`top`, is a loop whose preheader is the copy of the preheader; `L` keeps its preheader. -/
theorem cloneChain_step
    (hcl : cloneLoopWithPreheader st before pred L (fun _ => none) = .ok (st₁, σ, newLoop, bl))
    (hf : st.f.Numbered) (hL : ∀ b ∈ L.blocks, b ∈ st.f.blocks) (hnd : L.blocks.Nodup)
    (hph : L.getLoopPreheader st.f = some origPH) (hb : before ∈ st.f.blocks) (htop : top ∈ st.f.blocks)
    (htopL : top ∉ L.blocks) (hX : X ∈ st.f.blocks) (hXL : X ∉ L.blocks) (hXph : X ≠ origPH) :
    ChainLink st.f (st₁.f.remapInstructionsInLoop bl (Function.update σ X (some top))) L origPH X
      top (Function.update σ X (some top)) newLoop bl ∧
    (st₁.f.remapInstructionsInLoop bl (Function.update σ X (some top))).Numbered ∧
    Extends st.f (st₁.f.remapInstructionsInLoop bl (Function.update σ X (some top))) ∧
    (∀ b, b ∈ (st₁.f.remapInstructionsInLoop bl (Function.update σ X (some top))).blocks ↔
      b ∈ st.f.blocks ∨ b ∈ bl) ∧
    Function.update σ X (some top) origPH = some st.f.fresh ∧
    newLoop.getLoopPreheader (st₁.f.remapInstructionsInLoop bl (Function.update σ X (some top))) =
      some st.f.fresh ∧
    L.getLoopPreheader (st₁.f.remapInstructionsInLoop bl (Function.update σ X (some top))) =
      some origPH := by
  obtain ⟨origPH', hph', hcl', hloop, hσph, hagree⟩ := cloneLoopWithPreheader_spec hcl hf hL hnd hb
  rw [hph] at hph'; cases hph'
  obtain ⟨hd, hhd, hphb, hphL, hphs, hphall⟩ := L.getLoopPreheader_spec st.f hph
  set σ' := Function.update σ X (some top) with hσ'
  set g := st₁.f.remapInstructionsInLoop bl σ'
  have hphL' : origPH ∉ L.blocks := by simpa [Loop.containsBlock] using hphL
  have hbs : ∀ b ∈ origPH :: L.blocks, b ∈ st.f.blocks := by simpa [hphb] using hL
  have hXbs : X ∉ origPH :: L.blocks := by simp [hXph, hXL]
  -- `σ'` agrees with `σ` on what was copied
  have hXi : ∀ b ∈ origPH :: L.blocks, X ∉ st.f.body b := fun b hb hm =>
    hf.block_not_inst X hX (mem_allInsts.2 ⟨b, hbs b hb, hm⟩)
  have hagree' : ∀ b ∈ origPH :: L.blocks, σ' b = σ b ∧ ∀ i ∈ st.f.body b, σ' i = σ i :=
    fun b hb => ⟨Function.update_noteq (fun h : b = X => hXbs (h ▸ hb)) _ _,
      fun i hi => Function.update_noteq (fun h : i = X => hXi b hb (h ▸ hi)) _ _⟩
  have hmapId : ∀ b ∈ origPH :: L.blocks, mapId σ' b = mapId σ b := fun b hb => by
    simp only [mapId, (hagree' b hb).1]
  have hbl : bl = (origPH :: L.blocks).map (mapId σ') := by
    rw [hcl'.newBlocks_eq]; exact List.map_congr_left fun b hb => (hmapId b hb).symm
  have hloop' : newLoop.blocks = L.blocks.map (mapId σ') := by
    rw [hloop]; exact List.map_congr_left fun b hb => (hmapId b (List.mem_cons_of_mem _ hb)).symm
  have hnb : ∀ b ∈ bl, b ∈ st₁.f.blocks := fun b hb => (hcl'.mem_blocks b).2 (.inr hb)
  have hcov : ∀ b ∈ origPH :: L.blocks, ∀ c, σ b = some c → c ∈ bl := fun b hb c hc => by
    rw [hcl'.newBlocks_eq]; exact List.mem_map.2 ⟨b, hb, by simp [mapId, hc]⟩
  have hcopy := hcl'.copy.remap hcl'.numbered hnb hcl'.nodup hcov hagree'
  -- what the copies and the map look like
  have hnew : ∀ b ∈ origPH :: L.blocks, st.f.fresh ≤ mapId σ' b ∧ mapId σ' b ∈ bl := fun b hb => by
    obtain ⟨c, hσ, -, hfc, -⟩ := hcopy.block b hb
    rw [hbl]; exact ⟨by simpa [mapId, hσ] using hfc, List.mem_map.2 ⟨b, hb, rfl⟩⟩
  have hold : ∀ s ∈ st.f.blocks, s ∉ origPH :: L.blocks → mapId σ' s = if s = X then top else s :=
    fun s hs hsb => by
      by_cases hsX : s = X
      · simp [mapId, hσ', hsX]
      · have hsi : s ∉ (origPH :: L.blocks) ++ (origPH :: L.blocks).flatMap st.f.body := by
          rw [List.mem_append, not_or]
          refine ⟨hsb, fun hm => ?_⟩
          obtain ⟨b, hb, hsb'⟩ := List.mem_flatMap.1 hm
          exact hf.block_not_inst s hs (mem_allInsts.2 ⟨b, hbs b hb, hsb'⟩)
        simp [mapId, hσ', hsX, hagree s hsi]
  -- every value of `σ` is a new block or a new instruction
  have hσdom : ∀ j c, σ j = some c → (j ∈ origPH :: L.blocks ∧ c ∈ bl) ∨
      ∃ b ∈ origPH :: L.blocks, j ∈ st.f.body b ∧ ∃ cb ∈ bl, c ∈ st₁.f.body cb := fun j c hjc => by
    by_cases hj : j ∈ (origPH :: L.blocks) ++ (origPH :: L.blocks).flatMap st.f.body
    · rcases List.mem_append.1 hj with hj | hj
      · exact .inl ⟨hj, hcov j hj c hjc⟩
      · obtain ⟨b, hb, hjb⟩ := List.mem_flatMap.1 hj
        obtain ⟨cb, c', hσb, hσj, -, hcc⟩ := hcl'.copy.mem_body hb hjb
        rw [hjc] at hσj; cases hσj
        exact .inr ⟨b, hb, hjb, cb, hcov b hb cb hσb, hcc⟩
    · rw [hagree j hj] at hjc; cases hjc
  have hbody₁ : ∀ b ∈ origPH :: L.blocks, st₁.f.body b = st.f.body b := fun b hb =>
    hcl'.ext.body b (hf.block_lt b (hbs b hb))
  have hgn : g.Numbered := by
    refine hcl'.numbered.remapInstructionsInLoop hnb hcl'.nodup (fun j c h => ?_) fun s hs c h => ?_
    · by_cases hjX : j = X
      · subst hjX; simp only [hσ', Function.update_same, Option.some.injEq] at h; subst h
        exact lt_of_lt_of_le (hf.block_lt _ htop) hcl'.ext.fresh_le
      · rw [hσ', Function.update_noteq hjX] at h
        rcases hσdom j c h with ⟨-, hc⟩ | ⟨b, -, -, cb, hcb, hc⟩
        · exact hcl'.numbered.block_lt c (hnb c hc)
        · exact hcl'.numbered.mem_body_lt (hnb cb hcb) hc
    · by_cases hsX : s = X
      · subst hsX; simp only [hσ', Function.update_same, Option.some.injEq] at h; subst h
        exact hcl'.ext.blocks _ htop
      · rw [hσ', Function.update_noteq hsX] at h
        rcases hσdom s c h with ⟨-, hc⟩ | ⟨b, hb, hsb, -⟩
        · exact hnb c hc
        · exact absurd (mem_allInsts.2 ⟨b, hcl'.ext.blocks b (hbs b hb), (hbody₁ b hb).symm ▸ hsb⟩)
            (hcl'.numbered.block_not_inst s hs)
  have hge : Extends st.f g := by
    refine extends_remapInstructionsInLoop σ' bl (hcl'.numbered.nodup_flatMap_body hnb hcl'.nodup)
      hcl'.ext fun i hi => ?_
    obtain ⟨cb, hcb, hicb⟩ := List.mem_flatMap.1 hi
    rw [hcl'.newBlocks_eq] at hcb
    obtain ⟨b, hb, rfl⟩ := List.mem_map.1 hcb
    obtain ⟨c, hσb, -, -, hbody⟩ := hcl'.copy.block b hb
    rw [show mapId σ b = c by simp [mapId, hσb], hbody] at hicb
    obtain ⟨j, hj, rfl⟩ := List.mem_map.1 hicb
    obtain ⟨c', hσj, hfc, -⟩ := hcl'.copy.inst b hb j hj
    simpa [mapId, hσj] using hfc
  have hmem : ∀ b, b ∈ g.blocks ↔ b ∈ st.f.blocks ∨ b ∈ bl := fun b => by
    simpa [g] using hcl'.mem_blocks b
  have hσ'ph : σ' origPH = some st.f.fresh := by
    rw [hσ', Function.update_noteq (Ne.symm hXph)]; exact hσph
  have hmph : mapId σ' origPH = st.f.fresh := by simp [mapId, hσ'ph]
  -- the successors in `g`: old blocks keep theirs, copies branch to the images
  have hsucc_old : ∀ n ∈ st.f.blocks, g.succs n = st.f.succs n := fun n hn => hge.succs hf hn
  have hsucc_new : ∀ b ∈ origPH :: L.blocks, g.succs (mapId σ' b) = (st.f.succs b).map (mapId σ') :=
    fun b hb => by
      obtain ⟨c, hσc, hc⟩ := hcopy.succs hb
      rw [show mapId σ' b = c by simp [mapId, hσc], hc]
  have hblh : bl = st.f.fresh :: L.blocks.map (mapId σ') := by rw [hbl, List.map_cons, hmph]
  have hhdL : hd ∈ L.blocks := List.mem_of_mem_head? hhd
  have htop_new : top ∉ bl := fun h => by
    rw [hbl] at h
    obtain ⟨b, hb, hbt⟩ := List.mem_map.1 h
    have := (hnew b hb).1; have := hf.block_lt top htop; omega
  refine ⟨⟨hcopy, Function.update_same _ _ _, hbl, hloop', hcl'.nodup, htop_new⟩, hgn, hge, hmem,
    hσ'ph, ?_, ?_⟩
  · have hph_succ : g.succs st.f.fresh = [mapId σ' hd] := by
      rw [← hmph, hsucc_new origPH (List.mem_cons_self _ _), hphs, List.map_singleton]
    have hnotin : st.f.fresh ∉ newLoop.blocks := by
      have := hcl'.nodup; rw [hblh] at this; rw [hloop']; exact (List.nodup_cons.1 this).1
    have hnh : newLoop.getHeader = some (mapId σ' hd) := by
      rw [Loop.getHeader] at hhd ⊢; rw [hloop', List.head?_map, hhd]; rfl
    refine Loop.getLoopPreheader_eq_some newLoop g hnh (fun n hn hnL => ?_) ?_
      (by simpa [Loop.containsBlock] using hnotin) hph_succ
    · rw [mem_preds, hmem] at hn
      obtain ⟨hn | hn, hs⟩ := hn
      · rw [hsucc_old n hn] at hs
        have := hf.block_lt _ (hf.succs_sub n hn _ hs)
        have := (hnew hd (List.mem_cons_of_mem _ hhdL)).1
        omega
      · rw [hblh, List.mem_cons] at hn
        rcases hn with rfl | hn
        · rfl
        · rw [← hloop'] at hn; simp [Loop.containsBlock, hn] at hnL
    · exact (mem_preds g).2 ⟨(hmem _).2 (.inr (by rw [hblh]; exact List.mem_cons_self _ _)),
        by simp [hph_succ]⟩
  · refine Loop.getLoopPreheader_eq_some L g hhd (fun n hn hnL => ?_) ?_ hphL
      (by rw [hsucc_old origPH hphb, hphs])
    · rw [mem_preds, hmem] at hn
      obtain ⟨hn | hn, hs⟩ := hn
      · rw [hsucc_old n hn] at hs
        exact hphall n ((mem_preds st.f).2 ⟨hn, hs⟩) hnL
      · exfalso
        rw [hbl] at hn
        obtain ⟨b, hb, rfl⟩ := List.mem_map.1 hn
        rw [hsucc_new b hb] at hs
        obtain ⟨s, hs, hse⟩ := List.mem_map.1 hs
        by_cases hsc : s ∈ origPH :: L.blocks
        · have := (hnew s hsc).1; have := hf.block_lt hd (hL hd hhdL); omega
        · rw [hold s (hf.succs_sub b (hbs b hb) s hs) hsc] at hse
          split_ifs at hse
          · exact htopL (hse ▸ hhdL)
          · exact hsc (List.mem_cons_of_mem _ (hse ▸ hhdL))
    · exact (mem_preds g).2 ⟨(hmem _).2 (.inl hphb), by rw [hsucc_old origPH hphb, hphs]; simp⟩

end Step

/-- A copy of blocks that an extension kept is a copy of the same blocks of the older function. -/
theorem Copy.source {f f' g : Func} {σ : ValueMap} {bs : List Nat} {tr : Inst → Inst}
    (hc : Copy f' g σ bs tr) (he : Extends f f') (hf : f.Numbered) (hbs : ∀ b ∈ bs, b ∈ f.blocks) :
    Copy f g σ bs tr := by
  have hbody : ∀ b ∈ bs, f'.body b = f.body b := fun b hb => he.body b (hf.block_lt b (hbs b hb))
  refine ⟨fun b hb => ?_, fun b hb i hi => ?_⟩
  · obtain ⟨c, hσ, hcb, hfc, hbc⟩ := hc.block b hb
    exact ⟨c, hσ, hcb, he.fresh_le.trans hfc, hbody b hb ▸ hbc⟩
  · obtain ⟨c, hσ, hfc, hic⟩ := hc.inst b hb i ((hbody b hb).symm ▸ hi)
    exact ⟨c, hσ, he.fresh_le.trans hfc, by rw [hic, he.inst i (hf.mem_body_lt (hbs b hb) hi)]⟩

/-- The preheader of a partition's copy: the image of the original preheader. -/
def phOf (origPH : Nat) (p : DistPartition) : Nat := mapId p.vmap origPH

/-- What `cloneChain` builds from `f` to `g`, processing `qs` with `top` as the first exit: each
partition holds a link of the chain whose exit edge goes to the previous link's preheader, the
links' blocks are new and disjoint, and nothing else is added. -/
structure ChainSpec (f g : Func) (L : Loop) (origPH X top : Nat) (qs : List DistPartition) :
    Prop where
  ext : Extends f g
  numbered : g.Numbered
  links : ∀ j q, qs[j]? = some q → ∃ newLoop, q.clonedLoop = some newLoop ∧
    ChainLink f g L origPH X ((top :: qs.map (phOf origPH)).getD j 0) q.vmap newLoop
      q.clonedLoopBlocks
  mem_blocks : ∀ b, b ∈ g.blocks ↔ b ∈ f.blocks ∨ ∃ q ∈ qs, b ∈ q.clonedLoopBlocks
  fresh : ∀ q ∈ qs, ∀ b ∈ q.clonedLoopBlocks, f.fresh ≤ b
  disjoint : qs.Pairwise fun q q' => q.clonedLoopBlocks.Disjoint q'.clonedLoopBlocks

namespace ChainLink

variable {f g : Func} {L : Loop} {origPH X top : Nat} {σ : ValueMap} {newLoop : Loop} {bl : List Nat}

theorem fresh_le (h : ChainLink f g L origPH X top σ newLoop bl) : ∀ b ∈ bl, f.fresh ≤ b := by
  intro b hb
  rw [h.blocks_eq] at hb
  obtain ⟨b', hb', rfl⟩ := List.mem_map.1 hb
  obtain ⟨c, hσ, -, hfc, -⟩ := h.copy.block b' hb'
  simpa [mapId, hσ] using hfc

theorem mem_blocks (h : ChainLink f g L origPH X top σ newLoop bl) : ∀ b ∈ bl, b ∈ g.blocks := by
  intro b hb
  rw [h.blocks_eq] at hb
  obtain ⟨b', hb', rfl⟩ := List.mem_map.1 hb
  obtain ⟨c, hσ, hcb, -⟩ := h.copy.block b' hb'
  simpa [mapId, hσ] using hcb

theorem extend {g' : Func} (h : ChainLink f g L origPH X top σ newLoop bl) (hg : g.Numbered)
    (he : Extends g g') : ChainLink f g' L origPH X top σ newLoop bl :=
  ⟨h.copy.extend hg he, h.exit, h.blocks_eq, h.loop_eq, h.nodup, h.top_not_mem⟩

theorem source {f' : Func} (h : ChainLink f' g L origPH X top σ newLoop bl) (he : Extends f f')
    (hf : f.Numbered) (hbs : ∀ b ∈ origPH :: L.blocks, b ∈ f.blocks) :
    ChainLink f g L origPH X top σ newLoop bl :=
  ⟨h.copy.source he hf hbs, h.exit, h.blocks_eq, h.loop_eq, h.nodup, h.top_not_mem⟩

end ChainLink

/-- `cloneChain` builds a chain: each partition's copy exits to the preheader of the copy made
before it, the first to `top`; `L` keeps its preheader. -/
theorem cloneChain_spec {L : Loop} {pred X origPH : Nat} (hnd : L.blocks.Nodup) (hXL : X ∉ L.blocks)
    (hXph : X ≠ origPH) :
    ∀ (qs : List DistPartition) (st : PassState) (top : Nat) {r : PassState × Nat × List DistPartition},
    cloneChain L pred X qs (st, top) = .ok r → (∀ q ∈ qs, q.vmap = fun _ => none) →
    st.f.Numbered → (∀ b ∈ L.blocks, b ∈ st.f.blocks) → L.getLoopPreheader st.f = some origPH →
    top ∈ st.f.blocks → top ∉ L.blocks → X ∈ st.f.blocks →
    ChainSpec st.f r.1.f L origPH X top r.2.2 ∧ r.2.2.map (·.part) = qs.map (·.part) ∧
      r.2.1 = (r.2.2.map (phOf origPH)).getLastD top ∧ L.getLoopPreheader r.1.f = some origPH
  | [], st, top, r, h, _, hf, _, hph, _, _, _ => by
    cases h
    refine ⟨⟨Extends.refl _, hf, fun j q h => by simp at h, fun b => by simp, fun _ h => by simp at h,
      List.Pairwise.nil⟩, rfl, rfl, hph⟩
  | q :: qs, st, top, r, h, hv, hf, hL, hph, htop, htopL, hX => by
    unfold cloneChain at h
    obtain ⟨⟨st₁, σ, newLoop, bl⟩, hcl, h⟩ := bind_eq_ok h
    rw [hv q (List.mem_cons_self _ _)] at hcl
    obtain ⟨hlink, hgn, hge, hmem, hσph, hnpre, hLpre⟩ :=
      cloneChain_step hcl hf hL hnd hph htop htop htopL hX hXL hXph
    simp only [hnpre] at h
    obtain ⟨⟨st', topF, rest⟩, hrec, h⟩ := bind_eq_ok h
    cases h
    have hph₁ : st.f.fresh ∈ bl := by rw [hlink.blocks_eq]; simp [mapId, hσph]
    obtain ⟨hcs, hparts, htopF, hLpre'⟩ := cloneChain_spec hnd hXL hXph qs _ _ hrec
      (fun q hq => hv q (List.mem_cons_of_mem _ hq)) hgn (fun b hb => hge.blocks b (hL b hb)) hLpre
      ((hmem _).2 (.inr hph₁)) (fun h => (hf.block_lt _ (hL _ h)).false) (hge.blocks X hX)
    dsimp only at hcs hparts htopF hLpre'
    have hphOf : mapId (Function.update σ X (some top)) origPH = st.f.fresh := by
      simp [mapId, hσph]
    have hbs : ∀ b ∈ origPH :: L.blocks, b ∈ st.f.blocks := by
      obtain ⟨-, -, hphb, -⟩ := L.getLoopPreheader_spec st.f hph
      simpa [hphb] using hL
    dsimp only
    refine ⟨⟨hge.trans hcs.ext, hcs.numbered, fun j q' hj => ?_, fun b => ?_, ?_, ?_⟩,
      by simp [hparts], by simp only [htopF, List.map_cons, List.getLastD_cons, phOf, hphOf], hLpre'⟩
    · cases j with
      | zero =>
        simp only [List.getElem?_cons_zero, Option.some.injEq] at hj; subst hj
        exact ⟨newLoop, rfl, hlink.extend hgn hcs.ext⟩
      | succ j =>
        rw [List.getElem?_cons_succ] at hj
        obtain ⟨nl, hnl, hl⟩ := hcs.links j q' hj
        refine ⟨nl, hnl, ?_⟩
        simp only [List.map_cons, List.getD_cons_succ, phOf, hphOf]
        exact hl.source hge hf hbs
    · rw [hcs.mem_blocks, hmem]
      simp only [List.mem_cons, exists_eq_or_imp, or_assoc]
    · intro q' hq' b hb
      rcases List.mem_cons.1 hq' with rfl | hq'
      · exact hlink.fresh_le b hb
      · exact hge.fresh_le.trans (hcs.fresh q' hq' b hb)
    · refine List.pairwise_cons.2 ⟨fun q' hq' b hb hb' => ?_, hcs.disjoint⟩
      have := hgn.block_lt b (hlink.mem_blocks b hb)
      have := hcs.fresh q' hq' b hb'
      omega

/-! ## `cloneLoops` -/

/-- A run of `cloneLoops` that returns found the preheader, its single predecessor and the exit
block, built the chain, and relinked the predecessor's terminator to the chain's top. -/
theorem cloneLoops_eq_ok {L : Loop} {st st' : PassState} {parts ps : List DistPartition}
    (h : cloneLoops L st parts = .ok (st', ps)) :
    ∃ origPH pred X stc topPH cloned t, L.getLoopPreheader st.f = some origPH ∧
      st.f.getSinglePredecessor origPH = some pred ∧ L.getExitBlock st.f = some X ∧
      parts ≠ [] ∧ (st.f.body origPH).length = 1 ∧
      cloneChain L pred X parts.dropLast.reverse (st, origPH) = .ok (stc, topPH, cloned) ∧
      ps = cloned.reverse ++ parts.getLast?.toList ∧ stc.f.getTerminator pred = some t ∧
      st'.f = stc.f.setInst t ((stc.f.inst t).replaceUsesOfWith (.block origPH) (.block topPH)) := by
  unfold cloneLoops at h
  rcases hph : L.getLoopPreheader st.f with _ | origPH <;> simp only [hph] at h
  · cases h
  rcases hpr : st.f.getSinglePredecessor origPH with _ | pred <;> simp only [hpr] at h
  · cases h
  rcases hX : L.getExitBlock st.f with _ | X <;> simp only [hX] at h
  · cases h
  rcases hc : cloneChain L pred X parts.dropLast.reverse (st, origPH) with e | ⟨stc, topPH, cloned⟩
  · simp only [hc, bind, Except.bind, pure, Except.pure] at h; split_ifs at h
  rcases ht : stc.f.getTerminator pred with _ | t
  · simp only [hc, ht, bind, Except.bind, pure, Except.pure] at h; split_ifs at h
  simp only [hc, ht, bind, Except.bind, pure, Except.pure] at h
  split_ifs at h with hp hb
  split at h
  · cases h
  · cases h
    exact ⟨origPH, pred, X, stc, topPH, cloned, t, rfl, hpr, rfl, by simpa using hp,
      by simpa using hb, hc, rfl, ht, rfl⟩

end Llvm.LoopDistribute
