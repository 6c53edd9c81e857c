import Mathlib.Data.List.GetD
import Llvm.LoopDistribute.Chain
import Llvm.LoopDistribute.Pipeline

/-!
# `cloneLoops` relinks the chain: the loops run in partition order

* `relink` : the last step of `cloneLoops`, the predecessor's terminator sent to the chain's top;
* `LoopShape` : what the checks of `cloneLoops` say of the loop, its preheader, the preheader's
  predecessor and the exit block;
* `Relinked`, `cloneLoops_relinked` : the function `cloneLoops` leaves, the cloned partitions
  listed in the order their loops run;
* `Relinked.mem_preds_origPH`, `Relinked.getLoopPreheader_link`, `Relinked.sublist_of_path` : who
  enters each preheader, and that a path from the first preheader to the exit passes them all in
  order;
* `LoopChain`, `cloneLoops_chain` : all of it for a run of `cloneLoops` on the partitions
  `processLoop` makes.
-/

namespace Llvm.LoopDistribute

open Func

/-! ## Relinking the predecessor -/

theorem filterMap_getBlock?_replace (a c : Nat) (ops : List Value) :
    (ops.map fun o => if o = .block a then .block c else o).filterMap Value.getBlock? =
      (ops.filterMap Value.getBlock?).map fun s => if s = a then c else s := by
  induction ops with
  | nil => rfl
  | cons v ops ih =>
    cases v with
    | block b => by_cases hb : b = a <;> simp [Value.getBlock?, ih, hb]
    | _ => simp [Value.getBlock?, ih]

/-- The last step of `cloneLoops`: the terminator `t` names `top` where it named `origPH`. -/
def relink (g : Func) (t origPH top : Nat) : Func :=
  g.setInst t ((g.inst t).replaceUsesOfWith (.block origPH) (.block top))

section Relink

variable {g : Func} {p t origPH top : Nat}

@[simp] theorem relink_blocks : (relink g t origPH top).blocks = g.blocks := rfl

@[simp] theorem relink_body : (relink g t origPH top).body = g.body := rfl

theorem relink_inst_of_ne {i : Nat} (hi : i ≠ t) : (relink g t origPH top).inst i = g.inst i := by
  simp [relink, hi]

/-- Blocks other than the one `t` ends keep their successors. -/
theorem relink_succs_of_ne (hg : g.Numbered) {b : Nat} (hb : b ∈ g.blocks) (hp : p ∈ g.blocks)
    (ht : g.getTerminator p = some t) (hbp : b ≠ p) : (relink g t origPH top).succs b = g.succs b :=
  succs_congr rfl fun _ ht' => relink_inst_of_ne fun h =>
    hbp (hg.eq_of_mem_body hb hp (List.mem_of_mem_getLast? ht') (List.mem_of_mem_getLast? (h ▸ ht)))

/-- The block `t` ends now branches to `top` where it branched to `origPH`. -/
theorem relink_succs (ht : g.getTerminator p = some t) :
    (relink g t origPH top).succs p = (g.succs p).map fun s => if s = origPH then top else s := by
  have ht' : (relink g t origPH top).getTerminator p = some t := ht
  unfold succs
  rw [ht, ht']
  simp only [relink, setInst_inst, ↓reduceIte, Inst.replaceUsesOfWith, filterMap_getBlock?_replace]

theorem Copy.relink {f : Func} {σ : ValueMap} {bs : List Nat} {tr : Inst → Inst}
    (hc : Copy f g σ bs tr) (ht : t < f.fresh) : Copy f (relink g t origPH top) σ bs tr :=
  ⟨fun b hb => by simpa using hc.block b hb, fun b hb i hi => by
    obtain ⟨c, hσ, hfc, hic⟩ := hc.inst b hb i hi
    exact ⟨c, hσ, hfc, by rw [relink_inst_of_ne (by omega), hic]⟩⟩

theorem ChainLink.relink {f : Func} {L : Loop} {X top' : Nat} {σ : ValueMap} {newLoop : Loop}
    {bl : List Nat} (h : ChainLink f g L origPH X top' σ newLoop bl) (ht : t < f.fresh) :
    ChainLink f (relink g t origPH top) L origPH X top' σ newLoop bl :=
  ⟨h.copy.relink ht, h.exit, h.blocks_eq, h.loop_eq, h.nodup, h.top_not_mem⟩

end Relink

/-! ## The loop `cloneLoops` accepts -/

/-- What the checks of `cloneLoops` say of the loop `L` of `f`, with its preheader `origPH`, the
preheader's single predecessor `pred` and the exit block `X`. -/
structure LoopShape (f : Func) (L : Loop) (origPH pred X : Nat) : Prop where
  preheader : L.getLoopPreheader f = some origPH
  blocks_sub : ∀ b ∈ L.blocks, b ∈ f.blocks
  ph_mem : origPH ∈ f.blocks
  pred_mem : pred ∈ f.blocks
  pred_not_mem : pred ∉ origPH :: L.blocks
  exit_mem : X ∈ f.blocks
  exit_not_mem : X ∉ origPH :: L.blocks
  succs : ∀ b ∈ origPH :: L.blocks, ∀ s ∈ f.succs b, s ∈ L.blocks ∨ s = X
  pred_succ : origPH ∈ f.succs pred
  pred_unique : ∀ b ∈ f.blocks, origPH ∈ f.succs b → b = pred

theorem LoopShape.of_checks {f : Func} {L : Loop} {origPH pred X : Nat} (hf : f.Numbered)
    (hL : ∀ b ∈ L.blocks, b ∈ f.blocks) (hph : L.getLoopPreheader f = some origPH)
    (hpred : f.getSinglePredecessor origPH = some pred) (hX : L.getExitBlock f = some X)
    (hXph : X ≠ origPH) : LoopShape f L origPH pred X := by
  obtain ⟨hd, hhd, hphb, hphL, hphs, -⟩ := L.getLoopPreheader_spec f hph
  obtain ⟨hpb, hps, hpu⟩ := f.getSinglePredecessor_spec hpred
  obtain ⟨hXL, ⟨b, hb, hXb⟩, hex⟩ := L.getExitBlock_spec f hX
  have hphL' : origPH ∉ L.blocks := by simpa [Loop.containsBlock] using hphL
  have hsuccs : ∀ b ∈ origPH :: L.blocks, ∀ s ∈ f.succs b, s ∈ L.blocks ∨ s = X := by
    intro b hb s hs
    rcases List.mem_cons.1 hb with rfl | hb
    · rw [hphs, List.mem_singleton] at hs
      exact .inl (hs ▸ List.mem_of_mem_head? hhd)
    · exact hex b hb s hs
  refine ⟨hph, hL, hphb, hpb, fun hp => ?_, hf.succs_sub b (hL b hb) X hXb, by simp [hXph, hXL], hsuccs,
    hps, hpu⟩
  rcases hsuccs pred hp origPH hps with h | h
  · exact hphL' h
  · exact hXph h.symm

namespace ChainLink

variable {f g : Func} {L : Loop} {origPH X top : Nat} {σ : ValueMap} {newLoop : Loop} {bl : List Nat}
  (h : ChainLink f g L origPH X top σ newLoop bl)
include h

theorem mapId_mem {b : Nat} (hb : b ∈ origPH :: L.blocks) : mapId σ b ∈ bl := by
  rw [h.blocks_eq]; exact List.mem_map_of_mem _ hb

theorem mapId_exit : mapId σ X = top := by simp [mapId, h.exit]

theorem mapId_inj {b b' : Nat} (hb : b ∈ origPH :: L.blocks) (hb' : b' ∈ origPH :: L.blocks)
    (he : mapId σ b = mapId σ b') : b = b' :=
  List.inj_on_of_nodup_map (h.blocks_eq ▸ h.nodup) hb hb' he

theorem exists_of_mem {c : Nat} (hc : c ∈ bl) : ∃ b ∈ origPH :: L.blocks, c = mapId σ b := by
  rw [h.blocks_eq] at hc
  obtain ⟨b, hb, rfl⟩ := List.mem_map.1 hc
  exact ⟨b, hb, rfl⟩

/-- The copy of a block branches to the images of the block's successors. -/
theorem succs_mapId {b : Nat} (hb : b ∈ origPH :: L.blocks) :
    g.succs (mapId σ b) = (f.succs b).map (mapId σ) := by
  obtain ⟨c, hσ, hc⟩ := h.copy.succs hb
  rwa [show mapId σ b = c by simp [mapId, hσ]]

theorem vmap_eq {b : Nat} (hb : b ∈ origPH :: L.blocks) : σ b = some (mapId σ b) := by
  obtain ⟨c, hσ, -⟩ := h.copy.block b hb
  simp [mapId, hσ]

theorem mem_loop {b : Nat} (hb : b ∈ L.blocks) : mapId σ b ∈ newLoop.blocks := by
  rw [h.loop_eq]; exact List.mem_map_of_mem _ hb

end ChainLink

/-! ## The chain after `cloneLoops` -/

/-- The preheaders of the chain's loops in the order they run: the copy of `origPH` for each
cloned partition, then `origPH`. -/
def chainPreheaders (origPH : Nat) (rs : List DistPartition) : List Nat :=
  rs.map (phOf origPH) ++ [origPH]

section ChainPreheaders

variable {origPH i : Nat} {rs : List DistPartition}

theorem getD_map_append {α β : Type} {F : α → β} {a d : β} {l : List α} {x : α}
    (h : l[i]? = some x) : (l.map F ++ [a]).getD i d = F x := by
  have hi : i < l.length := (List.getElem?_eq_some_iff.1 h).1
  rw [List.getD_eq_getElem?_getD, List.getElem?_append_left (by simpa using hi), List.getElem?_map, h]
  rfl

theorem getD_map_append_length {α β : Type} (F : α → β) (a d : β) (l : List α) :
    (l.map F ++ [a]).getD l.length d = a := by
  simp [List.getD_eq_getElem?_getD, List.getElem?_append_right]

theorem chainPreheaders_getD {q : DistPartition} (h : rs[i]? = some q) :
    (chainPreheaders origPH rs).getD i 0 = phOf origPH q :=
  getD_map_append h

theorem chainPreheaders_getD_length : (chainPreheaders origPH rs).getD rs.length 0 = origPH :=
  getD_map_append_length _ _ _ _

theorem chainPreheaders_getD_cases (hi : i ≤ rs.length) :
    ((chainPreheaders origPH rs).getD i 0 = origPH ∧ i = rs.length) ∨
    ∃ q, rs[i]? = some q ∧ (chainPreheaders origPH rs).getD i 0 = phOf origPH q := by
  rcases h : rs[i]? with _ | q
  · obtain rfl : i = rs.length := le_antisymm hi (List.getElem?_eq_none_iff.1 h)
    exact .inl ⟨chainPreheaders_getD_length, rfl⟩
  · exact .inr ⟨q, rfl, chainPreheaders_getD h⟩

/-- Each preheader of the chain is `origPH` or the first block of a link. -/
theorem chainPreheaders_getD_mem (hi : i ≤ rs.length) :
    (chainPreheaders origPH rs).getD i 0 = origPH ∨
      ∃ q ∈ rs, (chainPreheaders origPH rs).getD i 0 = phOf origPH q := by
  rcases chainPreheaders_getD_cases hi with ⟨h, -⟩ | ⟨q, hq, h⟩
  · exact .inl h
  · exact .inr ⟨q, List.mem_iff_getElem?.2 ⟨i, hq⟩, h⟩

end ChainPreheaders

/-- The function `g` that `cloneLoops` leaves from `f`: the cloned partitions `rs`, in the order
their loops run, each hold a link of the chain exiting to the next preheader (the last to
`origPH`), on new blocks no two links share; `pred` branches to the first preheader where it
branched to `origPH`; every other block of `f` keeps its successors, and the preheader and the
loop keep their instructions. -/
structure Relinked (f g : Func) (L : Loop) (origPH pred X : Nat) (rs : List DistPartition) :
    Prop where
  shape : LoopShape f L origPH pred X
  numbered : f.Numbered
  links : ∀ i q, rs[i]? = some q → ∃ newLoop, q.clonedLoop = some newLoop ∧
    ChainLink f g L origPH X ((chainPreheaders origPH rs).getD (i + 1) 0) q.vmap newLoop
      q.clonedLoopBlocks
  mem_blocks : ∀ b, b ∈ g.blocks ↔ b ∈ f.blocks ∨ ∃ q ∈ rs, b ∈ q.clonedLoopBlocks
  disjoint : ∀ q ∈ rs, ∀ q' ∈ rs, ∀ b ∈ q.clonedLoopBlocks, b ∈ q'.clonedLoopBlocks → q = q'
  succs_old : ∀ b ∈ f.blocks, b ≠ pred → g.succs b = f.succs b
  succs_pred : g.succs pred =
    (f.succs pred).map fun s => if s = origPH then (chainPreheaders origPH rs).getD 0 0 else s
  body : ∀ b ∈ origPH :: L.blocks, g.body b = f.body b ∧ ∀ i ∈ f.body b, g.inst i = f.inst i

namespace Relinked

variable {f g : Func} {L : Loop} {origPH pred X : Nat} {rs : List DistPartition}
  (hr : Relinked f g L origPH pred X rs)
include hr

theorem link_of_mem {q : DistPartition} (hq : q ∈ rs) : ∃ i newLoop, rs[i]? = some q ∧
    q.clonedLoop = some newLoop ∧ ChainLink f g L origPH X ((chainPreheaders origPH rs).getD (i + 1) 0)
      q.vmap newLoop q.clonedLoopBlocks := by
  obtain ⟨i, hi⟩ := List.mem_iff_getElem?.1 hq
  obtain ⟨nl, hnl, hl⟩ := hr.links i q hi
  exact ⟨i, nl, hi, hnl, hl⟩

theorem phOf_mem {q : DistPartition} (hq : q ∈ rs) : phOf origPH q ∈ q.clonedLoopBlocks := by
  obtain ⟨_, _, _, _, hl⟩ := hr.link_of_mem hq
  exact hl.mapId_mem (List.mem_cons_self _ _)

theorem fresh_le {q : DistPartition} {b : Nat} (hq : q ∈ rs) (hb : b ∈ q.clonedLoopBlocks) :
    f.fresh ≤ b := by
  obtain ⟨_, _, _, _, hl⟩ := hr.link_of_mem hq
  exact hl.fresh_le b hb

/-- A successor of a block of a link: the copy of a block of the loop, or the link's exit target. -/
theorem succ_of_link {q : DistPartition} {n s : Nat} (hq : q ∈ rs) (hn : n ∈ q.clonedLoopBlocks)
    (hs : s ∈ g.succs n) : ∃ i newLoop b, rs[i]? = some q ∧ q.clonedLoop = some newLoop ∧
      ChainLink f g L origPH X ((chainPreheaders origPH rs).getD (i + 1) 0) q.vmap newLoop
        q.clonedLoopBlocks ∧ b ∈ origPH :: L.blocks ∧ n = mapId q.vmap b ∧
      ((∃ s' ∈ L.blocks, s = mapId q.vmap s') ∨
        (X ∈ f.succs b ∧ s = (chainPreheaders origPH rs).getD (i + 1) 0)) := by
  obtain ⟨i, nl, hi, hnl, hl⟩ := hr.link_of_mem hq
  obtain ⟨b, hb, rfl⟩ := hl.exists_of_mem hn
  rw [hl.succs_mapId hb] at hs
  obtain ⟨s', hs', rfl⟩ := List.mem_map.1 hs
  refine ⟨i, nl, b, hi, hnl, hl, hb, rfl, ?_⟩
  rcases hr.shape.succs b hb s' hs' with h | rfl
  · exact .inl ⟨s', h, rfl⟩
  · exact .inr ⟨hs', hl.mapId_exit⟩

/-- `origPH` is entered only from the copies, in the link that runs last, of the loop's exiting
blocks. -/
theorem mem_preds_origPH (hne : rs ≠ []) {n : Nat} : n ∈ g.preds origPH ↔
    ∃ q b, rs.getLast? = some q ∧ b ∈ L.blocks ∧ X ∈ f.succs b ∧ q.vmap b = some n := by
  have hs := hr.shape
  have hph := hr.numbered.block_lt _ hs.ph_mem
  obtain ⟨hd, hhd, -, -, hphs, -⟩ := L.getLoopPreheader_spec f hs.preheader
  constructor
  · intro h
    obtain ⟨hn, hsn⟩ := (mem_preds g).1 h
    rcases (hr.mem_blocks n).1 hn with hnf | ⟨q, hq, hnq⟩
    · by_cases hnp : n = pred
      · subst hnp
        rw [hr.succs_pred] at hsn
        obtain ⟨s, -, hse⟩ := List.mem_map.1 hsn
        split_ifs at hse with hso
        · obtain ⟨q, hq⟩ : ∃ q, rs[0]? = some q := by
            cases rs with
            | nil => exact absurd rfl hne
            | cons q _ => exact ⟨q, by simp⟩
          rw [chainPreheaders_getD hq] at hse
          have := hr.fresh_le (List.mem_iff_getElem?.2 ⟨0, hq⟩) (hr.phOf_mem (List.mem_iff_getElem?.2 ⟨0, hq⟩))
          omega
        · exact absurd hse hso
      · rw [hr.succs_old n hnf hnp] at hsn
        exact absurd (hs.pred_unique n hnf hsn) hnp
    · obtain ⟨i, _, b, hi, -, hl, hb, rfl, ⟨s', hs'L, he⟩ | ⟨hXb, he⟩⟩ := hr.succ_of_link hq hnq hsn
      · have := hl.fresh_le _ (hl.mapId_mem (List.mem_cons_of_mem _ hs'L))
        omega
      · have hi' : i < rs.length := (List.getElem?_eq_some_iff.1 hi).1
        rcases @chainPreheaders_getD_cases origPH _ _ (show i + 1 ≤ rs.length by omega) with ⟨-, hlen⟩ | ⟨q', hq', he'⟩
        · refine ⟨q, b, ?_, ?_, hXb, hl.vmap_eq hb⟩
          · rw [List.getLast?_eq_getElem?, show rs.length - 1 = i by omega, hi]
          · rcases List.mem_cons.1 hb with rfl | hb
            · rw [hphs, List.mem_singleton] at hXb
              exact absurd (hXb ▸ List.mem_cons_of_mem _ (List.mem_of_mem_head? hhd)) hs.exit_not_mem
            · exact hb
        · rw [he'] at he
          have hq'm := List.mem_iff_getElem?.2 ⟨_, hq'⟩
          have := hr.fresh_le hq'm (hr.phOf_mem hq'm)
          omega
  · rintro ⟨q, b, hq, hb, hXb, hσ⟩
    have hi : rs[rs.length - 1]? = some q := by rwa [← List.getLast?_eq_getElem?]
    obtain ⟨_, -, hl⟩ := hr.links _ q hi
    have htop : (chainPreheaders origPH rs).getD (rs.length - 1 + 1) 0 = origPH := by
      rw [Nat.sub_add_cancel (List.length_pos.2 hne)]; exact chainPreheaders_getD_length
    obtain rfl : n = mapId q.vmap b := by simp [mapId, hσ]
    refine (mem_preds g).2 ⟨hl.mem_blocks _ (hl.mapId_mem (List.mem_cons_of_mem _ hb)), ?_⟩
    rw [hl.succs_mapId (List.mem_cons_of_mem _ hb)]
    exact List.mem_map.2 ⟨X, hXb, hl.mapId_exit.trans htop⟩

/-- The loop keeps its preheader. -/
theorem getLoopPreheader_loop : L.getLoopPreheader g = some origPH := by
  have hs := hr.shape
  obtain ⟨hd, hhd, hphb, hphL, hphs, hall⟩ := L.getLoopPreheader_spec f hs.preheader
  have hhdL : hd ∈ L.blocks := List.mem_of_mem_head? hhd
  have hhdf : hd < f.fresh := hr.numbered.block_lt hd (hs.blocks_sub hd hhdL)
  have hphp : origPH ≠ pred := fun h => hs.pred_not_mem (h ▸ List.mem_cons_self _ _)
  have hnot : ∀ i ≤ rs.length, (chainPreheaders origPH rs).getD i 0 ≠ hd := fun i hi he => by
    rcases @chainPreheaders_getD_mem origPH _ _ hi with h | ⟨q, hq, h⟩
    · simp [Loop.containsBlock, h.symm.trans he, hhdL] at hphL
    · have := hr.fresh_le hq (h ▸ hr.phOf_mem hq)
      omega
  refine L.getLoopPreheader_eq_some g hhd (fun n hpre hnL => ?_) ?_ hphL
    (by rw [hr.succs_old _ hphb hphp, hphs])
  · obtain ⟨hn, hsn⟩ := (mem_preds g).1 hpre
    rcases (hr.mem_blocks n).1 hn with hnf | ⟨q, hq, hnq⟩
    · by_cases hnp : n = pred
      · subst hnp
        rw [hr.succs_pred] at hsn
        obtain ⟨s, hs', hse⟩ := List.mem_map.1 hsn
        split_ifs at hse with hso
        · exact absurd hse (hnot 0 (Nat.zero_le _))
        · exact absurd (hall _ ((mem_preds f).2 ⟨hnf, hse ▸ hs'⟩) hnL) (Ne.symm hphp)
      · rw [hr.succs_old n hnf hnp] at hsn
        exact hall n ((mem_preds f).2 ⟨hnf, hsn⟩) hnL
    · exfalso
      obtain ⟨i, _, b, hi, -, hl, -, -, ⟨s', hs'L, he⟩ | ⟨-, he⟩⟩ := hr.succ_of_link hq hnq hsn
      · have := hl.fresh_le _ (hl.mapId_mem (List.mem_cons_of_mem _ hs'L))
        omega
      · exact hnot (i + 1) (by have := (List.getElem?_eq_some_iff.1 hi).1; omega) he.symm
  · exact (mem_preds g).2 ⟨(hr.mem_blocks _).2 (.inl hphb), by rw [hr.succs_old _ hphb hphp, hphs]; simp⟩

/-- Each cloned loop has the copy of `origPH` as its preheader. -/
theorem getLoopPreheader_link {i : Nat} {q : DistPartition} {newLoop : Loop} (hi : rs[i]? = some q)
    (hnl : q.clonedLoop = some newLoop) : newLoop.getLoopPreheader g = some (phOf origPH q) := by
  obtain ⟨nl, hnl', hl⟩ := hr.links i q hi
  rw [hnl, Option.some.injEq] at hnl'
  subst hnl'
  have hs := hr.shape
  obtain ⟨hd, hhd, hphb, hphL, hphs, -⟩ := L.getLoopPreheader_spec f hs.preheader
  have hhdL : hd ∈ L.blocks := List.mem_of_mem_head? hhd
  have hq : q ∈ rs := List.mem_iff_getElem?.2 ⟨i, hi⟩
  have hhd' : mapId q.vmap hd ∈ q.clonedLoopBlocks := hl.mapId_mem (List.mem_cons_of_mem _ hhdL)
  have hfresh := hl.fresh_le _ hhd'
  have hne : origPH ≠ hd := fun h => by simp [Loop.containsBlock, h, hhdL] at hphL
  have hnot : ∀ j ≤ rs.length, (chainPreheaders origPH rs).getD j 0 ≠ mapId q.vmap hd :=
    fun j hj he => by
      rcases @chainPreheaders_getD_mem origPH _ _ hj with h | ⟨q', hq', h⟩
      · have := hr.numbered.block_lt _ hphb
        omega
      · obtain rfl := hr.disjoint q' hq' q hq ((chainPreheaders origPH rs).getD j 0)
          (by rw [h]; exact hr.phOf_mem hq') (by rw [he]; exact hhd')
        exact hne (hl.mapId_inj (List.mem_cons_self _ _) (List.mem_cons_of_mem _ hhdL) (h.symm.trans he))
  have hnh : newLoop.getHeader = some (mapId q.vmap hd) := by
    rw [Loop.getHeader] at hhd ⊢; rw [hl.loop_eq, List.head?_map, hhd]; rfl
  have hph_succ : g.succs (mapId q.vmap origPH) = [mapId q.vmap hd] := by
    rw [hl.succs_mapId (List.mem_cons_self _ _), hphs, List.map_singleton]
  have hnotin : mapId q.vmap origPH ∉ newLoop.blocks := by
    have := hl.nodup
    rw [hl.blocks_eq, List.map_cons] at this
    rw [hl.loop_eq]; exact (List.nodup_cons.1 this).1
  refine newLoop.getLoopPreheader_eq_some g hnh (fun n hpre hnL => ?_)
    ((mem_preds g).2 ⟨hl.mem_blocks _ (hl.mapId_mem (List.mem_cons_self _ _)), by simp [phOf, hph_succ]⟩)
    (by simpa [Loop.containsBlock] using hnotin) hph_succ
  obtain ⟨hn, hsn⟩ := (mem_preds g).1 hpre
  rcases (hr.mem_blocks n).1 hn with hnf | ⟨q', hq', hnq⟩
  · exfalso
    by_cases hnp : n = pred
    · subst hnp
      rw [hr.succs_pred] at hsn
      obtain ⟨s, hs', hse⟩ := List.mem_map.1 hsn
      split_ifs at hse
      · exact hnot 0 (Nat.zero_le _) hse
      · have := hr.numbered.block_lt _ (hr.numbered.succs_sub _ hnf _ hs')
        omega
    · rw [hr.succs_old n hnf hnp] at hsn
      have := hr.numbered.block_lt _ (hr.numbered.succs_sub _ hnf _ hsn)
      omega
  · obtain ⟨j, _, b, hj, -, hl', hb, rfl, ⟨s', hs'L, he⟩ | ⟨-, he⟩⟩ := hr.succ_of_link hq' hnq hsn
    · obtain rfl := hr.disjoint q' hq' q hq _
        (by rw [he]; exact hl'.mapId_mem (List.mem_cons_of_mem _ hs'L)) hhd'
      rcases List.mem_cons.1 hb with rfl | hbL
      · rfl
      · simp [Loop.containsBlock, hl.mem_loop hbL] at hnL
    · exact absurd he.symm (hnot (j + 1) (by have := (List.getElem?_eq_some_iff.1 hj).1; omega))

/-- Every path from the first preheader to the exit block passes the preheaders of the chain in
the order the loops run. -/
theorem sublist_of_path {l : List Nat} (hl : g.IsPath l)
    (hh : l.head? = (chainPreheaders origPH rs).head?) (hx : l.getLast? = some X) :
    (chainPreheaders origPH rs ++ [X]).Sublist l := by
  have hs := hr.shape
  have hlen : (chainPreheaders origPH rs).length = rs.length + 1 := by simp [chainPreheaders]
  have hX := hr.numbered.block_lt X hs.exit_mem
  have hnext : ∀ i < rs.length, (chainPreheaders origPH rs ++ [X]).getD (i + 1) 0 =
      (chainPreheaders origPH rs).getD (i + 1) 0 := fun i hi => List.getD_append _ _ _ _ (by omega)
  have hlast : (chainPreheaders origPH rs ++ [X]).getD (rs.length + 1) 0 = X := by
    rw [List.getD_append_right _ _ _ _ (by omega), hlen]; simp
  have hcases : ∀ i < rs.length + 1, (∃ q, rs[i]? = some q) ∨ i = rs.length := fun i hi => by
    rcases h : rs[i]? with _ | q
    · have := List.getElem?_eq_none_iff.1 h
      exact .inr (by omega)
    · exact .inl ⟨q, rfl⟩
  refine IsPath.sublist_of_regions g X _
    (fun i b => b ∈ (rs.map (·.clonedLoopBlocks) ++ [origPH :: L.blocks]).getD i [])
    (fun i hi => ?_) (fun i hi b hb s hsb => ?_) (fun i hi => ?_) l hl hh hx
  all_goals rw [hlen] at hi
  · rw [← List.getD_eq_getElem _ 0]
    rcases hcases i hi with ⟨q, h⟩ | rfl
    · rw [getD_map_append h, chainPreheaders_getD h]
      exact hr.phOf_mem (List.mem_iff_getElem?.2 ⟨i, h⟩)
    · rw [getD_map_append_length, chainPreheaders_getD_length]
      exact List.mem_cons_self _ _
  · rcases hcases i hi with ⟨q, h⟩ | rfl
    · dsimp only at hb ⊢
      rw [getD_map_append h] at hb ⊢
      obtain ⟨_, -, hlk⟩ := hr.links i q h
      obtain ⟨b', hb', rfl⟩ := hlk.exists_of_mem hb
      rw [hlk.succs_mapId hb'] at hsb
      obtain ⟨s', hs', rfl⟩ := List.mem_map.1 hsb
      rcases hs.succs b' hb' s' hs' with h' | rfl
      · exact .inl (hlk.mapId_mem (List.mem_cons_of_mem _ h'))
      · exact .inr (by rw [hnext i (List.getElem?_eq_some_iff.1 h).1, hlk.mapId_exit])
    · dsimp only at hb ⊢
      rw [getD_map_append_length] at hb ⊢
      have hbf : b ∈ f.blocks := by
        rcases List.mem_cons.1 hb with rfl | hb
        · exact hs.ph_mem
        · exact hs.blocks_sub b hb
      rw [hr.succs_old b hbf fun h => hs.pred_not_mem (h ▸ hb)] at hsb
      rcases hs.succs b hb s hsb with h' | rfl
      · exact .inl (List.mem_cons_of_mem _ h')
      · exact .inr hlast.symm
  · rcases hcases i hi with ⟨q, h⟩ | rfl
    · dsimp only
      rw [getD_map_append h]
      obtain ⟨_, -, hlk⟩ := hr.links i q h
      refine ⟨fun hXq => ?_, by rw [hnext i (List.getElem?_eq_some_iff.1 h).1]; exact hlk.top_not_mem⟩
      have := hlk.fresh_le X hXq
      omega
    · dsimp only
      rw [getD_map_append_length, hlast]
      exact ⟨hs.exit_not_mem, hs.exit_not_mem⟩

end Relinked

/-! ## From `cloneLoops` to the chain -/

/-- The links of a chain, listed in the order their loops run: each exits to the preheader of the
next, the last to the chain's first exit `top`. -/
theorem ChainSpec.links_reverse {f g : Func} {L : Loop} {origPH X top : Nat}
    {qs : List DistPartition} (hcs : ChainSpec f g L origPH X top qs) {i : Nat} {q : DistPartition}
    (hq : qs.reverse[i]? = some q) : ∃ newLoop, q.clonedLoop = some newLoop ∧
      ChainLink f g L origPH X ((qs.reverse.map (phOf origPH) ++ [top]).getD (i + 1) 0) q.vmap
        newLoop q.clonedLoopBlocks := by
  have hi : i < qs.length := by simpa using (List.getElem?_eq_some_iff.1 hq).1
  rw [List.getElem?_reverse hi] at hq
  obtain ⟨nl, hnl, hl⟩ := hcs.links _ q hq
  have htop : (qs.reverse.map (phOf origPH) ++ [top]).getD (i + 1) 0 =
      (top :: qs.map (phOf origPH)).getD (qs.length - 1 - i) 0 := by
    rw [List.map_reverse, ← List.reverse_cons, List.getD_eq_getElem?_getD,
      List.getElem?_reverse (by simp; omega), List.getD_eq_getElem?_getD]
    congr 2
    simp only [List.length_cons, List.length_map]
    omega
  exact ⟨nl, hnl, htop ▸ hl⟩

theorem getLastD_eq_getD_reverse (l : List Nat) (a : Nat) : l.getLastD a = (l.reverse ++ [a]).getD 0 0 := by
  induction l using List.reverseRecOn <;> simp

/-- A run of `cloneLoops` from a function whose ids are in order, on partitions not cloned yet,
leaves the chain: the cloned partitions, in the order their loops run, and the last one. -/
theorem cloneLoops_relinked {L : Loop} {st st' : PassState} {parts ps : List DistPartition}
    {origPH pred X : Nat} (hf : st.f.Numbered) (hL : ∀ b ∈ L.blocks, b ∈ st.f.blocks)
    (hnd : L.blocks.Nodup) (hph : L.getLoopPreheader st.f = some origPH)
    (hpred : st.f.getSinglePredecessor origPH = some pred) (hX : L.getExitBlock st.f = some X)
    (hXph : X ≠ origPH) (hv : ∀ p ∈ parts, p.vmap = fun _ => none)
    (h : cloneLoops L st parts = .ok (st', ps)) :
    ∃ rs, Relinked st.f st'.f L origPH pred X rs ∧ rs.map (·.part) = parts.dropLast.map (·.part) ∧
      ps = rs ++ parts.getLast?.toList := by
  obtain ⟨origPH', pred', X', stc, topPH, cloned, t, hph', hpred', hX', -, -, hc, rfl, ht, hst⟩ :=
    cloneLoops_eq_ok h
  rw [hph, Option.some.injEq] at hph'; subst hph'
  rw [hpred, Option.some.injEq] at hpred'; subst hpred'
  rw [hX, Option.some.injEq] at hX'; subst hX'
  have hs := LoopShape.of_checks hf hL hph hpred hX hXph
  obtain ⟨hcs, hparts, htop, -⟩ := cloneChain_spec hnd
    (fun h => hs.exit_not_mem (List.mem_cons_of_mem _ h)) hXph _ _ _ hc
    (fun q hq => hv q (List.mem_of_mem_dropLast (List.mem_reverse.1 hq))) hf hL hph hs.ph_mem
    (fun h => (L.getLoopPreheader_spec st.f hph).elim fun _ h' => by
      simp [Loop.containsBlock, h] at h')
    hs.exit_mem
  dsimp only at hcs hparts htop
  have ht' : st.f.getTerminator pred = some t := by
    rw [← ht]; unfold getTerminator; rw [hcs.ext.body pred (hf.block_lt _ hs.pred_mem)]
  have htf : t ∈ st.f.body pred := List.mem_of_mem_getLast? ht'
  have htlt : t < st.f.fresh := hf.mem_body_lt hs.pred_mem htf
  have hst' : st'.f = relink stc.f t origPH topPH := hst
  have htopPH : topPH = (chainPreheaders origPH cloned.reverse).getD 0 0 := by
    rw [htop, chainPreheaders, List.map_reverse]; exact getLastD_eq_getD_reverse _ _
  refine ⟨cloned.reverse, ⟨hs, hf, fun i q hq => ?_, fun b => ?_, ?_, fun b hb hbp => ?_, ?_,
    fun b hb => ?_⟩, by rw [List.map_reverse, hparts, List.map_reverse, List.reverse_reverse], rfl⟩
  · obtain ⟨nl, hnl, hl⟩ := hcs.links_reverse hq
    exact ⟨nl, hnl, hst' ▸ hl.relink htlt⟩
  · rw [hst', relink_blocks, hcs.mem_blocks]
    simp only [List.mem_reverse]
  · intro q hq q' hq' b hb hb'
    by_contra hne
    exact hcs.disjoint.forall (fun _ _ h => List.Disjoint.symm h) (List.mem_reverse.1 hq)
      (List.mem_reverse.1 hq') hne hb hb'
  · rw [hst', relink_succs_of_ne hcs.numbered (hcs.ext.blocks b hb) (hcs.ext.blocks pred hs.pred_mem)
      ht hbp, hcs.ext.succs hf hb]
  · rw [hst', relink_succs ht, hcs.ext.succs hf hs.pred_mem, htopPH]
  · have hbf : b ∈ st.f.blocks := by
      rcases List.mem_cons.1 hb with rfl | hb
      · exact hs.ph_mem
      · exact hL b hb
    refine ⟨by rw [hst', relink_body, hcs.ext.body b (hf.block_lt b hbf)], fun i hi => ?_⟩
    have hit : i ≠ t := fun h =>
      hs.pred_not_mem (hf.eq_of_mem_body hs.pred_mem hbf htf (h ▸ hi) ▸ hb)
    rw [hst', relink_inst_of_ne hit, hcs.ext.inst i (hf.mem_body_lt hbf hi)]

/-- What `cloneLoops` makes of the loop `L` of `f` in `g`, for the partitions `rs ++ [last]` in the
order their loops run: `pred` enters the first loop where it entered `L`; each partition of `rs`
runs a remapped copy of `L` with its own preheader, exiting to the next preheader; the last runs
`L` itself, entered only from the exits of the copy before it; no other block changes its
successors; and every path from the first preheader to `X` goes through the preheaders in order. -/
structure LoopChain (f g : Func) (L : Loop) (origPH pred X : Nat) (rs : List DistPartition)
    (last : DistPartition) : Prop where
  pred_succs : g.succs pred =
    (f.succs pred).map fun s => if s = origPH then (chainPreheaders origPH rs).getD 0 0 else s
  links : ∀ i q, rs[i]? = some q → ∃ newLoop, q.clonedLoop = some newLoop ∧
    q.vmap origPH = some ((chainPreheaders origPH rs).getD i 0) ∧
    newLoop.getLoopPreheader g = some ((chainPreheaders origPH rs).getD i 0) ∧
    ChainLink f g L origPH X ((chainPreheaders origPH rs).getD (i + 1) 0) q.vmap newLoop
      q.clonedLoopBlocks
  last_loop : last.clonedLoop = none
  preheader : L.getLoopPreheader g = some origPH
  loop_kept : ∀ b ∈ origPH :: L.blocks, g.body b = f.body b ∧ ∀ i ∈ f.body b, g.inst i = f.inst i
  preds_origPH : ∀ n, n ∈ g.preds origPH ↔
    ∃ q b, rs.getLast? = some q ∧ b ∈ L.blocks ∧ X ∈ f.succs b ∧ q.vmap b = some n
  succs_other : ∀ b ∈ f.blocks, b ≠ pred → g.succs b = f.succs b
  in_order : ∀ l, g.IsPath l → l.head? = (chainPreheaders origPH rs).head? →
    l.getLast? = some X → (chainPreheaders origPH rs ++ [X]).Sublist l

/-- `cloneLoops` on at least two partitions, as `processLoop` makes them, builds the chain of
loops in partition order. -/
theorem cloneLoops_chain {L : Loop} {st st' : PassState} {parts ps : List DistPartition}
    {origPH pred X : Nat} (hf : st.f.Numbered) (hL : ∀ b ∈ L.blocks, b ∈ st.f.blocks)
    (hnd : L.blocks.Nodup) (hph : L.getLoopPreheader st.f = some origPH)
    (hpred : st.f.getSinglePredecessor origPH = some pred) (hX : L.getExitBlock st.f = some X)
    (hXph : X ≠ origPH) (hparts : ∀ p ∈ parts, p = { part := p.part }) (hk : 2 ≤ parts.length)
    (h : cloneLoops L st parts = .ok (st', ps)) :
    ∃ rs last, ps = rs ++ [last] ∧ (rs ++ [last]).map (·.part) = parts.map (·.part) ∧ rs ≠ [] ∧
      LoopChain st.f st'.f L origPH pred X rs last := by
  obtain ⟨rs, hr, hrs, rfl⟩ := cloneLoops_relinked hf hL hnd hph hpred hX hXph
    (fun p hp => by rw [hparts p hp]) h
  obtain ⟨last, hlast⟩ := Option.isSome_iff_exists.1
    (List.getLast?_isSome.2 (List.ne_nil_of_length_pos (show 0 < parts.length by omega)))
  have hne : rs ≠ [] := fun h0 => by
    have := congrArg List.length hrs
    simp only [h0, List.map_nil, List.length_nil, List.length_map, List.length_dropLast] at this
    omega
  refine ⟨rs, last, by rw [hlast]; rfl, ?_, hne, hr.succs_pred, fun i q hq => ?_,
    by rw [hparts last (List.mem_of_mem_getLast? hlast)], hr.getLoopPreheader_loop, hr.body,
    fun n => hr.mem_preds_origPH hne, hr.succs_old, fun l => hr.sublist_of_path⟩
  · rw [List.map_append, hrs, ← List.map_append, List.dropLast_append_getLast? last hlast]
  · obtain ⟨nl, hnl, hl⟩ := hr.links i q hq
    rw [chainPreheaders_getD hq]
    exact ⟨nl, hnl, hl.vmap_eq (List.mem_cons_self _ _), hr.getLoopPreheader_link hq hnl, hl⟩

/-- The dominator tree of `fourAccessFunc`. -/
def fourAccessDomTree : DomTree := fun b => match b with | 1 => some 0 | 2 => some 1 | _ => none

/-- `fourAccessFunc` after the split `processLoop` makes of its preheader 0: the new preheader 19
has the single predecessor 0. -/
def splitFourAccess : PassState :=
  let r := fourAccessFunc.splitBlock fourAccessDomTree 0
  ⟨r.1, r.2.1⟩

theorem cloneLoops_chain_splitFourAccess :
    ∃ st' ps, cloneLoops fourAccessLoop splitFourAccess
        [{ part := ⟨{12, 13}, false⟩ }, { part := ⟨{14, 15}, true⟩ }] = .ok (st', ps) ∧
      ∃ rs last, ps = rs ++ [last] ∧
        (rs ++ [last]).map (·.part) = [⟨{12, 13}, false⟩, ⟨{14, 15}, true⟩] ∧ rs ≠ [] ∧
        LoopChain splitFourAccess.f st'.f fourAccessLoop 19 0 2 rs last := by
  have hparts : ∀ p ∈ [({ part := ⟨{12, 13}, false⟩ } : DistPartition), { part := ⟨{14, 15}, true⟩ }],
      p = { part := p.part } := by
    intro p hp
    simp only [List.mem_cons, List.mem_singleton, List.not_mem_nil, or_false] at hp
    rcases hp with rfl | rfl <;> rfl
  exact ⟨_, _, rfl, cloneLoops_chain (by decide) (by decide) (by decide) (by decide) (by decide)
    (by decide) (by decide) hparts (by decide) rfl⟩

end Llvm.LoopDistribute
