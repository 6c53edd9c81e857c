import Llvm.LoopDistribute.ProcessLoop

/-!
# The preheader `cloneLoops` is given

`cloneLoops` asserts that the preheader of the loop has a single predecessor, that the loop has a
single exit block, that there is a partition, and that the preheader holds only its terminator.
`processLoop` prepares the first and the last by splitting the preheader (line 1001), and
`versionLoop` splits it once more behind the memchecks. This module shows that what reaches
`cloneLoops` passes the four checks, on both paths of `distribute`:

* `SameCfg f g`, `SameEdges f g` : frames for the steps that keep the CFG (`annotateNoAlias`,
  `newScope`, `addPHINodes`), with the transfer of the loop queries (`SameEdges.getLoopPreheader`,
  `SameEdges.getSinglePredecessor`, `SameEdges.getExitBlock`);
* `ClonePre f L ph pred X` : what the checks read; `ClonePre.of_sameEdges`;
* `splitBlock_clonePre` : a split preheader is a block holding only the branch, whose single
  predecessor is the block it was split from;
* `versionLoop_clonePre`, `addPHINodes_sameEdges` : the versioned path keeps the checks;
* `beforeCloneLoops`, `distribute_eq` : `distribute` up to its call of `cloneLoops`;
* `beforeCloneLoops_clonePre` : both paths.
-/

namespace Llvm

namespace Func

/-! ## Frames -/

/-- `g` has the layout and the bodies of `f`, no smaller a counter, and every instruction keeps its
block operands: the CFG is the same. -/
structure SameCfg (f g : Func) : Prop where
  blocks : g.blocks = f.blocks
  body : g.body = f.body
  fresh_le : f.fresh ≤ g.fresh
  blockOps : ∀ i, (g.inst i).operands.filterMap Value.getBlock? =
    (f.inst i).operands.filterMap Value.getBlock?

/-- `g` has the layout of `f`, and every block of it keeps its successors. -/
structure SameEdges (f g : Func) : Prop where
  blocks : g.blocks = f.blocks
  succs : ∀ b ∈ f.blocks, g.succs b = f.succs b

namespace SameCfg

variable {f g k : Func}

theorem refl (f : Func) : SameCfg f f := ⟨rfl, rfl, le_rfl, fun _ => rfl⟩

theorem trans (h₁ : SameCfg f g) (h₂ : SameCfg g k) : SameCfg f k :=
  ⟨h₂.blocks.trans h₁.blocks, h₂.body.trans h₁.body, h₁.fresh_le.trans h₂.fresh_le,
    fun i => (h₂.blockOps i).trans (h₁.blockOps i)⟩

theorem setInst {i : Nat} {x : Inst} (hx : x.operands.filterMap Value.getBlock? =
    (f.inst i).operands.filterMap Value.getBlock?) : SameCfg f (f.setInst i x) :=
  ⟨rfl, rfl, le_rfl, fun j => by by_cases hj : j = i <;> simp [hj, hx]⟩

theorem foldl {α : Type} {step : Func → α → Func} (hs : ∀ g a, SameCfg g (step g a)) :
    ∀ (l : List α) (g : Func), SameCfg g (l.foldl step g)
  | [], g => refl g
  | a :: l, g => (hs g a).trans (SameCfg.foldl hs l _)

theorem allInsts_eq (h : SameCfg f g) : g.allInsts = f.allInsts := by
  unfold allInsts; rw [h.blocks, h.body]

theorem succs_eq (h : SameCfg f g) : g.succs = f.succs := by
  funext b
  unfold Func.succs getTerminator
  rw [h.body]
  cases (f.body b).getLast? with
  | none => rfl
  | some t => exact h.blockOps t

theorem sameEdges (h : SameCfg f g) : SameEdges f g := ⟨h.blocks, fun b _ => by rw [h.succs_eq]⟩

end SameCfg

namespace SameEdges

variable {f g k : Func}

theorem trans (h₁ : SameEdges f g) (h₂ : SameEdges g k) : SameEdges f k :=
  ⟨h₂.blocks.trans h₁.blocks, fun b hb =>
    (h₂.succs b (h₁.blocks ▸ hb)).trans (h₁.succs b hb)⟩

variable (h : SameEdges f g)
include h

theorem preds (t : Nat) : g.preds t = f.preds t := by
  unfold Func.preds
  rw [h.blocks]
  exact List.flatMap_congr fun b hb => by rw [h.succs b hb]

theorem getSinglePredecessor (t : Nat) : g.getSinglePredecessor t = f.getSinglePredecessor t := by
  unfold Func.getSinglePredecessor
  rw [h.preds]

theorem getLoopPreheader (L : Loop) : L.getLoopPreheader g = L.getLoopPreheader f := by
  unfold Loop.getLoopPreheader Loop.getLoopPredecessor
  simp only [h.preds]
  rcases hs : L.getHeader.bind fun hd => L.loopPredecessorScan (f.preds hd) none with _ | p
  · rfl
  · obtain ⟨hd, -, hp⟩ := Option.bind_eq_some.1 hs
    rcases L.loopPredecessorScan_some hp with h' | ⟨hmem, -⟩
    · cases h'
    · simp only [h.succs p ((f.mem_preds).1 hmem).1]

end SameEdges

theorem filterMap_eq_replicate (b t : Nat) (l : List Nat) :
    l.filterMap (fun s => if s = t then some b else none) = List.replicate (l.count t) b := by
  induction l with
  | nil => rfl
  | cons s l ih => by_cases hs : s = t <;> simp [hs, ih, List.count_cons, List.replicate_succ]

theorem preds_eq_singleton {f : Func} {p t : Nat} (hnd : f.blocks.Nodup) (hp : p ∈ f.blocks)
    (hpt : (f.succs p).count t = 1) (hother : ∀ b ∈ f.blocks, b ≠ p → t ∉ f.succs b) :
    f.preds t = [p] := by
  obtain ⟨s, u, hsu⟩ := List.append_of_mem hp
  have hpsu : p ∉ s ++ u := (List.nodup_cons.1 (List.nodup_middle.1 (hsu ▸ hnd))).1
  have hnone : ∀ b ∈ s ++ u, (f.succs b).count t = 0 := fun b hb =>
    List.count_eq_zero.2 (hother b (by
      rw [hsu]; exact List.mem_append.2 ((List.mem_append.1 hb).imp_right (List.mem_cons_of_mem p)))
      fun h => hpsu (h ▸ hb))
  unfold preds
  simp only [filterMap_eq_replicate, hsu, List.flatMap_append, List.flatMap_cons, hpt]
  rw [List.flatMap_eq_nil_iff.2 fun b hb => by rw [hnone b (List.mem_append_left u hb)]; rfl,
    List.flatMap_eq_nil_iff.2 fun b hb => by rw [hnone b (List.mem_append_right s hb)]; rfl]
  rfl

end Func

namespace Loop

theorem getExitBlock_congr (L : Loop) {f g : Func} (h : ∀ b ∈ L.blocks, g.succs b = f.succs b) :
    L.getExitBlock g = L.getExitBlock f := by
  unfold getExitBlock getExitBlocks
  rw [List.flatMap_congr fun b hb => by rw [h b hb]]

theorem getLoopPreheader_of_preds {L : Loop} {f g : Func} {p : Nat}
    (h : L.getLoopPreheader f = some p)
    (hpreds : ∀ hd, L.getHeader = some hd → ∀ n, n ∈ g.preds hd ↔ n ∈ f.preds hd)
    (hs : g.succs p = f.succs p) : L.getLoopPreheader g = some p := by
  obtain ⟨hd, hhd, hpb, hpL, hps, hall⟩ := L.getLoopPreheader_spec f h
  exact L.getLoopPreheader_eq_some g hhd (fun n hn => hall n ((hpreds hd hhd n).1 hn))
    ((hpreds hd hhd p).2 ((f.mem_preds).2 ⟨hpb, by simp [hps]⟩)) hpL (hs.trans hps)

end Loop

theorem Func.SameEdges.getExitBlock {f g : Func} (h : f.SameEdges g) (L : Loop)
    (hL : ∀ b ∈ L.blocks, b ∈ f.blocks) : L.getExitBlock g = L.getExitBlock f :=
  L.getExitBlock_congr fun b hb => h.succs b (hL b hb)

namespace LoopDistribute

open Func

/-! ## What `cloneLoops` checks -/

/-- What the checks of `cloneLoops` read of the loop `L` of `f`: its preheader `ph` holds only its
terminator and has the single predecessor `pred`, and `X` is the single exit block. -/
structure ClonePre (f : Func) (L : Loop) (ph pred X : Nat) : Prop where
  preheader : L.getLoopPreheader f = some ph
  single_pred : f.getSinglePredecessor ph = some pred
  exit : L.getExitBlock f = some X
  body_length : (f.body ph).length = 1

/-- A step that keeps the CFG and the preheader's body keeps the checks. -/
theorem ClonePre.of_sameEdges {f g : Func} {L : Loop} {ph pred X : Nat} (h : ClonePre f L ph pred X)
    (he : SameEdges f g) (hL : ∀ b ∈ L.blocks, b ∈ f.blocks) (hb : g.body ph = f.body ph) :
    ClonePre g L ph pred X :=
  ⟨(he.getLoopPreheader L).trans h.preheader, (he.getSinglePredecessor ph).trans h.single_pred,
    (he.getExitBlock L hL).trans h.exit, hb ▸ h.body_length⟩

theorem ClonePre.of_sameCfg {f g : Func} {L : Loop} {ph pred X : Nat} (h : ClonePre f L ph pred X)
    (hc : SameCfg f g) : ClonePre g L ph pred X :=
  ⟨(hc.sameEdges.getLoopPreheader L).trans h.preheader,
    (hc.sameEdges.getSinglePredecessor ph).trans h.single_pred,
    (L.getExitBlock_congr fun b _ => by rw [hc.succs_eq]).trans h.exit, hc.body ▸ h.body_length⟩

/-! ## Splitting the preheader -/

theorem splitBlock_preheader {f : Func} (dt : DomTree) {L : Loop} {p : Nat} (hf : f.Numbered)
    (hL : ∀ b ∈ L.blocks, b ∈ f.blocks) (hph : L.getLoopPreheader f = some p) :
    L.getLoopPreheader (f.splitBlock dt p).1 = some f.fresh ∧
    (f.splitBlock dt p).1.getSinglePredecessor f.fresh = some p ∧
    ((f.splitBlock dt p).1.body f.fresh).length = 1 ∧
    ∀ b ∈ L.blocks, (f.splitBlock dt p).1.succs b = f.succs b := by
  obtain ⟨hd, hhd, hpb, hpL, hps, hall⟩ := L.getLoopPreheader_spec f hph
  have hpL' : p ∉ L.blocks := by simpa [Loop.containsBlock] using hpL
  have hhdf : hd < f.fresh := hf.block_lt hd (hL hd (List.mem_of_mem_head? hhd))
  have hg : (f.splitBlock dt p).1.Numbered := hf.splitBlock hpb
  have hmem : ∀ b, b ∈ (f.splitBlock dt p).1.blocks ↔ b = f.fresh ∨ b ∈ f.blocks :=
    fun b => mem_splitBlock_blocks hf hpb
  have hnew : (f.splitBlock dt p).1.succs f.fresh = [hd] := (splitBlock_succs_new hf hpb).trans hps
  have hold : (f.splitBlock dt p).1.succs p = [f.fresh] := splitBlock_succs_old
  -- a block of `f` other than `p` keeps its successors, all of them below `f.fresh`
  have hkeep : ∀ b ∈ f.blocks, b ≠ p → (f.splitBlock dt p).1.succs b = f.succs b :=
    fun b hb hbp => splitBlock_succs_of_ne hf hb hbp
  refine ⟨?_, ?_, ?_, fun b hb => hkeep b (hL b hb) fun h => hpL' (h ▸ hb)⟩
  · refine L.getLoopPreheader_eq_some _ hhd (fun n hn hnL => ?_)
      ((mem_preds _).2 ⟨(hmem _).2 (.inl rfl), by simp [hnew]⟩) ?_ hnew
    · obtain ⟨hnb, hs⟩ := (mem_preds _).1 hn
      rcases (hmem n).1 hnb with rfl | hnb
      · rfl
      · by_cases hnp : n = p
        · subst hnp; rw [hold, List.mem_singleton] at hs; omega
        · rw [hkeep n hnb hnp] at hs
          exact absurd (hall n ((mem_preds f).2 ⟨hnb, hs⟩) hnL) hnp
    · simp only [Loop.containsBlock, decide_eq_false_iff_not]
      exact fun h => absurd (hf.block_lt _ (hL _ h)) (lt_irrefl _)
  · unfold getSinglePredecessor
    rw [preds_eq_singleton hg.blocks_nodup ((hmem p).2 (.inr hpb)) (by simp [hold])
      fun b hb hbp => ?_]
    rcases (hmem b).1 hb with rfl | hb
    · rw [hnew, List.mem_singleton]; omega
    · rw [hkeep b hb hbp]
      exact fun hs => absurd (hf.block_lt _ (hf.succs_sub b hb _ hs)) (lt_irrefl _)
  · have hne : f.body p ≠ [] := fun h0 => by simp [Func.succs, getTerminator, h0] at hps
    obtain ⟨t, ht⟩ := Option.isSome_iff_exists.1 (List.getLast?_isSome.2 hne)
    rw [splitBlock_body, Function.update_noteq (hf.block_lt p hpb).ne', Function.update_same, ht]
    rfl

/-! ## `versionLoop` -/

theorem addRuntimeCheck_sameEdges {f : Func} {bb : Nat} (hf : f.Numbered) :
    SameEdges f (addRuntimeCheck f bb).1 := by
  refine ⟨rfl, fun b hb => ?_⟩
  by_cases hbb : b = bb
  · subst hbb
    unfold Func.succs getTerminator
    simp only [addRuntimeCheck, Function.update_same]
    cases ht : (f.body b).getLast? with
    | none => simp [List.getLast?_eq_none_iff.1 ht]
    | some t =>
      simp [ht, Function.update_noteq (hf.mem_body_lt hb (List.mem_of_mem_getLast? ht)).ne]
  · exact succs_congr (Function.update_noteq hbb _ _) fun t ht =>
      Function.update_noteq (hf.mem_body_lt hb (List.mem_of_mem_getLast? ht)).ne _ _

theorem numbered_addRuntimeCheck {f : Func} {bb : Nat} (hf : f.Numbered) (hbb : bb ∈ f.blocks) :
    (addRuntimeCheck f bb).1.Numbered := by
  have hl := dropLast_append_getLast?_toList (f.body bb)
  -- the new body of `bb` is the old one with the check inserted
  have hsub : ∀ i ∈ (addRuntimeCheck f bb).1.body bb, i ∈ f.body bb ∨ i = f.fresh := fun i hi => by
    simp only [addRuntimeCheck, Function.update_same, List.mem_append, List.mem_singleton] at hi
    rcases hi with (hi | rfl) | hi
    · exact .inl (List.mem_of_mem_dropLast hi)
    · exact .inr rfl
    · exact .inl (List.mem_of_mem_getLast? (by simpa using hi))
  have hbody : ∀ b, b ≠ bb → (addRuntimeCheck f bb).1.body b = f.body b :=
    fun b hb => Function.update_noteq hb _ _
  refine hf.update_body hbb rfl hbody ?_ (fun i hi => (hsub i hi).imp_right fun h => ?_) (by
    simp [addRuntimeCheck]) (fun b hb s hs => ?_) fun i hi v hv j hj => ?_
  · simp only [addRuntimeCheck, Function.update_same, List.append_assoc, List.singleton_append]
    refine List.perm_middle.nodup_iff.2 (List.nodup_cons.2 ⟨fun hm => ?_, by rw [hl]; exact hf.body_nodup hbb⟩)
    exact absurd (hf.mem_body_lt hbb (hl ▸ hm)) (lt_irrefl _)
  · exact ⟨h.ge, by simp [h, addRuntimeCheck]⟩
  · rw [(addRuntimeCheck_sameEdges hf).succs b hb] at hs; exact hf.succs_sub b hb s hs
  · show j < f.fresh + 1
    by_cases hic : i = f.fresh
    · subst hic; simp [addRuntimeCheck] at hv
    · rw [show (addRuntimeCheck f bb).1.inst i = f.inst i from Function.update_noteq hic _ _] at hv
      obtain ⟨b, hb, hib⟩ := mem_allInsts.1 hi
      have hi' : i ∈ f.body b := by
        by_cases hbb' : b = bb
        · subst hbb'; exact (hsub i hib).resolve_right hic
        · rwa [hbody b hbb'] at hib
      exact Nat.lt_succ_of_lt (hf.operand_lt i (mem_allInsts.2 ⟨b, hb, hi'⟩) v hv j hj)

theorem remapInstructionsInLoop_congr {f : Func} {bs : List Nat} {σ σ' : ValueMap}
    (h : ∀ j, mapId σ j = mapId σ' j) :
    f.remapInstructionsInLoop bs σ = f.remapInstructionsInLoop bs σ' := by
  unfold remapInstructionsInLoop
  rw [Inst.remap_congr h]

theorem mem_addRuntimeCheck_allInsts {f : Func} {bb u : Nat}
    (hu : u ∈ (addRuntimeCheck f bb).1.allInsts) : u ∈ f.allInsts ∨ u = f.fresh := by
  obtain ⟨b, hb, hub⟩ := mem_allInsts.1 hu
  by_cases hbb : b = bb
  · subst hbb
    simp only [addRuntimeCheck, Function.update_same, List.mem_append, List.mem_singleton] at hub
    rcases hub with (hub | rfl) | hub
    · exact .inl (mem_allInsts.2 ⟨b, hb, List.mem_of_mem_dropLast hub⟩)
    · exact .inr rfl
    · exact .inl (mem_allInsts.2 ⟨b, hb, List.mem_of_mem_getLast? (by simpa using hub)⟩)
  · exact .inl (mem_allInsts.2 ⟨b, hb, by simpa [addRuntimeCheck, Function.update_noteq hbb] using hub⟩)

theorem Inst.mem_remap_operands {σ : ValueMap} {x : Inst} {j : Nat}
    (h : Value.inst j ∈ (x.remap σ).operands) : ∃ j₀, Value.inst j₀ ∈ x.operands ∧ mapId σ j₀ = j := by
  obtain ⟨o, ho, he⟩ := List.mem_map.1 h
  cases o with
  | inst j₀ => exact ⟨j₀, ho, by simpa [mapValue] using he⟩
  | _ => simp [mapValue] at he

theorem Inst.not_mem_remap_operands {σ : ValueMap} {x : Inst} {j : Nat} (himg : ∀ j₀, σ j₀ ≠ some j)
    (hdom : (σ j).isSome) : Value.inst j ∉ (x.remap σ).operands := fun h => by
  obtain ⟨j₀, -, he⟩ := Inst.mem_remap_operands h
  cases hσ : σ j₀ with
  | some c => exact himg j₀ (by simpa [mapId, hσ] using he)
  | none =>
    simp only [mapId, hσ, Option.getD_none] at he
    subst he
    simp [hσ] at hdom

theorem mem_branch_allInsts {g : Func} {m u : Nat} {x : Inst}
    (hu : u ∈ ({ g with
        body := Function.update g.body m ((g.body m).dropLast ++ [g.fresh])
        inst := Function.update g.inst g.fresh x
        fresh := g.fresh + 1 } : Func).allInsts) : u = g.fresh ∨ u ∈ g.allInsts := by
  obtain ⟨b, hb, hub⟩ := mem_allInsts.1 hu
  dsimp only at hub
  by_cases hbm : b = m
  · subst hbm
    simp only [Function.update_same, List.mem_append, List.mem_singleton] at hub
    exact hub.symm.imp id fun hub => mem_allInsts.2 ⟨b, hb, List.mem_of_mem_dropLast hub⟩
  · exact .inr (mem_allInsts.2 ⟨b, hb, by rwa [Function.update_noteq hbm] at hub⟩)

theorem succs_branch {g : Func} {m c a ph b : Nat} (hg : g.Numbered) (hb : b ∈ g.blocks) :
    ({ g with
        body := Function.update g.body m ((g.body m).dropLast ++ [g.fresh])
        inst := Function.update g.inst g.fresh ⟨.br, [.inst c, .block a, .block ph], [], [], []⟩
        fresh := g.fresh + 1 } : Func).succs b = if b = m then [a, ph] else g.succs b := by
  split_ifs with hbm
  · subst hbm
    unfold Func.succs getTerminator
    simp [Value.getBlock?]
  · exact succs_congr (Function.update_noteq hbm _ _) fun t ht =>
      Function.update_noteq (hg.mem_body_lt hb (List.mem_of_mem_getLast? ht)).ne _ _

theorem numbered_branch {g : Func} {m c a ph : Nat} (hg : g.Numbered) (hmb : m ∈ g.blocks)
    (hc : c < g.fresh) (ha : a ∈ g.blocks) (hph : ph ∈ g.blocks) :
    ({ g with
        body := Function.update g.body m ((g.body m).dropLast ++ [g.fresh])
        inst := Function.update g.inst g.fresh ⟨.br, [.inst c, .block a, .block ph], [], [], []⟩
        fresh := g.fresh + 1 } : Func).Numbered := by
  have hnot : g.fresh ∉ (g.body m).dropLast := fun h =>
    lt_irrefl _ (hg.mem_body_lt hmb (List.mem_of_mem_dropLast h))
  refine hg.update_body hmb rfl (fun b hb => Function.update_noteq hb _ _) ?_ (fun i hi => ?_)
    (Nat.le_succ _) (fun b hb s hs => ?_) (fun i hi v hv j hj => ?_)
  · dsimp only
    rw [Function.update_same, List.nodup_append]
    exact ⟨(hg.body_nodup hmb).sublist (List.dropLast_sublist _), List.nodup_singleton _,
      fun i hi hi' => hnot (List.mem_singleton.1 hi' ▸ hi)⟩
  · dsimp only at hi ⊢
    rw [Function.update_same, List.mem_append, List.mem_singleton] at hi
    rcases hi with hi | rfl
    · exact .inl (List.mem_of_mem_dropLast hi)
    · exact .inr ⟨le_rfl, Nat.lt_succ_self _⟩
  · rw [succs_branch hg hb] at hs
    split_ifs at hs
    · simp only [List.mem_cons, List.not_mem_nil, or_false] at hs
      rcases hs with rfl | rfl <;> assumption
    · exact hg.succs_sub b hb s hs
  · dsimp only at hv ⊢
    by_cases hi' : i = g.fresh
    · subst hi'
      simp only [Function.update_same, List.mem_cons, List.not_mem_nil, or_false] at hv
      rcases hv with rfl | rfl | rfl <;> simp only [Value.id?, Option.mem_def,
        Option.some.injEq] at hj <;> subst hj
      · omega
      · exact Nat.lt_succ_of_lt (hg.block_lt _ ha)
      · exact Nat.lt_succ_of_lt (hg.block_lt _ hph)
    · rw [Function.update_noteq hi'] at hv
      exact Nat.lt_succ_of_lt (hg.operand_lt i ((mem_branch_allInsts hi).resolve_left hi') v hv j hj)

theorem clonePre_branch {g : Func} {L : Loop} {m c a ph X : Nat} (hg : g.Numbered)
    (hL : ∀ b ∈ L.blocks, b ∈ g.blocks) (hmb : m ∈ g.blocks) (hmL : m ∉ L.blocks)
    (hph : L.getLoopPreheader g = some ph) (hms : g.succs m = [ph])
    (hX : L.getExitBlock g = some X) (hlen : (g.body ph).length = 1) (hpm : ph ≠ m) (hpa : ph ≠ a)
    (haL : a ∉ L.blocks) (hother : ∀ b ∈ g.blocks, b ≠ m → ph ∉ g.succs b) :
    ClonePre { g with
        body := Function.update g.body m ((g.body m).dropLast ++ [g.fresh])
        inst := Function.update g.inst g.fresh ⟨.br, [.inst c, .block a, .block ph], [], [], []⟩
        fresh := g.fresh + 1 } L ph m X ∧
      ∀ i ∈ ({ g with
        body := Function.update g.body m ((g.body m).dropLast ++ [g.fresh])
        inst := Function.update g.inst g.fresh ⟨.br, [.inst c, .block a, .block ph], [], [], []⟩
        fresh := g.fresh + 1 } : Func).allInsts, i < g.fresh + 1 := by
  set g' : Func := { g with
    body := Function.update g.body m ((g.body m).dropLast ++ [g.fresh])
    inst := Function.update g.inst g.fresh ⟨.br, [.inst c, .block a, .block ph], [], [], []⟩
    fresh := g.fresh + 1 }
  obtain ⟨hd, hhd, hpb, hpL, -, -⟩ := L.getLoopPreheader_spec g hph
  have hhdL : hd ∈ L.blocks := List.mem_of_mem_head? hhd
  have hbody : ∀ b, b ≠ m → g'.body b = g.body b := fun b hb => Function.update_noteq hb _ _
  have hsuccs : ∀ b ∈ g.blocks, b ≠ m → g'.succs b = g.succs b := fun b hb hbm => by
    rw [succs_branch hg hb, if_neg hbm]
  have hsm : g'.succs m = [a, ph] := by rw [succs_branch hg hmb, if_pos rfl]
  refine ⟨⟨L.getLoopPreheader_of_preds hph (fun hd' hhd' n => ?_) (hsuccs ph hpb hpm), ?_,
    (L.getExitBlock_congr fun b hb => hsuccs b (hL b hb) fun h => hmL (h ▸ hb)).trans hX,
    (hbody ph hpm).symm ▸ hlen⟩, fun i hi => ?_⟩
  · rw [hhd] at hhd'; cases hhd'
    by_cases hnm : n = m
    · subst hnm
      have hph' : hd ≠ ph := fun h => by simp [Loop.containsBlock, h ▸ hhdL] at hpL
      have ha' : hd ≠ a := fun h => haL (h ▸ hhdL)
      simp [mem_preds, hsm, hms, hph', ha']
    · simp only [mem_preds]
      exact and_congr_right fun hn => by rw [hsuccs n hn hnm]
  · unfold getSinglePredecessor
    rw [@preds_eq_singleton g' m ph hg.blocks_nodup hmb (by simp [hsm, List.count_cons, hpa.symm, hpa])
      fun b hb hbm => by rw [hsuccs b hb hbm]; exact hother b hb hbm]
  · obtain ⟨b, hb, hib⟩ := mem_allInsts.1 hi
    by_cases hbm : b = m
    · subst hbm
      simp only [g', Function.update_same, List.mem_append, List.mem_singleton] at hib
      rcases hib with hib | rfl
      · exact Nat.lt_succ_of_lt (hg.mem_body_lt hb (List.mem_of_mem_dropLast hib))
      · exact Nat.lt_succ_self _
    · rw [hbody b hbm] at hib
      exact Nat.lt_succ_of_lt (hg.mem_body_lt hb hib)

theorem Copy.lt_fresh {f g : Func} {σ : ValueMap} {bs : List Nat} {tr : Inst → Inst}
    (hc : Copy f g σ bs tr) (hg : g.Numbered) {j : Nat} (hj : j ∈ bs ++ bs.flatMap f.body) :
    ∃ c, σ j = some c ∧ f.fresh ≤ c ∧ c < g.fresh := by
  rcases List.mem_append.1 hj with hj | hj
  · obtain ⟨c, hσ, hcb, hfc, -⟩ := hc.block j hj
    exact ⟨c, hσ, hfc, hg.block_lt c hcb⟩
  · obtain ⟨b, hb, hjb⟩ := List.mem_flatMap.1 hj
    obtain ⟨c, hσ, hfc, -⟩ := hc.inst b hb j hjb
    obtain ⟨cb, c', -, hσ', hcb, hcc⟩ := hc.mem_body hb hjb
    rw [hσ, Option.some.injEq] at hσ'
    subst hσ'
    exact ⟨c, hσ, hfc, hg.mem_body_lt hcb hcc⟩

theorem keepsBlocks_branch {g : Func} {m : Nat} {bs : List Nat} (hg : g.Numbered)
    (hbs : ∀ b ∈ bs, b ∈ g.blocks) (hm : m ∉ bs) (l : List Nat) (x : Inst) :
    KeepsBlocks g ({ g with
        body := Function.update g.body m l
        inst := Function.update g.inst g.fresh x
        fresh := g.fresh + 1 } : Func) bs :=
  KeepsBlocks.of_lt hg hbs (fun b _ hb => Function.update_noteq (fun h : b = m => hm (h ▸ hb)) _ _)
    fun _ hu => Function.update_noteq hu.ne _ _

/-- What `versionLoop` leaves, from `f` to `g`, for a loop with the exit block `X` and `σ` the map
to the fallback loop: the checks of `cloneLoops` pass, the memcheck block of `f` being the
preheader's predecessor; the ids stay in order and the counter only grows; the loop keeps its
blocks and their bodies; `σ` sends ids to new ids of `g` and leaves `X` alone, and the fallback
loop is the remapped copy of the loop. The instructions of `f` keep all but their incoming blocks:
the split renames the preheader in the PHIs of the header. -/
structure Versioning (f g : Func) (L : Loop) (X : Nat) (σ : ValueMap) : Prop where
  checks : ∃ ph pred, ClonePre g L ph pred X ∧ ph ≠ X ∧ pred ∈ f.blocks
  blocks_sub : ∀ b ∈ L.blocks, b ∈ g.blocks
  numbered : g.Numbered
  fresh_le : f.fresh ≤ g.fresh
  body : ∀ b ∈ L.blocks, g.body b = f.body b
  vmap_lt : ∀ j c, σ j = some c → c < g.fresh
  vmap_ge : ∀ j c, σ j = some c → f.fresh ≤ c
  vmap_exit : σ X = none
  fallback : CopiedAs g g σ L.blocks
  inst : ∀ i < f.fresh, ∃ inc, g.inst i = { f.inst i with incoming := inc }
  preheader : ∀ m t, L.getLoopPreheader f = some m → f.getTerminator m = some t →
    ∃ ph, L.getLoopPreheader g = some ph ∧ g.body ph = [t]
  placed : ∀ u ∈ g.allInsts, (u < f.fresh ∧ u ∈ f.allInsts) ∨
    (f.fresh ≤ u ∧ ∀ j ∈ L.insts f, Value.inst j ∉ (g.inst u).operands)
  memcheck : ∀ m, L.getLoopPreheader f = some m → ∃ ph, ClonePre g L ph m X

/-- `versionLoop` on a loop with the exit block `X`: the second split leaves a preheader that holds
only its terminator, with the memcheck block as its single predecessor, and after the branch on
the check `X` is still the single exit block; the fallback loop is a copy on new blocks. -/
theorem versionLoop_spec {L : Loop} {st st' : PassState} {v : Versioned} {X : Nat}
    (hf : st.f.Numbered) (hL : ∀ b ∈ L.blocks, b ∈ st.f.blocks) (hnd : L.blocks.Nodup)
    (hX : L.getExitBlock st.f = some X) (h : versionLoop L st = .ok (st', v)) :
    Versioning st.f st'.f L X v.vmap := by
  unfold versionLoop at h
  rcases hm : L.getLoopPreheader st.f with _ | m <;> simp only [hm] at h
  · cases h
  obtain ⟨⟨st₃, σ, nonDist, bl⟩, hcl, h⟩ := bind_eq_ok h
  dsimp only at h
  obtain ⟨-, -, hmb, hmL, -, -⟩ := L.getLoopPreheader_spec st.f hm
  have hmL' : m ∉ L.blocks := by simpa [Loop.containsBlock] using hmL
  obtain ⟨hXL, ⟨xb, hxb, hXs⟩, -⟩ := L.getExitBlock_spec st.f hX
  have hXb : X ∈ st.f.blocks := hf.succs_sub xb (hL xb hxb) X hXs
  -- the check, then the split of `m`
  set f₁ := (addRuntimeCheck st.f m).1 with hf₁
  have he₁ : SameEdges st.f f₁ := addRuntimeCheck_sameEdges hf
  have hn₁ : f₁.Numbered := numbered_addRuntimeCheck hf hmb
  have hfresh₁ : f₁.fresh = st.f.fresh + 1 := rfl
  obtain ⟨hph₂, hpred₂, hlen₂, hLs₂⟩ :=
    splitBlock_preheader st.dt hn₁ hL ((he₁.getLoopPreheader L).trans hm)
  set f₂ := (f₁.splitBlock st.dt m).1 with hf₂
  have hn₂ : f₂.Numbered := hn₁.splitBlock hmb
  have hfresh₂ : f₂.fresh = f₁.fresh + 2 := rfl
  have hmem₂ : ∀ b, b ∈ f₂.blocks ↔ b = f₁.fresh ∨ b ∈ f₁.blocks :=
    fun b => mem_splitBlock_blocks hn₁ hmb
  have hL₂ : ∀ b ∈ L.blocks, b ∈ f₂.blocks := fun b hb => (hmem₂ b).2 (.inr (hL b hb))
  have hX₂ : L.getExitBlock f₂ = some X :=
    ((L.getExitBlock_congr hLs₂).trans (he₁.getExitBlock L hL)).trans hX
  have hXb₂ : X ∈ f₂.blocks := (hmem₂ X).2 (.inr hXb)
  have hXph : X ≠ f₁.fresh := by have := hf.block_lt X hXb; omega
  have hph₂b : f₁.fresh ∈ f₂.blocks := (hmem₂ _).2 (.inl rfl)
  rw [splitBlock_snd] at hcl
  -- the copy of the loop, whose exits stay on `X`
  obtain ⟨origPH, hph', -, -, -, hagree⟩ := cloneLoopWithPreheader_spec hcl hn₂ hL₂ hnd hph₂b
  rw [hph₂] at hph'; cases hph'
  have hσX : σ X = none := hagree X fun hm' => by
    simp only [List.cons_append, List.mem_cons, List.mem_append, List.mem_flatMap] at hm'
    rcases hm' with h' | h' | ⟨b, hb, hXi⟩
    · exact hXph h'
    · exact hXL h'
    · exact hn₂.block_not_inst X hXb₂ (mem_allInsts.2 ⟨b, hb.elim (· ▸ hph₂b) (hL₂ b), hXi⟩)
  have hmap : ∀ j, mapId σ j = mapId (Function.update σ X (some X)) j := fun j => by
    by_cases hj : j = X
    · subst hj; simp [mapId, hσX]
    · simp [mapId, hj]
  have hremap : st₃.f.remapInstructionsInLoop bl σ =
      st₃.f.remapInstructionsInLoop bl (Function.update σ X (some X)) :=
    remapInstructionsInLoop_congr hmap
  obtain ⟨hlink, hn₄, he₄, hmem₄, -, hnph, hLph⟩ :=
    cloneChain_step hcl hn₂ hL₂ hnd hph₂ hph₂b hXb₂ hXL hXb₂ hXL hXph
  rw [← hremap] at hlink hn₄ he₄ hmem₄ hnph hLph
  set f₄ := st₃.f.remapInstructionsInLoop bl σ with hf₄
  dsimp only at hlink he₄ hmem₄ hnph
  -- no edge but the one from `m` enters the preheader `f₁.fresh`
  have hshape := LoopShape.of_checks hn₂ hL₂ hph₂ hpred₂ hX₂ hXph
  have hother : ∀ b ∈ f₄.blocks, b ≠ m → f₁.fresh ∉ f₄.succs b := fun b hb hbm hs => by
    rcases (hmem₄ b).1 hb with hb | hb
    · rw [he₄.succs hn₂ hb] at hs
      exact hbm ((f₂.getSinglePredecessor_spec hpred₂).2.2 b hb hs)
    · obtain ⟨a, ha, rfl⟩ := hlink.exists_of_mem hb
      rw [hlink.succs_mapId ha] at hs
      obtain ⟨s, hs, hse⟩ := List.mem_map.1 hs
      rcases hshape.succs a ha s hs with hsL | rfl
      · have := hlink.fresh_le _ (hlink.mapId_mem (List.mem_cons_of_mem _ hsL)); omega
      · exact hXph (hlink.mapId_exit ▸ hse)
  have hmb₂ : m ∈ f₂.blocks := (hmem₂ m).2 (.inr hmb)
  have hms : f₄.succs m = [f₁.fresh] := (he₄.succs hn₂ hmb₂).trans splitBlock_succs_old
  have hbr := @clonePre_branch f₄ L m (addRuntimeCheck st.f m).2 f₂.fresh f₁.fresh X hn₄
    (fun b hb => he₄.blocks b (hL₂ b hb)) (he₄.blocks m hmb₂) hmL' hLph hms
    ((L.getExitBlock_congr fun b hb => he₄.succs hn₂ (hL₂ b hb)).trans hX₂)
    (by rw [he₄.body _ (hn₂.block_lt _ hph₂b)]; exact hlen₂)
    (by have := hf.block_lt m hmb; omega) (by omega)
    (fun h' => absurd (hn₂.block_lt _ (hL₂ _ h')) (lt_irrefl _)) hother
  have hterm : (f₄.getTerminator m).isNone = false := by
    unfold Func.succs at hms
    cases ht : f₄.getTerminator m
    · rw [ht] at hms; cases hms
    · rfl
  simp only [hnph, hLph, hterm, hbr.1.exit, Bool.false_eq_true, if_false] at h
  cases h
  have hfresh₄ : f₂.fresh ≤ f₄.fresh := he₄.fresh_le
  obtain ⟨-, -, hnb, -⟩ := nonDist.getLoopPreheader_spec f₄ hnph
  -- the map sends only what was copied, and there to new ids of `f₄`
  have hvmap : ∀ j c, σ j = some c → st.f.fresh ≤ c ∧ c < f₄.fresh := fun j c hj => by
    by_cases hjc : j ∈ (f₁.fresh :: L.blocks) ++ (f₁.fresh :: L.blocks).flatMap f₂.body
    · have hjX : j ≠ X := fun h' => by
        subst h'
        simp only [List.cons_append, List.mem_cons, List.mem_append, List.mem_flatMap] at hjc
        rcases hjc with h' | h' | ⟨b, hb, hXi⟩
        · exact hXph h'
        · exact hXL h'
        · exact hn₂.block_not_inst _ hXb₂ (mem_allInsts.2 ⟨b, hb.elim (· ▸ hph₂b) (hL₂ b), hXi⟩)
      obtain ⟨c', hσ, hc₁, hc₂⟩ := hlink.copy.lt_fresh hn₄ hjc
      rw [Function.update_noteq hjX, hj, Option.some.injEq] at hσ
      subst hσ
      exact ⟨by omega, hc₂⟩
    · exact absurd (hj ▸ hagree j hjc) (by simp)
  -- the fallback loop: the remapped copy of the loop, on new blocks, which the branch leaves alone
  have hcopy : CopiedAs f₂ f₄ σ L.blocks := hlink.copy.copiedAs (fun b hb => List.mem_cons_of_mem _ hb)
    hmap fun b hb => ⟨(Function.update_noteq (fun h : b = X => hXL (h ▸ hb)) _ _).symm, fun i hi =>
      (Function.update_noteq (fun h : i = X => hn₂.block_not_inst X hXb₂
        (h ▸ mem_allInsts.2 ⟨b, hL₂ b hb, hi⟩)) _ _).symm⟩
  have hL₄ : ∀ b ∈ L.blocks, b ∈ f₄.blocks := fun b hb => he₄.blocks b (hL₂ b hb)
  have hfb : ∀ c ∈ L.blocks.map (mapId σ), c ∈ f₄.blocks ∧ m < c := fun c hc => by
    obtain ⟨b, hb, rfl⟩ := List.mem_map.1 hc
    obtain ⟨c, hσ, hcb, -⟩ := hcopy b hb
    have := (hvmap b c hσ).1
    have := hf.block_lt m hmb
    exact ⟨by simpa [mapId, hσ] using hcb, by simp only [mapId, hσ, Option.getD_some]; omega⟩
  have hbody₂ : ∀ b ∈ L.blocks, f₂.body b = st.f.body b := fun b hb => by
    have hbm : b ≠ m := fun h' => hmL' (h' ▸ hb)
    rw [hf₂, splitBlock_body_of_ne hn₁ (hL b hb) hbm]
    exact Function.update_noteq hbm _ _
  refine ⟨⟨f₁.fresh, m, hbr.1, hXph.symm, hmb⟩, hL₄,
    numbered_branch hn₄ (he₄.blocks m hmb₂) (show st.f.fresh < f₄.fresh by omega) hnb
      (he₄.blocks _ hph₂b), show st.f.fresh ≤ f₄.fresh + 1 by omega, fun b hb => ?_,
    fun j c hj => Nat.lt_succ_of_lt (hvmap j c hj).2, fun j c hj => (hvmap j c hj).1, hσX, ?_,
    fun i hi => ?_, fun m' t hm' ht => ⟨f₁.fresh, hbr.1.preheader, ?_⟩, fun u hu => ?_,
    fun m' hm' => ⟨f₁.fresh, Option.some.inj (hm.symm.trans hm') ▸ hbr.1⟩⟩
  · -- the blocks of the loop keep their bodies
    show Function.update f₄.body m _ b = st.f.body b
    rw [Function.update_noteq fun h' : b = m => hmL' (h' ▸ hb), he₄.body b (hn₂.block_lt b (hL₂ b hb)),
      hbody₂ b hb]
  · exact (hcopy.of_source ((KeepsBlocks.of_extends hn₂ hL₂ he₄).trans
      (keepsBlocks_branch hn₄ hL₄ hmL' _ _))).keeps
      (keepsBlocks_branch hn₄ (fun c hc => (hfb c hc).1) (fun hc => lt_irrefl _ (hfb m hc).2) _ _)
      fun _ hb => hb
  · -- only the split touches an old instruction, and only in its incoming blocks
    obtain ⟨inc, hinc⟩ := @splitBlock_inst f₁ st.dt m i (by omega)
    refine ⟨inc, ?_⟩
    show Function.update f₄.inst f₄.fresh _ i = _
    rw [Function.update_noteq (by omega), he₄.inst i (by omega), hf₂, hinc]
    simp only [hf₁, addRuntimeCheck, Function.update_noteq hi.ne]
  · -- the new preheader holds the terminator the preheader `m` held
    rw [hm, Option.some.injEq] at hm'
    subst hm'
    have hmf : f₁.fresh ≠ m := by have := hf.block_lt m hmb; omega
    show Function.update f₄.body m _ f₁.fresh = [t]
    rw [Function.update_noteq hmf, he₄.body _ (hn₂.block_lt _ hph₂b), hf₂, splitBlock_body,
      Function.update_noteq hmf, Function.update_same]
    simp only [hf₁, addRuntimeCheck, Function.update_same]
    rw [show (st.f.body m).getLast? = some t from ht]
    simp
  · -- a placed instruction is one of `st.f`, or a new one that uses no instruction of the loop
    have hLlt : ∀ j ∈ L.insts st.f, j < st.f.fresh ∧ j ∈ st.f.allInsts := fun j hj => by
      obtain ⟨b, hb, hjb⟩ := List.mem_flatMap.1 hj
      exact ⟨hf.mem_body_lt (hL b hb) hjb, mem_allInsts.2 ⟨b, hL b hb, hjb⟩⟩
    rcases mem_branch_allInsts hu with rfl | hu
    · refine .inr ⟨by omega, fun j hj h' => ?_⟩
      simp only [Function.update_same, List.mem_cons, Value.inst.injEq, List.not_mem_nil,
        or_false, reduceCtorEq] at h'
      have := (hLlt j hj).1
      simp only [addRuntimeCheck] at h'
      omega
    show _ ∨ _ ∧ ∀ j ∈ L.insts st.f, Value.inst j ∉ (Function.update f₄.inst f₄.fresh _ u).operands
    rw [Function.update_noteq (hn₄.inst_lt u hu).ne]
    obtain ⟨b, hb, hub⟩ := mem_allInsts.1 hu
    rcases (hmem₄ b).1 hb with hb | hb
    · -- in a block of `f₂`: the check, the branch of the split, or an instruction of `st.f`
      rw [he₄.body b (hn₂.block_lt b hb)] at hub
      rw [he₄.inst u (hn₂.mem_body_lt hb hub)]
      rcases List.mem_cons.1 ((splitBlock_allInsts_perm hn₁ (show m ∈ f₁.blocks from hmb)).mem_iff.1
        (mem_allInsts.2 ⟨b, hb, hub⟩)) with rfl | hu₁
      · refine .inr ⟨by omega, fun j _ h' => ?_⟩
        rw [hf₂, splitBlock_operands, if_pos rfl] at h'
        simp at h'
      rcases mem_addRuntimeCheck_allInsts hu₁ with hu₁ | rfl
      · exact .inl ⟨hf.inst_lt u hu₁, hu₁⟩
      · refine .inr ⟨le_rfl, fun j _ h' => ?_⟩
        rw [hf₂, splitBlock_operands, if_neg (by omega)] at h'
        simp [hf₁, addRuntimeCheck] at h'
    · -- in the fallback loop or its preheader: a copy, remapped off the loop's instructions
      obtain ⟨b₀, hb₀, rfl⟩ := hlink.exists_of_mem hb
      obtain ⟨c, hσb, -, -, hbc⟩ := hlink.copy.block b₀ hb₀
      rw [show mapId _ b₀ = c by simp [mapId, hσb], hbc] at hub
      obtain ⟨i, hi, rfl⟩ := List.mem_map.1 hub
      obtain ⟨c', hσi, hfc', hic⟩ := hlink.copy.inst b₀ hb₀ i hi
      rw [show mapId _ i = c' by simp [mapId, hσi], hic]
      refine .inr ⟨by omega, fun j hj => Inst.not_mem_remap_operands (fun j₀ h' => ?_) ?_⟩
      · have hjX : j ≠ X := fun h'' : j = X => hf.block_not_inst X hXb (h'' ▸ (hLlt j hj).2)
        by_cases hj₀ : j₀ = X
        · subst hj₀
          rw [Function.update_same, Option.some.injEq] at h'
          exact hjX h'.symm
        · rw [Function.update_noteq hj₀] at h'
          have := (hvmap j₀ j h').1
          have := (hLlt j hj).1
          omega
      · obtain ⟨b, hb, hjb⟩ := List.mem_flatMap.1 hj
        obtain ⟨-, -, -, -, hcb⟩ := hcopy b hb
        obtain ⟨c'', hσj, -⟩ := hcb j (by rw [hbody₂ b hb]; exact hjb)
        rw [Function.update_noteq fun h'' : j = X => hf.block_not_inst X hXb (h'' ▸ (hLlt j hj).2), hσj]
        rfl

/-- `versionLoop` on a loop with the exit block `X`: the second split leaves a preheader that holds
only its terminator, with the memcheck block as its single predecessor, and after the branch on
the check `X` is still the single exit block. -/
theorem versionLoop_clonePre {L : Loop} {st st' : PassState} {v : Versioned} {X : Nat}
    (hf : st.f.Numbered) (hL : ∀ b ∈ L.blocks, b ∈ st.f.blocks) (hnd : L.blocks.Nodup)
    (hX : L.getExitBlock st.f = some X) (h : versionLoop L st = .ok (st', v)) :
    ∃ ph pred, ClonePre st'.f L ph pred X ∧ ph ≠ X ∧ (∀ b ∈ L.blocks, b ∈ st'.f.blocks) ∧
      ∀ i ∈ st'.f.allInsts, i < st'.f.fresh := by
  have hv := versionLoop_spec hf hL hnd hX h
  obtain ⟨ph, pred, hc, hpX, -⟩ := hv.checks
  exact ⟨ph, pred, hc, hpX, hv.blocks_sub, hv.numbered.inst_lt⟩

/-! ## `addPHINodes` and the no-alias scopes -/

theorem blockOps_addIncoming (i : Inst) (j b : Nat) :
    (addIncoming i (.inst j) b).operands.filterMap Value.getBlock? =
      i.operands.filterMap Value.getBlock? := by
  simp [addIncoming, Value.getBlock?]

theorem blockOps_replaceUsesOfWith (i : Inst) (a b : Nat) :
    (i.replaceUsesOfWith (.inst a) (.inst b)).operands.filterMap Value.getBlock? =
      i.operands.filterMap Value.getBlock? := by
  show (i.operands.map fun o => if o = .inst a then .inst b else o).filterMap Value.getBlock? =
    i.operands.filterMap Value.getBlock?
  induction i.operands with
  | nil => rfl
  | cons v ops ih =>
    rw [List.map_cons, List.filterMap_cons, List.filterMap_cons, ih]
    by_cases hv : v = .inst a
    · simp [hv, Value.getBlock?]
    · rw [if_neg hv]

theorem sameEdges_newPhi {f : Func} (pb : Nat) (hlt : ∀ i ∈ f.allInsts, i < f.fresh) :
    SameEdges f { f with
      body := Function.update f.body pb (f.fresh :: f.body pb)
      inst := Function.update f.inst f.fresh ⟨.phi, [], [], [], []⟩
      fresh := f.fresh + 1 } := by
  refine ⟨rfl, fun b hb => ?_⟩
  have hne : ∀ t ∈ f.body b, t ≠ f.fresh := fun t ht => (hlt t (mem_allInsts.2 ⟨b, hb, ht⟩)).ne
  by_cases hbp : b = pb
  · subst hbp
    unfold Func.succs getTerminator
    simp only [Function.update_same]
    cases hl : f.body b with
    | nil => simp [Value.getBlock?]
    | cons t l =>
      rw [List.getLast?_cons_cons]
      cases ht : (t :: l).getLast? with
      | none => simp at ht
      | some t' => simp [Function.update_noteq (hne t' (hl ▸ List.mem_of_mem_getLast? ht))]
  · exact succs_congr (Function.update_noteq hbp _ _) fun t ht =>
      Function.update_noteq (hne t (List.mem_of_mem_getLast? ht)) _ _

/-- What follows the new PHI in `addPHINode` keeps the CFG; then so does the whole turn, which keeps
every body but the exit block's, and the ids below the counter. -/
theorem newPhi_frame {f g : Func} {pb : Nat} (hlt : ∀ i ∈ f.allInsts, i < f.fresh)
    (hc : SameCfg { f with
      body := Function.update f.body pb (f.fresh :: f.body pb)
      inst := Function.update f.inst f.fresh ⟨.phi, [], [], [], []⟩
      fresh := f.fresh + 1 } g) :
    SameEdges f g ∧ (∀ b, b ≠ pb → g.body b = f.body b) ∧ ∀ i ∈ g.allInsts, i < g.fresh := by
  refine ⟨(sameEdges_newPhi pb hlt).trans hc.sameEdges, fun b hb => ?_, fun i hi => ?_⟩
  · rw [hc.body]; exact Function.update_noteq hb _ _
  · rw [hc.allInsts_eq] at hi
    refine lt_of_lt_of_le ?_ hc.fresh_le
    obtain ⟨b, hb, hib⟩ := mem_allInsts.1 hi
    dsimp only at hb hib ⊢
    by_cases hbp : b = pb
    · subst hbp
      rw [Function.update_same, List.mem_cons] at hib
      rcases hib with rfl | hib
      · exact Nat.lt_succ_self _
      · exact Nat.lt_succ_of_lt (hlt i (mem_allInsts.2 ⟨b, hb, hib⟩))
    · rw [Function.update_noteq hbp] at hib
      exact Nat.lt_succ_of_lt (hlt i (mem_allInsts.2 ⟨b, hb, hib⟩))

theorem addPHINode_sameEdges {L : Loop} {v : Versioned} {pb inst : Nat} {f g : Func}
    (hlt : ∀ i ∈ f.allInsts, i < f.fresh) (h : addPHINode L v pb f inst = .ok g) :
    SameEdges f g ∧ (∀ b, b ≠ pb → g.body b = f.body b) ∧ ∀ i ∈ g.allInsts, i < g.fresh := by
  unfold addPHINode at h
  rcases hx : v.nonDistributedLoop.getExitingBlock f with _ | x <;> simp only [hx] at h
  · cases h
  obtain ⟨r, -, h⟩ := bind_eq_ok h
  rcases r with _ | pn
  · rcases he : L.getExitingBlock f with _ | e <;> simp only [he] at h
    · cases h
    cases h
    -- the users loop, then the two incoming values of the new PHI
    refine newPhi_frame hlt (((rewriteFirstOutsideUser_elim (motive := SameCfg _) L inst _ _
      (SameCfg.refl _) fun _ _ _ => SameCfg.setInst (blockOps_replaceUsesOfWith _ _ _)).trans
      (SameCfg.setInst (blockOps_addIncoming _ _ _))).trans (SameCfg.setInst (blockOps_addIncoming _ _ _)))
  · cases h
    exact ⟨(SameCfg.setInst (blockOps_addIncoming _ _ _)).sameEdges, fun _ _ => rfl, hlt⟩

theorem foldlM_addPHINode {L : Loop} {v : Versioned} {pb : Nat} {g : Func} :
    ∀ (l : List Nat) (f : Func), (∀ i ∈ f.allInsts, i < f.fresh) →
      l.foldlM (addPHINode L v pb) f = .ok g → SameEdges f g ∧ ∀ b, b ≠ pb → g.body b = f.body b
  | [], _, _, h => by cases h; exact ⟨(SameCfg.refl _).sameEdges, fun _ _ => rfl⟩
  | i :: l, f, hlt, h => by
    rw [List.foldlM_cons] at h
    obtain ⟨f', hstep, h⟩ := bind_eq_ok h
    obtain ⟨he, hb, hlt'⟩ := addPHINode_sameEdges hlt hstep
    obtain ⟨he', hb'⟩ := foldlM_addPHINode l f' hlt' h
    exact ⟨he.trans he', fun b hbX => (hb' b hbX).trans (hb b hbX)⟩

/-- `addPHINodes` keeps the CFG, and every body but the one of the exit block `X`. -/
theorem addPHINodes_sameEdges {L : Loop} {v : Versioned} {defsUsedOutside : List Nat} {f g : Func}
    {X : Nat} (hlt : ∀ i ∈ f.allInsts, i < f.fresh) (hX : L.getExitBlock f = some X)
    (h : addPHINodes L v defsUsedOutside f = .ok g) :
    SameEdges f g ∧ ∀ b, b ≠ X → g.body b = f.body b := by
  unfold addPHINodes at h
  simp only [hX] at h
  exact foldlM_addPHINode defsUsedOutside f hlt h

theorem sameCfg_newScope (f : Func) : SameCfg f (newScope f).1 :=
  ⟨rfl, rfl, Nat.le_succ _, fun _ => rfl⟩

theorem sameCfg_annotateNoAlias (ord : IterOrder) (scope : Nat) (fwd : Finset Nat)
    (parts : List DistPartition) (f : Func) : SameCfg f (annotateNoAlias ord scope fwd parts f) := by
  refine SameCfg.foldl (fun g p => ?_) parts f
  dsimp only
  split
  · refine SameCfg.foldl (fun g' o => ?_) _ g
    dsimp only
    split
    · exact SameCfg.setInst rfl
    · exact SameCfg.refl _
  · exact SameCfg.refl _

/-! ## Up to `cloneLoops` -/

/-- `distribute` up to its call of `cloneLoops`: the state and the partitions `cloneLoops` is
given. -/
def beforeCloneLoops (cfg : Config) (ord : IterOrder) (lai : AccessInfo) (L : Loop) (ph : Nat)
    (deps : List Dependence) (parts : List InstPartition) (st : PassState) :
    Except String (PassState × List DistPartition) := do
  let defsUsedOutside := findDefsUsedOutsideOfLoop st.f L
  let ids := setupPartitionIdOnInstructions ord parts
  let st : PassState :=
    if (st.f.getSinglePredecessor ph).isNone || (st.f.body ph).length ≠ 1 then
      let r := st.f.splitBlock st.dt ph
      ⟨r.1, r.2.1⟩
    else st
  let (fwdInsts, fwdPtrs) :=
    if cfg.addMemcheckForStoreToLoadElimination then storeToLoadForwarding st.f lai.memoryInstructions deps
    else (∅, [])
  let ptrToPartition ← computePartitionSetForPointers ids lai.pointers lai.instructionsForAccess
  let dparts : List DistPartition := parts.map fun p => { part := p }
  let st ← if lai.needsAnyChecking ptrToPartition fwdPtrs then do
      let (st, v) ← versionLoop L st
      let f ← addPHINodes L v defsUsedOutside st.f
      if fwdInsts.Nonempty then
        let (f, scope) := newScope f
        pure (⟨annotateNoAlias ord scope fwdInsts dparts f, st.dt⟩ : PassState)
      else pure ⟨f, st.dt⟩
    else pure st
  return (st, dparts)

theorem ite_bind {m : Type → Type} [Monad m] {α β : Type} (c : Prop) [Decidable c] (a b : m α)
    (k : α → m β) : (if c then a else b) >>= k = if c then a >>= k else b >>= k := by
  split <;> rfl

theorem distribute_eq (cfg : Config) (ord : IterOrder) (lai : AccessInfo) (L : Loop) (ph : Nat)
    (deps : List Dependence) (parts : List InstPartition) (st : PassState) :
    distribute cfg ord lai L ph deps parts st = (do
      let (st, dparts) ← beforeCloneLoops cfg ord lai L ph deps parts st
      let (st, dparts) ← cloneLoops L st dparts
      let f ← removeUnusedInsts L dparts st.f
      return ⟨f, st.dt⟩) := by
  unfold distribute beforeCloneLoops
  simp only [bind_assoc, pure_bind, ite_bind]

theorem clonePre_split {L : Loop} {st st₁ : PassState} {ph X : Nat} (hf : st.f.Numbered)
    (hL : ∀ b ∈ L.blocks, b ∈ st.f.blocks) (hph : L.getLoopPreheader st.f = some ph)
    (hX : L.getExitBlock st.f = some X)
    (h₁ : st₁ = if ((st.f.getSinglePredecessor ph).isNone || decide ((st.f.body ph).length ≠ 1)) = true
      then ⟨(st.f.splitBlock st.dt ph).1, (st.f.splitBlock st.dt ph).2.1⟩ else st) :
    (∃ p pred, ClonePre st₁.f L p pred X) ∧ st₁.f.Numbered ∧ ∀ b ∈ L.blocks, b ∈ st₁.f.blocks := by
  obtain ⟨-, -, hpb, -, -, -⟩ := L.getLoopPreheader_spec st.f hph
  split_ifs at h₁ with hc <;> subst h₁
  · obtain ⟨hph', hpred, hlen, hLs⟩ := splitBlock_preheader st.dt hf hL hph
    dsimp only
    exact ⟨⟨st.f.fresh, ph, hph', hpred, (L.getExitBlock_congr hLs).trans hX, hlen⟩,
      hf.splitBlock hpb, fun b hb => (mem_splitBlock_blocks hf hpb).2 (.inr (hL b hb))⟩
  · simp only [Bool.or_eq_true, Option.isNone_iff_eq_none, decide_eq_true_eq, not_or,
      not_not] at hc
    obtain ⟨pred, hpred⟩ := Option.ne_none_iff_exists'.1 hc.1
    exact ⟨⟨ph, pred, hph, hpred, hX, hc.2⟩, hf, hL⟩

/-- What reaches `cloneLoops` passes its checks. For a loop `processLoop` accepts (a preheader, a
single exit block, partitions formed), on both paths of `distribute` the preheader of the loop
holds only its terminator and has a single predecessor, the exit block is still the single one,
and there are partitions; `distribute` goes on with `cloneLoops` on that state. -/
theorem beforeCloneLoops_clonePre {cfg : Config} {ord : IterOrder} {lai : AccessInfo}
    {bnp : Nat → Bool} {L : Loop} {ph X : Nat} {deps : List Dependence}
    {parts : List InstPartition} {st st' : PassState} {dparts : List DistPartition}
    (hf : st.f.Numbered) (hL : ∀ b ∈ L.blocks, b ∈ st.f.blocks) (hnd : L.blocks.Nodup)
    (hph : L.getLoopPreheader st.f = some ph) (hX : L.getExitBlock st.f = some X)
    (hparts : formPartitions cfg ord st.f L bnp lai.memoryInstructions deps = .ok (some parts))
    (h : beforeCloneLoops cfg ord lai L ph deps parts st = .ok (st', dparts)) :
    (∃ origPH pred, ClonePre st'.f L origPH pred X) ∧ dparts ≠ [] ∧
      distribute cfg ord lai L ph deps parts st = (do
        let (st, dparts) ← cloneLoops L st' dparts
        let f ← removeUnusedInsts L dparts st.f
        return ⟨f, st.dt⟩) := by
  suffices hs : (∃ origPH pred, ClonePre st'.f L origPH pred X) ∧
      dparts = parts.map fun p => { part := p } by
    refine ⟨hs.1, ?_, by rw [distribute_eq, h]; rfl⟩
    obtain ⟨-, -, -, -, hlen⟩ := formPartitions_eq_some hparts
    rw [hs.2]; rintro h0
    simp [List.map_eq_nil_iff.1 h0] at hlen
  unfold beforeCloneLoops at h
  obtain ⟨ptr, -, h⟩ := bind_eq_ok h
  dsimp only at h
  generalize hst₁ : (if ((st.f.getSinglePredecessor ph).isNone || decide ((st.f.body ph).length ≠ 1)) = true
    then (⟨(st.f.splitBlock st.dt ph).1, (st.f.splitBlock st.dt ph).2.1⟩ : PassState) else st) = st₁ at h
  obtain ⟨⟨p, pred, hcp⟩, hn₁, hL₁⟩ := clonePre_split hf hL hph hX hst₁.symm
  split at h
  · -- on the versioned path, `versionLoop` and `addPHINodes` keep the checks
    obtain ⟨⟨st₃, v⟩, hv, h⟩ := bind_eq_ok h
    obtain ⟨f₄, hphi, h⟩ := bind_eq_ok h
    obtain ⟨p', pred', hcp', hpX, hL₃, hlt₃⟩ := versionLoop_clonePre hn₁ hL₁ hnd hcp.exit hv
    obtain ⟨he, hb⟩ := addPHINodes_sameEdges hlt₃ hcp'.exit hphi
    have hcp₄ := hcp'.of_sameEdges he hL₃ (hb p' hpX)
    split at h <;> cases h
    · exact ⟨⟨p', pred', hcp₄.of_sameCfg ((sameCfg_newScope f₄).trans
        (sameCfg_annotateNoAlias ord _ _ _ _))⟩, rfl⟩
    · exact ⟨⟨p', pred', hcp₄⟩, rfl⟩
  · cases h
    exact ⟨⟨p, pred, hcp⟩, rfl⟩

theorem beforeCloneLoops_clonePre_fourAccess :
    ∃ parts st' dparts, formPartitions {} .ascending fourAccessFunc fourAccessLoop (fun _ => false)
        [12, 13, 14, 15] [⟨1, 2, true⟩] = .ok (some parts) ∧
      beforeCloneLoops {} .ascending (fourAccessInfo [12, 13, 14, 15] [⟨1, 2, true⟩] true)
        fourAccessLoop 0 [⟨1, 2, true⟩] parts ⟨fourAccessFunc, fourAccessDomTree⟩ = .ok (st', dparts) ∧
      (∃ origPH pred, ClonePre st'.f fourAccessLoop origPH pred 2) ∧ dparts ≠ [] ∧
      distribute {} .ascending (fourAccessInfo [12, 13, 14, 15] [⟨1, 2, true⟩] true) fourAccessLoop 0
        [⟨1, 2, true⟩] parts ⟨fourAccessFunc, fourAccessDomTree⟩ = (do
          let (st, dparts) ← cloneLoops fourAccessLoop st' dparts
          let f ← removeUnusedInsts fourAccessLoop dparts st.f
          return ⟨f, st.dt⟩) :=
  ⟨_, _, _, rfl, rfl, @beforeCloneLoops_clonePre {} .ascending
    (fourAccessInfo [12, 13, 14, 15] [⟨1, 2, true⟩] true) (fun _ => false) fourAccessLoop 0 2
    [⟨1, 2, true⟩] _ ⟨fourAccessFunc, fourAccessDomTree⟩ _ _ (by decide) (by decide) (by decide)
    (by decide) (by decide) rfl rfl⟩

end LoopDistribute

end Llvm
