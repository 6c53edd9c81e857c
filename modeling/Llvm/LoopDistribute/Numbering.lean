import Llvm.LoopDistribute.Pruning

/-!
# `distribute` keeps the function well formed

`Func.Numbered` is what well-formed IR gives the pass: no id used twice, blocks and instructions
below the counter, every successor a block, every operand an id below the counter. `Entry` follows
it up to `cloneLoops`; this module follows it to the end of `processLoop`.

* `numbered_relink` : the predecessor's branch goes to the chain's first preheader, a block, so
  `cloneLoops` keeps the ids in order (`cloneLoops_numbered`);
* `numbered_eraseStep`, `removeUnusedInsts_numbered` : a deletion that erases no terminator keeps
  them, with every block's terminator and successors;
* `collected_not_terminator` : no partition collects a terminator, since each set holds the
  loop's terminators and the copy of a block ends in the copy of its terminator;
* `processLoop_numbered` : every run of `processLoop` leaves the ids in order.
-/

namespace Llvm.LoopDistribute

open Func

/-! ## Relinking the predecessor -/

theorem numbered_relink {g : Func} (hg : g.Numbered) {p t origPH top : Nat} (hp : p ∈ g.blocks)
    (ht : g.getTerminator p = some t) (htop : top ∈ g.blocks) : (relink g t origPH top).Numbered where
  blocks_nodup := hg.blocks_nodup
  allInsts_nodup := hg.allInsts_nodup
  block_lt := hg.block_lt
  inst_lt := hg.inst_lt
  block_not_inst := hg.block_not_inst
  succs_sub b hb s hs := by
    by_cases hbp : b = p
    · subst hbp
      rw [relink_succs ht] at hs
      obtain ⟨s', hs', rfl⟩ := List.mem_map.1 hs
      split
      · exact htop
      · exact hg.succs_sub b hb s' hs'
    · rw [relink_succs_of_ne hg hb hp ht hbp] at hs
      exact hg.succs_sub b hb s hs
  operand_lt i hi v hv j hj := by
    by_cases hit : i = t
    · subst hit
      simp only [relink, setInst_inst, if_pos, Inst.replaceUsesOfWith, List.mem_map] at hv
      obtain ⟨o, ho, rfl⟩ := hv
      split at hj
      · obtain rfl : top = j := by simpa [Value.id?] using hj
        exact hg.block_lt _ htop
      · exact hg.operand_lt i hi o ho j hj
    · rw [relink_inst_of_ne hit] at hv
      exact hg.operand_lt i hi v hv j hj

/-- `cloneLoops` keeps the ids in order: the chain is made of copies on new ids, and the
predecessor's branch is sent to its first preheader. -/
theorem cloneLoops_numbered {L : Loop} {st st' : PassState} {parts ps : List DistPartition}
    {origPH pred X : Nat} (hf : st.f.Numbered) (hL : ∀ b ∈ L.blocks, b ∈ st.f.blocks)
    (hnd : L.blocks.Nodup) (hph : L.getLoopPreheader st.f = some origPH)
    (hpred : st.f.getSinglePredecessor origPH = some pred) (hX : L.getExitBlock st.f = some X)
    (hXph : X ≠ origPH) (hv : ∀ p ∈ parts, p.vmap = fun _ => none)
    (h : cloneLoops L st parts = .ok (st', ps)) : st'.f.Numbered := by
  obtain ⟨origPH', pred', X', stc, topPH, cloned, t, hph', hpred', hX', -, -, hc, -, ht, hst⟩ :=
    cloneLoops_eq_ok h
  rw [hph, Option.some.injEq] at hph'; subst hph'
  rw [hpred, Option.some.injEq] at hpred'; subst hpred'
  rw [hX, Option.some.injEq] at hX'; subst hX'
  have hs := LoopShape.of_checks hf hL hph hpred hX hXph
  obtain ⟨hcs, -, htop, -⟩ := cloneChain_spec hnd
    (fun h => hs.exit_not_mem (List.mem_cons_of_mem _ h)) hXph _ _ _ hc
    (fun q hq => hv q (List.mem_of_mem_dropLast (List.mem_reverse.1 hq))) hf hL hph hs.ph_mem
    (fun h => (L.getLoopPreheader_spec st.f hph).elim fun _ h' => by
      simp [Loop.containsBlock, h] at h')
    hs.exit_mem
  dsimp only at hcs htop
  -- the chain's first preheader is `origPH` or the copy of it in a link
  have hmem : ∀ x ∈ cloned.map (phOf origPH), x ∈ stc.f.blocks := fun x hx => by
    obtain ⟨q, hq, rfl⟩ := List.mem_map.1 hx
    obtain ⟨j, hj⟩ := List.mem_iff_getElem?.1 hq
    obtain ⟨nl, -, hl⟩ := hcs.links j q hj
    exact (hcs.mem_blocks _).2 (.inr ⟨q, hq, hl.mapId_mem (List.mem_cons_self _ _)⟩)
  have htopb : topPH ∈ stc.f.blocks := by
    rw [htop, List.getLastD_eq_getLast?]
    rcases hl : (cloned.map (phOf origPH)).getLast? with _ | x
    · exact hcs.ext.blocks origPH hs.ph_mem
    · exact hmem x (List.mem_of_mem_getLast? hl)
  rw [hst]
  exact numbered_relink hcs.numbered (hcs.ext.blocks pred hs.pred_mem) ht htopb

/-! ## The deletion loop -/

/-- A turn of the deletion loop of `eraseUnused`: an instruction with users has them use `undef`,
then it leaves its block. -/
def eraseStep (f : Func) (i : Nat) : Func :=
  (if (f.users (.inst i)).isEmpty then f else f.replaceAllUsesWith (.inst i) .undef).eraseFromParent i

theorem eraseUnused_eq_foldl (f : Func) (unused : List Nat) :
    eraseUnused f unused = unused.reverse.foldl eraseStep f := rfl

/-- Erasing anything but the last element of a list keeps its last element. -/
theorem getLast?_erase_of_ne {l : List Nat} {e : Nat} (h : l.getLast? ≠ some e) :
    (l.erase e).getLast? = l.getLast? := by
  rcases List.eq_nil_or_concat l with rfl | ⟨l, b, rfl⟩
  · rfl
  · have hb : b ≠ e := fun hb => h (by simp [hb])
    rw [List.concat_eq_append]
    by_cases he : e ∈ l
    · rw [List.erase_append_left _ he]
      simp
    · rw [List.erase_append_right _ he]
      simp [List.erase_cons, hb]

section EraseStep

variable {f : Func} {e : Nat}

@[simp] theorem eraseStep_blocks : (eraseStep f e).blocks = f.blocks := by
  unfold eraseStep; split <;> rfl

@[simp] theorem eraseStep_body (b : Nat) : (eraseStep f e).body b = (f.body b).erase e := by
  unfold eraseStep; split <;> rfl

@[simp] theorem eraseStep_fresh : (eraseStep f e).fresh = f.fresh := by
  unfold eraseStep; split <;> rfl

/-- An operand after the turn is one from before, or `undef`. -/
theorem mem_operands_eraseStep {u : Nat} {v : Value} (hv : v ∈ ((eraseStep f e).inst u).operands) :
    v ∈ (f.inst u).operands ∨ v = .undef := by
  unfold eraseStep at hv
  split at hv
  · exact .inl hv
  · simp only [eraseFromParent_inst, replaceAllUsesWith] at hv
    split at hv
    · simp only [Inst.replaceUsesOfWith, List.mem_map] at hv
      obtain ⟨o, ho, rfl⟩ := hv
      split
      · exact .inr rfl
      · exact .inl ho
    · exact .inl hv

/-- The turn leaves every block operand as it was. -/
theorem blockOperands_eraseStep (u : Nat) :
    ((eraseStep f e).inst u).operands.filterMap Value.getBlock? =
      (f.inst u).operands.filterMap Value.getBlock? := by
  unfold eraseStep
  split
  · rfl
  · simp only [eraseFromParent_inst, replaceAllUsesWith]
    split
    · simp only [Inst.replaceUsesOfWith, List.filterMap_map]
      congr 1
      funext o
      by_cases ho : o = .inst e <;> simp [ho, Value.getBlock?]
    · rfl

theorem getTerminator_eraseStep {b : Nat} (ht : f.getTerminator b ≠ some e) :
    (eraseStep f e).getTerminator b = f.getTerminator b := by
  unfold getTerminator
  rw [eraseStep_body]
  exact getLast?_erase_of_ne ht

/-- A block whose terminator is not erased keeps its successors. -/
theorem succs_eraseStep {b : Nat} (ht : f.getTerminator b ≠ some e) :
    (eraseStep f e).succs b = f.succs b := by
  unfold succs
  rw [getTerminator_eraseStep ht]
  rcases f.getTerminator b with _ | t
  · rfl
  · exact blockOperands_eraseStep t

theorem mem_allInsts_eraseStep {i : Nat} (hi : i ∈ (eraseStep f e).allInsts) : i ∈ f.allInsts := by
  obtain ⟨b, hb, hib⟩ := mem_allInsts.1 hi
  rw [eraseStep_blocks] at hb
  rw [eraseStep_body] at hib
  exact mem_allInsts.2 ⟨b, hb, List.mem_of_mem_erase hib⟩

/-- A turn that erases no terminator keeps the ids in order. -/
theorem numbered_eraseStep (hf : f.Numbered) (he : ∀ b ∈ f.blocks, f.getTerminator b ≠ some e) :
    (eraseStep f e).Numbered where
  blocks_nodup := by rw [eraseStep_blocks]; exact hf.blocks_nodup
  allInsts_nodup := by
    have hnd := List.nodup_flatMap.1 hf.allInsts_nodup
    unfold allInsts
    rw [eraseStep_blocks]
    refine List.nodup_flatMap.2 ⟨fun b hb => ?_, hnd.2.imp fun h => ?_⟩
    · rw [eraseStep_body]
      exact (hnd.1 b hb).erase e
    · simp only [Function.onFun, eraseStep_body]
      exact List.disjoint_of_subset_left (List.erase_subset _ _)
        (List.disjoint_of_subset_right (List.erase_subset _ _) h)
  block_lt b hb := by
    rw [eraseStep_blocks] at hb
    rw [eraseStep_fresh]
    exact hf.block_lt b hb
  inst_lt i hi := by
    rw [eraseStep_fresh]
    exact hf.inst_lt i (mem_allInsts_eraseStep hi)
  block_not_inst b hb hi := by
    rw [eraseStep_blocks] at hb
    exact hf.block_not_inst b hb (mem_allInsts_eraseStep hi)
  succs_sub b hb s hs := by
    rw [eraseStep_blocks] at hb ⊢
    rw [succs_eraseStep (he b hb)] at hs
    exact hf.succs_sub b hb s hs
  operand_lt i hi v hv j hj := by
    rw [eraseStep_fresh]
    rcases mem_operands_eraseStep hv with hv | rfl
    · exact hf.operand_lt i (mem_allInsts_eraseStep hi) v hv j hj
    · cases hj

end EraseStep

/-- The deletion loop over instructions that end no block keeps the ids in order and every
block's terminator. -/
theorem numbered_foldl_eraseStep : ∀ (l : List Nat) (f : Func), f.Numbered →
    (∀ e ∈ l, ∀ b ∈ f.blocks, f.getTerminator b ≠ some e) →
    (l.foldl eraseStep f).Numbered ∧
      ∀ b ∈ f.blocks, (l.foldl eraseStep f).getTerminator b = f.getTerminator b
  | [], f, hf, _ => ⟨hf, fun _ _ => rfl⟩
  | e :: l, f, hf, he => by
    have hterm : ∀ b ∈ f.blocks, (eraseStep f e).getTerminator b = f.getTerminator b :=
      fun b hb => getTerminator_eraseStep (he e (List.mem_cons_self _ _) b hb)
    obtain ⟨hn, ht⟩ := numbered_foldl_eraseStep l (eraseStep f e)
      (numbered_eraseStep hf (he e (List.mem_cons_self _ _))) fun e' he' b hb => by
        rw [eraseStep_blocks] at hb
        rw [hterm b hb]
        exact he e' (List.mem_cons_of_mem _ he') b hb
    exact ⟨hn, fun b hb => (ht b (by rwa [eraseStep_blocks])).trans (hterm b hb)⟩

/-- `removeUnusedInsts` keeps the ids in order when no partition collects a terminator of `f₀`,
the function before the pruning: each turn erases no terminator, so blocks, terminators and the
bounds on the bodies carry over to the next partition. -/
theorem removeUnusedInsts_numbered {L : Loop} {f₀ : Func} :
    ∀ (parts : List DistPartition) (f g : Func), f.Numbered → f.blocks = f₀.blocks →
    (∀ b, f.body b ⊆ f₀.body b) → (∀ b ∈ f₀.blocks, f.getTerminator b = f₀.getTerminator b) →
    (∀ q ∈ parts, ∀ i ∈ L.insts f₀, i ∉ q.part.set →
      ∀ b ∈ f₀.blocks, f₀.getTerminator b ≠ some (q.getNewInst i)) →
    removeUnusedInsts L parts f = .ok g → g.Numbered
  | [], f, g, hf, _, _, _, _, h => by cases h; exact hf
  | q :: qs, f, g, hf, hbl, hsub, ht, hq, h => by
    unfold removeUnusedInsts at h
    rw [List.foldlM_cons] at h
    obtain ⟨f', hstep, h⟩ := bind_eq_ok h
    have hf' := DistPartition.removeUnusedInsts_eq hstep
    have hcol : ∀ e ∈ (((L.insts f).filter (· ∉ q.part.set)).map q.getNewInst).reverse,
        ∀ b ∈ f.blocks, f.getTerminator b ≠ some e := fun e he b hb => by
      obtain ⟨i, hi, rfl⟩ := List.mem_map.1 (List.mem_reverse.1 he)
      obtain ⟨hiL, hiq⟩ := List.mem_filter.1 hi
      obtain ⟨b', hb', hib⟩ := List.mem_flatMap.1 hiL
      rw [hbl] at hb
      rw [ht b hb]
      exact hq q (List.mem_cons_self _ _) i (List.mem_flatMap.2 ⟨b', hb', hsub b' hib⟩)
        (by simpa using hiq) b hb
    obtain ⟨hn, hterm⟩ := numbered_foldl_eraseStep _ f hf hcol
    rw [← eraseUnused_eq_foldl, ← hf'] at hn hterm
    exact removeUnusedInsts_numbered qs f' g hn (by rw [hf', eraseUnused_blocks, hbl])
      (fun b => hf' ▸ (eraseUnused_body_sub f _ b).trans (hsub b))
      (fun b hb => (hterm b (hbl ▸ hb)).trans (ht b hb)) (fun q' hq' => hq q' (List.mem_cons_of_mem _ hq')) h

/-! ## No partition collects a terminator -/

/-- In the function `cloneLoops` leaves, no partition collects the terminator of a block, when
every partition's set holds the terminators of the loop's blocks: the last partition collects
instructions of the loop, each in its own block, and the others collect copies, the copy of a
block ending in the copy of its terminator. -/
theorem collected_not_terminator {f g : Func} {L : Loop} {origPH pred X : Nat}
    {rs last : List DistPartition} (hr : Relinked f g L origPH pred X rs) (hg : g.Numbered)
    (hlast : ∀ q ∈ last, q.clonedLoop = none)
    (hterm : ∀ q ∈ rs ++ last, ∀ b ∈ L.blocks, ∀ t, f.getTerminator b = some t → t ∈ q.part.set) :
    ∀ q ∈ rs ++ last, ∀ i ∈ L.insts g, i ∉ q.part.set →
      ∀ B ∈ g.blocks, g.getTerminator B ≠ some (q.getNewInst i) := by
  intro q hq i hi hiq B hB hBt
  obtain ⟨b, hb, hib⟩ := List.mem_flatMap.1 hi
  have hbody := (hr.body b (List.mem_cons_of_mem _ hb)).1
  rw [hbody] at hib
  rcases List.mem_append.1 hq with hq' | hq'
  · obtain ⟨_, nl, -, hnl, hl⟩ := hr.link_of_mem hq'
    obtain ⟨c, -, hcg, -, hcb⟩ := hl.copy.block b (List.mem_cons_of_mem _ hb)
    simp only [DistPartition.getNewInst, hnl] at hBt
    have hic : mapId q.vmap i ∈ g.body c := hcb ▸ List.mem_map_of_mem _ hib
    obtain rfl := hg.eq_of_mem_body hB hcg (List.mem_of_mem_getLast? hBt) hic
    unfold getTerminator at hBt
    rw [hcb, List.getLast?_map] at hBt
    obtain ⟨t, ht, hti⟩ := Option.map_eq_some'.1 hBt
    have hinj := List.inj_on_of_nodup_map (hcb ▸ hg.body_nodup hcg) (List.mem_of_mem_getLast? ht) hib hti
    exact hiq (hinj ▸ hterm q hq b hb t ht)
  · simp only [DistPartition.getNewInst, hlast q hq'] at hBt
    have hbg : b ∈ g.blocks := (hr.mem_blocks b).2 (.inl (hr.shape.blocks_sub b hb))
    obtain rfl := hg.eq_of_mem_body hB hbg (List.mem_of_mem_getLast? hBt) (hbody ▸ hib)
    refine hiq (hterm q hq B hb i ?_)
    unfold getTerminator at hBt ⊢
    rwa [hbody] at hBt

/-! ## The whole pass -/

/-- `distribute` on the partitions `formPartitions` makes keeps the ids in order. -/
theorem distribute_numbered {cfg : Config} {ord : IterOrder} {lai : AccessInfo}
    {bnp : Nat → Bool} {L : Loop} {ph X : Nat} {deps : List Dependence}
    {parts : List InstPartition} {st st' : PassState}
    (hf : st.f.Numbered) (hwf : L.WellFormed st.f) (hnd : L.blocks.Nodup)
    (hph : L.getLoopPreheader st.f = some ph) (hX : L.getExitBlock st.f = some X)
    (hpred : ∀ p, st.f.getSinglePredecessor ph = some p → p ∉ L.blocks)
    (hparts : formPartitions cfg ord st.f L bnp lai.memoryInstructions deps = .ok (some parts))
    (h : distribute cfg ord lai L ph deps parts st = .ok st') : st'.f.Numbered := by
  rw [distribute_eq] at h
  obtain ⟨⟨st₁, dparts⟩, hb, h⟩ := bind_eq_ok h
  obtain ⟨⟨stc, ps⟩, hc, h⟩ := bind_eq_ok h
  obtain ⟨f', hr, h⟩ := bind_eq_ok h
  cases h
  obtain ⟨he, rfl⟩ := beforeCloneLoops_entry hf hwf.blocks_sub hnd hph hX hpred hb
  obtain ⟨p, pred, hcp, hXp⟩ := he.checks
  have hv : ∀ q ∈ parts.map fun p => ({ part := p } : DistPartition), q.vmap = fun _ => none :=
    fun q hq => by obtain ⟨_, -, rfl⟩ := List.mem_map.1 hq; rfl
  have hgn := cloneLoops_numbered he.numbered he.blocks_sub hnd hcp.preheader hcp.single_pred
    hcp.exit hXp hv hc
  obtain ⟨rs, hrl, hrs, rfl⟩ := cloneLoops_relinked he.numbered he.blocks_sub hnd hcp.preheader
    hcp.single_pred hcp.exit hXp hv hc
  -- every partition is one `formPartitions` made, so its set holds the loop's terminators
  have hpart : ∀ q ∈ rs ++ (parts.map fun p => ({ part := p } : DistPartition)).getLast?.toList,
      q.part ∈ parts := fun q hq => by
    rcases List.mem_append.1 hq with hq | hq
    · have hm : q.part ∈ rs.map (·.part) := List.mem_map_of_mem _ hq
      rw [hrs] at hm
      obtain ⟨q', hq', he'⟩ := List.mem_map.1 hm
      obtain ⟨p', hp', rfl⟩ := List.mem_map.1 (List.mem_of_mem_dropLast hq')
      exact he' ▸ hp'
    · obtain ⟨p', hp', rfl⟩ := List.mem_map.1 (List.mem_of_mem_getLast? (Option.mem_toList.1 hq))
      exact hp'
  have hterm : ∀ q ∈ rs ++ (parts.map fun p => ({ part := p } : DistPartition)).getLast?.toList,
      ∀ b ∈ L.blocks, ∀ t, st₁.f.getTerminator b = some t → t ∈ q.part.set := fun q hq b hb t ht => by
    obtain ⟨k, hk, hkq⟩ := List.getElem_of_mem (hpart q hq)
    have hts : st.f.getTerminator b = some t := by
      unfold getTerminator at ht ⊢
      rwa [he.body b hb] at ht
    have := (formPartitions_closed hwf hparts hk).1 b hb t hts
    rwa [setAt_eq_getElem hk, hkq] at this
  have hlast : ∀ q ∈ (parts.map fun p => ({ part := p } : DistPartition)).getLast?.toList,
      q.clonedLoop = none := fun q hq => by
    obtain ⟨_, -, rfl⟩ := List.mem_map.1 (List.mem_of_mem_getLast? (Option.mem_toList.1 hq))
    rfl
  exact removeUnusedInsts_numbered _ stc.f f' hgn rfl (fun _ => List.Subset.refl _) (fun _ _ => rfl)
    (collected_not_terminator hrl hgn hlast hterm) hr

/-- A `processLoop` that finds no exit block leaves the state alone. -/
theorem processLoop_of_getExitBlock_none {cfg : Config} {ord : IterOrder} {lai : AccessInfo}
    {bnp : Nat → Bool} {L : Loop} {st st' : PassState} {b : Bool}
    (h : processLoop cfg ord lai bnp L st = .ok (b, st')) (hX : L.getExitBlock st.f = none) :
    st' = st := by
  unfold processLoop at h
  rcases hph : L.getLoopPreheader st.f with _ | ph <;>
    simp only [hph, hX, Option.isNone_none, if_true] at h <;> cases h <;> rfl

/-- **`processLoop` keeps the function well formed.** For a well-formed loop whose preheader's
single predecessor, if any, is outside it (as for every loop reached from the entry block), the
function `processLoop` returns has its ids in order: no id twice, every id below the counter,
every successor a block of the function, and every operand an id below the counter. The copies
take new ids, the relinked branch goes to a block, and the pruning never erases a terminator, since
every partition keeps the loop's terminators. -/
theorem processLoop_numbered {cfg : Config} {ord : IterOrder} {lai : AccessInfo}
    {bnp : Nat → Bool} {L : Loop} {st st' : PassState} {b : Bool}
    (hf : st.f.Numbered) (hwf : L.WellFormed st.f) (hnd : L.blocks.Nodup)
    (hpred : ∀ ph p, L.getLoopPreheader st.f = some ph → st.f.getSinglePredecessor ph = some p →
      p ∉ L.blocks)
    (h : processLoop cfg ord lai bnp L st = .ok (b, st')) : st'.f.Numbered := by
  rcases hX : L.getExitBlock st.f with _ | X
  · rw [processLoop_of_getExitBlock_none h hX]
    exact hf
  rcases processLoop_eq_ok h with ⟨-, rfl⟩ | ⟨-, ph, deps, parts, hph, -, hparts, hd⟩
  · exact hf
  · exact distribute_numbered hf hwf hnd hph hX (hpred ph · hph) hparts hd

theorem processLoop_numbered_fourAccess : ∃ b st', processLoop {} .ascending
      (fourAccessInfo [12, 13, 14, 15] [⟨1, 2, true⟩] true) (fun _ => false) fourAccessLoop
      ⟨fourAccessFunc, fourAccessDomTree⟩ = .ok (b, st') ∧ st'.f.Numbered := by
  obtain ⟨b, st', h⟩ : ∃ b st', processLoop {} .ascending
      (fourAccessInfo [12, 13, 14, 15] [⟨1, 2, true⟩] true) (fun _ => false) fourAccessLoop
      ⟨fourAccessFunc, fourAccessDomTree⟩ = .ok (b, st') := ⟨_, _, rfl⟩
  exact ⟨b, st', h, processLoop_numbered (by decide) ⟨by decide, by decide, by decide, by decide⟩
    (by decide) (fun ph p hph h => by
      obtain rfl : ph = 0 := Option.some.inj (hph.symm.trans (by decide))
      exact nomatch h) h⟩

end Llvm.LoopDistribute
