import Llvm.LoopDistribute.Entry

/-!
# What `removeUnusedInsts` erases

Each partition's loop is pruned of the copies of the instructions outside the partition's set:
each is made to give its uses to `undef`, then erased. An instruction that no partition collects
keeps its block and every use.

* `DistPartition.removeUnusedInsts_eq` : one partition's pruning, in closed form;
* `KeepsValue f g d` : from `f` to `g` the instruction `d` keeps its place and its uses, and no body
  grows; `keepsValue_eraseUnused`, `removeUnusedInsts_keeps`;
* `distribute_keeps_defsUsedOutside` : the values used outside the loop are in the last partition,
  which keeps the original loop, so the pruning keeps them in place with every use.
-/

namespace Llvm.LoopDistribute

open Func

theorem mapM_eq_ok_map {α β ε : Type} {g : α → Except ε β} {k : α → β}
    (hk : ∀ a b, g a = .ok b → b = k a) : ∀ {l : List α} {r : List β}, l.mapM g = .ok r → r = l.map k
  | [], _, h => by cases h; rfl
  | a :: l, r, h => by
    rw [List.mapM_cons] at h
    obtain ⟨b, hb, h⟩ := bind_eq_ok h
    obtain ⟨bs, hbs, h⟩ := bind_eq_ok h
    cases h
    rw [hk a b hb, mapM_eq_ok_map hk hbs, List.map_cons]

/-- A partition's pruning, when it returns, erases the copies of the loop's instructions outside
its set, in the order of the loop's blocks. -/
theorem DistPartition.removeUnusedInsts_eq {L : Loop} {p : DistPartition} {f g : Func}
    (h : p.removeUnusedInsts L f = .ok g) :
    g = eraseUnused f (((L.insts f).filter (· ∉ p.part.set)).map p.getNewInst) := by
  unfold DistPartition.removeUnusedInsts at h
  obtain ⟨unused, hu, h⟩ := bind_eq_ok h
  cases h
  congr
  refine mapM_eq_ok_map (fun i n hn => ?_) hu
  dsimp only at hn
  split_ifs at hn
  cases hn
  rfl

/-! ## The frame of the pruning -/

/-- From `f` to `g` the instruction `d` keeps its place and every use, and no body gains an
instruction. -/
structure KeepsValue (f g : Func) (d : Nat) : Prop where
  body_sub : ∀ b, g.body b ⊆ f.body b
  placed : ∀ b, d ∈ f.body b → d ∈ g.body b
  uses : ∀ u, Value.inst d ∈ (f.inst u).operands → Value.inst d ∈ (g.inst u).operands

namespace KeepsValue

theorem refl (f : Func) (d : Nat) : KeepsValue f f d :=
  ⟨fun _ => List.Subset.refl _, fun _ h => h, fun _ h => h⟩

theorem trans {f g k : Func} {d : Nat} (h₁ : KeepsValue f g d) (h₂ : KeepsValue g k d) :
    KeepsValue f k d :=
  ⟨fun b => (h₂.body_sub b).trans (h₁.body_sub b), fun b h => h₂.placed b (h₁.placed b h),
    fun u h => h₂.uses u (h₁.uses u h)⟩

theorem insts_sub {f g : Func} {d : Nat} (h : KeepsValue f g d) (L : Loop) : L.insts g ⊆ L.insts f :=
  fun _ hi => by
    obtain ⟨b, hb, hib⟩ := List.mem_flatMap.1 hi
    exact List.mem_flatMap.2 ⟨b, hb, h.body_sub b hib⟩

end KeepsValue

theorem keepsValue_replaceAllUsesWith (f : Func) {i d : Nat} (hid : i ≠ d) :
    KeepsValue f (f.replaceAllUsesWith (.inst i) .undef) d := by
  have hd : Value.inst d ≠ Value.inst i := fun h => hid (Value.inst.inj h).symm
  refine ⟨fun b => List.Subset.refl _, fun b h => h, fun u hu => ?_⟩
  simp only [replaceAllUsesWith]
  split
  · exact List.mem_map.2 ⟨_, hu, if_neg hd⟩
  · exact hu

theorem keepsValue_eraseFromParent (f : Func) {i d : Nat} (hid : i ≠ d) :
    KeepsValue f (f.eraseFromParent i) d :=
  ⟨fun _ => List.erase_subset _ _, fun _ hb => (List.mem_erase_of_ne (Ne.symm hid)).2 hb,
    fun _ hu => hu⟩

theorem keepsValue_eraseStep (f : Func) {i d : Nat} (hid : i ≠ d) :
    KeepsValue f ((if (f.users (.inst i)).isEmpty then f
      else f.replaceAllUsesWith (.inst i) .undef).eraseFromParent i) d := by
  refine KeepsValue.trans ?_ (keepsValue_eraseFromParent _ hid)
  split
  · exact KeepsValue.refl f d
  · exact keepsValue_replaceAllUsesWith f hid

/-- The deletion loop keeps every instruction it is not given. -/
theorem keepsValue_eraseUnused (f : Func) {unused : List Nat} {d : Nat} (hd : d ∉ unused) :
    KeepsValue f (eraseUnused f unused) d :=
  List.foldlRecOn (motive := fun g => KeepsValue f g d) _ _ f (KeepsValue.refl f d)
    fun g hg _ hi => hg.trans (keepsValue_eraseStep g fun h => hd (h ▸ List.mem_reverse.1 hi))

/-- A run of `removeUnusedInsts` keeps `d` when no partition sends an instruction of the loop
outside its set to `d`: the loop's blocks only lose instructions on the way, so each partition
collects from the instructions of `f₀`. -/
theorem removeUnusedInsts_keeps {L : Loop} {d : Nat} {f₀ : Func} :
    ∀ (parts : List DistPartition) (f g : Func), KeepsValue f₀ f d →
      (∀ q ∈ parts, ∀ i ∈ L.insts f₀, i ∉ q.part.set → q.getNewInst i ≠ d) →
      removeUnusedInsts L parts f = .ok g → KeepsValue f₀ g d
  | [], f, g, hk, _, h => by cases h; exact hk
  | q :: qs, f, g, hk, hq, h => by
    unfold removeUnusedInsts at h
    rw [List.foldlM_cons] at h
    obtain ⟨f', hstep, h⟩ := bind_eq_ok h
    refine removeUnusedInsts_keeps qs f' g (hk.trans ?_) (fun q' hq' => hq q' (List.mem_cons_of_mem _ hq')) h
    rw [DistPartition.removeUnusedInsts_eq hstep]
    refine keepsValue_eraseUnused f fun hm => ?_
    obtain ⟨i, hi, hid⟩ := List.mem_map.1 hm
    obtain ⟨hiL, hiq⟩ := List.mem_filter.1 hi
    exact hq q (List.mem_cons_self _ _) i (hk.insts_sub L hiL) (by simpa using hiq) hid

/-! ## The values used outside the loop -/

theorem setLast_eq {ps : List InstPartition} {p : InstPartition} (h : ps.getLast? = some p) :
    setLast ps = p.set := by
  rw [List.getLast?_eq_getElem?] at h
  simp only [setLast, setAt, List.getD_eq_getElem?_getD, h, Option.getD_some]

/-- For a loop `processLoop` accepts, whose preheader `ph` has no single predecessor inside the loop
(a loop reached from the entry block has none): every value used outside the loop is in the last
partition, the one `cloneLoops` leaves on the original loop; so `removeUnusedInsts` neither erases
it from its block of the loop nor gives any of its uses to `undef`. -/
theorem distribute_keeps_defsUsedOutside {cfg : Config} {ord : IterOrder} {lai : AccessInfo}
    {bnp : Nat → Bool} {L : Loop} {ph X : Nat} {deps : List Dependence}
    {parts : List InstPartition} {st st' : PassState}
    (hf : st.f.Numbered) (hwf : L.WellFormed st.f) (hnd : L.blocks.Nodup)
    (hph : L.getLoopPreheader st.f = some ph) (hX : L.getExitBlock st.f = some X)
    (hpred : ∀ p, st.f.getSinglePredecessor ph = some p → p ∉ L.blocks)
    (hparts : formPartitions cfg ord st.f L bnp lai.memoryInstructions deps = .ok (some parts))
    (h : distribute cfg ord lai L ph deps parts st = .ok st') :
    ∃ st₁ dparts stc ps last, beforeCloneLoops cfg ord lai L ph deps parts st = .ok (st₁, dparts) ∧
      cloneLoops L st₁ dparts = .ok (stc, ps) ∧ removeUnusedInsts L ps stc.f = .ok st'.f ∧
      ps.getLast? = some last ∧ parts.getLast? = some last.part ∧
      last.getDistributedLoop L = L ∧ (∀ i, last.getNewInst i = i) ∧
      ∀ d ∈ findDefsUsedOutsideOfLoop st.f L, d ∈ last.part.set ∧
        (∀ b ∈ L.blocks, d ∈ st.f.body b → d ∈ st'.f.body b) ∧
        ∀ u, Value.inst d ∈ (stc.f.inst u).operands → Value.inst d ∈ (st'.f.inst u).operands := by
  rw [distribute_eq] at h
  obtain ⟨⟨st₁, dparts⟩, hb, h⟩ := bind_eq_ok h
  obtain ⟨⟨stc, ps⟩, hc, h⟩ := bind_eq_ok h
  obtain ⟨f', hr, h⟩ := bind_eq_ok h
  cases h
  obtain ⟨he, rfl⟩ := beforeCloneLoops_entry hf hwf.blocks_sub hnd hph hX hpred hb
  obtain ⟨p, pred, hcp, hXp⟩ := he.checks
  obtain ⟨rs, hrl, -, rfl⟩ := cloneLoops_relinked he.numbered he.blocks_sub hnd hcp.preheader
    hcp.single_pred hcp.exit hXp (fun q hq => by obtain ⟨_, -, rfl⟩ := List.mem_map.1 hq; rfl) hc
  obtain ⟨-, -, -, -, hlen⟩ := formPartitions_eq_some hparts
  obtain ⟨pl, hpl⟩ := List.getLast?_isSome.2 (List.ne_nil_of_length_pos (by omega : 0 < parts.length))
    |> Option.isSome_iff_exists.1
  have hlast : (parts.map fun p => ({ part := p } : DistPartition)).getLast? = some { part := pl } := by
    rw [List.getLast?_map, hpl]; rfl
  simp only [hlast, Option.toList_some] at hr hc
  -- an instruction of the original function is below the counter of every copy
  have hlt : ∀ d ∈ findDefsUsedOutsideOfLoop st.f L, ∀ b ∈ L.blocks, d ∈ st.f.body b →
      d < st₁.f.fresh := fun d _ b hb hdb =>
    lt_of_lt_of_le (hf.mem_body_lt (hwf.blocks_sub b hb) hdb) he.fresh_le
  refine ⟨st₁, _, stc, _, _, hb, hc, hr, List.getLast?_concat _, hpl, rfl, fun _ => rfl,
    fun d hd => ?_⟩
  have hdl : d ∈ pl.set := setLast_eq hpl ▸ defs_mem_setLast_formPartitions hwf hparts hd
  obtain ⟨b₀, hb₀, hdb₀⟩ := List.mem_flatMap.1 ((L.contains_iff st.f d).1
    (contains_of_mem_findDefsUsedOutsideOfLoop hd))
  -- no partition collects `d`: the last keeps the loop's own ids, the others collect copies
  have hkeep := removeUnusedInsts_keeps (L := L) _ stc.f f' (KeepsValue.refl _ d) (fun q hq i hi hiq => ?_) hr
  · refine ⟨hdl, fun b hb hdb => hkeep.placed b ?_, hkeep.uses⟩
    rw [(hrl.body b (List.mem_cons_of_mem _ hb)).1, he.body b hb]
    exact hdb
  · rcases List.mem_append.1 hq with hq | hq
    · obtain ⟨_, nl, -, hnl, hl⟩ := hrl.link_of_mem hq
      obtain ⟨b, hb, hib⟩ := List.mem_flatMap.1 hi
      rw [(hrl.body b (List.mem_cons_of_mem _ hb)).1] at hib
      obtain ⟨c, hσ, hfc, -⟩ := hl.copy.inst b (List.mem_cons_of_mem _ hb) i hib
      have hdc : d < c := lt_of_lt_of_le (hlt d hd b₀ hb₀ hdb₀) hfc
      simp only [DistPartition.getNewInst, hnl, mapId, hσ, Option.getD_some]
      omega
    · rw [List.mem_singleton] at hq
      subst hq
      exact fun h' => hiq (by rw [show i = d from h']; exact hdl)

/-- `twoLiveOutFunc` distributed without checks: its values 11 and 16, used after the loop, stay in
block 1 with their uses. -/
theorem distribute_keeps_defsUsedOutside_twoLiveOut :
    ∃ parts st', formPartitions {} .ascending twoLiveOutFunc fourAccessLoop (fun _ => false)
        [12, 13, 14, 15] [⟨1, 2, true⟩] = .ok (some parts) ∧
      distribute {} .ascending (fourAccessInfo [12, 13, 14, 15] [⟨1, 2, true⟩] false)
        fourAccessLoop 0 [⟨1, 2, true⟩] parts ⟨twoLiveOutFunc, fourAccessDomTree⟩ = .ok st' ∧
      ∃ st₁ dparts stc ps last, beforeCloneLoops {} .ascending
          (fourAccessInfo [12, 13, 14, 15] [⟨1, 2, true⟩] false) fourAccessLoop 0 [⟨1, 2, true⟩]
          parts ⟨twoLiveOutFunc, fourAccessDomTree⟩ = .ok (st₁, dparts) ∧
        cloneLoops fourAccessLoop st₁ dparts = .ok (stc, ps) ∧
        removeUnusedInsts fourAccessLoop ps stc.f = .ok st'.f ∧
        ps.getLast? = some last ∧ parts.getLast? = some last.part ∧
        last.getDistributedLoop fourAccessLoop = fourAccessLoop ∧ (∀ i, last.getNewInst i = i) ∧
        ∀ d ∈ findDefsUsedOutsideOfLoop twoLiveOutFunc fourAccessLoop, d ∈ last.part.set ∧
          (∀ b ∈ fourAccessLoop.blocks, d ∈ twoLiveOutFunc.body b → d ∈ st'.f.body b) ∧
          ∀ u, Value.inst d ∈ (stc.f.inst u).operands → Value.inst d ∈ (st'.f.inst u).operands :=
  ⟨_, _, rfl, rfl, @distribute_keeps_defsUsedOutside {} .ascending
    (fourAccessInfo [12, 13, 14, 15] [⟨1, 2, true⟩] false) (fun _ => false) fourAccessLoop 0 2
    [⟨1, 2, true⟩] _ ⟨twoLiveOutFunc, fourAccessDomTree⟩ _ (by decide)
    ⟨by decide, by decide, by decide, by decide⟩ (by decide) rfl rfl (fun _ h => nomatch h) rfl rfl⟩

end Llvm.LoopDistribute
