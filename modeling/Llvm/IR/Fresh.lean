import Llvm.IR.Clone

/-!
# Fresh ids: what cloning, splicing and remapping change

Every block and instruction takes its id from the function's counter, so a copy never collides with
what was there. This module says so for the primitives `cloneLoopWithPreheader` is built from.

* `cloneInsts_copy`, `cloneBasicBlock_body_block` : each instruction of the cloned block gets a new
  id holding a copy of it, and the new block lists the copies in order;
* `Numbered` : the ids of a function are in order (no id used twice, all below the counter,
  branches to blocks of the layout), kept by `cloneBasicBlock`, `spliceBefore` (a reordering of the
  layout, `spliceBefore_perm`) and `remapInstructionsInLoop`;
* `remapInstructionsInLoop_inst` : each instruction of the listed blocks is remapped once;
* `Extends f g` : `g` keeps every id `f` has below its counter, with `Extends.succs`;
* `Numbered.update_body` : a change of one block's body keeps the ids in order;
* `splitBlock` : the new block takes `old`'s terminator and successors (`splitBlock_succs_new`),
  `old` branches to it, and the ids stay in order (`Numbered.splitBlock`).
-/

namespace Llvm

/-- The id a value names: an instruction's or a block's. -/
def Value.id? : Value → Option Nat
  | .inst i | .block i => some i
  | _ => none

namespace Func

/-! ## `cloneInsts` -/

section CloneInsts

variable (vmap : ValueMap)

@[simp] theorem cloneInsts_blocks (f : Func) (is : List Nat) :
    (f.cloneInsts vmap is).1.blocks = f.blocks := by
  induction is generalizing f vmap with
  | nil => rfl
  | cons i is ih => exact ih _ _

@[simp] theorem cloneInsts_body (f : Func) (is : List Nat) :
    (f.cloneInsts vmap is).1.body = f.body := by
  induction is generalizing f vmap with
  | nil => rfl
  | cons i is ih => exact ih _ _

@[simp] theorem cloneInsts_fresh (f : Func) (is : List Nat) :
    (f.cloneInsts vmap is).1.fresh = f.fresh + is.length := by
  induction is generalizing f vmap with
  | nil => rfl
  | cons i is ih => simp only [cloneInsts, ih, List.length_cons]; omega

/-- The copies take the ids from the counter on, in order. -/
theorem cloneInsts_ids (f : Func) (is : List Nat) :
    (f.cloneInsts vmap is).2.2 = List.range' f.fresh is.length := by
  induction is generalizing f vmap with
  | nil => rfl
  | cons i is ih => simp only [cloneInsts, ih, List.length_cons, List.range'_succ]

theorem cloneInsts_inst_of_not_mem (f : Func) (is : List Nat) {j : Nat}
    (hj : j ∉ List.range' f.fresh is.length) : (f.cloneInsts vmap is).1.inst j = f.inst j := by
  induction is generalizing f vmap with
  | nil => rfl
  | cons i is ih =>
    simp only [List.length_cons, List.range'_succ, List.mem_cons, not_or] at hj
    exact (ih _ _ (by exact hj.2)).trans (Function.update_noteq hj.1 _ _)

theorem cloneInsts_vmap_of_not_mem (f : Func) (is : List Nat) {j : Nat} (hj : j ∉ is) :
    (f.cloneInsts vmap is).2.1 j = vmap j := by
  induction is generalizing f vmap with
  | nil => rfl
  | cons i is ih =>
    simp only [List.mem_cons, not_or] at hj
    exact (ih _ _ (by exact hj.2)).trans (Function.update_noteq hj.1 _ _)

/-- Each instruction is mapped to its copy, which holds it. -/
theorem cloneInsts_copy (f : Func) (is : List Nat) (hlt : ∀ i ∈ is, i < f.fresh) (hnd : is.Nodup) :
    ∀ p ∈ is.zip (List.range' f.fresh is.length),
      (f.cloneInsts vmap is).2.1 p.1 = some p.2 ∧ (f.cloneInsts vmap is).1.inst p.2 = f.inst p.1 := by
  induction is generalizing f vmap with
  | nil => simp
  | cons i is ih =>
    rw [List.nodup_cons] at hnd
    intro p hp
    simp only [List.length_cons, List.range'_succ, List.zip_cons_cons, List.mem_cons] at hp
    rcases hp with rfl | hp
    · refine ⟨?_, ?_⟩
      · simp only [cloneInsts, cloneInsts_vmap_of_not_mem _ _ _ hnd.1, Function.update_same]
      · rw [cloneInsts, cloneInsts_inst_of_not_mem _ _ _ (by simp)]
        exact Function.update_same _ _ _
    · have hp1 : p.1 ∈ is := (List.of_mem_zip hp).1
      have := ih (Function.update vmap i (some f.fresh))
        { f with inst := Function.update f.inst f.fresh (f.inst i), fresh := f.fresh + 1 }
        (fun j hj => Nat.lt_succ_of_lt (hlt j (List.mem_cons_of_mem _ hj))) hnd.2 p hp
      refine ⟨this.1, this.2.trans ?_⟩
      exact Function.update_noteq (hlt _ (List.mem_cons_of_mem _ hp1)).ne _ _

end CloneInsts

/-! ## `cloneBasicBlock` -/

section CloneBasicBlock

variable (f : Func) (vmap : ValueMap) (bb : Nat)

@[simp] theorem cloneBasicBlock_block : (f.cloneBasicBlock vmap bb).2.2 = f.fresh := rfl

@[simp] theorem cloneBasicBlock_blocks :
    (f.cloneBasicBlock vmap bb).1.blocks = f.blocks ++ [f.fresh] := by
  simp [cloneBasicBlock]

@[simp] theorem cloneBasicBlock_fresh :
    (f.cloneBasicBlock vmap bb).1.fresh = f.fresh + 1 + (f.body bb).length := by
  simp [cloneBasicBlock]

theorem cloneBasicBlock_body :
    (f.cloneBasicBlock vmap bb).1.body =
      Function.update f.body f.fresh (List.range' (f.fresh + 1) (f.body bb).length) := by
  simp [cloneBasicBlock, cloneInsts_ids]

theorem cloneBasicBlock_inst_of_not_mem {j : Nat}
    (hj : j ∉ List.range' (f.fresh + 1) (f.body bb).length) :
    (f.cloneBasicBlock vmap bb).1.inst j = f.inst j :=
  cloneInsts_inst_of_not_mem vmap { f with fresh := f.fresh + 1 } _ hj

theorem cloneBasicBlock_vmap_of_not_mem {j : Nat} (hj : j ∉ f.body bb) :
    (f.cloneBasicBlock vmap bb).2.1 j = vmap j :=
  cloneInsts_vmap_of_not_mem vmap _ _ hj

theorem cloneBasicBlock_copy (hlt : ∀ i ∈ f.body bb, i < f.fresh + 1) (hnd : (f.body bb).Nodup) :
    ∀ p ∈ (f.body bb).zip (List.range' (f.fresh + 1) (f.body bb).length),
      (f.cloneBasicBlock vmap bb).2.1 p.1 = some p.2 ∧
        (f.cloneBasicBlock vmap bb).1.inst p.2 = f.inst p.1 :=
  cloneInsts_copy vmap { f with fresh := f.fresh + 1 } _ hlt hnd

/-- The new block lists the copies of the old block's instructions. -/
theorem cloneBasicBlock_body_block (hlt : ∀ i ∈ f.body bb, i < f.fresh + 1) (hnd : (f.body bb).Nodup) :
    (f.cloneBasicBlock vmap bb).1.body f.fresh =
      (f.body bb).map fun i => ((f.cloneBasicBlock vmap bb).2.1 i).getD i := by
  rw [cloneBasicBlock_body, Function.update_same]
  refine List.ext_getElem (by simp) fun k h₁ h₂ => ?_
  have hk : k < (f.body bb).length := by simpa using h₁
  have hp := (cloneBasicBlock_copy f vmap bb hlt hnd ((f.body bb)[k], f.fresh + 1 + k)
    (List.mem_iff_getElem.2 ⟨k, by simpa using hk, by simp [List.getElem_zip, List.getElem_range']⟩)).1
  simp [List.getElem_range', hp]

end CloneBasicBlock

theorem mem_allInsts {f : Func} {i : Nat} : i ∈ f.allInsts ↔ ∃ b ∈ f.blocks, i ∈ f.body b :=
  List.mem_flatMap

/-- A block keeps its successors when it keeps its body and its terminator. -/
theorem succs_congr {f g : Func} {b : Nat} (hb : g.body b = f.body b)
    (ht : ∀ t ∈ (f.body b).getLast?, g.inst t = f.inst t) : g.succs b = f.succs b := by
  unfold succs getTerminator
  rw [hb]
  cases h : (f.body b).getLast? with
  | none => rfl
  | some t => simp only [ht t h]

/-! ## Fresh ids -/

/-- The ids of a function are in order: the layout lists each block once and the blocks list each
instruction once, blocks and instructions have distinct ids below the counter, branches go to blocks
of the layout, and no operand of a placed instruction names an id at or above the counter. -/
structure Numbered (f : Func) : Prop where
  blocks_nodup : f.blocks.Nodup
  allInsts_nodup : f.allInsts.Nodup
  block_lt : ∀ b ∈ f.blocks, b < f.fresh
  inst_lt : ∀ i ∈ f.allInsts, i < f.fresh
  block_not_inst : ∀ b ∈ f.blocks, b ∉ f.allInsts
  succs_sub : ∀ b ∈ f.blocks, ∀ s ∈ f.succs b, s ∈ f.blocks
  operand_lt : ∀ i ∈ f.allInsts, ∀ v ∈ (f.inst i).operands, ∀ j ∈ v.id?, j < f.fresh

instance (f : Func) : Decidable f.Numbered :=
  decidable_of_iff (f.blocks.Nodup ∧ f.allInsts.Nodup ∧ (∀ b ∈ f.blocks, b < f.fresh) ∧
      (∀ i ∈ f.allInsts, i < f.fresh) ∧ (∀ b ∈ f.blocks, b ∉ f.allInsts) ∧
      (∀ b ∈ f.blocks, ∀ s ∈ f.succs b, s ∈ f.blocks) ∧
      ∀ i ∈ f.allInsts, ∀ v ∈ (f.inst i).operands, ∀ j ∈ v.id?, j < f.fresh)
    ⟨fun ⟨a, b, c, d, e, g, h⟩ => ⟨a, b, c, d, e, g, h⟩, fun ⟨a, b, c, d, e, g, h⟩ => ⟨a, b, c, d, e, g, h⟩⟩

namespace Numbered

variable {f : Func} (h : f.Numbered)
include h

theorem body_nodup {b : Nat} (hb : b ∈ f.blocks) : (f.body b).Nodup :=
  (List.nodup_flatMap.1 h.allInsts_nodup).1 b hb

theorem eq_of_mem_body {b c i : Nat} (hb : b ∈ f.blocks) (hc : c ∈ f.blocks) (hib : i ∈ f.body b)
    (hic : i ∈ f.body c) : b = c := by
  by_contra hne
  exact (List.nodup_flatMap.1 h.allInsts_nodup).2.forall (fun _ _ h => List.Disjoint.symm h)
    hb hc hne hib hic

theorem mem_body_lt {b i : Nat} (hb : b ∈ f.blocks) (hi : i ∈ f.body b) : i < f.fresh :=
  h.inst_lt i (mem_allInsts.2 ⟨b, hb, hi⟩)

end Numbered

/-! ## `cloneBasicBlock` keeps the ids in order -/

section CloneBasicBlockNumbered

variable {f : Func} (vmap : ValueMap) (bb : Nat)

theorem cloneBasicBlock_allInsts (hn : f.fresh ∉ f.blocks) :
    (f.cloneBasicBlock vmap bb).1.allInsts =
      f.allInsts ++ List.range' (f.fresh + 1) (f.body bb).length := by
  simp only [allInsts, cloneBasicBlock_blocks, cloneBasicBlock_body, List.flatMap_append,
    List.flatMap_singleton, Function.update_same]
  congr 1
  exact List.flatMap_congr fun b hb => Function.update_noteq (ne_of_mem_of_not_mem hb hn) _ _

variable (h : f.Numbered) (hbb : bb ∈ f.blocks)
include h hbb

/-- Every new instruction is the copy of one of the block's instructions. -/
theorem cloneBasicBlock_inst_new {c : Nat} (hc : c ∈ List.range' (f.fresh + 1) (f.body bb).length) :
    ∃ i ∈ f.body bb, (f.cloneBasicBlock vmap bb).1.inst c = f.inst i := by
  rw [List.mem_range'_1] at hc
  have hk : c - (f.fresh + 1) < (f.body bb).length := by omega
  refine ⟨(f.body bb)[c - (f.fresh + 1)], List.getElem_mem _, (cloneBasicBlock_copy f vmap bb
    (fun i hi => Nat.lt_succ_of_lt (h.mem_body_lt hbb hi)) (h.body_nodup hbb) (_, c) ?_).2⟩
  refine List.mem_iff_getElem.2 ⟨c - (f.fresh + 1), by simpa using hk, ?_⟩
  simp only [List.getElem_zip, List.getElem_range', Prod.mk.injEq, true_and]
  omega

/-- The new block branches where the old one does. -/
theorem cloneBasicBlock_succs_new : (f.cloneBasicBlock vmap bb).1.succs f.fresh = f.succs bb := by
  have hlt : ∀ i ∈ f.body bb, i < f.fresh + 1 := fun i hi => Nat.lt_succ_of_lt (h.mem_body_lt hbb hi)
  have hcopy := cloneBasicBlock_copy f vmap bb hlt (h.body_nodup hbb)
  unfold succs getTerminator
  rw [cloneBasicBlock_body_block f vmap bb hlt (h.body_nodup hbb), List.getLast?_map]
  cases ht : (f.body bb).getLast? with
  | none => rfl
  | some t =>
    obtain ⟨k, hk, hkt⟩ := List.getElem_of_mem (List.mem_of_mem_getLast? ht)
    have hp := hcopy (t, f.fresh + 1 + k)
      (List.mem_iff_getElem.2 ⟨k, by simpa using hk, by simp [List.getElem_zip, List.getElem_range', hkt]⟩)
    simp [mapId, hp.1, hp.2]

theorem Numbered.cloneBasicBlock : (f.cloneBasicBlock vmap bb).1.Numbered := by
  have hn : f.fresh ∉ f.blocks := fun hm => (h.block_lt _ hm).false
  have hold : ∀ i ∈ f.allInsts, (f.cloneBasicBlock vmap bb).1.inst i = f.inst i := fun i hi =>
    cloneBasicBlock_inst_of_not_mem f vmap bb fun hm => by
      have := h.inst_lt i hi; rw [List.mem_range'_1] at hm; omega
  constructor
  · rw [cloneBasicBlock_blocks]
    exact h.blocks_nodup.append (List.nodup_singleton _) fun b hb hb' => by
      rw [List.mem_singleton] at hb'; exact hn (hb' ▸ hb)
  · rw [cloneBasicBlock_allInsts vmap bb hn]
    exact h.allInsts_nodup.append (List.nodup_range' _ _) fun i hi hi' => by
      have := h.inst_lt i hi; rw [List.mem_range'_1] at hi'; omega
  · intro b hb
    rw [cloneBasicBlock_blocks, List.mem_append, List.mem_singleton] at hb
    rcases hb with hb | rfl
    · have := h.block_lt b hb; simp; omega
    · simp; omega
  · intro i hi
    rw [cloneBasicBlock_allInsts vmap bb hn, List.mem_append, List.mem_range'_1] at hi
    rcases hi with hi | hi
    · have := h.inst_lt i hi; simp; omega
    · simp; omega
  · intro b hb hi
    rw [cloneBasicBlock_blocks, List.mem_append, List.mem_singleton] at hb
    rw [cloneBasicBlock_allInsts vmap bb hn, List.mem_append, List.mem_range'_1] at hi
    rcases hb with hb | rfl
    · rcases hi with hi | hi
      · exact h.block_not_inst b hb hi
      · have := h.block_lt b hb; omega
    · rcases hi with hi | hi
      · exact hn (h.inst_lt _ hi |>.false.elim)
      · omega
  · intro b hb s hs
    rw [cloneBasicBlock_blocks, List.mem_append, List.mem_singleton] at hb ⊢
    rcases hb with hb | rfl
    · have hsb : (f.cloneBasicBlock vmap bb).1.succs b = f.succs b := by
        refine succs_congr (by rw [cloneBasicBlock_body, Function.update_noteq
          (ne_of_mem_of_not_mem hb hn)]) fun t ht => hold t ?_
        exact mem_allInsts.2 ⟨b, hb, List.mem_of_mem_getLast? ht⟩
      rw [hsb] at hs
      exact .inl (h.succs_sub b hb s hs)
    · rw [cloneBasicBlock_succs_new vmap bb h hbb] at hs
      exact .inl (h.succs_sub bb hbb s hs)
  · intro i hi v hv j hj
    rw [cloneBasicBlock_allInsts vmap bb hn, List.mem_append] at hi
    rw [cloneBasicBlock_fresh]
    rcases hi with hi | hi
    · rw [hold i hi] at hv
      have := h.operand_lt i hi v hv j hj; omega
    · obtain ⟨i', hi', he⟩ := cloneBasicBlock_inst_new vmap bb h hbb hi
      rw [he] at hv
      have := h.operand_lt i' (mem_allInsts.2 ⟨bb, hbb, hi'⟩) v hv j hj; omega

end CloneBasicBlockNumbered

/-! ## `spliceBefore` -/

section Splice

variable {f : Func} {before : Nat} {moved : List Nat}

@[simp] theorem spliceBefore_body : (f.spliceBefore before moved).body = f.body := rfl

@[simp] theorem spliceBefore_inst : (f.spliceBefore before moved).inst = f.inst := rfl

@[simp] theorem spliceBefore_fresh : (f.spliceBefore before moved).fresh = f.fresh := rfl

theorem mem_spliceBefore (hb : before ∈ f.blocks) (hbm : before ∉ moved) {b : Nat} :
    b ∈ (f.spliceBefore before moved).blocks ↔ b ∈ f.blocks ∨ b ∈ moved := by
  simp only [spliceBefore, List.mem_flatMap, List.mem_filter, decide_eq_true_eq]
  constructor
  · rintro ⟨x, ⟨hx, -⟩, hbx⟩
    split_ifs at hbx
    · rw [List.mem_append, List.mem_singleton] at hbx
      rcases hbx with hbx | rfl
      · exact .inr hbx
      · exact .inl hx
    · rw [List.mem_singleton] at hbx; subst hbx; exact .inl hx
  · rintro (hb' | hb')
    · by_cases hbm' : b ∈ moved
      · exact ⟨before, ⟨hb, hbm⟩, by simp [hbm']⟩
      · exact ⟨b, ⟨hb', hbm'⟩, by split_ifs <;> simp⟩
    · exact ⟨before, ⟨hb, hbm⟩, by simp [hb']⟩

/-- Splicing blocks of the layout before another only reorders the layout. -/
theorem spliceBefore_perm (hnd : f.blocks.Nodup) (hb : before ∈ f.blocks) (hbm : before ∉ moved)
    (hmnd : moved.Nodup) (hmv : ∀ m ∈ moved, m ∈ f.blocks) :
    (f.spliceBefore before moved).blocks.Perm f.blocks := by
  refine (List.perm_ext_iff_of_nodup ?_ hnd).2 fun b =>
    (mem_spliceBefore hb hbm).trans ⟨fun h => h.elim id (hmv b), .inl⟩
  refine List.nodup_flatMap.2 ⟨fun x _ => ?_, (hnd.filter _).pairwise_of_forall_ne fun x hx y hy hxy => ?_⟩
  · split_ifs with hxb
    · exact hmnd.append (List.nodup_singleton _) (by simpa [hxb] using hbm)
    · exact List.nodup_singleton _
  · simp only [List.mem_filter, decide_eq_true_eq] at hx hy
    simp only [Function.onFun]
    split_ifs with h₁ h₂ h₂
    · exact absurd (h₁.trans h₂.symm) hxy
    · simp [hy.2, Ne.symm hxy]
    · simp [hx.2, hxy]
    · simp [Ne.symm hxy]

end Splice

/-- The ids stay in order when only the layout is reordered. -/
theorem Numbered.of_perm {f g : Func} (h : f.Numbered) (hp : g.blocks.Perm f.blocks)
    (hbody : g.body = f.body) (hinst : g.inst = f.inst) (hfresh : g.fresh = f.fresh) :
    g.Numbered := by
  have hall : g.allInsts.Perm f.allInsts := by
    unfold allInsts; rw [hbody]; exact hp.flatMap_right _
  have hsuccs : g.succs = f.succs := by
    funext b; exact succs_congr (by rw [hbody]) fun t _ => by rw [hinst]
  refine ⟨hp.nodup_iff.2 h.blocks_nodup, hall.nodup_iff.2 h.allInsts_nodup, ?_, ?_, ?_, ?_, ?_⟩
  · intro b hb; rw [hfresh]; exact h.block_lt b (hp.mem_iff.1 hb)
  · intro i hi; rw [hfresh]; exact h.inst_lt i (hall.mem_iff.1 hi)
  · intro b hb hi; exact h.block_not_inst b (hp.mem_iff.1 hb) (hall.mem_iff.1 hi)
  · intro b hb s hs; rw [hsuccs] at hs; exact hp.mem_iff.2 (h.succs_sub b (hp.mem_iff.1 hb) s hs)
  · intro i hi v hv j hj; rw [hinst] at hv; rw [hfresh]
    exact h.operand_lt i (hall.mem_iff.1 hi) v hv j hj

theorem Numbered.spliceBefore {f : Func} {before : Nat} {moved : List Nat} (h : f.Numbered)
    (hb : before ∈ f.blocks) (hbm : before ∉ moved) (hmnd : moved.Nodup)
    (hmv : ∀ m ∈ moved, m ∈ f.blocks) : (f.spliceBefore before moved).Numbered :=
  h.of_perm (spliceBefore_perm h.blocks_nodup hb hbm hmnd hmv) rfl rfl rfl

/-! ## `remapInstructionsInLoop` -/

section Remap

variable (vmap : ValueMap)

theorem foldl_remap_inst : ∀ (l : List Nat) (g : Func), l.Nodup → ∀ j,
    (l.foldl (fun g i => g.setInst i ((g.inst i).remap vmap)) g).inst j =
      if j ∈ l then (g.inst j).remap vmap else g.inst j
  | [], g, _, j => by simp
  | i :: l, g, hnd, j => by
    rw [List.nodup_cons] at hnd
    rw [List.foldl_cons, foldl_remap_inst l _ hnd.2 j]
    by_cases hj : j = i
    · subst hj; simp [hnd.1]
    · simp [hj]

theorem foldl_remap_body : ∀ (l : List Nat) (g : Func),
    (l.foldl (fun g i => g.setInst i ((g.inst i).remap vmap)) g).body = g.body
  | [], _ => rfl
  | i :: l, g => (foldl_remap_body l _).trans (setInst_body g i _)

theorem foldl_remap_blocks : ∀ (l : List Nat) (g : Func),
    (l.foldl (fun g i => g.setInst i ((g.inst i).remap vmap)) g).blocks = g.blocks
  | [], _ => rfl
  | i :: l, g => (foldl_remap_blocks l _).trans (setInst_blocks g i _)

theorem foldl_remap_fresh : ∀ (l : List Nat) (g : Func),
    (l.foldl (fun g i => g.setInst i ((g.inst i).remap vmap)) g).fresh = g.fresh
  | [], _ => rfl
  | _ :: l, _ => foldl_remap_fresh l _

@[simp] theorem remapInstructionsInLoop_body (f : Func) (bs : List Nat) :
    (f.remapInstructionsInLoop bs vmap).body = f.body := by
  induction bs generalizing f with
  | nil => rfl
  | cons b bs ih => exact (ih _).trans (foldl_remap_body vmap _ _)

@[simp] theorem remapInstructionsInLoop_blocks (f : Func) (bs : List Nat) :
    (f.remapInstructionsInLoop bs vmap).blocks = f.blocks := by
  induction bs generalizing f with
  | nil => rfl
  | cons b bs ih => exact (ih _).trans (foldl_remap_blocks vmap _ _)

@[simp] theorem remapInstructionsInLoop_fresh (f : Func) (bs : List Nat) :
    (f.remapInstructionsInLoop bs vmap).fresh = f.fresh := by
  induction bs generalizing f with
  | nil => rfl
  | cons b bs ih => exact (ih _).trans (foldl_remap_fresh vmap _ _)

/-- Each instruction of the listed blocks is remapped once; the others stay. -/
theorem remapInstructionsInLoop_inst (f : Func) (bs : List Nat) (hnd : (bs.flatMap f.body).Nodup)
    (j : Nat) : (f.remapInstructionsInLoop bs vmap).inst j =
      if j ∈ bs.flatMap f.body then (f.inst j).remap vmap else f.inst j := by
  induction bs generalizing f with
  | nil => simp [remapInstructionsInLoop]
  | cons b bs ih =>
    rw [List.flatMap_cons, List.nodup_append] at hnd
    have hb := foldl_remap_body vmap (f.body b) f
    show (remapInstructionsInLoop _ bs vmap).inst j = _
    rw [ih _ (by rw [hb]; exact hnd.2.1), hb, foldl_remap_inst vmap _ _ hnd.1]
    simp only [List.flatMap_cons, List.mem_append]
    by_cases h₁ : j ∈ f.body b
    · have h₂ : j ∉ bs.flatMap f.body := fun h₂ => hnd.2.2 h₁ h₂
      simp [h₁, h₂]
    · simp [h₁]

end Remap

theorem filterMap_getBlock?_mapValue (vmap : ValueMap) (ops : List Value) :
    (ops.map (mapValue vmap)).filterMap Value.getBlock? = (ops.filterMap Value.getBlock?).map (mapId vmap) := by
  induction ops with
  | nil => rfl
  | cons v ops ih => cases v <;> simp [mapValue, Value.getBlock?, ih]

/-- A block whose terminator is remapped branches to the images of its old successors. -/
theorem succs_of_remap {f g : Func} {b : Nat} (vmap : ValueMap) (hb : g.body b = f.body b)
    (ht : ∀ t ∈ (f.body b).getLast?, g.inst t = (f.inst t).remap vmap) :
    g.succs b = (f.succs b).map (mapId vmap) := by
  unfold succs getTerminator
  rw [hb]
  cases h : (f.body b).getLast? with
  | none => rfl
  | some t => simp only [ht t h, Inst.remap, filterMap_getBlock?_mapValue]

theorem mapValue_id? {vmap : ValueMap} {v : Value} {j : Nat} (hj : j ∈ (mapValue vmap v).id?) :
    ∃ k ∈ v.id?, j = mapId vmap k := by
  cases v <;> simp_all [mapValue, Value.id?]

theorem Numbered.nodup_flatMap_body {f : Func} (h : f.Numbered) {bs : List Nat}
    (hbs : ∀ b ∈ bs, b ∈ f.blocks) (hnd : bs.Nodup) : (bs.flatMap f.body).Nodup :=
  List.nodup_flatMap.2 ⟨fun b hb => h.body_nodup (hbs b hb), hnd.pairwise_of_forall_ne
    fun b hb c hc hbc _ hib hic => hbc (h.eq_of_mem_body (hbs b hb) (hbs c hc) hib hic)⟩

theorem Numbered.remapInstructionsInLoop {f : Func} {bs : List Nat} {vmap : ValueMap}
    (h : f.Numbered) (hbs : ∀ b ∈ bs, b ∈ f.blocks) (hnd : bs.Nodup)
    (hv : ∀ j c, vmap j = some c → c < f.fresh)
    (hvb : ∀ s ∈ f.blocks, ∀ c, vmap s = some c → c ∈ f.blocks) :
    (f.remapInstructionsInLoop bs vmap).Numbered := by
  have hfl := h.nodup_flatMap_body hbs hnd
  have hinst := remapInstructionsInLoop_inst vmap f bs hfl
  have hmap : ∀ k, k < f.fresh → mapId vmap k < f.fresh := fun k hk => by
    unfold mapId; cases hk' : vmap k with
    | none => exact hk
    | some c => exact hv k c hk'
  have hall : (f.remapInstructionsInLoop bs vmap).allInsts = f.allInsts := by simp [allInsts]
  refine ⟨by simpa using h.blocks_nodup, hall ▸ h.allInsts_nodup, by simpa using h.block_lt,
    hall ▸ by simpa using h.inst_lt, by simpa [hall] using h.block_not_inst, ?_, ?_⟩
  · intro b hb s hs
    have hbody : (f.remapInstructionsInLoop bs vmap).body b = f.body b := by simp
    simp only [remapInstructionsInLoop_blocks] at hb ⊢
    by_cases hbm : b ∈ bs
    · rw [succs_of_remap vmap hbody fun t ht => by
        rw [hinst, if_pos (List.mem_flatMap.2 ⟨b, hbm, List.mem_of_mem_getLast? ht⟩)]] at hs
      obtain ⟨s', hs', rfl⟩ := List.mem_map.1 hs
      have := h.succs_sub b hb s' hs'
      unfold mapId; cases hc : vmap s' with
      | none => exact this
      | some c => exact hvb s' this c hc
    · have hnot : ∀ t ∈ (f.body b).getLast?, t ∉ bs.flatMap f.body := fun t ht hm => by
        obtain ⟨c, hc, htc⟩ := List.mem_flatMap.1 hm
        exact hbm (h.eq_of_mem_body hb (hbs c hc) (List.mem_of_mem_getLast? ht) htc ▸ hc)
      rw [succs_congr hbody fun t ht => by rw [hinst, if_neg (hnot t ht)]] at hs
      exact h.succs_sub b hb s hs
  · intro i hi v hv j hj
    rw [hall] at hi
    rw [hinst] at hv
    simp only [remapInstructionsInLoop_fresh]
    split_ifs at hv
    · obtain ⟨v', hv', rfl⟩ := List.mem_map.1 hv
      obtain ⟨k, hk, rfl⟩ := mapValue_id? hj
      exact hmap k (h.operand_lt i hi v' hv' k hk)
    · exact h.operand_lt i hi v hv j hj

/-! ## Extensions -/

/-- `g` keeps what `f` has below its counter: the instruction and the body at each id under
`f.fresh`, and every block of the layout. -/
structure Extends (f g : Func) : Prop where
  fresh_le : f.fresh ≤ g.fresh
  inst : ∀ i < f.fresh, g.inst i = f.inst i
  body : ∀ b < f.fresh, g.body b = f.body b
  blocks : ∀ b ∈ f.blocks, b ∈ g.blocks

namespace Extends

theorem refl (f : Func) : Extends f f := ⟨le_rfl, fun _ _ => rfl, fun _ _ => rfl, fun _ h => h⟩

theorem trans {f g k : Func} (h₁ : Extends f g) (h₂ : Extends g k) : Extends f k :=
  ⟨h₁.fresh_le.trans h₂.fresh_le,
    fun i hi => (h₂.inst i (lt_of_lt_of_le hi h₁.fresh_le)).trans (h₁.inst i hi),
    fun b hb => (h₂.body b (lt_of_lt_of_le hb h₁.fresh_le)).trans (h₁.body b hb),
    fun b hb => h₂.blocks b (h₁.blocks b hb)⟩

/-- A block of `f` keeps its successors in an extension, when the ids of `f` are in order. -/
theorem succs {f g : Func} (h : Extends f g) (hf : f.Numbered) {b : Nat} (hb : b ∈ f.blocks) :
    g.succs b = f.succs b :=
  succs_congr (h.body b (hf.block_lt b hb)) fun t ht =>
    h.inst t (hf.mem_body_lt hb (List.mem_of_mem_getLast? ht))

end Extends

theorem extends_cloneBasicBlock (f : Func) (vmap : ValueMap) (bb : Nat) :
    Extends f (f.cloneBasicBlock vmap bb).1 := by
  refine ⟨by simp; omega, fun i hi => cloneBasicBlock_inst_of_not_mem f vmap bb ?_, fun b hb => ?_,
    fun b hb => by simp [hb]⟩
  · rw [List.mem_range'_1]; omega
  · rw [cloneBasicBlock_body, Function.update_noteq (by omega)]

theorem extends_spliceBefore {f : Func} {before : Nat} {moved : List Nat} (hb : before ∈ f.blocks)
    (hbm : before ∉ moved) : Extends f (f.spliceBefore before moved) :=
  ⟨le_rfl, fun _ _ => rfl, fun _ _ => rfl, fun _ h => (mem_spliceBefore hb hbm).2 (.inl h)⟩

/-- Remapping instructions placed at or above the counter of `f` keeps what `f` has. -/
theorem extends_remapInstructionsInLoop {f g : Func} (vmap : ValueMap) (bs : List Nat)
    (hnd : (bs.flatMap g.body).Nodup) (hg : Extends f g) (hnew : ∀ i ∈ bs.flatMap g.body, f.fresh ≤ i) :
    Extends f (g.remapInstructionsInLoop bs vmap) := by
  refine ⟨by simpa using hg.fresh_le, fun i hi => ?_, fun b hb => by simpa using hg.body b hb,
    fun b hb => by simpa using hg.blocks b hb⟩
  rw [remapInstructionsInLoop_inst vmap g bs hnd, if_neg fun hm => absurd (hnew i hm) (by omega)]
  exact hg.inst i hi

theorem dropLast_append_getLast?_toList {α : Type} (l : List α) : l.dropLast ++ l.getLast?.toList = l := by
  cases h : l.getLast? with
  | none => rw [List.getLast?_eq_none_iff.1 h]; rfl
  | some a => exact List.dropLast_append_getLast? a h

/-- A block keeps its successors when it keeps its body and its terminator's operands. -/
theorem succs_of_operands {f g : Func} {b : Nat} (hb : g.body b = f.body b)
    (ht : ∀ t ∈ (f.body b).getLast?, (g.inst t).operands = (f.inst t).operands) :
    g.succs b = f.succs b := by
  unfold succs getTerminator
  rw [hb]
  cases h : (f.body b).getLast? with
  | none => rfl
  | some t => simp only [ht t h]

/-! ## A function that changes one body -/

/-- A function that differs from one whose ids are in order only in the body of `bb`, which keeps
instructions of its own or takes new ones, with operands below the counter and branches to blocks of
the layout, has its ids in order. -/
theorem Numbered.update_body {f g : Func} {bb : Nat} (h : f.Numbered) (hbb : bb ∈ f.blocks)
    (hblocks : g.blocks = f.blocks) (hbody : ∀ b, b ≠ bb → g.body b = f.body b)
    (hnd : (g.body bb).Nodup) (hsub : ∀ i ∈ g.body bb, i ∈ f.body bb ∨ (f.fresh ≤ i ∧ i < g.fresh))
    (hfresh : f.fresh ≤ g.fresh) (hsucc : ∀ b ∈ f.blocks, ∀ s ∈ g.succs b, s ∈ f.blocks)
    (hop : ∀ i ∈ g.allInsts, ∀ v ∈ (g.inst i).operands, ∀ j ∈ v.id?, j < g.fresh) : g.Numbered := by
  -- an instruction of a body of `g` is one of the same body of `f`, or new in `bb`
  have hbi : ∀ b i, i ∈ g.body b → i ∈ f.body b ∨ (b = bb ∧ f.fresh ≤ i ∧ i < g.fresh) :=
    fun b i hi => by
      by_cases hbe : b = bb
      · subst hbe; exact (hsub i hi).imp_right fun h' => ⟨rfl, h'⟩
      · rw [hbody b hbe] at hi; exact .inl hi
  have hmem : ∀ i ∈ g.allInsts, i ∈ f.allInsts ∨ (f.fresh ≤ i ∧ i < g.fresh) := fun i hi => by
    obtain ⟨b, hb, hib⟩ := mem_allInsts.1 hi
    rw [hblocks] at hb
    exact (hbi b i hib).imp (fun h' => mem_allInsts.2 ⟨b, hb, h'⟩) fun h' => h'.2
  refine ⟨hblocks ▸ h.blocks_nodup, ?_, fun b hb => ?_, fun i hi => ?_, fun b hb hi => ?_,
    fun b hb => hblocks ▸ hsucc b (hblocks ▸ hb), hop⟩
  · unfold allInsts
    rw [hblocks]
    refine List.nodup_flatMap.2 ⟨fun b hb => ?_,
      h.blocks_nodup.pairwise_of_forall_ne fun b hb b' hb' hne i hi hi' => ?_⟩
    · by_cases hbe : b = bb
      · subst hbe; exact hnd
      · rw [hbody b hbe]; exact h.body_nodup hb
    · rcases hbi b i hi with hi | ⟨rfl, hi, -⟩ <;> rcases hbi b' i hi' with hi' | ⟨rfl, hi', -⟩
      · exact hne (h.eq_of_mem_body hb hb' hi hi')
      · have := h.mem_body_lt hb hi; omega
      · have := h.mem_body_lt hb' hi'; omega
      · exact hne rfl
  · rw [hblocks] at hb; exact lt_of_lt_of_le (h.block_lt b hb) hfresh
  · rcases hmem i hi with hi | hi
    · exact lt_of_lt_of_le (h.inst_lt i hi) hfresh
    · exact hi.2
  · rw [hblocks] at hb
    rcases hmem b hi with hi | hi
    · exact h.block_not_inst b hb hi
    · have := h.block_lt b hb; omega

/-! ## `splitBlock` -/

section Split

variable {f : Func} {dt : DomTree} {old : Nat}

@[simp] theorem renamePhiIncoming_blocks (ss : List Nat) (o n : Nat) :
    (f.renamePhiIncoming ss o n).blocks = f.blocks := rfl

@[simp] theorem renamePhiIncoming_body (ss : List Nat) (o n : Nat) :
    (f.renamePhiIncoming ss o n).body = f.body := rfl

@[simp] theorem renamePhiIncoming_fresh (ss : List Nat) (o n : Nat) :
    (f.renamePhiIncoming ss o n).fresh = f.fresh := rfl

/-- Renaming incoming blocks changes nothing but the incoming lists. -/
theorem renamePhiIncoming_inst (ss : List Nat) (o n i : Nat) :
    ∃ inc, (f.renamePhiIncoming ss o n).inst i = { f.inst i with incoming := inc } := by
  unfold renamePhiIncoming
  dsimp only
  split_ifs
  · exact ⟨_, rfl⟩
  · exact ⟨(f.inst i).incoming, rfl⟩

@[simp] theorem renamePhiIncoming_operands (ss : List Nat) (o n i : Nat) :
    ((f.renamePhiIncoming ss o n).inst i).operands = (f.inst i).operands := by
  obtain ⟨inc, h⟩ := renamePhiIncoming_inst (f := f) ss o n i
  rw [h]

theorem splitBlock_snd : (f.splitBlock dt old).2.2 = f.fresh := rfl

@[simp] theorem splitBlock_fresh : (f.splitBlock dt old).1.fresh = f.fresh + 2 := rfl

theorem splitBlock_body :
    (f.splitBlock dt old).1.body = Function.update (Function.update f.body f.fresh
      (f.body old).getLast?.toList) old ((f.body old).dropLast ++ [f.fresh + 1]) := rfl

theorem splitBlock_operands (i : Nat) : ((f.splitBlock dt old).1.inst i).operands =
    if i = f.fresh + 1 then [.block f.fresh] else (f.inst i).operands := by
  simp only [splitBlock, renamePhiIncoming_operands, Function.update_apply]
  split_ifs <;> rfl

/-- An instruction other than the new branch keeps all but its incoming blocks. -/
theorem splitBlock_inst (i : Nat) (hi : i ≠ f.fresh + 1) :
    ∃ inc, (f.splitBlock dt old).1.inst i = { f.inst i with incoming := inc } := by
  unfold splitBlock renamePhiIncoming
  dsimp only
  rw [Function.update_noteq hi]
  split_ifs
  · exact ⟨_, rfl⟩
  · exact ⟨(f.inst i).incoming, rfl⟩

/-- `old` now ends with the branch to the new block. -/
theorem splitBlock_succs_old : (f.splitBlock dt old).1.succs old = [f.fresh] := by
  unfold succs getTerminator
  rw [splitBlock_body, Function.update_same, List.getLast?_append, List.getLast?_singleton]
  simp [splitBlock_operands, Value.getBlock?]

section Numbered

variable (h : f.Numbered)
include h

theorem splitBlock_body_of_ne {b : Nat} (hb : b ∈ f.blocks) (hbo : b ≠ old) :
    (f.splitBlock dt old).1.body b = f.body b := by
  rw [splitBlock_body, Function.update_noteq hbo, Function.update_noteq (h.block_lt b hb).ne]

theorem splitBlock_succs_of_ne {b : Nat} (hb : b ∈ f.blocks) (hbo : b ≠ old) :
    (f.splitBlock dt old).1.succs b = f.succs b :=
  succs_of_operands (splitBlock_body_of_ne h hb hbo) fun t ht => by
    have htl : t ≠ f.fresh + 1 :=
      (Nat.lt_succ_of_lt (h.mem_body_lt hb (List.mem_of_mem_getLast? ht))).ne
    rw [splitBlock_operands, if_neg htl]

variable (hold : old ∈ f.blocks)
include hold

/-- The new block branches where `old` did. -/
theorem splitBlock_succs_new : (f.splitBlock dt old).1.succs f.fresh = f.succs old := by
  have hne : f.fresh ≠ old := (h.block_lt old hold).ne'
  unfold succs getTerminator
  rw [splitBlock_body, Function.update_noteq hne, Function.update_same]
  cases ht : (f.body old).getLast? with
  | none => rfl
  | some t =>
    have htl : t ≠ f.fresh + 1 :=
      (Nat.lt_succ_of_lt (h.mem_body_lt hold (List.mem_of_mem_getLast? ht))).ne
    simp [splitBlock_operands, htl]

theorem splitBlock_blocks_eq : ∃ s t, f.blocks = s ++ old :: t ∧
    (f.splitBlock dt old).1.blocks = s ++ old :: f.fresh :: t ∧ old ∉ s ∧ old ∉ t := by
  obtain ⟨s, t, hst⟩ := List.append_of_mem hold
  have hnd := h.blocks_nodup
  rw [hst, List.nodup_middle, List.nodup_cons] at hnd
  have hs : old ∉ s := fun hm => hnd.1 (List.mem_append_left _ hm)
  have ht : old ∉ t := fun hm => hnd.1 (List.mem_append_right _ hm)
  have hid : ∀ l : List Nat, old ∉ l →
      (l.flatMap fun b => if b = old then [b, f.fresh] else [b]) = l := fun l hl => by
    rw [List.flatMap_congr fun b hb => if_neg (ne_of_mem_of_not_mem hb hl), List.flatMap_singleton']
  refine ⟨s, t, hst, ?_, hs, ht⟩
  show (f.blocks.flatMap fun b => if b = old then [b, f.fresh] else [b]) = _
  rw [hst, List.flatMap_append, List.flatMap_cons, if_pos rfl, hid s hs, hid t ht]
  rfl

theorem splitBlock_blocks_perm : (f.splitBlock dt old).1.blocks.Perm (f.fresh :: f.blocks) := by
  obtain ⟨s, t, hst, hg, -⟩ := @splitBlock_blocks_eq f dt old h hold
  rw [hg, hst, ← List.singleton_append, ← List.append_assoc]
  exact List.perm_middle.trans (by simp)

theorem mem_splitBlock_blocks {b : Nat} :
    b ∈ (f.splitBlock dt old).1.blocks ↔ b = f.fresh ∨ b ∈ f.blocks := by
  rw [(@splitBlock_blocks_perm f dt old h hold).mem_iff, List.mem_cons]

theorem splitBlock_allInsts_perm :
    (f.splitBlock dt old).1.allInsts.Perm ((f.fresh + 1) :: f.allInsts) := by
  obtain ⟨s, t, hst, hg, hs, ht⟩ := @splitBlock_blocks_eq f dt old h hold
  have hbody : ∀ l : List Nat, (∀ b ∈ l, b ∈ f.blocks ∧ b ≠ old) →
      l.flatMap (f.splitBlock dt old).1.body = l.flatMap f.body := fun l hl =>
    List.flatMap_congr fun b hb => splitBlock_body_of_ne h (hl b hb).1 (hl b hb).2
  have hsb : ∀ b ∈ s, b ∈ f.blocks ∧ b ≠ old := fun b hb =>
    ⟨by rw [hst]; exact List.mem_append_left _ hb, ne_of_mem_of_not_mem hb hs⟩
  have htb : ∀ b ∈ t, b ∈ f.blocks ∧ b ≠ old := fun b hb =>
    ⟨by rw [hst]; exact List.mem_append_right _ (List.mem_cons_of_mem _ hb),
      ne_of_mem_of_not_mem hb ht⟩
  have hne : f.fresh ≠ old := (h.block_lt old hold).ne'
  unfold allInsts
  rw [hg, hst, List.flatMap_append, List.flatMap_append, List.flatMap_cons, List.flatMap_cons,
    List.flatMap_cons, hbody s hsb, hbody t htb, splitBlock_body, Function.update_same,
    Function.update_noteq hne, Function.update_same]
  conv_rhs => rw [← dropLast_append_getLast?_toList (f.body old)]
  have key := @List.perm_middle _ (f.fresh + 1) (s.flatMap f.body ++ (f.body old).dropLast)
    ((f.body old).getLast?.toList ++ t.flatMap f.body)
  simpa only [List.append_assoc, List.singleton_append] using key

theorem Numbered.splitBlock : (f.splitBlock dt old).1.Numbered := by
  have hp := @splitBlock_allInsts_perm f dt old h hold
  have hbr : f.fresh + 1 ∉ f.allInsts := fun hm => by have := h.inst_lt _ hm; omega
  have hnb : f.fresh ∉ f.blocks := fun hm => by have := h.block_lt _ hm; omega
  have hmem : ∀ i, i ∈ (f.splitBlock dt old).1.allInsts ↔ i = f.fresh + 1 ∨ i ∈ f.allInsts :=
    fun i => by rw [hp.mem_iff, List.mem_cons]
  refine ⟨(splitBlock_blocks_perm h hold).nodup_iff.2 (List.nodup_cons.2 ⟨hnb, h.blocks_nodup⟩),
    hp.nodup_iff.2 (List.nodup_cons.2 ⟨hbr, h.allInsts_nodup⟩), fun b hb => ?_, fun i hi => ?_,
    fun b hb hi => ?_, fun b hb s hs => ?_, fun i hi v hv j hj => ?_⟩
  · rcases (mem_splitBlock_blocks h hold).1 hb with rfl | hb
    · simp
    · have := h.block_lt b hb; simp; omega
  · rcases (hmem i).1 hi with rfl | hi
    · simp
    · have := h.inst_lt i hi; simp; omega
  · rcases (mem_splitBlock_blocks h hold).1 hb with rfl | hb <;> rcases (hmem _).1 hi with hi | hi
    · omega
    · have := h.inst_lt _ hi; omega
    · have := h.block_lt b hb; omega
    · exact h.block_not_inst b hb hi
  · rw [mem_splitBlock_blocks h hold]
    rcases (mem_splitBlock_blocks h hold).1 hb with rfl | hb
    · rw [splitBlock_succs_new h hold] at hs
      exact .inr (h.succs_sub old hold s hs)
    · by_cases hbo : b = old
      · subst hbo; rw [splitBlock_succs_old, List.mem_singleton] at hs; exact .inl hs
      · rw [splitBlock_succs_of_ne h hb hbo] at hs; exact .inr (h.succs_sub b hb s hs)
  · rw [splitBlock_operands] at hv
    simp only [splitBlock_fresh]
    split_ifs at hv with hi'
    · simp only [List.mem_singleton] at hv; subst hv; simp only [Value.id?, Option.mem_def,
        Option.some.injEq] at hj; omega
    · have := h.operand_lt i (((hmem i).1 hi).resolve_left hi') v hv j hj; omega

end Numbered

end Split

end Func

end Llvm
