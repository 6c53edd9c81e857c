import Llvm.LoopDistribute.Fallback

/-!
# What the pruning leaves in each loop

`removeUnusedInsts` gives each partition's loop only the copies of the partition's instructions.
The deletion loop is exact when the collected instructions hold all their users: the bodies become
their filters, and every other instruction is left as it was (`eraseUnused_spec`).
-/

namespace Llvm.LoopDistribute

open Func

/-! ## The deletion loop -/

theorem mem_operands_replaceUsesOfWith_undef {x : Inst} {i n : Nat}
    (h : Value.inst n ∈ (x.replaceUsesOfWith (.inst i) .undef).operands) : Value.inst n ∈ x.operands :=
  (mem_operands_replaceUsesOfWith h).resolve_right nofun

/-- A turn of the deletion loop adds no use of an instruction. -/
theorem users_eraseStep_sub (f : Func) (i n : Nat) {u : Nat}
    (hu : u ∈ ((if (f.users (.inst i)).isEmpty then f
      else f.replaceAllUsesWith (.inst i) .undef).eraseFromParent i).users (.inst n)) :
    u ∈ f.users (.inst n) := by
  obtain ⟨hu, hn⟩ := List.mem_filter.1 hu
  refine List.mem_filter.2 ⟨?_, ?_⟩
  · obtain ⟨b, hb, hub⟩ := mem_allInsts.1 hu
    refine mem_allInsts.2 ⟨b, by split at hb <;> exact hb, ?_⟩
    split at hub <;> exact List.mem_of_mem_erase hub
  · rw [decide_eq_true_eq] at hn ⊢
    split at hn
    · exact hn
    · simp only [eraseFromParent, replaceAllUsesWith] at hn
      split at hn
      · exact mem_operands_replaceUsesOfWith_undef hn
      · exact hn

/-- The deletion loop over a list `l` that holds every user of its members, in a function whose
bodies list each id once: the bodies become their filters, and the instructions outside `l` are left
as they were. -/
theorem foldl_eraseStep_spec : ∀ (l : List Nat) (f : Func), (∀ b, (f.body b).Nodup) →
    (∀ n ∈ l, ∀ u ∈ f.users (.inst n), u ∈ l) →
    (∀ b, (l.foldl (fun f i => (if (f.users (.inst i)).isEmpty then f
      else f.replaceAllUsesWith (.inst i) .undef).eraseFromParent i) f).body b =
        (f.body b).filter (· ∉ l)) ∧
    ∀ u ∉ l, (l.foldl (fun f i => (if (f.users (.inst i)).isEmpty then f
      else f.replaceAllUsesWith (.inst i) .undef).eraseFromParent i) f).inst u = f.inst u
  | [], f, _, _ => ⟨fun b => by simp, fun _ _ => rfl⟩
  | i :: l, f, hnd, hcl => by
    set f₁ := (if (f.users (.inst i)).isEmpty then f
      else f.replaceAllUsesWith (.inst i) .undef).eraseFromParent i with hf₁
    have hbody : ∀ b, f₁.body b = (f.body b).erase i := fun b => by rw [hf₁]; split <;> rfl
    -- an instruction that does not use `i` keeps its operands
    have hinst : ∀ u ∉ f.users (.inst i), f₁.inst u = f.inst u := fun u hu => by
      rw [hf₁]; split
      · rfl
      · simp only [eraseFromParent, replaceAllUsesWith, if_neg hu]
    have hnd₁ : ∀ b, (f₁.body b).Nodup := fun b => hbody b ▸ (hnd b).erase i
    have hcl₁ : ∀ n ∈ l, ∀ u ∈ f₁.users (.inst n), u ∈ l := fun n hn u hu => by
      have hu' := users_eraseStep_sub f i n hu
      obtain ⟨b, -, hub⟩ := mem_allInsts.1 (List.mem_filter.1 hu).1
      rw [hbody] at hub
      have hui : u ≠ i := fun h => ((hnd b).mem_erase_iff.1 (h ▸ hub)).1 rfl
      exact (List.mem_cons.1 (hcl n (List.mem_cons_of_mem _ hn) u hu')).resolve_left hui
    obtain ⟨ihb, ihi⟩ := foldl_eraseStep_spec l f₁ hnd₁ hcl₁
    refine ⟨fun b => ?_, fun u hu => ?_⟩
    · rw [List.foldl_cons, ihb, hbody, (hnd b).erase_eq_filter, List.filter_filter]
      congr 1
      funext x
      by_cases hx : x = i <;> simp [hx]
    · rw [List.foldl_cons, ihi u fun h => hu (List.mem_cons_of_mem _ h)]
      exact hinst u fun h => hu (hcl i (List.mem_cons_self _ _) u h)

/-- `eraseUnused` on a list that holds every user of its members. -/
theorem eraseUnused_spec {f : Func} {unused : List Nat} (hnd : ∀ b, (f.body b).Nodup)
    (hcl : ∀ n ∈ unused, ∀ u ∈ f.users (.inst n), u ∈ unused) :
    (∀ b, (eraseUnused f unused).body b = (f.body b).filter (· ∉ unused)) ∧
      ∀ u ∉ unused, (eraseUnused f unused).inst u = f.inst u := by
  obtain ⟨hb, hi⟩ := foldl_eraseStep_spec unused.reverse f hnd
    fun n hn u hu => List.mem_reverse.2 (hcl n (List.mem_reverse.1 hn) u hu)
  exact ⟨fun b => by simpa only [List.mem_reverse] using hb b,
    fun u hu => hi u (mt List.mem_reverse.1 hu)⟩

end Llvm.LoopDistribute
