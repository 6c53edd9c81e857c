import Llvm.LoopDistribute.Partition

/-!
# `populateUsedSet`: the use-def closure

The worklist of `populateUsedSet` keeps two invariants, as a marking worklist does (`DrainInv`):
what it adds are loop instructions that are operands of members, and a member off the worklist has
all its loop operands in the set. A pop costs one unit of fuel and lowers the measure
`worklist length + loop instructions outside the set` by one, so the fuel the pass gives is enough
for the worklist to run empty.

* `Closed f L s` : every loop instruction that is an operand of a member is a member;
* `pushOperands_spec` : the inner loop adds the loop operands, and pushes exactly what it adds;
* `drainWorklist_inv` : the worklist loop keeps `DrainInv` and empties within the measure;
* `populateUsedSet_spec` : the result holds the seeds and the terminators, is closed, and adds only
  terminators and loop instructions that are operands of some instruction.
-/

namespace Llvm.LoopDistribute

/-- Every loop instruction among the operands of a member is a member. -/
def Closed (f : Func) (L : Loop) (s : Finset Nat) : Prop :=
  ∀ x ∈ s, ∀ j, Value.inst j ∈ (f.inst x).operands → L.contains f j = true → j ∈ s

/-- The loop's instructions as a set. -/
def loopSet (f : Func) (L : Loop) : Finset Nat := (L.insts f).toFinset

theorem mem_loopSet {f : Func} {L : Loop} {j : Nat} : j ∈ loopSet f L ↔ L.contains f j = true := by
  rw [loopSet, List.mem_toFinset, Loop.contains_iff]

section Push

variable (f : Func) (L : Loop)

/-- The inner loop adds the loop instructions among `vs`, pushes exactly the ones it adds, and keeps
the measure: one more on the worklist for one fewer loop instruction outside the set. -/
theorem pushOperands_spec (vs : List Value) (s : Finset Nat) (w : List Nat) :
    (∀ j, j ∈ (pushOperands f L vs (s, w)).1 ↔ j ∈ s ∨ (Value.inst j ∈ vs ∧ L.contains f j = true)) ∧
    (∃ new, (pushOperands f L vs (s, w)).2 = new ++ w ∧
      ∀ j, j ∈ new ↔ j ∈ (pushOperands f L vs (s, w)).1 ∧ j ∉ s) ∧
    (pushOperands f L vs (s, w)).2.length + (loopSet f L \ (pushOperands f L vs (s, w)).1).card =
      w.length + (loopSet f L \ s).card := by
  induction vs generalizing s w with
  | nil => exact ⟨by simp [pushOperands], ⟨[], by simp [pushOperands]⟩, rfl⟩
  | cons v vs ih =>
    rcases v with j | b | n | _
    · by_cases hj : L.contains f j = true ∧ j ∉ s
      · have hp : pushOperands f L (.inst j :: vs) (s, w) =
            pushOperands f L vs (insert j s, j :: w) := by
          simp [pushOperands, hj.1, hj.2]
        obtain ⟨h1, ⟨new, hw, hnew⟩, h3⟩ := ih (insert j s) (j :: w)
        have hjs : j ∈ (pushOperands f L vs (insert j s, j :: w)).1 :=
          (h1 j).2 (Or.inl (Finset.mem_insert_self j s))
        rw [hp]
        refine ⟨fun k => ?_, ⟨new ++ [j], by simp [hw], fun k => ?_⟩, ?_⟩
        · rw [h1, Finset.mem_insert, List.mem_cons]
          constructor
          · rintro ((rfl | h) | h)
            · exact Or.inr ⟨Or.inl rfl, hj.1⟩
            · exact Or.inl h
            · exact Or.inr ⟨Or.inr h.1, h.2⟩
          · rintro (h | ⟨h | h, hc⟩)
            · exact Or.inl (Or.inr h)
            · exact Or.inl (Or.inl (Value.inst.inj h))
            · exact Or.inr ⟨h, hc⟩
        · rw [List.mem_append, hnew, List.mem_singleton, Finset.mem_insert]
          constructor
          · rintro (⟨h, hn⟩ | rfl)
            · exact ⟨h, fun hs => hn (Or.inr hs)⟩
            · exact ⟨hjs, hj.2⟩
          · rintro ⟨h, hn⟩
            by_cases hk : k = j
            · exact Or.inr hk
            · exact Or.inl ⟨h, fun h' => h'.elim hk hn⟩
        · have hmem : j ∈ loopSet f L \ s := Finset.mem_sdiff.2 ⟨mem_loopSet.2 hj.1, hj.2⟩
          rw [h3, Finset.sdiff_insert, Finset.card_erase_of_mem hmem, List.length_cons]
          have := Finset.card_pos.2 ⟨j, hmem⟩
          omega
      · have hp : pushOperands f L (.inst j :: vs) (s, w) = pushOperands f L vs (s, w) := by
          by_cases hc : L.contains f j = true
          · simp [pushOperands, hc, not_not.1 (fun h => hj ⟨hc, h⟩)]
          · simp [pushOperands, hc]
        obtain ⟨h1, h2, h3⟩ := ih s w
        rw [hp]
        refine ⟨fun k => ?_, h2, h3⟩
        rw [h1, List.mem_cons]
        constructor
        · rintro (h | ⟨h, hc⟩)
          · exact Or.inl h
          · exact Or.inr ⟨Or.inr h, hc⟩
        · rintro (h | ⟨h | h, hc⟩)
          · exact Or.inl h
          · cases Value.inst.inj h
            exact Or.inl (not_not.1 fun hn => hj ⟨hc, hn⟩)
          · exact Or.inr ⟨h, hc⟩
    all_goals
      obtain ⟨h1, h2, h3⟩ := ih s w
      exact ⟨fun k => by simp [pushOperands, h1], by simpa [pushOperands] using h2,
        by simpa [pushOperands] using h3⟩

end Push

/-! ## The worklist loop -/

/-- The invariants of the worklist loop started from the set `s₀`: what is on the worklist is in
the set, a member off the worklist has its loop operands in the set, and every member is a seed or
a loop instruction used by a member. -/
structure DrainInv (f : Func) (L : Loop) (s₀ : Finset Nat) (s : Finset Nat) (w : List Nat) : Prop where
  sub : ∀ x ∈ w, x ∈ s
  done : ∀ x ∈ s, x ∉ w → ∀ j, Value.inst j ∈ (f.inst x).operands → L.contains f j = true → j ∈ s
  sound : ∀ x ∈ s, x ∈ s₀ ∨ (L.contains f x = true ∧ ∃ u ∈ s, Value.inst x ∈ (f.inst u).operands)
  seeds : s₀ ⊆ s

/-- One pop keeps `DrainInv`. -/
theorem drainInv_pop {f : Func} {L : Loop} {s₀ s : Finset Nat} {i : Nat} {w : List Nat}
    (h : DrainInv f L s₀ s (i :: w)) :
    DrainInv f L s₀ (pushOperands f L (f.inst i).operands (s, w)).1
      (pushOperands f L (f.inst i).operands (s, w)).2 := by
  obtain ⟨h1, ⟨new, hw, hnew⟩, -⟩ := pushOperands_spec f L (f.inst i).operands s w
  have hi : i ∈ s := h.sub i (List.mem_cons_self _ _)
  have hsub : ∀ x ∈ s, x ∈ (pushOperands f L (f.inst i).operands (s, w)).1 :=
    fun x hx => (h1 x).2 (Or.inl hx)
  rw [hw]
  refine ⟨fun x hx => ?_, fun x hx hxw j hj hc => ?_, fun x hx => ?_, fun x hx => hsub x (h.seeds hx)⟩
  · rcases List.mem_append.1 hx with hx | hx
    · exact ((hnew x).1 hx).1
    · exact hsub x (h.sub x (List.mem_cons_of_mem _ hx))
  · by_cases hxi : x = i
    · subst hxi; exact (h1 j).2 (Or.inr ⟨hj, hc⟩)
    · have hxs : x ∈ s := by
        by_contra hn; exact hxw (List.mem_append_left _ ((hnew x).2 ⟨hx, hn⟩))
      have hxw' : x ∉ i :: w := by
        rintro (_ | ⟨_, hx'⟩)
        · exact hxi rfl
        · exact hxw (List.mem_append_right _ hx')
      exact hsub j (h.done x hxs hxw' j hj hc)
  · rcases (h1 x).1 hx with hx | ⟨hx, hc⟩
    · rcases h.sound x hx with h0 | ⟨hc, u, hu, hux⟩
      · exact Or.inl h0
      · exact Or.inr ⟨hc, u, hsub u hu, hux⟩
    · exact Or.inr ⟨hc, i, hsub i hi, hx⟩

/-- The worklist loop keeps `DrainInv`, and with fuel at least the measure it stops on an empty
worklist. -/
theorem drainWorklist_inv {f : Func} {L : Loop} {s₀ : Finset Nat} :
    ∀ (fuel : Nat) (s : Finset Nat) (w : List Nat), DrainInv f L s₀ s w →
      w.length + (loopSet f L \ s).card ≤ fuel → DrainInv f L s₀ (drainWorklist f L fuel (s, w)) []
  | 0, s, w, h, hm => by
    obtain rfl : w = [] := List.eq_nil_of_length_eq_zero (by omega)
    exact h
  | _ + 1, _, [], h, _ => h
  | fuel + 1, s, i :: w, h, hm => by
    have hp := (pushOperands_spec f L (f.inst i).operands s w).2.2
    exact drainWorklist_inv fuel _ _ (drainInv_pop h) (by simp only [List.length_cons] at hm; omega)

theorem DrainInv.closed {f : Func} {L : Loop} {s₀ s : Finset Nat} (h : DrainInv f L s₀ s []) :
    Closed f L s :=
  fun x hx => h.done x hx (List.not_mem_nil x)

/-! ## `populateUsedSet` -/

theorem mem_insertTerminators (f : Func) (L : Loop) (s : Finset Nat) (x : Nat) :
    x ∈ insertTerminators f L s ↔ x ∈ s ∨ ∃ b ∈ L.blocks, f.getTerminator b = some x := by
  unfold insertTerminators
  induction L.blocks generalizing s with
  | nil => simp
  | cons b bs ih =>
    rw [List.foldl_cons, ih]
    simp only [List.mem_cons, exists_eq_or_imp]
    cases f.getTerminator b with
    | none => simp
    | some t => simp only [Finset.mem_insert, Option.some.injEq]; tauto

theorem IterOrder.length_enum (ord : IterOrder) (s : Finset Nat) : (ord.enum s).length = s.card := by
  rw [← List.toFinset_card_of_nodup (ord.nodup_enum s)]
  congr 1; ext x; rw [List.mem_toFinset, ord.mem_enum]

/-- The worklist loop from a set `s`, its worklist `s` in the order `ord` reversed, keeps the
invariant to the end for any fuel from the one `populateUsedSet` gives on. -/
theorem drainInv_enum (ord : IterOrder) (f : Func) (L : Loop) (s : Finset Nat) {fuel : Nat}
    (hfuel : s.card + (L.insts f).length ≤ fuel) :
    DrainInv f L s (drainWorklist f L fuel (s, (ord.enum s).reverse)) [] := by
  have hmem : ∀ x, x ∈ (ord.enum s).reverse ↔ x ∈ s := fun x => by
    rw [List.mem_reverse, ord.mem_enum]
  refine drainWorklist_inv _ s _ ⟨fun x hx => (hmem x).1 hx, fun x hx hw => absurd ((hmem x).2 hx) hw,
    fun x hx => Or.inl hx, subset_rfl⟩ ?_
  have := Finset.card_le_card (Finset.sdiff_subset (s := loopSet f L) (t := s))
  have := List.toFinset_card_le (L.insts f)
  rw [List.length_reverse, ord.length_enum]; unfold loopSet at *; omega

theorem drainInv_populateUsedSet (ord : IterOrder) (f : Func) (L : Loop) (p : InstPartition) :
    DrainInv f L (insertTerminators f L p.set) (p.populateUsedSet ord f L).set [] :=
  drainInv_enum ord f L _ le_rfl

section Populate

variable (ord : IterOrder) (f : Func) (L : Loop) (p : InstPartition)

@[simp] theorem depCycle_populateUsedSet : (p.populateUsedSet ord f L).depCycle = p.depCycle := rfl

theorem subset_populateUsedSet : p.set ⊆ (p.populateUsedSet ord f L).set := fun x hx =>
  (drainInv_populateUsedSet ord f L p).seeds ((mem_insertTerminators f L _ x).2 (Or.inl hx))

theorem terminator_mem_populateUsedSet {b t : Nat} (hb : b ∈ L.blocks)
    (ht : f.getTerminator b = some t) : t ∈ (p.populateUsedSet ord f L).set :=
  (drainInv_populateUsedSet ord f L p).seeds ((mem_insertTerminators f L _ t).2 (Or.inr ⟨b, hb, ht⟩))

theorem closed_populateUsedSet : Closed f L (p.populateUsedSet ord f L).set :=
  (drainInv_populateUsedSet ord f L p).closed

/-- What `populateUsedSet` adds is a terminator of the loop or a loop instruction that is an operand
of a member. -/
theorem mem_populateUsedSet {x : Nat} (hx : x ∈ (p.populateUsedSet ord f L).set) :
    x ∈ p.set ∨ (∃ b ∈ L.blocks, f.getTerminator b = some x) ∨
      (L.contains f x = true ∧ ∃ u ∈ (p.populateUsedSet ord f L).set,
        Value.inst x ∈ (f.inst u).operands) := by
  rcases (drainInv_populateUsedSet ord f L p).sound x hx with h | h
  · exact (mem_insertTerminators f L _ x).1 h |>.imp_right Or.inl
  · exact Or.inr (Or.inr h)

/-- The closure of a partition of loop instructions holds loop instructions only. -/
theorem contains_of_mem_populateUsedSet (hp : ∀ y ∈ p.set, L.contains f y = true) {x : Nat}
    (hx : x ∈ (p.populateUsedSet ord f L).set) : L.contains f x = true := by
  rcases mem_populateUsedSet ord f L p hx with h | ⟨b, hb, ht⟩ | ⟨h, -⟩
  · exact hp x h
  · rw [Loop.contains_iff, Loop.insts, List.mem_flatMap]
    exact ⟨b, hb, List.mem_of_mem_getLast? ht⟩
  · exact h

end Populate

/-! ## The least closed set -/

section Least

variable {f : Func} {L : Loop}

/-- A worklist run from a set inside a closed set `T`, with its worklist in its set, stays inside
`T`: what it adds are loop operands of members. -/
theorem drainWorklist_subset {T : Finset Nat} (hT : Closed f L T) :
    ∀ (fuel : Nat) (s : Finset Nat) (w : List Nat), s ⊆ T → (∀ x ∈ w, x ∈ s) →
      drainWorklist f L fuel (s, w) ⊆ T
  | 0, _, _, hs, _ => hs
  | _ + 1, _, [], hs, _ => hs
  | fuel + 1, s, i :: w, hs, hw => by
    obtain ⟨h1, ⟨new, hnw, hnew⟩, -⟩ := pushOperands_spec f L (f.inst i).operands s w
    have hsub : (pushOperands f L (f.inst i).operands (s, w)).1 ⊆ T := fun j hj => by
      rcases (h1 j).1 hj with hj | ⟨hj, hc⟩
      · exact hs hj
      · exact hT i (hs (hw i (List.mem_cons_self _ _))) j hj hc
    refine drainWorklist_subset hT fuel _ _ hsub fun x hx => ?_
    rw [hnw] at hx
    rcases List.mem_append.1 hx with hx | hx
    · exact ((hnew x).1 hx).1
    · exact (h1 x).2 (Or.inl (hw x (List.mem_cons_of_mem _ hx)))

/-- From the fuel `populateUsedSet` gives on, the worklist loop from a set `s` computes the least
set above `s` closed under loop operands, whatever the order of its worklist. -/
theorem drainWorklist_isLeast (ord : IterOrder) (s : Finset Nat) {fuel : Nat}
    (hfuel : s.card + (L.insts f).length ≤ fuel) :
    IsLeast {T : Finset Nat | s ⊆ T ∧ Closed f L T}
      (drainWorklist f L fuel (s, (ord.enum s).reverse)) :=
  have h := drainInv_enum ord f L s hfuel
  ⟨⟨h.seeds, h.closed⟩, fun _ hT => drainWorklist_subset hT.2 fuel s _ hT.1 fun x hx =>
    (ord.mem_enum s x).1 (List.mem_reverse.1 hx)⟩

theorem insertTerminators_subset_iff (s T : Finset Nat) : insertTerminators f L s ⊆ T ↔
    s ⊆ T ∧ ∀ b ∈ L.blocks, ∀ t, f.getTerminator b = some t → t ∈ T := by
  simp only [Finset.subset_iff, mem_insertTerminators, or_imp, forall_and]
  exact and_congr_right' ⟨fun h b hb t ht => h t ⟨b, hb, ht⟩, fun h t ⟨b, hb, ht⟩ => h b hb t ht⟩

/-- `populateUsedSet` computes the least set that holds the partition's instructions and the
terminators of the loop's blocks and is closed under operands that are loop instructions. So the
order the `SmallPtrSet` is iterated in does not matter, and the worklist has run empty within the
fuel: any more fuel gives the same set. -/
theorem populateUsedSet_isLeast (ord : IterOrder) (f : Func) (L : Loop) (p : InstPartition) :
    IsLeast {T : Finset Nat | p.set ⊆ T ∧ (∀ b ∈ L.blocks, ∀ t, f.getTerminator b = some t → t ∈ T) ∧
        Closed f L T} (p.populateUsedSet ord f L).set ∧
      (∀ ord' : IterOrder, (p.populateUsedSet ord' f L).set = (p.populateUsedSet ord f L).set) ∧
      ∀ fuel ≥ (insertTerminators f L p.set).card + (L.insts f).length,
        drainWorklist f L fuel (insertTerminators f L p.set,
          (ord.enum (insertTerminators f L p.set)).reverse) = (p.populateUsedSet ord f L).set := by
  set s := insertTerminators f L p.set with hs
  have hset : {T : Finset Nat | p.set ⊆ T ∧ (∀ b ∈ L.blocks, ∀ t, f.getTerminator b = some t → t ∈ T) ∧
      Closed f L T} = {T | s ⊆ T ∧ Closed f L T} := by
    ext T; rw [Set.mem_setOf_eq, Set.mem_setOf_eq, hs, insertTerminators_subset_iff, and_assoc]
  -- every order, and every fuel from the bound on, gives the least closed set above `s`
  have hp : ∀ ord' : IterOrder, IsLeast {T | s ⊆ T ∧ Closed f L T} (p.populateUsedSet ord' f L).set :=
    fun ord' => drainWorklist_isLeast ord' s le_rfl
  exact ⟨hset ▸ hp ord, fun ord' => (hp ord').unique (hp ord),
    fun fuel hfuel => (drainWorklist_isLeast ord s hfuel).unique (hp ord)⟩

end Least

end Llvm.LoopDistribute
