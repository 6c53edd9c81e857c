import Llvm.LoopDistribute.Coarsening
import Mathlib.Data.List.Basic

/-!
# `mergeToAvoidDuplicatedLoads` merges consecutive partitions and leaves every load in one

The scan unions partition `i` with every partition back to the one where a load of `i` was first
seen. Because the cursor walks down from `i - 1` and `i` leads its class, every class stays an
interval of positions led by its largest element (`EquivalenceClasses.Intervals`); moving the
members into their leaders and dropping the emptied partitions is then a `Coarsening`, one that
sends every two partitions holding the same load to the same place
(`mergeToAvoidDuplicatedLoads_coarsening`).

* `rank` : where an element lands in a filtered list;
* `unionSets_leader`, `unionBackTo_spec` : one union and the backward walk;
* `scanLoads_spec`, `scanPartitions_spec` : the scan's invariant;
* `mem_mergeIntoLeaders` : what each position holds after the moves.
-/

namespace Llvm.LoopDistribute

/-! ## Where an element lands in a filtered list -/

section Rank
variable {α : Type} (p : α → Bool)

/-- The number of elements before position `k` that pass `p`. -/
def rank (l : List α) (k : Nat) : Nat := ((l.take k).filter p).length

@[simp] theorem rank_zero (l : List α) : rank p l 0 = 0 := by simp [rank]

@[simp] theorem rank_nil (k : Nat) : rank p ([] : List α) k = 0 := by simp [rank]

@[simp] theorem rank_cons_succ (a : α) (l : List α) (k : Nat) :
    rank p (a :: l) (k + 1) = rank p l k + if p a then 1 else 0 := by
  by_cases h : p a <;> simp [rank, List.filter_cons, h]

variable {p}

theorem rank_mono (l : List α) {k k' : Nat} (h : k ≤ k') : rank p l k ≤ rank p l k' := by
  induction l generalizing k k' with
  | nil => simp
  | cons a l ih =>
    match k, k' with
    | 0, _ => simp
    | k + 1, k' + 1 => have := ih (Nat.le_of_succ_le_succ h); simp only [rank_cons_succ]; omega

theorem rank_lt_rank (l : List α) (d : α) {k k' : Nat} (h : k < k') (hl : k < l.length)
    (hk : p (l.getD k d)) : rank p l k < rank p l k' := by
  induction l generalizing k k' with
  | nil => simp at hl
  | cons a l ih =>
    match k, k' with
    | 0, k' + 1 =>
      have := rank_mono (p := p) l (Nat.zero_le k')
      simp_all
    | k + 1, k' + 1 =>
      have := ih (Nat.lt_of_succ_lt_succ h) (by simpa using hl) (by simpa using hk)
      simp only [rank_cons_succ]; omega

theorem rank_lt_length (l : List α) (d : α) {k : Nat} (hk : k < l.length) (hp : p (l.getD k d)) :
    rank p l k < (l.filter p).length := by
  induction l generalizing k with
  | nil => simp at hk
  | cons a l ih =>
    match k with
    | 0 => simp_all [List.filter_cons]
    | k + 1 =>
      have := ih (by simpa using hk) (by simpa using hp)
      by_cases ha : p a <;> simp [List.filter_cons, ha] <;> omega

theorem getD_filter_rank (l : List α) (d : α) {k : Nat} (hp : p (l.getD k d)) (hk : k < l.length) :
    (l.filter p).getD (rank p l k) d = l.getD k d := by
  induction l generalizing k with
  | nil => simp at hk
  | cons a l ih =>
    match k with
    | 0 => simp_all [List.filter_cons]
    | k + 1 =>
      have := ih (by simpa using hp) (by simpa using hk)
      by_cases ha : p a <;> simp_all [List.filter_cons]

theorem exists_rank (l : List α) (d : α) {j : Nat} (hj : j < (l.filter p).length) :
    ∃ k < l.length, p (l.getD k d) ∧ rank p l k = j := by
  induction l generalizing j with
  | nil => simp at hj
  | cons a l ih =>
    by_cases ha : p a
    · match j with
      | 0 => exact ⟨0, by simp, by simpa using ha, by simp⟩
      | j + 1 =>
        obtain ⟨k, hk, hpk, rfl⟩ := ih (by simpa [List.filter_cons, ha] using hj)
        exact ⟨k + 1, by simpa using hk, by simpa using hpk, by simp [ha]⟩
    · obtain ⟨k, hk, hpk, rfl⟩ := ih (by simpa [List.filter_cons, ha] using hj)
      exact ⟨k + 1, by simpa using hk, by simpa using hpk, by simp [ha]⟩

theorem rank_last (l : List α) (d : α) (hl : l ≠ []) (hp : p (l.getD (l.length - 1) d)) :
    rank p l (l.length - 1) = (l.filter p).length - 1 := by
  have hlt := rank_lt_length l d (Nat.sub_lt (List.length_pos.2 hl) Nat.one_pos) hp
  obtain ⟨k, hk, hpk, hr⟩ := exists_rank (p := p) l d (j := (l.filter p).length - 1) (by omega)
  rcases Nat.lt_or_ge k (l.length - 1) with h | h
  · have := rank_lt_rank l d h hk hpk; omega
  · rw [show l.length - 1 = k by omega, hr]

end Rank

/-! ## Classes that are intervals -/

namespace EquivalenceClasses

/-- The shape the scan keeps: classes are intervals of positions led by their largest element, an
element never inserted leads itself, every leader is inserted, nothing is inserted twice. -/
structure Intervals (ec : EquivalenceClasses) : Prop where
  le_leader : ∀ x, x ≤ ec.leader x
  interval : ∀ x y, x ≤ y → y ≤ ec.leader x → ec.leader y = ec.leader x
  self : ∀ x, x ∉ ec.members → ec.leader x = x
  leader_mem : ∀ x ∈ ec.members, ec.leader x ∈ ec.members
  nodup : ec.members.Nodup

variable {ec : EquivalenceClasses}

theorem Intervals.leader_leader (h : ec.Intervals) (x : Nat) :
    ec.leader (ec.leader x) = ec.leader x :=
  h.interval x _ (h.le_leader x) le_rfl

theorem Intervals.leader_mono (h : ec.Intervals) {x y : Nat} (hxy : x ≤ y) :
    ec.leader x ≤ ec.leader y := by
  rcases Nat.lt_or_ge (ec.leader x) y with hy | hy
  · exact hy.le.trans (h.le_leader y)
  · rw [h.interval x y hxy hy]

theorem empty_intervals : empty.Intervals where
  le_leader _ := le_rfl
  interval _ _ hxy hy := by simp only [empty, id] at *; omega
  self _ _ := rfl
  leader_mem _ h := by simp [empty] at h
  nodup := List.nodup_nil

theorem insert_leader (h : ec.Intervals) (x : Nat) : (ec.insert x).leader = ec.leader := by
  unfold insert
  split
  · rfl
  · funext y
    by_cases hy : y = x
    · subst hy; simp [h.self y ‹_›]
    · simp [hy]

theorem mem_insert_members (x y : Nat) : y ∈ (ec.insert x).members ↔ y ∈ ec.members ∨ y = x := by
  unfold insert
  split
  · exact ⟨Or.inl, by rintro (h | rfl) <;> assumption⟩
  · simp

theorem Intervals.insert (h : ec.Intervals) (x : Nat) : (ec.insert x).Intervals := by
  have hl := insert_leader h x
  refine ⟨?_, ?_, ?_, ?_, ?_⟩
  · simpa [hl] using h.le_leader
  · simpa [hl] using h.interval
  · intro y hy
    rw [hl]; exact h.self y (fun hm => hy ((mem_insert_members x y).2 (Or.inl hm)))
  · intro y hy
    rw [hl, mem_insert_members]
    rcases (mem_insert_members x y).1 hy with hy | rfl
    · exact Or.inl (h.leader_mem y hy)
    · by_cases hm : y ∈ ec.members
      · exact Or.inl (h.leader_mem y hm)
      · exact Or.inr (h.self y hm)
  · unfold EquivalenceClasses.insert
    split
    · exact h.nodup
    · exact h.nodup.append (List.nodup_singleton x) (by simpa)

/-- One union of the scan: partition `i` leads its class, which reaches down to `k + 1`; `k`'s class
joins it. -/
theorem unionSets_spec (h : ec.Intervals) {i k : Nat} (hk : k < i) (hi : ec.leader i = i)
    (hk1 : ec.leader (k + 1) = i) :
    (ec.unionSets i k).leader = (fun y => if ec.leader y = ec.leader k then i else ec.leader y) ∧
    (ec.unionSets i k).Intervals ∧
    ∀ y, y ∈ (ec.unionSets i k).members ↔ y ∈ ec.members ∨ y = i ∨ y = k := by
  have h1 := h.insert i
  have h2 := h1.insert k
  have hl2 : ((ec.insert i).insert k).leader = ec.leader := by rw [insert_leader h1, insert_leader h]
  have hm2 : ∀ y, y ∈ ((ec.insert i).insert k).members ↔ y ∈ ec.members ∨ y = i ∨ y = k := by
    intro y; rw [mem_insert_members, mem_insert_members, or_assoc]
  -- `k` leads itself unless it is already in `i`'s class
  have hck : ec.leader k = k ∨ ec.leader k = i := by
    rcases Nat.lt_or_ge k (ec.leader k) with hlt | hge
    · exact Or.inr ((h.interval k (k + 1) (Nat.le_succ k) hlt).symm.trans hk1)
    · exact Or.inl (le_antisymm hge (h.le_leader k))
  have hc_le : ec.leader k ≤ i := by rcases hck with hc | hc <;> omega
  have hleader : (ec.unionSets i k).leader =
      fun y => if ec.leader y = ec.leader k then i else ec.leader y := by
    unfold unionSets
    simp only [hl2, hi]
    split
    · funext y; split <;> simp_all
    · rfl
  have hmem : ∀ y, y ∈ (ec.unionSets i k).members ↔ y ∈ ec.members ∨ y = i ∨ y = k := by
    unfold unionSets; simp only [hl2]; split <;> exact hm2
  refine ⟨hleader, ⟨?_, ?_, ?_, ?_, ?_⟩, hmem⟩
  · intro y
    rw [hleader]; dsimp only
    split
    · exact (h.le_leader y).trans (by omega)
    · exact h.le_leader y
  · intro x y hxy hy
    rw [hleader] at hy ⊢; dsimp only at hy ⊢
    by_cases hx : ec.leader x = ec.leader k
    · rw [if_pos hx] at hy ⊢
      by_cases hyk : ec.leader y = ec.leader k
      · rw [if_pos hyk]
      · have hy' : ec.leader k < y := by
          by_contra hn
          exact hyk (hx ▸ h.interval x y hxy (by omega))
        have : ec.leader y = i := by
          rw [← hk1]; exact h.interval (k + 1) y (by rcases hck with hc | hc <;> omega) (by omega)
        rw [if_neg hyk, this]
    · rw [if_neg hx] at hy ⊢
      have := h.interval x y hxy hy
      rw [this, if_neg hx]
  · intro y hy
    rw [hleader]; dsimp only
    rw [hmem] at hy; push_neg at hy
    rw [h.self y hy.1]
    rcases hck with hc | hc <;> simp [hc, hy.2.1, hy.2.2]
  · intro y hy
    rw [hleader, hmem]; dsimp only
    split
    · exact Or.inr (Or.inl rfl)
    · rcases (hmem y).1 hy with hy | rfl | rfl
      · exact Or.inl (h.leader_mem y hy)
      · exact Or.inr (Or.inl hi)
      · rcases hck with hc | hc
        · exact Or.inr (Or.inr hc)
        · exact Or.inr (Or.inl hc)
  · unfold unionSets; dsimp only; split <;> exact h2.nodup

/-- After one union of the backward walk `i` still leads itself, now leads `k`, and no member
passes `i`. -/
theorem unionSets_step (h : ec.Intervals) {i k : Nat} (hk : k < i) (hi : ec.leader i = i)
    (hk1 : ec.leader (k + 1) = i) (hb : ∀ x ∈ ec.members, x ≤ i) :
    (ec.unionSets i k).Intervals ∧ (ec.unionSets i k).leader i = i ∧
      (ec.unionSets i k).leader k = i ∧ ∀ x ∈ (ec.unionSets i k).members, x ≤ i := by
  obtain ⟨hl, hec1, hm⟩ := unionSets_spec h hk hi hk1
  refine ⟨hec1, by rw [hl]; dsimp only; split <;> simp [hi], by rw [hl]; simp, fun x hx => ?_⟩
  rcases (hm x).1 hx with hx | rfl | rfl
  · exact hb x hx
  · exact le_rfl
  · omega

end EquivalenceClasses

open EquivalenceClasses in
/-- The backward walk from cursor `k` to the recorded partition `j < i`: it succeeds, puts every
position from `j` to `i` in `i`'s class, keeps `i` the leader and only joins classes. -/
theorem unionBackTo_spec {i j : Nat} (hj : j < i) :
    ∀ k (ec : EquivalenceClasses), j < k → k ≤ i → ec.Intervals → ec.leader i = i →
      ec.leader k = i → (∀ x ∈ ec.members, x ≤ i) →
      ∃ ec', unionBackTo i j k ec = .ok ec' ∧ ec'.Intervals ∧ ec'.leader i = i ∧
        ec'.leader j = i ∧ (∀ x ∈ ec'.members, x ≤ i) ∧
        ∀ x y, ec.leader x = ec.leader y → ec'.leader x = ec'.leader y := by
  intro k
  induction k with
  | zero => intro _ h; omega
  | succ k ih =>
    intro ec hjk hki hec hi hk hb
    have hl := (unionSets_spec hec (by omega) hi hk).1
    obtain ⟨hec1, hi1, hk1, hb1⟩ := unionSets_step hec (by omega) hi hk hb
    have hcl : ∀ x y, ec.leader x = ec.leader y →
        (ec.unionSets i k).leader x = (ec.unionSets i k).leader y := by
      intro x y hxy; rw [hl]; simp only [hxy]
    by_cases hkj : k = j
    · subst hkj
      exact ⟨_, by simp [unionBackTo], hec1, hi1, hk1, hb1, hcl⟩
    · obtain ⟨ec', hrun, h'⟩ := ih (ec.unionSets i k) (by omega) (by omega) hec1 hi1 hk1 hb1
      refine ⟨ec', by simp [unionBackTo, hkj, hrun], h'.1, h'.2.1, h'.2.2.1, h'.2.2.2.1,
        fun x y hxy => h'.2.2.2.2 x y (hcl x y hxy)⟩

/-! ## The scan -/

theorem setAt_set (l : List InstPartition) (i : Nat) (v : InstPartition) (k : Nat) :
    setAt (l.set i v) k = if i = k ∧ i < l.length then v.set else setAt l k := by
  simp only [setAt, List.getD_eq_getElem?_getD, List.getElem?_set]
  by_cases hik : i = k
  · subst hik
    by_cases hk : i < l.length
    · simp [hk]
    · simp [hk, List.getElem?_eq_none (Nat.le_of_not_lt hk)]
  · simp [hik]

theorem setAt_eq_getElem {ps : List InstPartition} {i : Nat} (hi : i < ps.length) :
    setAt ps i = ps[i].set := by
  simp [setAt, List.getD_eq_getElem?_getD, List.getElem?_eq_getElem hi]

theorem drop_eq_cons {ps rest : List InstPartition} {i : Nat} {p : InstPartition}
    (h : ps.drop i = p :: rest) : i < ps.length ∧ setAt ps i = p.set ∧ ps.drop (i + 1) = rest := by
  have hi : i < ps.length := by
    by_contra hn; rw [List.drop_eq_nil_of_le (by omega)] at h; simp at h
  rw [List.drop_eq_getElem_cons hi, List.cons.injEq] at h
  exact ⟨hi, h.1 ▸ setAt_eq_getElem hi, h.2⟩

/-- The scan's invariant in partition `i`, the instructions of `done` scanned there: the classes
are intervals below `i`, led by `i` at `i`; `LoadToPartition` holds the first partition of a load;
every load seen so far is in the class of its first partition. -/
structure ScanInv (f : Func) (ps : List InstPartition) (i : Nat) (done : List Nat)
    (st : (Nat → Option Nat) × EquivalenceClasses) : Prop where
  intervals : st.2.Intervals
  bound : ∀ x ∈ st.2.members, x ≤ i
  leader_self : st.2.leader i = i
  recorded : ∀ x j, st.1 x = some j → j ≤ i ∧ x ∈ setAt ps j ∧ ∀ k < j, x ∉ setAt ps k
  current : ∀ x, st.1 x = some i → x ∈ done
  united : ∀ x, f.isLoad x → ∀ k, (k < i ∨ k = i ∧ x ∈ done) → x ∈ setAt ps k →
    ∃ j, st.1 x = some j ∧ st.2.leader k = st.2.leader j

theorem ScanInv.not_mem_of_none {f : Func} {ps : List InstPartition} {i : Nat} {done : List Nat}
    {st : (Nat → Option Nat) × EquivalenceClasses} (h : ScanInv f ps i done st) {x : Nat}
    (hx : f.isLoad x) (hn : st.1 x = none) {k : Nat} (hk : k < i) : x ∉ setAt ps k := by
  intro hxk
  obtain ⟨j, hj, -⟩ := h.united x hx k (Or.inl hk) hxk
  simp [hn] at hj

/-- Once all of partition `i` is scanned, the invariant holds at `i + 1` with nothing scanned. -/
theorem ScanInv.next {f : Func} {ps : List InstPartition} {i : Nat} {done : List Nat}
    {st : (Nat → Option Nat) × EquivalenceClasses} (h : ScanInv f ps i done st)
    (hdone : ∀ x ∈ setAt ps i, x ∈ done) : ScanInv f ps (i + 1) [] st := by
  have hb1 : ∀ x ∈ st.2.members, x < i + 1 := fun x hx => Nat.lt_succ_of_le (h.bound x hx)
  refine ⟨h.intervals, fun x hx => (hb1 x hx).le,
    h.intervals.self _ fun hm => (Nat.lt_irrefl _ (hb1 _ hm)), fun x j hx => ?_,
    fun x hx => ?_, fun x hx k hk hxk => h.united x hx k ?_ hxk⟩
  · obtain ⟨hj, h'⟩ := h.recorded x j hx; exact ⟨Nat.le_succ_of_le hj, h'⟩
  · have := (h.recorded x _ hx).1; omega
  · rcases hk with hk | ⟨-, hk⟩
    · rcases Nat.lt_succ_iff_lt_or_eq.1 hk with hk | rfl
      · exact Or.inl hk
      · exact Or.inr ⟨rfl, hdone x hxk⟩
    · simp at hk

/-- An instruction not scanned yet in partition `i` was recorded, if at all, in an earlier one. -/
theorem ScanInv.recorded_lt {f : Func} {ps : List InstPartition} {i : Nat} {done : List Nat}
    {st : (Nat → Option Nat) × EquivalenceClasses} (h : ScanInv f ps i done st) {x j : Nat}
    (hx : x ∉ done) (hj : st.1 x = some j) : j < i :=
  lt_of_le_of_ne (h.recorded x j hj).1 fun hji => hx (h.current x (hji ▸ hj))

theorem scanLoads_spec (f : Func) (ps : List InstPartition) (i : Nat) :
    ∀ (l done : List Nat) (st : (Nat → Option Nat) × EquivalenceClasses),
      ScanInv f ps i done st → (done ++ l).Nodup → (∀ x ∈ l, x ∈ setAt ps i) →
      ∃ st', scanLoads f i l st = .ok st' ∧ ScanInv f ps i (done ++ l) st' := by
  intro l
  induction l with
  | nil => exact fun done st h _ _ => ⟨st, rfl, by simpa using h⟩
  | cons x l ih =>
    rintro done ⟨ltp, ec⟩ h hnd hl
    have hnd' : (done ++ [x] ++ l).Nodup := by simpa using hnd
    have hxi : x ∈ setAt ps i := hl x (List.mem_cons_self x l)
    have hl' : ∀ y ∈ l, y ∈ setAt ps i := fun y hy => hl y (List.mem_cons_of_mem x hy)
    have hxd : x ∉ done := fun hx => (List.nodup_append.1 hnd).2.2 hx (List.mem_cons_self x l)
    have hdone : ∀ y, y ∈ done ++ [x] ↔ y ∈ done ∨ y = x := by simp
    by_cases hload : f.isLoad x
    · cases hltp : ltp x with
      | none =>
        have hinv : ScanInv f ps i (done ++ [x]) (Function.update ltp x (some i), ec) := by
          refine ⟨h.intervals, h.bound, h.leader_self, fun y j hy => ?_, fun y hy => ?_, ?_⟩
          · by_cases hyx : y = x
            · subst hyx
              simp only [Function.update_same, Option.some.injEq] at hy; subst hy
              exact ⟨le_rfl, hxi, fun k hk => h.not_mem_of_none hload hltp hk⟩
            · simpa [hyx] using h.recorded y j (by simpa [hyx] using hy)
          · by_cases hyx : y = x
            · simp [hyx]
            · exact List.mem_append_left _ (h.current y (by simpa [hyx] using hy))
          · rintro y hy k hk hyk
            by_cases hyx : y = x
            · subst hyx
              rcases hk with hk | ⟨rfl, -⟩
              · exact absurd hyk (h.not_mem_of_none hy hltp hk)
              · exact ⟨k, by simp, rfl⟩
            · obtain ⟨j, hj, hkj⟩ := h.united y hy k (by simpa [hdone, hyx] using hk) hyk
              exact ⟨j, by simpa [hyx] using hj, hkj⟩
        obtain ⟨st', hrun, h'⟩ := ih (done ++ [x]) _ hinv hnd' hl'
        exact ⟨st', by simpa [scanLoads, hload, hltp] using hrun, by simpa using h'⟩
      | some j =>
        have hj : j < i := h.recorded_lt hxd hltp
        obtain ⟨ec', hrun, hec', hi', hj', hb', hcl⟩ :=
          unionBackTo_spec hj i ec hj le_rfl h.intervals h.leader_self h.leader_self h.bound
        have hinv : ScanInv f ps i (done ++ [x]) (ltp, ec') := by
          refine ⟨hec', hb', hi', h.recorded, fun y hy => ?_, ?_⟩
          · exact List.mem_append_left _ (h.current y hy)
          · rintro y hy k hk hyk
            by_cases hyk' : y = x ∧ k = i
            · obtain ⟨rfl, rfl⟩ := hyk'
              exact ⟨j, hltp, by rw [hi', hj']⟩
            · have hk' : k < i ∨ k = i ∧ y ∈ done := by
                rcases hk with hk | ⟨rfl, hy'⟩
                · exact Or.inl hk
                · rcases (hdone y).1 hy' with hy' | rfl
                  · exact Or.inr ⟨rfl, hy'⟩
                  · exact absurd ⟨rfl, rfl⟩ hyk'
              obtain ⟨j', hj', hkj'⟩ := h.united y hy k hk' hyk
              exact ⟨j', hj', hcl k j' hkj'⟩
        obtain ⟨st', hrun', h'⟩ := ih (done ++ [x]) _ hinv hnd' hl'
        refine ⟨st', ?_, by simpa using h'⟩
        simp only [scanLoads, hload, if_true, hltp, hrun]
        exact hrun'
    · have hinv : ScanInv f ps i (done ++ [x]) (ltp, ec) := by
        refine ⟨h.intervals, h.bound, h.leader_self, h.recorded,
          fun y hy => List.mem_append_left _ (h.current y hy), ?_⟩
        rintro y hy k hk hyk
        refine h.united y hy k ?_ hyk
        rcases hk with hk | ⟨rfl, hy'⟩
        · exact Or.inl hk
        · rcases (hdone y).1 hy' with hy' | rfl
          · exact Or.inr ⟨rfl, hy'⟩
          · exact absurd hy hload
      obtain ⟨st', hrun, h'⟩ := ih (done ++ [x]) _ hinv hnd' hl'
      exact ⟨st', by simpa [scanLoads, hload] using hrun, by simpa using h'⟩

/-- One partition scanned whole, in the order `ord`: the invariant moves on to the next. -/
theorem scanLoads_partition (ord : IterOrder) {f : Func} {ps : List InstPartition} {i : Nat}
    {s : Finset Nat} {st : (Nat → Option Nat) × EquivalenceClasses} (hset : setAt ps i = s)
    (h : ScanInv f ps i [] st) :
    ∃ st', scanLoads f i (ord.enum s) st = .ok st' ∧ ScanInv f ps (i + 1) [] st' ∧
      ∀ x ∈ st'.2.members, x < i + 1 := by
  obtain ⟨st', hrun, h'⟩ := scanLoads_spec f ps i (ord.enum s) [] st h
    (by simpa using ord.nodup_enum s) (fun x hx => hset ▸ (ord.mem_enum _ x).1 hx)
  exact ⟨st', hrun, h'.next fun x hx => by simpa using (ord.mem_enum _ x).2 (hset ▸ hx),
    fun x hx => Nat.lt_succ_of_le (h'.bound x hx)⟩

theorem scanPartitions_spec (ord : IterOrder) (f : Func) (ps : List InstPartition) :
    ∀ (rest : List InstPartition) (i : Nat) (st : (Nat → Option Nat) × EquivalenceClasses),
      ps.drop i = rest → i ≤ ps.length → ScanInv f ps i [] st → (∀ x ∈ st.2.members, x < i) →
      ∃ st', scanPartitions ord f i rest st = .ok st' ∧ ScanInv f ps ps.length [] st' ∧
        ∀ x ∈ st'.2.members, x < ps.length := by
  intro rest
  induction rest with
  | nil =>
    intro i st hd hi h hb
    have : i = ps.length := le_antisymm hi (by simpa using hd)
    subst this
    exact ⟨st, rfl, h, hb⟩
  | cons p rest ih =>
    intro i st hd _ h hb
    obtain ⟨hi, hset, hd'⟩ := drop_eq_cons hd
    obtain ⟨st1, hrun, h1, hb1⟩ := scanLoads_partition ord hset h
    obtain ⟨st', hrun', h'⟩ := ih (i + 1) st1 hd' hi h1 hb1
    refine ⟨st', ?_, h'⟩
    simp only [scanPartitions, hrun]
    exact hrun'

/-! ## Moving the members into their leaders -/

theorem length_moveMember (ps : List InstPartition) (j i : Nat) :
    (moveMember ps j i).length = ps.length := by
  simp [moveMember]

theorem mem_setAt_moveMember {ps : List InstPartition} {j i : Nat} (hji : j ≠ i)
    (hj : j < ps.length) (hi : i < ps.length) (k x : Nat) :
    x ∈ setAt (moveMember ps j i) k ↔ (k ≠ j ∧ x ∈ setAt ps k) ∨ (k = i ∧ x ∈ setAt ps j) := by
  simp only [moveMember, setAt_set, List.length_set, InstPartition.moveTo]
  by_cases hki : k = i
  · subst hki; simp [hi, hji, Ne.symm hji, setAt]
  · by_cases hkj : k = j
    · subst hkj; simp [hj, hki, Ne.symm hki]
    · simp [Ne.symm hki, Ne.symm hkj, hki, hkj]

/-- What the moves leave: a moved partition is empty, any other holds its own instructions and
those of the partitions moved into it. -/
def MovedInv (ps cur : List InstPartition) (leader : Nat → Nat) (moved : Nat → Prop) : Prop :=
  cur.length = ps.length ∧ ∀ k < ps.length, ∀ x, x ∈ setAt cur k ↔
    (¬ moved k ∧ x ∈ setAt ps k) ∨ ∃ j, moved j ∧ leader j = k ∧ x ∈ setAt ps j

section Moves

variable {ps : List InstPartition} {leader : Nat → Nat}

theorem movedInv_moveMember (hll : ∀ y, leader (leader y) = leader y) {moved : Nat → Prop}
    (hmoved : ∀ y, moved y → leader y ≠ y) {cur : List InstPartition}
    (h : MovedInv ps cur leader moved) {j i : Nat} (hj : j < ps.length) (hi : i < ps.length)
    (hji : leader j = i) (hne : j ≠ i) (hjm : ¬ moved j) :
    MovedInv ps (moveMember cur j i) leader (fun y => moved y ∨ y = j) := by
  have hjl : ∀ y, leader y ≠ j := fun y hy => hne (by rw [← hji, ← hy, hll])
  have him : ¬ moved i := fun hm => hmoved i hm (by rw [← hji, hll])
  refine ⟨by rw [length_moveMember, h.1], fun k hk x => ?_⟩
  rw [mem_setAt_moveMember hne (h.1 ▸ hj) (h.1 ▸ hi), h.2 k hk x, h.2 j hj x]
  by_cases hkj : k = j
  · subst hkj; simp [hne, hjl]
  · by_cases hki : k = i
    · subst hki
      constructor
      · rintro (⟨-, (⟨hm, hx⟩ | ⟨j', hj', hl', hx⟩)⟩ | ⟨-, (⟨-, hx⟩ | ⟨j', -, hl', -⟩)⟩)
        · exact Or.inl ⟨by tauto, hx⟩
        · exact Or.inr ⟨j', Or.inl hj', hl', hx⟩
        · exact Or.inr ⟨j, Or.inr rfl, hji, hx⟩
        · exact absurd hl' (hjl j')
      · rintro (⟨hm, hx⟩ | ⟨j', (hj' | rfl), hl', hx⟩)
        · exact Or.inl ⟨hkj, Or.inl ⟨fun h => hm (Or.inl h), hx⟩⟩
        · exact Or.inl ⟨hkj, Or.inr ⟨j', hj', hl', hx⟩⟩
        · exact Or.inr ⟨rfl, Or.inl ⟨hjm, hx⟩⟩
    · constructor
      · rintro (⟨-, (⟨hm, hx⟩ | ⟨j', hj', hl', hx⟩)⟩ | ⟨hki', -⟩)
        · exact Or.inl ⟨fun h => h.elim hm hkj, hx⟩
        · exact Or.inr ⟨j', Or.inl hj', hl', hx⟩
        · exact absurd hki' hki
      · rintro (⟨hm, hx⟩ | ⟨j', (hj' | rfl), hl', hx⟩)
        · exact Or.inl ⟨hkj, Or.inl ⟨fun h => hm (Or.inl h), hx⟩⟩
        · exact Or.inl ⟨hkj, Or.inr ⟨j', hj', hl', hx⟩⟩
        · exact absurd (hl'.symm.trans hji) hki

/-- The moves of `J` into the leader `i` keep any invariant that one move keeps. -/
theorem foldl_moveMember_inv (Inv : List InstPartition → (Nat → Prop) → Prop) {n i : Nat}
    (hstep : ∀ cur (moved : Nat → Prop) j, (∀ y, moved y → leader y ≠ y) → Inv cur moved →
      j < n → leader j = i → j ≠ i → ¬ moved j → Inv (moveMember cur j i) fun y => moved y ∨ y = j) :
    ∀ (J : List Nat) (moved : Nat → Prop) (cur : List InstPartition), J.Nodup →
      (∀ y, moved y → leader y ≠ y) → (∀ j ∈ J, ¬ moved j ∧ leader j = i ∧ j ≠ i ∧ j < n) →
      Inv cur moved → Inv (J.foldl (fun c j => moveMember c j i) cur) fun y => moved y ∨ y ∈ J
  | [], moved, cur, _, _, _, h => by simpa using h
  | j :: J, moved, cur, hnd, hmoved, hJ, h => by
    obtain ⟨hjm, hji, hne, hj⟩ := hJ j (List.mem_cons_self j J)
    have h2 := foldl_moveMember_inv Inv hstep J (fun y => moved y ∨ y = j) _ (List.nodup_cons.1 hnd).2
      (fun y hy => hy.elim (hmoved y) (by rintro rfl; rw [hji]; exact Ne.symm hne))
      (fun y hy => by
        obtain ⟨hym, h'⟩ := hJ y (List.mem_cons_of_mem j hy)
        exact ⟨fun h => h.elim hym (fun hyj => (List.nodup_cons.1 hnd).1 (hyj ▸ hy)), h'⟩)
      (hstep cur moved j hmoved h hj hji hne hjm)
    simpa [or_assoc] using h2

/-- `mergeIntoLeaders` keeps any invariant that one move of a member into its leader keeps: in the
end, the members that do not lead their class have moved. -/
theorem mergeIntoLeaders_inv (Inv : List InstPartition → (Nat → Prop) → Prop)
    {ec : EquivalenceClasses} (hec : ec.Intervals) {n : Nat} (hb : ∀ x ∈ ec.members, x < n)
    (hstep : ∀ i < n, ∀ cur (moved : Nat → Prop) j, (∀ y, moved y → ec.leader y ≠ y) →
      Inv cur moved → j < n → ec.leader j = i → j ≠ i → ¬ moved j →
      Inv (moveMember cur j i) fun y => moved y ∨ y = j)
    (h0 : Inv ps fun _ => False) :
    Inv (mergeIntoLeaders ec ps) fun y => y ∈ ec.members ∧ ec.leader y ≠ y := by
  have hll := hec.leader_leader
  -- after the leaders of `P`, the members they lead have moved
  have key : ∀ (R P : List Nat) (cur : List InstPartition), P ++ R = ec.members →
      Inv cur (fun y => y ∈ ec.members ∧ ec.leader y ≠ y ∧ ec.leader y ∉ R) →
      Inv (R.foldl (mergeClass ec) cur) fun y => y ∈ ec.members ∧ ec.leader y ≠ y := by
    intro R
    induction R with
    | nil => intro P cur _ h; simpa using h
    | cons i R ih =>
      intro P cur hPR h
      have hnd : (P ++ i :: R).Nodup := hPR ▸ hec.nodup
      have hiR : i ∉ R := (List.nodup_cons.1 (List.nodup_append.1 hnd).2.1).1
      have hiM : i ∈ ec.members := hPR ▸ List.mem_append_right P (List.mem_cons_self i R)
      refine ih (P ++ [i]) _ (by simp [← hPR]) ?_
      unfold mergeClass
      split
      · rename_i hii
        have h' := foldl_moveMember_inv Inv (hstep i (hb i hiM))
          (ec.members.filter fun j => j ≠ i ∧ ec.leader j = i) _ cur (hec.nodup.filter _)
          (fun y hy => hy.2.1) (fun j hj => by
            simp only [List.mem_filter, decide_eq_true_eq] at hj
            exact ⟨fun hm => hm.2.2 (by simp [hj.2.2]), hj.2.2, hj.2.1, hb j hj.1⟩) h
        convert h' using 2 with y
        simp only [List.mem_cons, not_or, List.mem_filter, decide_eq_true_eq]
        constructor
        · rintro ⟨hyM, hyl, hyR⟩
          by_cases hyi : ec.leader y = i
          · exact Or.inr ⟨hyM, fun h => hyl (h ▸ hyi.trans h.symm), hyi⟩
          · exact Or.inl ⟨hyM, hyl, hyi, hyR⟩
        · rintro (⟨hyM, hyl, -, hyR⟩ | ⟨hyM, hyi, hyl⟩)
          · exact ⟨hyM, hyl, hyR⟩
          · exact ⟨hyM, fun h => hyi (h.symm.trans hyl), hyl ▸ hiR⟩
      · rename_i hii
        convert h using 2 with y
        simp only [List.mem_cons, not_or]
        constructor
        · rintro ⟨hyM, hyl, hyR⟩
          exact ⟨hyM, hyl, fun h => hii (h ▸ hll y), hyR⟩
        · rintro ⟨hyM, hyl, -, hyR⟩; exact ⟨hyM, hyl, hyR⟩
  refine key ec.members [] ps rfl ?_
  convert h0 using 2 with y
  exact iff_false_intro fun h => h.2.2 (hec.leader_mem y h.1)

theorem movedInv_mergeIntoLeaders {ec : EquivalenceClasses} (hec : ec.Intervals)
    (hb : ∀ x ∈ ec.members, x < ps.length) :
    MovedInv ps (mergeIntoLeaders ec ps) ec.leader (fun y => y ∈ ec.members ∧ ec.leader y ≠ y) :=
  mergeIntoLeaders_inv (fun cur moved => MovedInv ps cur ec.leader moved) hec hb
    (fun _ hi _ _ _ hmoved h hj hji hne hjm =>
      movedInv_moveMember hec.leader_leader hmoved h hj hi hji hne hjm)
    ⟨rfl, fun _ _ _ => ⟨fun hx => Or.inl ⟨not_false, hx⟩, by rintro (⟨-, hx⟩ | ⟨_, ⟨⟩, -⟩); exact hx⟩⟩

/-- After the moves a position holds something only if it leads its class, and then everything its
class held. -/
theorem mem_mergeIntoLeaders {ec : EquivalenceClasses} (hec : ec.Intervals)
    (hb : ∀ x ∈ ec.members, x < ps.length) {k : Nat} (hk : k < ps.length) (x : Nat) :
    x ∈ setAt (mergeIntoLeaders ec ps) k ↔
      ec.leader k = k ∧ ∃ j < ps.length, ec.leader j = k ∧ x ∈ setAt ps j := by
  rw [(movedInv_mergeIntoLeaders hec hb).2 k hk x]
  constructor
  · rintro (⟨hm, hx⟩ | ⟨j, ⟨hjM, -⟩, rfl, hx⟩)
    · have hkk : ec.leader k = k := by
        by_cases hkM : k ∈ ec.members
        · exact not_not.1 fun h => hm ⟨hkM, h⟩
        · exact hec.self k hkM
      exact ⟨hkk, k, hk, hkk, hx⟩
    · exact ⟨hec.leader_leader j, j, hb j hjM, rfl, hx⟩
  · rintro ⟨hkk, j, -, hjk, hx⟩
    by_cases hjk' : j = k
    · subst hjk'; exact Or.inl ⟨fun h => h.2 hkk, hx⟩
    · have hjM : j ∈ ec.members := not_not.1 fun h => hjk' ((hec.self j h).symm.trans hjk)
      exact Or.inr ⟨j, ⟨hjM, hjk ▸ Ne.symm hjk'⟩, hjk, hx⟩

end Moves

/-! ## The merge keeps the order and leaves every load in one partition -/

/-- Every two partitions holding the same load land in the same place. -/
def LoadsUnited (f : Func) (ps : List InstPartition) (g : Nat → Nat) : Prop :=
  ∀ x, f.isLoad x → ∀ a b, a < ps.length → b < ps.length → x ∈ setAt ps a → x ∈ setAt ps b →
    g a = g b

theorem scanInv_start (f : Func) (ps : List InstPartition) :
    ScanInv f ps 0 [] (fun _ => none, .empty) where
  intervals := EquivalenceClasses.empty_intervals
  bound _ h := by simp [EquivalenceClasses.empty] at h
  leader_self := rfl
  recorded _ _ h := by simp at h
  current _ h := by simp at h
  united _ _ _ hk _ := by simp at hk

theorem mergeToAvoidDuplicatedLoads_coarsening (ord : IterOrder) (f : Func)
    {ps qs : List InstPartition} {merged : Bool}
    (h : mergeToAvoidDuplicatedLoads ord f ps = .ok (qs, merged))
    (hne : ∀ k < ps.length, setAt ps k ≠ ∅) :
    ∃ g, Coarsening ps qs g ∧ LoadsUnited f ps g := by
  obtain ⟨⟨ltp, ec⟩, hscan, hinv, hb⟩ := scanPartitions_spec ord f ps ps 0 _ (by simp)
    (Nat.zero_le _) (scanInv_start f ps) (by simp [EquivalenceClasses.empty])
  have hec : ec.Intervals := hinv.intervals
  -- two partitions holding one load are in one class
  have hcls : ∀ x, f.isLoad x → ∀ a b, a < ps.length → b < ps.length → x ∈ setAt ps a →
      x ∈ setAt ps b → ec.leader a = ec.leader b := by
    intro x hx a b ha hb' hxa hxb
    obtain ⟨j, hj, hja⟩ := hinv.united x hx a (Or.inl ha) hxa
    obtain ⟨j', hj', hjb⟩ := hinv.united x hx b (Or.inl hb') hxb
    rw [hja, hjb, Option.some.inj (hj.symm.trans hj')]
  simp only [mergeToAvoidDuplicatedLoads, hscan, bind, Except.bind, pure, Except.pure] at h
  split at h
  · rename_i hemp
    simp only [Except.ok.injEq, Prod.mk.injEq] at h
    obtain ⟨rfl, -⟩ := h
    refine ⟨id, Coarsening.refl ps, fun x hx a b ha hb' hxa hxb => ?_⟩
    have := hcls x hx a b ha hb' hxa hxb
    rwa [hec.self a (by simp_all), hec.self b (by simp_all)] at this
  · simp only [Except.ok.injEq, Prod.mk.injEq] at h
    obtain ⟨rfl, -⟩ := h
    set res := mergeIntoLeaders ec ps with hres
    have hlen : res.length = ps.length := (movedInv_mergeIntoLeaders hec hb).1
    have hlead : ∀ i < ps.length, ec.leader i < ps.length := fun i hi => by
      by_cases hm : i ∈ ec.members
      · exact hb _ (hec.leader_mem i hm)
      · rw [hec.self i hm]; exact hi
    -- a position survives the removal exactly when it leads its class
    have hkeep : ∀ k < ps.length,
        (decide ((res.getD k default).set ≠ ∅) = true ↔ ec.leader k = k) := by
      intro k hk
      simp only [decide_eq_true_eq, ← Finset.nonempty_iff_ne_empty]
      constructor
      · rintro ⟨x, hx⟩; exact ((mem_mergeIntoLeaders hec hb hk x).1 hx).1
      · intro hkk
        obtain ⟨x, hx⟩ := Finset.nonempty_iff_ne_empty.2 (hne k hk)
        exact ⟨x, (mem_mergeIntoLeaders hec hb hk x).2 ⟨hkk, k, hk, hkk, hx⟩⟩
    have hkeepl : ∀ i < ps.length, decide ((res.getD (ec.leader i) default).set ≠ ∅) = true :=
      fun i hi => (hkeep _ (hlead i hi)).2 (hec.leader_leader i)
    refine ⟨fun i => rank (fun p => decide (p.set ≠ ∅)) res (ec.leader i), ⟨?_, ?_, ?_, ?_, ?_⟩,
      fun x hx a b ha hb' hxa hxb => by simp only [hcls x hx a b ha hb' hxa hxb]⟩
    · exact fun i j hij _ => rank_mono res (hec.leader_mono hij)
    · exact fun i hi => rank_lt_length res default (hlen ▸ hlead i hi) (hkeepl i hi)
    · intro j hj x
      obtain ⟨k, hk, hkk, rfl⟩ := exists_rank res default hj
      rw [setAt, getD_filter_rank res default hkk hk, ← setAt,
        mem_mergeIntoLeaders hec hb (hlen ▸ hk)]
      have hkk' := (hkeep k (hlen ▸ hk)).1 hkk
      constructor
      · rintro ⟨-, i, hi, rfl, hx⟩; exact ⟨i, hi, rfl, hx⟩
      · rintro ⟨i, hi, heq, hx⟩
        refine ⟨hkk', i, hi, ?_, hx⟩
        rcases lt_trichotomy (ec.leader i) k with hlt | heq' | hlt
        · exact absurd heq (rank_lt_rank res default hlt (hlen ▸ hlead i hi) (hkeepl i hi)).ne
        · exact heq'
        · exact absurd heq (rank_lt_rank res default hlt hk hkk).ne'
    · intro hnil; subst hnil
      rw [List.length_eq_zero.1 (hlen.trans List.length_nil)]; rfl
    · intro hnil
      have hn : ps.length - 1 < ps.length := Nat.sub_lt (List.length_pos.2 hnil) Nat.one_pos
      have hl : ec.leader (ps.length - 1) = ps.length - 1 :=
        le_antisymm (by have := hlead _ hn; omega) (hec.le_leader _)
      have hres : res ≠ [] := fun h => hnil (List.length_eq_zero.1 (hlen.symm.trans (by rw [h]; rfl)))
      have hkl : decide ((res.getD (res.length - 1) default).set ≠ ∅) = true := by
        rw [hlen, ← hl]; exact hkeepl _ hn
      show rank _ res (ec.leader (ps.length - 1)) = _
      rw [hl, ← hlen]
      exact rank_last res default hres hkl

/-! ## The backward walk never passes the first partition -/

theorem scanPartitions_append (ord : IterOrder) (f : Func) :
    ∀ (l₁ l₂ : List InstPartition) (i : Nat) (st : (Nat → Option Nat) × EquivalenceClasses),
      scanPartitions ord f i (l₁ ++ l₂) st =
        scanPartitions ord f i l₁ st >>= scanPartitions ord f (i + l₁.length) l₂
  | [], _, _, _ => rfl
  | p :: l₁, l₂, i, st => by
    have e : i + (p :: l₁).length = i + 1 + l₁.length := by simp only [List.length_cons]; omega
    show (scanLoads f i (ord.enum p.set) st >>= fun st' =>
      scanPartitions ord f (i + 1) (l₁ ++ l₂) st') = _
    simp only [e, scanPartitions_append ord f l₁ l₂, scanPartitions, bind_assoc]

/-- The invariant on reaching partition `i`, the partitions before it scanned. -/
theorem scanPartitions_take_inv (ord : IterOrder) (f : Func) (ps : List InstPartition) :
    ∀ i ≤ ps.length, ∀ st, scanPartitions ord f 0 (ps.take i) (fun _ => none, .empty) = .ok st →
      ScanInv f ps i [] st ∧ ∀ x ∈ st.2.members, x < i := by
  intro i
  induction i with
  | zero =>
    rintro - st h
    cases h
    exact ⟨scanInv_start f ps, by simp [EquivalenceClasses.empty]⟩
  | succ i ih =>
    intro hi st h
    have hi' : i < ps.length := hi
    rw [List.take_succ, List.getElem?_eq_getElem hi', scanPartitions_append] at h
    obtain ⟨st₀, h₀, h⟩ := bind_eq_ok h
    obtain ⟨st₁, hrun, h₁⟩ := scanLoads_partition ord (setAt_eq_getElem hi') (ih hi'.le st₀ h₀).1
    simp only [List.length_take, min_eq_left hi'.le, Nat.zero_add, Option.toList_some,
      scanPartitions, hrun] at h
    cases h
    exact h₁

/-- Whenever the scan of partition `i` (the partitions before it scanned, then the first `n`
instructions of its own) meets an instruction that `LoadToPartition` already holds, the recorded
partition `j` lies strictly before `i`: the backward walk from `i` then stops at `j`, with `j` in
`i`'s class, and never steps before the first partition. -/
theorem scanLoads_recorded_before (ord : IterOrder) (f : Func) (ps : List InstPartition)
    {i n x j : Nat} {st st' : (Nat → Option Nat) × EquivalenceClasses} (hi : i < ps.length)
    (hpre : scanPartitions ord f 0 (ps.take i) (fun _ => none, .empty) = .ok st)
    (hscan : scanLoads f i ((ord.enum (setAt ps i)).take n) st = .ok st')
    (hx : (ord.enum (setAt ps i))[n]? = some x) (hj : st'.1 x = some j) :
    j < i ∧ ∃ ec, unionBackTo i j i st'.2 = .ok ec ∧ ec.leader j = i := by
  set l := ord.enum (setAt ps i)
  have hnd : (l.take n ++ l.drop n).Nodup := by rw [List.take_append_drop]; exact ord.nodup_enum _
  obtain ⟨st₁, hrun, h₁⟩ := scanLoads_spec f ps i (l.take n) [] st
    (scanPartitions_take_inv ord f ps i hi.le st hpre).1 (by simpa using (List.nodup_append.1 hnd).1)
    fun y hy => (ord.mem_enum _ y).1 (List.mem_of_mem_take hy)
  rw [hscan, Except.ok.injEq] at hrun
  subst hrun
  have hxd : x ∈ l.drop n := List.getElem?_mem (by rwa [List.getElem?_drop, Nat.add_zero])
  have hji := h₁.recorded_lt (fun hxt => (List.nodup_append.1 hnd).2.2 (by simpa using hxt) hxd) hj
  obtain ⟨ec, hrun, -, -, hj', -⟩ := unionBackTo_spec hji i st'.2 hji le_rfl h₁.intervals
    h₁.leader_self h₁.leader_self h₁.bound
  exact ⟨hji, ec, hrun, hj'⟩

/-- A function all of whose instructions are loads. -/
def loadsOnlyFunc : Func := ⟨[], fun _ => [], fun _ => ⟨.load, [], [], [], []⟩, 0⟩

/-- Load `13` in partitions `0` and `2`: scanning partition `2`, the walk goes back to `0`. -/
theorem scanLoads_recorded_before_loadTwice :
    ∃ st, scanPartitions .ascending loadsOnlyFunc 0
        ([⟨{13}, false⟩, ⟨{12}, true⟩, ⟨{13, 14}, false⟩].take 2) (fun _ => none, .empty) = .ok st ∧
      0 < 2 ∧ ∃ ec, unionBackTo 2 0 2 st.2 = .ok ec ∧ ec.leader 0 = 2 :=
  ⟨_, rfl, scanLoads_recorded_before .ascending loadsOnlyFunc
    [⟨{13}, false⟩, ⟨{12}, true⟩, ⟨{13, 14}, false⟩] (n := 0) (x := 13) (by decide) rfl rfl
    (by decide) rfl⟩

end Llvm.LoopDistribute
