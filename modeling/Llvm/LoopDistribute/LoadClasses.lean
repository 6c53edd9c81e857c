import Llvm.LoopDistribute.Pipeline

/-!
# `mergeToAvoidDuplicatedLoads` merges exactly the runs the loads link

A load in partitions `a < b` links every position from `a` to `b - 1` to the next one
(`loadLinked`). The scan joins only linked positions (`EquivalenceClasses.Justified`, kept by each
union of the backward walk) and joins all of them (the scan's `united` invariant), so its classes
are the maximal linked runs (`scanPartitions_classes`), each led by its last position
(`classOf_eq_leader`). The moves leave at each leader the union of its class's sets
(`mem_mergeIntoLeaders`) and the or of its flags (`depCycle_mergeIntoLeaders`, through the
observation invariant `ObsInv`).

* `scanPartitions_keeps` : an invariant of the classes that each scanned load keeps holds after
  the whole scan;
* `groupByLoads` : the grouping the loads ask for, with no iteration order and no leader in it;
* `mergeToAvoidDuplicatedLoads_eq_groupByLoads` : on non-empty partitions the merge is that
  grouping, and it reports a merge exactly when a load links two neighbours;
* `mergeToAvoidDuplicatedLoads_drops_empty` : an empty partition is dropped when others merge.
-/

namespace Llvm.LoopDistribute

/-! ## The positions the loads link -/

/-- Whether a load links position `k` to `k + 1`: it is in a partition at or before `k` and in one
after it. -/
def loadLinked (f : Func) (ps : List InstPartition) (k : Nat) : Bool :=
  (List.range (k + 1)).any fun a => ((List.range ps.length).filter (k < ·)).any fun b =>
    decide (∃ x ∈ setAt ps a ∩ setAt ps b, f.isLoad x = true)

theorem loadLinked_iff {f : Func} {ps : List InstPartition} {k : Nat} :
    loadLinked f ps k = true ↔ ∃ x, f.isLoad x = true ∧
      ∃ a b, a ≤ k ∧ k < b ∧ b < ps.length ∧ x ∈ setAt ps a ∧ x ∈ setAt ps b := by
  simp only [loadLinked, List.any_eq_true, List.mem_range, List.mem_filter, decide_eq_true_eq,
    Finset.mem_inter, Nat.lt_succ_iff]
  constructor
  · rintro ⟨a, ha, b, ⟨hb, hkb⟩, x, ⟨hxa, hxb⟩, hx⟩; exact ⟨x, hx, a, b, ha, hkb, hb, hxa, hxb⟩
  · rintro ⟨x, hx, a, b, ha, hkb, hb, hxa, hxb⟩; exact ⟨a, ha, b, ⟨hb, hkb⟩, x, ⟨hxa, hxb⟩, hx⟩

namespace EquivalenceClasses

/-- Every position below its leader is linked to the next one: the classes join only what `link`
links. -/
def Justified (link : Nat → Bool) (ec : EquivalenceClasses) : Prop :=
  ∀ y, y < ec.leader y → link y = true

theorem Justified.unionSets {ec : EquivalenceClasses} {link : Nat → Bool} (hJ : ec.Justified link)
    (h : ec.Intervals) {i k : Nat} (hk : k < i) (hi : ec.leader i = i) (hk1 : ec.leader (k + 1) = i)
    (hlink : ∀ m, k ≤ m → m < i → link m = true) : (ec.unionSets i k).Justified link := by
  intro y hy
  rw [(unionSets_spec h hk hi hk1).1] at hy
  dsimp only at hy
  split at hy
  · rcases Nat.lt_or_ge y (ec.leader y) with hly | hly
    · exact hJ y hly
    · have := h.le_leader k
      have := h.le_leader y
      exact hlink y (by omega) hy
  · exact hJ y hy

end EquivalenceClasses

/-- The backward walk joins only positions that the load it follows links. -/
theorem unionBackTo_justified {link : Nat → Bool} {i j : Nat}
    (hlink : ∀ m, j ≤ m → m < i → link m = true) :
    ∀ k (ec ec' : EquivalenceClasses), j < k → k ≤ i → ec.Intervals → ec.leader i = i →
      ec.leader k = i → (∀ x ∈ ec.members, x ≤ i) → unionBackTo i j k ec = .ok ec' →
      ec.Justified link → ec'.Justified link := by
  intro k
  induction k with
  | zero => intro _ _ h; omega
  | succ k ih =>
    intro ec ec' hjk hki hec hi hk hb hrun hJ
    obtain ⟨hec1, hi1, hk1, hb1⟩ := EquivalenceClasses.unionSets_step hec (by omega) hi hk hb
    have hJ1 := hJ.unionSets hec (by omega) hi hk fun m hm hmi => hlink m (by omega) hmi
    by_cases hkj : k = j
    · subst hkj
      simp only [unionBackTo, if_true, Except.ok.injEq] at hrun
      exact hrun ▸ hJ1
    · simp only [unionBackTo, hkj, if_false] at hrun
      exact ih _ ec' (by omega) (by omega) hec1 hi1 hk1 hb1 hrun hJ1

/-! ## Invariants of the classes kept by the whole scan -/

theorem scanLoads_cons (f : Func) (i x : Nat) (l : List Nat)
    (st : (Nat → Option Nat) × EquivalenceClasses) :
    scanLoads f i (x :: l) st = scanLoads f i [x] st >>= scanLoads f i l := by
  rcases st with ⟨ltp, ec⟩
  simp only [scanLoads]
  split
  · split
    · rfl
    · cases unionBackTo _ _ _ ec <;> rfl
  · rfl

/-- One instruction of the scan either leaves the classes alone or runs the backward walk from
partition `i` to the partition that first held the load. -/
theorem scanLoads_singleton {f : Func} {i x : Nat} {st st1 : (Nat → Option Nat) × EquivalenceClasses}
    (h : scanLoads f i [x] st = .ok st1) :
    st1.2 = st.2 ∨ ∃ j, f.isLoad x = true ∧ st.1 x = some j ∧ unionBackTo i j i st.2 = .ok st1.2 := by
  rcases st with ⟨ltp, ec⟩
  simp only [scanLoads] at h
  split at h
  · split at h
    · cases h; exact Or.inl rfl
    · rename_i j hj
      rcases hw : unionBackTo i j i ec with e | ec' <;> rw [hw] at h
      · cases h
      · cases h; exact Or.inr ⟨j, ‹_›, hj, hw⟩
  · cases h; exact Or.inl rfl

section Keeps

variable {f : Func} {ps : List InstPartition} (P : EquivalenceClasses → Prop)
  (hP : ∀ i done x st st1, ScanInv f ps i done st → x ∈ setAt ps i → x ∉ done →
    scanLoads f i [x] st = .ok st1 → P st.2 → P st1.2)
include hP

theorem scanLoads_keeps (i : Nat) :
    ∀ (l done : List Nat) (st st' : (Nat → Option Nat) × EquivalenceClasses),
      ScanInv f ps i done st → (done ++ l).Nodup → (∀ x ∈ l, x ∈ setAt ps i) →
      scanLoads f i l st = .ok st' → P st.2 → P st'.2 := by
  intro l
  induction l with
  | nil => intro _ st st' _ _ _ h hp; cases h; exact hp
  | cons x l ih =>
    intro done st st' h hnd hl hrun hp
    have hx : x ∉ done := fun hx => (List.nodup_append.1 hnd).2.2 hx (List.mem_cons_self x l)
    have hxi := hl x (List.mem_cons_self x l)
    obtain ⟨st1, h1, hinv1⟩ := scanLoads_spec f ps i [x] done st h
      ((List.nodup_append.1 hnd).1.append (List.nodup_singleton x) (by simpa using hx))
      (by simpa using hxi)
    rw [scanLoads_cons, h1] at hrun
    exact ih (done ++ [x]) st1 st' hinv1 (by simpa using hnd)
      (fun y hy => hl y (List.mem_cons_of_mem x hy)) hrun (hP i done x st st1 h hxi hx h1 hp)

theorem scanPartitions_keeps (ord : IterOrder) :
    ∀ (rest : List InstPartition) (i : Nat) (st st' : (Nat → Option Nat) × EquivalenceClasses),
      ps.drop i = rest → ScanInv f ps i [] st → (∀ x ∈ st.2.members, x < i) →
      scanPartitions ord f i rest st = .ok st' → P st.2 → P st'.2 := by
  intro rest
  induction rest with
  | nil => intro _ st st' _ _ _ h hp; cases h; exact hp
  | cons p rest ih =>
    intro i st st' hd h hb hrun hp
    obtain ⟨hi, hset, hd'⟩ := drop_eq_cons hd
    have hnd : ([] ++ ord.enum p.set).Nodup := by simpa using ord.nodup_enum p.set
    have hmem : ∀ x ∈ ord.enum p.set, x ∈ setAt ps i := fun x hx => hset ▸ (ord.mem_enum _ x).1 hx
    obtain ⟨st1, h1, hinv1⟩ := scanLoads_spec f ps i (ord.enum p.set) [] st h hnd hmem
    simp only [scanPartitions, h1] at hrun
    exact ih (i + 1) st1 st' hd'
      (hinv1.next fun x hx => by simpa using (ord.mem_enum _ x).2 (hset ▸ hx))
      (fun x hx => Nat.lt_succ_of_le (hinv1.bound x hx)) hrun
      (scanLoads_keeps P hP i _ [] st st1 h hnd hmem h1 hp)

end Keeps

/-! ## The classes the scan leaves -/

theorem scanLoads_justified {f : Func} {ps : List InstPartition} (i : Nat) (done : List Nat)
    (x : Nat) (st st1 : (Nat → Option Nat) × EquivalenceClasses) (h : ScanInv f ps i done st)
    (hxi : x ∈ setAt ps i) (hx : x ∉ done) (h1 : scanLoads f i [x] st = .ok st1)
    (hJ : st.2.Justified (loadLinked f ps)) : st1.2.Justified (loadLinked f ps) := by
  rcases scanLoads_singleton h1 with heq | ⟨j, hload, hj, hw⟩
  · exact heq ▸ hJ
  obtain ⟨hji, hxj, -⟩ := h.recorded x j hj
  have hne : j ≠ i := fun hji' => hx (h.current x (hji' ▸ hj))
  exact unionBackTo_justified (fun m hjm hmi => loadLinked_iff.2
      ⟨x, hload, j, i, hjm, hmi, lt_length_of_mem_setAt hxi, hxj, hxi⟩)
    i _ _ (by omega) le_rfl h.intervals h.leader_self h.leader_self h.bound hw hJ

theorem scanLoads_joins {f : Func} {ps : List InstPartition} (i : Nat) (done : List Nat)
    (x : Nat) (st st1 : (Nat → Option Nat) × EquivalenceClasses) (h : ScanInv f ps i done st)
    (_ : x ∈ setAt ps i) (hx : x ∉ done) (h1 : scanLoads f i [x] st = .ok st1)
    (hn : st.2.members = [] ∨ ∃ y, y < st.2.leader y) : st1.2.members = [] ∨ ∃ y, y < st1.2.leader y := by
  rcases scanLoads_singleton h1 with heq | ⟨j, -, hj, hw⟩
  · exact heq ▸ hn
  have hji := (h.recorded x j hj).1
  have hne : j ≠ i := fun hji' => hx (h.current x (hji' ▸ hj))
  obtain ⟨ec', hw', -, -, hj', -⟩ := unionBackTo_spec (by omega : j < i) i st.2 (by omega) le_rfl
    h.intervals h.leader_self h.leader_self h.bound
  rw [hw, Except.ok.injEq] at hw'
  exact Or.inr ⟨j, by rw [hw', hj']; omega⟩

/-- After the scan the classes are the runs of positions the loads link: two neighbours share a
class exactly when a load links them, and some class was formed exactly when some load links. -/
theorem scanPartitions_classes (ord : IterOrder) (f : Func) (ps : List InstPartition) :
    ∃ ltp ec, scanPartitions ord f 0 ps (fun _ => none, .empty) = .ok (ltp, ec) ∧ ec.Intervals ∧
      (∀ x ∈ ec.members, x < ps.length) ∧
      (∀ x, f.isLoad x = true → ∀ a b, a < ps.length → b < ps.length → x ∈ setAt ps a →
        x ∈ setAt ps b → ec.leader a = ec.leader b) ∧
      (∀ k, k + 1 < ps.length → (ec.leader k = ec.leader (k + 1) ↔ loadLinked f ps k = true)) ∧
      (ec.members.isEmpty = true ↔ ∀ k, k + 1 < ps.length → loadLinked f ps k = false) := by
  obtain ⟨⟨ltp, ec⟩, hscan, hinv, hb⟩ := scanPartitions_spec ord f ps ps 0 _ (by simp)
    (Nat.zero_le _) (scanInv_start f ps) (by simp [EquivalenceClasses.empty])
  have hec : ec.Intervals := hinv.intervals
  have hJ : ec.Justified (loadLinked f ps) :=
    scanPartitions_keeps _ (fun i done x st st1 h hxi hx h1 hJ => scanLoads_justified i done x st st1
      h hxi hx h1 hJ) ord ps 0 _ _ (by simp) (scanInv_start f ps) (by simp [EquivalenceClasses.empty])
      hscan (fun y hy => absurd hy (Nat.lt_irrefl y))
  have hn : ec.members = [] ∨ ∃ y, y < ec.leader y :=
    scanPartitions_keeps (fun ec : EquivalenceClasses => ec.members = [] ∨ ∃ y, y < ec.leader y)
      (fun i done x st st1 h hxi hx h1 hn => scanLoads_joins i done x st st1 h hxi hx h1 hn) ord ps 0
      _ _ (by simp) (scanInv_start f ps) (by simp [EquivalenceClasses.empty]) hscan (Or.inl rfl)
  have hcls : ∀ x, f.isLoad x = true → ∀ a b, a < ps.length → b < ps.length → x ∈ setAt ps a →
      x ∈ setAt ps b → ec.leader a = ec.leader b := by
    intro x hx a b ha hb' hxa hxb
    obtain ⟨j, hj, hja⟩ := hinv.united x hx a (Or.inl ha) hxa
    obtain ⟨j', hj', hjb⟩ := hinv.united x hx b (Or.inl hb') hxb
    rw [hja, hjb, Option.some.inj (hj.symm.trans hj')]
  have hsame : ∀ k, k + 1 < ps.length → (ec.leader k = ec.leader (k + 1) ↔ loadLinked f ps k = true) := by
    intro k hk
    constructor
    · intro hkk
      exact hJ k (by have := hec.le_leader (k + 1); omega)
    · intro hl
      obtain ⟨x, hx, a, b, hak, hkb, hb', hxa, hxb⟩ := loadLinked_iff.1 hl
      have hab := hcls x hx a b (by omega) hb' hxa hxb
      have hbl := hec.le_leader b
      rw [hec.interval a k hak (by omega), hec.interval a (k + 1) (by omega) (by omega)]
  refine ⟨ltp, ec, hscan, hec, hb, hcls, hsame, ?_⟩
  rw [List.isEmpty_iff]
  constructor
  · intro hm k hk
    by_contra hl
    have := (hsame k hk).2 (Bool.not_eq_false _ ▸ hl)
    rw [hec.self k (by simp [hm]), hec.self (k + 1) (by simp [hm])] at this
    omega
  · intro hl
    rcases hn with hm | ⟨y, hy⟩
    · exact hm
    · have hyM : y ∈ ec.members := not_not.1 fun h => by rw [hec.self y h] at hy; omega
      have := hb _ (hec.leader_mem y hyM)
      exact absurd (hJ y hy) (by rw [hl y (by omega)]; decide)

/-! ## What the moves leave, through one observation -/

theorem getD_moveMember {ps : List InstPartition} {j i : Nat} (hji : j ≠ i) (hj : j < ps.length)
    (hi : i < ps.length) (k : Nat) : (moveMember ps j i).getD k default =
      if k = i then ((ps.getD j default).moveTo (ps.getD i default)).2
      else if k = j then ((ps.getD j default).moveTo (ps.getD i default)).1 else ps.getD k default := by
  simp only [moveMember, List.getD_eq_getElem?_getD, List.getElem?_set, List.length_set]
  by_cases hki : k = i
  · subst hki; simp [hi]
  · by_cases hkj : k = j
    · subst hkj; simp [hj, Ne.symm hki, hki]
    · simp [Ne.symm hki, Ne.symm hkj, hki, hkj]

section Observed

variable (obs : InstPartition → Prop)

/-- What the moves leave at a position that has not moved, seen through `obs`: what its own
partition showed, or what one of the partitions moved into it showed. -/
def ObsInv (ps cur : List InstPartition) (leader : Nat → Nat) (moved : Nat → Prop) : Prop :=
  cur.length = ps.length ∧ ∀ k < ps.length, ¬ moved k →
    (obs (cur.getD k default) ↔ obs (ps.getD k default) ∨
      ∃ j, moved j ∧ leader j = k ∧ obs (ps.getD j default))

variable {obs} (hobs : ∀ p q : InstPartition, obs (p.moveTo q).2 ↔ obs q ∨ obs p)
  {ps : List InstPartition} {leader : Nat → Nat}
include hobs

theorem obsInv_moveMember (hll : ∀ y, leader (leader y) = leader y) {moved : Nat → Prop}
    (hmoved : ∀ y, moved y → leader y ≠ y) {cur : List InstPartition}
    (h : ObsInv obs ps cur leader moved) {j i : Nat} (hj : j < ps.length) (hi : i < ps.length)
    (hji : leader j = i) (hne : j ≠ i) (hjm : ¬ moved j) :
    ObsInv obs ps (moveMember cur j i) leader (fun y => moved y ∨ y = j) := by
  have hjl : ∀ y, leader y ≠ j := fun y hy => hne (by rw [← hji, ← hy, hll])
  have him : ¬ moved i := fun hm => hmoved i hm (by rw [← hji, hll])
  refine ⟨by rw [length_moveMember, h.1], fun k hk hkm => ?_⟩
  simp only [not_or] at hkm
  rw [getD_moveMember hne (h.1 ▸ hj) (h.1 ▸ hi), if_neg hkm.2]
  by_cases hki : k = i
  · subst hki
    rw [if_pos rfl, hobs, h.2 k hk him, h.2 j hj hjm]
    constructor
    · rintro ((hk' | ⟨j', hj', hl', hx⟩) | (hx | ⟨j', -, hl', -⟩))
      · exact Or.inl hk'
      · exact Or.inr ⟨j', Or.inl hj', hl', hx⟩
      · exact Or.inr ⟨j, Or.inr rfl, hji, hx⟩
      · exact absurd hl' (hjl j')
    · rintro (hx | ⟨j', (hj' | rfl), hl', hx⟩)
      · exact Or.inl (Or.inl hx)
      · exact Or.inl (Or.inr ⟨j', hj', hl', hx⟩)
      · exact Or.inr (Or.inl hx)
  · rw [if_neg hki, h.2 k hk hkm.1]
    constructor
    · rintro (hx | ⟨j', hj', hl', hx⟩)
      · exact Or.inl hx
      · exact Or.inr ⟨j', Or.inl hj', hl', hx⟩
    · rintro (hx | ⟨j', (hj' | rfl), hl', hx⟩)
      · exact Or.inl hx
      · exact Or.inr ⟨j', hj', hl', hx⟩
      · exact absurd (hl'.symm.trans hji) hki

theorem obsInv_mergeIntoLeaders {ec : EquivalenceClasses} (hec : ec.Intervals)
    (hb : ∀ x ∈ ec.members, x < ps.length) :
    ObsInv obs ps (mergeIntoLeaders ec ps) ec.leader (fun y => y ∈ ec.members ∧ ec.leader y ≠ y) :=
  mergeIntoLeaders_inv (fun cur moved => ObsInv obs ps cur ec.leader moved) hec hb
    (fun _ hi _ _ _ hmoved h hj hji hne hjm =>
      obsInv_moveMember hobs hec.leader_leader hmoved h hj hi hji hne hjm)
    ⟨rfl, fun _ _ _ => ⟨Or.inl, by rintro (hx | ⟨_, ⟨⟩, -⟩); exact hx⟩⟩

end Observed

/-! ## The grouping the loads ask for -/

/-- The last position of the class of `i`: walk right while the positions are linked, at most `m`
steps. -/
def classEnd (link : Nat → Bool) : Nat → Nat → Nat
  | 0, i => i
  | m + 1, i => if link i then classEnd link m (i + 1) else i

/-- The last position of the class of position `i` of `ps`. -/
def classOf (f : Func) (ps : List InstPartition) (i : Nat) : Nat :=
  classEnd (loadLinked f ps) (ps.length - 1 - i) i

/-- One partition for the class that ends at `r`: the union of the sets, the or of the flags. -/
def classPartition (f : Func) (ps : List InstPartition) (r : Nat) : InstPartition :=
  let cls := (List.range ps.length).filter fun i => classOf f ps i = r
  ⟨cls.foldr (fun i s => setAt ps i ∪ s) ∅, cls.any fun i => (ps.getD i default).depCycle⟩

/-- `ps` grouped into the classes of the smallest equivalence that relates all the partitions
between two that hold one load (each class a run of positions), each class replaced by one
partition, the classes in order. -/
def groupByLoads (f : Func) (ps : List InstPartition) : List InstPartition :=
  ((List.range ps.length).filter fun r => classOf f ps r = r).map (classPartition f ps)

/-- `classEnd` stops at the first position that is not linked to the next. -/
theorem classEnd_eq {link : Nat → Bool} {e : Nat} :
    ∀ m i, i ≤ e → e ≤ i + m → (∀ r, i ≤ r → r < e → link r = true) →
      (e < i + m → link e = false) → classEnd link m i = e
  | 0, i, h1, h2, _, _ => by rw [classEnd]; omega
  | m + 1, i, h1, h2, hl, he => by
    rcases Nat.lt_or_ge i e with hie | hie
    · rw [classEnd, if_pos (hl i le_rfl hie)]
      exact classEnd_eq m (i + 1) hie (by omega) (fun r hr hre => hl r (by omega) hre)
        fun h => he (by omega)
    · obtain rfl : i = e := by omega
      rw [classEnd, if_neg (by simp [he (by omega)])]

theorem mem_foldr_union (ps : List InstPartition) (x : Nat) (l : List Nat) :
    x ∈ l.foldr (fun i s => setAt ps i ∪ s) ∅ ↔ ∃ i ∈ l, x ∈ setAt ps i := by
  induction l with
  | nil => simp
  | cons i l ih => simp [ih]

theorem filter_eq_map_range {α : Type} [Inhabited α] (p : α → Bool) :
    ∀ l : List α, l.filter p =
      ((List.range l.length).filter fun k => p (l.getD k default)).map (l.getD · default)
  | [] => rfl
  | a :: l => by
    rw [List.length_cons, List.range_succ_eq_map, List.filter_cons, filter_eq_map_range p l,
      List.filter_cons, List.filter_map]
    by_cases ha : p a <;> simp [ha, Function.comp_def]

/-! ## The merge is the grouping -/

/-- The scan's leader of a position is the last position of its class. -/
theorem classOf_eq_leader {f : Func} {ps : List InstPartition} {ec : EquivalenceClasses}
    (hec : ec.Intervals) (hb : ∀ x ∈ ec.members, x < ps.length)
    (hsame : ∀ k, k + 1 < ps.length → (ec.leader k = ec.leader (k + 1) ↔ loadLinked f ps k = true))
    {k : Nat} (hk : k < ps.length) : classOf f ps k = ec.leader k := by
  have hlt : ec.leader k < ps.length := by
    by_cases hm : k ∈ ec.members
    · exact hb _ (hec.leader_mem k hm)
    · rw [hec.self k hm]; exact hk
  refine classEnd_eq _ _ (hec.le_leader k) (by omega) (fun r hkr hr => ?_) (fun he => ?_)
  · rw [← hsame r (by omega), hec.interval k r hkr hr.le, hec.interval k (r + 1) (by omega) hr]
  · by_contra hl
    have := (hsame _ (by omega)).2 (Bool.not_eq_false _ ▸ hl)
    rw [hec.leader_leader] at this
    have := hec.le_leader (ec.leader k + 1)
    omega

/-- The cycle flag a leader ends with: its own or that of a member of its class. -/
theorem depCycle_mergeIntoLeaders {ps : List InstPartition} {ec : EquivalenceClasses}
    (hec : ec.Intervals) (hb : ∀ x ∈ ec.members, x < ps.length) {k : Nat} (hk : k < ps.length)
    (hkk : ec.leader k = k) :
    ((mergeIntoLeaders ec ps).getD k default).depCycle = true ↔
      ∃ j < ps.length, ec.leader j = k ∧ (ps.getD j default).depCycle = true := by
  have hobs : ∀ p q : InstPartition,
      (p.moveTo q).2.depCycle = true ↔ q.depCycle = true ∨ p.depCycle = true := by
    simp [InstPartition.moveTo]
  refine ((@obsInv_mergeIntoLeaders (fun p => p.depCycle = true) hobs ps ec hec hb).2 k hk
    (fun h => h.2 hkk)).trans ?_
  constructor
  · rintro (hx | ⟨j, ⟨hjM, -⟩, hjk, hx⟩)
    · exact ⟨k, hk, hkk, hx⟩
    · exact ⟨j, hb j hjM, hjk, hx⟩
  · rintro ⟨j, hj, hjk, hx⟩
    by_cases hjk' : j = k
    · subst hjk'; exact Or.inl hx
    · have hjM : j ∈ ec.members := not_not.1 fun h => hjk' ((hec.self j h).symm.trans hjk)
      exact Or.inr ⟨j, ⟨hjM, hjk ▸ Ne.symm hjk'⟩, hjk, hx⟩

section Grouping

variable {f : Func} {ps : List InstPartition} {ec : EquivalenceClasses} (hec : ec.Intervals)
  (hb : ∀ x ∈ ec.members, x < ps.length)
  (hsame : ∀ k, k + 1 < ps.length → (ec.leader k = ec.leader (k + 1) ↔ loadLinked f ps k = true))
include hec hb hsame

/-- A position that ends its class holds, after the moves, the partition of its class. -/
theorem getD_mergeIntoLeaders {r : Nat} (hr : r < ps.length) (hrr : classOf f ps r = r) :
    (mergeIntoLeaders ec ps).getD r default = classPartition f ps r := by
  have hcls : ∀ {k}, k < ps.length → classOf f ps k = ec.leader k :=
    fun hk => classOf_eq_leader hec hb hsame hk
  have hrr' : ec.leader r = r := (hcls hr).symm.trans hrr
  have hset := mem_mergeIntoLeaders hec hb hr
  have hflag := depCycle_mergeIntoLeaders hec hb hr hrr'
  rcases hM : (mergeIntoLeaders ec ps).getD r default with ⟨s, b⟩
  simp only [setAt, hM] at hset
  simp only [hM] at hflag
  simp only [classPartition, InstPartition.mk.injEq]
  constructor
  · ext x
    rw [hset, mem_foldr_union]
    simp only [List.mem_filter, List.mem_range, decide_eq_true_eq]
    constructor
    · rintro ⟨-, j, hj, hjr, hx⟩; exact ⟨j, ⟨hj, (hcls hj).trans hjr⟩, hx⟩
    · rintro ⟨j, ⟨hj, hjr⟩, hx⟩; exact ⟨hrr', j, hj, (hcls hj).symm.trans hjr, hx⟩
  · rw [Bool.eq_iff_iff, hflag, List.any_eq_true]
    simp only [List.mem_filter, List.mem_range, decide_eq_true_eq]
    constructor
    · rintro ⟨j, hj, hjr, hx⟩; exact ⟨j, ⟨hj, (hcls hj).trans hjr⟩, hx⟩
    · rintro ⟨j, ⟨hj, hjr⟩, hx⟩; exact ⟨j, hj, (hcls hj).symm.trans hjr, hx⟩

/-- With no empty partition, the partitions left non-empty by the moves are the classes, in
order. -/
theorem filter_mergeIntoLeaders (hne : ∀ k < ps.length, setAt ps k ≠ ∅) :
    (mergeIntoLeaders ec ps).filter (fun p => decide (p.set ≠ ∅)) = groupByLoads f ps := by
  -- a position keeps a partition exactly when it ends its class
  have hkeep : ∀ k < ps.length,
      (decide (((mergeIntoLeaders ec ps).getD k default).set ≠ ∅) = true ↔ classOf f ps k = k) := by
    intro k hk
    rw [classOf_eq_leader hec hb hsame hk, decide_eq_true_eq, ← Finset.nonempty_iff_ne_empty]
    constructor
    · rintro ⟨x, hx⟩; exact ((mem_mergeIntoLeaders hec hb hk x).1 hx).1
    · intro hkk
      obtain ⟨x, hx⟩ := Finset.nonempty_iff_ne_empty.2 (hne k hk)
      exact ⟨x, (mem_mergeIntoLeaders hec hb hk x).2 ⟨hkk, k, hk, hkk, hx⟩⟩
  have hf : (List.range ps.length).filter
        (fun k => decide (((mergeIntoLeaders ec ps).getD k default).set ≠ ∅)) =
      (List.range ps.length).filter fun r => classOf f ps r = r :=
    List.filter_congr fun k hk => by rw [Bool.eq_iff_iff, hkeep k (List.mem_range.1 hk)]; simp
  rw [filter_eq_map_range, (movedInv_mergeIntoLeaders hec hb).1, groupByLoads, hf]
  exact List.map_congr_left fun r hr => by
    simp only [List.mem_filter, List.mem_range, decide_eq_true_eq] at hr
    exact getD_mergeIntoLeaders hec hb hsame hr.1 hr.2

end Grouping

/-- On partitions that are not empty, as `formPartitions` passes them, the merge returns the
partitions grouped by loads, whatever order the sets are walked in, and reports a merge exactly
when a load links two neighbouring partitions. -/
theorem mergeToAvoidDuplicatedLoads_eq_groupByLoads (ord : IterOrder) (f : Func)
    (ps : List InstPartition) (hne : ∀ k < ps.length, setAt ps k ≠ ∅) :
    mergeToAvoidDuplicatedLoads ord f ps =
      .ok (groupByLoads f ps, (List.range (ps.length - 1)).any (loadLinked f ps)) := by
  obtain ⟨ltp, ec, hscan, hec, hb, -, hsame, hmem⟩ := scanPartitions_classes ord f ps
  have hlist := filter_mergeIntoLeaders hec hb hsame hne
  have hany : (List.range (ps.length - 1)).any (loadLinked f ps) = false ↔ ec.members.isEmpty = true := by
    rw [hmem, List.any_eq_false]
    simp only [List.mem_range, Bool.not_eq_true]
    exact ⟨fun h k hk => h k (by omega), fun h k hk => h k (by omega)⟩
  simp only [mergeToAvoidDuplicatedLoads, hscan, bind, Except.bind, pure, Except.pure]
  split
  · -- no load is shared: nothing moves, and no partition is empty
    rename_i hemp
    have hM : mergeIntoLeaders ec ps = ps := by
      simp [mergeIntoLeaders, List.isEmpty_iff.1 hemp]
    have hps : ps.filter (fun p => decide (p.set ≠ ∅)) = ps := by
      refine List.filter_eq_self.2 fun p hp => ?_
      obtain ⟨k, hk, rfl⟩ := List.mem_iff_getElem.1 hp
      have := hne k hk
      simpa [setAt, List.getD_eq_getElem?_getD, List.getElem?_eq_getElem hk] using this
    rw [← hlist, hM, hps, hany.2 hemp]
  · rename_i hemp
    have htrue : (List.range (ps.length - 1)).any (loadLinked f ps) = true := by
      simpa using mt hany.1 hemp
    rw [hlist, htrue]

/-- Partitions of the four-access loop where the load `13` sits in the first and the last. -/
def loadTwicePartitions : List InstPartition := [⟨{13}, false⟩, ⟨{12}, true⟩, ⟨{13, 14}, false⟩]

theorem mergeToAvoidDuplicatedLoads_eq_groupByLoads_loadTwice :
    mergeToAvoidDuplicatedLoads .ascending fourAccessFunc loadTwicePartitions =
      .ok (groupByLoads fourAccessFunc loadTwicePartitions,
        (List.range (loadTwicePartitions.length - 1)).any (loadLinked fourAccessFunc loadTwicePartitions)) :=
  mergeToAvoidDuplicatedLoads_eq_groupByLoads .ascending fourAccessFunc loadTwicePartitions (by decide)

/-- Partitions whose last one is empty. -/
def emptyTailPartitions : List InstPartition := [⟨{13}, false⟩, ⟨{13}, false⟩, ⟨∅, false⟩]

/-- When some partitions merge, an empty partition is dropped with the emptied ones, which the
grouping keeps as a class of its own. -/
theorem mergeToAvoidDuplicatedLoads_drops_empty :
    mergeToAvoidDuplicatedLoads .ascending fourAccessFunc emptyTailPartitions =
        .ok ([⟨{13}, false⟩], true) ∧
      groupByLoads fourAccessFunc emptyTailPartitions = [⟨{13}, false⟩, ⟨∅, false⟩] := by
  constructor <;> rfl

end Llvm.LoopDistribute
