import Llvm.LoopDistribute.Coarsening
import Mathlib.Data.BitVec
import Mathlib.Tactic.Ring

/-!
# Seeding: the running count of unsafe dependences

The start-or-end counters are `unsigned` and the running count an `int`, so both are 32-bit words:
the counter of access `t` is the number of possibly-backward dependences that start there minus the
number that end there, modulo `2^32` (`getElem?_memoryInstructionDependences`).

With fewer than `2^32` possibly-backward dependences nothing wraps to zero, and the seeding loop
puts access `t` in a cyclic partition exactly when some such dependence spans it (`covered`). The
seeded partitions are then the runs `seedPos` describes (`SeedInv`): consecutive covered accesses
share a partition, every other access opens one.
-/

namespace Llvm.LoopDistribute

/-- The possibly-backward dependences that start at `t`. -/
def startCount (deps : List Dependence) (t : Nat) : Nat :=
  deps.countP fun d => d.isPossiblyBackward && d.source == t

/-- The possibly-backward dependences that end at `t`. -/
def endCount (deps : List Dependence) (t : Nat) : Nat :=
  deps.countP fun d => d.isPossiblyBackward && d.destination == t

theorem getElem?_countDependence (acc : List Entry) (d : Dependence) (t : Nat) :
    (countDependence acc d)[t]? = acc[t]?.map fun e => ⟨e.inst,
      e.numUnsafeDependencesStartOrEnd + (if d.isPossiblyBackward && d.source == t then 1 else 0) -
        (if d.isPossiblyBackward && d.destination == t then 1 else 0)⟩ := by
  unfold countDependence
  cases hb : d.isPossiblyBackward
  · simp only [Bool.false_eq_true, if_false, Bool.false_and]
    generalize acc[t]? = o; cases o <;> simp
  · simp only [List.getElem?_modify, if_true, Bool.true_and, beq_iff_eq]
    generalize acc[t]? = o
    cases o <;> simp
    split_ifs <;> simp

theorem getElem?_memoryInstructionDependences (mi : List Nat) (deps : List Dependence) (t : Nat) :
    (memoryInstructionDependences mi deps)[t]? = mi[t]?.map fun i =>
      ⟨i, BitVec.ofNat 32 (startCount deps t) - BitVec.ofNat 32 (endCount deps t)⟩ := by
  have key : ∀ (ds : List Dependence) (acc : List Entry), (ds.foldl countDependence acc)[t]? =
      acc[t]?.map fun e => ⟨e.inst, e.numUnsafeDependencesStartOrEnd +
        BitVec.ofNat 32 (startCount ds t) - BitVec.ofNat 32 (endCount ds t)⟩ := by
    intro ds
    induction ds with
    | nil =>
      intro acc; rw [List.foldl_nil]
      generalize acc[t]? = o; cases o <;> simp [startCount, endCount]
    | cons d ds ih =>
      intro acc
      rw [List.foldl_cons, ih, getElem?_countDependence]
      generalize acc[t]? = o
      cases o <;> simp only [Option.map_none', Option.map_some', Option.some.injEq]
      simp only [startCount, endCount, List.countP_cons, BitVec.ofNat_add]
      congr 1
      split_ifs <;> simp <;> ring
  rw [memoryInstructionDependences, key, List.getElem?_map]
  generalize mi[t]? = o; cases o <;> simp

theorem length_memoryInstructionDependences (mi : List Nat) (deps : List Dependence) :
    (memoryInstructionDependences mi deps).length = mi.length := by
  have key : ∀ (ds : List Dependence) (acc : List Entry),
      (ds.foldl countDependence acc).length = acc.length := by
    intro ds
    induction ds with
    | nil => intro; rfl
    | cons d ds ih =>
      intro acc
      rw [List.foldl_cons, ih, countDependence]
      split <;> simp
  simp [memoryInstructionDependences, key]

/-! ## The running count -/

/-- The possibly-backward dependences whose source is before `t`. -/
def startedBefore (deps : List Dependence) (t : Nat) : Nat :=
  deps.countP fun d => d.isPossiblyBackward && decide (d.source < t)

/-- The possibly-backward dependences whose destination is before `t`. -/
def endedBefore (deps : List Dependence) (t : Nat) : Nat :=
  deps.countP fun d => d.isPossiblyBackward && decide (d.destination < t)

/-- The possibly-backward dependences active when access `t` is reached. -/
def activeAt (deps : List Dependence) (t : Nat) : Nat :=
  deps.countP fun d => d.isPossiblyBackward && decide (d.source < t) && decide (t ≤ d.destination)

/-- Some possibly-backward dependence spans access `t`. -/
def covered (deps : List Dependence) (t : Nat) : Bool :=
  deps.any fun d => d.isPossiblyBackward && decide (d.source ≤ t) && decide (t ≤ d.destination)

section Counts

variable (deps : List Dependence)

/-- `countP` adds up over a predicate that holds exactly when one of two others does. -/
theorem countP_eq_add {l : List Dependence} {p q r : Dependence → Bool}
    (h : ∀ d ∈ l, (p d).toNat = (q d).toNat + (r d).toNat) :
    l.countP p = l.countP q + l.countP r := by
  induction l with
  | nil => rfl
  | cons d l ih =>
    have hd := h d (List.mem_cons_self d l)
    rw [List.countP_cons, List.countP_cons, List.countP_cons,
      ih fun d' h' => h d' (List.mem_cons_of_mem d h')]
    revert hd
    cases p d <;> cases q d <;> cases r d <;>
      simp only [Bool.toNat_true, Bool.toNat_false, Bool.false_eq_true, if_false, if_true] <;> omega

/-- A dependence counted below `t + 1` is counted below `t` or at `t`. -/
theorem toNat_lt_succ (b : Bool) (k t : Nat) :
    (b && decide (k < t + 1)).toNat = (b && decide (k < t)).toNat + (b && k == t).toNat := by
  cases b
  · rfl
  · rcases Nat.lt_trichotomy k t with h | rfl | h
    · simp [h, h.ne, Nat.lt_succ_of_lt h]
    · simp
    · simp [beq_eq_false_iff_ne.2 h.ne', Nat.not_lt_of_gt h, Nat.not_lt.2 (Nat.succ_le_of_lt h)]

theorem startedBefore_succ (t : Nat) :
    startedBefore deps (t + 1) = startedBefore deps t + startCount deps t :=
  countP_eq_add fun _ _ => toNat_lt_succ _ _ _

theorem endedBefore_succ (t : Nat) :
    endedBefore deps (t + 1) = endedBefore deps t + endCount deps t :=
  countP_eq_add fun _ _ => toNat_lt_succ _ _ _

theorem ofNat_ne_zero_iff {n : Nat} (hn : n < 2 ^ 32) : BitVec.ofNat 32 n ≠ 0 ↔ n ≠ 0 := by
  simp only [Ne, BitVec.toNat_eq, BitVec.toNat_ofNat, Nat.mod_eq_of_lt hn]; rfl

variable {deps} (hsd : ∀ d ∈ deps, d.source < d.destination)
include hsd

theorem startedBefore_eq (t : Nat) :
    startedBefore deps t = endedBefore deps t + activeAt deps t := by
  refine countP_eq_add fun d hd => ?_
  cases d.isPossiblyBackward
  · rfl
  · rcases Nat.lt_or_ge d.destination t with h₂ | h₂
    · simp [Nat.lt_trans (hsd d hd) h₂, h₂, Nat.not_le.2 h₂]
    · by_cases h₁ : d.source < t <;> simp [h₁, h₂, Nat.not_lt.2 h₂]

theorem endCount_eq_zero {t : Nat} (ht : activeAt deps t = 0) : endCount deps t = 0 := by
  rw [endCount, List.countP_eq_zero]
  rw [activeAt, List.countP_eq_zero] at ht
  intro d hd hp
  simp only [Bool.and_eq_true, beq_iff_eq] at hp
  have := hsd d hd
  exact ht d hd (by simp [hp.1, hp.2]; omega)

theorem covered_iff (t : Nat) : covered deps t = true ↔ 0 < activeAt deps t ∨ 0 < startCount deps t := by
  simp only [covered, activeAt, startCount, List.any_eq_true, List.countP_pos_iff, Bool.and_eq_true,
    decide_eq_true_eq, beq_iff_eq]
  constructor
  · rintro ⟨d, hd, ⟨hb, h1⟩, h2⟩
    rcases Nat.lt_or_ge d.source t with h | h
    · exact Or.inl ⟨d, hd, ⟨hb, h⟩, h2⟩
    · exact Or.inr ⟨d, hd, hb, by omega⟩
  · rintro (⟨d, hd, ⟨hb, h1⟩, h2⟩ | ⟨d, hd, hb, rfl⟩)
    · exact ⟨d, hd, ⟨hb, h1.le⟩, h2⟩
    · exact ⟨d, hd, ⟨hb, le_rfl⟩, (hsd d hd).le⟩

omit hsd in
theorem countP_le_backward (p : Dependence → Bool) (hp : ∀ d, p d → d.isPossiblyBackward) :
    deps.countP p ≤ deps.countP (·.isPossiblyBackward) :=
  List.countP_mono_left fun d _ h => hp d h

/-- With fewer than `2^32` possibly-backward dependences the seeding loop's test at access `t`
says whether a dependence spans `t`. -/
theorem seedTest_iff (hN : deps.countP (·.isPossiblyBackward) < 2 ^ 32) (t : Nat) :
    (BitVec.ofNat 32 (startedBefore deps t) - BitVec.ofNat 32 (endedBefore deps t) ≠ 0 ∨
      0 < BitVec.ofNat 32 (startCount deps t) - BitVec.ofNat 32 (endCount deps t)) ↔
      covered deps t = true := by
  have hA : activeAt deps t < 2 ^ 32 :=
    (countP_le_backward _ fun d h => by simp_all).trans_lt hN
  have hS : startCount deps t < 2 ^ 32 :=
    (countP_le_backward _ fun d h => by simp_all).trans_lt hN
  rw [startedBefore_eq hsd, BitVec.ofNat_add, add_sub_cancel_left, ofNat_ne_zero_iff hA,
    covered_iff hsd]
  by_cases h0 : activeAt deps t = 0
  · rw [endCount_eq_zero hsd h0, h0]
    simp only [BitVec.sub_zero, BitVec.lt_def, BitVec.toNat_ofNat]
    simp
    omega
  · simp [h0, Nat.pos_of_ne_zero h0]

end Counts

/-! ## The seeded partitions -/

/-- The position of the partition the seeding loop puts access `t` in: a covered access after a
covered one stays in the partition of its predecessor, every other access opens the next one. -/
def seedPos (deps : List Dependence) : Nat → Nat
  | 0 => 0
  | t + 1 => seedPos deps t + if covered deps t && covered deps (t + 1) then 0 else 1

/-- The number of partitions after the first `t` accesses. -/
def seedCount (deps : List Dependence) : Nat → Nat
  | 0 => 0
  | s + 1 => seedPos deps s + 1

theorem seedPos_mono (deps : List Dependence) : Monotone (seedPos deps) :=
  monotone_nat_of_le_succ fun _ => Nat.le_add_right _ _

theorem seedPos_lt_seedCount (deps : List Dependence) {j n : Nat} (h : j < n) :
    seedPos deps j < seedCount deps n := by
  obtain ⟨m, rfl⟩ := Nat.exists_eq_add_of_lt h
  exact Nat.lt_succ_of_le (seedPos_mono deps (by omega))

/-- Accesses spanned by one run of covered positions share a partition. -/
theorem seedPos_eq_of_covered {deps : List Dependence} {a : Nat} :
    ∀ {b : Nat}, a ≤ b → (∀ t, a ≤ t → t ≤ b → covered deps t = true) → seedPos deps a = seedPos deps b
  | 0, hab, _ => by rw [Nat.le_zero.1 hab]
  | b + 1, hab, h => by
    rcases Nat.lt_or_ge a (b + 1) with hlt | hge
    · rw [seedPos_eq_of_covered (Nat.le_of_lt_succ hlt) fun t h1 h2 => h t h1 (by omega), seedPos,
        h b (by omega) (by omega), h (b + 1) hab le_rfl]; rfl
    · rw [Nat.le_antisymm hab hge]

theorem setAt_concat (ps : List InstPartition) (p : InstPartition) (q : Nat) :
    setAt (ps ++ [p]) q = if q = ps.length then p.set else setAt ps q := by
  rcases Nat.lt_trichotomy q ps.length with h | rfl | h
  · rw [if_neg h.ne, setAt, setAt, List.getD_eq_getElem?_getD, List.getElem?_append_left h,
      ← List.getD_eq_getElem?_getD]
  · simp [setAt]
  · rw [if_neg h.ne', setAt_of_le h.le, setAt_of_le (by simp; omega)]

/-- Where `addToCyclicPartition` puts its instruction: into the last partition when that one is
cyclic, into a new cyclic partition otherwise. -/
theorem addToCyclicPartition_spec (ps : List InstPartition) (i : Nat) :
    ∃ pos, ((ps.getLast?.map (·.depCycle) = some true ∧ pos + 1 = ps.length ∧
        (addToCyclicPartition ps i).length = ps.length) ∨
      (ps.getLast?.map (·.depCycle) ≠ some true ∧ pos = ps.length ∧
        (addToCyclicPartition ps i).length = ps.length + 1)) ∧
      (addToCyclicPartition ps i).getLast?.map (·.depCycle) = some true ∧
      ∀ q x, x ∈ setAt (addToCyclicPartition ps i) q ↔ x ∈ setAt ps q ∨ (x = i ∧ q = pos) := by
  rcases List.eq_nil_or_concat ps with rfl | ⟨init, p, rfl⟩
  · refine ⟨0, Or.inr ⟨by simp, rfl, rfl⟩, rfl, fun q x => ?_⟩
    cases q <;> simp [addToCyclicPartition]
  · rw [List.concat_eq_append]
    by_cases hc : p.depCycle = true
    · have he : addToCyclicPartition (init ++ [p]) i = init ++ [p.add i] := by
        simp [addToCyclicPartition, hc]
      refine ⟨init.length, Or.inl ⟨by simp [hc], by simp, by simp [he]⟩,
        by simp [he, InstPartition.add, hc], fun q x => ?_⟩
      rw [he, setAt_concat, setAt_concat]
      split_ifs <;> simp_all [InstPartition.add, or_comm]
    · have he : addToCyclicPartition (init ++ [p]) i = init ++ [p] ++ [⟨{i}, true⟩] := by
        simp [addToCyclicPartition, hc]
      refine ⟨(init ++ [p]).length, Or.inr ⟨by simp [hc], rfl, by simp [he]⟩, by simp [he],
        fun q x => ?_⟩
      rw [he, setAt_concat]
      split_ifs with hq
      · simp [hq, setAt_of_le]
      · simp_all

theorem addToNewNonCyclicPartition_mem (ps : List InstPartition) (i q x : Nat) :
    x ∈ setAt (addToNewNonCyclicPartition ps i) q ↔ x ∈ setAt ps q ∨ (x = i ∧ q = ps.length) := by
  rw [addToNewNonCyclicPartition, setAt_concat]
  split_ifs with hq
  · simp [hq, setAt_of_le]
  · simp [hq]

/-- The partitions for values used outside the loop go after the seeded ones. -/
theorem foldl_addToNewNonCyclicPartition (ds : List Nat) :
    ∀ ps : List InstPartition, ds.foldl addToNewNonCyclicPartition ps =
      ps ++ ds.map fun d => ⟨{d}, false⟩ := by
  induction ds with
  | nil => simp
  | cons d ds ih => intro ps; simp [ih, addToNewNonCyclicPartition]

/-- What the seeding loop has built after the first `t` accesses. -/
structure SeedInv (mi : List Nat) (deps : List Dependence) (t : Nat)
    (st : List InstPartition × BitVec 32) : Prop where
  active : st.2 = BitVec.ofNat 32 (startedBefore deps t) - BitVec.ofNat 32 (endedBefore deps t)
  length : st.1.length = seedCount deps t
  last : ∀ s, t = s + 1 → st.1.getLast?.map (·.depCycle) = some (covered deps s)
  mem : ∀ q x, x ∈ setAt st.1 q ↔ ∃ k < t, seedPos deps k = q ∧ mi[k]? = some x

theorem seedInv_zero (mi : List Nat) (deps : List Dependence) : SeedInv mi deps 0 ([], 0) where
  active := by simp [startedBefore, endedBefore]
  length := rfl
  last _ h := absurd h (Nat.succ_ne_zero _).symm
  mem q x := by simp

theorem seedStep_eq_ok {st st' : List InstPartition × BitVec 32} {e : Entry}
    (h : seedStep st e = .ok st') :
    st' = (if st.2 ≠ 0 ∨ 0 < e.numUnsafeDependencesStartOrEnd then addToCyclicPartition st.1 e.inst
      else addToNewNonCyclicPartition st.1 e.inst, st.2 + e.numUnsafeDependencesStartOrEnd) := by
  simp only [seedStep] at h
  split at h
  · exact (Except.ok.inj h).symm
  · cases h

/-- The running count after access `t`: the count before it plus its counter. -/
theorem runningCount_succ (deps : List Dependence) (t : Nat) :
    BitVec.ofNat 32 (startedBefore deps t) - BitVec.ofNat 32 (endedBefore deps t) +
      (BitVec.ofNat 32 (startCount deps t) - BitVec.ofNat 32 (endCount deps t)) =
      BitVec.ofNat 32 (startedBefore deps (t + 1)) - BitVec.ofNat 32 (endedBefore deps (t + 1)) := by
  rw [startedBefore_succ, endedBefore_succ, BitVec.ofNat_add, BitVec.ofNat_add]; ring

section Step

variable {mi : List Nat} {deps : List Dependence} (hsd : ∀ d ∈ deps, d.source < d.destination)
  (hN : deps.countP (·.isPossiblyBackward) < 2 ^ 32)
include hsd hN

/-- One turn of the seeding loop keeps `SeedInv`. -/
theorem seedStep_inv {t i : Nat} {st st' : List InstPartition × BitVec 32} (h : SeedInv mi deps t st)
    (hi : mi[t]? = some i)
    (hs : seedStep st ⟨i, BitVec.ofNat 32 (startCount deps t) - BitVec.ofNat 32 (endCount deps t)⟩ =
      .ok st') : SeedInv mi deps (t + 1) st' := by
  rw [seedStep_eq_ok hs, h.active]
  simp only [seedTest_iff hsd hN]
  have hpos : ∀ (ps : List InstPartition) (pos : Nat), (∀ q x, x ∈ setAt ps q ↔ x ∈ setAt st.1 q ∨
      (x = i ∧ q = pos)) → pos = seedPos deps t → ∀ q x, x ∈ setAt ps q ↔
        ∃ k < t + 1, seedPos deps k = q ∧ mi[k]? = some x := by
    intro ps pos hps hp q x
    rw [hps, h.mem, Nat.exists_lt_succ, hi, Option.some.injEq, hp]
    constructor <;> rintro (h | h) <;> first | exact Or.inl h | exact Or.inr ⟨h.2.symm, h.1.symm⟩
  have hact := runningCount_succ deps t
  have hlen := h.length
  by_cases hc : covered deps t = true
  · rw [if_pos hc]
    obtain ⟨pos, hcase, hlast, hmem⟩ := addToCyclicPartition_spec st.1 i
    have key : pos = seedPos deps t ∧ (addToCyclicPartition st.1 i).length = seedPos deps t + 1 := by
      rcases t with _ | s
      · rcases hcase with ⟨h1, -, -⟩ | ⟨-, h2, h3⟩
        · simp [List.length_eq_zero.1 hlen] at h1
        · simp only [seedCount] at hlen
          simp [seedPos, h2, h3, hlen]
      · have hl := h.last s rfl
        simp only [seedCount] at hlen
        rcases hcase with ⟨h1, h2, h3⟩ | ⟨h1, h2, h3⟩
        · have hcs : covered deps s = true := Option.some.inj (hl.symm.trans h1)
          simp only [seedPos, hcs, hc, Bool.and_self, if_true]; omega
        · have hcs : covered deps s = false := by simpa [hl] using h1
          simp only [seedPos, hcs, Bool.false_and, Bool.false_eq_true, if_false]; omega
    exact ⟨hact, key.2, fun s hs => by rw [← Nat.succ.inj hs, hc, hlast], hpos _ pos hmem key.1⟩
  · rw [if_neg hc]
    have hp : st.1.length = seedPos deps t := by
      rcases t with _ | s
      · exact hlen
      · simp only [seedCount] at hlen
        simp only [seedPos, hc, Bool.and_false, Bool.false_eq_true, if_false, hlen]
    refine ⟨hact, by simp [addToNewNonCyclicPartition, hp, seedCount], fun s hs => ?_,
      hpos _ _ (addToNewNonCyclicPartition_mem st.1 i) hp⟩
    rw [← Nat.succ.inj hs]
    simpa [addToNewNonCyclicPartition] using hc

/-- The whole seeding loop: when it completes, access `t` is in the partition at `seedPos t`. -/
theorem seedPartitions_inv {ps : List InstPartition}
    (h : seedPartitions (memoryInstructionDependences mi deps) = .ok ps) :
    ∃ a, SeedInv mi deps mi.length (ps, a) := by
  obtain ⟨r, hr, rfl⟩ : ∃ r, (memoryInstructionDependences mi deps).foldlM seedStep ([], 0) = .ok r ∧
      r.1 = ps := by
    unfold seedPartitions at h
    cases hr : List.foldlM seedStep ([], 0) (memoryInstructionDependences mi deps) with
    | error e => rw [hr] at h; cases h
    | ok r => rw [hr] at h; exact ⟨r, rfl, Except.ok.inj h⟩
  have key : ∀ (es : List Entry) (t : Nat) (st r), es = (memoryInstructionDependences mi deps).drop t →
      t ≤ mi.length → SeedInv mi deps t st → es.foldlM seedStep st = .ok r →
        SeedInv mi deps mi.length r := by
    intro es
    induction es with
    | nil =>
      intro t st r hes ht hinv hrun
      have hle : mi.length ≤ t := by
        rw [← length_memoryInstructionDependences mi deps]; exact List.drop_eq_nil_iff.1 hes.symm
      cases hrun
      rwa [Nat.le_antisymm ht hle] at hinv
    | cons e es ih =>
      intro t st r hes ht hinv hrun
      have htl : t < (memoryInstructionDependences mi deps).length := by
        by_contra hn; rw [List.drop_eq_nil_of_le (by omega)] at hes; cases hes
      rw [List.drop_eq_getElem_cons htl, List.cons.injEq] at hes
      rw [List.foldlM_cons] at hrun
      obtain ⟨st', h1, h2⟩ := bind_eq_ok hrun
      have he : (memoryInstructionDependences mi deps)[t]? = some e := by
        rw [List.getElem?_eq_getElem htl, hes.1]
      rw [getElem?_memoryInstructionDependences] at he
      obtain ⟨i, hi, rfl⟩ := Option.map_eq_some'.1 he
      have ht' : t + 1 ≤ mi.length := by
        rw [length_memoryInstructionDependences] at htl; exact htl
      exact ih (t + 1) st' r hes.2 ht' (seedStep_inv hsd hN hinv hi h1) h2
  exact ⟨r.2, key _ 0 ([], 0) r rfl (Nat.zero_le _) (seedInv_zero mi deps) hr⟩

omit hN in
/-- With fewer than `2^31` possibly-backward dependences the running count stays a non-negative
`int`: the assertion of the seeding loop holds at every access and the loop runs to the end. -/
theorem seedPartitions_ok (hN2 : deps.countP (·.isPossiblyBackward) < 2 ^ 31) :
    ∃ ps, seedPartitions (memoryInstructionDependences mi deps) = .ok ps := by
  have key : ∀ (es : List Entry) (t : Nat) (st), es = (memoryInstructionDependences mi deps).drop t →
      SeedInv mi deps t st → ∃ r, es.foldlM seedStep st = .ok r := by
    intro es
    induction es with
    | nil => intro t st _ _; exact ⟨st, rfl⟩
    | cons e es ih =>
      intro t st hes hinv
      have htl : t < (memoryInstructionDependences mi deps).length := by
        by_contra hn; rw [List.drop_eq_nil_of_le (by omega)] at hes; cases hes
      rw [List.drop_eq_getElem_cons htl, List.cons.injEq] at hes
      have he : (memoryInstructionDependences mi deps)[t]? = some e := by
        rw [List.getElem?_eq_getElem htl, hes.1]
      rw [getElem?_memoryInstructionDependences] at he
      obtain ⟨i, hi, rfl⟩ := Option.map_eq_some'.1 he
      have hA : activeAt deps (t + 1) < 2 ^ 31 :=
        (countP_le_backward _ fun d h => by simp_all).trans_lt hN2
      have hsum : st.2 + (BitVec.ofNat 32 (startCount deps t) - BitVec.ofNat 32 (endCount deps t)) =
          BitVec.ofNat 32 (activeAt deps (t + 1)) := by
        rw [hinv.active, runningCount_succ, startedBefore_eq hsd, BitVec.ofNat_add,
          add_sub_cancel_left]
      obtain ⟨st', hok⟩ : ∃ st', seedStep st ⟨i, BitVec.ofNat 32 (startCount deps t) -
          BitVec.ofNat 32 (endCount deps t)⟩ = .ok st' := by
        simp only [seedStep]
        rw [if_pos]
        · exact ⟨_, rfl⟩
        · rw [hsum, BitVec.toInt_eq_toNat_cond, BitVec.toNat_ofNat, Nat.mod_eq_of_lt (by omega),
            if_pos (by omega)]
          exact Int.natCast_nonneg _
      obtain ⟨r, hr⟩ := ih (t + 1) st' hes.2 (seedStep_inv hsd (by omega) hinv hi hok)
      exact ⟨r, by rw [List.foldlM_cons, hok]; exact hr⟩
  obtain ⟨r, hr⟩ := key _ 0 ([], 0) (List.drop_zero _).symm (seedInv_zero mi deps)
  exact ⟨r.1, by rw [seedPartitions, hr]; rfl⟩

end Step

end Llvm.LoopDistribute
