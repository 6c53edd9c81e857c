import Mathlib.Data.List.GetD
import Llvm.LoopDistribute.Pipeline

/-!
# The seeding phase, access by access

`SeedInv` follows the seeding loop once it has run to the end. Here the loop is followed after
each access: with fewer than `2^31` possibly-backward dependences, every turn passes the assertion
(`seedStep_ok`), and after the first `t` accesses the loop has run, its state satisfies `SeedInv`
and each partition it built is cyclic exactly when its accesses are covered (`seedLoop_prefix`).

* `runningCount_eq_spanCount` : after access `i` the running count is the number of
  possibly-backward dependences from at or before `i` to after it, a non-negative `int`, although
  the per-access counters wrap;
* `SpanSeeding`, `seeding_follows_spans` : the seeding phase gives one cyclic partition per maximal
  run of covered accesses, one acyclic singleton per other access, in program order, then one
  acyclic singleton per value used outside the loop;
* `seedPartitions_fails_of_2pow31_spans` : with `2^31` possibly-backward dependences spanning the
  first access, the running count reads as negative and the assertion fails.
-/

namespace Llvm.LoopDistribute

/-- Two accesses get one partition exactly when every access from the first to the second is
covered. -/
theorem seedPos_eq_iff (deps : List Dependence) {a b : Nat} (hab : a ≤ b) :
    seedPos deps a = seedPos deps b ↔ a = b ∨ ∀ t, a ≤ t → t ≤ b → covered deps t = true := by
  refine ⟨fun h => ?_, ?_⟩
  · rcases Nat.eq_or_lt_of_le hab with rfl | hlt
    · exact .inl rfl
    -- each step from `a` to `b` keeps the position, so both its ends are covered
    have step : ∀ s, a ≤ s → s < b → covered deps s = true ∧ covered deps (s + 1) = true :=
      fun s h1 h2 => by
        have e1 := seedPos_mono deps h1
        have e2 := seedPos_mono deps (show s + 1 ≤ b by omega)
        have hs : seedPos deps (s + 1) =
            seedPos deps s + if covered deps s && covered deps (s + 1) then 0 else 1 := rfl
        split_ifs at hs with hc
        · simpa using hc
        · omega
    refine .inr fun t ht1 ht2 => ?_
    rcases Nat.lt_or_ge t b with h' | h'
    · exact (step t ht1 h').1
    · obtain ⟨s, rfl⟩ : ∃ s, b = s + 1 := ⟨b - 1, by omega⟩
      obtain rfl : t = s + 1 := by omega
      exact (step s (by omega) (by omega)).2
  · rintro (rfl | h)
    · rfl
    · exact seedPos_eq_of_covered hab h

/-- Each seeded partition is cyclic exactly when the accesses in it are covered. -/
def SeedFlags (deps : List Dependence) (t : Nat) (ps : List InstPartition) : Prop :=
  ∀ k < t, (ps.getD (seedPos deps k) default).depCycle = covered deps k

theorem depCycle_getD_addToCyclicPartition (ps : List InstPartition) (i : Nat) {q : Nat}
    (hq : q < ps.length) :
    ((addToCyclicPartition ps i).getD q default).depCycle = (ps.getD q default).depCycle := by
  rcases List.eq_nil_or_concat ps with rfl | ⟨init, p, rfl⟩
  · simp at hq
  rw [List.concat_eq_append] at hq ⊢
  by_cases hc : p.depCycle = true
  · rw [show addToCyclicPartition (init ++ [p]) i = init ++ [p.add i] by
      simp [addToCyclicPartition, hc]]
    rcases Nat.lt_or_ge q init.length with h | h
    · rw [List.getD_append _ _ _ _ h, List.getD_append _ _ _ _ h]
    · obtain rfl : q = init.length := by simp at hq; omega
      simp [InstPartition.add]
  · rw [show addToCyclicPartition (init ++ [p]) i = init ++ [p] ++ [⟨{i}, true⟩] by
      simp [addToCyclicPartition, hc], List.getD_append _ _ _ _ hq]

theorem toInt_ofNat_of_lt {n : Nat} (hn : n < 2 ^ 31) : (BitVec.ofNat 32 n).toInt = n := by
  rw [BitVec.toInt_eq_toNat_cond, BitVec.toNat_ofNat, Nat.mod_eq_of_lt (by omega),
    if_pos (by omega)]

section Prefix

variable {mi : List Nat} {deps : List Dependence} (hsd : ∀ d ∈ deps, d.source < d.destination)
  (hN2 : deps.countP (·.isPossiblyBackward) < 2 ^ 31)
include hsd hN2

/-- With fewer than `2^31` possibly-backward dependences, the running count after access `t` is a
non-negative `int`, so the turn of access `t` passes the assertion. -/
theorem seedStep_ok {t i : Nat} {st : List InstPartition × BitVec 32}
    (hinv : SeedInv mi deps t st) :
    ∃ st', seedStep st ⟨i, BitVec.ofNat 32 (startCount deps t) - BitVec.ofNat 32 (endCount deps t)⟩
      = .ok st' := by
  have hA : activeAt deps (t + 1) < 2 ^ 31 :=
    (countP_le_backward _ fun d h => by simp_all).trans_lt hN2
  have hsum : st.2 + (BitVec.ofNat 32 (startCount deps t) - BitVec.ofNat 32 (endCount deps t)) =
      BitVec.ofNat 32 (activeAt deps (t + 1)) := by
    rw [hinv.active, runningCount_succ, startedBefore_eq hsd, BitVec.ofNat_add, add_sub_cancel_left]
  simp only [seedStep]
  rw [if_pos (by rw [hsum, toInt_ofNat_of_lt hA]; exact Int.natCast_nonneg _)]
  exact ⟨_, rfl⟩

/-- After the first `t` accesses the seeding loop has run: its state satisfies `SeedInv`, and each
partition it built is cyclic exactly when its accesses are covered. -/
theorem seedLoop_prefix : ∀ t ≤ mi.length, ∃ st,
    ((memoryInstructionDependences mi deps).take t).foldlM seedStep ([], 0) = .ok st ∧
      SeedInv mi deps t st ∧ SeedFlags deps t st.1
  | 0, _ => ⟨([], 0), rfl, seedInv_zero mi deps, fun k hk => absurd hk (Nat.not_lt_zero k)⟩
  | t + 1, ht => by
    obtain ⟨st, hrun, hinv, hflags⟩ := seedLoop_prefix t (by omega)
    obtain ⟨i, hi⟩ : ∃ i, mi[t]? = some i := ⟨mi[t], List.getElem?_eq_getElem (by omega)⟩
    obtain ⟨st', hst'⟩ := seedStep_ok hsd hN2 (i := i) hinv
    have hinv' := seedStep_inv hsd (hN2.trans (by decide)) hinv hi hst'
    refine ⟨st', ?_, hinv', fun k hk => ?_⟩
    · rw [List.take_succ, getElem?_memoryInstructionDependences, hi, Option.map_some',
        Option.toList_some, List.foldlM_append, hrun]
      simpa using hst'
    rcases Nat.lt_succ_iff_lt_or_eq.1 hk with hk | rfl
    · -- a partition built before keeps its flag
      have hq : seedPos deps k < st.1.length := by
        rw [hinv.length]; exact seedPos_lt_seedCount deps hk
      rw [seedStep_eq_ok hst']
      split_ifs
      · rw [depCycle_getD_addToCyclicPartition _ _ hq]; exact hflags k hk
      · rw [addToNewNonCyclicPartition, List.getD_append _ _ _ _ hq]; exact hflags k hk
    · -- the partition of the new access is the last one, whose flag `SeedInv` gives
      have hl := hinv'.last k rfl
      rw [List.getLast?_eq_getElem?, hinv'.length] at hl
      simp only [seedCount, Nat.add_sub_cancel] at hl
      rw [List.getD_eq_getElem?_getD]
      cases h : st'.1[seedPos deps k]? with
      | none => simp [h] at hl
      | some p => simp_all

end Prefix

/-! ## The running count -/

/-- The possibly-backward dependences whose span covers access `i` and goes on past it: those
still active once access `i` is processed. -/
def spanCount (deps : List Dependence) (i : Nat) : Nat :=
  deps.countP fun d => d.isPossiblyBackward && decide (d.source ≤ i) && decide (i < d.destination)

theorem spanCount_eq_activeAt (deps : List Dependence) (i : Nat) :
    spanCount deps i = activeAt deps (i + 1) := by
  simp only [spanCount, activeAt, Nat.lt_succ_iff, Nat.succ_le_iff]

/-- With fewer than `2^31` possibly-backward dependences, after access `i` the running count is
the number of them that span from at or before `i` to after it, read as a non-negative `int`; so
the assertion holds at every access and the seeding loop runs to the end. -/
theorem runningCount_eq_spanCount {mi : List Nat} {deps : List Dependence}
    (hsd : ∀ d ∈ deps, d.source < d.destination ∧ d.destination < mi.length)
    (hN2 : deps.countP (·.isPossiblyBackward) < 2 ^ 31) :
    (∀ i < mi.length, ∃ ps, ((memoryInstructionDependences mi deps).take (i + 1)).foldlM seedStep
        ([], 0) = .ok (ps, BitVec.ofNat 32 (spanCount deps i)) ∧
        (BitVec.ofNat 32 (spanCount deps i)).toInt = spanCount deps i) ∧
      ∃ ps, seedPartitions (memoryInstructionDependences mi deps) = .ok ps := by
  have hsd' : ∀ d ∈ deps, d.source < d.destination := fun d hd => (hsd d hd).1
  refine ⟨fun i hi => ?_, seedPartitions_ok hsd' hN2⟩
  obtain ⟨st, hrun, hinv, -⟩ := seedLoop_prefix hsd' hN2 (i + 1) hi
  have hval : st.2 = BitVec.ofNat 32 (spanCount deps i) := by
    rw [hinv.active, startedBefore_eq hsd', BitVec.ofNat_add, add_sub_cancel_left,
      spanCount_eq_activeAt]
  refine ⟨st.1, by rw [hrun, ← hval], toInt_ofNat_of_lt ?_⟩
  exact (countP_le_backward _ fun d h => by simp_all).trans_lt hN2

theorem runningCount_eq_spanCount_fourAccess :
    (∀ i < 4, ∃ ps, ((memoryInstructionDependences [12, 13, 14, 15] [⟨1, 2, true⟩]).take
        (i + 1)).foldlM seedStep ([], 0) = .ok (ps, BitVec.ofNat 32 (spanCount [⟨1, 2, true⟩] i)) ∧
        (BitVec.ofNat 32 (spanCount [⟨1, 2, true⟩] i)).toInt = spanCount [⟨1, 2, true⟩] i) ∧
      ∃ ps, seedPartitions (memoryInstructionDependences [12, 13, 14, 15] [⟨1, 2, true⟩]) = .ok ps :=
  @runningCount_eq_spanCount [12, 13, 14, 15] [⟨1, 2, true⟩] (by decide) (by decide)

/-! ## The seeded partitions -/

/-- The seeded partitions as the spec describes them, through the position `seedPos k` of the
partition of each access `k`. -/
structure SpanSeeding (mi : List Nat) (deps : List Dependence) (ps : List InstPartition) :
    Prop where
  /-- partitions follow program order -/
  mono : Monotone (seedPos deps)
  /-- two accesses share a partition exactly when every access from one to the other is covered:
  the partitions are the maximal runs of covered accesses and the other accesses one by one -/
  same : ∀ a b, a ≤ b →
    (seedPos deps a = seedPos deps b ↔ a = b ∨ ∀ t, a ≤ t → t ≤ b → covered deps t = true)
  /-- one partition for each run and each other access -/
  length : ps.length = seedCount deps mi.length
  /-- a partition holds exactly the instructions of its accesses -/
  mem : ∀ q x, x ∈ setAt ps q ↔ ∃ k < mi.length, seedPos deps k = q ∧ mi[k]? = some x
  /-- and it is cyclic exactly when they are covered -/
  cyclic : ∀ k < mi.length, (ps.getD (seedPos deps k) default).depCycle = covered deps k

/-- With fewer than `2^31` possibly-backward dependences, the seeding phase puts each maximal run
of covered accesses in one cyclic partition and every other access in an acyclic singleton, in
program order, then appends an acyclic singleton for each value used outside the loop, in order. -/
theorem seeding_follows_spans (f : Func) (L : Loop) {mi : List Nat} {deps : List Dependence}
    (hsd : ∀ d ∈ deps, d.source < d.destination ∧ d.destination < mi.length)
    (hN2 : deps.countP (·.isPossiblyBackward) < 2 ^ 31) :
    ∃ seeded, seedPartitions (memoryInstructionDependences mi deps) = .ok seeded ∧
      SpanSeeding mi deps seeded ∧
      (findDefsUsedOutsideOfLoop f L).foldl addToNewNonCyclicPartition seeded =
        seeded ++ (findDefsUsedOutsideOfLoop f L).map fun d => ⟨{d}, false⟩ := by
  have hsd' : ∀ d ∈ deps, d.source < d.destination := fun d hd => (hsd d hd).1
  obtain ⟨st, hrun, hinv, hflags⟩ := seedLoop_prefix hsd' hN2 mi.length le_rfl
  rw [← length_memoryInstructionDependences mi deps, List.take_length] at hrun
  refine ⟨st.1, by rw [seedPartitions, hrun]; rfl, ⟨seedPos_mono deps,
    fun _ _ hab => seedPos_eq_iff deps hab, hinv.length, hinv.mem, hflags⟩,
    foldl_addToNewNonCyclicPartition _ _⟩

theorem seeding_follows_spans_fourAccess :
    ∃ seeded, seedPartitions (memoryInstructionDependences [12, 13, 14, 15] [⟨1, 2, true⟩]) =
      .ok seeded ∧ SpanSeeding [12, 13, 14, 15] [⟨1, 2, true⟩] seeded ∧
      (findDefsUsedOutsideOfLoop fourAccessFunc fourAccessLoop).foldl addToNewNonCyclicPartition
        seeded = seeded ++ (findDefsUsedOutsideOfLoop fourAccessFunc fourAccessLoop).map
          fun d => ⟨{d}, false⟩ :=
  seeding_follows_spans fourAccessFunc fourAccessLoop (by decide) (by decide)

/-- With `2^31` possibly-backward dependences from the first access to the second, the first
access's counter is `2^31`, which the running `int` reads as negative: the assertion of the seeding
loop fails and no partition is produced. -/
theorem seedPartitions_fails_of_2pow31_spans :
    ∃ e, seedPartitions (memoryInstructionDependences [12, 13]
      (List.replicate (2 ^ 31) ⟨0, 1, true⟩)) = .error e := by
  have h : memoryInstructionDependences [12, 13] (List.replicate (2 ^ 31) ⟨0, 1, true⟩) =
      [⟨12, BitVec.ofNat 32 (2 ^ 31)⟩, ⟨13, 0 - BitVec.ofNat 32 (2 ^ 31)⟩] := by
    apply List.ext_getElem?
    intro t
    rw [getElem?_memoryInstructionDependences]
    simp only [startCount, endCount, List.countP_replicate]
    rcases t with _ | _ | t
    · rfl
    · rfl
    · simp
  rw [h]
  exact ⟨_, rfl⟩

end Llvm.LoopDistribute
