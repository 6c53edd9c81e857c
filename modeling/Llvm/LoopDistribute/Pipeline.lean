import Llvm.LoopDistribute.Seeding
import Llvm.LoopDistribute.Populate
import Llvm.LoopDistribute.UniqueLoads

/-!
# The partitions `processLoop` forms

`formPartitions` seeds the partitions in program order, merges before populating, closes each
partition under operands and merges to keep every load in one partition. Each stage after the
seeding is a `Coarsening` (the closure keeps positions and only adds terminators and operands, never
a store), so the partition of every memory access is the image of its seeded position.

* `formPartitions_eq_some` : the stages of a run that distributes;
* `FollowsProgramOrder` : every access is in exactly one partition, the partitions follow program
  order and the ends of each possibly-backward dependence share a partition;
* `formPartitions_followsProgramOrder` : so it is, with fewer than `2^32` possibly-backward
  dependences; `formPartitions_splits_wrapped_dependence` : with `2^32 + 1` the counters wrap;
* `defs_mem_setLast_formPartitions` : values used outside the loop end in the last partition;
* `formPartitions_closed` : every final partition holds the terminators and is closed;
* `formPartitions_store_inOne`, `formPartitions_load_inOne` : whatever the dependences, each
  store and each load among the memory instructions is in exactly one final partition.
-/

namespace Llvm.LoopDistribute

theorem eq_of_mergeToAvoidDuplicatedLoads_false {ord : IterOrder} {f : Func}
    {ps qs : List InstPartition} (h : mergeToAvoidDuplicatedLoads ord f ps = .ok (qs, false)) :
    qs = ps := by
  unfold mergeToAvoidDuplicatedLoads at h
  obtain ⟨⟨ltp, ec⟩, -, h⟩ := bind_eq_ok h
  dsimp only at h
  split at h
  · exact (Prod.mk.inj (Except.ok.inj h)).1.symm
  · cases h

/-- The inversion of `formPartitions`: a run that distributes went through every stage. -/
theorem formPartitions_eq_some {cfg : Config} {ord : IterOrder} {f : Func} {L : Loop}
    {bnp : Nat → Bool} {mi : List Nat} {deps : List Dependence} {ps : List InstPartition}
    (h : formPartitions cfg ord f L bnp mi deps = .ok (some ps)) :
    ∃ seeded merged, seedPartitions (memoryInstructionDependences mi deps) = .ok seeded ∧
      mergeToAvoidDuplicatedLoads ord f ((mergeBeforePopulating cfg ord f bnp
        ((findDefsUsedOutsideOfLoop f L).foldl addToNewNonCyclicPartition seeded)).map
          (·.populateUsedSet ord f L)) = .ok (ps, merged) ∧ 2 ≤ ps.length := by
  unfold formPartitions at h
  cases hs : seedPartitions (memoryInstructionDependences mi deps) with
  | error e => simp [hs] at h; cases h
  | ok seeded =>
    cases hd : mergeToAvoidDuplicatedLoads ord f ((mergeBeforePopulating cfg ord f bnp
        ((findDefsUsedOutsideOfLoop f L).foldl addToNewNonCyclicPartition seeded)).map
          (·.populateUsedSet ord f L)) with
    | error e =>
      simp only [hs, hd, bind, Except.bind, pure, Except.pure] at h
      split_ifs at h <;> cases h
    | ok r =>
      obtain ⟨qs, merged⟩ := r
      simp only [hs, hd, bind, Except.bind, pure, Except.pure] at h
      split_ifs at h with h1 h2 h3 <;> cases h
      refine ⟨seeded, merged, rfl, hd, ?_⟩
      cases merged
      · rw [eq_of_mergeToAvoidDuplicatedLoads_false hd, List.length_map]; omega
      · simpa using h3

/-! ## The stages -/

theorem setAt_append (ps tail : List InstPartition) (q : Nat) :
    setAt (ps ++ tail) q = if q < ps.length then setAt ps q else setAt tail (q - ps.length) := by
  simp only [setAt, List.getD_eq_getElem?_getD]
  split_ifs with h
  · rw [List.getElem?_append_left h]
  · rw [List.getElem?_append_right (by omega)]

theorem mem_setAt_append_of_forall {ps tail : List InstPartition} {x : Nat}
    (hx : ∀ p ∈ tail, x ∉ p.set) (q : Nat) : x ∈ setAt (ps ++ tail) q ↔ x ∈ setAt ps q := by
  rw [setAt_append]
  split_ifs with h
  · rfl
  · rw [setAt_of_le (show ps.length ≤ q by omega)]
    constructor
    · intro hx'
      rcases Nat.lt_or_ge (q - ps.length) tail.length with hl | hl
      · rw [setAt, List.getD_eq_getElem?_getD, List.getElem?_eq_getElem hl] at hx'
        exact absurd hx' (hx _ (List.getElem_mem hl))
      · rw [setAt_of_le hl] at hx'; simp at hx'
    · simp

theorem mergeBeforePopulating_coarsening (cfg : Config) (ord : IterOrder) (f : Func)
    (bnp : Nat → Bool) (ps : List InstPartition) :
    ∃ g, Coarsening ps (mergeBeforePopulating cfg ord f bnp ps) g := by
  obtain ⟨g₁, h₁⟩ := mergeAdjacentPartitionsIf_coarsening (fun p => !p.depCycle) ps
  unfold mergeBeforePopulating mergeAdjacentNonCyclic
  split_ifs
  · obtain ⟨g₂, h₂⟩ := mergeAdjacentPartitionsIf_coarsening
      (fun p => p.depCycle || allStoresConditional f bnp (ord.enum p.set) false)
      (mergeAdjacentPartitionsIf (fun p => !p.depCycle) ps)
    exact ⟨_, h₁.trans h₂⟩
  · exact ⟨g₁, h₁⟩

theorem mem_setLast_mergeBeforePopulating (cfg : Config) (ord : IterOrder) (f : Func)
    (bnp : Nat → Bool) (front : List InstPartition) {tail : List InstPartition}
    (htail : ∀ p ∈ tail, p.depCycle = false) {p : InstPartition} (hp : p ∈ tail) {x : Nat}
    (hx : x ∈ p.set) : x ∈ setLast (mergeBeforePopulating cfg ord f bnp (front ++ tail)) := by
  have h₁ : x ∈ setLast (mergeAdjacentNonCyclic (front ++ tail)) :=
    mem_setLast_mergeRun _ (by simpa using htail) hp hx front none
  have hne : mergeAdjacentNonCyclic (front ++ tail) ≠ [] :=
    mergeRun_ne_nil _ _ none (by simpa using fun _ => List.ne_nil_of_mem hp)
  unfold mergeBeforePopulating
  split_ifs
  · obtain ⟨g₂, h₂⟩ := mergeAdjacentPartitionsIf_coarsening
      (fun p => p.depCycle || allStoresConditional f bnp (ord.enum p.set) false)
      (mergeAdjacentNonCyclic (front ++ tail))
    exact h₂.mem_setLast hne h₁
  · exact h₁

section Populate

variable (ord : IterOrder) (f : Func) (L : Loop) (ps : List InstPartition)

theorem setAt_map_populateUsedSet {q : Nat} (hq : q < ps.length) :
    setAt (ps.map (·.populateUsedSet ord f L)) q = ((ps.getD q default).populateUsedSet ord f L).set := by
  simp [setAt, List.getD_eq_getElem?_getD, List.getElem?_eq_getElem hq]

theorem setAt_subset_map_populateUsedSet (q : Nat) :
    setAt ps q ⊆ setAt (ps.map (·.populateUsedSet ord f L)) q := by
  rcases Nat.lt_or_ge q ps.length with hq | hq
  · rw [setAt_map_populateUsedSet ord f L ps hq]; exact subset_populateUsedSet ord f L _
  · rw [setAt_of_le hq]; exact Finset.empty_subset _

theorem setAt_map_populateUsedSet_ne_empty (hwf : L.WellFormed f) {q : Nat} (hq : q < ps.length) :
    setAt (ps.map (·.populateUsedSet ord f L)) q ≠ ∅ := by
  obtain ⟨b, hb⟩ := List.exists_mem_of_ne_nil _ hwf.blocks_ne_nil
  obtain ⟨t, ht, -⟩ := hwf.terminator b hb
  rw [setAt_map_populateUsedSet ord f L ps hq]
  exact Finset.ne_empty_of_mem (terminator_mem_populateUsedSet ord f L _ hb (Option.mem_toList.1 ht))

end Populate

/-! ## Stores -/

theorem contains_of_mem_findDefsUsedOutsideOfLoop {L : Loop} {f : Func} {d : Nat}
    (hd : d ∈ findDefsUsedOutsideOfLoop f L) : L.contains f d = true := by
  simp only [findDefsUsedOutsideOfLoop, List.mem_flatMap, List.mem_filter] at hd
  obtain ⟨b, hb, hdb, -⟩ := hd
  exact List.any_eq_true.2 ⟨b, hb, decide_eq_true hdb⟩

theorem store_not_mem_findDefsUsedOutsideOfLoop {L : Loop} {f : Func} (hwf : L.WellFormed f)
    {x : Nat} (hx : f.isStore x = true) : x ∉ findDefsUsedOutsideOfLoop f L := by
  have : f.users (.inst x) = [] := List.filter_eq_nil_iff.2 fun u hu => by
    simpa using hwf.not_operand_of_store hu hx
  simp [findDefsUsedOutsideOfLoop, this]

theorem store_mem_populateUsedSet {ord : IterOrder} {L : Loop} {f : Func} (hwf : L.WellFormed f)
    {p : InstPartition} (hp : ∀ y ∈ p.set, L.contains f y = true) {x : Nat}
    (hx : f.isStore x = true) : x ∈ (p.populateUsedSet ord f L).set ↔ x ∈ p.set := by
  refine ⟨fun h => ?_, fun h => subset_populateUsedSet ord f L p h⟩
  rcases mem_populateUsedSet ord f L p h with h | ⟨b, hb, ht⟩ | ⟨-, u, hu, hxu⟩
  · exact h
  · obtain ⟨t, ht', hop⟩ := hwf.terminator b hb
    cases Option.mem_toList.1 ht' ▸ ht
    simp [Func.isStore] at hx; rcases hop with hop | hop <;> simp [hop] at hx
  · exact absurd hxu (hwf.not_operand_of_store
      (hwf.mem_allInsts (contains_of_mem_populateUsedSet ord f L p hp hu)) hx)

/-! ## The members of the partitions are instructions of the loop -/

theorem mem_seedStep {st st' : List InstPartition × BitVec 32} {e : Entry}
    (h : seedStep st e = .ok st') {q x : Nat} (hx : x ∈ setAt st'.1 q) :
    (∃ q', x ∈ setAt st.1 q') ∨ x = e.inst := by
  rw [seedStep_eq_ok h] at hx
  dsimp only at hx
  split_ifs at hx
  · obtain ⟨pos, -, -, hmem⟩ := addToCyclicPartition_spec st.1 e.inst
    exact ((hmem q x).1 hx).imp (fun h => ⟨q, h⟩) And.left
  · exact ((addToNewNonCyclicPartition_mem st.1 e.inst q x).1 hx).imp (fun h => ⟨q, h⟩) And.left

theorem mem_foldlM_seedStep {x : Nat} : ∀ (es : List Entry) (st r : List InstPartition × BitVec 32),
    es.foldlM seedStep st = .ok r → ∀ q, x ∈ setAt r.1 q →
      (∃ q', x ∈ setAt st.1 q') ∨ ∃ e ∈ es, e.inst = x
  | [], _, _, h, q, hx => by cases h; exact .inl ⟨q, hx⟩
  | e :: es, st, r, h, q, hx => by
    rw [List.foldlM_cons] at h
    obtain ⟨st₁, h₁, h⟩ := bind_eq_ok h
    rcases mem_foldlM_seedStep es st₁ r h q hx with ⟨q', hx'⟩ | ⟨e', he', rfl⟩
    · exact (mem_seedStep h₁ hx').imp id fun hxe => ⟨e, List.mem_cons_self _ _, hxe.symm⟩
    · exact .inr ⟨e', List.mem_cons_of_mem _ he', rfl⟩

theorem mem_seedPartitions {mid : List Entry} {ps : List InstPartition}
    (h : seedPartitions mid = .ok ps) {q x : Nat} (hx : x ∈ setAt ps q) : ∃ e ∈ mid, e.inst = x := by
  unfold seedPartitions at h
  cases hr : List.foldlM seedStep ([], 0) mid with
  | error e => rw [hr] at h; cases h
  | ok r =>
    rw [hr] at h
    cases Except.ok.inj h
    exact (mem_foldlM_seedStep mid _ r hr q hx).resolve_left fun ⟨q', h'⟩ => by simp at h'

theorem inst_mem_of_mem_memoryInstructionDependences {mi : List Nat} {deps : List Dependence}
    {e : Entry} (he : e ∈ memoryInstructionDependences mi deps) : e.inst ∈ mi := by
  obtain ⟨t, ht⟩ := List.mem_iff_getElem?.1 he
  rw [getElem?_memoryInstructionDependences] at ht
  obtain ⟨i, hi, rfl⟩ := Option.map_eq_some'.1 ht
  exact List.getElem?_mem hi

theorem contains_of_mem_mergeBeforePopulating {cfg : Config} {ord : IterOrder} {f : Func} {L : Loop}
    {bnp : Nat → Bool} {mi : List Nat} {deps : List Dependence} {seeded : List InstPartition}
    (hin : ∀ x ∈ mi, L.contains f x = true)
    (hs : seedPartitions (memoryInstructionDependences mi deps) = .ok seeded) {q y : Nat}
    (hy : y ∈ setAt (mergeBeforePopulating cfg ord f bnp
      (seeded ++ (findDefsUsedOutsideOfLoop f L).map fun d => ⟨{d}, false⟩)) q) :
    L.contains f y = true := by
  obtain ⟨g₁, hc₁⟩ := mergeBeforePopulating_coarsening cfg ord f bnp
    (seeded ++ (findDefsUsedOutsideOfLoop f L).map fun d => ⟨{d}, false⟩)
  obtain ⟨k, -, -, hyk⟩ := (hc₁.mem q (lt_length_of_mem_setAt hy) y).1 hy
  rw [setAt_append] at hyk
  split_ifs at hyk
  · obtain ⟨e, he, rfl⟩ := mem_seedPartitions hs hyk
    exact hin _ (inst_mem_of_mem_memoryInstructionDependences he)
  · obtain ⟨p, hp, hyp⟩ := exists_mem_of_mem_setAt hyk
    obtain ⟨d, hd, rfl⟩ := List.mem_map.1 hp
    rw [Finset.mem_singleton.1 hyp]
    exact contains_of_mem_findDefsUsedOutsideOfLoop hd

theorem contains_of_mem_formPartitions {cfg : Config} {ord : IterOrder} {f : Func} {L : Loop}
    {bnp : Nat → Bool} {mi : List Nat} {deps : List Dependence} {ps : List InstPartition}
    (hwf : L.WellFormed f) (hin : ∀ x ∈ mi, L.contains f x = true)
    (h : formPartitions cfg ord f L bnp mi deps = .ok (some ps)) {q x : Nat} (hx : x ∈ setAt ps q) :
    L.contains f x = true := by
  obtain ⟨seeded, merged, hs, hd, -⟩ := formPartitions_eq_some h
  rw [foldl_addToNewNonCyclicPartition] at hd
  set ps₃ := mergeBeforePopulating cfg ord f bnp
    (seeded ++ (findDefsUsedOutsideOfLoop f L).map fun d => (⟨{d}, false⟩ : InstPartition))
  obtain ⟨g₃, hc₃, -⟩ := mergeToAvoidDuplicatedLoads_coarsening ord f hd fun k hk =>
    setAt_map_populateUsedSet_ne_empty ord f L ps₃ hwf (List.length_map _ _ ▸ hk)
  obtain ⟨j, hj, -, hxj⟩ := (hc₃.mem q (lt_length_of_mem_setAt hx) x).1 hx
  rw [setAt_map_populateUsedSet ord f L ps₃ (List.length_map _ _ ▸ hj)] at hxj
  exact contains_of_mem_populateUsedSet ord f L _
    (fun y hy => contains_of_mem_mergeBeforePopulating hin hs hy) hxj

/-! ## Program order -/

/-- Access `i` of `mi` is in exactly one final partition, the one at `pi i`; `pi` is monotone; and
the two ends of every possibly-backward dependence share a partition. -/
structure FollowsProgramOrder (mi : List Nat) (deps : List Dependence) (ps : List InstPartition)
    (pi : Nat → Nat) : Prop where
  unique : ∀ i x, mi[i]? = some x → ∀ q, x ∈ setAt ps q ↔ q = pi i
  mono : ∀ i j, i ≤ j → j < mi.length → pi i ≤ pi j
  together : ∀ d ∈ deps, d.isPossiblyBackward = true → pi d.source = pi d.destination

theorem seedPos_source_eq_destination {deps : List Dependence} {d : Dependence} (hd : d ∈ deps)
    (hb : d.isPossiblyBackward = true) (hsd : d.source ≤ d.destination) :
    seedPos deps d.source = seedPos deps d.destination :=
  seedPos_eq_of_covered hsd fun t h1 h2 =>
    List.any_eq_true.2 ⟨d, hd, by simp [hb, h1, h2]⟩

/-- The partitioning pipeline keeps program order: with fewer than `2^32` possibly-backward
dependences, each from an earlier to a later access, every access is in one final partition,
partitions follow the order of the accesses, and no such dependence is split. -/
theorem formPartitions_followsProgramOrder {cfg : Config} {ord : IterOrder} {f : Func} {L : Loop}
    {bnp : Nat → Bool} {mi : List Nat} {deps : List Dependence} {ps : List InstPartition}
    (hwf : L.WellFormed f) (hmi : mi.Nodup) (hin : ∀ x ∈ mi, L.contains f x = true)
    (hls : ∀ x ∈ mi, f.isLoad x = true ∨ f.isStore x = true)
    (hsd : ∀ d ∈ deps, d.source < d.destination ∧ d.destination < mi.length)
    (hN : deps.countP (·.isPossiblyBackward) < 2 ^ 32)
    (h : formPartitions cfg ord f L bnp mi deps = .ok (some ps)) :
    ∃ pi, FollowsProgramOrder mi deps ps pi := by
  obtain ⟨seeded, merged, hs, hd, -⟩ := formPartitions_eq_some h
  obtain ⟨a, hinv⟩ := seedPartitions_inv (fun d hd => (hsd d hd).1) hN hs
  set tail : List InstPartition := (findDefsUsedOutsideOfLoop f L).map fun d => ⟨{d}, false⟩
  rw [foldl_addToNewNonCyclicPartition] at hd
  obtain ⟨g₁, hc₁⟩ := mergeBeforePopulating_coarsening cfg ord f bnp (seeded ++ tail)
  set ps₃ := mergeBeforePopulating cfg ord f bnp (seeded ++ tail)
  set ps₄ := ps₃.map (·.populateUsedSet ord f L)
  have hlen₄ : ps₄.length = ps₃.length := List.length_map _ _
  obtain ⟨g₃, hc₃, hlu⟩ := mergeToAvoidDuplicatedLoads_coarsening ord f hd
    fun k hk => setAt_map_populateUsedSet_ne_empty ord f L ps₃ hwf (hlen₄ ▸ hk)
  have hlen : seeded.length = seedCount deps mi.length := hinv.length
  -- every access is seeded at its `seedPos`, below the number of partitions
  have hpos : ∀ i < mi.length, seedPos deps i < seeded.length := fun i hi =>
    hlen ▸ seedPos_lt_seedCount deps hi
  have hpos' : ∀ i < mi.length, seedPos deps i < (seeded ++ tail).length := fun i hi =>
    List.length_append seeded tail ▸ Nat.lt_add_right _ (hpos i hi)
  refine ⟨fun i => g₃ (g₁ (seedPos deps i)), ⟨fun i x hx q => ?_, fun i j hij hj => ?_,
    fun d hd hb => ?_⟩⟩
  · have hi : i < mi.length := (List.getElem?_eq_some_iff.1 hx).1
    have hseed : x ∈ setAt (seeded ++ tail) (seedPos deps i) := by
      rw [setAt_append, if_pos (hpos i hi)]
      exact (hinv.mem _ x).2 ⟨i, hi, rfl, hx⟩
    have h₄ : x ∈ setAt ps₄ (g₁ (seedPos deps i)) :=
      setAt_subset_map_populateUsedSet ord f L ps₃ _ (hc₁.mem_of (hpos' i hi) hseed)
    have hj₀ : g₁ (seedPos deps i) < ps₄.length := hlen₄ ▸ hc₁.lt _ (hpos' i hi)
    refine hc₃.mem_iff_of_forall hj₀ h₄ (fun j hj hxj => ?_) q
    rcases hls x (List.getElem?_mem hx) with hl | hst
    · exact hlu x hl j _ hj hj₀ hxj h₄
    · -- a store is where its seeded partition went, and nowhere else
      have hnot : ∀ p ∈ tail, x ∉ p.set := by
        rintro p hp hxp
        obtain ⟨y, hy, rfl⟩ := List.mem_map.1 hp
        rw [Finset.mem_singleton.1 hxp] at hst
        exact store_not_mem_findDefsUsedOutsideOfLoop hwf hst hy
      have hj₃ : j < ps₃.length := hlen₄ ▸ hj
      rw [setAt_map_populateUsedSet ord f L ps₃ hj₃, store_mem_populateUsedSet hwf
        (fun _ hy => contains_of_mem_mergeBeforePopulating hin hs hy) hst] at hxj
      obtain ⟨k, -, rfl, hxk⟩ := (hc₁.mem j hj₃ x).1 hxj
      rw [mem_setAt_append_of_forall hnot, hinv.mem] at hxk
      obtain ⟨k', hk', rfl, hkx⟩ := hxk
      rw [List.getElem?_inj hk' hmi (hkx.trans hx.symm)]
  · exact hc₃.mono _ _ (hc₁.mono _ _ (seedPos_mono deps hij) (hpos' j hj))
      (hlen₄ ▸ hc₁.lt _ (hpos' j hj))
  · rw [seedPos_source_eq_destination hd hb (hsd d hd).1.le]

/-- A loop with the accesses `A[i] = a; r = B[i]; B[i] = r; C[i] = c` (ids 12 to 15), the header PHI
of `i` (11), its increment (16) and the latch branch (17). -/
def fourAccessFunc : Func where
  blocks := [0, 1, 2]
  body b := match b with | 0 => [10] | 1 => [11, 12, 13, 14, 15, 16, 17] | 2 => [18] | _ => []
  inst i := match i with
    | 10 => ⟨.br, [.block 1], [], [], []⟩
    | 11 => ⟨.phi, [.arg 0, .inst 16], [0, 1], [], []⟩
    | 12 => ⟨.store, [.arg 4, .arg 1, .inst 11], [], [], []⟩
    | 13 => ⟨.load, [.arg 2, .inst 11], [], [], []⟩
    | 14 => ⟨.store, [.inst 13, .arg 2, .inst 11], [], [], []⟩
    | 15 => ⟨.store, [.arg 5, .arg 3, .inst 11], [], [], []⟩
    | 16 => ⟨.other, [.inst 11], [], [], []⟩
    | 17 => ⟨.br, [.inst 16, .block 1, .block 2], [], [], []⟩
    | 18 => ⟨.term, [], [], [], []⟩
    | _ => default
  fresh := 19

/-- The loop of `fourAccessFunc`: its block 1. -/
def fourAccessLoop : Loop := ⟨[1]⟩

theorem formPartitions_followsProgramOrder_fourAccess :
    ∃ ps, formPartitions {} .ascending fourAccessFunc fourAccessLoop (fun _ => false)
      [12, 13, 14, 15] [⟨1, 2, true⟩] = .ok (some ps) ∧
      ∃ pi, FollowsProgramOrder [12, 13, 14, 15] [⟨1, 2, true⟩] ps pi :=
  ⟨_, rfl, @formPartitions_followsProgramOrder {} .ascending fourAccessFunc fourAccessLoop
    (fun _ => false) _ _ _ ⟨by decide, by decide, by decide, by decide⟩ (by decide) (by decide)
    (by decide) (by decide) (by decide) rfl⟩

/-! ## Counters that wrap -/

theorem memoryInstructionDependences_replicate (mi : List Nat) (d : Dependence)
    (ds : List Dependence) :
    memoryInstructionDependences mi (List.replicate (2 ^ 32) d ++ ds) =
      memoryInstructionDependences mi ds := by
  have hwrap : ∀ (c : Bool) (n : Nat),
      BitVec.ofNat 32 ((if c then 2 ^ 32 else 0) + n) = BitVec.ofNat 32 n := by
    intro c n; cases c <;> simp [BitVec.ofNat_add]
  apply List.ext_getElem?
  intro t
  rw [getElem?_memoryInstructionDependences, getElem?_memoryInstructionDependences]
  simp only [startCount, endCount, List.countP_append, List.countP_replicate]
  rw [hwrap, hwrap]

theorem formPartitions_congr {cfg : Config} {ord : IterOrder} {f : Func} {L : Loop}
    {bnp : Nat → Bool} {mi : List Nat} {deps deps' : List Dependence}
    (h : memoryInstructionDependences mi deps = memoryInstructionDependences mi deps') :
    formPartitions cfg ord f L bnp mi deps = formPartitions cfg ord f L bnp mi deps' := by
  unfold formPartitions; rw [h]

/-- `2^32` dependences from access 0 to access 3, then one from 1 to 2. -/
def wrappedDeps : List Dependence := List.replicate (2 ^ 32) ⟨0, 3, true⟩ ++ [⟨1, 2, true⟩]


/-- Without a bound on the number of dependences the partitions need not follow program order:
the `2^32` dependences from access 0 to access 3 wrap the counters to zero, and the pass splits
them between partitions 0 and 2. -/
theorem formPartitions_splits_wrapped_dependence :
    ¬ ∀ (cfg : Config) (ord : IterOrder) (f : Func) (L : Loop) (bnp : Nat → Bool) (mi : List Nat)
      (deps : List Dependence) (ps : List InstPartition), L.WellFormed f → mi.Nodup →
      (∀ x ∈ mi, L.contains f x = true) → (∀ x ∈ mi, f.isLoad x = true ∨ f.isStore x = true) →
      (∀ d ∈ deps, d.source < d.destination ∧ d.destination < mi.length) →
      formPartitions cfg ord f L bnp mi deps = .ok (some ps) →
      ∃ pi, FollowsProgramOrder mi deps ps pi := by
  intro H
  have hfwd : ∀ d ∈ wrappedDeps, d.source < d.destination ∧ d.destination < 4 := by
    intro d hd
    rcases List.mem_append.1 hd with h | h
    · rw [(List.mem_replicate.1 h).2]; decide
    · rw [List.mem_singleton.1 h]; decide
  obtain ⟨pi, hp⟩ := H {} .ascending fourAccessFunc fourAccessLoop (fun _ => false)
    [12, 13, 14, 15] wrappedDeps _ ⟨by decide, by decide, by decide, by decide⟩ (by decide)
    (by decide) (by decide) hfwd
    ((formPartitions_congr (memoryInstructionDependences_replicate _ _ _)).trans rfl)
  have h0 : 0 = pi 0 := (hp.unique 0 12 rfl 0).1 (by decide)
  have h3 : 2 = pi 3 := (hp.unique 3 15 rfl 2).1 (by decide)
  have h03 : pi 0 = pi 3 := hp.together ⟨0, 3, true⟩
    (List.mem_append_left _ (List.mem_replicate.2 ⟨by norm_num, rfl⟩)) rfl
  omega

/-! ## Values used outside the loop -/

/-- Every value used outside the loop ends in the last partition, the one `cloneLoops` leaves in
the original loop. -/
theorem defs_mem_setLast_formPartitions {cfg : Config} {ord : IterOrder} {f : Func} {L : Loop}
    {bnp : Nat → Bool} {mi : List Nat} {deps : List Dependence} {ps : List InstPartition}
    (hwf : L.WellFormed f) (h : formPartitions cfg ord f L bnp mi deps = .ok (some ps)) {d : Nat}
    (hd : d ∈ findDefsUsedOutsideOfLoop f L) : d ∈ setLast ps := by
  obtain ⟨seeded, merged, -, hdd, -⟩ := formPartitions_eq_some h
  rw [foldl_addToNewNonCyclicPartition] at hdd
  set ps₃ := mergeBeforePopulating cfg ord f bnp
    (seeded ++ (findDefsUsedOutsideOfLoop f L).map fun d => ⟨{d}, false⟩)
  have h₃ : d ∈ setLast ps₃ :=
    mem_setLast_mergeBeforePopulating cfg ord f bnp seeded (by simp) (List.mem_map_of_mem _ hd)
      (Finset.mem_singleton_self d)
  have hne : ps₃.map (·.populateUsedSet ord f L) ≠ [] := by
    rw [Ne, List.map_eq_nil_iff]; rintro h'; rw [h'] at h₃; simp [setLast] at h₃
  have h₄ : d ∈ setLast (ps₃.map (·.populateUsedSet ord f L)) := by
    rw [setLast, List.length_map]
    exact setAt_subset_map_populateUsedSet ord f L ps₃ _ h₃
  obtain ⟨g₃, hc₃, -⟩ := mergeToAvoidDuplicatedLoads_coarsening ord f hdd
    fun k hk => setAt_map_populateUsedSet_ne_empty ord f L ps₃ hwf (List.length_map _ _ ▸ hk)
  exact hc₃.mem_setLast hne h₄

/-! ## Closed partitions -/

theorem setAt_ne_empty_of_mergeToAvoidDuplicatedLoads {ord : IterOrder} {f : Func}
    {ps qs : List InstPartition} {merged : Bool}
    (h : mergeToAvoidDuplicatedLoads ord f ps = .ok (qs, merged))
    (hne : ∀ k < ps.length, setAt ps k ≠ ∅) {q : Nat} (hq : q < qs.length) : setAt qs q ≠ ∅ := by
  unfold mergeToAvoidDuplicatedLoads at h
  obtain ⟨⟨ltp, ec⟩, -, h⟩ := bind_eq_ok h
  dsimp only at h
  split at h
  · cases h; exact hne q hq
  · cases h
    rw [setAt, List.getD_eq_getElem?_getD, List.getElem?_eq_getElem hq]
    simpa using (List.mem_filter.1 (List.getElem_mem hq)).2

/-- Every final partition holds the terminator of every block of the loop and every loop
instruction that is an operand of one of its members. -/
theorem formPartitions_closed {cfg : Config} {ord : IterOrder} {f : Func} {L : Loop}
    {bnp : Nat → Bool} {mi : List Nat} {deps : List Dependence} {ps : List InstPartition}
    (hwf : L.WellFormed f) (h : formPartitions cfg ord f L bnp mi deps = .ok (some ps)) {q : Nat}
    (hq : q < ps.length) :
    (∀ b ∈ L.blocks, ∀ t, f.getTerminator b = some t → t ∈ setAt ps q) ∧ Closed f L (setAt ps q) := by
  obtain ⟨seeded, merged, -, hdd, -⟩ := formPartitions_eq_some h
  set ps₃ := mergeBeforePopulating cfg ord f bnp
    ((findDefsUsedOutsideOfLoop f L).foldl addToNewNonCyclicPartition seeded)
  have hne := fun k (hk : k < (ps₃.map (·.populateUsedSet ord f L)).length) =>
    setAt_map_populateUsedSet_ne_empty ord f L ps₃ hwf (List.length_map _ _ ▸ hk)
  obtain ⟨g₃, hc₃, -⟩ := mergeToAvoidDuplicatedLoads_coarsening ord f hdd hne
  -- the partitions sent to `q` are closures, and there is one
  have hpop : ∀ j < (ps₃.map (·.populateUsedSet ord f L)).length,
      setAt (ps₃.map (·.populateUsedSet ord f L)) j =
        ((ps₃.getD j default).populateUsedSet ord f L).set := fun j hj =>
    setAt_map_populateUsedSet ord f L ps₃ (List.length_map _ _ ▸ hj)
  obtain ⟨x, hx⟩ := Finset.nonempty_iff_ne_empty.2
    (setAt_ne_empty_of_mergeToAvoidDuplicatedLoads hdd hne hq)
  obtain ⟨j₀, hj₀, hgj₀, -⟩ := (hc₃.mem q hq x).1 hx
  refine ⟨fun b hb t ht => (hc₃.mem q hq t).2 ⟨j₀, hj₀, hgj₀, ?_⟩, fun y hy k hk hc => ?_⟩
  · rw [hpop j₀ hj₀]; exact terminator_mem_populateUsedSet ord f L _ hb ht
  · obtain ⟨j, hj, hgj, hyj⟩ := (hc₃.mem q hq y).1 hy
    rw [hpop j hj] at hyj
    refine (hc₃.mem q hq k).2 ⟨j, hj, hgj, ?_⟩
    rw [hpop j hj]
    exact closed_populateUsedSet ord f L _ y hyj k hk hc

/-! ## Each store in one partition -/

/-- `x` is in exactly one partition of `ps`. -/
def InOne (ps : List InstPartition) (x : Nat) : Prop :=
  ∃ q, x ∈ setAt ps q ∧ ∀ q', x ∈ setAt ps q' → q' = q

theorem Coarsening.inOne {ps qs : List InstPartition} {g : Nat → Nat} (hc : Coarsening ps qs g)
    {x : Nat} (h : InOne ps x) : InOne qs x := by
  obtain ⟨j, hj, hu⟩ := h
  refine ⟨g j, hc.mem_of (lt_length_of_mem_setAt hj) hj, fun q hq => ?_⟩
  obtain ⟨i, -, rfl, hxi⟩ := (hc.mem q (lt_length_of_mem_setAt hq) x).1 hq
  rw [hu i hxi]

theorem seedStep_mem_iff {st st' : List InstPartition × BitVec 32} {e : Entry}
    (h : seedStep st e = .ok st') :
    ∃ pos, ∀ q x, x ∈ setAt st'.1 q ↔ x ∈ setAt st.1 q ∨ (x = e.inst ∧ q = pos) := by
  rw [seedStep_eq_ok h]
  dsimp only
  split_ifs
  · obtain ⟨pos, -, -, hmem⟩ := addToCyclicPartition_spec st.1 e.inst
    exact ⟨pos, hmem⟩
  · exact ⟨_, addToNewNonCyclicPartition_mem st.1 e.inst⟩

theorem foldlM_seedStep_disjoint : ∀ (es : List Entry) (st r : List InstPartition × BitVec 32),
    es.foldlM seedStep st = .ok r → (es.map (·.inst)).Nodup →
    (∀ e ∈ es, ∀ q, e.inst ∉ setAt st.1 q) →
    (∀ x q q', x ∈ setAt st.1 q → x ∈ setAt st.1 q' → q = q') →
    (∀ x q, x ∈ setAt st.1 q → x ∈ setAt r.1 q) ∧ (∀ e ∈ es, ∃ q, e.inst ∈ setAt r.1 q) ∧
      ∀ x q q', x ∈ setAt r.1 q → x ∈ setAt r.1 q' → q = q'
  | [], st, r, h, _, _, hd => by
    cases h; exact ⟨fun _ _ h => h, fun _ h => absurd h (List.not_mem_nil _), hd⟩
  | e :: es, st, r, h, hnd, hnew, hd => by
    rw [List.foldlM_cons] at h
    obtain ⟨st₁, h₁, h⟩ := bind_eq_ok h
    obtain ⟨pos, hmem⟩ := seedStep_mem_iff h₁
    rw [List.map_cons, List.nodup_cons] at hnd
    have hnew₁ : ∀ e' ∈ es, ∀ q, e'.inst ∉ setAt st₁.1 q := fun e' he' q hq => by
      rcases (hmem q _).1 hq with hq | ⟨he, -⟩
      · exact hnew e' (List.mem_cons_of_mem _ he') q hq
      · exact hnd.1 (he ▸ List.mem_map_of_mem _ he')
    have hd₁ : ∀ x q q', x ∈ setAt st₁.1 q → x ∈ setAt st₁.1 q' → q = q' := fun x q q' hq hq' => by
      have hfresh : ∀ k, x = e.inst → x ∉ setAt st.1 k := fun k hx =>
        hx ▸ hnew e (List.mem_cons_self _ _) k
      rcases (hmem q x).1 hq with hq | ⟨hx, rfl⟩ <;> rcases (hmem q' x).1 hq' with hq' | ⟨hx', rfl⟩
      · exact hd x q q' hq hq'
      · exact absurd hq (hfresh q hx')
      · exact absurd hq' (hfresh q' hx)
      · rfl
    obtain ⟨hkeep, hplace, hdr⟩ := foldlM_seedStep_disjoint es st₁ r h hnd.2 hnew₁ hd₁
    refine ⟨fun x q hx => hkeep x q ((hmem q x).2 (.inl hx)), fun e' he' => ?_, hdr⟩
    rcases List.mem_cons.1 he' with rfl | he'
    · exact ⟨pos, hkeep _ _ ((hmem pos _).2 (.inr ⟨rfl, rfl⟩))⟩
    · exact hplace e' he'

theorem seedPartitions_inOne {mi : List Nat} {deps : List Dependence} {seeded : List InstPartition}
    (h : seedPartitions (memoryInstructionDependences mi deps) = .ok seeded) (hmi : mi.Nodup)
    {x : Nat} (hx : x ∈ mi) : InOne seeded x := by
  have hinst : (memoryInstructionDependences mi deps).map (·.inst) = mi :=
    List.ext_getElem? fun t => by
      rw [List.getElem?_map, getElem?_memoryInstructionDependences, Option.map_map]
      cases mi[t]? <;> rfl
  unfold seedPartitions at h
  cases hr : List.foldlM seedStep ([], 0) (memoryInstructionDependences mi deps) with
  | error e => rw [hr] at h; cases h
  | ok r =>
    rw [hr] at h
    cases Except.ok.inj h
    obtain ⟨-, hplace, hd⟩ := foldlM_seedStep_disjoint _ _ r hr (by rw [hinst]; exact hmi)
      (fun _ _ q => by simp) (fun _ q _ h => by simp at h)
    obtain ⟨e, he, rfl⟩ := List.mem_map.1 (show x ∈ (memoryInstructionDependences mi deps).map (·.inst)
      by rw [hinst]; exact hx)
    obtain ⟨q, hq⟩ := hplace e he
    exact ⟨q, hq, fun q' hq' => hd _ q' q hq' hq⟩

/-- With distinct memory instructions of the loop, each store among them is in exactly one final
partition: the seeding places it once, the values used outside the loop are no stores, merging keeps
it in one partition, and populating adds no store. -/
theorem formPartitions_store_inOne {cfg : Config} {ord : IterOrder} {f : Func} {L : Loop}
    {bnp : Nat → Bool} {mi : List Nat} {deps : List Dependence} {ps : List InstPartition}
    (hwf : L.WellFormed f) (hmi : mi.Nodup) (hin : ∀ x ∈ mi, L.contains f x = true)
    (h : formPartitions cfg ord f L bnp mi deps = .ok (some ps)) {x : Nat} (hx : x ∈ mi)
    (hs : f.isStore x = true) : InOne ps x := by
  obtain ⟨seeded, merged, hsd, hdd, -⟩ := formPartitions_eq_some h
  rw [foldl_addToNewNonCyclicPartition] at hdd
  set tail : List InstPartition := (findDefsUsedOutsideOfLoop f L).map fun d => ⟨{d}, false⟩
  set ps₃ := mergeBeforePopulating cfg ord f bnp (seeded ++ tail)
  obtain ⟨g₁, hc₁⟩ := mergeBeforePopulating_coarsening cfg ord f bnp (seeded ++ tail)
  have htail : ∀ p ∈ tail, x ∉ p.set := fun p hp hxp => by
    obtain ⟨d, hd, rfl⟩ := List.mem_map.1 hp
    rw [Finset.mem_singleton.1 hxp] at hs
    exact store_not_mem_findDefsUsedOutsideOfLoop hwf hs hd
  obtain ⟨q, hq, hu⟩ := hc₁.inOne (show InOne (seeded ++ tail) x by
    obtain ⟨q, hq, hu⟩ := seedPartitions_inOne hsd hmi hx
    exact ⟨q, (mem_setAt_append_of_forall htail q).2 hq,
      fun q' hq' => hu q' ((mem_setAt_append_of_forall htail q').1 hq')⟩)
  -- populating adds no store
  have hpop : ∀ k, x ∈ setAt (ps₃.map (·.populateUsedSet ord f L)) k ↔ x ∈ setAt ps₃ k := fun k => by
    rcases Nat.lt_or_ge k ps₃.length with hk | hk
    · rw [setAt_map_populateUsedSet ord f L ps₃ hk]
      exact store_mem_populateUsedSet hwf (fun y hy => contains_of_mem_mergeBeforePopulating hin hsd
        (show y ∈ setAt ps₃ k from hy)) hs
    · rw [setAt_of_le hk, setAt_of_le (by simpa using hk)]
  obtain ⟨g₃, hc₃, -⟩ := mergeToAvoidDuplicatedLoads_coarsening ord f hdd fun k hk =>
    setAt_map_populateUsedSet_ne_empty ord f L ps₃ hwf (List.length_map _ _ ▸ hk)
  exact hc₃.inOne ⟨q, (hpop q).2 hq, fun q' hq' => hu q' ((hpop q').1 hq')⟩

theorem formPartitions_store_inOne_fourAccess :
    ∃ ps, formPartitions {} .ascending fourAccessFunc fourAccessLoop (fun _ => false)
      [12, 13, 14, 15] [⟨1, 2, true⟩] = .ok (some ps) ∧ fourAccessFunc.isStore 14 = true ∧
      InOne ps 14 := by
  obtain ⟨ps, h⟩ : ∃ ps, formPartitions {} .ascending fourAccessFunc fourAccessLoop (fun _ => false)
      [12, 13, 14, 15] [⟨1, 2, true⟩] = .ok (some ps) := ⟨_, rfl⟩
  exact ⟨ps, h, rfl, formPartitions_store_inOne ⟨by decide, by decide, by decide, by decide⟩
    (by decide) (by decide) h (by decide) rfl⟩

/-- With distinct memory instructions, each load among them is in exactly one final partition:
the seeding places it, and whatever partitions the values used outside the loop and populating
add it to, `mergeToAvoidDuplicatedLoads` unites with the one it was seeded in. -/
theorem formPartitions_load_inOne {cfg : Config} {ord : IterOrder} {f : Func} {L : Loop}
    {bnp : Nat → Bool} {mi : List Nat} {deps : List Dependence} {ps : List InstPartition}
    (hwf : L.WellFormed f) (hmi : mi.Nodup)
    (h : formPartitions cfg ord f L bnp mi deps = .ok (some ps)) {x : Nat} (hx : x ∈ mi)
    (hl : f.isLoad x = true) : InOne ps x := by
  obtain ⟨seeded, merged, hsd, hdd, -⟩ := formPartitions_eq_some h
  rw [foldl_addToNewNonCyclicPartition] at hdd
  set tail : List InstPartition := (findDefsUsedOutsideOfLoop f L).map fun d => ⟨{d}, false⟩
  set ps₃ := mergeBeforePopulating cfg ord f bnp (seeded ++ tail)
  obtain ⟨g₁, hc₁⟩ := mergeBeforePopulating_coarsening cfg ord f bnp (seeded ++ tail)
  obtain ⟨g₃, hc₃, hu⟩ := mergeToAvoidDuplicatedLoads_coarsening ord f hdd fun k hk =>
    setAt_map_populateUsedSet_ne_empty ord f L ps₃ hwf (List.length_map _ _ ▸ hk)
  -- the partition the load is seeded in, followed to the end
  obtain ⟨q, hq, -⟩ := seedPartitions_inOne hsd hmi hx
  have hq' : x ∈ setAt (seeded ++ tail) q := by
    rwa [setAt_append, if_pos (lt_length_of_mem_setAt hq)]
  have h₃ := setAt_subset_map_populateUsedSet ord f L ps₃ _
    (hc₁.mem_of (lt_length_of_mem_setAt hq') hq')
  refine ⟨g₃ (g₁ q), hc₃.mem_of (lt_length_of_mem_setAt h₃) h₃, fun q' hxq' => ?_⟩
  -- every populated partition holding the load goes where that one goes
  obtain ⟨i, hi, rfl, hxi⟩ := (hc₃.mem q' (lt_length_of_mem_setAt hxq') x).1 hxq'
  exact hu x hl i _ hi (lt_length_of_mem_setAt h₃) hxi h₃

theorem formPartitions_load_inOne_fourAccess :
    ∃ ps, formPartitions {} .ascending fourAccessFunc fourAccessLoop (fun _ => false)
      [12, 13, 14, 15] [⟨1, 2, true⟩] = .ok (some ps) ∧ fourAccessFunc.isLoad 13 = true ∧
      InOne ps 13 := by
  obtain ⟨ps, h⟩ : ∃ ps, formPartitions {} .ascending fourAccessFunc fourAccessLoop (fun _ => false)
      [12, 13, 14, 15] [⟨1, 2, true⟩] = .ok (some ps) := ⟨_, rfl⟩
  exact ⟨ps, h, rfl, formPartitions_load_inOne ⟨by decide, by decide, by decide, by decide⟩
    (by decide) h (by decide) rfl⟩

end Llvm.LoopDistribute
