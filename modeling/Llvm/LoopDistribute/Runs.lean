import Llvm.LoopDistribute.Pipeline

/-!
# Maximal runs: the merges before populating

The loop of `mergeAdjacentPartitionsIf` (`mergeRun`) tests each partition once, as it was on
entry, and either merges it into the partition the current run started with or ends the run there;
the partition that ended a run is tested again by the outer loop. `mergeMaximalRuns` states the
result run by run: each maximal run of consecutive partitions that satisfy the predicate becomes
one partition, the union of the run's sets, cyclic when one of them is (`unionRun`); the other
partitions stay as they are.

* `mergeAdjacentPartitionsIf_merges_runs` : the loop computes the runs; no two neighbours of its
  result satisfy the predicate (`chain_mergeMaximalRuns`), so a second pass changes nothing, for
  every predicate;
* `noAdjacentCyclic_seedPartitions` : the seeding never puts two cyclic partitions side by side;
* `mergeBeforePopulating_alternates` : after `mergeAdjacentNonCyclic` and `mergeNonIfConvertible`,
  cyclic and acyclic partitions come in turn, and once two or more are left no acyclic partition
  has only stores in blocks that need predication.
-/

namespace Llvm.LoopDistribute

/-- The partition a run of partitions becomes: the union of their sets, cyclic when one of them
is. -/
def unionRun (run : List InstPartition) : InstPartition :=
  ⟨run.foldr (fun p s => p.set ∪ s) ∅, run.any (·.depCycle)⟩

@[simp] theorem unionRun_singleton (p : InstPartition) : unionRun [p] = p := by
  cases p; simp [unionRun]

theorem unionRun_cons (p : InstPartition) (run : List InstPartition) :
    unionRun (p :: run) = ⟨p.set ∪ (unionRun run).set, p.depCycle || (unionRun run).depCycle⟩ :=
  rfl

/-- What `mergeAdjacentPartitionsIf` is for: each maximal run of consecutive partitions that
satisfy `pred` becomes the union of the run; every other partition stays, in order. -/
def mergeMaximalRuns (pred : InstPartition → Bool) : List InstPartition → List InstPartition
  | [] => []
  | p :: ps =>
    if pred p then unionRun (p :: ps.takeWhile pred) :: mergeMaximalRuns pred (ps.dropWhile pred)
    else p :: mergeMaximalRuns pred ps
termination_by ps => ps.length
decreasing_by
  all_goals simp_wf
  exact Nat.lt_succ_of_le (List.dropWhile_suffix pred).length_le

section Runs

variable (pred : InstPartition → Bool)

@[simp] theorem mergeMaximalRuns_nil : mergeMaximalRuns pred [] = [] := by
  rw [mergeMaximalRuns]

theorem mergeMaximalRuns_cons (p : InstPartition) (ps : List InstPartition) :
    mergeMaximalRuns pred (p :: ps) =
      if pred p then unionRun (p :: ps.takeWhile pred) :: mergeMaximalRuns pred (ps.dropWhile pred)
      else p :: mergeMaximalRuns pred ps := by
  rw [mergeMaximalRuns]

/-- The inner loop, merging into `a`, takes the rest of the run and hands what follows to the outer
loop. -/
theorem mergeRun_some (a : InstPartition) : ∀ ps : List InstPartition,
    mergeRun pred (some a) ps =
      unionRun (a :: ps.takeWhile pred) :: mergeRun pred none (ps.dropWhile pred)
  | [] => by simp [mergeRun]
  | p :: ps => by
    by_cases hp : pred p
    · rw [mergeRun, if_pos hp, mergeRun_some _ ps, List.takeWhile_cons_of_pos hp,
        List.dropWhile_cons_of_pos hp, unionRun_cons, unionRun_cons, unionRun_cons]
      simp only [InstPartition.moveTo, Finset.union_assoc, Bool.or_assoc]
    · rw [mergeRun, if_neg hp, List.takeWhile_cons_of_neg hp, List.dropWhile_cons_of_neg hp,
        unionRun_singleton, mergeRun, if_neg hp]

theorem mergeRun_none_eq (ps : List InstPartition) :
    mergeRun pred none ps = mergeMaximalRuns pred ps := by
  induction ps using mergeMaximalRuns.induct pred with
  | case1 => rw [mergeMaximalRuns_nil]; rfl
  | case2 p ps hp ih => rw [mergeMaximalRuns_cons, if_pos hp, ← ih, mergeRun, if_pos hp, mergeRun_some]
  | case3 p ps hp ih => rw [mergeMaximalRuns_cons, if_neg hp, ← ih, mergeRun, if_neg hp]

/-- The loop leaves a list alone when no two neighbours satisfy the predicate. -/
theorem mergeRun_none_of_chain : ∀ ps : List InstPartition,
    ps.Chain' (fun p q => ¬(pred p ∧ pred q)) → mergeRun pred none ps = ps
  | [], _ => rfl
  | [p], _ => by by_cases hp : pred p <;> simp [mergeRun, hp]
  | p :: q :: ps, h => by
    have ih := mergeRun_none_of_chain (q :: ps) h.tail
    by_cases hp : pred p
    · have hq : ¬pred q := fun hq => (List.chain'_cons.1 h).1 ⟨hp, hq⟩
      rw [mergeRun, if_neg hq] at ih
      rw [mergeRun, if_pos hp, mergeRun, if_neg hq, (List.cons.inj ih).2]
    · rw [mergeRun, if_neg hp, ih]

theorem head?_mergeMaximalRuns (p : InstPartition) (ps : List InstPartition) :
    (mergeMaximalRuns pred (p :: ps)).head? =
      some (if pred p then unionRun (p :: ps.takeWhile pred) else p) := by
  rw [mergeMaximalRuns_cons]; split_ifs <;> rfl

/-- Every pair of neighbours of the result holds a partition that does not satisfy the predicate:
a merged run is followed by the partition that ended it. -/
theorem chain_mergeMaximalRuns (ps : List InstPartition) :
    (mergeMaximalRuns pred ps).Chain' fun p q => ¬(pred p ∧ pred q) := by
  induction ps using mergeMaximalRuns.induct pred with
  | case1 => rw [mergeMaximalRuns_nil]; exact List.chain'_nil
  | case2 p ps hp ih =>
    rw [mergeMaximalRuns_cons, if_pos hp, List.chain'_cons']
    refine ⟨fun y hy => ?_, ih⟩
    cases hd : ps.dropWhile pred with
    | nil => rw [hd, mergeMaximalRuns_nil] at hy; cases hy
    | cons q r =>
      have hq : pred q = false := by
        simpa [hd] using List.head_dropWhile_not pred ps (by simp [hd])
      rw [hd, head?_mergeMaximalRuns, if_neg (by simp [hq])] at hy
      cases hy; simp [hq]
  | case3 p ps hp ih =>
    rw [mergeMaximalRuns_cons, if_neg hp, List.chain'_cons']
    exact ⟨fun y _ h => hp h.1, ih⟩

theorem not_pred_head?_dropWhile {ps : List InstPartition} {q : InstPartition}
    (hq : q ∈ (ps.dropWhile pred).head?) : pred q = false := by
  have hne : ps.dropWhile pred ≠ [] := fun h => by simp [h] at hq
  rw [List.head?_eq_head hne, Option.mem_some_iff] at hq
  simpa [← hq] using List.head_dropWhile_not pred ps hne

theorem length_mergeMaximalRuns_le (ps : List InstPartition) :
    (mergeMaximalRuns pred ps).length ≤ ps.length := by
  induction ps using mergeMaximalRuns.induct pred with
  | case1 => simp
  | case2 p ps hp ih =>
    rw [mergeMaximalRuns_cons, if_pos hp, List.length_cons, List.length_cons]
    exact Nat.succ_le_succ (ih.trans (List.dropWhile_suffix pred).length_le)
  | case3 p ps hp ih => simpa [mergeMaximalRuns_cons, hp] using ih

end Runs

/-- `mergeAdjacentPartitionsIf` replaces each maximal run of partitions that satisfy the predicate,
tested on the partitions as they were on entry, by the union of the run, and keeps the others; a
second run changes nothing. -/
theorem mergeAdjacentPartitionsIf_merges_runs (pred : InstPartition → Bool)
    (ps : List InstPartition) :
    mergeAdjacentPartitionsIf pred ps = mergeMaximalRuns pred ps ∧
      mergeAdjacentPartitionsIf pred (mergeAdjacentPartitionsIf pred ps) =
        mergeAdjacentPartitionsIf pred ps := by
  have h := mergeRun_none_eq pred ps
  refine ⟨h, ?_⟩
  unfold mergeAdjacentPartitionsIf
  rw [h, mergeRun_none_of_chain pred _ (chain_mergeMaximalRuns pred ps)]

/-! ## Cyclic and acyclic partitions in turn -/

/-- What follows a run keeps a property of neighbours. -/
theorem chain_dropWhile {R : InstPartition → InstPartition → Prop} (pred : InstPartition → Bool) :
    ∀ {l : List InstPartition}, l.Chain' R → (l.dropWhile pred).Chain' R
  | [], h => h
  | p :: l, h => by
    by_cases hp : pred p
    · rw [List.dropWhile_cons_of_pos hp]; exact chain_dropWhile pred h.tail
    · rwa [List.dropWhile_cons_of_neg hp]

theorem depCycle_unionRun_of_forall {run : List InstPartition} (h : ∀ q ∈ run, q.depCycle = false) :
    (unionRun run).depCycle = false := by
  simpa [unionRun] using h

theorem depCycle_unionRun_of_mem {run : List InstPartition} {q : InstPartition} (hq : q ∈ run)
    (hc : q.depCycle = true) : (unionRun run).depCycle = true :=
  List.any_eq_true.2 ⟨q, hq, hc⟩

/-- Merging the runs of acyclic partitions of a list with no two cyclic neighbours leaves cyclic and
acyclic partitions in turn. -/
theorem alternates_mergeMaximalRuns_acyclic (ps : List InstPartition)
    (h : ps.Chain' fun p q => ¬(p.depCycle = true ∧ q.depCycle = true)) :
    (mergeMaximalRuns (fun p => !p.depCycle) ps).Chain' fun p q => p.depCycle ≠ q.depCycle := by
  induction ps using mergeMaximalRuns.induct (fun p => !p.depCycle) with
  | case1 => rw [mergeMaximalRuns_nil]; exact List.chain'_nil
  | case2 p ps hp ih =>
    have hU : (unionRun (p :: ps.takeWhile fun p => !p.depCycle)).depCycle = false :=
      depCycle_unionRun_of_forall fun q hq => by
        rcases List.mem_cons.1 hq with rfl | hq
        · simpa using hp
        · simpa using List.mem_takeWhile_imp hq
    rw [mergeMaximalRuns_cons, if_pos hp, List.chain'_cons']
    refine ⟨fun y hy => ?_, ih (chain_dropWhile _ h.tail)⟩
    cases hd : ps.dropWhile (fun p => !p.depCycle) with
    | nil => rw [hd, mergeMaximalRuns_nil] at hy; cases hy
    | cons q r =>
      have hq := not_pred_head?_dropWhile _ (by rw [hd]; rfl : q ∈ (ps.dropWhile _).head?)
      rw [hd, head?_mergeMaximalRuns, if_neg (by simp_all)] at hy
      cases hy; simp_all
  | case3 p ps hp ih =>
    have hpc : p.depCycle = true := by simpa using hp
    rw [mergeMaximalRuns_cons, if_neg hp, List.chain'_cons']
    refine ⟨fun y hy => ?_, ih h.tail⟩
    cases ps with
    | nil => rw [mergeMaximalRuns_nil] at hy; cases hy
    | cons q r =>
      have hq : q.depCycle = false := by simpa [hpc] using (List.chain'_cons.1 h).1
      rw [head?_mergeMaximalRuns, if_pos (by simp [hq])] at hy
      cases hy
      rw [hpc, depCycle_unionRun_of_forall fun q' hq' => ?_]
      · decide
      · rcases List.mem_cons.1 hq' with rfl | hq'
        · exact hq
        · simpa using List.mem_takeWhile_imp hq'

/-- Merging runs for a predicate that every cyclic partition satisfies keeps cyclic and acyclic
partitions in turn; and every acyclic partition left fails the predicate, unless the list starts
with an acyclic partition that satisfies it and nothing follows. -/
theorem alternates_mergeMaximalRuns (pred : InstPartition → Bool)
    (hcyc : ∀ p, p.depCycle = true → pred p = true) (ps : List InstPartition)
    (h : ps.Chain' fun p q => p.depCycle ≠ q.depCycle) :
    (mergeMaximalRuns pred ps).Chain' (fun p q => p.depCycle ≠ q.depCycle) ∧
      ((∀ p ∈ ps.head?, pred p = true → p.depCycle = true ∨ 2 ≤ ps.length) →
        ∀ r ∈ mergeMaximalRuns pred ps, r.depCycle = false → pred r = false) := by
  induction ps using mergeMaximalRuns.induct pred with
  | case1 => simp
  | case2 p ps hp ih =>
    obtain ⟨ih₁, ih₂⟩ := ih (chain_dropWhile _ h.tail)
    -- the run is cyclic as soon as something follows `p`: it is then cyclic, or `p` is
    have hU : p.depCycle = true ∨ ps ≠ [] → (unionRun (p :: ps.takeWhile pred)).depCycle = true := by
      intro hor
      by_cases hc : p.depCycle = true
      · exact depCycle_unionRun_of_mem (List.mem_cons_self _ _) hc
      obtain ⟨q, r, rfl⟩ := List.exists_cons_of_ne_nil (hor.resolve_left hc)
      have hq : q.depCycle = true := by simpa [hc] using (List.chain'_cons.1 h).1
      refine depCycle_unionRun_of_mem (List.mem_cons_of_mem _ ?_) hq
      rw [List.takeWhile_cons_of_pos (hcyc q hq)]
      exact List.mem_cons_self _ _
    rw [mergeMaximalRuns_cons, if_pos hp]
    refine ⟨List.chain'_cons'.2 ⟨fun y hy => ?_, ih₁⟩, fun hhead r hr hrc => ?_⟩
    · cases hd : ps.dropWhile pred with
      | nil => rw [hd, mergeMaximalRuns_nil] at hy; cases hy
      | cons q r =>
        have hq := not_pred_head?_dropWhile pred (by rw [hd]; rfl : q ∈ (ps.dropWhile pred).head?)
        have hqc : q.depCycle = false := by
          by_contra hc; simp [hcyc q (by simpa using hc)] at hq
        have hne : ps ≠ [] := fun h0 => by simp [h0] at hd
        rw [hd, head?_mergeMaximalRuns, if_neg (by simp [hq])] at hy
        cases hy
        rw [hU (.inr hne), hqc]; decide
    · rcases List.mem_cons.1 hr with rfl | hr
      · have := hU ((hhead p rfl hp).imp_right fun h2 => List.ne_nil_of_length_pos (by simp at h2; omega))
        simp [this] at hrc
      · exact ih₂ (fun q hq hpq => by simp [not_pred_head?_dropWhile pred hq] at hpq) r hr hrc
  | case3 p ps hp ih =>
    have hpc : p.depCycle = false := by
      by_contra hc; exact hp (hcyc p (by simpa using hc))
    obtain ⟨ih₁, ih₂⟩ := ih h.tail
    -- the partition after `p` is cyclic
    have hnext : ∀ q ∈ ps.head?, q.depCycle = true := fun q hq => by
      simpa [hpc] using (List.chain'_cons'.1 h).1 q hq
    rw [mergeMaximalRuns_cons, if_neg hp]
    refine ⟨List.chain'_cons'.2 ⟨fun y hy => ?_, ih₁⟩, fun _ r hr hrc => ?_⟩
    · cases ps with
      | nil => rw [mergeMaximalRuns_nil] at hy; cases hy
      | cons q r =>
        have hq := hnext q rfl
        rw [head?_mergeMaximalRuns, if_pos (hcyc q hq)] at hy
        cases hy
        rw [hpc, depCycle_unionRun_of_mem (List.mem_cons_self _ _) hq]; decide
    · rcases List.mem_cons.1 hr with rfl | hr
      · simpa using hp
      · exact ih₂ (fun q hq _ => .inl (hnext q hq)) r hr hrc

/-! ## After the seeding -/

theorem chain_of_forall_acyclic :
    ∀ {l : List InstPartition}, (∀ p ∈ l, p.depCycle = false) →
      l.Chain' fun p q => ¬(p.depCycle = true ∧ q.depCycle = true)
  | [], _ => List.chain'_nil
  | [p], _ => List.chain'_singleton p
  | p :: q :: l, h => List.chain'_cons.2 ⟨by simp [h p (List.mem_cons_self _ _)],
      chain_of_forall_acyclic fun r hr => h r (List.mem_cons_of_mem _ hr)⟩

theorem chain_addToCyclicPartition (ps : List InstPartition) (i : Nat)
    (h : ps.Chain' fun p q => ¬(p.depCycle = true ∧ q.depCycle = true)) :
    (addToCyclicPartition ps i).Chain' fun p q => ¬(p.depCycle = true ∧ q.depCycle = true) := by
  rcases List.eq_nil_or_concat ps with rfl | ⟨init, p, rfl⟩
  · simp [addToCyclicPartition]
  rw [List.concat_eq_append] at h ⊢
  have h' := List.chain'_append.1 h
  by_cases hc : p.depCycle = true
  · have he : addToCyclicPartition (init ++ [p]) i = init ++ [p.add i] := by
      simp [addToCyclicPartition, hc]
    rw [he, List.chain'_append]
    exact ⟨h'.1, List.chain'_singleton _, fun x hx y hy => by
      cases Option.mem_some_iff.1 hy; exact h'.2.2 x hx p rfl⟩
  · have he : addToCyclicPartition (init ++ [p]) i = init ++ [p] ++ [⟨{i}, true⟩] := by
      simp [addToCyclicPartition, hc]
    rw [he, List.chain'_append]
    refine ⟨h, List.chain'_singleton _, fun x hx y _ => ?_⟩
    have hxp : p = x := by simpa using hx
    subst hxp; simp [hc]

/-- The seeding loop never puts two cyclic partitions next to each other: a covered access joins
the last partition when that one is cyclic. -/
theorem noAdjacentCyclic_seedPartitions {es : List Entry} {ps : List InstPartition}
    (h : seedPartitions es = .ok ps) :
    ps.Chain' fun p q => ¬(p.depCycle = true ∧ q.depCycle = true) := by
  have key : ∀ (es : List Entry) (st : List InstPartition × BitVec 32) r,
      es.foldlM seedStep st = .ok r →
      st.1.Chain' (fun p q => ¬(p.depCycle = true ∧ q.depCycle = true)) →
      r.1.Chain' fun p q => ¬(p.depCycle = true ∧ q.depCycle = true) := by
    intro es
    induction es with
    | nil => intro st r h hc; cases h; exact hc
    | cons e es ih =>
      intro st r h hc
      rw [List.foldlM_cons] at h
      obtain ⟨st', h1, h2⟩ := bind_eq_ok h
      refine ih st' r h2 ?_
      rw [seedStep_eq_ok h1]
      split_ifs
      · exact chain_addToCyclicPartition _ _ hc
      · exact List.chain'_append.2 ⟨hc, List.chain'_singleton _, fun _ _ y hy => by
          cases Option.mem_some_iff.1 hy; simp⟩
  unfold seedPartitions at h
  cases hr : es.foldlM seedStep ([], 0) with
  | error e => rw [hr] at h; cases h
  | ok r => rw [hr] at h; rw [← Except.ok.inj h]; exact key es _ r hr List.chain'_nil

/-- The predicate of `mergeNonIfConvertible` on an acyclic partition: it holds a store, and every
store it holds is in a block that needs predication. -/
theorem allStoresConditional_eq_true (f : Func) (bnp : Nat → Bool) :
    ∀ (l : List Nat) (seen : Bool), allStoresConditional f bnp l seen = true ↔
      (seen = true ∨ ∃ i ∈ l, f.isStore i = true) ∧
        ∀ i ∈ l, f.isStore i = true → (f.getParent i).any bnp = true
  | [], seen => by simp [allStoresConditional]
  | i :: is, seen => by
    rw [allStoresConditional]
    by_cases hs : f.isStore i = true
    · by_cases hp : (f.getParent i).any bnp = true
      · rw [if_pos hs, if_pos hp, allStoresConditional_eq_true f bnp is true]
        simp [hs, hp]
      · simp [hs, hp]
    · rw [if_neg hs, allStoresConditional_eq_true f bnp is seen]
      simp [hs]

/-- What the merges before populating leave: cyclic and acyclic partitions in turn; and, when the
non-if-convertible partitions are merged (`checkStores`) and two or more partitions are left, no
acyclic partition that holds a store while all its stores are in blocks needing predication. -/
structure MergedBeforePopulating (f : Func) (bnp : Nat → Bool) (checkStores : Bool)
    (ps : List InstPartition) : Prop where
  alternates : ps.Chain' fun p q => p.depCycle ≠ q.depCycle
  ifConvertible : checkStores = true → 2 ≤ ps.length → ∀ p ∈ ps, p.depCycle = false →
    ¬((∃ i ∈ p.set, f.isStore i = true) ∧
      ∀ i ∈ p.set, f.isStore i = true → (f.getParent i).any bnp = true)

/-- The partitions the seeding phase produces are, after `mergeBeforePopulating`, as
`MergedBeforePopulating` says, the stores checked unless `DistributeNonIfConvertible` is set. -/
theorem mergeBeforePopulating_alternates (cfg : Config) (ord : IterOrder) (f : Func) (L : Loop)
    (bnp : Nat → Bool) {mi : List Nat} {deps : List Dependence} {seeded : List InstPartition}
    (hs : seedPartitions (memoryInstructionDependences mi deps) = .ok seeded) :
    MergedBeforePopulating f bnp (!cfg.distributeNonIfConvertible) (mergeBeforePopulating cfg ord f
      bnp ((findDefsUsedOutsideOfLoop f L).foldl addToNewNonCyclicPartition seeded)) := by
  -- the seeded partitions, then one acyclic partition per value used outside the loop
  have h₀ : ((findDefsUsedOutsideOfLoop f L).foldl addToNewNonCyclicPartition seeded).Chain'
      fun p q => ¬(p.depCycle = true ∧ q.depCycle = true) := by
    rw [foldl_addToNewNonCyclicPartition]
    refine List.chain'_append.2 ⟨noAdjacentCyclic_seedPartitions hs,
      chain_of_forall_acyclic (by simp), fun _ _ y hy => ?_⟩
    obtain ⟨d, -, rfl⟩ : ∃ d ∈ findDefsUsedOutsideOfLoop f L, ⟨{d}, false⟩ = y := by
      simpa using List.mem_of_mem_head? hy
    simp
  have h₁ : (mergeAdjacentNonCyclic ((findDefsUsedOutsideOfLoop f L).foldl
      addToNewNonCyclicPartition seeded)).Chain' fun p q => p.depCycle ≠ q.depCycle := by
    rw [mergeAdjacentNonCyclic, mergeAdjacentPartitionsIf, mergeRun_none_eq]
    exact alternates_mergeMaximalRuns_acyclic _ h₀
  unfold mergeBeforePopulating
  cases hcfg : cfg.distributeNonIfConvertible
  · simp only [Bool.not_false, if_true, mergeNonIfConvertible, mergeAdjacentPartitionsIf,
      mergeRun_none_eq]
    obtain ⟨ha, hb⟩ := alternates_mergeMaximalRuns
      (fun p => p.depCycle || allStoresConditional f bnp (ord.enum p.set) false)
      (fun p hp => by simp [hp]) _ h₁
    refine ⟨ha, fun _ h2 r hr hrc hst => ?_⟩
    have hlen := (length_mergeMaximalRuns_le _ _).trans' h2
    have hr' := hb (fun _ _ _ => .inr hlen) r hr hrc
    rw [hrc, Bool.false_or, ← Bool.not_eq_true, allStoresConditional_eq_true] at hr'
    simp only [IterOrder.mem_enum, ord.mem_enum] at hr'
    exact hr' ⟨.inr hst.1, hst.2⟩
  · exact ⟨h₁, fun h => absurd h (by simp)⟩

theorem mergeBeforePopulating_alternates_fourAccess :
    ∃ seeded, seedPartitions (memoryInstructionDependences [12, 13, 14, 15] [⟨1, 2, true⟩]) =
      .ok seeded ∧ MergedBeforePopulating fourAccessFunc (fun _ => false) true
        (mergeBeforePopulating {} .ascending fourAccessFunc (fun _ => false)
          ((findDefsUsedOutsideOfLoop fourAccessFunc fourAccessLoop).foldl
            addToNewNonCyclicPartition seeded)) :=
  ⟨_, rfl, @mergeBeforePopulating_alternates {} .ascending fourAccessFunc fourAccessLoop
    (fun _ => false) [12, 13, 14, 15] [⟨1, 2, true⟩] _ rfl⟩

end Llvm.LoopDistribute
