import Llvm.LoopDistribute.Partition

/-!
# Merging consecutive partitions

Every merge stage of the pass replaces consecutive partitions by their union and keeps the order.
`Coarsening ps qs g` says so with the position map `g`: the partition at position `i` of `ps` ends up
in the one at position `g i` of `qs`, `g` is monotone and the last position goes to the last one.

* `Coarsening.refl`, `Coarsening.trans`, `Coarsening.mem_of` : the relation and its use;
* `mergeRun_coarsening` : `mergeAdjacentPartitionsIf` is one;
* `mem_last_mergeRun` : a trailing run of partitions that satisfy the predicate ends up in the last
  partition.
-/

namespace Llvm.LoopDistribute

/-- The instructions of the partition at position `j` (none past the end). -/
def setAt (ps : List InstPartition) (j : Nat) : Finset Nat := (ps.getD j default).set

@[simp] theorem setAt_cons_zero (p : InstPartition) (ps : List InstPartition) :
    setAt (p :: ps) 0 = p.set := rfl

@[simp] theorem setAt_cons_succ (p : InstPartition) (ps : List InstPartition) (j : Nat) :
    setAt (p :: ps) (j + 1) = setAt ps j := rfl

theorem setAt_of_le {ps : List InstPartition} {j : Nat} (h : ps.length ≤ j) : setAt ps j = ∅ := by
  rw [setAt, List.getD_eq_getElem?_getD, List.getElem?_eq_none h]; rfl

@[simp] theorem setAt_nil (j : Nat) : setAt [] j = ∅ := setAt_of_le (Nat.zero_le j)

theorem exists_mem_of_mem_setAt {ps : List InstPartition} {j x : Nat} (hx : x ∈ setAt ps j) :
    ∃ p ∈ ps, x ∈ p.set := by
  rcases Nat.lt_or_ge j ps.length with hj | hj
  · rw [setAt, List.getD_eq_getElem?_getD, List.getElem?_eq_getElem hj] at hx
    exact ⟨_, List.getElem_mem hj, hx⟩
  · rw [setAt_of_le hj] at hx; simp at hx

theorem lt_length_of_mem_setAt {ps : List InstPartition} {j x : Nat} (hx : x ∈ setAt ps j) :
    j < ps.length := by
  by_contra hn; rw [setAt_of_le (by omega)] at hx; simp at hx

/-- `qs` merges consecutive runs of `ps`: position `i` of `ps` lands at position `g i` of `qs`, which
holds exactly what the positions sent there held. -/
structure Coarsening (ps qs : List InstPartition) (g : Nat → Nat) : Prop where
  mono : ∀ i j, i ≤ j → j < ps.length → g i ≤ g j
  lt : ∀ i < ps.length, g i < qs.length
  mem : ∀ j < qs.length, ∀ x, x ∈ setAt qs j ↔ ∃ i < ps.length, g i = j ∧ x ∈ setAt ps i
  nil : ps = [] → qs = []
  last : ps ≠ [] → g (ps.length - 1) = qs.length - 1

namespace Coarsening

variable {ps qs rs : List InstPartition} {g h : Nat → Nat}

theorem refl (ps : List InstPartition) : Coarsening ps ps id where
  mono _ _ hij _ := hij
  lt _ hi := hi
  mem j hj x := ⟨fun hx => ⟨j, hj, rfl, hx⟩, by rintro ⟨i, -, rfl, hx⟩; exact hx⟩
  nil := id
  last _ := rfl

theorem trans (h₁ : Coarsening ps qs g) (h₂ : Coarsening qs rs h) : Coarsening ps rs (h ∘ g) where
  mono i j hij hj := h₂.mono _ _ (h₁.mono i j hij hj) (h₁.lt j hj)
  lt i hi := h₂.lt _ (h₁.lt i hi)
  mem k hk x := by
    rw [h₂.mem k hk x]
    constructor
    · rintro ⟨j, hj, rfl, hxj⟩
      obtain ⟨i, hi, rfl, hxi⟩ := (h₁.mem j hj x).1 hxj
      exact ⟨i, hi, rfl, hxi⟩
    · rintro ⟨i, hi, rfl, hx⟩
      exact ⟨g i, h₁.lt i hi, rfl, (h₁.mem _ (h₁.lt i hi) x).2 ⟨i, hi, rfl, hx⟩⟩
  nil hp := h₂.nil (h₁.nil hp)
  last hne := by
    have hq : qs ≠ [] := fun hq => by
      have := h₁.lt 0 (List.length_pos.2 hne); simp [hq] at this
    simp only [Function.comp, h₁.last hne, h₂.last hq]

theorem mem_of (hc : Coarsening ps qs g) {i x : Nat} (hi : i < ps.length) (hx : x ∈ setAt ps i) :
    x ∈ setAt qs (g i) :=
  (hc.mem _ (hc.lt i hi) x).2 ⟨i, hi, rfl, hx⟩

/-- An instruction whose partitions all go to one position is in that position only. -/
theorem mem_iff_of_forall (hc : Coarsening ps qs g) {j₀ x : Nat} (hj₀ : j₀ < ps.length)
    (hx : x ∈ setAt ps j₀) (hall : ∀ j < ps.length, x ∈ setAt ps j → g j = g j₀) (q : Nat) :
    x ∈ setAt qs q ↔ q = g j₀ := by
  constructor
  · intro hq
    obtain ⟨j, hj, rfl, hxj⟩ := (hc.mem q (lt_length_of_mem_setAt hq) x).1 hq
    exact hall j hj hxj
  · rintro rfl; exact hc.mem_of hj₀ hx

/-- The position map when a partition is kept in front. -/
def consMap (g : Nat → Nat) : Nat → Nat
  | 0 => 0
  | i + 1 => g i + 1

/-- The position map when the first two partitions are merged. -/
def absorbMap (g : Nat → Nat) : Nat → Nat
  | 0 => g 0
  | i + 1 => g i

theorem cons (hc : Coarsening ps qs g) (p : InstPartition) :
    Coarsening (p :: ps) (p :: qs) (consMap g) where
  mono i j hij hj := by
    match i, j with
    | 0, _ => exact Nat.zero_le _
    | i + 1, j + 1 =>
      simpa [consMap] using hc.mono i j (by omega) (by simpa using hj)
  lt i hi := by
    match i with
    | 0 => simp [consMap]
    | i + 1 => simpa [consMap] using hc.lt i (by simpa using hi)
  mem j hj x := by
    match j with
    | 0 =>
      refine ⟨fun hx => ⟨0, by simp, rfl, hx⟩, ?_⟩
      rintro ⟨i, -, hi, hx⟩
      cases i with
      | zero => exact hx
      | succ i => simp [consMap] at hi
    | j + 1 =>
      simp only [setAt_cons_succ, hc.mem j (by simpa using hj) x, List.length_cons]
      constructor
      · rintro ⟨i, hi, rfl, hx⟩; exact ⟨i + 1, by omega, rfl, hx⟩
      · rintro ⟨i, hi, hgi, hx⟩
        cases i with
        | zero => simp [consMap] at hgi
        | succ i => exact ⟨i, by omega, by simpa [consMap] using hgi, hx⟩
  nil h := by simp at h
  last _ := by
    rcases ps with _ | ⟨q, ps⟩
    · simp [hc.nil rfl, consMap]
    · have := hc.last (List.cons_ne_nil q ps)
      have := hc.lt 0 (by simp)
      simp only [List.length_cons, Nat.add_sub_cancel, consMap] at *
      omega

theorem absorb {a p : InstPartition} (hc : Coarsening ((p.moveTo a).2 :: ps) qs g) :
    Coarsening (a :: p :: ps) qs (absorbMap g) where
  mono i j hij hj := by
    match i, j with
    | 0, 0 => exact le_rfl
    | 0, j + 1 => exact hc.mono 0 j (Nat.zero_le _) (by simpa using hj)
    | i + 1, j + 1 => exact hc.mono i j (by omega) (by simpa using hj)
  lt i hi := by
    match i with
    | 0 => exact hc.lt 0 (by simp)
    | i + 1 => exact hc.lt i (by simpa using hi)
  mem k hk x := by
    rw [hc.mem k hk x]
    constructor
    · rintro ⟨i, hi, rfl, hx⟩
      cases i with
      | zero =>
        simp only [setAt_cons_zero, InstPartition.moveTo, Finset.mem_union] at hx
        rcases hx with hx | hx
        · exact ⟨0, by simp, rfl, hx⟩
        · exact ⟨1, by simp, rfl, hx⟩
      | succ i => exact ⟨i + 2, by simpa using hi, rfl, hx⟩
    · rintro ⟨i, hi, rfl, hx⟩
      match i with
      | 0 => exact ⟨0, by simp, rfl, Finset.mem_union_left p.set hx⟩
      | 1 => exact ⟨0, by simp, rfl, Finset.mem_union_right a.set hx⟩
      | i + 2 => exact ⟨i + 1, by simpa using hi, rfl, hx⟩
  nil h := by simp at h
  last _ := by simpa [absorbMap] using hc.last (List.cons_ne_nil _ ps)

end Coarsening

/-- `mergeAdjacentPartitionsIf` merges consecutive runs; the partition the inner loop is merging
into counts as the first of the input. -/
theorem mergeRun_coarsening (pred : InstPartition → Bool) (ps : List InstPartition) :
    ∀ acc : Option InstPartition, ∃ g, Coarsening (acc.toList ++ ps) (mergeRun pred acc ps) g := by
  induction ps with
  | nil =>
    rintro (_ | first)
    · exact ⟨id, by simpa [mergeRun] using Coarsening.refl []⟩
    · exact ⟨id, by simpa [mergeRun] using Coarsening.refl [first]⟩
  | cons p ps ih =>
    rintro (_ | first)
    · by_cases hp : pred p
      · obtain ⟨g, hg⟩ := ih (some p)
        exact ⟨g, by simpa [mergeRun, hp] using hg⟩
      · obtain ⟨g, hg⟩ := ih none
        exact ⟨_, by simpa [mergeRun, hp] using hg.cons p⟩
    · by_cases hp : pred p
      · obtain ⟨g, hg⟩ := ih (some (p.moveTo first).2)
        exact ⟨_, by simpa [mergeRun, hp] using hg.absorb⟩
      · obtain ⟨g, hg⟩ := ih none
        exact ⟨_, by simpa [mergeRun, hp] using (hg.cons p).cons first⟩

theorem mergeAdjacentPartitionsIf_coarsening (pred : InstPartition → Bool)
    (ps : List InstPartition) : ∃ g, Coarsening ps (mergeAdjacentPartitionsIf pred ps) g := by
  simpa using mergeRun_coarsening pred ps none


/-! ## The last partition -/

/-- The instructions of the last partition. -/
def setLast (ps : List InstPartition) : Finset Nat := setAt ps (ps.length - 1)

theorem setLast_cons {p : InstPartition} {ps : List InstPartition} (h : ps ≠ []) :
    setLast (p :: ps) = setLast ps := by
  obtain ⟨q, qs, rfl⟩ := List.exists_cons_of_ne_nil h
  rfl

theorem Coarsening.mem_setLast {ps qs : List InstPartition} {g : Nat → Nat}
    (hc : Coarsening ps qs g) (hne : ps ≠ []) {x : Nat} (hx : x ∈ setLast ps) : x ∈ setLast qs := by
  have := hc.mem_of (Nat.sub_lt (List.length_pos.2 hne) Nat.one_pos) hx
  rwa [hc.last hne] at this

theorem mergeRun_ne_nil (pred : InstPartition → Bool) (ps : List InstPartition) :
    ∀ acc : Option InstPartition, acc.toList ++ ps ≠ [] → mergeRun pred acc ps ≠ [] := by
  induction ps with
  | nil => rintro (_ | _) h <;> simp_all [mergeRun]
  | cons p ps ih =>
    rintro (_ | first) -
    · by_cases hp : pred p
      · simpa [mergeRun, hp] using ih (some p) (by simp)
      · simp [mergeRun, hp]
    · by_cases hp : pred p
      · simpa [mergeRun, hp] using ih (some (p.moveTo first).2) (by simp)
      · simp [mergeRun, hp]

/-- When every partition satisfies the predicate, the inner loop merges them all. -/
theorem mergeRun_some_of_forall (pred : InstPartition → Bool) (ps : List InstPartition)
    (hps : ∀ p ∈ ps, pred p) :
    ∀ a, ∃ q, mergeRun pred (some a) ps = [q] ∧ a.set ⊆ q.set ∧ ∀ p ∈ ps, p.set ⊆ q.set := by
  induction ps with
  | nil => exact fun a => ⟨a, rfl, subset_rfl, by simp⟩
  | cons p ps ih =>
    intro a
    obtain ⟨q, hq, haq, hpq⟩ := ih (fun r hr => hps r (List.mem_cons_of_mem p hr)) (p.moveTo a).2
    refine ⟨q, by simp [mergeRun, hps p (List.mem_cons_self p ps), hq], ?_, ?_⟩
    · exact Finset.subset_union_left.trans haq
    · rintro r (_ | ⟨_, hr⟩)
      · exact Finset.subset_union_right.trans haq
      · exact hpq r hr

/-- A trailing run of partitions that satisfy the predicate ends up in the last partition. -/
theorem mem_setLast_mergeRun (pred : InstPartition → Bool) {tail : List InstPartition}
    (htail : ∀ p ∈ tail, pred p) {x : Nat} {p : InstPartition} (hp : p ∈ tail) (hx : x ∈ p.set) :
    ∀ (front : List InstPartition) (acc : Option InstPartition),
      x ∈ setLast (mergeRun pred acc (front ++ tail)) := by
  intro front
  induction front with
  | nil =>
    rintro (_ | a)
    · obtain ⟨p₀, tail', rfl⟩ := List.exists_cons_of_ne_nil (List.ne_nil_of_mem hp)
      have h₀ := htail p₀ (List.mem_cons_self _ _)
      obtain ⟨q, hq, h₀q, hq'⟩ := mergeRun_some_of_forall pred tail'
        (fun r hr => htail r (List.mem_cons_of_mem _ hr)) p₀
      simp only [List.nil_append, mergeRun, h₀, if_true, hq]
      rcases List.mem_cons.1 hp with rfl | hp'
      · exact h₀q hx
      · exact hq' p hp' hx
    · obtain ⟨q, hq, -, hq'⟩ := mergeRun_some_of_forall pred tail htail a
      simpa [hq, setLast] using hq' p hp hx
  | cons r front ih =>
    have hne : mergeRun pred none (front ++ tail) ≠ [] :=
      mergeRun_ne_nil pred _ none (by simpa using fun _ => List.ne_nil_of_mem hp)
    rintro (_ | a)
    · by_cases hr : pred r
      · simpa [mergeRun, hr] using ih (some r)
      · simpa [mergeRun, hr, setLast_cons hne] using ih none
    · by_cases hr : pred r
      · simpa [mergeRun, hr] using ih (some (r.moveTo a).2)
      · rw [List.cons_append, mergeRun, if_neg hr, setLast_cons (List.cons_ne_nil _ _),
          setLast_cons hne]
        exact ih none

end Llvm.LoopDistribute
