import Llvm.LoopDistribute.Distribute
import Llvm.LoopDistribute.Seeding

/-!
# Which partition a checked pointer belongs to

`setupPartitionIdOnInstructions` maps an instruction to the index of the one final partition that
holds it, to `-1` when several do, and has no entry for one in none
(`setupPartitionIdOnInstructions_apply`, read off the partitions holding the instruction in
order). The loop of `computePartitionSetForPointers` over the instructions of one access starts
from `-2`, takes the first instruction's entry, and falls to `-1` at the first disagreement,
breaking there.

* `partitionOfAccess_eq` : from a value other than `-2`, the loop returns it when every entry agrees
  with it, and `-1` otherwise; the loop without its `break` returns the same
  (`partitionOfAccessNoBreak_eq`);
* `partitionOfAccess_ne_neg_two` : on a non-empty list of instructions the loop never ends on
  `-2`, so the assertion holds at every such pointer;
* `computePartitionSetForPointers_partition` : a pointer whose instructions are all in final
  partitions gets the partition holding all of them and only them, or `-1` when there is none; the
  turn at the pointer appends that value, and the function returns when every pointer has
  instructions.
-/

namespace Llvm.LoopDistribute

/-- The loop of `computePartitionSetForPointers` as the spec describes it, without the `break` once
the pointer is known to be in several partitions. -/
def partitionOfAccessNoBreak (ids : Nat → Option Int) : List Nat → Int → Int
  | [], part => part
  | i :: is, part =>
    let this := (ids i).getD 0
    if part = -2 then partitionOfAccessNoBreak ids is this
    else if part ≠ this then partitionOfAccessNoBreak ids is (-1)
    else partitionOfAccessNoBreak ids is part

/-! ## The partition ids -/

/-- The inner loop of `setupPartitionIdOnInstructions` over one partition's instructions. -/
theorem foldl_update_partitionId (id : Int) : ∀ (l : List Nat) (m : Nat → Option Int), l.Nodup →
    ∀ x, (l.foldl (fun m i => Function.update m i (some (if (m i).isSome then -1 else id))) m) x =
      if x ∈ l then some (if (m x).isSome then -1 else id) else m x
  | [], _, _, _ => rfl
  | i :: l, m, hnd, x => by
    rw [List.nodup_cons] at hnd
    rw [List.foldl_cons, foldl_update_partitionId id l _ hnd.2]
    by_cases hx : x = i
    · subst hx; simp [hnd.1]
    · simp [hx, Function.update_noteq hx]

/-- The entry of one id: its value after the partitions are visited in order. -/
def partitionIdStep (v : Option Int) (q : Nat) : Option Int := some (if v.isSome then -1 else q)

/-- The entry of `x`: the partitions that hold it, visited in order from no entry. -/
theorem setupPartitionIdOnInstructions_apply (ord : IterOrder) (ps : List InstPartition) (x : Nat) :
    setupPartitionIdOnInstructions ord ps x =
      ((List.range ps.length).filter fun q => x ∈ setAt ps q).foldl partitionIdStep none := by
  induction ps using List.reverseRecOn with
  | nil => rfl
  | append_singleton init p ih =>
    have hfilter : ((List.range init.length).filter fun q => x ∈ setAt (init ++ [p]) q) =
        (List.range init.length).filter fun q => x ∈ setAt init q :=
      List.filter_congr fun q hq => by
        rw [setAt_concat, if_neg (List.mem_range.1 hq).ne]
    unfold setupPartitionIdOnInstructions at ih ⊢
    dsimp only at ih ⊢
    rw [List.enum_append, List.foldl_append, List.length_append, List.length_singleton,
      List.range_succ, List.filter_append, hfilter, List.foldl_append, ← ih]
    simp only [List.enumFrom_singleton, List.foldl_cons, List.foldl_nil]
    rw [foldl_update_partitionId _ _ _ (ord.nodup_enum _)]
    by_cases hx : x ∈ p.set <;> simp [hx, ord.mem_enum, setAt_concat, partitionIdStep]

theorem foldl_partitionIdStep_some (v : Int) :
    ∀ l : List Nat, l.foldl partitionIdStep (some v) = if l = [] then some v else some (-1)
  | [] => rfl
  | q :: l => by
    rw [List.foldl_cons, partitionIdStep, Option.isSome_some, if_pos rfl,
      foldl_partitionIdStep_some (-1) l]
    simp

/-- An instruction in some final partition has the entry `p` when `p` is the only partition holding
it, and `-1` otherwise. -/
theorem partitionId_of_mem (ord : IterOrder) (ps : List InstPartition) {x : Nat}
    (hx : ∃ q, x ∈ setAt ps q) :
    ∃ v, setupPartitionIdOnInstructions ord ps x = some v ∧
      (∀ p : Nat, v = p ↔ ∀ q, x ∈ setAt ps q ↔ q = p) ∧
      (v = -1 ↔ ¬∃ p : Nat, ∀ q, x ∈ setAt ps q ↔ q = p) := by
  rw [setupPartitionIdOnInstructions_apply]
  set J := (List.range ps.length).filter fun q => x ∈ setAt ps q with hJ
  have hmem : ∀ q, q ∈ J ↔ x ∈ setAt ps q := fun q => by
    simp only [hJ, List.mem_filter, List.mem_range, decide_eq_true_eq, and_iff_right_iff_imp]
    exact fun h => lt_length_of_mem_setAt h
  have hnd : J.Nodup := (List.nodup_range _).filter _
  -- `x` is in `p` only exactly when `J = [p]`
  have honly : ∀ p : Nat, (∀ q, x ∈ setAt ps q ↔ q = p) ↔ J = [p] := fun p => by
    rw [← List.perm_singleton, List.perm_ext_iff_of_nodup hnd (List.nodup_singleton p)]
    simp only [hmem, List.mem_singleton]
  obtain ⟨q₀, hq₀⟩ := hx
  obtain ⟨q, l, hql⟩ := List.exists_cons_of_ne_nil (List.ne_nil_of_mem ((hmem q₀).2 hq₀))
  rw [hql, List.foldl_cons, partitionIdStep, Option.isSome_none, if_neg (by simp),
    foldl_partitionIdStep_some]
  simp_rw [honly, hql]
  split_ifs with hl
  · subst hl
    refine ⟨q, rfl, fun p => by simp, ?_⟩
    simp only [List.cons.injEq, and_true, not_exists]
    constructor
    · intro h; omega
    · intro h; exact absurd rfl (h q)
  · refine ⟨-1, rfl, fun p => ?_, by simp [hl]⟩
    simp only [List.cons.injEq, hl, and_false, iff_false]
    omega

/-- No entry reads as `-2`: an instruction has a partition's index, `-1`, or no entry, read as
`0`. -/
theorem partitionId_getD_ne (ord : IterOrder) (ps : List InstPartition) (x : Nat) :
    (setupPartitionIdOnInstructions ord ps x).getD 0 ≠ -2 := by
  rw [setupPartitionIdOnInstructions_apply]
  generalize (List.range ps.length).filter (fun q => x ∈ setAt ps q) = J
  cases J with
  | nil => decide
  | cons q l =>
    rw [List.foldl_cons, partitionIdStep, Option.isSome_none, if_neg (by simp),
      foldl_partitionIdStep_some]
    split_ifs <;> simp only [Option.getD_some] <;> omega

/-! ## The loop over an access's instructions -/

/-- Started on a value other than `-2`, the loop keeps it while every entry agrees, and ends on `-1`
at the first disagreement or when started on `-1`. -/
theorem partitionOfAccess_eq (ids : Nat → Option Int) :
    ∀ (is : List Nat) (part : Int), part ≠ -2 → partitionOfAccess ids is part =
      if part ≠ -1 ∧ ∀ i ∈ is, (ids i).getD 0 = part then part else -1
  | [], part, _ => by by_cases h : part = -1 <;> simp [partitionOfAccess, h]
  | i :: is, part, h2 => by
    rw [partitionOfAccess, if_neg h2]
    by_cases h1 : part = -1
    · simp [h1]
    rw [if_neg h1]
    by_cases he : part = (ids i).getD 0
    · rw [if_neg (by simpa using he), partitionOfAccess_eq ids is part h2]
      simp [he]
    · rw [if_pos he, partitionOfAccess_eq ids is (-1) (by decide)]
      simp [Ne.symm he]

/-- Without the `break`, the loop started on `-1` stays there: `-1` differs from every other entry,
and on an entry `-1` it is kept. -/
theorem partitionOfAccessNoBreak_neg_one (ids : Nat → Option Int) :
    ∀ is : List Nat, partitionOfAccessNoBreak ids is (-1) = -1
  | [] => rfl
  | i :: is => by
    rw [partitionOfAccessNoBreak, if_neg (by decide)]
    split_ifs <;> exact partitionOfAccessNoBreak_neg_one ids is

/-- The `break` on `-1` changes nothing. -/
theorem partitionOfAccessNoBreak_eq (ids : Nat → Option Int) :
    ∀ (is : List Nat) (part : Int), partitionOfAccessNoBreak ids is part = partitionOfAccess ids is part
  | [], _ => rfl
  | i :: is, part => by
    rw [partitionOfAccessNoBreak, partitionOfAccess]
    by_cases h2 : part = -2
    · rw [if_pos h2, if_pos h2, partitionOfAccessNoBreak_eq ids is]
    by_cases h1 : part = -1
    · subst h1
      rw [if_neg h2, if_neg h2, if_pos rfl]
      split_ifs <;> exact partitionOfAccessNoBreak_neg_one ids is
    · rw [if_neg h2, if_neg h2, if_neg h1]
      split_ifs <;> exact partitionOfAccessNoBreak_eq ids is _

/-- On a non-empty list of instructions the loop never ends on `-2`, so the assertion holds. -/
theorem partitionOfAccess_ne_neg_two (ord : IterOrder) (ps : List InstPartition) {is : List Nat}
    (hne : is ≠ []) : partitionOfAccess (setupPartitionIdOnInstructions ord ps) is (-2) ≠ -2 := by
  obtain ⟨x, xs, rfl⟩ := List.exists_cons_of_ne_nil hne
  have hx2 := partitionId_getD_ne ord ps x
  rw [partitionOfAccess, if_pos rfl, partitionOfAccess_eq _ xs _ hx2]
  split_ifs
  · exact hx2
  · decide

/-! ## The entry of each pointer -/

theorem mapM_ok_of_forall {α β ε : Type} {g : α → Except ε β} :
    ∀ {l : List α}, (∀ a ∈ l, ∃ b, g a = .ok b) → ∃ r, l.mapM g = .ok r
  | [], _ => ⟨[], rfl⟩
  | a :: l, h => by
    obtain ⟨b, hb⟩ := h a (List.mem_cons_self _ _)
    obtain ⟨r, hr⟩ := mapM_ok_of_forall fun a' ha' => h a' (List.mem_cons_of_mem _ ha')
    exact ⟨b :: r, by rw [List.mapM_cons, hb, hr]; rfl⟩

/-- A `mapM` that returns gives each element's image at its index. -/
theorem mapM_ok_getElem? {α β ε : Type} {g : α → Except ε β} :
    ∀ {l : List α} {r : List β}, l.mapM g = .ok r →
      ∀ {I : Nat} {a : α}, l[I]? = some a → ∃ b, g a = .ok b ∧ r[I]? = some b
  | [], _, _, _, _, hI => by simp at hI
  | a :: l, r, h, I, a', hI => by
    rw [List.mapM_cons] at h
    obtain ⟨b, hb, h⟩ := bind_eq_ok h
    obtain ⟨bs, hbs, h⟩ := bind_eq_ok h
    cases h
    cases I with
    | zero =>
      simp only [List.getElem?_cons_zero, Option.some.injEq] at hI
      subst hI; exact ⟨b, hb, by simp⟩
    | succ I =>
      obtain ⟨c, hc, hr⟩ := mapM_ok_getElem? hbs (by simpa using hI)
      exact ⟨c, hc, by simpa using hr⟩

/-- The turn of `computePartitionSetForPointers` at pointer `I`: when the loop over its
instructions does not end on `-2`, the assertion holds and the loop's value is appended. -/
theorem computePartitionSetForPointers_take_succ {ids : Nat → Option Int}
    {pointers : List (Value × Bool)} {instructionsForAccess : Value → Bool → List Nat} {I : Nat}
    {ptr : Value} {isWrite : Bool} (hI : pointers[I]? = some (ptr, isWrite))
    (h2 : partitionOfAccess ids (instructionsForAccess ptr isWrite) (-2) ≠ -2) :
    computePartitionSetForPointers ids (pointers.take (I + 1)) instructionsForAccess =
      (· ++ [partitionOfAccess ids (instructionsForAccess ptr isWrite) (-2)]) <$>
        computePartitionSetForPointers ids (pointers.take I) instructionsForAccess := by
  unfold computePartitionSetForPointers
  rw [List.take_succ, hI, Option.toList_some, List.mapM_append, List.mapM_cons, List.mapM_nil]
  simp only [if_neg h2]
  exact bind_pure_comp _ _

/-- **The partition of a checked pointer.** A pointer whose instructions are all in final
partitions gets the partition that holds all of them and no other, or `-1` when there is none.
The turn of `computePartitionSetForPointers` at the pointer passes the assertion and appends that
value; the function returns when every pointer has instructions, and then, as whenever it returns,
gives the pointer that value. The loop without its `break` on `-1` gives the same. -/
theorem computePartitionSetForPointers_partition (ord : IterOrder) (ps : List InstPartition)
    (pointers : List (Value × Bool)) (instructionsForAccess : Value → Bool → List Nat) {I : Nat}
    {ptr : Value} {isWrite : Bool} (hI : pointers[I]? = some (ptr, isWrite))
    (hne : instructionsForAccess ptr isWrite ≠ [])
    (hin : ∀ x ∈ instructionsForAccess ptr isWrite, ∃ q, x ∈ setAt ps q) :
    ∃ part, partitionOfAccess (setupPartitionIdOnInstructions ord ps)
        (instructionsForAccess ptr isWrite) (-2) = part ∧
      computePartitionSetForPointers (setupPartitionIdOnInstructions ord ps) (pointers.take (I + 1))
          instructionsForAccess =
        (· ++ [part]) <$> computePartitionSetForPointers (setupPartitionIdOnInstructions ord ps)
          (pointers.take I) instructionsForAccess ∧
      (∀ ptrs, computePartitionSetForPointers (setupPartitionIdOnInstructions ord ps) pointers
        instructionsForAccess = .ok ptrs → ptrs[I]? = some part) ∧
      ((∀ q ∈ pointers, instructionsForAccess q.1 q.2 ≠ []) → ∃ ptrs,
        computePartitionSetForPointers (setupPartitionIdOnInstructions ord ps) pointers
          instructionsForAccess = .ok ptrs ∧ ptrs[I]? = some part) ∧
      part ≠ -2 ∧
      (∀ p : Nat, part = p ↔
        ∀ x ∈ instructionsForAccess ptr isWrite, ∀ q, x ∈ setAt ps q ↔ q = p) ∧
      (part = -1 ↔ ¬∃ p : Nat, ∀ x ∈ instructionsForAccess ptr isWrite, ∀ q, x ∈ setAt ps q ↔ q = p) ∧
      partitionOfAccessNoBreak (setupPartitionIdOnInstructions ord ps)
        (instructionsForAccess ptr isWrite) (-2) = part := by
  set ids := setupPartitionIdOnInstructions ord ps
  set is := instructionsForAccess ptr isWrite
  have h2 := partitionOfAccess_ne_neg_two ord ps hne
  -- the entry of each instruction: its only partition, or `-1`
  have hent : ∀ y ∈ is, (∀ p : Nat, (ids y).getD 0 = p ↔ ∀ q, y ∈ setAt ps q ↔ q = p) ∧
      ((ids y).getD 0 = -1 ↔ ¬∃ p : Nat, ∀ q, y ∈ setAt ps q ↔ q = p) := fun y hy => by
    obtain ⟨v, hv, hvp, hvm⟩ := partitionId_of_mem ord ps (hin y hy)
    rw [show ids y = some v from hv, Option.getD_some]
    exact ⟨hvp, hvm⟩
  have hnat : ∀ y ∈ is, (ids y).getD 0 ≠ -1 → ∃ p : Nat, (ids y).getD 0 = p := fun y hy h1 => by
    obtain ⟨p, hp⟩ := not_not.1 (mt (hent y hy).2.2 h1)
    exact ⟨p, ((hent y hy).1 p).2 hp⟩
  obtain ⟨x, xs, hx⟩ := List.exists_cons_of_ne_nil hne
  have hpart : partitionOfAccess ids is (-2) = if (ids x).getD 0 ≠ -1 ∧
      ∀ i ∈ xs, (ids i).getD 0 = (ids x).getD 0 then (ids x).getD 0 else -1 := by
    rw [hx, partitionOfAccess, if_pos rfl, partitionOfAccess_eq ids xs _ (partitionId_getD_ne ord ps x)]
  -- all entries are `p` exactly when the entries agree and are not `-1`
  have hall : ∀ p : Nat, (∀ y ∈ is, ∀ q, y ∈ setAt ps q ↔ q = p) ↔
      (ids x).getD 0 = p ∧ ∀ i ∈ xs, (ids i).getD 0 = (ids x).getD 0 := fun p => by
    constructor
    · intro h
      have hxp := ((hent x (by simp [hx])).1 p).2 (h x (by simp [hx]))
      exact ⟨hxp, fun i hi => by
        rw [hxp, ((hent i (by simp [hx, hi])).1 p).2 (h i (by simp [hx, hi]))]⟩
    · rintro ⟨hxp, hxs⟩ y hy
      refine ((hent y hy).1 p).1 ?_
      rw [hx, List.mem_cons] at hy
      rcases hy with rfl | hy
      · exact hxp
      · rw [hxs y hy, hxp]
  -- whenever the function returns, the pointer's entry is the loop's value
  have hget : ∀ ptrs, computePartitionSetForPointers ids pointers instructionsForAccess = .ok ptrs →
      ptrs[I]? = some (partitionOfAccess ids is (-2)) := fun ptrs h => by
    obtain ⟨b, hb, hr⟩ := mapM_ok_getElem? h hI
    dsimp only at hb
    split_ifs at hb
    cases hb
    exact hr
  refine ⟨_, rfl, computePartitionSetForPointers_take_succ hI h2, hget, fun hne' => ?_, h2,
    fun p => ?_, ?_, partitionOfAccessNoBreak_eq ids is _⟩
  · obtain ⟨ptrs, h⟩ : ∃ ptrs, computePartitionSetForPointers ids pointers instructionsForAccess =
        .ok ptrs := mapM_ok_of_forall fun ⟨q, w⟩ hq =>
      ⟨_, if_neg (partitionOfAccess_ne_neg_two ord ps (hne' (q, w) hq))⟩
    exact ⟨ptrs, h, hget ptrs h⟩
  · rw [hall, hpart]
    split_ifs with h
    · exact ⟨fun hp => ⟨hp, h.2⟩, fun hp => hp.1⟩
    · exact ⟨False.elim, fun hp => h ⟨by rw [hp.1]; omega, hp.2⟩⟩
  · rw [hpart]
    split_ifs with h
    · obtain ⟨p, hp⟩ := hnat x (by simp [hx]) h.1
      refine ⟨fun h1 => absurd h1 h.1, fun hn => absurd ⟨p, (hall p).2 ⟨hp, h.2⟩⟩ hn⟩
    · refine ⟨fun _ => fun ⟨p, hp⟩ => h ?_, fun _ => rfl⟩
      obtain ⟨hxp, hxs⟩ := (hall p).1 hp
      exact ⟨by rw [hxp]; omega, hxs⟩

theorem computePartitionSetForPointers_partition_twoLoads :
    ∃ part, partitionOfAccess (setupPartitionIdOnInstructions .ascending
        [⟨{12, 13}, true⟩, ⟨{14, 15}, false⟩]) [12, 13] (-2) = part ∧
      computePartitionSetForPointers (setupPartitionIdOnInstructions .ascending
          [⟨{12, 13}, true⟩, ⟨{14, 15}, false⟩]) ([(.arg 1, false)].take (0 + 1)) (fun _ _ => [12, 13]) =
        (· ++ [part]) <$> computePartitionSetForPointers (setupPartitionIdOnInstructions .ascending
          [⟨{12, 13}, true⟩, ⟨{14, 15}, false⟩]) ([(.arg 1, false)].take 0) (fun _ _ => [12, 13]) ∧
      (∀ ptrs, computePartitionSetForPointers (setupPartitionIdOnInstructions .ascending
        [⟨{12, 13}, true⟩, ⟨{14, 15}, false⟩]) [(.arg 1, false)] (fun _ _ => [12, 13]) =
          .ok ptrs → ptrs[0]? = some part) ∧
      ((∀ q ∈ [((.arg 1 : Value), false)], (fun _ _ => [12, 13]) q.1 q.2 ≠ []) → ∃ ptrs,
        computePartitionSetForPointers (setupPartitionIdOnInstructions .ascending
          [⟨{12, 13}, true⟩, ⟨{14, 15}, false⟩]) [(.arg 1, false)] (fun _ _ => [12, 13]) =
          .ok ptrs ∧ ptrs[0]? = some part) ∧
      part ≠ -2 ∧
      (∀ p : Nat, part = p ↔ ∀ x ∈ [12, 13], ∀ q,
        x ∈ setAt [⟨{12, 13}, true⟩, ⟨{14, 15}, false⟩] q ↔ q = p) ∧
      (part = -1 ↔ ¬∃ p : Nat, ∀ x ∈ [12, 13], ∀ q,
        x ∈ setAt [⟨{12, 13}, true⟩, ⟨{14, 15}, false⟩] q ↔ q = p) ∧
      partitionOfAccessNoBreak (setupPartitionIdOnInstructions .ascending
        [⟨{12, 13}, true⟩, ⟨{14, 15}, false⟩]) [12, 13] (-2) = part := by
  have hin : ∀ x ∈ [12, 13], ∃ q, x ∈ setAt [⟨{12, 13}, true⟩, ⟨{14, 15}, false⟩] q :=
    fun x hx => ⟨0, by
      rcases List.mem_cons.1 hx with rfl | hx
      · decide
      · rw [List.mem_singleton.1 hx]; decide⟩
  exact @computePartitionSetForPointers_partition .ascending [⟨{12, 13}, true⟩, ⟨{14, 15}, false⟩]
    [(.arg 1, false)] (fun _ _ => [12, 13]) 0 (.arg 1) false rfl (by decide) hin

end Llvm.LoopDistribute
