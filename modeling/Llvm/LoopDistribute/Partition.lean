import Llvm.IR.Core
import Mathlib.Data.Finset.Lattice.Fold
import Mathlib.Data.Nat.Lattice

/-!
# Partitions: seeding, the merge heuristics, the use-def closure

The partition-forming half of `processLoop`, as `LoopDistribute.cpp` writes it:

* `memoryInstructionDependences` and `seedPartitions` : the 32-bit start-or-end counters and the
  seeding loop with its running count `NumUnsafeDependencesActive` and its assertion;
* `mergeAdjacentPartitionsIf` and its two uses `mergeAdjacentNonCyclic`, `mergeNonIfConvertible`;
* `InstPartition.populateUsedSet` : the worklist closure over operands, with fuel for every pop;
* `mergeToAvoidDuplicatedLoads` : the scan with `LoadToPartition` and `EquivalenceClasses`, the
  merge into the class leaders and the removal of the emptied partitions;
* `formPartitions` : lines 939-990 of `processLoop`, `none` where it returns `false`.

A `SmallPtrSet` is a `Finset`; where the code iterates one, it goes through an `IterOrder`, an order
the pass does not control.
-/

namespace Llvm.LoopDistribute

/-- An iteration order of `SmallPtrSet`s: every element once, in some order. -/
structure IterOrder where
  enum : Finset Nat → List Nat
  nodup_enum : ∀ s, (enum s).Nodup
  mem_enum : ∀ s x, x ∈ enum s ↔ x ∈ s

/-- Increasing ids: one order a `SmallPtrSet` may iterate in. -/
def IterOrder.ascending : IterOrder where
  enum s := (List.range (s.sup id + 1)).filter (· ∈ s)
  nodup_enum _ := (List.nodup_range _).filter _
  mem_enum s x := by
    simp only [List.mem_filter, List.mem_range, decide_eq_true_eq, and_iff_right_iff_imp]
    exact fun h => Nat.lt_succ_of_le (Finset.le_sup (f := id) h)

/-- `InstPartition` before cloning: its instruction set and whether it holds a dependence cycle. -/
structure InstPartition where
  set : Finset Nat
  depCycle : Bool
  deriving DecidableEq

instance : Inhabited InstPartition := ⟨⟨∅, false⟩⟩

namespace InstPartition

/-- `InstPartition::add`. -/
def add (p : InstPartition) (i : Nat) : InstPartition := { p with set := insert i p.set }

/-- `InstPartition::moveTo`: `other` takes `p`'s instructions and cycle flag, `p` is left empty. -/
def moveTo (p other : InstPartition) : InstPartition × InstPartition :=
  ({ p with set := ∅ }, ⟨other.set ∪ p.set, other.depCycle || p.depCycle⟩)

end InstPartition

/-! ## Seeding -/

/-- `MemoryDepChecker::Dependence`, as the pass reads it. -/
structure Dependence where
  source : Nat
  destination : Nat
  isPossiblyBackward : Bool
  deriving DecidableEq, Repr

/-- `MemoryInstructionDependences::Entry`: the counter is an `unsigned`. -/
structure Entry where
  inst : Nat
  numUnsafeDependencesStartOrEnd : BitVec 32
  deriving DecidableEq, Repr

/-- The effect of one dependence on the counters: `++` at its source, `--` at its destination. -/
def countDependence (acc : List Entry) (d : Dependence) : List Entry :=
  if d.isPossiblyBackward then
    (acc.modify (fun e => { e with numUnsafeDependencesStartOrEnd :=
        e.numUnsafeDependencesStartOrEnd + 1 }) d.source).modify
      (fun e => { e with numUnsafeDependencesStartOrEnd := e.numUnsafeDependencesStartOrEnd - 1 })
      d.destination
  else acc

/-- The constructor of `MemoryInstructionDependences`. -/
def memoryInstructionDependences (instructions : List Nat) (deps : List Dependence) :
    List Entry :=
  deps.foldl countDependence (instructions.map fun i => ⟨i, 0⟩)

/-- `InstPartitionContainer::addToCyclicPartition`. -/
def addToCyclicPartition (ps : List InstPartition) (i : Nat) : List InstPartition :=
  match ps.getLast? with
  | some p => if p.depCycle then ps.dropLast ++ [p.add i] else ps ++ [⟨{i}, true⟩]
  | none => ps ++ [⟨{i}, true⟩]

/-- `InstPartitionContainer::addToNewNonCyclicPartition`. -/
def addToNewNonCyclicPartition (ps : List InstPartition) (i : Nat) : List InstPartition :=
  ps ++ [⟨{i}, false⟩]

/-- One turn of the seeding loop: `NumUnsafeDependencesActive` is an `int` to which the unsigned
counter is added, so both are 32-bit words here, and the assertion reads the sum as signed. -/
def seedStep (st : List InstPartition × BitVec 32) (e : Entry) :
    Except String (List InstPartition × BitVec 32) :=
  let ps := if st.2 ≠ 0 ∨ 0 < e.numUnsafeDependencesStartOrEnd then addToCyclicPartition st.1 e.inst
    else addToNewNonCyclicPartition st.1 e.inst
  let active := st.2 + e.numUnsafeDependencesStartOrEnd
  if 0 ≤ active.toInt then .ok (ps, active) else .error "Negative number of dependences active"

/-- The seeding loop over the memory instructions (lines 944-957). -/
def seedPartitions (mid : List Entry) : Except String (List InstPartition) :=
  Prod.fst <$> mid.foldlM seedStep ([], 0)

/-! ## `findDefsUsedOutsideOfLoop` -/

/-- The loop's instructions with a user outside the loop, block by block. -/
def findDefsUsedOutsideOfLoop (f : Func) (L : Loop) : List Nat :=
  L.blocks.flatMap fun b => (f.body b).filter fun i => (f.users (.inst i)).any fun u => !L.contains f u

/-! ## Merging adjacent partitions -/

/-- The loop of `mergeAdjacentPartitionsIf`: `first` is the partition the inner loop merges into,
`none` in the outer loop. When the inner loop stops at `p`, the outer loop tests `p` again, and it
fails again. -/
def mergeRun (pred : InstPartition → Bool) :
    Option InstPartition → List InstPartition → List InstPartition
  | none, [] => []
  | some first, [] => [first]
  | none, p :: ps => if pred p then mergeRun pred (some p) ps else p :: mergeRun pred none ps
  | some first, p :: ps =>
    if pred p then mergeRun pred (some (p.moveTo first).2) ps else first :: p :: mergeRun pred none ps

/-- `InstPartitionContainer::mergeAdjacentPartitionsIf`. -/
def mergeAdjacentPartitionsIf (pred : InstPartition → Bool) (ps : List InstPartition) :
    List InstPartition :=
  mergeRun pred none ps

/-- `InstPartitionContainer::mergeAdjacentNonCyclic`. -/
def mergeAdjacentNonCyclic (ps : List InstPartition) : List InstPartition :=
  mergeAdjacentPartitionsIf (fun p => !p.depCycle) ps

/-- The scan of `mergeNonIfConvertible`'s predicate: `false` at the first store whose block needs no
predication, otherwise whether a store was seen. -/
def allStoresConditional (f : Func) (blockNeedsPredication : Nat → Bool) :
    List Nat → Bool → Bool
  | [], seenStore => seenStore
  | i :: is, seenStore =>
    if f.isStore i then
      if (f.getParent i).any blockNeedsPredication then allStoresConditional f blockNeedsPredication is true
      else false
    else allStoresConditional f blockNeedsPredication is seenStore

/-- `InstPartitionContainer::mergeNonIfConvertible`. -/
def mergeNonIfConvertible (ord : IterOrder) (f : Func) (blockNeedsPredication : Nat → Bool)
    (ps : List InstPartition) : List InstPartition :=
  mergeAdjacentPartitionsIf
    (fun p => p.depCycle || allStoresConditional f blockNeedsPredication (ord.enum p.set) false) ps

/-- The command-line options of the pass. -/
structure Config where
  distributeNonIfConvertible : Bool := false
  addMemcheckForStoreToLoadElimination : Bool := true

/-- `InstPartitionContainer::mergeBeforePopulating`. -/
def mergeBeforePopulating (cfg : Config) (ord : IterOrder) (f : Func)
    (blockNeedsPredication : Nat → Bool) (ps : List InstPartition) : List InstPartition :=
  let ps := mergeAdjacentNonCyclic ps
  if !cfg.distributeNonIfConvertible then mergeNonIfConvertible ord f blockNeedsPredication ps
  else ps

/-! ## `populateUsedSet` -/

/-- The inner loop of `populateUsedSet`: an operand that is an instruction of the loop and is newly
inserted into the set is pushed on the worklist (a stack, its top first). -/
def pushOperands (f : Func) (L : Loop) : List Value → Finset Nat × List Nat → Finset Nat × List Nat
  | [], st => st
  | .inst j :: vs, (s, w) =>
    if L.contains f j && j ∉ s then pushOperands f L vs (insert j s, j :: w)
    else pushOperands f L vs (s, w)
  | _ :: vs, st => pushOperands f L vs st

/-- The worklist loop of `populateUsedSet`, one pop per unit of fuel. -/
def drainWorklist (f : Func) (L : Loop) : Nat → Finset Nat × List Nat → Finset Nat
  | 0, (s, _) => s
  | _ + 1, (s, []) => s
  | fuel + 1, (s, i :: w) => drainWorklist f L fuel (pushOperands f L (f.inst i).operands (s, w))

/-- The terminators of the loop's blocks, added to a set. -/
def insertTerminators (f : Func) (L : Loop) (s : Finset Nat) : Finset Nat :=
  L.blocks.foldl (fun s b => match f.getTerminator b with | some t => insert t s | none => s) s

/-- `InstPartition::populateUsedSet`. Every pop takes one unit of fuel, and there are at most as
many pops as the set's elements and the loop's instructions together. -/
def InstPartition.populateUsedSet (ord : IterOrder) (f : Func) (L : Loop) (p : InstPartition) :
    InstPartition :=
  let s := insertTerminators f L p.set
  { p with set := drainWorklist f L (s.card + (L.insts f).length) (s, (ord.enum s).reverse) }

/-! ## `mergeToAvoidDuplicatedLoads` -/

/-- `EquivalenceClasses<InstPartition *>` over partition positions: the inserted elements in order of
insertion, and the leader of each (`unionSets a b` keeps the leader of `a`'s class). -/
structure EquivalenceClasses where
  members : List Nat
  leader : Nat → Nat

namespace EquivalenceClasses

/-- No element inserted. -/
def empty : EquivalenceClasses := ⟨[], id⟩

/-- `EquivalenceClasses::insert`: a new element is its own class. -/
def insert (ec : EquivalenceClasses) (x : Nat) : EquivalenceClasses :=
  if x ∈ ec.members then ec else ⟨ec.members ++ [x], Function.update ec.leader x x⟩

/-- `EquivalenceClasses::unionSets`. -/
def unionSets (ec : EquivalenceClasses) (a b : Nat) : EquivalenceClasses :=
  let ec := (ec.insert a).insert b
  if ec.leader a = ec.leader b then ec
  else ⟨ec.members, fun y => if ec.leader y = ec.leader b then ec.leader a else ec.leader y⟩

end EquivalenceClasses

/-- The loop `do { --PartJ; ToBeMerged.unionSets(PartI, *PartJ); } while (*PartJ != ...)` with the
cursor at `k`, for partition `i` and the recorded partition `j`; stepping before the first partition
is an error. -/
def unionBackTo (i j : Nat) : Nat → EquivalenceClasses → Except String EquivalenceClasses
  | 0, _ => .error "--PartJ before the first partition"
  | k + 1, ec => let ec := ec.unionSets i k; if k = j then .ok ec else unionBackTo i j k ec

/-- The scan of partition `i`'s instructions: a load seen for the first time is recorded in
`LoadToPartition`, a load seen before joins partitions back to the recorded one. -/
def scanLoads (f : Func) (i : Nat) :
    List Nat → (Nat → Option Nat) × EquivalenceClasses →
      Except String ((Nat → Option Nat) × EquivalenceClasses)
  | [], st => .ok st
  | inst :: rest, (ltp, ec) =>
    if f.isLoad inst then
      match ltp inst with
      | none => scanLoads f i rest (Function.update ltp inst (some i), ec)
      | some j => do scanLoads f i rest (ltp, ← unionBackTo i j i ec)
    else scanLoads f i rest (ltp, ec)

/-- The scan over all partitions, the `i`-th first. -/
def scanPartitions (ord : IterOrder) (f : Func) :
    Nat → List InstPartition → (Nat → Option Nat) × EquivalenceClasses →
      Except String ((Nat → Option Nat) × EquivalenceClasses)
  | _, [], st => .ok st
  | i, p :: ps, st => do scanPartitions ord f (i + 1) ps (← scanLoads f i (ord.enum p.set) st)

/-- `PartJ->moveTo(*PartI)` on positions `j` and `i`. -/
def moveMember (ps : List InstPartition) (j i : Nat) : List InstPartition :=
  let moved := (ps.getD j default).moveTo (ps.getD i default)
  (ps.set j moved.1).set i moved.2

/-- The members of the class `i` leads move into `i`; nothing moves when `i` leads no class. -/
def mergeClass (ec : EquivalenceClasses) (ps : List InstPartition) (i : Nat) : List InstPartition :=
  if ec.leader i = i then
    (ec.members.filter fun j => j ≠ i ∧ ec.leader j = i).foldl (fun ps j => moveMember ps j i) ps
  else ps

/-- Every member of a class moves into the class leader. -/
def mergeIntoLeaders (ec : EquivalenceClasses) (ps : List InstPartition) : List InstPartition :=
  ec.members.foldl (mergeClass ec) ps

/-- `InstPartitionContainer::mergeToAvoidDuplicatedLoads`: the partitions and whether any merged. -/
def mergeToAvoidDuplicatedLoads (ord : IterOrder) (f : Func) (ps : List InstPartition) :
    Except String (List InstPartition × Bool) := do
  let (_, ec) ← scanPartitions ord f 0 ps (fun _ => none, .empty)
  if ec.members.isEmpty then return (ps, false)
  return ((mergeIntoLeaders ec ps).filter fun p => p.set ≠ ∅, true)

/-! ## The partitioning half of `processLoop` -/

/-- Lines 939-990 of `processLoop`: seed, merge, populate, merge to keep loads unique. `none` where
`processLoop` returns `false`. -/
def formPartitions (cfg : Config) (ord : IterOrder) (f : Func) (L : Loop)
    (blockNeedsPredication : Nat → Bool) (memoryInstructions : List Nat) (deps : List Dependence) :
    Except String (Option (List InstPartition)) := do
  let seeded ← seedPartitions (memoryInstructionDependences memoryInstructions deps)
  let ps := (findDefsUsedOutsideOfLoop f L).foldl addToNewNonCyclicPartition seeded
  if ps.length < 2 then return none
  let ps := mergeBeforePopulating cfg ord f blockNeedsPredication ps
  if ps.length < 2 then return none
  let (ps, merged) ← mergeToAvoidDuplicatedLoads ord f (ps.map (·.populateUsedSet ord f L))
  if merged && ps.length < 2 then return none
  return some ps

end Llvm.LoopDistribute
