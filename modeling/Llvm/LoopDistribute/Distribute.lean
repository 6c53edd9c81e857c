import Llvm.IR.Clone
import Llvm.LoopDistribute.Partition

/-!
# Cloning the loop for each partition, and pruning the copies

The IR-changing half of `InstPartitionContainer`, as `LoopDistribute.cpp` writes it:

* `PassState` : the function with the dominator tree the pass keeps up to date;
* `cloneLoopWithPreheader` : the copy of a loop and its preheader, with `addNewBlock` for each copy;
* `DistPartition` : an `InstPartition` with its value map and cloned loop; `getNewInst`;
* `cloneLoops` : the chain of copies built backwards from the original preheader, the relinking
  of the predecessor and the forward fix of the preheaders' immediate dominators;
* `DistPartition.removeUnusedInsts` : the instructions outside the partition's set leave its loop;
* `annotateNoAlias`, `setupPartitionIdOnInstructions`, `computePartitionSetForPointers`.
-/

namespace Llvm.LoopDistribute

/-- The function and the dominator tree `processLoop` keeps in step with it. -/
structure PassState where
  f : Func
  dt : DomTree

/-! ## `cloneLoopWithPreheader` -/

/-- The block loop of `cloneLoopWithPreheader`: each block of the loop is cloned, mapped to its copy,
and the copy gets the copy of the block's immediate dominator. -/
def cloneLoopBlocks : List Nat → PassState × ValueMap × List Nat →
    Except String (PassState × ValueMap × List Nat)
  | [], acc => .ok acc
  | bb :: bbs, (st, vmap, blocks) =>
    let r := st.f.cloneBasicBlock vmap bb
    let vmap := Function.update r.2.1 bb (some r.2.2)
    match (st.dt bb).bind vmap with
    | some idom => cloneLoopBlocks bbs (⟨r.1, st.dt.addNewBlock r.2.2 idom⟩, vmap, blocks ++ [r.2.2])
    | none => .error "cast<BasicBlock>(VMap[IDomBB]) of a block not cloned yet"

/-- `::cloneLoopWithPreheader`: the copy of `origLoop` and of its preheader, placed before `before`,
the copy of the preheader dominated by `loopDomBB`. Returns the new loop and its blocks, the
preheader first. -/
def cloneLoopWithPreheader (st : PassState) (before loopDomBB : Nat) (origLoop : Loop)
    (vmap : ValueMap) : Except String (PassState × ValueMap × Loop × List Nat) := do
  let some origPH := origLoop.getLoopPreheader st.f | .error "getLoopPreheader() is null"
  let r := st.f.cloneBasicBlock vmap origPH
  let newPH := r.2.2
  let (st', vmap, blocks) ← cloneLoopBlocks origLoop.blocks
    (⟨r.1, st.dt.addNewBlock newPH loopDomBB⟩, Function.update r.2.1 origPH (some newPH), [])
  let f := (st'.f.spliceBefore before [newPH]).spliceBefore before blocks
  return (⟨f, st'.dt⟩, vmap, ⟨blocks⟩, newPH :: blocks)

/-! ## Partitions after cloning -/

/-- An `InstPartition` with what cloning gives it: the value map of its copy, the copy of the loop
(`none` for the partition that keeps the original loop) and the copy's blocks. -/
structure DistPartition where
  part : InstPartition
  vmap : ValueMap := fun _ => none
  clonedLoop : Option Loop := none
  clonedLoopBlocks : List Nat := []

namespace DistPartition

/-- `InstPartition::getNewInst`: the copy of an instruction, or the instruction itself. -/
def getNewInst (p : DistPartition) (i : Nat) : Nat :=
  match p.clonedLoop with
  | some _ => mapId p.vmap i
  | none => i

/-- `InstPartition::getDistributedLoop`. -/
def getDistributedLoop (p : DistPartition) (origLoop : Loop) : Loop := p.clonedLoop.getD origLoop

end DistPartition

/-! ## `cloneLoops` -/

/-- The reverse loop of `cloneLoops` over the partitions but the last: each is cloned before
`topPH`, its map sends the exit block to `topPH`, its copy is remapped, and the copy's preheader
becomes the new `topPH`. -/
def cloneChain (L : Loop) (pred exitBlock : Nat) :
    List DistPartition → PassState × Nat → Except String (PassState × Nat × List DistPartition)
  | [], (st, topPH) => .ok (st, topPH, [])
  | p :: ps, (st, topPH) => do
    let (st, vmap, newLoop, blocks) ← cloneLoopWithPreheader st topPH pred L p.vmap
    let vmap := Function.update vmap exitBlock (some topPH)
    let st : PassState := ⟨st.f.remapInstructionsInLoop blocks vmap, st.dt⟩
    let some topPH' := newLoop.getLoopPreheader st.f | .error "getLoopPreheader() is null"
    let (st, topPH, rest) ← cloneChain L pred exitBlock ps (st, topPH')
    return (st, topPH, { p with vmap, clonedLoop := some newLoop, clonedLoopBlocks := blocks } :: rest)

/-- The forward loop of `cloneLoops`: each partition's preheader is now dominated by the exiting
block of the previous partition's loop. -/
def fixPreheaderDominators (L : Loop) (f : Func) : List DistPartition → DomTree → Except String DomTree
  | curr :: next :: ps, dt =>
    match (next.getDistributedLoop L).getLoopPreheader f, (curr.getDistributedLoop L).getExitingBlock f with
    | some ph, some ex => fixPreheaderDominators L f (next :: ps) (dt.changeImmediateDominator ph ex)
    | _, _ => .error "getLoopPreheader() or getExitingBlock() is null"
  | _, dt => .ok dt

/-- `InstPartitionContainer::cloneLoops`. -/
def cloneLoops (L : Loop) (st : PassState) (parts : List DistPartition) :
    Except String (PassState × List DistPartition) := do
  let some origPH := L.getLoopPreheader st.f | .error "getLoopPreheader() is null"
  let some pred := st.f.getSinglePredecessor origPH
    | .error "Preheader does not have a single predecessor"
  let some exitBlock := L.getExitBlock st.f | .error "No single exit block"
  if parts.isEmpty then .error "at least two partitions expected"
  if (st.f.body origPH).length ≠ 1 then .error "preheader not empty"
  let (st, topPH, cloned) ← cloneChain L pred exitBlock parts.dropLast.reverse (st, origPH)
  let parts := cloned.reverse ++ parts.getLast?.toList
  let some t := st.f.getTerminator pred | .error "getTerminator() is null"
  let f := st.f.setInst t ((st.f.inst t).replaceUsesOfWith (.block origPH) (.block topPH))
  let dt ← fixPreheaderDominators L f parts st.dt
  return (⟨f, dt⟩, parts)

/-! ## `removeUnusedInsts` -/

/-- The deletion loop of `removeUnusedInsts`, over the collected instructions from the last: an
instruction with users has them use `undef` first. -/
def eraseUnused (f : Func) (unused : List Nat) : Func :=
  unused.reverse.foldl (fun f i =>
    let f := if (f.users (.inst i)).isEmpty then f else f.replaceAllUsesWith (.inst i) .undef
    f.eraseFromParent i) f

/-- `InstPartition::removeUnusedInsts`: the copies of the loop's instructions outside the set are
collected block by block, a branch among them failing the assertion, then deleted. -/
def DistPartition.removeUnusedInsts (L : Loop) (p : DistPartition) (f : Func) : Except String Func := do
  let unused ← ((L.insts f).filter (· ∉ p.part.set)).mapM fun i =>
    let n := p.getNewInst i
    if (f.inst n).opcode = .br then .error "Branches are marked used early on" else .ok n
  return eraseUnused f unused

/-- `InstPartitionContainer::removeUnusedInsts`. -/
def removeUnusedInsts (L : Loop) (parts : List DistPartition) (f : Func) : Except String Func :=
  parts.foldlM (fun f p => p.removeUnusedInsts L f) f

/-! ## `annotateNoAlias` -/

/-- Modelled from the spec: `MDNode::concatenate` (library code) on the `!noalias` and
`!alias.scope` lists, "attach a no-alias scope ... attach the matching alias-scope metadata":
`scope` is appended to both. -/
def addScope (i : Inst) (scope : Nat) : Inst :=
  { i with noalias := i.noalias ++ [scope], aliasScope := i.aliasScope ++ [scope] }

/-- `InstPartition::annotateNoAlias`: the loads in the forwarding set and the stores outside it get
the scope in both lists. -/
def DistPartition.annotateNoAlias (ord : IterOrder) (scope : Nat) (fwd : Finset Nat)
    (p : DistPartition) (f : Func) : Func :=
  (ord.enum p.part.set).foldl (fun f orig =>
    let i := p.getNewInst orig
    if (f.isLoad i && i ∈ fwd) || (f.isStore i && i ∉ fwd) then f.setInst i (addScope (f.inst i) scope)
    else f) f

/-- `InstPartitionContainer::annotateNoAlias`: the new scope goes on the cyclic partitions. -/
def annotateNoAlias (ord : IterOrder) (scope : Nat) (fwd : Finset Nat) (parts : List DistPartition)
    (f : Func) : Func :=
  parts.foldl (fun f p => if p.part.depCycle then p.annotateNoAlias ord scope fwd f else f) f

/-! ## Pointers and partitions -/

/-- `setupPartitionIdOnInstructions`: the partition of each instruction, `-1` for one in several. -/
def setupPartitionIdOnInstructions (ord : IterOrder) (parts : List InstPartition) : Nat → Option Int :=
  (parts.enum.foldl fun m (id, p) => (ord.enum p.set).foldl (fun m i =>
    Function.update m i (some (if (m i).isSome then -1 else (id : Int)))) m) fun _ => none

/-- The loop of `computePartitionSetForPointers` over the instructions of one access; an
instruction missing from the map reads as partition 0, as `DenseMap::operator[]` gives it. -/
def partitionOfAccess (ids : Nat → Option Int) : List Nat → Int → Int
  | [], part => part
  | i :: is, part =>
    let this := (ids i).getD 0
    if part = -2 then partitionOfAccess ids is this
    else if part = -1 then part
    else if part ≠ this then partitionOfAccess ids is (-1)
    else partitionOfAccess ids is part

/-- `computePartitionSetForPointers`: the partition of each checked pointer, from the instructions
`instructionsForAccess` gives for it. -/
def computePartitionSetForPointers (ids : Nat → Option Int) (pointers : List (Value × Bool))
    (instructionsForAccess : Value → Bool → List Nat) : Except String (List Int) :=
  pointers.mapM fun (ptr, isWrite) =>
    let part := partitionOfAccess ids (instructionsForAccess ptr isWrite) (-2)
    if part = -2 then .error "Pointer not belonging to any partition" else .ok part

end Llvm.LoopDistribute
