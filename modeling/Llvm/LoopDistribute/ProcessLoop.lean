import Llvm.LoopDistribute.Versioning
import Llvm.LoopDistribute.Relink

/-!
# `LoopDistribute::processLoop`

The pass on one innermost loop: the bail-outs, the partitions, the split of a preheader that is
not empty, the store-to-load forwarding sets, the versioning, the cloning and the pruning.

* `AccessInfo` : what the pass reads of `LoopAccessInfo` (LoopAccessAnalysis, not in the sources);
* `storeToLoadForwarding` : the loads and stores of possibly-backward load-to-store dependences,
  and their pointers;
* `distribute` : the part of `processLoop` after the partitions are formed;
* `processLoop` : `false` with the state unchanged when the loop is not distributed;
  `processLoop_eq_ok` says what a run that returns did;
* runs on variants of `fourAccessFunc`: a second value used outside the loop fails the assertion of
  `addPHINodes`, an exit PHI of a value from before the loop keeps one incoming value, two stores
  of a cyclic partition are declared not to alias, a guarded loop's exit is given an immediate
  dominator that does not dominate it, and the predecessor of the preheader keeps its other edge.
-/

namespace Llvm.LoopDistribute

/-- Modelled from the spec: what `processLoop` consumes of `LoopAccessInfo` (LoopAccessAnalysis,
not in the sources): "`canVectorizeMemory()`, `interestingDependences()`, `memoryInstructions()`,
`runtimeCheck(pointerPartitionMap, forwardingPointerSet)`, `instructionsForAccess(pointer,
isWrite)`". The checked pointers are listed with whether each is written. -/
structure AccessInfo where
  canVectorizeMemory : Bool
  interestingDependences : Option (List Dependence)
  memoryInstructions : List Nat
  pointers : List (Value × Bool)
  instructionsForAccess : Value → Bool → List Nat
  needsAnyChecking : List Int → List Value → Bool

/-- `getPointerOperand()` of a load (its first operand) or a store (its second). -/
def pointerOperand (f : Func) (i : Nat) : Option Value :=
  if f.isLoad i then (f.inst i).operands.head? else (f.inst i).operands[1]?

/-- The loop of `processLoop` collecting store-to-load forwarding: for each possibly-backward
dependence from a load to a store, both instructions and both pointers. -/
def storeToLoadForwarding (f : Func) (mi : List Nat) (deps : List Dependence) :
    Finset Nat × List Value :=
  deps.foldl (fun (insts, ptrs) d =>
    match d.isPossiblyBackward, mi[d.source]?, mi[d.destination]? with
    | true, some ld, some st =>
      if f.isLoad ld && f.isStore st then
        (insert st (insert ld insts), ptrs ++ (pointerOperand f ld).toList ++ (pointerOperand f st).toList)
      else (insts, ptrs)
    | _, _, _ => (insts, ptrs)) (∅, [])

/-- The scope that `annotateNoAlias` creates: a fresh id, as `MDBuilder` makes a new node. -/
def newScope (f : Func) : Func × Nat := ({ f with fresh := f.fresh + 1 }, f.fresh)

/-- `processLoop` from line 991 on: the partitions are formed. -/
def distribute (cfg : Config) (ord : IterOrder) (lai : AccessInfo) (L : Loop) (ph : Nat)
    (deps : List Dependence) (parts : List InstPartition) (st : PassState) :
    Except String PassState := do
  let defsUsedOutside := findDefsUsedOutsideOfLoop st.f L
  let ids := setupPartitionIdOnInstructions ord parts
  let st : PassState :=
    if (st.f.getSinglePredecessor ph).isNone || (st.f.body ph).length ≠ 1 then
      let r := st.f.splitBlock st.dt ph
      ⟨r.1, r.2.1⟩
    else st
  let (fwdInsts, fwdPtrs) :=
    if cfg.addMemcheckForStoreToLoadElimination then storeToLoadForwarding st.f lai.memoryInstructions deps
    else (∅, [])
  let ptrToPartition ← computePartitionSetForPointers ids lai.pointers lai.instructionsForAccess
  let dparts : List DistPartition := parts.map fun p => { part := p }
  let st ← if lai.needsAnyChecking ptrToPartition fwdPtrs then do
      let (st, v) ← versionLoop L st
      let f ← addPHINodes L v defsUsedOutside st.f
      if fwdInsts.Nonempty then
        let (f, scope) := newScope f
        pure (⟨annotateNoAlias ord scope fwdInsts dparts f, st.dt⟩ : PassState)
      else pure ⟨f, st.dt⟩
    else pure st
  let (st, dparts) ← cloneLoops L st dparts
  let f ← removeUnusedInsts L dparts st.f
  return ⟨f, st.dt⟩

/-- `LoopDistribute::processLoop`: whether the loop was distributed, and the state after. -/
def processLoop (cfg : Config) (ord : IterOrder) (lai : AccessInfo) (bnp : Nat → Bool) (L : Loop)
    (st : PassState) : Except String (Bool × PassState) := do
  let some ph := L.getLoopPreheader st.f | return (false, st)
  if (L.getExitBlock st.f).isNone then return (false, st)
  if lai.canVectorizeMemory then return (false, st)
  let some deps := lai.interestingDependences | return (false, st)
  if deps.isEmpty then return (false, st)
  let some parts ← formPartitions cfg ord st.f L bnp lai.memoryInstructions deps | return (false, st)
  return (true, ← distribute cfg ord lai L ph deps parts st)

/-- A run of `processLoop` that returns either bailed out, leaving the state as it was, or formed
the partitions and distributed the loop along them. -/
theorem processLoop_eq_ok {cfg : Config} {ord : IterOrder} {lai : AccessInfo} {bnp : Nat → Bool}
    {L : Loop} {st st' : PassState} {b : Bool} (h : processLoop cfg ord lai bnp L st = .ok (b, st')) :
    (b = false ∧ st' = st) ∨
    (b = true ∧ ∃ ph deps parts, L.getLoopPreheader st.f = some ph ∧
      lai.interestingDependences = some deps ∧
      formPartitions cfg ord st.f L bnp lai.memoryInstructions deps = .ok (some parts) ∧
      distribute cfg ord lai L ph deps parts st = .ok st') := by
  have bail : (pure (false, st) : Except String (Bool × PassState)) = .ok (b, st') →
      b = false ∧ st' = st := fun h => by cases h; exact ⟨rfl, rfl⟩
  unfold processLoop at h
  rcases hph : L.getLoopPreheader st.f with _ | ph <;> simp only [hph] at h
  · exact .inl (bail h)
  rcases hd : lai.interestingDependences with _ | deps
  · simp only [hd] at h; split_ifs at h <;> exact .inl (bail h)
  rcases hf : formPartitions cfg ord st.f L bnp lai.memoryInstructions deps with e | _ | parts
  all_goals simp only [hd, hf, bind, Except.bind, pure, Except.pure] at h; split_ifs at h
  all_goals try exact .inl (bail h)
  split at h
  · cases h
  · rename_i hd'; cases h; exact .inr ⟨rfl, ph, deps, parts, rfl, rfl, hf, hd'⟩

/-! ## Runs on variants of `fourAccessFunc` -/

/-- What `LoopAccessAnalysis` reports for a loop of the shape of `fourAccessFunc`: the memory
instructions, the interesting dependences, and whether the checks are needed. -/
def fourAccessInfo (mi : List Nat) (deps : List Dependence) (needsChecks : Bool) : AccessInfo where
  canVectorizeMemory := false
  interestingDependences := some deps
  memoryInstructions := mi
  pointers := []
  instructionsForAccess := fun _ _ => []
  needsAnyChecking := fun _ _ => needsChecks

/-- `fourAccessFunc` with the header PHI `i` (11) and its increment (16) used after the loop,
through the exit PHIs 20 and 21. -/
def twoLiveOutFunc : Func :=
  { fourAccessFunc with
    body := Function.update fourAccessFunc.body 2 [20, 21, 18]
    inst := fun i => match i with
      | 20 => ⟨.phi, [.inst 11], [1], [], []⟩
      | 21 => ⟨.phi, [.inst 16], [1], [], []⟩
      | i => fourAccessFunc.inst i
    fresh := 22 }

/-- With two values used outside the loop, the first turn of `addPHINodes` gives the exit PHI of
the first a second incoming value, and the scan of the second turn meets it. -/
theorem addPHINodes_assertion_fails_twoLiveOut :
    (twoLiveOutFunc.inst 20).incoming = [1] ∧ (twoLiveOutFunc.inst 21).incoming = [1] ∧
    processLoop {} .ascending (fourAccessInfo [12, 13, 14, 15] [⟨1, 2, true⟩] true) (fun _ => false)
      fourAccessLoop ⟨twoLiveOutFunc, fourAccessDomTree⟩ =
      .error "Exit block should only have on predecessor" :=
  ⟨rfl, rfl, rfl⟩

/-- `fourAccessFunc` with an exit PHI (20) of a value defined before the function body. -/
def outsidePhiFunc : Func :=
  { fourAccessFunc with
    body := Function.update fourAccessFunc.body 2 [20, 18]
    inst := fun i => if i = 20 then ⟨.phi, [.arg 7], [1], [], []⟩ else fourAccessFunc.inst i
    fresh := 21 }

/-- After versioning the exit block has the fallback loop's exiting block (28) as a second
predecessor, but `addPHINodes` only visits values defined in the loop: PHI 20 keeps one incoming
value. -/
theorem exitPhi_missing_incoming_outsidePhi :
    ∃ st, processLoop {} .ascending (fourAccessInfo [12, 13, 14, 15] [⟨1, 2, true⟩] true)
      (fun _ => false) fourAccessLoop ⟨outsidePhiFunc, fourAccessDomTree⟩ = .ok (true, st) ∧
      st.f.preds 2 = [28, 1] ∧ 20 ∈ st.f.body 2 ∧ (st.f.inst 20).incoming = [1] :=
  ⟨_, rfl, by decide, by decide, by decide⟩

/-- `fourAccessFunc` with a fifth access, the store 19, after the others. -/
def twoStoreFunc : Func :=
  { fourAccessFunc with
    body := Function.update fourAccessFunc.body 1 [11, 12, 13, 14, 15, 19, 16, 17]
    inst := fun i =>
      if i = 19 then ⟨.store, [.arg 6, .arg 7, .inst 11], [], [], []⟩ else fourAccessFunc.inst i
    fresh := 20 }

/-- A possibly-backward dependence between the stores 12 and 15 puts both in the cyclic partition,
with the forwarding pair 13, 14. Both stores are outside the forwarding set, so each gets the scope
(37) in both lists: their copies 42 and 45 in the cyclic partition's loop are declared not to alias
each other. -/
theorem annotateNoAlias_stores_disjoint_twoStore :
    ∃ st, processLoop {} .ascending
      (fourAccessInfo [12, 13, 14, 15, 19] [⟨0, 3, true⟩, ⟨1, 2, true⟩] true) (fun _ => false)
      fourAccessLoop ⟨twoStoreFunc, fourAccessDomTree⟩ = .ok (true, st) ∧
      [42, 45] ⊆ st.f.body 40 ∧ (st.f.inst 42).opcode = .store ∧ (st.f.inst 45).opcode = .store ∧
      37 ∈ (st.f.inst 42).noalias ∧ 37 ∈ (st.f.inst 45).aliasScope :=
  ⟨_, rfl, by decide, by decide, by decide, by decide, by decide⟩

/-- The loop of `fourAccessFunc` behind a guard: block 0 branches to the preheader 3 or straight
to the exit block 2. -/
def guardedFunc : Func :=
  { blocks := [0, 3, 1, 2]
    body := fun b => match b with
      | 0 => [9, 10] | 3 => [19] | b => fourAccessFunc.body b
    inst := fun i => match i with
      | 9 => ⟨.other, [], [], [], []⟩
      | 10 => ⟨.br, [.inst 9, .block 3, .block 2], [], [], []⟩
      | 19 => ⟨.br, [.block 1], [], [], []⟩
      | 11 => ⟨.phi, [.arg 0, .inst 16], [3, 1], [], []⟩
      | i => fourAccessFunc.inst i
    fresh := 20 }

/-- The dominator tree of `guardedFunc`. -/
def guardedDomTree : DomTree := fun b => match b with
  | 3 => some 0 | 1 => some 3 | 2 => some 0 | _ => none

/-- Versioning makes the memcheck block 3 the immediate dominator of the exit block 2, which the
guard still reaches directly. -/
theorem exit_idom_not_dominator_guarded :
    ∃ st, processLoop {} .ascending (fourAccessInfo [12, 13, 14, 15] [⟨1, 2, true⟩] true)
      (fun _ => false) fourAccessLoop ⟨guardedFunc, guardedDomTree⟩ = .ok (true, st) ∧
      st.dt 2 = some 3 ∧ st.f.IsPath [0, 2] ∧ ¬ st.dt.IsDomTreeOf st.f :=
  ⟨_, rfl, rfl, by decide,
    @DomTree.not_isDomTreeOf_of_path _ _ 2 3 [0, 2] rfl (by decide) rfl rfl (by decide) (by decide)⟩

/-- Without versioning the guard 0 is the preheader's single predecessor; after distribution it
branches to the first partition's preheader (30) or, as before, straight to the exit block 2. -/
theorem pred_skips_chain_guarded :
    guardedFunc.getSinglePredecessor 3 = some 0 ∧
    ∃ st, processLoop {} .ascending (fourAccessInfo [12, 13, 14, 15] [⟨1, 2, true⟩] false)
      (fun _ => false) fourAccessLoop ⟨guardedFunc, guardedDomTree⟩ = .ok (true, st) ∧
      st.f.succs 0 = [30, 2] ∧ st.f.IsPath [0, 2] :=
  ⟨rfl, _, rfl, by decide, by decide⟩

end Llvm.LoopDistribute
