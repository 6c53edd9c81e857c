import Llvm.LoopDistribute.Numbering

/-!
# `LoopDistribute::runOnFunction`: the pass over a function's loop nest

`runOnFunction` collects the innermost loops of `LoopInfo`, walking each top-level loop
depth-first, then runs `processLoop` on each in turn, and reports whether any loop was
distributed. `LoopInfo` is a forest `List LoopNest`. What `processLoop` reads of
`LoopAccessAnalysis` and `blockNeedsPredication` is computed on the function as it is when the
loop is reached (`Analyses`).

* `innermostList` : the innermost loops of a forest, left to right; `worklist_map_loop` : the
  depth-first walk keeps exactly those, in that order;
* `runOnFunction_eq_processLoops` : the pass is `processLoop` on each innermost loop in turn, and
  the assertion that opens `processLoop` (the loop has no subloops) never fails;
* `processLoop_eq_true_iff` : the inversion of the guards of `processLoop`;
* `runOnFunction_unchanged` : a pass that reports no change left the function and its dominator
  tree as they were.
-/

namespace Llvm

/-- A loop of `LoopInfo` with its subloops (`Loop::getSubLoops`), in order. -/
inductive LoopNest where
  | node (L : Loop) (subLoops : List LoopNest)
  deriving Repr

namespace LoopNest

/-- The loop at the root of a nest. -/
def loop : LoopNest → Loop
  | node L _ => L

/-- `Loop::empty`: the loop has no subloops. -/
def empty : LoopNest → Bool
  | node _ subLoops => subLoops.isEmpty

mutual
/-- `depth_first(TopLevelLoop)`: the loops of a nest in preorder. -/
def depthFirst : LoopNest → List LoopNest
  | node L subLoops => node L subLoops :: depthFirstList subLoops

/-- The depth-first walks of the nests of a list, one after another. -/
def depthFirstList : List LoopNest → List LoopNest
  | [] => []
  | n :: ns => depthFirst n ++ depthFirstList ns
end

mutual
/-- The innermost loops of a nest, left to right. -/
def innermost : LoopNest → List Loop
  | node L [] => [L]
  | node _ (n :: ns) => innermostList (n :: ns)

/-- The innermost loops of the nests of a list, left to right. -/
def innermostList : List LoopNest → List Loop
  | [] => []
  | n :: ns => innermost n ++ innermostList ns
end

/-- The worklist `runOnFunction` builds: for each top-level loop, the loops of its depth-first
walk that have no subloops. -/
def worklist (LI : List LoopNest) : List LoopNest := (depthFirstList LI).filter (·.empty)

theorem empty_of_mem_worklist {LI : List LoopNest} {n : LoopNest} (h : n ∈ worklist LI) :
    n.empty = true :=
  (List.mem_filter.1 h).2

mutual
theorem depthFirst_filter_map_loop : ∀ n : LoopNest,
    ((depthFirst n).filter (·.empty)).map loop = innermost n
  | node L [] => rfl
  | node L (m :: ms) => by
    rw [depthFirst, List.filter_cons_of_neg (by simp [empty]), innermost,
      depthFirstList_filter_map_loop]

theorem depthFirstList_filter_map_loop : ∀ ns : List LoopNest,
    ((depthFirstList ns).filter (·.empty)).map loop = innermostList ns
  | [] => rfl
  | n :: ns => by
    rw [depthFirstList, List.filter_append, List.map_append, depthFirst_filter_map_loop,
      depthFirstList_filter_map_loop, innermostList]
end

/-- The worklist holds the innermost loops of the forest, left to right. -/
theorem worklist_map_loop (LI : List LoopNest) : (worklist LI).map loop = innermostList LI :=
  depthFirstList_filter_map_loop LI

end LoopNest

namespace LoopDistribute

open LoopNest

/-- What `processLoop` reads of the analyses for a loop, computed on the function as it is when
the loop is reached: `LoopAccessAnalysis::getInfo` and `LoopAccessInfo::blockNeedsPredication`. -/
structure Analyses where
  getInfo : PassState → Loop → AccessInfo
  blockNeedsPredication : PassState → Loop → Nat → Bool

/-- `processLoop` with the assertion that opens it: only innermost loops are processed. -/
def processInnerLoop (cfg : Config) (ord : IterOrder) (an : Analyses) (n : LoopNest)
    (st : PassState) : Except String (Bool × PassState) :=
  if !n.empty then throw "Only process inner loops."
  else processLoop cfg ord (an.getInfo st n.loop) (an.blockNeedsPredication st n.loop) n.loop st

/-- The loop of `runOnFunction` over the worklist: `Changed |= processLoop(L)`. -/
def processWorklist (cfg : Config) (ord : IterOrder) (an : Analyses) :
    List LoopNest → Bool × PassState → Except String (Bool × PassState)
  | [], acc => pure acc
  | n :: rest, (Changed, st) => do
    let (b, st) ← processInnerLoop cfg ord an n st
    processWorklist cfg ord an rest (Changed || b, st)

/-- `LoopDistribute::runOnFunction`: `processLoop` on each innermost loop of `LoopInfo`, walking
each top-level loop depth-first; whether any loop was distributed, and the state after. -/
def runOnFunction (cfg : Config) (ord : IterOrder) (an : Analyses) (LI : List LoopNest)
    (st : PassState) : Except String (Bool × PassState) :=
  processWorklist cfg ord an (worklist LI) (false, st)

/-- `processLoop` on each loop of a list in turn, or-ing the answers into `Changed`. -/
def processLoops (cfg : Config) (ord : IterOrder) (an : Analyses) :
    List Loop → Bool × PassState → Except String (Bool × PassState)
  | [], acc => pure acc
  | L :: rest, (Changed, st) => do
    let (b, st) ← processLoop cfg ord (an.getInfo st L) (an.blockNeedsPredication st L) L st
    processLoops cfg ord an rest (Changed || b, st)

variable {cfg : Config} {ord : IterOrder} {an : Analyses}

theorem processInnerLoop_of_empty {n : LoopNest} (h : n.empty = true) (st : PassState) :
    processInnerLoop cfg ord an n st =
      processLoop cfg ord (an.getInfo st n.loop) (an.blockNeedsPredication st n.loop) n.loop st := by
  simp [processInnerLoop, h]

theorem processWorklist_of_empty : ∀ (ns : List LoopNest), (∀ n ∈ ns, n.empty = true) →
    ∀ acc, processWorklist cfg ord an ns acc = processLoops cfg ord an (ns.map loop) acc
  | [], _, _ => rfl
  | n :: ns, h, (Changed, st) => by
    simp only [processWorklist, processLoops, List.map_cons,
      processInnerLoop_of_empty (h n (List.mem_cons_self _ _)),
      processWorklist_of_empty ns fun m hm => h m (List.mem_cons_of_mem _ hm)]

/-- **The pass runs `processLoop` on the innermost loops, in order.** `runOnFunction` is
`processLoop` on each innermost loop of `LoopInfo`, left to right, on the function each earlier
call left; the assertion that opens `processLoop`, that the loop has no subloops, never fails. -/
theorem runOnFunction_eq_processLoops (LI : List LoopNest) (st : PassState) :
    runOnFunction cfg ord an LI st = processLoops cfg ord an (innermostList LI) (false, st) := by
  rw [runOnFunction, processWorklist_of_empty _ (fun _ => empty_of_mem_worklist),
    worklist_map_loop]

/-- The guards of `processLoop`, read back from a reported change: a preheader, a single exit
block, a loop `LoopAccessAnalysis` could not vectorize, interesting dependences, at least two
partitions (from the bail-outs of `formPartitions`), and a `distribute` that succeeds. -/
theorem processLoop_eq_true_iff {lai : AccessInfo} {bnp : Nat → Bool} {L : Loop}
    {st st' : PassState} :
    processLoop cfg ord lai bnp L st = .ok (true, st') ↔
      ∃ ph deps parts, L.getLoopPreheader st.f = some ph ∧ L.getExitBlock st.f ≠ none ∧
        lai.canVectorizeMemory = false ∧ lai.interestingDependences = some deps ∧ deps ≠ [] ∧
        formPartitions cfg ord st.f L bnp lai.memoryInstructions deps = .ok (some parts) ∧
        2 ≤ parts.length ∧ distribute cfg ord lai L ph deps parts st = .ok st' := by
  constructor
  · intro h
    unfold processLoop at h
    rcases hph : L.getLoopPreheader st.f with _ | ph <;> simp only [hph] at h
    · cases h
    rcases hd : lai.interestingDependences with _ | deps
    · simp only [hd] at h; split_ifs at h <;> cases h
    rcases hf : formPartitions cfg ord st.f L bnp lai.memoryInstructions deps with e | _ | parts
    all_goals simp only [hd, hf, bind, Except.bind, pure, Except.pure] at h
    all_goals split_ifs at h with hX hcv hne
    all_goals try cases h
    split at h
    · cases h
    · rename_i hdist
      cases h
      obtain ⟨-, -, -, -, hlen⟩ := formPartitions_eq_some hf
      exact ⟨ph, deps, parts, rfl, by simpa using hX, by simpa using hcv, rfl, by simpa using hne, hf,
        hlen, hdist⟩
  · rintro ⟨ph, deps, parts, hph, hX, hcv, hd, hne, hf, -, hdist⟩
    unfold processLoop
    simp [hph, hX, hcv, hd, hne, hf, hdist, bind, Except.bind]
    rfl

/-- A run of the loop that answers `false` was given `false` and changed nothing. -/
theorem processLoops_unchanged : ∀ (Ls : List Loop) (Changed : Bool) (st st' : PassState),
    processLoops cfg ord an Ls (Changed, st) = .ok (false, st') → Changed = false ∧ st' = st
  | [], _, _, _, h => by cases h; exact ⟨rfl, rfl⟩
  | L :: Ls, Changed, st, st', h => by
    obtain ⟨⟨b, st₁⟩, h₁, h⟩ := bind_eq_ok h
    obtain ⟨hc, rfl⟩ := processLoops_unchanged Ls _ st₁ st' h
    obtain ⟨hC, rfl⟩ := Bool.or_eq_false_iff.1 hc
    rcases processLoop_eq_ok h₁ with ⟨-, rfl⟩ | ⟨h, -⟩
    · exact ⟨hC, rfl⟩
    · cases h

/-- **A pass that reports no change changed nothing.** When `runOnFunction` returns `false`, the
function and its dominator tree are as they were, as the pass manager assumes of a pass that
returns `false`: no loop's `processLoop` changed anything before it bailed out. -/
theorem runOnFunction_unchanged {LI : List LoopNest} {st st' : PassState}
    (h : runOnFunction cfg ord an LI st = .ok (false, st')) : st' = st := by
  rw [runOnFunction_eq_processLoops] at h
  exact (processLoops_unchanged _ false st st' h).2

/-- The analyses of a loop of the shape of `fourAccessFunc` that `LoopAccessAnalysis` finds
vectorizable as it is. -/
def vectorizableAnalyses : Analyses where
  getInfo _ _ := { fourAccessInfo [12, 13, 14, 15] [] false with canVectorizeMemory := true }
  blockNeedsPredication _ _ _ := false

/-- `fourAccessLoop` nested in an outer loop over the blocks of `fourAccessFunc`. -/
def fourAccessNest : List LoopNest := [.node ⟨[0, 1, 2]⟩ [.node fourAccessLoop []]]

theorem runOnFunction_unchanged_fourAccessNest : ∃ st',
    runOnFunction {} .ascending vectorizableAnalyses fourAccessNest
        ⟨fourAccessFunc, fourAccessDomTree⟩ = .ok (false, st') ∧
      st' = ⟨fourAccessFunc, fourAccessDomTree⟩ := by
  obtain ⟨st', h⟩ : ∃ st', runOnFunction {} .ascending vectorizableAnalyses fourAccessNest
      ⟨fourAccessFunc, fourAccessDomTree⟩ = .ok (false, st') := ⟨_, rfl⟩
  exact ⟨st', h, runOnFunction_unchanged h⟩

end LoopDistribute

end Llvm
