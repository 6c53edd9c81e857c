import Llvm.LoopDistribute.Distribute

/-!
# `RuntimeCheckEmitter`: versioning the loop behind the memchecks

* `addRuntimeCheck` : the check expression (LoopAccessAnalysis, not in the sources);
* `versionLoop` : the memcheck block, the split preheader, the fallback copy of the loop and the
  conditional branch between the two loops, with the dominator-tree updates;
* `exitPhiScan`, `addPHINodes` : the exit block's PHIs for the values used outside the loop, with
  the assertion that each PHI met has one operand;
* `rewriteFirstOutsideUser_cases` : a new PHI takes over the use of the first user outside the
  loop only, as the loop over `Inst->users()` ends once that use has moved to the PHI.
-/

namespace Llvm.LoopDistribute

/-- Modelled from the spec: `LoopAccessInfo::addRuntimeCheck` (LoopAccessAnalysis, not in the
sources), "generate the boolean runtime-check expression ..., placed at the end of the (now-empty)
original preheader": one instruction computing the check, before the terminator of `bb`. Returns
its id. -/
def addRuntimeCheck (f : Func) (bb : Nat) : Func × Nat :=
  ({ f with
      body := Function.update f.body bb ((f.body bb).dropLast ++ [f.fresh] ++ (f.body bb).getLast?.toList)
      inst := Function.update f.inst f.fresh ⟨.other, [], [], [], []⟩
      fresh := f.fresh + 1 }, f.fresh)

/-- The part of `RuntimeCheckEmitter` that `versionLoop` fills in: the fallback loop and the map
from the original loop to it. -/
structure Versioned where
  nonDistributedLoop : Loop
  vmap : ValueMap

/-- `RuntimeCheckEmitter::versionLoop`. -/
def versionLoop (origLoop : Loop) (st : PassState) : Except String (PassState × Versioned) := do
  let some memCheckBB := origLoop.getLoopPreheader st.f | .error "getLoopPreheader() is null"
  let (f, memRuntimeCheck) := addRuntimeCheck st.f memCheckBB
  let (f, dt, ph) := f.splitBlock st.dt memCheckBB
  let (st, vmap, nonDist, blocks) ← cloneLoopWithPreheader ⟨f, dt⟩ ph memCheckBB origLoop (fun _ => none)
  let f := st.f.remapInstructionsInLoop blocks vmap
  let some nonDistPH := nonDist.getLoopPreheader f | .error "getLoopPreheader() is null"
  let some origPH := origLoop.getLoopPreheader f | .error "getLoopPreheader() is null"
  if (f.getTerminator memCheckBB).isNone then .error "getTerminator() is null"
  let br := f.fresh
  let f : Func := { f with
    body := Function.update f.body memCheckBB ((f.body memCheckBB).dropLast ++ [br])
    inst := Function.update f.inst br ⟨.br, [.inst memRuntimeCheck, .block nonDistPH, .block origPH], [], [], []⟩
    fresh := f.fresh + 1 }
  let some exit := origLoop.getExitBlock f | .error "getExitBlock() is null"
  return (⟨f, st.dt.changeImmediateDominator exit memCheckBB⟩, ⟨nonDist, vmap⟩)

/-! ## `addPHINodes` -/

/-- The scan of the exit block for a single-operand PHI of `inst`: `none` when a non-PHI is met
first; the assertion fails at a PHI with more than one operand. -/
def exitPhiScan (f : Func) (inst : Nat) : List Nat → Except String (Option Nat)
  | [] => .ok none
  | i :: is =>
    if (f.inst i).opcode = .phi then
      if (f.inst i).operands.length ≠ 1 then .error "Exit block should only have on predecessor"
      else if (f.inst i).operands.head? = some (.inst inst) then .ok (some i)
      else exitPhiScan f inst is
    else .ok none

/-- `PHINode::addIncoming`. -/
def addIncoming (i : Inst) (v : Value) (b : Nat) : Inst :=
  { i with operands := i.operands ++ [v], incoming := i.incoming ++ [b] }

/-- The loop of `addPHINodes` over `Inst->users()`, in the order of the use list (modelled by
`Func.users`). Users inside the loop are passed over. The first user outside it is made to use
`pn`, and the loop ends there: `replaceUsesOfWith` moves the use the iterator stands on to the
use list of `pn`, which holds no other use. -/
def rewriteFirstOutsideUser (origLoop : Loop) (inst pn : Nat) (f : Func) : List Nat → Func
  | [] => f
  | u :: us =>
    if origLoop.contains f u then rewriteFirstOutsideUser origLoop inst pn f us
    else f.setInst u ((f.inst u).replaceUsesOfWith (.inst inst) (.inst pn))

/-- The users loop rewrites at most one user, and that one is outside the loop. -/
theorem rewriteFirstOutsideUser_cases (origLoop : Loop) (inst pn : Nat) (f : Func) :
    ∀ users : List Nat, rewriteFirstOutsideUser origLoop inst pn f users = f ∨
      ∃ u ∈ users, origLoop.contains f u = false ∧ rewriteFirstOutsideUser origLoop inst pn f users =
        f.setInst u ((f.inst u).replaceUsesOfWith (.inst inst) (.inst pn))
  | [] => .inl rfl
  | u :: us => by
    unfold rewriteFirstOutsideUser
    split
    · exact (rewriteFirstOutsideUser_cases origLoop inst pn f us).imp_right
        fun ⟨w, hw, hc, h⟩ => ⟨w, List.mem_cons_of_mem _ hw, hc, h⟩
    · next hc => exact .inr ⟨u, List.mem_cons_self _ _, eq_false_of_ne_true hc, rfl⟩

theorem rewriteFirstOutsideUser_elim {motive : Func → Prop} {f : Func} (origLoop : Loop)
    (inst pn : Nat) (users : List Nat) (h₀ : motive f)
    (h₁ : ∀ u ∈ users, origLoop.contains f u = false →
      motive (f.setInst u ((f.inst u).replaceUsesOfWith (.inst inst) (.inst pn)))) :
    motive (rewriteFirstOutsideUser origLoop inst pn f users) :=
  (rewriteFirstOutsideUser_cases origLoop inst pn f users).elim (fun h => by rw [h]; exact h₀)
    fun ⟨u, hu, hc, h⟩ => by rw [h]; exact h₁ u hu hc

/-- One turn of `addPHINodes`, for the value `inst` used outside the loop. -/
def addPHINode (origLoop : Loop) (v : Versioned) (phiBlock : Nat) (f : Func) (inst : Nat) :
    Except String Func := do
  let nonDistInst := mapId v.vmap inst
  let some nonDistExiting := v.nonDistributedLoop.getExitingBlock f | .error "getExitingBlock() is null"
  match ← exitPhiScan f inst (f.body phiBlock) with
  | some pn => return f.setInst pn (addIncoming (f.inst pn) (.inst nonDistInst) nonDistExiting)
  | none =>
    let some exiting := origLoop.getExitingBlock f | .error "getExitingBlock() is null"
    let pn := f.fresh
    let users := f.users (.inst inst)
    let f : Func := { f with
      body := Function.update f.body phiBlock (pn :: f.body phiBlock)
      inst := Function.update f.inst pn ⟨.phi, [], [], [], []⟩
      fresh := f.fresh + 1 }
    let f := rewriteFirstOutsideUser origLoop inst pn f users
    let f := f.setInst pn (addIncoming (f.inst pn) (.inst inst) exiting)
    return f.setInst pn (addIncoming (f.inst pn) (.inst nonDistInst) nonDistExiting)

/-- `RuntimeCheckEmitter::addPHINodes`. -/
def addPHINodes (origLoop : Loop) (v : Versioned) (defsUsedOutside : List Nat) (f : Func) :
    Except String Func := do
  let some phiBlock := origLoop.getExitBlock f | .error "No single successor to loop exit block"
  defsUsedOutside.foldlM (addPHINode origLoop v phiBlock) f

end Llvm.LoopDistribute
