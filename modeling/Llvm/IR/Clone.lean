import Llvm.IR.Cfg

/-!
# Cloning, remapping and splitting blocks

The block-level primitives `LoopDistribute.cpp` calls from the LLVM libraries, which are not in
the sources: each is modelled from what the spec says of it.

* `ValueMap`, `mapValue`, `Inst.remap` : `ValueToValueMapTy` and `RemapInstruction` with
  `RF_IgnoreMissingEntries`;
* `cloneInsts`, `cloneBasicBlock` : `CloneBasicBlock`, every copy taking a fresh id;
* `spliceBefore` : moving blocks in the layout;
* `splitBlock` : `SplitBlock` at a terminator, with its dominator-tree update;
* `remapInstructionsInLoop` : the loop of the pass over cloned blocks.
-/

namespace Llvm

/-- `ValueToValueMapTy`, on the ids of instructions and blocks. -/
abbrev ValueMap := Nat → Option Nat

/-- The image of an id, or the id itself when the map has no entry for it. -/
def mapId (vmap : ValueMap) (i : Nat) : Nat := (vmap i).getD i

/-- `MapValue` with `RF_IgnoreMissingEntries`: a mapped instruction or block becomes its image,
anything else stays. -/
def mapValue (vmap : ValueMap) : Value → Value
  | .inst i => .inst (mapId vmap i)
  | .block b => .block (mapId vmap b)
  | v => v

/-- Modelled from the spec: `RemapInstruction` (library code), "remap all intra-clone references
via the accumulated instruction map": operands and a PHI's incoming blocks go through the map; the
metadata stays (`RF_NoModuleLevelChanges`). -/
def Inst.remap (vmap : ValueMap) (i : Inst) : Inst :=
  { i with operands := i.operands.map (mapValue vmap), incoming := i.incoming.map (mapId vmap) }

namespace Func

/-- The instruction loop of `CloneBasicBlock`: each copy takes the next free id and is recorded in
the value map. -/
def cloneInsts (f : Func) (vmap : ValueMap) : List Nat → Func × ValueMap × List Nat
  | [] => (f, vmap, [])
  | i :: is =>
    let r := cloneInsts { f with inst := Function.update f.inst f.fresh (f.inst i), fresh := f.fresh + 1 }
      (Function.update vmap i (some f.fresh)) is
    (r.1, r.2.1, f.fresh :: r.2.2)

variable (f : Func)

/-- Modelled from the spec: `CloneBasicBlock(BB, VMap, NameSuffix, F)` (library code), "clone the
loop's blocks": a new block at the end of the layout holding a copy of each instruction of `bb`.
Returns the new block's id. -/
def cloneBasicBlock (vmap : ValueMap) (bb : Nat) : Func × ValueMap × Nat :=
  let nb := f.fresh
  let r := cloneInsts { f with fresh := nb + 1 } vmap (f.body bb)
  ({ r.1 with blocks := r.1.blocks ++ [nb], body := Function.update r.1.body nb r.2.2 }, r.2.1, nb)

/-- The body of `remapInstructionsInLoop`: every instruction of the listed blocks is remapped. -/
def remapInstructionsInLoop (blocks : List Nat) (vmap : ValueMap) : Func :=
  blocks.foldl (fun g b => (g.body b).foldl (fun g i => g.setInst i ((g.inst i).remap vmap)) g) f

/-- `iplist::splice(Before, ...)`: the blocks `moved` leave their places and go, in their order,
right before `before`. -/
def spliceBefore (before : Nat) (moved : List Nat) : Func :=
  { f with blocks := (f.blocks.filter (· ∉ moved)).flatMap fun b => if b = before then moved ++ [b] else [b] }

/-- The edges from `old` that `splitBlock` moves to `new` rename `old` to `new` in the PHIs of the
successors. -/
def renamePhiIncoming (succs : List Nat) (old new : Nat) : Func :=
  { f with inst := fun i =>
      if (succs.any fun s => i ∈ f.body s) && (f.inst i).opcode == .phi then
        { f.inst i with incoming := (f.inst i).incoming.map fun b => if b = old then new else b }
      else f.inst i }

/-- Modelled from the spec: `SplitBlock(Old, Old->getTerminator(), DT, LI)` (library code), "split
the preheader ... to create a clean entry point": a new block after `old` takes its terminator,
`old` branches to it, the successors' PHIs name the new block, and in the dominator tree the new
block is dominated by `old` and takes over `old`'s children. Returns the new block's id. -/
def splitBlock (dt : DomTree) (old : Nat) : Func × DomTree × Nat :=
  let nb := f.fresh
  let br := f.fresh + 1
  let g : Func :=
    { blocks := f.blocks.flatMap fun b => if b = old then [b, nb] else [b]
      body := Function.update (Function.update f.body nb (f.body old).getLast?.toList) old
        ((f.body old).dropLast ++ [br])
      inst := Function.update f.inst br ⟨.br, [.block nb], [], [], []⟩
      fresh := f.fresh + 2 }
  (g.renamePhiIncoming (f.succs old) old nb,
    fun b => if b = nb then some old else if dt b = some old then some nb else dt b, nb)

end Func

end Llvm
