import Mathlib.Data.Finset.Basic

/-!
# The IR that `LoopDistribute.cpp` reads and writes

A function is its blocks in layout order, the instruction ids of each block (the terminator last)
and the instruction behind each id. Blocks and instructions take their ids from one counter, as
they take addresses from one heap, so a clone never reuses an id.

* `Value`, `Inst`, `Func` : operands name instructions, blocks (branch targets), values from outside
  the function body, or `undef`; a PHI's incoming blocks are kept beside its operands, as in LLVM;
* `Func.getTerminator`, `Func.succs`, `Func.users`, `Loop.contains` : the queries the pass makes;
* `Func.setInst`, `Func.replaceAllUsesWith`, `Func.eraseFromParent` : the mutations, with the
  `@[simp]` lemmas that read them back.
-/

namespace Llvm

/-- A `do` block in `Except` that returned `.ok` ran its first step to `.ok`. -/
theorem bind_eq_ok {ε α β : Type} {x : Except ε α} {g : α → Except ε β} {r : β}
    (h : x >>= g = .ok r) : ∃ a, x = .ok a ∧ g a = .ok r := by
  cases x with
  | error e => cases h
  | ok a => exact ⟨a, rfl, h⟩

/-- The instruction classes the pass tells apart (`LoadInst`, `StoreInst`, `PHINode`,
`BranchInst`); `term` is any other terminator. -/
inductive Opcode where
  | load | store | phi | br | term | other
  deriving DecidableEq, Repr

/-- What an operand names. `arg` stands for every value defined outside the function body
(arguments, constants, globals). -/
inductive Value where
  | inst (id : Nat)
  | block (label : Nat)
  | arg (n : Nat)
  | undef
  deriving DecidableEq, Repr

/-- The block a value names, if it names one. -/
def Value.getBlock? : Value → Option Nat
  | .block b => some b
  | _ => none

/-- The instruction a value names, if it names one. -/
def Value.getInst? : Value → Option Nat
  | .inst i => some i
  | _ => none

@[simp] theorem Value.mem_getInst? {v : Value} {i : Nat} : i ∈ v.getInst? ↔ v = .inst i := by
  cases v <;> simp [Value.getInst?]

/-- An instruction: its opcode, its operands, a PHI's incoming blocks (one per incoming value) and
the scopes of its `!noalias` and `!alias.scope` metadata. -/
structure Inst where
  opcode : Opcode
  operands : List Value
  incoming : List Nat := []
  noalias : List Nat := []
  aliasScope : List Nat := []
  deriving DecidableEq, Repr

instance : Inhabited Inst := ⟨⟨.other, [], [], [], []⟩⟩

/-- `User::replaceUsesOfWith`: every operand equal to `v` becomes `w`. -/
def Inst.replaceUsesOfWith (i : Inst) (v w : Value) : Inst :=
  { i with operands := i.operands.map fun o => if o = v then w else o }

/-- A function: blocks in layout order, each block's instructions, each id's instruction, and the
next unused id. -/
structure Func where
  blocks : List Nat
  body : Nat → List Nat
  inst : Nat → Inst
  fresh : Nat

/-- A loop, as `Loop::getBlocks()` lists it: the header first. -/
structure Loop where
  blocks : List Nat
  deriving DecidableEq, Repr

namespace Func

variable (f : Func)

/-- `BasicBlock::getTerminator`: the last instruction of the block. -/
def getTerminator (b : Nat) : Option Nat := (f.body b).getLast?

/-- The successors of a block: the block operands of its terminator. -/
def succs (b : Nat) : List Nat :=
  match f.getTerminator b with
  | some t => (f.inst t).operands.filterMap Value.getBlock?
  | none => []

/-- `isa<LoadInst>`. -/
def isLoad (i : Nat) : Bool := (f.inst i).opcode == .load

/-- `isa<StoreInst>`. -/
def isStore (i : Nat) : Bool := (f.inst i).opcode == .store

/-- `Instruction::getParent`: the first block, in layout order, that holds the instruction. -/
def getParent (i : Nat) : Option Nat := f.blocks.find? fun b => i ∈ f.body b

/-- Every instruction placed in a block of the function. -/
def allInsts : List Nat := f.blocks.flatMap f.body

/-- `Value::users`: the placed instructions with `v` among their operands. -/
def users (v : Value) : List Nat := f.allInsts.filter fun u => v ∈ (f.inst u).operands

/-- Replace the instruction behind id `i`. -/
def setInst (i : Nat) (x : Inst) : Func := { f with inst := Function.update f.inst i x }

/-- `Value::replaceAllUsesWith`: every user of `v` now uses `w` instead. -/
def replaceAllUsesWith (v w : Value) : Func :=
  { f with inst := fun u => if u ∈ f.users v then (f.inst u).replaceUsesOfWith v w else f.inst u }

/-- `Instruction::eraseFromParent`: the instruction leaves its block. -/
def eraseFromParent (i : Nat) : Func := { f with body := fun b => (f.body b).erase i }

@[simp] theorem setInst_inst (i : Nat) (x : Inst) (j : Nat) :
    (f.setInst i x).inst j = if j = i then x else f.inst j := by
  simp [setInst, Function.update_apply]

@[simp] theorem setInst_body (i : Nat) (x : Inst) : (f.setInst i x).body = f.body := rfl

@[simp] theorem setInst_blocks (i : Nat) (x : Inst) : (f.setInst i x).blocks = f.blocks := rfl

@[simp] theorem eraseFromParent_inst (i : Nat) : (f.eraseFromParent i).inst = f.inst := rfl

@[simp] theorem eraseFromParent_blocks (i : Nat) : (f.eraseFromParent i).blocks = f.blocks := rfl

@[simp] theorem replaceAllUsesWith_body (v w : Value) : (f.replaceAllUsesWith v w).body = f.body :=
  rfl

@[simp] theorem replaceAllUsesWith_blocks (v w : Value) :
    (f.replaceAllUsesWith v w).blocks = f.blocks := rfl

end Func

/-- `Loop::contains(I->getParent())`: the instruction sits in a block of the loop. -/
def Loop.contains (L : Loop) (f : Func) (i : Nat) : Bool := L.blocks.any fun b => i ∈ f.body b

/-- The instructions of the loop's blocks, block by block. -/
def Loop.insts (L : Loop) (f : Func) : List Nat := L.blocks.flatMap f.body

theorem Loop.contains_iff (L : Loop) (f : Func) (i : Nat) :
    L.contains f i ↔ i ∈ L.insts f := by
  simp [Loop.contains, Loop.insts]

/-- What the pass takes for granted of a loop in well-formed IR: it has blocks, all of them blocks
of the function, each ending in a branch or another terminator; and no placed instruction uses a
store, which defines no value. -/
structure Loop.WellFormed (L : Loop) (f : Func) : Prop where
  blocks_ne_nil : L.blocks ≠ []
  blocks_sub : ∀ b ∈ L.blocks, b ∈ f.blocks
  terminator : ∀ b ∈ L.blocks, ∃ t ∈ (f.getTerminator b).toList,
    (f.inst t).opcode = .br ∨ (f.inst t).opcode = .term
  store_unused : ∀ u ∈ f.allInsts, ∀ j ∈ (f.inst u).operands.filterMap Value.getInst?,
    f.isStore j = false

theorem Loop.WellFormed.mem_allInsts {L : Loop} {f : Func} (hwf : L.WellFormed f) {u : Nat}
    (hu : L.contains f u = true) : u ∈ f.allInsts := by
  rw [Loop.contains_iff, Loop.insts, List.mem_flatMap] at hu
  obtain ⟨b, hb, hu⟩ := hu
  exact List.mem_flatMap.2 ⟨b, hwf.blocks_sub b hb, hu⟩

theorem Loop.WellFormed.not_operand_of_store {L : Loop} {f : Func} (hwf : L.WellFormed f) {u x : Nat}
    (hu : u ∈ f.allInsts) (hx : f.isStore x = true) : Value.inst x ∉ (f.inst u).operands := fun h => by
  have := hwf.store_unused u hu x (List.mem_filterMap.2 ⟨_, h, rfl⟩)
  rw [hx] at this; cases this

end Llvm
