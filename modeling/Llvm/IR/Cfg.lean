import Llvm.IR.Core
import Mathlib.Data.List.Chain

/-!
# Control flow: predecessors, the loop queries, paths and dominator trees

The queries `LoopDistribute.cpp` makes of the CFG, as `BasicBlock` and `LoopBase` answer them:

* `Func.preds`, `Func.getSinglePredecessor` : one predecessor entry per branch edge, as
  `pred_iterator` walks the uses of a block in terminators;
* `Loop.getLoopPreheader`, `Loop.getExitingBlocks`, `Loop.getExitBlocks` and their single-answer
  forms `getExitingBlock`, `getExitBlock`;
* `Func.IsPath`, `Func.Dominates` : paths along successor edges, and dominance as "every path from
  the entry meets `d`";
* `DomTree` : the immediate-dominator map the pass updates with `addNewBlock` and
  `changeImmediateDominator`, and `DomTree.IsDomTreeOf`, what a recomputed tree satisfies.
-/

namespace Llvm

namespace Func

variable (f : Func)

/-- The predecessors of `t`: a block once for each edge from it to `t`. -/
def preds (t : Nat) : List Nat := f.blocks.flatMap fun b => (f.succs b).filterMap fun s =>
  if s = t then some b else none

/-- `BasicBlock::getSinglePredecessor`: the predecessor when there is exactly one edge into `t`. -/
def getSinglePredecessor (t : Nat) : Option Nat :=
  match f.preds t with
  | [p] => some p
  | _ => none

/-- `BasicBlock::getSingleSuccessor`. -/
def getSingleSuccessor (b : Nat) : Option Nat :=
  match f.succs b with
  | [s] => some s
  | _ => none

/-- The function's entry block, the first in layout order. -/
def entry : Option Nat := f.blocks.head?

/-- A path: consecutive blocks are joined by successor edges. -/
def IsPath (l : List Nat) : Prop := l.Chain' fun a b => b ∈ f.succs a

/-- `IsPath`, computed edge by edge. -/
def isPath : List Nat → Bool
  | a :: b :: l => decide (b ∈ f.succs a) && isPath (b :: l)
  | _ => true

theorem isPath_iff : ∀ l, f.isPath l = true ↔ f.IsPath l
  | [] | [_] => by simp [isPath, IsPath]
  | a :: b :: l => by
    simp only [isPath, Bool.and_eq_true, decide_eq_true_eq, isPath_iff (b :: l)]
    exact (@List.chain'_cons _ (fun a b => b ∈ f.succs a) a b l).symm

instance (l : List Nat) : Decidable (f.IsPath l) := decidable_of_iff _ (f.isPath_iff l)

/-- `d` dominates `b`: every path from the entry to `b` passes through `d`. -/
def Dominates (d b : Nat) : Prop :=
  ∀ l, f.IsPath l → l.head? = f.entry → l.getLast? = some b → d ∈ l

/-- `b` can be reached from the entry. -/
def Reachable (b : Nat) : Prop :=
  ∃ l, f.IsPath l ∧ l.head? = f.entry ∧ l.getLast? = some b

theorem mem_preds {b t : Nat} : b ∈ f.preds t ↔ b ∈ f.blocks ∧ t ∈ f.succs b := by
  simp only [preds, List.mem_flatMap, List.mem_filterMap, Option.ite_none_right_eq_some,
    Option.some.injEq]
  constructor
  · rintro ⟨x, hx, s, hs, rfl, rfl⟩; exact ⟨hx, hs⟩
  · rintro ⟨hb, ht⟩; exact ⟨b, hb, t, ht, rfl, rfl⟩

/-- The only predecessor of `t` is `p`: it has an edge to `t`, and no other block has one. -/
theorem getSinglePredecessor_spec {t p : Nat} (h : f.getSinglePredecessor t = some p) :
    p ∈ f.blocks ∧ t ∈ f.succs p ∧ ∀ b ∈ f.blocks, t ∈ f.succs b → b = p := by
  unfold getSinglePredecessor at h
  split at h
  · rename_i hp
    cases h
    have hmem : ∀ b, b ∈ f.blocks ∧ t ∈ f.succs b ↔ b = p := fun b => by
      rw [← mem_preds, hp, List.mem_singleton]
    exact ⟨((hmem p).2 rfl).1, ((hmem p).2 rfl).2, fun b hb ht => (hmem b).1 ⟨hb, ht⟩⟩
  · cases h

/-- A path that starts in a region and ends outside it leaves the region; when every edge out of
the region goes to `e`, the path goes on from `e`. -/
theorem IsPath.exit_region {R : Nat → Prop} {e : Nat}
    (hR : ∀ b, R b → ∀ s ∈ f.succs b, R s ∨ s = e) :
    ∀ {l : List Nat} {a x : Nat}, f.IsPath (a :: l) → R a → (a :: l).getLast? = some x → ¬ R x →
      ∃ l', (e :: l') <:+ l ∧ f.IsPath (e :: l') ∧ (e :: l').getLast? = some x
  | [], a, x, _, ha, hx, hnx => by
    simp only [List.getLast?_singleton, Option.some.injEq] at hx; exact absurd (hx ▸ ha) hnx
  | b :: l, a, x, hp, ha, hx, hnx => by
    have hp' : f.IsPath (b :: l) := (List.chain'_cons.1 hp).2
    rcases hR a ha b (List.chain'_cons.1 hp).1 with hb | rfl
    · obtain ⟨l', hs, hp'', hx'⟩ := IsPath.exit_region hR hp' hb (by simpa using hx) hnx
      exact ⟨l', hs.trans (List.suffix_cons _ _), hp'', hx'⟩
    · exact ⟨l, List.suffix_refl _, hp', by simpa using hx⟩

/-- Regions entered one after the other: when every edge out of region `i` goes to the entry of
region `i + 1` (to `X` after the last), a path from the first entry to `X` passes all the entries
in order. -/
theorem IsPath.sublist_of_regions (X : Nat) : ∀ (phs : List Nat) (R : Nat → Nat → Prop),
    (∀ i (h : i < phs.length), R i phs[i]) →
    (∀ i < phs.length, ∀ b, R i b → ∀ s ∈ f.succs b, R i s ∨ s = (phs ++ [X]).getD (i + 1) 0) →
    (∀ i < phs.length, ¬ R i X ∧ ¬ R i ((phs ++ [X]).getD (i + 1) 0)) →
    ∀ l, f.IsPath l → l.head? = phs.head? → l.getLast? = some X → (phs ++ [X]).Sublist l
  | [], _, _, _, _, l, _, hh, hl => by
    cases l with
    | nil => cases hl
    | cons => cases hh
  | p :: phs, R, hin, hR, hout, l, hp, hh, hl => by
    cases l with
    | nil => cases hh
    | cons a l =>
      simp only [List.head?_cons, Option.some.injEq] at hh
      subst hh
      obtain ⟨l', hs, hp', hl'⟩ := @IsPath.exit_region f (R 0) _ (fun b hb s hs => by
        simpa using hR 0 (by simp) b hb s hs) _ _ _ hp (by simpa using hin 0 (by simp)) hl
        (hout 0 (by simp)).1
      refine List.Sublist.cons₂ _ (List.Sublist.trans ?_ hs.sublist)
      cases phs with
      | nil => simp
      | cons q phs =>
        refine IsPath.sublist_of_regions X (q :: phs) (fun i => R (i + 1))
          (fun i h => by simpa using hin (i + 1) (by simpa using h))
          (fun i h b hb s hs => by simpa using hR (i + 1) (by simpa using h) b hb s hs)
          (fun i h => by simpa using hout (i + 1) (by simpa using h)) _ hp' rfl hl'

end Func

/-- The query `Loop::contains(BB)`. -/
def Loop.containsBlock (L : Loop) (b : Nat) : Bool := b ∈ L.blocks

namespace Loop

variable (L : Loop) (f : Func)

/-- The header, the first block of the loop. -/
def getHeader : Option Nat := L.blocks.head?

/-- The scan of `Loop::getLoopPredecessor` over the header's predecessors: `out` is the outside
predecessor met so far, and a second one ends the scan with none. -/
def loopPredecessorScan : List Nat → Option Nat → Option Nat
  | [], out => out
  | n :: ns, out =>
    if L.containsBlock n then loopPredecessorScan ns out
    else match out with
      | some o => if o = n then loopPredecessorScan ns out else none
      | none => loopPredecessorScan ns (some n)

/-- `Loop::getLoopPredecessor`: the only predecessor of the header outside the loop. -/
def getLoopPredecessor : Option Nat :=
  L.getHeader.bind fun h => L.loopPredecessorScan (f.preds h) none

/-- `Loop::getLoopPreheader`: the loop predecessor, when the header is its only successor. -/
def getLoopPreheader : Option Nat :=
  match L.getLoopPredecessor f with
  | some p => if (f.succs p).length = 1 then some p else none
  | none => none

/-- The scan ends with the predecessor it started with or with one it met outside the loop. -/
theorem loopPredecessorScan_some {p : Nat} : ∀ {ns : List Nat} {out : Option Nat},
    L.loopPredecessorScan ns out = some p → out = some p ∨ (p ∈ ns ∧ L.containsBlock p = false)
  | [], _, h => .inl h
  | n :: ns, out, h => by
    unfold loopPredecessorScan at h
    split_ifs at h with hn
    · exact (loopPredecessorScan_some h).imp_right fun h' => ⟨List.mem_cons_of_mem _ h'.1, h'.2⟩
    · rcases out with _ | o
      · rcases loopPredecessorScan_some h with h' | h'
        · cases h'; exact .inr ⟨List.mem_cons_self _ _, by simpa using hn⟩
        · exact .inr ⟨List.mem_cons_of_mem _ h'.1, h'.2⟩
      · simp only at h
        split_ifs at h
        exact (loopPredecessorScan_some h).imp_right fun h' => ⟨List.mem_cons_of_mem _ h'.1, h'.2⟩

/-- Started on `some o`, the scan can only end on `o`, and only when every outside predecessor
is `o`. -/
theorem loopPredecessorScan_all_of_some {o p : Nat} : ∀ {ns : List Nat},
    L.loopPredecessorScan ns (some o) = some p →
      o = p ∧ ∀ n ∈ ns, L.containsBlock n = false → n = o
  | [], h => ⟨Option.some.inj h, fun _ h => absurd h (List.not_mem_nil _)⟩
  | n :: ns, h => by
    unfold loopPredecessorScan at h
    dsimp only at h
    split_ifs at h with hn h'
    · obtain ⟨h₁, h₂⟩ := loopPredecessorScan_all_of_some h
      refine ⟨h₁, fun m hm hmL => ?_⟩
      rcases List.mem_cons.1 hm with rfl | hm
      · simp [hmL] at hn
      · exact h₂ m hm hmL
    · obtain ⟨h₁, h₂⟩ := loopPredecessorScan_all_of_some h
      refine ⟨h₁, fun m hm hmL => ?_⟩
      rcases List.mem_cons.1 hm with rfl | hm
      · exact h'.symm
      · exact h₂ m hm hmL

/-- A scan from nothing that ends on `p` met only `p` outside the loop. -/
theorem loopPredecessorScan_all {p : Nat} : ∀ {ns : List Nat},
    L.loopPredecessorScan ns none = some p → ∀ n ∈ ns, L.containsBlock n = false → n = p
  | [], h => by cases h
  | n :: ns, h => by
    unfold loopPredecessorScan at h
    split_ifs at h with hn
    · intro m hm hmL
      rcases List.mem_cons.1 hm with rfl | hm
      · simp [hmL] at hn
      · exact loopPredecessorScan_all h m hm hmL
    · obtain ⟨h₁, h₂⟩ := loopPredecessorScan_all_of_some L h
      intro m hm hmL
      rcases List.mem_cons.1 hm with rfl | hm
      · exact h₁
      · exact h₁ ▸ h₂ m hm hmL

theorem loopPredecessorScan_some_of {p : Nat} : ∀ {ns : List Nat},
    (∀ n ∈ ns, L.containsBlock n = false → n = p) → L.loopPredecessorScan ns (some p) = some p
  | [], _ => rfl
  | n :: ns, hall => by
    unfold loopPredecessorScan
    split_ifs with hn
    · exact loopPredecessorScan_some_of fun m hm => hall m (List.mem_cons_of_mem _ hm)
    · simp only [hall n (List.mem_cons_self _ _) (by simpa using hn), if_true]
      exact loopPredecessorScan_some_of fun m hm => hall m (List.mem_cons_of_mem _ hm)

theorem loopPredecessorScan_none_of {p : Nat} : ∀ {ns : List Nat},
    (∀ n ∈ ns, L.containsBlock n = false → n = p) → p ∈ ns → L.containsBlock p = false →
      L.loopPredecessorScan ns none = some p
  | [], _, hp, _ => absurd hp (List.not_mem_nil _)
  | n :: ns, hall, hp, hpL => by
    unfold loopPredecessorScan
    split_ifs with hn
    · refine loopPredecessorScan_none_of (fun m hm => hall m (List.mem_cons_of_mem _ hm)) ?_ hpL
      rcases List.mem_cons.1 hp with rfl | hp
      · simp [hpL] at hn
      · exact hp
    · simp only
      rw [hall n (List.mem_cons_self _ _) (by simpa using hn)]
      exact loopPredecessorScan_some_of L fun m hm => hall m (List.mem_cons_of_mem _ hm)

/-- What a preheader is: a block of the function outside the loop whose only successor is the
header. -/
theorem getLoopPreheader_spec {p : Nat} (h : L.getLoopPreheader f = some p) :
    ∃ hd, L.getHeader = some hd ∧ p ∈ f.blocks ∧ L.containsBlock p = false ∧ f.succs p = [hd] ∧
      ∀ n ∈ f.preds hd, L.containsBlock n = false → n = p := by
  unfold getLoopPreheader getLoopPredecessor at h
  rcases hh : L.getHeader with _ | hd
  · simp [hh] at h
  simp only [hh, Option.some_bind] at h
  split at h
  · rename_i p' hp'
    split_ifs at h with hs
    cases h
    rcases loopPredecessorScan_some L hp' with h' | ⟨hmem, hpL⟩
    · cases h'
    rw [Func.mem_preds] at hmem
    obtain ⟨s, hs'⟩ := List.length_eq_one.1 hs
    rw [hs', List.mem_singleton] at hmem
    exact ⟨hd, rfl, hmem.1, hpL, hmem.2 ▸ hs', loopPredecessorScan_all L hp'⟩
  · cases h

/-- A block outside the loop is its preheader when it is the only outside predecessor of the header
and the header is its only successor. -/
theorem getLoopPreheader_eq_some {hd p : Nat} (hh : L.getHeader = some hd)
    (hall : ∀ n ∈ f.preds hd, L.containsBlock n = false → n = p) (hp : p ∈ f.preds hd)
    (hpL : L.containsBlock p = false) (hs : f.succs p = [hd]) : L.getLoopPreheader f = some p := by
  unfold getLoopPreheader getLoopPredecessor
  rw [hh, Option.some_bind, loopPredecessorScan_none_of L hall hp hpL]
  simp [hs]

/-- `LoopBase::getExitingBlocks`: the blocks of the loop with a successor outside it. -/
def getExitingBlocks : List Nat := L.blocks.filter fun b => (f.succs b).any fun s => !L.containsBlock s

/-- `LoopBase::getExitBlocks`: the target of every edge leaving the loop. -/
def getExitBlocks : List Nat := L.blocks.flatMap fun b => (f.succs b).filter fun s => !L.containsBlock s

/-- `LoopBase::getExitingBlock`. -/
def getExitingBlock : Option Nat :=
  match L.getExitingBlocks f with
  | [b] => some b
  | _ => none

/-- `LoopBase::getExitBlock`. -/
def getExitBlock : Option Nat :=
  match L.getExitBlocks f with
  | [b] => some b
  | _ => none

theorem mem_getExitBlocks {x : Nat} :
    x ∈ L.getExitBlocks f ↔ (∃ b ∈ L.blocks, x ∈ f.succs b) ∧ x ∉ L.blocks := by
  simp [getExitBlocks, containsBlock]
  tauto

/-- The single exit block is outside the loop, an edge goes to it, and every edge that leaves the
loop goes to it. -/
theorem getExitBlock_spec {x : Nat} (h : L.getExitBlock f = some x) :
    x ∉ L.blocks ∧ (∃ b ∈ L.blocks, x ∈ f.succs b) ∧
      ∀ b ∈ L.blocks, ∀ s ∈ f.succs b, s ∈ L.blocks ∨ s = x := by
  unfold getExitBlock at h
  split at h
  · rename_i hx
    cases h
    have hmem : ∀ s, s ∈ L.getExitBlocks f ↔ s = x := fun s => by rw [hx, List.mem_singleton]
    obtain ⟨h₁, h₂⟩ := (L.mem_getExitBlocks f).1 ((hmem x).2 rfl)
    refine ⟨h₂, h₁, fun b hb s hs => or_iff_not_imp_left.2 fun hsL => ?_⟩
    exact (hmem s).1 ((L.mem_getExitBlocks f).2 ⟨⟨b, hb, hs⟩, hsL⟩)
  · cases h

end Loop

/-- A dominator tree as the pass keeps it: the immediate dominator of each block. -/
abbrev DomTree := Nat → Option Nat

namespace DomTree

/-- Modelled from the spec: `DominatorTree::addNewBlock(BB, DomBB)` (library code), "new
preheader dominated by the same node that dominated the original preheader": `BB` gets the
immediate dominator `DomBB`. -/
def addNewBlock (dt : DomTree) (b d : Nat) : DomTree := Function.update dt b (some d)

/-- Modelled from the spec: `DominatorTree::changeImmediateDominator(BB, NewBB)` (library code). -/
def changeImmediateDominator (dt : DomTree) (b d : Nat) : DomTree := Function.update dt b (some d)

/-- What a dominator tree recomputed from the CFG says: every block reachable from the entry,
other than the entry, has an immediate dominator, which strictly dominates it and is dominated by
every other strict dominator. -/
def IsDomTreeOf (dt : DomTree) (f : Func) : Prop :=
  ∀ b, f.Reachable b → f.entry ≠ some b → ∃ d, dt b = some d ∧ d ≠ b ∧ f.Dominates d b ∧
    ∀ d', d' ≠ b → f.Dominates d' b → f.Dominates d' d

/-- A path from the entry to `b` that avoids the block the tree names as `b`'s immediate dominator
shows that the tree is not the one the CFG gives. -/
theorem not_isDomTreeOf_of_path {dt : DomTree} {f : Func} {b d : Nat} {l : List Nat}
    (hd : dt b = some d) (hp : f.IsPath l) (hh : l.head? = f.entry) (hl : l.getLast? = some b)
    (hb : f.entry ≠ some b) (hn : d ∉ l) : ¬ dt.IsDomTreeOf f := fun h => by
  obtain ⟨d', hd', -, hdom, -⟩ := h b ⟨l, hp, hh, hl⟩ hb
  rw [hd] at hd'
  cases hd'
  exact hn (hdom l hp hh hl)

end DomTree

end Llvm
