import Mathlib.Logic.Function.Basic

/-!
# The availability table of `TargetLibraryInfo.h`

`TargetLibraryInfoImpl` keeps, for each library function `F < NumLibFuncs`, a 2-bit state at bit
`2*(F&3)` of the byte `AvailableArray[F/4]`: `StandardName` (3), `CustomName` (1) or
`Unavailable` (0); the names of the `CustomName` functions are in the map `CustomNames`.
`TargetLibraryInfo::has` and `TargetLibraryInfo::getName` read the table.

* `field_setState` : `setState` rewrites exactly `F`'s two bits, those of field `F&3` of
  `AvailableArray[F/4]`; `getState_setState` reads the state back;
* `TargetLibraryInfoImpl.WellFormed` : no field holds 2 and every `CustomName` function has an
  entry in `CustomNames`; every call keeps it (`WellFormed.apply`);
* `names_apply` : the packed table refines a map from functions to the name they are available
  under, which each call updates at its own function only; `getName_eq_names` and
  `has_eq_names` read the two queries off that map on well-formed tables;
* `runCalls_getName` : after any sequence of calls, `getName` returns what the last call on each
  function set, and `getName`, `has` are unchanged on the functions no call names;
* `runCalls_hasOptimizedCodeGen` : after any sequence of calls, `hasOptimizedCodeGen` holds of
  the functions its `switch` lists that the last call on them left available.
-/

namespace Llvm

/-- `LibFunc::NumLibFuncs`: the number of functions the `LibFunc::Func` enum lists. -/
def numLibFuncs : Nat := 330

/-- The length of `AvailableArray`: `(LibFunc::NumLibFuncs+3)/4` bytes. -/
def availableArraySize : Nat := (numLibFuncs + 3) / 4

/-- `TargetLibraryInfoImpl::AvailabilityState`. -/
inductive AvailabilityState where
  | standardName | customName | unavailable
  deriving DecidableEq, Repr

/-- The values of the enumerators: `StandardName = 3`, `CustomName = 1`, `Unavailable = 0`. -/
def AvailabilityState.toBits : AvailabilityState → BitVec 8
  | standardName => 3
  | customName => 1
  | unavailable => 0

theorem AvailabilityState.toNat_toBits_lt (st : AvailabilityState) : st.toBits.toNat < 4 := by
  cases st <;> decide

theorem AvailabilityState.toBits_ne_two (st : AvailabilityState) : st.toBits ≠ 2 := by
  cases st <;> decide

/-! ## A 2-bit field of a byte -/

theorem land_three (n : Nat) : n &&& 3 = n % 4 := Nat.and_pow_two_sub_one_eq_mod n 2

@[simp] theorem getLsbD_three (n : Nat) : (BitVec.ofNat 8 3).getLsbD n = decide (n < 2) := by
  rcases n with _ | _ | n
  · rfl
  · rfl
  · simp [BitVec.getLsbD_ofNat, Nat.testBit_lt_two_pow (show 3 < 2 ^ (n + 2) from
      Nat.lt_of_lt_of_le (by decide) (Nat.pow_le_pow_right (by decide) (Nat.le_add_left 2 n)))]

/-- Clearing field `k` of a byte and or-ing a value below 4 into it sets field `k` to the value and
keeps every other field. -/
theorem field_clear_or (b v : BitVec 8) (j k : Nat) (hj : j < 4) (hk : k < 4) (hv : v.toNat < 4) :
    ((b &&& ~~~((3 : BitVec 8) <<< (2 * k)) ||| v <<< (2 * k)) >>> (2 * j)) &&& 3 =
      if j = k then v else (b >>> (2 * j)) &&& 3 := by
  have hv' : ∀ n, 2 ≤ n → v.getLsbD n = false := fun n hn =>
    Nat.testBit_lt_two_pow (Nat.lt_of_lt_of_le hv (Nat.pow_le_pow_right (by decide) hn : 2 ^ 2 ≤ 2 ^ n))
  apply BitVec.eq_of_getLsbD_eq
  intro ⟨i, hi⟩
  by_cases hi2 : i < 2
  · have hw : 2 * j + i < 8 := by omega
    split_ifs with h
    · subst h
      have : ¬ 2 * j + i < 2 * j := by omega
      simp [hi2, hw, this, Nat.add_sub_cancel_left]
    · rcases Nat.lt_or_gt_of_ne h with hlt | hgt
      · have : 2 * j + i < 2 * k := by omega
        simp [hi2, hw, this, Nat.add_sub_cancel_left]
      · have h1 : ¬ 2 * j + i < 2 * k := by omega
        have h2 : ¬ 2 * j + i - 2 * k < 2 := by omega
        simp [hi2, hw, h1, h2, hv' _ (Nat.le_of_not_lt h2)]
  · split_ifs <;> simp [hi2, hv' i (Nat.le_of_not_lt hi2)]

/-- The fields of `TargetLibraryInfoImpl` that `setState`, `getState` and the name queries read.
The static table `StandardNames` is a parameter of the functions that read it. -/
structure TargetLibraryInfoImpl where
  availableArray : Fin availableArraySize → BitVec 8
  customNames : Nat → Option String

namespace TargetLibraryInfoImpl

/-- The byte that holds `F`'s state: `AvailableArray[F/4]`. -/
def byteOf (F : Fin numLibFuncs) : Fin availableArraySize :=
  ⟨F.val / 4, by have := F.isLt; unfold availableArraySize numLibFuncs at *; omega⟩

/-- `TargetLibraryInfoImpl::setState`: clear `F`'s two bits, then or in `State`. -/
def setState (s : TargetLibraryInfoImpl) (F : Fin numLibFuncs) (State : AvailabilityState) :
    TargetLibraryInfoImpl :=
  let cleared := Function.update s.availableArray (byteOf F)
    (s.availableArray (byteOf F) &&& ~~~((3 : BitVec 8) <<< (2 * (F.val &&& 3))))
  { s with
    availableArray := Function.update cleared (byteOf F)
      (cleared (byteOf F) ||| State.toBits <<< (2 * (F.val &&& 3))) }

/-- `TargetLibraryInfoImpl::getState`, as the raw two bits (the cast may yield 2, which no
enumerator names). -/
def getState (s : TargetLibraryInfoImpl) (F : Fin numLibFuncs) : BitVec 8 :=
  (s.availableArray (byteOf F) >>> (2 * (F.val &&& 3))) &&& 3

/-- `TargetLibraryInfoImpl::setUnavailable`. -/
def setUnavailable (s : TargetLibraryInfoImpl) (F : Fin numLibFuncs) : TargetLibraryInfoImpl :=
  s.setState F .unavailable

/-- `TargetLibraryInfoImpl::setAvailable`. -/
def setAvailable (s : TargetLibraryInfoImpl) (F : Fin numLibFuncs) : TargetLibraryInfoImpl :=
  s.setState F .standardName

/-- `TargetLibraryInfoImpl::setAvailableWithName`. Its assertion that `CustomNames` has an entry
for `F` right after `CustomNames[F] = Name` holds by `Function.update_same`. -/
def setAvailableWithName (standardNames : Fin numLibFuncs → String) (s : TargetLibraryInfoImpl)
    (F : Fin numLibFuncs) (Name : String) : TargetLibraryInfoImpl :=
  if standardNames F ≠ Name then
    { s.setState F .customName with customNames := Function.update s.customNames F.val (some Name) }
  else s.setState F .standardName

/-- The 2-bit field `j` of byte `i` of `AvailableArray`. -/
def field (s : TargetLibraryInfoImpl) (i : Fin availableArraySize) (j : Fin 4) : BitVec 8 :=
  (s.availableArray i >>> (2 * j.val)) &&& 3

@[simp] theorem setState_customNames (s : TargetLibraryInfoImpl) (F : Fin numLibFuncs)
    (State : AvailabilityState) : (s.setState F State).customNames = s.customNames := rfl

theorem setState_availableArray (s : TargetLibraryInfoImpl) (F : Fin numLibFuncs)
    (State : AvailabilityState) :
    (s.setState F State).availableArray = Function.update s.availableArray (byteOf F)
      (s.availableArray (byteOf F) &&& ~~~((3 : BitVec 8) <<< (2 * (F.val % 4))) |||
        State.toBits <<< (2 * (F.val % 4))) := by
  simp only [setState, Function.update_same, Function.update_idem, land_three]

/-- `setState` rewrites exactly `F`'s two bits: field `F&3` of byte `F/4`. -/
theorem field_setState (s : TargetLibraryInfoImpl) (F : Fin numLibFuncs) (State : AvailabilityState)
    (i : Fin availableArraySize) (j : Fin 4) :
    (s.setState F State).field i j =
      if i = byteOf F ∧ j.val = F.val % 4 then State.toBits else s.field i j := by
  unfold field
  rw [setState_availableArray]
  by_cases hi : i = byteOf F
  · subst hi
    rw [Function.update_same, field_clear_or _ _ _ _ j.isLt (Nat.mod_lt _ (by decide))
      State.toNat_toBits_lt]
    simp
  · simp [Function.update_noteq hi, hi]

theorem getState_eq_field (s : TargetLibraryInfoImpl) (F : Fin numLibFuncs) :
    s.getState F = s.field (byteOf F) ⟨F.val % 4, Nat.mod_lt _ (by decide)⟩ := by
  simp only [getState, field, land_three]

theorem getState_setState (s : TargetLibraryInfoImpl) (F G : Fin numLibFuncs) (State : AvailabilityState) :
    (s.setState F State).getState G = if G = F then State.toBits else s.getState G := by
  have same : (byteOf G = byteOf F ∧ G.val % 4 = F.val % 4) ↔ G = F := by
    simp only [byteOf, Fin.mk.injEq, Fin.ext_iff]
    omega
  simp only [getState_eq_field, field_setState, same]

theorem toNat_getState_lt (s : TargetLibraryInfoImpl) (F : Fin numLibFuncs) : (s.getState F).toNat < 4 := by
  simp only [getState, BitVec.toNat_and]
  exact Nat.lt_of_le_of_lt Nat.and_le_right (by decide)

/-- The invariant of the table: no field holds 2, and every function whose state is
`CustomName` has an entry in `CustomNames`. -/
structure WellFormed (s : TargetLibraryInfoImpl) : Prop where
  field_ne_two : ∀ i j, s.field i j ≠ 2
  customNamed : ∀ F, s.getState F = AvailabilityState.customName.toBits → (s.customNames F.val).isSome

end TargetLibraryInfoImpl

namespace TargetLibraryInfo

/-- `TargetLibraryInfo::has`. -/
def has (Impl : TargetLibraryInfoImpl) (F : Fin numLibFuncs) : Bool :=
  Impl.getState F != AvailabilityState.unavailable.toBits

/-- The functions the `switch` of `hasOptimizedCodeGen` lists, by their index in `LibFunc::Func`:
`copysign` 84, `copysignf` 85, `copysignl` 86, `fabs` 106, `fabsf` 107, `fabsl` 108, `sin` 253,
`sinf` 254, `sinl` 258, `cos` 87, `cosf` 88, `cosl` 92, `sqrt` 262, `sqrtf` 263, `sqrtl` 264,
`sqrt_finite` 33, `sqrtf_finite` 34, `sqrtl_finite` 35, `fmax` 126, `fmaxf` 127, `fmaxl` 128,
`fmin` 129, `fminf` 130, `fminl` 131, `floor` 123, `floorf` 124, `floorl` 125, `nearbyint` 212,
`nearbyintf` 213, `nearbyintl` 214, `ceil` 77, `ceilf` 78, `ceill` 79, `rint` 242, `rintf` 243,
`rintl` 244, `round` 246, `roundf` 247, `roundl` 248, `trunc` 312, `truncf` 313, `truncl` 314,
`log2` 187, `log2f` 188, `log2l` 189, `exp2` 98, `exp2f` 99, `exp2l` 100, `memcmp` 201,
`strcmp` 275, `strcpy` 277, `stpcpy` 270, `strlen` 280, `strnlen` 286, `memchr` 200. -/
def optimizedCodeGenFuncs : List Nat :=
  [84, 85, 86, 106, 107, 108, 253, 254, 258, 87, 88, 92, 262, 263, 264, 33, 34, 35, 126, 127, 128,
    129, 130, 131, 123, 124, 125, 212, 213, 214, 77, 78, 79, 242, 243, 244, 246, 247, 248, 312, 313,
    314, 187, 188, 189, 98, 99, 100, 201, 275, 277, 270, 280, 286, 200]

/-- `TargetLibraryInfo::hasOptimizedCodeGen`. -/
def hasOptimizedCodeGen (Impl : TargetLibraryInfoImpl) (F : Fin numLibFuncs) : Bool :=
  if Impl.getState F = AvailabilityState.unavailable.toBits then false
  else optimizedCodeGenFuncs.contains F.val

theorem hasOptimizedCodeGen_eq (Impl : TargetLibraryInfoImpl) (F : Fin numLibFuncs) :
    hasOptimizedCodeGen Impl F = (optimizedCodeGenFuncs.contains F.val && has Impl F) := by
  unfold hasOptimizedCodeGen has
  split <;> simp_all

/-- `TargetLibraryInfo::getName`; the failed assertion and the read through the end iterator of
`CustomNames` are errors. -/
def getName (standardNames : Fin numLibFuncs → String) (Impl : TargetLibraryInfoImpl)
    (F : Fin numLibFuncs) : Except String String :=
  let State := Impl.getState F
  if State = AvailabilityState.unavailable.toBits then .ok ""
  else if State = AvailabilityState.standardName.toBits then .ok (standardNames F)
  else if State ≠ AvailabilityState.customName.toBits then
    .error "assert(State == TargetLibraryInfoImpl::CustomName)"
  else match Impl.customNames F.val with
    | some Name => .ok Name
    | none => .error "CustomNames.find(F) is CustomNames.end()"

end TargetLibraryInfo

/-! ## Sequences of calls -/

/-- The calls that change the table. -/
inductive Call where
  | setUnavailable (F : Fin numLibFuncs)
  | setAvailable (F : Fin numLibFuncs)
  | setAvailableWithName (F : Fin numLibFuncs) (Name : String)

namespace Call

variable (standardNames : Fin numLibFuncs → String)

/-- The function a call is on. -/
def func : Call → Fin numLibFuncs
  | setUnavailable F | setAvailable F | setAvailableWithName F _ => F

/-- Make the call on a table. -/
def apply : Call → TargetLibraryInfoImpl → TargetLibraryInfoImpl
  | setUnavailable F, s => s.setUnavailable F
  | setAvailable F, s => s.setAvailable F
  | setAvailableWithName F Name, s => s.setAvailableWithName standardNames F Name

/-- The state a call writes into its function's field. -/
def state : Call → AvailabilityState
  | setUnavailable _ => .unavailable
  | setAvailable _ => .standardName
  | setAvailableWithName F Name => if standardNames F ≠ Name then .customName else .standardName

/-- The name `getName` should report after the call: the empty string, the standard name, or
the name given. -/
def name : Call → String
  | setUnavailable _ => ""
  | setAvailable F => standardNames F
  | setAvailableWithName _ Name => Name

/-- What the call makes of its function: unavailable, or available under a name. -/
def target : Call → Option String
  | setUnavailable _ => none
  | setAvailable F => some (standardNames F)
  | setAvailableWithName _ Name => some Name

variable {standardNames}

/-- Every call is a `setState` of its function, with a `CustomNames` entry when it writes
`CustomName`. -/
theorem apply_eq (c : Call) (s : TargetLibraryInfoImpl) :
    c.apply standardNames s =
      { s.setState c.func (c.state standardNames) with
        customNames := if c.state standardNames = .customName then
          Function.update s.customNames c.func.val (some (c.name standardNames)) else s.customNames } := by
  cases c with
  | setUnavailable F => rfl
  | setAvailable F => rfl
  | setAvailableWithName F Name =>
    by_cases h : standardNames F = Name
    · simp [apply, state, name, func, TargetLibraryInfoImpl.setAvailableWithName, h]; rfl
    · simp [apply, state, name, func, TargetLibraryInfoImpl.setAvailableWithName, h]

theorem getState_apply (c : Call) (s : TargetLibraryInfoImpl) (G : Fin numLibFuncs) :
    (c.apply standardNames s).getState G =
      if G = c.func then (c.state standardNames).toBits else s.getState G := by
  rw [apply_eq]
  exact s.getState_setState _ _ _

theorem field_apply (c : Call) (s : TargetLibraryInfoImpl) (i : Fin availableArraySize) (j : Fin 4) :
    (c.apply standardNames s).field i j =
      if i = TargetLibraryInfoImpl.byteOf c.func ∧ j.val = c.func.val % 4 then
        (c.state standardNames).toBits else s.field i j := by
  rw [apply_eq]
  exact s.field_setState _ _ _ _

theorem customNames_apply (c : Call) (s : TargetLibraryInfoImpl) (n : Nat) :
    (c.apply standardNames s).customNames n =
      if c.state standardNames = .customName ∧ n = c.func.val then some (c.name standardNames)
      else s.customNames n := by
  rw [apply_eq]
  by_cases hc : c.state standardNames = .customName
  · by_cases hn : n = c.func.val
    · subst hn; simp [hc]
    · simp [hc, hn]
  · simp [hc]

theorem getD_target (c : Call) : (c.target standardNames).getD "" = c.name standardNames := by
  cases c <;> rfl

end Call

namespace TargetLibraryInfoImpl

variable {standardNames : Fin numLibFuncs → String} {s : TargetLibraryInfoImpl}

@[simp] theorem AvailabilityState.toBits_inj {a b : AvailabilityState} : a.toBits = b.toBits ↔ a = b := by
  cases a <;> cases b <;> decide

/-- Every call keeps the invariant. -/
theorem WellFormed.apply (hs : s.WellFormed) (c : Call) : (c.apply standardNames s).WellFormed where
  field_ne_two i j := by
    rw [Call.field_apply]
    split_ifs
    · exact AvailabilityState.toBits_ne_two _
    · exact hs.field_ne_two i j
  customNamed G hG := by
    rw [Call.getState_apply] at hG
    rw [Call.customNames_apply]
    split_ifs at hG with hG'
    · subst hG'
      simp [AvailabilityState.toBits_inj.mp hG]
    · have hn : G.val ≠ c.func.val := fun h => hG' (Fin.ext h)
      simpa [hn] using hs.customNamed G hG

/-- The name each function is available under (`none`: unavailable), as the table stands for it. -/
def names (standardNames : Fin numLibFuncs → String) (s : TargetLibraryInfoImpl)
    (F : Fin numLibFuncs) : Option String :=
  if s.getState F = AvailabilityState.unavailable.toBits then none
  else if s.getState F = AvailabilityState.standardName.toBits then some (standardNames F)
  else s.customNames F.val

/-- The packed table refines the map of names: a call updates it at its own function only. -/
theorem names_apply (c : Call) (s : TargetLibraryInfoImpl) :
    (c.apply standardNames s).names standardNames =
      Function.update (s.names standardNames) c.func (c.target standardNames) := by
  funext G
  by_cases hG : G = c.func
  · subst hG
    simp only [names, Call.getState_apply, Call.customNames_apply, if_true, Function.update_same, and_true]
    cases c with
    | setUnavailable F => rfl
    | setAvailable F => rfl
    | setAvailableWithName F Name =>
      by_cases h : standardNames F = Name <;> simp [Call.state, Call.target, Call.name, Call.func, h]
  · have hn : G.val ≠ c.func.val := fun h => hG (Fin.ext h)
    simp only [names, Call.getState_apply, Call.customNames_apply, hG, hn, if_false, and_false,
      Function.update_noteq hG]

theorem getState_eq_customName (hs : s.WellFormed) (F : Fin numLibFuncs)
    (h0 : s.getState F ≠ AvailabilityState.unavailable.toBits)
    (h3 : s.getState F ≠ AvailabilityState.standardName.toBits) :
    s.getState F = AvailabilityState.customName.toBits := by
  have h2 : s.getState F ≠ 2 := getState_eq_field s F ▸ hs.field_ne_two _ _
  have hlt := s.toNat_getState_lt F
  simp only [AvailabilityState.toBits] at *
  bv_omega

/-- On a well-formed table `getName` reports the name of the map, the empty string if none. -/
theorem getName_eq_names (hs : s.WellFormed) (F : Fin numLibFuncs) :
    TargetLibraryInfo.getName standardNames s F = .ok ((s.names standardNames F).getD "") := by
  dsimp only [TargetLibraryInfo.getName, names]
  split_ifs with h0 h3 h1
  · rfl
  · rfl
  · exact absurd (getState_eq_customName hs F h0 h3) h1
  · obtain ⟨n, hn⟩ := Option.isSome_iff_exists.mp (hs.customNamed F (getState_eq_customName hs F h0 h3))
    simp [hn]

theorem has_eq_names (hs : s.WellFormed) (F : Fin numLibFuncs) :
    TargetLibraryInfo.has s F = (s.names standardNames F).isSome := by
  dsimp only [TargetLibraryInfo.has, names]
  split_ifs with h0 h3
  · simp [h0]
  · simp [h0]
  · simp [h0, hs.customNamed F (getState_eq_customName hs F h0 h3)]

end TargetLibraryInfoImpl

/-- The calls made in order on a table. -/
def runCalls (standardNames : Fin numLibFuncs → String) (cs : List Call) (s : TargetLibraryInfoImpl) :
    TargetLibraryInfoImpl :=
  cs.foldl (fun s c => c.apply standardNames s) s

/-- The last call of `cs` on `F`, if any. -/
def lastCallOn (F : Fin numLibFuncs) (cs : List Call) : Option Call :=
  (cs.filter fun c => c.func = F).getLast?

section Runs

variable {standardNames : Fin numLibFuncs → String}

theorem lastCallOn_cons (F : Fin numLibFuncs) (c : Call) (cs : List Call) :
    lastCallOn F (c :: cs) = (lastCallOn F cs).or (if c.func = F then some c else none) := by
  by_cases h : c.func = F
  · rw [lastCallOn, lastCallOn, List.filter_cons_of_pos (by simpa using h), List.getLast?_cons, if_pos h]
    cases (cs.filter fun c => c.func = F).getLast? <;> rfl
  · simp [lastCallOn, List.filter_cons, h]

theorem wellFormed_runCalls (cs : List Call) :
    ∀ s : TargetLibraryInfoImpl, s.WellFormed → (runCalls standardNames cs s).WellFormed := by
  induction cs with
  | nil => exact fun _ hs => hs
  | cons c cs ih => exact fun s hs => ih _ (hs.apply c)

/-- After a run, each function is what the last call on it made it, or what it was. -/
theorem names_runCalls (cs : List Call) (F : Fin numLibFuncs) :
    ∀ s : TargetLibraryInfoImpl, (runCalls standardNames cs s).names standardNames F =
      match lastCallOn F cs with
      | some c => c.target standardNames
      | none => s.names standardNames F := by
  induction cs with
  | nil => intro s; rfl
  | cons c cs ih =>
    intro s
    rw [runCalls, List.foldl_cons, ← runCalls, ih, lastCallOn_cons, TargetLibraryInfoImpl.names_apply]
    cases lastCallOn F cs with
    | some c' => rfl
    | none =>
      by_cases h : c.func = F
      · subst h; simp
      · simp [Function.update_noteq (Ne.symm h), h]

/-- Every function available under its standard name: `AvailableArray` all ones, the fill the
comment on `StandardName` names. -/
def allStandard : TargetLibraryInfoImpl := ⟨fun _ => 255, fun _ => none⟩

theorem field_allStandard (i : Fin availableArraySize) (j : Fin 4) : allStandard.field i j = 3 := by
  show ((255 : BitVec 8) >>> (2 * j.val)) &&& 3 = 3
  revert j
  decide

theorem wellFormed_allStandard : allStandard.WellFormed where
  field_ne_two i j := by rw [field_allStandard]; decide
  customNamed F h := by
    rw [TargetLibraryInfoImpl.getState_eq_field, field_allStandard] at h
    exact absurd h (by decide)

theorem runCalls_getName (standardNames : Fin numLibFuncs → String) (s : TargetLibraryInfoImpl)
    (hs : s.WellFormed) (cs : List Call) :
    (runCalls standardNames cs s).WellFormed ∧
      (∀ F, TargetLibraryInfo.getName standardNames (runCalls standardNames cs s) F =
        match lastCallOn F cs with
        | some c => .ok (c.name standardNames)
        | none => TargetLibraryInfo.getName standardNames s F) ∧
      (∀ G, lastCallOn G cs = none →
        TargetLibraryInfo.has (runCalls standardNames cs s) G = TargetLibraryInfo.has s G) ∧
      ∀ F State i j, (s.setState F State).field i j =
        if i = TargetLibraryInfoImpl.byteOf F ∧ j.val = F.val % 4 then State.toBits
        else s.field i j := by
  have hwf := @wellFormed_runCalls standardNames cs s hs
  refine ⟨hwf, fun F => ?_, fun G hG => ?_, s.field_setState⟩
  · rw [TargetLibraryInfoImpl.getName_eq_names hwf, names_runCalls]
    cases lastCallOn F cs with
    | some c => rw [Call.getD_target]
    | none => rw [TargetLibraryInfoImpl.getName_eq_names hs]
  · rw [@TargetLibraryInfoImpl.has_eq_names standardNames _ hwf,
      TargetLibraryInfoImpl.has_eq_names hs, names_runCalls, hG]

/-- **`hasOptimizedCodeGen` after a run of calls.** On a well-formed table, after any sequence of
`setUnavailable`, `setAvailable` and `setAvailableWithName` calls, a function has optimized code
generation exactly when the `switch` lists it and the last call on it, if any, left it available;
when no call names it, when it was available before the run. -/
theorem runCalls_hasOptimizedCodeGen {s : TargetLibraryInfoImpl} (hs : s.WellFormed)
    (cs : List Call) (F : Fin numLibFuncs) :
    TargetLibraryInfo.hasOptimizedCodeGen (runCalls standardNames cs s) F =
      (TargetLibraryInfo.optimizedCodeGenFuncs.contains F.val &&
        match lastCallOn F cs with
        | some c => c.state standardNames != .unavailable
        | none => TargetLibraryInfo.has s F) := by
  rw [TargetLibraryInfo.hasOptimizedCodeGen_eq,
    @TargetLibraryInfoImpl.has_eq_names standardNames _ (wellFormed_runCalls cs s hs), names_runCalls]
  cases lastCallOn F cs with
  | some c =>
    cases c with
    | setUnavailable G => rfl
    | setAvailable G => rfl
    | setAvailableWithName G Name => simp only [Call.target, Call.state]; split <;> rfl
  | none => rw [TargetLibraryInfoImpl.has_eq_names hs]

/-- Disabling `sin` (253), from the all-standard table. -/
theorem runCalls_hasOptimizedCodeGen_sin : allStandard.WellFormed ∧
    TargetLibraryInfo.hasOptimizedCodeGen
        (runCalls (fun F => toString F.val) [.setUnavailable ⟨253, by decide⟩] allStandard)
        ⟨253, by decide⟩ =
      (TargetLibraryInfo.optimizedCodeGenFuncs.contains 253 &&
        match lastCallOn ⟨253, by decide⟩ [.setUnavailable ⟨253, by decide⟩] with
        | some c => c.state (fun F => toString F.val) != .unavailable
        | none => TargetLibraryInfo.has allStandard ⟨253, by decide⟩) :=
  ⟨wellFormed_allStandard, runCalls_hasOptimizedCodeGen wellFormed_allStandard _ _⟩

/-- Renaming function 7 and disabling function 8, from the all-standard table. -/
theorem runCalls_getName_rename :
    allStandard.WellFormed ∧
      TargetLibraryInfo.getName (fun F => toString F.val)
        (runCalls (fun F => toString F.val)
          [.setAvailableWithName ⟨7, by decide⟩ "custom", .setUnavailable ⟨8, by decide⟩] allStandard)
        ⟨7, by decide⟩ = .ok "custom" :=
  ⟨wellFormed_allStandard,
    (runCalls_getName (fun F => toString F.val) allStandard wellFormed_allStandard
      [.setAvailableWithName ⟨7, by decide⟩ "custom", .setUnavailable ⟨8, by decide⟩]).2.1 ⟨7, by decide⟩⟩

end Runs

end Llvm
