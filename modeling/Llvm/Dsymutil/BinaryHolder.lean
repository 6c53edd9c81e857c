import Mathlib.Data.List.Basic

/-!
# Looking up an archive member in the archives already loaded: `BinaryHolder.cpp`

`BinaryHolder::GetArchiveMemberBuffers` reads a file name of the form `A(M)`, where `A` is the
name of the archives in `CurrentArchives`, and returns the buffers of the members named `M`.

* `foldlM_memberStep` : the loop over the children returns the buffers of the children named
  `M` with a matching time, in order, or the first error reading one of them;
* `getArchiveMemberBuffers_eq` : the whole lookup, for every file name that starts with `A(`;
* `getArchiveMemberBuffers_unchecked_paren` : the closing parenthesis is never checked: the last
  character of the name is dropped whatever it is (of the characters stored in one byte, on which
  counting characters is counting `StringRef`'s bytes), and on the name `A(` itself `drop_back`
  fails its assertion.
-/

namespace Llvm.Dsymutil

/-- `sys::TimeValue`: seconds and nanoseconds. -/
structure TimeValue where
  seconds : Int
  nanos : Int
  deriving DecidableEq, Repr

/-- Modelled from the spec: `sys::TimeValue::MinTime()` of LLVM's Support library, not in src/:
the least time, `INT64_MIN` seconds and no nanoseconds. -/
def TimeValue.minTime : TimeValue := ⟨-9223372036854775808, 0⟩

/-- The `std::error_code` values of the lookup: `errc::no_such_file_or_directory`, or the code an
archive read returned. -/
inductive ErrorCode where
  | noSuchFileOrDirectory
  | other (code : Nat)
  deriving DecidableEq, Repr

/-- `MemoryBufferRef`: a buffer and its identifier. -/
structure MemoryBufferRef where
  buffer : List Char
  identifier : List Char
  deriving DecidableEq, Repr

/-- An `object::Archive::Child`, by the three reads the lookup makes of it. -/
structure Child where
  getName : Except ErrorCode (List Char)
  getLastModified : TimeValue
  getMemoryBufferRef : Except ErrorCode MemoryBufferRef

/-- An `object::Archive`: the name of the file it was read from and its children in order. -/
structure Archive where
  getFileName : List Char
  children : List Child

/-- The part of `BinaryHolder` the lookup reads. -/
structure BinaryHolder where
  currentArchives : List Archive

namespace StringRef

/-- Modelled from the spec: `StringRef::startswith` of LLVM's ADT library, not in src/. -/
def startswith (s Prefix : List Char) : Bool := Prefix.isPrefixOf s

/-- Modelled from the spec: `StringRef::substr(Start)` of LLVM's ADT library, not in src/, with
the default length `npos`: the characters from `Start` on (none if `Start` is past the end). -/
def substr (s : List Char) (Start : Nat) : List Char := s.drop Start

/-- Modelled from the spec: `StringRef::drop_back()` of LLVM's ADT library, not in src/, with the
default count 1: it asserts that the string is not empty, then drops its last character. -/
def dropBack (s : List Char) : Except String (List Char) :=
  if 1 ≤ s.length then .ok (s.take (s.length - 1)) else .error "Dropping more elements than exist"

/-- A character that UTF-8 stores in one byte (`%x00-7F`). Names are lists of characters here,
where `StringRef` counts bytes: `drop_back` drops one byte, which is the whole last character
when it is one of these. -/
abbrev OneByteChar := {c : Char // c.utf8Size = 1}

end StringRef

/-- One child of the loop of `GetArchiveMemberBuffers`. A child whose name cannot be read is
skipped: the test of `NameOrErr.getError()` sits in the branch where `getName` succeeded. -/
def memberStep (Filename : List Char) (Timestamp : TimeValue) (Buffers : List MemoryBufferRef)
    (Child : Child) : Except ErrorCode (List MemoryBufferRef) :=
  match Child.getName with
  | .error _ => .ok Buffers
  | .ok Name =>
    if Name = Filename then
      if Timestamp ≠ TimeValue.minTime ∧ Timestamp ≠ Child.getLastModified then .ok Buffers
      else match Child.getMemoryBufferRef with
        | .error Err => .error Err
        | .ok Mem => .ok (Buffers ++ [Mem])
    else .ok Buffers

/-- `BinaryHolder::GetArchiveMemberBuffers`. The outer error is a failed assertion, the inner
result the `ErrorOr` the function returns. -/
def BinaryHolder.getArchiveMemberBuffers (holder : BinaryHolder) (Filename : List Char)
    (Timestamp : TimeValue) : Except String (Except ErrorCode (List MemoryBufferRef)) :=
  match holder.currentArchives with
  | [] => .ok (.error .noSuchFileOrDirectory)
  | front :: _ =>
    let CurArchiveName := front.getFileName
    if !StringRef.startswith Filename (CurArchiveName ++ ['(']) then
      .ok (.error .noSuchFileOrDirectory)
    else do
      let Member ← StringRef.dropBack (StringRef.substr Filename (CurArchiveName.length + 1))
      return do
        let Buffers ← holder.currentArchives.foldlM
          (fun Buffers Archive => Archive.children.foldlM (memberStep Member Timestamp) Buffers) []
        if Buffers.isEmpty then .error .noSuchFileOrDirectory else .ok Buffers

/-! ## The loop over the children -/

/-- Whether the lookup takes a child: its name reads as `Member`, and its time is `Timestamp`
unless `Timestamp` is `MinTime`. -/
def Child.matches (c : Child) (Member : List Char) (Timestamp : TimeValue) : Bool :=
  match c.getName with
  | .ok Name => decide (Name = Member) && (decide (Timestamp = TimeValue.minTime) ||
      decide (Timestamp = c.getLastModified))
  | .error _ => false

/-- What a lookup of `Member` returns: the buffers of the matching children in archive and
child order, the first error reading one of them, or `no_such_file_or_directory` if none
matches. -/
def memberBuffers (archives : List Archive) (Member : List Char) (Timestamp : TimeValue) :
    Except ErrorCode (List MemoryBufferRef) := do
  let Buffers ← ((archives.flatMap (·.children)).filter (·.matches Member Timestamp)).mapM
    (·.getMemoryBufferRef)
  if Buffers.isEmpty then .error .noSuchFileOrDirectory else .ok Buffers

/-- One step of the child loop: a matching child's buffer is appended, or its read error
returned; any other child is skipped. -/
theorem memberStep_eq (Member : List Char) (Timestamp : TimeValue) (Buffers : List MemoryBufferRef)
    (c : Child) : memberStep Member Timestamp Buffers c =
      if c.matches Member Timestamp then (Buffers ++ [·]) <$> c.getMemoryBufferRef else .ok Buffers := by
  unfold memberStep Child.matches
  rcases c.getName with e | Name
  · rfl
  · by_cases hN : Name = Member
    · by_cases ht : Timestamp ≠ TimeValue.minTime ∧ Timestamp ≠ c.getLastModified
      · simp [hN, ht]
      · have ht' : Timestamp = TimeValue.minTime ∨ Timestamp = c.getLastModified :=
          (not_and_or.1 ht).imp not_not.1 not_not.1
        simp only [hN, ht, if_true, if_false, decide_True, Bool.true_and, Bool.or_eq_true,
          decide_eq_true_eq, ht']
        cases c.getMemoryBufferRef <;> rfl
    · simp [hN]

/-- The child loop appends the buffers of the matching children, stopping at the first
failed read. -/
theorem foldlM_memberStep (Member : List Char) (Timestamp : TimeValue) (cs : List Child) :
    ∀ Buffers, cs.foldlM (memberStep Member Timestamp) Buffers =
      (Buffers ++ ·) <$> (cs.filter (·.matches Member Timestamp)).mapM (·.getMemoryBufferRef) := by
  induction cs with
  | nil => intro Buffers; simp only [List.foldlM_nil, List.filter_nil, List.mapM_nil, map_pure, List.append_nil]
  | cons c cs ih =>
    intro Buffers
    rw [List.foldlM_cons, memberStep_eq]
    by_cases hm : c.matches Member Timestamp
    · simp only [if_pos hm, List.filter_cons, hm, if_true, List.mapM_cons]
      rcases c.getMemoryBufferRef with e | m
      · rfl
      · show List.foldlM _ (Buffers ++ [m]) cs = _
        rw [ih]
        generalize (cs.filter (·.matches Member Timestamp)).mapM (·.getMemoryBufferRef) = r
        rcases r with e | bs
        · rfl
        · simp only [List.append_assoc, List.singleton_append]
          rfl
    · simp only [if_neg hm, List.filter_cons, hm, if_false, Bool.false_eq_true]
      exact ih Buffers

/-- The archive loop runs the child loop over the children of all archives in turn. -/
theorem foldlM_archives (Member : List Char) (Timestamp : TimeValue) (archives : List Archive) :
    ∀ Buffers, archives.foldlM
        (fun Buffers Archive => Archive.children.foldlM (memberStep Member Timestamp) Buffers) Buffers =
      (archives.flatMap (·.children)).foldlM (memberStep Member Timestamp) Buffers := by
  induction archives with
  | nil => intro Buffers; rfl
  | cons a archives ih =>
    intro Buffers
    simp only [List.foldlM_cons, List.flatMap_cons, List.foldlM_append, ih]

/-! ## The lookup -/

theorem getArchiveMemberBuffers_nil (Filename : List Char) (Timestamp : TimeValue) :
    (BinaryHolder.mk []).getArchiveMemberBuffers Filename Timestamp =
      .ok (.error .noSuchFileOrDirectory) := rfl

/-- A name that does not start with `A(` is not looked up. -/
theorem getArchiveMemberBuffers_of_not_prefix (front : Archive) (rest : List Archive)
    (Filename : List Char) (Timestamp : TimeValue) (h : ¬ (front.getFileName ++ ['(']) <+: Filename) :
    (BinaryHolder.mk (front :: rest)).getArchiveMemberBuffers Filename Timestamp =
      .ok (.error .noSuchFileOrDirectory) := by
  simp [BinaryHolder.getArchiveMemberBuffers, StringRef.startswith, h]

theorem startswith_open_paren (A X : List Char) :
    StringRef.startswith (A ++ '(' :: X) (A ++ ['(']) = true := by
  simp [StringRef.startswith]

theorem substr_open_paren (A X : List Char) : StringRef.substr (A ++ '(' :: X) (A.length + 1) = X := by
  rw [StringRef.substr, show A ++ '(' :: X = (A ++ ['(']) ++ X by simp]
  exact List.drop_left' (by simp)

/-- On a name `A(Member` followed by any last character, with `A` the archives' name, the lookup
returns what a lookup of `Member` returns (for a last character of one byte, as the code does). -/
theorem getArchiveMemberBuffers_eq (front : Archive) (rest : List Archive) (Member : List Char)
    (c : Char) (Timestamp : TimeValue) :
    (BinaryHolder.mk (front :: rest)).getArchiveMemberBuffers
        (front.getFileName ++ '(' :: (Member ++ [c])) Timestamp =
      .ok (memberBuffers (front :: rest) Member Timestamp) := by
  have hdrop : StringRef.dropBack (Member ++ [c]) = .ok Member := by simp [StringRef.dropBack]
  simp only [BinaryHolder.getArchiveMemberBuffers, startswith_open_paren, substr_open_paren, hdrop,
    Bool.not_true, Bool.false_eq_true, if_false]
  show Except.ok _ = _
  rw [foldlM_archives, foldlM_memberStep]
  simp only [List.nil_append, id_map', memberBuffers]

/-- **The closing parenthesis is never checked.** On the name `A(` itself `drop_back` is applied
to the empty string and fails its assertion; on `A(Member` followed by any last character of one
byte, `)` or not, the lookup returns the buffers of the members named `Member`. -/
theorem getArchiveMemberBuffers_unchecked_paren (front : Archive) (rest : List Archive)
    (Member : List Char) (c : StringRef.OneByteChar) (Timestamp : TimeValue) :
    (BinaryHolder.mk (front :: rest)).getArchiveMemberBuffers (front.getFileName ++ ['(']) Timestamp =
        .error "Dropping more elements than exist" ∧
      (BinaryHolder.mk (front :: rest)).getArchiveMemberBuffers
          (front.getFileName ++ '(' :: (Member ++ [c.1])) Timestamp =
        .ok (memberBuffers (front :: rest) Member Timestamp) := by
  refine ⟨?_, getArchiveMemberBuffers_eq front rest Member c.1 Timestamp⟩
  have hsub := substr_open_paren front.getFileName []
  simp only [BinaryHolder.getArchiveMemberBuffers, startswith_open_paren, hsub, Bool.not_true,
    Bool.false_eq_true, if_false]
  rfl

example :
    (BinaryHolder.mk [⟨"libfoo.a".toList, [⟨.ok "bar.o".toList, ⟨0, 0⟩, .ok ⟨[], []⟩⟩]⟩]).getArchiveMemberBuffers
      "libfoo.a(bar.o]".toList TimeValue.minTime = .ok (.ok [⟨[], []⟩]) := by
  rfl

end Llvm.Dsymutil
