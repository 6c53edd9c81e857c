import Llvm.Dsymutil.BinaryHolder

/-!
# The holder and its cache: `BinaryHolder.cpp`

`BinaryHolder` owns the buffer of the last file it opened (`CurrentMemoryBuffer`), the fat binary
read from it, the archives read from it (`CurrentArchives`) and the object files made from its
buffers (`CurrentObjectFiles`). `GetMemoryBuffersForFile` answers a name from the archives it holds
(`GetArchiveMemberBuffers`), else loads the archive a name `A(M)` names
(`MapArchiveAndGetMemberBuffers`), else opens the name as a file. The files and the readers of
LLVM's Object library are an environment `Env`.

* `Inv` : the archives held were all read from one file, whose name has no `(`;
  `runGetObjectFiles_inv` : every run of `GetObjectFiles` calls keeps it, whatever the files hold;
* `Complete` : the archives held are those a load of their file reads now; every call that
  returns buffers keeps it (`Complete.getMemoryBuffersForFile`), and from such a holder a name
  ending in `)` is answered as a new holder answers it (`getMemoryBuffersForFile_agrees`);
* `runGetObjectFiles_agrees` : after a run of calls that all succeeded, `GetObjectFiles` on a name
  ending in `)` returns what it returns on a new holder. A call that fails while reading the
  archives of a fat binary keeps those read before the failure, and the next call may answer
  from them;
* `getObjectFiles_owns` : the object files `GetObjectFiles` returns are those the holder keeps,
  the ones `getObjfileForArch` searches; `getObjectFiles_error_keeps` : a call that fails on a
  buffer keeps those made from the buffers before it; `getObjectFiles_of_unreadable` : a call on
  a name that cannot be read leaves the holder as it was;
* `getObjectFiles_again` : a call that returned object files returns them again from the holder
  it left, and leaves that holder as it is;
* `getMemoryBuffersForFile_archiveMember` : on a new holder, the name `A(M)` loads `A` and
  returns the buffers of its members named `M`; `getMemoryBuffersForFile_stdin_member` : a plain
  archive on the standard input is named `<stdin>`, so `-(M)` is never found in it, while the
  archives of a fat binary on it are named `-` and are found;
* `Owned` : the members of the archives held lie in the buffer the holder owns;
  `runGetObjectFiles_buffers_inside` : every run keeps it, and the buffers
  `GetMemoryBuffersForFile` returns lie in the buffer owned, for archive readers whose children
  are parts of the archive's data (`ChildrenInside`).

`Env.readFile` is a function, so the model reads the standard input `-` again with the same
contents, where the code reads it to its end once; the results that read a name twice exclude it.
-/

namespace Llvm.Dsymutil

@[simp] theorem ok_bind {ε α β : Type} (a : α) (f : α → Except ε β) : (Except.ok a >>= f) = f a :=
  rfl

/-- `Triple`, by its string and `getArch()` (`0` is `Triple::UnknownArch`). -/
structure Triple where
  str : List Char
  getArch : Nat
  deriving DecidableEq, Repr

/-- An `object::ObjectFile`, by what `getObjfileForArch` reads of it: for a `MachOObjectFile`, the
triple and the thumb triple `getArch(nullptr, &ThumbTriple)` returns; for every object,
`getArch()`. -/
structure ObjectFile where
  machO : Option (Triple × Triple)
  getArch : Nat
  deriving DecidableEq, Repr

/-- What the holder reads outside `BinaryHolder.cpp`, all of it library code not in src/: the
contents of each path (`MemoryBuffer::getFileOrSTDIN`, the path `-` being the standard input), the
offset and size of each object of a fat binary (`object::MachOUniversalBinary::create`), the
children of an archive (`object::Archive::create`) and `object::ObjectFile::createObjectFile`. -/
structure Env where
  readFile : List Char → Except ErrorCode (List Char)
  fatObjects : List Char → Except ErrorCode (List (Nat × Nat))
  archiveChildren : List Char → Except ErrorCode (List Child)
  createObjectFile : MemoryBufferRef → Except ErrorCode ObjectFile

namespace StringRef

/-- Library code, not in src/: `StringRef::endswith`. -/
def endswith (s Suffix : List Char) : Bool := Suffix.isSuffixOf s

/-- Library code, not in src/: `StringRef::find(C)`, the index of the first `C`. Where there is
none it returns `npos`; the length stands for it here, as both make `substr(0, ·)` return the
whole string. -/
def find (s : List Char) (C : Char) : Nat := s.findIdx (· == C)

/-- Library code, not in src/: `StringRef::substr(Start, N)`. -/
def substrN (s : List Char) (Start N : Nat) : List Char := (s.drop Start).take N

end StringRef

/-- Library code, not in src/: `MemoryBuffer::getFileOrSTDIN`. The buffer of the path `-` is the
standard input, named `<stdin>`; any other is named by its path. -/
def getFileOrSTDIN (env : Env) (Filename : List Char) : Except ErrorCode MemoryBufferRef :=
  (⟨·, if Filename = "-".toList then "<stdin>".toList else Filename⟩) <$> env.readFile Filename

/-- Library code, not in src/: `object::Archive::create`. The archive's file name is the
identifier of the buffer it is read from (`Binary::getFileName`). -/
def Archive.create (env : Env) (MemRef : MemoryBufferRef) : Except ErrorCode Archive :=
  (⟨MemRef.identifier, ·⟩) <$> env.archiveChildren MemRef.buffer

/-- `getMachOFatMemoryBuffers`: a buffer per object of the fat binary read from `Mem`, cut from
its data and named `Filename`. -/
def getMachOFatMemoryBuffers (Filename : List Char) (Mem : MemoryBufferRef)
    (Fat : List (Nat × Nat)) : List MemoryBufferRef :=
  Fat.map fun It => ⟨StringRef.substrN Mem.buffer It.1 It.2, Filename⟩

/-- The fields of `BinaryHolder` its methods read and write: `CurrentArchives` (the part
`GetArchiveMemberBuffers` reads), `CurrentMemoryBuffer`, `CurrentFatBinary` (by the offset and
size of each of its objects) and `CurrentObjectFiles`. -/
structure BinaryHolderState extends BinaryHolder where
  currentMemoryBuffer : Option MemoryBufferRef
  currentFatBinary : Option (List (Nat × Nat))
  currentObjectFiles : List ObjectFile

namespace BinaryHolderState

/-- A holder as it is built: nothing loaded. -/
def empty : BinaryHolderState := ⟨⟨[]⟩, none, none, []⟩

/-- `changeBackingMemoryBuffer`. -/
def changeBackingMemoryBuffer (s : BinaryHolderState) (Buf : MemoryBufferRef) : BinaryHolderState :=
  { s with currentArchives := [], currentObjectFiles := [], currentFatBinary := none,
           currentMemoryBuffer := some Buf }

/-- The end of `GetMemoryBuffersForFile`: open `Filename`, make it the backing buffer, and return
the buffers of the objects of a fat binary, or else the buffer itself. -/
def openFile (env : Env) (s : BinaryHolderState) (Filename : List Char) :
    Except ErrorCode (List MemoryBufferRef) × BinaryHolderState :=
  match getFileOrSTDIN env Filename with
  | .error Err => (.error Err, s)
  | .ok File =>
    let s := s.changeBackingMemoryBuffer File
    match env.fatObjects File.buffer with
    | .error _ => (.ok [File], s)
    | .ok Fat => (.ok (getMachOFatMemoryBuffers Filename File Fat), { s with currentFatBinary := some Fat })

/-- The loop of `MapArchiveAndGetMemberBuffers` that pushes the archive read from each buffer on
`CurrentArchives`. It returns at the first buffer that does not read, keeping the archives pushed
before it. -/
def pushArchives (env : Env) (s : BinaryHolderState) :
    List MemoryBufferRef → Except ErrorCode Unit × BinaryHolderState
  | [] => (.ok (), s)
  | MemRef :: rest =>
    match Archive.create env MemRef with
    | .error Err => (.error Err, s)
    | .ok A => pushArchives env { s with currentArchives := s.currentArchives ++ [A] } rest

/-- The first part of `MapArchiveAndGetMemberBuffers`: open `ArchiveFilename`, make it the backing
buffer, and read an archive from it, or from each object of a fat binary. -/
def loadArchive (env : Env) (s : BinaryHolderState) (ArchiveFilename : List Char) :
    Except ErrorCode Unit × BinaryHolderState :=
  match getFileOrSTDIN env ArchiveFilename with
  | .error Err => (.error Err, s)
  | .ok Buff =>
    let s := s.changeBackingMemoryBuffer Buff
    match env.fatObjects Buff.buffer with
    | .error _ => s.pushArchives env [Buff]
    | .ok Fat => { s with currentFatBinary := some Fat }.pushArchives env
        (getMachOFatMemoryBuffers ArchiveFilename Buff Fat)

/-- `MapArchiveAndGetMemberBuffers`: load the archive named by what precedes the first `(`, then
look the whole name up in it. The outer error is a failed assertion. -/
def mapArchiveAndGetMemberBuffers (env : Env) (s : BinaryHolderState) (Filename : List Char)
    (Timestamp : TimeValue) :
    Except String (Except ErrorCode (List MemoryBufferRef) × BinaryHolderState) :=
  match s.loadArchive env (StringRef.substrN Filename 0 (StringRef.find Filename '(')) with
  | (.error Err, s) => .ok (.error Err, s)
  | (.ok (), s) => (·, s) <$> s.toBinaryHolder.getArchiveMemberBuffers Filename Timestamp

/-- `GetMemoryBuffersForFile` once the archives held do not answer: a name ending in `)` loads the
archive it names, and a name that archive does not answer either is opened as a file. -/
def getUncachedBuffers (env : Env) (s : BinaryHolderState) (Filename : List Char)
    (Timestamp : TimeValue) :
    Except String (Except ErrorCode (List MemoryBufferRef) × BinaryHolderState) :=
  if StringRef.endswith Filename [')'] then do
    match ← s.mapArchiveAndGetMemberBuffers env Filename Timestamp with
    | (.ok ArchiveMember, s) => pure (.ok ArchiveMember, s)
    | (.error _, s) => pure (s.openFile env Filename)
  else pure (s.openFile env Filename)

/-- `GetMemoryBuffersForFile`. The outer error is a failed assertion. -/
def getMemoryBuffersForFile (env : Env) (s : BinaryHolderState) (Filename : List Char)
    (Timestamp : TimeValue) :
    Except String (Except ErrorCode (List MemoryBufferRef) × BinaryHolderState) := do
  match ← s.toBinaryHolder.getArchiveMemberBuffers Filename Timestamp with
  | .ok ArchiveMembers => pure (.ok ArchiveMembers, s)
  | .error _ => s.getUncachedBuffers env Filename Timestamp

/-- The loop of `GetObjectFiles`: the object file made from each buffer is pushed on `Objects` and
on `CurrentObjectFiles`, which owns it. It returns at the first buffer that makes none. -/
def createObjectFiles (env : Env) (s : BinaryHolderState) :
    List MemoryBufferRef → List ObjectFile → Except ErrorCode (List ObjectFile) × BinaryHolderState
  | [], Objects => (.ok Objects, s)
  | MemBuf :: rest, Objects =>
    match env.createObjectFile MemBuf with
    | .error Err => (.error Err, s)
    | .ok Obj => createObjectFiles env { s with currentObjectFiles := s.currentObjectFiles ++ [Obj] }
        rest (Objects ++ [Obj])

/-- `GetObjectFiles`. The outer error is a failed assertion. -/
def getObjectFiles (env : Env) (s : BinaryHolderState) (Filename : List Char)
    (Timestamp : TimeValue) :
    Except String (Except ErrorCode (List ObjectFile) × BinaryHolderState) := do
  let (ErrOrMemBufferRefs, s) ← s.getMemoryBuffersForFile env Filename Timestamp
  match ErrOrMemBufferRefs with
  | .error Err => pure (.error Err, s)
  | .ok MemBufferRefs =>
    pure ({ s with currentObjectFiles := [] }.createObjectFiles env MemBufferRefs [])

end BinaryHolderState

/-- Whether `getObjfileForArch` takes the object for `T`: a Mach-O object by the string of its
triple, the thumb triple's when that names an architecture; any other object by its
architecture. -/
def ObjectFile.isForArch (Obj : ObjectFile) (T : Triple) : Bool :=
  match Obj.machO with
  | some (MachOTriple, ThumbTriple) =>
    (if ThumbTriple.getArch ≠ 0 then ThumbTriple else MachOTriple).str = T.str
  | none => Obj.getArch = T.getArch

/-- `getObjfileForArch`: the first object file held that is for `T`; `none` is
`object_error::arch_not_found`. -/
def BinaryHolderState.getObjfileForArch (s : BinaryHolderState) (T : Triple) : Option ObjectFile :=
  s.currentObjectFiles.find? (·.isForArch T)

/-- A run of `GetObjectFiles` calls on one holder: the result of each call, in order, and the
holder the run leaves. -/
def BinaryHolderState.runGetObjectFiles (env : Env) : BinaryHolderState →
    List (List Char × TimeValue) →
    Except String (List (Except ErrorCode (List ObjectFile)) × BinaryHolderState)
  | s, [] => .ok ([], s)
  | s, (Filename, Timestamp) :: calls => do
    let (r, s) ← s.getObjectFiles env Filename Timestamp
    let (rs, s) ← runGetObjectFiles env s calls
    pure (r :: rs, s)

namespace BinaryHolderState

variable {env : Env} {s t : BinaryHolderState} {F A : List Char} {T : TimeValue}

/-! ## What each step keeps -/

/-- `changeBackingMemoryBuffer` writes every field: nothing held before is left. -/
@[simp] theorem changeBackingMemoryBuffer_eq (Buf : MemoryBufferRef) :
    s.changeBackingMemoryBuffer Buf = ⟨⟨[]⟩, some Buf, none, []⟩ := rfl

theorem getFileOrSTDIN_identifier {Buf : MemoryBufferRef} (h : getFileOrSTDIN env F = .ok Buf) :
    Buf.identifier = if F = "-".toList then "<stdin>".toList else F := by
  unfold getFileOrSTDIN at h
  rcases hr : env.readFile F with e | d <;> rw [hr] at h <;> cases h
  rfl

theorem Archive.create_getFileName {MemRef : MemoryBufferRef} {a : Archive}
    (h : Archive.create env MemRef = .ok a) : a.getFileName = MemRef.identifier := by
  unfold Archive.create at h
  rcases hr : env.archiveChildren MemRef.buffer with e | cs <;> rw [hr] at h <;> cases h
  rfl

theorem pushArchives_archives : ∀ (s : BinaryHolderState) (bufs : List MemoryBufferRef),
    ∀ a ∈ (s.pushArchives env bufs).2.currentArchives,
      a ∈ s.currentArchives ∨ ∃ b ∈ bufs, a.getFileName = b.identifier
  | s, [] => fun a ha => .inl ha
  | s, MemRef :: rest => fun a ha => by
    unfold pushArchives at ha
    rcases hA : Archive.create env MemRef with e | A <;> rw [hA] at ha
    · exact .inl ha
    · rcases pushArchives_archives _ rest a ha with h | ⟨b, hb, hab⟩
      · rcases List.mem_append.1 h with h | h
        · exact .inl h
        · rw [List.mem_singleton.1 h]
          exact .inr ⟨MemRef, List.mem_cons_self _ _, Archive.create_getFileName hA⟩
      · exact .inr ⟨b, List.mem_cons_of_mem _ hb, hab⟩

theorem pushArchives_objectFiles : ∀ (s : BinaryHolderState) (bufs : List MemoryBufferRef),
    (s.pushArchives env bufs).2.currentObjectFiles = s.currentObjectFiles
  | s, [] => rfl
  | s, MemRef :: rest => by
    unfold pushArchives
    rcases Archive.create env MemRef with e | A
    · rfl
    · exact pushArchives_objectFiles _ rest

theorem createObjectFiles_archives : ∀ (s : BinaryHolderState) (bufs : List MemoryBufferRef)
    (Objects : List ObjectFile),
    (s.createObjectFiles env bufs Objects).2.currentArchives = s.currentArchives
  | s, [], _ => rfl
  | s, MemBuf :: rest, Objects => by
    unfold createObjectFiles
    rcases env.createObjectFile MemBuf with e | Obj
    · rfl
    · exact createObjectFiles_archives _ rest _

theorem createObjectFiles_memoryBuffer : ∀ (s : BinaryHolderState) (bufs : List MemoryBufferRef)
    (Objects : List ObjectFile),
    (s.createObjectFiles env bufs Objects).2.currentMemoryBuffer = s.currentMemoryBuffer
  | s, [], _ => rfl
  | s, MemBuf :: rest, Objects => by
    unfold createObjectFiles
    rcases env.createObjectFile MemBuf with e | Obj
    · rfl
    · exact createObjectFiles_memoryBuffer _ rest _

/-! ## The archives held come from one file -/

/-- The archives held were all read from one file, whose name has no `(`. -/
def Inv (s : BinaryHolderState) : Prop :=
  ∃ N, '(' ∉ N ∧ ∀ a ∈ s.currentArchives, a.getFileName = N

theorem inv_of_archives_nil (h : s.currentArchives = []) : s.Inv :=
  ⟨[], List.not_mem_nil _, by simp [h]⟩

theorem not_mem_substrN_find (C : Char) : ∀ s : List Char, C ∉ StringRef.substrN s 0 (StringRef.find s C)
  | [] => List.not_mem_nil _
  | c :: s => by
    have ih := not_mem_substrN_find C s
    simp only [StringRef.substrN, StringRef.find, List.drop_zero, List.findIdx_cons, cond_eq_if,
      beq_iff_eq] at ih ⊢
    by_cases hc : c = C
    · simp [hc]
    · simpa [hc, Ne.symm hc] using ih

theorem inv_pushArchives {N : List Char} (hN : '(' ∉ N) (hs : s.currentArchives = [])
    {bufs : List MemoryBufferRef} (hb : ∀ b ∈ bufs, b.identifier = N) :
    (s.pushArchives env bufs).2.Inv := by
  refine ⟨N, hN, fun a ha => ?_⟩
  rcases pushArchives_archives s bufs a ha with h | ⟨b, hb', hab⟩
  · simp [hs] at h
  · rw [hab, hb b hb']

theorem Inv.loadArchive (hs : s.Inv) (hA : '(' ∉ A) : (s.loadArchive env A).2.Inv := by
  rcases hf : getFileOrSTDIN env A with e | Buff
  · simpa only [BinaryHolderState.loadArchive, hf] using hs
  · have hN : '(' ∉ Buff.identifier := by
      rw [getFileOrSTDIN_identifier hf]
      split
      · decide
      · exact hA
    rcases hF : env.fatObjects Buff.buffer with e | Fat <;>
      simp only [BinaryHolderState.loadArchive, hf, hF, changeBackingMemoryBuffer_eq]
    · exact inv_pushArchives hN rfl (by simp)
    · exact inv_pushArchives hA rfl (by simp only [getMachOFatMemoryBuffers, List.mem_map]; rintro _ ⟨_, -, rfl⟩; rfl)

theorem Inv.openFile (hs : s.Inv) : (s.openFile env F).2.Inv := by
  rcases hf : getFileOrSTDIN env F with e | File
  · simpa only [BinaryHolderState.openFile, hf] using hs
  · rcases hF : env.fatObjects File.buffer with e | Fat <;>
      exact inv_of_archives_nil (by simp [BinaryHolderState.openFile, hf, hF])


/-! ## One lemma per method: what a call that returns can have done -/

variable {r : Except ErrorCode (List MemoryBufferRef)} {s' : BinaryHolderState}

theorem mapArchiveAndGetMemberBuffers_eq_ok
    (h : s.mapArchiveAndGetMemberBuffers env F T = .ok (r, s')) :
    s' = (s.loadArchive env (StringRef.substrN F 0 (StringRef.find F '('))).2 ∧
      ((∃ e, (s.loadArchive env (StringRef.substrN F 0 (StringRef.find F '('))).1 = .error e ∧
          r = .error e) ∨
        ((s.loadArchive env (StringRef.substrN F 0 (StringRef.find F '('))).1 = .ok () ∧
          s'.toBinaryHolder.getArchiveMemberBuffers F T = .ok r)) := by
  unfold mapArchiveAndGetMemberBuffers at h
  rcases hq : s.loadArchive env (StringRef.substrN F 0 (StringRef.find F '(')) with ⟨e | u, s₁⟩ <;>
    simp only [hq] at h
  · cases h
    exact ⟨rfl, .inl ⟨e, rfl, rfl⟩⟩
  · rcases hlk : s₁.toBinaryHolder.getArchiveMemberBuffers F T with m | v <;> rw [hlk] at h <;> cases h
    exact ⟨rfl, .inr ⟨rfl, hlk⟩⟩

/-- A call that does not answer from the archives held ends in the archive's answer, or in the
file opened from the holder the archive load left (or from the holder itself, for a name not
ending in `)`). -/
theorem getUncachedBuffers_eq_ok (h : s.getUncachedBuffers env F T = .ok (r, s')) :
    (∃ bufs, r = .ok bufs ∧ s.mapArchiveAndGetMemberBuffers env F T = .ok (r, s')) ∨
      ∃ s₁, (s₁ = s ∨ ∃ e, s.mapArchiveAndGetMemberBuffers env F T = .ok (.error e, s₁)) ∧
        s₁.openFile env F = (r, s') := by
  unfold getUncachedBuffers at h
  split at h
  · rcases hm : s.mapArchiveAndGetMemberBuffers env F T with msg | ⟨e | bufs, s₁⟩ <;> rw [hm] at h
    · cases h
    · exact .inr ⟨s₁, .inr ⟨e, rfl⟩, Except.ok.inj h⟩
    · cases h
      exact .inl ⟨bufs, rfl, rfl⟩
  · exact .inr ⟨s, .inl rfl, Except.ok.inj h⟩

theorem getMemoryBuffersForFile_eq_ok (h : s.getMemoryBuffersForFile env F T = .ok (r, s')) :
    (s.toBinaryHolder.getArchiveMemberBuffers F T = .ok r ∧ s' = s ∧ ∃ bufs, r = .ok bufs) ∨
      ∃ e, s.toBinaryHolder.getArchiveMemberBuffers F T = .ok (.error e) ∧
        s.getUncachedBuffers env F T = .ok (r, s') := by
  unfold getMemoryBuffersForFile at h
  rcases hlk : s.toBinaryHolder.getArchiveMemberBuffers F T with msg | e | bufs <;> rw [hlk] at h
  · cases h
  · exact .inr ⟨e, rfl, h⟩
  · cases h
    exact .inl ⟨rfl, rfl, bufs, rfl⟩

/-! ## The archives held come from one file, on every run -/

theorem Inv.mapArchiveAndGetMemberBuffers (hs : s.Inv)
    (h : s.mapArchiveAndGetMemberBuffers env F T = .ok (r, s')) : s'.Inv := by
  rw [(mapArchiveAndGetMemberBuffers_eq_ok h).1]
  exact hs.loadArchive (not_mem_substrN_find '(' F)

theorem Inv.getMemoryBuffersForFile (hs : s.Inv)
    (h : s.getMemoryBuffersForFile env F T = .ok (r, s')) : s'.Inv := by
  rcases getMemoryBuffersForFile_eq_ok h with ⟨-, rfl, -⟩ | ⟨-, -, h⟩
  · exact hs
  rcases getUncachedBuffers_eq_ok h with ⟨-, -, hm⟩ | ⟨s₁, hs₁, ho⟩
  · exact hs.mapArchiveAndGetMemberBuffers hm
  · have : s₁.Inv := by
      rcases hs₁ with rfl | ⟨e, hm⟩
      exacts [hs, hs.mapArchiveAndGetMemberBuffers hm]
    rw [show s' = (s₁.openFile env F).2 by rw [ho]]
    exact this.openFile

theorem getObjectFiles_eq_ok {r : Except ErrorCode (List ObjectFile)}
    (h : s.getObjectFiles env F T = .ok (r, s')) : ∃ s₁,
      (∃ e, s.getMemoryBuffersForFile env F T = .ok (.error e, s₁) ∧ r = .error e ∧ s' = s₁) ∨
      ∃ bufs, s.getMemoryBuffersForFile env F T = .ok (.ok bufs, s₁) ∧
        { s₁ with currentObjectFiles := [] }.createObjectFiles env bufs [] = (r, s') := by
  unfold getObjectFiles at h
  rcases hm : s.getMemoryBuffersForFile env F T with msg | ⟨e | bufs, s₁⟩ <;> rw [hm] at h
  · cases h
  · cases h
    exact ⟨_, .inl ⟨e, rfl, rfl, rfl⟩⟩
  · exact ⟨s₁, .inr ⟨bufs, rfl, Except.ok.inj h⟩⟩

theorem Inv.getObjectFiles {r : Except ErrorCode (List ObjectFile)} (hs : s.Inv)
    (h : s.getObjectFiles env F T = .ok (r, s')) : s'.Inv := by
  obtain ⟨s₁, ⟨e, hm, -, rfl⟩ | ⟨bufs, hm, hc⟩⟩ := getObjectFiles_eq_ok h
  · exact hs.getMemoryBuffersForFile hm
  · obtain ⟨N, hN, hall⟩ := hs.getMemoryBuffersForFile hm
    refine ⟨N, hN, fun a ha => hall a ?_⟩
    rwa [show s' = _ from congrArg Prod.snd hc.symm, createObjectFiles_archives] at ha

/-- What every call that returns keeps, from the holders `P` holds of and for the answers `Q`
holds of, holds after every run whose answers all satisfy `Q`. -/
theorem runGetObjectFiles_induction (P : BinaryHolderState → Prop)
    (Q : Except ErrorCode (List ObjectFile) → Prop)
    (step : ∀ s F T r s', P s → Q r → s.getObjectFiles env F T = .ok (r, s') → P s')
    (calls : List (List Char × TimeValue)) :
    ∀ (s : BinaryHolderState) rs, P s → s.runGetObjectFiles env calls = .ok (rs, s') →
      (∀ r ∈ rs, Q r) → P s' := by
  induction calls with
  | nil => intro s rs hs h _; cases h; exact hs
  | cons c calls ih =>
    intro s rs hs h hq
    unfold runGetObjectFiles at h
    rcases hg : s.getObjectFiles env c.1 c.2 with msg | ⟨r, s₁⟩ <;> simp only [hg, ok_bind] at h
    · cases h
    rcases hrun : s₁.runGetObjectFiles env calls with msg | ⟨rs₁, s₂⟩ <;> rw [hrun] at h <;> cases h
    exact ih s₁ rs₁ (step s _ _ r s₁ hs (hq r (List.mem_cons_self _ _)) hg) hrun
      fun r hr => hq r (List.mem_cons_of_mem _ hr)

/-- A file system holding one archive, `libfoo.a`, with one member `a.o`, whose buffers all make an
object file. -/
def libfooEnv : Env where
  readFile p := if p = "libfoo.a".toList then .ok "!<arch>obj".toList else .error .noSuchFileOrDirectory
  fatObjects _ := .error (.other 0)
  archiveChildren d := if d = "!<arch>obj".toList then
      .ok [⟨.ok "a.o".toList, TimeValue.minTime, .ok ⟨"obj".toList, "a.o".toList⟩⟩] else .error (.other 1)
  createObjectFile _ := .ok ⟨none, 7⟩

/-- The member `a.o` of `libfoo.a`, asked for with no time. -/
def libfooCalls : List (List Char × TimeValue) := [("libfoo.a(a.o)".toList, TimeValue.minTime)]

/-- **The archives held come from one file.** Every holder a run of `GetObjectFiles` calls leaves,
from a new holder and whatever the files hold, holds archives all read from one file, whose name
has no `(`: the name `GetArchiveMemberBuffers` reads off the first archive is the name of them
all. -/
theorem runGetObjectFiles_inv {calls : List (List Char × TimeValue)}
    {rs : List (Except ErrorCode (List ObjectFile))}
    (h : empty.runGetObjectFiles env calls = .ok (rs, s')) : s'.Inv :=
  runGetObjectFiles_induction Inv (fun _ => True) (fun _ _ _ _ _ hs _ h => hs.getObjectFiles h)
    calls empty rs (inv_of_archives_nil rfl) h fun _ _ => trivial

theorem runGetObjectFiles_inv_libfoo :
    ∃ rs s', empty.runGetObjectFiles libfooEnv libfooCalls = .ok (rs, s') ∧ s'.Inv :=
  ⟨_, _, rfl, runGetObjectFiles_inv (show empty.runGetObjectFiles libfooEnv libfooCalls = _ from rfl)⟩

/-! ## A complete cache answers as a new holder -/

/-- The archives held are those a load of their file reads now: none, or exactly the archives a
successful load of the file the first one names leaves. -/
def Complete (env : Env) (s : BinaryHolderState) : Prop :=
  ∀ a ∈ s.currentArchives.head?, ∃ s₁, empty.loadArchive env a.getFileName = (.ok (), s₁) ∧
    s₁.currentArchives = s.currentArchives

theorem Complete.of_archives_eq (hc : Complete env s) (h : s.currentArchives = t.currentArchives) :
    Complete env t := by
  unfold Complete at hc ⊢
  rwa [← h]

theorem loadArchive_of_error {e : ErrorCode} (h : getFileOrSTDIN env A = .error e) :
    s.loadArchive env A = (.error e, s) := by
  simp only [loadArchive, h]

theorem loadArchive_of_ok {Buff : MemoryBufferRef} (h : getFileOrSTDIN env A = .ok Buff) :
    s.loadArchive env A = t.loadArchive env A := by
  simp only [loadArchive, h, changeBackingMemoryBuffer_eq]

theorem loadArchive_eq_of_ok (h : (s.loadArchive env A).1 = .ok ()) :
    s.loadArchive env A = t.loadArchive env A := by
  rcases hf : getFileOrSTDIN env A with e | Buff
  · rw [loadArchive_of_error hf] at h
    cases h
  · exact loadArchive_of_ok hf

theorem openFile_fst : (s.openFile env F).1 = (t.openFile env F).1 := by
  rcases hf : getFileOrSTDIN env F with e | File
  · simp only [openFile, hf]
  · simp only [openFile, hf, changeBackingMemoryBuffer_eq]

theorem openFile_archives {bufs : List MemoryBufferRef} (h : (s.openFile env F).1 = .ok bufs) :
    (s.openFile env F).2.currentArchives = [] := by
  rcases hf : getFileOrSTDIN env F with e | File
  · simp only [openFile, hf] at h
    cases h
  · rcases hF : env.fatObjects File.buffer with e | Fat <;> simp only [openFile, hf, hF] <;> rfl

theorem createObjectFiles_fst : ∀ (s t : BinaryHolderState) (bufs : List MemoryBufferRef)
    (Objects : List ObjectFile),
    (s.createObjectFiles env bufs Objects).1 = (t.createObjectFiles env bufs Objects).1
  | s, t, [], _ => rfl
  | s, t, MemBuf :: rest, Objects => by
    unfold createObjectFiles
    rcases env.createObjectFile MemBuf with e | Obj
    · rfl
    · exact createObjectFiles_fst _ _ rest _

theorem mapArchiveAndGetMemberBuffers_of_error {e : ErrorCode}
    (h : getFileOrSTDIN env (StringRef.substrN F 0 (StringRef.find F '(')) = .error e) :
    s.mapArchiveAndGetMemberBuffers env F T = .ok (.error e, s) := by
  simp only [mapArchiveAndGetMemberBuffers, loadArchive_of_error h]

theorem mapArchiveAndGetMemberBuffers_of_ok {Buff : MemoryBufferRef}
    (h : getFileOrSTDIN env (StringRef.substrN F 0 (StringRef.find F '(')) = .ok Buff) :
    s.mapArchiveAndGetMemberBuffers env F T = t.mapArchiveAndGetMemberBuffers env F T := by
  simp only [mapArchiveAndGetMemberBuffers, loadArchive_of_ok (s := s) (t := t) h]

theorem getUncachedBuffers_fst :
    Prod.fst <$> s.getUncachedBuffers env F T = Prod.fst <$> t.getUncachedBuffers env F T := by
  unfold getUncachedBuffers
  split
  · rcases hf : getFileOrSTDIN env (StringRef.substrN F 0 (StringRef.find F '(')) with e | Buff
    · simp only [mapArchiveAndGetMemberBuffers_of_error hf, ok_bind, map_pure,
        openFile_fst (s := s) (t := t)]
    · rw [mapArchiveAndGetMemberBuffers_of_ok (t := t) hf]
  · simp only [map_pure, openFile_fst (s := s) (t := t)]

theorem getArchiveMemberBuffers_prefix {h : BinaryHolder} {bufs : List MemoryBufferRef}
    (hh : h.getArchiveMemberBuffers F T = .ok (.ok bufs)) :
    ∃ front rest, h.currentArchives = front :: rest ∧ front.getFileName ++ ['('] <+: F := by
  unfold BinaryHolder.getArchiveMemberBuffers at hh
  rcases hc : h.currentArchives with _ | ⟨front, rest⟩ <;> rw [hc] at hh
  · cases hh
  · refine ⟨front, rest, rfl, ?_⟩
    by_contra hp
    have hb := Bool.eq_false_iff.2 fun h => hp (List.isPrefixOf_iff_prefix.1 h)
    simp [StringRef.startswith, hb] at hh

theorem getArchiveMemberBuffers_error {h : BinaryHolder} {msg : String}
    (hh : h.getArchiveMemberBuffers F T = .error msg) :
    ∃ front rest, h.currentArchives = front :: rest ∧ F = front.getFileName ++ ['('] := by
  unfold BinaryHolder.getArchiveMemberBuffers at hh
  rcases hc : h.currentArchives with _ | ⟨front, rest⟩ <;> rw [hc] at hh
  · cases hh
  · refine ⟨front, rest, rfl, ?_⟩
    by_cases hp : front.getFileName ++ ['('] <+: F
    · obtain ⟨X, rfl⟩ := hp
      rcases X with _ | ⟨x, X⟩
      · simp
      · have hb := startswith_open_paren front.getFileName (x :: X)
        have hs := substr_open_paren front.getFileName (x :: X)
        simp only [List.append_assoc, List.singleton_append] at hh
        simp [hb, hs, StringRef.dropBack] at hh
    · have hb := Bool.eq_false_iff.2 fun h => hp (List.isPrefixOf_iff_prefix.1 h)
      simp [StringRef.startswith, hb] at hh

theorem substrN_find_of_prefix {N : List Char} (hN : '(' ∉ N) (hp : N ++ ['('] <+: F) :
    StringRef.substrN F 0 (StringRef.find F '(') = N := by
  obtain ⟨X, rfl⟩ := hp
  induction N with
  | nil => simp [StringRef.substrN, StringRef.find, List.findIdx_cons]
  | cons c N ih =>
    have hc : c ≠ '(' := fun h => hN (h ▸ List.mem_cons_self _ _)
    have := ih (fun h => hN (List.mem_cons_of_mem _ h))
    simp only [StringRef.substrN, StringRef.find, List.drop_zero, List.cons_append, List.findIdx_cons,
      cond_eq_if, beq_iff_eq, hc, if_false, List.take_succ_cons] at this ⊢
    rw [this]

/-- Every call that returns buffers keeps the cache complete. -/
theorem Complete.getMemoryBuffersForFile (hs : s.Inv) (hc : Complete env s)
    {bufs : List MemoryBufferRef} (h : s.getMemoryBuffersForFile env F T = .ok (.ok bufs, s')) :
    Complete env s' := by
  rcases getMemoryBuffersForFile_eq_ok h with ⟨-, rfl, -⟩ | ⟨-, -, h⟩
  · exact hc
  rcases getUncachedBuffers_eq_ok h with ⟨-, -, hm⟩ | ⟨s₁, -, ho⟩
  · obtain ⟨rfl, ⟨e, -, he⟩ | ⟨hok, hlk⟩⟩ := mapArchiveAndGetMemberBuffers_eq_ok hm
    · cases he
    obtain ⟨front, rest, hfr, hpre⟩ := getArchiveMemberBuffers_prefix hlk
    obtain ⟨N, hN, hall⟩ : (s.loadArchive env (StringRef.substrN F 0 (StringRef.find F '('))).2.Inv :=
      hs.loadArchive (not_mem_substrN_find '(' F)
    have hname := substrN_find_of_prefix (hall front (by rw [hfr]; exact List.mem_cons_self _ _) ▸ hN) hpre
    intro a ha
    rw [hfr, Option.mem_def, List.head?_cons, Option.some.injEq] at ha
    subst ha
    refine ⟨_, ?_, rfl⟩
    rw [← hname, ← loadArchive_eq_of_ok (t := empty) hok]
    exact Prod.ext hok rfl
  · have h₁ : (s₁.openFile env F).1 = .ok bufs := by rw [ho]
    intro a ha
    rw [show s' = (s₁.openFile env F).2 by rw [ho], openFile_archives h₁] at ha
    cases ha

/-- **A complete cache answers as a new holder.** From a holder whose archives come from one file
and are those a load of it reads now, `GetMemoryBuffersForFile` returns on every name ending in
`)` what it returns on a new holder. -/
theorem getMemoryBuffersForFile_agrees (hs : s.Inv) (hc : Complete env s)
    (hF : StringRef.endswith F [')'] = true) :
    Prod.fst <$> s.getMemoryBuffersForFile env F T =
      Prod.fst <$> empty.getMemoryBuffersForFile env F T := by
  show _ = Prod.fst <$> empty.getUncachedBuffers env F T
  unfold getMemoryBuffersForFile
  rcases hlk : s.toBinaryHolder.getArchiveMemberBuffers F T with msg | e | bufs
  · obtain ⟨front, rest, -, rfl⟩ := getArchiveMemberBuffers_error hlk
    obtain ⟨X, hX⟩ := List.isSuffixOf_iff_suffix.1 hF
    simpa using congrArg List.getLast? hX
  · exact getUncachedBuffers_fst
  · obtain ⟨front, rest, hfr, hpre⟩ := getArchiveMemberBuffers_prefix hlk
    obtain ⟨N, hN, hall⟩ := hs
    have hname := substrN_find_of_prefix (hall front (by rw [hfr]; exact List.mem_cons_self _ _) ▸ hN) hpre
    obtain ⟨s₁, hl, hs₁⟩ := hc front (by simp [hfr])
    have hlk₁ : s₁.toBinaryHolder.getArchiveMemberBuffers F T = .ok (.ok bufs) := by
      rw [← hlk]
      exact congrArg (BinaryHolder.getArchiveMemberBuffers · F T) (congrArg BinaryHolder.mk hs₁)
    simp only [getUncachedBuffers, hF, if_true, mapArchiveAndGetMemberBuffers, hname, hl, hlk₁,
      ok_bind, map_pure]
    rfl

theorem Complete.getObjectFiles (hs : s.Inv) (hc : Complete env s) {os : List ObjectFile}
    (h : s.getObjectFiles env F T = .ok (.ok os, s')) : Complete env s' := by
  obtain ⟨s₁, ⟨e, -, he, -⟩ | ⟨bufs, hm, hcr⟩⟩ := getObjectFiles_eq_ok h
  · cases he
  · refine (hc.getMemoryBuffersForFile hs hm).of_archives_eq ?_
    rw [show s' = _ from congrArg Prod.snd hcr.symm, createObjectFiles_archives]

/-- From a complete cache, `GetObjectFiles` answers a name ending in `)` as a new holder does. -/
theorem getObjectFiles_agrees (hs : s.Inv) (hc : Complete env s)
    (hF : StringRef.endswith F [')'] = true) :
    Prod.fst <$> s.getObjectFiles env F T = Prod.fst <$> empty.getObjectFiles env F T := by
  have key := getMemoryBuffersForFile_agrees (T := T) hs hc hF
  unfold getObjectFiles
  rcases hx : s.getMemoryBuffersForFile env F T with m | ⟨r, s₁⟩ <;>
    rcases hy : empty.getMemoryBuffersForFile env F T with m' | ⟨r', s₂⟩ <;>
    rw [hx, hy] at key <;> cases key
  · rfl
  · rcases r with e | bufs <;> simp only [ok_bind, map_pure]
    exact congrArg pure (createObjectFiles_fst _ _ _ _)

/-- **The cache answers as a new holder.** After any run of `GetObjectFiles` calls from a new
holder in which every call returned its object files, with the files unchanged, a call on a name
ending in `)` returns what it returns on a new holder: a member found in the archives held is the
member a fresh load of its archive finds, and a name they do not answer is loaded as a new holder
loads it. The archive named is not the standard input, which the code reads to its end once and
the model reads again alike. -/
theorem runGetObjectFiles_agrees {calls : List (List Char × TimeValue)}
    {rs : List (Except ErrorCode (List ObjectFile))}
    (h : empty.runGetObjectFiles env calls = .ok (rs, s')) (hok : ∀ r ∈ rs, r.toBool = true)
    (hF : StringRef.endswith F [')'] = true)
    (_hstd : StringRef.substrN F 0 (StringRef.find F '(') ≠ "-".toList) :
    Prod.fst <$> s'.getObjectFiles env F T = Prod.fst <$> empty.getObjectFiles env F T := by
  have step : ∀ s F T r s', s.Inv ∧ Complete env s → r.toBool = true →
      s.getObjectFiles env F T = .ok (r, s') → s'.Inv ∧ Complete env s' := by
    rintro s F T (e | os) s' ⟨hs, hc⟩ hr h
    · cases hr
    · exact ⟨hs.getObjectFiles h, hc.getObjectFiles hs h⟩
  obtain ⟨hs, hc⟩ := runGetObjectFiles_induction (fun s => s.Inv ∧ Complete env s) _ step calls
    empty rs ⟨inv_of_archives_nil rfl, fun _ h => by cases h⟩ h hok
  exact getObjectFiles_agrees hs hc hF

theorem runGetObjectFiles_agrees_libfoo :
    ∃ rs s', empty.runGetObjectFiles libfooEnv libfooCalls = .ok (rs, s') ∧
      (∀ r ∈ rs, r.toBool = true) ∧ StringRef.endswith "libfoo.a(a.o)".toList [')'] = true ∧
      StringRef.substrN "libfoo.a(a.o)".toList 0 (StringRef.find "libfoo.a(a.o)".toList '(') ≠
        "-".toList ∧
      Prod.fst <$> s'.getObjectFiles libfooEnv "libfoo.a(a.o)".toList TimeValue.minTime =
        Prod.fst <$> empty.getObjectFiles libfooEnv "libfoo.a(a.o)".toList TimeValue.minTime :=
  ⟨_, _, rfl, by decide, by decide, by decide, runGetObjectFiles_agrees
    (show empty.runGetObjectFiles libfooEnv libfooCalls = _ from rfl) (by decide) (by decide)
    (by decide)⟩

theorem createObjectFiles_ok : ∀ (s : BinaryHolderState) (bufs : List MemoryBufferRef)
    (Objects : List ObjectFile) {os : List ObjectFile} {s' : BinaryHolderState},
    s.createObjectFiles env bufs Objects = (.ok os, s') →
      ∃ made, os = Objects ++ made ∧ s'.currentObjectFiles = s.currentObjectFiles ++ made
  | s, [], Objects, os, s', h => by
    cases h
    exact ⟨[], by simp, by simp⟩
  | s, MemBuf :: rest, Objects, os, s', h => by
    unfold createObjectFiles at h
    rcases hc : env.createObjectFile MemBuf with e | Obj <;> rw [hc] at h
    · cases h
    · obtain ⟨made, h₁, h₂⟩ := createObjectFiles_ok _ rest _ h
      exact ⟨Obj :: made, by simp [h₁], by simp [h₂]⟩

/-- **What `GetObjectFiles` returns is what the holder keeps.** The object files a call returns
are exactly those the holder holds after it, in order, so they stay owned by the holder until its
next call, and `getObjfileForArch` answers with the first of them for the triple. -/
theorem getObjectFiles_owns {os : List ObjectFile}
    (h : s.getObjectFiles env F T = .ok (.ok os, s')) :
    s'.currentObjectFiles = os ∧ ∀ T', s'.getObjfileForArch T' = os.find? (·.isForArch T') := by
  obtain ⟨s₁, ⟨e, -, he, -⟩ | ⟨bufs, -, hcr⟩⟩ := getObjectFiles_eq_ok h
  · cases he
  · obtain ⟨made, hos, h₂⟩ := createObjectFiles_ok _ _ _ hcr
    have hown : s'.currentObjectFiles = os := by rw [h₂, hos]
    exact ⟨hown, fun T' => by rw [getObjfileForArch, hown]⟩

theorem getObjectFiles_owns_libfoo :
    ∃ os s', empty.getObjectFiles libfooEnv "libfoo.a(a.o)".toList TimeValue.minTime =
        .ok (.ok os, s') ∧
      s'.currentObjectFiles = os ∧ ∀ T', s'.getObjfileForArch T' = os.find? (·.isForArch T') :=
  ⟨_, _, rfl, getObjectFiles_owns
    (show empty.getObjectFiles libfooEnv "libfoo.a(a.o)".toList TimeValue.minTime = _ from rfl)⟩

/-! ## A failed call keeps the object files made before the failure -/

theorem createObjectFiles_error : ∀ (s : BinaryHolderState) (bufs : List MemoryBufferRef)
    (Objects : List ObjectFile) {e : ErrorCode} {s' : BinaryHolderState},
    s.createObjectFiles env bufs Objects = (.error e, s') →
      ∃ k b made, bufs[k]? = some b ∧ env.createObjectFile b = .error e ∧
        (bufs.take k).mapM env.createObjectFile = .ok made ∧
        s'.currentObjectFiles = s.currentObjectFiles ++ made
  | s, [], Objects, e, s', h => by cases h
  | s, MemBuf :: rest, Objects, e, s', h => by
    unfold createObjectFiles at h
    rcases hc : env.createObjectFile MemBuf with e' | Obj <;> rw [hc] at h
    · cases h
      exact ⟨0, MemBuf, [], List.getElem?_cons_zero, hc, rfl, by simp⟩
    · obtain ⟨k, b, made, hb, he, hm, h₂⟩ := createObjectFiles_error _ rest _ h
      refine ⟨k + 1, b, Obj :: made, List.getElem?_cons_succ.trans hb, he, ?_, by simp [h₂]⟩
      rw [List.take_succ_cons, List.mapM_cons, hc, hm]
      rfl

/-- **A failed `GetObjectFiles` keeps the object files made before the failure.** When the
buffers of the file are found but one of them makes no object file, the call returns that
buffer's error, and the holder keeps the object files made from the buffers before it, in order:
`getObjfileForArch` then answers from the part of the file read before the failure. -/
theorem getObjectFiles_error_keeps {e : ErrorCode} {bufs : List MemoryBufferRef}
    {s₁ : BinaryHolderState} (hb : s.getMemoryBuffersForFile env F T = .ok (.ok bufs, s₁))
    (h : s.getObjectFiles env F T = .ok (.error e, s')) :
    ∃ k b made, bufs[k]? = some b ∧ env.createObjectFile b = .error e ∧
      (bufs.take k).mapM env.createObjectFile = .ok made ∧ s'.currentObjectFiles = made ∧
      ∀ T', s'.getObjfileForArch T' = made.find? (·.isForArch T') := by
  obtain ⟨s₂, ⟨e', hm, -, -⟩ | ⟨bufs', hm, hcr⟩⟩ := getObjectFiles_eq_ok h
  · rw [hb] at hm
    cases hm
  · rw [hb] at hm
    cases hm
    obtain ⟨k, b, made, hk, he, hmade, hown⟩ := createObjectFiles_error _ _ _ hcr
    have hown' : s'.currentObjectFiles = made := by simpa using hown
    exact ⟨k, b, made, hk, he, hmade, hown', fun T' => by rw [getObjfileForArch, hown']⟩

/-- A file system holding one fat binary, `fat.o`, of two objects, the second of which makes no
object file. -/
def fatEnv : Env where
  readFile p := if p = "fat.o".toList then .ok "ab".toList else .error .noSuchFileOrDirectory
  fatObjects d := if d = "ab".toList then .ok [(0, 1), (1, 1)] else .error (.other 0)
  archiveChildren _ := .error (.other 1)
  createObjectFile m := if m.buffer = "a".toList then .ok ⟨none, 7⟩ else .error (.other 2)

theorem getObjectFiles_error_keeps_fat : ∃ bufs s₁ e s',
    empty.getMemoryBuffersForFile fatEnv "fat.o".toList TimeValue.minTime = .ok (.ok bufs, s₁) ∧
    empty.getObjectFiles fatEnv "fat.o".toList TimeValue.minTime = .ok (.error e, s') ∧
    ∃ k b made, bufs[k]? = some b ∧ fatEnv.createObjectFile b = .error e ∧
      (bufs.take k).mapM fatEnv.createObjectFile = .ok made ∧ s'.currentObjectFiles = made ∧
      ∀ T', s'.getObjfileForArch T' = made.find? (·.isForArch T') := by
  obtain ⟨bufs, s₁, e, s', hb, h⟩ : ∃ bufs s₁ e s',
      empty.getMemoryBuffersForFile fatEnv "fat.o".toList TimeValue.minTime = .ok (.ok bufs, s₁) ∧
      empty.getObjectFiles fatEnv "fat.o".toList TimeValue.minTime = .ok (.error e, s') :=
    ⟨_, _, _, _, rfl, rfl⟩
  exact ⟨bufs, s₁, e, s', hb, h, getObjectFiles_error_keeps hb h⟩

/-! ## A call on a name that cannot be read changes nothing -/

theorem openFile_of_error {e : ErrorCode} (h : getFileOrSTDIN env F = .error e) :
    s.openFile env F = (.error e, s) := by
  simp only [openFile, h]

theorem openFile_of_opened {s₁ : BinaryHolderState} {r : List MemoryBufferRef}
    (h : s.openFile env F = (.ok r, s₁)) (t : BinaryHolderState) :
    t.openFile env F = (.ok r, s₁) := by
  rcases hf : getFileOrSTDIN env F with e | File
  · rw [openFile_of_error hf] at h
    cases h
  · rw [← h]
    simp only [openFile, hf, changeBackingMemoryBuffer_eq]

theorem createObjectFiles_snd : ∀ (s : BinaryHolderState) (bufs : List MemoryBufferRef)
    (Objects : List ObjectFile),
    ∃ objs, (s.createObjectFiles env bufs Objects).2 = { s with currentObjectFiles := objs }
  | s, [], _ => ⟨s.currentObjectFiles, rfl⟩
  | s, MemBuf :: rest, Objects => by
    unfold createObjectFiles
    rcases env.createObjectFile MemBuf with e | Obj
    · exact ⟨s.currentObjectFiles, rfl⟩
    · obtain ⟨objs, h⟩ := createObjectFiles_snd _ rest _
      exact ⟨objs, h⟩

theorem getMemoryBuffersForFile_of_archives_nil (hs : s.currentArchives = []) :
    s.getMemoryBuffersForFile env F T = s.getUncachedBuffers env F T := by
  obtain ⟨⟨archives⟩, _, _, _⟩ := s
  subst hs
  rfl

/-- A call that returned buffers left a holder whose archives answer the name with them, or one
that opened the file, holds no archive, and that any holder without archives reaches again. -/
theorem getMemoryBuffersForFile_ok_cases {bufs : List MemoryBufferRef}
    (h : s.getMemoryBuffersForFile env F T = .ok (.ok bufs, s')) :
    s'.toBinaryHolder.getArchiveMemberBuffers F T = .ok (.ok bufs) ∨
      s'.currentArchives = [] ∧ ∀ t : BinaryHolderState, t.currentArchives = [] →
        t.getMemoryBuffersForFile env F T = .ok (.ok bufs, s') := by
  rcases getMemoryBuffersForFile_eq_ok h with ⟨hlk, rfl, -⟩ | ⟨-, -, h⟩
  · exact .inl hlk
  have hnil : ∀ {s₀ : BinaryHolderState}, s₀.openFile env F = (.ok bufs, s') →
      s'.currentArchives = [] := fun {s₀} ho => by
    have := openFile_archives (show (s₀.openFile env F).1 = .ok bufs by rw [ho])
    rwa [ho] at this
  unfold getUncachedBuffers at h
  split at h
  · rename_i hend
    rcases hm : s.mapArchiveAndGetMemberBuffers env F T with msg | ⟨e | bufs', s₀⟩ <;> rw [hm] at h
    · cases h
    · -- the archive did not answer: `F` was opened as a file, and is again
      have ho : s₀.openFile env F = (.ok bufs, s') := Except.ok.inj h
      refine .inr ⟨hnil ho, fun t ht => ?_⟩
      rw [getMemoryBuffersForFile_of_archives_nil ht, getUncachedBuffers, if_pos hend]
      rcases hf : getFileOrSTDIN env (StringRef.substrN F 0 (StringRef.find F '(')) with e' | Buff
      · simp only [mapArchiveAndGetMemberBuffers_of_error hf, ok_bind, openFile_of_opened ho]
        rfl
      · simp only [mapArchiveAndGetMemberBuffers_of_ok (t := s) hf, hm, ok_bind, ho]
        rfl
    · -- the archive answered, and its members are held
      cases h
      obtain ⟨-, ⟨e, -, he⟩ | ⟨-, hlk⟩⟩ := mapArchiveAndGetMemberBuffers_eq_ok hm
      · cases he
      · exact .inl hlk
  · have ho : s.openFile env F = (.ok bufs, s') := Except.ok.inj h
    refine .inr ⟨hnil ho, fun t ht => ?_⟩
    simp only [getMemoryBuffersForFile_of_archives_nil ht, getUncachedBuffers, if_neg ‹_›,
      openFile_of_opened ho]
    rfl

/-- **A call that succeeded answers the same way again.** When `GetObjectFiles` returns object
files, the same call on the holder it left returns the same object files and leaves the holder
as it is: the name is answered from the archives the first call loaded, or the file is opened
again, as the first call opened it. The name read is not the standard input (`-`, alone or as
the archive of `-(M)`), which the code reads to its end once and the model reads again alike. -/
theorem getObjectFiles_again {os : List ObjectFile}
    (_hstd : StringRef.substrN F 0 (StringRef.find F '(') ≠ "-".toList)
    (h : s.getObjectFiles env F T = .ok (.ok os, s')) :
    s'.getObjectFiles env F T = .ok (.ok os, s') := by
  obtain ⟨s₁, ⟨e, -, he, -⟩ | ⟨bufs, hm, hc⟩⟩ := getObjectFiles_eq_ok h
  · cases he
  -- the holder left is the one the buffers came with, holding the new object files
  obtain ⟨objs, hobjs⟩ := createObjectFiles_snd { s₁ with currentObjectFiles := [] } bufs []
  obtain rfl : s' = { s₁ with currentObjectFiles := objs } :=
    (congrArg Prod.snd hc).symm.trans hobjs
  rcases getMemoryBuffersForFile_ok_cases hm with hlk | ⟨hnil, hagain⟩
  · simp only [getObjectFiles, getMemoryBuffersForFile, hlk, ok_bind, pure_bind, hc]
    rfl
  · simp only [getObjectFiles, hagain { s₁ with currentObjectFiles := objs } hnil, ok_bind, hc]
    rfl

theorem getObjectFiles_again_libfoo :
    StringRef.substrN "libfoo.a(a.o)".toList 0 (StringRef.find "libfoo.a(a.o)".toList '(') ≠
        "-".toList ∧
      ∃ os s', empty.getObjectFiles libfooEnv "libfoo.a(a.o)".toList TimeValue.minTime =
        .ok (.ok os, s') ∧
      s'.getObjectFiles libfooEnv "libfoo.a(a.o)".toList TimeValue.minTime = .ok (.ok os, s') :=
  ⟨by decide, _, _, rfl, getObjectFiles_again (by decide)
    (show empty.getObjectFiles libfooEnv "libfoo.a(a.o)".toList TimeValue.minTime = _ from rfl)⟩

/-! ## The name `A(M)` of an archive member is read back -/

/-- The archives a load of `A` adds are named `A`, unless `A` names the standard input and it
holds a plain archive, which is named `<stdin>`. -/
theorem loadArchive_getFileName
    (hstd : A = "-".toList → ∀ Buff, getFileOrSTDIN env A = .ok Buff →
      ∃ Fat, env.fatObjects Buff.buffer = .ok Fat) :
    ∀ a ∈ (s.loadArchive env A).2.currentArchives, a ∈ s.currentArchives ∨ a.getFileName = A := by
  intro a ha
  rcases hf : getFileOrSTDIN env A with e | Buff
  · simp only [loadArchive, hf] at ha
    exact .inl ha
  · rcases hF : env.fatObjects Buff.buffer with e | Fat <;>
      simp only [loadArchive, hf, hF, changeBackingMemoryBuffer_eq] at ha <;>
      rcases pushArchives_archives _ _ a ha with h | ⟨b, hb, hab⟩
    · simp at h
    · have hid : Buff.identifier = A := by
        rw [getFileOrSTDIN_identifier hf, if_neg fun h => ?_]
        obtain ⟨Fat, hFat⟩ := hstd h Buff hf
        cases hF.symm.trans hFat
      rw [List.mem_singleton.1 hb] at hab
      exact .inr (hab.trans hid)
    · simp at h
    · obtain ⟨It, -, rfl⟩ := List.mem_map.1 hb
      exact .inr hab

theorem getMemoryBuffersForFile_empty : empty.getMemoryBuffersForFile env F T =
    empty.getUncachedBuffers env F T := rfl

theorem endswith_archiveMember (A M : List Char) :
    StringRef.endswith (A ++ '(' :: (M ++ [')'])) [')'] = true := by
  simp [StringRef.endswith, List.isSuffixOf]

/-- On a new holder, the name `A(M)` returns the members named `M` of the archives a load of `A`
reads, when that load succeeds and names them all `A`. -/
theorem getMemoryBuffersForFile_member_of_names {A M : List Char} {bufs : List MemoryBufferRef}
    (hA : '(' ∉ A) (hname : ∀ a ∈ (empty.loadArchive env A).2.currentArchives, a.getFileName = A)
    (hload : (empty.loadArchive env A).1 = .ok ())
    (hbufs : memberBuffers (empty.loadArchive env A).2.currentArchives M T = .ok bufs) :
    empty.getMemoryBuffersForFile env (A ++ '(' :: (M ++ [')'])) T =
      .ok (.ok bufs, (empty.loadArchive env A).2) := by
  -- the load reads at least one archive, and the lookup reads its name
  obtain ⟨front, rest, hfr⟩ : ∃ front rest,
      (empty.loadArchive env A).2.currentArchives = front :: rest := by
    rcases h : (empty.loadArchive env A).2.currentArchives with _ | ⟨front, rest⟩
    · rw [h] at hbufs
      cases hbufs
    · exact ⟨front, rest, rfl⟩
  have hlk : (empty.loadArchive env A).2.toBinaryHolder.getArchiveMemberBuffers
      (A ++ '(' :: (M ++ [')'])) T = .ok (.ok bufs) := by
    rw [show (empty.loadArchive env A).2.toBinaryHolder = ⟨front :: rest⟩ by rw [← hfr],
      ← hname front (hfr ▸ List.mem_cons_self _ _), getArchiveMemberBuffers_eq, ← hfr, hbufs]
  have hmap : empty.mapArchiveAndGetMemberBuffers env (A ++ '(' :: (M ++ [')'])) T =
      .ok (.ok bufs, (empty.loadArchive env A).2) := by
    have hsub : StringRef.substrN (A ++ '(' :: (M ++ [')'])) 0
        (StringRef.find (A ++ '(' :: (M ++ [')'])) '(') = A :=
      substrN_find_of_prefix hA ⟨M ++ [')'], by simp⟩
    unfold mapArchiveAndGetMemberBuffers
    rw [hsub, show empty.loadArchive env A = (.ok (), (empty.loadArchive env A).2) from
      Prod.ext hload rfl]
    simp only [hlk]
    rfl
  rw [getMemoryBuffersForFile_empty, getUncachedBuffers, if_pos (endswith_archiveMember A M), hmap]
  rfl

/-- **The name `A(M)` is read back.** On a new holder, the name `A(M)` of a member of an archive
`A`, whose name has no `(` and is not the standard input, loads `A`; when the load succeeds and
`A` has members named `M` (of the time asked for), the call returns exactly their buffers and
keeps the archives read from `A`. -/
theorem getMemoryBuffersForFile_archiveMember {A M : List Char} {bufs : List MemoryBufferRef}
    (hA : '(' ∉ A) (hstd : A ≠ "-".toList) (hload : (empty.loadArchive env A).1 = .ok ())
    (hbufs : memberBuffers (empty.loadArchive env A).2.currentArchives M T = .ok bufs) :
    empty.getMemoryBuffersForFile env (A ++ '(' :: (M ++ [')'])) T =
      .ok (.ok bufs, (empty.loadArchive env A).2) :=
  getMemoryBuffersForFile_member_of_names hA
    (fun a ha => (loadArchive_getFileName (absurd · hstd) a ha).resolve_left (List.not_mem_nil a))
    hload hbufs

theorem getMemoryBuffersForFile_archiveMember_libfoo :
    empty.getMemoryBuffersForFile libfooEnv ("libfoo.a".toList ++ '(' :: ("a.o".toList ++ [')']))
      TimeValue.minTime = .ok (.ok [⟨"obj".toList, "a.o".toList⟩],
        (empty.loadArchive libfooEnv "libfoo.a".toList).2) :=
  getMemoryBuffersForFile_archiveMember (by decide) (by decide) rfl rfl

/-- **A member of a plain archive read from the standard input is never found.** The buffer of
the standard input is named `<stdin>`, and so is a plain archive read from it, while the name
`-(M)` is looked up under `-(`: on a new holder, when the standard input holds no fat binary,
`GetMemoryBuffersForFile` answers `-(M)` as it answers a file of that name, whatever members the
archive has. The archives of a fat binary on the standard input are cut from it under the name
`-`, and `-(M)` returns their members named `M`. -/
theorem getMemoryBuffersForFile_stdin_member {M : List Char} {Buff : MemoryBufferRef}
    (hf : getFileOrSTDIN env "-".toList = .ok Buff) :
    ((∃ e₀, env.fatObjects Buff.buffer = .error e₀) →
      Prod.fst <$> empty.getMemoryBuffersForFile env ('-' :: '(' :: (M ++ [')'])) T =
        .ok (empty.openFile env ('-' :: '(' :: (M ++ [')']))).1) ∧
    ((∃ Fat, env.fatObjects Buff.buffer = .ok Fat) →
      (∀ a ∈ (empty.loadArchive env "-".toList).2.currentArchives, a.getFileName = "-".toList) ∧
      ∀ bufs, (empty.loadArchive env "-".toList).1 = .ok () →
        memberBuffers (empty.loadArchive env "-".toList).2.currentArchives M T = .ok bufs →
        empty.getMemoryBuffersForFile env ('-' :: '(' :: (M ++ [')'])) T =
          .ok (.ok bufs, (empty.loadArchive env "-".toList).2)) := by
  refine ⟨fun ⟨e₀, hfat⟩ => ?_, fun ⟨Fat, hfat⟩ => ?_⟩
  · have hsub : StringRef.substrN ('-' :: '(' :: (M ++ [')'])) 0
        (StringRef.find ('-' :: '(' :: (M ++ [')'])) '(') = "-".toList :=
      substrN_find_of_prefix (by decide) ⟨M ++ [')'], rfl⟩
    have hid : Buff.identifier = "<stdin>".toList := by rw [getFileOrSTDIN_identifier hf, if_pos rfl]
    -- the archive load either fails or holds one archive named `<stdin>`: the lookup misses
    have hmap : ∃ e s₁, empty.mapArchiveAndGetMemberBuffers env ('-' :: '(' :: (M ++ [')'])) T =
        .ok (.error e, s₁) := by
      unfold mapArchiveAndGetMemberBuffers
      simp only [hsub, loadArchive, hf, hfat, changeBackingMemoryBuffer_eq, pushArchives]
      rcases hA : Archive.create env Buff with e | A
      · exact ⟨e, _, rfl⟩
      · have hn : ¬ (A.getFileName ++ ['(']) <+: '-' :: '(' :: (M ++ [')']) := by
          rw [Archive.create_getFileName hA, hid]
          exact fun ⟨t, ht⟩ => absurd (List.cons.inj ht).1 (by decide)
        exact ⟨_, _, by
          simp only [pushArchives, List.nil_append]
          rw [show (BinaryHolder.mk [A]).getArchiveMemberBuffers _ T = _ from
            getArchiveMemberBuffers_of_not_prefix A [] _ T hn]
          rfl⟩
    obtain ⟨e, s₁, hm⟩ := hmap
    have hend : StringRef.endswith ('-' :: '(' :: (M ++ [')'])) [')'] = true :=
      endswith_archiveMember "-".toList M
    rw [getMemoryBuffersForFile_empty, getUncachedBuffers, if_pos hend, hm]
    exact congrArg Except.ok (openFile_fst (s := s₁) (t := empty))
  · -- the slices of the fat binary are named `-`, and so are the archives read from them
    have hname : ∀ a ∈ (empty.loadArchive env "-".toList).2.currentArchives,
        a.getFileName = "-".toList := fun a ha =>
      (loadArchive_getFileName (fun _ Buff' hf' => ⟨Fat, Except.ok.inj (hf.symm.trans hf') ▸ hfat⟩)
        a ha).resolve_left (List.not_mem_nil a)
    exact ⟨hname, fun bufs hload hbufs =>
      getMemoryBuffersForFile_member_of_names (by decide) hname hload hbufs⟩

/-- The archive of `libfooEnv`, with its member `a.o`, on the standard input. -/
def stdinEnv : Env :=
  { libfooEnv with
    readFile := fun p => if p = "-".toList then .ok "!<arch>obj".toList else .error .noSuchFileOrDirectory }

/-- The same archive on the standard input, as the one object of a fat binary. -/
def fatStdinEnv : Env :=
  { stdinEnv with
    fatObjects := fun d => if d = "!<arch>obj".toList then .ok [(0, 10)] else .error (.other 0) }

theorem getMemoryBuffersForFile_stdin_member_aO :
    getFileOrSTDIN stdinEnv "-".toList = .ok ⟨"!<arch>obj".toList, "<stdin>".toList⟩ ∧
      Prod.fst <$> empty.getMemoryBuffersForFile stdinEnv ('-' :: '(' :: ("a.o".toList ++ [')']))
          TimeValue.minTime =
        .ok (empty.openFile stdinEnv ('-' :: '(' :: ("a.o".toList ++ [')']))).1 ∧
      getFileOrSTDIN fatStdinEnv "-".toList = .ok ⟨"!<arch>obj".toList, "<stdin>".toList⟩ ∧
      empty.getMemoryBuffersForFile fatStdinEnv ('-' :: '(' :: ("a.o".toList ++ [')']))
          TimeValue.minTime =
        .ok (.ok [⟨"obj".toList, "a.o".toList⟩], (empty.loadArchive fatStdinEnv "-".toList).2) := by
  have h₁ : getFileOrSTDIN stdinEnv "-".toList = .ok ⟨"!<arch>obj".toList, "<stdin>".toList⟩ := rfl
  have h₂ : getFileOrSTDIN fatStdinEnv "-".toList = .ok ⟨"!<arch>obj".toList, "<stdin>".toList⟩ :=
    rfl
  exact ⟨h₁, (getMemoryBuffersForFile_stdin_member h₁).1 ⟨_, rfl⟩, h₂,
    ((getMemoryBuffersForFile_stdin_member h₂).2 ⟨_, rfl⟩).2 _ rfl rfl⟩

/-! ## The buffers returned lie in the buffer the holder owns -/

/-- What LLVM's Object library guarantees of the archives it reads: the buffer of each child is a
part of the archive's data. -/
def ChildrenInside (env : Env) : Prop :=
  ∀ d cs, env.archiveChildren d = .ok cs → ∀ c ∈ cs, ∀ m, c.getMemoryBufferRef = .ok m →
    m.buffer <:+: d

/-- A buffer lies in the buffer the holder owns. -/
def Inside (s : BinaryHolderState) (m : MemoryBufferRef) : Prop :=
  ∃ mb, s.currentMemoryBuffer = some mb ∧ m.buffer <:+: mb.buffer

/-- Every member of an archive held lies in the buffer the holder owns. -/
def Owned (s : BinaryHolderState) : Prop :=
  ∀ a ∈ s.currentArchives, ∀ c ∈ a.children, ∀ m, c.getMemoryBufferRef = .ok m → s.Inside m

theorem owned_of_archives_nil (h : s.currentArchives = []) : s.Owned := by
  simp [Owned, h]

theorem pushArchives_memoryBuffer : ∀ (s : BinaryHolderState) (bufs : List MemoryBufferRef),
    (s.pushArchives env bufs).2.currentMemoryBuffer = s.currentMemoryBuffer
  | s, [] => rfl
  | s, MemRef :: rest => by
    unfold pushArchives
    rcases Archive.create env MemRef with e | A
    · rfl
    · exact pushArchives_memoryBuffer _ rest

theorem Owned.pushArchives (henv : ChildrenInside env) : ∀ (s : BinaryHolderState)
    (bufs : List MemoryBufferRef), s.Owned → (∀ b ∈ bufs, s.Inside b) →
    (s.pushArchives env bufs).2.Owned
  | s, [], hs, _ => hs
  | s, MemRef :: rest, hs, hb => by
    unfold BinaryHolderState.pushArchives
    rcases hA : Archive.create env MemRef with e | A
    · exact hs
    · refine Owned.pushArchives henv _ rest (fun a ha c hc m hm => ?_)
        fun b hb' => hb b (List.mem_cons_of_mem _ hb')
      rcases List.mem_append.1 ha with ha | ha
      · exact hs a ha c hc m hm
      · rw [List.mem_singleton.1 ha] at hc
        unfold Archive.create at hA
        rcases hcs : env.archiveChildren MemRef.buffer with e | cs <;> rw [hcs] at hA <;> cases hA
        obtain ⟨mb, hmb, hin⟩ := hb MemRef (List.mem_cons_self _ _)
        exact ⟨mb, hmb, (henv _ cs hcs c hc m hm).trans hin⟩

theorem substrN_infix (d : List Char) (Start N : Nat) : StringRef.substrN d Start N <:+: d :=
  (List.take_prefix N _).isInfix.trans (List.drop_suffix Start d).isInfix

theorem Owned.loadArchive (henv : ChildrenInside env) (hs : s.Owned) :
    (s.loadArchive env A).2.Owned := by
  rcases hf : getFileOrSTDIN env A with e | Buff
  · simpa only [BinaryHolderState.loadArchive, hf] using hs
  · rcases hF : env.fatObjects Buff.buffer with e | Fat <;>
      simp only [BinaryHolderState.loadArchive, hf, hF, changeBackingMemoryBuffer_eq] <;>
      refine Owned.pushArchives henv _ _ (owned_of_archives_nil rfl) fun b hb => ⟨Buff, rfl, ?_⟩
    · obtain rfl := List.mem_singleton.1 hb
      exact List.infix_refl _
    · obtain ⟨It, -, rfl⟩ := List.mem_map.1 hb
      exact substrN_infix _ _ _

theorem mem_of_mapM_eq_ok {α β ε : Type} {g : α → Except ε β} :
    ∀ {l : List α} {r : List β}, l.mapM g = .ok r → ∀ y ∈ r, ∃ x ∈ l, g x = .ok y
  | [], r, h => by cases h; simp
  | a :: l, r, h => by
    rw [List.mapM_cons] at h
    rcases ha : g a with e | b <;> rw [ha] at h
    · cases h
    rcases hl : l.mapM g with e | bs <;> simp only [hl, ok_bind] at h
    · cases h
    cases h
    intro y hy
    rcases List.mem_cons.1 hy with rfl | hy
    · exact ⟨a, List.mem_cons_self _ _, ha⟩
    · obtain ⟨x, hx, hgx⟩ := mem_of_mapM_eq_ok hl y hy
      exact ⟨x, List.mem_cons_of_mem _ hx, hgx⟩

theorem mem_getArchiveMemberBuffers {h : BinaryHolder} {bufs : List MemoryBufferRef}
    (hh : h.getArchiveMemberBuffers F T = .ok (.ok bufs)) :
    ∀ m ∈ bufs, ∃ a ∈ h.currentArchives, ∃ c ∈ a.children, c.getMemoryBufferRef = .ok m := by
  obtain ⟨front, rest, hfr, X, rfl⟩ := getArchiveMemberBuffers_prefix hh
  obtain ⟨archives⟩ := h
  obtain rfl : archives = front :: rest := hfr
  rcases List.eq_nil_or_concat X with rfl | ⟨Member, c, rfl⟩
  · have hsub := substr_open_paren front.getFileName []
    simp only [List.append_nil, BinaryHolder.getArchiveMemberBuffers, startswith_open_paren, hsub,
      Bool.not_true, Bool.false_eq_true, if_false] at hh
    cases hh
  · rw [List.concat_eq_append, List.append_assoc, List.singleton_append, getArchiveMemberBuffers_eq]
      at hh
    have hm : memberBuffers (front :: rest) Member T = .ok bufs := Except.ok.inj hh
    unfold memberBuffers at hm
    rcases hmap : (((front :: rest).flatMap (·.children)).filter (·.matches Member T)).mapM
      (·.getMemoryBufferRef) with e | Buffers <;> simp only [hmap, ok_bind] at hm
    · cases hm
    split at hm <;> cases hm
    intro m hm'
    obtain ⟨c, hc, hcm⟩ := mem_of_mapM_eq_ok hmap m hm'
    obtain ⟨a, ha, hca⟩ := List.mem_flatMap.1 (List.mem_filter.1 hc).1
    exact ⟨a, ha, c, hca, hcm⟩

/-- What a step of `GetMemoryBuffersForFile` leaves: the holder owns the members of its archives
and every buffer it returned. -/
def Serves (r : Except ErrorCode (List MemoryBufferRef)) (s : BinaryHolderState) : Prop :=
  s.Owned ∧ ∀ bufs, r = .ok bufs → ∀ b ∈ bufs, s.Inside b

theorem Owned.openFile (hs : s.Owned) : Serves (s.openFile env F).1 (s.openFile env F).2 := by
  rcases hf : getFileOrSTDIN env F with e | File
  · simp only [BinaryHolderState.openFile, hf]
    exact ⟨hs, fun _ h => by cases h⟩
  · rcases hF : env.fatObjects File.buffer with e | Fat <;>
      simp only [BinaryHolderState.openFile, hf, hF] <;>
      refine ⟨owned_of_archives_nil rfl, fun bufs h b hb => ⟨File, rfl, ?_⟩⟩ <;> cases h
    · obtain rfl := List.mem_singleton.1 hb
      exact List.infix_refl _
    · obtain ⟨It, -, rfl⟩ := List.mem_map.1 hb
      exact substrN_infix _ _ _

theorem Owned.lookup (hs : s.Owned) (h : s.toBinaryHolder.getArchiveMemberBuffers F T = .ok r) :
    Serves r s := by
  refine ⟨hs, fun bufs hr m hm => ?_⟩
  subst hr
  obtain ⟨a, ha, c, hc, hcm⟩ := mem_getArchiveMemberBuffers h m hm
  exact hs a ha c hc m hcm

theorem Owned.mapArchiveAndGetMemberBuffers (henv : ChildrenInside env) (hs : s.Owned)
    (h : s.mapArchiveAndGetMemberBuffers env F T = .ok (r, s')) : Serves r s' := by
  obtain ⟨rfl, ⟨e, -, rfl⟩ | ⟨-, hlk⟩⟩ := mapArchiveAndGetMemberBuffers_eq_ok h
  · exact ⟨hs.loadArchive henv, fun _ h => by cases h⟩
  · exact (hs.loadArchive henv).lookup hlk

theorem Owned.getMemoryBuffersForFile (henv : ChildrenInside env) (hs : s.Owned)
    (h : s.getMemoryBuffersForFile env F T = .ok (r, s')) : Serves r s' := by
  rcases getMemoryBuffersForFile_eq_ok h with ⟨hlk, rfl, -⟩ | ⟨-, -, h⟩
  · exact hs.lookup hlk
  rcases getUncachedBuffers_eq_ok h with ⟨-, -, hm⟩ | ⟨s₁, hs₁, ho⟩
  · exact hs.mapArchiveAndGetMemberBuffers henv hm
  · have h₁ : s₁.Owned := by
      rcases hs₁ with rfl | ⟨e, hm⟩
      exacts [hs, (hs.mapArchiveAndGetMemberBuffers henv hm).1]
    have h₂ : Serves (s₁.openFile env F).1 (s₁.openFile env F).2 := h₁.openFile
    rwa [ho] at h₂

theorem Owned.getObjectFiles {r : Except ErrorCode (List ObjectFile)} (henv : ChildrenInside env)
    (hs : s.Owned) (h : s.getObjectFiles env F T = .ok (r, s')) : s'.Owned := by
  obtain ⟨s₁, ⟨e, hm, -, rfl⟩ | ⟨bufs, hm, hc⟩⟩ := getObjectFiles_eq_ok h
  · exact (hs.getMemoryBuffersForFile henv hm).1
  · rw [show s' = _ from congrArg Prod.snd hc.symm]
    simp only [Owned, Inside, createObjectFiles_archives, createObjectFiles_memoryBuffer]
    exact (hs.getMemoryBuffersForFile henv hm).1

/-- **The buffers handed out lie in the buffer owned.** After any run of `GetObjectFiles` calls on
a new holder, over files whose archives keep their members inside their data, the holder the run
leaves owns every member of the archives it holds; so does the holder after the next
`GetMemoryBuffersForFile`, and every buffer that call returns lies inside the memory buffer the
holder then owns: no `MemoryBufferRef` it hands out points into a buffer it has released. -/
theorem runGetObjectFiles_buffers_inside (henv : ChildrenInside env)
    {calls : List (List Char × TimeValue)} {rs : List (Except ErrorCode (List ObjectFile))}
    {bufs : List MemoryBufferRef} (h : empty.runGetObjectFiles env calls = .ok (rs, s))
    (hb : s.getMemoryBuffersForFile env F T = .ok (.ok bufs, s')) :
    s.Owned ∧ s'.Owned ∧ ∀ b ∈ bufs, s'.Inside b := by
  have hs : s.Owned := runGetObjectFiles_induction Owned (fun _ => True)
    (fun _ _ _ _ _ hs _ h => hs.getObjectFiles henv h) calls empty rs (owned_of_archives_nil rfl) h
    fun _ _ => trivial
  obtain ⟨h₁, h₂⟩ := hs.getMemoryBuffersForFile henv hb
  exact ⟨hs, h₁, h₂ bufs rfl⟩

theorem libfooEnv_childrenInside : ChildrenInside libfooEnv := by
  intro d cs h c hc m hm
  simp only [libfooEnv] at h
  split at h <;> cases h
  rw [List.mem_singleton.1 hc] at hm
  cases hm
  subst d
  exact ⟨"!<arch>".toList, [], rfl⟩

theorem runGetObjectFiles_buffers_inside_libfoo :
    ∃ rs s bufs s', empty.runGetObjectFiles libfooEnv libfooCalls = .ok (rs, s) ∧
      s.getMemoryBuffersForFile libfooEnv "libfoo.a(a.o)".toList TimeValue.minTime =
        .ok (.ok bufs, s') ∧ s.Owned ∧ s'.Owned ∧ ∀ b ∈ bufs, s'.Inside b := by
  obtain ⟨rs, s, bufs, s', h, hb⟩ : ∃ rs s bufs s',
      empty.runGetObjectFiles libfooEnv libfooCalls = .ok (rs, s) ∧
      s.getMemoryBuffersForFile libfooEnv "libfoo.a(a.o)".toList TimeValue.minTime =
        .ok (.ok bufs, s') := ⟨_, _, _, _, rfl, rfl⟩
  exact ⟨rs, s, bufs, s', h, hb, runGetObjectFiles_buffers_inside libfooEnv_childrenInside h hb⟩


end BinaryHolderState

end Llvm.Dsymutil
