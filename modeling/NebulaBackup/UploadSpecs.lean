/-
What uploads do on a store that is a map, when nobody cancels.

The effect on the store is a relation between its contents before and after:
`BlockStep` for one block, `BlockSteps` for the blocks of a file.  Each command
has one lemma that says that it returns, what it changes in the session and by
which of these relations the store changes:

* `compressEncryptAndUploadBlock_run`, `chunkLoop_run`, `uploadFileWith_run`;
* `packFile_run`, `finalizePack_run` for packs.
-/
import NebulaBackup.Upload
import NebulaBackup.SnapshotFormat

namespace Nebula

open EStateM.Result Hoare

/-- The contents of a store. -/
abbrev Contents := Bytes → Option Bytes

/-! ### Blocks -/

/-- The id of a block. -/
def blockId (C : Crypto) (keys : RepositoryKeys) (t : CompressionType) (block : Bytes) : ObjectID :=
  C.hmacSha256 (keys.mHashKey.toList.take SHA256_DIGEST_LENGTH) (t.toByte :: block)

theorem computeBlockHMAC_eq (E : Env) (keys : RepositoryKeys) (t : CompressionType) (block : Bytes) :
    computeBlockHMAC E keys block t.toByte = blockId E.C keys t block := rfl

/-- The path of a block. -/
def blockPath (C : Crypto) (keys : RepositoryKeys) (t : CompressionType) (block : Bytes) : Bytes :=
  objectPath (objectName (blockId C keys t block))

/-- The bytes of an object with the given contents. -/
def sealedWith (C : Crypto) (keys : RepositoryKeys) (t : CompressionType)
    (iv : Digest EVP_MAX_IV_LENGTH) (data : Bytes) : Bytes :=
  sealedObject C t keys.mEncKey.toList keys.mMacKey.toList iv.toList data

/-- One block was uploaded: an object of its name was there, or it was
sealed and stored. -/
def BlockStep (C : Crypto) (keys : RepositoryKeys) (t : CompressionType) (block : Bytes)
    (c c' : Contents) : Prop :=
  (c (blockPath C keys t block) ≠ none ∧ c' = c) ∨
    (c (blockPath C keys t block) = none ∧
      ∃ iv, c' = Function.update c (blockPath C keys t block) (some (sealedWith C keys t iv block)))

/-- Blocks were uploaded one after the other. -/
inductive BlockSteps (C : Crypto) (keys : RepositoryKeys) (t : CompressionType) :
    List Bytes → Contents → Contents → Prop
  | nil (c : Contents) : BlockSteps C keys t [] c c
  | cons {block : Bytes} {blocks : List Bytes} {c c' c'' : Contents} :
      BlockStep C keys t block c c' → BlockSteps C keys t blocks c' c'' →
      BlockSteps C keys t (block :: blocks) c c''

theorem isSep_objectPath (name : Bytes) : Path.isSep (objectPath name) 0 = true := rfl

/-- Looking for an object in a directory. -/
theorem storeExist_file (name : Bytes) (s : Session FileDataStore) :
    storeExist (objectPath name) s = ok (s.store.contents (objectPath name)).isSome s := by
  rw [FileDataStore.contents]
  simp only [storeExist, DataStore.exist]
  rw [FileDataStore.exist, FileDataStore.fullPath_rooted _ (isSep_objectPath _)]

section Blocks

variable {δ : Type} {E : Env}

/-- Every id has a name. -/
theorem objectName_run (objectId : ObjectID) (s : Session δ) :
    ofExcept (objectIdToString objectId) s = ok (objectName objectId) s := by
  rw [objectIdToString_ok]
  rfl

theorem sealMemory_run (hC : E.C.Lawful) (t : CompressionType) (data : Bytes) (s : Session δ) :
    ∃ iv out, sealMemory E t data s = ok out { s with randomUsed := s.randomUsed + EVP_MAX_IV_LENGTH } ∧
      Holds out (sealedWith E.C s.keys t iv data) := by
  obtain ⟨out, m, hseal, hout⟩ := compressEncryptHMAC_spec hC (RewindableStream.source data)
    (MemoryInputStream.new_holds data) (Nat.lt_succ_self data.length) t s.keys.mEncKey.toList
    s.keys.mMacKey.toList (bytesFrom E.random s.randomUsed EVP_MAX_IV_LENGTH).toList
  exact ⟨_, out, run_step rfl (run_step rfl (run_step (onStream_run hseal _) rfl)), hout⟩

variable [DataStore δ] (M : StoreModel δ)

/-- **The upload of a block.** -/
theorem compressEncryptAndUploadBlock_run (hC : E.C.Lawful) {s : Session δ} (hs : M.Ok s.store)
    (t : CompressionType) (block : Bytes) {progress : ProgressFunction}
    (hprog : ∀ i j, progress i j = true) :
    ∃ d n, compressEncryptAndUploadBlock E t (blockId E.C s.keys t block) block progress s =
        ok () { s with store := d, randomUsed := n } ∧ M.Ok d ∧
      BlockStep E.C s.keys t block (M.contents s.store) (M.contents d) := by
  have hname := objectName_run (blockId E.C s.keys t block) s
  obtain ⟨d, hexist, hd, hcont⟩ := storeExist_run M hs
    (isSep_objectPath (objectName (blockId E.C s.keys t block)))
  cases hfound : M.contents s.store (blockPath E.C s.keys t block) with
  | some c =>
    rw [show M.contents s.store (objectPath _) = _ from hfound] at hexist
    refine ⟨d, s.randomUsed, ?_, hd, Or.inl ⟨by rw [hfound]; simp, hcont⟩⟩
    refine run_step hname (run_step hexist ?_)
    rw [if_pos (by rfl), if_neg (by rw [hprog]; simp)]
    rfl
  | none =>
    rw [show M.contents s.store (objectPath _) = _ from hfound] at hexist
    obtain ⟨iv, out, hseal, hout⟩ := sealMemory_run (E := E) hC t block { s with store := d }
    obtain ⟨d', hput, hd', hcont'⟩ := storePut_run M
      (s := { s with store := d, randomUsed := s.randomUsed + EVP_MAX_IV_LENGTH }) hd
      (isSep_objectPath (objectName (blockId E.C s.keys t block))) hout hprog
    refine ⟨d', s.randomUsed + EVP_MAX_IV_LENGTH, ?_, hd', Or.inr ⟨hfound, iv, ?_⟩⟩
    · refine run_step hname (run_step hexist ?_)
      rw [if_neg (by simp)]
      exact run_step hseal hput
    · rw [hcont', ← hcont]
      rfl

/-! ### Large files -/

/-- The state after the collected block was uploaded. -/
def ChunkState.uploaded (C : Crypto) (keys : RepositoryKeys) (t : CompressionType)
    (st : ChunkState) : ChunkState where
  chunker := st.chunker.clear
  fed := st.fed ++ st.chunker.blockBuffer
  objectIds := st.objectIds ++ [blockId C keys t st.chunker.blockBuffer]
  blockCount := st.blockCount + 1

theorem uploadBlock_run (hC : E.C.Lawful) {s : Session δ} (hs : M.Ok s.store) (t : CompressionType)
    {progress : FileTransferProgressFunction} (hprog : ∀ a b i j, progress a b i j = true)
    (st : ChunkState) :
    ∃ d n, uploadBlock E t progress st s =
        ok (st.uploaded E.C s.keys t) { s with store := d, randomUsed := n } ∧ M.Ok d ∧
      BlockStep E.C s.keys t st.chunker.blockBuffer (M.contents s.store) (M.contents d) := by
  obtain ⟨d, n, hupload, hd, hstep⟩ := compressEncryptAndUploadBlock_run M hC hs t
    st.chunker.blockBuffer (fun i j => hprog st.blockCount (-1) i j)
  exact ⟨d, n, run_step rfl (run_step hupload rfl), hd, hstep⟩

/-- **The loop over a large file** uploads the blocks of `cutBlocks`, by
induction on the bound of the rounds; every round takes one byte. -/
theorem chunkLoop_run (hC : E.C.Lawful) (p : ChunkParams) (t : CompressionType)
    {progress : FileTransferProgressFunction} (hprog : ∀ a b i j, progress a b i j = true)
    {R : FileStream → Bytes → Prop} (hR : Source R) :
    ∀ {k : ℕ} {file : BufferedInputStream FileStream} {r : Bytes} (st : ChunkState) {s : Session δ},
      M.Ok s.store → BufferedInputStream.Rep R file r → r.length < k →
      ∃ d n st', chunkLoop E p t progress k file st s = ok st' { s with store := d, randomUsed := n } ∧
        M.Ok d ∧
        BlockSteps E.C s.keys t (cutBlocks p st.chunker r) (M.contents s.store) (M.contents d) ∧
        st'.fed = st.fed ++ (cutBlocks p st.chunker r).flatten ∧
        st'.objectIds = st.objectIds ++ (cutBlocks p st.chunker r).map (blockId E.C s.keys t) := by
  intro k
  induction k with
  | zero =>
    intro file r st s _ _ hk
    omega
  | succ k ih =>
    intro file r st s hs hfile hk
    obtain ⟨file', heof, hfile', hbuf⟩ := BufferedInputStream.isEof_spec hR hfile
    cases r with
    | nil =>
      -- the end of the file: what was collected is the last block
      rw [cutBlocks]
      by_cases hempty : st.chunker.blockBuffer = []
      · rw [if_pos hempty]
        refine ⟨s.store, s.randomUsed, st, run_step (onStream_run heof _) ?_, hs, .nil _, ?_, ?_⟩
        · show (if st.chunker.blockBuffer = [] then _ else _ : Command δ _) _ = _
          rw [if_pos hempty]
          rfl
        · simp
        · simp
      · rw [if_neg hempty]
        obtain ⟨d, n, hupload, hd, hstep⟩ := uploadBlock_run M hC hs t hprog st
        refine ⟨d, n, st.uploaded E.C s.keys t, run_step (onStream_run heof _) ?_, hd,
          .cons hstep (.nil _), ?_, ?_⟩
        · show (if st.chunker.blockBuffer = [] then _ else _ : Command δ _) _ = _
          rw [if_neg hempty]
          exact hupload
        · simp [ChunkState.uploaded]
        · simp [ChunkState.uploaded]
    | cons b r =>
      obtain ⟨file'', hread, hfile''⟩ := BufferedInputStream.readByte_spec hfile' (hbuf (by simp))
      rw [List.length_cons] at hk
      obtain ⟨cut, rh, hpush, -⟩ := st.chunker.push_spec p b
      cases cut with
      | true =>
        obtain ⟨d, n, hupload, hd, hstep⟩ := uploadBlock_run M hC hs t hprog
          { st with chunker := ⟨st.chunker.blockBuffer ++ [b], rh⟩ }
        obtain ⟨d', n', st', hloop, hd', hsteps, hfed, hids⟩ := ih _ hd hfile'' (by omega)
          (s := { s with store := d, randomUsed := n })
        have hcut : cutBlocks p st.chunker (b :: r) = (st.chunker.blockBuffer ++ [b]) ::
            cutBlocks p (Chunker.clear ⟨st.chunker.blockBuffer ++ [b], rh⟩) r := by
          rw [cutBlocks, hpush]
        refine ⟨d', n', st', run_step (onStream_run heof _) ?_, hd', ?_, ?_, ?_⟩
        · refine run_step (onStream_run hread _) ?_
          simp only [hpush]
          exact run_step hupload hloop
        · rw [hcut]
          exact .cons hstep hsteps
        · rw [hfed, hcut, List.flatten_cons, ← List.append_assoc]
          rfl
        · rw [hids, hcut, List.map_cons]
          exact List.append_assoc st.objectIds [_] _
      | false =>
        obtain ⟨d, n, st', hloop, hd, hsteps, hfed, hids⟩ := ih
          { st with chunker := ⟨st.chunker.blockBuffer ++ [b], rh⟩ } hs hfile'' (by omega)
        have hcut : cutBlocks p st.chunker (b :: r) =
            cutBlocks p ⟨st.chunker.blockBuffer ++ [b], rh⟩ r := by
          rw [cutBlocks, hpush]
        refine ⟨d, n, st', run_step (onStream_run heof _) ?_, hd, ?_, ?_, ?_⟩
        · refine run_step (onStream_run hread _) ?_
          simp only [hpush]
          exact hloop
        · rw [hcut]
          exact hsteps
        · rw [hfed, hcut]
        · rw [hids, hcut]

end Blocks

/-! ### Files without a pack -/

/-- A file that can be uploaded: what `stat` finds and what the stream
delivers. -/
structure LocalFile where
  info : FileInfo
  content : Bytes
  exists_eq : info.exists = true
  length_eq : info.mLength.toNat = content.length

/-- Whether `uploadFile` treats the file as small. -/
def LocalFile.isSmall (E : Env) (f : LocalFile) : Prop :=
  f.content.length < toSizeT E.options.smallFileSize

instance (E : Env) (f : LocalFile) : Decidable (f.isSmall E) :=
  inferInstanceAs (Decidable (_ < _))

/-- The blocks of a file that is cut with the given sizes. -/
def LocalFile.cut (E : Env) (keys : RepositoryKeys) (p : ChunkParams) (f : LocalFile) : List Bytes :=
  cutBlocks p ⟨[], RollingHash.new E.C keys.mRollKey.toList 8192⟩ f.content

/-- The blocks that `uploadFile` makes of a file, and the number of bits of
its rolling hash. -/
def LocalFile.blocks (E : Env) (keys : RepositoryKeys) (f : LocalFile) : Except Fault (ℕ × List Bytes) :=
  if f.isSmall E then .ok (0, [f.content])
  else (chunkParams E f.content.length).map fun p => (p.rollingHashBits, f.cut E keys p)

/-- The entry of a file. -/
def LocalFile.args (E : Env) (keys : RepositoryKeys) (destPath : Bytes) (f : LocalFile)
    (bits : ℕ) (blocks : List Bytes) : AddArgs :=
  ⟨Path.normalizedPath destPath, f.info.mUserName, f.info.mGroupName, f.info.mType, f.info.mMode,
    compressionFor f.info, f.info.mLength, f.info.mLastModifyTime, .ofNat bits, E.C.md5 f.content, 0, 0,
    blocks.map (blockId E.C keys (compressionFor f.info))⟩

/-- **The blocks are the file.** -/
theorem LocalFile.blocks_flatten {E : Env} {keys : RepositoryKeys} {f : LocalFile} {bits : ℕ}
    {blocks : List Bytes} (h : f.blocks E keys = .ok (bits, blocks)) : blocks.flatten = f.content := by
  rw [LocalFile.blocks] at h
  by_cases hsmall : f.isSmall E
  · rw [if_pos hsmall] at h
    obtain ⟨-, rfl⟩ := Prod.mk.inj (Except.ok.inj h)
    exact List.flatten_singleton
  · rw [if_neg hsmall] at h
    cases hp : chunkParams E f.content.length with
    | error e =>
      rw [hp] at h
      exact absurd h (by simp [Except.map])
    | ok p =>
      rw [hp] at h
      obtain ⟨-, rfl⟩ := Prod.mk.inj (Except.ok.inj h)
      exact cutBlocks_flatten f.content _

section Files

variable {δ : Type} {E : Env}

theorem addEntry_run (normalizedPath : Bytes) (fileInfo : FileInfo) (bits : ℕ) (md5 : Digest 16)
    (objectIds : List ObjectID) (s : Session δ) :
    addEntry normalizedPath fileInfo bits md5 objectIds s =
      match s.snapshot.addFileEntry ⟨normalizedPath, fileInfo.mUserName, fileInfo.mGroupName,
        fileInfo.mType, fileInfo.mMode, compressionFor fileInfo, fileInfo.mLength,
        fileInfo.mLastModifyTime, .ofNat bits, md5, 0, 0, objectIds⟩ with
      | .error e => error e s
      | .ok snapshot => ok () { s with snapshot := snapshot } := by
  refine run_step rfl ?_
  cases h : s.snapshot.addFileEntry ⟨normalizedPath, fileInfo.mUserName, fileInfo.mGroupName,
      fileInfo.mType, fileInfo.mMode, compressionFor fileInfo, fileInfo.mLength,
      fileInfo.mLastModifyTime, .ofNat bits, md5, 0, 0, objectIds⟩ with
  | error e => exact run_error rfl
  | ok snapshot => exact run_step rfl rfl

/-- Reading a small file whole. -/
theorem expect_content (f : LocalFile) (s : Session δ) :
    ∃ i, onStream (expect f.info.mLength.toNat) (FileStream.openRead f.content) s =
      ok (f.content, i) s := by
  have hholds : RewindableStream.Rep f.content (FileStream.openRead f.content) (f.content ++ []) := by
    rw [List.append_nil]
    exact FileStream.openRead_holds f.content
  obtain ⟨i, hread, -⟩ := expect_reads' (RewindableStream.source f.content) f.length_eq.symm _ _ hholds
  exact ⟨i, onStream_run hread s⟩

variable [DataStore δ] (M : StoreModel δ)

/-- A large file that the options do not allow to cut is refused at once. -/
theorem uploadFileWith_refused {s : Session δ} (withPack : Bool) (destPath : Bytes) {f : LocalFile}
    (hlarge : ¬ f.isSmall E) (progress : FileTransferProgressFunction) {e : Fault}
    (hblocks : f.blocks E s.keys = .error e) :
    uploadFileWith E withPack destPath f.info (.openRead f.content) progress s = error e s := by
  have hexists : ¬ f.info.exists = false := by
    rw [f.exists_eq]
    simp
  rw [LocalFile.blocks, if_neg hlarge] at hblocks
  rw [uploadFileWith, if_neg hexists, f.length_eq,
    if_neg (show ¬ f.content.length < _ from hlarge), uploadLarge, f.length_eq]
  cases hp : chunkParams E f.content.length with
  | error e' =>
    rw [hp] at hblocks
    obtain rfl : e' = e := Except.error.inj hblocks
    exact run_step rfl (run_error rfl)
  | ok p =>
    rw [hp] at hblocks
    exact absurd hblocks (by simp [Except.map])

/-- **An upload without a pack**: the blocks are uploaded and the entry is
added, unless there are too many blocks. -/
theorem uploadFileWith_run (hC : E.C.Lawful) {s : Session δ} (hs : M.Ok s.store) (withPack : Bool)
    (destPath : Bytes) (f : LocalFile) (hpack : withPack = false ∨ ¬ f.isSmall E)
    {progress : FileTransferProgressFunction} (hprog : ∀ a b i j, progress a b i j = true) {bits : ℕ}
    {blocks : List Bytes} (hblocks : f.blocks E s.keys = .ok (bits, blocks)) :
    ∃ d n, M.Ok d ∧
      BlockSteps E.C s.keys (compressionFor f.info) blocks (M.contents s.store) (M.contents d) ∧
      uploadFileWith E withPack destPath f.info (.openRead f.content) progress s =
        match s.snapshot.addFileEntry (f.args E s.keys destPath bits blocks) with
        | .error e => error e { s with store := d, randomUsed := n }
        | .ok snapshot => ok () { s with store := d, randomUsed := n, snapshot := snapshot } := by
  have hexists : ¬ f.info.exists = false := by
    rw [f.exists_eq]
    simp
  rw [LocalFile.blocks] at hblocks
  rw [uploadFileWith, if_neg hexists, f.length_eq]
  by_cases hsmall : f.isSmall E
  · -- one block
    rw [if_pos hsmall] at hblocks
    obtain ⟨rfl, rfl⟩ := Prod.mk.inj (Except.ok.inj hblocks)
    have hfalse : withPack = false := hpack.resolve_right (fun h => h hsmall)
    subst hfalse
    rw [if_pos (show f.content.length < _ from hsmall), ← f.length_eq]
    obtain ⟨i, hread⟩ := expect_content f s
    obtain ⟨d, n, hupload, hd, hstep⟩ := compressEncryptAndUploadBlock_run M hC hs
      (compressionFor f.info) f.content (fun i j => hprog 0 1 i j)
    refine ⟨d, n, hd, .cons hstep (.nil _), run_step hread ?_⟩
    exact run_step rfl (run_step hupload (addEntry_run _ _ _ _ _ _))
  · rw [if_neg hsmall] at hblocks
    rw [if_neg (show ¬ f.content.length < _ from hsmall), uploadLarge, f.length_eq]
    cases hp : chunkParams E f.content.length with
    | error e =>
      rw [hp] at hblocks
      exact absurd hblocks (by simp [Except.map])
    | ok p =>
      rw [hp] at hblocks
      obtain ⟨rfl, rfl⟩ := Prod.mk.inj (Except.ok.inj hblocks)
      have hfile : BufferedInputStream.Rep (RewindableStream.Rep f.content)
          (BufferedInputStream.new (FileStream.openRead f.content)) f.content :=
        ⟨f.content, FileStream.openRead_holds f.content, rfl⟩
      obtain ⟨d, n, st, hloop, hd, hsteps, hfed, hids⟩ := chunkLoop_run M hC p (compressionFor f.info)
        hprog (RewindableStream.source f.content)
        ⟨⟨[], RollingHash.new E.C s.keys.mRollKey.toList 8192⟩, [], [], 0⟩ hs hfile
        (Nat.lt_succ_self _)
      rw [cutBlocks_flatten, List.nil_append, List.nil_append] at hfed
      rw [List.nil_append] at hids
      refine ⟨d, n, hd, hsteps, ?_⟩
      refine run_step rfl (run_step rfl (run_step hloop ?_))
      rw [hfed, hids]
      exact addEntry_run _ _ _ _ _ _

end Files

/-! ### Packs -/

/-- The context, the members and their entries of a pack belong together. -/
structure PackUploadState.Good (keys : RepositoryKeys) (p : PackUploadState) : Prop where
  lengths : p.fileInfos.length = p.packData.length
  closed : p.rollingHash = none → p.fileInfos = []
  fed : p.rollingHash ≠ none → p.hmac =
    ⟨keys.mHashKey.toList.take SHA256_DIGEST_LENGTH, [p.packData.flatMap fun d => d ++ d]⟩

theorem PackUploadState.new_good (keys : RepositoryKeys) : PackUploadState.new.Good keys :=
  ⟨rfl, fun _ => rfl, fun h => absurd rfl h⟩

/-- The entry that `packFile` makes of a file: the member's index stands where
the offset belongs. -/
def packInfo (C : Crypto) (normalizedPath : Bytes) (fileInfo : FileInfo) (buffer : Bytes)
    (index : ℕ) (packLength : UInt32) : PackFileInfo :=
  ⟨normalizedPath, fileInfo.mUserName, fileInfo.mGroupName, fileInfo.mType, fileInfo.mMode,
    compressionFor fileInfo, fileInfo.mLength, fileInfo.mLastModifyTime, 0, C.md5 buffer,
    .ofNat index, packLength⟩

/-- The id of a pack with the given members. -/
def packId (C : Crypto) (keys : RepositoryKeys) (packData : List Bytes) : ObjectID :=
  C.hmacSha256 (keys.mHashKey.toList.take SHA256_DIGEST_LENGTH) (packData.flatMap fun d => d ++ d)

/-- The members one after the other, with the offsets and lengths of their
objects. -/
def laidOut : List PackFileInfo → List Bytes → UInt32 → List PackFileInfo
  | fi :: fileInfos, object :: objects, offset =>
    { fi with offset := offset, packLength := .ofNat object.length } ::
      laidOut fileInfos objects (offset + .ofNat object.length)
  | _, _, _ => []

/-- The objects of the members. -/
def SealedMembers (C : Crypto) (keys : RepositoryKeys) (fileInfos : List PackFileInfo)
    (packData objects : List Bytes) : Prop :=
  List.Forall₂ (fun (m : PackFileInfo × Bytes) object =>
    ∃ iv, object = sealedWith C keys m.1.compression iv m.2) (fileInfos.zip packData) objects

/-- One object for each member. -/
theorem SealedMembers.objects_length {C : Crypto} {keys : RepositoryKeys}
    {fileInfos : List PackFileInfo} {packData objects : List Bytes}
    (h : SealedMembers C keys fileInfos packData objects)
    (hlen : fileInfos.length = packData.length) : fileInfos.length = objects.length := by
  have hcount := List.Forall₂.length_eq h
  rwa [List.length_zip, ← hlen, min_self] at hcount

/-- The entries of a pack were added. -/
def addAll (snapshot : Snapshot) (objectId : ObjectID) (fileInfos : List PackFileInfo) : Snapshot :=
  (fileInfos.map fun fi => Snapshot.SnapshotOp.add (fi.args objectId)).foldl Snapshot.apply snapshot

/-- What `finalizePack` does to the store, and the entries it records: an
object of the pack's name was there and the entries are as `addFile` made
them, or the members were sealed, laid out and stored. -/
def PackStep (C : Crypto) (keys : RepositoryKeys) (p : PackUploadState) (path : Bytes)
    (c c' : Contents) (infos : List PackFileInfo) : Prop :=
  (c path ≠ none ∧ c' = c ∧ infos = p.fileInfos) ∨
    (c path = none ∧ ∃ objects, SealedMembers C keys p.fileInfos p.packData objects ∧
      c' = Function.update c path (some objects.flatten) ∧ infos = laidOut p.fileInfos objects 0)

section Packs

variable {δ : Type} {E : Env}

/-- An open pack: its context was fed the members it has. -/
theorem PackUploadState.Good.open {keys : RepositoryKeys} {p : PackUploadState} (h : p.Good keys)
    (C : Crypto) :
    ∃ r, p.open C keys = { p with
      rollingHash := some r
      hmac := ⟨keys.mHashKey.toList.take SHA256_DIGEST_LENGTH, [p.packData.flatMap fun d => d ++ d]⟩ } := by
  obtain ⟨hlen, hclosed, hfed⟩ := h
  obtain ⟨hmac, fileInfos, packData, rollingHash⟩ := p
  cases rollingHash with
  | some r =>
    have hhmac : hmac = ⟨keys.mHashKey.toList.take SHA256_DIGEST_LENGTH,
        [packData.flatMap fun d => d ++ d]⟩ := hfed (by simp)
    subst hhmac
    exact ⟨r, rfl⟩
  | none =>
    -- a closed pack is empty
    obtain rfl : fileInfos = [] := hclosed rfl
    obtain rfl : packData = [] := List.length_eq_zero_iff.mp hlen.symm
    exact ⟨RollingHash.new C keys.mRollKey.toList 8192, rfl⟩

/-- **What `packFile` does**, whatever the pack. -/
theorem packFile_eq (normalizedPath : Bytes) (fileInfo : FileInfo) (buffer : Bytes) (s : Session δ)
    {r : RollingHash} (hr : (s.pack.open E.C s.keys).rollingHash = some r) :
    packFile E normalizedPath fileInfo buffer s = ok (rollAll r buffer).1 { s with
      pack := {
        hmac := ((s.pack.open E.C s.keys).hmac.update buffer).update buffer
        fileInfos := (s.pack.open E.C s.keys).fileInfos ++ [packInfo E.C normalizedPath fileInfo buffer
          (s.pack.open E.C s.keys).packData.length
          (.ofNat (leNat (bytesFrom E.uninit s.uninitUsed 4).toList))]
        packData := (s.pack.open E.C s.keys).packData ++ [buffer]
        rollingHash := some (rollAll r buffer).2 }
      uninitUsed := s.uninitUsed + 4 } := by
  refine run_step (show (modify fun s => { s with pack := s.pack.open E.C s.keys } :
    Command δ Unit) s = ok () { s with pack := s.pack.open E.C s.keys } from rfl) ?_
  refine run_step rfl (run_step rfl ?_)
  simp only [hr]
  cases hroll : rollAll r buffer with
  | mk writePack r' => exact run_step rfl (run_step rfl rfl)

/-- A file joins a pack whose context is fresh. -/
theorem packFile_run (normalizedPath : Bytes) (fileInfo : FileInfo) (buffer : Bytes)
    {s : Session δ} (hgood : s.pack.Good s.keys) :
    ∃ writePack p, packFile E normalizedPath fileInfo buffer s =
        ok writePack { s with pack := p, uninitUsed := s.uninitUsed + 4 } ∧
      p.fileInfos = s.pack.fileInfos ++ [packInfo E.C normalizedPath fileInfo buffer
        s.pack.packData.length (.ofNat (leNat (bytesFrom E.uninit s.uninitUsed 4).toList))] ∧
      p.packData = s.pack.packData ++ [buffer] ∧ p.rollingHash ≠ none ∧ p.Good s.keys := by
  obtain ⟨r, hopen⟩ := hgood.open E.C
  have hrun := packFile_eq (E := E) normalizedPath fileInfo buffer s (r := r) (by rw [hopen])
  rw [hopen] at hrun
  refine ⟨_, _, hrun, rfl, rfl, by simp, ?_, fun hnone => absurd hnone (by simp), fun _ => ?_⟩
  · rw [List.length_append, List.length_append, hgood.lengths]
    rfl
  · -- the context is fed the file twice
    have hdouble : (s.pack.packData ++ [buffer]).flatMap (fun d => d ++ d) =
        (s.pack.packData.flatMap fun d => d ++ d) ++ buffer ++ buffer := by
      rw [List.flatMap_append, List.flatMap_singleton, List.append_assoc]
    exact congrArg (fun d => (⟨_, [d]⟩ : HmacCtx)) hdouble.symm

theorem addPackEntries_run (objectId : ObjectID) : ∀ (fileInfos : List PackFileInfo) (s : Session δ),
    addPackEntries objectId fileInfos s =
      ok () { s with snapshot := addAll s.snapshot objectId fileInfos } := by
  intro fileInfos
  induction fileInfos with
  | nil =>
    intro s
    rfl
  | cons fi fileInfos ih =>
    intro s
    obtain ⟨snapshot, hadd⟩ := Snapshot.addFileEntry_ok (s := s.snapshot) (a := fi.args objectId)
      (show 1 ≤ 65535 by decide)
    have happly : Snapshot.apply s.snapshot (.add (fi.args objectId)) = snapshot := by
      rw [Snapshot.apply, hadd]
    refine run_step rfl (run_step (show ofExcept (s.snapshot.addFileEntry _) _ = ok snapshot s by
      rw [hadd]; rfl) (run_step rfl ?_))
    rw [ih]
    show ok () { s with snapshot := addAll snapshot objectId fileInfos } = _
    rw [← happly]
    rfl

/-- The first loop of `finalizePack`. -/
theorem layoutPack_run (hC : E.C.Lawful) : ∀ (fileInfos : List PackFileInfo) (packData : List Bytes)
    (offset : UInt32) (s : Session δ), fileInfos.length = packData.length →
    ∃ objects streams n, layoutPack E fileInfos packData offset s =
        ok (laidOut fileInfos objects offset, streams) { s with randomUsed := n } ∧
      List.Forall₂ Holds streams objects ∧ SealedMembers E.C s.keys fileInfos packData objects := by
  intro fileInfos
  induction fileInfos with
  | nil =>
    intro packData offset s _
    exact ⟨[], [], s.randomUsed, rfl, .nil, .nil⟩
  | cons fi fileInfos ih =>
    intro packData offset s hlen
    cases packData with
    | nil => exact absurd hlen (by simp)
    | cons data packData =>
      obtain ⟨iv, out, hseal, hout⟩ := sealMemory_run (E := E) hC fi.compression data s
      have hsize : UInt32.ofNat (InputStream.size out).toNat =
          .ofNat (sealedWith E.C s.keys fi.compression iv data).length := by
        rw [RewindableStream.size_eq hout, Int.toNat_natCast]
      obtain ⟨objects, streams, n, hlayout, hholds, hsealed⟩ := ih packData
        (offset + .ofNat (sealedWith E.C s.keys fi.compression iv data).length)
        { s with randomUsed := s.randomUsed + EVP_MAX_IV_LENGTH } (by simpa using hlen)
      refine ⟨sealedWith E.C s.keys fi.compression iv data :: objects, out :: streams, n,
        run_step hseal ?_, .cons hout hholds, .cons ⟨iv, rfl⟩ hsealed⟩
      rw [hsize]
      exact run_step hlayout rfl

variable [DataStore δ] (M : StoreModel δ)

/-- The members become one object. -/
theorem uploadPack_run (hC : E.C.Lawful) {s : Session δ} (hs : M.Ok s.store)
    (hlen : s.pack.fileInfos.length = s.pack.packData.length) (name : Bytes) :
    ∃ d n objects, uploadPack E (objectPath name) s = ok () { s with
        store := d
        randomUsed := n
        pack := { s.pack with fileInfos := laidOut s.pack.fileInfos objects 0 } } ∧ M.Ok d ∧
      SealedMembers E.C s.keys s.pack.fileInfos s.pack.packData objects ∧
      M.contents d = Function.update (M.contents s.store) (objectPath name) (some objects.flatten) := by
  obtain ⟨objects, streams, n, hlayout, hholds, hsealed⟩ :=
    layoutPack_run (E := E) hC s.pack.fileInfos s.pack.packData 0 s hlen
  obtain ⟨d, hput, hd, hcont⟩ := storePut_run M (s := { s with
      randomUsed := n
      pack := { s.pack with fileInfos := laidOut s.pack.fileInfos objects 0 } }) hs
    (isSep_objectPath name) (MultiInputStream.new_holds hholds)
    (show ∀ i j, DefaultProgressFunction i j = true from fun _ _ => rfl)
  exact ⟨d, n, objects, run_step rfl (run_step hlayout (run_step rfl hput)), hd, hsealed, hcont⟩

/-- An object of the pack's name is left as it is. -/
theorem storePack_run (hC : E.C.Lawful) {s : Session δ} (hs : M.Ok s.store)
    (hlen : s.pack.fileInfos.length = s.pack.packData.length) (objectId : ObjectID) :
    ∃ d n infos, storePack E objectId s = ok () { s with
        store := d
        randomUsed := n
        pack := { s.pack with fileInfos := infos } } ∧ M.Ok d ∧
      PackStep E.C s.keys s.pack (objectPath (objectName objectId)) (M.contents s.store)
        (M.contents d) infos := by
  have hname := objectName_run objectId s
  obtain ⟨d, hexist, hd, hcont⟩ := storeExist_run M hs (isSep_objectPath (objectName objectId))
  cases hfound : M.contents s.store (objectPath (objectName objectId)) with
  | some c =>
    rw [hfound] at hexist
    exact ⟨d, s.randomUsed, s.pack.fileInfos, run_step hname (run_step hexist rfl), hd,
      Or.inl ⟨by rw [hfound]; simp, hcont, rfl⟩⟩
  | none =>
    rw [hfound] at hexist
    obtain ⟨d', n, objects, hupload, hd', hsealed, hcont'⟩ := uploadPack_run M (E := E) hC
      (s := { s with store := d }) hd hlen (objectName objectId)
    refine ⟨d', n, laidOut s.pack.fileInfos objects 0, run_step hname (run_step hexist hupload), hd',
      Or.inr ⟨hfound, objects, hsealed, ?_, rfl⟩⟩
    rw [hcont', ← hcont]

/-- The id that the next `finalizePack` takes. -/
def PackUploadState.nextId (C : Crypto) (p : PackUploadState) : ObjectID := (p.hmac.final C).1

/-- A context that was not finalised yet yields the id of the members. -/
theorem PackUploadState.Good.nextId_eq {keys : RepositoryKeys} {p : PackUploadState}
    (h : p.Good keys) (hopen : p.rollingHash ≠ none) (C : Crypto) :
    p.nextId C = packId C keys p.packData := by
  rw [PackUploadState.nextId, h.fed hopen]
  rfl

/-- The pack as it is when the store is asked: its id is taken, and the context
with it. -/
def Session.identified (C : Crypto) (s : Session δ) : Session δ :=
  { s with pack := { s.pack with hmac := (s.pack.hmac.final C).2 } }

omit M in
theorem finalizePack_of_error {s s₁ : Session δ} {e : Fault} (hopen : s.pack.rollingHash ≠ none)
    (h : storePack E (s.pack.nextId E.C) (s.identified E.C) = error e s₁)
    (progress : FileTransferProgressFunction) : finalizePack E progress s = error e s₁ := by
  obtain ⟨r, hr⟩ := Option.ne_none_iff_exists'.mp hopen
  refine run_step rfl ?_
  simp only [hr]
  exact run_step rfl (run_error h)

omit M in
theorem finalizePack_of_ok {s s₁ : Session δ} (hopen : s.pack.rollingHash ≠ none)
    (h : storePack E (s.pack.nextId E.C) (s.identified E.C) = ok () s₁)
    (progress : FileTransferProgressFunction) :
    finalizePack E progress s = ok () { s₁ with
      snapshot := addAll s₁.snapshot (s.pack.nextId E.C) s₁.pack.fileInfos
      pack := ⟨s₁.pack.hmac, [], [], none⟩ } := by
  obtain ⟨r, hr⟩ := Option.ne_none_iff_exists'.mp hopen
  refine run_step rfl ?_
  simp only [hr]
  exact run_step rfl (run_step h (run_step rfl (run_step (addPackEntries_run _ _ _) rfl)))

/-- **What `finalizePack` does** to a pack that is open. -/
theorem finalizePack_run (hC : E.C.Lawful) {s : Session δ} (hs : M.Ok s.store)
    (hgood : s.pack.Good s.keys) (hopen : s.pack.rollingHash ≠ none)
    (progress : FileTransferProgressFunction) :
    ∃ d n hmac infos, finalizePack E progress s = ok () { s with
        store := d
        randomUsed := n
        snapshot := addAll s.snapshot (packId E.C s.keys s.pack.packData) infos
        pack := ⟨hmac, [], [], none⟩ } ∧ M.Ok d ∧
      PackStep E.C s.keys s.pack (objectPath (objectName (packId E.C s.keys s.pack.packData)))
        (M.contents s.store) (M.contents d) infos := by
  obtain ⟨d, n, infos, hstore, hd, hstep⟩ := storePack_run M (E := E) hC (s := s.identified E.C) hs
    hgood.lengths (s.pack.nextId E.C)
  have hrun := finalizePack_of_ok hopen hstore progress
  rw [hgood.nextId_eq hopen] at hrun hstep
  exact ⟨d, n, _, infos, hrun, hd, hstep⟩

/-- A pack that is closed is left alone. -/
theorem finalizePack_closed {s : Session δ} (h : s.pack.rollingHash = none)
    (progress : FileTransferProgressFunction) : finalizePack E progress s = ok () s := by
  refine run_step rfl ?_
  simp only [h]
  rfl

end Packs

/-! ### Pictures -/

/-- A file that is not compressed. -/
def picture (content : Bytes) (h : content.length < 2 ^ 64) : LocalFile where
  info := ⟨.RegularFile, 0o644, ascii ".png", ascii "user", ascii "group", .ofNat content.length, 0⟩
  content := content
  exists_eq := rfl
  length_eq := UInt64.toNat_ofNat_of_lt' h

/-- An empty one. -/
def emptyPicture : LocalFile := picture [] (by decide)

/-- A picture of one byte. -/
def letterPicture : LocalFile := picture [97] (by decide)

/-- A picture of two bytes. -/
def wordPicture : LocalFile := picture [97, 98] (by decide)

/-- The values of the library functions for an empty picture under zero keys: its
object, and its id as a block and as a pack. -/
def emptyPictureTables : SampleTables where
  aes := [(List.replicate 32 0, ⟨List.replicate 16 16, rfl⟩,
    hexDigest 16 0x1f788fe6d86c317549697fbf0c07fa43)]
  hmac := [((List.replicate 32 0, List.replicate 16 0 ++
      (hexDigest 16 0x1f788fe6d86c317549697fbf0c07fa43).toList),
      hexDigest 32 0x9addb27cc957ec171cfadcc6ed6852a29a55db93d5b738d93cfbcd9222996ea7),
    ((List.replicate 32 0, [0]),
      hexDigest 32 0x6620b31f2924b8c01547745f41825d322336f83ebb13d723678789d554d8a3ef),
    ((List.replicate 32 0, []),
      hexDigest 32 0xb613679a0814d9ec772f95d778c35fc5ff1697c493715653c6c712144292c5ad)]
  md5 := [([], hexDigest 16 0xd41d8cd98f00b204e9800998ecf8427e)]

/-- The values for the other two pictures as well: their objects, their ids as blocks,
and the id of a pack of the first. -/
def pictureTables : SampleTables where
  aes := emptyPictureTables.aes ++ [
    (List.replicate 32 0, hexDigest 16 0x610f0f0f0f0f0f0f0f0f0f0f0f0f0f0f,
      hexDigest 16 0xb4a5e98af6810a83bdf52b14ae822c37),
    (List.replicate 32 0, hexDigest 16 0x61620e0e0e0e0e0e0e0e0e0e0e0e0e0e,
      hexDigest 16 0xf41bb23b8c291d410c6329a3ee8c3bc5)]
  hmac := emptyPictureTables.hmac ++ [
    ((List.replicate 32 0, List.replicate 16 0 ++
      (hexDigest 16 0xb4a5e98af6810a83bdf52b14ae822c37).toList),
      hexDigest 32 0x4a5ec541161f91e7531b12e20c354dac4f99749ecea396d256c4098970557603),
    ((List.replicate 32 0, List.replicate 16 0 ++
      (hexDigest 16 0xf41bb23b8c291d410c6329a3ee8c3bc5).toList),
      hexDigest 32 0x191ed5c3fb0b0145c95b47989888a03179049f900284a7fa8847c168671e667e),
    ((List.replicate 32 0, [0, 97]),
      hexDigest 32 0x560f51442f7831b5111258d1c1eb6feaf1ed20ea82ddc5054bffa2a52ba952ab),
    ((List.replicate 32 0, [0, 97, 98]),
      hexDigest 32 0x550122e0b9e18a0553a7258576ab2a85e210dc3f38df1988ed961824f0a998ba),
    ((List.replicate 32 0, [97]),
      hexDigest 32 0x9615a95d4a336118c435b9cd54c5e8644ab956b573aa2926274a1280b6674713)]
  md5 := emptyPictureTables.md5 ++ [([97], hexDigest 16 0x0cc175b9c0f1b6a831c399e269772661),
    ([97, 98], hexDigest 16 0x187ef4436122d1cc2f40dc2b92f0eba0)]

/-- Options under which two bytes are a large file already. -/
def splitOptions : Options := ⟨2, 4096, 1, 1, 1⟩

theorem splitOptions_sane : splitOptions.Sane := by
  constructor <;> decide

theorem picture_small (C : Crypto) {content : Bytes} (h : content.length < 2 ^ 64)
    (hsmall : content.length < 512000) : (picture content h).isSmall (zeroEnv C) :=
  show content.length < toSizeT 512000 from hsmall

/-- Such a picture is one block. -/
theorem picture_blocks (C : Crypto) {content : Bytes} (h : content.length < 2 ^ 64)
    (hsmall : content.length < 512000) :
    (picture content h).blocks (zeroEnv C) zeroKeys = .ok (0, [content]) := by
  rw [LocalFile.blocks, if_pos (picture_small C h hsmall)]
  rfl

theorem emptyPicture_small (C : Crypto) : emptyPicture.isSmall (zeroEnv C) :=
  picture_small C _ (by decide)

theorem emptyPicture_blocks (C : Crypto) : emptyPicture.blocks (zeroEnv C) zeroKeys = .ok (0, [[]]) :=
  picture_blocks C _ (by decide)

/-- Two pictures of a directory. -/
def pictures : List (Bytes × LocalFile) :=
  [(ascii "x/a.png", letterPicture), (ascii "x/b.png", wordPicture)]

end Nebula
