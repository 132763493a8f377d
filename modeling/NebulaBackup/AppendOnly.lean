/-
A backup only adds.

Whatever fails on the way (reads of the source, writes to the store, a signal
of the user, a wrong password), a backup to a directory changes and removes no
file that was there, but for the snapshot it is to write: uploads look for an
object before they write it, and the commit comes last.  Nothing is assumed of
the cryptography here, nor of the state of the store.  Main results:

* `put_onlyAt` — a `put` touches one file, with any stream and any I/O;
* `AddsObjects.partsKeep` — all that uploads do is to add objects;
* `backupFiles_adds` — the whole command.
-/
import NebulaBackup.CommandLine
import NebulaBackup.StoreRuns

namespace Nebula

open EStateM.Result Hoare

/-! ### One file -/

namespace FileDataStore

theorem OnlyAt.refl (d : FileDataStore) (full : Bytes) : OnlyAt d full (d.files.find? full) d :=
  onlyAt_of_find? rfl d.io

theorem appendTo_changes (d : FileDataStore) (full data : Bytes) :
    ∃ c, OnlyAt d full c (d.appendTo full data) := ⟨_, assign_onlyAt d full _ d.io⟩

theorem close_changes (d : FileDataStore) (full : Bytes) (event : ChunkEvent) :
    ∃ c, OnlyAt d full c (d.close full event) := by
  cases event with
  | flushFail kept => exact ⟨_, assign_onlyAt d full _ d.io⟩
  | ok | readFail | writeFail written => exact ⟨_, OnlyAt.refl d full⟩

/-- Taking the next event from the list changes no file. -/
theorem popEvent_onlyAt (d : FileDataStore) (full : Bytes) :
    OnlyAt d full (d.files.find? full) (popEvent d).2 := by
  rw [popEvent]
  split
  · exact OnlyAt.refl d full
  · exact onlyAt_of_find? rfl _

/-- A result whose store differs from `d` at most at the file `full`. -/
def Touches {σ : Type} (d : FileDataStore) (full : Bytes) (r : Result (FileDataStore × σ) Unit) :
    Prop :=
  ∃ c d' s', OnlyAt d full c d' ∧ (r = ok () (d', s') ∨ ∃ e, r = error e (d', s'))

theorem OnlyAt.touches {σ : Type} {d d' : FileDataStore} {full : Bytes} {c : Option Bytes}
    {r : Result (FileDataStore × σ) Unit} (h : OnlyAt d full c d') (hr : Touches d' full r) :
    Touches d full r := by
  obtain ⟨c', d'', s', h', hcase⟩ := hr
  exact ⟨c', d'', s', h.trans h', hcase⟩

section Put

variable {σ : Type} [InputStream σ]

/-- **The loop of `put`** touches one file, by induction on the bound of the
rounds. -/
theorem putLoop_touches (full : Bytes) (progress : ProgressFunction) (fileSize : ℤ) :
    ∀ (k : ℕ) (d : FileDataStore) (s : σ) (bytesWritten : ℤ),
      Touches d full (putLoop full progress fileSize k d s bytesWritten) := by
  intro k
  induction k with
  | zero =>
    intro d s bytesWritten
    exact ⟨_, d, s, OnlyAt.refl d full, Or.inr ⟨_, rfl⟩⟩
  | succ k ih =>
    intro d s bytesWritten
    have hpop := popEvent_onlyAt d full
    rw [putLoop]
    cases hevent : popEvent d with
    | mk event d' =>
    rw [hevent] at hpop
    cases event with
    | readFail => exact ⟨_, d', s, hpop, Or.inr ⟨_, rfl⟩⟩
    | writeFail written =>
      cases hread : InputStream.read s 4096 with
      | error e s' => exact ⟨_, d', s', hpop, Or.inr ⟨e, rfl⟩⟩
      | ok chunk s' =>
        by_cases hchunk : chunk = []
        · exact ⟨_, d', s', hpop, Or.inl (by simp only [if_pos hchunk])⟩
        · obtain ⟨c, happ⟩ := appendTo_changes d' full (chunk.take written)
          exact ⟨c, _, s', hpop.trans happ, Or.inr ⟨_, by simp only [if_neg hchunk]; rfl⟩⟩
    | ok | flushFail kept =>
      cases hread : InputStream.read s 4096 with
      | error e s' => exact ⟨_, d', s', hpop, Or.inr ⟨e, rfl⟩⟩
      | ok chunk s' =>
        by_cases hchunk : chunk = []
        · obtain ⟨c, hclose⟩ := close_changes d' full _
          exact ⟨c, _, s', hpop.trans hclose, Or.inl (by simp only [if_pos hchunk]; rfl)⟩
        · obtain ⟨c, happ⟩ := appendTo_changes d' full chunk
          simp only [if_neg hchunk]
          by_cases hcancel : progress bytesWritten fileSize = false
          · rw [if_pos hcancel]
            exact ⟨none, _, s', hpop.trans happ.removeFile, Or.inr ⟨_, rfl⟩⟩
          · rw [if_neg hcancel]
            exact (hpop.trans happ).touches (ih _ _ _)

/-- **A `put` touches one file**, whatever the stream is and whatever fails. -/
theorem put_onlyAt (d : FileDataStore) (p : Bytes) (s : σ) (progress : ProgressFunction) :
    Touches d (d.fullPath p) (put d p s progress) := by
  have hopen := assign_onlyAt d (d.fullPath p) [] d.io
  exact hopen.touches (putLoop_touches _ _ _ _ _ _ _)

end Put

end FileDataStore

open FileDataStore

/-! ### Commands that leave the store alone -/

section Store

variable {δ : Type} {E : Env} {J : δ → Prop}

/-- Every object has a name. -/
theorem keeps_objectName {I : Session δ → Prop} {α : Type} {objectId : ObjectID}
    {f : Bytes → Command δ α} (h : Keeps I (f (objectName objectId))) :
    Keeps I (ofExcept (objectIdToString objectId) >>= f) := by
  intro s hs
  rw [run_ok (objectName_run objectId s)]
  exact h s hs

theorem keeps_arc4random_buf (n : ℕ) : Keeps (fun s => J s.store) (arc4random_buf (δ := δ) E n) :=
  fun _ hs => hs

theorem keeps_uninitialised (n : ℕ) : Keeps (fun s => J s.store) (uninitialised (δ := δ) E n) :=
  fun _ hs => hs

theorem keeps_sealMemory (t : CompressionType) (data : Bytes) :
    Keeps (fun s => J s.store) (sealMemory (δ := δ) E t data) := by
  refine (keeps_arc4random_buf _).bind fun iv => Keeps.get_bind fun s _ => ?_
  exact (keeps_onStream _ _).bind fun _ => Keeps.pure _

/-- By induction on the members. -/
theorem keeps_layoutPack : ∀ (fileInfos : List PackFileInfo) (packData : List Bytes) (offset : UInt32),
    Keeps (fun s => J s.store) (layoutPack (δ := δ) E fileInfos packData offset) := by
  intro fileInfos
  induction fileInfos with
  | nil =>
    intro packData offset
    exact Keeps.pure _
  | cons fi fileInfos ih =>
    intro packData offset
    cases packData with
    | nil => exact Keeps.throw _
    | cons data packData =>
      refine (keeps_sealMemory _ _).bind fun encryptedStream => ?_
      exact (ih _ _).bind fun _ => Keeps.pure _

theorem keeps_addPackEntries (objectId : ObjectID) : ∀ fileInfos : List PackFileInfo,
    Keeps (fun s => J s.store) (addPackEntries (δ := δ) objectId fileInfos) := by
  intro fileInfos
  induction fileInfos with
  | nil => exact Keeps.pure _
  | cons fi fileInfos ih =>
    refine Keeps.get_bind fun s _ => (keeps_ofExcept _).bind fun snapshot => ?_
    exact Keeps.bind (Keeps.modify fun _ hs => hs) fun _ => ih

theorem keeps_packFile (normalizedPath : Bytes) (fileInfo : FileInfo) (buffer : Bytes) :
    Keeps (fun s => J s.store) (packFile (δ := δ) E normalizedPath fileInfo buffer) := by
  refine Keeps.bind (Keeps.modify fun _ hs => hs) fun _ => ?_
  refine Keeps.bind (Keeps.modify fun _ hs => hs) fun _ => ?_
  refine Keeps.get_bind fun s _ => ?_
  cases s.pack.rollingHash with
  | none => exact Keeps.throw _
  | some h =>
    refine (keeps_uninitialised 4).bind fun packLength => ?_
    exact Keeps.bind (Keeps.modify fun _ hs => hs) fun _ => Keeps.pure _

end Store

/-! ### Uploads -/

/-- `d'` is `d` with new objects: every file that was there is as it was, and a
file that was not there has the name of an object. -/
structure AddsObjects (d d' : FileDataStore) : Prop where
  dir : d'.mStoreDirectory = d.mStoreDirectory
  files : ∀ q, d'.files.find? q = d.files.find? q ∨
    d.files.find? q = none ∧ ∃ objectId, q = d.fullPath (objectPath (objectName objectId))

theorem AddsObjects.refl (d : FileDataStore) : AddsObjects d d := ⟨rfl, fun _ => Or.inl rfl⟩

/-- A file that was there stays. -/
theorem AddsObjects.find? {d d' : FileDataStore} (h : AddsObjects d d') {q c : Bytes}
    (hq : d.files.find? q = some c) : d'.files.find? q = some c := by
  rcases h.files q with hsame | ⟨hnone, -⟩
  · rwa [hsame]
  · rw [hq] at hnone
    exact absurd hnone (by simp)

/-- **A new object**: the file that a `put` touches was not there. -/
theorem AddsObjects.touch {d d' d'' : FileDataStore} (h : AddsObjects d d') {objectId : ObjectID}
    (hnone : d'.files.find? (d'.fullPath (objectPath (objectName objectId))) = none)
    {c : Option Bytes} (htouch : OnlyAt d' (d'.fullPath (objectPath (objectName objectId))) c d'') :
    AddsObjects d d'' := by
  have hfull : d'.fullPath (objectPath (objectName objectId)) =
      d.fullPath (objectPath (objectName objectId)) := by
    rw [fullPath, fullPath, h.dir]
  rw [hfull] at hnone htouch
  refine ⟨htouch.dir.trans h.dir, fun q => ?_⟩
  rw [htouch.files]
  by_cases hq : q = d.fullPath (objectPath (objectName objectId))
  · rw [if_pos hq]
    refine Or.inr ⟨?_, objectId, hq⟩
    rcases h.files q with hsame | ⟨hold, -⟩
    · rw [← hsame, hq, hnone]
    · exact hold
  · rw [if_neg hq]
    exact h.files q

section Uploads

variable {E : Env} {d : FileDataStore}

/-- What is put where nothing is adds an object, or the file is left alone. -/
theorem storePut_adds {σ : Type} [InputStream σ] (i : σ) (progress : ProgressFunction)
    {objectId : ObjectID} :
    Triple (fun s => AddsObjects d s.store ∧
        s.store.files.find? (s.store.fullPath (objectPath (objectName objectId))) = none)
      (storePut (objectPath (objectName objectId)) i progress)
      (fun _ s => AddsObjects d s.store) fun _ s => AddsObjects d s.store := by
  rintro s ⟨hs, hnone⟩
  obtain ⟨c, d', i', honly, hput | ⟨e, hput⟩⟩ :=
    put_onlyAt s.store (objectPath (objectName objectId)) i progress
  · rw [storePut, show DataStore.put s.store _ i progress = _ from hput]
    exact hs.touch hnone honly
  · rw [storePut, show DataStore.put s.store _ i progress = _ from hput]
    exact hs.touch hnone honly

/-- Look for an object and go on: the branch in which it is written knows that
it is not there. -/
theorem storeExist_adds {objectId : ObjectID} {f : Bool → Command FileDataStore Unit}
    (hfound : Keeps (fun s => AddsObjects d s.store) (f true))
    (hnew : Triple (fun s => AddsObjects d s.store ∧
        s.store.files.find? (s.store.fullPath (objectPath (objectName objectId))) = none)
      (f false) (fun _ s => AddsObjects d s.store) fun _ s => AddsObjects d s.store) :
    Keeps (fun s => AddsObjects d s.store)
      (storeExist (objectPath (objectName objectId)) >>= f) := by
  intro s hs
  have hexist : storeExist (objectPath (objectName objectId)) s =
      ok (s.store.files.find? (s.store.fullPath (objectPath (objectName objectId)))).isSome s := rfl
  rw [run_ok hexist]
  cases hfile : s.store.files.find? (s.store.fullPath (objectPath (objectName objectId))) with
  | some c => exact hfound s hs
  | none => exact hnew s ⟨hs, hfile⟩

/-- A file that is not there is not there after commands that leave the store
alone. -/
theorem Keeps.with_absent {α : Type} {p : Command FileDataStore α} {objectId : ObjectID}
    {f : α → Command FileDataStore Unit} (hp : ∀ J : FileDataStore → Prop, Keeps (fun s => J s.store) p)
    (hf : ∀ a, Triple (fun s => AddsObjects d s.store ∧
        s.store.files.find? (s.store.fullPath (objectPath (objectName objectId))) = none)
      (f a) (fun _ s => AddsObjects d s.store) fun _ s => AddsObjects d s.store) :
    Triple (fun s => AddsObjects d s.store ∧
        s.store.files.find? (s.store.fullPath (objectPath (objectName objectId))) = none)
      (p >>= f) (fun _ s => AddsObjects d s.store) fun _ s => AddsObjects d s.store := by
  refine Triple.bind (Q := fun _ s => AddsObjects d s.store ∧
    s.store.files.find? (s.store.fullPath (objectPath (objectName objectId))) = none) ?_ hf
  exact (hp fun d' => AddsObjects d d' ∧
    d'.files.find? (d'.fullPath (objectPath (objectName objectId))) = none).conseq
    (fun _ hs => hs) (fun _ _ hs => hs) fun _ _ hs => hs.1

/-- **A block.** -/
theorem compressEncryptAndUploadBlock_adds (t : CompressionType) (objectId : ObjectID) (block : Bytes)
    (progress : ProgressFunction) : Keeps (fun s => AddsObjects d s.store)
      (compressEncryptAndUploadBlock E t objectId block progress) := by
  refine keeps_objectName (storeExist_adds ?_ ?_)
  · by_cases hcancel : progress block.length block.length = false
    · rw [if_pos rfl, if_pos hcancel]
      exact Keeps.throw _
    · rw [if_pos rfl, if_neg hcancel]
      exact Keeps.pure _
  · rw [if_neg Bool.false_ne_true]
    exact Keeps.with_absent (fun J => keeps_sealMemory t block) fun i => storePut_adds i progress

/-- **A pack.** -/
theorem storePack_adds (objectId : ObjectID) :
    Keeps (fun s => AddsObjects d s.store) (storePack (δ := FileDataStore) E objectId) := by
  refine keeps_objectName (storeExist_adds ?_ ?_)
  · rw [if_pos rfl]
    exact Keeps.pure _
  · rw [if_neg Bool.false_ne_true]
    refine Triple.get_bind fun s _ => ?_
    refine Triple.conseq ?_ (fun _ ht => ht.2) (fun _ _ ht => ht) fun _ _ ht => ht
    refine Keeps.with_absent (fun J => keeps_layoutPack _ _ _) ?_
    rintro ⟨infos, streams⟩
    exact Keeps.with_absent (fun J => Keeps.modify fun _ ht => ht) fun _ => storePut_adds _ _

theorem finalizePack_adds (progress : FileTransferProgressFunction) :
    Keeps (fun s => AddsObjects d s.store) (finalizePack E progress) := by
  refine Keeps.get_bind fun s _ => ?_
  cases s.pack.rollingHash with
  | none => exact Keeps.pure _
  | some h =>
    refine Keeps.bind (Keeps.modify fun _ hs => hs) fun _ => (storePack_adds _).bind fun _ => ?_
    refine Keeps.get_bind fun s _ => (keeps_addPackEntries _ _).bind fun _ => ?_
    exact Keeps.modify fun _ hs => hs

/-- **All that uploads are made of adds objects.** -/
theorem AddsObjects.partsKeep : PartsKeep E fun s => AddsObjects d s.store where
  block _ t block progress := compressEncryptAndUploadBlock_adds t _ block progress
  snapshot hs _ := hs
  packFile := keeps_packFile
  finalizePack := finalizePack_adds
  newSession hs := hs

/-! ### The command -/

theorem backupFile_adds (options : CliOptions) (path : Bytes) (f : LocalEntry)
    (progress : FileTransferProgressFunction) :
    Keeps (fun s => AddsObjects d s.store) (backupFile E options path f progress) := by
  rw [backupFile]
  by_cases hdry : options.dryRun = true
  · rw [if_pos hdry]
    exact Keeps.pure _
  · rw [if_neg hdry]
    cases f.content with
    | none => exact Keeps.throw _
    | some content => exact AddsObjects.partsKeep.uploadFileWith true path f.info _ progress

/-- By induction on the files. -/
theorem backupAll_adds (options : CliOptions) (progress : ℕ → FileTransferProgressFunction) :
    ∀ (files : List (Bytes × LocalEntry)) (i : ℕ),
      Keeps (fun s => AddsObjects d s.store) (backupAll E options progress i files) := by
  intro files
  induction files with
  | nil =>
    intro i
    exact Keeps.pure _
  | cons file files ih =>
    intro i
    obtain ⟨path, f⟩ := file
    exact (backupFile_adds options path f _).bind fun _ => ih (i + 1)

/-- By induction on the arguments. -/
theorem backupArgs_adds (options : CliOptions) (progress : ℕ → ℕ → FileTransferProgressFunction) :
    ∀ (args : List (Bytes × LocalArg)) (i : ℕ),
      Keeps (fun s => AddsObjects d s.store) (backupArgs E options progress i args) := by
  intro args
  induction args with
  | nil =>
    intro i
    exact Keeps.pure _
  | cons arg args ih =>
    intro i
    obtain ⟨arg, l⟩ := arg
    refine (backupAll_adds options _ _ _).bind fun _ => ?_
    exact (finalizePack_adds _).bind fun _ => ih (i + 1)

theorem backupUploads_adds (options : CliOptions) (progress : ℕ → ℕ → FileTransferProgressFunction)
    (args : List (Bytes × LocalArg)) :
    Keeps (fun s => AddsObjects d s.store) (backupUploads E options progress args) :=
  Keeps.bind (Keeps.modify fun _ hs => hs) fun _ => backupArgs_adds options progress args 0

end Uploads

section Command

variable {E : Env}

/-- A `get` changes nothing. -/
theorem keeps_storeGet {I : Session FileDataStore → Prop} {ω : Type} [OutputStream ω] (path : Bytes)
    (o : ω) (progress : ProgressFunction) : Keeps I (storeGet path o progress) := by
  intro s hs
  have hget : ∃ o', DataStore.get s.store path o progress = ok () (s.store, o') ∨
      ∃ e, DataStore.get s.store path o progress = error e (s.store, o') := by
    show ∃ o', FileDataStore.get s.store path o progress = _ ∨
      ∃ e, FileDataStore.get s.store path o progress = _
    rw [FileDataStore.get]
    cases s.store.files.find? (s.store.fullPath path) with
    | none => exact ⟨o, Or.inr ⟨_, rfl⟩⟩
    | some c =>
      cases hloop : getLoop progress c.length c.length c 0 o with
      | ok a o' => exact ⟨o', Or.inl (by simp only [hloop])⟩
      | error e o' => exact ⟨o', Or.inr ⟨e, by simp only [hloop]⟩⟩
  obtain ⟨o', hget | ⟨e, hget⟩⟩ := hget
  · rw [storeGet, hget]
    exact hs
  · rw [storeGet, hget]
    exact hs

theorem keeps_readArray {δ σ : Type} [InputStream σ] {J : δ → Prop} (n : ℕ) (i : σ) :
    Keeps (fun s => J s.store) (readArray E n i) := by
  refine (keeps_uninitialised n).bind fun old => (keeps_onStream _ _).bind ?_
  rintro ⟨d, i⟩
  exact Keeps.pure _

theorem keeps_decryptKeys {δ : Type} {J : δ → Prop} (derivedKey encKeyData : Bytes) :
    Keeps (fun s => J s.store) (decryptKeys (δ := δ) E derivedKey encKeyData) := by
  rw [decryptKeys]
  cases DecryptedInputStream.new (encKeyData.length + 3) (MemoryInputStream.new encKeyData)
      (E.C.cipher derivedKey) with
  | error e i => exact Keeps.throw _
  | ok a i =>
    -- four times the same: read from the stream, overwrite a key
    refine (keeps_onStream _ _).bind fun _ => Keeps.bind (Keeps.modify fun _ hs => hs) fun _ => ?_
    refine (keeps_onStream _ _).bind fun _ => Keeps.bind (Keeps.modify fun _ hs => hs) fun _ => ?_
    refine (keeps_onStream _ _).bind fun _ => Keeps.bind (Keeps.modify fun _ hs => hs) fun _ => ?_
    exact (keeps_onStream _ _).bind fun _ => Keeps.modify fun _ hs => hs

/-- Unlocking changes keys and no file. -/
theorem keeps_unlockRepository {J : FileDataStore → Prop} (password : Bytes)
    (progress : ProgressFunction) :
    Keeps (fun s => J s.store) (unlockRepository E password progress) := by
  refine (keeps_storeGet _ _ _).bind fun keyStream => ?_
  cases keyStream.inputStream with
  | none => exact Keeps.throw _
  | some stream =>
    refine (keeps_onStream _ _).bind fun header => ?_
    refine (keeps_readArray _ _).bind fun salt => (keeps_readArray _ _).bind fun encKeyData => ?_
    refine (keeps_readArray _ _).bind fun hmac1 => ?_
    by_cases hmac : hmac1.1.toList.take 32 ≠ (E.C.hmacSha256
        (deriveKey E.C password salt.1.toList header.1 EVP_MAX_KEY_LENGTH)
        encKeyData.1.toList).toList
    · simp only [if_pos hmac]
      exact Keeps.pure _
    · simp only [if_neg hmac]
      exact (keeps_decryptKeys _ _).bind fun _ => Keeps.pure _

/-- At most the file of a path is touched. -/
def TouchedAt (d : FileDataStore) (path : Bytes) (s : Session FileDataStore) : Prop :=
  ∃ c, OnlyAt d (d.fullPath path) c s.store

theorem TouchedAt.of_same {d : FileDataStore} {path : Bytes} {s : Session FileDataStore}
    (h : s.store = d) : TouchedAt d path s := by
  subst h
  exact ⟨_, OnlyAt.refl _ _⟩

/-- What comes before a file is touched. -/
theorem Keeps.untouched {d : FileDataStore} {path : Bytes} {α : Type} {p : Command FileDataStore α}
    (hp : ∀ J : FileDataStore → Prop, Keeps (fun s => J s.store) p) :
    Triple (fun s => s.store = d) p (fun _ s => s.store = d) fun _ s => TouchedAt d path s :=
  (hp fun d' => d' = d).conseq (fun _ hs => hs) (fun _ _ hs => hs) fun _ _ hs => TouchedAt.of_same hs

theorem storePut_touches {d : FileDataStore} {σ : Type} [InputStream σ] (path : Bytes) (i : σ)
    (progress : ProgressFunction) :
    Triple (fun s => s.store = d) (storePut path i progress) (fun _ s => TouchedAt d path s)
      fun _ s => TouchedAt d path s := by
  rintro s rfl
  obtain ⟨c, d', i', honly, hput | ⟨e, hput⟩⟩ := put_onlyAt s.store path i progress
  · rw [storePut, show DataStore.put s.store _ i progress = _ from hput]
    exact ⟨c, honly⟩
  · rw [storePut, show DataStore.put s.store _ i progress = _ from hput]
    exact ⟨c, honly⟩

/-- The commit touches one file. -/
theorem commitSnapshot_touches {d : FileDataStore} (snapshot : Snapshot) (name : Bytes)
    (progress : ProgressFunction) :
    Triple (fun s => s.store = d) (commitSnapshot E snapshot name progress)
      (fun _ s => TouchedAt d (snapshotPath name) s) fun _ s => TouchedAt d (snapshotPath name) s := by
  refine Triple.bind (Keeps.untouched fun J => keeps_onStream _ _) ?_
  rintro ⟨-, tmpStream⟩
  dsimp only
  cases tmpStream.inputStream with
  | none => exact Triple.throw fun s hs => TouchedAt.of_same hs
  | some stream =>
    refine Triple.bind (Keeps.untouched fun J => keeps_arc4random_buf _) fun iv =>
      Triple.get_bind fun s _ => ?_
    refine Triple.conseq ?_ (fun _ ht => ht.2) (fun _ _ ht => ht) fun _ _ ht => ht
    refine Triple.bind (Keeps.untouched fun J => keeps_onStream _ _) ?_
    rintro ⟨snapshotStream, -⟩
    exact storePut_touches _ _ _

/-- So does the writing of the keys. -/
theorem writeRepositoryKey_touches {d : FileDataStore} (password : Bytes) (logRounds : UInt8)
    (progress : ProgressFunction) :
    Triple (fun s => s.store = d) (writeRepositoryKey E password logRounds progress)
      (fun _ s => TouchedAt d (ascii "/key") s) fun _ s => TouchedAt d (ascii "/key") s := by
  rw [writeRepositoryKey]
  split
  · exact Triple.throw fun s hs => TouchedAt.of_same hs
  · refine Triple.bind (Keeps.untouched fun J => keeps_arc4random_buf _) fun salt => ?_
    refine Triple.bind (Keeps.untouched fun J => keeps_arc4random_buf _) fun iv =>
      Triple.get_bind fun s _ => ?_
    refine Triple.conseq ?_ (fun _ ht => ht.2) (fun _ _ ht => ht) fun _ _ ht => ht
    refine Triple.bind (Keeps.untouched fun J => keeps_ofExcept _) fun encBytes => ?_
    refine Triple.bind (Keeps.untouched fun J => keeps_uninitialised _) fun hmac => ?_
    refine Triple.bind (Keeps.untouched fun J => keeps_onStream _ _) ?_
    rintro ⟨-, keyStream⟩
    dsimp only
    cases keyStream.inputStream with
    | none => exact Triple.throw fun s hs => TouchedAt.of_same hs
    | some stream => exact storePut_touches _ _ _

theorem initializeRepository_touches {d : FileDataStore} (password : Bytes) (logRounds : UInt8)
    (progress : ProgressFunction) :
    Triple (fun s => s.store = d) (initializeRepository E password logRounds progress)
      (fun _ s => TouchedAt d (ascii "/key") s) fun _ s => TouchedAt d (ascii "/key") s := by
  refine Triple.bind (Keeps.untouched fun J => keeps_arc4random_buf _) fun mEncKey => ?_
  refine Triple.bind (Keeps.untouched fun J => keeps_arc4random_buf _) fun mMacKey => ?_
  refine Triple.bind (Keeps.untouched fun J => keeps_arc4random_buf _) fun mHashKey => ?_
  refine Triple.bind (Keeps.untouched fun J => keeps_arc4random_buf _) fun mRollKey => ?_
  exact fun s hs => writeRepositoryKey_touches password logRounds progress _ hs

theorem changePassword_touches {d : FileDataStore} (oldPassword newPassword : Bytes)
    (logRounds : UInt8) (progress : ProgressFunction) :
    Triple (fun s => s.store = d) (changePassword E oldPassword newPassword logRounds progress)
      (fun _ s => TouchedAt d (ascii "/key") s) fun _ s => TouchedAt d (ascii "/key") s := by
  refine Triple.bind (Keeps.untouched fun J => keeps_unlockRepository _ _) fun unlocked => ?_
  cases unlocked with
  | false => exact Triple.pure fun s hs => TouchedAt.of_same hs
  | true =>
    exact Triple.bind (writeRepositoryKey_touches _ _ _) fun _ => Triple.pure fun s hs => hs

/-! ### The whole command -/

/-- What a command of the library keeps, it keeps in `Main.cpp`. -/
theorem keeps_library {δ α : Type} {I : Session δ → Prop} {p : Command δ α} (h : Keeps I p) :
    Keeps I (library p) := by
  intro s hs
  have hrun := h s hs
  cases hp : p s with
  | ok a s' =>
    rw [hp] at hrun
    rw [library_ok hp]
    exact hrun
  | error e s' =>
    rw [hp] at hrun
    rw [library_error hp]
    exact hrun

theorem keeps_unlockOrThrow {J : FileDataStore → Prop} (password : Bytes) (what : String) :
    Keeps (fun s => J s.store) (unlockOrThrow E password what) := by
  refine (keeps_library (keeps_unlockRepository password _)).bind fun unlocked => ?_
  cases unlocked with
  | false => exact Keeps.throw _
  | true => exact Keeps.pure _

/-- The file of a snapshot is none of an object. -/
theorem fullPath_object_ne_snapshot (d : FileDataStore) (objectId : ObjectID) (name : Bytes) :
    d.fullPath (objectPath (objectName objectId)) ≠ d.fullPath (snapshotPath name) := by
  rw [fullPath_rooted d (isSep_objectPath _), fullPath_rooted d (show Path.isSep _ 0 = true from rfl)]
  intro h
  have hsecond := congrArg (fun l => l.getD 1 0) (List.append_cancel_left h)
  exact absurd hsecond (by simp [objectPath, snapshotPath, ascii])

/-- Uploads leave the snapshots alone. -/
theorem AddsObjects.snapshot {d d' : FileDataStore} (h : AddsObjects d d') (name : Bytes) :
    d'.files.find? (d.fullPath (snapshotPath name)) = d.files.find? (d.fullPath (snapshotPath name)) := by
  rcases h.files (d.fullPath (snapshotPath name)) with hsame | ⟨-, objectId, hid⟩
  · exact hsame
  · exact absurd hid.symm (fullPath_object_ne_snapshot d objectId name)

/-- What was uploaded is kept by the commit, which writes one other file. -/
theorem AddsObjects.commit {d d' d'' : FileDataStore} (h : AddsObjects d d') {name : Bytes}
    {c : Option Bytes} (honly : OnlyAt d' (d'.fullPath (snapshotPath name)) c d'') :
    ∀ q ≠ d.fullPath (snapshotPath name), d''.files.find? q = d.files.find? q ∨
      d.files.find? q = none ∧ ∃ objectId, q = d.fullPath (objectPath (objectName objectId)) := by
  have hfull : d'.fullPath (snapshotPath name) = d.fullPath (snapshotPath name) := by
    rw [fullPath, fullPath, h.dir]
  intro q hq
  rw [honly.files, if_neg (by rw [hfull]; exact hq)]
  exact h.files q

/-- **A backup only adds.**  However it ends, every file but the one of the
snapshot is as it was or is a new object; and the file of the snapshot is as it
was unless the repository was unlocked and everything was uploaded. -/
theorem backupFiles_adds (E : Env) (options : CliOptions) (password snapshotName : Bytes)
    (progress : ℕ → ℕ → FileTransferProgressFunction) (args : List (Bytes × LocalArg))
    (s : Session FileDataStore) :
    ∃ s', (backupFiles E options password snapshotName progress args s = ok () s' ∨
        ∃ e, backupFiles E options password snapshotName progress args s = error e s') ∧
      s'.store.mStoreDirectory = s.store.mStoreDirectory ∧
      (∀ q ≠ s.store.fullPath (snapshotPath snapshotName),
        s'.store.files.find? q = s.store.files.find? q ∨
          s.store.files.find? q = none ∧
            ∃ objectId, q = s.store.fullPath (objectPath (objectName objectId))) ∧
      ((¬ ∃ t t', unlockOrThrow E password "Unable to unlock repository. Password was incorrect." s =
            ok () t ∧ backupUploads E options progress args t = ok () t') →
        s'.store.files.find? (s.store.fullPath (snapshotPath snapshotName)) =
          s.store.files.find? (s.store.fullPath (snapshotPath snapshotName))) := by
  have hunlock := keeps_unlockOrThrow (E := E) (J := fun d => d = s.store) password
    "Unable to unlock repository. Password was incorrect." s rfl
  cases hrun : unlockOrThrow E password "Unable to unlock repository. Password was incorrect." s with
  | error e t =>
    rw [hrun] at hunlock
    refine ⟨t, Or.inr ⟨e, run_error hrun⟩, ?_, ?_, ?_⟩
    · rw [hunlock]
    · intro q _
      rw [hunlock]
      exact Or.inl rfl
    · intro _
      rw [hunlock]
  | ok a t =>
    rw [hrun] at hunlock
    have hup := backupUploads_adds (E := E) (d := s.store) options progress args t (by
      show AddsObjects s.store t.store
      rw [show t.store = s.store from hunlock]
      exact AddsObjects.refl _)
    cases huploads : backupUploads E options progress args t with
    | error e t' =>
      rw [huploads] at hup
      refine ⟨t', Or.inr ⟨_, (run_ok hrun).trans (run_error (library_error huploads))⟩, hup.dir, ?_, ?_⟩
      · intro q _
        exact hup.files q
      · intro _
        exact hup.snapshot snapshotName
    | ok b t' =>
      rw [huploads] at hup
      have hcommit := commitSnapshot_touches (E := E) t'.snapshot snapshotName
        DefaultProgressFunction t' rfl
      have hstart : backupFiles E options password snapshotName progress args s =
          library (backupCommit E snapshotName) t' :=
        (run_ok hrun).trans (run_ok (library_ok huploads))
      rw [hstart]
      cases hc : commitSnapshot E t'.snapshot snapshotName DefaultProgressFunction t' with
      | error e s' =>
        rw [hc] at hcommit
        obtain ⟨c, honly⟩ := hcommit
        exact ⟨s', Or.inr ⟨_, library_error hc⟩, honly.dir.trans hup.dir, hup.commit honly,
          fun hnot => absurd ⟨t, t', rfl, huploads⟩ hnot⟩
      | ok u s' =>
        rw [hc] at hcommit
        obtain ⟨c, honly⟩ := hcommit
        exact ⟨s', Or.inl (library_ok hc), honly.dir.trans hup.dir, hup.commit honly,
          fun hnot => absurd ⟨t, t', rfl, huploads⟩ hnot⟩

end Command

end Nebula
