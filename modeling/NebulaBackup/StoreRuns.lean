/-
Runs of uploads in which calls fail and the caller goes on.

An object is taken for uploaded when its file exists, so every file below
`/data` has to be the whole byte string of an upload (`Whole`), at every moment
at which somebody may look.  A store that keeps such an invariant under `exist`
and `put` is a `GuardedStore`; every command then keeps it, whatever `progress`
answers and wherever the command stops.  Main results:

* `PartsKeep.calls` — what the single commands keep, every run of uploads
  keeps, also after calls that threw;
* `runUploads_keeps` — every run of uploads keeps the invariant of a guarded
  store;
* `fileStore`, `watchedStore` — a directory without I/O errors is guarded, also
  with a record of what every `exist` found;
* `objects_whole` — the objects after every run, and at every `exist` of it.
-/
import NebulaBackup.UploadSpecs
import NebulaBackup.PutFailures

namespace Nebula

open EStateM.Result Hoare

/-- The bytes are the whole of an upload under the name: one block, sealed, or
all members of a pack, sealed one after the other. -/
def Whole (C : Crypto) (keys : RepositoryKeys) (name bytes : Bytes) : Prop :=
  (∃ t block iv, name = objectName (blockId C keys t block) ∧
    bytes = sealedWith C keys t iv block) ∨
  ∃ fileInfos packData objects, name = objectName (packId C keys packData) ∧ packData ≠ [] ∧
    fileInfos.length = packData.length ∧ SealedMembers C keys fileInfos packData objects ∧
    bytes = objects.flatten

/-- A store with an invariant that looking for an object keeps, and writing a
whole one, also when the caller cancels. -/
structure GuardedStore (δ : Type) [DataStore δ] (W : Bytes → Bytes → Prop) where
  Inv : δ → Prop
  exist_keeps {d : δ} : Inv d → ∀ name, ∃ found d',
    DataStore.exist d (objectPath name) = ok found d' ∧ Inv d'
  put_keeps {d : δ} : Inv d → ∀ {name : Bytes} {σ : Type} [InputStream σ] [RewindableStream σ] {s : σ}
    {c : Bytes}, Holds s c → W name c → ∀ progress : ProgressFunction, ∃ d' s', Inv d' ∧
      (DataStore.put d (objectPath name) s progress = ok () (d', s') ∨
        (∃ i j, progress i j = false) ∧
          ∃ e, DataStore.put d (objectPath name) s progress = error e (d', s'))

/-! ### The calls of a run -/

/-- A call; the file may be anything that a path leads to. -/
inductive UploadOp
  | upload (destPath : Bytes) (fileInfo : FileInfo) (fileStream : FileStream)
      (progress : FileTransferProgressFunction)
  | uploadPacked (destPath : Bytes) (fileInfo : FileInfo) (fileStream : FileStream)
      (progress : FileTransferProgressFunction)
  | finalize (progress : FileTransferProgressFunction)
  | newSession

/-- What a call runs; a new session has a new snapshot and a new pack state. -/
def UploadOp.run {δ : Type} [DataStore δ] (E : Env) : UploadOp → Command δ Unit
  | .upload destPath fileInfo fileStream progress =>
    uploadFile E destPath fileInfo fileStream progress
  | .uploadPacked destPath fileInfo fileStream progress =>
    uploadFilePacked E destPath fileInfo fileStream progress
  | .finalize progress => finalizePack E progress
  | .newSession => modify fun s => { s with snapshot := .new, pack := .new }

/-- One call after the other, whether they return or throw. -/
def runUploads {δ : Type} [DataStore δ] (E : Env) : List UploadOp → Command δ Unit
  | [] => return ()
  | op :: ops => do
    let _ ← attempt (op.run E)
    runUploads E ops

/-! ### What the commands keep -/

section Commands

variable {δ : Type} {E : Env}

theorem keeps_onStream {I : Session δ → Prop} {σ α : Type} (p : EStateM Fault σ α) (i : σ) :
    Keeps I (onStream p i) := by
  intro s hs
  cases h : p i with
  | ok a i' =>
    rw [onStream_run h]
    exact hs
  | error e i' =>
    rw [show onStream p i s = error e s by simp only [onStream, h]]
    exact hs

theorem keeps_ofExcept {I : Session δ → Prop} {α : Type} (x : Except Fault α) :
    Keeps I (ofExcept x : Command δ α) := by
  cases x with
  | ok a => exact Keeps.pure a
  | error e => exact Keeps.throw e

/-- The commands that uploads are made of keep `I`. -/
structure PartsKeep [DataStore δ] (E : Env) (I : Session δ → Prop) : Prop where
  block : ∀ {s : Session δ}, I s → ∀ (t : CompressionType) (block : Bytes)
    (progress : ProgressFunction),
    Keeps I (compressEncryptAndUploadBlock E t (blockId E.C s.keys t block) block progress)
  snapshot : ∀ {s : Session δ}, I s → ∀ snapshot, I { s with snapshot := snapshot }
  packFile : ∀ (normalizedPath : Bytes) (fileInfo : FileInfo) (buffer : Bytes),
    Keeps I (packFile E normalizedPath fileInfo buffer)
  finalizePack : ∀ progress, Keeps I (finalizePack E progress)
  newSession : ∀ {s : Session δ}, I s → I { s with snapshot := .new, pack := .new }

namespace PartsKeep

variable [DataStore δ] {I : Session δ → Prop}

theorem uploadBlock (h : PartsKeep E I) (t : CompressionType) (progress : FileTransferProgressFunction)
    (st : ChunkState) : Keeps I (uploadBlock E t progress st) := by
  refine Keeps.get_bind fun s hs => ?_
  rw [computeBlockHMAC_eq]
  exact (h.block hs t _ _).bind fun _ => Keeps.pure _

/-- **A large file**, by induction on the bound of the rounds. -/
theorem chunkLoop (h : PartsKeep E I) (p : ChunkParams) (t : CompressionType)
    (progress : FileTransferProgressFunction) : ∀ (k : ℕ) (file : BufferedInputStream FileStream)
    (st : ChunkState), Keeps I (chunkLoop E p t progress k file st) := by
  intro k
  induction k with
  | zero =>
    intro file st
    exact Keeps.throw _
  | succ k ih =>
    intro file st
    refine (keeps_onStream _ _).bind ?_
    rintro ⟨eof, file⟩
    cases eof with
    | true =>
      -- what is left in the buffer is the last block
      by_cases hempty : st.chunker.blockBuffer = []
      · simp only [if_pos hempty, if_true]
        exact Keeps.pure st
      · simp only [if_neg hempty, if_true]
        exact h.uploadBlock t progress st
    | false =>
      simp only [Bool.false_eq_true, if_false]
      refine (keeps_onStream _ _).bind ?_
      rintro ⟨b, file⟩
      obtain ⟨cut, c⟩ := st.chunker.push p b
      cases cut with
      | true => exact (h.uploadBlock t progress _).bind fun st => ih file st
      | false => exact ih file _

theorem addEntry (h : PartsKeep E I) (normalizedPath : Bytes) (fileInfo : FileInfo) (bits : ℕ)
    (md5 : Digest 16) (objectIds : List ObjectID) :
    Keeps I (addEntry normalizedPath fileInfo bits md5 objectIds) := by
  refine Keeps.get_bind fun s _ => (keeps_ofExcept _).bind fun snapshot => ?_
  exact Keeps.modify fun s hs => h.snapshot hs snapshot

theorem uploadSmall (h : PartsKeep E I) (withPack : Bool) (normalizedPath : Bytes)
    (fileInfo : FileInfo) (buffer : Bytes) (progress : FileTransferProgressFunction) :
    Keeps I (uploadSmall E withPack normalizedPath fileInfo buffer progress) := by
  cases withPack with
  | true =>
    refine (h.packFile normalizedPath fileInfo buffer).bind fun writePack => ?_
    cases writePack with
    | true => exact h.finalizePack progress
    | false =>
      by_cases hcancel : progress 0 1 0 0 = false
      · simp only [Bool.false_eq_true, if_false, if_pos hcancel]
        exact Keeps.throw _
      · simp only [Bool.false_eq_true, if_false, if_neg hcancel]
        exact Keeps.pure _
  | false =>
    refine Keeps.get_bind fun s hs => ?_
    rw [computeBlockHMAC_eq]
    exact (h.block hs _ _ _).bind fun _ => h.addEntry _ _ _ _ _

theorem uploadLarge (h : PartsKeep E I) (normalizedPath : Bytes) (fileInfo : FileInfo)
    (fileStream : FileStream) (progress : FileTransferProgressFunction) :
    Keeps I (uploadLarge E normalizedPath fileInfo fileStream progress) := by
  refine Keeps.get_bind fun s _ => (keeps_ofExcept _).bind fun p => ?_
  exact (h.chunkLoop p _ progress _ _ _).bind fun st => h.addEntry _ _ _ _ _

theorem uploadFileWith (h : PartsKeep E I) (withPack : Bool) (destPath : Bytes) (fileInfo : FileInfo)
    (fileStream : FileStream) (progress : FileTransferProgressFunction) :
    Keeps I (uploadFileWith E withPack destPath fileInfo fileStream progress) := by
  rw [Nebula.uploadFileWith]
  by_cases hexists : fileInfo.exists = false
  · rw [if_pos hexists]
    exact Keeps.throw _
  · rw [if_neg hexists]
    by_cases hsmall : fileInfo.mLength.toNat < toSizeT E.options.smallFileSize
    · rw [if_pos hsmall]
      refine (keeps_onStream _ _).bind ?_
      rintro ⟨buffer, fileStream⟩
      exact h.uploadSmall withPack _ fileInfo buffer progress
    · rw [if_neg hsmall]
      exact h.uploadLarge _ fileInfo fileStream progress

/-- Every call keeps `I`, where it returns and where it throws. -/
theorem call (h : PartsKeep E I) (op : UploadOp) : Keeps I (op.run E) := by
  cases op with
  | upload destPath fileInfo fileStream progress =>
    exact h.uploadFileWith false destPath fileInfo fileStream _
  | uploadPacked destPath fileInfo fileStream progress =>
    exact h.uploadFileWith true destPath fileInfo fileStream progress
  | finalize progress => exact h.finalizePack progress
  | newSession => exact Keeps.modify fun s hs => h.newSession hs

/-- **Every run keeps `I`**, by induction on the calls; a call that throws does
not end the run. -/
theorem calls (h : PartsKeep E I) :
    ∀ (ops : List UploadOp), Triple I (runUploads E ops) (fun _ => I) fun _ _ => False := by
  intro ops
  induction ops with
  | nil => exact Triple.pure fun s hs => hs
  | cons op ops ih =>
    refine Triple.bind (Q := fun _ => I) ?_ fun _ => ih
    intro s hs
    have hop := h.call op s hs
    cases hrun : op.run E s with
    | ok a s' =>
      rw [hrun] at hop
      rw [attempt_ok hrun]
      exact hop
    | error e s' =>
      rw [hrun] at hop
      rw [attempt_error hrun]
      exact hop

end PartsKeep

end Commands

/-! ### Guarded stores -/

/-- The invariant of a run. -/
structure RunInv {δ : Type} [DataStore δ] {W : Bytes → Bytes → Prop} (G : GuardedStore δ W)
    (keys : RepositoryKeys) (s : Session δ) : Prop where
  store : G.Inv s.store
  keys_eq : s.keys = keys
  pack : s.pack.Good keys
  members : s.pack.rollingHash ≠ none → s.pack.packData ≠ []

section Guarded

variable {δ : Type} {E : Env} [DataStore δ] {keys : RepositoryKeys} {G : GuardedStore δ (Whole E.C keys)}

/-- Looking for an object. -/
theorem storeExist_guarded {s : Session δ} (hs : G.Inv s.store) (name : Bytes) :
    ∃ found d, storeExist (objectPath name) s = ok found { s with store := d } ∧ G.Inv d := by
  obtain ⟨found, d, hexist, hd⟩ := G.exist_keeps hs name
  exact ⟨found, d, by simp only [storeExist, hexist], hd⟩

/-- Writing a whole object, unless the caller cancels. -/
theorem storePut_guarded {s : Session δ} (hs : G.Inv s.store) {σ : Type} [InputStream σ]
    [RewindableStream σ] {i : σ} {name c : Bytes} (hi : Holds i c) (hwhole : Whole E.C keys name c)
    (progress : ProgressFunction) :
    ∃ d, G.Inv d ∧
      (storePut (objectPath name) i progress s = ok () { s with store := d } ∨
        (∃ i j, progress i j = false) ∧
          ∃ e, storePut (objectPath name) i progress s = error e { s with store := d }) := by
  obtain ⟨d, i', hd, hput⟩ := G.put_keeps hs hi hwhole progress
  refine ⟨d, hd, ?_⟩
  rcases hput with hput | ⟨hcancel, e, hput⟩
  · exact Or.inl (by simp only [storePut, hput])
  · exact Or.inr ⟨hcancel, e, by simp only [storePut, hput]⟩

/-- The store and the use of random bytes do not matter to the rest. -/
theorem RunInv.of_store {s : Session δ} (hs : RunInv G keys s) {d : δ} (hd : G.Inv d) (n : ℕ) :
    RunInv G keys { s with store := d, randomUsed := n } :=
  ⟨hd, hs.keys_eq, hs.pack, hs.members⟩

/-- **A block**, whatever `progress` answers. -/
theorem compressEncryptAndUploadBlock_keeps (hC : E.C.Lawful) (t : CompressionType) (block : Bytes)
    (progress : ProgressFunction) : Keeps (RunInv G keys)
      (compressEncryptAndUploadBlock E t (blockId E.C keys t block) block progress) := by
  intro s hs
  have hname := objectName_run (blockId E.C keys t block) s
  obtain ⟨found, d, hexist, hd⟩ := storeExist_guarded hs.store (objectName (blockId E.C keys t block))
  rw [compressEncryptAndUploadBlock, run_ok hname, run_ok hexist]
  cases found with
  | true =>
    by_cases hcancel : progress block.length block.length = false
    · rw [if_pos rfl, if_pos hcancel]
      exact hs.of_store hd s.randomUsed
    · rw [if_pos rfl, if_neg hcancel]
      exact hs.of_store hd s.randomUsed
  | false =>
    -- what is put is the sealed block, and under its own name
    obtain ⟨iv, out, hseal, hout⟩ := sealMemory_run (E := E) hC t block { s with store := d }
    rw [show ({ s with store := d } : Session δ).keys = keys from hs.keys_eq] at hout
    obtain ⟨d', hd', hput⟩ := storePut_guarded
      (s := { s with store := d, randomUsed := s.randomUsed + EVP_MAX_IV_LENGTH }) hd hout
      (Or.inl ⟨t, block, iv, rfl, rfl⟩) progress
    rw [if_neg Bool.false_ne_true, run_ok hseal]
    rcases hput with hput | ⟨-, e, hput⟩
    · rw [hput]
      exact hs.of_store hd' _
    · rw [hput]
      exact hs.of_store hd' _

/-- A member joins the pack. -/
theorem packFile_keeps (normalizedPath : Bytes) (fileInfo : FileInfo) (buffer : Bytes) :
    Keeps (RunInv G keys) (packFile E normalizedPath fileInfo buffer) := by
  intro s hs
  have hgood : s.pack.Good s.keys := hs.keys_eq ▸ hs.pack
  obtain ⟨writePack, p, hrun, -, hdata, -, hp⟩ := packFile_run (E := E) normalizedPath fileInfo
    buffer hgood
  rw [hrun]
  refine ⟨hs.store, hs.keys_eq, hs.keys_eq ▸ hp, fun _ => ?_⟩
  show p.packData ≠ []
  rw [hdata]
  exact List.append_ne_nil_of_right_ne_nil _ (List.cons_ne_nil _ _)

/-- The members of a pack become a whole object; `finalizePack` never asks to
cancel. -/
theorem storePack_guarded (hC : E.C.Lawful) {s : Session δ} (hs : G.Inv s.store)
    (hkeys : s.keys = keys) (hlen : s.pack.fileInfos.length = s.pack.packData.length)
    (hmembers : s.pack.packData ≠ []) :
    ∃ d n infos, storePack E (packId E.C keys s.pack.packData) s = ok () { s with
        store := d
        randomUsed := n
        pack := { s.pack with fileInfos := infos } } ∧ G.Inv d := by
  have hname := objectName_run (packId E.C keys s.pack.packData) s
  obtain ⟨found, d, hexist, hd⟩ := storeExist_guarded hs
    (objectName (packId E.C keys s.pack.packData))
  cases found with
  | true =>
    exact ⟨d, s.randomUsed, s.pack.fileInfos, run_step hname (run_step hexist rfl), hd⟩
  | false =>
    obtain ⟨objects, streams, n, hlayout, hholds, hsealed⟩ := layoutPack_run (E := E) hC
      s.pack.fileInfos s.pack.packData 0 { s with store := d } hlen
    rw [show ({ s with store := d } : Session δ).keys = keys from hkeys] at hsealed
    obtain ⟨d', hd', hput⟩ := storePut_guarded (s := { s with
        store := d
        randomUsed := n
        pack := { s.pack with fileInfos := laidOut s.pack.fileInfos objects 0 } }) hd
      (MultiInputStream.new_holds hholds)
      (Or.inr ⟨s.pack.fileInfos, s.pack.packData, objects, rfl, hmembers, hlen, hsealed, rfl⟩)
      DefaultProgressFunction
    -- `uploadPack` passes no `progress` on, so nobody can cancel it
    rcases hput with hput | ⟨⟨i, j, hcancel⟩, -⟩
    · exact ⟨d', n, laidOut s.pack.fileInfos objects 0, run_step hname (run_step hexist
        (run_step rfl (run_step hlayout (run_step rfl hput)))), hd'⟩
    · exact absurd hcancel (by simp [DefaultProgressFunction])

/-- **A pack is finished or was not open.** -/
theorem finalizePack_keeps (hC : E.C.Lawful) (progress : FileTransferProgressFunction) :
    Keeps (RunInv G keys) (finalizePack E progress) := by
  intro s hs
  by_cases hopen : s.pack.rollingHash = none
  · rw [finalizePack_closed hopen]
    exact hs
  · -- the context was not finalised before, so the id is the one of the members
    obtain ⟨d, n, infos, hstore, hd⟩ := storePack_guarded (E := E) hC (s := s.identified E.C) hs.store
      hs.keys_eq hs.pack.lengths (hs.members hopen)
    rw [show (s.identified E.C).pack.packData = s.pack.packData from rfl,
      ← hs.pack.nextId_eq hopen] at hstore
    rw [finalizePack_of_ok hopen hstore]
    exact ⟨hd, hs.keys_eq, ⟨rfl, fun _ => rfl, fun h => absurd rfl h⟩, fun h => absurd rfl h⟩

theorem RunInv.partsKeep (hC : E.C.Lawful) : PartsKeep E (RunInv G keys) where
  block hs t block progress := by
    rw [hs.keys_eq]
    exact compressEncryptAndUploadBlock_keeps hC t block progress
  snapshot hs _ := ⟨hs.store, hs.keys_eq, hs.pack, hs.members⟩
  packFile := packFile_keeps
  finalizePack := finalizePack_keeps hC
  newSession hs := ⟨hs.store, hs.keys_eq, PackUploadState.new_good keys, fun h => absurd rfl h⟩

/-- **Every run keeps the invariant.** -/
theorem runUploads_keeps (hC : E.C.Lawful) (ops : List UploadOp) :
    Triple (RunInv G keys) (runUploads E ops) (fun _ => RunInv G keys) fun _ _ => False :=
  (RunInv.partsKeep hC).calls ops

end Guarded

/-! ### Stores that are guarded -/

/-- Every object of the store is whole. -/
def AllWhole (W : Bytes → Bytes → Prop) (d : FileDataStore) : Prop :=
  ∀ name bytes, d.contents (objectPath name) = some bytes → W name bytes

/-- A `put` of a whole object: it stands there, or the caller cancelled and
nothing does. -/
theorem AllWhole.put {W : Bytes → Bytes → Prop} {d d' : FileDataStore} (h : AllWhole W d)
    {name : Bytes} {left : Option Bytes}
    (hcont : d'.contents = Function.update d.contents (objectPath name) left)
    (hleft : ∀ bytes, left = some bytes → W name bytes) : AllWhole W d' := by
  intro other bytes hbytes
  rw [hcont] at hbytes
  by_cases heq : objectPath other = objectPath name
  · rw [heq, Function.update_self] at hbytes
    rw [List.append_cancel_left heq]
    exact hleft bytes hbytes
  · rw [Function.update_of_ne heq] at hbytes
    exact h other bytes hbytes

theorem FileDataStore.put_whole {W : Bytes → Bytes → Prop} {d : FileDataStore} (hd : d.Ok)
    (h : AllWhole W d) {name : Bytes} {σ : Type} [InputStream σ] [RewindableStream σ] {s : σ}
    {c : Bytes} (hs : Holds s c) (hc : W name c) (progress : ProgressFunction) :
    ∃ d' s', (d'.Ok ∧ AllWhole W d') ∧
      (FileDataStore.put d (objectPath name) s progress = ok () (d', s') ∨
        (∃ i j, progress i j = false) ∧
          ∃ e, FileDataStore.put d (objectPath name) s progress = error e (d', s')) := by
  obtain ⟨d', s', hd', hcase⟩ := FileDataStore.put_spec hd (isSep_objectPath name) hs progress
  rcases hcase with ⟨hput, hcont⟩ | ⟨hput, hcont, hcancel⟩
  · refine ⟨d', s', ⟨hd', h.put hcont ?_⟩, Or.inl hput⟩
    intro bytes hbytes
    rwa [← Option.some.inj hbytes]
  · exact ⟨d', s', ⟨hd', h.put hcont fun bytes hbytes => absurd hbytes (by simp)⟩,
      Or.inr ⟨hcancel, _, hput⟩⟩

/-- **A directory without I/O errors is guarded.** -/
def fileStore (W : Bytes → Bytes → Prop) : GuardedStore FileDataStore W where
  Inv d := d.Ok ∧ AllWhole W d
  exist_keeps {d} hd _ := ⟨_, d, rfl, hd⟩
  put_keeps {_} hd {_ _} _ _ {_ _} hs hc progress :=
    FileDataStore.put_whole hd.1 hd.2 hs hc progress

/-- A `FileDataStore` that notes what every call of `exist` found. -/
structure WatchedStore where
  store : FileDataStore
  seen : List (Bytes × Bytes)

/-- The path and the bytes that stand there. -/
def FileDataStore.found (d : FileDataStore) (path : Bytes) : List (Bytes × Bytes) :=
  ((d.files.find? (d.fullPath path)).map fun bytes => (path, bytes)).toList

instance : DataStore WatchedStore where
  exist d path :=
    match FileDataStore.exist d.store path with
    | error e d' => error e ⟨d', d.seen⟩
    | ok b d' => ok b ⟨d', d.seen ++ d.store.found path⟩
  get d path o progress :=
    match FileDataStore.get d.store path o progress with
    | error e (d', o') => error e (⟨d', d.seen⟩, o')
    | ok a (d', o') => ok a (⟨d', d.seen⟩, o')
  put d path s progress :=
    match FileDataStore.put d.store path s progress with
    | error e (d', s') => error e (⟨d', d.seen⟩, s')
    | ok a (d', s') => ok a (⟨d', d.seen⟩, s')

/-- What was found was whole. -/
def SeenWhole (W : Bytes → Bytes → Prop) (seen : List (Bytes × Bytes)) : Prop :=
  ∀ e ∈ seen, ∃ name, e.1 = objectPath name ∧ W name e.2

theorem found_whole {W : Bytes → Bytes → Prop} {d : FileDataStore} (h : AllWhole W d)
    (name : Bytes) : SeenWhole W (d.found (objectPath name)) := by
  intro e he
  rw [FileDataStore.found, FileDataStore.fullPath_rooted d (isSep_objectPath name), Option.mem_toList,
    Option.map_eq_some_iff] at he
  obtain ⟨bytes, hbytes, rfl⟩ := he
  exact ⟨name, rfl, h name bytes hbytes⟩

/-- **Also when it is watched.** -/
def watchedStore (W : Bytes → Bytes → Prop) : GuardedStore WatchedStore W where
  Inv d := (d.store.Ok ∧ AllWhole W d.store) ∧ SeenWhole W d.seen
  exist_keeps {d} hd name := by
    refine ⟨_, _, rfl, hd.1, ?_⟩
    intro e he
    rcases List.mem_append.mp he with he | he
    · exact hd.2 e he
    · exact found_whole hd.1.2 name e he
  put_keeps {d} hd {name σ} _ _ {s c} hs hc progress := by
    obtain ⟨d', s', hd', hput⟩ := FileDataStore.put_whole hd.1.1 hd.1.2 hs hc progress
    refine ⟨⟨d', d.seen⟩, s', ⟨hd', hd.2⟩, ?_⟩
    show (match FileDataStore.put d.store (objectPath name) s progress with
      | error e (d', s') => error e (⟨d', d.seen⟩, s')
      | ok a (d', s') => ok a (⟨d', d.seen⟩, s') : Result (WatchedStore × σ) Unit) = _ ∨ _ ∧ ∃ e,
        (match FileDataStore.put d.store (objectPath name) s progress with
          | error e (d', s') => error e (⟨d', d.seen⟩, s')
          | ok a (d', s') => ok a (⟨d', d.seen⟩, s') : Result (WatchedStore × σ) Unit) = _
    rcases hput with hput | ⟨hcancel, e, hput⟩
    · exact Or.inl (by rw [hput])
    · exact Or.inr ⟨hcancel, e, by rw [hput]⟩

/-- A session to start a run from: the pack state is new. -/
theorem RunInv.start {δ : Type} [DataStore δ] {W : Bytes → Bytes → Prop} {G : GuardedStore δ W}
    {s : Session δ} (hs : G.Inv s.store) (hpack : s.pack = .new) : RunInv G s.keys s :=
  ⟨hs, rfl, hpack ▸ PackUploadState.new_good s.keys, fun h => absurd (by rw [hpack]; rfl) h⟩

/-- **Objects are whole in every run without I/O errors**, whoever cancels what
and whatever the caller does next: each object that exists afterwards, and each
that any `exist` of the run found. -/
theorem objects_whole {E : Env} (hC : E.C.Lawful) (ops : List UploadOp) :
    (∀ {s : Session FileDataStore}, s.store.Ok → s.pack = .new →
      (∀ name, s.store.contents (objectPath name) = none) →
      ∃ s', runUploads E ops s = ok () s' ∧
        ∀ name d, FileDataStore.exist s'.store (objectPath name) = ok true d →
          ∃ bytes, s'.store.contents (objectPath name) = some bytes ∧
            Whole E.C s.keys name bytes) ∧
    ∀ {s : Session WatchedStore}, s.store.store.Ok → s.pack = .new → s.store.seen = [] →
      (∀ name, s.store.store.contents (objectPath name) = none) →
      ∃ s', runUploads E ops s = ok () s' ∧
        ∀ e ∈ s'.store.seen, ∃ name, e.1 = objectPath name ∧ Whole E.C s.keys name e.2 := by
  constructor
  · intro s hok hpack hempty
    have hinv : (fileStore (Whole E.C s.keys)).Inv s.store :=
      ⟨hok, fun name bytes hbytes => absurd (hbytes.symm.trans (hempty name)) (by simp)⟩
    obtain ⟨a, s', hrun, hinv'⟩ := (runUploads_keeps hC ops).returns (RunInv.start hinv hpack)
    refine ⟨s', hrun, fun name d hexist => ?_⟩
    rw [FileDataStore.exist, FileDataStore.fullPath_rooted _ (isSep_objectPath name),
      EStateM.Result.ok.injEq, Option.isSome_iff_exists] at hexist
    obtain ⟨bytes, hbytes⟩ := hexist.1
    exact ⟨bytes, hbytes, hinv'.store.2 name bytes hbytes⟩
  · intro s hok hpack hseen hempty
    have hinv : (watchedStore (Whole E.C s.keys)).Inv s.store := by
      refine ⟨⟨hok, fun name bytes hbytes => absurd (hbytes.symm.trans (hempty name)) (by simp)⟩, ?_⟩
      intro e he
      rw [hseen] at he
      exact absurd he List.not_mem_nil
    obtain ⟨a, s', hrun, hinv'⟩ := (runUploads_keeps hC ops).returns (RunInv.start hinv hpack)
    exact ⟨s', hrun, hinv'.store.2⟩

/-- Two bytes are a large file already. -/
def splitEnv : Env := { zeroEnv pictureTables.crypto with options := splitOptions }

/-- The upload of a file with a pack state. -/
def packedUpload (destPath : Bytes) (file : LocalFile) (progress : FileTransferProgressFunction) :
    UploadOp :=
  .uploadPacked destPath file.info (.openRead file.content) progress

/-- A large file whose put is cancelled, the same file in a new session, a pack of
two small ones, and the large file once more. -/
def cancelledUploads : List UploadOp :=
  [packedUpload (ascii "x/ab.png") wordPicture fun _ _ _ _ => false, .newSession,
    packedUpload (ascii "x/ab.png") wordPicture DefaultFileTransferProgressFunction,
    packedUpload (ascii "x/a.png") letterPicture DefaultFileTransferProgressFunction,
    packedUpload (ascii "x/b.png") emptyPicture DefaultFileTransferProgressFunction,
    .finalize DefaultFileTransferProgressFunction, .newSession,
    packedUpload (ascii "x/ab.png") wordPicture DefaultFileTransferProgressFunction]

/-- The first put of these uploads. -/
theorem cancelledUploads_first :
    ∃ s', (packedUpload (ascii "x/ab.png") wordPicture fun _ _ _ _ => false).run splitEnv
        emptySession = error (.thrown .CancelledException "User cancelled.") s' ∧
      s'.store.contents (blockPath splitEnv.C zeroKeys .NoCompression [97, 98]) = none :=
  ⟨_, eq_error_of_thrownBy (by decide +kernel), by decide +kernel⟩

/-- The uploads on a disk that works: the first put is cancelled, the block and the
pack are there in the end, and the last upload has found the block. -/
theorem objects_whole_pictures :
    (∃ s', (packedUpload (ascii "x/ab.png") wordPicture fun _ _ _ _ => false).run splitEnv
        emptySession = error (.thrown .CancelledException "User cancelled.") s' ∧
      s'.store.contents (blockPath splitEnv.C zeroKeys .NoCompression [97, 98]) = none) ∧
    (∃ s', runUploads splitEnv cancelledUploads emptySession = ok () s' ∧
      (∀ path ∈ [blockPath splitEnv.C zeroKeys .NoCompression [97, 98],
          objectPath (objectName (packId splitEnv.C zeroKeys [[97], []]))],
        FileDataStore.exist s'.store path = ok true s'.store) ∧
      ∀ name d, FileDataStore.exist s'.store (objectPath name) = ok true d →
        ∃ bytes, s'.store.contents (objectPath name) = some bytes ∧
          Whole splitEnv.C zeroKeys name bytes) ∧
    ∃ s' : Session WatchedStore, runUploads splitEnv cancelledUploads
        ⟨⟨emptySession.store, []⟩, zeroKeys, 0, 0, .new, .new⟩ = ok () s' ∧
      s'.store.seen.map Prod.fst = [blockPath splitEnv.C zeroKeys .NoCompression [97, 98]] ∧
      ∀ e ∈ s'.store.seen, ∃ name, e.1 = objectPath name ∧ Whole splitEnv.C zeroKeys name e.2 := by
  obtain ⟨hfiles, hwatched⟩ := objects_whole (E := splitEnv) pictureTables.crypto_lawful
    cancelledUploads
  refine ⟨cancelledUploads_first, ?_, ?_⟩
  · obtain ⟨s', hrun, hwhole⟩ := hfiles emptySession_ok rfl fun _ => rfl
    have hthere : ∀ path ∈ [blockPath splitEnv.C zeroKeys .NoCompression [97, 98],
        objectPath (objectName (packId splitEnv.C zeroKeys [[97], []]))],
        ((leftBy (runUploads splitEnv cancelledUploads emptySession)).store.files.find?
          ((leftBy (runUploads splitEnv cancelledUploads emptySession)).store.fullPath path)).isSome =
            true := by
      decide +kernel
    rw [hrun] at hthere
    refine ⟨s', hrun, fun path hpath => ?_, hwhole⟩
    rw [FileDataStore.exist, show (s'.store.files.find? (s'.store.fullPath path)).isSome = true from
      hthere path hpath]
  · obtain ⟨s', hrun, hseen⟩ := hwatched (s := ⟨⟨emptySession.store, []⟩, zeroKeys, 0, 0, .new, .new⟩)
      emptySession_ok rfl rfl fun _ => rfl
    have hfound : (leftBy (runUploads splitEnv cancelledUploads
        (⟨⟨emptySession.store, []⟩, zeroKeys, 0, 0, .new, .new⟩ : Session WatchedStore))).store.seen.map
          Prod.fst = [blockPath splitEnv.C zeroKeys .NoCompression [97, 98]] := by
      decide +kernel
    rw [hrun] at hfound
    exact ⟨s', hrun, hfound, hseen⟩

/-! ### A write that fails -/

/-- The upload of an empty picture. -/
def pictureUpload (progress : FileTransferProgressFunction) : UploadOp :=
  .upload (ascii "x.png") emptyPicture.info (.openRead []) progress

theorem sealedWith_ne_nil {C : Crypto} (hC : C.Lawful) (keys : RepositoryKeys) (t : CompressionType)
    (iv : Digest EVP_MAX_IV_LENGTH) (data : Bytes) : sealedWith C keys t iv data ≠ [] := by
  intro hnil
  have hlen : (sealedWith C keys t iv data).length = 48 + ((payload C t data).length / 16 + 1) * 16 :=
    sealedObject_length hC iv.toList_length
  rw [hnil, List.length_nil] at hlen
  omega

/-- No object is empty. -/
theorem Whole.ne_nil {C : Crypto} (hC : C.Lawful) {keys : RepositoryKeys} {name bytes : Bytes}
    (h : Whole C keys name bytes) : bytes ≠ [] := by
  rcases h with ⟨t, block, iv, -, rfl⟩ | ⟨fileInfos, packData, objects, -, hne, hlen, hsealed, rfl⟩
  · exact sealedWith_ne_nil hC keys t iv block
  · cases packData with
    | nil => exact absurd rfl hne
    | cons data packData =>
      cases fileInfos with
      | nil => exact absurd hlen (by simp)
      | cons fi fileInfos =>
        cases hsealed with
        | cons hfirst _ =>
          -- already the first member takes 64 bytes or more
          obtain ⟨iv, rfl⟩ := hfirst
          rw [List.flatten_cons]
          exact List.append_ne_nil_of_left_ne_nil (sealedWith_ne_nil hC _ _ _ _) _

/-- The first chunk of a put fails: the file stays, empty. -/
theorem FileDataStore.put_writeFail {d : FileDataStore} {io : List ChunkEvent}
    (hio : d.io = .writeFail 0 :: io) {p : Bytes} (hp : Path.isSep p 0 = true) {σ : Type}
    [InputStream σ] [RewindableStream σ] {s : σ} {c : Bytes} (hs : Holds s c) (hc : c ≠ [])
    (progress : ProgressFunction) :
    ∃ e d' s', FileDataStore.put d p s progress = error e (d', s') ∧ d'.io = io ∧
      d'.contents = Function.update d.contents p (some []) := by
  obtain ⟨dir, files, events⟩ := d
  subst hio
  obtain ⟨s', hread, -⟩ := RewindableStream.read_ok hs 4096
  have hopen := assign_onlyAt ⟨dir, files, .writeFail 0 :: io⟩ (dir ++ p) []
    (.writeFail 0 :: io)
  have hempty : (files.assign (dir ++ p) []).find? (dir ++ p) = some [] := by
    rw [SortedMap.find?_assign, if_pos rfl]
  have hleft := appendTo_onlyAt (d := ⟨dir, files.assign (dir ++ p) [], .writeFail 0 :: io⟩) hempty
    [] io
  refine ⟨.thrown .FileIOException (text (dir ++ p) ++ ": Write error."), _, s', ?_, rfl,
    (hopen.trans hleft).contents⟩
  have hne : c.take 4096 ≠ [] := by simpa using hc
  rw [put, fullPath_rooted _ hp, putLoop]
  simp only [popEvent, hread, if_neg hne, List.take_zero]

section Broken

variable {E : Env} {s : Session FileDataStore}

/-- A block whose write fails. -/
theorem compressEncryptAndUploadBlock_broken (hC : E.C.Lawful) {io : List ChunkEvent}
    (hio : s.store.io = .writeFail 0 :: io) (t : CompressionType) (block : Bytes)
    (hnone : s.store.contents (blockPath E.C s.keys t block) = none) (progress : ProgressFunction) :
    ∃ e d n, compressEncryptAndUploadBlock E t (blockId E.C s.keys t block) block progress s =
        error e { s with store := d, randomUsed := n } ∧ d.io = io ∧
      d.contents (blockPath E.C s.keys t block) = some [] := by
  have hname := objectName_run (blockId E.C s.keys t block) s
  have hexist := storeExist_file (objectName (blockId E.C s.keys t block)) s
  rw [show s.store.contents (objectPath (objectName (blockId E.C s.keys t block))) = none from hnone]
    at hexist
  obtain ⟨iv, out, hseal, hout⟩ := sealMemory_run (E := E) hC t block s
  obtain ⟨e, d, out', hput, hd, hcont⟩ := FileDataStore.put_writeFail hio
    (isSep_objectPath (objectName (blockId E.C s.keys t block))) hout
    (sealedWith_ne_nil hC s.keys t iv block) progress
  refine ⟨e, d, s.randomUsed + EVP_MAX_IV_LENGTH, ?_, hd, ?_⟩
  · refine run_step hname (run_step hexist ?_)
    rw [Option.isSome_none, if_neg Bool.false_ne_true]
    refine run_step hseal ?_
    simp only [storePut, show DataStore.put s.store _ out progress = error e (d, out') from hput]
  · rw [hcont]
    exact Function.update_self _ _ _

end Broken

/-- An empty directory on a disk whose first write fails. -/
def brokenSession : Session FileDataStore :=
  { emptySession with store := ⟨ascii "/backup", .empty, [.writeFail 0]⟩ }

/-- The upload of the picture that comes to a write which fails. -/
theorem pictureUpload_broken (progress : FileTransferProgressFunction) :
    ∃ e d n, (pictureUpload progress).run (zeroEnv emptyPictureTables.crypto) brokenSession =
        error e { brokenSession with store := d, randomUsed := n } ∧ d.Ok ∧
      d.contents (blockPath emptyPictureTables.crypto zeroKeys .NoCompression []) = some [] := by
  obtain ⟨e, d, n, hblock, hio, hcont⟩ := compressEncryptAndUploadBlock_broken
    (E := zeroEnv emptyPictureTables.crypto) (s := brokenSession) emptyPictureTables.crypto_lawful rfl
    .NoCompression [] rfl fun i j => DefaultFileTransferProgressFunction 0 1 i j
  obtain ⟨i, hread⟩ := expect_content emptyPicture brokenSession
  refine ⟨e, d, n, ?_, fun x hx => absurd (hio ▸ hx) List.not_mem_nil, hcont⟩
  show uploadFileWith (zeroEnv emptyPictureTables.crypto) false (ascii "x.png") emptyPicture.info
    (.openRead []) DefaultFileTransferProgressFunction brokenSession = _
  have hsmall : emptyPicture.info.mLength.toNat <
      toSizeT (zeroEnv emptyPictureTables.crypto).options.smallFileSize :=
    emptyPicture.length_eq ▸ emptyPicture_small _
  rw [uploadFileWith, if_neg (by rw [emptyPicture.exists_eq]; simp), if_pos hsmall]
  exact run_step hread (run_step rfl (run_error hblock))

/-- The upload of the picture where an object of its name exists. -/
theorem pictureUpload_skips (progress : FileTransferProgressFunction) {s : Session FileDataStore}
    (hs : s.store.Ok) (hkeys : s.keys = zeroKeys) {bytes : Bytes}
    (hsome : s.store.contents (blockPath emptyPictureTables.crypto zeroKeys .NoCompression []) =
      some bytes) :
    ∃ s', (pictureUpload progress).run (zeroEnv emptyPictureTables.crypto) s = ok () s' ∧
      s'.store.contents = s.store.contents := by
  have hblocks : emptyPicture.blocks (zeroEnv emptyPictureTables.crypto) s.keys = .ok (0, [[]]) := by
    rw [hkeys, emptyPicture_blocks]
  obtain ⟨d, n, -, hsteps, hrun⟩ := uploadFileWith_run FileDataStore.storeModel
    (E := zeroEnv emptyPictureTables.crypto) emptyPictureTables.crypto_lawful hs false (ascii "x.png")
    emptyPicture (Or.inl rfl)
    (show ∀ a b i j, DefaultFileTransferProgressFunction a b i j = true from fun _ _ _ _ => rfl)
    hblocks
  obtain ⟨snapshot, hadd⟩ := Snapshot.addFileEntry_ok (s := s.snapshot)
    (a := emptyPicture.args (zeroEnv emptyPictureTables.crypto) s.keys (ascii "x.png") 0 [[]])
    (Nat.le_of_ble_eq_true rfl)
  rw [hadd] at hrun
  refine ⟨_, hrun, ?_⟩
  cases hsteps with
  | cons hstep hnil =>
    cases hnil
    -- the object is there, whatever it holds
    rcases hstep with ⟨-, hsame⟩ | ⟨hnone, -⟩
    · exact hsame
    · rw [hkeys] at hnone
      exact absurd (hsome.symm.trans hnone) (by simp)

/-- **A failed write leaves an object that is not whole**, and the next upload
takes it for its own. -/
theorem objects_truncated :
    ∃ s', runUploads (zeroEnv emptyPictureTables.crypto)
        [pictureUpload DefaultFileTransferProgressFunction,
          pictureUpload DefaultFileTransferProgressFunction] brokenSession = ok () s' ∧
      ∃ name d, FileDataStore.exist s'.store (objectPath name) = ok true d ∧
        s'.store.contents (objectPath name) = some [] ∧
        ¬ Whole emptyPictureTables.crypto zeroKeys name [] := by
  obtain ⟨e, d, n, hfirst, hd, hcont⟩ := pictureUpload_broken DefaultFileTransferProgressFunction
  obtain ⟨s', hsecond, hsame⟩ := pictureUpload_skips DefaultFileTransferProgressFunction
    (s := { brokenSession with store := d, randomUsed := n }) hd rfl hcont
  have hfile : s'.store.contents
      (objectPath (objectName (blockId emptyPictureTables.crypto zeroKeys .NoCompression []))) =
      some [] := by
    rw [hsame]
    exact hcont
  refine ⟨s', run_step (attempt_error hfirst) (run_step (attempt_ok hsecond) rfl), _, s'.store, ?_,
    hfile, fun h => h.ne_nil emptyPictureTables.crypto_lawful rfl⟩
  rw [FileDataStore.contents] at hfile
  rw [FileDataStore.exist, FileDataStore.fullPath_rooted _ (isSep_objectPath _), hfile]
  rfl

/-- An empty directory on a disk that fills up before the first file is flushed. -/
def unflushedSession : Session FileDataStore :=
  { emptySession with store := ⟨ascii "/backup", .empty, [.ok, .flushFail 0]⟩ }

/-- **So does a flush that fails**, and here even the first upload returns: the
object of 64 bytes is still in the buffer when its file is closed. -/
theorem objects_unflushed :
    ∃ s', (pictureUpload DefaultFileTransferProgressFunction).run
        (zeroEnv emptyPictureTables.crypto) unflushedSession = ok () s' ∧
      s'.snapshot.mFiles.find? (ascii "x.png") ≠ none ∧
      s'.store.contents (blockPath emptyPictureTables.crypto zeroKeys .NoCompression []) = some [] :=
  ⟨_, eq_ok_of_thrownBy (by decide +kernel), by decide +kernel, by decide +kernel⟩

end Nebula
