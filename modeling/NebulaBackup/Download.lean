/-
`downloadFile`, `commitSnapshot` and `loadSnapshot`.

A file is read back object by object: each is fetched to a temporary stream,
checked, deciphered and decompressed into the caller's stream; a member of a
pack is a range of its object.  Main results, on a store that is a map:

* `downloadFile_run` — where the objects of an entry hold the parts of a file,
  the file is written;
* `commitSnapshot_run`, `loadSnapshot_run` — a snapshot comes back as `save`
  wrote it.
-/
import NebulaBackup.UploadSpecs

namespace Nebula

open EStateM.Result Hoare

section Commands

variable {δ ω : Type} [DataStore δ] [OutputStream ω]

/-- The body of the loop of `downloadFile` after the object was fetched. -/
def decompressObject (E : Env) (fuel : ℕ) (fe : FileEntry) (downloadedStream : TempInputStream)
    (o : ω) : Command δ ω := do
  let s ← get
  if 0 < fe.packLength.toNat then
    match InputRangeStream.new downloadedStream fe.offset.toNat fe.packLength.toNat with
    | error e _ => throw e
    | ok _ rangeStream =>
      match decompressDecryptHMAC E.C fuel (CompressionType.ofByte fe.compression) E.C.cipher
          s.keys.mEncKey.toList s.keys.mMacKey.toList rangeStream o with
      | error e _ => throw e
      | ok _ (_, o) => return o
  else
    match decompressDecryptHMAC E.C fuel (CompressionType.ofByte fe.compression) E.C.cipher
        s.keys.mEncKey.toList s.keys.mMacKey.toList downloadedStream o with
    | error e _ => throw e
    | ok _ (_, o) => return o

/-- The loop of `downloadFile`: so many objects are left, the next one has
the index `i`. -/
def downloadLoop (E : Env) (fuel : ℕ) (fe : FileEntry) (progress : FileTransferProgressFunction) :
    ℕ → ℕ → List ObjectID → ω → Command δ ω
  | 0, _, _, o => return o
  | _ + 1, _, [], _ => throw .undefined
  | n + 1, i, objectId :: objectIds, o => do
    let name ← ofExcept (objectIdToString objectId)
    let tmpStream ← storeGet (objectPath name) TempFileStream.new
      (fun bytesDownloaded bytesTotal => progress i fe.objectCount.toNat bytesDownloaded bytesTotal)
    match tmpStream.inputStream with
    | none => throw .undefined
    | some downloadedStream =>
      let o ← decompressObject E fuel fe downloadedStream o
      downloadLoop E fuel fe progress n (i + 1) objectIds o

/-- `Repository::downloadFile`; `fuel` bounds the reads of the streams. -/
def downloadFile (E : Env) (fuel : ℕ) (snapshot : Snapshot) (srcPath : Bytes) (o : ω)
    (progress : FileTransferProgressFunction) : Command δ (Bool × ω) :=
  match snapshot.getFileEntry srcPath with
  | none => return (false, o)
  | some fe => do
    let objectIds ← ofExcept (snapshot.indexToObjectID (toInt fe.objectIdIndex))
    let o ← downloadLoop E fuel fe progress fe.objectCount.toNat 0 objectIds o
    return (true, o)

/-- The path of a snapshot in the store. -/
def snapshotPath (name : Bytes) : Bytes := ascii "/snapshot/" ++ name

/-- `Repository::commitSnapshot`. -/
def commitSnapshot (E : Env) (snapshot : Snapshot) (name : Bytes) (progress : ProgressFunction) :
    Command δ Unit := do
  let (_, tmpStream) ← onStream snapshot.save TempFileStream.new
  match tmpStream.inputStream with
  | none => throw .undefined
  | some stream =>
    let iv ← arc4random_buf E EVP_MAX_IV_LENGTH
    let s ← get
    let (snapshotStream, _) ← onStream (compressEncryptHMAC E.C ((InputStream.size stream).toNat + 1)
      .LZMA2 E.C.cipher s.keys.mEncKey.toList s.keys.mMacKey.toList iv.toList) stream
    storePut (snapshotPath name) snapshotStream progress

/-- `Repository::loadSnapshot`. -/
def loadSnapshot (E : Env) (fuel : ℕ) (name : Bytes) (progress : ProgressFunction) :
    Command δ Snapshot := do
  let tmpSnapshotStream ← storeGet (snapshotPath name) TempFileStream.new progress
  match tmpSnapshotStream.inputStream with
  | none => throw .undefined
  | some stream =>
    let s ← get
    match decompressDecryptHMAC E.C fuel (some .LZMA2) E.C.cipher s.keys.mEncKey.toList
        s.keys.mMacKey.toList stream TempFileStream.new with
    | error e _ => throw e
    | ok _ (_, snapshotStream) =>
      match snapshotStream.inputStream with
      | none => throw .undefined
      | some input =>
        let (snapshot, _) ← onStream (Snapshot.load .new) input
        return snapshot

end Commands

/-! ### Files -/

/-- The size of an object. -/
def objectSize (C : Crypto) (t : CompressionType) (d : Bytes) : ℕ :=
  48 + ((payload C t d).length / 16 + 1) * 16

theorem sealedWith_length {C : Crypto} (hC : C.Lawful) {keys : RepositoryKeys} {t : CompressionType}
    {iv : Digest EVP_MAX_IV_LENGTH} {d : Bytes} :
    (sealedWith C keys t iv d).length = objectSize C t d :=
  sealedObject_length hC iv.toList_length

/-- Where the part `d` of an entry stands in the bytes of an object. -/
def Contains (C : Crypto) (keys : RepositoryKeys) (t : CompressionType) (fe : FileEntry)
    (bytes d : Bytes) : Prop :=
  ∃ iv, if 0 < fe.packLength.toNat then
      fe.offset.toNat + fe.packLength.toNat ≤ bytes.length ∧
        (bytes.drop fe.offset.toNat).take fe.packLength.toNat = sealedWith C keys t iv d
    else bytes = sealedWith C keys t iv d

/-- The store has the part `d` of an entry under an id. -/
def HasPart (C : Crypto) (keys : RepositoryKeys) (t : CompressionType) (fe : FileEntry)
    (c : Contents) (objectId : ObjectID) (d : Bytes) : Prop :=
  ∃ bytes, c (objectPath (objectName objectId)) = some bytes ∧ Contains C keys t fe bytes d

section Specs

variable {δ ω : Type} [OutputStream ω] {E : Env} {W : ω → Bytes → Prop}

theorem decompressObject_run (hC : E.C.Lawful) (hW : Sink W) {t : CompressionType} {fe : FileEntry}
    (hfe : fe.compression = t.toByte) {s : Session δ} {stream : TempInputStream} {bytes d : Bytes}
    (hstream : Holds stream bytes) (hd : Contains E.C s.keys t fe bytes d) {o : ω} {w : Bytes}
    (ho : W o w) {fuel : ℕ} (hfuel : d.length + objectSize E.C t d ≤ fuel) :
    ∃ o', decompressObject E fuel fe stream o s = ok o' s ∧ W o' (w ++ d) := by
  obtain ⟨iv, hd⟩ := hd
  have hbyte : CompressionType.ofByte fe.compression = some t := by
    rw [hfe, CompressionType.ofByte_toByte]
  have hfuel' : d.length + (sealedWith E.C s.keys t iv d).length ≤ fuel := by
    rwa [sealedWith_length hC]
  by_cases hpack : 0 < fe.packLength.toNat
  · -- a member of a pack is read through its range
    rw [if_pos hpack] at hd
    obtain ⟨range, hnew, hrange⟩ := InputRangeStream.new_holds hstream hd.1
    rw [hd.2] at hrange
    obtain ⟨i, o', hdec, ho'⟩ := decompressDecryptHMAC_spec hC hW hrange ho iv.toList_length hfuel'
      E.C.cipher
    refine ⟨o', run_step rfl ?_, ho'⟩
    rw [if_pos hpack]
    simp only [hnew, hbyte, hdec]
    rfl
  · rw [if_neg hpack] at hd
    rw [hd] at hstream
    obtain ⟨i, o', hdec, ho'⟩ := decompressDecryptHMAC_spec hC hW hstream ho iv.toList_length hfuel'
      E.C.cipher
    refine ⟨o', run_step rfl ?_, ho'⟩
    rw [if_neg hpack]
    simp only [hbyte, hdec]
    rfl

variable [DataStore δ] (M : StoreModel δ)

/-- **The loop of `downloadFile`** writes the parts one after the other. -/
theorem downloadLoop_run (hC : E.C.Lawful) (hW : Sink W) {t : CompressionType} {fe : FileEntry}
    (hfe : fe.compression = t.toByte) {progress : FileTransferProgressFunction}
    (hprog : ∀ a b i j, progress a b i j = true) {fuel : ℕ} :
    ∀ {parts : List Bytes} {objectIds : List ObjectID} (more : List ObjectID) (i : ℕ) {s : Session δ}
      {o : ω} {w : Bytes}, M.Ok s.store →
      List.Forall₂ (HasPart E.C s.keys t fe (M.contents s.store)) objectIds parts → W o w →
      (∀ d ∈ parts, d.length + objectSize E.C t d ≤ fuel) →
      ∃ d o', downloadLoop E fuel fe progress objectIds.length i (objectIds ++ more) o s =
          ok o' { s with store := d } ∧ M.Ok d ∧ M.contents d = M.contents s.store ∧
        W o' (w ++ parts.flatten) := by
  intro parts
  induction parts with
  | nil =>
    intro objectIds more i s o w hs hparts ho _
    obtain rfl := List.forall₂_nil_right_iff.mp hparts
    exact ⟨s.store, o, rfl, hs, rfl, by simpa using ho⟩
  | cons d parts ih =>
    intro objectIds more i s o w hs hparts ho hfuel
    obtain ⟨objectId, objectIds, ⟨bytes, hbytes, hcontains⟩, hrest, rfl⟩ :=
      List.forall₂_cons_right_iff.mp hparts
    -- the object is fetched into a file, deciphered from there, and the loop goes on
    obtain ⟨d1, tmp, hget, hd1, hcont1, htmp⟩ := storeGet_run M hs
      (isSep_objectPath (objectName objectId)) hbytes TempFileStream.sink TempFileStream.new_written
      (hprog i fe.objectCount.toNat)
    rw [List.nil_append] at htmp
    obtain ⟨stream, hstream, hholds⟩ := TempFileStream.inputStream_holds htmp
    obtain ⟨o1, hdec, ho1⟩ := decompressObject_run hC hW hfe (s := { s with store := d1 }) hholds
      hcontains ho (hfuel d List.mem_cons_self)
    obtain ⟨d2, o2, hloop, hd2, hcont2, ho2⟩ := ih more (i + 1) (s := { s with store := d1 }) hd1
      (by rw [hcont1]; exact hrest) ho1 fun x hx => hfuel x (List.mem_cons_of_mem d hx)
    have hname := objectName_run objectId s
    refine ⟨d2, o2, run_step hname (run_step hget ?_), hd2, hcont2.trans hcont1, ?_⟩
    · simp only [hstream]
      exact run_step hdec hloop
    · rwa [List.flatten_cons, ← List.append_assoc]

/-- **`downloadFile`** of a path whose entry is described by `a`. -/
theorem downloadFile_run (hC : E.C.Lawful) (hW : Sink W) {s : Session δ} (hs : M.Ok s.store)
    {snapshot : Snapshot} (hsmall : snapshot.mObjectIDs.length < 2 ^ 31) {path : Bytes}
    {fe : FileEntry} {a : AddArgs} (hfind : snapshot.getFileEntry path = some fe)
    (hdesc : Snapshot.Describes snapshot fe a) (hids : a.objectIds ≠ []) {parts : List Bytes}
    (hparts : List.Forall₂ (HasPart E.C s.keys a.compression fe (M.contents s.store)) a.objectIds parts)
    {progress : FileTransferProgressFunction} (hprog : ∀ a b i j, progress a b i j = true) {fuel : ℕ}
    (hfuel : ∀ d ∈ parts, d.length + objectSize E.C a.compression d ≤ fuel) {o : ω} {w : Bytes}
    (ho : W o w) :
    ∃ d o', downloadFile E fuel snapshot path o progress s = ok (true, o') { s with store := d } ∧
      M.Ok d ∧ M.contents d = M.contents s.store ∧ W o' (w ++ parts.flatten) := by
  -- the ids of the entry are the beginning of those from its index on
  obtain ⟨more, hsplit⟩ : ∃ more, snapshot.mObjectIDs.drop fe.objectIdIndex.toNat =
      a.objectIds ++ more := by
    refine ⟨(snapshot.mObjectIDs.drop fe.objectIdIndex.toNat).drop fe.objectCount.toNat, ?_⟩
    rw [← hdesc.ids, List.take_append_drop]
  have hlt : fe.objectIdIndex.toNat < snapshot.mObjectIDs.length := by
    by_contra hge
    rw [List.drop_eq_nil_of_le (by omega)] at hsplit
    exact hids (List.append_eq_nil_iff.mp hsplit.symm).1
  have hindex := Snapshot.indexToObjectID_of_lt (show _ < 2 ^ 31 by omega) hlt
  obtain ⟨d, o', hloop, hd, hcont, ho'⟩ := downloadLoop_run M hC hW hdesc.compression hprog
    more 0 hs hparts ho hfuel
  refine ⟨d, o', ?_, hd, hcont, ho'⟩
  rw [downloadFile, hfind]
  refine run_step (show ofExcept _ s = ok _ s by rw [hindex]; rfl) ?_
  rw [hsplit, hdesc.count]
  exact run_step hloop rfl

variable (E) in
/-- `downloadFile` of the path returns true and writes the content, to
whatever stream it is given. -/
def Restores (snapshot : Snapshot) (s : Session δ) (path content : Bytes) : Prop :=
  ∃ n, ∀ fuel ≥ n, ∀ {ω : Type} [OutputStream ω] {W : ω → Bytes → Prop}, Sink W → ∀ {o w}, W o w →
    ∀ {progress : FileTransferProgressFunction}, (∀ a b i j, progress a b i j = true) →
      ∃ d o', downloadFile E fuel snapshot path o progress s = ok (true, o') { s with store := d } ∧
        M.Ok d ∧ M.contents d = M.contents s.store ∧ W o' (w ++ content)

theorem downloadFile_restores (hC : E.C.Lawful) {s : Session δ} (hs : M.Ok s.store)
    {snapshot : Snapshot} (hsmall : snapshot.mObjectIDs.length < 2 ^ 31) {path : Bytes}
    {fe : FileEntry} {a : AddArgs} (hfind : snapshot.getFileEntry path = some fe)
    (hdesc : Snapshot.Describes snapshot fe a) (hids : a.objectIds ≠ []) {parts : List Bytes}
    (hparts : List.Forall₂ (HasPart E.C s.keys a.compression fe (M.contents s.store)) a.objectIds
      parts) : Restores E M snapshot s path parts.flatten := by
  refine ⟨(parts.map fun d => d.length + objectSize E.C a.compression d).sum, ?_⟩
  intro fuel hfuel ω _ W hW o w ho progress hprog
  refine downloadFile_run M hC hW hs hsmall hfind hdesc hids hparts hprog (fun d hd => ?_) ho
  exact (List.single_le_sum (fun _ _ => Nat.zero_le _) _ (List.mem_map_of_mem hd)).trans hfuel

/-! ### Snapshots -/

/-- **`commitSnapshot`** stores what `save` writes. -/
theorem commitSnapshot_run (hC : E.C.Lawful) {s : Session δ} (hs : M.Ok s.store)
    {snapshot : Snapshot} (hwf : snapshot.WF) (name : Bytes) {progress : ProgressFunction}
    (hprog : ∀ i j, progress i j = true) :
    ∃ d n iv, commitSnapshot E snapshot name progress s = ok () { s with store := d, randomUsed := n } ∧
      M.Ok d ∧ M.contents d = Function.update (M.contents s.store) (snapshotPath name)
        (some (sealedWith E.C s.keys .LZMA2 iv (Snapshot.snapshotBytes snapshot))) := by
  obtain ⟨tmp, hsave, htmp⟩ := Snapshot.save_writes TempFileStream.sink hwf _ _
    TempFileStream.new_written
  rw [List.nil_append] at htmp
  obtain ⟨stream, hstream, hholds⟩ := TempFileStream.inputStream_holds htmp
  have hsize : (InputStream.size stream).toNat = (Snapshot.snapshotBytes snapshot).length := by
    rw [RewindableStream.size_eq hholds, Int.toNat_natCast]
  obtain ⟨out, m, hseal, hout⟩ := compressEncryptHMAC_spec hC
    (RewindableStream.source (Snapshot.snapshotBytes snapshot)) hholds
    (show _ < (InputStream.size stream).toNat + 1 by rw [hsize]; exact Nat.lt_succ_self _) .LZMA2
    s.keys.mEncKey.toList s.keys.mMacKey.toList (bytesFrom E.random s.randomUsed EVP_MAX_IV_LENGTH).toList
  obtain ⟨d, hput, hd, hcont⟩ := storePut_run M
    (s := { s with randomUsed := s.randomUsed + EVP_MAX_IV_LENGTH }) hs
    (show Path.isSep (snapshotPath name) 0 = true from rfl) hout hprog
  refine ⟨d, s.randomUsed + EVP_MAX_IV_LENGTH, bytesFrom E.random s.randomUsed EVP_MAX_IV_LENGTH,
    run_step (onStream_run hsave _) ?_, hd, hcont⟩
  simp only [hstream]
  exact run_step rfl (run_step rfl (run_step (onStream_run hseal _) hput))

/-- **`loadSnapshot`** reads what was stored. -/
theorem loadSnapshot_run (hC : E.C.Lawful) {s : Session δ} (hs : M.Ok s.store) {name : Bytes}
    {iv : Digest EVP_MAX_IV_LENGTH} {bytes : Bytes} {snapshot : Snapshot}
    (hstored : M.contents s.store (snapshotPath name) = some (sealedWith E.C s.keys .LZMA2 iv bytes))
    (hreads : Reads (RewindableStream.Rep bytes : TempInputStream → Bytes → Prop)
      (Snapshot.load .new) bytes snapshot)
    {progress : ProgressFunction} (hprog : ∀ i j, progress i j = true) {fuel : ℕ}
    (hfuel : bytes.length + objectSize E.C .LZMA2 bytes ≤ fuel) :
    ∃ d, loadSnapshot E fuel name progress s = ok snapshot { s with store := d } ∧ M.Ok d ∧
      M.contents d = M.contents s.store := by
  obtain ⟨d, tmp, hget, hd, hcont, htmp⟩ := storeGet_run M hs
    (show Path.isSep (snapshotPath name) 0 = true from rfl) hstored
    TempFileStream.sink TempFileStream.new_written hprog
  rw [List.nil_append] at htmp
  obtain ⟨stream, hstream, hholds⟩ := TempFileStream.inputStream_holds htmp
  obtain ⟨i, out, hdec, hout⟩ := decompressDecryptHMAC_spec hC TempFileStream.sink hholds
    TempFileStream.new_written iv.toList_length
    (show _ ≤ fuel by rwa [show (sealedObject _ _ _ _ _ _).length = _ from sealedWith_length hC])
    E.C.cipher
  rw [List.nil_append] at hout
  obtain ⟨input, hinput, hinp⟩ := TempFileStream.inputStream_holds hout
  obtain ⟨input', hload, -⟩ := hreads input [] (by rwa [List.append_nil])
  refine ⟨d, run_step hget ?_, hd, hcont⟩
  simp only [hstream]
  refine run_step rfl ?_
  simp only [hdec, hinput]
  exact run_step (onStream_run hload _) rfl

end Specs

end Nebula
