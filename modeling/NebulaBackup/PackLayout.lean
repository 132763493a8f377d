/-
The layout of a pack in the store.

`finalizePack` seals the members one by one, stores the objects one after the
other and records for every member where its object stands.  Main results:

* `backupPack_stores` — what is stored and what is recorded;
* `restores_uploadedRanges` — every member is read back from its range;
* `finalizePack_layout` — the ranges are contiguous and cover the object.
-/
import NebulaBackup.ObjectIds
import NebulaBackup.Download

namespace Nebula

open EStateM.Result Hoare

/-- Fill the pack and write it. -/
def backupPack {δ : Type} [DataStore δ] (E : Env) (files : List (Bytes × LocalFile))
    (progress : FileTransferProgressFunction) : Command δ Unit := do
  packAll E files
  finalizePack E progress

/-- A pack without members: a new one, or one that `finalizePack` has
written. -/
structure PackUploadState.Closed (p : PackUploadState) : Prop where
  infos : p.fileInfos = []
  data : p.packData = []
  hash : p.rollingHash = none

theorem PackUploadState.new_closed : PackUploadState.new.Closed := ⟨rfl, rfl, rfl⟩

theorem PackUploadState.Closed.good {p : PackUploadState} (h : p.Closed) (keys : RepositoryKeys) :
    p.Good keys where
  lengths := by
    rw [h.infos, h.data]
    rfl
  closed _ := h.infos
  fed hopen := absurd h.hash hopen

/-! ### Offsets and lengths -/

/-- The entries of files whose offsets and lengths are given. -/
def packEntries (C : Crypto) (files : List (Bytes × LocalFile)) (ranges : List (UInt32 × UInt32)) :
    List PackFileInfo :=
  files.zipWith (fun file range =>
    { packInfo C file.1 file.2.info file.2.content 0 range.2 with offset := range.1 }) ranges

/-- The sizes of the objects of the members. -/
def memberSizes (C : Crypto) (files : List (Bytes × LocalFile)) : List ℕ :=
  files.map fun file => objectSize C (compressionFor file.2.info) file.2.content

/-- Objects of these sizes, one after the other. -/
def packOffsets : UInt32 → List ℕ → List (UInt32 × UInt32)
  | _, [] => []
  | offset, size :: sizes => (offset, .ofNat size) :: packOffsets (offset + .ofNat size) sizes

/-- What is recorded when the pack is stored. -/
def uploadedRanges (C : Crypto) (files : List (Bytes × LocalFile)) : List (UInt32 × UInt32) :=
  packOffsets 0 (memberSizes C files)

/-- What `addFile` puts there: `i` members are there already, and `u` bytes of
uninitialised memory were used. -/
def addedRanges (E : Env) : ℕ → ℕ → ℕ → List (UInt32 × UInt32)
  | _, _, 0 => []
  | i, u, n + 1 => (.ofNat i, uninitUInt32 E u) :: addedRanges E (i + 1) (u + 4) n

theorem packInfos_eq (E : Env) : ∀ (i u : ℕ) (files : List (Bytes × LocalFile)),
    packInfos E i u files = packEntries E.C files (addedRanges E i u files.length) := by
  intro i u files
  induction files generalizing i u with
  | nil => rfl
  | cons file files ih =>
    rw [packInfos, ih]
    rfl

/-- The members of a pack and their objects. -/
def MemberObjects (C : Crypto) (keys : RepositoryKeys) (files : List (Bytes × LocalFile))
    (objects : List Bytes) : Prop :=
  List.Forall₂ (fun (file : Bytes × LocalFile) object =>
    ∃ iv, object = sealedWith C keys (compressionFor file.2.info) iv file.2.content) files objects

theorem MemberObjects.of_sealed {E : Env} {keys : RepositoryKeys} :
    ∀ {files : List (Bytes × LocalFile)} {objects : List Bytes} {i u : ℕ},
      SealedMembers E.C keys (packInfos E i u files) (files.map fun file => file.2.content) objects →
      MemberObjects E.C keys files objects := by
  intro files
  induction files with
  | nil =>
    intro objects i u h
    cases h
    exact .nil
  | cons file files ih =>
    intro objects i u h
    cases h with
    | cons hfirst hrest => exact .cons hfirst (ih hrest)

theorem MemberObjects.sizes {C : Crypto} (hC : C.Lawful) {keys : RepositoryKeys}
    {files : List (Bytes × LocalFile)} {objects : List Bytes} (h : MemberObjects C keys files objects) :
    objects.map List.length = memberSizes C files := by
  induction h with
  | nil => rfl
  | cons hfirst _ ih =>
    obtain ⟨iv, rfl⟩ := hfirst
    rw [List.map_cons, ih, sealedWith_length hC]
    rfl

/-- Only the contents and the compression of the members matter. -/
theorem MemberObjects.congr {C : Crypto} {keys : RepositoryKeys}
    {files files' : List (Bytes × LocalFile)} {objects : List Bytes}
    (h : MemberObjects C keys files objects)
    (hsame : files.map (fun file => (compressionFor file.2.info, file.2.content)) =
      files'.map fun file => (compressionFor file.2.info, file.2.content)) :
    MemberObjects C keys files' objects := by
  have hparts : ∀ l : List (Bytes × LocalFile), MemberObjects C keys l objects ↔
      List.Forall₂ (fun (m : CompressionType × Bytes) object => ∃ iv, object = sealedWith C keys m.1 iv m.2)
        (l.map fun file => (compressionFor file.2.info, file.2.content)) objects := by
    intro l
    rw [List.forall₂_map_left_iff]
    rfl
  rwa [hparts, ← hsame, ← hparts]

/-- `finalizePack` replaces the offsets and the lengths. -/
theorem laidOut_packEntries (C : Crypto) : ∀ (files : List (Bytes × LocalFile))
    (ranges : List (UInt32 × UInt32)) (objects : List Bytes) (offset : UInt32),
    ranges.length = files.length → objects.length = files.length →
    laidOut (packEntries C files ranges) objects offset =
      packEntries C files (packOffsets offset (objects.map List.length)) := by
  intro files
  induction files with
  | nil =>
    intro ranges objects offset _ hobjects
    obtain rfl := List.length_eq_zero_iff.mp hobjects
    rfl
  | cons file files ih =>
    intro ranges objects offset hranges hobjects
    obtain ⟨range, ranges, rfl⟩ := List.exists_cons_of_length_eq_add_one hranges
    obtain ⟨object, objects, rfl⟩ := List.exists_cons_of_length_eq_add_one hobjects
    have hrest := ih ranges objects (offset + .ofNat object.length) (by simpa using hranges)
      (by simpa using hobjects)
    rw [packEntries] at hrest ⊢
    rw [List.zipWith_cons_cons, laidOut, hrest]
    rfl

theorem addedRanges_length (E : Env) (i u n : ℕ) : (addedRanges E i u n).length = n := by
  induction n generalizing i u with
  | zero => rfl
  | succ n ih => rw [addedRanges, List.length_cons, ih]

theorem packOffsets_length (offset : UInt32) (sizes : List ℕ) :
    (packOffsets offset sizes).length = sizes.length := by
  induction sizes generalizing offset with
  | nil => rfl
  | cons size sizes ih => rw [packOffsets, List.length_cons, ih, List.length_cons]

/-- **The ranges of a stored pack** are where its members stand.  By induction
on the members, with `before` in front of them. -/
theorem packOffsets_contains {C : Crypto} (hC : C.Lawful) {keys : RepositoryKeys} :
    ∀ {files : List (Bytes × LocalFile)} {objects : List Bytes} (before : Bytes),
      MemberObjects C keys files objects → before.length + (memberSizes C files).sum < 2 ^ 32 →
      ∀ m ∈ files.zip (packOffsets (.ofNat before.length) (memberSizes C files)), ∃ iv,
        0 < m.2.2.toNat ∧ m.2.1.toNat + m.2.2.toNat ≤ (before ++ objects.flatten).length ∧
          ((before ++ objects.flatten).drop m.2.1.toNat).take m.2.2.toNat =
            sealedWith C keys (compressionFor m.1.2.info) iv m.1.2.content := by
  intro files
  induction files with
  | nil =>
    intro objects before _ _ m hm
    exact absurd hm List.not_mem_nil
  | cons file files ih =>
    intro objects before hmembers hsum m hm
    obtain ⟨object, objects, ⟨iv, rfl⟩, hrest, rfl⟩ := List.forall₂_cons_left_iff.mp hmembers
    have hlen : (sealedWith C keys (compressionFor file.2.info) iv file.2.content).length =
        objectSize C (compressionFor file.2.info) file.2.content := sealedWith_length hC
    have hsum' : before.length + (objectSize C (compressionFor file.2.info) file.2.content +
        (memberSizes C files).sum) < 2 ^ 32 := hsum
    have hpos : 0 < objectSize C (compressionFor file.2.info) file.2.content := by
      rw [objectSize]
      omega
    rcases List.mem_cons.mp hm with rfl | hm
    · -- offset and length fit into 32 bits, so they are what was meant
      have hoffset : (UInt32.ofNat before.length).toNat = before.length :=
        UInt32.toNat_ofNat_of_lt' (show before.length < 2 ^ 32 by omega)
      have hsize : (UInt32.ofNat (objectSize C (compressionFor file.2.info) file.2.content)).toNat =
          objectSize C (compressionFor file.2.info) file.2.content :=
        UInt32.toNat_ofNat_of_lt' (show _ < 2 ^ 32 by omega)
      refine ⟨iv, ?_, ?_, ?_⟩
      · show 0 < (UInt32.ofNat (objectSize C (compressionFor file.2.info) file.2.content)).toNat
        rwa [hsize]
      · show (UInt32.ofNat before.length).toNat +
          (UInt32.ofNat (objectSize C (compressionFor file.2.info) file.2.content)).toNat ≤ _
        rw [hoffset, hsize, List.length_append, List.flatten_cons, List.length_append, hlen]
        omega
      · show (List.drop (UInt32.ofNat before.length).toNat _).take
          (UInt32.ofNat (objectSize C (compressionFor file.2.info) file.2.content)).toNat = _
        rw [hoffset, hsize, List.drop_left, List.flatten_cons, ← hlen, List.take_left]
    · -- the other members have this one in front of them as well
      have hnext : UInt32.ofNat before.length +
          .ofNat (objectSize C (compressionFor file.2.info) file.2.content) =
          .ofNat (before ++ sealedWith C keys (compressionFor file.2.info) iv file.2.content).length := by
        rw [← UInt32.ofNat_add, List.length_append, hlen]
      have hm' : m ∈ files.zip (packOffsets
          (.ofNat (before ++ sealedWith C keys (compressionFor file.2.info) iv file.2.content).length)
          (memberSizes C files)) := by
        rwa [← hnext]
      obtain ⟨iv', hm''⟩ := ih (before ++ sealedWith C keys (compressionFor file.2.info) iv file.2.content)
        hrest (by rw [List.length_append, hlen]; omega) m hm'
      rw [List.append_assoc] at hm''
      exact ⟨iv', hm''⟩

/-! ### The two branches of `finalizePack` -/

/-- The path of the object of a pack. -/
def packPath (C : Crypto) (keys : RepositoryKeys) (files : List (Bytes × LocalFile)) : Bytes :=
  objectPath (objectName (packId C keys (files.map fun file => file.2.content)))

/-- The snapshot to which the entries of a pack were added. -/
def packed (C : Crypto) (keys : RepositoryKeys) (snapshot : Snapshot)
    (files : List (Bytes × LocalFile)) (ranges : List (UInt32 × UInt32)) : Snapshot :=
  addAll snapshot (packId C keys (files.map fun file => file.2.content)) (packEntries C files ranges)

section Branches

variable {δ : Type} [DataStore δ] (M : StoreModel δ) {E : Env}

/-- Nothing was put into the pack. -/
theorem backupPack_nil {s : Session δ} (hpack : s.pack.Closed)
    (progress : FileTransferProgressFunction) : backupPack E [] progress s = ok () s :=
  run_step rfl (finalizePack_closed hpack.hash progress)

/-- Something was put into the pack. -/
theorem backupPack_run (hC : E.C.Lawful) {s : Session δ} (hs : M.Ok s.store) (hpack : s.pack.Closed)
    {files : List (Bytes × LocalFile)} (hfiles : files ≠ [])
    (progress : FileTransferProgressFunction) :
    ∃ s' p infos, backupPack E files progress s = ok () s' ∧ M.Ok s'.store ∧ s'.keys = s.keys ∧
      s'.snapshot = addAll s.snapshot (packId E.C s.keys (files.map fun file => file.2.content)) infos ∧
      p.fileInfos = packInfos E 0 s.uninitUsed files ∧
      p.packData = files.map (fun file => file.2.content) ∧
      PackStep E.C s.keys p (packPath E.C s.keys files) (M.contents s.store) (M.contents s'.store)
        infos := by
  obtain ⟨p, u, hfill, hp, hinfos, hdata, hopen⟩ := packAll_run (E := E) files (hpack.good s.keys)
  rw [hpack.infos, hpack.data, List.nil_append] at hinfos
  rw [hpack.data, List.nil_append] at hdata
  obtain ⟨d, n, hmac, infos, hfin, hd, hstep⟩ := finalizePack_run M hC
    (s := { s with pack := p, uninitUsed := u }) hs hp (hopen (Or.inr hfiles)) progress
  refine ⟨_, p, infos, run_step hfill hfin, hd, rfl, ?_, hinfos, hdata, ?_⟩
  · show addAll s.snapshot (packId E.C s.keys p.packData) infos = _
    rw [hdata]
  · rw [packPath, ← hdata]
    exact hstep

/-- **The pack is stored**, and the entries say where its members are. -/
theorem backupPack_stores (hC : E.C.Lawful) {s : Session δ} (hs : M.Ok s.store)
    (hpack : s.pack.Closed) (files : List (Bytes × LocalFile))
    (hnone : M.contents s.store (packPath E.C s.keys files) = none)
    (progress : FileTransferProgressFunction) :
    ∃ s', backupPack E files progress s = ok () s' ∧ M.Ok s'.store ∧ s'.keys = s.keys ∧
      s'.snapshot = packed E.C s.keys s.snapshot files (uploadedRanges E.C files) ∧
      (files ≠ [] → ∃ objects, MemberObjects E.C s.keys files objects ∧
        M.contents s'.store = Function.update (M.contents s.store) (packPath E.C s.keys files)
          (some objects.flatten)) := by
  by_cases hfiles : files = []
  · subst hfiles
    exact ⟨s, backupPack_nil hpack progress, hs, rfl, rfl, fun h => absurd rfl h⟩
  · obtain ⟨s', p, infos, hrun, hs', hkeys, hsnap, hinfos, hdata, hstep⟩ :=
      backupPack_run M hC hs hpack hfiles progress
    rcases hstep with ⟨hfound, -, -⟩ | ⟨-, objects, hsealed, hcont, hlaid⟩
    · exact absurd hnone hfound
    · rw [hinfos, hdata] at hsealed
      have hmembers := MemberObjects.of_sealed hsealed
      have hlaid' : infos = packEntries E.C files (uploadedRanges E.C files) := by
        rw [hlaid, hinfos, packInfos_eq, laidOut_packEntries _ _ _ _ _ (addedRanges_length _ _ _ _)
          (List.Forall₂.length_eq hmembers).symm, hmembers.sizes hC]
        rfl
      exact ⟨s', hrun, hs', hkeys, by rw [hsnap, hlaid']; rfl, fun _ => ⟨objects, hmembers, hcont⟩⟩

end Branches

/-! ### The entries in the snapshot -/

/-- The files are new to the snapshot and have C strings for names. -/
structure Recordable (snapshot : Snapshot) (files : List (Bytes × LocalFile)) : Prop where
  wf : snapshot.WF
  new : ∀ file ∈ files, snapshot.getFileEntry file.1 = none
  nodup : (files.map Prod.fst).Nodup
  strings : ∀ file ∈ files, 0 ∉ file.1 ∧ 0 ∉ file.2.info.mUserName ∧ 0 ∉ file.2.info.mGroupName

/-- The offsets and lengths that a snapshot has for some files. -/
def recorded (snapshot : Snapshot) (files : List (Bytes × LocalFile)) :
    List (Option (UInt32 × UInt32)) :=
  files.map fun file => (snapshot.getFileEntry file.1).map fun fe => (fe.offset, fe.packLength)

section Recorded

variable {C : Crypto} {keys : RepositoryKeys} {snapshot : Snapshot}
  {files : List (Bytes × LocalFile)} {ranges : List (UInt32 × UInt32)}

/-- The arguments with which a file and its range are added. -/
def memberArgs (C : Crypto) (objectId : ObjectID) (m : (Bytes × LocalFile) × (UInt32 × UInt32)) :
    AddArgs :=
  ({ packInfo C m.1.1 m.1.2.info m.1.2.content 0 m.2.2 with offset := m.2.1 } : PackFileInfo).args objectId

theorem packed_eq : packed C keys snapshot files ranges =
    (((files.zip ranges).map (memberArgs C (packId C keys (files.map fun file => file.2.content)))).map
      Snapshot.SnapshotOp.add).foldl Snapshot.apply snapshot := by
  rw [packed, addAll, packEntries, List.map_map, List.map_zipWith, List.zip, List.map_zipWith]
  rfl

variable (C keys) in
/-- Every file is found with its range. -/
theorem Recordable.find (h : Recordable snapshot files) (hlen : ranges.length = files.length) :
    ∀ m ∈ files.zip ranges, ∃ fe,
      (packed C keys snapshot files ranges).getFileEntry m.1.1 = some fe ∧
      fe.offset = m.2.1 ∧ fe.packLength = m.2.2 ∧
      (Snapshot.Small (packed C keys snapshot files ranges) →
        Snapshot.Describes (packed C keys snapshot files ranges) fe
          (memberArgs C (packId C keys (files.map fun file => file.2.content)) m)) := by
  intro m hm
  have hfst : ((files.zip ranges).map
      (memberArgs C (packId C keys (files.map fun file => file.2.content)))).map AddArgs.path =
      files.map Prod.fst := by
    rw [List.map_map, show AddArgs.path ∘ memberArgs C _ = Prod.fst ∘ Prod.fst from rfl,
      ← List.map_map, List.map_fst_zip (le_of_eq hlen.symm)]
  rw [packed_eq]
  refine Snapshot.addAll_records h.wf ?_ (by rw [hfst]; exact h.nodup) ?_ _ (List.mem_map_of_mem hm)
  · intro a ha
    obtain ⟨m', hm', rfl⟩ := List.mem_map.mp ha
    obtain ⟨hpath, huser, hgroup⟩ := h.strings m'.1 (List.of_mem_zip hm').1
    exact ⟨⟨hpath, huser, hgroup⟩, show 1 ≤ 65535 by omega⟩
  · intro a ha
    obtain ⟨m', hm', rfl⟩ := List.mem_map.mp ha
    exact h.new m'.1 (List.of_mem_zip hm').1

variable (C keys) in
theorem Recordable.recorded_eq (h : Recordable snapshot files) (hlen : ranges.length = files.length) :
    recorded (packed C keys snapshot files ranges) files = ranges.map some := by
  have hfst : (files.zip ranges).map Prod.fst = files := List.map_fst_zip (le_of_eq hlen.symm)
  have hsnd : (files.zip ranges).map Prod.snd = ranges := List.map_snd_zip (le_of_eq hlen)
  have hmap : recorded (packed C keys snapshot files ranges) files =
      ((files.zip ranges).map Prod.fst).map fun file =>
        ((packed C keys snapshot files ranges).getFileEntry file.1).map fun fe =>
          (fe.offset, fe.packLength) := by
    rw [hfst]
    rfl
  have hranges : ranges.map some = ((files.zip ranges).map Prod.snd).map some := by
    rw [hsnd]
  rw [hmap, hranges, List.map_map, List.map_map]
  refine List.map_congr_left fun m hm => ?_
  obtain ⟨fe, hfind, hoffset, hlength, -⟩ := h.find C keys hlen m hm
  show ((packed C keys snapshot files ranges).getFileEntry m.1.1).map _ = some m.2
  rw [hfind, Option.map_some, hoffset, hlength]

end Recorded

/-! ### Reading a pack back -/

section Restore

variable {δ : Type} [DataStore δ] (M : StoreModel δ) {E : Env}

/-- **Entries with the ranges of the stored pack restore its members.** -/
theorem restores_uploadedRanges (hC : E.C.Lawful) {s : Session δ} (hs : M.Ok s.store)
    {snapshot : Snapshot} {files : List (Bytes × LocalFile)} (hnew : Recordable snapshot files)
    (hsmall : Snapshot.Small (packed E.C s.keys snapshot files (uploadedRanges E.C files)))
    {objects : List Bytes} (hobjects : MemberObjects E.C s.keys files objects)
    (hstored : M.contents s.store (packPath E.C s.keys files) = some objects.flatten)
    (hsum : (memberSizes E.C files).sum < 2 ^ 32) {file : Bytes × LocalFile} (hfile : file ∈ files) :
    Restores E M (packed E.C s.keys snapshot files (uploadedRanges E.C files)) s file.1
      file.2.content := by
  have hlen : (uploadedRanges E.C files).length = files.length := by
    rw [uploadedRanges, packOffsets_length, memberSizes, List.length_map]
  obtain ⟨m, hm, rfl⟩ : ∃ m ∈ files.zip (uploadedRanges E.C files), m.1 = file := by
    have hfst : file ∈ (files.zip (uploadedRanges E.C files)).map Prod.fst := by
      rwa [List.map_fst_zip (le_of_eq hlen.symm)]
    exact List.mem_map.mp hfst
  obtain ⟨fe, hfind, hoffset, hlength, hdesc⟩ := hnew.find E.C s.keys hlen m hm
  -- the recorded range of the pack is the object of the member
  obtain ⟨iv, hpos, hin, hrange⟩ := packOffsets_contains hC [] hobjects (by simpa using hsum) m hm
  rw [← hoffset, ← hlength, List.nil_append] at hin hrange
  rw [← hlength] at hpos
  have hpart : HasPart E.C s.keys (compressionFor m.1.2.info) fe (M.contents s.store)
      (packId E.C s.keys (files.map fun file => file.2.content)) m.1.2.content := by
    refine ⟨objects.flatten, hstored, iv, ?_⟩
    rw [if_pos hpos]
    exact ⟨hin, hrange⟩
  have hrestores := downloadFile_restores M hC hs hsmall.2 hfind (hdesc hsmall)
    (by simp [memberArgs, PackFileInfo.args]) (.cons hpart .nil)
  rwa [List.flatten_singleton] at hrestores

/-- The ranges stand one after the other from `start` to `stop`. -/
def Tiles : ℕ → List (UInt32 × UInt32) → ℕ → Prop
  | start, [], stop => start = stop
  | start, range :: ranges, stop =>
    range.1.toNat = start ∧ Tiles (start + range.2.toNat) ranges stop

/-- The positions in a range. -/
def positions (range : UInt32 × UInt32) : Set ℕ :=
  Set.Ico range.1.toNat (range.1.toNat + range.2.toNat)

theorem packOffsets_tiles (sizes : List ℕ) : ∀ start : ℕ, start + sizes.sum < 2 ^ 32 →
    Tiles start (packOffsets (.ofNat start) sizes) (start + sizes.sum) ∧
      (packOffsets (.ofNat start) sizes).map (fun range => range.2.toNat) = sizes := by
  induction sizes with
  | nil =>
    intro start _
    exact ⟨rfl, rfl⟩
  | cons size sizes ih =>
    intro start hsum
    rw [List.sum_cons] at hsum
    obtain ⟨htiles, hlengths⟩ := ih (start + size) (by omega)
    have hstart : (UInt32.ofNat start).toNat = start :=
      UInt32.toNat_ofNat_of_lt' (show start < 2 ^ 32 by omega)
    have hsize : (UInt32.ofNat size).toNat = size :=
      UInt32.toNat_ofNat_of_lt' (show size < 2 ^ 32 by omega)
    rw [packOffsets, ← UInt32.ofNat_add]
    refine ⟨⟨hstart, ?_⟩, ?_⟩
    · rw [List.sum_cons, ← Nat.add_assoc]
      show Tiles (start + (UInt32.ofNat size).toNat) _ _
      rwa [hsize]
    · rw [List.map_cons, hlengths, hsize]

theorem Tiles.le {ranges : List (UInt32 × UInt32)} : ∀ {start stop : ℕ}, Tiles start ranges stop →
    start ≤ stop := by
  induction ranges with
  | nil =>
    intro start stop h
    exact le_of_eq h
  | cons range ranges ih =>
    intro start stop h
    exact (Nat.le_add_right start _).trans (ih h.2)

/-- Together they are everything from `start` to `stop`. -/
theorem Tiles.cover {ranges : List (UInt32 × UInt32)} : ∀ {start stop : ℕ}, Tiles start ranges stop →
    ∀ i, (∃ range ∈ ranges, i ∈ positions range) ↔ start ≤ i ∧ i < stop := by
  induction ranges with
  | nil =>
    intro start stop h i
    have heq : start = stop := h
    simp only [List.not_mem_nil, false_and, exists_false, false_iff]
    omega
  | cons range ranges ih =>
    intro start stop h i
    obtain ⟨hstart, hrest⟩ := h
    have hle := hrest.le
    rw [List.exists_mem_cons_iff, ih hrest i]
    show (range.1.toNat ≤ i ∧ i < range.1.toNat + range.2.toNat) ∨ _ ↔ _
    omega

/-- No two of them overlap. -/
theorem Tiles.disjoint {ranges : List (UInt32 × UInt32)} : ∀ {start stop : ℕ},
    Tiles start ranges stop →
    ranges.Pairwise fun range range' => Disjoint (positions range) (positions range') := by
  induction ranges with
  | nil =>
    intro start stop _
    exact .nil
  | cons range ranges ih =>
    intro start stop h
    obtain ⟨hstart, hrest⟩ := h
    refine .cons (fun range' hrange' => ?_) (ih hrest)
    -- the others begin where this one ends
    rw [Set.disjoint_left]
    intro i hi hi'
    have hge := ((hrest.cover i).mp ⟨range', hrange', hi'⟩).1
    have hlt : i < range.1.toNat + range.2.toNat := hi.2
    omega

/-- **The layout of a stored pack.**  The object is the objects of the members
one after the other; the recorded ranges begin at 0, follow each other, do not
overlap and cover it; and every member is restored from its range. -/
theorem finalizePack_layout (hC : E.C.Lawful) {s : Session δ} (hs : M.Ok s.store)
    (hpack : s.pack.Closed) {files : List (Bytes × LocalFile)} (hfiles : files ≠ [])
    (hnew : Recordable s.snapshot files)
    (hnone : M.contents s.store (packPath E.C s.keys files) = none)
    (hsum : (memberSizes E.C files).sum < 2 ^ 32) (progress : FileTransferProgressFunction) :
    ∃ s' objects ranges, backupPack E files progress s = ok () s' ∧
      MemberObjects E.C s.keys files objects ∧
      M.contents s'.store = Function.update (M.contents s.store) (packPath E.C s.keys files)
        (some objects.flatten) ∧
      recorded s'.snapshot files = ranges.map some ∧
      ranges.map (fun range => range.2.toNat) = objects.map List.length ∧
      Tiles 0 ranges objects.flatten.length ∧
      (ranges.Pairwise fun range range' => Disjoint (positions range) (positions range')) ∧
      (∀ i, (∃ range ∈ ranges, i ∈ positions range) ↔ i < objects.flatten.length) ∧
      (Snapshot.Small s'.snapshot →
        ∀ file ∈ files, Restores E M s'.snapshot s' file.1 file.2.content) := by
  obtain ⟨s', hrun, hs', hkeys, hsnap, hstored⟩ := backupPack_stores M hC hs hpack files hnone progress
  obtain ⟨objects, hobjects, hcont⟩ := hstored hfiles
  have hlength : objects.flatten.length = (memberSizes E.C files).sum := by
    rw [List.length_flatten, hobjects.sizes hC]
  obtain ⟨htiles, hlengths⟩ := packOffsets_tiles (memberSizes E.C files) 0 (by simpa using hsum)
  rw [Nat.zero_add, ← hlength] at htiles
  refine ⟨s', objects, uploadedRanges E.C files, hrun, hobjects, hcont, ?_, ?_, htiles,
    htiles.disjoint, ?_, ?_⟩
  · rw [hsnap, hnew.recorded_eq]
    rw [uploadedRanges, packOffsets_length, memberSizes, List.length_map]
  · rw [hobjects.sizes hC]
    exact hlengths
  · intro i
    exact (htiles.cover i).trans (and_iff_right (Nat.zero_le i))
  · intro hsmall file hfile
    rw [← hkeys] at hsnap hobjects hcont
    rw [hsnap] at hsmall ⊢
    exact restores_uploadedRanges M hC hs' hnew hsmall hobjects (by rw [hcont, Function.update_self])
      hsum hfile

end Restore

theorem recordable_pictures :
    Recordable .new [(ascii "a.png", emptyPicture), (ascii "b.png", emptyPicture)] where
  wf := Snapshot.new_wf
  new _ _ := rfl
  nodup := by decide
  strings := by decide

/-- Two empty pictures stand at 0 and 64, and both are restored. -/
theorem finalizePack_layout_pictures :
    ∃ s' ranges, backupPack (zeroEnv emptyPictureTables.crypto)
        [(ascii "a.png", emptyPicture), (ascii "b.png", emptyPicture)]
        DefaultFileTransferProgressFunction emptySession = ok () s' ∧
      recorded s'.snapshot [(ascii "a.png", emptyPicture), (ascii "b.png", emptyPicture)] =
        ranges.map some ∧ Tiles 0 ranges 128 ∧
      Restores (zeroEnv emptyPictureTables.crypto) FileDataStore.storeModel s'.snapshot s'
        (ascii "b.png") [] := by
  have hC := emptyPictureTables.crypto_lawful
  obtain ⟨s', objects, ranges, hrun, hobjects, -, hrecorded, -, htiles, -, -, hrestores⟩ :=
    finalizePack_layout FileDataStore.storeModel (E := zeroEnv emptyPictureTables.crypto) hC
      emptySession_ok PackUploadState.new_closed (by simp) recordable_pictures rfl (by decide +kernel)
      DefaultFileTransferProgressFunction
  obtain ⟨s'', hrun', -, -, hsnap, -⟩ := backupPack_stores FileDataStore.storeModel
    (E := zeroEnv emptyPictureTables.crypto) hC emptySession_ok PackUploadState.new_closed
    [(ascii "a.png", emptyPicture), (ascii "b.png", emptyPicture)] rfl
    DefaultFileTransferProgressFunction
  obtain rfl : s' = s'' := (EStateM.Result.ok.inj (hrun.symm.trans hrun')).2
  have hlength : objects.flatten.length = 128 := by
    rw [List.length_flatten, hobjects.sizes hC]
    decide +kernel
  rw [hlength] at htiles
  refine ⟨s', ranges, hrun, hrecorded, htiles, hrestores ?_ (ascii "b.png", emptyPicture)
    (List.mem_cons_of_mem _ List.mem_cons_self)⟩
  rw [hsnap]
  constructor <;> decide +kernel

end Nebula
