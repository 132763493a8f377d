/-
Uploads without packs, from the store to the restored files.

The objects of a store are found by the ids of their blocks, so an upload that
finds an object takes it for its own.  This is right as long as every object
is the sealed form of the block that its name belongs to (`Sound`), which each
upload keeps where HMAC-SHA256 tells the blocks apart; objects are never
changed or removed (`Grows`), so what a file was made of stays.  Main results:

* `uploadAll_run` — a sequence of uploads returns, and afterwards the store has
  all blocks of all its files;
* `uploadAll_restores` — every file is restored from the snapshot, and again
  after the snapshot was committed and loaded.
-/
import NebulaBackup.Download

namespace Nebula

open EStateM.Result Hoare
open Nebula.Path

/-! ### Objects that are what their names say -/

/-- What the HMAC of the blocks of a file is fed. -/
def LocalFile.fed (E : Env) (keys : RepositoryKeys) (f : LocalFile) : List Bytes :=
  match f.blocks E keys with
  | .error _ => []
  | .ok (_, blocks) => blocks.map ((compressionFor f.info).toByte :: ·)

/-- Objects with the names of known blocks are these blocks, sealed. -/
def Sound (C : Crypto) (keys : RepositoryKeys) (F : Set Bytes) (c : Contents) : Prop :=
  ∀ t block, t.toByte :: block ∈ F → ∀ bytes, c (blockPath C keys t block) = some bytes →
    ∃ iv, bytes = sealedWith C keys t iv block

/-- Nothing that is stored changes. -/
def Grows (c c' : Contents) : Prop := ∀ path bytes, c path = some bytes → c' path = some bytes

theorem Grows.refl (c : Contents) : Grows c c := fun _ _ h => h

theorem Grows.trans {c c' c'' : Contents} (h : Grows c c') (h' : Grows c' c'') : Grows c c'' :=
  fun path bytes hb => h' path bytes (h path bytes hb)

/-- The store has the block, sealed. -/
def HasBlock (C : Crypto) (keys : RepositoryKeys) (t : CompressionType) (c : Contents)
    (block : Bytes) : Prop :=
  ∃ iv, c (blockPath C keys t block) = some (sealedWith C keys t iv block)

theorem HasBlock.mono {C : Crypto} {keys : RepositoryKeys} {t : CompressionType} {c c' : Contents}
    {block : Bytes} (h : HasBlock C keys t c block) (hgrows : Grows c c') :
    HasBlock C keys t c' block := by
  obtain ⟨iv, hiv⟩ := h
  exact ⟨iv, hgrows _ _ hiv⟩

section Sound

variable {C : Crypto} {keys : RepositoryKeys} {F : Set Bytes}
  (hinj : Set.InjOn (C.hmacSha256 (keys.mHashKey.toList.take SHA256_DIGEST_LENGTH)) F)
include hinj

theorem blockPath_injOn {t t' : CompressionType} {block block' : Bytes} (h : t.toByte :: block ∈ F)
    (h' : t'.toByte :: block' ∈ F) (heq : blockPath C keys t block = blockPath C keys t' block') :
    t = t' ∧ block = block' := by
  have hid := objectName_injective (List.append_cancel_left heq)
  obtain ⟨ht, hblock⟩ := List.cons.inj (hinj h h' hid)
  exact ⟨CompressionType.toByte_injective ht, hblock⟩

/-- **One block**: the store stays sound, and has the block. -/
theorem Sound.blockStep {c c' : Contents} (hc : Sound C keys F c) {t : CompressionType}
    {block : Bytes} (hblock : t.toByte :: block ∈ F) (hstep : BlockStep C keys t block c c') :
    Sound C keys F c' ∧ Grows c c' ∧ HasBlock C keys t c' block := by
  rcases hstep with ⟨hfound, rfl⟩ | ⟨hnone, iv, rfl⟩
  · -- the object that was found is the block
    obtain ⟨bytes, hbytes⟩ := Option.ne_none_iff_exists'.mp hfound
    obtain ⟨iv, rfl⟩ := hc t block hblock bytes hbytes
    exact ⟨hc, Grows.refl _, iv, hbytes⟩
  · refine ⟨?_, ?_, iv, Function.update_self _ _ _⟩
    · -- an object of the same name is of the same block, as the hash is injective on `F`
      intro t' block' hblock' bytes hbytes
      by_cases heq : blockPath C keys t' block' = blockPath C keys t block
      · obtain ⟨rfl, rfl⟩ := blockPath_injOn hinj hblock' hblock heq
        rw [Function.update_self, Option.some.injEq] at hbytes
        exact ⟨iv, hbytes.symm⟩
      · rw [Function.update_of_ne heq] at hbytes
        exact hc t' block' hblock' bytes hbytes
    · -- nothing is overwritten
      intro path bytes hbytes
      rw [Function.update_of_ne]
      · exact hbytes
      · rintro rfl
        rw [hnone] at hbytes
        exact absurd hbytes (by simp)

/-- **The blocks of a file**, by induction on the steps. -/
theorem Sound.blockSteps {t : CompressionType} {blocks : List Bytes} {c c' : Contents}
    (hsteps : BlockSteps C keys t blocks c c') : Sound C keys F c →
    (∀ block ∈ blocks, t.toByte :: block ∈ F) →
    Sound C keys F c' ∧ Grows c c' ∧ ∀ block ∈ blocks, HasBlock C keys t c' block := by
  induction hsteps with
  | nil c =>
    intro hc _
    exact ⟨hc, Grows.refl c, fun block hblock => absurd hblock List.not_mem_nil⟩
  | cons hstep _ ih =>
    intro hc hblocks
    obtain ⟨hc₁, hgrows₁, hblock⟩ := hc.blockStep hinj (hblocks _ List.mem_cons_self) hstep
    obtain ⟨hc', hgrows, hrest⟩ := ih hc₁ fun b hb => hblocks b (List.mem_cons_of_mem _ hb)
    refine ⟨hc', hgrows₁.trans hgrows, ?_⟩
    intro b hb
    rcases List.mem_cons.mp hb with rfl | hb
    · exact hblock.mono hgrows
    · exact hrest b hb

end Sound

/-! ### Sequences of uploads -/

/-- `uploadFile` of one file after the other, to the paths given. -/
def uploadAll {δ : Type} [DataStore δ] (E : Env) (progress : FileTransferProgressFunction) :
    List (Bytes × LocalFile) → Command δ Unit
  | [] => return ()
  | file :: files => do
    uploadFile E file.1 file.2.info (.openRead file.2.content) progress
    uploadAll E progress files

/-- The entry that an upload adds. -/
def entryOf (E : Env) (keys : RepositoryKeys) (file : Bytes × LocalFile) : AddArgs :=
  match file.2.blocks E keys with
  | .error _ => file.2.args E keys file.1 0 []
  | .ok (bits, blocks) => file.2.args E keys file.1 bits blocks

/-- The blocks of the file are in the store. -/
def Stored (E : Env) (keys : RepositoryKeys) (c : Contents) (file : Bytes × LocalFile) : Prop :=
  ∃ bits blocks, file.2.blocks E keys = .ok (bits, blocks) ∧
    ∀ block ∈ blocks, HasBlock E.C keys (compressionFor file.2.info) c block

theorem Stored.mono {E : Env} {keys : RepositoryKeys} {c c' : Contents} {file : Bytes × LocalFile}
    (h : Stored E keys c file) (hgrows : Grows c c') : Stored E keys c' file := by
  obtain ⟨bits, blocks, hblocks, hstored⟩ := h
  exact ⟨bits, blocks, hblocks, fun block hblock => (hstored block hblock).mono hgrows⟩

/-- Every file is cut. -/
theorem LocalFile.blocks_ok {E : Env} (hsane : E.options.Sane) (keys : RepositoryKeys)
    (f : LocalFile) : ∃ bits blocks, f.blocks E keys = .ok (bits, blocks) := by
  rw [LocalFile.blocks]
  by_cases hsmall : f.isSmall E
  · rw [if_pos hsmall]
    exact ⟨0, [f.content], rfl⟩
  · obtain ⟨p, hp, -, -⟩ := chunkParams_ok hsane f.content.length
    rw [if_neg hsmall, hp]
    exact ⟨p.rollingHashBits, f.cut E keys p, rfl⟩

/-- And into at least one block, also when it is empty. -/
theorem LocalFile.blocks_ne_nil {E : Env} (hsane : E.options.Sane) {keys : RepositoryKeys}
    {f : LocalFile} {bits : ℕ} {blocks : List Bytes} (h : f.blocks E keys = .ok (bits, blocks)) :
    blocks ≠ [] := by
  rintro rfl
  -- only an empty file could have no block, and it is a small one
  have hcontent := LocalFile.blocks_flatten h
  rw [List.flatten_nil] at hcontent
  have hsmall : f.isSmall E := by
    have h1 := hsane.blockSplitCount_pos
    have h2 := hsane.blockSplitCount_le
    have h3 := hsane.smallFileSize_le
    rw [LocalFile.isSmall, ← hcontent, List.length_nil, toSizeT]
    omega
  rw [LocalFile.blocks, if_pos hsmall] at h
  exact absurd (Prod.mk.inj (Except.ok.inj h)).2 (by simp)

section Uploads

variable {δ : Type} [DataStore δ] (M : StoreModel δ) {E : Env}

/-- **One upload** returns; the store stays sound and has the blocks of the
file, and the snapshot was given its entry. -/
theorem uploadFile_stores (hC : E.C.Lawful) (hsane : E.options.Sane) {s : Session δ} {F : Set Bytes}
    (hinj : Set.InjOn (E.C.hmacSha256 (s.keys.mHashKey.toList.take SHA256_DIGEST_LENGTH)) F)
    (hs : M.Ok s.store) (hsound : Sound E.C s.keys F (M.contents s.store))
    {file : Bytes × LocalFile} (hfed : ∀ x ∈ file.2.fed E s.keys, x ∈ F)
    (hcount : (entryOf E s.keys file).objectIds.length ≤ 65535)
    (progress : FileTransferProgressFunction) :
    ∃ d n snapshot, uploadFile E file.1 file.2.info (.openRead file.2.content) progress s =
        ok () { s with store := d, randomUsed := n, snapshot := snapshot } ∧
      s.snapshot.addFileEntry (entryOf E s.keys file) = .ok snapshot ∧
      M.Ok d ∧ Sound E.C s.keys F (M.contents d) ∧ Grows (M.contents s.store) (M.contents d) ∧
      Stored E s.keys (M.contents d) file := by
  obtain ⟨bits, blocks, hblocks⟩ := file.2.blocks_ok hsane s.keys
  have hentry : entryOf E s.keys file = file.2.args E s.keys file.1 bits blocks := by
    rw [entryOf, hblocks]
  obtain ⟨d, n, hd, hsteps, hupload⟩ := uploadFileWith_run M hC hs false file.1 file.2 (Or.inl rfl)
    (show ∀ a b i j, DefaultFileTransferProgressFunction a b i j = true from fun _ _ _ _ => rfl)
    hblocks
  obtain ⟨snapshot, hadd⟩ := Snapshot.addFileEntry_ok (s := s.snapshot) hcount
  rw [← hentry, hadd] at hupload
  have hmem : ∀ block ∈ blocks, (compressionFor file.2.info).toByte :: block ∈ F := by
    intro block hblock
    refine hfed _ ?_
    rw [LocalFile.fed, hblocks]
    exact List.mem_map_of_mem hblock
  obtain ⟨hsound', hgrows, hstored⟩ := Sound.blockSteps hinj hsteps hsound hmem
  exact ⟨d, n, snapshot, hupload, hadd, hd, hsound', hgrows, bits, blocks, hblocks, hstored⟩

/-- **A sequence of uploads**, by induction on the files. -/
theorem uploadAll_run (hC : E.C.Lawful) (hsane : E.options.Sane) {keys : RepositoryKeys}
    {F : Set Bytes}
    (hinj : Set.InjOn (E.C.hmacSha256 (keys.mHashKey.toList.take SHA256_DIGEST_LENGTH)) F)
    (progress : FileTransferProgressFunction) : ∀ (files : List (Bytes × LocalFile)) {s : Session δ},
    s.keys = keys → M.Ok s.store → Sound E.C keys F (M.contents s.store) →
    (∀ file ∈ files, (∀ x ∈ file.2.fed E keys, x ∈ F) ∧
      (entryOf E keys file).objectIds.length ≤ 65535) →
    ∃ d n, uploadAll E progress files s = ok () { s with
        store := d
        randomUsed := n
        snapshot := (files.map fun file => Snapshot.SnapshotOp.add (entryOf E keys file)).foldl
          Snapshot.apply s.snapshot } ∧
      M.Ok d ∧ Sound E.C keys F (M.contents d) ∧ Grows (M.contents s.store) (M.contents d) ∧
      ∀ file ∈ files, Stored E keys (M.contents d) file := by
  intro files
  induction files with
  | nil =>
    intro s hkeys hs hsound _
    exact ⟨s.store, s.randomUsed, rfl, hs, hsound, Grows.refl _,
      fun file hfile => absurd hfile List.not_mem_nil⟩
  | cons file files ih =>
    intro s hkeys hs hsound hfiles
    subst hkeys
    obtain ⟨hfed, hcount⟩ := hfiles file List.mem_cons_self
    obtain ⟨d₁, n₁, snapshot, hupload, hadd, hd₁, hsound₁, hgrows₁, hstored⟩ :=
      uploadFile_stores M hC hsane hinj hs hsound hfed hcount progress
    obtain ⟨d, n, hrest, hd, hsound', hgrows, hall⟩ := ih
      (s := { s with store := d₁, randomUsed := n₁, snapshot := snapshot }) rfl hd₁ hsound₁
      fun f hf => hfiles f (List.mem_cons_of_mem file hf)
    -- later uploads add objects and leave those of this file
    refine ⟨d, n, run_step hupload ?_, hd, hsound', hgrows₁.trans hgrows, ?_⟩
    · rw [hrest, List.map_cons, List.foldl_cons, Snapshot.apply, hadd]
    · intro f hf
      rcases List.mem_cons.mp hf with rfl | hf
      · exact hstored.mono hgrows
      · exact hall f hf

end Uploads

/-! ### Room in the tables -/

/-- The room that the strings of a call take in the string buffer at most. -/
def AddArgs.room (a : AddArgs) : ℕ :=
  (filename a.path).length + (parent_path a.path).length + a.user.length + a.group.length + 16

namespace Snapshot

theorem insertStringTable_room (s : Snapshot) (str : Bytes) :
    (s.insertStringTable str).2.mStringBuffer.length ≤ s.mStringBuffer.length + (str.length + 4) ∧
      (s.insertStringTable str).2.mObjectIDs = s.mObjectIDs := by
  rw [insertStringTable]
  cases s.mStringTable.find? str with
  | some i => exact ⟨Nat.le_add_right _ _, rfl⟩
  | none =>
    refine ⟨?_, rfl⟩
    show (s.mStringBuffer ++ str ++ List.replicate _ 0).length ≤ _
    rw [List.length_append, List.length_append, List.length_replicate]
    omega

theorem apply_add_room (s : Snapshot) (a : AddArgs) :
    (s.apply (.add a)).mStringBuffer.length ≤ s.mStringBuffer.length + a.room ∧
      (s.apply (.add a)).mObjectIDs.length ≤ s.mObjectIDs.length + a.objectIds.length := by
  rw [Snapshot.apply, addFileEntry]
  by_cases hcount : a.objectIds.length > 65535
  · rw [if_pos hcount]
    exact ⟨Nat.le_add_right _ _, Nat.le_add_right _ _⟩
  · rw [if_neg hcount]
    -- the four strings in the order in which they are interned
    have h₁ := insertStringTable_room s (filename a.path)
    have h₂ := insertStringTable_room (s.insertStringTable (filename a.path)).2 (parent_path a.path)
    have h₃ := insertStringTable_room ((s.insertStringTable (filename a.path)).2.insertStringTable
      (parent_path a.path)).2 a.user
    have h₄ := insertStringTable_room (((s.insertStringTable (filename a.path)).2.insertStringTable
      (parent_path a.path)).2.insertStringTable a.user).2 a.group
    constructor
    · show ((((s.insertStringTable _).2.insertStringTable _).2.insertStringTable
        _).2.insertStringTable _).2.mStringBuffer.length ≤ _
      rw [AddArgs.room]
      omega
    · show (((((s.insertStringTable _).2.insertStringTable _).2.insertStringTable
        _).2.insertStringTable _).2.mObjectIDs ++ a.objectIds).length ≤ _
      rw [h₄.2, h₃.2, h₂.2, h₁.2, List.length_append]

/-- The tables after a sequence of calls. -/
theorem addAll_room : ∀ (adds : List AddArgs) (s : Snapshot),
    ((adds.map SnapshotOp.add).foldl Snapshot.apply s).mStringBuffer.length ≤
        s.mStringBuffer.length + (adds.map AddArgs.room).sum ∧
      ((adds.map SnapshotOp.add).foldl Snapshot.apply s).mObjectIDs.length ≤
        s.mObjectIDs.length + (adds.map fun a => a.objectIds.length).sum := by
  intro adds
  induction adds with
  | nil =>
    intro s
    exact ⟨Nat.le_add_right _ _, Nat.le_add_right _ _⟩
  | cons a adds ih =>
    intro s
    obtain ⟨hbuf, hids⟩ := apply_add_room s a
    obtain ⟨hbuf', hids'⟩ := ih (s.apply (.add a))
    simp only [List.map_cons, List.foldl_cons, List.sum_cons]
    exact ⟨by omega, by omega⟩

/-- Tables with room for all calls. -/
theorem build_small {adds : List AddArgs} (hroom : (adds.map AddArgs.room).sum < 2 ^ 31)
    (hids : (adds.map fun a => a.objectIds.length).sum < 2 ^ 31) :
    Small (build (adds.map SnapshotOp.add)) := by
  obtain ⟨hbuf, hobj⟩ := addAll_room adds new
  have hempty : new.mStringBuffer.length = 0 ∧ new.mObjectIDs.length = 0 := ⟨rfl, rfl⟩
  exact ⟨lt_of_le_of_lt hbuf (by omega), lt_of_le_of_lt hobj (by omega)⟩

/-- **One entry per call**: a fresh snapshot that was given calls with distinct
paths has an entry for each, and no other. -/
theorem build_entries {adds : List AddArgs} (hadds : ∀ a ∈ adds, NulFree a ∧ a.objectIds.length ≤ 65535)
    (hnodup : (adds.map AddArgs.path).Nodup) (hsmall : Small (build (adds.map SnapshotOp.add))) :
    ∃ entries : List (Bytes × FileEntry),
      entries.Perm (build (adds.map SnapshotOp.add)).mFiles.entries ∧
      List.Forall₂ (fun a e => e.1 = a.path ∧
        Describes (build (adds.map SnapshotOp.add)) e.2 a) adds entries := by
  have hkeys : ((build (adds.map SnapshotOp.add)).mFiles.entries.map Prod.fst).Perm
      (adds.map AddArgs.path) := by
    rw [List.perm_ext_iff_of_nodup (SortedMap.nodup_keys _) hnodup]
    intro p
    have hmem : p ∈ (build (adds.map SnapshotOp.add)).mFiles.entries.map Prod.fst ↔
        ((build (adds.map SnapshotOp.add)).getFileEntry p).isSome := by
      rw [List.mem_map, getFileEntry, Option.isSome_iff_exists]
      constructor
      · rintro ⟨⟨q, fe⟩, he, rfl⟩
        exact ⟨fe, SortedMap.mem_entries_iff.mp he⟩
      · rintro ⟨fe, hfe⟩
        exact ⟨(p, fe), SortedMap.mem_entries_iff.mpr hfe, rfl⟩
    have haccepted : accepted adds = adds :=
      List.filter_eq_self.mpr fun a ha => decide_eq_true (hadds a ha).2
    rw [hmem, getFileEntry_build_isSome, haccepted, List.mem_map]
  -- list the entries in the order of the calls
  obtain ⟨entries, hpaths, hperm⟩ := List.perm_comp_forall₂ hkeys.symm
    (List.forall₂_map_left_iff.mpr (List.forall₂_same.mpr fun e _ => rfl) :
      List.Forall₂ (fun p (e : Bytes × FileEntry) => e.1 = p) _ _)
  rw [List.forall₂_map_left_iff, List.forall₂_iff_zip] at hpaths
  refine ⟨entries, hperm, List.forall₂_iff_zip.mpr ⟨hpaths.1, ?_⟩⟩
  intro a e hae
  obtain ⟨ha, he⟩ := List.of_mem_zip hae
  have hpath := hpaths.2 hae
  obtain ⟨fe, hfind, -, -, hdesc⟩ := addAll_records new_wf hadds hnodup (fun b _ => rfl) a ha
  have hfind' : (build (adds.map SnapshotOp.add)).getFileEntry a.path = some e.2 := by
    rw [← hpath]
    exact SortedMap.mem_entries_iff.mp (hperm.mem_iff.mp he)
  obtain rfl : fe = e.2 := Option.some.inj (hfind.symm.trans hfind')
  exact ⟨hpath, hdesc hsmall⟩

end Snapshot

/-- The entry of an upload is of its file. -/
theorem entryOf_path (E : Env) (keys : RepositoryKeys) (file : Bytes × LocalFile) :
    (entryOf E keys file).path = normalizedPath file.1 := by
  rw [entryOf]
  split <;> rfl

theorem entryOf_nulFree {E : Env} {keys : RepositoryKeys} {file : Bytes × LocalFile}
    (h : 0 ∉ file.1 ∧ 0 ∉ file.2.info.mUserName ∧ 0 ∉ file.2.info.mGroupName) :
    Snapshot.NulFree (entryOf E keys file) := by
  rw [entryOf]
  split <;> exact ⟨normalizedPath_nul h.1, h.2.1, h.2.2⟩

/-- What the theorems ask of a sequence of uploads: paths and names are C
strings, the normalised paths differ, no file has more blocks than an entry can
count, and the tables stay below the `int` indices. -/
structure Uploadable (E : Env) (keys : RepositoryKeys) (files : List (Bytes × LocalFile)) : Prop where
  nulFree : ∀ file ∈ files,
    0 ∉ file.1 ∧ 0 ∉ file.2.info.mUserName ∧ 0 ∉ file.2.info.mGroupName
  distinct : (files.map fun file => normalizedPath file.1).Nodup
  count : ∀ file ∈ files, (entryOf E keys file).objectIds.length ≤ 65535
  room : (files.map fun file => (entryOf E keys file).room).sum < 2 ^ 31
  ids : (files.map fun file => (entryOf E keys file).objectIds.length).sum < 2 ^ 31

/-- The snapshot of the files. -/
def fileSnapshot (E : Env) (keys : RepositoryKeys) (files : List (Bytes × LocalFile)) : Snapshot :=
  Snapshot.build (files.map fun file => .add (entryOf E keys file))

section FileSnapshot

variable {E : Env} {keys : RepositoryKeys} {files : List (Bytes × LocalFile)}

theorem fileSnapshot_eq : fileSnapshot E keys files =
    Snapshot.build ((files.map (entryOf E keys)).map Snapshot.SnapshotOp.add) := by
  rw [fileSnapshot, List.map_map]
  rfl

theorem Uploadable.small (h : Uploadable E keys files) : (fileSnapshot E keys files).Small := by
  rw [fileSnapshot_eq]
  refine Snapshot.build_small ?_ ?_
  · rw [List.map_map]
    exact h.room
  · rw [List.map_map]
    exact h.ids

theorem Uploadable.goodOps (h : Uploadable E keys files) :
    Snapshot.GoodOps (files.map fun file => .add (entryOf E keys file)) := by
  intro a ha
  obtain ⟨file, hfile, heq⟩ := List.mem_map.mp ha
  rw [Snapshot.SnapshotOp.add.injEq] at heq
  subst heq
  refine ⟨?_, entryOf_nulFree (h.nulFree file hfile)⟩
  rw [entryOf_path]
  exact normalizedPath_normal file.1

theorem Uploadable.adds (h : Uploadable E keys files) : ∀ a ∈ files.map (entryOf E keys),
    Snapshot.NulFree a ∧ a.objectIds.length ≤ 65535 := by
  intro a ha
  obtain ⟨file, hfile, rfl⟩ := List.mem_map.mp ha
  exact ⟨entryOf_nulFree (h.nulFree file hfile), h.count file hfile⟩

theorem Uploadable.paths (h : Uploadable E keys files) :
    ((files.map (entryOf E keys)).map AddArgs.path).Nodup := by
  have hpaths : (files.map (entryOf E keys)).map AddArgs.path =
      files.map fun file => normalizedPath file.1 := by
    rw [List.map_map]
    exact List.map_congr_left fun file _ => entryOf_path E keys file
  rw [hpaths]
  exact h.distinct

/-- Every file has its entry. -/
theorem Uploadable.find (h : Uploadable E keys files) {file : Bytes × LocalFile} (hfile : file ∈ files) :
    ∃ fe, (fileSnapshot E keys files).getFileEntry (normalizedPath file.1) = some fe ∧
      Snapshot.Describes (fileSnapshot E keys files) fe (entryOf E keys file) := by
  have hsmall := h.small
  rw [fileSnapshot_eq] at hsmall ⊢
  obtain ⟨fe, hfind, -, -, hdesc⟩ := Snapshot.addAll_records Snapshot.new_wf h.adds h.paths
    (fun _ _ => rfl) _ (List.mem_map_of_mem hfile)
  rw [entryOf_path] at hfind
  exact ⟨fe, hfind, hdesc hsmall⟩

/-- The entries of the snapshot, in the order of the files. -/
theorem Uploadable.entries (h : Uploadable E keys files) :
    ∃ entries : List (Bytes × FileEntry),
      entries.Perm (fileSnapshot E keys files).mFiles.entries ∧
      List.Forall₂ (fun file e => e.1 = normalizedPath file.1 ∧
        Snapshot.Describes (fileSnapshot E keys files) e.2 (entryOf E keys file)) files entries := by
  have hsmall := h.small
  rw [fileSnapshot_eq] at hsmall ⊢
  obtain ⟨entries, hperm, hall⟩ := Snapshot.build_entries h.adds h.paths hsmall
  refine ⟨entries, hperm, (List.forall₂_map_left_iff.mp hall).imp ?_⟩
  rintro file e ⟨hpath, hdesc⟩
  exact ⟨hpath.trans (entryOf_path E keys file), hdesc⟩

/-- There are as many entries as files. -/
theorem Uploadable.size_lt (h : Uploadable E keys files) (hsane : E.options.Sane) :
    (fileSnapshot E keys files).mFiles.size < 2 ^ 31 := by
  obtain ⟨entries, hperm, hall⟩ := h.entries
  -- every file has a block, so there are no more files than ids
  have hpos : ∀ file ∈ files, 1 ≤ (entryOf E keys file).objectIds.length := by
    intro file _
    obtain ⟨bits, blocks, hblocks⟩ := file.2.blocks_ok hsane keys
    rw [entryOf, hblocks]
    show 1 ≤ (blocks.map _).length
    rw [List.length_map]
    exact List.length_pos_iff.mpr (LocalFile.blocks_ne_nil hsane hblocks)
  have hle : files.length ≤ (files.map fun file => (entryOf E keys file).objectIds.length).sum := by
    rw [← Nat.mul_one files.length]
    have hsum := List.card_nsmul_le_sum
      (files.map fun file => (entryOf E keys file).objectIds.length) 1 (fun n hn => by
        obtain ⟨file, hfile, rfl⟩ := List.mem_map.mp hn
        exact hpos file hfile)
    rwa [List.length_map] at hsum
  rw [SortedMap.size, ← hperm.length_eq, ← hall.length_eq]
  exact lt_of_le_of_lt hle h.ids

/-- **The snapshot after it was loaded**: the same entries, found under the
paths that are put together from parent and name. -/
theorem Uploadable.load (h : Uploadable E keys files) (hsane : E.options.Sane) {σ : Type}
    [InputStream σ] {R : σ → Bytes → Prop} (hR : Source R) :
    ∃ loaded : Snapshot,
      Reads R (Snapshot.load .new) (Snapshot.snapshotBytes (fileSnapshot E keys files)) loaded ∧
      loaded.Small ∧ ∃ entries : List FileEntry, entries.Perm loaded.forEachFileEntry ∧
        List.Forall₂ (fun file fe =>
          loaded.getFileEntry (Snapshot.rekey (normalizedPath file.1)) = some fe ∧
          Snapshot.Describes loaded fe (entryOf E keys file)) files entries := by
  obtain ⟨loaded, hreads, hbuf, hobj, hperm⟩ := Snapshot.load_built hR h.goodOps h.small
    (h.size_lt hsane)
  -- the loaded tables are those that were saved, so descriptions carry over
  have hext : Snapshot.Extends (fileSnapshot E keys files) loaded := by
    rw [Snapshot.Extends, hbuf, hobj]
    exact Snapshot.Extends.refl _
  obtain ⟨entries, hentries, hall⟩ := h.entries
  refine ⟨loaded, hreads, ?_, entries.map Prod.snd, ?_, ?_⟩
  · rw [Snapshot.Small, hbuf, hobj]
    exact h.small
  · have hvalues := hperm.map Prod.snd
    rw [List.map_map] at hvalues
    exact (hentries.map Prod.snd).trans hvalues.symm
  · rw [List.forall₂_map_right_iff]
    rw [List.forall₂_iff_zip] at hall ⊢
    refine ⟨hall.1, fun {file e} hzip => ?_⟩
    obtain ⟨hpath, hdesc⟩ := hall.2 hzip
    have hmem := hentries.mem_iff.mp (List.of_mem_zip hzip).2
    refine ⟨?_, hdesc.of_extends hext⟩
    exact (Snapshot.find?_rekeyed hperm _ _).mpr
      ⟨e.1, SortedMap.mem_entries_iff.mp hmem, by rw [hpath]⟩

end FileSnapshot

/-! ### From the upload to the restored file -/

section Restore

variable {δ : Type} [DataStore δ] (M : StoreModel δ) {E : Env}

/-- **A file whose blocks are stored is restored** under every path that leads
to its entry. -/
theorem Stored.restores (hC : E.C.Lawful) (hsane : E.options.Sane) {s : Session δ}
    (hs : M.Ok s.store) {snapshot : Snapshot} (hsmall : snapshot.mObjectIDs.length < 2 ^ 31)
    {file : Bytes × LocalFile} (hstored : Stored E s.keys (M.contents s.store) file) {path : Bytes}
    {fe : FileEntry} (hfind : snapshot.getFileEntry path = some fe)
    (hdesc : Snapshot.Describes snapshot fe (entryOf E s.keys file)) :
    Restores E M snapshot s path file.2.content := by
  obtain ⟨bits, blocks, hblocks, hall⟩ := hstored
  have hentry : entryOf E s.keys file = file.2.args E s.keys file.1 bits blocks := by
    rw [entryOf, hblocks]
  rw [hentry] at hdesc
  rw [← LocalFile.blocks_flatten hblocks]
  refine downloadFile_restores M hC hs hsmall hfind hdesc ?_ ?_
  · intro hnil
    exact LocalFile.blocks_ne_nil hsane hblocks (List.map_eq_nil_iff.mp hnil)
  · refine List.forall₂_map_left_iff.mpr (List.forall₂_same.mpr fun block hblock => ?_)
    obtain ⟨iv, hiv⟩ := hall block hblock
    -- the entry is not one of a pack
    have hpack : ¬ 0 < fe.packLength.toNat := by
      rw [hdesc.packLength]
      exact lt_irrefl 0
    refine ⟨_, hiv, iv, ?_⟩
    rw [if_neg hpack]
    rfl

/-- The entry leads to the file: its parent and name make a path that restores
the content, and it has the content's MD5 and size. -/
def RestoredAs (E : Env) (loaded : Snapshot) (s : Session δ) (file : Bytes × LocalFile)
    (fe : FileEntry) : Prop :=
  ∃ parent name, loaded.indexToString (toInt fe.pathIndex) = .ok parent ∧
    loaded.indexToString (toInt fe.nameIndex) = .ok name ∧
    Restores E M loaded s (parent ++ separator :: name) file.2.content ∧
    fe.md5 = E.C.md5 file.2.content ∧ fe.size.toNat = file.2.content.length

theorem restoredAs (hC : E.C.Lawful) (hsane : E.options.Sane) {s : Session δ} (hs : M.Ok s.store)
    {loaded : Snapshot} (hsmall : loaded.Small) {file : Bytes × LocalFile}
    (hstored : Stored E s.keys (M.contents s.store) file) {fe : FileEntry}
    (hfind : loaded.getFileEntry (Snapshot.rekey (normalizedPath file.1)) = some fe)
    (hdesc : Snapshot.Describes loaded fe (entryOf E s.keys file)) :
    RestoredAs M E loaded s file fe := by
  have hpath : parent_path (normalizedPath file.1) ++ separator :: filename (normalizedPath file.1) =
      Snapshot.rekey (normalizedPath file.1) :=
    Snapshot.parent_append_filename (normalizedPath_normal file.1)
  refine ⟨parent_path (normalizedPath file.1), filename (normalizedPath file.1), ?_, ?_, ?_, ?_, ?_⟩
  · rw [← entryOf_path E s.keys file]
    exact Snapshot.indexToString_of_cstrAt hsmall.1 hdesc.parent
  · rw [← entryOf_path E s.keys file]
    exact Snapshot.indexToString_of_cstrAt hsmall.1 hdesc.name
  · rw [hpath]
    exact hstored.restores M hC hsane hs hsmall.2 hfind hdesc
  · rw [hdesc.md5, entryOf]
    split <;> rfl
  · rw [hdesc.size, entryOf, ← file.2.length_eq]
    split <;> rfl

/-- An object is not a snapshot. -/
theorem objectPath_ne_snapshotPath (a b : Bytes) : objectPath a ≠ snapshotPath b := by
  intro h
  have hsecond := congrArg (fun l => l.getD 1 0) h
  exact absurd hsecond (by simp [objectPath, snapshotPath, ascii])

theorem objectPath_ne_key (a : Bytes) : objectPath a ≠ ascii "/key" := by
  intro heq
  have hsecond := congrArg (fun l => l.getD 1 0) heq
  exact absurd hsecond (by simp [objectPath, ascii])

theorem Stored.update_snapshot {keys : RepositoryKeys} {c : Contents} {file : Bytes × LocalFile}
    (h : Stored E keys c file) (name : Bytes) (b : Option Bytes) :
    Stored E keys (Function.update c (snapshotPath name) b) file := by
  obtain ⟨bits, blocks, hblocks, hall⟩ := h
  refine ⟨bits, blocks, hblocks, fun block hblock => ?_⟩
  obtain ⟨iv, hiv⟩ := hall block hblock
  exact ⟨iv, (Function.update_of_ne (objectPath_ne_snapshotPath _ _) _ _).trans hiv⟩

/-- **Restore without packs.**  A sequence of uploads of files with distinct
paths, to a store that earlier uploads may have left objects in, returns.
From the snapshot every file is restored under its normalised path; and when
the snapshot is committed and loaded, its entries are the files, one each, and
every file is restored under the path of its entry. -/
theorem uploadAll_restores (hC : E.C.Lawful) (hsane : E.options.Sane) {s : Session δ}
    (hs : M.Ok s.store) (hempty : ∀ name, M.contents s.store (objectPath name) = none)
    (earlier files : List (Bytes × LocalFile))
    (hearlier : ∀ file ∈ earlier, (entryOf E s.keys file).objectIds.length ≤ 65535)
    (hfiles : Uploadable E s.keys files)
    (hinj : Set.InjOn (E.C.hmacSha256 (s.keys.mHashKey.toList.take SHA256_DIGEST_LENGTH))
      { x | ∃ file ∈ earlier ++ files, x ∈ file.2.fed E s.keys })
    (progress : FileTransferProgressFunction) (name : Bytes) {storeProgress : ProgressFunction}
    (hprog : ∀ i j, storeProgress i j = true) :
    ∃ s₁ s₂, uploadAll E progress earlier s = ok () s₁ ∧
      uploadAll E progress files { s₁ with snapshot := .new } = ok () s₂ ∧
      (∀ file ∈ files, Restores E M s₂.snapshot s₂ (normalizedPath file.1) file.2.content) ∧
      ∃ s₃, commitSnapshot E s₂.snapshot name storeProgress s₂ = ok () s₃ ∧
        ∃ n, ∀ fuel ≥ n, ∃ loaded s₄, loadSnapshot E fuel name storeProgress s₃ = ok loaded s₄ ∧
          ∃ entries : List FileEntry, entries.Perm loaded.forEachFileEntry ∧
            List.Forall₂ (RestoredAs M E loaded s₄) files entries := by
  have hsound : Sound E.C s.keys { x | ∃ file ∈ earlier ++ files, x ∈ file.2.fed E s.keys }
      (M.contents s.store) := by
    intro t block _ bytes hbytes
    exact absurd (hbytes.symm.trans (hempty _)) (by simp)
  -- what is left of the earlier uploads is that the store is sound
  obtain ⟨d₁, n₁, hrun₁, hd₁, hsound₁, -, -⟩ := uploadAll_run M hC hsane hinj progress earlier
    rfl hs hsound fun file hfile =>
      ⟨fun x hx => ⟨file, List.mem_append_left files hfile, hx⟩, hearlier file hfile⟩
  obtain ⟨d₂, n₂, hrun₂, hd₂, -, -, hstored⟩ := uploadAll_run M hC hsane hinj progress
    files (s := { s with store := d₁, randomUsed := n₁, snapshot := .new }) rfl hd₁ hsound₁
    fun file hfile => ⟨fun x hx => ⟨file, List.mem_append_right earlier hfile, hx⟩,
      hfiles.count file hfile⟩
  -- the commit adds an object that is none of the files'
  obtain ⟨d₃, n₃, iv, hcommit, hd₃, hcont₃⟩ := commitSnapshot_run M hC
    (s := { s with store := d₂, randomUsed := n₂, snapshot := fileSnapshot E s.keys files }) hd₂
    (Snapshot.build_built hfiles.goodOps).1 name hprog
  obtain ⟨loaded, hreads, hloaded, entries, hperm, hentries⟩ := hfiles.load hsane
    (RewindableStream.source (Snapshot.snapshotBytes (fileSnapshot E s.keys files))
      (σ := TempInputStream))
  refine ⟨_, _, hrun₁, hrun₂, ?_, _, hcommit,
    (Snapshot.snapshotBytes (fileSnapshot E s.keys files)).length +
      objectSize E.C .LZMA2 (Snapshot.snapshotBytes (fileSnapshot E s.keys files)), ?_⟩
  · intro file hfile
    obtain ⟨fe, hfind, hdesc⟩ := hfiles.find hfile
    exact (hstored file hfile).restores M hC hsane (s := { s with
      store := d₂
      randomUsed := n₂
      snapshot := fileSnapshot E s.keys files }) hd₂ hfiles.small.2 hfind hdesc
  · intro fuel hfuel
    obtain ⟨d₄, hload, hd₄, hcont₄⟩ := loadSnapshot_run M hC (s := { s with
      store := d₃
      randomUsed := n₃
      snapshot := fileSnapshot E s.keys files }) hd₃
      (by rw [hcont₃]; exact Function.update_self _ _ _) hreads hprog hfuel
    refine ⟨loaded, _, hload, entries, hperm, ?_⟩
    -- neither the commit nor the load has touched the blocks
    rw [List.forall₂_iff_zip] at hentries ⊢
    refine ⟨hentries.1, fun {file fe} hzip => ?_⟩
    obtain ⟨hfind, hdesc⟩ := hentries.2 hzip
    refine restoredAs M hC hsane (s := { s with
      store := d₄
      randomUsed := n₃
      snapshot := fileSnapshot E s.keys files }) hd₄ hloaded ?_ hfind hdesc
    show Stored E s.keys (M.contents d₄) file
    rw [hcont₄, hcont₃]
    exact (hstored file (List.of_mem_zip hzip).1).update_snapshot name _

end Restore

/-! ### Two pictures -/

/-- What the HMAC is fed for a picture. -/
theorem picture_fed (C : Crypto) {content : Bytes} (h : content.length < 2 ^ 64)
    (hsmall : content.length < 512000) : (picture content h).fed (zeroEnv C) zeroKeys = [0 :: content] := by
  rw [LocalFile.fed, picture_blocks C h hsmall]
  rfl

theorem picture_entry (C : Crypto) (path : Bytes) {content : Bytes} (h : content.length < 2 ^ 64)
    (hsmall : content.length < 512000) : entryOf (zeroEnv C) zeroKeys (path, picture content h) =
      (picture content h).args (zeroEnv C) zeroKeys path 0 [content] := by
  rw [entryOf, picture_blocks C h hsmall]

theorem picture_count (C : Crypto) (path : Bytes) {content : Bytes} (h : content.length < 2 ^ 64)
    (hsmall : content.length < 512000) :
    (entryOf (zeroEnv C) zeroKeys (path, picture content h)).objectIds.length ≤ 65535 := by
  rw [picture_entry C path h hsmall]
  exact Nat.le_of_ble_eq_true rfl

/-- The names of a picture are C strings. -/
theorem picture_nulFree {path content : Bytes} (hpath : 0 ∉ path) (h : content.length < 2 ^ 64) :
    0 ∉ path ∧ 0 ∉ (picture content h).info.mUserName ∧ 0 ∉ (picture content h).info.mGroupName :=
  ⟨hpath, by show 0 ∉ ascii "user"; decide, by show 0 ∉ ascii "group"; decide⟩

theorem pictures_entries (C : Crypto) : pictures.map (entryOf (zeroEnv C) zeroKeys) =
    [letterPicture.args (zeroEnv C) zeroKeys (ascii "x/a.png") 0 [[97]],
      wordPicture.args (zeroEnv C) zeroKeys (ascii "x/b.png") 0 [[97, 98]]] := by
  show [entryOf _ _ (ascii "x/a.png", letterPicture), entryOf _ _ (ascii "x/b.png", wordPicture)] = _
  rw [letterPicture, wordPicture, picture_entry C _ _ (by decide), picture_entry C _ _ (by decide)]

theorem pictures_uploadable (C : Crypto) : Uploadable (zeroEnv C) zeroKeys pictures where
  nulFree file hfile := by
    rcases List.mem_pair.mp hfile with rfl | rfl
    · exact picture_nulFree (by decide) (by decide)
    · exact picture_nulFree (by decide) (by decide)
  distinct := by decide
  count file hfile := by
    rcases List.mem_pair.mp hfile with rfl | rfl
    · exact picture_count C _ (by decide) (by decide)
    · exact picture_count C _ (by decide) (by decide)
  room := by
    show ((pictures.map (entryOf (zeroEnv C) zeroKeys)).map AddArgs.room).sum < 2 ^ 31
    rw [pictures_entries]
    show 5 + 1 + 4 + 5 + 16 + (5 + 1 + 4 + 5 + 16 + 0) < 2 ^ 31
    decide
  ids := by
    show ((pictures.map (entryOf (zeroEnv C) zeroKeys)).map fun a => a.objectIds.length).sum < 2 ^ 31
    rw [pictures_entries]
    show 1 + (1 + 0) < 2 ^ 31
    decide

/-- One of the pictures was uploaded before, under another path, and its object is
found when both are uploaded; both are restored. -/
theorem uploadAll_restores_pictures :
    ∃ s₁ s₂, uploadAll (zeroEnv pictureTables.crypto) DefaultFileTransferProgressFunction
        [(ascii "old.png", letterPicture)] emptySession = ok () s₁ ∧
      uploadAll (zeroEnv pictureTables.crypto) DefaultFileTransferProgressFunction pictures
        { s₁ with snapshot := .new } = ok () s₂ ∧
      Restores (zeroEnv pictureTables.crypto) FileDataStore.storeModel s₂.snapshot s₂
        (normalizedPath (ascii "x/a.png")) [97] ∧
      Restores (zeroEnv pictureTables.crypto) FileDataStore.storeModel s₂.snapshot s₂
        (normalizedPath (ascii "x/b.png")) [97, 98] := by
  have hfed : ∀ f ∈ [(ascii "old.png", letterPicture)] ++ pictures,
      f.2.fed (zeroEnv pictureTables.crypto) emptySession.keys = [[0, 97]] ∨
        f.2.fed (zeroEnv pictureTables.crypto) emptySession.keys = [[0, 97, 98]] := by
    have hletter : letterPicture.fed (zeroEnv pictureTables.crypto) zeroKeys = [[0, 97]] :=
      picture_fed _ _ (by decide)
    have hword : wordPicture.fed (zeroEnv pictureTables.crypto) zeroKeys = [[0, 97, 98]] :=
      picture_fed _ _ (by decide)
    intro f hf
    rcases List.mem_cons.mp hf with rfl | hf
    · exact Or.inl hletter
    · rcases List.mem_pair.mp hf with rfl | rfl
      · exact Or.inl hletter
      · exact Or.inr hword
  -- two strings are fed, and their digests differ
  have hdiffer : (zeroEnv pictureTables.crypto).C.hmacSha256
      (emptySession.keys.mHashKey.toList.take SHA256_DIGEST_LENGTH) [0, 97] ≠
      (zeroEnv pictureTables.crypto).C.hmacSha256
        (emptySession.keys.mHashKey.toList.take SHA256_DIGEST_LENGTH) [0, 97, 98] := by
    decide +kernel
  have hinj : Set.InjOn ((zeroEnv pictureTables.crypto).C.hmacSha256
      (emptySession.keys.mHashKey.toList.take SHA256_DIGEST_LENGTH))
      { x | ∃ file ∈ [(ascii "old.png", letterPicture)] ++ pictures,
        x ∈ file.2.fed (zeroEnv pictureTables.crypto) emptySession.keys } := by
    rintro x ⟨f, hf, hx⟩ y ⟨g, hg, hy⟩ heq
    rcases hfed f hf with hf | hf <;> rcases hfed g hg with hg | hg <;>
      (rw [hf, List.mem_singleton] at hx; rw [hg, List.mem_singleton] at hy; subst hx hy)
    · rfl
    · exact absurd heq hdiffer
    · exact absurd heq.symm hdiffer
    · rfl
  obtain ⟨s₁, s₂, hrun₁, hrun₂, hall, -⟩ := uploadAll_restores FileDataStore.storeModel
    pictureTables.crypto_lawful Options.default_sane emptySession_ok (fun _ => rfl)
    [(ascii "old.png", letterPicture)] pictures
    (fun file hfile => by
      rw [List.mem_singleton.mp hfile]
      exact picture_count _ _ (by decide) (by decide))
    (pictures_uploadable _) hinj DefaultFileTransferProgressFunction (ascii "s")
    (show ∀ i j, DefaultProgressFunction i j = true from fun _ _ => rfl)
  exact ⟨s₁, s₂, hrun₁, hrun₂, hall _ List.mem_cons_self, hall _ (List.mem_cons_of_mem _ List.mem_cons_self)⟩

end Nebula
