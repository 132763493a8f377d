/-
From a backup to the files that can be restored.

A snapshot that was committed is `Restorable` when its parts are in the store
under the entries that it has for them.  Main results:

* `backupFiles_restorable` — a backup whose packs are new to the store returns
  and leaves its snapshot restorable;
* `Restorable.load` — a restorable snapshot can be loaded, and its entries lead
  to the files, one each.
-/
import NebulaBackup.CommandLine
import NebulaBackup.BackupParts
import NebulaBackup.Unlock

namespace Nebula

open EStateM.Result Hoare
open Nebula.Path

/-! ### The snapshot of a backup -/

/-- What is asked of the calls of `addFileEntry` that fill a snapshot: distinct
normalised paths, C strings, and tables below the `int` indices. -/
structure Loadable (adds : List AddArgs) : Prop where
  good : ∀ a ∈ adds, Snapshot.StoredName a.path ∧ Snapshot.NulFree a ∧ a.objectIds.length ≤ 65535
  distinct : (adds.map AddArgs.path).Nodup
  room : (adds.map AddArgs.room).sum < 2 ^ 31
  ids : (adds.map fun a => a.objectIds.length).sum < 2 ^ 31
  count : adds.length < 2 ^ 31

/-- The snapshot that the calls fill. -/
def snapshotOf (adds : List AddArgs) : Snapshot := Snapshot.build (adds.map .add)

section Loading

variable {adds : List AddArgs}

theorem Loadable.small (h : Loadable adds) : (snapshotOf adds).Small :=
  Snapshot.build_small h.room h.ids

theorem Loadable.goodOps (h : Loadable adds) :
    Snapshot.GoodOps (adds.map Snapshot.SnapshotOp.add) := by
  intro a ha
  obtain ⟨b, hb, heq⟩ := List.mem_map.mp ha
  rw [Snapshot.SnapshotOp.add.injEq] at heq
  subst heq
  exact ⟨(h.good b hb).1, (h.good b hb).2.1⟩

/-- **The snapshot after it was loaded**: an entry for each call, found under the
path that is put together from parent and name. -/
theorem Loadable.load (h : Loadable adds) {σ : Type} [InputStream σ] {R : σ → Bytes → Prop}
    (hR : Source R) :
    ∃ loaded : Snapshot, Reads R (Snapshot.load .new) (Snapshot.snapshotBytes (snapshotOf adds)) loaded ∧
      loaded.Small ∧ ∃ entries : List FileEntry, entries.Perm loaded.forEachFileEntry ∧
        List.Forall₂ (fun a fe => loaded.getFileEntry (Snapshot.rekey a.path) = some fe ∧
          Snapshot.Describes loaded fe a) adds entries := by
  obtain ⟨entries, hperm, hall⟩ := Snapshot.build_entries (fun a ha => (h.good a ha).2) h.distinct
    h.small
  have hsize : (snapshotOf adds).mFiles.size < 2 ^ 31 := by
    rw [SortedMap.size, show (snapshotOf adds).mFiles.entries.length = entries.length from
      hperm.length_eq.symm, ← hall.length_eq]
    exact h.count
  obtain ⟨loaded, hreads, hbuf, hobj, hloaded⟩ := Snapshot.load_built hR h.goodOps h.small hsize
  -- the loaded tables are those that were saved, so descriptions carry over
  have hext : Snapshot.Extends (snapshotOf adds) loaded := by
    rw [Snapshot.Extends, hbuf, hobj]
    exact Snapshot.Extends.refl _
  refine ⟨loaded, hreads, ?_, entries.map Prod.snd, ?_, ?_⟩
  · rw [Snapshot.Small, hbuf, hobj]
    exact h.small
  · have hvalues := hloaded.map Prod.snd
    rw [List.map_map] at hvalues
    exact (hperm.map Prod.snd).trans hvalues.symm
  · rw [List.forall₂_map_right_iff]
    rw [List.forall₂_iff_zip] at hall ⊢
    refine ⟨hall.1, fun {a e} hzip => ?_⟩
    obtain ⟨hpath, hdesc⟩ := hall.2 hzip
    have hmem := hperm.mem_iff.mp (List.of_mem_zip hzip).2
    refine ⟨?_, hdesc.of_extends hext⟩
    exact (Snapshot.find?_rekeyed hloaded _ _).mpr
      ⟨e.1, SortedMap.mem_entries_iff.mp hmem, by rw [hpath]⟩

end Loading

/-! ### The files of the parts -/

section Parts

variable {δ : Type} [DataStore δ] (M : StoreModel δ) {E : Env}

/-- The entry of a file leads to it: found under its path, it is restored. -/
def Leads (E : Env) (loaded : Snapshot) (s : Session δ) (a : AddArgs) (file : Bytes × LocalFile) :
    Prop :=
  a.path = file.1 ∧ ∀ fe, loaded.getFileEntry (Snapshot.rekey a.path) = some fe →
    Snapshot.Describes loaded fe a →
    Restores E M loaded s (Snapshot.rekey a.path) file.2.content ∧
      fe.md5 = E.C.md5 file.2.content

/-- The entry of a large file. -/
theorem leads_large (hC : E.C.Lawful) (hsane : E.options.Sane) {s : Session δ} (hs : M.Ok s.store)
    {loaded : Snapshot} (hsmall : loaded.Small) {file : Bytes × LocalFile}
    (hstored : Stored E s.keys (M.contents s.store) file) :
    Leads M E loaded s (entryOf E s.keys file) (normalizedFile file) := by
  refine ⟨entryOf_path E s.keys file, fun fe hfind hdesc => ?_⟩
  refine ⟨hstored.restores M hC hsane hs hsmall.2 hfind hdesc, ?_⟩
  rw [hdesc.md5, entryOf]
  split <;> rfl

/-- **The entry of a member of a pack** has the range of its object. -/
theorem leads_member (hC : E.C.Lawful) {s : Session δ} (hs : M.Ok s.store) {loaded : Snapshot}
    (hsmall : loaded.Small) {files : List (Bytes × LocalFile)} {objects : List Bytes}
    (hobjects : MemberObjects E.C s.keys files objects)
    (hstored : M.contents s.store (packPath E.C s.keys files) = some objects.flatten)
    (hsum : (memberSizes E.C files).sum < 2 ^ 32) {m : (Bytes × LocalFile) × (UInt32 × UInt32)}
    (hm : m ∈ files.zip (uploadedRanges E.C files)) :
    Leads M E loaded s
      (memberArgs E.C (packId E.C s.keys (files.map fun file => file.2.content)) m) m.1 := by
  refine ⟨rfl, fun fe hfind hdesc => ⟨?_, hdesc.md5⟩⟩
  have hoffset : fe.offset = m.2.1 := hdesc.offset
  have hlength : fe.packLength = m.2.2 := hdesc.packLength
  obtain ⟨iv, hpos, hin, hrange⟩ := packOffsets_contains hC [] hobjects (by simpa using hsum) m hm
  rw [← hoffset, ← hlength, List.nil_append] at hin hrange
  rw [← hlength] at hpos
  have hpart : HasPart E.C s.keys (compressionFor m.1.2.info) fe (M.contents s.store)
      (packId E.C s.keys (files.map fun file => file.2.content)) m.1.2.content := by
    refine ⟨objects.flatten, hstored, iv, ?_⟩
    rw [if_pos hpos]
    exact ⟨hin, hrange⟩
  have hrestores := downloadFile_restores M hC hs hsmall.2 hfind hdesc
    (by simp [memberArgs, PackFileInfo.args]) (.cons hpart .nil)
  rwa [List.flatten_singleton] at hrestores

/-- A part whose ranges fit into 32 bits is in the store. -/
def BackupPart.Whole (E : Env) (keys : RepositoryKeys) (c : Contents) (part : BackupPart) : Prop :=
  part.InStore E keys c ∧ ∀ files, part = .pack files → (memberSizes E.C files).sum < 2 ^ 32

/-- **The entries of a part lead to its files.** -/
theorem BackupPart.Whole.leads (hC : E.C.Lawful) (hsane : E.options.Sane) {s : Session δ}
    (hs : M.Ok s.store) {loaded : Snapshot} (hsmall : loaded.Small) {part : BackupPart}
    (h : part.Whole E s.keys (M.contents s.store)) :
    List.Forall₂ (Leads M E loaded s) (part.adds E s.keys) part.files := by
  cases part with
  | large file => exact .cons (leads_large M hC hsane hs hsmall h.1) .nil
  | pack files =>
    obtain ⟨⟨objects, hobjects, hstored⟩, hsum⟩ := h
    have hlen : (uploadedRanges E.C files).length = files.length := by
      rw [uploadedRanges, packOffsets_length, memberSizes, List.length_map]
    have hfst : (files.zip (uploadedRanges E.C files)).map Prod.fst = files :=
      List.map_fst_zip (le_of_eq hlen.symm)
    have hall : List.Forall₂ (Leads M E loaded s)
        ((files.zip (uploadedRanges E.C files)).map
          (memberArgs E.C (packId E.C s.keys (files.map fun file => file.2.content))))
        ((files.zip (uploadedRanges E.C files)).map Prod.fst) := by
      rw [List.forall₂_map_left_iff, List.forall₂_map_right_iff, List.forall₂_same]
      exact fun m hm => leads_member M hC hs hsmall hobjects hstored (hsum files rfl) hm
    rwa [hfst] at hall

/-- The entries of all parts lead to all files. -/
theorem parts_lead (hC : E.C.Lawful) (hsane : E.options.Sane) {s : Session δ} (hs : M.Ok s.store)
    {loaded : Snapshot} (hsmall : loaded.Small) :
    ∀ {parts : List BackupPart}, (∀ part ∈ parts, part.Whole E s.keys (M.contents s.store)) →
      List.Forall₂ (Leads M E loaded s) (addsOf E s.keys parts) (parts.flatMap BackupPart.files) := by
  intro parts
  induction parts with
  | nil =>
    intro _
    exact .nil
  | cons part parts ih =>
    intro hparts
    have hrest := ih fun p hp => hparts p (List.mem_cons_of_mem part hp)
    rw [addsOf, List.flatMap_cons, List.flatMap_cons]
    exact List.rel_append ((hparts part List.mem_cons_self).leads M hC hsane hs hsmall) hrest

end Parts

/-! ### Snapshots that can be restored -/

/-- The store has a snapshot of the name, and what it has entries for: the
files, under their normalised paths. -/
def Restorable (E : Env) (keys : RepositoryKeys) (c : Contents) (name : Bytes)
    (files : List (Bytes × LocalFile)) : Prop :=
  ∃ parts iv, (parts.flatMap BackupPart.files).Perm files ∧ Loadable (addsOf E keys parts) ∧
    (∀ part ∈ parts, part.Whole E keys c) ∧
    c (snapshotPath name) = some (sealedWith E.C keys .LZMA2 iv
      (Snapshot.snapshotBytes (snapshotOf (addsOf E keys parts))))

theorem BackupPart.InStore.of_objects {E : Env} {keys : RepositoryKeys} {c c' : Contents}
    {part : BackupPart} (h : part.InStore E keys c)
    (hobjects : ∀ objectId bytes, c (objectPath (objectName objectId)) = some bytes →
      c' (objectPath (objectName objectId)) = some bytes) : part.InStore E keys c' := by
  cases part with
  | large file =>
    obtain ⟨bits, blocks, hblocks, hstored⟩ := h
    refine ⟨bits, blocks, hblocks, fun block hblock => ?_⟩
    obtain ⟨iv, hiv⟩ := hstored block hblock
    exact ⟨iv, hobjects _ _ hiv⟩
  | pack files =>
    obtain ⟨objects, hmembers, hstored⟩ := h
    exact ⟨objects, hmembers, hobjects _ _ hstored⟩

/-- **A snapshot stays restorable** as long as it is not replaced and no object
changes. -/
theorem Restorable.mono {E : Env} {keys : RepositoryKeys} {c c' : Contents} {name : Bytes}
    {files : List (Bytes × LocalFile)} (h : Restorable E keys c name files)
    (hobjects : ∀ objectId bytes, c (objectPath (objectName objectId)) = some bytes →
      c' (objectPath (objectName objectId)) = some bytes)
    (hsnapshot : c' (snapshotPath name) = c (snapshotPath name)) :
    Restorable E keys c' name files := by
  obtain ⟨parts, iv, hperm, hload, hwhole, hstored⟩ := h
  refine ⟨parts, iv, hperm, hload, fun part hpart => ?_, hsnapshot.trans hstored⟩
  exact ⟨(hwhole part hpart).1.of_objects hobjects, (hwhole part hpart).2⟩

/-- The entry of a file: it is found under the path of the file, its strings are
the parent and the name, and the path restores the content. -/
structure EntryFor {δ : Type} [DataStore δ] (M : StoreModel δ) (E : Env) (loaded : Snapshot)
    (s : Session δ) (file : Bytes × LocalFile) (fe : FileEntry) : Prop where
  find : loaded.getFileEntry (Snapshot.rekey file.1) = some fe
  parent : loaded.indexToString (toInt fe.pathIndex) = .ok (parent_path file.1)
  name : loaded.indexToString (toInt fe.nameIndex) = .ok (filename file.1)
  path : parent_path file.1 ++ separator :: filename file.1 = Snapshot.rekey file.1
  restores : Restores E M loaded s (Snapshot.rekey file.1) file.2.content
  md5 : fe.md5 = E.C.md5 file.2.content

section Load

variable {δ : Type} [DataStore δ] (M : StoreModel δ) {E : Env}

/-- **A restorable snapshot can be loaded**, and its entries lead to the files,
one each. -/
theorem Restorable.load (hC : E.C.Lawful) (hsane : E.options.Sane) {s : Session δ}
    (hs : M.Ok s.store) {name : Bytes} {files : List (Bytes × LocalFile)}
    (h : Restorable E s.keys (M.contents s.store) name files) {progress : ProgressFunction}
    (hprog : ∀ i j, progress i j = true) :
    ∃ loaded n, ∀ fuel ≥ n, ∃ d, loadSnapshot E fuel name progress s = ok loaded { s with store := d } ∧
      M.Ok d ∧ M.contents d = M.contents s.store ∧
      ∃ (entries : List FileEntry) (files' : List (Bytes × LocalFile)),
        entries.Perm loaded.forEachFileEntry ∧ files'.Perm files ∧
        List.Forall₂ (EntryFor M E loaded { s with store := d }) files' entries := by
  obtain ⟨parts, iv, hperm, hload, hwhole, hstored⟩ := h
  obtain ⟨loaded, hreads, hsmall, entries, hentries, hall⟩ := hload.load
    (RewindableStream.source (Snapshot.snapshotBytes (snapshotOf (addsOf E s.keys parts)))
      (σ := TempInputStream))
  refine ⟨loaded, (Snapshot.snapshotBytes (snapshotOf (addsOf E s.keys parts))).length +
    objectSize E.C .LZMA2 (Snapshot.snapshotBytes (snapshotOf (addsOf E s.keys parts))), ?_⟩
  intro fuel hfuel
  obtain ⟨d, hrun, hd, hcont⟩ := loadSnapshot_run M hC hs hstored hreads hprog hfuel
  refine ⟨d, hrun, hd, hcont, entries, parts.flatMap BackupPart.files, hentries, hperm, ?_⟩
  have hwhole' : ∀ part ∈ parts, part.Whole E s.keys (M.contents d) := by
    rw [hcont]
    exact hwhole
  have hlead : List.Forall₂ (Leads M E loaded { s with store := d }) (addsOf E s.keys parts)
      (parts.flatMap BackupPart.files) :=
    parts_lead M hC hsane (s := { s with store := d }) hd hsmall hwhole'
  -- both lists go with the calls, place by place
  rw [List.forall₂_iff_get] at hlead hall ⊢
  refine ⟨hlead.1.symm.trans hall.1, fun i hi hi' => ?_⟩
  have hia : i < (addsOf E s.keys parts).length := by
    rw [hlead.1]
    exact hi
  obtain ⟨hpath, hrestores⟩ := hlead.2 i hia hi
  obtain ⟨hfind, hdesc⟩ := hall.2 i hia hi'
  obtain ⟨hget, hmd5⟩ := hrestores _ hfind hdesc
  rw [hpath] at hfind hget
  have hstoredName := (hload.good _ (List.get_mem (addsOf E s.keys parts) ⟨i, hia⟩)).1
  rw [hpath] at hstoredName
  refine ⟨hfind, ?_, ?_, Snapshot.parent_append_filename hstoredName, hget, hmd5⟩
  · rw [← hpath]
    exact Snapshot.indexToString_of_cstrAt hsmall.1 hdesc.parent
  · rw [← hpath]
    exact Snapshot.indexToString_of_cstrAt hsmall.1 hdesc.name

end Load

/-! ### The backup -/

/-- The file as a backup comes to it. -/
def entryFile (file : Bytes × LocalFile) : Bytes × LocalEntry :=
  (file.1, ⟨file.2.info, some file.2.content⟩)

section Backup

variable {δ : Type} [DataStore δ] {E : Env}

theorem runCommands_append : ∀ ops ops' : List PackOp, (runCommands E (ops ++ ops') : Command δ Unit) =
    (runCommands E ops >>= fun _ => runCommands E ops') := by
  intro ops ops'
  induction ops with
  | nil =>
    rw [List.nil_append, runCommands, pure_bind]
  | cons op ops ih =>
    rw [List.cons_append, runCommands, runCommands, ih, bind_assoc]

theorem backupAll_eq {options : CliOptions} (hdry : options.dryRun = false)
    (progress : ℕ → FileTransferProgressFunction) : ∀ (files : List (Bytes × LocalFile)) (i : ℕ),
    (backupAll E options progress i (files.map entryFile) >>= fun _ =>
      finalizePack E DefaultFileTransferProgressFunction : Command δ Unit) =
      runCommands E (argOps progress i files) := by
  intro files
  induction files with
  | nil =>
    intro i
    rw [List.map_nil, backupAll, pure_bind, argOps, runCommands]
    funext s
    cases h : finalizePack E DefaultFileTransferProgressFunction s with
    | ok a s' => exact (run_step h rfl).symm
    | error e s' => exact (run_error h).symm
  | cons file files ih =>
    intro i
    have hfile : (backupFile E options file.1 ⟨file.2.info, some file.2.content⟩ (progress i) :
        Command δ Unit) = uploadFilePacked E file.1 file.2.info (.openRead file.2.content) (progress i) := by
      rw [backupFile, if_neg (by simp [hdry])]
    rw [List.map_cons, argOps, runCommands, ← ih (i + 1)]
    show ((backupFile E options file.1 ⟨file.2.info, some file.2.content⟩ (progress i) >>= fun _ =>
      backupAll E options progress (i + 1) (files.map entryFile)) >>= _) = _
    rw [bind_assoc, hfile]
    rfl

/-- **The loops of `backupFiles`** make these calls. -/
theorem backupArgs_eq {options : CliOptions} (hdry : options.dryRun = false)
    (progress : ℕ → ℕ → FileTransferProgressFunction) : ∀ {args : List (Bytes × LocalArg)}
    {files : List (List (Bytes × LocalFile))} (i : ℕ),
    args.map (fun a => a.2.files a.1) = files.map (List.map entryFile) →
    (backupArgs E options progress i args : Command δ Unit) =
      runCommands E (backupOps progress i files) := by
  intro args
  induction args with
  | nil =>
    intro files i h
    obtain rfl := List.map_eq_nil_iff.mp h.symm
    rfl
  | cons arg args ih =>
    intro files i h
    cases files with
    | nil => exact absurd h (by simp)
    | cons first rest =>
      rw [List.map_cons, List.map_cons, List.cons.injEq] at h
      rw [backupOps, runCommands_append, ← backupAll_eq hdry, ← ih (i + 1) h.2, ← h.1, bind_assoc]
      rfl

/-- The calls of a backup ask nobody who cancels. -/
theorem backupOps_neverCancels {progress : ℕ → ℕ → FileTransferProgressFunction}
    (hprog : ∀ i j a b x y, progress i j a b x y = true) :
    ∀ (files : List (List (Bytes × LocalFile))) (i : ℕ),
      ∀ op ∈ backupOps progress i files, op.NeverCancels := by
  have harg : ∀ (i : ℕ) (files : List (Bytes × LocalFile)) (j : ℕ),
      ∀ op ∈ argOps (progress i) j files, op.NeverCancels := by
    intro i files
    induction files with
    | nil =>
      intro j op hop
      rw [List.mem_singleton.mp hop]
      exact fun _ _ _ _ => rfl
    | cons file files ih =>
      intro j op hop
      rcases List.mem_cons.mp hop with rfl | hop
      · exact hprog i j
      · exact ih (j + 1) op hop
  intro files
  induction files with
  | nil =>
    intro i op hop
    exact absurd hop List.not_mem_nil
  | cons file files ih =>
    intro i op hop
    rcases List.mem_append.mp hop with hop | hop
    · exact harg i file 0 op hop
    · exact ih (i + 1) op hop

end Backup

/-- The parts of a backup of files, argument by argument. -/
def backupParts (E : Env) (keys : RepositoryKeys) (files : List (List (Bytes × LocalFile))) :
    List BackupPart :=
  partsFrom E keys none [] (backupOps (fun _ _ => DefaultFileTransferProgressFunction) 0 files)

/-- The parts do not depend on the callbacks. -/
theorem partsFrom_backupOps (E : Env) (keys : RepositoryKeys)
    (progress progress' : ℕ → ℕ → FileTransferProgressFunction) :
    ∀ (files : List (List (Bytes × LocalFile))) (i : ℕ) (hash : Option RollingHash)
      (pending : List (Bytes × LocalFile)),
      partsFrom E keys hash pending (backupOps progress i files) =
        partsFrom E keys hash pending (backupOps progress' i files) := by
  have harg : ∀ (p p' : ℕ → FileTransferProgressFunction) {ops ops' : List PackOp},
      (∀ hash pending, partsFrom E keys hash pending ops = partsFrom E keys hash pending ops') →
      ∀ (files : List (Bytes × LocalFile)) (j : ℕ) (hash : Option RollingHash)
        (pending : List (Bytes × LocalFile)),
        partsFrom E keys hash pending (argOps p j files ++ ops) =
          partsFrom E keys hash pending (argOps p' j files ++ ops') := by
    intro p p' ops ops' hops files
    induction files with
    | nil =>
      intro j hash pending
      cases hash with
      | none => exact hops none pending
      | some r => exact congrArg (BackupPart.pack pending :: ·) (hops none [])
    | cons file files ih =>
      intro j hash pending
      show partsFrom E keys hash pending (.upload file.1 file.2 (p j) ::
          (argOps p (j + 1) files ++ ops)) =
        partsFrom E keys hash pending (.upload file.1 file.2 (p' j) ::
          (argOps p' (j + 1) files ++ ops'))
      rw [partsFrom, partsFrom, ih (j + 1) hash pending]
      split
      · split
        · rw [ih (j + 1) none []]
        · rw [ih (j + 1)]
      · rfl
  intro files
  induction files with
  | nil =>
    intro i hash pending
    rfl
  | cons first rest ih =>
    intro i hash pending
    exact harg _ _ (fun h p => ih (i + 1) h p) first 0 hash pending

/-! ### What is recorded -/

/-- The entry has the path of the file and its attributes. -/
structure Names (a : AddArgs) (file : Bytes × LocalFile) : Prop where
  path : a.path = file.1
  user : a.user = file.2.info.mUserName
  group : a.group = file.2.info.mGroupName
  type : a.type = file.2.info.mType
  mode : a.mode = file.2.info.mMode
  size : a.size = file.2.info.mLength

theorem BackupPart.adds_names (E : Env) (keys : RepositoryKeys) (part : BackupPart) :
    List.Forall₂ Names (part.adds E keys) part.files := by
  cases part with
  | large file =>
    refine .cons ?_ .nil
    rw [entryOf]
    split <;> exact ⟨rfl, rfl, rfl, rfl, rfl, rfl⟩
  | pack files =>
    have hlen : files.length ≤ (uploadedRanges E.C files).length := by
      rw [uploadedRanges, packOffsets_length, memberSizes, List.length_map]
    have hfst : (files.zip (uploadedRanges E.C files)).map Prod.fst = files := List.map_fst_zip hlen
    have hall : List.Forall₂ Names
        ((files.zip (uploadedRanges E.C files)).map
          (memberArgs E.C (packId E.C keys (files.map fun file => file.2.content))))
        ((files.zip (uploadedRanges E.C files)).map Prod.fst) := by
      rw [List.forall₂_map_left_iff, List.forall₂_map_right_iff, List.forall₂_same]
      exact fun m _ => ⟨rfl, rfl, rfl, rfl, rfl, rfl⟩
    rwa [hfst] at hall

theorem addsOf_names (E : Env) (keys : RepositoryKeys) : ∀ parts : List BackupPart,
    List.Forall₂ Names (addsOf E keys parts) (parts.flatMap BackupPart.files) := by
  intro parts
  induction parts with
  | nil => exact .nil
  | cons part parts ih =>
    rw [addsOf, List.flatMap_cons, List.flatMap_cons]
    exact List.rel_append (part.adds_names E keys) ih

/-- What is asked of the files of a backup, apart from the store: C strings,
distinct normalised paths, and tables below the `int` indices. -/
structure FitsSnapshot (E : Env) (keys : RepositoryKeys) (files : List (List (Bytes × LocalFile))) :
    Prop where
  nulFree : ∀ file ∈ files.flatten,
    0 ∉ file.1 ∧ 0 ∉ file.2.info.mUserName ∧ 0 ∉ file.2.info.mGroupName
  distinct : (files.flatten.map fun file => normalizedPath file.1).Nodup
  room : ((addsOf E keys (backupParts E keys files)).map AddArgs.room).sum < 2 ^ 31
  ids : ((addsOf E keys (backupParts E keys files)).map fun a => a.objectIds.length).sum < 2 ^ 31
  count : files.flatten.length < 2 ^ 31

/-- **The entries of a backup** fill a snapshot that can be loaded. -/
theorem FitsSnapshot.loadable {E : Env} {keys : RepositoryKeys} {files : List (List (Bytes × LocalFile))}
    (h : FitsSnapshot E keys files)
    (hids : ∀ file, .large file ∈ backupParts E keys files →
      (entryOf E keys file).objectIds.length ≤ 65535) :
    Loadable (addsOf E keys (backupParts E keys files)) := by
  have hperm : ((backupParts E keys files).flatMap BackupPart.files).Perm
      (files.flatten.map normalizedFile) := partsFrom_files E keys _ files 0
  have hnames := addsOf_names E keys (backupParts E keys files)
  refine ⟨fun a ha => ?_, ?_, h.room, h.ids, ?_⟩
  · -- the file that the entry is of
    obtain ⟨i, hi, rfl⟩ := List.mem_iff_getElem.mp ha
    have hi' : i < ((backupParts E keys files).flatMap BackupPart.files).length := by
      rw [← hnames.length_eq]
      exact hi
    obtain ⟨hpath, huser, hgroup, -, -, -⟩ := (List.forall₂_iff_get.mp hnames).2 i hi hi'
    have hmem := hperm.mem_iff.mp (List.getElem_mem hi')
    obtain ⟨file, hfile, hnorm⟩ := List.mem_map.mp hmem
    rw [List.get_eq_getElem, List.get_eq_getElem, ← hnorm] at hpath huser hgroup
    obtain ⟨hnul, hnulUser, hnulGroup⟩ := h.nulFree file hfile
    refine ⟨?_, ⟨?_, ?_, ?_⟩, ?_⟩
    · rw [hpath]
      exact normalizedPath_normal file.1
    · rw [hpath]
      exact normalizedPath_nul hnul
    · rw [huser]
      exact hnulUser
    · rw [hgroup]
      exact hnulGroup
    · obtain ⟨part, hpart, hadd⟩ := List.mem_flatMap.mp (List.getElem_mem hi)
      cases part with
      | large f =>
        rw [List.mem_singleton.mp hadd]
        exact hids f hpart
      | pack members =>
        obtain ⟨m, -, heq⟩ := List.mem_map.mp hadd
        rw [← heq]
        exact Nat.le_of_ble_eq_true rfl
  · have hpaths : (addsOf E keys (backupParts E keys files)).map AddArgs.path =
        ((backupParts E keys files).flatMap BackupPart.files).map Prod.fst :=
      List.forall₂_eq_eq_eq ▸ List.forall₂_map_left_iff.mpr
        (List.forall₂_map_right_iff.mpr (hnames.imp fun _ _ hn => hn.1))
    rw [hpaths, (hperm.map Prod.fst).nodup_iff, List.map_map]
    exact h.distinct
  · rw [hnames.length_eq, hperm.length_eq, List.length_map]
    exact h.count

/-! ### The whole command -/

theorem snapshotPath_ne_key (name : Bytes) : ascii "/key" ≠ snapshotPath name := by
  intro heq
  have hsecond := congrArg (fun l => l.getD 1 0) heq
  exact absurd hsecond (by simp [snapshotPath, ascii])

section Command

variable {δ : Type} [DataStore δ] {M : StoreModel δ} {E : Env} {keys : RepositoryKeys}
  {P F : Set Bytes} {password : Bytes} {s : Session δ} {options : CliOptions}
  {progress : ℕ → ℕ → FileTransferProgressFunction} {args : List (Bytes × LocalArg)}
  {files : List (List (Bytes × LocalFile))}

/-- The uploads of a backup return, and every part of it is stored and
recorded. -/
theorem backupUploads_run (hC : E.C.Lawful) (hsane : E.options.Sane) (hs : M.Ok s.store)
    (hkeys : s.keys = keys) (hdry : options.dryRun = false)
    (hprog : ∀ i j a b x y, progress i j a b x y = true)
    (hargs : args.map (fun a => a.2.files a.1) = files.map (List.map entryFile))
    (hinj : Set.InjOn (E.C.hmacSha256 (keys.mHashKey.toList.take SHA256_DIGEST_LENGTH)) F)
    (hsound : Sound E.C keys F (M.contents s.store))
    (hnew : Storable E keys F (backupParts E keys files) (M.contents s.store)) :
    ∃ s', backupUploads E options progress args s = ok () s' ∧ M.Ok s'.store ∧ s'.keys = keys ∧
      s'.snapshot = snapshotOf (addsOf E keys (backupParts E keys files)) ∧
      Grows (M.contents s.store) (M.contents s'.store) ∧
      ∀ part ∈ backupParts E keys files, part.InStore E keys (M.contents s'.store) := by
  have hparts : partsFrom E keys none [] (backupOps progress 0 files) = backupParts E keys files :=
    partsFrom_backupOps E keys _ _ files 0 none []
  have hstart : BackupInv M E keys F none [] { s with snapshot := .new, pack := .new } :=
    ⟨hs, hkeys, ⟨rfl, fun _ => rfl, fun h => absurd rfl h⟩, rfl, ⟨[], rfl, rfl⟩, rfl, hsound⟩
  rw [← hparts] at hnew
  obtain ⟨hash', pending', s', hrun, hinv, hstores⟩ := parts_run hC hsane hinj
    (backupOps progress 0 files) hstart (backupOps_neverCancels hprog files 0) hnew
  rw [hparts] at hstores
  rw [← backupArgs_eq hdry progress 0 hargs] at hrun
  exact ⟨s', hrun, hinv.store_ok, hinv.keys_eq, hstores.snapshot, hstores.grows, hstores.stored⟩

/-- **A backup can be restored**: it returns, and what is in the store then has
the snapshot and all that it has entries for.  The password still unlocks. -/
theorem backupFiles_restorable (hC : E.C.Lawful) (hsane : E.options.Sane)
    (hlocked : Locked M E keys P password s) (hdry : options.dryRun = false)
    (hprog : ∀ i j a b x y, progress i j a b x y = true)
    (hargs : args.map (fun a => a.2.files a.1) = files.map (List.map entryFile))
    (hinj : Set.InjOn (E.C.hmacSha256 (keys.mHashKey.toList.take SHA256_DIGEST_LENGTH)) F)
    (hsound : Sound E.C keys F (M.contents s.store))
    (hnew : Storable E keys F (backupParts E keys files) (M.contents s.store))
    (hfits : FitsSnapshot E keys files) (name : Bytes) :
    ∃ s', backupFiles E options password name progress args s = ok () s' ∧
      Locked M E keys P password s' ∧
      Restorable E keys (M.contents s'.store) name (files.flatten.map normalizedFile) := by
  have hload := hfits.loadable fun file hfile => (hnew.blocks file hfile).2
  have hdefault : ∀ i j, DefaultProgressFunction i j = true := fun _ _ => rfl
  obtain ⟨d, u, hd, hcont, hunlock⟩ := hlocked.unlock hC hlocked.current_mem hdefault
  rw [decide_eq_true rfl, if_pos rfl] at hunlock
  rw [← hcont] at hsound hnew
  obtain ⟨s₁, huploads, hs₁, hkeys, hsnap, hgrows, hstored⟩ :=
    backupUploads_run (s := { s with store := d, keys := keys, uninitUsed := u }) hC hsane hd rfl hdry
      hprog hargs hinj hsound hnew
  have hwf : s₁.snapshot.WF := by
    rw [hsnap]
    exact (Snapshot.build_built hload.goodOps).1
  obtain ⟨d', n, iv, hcommit, hd', hcont'⟩ := commitSnapshot_run M hC hs₁ hwf name hdefault
  rw [hkeys, hsnap] at hcont'
  refine ⟨_, run_step (run_step (library_ok hunlock) rfl) (run_step (library_ok huploads)
    (library_ok hcommit)), ?_, ?_⟩
  · obtain ⟨-, hmem, f, hf, hrest⟩ := hlocked
    refine ⟨hd', hmem, f, ?_, hrest⟩
    show M.contents d' _ = _
    rw [hcont', Function.update_of_ne (snapshotPath_ne_key name)]
    refine hgrows _ _ ?_
    show M.contents d _ = _
    rw [hcont]
    exact hf
  · refine ⟨backupParts E keys files, iv, partsFrom_files E keys _ files 0, hload, fun part hpart =>
      ⟨?_, ?_⟩, ?_⟩
    · refine (hstored part hpart).of_objects fun objectId bytes hbytes => ?_
      show M.contents d' _ = _
      rw [hcont', Function.update_of_ne (objectPath_ne_snapshotPath _ _)]
      exact hbytes
    · rintro members rfl
      exact hnew.sizes members (List.mem_filterMap.mpr ⟨_, hpart, rfl⟩)
    · show M.contents d' _ = _
      rw [hcont', Function.update_self]

end Command

/-! ### Two pictures -/

/-- The values of the library functions for the passwords `a` and `b` and for the
pictures. -/
def cycleTables : SampleTables where
  pbkdf2 := passwordTables.pbkdf2
  aes := passwordTables.aes ++ pictureTables.aes
  hmac := passwordTables.hmac ++ pictureTables.hmac
  md5 := pictureTables.md5

/-- The tags of the two passwords differ in every key file. -/
theorem cycleTables_differ (f : KeyFile) (hsalt : f.salt = hexDigest 8 0) (hiv : f.iv = hexDigest 16 0)
    (hkeys : f.keys = zeroKeys) (hpassword : f.password = [97] ∨ f.password = [98]) :
    f.TagsDiffer cycleTables.crypto {p | p = [97] ∨ p = [98]} := by
  obtain ⟨password, logRounds, salt, iv, keys, rest⟩ := f
  obtain rfl : salt = hexDigest 8 0 := hsalt
  obtain rfl : iv = hexDigest 16 0 := hiv
  obtain rfl : keys = zeroKeys := hkeys
  have hclosed : ∀ p, KeyFile.tag cycleTables.crypto
      ⟨password, logRounds, hexDigest 8 0, hexDigest 16 0, zeroKeys, rest⟩ p =
      KeyFile.tag cycleTables.crypto ⟨password, 0, hexDigest 8 0, hexDigest 16 0, zeroKeys,
        hexDigest 32 0⟩ p := fun _ => rfl
  have hab : KeyFile.tag cycleTables.crypto ⟨password, 0, hexDigest 8 0, hexDigest 16 0, zeroKeys,
        hexDigest 32 0⟩ [97] ≠
      KeyFile.tag cycleTables.crypto ⟨password, 0, hexDigest 8 0, hexDigest 16 0, zeroKeys,
        hexDigest 32 0⟩ [98] := by
    rcases hpassword with hp | hp
    · obtain rfl : password = [97] := hp
      decide +kernel
    · obtain rfl : password = [98] := hp
      decide +kernel
  intro p hp p' hp' hne
  rw [hclosed, hclosed]
  rcases hp with rfl | rfl <;> rcases hp' with rfl | rfl
  · exact absurd rfl hne
  · exact hab
  · exact hab.symm
  · exact absurd rfl hne

/-- The second picture is a large file already. -/
def cycleEnv : Env := { zeroEnv cycleTables.crypto with options := splitOptions }

/-- A directory with the key file of the password `a`. -/
def cycleSession : Session FileDataStore := keyFileSession (keyFileOfA.bytes cycleTables.crypto)

theorem bytesFrom_zero (i n : ℕ) : bytesFrom (fun _ => 0) i n = List.Vector.replicate n 0 := by
  refine Subtype.ext ?_
  show (List.range n).map (fun _ => (0 : UInt8)) = List.replicate n 0
  rw [List.map_const', List.length_range]

/-- Without any randomness the keys are zero. -/
theorem generatedKeys_cycleEnv (n : ℕ) : zeroKeys = generatedKeys cycleEnv n := by
  rw [generatedKeys]
  simp only [show cycleEnv.random = fun _ => 0 from rfl, bytesFrom_zero]
  rfl

theorem cycleSession_locked : Locked FileDataStore.storeModel cycleEnv zeroKeys
    {p | p = [97] ∨ p = [98]} [97] cycleSession :=
  ⟨fun _ he => absurd he List.not_mem_nil, Or.inl rfl, keyFileOfA, rfl, rfl, rfl, Nat.zero_le _,
    cycleTables_differ keyFileOfA rfl rfl rfl (Or.inl rfl)⟩

/-- Nothing but the key file is in the directory. -/
theorem keyFileSession_contents (c : Bytes) {path : Bytes} (hpath : path ≠ ascii "/key") :
    (keyFileSession c).store.contents path = none := by
  have hne : ascii "/backup" ++ path ≠ ascii "/backup/key" := by
    intro heq
    exact hpath (List.append_cancel_left (heq.trans (show ascii "/backup/key" =
      ascii "/backup" ++ ascii "/key" from rfl)))
  show (SortedMap.empty.assign (ascii "/backup/key") _).find? (ascii "/backup" ++ path) = none
  rw [SortedMap.find?_assign, if_neg hne]
  rfl

/-- The pictures as a backup of their directory comes to them. -/
def picturesArgs : List (Bytes × LocalArg) :=
  [(ascii "x", .directory (.file (ascii "a.png") ⟨letterPicture.info, some letterPicture.content⟩
    (.file (ascii "b.png") ⟨wordPicture.info, some wordPicture.content⟩ .nil)))]

theorem picturesArgs_files :
    picturesArgs.map (fun a => a.2.files a.1) = [pictures].map (List.map entryFile) := rfl

/-- In the environment the first picture is small and alone in its pack, and the
second is a block of its own. -/
structure SplitsPictures (E : Env) : Prop where
  options : E.options = splitOptions
  rolls : (rollAll (RollingHash.new E.C zeroKeys.mRollKey.toList 8192) letterPicture.content).1 = false
  blocks : wordPicture.blocks E zeroKeys = .ok (1, [[97, 98]])
  apart : packPath E.C zeroKeys [(ascii "x/a.png", letterPicture)] ≠
    blockPath E.C zeroKeys .NoCompression [97, 98]
  sizes : (memberSizes E.C [(ascii "x/a.png", letterPicture)]).sum < 2 ^ 32

theorem cycleEnv_splits : SplitsPictures cycleEnv :=
  ⟨rfl, by decide +kernel, by decide +kernel, by decide +kernel, by decide +kernel⟩

namespace SplitsPictures

variable {E : Env}

theorem fed (h : SplitsPictures E) : wordPicture.fed E zeroKeys = [[0, 97, 98]] := by
  rw [LocalFile.fed, h.blocks]
  rfl

theorem entry (h : SplitsPictures E) : entryOf E zeroKeys (ascii "x/b.png", wordPicture) =
    wordPicture.args E zeroKeys (ascii "x/b.png") 1 [[97, 98]] := by
  rw [entryOf, h.blocks]

/-- The parts of their backup. -/
theorem parts (h : SplitsPictures E) : backupParts E zeroKeys [pictures] =
    [.large (ascii "x/b.png", wordPicture), .pack [(ascii "x/a.png", letterPicture)]] := by
  have hsmall : letterPicture.isSmall E := by
    rw [LocalFile.isSmall, h.options]
    decide
  have hlarge : ¬ wordPicture.isSmall E := by
    rw [LocalFile.isSmall, h.options]
    decide
  have hroll := h.rolls
  rw [backupParts]
  show partsFrom _ _ none [] (.upload (ascii "x/a.png") letterPicture _ ::
    .upload (ascii "x/b.png") wordPicture _ :: [.finalize _]) = _
  rw [partsFrom, if_pos hsmall, Option.getD_none]
  generalize rollAll (RollingHash.new E.C zeroKeys.mRollKey.toList 8192) letterPicture.content = r
    at hroll ⊢
  obtain ⟨found, hash⟩ := r
  obtain rfl : found = false := hroll
  dsimp only
  rw [partsFrom, if_neg hlarge]
  rfl

theorem storable (h : SplitsPictures E) {c : Contents} (hc : ∀ name, c (objectPath name) = none) :
    Storable E zeroKeys {[0, 97, 98]} (backupParts E zeroKeys [pictures]) c := by
  rw [h.parts]
  refine ⟨fun files _ => hc _, List.nodup_singleton _, fun files hfiles t block hblock => ?_,
    fun files hfiles => ?_, fun file hfile => ?_⟩
  · obtain ⟨ht, rfl⟩ := List.cons.inj (Set.mem_singleton_iff.mp hblock)
    obtain rfl : t = .NoCompression := by
      cases t with
      | NoCompression => rfl
      | LZMA2 => exact absurd ht (by decide)
    rw [List.mem_singleton.mp hfiles]
    exact h.apart
  · rw [List.mem_singleton.mp hfiles]
    exact h.sizes
  · rcases List.mem_pair.mp hfile with heq | heq
    · obtain rfl := BackupPart.large.inj heq
      refine ⟨fun x hx => ?_, ?_⟩
      · rw [h.fed] at hx
        exact List.mem_singleton.mp hx
      · rw [h.entry]
        exact Nat.le_of_ble_eq_true rfl
    · exact absurd heq (by simp)

theorem fits (h : SplitsPictures E) : FitsSnapshot E zeroKeys [pictures] := by
  refine ⟨fun file hfile => ?_, by decide, ?_, ?_, by decide⟩
  · rcases List.mem_pair.mp hfile with rfl | rfl
    · exact picture_nulFree (by decide) (by decide)
    · exact picture_nulFree (by decide) (by decide)
  · rw [h.parts]
    show ([entryOf E zeroKeys (ascii "x/b.png", wordPicture)].map AddArgs.room ++ _).sum < _
    rw [h.entry]
    show 5 + 1 + 4 + 5 + 16 + (5 + 1 + 4 + 5 + 16 + 0) < 2 ^ 31
    decide
  · rw [h.parts]
    show ([entryOf E zeroKeys (ascii "x/b.png", wordPicture)].map
      (fun a => a.objectIds.length) ++ _).sum < _
    rw [h.entry]
    show 1 + (1 + 0) < 2 ^ 31
    decide

end SplitsPictures

/-- In a store without blocks nothing is wrong. -/
theorem sound_of_none {C : Crypto} {keys : RepositoryKeys} {F : Set Bytes} {c : Contents}
    (hc : ∀ name, c (objectPath name) = none) : Sound C keys F c := by
  intro t block _ bytes hbytes
  exact absurd (hbytes.symm.trans (hc _)) (by simp)

/-- The pictures are backed up to a directory with nothing but a key file. -/
theorem SplitsPictures.backup {E : Env} (h : SplitsPictures E) (hC : E.C.Lawful) {f : KeyFile}
    (hlocked : Locked FileDataStore.storeModel E zeroKeys {p | p = [97] ∨ p = [98]} [97]
      (keyFileSession (f.bytes E.C))) :
    ∃ s₁, backupFiles E .default [97] (ascii "s") (fun _ _ => DefaultFileTransferProgressFunction)
        picturesArgs (keyFileSession (f.bytes E.C)) = ok () s₁ ∧
      Locked FileDataStore.storeModel E zeroKeys {p | p = [97] ∨ p = [98]} [97] s₁ ∧
      Restorable E zeroKeys s₁.store.contents (ascii "s") pictures := by
  have hempty : ∀ name, (keyFileSession (f.bytes E.C)).store.contents (objectPath name) = none :=
    fun name => keyFileSession_contents _ (objectPath_ne_key name)
  have hsane : E.options.Sane := h.options ▸ splitOptions_sane
  exact backupFiles_restorable hC hsane hlocked rfl (fun _ _ _ _ _ _ => rfl) picturesArgs_files
    (Set.injOn_singleton _ _) (sound_of_none hempty) (h.storable hempty) h.fits (ascii "s")

theorem pictures_backup :
    ∃ s₁, backupFiles cycleEnv .default [97] (ascii "s") (fun _ _ => DefaultFileTransferProgressFunction)
        picturesArgs cycleSession = ok () s₁ ∧
      Locked FileDataStore.storeModel cycleEnv zeroKeys {p | p = [97] ∨ p = [98]} [97] s₁ ∧
      Restorable cycleEnv zeroKeys s₁.store.contents (ascii "s") pictures :=
  cycleEnv_splits.backup cycleTables.crypto_lawful cycleSession_locked

end Nebula
