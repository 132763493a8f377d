/-
A restore writes every file.

On a directory store a restore changes nothing but the local disk, and of a
restorable snapshot it writes every file below its arguments, with the content
that was backed up, as long as the disk has room for the files at their targets:
none of them is a directory or lies above another, and no two different files go
to the same.  Main results:

* `keeps_downloadFiles` — the store is as it was, however a restore ends;
* `downloadFiles_run` — a restore returns and has written the files.
-/
import NebulaBackup.AppendOnly
import NebulaBackup.VerifiedRestore
import NebulaBackup.BackupRestore
import NebulaBackup.PathNames

namespace Nebula

open EStateM.Result Hoare
open Nebula.Path

/-! ### The store -/

section Keeps

variable {E : Env} {I : Session FileDataStore → Prop}

theorem keeps_decompressObject {ω : Type} [OutputStream ω] (fuel : ℕ) (fe : FileEntry)
    (stream : TempInputStream) (o : ω) : Keeps I (decompressObject E fuel fe stream o) := by
  refine Keeps.get_bind fun s _ => ?_
  split
  · cases InputRangeStream.new stream fe.offset.toNat fe.packLength.toNat with
    | error e r => exact Keeps.throw _
    | ok a r =>
      dsimp only
      cases decompressDecryptHMAC E.C fuel (CompressionType.ofByte fe.compression) E.C.cipher
          s.keys.mEncKey.toList s.keys.mMacKey.toList r o with
      | error e t => exact Keeps.throw _
      | ok b t => exact Keeps.pure _
  · cases decompressDecryptHMAC E.C fuel (CompressionType.ofByte fe.compression) E.C.cipher
        s.keys.mEncKey.toList s.keys.mMacKey.toList stream o with
    | error e t => exact Keeps.throw _
    | ok b t => exact Keeps.pure _

theorem keeps_downloadLoop {ω : Type} [OutputStream ω] (fuel : ℕ) (fe : FileEntry)
    (progress : FileTransferProgressFunction) : ∀ (n i : ℕ) (objectIds : List ObjectID) (o : ω),
    Keeps I (downloadLoop E fuel fe progress n i objectIds o) := by
  intro n
  induction n with
  | zero =>
    intro i objectIds o
    exact Keeps.pure _
  | succ n ih =>
    intro i objectIds o
    cases objectIds with
    | nil => exact Keeps.throw _
    | cons objectId objectIds =>
      refine (keeps_ofExcept _).bind fun name => (keeps_storeGet _ _ _).bind fun tmp => ?_
      cases tmp.inputStream with
      | none => exact Keeps.throw _
      | some stream => exact (keeps_decompressObject _ _ _ _).bind fun o => ih _ _ _

/-- A download changes nothing. -/
theorem keeps_downloadFile {ω : Type} [OutputStream ω] (fuel : ℕ) (snapshot : Snapshot)
    (srcPath : Bytes) (o : ω) (progress : FileTransferProgressFunction) :
    Keeps I (downloadFile E fuel snapshot srcPath o progress) := by
  rw [downloadFile]
  cases snapshot.getFileEntry srcPath with
  | none => exact Keeps.pure _
  | some fe =>
    exact (keeps_ofExcept _).bind fun ids => (keeps_downloadLoop _ _ _ _ _ _ _).bind fun _ =>
      Keeps.pure _

theorem keeps_loadSnapshot (fuel : ℕ) (name : Bytes) (progress : ProgressFunction) :
    Keeps I (loadSnapshot E fuel name progress) := by
  refine (keeps_storeGet _ _ _).bind fun tmp => ?_
  cases tmp.inputStream with
  | none => exact Keeps.throw _
  | some stream =>
    refine Keeps.get_bind fun s _ => ?_
    cases decompressDecryptHMAC E.C fuel (some .LZMA2) E.C.cipher s.keys.mEncKey.toList
        s.keys.mMacKey.toList stream TempFileStream.new with
    | error e t => exact Keeps.throw _
    | ok a t =>
      dsimp only
      cases t.2.inputStream with
      | none => exact Keeps.throw _
      | some input => exact (keeps_onStream _ _).bind fun _ => Keeps.pure _

variable {L : LocalEnv} {options : CliOptions}

theorem keeps_restoreTo (fuel : ℕ) (snapshot : Snapshot) (srcPath filePath : Bytes)
    (progress : FileTransferProgressFunction) (fe : FileEntry) (disk : LocalDisk) :
    Keeps I (restoreTo E L options fuel snapshot srcPath filePath progress fe disk) := by
  rw [restoreTo]
  cases disk.makeParent L filePath with
  | none => exact Keeps.throw _
  | some made =>
    refine Keeps.bind ?_ fun disk' => ?_
    · rw [restoreFile]
      split
      · exact Keeps.throw _
      · exact (keeps_downloadFile _ _ _ _ _).bind fun _ => Keeps.pure _
    · split
      · refine Keeps.bind ?_ fun _ => Keeps.pure _
        rw [verifyFile]
        cases disk'.files.find? filePath with
        | none => exact Keeps.throw _
        | some content =>
          refine (keeps_onStream _ _).bind fun fed => ?_
          dsimp only
          split
          · exact Keeps.throw _
          · exact Keeps.pure _
      · exact Keeps.pure _

theorem keeps_restoreEntry (fuel : ℕ) (snapshot : Snapshot) (destDir srcFile : Bytes)
    (progress : FileTransferProgressFunction) (fe : FileEntry) (disk : LocalDisk) :
    Keeps I (restoreEntry E L options fuel snapshot destDir srcFile progress fe disk) := by
  refine (keeps_ofExcept _).bind fun name => (keeps_ofExcept _).bind fun path => ?_
  cases disk.mayWrite options (destFilePath L destDir srcFile path name) with
  | mk may disk' =>
    cases may with
    | false => exact Keeps.pure _
    | true =>
      dsimp only
      split
      · exact Keeps.pure _
      · exact keeps_restoreTo _ _ _ _ _ _ _

/-- What every call of the callback keeps, the enumeration keeps. -/
theorem keeps_forEachFrom {α : Type} {J : α → Prop} (snapshot : Snapshot) (q : Bytes)
    {callback : FileEntry → EStateM Fault α Unit} (h : ∀ fe, Keeps J (callback fe)) :
    ∀ found : List (Bytes × FileEntry), Keeps J (snapshot.forEachFrom q callback found) := by
  intro found
  induction found with
  | nil => exact Keeps.pure _
  | cons e found ih =>
    rw [Snapshot.forEachFrom]
    cases snapshot.entryPath e.2 with
    | error err => exact Keeps.throw _
    | ok filePath =>
      dsimp only
      split
      · exact Keeps.pure _
      · split
        · exact Keeps.pure _
        · exact (h e.2).bind fun _ => ih

theorem keeps_restoreBelow (fuel : ℕ) (snapshot : Snapshot) (destDir srcFile : Bytes)
    (progress : FileEntry → FileTransferProgressFunction) (disk : LocalDisk) :
    Keeps I (restoreBelow E L options fuel snapshot destDir srcFile progress disk) := by
  have hcallback : ∀ fe, Keeps (fun t : Session FileDataStore × LocalDisk => I t.1)
      (restoreCallback E L options fuel snapshot destDir srcFile progress fe) := by
    intro fe t ht
    have hkeeps : Keeps I (restoreEntry E L options fuel snapshot destDir srcFile (progress fe) fe t.2) :=
      keeps_restoreEntry _ _ _ _ _ _ _
    have hentry := hkeeps t.1 ht
    rw [restoreCallback]
    cases hrun : restoreEntry E L options fuel snapshot destDir srcFile (progress fe) fe t.2 t.1 with
    | error e s =>
      rw [hrun] at hentry
      exact hentry
    | ok disk' s =>
      rw [hrun] at hentry
      exact hentry
  intro s hs
  have hall := keeps_forEachFrom snapshot (Snapshot.searchPath srcFile) hcallback
    (snapshot.mFiles.lowerBound (Snapshot.searchPath srcFile)) (s, disk) hs
  rw [restoreBelow, Snapshot.forEachFileEntryIn]
  cases hrun : snapshot.forEachFrom (Snapshot.searchPath srcFile)
      (restoreCallback E L options fuel snapshot destDir srcFile progress)
      (snapshot.mFiles.lowerBound (Snapshot.searchPath srcFile)) (s, disk) with
  | error e t =>
    rw [hrun] at hall
    exact hall
  | ok a t =>
    rw [hrun] at hall
    exact hall

/-- **A restore changes no file of the store**, however it ends. -/
theorem keeps_downloadFiles {J : FileDataStore → Prop} (fuel : ℕ)
    (password snapshotName destDir : Bytes) (srcFiles : List Bytes)
    (progress : FileEntry → FileTransferProgressFunction) (disk : LocalDisk) :
    Keeps (fun s => J s.store) (downloadFiles E L options fuel password snapshotName destDir srcFiles
      progress disk) := by
  have hargs : ∀ (snapshot : Snapshot) (srcFiles : List Bytes) (disk : LocalDisk),
      Keeps (fun s : Session FileDataStore => J s.store)
        (restoreArgs E L options fuel snapshot destDir progress srcFiles disk) := by
    intro snapshot srcFiles
    induction srcFiles with
    | nil =>
      intro disk
      exact Keeps.pure _
    | cons srcFile srcFiles ih =>
      intro disk
      exact (keeps_restoreBelow _ _ _ _ _ _).bind fun disk => ih disk
  rw [downloadFiles]
  split
  · exact Keeps.throw _
  · refine (keeps_unlockOrThrow _ _).bind fun _ => ?_
    refine (keeps_library (keeps_loadSnapshot _ _ _)).bind fun snapshot => ?_
    exact keeps_library (hargs _ _ _)

theorem keeps_listSnapshots {J : FileDataStore → Prop} (password : Bytes) (leftEmpty : Bool) :
    Keeps (fun s => J s.store) (listSnapshots E password leftEmpty) := by
  refine (keeps_unlockOrThrow _ _).bind fun _ => Keeps.get_bind fun s _ => ?_
  split
  · exact Keeps.throw _
  · exact Keeps.pure _

theorem keeps_listSnapshot {J : FileDataStore → Prop} (fuel : ℕ) (password snapshotName : Bytes) :
    Keeps (fun s : Session FileDataStore => J s.store)
      (listSnapshot E fuel password snapshotName) := by
  have hentries : ∀ (snapshot : Snapshot) (entries : List FileEntry),
      Keeps (fun s : Session FileDataStore => J s.store) (listEntries snapshot entries) := by
    intro snapshot entries
    induction entries with
    | nil => exact Keeps.pure _
    | cons fe entries ih =>
      refine Keeps.bind ?_ fun line => ih.bind fun lines => Keeps.pure _
      refine (keeps_ofExcept _).bind fun user => (keeps_ofExcept _).bind fun group => ?_
      exact (keeps_ofExcept _).bind fun name => (keeps_ofExcept _).bind fun path => Keeps.pure _
  refine (keeps_unlockOrThrow _ _).bind fun _ => ?_
  exact (keeps_library (keeps_loadSnapshot _ _ _)).bind fun snapshot =>
    keeps_library (hentries _ _)

end Keeps

/-! ### The disk -/

/-- The path is a directory, or there can be one: nothing between it and a directory
that is there is a file or denied. -/
inductive CanReach (L : LocalEnv) (disk : LocalDisk) : Bytes → Prop
  | there {p : Bytes} (hne : p ≠ []) (hdir : p ∈ disk.directories) : CanReach L disk p
  | make {p : Bytes} (hne : p ≠ []) (hdenied : L.denied p = false) (hfile : disk.files.find? p = none)
      (h : CanReach L disk (parent_path p)) : CanReach L disk p

theorem CanReach.ne_nil {L : LocalEnv} {disk : LocalDisk} {p : Bytes} (h : CanReach L disk p) : p ≠ [] := by
  cases h with
  | there hne _ => exact hne
  | make hne _ _ _ => exact hne

/-- Nothing that can be reached is in the way. -/
theorem CanReach.free {L : LocalEnv} {disk : LocalDisk} {p : Bytes} (h : CanReach L disk p) :
    disk.files.find? p = none ∨ p ∈ disk.directories := by
  cases h with
  | there _ hdir => exact Or.inr hdir
  | make _ _ hfile _ => exact Or.inl hfile

/-- **The directories are made**, by induction on what can be reached. -/
theorem create_directories_run {L : LocalEnv} {disk : LocalDisk} {p : Bytes} (h : CanReach L disk p) :
    ∀ k, p.length < k → ∃ disk', disk.create_directories L k p = some disk' := by
  induction h with
  | there hne hdir =>
    intro k hk
    obtain ⟨k, rfl⟩ : ∃ j, k = j + 1 := ⟨k - 1, by omega⟩
    exact ⟨disk, by rw [LocalDisk.create_directories, if_neg hne,
      if_pos (LocalDisk.is_directory_iff.mpr hdir)]⟩
  | @make p hne hdenied hfile h ih =>
    intro k hk
    obtain ⟨k, rfl⟩ : ∃ j, k = j + 1 := ⟨k - 1, by omega⟩
    obtain ⟨disk₁, hup⟩ := ih k (by have := parent_path_length_lt hne; omega)
    have hmkdir : ∀ disk₂ : LocalDisk, disk₂.files = disk.files →
        (∀ q ∈ disk.directories, q ∈ disk₂.directories) → ∃ disk', disk₂.create_directory L p = some disk' := by
      intro disk₂ hfiles hdirs
      rw [LocalDisk.create_directory, if_neg]
      · exact ⟨_, rfl⟩
      · rw [hfiles]
        rintro (hcon | hcon | ⟨hcon, hplain⟩)
        · exact absurd hcon (by simp [hdenied])
        · exact hcon hfile
        · have hdir := LocalDisk.is_directory_iff.mpr (hdirs _ (h.free.resolve_left hcon))
          exact absurd hdir (by simp [hplain])
    rw [LocalDisk.create_directories, if_neg hne, hup]
    split
    · exact ⟨disk, rfl⟩
    · split
      · exact ⟨disk₁, rfl⟩
      · split
        · exact hmkdir disk rfl fun _ hq => hq
        · have hmade := create_directories_made k hup
          exact hmkdir disk₁ hmade.files hmade.kept

theorem makeParent_run {L : LocalEnv} {disk : LocalDisk} {filePath : Bytes}
    (h : CanReach L disk (parent_path filePath)) : ∃ disk', disk.makeParent L filePath = some disk' := by
  rw [LocalDisk.makeParent]
  split
  · exact ⟨disk, rfl⟩
  · exact create_directories_run h _ (Nat.lt_succ_self _)

/-- What can be reached can be reached when there are more directories, and no
more files on the way. -/
theorem CanReach.mono {L : LocalEnv} {disk disk' : LocalDisk} {p : Bytes} (h : CanReach L disk p)
    (hdirs : ∀ q ∈ disk.directories, q ∈ disk'.directories) :
    (∀ j, disk.files.find? (parent_path^[j] p) = none → disk'.files.find? (parent_path^[j] p) = none) →
      CanReach L disk' p := by
  induction h with
  | there hne hdir => exact fun _ => .there hne (hdirs _ hdir)
  | make hne hdenied hfile _ ih =>
    exact fun hfiles => .make hne hdenied (hfiles 0 hfile) (ih fun j => hfiles (j + 1))

/-- The disk has room for the files: each may be written, its directory is there or
can be, none of them is a directory or above another, what goes to one path is one
content, and nobody is asked. -/
structure HasRoom (L : LocalEnv) (options : CliOptions) (todo : List (Bytes × Bytes))
    (disk : LocalDisk) : Prop where
  allowed : ∀ m ∈ todo, L.denied m.1 = false ∧ L.flushed m.1 m.2 = m.2
  reach : ∀ m ∈ todo, CanReach L disk (parent_path m.1)
  plain : ∀ m ∈ todo, m.1 ∉ disk.directories
  apart : ∀ m ∈ todo, ∀ m' ∈ todo, ∀ j, m.1 ≠ parent_path^[j + 1] m'.1
  agree : ∀ m ∈ todo, ∀ m' ∈ todo, m.1 = m'.1 → m.2 = m'.2
  unasked : options.force = true ∨
    (∀ m ∈ todo, disk.files.find? m.1 = none) ∧ (todo.map Prod.fst).Nodup

/-- The files are there, and the others are as they were. -/
structure Wrote (todo : List (Bytes × Bytes)) (disk disk' : LocalDisk) : Prop where
  files : ∀ m ∈ todo, disk'.files.find? m.1 = some m.2
  others : ∀ p, (∀ m ∈ todo, p ≠ m.1) → disk'.files.find? p = disk.files.find? p

/-- One file is written. -/
structure WroteOne (m : Bytes × Bytes) (disk disk' : LocalDisk) : Prop where
  files : disk'.files = disk.files.assign m.1 m.2
  kept : ∀ q ∈ disk.directories, q ∈ disk'.directories
  directories : ∀ q ∈ disk'.directories, q ∈ disk.directories ∨ ∃ j, q = parent_path^[j + 1] m.1

section Disk

variable {L : LocalEnv} {options : CliOptions} {m : Bytes × Bytes} {todo : List (Bytes × Bytes)}
  {disk disk' disk'' : LocalDisk}

/-- There is room for the others when one was written. -/
theorem HasRoom.next (h : HasRoom L options (m :: todo) disk) (hw : WroteOne m disk disk') :
    HasRoom L options todo disk' := by
  have hmem : ∀ {m'}, m' ∈ todo → m' ∈ m :: todo := fun hm' => List.mem_cons_of_mem m hm'
  refine ⟨fun m' hm' => h.allowed m' (hmem hm'), ?_, ?_,
    fun a ha b hb => h.apart a (hmem ha) b (hmem hb), fun a ha b hb => h.agree a (hmem ha) b (hmem hb), ?_⟩
  · intro m' hm'
    refine (h.reach m' (hmem hm')).mono hw.kept fun j hnone => ?_
    have hne : parent_path^[j] (parent_path m'.1) ≠ m.1 :=
      (h.apart m List.mem_cons_self m' (hmem hm') j).symm
    rw [hw.files, SortedMap.find?_assign, if_neg hne, hnone]
  · intro m' hm' hdir
    rcases hw.directories _ hdir with hold | ⟨j, hj⟩
    · exact h.plain m' (hmem hm') hold
    · exact h.apart m' (hmem hm') m List.mem_cons_self j hj
  · rcases h.unasked with hforce | ⟨hnone, hnodup⟩
    · exact Or.inl hforce
    · rw [List.map_cons, List.nodup_cons] at hnodup
      refine Or.inr ⟨fun m' hm' => ?_, hnodup.2⟩
      have hne : m'.1 ≠ m.1 := by
        intro heq
        exact hnodup.1 (heq ▸ List.mem_map_of_mem hm')
      rw [hw.files, SortedMap.find?_assign, if_neg hne]
      exact hnone m' (hmem hm')

theorem WroteOne.wrote (h : WroteOne m disk disk') : Wrote [m] disk disk' := by
  refine ⟨fun m' hm' => ?_, fun p hp => ?_⟩
  · rw [List.mem_singleton.mp hm', h.files, SortedMap.find?_assign, if_pos rfl]
  · rw [h.files, SortedMap.find?_assign, if_neg (hp m List.mem_cons_self)]

/-- What is written later may be at the same path, with the same content. -/
theorem Wrote.append {todo' : List (Bytes × Bytes)}
    (hagree : ∀ a ∈ todo, ∀ b ∈ todo', a.1 = b.1 → a.2 = b.2) (h : Wrote todo disk disk')
    (h' : Wrote todo' disk' disk'') : Wrote (todo ++ todo') disk disk'' := by
  refine ⟨fun a ha => ?_, fun p hp => ?_⟩
  · rcases List.mem_append.mp ha with ha | ha
    · by_cases hagain : ∃ b ∈ todo', a.1 = b.1
      · obtain ⟨b, hb, heq⟩ := hagain
        rw [heq, h'.files b hb, hagree a ha b hb heq]
      · rw [h'.others a.1 fun b hb heq => hagain ⟨b, hb, heq⟩, h.files a ha]
    · exact h'.files a ha
  · rw [h'.others p fun b hb => hp b (List.mem_append_right _ hb),
      h.others p fun a ha => hp a (List.mem_append_left _ ha)]

end Disk

/-! ### One entry -/

/-- What an entry is restored to: the path and the content. -/
structure EntryGives (E : Env) (L : LocalEnv) (fuel : ℕ) (loaded : Snapshot)
    (s : Session FileDataStore) (destDir srcFile : Bytes) (fe : FileEntry) (m : Bytes × Bytes) :
    Prop where
  content : ∃ path name, loaded.indexToString (toInt fe.pathIndex) = .ok path ∧
    loaded.indexToString (toInt fe.nameIndex) = .ok name ∧
    m.1 = destFilePath L destDir srcFile path name ∧
    ∀ progress : FileTransferProgressFunction, (∀ a b i j, progress a b i j = true) →
      downloadFile E fuel loaded (path ++ separator :: name) (⟨[]⟩ : FileOutputStream) progress s =
        ok (true, ⟨m.2⟩) s
  md5 : fe.md5 = E.C.md5 m.2

/-- The verification of what was written. -/
theorem verifyFile_run {E : Env} {fe : FileEntry} {filePath content : Bytes} {disk : LocalDisk}
    (hfile : disk.files.find? filePath = some content) (hmd5 : fe.md5 = E.C.md5 content)
    (s : Session FileDataStore) : verifyFile E fe filePath disk s = ok () s := by
  obtain ⟨file', hloop⟩ := digestLoop_run [] (FileStream.openRead_holds content)
    (Nat.lt_succ_self content.length)
  rw [List.nil_append] at hloop
  rw [verifyFile, hfile]
  refine run_step (onStream_run hloop s) ?_
  show (if E.C.md5 content ≠ fe.md5 then _ else pure () : Command FileDataStore Unit) s = ok () s
  rw [if_neg (by rw [hmd5]; simp)]
  rfl

section Entries

variable {E : Env} {L : LocalEnv} {options : CliOptions} {fuel : ℕ} {loaded : Snapshot}
  {s : Session FileDataStore} {destDir : Bytes}
  {progress : FileEntry → FileTransferProgressFunction}

/-- **The callback** writes the file of the entry. -/
theorem restoreEntry_run {srcFile : Bytes} {fe : FileEntry} {m : Bytes × Bytes}
    {todo : List (Bytes × Bytes)} {disk : LocalDisk} (hdry : options.dryRun = false)
    (hprog : ∀ fe a b i j, progress fe a b i j = true)
    (hgives : EntryGives E L fuel loaded s destDir srcFile fe m)
    (hroom : HasRoom L options (m :: todo) disk) :
    ∃ disk', restoreEntry E L options fuel loaded destDir srcFile (progress fe) fe disk s =
      ok disk' s ∧ WroteOne m disk disk' := by
  obtain ⟨⟨path, name, hpath, hname, htarget, hdownload⟩, hmd5⟩ := hgives
  have hmem : m ∈ m :: todo := List.mem_cons_self
  obtain ⟨hdenied, hflushed⟩ := hroom.allowed m hmem
  have hmay : disk.mayWrite options m.1 = (true, disk) := by
    rcases hroom.unasked with hforce | ⟨hnone, -⟩
    · exact mayWrite_force hforce _ _
    · have hexists : disk.exists m.1 = false := by
        have hdir : disk.is_directory m.1 = false :=
          Bool.eq_false_iff.mpr fun h => hroom.plain m hmem (LocalDisk.is_directory_iff.mp h)
        rw [LocalDisk.exists, hnone m hmem, hdir]
        rfl
      rw [LocalDisk.mayWrite, if_neg (by simp [hexists])]
  -- the directories above the file
  obtain ⟨created, hcreated⟩ := makeParent_run (hroom.reach m hmem)
  have hmade := makeParent_made hcreated
  have hdirs : ∀ q ∈ created.directories, q ∈ disk.directories ∨ ∃ j, q = parent_path^[j + 1] m.1 :=
    hmade.made
  have hplain : m.1 ∉ created.directories := by
    intro hdir
    rcases hdirs _ hdir with hold | ⟨j, hj⟩
    · exact hroom.plain m hmem hold
    · exact hroom.apart m hmem m hmem j hj
  have hfile : restoreFile E L fuel loaded (path ++ separator :: name) m.1 (progress fe) created s =
      ok (created.close L m.1 ⟨m.2⟩) s := by
    rw [restoreFile, if_neg (by simp [hdenied, LocalDisk.is_directory_iff, hplain])]
    exact run_step (hdownload _ (hprog fe)) rfl
  have hclosed : (created.close L m.1 ⟨m.2⟩).files = disk.files.assign m.1 m.2 := by
    show created.files.assign m.1 (L.flushed m.1 m.2) = _
    rw [hflushed, hmade.files]
  refine ⟨created.close L m.1 ⟨m.2⟩, ?_, hclosed, hmade.kept, hdirs⟩
  have hread : (created.close L m.1 ⟨m.2⟩).files.find? m.1 = some m.2 := by
    rw [hclosed, SortedMap.find?_assign, if_pos rfl]
  have hto : restoreTo E L options fuel loaded (path ++ separator :: name) m.1 (progress fe) fe disk s =
      ok (created.close L m.1 ⟨m.2⟩) s := by
    rw [restoreTo, hcreated]
    refine run_step hfile ?_
    split
    · exact run_step (verifyFile_run hread hmd5 s) rfl
    · rfl
  have hof : ∀ {x : Except Fault Bytes} {a : Bytes}, x = .ok a →
      (ofExcept x : Command FileDataStore Bytes) s = ok a s := by
    rintro x a rfl
    rfl
  refine run_step (hof hname) (run_step (hof hpath) ?_)
  rw [← htarget, hmay]
  dsimp only
  rw [hdry]
  exact hto

variable {target : Bytes × FileEntry → Bytes × Bytes}

/-- **The entries of an argument**, by induction on the entries. -/
theorem restoreEntries_run {srcFile : Bytes} (hdry : options.dryRun = false)
    (hprog : ∀ fe a b i j, progress fe a b i j = true) :
    ∀ {entries : List FileEntry} {rest : List (Bytes × Bytes)} {disk : LocalDisk},
      (∀ fe ∈ entries, EntryGives E L fuel loaded s destDir srcFile fe (target (srcFile, fe))) →
      HasRoom L options (entries.map (fun fe => target (srcFile, fe)) ++ rest) disk →
      ∃ disk', entries.forM (restoreCallback E L options fuel loaded destDir srcFile progress)
          (s, disk) = ok () (s, disk') ∧
        Wrote (entries.map fun fe => target (srcFile, fe)) disk disk' ∧
        HasRoom L options rest disk' := by
  intro entries
  induction entries with
  | nil =>
    intro rest disk _ hroom
    exact ⟨disk, rfl, ⟨fun m hm => absurd hm List.not_mem_nil, fun _ _ => rfl⟩, hroom⟩
  | cons fe entries ih =>
    intro rest disk hgives hroom
    obtain ⟨disk₁, hrun, hone⟩ := restoreEntry_run hdry hprog (hgives fe List.mem_cons_self) hroom
    obtain ⟨disk', hruns, hwrote, hroom'⟩ := ih
      (fun fe' hfe' => hgives fe' (List.mem_cons_of_mem fe hfe')) (hroom.next hone)
    refine ⟨disk', ?_, ?_, hroom'⟩
    · rw [List.forM_eq_forM, List.forM_cons]
      have hcallback : restoreCallback E L options fuel loaded destDir srcFile progress fe (s, disk) =
          ok () (s, disk₁) := by
        rw [restoreCallback, hrun]
      exact run_step hcallback hruns
    · refine Wrote.append ?_ hone.wrote hwrote
      intro a ha b hb heq
      rw [List.mem_singleton.mp ha] at heq ⊢
      exact hroom.agree _ List.mem_cons_self b
        (List.mem_cons_of_mem _ (List.mem_append_left rest hb)) heq

/-- **All arguments**, by induction. -/
theorem restoreArgs_run (hdry : options.dryRun = false)
    (hprog : ∀ fe a b i j, progress fe a b i j = true) (hkeyed : loaded.Keyed) :
    ∀ (srcFiles : List Bytes) {disk : LocalDisk},
      (∀ m ∈ enumerated loaded srcFiles, EntryGives E L fuel loaded s destDir m.1 m.2 (target m)) →
      HasRoom L options ((enumerated loaded srcFiles).map target) disk →
      ∃ disk', restoreArgs E L options fuel loaded destDir progress srcFiles disk s = ok disk' s ∧
        Wrote ((enumerated loaded srcFiles).map target) disk disk' := by
  intro srcFiles
  induction srcFiles with
  | nil =>
    intro disk _ _
    exact ⟨disk, rfl, fun m hm => absurd hm List.not_mem_nil, fun _ _ => rfl⟩
  | cons srcFile srcFiles ih =>
    intro disk hgives hroom
    have hsplit : enumerated loaded (srcFile :: srcFiles) =
        (loaded.visited (Snapshot.searchPath srcFile)).map (fun fe => (srcFile, fe)) ++
          enumerated loaded srcFiles := List.flatMap_cons
    rw [hsplit] at hgives hroom ⊢
    rw [List.map_append, List.map_map] at hroom ⊢
    obtain ⟨disk₁, hruns, hwrote, hroom₁⟩ := restoreEntries_run hdry hprog
      (fun fe hfe => hgives _ (List.mem_append_left _ (List.mem_map_of_mem hfe))) hroom
    obtain ⟨disk', hrest, hwrote'⟩ := ih (fun m hm => hgives m (List.mem_append_right _ hm)) hroom₁
    refine ⟨disk', run_step ?_ hrest, hwrote.append ?_ hwrote'⟩
    · rw [restoreBelow, Snapshot.forEachFileEntryIn_eq hkeyed, hruns]
    · exact fun a ha b hb => hroom.agree a (List.mem_append_left _ ha) b (List.mem_append_right _ hb)

end Entries

/-! ### All files -/

/-- The file is below the argument. -/
def Below (srcFiles : List Bytes) (files : List (Bytes × LocalFile)) (m : Bytes × (Bytes × LocalFile)) :
    Prop :=
  m.1 ∈ srcFiles ∧ m.2 ∈ files ∧ Snapshot.Under (Snapshot.searchPath m.1) (Snapshot.rekey m.2.1)

/-- Where a file is restored to for an argument, and what is written there. -/
def targetOf (L : LocalEnv) (destDir : Bytes) (m : Bytes × (Bytes × LocalFile)) : Bytes × Bytes :=
  (Path.append destDir (L.relative (Snapshot.rekey m.2.1) (parent_path m.1)), m.2.2.content)

/-- The disk has room for the files below the arguments, under paths that are
spelled out and whose directories are there or can be made, and no argument is one
whose enumeration ends too early. -/
structure RestorePlan (L : LocalEnv) (options : CliOptions) (disk : LocalDisk) (destDir : Bytes)
    (srcFiles : List Bytes) (files : List (Bytes × LocalFile)) : Prop where
  spelled : ∀ m, Below srcFiles files m → ∃ names, (∀ n ∈ names, PlainName n) ∧
    L.relative (Snapshot.rekey m.2.1) (parent_path m.1) = joined names
  allowed : ∀ m, Below srcFiles files m → L.denied (targetOf L destDir m).1 = false ∧
    L.flushed (targetOf L destDir m).1 m.2.2.content = m.2.2.content
  reach : ∀ m, Below srcFiles files m → CanReach L disk (parent_path (targetOf L destDir m).1)
  plain : ∀ m, Below srcFiles files m → (targetOf L destDir m).1 ∉ disk.directories
  apart : ∀ m, Below srcFiles files m → ∀ m', Below srcFiles files m' →
    ∀ j, (targetOf L destDir m).1 ≠ parent_path^[j + 1] (targetOf L destDir m').1
  agree : ∀ m, Below srcFiles files m → ∀ m', Below srcFiles files m' →
    (targetOf L destDir m).1 = (targetOf L destDir m').1 → m.2.2.content = m'.2.2.content
  unasked : options.force = true ∨ srcFiles.Nodup ∧
    (∀ m, Below srcFiles files m → disk.files.find? (targetOf L destDir m).1 = none) ∧
    ∀ m, Below srcFiles files m → ∀ m', Below srcFiles files m' →
      (targetOf L destDir m).1 = (targetOf L destDir m').1 → m = m'
  complete : ∀ srcFile ∈ srcFiles, Snapshot.searchPath srcFile = [] ∨
    (∀ file ∈ files, ¬ Snapshot.searchPath srcFile ++ [separator] <+: Snapshot.rekey file.1) ∨
    ∀ file ∈ files, ¬ Snapshot.Between (Snapshot.searchPath srcFile) (Snapshot.rekey file.1)

/-- A property that holds with enough fuel, of all of finitely many pairs. -/
theorem forall₂_enough {α β : Type*} {R : α → β → Prop} {Q : ℕ → α → β → Prop}
    (hR : ∀ a b, R a b → ∃ n, ∀ fuel ≥ n, Q fuel a b) : ∀ {l : List α} {l' : List β},
    List.Forall₂ R l l' → ∃ n, ∀ fuel ≥ n, List.Forall₂ (Q fuel) l l' := by
  intro l l' h
  induction h with
  | nil => exact ⟨0, fun _ _ => .nil⟩
  | cons hab _ ih =>
    obtain ⟨n, hn⟩ := hR _ _ hab
    obtain ⟨n', hn'⟩ := ih
    exact ⟨max n n', fun fuel hfuel => .cons (hn fuel (le_trans (le_max_left n n') hfuel))
      (hn' fuel (le_trans (le_max_right n n') hfuel))⟩

theorem forall₂_mem_left {α β : Type*} {R : α → β → Prop} {l : List α} {l' : List β}
    (h : List.Forall₂ R l l') {a : α} (ha : a ∈ l) : ∃ b ∈ l', R a b := by
  obtain ⟨i, hi, rfl⟩ := List.mem_iff_getElem.mp ha
  have hi' : i < l'.length := h.length_eq ▸ hi
  exact ⟨l'.get ⟨i, hi'⟩, List.get_mem _ _, (List.forall₂_iff_get.mp h).2 i hi hi'⟩

section Files

variable {E : Env} {L : LocalEnv} {options : CliOptions} {loaded : Snapshot}
  {s : Session FileDataStore} {destDir : Bytes}
  {progress : FileEntry → FileTransferProgressFunction}

/-- What the entry of a file is restored to, with enough fuel. -/
theorem EntryFor.gives {file : Bytes × LocalFile} {fe : FileEntry}
    (h : EntryFor FileDataStore.storeModel E loaded s file fe) :
    ∃ n, ∀ fuel ≥ n, ∀ (L : LocalEnv) (destDir srcFile : Bytes),
      EntryGives E L fuel loaded s destDir srcFile fe (targetOf L destDir (srcFile, file)) := by
  obtain ⟨n, hn⟩ := h.restores
  refine ⟨n, fun fuel hfuel L destDir srcFile => ⟨⟨parent_path file.1, filename file.1, h.parent, h.name,
    ?_, ?_⟩, h.md5⟩⟩
  · rw [destFilePath, h.path]
    rfl
  · intro progress hprog
    obtain ⟨d, o', hrun, -, -, hdata⟩ := hn fuel hfuel FileOutputStream.sink
      (show (⟨[]⟩ : FileOutputStream).data = [] from rfl) hprog
    have hsame := keeps_downloadFile (E := E) (I := fun t => t = s) fuel loaded
      (Snapshot.rekey file.1) (⟨[]⟩ : FileOutputStream) progress s rfl
    rw [hrun] at hsame
    rw [h.path, hrun, show { s with store := d } = s from hsame,
      show o' = ⟨file.2.content⟩ from congrArg FileOutputStream.mk hdata]
    rfl

/-- An entry leads to one path with one content. -/
theorem EntryGives.unique {fuel : ℕ} {srcFile : Bytes} {fe : FileEntry} {m m' : Bytes × Bytes}
    (h : EntryGives E L fuel loaded s destDir srcFile fe m)
    (h' : EntryGives E L fuel loaded s destDir srcFile fe m') : m = m' := by
  obtain ⟨⟨path, name, hpath, hname, htarget, hdownload⟩, -⟩ := h
  obtain ⟨⟨path', name', hpath', hname', htarget', hdownload'⟩, -⟩ := h'
  obtain rfl := Except.ok.inj (hpath.symm.trans hpath')
  obtain rfl := Except.ok.inj (hname.symm.trans hname')
  have hsame := (hdownload DefaultFileTransferProgressFunction fun _ _ _ _ => rfl).symm.trans
    (hdownload' DefaultFileTransferProgressFunction fun _ _ _ _ => rfl)
  rw [EStateM.Result.ok.injEq, Prod.mk.injEq, FileOutputStream.mk.injEq] at hsame
  exact Prod.ext (htarget.trans htarget'.symm) hsame.1.2

theorem EntryFor.entryPath {file : Bytes × LocalFile} {fe : FileEntry}
    (h : EntryFor FileDataStore.storeModel E loaded s file fe) :
    loaded.entryPath fe = .ok (Snapshot.rekey file.1) := by
  rw [Snapshot.entryPath, h.parent]
  dsimp only
  rw [h.name, ← h.path]

/-- No entry is enumerated twice for one argument. -/
theorem enumerated_nodup (hkeyed : loaded.Keyed) {srcFiles : List Bytes} (h : srcFiles.Nodup) :
    (enumerated loaded srcFiles).Nodup := by
  have hvalues : ∀ q, (loaded.visited q).Nodup := by
    intro q
    refine (Snapshot.visited_sublist loaded q).nodup (List.Nodup.of_map loaded.entryPath ?_)
    rw [Snapshot.entriesUnder, List.map_map]
    have hkeys : (loaded.mFiles.entries.filter fun e => decide (Snapshot.Under q e.1)).map
        (loaded.entryPath ∘ Prod.snd) =
        ((loaded.mFiles.entries.filter fun e => decide (Snapshot.Under q e.1)).map Prod.fst).map
          Except.ok := by
      rw [List.map_map]
      exact List.map_congr_left fun e he => hkeyed e (List.mem_filter.mp he).1
    rw [hkeys]
    refine List.Nodup.map (fun _ _ heq => Except.ok.inj heq) ?_
    exact (List.filter_sublist.map Prod.fst).nodup (SortedMap.nodup_keys _)
  refine List.nodup_flatMap.mpr ⟨fun srcFile _ => ?_, h.imp ?_⟩
  · exact (hvalues _).map fun _ _ heq => (Prod.mk.inj heq).2
  · intro a b hne m ha hb
    obtain ⟨fe, -, rfl⟩ := List.mem_map.mp ha
    obtain ⟨fe', -, heq⟩ := List.mem_map.mp hb
    exact hne (Prod.mk.inj heq).1.symm

/-- The entries of the files: all entries of the snapshot, with what each is
restored to. -/
structure Entries (E : Env) (fuel : ℕ) (loaded : Snapshot) (s : Session FileDataStore)
    (files : List (Bytes × LocalFile)) : Prop where
  keyed : loaded.Keyed
  entry : ∀ fe ∈ loaded.forEachFileEntry, ∃ file ∈ files,
    EntryFor FileDataStore.storeModel E loaded s file fe
  file : ∀ file ∈ files, ∃ fe, EntryFor FileDataStore.storeModel E loaded s file fe
  gives : ∀ file ∈ files, ∀ fe, EntryFor FileDataStore.storeModel E loaded s file fe →
    ∀ (L : LocalEnv) (destDir srcFile : Bytes),
      EntryGives E L fuel loaded s destDir srcFile fe (targetOf L destDir (srcFile, file))

namespace Entries

variable {fuel : ℕ} {files : List (Bytes × LocalFile)} {srcFiles : List Bytes} {disk : LocalDisk}

/-- What is enumerated is the entry of a file below the argument. -/
theorem below (h : Entries E fuel loaded s files) {m : Bytes × FileEntry}
    (hm : m ∈ enumerated loaded srcFiles) : ∃ file, Below srcFiles files (m.1, file) ∧
      EntryFor FileDataStore.storeModel E loaded s file m.2 := by
  obtain ⟨srcFile, hsrc, hmap⟩ := List.mem_flatMap.mp hm
  obtain ⟨fe, hfe, rfl⟩ := List.mem_map.mp hmap
  obtain ⟨e, he, rfl⟩ := List.mem_map.mp ((Snapshot.visited_sublist _ _).subset hfe)
  obtain ⟨hmem, hunder⟩ := List.mem_filter.mp he
  obtain ⟨file, hfile, hentry⟩ := h.entry e.2 (List.mem_map_of_mem hmem)
  -- the key under which it was found is the path of the file
  have hkey := Except.ok.inj ((h.keyed e hmem).symm.trans hentry.entryPath)
  refine ⟨file, ⟨hsrc, hfile, ?_⟩, hentry⟩
  rw [← hkey]
  exact of_decide_eq_true hunder

/-- Every file below an argument is enumerated. -/
theorem enumerates (h : Entries E fuel loaded s files)
    (hplan : RestorePlan L options disk destDir srcFiles files) {m : Bytes × (Bytes × LocalFile)}
    (hm : Below srcFiles files m) : ∃ fe, (m.1, fe) ∈ enumerated loaded srcFiles ∧
      EntryFor FileDataStore.storeModel E loaded s m.2 fe := by
  obtain ⟨hsrc, hfile, hunder⟩ := hm
  obtain ⟨fe, hentry⟩ := h.file m.2 hfile
  have hkeys : ∀ e ∈ loaded.mFiles.entries, ∃ file ∈ files, e.1 = Snapshot.rekey file.1 := by
    intro e he
    obtain ⟨file, hfile, hfe⟩ := h.entry e.2 (List.mem_map_of_mem he)
    exact ⟨file, hfile, Except.ok.inj ((h.keyed e he).symm.trans hfe.entryPath)⟩
  have hvisited : loaded.visited (Snapshot.searchPath m.1) =
      loaded.entriesUnder (Snapshot.searchPath m.1) := by
    refine (Snapshot.visited_eq_iff _ _).mpr ((hplan.complete m.1 hsrc).imp_right (Or.imp ?_ ?_))
    · intro hnone e he
      obtain ⟨file, hfile, heq⟩ := hkeys e he
      rw [heq]
      exact hnone file hfile
    · intro hnone e he
      obtain ⟨file, hfile, heq⟩ := hkeys e he
      rw [heq]
      exact hnone file hfile
  refine ⟨fe, List.mem_flatMap.mpr ⟨m.1, hsrc, List.mem_map_of_mem ?_⟩, hentry⟩
  rw [hvisited]
  exact List.mem_map.mpr ⟨(Snapshot.rekey m.2.1, fe), List.mem_filter.mpr
    ⟨SortedMap.mem_entries_iff.mpr hentry.find, decide_eq_true hunder⟩, rfl⟩

/-- **The arguments are restored**: every file below them, and nothing else. -/
theorem restore (h : Entries E fuel loaded s files)
    (hplan : RestorePlan L options disk destDir srcFiles files) (hdry : options.dryRun = false)
    (hprog : ∀ fe a b i j, progress fe a b i j = true) :
    ∃ disk', restoreArgs E L options fuel loaded destDir progress srcFiles disk s = ok disk' s ∧
      (∀ m, Below srcFiles files m →
        disk'.files.find? (targetOf L destDir m).1 = some m.2.2.content) ∧
      ∀ p, (∀ m, Below srcFiles files m → p ≠ (targetOf L destDir m).1) →
        disk'.files.find? p = disk.files.find? p := by
  have htarget : ∀ m : Bytes × FileEntry, ∃ target : Bytes × Bytes, m ∈ enumerated loaded srcFiles →
      ∃ file, Below srcFiles files (m.1, file) ∧
        EntryFor FileDataStore.storeModel E loaded s file m.2 ∧
        target = targetOf L destDir (m.1, file) := by
    intro m
    by_cases hm : m ∈ enumerated loaded srcFiles
    · obtain ⟨file, hbelow, hentry⟩ := h.below hm
      exact ⟨_, fun _ => ⟨file, hbelow, hentry, rfl⟩⟩
    · exact ⟨([], []), fun h => absurd h hm⟩
  choose target htarget using htarget
  have hgives : ∀ m ∈ enumerated loaded srcFiles,
      EntryGives E L fuel loaded s destDir m.1 m.2 (target m) := by
    intro m hm
    obtain ⟨file, hbelow, hentry, heq⟩ := htarget m hm
    rw [heq]
    exact h.gives file hbelow.2.1 m.2 hentry L destDir m.1
  have hall : ∀ a ∈ (enumerated loaded srcFiles).map target,
      ∃ m, Below srcFiles files m ∧ a = targetOf L destDir m := by
    intro a ha
    obtain ⟨m, hm, rfl⟩ := List.mem_map.mp ha
    obtain ⟨file, hbelow, -, heq⟩ := htarget m hm
    exact ⟨_, hbelow, heq⟩
  have hunasked : options.force = true ∨
      (∀ a ∈ (enumerated loaded srcFiles).map target, disk.files.find? a.1 = none) ∧
        (((enumerated loaded srcFiles).map target).map Prod.fst).Nodup := by
    refine hplan.unasked.imp_right fun ⟨hnodup, hnone, hinj⟩ => ⟨fun a ha => ?_, ?_⟩
    · obtain ⟨m, hm, rfl⟩ := hall a ha
      exact hnone m hm
    · rw [List.map_map]
      refine (enumerated_nodup h.keyed hnodup).map_on fun a ha b hb hab => ?_
      obtain ⟨file, hbelow, hentry, heq⟩ := htarget a ha
      obtain ⟨file', hbelow', hentry', heq'⟩ := htarget b hb
      rw [Function.comp_apply, Function.comp_apply, heq, heq'] at hab
      have hsame := Prod.mk.inj (hinj _ hbelow _ hbelow' hab)
      rw [hsame.2] at hentry
      exact Prod.ext hsame.1 (Option.some.inj (hentry.find.symm.trans hentry'.find))
  have hroom : HasRoom L options ((enumerated loaded srcFiles).map target) disk := by
    refine ⟨fun a ha => ?_, fun a ha => ?_, fun a ha => ?_, fun a ha b hb => ?_, fun a ha b hb => ?_,
      hunasked⟩
    · obtain ⟨m, hm, rfl⟩ := hall a ha
      exact hplan.allowed m hm
    · obtain ⟨m, hm, rfl⟩ := hall a ha
      exact hplan.reach m hm
    · obtain ⟨m, hm, rfl⟩ := hall a ha
      exact hplan.plain m hm
    · obtain ⟨m, hm, rfl⟩ := hall a ha
      obtain ⟨m', hm', rfl⟩ := hall b hb
      exact hplan.apart m hm m' hm'
    · obtain ⟨m, hm, rfl⟩ := hall a ha
      obtain ⟨m', hm', rfl⟩ := hall b hb
      exact hplan.agree m hm m' hm'
  obtain ⟨disk', hrun, hwrote⟩ := restoreArgs_run hdry hprog h.keyed srcFiles hgives hroom
  refine ⟨disk', hrun, fun m hm => ?_, fun p hp => hwrote.others p fun a ha => ?_⟩
  · obtain ⟨fe, hmem, hentry⟩ := h.enumerates hplan hm
    have hsame := (hgives (m.1, fe) hmem).unique (h.gives m.2 hm.2.1 fe hentry L destDir m.1)
    have hread := hwrote.files _ (List.mem_map_of_mem hmem)
    rw [hsame] at hread
    exact hread
  · obtain ⟨m, hm, rfl⟩ := hall a ha
    exact hp m hm

end Entries

/-- **A restorable snapshot is unlocked and loaded**, from the same session
whatever the fuel. -/
theorem Restorable.opens (hC : E.C.Lawful) (hsane : E.options.Sane) {keys : RepositoryKeys}
    {P : Set Bytes} {password name : Bytes} {files : List (Bytes × LocalFile)}
    (hlocked : Locked FileDataStore.storeModel E keys P password s)
    (hrestorable : Restorable E keys s.store.contents name files) (what : String) :
    ∃ loaded s₁ n, unlockOrThrow E password what s = ok () s₁ ∧ s₁.store = s.store ∧
      ∀ fuel ≥ n, loadSnapshot E fuel name DefaultProgressFunction s₁ = ok loaded s₁ ∧
        Entries E fuel loaded s₁ files := by
  have hdefault : ∀ i j, DefaultProgressFunction i j = true := fun _ _ => rfl
  obtain ⟨d, u, hd, hcont, hunlock⟩ := hlocked.unlock hC hlocked.current_mem hdefault
  rw [decide_eq_true rfl, if_pos rfl] at hunlock
  have hstore := keeps_unlockRepository (E := E) (J := fun d => d = s.store) password
    DefaultProgressFunction s rfl
  rw [hunlock] at hstore
  obtain rfl : d = s.store := hstore
  set s₁ : Session FileDataStore := { s with keys := keys, uninitUsed := u } with hs₁
  obtain ⟨loaded, n₁, hload⟩ := Restorable.load FileDataStore.storeModel hC hsane (s := s₁) hd
    hrestorable hdefault
  have hloaded : ∀ fuel ≥ n₁, loadSnapshot E fuel name DefaultProgressFunction s₁ = ok loaded s₁ ∧
      ∃ (entries : List FileEntry) (files' : List (Bytes × LocalFile)),
        entries.Perm loaded.forEachFileEntry ∧ files'.Perm files ∧
        List.Forall₂ (EntryFor FileDataStore.storeModel E loaded s₁) files' entries := by
    intro fuel hfuel
    obtain ⟨d, hrun, -, -, hentries⟩ := hload fuel hfuel
    have hsame := keeps_loadSnapshot (E := E) (I := fun t => t = s₁) fuel name DefaultProgressFunction
      s₁ rfl
    rw [hrun] at hsame
    rw [show { s₁ with store := d } = s₁ from hsame] at hrun hentries
    exact ⟨hrun, hentries⟩
  obtain ⟨hrun₁, entries, files', hentries, hfiles, hall⟩ := hloaded n₁ le_rfl
  obtain ⟨n₂, hgives⟩ := forall₂_enough (fun _ _ hentry => hentry.gives.imp fun _ hn fuel hfuel =>
    And.intro hentry (hn fuel hfuel)) hall
  refine ⟨loaded, s₁, max n₁ n₂, run_step (library_ok hunlock) rfl, rfl, fun fuel hfuel => ?_⟩
  obtain ⟨hrun, -⟩ := hloaded fuel (le_trans (le_max_left n₁ n₂) hfuel)
  refine ⟨hrun, loadSnapshot_keyed hrun, fun fe hfe => ?_, fun file hfile => ?_,
    fun file hfile fe hfe => ?_⟩
  · obtain ⟨file, hfile, hentry⟩ := forall₂_mem_left hall.flip (hentries.mem_iff.mpr hfe)
    exact ⟨file, hfiles.mem_iff.mp hfile, hentry⟩
  · obtain ⟨fe, -, hentry⟩ := forall₂_mem_left hall (hfiles.mem_iff.mpr hfile)
    exact ⟨fe, hentry⟩
  · -- the entry of a file is the one that is found under its path
    obtain ⟨fe', -, hentry, htargets⟩ := forall₂_mem_left
      (hgives fuel (le_trans (le_max_right n₁ n₂) hfuel)) (hfiles.mem_iff.mpr hfile)
    rw [show fe = fe' from Option.some.inj (hfe.find.symm.trans hentry.find)]
    exact htargets

/-- **A restore of a restorable snapshot** returns, has written every file below
its arguments and has left the rest of the disk and the store alone. -/
theorem downloadFiles_run (hC : E.C.Lawful) (hsane : E.options.Sane) {keys : RepositoryKeys}
    {P : Set Bytes} {password name : Bytes} {files : List (Bytes × LocalFile)} {srcFiles : List Bytes}
    {disk : LocalDisk} (hlocked : Locked FileDataStore.storeModel E keys P password s)
    (hrestorable : Restorable E keys s.store.contents name files) (hdir : destDir ∈ disk.directories)
    (hsrc : srcFiles ≠ []) (hplan : RestorePlan L options disk destDir srcFiles files)
    (hdry : options.dryRun = false) :
    ∃ n, ∀ fuel ≥ n, ∀ progress : FileEntry → FileTransferProgressFunction,
      (∀ fe a b i j, progress fe a b i j = true) →
      ∃ disk' s', downloadFiles E L options fuel password name destDir srcFiles progress disk s =
        ok disk' s' ∧ s'.store = s.store ∧
      (∀ m, Below srcFiles files m →
        disk'.files.find? (targetOf L destDir m).1 = some m.2.2.content) ∧
      ∀ p, (∀ m, Below srcFiles files m → p ≠ (targetOf L destDir m).1) →
        disk'.files.find? p = disk.files.find? p := by
  obtain ⟨loaded, s₁, n, hunlock, hstore, hopen⟩ := hrestorable.opens hC hsane hlocked
    "Invalid password."
  refine ⟨n, fun fuel hfuel progress hprog => ?_⟩
  obtain ⟨hload, hentries⟩ := hopen fuel hfuel
  obtain ⟨disk', hargs, hwritten, hothers⟩ := hentries.restore hplan hdry hprog
  refine ⟨disk', s₁, ?_, hstore, hwritten, hothers⟩
  rw [downloadFiles, if_neg (by rw [LocalDisk.is_directory_iff.mpr hdir]; simp)]
  refine run_step hunlock (run_step (library_ok hload) ?_)
  rw [if_neg hsrc]
  exact library_ok hargs

end Files

end Nebula
