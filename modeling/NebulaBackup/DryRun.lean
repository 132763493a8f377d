/-
What the option `dryRun` leaves undone.

A restore with the option loads the snapshot and leaves the disk and the terminal
alone.  A backup with it uploads nothing, but the snapshot is committed all the
same: an empty one, which takes the place of a snapshot that had the name.  Main
results:

* `downloadFiles_dryRun` — a restore changes nothing;
* `backupFiles_dryRun` — a backup replaces the snapshot of its name.
-/
import NebulaBackup.Listing
import NebulaBackup.SnapshotReload

namespace Nebula

open EStateM.Result Hoare

/-! ### Restores -/

section Restore

variable {δ : Type} [DataStore δ] {E : Env} {L : LocalEnv}

/-- **A dry run of a restore** leaves the disk as it is, and no question is
asked. -/
theorem downloadFiles_dryRun {options : CliOptions} (hdry : options.dryRun = true) {fuel : ℕ}
    {password snapshotName destDir : Bytes} {srcFiles : List Bytes}
    {progress : FileEntry → FileTransferProgressFunction} {disk disk' : LocalDisk} {s s' : Session δ}
    (h : downloadFiles E L options fuel password snapshotName destDir srcFiles progress disk s =
      ok disk' s') : disk' = disk := by
  have hkeep : ∀ snapshot srcFile, EntryKeeps δ E L options fuel snapshot destDir progress
      (fun _ _ d => d = disk) srcFile := by
    intro snapshot srcFile seen fe d d' t t' hd hentry
    obtain ⟨path, name, target, may, d₁, -, -, -, hmay, hdone⟩ := restoreEntry_ok hentry
    rw [LocalDisk.mayWrite, if_neg (by simp [hdry])] at hmay
    obtain ⟨-, rfl⟩ := Prod.mk.inj hmay
    rcases hdone with ⟨-, rfl, -⟩ | ⟨-, hwet, -⟩
    · exact hd
    · exact absurd hdry (by simp [hwet])
  obtain ⟨snapshot, s₁, s₂, -, -, hsame⟩ := downloadFiles_keep (R := fun _ _ d => d = disk)
    (fun _ _ => rfl) (fun snapshot srcFile _ => @hkeep snapshot srcFile) h
  exact hsame

/-- Of a snapshot without entries nothing is restored. -/
theorem restoreArgs_new (options : CliOptions) (fuel : ℕ) (destDir : Bytes)
    (progress : FileEntry → FileTransferProgressFunction) (disk : LocalDisk) (s : Session δ) :
    ∀ srcFiles : List Bytes,
      restoreArgs E L options fuel .new destDir progress srcFiles disk s = ok disk s := by
  intro srcFiles
  induction srcFiles with
  | nil => rfl
  | cons srcFile srcFiles ih =>
    have hkeyed : Snapshot.new.Keyed := fun _ he => absurd he List.not_mem_nil
    have hbelow : restoreBelow E L options fuel .new destDir srcFile progress disk s = ok disk s := by
      rw [restoreBelow, Snapshot.forEachFileEntryIn_eq hkeyed]
      rfl
    exact run_step hbelow ih

end Restore

/-! ### Backups -/

section Backup

variable {δ : Type} [DataStore δ] {M : StoreModel δ} {E : Env} {options : CliOptions}

theorem backupAll_dryRun (hdry : options.dryRun = true) (progress : ℕ → FileTransferProgressFunction)
    (s : Session δ) : ∀ (files : List (Bytes × LocalEntry)) (i : ℕ),
      backupAll E options progress i files s = ok () s := by
  intro files
  induction files with
  | nil =>
    intro i
    rfl
  | cons file files ih =>
    intro i
    have hfile : backupFile E options file.1 file.2 (progress i) s = ok () s := by
      rw [backupFile, if_pos hdry]
      rfl
    exact run_step hfile (ih (i + 1))

/-- No file comes into a pack, and so none is written. -/
theorem backupArgs_dryRun (hdry : options.dryRun = true)
    (progress : ℕ → ℕ → FileTransferProgressFunction) {s : Session δ}
    (hclosed : s.pack.rollingHash = none) : ∀ (args : List (Bytes × LocalArg)) (i : ℕ),
      backupArgs E options progress i args s = ok () s := by
  intro args
  induction args with
  | nil =>
    intro i
    rfl
  | cons arg args ih =>
    intro i
    exact run_step (backupAll_dryRun hdry (progress i) s _ 0)
      (run_step (finalizePack_closed hclosed _) (ih (i + 1)))

theorem Snapshot.new_canonical : Snapshot.new.Canonical :=
  ⟨rfl, rfl, by decide, by decide, by decide, fun _ he => absurd he List.not_mem_nil⟩

/-- **A dry run of a backup** returns, whatever its arguments are, and has replaced
the snapshot of its name by one without entries: the listing prints nothing, and
a restore writes nothing.  The rest of the store is as it was. -/
theorem backupFiles_dryRun (hC : E.C.Lawful) {keys : RepositoryKeys} {P : Set Bytes}
    {password : Bytes} {s : Session δ} (hlocked : Locked M E keys P password s)
    (hdry : options.dryRun = true) (name : SnapshotName)
    (progress : ℕ → ℕ → FileTransferProgressFunction) (args : List (Bytes × LocalArg)) :
    ∃ s₁, backupFiles E options password name.1 progress args s = ok () s₁ ∧
      Locked M E keys P password s₁ ∧
      (∀ path ≠ snapshotPath name.1, M.contents s₁.store path = M.contents s.store path) ∧
      ∃ n, ∀ fuel ≥ n, (∃ s₂, listSnapshot E fuel password name.1 s₁ = ok [] s₂) ∧
        ∀ (L : LocalEnv) (restore : CliOptions) (destDir : Bytes) (srcFiles : List Bytes)
          (progress' : FileEntry → FileTransferProgressFunction) (disk : LocalDisk),
          destDir ∈ disk.directories → ∃ s₂, downloadFiles E L restore fuel password name.1 destDir
            srcFiles progress' disk s₁ = ok disk s₂ := by
  have hdefault : ∀ i j, DefaultProgressFunction i j = true := fun _ _ => rfl
  obtain ⟨d, u, hd, hcont, hunlock⟩ := hlocked.unlock hC hlocked.current_mem hdefault
  rw [decide_eq_true rfl, if_pos rfl] at hunlock
  set started : Session δ :=
    { s with store := d, keys := keys, uninitUsed := u, snapshot := .new, pack := .new } with hstarted
  have huploads : backupUploads E options progress args { s with store := d, keys := keys, uninitUsed := u } =
      ok () started := run_step rfl (backupArgs_dryRun hdry progress rfl args 0)
  obtain ⟨d₁, n, iv, hcommit, hd₁, hcont₁⟩ := commitSnapshot_run M hC (s := started) hd
    Snapshot.new_canonical.wf name.1 hdefault
  set s₁ : Session δ := { started with store := d₁, randomUsed := n } with hs₁
  have hothers : ∀ path ≠ snapshotPath name.1, M.contents s₁.store path = M.contents s.store path := by
    intro path hpath
    rw [hs₁, hcont₁, Function.update_of_ne hpath]
    exact congrFun hcont path
  have hlocked₁ : Locked M E keys P password s₁ := by
    obtain ⟨-, hmem, f, hf, hrest⟩ := hlocked
    exact ⟨hd₁, hmem, f, (hothers _ (snapshotPath_ne_key name.1)).trans hf, hrest⟩
  refine ⟨s₁, run_step (run_step (library_ok hunlock) rfl) (run_step (library_ok huploads)
    (library_ok (run_step rfl hcommit))), hlocked₁, hothers, ?_⟩
  -- the next process unlocks and finds the empty snapshot
  obtain ⟨d₂, u₂, hd₂, hcont₂, hunlock₂⟩ := hlocked₁.unlock hC hlocked₁.current_mem hdefault
  rw [decide_eq_true rfl, if_pos rfl] at hunlock₂
  refine ⟨(Snapshot.snapshotBytes .new).length + objectSize E.C .LZMA2 (Snapshot.snapshotBytes .new),
    fun fuel hfuel => ?_⟩
  have hstored : M.contents d₂ (snapshotPath name.1) =
      some (sealedWith E.C keys .LZMA2 iv (Snapshot.snapshotBytes .new)) := by
    rw [hcont₂, hs₁, hcont₁, Function.update_self]
  obtain ⟨d₃, hload, -, -⟩ := loadSnapshot_run M hC
    (s := { s₁ with store := d₂, keys := keys, uninitUsed := u₂ }) hd₂ hstored
    (Snapshot.new_canonical.reads (RewindableStream.source (Snapshot.snapshotBytes .new))) hdefault hfuel
  refine ⟨⟨_, run_step (run_step (library_ok hunlock₂) rfl) (run_step (library_ok hload) rfl)⟩, ?_⟩
  intro L restore destDir srcFiles progress' disk hdir
  refine ⟨{ s₁ with store := d₃, keys := keys, uninitUsed := u₂ }, ?_⟩
  rw [downloadFiles, if_neg (by rw [LocalDisk.is_directory_iff.mpr hdir]; simp)]
  exact run_step (run_step (library_ok hunlock₂) rfl) (run_step (library_ok hload)
    (library_ok (restoreArgs_new restore fuel destDir progress' disk _ _)))

end Backup

/-- The pictures were backed up, and a dry run with the same name loses them. -/
theorem backupFiles_dryRun_pictures :
    ∃ s₁ s₂ n, backupFiles cycleEnv .default [97] (ascii "s")
        (fun _ _ => DefaultFileTransferProgressFunction) picturesArgs cycleSession = ok () s₁ ∧
      (∃ lines s', lines.length = 2 ∧ listSnapshot cycleEnv n [97] (ascii "s") s₁ = ok lines s') ∧
      backupFiles cycleEnv ⟨true, true, false⟩ [97] (ascii "s")
        (fun _ _ => DefaultFileTransferProgressFunction) picturesArgs s₁ = ok () s₂ ∧
      ∀ fuel ≥ n, ∃ s₃, listSnapshot cycleEnv fuel [97] (ascii "s") s₂ = ok [] s₃ := by
  obtain ⟨s₁, hrun, hlocked, hrestorable⟩ := pictures_backup
  obtain ⟨m, hm⟩ := Restorable.lines cycleTables.crypto_lawful hlocked hrestorable
  obtain ⟨s₂, hdry, -, -, n, hn⟩ := backupFiles_dryRun cycleTables.crypto_lawful hlocked
    (show (CliOptions.mk true true false).dryRun = true from rfl) nameS
    (fun _ _ => DefaultFileTransferProgressFunction) picturesArgs
  obtain ⟨lines, s', hlines, hperm, -⟩ := hm (max n m) (le_max_right n m)
  exact ⟨s₁, s₂, max n m, hrun, ⟨lines, s', hperm.length_eq, hlines⟩, hdry,
    fun fuel hfuel => (hn fuel (le_trans (le_max_left n m) hfuel)).1⟩

end Nebula
