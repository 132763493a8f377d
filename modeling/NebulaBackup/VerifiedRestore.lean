/-
What `restore` has written when it returns.

The callback of `downloadFiles` drops what `downloadFile` returns and nobody
looks at what `fclose` returns, but the file is read again from the disk and its
MD5 compared with the one of the entry.  So whatever the store delivers and
whatever the disk keeps, a restore that returns has left every other file alone
and every file it wrote has the MD5 of an entry that is restored to its path.
Main results:

* `restoreEntry_ok` — what the callback has done when it returns;
* `downloadFiles_verified` — the whole command, on any data store.
-/
import NebulaBackup.CommandLine

namespace Nebula

open EStateM.Result Hoare

/-! ### One entry -/

/-- The loop that feeds the MD5 context reads the rest of the file. -/
theorem digestLoop_run {c : Bytes} : ∀ {k : ℕ} {file : FileStream} {r : Bytes} (fed : Bytes),
    FileStream.Rep c file r → r.length < k → ∃ file', digestLoop k fed file = ok (fed ++ r) file' := by
  intro k
  induction k with
  | zero =>
    intro file r fed _ hk
    omega
  | succ k ih =>
    intro file r fed hfile hk
    obtain ⟨file', hread, hfile'⟩ := FileStream.read_ok hfile 8192
    by_cases hr : r = []
    · subst hr
      exact ⟨file', run_step hread (by simp; rfl)⟩
    · have hpos : 0 < r.length := List.length_pos_iff.mpr hr
      have hchunk : r.take 8192 ≠ [] := by simpa using hr
      obtain ⟨file'', hloop⟩ := ih (fed ++ r.take 8192) hfile' (by rw [List.length_drop]; omega)
      refine ⟨file'', run_step hread ?_⟩
      rw [if_neg hchunk, hloop, List.append_assoc, List.take_append_drop]

section Entry

variable {δ : Type} {E : Env} {L : LocalEnv}

theorem of_ofExcept_ok {α : Type} {x : Except Fault α} {a : α} {s s' : Session δ}
    (h : ofExcept x s = ok a s') : x = .ok a ∧ s' = s := by
  cases x with
  | error e => cases h
  | ok b =>
    obtain ⟨rfl, rfl⟩ := EStateM.Result.ok.inj h
    exact ⟨rfl, rfl⟩

/-- A verification that returns has found the MD5, and the session is as it was. -/
theorem verifyFile_ok {fe : FileEntry} {filePath : Bytes} {disk : LocalDisk} {s s' : Session δ}
    (h : verifyFile E fe filePath disk s = ok () s') :
    s' = s ∧ ∃ content, disk.files.find? filePath = some content ∧ E.C.md5 content = fe.md5 := by
  rw [verifyFile] at h
  cases hfile : disk.files.find? filePath with
  | none =>
    rw [hfile] at h
    cases h
  | some content =>
    rw [hfile] at h
    obtain ⟨file', hloop⟩ := digestLoop_run [] (FileStream.openRead_holds content)
      (Nat.lt_succ_self content.length)
    rw [List.nil_append] at hloop
    have h := (run_ok (onStream_run hloop s)).symm.trans h
    by_cases hmd5 : E.C.md5 content = fe.md5
    · simp only [if_neg (not_not.mpr hmd5)] at h
      exact ⟨(EStateM.Result.ok.inj h).2.symm, content, rfl, hmd5⟩
    · simp only [if_pos hmd5] at h
      cases h

variable [DataStore δ]

/-- The stream is given what was downloaded, and closed. -/
theorem restoreFile_ok {fuel : ℕ} {snapshot : Snapshot} {srcPath filePath : Bytes}
    {progress : FileTransferProgressFunction} {disk disk' : LocalDisk} {s s' : Session δ}
    (h : restoreFile E L fuel snapshot srcPath filePath progress disk s = ok disk' s') :
    disk.is_directory filePath = false ∧ ∃ found o,
      downloadFile E fuel snapshot srcPath (⟨[]⟩ : FileOutputStream) progress s = ok (found, o) s' ∧
      disk' = disk.close L filePath o := by
  rw [restoreFile] at h
  by_cases hdenied : L.denied filePath = true ∨ disk.is_directory filePath = true
  · rw [if_pos hdenied] at h
    cases h
  · rw [if_neg hdenied] at h
    obtain ⟨⟨found, o⟩, s₁, hdownload, h⟩ := of_run_ok h
    obtain ⟨hdisk, rfl⟩ := EStateM.Result.ok.inj h
    exact ⟨Bool.eq_false_of_not_eq_true (not_or.mp hdenied).2, found, o, hdownload, hdisk.symm⟩

/-- Nothing but directories on the way to the path was made. -/
structure MadeTo (p : Bytes) (disk disk' : LocalDisk) : Prop where
  files : disk'.files = disk.files
  stdin : disk'.stdin = disk.stdin
  kept : ∀ q ∈ disk.directories, q ∈ disk'.directories
  made : ∀ q ∈ disk'.directories, q ∈ disk.directories ∨ ∃ j, q = Path.parent_path^[j] p

theorem MadeTo.refl (p : Bytes) (disk : LocalDisk) : MadeTo p disk disk :=
  ⟨rfl, rfl, fun _ h => h, fun _ h => Or.inl h⟩

omit [DataStore δ] in
theorem create_directory_made {p : Bytes} {disk disk' : LocalDisk}
    (h : disk.create_directory L p = some disk') : MadeTo p disk disk' := by
  rw [LocalDisk.create_directory] at h
  split at h
  · exact absurd h (by simp)
  · rw [← Option.some.inj h]
    refine ⟨rfl, rfl, fun q hq => List.mem_cons_of_mem p hq, fun q hq => ?_⟩
    rcases List.mem_cons.mp hq with rfl | hold
    · exact Or.inr ⟨0, rfl⟩
    · exact Or.inl hold

/-- What is made on the way to the path above. -/
theorem MadeTo.of_parent {p : Bytes} {disk disk' : LocalDisk}
    (h : MadeTo (Path.parent_path p) disk disk') : MadeTo p disk disk' :=
  ⟨h.files, h.stdin, h.kept, fun q hq => (h.made q hq).imp_right fun ⟨j, hj⟩ => ⟨j + 1, hj⟩⟩

theorem MadeTo.trans {p : Bytes} {disk disk' disk'' : LocalDisk} (h : MadeTo p disk disk')
    (h' : MadeTo p disk' disk'') : MadeTo p disk disk'' :=
  ⟨h'.files.trans h.files, h'.stdin.trans h.stdin, fun q hq => h'.kept q (h.kept q hq),
    fun q hq => (h'.made q hq).elim (h.made q) Or.inr⟩

omit [DataStore δ] in
/-- **What `create_directories` has done when it returns**, by induction on its
bound. -/
theorem create_directories_made : ∀ (k : ℕ) {p : Bytes} {disk disk' : LocalDisk},
    disk.create_directories L k p = some disk' → MadeTo p disk disk' := by
  intro k
  induction k with
  | zero =>
    intro p disk disk' h
    exact absurd h (by simp [LocalDisk.create_directories])
  | succ k ih =>
    intro p disk disk' h
    rw [LocalDisk.create_directories] at h
    split at h
    · exact absurd h (by simp)
    · split at h
      · rw [← Option.some.inj h]
        exact MadeTo.refl p disk
      · split at h
        · exact (ih h).of_parent
        · split at h
          · exact create_directory_made h
          · cases hup : disk.create_directories L k (Path.parent_path p) with
            | none =>
              rw [hup] at h
              exact absurd h (by simp)
            | some disk₁ =>
              rw [hup] at h
              exact (ih hup).of_parent.trans (create_directory_made h)

omit [DataStore δ] in
theorem makeParent_made {filePath : Bytes} {disk disk' : LocalDisk}
    (h : disk.makeParent L filePath = some disk') :
    MadeTo (Path.parent_path filePath) disk disk' := by
  rw [LocalDisk.makeParent] at h
  split at h
  · rw [← Option.some.inj h]
    exact MadeTo.refl _ disk
  · exact create_directories_made _ h

theorem mayWrite_files (options : CliOptions) (filePath : Bytes) (disk : LocalDisk) :
    (disk.mayWrite options filePath).2.files = disk.files := by
  rw [LocalDisk.mayWrite, LocalDisk.fgetc]
  split
  · cases disk.stdin <;> rfl
  · rfl

/-- The user is not asked when the option says so. -/
theorem mayWrite_force {options : CliOptions} (hforce : options.force = true) (filePath : Bytes)
    (disk : LocalDisk) : disk.mayWrite options filePath = (true, disk) := by
  rw [LocalDisk.mayWrite, if_neg (by simp [hforce])]

/-- The file of the entry is at its path, with the MD5 of the entry. -/
def WritesEntry (E : Env) (fe : FileEntry) (target : Bytes) (disk disk' : LocalDisk) : Prop :=
  ∃ content, disk'.files = disk.files.assign target content ∧ E.C.md5 content = fe.md5

/-- What was downloaded is written where there is no directory when the one above
was made, with the MD5 of the entry if that is verified, and nothing is read from
the terminal. -/
theorem restoreTo_ok {options : CliOptions} {fuel : ℕ} {snapshot : Snapshot}
    {srcPath filePath : Bytes} {progress : FileTransferProgressFunction} {fe : FileEntry}
    {disk disk' : LocalDisk} {s s' : Session δ}
    (h : restoreTo E L options fuel snapshot srcPath filePath progress fe disk s = ok disk' s') :
    (∃ made, MadeTo (Path.parent_path filePath) disk made ∧ made.is_directory filePath = false) ∧
      ∃ found o,
      downloadFile E fuel snapshot srcPath (⟨[]⟩ : FileOutputStream) progress s = ok (found, o) s' ∧
      disk'.files = disk.files.assign filePath (L.flushed filePath o.data) ∧
      disk'.stdin = disk.stdin ∧
      (options.verify = true → E.C.md5 (L.flushed filePath o.data) = fe.md5) := by
  rw [restoreTo] at h
  cases hparent : disk.makeParent L filePath with
  | none =>
    rw [hparent] at h
    cases h
  | some made =>
    rw [hparent] at h
    obtain ⟨disk₁, s₁, hfile, h⟩ := of_run_ok h
    obtain ⟨hfree, found, o, hdownload, rfl⟩ := restoreFile_ok hfile
    have hmade := makeParent_made hparent
    have hplain : ∃ made, MadeTo (Path.parent_path filePath) disk made ∧
        made.is_directory filePath = false := ⟨made, hmade, hfree⟩
    have hassign := congrArg (fun files => files.assign filePath (L.flushed filePath o.data)) hmade.files
    have hstdin := hmade.stdin
    by_cases hverify : options.verify = true
    · rw [if_pos hverify] at h
      obtain ⟨u, s₂, hcheck, hend⟩ := of_run_ok h
      obtain ⟨rfl, content, hfound, hmd5⟩ := verifyFile_ok hcheck
      obtain ⟨rfl, rfl⟩ := EStateM.Result.ok.inj hend
      refine ⟨hplain, found, o, hdownload, hassign, hstdin, fun _ => ?_⟩
      -- what the verification reads is what stands there now
      rw [LocalDisk.close, SortedMap.find?_assign, if_pos rfl, Option.some.injEq] at hfound
      rw [hfound]
      exact hmd5
    · rw [if_neg hverify] at h
      obtain ⟨rfl, rfl⟩ := EStateM.Result.ok.inj h
      exact ⟨hplain, found, o, hdownload, hassign, hstdin, fun hv => absurd hv hverify⟩

/-- **What the callback has done when it returns**: the user was asked if need be,
and then nothing more was done, or the file of the entry was written. -/
theorem restoreEntry_ok {options : CliOptions} {fuel : ℕ} {snapshot : Snapshot}
    {destDir srcFile : Bytes} {progress : FileTransferProgressFunction} {fe : FileEntry}
    {disk disk' : LocalDisk} {s s' : Session δ}
    (h : restoreEntry E L options fuel snapshot destDir srcFile progress fe disk s = ok disk' s') :
    ∃ path name target may disk₁, snapshot.indexToString (toInt fe.pathIndex) = .ok path ∧
      snapshot.indexToString (toInt fe.nameIndex) = .ok name ∧
      target = destFilePath L destDir srcFile path name ∧
      disk.mayWrite options target = (may, disk₁) ∧
      (((may = false ∨ options.dryRun = true) ∧ disk' = disk₁ ∧ s' = s) ∨
        (may = true ∧ options.dryRun = false ∧
          (∃ made, MadeTo (Path.parent_path target) disk₁ made ∧ made.is_directory target = false) ∧
          ∃ found o,
          downloadFile E fuel snapshot (path ++ Path.separator :: name) (⟨[]⟩ : FileOutputStream)
            progress s = ok (found, o) s' ∧
          disk'.files = disk₁.files.assign target (L.flushed target o.data) ∧
          disk'.stdin = disk₁.stdin ∧
          (options.verify = true → E.C.md5 (L.flushed target o.data) = fe.md5))) := by
  obtain ⟨name, s₁, hnameRun, hrest⟩ := of_run_ok h
  obtain ⟨path, s₂, hpathRun, hdone⟩ := of_run_ok hrest
  obtain ⟨hname, rfl⟩ := of_ofExcept_ok hnameRun
  obtain ⟨hpath, rfl⟩ := of_ofExcept_ok hpathRun
  cases hmay : disk.mayWrite options (destFilePath L destDir srcFile path name) with
  | mk may disk₁ =>
    refine ⟨path, name, _, may, disk₁, hpath, hname, rfl, hmay, ?_⟩
    rw [hmay] at hdone
    cases may with
    | false =>
      obtain ⟨rfl, rfl⟩ := EStateM.Result.ok.inj hdone
      exact Or.inl ⟨Or.inl rfl, rfl, rfl⟩
    | true =>
      cases hdry : options.dryRun with
      | true =>
        simp only [hdry, if_true] at hdone
        obtain ⟨rfl, rfl⟩ := EStateM.Result.ok.inj hdone
        exact Or.inl ⟨Or.inr rfl, rfl, rfl⟩
      | false =>
        simp only [hdry, Bool.false_eq_true, if_false] at hdone
        exact Or.inr ⟨rfl, rfl, restoreTo_ok hdone⟩

/-- With the verification on, the user refused and nothing was written, or the
file of the entry was. -/
theorem restoreEntry_cases {options : CliOptions} (hverify : options.verify = true)
    (hdry : options.dryRun = false) {fuel : ℕ} {snapshot : Snapshot} {destDir srcFile : Bytes}
    {progress : FileTransferProgressFunction} {fe : FileEntry} {disk disk' : LocalDisk}
    {s s' : Session δ}
    (h : restoreEntry E L options fuel snapshot destDir srcFile progress fe disk s = ok disk' s') :
    ∃ path name, snapshot.indexToString (toInt fe.pathIndex) = .ok path ∧
      snapshot.indexToString (toInt fe.nameIndex) = .ok name ∧
      ((options.force = false ∧ disk'.files = disk.files) ∨
        WritesEntry E fe (destFilePath L destDir srcFile path name) disk disk') := by
  obtain ⟨path, name, target, may, disk₁, hpath, hname, rfl, hmay, hdone⟩ := restoreEntry_ok h
  refine ⟨path, name, hpath, hname, ?_⟩
  have hsame := mayWrite_files options (destFilePath L destDir srcFile path name) disk
  rw [hmay] at hsame
  rcases hdone with ⟨hrefused, rfl, -⟩ | ⟨-, -, -, found, o, -, hassign, -, hmd5⟩
  · obtain rfl : may = false := hrefused.resolve_right (by simp [hdry])
    refine Or.inl ⟨?_, hsame⟩
    by_contra hforce
    rw [mayWrite_force (by simpa using hforce)] at hmay
    exact absurd (Prod.mk.inj hmay).1 (by simp)
  · exact Or.inr ⟨_, by rw [hassign, hsame], hmd5 hverify⟩

end Entry

/-! ### All entries -/

section Runs

variable {δ : Type} [DataStore δ] (E : Env) (L : LocalEnv) (snapshot : Snapshot) (destDir : Bytes)

/-- The entry, enumerated for the argument, is restored to the path. -/
def RestoredTo (m : Bytes × FileEntry) (p : Bytes) : Prop :=
  ∃ path name, snapshot.indexToString (toInt m.2.pathIndex) = .ok path ∧
    snapshot.indexToString (toInt m.2.nameIndex) = .ok name ∧
    p = destFilePath L destDir m.1 path name

/-- The file at the path has the MD5 of one of the entries that are restored
there. -/
def HasSum (seen : List (Bytes × FileEntry)) (disk : LocalDisk) (p : Bytes) : Prop :=
  ∃ m ∈ seen, RestoredTo L snapshot destDir m p ∧
    ∃ content, disk.files.find? p = some content ∧ E.C.md5 content = m.2.md5

/-- The invariant of a restore that started with `disk₀`, after the entries
`seen`. -/
structure Checked (options : CliOptions) (disk₀ : LocalDisk) (seen : List (Bytes × FileEntry))
    (disk : LocalDisk) : Prop where
  files : ∀ p, disk.files.find? p = disk₀.files.find? p ∨ HasSum E L snapshot destDir seen disk p
  forced : options.force = true → ∀ m ∈ seen, ∃ p, RestoredTo L snapshot destDir m p ∧
    HasSum E L snapshot destDir seen disk p

variable {E L snapshot destDir}

/-- Writing the file of one more entry keeps the others or replaces them by
it. -/
theorem HasSum.write {seen : List (Bytes × FileEntry)} {disk disk' : LocalDisk} {p : Bytes}
    (h : HasSum E L snapshot destDir seen disk p) {m : Bytes × FileEntry} {target : Bytes}
    (hm : RestoredTo L snapshot destDir m target) (hw : WritesEntry E m.2 target disk disk') :
    HasSum E L snapshot destDir (seen ++ [m]) disk' p := by
  obtain ⟨content, hassign, hmd5⟩ := hw
  by_cases hp : p = target
  · subst hp
    refine ⟨m, List.mem_append_right _ List.mem_cons_self, hm, content, ?_, hmd5⟩
    rw [hassign, SortedMap.find?_assign, if_pos rfl]
  · obtain ⟨m', hm', hto, c, hc, hmd5'⟩ := h
    refine ⟨m', List.mem_append_left _ hm', hto, c, ?_, hmd5'⟩
    rw [hassign, SortedMap.find?_assign, if_neg hp, hc]

theorem HasSum.mono {seen : List (Bytes × FileEntry)} {disk disk' : LocalDisk} {p : Bytes}
    (h : HasSum E L snapshot destDir seen disk p) (hfiles : disk'.files = disk.files)
    (m : Bytes × FileEntry) : HasSum E L snapshot destDir (seen ++ [m]) disk' p := by
  obtain ⟨m', hm', hto, hc⟩ := h
  rw [← hfiles] at hc
  exact ⟨m', List.mem_append_left _ hm', hto, hc⟩

/-- **One entry** keeps the invariant. -/
theorem Checked.entry {options : CliOptions} {disk₀ disk disk' : LocalDisk}
    {seen : List (Bytes × FileEntry)} (h : Checked E L snapshot destDir options disk₀ seen disk)
    (hverify : options.verify = true) (hdry : options.dryRun = false) {fuel : ℕ} {srcFile : Bytes}
    {progress : FileTransferProgressFunction} {fe : FileEntry} {s s' : Session δ}
    (hrun : restoreEntry E L options fuel snapshot destDir srcFile progress fe disk s =
      ok disk' s') :
    Checked E L snapshot destDir options disk₀ (seen ++ [(srcFile, fe)]) disk' := by
  obtain ⟨path, name, hpath, hname, ⟨hforce, hsame⟩ | hw⟩ := restoreEntry_cases hverify hdry hrun
  · refine ⟨fun p => ?_, fun hf => absurd hf (by simp [hforce])⟩
    rw [hsame]
    rcases h.files p with hold | hsum
    · exact Or.inl hold
    · exact Or.inr (hsum.mono hsame _)
  · have hto : RestoredTo L snapshot destDir (srcFile, fe)
        (destFilePath L destDir srcFile path name) := ⟨path, name, hpath, hname, rfl⟩
    have hnew : HasSum E L snapshot destDir (seen ++ [(srcFile, fe)]) disk'
        (destFilePath L destDir srcFile path name) := by
      obtain ⟨content, hassign, hmd5⟩ := hw
      refine ⟨_, List.mem_append_right _ List.mem_cons_self, hto, content, ?_, hmd5⟩
      rw [hassign, SortedMap.find?_assign, if_pos rfl]
    refine ⟨fun p => ?_, fun hf m hm => ?_⟩
    · by_cases hp : p = destFilePath L destDir srcFile path name
      · rw [hp]
        exact Or.inr hnew
      · rcases h.files p with hold | hsum
        · obtain ⟨content, hassign, -⟩ := hw
          refine Or.inl ?_
          rw [hassign, SortedMap.find?_assign, if_neg hp, hold]
        · exact Or.inr (hsum.write hto hw)
    · rcases List.mem_append.mp hm with hm | hm
      · obtain ⟨p, hp, hsum⟩ := h.forced hf m hm
        exact ⟨p, hp, hsum.write hto hw⟩
      · rw [List.mem_singleton.mp hm]
        exact ⟨_, hto, hnew⟩

end Runs

/-! ### Invariants of a restore -/

/-- The entries that the arguments lead to, with the argument that does. -/
def enumerated (snapshot : Snapshot) (srcFiles : List Bytes) : List (Bytes × FileEntry) :=
  srcFiles.flatMap fun srcFile =>
    (snapshot.visited (Snapshot.searchPath srcFile)).map fun fe => (srcFile, fe)

section Invariants

variable {δ : Type} [DataStore δ] {E : Env} {L : LocalEnv} {options : CliOptions} {fuel : ℕ}
  {snapshot : Snapshot} {destDir : Bytes} {progress : FileEntry → FileTransferProgressFunction}
  {R : List (Bytes × FileEntry) → Session δ → LocalDisk → Prop}

/-- The entry keeps what is said of the entries so far, the session and the disk,
when it returns. -/
def EntryKeeps (δ : Type) [DataStore δ] (E : Env) (L : LocalEnv) (options : CliOptions) (fuel : ℕ)
    (snapshot : Snapshot) (destDir : Bytes) (progress : FileEntry → FileTransferProgressFunction)
    (R : List (Bytes × FileEntry) → Session δ → LocalDisk → Prop) (srcFile : Bytes) : Prop :=
  ∀ {seen : List (Bytes × FileEntry)} {fe : FileEntry} {disk disk' : LocalDisk} {s s' : Session δ},
    R seen s disk →
    restoreEntry E L options fuel snapshot destDir srcFile (progress fe) fe disk s = ok disk' s' →
    R (seen ++ [(srcFile, fe)]) s' disk'

/-- **The entries of an argument**, by induction on the entries that are
enumerated. -/
theorem restoreEntries_keep {srcFile : Bytes}
    (hkeep : EntryKeeps δ E L options fuel snapshot destDir progress R srcFile) :
    ∀ (entries : List FileEntry) {seen : List (Bytes × FileEntry)} {t t' : Session δ × LocalDisk},
      R seen t.1 t.2 →
      entries.forM (restoreCallback E L options fuel snapshot destDir srcFile progress) t = ok () t' →
      R (seen ++ entries.map fun fe => (srcFile, fe)) t'.1 t'.2 := by
  intro entries
  induction entries with
  | nil =>
    intro seen t t' h hrun
    have ht : ok () t = ok () t' := hrun
    rw [EStateM.Result.ok.injEq] at ht
    rw [List.map_nil, List.append_nil, ← ht.2]
    exact h
  | cons fe entries ih =>
    intro seen t t' h hrun
    rw [List.forM_eq_forM, List.forM_cons] at hrun
    obtain ⟨u, t₁, hfirst, hrest⟩ := of_run_ok hrun
    cases hentry : restoreEntry E L options fuel snapshot destDir srcFile (progress fe) fe t.2 t.1 with
    | error e s =>
      simp only [restoreCallback, hentry] at hfirst
      cases hfirst
    | ok disk s =>
      simp only [restoreCallback, hentry, EStateM.Result.ok.injEq, true_and] at hfirst
      obtain rfl := hfirst
      have hnext := ih (hkeep h hentry) hrest
      rw [List.append_assoc, List.singleton_append] at hnext
      exact hnext

/-- **All arguments**, by induction. -/
theorem restoreArgs_keep (hkeyed : snapshot.Keyed) :
    ∀ (srcFiles : List Bytes) {seen : List (Bytes × FileEntry)} {disk disk' : LocalDisk}
      {s s' : Session δ},
      (∀ srcFile ∈ srcFiles, EntryKeeps δ E L options fuel snapshot destDir progress R srcFile) →
      R seen s disk →
      restoreArgs E L options fuel snapshot destDir progress srcFiles disk s = ok disk' s' →
      R (seen ++ enumerated snapshot srcFiles) s' disk' := by
  intro srcFiles
  induction srcFiles with
  | nil =>
    intro seen disk disk' s s' _ h hrun
    have hdisk : ok disk s = ok disk' s' := hrun
    rw [EStateM.Result.ok.injEq] at hdisk
    rw [enumerated, List.flatMap_nil, List.append_nil, ← hdisk.1, ← hdisk.2]
    exact h
  | cons srcFile srcFiles ih =>
    intro seen disk disk' s s' hkeep h hrun
    obtain ⟨disk₁, s₁, hbelow, hrest⟩ := of_run_ok hrun
    rw [restoreBelow, Snapshot.forEachFileEntryIn_eq hkeyed] at hbelow
    split at hbelow
    · cases hbelow
    · rename_i u t ht
      rw [EStateM.Result.ok.injEq] at hbelow
      have hfirst := restoreEntries_keep (hkeep srcFile List.mem_cons_self) _ h ht
      have hnext := ih (fun f hf => hkeep f (List.mem_cons_of_mem srcFile hf))
        (hbelow.1 ▸ hbelow.2 ▸ hfirst) hrest
      rw [List.append_assoc] at hnext
      exact hnext

/-- **What `loadSnapshot` has done when it returns**: the bytes that were fetched
were accepted, and what came out of them was loaded. -/
theorem loadSnapshot_ok {fuel : ℕ} {name : Bytes} {progress : ProgressFunction} {s s' : Session δ}
    (h : loadSnapshot E fuel name progress s = ok snapshot s') :
    ∃ tmp stream r input i, storeGet (snapshotPath name) TempFileStream.new progress s = ok tmp s' ∧
      tmp.inputStream = some stream ∧
      decompressDecryptHMAC E.C fuel (some .LZMA2) E.C.cipher s'.keys.mEncKey.toList
        s'.keys.mMacKey.toList stream TempFileStream.new = ok () r ∧
      r.2.inputStream = some input ∧ Snapshot.load .new input = ok snapshot i := by
  obtain ⟨tmp, s₁, hget, hafter⟩ := of_run_ok h
  cases htmp : tmp.inputStream with
  | none =>
    rw [htmp] at hafter
    cases hafter
  | some stream =>
    rw [htmp] at hafter
    obtain ⟨t, s₂, hstate, hrest⟩ := of_run_ok hafter
    obtain ⟨rfl, rfl⟩ := EStateM.Result.ok.inj hstate
    cases hdec : decompressDecryptHMAC E.C fuel (some .LZMA2) E.C.cipher s₁.keys.mEncKey.toList
        s₁.keys.mMacKey.toList stream TempFileStream.new with
    | error e r =>
      simp only [hdec] at hrest
      cases hrest
    | ok u r =>
      simp only [hdec] at hrest
      cases hinput : r.2.inputStream with
      | none =>
        rw [hinput] at hrest
        cases hrest
      | some input =>
        rw [hinput] at hrest
        obtain ⟨⟨loaded, i⟩, s₃, hload, hend⟩ := of_run_ok hrest
        obtain ⟨rfl, rfl⟩ := EStateM.Result.ok.inj hend
        cases hrun : Snapshot.load .new input with
        | error e i' =>
          rw [onStream_error hrun] at hload
          cases hload
        | ok a i' =>
          rw [onStream_run hrun] at hload
          obtain ⟨hpair, rfl⟩ := EStateM.Result.ok.inj hload
          obtain ⟨rfl, rfl⟩ := Prod.mk.inj hpair
          exact ⟨tmp, stream, r, input, i', hget, htmp, hdec, hinput, hrun⟩

/-- A snapshot that was loaded is filed by path. -/
theorem loadSnapshot_keyed {fuel : ℕ} {name : Bytes} {progress : ProgressFunction} {s s' : Session δ}
    (h : loadSnapshot E fuel name progress s = ok snapshot s') : snapshot.Keyed := by
  obtain ⟨tmp, stream, r, input, i, -, -, -, -, hload⟩ := loadSnapshot_ok h
  exact Snapshot.load_keyed hload

/-- **What a restore that returned has come through**: the destination was a
directory, the snapshot was loaded, and the arguments were gone through. -/
theorem downloadFiles_ok {password snapshotName : Bytes} {srcFiles : List Bytes}
    {disk disk' : LocalDisk} {s s' : Session δ}
    (hrun : downloadFiles E L options fuel password snapshotName destDir srcFiles progress disk s =
      ok disk' s') :
    destDir ∈ disk.directories ∧ ∃ snapshot s₁ s₂,
      unlockOrThrow E password "Invalid password." s = ok () s₁ ∧
      loadSnapshot E fuel snapshotName DefaultProgressFunction s₁ = ok snapshot s₂ ∧
      restoreArgs E L options fuel snapshot destDir progress
        (if srcFiles = [] then [[]] else srcFiles) disk s₂ = ok disk' s' := by
  rw [downloadFiles] at hrun
  by_cases hdir : disk.is_directory destDir = false
  · rw [if_pos hdir] at hrun
    cases hrun
  · rw [if_neg hdir] at hrun
    obtain ⟨u, s₁, hunlock, hrun⟩ := of_run_ok hrun
    obtain ⟨snapshot, s₂, hload, hrun⟩ := of_run_ok hrun
    exact ⟨LocalDisk.is_directory_iff.mp (Bool.eq_true_of_not_eq_false hdir), snapshot, s₁, s₂, hunlock,
      of_library_ok hload, of_library_ok hrun⟩

/-- An invariant of the disk that every entry keeps. -/
theorem downloadFiles_keep {R : Snapshot → List (Bytes × FileEntry) → LocalDisk → Prop}
    {password snapshotName : Bytes} {srcFiles : List Bytes} {disk disk' : LocalDisk}
    {s s' : Session δ} (hstart : destDir ∈ disk.directories → ∀ snapshot, R snapshot [] disk)
    (hkeep : ∀ snapshot, ∀ srcFile ∈ (if srcFiles = [] then [[]] else srcFiles),
      EntryKeeps δ E L options fuel snapshot destDir progress (fun seen _ => R snapshot seen) srcFile)
    (hrun : downloadFiles E L options fuel password snapshotName destDir srcFiles progress disk s =
      ok disk' s') :
    ∃ snapshot s₁ s₂, unlockOrThrow E password "Invalid password." s = ok () s₁ ∧
      loadSnapshot E fuel snapshotName DefaultProgressFunction s₁ = ok snapshot s₂ ∧
      R snapshot (enumerated snapshot (if srcFiles = [] then [[]] else srcFiles)) disk' := by
  obtain ⟨hdir, snapshot, s₁, s₂, hunlock, hload, hargs⟩ := downloadFiles_ok hrun
  have hend := restoreArgs_keep (R := fun seen _ => R snapshot seen) (loadSnapshot_keyed hload) _
    (hkeep snapshot) (hstart hdir snapshot) hargs
  exact ⟨snapshot, s₁, s₂, hunlock, hload, hend⟩

end Invariants

/-- **A restore that returns has written what it was to write.**  The data store
may be any, and so may the disk: with the verification on, every file but those
that entries of the loaded snapshot are restored to is as it was, and each of
those that was written has the MD5 of such an entry; with `force` each of them
was written. -/
theorem downloadFiles_verified {δ : Type} [DataStore δ] (E : Env) (L : LocalEnv) (force : Bool)
    (fuel : ℕ) (password snapshotName destDir : Bytes) (srcFiles : List Bytes)
    (progress : FileEntry → FileTransferProgressFunction) (disk : LocalDisk) (s : Session δ) :
    Triple (fun t => t = s)
      (downloadFiles E L ⟨true, false, force⟩ fuel password snapshotName destDir srcFiles progress disk)
      (fun disk' _ => ∃ snapshot s₁ s₂, unlockOrThrow E password "Invalid password." s = ok () s₁ ∧
        loadSnapshot E fuel snapshotName DefaultProgressFunction s₁ = ok snapshot s₂ ∧
        (∀ p, disk'.files.find? p = disk.files.find? p ∨
          HasSum E L snapshot destDir
            (enumerated snapshot (if srcFiles = [] then [[]] else srcFiles)) disk' p) ∧
        (force = true → ∀ m ∈ enumerated snapshot (if srcFiles = [] then [[]] else srcFiles),
          ∃ p, RestoredTo L snapshot destDir m p ∧ HasSum E L snapshot destDir
            (enumerated snapshot (if srcFiles = [] then [[]] else srcFiles)) disk' p))
      fun _ _ => True := by
  rintro t rfl
  cases hrun : downloadFiles E L ⟨true, false, force⟩ fuel password snapshotName destDir srcFiles
      progress disk t with
  | error e t' => trivial
  | ok disk' t' =>
    obtain ⟨snapshot, s₁, s₂, hunlock, hload, hend⟩ := downloadFiles_keep
      (R := fun snapshot => Checked E L snapshot destDir ⟨true, false, force⟩ disk)
      (fun _ _ => ⟨fun _ => Or.inl rfl, fun _ m hm => absurd hm List.not_mem_nil⟩)
      (fun _ _ _ _ _ _ _ _ _ h hentry => h.entry rfl rfl hentry) hrun
    exact ⟨snapshot, s₁, s₂, hunlock, hload, hend.files, hend.forced⟩

end Nebula
