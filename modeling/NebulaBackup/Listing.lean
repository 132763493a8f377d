/-
What the listings show.

`listSnapshots` prints the files of the directory `/snapshot`, and
`listSnapshot` one line for each entry of a snapshot, in the order of the map
that it was loaded into.  After a backup, and after any calls that spare it, the
snapshot is among those listed, and its lines are the files that were backed up
with their owners, modes and sizes.  Main results:

* `FileDataStore.mem_list` — which names are listed;
* `listings_after_calls` — what both listings print.
-/
import NebulaBackup.CommandRuns

namespace Nebula

open EStateM.Result Hoare FileDataStore
open Nebula.Path

/-! ### The names of the snapshots -/

theorem nameIn_eq_some {dir file name : Bytes} :
    nameIn dir file = some name ↔ IsName name ∧ file = dir ++ separator :: name := by
  rw [nameIn]
  constructor
  · intro h
    split at h
    · rename_i hcond
      obtain ⟨hbegins, hlen, hsep⟩ := hcond
      obtain ⟨rest, rfl⟩ := List.isPrefixOf_iff_prefix.mp hbegins
      have hdrop : (dir ++ [separator] ++ rest).drop (dir.length + 1) = rest :=
        List.drop_left' (by simp)
      rw [hdrop] at h hsep
      obtain rfl := Option.some.inj h
      refine ⟨⟨?_, ?_⟩, by simp⟩
      · rintro rfl
        exact hlen (by simp)
      · intro hmem
        rw [List.contains_iff_mem.mpr hmem] at hsep
        exact absurd hsep (by simp)
    · exact absurd h (by simp)
  · rintro ⟨⟨hne, hsep⟩, rfl⟩
    have hdrop : (dir ++ separator :: name).drop (dir.length + 1) = name := by
      rw [show dir ++ separator :: name = (dir ++ [separator]) ++ name by simp]
      exact List.drop_left' (by simp)
    rw [hdrop, if_pos]
    refine ⟨List.isPrefixOf_iff_prefix.mpr ⟨name, by simp⟩, ?_, ?_⟩
    · rw [List.length_append, List.length_cons]
      have := List.length_pos_iff.mpr hne
      omega
    · rw [← Bool.not_eq_true, List.contains_iff_mem]
      exact hsep

namespace FileDataStore

/-- **The names that are listed** are those of the files in the directory. -/
theorem mem_list {d : FileDataStore} {path name : Bytes} (hp : Path.isSep path 0 = true) :
    name ∈ d.list path ↔ IsName name ∧ d.contents (path ++ separator :: name) ≠ none := by
  rw [list, List.mem_filterMap, contents]
  constructor
  · rintro ⟨file, hfile, hname⟩
    obtain ⟨hisName, hfile'⟩ := nameIn_eq_some.mp hname
    refine ⟨hisName, ?_⟩
    rw [fullPath_rooted d hp, List.append_assoc] at hfile'
    rw [← hfile', SortedMap.mem_entries_iff.mp hfile]
    simp
  · rintro ⟨hisName, hfound⟩
    obtain ⟨bytes, hbytes⟩ := Option.ne_none_iff_exists'.mp hfound
    refine ⟨_, SortedMap.mem_entries_iff.mpr hbytes, nameIn_eq_some.mpr ⟨hisName, ?_⟩⟩
    rw [fullPath_rooted d hp, List.append_assoc]

/-- No name is listed twice. -/
theorem list_nodup (d : FileDataStore) (path : Bytes) : (d.list path).Nodup := by
  have hkeys : d.list path = (d.files.entries.map Prod.fst).filterMap (nameIn (d.fullPath path)) := by
    rw [List.filterMap_map]
    rfl
  rw [hkeys]
  refine d.files.nodup_keys.filterMap fun a b name ha hb => ?_
  rw [(nameIn_eq_some.mp ha).2, (nameIn_eq_some.mp hb).2]

end FileDataStore

/-! ### The lines of a snapshot -/

/-- The line of a file. -/
def lineOf (file : Bytes × LocalFile) : ListLine :=
  ⟨modeString file.2.info.mType.toByte file.2.info.mMode, file.2.info.mUserName,
    file.2.info.mGroupName, file.2.info.mLength, file.1⟩

/-- A stored path from its parent and its name. -/
theorem append_parent_filename {p : Bytes} (h : Snapshot.StoredName p) :
    append (parent_path p) (filename p) = p := by
  rcases h with rfl | h
  · decide
  · rcases h.cases with ⟨hn, hname, hparent⟩ | ⟨hq, hn, hp⟩
    · rw [hname, hparent, append, if_neg hn.1, isSep_eq_false_of_not_mem hn.2,
        if_neg Bool.false_ne_true]
      rfl
    · rw [append, if_neg hn.1, isSep_eq_false_of_not_mem hn.2, if_neg Bool.false_ne_true,
        appendSeparatorIfNeeded, if_pos ⟨hq.ne_nil, hq.isSep_last⟩, List.append_assoc]
      exact hp.symm

section Lines

variable {loaded : Snapshot} {s : Session FileDataStore}

/-- The entry is printed as the line, and filed under its path. -/
def Prints (loaded : Snapshot) (s : Session FileDataStore) (fe : FileEntry) (line : ListLine) : Prop :=
  listEntry loaded fe s = ok line s ∧ loaded.entryPath fe = .ok (Snapshot.rekey line.path)

/-- **The entry of a file** is printed as its line. -/
theorem prints_lineOf (hsmall : loaded.Small) {fe : FileEntry} {a : AddArgs}
    {file : Bytes × LocalFile} (hdesc : Snapshot.Describes loaded fe a) (hnames : Names a file)
    (hstored : Snapshot.StoredName a.path) : Prints loaded s fe (lineOf file) := by
  have huser := Snapshot.indexToString_of_cstrAt hsmall.1 hdesc.user
  have hgroup := Snapshot.indexToString_of_cstrAt hsmall.1 hdesc.group
  have hname := Snapshot.indexToString_of_cstrAt hsmall.1 hdesc.name
  have hparent := Snapshot.indexToString_of_cstrAt hsmall.1 hdesc.parent
  constructor
  · rw [listEntry, huser, hgroup, hname, hparent]
    show ok (⟨modeString fe.type fe.mode, a.user, a.group, fe.size,
      append (parent_path a.path) (filename a.path)⟩ : ListLine) s = ok (lineOf file) s
    rw [append_parent_filename hstored, hdesc.type, hdesc.mode, hdesc.size, hnames.path, hnames.user,
      hnames.group, hnames.type, hnames.mode, hnames.size]
    rfl
  · rw [Snapshot.entryPath, hparent, hname]
    show Except.ok _ = _
    rw [Snapshot.parent_append_filename hstored, hnames.path]
    rfl

/-- **All entries**, by induction on them. -/
theorem listEntries_run : ∀ {entries : List FileEntry},
    (∀ fe ∈ entries, ∃ line, Prints loaded s fe line) →
    ∃ lines, listEntries loaded entries s = ok lines s ∧ List.Forall₂ (Prints loaded s) entries lines := by
  intro entries
  induction entries with
  | nil =>
    intro _
    exact ⟨[], rfl, .nil⟩
  | cons fe entries ih =>
    intro hall
    obtain ⟨line, hline⟩ := hall fe List.mem_cons_self
    obtain ⟨lines, hrun, hlines⟩ := ih fun f hf => hall f (List.mem_cons_of_mem fe hf)
    exact ⟨line :: lines, run_step hline.1 (run_step hrun rfl), .cons hline hlines⟩

/-- The lines come in the order of the map. -/
theorem lines_sorted (hkeyed : loaded.Keyed) {lines : List ListLine}
    (h : List.Forall₂ (Prints loaded s) loaded.forEachFileEntry lines) :
    (lines.map fun line => Snapshot.rekey line.path).Pairwise (· < ·) := by
  have hkeys : lines.map (fun line => Snapshot.rekey line.path) = loaded.mFiles.entries.map Prod.fst := by
    rw [Snapshot.forEachFileEntry, SortedMap.values, List.forall₂_map_left_iff] at h
    have hsame : List.Forall₂ (fun (e : Bytes × FileEntry) (line : ListLine) =>
        e.1 = Snapshot.rekey line.path) loaded.mFiles.entries lines := by
      rw [List.forall₂_iff_zip] at h ⊢
      refine ⟨h.1, fun {e line} hzip => ?_⟩
      exact Except.ok.inj ((hkeyed e (List.of_mem_zip hzip).1).symm.trans (h.2 hzip).2)
    have hmaps : loaded.mFiles.entries.map Prod.fst = lines.map fun line => Snapshot.rekey line.path :=
      List.forall₂_eq_eq_eq ▸ List.forall₂_map_left_iff.mpr (List.forall₂_map_right_iff.mpr hsame)
    exact hmaps.symm
  rw [hkeys]
  exact loaded.mFiles.sorted

/-- **A restorable snapshot is printed** as its files, in the order of the map that
it was loaded into. -/
theorem Restorable.lines {E : Env} (hC : E.C.Lawful) {keys : RepositoryKeys} {P : Set Bytes}
    {password name : Bytes} {files : List (Bytes × LocalFile)}
    (hlocked : Locked FileDataStore.storeModel E keys P password s)
    (hrestorable : Restorable E keys s.store.contents name files) :
    ∃ n, ∀ fuel ≥ n, ∃ lines s', listSnapshot E fuel password name s = ok lines s' ∧
      lines.Perm (files.map lineOf) ∧
      (lines.map fun line => Snapshot.rekey line.path).Pairwise (· < ·) := by
  have hdefault : ∀ i j, DefaultProgressFunction i j = true := fun _ _ => rfl
  obtain ⟨d, u, hd, hcont, hunlock⟩ := hlocked.unlock hC hlocked.current_mem hdefault
  rw [decide_eq_true rfl, if_pos rfl] at hunlock
  obtain ⟨parts, iv, hperm, hload, -, hstored⟩ := hrestorable
  obtain ⟨loaded, hreads, hsmall, entries, hentries, hall⟩ := hload.load
    (RewindableStream.source (Snapshot.snapshotBytes (snapshotOf (addsOf E keys parts)))
      (σ := TempInputStream))
  refine ⟨(Snapshot.snapshotBytes (snapshotOf (addsOf E keys parts))).length +
    objectSize E.C .LZMA2 (Snapshot.snapshotBytes (snapshotOf (addsOf E keys parts))),
    fun fuel hfuel => ?_⟩
  obtain ⟨d', hrun, hd', hcont'⟩ := loadSnapshot_run FileDataStore.storeModel hC
    (s := { s with store := d, keys := keys, uninitUsed := u }) hd
    ((congrFun hcont _).trans hstored) hreads hdefault hfuel
  -- the entries go with the calls of the backup, and these with the files
  have hprints : List.Forall₂ (Prints loaded { s with store := d', keys := keys, uninitUsed := u }) entries
      ((parts.flatMap BackupPart.files).map lineOf) := by
    rw [List.forall₂_map_right_iff]
    have hnames := addsOf_names E keys parts
    rw [List.forall₂_iff_get] at hall hnames ⊢
    refine ⟨hall.1.symm.trans hnames.1, fun i hi hi' => ?_⟩
    have hia : i < (addsOf E keys parts).length := by
      rw [hall.1]
      exact hi
    exact prints_lineOf hsmall (hall.2 i hia hi).2 (hnames.2 i hia hi')
      (hload.good _ (List.get_mem (addsOf E keys parts) ⟨i, hia⟩)).1
  have hsome : ∀ fe ∈ loaded.forEachFileEntry, ∃ line,
      Prints loaded { s with store := d', keys := keys, uninitUsed := u } fe line := by
    intro fe hfe
    obtain ⟨i, hi, rfl⟩ := List.mem_iff_getElem.mp (hentries.mem_iff.mpr hfe)
    exact ⟨_, (List.forall₂_iff_get.mp hprints).2 i hi ((List.forall₂_iff_get.mp hprints).1 ▸ hi)⟩
  obtain ⟨lines, hlist, hlines⟩ := listEntries_run hsome
  refine ⟨lines, _, run_step (run_step (library_ok hunlock) rfl) (run_step (library_ok hrun)
    (library_ok hlist)), ?_, lines_sorted (loadSnapshot_keyed hrun) hlines⟩
  obtain ⟨lines', hlines', hperm'⟩ := List.perm_comp_forall₂ hentries hlines
  have hunique : Relator.RightUnique
      (Prints loaded { s with store := d', keys := keys, uninitUsed := u }) :=
    fun fe a b ha hb => (EStateM.Result.ok.inj (ha.1.symm.trans hb.1)).1
  rw [List.right_unique_forall₂' hunique hlines' hprints] at hperm'
  exact hperm'.symm.trans (hperm.map lineOf)

end Lines

/-- **What is listed after a backup.**  After any calls that spare a restorable
snapshot, `listSnapshots` prints the names of the snapshots in the store, each
once and this one among them, and `listSnapshot` prints a line for each of its
files, in the order of their paths. -/
theorem listings_after_calls {E : Env} (hC : E.C.Lawful) {keys : RepositoryKeys} {P : Set Bytes}
    {password : Bytes} {name : SnapshotName} {files : List (Bytes × LocalFile)}
    {s : Session FileDataStore} (hunlocks : Unlocks E keys P password s)
    (hrestorable : Restorable E keys s.store.contents name.1 files)
    (hdiff : ∀ n, ∀ q ∈ P, ∀ rest, (nextKeyFile E keys n q defaultLogRounds rest).TagsDiffer E.C P)
    {calls : List CliCall} (hcalls : ∀ c ∈ calls, c.Spares P name.1) {io : List ChunkEvent}
    (hio : ∀ e ∈ io, e = .ok) (memory : RepositoryKeys) :
    (∀ leftEmpty, ∃ names s', listSnapshots E (passwordAfter password calls) leftEmpty
        (startProcess io memory (afterCalls E calls s)) = ok names s' ∧ names.Nodup ∧ name.1 ∈ names ∧
      ∀ other : SnapshotName, other.1 ∈ names ↔
        (afterCalls E calls s).store.contents (snapshotPath other.1) ≠ none) ∧
    ∃ n, ∀ fuel ≥ n, ∃ lines s', listSnapshot E fuel (passwordAfter password calls) name.1
        (startProcess io memory (afterCalls E calls s)) = ok lines s' ∧
      lines.Perm (files.map lineOf) ∧
      (lines.map fun line => Snapshot.rekey line.path).Pairwise (· < ·) := by
  have hlocked := (Unlocks.calls hC hdiff calls hunlocks fun c hc => (hcalls c hc).keepsKey).start hio
    memory
  have hafter := Restorable.calls calls hrestorable hcalls
  refine ⟨fun leftEmpty => ?_, Restorable.lines hC hlocked hafter⟩
  obtain ⟨d, u, hd, hcont, hunlock⟩ := hlocked.unlock hC hlocked.current_mem
    (show ∀ i j, DefaultProgressFunction i j = true from fun _ _ => rfl)
  rw [decide_eq_true rfl, if_pos rfl] at hunlock
  have hmem : ∀ other : SnapshotName, other.1 ∈ d.list (ascii "/snapshot") ↔
      (afterCalls E calls s).store.contents (snapshotPath other.1) ≠ none := by
    intro other
    rw [FileDataStore.mem_list (by rfl), and_iff_right other.2.1]
    exact iff_of_eq (congrArg (· ≠ none) (congrFun hcont _))
  have hlisted : name.1 ∈ d.list (ascii "/snapshot") := by
    obtain ⟨parts, iv, -, -, -, hstored⟩ := hafter
    rw [hmem, hstored]
    simp
  refine ⟨d.list (ascii "/snapshot"), { startProcess io memory (afterCalls E calls s) with
      store := d, keys := keys, uninitUsed := u },
    run_step (run_step (library_ok hunlock) rfl) (run_step rfl ?_), FileDataStore.list_nodup d _,
    hlisted, hmem⟩
  dsimp only
  cases hnames : d.list (ascii "/snapshot") with
  | nil =>
    rw [hnames] at hlisted
    exact absurd hlisted List.not_mem_nil
  | cons first rest => rfl

/-- The lines of the pictures. -/
def pictureLines : List ListLine :=
  [⟨"-rw-r--r--", ascii "user", ascii "group", 1, ascii "x/a.png"⟩,
    ⟨"-rw-r--r--", ascii "user", ascii "group", 2, ascii "x/b.png"⟩]

/-- The pictures are backed up and the password changed: then they are listed with
the new one. -/
theorem listings_after_calls_pictures :
    ∃ s₁ n, backupFiles cycleEnv .default [97] (ascii "s") (fun _ _ => DefaultFileTransferProgressFunction)
        picturesArgs cycleSession = ok () s₁ ∧
      (∃ names s', listSnapshots cycleEnv [98] false
          (startProcess [] zeroKeys (afterCalls cycleEnv laterCalls s₁)) = ok names s' ∧ ascii "s" ∈ names) ∧
      ∀ fuel ≥ n, ∃ s', listSnapshot cycleEnv fuel [98] (ascii "s")
        (startProcess [] zeroKeys (afterCalls cycleEnv laterCalls s₁)) = ok pictureLines s' := by
  obtain ⟨s₁, hrun, hlocked, hrestorable⟩ := pictures_backup
  obtain ⟨hnames, n, hn⟩ := listings_after_calls cycleTables.crypto_lawful hlocked.unlocks
    (show Restorable _ _ _ nameS.1 _ from hrestorable)
    (fun n q hq rest => cycleTables_differ _ rfl rfl rfl hq) laterCalls_spare
    (show ∀ e ∈ [], e = ChunkEvent.ok from fun _ he => absurd he List.not_mem_nil) zeroKeys
  obtain ⟨names, s', hlist, -, hname, -⟩ := hnames false
  refine ⟨s₁, n, hrun, ⟨names, s', hlist, hname⟩, fun fuel hfuel => ?_⟩
  obtain ⟨lines, s'', hlines, hperm, hsorted⟩ := hn fuel hfuel
  have hpictures : lines.Perm pictureLines := hperm
  -- only one order of the two lines is that of the map
  have horder : (pictureLines.map fun line => Snapshot.rekey line.path).Pairwise (· < ·) := by
    decide
  have hsame : lines = pictureLines := by
    rw [List.pairwise_map] at hsorted horder
    exact hpictures.eq_of_pairwise (fun a b _ _ hab hba => absurd (hab.trans hba) (lt_irrefl _)) hsorted horder
  rw [hsame] at hlines
  exact ⟨s'', hlines⟩

end Nebula
