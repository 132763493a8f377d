/-
Where a restore puts the files.

The target of an entry is its path made relative to the path above the argument.
For an argument of one name, and when there is no argument at all, there is no
path above, `relative` is empty, and the target of every entry is the
destination itself: nothing can be restored that way.  For a directory given
with a separator at its end the tree below it is written to the destination as it
was, unless a path that sorts before the separator ends the enumeration.  Main
results:

* `downloadFiles_topLevel` — arguments without a path above them;
* `downloadFiles_tree` — a directory.
-/
import NebulaBackup.RestoreRun

namespace Nebula

open EStateM.Result Hoare
open Nebula.Path

/-! ### Arguments without a path above them -/

section TopLevel

variable {δ : Type} [DataStore δ] {E : Env} {L : LocalEnv} {options : CliOptions}

theorem mayWrite_directories (options : CliOptions) (filePath : Bytes) (disk : LocalDisk) :
    (disk.mayWrite options filePath).2.directories = disk.directories := by
  rw [LocalDisk.mayWrite, LocalDisk.fgetc]
  split
  · cases disk.stdin <;> rfl
  · rfl

/-- The state of the disk when nothing was written. -/
structure Unwritten (destDir : Bytes) (disk₀ disk : LocalDisk) : Prop where
  files : disk.files = disk₀.files
  destination : destDir ∈ disk.directories

/-- **A directory cannot be written**: the callback returns only when it was told
not to write. -/
theorem restoreEntry_destination {fuel : ℕ} {snapshot : Snapshot} {destDir srcFile : Bytes}
    (hsrc : parent_path srcFile = []) {progress : FileTransferProgressFunction} {fe : FileEntry}
    {disk₀ disk disk' : LocalDisk} {s s' : Session δ} (hdisk : Unwritten destDir disk₀ disk)
    (h : restoreEntry E L options fuel snapshot destDir srcFile progress fe disk s = ok disk' s') :
    Unwritten destDir disk₀ disk' ∧ (options.force = true → options.dryRun = true) := by
  obtain ⟨path, name, target, may, disk₁, -, -, rfl, hmay, hdone⟩ := restoreEntry_ok h
  rw [destFilePath_topLevel L destDir hsrc] at hmay hdone
  have hfiles := mayWrite_files options destDir disk
  have hdirs := mayWrite_directories options destDir disk
  rw [hmay] at hfiles hdirs
  have hdisk₁ : Unwritten destDir disk₀ disk₁ :=
    ⟨hfiles.trans hdisk.files, hdirs ▸ hdisk.destination⟩
  rcases hdone with ⟨hunwritten, rfl, -⟩ | ⟨-, -, ⟨made, hmade, hplain⟩, -⟩
  · refine ⟨hdisk₁, fun hforce => hunwritten.resolve_left ?_⟩
    rw [mayWrite_force hforce] at hmay
    rw [← (Prod.mk.inj hmay).1]
    simp
  · -- the stream for the destination is not opened
    have hdir := hmade.kept destDir hdisk₁.destination
    rw [LocalDisk.is_directory_iff.mpr hdir] at hplain
    cases hplain

/-- **Arguments without a path above them restore nothing**, and so does a restore
without arguments.  Whatever the store and the snapshot, a restore of such
arguments that returns has changed no file; and with `force` it returns only
when there was no entry to restore or nothing was to be written. -/
theorem downloadFiles_topLevel (E : Env) (L : LocalEnv) (options : CliOptions) (fuel : ℕ)
    (password snapshotName destDir : Bytes) {srcFiles : List Bytes}
    (hsrc : ∀ srcFile ∈ srcFiles, parent_path srcFile = [])
    (progress : FileEntry → FileTransferProgressFunction) (disk : LocalDisk) (s : Session δ) :
    Triple (fun t => t = s)
      (downloadFiles E L options fuel password snapshotName destDir srcFiles progress disk)
      (fun disk' _ => disk'.files = disk.files ∧
        (options.force = true → options.dryRun = false →
          ∃ snapshot s₁ s₂, unlockOrThrow E password "Invalid password." s = ok () s₁ ∧
            loadSnapshot E fuel snapshotName DefaultProgressFunction s₁ = ok snapshot s₂ ∧
            enumerated snapshot (if srcFiles = [] then [[]] else srcFiles) = []))
      fun _ _ => True := by
  rintro t rfl
  cases hrun : downloadFiles E L options fuel password snapshotName destDir srcFiles progress disk t with
  | error e t' => trivial
  | ok disk' t' =>
    have hall : ∀ srcFile ∈ (if srcFiles = [] then [[]] else srcFiles), parent_path srcFile = [] := by
      intro srcFile hmem
      split at hmem
      · rw [List.mem_singleton.mp hmem]
        rfl
      · exact hsrc srcFile hmem
    obtain ⟨snapshot, s₁, s₂, hunlock, hload, hdisk, hnone⟩ := downloadFiles_keep
      (R := fun _ seen disk' => Unwritten destDir disk disk' ∧
        (options.force = true → options.dryRun = false → seen = []))
      (fun hdest _ => ⟨⟨rfl, hdest⟩, fun _ _ => rfl⟩)
      (by
        intro snapshot srcFile hmem seen fe disk₁ disk₂ s₁ s₂ h hentry
        obtain ⟨hdisk, hforce⟩ := restoreEntry_destination (hall srcFile hmem) h.1 hentry
        exact ⟨hdisk, fun hf hd => absurd (hforce hf) (by rw [hd]; simp)⟩) hrun
    exact ⟨hdisk.files, fun hf hd => ⟨snapshot, s₁, s₂, hunlock, hload, hnone hf hd⟩⟩

end TopLevel

/-- A system on which no path that is restored exists yet. -/
def newDisk : LocalEnv := ⟨fun _ => none, fun _ => false, fun _ data => data⟩

/-- A disk with an empty directory. -/
def outDisk : LocalDisk := ⟨.empty, [ascii "/out"], []⟩

/-- The pictures were backed up, and a restore of everything does not return. -/
theorem downloadFiles_topLevel_pictures :
    ∃ s₁ n, backupFiles cycleEnv .default [97] (ascii "s") (fun _ _ => DefaultFileTransferProgressFunction)
        picturesArgs cycleSession = ok () s₁ ∧
      ∀ fuel ≥ n, ∀ disk' s', downloadFiles cycleEnv newDisk ⟨true, false, true⟩ fuel [97] (ascii "s")
        (ascii "/out") [] (fun _ => DefaultFileTransferProgressFunction) outDisk s₁ ≠ ok disk' s' := by
  obtain ⟨s₁, hrun, hlocked, hrestorable⟩ := pictures_backup
  obtain ⟨loaded, s₂, n, hunlock, -, hopen⟩ := hrestorable.opens cycleTables.crypto_lawful
    splitOptions_sane hlocked "Invalid password."
  refine ⟨s₁, n, hrun, fun fuel hfuel disk' s' hdownload => ?_⟩
  have htriple := downloadFiles_topLevel cycleEnv newDisk ⟨true, false, true⟩ fuel
    [97] (ascii "s") (ascii "/out") (fun _ h => absurd h List.not_mem_nil)
    (fun _ => DefaultFileTransferProgressFunction) outDisk s₁ s₁ rfl
  rw [hdownload] at htriple
  obtain ⟨-, hnone⟩ := htriple
  obtain ⟨snapshot, t₁, t₂, hunlock', hload', hempty⟩ := hnone rfl rfl
  obtain ⟨hload, hentries⟩ := hopen fuel hfuel
  -- the snapshot that is loaded has the pictures
  obtain rfl : s₂ = t₁ := (EStateM.Result.ok.inj (hunlock.symm.trans hunlock')).2
  obtain rfl : loaded = snapshot := (EStateM.Result.ok.inj (hload.symm.trans hload')).1
  obtain ⟨fe, hentry⟩ := hentries.file _ List.mem_cons_self
  have hvisited : loaded.visited [] = loaded.entriesUnder [] :=
    (Snapshot.visited_eq_iff loaded []).mpr (Or.inl rfl)
  have hmem : fe ∈ loaded.visited [] := by
    rw [hvisited]
    exact List.mem_map.mpr ⟨_, List.mem_filter.mpr ⟨SortedMap.mem_entries_iff.mpr hentry.find,
      decide_eq_true (Or.inl rfl)⟩, rfl⟩
  have hall : ([], fe) ∈ enumerated loaded [[]] :=
    List.mem_flatMap.mpr ⟨[], List.mem_cons_self, List.mem_map_of_mem hmem⟩
  rw [if_pos rfl] at hempty
  rw [hempty] at hall
  exact absurd hall List.not_mem_nil

/-! ### Directories -/

/-- A directory whose path has no separator at its end and is no network path. -/
def IsDirectory (d : Bytes) : Prop :=
  d ≠ [] ∧ isSep d (d.length - 1) = false ∧ (isSep d 0 = false ∨ isSep d 1 = false)

section Directory

variable {d n : Bytes}

theorem isSep_below (d : Bytes) {n : Bytes} (hn : IsName n) (i : ℕ) :
    isSep (d ++ separator :: n) (d.length + 1 + i) = false := by
  have hat := isSep_append_right (d ++ [separator]) n i
  rw [List.length_append, List.length_singleton, List.append_assoc, List.singleton_append] at hat
  rw [hat]
  exact isSep_eq_false_of_not_mem hn.2 i

/-- Not both of the first two characters are separators. -/
theorem IsDirectory.root (h : IsDirectory d) (n : Bytes) :
    isSep (d ++ separator :: n) 0 = false ∨ isSep (d ++ separator :: n) 1 = false := by
  obtain ⟨hne, hlast, hroot⟩ := h
  have hpos := List.length_pos_iff.mpr hne
  rw [isSep_append_left _ hpos]
  by_cases hone : d.length = 1
  · left
    rw [hone] at hlast
    exact hlast
  · rw [isSep_append_left _ (by omega)]
    exact hroot

/-- A name below a directory is one again. -/
theorem IsDirectory.below (h : IsDirectory d) (hn : IsName n) : IsDirectory (d ++ separator :: n) := by
  have hname := List.length_pos_iff.mpr hn.1
  have hlen : (d ++ separator :: n).length - 1 = d.length + 1 + (n.length - 1) := by
    simp only [List.length_append, List.length_cons]
    omega
  refine ⟨by simp, ?_, h.root n⟩
  rw [hlen]
  exact isSep_below d hn _

/-- **The path above a name.** -/
theorem parent_path_below (h : IsDirectory d) (hn : IsName n) :
    parent_path (d ++ separator :: n) = d := by
  have hpos := List.length_pos_iff.mpr h.1
  have hname := List.length_pos_iff.mpr hn.1
  have hboth : ¬ (isSep (d ++ separator :: n) 0 = true ∧ isSep (d ++ separator :: n) 1 = true) := by
    rintro ⟨h0, h1⟩
    rcases h.root n with hr | hr
    · rw [h0] at hr
      exact absurd hr (by simp)
    · rw [h1] at hr
      exact absurd hr (by simp)
  have hlen : (d ++ separator :: n).length = d.length + 1 + n.length := by
    simp only [List.length_append, List.length_cons]
    omega
  have hsep : isSep (d ++ separator :: n) d.length = true := by
    have hat := isSep_append_right d (separator :: n) 0
    rwa [isSep_separator_cons] at hat
  have hbefore : isSep (d ++ separator :: n) (d.length - 1) = false := by
    rw [isSep_append_left _ (by omega)]
    exact h.2.1
  -- the name starts behind the separator
  have hfile : filename_pos (d ++ separator :: n) (d ++ separator :: n).length = d.length + 1 := by
    have hlast := findLastOf_cons d hn.2 n.length
    rw [← hlen] at hlast
    have hend : isSep (d ++ separator :: n) ((d ++ separator :: n).length - 1) = false :=
      (h.below hn).2.1
    rw [filename_pos, if_neg (fun hc => hboth hc.2), if_neg (by rw [hend]; simp),
      if_neg (by rw [hlen]; omega), hlast]
    dsimp only
    rw [if_neg]
    rintro ⟨hone, h0⟩
    rw [hone, Nat.sub_self] at hbefore
    rw [hbefore] at h0
    exact absurd h0 (by simp)
  have hroot : root_directory_start (d ++ separator :: n) (d.length + 1) ≠ some d.length := by
    rw [root_directory_start, if_neg (fun hc => hboth hc.2), if_neg (fun hc => hboth ⟨hc.2.1, hc.2.2.1⟩)]
    split
    · intro hzero
      rw [Option.some.injEq] at hzero
      omega
    · simp
  have hskip : skipSepsBack (d ++ separator :: n)
      (root_directory_start (d ++ separator :: n) (d.length + 1)) (d.length + 1) = d.length := by
    obtain ⟨l, hl⟩ : ∃ l, d.length = l + 1 := ⟨d.length - 1, by omega⟩
    rw [skipSepsBack, if_pos ⟨hroot, hsep⟩]
    rw [hl, Nat.add_sub_cancel] at hbefore
    rw [hl, skipSepsBack, if_neg (fun hc => by rw [hbefore] at hc; exact absurd hc.2 (by simp))]
  have hend : m_parent_path_end (d ++ separator :: n) = some d.length := by
    have hstart : isSep (d ++ separator :: n) (d.length + 1) = false := isSep_below d hn 0
    rw [m_parent_path_end, hfile, hskip, if_neg (fun hc => by rw [hstart] at hc; exact absurd hc.2.2.2 (by simp))]
  rw [parent_path, hend]
  exact List.take_left

/-- Names below a directory are one again. -/
theorem IsDirectory.joined (h : IsDirectory d) {names : List Bytes} (hne : names ≠ [])
    (hnames : ∀ n ∈ names, IsName n) : IsDirectory (d ++ separator :: Path.joined names) := by
  induction names using List.reverseRecOn with
  | nil => exact absurd rfl hne
  | append_singleton names n ih =>
    have hn := hnames n (by simp)
    by_cases hinit : names = []
    · rw [hinit, List.nil_append, joined_singleton]
      exact h.below hn
    · have hdir := (ih hinit fun m hm => hnames m (List.mem_append_left _ hm)).below hn
      rw [joined_append hinit (by simp), joined_singleton]
      rwa [List.append_assoc, List.cons_append] at hdir

/-- **What is above a path below a directory**: the path of some of its first
names, or something above the directory.  By induction on the steps. -/
theorem parents_joined (h : IsDirectory d) {names : List Bytes} (hne : names ≠ [])
    (hnames : ∀ n ∈ names, IsName n) : ∀ j : ℕ,
    (∃ first rest, names = first ++ rest ∧ first ≠ [] ∧ rest.length = j ∧
      parent_path^[j] (d ++ separator :: joined names) = d ++ separator :: joined first) ∨
    (parent_path^[j] (d ++ separator :: joined names)).length ≤ d.length := by
  intro j
  induction j with
  | zero => exact Or.inl ⟨names, [], (List.append_nil _).symm, hne, rfl, rfl⟩
  | succ j ih =>
    rw [Function.iterate_succ_apply']
    rcases ih with ⟨first, rest, hsplit, hfirst, hj, hpath⟩ | hshort
    · rw [hpath]
      obtain ⟨init, n, rfl⟩ : ∃ init n, first = init ++ [n] :=
        ⟨first.dropLast, first.getLast hfirst, (List.dropLast_append_getLast hfirst).symm⟩
      have hall : ∀ m ∈ init ++ [n], IsName m := fun m hm =>
        hnames m (hsplit ▸ List.mem_append_left _ hm)
      have hn := hall n (by simp)
      by_cases hinit : init = []
      · right
        rw [hinit, List.nil_append, joined_singleton, parent_path_below h hn]
      · left
        refine ⟨init, n :: rest, by rw [hsplit]; simp, hinit, by simp [hj], ?_⟩
        have hdir := h.joined hinit fun m hm => hall m (List.mem_append_left _ hm)
        rw [joined_append hinit (by simp), joined_singleton, ← List.cons_append, ← List.append_assoc]
        exact parent_path_below hdir hn
    · exact Or.inr ((parent_path_length_le _).trans hshort)

end Directory

/-! ### Names and prefixes -/

/-- A path is taken apart at its first separator. -/
theorem joined_eq_cons {n b t : Bytes} {names : List Bytes} (hn : IsName n) (hb : IsName b)
    (h : joined (n :: names) = b ++ separator :: t) : n = b ∧ names ≠ [] ∧ joined names = t := by
  have hfirst := takeWhile_joined names hn
  have hall : ∀ c ∈ b, decide (c ≠ separator) = true := by
    intro c hc
    rw [decide_eq_true_eq]
    rintro rfl
    exact hb.2 hc
  rw [h, List.takeWhile_append_of_pos hall, List.takeWhile_cons_of_neg (by simp),
    List.append_nil] at hfirst
  subst hfirst
  by_cases hnames : names = []
  · rw [hnames, joined_singleton] at h
    have hlen := congrArg List.length h
    rw [List.length_append, List.length_cons] at hlen
    omega
  · rw [joined_cons hnames] at h
    exact ⟨rfl, hnames, (List.cons.inj (List.append_cancel_left h)).2⟩

/-- **A path below another** has its names first. -/
theorem names_of_prefix : ∀ {above names : List Bytes} {t : Bytes}, above ≠ [] →
    (∀ n ∈ above, IsName n) → (∀ n ∈ names, IsName n) →
    joined names = joined above ++ separator :: t →
    ∃ rest, rest ≠ [] ∧ names = above ++ rest ∧ joined rest = t := by
  intro above
  induction above with
  | nil =>
    intro names t hne
    exact absurd rfl hne
  | cons b above ih =>
    intro names t _ habove hnames h
    have hb := habove b List.mem_cons_self
    cases names with
    | nil =>
      have hlen := congrArg List.length h
      simp at hlen
    | cons n names =>
      have hn := hnames n List.mem_cons_self
      have hrest := fun m hm => hnames m (List.mem_cons_of_mem n hm)
      by_cases hnil : above = []
      · rw [hnil, joined_singleton] at h
        obtain ⟨rfl, hne, ht⟩ := joined_eq_cons hn hb h
        exact ⟨names, hne, by rw [hnil, List.singleton_append], ht⟩
      · rw [joined_cons hnil, List.append_assoc, List.cons_append] at h
        obtain ⟨rfl, -, ht⟩ := joined_eq_cons hn hb h
        obtain ⟨rest, hne, hsplit, hjoined⟩ :=
          ih hnil (fun m hm => habove m (List.mem_cons_of_mem n hm)) hrest ht
        exact ⟨rest, hne, by rw [hsplit, List.cons_append], hjoined⟩

/-- The path above an argument with a separator at its end. -/
theorem parent_path_separator {p : Bytes} (h : NormalRel p) : parent_path (p ++ [separator]) = p := by
  have hpos := h.length_pos
  have hlen : (p ++ [separator]).length = p.length + 1 := by
    rw [List.length_append, List.length_singleton]
  have hzero : isSep (p ++ [separator]) 0 = false := by
    rw [isSep_append_left _ hpos, h.isSep_zero]
  have hsep : isSep (p ++ [separator]) p.length = true := by
    have hat := isSep_append_right p [separator] 0
    rwa [isSep_separator_cons] at hat
  have hbefore : isSep (p ++ [separator]) (p.length - 1) = false := by
    rw [isSep_append_left _ (by omega), h.isSep_last]
  have hfile : filename_pos (p ++ [separator]) (p ++ [separator]).length = p.length := by
    rw [filename_pos, hlen, if_neg (by rw [hzero]; simp), Nat.add_sub_cancel,
      if_pos ⟨Nat.succ_ne_zero _, hsep⟩]
  have hskip : skipSepsBack (p ++ [separator]) none p.length = p.length := by
    obtain ⟨l, hl⟩ : ∃ l, p.length = l + 1 := ⟨p.length - 1, by omega⟩
    rw [hl, Nat.add_sub_cancel] at hbefore
    rw [hl, skipSepsBack, if_neg (fun hc => by rw [hbefore] at hc; exact absurd hc.2 (by simp))]
  have hend : m_parent_path_end (p ++ [separator]) = some p.length := by
    rw [m_parent_path_end, hfile, root_directory_start_eq_none hzero, hskip, if_neg (by simp)]
  rw [parent_path, hend]
  exact List.take_left

theorem searchPath_separator {p : Bytes} (h : NormalRel p) :
    Snapshot.searchPath (p ++ [separator]) = p := by
  rw [Snapshot.searchPath, List.rdropWhile_concat_pos _ _ _ (by simp), List.rdropWhile_eq_self_iff]
  intro hne hsep
  have hlast := h.isSep_last
  rw [isSep, decide_eq_false_iff_not, List.getD_eq_getElem _ _ (by have := h.length_pos; omega)] at hlast
  rw [List.getLast_eq_getElem, decide_eq_true_eq] at hsep
  exact hlast hsep

/-! ### A directory is restored as it was -/

/-- The files of a directory tree: plain paths, each once, and none of them is
above another. -/
structure IsTree (files : List (Bytes × LocalFile)) : Prop where
  plain : ∀ file ∈ files, ∃ names, names ≠ [] ∧ (∀ n ∈ names, PlainName n) ∧ file.1 = joined names
  distinct : (files.map Prod.fst).Nodup
  leaves : ∀ file ∈ files, ∀ file' ∈ files, ∀ t, file'.1 ≠ file.1 ++ separator :: t

/-- Nothing is below the directory yet, and files below it can be written. -/
structure EmptyBelow (L : LocalEnv) (disk : LocalDisk) (d : Bytes) : Prop where
  files : ∀ t, disk.files.find? (d ++ separator :: t) = none
  directories : ∀ t, d ++ separator :: t ∉ disk.directories
  allowed : ∀ t, L.denied (d ++ separator :: t) = false
  flushed : ∀ t content, L.flushed (d ++ separator :: t) content = content

/-- The directories of a file below can be made, by induction on its names. -/
theorem EmptyBelow.canReach {L : LocalEnv} {disk : LocalDisk} {d : Bytes} (h : EmptyBelow L disk d)
    (hd : IsDirectory d) (hexists : d ∈ disk.directories) {names : List Bytes} (hne : names ≠ [])
    (hnames : ∀ n ∈ names, IsName n) : CanReach L disk (parent_path (d ++ separator :: joined names)) := by
  induction names using List.reverseRecOn with
  | nil => exact absurd rfl hne
  | append_singleton names n ih =>
    have hn := hnames n (by simp)
    have hinit : ∀ m ∈ names, IsName m := fun m hm => hnames m (List.mem_append_left _ hm)
    by_cases hnil : names = []
    · rw [hnil, List.nil_append, joined_singleton, parent_path_below hd hn]
      exact .there hd.1 hexists
    · have hparent : parent_path (d ++ separator :: joined (names ++ [n])) =
          d ++ separator :: joined names := by
        rw [joined_append hnil (by simp), joined_singleton, ← List.cons_append, ← List.append_assoc]
        exact parent_path_below (hd.joined hnil hinit) hn
      rw [hparent]
      exact .make (by simp) (h.allowed _) (h.files _) (ih hnil hinit)

section Tree

variable {L : LocalEnv} {options : CliOptions} {disk : LocalDisk} {destDir : Bytes}
  {dir : List Bytes} {files : List (Bytes × LocalFile)}

/-- A file below the directory, by the names that are left of its path. -/
structure FileBelow (L : LocalEnv) (destDir : Bytes) (dir : List Bytes)
    (m : Bytes × (Bytes × LocalFile)) (rest : List Bytes) : Prop where
  ne_nil : rest ≠ []
  plain : ∀ n ∈ rest, PlainName n
  path : m.2.1 = joined dir ++ separator :: joined rest
  relative : L.relative (Snapshot.rekey m.2.1) (parent_path m.1) = joined rest
  target : (targetOf L destDir m).1 = destDir ++ separator :: joined rest

/-- **What the argument selects**: the files below the directory. -/
theorem Below.fileBelow (htree : IsTree files) (hne : dir ≠ []) (hdir : ∀ n ∈ dir, PlainName n)
    (hdest : IsDirectory destDir) (hself : ∀ file ∈ files, file.1 ≠ joined dir)
    (hlocal : L.canonical (joined dir) = none) (hlocals : ∀ file ∈ files, L.canonical file.1 = none)
    {m : Bytes × (Bytes × LocalFile)} (hm : Below [joined dir ++ [separator]] files m) :
    ∃ rest, FileBelow L destDir dir m rest := by
  obtain ⟨hsrc, hfile, hunder⟩ := hm
  obtain ⟨names, hnames, hplain, hpath⟩ := htree.plain m.2 hfile
  have hnormal : NormalRel (joined dir) := joined_normalRel hne fun n hn => (hdir n hn).1
  rw [List.mem_singleton.mp hsrc, searchPath_separator hnormal] at hunder
  -- only what has a separator behind the directory is left
  have hbelow : ∃ t, m.2.1 = joined dir ++ separator :: t := by
    by_cases hsep : separator ∈ m.2.1
    · rw [Snapshot.rekey, if_pos hsep] at hunder
      rcases hunder with hnil | hself' | ⟨t, ht⟩
      · exact absurd hnil hnormal.ne_nil
      · exact absurd hself' (hself m.2 hfile)
      · exact ⟨t, by rw [← ht, List.append_assoc, List.singleton_append]⟩
    · rw [Snapshot.rekey, if_neg hsep] at hunder
      have hhead := hnormal.isSep_zero
      rcases hunder with hnil | hself' | ⟨t, ht⟩
      · exact absurd hnil hnormal.ne_nil
      · rw [← hself', isSep_separator_cons] at hhead
        exact absurd hhead (by simp)
      · have hzero := isSep_append_left ([separator] ++ t) hnormal.length_pos
        rw [← List.append_assoc, ht, isSep_separator_cons, hhead] at hzero
        exact absurd hzero (by simp)
  obtain ⟨t, ht⟩ := hbelow
  rw [hpath] at ht
  obtain ⟨rest, hrest, hsplit, hjoined⟩ := names_of_prefix hne (fun n hn => (hdir n hn).1)
    (fun n hn => (hplain n hn).1) ht
  have hrestPlain : ∀ n ∈ rest, PlainName n := fun n hn =>
    hplain n (hsplit ▸ List.mem_append_right _ hn)
  have hfull : m.2.1 = joined dir ++ separator :: joined rest := by
    rw [hpath, ht, hjoined]
  have hkey : Snapshot.rekey m.2.1 = joined (dir ++ rest) := by
    rw [Snapshot.rekey, if_pos (by rw [hfull]; simp), hfull, joined_append hne hrest]
  have hrelative : L.relative (Snapshot.rekey m.2.1) (parent_path m.1) = joined rest := by
    rw [hkey, List.mem_singleton.mp hsrc, parent_path_separator hnormal]
    refine relative_joined hne hrest (hsplit ▸ hplain) ?_ hlocal
    rw [← hsplit, ← hpath]
    exact hlocals m.2 hfile
  refine ⟨rest, hrest, hrestPlain, hfull, hrelative, ?_⟩
  have hrel := joined_normalRel hrest fun n hn => (hrestPlain n hn).1
  show Path.append destDir _ = _
  rw [hrelative, Path.append, if_neg hrel.ne_nil, hrel.isSep_zero, if_neg Bool.false_ne_true,
    appendSeparatorIfNeeded, if_pos ⟨hdest.1, hdest.2.1⟩, List.append_assoc, List.singleton_append]

/-- **An empty directory has room for a tree.** -/
theorem RestorePlan.of_directory (htree : IsTree files) (hne : dir ≠ [])
    (hdir : ∀ n ∈ dir, PlainName n) (hdest : IsDirectory destDir)
    (hself : ∀ file ∈ files, file.1 ≠ joined dir)
    (hbetween : ∀ file ∈ files, ¬ Snapshot.Between (joined dir) (Snapshot.rekey file.1))
    (hlocal : L.canonical (joined dir) = none) (hlocals : ∀ file ∈ files, L.canonical file.1 = none)
    (hexists : destDir ∈ disk.directories) (hempty : EmptyBelow L disk destDir) :
    RestorePlan L options disk destDir [joined dir ++ [separator]] files := by
  have hbelow : ∀ m, Below [joined dir ++ [separator]] files m → ∃ rest, FileBelow L destDir dir m rest :=
    fun m hm => hm.fileBelow htree hne hdir hdest hself hlocal hlocals
  have hinj : ∀ m, Below [joined dir ++ [separator]] files m → ∀ m',
      Below [joined dir ++ [separator]] files m' →
      (targetOf L destDir m).1 = (targetOf L destDir m').1 → m = m' := by
    intro m hm m' hm' heq
    obtain ⟨rest, hr⟩ := hbelow m hm
    obtain ⟨rest', hr'⟩ := hbelow m' hm'
    rw [hr.target, hr'.target] at heq
    have hpath : m.2.1 = m'.2.1 := by
      rw [hr.path, hr'.path, (List.cons.inj (List.append_cancel_left heq)).2]
    refine Prod.ext ((List.mem_singleton.mp hm.1).trans (List.mem_singleton.mp hm'.1).symm) ?_
    exact List.inj_on_of_nodup_map htree.distinct hm.2.1 hm'.2.1 hpath
  refine ⟨?_, ?_, ?_, ?_, ?_, ?_, Or.inr ⟨List.nodup_singleton _, ?_, hinj⟩, ?_⟩
  · intro m hm
    obtain ⟨rest, hr⟩ := hbelow m hm
    exact ⟨rest, hr.plain, hr.relative⟩
  · intro m hm
    obtain ⟨rest, hr⟩ := hbelow m hm
    rw [hr.target]
    exact ⟨hempty.allowed _, hempty.flushed _ _⟩
  · intro m hm
    obtain ⟨rest, hr⟩ := hbelow m hm
    rw [hr.target]
    exact hempty.canReach hdest hexists hr.ne_nil fun n hn => (hr.plain n hn).1
  · intro m hm
    obtain ⟨rest, hr⟩ := hbelow m hm
    rw [hr.target]
    exact hempty.directories _
  · intro m hm m' hm' j heq
    obtain ⟨rest, hr⟩ := hbelow m hm
    obtain ⟨rest', hr'⟩ := hbelow m' hm'
    rw [hr.target, hr'.target] at heq
    rcases parents_joined hdest hr'.ne_nil (fun n hn => (hr'.plain n hn).1) (j + 1) with
      ⟨first, last, hsplit, hfirst, hlast, hparent⟩ | hshort
    · -- the one file would be above the other
      rw [hparent] at heq
      have hsame := (List.cons.inj (List.append_cancel_left heq)).2
      have hlast : last ≠ [] := by
        rintro rfl
        simp at hlast
      refine htree.leaves m.2 hm.2.1 m'.2 hm'.2.1 (joined last) ?_
      rw [hr'.path, hr.path, hsplit, joined_append hfirst hlast, hsame, List.append_assoc,
        List.cons_append]
    · rw [← heq, List.length_append, List.length_cons] at hshort
      omega
  · intro m hm m' hm' heq
    rw [hinj m hm m' hm' heq]
  · intro m hm
    obtain ⟨rest, hr⟩ := hbelow m hm
    rw [hr.target]
    exact hempty.files _
  · intro srcFile hsrc
    rw [List.mem_singleton.mp hsrc,
      searchPath_separator (joined_normalRel hne fun n hn => (hdir n hn).1)]
    exact Or.inr (Or.inr hbetween)

/-- **A directory comes back as it was.**  On a system where neither the directory
nor its files exist, and with no path between it and what is below it, a restore of
it to a directory in which there is nothing returns; every file that was below it is
below the destination, under what is left of its path and with its content, and no
other file changed. -/
theorem downloadFiles_tree {E : Env} (hC : E.C.Lawful) (hsane : E.options.Sane)
    {keys : RepositoryKeys} {P : Set Bytes} {password name : Bytes} {s : Session FileDataStore}
    (hlocked : Locked FileDataStore.storeModel E keys P password s)
    (hrestorable : Restorable E keys s.store.contents name files) (htree : IsTree files)
    (hne : dir ≠ []) (hdir : ∀ n ∈ dir, PlainName n) (hself : ∀ file ∈ files, file.1 ≠ joined dir)
    (hbetween : ∀ file ∈ files, ¬ Snapshot.Between (joined dir) (Snapshot.rekey file.1))
    (hlocal : L.canonical (joined dir) = none) (hlocals : ∀ file ∈ files, L.canonical file.1 = none)
    (hdest : IsDirectory destDir) (hexists : destDir ∈ disk.directories)
    (hempty : EmptyBelow L disk destDir) (hdry : options.dryRun = false) :
    ∃ n, ∀ fuel ≥ n, ∀ progress : FileEntry → FileTransferProgressFunction,
      (∀ fe a b i j, progress fe a b i j = true) →
      ∃ disk' s', downloadFiles E L options fuel password name destDir [joined dir ++ [separator]]
          progress disk s = ok disk' s' ∧ s'.store = s.store ∧
        (∀ file ∈ files, ∀ t, file.1 = joined dir ++ separator :: t →
          disk'.files.find? (destDir ++ separator :: t) = some file.2.content) ∧
        ∀ p, (∀ file ∈ files, ∀ t, file.1 = joined dir ++ separator :: t →
            p ≠ destDir ++ separator :: t) → disk'.files.find? p = disk.files.find? p := by
  have hnormal : NormalRel (joined dir) := joined_normalRel hne fun n hn => (hdir n hn).1
  have hplan : RestorePlan L options disk destDir [joined dir ++ [separator]] files :=
    RestorePlan.of_directory htree hne hdir hdest hself hbetween hlocal hlocals hexists hempty
  have htarget : ∀ m, Below [joined dir ++ [separator]] files m →
      ∃ t, m.2.1 = joined dir ++ separator :: t ∧
        (targetOf L destDir m).1 = destDir ++ separator :: t := by
    intro m hm
    obtain ⟨rest, hr⟩ := hm.fileBelow htree hne hdir hdest hself hlocal hlocals
    exact ⟨joined rest, hr.path, hr.target⟩
  obtain ⟨n, hn⟩ := downloadFiles_run hC hsane hlocked hrestorable hexists (by simp) hplan hdry
  refine ⟨n, fun fuel hfuel progress hprog => ?_⟩
  obtain ⟨disk', s', hrun, hstore, hwritten, hothers⟩ := hn fuel hfuel progress hprog
  refine ⟨disk', s', hrun, hstore, fun file hfile t ht => ?_, fun p hp => hothers p fun m hm => ?_⟩
  · have hbelow : Below [joined dir ++ [separator]] files (joined dir ++ [separator], file) := by
      refine ⟨List.mem_cons_self, hfile, Or.inr (Or.inr ?_)⟩
      rw [searchPath_separator hnormal, Snapshot.rekey, if_pos (by rw [ht]; simp), ht]
      exact ⟨t, by rw [List.append_assoc, List.singleton_append]⟩
    obtain ⟨t', ht', hat⟩ := htarget _ hbelow
    have hsame := (List.cons.inj (List.append_cancel_left (ht.symm.trans ht'))).2
    rw [hsame, ← hat]
    exact hwritten _ hbelow
  · obtain ⟨t, ht, hat⟩ := htarget m hm
    rw [hat]
    exact hp m.2 hm.2.1 t ht

end Tree

theorem pictures_tree : IsTree pictures := by
  have hx : PlainName (ascii "x") := ⟨⟨by decide, by decide⟩, by decide, by decide⟩
  refine ⟨fun file hfile => ?_, by decide, fun file hfile file' hfile' t heq => ?_⟩
  · rcases List.mem_pair.mp hfile with rfl | rfl
    · refine ⟨[ascii "x", ascii "a.png"], by simp, fun n hn => ?_, by decide⟩
      rcases List.mem_pair.mp hn with rfl | rfl
      · exact hx
      · exact ⟨⟨by decide, by decide⟩, by decide, by decide⟩
    · refine ⟨[ascii "x", ascii "b.png"], by simp, fun n hn => ?_, by decide⟩
      rcases List.mem_pair.mp hn with rfl | rfl
      · exact hx
      · exact ⟨⟨by decide, by decide⟩, by decide, by decide⟩
  · -- no path is longer than another
    have hlen := congrArg List.length heq
    have hlength : ∀ f ∈ pictures, f.1.length = 7 := by decide
    rw [List.length_append, List.length_cons, hlength file hfile, hlength file' hfile'] at hlen
    omega

theorem outDisk_empty : EmptyBelow newDisk outDisk (ascii "/out") := by
  refine ⟨fun _ => rfl, fun t ht => ?_, fun _ => rfl, fun _ _ => rfl⟩
  have hlen := congrArg List.length (List.mem_singleton.mp ht)
  rw [List.length_append, List.length_cons] at hlen
  omega

theorem pictures_between : ∀ file ∈ pictures, ¬ Snapshot.Between (ascii "x") (Snapshot.rekey file.1) := by
  have hslash : ∀ {n c rest}, Snapshot.rekey (ascii "x/" ++ n) = ascii "x" ++ c :: rest → c < separator →
      False := by
    intro n c rest heq hlt
    rw [Snapshot.rekey, if_pos (show separator ∈ ascii "x/" ++ n from List.mem_cons_of_mem _ List.mem_cons_self)]
      at heq
    have hc : separator = c := (List.cons.inj (List.cons.inj heq).2).1
    rw [hc] at hlt
    exact lt_irrefl _ hlt
  intro file hfile
  rcases List.mem_pair.mp hfile with rfl | rfl
  · rintro ⟨c, rest, heq, hlt⟩
    exact hslash (n := ascii "a.png") heq hlt
  · rintro ⟨c, rest, heq, hlt⟩
    exact hslash (n := ascii "b.png") heq hlt

theorem pictures_plan :
    RestorePlan newDisk .default outDisk (ascii "/out") [joined [ascii "x"] ++ [separator]] pictures :=
  RestorePlan.of_directory pictures_tree (by simp)
    (fun n hn => by
      rw [List.mem_singleton.mp hn]
      exact ⟨⟨by decide, by decide⟩, by decide, by decide⟩)
    ⟨by decide, by decide, by decide⟩ (by decide) pictures_between rfl (fun _ _ => rfl) List.mem_cons_self
    outDisk_empty

/-- The pictures in `x` are restored to `/out`. -/
theorem downloadFiles_tree_pictures :
    ∃ s₁ n, backupFiles cycleEnv .default [97] (ascii "s") (fun _ _ => DefaultFileTransferProgressFunction)
        picturesArgs cycleSession = ok () s₁ ∧
      ∀ fuel ≥ n, ∃ disk' s₂, downloadFiles cycleEnv newDisk .default fuel [97] (ascii "s") (ascii "/out")
          [ascii "x/"] (fun _ => DefaultFileTransferProgressFunction) outDisk s₁ = ok disk' s₂ ∧
        disk'.files.find? (ascii "/out/a.png") = some [97] ∧
        disk'.files.find? (ascii "/out/b.png") = some [97, 98] := by
  obtain ⟨s₁, hrun, hlocked, hrestorable⟩ := pictures_backup
  obtain ⟨n, hn⟩ := downloadFiles_tree cycleTables.crypto_lawful splitOptions_sane hlocked
    hrestorable pictures_tree (show [ascii "x"] ≠ [] by simp)
    (fun n hn => by
      rw [List.mem_singleton.mp hn]
      exact ⟨⟨by decide, by decide⟩, by decide, by decide⟩)
    (by decide) pictures_between (show newDisk.canonical _ = none from rfl) (fun _ _ => rfl)
    ⟨by decide, by decide, by decide⟩ List.mem_cons_self outDisk_empty
    (show CliOptions.default.dryRun = false from rfl)
  refine ⟨s₁, n, hrun, fun fuel hfuel => ?_⟩
  obtain ⟨disk', s₂, hdownload, -, hwritten, -⟩ := hn fuel hfuel
    (fun _ => DefaultFileTransferProgressFunction) fun _ _ _ _ _ => rfl
  exact ⟨disk', s₂, hdownload, hwritten _ List.mem_cons_self (ascii "a.png") (by decide),
    hwritten _ (List.mem_cons_of_mem _ List.mem_cons_self) (ascii "b.png") (by decide)⟩

end Nebula
