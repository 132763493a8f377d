/-
What a backup adds to a repository.

Every object has the name of what it holds, and `uploadFile` and `finalizePack`
look for the name before they write.  So a backup that returns has added
exactly the blocks and packs that were missing: afterwards the store has the
objects that it had, those of the parts of the backup and the snapshot.  In
particular a second backup of the same files adds its snapshot and nothing else,
whatever happened in between.  Main results:

* `backupFiles_objects` — what is in the store after a backup;
* `backupFiles_incremental` — a backup, any calls, and another backup.
-/
import NebulaBackup.CommandRuns

namespace Nebula

open EStateM.Result Hoare FileDataStore
open Nebula.Path

/-! ### Stores that are filled up -/

/-- Nothing that is stored changes, and what is new is under the given paths,
all of which are there now. -/
structure Fills (paths : List Bytes) (c c' : Contents) : Prop where
  grows : Grows c c'
  present : ∀ path, c' path ≠ none ↔ c path ≠ none ∨ path ∈ paths

namespace Fills

variable {paths paths' : List Bytes} {c c' c'' : Contents}

theorem refl (c : Contents) : Fills [] c c :=
  ⟨Grows.refl c, fun path => by simp⟩

theorem trans (h : Fills paths c c') (h' : Fills paths' c' c'') : Fills (paths ++ paths') c c'' := by
  refine ⟨h.grows.trans h'.grows, fun path => ?_⟩
  rw [h'.present, h.present, List.mem_append, or_assoc]

/-- An object that is there is left alone. -/
theorem of_found {path : Bytes} (h : c path ≠ none) : Fills [path] c c := by
  refine ⟨Grows.refl c, fun q => ⟨Or.inl, ?_⟩⟩
  rintro (hq | hq)
  · exact hq
  · rw [List.mem_singleton.mp hq]
    exact h

/-- An object that is missing is written. -/
theorem of_missing {path bytes : Bytes} (h : c path = none) :
    Fills [path] c (Function.update c path (some bytes)) := by
  refine ⟨Grows.update h _, fun q => ?_⟩
  by_cases hq : q = path
  · rw [hq, Function.update_self]
    simp
  · rw [Function.update_of_ne hq]
    simp [hq]

end Fills

/-- **Blocks** fill up the store. -/
theorem BlockSteps.fills {C : Crypto} {keys : RepositoryKeys} {t : CompressionType}
    {blocks : List Bytes} {c c' : Contents} (h : BlockSteps C keys t blocks c c') :
    Fills (blocks.map (blockPath C keys t)) c c' := by
  induction h with
  | nil c => exact Fills.refl c
  | @cons block blocks c c' c'' hstep _ ih =>
    have hfirst : Fills [blockPath C keys t block] c c' := by
      rcases hstep with ⟨hfound, rfl⟩ | ⟨hnone, iv, rfl⟩
      · exact Fills.of_found hfound
      · exact Fills.of_missing hnone
    exact hfirst.trans ih

/-- **A pack** fills up the store. -/
theorem PackStep.fills {C : Crypto} {keys : RepositoryKeys} {p : PackUploadState} {path : Bytes}
    {c c' : Contents} {infos : List PackFileInfo} (h : PackStep C keys p path c c' infos) :
    Fills [path] c c' := by
  rcases h with ⟨hfound, rfl, -⟩ | ⟨hnone, objects, -, rfl, -⟩
  · exact Fills.of_found hfound
  · exact Fills.of_missing hnone

/-! ### The objects of a backup -/

/-- Where the objects of a part are. -/
def BackupPart.objects (E : Env) (keys : RepositoryKeys) : BackupPart → List Bytes
  | large file => (entryOf E keys file).objectIds.map fun id => objectPath (objectName id)
  | pack files => [packPath E.C keys files]

/-- Where the objects of a backup are. -/
def objectsOf (E : Env) (keys : RepositoryKeys) (parts : List BackupPart) : List Bytes :=
  parts.flatMap (BackupPart.objects E keys)

/-- They are paths of objects. -/
theorem objectsOf_eq {E : Env} {keys : RepositoryKeys} {parts : List BackupPart} {path : Bytes}
    (h : path ∈ objectsOf E keys parts) : ∃ objectId, path = objectPath (objectName objectId) := by
  obtain ⟨part, -, hpath⟩ := List.mem_flatMap.mp h
  cases part with
  | large file =>
    obtain ⟨objectId, -, rfl⟩ := List.mem_map.mp hpath
    exact ⟨objectId, rfl⟩
  | pack files => exact ⟨_, List.mem_singleton.mp hpath⟩

/-- The strings of a file are C strings. -/
def CStrings (file : Bytes × LocalFile) : Prop :=
  0 ∉ file.1 ∧ 0 ∉ file.2.info.mUserName ∧ 0 ∉ file.2.info.mGroupName

theorem packEntries_nulFree (C : Crypto) (objectId : ObjectID) {files : List (Bytes × LocalFile)}
    (hfiles : ∀ file ∈ files, CStrings file) (ranges : List (UInt32 × UInt32)) :
    ∀ a ∈ (packEntries C files ranges).map (PackFileInfo.args · objectId), Snapshot.NulFree a := by
  intro a ha
  obtain ⟨fi, hfi, rfl⟩ := List.mem_map.mp ha
  rw [packEntries, ← List.map_uncurry_zip_eq_zipWith] at hfi
  obtain ⟨m, hm, rfl⟩ := List.mem_map.mp hfi
  obtain ⟨hpath, huser, hgroup⟩ := hfiles m.1 (List.of_mem_zip hm).1
  exact ⟨hpath, huser, hgroup⟩

section Calls

variable {δ : Type} [DataStore δ] {M : StoreModel δ} {E : Env} {keys : RepositoryKeys}
  {hash : Option RollingHash} {pending : List (Bytes × LocalFile)} {s : Session δ}

/-- The state of a backup between two calls, on a store of which nothing is
known. -/
structure UploadInv (M : StoreModel δ) (E : Env) (keys : RepositoryKeys) (hash : Option RollingHash)
    (pending : List (Bytes × LocalFile)) (s : Session δ) : Prop where
  inv : BackupInv M E keys ∅ hash pending s
  names : ∀ file ∈ pending, CStrings file
  wf : s.snapshot.WF

/-- **A pack is written**, unless there is an object of its name. -/
theorem UploadInv.write (h : UploadInv M E keys hash pending s) (hC : E.C.Lawful)
    (hopen : hash ≠ none) (progress : FileTransferProgressFunction) :
    ∃ s', finalizePack E progress s = ok () s' ∧ UploadInv M E keys none [] s' ∧
      Fills ((BackupPart.pack pending).objects E keys) (M.contents s.store) (M.contents s'.store) := by
  have hkeys := h.inv.keys_eq
  subst hkeys
  obtain ⟨d, n, hmac, infos, hrun, hd, hstep⟩ := finalizePack_run M hC h.inv.store_ok h.inv.good
    (by rw [h.inv.hash_eq]; exact hopen) progress
  have hpath : objectPath (objectName (packId E.C s.keys s.pack.packData)) =
      packPath E.C s.keys pending := by
    rw [h.inv.data]
    rfl
  rw [hpath] at hstep
  obtain ⟨ranges, hlen, hentries⟩ := h.inv.infos
  -- whichever ranges they got, the entries have the names of the files
  have hinfos : ∃ ranges', infos = packEntries E.C pending ranges' := by
    rcases hstep with ⟨-, -, rfl⟩ | ⟨-, objects, hsealed, -, rfl⟩
    · exact ⟨ranges, hentries⟩
    · rw [hentries, h.inv.data] at hsealed
      have hmembers := MemberObjects.of_entries hlen hsealed
      rw [hentries, laidOut_packEntries _ _ _ _ _ hlen (List.Forall₂.length_eq hmembers).symm]
      exact ⟨_, rfl⟩
  obtain ⟨ranges', rfl⟩ := hinfos
  refine ⟨_, hrun, ⟨⟨hd, rfl, ⟨rfl, fun _ => rfl, fun hne => absurd rfl hne⟩, rfl, ⟨[], rfl, rfl⟩, rfl,
    fun _ _ hblock => hblock.elim⟩, fun _ hfile => absurd hfile List.not_mem_nil, ?_⟩, hstep.fills⟩
  have hkeeps := Snapshot.addAll_keeps h.wf
    (packEntries_nulFree E.C (packId E.C s.keys s.pack.packData) h.names ranges')
  rw [List.map_map] at hkeeps
  exact hkeeps.1

/-- **A large file** is stored at once. -/
theorem UploadInv.large (h : UploadInv M E keys hash pending s) (hC : E.C.Lawful)
    (hsane : E.options.Sane) (destPath : Bytes) {f : LocalFile} (hlarge : ¬ f.isSmall E)
    (hnames : CStrings (destPath, f)) (hcount : (entryOf E keys (destPath, f)).objectIds.length ≤ 65535)
    {progress : FileTransferProgressFunction} (hprog : ∀ a b i j, progress a b i j = true) :
    ∃ s', uploadFilePacked E destPath f.info (.openRead f.content) progress s = ok () s' ∧
      UploadInv M E keys hash pending s' ∧
      Fills ((BackupPart.large (destPath, f)).objects E keys) (M.contents s.store)
        (M.contents s'.store) := by
  have hkeys := h.inv.keys_eq
  subst hkeys
  obtain ⟨bits, blocks, hblocks⟩ := f.blocks_ok hsane s.keys
  have hentry : entryOf E s.keys (destPath, f) = f.args E s.keys destPath bits blocks := by
    rw [entryOf, hblocks]
  obtain ⟨d, n, hd, hsteps, hrun⟩ := uploadFileWith_run M hC h.inv.store_ok true destPath f
    (Or.inr hlarge) hprog hblocks
  obtain ⟨snapshot, hadd⟩ := Snapshot.addFileEntry_ok (s := s.snapshot) hcount
  rw [← hentry, hadd] at hrun
  have hfills := hsteps.fills
  refine ⟨_, hrun, ⟨{ h.inv with store_ok := hd, sound := fun _ _ hblock => hblock.elim }, h.names, ?_⟩,
    ?_⟩
  · refine (Snapshot.addFileEntry_spec h.wf ?_ hadd).2.1
    rw [hentry]
    exact ⟨normalizedPath_nul hnames.1, hnames.2.1, hnames.2.2⟩
  · rw [BackupPart.objects, hentry, LocalFile.args, List.map_map]
    exact hfills

/-- **The calls of a backup** return and fill up the store, by induction on
them. -/
theorem uploads_fill (hC : E.C.Lawful) (hsane : E.options.Sane) :
    ∀ (ops : List PackOp) {hash : Option RollingHash} {pending : List (Bytes × LocalFile)}
      {s : Session δ}, UploadInv M E keys hash pending s → (∀ op ∈ ops, op.NeverCancels) →
      (∀ destPath f progress, PackOp.upload destPath f progress ∈ ops → CStrings (destPath, f)) →
      (∀ file, .large file ∈ partsFrom E keys hash pending ops →
        (entryOf E keys file).objectIds.length ≤ 65535) →
      ∃ hash' pending' s', runCommands E ops s = ok () s' ∧ UploadInv M E keys hash' pending' s' ∧
        Fills (objectsOf E keys (partsFrom E keys hash pending ops)) (M.contents s.store)
          (M.contents s'.store) := by
  intro ops
  induction ops with
  | nil =>
    intro hash pending s h _ _ _
    exact ⟨hash, pending, s, rfl, h, Fills.refl _⟩
  | cons op ops ih =>
    intro hash pending s h hcancel hnames hcounts
    have hcancel' := fun o ho => hcancel o (List.mem_cons_of_mem op ho)
    have hnames' := fun p f g ho => hnames p f g (List.mem_cons_of_mem op ho)
    cases op with
    | finalize progress =>
      cases hash with
      | none =>
        obtain ⟨hash', pending', s', hrun, hinv, hfills⟩ := ih h hcancel' hnames' hcounts
        exact ⟨hash', pending', s', run_step (finalizePack_closed h.inv.hash_eq progress) hrun, hinv,
          hfills⟩
      | some r =>
        obtain ⟨s₁, hfin, hs₁, hfirst⟩ := h.write hC (by simp) progress
        obtain ⟨hash', pending', s', hrun, hinv, hfills⟩ := ih hs₁ hcancel' hnames'
          fun file hfile => hcounts file (List.mem_cons_of_mem _ hfile)
        exact ⟨hash', pending', s', run_step hfin hrun, hinv, hfirst.trans hfills⟩
    | upload destPath f progress =>
      have hprog : ∀ a b i j, progress a b i j = true := hcancel _ List.mem_cons_self
      have hstrings := hnames destPath f progress List.mem_cons_self
      rw [partsFrom] at hcounts ⊢
      by_cases hsmall : f.isSmall E
      · rw [if_pos hsmall] at hcounts ⊢
        obtain ⟨s₁, hpack, hinv₁, hsnap, hstore⟩ := h.inv.add (normalizedPath destPath) f
        have hs₁ : UploadInv M E keys _ _ s₁ := ⟨hinv₁, by
          intro file hfile
          rcases List.mem_append.mp hfile with hold | hlast
          · exact h.names file hold
          · rw [List.mem_singleton.mp hlast]
            exact ⟨normalizedPath_nul hstrings.1, hstrings.2⟩, hsnap ▸ h.wf⟩
        have hup := uploadFilePacked_small destPath hsmall progress s
        rw [run_ok hpack] at hup
        cases hroll : rollAll (hash.getD (RollingHash.new E.C keys.mRollKey.toList 8192)) f.content with
        | mk writePack r =>
          rw [hroll] at hup hs₁ hcounts
          rw [← hstore]
          cases writePack with
          | true =>
            -- the rolling hash ends the pack with this file in it
            obtain ⟨s₂, hfin, hs₂, hfirst⟩ := hs₁.write hC (by simp) progress
            obtain ⟨hash', pending', s', hrun, hinv, hfills⟩ := ih hs₂ hcancel' hnames'
              fun file hfile => hcounts file (List.mem_cons_of_mem _ hfile)
            exact ⟨hash', pending', s', run_step (hup.trans hfin) hrun, hinv, hfirst.trans hfills⟩
          | false =>
            obtain ⟨hash', pending', s', hrun, hinv, hfills⟩ := ih hs₁ hcancel' hnames' hcounts
            rw [if_neg (by simp), if_neg (by rw [hprog]; simp)] at hup
            exact ⟨hash', pending', s', run_step hup hrun, hinv, hfills⟩
      · rw [if_neg hsmall] at hcounts ⊢
        obtain ⟨s₁, hup, hs₁, hfirst⟩ := h.large hC hsane destPath hsmall hstrings
          (hcounts _ List.mem_cons_self) hprog
        obtain ⟨hash', pending', s', hrun, hinv, hfills⟩ := ih hs₁ hcancel' hnames'
          fun file hfile => hcounts file (List.mem_cons_of_mem _ hfile)
        exact ⟨hash', pending', s', run_step hup hrun, hinv, hfirst.trans hfills⟩

end Calls

/-- The calls of a backup upload its files. -/
theorem backupOps_files {progress : ℕ → ℕ → FileTransferProgressFunction} {destPath : Bytes}
    {f : LocalFile} {g : FileTransferProgressFunction} :
    ∀ (files : List (List (Bytes × LocalFile))) (i : ℕ),
      PackOp.upload destPath f g ∈ backupOps progress i files → (destPath, f) ∈ files.flatten := by
  have harg : ∀ (i : ℕ) (files : List (Bytes × LocalFile)) (j : ℕ),
      PackOp.upload destPath f g ∈ argOps (progress i) j files → (destPath, f) ∈ files := by
    intro i files
    induction files with
    | nil =>
      intro j hop
      exact absurd (List.mem_singleton.mp hop) (by simp)
    | cons file files ih =>
      intro j hop
      rcases List.mem_cons.mp hop with heq | hop
      · obtain ⟨rfl, rfl, -⟩ := PackOp.upload.inj heq
        exact List.mem_cons_self
      · exact List.mem_cons_of_mem file (ih (j + 1) hop)
  intro files
  induction files with
  | nil =>
    intro i hop
    exact absurd hop List.not_mem_nil
  | cons file files ih =>
    intro i hop
    rw [List.flatten_cons, List.mem_append]
    rcases List.mem_append.mp hop with hop | hop
    · exact Or.inl (harg i file 0 hop)
    · exact Or.inr (ih (i + 1) hop)

/-! ### The whole command -/

section Command

variable {δ : Type} [DataStore δ] {M : StoreModel δ} {E : Env} {keys : RepositoryKeys}
  {P : Set Bytes} {password : Bytes} {s : Session δ} {options : CliOptions}
  {progress : ℕ → ℕ → FileTransferProgressFunction} {args : List (Bytes × LocalArg)}
  {files : List (List (Bytes × LocalFile))}

/-- **What a backup adds.**  On any store that the password unlocks a backup
returns.  What was stored is stored still, apart from a snapshot of the same
name; what is new are the objects of its parts that were missing, and the
snapshot. -/
theorem backupFiles_objects (hC : E.C.Lawful) (hsane : E.options.Sane)
    (hlocked : Locked M E keys P password s) (hdry : options.dryRun = false)
    (hprog : ∀ i j a b x y, progress i j a b x y = true)
    (hargs : args.map (fun a => a.2.files a.1) = files.map (List.map entryFile))
    (hnames : ∀ file ∈ files.flatten, CStrings file)
    (hcounts : ∀ file, .large file ∈ backupParts E keys files →
      (entryOf E keys file).objectIds.length ≤ 65535) (name : Bytes) :
    ∃ s' c bytes, backupFiles E options password name progress args s = ok () s' ∧
      Fills (objectsOf E keys (backupParts E keys files)) (M.contents s.store) c ∧
      M.contents s'.store = Function.update c (snapshotPath name) (some bytes) := by
  have hdefault : ∀ i j, DefaultProgressFunction i j = true := fun _ _ => rfl
  obtain ⟨d, u, hd, hcont, hunlock⟩ := hlocked.unlock hC hlocked.current_mem hdefault
  rw [decide_eq_true rfl, if_pos rfl] at hunlock
  have hparts : partsFrom E keys none [] (backupOps progress 0 files) = backupParts E keys files :=
    partsFrom_backupOps E keys _ _ files 0 none []
  have hstart : UploadInv M E keys none []
      { s with store := d, keys := keys, uninitUsed := u, snapshot := .new, pack := .new } :=
    ⟨⟨hd, rfl, ⟨rfl, fun _ => rfl, fun h => absurd rfl h⟩, rfl, ⟨[], rfl, rfl⟩, rfl,
      fun _ _ hblock => hblock.elim⟩, fun _ hfile => absurd hfile List.not_mem_nil, Snapshot.new_wf⟩
  rw [← hparts] at hcounts
  obtain ⟨hash', pending', s₁, hrun, hinv, hfills⟩ := uploads_fill hC hsane
    (backupOps progress 0 files) hstart (backupOps_neverCancels hprog files 0)
    (fun destPath f g hop => hnames _ (backupOps_files files 0 hop)) hcounts
  rw [hparts] at hfills
  rw [← backupArgs_eq hdry progress 0 hargs] at hrun
  have huploads : backupUploads E options progress args { s with store := d, keys := keys, uninitUsed := u } =
      ok () s₁ := hrun
  obtain ⟨d', n, iv, hcommit, hd', hcont'⟩ := commitSnapshot_run M hC hinv.inv.store_ok hinv.wf name
    hdefault
  refine ⟨_, M.contents s₁.store, _, run_step (run_step (library_ok hunlock) rfl)
    (run_step (library_ok huploads) (library_ok hcommit)), ?_, hcont'⟩
  rw [← hcont]
  exact hfills

end Command

/-- **A later backup** is incremental.  Whatever calls there were since the
first one, as long as the repository can be unlocked, it returns with the
objects of its files in the store, and what it wrote for them are objects that
the first backup did not have.  A second backup of the same files writes its
snapshot alone. -/
theorem backupFiles_incremental {E : Env} (hC : E.C.Lawful) (hsane : E.options.Sane)
    {keys : RepositoryKeys} {P : Set Bytes} {password : Bytes} {s : Session FileDataStore}
    (hlocked : Locked FileDataStore.storeModel E keys P password s)
    {args args' : List (Bytes × LocalArg)} {files files' : List (List (Bytes × LocalFile))}
    (hargs : args.map (fun a => a.2.files a.1) = files.map (List.map entryFile))
    (hargs' : args'.map (fun a => a.2.files a.1) = files'.map (List.map entryFile))
    (hnames : ∀ file ∈ files.flatten ++ files'.flatten, CStrings file)
    (hcounts : ∀ file, .large file ∈ backupParts E keys files ++ backupParts E keys files' →
      (entryOf E keys file).objectIds.length ≤ 65535)
    {first : CliOptions} (hfirst : first.dryRun = false)
    {progress : ℕ → ℕ → FileTransferProgressFunction}
    (hprogress : ∀ i j a b x y, progress i j a b x y = true) (name : SnapshotName) :
    ∃ s₁, backupFiles E first password name.1 progress args s = ok () s₁ ∧
      ∀ (calls : List CliCall) (io : List ChunkEvent) (memory : RepositoryKeys) (current : Bytes),
        Locked FileDataStore.storeModel E keys P current
          (startProcess io memory (afterCalls E calls s₁)) →
      ∀ (second : CliOptions) (progress' : ℕ → ℕ → FileTransferProgressFunction)
        (name' : SnapshotName),
        second.dryRun = false → (∀ i j a b x y, progress' i j a b x y = true) →
        ∃ s₂, backupFiles E second current name'.1 progress' args'
            (startProcess io memory (afterCalls E calls s₁)) = ok () s₂ ∧
          (∀ path ∈ objectsOf E keys (backupParts E keys files'), s₂.store.contents path ≠ none) ∧
          ∀ path ≠ snapshotPath name'.1,
            s₂.store.contents path = (afterCalls E calls s₁).store.contents path ∨
            (afterCalls E calls s₁).store.contents path = none ∧
              path ∈ objectsOf E keys (backupParts E keys files') ∧
              path ∉ objectsOf E keys (backupParts E keys files) := by
  obtain ⟨s₁, c, bytes, hrun, hfills, hcont⟩ := backupFiles_objects hC hsane hlocked hfirst hprogress hargs
    (fun file hfile => hnames file (List.mem_append_left _ hfile))
    (fun file hfile => hcounts file (List.mem_append_left _ hfile)) name.1
  refine ⟨s₁, hrun, fun calls io memory current hlocked' second progress' name' hsecond hprogress' => ?_⟩
  obtain ⟨s₂, c', bytes', hrun', hfills', hcont'⟩ := backupFiles_objects hC hsane hlocked' hsecond
    hprogress' hargs' (fun file hfile => hnames file (List.mem_append_right _ hfile))
    (fun file hfile => hcounts file (List.mem_append_right _ hfile)) name'.1
  have hpresent : ∀ path ∈ objectsOf E keys (backupParts E keys files),
      (afterCalls E calls s₁).store.contents path ≠ none := by
    intro path hpath
    obtain ⟨objectId, rfl⟩ := objectsOf_eq hpath
    obtain ⟨object, hobject⟩ := Option.ne_none_iff_exists'.mp
      ((hfills.present _).mpr (Or.inr hpath))
    have hstored : s₁.store.contents (objectPath (objectName objectId)) = some object := by
      refine (congrFun hcont _).trans ?_
      rw [Function.update_of_ne (objectPath_ne_snapshotPath _ _)]
      exact hobject
    rw [afterCalls_object calls hstored]
    simp
  have hafter : ∀ path ≠ snapshotPath name'.1, s₂.store.contents path = c' path := fun path hpath =>
    (congrFun hcont' path).trans (Function.update_of_ne hpath _ _)
  refine ⟨s₂, hrun', fun path hpath => ?_, fun path hpath => ?_⟩
  · obtain ⟨objectId, rfl⟩ := objectsOf_eq hpath
    rw [hafter _ (objectPath_ne_snapshotPath _ _)]
    exact (hfills'.present _).mpr (Or.inr hpath)
  · rw [hafter path hpath]
    cases hold : (afterCalls E calls s₁).store.contents path with
    | some object => exact Or.inl (hfills'.grows path object hold)
    | none =>
      by_cases hnew : path ∈ objectsOf E keys (backupParts E keys files')
      · exact Or.inr ⟨rfl, hnew, fun hmem => hpresent path hmem hold⟩
      · left
        by_contra hne
        rcases (hfills'.present path).mp hne with hthere | hmem
        · exact hthere hold
        · exact hnew hmem

/-- The pictures are backed up twice, under two names. -/
theorem backupFiles_incremental_pictures :
    ∃ s₁ s₂, backupFiles cycleEnv .default [97] (ascii "s") (fun _ _ => DefaultFileTransferProgressFunction)
        picturesArgs cycleSession = ok () s₁ ∧
      backupFiles cycleEnv .default [97] (ascii "t") (fun _ _ => DefaultFileTransferProgressFunction)
        picturesArgs (startProcess [] zeroKeys s₁) = ok () s₂ ∧
      ∀ path ≠ snapshotPath (ascii "t"), s₂.store.contents path = s₁.store.contents path := by
  obtain ⟨s₁, hrun, hagain⟩ := backupFiles_incremental cycleTables.crypto_lawful splitOptions_sane
    cycleSession_locked picturesArgs_files picturesArgs_files
    (fun file hfile => by
      rcases List.mem_append.mp hfile with hfile | hfile
      · exact cycleEnv_splits.fits.nulFree file hfile
      · exact cycleEnv_splits.fits.nulFree file hfile)
    (fun file hfile => by
      have hblocks := (cycleEnv_splits.storable (c := fun _ => none) fun _ => rfl).blocks
      rcases List.mem_append.mp hfile with hfile | hfile
      · exact (hblocks file hfile).2
      · exact (hblocks file hfile).2)
    (show CliOptions.default.dryRun = false from rfl) (fun _ _ _ _ _ _ => rfl) nameS
  obtain ⟨s₁', hrun', hlocked, -⟩ := pictures_backup
  obtain rfl : s₁ = s₁' := (EStateM.Result.ok.inj (hrun.symm.trans hrun')).2
  obtain ⟨s₂, hrun₂, -, hsame⟩ := hagain [] [] zeroKeys [97]
    ⟨fun _ he => absurd he List.not_mem_nil, hlocked.current_mem, hlocked.file⟩ .default
    (fun _ _ => DefaultFileTransferProgressFunction) nameT rfl fun _ _ _ _ _ _ => rfl
  refine ⟨s₁, s₂, hrun, hrun₂, fun path hpath => ?_⟩
  rcases hsame path hpath with hkept | ⟨-, hnew, hold⟩
  · exact hkept
  · exact absurd hnew hold

end Nebula
