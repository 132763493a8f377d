/-
Runs of `uploadFile` with a pack state and of `finalizePack`.

`PackInv` says where the files of a run are: every file that was uploaded is
either an entry of the snapshot or pending in the pack, whose entries and data
stand at the same places.  Each call keeps it (`PackInv.upload`,
`PackInv.finalize`), whatever the rolling hash decides, so it holds after
every run (`pack_run`); after a last `finalizePack` nothing is pending
(`pack_noFileLost`).
-/
import NebulaBackup.UploadSpecs

namespace Nebula

open EStateM.Result Hoare

/-- A call with a pack state. -/
inductive PackOp
  | upload (destPath : Bytes) (file : LocalFile) (progress : FileTransferProgressFunction)
  | finalize (progress : FileTransferProgressFunction)

namespace PackOp

/-- The call; its exception is caught. -/
def run {δ : Type} [DataStore δ] (E : Env) : PackOp → Command δ (Except Fault Unit)
  | upload destPath file progress =>
    attempt (uploadFilePacked E destPath file.info (.openRead file.content) progress)
  | finalize progress => attempt (finalizePack E progress)

/-- Nobody cancels the call. -/
def NeverCancels : PackOp → Prop
  | upload _ _ progress => ∀ a b i j, progress a b i j = true
  | finalize progress => ∀ a b i j, progress a b i j = true

/-- The normalised path of an upload, and the file. -/
def target : PackOp → Option (Bytes × LocalFile)
  | upload destPath file _ => some (Path.normalizedPath destPath, file)
  | finalize _ => none

end PackOp

/-- What an upload returns: only a large file can be refused, because the
options do not allow to cut it or because it has too many blocks. -/
def LocalFile.outcome (E : Env) (keys : RepositoryKeys) (f : LocalFile) : Except Fault Unit :=
  if f.isSmall E then .ok ()
  else
    match f.blocks E keys with
    | .error e => .error e
    | .ok (_, blocks) =>
      if 65535 < blocks.length then
        .error (.thrown .InvalidArgumentException "Too many objects. Try a bigger block size.")
      else .ok ()

/-- What a call returns. -/
def PackOp.outcome (E : Env) (keys : RepositoryKeys) : PackOp → Except Fault Unit
  | upload _ file _ => file.outcome E keys
  | finalize _ => .ok ()

/-- A sequence of calls. -/
def runPackOps {δ : Type} [DataStore δ] (E : Env) : List PackOp → Command δ (List (Except Fault Unit))
  | [] => return []
  | op :: ops => do
    let r ← op.run E
    let rs ← runPackOps E ops
    return r :: rs

/-- The files that a sequence of calls uploads. -/
def uploadedFiles (E : Env) (keys : RepositoryKeys) (ops : List PackOp) : List (Bytes × LocalFile) :=
  (ops.filter fun op => (op.outcome E keys).isOk).filterMap PackOp.target

/-! ### The invariant -/

/-- The entry of a pending file. -/
structure Pending (C : Crypto) (fi : PackFileInfo) (file : Bytes × LocalFile) : Prop where
  path : fi.path = file.1
  size : fi.size = file.2.info.mLength
  md5 : fi.md5 = C.md5 file.2.content
  compression : fi.compression = compressionFor file.2.info

/-- The uploaded files are those of the snapshot and those of the pack, each
once; `pending` are the latter, in the order of the pack. -/
structure PackInv {δ : Type} [DataStore δ] (M : StoreModel δ) (C : Crypto)
    (uploaded pending : List (Bytes × LocalFile)) (s : Session δ) : Prop where
  store_ok : M.Ok s.store
  good : s.pack.Good s.keys
  infos : List.Forall₂ (Pending C) s.pack.fileInfos pending
  data : s.pack.packData = pending.map fun file => file.2.content
  files : ∀ p, (p ∈ uploaded.map Prod.fst ↔
    (s.snapshot.getFileEntry p).isSome ∨ p ∈ pending.map Prod.fst)
  disjoint : ∀ p ∈ pending.map Prod.fst, (s.snapshot.getFileEntry p).isSome = false
  mem : ∀ file ∈ pending, file ∈ uploaded
  nodup : (pending.map Prod.fst).Nodup

section Steps

theorem addAll_isSome (objectId : ObjectID) : ∀ (fileInfos : List PackFileInfo) (snapshot : Snapshot)
    (p : Bytes), ((addAll snapshot objectId fileInfos).getFileEntry p).isSome ↔
      (snapshot.getFileEntry p).isSome ∨ p ∈ fileInfos.map (·.path) := by
  intro fileInfos
  induction fileInfos with
  | nil =>
    intro snapshot p
    simp [addAll]
  | cons fi fileInfos ih =>
    intro snapshot p
    have hcons : addAll snapshot objectId (fi :: fileInfos) =
        addAll (snapshot.apply (.add (fi.args objectId))) objectId fileInfos := rfl
    have hadd := Snapshot.apply_add_isSome (s := snapshot) (a := fi.args objectId)
      (show 1 ≤ 65535 by omega) (p := p)
    rw [hcons, ih, Snapshot.getFileEntry, hadd, List.map_cons, List.mem_cons, or_assoc]
    have hpath : (fi.args objectId).path = p ↔ p = fi.path := eq_comm
    rw [hpath]
    rfl

theorem laidOut_path : ∀ {fileInfos : List PackFileInfo} {objects : List Bytes} (offset : UInt32),
    fileInfos.length = objects.length →
      (laidOut fileInfos objects offset).map (·.path) = fileInfos.map (·.path) := by
  intro fileInfos
  induction fileInfos with
  | nil =>
    intro objects offset _
    cases objects <;> rfl
  | cons fi fileInfos ih =>
    intro objects offset hlen
    cases objects with
    | nil => exact absurd hlen (by simp)
    | cons object objects =>
      rw [laidOut, List.map_cons, List.map_cons, ih _ (by simpa using hlen)]

/-- The recorded entries have the paths of the members. -/
theorem PackStep.paths {C : Crypto} {keys : RepositoryKeys} {p : PackUploadState} {path : Bytes}
    {c c' : Contents} {infos : List PackFileInfo} (h : PackStep C keys p path c c' infos)
    (hlen : p.fileInfos.length = p.packData.length) :
    infos.map (·.path) = p.fileInfos.map (·.path) := by
  rcases h with ⟨-, -, rfl⟩ | ⟨-, objects, hsealed, -, rfl⟩
  · rfl
  · exact laidOut_path 0 (hsealed.objects_length hlen)

theorem pending_path {C : Crypto} {fileInfos : List PackFileInfo} {pending : List (Bytes × LocalFile)}
    (h : List.Forall₂ (Pending C) fileInfos pending) :
    fileInfos.map (·.path) = pending.map Prod.fst := by
  induction h with
  | nil => rfl
  | cons hfirst hrest ih => rw [List.map_cons, List.map_cons, hfirst.path, ih]

variable {δ : Type} [DataStore δ] {M : StoreModel δ} {E : Env}
  {uploaded pending : List (Bytes × LocalFile)} {s : Session δ}

/-- **`finalizePack`** moves everything that is pending to the snapshot. -/
theorem PackInv.finalize (h : PackInv M E.C uploaded pending s) (hC : E.C.Lawful)
    (progress : FileTransferProgressFunction) :
    ∃ s', finalizePack E progress s = ok () s' ∧ PackInv M E.C uploaded [] s' ∧
      s'.pack.rollingHash = none ∧ s'.keys = s.keys := by
  by_cases hopen : s.pack.rollingHash = none
  · -- a closed pack has no members, so nothing is pending
    have hinfos := h.infos
    rw [h.good.closed hopen] at hinfos
    obtain rfl := List.forall₂_nil_left_iff.mp hinfos
    exact ⟨s, finalizePack_closed hopen progress, h, hopen, rfl⟩
  · obtain ⟨d, n, hmac, infos, hrun, hd, hstep⟩ :=
      finalizePack_run M hC h.store_ok h.good hopen progress
    have hpaths : infos.map (·.path) = pending.map Prod.fst :=
      (hstep.paths h.good.lengths).trans (pending_path h.infos)
    refine ⟨_, hrun, ⟨hd, ⟨rfl, fun _ => rfl, fun hne => absurd rfl hne⟩, .nil, rfl, ?_, ?_,
      fun file hfile => absurd hfile List.not_mem_nil, List.nodup_nil⟩, rfl, rfl⟩
    · intro p
      show _ ↔ ((addAll s.snapshot _ infos).getFileEntry p).isSome ∨ _
      rw [addAll_isSome, hpaths, h.files p]
      simp
    · intro p hp
      exact absurd hp List.not_mem_nil

/-- A small file becomes pending. -/
theorem PackInv.add (h : PackInv M E.C uploaded pending s) {p : Bytes}
    (hp : p ∉ uploaded.map Prod.fst) (f : LocalFile) :
    ∃ writePack s', packFile E p f.info f.content s = ok writePack s' ∧
      PackInv M E.C (uploaded ++ [(p, f)]) (pending ++ [(p, f)]) s' ∧ s'.keys = s.keys := by
  obtain ⟨writePack, pack, hrun, hinfos, hdata, -, hgood⟩ := packFile_run (E := E) p f.info f.content
    h.good
  -- the path is neither in the snapshot nor in the pack yet
  have hnew : (s.snapshot.getFileEntry p).isSome = false ∧ p ∉ pending.map Prod.fst := by
    rw [h.files p, not_or] at hp
    exact ⟨by simpa using hp.1, hp.2⟩
  refine ⟨writePack, _, hrun, ⟨h.store_ok, hgood, ?_, ?_, ?_, ?_, ?_, ?_⟩, rfl⟩
  · rw [hinfos]
    exact List.rel_append h.infos (.cons ⟨rfl, rfl, rfl, rfl⟩ .nil)
  · rw [hdata, h.data, List.map_append]
    rfl
  · intro q
    rw [List.map_append, List.mem_append, h.files q, List.map_append, List.mem_append, or_assoc]
  · intro q hq
    rw [List.map_append, List.mem_append] at hq
    rcases hq with hq | hq
    · exact h.disjoint q hq
    · rw [List.map_singleton, List.mem_singleton] at hq
      rw [hq]
      exact hnew.1
  · intro file hfile
    rcases List.mem_append.mp hfile with hfile | hfile
    · exact List.mem_append_left _ (h.mem file hfile)
    · exact List.mem_append_right _ hfile
  · rw [List.map_append, List.map_singleton, List.nodup_append]
    refine ⟨h.nodup, List.nodup_singleton _, ?_⟩
    intro a ha b hb
    rw [List.mem_singleton] at hb
    rintro rfl
    rw [show a = p from hb] at ha
    exact hnew.2 ha

/-- The path of a small file through `uploadFile`. -/
theorem uploadFilePacked_small (destPath : Bytes) {f : LocalFile} (hsmall : f.isSmall E)
    (progress : FileTransferProgressFunction) (s : Session δ) :
    uploadFilePacked E destPath f.info (.openRead f.content) progress s =
      (do
        let writePack ← packFile E (Path.normalizedPath destPath) f.info f.content
        if writePack then finalizePack E progress
        else if progress 0 1 0 0 = false then throw (.thrown .CancelledException "User cancelled.")
        else return () : Command δ Unit) s := by
  have hexists : ¬ f.info.exists = false := by
    rw [f.exists_eq]
    simp
  obtain ⟨i, hread⟩ := expect_content f s
  rw [uploadFilePacked, uploadFileWith, if_neg hexists,
    if_pos (show f.info.mLength.toNat < _ by rw [f.length_eq]; exact hsmall)]
  exact run_step hread rfl

/-- A large file goes to the snapshot at once. -/
theorem PackInv.record (h : PackInv M E.C uploaded pending s) {p : Bytes}
    (hp : p ∉ uploaded.map Prod.fst) (f : LocalFile) {snapshot : Snapshot}
    (hfind : ∀ q, (snapshot.getFileEntry q).isSome ↔ (s.snapshot.getFileEntry q).isSome ∨ p = q)
    {d : δ} (hd : M.Ok d) (n : ℕ) :
    PackInv M E.C (uploaded ++ [(p, f)]) pending
      { s with store := d, randomUsed := n, snapshot := snapshot } := by
  have hnew : p ∉ pending.map Prod.fst := by
    rw [h.files, not_or] at hp
    exact hp.2
  refine { h with
    store_ok := hd
    files := ?_
    disjoint := ?_
    mem := fun file hfile => List.mem_append_left _ (h.mem file hfile) }
  · intro q
    show q ∈ (uploaded ++ [_]).map Prod.fst ↔ (snapshot.getFileEntry q).isSome ∨ _
    rw [List.map_append, List.mem_append, h.files q, hfind q, List.map_singleton,
      List.mem_singleton, eq_comm (a := q)]
    tauto
  · intro q hq
    show (snapshot.getFileEntry q).isSome = false
    rw [Bool.eq_false_iff, Ne, hfind q, not_or]
    refine ⟨by simp [h.disjoint q hq], ?_⟩
    rintro rfl
    exact hnew hq

/-- **An upload** of a new path: the file is in the snapshot or pending when it
returns, and when it throws nothing is. -/
theorem PackInv.upload (h : PackInv M E.C uploaded pending s) (hC : E.C.Lawful) (destPath : Bytes)
    (f : LocalFile) (hp : Path.normalizedPath destPath ∉ uploaded.map Prod.fst)
    {progress : FileTransferProgressFunction} (hprog : ∀ a b i j, progress a b i j = true) :
    ∃ pending' s', (PackOp.upload destPath f progress).run E s = ok (f.outcome E s.keys) s' ∧
      PackInv M E.C (uploaded ++ if (f.outcome E s.keys).isOk
        then [(Path.normalizedPath destPath, f)] else []) pending' s' ∧ s'.keys = s.keys := by
  rw [LocalFile.outcome]
  by_cases hsmall : f.isSmall E
  · rw [if_pos hsmall]
    obtain ⟨writePack, s', hpack, hs', hkeys⟩ := h.add hp f
    have hrun := uploadFilePacked_small destPath hsmall progress s
    rw [run_ok hpack] at hrun
    cases writePack with
    | true =>
      -- the rolling hash ends the pack with this file in it
      obtain ⟨s'', hfin, hs'', -, hkeys'⟩ := hs'.finalize hC progress
      exact ⟨[], s'', attempt_ok (hrun.trans hfin), hs'', hkeys'.trans hkeys⟩
    | false =>
      refine ⟨_, s', attempt_ok (hrun.trans ?_), hs', hkeys⟩
      rw [if_neg (by simp), if_neg (by rw [hprog]; simp)]
      rfl
  · rw [if_neg hsmall]
    cases hblocks : f.blocks E s.keys with
    | error e =>
      refine ⟨pending, s, attempt_error (uploadFileWith_refused true destPath hsmall progress hblocks),
        ?_, rfl⟩
      rw [if_neg (by simp [Except.isOk, Except.toBool]), List.append_nil]
      exact h
    | ok b =>
      obtain ⟨bits, blocks⟩ := b
      obtain ⟨d, n, hd, -, hrun⟩ := uploadFileWith_run M hC h.store_ok true destPath f (Or.inr hsmall)
        hprog hblocks
      have hids : (f.args E s.keys destPath bits blocks).objectIds.length = blocks.length :=
        List.length_map _
      by_cases hmany : 65535 < blocks.length
      · -- the entry is refused; the objects stay in the store
        simp only [if_pos hmany]
        rw [Snapshot.addFileEntry, if_pos (by rw [hids]; exact hmany)] at hrun
        refine ⟨pending, _, attempt_error hrun, ?_, rfl⟩
        rw [if_neg (by simp [Except.isOk, Except.toBool]), List.append_nil]
        exact { h with store_ok := hd }
      · simp only [if_neg hmany]
        obtain ⟨snapshot, hadd⟩ := Snapshot.addFileEntry_ok (s := s.snapshot)
          (a := f.args E s.keys destPath bits blocks) (by rw [hids]; omega)
        have happly : s.snapshot.apply (.add (f.args E s.keys destPath bits blocks)) = snapshot := by
          rw [Snapshot.apply, hadd]
        rw [hadd] at hrun
        have hfind : ∀ q, (snapshot.getFileEntry q).isSome ↔
            (s.snapshot.getFileEntry q).isSome ∨ Path.normalizedPath destPath = q := by
          intro q
          rw [← happly]
          exact Snapshot.apply_add_isSome (by rw [hids]; omega)
        exact ⟨pending, _, attempt_ok hrun, h.record hp f hfind hd n, rfl⟩

/-- **The invariant over runs**, by induction on the calls. -/
theorem pack_run (hC : E.C.Lawful) : ∀ (ops : List PackOp)
    {uploaded pending : List (Bytes × LocalFile)} {s : Session δ},
    PackInv M E.C uploaded pending s → (∀ op ∈ ops, op.NeverCancels) →
    (∀ file ∈ ops.filterMap PackOp.target, file.1 ∉ uploaded.map Prod.fst) →
    ((ops.filterMap PackOp.target).map Prod.fst).Nodup →
    ∃ pending' s', runPackOps E ops s = ok (ops.map (PackOp.outcome E s.keys)) s' ∧
      PackInv M E.C (uploaded ++ uploadedFiles E s.keys ops) pending' s' ∧ s'.keys = s.keys := by
  intro ops
  induction ops with
  | nil =>
    intro uploaded pending s h _ _ _
    exact ⟨pending, s, rfl, by simpa [uploadedFiles] using h, rfl⟩
  | cons op ops ih =>
    intro uploaded pending s h hcancel hfresh hnodup
    have hcancel' := fun o ho => hcancel o (List.mem_cons_of_mem op ho)
    cases op with
    | upload destPath f progress =>
      have htargets : (PackOp.upload destPath f progress :: ops).filterMap PackOp.target =
          (Path.normalizedPath destPath, f) :: ops.filterMap PackOp.target := rfl
      rw [htargets] at hfresh hnodup
      rw [List.map_cons, List.nodup_cons] at hnodup
      obtain ⟨pending', s', hrun, hs', hkeys⟩ := h.upload hC destPath f (hfresh _ List.mem_cons_self)
        (hcancel _ List.mem_cons_self)
      have hfiles : uploadedFiles E s.keys (.upload destPath f progress :: ops) =
          (if (f.outcome E s.keys).isOk then [(Path.normalizedPath destPath, f)] else []) ++
            uploadedFiles E s.keys ops := by
        rw [uploadedFiles, List.filter_cons]
        by_cases hok : (f.outcome E s.keys).isOk = true
        · rw [if_pos hok, if_pos (show (PackOp.outcome E s.keys
            (.upload destPath f progress)).isOk = true from hok)]
          rfl
        · rw [if_neg hok, if_neg (show ¬ (PackOp.outcome E s.keys
            (.upload destPath f progress)).isOk = true from hok)]
          rfl
      -- the later paths differ from this one, whether it was uploaded or refused
      obtain ⟨pending'', s'', hrun', hs'', hkeys'⟩ := ih hs' hcancel' (by
        intro file hfile
        rw [List.map_append, List.mem_append, not_or]
        refine ⟨hfresh _ (List.mem_cons_of_mem _ hfile), ?_⟩
        intro hmem
        split at hmem
        · rw [List.map_singleton, List.mem_singleton] at hmem
          exact hnodup.1 (hmem ▸ List.mem_map_of_mem hfile)
        · exact absurd hmem List.not_mem_nil) hnodup.2
      rw [hkeys] at hrun' hs'' hkeys'
      refine ⟨pending'', s'', run_step hrun (run_step hrun' rfl), ?_, hkeys'⟩
      rw [hfiles, ← List.append_assoc]
      exact hs''
    | finalize progress =>
      obtain ⟨s', hrun, hs', -, hkeys⟩ := h.finalize hC progress
      obtain ⟨pending', s'', hrun', hs'', hkeys'⟩ := ih hs' hcancel' hfresh hnodup
      rw [hkeys] at hrun' hs'' hkeys'
      exact ⟨pending', s'', run_step (attempt_ok hrun) (run_step hrun' rfl), hs'', hkeys'⟩

/-- A fresh pack state and a fresh snapshot. -/
theorem PackInv.init (hs : M.Ok s.store) (hsnapshot : s.snapshot = .new) (hpack : s.pack = .new) :
    PackInv M E.C [] [] s where
  store_ok := hs
  good := by
    rw [hpack]
    exact PackUploadState.new_good _
  infos := by
    rw [hpack]
    exact .nil
  data := by
    rw [hpack]
    rfl
  files p := by
    rw [hsnapshot]
    simp [Snapshot.getFileEntry, Snapshot.new]
  disjoint p hp := absurd hp List.not_mem_nil
  mem file hfile := absurd hfile List.not_mem_nil
  nodup := List.nodup_nil

end Steps

/-- **No file is lost or duplicated by packing.**  After every sequence of
uploads and `finalizePack` calls with distinct paths each uploaded path is in
the snapshot or pending in the pack and not both, the entries and the data of
the pack belong together place by place, and a last `finalizePack` leaves an
empty pack and one entry for every uploaded path. -/
theorem pack_noFileLost {δ : Type} [DataStore δ] (M : StoreModel δ) {E : Env} (hC : E.C.Lawful)
    {s : Session δ} (hs : M.Ok s.store) (hsnapshot : s.snapshot = .new) (hpack : s.pack = .new)
    (ops : List PackOp) (hcancel : ∀ op ∈ ops, op.NeverCancels)
    (hnodup : ((ops.filterMap PackOp.target).map Prod.fst).Nodup)
    (progress : FileTransferProgressFunction) :
    ∃ pending s' s'', runPackOps E ops s = ok (ops.map (PackOp.outcome E s.keys)) s' ∧
      (∀ p ∈ (uploadedFiles E s.keys ops).map Prod.fst,
        Xor ((s'.snapshot.getFileEntry p).isSome = true) (p ∈ s'.pack.fileInfos.map (·.path))) ∧
      s'.pack.fileInfos.length = s'.pack.packData.length ∧
      List.Forall₂ (Pending E.C) s'.pack.fileInfos pending ∧
      s'.pack.packData = pending.map (fun file => file.2.content) ∧
      (∀ file ∈ pending, file ∈ uploadedFiles E s.keys ops) ∧
      finalizePack E progress s' = ok () s'' ∧
      s''.pack.fileInfos = [] ∧ s''.pack.packData = [] ∧ s''.pack.rollingHash = none ∧
      (s''.snapshot.mFiles.entries.map Prod.fst).Perm ((uploadedFiles E s.keys ops).map Prod.fst) := by
  obtain ⟨pending, s', hrun, hs', -⟩ := pack_run hC ops (PackInv.init (E := E) hs hsnapshot hpack)
    hcancel (fun _ _ => List.not_mem_nil) hnodup
  rw [List.nil_append] at hs'
  obtain ⟨s'', hfin, hs'', hclosed, -⟩ := hs'.finalize hC progress
  have hinfos : s''.pack.fileInfos = [] := List.forall₂_nil_right_iff.mp hs''.infos
  refine ⟨pending, s', s'', hrun, ?_, hs'.good.lengths, hs'.infos, hs'.data, hs'.mem, hfin, hinfos,
    hs''.data, hclosed, ?_⟩
  · intro p hp
    rw [pending_path hs'.infos]
    rcases (hs'.files p).mp hp with hstored | hpend
    · exact Or.inl ⟨hstored, fun hpend => absurd hstored (by simp [hs'.disjoint p hpend])⟩
    · exact Or.inr ⟨hpend, by simp [hs'.disjoint p hpend]⟩
  · -- both lists are free of duplicates and have the same members
    have hfiles : ((uploadedFiles E s.keys ops).map Prod.fst).Nodup :=
      hnodup.sublist ((List.Sublist.filterMap _ List.filter_sublist).map _)
    rw [List.perm_ext_iff_of_nodup s''.snapshot.mFiles.nodup_keys hfiles]
    intro p
    rw [← SortedMap.find?_isSome_iff, hs''.files p]
    simp [Snapshot.getFileEntry]

/-- Two empty pictures, the second one after a `finalizePack`. -/
theorem pack_noFileLost_pictures :
    ∃ s' s'', runPackOps (zeroEnv emptyPictureTables.crypto)
        [.upload (ascii "/a.png") emptyPicture DefaultFileTransferProgressFunction,
          .finalize DefaultFileTransferProgressFunction,
          .upload (ascii "/b.png") emptyPicture DefaultFileTransferProgressFunction] emptySession =
        ok [.ok (), .ok (), .ok ()] s' ∧
      s'.pack.fileInfos.length = s'.pack.packData.length ∧
      finalizePack (zeroEnv emptyPictureTables.crypto) DefaultFileTransferProgressFunction s' =
        ok () s'' ∧ s''.pack.fileInfos = [] ∧
      (s''.snapshot.mFiles.entries.map Prod.fst).Perm [ascii "a.png", ascii "b.png"] := by
  obtain ⟨pending, s', s'', hrun, -, hlen, -, -, -, hfin, hempty, -, -, hperm⟩ :=
    pack_noFileLost FileDataStore.storeModel (E := zeroEnv emptyPictureTables.crypto)
      emptyPictureTables.crypto_lawful emptySession_ok rfl rfl
      [.upload (ascii "/a.png") emptyPicture DefaultFileTransferProgressFunction,
        .finalize DefaultFileTransferProgressFunction,
        .upload (ascii "/b.png") emptyPicture DefaultFileTransferProgressFunction]
      (by
        intro op hop
        simp only [List.mem_cons, List.not_mem_nil, or_false] at hop
        rcases hop with rfl | rfl | rfl <;> exact fun _ _ _ _ => rfl)
      (by decide +kernel) DefaultFileTransferProgressFunction
  exact ⟨s', s'', hrun, hlen, hfin, hempty, hperm⟩

end Nebula
