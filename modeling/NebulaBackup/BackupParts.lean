/-
The parts of a backup.

Which small files share a pack depends on nothing but the roll key and the
contents: the rolling hash runs over the members and says after which of them
the pack is written, and `finalizePack` writes what is left.  `partsFrom`
computes the parts of a backup, large files and packs, from the calls alone.
When no pack of it is in the store already and the objects of the store are
what their names say, a backup stores exactly these parts and records exactly
their entries.  Main results:

* `partsFrom_files` — the parts are the files, each once;
* `parts_run` — the calls return, and every part is stored and recorded.
-/
import NebulaBackup.PackLayout
import NebulaBackup.PackRuns
import NebulaBackup.Restore

namespace Nebula

open EStateM.Result Hoare
open Nebula.Path

/-- What is stored and recorded at once: a large file, or the members of a pack
under their normalised paths. -/
inductive BackupPart
  | large (file : Bytes × LocalFile)
  | pack (files : List (Bytes × LocalFile))

namespace BackupPart

/-- The files of a part, under their normalised paths. -/
def files : BackupPart → List (Bytes × LocalFile)
  | large file => [(normalizedPath file.1, file.2)]
  | pack files => files

/-- The entries that are recorded for a part. -/
def adds (E : Env) (keys : RepositoryKeys) : BackupPart → List AddArgs
  | large file => [entryOf E keys file]
  | pack files => (files.zip (uploadedRanges E.C files)).map
      (memberArgs E.C (packId E.C keys (files.map fun file => file.2.content)))

/-- The part is in the store. -/
def InStore (E : Env) (keys : RepositoryKeys) (c : Contents) : BackupPart → Prop
  | large file => Stored E keys c file
  | pack files => ∃ objects, MemberObjects E.C keys files objects ∧
      c (packPath E.C keys files) = some objects.flatten

theorem InStore.mono {E : Env} {keys : RepositoryKeys} {c c' : Contents} {part : BackupPart}
    (h : part.InStore E keys c) (hgrows : Grows c c') : part.InStore E keys c' := by
  cases part with
  | large file => exact Stored.mono h hgrows
  | pack files =>
    obtain ⟨objects, hobjects, hstored⟩ := h
    exact ⟨objects, hobjects, hgrows _ _ hstored⟩

end BackupPart

/-! ### Which parts there are -/

/-- A call without a handler around it. -/
def PackOp.command {δ : Type} [DataStore δ] (E : Env) : PackOp → Command δ Unit
  | upload destPath file progress =>
    uploadFilePacked E destPath file.info (.openRead file.content) progress
  | finalize progress => finalizePack E progress

/-- The calls one after the other. -/
def runCommands {δ : Type} [DataStore δ] (E : Env) : List PackOp → Command δ Unit
  | [] => return ()
  | op :: ops => do
    op.command E
    runCommands E ops

/-- The parts that the calls write when the pack has the given hash and
members. -/
def partsFrom (E : Env) (keys : RepositoryKeys) :
    Option RollingHash → List (Bytes × LocalFile) → List PackOp → List BackupPart
  | _, _, [] => []
  | hash, pending, .upload destPath file _ :: ops =>
    if file.isSmall E then
      match rollAll (hash.getD (RollingHash.new E.C keys.mRollKey.toList 8192)) file.content with
      | (true, _) => .pack (pending ++ [(normalizedPath destPath, file)]) :: partsFrom E keys none [] ops
      | (false, hash') =>
        partsFrom E keys (some hash') (pending ++ [(normalizedPath destPath, file)]) ops
    else .large (destPath, file) :: partsFrom E keys hash pending ops
  | none, pending, .finalize _ :: ops => partsFrom E keys none pending ops
  | some _, pending, .finalize _ :: ops => .pack pending :: partsFrom E keys none [] ops

/-- The packs among the parts. -/
def packsOf (parts : List BackupPart) : List (List (Bytes × LocalFile)) :=
  parts.filterMap fun part => match part with
    | .large _ => none
    | .pack files => some files

/-- What is asked of the parts of a backup and of the store that they are
written to.  `F` are the strings that the HMAC of blocks is fed. -/
structure Storable (E : Env) (keys : RepositoryKeys) (F : Set Bytes) (parts : List BackupPart)
    (c : Contents) : Prop where
  /-- No pack exists yet, and no two of them have one name. -/
  fresh : ∀ files ∈ packsOf parts, c (packPath E.C keys files) = none
  distinct : ((packsOf parts).map (packPath E.C keys)).Nodup
  /-- No pack has the name of a block. -/
  apart : ∀ files ∈ packsOf parts, ∀ t block, t.toByte :: block ∈ F →
    packPath E.C keys files ≠ blockPath E.C keys t block
  sizes : ∀ files ∈ packsOf parts, (memberSizes E.C files).sum < 2 ^ 32
  /-- The blocks of the large files are known, and not too many for an entry. -/
  blocks : ∀ file, .large file ∈ parts →
    (∀ x ∈ file.2.fed E keys, x ∈ F) ∧ (entryOf E keys file).objectIds.length ≤ 65535

namespace Storable

variable {E : Env} {keys : RepositoryKeys} {F : Set Bytes} {parts : List BackupPart} {c c' : Contents}

/-- The other parts, after blocks were stored. -/
theorem of_large {file : Bytes × LocalFile} (h : Storable E keys F (.large file :: parts) c)
    (hfresh : ∀ files ∈ packsOf parts, c' (packPath E.C keys files) = none) :
    Storable E keys F parts c' :=
  ⟨hfresh, h.distinct, h.apart, h.sizes, fun f hf => h.blocks f (List.mem_cons_of_mem _ hf)⟩

/-- The other parts, after the pack was stored. -/
theorem of_pack {files : List (Bytes × LocalFile)} (h : Storable E keys F (.pack files :: parts) c)
    (bytes : Bytes) : Storable E keys F parts
      (Function.update c (packPath E.C keys files) (some bytes)) := by
  have hpacks : packsOf (.pack files :: parts) = files :: packsOf parts := rfl
  have hnodup := h.distinct
  rw [hpacks, List.map_cons, List.nodup_cons] at hnodup
  refine ⟨?_, hnodup.2, ?_, ?_, fun f hf => h.blocks f (List.mem_cons_of_mem _ hf)⟩
  · intro other hother
    have hne : packPath E.C keys other ≠ packPath E.C keys files :=
      fun heq => hnodup.1 (heq ▸ List.mem_map_of_mem hother)
    rw [Function.update_of_ne hne]
    exact h.fresh other (List.mem_cons_of_mem _ hother)
  · exact fun other hother => h.apart other (List.mem_cons_of_mem _ hother)
  · exact fun other hother => h.sizes other (List.mem_cons_of_mem _ hother)

end Storable

/-! ### One call -/

/-- The sealed members of a pack are objects of its files. -/
theorem MemberObjects.of_entries {C : Crypto} {keys : RepositoryKeys} :
    ∀ {files : List (Bytes × LocalFile)} {ranges : List (UInt32 × UInt32)} {objects : List Bytes},
      ranges.length = files.length →
      SealedMembers C keys (packEntries C files ranges) (files.map fun file => file.2.content) objects →
      MemberObjects C keys files objects := by
  intro files
  induction files with
  | nil =>
    intro ranges objects _ h
    cases h
    exact .nil
  | cons file files ih =>
    intro ranges objects hlen h
    obtain ⟨range, ranges, rfl⟩ := List.exists_cons_of_length_eq_add_one hlen
    cases h with
    | cons hfirst hrest => exact .cons hfirst (ih (by simpa using hlen) hrest)

/-- An object under another name changes no block. -/
theorem Sound.update {C : Crypto} {keys : RepositoryKeys} {F : Set Bytes} {c : Contents}
    (h : Sound C keys F c) {path : Bytes}
    (hne : ∀ t block, t.toByte :: block ∈ F → path ≠ blockPath C keys t block) (b : Option Bytes) :
    Sound C keys F (Function.update c path b) := by
  intro t block hblock bytes hbytes
  rw [Function.update_of_ne (Ne.symm (hne t block hblock))] at hbytes
  exact h t block hblock bytes hbytes

/-- A new object changes nothing that is stored. -/
theorem Grows.update {c : Contents} {path : Bytes} (h : c path = none) (b : Option Bytes) :
    Grows c (Function.update c path b) := by
  intro q bytes hq
  rw [Function.update_of_ne]
  · exact hq
  · rintro rfl
    rw [h] at hq
    exact absurd hq (by simp)

/-- The state of a backup between two calls: the pack has the given hash and
members, and the objects of the store are what their names say. -/
structure BackupInv {δ : Type} [DataStore δ] (M : StoreModel δ) (E : Env) (keys : RepositoryKeys)
    (F : Set Bytes) (hash : Option RollingHash) (pending : List (Bytes × LocalFile)) (s : Session δ) :
    Prop where
  store_ok : M.Ok s.store
  keys_eq : s.keys = keys
  good : s.pack.Good keys
  hash_eq : s.pack.rollingHash = hash
  infos : ∃ ranges, ranges.length = pending.length ∧ s.pack.fileInfos = packEntries E.C pending ranges
  data : s.pack.packData = pending.map fun file => file.2.content
  sound : Sound E.C keys F (M.contents s.store)

section Calls

variable {δ : Type} [DataStore δ] {M : StoreModel δ} {E : Env} {keys : RepositoryKeys} {F : Set Bytes}
  {hash : Option RollingHash} {pending : List (Bytes × LocalFile)} {s : Session δ}

theorem packEntries_append (C : Crypto) {files : List (Bytes × LocalFile)}
    {ranges : List (UInt32 × UInt32)} (hlen : ranges.length = files.length) (file : Bytes × LocalFile)
    (range : UInt32 × UInt32) :
    packEntries C (files ++ [file]) (ranges ++ [range]) = packEntries C files ranges ++
      [{ packInfo C file.1 file.2.info file.2.content 0 range.2 with offset := range.1 }] := by
  rw [packEntries, List.zipWith_append hlen.symm]
  rfl

/-- The hash that the next member is rolled into. -/
theorem BackupInv.open_hash (h : BackupInv M E keys F hash pending s) :
    (s.pack.open E.C s.keys).rollingHash =
      some (hash.getD (RollingHash.new E.C keys.mRollKey.toList 8192)) := by
  rw [PackUploadState.open, h.hash_eq, h.keys_eq]
  cases hash with
  | none => rfl
  | some r => exact h.hash_eq

/-- **A small file** joins the pack. -/
theorem BackupInv.add (h : BackupInv M E keys F hash pending s) (p : Bytes) (f : LocalFile) :
    ∃ s', packFile E p f.info f.content s = ok (rollAll (hash.getD (RollingHash.new E.C
          keys.mRollKey.toList 8192)) f.content).1 s' ∧
      BackupInv M E keys F (some (rollAll (hash.getD (RollingHash.new E.C
          keys.mRollKey.toList 8192)) f.content).2) (pending ++ [(p, f)]) s' ∧
      s'.snapshot = s.snapshot ∧ s'.store = s.store := by
  obtain ⟨writePack, pack, hrun, hinfos, hdata, -, hgood⟩ := packFile_run (E := E) p f.info f.content
    (h.keys_eq ▸ h.good)
  have heq := packFile_eq (E := E) p f.info f.content s h.open_hash
  -- both say what the call does: one keeps the context in step, the other has the hash
  have hpack := hrun.symm.trans heq
  rw [EStateM.Result.ok.injEq, Session.mk.injEq] at hpack
  obtain ⟨hwrite, -, -, -, -, -, hpack⟩ := hpack
  obtain ⟨ranges, hlen, hentries⟩ := h.infos
  rw [hwrite] at hrun
  refine ⟨_, hrun, ⟨h.store_ok, h.keys_eq, ?_, ?_, ?_, ?_, h.sound⟩, rfl, rfl⟩
  · exact h.keys_eq ▸ hgood
  · show pack.rollingHash = _
    rw [hpack]
  · refine ⟨ranges ++ [(.ofNat s.pack.packData.length, uninitUInt32 E s.uninitUsed)], ?_, ?_⟩
    · rw [List.length_append, List.length_append, hlen]
      rfl
    · rw [packEntries_append E.C hlen, ← hentries]
      exact hinfos
  · show pack.packData = _
    rw [hdata, h.data, List.map_append]
    rfl

/-- What a part does to the store and the snapshot. -/
structure StoresPart (M : StoreModel δ) (E : Env) (keys : RepositoryKeys) (part : BackupPart)
    (s s' : Session δ) : Prop where
  snapshot : s'.snapshot = ((part.adds E keys).map Snapshot.SnapshotOp.add).foldl Snapshot.apply
    s.snapshot
  grows : Grows (M.contents s.store) (M.contents s'.store)
  stored : part.InStore E keys (M.contents s'.store)

/-- **A pack is written.** -/
theorem BackupInv.write (h : BackupInv M E keys F hash pending s) (hC : E.C.Lawful)
    (hopen : hash ≠ none) {parts : List BackupPart}
    (hnew : Storable E keys F (.pack pending :: parts) (M.contents s.store))
    (progress : FileTransferProgressFunction) :
    ∃ s', finalizePack E progress s = ok () s' ∧ BackupInv M E keys F none [] s' ∧
      StoresPart M E keys (.pack pending) s s' ∧ Storable E keys F parts (M.contents s'.store) := by
  have hmem : pending ∈ packsOf (.pack pending :: parts) := List.mem_cons_self
  have hkeys := h.keys_eq
  subst hkeys
  obtain ⟨d, n, hmac, infos, hrun, hd, hstep⟩ := finalizePack_run M hC h.store_ok h.good
    (by rw [h.hash_eq]; exact hopen) progress
  have hpath : objectPath (objectName (packId E.C s.keys s.pack.packData)) =
      packPath E.C s.keys pending := by
    rw [h.data]
    rfl
  rw [hpath] at hstep
  obtain ⟨ranges, hlen, hentries⟩ := h.infos
  rcases hstep with ⟨hfound, -, -⟩ | ⟨hnone, objects, hsealed, hcont, hlaid⟩
  · exact absurd (hnew.fresh pending hmem) hfound
  rw [hentries, h.data] at hsealed
  have hmembers := MemberObjects.of_entries hlen hsealed
  rw [hentries, laidOut_packEntries _ _ _ _ _ hlen (List.Forall₂.length_eq hmembers).symm,
    hmembers.sizes hC] at hlaid
  refine ⟨_, hrun, ⟨hd, rfl, ⟨rfl, fun _ => rfl, fun hne => absurd rfl hne⟩, rfl, ⟨[], rfl, rfl⟩, rfl,
    ?_⟩, ⟨?_, ?_, objects, hmembers, ?_⟩, ?_⟩
  · show Sound E.C s.keys F (M.contents d)
    rw [hcont]
    exact h.sound.update (hnew.apart pending hmem) _
  · show addAll s.snapshot (packId E.C s.keys s.pack.packData) infos = _
    rw [h.data, hlaid]
    exact packed_eq
  · show Grows (M.contents s.store) (M.contents d)
    rw [hcont]
    exact Grows.update hnone _
  · show M.contents d _ = _
    rw [hcont, Function.update_self]
  · show Storable E s.keys F parts (M.contents d)
    rw [hcont]
    exact hnew.of_pack _

/-- The blocks of a file are stored under their own names. -/
theorem BlockSteps.elsewhere {C : Crypto} {t : CompressionType} {blocks : List Bytes}
    {c c' : Contents} (h : BlockSteps C keys t blocks c c') {path : Bytes}
    (hpath : ∀ block ∈ blocks, path ≠ blockPath C keys t block) : c' path = c path := by
  induction h with
  | nil c => rfl
  | cons hstep _ ih =>
    rw [ih fun block hblock => hpath block (List.mem_cons_of_mem _ hblock)]
    rcases hstep with ⟨-, rfl⟩ | ⟨-, iv, rfl⟩
    · rfl
    · exact Function.update_of_ne (hpath _ List.mem_cons_self) _ _

/-- **A large file** is stored and recorded at once; the pack waits. -/
theorem BackupInv.large (h : BackupInv M E keys F hash pending s) (hC : E.C.Lawful)
    (hsane : E.options.Sane)
    (hinj : Set.InjOn (E.C.hmacSha256 (keys.mHashKey.toList.take SHA256_DIGEST_LENGTH)) F)
    (destPath : Bytes) {f : LocalFile} (hlarge : ¬ f.isSmall E) {parts : List BackupPart}
    (hnew : Storable E keys F (.large (destPath, f) :: parts) (M.contents s.store))
    {progress : FileTransferProgressFunction} (hprog : ∀ a b i j, progress a b i j = true) :
    ∃ s', uploadFilePacked E destPath f.info (.openRead f.content) progress s = ok () s' ∧
      BackupInv M E keys F hash pending s' ∧ StoresPart M E keys (.large (destPath, f)) s s' ∧
      Storable E keys F parts (M.contents s'.store) := by
  have hkeys := h.keys_eq
  subst hkeys
  obtain ⟨hfed, hcount⟩ := hnew.blocks (destPath, f) List.mem_cons_self
  obtain ⟨bits, blocks, hblocks⟩ := f.blocks_ok hsane s.keys
  have hentry : entryOf E s.keys (destPath, f) = f.args E s.keys destPath bits blocks := by
    rw [entryOf, hblocks]
  obtain ⟨d, n, hd, hsteps, hrun⟩ := uploadFileWith_run M hC h.store_ok true destPath f
    (Or.inr hlarge) hprog hblocks
  obtain ⟨snapshot, hadd⟩ := Snapshot.addFileEntry_ok (s := s.snapshot) hcount
  rw [← hentry, hadd] at hrun
  have hmem : ∀ block ∈ blocks, (compressionFor f.info).toByte :: block ∈ F := by
    intro block hblock
    refine hfed _ ?_
    rw [LocalFile.fed, hblocks]
    exact List.mem_map_of_mem hblock
  obtain ⟨hsound, hgrows, hstored⟩ := Sound.blockSteps hinj hsteps h.sound hmem
  refine ⟨_, hrun, { h with store_ok := hd, sound := hsound }, ⟨?_, hgrows, ?_⟩, ?_⟩
  · show snapshot = s.snapshot.apply (.add (entryOf E s.keys (destPath, f)))
    rw [Snapshot.apply, hadd]
  · exact ⟨bits, blocks, hblocks, hstored⟩
  · -- the blocks took none of the names of the packs to come
    refine hnew.of_large fun files hfiles => ?_
    have hsame : M.contents d (packPath E.C s.keys files) =
        M.contents s.store (packPath E.C s.keys files) :=
      hsteps.elsewhere fun block hblock => hnew.apart files hfiles _ block (hmem block hblock)
    exact hsame.trans (hnew.fresh files hfiles)

/-! ### All calls -/

/-- All entries of the parts, in the order in which they are recorded. -/
def addsOf (E : Env) (keys : RepositoryKeys) (parts : List BackupPart) : List AddArgs :=
  parts.flatMap (BackupPart.adds E keys)

/-- What the parts of a backup do to the store and the snapshot. -/
structure StoresParts (M : StoreModel δ) (E : Env) (keys : RepositoryKeys) (parts : List BackupPart)
    (s s' : Session δ) : Prop where
  snapshot : s'.snapshot = ((addsOf E keys parts).map Snapshot.SnapshotOp.add).foldl Snapshot.apply
    s.snapshot
  grows : Grows (M.contents s.store) (M.contents s'.store)
  stored : ∀ part ∈ parts, part.InStore E keys (M.contents s'.store)

/-- No part. -/
theorem StoresParts.nil {s' : Session δ} (hsnapshot : s'.snapshot = s.snapshot)
    (hstore : s'.store = s.store) : StoresParts M E keys [] s s' := by
  refine ⟨hsnapshot, ?_, fun part hpart => absurd hpart List.not_mem_nil⟩
  rw [hstore]
  exact Grows.refl _

/-- One part and the others. -/
theorem StoresPart.cons {part : BackupPart} {parts : List BackupPart} {s' s'' : Session δ}
    (h : StoresPart M E keys part s s') (hrest : StoresParts M E keys parts s' s'') :
    StoresParts M E keys (part :: parts) s s'' := by
  refine ⟨?_, h.grows.trans hrest.grows, ?_⟩
  · have hadds : addsOf E keys (part :: parts) = part.adds E keys ++ addsOf E keys parts :=
      List.flatMap_cons
    rw [hrest.snapshot, h.snapshot, hadds, List.map_append, List.foldl_append]
  · intro p hp
    rcases List.mem_cons.mp hp with rfl | hp
    · exact h.stored.mono hrest.grows
    · exact hrest.stored p hp

/-- A step that stores nothing. -/
theorem StoresParts.of_same {parts : List BackupPart} {s' s'' : Session δ}
    (h : StoresParts M E keys parts s' s'') (hsnapshot : s'.snapshot = s.snapshot)
    (hstore : s'.store = s.store) : StoresParts M E keys parts s s'' := by
  refine ⟨?_, ?_, h.stored⟩
  · rw [h.snapshot, hsnapshot]
  · rw [← hstore]
    exact h.grows

/-- **The calls of a backup** return, and every part is stored and recorded.  By
induction on the calls, with the hash and the members of the pack so far. -/
theorem parts_run (hC : E.C.Lawful) (hsane : E.options.Sane)
    (hinj : Set.InjOn (E.C.hmacSha256 (keys.mHashKey.toList.take SHA256_DIGEST_LENGTH)) F) :
    ∀ (ops : List PackOp) {hash : Option RollingHash} {pending : List (Bytes × LocalFile)}
      {s : Session δ}, BackupInv M E keys F hash pending s → (∀ op ∈ ops, op.NeverCancels) →
      Storable E keys F (partsFrom E keys hash pending ops) (M.contents s.store) →
      ∃ hash' pending' s', runCommands E ops s = ok () s' ∧
        BackupInv M E keys F hash' pending' s' ∧
        StoresParts M E keys (partsFrom E keys hash pending ops) s s' := by
  intro ops
  induction ops with
  | nil =>
    intro hash pending s h _ _
    exact ⟨hash, pending, s, rfl, h, StoresParts.nil rfl rfl⟩
  | cons op ops ih =>
    intro hash pending s h hcancel hnew
    have hcancel' := fun o ho => hcancel o (List.mem_cons_of_mem op ho)
    cases op with
    | finalize progress =>
      cases hash with
      | none =>
        obtain ⟨hash', pending', s', hrun, hinv, hparts⟩ := ih h hcancel' hnew
        exact ⟨hash', pending', s', run_step (finalizePack_closed h.hash_eq progress) hrun, hinv, hparts⟩
      | some r =>
        obtain ⟨s₁, hfin, hs₁, hpart, hnew₁⟩ := h.write hC (by simp) hnew progress
        obtain ⟨hash', pending', s', hrun, hinv, hparts⟩ := ih hs₁ hcancel' hnew₁
        exact ⟨hash', pending', s', run_step hfin hrun, hinv, hpart.cons hparts⟩
    | upload destPath f progress =>
      have hprog : ∀ a b i j, progress a b i j = true := hcancel _ List.mem_cons_self
      rw [partsFrom] at hnew ⊢
      by_cases hsmall : f.isSmall E
      · rw [if_pos hsmall] at hnew ⊢
        obtain ⟨s₁, hpack, hs₁, hsnap, hstore⟩ := h.add (normalizedPath destPath) f
        have hup := uploadFilePacked_small destPath hsmall progress s
        rw [run_ok hpack] at hup
        cases hroll : rollAll (hash.getD (RollingHash.new E.C keys.mRollKey.toList 8192)) f.content with
        | mk writePack r =>
          rw [hroll] at hup hs₁ hnew
          rw [← hstore] at hnew
          cases writePack with
          | true =>
            -- the rolling hash ends the pack with this file in it
            obtain ⟨s₂, hfin, hs₂, hpart, hnew₂⟩ := hs₁.write hC (by simp) hnew progress
            obtain ⟨hash', pending', s', hrun, hinv, hparts⟩ := ih hs₂ hcancel' hnew₂
            exact ⟨hash', pending', s', run_step (hup.trans hfin) hrun, hinv,
              (hpart.cons hparts).of_same hsnap hstore⟩
          | false =>
            obtain ⟨hash', pending', s', hrun, hinv, hparts⟩ := ih hs₁ hcancel' hnew
            rw [if_neg (by simp), if_neg (by rw [hprog]; simp)] at hup
            exact ⟨hash', pending', s', run_step hup hrun, hinv, hparts.of_same hsnap hstore⟩
      · rw [if_neg hsmall] at hnew ⊢
        obtain ⟨s₁, hup, hs₁, hpart, hnew₁⟩ := h.large hC hsane hinj destPath hsmall hnew hprog
        obtain ⟨hash', pending', s', hrun, hinv, hparts⟩ := ih hs₁ hcancel' hnew₁
        exact ⟨hash', pending', s', run_step hup hrun, hinv, hpart.cons hparts⟩

end Calls

/-! ### No file is left out -/

/-- The calls of an argument: its files, and then the pack is written. -/
def argOps (progress : ℕ → FileTransferProgressFunction) (i : ℕ) (files : List (Bytes × LocalFile)) :
    List PackOp :=
  match files with
  | [] => [.finalize DefaultFileTransferProgressFunction]
  | file :: files => .upload file.1 file.2 (progress i) :: argOps progress (i + 1) files

/-- The calls of a backup. -/
def backupOps (progress : ℕ → ℕ → FileTransferProgressFunction) :
    ℕ → List (List (Bytes × LocalFile)) → List PackOp
  | _, [] => []
  | i, files :: rest => argOps (progress i) 0 files ++ backupOps progress (i + 1) rest

/-- A file under its normalised path. -/
def normalizedFile (file : Bytes × LocalFile) : Bytes × LocalFile := (normalizedPath file.1, file.2)

section Files

variable (E : Env) (keys : RepositoryKeys)

/-- **The parts of an argument** are what was pending and its files, and those
of the calls that follow start with an empty pack. -/
theorem partsFrom_argOps (progress : ℕ → FileTransferProgressFunction) (ops : List PackOp) :
    ∀ (files : List (Bytes × LocalFile)) (i : ℕ) {hash : Option RollingHash}
      {pending : List (Bytes × LocalFile)}, (hash = none → pending = []) →
      ((partsFrom E keys hash pending (argOps progress i files ++ ops)).flatMap BackupPart.files).Perm
        (pending ++ files.map normalizedFile ++
          (partsFrom E keys none [] ops).flatMap BackupPart.files) := by
  intro files
  induction files with
  | nil =>
    intro i hash pending hclosed
    cases hash with
    | none =>
      rw [hclosed rfl]
      exact List.Perm.refl _
    | some r =>
      show ((BackupPart.pack pending :: partsFrom E keys none [] ops).flatMap _).Perm _
      rw [List.flatMap_cons, List.map_nil, List.append_nil]
      exact List.Perm.refl _
  | cons file files ih =>
    intro i hash pending hclosed
    show ((partsFrom E keys hash pending (.upload file.1 file.2 (progress i) ::
      (argOps progress (i + 1) files ++ ops))).flatMap _).Perm _
    rw [partsFrom, List.map_cons]
    by_cases hsmall : file.2.isSmall E
    · rw [if_pos hsmall]
      cases rollAll (hash.getD (RollingHash.new E.C keys.mRollKey.toList 8192)) file.2.content with
      | mk writePack r =>
        cases writePack with
        | true =>
          rw [List.flatMap_cons]
          refine (List.Perm.append_left _ (ih (i + 1) fun _ => rfl)).trans ?_
          simp [BackupPart.files, normalizedFile]
        | false =>
          refine (ih (i + 1) fun h => absurd h (by simp)).trans ?_
          simp [normalizedFile]
    · -- a large file does not wait for the pack
      rw [if_neg hsmall, List.flatMap_cons]
      refine (List.Perm.append_left _ (ih (i + 1) hclosed)).trans ?_
      simp only [BackupPart.files, normalizedFile, List.append_assoc, List.cons_append,
        List.nil_append]
      exact List.perm_middle.symm

/-- **The parts of a backup are its files**, each once, by induction on the
arguments. -/
theorem partsFrom_files (progress : ℕ → ℕ → FileTransferProgressFunction) :
    ∀ (args : List (List (Bytes × LocalFile))) (i : ℕ),
      ((partsFrom E keys none [] (backupOps progress i args)).flatMap BackupPart.files).Perm
        (args.flatten.map normalizedFile) := by
  intro args
  induction args with
  | nil =>
    intro i
    exact List.Perm.refl _
  | cons files args ih =>
    intro i
    rw [backupOps, List.flatten_cons, List.map_append]
    refine (partsFrom_argOps E keys (progress i) _ files 0 fun _ => rfl).trans ?_
    rw [List.nil_append]
    exact List.Perm.append_left _ (ih (i + 1))

end Files

end Nebula
