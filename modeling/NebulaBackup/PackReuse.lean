/-
A pack that is in the store already.

`finalizePack` computes the offsets and the lengths of the members only when
it stores the pack.  When it finds an object of the pack's name it records
what `PackUploadState::addFile` left: the index of the member for its offset,
and a length that nothing was written to.  `backupPack_again_iff` says for
which lists of files the two agree.
-/
import NebulaBackup.PackLayout

namespace Nebula

open EStateM.Result Hoare

/-- When the entries of a pack that is found are those of one that is stored:
it has at most one member, and the memory of its length happens to hold
it. -/
def Reusable (E : Env) (u : ℕ) (files : List (Bytes × LocalFile)) : Prop :=
  files.length ≤ 1 ∧ ∀ file ∈ files, uninitUInt32 E u =
    .ofNat (objectSize E.C (compressionFor file.2.info) file.2.content)

theorem uploadedRanges_eq_skipped_iff (E : Env) (u : ℕ) (files : List (Bytes × LocalFile)) :
    uploadedRanges E.C files = addedRanges E 0 u files.length ↔ Reusable E u files := by
  match files with
  | [] => exact ⟨fun _ => ⟨Nat.zero_le 1, fun file h => absurd h List.not_mem_nil⟩, fun _ => rfl⟩
  | [file] =>
    show [((0 : UInt32), UInt32.ofNat (objectSize E.C (compressionFor file.2.info) file.2.content))] =
      [(UInt32.ofNat 0, uninitUInt32 E u)] ↔ _
    constructor
    · intro h
      have hlen := (Prod.mk.inj (List.cons.inj h).1).2
      refine ⟨le_refl 1, fun other hother => ?_⟩
      rw [List.mem_singleton.mp hother, hlen]
    · intro h
      rw [h.2 file List.mem_cons_self]
      rfl
  | file :: file' :: files =>
    constructor
    · -- the second offset is the size of an object on one side and 1 on the other
      intro h
      have hsecond := (Prod.mk.inj (List.cons.inj (List.cons.inj h).2).1).1
      have hnat : objectSize E.C (compressionFor file.2.info) file.2.content % 2 ^ 32 = 1 % 2 ^ 32 := by
        have hcast := congrArg UInt32.toNat hsecond
        rwa [UInt32.zero_add, UInt32.toNat_ofNat', UInt32.toNat_ofNat'] at hcast
      rw [objectSize] at hnat
      omega
    · intro h
      exact absurd h.1 (by simp)

section Again

variable {δ : Type} [DataStore δ] (M : StoreModel δ) {E : Env}

/-- **The pack is found**, and the entries say what `addFile` left in them. -/
theorem backupPack_skips (hC : E.C.Lawful) {s : Session δ} (hs : M.Ok s.store)
    (hpack : s.pack.Closed) (files : List (Bytes × LocalFile))
    (hsome : files ≠ [] → M.contents s.store (packPath E.C s.keys files) ≠ none)
    (progress : FileTransferProgressFunction) :
    ∃ s', backupPack E files progress s = ok () s' ∧ M.Ok s'.store ∧ s'.keys = s.keys ∧
      s'.snapshot = packed E.C s.keys s.snapshot files
        (addedRanges E 0 s.uninitUsed files.length) ∧
      M.contents s'.store = M.contents s.store := by
  by_cases hfiles : files = []
  · subst hfiles
    exact ⟨s, backupPack_nil hpack progress, hs, rfl, rfl, rfl⟩
  · obtain ⟨s', p, infos, hrun, hs', hkeys, hsnap, hinfos, -, hstep⟩ :=
      backupPack_run M hC hs hpack hfiles progress
    rcases hstep with ⟨-, hcont, hleft⟩ | ⟨hnone, -⟩
    · refine ⟨s', hrun, hs', hkeys, ?_, hcont⟩
      rw [hsnap, hleft, hinfos, packInfos_eq]
      rfl
    · exact absurd hnone (hsome hfiles)

/-- **When a pack that is found is recorded like one that is stored.**  After
a first session has stored a pack, let another one pack files of the same
contents and compression, in the same order and under the same keys.  It skips
the upload, and records the same offsets and lengths exactly for the reusable
lists; these are restored from the second snapshot. -/
theorem backupPack_again_iff (hC : E.C.Lawful) {s₁ : Session δ} (hs₁ : M.Ok s₁.store)
    (hpack₁ : s₁.pack.Closed) (files₁ : List (Bytes × LocalFile))
    (hnone : M.contents s₁.store (packPath E.C s₁.keys files₁) = none)
    (progress₁ : FileTransferProgressFunction) :
    ∃ s₁', backupPack E files₁ progress₁ s₁ = ok () s₁' ∧ M.Ok s₁'.store ∧
      s₁'.snapshot = packed E.C s₁.keys s₁.snapshot files₁ (uploadedRanges E.C files₁) ∧
      ∀ (s₂ : Session δ) (files₂ : List (Bytes × LocalFile)) (progress₂ : FileTransferProgressFunction),
        M.Ok s₂.store → s₂.pack.Closed → s₂.keys = s₁.keys →
        files₂.map (fun file => (compressionFor file.2.info, file.2.content)) =
          files₁.map (fun file => (compressionFor file.2.info, file.2.content)) →
        M.contents s₂.store (packPath E.C s₁.keys files₁) =
          M.contents s₁'.store (packPath E.C s₁.keys files₁) →
        ∃ s₂', backupPack E files₂ progress₂ s₂ = ok () s₂' ∧
          M.contents s₂'.store = M.contents s₂.store ∧
          s₂'.snapshot = packed E.C s₂.keys s₂.snapshot files₂
            (addedRanges E 0 s₂.uninitUsed files₂.length) ∧
          (uploadedRanges E.C files₁ = addedRanges E 0 s₂.uninitUsed files₂.length ↔
            Reusable E s₂.uninitUsed files₂) ∧
          (Recordable s₁.snapshot files₁ → Recordable s₂.snapshot files₂ →
            (recorded s₁'.snapshot files₁ = recorded s₂'.snapshot files₂ ↔
              Reusable E s₂.uninitUsed files₂)) ∧
          (Reusable E s₂.uninitUsed files₂ → Recordable s₂.snapshot files₂ →
            Snapshot.Small s₂'.snapshot → (memberSizes E.C files₂).sum < 2 ^ 32 →
            ∀ file ∈ files₂, Restores E M s₂'.snapshot s₂' file.1 file.2.content) := by
  obtain ⟨s₁', hrun₁, hs₁', -, hsnap₁, hstored⟩ := backupPack_stores M hC hs₁ hpack₁ files₁ hnone progress₁
  refine ⟨s₁', hrun₁, hs₁', hsnap₁, ?_⟩
  intro s₂ files₂ progress₂ hs₂ hpack₂ hkeys hsame hagain
  -- the two lists have the same contents and sizes, so the same name
  have hcontents : files₂.map (fun file => file.2.content) = files₁.map fun file => file.2.content := by
    simpa only [List.map_map, Function.comp_def] using congrArg (List.map Prod.snd) hsame
  have hsizes : memberSizes E.C files₂ = memberSizes E.C files₁ := by
    simpa only [memberSizes, List.map_map, Function.comp_def] using
      congrArg (List.map fun m : CompressionType × Bytes => objectSize E.C m.1 m.2) hsame
  have hpath : packPath E.C s₂.keys files₂ = packPath E.C s₁.keys files₁ := by
    rw [packPath, packPath, hcontents, hkeys]
  have hlength : files₂.length = files₁.length := by
    simpa using congrArg List.length hcontents
  have hne : files₂ ≠ [] → ∃ objects, MemberObjects E.C s₁.keys files₁ objects ∧
      M.contents s₂.store (packPath E.C s₂.keys files₂) = some objects.flatten := by
    intro hfiles
    have hfiles₁ : files₁ ≠ [] := by
      rintro rfl
      exact hfiles (List.length_eq_zero_iff.mp hlength)
    obtain ⟨objects, hobjects, hcont⟩ := hstored hfiles₁
    exact ⟨objects, hobjects, by rw [hpath, hagain, hcont, Function.update_self]⟩
  obtain ⟨s₂', hrun₂, hs₂', hkeys₂, hsnap₂, hcont₂⟩ := backupPack_skips M hC hs₂ hpack₂ files₂
    (fun hfiles => by
      obtain ⟨objects, -, hcont⟩ := hne hfiles
      rw [hcont]
      simp) progress₂
  have hranges : uploadedRanges E.C files₁ = addedRanges E 0 s₂.uninitUsed files₂.length ↔
      Reusable E s₂.uninitUsed files₂ := by
    rw [← uploadedRanges_eq_skipped_iff, uploadedRanges, uploadedRanges, hsizes]
  refine ⟨s₂', hrun₂, hcont₂, hsnap₂, hranges, ?_, ?_⟩
  · intro hnew₁ hnew₂
    rw [hsnap₁, hsnap₂, hnew₁.recorded_eq _ _ (by
        rw [uploadedRanges, packOffsets_length, memberSizes, List.length_map]),
      hnew₂.recorded_eq _ _ (addedRanges_length _ _ _ _),
      (List.map_injective_iff.mpr (Option.some_injective _)).eq_iff]
    exact hranges
  · intro hreuse hnew₂ hsmall hsum file hfile
    obtain ⟨objects, hobjects, hcont⟩ := hne (List.ne_nil_of_mem hfile)
    -- the entries are those of the stored pack
    rw [← (uploadedRanges_eq_skipped_iff E s₂.uninitUsed files₂).mpr hreuse, ← hkeys₂] at hsnap₂
    rw [hsnap₂] at hsmall ⊢
    have hobjects₂ : MemberObjects E.C s₂'.keys files₂ objects := by
      rw [hkeys₂, hkeys]
      exact hobjects.congr hsame.symm
    refine restores_uploadedRanges M hC hs₂' hnew₂ hsmall hobjects₂ ?_ hsum hfile
    rw [hcont₂, hkeys₂]
    exact hcont

end Again

/-- Uninitialised memory that holds the size of the object of an empty
picture. -/
def luckyEnv : Env :=
  { zeroEnv emptyPictureTables.crypto with uninit := fun i => if i = 0 then 64 else 0 }

/-- With such memory a pack of one empty picture is recorded alike twice, and
restored from the second snapshot. -/
theorem backupPack_again_iff_picture :
    ∃ s₁ s₂, backupPack luckyEnv [(ascii "a.png", emptyPicture)] DefaultFileTransferProgressFunction
        emptySession = ok () s₁ ∧
      backupPack luckyEnv [(ascii "a.png", emptyPicture)] DefaultFileTransferProgressFunction
        { emptySession with store := s₁.store } = ok () s₂ ∧
      recorded s₁.snapshot [(ascii "a.png", emptyPicture)] =
        recorded s₂.snapshot [(ascii "a.png", emptyPicture)] ∧
      Restores luckyEnv FileDataStore.storeModel s₂.snapshot s₂ (ascii "a.png") [] := by
  have hnew : Recordable .new [(ascii "a.png", emptyPicture)] :=
    ⟨Snapshot.new_wf, fun _ _ => rfl, by decide, by decide⟩
  have hreuse : Reusable luckyEnv 0 [(ascii "a.png", emptyPicture)] :=
    ⟨le_refl 1, fun file hfile => by
      rw [List.mem_singleton.mp hfile]
      decide +kernel⟩
  obtain ⟨s₁, hrun₁, hs₁, -, hagain⟩ := backupPack_again_iff FileDataStore.storeModel
    (E := luckyEnv) emptyPictureTables.crypto_lawful emptySession_ok PackUploadState.new_closed
    [(ascii "a.png", emptyPicture)] rfl DefaultFileTransferProgressFunction
  obtain ⟨s₂, hrun₂, -, hsnap, -, hrecorded, hrestores⟩ := hagain { emptySession with store := s₁.store }
    [(ascii "a.png", emptyPicture)] DefaultFileTransferProgressFunction hs₁
    PackUploadState.new_closed rfl rfl rfl
  refine ⟨s₁, s₂, hrun₁, hrun₂, (hrecorded hnew hnew).mpr hreuse, ?_⟩
  refine hrestores hreuse hnew ?_ (by decide +kernel) _ List.mem_cons_self
  have hsmall : Snapshot.Small (packed luckyEnv.C zeroKeys .new [(ascii "a.png", emptyPicture)]
      (addedRanges luckyEnv 0 0 1)) := by
    constructor <;> decide +kernel
  rw [hsnap]
  exact hsmall

/-- **A pack of two empty pictures is recorded differently the second time**:
their objects of 64 bytes stand at 0 and 64, and the second snapshot has them
at 0 and 1. -/
theorem backupPack_again_differs :
    ∃ s₁ s₂, backupPack (zeroEnv emptyPictureTables.crypto)
        [(ascii "a.png", emptyPicture), (ascii "b.png", emptyPicture)]
        DefaultFileTransferProgressFunction emptySession = ok () s₁ ∧
      backupPack (zeroEnv emptyPictureTables.crypto)
        [(ascii "a.png", emptyPicture), (ascii "b.png", emptyPicture)]
        DefaultFileTransferProgressFunction { emptySession with store := s₁.store } = ok () s₂ ∧
      recorded s₁.snapshot [(ascii "a.png", emptyPicture), (ascii "b.png", emptyPicture)] =
        [some (0, 64), some (64, 64)] ∧
      recorded s₂.snapshot [(ascii "a.png", emptyPicture), (ascii "b.png", emptyPicture)] =
        [some (0, 0), some (1, 0)] := by
  obtain ⟨s₁, hrun₁, hs₁, -, hsnap₁, hstored⟩ := backupPack_stores FileDataStore.storeModel
    (E := zeroEnv emptyPictureTables.crypto) emptyPictureTables.crypto_lawful emptySession_ok PackUploadState.new_closed
    [(ascii "a.png", emptyPicture), (ascii "b.png", emptyPicture)] rfl
    DefaultFileTransferProgressFunction
  obtain ⟨objects, -, hcont⟩ := hstored (by simp)
  obtain ⟨s₂, hrun₂, -, -, hsnap₂, -⟩ := backupPack_skips FileDataStore.storeModel
    (E := zeroEnv emptyPictureTables.crypto) emptyPictureTables.crypto_lawful
    (s := { emptySession with store := s₁.store }) hs₁ PackUploadState.new_closed
    [(ascii "a.png", emptyPicture), (ascii "b.png", emptyPicture)]
    (fun _ => by
      show FileDataStore.storeModel.contents s₁.store _ ≠ none
      rw [hcont]
      exact fun h => absurd (h.symm.trans (Function.update_self _ _ _)) (by simp))
    DefaultFileTransferProgressFunction
  refine ⟨s₁, s₂, hrun₁, hrun₂, ?_, ?_⟩
  · rw [hsnap₁]
    refine (recordable_pictures.recorded_eq _ _ rfl).trans ?_
    decide +kernel
  · rw [hsnap₂]
    refine (recordable_pictures.recorded_eq _ _ rfl).trans ?_
    show (addedRanges (zeroEnv emptyPictureTables.crypto) 0 0 2).map some = _
    decide +kernel

end Nebula
