/-
Two clients that back up to one store.

The steps of `compressEncryptAndUploadBlock`, `storePack` and `put` on the files
of a `FileDataStore` are those of `SharedDirectory`, with the names of objects
as names and `Whole` objects as whole files; alone, a client does by these steps
what the commands do (`compressEncryptAndUploadBlock_steps`).  An object that
is being written has its final name, so `exist` finds it, and the cancelled
`put` of one client takes away what the other relies on.

* `twoClients_objects` — as long as no client opens an object that the other
  is writing or removes one that the other relies on, every object of every
  committed snapshot is there and is accepted by `decompressDecryptHMAC`.
* `twoClients_dangling` — a committed snapshot that names an object which was
  removed.
-/
import NebulaBackup.SharedDirectory
import NebulaBackup.StoreRuns

namespace Nebula

open EStateM.Result Hoare SharedDirectory

/-! ### Objects that are accepted -/

/-- `decompressDecryptHMAC` accepts the bytes and returns `d`, from every
stream that holds them. -/
def AcceptedAs (C : Crypto) (keys : RepositoryKeys) (t : CompressionType) (bytes d : Bytes) : Prop :=
  ∀ {σ ω : Type} [InputStream σ] [RewindableStream σ] [OutputStream ω] {W : ω → Bytes → Prop},
    Sink W → ∀ {i : σ} {o : ω} {w : Bytes} {fuel : ℕ}, Holds i bytes → W o w →
      d.length + bytes.length ≤ fuel →
      ∃ i' o', decompressDecryptHMAC C fuel (some t) C.cipher keys.mEncKey.toList
        keys.mMacKey.toList i o = ok () (i', o') ∧ W o' (w ++ d)

/-- The bytes are accepted as an object of the given name: as the block with
this id, or member by member as the pack with this id. -/
def Accepted (C : Crypto) (keys : RepositoryKeys) (name bytes : Bytes) : Prop :=
  (∃ t block, name = objectName (blockId C keys t block) ∧ AcceptedAs C keys t bytes block) ∨
  ∃ (members : List (CompressionType × Bytes)) (objects : List Bytes),
    name = objectName (packId C keys (members.map Prod.snd)) ∧ bytes = objects.flatten ∧
    List.Forall₂ (fun m object => AcceptedAs C keys m.1 object m.2) members objects

theorem sealedWith_accepted {C : Crypto} (hC : C.Lawful) (keys : RepositoryKeys) (t : CompressionType)
    (iv : Digest EVP_MAX_IV_LENGTH) (d : Bytes) :
    AcceptedAs C keys t (sealedWith C keys t iv d) d := by
  intro σ ω _ _ _ W hW i o w fuel hi ho hfuel
  exact decompressDecryptHMAC_spec hC hW hi ho iv.toList_length hfuel C.cipher

/-- **Whole objects are accepted.** -/
theorem Whole.accepted {C : Crypto} (hC : C.Lawful) {keys : RepositoryKeys} {name bytes : Bytes}
    (h : Whole C keys name bytes) : Accepted C keys name bytes := by
  rcases h with ⟨t, block, iv, rfl, rfl⟩ | ⟨fileInfos, packData, objects, rfl, -, hlen, hsealed, rfl⟩
  · exact Or.inl ⟨t, block, rfl, sealedWith_accepted hC keys t iv block⟩
  · refine Or.inr ⟨(fileInfos.zip packData).map fun m => (m.1.compression, m.2), objects, ?_, rfl, ?_⟩
    · rw [List.map_map, show (Prod.snd ∘ fun m : PackFileInfo × Bytes => (m.1.compression, m.2)) =
        Prod.snd from rfl, List.map_snd_zip (by omega)]
    · rw [List.forall₂_map_left_iff]
      refine hsealed.imp fun m object hobject => ?_
      obtain ⟨iv, rfl⟩ := hobject
      exact sealedWith_accepted hC keys m.1.compression iv m.2

/-! ### The commands are runs of steps -/

/-- The directory holds the objects of the store. -/
def Mirrors (D : Disk Bytes UInt8) (d : FileDataStore) : Prop :=
  ∀ name, D.contents name = d.contents (objectPath name)

theorem Mirrors.update {D D' : Disk Bytes UInt8} {d d' : FileDataStore} (h : Mirrors D d)
    {name : Bytes} {b : Option Bytes} (hD : D'.contents = Function.update D.contents name b)
    (hd : d'.contents = Function.update d.contents (objectPath name) b) : Mirrors D' d' := by
  intro name'
  rw [hD, hd]
  by_cases hname : name' = name
  · rw [hname, Function.update_self, Function.update_self]
  · have hpath : objectPath name' ≠ objectPath name := fun hc => hname (List.append_cancel_left hc)
    rw [Function.update_of_ne hname, Function.update_of_ne hpath]
    exact h name'

section Commands

variable {E : Env} {s : Session FileDataStore} {sys : Sys Bool Bytes UInt8} {c : Bool}

/-- A `put` of a whole object that was not there: the client writes it, or is
cancelled and removes it. -/
theorem storePut_steps {keys : RepositoryKeys} (hC : E.C.Lawful) (hs : s.store.Ok)
    (hidle : (sys.client c).phase = .idle) (hD : Mirrors sys.disk s.store) {name bytes : Bytes}
    (hnone : s.store.contents (objectPath name) = none) (hwhole : Whole E.C keys name bytes)
    {σ : Type} [InputStream σ] [RewindableStream σ] {i : σ} (hi : Holds i bytes)
    (progress : ProgressFunction) :
    ∃ D d, Mirrors D d ∧
      ((storePut (objectPath name) i progress s = ok () { s with store := d } ∧
          Run (Whole E.C keys) 4096 (Alone c) sys
            (sys.act c D { sys.client c with refs := name :: (sys.client c).refs })) ∨
        storePut (objectPath name) i progress s =
            error (.thrown .CancelledException "User cancelled.") { s with store := d } ∧
          (∃ i j, progress i j = false) ∧
          Run (Whole E.C keys) 4096 (Alone c) sys (sys.act c D (sys.client c))) := by
  have habsent : sys.disk.contents name = none := (hD name).trans hnone
  obtain ⟨d, i', -, hput⟩ := FileDataStore.put_spec hs (isSep_objectPath name) hi progress
  rcases hput with ⟨hput, hcont⟩ | ⟨hput, hcont, hcancel⟩
  · obtain ⟨D, hrun, hDcont⟩ := alone_put (show 0 < 4096 by omega) hidle habsent hwhole
    refine ⟨D, d, hD.update hDcont hcont, Or.inl ⟨?_, hrun⟩⟩
    simp only [storePut, DataStore.put, hput]
  · obtain ⟨D, hrun, hDcont⟩ := alone_cancelled (show 0 < 4096 by omega) hidle habsent hwhole
      (hwhole.ne_nil hC)
    refine ⟨D, d, hD.update hDcont hcont, Or.inr ⟨?_, hcancel, hrun⟩⟩
    simp only [storePut, DataStore.put, hput]

/-- **The upload of a block is a run of steps**, whatever `progress` answers; the
client relies on the object when the command returns. -/
theorem compressEncryptAndUploadBlock_steps (hC : E.C.Lawful) (hs : s.store.Ok)
    (hidle : (sys.client c).phase = .idle) (hD : Mirrors sys.disk s.store) (t : CompressionType)
    (block : Bytes) (progress : ProgressFunction) :
    ∃ D d n, Mirrors D d ∧
      ((compressEncryptAndUploadBlock E t (blockId E.C s.keys t block) block progress s =
            ok () { s with store := d, randomUsed := n } ∧
          Run (Whole E.C s.keys) 4096 (Alone c) sys (sys.act c D { sys.client c with
            refs := objectName (blockId E.C s.keys t block) :: (sys.client c).refs })) ∨
        compressEncryptAndUploadBlock E t (blockId E.C s.keys t block) block progress s =
            error (.thrown .CancelledException "User cancelled.")
              { s with store := d, randomUsed := n } ∧
          Run (Whole E.C s.keys) 4096 (Alone c) sys (sys.act c D (sys.client c))) := by
  have hname := objectName_run (blockId E.C s.keys t block) s
  have hexist := storeExist_file (objectName (blockId E.C s.keys t block)) s
  rw [compressEncryptAndUploadBlock, run_ok hname, run_ok hexist]
  cases hfound : s.store.contents (objectPath (objectName (blockId E.C s.keys t block))) with
  | some bytes =>
    -- one look is all the client does, whoever wrote the object
    have hthere : sys.disk.contents (objectName (blockId E.C s.keys t block)) ≠ none := by
      rw [hD, hfound]
      exact Option.some_ne_none _
    refine ⟨sys.disk, s.store, s.randomUsed, hD, ?_⟩
    by_cases hcancel : progress block.length block.length = false
    · refine Or.inr ⟨?_, ?_⟩
      · rw [Option.isSome_some, if_pos rfl, if_pos hcancel]
        rfl
      · rw [Sys.act_eq]
        exact .single ⟨c, .exist, rfl, .refused hidle hthere⟩
    · refine Or.inl ⟨?_, .single ⟨c, .exist, rfl, .found hidle hthere⟩⟩
      rw [Option.isSome_some, if_pos rfl, if_neg hcancel]
      rfl
  | none =>
    obtain ⟨iv, out, hseal, hout⟩ := sealMemory_run (E := E) hC t block s
    obtain ⟨D, d, hmirrors, hput⟩ := storePut_steps
      (s := { s with randomUsed := s.randomUsed + EVP_MAX_IV_LENGTH }) hC hs hidle hD hfound
      (Or.inl ⟨t, block, iv, rfl, rfl⟩) hout progress
    refine ⟨D, d, s.randomUsed + EVP_MAX_IV_LENGTH, hmirrors, ?_⟩
    rw [Option.isSome_none, if_neg Bool.false_ne_true, run_ok hseal]
    rcases hput with ⟨hput, hrun⟩ | ⟨hput, -, hrun⟩
    · exact Or.inl ⟨hput, hrun⟩
    · exact Or.inr ⟨hput, hrun⟩

/-- **The upload of a pack is a run of steps**; nobody is asked to cancel it. -/
theorem storePack_steps (hC : E.C.Lawful) (hs : s.store.Ok) (hidle : (sys.client c).phase = .idle)
    (hD : Mirrors sys.disk s.store) (hlen : s.pack.fileInfos.length = s.pack.packData.length)
    (hmembers : s.pack.packData ≠ []) :
    ∃ D s', Mirrors D s'.store ∧
      storePack E (packId E.C s.keys s.pack.packData) s = ok () s' ∧
      Run (Whole E.C s.keys) 4096 (Alone c) sys (sys.act c D { sys.client c with
        refs := objectName (packId E.C s.keys s.pack.packData) :: (sys.client c).refs }) := by
  have hname := objectName_run (packId E.C s.keys s.pack.packData) s
  have hexist := storeExist_file (objectName (packId E.C s.keys s.pack.packData)) s
  cases hfound : s.store.contents (objectPath (objectName (packId E.C s.keys s.pack.packData))) with
  | some bytes =>
    rw [hfound] at hexist
    have hthere : sys.disk.contents (objectName (packId E.C s.keys s.pack.packData)) ≠ none := by
      rw [hD, hfound]
      exact Option.some_ne_none _
    exact ⟨sys.disk, s, hD, run_step hname (run_step hexist rfl),
      .single ⟨c, .exist, rfl, .found hidle hthere⟩⟩
  | none =>
    rw [hfound] at hexist
    obtain ⟨objects, streams, n, hlayout, hholds, hsealed⟩ := layoutPack_run (E := E) hC
      s.pack.fileInfos s.pack.packData 0 s hlen
    obtain ⟨D, d, hmirrors, hput⟩ := storePut_steps (s := { s with
        randomUsed := n
        pack := { s.pack with fileInfos := laidOut s.pack.fileInfos objects 0 } }) hC hs hidle hD
      hfound (Or.inr ⟨s.pack.fileInfos, s.pack.packData, objects, rfl, hmembers, hlen, hsealed, rfl⟩)
      (MultiInputStream.new_holds hholds) DefaultProgressFunction
    rcases hput with ⟨hput, hrun⟩ | ⟨-, ⟨i, j, hcancel⟩, -⟩
    -- `uploadPack` passes no `progress` on
    · exact ⟨D, _, hmirrors, run_step hname (run_step hexist (run_step rfl (run_step hlayout
        (run_step rfl hput)))), hrun⟩
    · exact absurd hcancel (by simp [DefaultProgressFunction])

end Commands

/-! ### Both clients -/

/-- **What two clients that do not disturb each other leave.**  In every run from
a store of whole objects whose steps are undisturbed, once both clients have
stopped, every object that one of them committed is there and is accepted. -/
theorem twoClients_objects {C : Crypto} (hC : C.Lawful) (keys : RepositoryKeys)
    {D : Disk Bytes UInt8} (hD : ∀ name bytes, D.contents name = some bytes → Whole C keys name bytes)
    {sys : Sys Bool Bytes UInt8}
    (hrun : Run (Whole C keys) 4096 Undisturbed ⟨D, fun _ => .new⟩ sys)
    (hstopped : ∀ c, (sys.client c).phase = .idle) :
    ∀ c, ∀ name ∈ (sys.client c).committed,
      ∃ bytes, sys.disk.contents name = some bytes ∧ Accepted C keys name bytes := by
  intro c name hname
  have hinv : Inv (Whole C keys) sys := Inv.run hrun (Inv.start hD)
  obtain ⟨bytes, hbytes, hwhole⟩ := hinv.held_whole hstopped (Or.inr hname)
  exact ⟨bytes, hbytes, hwhole.accepted hC⟩

/-- The object of an empty picture. -/
def emptyPictureObject : Bytes :=
  sealedWith pictureTables.crypto zeroKeys .NoCompression (List.Vector.replicate 16 0) []

/-- Its name. -/
def emptyPictureName : Bytes :=
  objectName (blockId pictureTables.crypto zeroKeys .NoCompression [])

theorem emptyPictureObject_whole :
    Whole pictureTables.crypto zeroKeys emptyPictureName emptyPictureObject :=
  Or.inl ⟨.NoCompression, [], List.Vector.replicate 16 0, rfl, rfl⟩

/-- The object of the picture `a`. -/
def letterPictureObject : Bytes :=
  sealedWith pictureTables.crypto zeroKeys .NoCompression (List.Vector.replicate 16 0) [97]

/-- Its name. -/
def letterPictureName : Bytes :=
  objectName (blockId pictureTables.crypto zeroKeys .NoCompression [97])

theorem letterPictureObject_whole :
    Whole pictureTables.crypto zeroKeys letterPictureName letterPictureObject :=
  Or.inl ⟨.NoCompression, [97], List.Vector.replicate 16 0, rfl, rfl⟩

/-- Two clients write the objects of two pictures at the same time.  The second one is
cancelled, finds the object of the first one, and both commit it. -/
theorem twoClients_objects_pictures :
    ∃ sys : Sys Bool Bytes UInt8,
      Run (Whole pictureTables.crypto zeroKeys) 4096 Undisturbed ⟨.empty, fun _ => .new⟩ sys ∧
      (∀ c, emptyPictureName ∈ (sys.client c).committed) ∧
      ∃ bytes, sys.disk.contents emptyPictureName = some bytes ∧
        Accepted pictureTables.crypto zeroKeys emptyPictureName bytes := by
  obtain ⟨sys, hrun, hstopped, hfirst, hsecond⟩ := in_turn
    (show true ≠ false from Bool.noConfusion)
    (show letterPictureName ≠ emptyPictureName by decide +kernel) emptyPictureObject_whole
    letterPictureObject_whole (emptyPictureObject_whole.ne_nil pictureTables.crypto_lawful)
    (letterPictureObject_whole.ne_nil pictureTables.crypto_lawful)
    (show emptyPictureObject.length ≤ 4096 by decide +kernel)
  refine ⟨sys, hrun, ?_, twoClients_objects pictureTables.crypto_lawful zeroKeys
    (fun name bytes h => by cases h) hrun hstopped true emptyPictureName hsecond⟩
  rintro (_ | _)
  · exact hfirst
  · exact hsecond

/-- **A committed snapshot that names a removed object.**  While the first client
writes the object of an empty picture, the second one finds it, takes it for its
own and commits; then the first one is cancelled. -/
theorem twoClients_dangling :
    ∃ sys : Sys Bool Bytes UInt8,
      Run (Whole pictureTables.crypto zeroKeys) 4096 (fun _ _ _ => True)
        ⟨.empty, fun _ => .new⟩ sys ∧
      (∀ c, (sys.client c).phase = .idle) ∧ emptyPictureName ∈ (sys.client true).committed ∧
      sys.disk.contents emptyPictureName = none :=
  dangling (show 0 < 4096 by omega) (show true ≠ false from Bool.noConfusion)
    emptyPictureObject_whole (emptyPictureObject_whole.ne_nil pictureTables.crypto_lawful)

end Nebula
