/-
Flushing a pack again after a failure.

`finalizePack` takes the id of the pack from the HMAC context before it talks
to the store, and the context is initialised again only when a new pack is
opened, which the rolling hash decides.  `Collected` is what is true of the
pack state in every run on every store, also after calls that threw
(`runUploads_collected`): the context was fed the members, in as many parts
as there were flushes that failed, and one more.

* `finalizePack_error` — what a flush that throws leaves: the snapshot and the
  members as they were, the context finalised once more.
* `finalizePack_retry` — from then on no flush of these members uses the id of
  the members, whatever is added in between.
* `finalizePack_retry_picture` — one empty picture on a disk that is full for
  a moment.
-/
import NebulaBackup.StoreRuns
import NebulaBackup.PackRuns
import NebulaBackup.ObjectIds

namespace Nebula

open EStateM.Result Hoare

/-! ### The context -/

namespace HmacCtx

/-- Everything the context was fed. -/
def accumulated (c : HmacCtx) : Bytes := c.fed.reverse.flatten

@[simp] theorem update_key (c : HmacCtx) (d : Bytes) : (c.update d).key = c.key := by
  rw [update]
  split <;> rfl

@[simp] theorem update_accumulated (c : HmacCtx) (d : Bytes) :
    (c.update d).accumulated = c.accumulated ++ d := by
  obtain ⟨key, fed⟩ := c
  cases fed with
  | nil => simp [update, accumulated]
  | cons part parts => simp [update, accumulated]

theorem update_length {c : HmacCtx} (h : c.fed ≠ []) (d : Bytes) :
    (c.update d).fed.length = c.fed.length := by
  obtain ⟨key, fed⟩ := c
  cases fed with
  | nil => exact absurd rfl h
  | cons part parts => rfl

@[simp] theorem final_length (C : Crypto) (c : HmacCtx) :
    (c.final C).2.fed.length = c.fed.length + 1 := rfl

@[simp] theorem final_accumulated (C : Crypto) (c : HmacCtx) :
    (c.final C).2.accumulated = c.accumulated := by
  simp [final, accumulated]

end HmacCtx

/-- `HMAC_Final` consumes its context: until `HMAC_Init` is called again, what
it yields is not the MAC of what the context accumulated. -/
def Crypto.ConsumesContext (C : Crypto) : Prop :=
  ∀ (key : Bytes) (parts : List Bytes), 2 ≤ parts.length →
    C.staleHmac key parts ≠ C.hmacSha256 key parts.reverse.flatten

/-! ### The pack state of every run -/

namespace PackUploadState

/-- The members and their entries stand at the same places, and the context of
an open pack was fed every member twice. -/
structure Collected (keys : RepositoryKeys) (p : PackUploadState) : Prop where
  lengths : p.fileInfos.length = p.packData.length
  closed : p.rollingHash = none → p.fileInfos = []
  key : p.rollingHash ≠ none → p.hmac.key = keys.mHashKey.toList.take SHA256_DIGEST_LENGTH
  fed : p.rollingHash ≠ none → p.hmac.fed ≠ []
  data : p.rollingHash ≠ none → p.hmac.accumulated = p.packData.flatMap fun d => d ++ d

theorem new_collected (keys : RepositoryKeys) : PackUploadState.new.Collected keys :=
  ⟨rfl, fun _ => rfl, fun h => absurd rfl h, fun h => absurd rfl h, fun h => absurd rfl h⟩

variable {keys : RepositoryKeys} {p : PackUploadState}

/-- As long as no flush failed the id is the one of the members. -/
theorem Collected.nextId_fresh (h : p.Collected keys) (hopen : p.rollingHash ≠ none) {C : Crypto}
    (hone : p.hmac.fed.length = 1) : p.nextId C = packId C keys p.packData := by
  obtain ⟨part, hpart⟩ := List.length_eq_one_iff.mp hone
  have hdata := h.data hopen
  rw [HmacCtx.accumulated, hpart] at hdata
  rw [nextId, HmacCtx.final, hpart, packId, ← hdata, h.key hopen]
  simp

/-- After a flush that failed it is not. -/
theorem Collected.nextId_stale (h : p.Collected keys) (hopen : p.rollingHash ≠ none) {C : Crypto}
    (hC : C.ConsumesContext) (htwo : 2 ≤ p.hmac.fed.length) :
    p.nextId C ≠ packId C keys p.packData := by
  have hstale : p.nextId C = C.staleHmac p.hmac.key p.hmac.fed := by
    rw [nextId, HmacCtx.final]
    split
    · next part hpart => rw [hpart] at htwo; exact absurd htwo (by simp)
    · rfl
  rw [hstale, packId, ← h.data hopen, ← h.key hopen]
  exact hC _ _ htwo

/-- Opening a pack makes the context ready and changes nothing else. -/
theorem Collected.open (h : p.Collected keys) (C : Crypto) :
    ∃ r, (p.open C keys).rollingHash = some r ∧ (p.open C keys).fileInfos = p.fileInfos ∧
      (p.open C keys).packData = p.packData ∧ (p.open C keys).Collected keys := by
  obtain ⟨hmac, fileInfos, packData, rollingHash⟩ := p
  cases rollingHash with
  | some r => exact ⟨r, rfl, rfl, rfl, h⟩
  | none =>
    -- a closed pack is empty, and `HMAC_Init` makes a context that was fed nothing
    obtain rfl : fileInfos = [] := h.closed rfl
    obtain rfl : packData = [] := List.length_eq_zero_iff.mp h.lengths.symm
    exact ⟨_, rfl, rfl, rfl, rfl, fun _ => rfl, fun _ => rfl, fun _ => List.cons_ne_nil _ _,
      fun _ => rfl⟩

end PackUploadState

/-- What a pack records of a member, but for its place. -/
def PackFileInfo.unplaced (fi : PackFileInfo) : PackFileInfo := { fi with offset := 0, packLength := 0 }

/-- The same members, wherever they stand in the pack. -/
def SameMembers (infos infos' : List PackFileInfo) : Prop :=
  infos.map PackFileInfo.unplaced = infos'.map PackFileInfo.unplaced

theorem SameMembers.length_eq {infos infos' : List PackFileInfo} (h : SameMembers infos infos') :
    infos.length = infos'.length := by
  have hlen := congrArg List.length h
  rwa [List.length_map, List.length_map] at hlen

theorem SameMembers.append {a b a' b' : List PackFileInfo} (h : SameMembers a a')
    (h' : SameMembers b b') : SameMembers (a ++ b) (a' ++ b') := by
  rw [SameMembers, List.map_append, List.map_append, h, h']

section Commands

variable {δ : Type} {E : Env}

/-! ### Adding files -/

/-- A file joins a pack. -/
theorem packFile_collected (normalizedPath : Bytes) (fileInfo : FileInfo) (buffer : Bytes)
    {s : Session δ} (hs : s.pack.Collected s.keys) :
    ∃ writePack p, packFile E normalizedPath fileInfo buffer s =
        ok writePack { s with pack := p, uninitUsed := s.uninitUsed + 4 } ∧
      p.Collected s.keys ∧ p.rollingHash ≠ none ∧
      p.fileInfos = s.pack.fileInfos ++ [packInfo E.C normalizedPath fileInfo buffer
        s.pack.packData.length (.ofNat (leNat (bytesFrom E.uninit s.uninitUsed 4).toList))] ∧
      p.packData = s.pack.packData ++ [buffer] ∧
      p.hmac.fed.length = (if s.pack.rollingHash.isSome then s.pack.hmac.fed.length else 1) ∧
      ∀ r, (s.pack.open E.C s.keys).rollingHash = some r →
        writePack = (rollAll r buffer).1 ∧ p.rollingHash = some (rollAll r buffer).2 := by
  obtain ⟨r, hr, hinfos, hdata, hopen⟩ := hs.open E.C
  have hne : (s.pack.open E.C s.keys).rollingHash ≠ none := by simp [hr]
  have hlen : ∀ d, ((s.pack.open E.C s.keys).hmac.update d).fed.length =
      (s.pack.open E.C s.keys).hmac.fed.length := HmacCtx.update_length (hopen.fed hne)
  have hfed : ((s.pack.open E.C s.keys).hmac.update buffer).fed ≠ [] := by
    rw [← List.length_pos_iff, hlen]
    exact List.length_pos_iff.mpr (hopen.fed hne)
  refine ⟨_, _, packFile_eq normalizedPath fileInfo buffer s hr, ?_, by simp, ?_, ?_, ?_, ?_⟩
  · refine ⟨?_, fun h => absurd h (by simp), fun _ => ?_, fun _ => ?_, fun _ => ?_⟩
    · rw [List.length_append, List.length_append, hopen.lengths]
      rfl
    · simpa using hopen.key hne
    · rw [← List.length_pos_iff, HmacCtx.update_length hfed]
      exact List.length_pos_iff.mpr hfed
    · -- once by `uploadFile` and once by `addFile`
      rw [HmacCtx.update_accumulated, HmacCtx.update_accumulated, hopen.data hne,
        List.flatMap_append, List.flatMap_singleton, List.append_assoc]
  · rw [hinfos, hdata]
  · rw [hdata]
  · show (((s.pack.open E.C s.keys).hmac.update buffer).update buffer).fed.length = _
    rw [HmacCtx.update_length hfed, hlen, PackUploadState.open]
    cases s.pack.rollingHash <;> rfl
  · intro r' hr'
    rw [Option.some.inj (hr.symm.trans hr')]
    exact ⟨rfl, rfl⟩

/-- The entries of files that have no place yet. -/
def unplacedInfos (C : Crypto) (files : List (Bytes × LocalFile)) : List PackFileInfo :=
  files.map fun file => packInfo C file.1 file.2.info file.2.content 0 0

/-- Files join an open pack, one after the other. -/
theorem packAll_collected : ∀ (files : List (Bytes × LocalFile)) {s : Session δ},
    s.pack.Collected s.keys → s.pack.rollingHash ≠ none →
    ∃ p n, packAll E files s = ok () { s with pack := p, uninitUsed := n } ∧
      p.Collected s.keys ∧ p.rollingHash ≠ none ∧
      SameMembers p.fileInfos (s.pack.fileInfos ++ unplacedInfos E.C files) ∧
      p.packData = s.pack.packData ++ files.map (fun file => file.2.content) ∧
      p.hmac.fed.length = s.pack.hmac.fed.length := by
  intro files
  induction files with
  | nil =>
    intro s hs hopen
    exact ⟨s.pack, s.uninitUsed, rfl, hs, hopen, by simp [SameMembers, unplacedInfos], by simp, rfl⟩
  | cons file files ih =>
    intro s hs hopen
    obtain ⟨writePack, p, hrun, hp, hpopen, hinfos, hdata, hfed, -⟩ :=
      packFile_collected (E := E) file.1 file.2.info file.2.content hs
    rw [if_pos (Option.isSome_iff_ne_none.mpr hopen)] at hfed
    obtain ⟨p', n, hrun', hp', hpopen', hinfos', hdata', hfed'⟩ :=
      ih (s := { s with pack := p, uninitUsed := s.uninitUsed + 4 }) hp hpopen
    refine ⟨p', n, run_step hrun hrun', hp', hpopen', ?_, ?_, hfed'.trans hfed⟩
    · -- the index and the unset length of the new member do not count
      have hfirst : SameMembers p.fileInfos
          (s.pack.fileInfos ++ [packInfo E.C file.1 file.2.info file.2.content 0 0]) := by
        rw [hinfos]
        exact SameMembers.append rfl rfl
      have happ := hfirst.append (show SameMembers (unplacedInfos E.C files) _ from rfl)
      rw [List.append_assoc] at happ
      exact Eq.trans hinfos' happ
    · rw [hdata', hdata, List.append_assoc]
      rfl

/-- The condition does not look at the store and at the random bytes. -/
def Blind (I : Session δ → Prop) : Prop :=
  ∀ s d n, I s → I { s with store := d, randomUsed := n }

/-- The pack state is collected, under these keys. -/
def PackCollected (keys : RepositoryKeys) (s : Session δ) : Prop :=
  s.keys = keys ∧ s.pack.Collected keys

variable {keys : RepositoryKeys}

theorem packFile_keepsPack (normalizedPath : Bytes) (fileInfo : FileInfo) (buffer : Bytes) :
    Keeps (PackCollected (δ := δ) keys) (packFile E normalizedPath fileInfo buffer) := by
  rintro s ⟨rfl, hs⟩
  obtain ⟨writePack, p, hrun, hp, -⟩ := packFile_collected (E := E) normalizedPath fileInfo buffer hs
  rw [hrun]
  exact ⟨rfl, hp⟩

theorem packCollected_blind (keys : RepositoryKeys) : Blind (PackCollected (δ := δ) keys) :=
  fun _ _ _ hs => hs

/-! ### What flushing touches -/

theorem sealMemory_keeps {I : Session δ → Prop} (hI : Blind I) (t : CompressionType) (data : Bytes) :
    Keeps I (sealMemory E t data) := by
  have hrandom : Keeps I (arc4random_buf E EVP_MAX_IV_LENGTH) :=
    fun s hs => hI s s.store (s.randomUsed + EVP_MAX_IV_LENGTH) hs
  refine hrandom.bind fun iv => Keeps.get_bind fun s _ => (keeps_onStream _ _).bind ?_
  rintro ⟨encryptedStream, _⟩
  exact Keeps.pure _

/-- The first loop of `finalizePack` places the members. -/
theorem layoutPack_members {I : Session δ → Prop} (hI : Blind I) :
    ∀ (fileInfos : List PackFileInfo) (packData : List Bytes) (offset : UInt32),
      Triple I (layoutPack E fileInfos packData offset)
        (fun r s => SameMembers r.1 fileInfos ∧ I s) fun _ => I := by
  intro fileInfos
  induction fileInfos with
  | nil =>
    intro packData offset
    exact Triple.pure fun s hs => ⟨rfl, hs⟩
  | cons fi fileInfos ih =>
    intro packData offset
    cases packData with
    | nil => exact Triple.throw fun s hs => hs
    | cons data packData =>
      -- every entry keeps all but its offset and its length
      refine Triple.bind (sealMemory_keeps hI _ _) fun encryptedStream => ?_
      refine Triple.bind (ih packData _) ?_
      rintro ⟨infos, streams⟩
      refine Triple.pure fun s hs => ⟨?_, hs.2⟩
      have hrest : infos.map PackFileInfo.unplaced = fileInfos.map PackFileInfo.unplaced := hs.1
      rw [SameMembers, List.map_cons, List.map_cons, hrest]
      rfl

/-- Apart from the store, only the places of the members may differ. -/
def Touched (s₀ s : Session δ) : Prop :=
  ∃ d n infos, SameMembers infos s₀.pack.fileInfos ∧
    s = { s₀ with store := d, randomUsed := n, pack := { s₀.pack with fileInfos := infos } }

theorem Touched.refl (s : Session δ) : Touched s s :=
  ⟨s.store, s.randomUsed, s.pack.fileInfos, rfl, rfl⟩

theorem Touched.blind (s₀ : Session δ) : Blind (Touched s₀) := by
  rintro s d n ⟨_, _, infos, hinfos, rfl⟩
  exact ⟨d, n, infos, hinfos, rfl⟩

variable [DataStore δ]

theorem storeExist_keeps {I : Session δ → Prop} (hI : Blind I) (path : Bytes) :
    Keeps I (storeExist path) := by
  intro s hs
  rw [storeExist]
  cases DataStore.exist s.store path with
  | ok found d => exact hI s d s.randomUsed hs
  | error e d => exact hI s d s.randomUsed hs

theorem storePut_keeps {I : Session δ → Prop} (hI : Blind I) {σ : Type} [InputStream σ] (path : Bytes)
    (i : σ) (progress : ProgressFunction) : Keeps I (storePut path i progress) := by
  intro s hs
  rw [storePut]
  cases DataStore.put s.store path i progress with
  | ok _ d => exact hI s d.1 s.randomUsed hs
  | error e d => exact hI s d.1 s.randomUsed hs

theorem storePack_touches (objectId : ObjectID) (s₀ : Session δ) :
    Keeps (Touched s₀) (storePack E objectId) := by
  refine (keeps_ofExcept _).bind fun name => ?_
  refine (storeExist_keeps (Touched.blind s₀) _).bind fun found => ?_
  cases found with
  | true => exact Keeps.pure _
  | false =>
    refine Keeps.get_bind fun s hs => ?_
    obtain ⟨_, _, infos₁, hinfos₁, rfl⟩ := hs
    refine Triple.bind (layoutPack_members (Touched.blind s₀) _ _ _) ?_
    rintro ⟨infos, streams⟩
    refine Triple.bind (Q := fun _ => Touched s₀) (Triple.modify ?_) fun _ =>
      storePut_keeps (Touched.blind s₀) _ _ _
    rintro s ⟨hinfos, d, n, infos₂, -, rfl⟩
    exact ⟨d, n, infos, Eq.trans hinfos hinfos₁, rfl⟩

/-- **What a flush does to an open pack.**  The id is taken first; then nothing
throws but the calls on the store and the sealing of the members. -/
theorem finalizePack_cases {s : Session δ} (hopen : s.pack.rollingHash ≠ none)
    (progress : FileTransferProgressFunction) :
    ∃ d n infos, SameMembers infos s.pack.fileInfos ∧
      (finalizePack E progress s = ok () { s with
          store := d
          randomUsed := n
          snapshot := addAll s.snapshot (s.pack.nextId E.C) infos
          pack := ⟨(s.pack.hmac.final E.C).2, [], [], none⟩ } ∨
        ∃ e, finalizePack E progress s = error e { s with
          store := d
          randomUsed := n
          pack := { s.pack with hmac := (s.pack.hmac.final E.C).2, fileInfos := infos } }) := by
  have htouch := storePack_touches (E := E) (s.pack.nextId E.C) (s.identified E.C) _ (Touched.refl _)
  cases hstore : storePack E (s.pack.nextId E.C) (s.identified E.C) with
  | error e s' =>
    rw [hstore] at htouch
    obtain ⟨d, n, infos, hinfos, rfl⟩ := htouch
    exact ⟨d, n, infos, hinfos, Or.inr ⟨e, finalizePack_of_error hopen hstore progress⟩⟩
  | ok _ s' =>
    rw [hstore] at htouch
    obtain ⟨d, n, infos, hinfos, rfl⟩ := htouch
    exact ⟨d, n, infos, hinfos, Or.inl (finalizePack_of_ok hopen hstore progress)⟩

/-- A flush that throws: the snapshot and the members are as they were, the
context is finalised once more. -/
theorem finalizePack_error {s s₁ : Session δ} {e : Fault} {progress : FileTransferProgressFunction}
    (h : finalizePack E progress s = error e s₁) :
    s.pack.rollingHash ≠ none ∧ ∃ d n infos, SameMembers infos s.pack.fileInfos ∧
      s₁ = { s with
        store := d
        randomUsed := n
        pack := { s.pack with hmac := (s.pack.hmac.final E.C).2, fileInfos := infos } } := by
  by_cases hopen : s.pack.rollingHash = none
  · rw [finalizePack_closed hopen] at h
    exact absurd h (by simp)
  · refine ⟨hopen, ?_⟩
    obtain ⟨d, n, infos, hinfos, hrun | ⟨e', hrun⟩⟩ := finalizePack_cases (E := E) hopen progress
    · rw [hrun] at h
      exact absurd h (by simp)
    · rw [hrun] at h
      obtain ⟨-, rfl⟩ := EStateM.Result.error.inj h
      exact ⟨d, n, infos, hinfos, rfl⟩

/-- A flush that returns: the members are recorded under the id that it took. -/
theorem finalizePack_records {s v : Session δ} {progress : FileTransferProgressFunction}
    (hopen : s.pack.rollingHash ≠ none) (h : finalizePack E progress s = ok () v) :
    ∃ infos, SameMembers infos s.pack.fileInfos ∧
      v.snapshot = addAll s.snapshot (s.pack.nextId E.C) infos := by
  obtain ⟨d, n, infos, hinfos, hrun | ⟨e, hrun⟩⟩ := finalizePack_cases (E := E) hopen progress
  · rw [hrun] at h
    obtain ⟨-, rfl⟩ := EStateM.Result.ok.inj h
    exact ⟨infos, hinfos, rfl⟩
  · rw [hrun] at h
    exact absurd h (by simp)

/-! ### Every run -/

theorem finalizePack_keepsPack (progress : FileTransferProgressFunction) :
    Keeps (PackCollected (δ := δ) keys) (finalizePack E progress) := by
  rintro s ⟨rfl, hs⟩
  by_cases hopen : s.pack.rollingHash = none
  · rw [finalizePack_closed hopen]
    exact ⟨rfl, hs⟩
  · obtain ⟨d, n, infos, hinfos, hrun | ⟨e, hrun⟩⟩ := finalizePack_cases (E := E) hopen progress
    · rw [hrun]
      exact ⟨rfl, rfl, fun _ => rfl, fun h => absurd rfl h, fun h => absurd rfl h,
        fun h => absurd rfl h⟩
    · -- the pack stays open and what its context was fed stays, in one part more
      rw [hrun]
      refine ⟨rfl, hinfos.length_eq.trans hs.lengths, fun h => absurd h hopen, hs.key,
        fun _ => List.cons_ne_nil _ _, fun _ => ?_⟩
      show (s.pack.hmac.final E.C).2.accumulated = _
      rw [HmacCtx.final_accumulated]
      exact hs.data hopen

theorem compressEncryptAndUploadBlock_keepsPack (t : CompressionType) (objectId : ObjectID)
    (block : Bytes) (progress : ProgressFunction) :
    Keeps (PackCollected (δ := δ) keys)
      (compressEncryptAndUploadBlock E t objectId block progress) := by
  refine (keeps_ofExcept _).bind fun name => ?_
  refine (storeExist_keeps (packCollected_blind keys) _).bind fun found => ?_
  cases found with
  | true =>
    by_cases hcancel : progress block.length block.length = false
    · simp only [if_true, if_pos hcancel]
      exact Keeps.throw _
    · simp only [if_true, if_neg hcancel]
      exact Keeps.pure _
  | false =>
    exact (sealMemory_keeps (packCollected_blind keys) _ _).bind fun encryptedStream =>
      storePut_keeps (packCollected_blind keys) _ _ _

theorem packCollected_partsKeep : PartsKeep E (PackCollected (δ := δ) keys) where
  block {s} _ t block progress :=
    compressEncryptAndUploadBlock_keepsPack t (blockId E.C s.keys t block) block progress
  snapshot hs _ := hs
  packFile := packFile_keepsPack
  finalizePack := finalizePack_keepsPack
  newSession hs := ⟨hs.1, PackUploadState.new_collected keys⟩

/-- **The pack state of every run** that starts with a new one, on every store. -/
theorem runUploads_collected (ops : List UploadOp) {s₀ s : Session δ} (hnew : s₀.pack = .new)
    (h : runUploads E ops s₀ = ok () s) : s.keys = s₀.keys ∧ s.pack.Collected s.keys := by
  have hstart : PackCollected s₀.keys s₀ :=
    ⟨rfl, by rw [hnew]; exact PackUploadState.new_collected _⟩
  have hrun := packCollected_partsKeep (E := E) |>.calls ops s₀ hstart
  rw [h] at hrun
  exact ⟨hrun.1, hrun.1.symm ▸ hrun.2⟩

/-! ### Flushing again -/

/-- **A failed flush cannot be retried.**  In every run, a flush that throws
leaves the snapshot and the members as they were.  But its id is lost: whatever
files are added in between, the next flush does not take the id of the members,
which it would have taken without the failure, and records them under another. -/
theorem finalizePack_retry (hC : E.C.ConsumesContext) (ops : List UploadOp) {s₀ s s₁ : Session δ}
    (hnew : s₀.pack = .new) (hrun : runUploads E ops s₀ = ok () s) {e : Fault}
    {progress : FileTransferProgressFunction} (hfail : finalizePack E progress s = error e s₁) :
    s₁.snapshot = s.snapshot ∧
      ∀ files, ∃ u₁ u, packAll E files s₁ = ok () u₁ ∧ packAll E files s = ok () u ∧
        u₁.snapshot = s.snapshot ∧ u₁.pack.packData = u.pack.packData ∧
        SameMembers u₁.pack.fileInfos u.pack.fileInfos ∧
        (s.pack.hmac.fed.length = 1 → u.pack.nextId E.C = packId E.C s.keys u.pack.packData) ∧
        u₁.pack.nextId E.C ≠ packId E.C s.keys u.pack.packData ∧
        ∀ progress' v₁, finalizePack E progress' u₁ = ok () v₁ →
          ∃ infos, SameMembers infos u.pack.fileInfos ∧
            v₁.snapshot = addAll s.snapshot (u₁.pack.nextId E.C) infos := by
  obtain ⟨-, hs⟩ := runUploads_collected ops hnew hrun
  obtain ⟨hopen, d, n, infos, hinfos, rfl⟩ := finalizePack_error hfail
  have hs₁ := finalizePack_keepsPack (E := E) progress s (show PackCollected s.keys s from ⟨rfl, hs⟩)
  rw [hfail] at hs₁
  refine ⟨rfl, fun files => ?_⟩
  -- the files are added as if nothing had happened, and after the failure
  obtain ⟨p, m, hadd, hp, hpopen, hpinfos, hpdata, hpfed⟩ := packAll_collected (E := E) files hs hopen
  obtain ⟨p₁, m₁, hadd₁, hp₁, hpopen₁, hpinfos₁, hpdata₁, hpfed₁⟩ :=
    packAll_collected (E := E) (s := { s with
      store := d
      randomUsed := n
      pack := { s.pack with hmac := (s.pack.hmac.final E.C).2, fileInfos := infos } })
      files hs₁.2 hopen
  have hdata : p₁.packData = p.packData := hpdata₁.trans hpdata.symm
  have hmembers : SameMembers p₁.fileInfos p.fileInfos :=
    hpinfos₁.trans ((hinfos.append rfl).trans hpinfos.symm)
  refine ⟨_, _, hadd₁, hadd, rfl, hdata, hmembers, fun hone => hp.nextId_fresh hpopen (by rw [hpfed, hone]),
    ?_, fun progress' v₁ hv₁ => ?_⟩
  · -- the context of the failed flush has one part more
    have hpos : 0 < s.pack.hmac.fed.length := List.length_pos_iff.mpr (hs.fed hopen)
    have htwo : 2 ≤ p₁.hmac.fed.length := by
      rw [hpfed₁]
      show 2 ≤ (s.pack.hmac.final E.C).2.fed.length
      rw [HmacCtx.final_length]
      omega
    rw [← hdata]
    exact hp₁.nextId_stale hpopen₁ hC htwo
  · obtain ⟨infos', hinfos', hsnap⟩ := finalizePack_records hpopen₁ hv₁
    exact ⟨infos', Eq.trans hinfos' hmembers, hsnap⟩

/-- On a store that is a map a flush returns. -/
theorem finalizePack_returns (M : StoreModel δ) (hC : E.C.Lawful) {s : Session δ}
    (hs : M.Ok s.store) (hlen : s.pack.fileInfos.length = s.pack.packData.length)
    (hopen : s.pack.rollingHash ≠ none) (progress : FileTransferProgressFunction) :
    ∃ v, finalizePack E progress s = ok () v := by
  obtain ⟨d, n, infos, hstore, -⟩ := storePack_run M (E := E) hC (s := s.identified E.C) hs hlen
    (s.pack.nextId E.C)
  exact ⟨_, finalizePack_of_ok hopen hstore progress⟩

/-- A small file that the rolling hash does not end a pack with joins it, and the pack
stays open. -/
theorem uploadSmall_packed {f : LocalFile} (hsmall : f.isSmall E) (destPath : Bytes)
    {progress : FileTransferProgressFunction} (hprog : progress 0 1 0 0 = true) {s : Session δ}
    (hs : s.pack.Collected s.keys)
    (hstay : ∀ r, (s.pack.open E.C s.keys).rollingHash = some r → (rollAll r f.content).1 = false) :
    ∃ p, uploadFilePacked E destPath f.info (.openRead f.content) progress s =
        ok () { s with pack := p, uninitUsed := s.uninitUsed + 4 } ∧
      p.Collected s.keys ∧ p.rollingHash ≠ none ∧
      p.fileInfos = s.pack.fileInfos ++ [packInfo E.C (Path.normalizedPath destPath)
        f.info f.content s.pack.packData.length
        (.ofNat (leNat (bytesFrom E.uninit s.uninitUsed 4).toList))] ∧
      p.packData = s.pack.packData ++ [f.content] ∧
      p.hmac.fed.length = (if s.pack.rollingHash.isSome then s.pack.hmac.fed.length else 1) ∧
      ∀ r, (s.pack.open E.C s.keys).rollingHash = some r →
        p.rollingHash = some (rollAll r f.content).2 := by
  obtain ⟨writePack, p, hrun, hp, hopen, hinfos, hdata, hfed, hroll⟩ :=
    packFile_collected (E := E) (Path.normalizedPath destPath) f.info f.content hs
  obtain ⟨r, hr, -⟩ := hs.open E.C
  have hwrite : writePack = false := (hroll r hr).1.trans (hstay r hr)
  refine ⟨p, ?_, hp, hopen, hinfos, hdata, hfed, fun r hr => (hroll r hr).2⟩
  refine (uploadFilePacked_small destPath hsmall progress s).trans (run_step hrun ?_)
  rw [hwrite, if_neg Bool.false_ne_true, if_neg (by rw [hprog]; simp)]
  rfl

end Commands

section Broken

variable {E : Env} {s : Session FileDataStore}

/-- A flush whose first write fails. -/
theorem storePack_broken (hC : E.C.Lawful) {io : List ChunkEvent}
    (hio : s.store.io = .writeFail 0 :: io)
    (hlen : s.pack.fileInfos.length = s.pack.packData.length) (hmembers : s.pack.packData ≠ [])
    (objectId : ObjectID) (hnone : s.store.contents (objectPath (objectName objectId)) = none) :
    ∃ e s₁, storePack E objectId s = error e s₁ ∧ s₁.store.io = io := by
  have hexist := storeExist_file (objectName objectId) s
  rw [hnone] at hexist
  obtain ⟨objects, streams, n, hlayout, hholds, hsealed⟩ := layoutPack_run (E := E) hC
    s.pack.fileInfos s.pack.packData 0 s hlen
  have hwhole : Whole E.C s.keys (objectName (packId E.C s.keys s.pack.packData)) objects.flatten :=
    Or.inr ⟨s.pack.fileInfos, s.pack.packData, objects, rfl, hmembers, hlen, hsealed, rfl⟩
  obtain ⟨e, d, out', hput, hd, -⟩ := FileDataStore.put_writeFail hio
    (isSep_objectPath (objectName objectId)) (MultiInputStream.new_holds hholds)
    (hwhole.ne_nil hC) DefaultProgressFunction
  refine ⟨e, { s with
    store := d
    randomUsed := n
    pack := { s.pack with fileInfos := laidOut s.pack.fileInfos objects 0 } },
    run_step (objectName_run objectId s) (run_step hexist (run_step rfl (run_step hlayout
      (run_step rfl ?_)))), hd⟩
  simp only [storePut, DataStore.put, hput]

end Broken

/-- A library whose consumed context yields something else than the MAC. -/
def consumingCrypto : Crypto := { emptyPictureTables.crypto with
  staleHmac := fun key parts =>
    (emptyPictureTables.crypto.hmacSha256 key parts.reverse.flatten).map (· + 1) }

theorem consumingCrypto_lawful : consumingCrypto.Lawful :=
  ⟨emptyPictureTables.crypto_lawful.aes_lawful, emptyPictureTables.crypto_lawful.aes_size,
    emptyPictureTables.crypto_lawful.pbkdf2_length, emptyPictureTables.crypto_lawful.lzma_inverse⟩

theorem consumingCrypto_consumes : consumingCrypto.ConsumesContext := by
  intro key parts _ heq
  have hhead := congrArg (fun v : Digest 32 => v.head) heq
  rw [show (consumingCrypto.staleHmac key parts).head =
    (consumingCrypto.hmacSha256 key parts.reverse.flatten).head + 1 from List.Vector.head_map _ _]
    at hhead
  have hnat := congrArg UInt8.toNat hhead
  rw [UInt8.toNat_add, show UInt8.toNat 1 = 1 from rfl] at hnat
  omega

/-- The upload of an empty picture into a pack. -/
def pictureUploadPacked : UploadOp :=
  .uploadPacked (ascii "x.png") emptyPicture.info (.openRead []) DefaultFileTransferProgressFunction

/-- The empty picture is pending, and the disk will fail once. -/
theorem pictureUploadPacked_broken :
    ∃ s, runUploads (zeroEnv consumingCrypto) [pictureUploadPacked] brokenSession = ok () s ∧
      s.pack.hmac.fed.length = 1 ∧ s.keys = zeroKeys ∧ s.pack.packData = [[]] ∧
      ∃ e s₁, finalizePack (zeroEnv consumingCrypto) DefaultFileTransferProgressFunction s =
        error e s₁ ∧ s₁.store.Ok := by
  obtain ⟨p, hrun, hp, hopen, -, hdata, hfed, -⟩ := uploadSmall_packed (E := zeroEnv consumingCrypto)
    (f := emptyPicture) (s := brokenSession) (emptyPicture_small _) (ascii "x.png")
    (show DefaultFileTransferProgressFunction 0 1 0 0 = true from rfl)
    (PackUploadState.new_collected _) fun r _ => rfl
  have hdata' : p.packData = [[]] := hdata
  have hne : p.packData ≠ [] := by
    rw [hdata']
    exact List.cons_ne_nil _ _
  refine ⟨_, run_step (attempt_ok hrun) rfl, hfed, rfl, hdata', ?_⟩
  obtain ⟨e, s₁, hstore, hio⟩ := storePack_broken (E := zeroEnv consumingCrypto)
    (s := Session.identified consumingCrypto
      { brokenSession with pack := p, uninitUsed := brokenSession.uninitUsed + 4 })
    consumingCrypto_lawful
    (show brokenSession.store.io = .writeFail 0 :: [] from rfl) hp.lengths hne
    (p.nextId consumingCrypto) rfl
  have hflush := finalizePack_of_error (E := zeroEnv consumingCrypto)
    (s := { brokenSession with pack := p, uninitUsed := brokenSession.uninitUsed + 4 }) hopen hstore
    DefaultFileTransferProgressFunction
  exact ⟨e, s₁, hflush, fun x hx => absurd (hio ▸ hx) List.not_mem_nil⟩

/-- The picture is recorded under an id that is not the one of its pack. -/
theorem finalizePack_retry_picture :
    ∃ s e s₁, runUploads (zeroEnv consumingCrypto) [pictureUploadPacked] brokenSession = ok () s ∧
      finalizePack (zeroEnv consumingCrypto) DefaultFileTransferProgressFunction s = error e s₁ ∧
      ∃ u₁, packAll (zeroEnv consumingCrypto) [] s₁ = ok () u₁ ∧
        u₁.pack.nextId consumingCrypto ≠ packId consumingCrypto s.keys s.pack.packData := by
  obtain ⟨s, hrun, -, -, -, e, s₁, hfail, -⟩ := pictureUploadPacked_broken
  obtain ⟨-, hretry⟩ := finalizePack_retry (E := zeroEnv consumingCrypto) consumingCrypto_consumes
    [pictureUploadPacked] rfl hrun hfail
  obtain ⟨u₁, u, hadd₁, hadd, -, -, -, -, hid, -⟩ := hretry []
  obtain ⟨-, rfl⟩ := EStateM.Result.ok.inj hadd
  exact ⟨s, e, s₁, hrun, hfail, u₁, hadd₁, hid⟩

/-- **A flush that failed is not made good**: the second flush of the picture
returns, and records it under another id than the first one would have. -/
theorem finalizePack_retry_differs :
    ∃ s e s₁ v₁ id infos,
      runUploads (zeroEnv consumingCrypto) [pictureUploadPacked] brokenSession = ok () s ∧
      finalizePack (zeroEnv consumingCrypto) DefaultFileTransferProgressFunction s = error e s₁ ∧
      finalizePack (zeroEnv consumingCrypto) DefaultFileTransferProgressFunction s₁ = ok () v₁ ∧
      v₁.snapshot = addAll s.snapshot id infos ∧ SameMembers infos s.pack.fileInfos ∧
      s.pack.nextId consumingCrypto = packId consumingCrypto zeroKeys [[]] ∧
      id ≠ packId consumingCrypto zeroKeys [[]] := by
  obtain ⟨s, hrun, hone, hkeys, hdata, e, s₁, hfail, hok⟩ := pictureUploadPacked_broken
  obtain ⟨-, hs⟩ := runUploads_collected _ rfl hrun
  obtain ⟨hopen, d, n, infos, hinfos, hs₁⟩ := finalizePack_error hfail
  have hpack : s₁.pack = ⟨(s.pack.hmac.final consumingCrypto).2, infos, s.pack.packData,
      s.pack.rollingHash⟩ := by rw [hs₁]; rfl
  have hopen₁ : s₁.pack.rollingHash ≠ none := by rwa [hpack]
  -- the second flush finds a disk that works
  obtain ⟨v₁, hv₁⟩ := finalizePack_returns (E := zeroEnv consumingCrypto)
    FileDataStore.storeModel consumingCrypto_lawful hok
    (by rw [hpack]; exact hinfos.length_eq.trans hs.lengths) hopen₁ DefaultFileTransferProgressFunction
  obtain ⟨infos', hinfos', hsnap⟩ := finalizePack_records hopen₁ hv₁
  -- the two flushes take different ids
  have hfresh := hs.nextId_fresh hopen (C := consumingCrypto) hone
  have hcollected := finalizePack_keepsPack (E := zeroEnv consumingCrypto)
    DefaultFileTransferProgressFunction s (show PackCollected s.keys s from ⟨rfl, hs⟩)
  rw [hfail] at hcollected
  have hstale := hcollected.2.nextId_stale hopen₁ consumingCrypto_consumes
    (by rw [hpack]; show 2 ≤ s.pack.hmac.fed.length + 1; omega)
  have hdata₁ : s₁.pack.packData = s.pack.packData := by rw [hpack]
  rw [hdata₁, hkeys, hdata] at hstale
  rw [hkeys, hdata] at hfresh
  refine ⟨s, e, s₁, v₁, _, infos', hrun, hfail, hv₁, ?_, ?_, hfresh, hstale⟩
  · rw [hsnap, hs₁]
    rfl
  · rw [hpack] at hinfos'
    exact Eq.trans hinfos' hinfos

end Nebula
