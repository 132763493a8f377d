/-
What a restore takes from a store that nobody trusts.

The data store may deliver anything: other objects, old ones, bytes of its own.
`decompressDecryptHMAC` gives back nothing of bytes that do not carry their HMAC,
and so whatever a restore leaves on the disk was deciphered from bytes with a
valid HMAC under the keys of the repository, and so was the snapshot that says
where it belongs.  Main results:

* `decompressDecryptHMAC_ok` — what was accepted, with any fuel;
* `loadSnapshot_opened`, `downloadFile_opened` — snapshots and files;
* `downloadFiles_opened` — everything that a restore writes;
* `initializeCommand_again` — what becomes of the snapshots when a repository is
  initialised again.
-/
import NebulaBackup.Authentication
import NebulaBackup.CommandRuns

namespace Nebula

open EStateM.Result Hoare

/-! ### Streams that returned -/

section Streams

variable {σ ω : Type} [InputStream σ] [OutputStream ω] {R : σ → Bytes → Prop} {W : ω → Bytes → Prop}

/-- What was read when the reading ended. -/
theorem readAll_ok (hR : Source R) {chunk : ℕ} (hchunk : 0 < chunk) : ∀ (k : ℕ) {s s' : σ}
    {r acc d : Bytes}, R s r → readAll chunk k s acc = ok d s' → d = acc ++ r ∧ R s' [] := by
  intro k
  induction k with
  | zero =>
    intro s s' r acc d _ h
    cases h
  | succ k ih =>
    intro s s' r acc d hs h
    obtain ⟨s₁, hread, hs₁⟩ := hR.read_ok hs chunk
    simp only [readAll, hread] at h
    by_cases hnil : r.take chunk = []
    · rw [if_pos hnil] at h
      obtain ⟨rfl, rfl⟩ := EStateM.Result.ok.inj h
      have hr : r = [] := (List.take_eq_nil_iff.mp hnil).resolve_left (by omega)
      rw [hr, List.drop_nil] at hs₁
      rw [hr]
      exact ⟨(List.append_nil acc).symm, hs₁⟩
    · rw [if_neg hnil] at h
      obtain ⟨hd, hend⟩ := ih hs₁ h
      rw [List.append_assoc, List.take_append_drop] at hd
      exact ⟨hd, hend⟩

theorem readExpected_ok (hR : Source R) {s s' : σ} {r d : Bytes} (hs : R s r) {n : ℕ}
    (h : readExpected s n = ok d s') : d = r.take n ∧ R s' (r.drop n) := by
  obtain ⟨s₁, hread, hs₁⟩ := hR.read_ok hs n
  simp only [readExpected, hread] at h
  split at h
  · cases h
  · obtain ⟨rfl, rfl⟩ := EStateM.Result.ok.inj h
    exact ⟨rfl, hs₁⟩

/-- What a copy appends does not depend on where it is written. -/
theorem copyTo_ok (hW : Sink W) : ∀ (k : ℕ) {s s' : σ} {o o' : ω} {w : Bytes}, W o w →
    copyTo k s o = ok () (s', o') → ∃ d, W o' (w ++ d) ∧
      ∀ v, copyTo k s (⟨v⟩ : FileOutputStream) = ok () (s', ⟨v ++ d⟩) := by
  intro k
  induction k with
  | zero =>
    intro s s' o o' w _ h
    cases h
  | succ k ih =>
    intro s s' o o' w ho h
    cases hread : InputStream.read s 16384 with
    | error e s₁ =>
      simp only [copyTo, hread] at h
      cases h
    | ok chunk s₁ =>
      simp only [copyTo, hread] at h ⊢
      by_cases hnil : chunk = []
      · rw [if_pos hnil] at h
        obtain ⟨rfl, rfl⟩ := Prod.mk.inj (EStateM.Result.ok.inj h).2
        refine ⟨[], by rwa [List.append_nil], fun v => ?_⟩
        rw [if_pos hnil, List.append_nil]
      · rw [if_neg hnil] at h
        obtain ⟨o₁, hwrite, ho₁⟩ := hW.write_ok ho chunk
        simp only [hwrite] at h
        obtain ⟨d, hd, hcopy⟩ := ih ho₁ h
        refine ⟨chunk ++ d, by rwa [← List.append_assoc], fun v => ?_⟩
        rw [if_neg hnil, ← List.append_assoc]
        exact hcopy (v ++ chunk)

/-- **What was accepted** carries its HMAC, and what came out was deciphered from
the bytes after it. -/
theorem decompressDecryptHMAC_ok {c : Bytes} (hR : Rewinds c R) {s : σ} (hs : R s c) {C : Crypto}
    {fuel : ℕ} {t : Option CompressionType} {cipher : Bytes → BlockCipher} {encKey macKey : Bytes}
    {o : ω} {r : σ × ω}
    (h : decompressDecryptHMAC C fuel t cipher encKey macKey s o = ok () r) :
    Authentic C macKey c ∧ ∃ i, decompressDecrypt C fuel t encKey
      (MemoryInputStream.new (c.drop SHA256_DIGEST_LENGTH)) o = ok () (i, r.2) := by
  rw [decompressDecryptHMAC] at h
  split at h
  · cases h
  · split at h
    · cases h
    · rename_i hmac1 s₁ hexp
      obtain ⟨rfl, hs₁⟩ := readExpected_ok hR.toSource hs hexp
      split at h
      · cases h
      · rename_i fed s₂ hall
        obtain ⟨rfl, hs₂⟩ := readAll_ok hR.toSource (show 0 < 8192 by omega) fuel hs₁ hall
        rw [List.nil_append] at h
        split at h
        · cases h
        · rename_i hsame
          obtain ⟨s₃, hrew, hs₃⟩ := hR.rewind_ok hs₂
          simp only [hrew] at h
          split at h
          · cases h
          · rename_i hmac s₄ hexp'
            obtain ⟨-, hs₄⟩ := readExpected_ok hR.toSource hs₃ hexp'
            refine ⟨not_not.mp hsame, ?_⟩
            -- the second pass sees the bytes that were authenticated
            have hpass := decompressDecrypt_alike
              (hR.toSource.alike (RewindableStream.source (c.drop SHA256_DIGEST_LENGTH)))
              C fuel t encKey ⟨_, hs₄, MemoryInputStream.new_holds _⟩ o
            rw [h] at hpass
            cases hmem : decompressDecrypt C fuel t encKey
                (MemoryInputStream.new (c.drop SHA256_DIGEST_LENGTH)) o with
            | error e r' =>
              rw [hmem] at hpass
              exact absurd hpass (by simp [outcome])
            | ok u r' =>
              rw [hmem] at hpass
              exact ⟨r'.1, by rw [(Prod.mk.inj hpass).2]⟩

/-- What is deciphered from the bytes after an HMAC, as `decompressDecrypt` writes
it. -/
def plaintext (C : Crypto) (fuel : ℕ) (t : Option CompressionType) (encKey body : Bytes) :
    Option Bytes :=
  match decompressDecrypt C fuel t encKey (MemoryInputStream.new body) (⟨[]⟩ : FileOutputStream) with
  | ok _ (_, o) => some o.data
  | error _ _ => none

/-- The stream is given the plaintext. -/
theorem decompressDecrypt_ok (hW : Sink W) {o o' : ω} {w : Bytes} (ho : W o w) {C : Crypto} {fuel : ℕ}
    {t : Option CompressionType} {encKey body : Bytes} {i : MemoryInputStream}
    (h : decompressDecrypt C fuel t encKey (MemoryInputStream.new body) o = ok () (i, o')) :
    ∃ d, plaintext C fuel t encKey body = some d ∧ W o' (w ++ d) := by
  rw [plaintext]
  cases t with
  | none => cases h
  | some t =>
    rw [decompressDecrypt] at h ⊢
    cases hnew : DecryptedInputStream.new fuel (MemoryInputStream.new body) (C.cipher encKey) with
    | error e d =>
      simp only [hnew] at h
      cases h
    | ok u d =>
      simp only [hnew] at h ⊢
      cases t with
      | NoCompression =>
        cases hcopy : copyTo fuel d o with
        | error e r =>
          simp only [hcopy] at h
          cases h
        | ok v r =>
          simp only [hcopy] at h
          obtain ⟨-, rfl⟩ := Prod.mk.inj (EStateM.Result.ok.inj h).2
          obtain ⟨plain, hplain, hsame⟩ := copyTo_ok hW fuel ho hcopy
          simp only [hsame []]
          exact ⟨plain, rfl, hplain⟩
      | LZMA2 =>
        cases hlzma : LZMAInputStream.new C.lzma d with
        | error e d' =>
          simp only [hlzma] at h
          cases h
        | ok dec d' =>
          simp only [hlzma] at h ⊢
          cases hcopy : copyTo fuel (⟨d', dec, [], fuel⟩ : LZMAInputStream C.lzma _) o with
          | error e r =>
            simp only [hcopy] at h
            cases h
          | ok v r =>
            simp only [hcopy] at h
            obtain ⟨-, rfl⟩ := Prod.mk.inj (EStateM.Result.ok.inj h).2
            obtain ⟨plain, hplain, hsame⟩ := copyTo_ok hW fuel ho hcopy
            simp only [hsame []]
            exact ⟨plain, rfl, hplain⟩

end Streams

/-! ### Objects -/

/-- The bytes were accepted: they carry their HMAC under the keys, and `d` is what
they were deciphered to. -/
def Opened (E : Env) (fuel : ℕ) (keys : RepositoryKeys) (t : Option CompressionType)
    (c d : Bytes) : Prop :=
  Authentic E.C keys.mMacKey.toList c ∧
    plaintext E.C fuel t keys.mEncKey.toList (c.drop SHA256_DIGEST_LENGTH) = some d

/-- A run of fetches, each from the store that the one before has left: the paths
and what was delivered for them. -/
inductive Fetches {δ : Type} [DataStore δ] : δ → List (Bytes × Bytes) → δ → Prop
  | nil {d : δ} : Fetches d [] d
  | cons {d d' d'' : δ} {path : Bytes} {progress : ProgressFunction} {tmp : TempFileStream}
      {fetched : List (Bytes × Bytes)}
      (get : DataStore.get d path TempFileStream.new progress = ok () (d', tmp))
      (rest : Fetches d' fetched d'') : Fetches d ((path, tmp.content) :: fetched) d''

theorem Fetches.trans {δ : Type} [DataStore δ] {d d' d'' : δ} {fetched more : List (Bytes × Bytes)}
    (h : Fetches d fetched d') (h' : Fetches d' more d'') : Fetches d (fetched ++ more) d'' := by
  induction h with
  | nil => exact h'
  | cons get _ ih => exact .cons get (ih h')

/-- The bytes of an object that an entry refers to. -/
def memberOf (fe : FileEntry) (object : Bytes) : Bytes :=
  if 0 < fe.packLength.toNat then (object.drop fe.offset.toNat).take fe.packLength.toNat else object

section Objects

variable {δ ω : Type} [OutputStream ω] {E : Env} {W : ω → Bytes → Prop} {fuel : ℕ}

theorem Rewinds.opened {σ : Type} [InputStream σ] {R : σ → Bytes → Prop} {c : Bytes} (hR : Rewinds c R)
    {i : σ} (hi : R i c) (hW : Sink W) {o : ω} {w : Bytes} (ho : W o w) {keys : RepositoryKeys}
    {t : Option CompressionType} {cipher : Bytes → BlockCipher} {r : σ × ω}
    (h : decompressDecryptHMAC E.C fuel t cipher keys.mEncKey.toList keys.mMacKey.toList i o =
      ok () r) : ∃ d, Opened E fuel keys t c d ∧ W r.2 (w ++ d) := by
  obtain ⟨hauth, i', hpass⟩ := decompressDecryptHMAC_ok hR hi h
  obtain ⟨d, hplain, hd⟩ := decompressDecrypt_ok hW ho hpass
  exact ⟨d, ⟨hauth, hplain⟩, hd⟩

/-- Only the store changes when something is fetched. -/
theorem storeGet_fetches [DataStore δ] {path : Bytes} {progress : ProgressFunction} {s s' : Session δ}
    {tmp : TempFileStream} (h : storeGet path TempFileStream.new progress s = ok tmp s') :
    s'.keys = s.keys ∧ Fetches s.store [(path, tmp.content)] s'.store := by
  rw [storeGet] at h
  cases hget : DataStore.get s.store path TempFileStream.new progress with
  | error e r =>
    rw [hget] at h
    cases h
  | ok u r =>
    rw [hget] at h
    obtain ⟨rfl, rfl⟩ := EStateM.Result.ok.inj h
    exact ⟨rfl, .cons hget .nil⟩

/-- The body of the loop of `downloadFile`. -/
theorem decompressObject_opened (hW : Sink W) {fe : FileEntry} {i : TempInputStream} {object : Bytes}
    (hi : Holds i object) {o o' : ω} {w : Bytes} (ho : W o w) {s s' : Session δ}
    (h : decompressObject E fuel fe i o s = ok o' s') :
    s' = s ∧ ∃ d, Opened E fuel s.keys (CompressionType.ofByte fe.compression) (memberOf fe object) d ∧
      W o' (w ++ d) := by
  obtain ⟨t, s₁, hget, h⟩ := of_run_ok h
  obtain ⟨rfl, rfl⟩ := EStateM.Result.ok.inj hget
  rw [memberOf]
  by_cases hpack : 0 < fe.packLength.toNat
  · rw [if_pos hpack] at h ⊢
    obtain ⟨range, hnew, hrange⟩ := InputRangeStream.new_within hi fe.offset.toNat fe.packLength.toNat
    cases hdec : decompressDecryptHMAC E.C fuel (CompressionType.ofByte fe.compression) E.C.cipher
        s.keys.mEncKey.toList s.keys.mMacKey.toList range o with
    | error e r =>
      simp only [hnew, hdec] at h
      cases h
    | ok u r =>
      simp only [hnew, hdec] at h
      obtain ⟨rfl, rfl⟩ := EStateM.Result.ok.inj h
      exact ⟨rfl, (InputRangeStream.rewinds object fe.offset.toNat fe.packLength.toNat).opened hrange hW ho
        hdec⟩
  · rw [if_neg hpack] at h ⊢
    cases hdec : decompressDecryptHMAC E.C fuel (CompressionType.ofByte fe.compression) E.C.cipher
        s.keys.mEncKey.toList s.keys.mMacKey.toList i o with
    | error e r =>
      simp only [hdec] at h
      cases h
    | ok u r =>
      simp only [hdec] at h
      obtain ⟨rfl, rfl⟩ := EStateM.Result.ok.inj h
      exact ⟨rfl, (RewindableStream.rewinds object).opened hi hW ho hdec⟩

end Objects

/-! ### Files and snapshots -/

/-- A part of a file: the path of its object, what was fetched from there and what
came out of it. -/
structure FetchedPart where
  path : Bytes
  object : Bytes
  plain : Bytes

/-- What was fetched for some parts. -/
def FetchedPart.fetches (parts : List FetchedPart) : List (Bytes × Bytes) :=
  parts.map fun part => (part.path, part.object)

/-- The part was fetched from the path of the id and opened there. -/
def PartOpened (E : Env) (fuel : ℕ) (keys : RepositoryKeys) (fe : FileEntry) (objectId : ObjectID)
    (part : FetchedPart) : Prop :=
  ∃ name, objectIdToString objectId = .ok name ∧ part.path = objectPath name ∧
    Opened E fuel keys (CompressionType.ofByte fe.compression) (memberOf fe part.object) part.plain

/-- The file consists of such parts, one for each object of its entry in their
order, and nothing else was fetched for it; without an entry it is empty. -/
def FileOpened (E : Env) (fuel : ℕ) (keys : RepositoryKeys) (snapshot : Snapshot) (srcPath : Bytes)
    (fetched : List (Bytes × Bytes)) (content : Bytes) : Prop :=
  snapshot.getFileEntry srcPath = none ∧ fetched = [] ∧ content = [] ∨
    ∃ fe objectIds parts, snapshot.getFileEntry srcPath = some fe ∧
      snapshot.indexToObjectID (toInt fe.objectIdIndex) = .ok objectIds ∧
      List.Forall₂ (PartOpened E fuel keys fe) (objectIds.take fe.objectCount.toNat) parts ∧
      fetched = FetchedPart.fetches parts ∧ content = (parts.map FetchedPart.plain).flatten

/-- The snapshot is what `load` makes of the bytes that were opened from those that
were fetched. -/
def SnapshotOpened (E : Env) (fuel : ℕ) (keys : RepositoryKeys) (object : Bytes)
    (snapshot : Snapshot) : Prop :=
  ∃ plain, Opened E fuel keys (some .LZMA2) object plain ∧
    ∃ input i : TempInputStream, Holds input plain ∧ Snapshot.load .new input = ok snapshot i

section Files

variable {δ ω : Type} [DataStore δ] [OutputStream ω] {E : Env} {W : ω → Bytes → Prop} {fuel : ℕ}

/-- **The loop of `downloadFile`**, by induction on the objects that are left. -/
theorem downloadLoop_opened (hW : Sink W) {fe : FileEntry} {progress : FileTransferProgressFunction} :
    ∀ (n i : ℕ) (objectIds : List ObjectID) {o o' : ω} {w : Bytes} {s s' : Session δ}, W o w →
      downloadLoop E fuel fe progress n i objectIds o s = ok o' s' →
      s'.keys = s.keys ∧ ∃ parts,
        List.Forall₂ (PartOpened E fuel s.keys fe) (objectIds.take n) parts ∧
        Fetches s.store (FetchedPart.fetches parts) s'.store ∧
        W o' (w ++ (parts.map FetchedPart.plain).flatten) := by
  intro n
  induction n with
  | zero =>
    intro i objectIds o o' w s s' ho h
    obtain ⟨rfl, rfl⟩ := EStateM.Result.ok.inj h
    exact ⟨rfl, [], .nil, .nil, by rwa [List.map_nil, List.flatten_nil, List.append_nil]⟩
  | succ n ih =>
    intro i objectIds o o' w s s' ho h
    cases objectIds with
    | nil => cases h
    | cons objectId objectIds =>
      obtain ⟨name, s₁, hname, hnext⟩ := of_run_ok h
      obtain ⟨tmp, s₂, hget, hafter⟩ := of_run_ok hnext
      obtain ⟨hid, rfl⟩ := of_ofExcept_ok hname
      obtain ⟨hkeys, hfetch⟩ := storeGet_fetches hget
      cases htmp : tmp.inputStream with
      | none =>
        simp only [htmp] at hafter
        cases hafter
      | some stream =>
        simp only [htmp] at hafter
        obtain ⟨o₁, s₃, hobject, hrest⟩ := of_run_ok hafter
        obtain ⟨rfl, d, hopened, hd⟩ := decompressObject_opened hW (TempFileStream.holds_content htmp) ho
          hobject
        obtain ⟨hkeys', parts, hparts, hfetches, hend⟩ := ih (i + 1) objectIds hd hrest
        rw [hkeys] at hopened hkeys' hparts
        refine ⟨hkeys', ⟨objectPath name, tmp.content, d⟩ :: parts, .cons ⟨name, hid, rfl, hopened⟩ hparts,
          hfetch.trans hfetches, ?_⟩
        rwa [List.map_cons, List.flatten_cons, ← List.append_assoc]

/-- **A file that was downloaded.** -/
theorem downloadFile_opened (hW : Sink W) {snapshot : Snapshot} {srcPath : Bytes}
    {progress : FileTransferProgressFunction} {o o' : ω} {w : Bytes} (ho : W o w) {found : Bool}
    {s s' : Session δ}
    (h : downloadFile E fuel snapshot srcPath o progress s = ok (found, o') s') :
    s'.keys = s.keys ∧ ∃ fetched content, Fetches s.store fetched s'.store ∧
      FileOpened E fuel s.keys snapshot srcPath fetched content ∧ W o' (w ++ content) := by
  rw [downloadFile] at h
  cases hfe : snapshot.getFileEntry srcPath with
  | none =>
    rw [hfe] at h
    obtain ⟨hpair, rfl⟩ := EStateM.Result.ok.inj h
    obtain ⟨-, rfl⟩ := Prod.mk.inj hpair
    exact ⟨rfl, [], [], .nil, Or.inl ⟨hfe, rfl, rfl⟩, by rwa [List.append_nil]⟩
  | some fe =>
    rw [hfe] at h
    obtain ⟨objectIds, s₁, hindex, hafter⟩ := of_run_ok h
    obtain ⟨o₁, s₂, hloop, hend⟩ := of_run_ok hafter
    obtain ⟨hids, rfl⟩ := of_ofExcept_ok hindex
    obtain ⟨hpair, rfl⟩ := EStateM.Result.ok.inj hend
    obtain ⟨-, rfl⟩ := Prod.mk.inj hpair
    obtain ⟨hkeys, parts, hparts, hfetches, ho₁⟩ := downloadLoop_opened hW _ 0 objectIds ho hloop
    exact ⟨hkeys, _, _, hfetches, Or.inr ⟨fe, objectIds, parts, hfe, hids, hparts, rfl, rfl⟩, ho₁⟩

/-- **A snapshot that was loaded.** -/
theorem loadSnapshot_opened {name : Bytes} {progress : ProgressFunction} {snapshot : Snapshot}
    {s s' : Session δ} (h : loadSnapshot E fuel name progress s = ok snapshot s') :
    s'.keys = s.keys ∧ ∃ object, Fetches s.store [(snapshotPath name, object)] s'.store ∧
      SnapshotOpened E fuel s.keys object snapshot := by
  obtain ⟨tmp, stream, r, input, i, hget, htmp, hdec, hinput, hload⟩ := loadSnapshot_ok h
  obtain ⟨hkeys, hfetch⟩ := storeGet_fetches hget
  obtain ⟨plain, hopened, hplain⟩ := (RewindableStream.rewinds tmp.content).opened
    (TempFileStream.holds_content htmp) TempFileStream.sink TempFileStream.new_written hdec
  rw [hkeys] at hopened
  rw [List.nil_append] at hplain
  have hholds := TempFileStream.holds_content hinput
  rw [hplain.content_eq] at hholds
  exact ⟨hkeys, tmp.content, hfetch, plain, hopened, input, i, hholds, hload⟩

end Files

/-! ### Restores -/

/-- The file at the path is the opened file of one of the entries, as far as the
disk kept it, and what was fetched for it stands together in what was fetched. -/
def HasOpened (E : Env) (L : LocalEnv) (fuel : ℕ) (keys : RepositoryKeys) (snapshot : Snapshot)
    (destDir : Bytes) (fetched : List (Bytes × Bytes)) (seen : List (Bytes × FileEntry))
    (disk : LocalDisk) (p : Bytes) : Prop :=
  ∃ m ∈ seen, ∃ path name, snapshot.indexToString (toInt m.2.pathIndex) = .ok path ∧
    snapshot.indexToString (toInt m.2.nameIndex) = .ok name ∧
    p = destFilePath L destDir m.1 path name ∧
    ∃ here content, here <:+: fetched ∧
      FileOpened E fuel keys snapshot (path ++ Path.separator :: name) here content ∧
      disk.files.find? p = some (L.flushed p content)

/-- The invariant of a restore that started with `disk₀` and the store `d₀`, after
the entries `seen`. -/
structure OpenedSoFar {δ : Type} [DataStore δ] (E : Env) (L : LocalEnv) (fuel : ℕ)
    (keys : RepositoryKeys) (snapshot : Snapshot) (destDir : Bytes) (d₀ : δ) (disk₀ : LocalDisk)
    (seen : List (Bytes × FileEntry)) (s : Session δ) (disk : LocalDisk) : Prop where
  unlocked : s.keys = keys
  files : ∃ fetched, Fetches d₀ fetched s.store ∧ ∀ p, disk.files.find? p = disk₀.files.find? p ∨
    HasOpened E L fuel keys snapshot destDir fetched seen disk p

section Restore

variable {δ : Type} [DataStore δ] {E : Env} {L : LocalEnv} {options : CliOptions} {fuel : ℕ}
  {snapshot : Snapshot} {destDir : Bytes} {keys : RepositoryKeys}

/-- More entries and fetches, and the same file. -/
theorem HasOpened.mono {fetched : List (Bytes × Bytes)} {seen : List (Bytes × FileEntry)}
    {disk disk' : LocalDisk} {p : Bytes}
    (h : HasOpened E L fuel keys snapshot destDir fetched seen disk p)
    (hsame : disk'.files.find? p = disk.files.find? p) (more : List (Bytes × Bytes))
    (m : Bytes × FileEntry) :
    HasOpened E L fuel keys snapshot destDir (fetched ++ more) (seen ++ [m]) disk' p := by
  obtain ⟨m', hm', path, name, hpath, hname, hp, here, content, hhere, hcontent, hfile⟩ := h
  exact ⟨m', List.mem_append_left _ hm', path, name, hpath, hname, hp, here, content,
    hhere.trans (List.prefix_append fetched more).isInfix, hcontent, hsame.trans hfile⟩

/-- **One entry** keeps the invariant: it writes an opened file or none. -/
theorem OpenedSoFar.entry {d₀ : δ} {disk₀ disk disk' : LocalDisk} {seen : List (Bytes × FileEntry)}
    {srcFile : Bytes} {progress : FileTransferProgressFunction} {fe : FileEntry} {s s' : Session δ}
    (h : OpenedSoFar E L fuel keys snapshot destDir d₀ disk₀ seen s disk)
    (hrun : restoreEntry E L options fuel snapshot destDir srcFile progress fe disk s = ok disk' s') :
    OpenedSoFar E L fuel keys snapshot destDir d₀ disk₀ (seen ++ [(srcFile, fe)]) s' disk' := by
  obtain ⟨hkeys, fetched, hfetched, hfiles⟩ := h
  obtain ⟨path, name, target, may, disk₁, hpath, hname, htarget, hmay, hdone⟩ := restoreEntry_ok hrun
  have hasked := mayWrite_files options target disk
  rw [hmay] at hasked
  -- what is not written is as it was
  have hkept : ∀ more p, disk'.files.find? p = disk.files.find? p →
      disk'.files.find? p = disk₀.files.find? p ∨
        HasOpened E L fuel keys snapshot destDir (fetched ++ more) (seen ++ [(srcFile, fe)]) disk' p := by
    intro more p hsame
    rcases hfiles p with hold | hopened
    · exact Or.inl (hsame.trans hold)
    · exact Or.inr (hopened.mono hsame more _)
  rcases hdone with ⟨-, rfl, rfl⟩ | ⟨-, -, -, found, o, hdownload, hassign, -, -⟩
  · exact ⟨hkeys, fetched ++ [], hfetched.trans .nil, fun p => hkept [] p (by rw [hasked])⟩
  · obtain ⟨hkeys', here, content, hfetches, hcontent, ho⟩ := downloadFile_opened FileOutputStream.sink
      (show (⟨[]⟩ : FileOutputStream).data = [] from rfl) hdownload
    rw [hkeys] at hkeys' hcontent
    refine ⟨hkeys', fetched ++ here, hfetched.trans hfetches, fun p => ?_⟩
    by_cases hp : p = target
    · refine Or.inr ⟨(srcFile, fe), List.mem_append_right _ List.mem_cons_self, path, name, hpath, hname,
        hp.trans htarget, here, content, (List.suffix_append fetched here).isInfix, hcontent, ?_⟩
      rw [hassign, SortedMap.find?_assign, if_pos hp, hp, ho, List.nil_append]
    · refine hkept here p ?_
      rw [hassign, SortedMap.find?_assign, if_neg hp, hasked]

end Restore

/-- **Nothing but authenticated bytes reaches the disk.**  Whatever the data store
delivers, a restore that returns has loaded its snapshot from bytes that it
fetched from the path of the snapshot and that carry a valid HMAC under the keys
that the password unlocked; and every file that is not as it was consists of parts
that were deciphered from such bytes, fetched one after the other from the paths
of the objects of the entry that is restored there. -/
theorem downloadFiles_opened {δ : Type} [DataStore δ] (E : Env) (L : LocalEnv) (options : CliOptions)
    (fuel : ℕ) (password snapshotName destDir : Bytes) (srcFiles : List Bytes)
    (progress : FileEntry → FileTransferProgressFunction) (disk : LocalDisk) (s : Session δ) :
    Triple (fun t => t = s)
      (downloadFiles E L options fuel password snapshotName destDir srcFiles progress disk)
      (fun disk' s' => ∃ snapshot s₁ s₂ object fetched,
        unlockOrThrow E password "Invalid password." s = ok () s₁ ∧
        loadSnapshot E fuel snapshotName DefaultProgressFunction s₁ = ok snapshot s₂ ∧
        Fetches s₁.store [(snapshotPath snapshotName, object)] s₂.store ∧
        SnapshotOpened E fuel s₁.keys object snapshot ∧
        Fetches s₂.store fetched s'.store ∧
        ∀ p, disk'.files.find? p = disk.files.find? p ∨
          HasOpened E L fuel s₁.keys snapshot destDir fetched
            (enumerated snapshot (if srcFiles = [] then [[]] else srcFiles)) disk' p)
      fun _ _ => True := by
  rintro t rfl
  cases hrun : downloadFiles E L options fuel password snapshotName destDir srcFiles progress disk t with
  | error e t' => trivial
  | ok disk' t' =>
    obtain ⟨-, snapshot, s₁, s₂, hunlock, hload, hargs⟩ := downloadFiles_ok hrun
    obtain ⟨hkeys, object, hfetch, hsnapshot⟩ := loadSnapshot_opened hload
    have hstart : OpenedSoFar E L fuel s₁.keys snapshot destDir s₂.store disk [] s₂ disk :=
      ⟨hkeys, [], .nil, fun _ => Or.inl rfl⟩
    obtain ⟨-, fetched, hfetched, hfiles⟩ := restoreArgs_keep
      (R := OpenedSoFar E L fuel s₁.keys snapshot destDir s₂.store disk) (loadSnapshot_keyed hload) _
      (fun _ _ _ _ _ _ _ _ h hentry => h.entry hentry) hstart hargs
    exact ⟨snapshot, s₁, s₂, object, fetched, hunlock, hload, hfetch, hsnapshot, hfetched, hfiles⟩

/-! ### A repository that is initialised again -/

/-- A snapshot without a valid HMAC is not loaded. -/
theorem loadSnapshot_refused {δ : Type} [DataStore δ] (M : StoreModel δ) {E : Env} {s s' : Session δ}
    (hs : M.Ok s.store) {name object : Bytes}
    (hstored : M.contents s.store (snapshotPath name) = some object)
    (hbad : ¬ Authentic E.C s.keys.mMacKey.toList object) {fuel : ℕ} {snapshot : Snapshot} :
    loadSnapshot E fuel name DefaultProgressFunction s ≠ ok snapshot s' := by
  intro h
  obtain ⟨tmp, stream, r, input, i, hget, htmp, hdec, -, -⟩ := loadSnapshot_ok h
  obtain ⟨d, tmp', hget', -, -, hwritten⟩ := storeGet_run M hs
    (show Path.isSep (snapshotPath name) 0 = true from rfl) hstored TempFileStream.sink
    TempFileStream.new_written (show ∀ i j, DefaultProgressFunction i j = true from fun _ _ => rfl)
  obtain ⟨rfl, rfl⟩ := EStateM.Result.ok.inj (hget'.symm.trans hget)
  have hholds := TempFileStream.holds_content htmp
  rw [List.nil_append] at hwritten
  rw [hwritten.content_eq] at hholds
  exact hbad (decompressDecryptHMAC_ok (RewindableStream.rewinds object) hholds hdec).1

/-- **Whoever comes to load a snapshot** has the keys of the repository, and a
process that meets no error neither lists nor restores one without a valid HMAC
under them. -/
theorem Unlocks.refuses {E : Env} (hC : E.C.Lawful) {keys : RepositoryKeys} {P : Set Bytes}
    {current : Bytes} {s : Session FileDataStore} (h : Unlocks E keys P current s) {name object : Bytes}
    (hstored : s.store.contents (snapshotPath name) = some object)
    (hbad : ¬ Authentic E.C keys.mMacKey.toList object) {io : List ChunkEvent}
    (hio : ∀ e ∈ io, e = .ok) (memory : RepositoryKeys) {q : Bytes} (hq : q ∈ P) {what : String}
    {fuel : ℕ} {t t' : Session FileDataStore} {snapshot : Snapshot}
    (hrun : unlockOrThrow E q what (startProcess io memory s) = ok () t) :
    loadSnapshot E fuel name DefaultProgressFunction t ≠ ok snapshot t' := by
  obtain ⟨d, u, hd, hcont, hunlock⟩ := (h.start hio memory).unlock hC hq
    (show ∀ i j, DefaultProgressFunction i j = true from fun _ _ => rfl)
  obtain ⟨unlocked, t₁, hrun₁, hrun₂⟩ := of_run_ok hrun
  obtain ⟨rfl, rfl⟩ := EStateM.Result.ok.inj ((library_ok hunlock).symm.trans hrun₁)
  by_cases hcurrent : q = current
  · rw [if_neg (by simp [hcurrent])] at hrun₂
    obtain ⟨-, rfl⟩ := EStateM.Result.ok.inj hrun₂
    have hthere : d.contents (snapshotPath name) = some object := (congrFun hcont _).trans hstored
    rw [if_pos hcurrent]
    exact loadSnapshot_refused FileDataStore.storeModel (s := { startProcess io memory s with
      store := d, keys := keys, uninitUsed := u }) hd hthere hbad
  · rw [if_pos (by simp [hcurrent])] at hrun₂
    cases hrun₂

/-- **A repository that is initialised again** has new keys, and nobody is asked
whether there was one.  What it had is still there, but a snapshot whose HMAC is
not by chance one under the new keys is never listed or restored again, with
whatever password and after any calls but a backup of its name or another
`init`. -/
theorem initializeCommand_again {E : Env} (hC : E.C.Lawful) {P : Set Bytes} {password : Bytes}
    (hpassword : password ∈ P) {s : Session FileDataStore} (hroom : ∀ e ∈ s.store.io, e = .ok)
    {keys : RepositoryKeys} (hkeys : keys = generatedKeys E s.randomUsed)
    (hdiff : ∀ n, ∀ q ∈ P, ∀ rest, (nextKeyFile E keys n q defaultLogRounds rest).TagsDiffer E.C P) :
    ∃ s₀, initializeCommand E password s = ok () s₀ ∧
      (∀ path ≠ ascii "/key", s₀.store.contents path = s.store.contents path) ∧
      ∀ (name : SnapshotName) (object : Bytes), s.store.contents (snapshotPath name.1) = some object →
        ¬ Authentic E.C keys.mMacKey.toList object →
      ∀ (later : List CliCall), (∀ c ∈ later, c.Spares P name.1) →
        (afterCalls E later s₀).store.contents (snapshotPath name.1) = some object ∧
        ∀ (io : List ChunkEvent) (memory : RepositoryKeys), (∀ e ∈ io, e = .ok) → ∀ q ∈ P, ∀ fuel,
          (∀ lines s', listSnapshot E fuel q name.1
            (startProcess io memory (afterCalls E later s₀)) ≠ ok lines s') ∧
          ∀ (L : LocalEnv) (options : CliOptions) (destDir : Bytes) (srcFiles : List Bytes)
            (progress : FileEntry → FileTransferProgressFunction) (disk disk' : LocalDisk)
            (s' : Session FileDataStore), downloadFiles E L options fuel q name.1 destDir srcFiles progress
              disk (startProcess io memory (afterCalls E later s₀)) ≠ ok disk' s' := by
  subst hkeys
  obtain ⟨s₀, hinit, hlocked, -⟩ := initializeRepository_locked (M := FileDataStore.storeModel) hC hroom
    hpassword (show defaultLogRounds.toNat ≤ MAX_LOG_ROUNDS by decide)
    (show ∀ i j, DefaultProgressFunction i j = true from fun _ _ => rfl)
    (fun rest => hdiff _ password hpassword rest)
  have hcontents : ∀ path ≠ ascii "/key", s₀.store.contents path = s.store.contents path :=
    fun path hpath => initializeCommand_contents (library_ok hinit) hpath
  refine ⟨s₀, library_ok hinit, hcontents, fun name object hobject hbad later hlater => ?_⟩
  have hunlocks := Unlocks.calls hC hdiff later hlocked.unlocks fun c hc => (hlater c hc).keepsKey
  have hstored : (afterCalls E later s₀).store.contents (snapshotPath name.1) = some object := by
    rw [afterCalls_spared E later s₀ hlater, hcontents _ (snapshotPath_ne_key name.1).symm, hobject]
  refine ⟨hstored, fun io memory hio q hq fuel => ⟨fun lines s' hlist => ?_,
    fun L options destDir srcFiles progress disk disk' s' hrun => ?_⟩⟩
  · obtain ⟨v, s₁, hunlocked, hafter⟩ := of_run_ok hlist
    obtain ⟨snapshot, s₂, hload, -⟩ := of_run_ok hafter
    exact hunlocks.refuses hC hstored hbad hio memory hq hunlocked (of_library_ok hload)
  · obtain ⟨-, snapshot, s₁, s₂, hunlocked, hload, -⟩ := downloadFiles_ok hrun
    exact hunlocks.refuses hC hstored hbad hio memory hq hunlocked hload

/-- An object carries its HMAC under the keys that give the same digest of what it
holds. -/
theorem authentic_sealedObject {C : Crypto} {t : CompressionType} {encKey macKey macKey' iv d : Bytes} :
    Authentic C macKey' (sealedObject C t encKey macKey iv d) ↔
      C.hmacSha256 (macKey.take SHA256_DIGEST_LENGTH) (ivCiphertext C t encKey iv d) =
        C.hmacSha256 (macKey'.take SHA256_DIGEST_LENGTH) (ivCiphertext C t encKey iv d) := by
  have hlen : (C.hmacSha256 (macKey.take SHA256_DIGEST_LENGTH)
      (ivCiphertext C t encKey iv d)).toList.length = SHA256_DIGEST_LENGTH := List.Vector.toList_length _
  rw [Authentic, sealedObject, List.take_left' hlen, List.drop_left' hlen]
  exact ⟨fun h => List.Vector.eq _ _ h, fun h => congrArg List.Vector.toList h⟩

/-- A digest in which both the key and the data can be seen. -/
def keyedCrypto : Crypto := { pictureTables.crypto with
  hmacSha256 := fun key data => fillBytes 32 ((fillBytes 16 data).toList ++ key) }

theorem keyedCrypto_lawful : keyedCrypto.Lawful :=
  ⟨pictureTables.crypto_lawful.aes_lawful, pictureTables.crypto_lawful.aes_size,
    pictureTables.crypto_lawful.pbkdf2_length, pictureTables.crypto_lawful.lzma_inverse⟩

/-- Its digests of some data are the same under keys that begin alike only. -/
theorem keyedCrypto_hmac {k k' : UInt8} {key key' data : Bytes}
    (h : keyedCrypto.hmacSha256 (k :: key) data = keyedCrypto.hmacSha256 (k' :: key') data) : k = k' := by
  have hbyte : ∀ (k : UInt8) (key : Bytes),
      (keyedCrypto.hmacSha256 (k :: key) data).toList.getD 16 0 = k := by
    intro k key
    have hlen : (fillBytes 16 data).toList.length = 16 := List.Vector.toList_length _
    show ((((fillBytes 16 data).toList ++ k :: key) ++ List.replicate 32 0).take 32).getD 16 0 = k
    rw [List.append_assoc, List.getD_eq_getElem?_getD, List.getElem?_take_of_lt (by decide),
      List.getElem?_append_right (by rw [hlen]), hlen]
    rfl
  rw [← hbyte k key, ← hbyte k' key', h]

/-- The random bytes are ones. -/
def onesEnv : Env := { cycleEnv with C := keyedCrypto, random := fun _ => 1 }

theorem onesEnv_splits : SplitsPictures onesEnv :=
  ⟨rfl, by decide +kernel, by decide +kernel, by decide +kernel, by decide +kernel⟩

/-- The tags of the two passwords differ in every key file. -/
theorem keyedCrypto_differ (f : KeyFile) : f.TagsDiffer keyedCrypto {p | p = [97] ∨ p = [98]} := by
  have hab : f.tag keyedCrypto [97] ≠ f.tag keyedCrypto [98] := fun heq =>
    absurd (keyedCrypto_hmac heq) (by decide)
  intro p hp p' hp' hne
  rcases hp with rfl | rfl <;> rcases hp' with rfl | rfl
  · exact absurd rfl hne
  · exact hab
  · exact hab.symm
  · exact absurd rfl hne

/-- The pictures are backed up, and the repository is initialised again, with the
same password.  After a change of the password they are not restored. -/
theorem initializeCommand_again_pictures :
    ∃ s₁ s₀ object, backupFiles onesEnv .default [97] (ascii "s")
        (fun _ _ => DefaultFileTransferProgressFunction) picturesArgs
        (keyFileSession (keyFileOfA.bytes keyedCrypto)) = ok () s₁ ∧
      s₁.store.contents (snapshotPath (ascii "s")) = some object ∧
      Authentic keyedCrypto zeroKeys.mMacKey.toList object ∧
      initializeCommand onesEnv [97] s₁ = ok () s₀ ∧
      (afterCalls onesEnv laterCalls s₀).store.contents (snapshotPath (ascii "s")) = some object ∧
      ∀ fuel disk disk' s', downloadFiles onesEnv newDisk .default fuel [98] (ascii "s") (ascii "/out")
        [ascii "x/"] (fun _ => DefaultFileTransferProgressFunction) disk
        (startProcess [] zeroKeys (afterCalls onesEnv laterCalls s₀)) ≠ ok disk' s' := by
  have hlocked : Locked FileDataStore.storeModel onesEnv zeroKeys {p | p = [97] ∨ p = [98]} [97]
      (keyFileSession (keyFileOfA.bytes keyedCrypto)) :=
    ⟨fun _ he => absurd he List.not_mem_nil, Or.inl rfl, keyFileOfA, rfl, rfl, rfl, Nat.zero_le _,
      keyedCrypto_differ _⟩
  obtain ⟨s₁, hbackup, hlocked₁, parts, iv, -, -, -, hstored⟩ :=
    onesEnv_splits.backup keyedCrypto_lawful hlocked
  obtain ⟨s₀, hinit, -, hlost⟩ := initializeCommand_again (E := onesEnv) keyedCrypto_lawful
    (show [97] ∈ {p : Bytes | p = [97] ∨ p = [98]} from Or.inl rfl) hlocked₁.store_ok rfl
    (fun _ _ _ _ => keyedCrypto_differ _)
  have hold : Authentic keyedCrypto zeroKeys.mMacKey.toList
      (sealedWith keyedCrypto zeroKeys .LZMA2 iv (snapshotOf (addsOf onesEnv zeroKeys parts)).snapshotBytes) :=
    authentic_sealedObject.mpr rfl
  have hnew : ¬ Authentic keyedCrypto (generatedKeys onesEnv s₁.randomUsed).mMacKey.toList
      (sealedWith keyedCrypto zeroKeys .LZMA2 iv (snapshotOf (addsOf onesEnv zeroKeys parts)).snapshotBytes) :=
    fun h => absurd (keyedCrypto_hmac (authentic_sealedObject.mp h)) (show ¬ (0 : UInt8) = 1 by decide)
  obtain ⟨hkept, hnever⟩ := hlost nameS _ hstored hnew laterCalls laterCalls_spare
  exact ⟨s₁, s₀, _, hbackup, hstored, hold, hinit, hkept, fun fuel disk disk' s' =>
    (hnever [] zeroKeys (fun _ he => absurd he List.not_mem_nil) [98] (Or.inr rfl) fuel).2 newDisk .default
      (ascii "/out") [ascii "x/"] (fun _ => DefaultFileTransferProgressFunction) disk disk' s'⟩

end Nebula
