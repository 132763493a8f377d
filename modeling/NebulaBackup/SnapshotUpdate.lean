/-
Adding a path that is already there.

`addFileEntry` ends with `mFiles.insert`, which keeps an entry that it finds,
while `load` ends with an assignment, which replaces it.  So a call for a new
path is recorded, and a call for a path of the snapshot leaves its strings and
ids behind but no entry that leads to them.  Main results:

* `addFileEntry_wins_iff` — after which calls the path has the entry of the
  call;
* `uploadFile_wins_iff` — when a file that is uploaded is the file that is
  restored.
-/
import NebulaBackup.Restore

namespace Nebula

open EStateM.Result Hoare
open Nebula.Path

namespace Snapshot

/-- Two calls that one entry describes were given the same, up to the path. -/
theorem Describes.of_same {s s' : Snapshot} {fe : FileEntry} {a b : AddArgs}
    (hext : Extends s s') (hb : Describes s fe b) (ha : Describes s' fe a) : Describes s fe a := by
  have hb' := hb.of_extends hext
  refine { ha with name := ?_, parent := ?_, user := ?_, group := ?_, ids := ?_ }
  · rw [hb.name, ← hb'.name, ha.name]
  · rw [hb.parent, ← hb'.parent, ha.parent]
  · rw [hb.user, ← hb'.user, ha.user]
  · rw [hb.group, ← hb'.group, ha.group]
  · rw [hb.ids, ← hb'.ids, ha.ids]

/-- The path has an entry that says what the call was given. -/
def Shows (s : Snapshot) (a : AddArgs) : Prop :=
  ∃ fe, s.getFileEntry a.path = some fe ∧ Describes s fe a

/-- Lookup after a call: an entry that is there stays. -/
theorem addFileEntry_find {s s' : Snapshot} (hs : WF s) {a : AddArgs} (ha : NulFree a)
    (hadd : s.addFileEntry a = .ok s') :
    s'.getFileEntry a.path = some ((s.getFileEntry a.path).getD (s.internEntry a).1) ∧
      ∀ p ≠ a.path, s'.getFileEntry p = s.getFileEntry p := by
  obtain ⟨-, -, -, hfiles, -⟩ := addFileEntry_spec hs ha hadd
  constructor
  · rw [getFileEntry, hfiles, SortedMap.find?_insert, if_pos rfl]
    rfl
  · intro p hp
    rw [getFileEntry, hfiles, SortedMap.find?_insert, if_neg hp]
    rfl

/-- **What an added path shows**: its call, exactly if the path had no entry
before or one that showed the same. -/
theorem shows_iff {s s' : Snapshot} {made : List (FileEntry × AddArgs)} (h : Reachable s made)
    {a : AddArgs} (ha : NulFree a) (hadd : s.addFileEntry a = .ok s') (hsmall : Small s') :
    Shows s' a ↔ s.getFileEntry a.path = none ∨ Shows s a := by
  have hinv := h.inv
  obtain ⟨-, -, hext, -, hdesc⟩ := addFileEntry_spec hinv.wf ha hadd
  obtain ⟨hown, -⟩ := addFileEntry_find hinv.wf ha hadd
  cases hold : s.getFileEntry a.path with
  | none =>
    rw [hold] at hown
    exact ⟨fun _ => Or.inl rfl, fun _ => ⟨_, hown, hdesc hsmall⟩⟩
  | some fe =>
    rw [hold] at hown
    constructor
    · rintro ⟨fe', hfe', hd⟩
      obtain rfl : fe = fe' := Option.some.inj (hown.symm.trans hfe')
      obtain ⟨b, hb, -⟩ := hinv.origin a.path fe hold
      exact Or.inr ⟨fe, hold, (hinv.describes fe b hb).of_same hext hd⟩
    · rintro (hnone | ⟨fe', hfe', hd⟩)
      · exact absurd hnone (by simp)
      · obtain rfl : fe = fe' := Option.some.inj (hold.symm.trans hfe')
        exact ⟨fe, hown, hd.of_extends hext⟩

end Snapshot

/-! ### The file that is restored -/

theorem TempFileStream.written_unique {o : TempFileStream} {w w' : Bytes} (h : Written o w)
    (h' : Written o w') : w = w' := by
  rcases h with ⟨rfl, -⟩ | rfl
  · rcases h' with ⟨h', -⟩ | h'
    · simpa using h'
    · exact absurd h' (by simp)
  · rcases h' with ⟨h', -⟩ | h'
    · exact absurd h' (by simp)
    · simpa using h'

section Upload

variable {δ : Type} [DataStore δ] (M : StoreModel δ) {E : Env}

/-- A path restores one content. -/
theorem Restores.unique {snapshot : Snapshot} {s : Session δ} {path c c' : Bytes}
    (h : Restores E M snapshot s path c) (h' : Restores E M snapshot s path c') : c = c' := by
  obtain ⟨n, h⟩ := h
  obtain ⟨n', h'⟩ := h'
  obtain ⟨d, o, hrun, -, -, ho⟩ := h (max n n') (le_max_left n n') TempFileStream.sink
    TempFileStream.new_written
    (show ∀ a b i j, DefaultFileTransferProgressFunction a b i j = true from fun _ _ _ _ => rfl)
  obtain ⟨d', o', hrun', -, -, ho'⟩ := h' (max n n') (le_max_right n n') TempFileStream.sink
    TempFileStream.new_written
    (show ∀ a b i j, DefaultFileTransferProgressFunction a b i j = true from fun _ _ _ _ => rfl)
  rw [hrun, EStateM.Result.ok.injEq, Prod.mk.injEq] at hrun'
  rw [← hrun'.1.2] at ho'
  exact TempFileStream.written_unique ho ho'

/-- What was at a path before an upload: nothing, or a file whose blocks are
stored. -/
def Held (E : Env) (s : Session δ) (path : Bytes) (old : Bytes × LocalFile) : Prop :=
  s.snapshot.getFileEntry path = none ∨
    Stored E s.keys (M.contents s.store) old ∧ ∃ fe, s.snapshot.getFileEntry path = some fe ∧
      Snapshot.Describes s.snapshot fe (entryOf E s.keys old)

/-- **When an uploaded file is the one that is restored**: its path was free,
or the file that was there has the same content. -/
theorem uploadFile_restores_iff (hC : E.C.Lawful) (hsane : E.options.Sane) {s : Session δ}
    {F : Set Bytes}
    (hinj : Set.InjOn (E.C.hmacSha256 (s.keys.mHashKey.toList.take SHA256_DIGEST_LENGTH)) F)
    (hs : M.Ok s.store) (hsound : Sound E.C s.keys F (M.contents s.store))
    (hwf : s.snapshot.WF) {file old : Bytes × LocalFile} (hfed : ∀ x ∈ file.2.fed E s.keys, x ∈ F)
    (hcount : (entryOf E s.keys file).objectIds.length ≤ 65535)
    (hnul : Snapshot.NulFree (entryOf E s.keys file))
    (hold : Held M E s (normalizedPath file.1) old) (progress : FileTransferProgressFunction) :
    ∃ s', uploadFile E file.1 file.2.info (.openRead file.2.content) progress s = ok () s' ∧
      (s'.snapshot.Small →
        (Restores E M s'.snapshot s' (normalizedPath file.1) file.2.content ↔
          s.snapshot.getFileEntry (normalizedPath file.1) = none ∨
            old.2.content = file.2.content)) := by
  obtain ⟨d, n, snapshot, hupload, hadd, hd, -, hgrows, hstored⟩ :=
    uploadFile_stores M hC hsane hinj hs hsound hfed hcount progress
  refine ⟨_, hupload, fun hsmall => ?_⟩
  obtain ⟨-, -, hext, -, hdesc⟩ := Snapshot.addFileEntry_spec hwf hnul hadd
  obtain ⟨hown, -⟩ := Snapshot.addFileEntry_find hwf hnul hadd
  rw [entryOf_path] at hown
  rcases hold with hnone | ⟨hstoredOld, fe, hfe, hdescOld⟩
  · rw [hnone] at hown
    have hnew := hstored.restores M hC hsane
      (s := { s with store := d, randomUsed := n, snapshot := snapshot }) hd hsmall.2 hown
      (hdesc hsmall)
    exact ⟨fun _ => Or.inl hnone, fun _ => hnew⟩
  · -- the old entry stays, so the old file is restored
    rw [hfe] at hown
    have hrestored := (hstoredOld.mono hgrows).restores M hC hsane
      (s := { s with store := d, randomUsed := n, snapshot := snapshot }) hd hsmall.2 hown
      (hdescOld.of_extends hext)
    constructor
    · intro hnew
      exact Or.inr (hrestored.unique M hnew)
    · rintro (hnone | hsame)
      · exact absurd (hfe.symm.trans hnone) (by simp)
      · rw [← hsame]
        exact hrestored

/-- **Last write wins, where nothing was written before.**  In every history of
additions, deletions and reloads: a call leaves the entries of all other paths,
and its own path shows what it was given exactly if the path had no entry or
one that showed the same.  So an uploaded file is the one that is restored
exactly if its path was free or held the same content. -/
theorem lastWrite_iff {s : Session δ} {made : List (FileEntry × AddArgs)}
    (h : Snapshot.Reachable s.snapshot made) :
    (∀ {a snapshot'}, Snapshot.NulFree a → s.snapshot.addFileEntry a = .ok snapshot' →
      snapshot'.Small →
      (snapshot'.Shows a ↔ s.snapshot.getFileEntry a.path = none ∨ s.snapshot.Shows a) ∧
        ∀ p ≠ a.path, snapshot'.getFileEntry p = s.snapshot.getFileEntry p) ∧
    (E.C.Lawful → E.options.Sane → ∀ {F : Set Bytes},
      Set.InjOn (E.C.hmacSha256 (s.keys.mHashKey.toList.take SHA256_DIGEST_LENGTH)) F →
      M.Ok s.store → Sound E.C s.keys F (M.contents s.store) →
      ∀ {file old : Bytes × LocalFile}, (∀ x ∈ file.2.fed E s.keys, x ∈ F) →
      (entryOf E s.keys file).objectIds.length ≤ 65535 → Snapshot.NulFree (entryOf E s.keys file) →
      Held M E s (normalizedPath file.1) old → ∀ progress : FileTransferProgressFunction,
      ∃ s', uploadFile E file.1 file.2.info (.openRead file.2.content) progress s = ok () s' ∧
        (s'.snapshot.Small →
          (Restores E M s'.snapshot s' (normalizedPath file.1) file.2.content ↔
            s.snapshot.getFileEntry (normalizedPath file.1) = none ∨
              old.2.content = file.2.content))) := by
  have hwf := h.inv.wf
  constructor
  · intro a snapshot' ha hadd hsmall
    exact ⟨Snapshot.shows_iff h ha hadd hsmall, (Snapshot.addFileEntry_find hwf ha hadd).2⟩
  · intro hC hsane F hinj hs hsound file old hfed hcount hnul hold progress
    exact uploadFile_restores_iff M hC hsane hinj hs hsound hwf hfed hcount hnul hold progress

end Upload

/-! ### A path that is taken -/

namespace Snapshot

/-- A call for a two-byte file. -/
def longerAdd (path : Bytes) : AddArgs := { sampleAdd path with size := 2 }

theorem longerAdd_nulFree {path : Bytes} (h : 0 ∉ path) : NulFree (longerAdd path) :=
  ⟨h, (sampleAdd_nulFree h).user, (sampleAdd_nulFree h).group⟩

/-- A fresh snapshot takes the call, and the upload of a picture. -/
theorem lastWrite_iff_fresh :
    (∃ s', Snapshot.new.addFileEntry (longerAdd (ascii "a/b")) = .ok s' ∧
      s'.Shows (longerAdd (ascii "a/b"))) ∧
    ∃ s', uploadFile (zeroEnv emptyPictureTables.crypto) (ascii "x/a.png") emptyPicture.info
        (.openRead []) DefaultFileTransferProgressFunction emptySession = ok () s' ∧
      (s'.snapshot.Small → Restores (zeroEnv emptyPictureTables.crypto) FileDataStore.storeModel
        s'.snapshot s' (normalizedPath (ascii "x/a.png")) []) := by
  obtain ⟨hadd, hupload⟩ := lastWrite_iff FileDataStore.storeModel (s := emptySession)
    (E := zeroEnv emptyPictureTables.crypto) .new
  have hnew : Snapshot.new.addFileEntry (longerAdd (ascii "a/b")) =
      .ok (build [.add (longerAdd (ascii "a/b"))]) := rfl
  have hsmall : (build [.add (longerAdd (ascii "a/b"))]).Small := by constructor <;> decide
  refine ⟨⟨_, hnew, ?_⟩, ?_⟩
  · exact (hadd (longerAdd_nulFree (by decide)) hnew hsmall).1.mpr (Or.inl rfl)
  · have hsound : Sound emptyPictureTables.crypto zeroKeys {[0]}
        (FileDataStore.storeModel.contents emptySession.store) := by
      intro t block _ bytes hbytes
      exact absurd hbytes.symm (Option.some_ne_none bytes)
    have hfed : ∀ x ∈ (ascii "x/a.png", emptyPicture).2.fed (zeroEnv emptyPictureTables.crypto)
        zeroKeys, x ∈ ({[0]} : Set Bytes) := by
      intro x hx
      rw [LocalFile.fed, emptyPicture_blocks] at hx
      exact List.mem_singleton.mp hx
    have hheld : Held FileDataStore.storeModel (zeroEnv emptyPictureTables.crypto) emptySession
        (normalizedPath (ascii "x/a.png")) (ascii "x/a.png", emptyPicture) := Or.inl rfl
    obtain ⟨s', hrun, hiff⟩ := hupload emptyPictureTables.crypto_lawful Options.default_sane
      (Set.injOn_singleton _ _) emptySession_ok hsound hfed (picture_count _ _ (by decide) (by decide))
      (entryOf_nulFree (picture_nulFree (by decide) (by decide))) hheld
      DefaultFileTransferProgressFunction
    exact ⟨s', hrun, fun hsmall => (hiff hsmall).mpr (Or.inl rfl)⟩

/-- **A changed file is not recorded**: the entry of the first call stays. -/
theorem lastWrite_lost :
    ∃ s made s', Reachable s made ∧ NulFree (longerAdd (ascii "a/b")) ∧
      s.addFileEntry (longerAdd (ascii "a/b")) = .ok s' ∧ s'.Small ∧
      ¬ s'.Shows (longerAdd (ascii "a/b")) := by
  have hreach : Reachable (build [.add (sampleAdd (ascii "a/b"))])
      [((Snapshot.new.internEntry (sampleAdd (ascii "a/b"))).1, sampleAdd (ascii "a/b"))] :=
    .add .new (sampleAdd_nulFree (by decide)) rfl (by constructor <;> decide) (by decide)
  refine ⟨build [.add (sampleAdd (ascii "a/b"))], _, _, hreach, longerAdd_nulFree (by decide), rfl,
    by constructor <;> decide, ?_⟩
  rintro ⟨fe, hfe, hd⟩
  have hsize : ((build [.add (sampleAdd (ascii "a/b")), .add (longerAdd (ascii "a/b"))]).getFileEntry
      (ascii "a/b")).map FileEntry.size = some 1 := by decide
  rw [show (build [.add (sampleAdd (ascii "a/b")), .add (longerAdd (ascii "a/b"))]).getFileEntry
    (ascii "a/b") = some fe from hfe, Option.map_some, Option.some.injEq, hd.size] at hsize
  exact absurd hsize (by decide)

end Snapshot

end Nebula
