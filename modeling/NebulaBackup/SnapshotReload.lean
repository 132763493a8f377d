/-
Loading, saving and loading again.

`load` accepts more than `save` writes: entries in any order and with paths that
occur twice, a reserved byte that is not zero, strings that no entry names.  What
it keeps of an input is a snapshot that comes back unchanged when it is saved and
loaded: its strings are whole C strings in words of four bytes, its counts fit
the loops, and its entries are filed under the paths that `load` computes.  So a
snapshot can be taken from one repository to another.  Main results:

* `load_canonical` — what every accepted input leaves;
* `load_reload` — it is a fixed point of `save` and `load`;
* `loadSnapshot_committed` — loaded here, committed and loaded there.
-/
import NebulaBackup.LoadChecks
import NebulaBackup.CommandRuns

namespace Nebula

open EStateM.Result Hoare

namespace Snapshot

/-! ### What is accepted -/

theorem drop_of_cstrAt {buf str : Bytes} {p : ℕ} (h : cstrAt buf p = some str) :
    ∃ rest, buf.drop p = str ++ 0 :: rest := by
  rw [cstrAt] at h
  split at h
  · rename_i hzero
    rw [← Option.some.inj h]
    exact takeWhile_nul hzero
  · exact absurd h (by simp)

/-- The bytes that the scan skips are zeros. -/
theorem zero_mem_of_skipped {buf : Bytes} {p i : ℕ} (hp : p ≤ i) (hi : i < skipZeros buf p) :
    0 ∈ buf.drop i := by
  have hsplit := List.takeWhile_append_dropWhile (p := fun b : UInt8 => decide (b = 0)) (l := buf.drop p)
  rw [skipZeros] at hi
  have hdrop : buf.drop i = (buf.drop p).drop (i - p) := by
    rw [List.drop_drop]
    congr 1
    omega
  rw [hdrop, ← hsplit, List.drop_append_of_le_length (by omega)]
  refine List.mem_append_left _ ?_
  obtain ⟨b, hb⟩ := List.exists_mem_of_ne_nil
    (((buf.drop p).takeWhile fun b => decide (b = 0)).drop (i - p)) (by
      rw [Ne, List.drop_eq_nil_iff]
      omega)
  have hzero : b = 0 := by
    simpa using List.mem_takeWhile_imp (List.mem_of_mem_drop hb)
  exact hzero ▸ hb

/-- A table that the scan gets through is made of C strings, by induction on the
bound of its rounds. -/
theorem terminated_of_scan {buf : Bytes} : ∀ {k p : ℕ} {table table' : SortedMap Bytes ℕ},
    scanStrings buf k p table = .ok table' → ∀ i, p ≤ i → i < buf.length → 0 ∈ buf.drop i := by
  intro k
  induction k with
  | zero =>
    intro p table table' h i hp hi
    rw [scanStrings, if_pos (by omega)] at h
    exact absurd h (by simp)
  | succ k ih =>
    intro p table table' h i hp hi
    rw [scanStrings, if_pos (by omega)] at h
    cases hstr : cstrAt buf p with
    | none =>
      rw [hstr] at h
      exact absurd h (by simp)
    | some str =>
      rw [hstr] at h
      -- in the string, among the zeros after it, or in what is scanned next
      by_cases hin : i ≤ p + str.length
      · obtain ⟨rest, hrest⟩ := drop_of_cstrAt hstr
        have hdrop : buf.drop i = (buf.drop p).drop (i - p) := by
          rw [List.drop_drop]
          congr 1
          omega
        rw [hdrop, hrest, List.drop_append_of_le_length (by omega)]
        exact List.mem_append_right _ List.mem_cons_self
      · by_cases hskip : i < skipZeros buf (p + str.length + 1)
        · exact zero_mem_of_skipped (by omega) hskip
        · exact ih h i (by omega) hi

/-- What `load` leaves: the table of the buffer, counts that the loops can do, and
entries under their paths. -/
structure Canonical (s : Snapshot) : Prop where
  scanned : scanStrings s.mStringBuffer s.mStringBuffer.length 0 SortedMap.empty = .ok s.mStringTable
  aligned : s.mStringBuffer.length % 4 = 0
  strings : s.mStringBuffer.length < 2 ^ 32
  ids : s.mObjectIDs.length < 2 ^ 31
  files : s.mFiles.size < 2 ^ 31
  keyed : Keyed s

section Accepted

variable {σ : Type} [InputStream σ]

theorem expect_length {n : ℕ} {i i' : σ} {d : Bytes} (h : expect n i = ok d i') : d.length = n := by
  rw [expect, readExpected] at h
  split at h
  · cases h
  · split at h
    · cases h
    · rename_i hlen
      cases h
      exact not_not.mp hlen

omit [InputStream σ] in
theorem readMany_length {α : Type} {p : EStateM Fault σ α} : ∀ (n : ℕ) {i i' : σ} {as : List α},
    readMany p n i = ok as i' → as.length = n := by
  intro n
  induction n with
  | zero =>
    intro i i' as h
    cases h
    rfl
  | succ n ih =>
    intro i i' as h
    obtain ⟨a, i₁, -, h⟩ := of_run_ok h
    obtain ⟨as', i₂, hrest, h⟩ := of_run_ok h
    cases h
    rw [List.length_cons, ih hrest]

omit [InputStream σ] in
theorem counted_lt {α : Type} {n : ℕ} {loop : ℕ → EStateM Fault σ α} {i i' : σ} {a : α}
    (h : counted n loop i = ok a i') : n < 2 ^ 31 := by
  by_contra hn
  rw [counted, if_neg hn] at h
  obtain ⟨b, t, -, hthrow⟩ := of_run_ok h
  cases hthrow

/-- Every entry that is read adds at most one, and nothing else changes. -/
theorem loadFiles_size : ∀ (n : ℕ) {s s' : Snapshot} {i i' : σ}, loadFiles n s i = ok s' i' →
    s'.mFiles.size ≤ s.mFiles.size + n ∧ s'.mStringTable = s.mStringTable ∧
      s'.mStringBuffer = s.mStringBuffer ∧ s'.mObjectIDs = s.mObjectIDs := by
  intro n
  induction n with
  | zero =>
    intro s s' i i' h
    cases h
    exact ⟨le_refl _, rfl, rfl, rfl⟩
  | succ n ih =>
    intro s s' i i' h
    obtain ⟨fe, i₁, -, h⟩ := of_run_ok h
    cases hp : s.entryPath fe with
    | error e =>
      rw [hp] at h
      cases h
    | ok p =>
      rw [hp] at h
      obtain ⟨hsize, hrest⟩ := ih h
      have hstep : (s.mFiles.assign p fe).size ≤ s.mFiles.size + 1 := SortedMap.size_assign_le
      refine ⟨?_, hrest⟩
      show s'.mFiles.size ≤ _
      have hsize' : s'.mFiles.size ≤ (s.mFiles.assign p fe).size + n := hsize
      omega

/-- **What every accepted input leaves.** -/
theorem load_canonical {i i' : σ} {s : Snapshot} (h : load new i = ok s i') : Canonical s := by
  have hkeyed := load_keyed h
  obtain ⟨numFiles, i₁, -, h⟩ := of_run_ok h
  obtain ⟨words, i₂, -, h⟩ := of_run_ok h
  obtain ⟨numObjects, i₃, -, h⟩ := of_run_ok h
  obtain ⟨buf, i₄, hbuf, h⟩ := of_run_ok h
  have hlen := expect_length hbuf
  cases hscan : scanStrings buf buf.length 0 new.mStringTable with
  | error e =>
    rw [hscan] at h
    cases h
  | ok table =>
    rw [hscan] at h
    obtain ⟨ids, i₅, hids, h⟩ := of_run_ok h
    have hfiles := counted_lt h
    obtain ⟨hsize, htable, hbuffer, hobjects⟩ := loadFiles_size numFiles (counted_ok h)
    have hempty : (new : Snapshot).mFiles.size = 0 := rfl
    refine ⟨?_, ?_, ?_, ?_, ?_, hkeyed⟩
    · rw [hbuffer, htable]
      exact hscan
    · rw [hbuffer, hlen]
      omega
    · rw [hbuffer, hlen]
      exact Nat.mod_lt _ (by decide)
    · rw [hobjects]
      show ids.length < 2 ^ 31
      rw [readMany_length numObjects (counted_ok hids)]
      exact counted_lt hids
    · have hsize' : s.mFiles.size ≤ 0 + numFiles := hsize
      omega

end Accepted

/-! ### Saved and loaded again -/

theorem Canonical.wf {s : Snapshot} (h : Canonical s) : WF s := by
  have hterminated : Terminated s.mStringBuffer := fun i hi =>
    terminated_of_scan h.scanned i (Nat.zero_le i) hi
  obtain ⟨table, hscan, htable⟩ := scanStrings_spec hterminated
    (show s.mStringBuffer.length - 0 ≤ s.mStringBuffer.length by omega)
    (show TableOk s.mStringBuffer SortedMap.empty from fun h => by simp at h)
  refine ⟨h.aligned, hterminated, ?_⟩
  rw [Except.ok.inj (h.scanned.symm.trans hscan)]
  exact htable

section Reload

variable {σ : Type} [InputStream σ] {R : σ → Bytes → Prop}

/-- The entries are read one after the other and filed as they were. -/
theorem loadFiles_entries (hR : Source R) : ∀ (entries : List (Bytes × FileEntry)) {s : Snapshot},
    (∀ e ∈ entries, s.entryPath e.2 = .ok e.1) →
    Reads R (loadFiles entries.length s) ((entries.map Prod.snd).flatMap entryBytes)
      { s with mFiles := s.mFiles.assignAll entries } := by
  intro entries
  induction entries with
  | nil =>
    intro s _
    exact Reads.pure s
  | cons e entries ih =>
    intro s hkeys
    rw [List.length_cons, loadFiles, List.map_cons, List.flatMap_cons]
    refine (readFileEntry_reads hR e.2).bind ?_
    rw [hkeys e List.mem_cons_self]
    -- the path of an entry depends on the buffer alone
    exact ih (s := { s with mFiles := s.mFiles.assign e.1 e.2 }) fun e' he' =>
      hkeys e' (List.mem_cons_of_mem e he')

/-- **The bytes of such a snapshot** are read as the snapshot. -/
theorem Canonical.reads (hR : Source R) {s : Snapshot} (h : Canonical s) :
    Reads R (load new) (snapshotBytes s) s := by
  have haligned := h.aligned
  have hstrings := h.strings
  have hids := h.ids
  have hfiles := h.files
  have hwords : (s.mStringBuffer.length + 3) / 4 * 4 % 2 ^ 32 = s.mStringBuffer.length := by
    rw [Nat.mod_eq_of_lt] <;> omega
  unfold load snapshotBytes
  refine (readType_reads hR (by omega)).bind ?_
  refine (readType_reads hR (by omega)).bind ?_
  refine (readType_reads hR (by omega)).bind ?_
  refine (expect_reads' hR hwords.symm).bind ?_
  rw [show (new : Snapshot).mStringTable = SortedMap.empty from rfl, h.scanned]
  rw [counted_of_lt hids]
  refine (readMany_reads fun id _ => readDigest_reads hR id).bind ?_
  rw [counted_of_lt hfiles]
  have hentries := loadFiles_entries hR s.mFiles.entries
    (s := ⟨s.mStringTable, s.mStringBuffer, s.mObjectIDs, (new : Snapshot).mFiles⟩) h.keyed
  have hmap : (new : Snapshot).mFiles.assignAll s.mFiles.entries = s.mFiles := s.mFiles.assignAll_entries
  rw [hmap] at hentries
  exact hentries

end Reload

/-- **Whatever bytes were loaded**, saving the snapshot and loading it again gives
the same snapshot. -/
theorem load_reload {σ : Type} [InputStream σ] {i i' : σ} {s : Snapshot} (h : load new i = ok s i') :
    s.reload = .ok s :=
  have hcanonical := load_canonical h
  reload_eq hcanonical.wf (hcanonical.reads (RewindableStream.source (snapshotBytes s)))

end Snapshot

/-! ### From one repository to another -/

/-- **A snapshot that was loaded**, whatever the store delivered, can be committed
to any repository under any name that is one, and is loaded from there as it is. -/
theorem loadSnapshot_committed {δ δ' : Type} [DataStore δ] [DataStore δ'] (M : StoreModel δ') {E : Env}
    (hC : E.C.Lawful) {fuel : ℕ} {name : Bytes} {progress : ProgressFunction} {snapshot : Snapshot}
    {s s' : Session δ} (hload : loadSnapshot E fuel name progress s = ok snapshot s') {t : Session δ'}
    (ht : M.Ok t.store) (name' : SnapshotName) :
    ∃ t' n, commitSnapshot E snapshot name'.1 DefaultProgressFunction t = ok () t' ∧
      ∀ fuel' ≥ n, ∃ t'', loadSnapshot E fuel' name'.1 DefaultProgressFunction t' = ok snapshot t'' := by
  have hdefault : ∀ i j, DefaultProgressFunction i j = true := fun _ _ => rfl
  obtain ⟨tmp, stream, r, input, i, -, -, -, -, hinput⟩ := loadSnapshot_ok hload
  have hcanonical := Snapshot.load_canonical hinput
  obtain ⟨d, n, iv, hcommit, hd, hcont⟩ := commitSnapshot_run M hC ht hcanonical.wf name'.1 hdefault
  refine ⟨_, (Snapshot.snapshotBytes snapshot).length +
    objectSize E.C .LZMA2 (Snapshot.snapshotBytes snapshot), hcommit, fun fuel' hfuel => ?_⟩
  have hstored : M.contents d (snapshotPath name'.1) =
      some (sealedWith E.C t.keys .LZMA2 iv (Snapshot.snapshotBytes snapshot)) := by
    rw [hcont, Function.update_self]
  obtain ⟨d', hrun, -⟩ := loadSnapshot_run M hC (s := { t with store := d, randomUsed := n }) hd hstored
    (hcanonical.reads (RewindableStream.source (Snapshot.snapshotBytes snapshot))) hdefault hfuel
  exact ⟨_, hrun⟩

/-- The snapshot of the pictures is taken to an empty directory. -/
theorem loadSnapshot_committed_pictures :
    ∃ (fuel : ℕ) (snapshot : Snapshot) (s s' t' : Session FileDataStore) (n : ℕ),
      loadSnapshot cycleEnv fuel (ascii "s") DefaultProgressFunction s = ok snapshot s' ∧
      (∀ file ∈ pictures, ∃ fe, snapshot.mFiles.find? file.1 = some fe) ∧
      commitSnapshot cycleEnv snapshot (ascii "t") DefaultProgressFunction emptySession = ok () t' ∧
      ∀ fuel' ≥ n, ∃ t'', loadSnapshot cycleEnv fuel' (ascii "t") DefaultProgressFunction t' =
        ok snapshot t'' := by
  obtain ⟨s₁, -, hlocked, hrestorable⟩ := pictures_backup
  obtain ⟨loaded, s₂, fuel, -, -, hopens⟩ := hrestorable.opens cycleTables.crypto_lawful
    splitOptions_sane hlocked ""
  obtain ⟨hload, hentries⟩ := hopens fuel (le_refl _)
  obtain ⟨t', n, hcommit, hagain⟩ := loadSnapshot_committed FileDataStore.storeModel
    cycleTables.crypto_lawful hload emptySession_ok nameT
  refine ⟨fuel, loaded, s₂, s₂, t', n, hload, fun file hfile => ?_, hcommit, hagain⟩
  obtain ⟨fe, hentry⟩ := hentries.file file hfile
  have hkey : Snapshot.rekey file.1 = file.1 := by
    rcases List.mem_pair.mp hfile with rfl | rfl
    · decide
    · decide
  exact ⟨fe, hkey ▸ hentry.find⟩

end Nebula
