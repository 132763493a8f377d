/-
What `Snapshot::load` checks of its input.

`SnapshotFormat` is about snapshots that `save` wrote; here the input is any
byte sequence.  `LoadsSafely` is what a reader of a snapshot has to guarantee:
it throws or leaves a `WellFormed` snapshot, and the scan of the string table
stays inside the table.  `scanReads` lists the positions that the scan looks
at; the inner loop `while(!*p && p < end)` looks before it compares, so that
the byte after the table is read once the scan comes to its end
(`scanReads_end`).  Of the entries only name and parent are checked, by the
lookups that make the key.  Main result:

* `load_safe_iff` — which inputs are loaded safely.
-/
import NebulaBackup.SubTree

namespace Nebula

open EStateM.Result

namespace Snapshot

/-! ### The scan -/

/-- The positions that the scan from `p` on reads: a string with its NUL, and
the bytes that the inner loop looks at.  A string without a NUL is followed to
the first byte after the buffer. -/
def scanReads (buf : Bytes) : ℕ → ℕ → List ℕ
  | 0, _ => []
  | k + 1, p =>
    if p < buf.length then
      match cstrAt buf p with
      | none => List.range' p (buf.length + 1 - p)
      | some str =>
        List.range' p (str.length + 1) ++
          (List.range' (p + str.length + 1)
              (skipZeros buf (p + str.length + 1) + 1 - (p + str.length + 1)) ++
            scanReads buf k (skipZeros buf (p + str.length + 1)))
    else []

theorem le_skipZeros (buf : Bytes) (p : ℕ) : p ≤ skipZeros buf p := Nat.le_add_right _ _

theorem skipZeros_le {buf : Bytes} {p : ℕ} (h : p ≤ buf.length) : skipZeros buf p ≤ buf.length := by
  have hle := (List.takeWhile_prefix (p := fun b : UInt8 => decide (b = 0))
    (l := buf.drop p)).length_le
  rw [List.length_drop] at hle
  rw [skipZeros]
  omega

/-- **The scan reads the byte after the table**, from wherever in it it starts.
By induction on the bound of its rounds, every one of which moves forward. -/
theorem scanReads_end {buf : Bytes} : ∀ {k p : ℕ}, p < buf.length → buf.length - p ≤ k →
    buf.length ∈ scanReads buf k p := by
  intro k
  induction k with
  | zero =>
    intro p hp hk
    omega
  | succ k ih =>
    intro p hp hk
    rw [scanReads, if_pos hp]
    cases hstr : cstrAt buf p with
    | none =>
      simp only [List.mem_range'_1]
      omega
    | some str =>
      have hlt := lt_of_cstrAt hstr
      have hle := skipZeros_le (show p + str.length + 1 ≤ buf.length by omega)
      have hge := le_skipZeros buf (p + str.length + 1)
      simp only [List.mem_append, List.mem_range'_1]
      by_cases hend : skipZeros buf (p + str.length + 1) < buf.length
      · exact Or.inr (Or.inr (ih hend (by omega)))
      · -- the zeros go on to the end, and the loop looks there
        exact Or.inr (Or.inl (by omega))

/-! ### Well-formed snapshots -/

/-- Every string index of every entry is a C string of the buffer, and every
range of ids lies in the list. -/
structure WellFormed (s : Snapshot) : Prop where
  strings : ∀ fe ∈ s.mFiles.values,
    ∀ n ∈ [fe.nameIndex, fe.pathIndex, fe.userIndex, fe.groupIndex],
      (cstrAt s.mStringBuffer n.toNat).isSome
  objects : ∀ fe ∈ s.mFiles.values,
    fe.objectIdIndex.toNat + fe.objectCount.toNat ≤ s.mObjectIDs.length

/-- The size of the string table that the input declares. -/
def stringTableSize (c : Bytes) : ℕ := leNat ((c.drop 4).take 4) * 4 % 2 ^ 32

/-- The number of ids that the input declares. -/
def numObjects (c : Bytes) : ℕ := leNat ((c.drop 8).take 4)

/-- The string table, if the input is long enough. -/
def stringTable (c : Bytes) : Bytes := (c.drop 12).take (stringTableSize c)

/-- `load` into a new snapshot, from a stream with the bytes `c`, throws or
leaves a well-formed snapshot, and the scan reads inside the table only. -/
def LoadsSafely {σ : Type} [InputStream σ] (i : σ) (c : Bytes) : Prop :=
  (match load new i with
    | error e _ => ∃ kind what, e = .thrown kind what
    | ok s _ => WellFormed s) ∧
  (12 + stringTableSize c ≤ c.length →
    ∀ p ∈ scanReads (stringTable c) (stringTable c).length 0, p < stringTableSize c)

section Loading

variable {σ : Type} [InputStream σ] {R : σ → Bytes → Prop}

theorem stringTable_length {c : Bytes} (h : 12 + stringTableSize c ≤ c.length) :
    (stringTable c).length = stringTableSize c := by
  rw [stringTable, List.length_take, List.length_drop]
  omega

/-- A table that is not empty is not scanned safely. -/
theorem not_loadsSafely_of_table {i : σ} {c : Bytes} (hc : 12 + stringTableSize c ≤ c.length)
    (hne : stringTableSize c ≠ 0) : ¬ LoadsSafely i c := by
  intro h
  have hlen := stringTable_length hc
  have hend : (stringTable c).length ∈ scanReads (stringTable c) (stringTable c).length 0 :=
    scanReads_end (by omega) (by omega)
  have hlt := h.2 hc _ hend
  omega

/-! What the readers do with any input. -/

theorem readMany_parses (hR : Source R) (n : ℕ) : ∀ (k : ℕ) (r : Bytes),
    Parses R r (readMany (readDigest n) k) fun _ r' => r' = r.drop (k * n) ∧ k * n ≤ r.length := by
  intro k
  induction k with
  | zero =>
    intro r
    exact Parses.pure (by simp)
  | succ k ih =>
    intro r
    refine (readDigest_parses hR r n).bind fun d r₁ h₁ => ?_
    obtain ⟨-, rfl, hn⟩ := h₁
    refine (ih (r.drop n)).bind fun ds r₂ h₂ => ?_
    obtain ⟨rfl, hk⟩ := h₂
    rw [List.length_drop] at hk
    have hmul : (k + 1) * n = n + k * n := by ring
    refine Parses.pure ⟨?_, ?_⟩
    · rw [List.drop_drop, hmul]
    · omega

theorem readFileEntry_parses (hR : Source R) (r : Bytes) :
    Parses R r readFileEntry fun _ _ => True := by
  unfold readFileEntry
  refine (readType_parses hR _ 4).bind fun _ _ _ => ?_
  refine (readType_parses hR _ 4).bind fun _ _ _ => ?_
  refine (readType_parses hR _ 4).bind fun _ _ _ => ?_
  refine (readType_parses hR _ 4).bind fun _ _ _ => ?_
  refine (readType_parses hR _ 2).bind fun _ _ _ => ?_
  refine (readType_parses hR _ 1).bind fun _ _ _ => ?_
  refine (readType_parses hR _ 1).bind fun _ _ _ => ?_
  refine (readType_parses hR _ 1).bind fun _ _ _ => ?_
  refine (readType_parses hR _ 1).bind fun _ _ _ => ?_
  refine (readType_parses hR _ 2).bind fun _ _ _ => ?_
  refine (readType_parses hR _ 8).bind fun _ _ _ => ?_
  refine (readType_parses hR _ 8).bind fun _ _ _ => ?_
  refine (readDigest_parses hR _ _).bind fun _ _ _ => ?_
  refine (readType_parses hR _ 4).bind fun _ _ _ => ?_
  refine (readType_parses hR _ 4).bind fun _ _ _ => ?_
  exact (readType_parses hR _ 4).bind fun _ _ _ => Parses.pure trivial

/-- Without strings no entry has a path. -/
theorem entryPath_of_empty {s : Snapshot} (hs : s.mStringBuffer = []) (fe : FileEntry) :
    s.entryPath fe = .error (.thrown .IndexOutOfBoundException "Index is out of bound.") := by
  have hindex : ∀ n : ℤ, s.indexToString n =
      .error (.thrown .IndexOutOfBoundException "Index is out of bound.") := by
    intro n
    rw [indexToString, hs]
    refine if_pos ?_
    rw [List.length_nil]
    omega
  rw [entryPath, hindex]

/-- So the first entry, if there is one, is refused. -/
theorem loadFiles_of_empty (hR : Source R) {s : Snapshot} (hs : s.mStringBuffer = []) (n : ℕ)
    (r : Bytes) : Parses R r (loadFiles n s) fun s' _ => n = 0 ∧ s' = s := by
  cases n with
  | zero => exact Parses.pure ⟨rfl, rfl⟩
  | succ n =>
    refine (readFileEntry_parses hR r).bind fun fe r' _ => ?_
    rw [entryPath_of_empty hs]
    exact Parses.throw _ _

/-- **The head of `load`**: an input that is shorter than its head and its table
is refused. -/
theorem load_parses (hR : Source R) {c : Bytes} {Q : Snapshot → Bytes → Prop}
    (hrest : 12 + stringTableSize c ≤ c.length →
      Parses R (c.drop (12 + stringTableSize c))
        (match scanStrings (stringTable c) (stringTable c).length 0 new.mStringTable with
          | .error e => throw e
          | .ok table => do
            let ids ← counted (numObjects c) (readMany (readDigest SHA256_DIGEST_LENGTH))
            counted (leNat (c.take 4)) fun n => loadFiles n ⟨table, stringTable c, ids, new.mFiles⟩)
        Q) :
    Parses R c (load new) Q := by
  refine (readType_parses hR c 4).bind fun numFiles r₁ h₁ => ?_
  obtain ⟨rfl, rfl, -⟩ := h₁
  refine (readType_parses hR _ 4).bind fun words r₂ h₂ => ?_
  obtain ⟨rfl, rfl, -⟩ := h₂
  rw [List.drop_drop]
  refine (readType_parses hR _ 4).bind fun objects r₃ h₃ => ?_
  obtain ⟨rfl, rfl, h12⟩ := h₃
  rw [List.length_drop] at h12
  rw [List.drop_drop]
  refine (expect_parses hR _ _).bind fun buf r₄ h₄ => ?_
  obtain ⟨rfl, rfl, hlen⟩ := h₄
  rw [List.drop_drop]
  rw [List.length_drop] at hlen
  exact hrest (by rw [stringTableSize]; omega)

/-- **An input with an empty string table** is refused or gives a snapshot
without files, unless its ids are too many to count. -/
theorem load_of_empty (hR : Source R) {c : Bytes} (hsize : stringTableSize c = 0)
    (hids : numObjects c < 2 ^ 31 ∨ c.length < 12 + 2 ^ 31 * 32) :
    Parses R c (load new) fun s _ => s.mFiles = SortedMap.empty := by
  refine load_parses hR fun hlen => ?_
  have htable : stringTable c = [] := by rw [stringTable, hsize, List.take_zero]
  rw [htable]
  refine (counted_parses (readMany_parses hR SHA256_DIGEST_LENGTH · _) ?_).bind fun ids r _ => ?_
  · refine hids.imp_right fun hshort ids r h => ?_
    have hmany := h.2
    rw [List.length_drop, SHA256_DIGEST_LENGTH] at hmany
    omega
  · have hloop := counted_parses (n := leNat (c.take 4)) (loadFiles_of_empty hR
      (s := ⟨SortedMap.empty, [], ids, SortedMap.empty⟩) rfl · r)
      (Or.inr fun s' r' h => absurd h.1 (by decide))
    exact hloop.imp fun s' r' h => by rw [h.2]

/-! Ids that are too many. -/

theorem readMany_run (hR : Source R) (n : ℕ) : ∀ (k : ℕ) {i : σ} {r : Bytes}, R i r →
    k * n ≤ r.length → ∃ ids i', readMany (readDigest n) k i = ok ids i' ∧ R i' (r.drop (k * n)) := by
  intro k
  induction k with
  | zero =>
    intro i r hi _
    exact ⟨[], i, rfl, by simpa using hi⟩
  | succ k ih =>
    intro i r hi hk
    have hmul : (k + 1) * n = n + k * n := by ring
    have hn : (r.take n).length = n := by
      rw [List.length_take]
      omega
    obtain ⟨i₁, hfirst, hi₁⟩ := (readDigest_reads hR ⟨r.take n, hn⟩).run hi
    obtain ⟨ids, i₂, hrest, hi₂⟩ := ih hi₁ (by rw [List.length_drop]; omega)
    rw [List.drop_drop, ← hmul] at hi₂
    exact ⟨_, i₂, Hoare.run_step hfirst (Hoare.run_step hrest rfl), hi₂⟩

/-- The counter of the ids overflows. -/
theorem load_overflow (hR : Source R) {i : σ} {c : Bytes} (hi : R i c)
    (hsize : stringTableSize c = 0) (hids : 2 ^ 31 ≤ numObjects c)
    (hlen : 12 + 2 ^ 31 * 32 ≤ c.length) : ∃ i', load new i = error .undefined i' := by
  have htype : ∀ {i : σ} {r : Bytes} (w : ℕ), R i r → w ≤ r.length →
      ∃ i', readType w i = ok (leNat (r.take w)) i' ∧ R i' (r.drop w) := by
    intro i r w hi hw
    have hlen : (r.take w).length = w := by rw [List.length_take, min_eq_left hw]
    exact ((expect_reads' hR hlen).map leNat).run hi
  obtain ⟨i₁, h₁, hi₁⟩ := htype 4 hi (by omega)
  obtain ⟨i₂, h₂, hi₂⟩ := htype 4 hi₁ (by rw [List.length_drop]; omega)
  rw [List.drop_drop] at hi₂
  obtain ⟨i₃, h₃, hi₃⟩ := htype 4 hi₂ (by rw [List.length_drop]; omega)
  rw [List.drop_drop] at hi₃
  obtain ⟨i₄, h₄, hi₄⟩ := expect_reads hR [] i₃ _ hi₃
  obtain ⟨ids, i₅, h₅, -⟩ := readMany_run hR SHA256_DIGEST_LENGTH (2 ^ 31) hi₄ (by
    rw [List.length_drop, SHA256_DIGEST_LENGTH]
    omega)
  have htable : expect (stringTableSize c) i₃ = ok [] i₄ := by
    rw [hsize]
    exact h₄
  have hcounted : counted (numObjects c) (readMany (readDigest SHA256_DIGEST_LENGTH)) i₄ =
      error .undefined i₅ := by
    rw [counted, if_neg (show ¬ numObjects c < 2 ^ 31 by omega), Hoare.run_ok h₅]
    rfl
  exact ⟨i₅, Hoare.run_step h₁ (Hoare.run_step h₂ (Hoare.run_step h₃ (Hoare.run_step htable
    (Hoare.run_error hcounted))))⟩

end Loading

/-! ### What is checked -/

theorem cstrAt_of_indexToString {s : Snapshot} {n : UInt32} {str : Bytes}
    (h : s.indexToString (toInt n) = .ok str) : cstrAt s.mStringBuffer n.toNat = some str := by
  rw [indexToString] at h
  split at h
  · exact absurd h (by simp)
  · rename_i hin
    have hlt : n.toNat < 2 ^ 31 := by
      by_contra hc
      exact hin (Or.inl (toInt_neg (by omega)))
    rw [toInt_of_lt hlt, Int.toNat_natCast] at h
    cases hstr : cstrAt s.mStringBuffer n.toNat with
    | none =>
      rw [hstr] at h
      exact absurd h (by simp)
    | some str' =>
      rw [hstr] at h
      rw [Except.ok.inj h]

/-- The lookups of `load` find name and parent of every entry. -/
theorem load_located {σ : Type} [InputStream σ] {i i' : σ} {s : Snapshot}
    (h : load new i = ok s i') : ∀ fe ∈ s.mFiles.values, Located s fe := by
  intro fe hfe
  obtain ⟨key, hkey⟩ := SortedMap.mem_values_iff.mp hfe
  have hpath := load_keyed h (key, fe) (SortedMap.mem_entries_iff.mpr hkey)
  rw [entryPath] at hpath
  cases hparent : s.indexToString (toInt fe.pathIndex) with
  | error e =>
    rw [hparent] at hpath
    exact absurd hpath (by simp)
  | ok parent =>
    cases hname : s.indexToString (toInt fe.nameIndex) with
    | error e =>
      rw [hparent, hname] at hpath
      exact absurd hpath (by simp)
    | ok name =>
      rw [Located, cstrAt_of_indexToString hparent, cstrAt_of_indexToString hname]
      exact ⟨rfl, rfl⟩

/-- Owner, group and objects of every entry are where it says. -/
def OthersLocated (s : Snapshot) : Prop :=
  ∀ fe ∈ s.mFiles.values, (cstrAt s.mStringBuffer fe.userIndex.toNat).isSome ∧
    (cstrAt s.mStringBuffer fe.groupIndex.toNat).isSome ∧
    fe.objectIdIndex.toNat + fe.objectCount.toNat ≤ s.mObjectIDs.length

theorem wellFormed_iff {s : Snapshot} (h : ∀ fe ∈ s.mFiles.values, Located s fe) :
    WellFormed s ↔ OthersLocated s := by
  constructor
  · intro hs fe hfe
    exact ⟨hs.strings fe hfe _ (by simp), hs.strings fe hfe _ (by simp), hs.objects fe hfe⟩
  · intro hs
    refine ⟨fun fe hfe n hn => ?_, fun fe hfe => (hs fe hfe).2.2⟩
    simp only [List.mem_cons, List.not_mem_nil, or_false] at hn
    rcases hn with rfl | rfl | rfl | rfl
    · exact (h fe hfe).2
    · exact (h fe hfe).1
    · exact (hs fe hfe).1
    · exact (hs fe hfe).2.1

/-- **Which inputs are loaded safely**: those that end before their string table
does, and those whose string table is empty and whose ids can be counted; all
of these are refused or hold no file.  Of an input that is accepted nothing but
name and parent of the entries was checked. -/
theorem load_safe_iff {σ : Type} [InputStream σ] {R : σ → Bytes → Prop} (hR : Source R) {i : σ}
    {c : Bytes} (hi : R i c) :
    (LoadsSafely i c ↔ c.length < 12 + stringTableSize c ∨
      (stringTableSize c = 0 ∧ (numObjects c < 2 ^ 31 ∨ c.length < 12 + 2 ^ 31 * 32))) ∧
      ∀ s i', load new i = ok s i' → (WellFormed s ↔ OthersLocated s) := by
  refine ⟨⟨fun h => ?_, ?_⟩, fun s i' h => wellFormed_iff (load_located h)⟩
  · by_contra hc
    by_cases hsize : stringTableSize c = 0
    · obtain ⟨i', hrun⟩ := load_overflow hR hi hsize (by omega) (by omega)
      have hthrown := h.1
      rw [hrun] at hthrown
      obtain ⟨kind, what, hfault⟩ := hthrown
      exact absurd hfault (by simp)
    · exact not_loadsSafely_of_table (by omega) hsize h
  · rintro (hshort | ⟨hsize, hids⟩)
    · -- the reads of the head or of the table throw
      have hload : Parses R c (load new) fun _ _ => False :=
        load_parses hR fun hlen => absurd hlen (by omega)
      refine ⟨?_, fun hlen => absurd hlen (by omega)⟩
      rcases hload.ends hi with ⟨kind, what, i', hrun⟩ | ⟨s, i', r, -, hfalse, -⟩
      · rw [hrun]
        exact ⟨kind, what, rfl⟩
      · exact hfalse.elim
    · refine ⟨?_, fun hlen p hp => ?_⟩
      · rcases (load_of_empty hR hsize hids).ends hi with
          ⟨kind, what, i', hrun⟩ | ⟨s, i', r, hrun, hfiles, -⟩
        · rw [hrun]
          exact ⟨kind, what, rfl⟩
        · rw [hrun]
          have hnone : ∀ fe, fe ∉ s.mFiles.values := by
            rw [hfiles]
            exact fun fe => List.not_mem_nil
          exact ⟨fun fe hfe => absurd hfe (hnone fe), fun fe hfe => absurd hfe (hnone fe)⟩
      · have htable : stringTable c = [] := by rw [stringTable, hsize, List.take_zero]
        rw [htable] at hp
        exact absurd hp List.not_mem_nil

/-- An input of twelve zero bytes is an empty snapshot, one that announces a
string and ends is refused, and the string `a` makes the scan leave its
table. -/
theorem load_safe_iff_sample :
    LoadsSafely (MemoryInputStream.new (List.replicate 12 0)) (List.replicate 12 0) ∧
      LoadsSafely (MemoryInputStream.new [0, 0, 0, 0, 1, 0, 0, 0, 0, 0, 0, 0, 97])
        [0, 0, 0, 0, 1, 0, 0, 0, 0, 0, 0, 0, 97] ∧
      ¬ LoadsSafely (MemoryInputStream.new [0, 0, 0, 0, 1, 0, 0, 0, 0, 0, 0, 0, 97, 0, 0, 0])
        [0, 0, 0, 0, 1, 0, 0, 0, 0, 0, 0, 0, 97, 0, 0, 0] := by
  refine ⟨?_, ?_, ?_⟩
  · exact (load_safe_iff (RewindableStream.source _) (MemoryInputStream.new_holds _)).1.mpr
      (Or.inr ⟨by decide, Or.inl (by decide)⟩)
  · exact (load_safe_iff (RewindableStream.source _) (MemoryInputStream.new_holds _)).1.mpr
      (Or.inl (by decide))
  · intro h
    have hcond := (load_safe_iff (RewindableStream.source _) (MemoryInputStream.new_holds _)).1.mp h
    exact absurd hcond (by decide)

/-- An entry for `a/a` whose owner is at position 4096 and whose object is the
first of the list. -/
def craftedEntry : FileEntry where
  nameIndex := 0
  pathIndex := 0
  userIndex := 4096
  groupIndex := 0
  mode := 0
  compression := 0
  size := 0
  mtime := 0
  type := 1
  rollingHashBits := 0
  objectCount := 1
  md5 := hexDigest 16 0
  offset := 0
  packLength := 0
  objectIdIndex := 0

/-- A snapshot with this entry, the one string `a` and no ids. -/
def craftedSnapshot : Snapshot :=
  ⟨.empty, [97, 0, 0, 0], [], SortedMap.empty.assign (ascii "a/a") craftedEntry⟩

/-- `load` accepts it: the scan has read the byte after the four of the table,
the owner is outside of it, and the ids of the entry are not there. -/
theorem load_accepts_crafted :
    ¬ LoadsSafely (MemoryInputStream.new (snapshotBytes craftedSnapshot))
        (snapshotBytes craftedSnapshot) ∧
      stringTable (snapshotBytes craftedSnapshot) = [97, 0, 0, 0] ∧
      4 ∈ scanReads [97, 0, 0, 0] 4 0 ∧
      ∃ s i', load new (MemoryInputStream.new (snapshotBytes craftedSnapshot)) = ok s i' ∧
        craftedEntry ∈ s.mFiles.values ∧ cstrAt s.mStringBuffer 4096 = none ∧
        s.mObjectIDs = [] := by
  have hwf : WF craftedSnapshot := by
    refine ⟨rfl, terminated_append_zeros [97] 2, fun h => ?_⟩
    simp [craftedSnapshot] at h
  have hvalues : craftedSnapshot.mFiles.values = [craftedEntry] := rfl
  have hlocated : ∀ fe ∈ craftedSnapshot.mFiles.values, Located craftedSnapshot fe := by
    rw [hvalues]
    intro fe hfe
    rw [List.mem_singleton.mp hfe]
    exact ⟨rfl, rfl⟩
  obtain ⟨table, -, hreads⟩ := load_reads (RewindableStream.source (snapshotBytes craftedSnapshot)
    (σ := MemoryInputStream)) hwf (by constructor <;> decide) (by decide) hlocated
  rw [hvalues] at hreads
  obtain ⟨i', hload, -⟩ := hreads _ [] (by
    rw [List.append_nil]
    exact MemoryInputStream.new_holds _)
  refine ⟨not_loadsSafely_of_table (by decide) (by decide), by decide, by decide, _, i', hload, ?_,
    show cstrAt [97, 0, 0, 0] 4096 = none by decide, rfl⟩
  exact SortedMap.mem_values_iff.mpr ⟨ascii "a/a", rfl⟩

end Snapshot

end Nebula
