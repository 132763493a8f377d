/-
The stored form of a snapshot: `Snapshot::save` and `Snapshot::load`.

`snapshotBytes` is the format as one byte string.  `save_writes` says that
`save` produces it, `load_reads` that `load` consumes exactly it and rebuilds
the tables.  On loading the map key of an entry is put together from parent
and name (`storedPath`), which for a path with a parent is the path itself.
Main results:

* `snapshot_roundTrip` — nothing is lost between `save` and `load`;
* `reachable_resolves` — what an entry resolves to never changes, whatever is
  added, deleted, saved and loaded;
* `getFileEntry_load_iff` — which lookups give the same answer before and
  after.
-/
import NebulaBackup.Snapshot
import NebulaBackup.StreamCodec
import NebulaBackup.SampleCrypto
import NebulaBackup.MemoryStreams

namespace Nebula

open EStateM.Result
open Nebula.Path

namespace Snapshot

/-! ### `save` and `load` -/

section Format

variable {σ ω : Type} [InputStream σ] [OutputStream ω]

/-- The fields of one entry as `save` writes them. -/
def writeFileEntry (fe : FileEntry) : EStateM Fault ω Unit := do
  writeType 4 fe.nameIndex.toNat
  writeType 4 fe.pathIndex.toNat
  writeType 4 fe.userIndex.toNat
  writeType 4 fe.groupIndex.toNat
  writeType 2 fe.mode.toNat
  writeType 1 fe.compression.toNat
  writeType 1 0
  writeType 1 fe.type.toNat
  writeType 1 fe.rollingHashBits.toNat
  writeType 2 fe.objectCount.toNat
  writeType 8 fe.size.toNat
  writeType 8 fe.mtime.toUInt64.toNat
  put fe.md5.toList
  writeType 4 fe.offset.toNat
  writeType 4 fe.packLength.toNat
  writeType 4 fe.objectIdIndex.toNat

/-- `Snapshot::save`.  The string table is written in whole words; the buffer
has that length, otherwise the write would read past its end. -/
def save (s : Snapshot) : EStateM Fault ω Unit := do
  writeType 4 s.mFiles.size
  writeType 4 ((s.mStringBuffer.length + 3) / 4)
  writeType 4 s.mObjectIDs.length
  if s.mStringBuffer.length % 4 = 0 then put s.mStringBuffer else throw .undefined
  writeMany (fun id => put id.toList) s.mObjectIDs
  writeMany writeFileEntry s.mFiles.values

/-- The fields of one entry as `load` reads them. -/
def readFileEntry : EStateM Fault σ FileEntry := do
  let nameIndex ← readType 4
  let pathIndex ← readType 4
  let userIndex ← readType 4
  let groupIndex ← readType 4
  let mode ← readType 2
  let compression ← readType 1
  let _ ← readType 1
  let type ← readType 1
  let rollingHashBits ← readType 1
  let objectCount ← readType 2
  let size ← readType 8
  let mtime ← readType 8
  let md5 ← readDigest MD5_DIGEST_LENGTH
  let offset ← readType 4
  let packLength ← readType 4
  let objectIdIndex ← readType 4
  return {
    nameIndex := .ofNat nameIndex
    pathIndex := .ofNat pathIndex
    userIndex := .ofNat userIndex
    groupIndex := .ofNat groupIndex
    mode := .ofNat mode
    compression := .ofNat compression
    size := .ofNat size
    mtime := (UInt64.ofNat mtime).toInt64
    type := .ofNat type
    rollingHashBits := .ofNat rollingHashBits
    objectCount := .ofNat objectCount
    md5 := md5
    offset := .ofNat offset
    packLength := .ofNat packLength
    objectIdIndex := .ofNat objectIdIndex }

/-- The position after the zeros at `p`. -/
def skipZeros (buf : Bytes) (p : ℕ) : ℕ := p + ((buf.drop p).takeWhile (· = 0)).length

/-- The scan that rebuilds the string table; every round moves forward, so the
length of the buffer bounds the rounds.  The loop condition also looks at the
byte after the buffer, but what it sees there does not matter. -/
def scanStrings (buf : Bytes) : ℕ → ℕ → SortedMap Bytes ℕ → Except Fault (SortedMap Bytes ℕ)
  | 0, p, table => if p < buf.length then .error .outOfFuel else .ok table
  | k + 1, p, table =>
    if p < buf.length then
      match cstrAt buf p with
      | none => .error .undefined
      | some str => scanStrings buf k (skipZeros buf (p + str.length + 1)) (table.assign str p)
    else .ok table

/-- The key under which `load` files an entry. -/
def entryPath (s : Snapshot) (fe : FileEntry) : Except Fault Bytes :=
  match s.indexToString (toInt fe.pathIndex) with
  | .error e => .error e
  | .ok parent =>
    match s.indexToString (toInt fe.nameIndex) with
    | .error e => .error e
    | .ok name => .ok (parent ++ separator :: name)

/-- The loop of `load` over the entries. -/
def loadFiles : ℕ → Snapshot → EStateM Fault σ Snapshot
  | 0, s => return s
  | n + 1, s => do
    let fe ← readFileEntry
    match s.entryPath fe with
    | .error e => throw e
    | .ok path => loadFiles n { s with mFiles := s.mFiles.assign path fe }

/-- `Snapshot::load`: the snapshot as it is after the call. -/
def load (s : Snapshot) : EStateM Fault σ Snapshot := do
  let numFiles ← readType 4
  let words ← readType 4
  let numObjects ← readType 4
  let buf ← expect (words * 4 % 2 ^ 32)
  match scanStrings buf buf.length 0 s.mStringTable with
  | .error e => throw e
  | .ok table =>
    let ids ← counted numObjects (readMany (readDigest SHA256_DIGEST_LENGTH))
    counted numFiles fun n => loadFiles n ⟨table, buf, ids, s.mFiles⟩

end Format

/-! ### The format -/

/-- The bytes of one entry. -/
def entryBytes (fe : FileEntry) : Bytes :=
  leBytes 4 fe.nameIndex.toNat ++ (leBytes 4 fe.pathIndex.toNat ++
  (leBytes 4 fe.userIndex.toNat ++ (leBytes 4 fe.groupIndex.toNat ++
  (leBytes 2 fe.mode.toNat ++ (leBytes 1 fe.compression.toNat ++ (leBytes 1 0 ++
  (leBytes 1 fe.type.toNat ++ (leBytes 1 fe.rollingHashBits.toNat ++
  (leBytes 2 fe.objectCount.toNat ++ (leBytes 8 fe.size.toNat ++
  (leBytes 8 fe.mtime.toUInt64.toNat ++ (fe.md5.toList ++ (leBytes 4 fe.offset.toNat ++
  (leBytes 4 fe.packLength.toNat ++ leBytes 4 fe.objectIdIndex.toNat))))))))))))))

/-- The bytes of a snapshot. -/
def snapshotBytes (s : Snapshot) : Bytes :=
  leBytes 4 s.mFiles.size ++ (leBytes 4 ((s.mStringBuffer.length + 3) / 4) ++
  (leBytes 4 s.mObjectIDs.length ++ (s.mStringBuffer ++
  (s.mObjectIDs.flatMap List.Vector.toList ++ s.mFiles.values.flatMap entryBytes))))

section Specs

variable {σ ω : Type} [InputStream σ] [OutputStream ω] {R : σ → Bytes → Prop}
  {W : ω → Bytes → Prop}

theorem writeFileEntry_writes (hW : Sink W) (fe : FileEntry) :
    Writes W (writeFileEntry fe) (entryBytes fe) := by
  unfold writeFileEntry entryBytes
  refine (writeType_writes hW _ _).bind ?_
  refine (writeType_writes hW _ _).bind ?_
  refine (writeType_writes hW _ _).bind ?_
  refine (writeType_writes hW _ _).bind ?_
  refine (writeType_writes hW _ _).bind ?_
  refine (writeType_writes hW _ _).bind ?_
  refine (writeType_writes hW _ _).bind ?_
  refine (writeType_writes hW _ _).bind ?_
  refine (writeType_writes hW _ _).bind ?_
  refine (writeType_writes hW _ _).bind ?_
  refine (writeType_writes hW _ _).bind ?_
  refine (writeType_writes hW _ _).bind ?_
  refine (put_writes hW _).bind ?_
  refine (writeType_writes hW _ _).bind ?_
  refine (writeType_writes hW _ _).bind ?_
  exact writeType_writes hW _ _

/-- **`save` writes the format.** -/
theorem save_writes (hW : Sink W) {s : Snapshot} (hs : WF s) :
    Writes W s.save (snapshotBytes s) := by
  unfold save snapshotBytes
  refine (writeType_writes hW _ _).bind ?_
  refine (writeType_writes hW _ _).bind ?_
  refine (writeType_writes hW _ _).bind ?_
  rw [if_pos hs.aligned]
  refine (put_writes hW _).bind ?_
  refine (writeMany_writes (fun id : ObjectID => put_writes hW id.toList) _).bind ?_
  exact writeMany_writes (writeFileEntry_writes hW) _

theorem readFileEntry_reads (hR : Source R) (fe : FileEntry) :
    Reads R readFileEntry (entryBytes fe) fe := by
  have h32 : ∀ n : UInt32, n.toNat < 256 ^ 4 := fun n => n.toNat_lt
  have h16 : ∀ n : UInt16, n.toNat < 256 ^ 2 := fun n => n.toNat_lt
  have h8 : ∀ n : UInt8, n.toNat < 256 ^ 1 := fun n => n.toNat_lt
  have h64 : ∀ n : UInt64, n.toNat < 256 ^ 8 := fun n => n.toNat_lt
  unfold readFileEntry entryBytes
  refine (readType_reads hR (h32 _)).bind ?_
  refine (readType_reads hR (h32 _)).bind ?_
  refine (readType_reads hR (h32 _)).bind ?_
  refine (readType_reads hR (h32 _)).bind ?_
  refine (readType_reads hR (h16 _)).bind ?_
  refine (readType_reads hR (h8 _)).bind ?_
  refine (readType_reads hR (by decide)).bind ?_
  refine (readType_reads hR (h8 _)).bind ?_
  refine (readType_reads hR (h8 _)).bind ?_
  refine (readType_reads hR (h16 _)).bind ?_
  refine (readType_reads hR (h64 _)).bind ?_
  refine (readType_reads hR (h64 _)).bind ?_
  refine (readDigest_reads hR fe.md5).bind ?_
  refine (readType_reads hR (h32 _)).bind ?_
  refine (readType_reads hR (h32 _)).bind ?_
  have hlast := (readType_reads hR (h32 fe.objectIdIndex)).map (fun objectIdIndex =>
    { fe with objectIdIndex := UInt32.ofNat objectIdIndex })
  simpa using hlast

/-! ### Loading -/

/-- Every binding of a string table names a string of the buffer. -/
def TableOk (buf : Bytes) (table : SortedMap Bytes ℕ) : Prop :=
  ∀ {str i}, table.find? str = some i → cstrAt buf i = some str

omit [InputStream σ] [OutputStream ω] in
/-- The scan ends and every binding it makes is right, by induction on the
bound of its rounds. -/
theorem scanStrings_spec {buf : Bytes} (hbuf : Terminated buf) : ∀ {k p : ℕ}
    {table : SortedMap Bytes ℕ}, buf.length - p ≤ k → TableOk buf table →
      ∃ table', scanStrings buf k p table = .ok table' ∧ TableOk buf table' := by
  intro k
  induction k with
  | zero =>
    intro p table hk htable
    rw [scanStrings, if_neg (by omega)]
    exact ⟨table, rfl, htable⟩
  | succ k ih =>
    intro p table hk htable
    rw [scanStrings]
    by_cases hp : p < buf.length
    · have hstr := hbuf.cstrAt hp
      rw [if_pos hp, hstr]
      refine ih ?_ ?_
      · rw [skipZeros]
        omega
      · -- an entry is new, or it was there before
        intro str i hi
        rw [SortedMap.find?_assign] at hi
        split at hi
        · rename_i heq
          rw [heq, ← Option.some.inj hi]
          exact hstr
        · exact htable hi
    · rw [if_neg hp]
      exact ⟨table, rfl, htable⟩

/-- The string at an index, empty if there is none. -/
def stringAt (s : Snapshot) (n : UInt32) : Bytes := (cstrAt s.mStringBuffer n.toNat).getD []

/-- The key that is put together from parent and name. -/
def storedPath (s : Snapshot) (fe : FileEntry) : Bytes :=
  s.stringAt fe.pathIndex ++ separator :: s.stringAt fe.nameIndex

/-- Parent and name of the entry are strings of the buffer. -/
def Located (s : Snapshot) (fe : FileEntry) : Prop :=
  (cstrAt s.mStringBuffer fe.pathIndex.toNat).isSome ∧
    (cstrAt s.mStringBuffer fe.nameIndex.toNat).isSome

theorem entryPath_eq {s : Snapshot} (hs : s.mStringBuffer.length < 2 ^ 31) {fe : FileEntry}
    (h : Located s fe) : s.entryPath fe = .ok (s.storedPath fe) := by
  obtain ⟨parent, hparent⟩ := Option.isSome_iff_exists.mp h.1
  obtain ⟨name, hname⟩ := Option.isSome_iff_exists.mp h.2
  rw [entryPath, indexToString_of_cstrAt hs hparent, indexToString_of_cstrAt hs hname, storedPath,
    stringAt, stringAt, hparent, hname]
  rfl

/-- The entries under the keys that `load` gives them. -/
def keyed (s : Snapshot) (fes : List FileEntry) : List (Bytes × FileEntry) :=
  fes.map fun fe => (s.storedPath fe, fe)

theorem loadFiles_reads (hR : Source R) {buf : Bytes} (hbuf : buf.length < 2 ^ 31) :
    ∀ (fes : List FileEntry) {s : Snapshot}, s.mStringBuffer = buf → (∀ fe ∈ fes, Located s fe) →
      Reads R (loadFiles fes.length s) (fes.flatMap entryBytes)
        { s with mFiles := s.mFiles.assignAll (keyed s fes) } := by
  intro fes
  induction fes with
  | nil =>
    intro s _ _
    exact Reads.pure s
  | cons fe fes ih =>
    intro s hs hfes
    subst hs
    rw [List.length_cons, loadFiles, List.flatMap_cons]
    refine (readFileEntry_reads hR fe).bind ?_
    rw [entryPath_eq hbuf (hfes fe List.mem_cons_self)]
    -- the new entry changes neither the buffer nor the keys of the others
    exact ih (s := { s with mFiles := s.mFiles.assign (s.storedPath fe) fe }) rfl
      fun fe' hfe' => hfes fe' (List.mem_cons_of_mem _ hfe')

/-- **`load` reads the format** and rebuilds the tables. -/
theorem load_reads (hR : Source R) {s : Snapshot} (hs : WF s) (hsmall : Small s)
    (hfiles : s.mFiles.size < 2 ^ 31) (hloc : ∀ fe ∈ s.mFiles.values, Located s fe) :
    ∃ table, TableOk s.mStringBuffer table ∧
      Reads R (load new) (snapshotBytes s) ⟨table, s.mStringBuffer, s.mObjectIDs,
        SortedMap.empty.assignAll (keyed s s.mFiles.values)⟩ := by
  obtain ⟨table, hscan, htable⟩ := scanStrings_spec hs.terminated
    (show s.mStringBuffer.length - 0 ≤ s.mStringBuffer.length by omega)
    (show TableOk s.mStringBuffer SortedMap.empty from fun h => by simp at h)
  refine ⟨table, htable, ?_⟩
  have hwords : (s.mStringBuffer.length + 3) / 4 * 4 % 2 ^ 32 = s.mStringBuffer.length := by
    have haligned := hs.aligned
    have hlen := hsmall.1
    rw [Nat.mod_eq_of_lt] <;> omega
  have hids := hsmall.2
  have hlen := hsmall.1
  -- the counts, the strings, the ids, and then the entries
  unfold load snapshotBytes
  refine (readType_reads hR (by omega)).bind ?_
  refine (readType_reads hR (by omega)).bind ?_
  refine (readType_reads hR (by omega)).bind ?_
  refine (expect_reads' hR hwords.symm).bind ?_
  rw [show (new : Snapshot).mStringTable = SortedMap.empty from rfl, hscan]
  rw [counted_of_lt hids]
  refine (readMany_reads fun id _ => readDigest_reads hR id).bind ?_
  rw [counted_of_lt hfiles]
  have hvalues : s.mFiles.size = s.mFiles.values.length := by
    rw [SortedMap.size, SortedMap.values, List.length_map]
  rw [hvalues]
  exact loadFiles_reads hR hlen s.mFiles.values
    (s := ⟨table, s.mStringBuffer, s.mObjectIDs, (new : Snapshot).mFiles⟩) rfl hloc

end Specs

/-! ### Keys before and after -/

/-- The paths that `uploadFile` stores. -/
def StoredName (p : Bytes) : Prop := p = [] ∨ NormalRel p

theorem parent_append_filename {p : Bytes} (h : StoredName p) :
    parent_path p ++ separator :: filename p = rekey p := by
  rcases h with rfl | h
  · decide
  · rcases h.cases with ⟨hn, hname, hparent⟩ | ⟨-, -, hp⟩
    · rw [hname, hparent, rekey, if_neg hn.2, List.nil_append]
    · rw [← hp, rekey, if_pos]
      rw [hp]
      simp

theorem StoredName.head_ne {p r : Bytes} (h : StoredName p) : p ≠ separator :: r := by
  rintro rfl
  rcases h with h | h
  · exact absurd h (by simp)
  · have hzero := h.isSep_zero
    simp at hzero

theorem rekey_injOn {p q : Bytes} (hp : StoredName p) (hq : StoredName q) (h : rekey p = rekey q) :
    p = q := by
  rw [rekey, rekey] at h
  split at h <;> split at h
  · exact h
  · exact absurd h hp.head_ne
  · exact absurd h.symm hq.head_ne
  · exact (List.cons.inj h).2

theorem Describes.storedPath {s : Snapshot} {fe : FileEntry} {a : AddArgs} (h : Describes s fe a) :
    s.storedPath fe = parent_path a.path ++ separator :: filename a.path := by
  rw [Snapshot.storedPath, stringAt, stringAt, h.parent, h.name]
  rfl

theorem Describes.located {s : Snapshot} {fe : FileEntry} {a : AddArgs} (h : Describes s fe a) :
    Located s fe := by
  rw [Located, h.parent, h.name]
  exact ⟨rfl, rfl⟩

/-! ### Snapshots built by calls -/

/-- A call that changes a snapshot. -/
inductive SnapshotOp
  | add (a : AddArgs)
  | delete (path : Bytes)

/-- The snapshot after a call; one that throws changes nothing. -/
def apply (s : Snapshot) : SnapshotOp → Snapshot
  | .add a =>
    match s.addFileEntry a with
    | .ok s' => s'
    | .error _ => s
  | .delete path => s.deleteFileEntry path

/-- A snapshot built from a fresh one. -/
def build (ops : List SnapshotOp) : Snapshot := ops.foldl apply new

/-- The adds of a sequence of calls are made with C strings and with paths of
the form that `uploadFile` stores. -/
def GoodOps (ops : List SnapshotOp) : Prop :=
  ∀ a, SnapshotOp.add a ∈ ops → StoredName a.path ∧ NulFree a

/-- Every entry describes the call that added it, under its path. -/
def Built (ops : List SnapshotOp) (s : Snapshot) : Prop :=
  WF s ∧ (Small s → ∀ path fe, s.mFiles.find? path = some fe →
    ∃ a, SnapshotOp.add a ∈ ops ∧ a.path = path ∧ Describes s fe a)

theorem Small.of_extends {s s' : Snapshot} (h : Small s') (hext : Extends s s') : Small s :=
  ⟨lt_of_le_of_lt hext.1.length_le h.1, lt_of_le_of_lt hext.2.length_le h.2⟩

/-- One call keeps what was built before. -/
theorem Built.apply {ops : List SnapshotOp} {s : Snapshot} (h : Built ops s) {op : SnapshotOp}
    (hop : GoodOps [op]) : Built (ops ++ [op]) (s.apply op) := by
  obtain ⟨hs, hentries⟩ := h
  have hmono : ∀ {a}, SnapshotOp.add a ∈ ops → SnapshotOp.add a ∈ ops ++ [op] :=
    fun ha => List.mem_append_left _ ha
  cases op with
  | add a =>
    have hmem : SnapshotOp.add a ∈ ops ++ [.add a] := by simp
    rw [Snapshot.apply]
    cases hadd : s.addFileEntry a with
    | error e =>
      refine ⟨hs, fun hsmall path fe hfind => ?_⟩
      obtain ⟨b, hb, hrest⟩ := hentries hsmall path fe hfind
      exact ⟨b, hmono hb, hrest⟩
    | ok s' =>
      obtain ⟨-, hs', hext, hfiles, hdesc⟩ :=
        addFileEntry_spec hs (hop a (by simp)).2 hadd
      refine ⟨hs', fun hsmall path fe hfind => ?_⟩
      have hsmall' := Small.of_extends hsmall hext
      rw [hfiles, SortedMap.find?_insert] at hfind
      by_cases hpath : path = a.path
      · rw [if_pos hpath] at hfind
        cases hold : s.mFiles.find? a.path with
        | none =>
          rw [hold] at hfind
          obtain rfl : (s.internEntry a).1 = fe := by simpa using hfind
          exact ⟨a, hmem, hpath.symm, hdesc hsmall⟩
        | some w =>
          -- the path is taken: the old entry stays
          rw [hold] at hfind
          obtain rfl : w = fe := by simpa using hfind
          obtain ⟨b, hb, hbp, hd⟩ := hentries hsmall' a.path w hold
          exact ⟨b, hmono hb, hbp.trans hpath.symm, hd.of_extends hext⟩
      · rw [if_neg hpath] at hfind
        obtain ⟨b, hb, hbp, hd⟩ := hentries hsmall' path fe hfind
        exact ⟨b, hmono hb, hbp, hd.of_extends hext⟩
  | delete p =>
    have hext : Extends s (s.deleteFileEntry p) := ⟨List.prefix_refl _, List.prefix_refl _⟩
    refine ⟨⟨hs.aligned, hs.terminated, hs.table⟩, fun hsmall path fe hfind => ?_⟩
    have hfind' : (s.mFiles.erase p).find? path = some fe := hfind
    rw [SortedMap.find?_erase] at hfind'
    split at hfind'
    · exact absurd hfind' (by simp)
    · obtain ⟨b, hb, hbp, hd⟩ := hentries hsmall path fe hfind'
      exact ⟨b, hmono hb, hbp, hd.of_extends hext⟩

/-- **Every sequence of calls** builds such a snapshot. -/
theorem build_built {ops : List SnapshotOp} (hops : GoodOps ops) : Built ops (build ops) := by
  have hgen : ∀ (l done : List SnapshotOp) (s : Snapshot), Built done s → GoodOps l →
      Built (done ++ l) (l.foldl Snapshot.apply s) := by
    intro l
    induction l with
    | nil =>
      intro done s h _
      simpa using h
    | cons op l ih =>
      intro done s h hl
      have hop : GoodOps [op] := fun a ha =>
        hl a (by rw [List.mem_singleton.mp ha]; exact List.mem_cons_self)
      have := ih (done ++ [op]) (s.apply op) (h.apply hop)
        fun a ha => hl a (List.mem_cons_of_mem _ ha)
      rwa [List.append_assoc, List.singleton_append] at this
  exact hgen ops [] new ⟨new_wf, fun _ path fe h => by simp [new] at h⟩ hops

/-- Adding leaves what is there. -/
theorem addAll_keeps {adds : List AddArgs} : ∀ {s : Snapshot}, WF s → (∀ a ∈ adds, NulFree a) →
    WF ((adds.map SnapshotOp.add).foldl Snapshot.apply s) ∧
      Extends s ((adds.map SnapshotOp.add).foldl Snapshot.apply s) ∧
      ∀ {p fe}, s.getFileEntry p = some fe →
        ((adds.map SnapshotOp.add).foldl Snapshot.apply s).getFileEntry p = some fe := by
  induction adds with
  | nil =>
    intro s hs _
    exact ⟨hs, .refl s, fun h => h⟩
  | cons a adds ih =>
    intro s hs hadds
    rw [List.map_cons, List.foldl_cons, Snapshot.apply]
    have hrest := fun b hb => hadds b (List.mem_cons_of_mem a hb)
    cases hadd : s.addFileEntry a with
    | error e => exact ih hs hrest
    | ok s₁ =>
      obtain ⟨-, hs₁, hext₁, hfiles, -⟩ := addFileEntry_spec hs (hadds a List.mem_cons_self) hadd
      obtain ⟨hwf, hext, hkeep⟩ := ih hs₁ hrest
      refine ⟨hwf, hext₁.trans hext, fun {p fe} hp => hkeep ?_⟩
      rw [getFileEntry] at hp ⊢
      rw [hfiles, SortedMap.find?_insert]
      split
      · rename_i heq
        rw [← heq, hp]
        rfl
      · exact hp

/-- **New paths are recorded**: after adds with distinct paths that were not
there, each is found, with an entry that carries the arguments of its call. -/
theorem addAll_records {adds : List AddArgs} : ∀ {s : Snapshot}, WF s →
    (∀ a ∈ adds, NulFree a ∧ a.objectIds.length ≤ 65535) → (adds.map AddArgs.path).Nodup →
    (∀ a ∈ adds, s.getFileEntry a.path = none) → ∀ a ∈ adds,
    ∃ fe, ((adds.map SnapshotOp.add).foldl Snapshot.apply s).getFileEntry a.path = some fe ∧
      fe.offset = a.offset ∧ fe.packLength = a.packLength ∧
      (Small ((adds.map SnapshotOp.add).foldl Snapshot.apply s) →
        Describes ((adds.map SnapshotOp.add).foldl Snapshot.apply s) fe a) := by
  induction adds with
  | nil =>
    intro s _ _ _ _ a ha
    exact absurd ha List.not_mem_nil
  | cons b adds ih =>
    intro s hs hadds hnodup hnew a ha
    rw [List.map_cons, List.nodup_cons] at hnodup
    obtain ⟨s₁, hadd⟩ := addFileEntry_ok (s := s) (hadds b List.mem_cons_self).2
    obtain ⟨-, hs₁, hext₁, hfiles, hdesc⟩ := addFileEntry_spec hs (hadds b List.mem_cons_self).1 hadd
    have hrest := fun c hc => hadds c (List.mem_cons_of_mem b hc)
    have hstep : ((b :: adds).map SnapshotOp.add).foldl Snapshot.apply s =
        (adds.map SnapshotOp.add).foldl Snapshot.apply s₁ := by
      rw [List.map_cons, List.foldl_cons, Snapshot.apply, hadd]
    rw [hstep]
    rcases List.mem_cons.mp ha with rfl | ha
    · -- the entry of this call is there, and the other calls leave it
      obtain ⟨-, hext, hkeep⟩ := addAll_keeps hs₁ fun c (hc : c ∈ adds) => (hrest c hc).1
      have hfound : s₁.getFileEntry a.path = some (s.internEntry a).1 := by
        have hnone := hnew a List.mem_cons_self
        rw [getFileEntry] at hnone ⊢
        rw [hfiles, SortedMap.find?_insert, if_pos rfl, hnone]
        rfl
      exact ⟨_, hkeep hfound, rfl, rfl,
        fun hsmall => (hdesc (hsmall.of_extends hext)).of_extends hext⟩
    · -- the paths of the later calls are still free
      refine ih hs₁ hrest hnodup.2 (fun c hc => ?_) a ha
      have hne : c.path ≠ b.path := fun h => hnodup.1 (h ▸ List.mem_map_of_mem hc)
      have hnone := hnew c (List.mem_cons_of_mem b hc)
      rw [getFileEntry] at hnone ⊢
      rw [hfiles, SortedMap.find?_insert, if_neg hne, hnone]

/-- The keyed list that `load` assigns, for a built snapshot: the same entries
under their new keys. -/
theorem keyed_values {ops : List SnapshotOp} {s : Snapshot} (h : Built ops s) (hops : GoodOps ops)
    (hsmall : Small s) :
    keyed s s.mFiles.values = s.mFiles.entries.map fun e => (rekey e.1, e.2) := by
  rw [keyed, SortedMap.values, List.map_map]
  refine List.map_congr_left ?_
  rintro ⟨path, fe⟩ hmem
  obtain ⟨a, ha, rfl, hd⟩ := h.2 hsmall path fe (SortedMap.mem_entries_iff.mp hmem)
  show (s.storedPath fe, fe) = (rekey a.path, fe)
  rw [hd.storedPath, parent_append_filename (hops a ha).1]

theorem keyed_nodup {ops : List SnapshotOp} {s : Snapshot} (h : Built ops s) (hops : GoodOps ops)
    (hsmall : Small s) : ((keyed s s.mFiles.values).map Prod.fst).Nodup := by
  have hstored : ∀ e ∈ s.mFiles.entries, StoredName e.1 := by
    rintro ⟨path, fe⟩ hmem
    obtain ⟨a, ha, rfl, -⟩ := h.2 hsmall path fe (SortedMap.mem_entries_iff.mp hmem)
    exact (hops a ha).1
  rw [keyed_values h hops hsmall, List.map_map]
  have hkeys : s.mFiles.entries.map (Prod.fst ∘ fun e => (rekey e.1, e.2)) =
      (s.mFiles.entries.map Prod.fst).map rekey := by
    rw [List.map_map]
    rfl
  rw [hkeys]
  refine List.Nodup.map_on ?_ s.mFiles.nodup_keys
  intro p hp q hq heq
  obtain ⟨e, he, rfl⟩ := List.mem_map.mp hp
  obtain ⟨e', he', rfl⟩ := List.mem_map.mp hq
  exact rekey_injOn (hstored e he) (hstored e' he') heq

/-- What is loaded from a built snapshot. -/
theorem load_built {σ : Type} [InputStream σ] {R : σ → Bytes → Prop} (hR : Source R)
    {ops : List SnapshotOp} (hops : GoodOps ops) (hsmall : Small (build ops))
    (hfiles : (build ops).mFiles.size < 2 ^ 31) :
    ∃ s' : Snapshot, Reads R (load new) (snapshotBytes (build ops)) s' ∧
      s'.mStringBuffer = (build ops).mStringBuffer ∧ s'.mObjectIDs = (build ops).mObjectIDs ∧
      s'.mFiles.entries.Perm ((build ops).mFiles.entries.map fun e => (rekey e.1, e.2)) := by
  have hb := build_built hops
  have hloc : ∀ fe ∈ (build ops).mFiles.values, Located (build ops) fe := by
    intro fe hfe
    obtain ⟨path, hpath⟩ := SortedMap.mem_values_iff.mp hfe
    obtain ⟨a, -, -, hd⟩ := hb.2 hsmall path fe hpath
    exact hd.located
  obtain ⟨table, -, hreads⟩ := load_reads hR hb.1 hsmall hfiles hloc
  refine ⟨_, hreads, rfl, rfl, ?_⟩
  -- no two entries are filed under one key, so none is overwritten
  have hperm := SortedMap.assignAll_perm (keyed_nodup hb hops hsmall)
    (m := SortedMap.empty) fun e _ => rfl
  rw [SortedMap.entries_empty, List.append_nil, keyed_values hb hops hsmall] at hperm
  rwa [keyed_values hb hops hsmall]

/-- **The format round trip.**  Whatever was added and deleted, `save` writes
one byte string, `load` into a fresh snapshot consumes exactly it, and buffer,
object ids and the collection of entries come back. -/
theorem snapshot_roundTrip {ops : List SnapshotOp} (hops : GoodOps ops)
    (hsmall : Small (build ops)) (hfiles : (build ops).mFiles.size < 2 ^ 31) :
    ∃ bytes : Bytes,
      (∀ {ω : Type} [OutputStream ω] {W : ω → Bytes → Prop}, Sink W → ∀ o w, W o w →
        ∃ o', (build ops).save o = ok () o' ∧ W o' (w ++ bytes)) ∧
      ∀ {σ : Type} [InputStream σ] {R : σ → Bytes → Prop}, Source R → ∀ i r, R i (bytes ++ r) →
        ∃ s' i', load new i = ok s' i' ∧ R i' r ∧
          s'.mStringBuffer = (build ops).mStringBuffer ∧
          s'.mObjectIDs = (build ops).mObjectIDs ∧
          s'.forEachFileEntry.Perm (build ops).forEachFileEntry := by
  refine ⟨snapshotBytes (build ops), ?_, ?_⟩
  · intro ω _ W hW o w ho
    exact save_writes hW (build_built hops).1 o w ho
  · intro σ _ R hR i r hi
    obtain ⟨s', hreads, hbuf, hids, hperm⟩ := load_built hR hops hsmall hfiles
    obtain ⟨i', hload, hi'⟩ := hreads i r hi
    refine ⟨s', i', hload, hi', hbuf, hids, ?_⟩
    have hvalues := hperm.map Prod.snd
    rw [List.map_map] at hvalues
    exact hvalues

/-- A call for a one-byte file. -/
def sampleAdd (path : Bytes) : AddArgs where
  path := path
  user := ascii "root"
  group := []
  type := .RegularFile
  mode := 420
  compression := .LZMA2
  size := 1
  mtime := 0
  rollingHashBits := 0
  md5 := fillBytes 16 [1]
  offset := 0
  packLength := 0
  objectIds := [fillBytes 32 [2]]

theorem sampleAdd_nulFree {path : Bytes} (h : 0 ∉ path) : NulFree (sampleAdd path) :=
  ⟨h, by show 0 ∉ ascii "root"; decide, by show 0 ∉ ([] : Bytes); simp⟩

/-- The path `a/b`. -/
theorem normalRel_ab : NormalRel (ascii "a/b") :=
  .cons (p := ascii "a") (n := ascii "b") (.name (by constructor <;> decide)) (by constructor <;> decide)

theorem snapshot_roundTrip_sample :
    ∃ bytes : Bytes,
      (∃ o', (build [.add (sampleAdd (ascii "a/b")), .add (sampleAdd (ascii "c")),
        .delete (ascii "c")]).save TempFileStream.new = ok () o' ∧
          TempFileStream.Written o' bytes) ∧
      ∃ s' i', load new (MemoryInputStream.new bytes) = ok s' i' ∧
        s'.mStringBuffer = (build [.add (sampleAdd (ascii "a/b")), .add (sampleAdd (ascii "c")),
          .delete (ascii "c")]).mStringBuffer ∧ s'.forEachFileEntry.length = 1 := by
  have hops : GoodOps [.add (sampleAdd (ascii "a/b")), .add (sampleAdd (ascii "c")),
      .delete (ascii "c")] := by
    intro a ha
    simp only [List.mem_cons, SnapshotOp.add.injEq, reduceCtorEq, List.not_mem_nil, or_false] at ha
    rcases ha with rfl | rfl
    · exact ⟨Or.inr normalRel_ab, sampleAdd_nulFree (by decide)⟩
    · exact ⟨Or.inr (.name (by constructor <;> decide)), sampleAdd_nulFree (by decide)⟩
  obtain ⟨bytes, hsave, hload⟩ := snapshot_roundTrip hops (by constructor <;> decide) (by decide)
  obtain ⟨o', ho', hw⟩ := hsave TempFileStream.sink _ _ TempFileStream.new_written
  obtain ⟨s', i', hl, -, hbuf, -, hperm⟩ := hload (RewindableStream.source (bytes ++ []))
    (MemoryInputStream.new (bytes ++ [])) [] (MemoryInputStream.new_holds _)
  rw [List.append_nil] at hl
  exact ⟨bytes, ⟨o', ho', hw⟩, s', i', hl, hbuf, hperm.length_eq⟩

/-! ### Lookup before and after -/

/-- `save`, then `load` into a fresh snapshot. -/
def reload (s : Snapshot) : Except Fault Snapshot :=
  match s.save TempFileStream.new with
  | error e _ => .error e
  | ok _ o =>
    match o.inputStream with
    | none => .error .undefined
    | some i =>
      match load new i with
      | error e _ => .error e
      | ok s' _ => .ok s'

theorem reload_eq {s s' : Snapshot} (hs : WF s)
    (h : Reads (RewindableStream.Rep (snapshotBytes s) : TempInputStream → Bytes → Prop) (load new)
      (snapshotBytes s) s') : s.reload = .ok s' := by
  obtain ⟨o, hsave, ho⟩ := save_writes TempFileStream.sink hs _ _ TempFileStream.new_written
  obtain ⟨i, hstream, hi⟩ := TempFileStream.inputStream_holds ho
  rw [List.nil_append] at hi
  obtain ⟨i', hload, -⟩ := h i [] (by rwa [List.append_nil])
  simp only [reload, hsave, hstream, hload]

/-- The calls that were accepted. -/
def accepted (adds : List AddArgs) : List AddArgs :=
  adds.filter fun a => a.objectIds.length ≤ 65535

/-- An accepted call adds its path. -/
theorem apply_add_isSome {s : Snapshot} {a : AddArgs} (hle : a.objectIds.length ≤ 65535) {p : Bytes} :
    ((s.apply (.add a)).mFiles.find? p).isSome ↔ (s.mFiles.find? p).isSome ∨ a.path = p := by
  rw [Snapshot.apply, addFileEntry, if_neg (by omega)]
  have hfiles : (s.internEntry a).2.mFiles = s.mFiles := internEntry_mFiles s a
  show (((s.internEntry a).2.mFiles.insert a.path (s.internEntry a).1).find? p).isSome ↔ _
  rw [hfiles, SortedMap.find?_insert]
  by_cases hp : p = a.path
  · simp [hp]
  · rw [if_neg hp]
    simp [Ne.symm hp]

/-- The paths of a snapshot built by adds alone. -/
theorem getFileEntry_build_isSome (adds : List AddArgs) (p : Bytes) :
    ((build (adds.map .add)).getFileEntry p).isSome ↔ ∃ a ∈ accepted adds, a.path = p := by
  have hgen : ∀ (l : List AddArgs) (s : Snapshot),
      (((l.map SnapshotOp.add).foldl Snapshot.apply s).mFiles.find? p).isSome ↔
        (s.mFiles.find? p).isSome ∨ ∃ a ∈ accepted l, a.path = p := by
    intro l
    induction l with
    | nil =>
      intro s
      simp [accepted]
    | cons a l ih =>
      intro s
      have hcons : accepted (a :: l) =
          if a.objectIds.length ≤ 65535 then a :: accepted l else accepted l := by
        simp [accepted, List.filter_cons]
      rw [List.map_cons, List.foldl_cons, ih, hcons]
      by_cases hle : a.objectIds.length ≤ 65535
      · rw [apply_add_isSome hle, if_pos hle]
        simp only [List.mem_cons, exists_eq_or_imp, or_assoc]
      · have hsame : s.apply (.add a) = s := by
          rw [Snapshot.apply, addFileEntry, if_pos (by omega)]
        rw [hsame, if_neg hle]
  have h := hgen adds new
  rw [show (new : Snapshot).mFiles.find? p = none from rfl] at h
  simp only [Option.isSome_none, Bool.false_eq_true, false_or] at h
  exact h

/-- Which lookups a reload changes: those of a path without a separator that
was added, with or without a separator in front. -/
def Moved (adds : List AddArgs) (p : Bytes) : Prop :=
  ∃ a ∈ accepted adds, separator ∉ a.path ∧ (p = a.path ∨ p = separator :: a.path)

/-- Lookup in a snapshot whose entries were moved to their new keys. -/
theorem find?_rekeyed {m m' : SortedMap Bytes FileEntry}
    (h : m'.entries.Perm (m.entries.map fun e => (rekey e.1, e.2))) (q : Bytes) (fe : FileEntry) :
    m'.find? q = some fe ↔ ∃ p, m.find? p = some fe ∧ rekey p = q := by
  rw [← SortedMap.mem_entries_iff, h.mem_iff, List.mem_map]
  constructor
  · rintro ⟨⟨p, fe'⟩, hmem, heq⟩
    obtain ⟨hq, rfl⟩ := Prod.mk.inj heq
    exact ⟨p, SortedMap.mem_entries_iff.mp hmem, hq⟩
  · rintro ⟨p, hp, rfl⟩
    exact ⟨(p, fe), SortedMap.mem_entries_iff.mpr hp, rfl⟩

/-- The lookups agree exactly at the keys that are not moved. -/
theorem find?_rekeyed_eq_iff {m m' : SortedMap Bytes FileEntry}
    (h : m'.entries.Perm (m.entries.map fun e => (rekey e.1, e.2)))
    (hm : ∀ p, (m.find? p).isSome → StoredName p) (q : Bytes) :
    m'.find? q = m.find? q ↔
      ¬ ∃ p, (m.find? p).isSome ∧ separator ∉ p ∧ (q = p ∨ q = separator :: p) := by
  constructor
  · rintro heq ⟨p, hp, hsep, rfl | rfl⟩
    · -- after the move no key is free of separators
      obtain ⟨fe, hfe⟩ := Option.isSome_iff_exists.mp hp
      obtain ⟨p', -, hp'⟩ := (find?_rekeyed h q fe).mp (heq.trans hfe)
      rw [rekey] at hp'
      split at hp'
      · rename_i hmem
        exact hsep (hp' ▸ hmem)
      · exact hsep (hp' ▸ List.mem_cons_self)
    · -- before the move no key starts with a separator
      obtain ⟨fe, hfe⟩ := Option.isSome_iff_exists.mp hp
      have hnew : m'.find? (separator :: p) = some fe :=
        (find?_rekeyed h _ fe).mpr ⟨p, hfe, by rw [rekey, if_neg hsep]⟩
      rw [heq] at hnew
      exact (hm _ (by rw [hnew]; rfl)).head_ne rfl
  · intro hnot
    refine Option.ext fun fe => ?_
    rw [find?_rekeyed h q fe]
    -- a key with a separator is where it was
    constructor
    · rintro ⟨p, hp, hq⟩
      rw [rekey] at hq
      split at hq
      · rwa [← hq]
      · rename_i hsep
        exact absurd ⟨p, by rw [hp]; rfl, hsep, Or.inr hq.symm⟩ hnot
    · intro hq
      have hsep : separator ∈ q := by
        by_contra hsep
        exact hnot ⟨q, by rw [hq]; rfl, hsep, Or.inl rfl⟩
      exact ⟨q, hq, if_pos hsep⟩

/-- **When a reload keeps a lookup.**  For a snapshot built by adds, the entry
found under `p` after `save` and `load` is the one found before exactly when
`p` is neither the path of a file without a parent nor such a path behind a
separator; so all lookups are stable exactly when every added path has a
parent. -/
theorem getFileEntry_load_iff {adds : List AddArgs}
    (hadds : ∀ a ∈ adds, StoredName a.path ∧ NulFree a) (hsmall : Small (build (adds.map .add)))
    (hfiles : (build (adds.map .add)).mFiles.size < 2 ^ 31) :
    ∃ s', (build (adds.map .add)).reload = .ok s' ∧
      (∀ p, s'.getFileEntry p = (build (adds.map .add)).getFileEntry p ↔ ¬ Moved adds p) ∧
      ((∀ p, s'.getFileEntry p = (build (adds.map .add)).getFileEntry p) ↔
        ∀ a ∈ accepted adds, separator ∈ a.path) := by
  have hops : GoodOps (adds.map .add) := by
    intro a ha
    obtain ⟨b, hb, heq⟩ := List.mem_map.mp ha
    rw [SnapshotOp.add.injEq] at heq
    exact heq ▸ hadds b hb
  obtain ⟨s', hreads, -, -, hperm⟩ := load_built
    (RewindableStream.source (snapshotBytes (build (adds.map .add))) (σ := TempInputStream))
    hops hsmall hfiles
  have hstored : ∀ p, ((build (adds.map .add)).mFiles.find? p).isSome → StoredName p := by
    intro p hp
    obtain ⟨a, ha, rfl⟩ := (getFileEntry_build_isSome adds p).mp hp
    exact (hadds a (List.mem_of_mem_filter ha)).1
  have hiff : ∀ p, s'.getFileEntry p = (build (adds.map .add)).getFileEntry p ↔ ¬ Moved adds p := by
    intro p
    refine (find?_rekeyed_eq_iff hperm hstored p).trans (not_congr ?_)
    constructor
    · rintro ⟨q, hq, hrest⟩
      obtain ⟨a, ha, rfl⟩ := (getFileEntry_build_isSome adds q).mp hq
      exact ⟨a, ha, hrest⟩
    · rintro ⟨a, ha, hrest⟩
      exact ⟨a.path, (getFileEntry_build_isSome adds a.path).mpr ⟨a, ha, rfl⟩, hrest⟩
  refine ⟨s', reload_eq (build_built hops).1 hreads, hiff, ?_⟩
  constructor
  · intro hall a ha
    by_contra hsep
    exact (hiff a.path).mp (hall a.path) ⟨a, ha, hsep, Or.inl rfl⟩
  · intro hall p
    rw [hiff]
    rintro ⟨a, ha, hsep, -⟩
    exact hsep (hall a ha)

/-- A snapshot with the one path `a/b` keeps its lookups. -/
theorem getFileEntry_load_iff_parent :
    ∃ s', (build [.add (sampleAdd (ascii "a/b"))]).reload = .ok s' ∧
      ∀ p, s'.getFileEntry p = (build [.add (sampleAdd (ascii "a/b"))]).getFileEntry p := by
  have hadds : ∀ a ∈ [sampleAdd (ascii "a/b")], StoredName a.path ∧ NulFree a := by
    intro a ha
    rw [List.mem_singleton.mp ha]
    exact ⟨Or.inr normalRel_ab, sampleAdd_nulFree (by decide)⟩
  obtain ⟨s', hreload, -, hall⟩ :=
    getFileEntry_load_iff hadds (by constructor <;> decide) (by decide)
  refine ⟨s', hreload, hall.mpr ?_⟩
  intro a ha
  rw [List.mem_singleton.mp (List.mem_of_mem_filter ha)]
  decide

/-- **A file without a parent is not found again**: `c` is stored under `c`
and after a reload only found under `/c`. -/
theorem getFileEntry_load_moved :
    ∃ s', (build [.add (sampleAdd (ascii "c"))]).reload = .ok s' ∧
      ((build [.add (sampleAdd (ascii "c"))]).getFileEntry (ascii "c")).isSome = true ∧
      s'.getFileEntry (ascii "c") = none ∧
      (build [.add (sampleAdd (ascii "c"))]).getFileEntry (ascii "/c") = none ∧
      (s'.getFileEntry (ascii "/c")).isSome = true := by
  have hops : GoodOps [.add (sampleAdd (ascii "c"))] := by
    intro a ha
    rw [List.mem_singleton, SnapshotOp.add.injEq] at ha
    subst ha
    exact ⟨Or.inr (.name (by constructor <;> decide)), sampleAdd_nulFree (by decide)⟩
  obtain ⟨s', hreads, -, -, hperm⟩ := load_built
    (RewindableStream.source (snapshotBytes (build [.add (sampleAdd (ascii "c"))]))
      (σ := TempInputStream)) hops (by constructor <;> decide) (by decide)
  refine ⟨s', reload_eq (build_built hops).1 hreads, by decide, ?_, by decide, ?_⟩
  · rw [getFileEntry, Option.eq_none_iff_forall_ne_some]
    intro fe hfe
    obtain ⟨p, -, hp⟩ := (find?_rekeyed hperm _ fe).mp hfe
    rw [rekey] at hp
    split at hp
    · rename_i hsep
      rw [hp] at hsep
      exact absurd hsep (by decide)
    · exact absurd (List.cons.inj hp).1 (by decide)
  · obtain ⟨fe, hfe⟩ := Option.isSome_iff_exists.mp
      (show ((build [.add (sampleAdd (ascii "c"))]).mFiles.find? (ascii "c")).isSome = true by decide)
    rw [getFileEntry, (find?_rekeyed hperm (ascii "/c") fe).mpr ⟨ascii "c", hfe, by decide⟩]
    rfl

/-! ### Histories of any length -/

/-- The snapshots that additions, deletions and reloads lead to, with every
entry made on the way and the call it was made by. -/
inductive Reachable : Snapshot → List (FileEntry × AddArgs) → Prop
  | new : Reachable new []
  | add {s s' : Snapshot} {made : List (FileEntry × AddArgs)} {a : AddArgs} (h : Reachable s made)
      (ha : NulFree a) (hadd : s.addFileEntry a = .ok s') (hsmall : Small s')
      (hfiles : s'.mFiles.size < 2 ^ 31) : Reachable s' (((s.internEntry a).1, a) :: made)
  | delete {s : Snapshot} {made : List (FileEntry × AddArgs)} (h : Reachable s made)
      (path : Bytes) : Reachable (s.deleteFileEntry path) made
  | reload {s s' : Snapshot} {made : List (FileEntry × AddArgs)} (h : Reachable s made)
      (hload : s.reload = .ok s') : Reachable s' made

/-- What holds of every reachable snapshot. -/
structure Inv (s : Snapshot) (made : List (FileEntry × AddArgs)) : Prop where
  wf : WF s
  small : Small s
  files : s.mFiles.size < 2 ^ 31
  describes : ∀ fe a, (fe, a) ∈ made → Describes s fe a
  origin : ∀ key fe, s.mFiles.find? key = some fe → ∃ a, (fe, a) ∈ made ∧
    (key = a.path ∨ key = parent_path a.path ++ separator :: filename a.path)

theorem size_erase_le (m : SortedMap Bytes FileEntry) (p : Bytes) : (m.erase p).size ≤ m.size :=
  List.length_filter_le _ _

/-- Loading a snapshot whose entries describe their calls. -/
theorem Inv.load_reads {σ : Type} [InputStream σ] {R : σ → Bytes → Prop} (hR : Source R)
    {s : Snapshot} {made : List (FileEntry × AddArgs)} (h : Inv s made) :
    ∃ table, TableOk s.mStringBuffer table ∧
      Reads R (load Snapshot.new) (snapshotBytes s) ⟨table, s.mStringBuffer, s.mObjectIDs,
        SortedMap.empty.assignAll (keyed s s.mFiles.values)⟩ := by
  refine Snapshot.load_reads hR h.wf h.small h.files ?_
  intro fe hfe
  obtain ⟨key, hkey⟩ := SortedMap.mem_values_iff.mp hfe
  obtain ⟨a, ha, -⟩ := h.origin key fe hkey
  exact (h.describes fe a ha).located

/-- The invariant after an addition. -/
theorem Inv.add {s s' : Snapshot} {made : List (FileEntry × AddArgs)} {a : AddArgs}
    (h : Inv s made) (ha : NulFree a) (hadd : s.addFileEntry a = .ok s') (hsmall : Small s')
    (hfiles : s'.mFiles.size < 2 ^ 31) : Inv s' (((s.internEntry a).1, a) :: made) := by
  obtain ⟨-, hwf, hext, hmade, hdesc⟩ := addFileEntry_spec h.wf ha hadd
  refine ⟨hwf, hsmall, hfiles, ?_, ?_⟩
  · intro fe b hb
    rcases List.mem_cons.mp hb with heq | hb
    · obtain ⟨rfl, rfl⟩ := Prod.mk.inj heq
      exact hdesc hsmall
    · exact (h.describes fe b hb).of_extends hext
  · intro key fe hkey
    rw [hmade, SortedMap.find?_insert] at hkey
    by_cases hp : key = a.path
    · rw [if_pos hp] at hkey
      cases hold : s.mFiles.find? a.path with
      | none =>
        rw [hold] at hkey
        obtain rfl : (s.internEntry a).1 = fe := by simpa using hkey
        exact ⟨a, List.mem_cons_self, Or.inl hp⟩
      | some w =>
        rw [hold] at hkey
        obtain rfl : w = fe := by simpa using hkey
        obtain ⟨b, hb, horigin⟩ := h.origin a.path w hold
        exact ⟨b, List.mem_cons_of_mem _ hb, by rwa [hp]⟩
    · rw [if_neg hp] at hkey
      obtain ⟨b, hb, horigin⟩ := h.origin key fe hkey
      exact ⟨b, List.mem_cons_of_mem _ hb, horigin⟩

/-- The invariant after a deletion. -/
theorem Inv.delete {s : Snapshot} {made : List (FileEntry × AddArgs)} (h : Inv s made)
    (path : Bytes) : Inv (s.deleteFileEntry path) made := by
  have hext : Extends s (s.deleteFileEntry path) := ⟨List.prefix_refl _, List.prefix_refl _⟩
  refine ⟨⟨h.wf.aligned, h.wf.terminated, h.wf.table⟩, h.small,
    lt_of_le_of_lt (size_erase_le s.mFiles path) h.files, ?_, ?_⟩
  · intro fe a ha
    exact (h.describes fe a ha).of_extends hext
  · intro key fe hkey
    have hkey' : (s.mFiles.erase path).find? key = some fe := hkey
    rw [SortedMap.find?_erase] at hkey'
    split at hkey'
    · exact absurd hkey' (by simp)
    · exact h.origin key fe hkey'

/-- A reload succeeds and keeps the invariant: the scan finds its own strings,
and every entry comes back under a key of its own call. -/
theorem Inv.reload {s : Snapshot} {made : List (FileEntry × AddArgs)} (h : Inv s made) :
    ∃ s', s.reload = .ok s' ∧ Inv s' made := by
  obtain ⟨table, htable, hreads⟩ := h.load_reads
    (RewindableStream.source (snapshotBytes s) (σ := TempInputStream))
  refine ⟨_, reload_eq h.wf hreads, ⟨h.wf.aligned, h.wf.terminated, htable⟩, h.small, ?_, ?_, ?_⟩
  · refine lt_of_le_of_lt ?_ h.files
    have hsize := SortedMap.size_assignAll_le (keyed s s.mFiles.values)
      (m := (SortedMap.empty : SortedMap Bytes FileEntry))
    rw [keyed, SortedMap.values, List.length_map, List.length_map] at hsize
    simpa [keyed, SortedMap.values, SortedMap.size] using hsize
  · intro fe a ha
    exact (h.describes fe a ha).of_extends ⟨List.prefix_refl _, List.prefix_refl _⟩
  · intro key fe hkey
    have hmem := SortedMap.mem_of_find?_assignAll hkey
    rcases hmem with hmem | hempty
    · obtain ⟨fe', hfe', heq⟩ := List.mem_map.mp hmem
      obtain ⟨rfl, rfl⟩ := Prod.mk.inj heq
      obtain ⟨key, hkey⟩ := SortedMap.mem_values_iff.mp hfe'
      obtain ⟨a, ha, -⟩ := h.origin key fe' hkey
      exact ⟨a, ha, Or.inr (h.describes fe' a ha).storedPath⟩
    · exact absurd hempty (by simp)

/-- **The invariant holds after every history.** -/
theorem Reachable.inv {s : Snapshot} {made : List (FileEntry × AddArgs)} (h : Reachable s made) :
    Inv s made := by
  induction h with
  | new =>
    refine ⟨new_wf, by constructor <;> decide, by decide, ?_, ?_⟩
    · intro fe a ha
      exact absurd ha (by simp)
    · intro key fe hkey
      simp [Snapshot.new] at hkey
  | add _ ha hadd hsmall hfiles ih => exact ih.add ha hadd hsmall hfiles
  | delete _ path ih => exact ih.delete path
  | @reload s s' made _ hload ih =>
    obtain ⟨s'', hload', hinv⟩ := ih.reload
    rw [hload, Except.ok.injEq] at hload'
    rwa [hload']

/-- What an entry is made of, read back through its indices. -/
def Resolves (s : Snapshot) (fe : FileEntry) (a : AddArgs) : Prop :=
  s.indexToString (toInt fe.nameIndex) = .ok (filename a.path) ∧
    s.indexToString (toInt fe.pathIndex) = .ok (parent_path a.path) ∧
    s.indexToString (toInt fe.userIndex) = .ok a.user ∧
    s.indexToString (toInt fe.groupIndex) = .ok a.group ∧
    (s.mObjectIDs.drop fe.objectIdIndex.toNat).take fe.objectCount.toNat = a.objectIds

theorem Inv.resolves {s : Snapshot} {made : List (FileEntry × AddArgs)} (h : Inv s made)
    {fe : FileEntry} {a : AddArgs} (hmem : (fe, a) ∈ made) : Resolves s fe a := by
  have hd := h.describes fe a hmem
  exact ⟨indexToString_of_cstrAt h.small.1 hd.name, indexToString_of_cstrAt h.small.1 hd.parent,
    indexToString_of_cstrAt h.small.1 hd.user, indexToString_of_cstrAt h.small.1 hd.group, hd.ids⟩

/-- **The representation invariant.**  In every reachable snapshot the string
table names its strings; every entry of the file table was made by some call,
stands under a key of that call and resolves to what the call was given; so
does every entry ever made, whatever happened since; interning one more string
keeps all bindings and gives no other string's position; and a reload
succeeds. -/
theorem reachable_resolves {s : Snapshot} {made : List (FileEntry × AddArgs)}
    (h : Reachable s made) :
    (∀ str i, s.mStringTable.find? str = some i → s.indexToString i = .ok str) ∧
    (∀ key fe, s.mFiles.find? key = some fe → ∃ a, (fe, a) ∈ made ∧
      (key = a.path ∨ key = parent_path a.path ++ separator :: filename a.path) ∧
      Resolves s fe a) ∧
    (∀ fe a, (fe, a) ∈ made → Resolves s fe a) ∧
    (∀ str, 0 ∉ str →
      (∀ str' j, s.mStringTable.find? str' = some j →
        (s.insertStringTable str).2.mStringTable.find? str' = some j ∧
          (str' ≠ str → j ≠ (s.insertStringTable str).1)) ∧
      ∀ i old, cstrAt s.mStringBuffer i = some old →
        cstrAt (s.insertStringTable str).2.mStringBuffer i = some old) ∧
    ∃ s', s.reload = .ok s' := by
  have hinv := h.inv
  refine ⟨?_, ?_, fun fe a hmem => hinv.resolves hmem, ?_, ?_⟩
  · intro str i hi
    have hstr := hinv.wf.table hi
    have hlt := lt_length_of_cstrAt hstr
    rw [indexToString, if_neg (by omega), Int.toNat_natCast, hstr]
  · intro key fe hkey
    obtain ⟨a, ha, horigin⟩ := hinv.origin key fe hkey
    exact ⟨a, ha, horigin, hinv.resolves ha⟩
  · intro str hstr
    obtain ⟨i, s', hins, -, hext, -, -, hi⟩ := insertStringTable_spec hinv.wf hstr
    rw [hins]
    refine ⟨?_, fun j old hold => cstrAt_mono hext.1 hold⟩
    intro str' j hj
    have hj' := cstrAt_mono hext.1 (hinv.wf.table hj)
    refine ⟨?_, ?_⟩
    · -- a string that is interned is not interned again
      rw [insertStringTable] at hins
      cases hfind : s.mStringTable.find? str with
      | some i' =>
        rw [hfind] at hins
        rw [← (Prod.mk.inj hins).2]
        exact hj
      | none =>
        rw [hfind] at hins
        have hne : str' ≠ str := by
          rintro rfl
          rw [hfind] at hj
          exact absurd hj (by simp)
        rw [← (Prod.mk.inj hins).2]
        show (s.mStringTable.assign str _).find? str' = some j
        rw [SortedMap.find?_assign, if_neg hne]
        exact hj
    · rintro hne rfl
      rw [hi, Option.some.injEq] at hj'
      exact hne hj'.symm
  · obtain ⟨s', hs', -⟩ := hinv.reload
    exact ⟨s', hs'⟩

/-- The file `c`, added, saved and loaded. -/
theorem reachable_resolves_reloaded :
    ∃ s', (build [.add (sampleAdd (ascii "c"))]).reload = .ok s' ∧
      Resolves s' ((Snapshot.new.internEntry (sampleAdd (ascii "c"))).1)
        (sampleAdd (ascii "c")) := by
  have hreach : Reachable (build [.add (sampleAdd (ascii "c"))])
      [((Snapshot.new.internEntry (sampleAdd (ascii "c"))).1, sampleAdd (ascii "c"))] :=
    .add .new (sampleAdd_nulFree (by decide)) rfl (by constructor <;> decide) (by decide)
  obtain ⟨-, -, -, -, s', hs'⟩ := reachable_resolves hreach
  obtain ⟨-, -, hres, -, -⟩ := reachable_resolves (hreach.reload hs')
  exact ⟨s', hs', hres _ _ List.mem_cons_self⟩

end Snapshot

end Nebula
