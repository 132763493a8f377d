/-
`Snapshot`: the file table, the string table and the object table.

Names, parents, users and groups are interned in one buffer of NUL-terminated
strings, padded to multiples of four; an entry holds positions in this buffer
and a range of the list of object ids.  Both only ever grow at their end
(`Extends`), so whatever an entry resolved to it still resolves to
(`Extends.resolve`).  `addFileEntry_spec` says what a call adds.
-/
import NebulaBackup.SortedMap
import NebulaBackup.Path
import NebulaBackup.Crypto

namespace Nebula

open Nebula.Path

/-- `FileType` of `FileInfo.h`. -/
inductive FileType
  | FileNotFound
  | RegularFile
  | Directory
  | CharacterDevice
  | BlockDevice
  | Fifo
  | SymbolicLink
  | Socket
deriving DecidableEq, Repr

/-- The enumerator's value. -/
def FileType.toByte : FileType → UInt8
  | FileNotFound => 0
  | RegularFile => 1
  | Directory => 2
  | CharacterDevice => 3
  | BlockDevice => 4
  | Fifo => 5
  | SymbolicLink => 6
  | Socket => 7

/-- `Snapshot::ObjectID`. -/
abbrev ObjectID := Digest 32

/-- `Snapshot::FileEntry`. -/
structure FileEntry where
  nameIndex : UInt32
  pathIndex : UInt32
  userIndex : UInt32
  groupIndex : UInt32
  mode : UInt16
  compression : UInt8
  size : UInt64
  mtime : Int64
  type : UInt8
  rollingHashBits : UInt8
  objectCount : UInt16
  md5 : Digest 16
  offset : UInt32
  packLength : UInt32
  objectIdIndex : UInt32
deriving DecidableEq

/-- `Snapshot`. -/
structure Snapshot where
  mStringTable : SortedMap Bytes ℕ
  mStringBuffer : Bytes
  mObjectIDs : List ObjectID
  mFiles : SortedMap Bytes FileEntry

/-- The arguments of `addFileEntry`; `objectIds` holds `objectCount` ids. -/
structure AddArgs where
  path : Bytes
  user : Bytes
  group : Bytes
  type : FileType
  mode : UInt16
  compression : CompressionType
  size : UInt64
  mtime : Int64
  rollingHashBits : UInt8
  md5 : Digest 16
  offset : UInt32
  packLength : UInt32
  objectIds : List ObjectID

/-- The C string at position `i` of a buffer; `none` when no NUL follows. -/
def cstrAt (buf : Bytes) (i : ℕ) : Option Bytes :=
  if 0 ∈ buf.drop i then some ((buf.drop i).takeWhile (· ≠ 0)) else none

/-- A C string and its NUL. -/
theorem takeWhile_nul {l : Bytes} (h : 0 ∈ l) : ∃ rest, l = l.takeWhile (· ≠ 0) ++ 0 :: rest := by
  induction l with
  | nil => exact absurd h List.not_mem_nil
  | cons b l ih =>
    by_cases hb : b = 0
    · exact ⟨l, by simp [hb]⟩
    · obtain ⟨rest, hrest⟩ := ih ((List.mem_cons.mp h).resolve_left (Ne.symm hb))
      refine ⟨rest, ?_⟩
      rw [List.takeWhile_cons_of_pos (by simpa using hb), List.cons_append, ← hrest]

/-- The conversion of a `uint32_t` to `int`. -/
def toInt (n : UInt32) : ℤ := n.toInt32.toInt

/-- The conversion keeps a value in the range of `int`. -/
theorem toInt_of_lt {n : UInt32} (h : n.toNat < 2 ^ 31) : toInt n = n.toNat := by
  rw [toInt, Int32.toInt, UInt32.toBitVec_toInt32, BitVec.toInt_eq_toNat_of_lt]
  · rfl
  · show 2 * n.toNat < 2 ^ 32
    omega

/-- A larger one becomes negative. -/
theorem toInt_neg {n : UInt32} (h : 2 ^ 31 ≤ n.toNat) : toInt n < 0 := by
  have hlt : n.toNat < 2 ^ 32 := n.toNat_lt
  rw [toInt, Int32.toInt, UInt32.toBitVec_toInt32, BitVec.toInt_eq_toNat_cond]
  rw [if_neg (show ¬ 2 * n.toBitVec.toNat < 2 ^ 32 by
    show ¬ 2 * n.toNat < 2 ^ 32
    omega)]
  show (n.toNat : ℤ) - (2 ^ 32 : ℕ) < 0
  omega

namespace Snapshot

/-- `Snapshot()`. -/
def new : Snapshot := ⟨.empty, [], [], .empty⟩

/-- `insertStringTable`: the position of the string, and the snapshot in which
it is interned. -/
def insertStringTable (s : Snapshot) (str : Bytes) : ℕ × Snapshot :=
  match s.mStringTable.find? str with
  | some i => (i, s)
  | none =>
    (s.mStringBuffer.length,
      { s with
        mStringBuffer := s.mStringBuffer ++ str ++
          List.replicate ((s.mStringBuffer.length + (str.length + 1) + 3) / 4 * 4 -
            s.mStringBuffer.length - str.length) 0
        mStringTable := s.mStringTable.assign str s.mStringBuffer.length })

/-- `addObjectIds`. -/
def addObjectIds (s : Snapshot) (objectIds : List ObjectID) : ℕ × Snapshot :=
  (s.mObjectIDs.length, { s with mObjectIDs := s.mObjectIDs ++ objectIds })

/-- The entry that `addFileEntry` fills in. -/
def makeEntry (a : AddArgs) (nameIndex pathIndex userIndex groupIndex objectIdIndex : ℕ) :
    FileEntry where
  nameIndex := .ofNat nameIndex
  pathIndex := .ofNat pathIndex
  userIndex := .ofNat userIndex
  groupIndex := .ofNat groupIndex
  mode := a.mode
  compression := a.compression.toByte
  size := a.size
  mtime := a.mtime
  type := a.type.toByte
  rollingHashBits := a.rollingHashBits
  objectCount := .ofNat a.objectIds.length
  md5 := a.md5
  offset := a.offset
  packLength := a.packLength
  objectIdIndex := .ofNat objectIdIndex

/-- The body of `addFileEntry` before the entry is inserted: the entry, and
the snapshot with its strings and ids. -/
def internEntry (s : Snapshot) (a : AddArgs) : FileEntry × Snapshot :=
  match s.insertStringTable (filename a.path) with
  | (nameIndex, s) =>
    match s.insertStringTable (parent_path a.path) with
    | (pathIndex, s) =>
      match s.insertStringTable a.user with
      | (userIndex, s) =>
        match s.insertStringTable a.group with
        | (groupIndex, s) =>
          match s.addObjectIds a.objectIds with
          | (objectIdIndex, s) =>
            (makeEntry a nameIndex pathIndex userIndex groupIndex objectIdIndex, s)

/-- `addFileEntry`.  `std::map::insert` keeps an entry that is already there. -/
def addFileEntry (s : Snapshot) (a : AddArgs) : Except Fault Snapshot :=
  if a.objectIds.length > 65535 then
    .error (.thrown .InvalidArgumentException "Too many objects. Try a bigger block size.")
  else
    match s.internEntry a with
    | (fe, s) => .ok { s with mFiles := s.mFiles.insert a.path fe }

/-- `getFileEntry`. -/
def getFileEntry (s : Snapshot) (path : Bytes) : Option FileEntry := s.mFiles.find? path

/-- `forEachFileEntry(callback)`: the entries in the order of the calls. -/
def forEachFileEntry (s : Snapshot) : List FileEntry := s.mFiles.values

/-- `deleteFileEntry`. -/
def deleteFileEntry (s : Snapshot) (path : Bytes) : Snapshot :=
  { s with mFiles := s.mFiles.erase path }

/-- What loading makes of a key: a path without a separator gets one in
front. -/
def rekey (p : Bytes) : Bytes := if separator ∈ p then p else separator :: p

/-- `indexToString`. -/
def indexToString (s : Snapshot) (n : ℤ) : Except Fault Bytes :=
  if n < 0 ∨ (s.mStringBuffer.length : ℤ) ≤ n then
    .error (.thrown .IndexOutOfBoundException "Index is out of bound.")
  else
    match cstrAt s.mStringBuffer n.toNat with
    | none => .error .undefined
    | some str => .ok str

/-- `indexToObjectID`: the ids from the given one on. -/
def indexToObjectID (s : Snapshot) (n : ℤ) : Except Fault (List ObjectID) :=
  if n < 0 ∨ (s.mObjectIDs.length : ℤ) ≤ n then
    .error (.thrown .IndexOutOfBoundException "Index is out of bound.")
  else .ok (s.mObjectIDs.drop n.toNat)

end Snapshot

/-! ### C strings in a buffer -/

/-- A string is found where it was written. -/
theorem cstrAt_append {str : Bytes} (hstr : 0 ∉ str) (a b : Bytes) :
    cstrAt (a ++ str ++ 0 :: b) a.length = some str := by
  rw [cstrAt, List.append_assoc, List.drop_left, if_pos (by simp)]
  have hall : ∀ x ∈ str, decide (x ≠ 0) = true := by
    intro x hx
    rw [decide_eq_true_iff]
    rintro rfl
    exact hstr hx
  rw [List.takeWhile_append_of_pos hall]
  simp

/-- A string ends before the buffer does. -/
theorem lt_of_cstrAt {buf : Bytes} {i : ℕ} {str : Bytes} (h : cstrAt buf i = some str) :
    i + str.length < buf.length := by
  rw [cstrAt] at h
  split at h
  · rename_i hmem
    obtain rfl := Option.some.inj h
    -- the NUL that ends the string is not part of it
    have hlt : ((buf.drop i).takeWhile (· ≠ 0)).length < (buf.drop i).length := by
      refine lt_of_le_of_ne (List.takeWhile_prefix _).length_le ?_
      intro heq
      have hsame := (List.takeWhile_prefix (p := fun b : UInt8 => decide (b ≠ 0))
        (l := buf.drop i)).eq_of_length heq
      rw [← hsame] at hmem
      simpa using List.mem_takeWhile_imp hmem
    rw [List.length_drop] at hlt
    omega
  · exact absurd h (by simp)

/-- A string that is there stays when the buffer grows at its end. -/
theorem cstrAt_mono {buf buf' : Bytes} (h : buf <+: buf') {i : ℕ} {str : Bytes}
    (hi : cstrAt buf i = some str) : cstrAt buf' i = some str := by
  obtain ⟨more, rfl⟩ := h
  have hlt := lt_of_cstrAt hi
  rw [cstrAt] at hi ⊢
  split at hi
  · rename_i hmem
    rw [Option.some.injEq] at hi
    rw [List.drop_append_of_le_length (by omega), if_pos (List.mem_append_left _ hmem)]
    rw [← hi, Option.some.injEq]
    -- the NUL that ends the string is before the new bytes
    have hne : ((buf.drop i).takeWhile (· ≠ 0)).length ≠ (buf.drop i).length := by
      rw [hi, List.length_drop]
      omega
    rw [List.takeWhile_append, if_neg hne]
  · exact absurd hi (by simp)

/-- Every position of the buffer lies in a C string. -/
def Terminated (buf : Bytes) : Prop := ∀ i < buf.length, 0 ∈ buf.drop i

theorem terminated_append_zeros (a : Bytes) (k : ℕ) : Terminated (a ++ List.replicate (k + 1) 0) := by
  intro i hi
  by_cases hle : i ≤ a.length
  · rw [List.drop_append_of_le_length hle]
    exact List.mem_append_right _ (by simp)
  · rw [List.length_append, List.length_replicate] at hi
    rw [List.drop_append, List.drop_eq_nil_of_le (by omega), List.nil_append, List.drop_replicate]
    exact List.mem_replicate.mpr ⟨by omega, rfl⟩

theorem Terminated.cstrAt {buf : Bytes} (h : Terminated buf) {i : ℕ} (hi : i < buf.length) :
    cstrAt buf i = some ((buf.drop i).takeWhile (· ≠ 0)) := by
  rw [Nebula.cstrAt, if_pos (h i hi)]

theorem lt_length_of_cstrAt {buf : Bytes} {i : ℕ} {str : Bytes} (h : cstrAt buf i = some str) :
    i < buf.length := by
  have hlt := lt_of_cstrAt h
  omega

namespace Snapshot

/-! ### What the operations keep -/

/-- The representation invariant of the string table. -/
structure WF (s : Snapshot) : Prop where
  aligned : s.mStringBuffer.length % 4 = 0
  terminated : Terminated s.mStringBuffer
  table : ∀ {str i}, s.mStringTable.find? str = some i → cstrAt s.mStringBuffer i = some str

/-- Buffer and ids of `s` are the beginning of those of `s'`. -/
def Extends (s s' : Snapshot) : Prop :=
  s.mStringBuffer <+: s'.mStringBuffer ∧ s.mObjectIDs <+: s'.mObjectIDs

theorem Extends.refl (s : Snapshot) : Extends s s := ⟨List.prefix_refl _, List.prefix_refl _⟩

theorem Extends.trans {s s' s'' : Snapshot} (h : Extends s s') (h' : Extends s' s'') :
    Extends s s'' := ⟨h.1.trans h'.1, h.2.trans h'.2⟩

/-- The tables are small enough for the `int` indices. -/
def Small (s : Snapshot) : Prop :=
  s.mStringBuffer.length < 2 ^ 31 ∧ s.mObjectIDs.length < 2 ^ 31

/-- The entry `fe` says in `s` what `addFileEntry` was called with. -/
structure Describes (s : Snapshot) (fe : FileEntry) (a : AddArgs) : Prop where
  name : cstrAt s.mStringBuffer fe.nameIndex.toNat = some (filename a.path)
  parent : cstrAt s.mStringBuffer fe.pathIndex.toNat = some (parent_path a.path)
  user : cstrAt s.mStringBuffer fe.userIndex.toNat = some a.user
  group : cstrAt s.mStringBuffer fe.groupIndex.toNat = some a.group
  ids : (s.mObjectIDs.drop fe.objectIdIndex.toNat).take fe.objectCount.toNat = a.objectIds
  count : fe.objectCount.toNat = a.objectIds.length
  type : fe.type = a.type.toByte
  mode : fe.mode = a.mode
  compression : fe.compression = a.compression.toByte
  size : fe.size = a.size
  mtime : fe.mtime = a.mtime
  rollingHashBits : fe.rollingHashBits = a.rollingHashBits
  md5 : fe.md5 = a.md5
  offset : fe.offset = a.offset
  packLength : fe.packLength = a.packLength

/-- **Growth changes nothing that an entry resolves to.** -/
theorem Describes.of_extends {s s' : Snapshot} {fe : FileEntry} {a : AddArgs}
    (h : Describes s fe a) (hext : Extends s s') : Describes s' fe a :=
  { h with
    name := cstrAt_mono hext.1 h.name
    parent := cstrAt_mono hext.1 h.parent
    user := cstrAt_mono hext.1 h.user
    group := cstrAt_mono hext.1 h.group
    ids := by
      obtain ⟨more, hmore⟩ := hext.2
      have hids := h.ids
      have hlen := congrArg List.length hids
      rw [List.length_take, List.length_drop, h.count] at hlen
      rw [← hmore, List.drop_append, List.take_append_of_le_length, hids]
      rw [List.length_drop, h.count]
      omega }

/-- `indexToString` returns the string that is there. -/
theorem indexToString_of_cstrAt {s : Snapshot} (hs : s.mStringBuffer.length < 2 ^ 31) {n : UInt32}
    {str : Bytes} (h : cstrAt s.mStringBuffer n.toNat = some str) :
    s.indexToString (toInt n) = .ok str := by
  have hlt := lt_length_of_cstrAt h
  rw [indexToString, toInt_of_lt (by omega), if_neg (by omega), Int.toNat_natCast, h]

/-- `indexToObjectID` of an index in the list. -/
theorem indexToObjectID_of_lt {s : Snapshot} {n : UInt32} (hint : n.toNat < 2 ^ 31)
    (hlt : n.toNat < s.mObjectIDs.length) :
    s.indexToObjectID (toInt n) = .ok (s.mObjectIDs.drop n.toNat) := by
  rw [indexToObjectID, toInt_of_lt hint, if_neg (by omega), Int.toNat_natCast]

/-- `indexToObjectID` of any other index throws. -/
theorem indexToObjectID_throws {s : Snapshot} {n : UInt32}
    (h : 2 ^ 31 ≤ n.toNat ∨ s.mObjectIDs.length ≤ n.toNat) :
    s.indexToObjectID (toInt n) =
      .error (.thrown .IndexOutOfBoundException "Index is out of bound.") := by
  rw [indexToObjectID]
  refine if_pos ?_
  by_cases hint : 2 ^ 31 ≤ n.toNat
  · exact Or.inl (toInt_neg hint)
  · rw [toInt_of_lt (by omega)]
    exact Or.inr (by omega)

theorem new_wf : WF new where
  aligned := rfl
  terminated := by
    intro i hi
    exact absurd hi (by simp [new])
  table h := by simp [new] at h

/-- **Interning a string**: the position returned holds it, and the buffer
grows at its end only. -/
theorem insertStringTable_spec {s : Snapshot} (hs : WF s) {str : Bytes} (hstr : 0 ∉ str) :
    ∃ i s', s.insertStringTable str = (i, s') ∧ WF s' ∧ Extends s s' ∧ s'.mFiles = s.mFiles ∧
      s'.mObjectIDs = s.mObjectIDs ∧ cstrAt s'.mStringBuffer i = some str := by
  rw [insertStringTable]
  cases hfind : s.mStringTable.find? str with
  | some i =>
    exact ⟨i, s, rfl, hs, Extends.refl s, rfl, rfl, hs.table hfind⟩
  | none =>
    -- the string, its NUL and the padding
    obtain ⟨k, hk⟩ : ∃ k, (s.mStringBuffer.length + (str.length + 1) + 3) / 4 * 4 -
        s.mStringBuffer.length - str.length = k + 1 := by
      refine ⟨(s.mStringBuffer.length + (str.length + 1) + 3) / 4 * 4 - s.mStringBuffer.length -
        str.length - 1, ?_⟩
      omega
    refine ⟨_, _, rfl, ⟨?_, ?_, ?_⟩, ⟨?_, List.prefix_refl _⟩, rfl, rfl, ?_⟩
    · show (s.mStringBuffer ++ str ++ List.replicate _ 0).length % 4 = 0
      rw [List.length_append, List.length_append, List.length_replicate]
      omega
    · show Terminated (s.mStringBuffer ++ str ++ List.replicate _ 0)
      rw [hk]
      exact terminated_append_zeros _ k
    · intro str' i hi
      show cstrAt (s.mStringBuffer ++ str ++ List.replicate _ 0) i = some str'
      rw [SortedMap.find?_assign] at hi
      split at hi
      · rename_i heq
        subst heq
        rw [Option.some.injEq] at hi
        rw [← hi, hk, List.replicate_succ]
        exact cstrAt_append hstr _ _
      · refine cstrAt_mono ?_ (hs.table hi)
        rw [List.append_assoc]
        exact List.prefix_append _ _
    · show s.mStringBuffer <+: s.mStringBuffer ++ str ++ List.replicate _ 0
      rw [List.append_assoc]
      exact List.prefix_append _ _
    · show cstrAt (s.mStringBuffer ++ str ++ List.replicate _ 0) _ = some str
      rw [hk, List.replicate_succ]
      exact cstrAt_append hstr _ _

theorem insertStringTable_mFiles (s : Snapshot) (str : Bytes) :
    (s.insertStringTable str).2.mFiles = s.mFiles := by
  rw [insertStringTable]
  split <;> rfl

/-- Interning does not touch the files. -/
theorem internEntry_mFiles (s : Snapshot) (a : AddArgs) :
    (s.internEntry a).2.mFiles = s.mFiles := by
  show ((((s.insertStringTable _).2.insertStringTable _).2.insertStringTable _).2.insertStringTable
    _).2.mFiles = s.mFiles
  rw [insertStringTable_mFiles, insertStringTable_mFiles, insertStringTable_mFiles,
    insertStringTable_mFiles]

/-- The strings of a call are C strings. -/
structure NulFree (a : AddArgs) : Prop where
  path : 0 ∉ a.path
  user : 0 ∉ a.user
  group : 0 ∉ a.group

theorem filename_nul {p : Bytes} (h : 0 ∉ p) : 0 ∉ filename p := by
  rw [filename]
  split
  · decide
  · exact fun hc => h (List.mem_of_mem_drop hc)

theorem parent_path_nul {p : Bytes} (h : 0 ∉ p) : 0 ∉ parent_path p := by
  rw [parent_path]
  split
  · simp
  · exact fun hc => h (List.mem_of_mem_take hc)

theorem toNat_ofNat_of_cstrAt {s : Snapshot} (hs : Small s) {i : ℕ} {str : Bytes}
    (h : cstrAt s.mStringBuffer i = some str) :
    cstrAt s.mStringBuffer (UInt32.ofNat i).toNat = some str := by
  have hlt := lt_length_of_cstrAt h
  have hsmall := hs.1
  rwa [UInt32.toNat_ofNat_of_lt' (show i < 2 ^ 32 by omega)]

/-- **What `addFileEntry` prepares**: an entry that describes its arguments,
in a snapshot that extends the old one. -/
theorem internEntry_spec {s : Snapshot} (hs : WF s) {a : AddArgs} (ha : NulFree a)
    (hcount : a.objectIds.length ≤ 65535) :
    ∃ fe s', s.internEntry a = (fe, s') ∧ WF s' ∧ Extends s s' ∧ s'.mFiles = s.mFiles ∧
      s'.mObjectIDs = s.mObjectIDs ++ a.objectIds ∧ (Small s' → Describes s' fe a) := by
  -- four strings are interned; each call only adds to the tables
  obtain ⟨i₁, s₁, h₁, hs₁, hext₁, hf₁, ho₁, hc₁⟩ := insertStringTable_spec hs (filename_nul ha.path)
  obtain ⟨i₂, s₂, h₂, hs₂, hext₂, hf₂, ho₂, hc₂⟩ :=
    insertStringTable_spec hs₁ (parent_path_nul ha.path)
  obtain ⟨i₃, s₃, h₃, hs₃, hext₃, hf₃, ho₃, hc₃⟩ := insertStringTable_spec hs₂ ha.user
  obtain ⟨i₄, s₄, h₄, hs₄, hext₄, hf₄, ho₄, hc₄⟩ := insertStringTable_spec hs₃ ha.group
  have hids : s₄.mObjectIDs = s.mObjectIDs := by rw [ho₄, ho₃, ho₂, ho₁]
  have hext : Extends s s₄ := hext₁.trans (hext₂.trans (hext₃.trans hext₄))
  refine ⟨makeEntry a i₁ i₂ i₃ i₄ s₄.mObjectIDs.length,
    { s₄ with mObjectIDs := s₄.mObjectIDs ++ a.objectIds }, ?_,
    ⟨hs₄.aligned, hs₄.terminated, hs₄.table⟩, ⟨hext.1, ?_⟩, ?_, ?_, ?_⟩
  · simp only [internEntry, h₁, h₂, h₃, h₄, addObjectIds]
  · show s.mObjectIDs <+: s₄.mObjectIDs ++ a.objectIds
    rw [hids]
    exact List.prefix_append _ _
  · show s₄.mFiles = s.mFiles
    rw [hf₄, hf₃, hf₂, hf₁]
  · show s₄.mObjectIDs ++ a.objectIds = s.mObjectIDs ++ a.objectIds
    rw [hids]
  · intro hsmall
    -- the indices fit into the fields of the entry
    have hcount' : (UInt16.ofNat a.objectIds.length).toNat = a.objectIds.length :=
      UInt16.toNat_ofNat_of_lt' (show a.objectIds.length < 2 ^ 16 by omega)
    have hindex : (UInt32.ofNat s₄.mObjectIDs.length).toNat = s₄.mObjectIDs.length := by
      have hlen : (s₄.mObjectIDs ++ a.objectIds).length < 2 ^ 31 := hsmall.2
      rw [List.length_append] at hlen
      exact UInt32.toNat_ofNat_of_lt' (show s₄.mObjectIDs.length < 2 ^ 32 by omega)
    refine { name := ?_, parent := ?_, user := ?_, group := ?_, ids := ?_, count := hcount',
             type := rfl, mode := rfl, compression := rfl, size := rfl, mtime := rfl,
             rollingHashBits := rfl, md5 := rfl, offset := rfl, packLength := rfl }
    · exact toNat_ofNat_of_cstrAt hsmall
        (cstrAt_mono (hext₂.trans (hext₃.trans hext₄)).1 hc₁)
    · exact toNat_ofNat_of_cstrAt hsmall (cstrAt_mono (hext₃.trans hext₄).1 hc₂)
    · exact toNat_ofNat_of_cstrAt hsmall (cstrAt_mono hext₄.1 hc₃)
    · exact toNat_ofNat_of_cstrAt hsmall hc₄
    · show ((s₄.mObjectIDs ++ a.objectIds).drop (UInt32.ofNat s₄.mObjectIDs.length).toNat).take
        (UInt16.ofNat a.objectIds.length).toNat = a.objectIds
      rw [hindex, hcount', List.drop_left, List.take_length]

/-- **`addFileEntry` as a step**: it fails on too many objects, and otherwise
adds an entry that describes its arguments unless the path is taken. -/
theorem addFileEntry_spec {s s' : Snapshot} (hs : WF s) {a : AddArgs} (ha : NulFree a)
    (h : s.addFileEntry a = .ok s') :
    a.objectIds.length ≤ 65535 ∧ WF s' ∧ Extends s s' ∧
      s'.mFiles = s.mFiles.insert a.path (s.internEntry a).1 ∧
      (Small s' → Describes s' (s.internEntry a).1 a) := by
  rw [addFileEntry] at h
  split at h
  · exact absurd h (by simp)
  · rename_i hle
    obtain ⟨fe, s₁, hint, hwf, hext, hfiles, -, hdesc⟩ := internEntry_spec hs ha (by omega)
    rw [hint] at h ⊢
    simp only [Except.ok.injEq] at h
    subst h
    refine ⟨by omega, ⟨hwf.aligned, hwf.terminated, hwf.table⟩, hext, ?_, ?_⟩
    · show s₁.mFiles.insert a.path fe = _
      rw [hfiles]
    · intro hsmall
      exact (hdesc hsmall).of_extends ⟨List.prefix_refl _, List.prefix_refl _⟩

theorem addFileEntry_ok {s : Snapshot} {a : AddArgs} (h : a.objectIds.length ≤ 65535) :
    ∃ s', s.addFileEntry a = .ok s' := by
  rw [addFileEntry, if_neg (by omega)]
  exact ⟨_, rfl⟩

end Snapshot

end Nebula
