/-
`SSHDataStore` and what a `put` followed by a `get` delivers.

The SFTP session is the set of files of the server and what the server does
with the next calls: a write may take a part of the data only, and a read may
return less than was asked for.  `sftp_open` has the flags of POSIX `open`.
`put` opens with `O_WRONLY` alone, so that the file is neither created nor
emptied, and does not look at what `sftp_write` returns: the bytes that were
taken replace the beginning of the old file (`put_spec`).  Main results:

* `StoreModel.putThenGet` — what is promised of a store, and what
  `FileDataStore` keeps;
* `SSHDataStore.putThenGet_iff` — when `SSHDataStore` keeps it.
-/
import NebulaBackup.DataStore

namespace Nebula

open EStateM.Result

/-! ### The SFTP session -/

/-- How a file is opened. -/
inductive AccessMode
  | RDONLY
  | WRONLY
deriving DecidableEq

/-- The flags of `open`. -/
structure OpenFlags where
  access : AccessMode
  creat : Bool
  trunc : Bool
deriving DecidableEq

/-- `O_RDONLY`. -/
def O_RDONLY : OpenFlags := ⟨.RDONLY, false, false⟩

/-- `O_WRONLY`. -/
def O_WRONLY : OpenFlags := ⟨.WRONLY, false, false⟩

/-- An SFTP session: the files of the server, how many bytes of their data the
next writes take and how many bytes the next reads return at most.  After the
end of a list all are taken or returned. -/
structure SftpSession where
  files : SortedMap Bytes Bytes
  writes : List ℕ
  reads : List ℕ

/-- An `sftp_file`: the file and the position in it. -/
structure SftpFile where
  name : Bytes
  offset : ℕ

namespace SftpSession

/-- `sftp_open`; `none` is a null pointer. -/
def sftp_open (ftp : SftpSession) (name : Bytes) (flags : OpenFlags) :
    Option (SftpFile × SftpSession) :=
  match ftp.files.find? name with
  | none =>
    if flags.creat then some (⟨name, 0⟩, { ftp with files := ftp.files.assign name [] }) else none
  | some _ =>
    if flags.trunc then some (⟨name, 0⟩, { ftp with files := ftp.files.assign name [] })
    else some (⟨name, 0⟩, ftp)

/-- The file `f` after `data` was written at position `n`. -/
def writeAt (f : Bytes) (n : ℕ) (data : Bytes) : Bytes :=
  f.take n ++ data ++ f.drop (n + data.length)

/-- `sftp_write`: how many bytes were written. -/
def sftp_write (ftp : SftpSession) (fp : SftpFile) (data : Bytes) : ℕ × SftpFile × SftpSession :=
  let taken := data.take (ftp.writes.headD data.length)
  (taken.length, { fp with offset := fp.offset + taken.length },
    { ftp with
      files := ftp.files.assign fp.name
        (writeAt ((ftp.files.find? fp.name).getD []) fp.offset taken)
      writes := ftp.writes.tail })

/-- `sftp_read`: the next bytes, at least one of those that are left. -/
def sftp_read (ftp : SftpSession) (fp : SftpFile) (size : ℕ) : Bytes × SftpFile × SftpSession :=
  let data := (((ftp.files.find? fp.name).getD []).drop fp.offset).take
    (max 1 (min (ftp.reads.headD size) size))
  (data, { fp with offset := fp.offset + data.length }, { ftp with reads := ftp.reads.tail })

end SftpSession

open SftpSession

/-! ### `SSHDataStore` -/

/-- `SSHDataStore`, connected. -/
structure SSHDataStore where
  mPath : Bytes
  mFtp : SftpSession

namespace SSHDataStore

/-- `mPath / path`. -/
def fullPath (d : SSHDataStore) (path : Bytes) : Bytes := Path.append d.mPath path

/-- `SSHDataStore::exist`. -/
def exist (d : SSHDataStore) (path : Bytes) : Result SSHDataStore Bool :=
  ok (d.mFtp.files.find? (d.fullPath path)).isSome d

section Get

variable {ω : Type} [OutputStream ω]

/-- The loop of `get`, with the number of rounds bounded. -/
def getLoop (progress : ProgressFunction) :
    ℕ → SftpSession → SftpFile → ℤ → ω → Result (SftpSession × ω) Unit
  | 0, ftp, _, _, o => error .outOfFuel (ftp, o)
  | k + 1, ftp, fp, count, o =>
    match sftp_read ftp fp 8192 with
    | (buffer, fp, ftp) =>
      if buffer = [] then ok () (ftp, o)
      else if progress (count + buffer.length) (-1) = false then
        error (.thrown .CancelledException "User cancelled.") (ftp, o)
      else
        match OutputStream.write o buffer with
        | error e o' => error e (ftp, o')
        | ok _ o' => getLoop progress k ftp fp (count + buffer.length) o'

/-- `SSHDataStore::get`.  Every round reads a byte of the file at least. -/
def get (d : SSHDataStore) (path : Bytes) (o : ω) (progress : ProgressFunction) :
    Result (SSHDataStore × ω) Unit :=
  match sftp_open d.mFtp (d.fullPath path) O_RDONLY with
  | none => error (.thrown .FileNotFoundException "File not found.") (d, o)
  | some (fp, ftp) =>
    match getLoop progress (((ftp.files.find? fp.name).getD []).length + 1) ftp fp 0 o with
    | error e (ftp, o') => error e ({ d with mFtp := ftp }, o')
    | ok _ (ftp, o') => ok () ({ d with mFtp := ftp }, o')

end Get

section Put

variable {σ : Type} [InputStream σ]

/-- The loop of `put`, with the number of rounds bounded.  Nothing looks at how
many bytes were written. -/
def putLoop (progress : ProgressFunction) :
    ℕ → SftpSession → SftpFile → σ → ℤ → Result (SftpSession × σ) Unit
  | 0, ftp, _, s, _ => error .outOfFuel (ftp, s)
  | k + 1, ftp, fp, s, count =>
    match InputStream.read s 8192 with
    | error e s' => error e (ftp, s')
    | ok buffer s' =>
      if buffer = [] then ok () (ftp, s')
      else if progress (count + buffer.length) (-1) = false then
        error (.thrown .CancelledException "User cancelled.") (ftp, s')
      else
        match sftp_write ftp fp buffer with
        | (_, fp, ftp) => putLoop progress k ftp fp s' (count + buffer.length)

/-- `SSHDataStore::put`.  The streams that are put know their size, which
bounds the rounds. -/
def put (d : SSHDataStore) (path : Bytes) (s : σ) (progress : ProgressFunction) :
    Result (SSHDataStore × σ) Unit :=
  match sftp_open d.mFtp (d.fullPath path) O_WRONLY with
  | none => error (.thrown .FileNotFoundException "File not found.") (d, s)
  | some (fp, ftp) =>
    match putLoop progress ((InputStream.size s).toNat + 1) ftp fp s 0 with
    | error e (ftp, s') => error e ({ d with mFtp := ftp }, s')
    | ok _ (ftp, s') => ok () ({ d with mFtp := ftp }, s')

end Put

instance : DataStore SSHDataStore where
  exist := exist
  get := get
  put := put

/-- The file at a path of the store. -/
def contents (d : SSHDataStore) (path : Bytes) : Option Bytes :=
  d.mFtp.files.find? (d.fullPath path)

/-! ### What the loops do -/

/-- What the server takes of the chunks of `c`. -/
def accepted : List ℕ → Bytes → Bytes
  | [], c => c
  | n :: ns, c => (c.take 8192).take n ++ accepted ns (c.drop 8192)

@[simp] theorem accepted_nil : ∀ ns : List ℕ, accepted ns [] = [] := by
  intro ns
  induction ns with
  | nil => rfl
  | cons n ns ih => simp [accepted, ih]

/-- The first chunk, and the rest. -/
theorem accepted_chunk (ns : List ℕ) (c : Bytes) :
    accepted ns c = (c.take 8192).take (ns.headD (c.take 8192).length) ++
      accepted ns.tail (c.drop 8192) := by
  cases ns with
  | nil =>
    rw [List.headD_nil, List.take_length]
    exact (List.take_append_drop 8192 c).symm
  | cons n ns => rfl

/-- The old file with its beginning replaced by `a`. -/
def replaced (old a : Bytes) : Bytes := a ++ old.drop a.length

/-- A write behind the part that was replaced. -/
theorem writeAt_replaced (old a data : Bytes) :
    writeAt (replaced old a) a.length data = replaced old (a ++ data) := by
  rw [writeAt, replaced, replaced, List.take_left, List.drop_append, List.drop_drop,
    List.length_append, List.drop_eq_nil_of_le (by omega), List.nil_append,
    Nat.add_sub_cancel_left]

section Loops

variable {σ ω : Type} [InputStream σ] [RewindableStream σ] [OutputStream ω]

/-- **The loop of `put`.**  By induction on the bound of its rounds: `a` has
been taken so far, and the position is behind it. -/
theorem putLoop_spec {progress : ProgressFunction} (hprog : ∀ i j, progress i j = true)
    (name old c : Bytes) : ∀ {k : ℕ} (ftp : SftpSession) {s : σ} {r a : Bytes} (count : ℤ),
      RewindableStream.Rep c s r → r.length < k →
      ftp.files.find? name = some (replaced old a) →
      ∃ ftp' s', putLoop progress k ftp ⟨name, a.length⟩ s count = ok () (ftp', s') ∧
        ftp'.files.find? name = some (replaced old (a ++ accepted ftp.writes r)) ∧
        ∀ q ≠ name, ftp'.files.find? q = ftp.files.find? q := by
  intro k
  induction k with
  | zero =>
    intro ftp s r a count _ hk
    omega
  | succ k ih =>
    intro ftp s r a count hs hk hfile
    obtain ⟨s', hread, hs'⟩ := RewindableStream.read_ok hs 8192
    rw [putLoop, hread]
    by_cases hr : r = []
    · subst hr
      refine ⟨ftp, s', by simp, ?_, fun _ _ => rfl⟩
      rw [accepted_nil, List.append_nil]
      exact hfile
    · have hne : r.take 8192 ≠ [] := by simpa using hr
      have hlen : (r.drop 8192).length < k := by
        have := List.length_pos_iff.mpr hr
        rw [List.length_drop]
        omega
      -- what the server takes of this chunk stands behind what it took before
      set taken := (r.take 8192).take (ftp.writes.headD (r.take 8192).length) with htaken
      have hwrite : sftp_write ftp ⟨name, a.length⟩ (r.take 8192) =
          (taken.length, ⟨name, (a ++ taken).length⟩,
            { ftp with
              files := ftp.files.assign name (replaced old (a ++ taken))
              writes := ftp.writes.tail }) := by
        simp only [sftp_write, ← htaken, hfile, Option.getD_some, writeAt_replaced,
          List.length_append]
      obtain ⟨ftp', s'', hloop, hname, hother⟩ := ih (a := a ++ taken)
        { ftp with
          files := ftp.files.assign name (replaced old (a ++ taken))
          writes := ftp.writes.tail }
        (count + (r.take 8192).length) hs' hlen (by rw [SortedMap.find?_assign, if_pos rfl])
      refine ⟨ftp', s'', ?_, ?_, fun q hq => ?_⟩
      · simp only [hne, if_false, hprog, Bool.true_eq_false, hwrite]
        exact hloop
      · rw [accepted_chunk, ← htaken, ← List.append_assoc]
        exact hname
      · rw [hother q hq, SortedMap.find?_assign, if_neg hq]

/-- **The loop of `get`** delivers the file from the position on. -/
theorem getLoop_spec {W : ω → Bytes → Prop} (hW : Sink W) {progress : ProgressFunction}
    (hprog : ∀ i j, progress i j = true) (name f : Bytes) :
    ∀ {k : ℕ} (ftp : SftpSession) {n : ℕ} {o : ω} {w : Bytes} (count : ℤ),
      ftp.files.find? name = some f → W o w → (f.drop n).length < k →
      ∃ ftp' o', getLoop progress k ftp ⟨name, n⟩ count o = ok () (ftp', o') ∧
        ftp'.files = ftp.files ∧ W o' (w ++ f.drop n) := by
  intro k
  induction k with
  | zero =>
    intro ftp n o w count _ _ hk
    omega
  | succ k ih =>
    intro ftp n o w count hfile ho hk
    set size := max 1 (min (ftp.reads.headD 8192) 8192) with hsize
    have hread : sftp_read ftp ⟨name, n⟩ 8192 =
        ((f.drop n).take size, ⟨name, n + ((f.drop n).take size).length⟩,
          { ftp with reads := ftp.reads.tail }) := by
      simp only [sftp_read, hfile, Option.getD_some, ← hsize]
    rw [getLoop, hread]
    by_cases hend : f.drop n = []
    · refine ⟨{ ftp with reads := ftp.reads.tail }, o, ?_, rfl, ?_⟩
      · simp [hend]
      · rw [hend, List.append_nil]
        exact ho
    · have hne : (f.drop n).take size ≠ [] := by
        rw [Ne, List.take_eq_nil_iff, not_or]
        exact ⟨by omega, hend⟩
      have hlen : ((f.drop n).take size).length = min size (f.drop n).length := List.length_take
      have hdrop : (f.drop n).drop size = f.drop (n + ((f.drop n).take size).length) := by
        rw [List.drop_drop]
        by_cases hall : size ≤ (f.drop n).length
        · rw [hlen, min_eq_left hall]
        · rw [hlen, min_eq_right (by omega), List.length_drop, List.drop_eq_nil_of_le (by
            rw [List.length_drop] at hall
            omega), List.drop_eq_nil_of_le (by omega)]
      obtain ⟨o₁, hwrite, ho₁⟩ := hW.write_ok ho ((f.drop n).take size)
      have hpos := List.length_pos_iff.mpr hend
      obtain ⟨ftp', o', hloop, hfiles, ho'⟩ := ih (n := n + ((f.drop n).take size).length)
        { ftp with reads := ftp.reads.tail }
        (count + ((f.drop n).take size).length) hfile ho₁ (by
          rw [← hdrop, List.length_drop]
          omega)
      refine ⟨ftp', o', ?_, hfiles, ?_⟩
      · simp only [hne, if_false, hprog, Bool.true_eq_false, hwrite]
        exact hloop
      · rwa [← hdrop, List.append_assoc, List.take_append_drop] at ho'

omit [RewindableStream σ] in
/-- A file that is not there is not created. -/
theorem put_absent {d : SSHDataStore} {path : Bytes} (h : d.contents path = none) (s : σ)
    (progress : ProgressFunction) :
    put d path s progress = error (.thrown .FileNotFoundException "File not found.") (d, s) := by
  rw [contents] at h
  simp [put, sftp_open, h, O_WRONLY]

/-- **What `put` leaves of a file that is there**: the bytes that were taken, and
the old ones behind them. -/
theorem put_spec {d : SSHDataStore} {path old c : Bytes} (h : d.contents path = some old) {s : σ}
    (hs : Holds s c) {progress : ProgressFunction} (hprog : ∀ i j, progress i j = true) :
    ∃ d' s', put d path s progress = ok () (d', s') ∧
      d'.contents path = some (replaced old (accepted d.mFtp.writes c)) ∧
      ∀ q, d.fullPath q ≠ d.fullPath path → d'.contents q = d.contents q := by
  rw [contents] at h
  have hopen : sftp_open d.mFtp (d.fullPath path) O_WRONLY =
      some (⟨d.fullPath path, 0⟩, d.mFtp) := by simp [sftp_open, h, O_WRONLY]
  obtain ⟨ftp', s', hloop, hname, hother⟩ := putLoop_spec hprog (d.fullPath path) old c
    (k := (InputStream.size s).toNat + 1) (a := []) d.mFtp 0 hs
    (by rw [RewindableStream.size_eq hs]; omega) (by simpa [replaced] using h)
  rw [List.length_nil] at hloop
  rw [List.nil_append] at hname
  refine ⟨{ d with mFtp := ftp' }, s', ?_, hname, fun q hq => hother _ hq⟩
  simp only [put, hopen, hloop]

/-- **`get` delivers the file.** -/
theorem get_spec {d : SSHDataStore} {path f : Bytes} (h : d.contents path = some f)
    {W : ω → Bytes → Prop} (hW : Sink W) {o : ω} {w : Bytes} (ho : W o w)
    {progress : ProgressFunction} (hprog : ∀ i j, progress i j = true) :
    ∃ d' o', get d path o progress = ok () (d', o') ∧ W o' (w ++ f) := by
  rw [contents] at h
  have hopen : sftp_open d.mFtp (d.fullPath path) O_RDONLY =
      some (⟨d.fullPath path, 0⟩, d.mFtp) := by simp [sftp_open, h, O_RDONLY]
  obtain ⟨ftp', o', hloop, -, ho'⟩ := getLoop_spec hW hprog (d.fullPath path) f
    (k := f.length + 1) (n := 0) d.mFtp 0 h ho (by rw [List.drop_zero]; omega)
  rw [List.drop_zero] at ho'
  refine ⟨{ d with mFtp := ftp' }, o', ?_, ho'⟩
  simp only [get, hopen, h, Option.getD_some, hloop]

end Loops

end SSHDataStore

/-! ### What a store promises -/

/-- A `put` that nobody cancels succeeds, and the `get` after it delivers what was
put, from whatever stream and into whatever stream. -/
def PutThenGet {δ : Type} [DataStore δ] (d : δ) (path c : Bytes) : Prop :=
  ∀ {σ ω : Type} [InputStream σ] [RewindableStream σ] [OutputStream ω] {s : σ}
    {W : ω → Bytes → Prop} {o : ω} {w : Bytes} {progress progress' : ProgressFunction},
    Holds s c → Sink W → W o w → (∀ i j, progress i j = true) → (∀ i j, progress' i j = true) →
    ∃ d' s' d'' o', DataStore.put d path s progress = ok () (d', s') ∧
      DataStore.get d' path o progress' = ok () (d'', o') ∧ W o' (w ++ c)

/-- **A store that is a map keeps it**, as long as nothing fails. -/
theorem StoreModel.putThenGet {δ : Type} [DataStore δ] (M : StoreModel δ) {d : δ} (hd : M.Ok d)
    {path : Bytes} (hp : Path.isSep path 0 = true) (c : Bytes) : PutThenGet d path c := by
  intro σ ω _ _ _ s W o w progress progress' hs hW ho hprog hprog'
  obtain ⟨d', s', hput, hd', hcont⟩ := M.put_ok hd hp hs progress hprog
  obtain ⟨d'', o', hget, -, -, ho'⟩ := M.get_ok hd' hp (by rw [hcont, Function.update_self]) hW ho
    progress' hprog'
  exact ⟨d', s', d'', o', hput, hget, ho'⟩

namespace SSHDataStore

/-- A replaced file is the content that was to be written. -/
theorem replaced_eq_iff (old a c : Bytes) :
    replaced old a = c ↔ a <+: c ∧ old.drop a.length = c.drop a.length := by
  rw [replaced]
  constructor
  · rintro rfl
    exact ⟨List.prefix_append _ _, by rw [List.drop_left]⟩
  · rintro ⟨⟨t, rfl⟩, hdrop⟩
    rw [hdrop, List.drop_left]

/-- What `get` delivers is what `put` has left of the old file. -/
theorem putThenGet_iff_replaced (d : SSHDataStore) (path c : Bytes) :
    PutThenGet d path c ↔
      ∃ old, d.contents path = some old ∧ replaced old (accepted d.mFtp.writes c) = c := by
  have hdefault : ∀ i j, DefaultProgressFunction i j = true := fun _ _ => rfl
  constructor
  · intro h
    -- it is enough to look at one stream on either side
    obtain ⟨d', s', d'', o', hput, hget, ho'⟩ := h (MemoryInputStream.new_holds c)
      TempFileStream.sink TempFileStream.new_written hdefault hdefault
    cases hold : d.contents path with
    | none =>
      exact absurd ((put_absent hold _ _).symm.trans hput) (by simp)
    | some old =>
      refine ⟨old, rfl, ?_⟩
      obtain ⟨d₁, s₁, hput₁, hleft, -⟩ := put_spec hold (MemoryInputStream.new_holds c) hdefault
      obtain ⟨hd, -⟩ := Prod.mk.inj (EStateM.Result.ok.inj (hput₁.symm.trans hput)).2
      obtain ⟨d₂, o₂, hget₂, ho₂⟩ := get_spec hleft TempFileStream.sink
        TempFileStream.new_written hdefault
      rw [hd] at hget₂
      obtain ⟨-, ho⟩ := Prod.mk.inj (EStateM.Result.ok.inj (hget₂.symm.trans hget)).2
      rw [ho] at ho₂
      rw [List.nil_append] at ho' ho₂
      exact ho₂.content_eq.symm.trans ho'.content_eq
  · rintro ⟨old, hold, heq⟩ σ ω _ _ _ s W o w progress progress' hs hW ho hprog hprog'
    obtain ⟨d', s', hput, hleft, -⟩ := put_spec hold hs hprog
    rw [heq] at hleft
    obtain ⟨d'', o', hget, ho'⟩ := get_spec hleft hW ho hprog'
    exact ⟨d', s', d'', o', hput, hget, ho'⟩

/-- **When `put` and `get` over SSH are a `put` and a `get`**: exactly if the file
is already there, what the server takes is a beginning of the content, and
behind that the old file and the content agree.  If every write is taken in
full: exactly if the file is there and not longer. -/
theorem putThenGet_iff (d : SSHDataStore) (path c : Bytes) :
    (PutThenGet d path c ↔ ∃ old, d.contents path = some old ∧ accepted d.mFtp.writes c <+: c ∧
      old.drop (accepted d.mFtp.writes c).length = c.drop (accepted d.mFtp.writes c).length) ∧
      (accepted d.mFtp.writes c = c →
        (PutThenGet d path c ↔ ∃ old, d.contents path = some old ∧ old.length ≤ c.length)) := by
  refine ⟨?_, fun hfull => ?_⟩
  · simp only [putThenGet_iff_replaced, replaced_eq_iff]
  · simp only [putThenGet_iff_replaced, hfull, replaced_eq_iff, List.drop_length,
      List.drop_eq_nil_iff, List.prefix_refl, true_and]

/-- A server with one file, or none, at `/backup/key`, which takes every write in
full. -/
def keyServer (old : Option Bytes) : SSHDataStore :=
  ⟨ascii "/backup", ⟨match old with
    | none => .empty
    | some f => SortedMap.empty.assign (ascii "/backup/key") f, [], []⟩⟩

/-- A first `put` finds no file and throws, where a `FileDataStore` stores the
object; and of a longer file the end is left behind the new content. -/
theorem putThenGet_fails :
    ¬ PutThenGet (keyServer none) (ascii "/key") [120] ∧
      PutThenGet (⟨ascii "/backup", .empty, []⟩ : FileDataStore) (ascii "/key") [120] ∧
      put (keyServer none) (ascii "/key") (MemoryInputStream.new [120]) DefaultProgressFunction =
        error (.thrown .FileNotFoundException "File not found.")
          (keyServer none, MemoryInputStream.new [120]) ∧
      ¬ PutThenGet (keyServer (some [97, 98, 99])) (ascii "/key") [120] ∧
      replaced [97, 98, 99] (accepted [] [120]) = [120, 98, 99] := by
  refine ⟨?_, FileDataStore.storeModel.putThenGet (fun _ he => absurd he List.not_mem_nil) rfl _,
    put_absent rfl _ _, ?_, by decide⟩
  · rw [putThenGet_iff_replaced]
    rintro ⟨old, hold, -⟩
    have hnone : (keyServer none).contents (ascii "/key") = none := rfl
    exact absurd (hnone.symm.trans hold) (by simp)
  · rw [putThenGet_iff_replaced]
    rintro ⟨old, hold, heq⟩
    obtain rfl : [97, 98, 99] = old := Option.some.inj hold
    exact absurd heq (by decide)

end SSHDataStore

end Nebula
