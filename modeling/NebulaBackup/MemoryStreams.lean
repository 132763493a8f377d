/-
Streams over memory and files: `MemoryInputStream`, `MemoryOutputStream`,
`FileStream` and `TempFileStream`.

A `FILE *` opened for reading is its contents and a position.  A temporary
stream collects what is written in memory and moves to a file when the next
write would pass `TEMP_BUFFER_SIZE`; `TempFileStream.sink` says that it takes
every write wherever the bytes end up, and `TempFileStream.inputStream_holds`
that the stream it hands back holds exactly those bytes.  After any sequence of
writes its state is the one `given` by their concatenation, so a reader cannot
tell how they were cut or where they are (`TempFileStream.spill_transparent`).
-/
import NebulaBackup.InputStream

namespace Nebula

open EStateM.Result

/-! ### `MemoryInputStream` -/

/-- `MemoryInputStream`: the buffer and the offset of `mNext` in it. -/
structure MemoryInputStream where
  data : Bytes
  next : ℕ
deriving DecidableEq

namespace MemoryInputStream

/-- `MemoryInputStream(buffer, size)`. -/
def new (buffer : Bytes) : MemoryInputStream := ⟨buffer, 0⟩

def read (s : MemoryInputStream) (size : ℕ) : Result MemoryInputStream Bytes :=
  if s.data.length ≤ s.next then ok [] s
  else
    let size := if s.data.length - s.next < size then s.data.length - s.next else size
    ok ((s.data.drop s.next).take size) { s with next := s.next + size }

def skip (s : MemoryInputStream) (n : ℕ) : Result MemoryInputStream ℕ :=
  let next := if s.data.length ≤ s.next + n then s.data.length else s.next + n
  ok (next - s.next) { s with next := next }

instance : InputStream MemoryInputStream where
  read := read
  skip := skip
  canRewind _ := true
  rewind s := ok () { s with next := 0 }
  size s := s.data.length

/-- The stream holds `c`, and `r` is what follows `mNext`. -/
def Rep (c : Bytes) (s : MemoryInputStream) (r : Bytes) : Prop :=
  s.data = c ∧ s.next ≤ c.length ∧ r = c.drop s.next

theorem read_ok {c r : Bytes} {s : MemoryInputStream} (h : Rep c s r) (n : ℕ) :
    ∃ s', read s n = ok (r.take n) s' ∧ Rep c s' (r.drop n) := by
  obtain ⟨rfl, hle, rfl⟩ := h
  rw [read]
  by_cases hend : s.data.length ≤ s.next
  · rw [if_pos hend, List.drop_eq_nil_of_le hend]
    refine ⟨s, by simp, rfl, hle, ?_⟩
    rw [List.drop_eq_nil_of_le hend, List.drop_nil]
  · rw [if_neg hend]
    by_cases hn : s.data.length - s.next < n
    · have hlen : (s.data.drop s.next).length ≤ n := by
        rw [List.length_drop]
        omega
      refine ⟨{ s with next := s.next + (s.data.length - s.next) }, ?_, rfl, ?_, ?_⟩
      · simp only [if_pos hn]
        rw [List.take_of_length_le hlen, List.take_of_length_le (by rw [List.length_drop])]
      · show s.next + (s.data.length - s.next) ≤ s.data.length
        omega
      · show (s.data.drop s.next).drop n = s.data.drop (s.next + (s.data.length - s.next))
        rw [List.drop_eq_nil_of_le hlen, List.drop_eq_nil_of_le (by omega)]
    · refine ⟨{ s with next := s.next + n }, ?_, rfl, ?_, ?_⟩
      · simp only [if_neg hn]
      · show s.next + n ≤ s.data.length
        omega
      · show (s.data.drop s.next).drop n = s.data.drop (s.next + n)
        rw [List.drop_drop]

theorem skip_ok {c r : Bytes} {s : MemoryInputStream} (h : Rep c s r) (n : ℕ) :
    ∃ s' k, skip s n = ok k s' ∧ Rep c s' (r.drop n) := by
  obtain ⟨rfl, hle, rfl⟩ := h
  rw [skip, List.drop_drop]
  by_cases hend : s.data.length ≤ s.next + n
  · simp only [if_pos hend]
    refine ⟨_, _, rfl, rfl, le_refl _, ?_⟩
    rw [List.drop_eq_nil_of_le hend, List.drop_length]
  · simp only [if_neg hend]
    refine ⟨_, _, rfl, rfl, ?_, rfl⟩
    show s.next + n ≤ s.data.length
    omega

instance : RewindableStream MemoryInputStream where
  Rep := Rep
  read_ok := read_ok
  skip_ok := skip_ok
  canRewind_eq _ := rfl
  rewind_ok h := ⟨_, rfl, h.1, Nat.zero_le _, rfl⟩
  size_eq h := by
    show ((_ : ℕ) : ℤ) = _
    rw [h.1]

theorem new_holds (c : Bytes) : Holds (new c) c := ⟨rfl, Nat.zero_le _, rfl⟩

end MemoryInputStream

/-! ### `MemoryOutputStream` -/

/-- `MemoryOutputStream`: the size of the buffer and the bytes written to it. -/
structure MemoryOutputStream where
  capacity : ℕ
  data : Bytes
deriving DecidableEq

namespace MemoryOutputStream

/-- `MemoryOutputStream(buffer, size)`. -/
def new (size : ℕ) : MemoryOutputStream := ⟨size, []⟩

def write (o : MemoryOutputStream) (d : Bytes) : Result MemoryOutputStream Unit :=
  if o.capacity - o.data.length < d.length then
    error (.thrown .InsufficientBufferSizeException
      "Buffer does not have enough space to write data.") o
  else ok () { o with data := o.data ++ d }

instance : OutputStream MemoryOutputStream := ⟨write⟩

/-- A write that fits is appended. -/
theorem write_fits {o : MemoryOutputStream} {d : Bytes}
    (h : o.data.length + d.length ≤ o.capacity) :
    write o d = ok () { o with data := o.data ++ d } := by
  rw [write, if_neg (by omega)]

/-- The buffer of size `n` holds `w`. -/
def Written (n : ℕ) (o : MemoryOutputStream) (w : Bytes) : Prop := o.capacity = n ∧ o.data = w

theorem new_written (n : ℕ) : Written n (new n) [] := ⟨rfl, rfl⟩

/-- Writes that fit are appended. -/
theorem sinkUpTo (n : ℕ) : SinkUpTo n (Written n) where
  write_ok {o w} h d hfits := by
    obtain ⟨hcap, rfl⟩ := h
    exact ⟨{ o with data := o.data ++ d }, write_fits (by omega), hcap, rfl⟩

end MemoryOutputStream

/-! ### `FileStream` -/

/-- A `FileStream` opened for reading: the contents of the file and the
position of `mFp`. -/
structure FileStream where
  content : Bytes
  pos : ℕ
deriving DecidableEq

namespace FileStream

/-- `FileStream(path, FileMode::Read)` for a file with the given contents. -/
def openRead (content : Bytes) : FileStream := ⟨content, 0⟩

/-- `fread` returns what is left, up to `size` bytes. -/
def read (s : FileStream) (size : ℕ) : Result FileStream Bytes :=
  ok ((s.content.drop s.pos).take size)
    { s with pos := s.pos + ((s.content.drop s.pos).take size).length }

/-- `fseek(mFp, size, SEEK_CUR)` may move past the end of the file. -/
def skip (s : FileStream) (size : ℕ) : Result FileStream ℕ :=
  ok size { s with pos := s.pos + size }

instance : InputStream FileStream where
  read := read
  skip := skip
  canRewind _ := true
  rewind s := ok () { s with pos := 0 }
  size s := s.content.length

/-- The file holds `c`, and `r` is what follows the position. -/
def Rep (c : Bytes) (s : FileStream) (r : Bytes) : Prop :=
  s.content = c ∧ r = c.drop s.pos

theorem read_ok {c r : Bytes} {s : FileStream} (h : Rep c s r) (n : ℕ) :
    ∃ s', read s n = ok (r.take n) s' ∧ Rep c s' (r.drop n) := by
  obtain ⟨rfl, rfl⟩ := h
  refine ⟨_, rfl, rfl, ?_⟩
  show (s.content.drop s.pos).drop n
    = s.content.drop (s.pos + ((s.content.drop s.pos).take n).length)
  rw [← List.drop_drop, List.length_take]
  by_cases hn : n ≤ (s.content.drop s.pos).length
  · rw [min_eq_left hn]
  · rw [min_eq_right (by omega), List.drop_length, List.drop_eq_nil_of_le (by omega)]

instance : RewindableStream FileStream where
  Rep := Rep
  read_ok := read_ok
  skip_ok h n := by
    obtain ⟨hc, rfl⟩ := h
    exact ⟨_, _, rfl, hc, List.drop_drop⟩
  canRewind_eq _ := rfl
  rewind_ok h := ⟨_, rfl, h.1, rfl⟩
  size_eq h := by
    show ((_ : ℕ) : ℤ) = _
    rw [h.1]

theorem openRead_holds (c : Bytes) : Holds (openRead c) c := ⟨rfl, rfl⟩

end FileStream

/-! ### Two kinds of stream behind one pointer -/

section Sum

variable {σ τ : Type} [InputStream σ] [InputStream τ]

/-- The same result about the left alternative. -/
def Result.inl {σ τ α : Type} : Result σ α → Result (σ ⊕ τ) α
  | ok a s => ok a (Sum.inl s)
  | error e s => error e (Sum.inl s)

/-- The same result about the right alternative. -/
def Result.inr {σ τ α : Type} : Result τ α → Result (σ ⊕ τ) α
  | ok a s => ok a (Sum.inr s)
  | error e s => error e (Sum.inr s)

/-- Virtual dispatch: an `InputStream *` to one of two kinds of stream. -/
instance : InputStream (σ ⊕ τ) where
  read
    | .inl s, n => (InputStream.read s n).inl
    | .inr s, n => (InputStream.read s n).inr
  skip
    | .inl s, n => (InputStream.skip s n).inl
    | .inr s, n => (InputStream.skip s n).inr
  canRewind
    | .inl s => InputStream.canRewind s
    | .inr s => InputStream.canRewind s
  rewind
    | .inl s => (InputStream.rewind s).inl
    | .inr s => (InputStream.rewind s).inr
  size
    | .inl s => InputStream.size s
    | .inr s => InputStream.size s

instance [RewindableStream σ] [RewindableStream τ] : RewindableStream (σ ⊕ τ) where
  Rep c s r :=
    match s with
    | .inl s => RewindableStream.Rep c s r
    | .inr s => RewindableStream.Rep c s r
  read_ok {c s r} h n := by
    rcases s with s | s
    · obtain ⟨s', hs, hr⟩ := RewindableStream.read_ok h n
      exact ⟨.inl s', by show Result.inl _ = _; rw [hs]; rfl, hr⟩
    · obtain ⟨s', hs, hr⟩ := RewindableStream.read_ok h n
      exact ⟨.inr s', by show Result.inr _ = _; rw [hs]; rfl, hr⟩
  skip_ok {c s r} h n := by
    rcases s with s | s
    · obtain ⟨s', k, hs, hr⟩ := RewindableStream.skip_ok h n
      exact ⟨.inl s', k, by show Result.inl _ = _; rw [hs]; rfl, hr⟩
    · obtain ⟨s', k, hs, hr⟩ := RewindableStream.skip_ok h n
      exact ⟨.inr s', k, by show Result.inr _ = _; rw [hs]; rfl, hr⟩
  canRewind_eq {c s r} h := by
    rcases s with s | s
    · exact RewindableStream.canRewind_eq (σ := σ) h
    · exact RewindableStream.canRewind_eq (σ := τ) h
  rewind_ok {c s r} h := by
    rcases s with s | s
    · obtain ⟨s', hs, hr⟩ := RewindableStream.rewind_ok h
      exact ⟨.inl s', by show Result.inl _ = _; rw [hs]; rfl, hr⟩
    · obtain ⟨s', hs, hr⟩ := RewindableStream.rewind_ok h
      exact ⟨.inr s', by show Result.inr _ = _; rw [hs]; rfl, hr⟩
  size_eq {c s r} h := by
    rcases s with s | s
    · exact RewindableStream.size_eq (σ := σ) h
    · exact RewindableStream.size_eq (σ := τ) h

end Sum

/-! ### `TempFileStream` -/

/-- `TempFileStream`: the memory stream and what was written to the temporary
file; a null pointer is `none`. -/
structure TempFileStream where
  memStream : Option MemoryOutputStream
  fileStream : Option Bytes
deriving DecidableEq

/-- The stream `TempFileStream::inputStream` returns. -/
abbrev TempInputStream := MemoryInputStream ⊕ FileStream

namespace TempFileStream

/-- `TEMP_BUFFER_SIZE`. -/
def TEMP_BUFFER_SIZE : ℕ := 4 * 1024 * 1024

/-- `TempFileStream()`. -/
def new : TempFileStream := ⟨some (.new TEMP_BUFFER_SIZE), none⟩

/-- The second half of `write`: append to the file if there is one. -/
def writeFile (o : TempFileStream) (d : Bytes) : Result TempFileStream Unit :=
  match o.fileStream with
  | some f => ok () { o with fileStream := some (f ++ d) }
  | none =>
    match o.memStream with
    | some _ => ok () o
    | none => error (.thrown .FileIOException
        "Cannot write to temp stream after input stream has been obtained.") o

def write (o : TempFileStream) (d : Bytes) : Result TempFileStream Unit :=
  match o.memStream with
  | some m =>
    -- a sum in `size_t`, which no array is long enough to make wrap
    if TEMP_BUFFER_SIZE < m.data.length + d.length then
      -- the bytes collected so far move to the file, then `d` follows them
      writeFile ⟨none, some m.data⟩ d
    else
      match MemoryOutputStream.write m d with
      | error e m' => error e { o with memStream := some m' }
      | ok _ m' => writeFile { o with memStream := some m' } d
  | none => writeFile o d

instance : OutputStream TempFileStream := ⟨write⟩

/-- `TempFileStream::inputStream`; `none` is a null pointer.  A file is closed
before it is opened again, so all that was written is there to be read. -/
def inputStream (o : TempFileStream) : Option TempInputStream :=
  match o.memStream with
  | some m => some (.inl (.new m.data))
  | none =>
    match o.fileStream with
    | some f => some (.inr (.openRead f))
    | none => none

/-- The stream holds exactly `w`: in memory while it fits, else in the file. -/
def Written (o : TempFileStream) (w : Bytes) : Prop :=
  (o = ⟨some ⟨TEMP_BUFFER_SIZE, w⟩, none⟩ ∧ w.length ≤ TEMP_BUFFER_SIZE) ∨ o = ⟨none, some w⟩

theorem new_written : Written new [] := Or.inl ⟨rfl, Nat.zero_le _⟩

/-- The temporary stream that was given `w`: in memory as long as `w` fits. -/
def given (w : Bytes) : TempFileStream :=
  if w.length ≤ TEMP_BUFFER_SIZE then ⟨some ⟨TEMP_BUFFER_SIZE, w⟩, none⟩ else ⟨none, some w⟩

theorem given_of_le {w : Bytes} (h : w.length ≤ TEMP_BUFFER_SIZE) :
    given w = ⟨some ⟨TEMP_BUFFER_SIZE, w⟩, none⟩ := if_pos h

theorem given_of_lt {w : Bytes} (h : TEMP_BUFFER_SIZE < w.length) : given w = ⟨none, some w⟩ :=
  if_neg (by omega)

theorem given_written (w : Bytes) : Written (given w) w := by
  by_cases hw : w.length ≤ TEMP_BUFFER_SIZE
  · exact Or.inl ⟨given_of_le hw, hw⟩
  · exact Or.inr (given_of_lt (by omega))

/-- A write to the memory stream; the one that passes the limit moves the bytes
and is itself appended to the file only. -/
theorem write_memory (w d : Bytes) :
    write ⟨some ⟨TEMP_BUFFER_SIZE, w⟩, none⟩ d = ok () (given (w ++ d)) := by
  have hlen : (w ++ d).length = w.length + d.length := List.length_append
  rw [write]
  by_cases hbig : TEMP_BUFFER_SIZE < w.length + d.length
  · rw [given_of_lt (by omega)]
    exact if_pos hbig
  · have hfits : MemoryOutputStream.write ⟨TEMP_BUFFER_SIZE, w⟩ d
        = ok () ⟨TEMP_BUFFER_SIZE, w ++ d⟩ :=
      MemoryOutputStream.write_fits (by show w.length + d.length ≤ TEMP_BUFFER_SIZE; omega)
    rw [given_of_le (by omega)]
    simp only [if_neg hbig, hfits]
    rfl

/-- A write to the file. -/
theorem write_file (w d : Bytes) : write ⟨none, some w⟩ d = ok () ⟨none, some (w ++ d)⟩ := rfl

/-- **A temporary stream takes every write**, on both sides of the limit. -/
theorem sink : Sink Written where
  write_ok {o w} h d := by
    rcases h with ⟨rfl, _⟩ | rfl
    · exact ⟨given (w ++ d), write_memory w d, given_written _⟩
    · exact ⟨⟨none, some (w ++ d)⟩, write_file w d, Or.inr rfl⟩

/-- **A write appends its bytes once**, and where the bytes are depends on nothing
but their number. -/
theorem given_sink : Sink fun o w => o = given w where
  write_ok {o w} h d := by
    subst h
    refine ⟨given (w ++ d), ?_, rfl⟩
    by_cases hw : w.length ≤ TEMP_BUFFER_SIZE
    · rw [given_of_le hw]
      exact write_memory w d
    · have hlen : (w ++ d).length = w.length + d.length := List.length_append
      rw [given_of_lt (by omega), given_of_lt (by omega)]
      exact write_file w d

/-- **The stream handed back holds what was written.** -/
theorem inputStream_holds {o : TempFileStream} {w : Bytes} (h : Written o w) :
    ∃ s, inputStream o = some s ∧ Holds s w := by
  rcases h with ⟨rfl, _⟩ | rfl
  · exact ⟨_, rfl, MemoryInputStream.new_holds w⟩
  · exact ⟨_, rfl, FileStream.openRead_holds w⟩

/-- The bytes a temporary stream was given. -/
def content (o : TempFileStream) : Bytes :=
  match o.memStream with
  | some m => m.data
  | none => o.fileStream.getD []

theorem Written.content_eq {o : TempFileStream} {w : Bytes} (h : Written o w) : o.content = w := by
  rcases h with ⟨rfl, _⟩ | rfl <;> rfl

/-- The stream handed back, if any, holds the content. -/
theorem holds_content {o : TempFileStream} {s : TempInputStream} (h : inputStream o = some s) :
    Holds s o.content := by
  obtain ⟨mem, file⟩ := o
  cases mem with
  | some m =>
    obtain rfl := Option.some.inj h
    exact MemoryInputStream.new_holds m.data
  | none =>
    cases file with
    | some f =>
      obtain rfl := Option.some.inj h
      exact FileStream.openRead_holds f
    | none => exact absurd h (by simp [inputStream])

/-- Where the stream that is handed back reads from. -/
theorem inputStream_given (w : Bytes) : ∃ s, inputStream (given w) = some s ∧ Holds s w ∧
    (s.isLeft = true ↔ w.length ≤ TEMP_BUFFER_SIZE) := by
  by_cases hw : w.length ≤ TEMP_BUFFER_SIZE
  · rw [given_of_le hw]
    exact ⟨_, rfl, MemoryInputStream.new_holds w, iff_of_true rfl hw⟩
  · rw [given_of_lt (by omega)]
    exact ⟨_, rfl, FileStream.openRead_holds w, iff_of_false Bool.false_ne_true hw⟩

/-- **The move to a file cannot be seen.**  However the bytes are cut into writes
and wherever the limit falls in them, every write succeeds, and whatever the
calls on the stream that is handed back, it is a cursor in their concatenation
and knows its length.  It reads from memory exactly if they fit. -/
theorem spill_transparent (writes : List Bytes) :
    ∃ o s, writeChunks writes TempFileStream.new = ok () o ∧ inputStream o = some s ∧
      InputStream.canRewind s = true ∧
      InputStream.size s = ((writes.map List.length).sum : ℕ) ∧
      (∀ ops : List StreamOp, ∃ s',
        runOps ops s = ok (cursorOps writes.flatten ops writes.flatten) s' ∧
          InputStream.size s' = ((writes.map List.length).sum : ℕ)) ∧
      (∀ ns : List ℕ, ∃ s' reads, runOps (ns.map .read) s = ok reads s' ∧
        reads.flatten = writes.flatten.take ns.sum) ∧
      (∀ (ops : List StreamOp) (ns : List ℕ), ∃ s' before reads,
        runOps (ops ++ .rewind :: ns.map .read) s = ok (before ++ reads) s' ∧
          reads.flatten = writes.flatten.take ns.sum) ∧
      (s.isLeft = true ↔ (writes.map List.length).sum ≤ TEMP_BUFFER_SIZE) := by
  obtain ⟨o, hwrites, rfl⟩ := writeChunks_spec given_sink writes
    (show TempFileStream.new = given [] from (given_of_le (Nat.zero_le _)).symm)
  rw [List.nil_append] at hwrites
  obtain ⟨s, hinput, hs, hplace⟩ := inputStream_given writes.flatten
  rw [List.length_flatten] at hplace
  refine ⟨_, s, hwrites, hinput, RewindableStream.canRewind_eq hs, ?_, ?_, ?_, ?_, hplace⟩
  · rw [RewindableStream.size_eq hs, List.length_flatten]
  · intro ops
    obtain ⟨s', r', hrun, hs'⟩ := runOps_spec ops hs
    refine ⟨s', hrun, ?_⟩
    rw [RewindableStream.size_eq hs', List.length_flatten]
  · exact fun ns => hs.runReads ns
  · exact fun ops ns => hs.runRewound ops ns

end TempFileStream

end Nebula
