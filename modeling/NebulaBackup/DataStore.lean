/-
Data stores: the interface `DataStore.h` and `FileDataStore`.

What a store is for is said by `StoreModel`: a map from paths to byte strings
in which `exist` looks, from which `get` copies and which `put` updates.
`FileDataStore` writes the final file in place, chunk by chunk; `io` lists
what happens at the chunks that are still to come, so that a write or a read
of the source may fail anywhere, and the flush when the file is closed.  As
long as nothing fails it is such a map (`FileDataStore.storeModel`); what a put
that fails leaves behind is the subject of `PutFailures`.  Both rest on
`put_end`: `chunkEnd` says how a chunk ends, from the content of the stream, the
answers of `progress` and the I/O alone, and a put ends at the first chunk that
is not done.
-/
import NebulaBackup.SortedMap
import NebulaBackup.Path
import NebulaBackup.MemoryStreams

namespace Nebula

open EStateM.Result

/-- `ProgressFunction`: false asks to cancel. -/
abbrev ProgressFunction := ℤ → ℤ → Bool

/-- `DefaultProgressFunction`. -/
def DefaultProgressFunction : ProgressFunction := fun _ _ => true

/-- `DataStore.h`: the operations that the repository uses. -/
class DataStore (δ : Type) where
  exist : δ → Bytes → Result δ Bool
  get : {ω : Type} → [OutputStream ω] → δ → Bytes → ω → ProgressFunction → Result (δ × ω) Unit
  put : {σ : Type} → [InputStream σ] → δ → Bytes → σ → ProgressFunction → Result (δ × σ) Unit

/-- A store that is a map from paths to byte strings.  `Ok` holds as long as
nothing is wrong with the store itself. -/
structure StoreModel (δ : Type) [DataStore δ] where
  Ok : δ → Prop
  contents : δ → Bytes → Option Bytes
  exist_ok : ∀ {d : δ}, Ok d → ∀ p, Path.isSep p 0 = true →
    ∃ d', DataStore.exist d p = ok (contents d p).isSome d' ∧ Ok d' ∧ contents d' = contents d
  get_ok : ∀ {d : δ}, Ok d → ∀ {p c}, Path.isSep p 0 = true → contents d p = some c →
    ∀ {ω : Type} [OutputStream ω] {W : ω → Bytes → Prop}, Sink W → ∀ {o w}, W o w →
    ∀ progress : ProgressFunction, (∀ i j, progress i j = true) →
      ∃ d' o', DataStore.get d p o progress = ok () (d', o') ∧ Ok d' ∧
        contents d' = contents d ∧ W o' (w ++ c)
  put_ok : ∀ {d : δ}, Ok d → ∀ {p}, Path.isSep p 0 = true →
    ∀ {σ : Type} [InputStream σ] [RewindableStream σ] {s : σ} {c}, Holds s c →
    ∀ progress : ProgressFunction, (∀ i j, progress i j = true) →
      ∃ d' s', DataStore.put d p s progress = ok () (d', s') ∧ Ok d' ∧
        contents d' = Function.update (contents d) p (some c)

/-! ### `FileDataStore` -/

/-- What happens at one chunk of a `put`.  The end of the stream counts as a chunk:
there the file is closed. -/
inductive ChunkEvent
  /-- The chunk is read and written. -/
  | ok
  /-- Reading the source throws. -/
  | readFail
  /-- `fwrite` writes so many bytes of the chunk and fails. -/
  | writeFail (written : ℕ)
  /-- A chunk like any other, but at the end of the stream the bytes that are
  still in the buffer of the file cannot be flushed, and it keeps so many. -/
  | flushFail (kept : ℕ)
deriving DecidableEq

/-- `FileDataStore`: the directory, the files below it by their full paths, and
what happens at the next chunks; nothing fails after the end of the list.

The files are found by the path as it is spelled.  A name that a file system
reads in another way (`.`, `..`, the empty name of a directory) is outside the
model. -/
structure FileDataStore where
  mStoreDirectory : Bytes
  files : SortedMap Bytes Bytes
  io : List ChunkEvent

namespace FileDataStore

/-- `mStoreDirectory / path`, as it is spelled: what is empty or has dots in it leads
elsewhere in a file system, and is not among the paths of the library. -/
def fullPath (d : FileDataStore) (path : Bytes) : Bytes := Path.append d.mStoreDirectory path

/-- `FileDataStore::exist`. -/
def exist (d : FileDataStore) (path : Bytes) : Result FileDataStore Bool :=
  ok (d.files.find? (d.fullPath path)).isSome d

section Get

variable {ω : Type} [OutputStream ω]

/-- The loop of `get` over the bytes that are left in the file; every round
reads at least one. -/
def getLoop (progress : ProgressFunction) (fileSize : ℤ) : ℕ → Bytes → ℤ → ω → Result ω Unit
  | 0, left, _, o => if left = [] then ok () o else error .outOfFuel o
  | k + 1, left, bytesRead, o =>
    if left = [] then ok () o
    else if progress bytesRead fileSize = false then
      error (.thrown .CancelledException "User cancelled.") o
    else
      match OutputStream.write o (left.take 4096) with
      | error e o' => error e o'
      | ok _ o' =>
        getLoop progress fileSize k (left.drop 4096) (bytesRead + (left.take 4096).length) o'

/-- `FileDataStore::get`. -/
def get (d : FileDataStore) (path : Bytes) (o : ω) (progress : ProgressFunction) :
    Result (FileDataStore × ω) Unit :=
  match d.files.find? (d.fullPath path) with
  | none => error (.thrown .FileNotFoundException (text (d.fullPath path) ++ ": File not found."))
      (d, o)
  | some c =>
    match getLoop progress c.length c.length c 0 o with
    | error e o' => error e (d, o')
    | ok _ o' => ok () (d, o')

end Get

section Put

variable {σ : Type} [InputStream σ]

/-- Write to the end of a file. -/
def appendTo (d : FileDataStore) (full : Bytes) (data : Bytes) : FileDataStore :=
  { d with files := d.files.assign full (((d.files.find? full).getD []) ++ data) }

/-- Remove a file. -/
def removeFile (d : FileDataStore) (full : Bytes) : FileDataStore :=
  { d with files := d.files.erase full }

/-- The file is closed at the end of the stream.  The result of `fclose` is
dropped, so that the caller never learns that the flush failed. -/
def close (d : FileDataStore) (full : Bytes) : ChunkEvent → FileDataStore
  | .flushFail kept =>
    { d with files := d.files.assign full (((d.files.find? full).getD []).take kept) }
  | _ => d

/-- The next chunk event. -/
def popEvent (d : FileDataStore) : ChunkEvent × FileDataStore :=
  match d.io with
  | [] => (.ok, d)
  | e :: io => (e, { d with io := io })

/-- The loop of `put`, with the number of rounds bounded. -/
def putLoop (full : Bytes) (progress : ProgressFunction) (fileSize : ℤ) :
    ℕ → FileDataStore → σ → ℤ → Result (FileDataStore × σ) Unit
  | 0, d, s, _ => error .outOfFuel (d, s)
  | k + 1, d, s, bytesWritten =>
    match popEvent d with
    | (.readFail, d) =>
      error (.thrown .FileIOException "There was an error reading the file.") (d, s)
    | (.writeFail written, d) =>
      match InputStream.read s 4096 with
      | error e s' => error e (d, s')
      | ok chunk s' =>
        if chunk = [] then ok () (d, s')
        else
          error (.thrown .FileIOException (text full ++ ": Write error."))
            (d.appendTo full (chunk.take written), s')
    | (event, d) =>
      match InputStream.read s 4096 with
      | error e s' => error e (d, s')
      | ok chunk s' =>
        if chunk = [] then ok () (d.close full event, s')
        else if progress bytesWritten fileSize = false then
          -- if cancel has been requested, remove the in progress file
          error (.thrown .CancelledException "User cancelled.")
            ((d.appendTo full chunk).removeFile full, s')
        else
          putLoop full progress fileSize k (d.appendTo full chunk) s' (bytesWritten + chunk.length)

/-- `FileDataStore::put`: the file is emptied first, then filled.  The streams
that are put know their size, which bounds the rounds. -/
def put (d : FileDataStore) (path : Bytes) (s : σ) (progress : ProgressFunction) :
    Result (FileDataStore × σ) Unit :=
  putLoop (d.fullPath path) progress (InputStream.size s) ((InputStream.size s).toNat + 1)
    { d with files := d.files.assign (d.fullPath path) [] } s 0

end Put

instance : DataStore FileDataStore where
  exist := exist
  get := get
  put := put

/-! ### What the loops do -/

/-- No chunk that is still to come fails. -/
def Ok (d : FileDataStore) : Prop := ∀ e ∈ d.io, e = .ok

/-- The file at a path of the store. -/
def contents (d : FileDataStore) (path : Bytes) : Option Bytes :=
  d.files.find? (d.mStoreDirectory ++ path)

theorem fullPath_rooted (d : FileDataStore) {p : Bytes} (hp : Path.isSep p 0 = true) :
    d.fullPath p = d.mStoreDirectory ++ p := by
  have hne : p ≠ [] := by
    rintro rfl
    exact absurd hp (by decide)
  rw [fullPath, Path.append, if_neg hne, if_pos hp]

/-- How a chunk of a `put` ends. -/
inductive ChunkEnd
  /-- The chunk is written, or the stream is at its end. -/
  | done
  /-- `progress` asks to stop. -/
  | cancelled
  /-- An error, with so many bytes of the stream in the file. -/
  | failed (kept : ℕ)

/-- How chunk `i` of a stream with the content `c` ends. -/
def chunkEnd (progress : ProgressFunction) (c : Bytes) (io : List ChunkEvent) (i : ℕ) : ChunkEnd :=
  match io.getD i .ok with
  | .readFail => .failed (4096 * i)
  | .writeFail written =>
    if c.length ≤ 4096 * i then .done else .failed (4096 * i + min written 4096)
  | _ =>
    if c.length ≤ 4096 * i then .done
    else if progress (4096 * i : ℕ) c.length = false then .cancelled
    else .done

/-- The loop comes to chunk `i`. -/
def Reached (progress : ProgressFunction) (c : Bytes) (io : List ChunkEvent) (i : ℕ) : Prop :=
  ∀ j < i, 4096 * j < c.length ∧ chunkEnd progress c io j = .done

/-- What the close leaves of a file that was written to its end. -/
def flushed (event : ChunkEvent) (c : Bytes) : Bytes :=
  match event with
  | .flushFail kept => c.take kept
  | _ => c

/-- The file that a `put` of `c` leaves when chunk `i` was its last: what the close
leaves of the whole content, nothing, or what was written before the error. -/
def left (progress : ProgressFunction) (c : Bytes) (io : List ChunkEvent) (i : ℕ) : Option Bytes :=
  match chunkEnd progress c io i with
  | .done => some (flushed (io.getD i .ok) c)
  | .cancelled => none
  | .failed kept => some (c.take kept)

theorem Reached.succ {progress : ProgressFunction} {c : Bytes} {io : List ChunkEvent} {i : ℕ}
    (h : Reached progress c io i) (hlt : 4096 * i < c.length)
    (hdone : chunkEnd progress c io i = .done) : Reached progress c io (i + 1) := by
  intro j hj
  rcases Nat.lt_succ_iff_lt_or_eq.mp hj with hj | rfl
  · exact h j hj
  · exact ⟨hlt, hdone⟩

/-- The next event is the one of the next chunk. -/
theorem popEvent_drop {d : FileDataStore} {io : List ChunkEvent} {i : ℕ} (h : d.io = io.drop i) :
    popEvent d = (io.getD i .ok, { d with io := io.drop (i + 1) }) := by
  obtain ⟨dir, files, events⟩ := d
  subst h
  cases hdrop : io.drop i with
  | nil =>
    have hlen : io.length ≤ i := List.drop_eq_nil_iff.mp hdrop
    rw [List.getD_eq_default _ _ hlen, List.drop_eq_nil_of_le (by omega)]
    rfl
  | cons e rest =>
    have hi : i < io.length := by
      by_contra hc
      rw [List.drop_eq_nil_of_le (by omega)] at hdrop
      exact absurd hdrop (by simp)
    rw [List.drop_eq_getElem_cons hi, List.cons.injEq] at hdrop
    rw [List.getD_eq_getElem _ _ hi, hdrop.1, hdrop.2]
    rfl

/-- The store differs from `d` only at the file `full`, which is `c`. -/
structure OnlyAt (d : FileDataStore) (full : Bytes) (c : Option Bytes) (d' : FileDataStore) :
    Prop where
  dir : d'.mStoreDirectory = d.mStoreDirectory
  files : ∀ q, d'.files.find? q = if q = full then c else d.files.find? q

theorem OnlyAt.trans {d d' d'' : FileDataStore} {full : Bytes} {c c' : Option Bytes}
    (h : OnlyAt d full c d') (h' : OnlyAt d' full c' d'') : OnlyAt d full c' d'' := by
  refine ⟨h'.dir.trans h.dir, fun q => ?_⟩
  rw [h'.files, h.files]
  split <;> rfl

theorem OnlyAt.contents {d d' : FileDataStore} {p : Bytes} {c : Option Bytes}
    (h : OnlyAt d (d.mStoreDirectory ++ p) c d') :
    d'.contents = Function.update d.contents p c := by
  funext q
  rw [FileDataStore.contents, h.files, h.dir, Function.update_apply]
  by_cases hq : q = p
  · rw [if_pos (by rw [hq]), if_pos hq]
  · rw [if_neg (fun hc => hq (List.append_cancel_left hc)), if_neg hq]
    rfl

theorem onlyAt_of_find? {d : FileDataStore} {full : Bytes} {c : Option Bytes}
    (h : d.files.find? full = c) (io : List ChunkEvent) : OnlyAt d full c { d with io := io } := by
  refine ⟨rfl, fun q => ?_⟩
  show d.files.find? q = _
  split
  · rename_i hq
    rw [hq, h]
  · rfl

theorem assign_onlyAt (d : FileDataStore) (full c : Bytes) (io : List ChunkEvent) :
    OnlyAt d full (some c) { d with files := d.files.assign full c, io := io } := by
  refine ⟨rfl, fun q => ?_⟩
  show (d.files.assign full c).find? q = _
  rw [SortedMap.find?_assign]
  by_cases hq : q = full
  · rw [if_pos hq, if_pos hq]
  · rw [if_neg hq, if_neg hq]

theorem appendTo_onlyAt {d : FileDataStore} {full w : Bytes} (h : d.files.find? full = some w)
    (data : Bytes) (io : List ChunkEvent) :
    OnlyAt d full (some (w ++ data)) (({ d with io := io } : FileDataStore).appendTo full data) := by
  have hassign := assign_onlyAt d full (w ++ data) io
  rwa [appendTo, show ({ d with io := io } : FileDataStore).files.find? full = some w from h]

/-- Closing the file is about that file alone. -/
theorem close_onlyAt {d : FileDataStore} {full c : Bytes} (h : d.files.find? full = some c)
    (event : ChunkEvent) : OnlyAt d full (some (flushed event c)) (d.close full event) := by
  cases event with
  | flushFail kept =>
    have hassign := assign_onlyAt d full (c.take kept) d.io
    rwa [close, h]
  | ok | readFail | writeFail written => exact onlyAt_of_find? h d.io

@[simp] theorem close_io (d : FileDataStore) (full : Bytes) (event : ChunkEvent) :
    (d.close full event).io = d.io := by
  cases event <;> rfl

theorem OnlyAt.removeFile {d d' : FileDataStore} {full : Bytes} {c : Option Bytes}
    (h : OnlyAt d full c d') : OnlyAt d full none (d'.removeFile full) := by
  refine ⟨h.dir, fun q => ?_⟩
  show (d'.files.erase full).find? q = _
  rw [SortedMap.find?_erase, h.files]
  split <;> rfl

/-- A result of `put` when chunk `m` was its last. -/
def EndsAt {σ : Type} (progress : ProgressFunction) (c : Bytes) (io : List ChunkEvent)
    (d : FileDataStore) (full : Bytes) (m : ℕ) (r : Result (FileDataStore × σ) Unit) : Prop :=
  ∃ d' s', d'.io = io.drop (m + 1) ∧ OnlyAt d full (left progress c io m) d' ∧
    ((chunkEnd progress c io m = .done ∧ c.length ≤ 4096 * m ∧ r = ok () (d', s')) ∨
      (chunkEnd progress c io m ≠ .done ∧ ∃ e, (chunkEnd progress c io m = .cancelled →
          e = .thrown .CancelledException "User cancelled.") ∧ r = error e (d', s')))

/-- What was there before does not matter. -/
theorem OnlyAt.endsAt {σ : Type} {progress : ProgressFunction} {c full : Bytes}
    {io : List ChunkEvent} {d d' : FileDataStore} {w : Option Bytes} {m : ℕ}
    {r : Result (FileDataStore × σ) Unit} (h : OnlyAt d full w d')
    (hr : EndsAt progress c io d' full m r) : EndsAt progress c io d full m r := by
  obtain ⟨d'', s', hio, honly, hcase⟩ := hr
  exact ⟨d'', s', hio, h.trans honly, hcase⟩

section Loops

variable {σ : Type} [InputStream σ] [RewindableStream σ]

section Round

variable {full c : Bytes} (progress : ProgressFunction) {io : List ChunkEvent} {d : FileDataStore}
  {i : ℕ} {s : σ} (hio : d.io = io.drop i)
  (hfile : d.files.find? full = some (c.take (4096 * i)))
  (hs : RewindableStream.Rep c s (c.drop (4096 * i)))

include hio hfile hs

/-- At the end of the stream nothing is written that could fail. -/
theorem putLoop_atEnd (k : ℕ) (hlen : c.length ≤ 4096 * i) (hevent : io.getD i .ok ≠ .readFail) :
    EndsAt progress c io d full i
      (putLoop full progress c.length (k + 1) d s (min (4096 * i) c.length : ℕ)) := by
  obtain ⟨s', hread, -⟩ := RewindableStream.read_ok hs 4096
  have hnil : (c.drop (4096 * i)).take 4096 = [] := by
    rw [List.drop_eq_nil_of_le hlen, List.take_nil]
  have hdone : chunkEnd progress c io i = .done := by
    rw [chunkEnd]
    split
    · exact absurd ‹_› hevent
    · rw [if_pos hlen]
    · rw [if_pos hlen]
  rw [List.take_of_length_le hlen] at hfile
  refine ⟨({ d with io := io.drop (i + 1) } : FileDataStore).close full (io.getD i .ok), s',
    close_io _ _ _, ?_, Or.inl ⟨hdone, hlen, ?_⟩⟩
  · rw [left, hdone]
    exact (onlyAt_of_find? hfile _).trans
      (close_onlyAt (d := { d with io := io.drop (i + 1) }) hfile _)
  · rw [putLoop, popEvent_drop hio]
    cases hcase : io.getD i .ok with
    | readFail => exact absurd hcase hevent
    | writeFail written => simp only [hread, if_pos hnil, close]
    | ok | flushFail kept => simp only [hread, if_pos hnil]

/-- **A round of the loop of `put`, with any I/O**: before chunk `i` the file holds
the chunks before it, and the loop ends there or goes on with the next one. -/
theorem putLoop_round (k : ℕ) :
    EndsAt progress c io d full i
        (putLoop full progress c.length (k + 1) d s (min (4096 * i) c.length : ℕ)) ∨
      4096 * i < c.length ∧ chunkEnd progress c io i = .done ∧ ∃ d' s', d'.io = io.drop (i + 1) ∧
        OnlyAt d full (some (c.take (4096 * (i + 1)))) d' ∧
        RewindableStream.Rep c s' (c.drop (4096 * (i + 1))) ∧
        putLoop full progress c.length (k + 1) d s (min (4096 * i) c.length : ℕ) =
          putLoop full progress c.length k d' s' (min (4096 * (i + 1)) c.length : ℕ) := by
  by_cases hevent : io.getD i .ok = .readFail
  · have hend : chunkEnd progress c io i = .failed (4096 * i) := by rw [chunkEnd, hevent]
    refine Or.inl ⟨{ d with io := io.drop (i + 1) }, s, rfl, ?_,
      Or.inr ⟨by simp [hend], _, by simp [hend], by rw [putLoop, popEvent_drop hio, hevent]⟩⟩
    rw [left, hend]
    exact onlyAt_of_find? hfile _
  by_cases hlen : c.length ≤ 4096 * i
  · exact Or.inl (putLoop_atEnd progress hio hfile hs k hlen hevent)
  obtain ⟨s', hread, hs'⟩ := RewindableStream.read_ok hs 4096
  have hcons : (c.drop (4096 * i)).take 4096 ≠ [] := by
    intro hempty
    have := congrArg List.length hempty
    rw [List.length_take, List.length_drop, List.length_nil] at this
    omega
  have hwritten : min (4096 * i) c.length = 4096 * i := by omega
  rw [putLoop, popEvent_drop hio, hwritten]
  cases hcase : io.getD i .ok with
  | readFail => exact absurd hcase hevent
  | writeFail written =>
    have hend : chunkEnd progress c io i = .failed (4096 * i + min written 4096) := by
      simp only [chunkEnd, hcase, if_neg hlen]
    simp only [hread, if_neg hcons]
    refine Or.inl ⟨_, s', rfl, ?_, Or.inr ⟨by simp [hend], _, by simp [hend], rfl⟩⟩
    have hleft : left progress c io i = some (c.take (4096 * i) ++
        ((c.drop (4096 * i)).take 4096).take written) := by
      simp only [left, hend, List.take_add, List.take_take]
    rw [hleft]
    exact appendTo_onlyAt hfile _ _
  | ok | flushFail kept =>
    -- the end of the stream is not reached, so nothing is closed
    have happ := appendTo_onlyAt hfile ((c.drop (4096 * i)).take 4096) (io.drop (i + 1))
    simp only [hread, if_neg hcons]
    by_cases hprog : progress (4096 * i : ℕ) c.length = false
    · -- the in progress file is removed
      have hend : chunkEnd progress c io i = .cancelled := by
        simp only [chunkEnd, hcase, if_neg hlen, if_pos hprog]
      rw [if_pos hprog]
      refine Or.inl ⟨_, s', rfl, ?_, Or.inr ⟨by simp [hend], _, fun _ => rfl, rfl⟩⟩
      rw [left, hend]
      exact happ.removeFile
    · have hend : chunkEnd progress c io i = .done := by
        simp only [chunkEnd, hcase, if_neg hlen, if_neg hprog]
      have hnext : 4096 * i + 4096 = 4096 * (i + 1) := by ring
      have hbytes : ((4096 * i : ℕ) : ℤ) + ((c.drop (4096 * i)).take 4096).length =
          (min (4096 * (i + 1)) c.length : ℕ) := by
        rw [List.length_take, List.length_drop]
        omega
      rw [← List.take_add, hnext] at happ
      rw [List.drop_drop, hnext] at hs'
      rw [if_neg hprog, hbytes]
      exact Or.inr ⟨by omega, hend, _, s', rfl, happ, hs', rfl⟩

end Round

/-- **The loop of `put`, with any I/O**: it stops at the first chunk that is not
done or at the end of the stream.  By induction on the bound of the rounds. -/
theorem putLoop_end (full c : Bytes) (progress : ProgressFunction) (io : List ChunkEvent) :
    ∀ {k i : ℕ} {d : FileDataStore} {s : σ}, d.io = io.drop i →
      d.files.find? full = some (c.take (4096 * i)) →
      RewindableStream.Rep c s (c.drop (4096 * i)) → c.length - 4096 * i < k →
      Reached progress c io i →
      ∃ m, Reached progress c io m ∧ EndsAt progress c io d full m
        (putLoop full progress c.length k d s (min (4096 * i) c.length : ℕ)) := by
  intro k
  induction k with
  | zero =>
    intro i d s _ _ _ hk _
    omega
  | succ k ih =>
    intro i d s hio hfile hs hk hreached
    rcases putLoop_round progress hio hfile hs k with
      hends | ⟨hlt, hdone, d', s', hio', honly, hs', hloop⟩
    · exact ⟨i, hreached, hends⟩
    · obtain ⟨m, hm, hends⟩ := ih hio' (by rw [honly.files, if_pos rfl]) hs' (by omega)
        (hreached.succ hlt hdone)
      rw [hloop]
      exact ⟨m, hm, honly.endsAt hends⟩

/-- **How a `put` ends**: at the first chunk that is not done, or at the end of
the stream; and it changes no other file. -/
theorem put_end (d : FileDataStore) (p : Bytes) {s : σ} {c : Bytes} (hs : Holds s c)
    (progress : ProgressFunction) :
    ∃ m, Reached progress c d.io m ∧
      EndsAt progress c d.io d (d.fullPath p) m (put d p s progress) := by
  have hopen := assign_onlyAt d (d.fullPath p) [] d.io
  obtain ⟨m, hm, hends⟩ := putLoop_end (d.fullPath p) c progress d.io
    (k := (InputStream.size s).toNat + 1) (i := 0)
    (d := { d with files := d.files.assign (d.fullPath p) [] }) rfl
    (by rw [hopen.files, if_pos rfl]; rfl) hs
    (by rw [RewindableStream.size_eq hs]; omega) fun j hj => absurd hj (Nat.not_lt_zero j)
  rw [RewindableStream.size_eq hs] at hends
  rw [put, RewindableStream.size_eq hs]
  exact ⟨m, hm, hopen.endsAt hends⟩

/-- Without I/O errors every chunk is the usual one. -/
theorem Ok.getD {d : FileDataStore} (hd : Ok d) (i : ℕ) : d.io.getD i .ok = .ok := by
  by_cases hi : i < d.io.length
  · rw [List.getD_eq_getElem _ _ hi]
    exact hd _ (List.getElem_mem hi)
  · exact List.getD_eq_default _ _ (by omega)

/-- Without I/O errors a chunk that is not done was cancelled. -/
theorem Ok.chunkEnd {d : FileDataStore} (hd : Ok d) (progress : ProgressFunction) (c : Bytes)
    (i : ℕ) : chunkEnd progress c d.io i = .done ∨
      (chunkEnd progress c d.io i = .cancelled ∧ ∃ i j, progress i j = false) := by
  simp only [FileDataStore.chunkEnd, hd.getD i]
  by_cases hlen : c.length ≤ 4096 * i
  · exact Or.inl (if_pos hlen)
  · by_cases hprog : progress (4096 * i : ℕ) c.length = false
    · exact Or.inr ⟨by rw [if_neg hlen, if_pos hprog], _, _, hprog⟩
    · exact Or.inl (by rw [if_neg hlen, if_neg hprog])

/-- **A `put` without I/O errors**: either the whole stream stands in the file,
or the caller cancelled and the file is gone. -/
theorem put_spec {d : FileDataStore} (hd : Ok d) {p : Bytes} (hp : Path.isSep p 0 = true) {s : σ}
    {c : Bytes} (hs : Holds s c) (progress : ProgressFunction) :
    ∃ d' s', Ok d' ∧
      ((put d p s progress = ok () (d', s') ∧
          d'.contents = Function.update d.contents p (some c)) ∨
        (put d p s progress = error (.thrown .CancelledException "User cancelled.") (d', s') ∧
          d'.contents = Function.update d.contents p none ∧ ∃ i j, progress i j = false)) := by
  obtain ⟨m, -, d', s', hio, honly, hcase⟩ := put_end d p hs progress
  have hok : Ok d' := by
    intro e he
    rw [hio] at he
    exact hd e (List.mem_of_mem_drop he)
  rw [fullPath_rooted d hp, left, hd.getD m] at honly
  refine ⟨d', s', hok, ?_⟩
  rcases hd.chunkEnd progress c m with hend | ⟨hend, hcancel⟩
  · rcases hcase with ⟨-, -, hrun⟩ | ⟨hnot, -⟩
    · rw [hend] at honly
      exact Or.inl ⟨hrun, honly.contents⟩
    · exact absurd hend hnot
  · rcases hcase with ⟨hdone, -⟩ | ⟨-, e, he, hrun⟩
    · exact absurd (hend.symm.trans hdone) (by simp)
    · rw [hend] at honly
      rw [he hend] at hrun
      exact Or.inr ⟨hrun, honly.contents, hcancel⟩

end Loops

/-- `get` copies the file, however long it is. -/
theorem getLoop_spec {ω : Type} [OutputStream ω] {W : ω → Bytes → Prop} (hW : Sink W)
    {progress : ProgressFunction} (hprog : ∀ i j, progress i j = true) (fileSize : ℤ) :
    ∀ {k : ℕ} {left : Bytes} (bytesRead : ℤ) {o : ω} {w : Bytes}, W o w → left.length ≤ k →
      ∃ o', getLoop progress fileSize k left bytesRead o = ok () o' ∧ W o' (w ++ left) := by
  intro k
  induction k with
  | zero =>
    intro left bytesRead o w ho hk
    have hnil : left = [] := List.length_eq_zero_iff.mp (by omega)
    subst hnil
    exact ⟨o, by simp [getLoop], by simpa using ho⟩
  | succ k ih =>
    intro left bytesRead o w ho hk
    rw [getLoop]
    by_cases hnil : left = []
    · subst hnil
      exact ⟨o, by simp, by simpa using ho⟩
    · obtain ⟨o', hwrite, ho'⟩ := hW.write_ok ho (left.take 4096)
      have hlen : (left.drop 4096).length ≤ k := by
        have := List.length_pos_iff.mpr hnil
        rw [List.length_drop]
        omega
      obtain ⟨o'', hloop, ho''⟩ := ih (bytesRead + (left.take 4096).length) ho' hlen
      refine ⟨o'', ?_, by rwa [List.append_assoc, List.take_append_drop] at ho''⟩
      rw [if_neg hnil, if_neg (by simp [hprog]), hwrite]
      exact hloop

/-- **Without I/O errors a `FileDataStore` is a map.** -/
def storeModel : StoreModel FileDataStore where
  Ok := Ok
  contents := contents
  exist_ok {d} hd p hp := by
    refine ⟨d, ?_, hd, rfl⟩
    show exist d p = _
    rw [exist, fullPath_rooted d hp]
    rfl
  get_ok {d} hd p c hp hc ω _ W hW o w ho progress hprog := by
    obtain ⟨o', hloop, ho'⟩ := getLoop_spec hW hprog c.length 0 ho (le_refl c.length)
    refine ⟨d, o', ?_, hd, rfl, ho'⟩
    show get d p o progress = _
    rw [get, fullPath_rooted d hp]
    rw [contents] at hc
    simp only [hc, hloop]
  put_ok {d} hd p hp σ _ _ s c hs progress hprog := by
    obtain ⟨d', s', hd', ⟨hrun, hcont⟩ | ⟨-, -, i, j, hfalse⟩⟩ := put_spec hd hp hs progress
    · exact ⟨d', s', hrun, hd', hcont⟩
    · rw [hprog] at hfalse
      exact absurd hfalse (by decide)

end FileDataStore

end Nebula
