/-
What a failed `FileDataStore::put` leaves behind.

The file is emptied when it is opened and filled chunk by chunk in its place.
A `put` that is cancelled removes the file; one that stops at an error of the
source or of `fwrite` leaves what was written so far.  Nothing brings back what
stood there before.  A flush that fails when the file is closed is not even an
error: the `put` returns.  Main results:

* `put_keeps_iff` — when a `put` that throws leaves the store as it was;
* `put_whole_iff` — when a `put` that returns has stored the stream.
-/
import NebulaBackup.DataStore

namespace Nebula

open EStateM.Result

namespace FileDataStore

section Loop

variable {σ : Type} [InputStream σ] [RewindableStream σ]

/-- The chunk at which a `put` ends is the only one that can fail. -/
theorem Reached.eq_of_not_done {progress : ProgressFunction} {c : Bytes} {io : List ChunkEvent}
    {i m : ℕ} (hi : Reached progress c io i) (hm : Reached progress c io m)
    (hend : chunkEnd progress c io i ≠ .done)
    (hlast : chunkEnd progress c io m = .done → c.length ≤ 4096 * m) : i = m := by
  rcases lt_trichotomy i m with hlt | heq | hgt
  · exact absurd (hm i hlt).2 hend
  · exact heq
  · have hmore := hi m hgt
    exact absurd (hlast hmore.2) (not_le.mpr hmore.1)

/-- In one equation: the file was already what the chunk leaves. -/
theorem keeps_iff_left (progress : ProgressFunction) (c : Bytes) (io : List ChunkEvent) (i : ℕ)
    (file : Option Bytes) :
    (match chunkEnd progress c io i with
      | .done => True
      | .cancelled => file = none
      | .failed kept => file = some (c.take kept)) ↔
      (chunkEnd progress c io i ≠ .done → file = left progress c io i) := by
  rw [left]
  cases chunkEnd progress c io i with
  | done => simp
  | cancelled => simp
  | failed kept => simp

/-- **When a `put` that throws leaves the store as it was**: when no chunk of it
fails, or the one that fails was cancelled and there was no file, or it was an
error and the file held just the bytes that were written before. -/
theorem put_keeps_iff (d : FileDataStore) (p : Bytes) {s : σ} {c : Bytes} (hs : Holds s c)
    (progress : ProgressFunction) :
    (∀ e d' s', put d p s progress = error e (d', s') →
        ∀ q, d'.files.find? q = d.files.find? q) ↔
      ∀ i, Reached progress c d.io i → match chunkEnd progress c d.io i with
        | .done => True
        | .cancelled => d.files.find? (d.fullPath p) = none
        | .failed kept => d.files.find? (d.fullPath p) = some (c.take kept) := by
  obtain ⟨m, hm, d', s', -, honly, hcase⟩ := put_end d p hs progress
  have hlast : chunkEnd progress c d.io m = .done → c.length ≤ 4096 * m := by
    intro hdone
    rcases hcase with ⟨-, hlen, -⟩ | ⟨hnot, -⟩
    · exact hlen
    · exact absurd hdone hnot
  have hsame : (∀ q, d'.files.find? q = d.files.find? q) ↔
      d.files.find? (d.fullPath p) = left progress c d.io m := by
    constructor
    · intro h
      rw [← h, honly.files, if_pos rfl]
    · intro h q
      rw [honly.files]
      split
      · rename_i hq
        rw [hq, h]
      · rfl
  constructor
  · intro h i hi
    refine (keeps_iff_left progress c d.io i _).mpr fun hend => ?_
    obtain rfl := hi.eq_of_not_done hm hend hlast
    rcases hcase with ⟨hdone, -⟩ | ⟨-, e, -, hrun⟩
    · exact absurd hdone hend
    · exact hsame.mp (h e d' s' hrun)
  · intro h e d'' s'' herr
    rcases hcase with ⟨-, -, hrun⟩ | ⟨hnot, e', -, hrun⟩
    · exact absurd (herr.symm.trans hrun) (by simp)
    · rw [hrun, EStateM.Result.error.injEq, Prod.mk.injEq] at herr
      rw [← herr.2.1, hsame]
      exact (keeps_iff_left progress c d.io m _).mp (h m hm) hnot

/-- **When a `put` that returns has stored the stream**: when the file was not cut
short at the end, where nobody looks at the answer of `fclose`. -/
theorem put_whole_iff {d d' : FileDataStore} {p : Bytes} (hp : Path.isSep p 0 = true) {s s' : σ}
    {c : Bytes} (hs : Holds s c) {progress : ProgressFunction}
    (hput : put d p s progress = ok () (d', s')) :
    d'.contents = Function.update d.contents p (some c) ↔
      ∃ i, Reached progress c d.io i ∧ c.length ≤ 4096 * i ∧
        ∀ kept, d.io.getD i .ok = .flushFail kept → c.length ≤ kept := by
  obtain ⟨m, hm, d₁, s₁, -, honly, hcase⟩ := put_end d p hs progress
  obtain ⟨hdone, hlen, hrun⟩ | ⟨-, e, -, hrun⟩ := hcase
  swap
  · exact absurd (hput.symm.trans hrun) (by simp)
  rw [hput, EStateM.Result.ok.injEq, Prod.mk.injEq] at hrun
  obtain ⟨-, rfl, -⟩ := hrun
  rw [fullPath_rooted d hp, left, hdone] at honly
  have hwhole : d'.contents = Function.update d.contents p (some c) ↔
      flushed (d.io.getD m .ok) c = c := by
    rw [honly.contents]
    refine ⟨fun h => ?_, fun h => by simp only [h]⟩
    have hfile := congrFun h p
    rwa [Function.update_self, Function.update_self, Option.some.injEq] at hfile
  have hflushed : flushed (d.io.getD m .ok) c = c ↔
      ∀ kept, d.io.getD m .ok = .flushFail kept → c.length ≤ kept := by
    cases d.io.getD m .ok with
    | flushFail kept => simp [flushed]
    | ok | readFail | writeFail written => simp [flushed]
  rw [hwhole, hflushed]
  constructor
  · intro h
    exact ⟨m, hm, hlen, h⟩
  · rintro ⟨i, hi, hilen, h⟩
    -- a second end of the stream would be a chunk behind the first one
    have heq : i = m := by
      rcases lt_trichotomy i m with hlt | heq | hgt
      · exact absurd hilen (not_le.mpr (hm i hlt).1)
      · exact heq
      · exact absurd hlen (not_le.mpr (hi m hgt).1)
    rwa [heq] at h

end Loop

/-! ### A key that is being replaced -/

/-- A store with a key of one byte. -/
def oneKey : FileDataStore := ⟨ascii "/backup", .assign .empty (ascii "/backup/key") [1], []⟩

/-- A first snapshot that is cancelled leaves no trace. -/
theorem put_keeps_iff_fresh :
    Holds (MemoryInputStream.new [2]) [2] ∧
    (∃ e d' s', put oneKey (ascii "/snapshot/s") (MemoryInputStream.new [2]) (fun _ _ => false) =
      error e (d', s')) ∧
    ∀ e d' s',
      put oneKey (ascii "/snapshot/s") (MemoryInputStream.new [2]) (fun _ _ => false) =
        error e (d', s') → ∀ q, d'.files.find? q = oneKey.files.find? q := by
  have hs : Holds (MemoryInputStream.new [2]) [2] := MemoryInputStream.new_holds [2]
  refine ⟨hs, ⟨_, _, _, rfl⟩, (put_keeps_iff oneKey (ascii "/snapshot/s") hs fun _ _ => false).mpr ?_⟩
  intro i hi
  cases i with
  | zero => exact rfl
  | succ i =>
    -- the first chunk is the one that is cancelled, so no later one is reached
    exact absurd (hi 0 (Nat.succ_pos i)).2 (by simp [chunkEnd, oneKey])

/-- **A cancelled change of the key loses the key.** -/
theorem put_loses_key : ∃ d' s',
    put oneKey (ascii "/key") (MemoryInputStream.new [2]) (fun _ _ => false) =
      error (.thrown .CancelledException "User cancelled.") (d', s') ∧
    oneKey.contents (ascii "/key") = some [1] ∧ d'.contents (ascii "/key") = none :=
  ⟨_, _, rfl, by decide, by decide⟩

end FileDataStore

end Nebula
