/-
The stream interfaces and the loops written against them.

`InputStream` and `OutputStream` are the abstract classes of `InputStream.h`
and `OutputStream.h`; `skipLoop`, `copyTo` and `readExpected` are their
non-virtual parts.  What a stream is for is said by two relations:

* `Source R` — `R s r` means that `s` still delivers exactly the bytes `r`: a
  read returns its full size as long as the bytes last, and nothing else
  (the contract in the comment of `InputStream::read`);
* `Sink W` — `W o w` means that `o` has taken the bytes `w`.

`RewindableStream` adds the contents a stream returns to when it is rewound.
The loops are then specified once, over every source and sink
(`copyTo_spec`, `readExpected_spec`, `skipLoop_spec`, `writeChunks_spec`).
-/
import NebulaBackup.Basic

namespace Nebula

open EStateM.Result

/-- `InputStream.h`. -/
class InputStream (σ : Type) where
  read : σ → ℕ → Result σ Bytes
  skip : σ → ℕ → Result σ ℕ
  canRewind : σ → Bool
  rewind : σ → Result σ Unit
  size : σ → ℤ

/-- `OutputStream.h`. -/
class OutputStream (ω : Type) where
  write : ω → Bytes → Result ω Unit

/-! ### The loops of `InputStream.cpp` -/

section Loops

variable {σ ω : Type} [InputStream σ] [OutputStream ω]

/-- `InputStream::skip`: read in pieces of at most 8192 bytes until `n` bytes
are skipped or a read returns nothing.  Every round skips at least one byte,
so `n` rounds are enough. -/
def skipLoop (read : σ → ℕ → Result σ Bytes) (n : ℕ) : ℕ → σ → ℕ → Result σ ℕ
  | 0, s, skipped => if skipped < n then error .outOfFuel s else ok skipped s
  | k + 1, s, skipped =>
    if skipped < n then
      match read s (min (n - skipped) 8192) with
      | error e s' => error e s'
      | ok d s' => if d = [] then ok skipped s' else skipLoop read n k s' (skipped + d.length)
    else ok skipped s

/-- `InputStream::copyTo`, with the number of rounds bounded. -/
def copyTo : ℕ → σ → ω → Result (σ × ω) Unit
  | 0, s, o => error .outOfFuel (s, o)
  | k + 1, s, o =>
    match InputStream.read s 16384 with
    | error e s' => error e (s', o)
    | ok d s' =>
      if d = [] then ok () (s', o)
      else
        match OutputStream.write o d with
        | error e o' => error e (s', o')
        | ok _ o' => copyTo k s' o'

/-- `InputStream::readExpected`.  The message is what is written to its `strstream`;
the text of the exception may go on behind it, since nobody ends it with a NUL. -/
def readExpected (s : σ) (size : ℕ) : Result σ Bytes :=
  match InputStream.read s size with
  | error e s' => error e s'
  | ok d s' =>
    if d.length ≠ size then
      let n := d.length
      error (.thrown .ShortReadException
        s!"InputStream::readExpected() attempted to read {size} bytes but instead got {n} bytes.") s'
    else ok d s'

/-- The loop `while((n = read(buffer, chunk)) > 0) update(buffer, n)` around a
digest context: everything the context is fed. -/
def readAll (chunk : ℕ) : ℕ → σ → Bytes → Result σ Bytes
  | 0, s, _ => error .outOfFuel s
  | k + 1, s, acc =>
    match InputStream.read s chunk with
    | error e s' => error e s'
    | ok d s' => if d = [] then ok acc s' else readAll chunk k s' (acc ++ d)

/-- Writes that follow each other, such as those of `LzmaOutputStream`, one for
each chunk of the encoder. -/
def writeChunks : List Bytes → ω → Result ω Unit
  | [], o => ok () o
  | c :: cs, o =>
    match OutputStream.write o c with
    | error e o' => error e o'
    | ok _ o' => writeChunks cs o'

end Loops

/-! ### What streams deliver and take -/

/-- `R s r`: the stream `s` delivers exactly `r`, in full reads. -/
structure Source {σ : Type} [InputStream σ] (R : σ → Bytes → Prop) : Prop where
  read_ok : ∀ {s : σ} {r : Bytes}, R s r → ∀ n,
    ∃ s', InputStream.read s n = ok (r.take n) s' ∧ R s' (r.drop n)

/-- `W o w`: the stream `o` has taken exactly `w` and takes whatever follows. -/
structure Sink {ω : Type} [OutputStream ω] (W : ω → Bytes → Prop) : Prop where
  write_ok : ∀ {o : ω} {w : Bytes}, W o w → ∀ d,
    ∃ o', OutputStream.write o d = ok () o' ∧ W o' (w ++ d)

/-- The same for a stream with room for `n` bytes. -/
structure SinkUpTo {ω : Type} [OutputStream ω] (n : ℕ) (W : ω → Bytes → Prop) : Prop where
  write_ok : ∀ {o : ω} {w : Bytes}, W o w → ∀ d, w.length + d.length ≤ n →
    ∃ o', OutputStream.write o d = ok () o' ∧ W o' (w ++ d)

theorem Sink.upTo {ω : Type} [OutputStream ω] {W : ω → Bytes → Prop} (hW : Sink W) (n : ℕ) :
    SinkUpTo n W :=
  ⟨fun h d _ => hW.write_ok h d⟩

/-- A stream type whose values hold a content and can be rewound to its
start.  `Rep c s r`: the stream `s` holds `c` and has `r` left to deliver. -/
class RewindableStream (σ : Type) [InputStream σ] where
  Rep : Bytes → σ → Bytes → Prop
  read_ok : ∀ {c : Bytes} {s : σ} {r : Bytes}, Rep c s r → ∀ n,
    ∃ s', InputStream.read s n = ok (r.take n) s' ∧ Rep c s' (r.drop n)
  skip_ok : ∀ {c : Bytes} {s : σ} {r : Bytes}, Rep c s r → ∀ n,
    ∃ s' k, InputStream.skip s n = ok k s' ∧ Rep c s' (r.drop n)
  canRewind_eq : ∀ {c : Bytes} {s : σ} {r : Bytes}, Rep c s r → InputStream.canRewind s = true
  rewind_ok : ∀ {c : Bytes} {s : σ} {r : Bytes}, Rep c s r →
    ∃ s', InputStream.rewind s = ok () s' ∧ Rep c s' c
  size_eq : ∀ {c : Bytes} {s : σ} {r : Bytes}, Rep c s r → InputStream.size s = (c.length : ℤ)

/-- A read that empties a buffer takes the missing bytes from what follows. -/
theorem take_past_buffer {b : Bytes} {n : ℕ} (h : b.length ≤ n) (t : Bytes) :
    (b ++ t).take n = b ++ t.take (n - b.length) := by
  rw [List.take_append, List.take_of_length_le h]

/-- What such a read leaves. -/
theorem drop_past_buffer {b : Bytes} {n : ℕ} (h : b.length ≤ n) (t : Bytes) :
    (b ++ t).drop n = t.drop (n - b.length) := by
  rw [List.drop_append, List.drop_eq_nil_of_le h, List.nil_append]

section Specs

variable {σ ω : Type} [InputStream σ] [OutputStream ω]

/-- A rewindable stream holding `c` is a source. -/
theorem RewindableStream.source [RewindableStream σ] (c : Bytes) :
    Source (RewindableStream.Rep c : σ → Bytes → Prop) :=
  ⟨fun h n => RewindableStream.read_ok h n⟩

/-- A stream at the start of the contents `c`. -/
def Holds [RewindableStream σ] (s : σ) (c : Bytes) : Prop := RewindableStream.Rep c s c

variable {R : σ → Bytes → Prop} {W : ω → Bytes → Prop}

/-- `readExpected` returns the next bytes when there are enough of them. -/
theorem readExpected_spec (hR : Source R) {s : σ} {d r : Bytes} (h : R s (d ++ r)) :
    ∃ s', readExpected s d.length = ok d s' ∧ R s' r := by
  obtain ⟨s', hread, hs'⟩ := hR.read_ok h d.length
  rw [List.take_left] at hread
  rw [List.drop_left] at hs'
  refine ⟨s', ?_, hs'⟩
  rw [readExpected, hread]
  simp

/-- **`copyTo` moves everything that is left.** -/
theorem copyTo_spec (hR : Source R) (hW : Sink W) : ∀ {k : ℕ} {s : σ} {o : ω} {r w : Bytes},
    R s r → W o w → r.length < k →
      ∃ s' o', copyTo k s o = ok () (s', o') ∧ R s' [] ∧ W o' (w ++ r) := by
  intro k
  induction k with
  | zero =>
    intro s o r w _ _ hk
    omega
  | succ k ih =>
    intro s o r w hs ho hk
    obtain ⟨s', hread, hs'⟩ := hR.read_ok hs 16384
    rw [copyTo, hread]
    by_cases hr : r = []
    · subst hr
      rw [List.drop_nil] at hs'
      exact ⟨s', o, by simp, hs', by simpa using ho⟩
    · have hne : r.take 16384 ≠ [] := by
        simpa using hr
      obtain ⟨o', hwrite, ho'⟩ := hW.write_ok ho (r.take 16384)
      have hlen : (r.drop 16384).length < k := by
        have := List.length_pos_iff.mpr hr
        rw [List.length_drop]
        omega
      obtain ⟨s'', o'', hcopy, hs'', ho''⟩ := ih hs' ho' hlen
      refine ⟨s'', o'', ?_, hs'', ?_⟩
      · simp only [hne, if_false, hwrite]
        exact hcopy
      · rwa [List.append_assoc, List.take_append_drop] at ho''

/-- A digest loop is fed everything that is left. -/
theorem readAll_spec (hR : Source R) {chunk : ℕ} (hc : 0 < chunk) :
    ∀ {k : ℕ} {s : σ} {r : Bytes} (acc : Bytes), R s r → r.length < k →
      ∃ s', readAll chunk k s acc = ok (acc ++ r) s' ∧ R s' [] := by
  intro k
  induction k with
  | zero =>
    intro s r _ _ hk
    omega
  | succ k ih =>
    intro s r acc hs hk
    obtain ⟨s', hread, hs'⟩ := hR.read_ok hs chunk
    rw [readAll, hread]
    by_cases hr : r = []
    · subst hr
      rw [List.drop_nil] at hs'
      exact ⟨s', by simp, hs'⟩
    · have hne : r.take chunk ≠ [] := by
        rw [Ne, List.take_eq_nil_iff, not_or]
        exact ⟨by omega, hr⟩
      have hlen : (r.drop chunk).length < k := by
        have := List.length_pos_iff.mpr hr
        rw [List.length_drop]
        omega
      obtain ⟨s'', hall, hs''⟩ := ih (acc ++ r.take chunk) hs' hlen
      refine ⟨s'', ?_, hs''⟩
      simp only [hne, if_false]
      rw [hall, List.append_assoc, List.take_append_drop]

/-- A sink takes the concatenation of the writes. -/
theorem writeChunks_spec (hW : Sink W) : ∀ (cs : List Bytes) {o : ω} {w : Bytes}, W o w →
    ∃ o', writeChunks cs o = ok () o' ∧ W o' (w ++ cs.flatten) := by
  intro cs
  induction cs with
  | nil =>
    intro o w ho
    exact ⟨o, rfl, by simpa using ho⟩
  | cons c cs ih =>
    intro o w ho
    obtain ⟨o', hwrite, ho'⟩ := hW.write_ok ho c
    obtain ⟨o'', hrest, ho''⟩ := ih ho'
    refine ⟨o'', ?_, ?_⟩
    · rw [writeChunks, hwrite]
      exact hrest
    · rwa [List.append_assoc, ← List.flatten_cons] at ho''

/-- The default `skip` leaves what follows the skipped bytes. -/
theorem skipLoop_spec (hR : Source R) {n : ℕ} : ∀ {k : ℕ} {s : σ} {r : Bytes} (skipped : ℕ),
    R s r → n - skipped ≤ k →
      ∃ s' m, skipLoop InputStream.read n k s skipped = ok m s' ∧ R s' (r.drop (n - skipped)) := by
  intro k
  induction k with
  | zero =>
    intro s r skipped hs hk
    have hge : ¬ skipped < n := by omega
    have hzero : n - skipped = 0 := by omega
    rw [skipLoop, if_neg hge, hzero]
    exact ⟨s, skipped, rfl, hs⟩
  | succ k ih =>
    intro s r skipped hs hk
    rw [skipLoop]
    by_cases hlt : skipped < n
    · rw [if_pos hlt]
      obtain ⟨s', hread, hs'⟩ := hR.read_ok hs (min (n - skipped) 8192)
      rw [hread]
      by_cases hr : r = []
      · subst hr
        rw [List.drop_nil] at hs'
        exact ⟨s', skipped, by simp, by simpa using hs'⟩
      · have hne : r.take (min (n - skipped) 8192) ≠ [] := by
          rw [Ne, List.take_eq_nil_iff, not_or]
          exact ⟨by omega, hr⟩
        have hpos := List.length_pos_iff.mpr hr
        have hlen := List.length_take (i := min (n - skipped) 8192) (l := r)
        obtain ⟨s'', m, hskip, hs''⟩ :=
          ih (skipped + (r.take (min (n - skipped) 8192)).length) hs' (by omega)
        refine ⟨s'', m, ?_, ?_⟩
        · simp only [hne, if_false]
          exact hskip
        · -- either the full piece was read, or the stream is at its end
          rw [List.drop_drop] at hs''
          by_cases hfull : min (n - skipped) 8192 ≤ r.length
          · have : min (n - skipped) 8192 + (n - (skipped + (r.take (min (n - skipped) 8192)).length))
                = n - skipped := by omega
            rwa [this] at hs''
          · rw [List.drop_eq_nil_of_le (by omega)] at hs'' ⊢
            exact hs''
    · have hzero : n - skipped = 0 := by omega
      rw [if_neg hlt, hzero]
      exact ⟨s, skipped, rfl, hs⟩

end Specs

/-! ### Any use of a stream -/

/-- A call on a stream. -/
inductive StreamOp
  | read (size : ℕ)
  | rewind
deriving DecidableEq

/-- A sequence of calls, with what each `read` returned. -/
def runOps {σ : Type} [InputStream σ] : List StreamOp → σ → Result σ (List Bytes)
  | [], s => ok [] s
  | .read n :: ops, s =>
    match InputStream.read s n with
    | error e s' => error e s'
    | ok d s' =>
      match runOps ops s' with
      | error e s'' => error e s''
      | ok ds s'' => ok (d :: ds) s''
  | .rewind :: ops, s =>
    match InputStream.rewind s with
    | error e s' => error e s'
    | ok _ s' => runOps ops s'

/-- The same calls on a cursor in the contents `c` with `r` left. -/
def cursorOps (c : Bytes) : List StreamOp → Bytes → List Bytes
  | [], _ => []
  | .read n :: ops, r => r.take n :: cursorOps c ops (r.drop n)
  | .rewind :: ops, _ => cursorOps c ops c

/-- Reads of any sizes deliver what is left, in order. -/
theorem cursorOps_reads (c : Bytes) : ∀ (ns : List ℕ) (r : Bytes),
    (cursorOps c (ns.map .read) r).flatten = r.take ns.sum := by
  intro ns
  induction ns with
  | nil =>
    intro r
    simp [cursorOps]
  | cons n ns ih =>
    intro r
    rw [List.map_cons, cursorOps, List.flatten_cons, ih, List.sum_cons, List.take_add]

/-- What follows a rewind does not depend on what came before it. -/
theorem cursorOps_rewind (c : Bytes) (ops ops' : List StreamOp) : ∀ r : Bytes,
    cursorOps c (ops ++ .rewind :: ops') r = cursorOps c ops r ++ cursorOps c ops' c := by
  induction ops with
  | nil =>
    intro r
    rfl
  | cons op ops ih =>
    intro r
    cases op with
    | read n => simp only [List.cons_append, cursorOps, ih]
    | rewind => simp only [List.cons_append, cursorOps, ih]

/-- The `i`-th of a sequence of reads returns the next bytes, as many as it asked
for or as are left. -/
theorem cursorOps_reads_getD (c : Bytes) : ∀ (ns : List ℕ) (r : Bytes) (i : ℕ),
    (cursorOps c (ns.map .read) r).getD i [] = (r.drop (ns.take i).sum).take (ns.getD i 0) := by
  intro ns
  induction ns with
  | nil =>
    intro r i
    simp [cursorOps]
  | cons n ns ih =>
    intro r i
    rw [List.map_cons, cursorOps]
    cases i with
    | zero => simp
    | succ i =>
      rw [List.getD_cons_succ, ih, List.drop_drop, List.take_succ_cons, List.sum_cons,
        List.getD_cons_succ]

@[simp] theorem cursorOps_reads_length (c : Bytes) : ∀ (ns : List ℕ) (r : Bytes),
    (cursorOps c (ns.map .read) r).length = ns.length := by
  intro ns
  induction ns with
  | nil =>
    intro r
    rfl
  | cons n ns ih =>
    intro r
    rw [List.map_cons, cursorOps, List.length_cons, ih, List.length_cons]

/-- `R s r` for a stream over the contents `c` that can go back to their
start. -/
structure Cursor {σ : Type} [InputStream σ] (c : Bytes) (R : σ → Bytes → Prop) : Prop
    extends Source R where
  rewind_ok : ∀ {s : σ} {r : Bytes}, R s r → ∃ s', InputStream.rewind s = ok () s' ∧ R s' c

section Runs

variable {σ : Type} [InputStream σ] {R : σ → Bytes → Prop} {c : Bytes}

/-- A source delivers what is left, whatever the sizes of the reads. -/
theorem Source.runReads (hR : Source R) (c : Bytes) : ∀ (ns : List ℕ) {s : σ} {r : Bytes}, R s r →
    ∃ s', runOps (ns.map .read) s = ok (cursorOps c (ns.map .read) r) s' ∧ R s' (r.drop ns.sum) := by
  intro ns
  induction ns with
  | nil =>
    intro s r hs
    exact ⟨s, rfl, by simpa using hs⟩
  | cons n ns ih =>
    intro s r hs
    obtain ⟨s', hread, hs'⟩ := hR.read_ok hs n
    obtain ⟨s'', hrun, hs''⟩ := ih hs'
    rw [List.drop_drop] at hs''
    refine ⟨s'', ?_, by simpa using hs''⟩
    simp only [List.map_cons, runOps, hread, hrun, cursorOps]

/-- **A stream that reads and rewinds is a cursor in its contents**, whatever the
calls. -/
theorem Cursor.runOps (hR : Cursor c R) : ∀ (ops : List StreamOp) {s : σ} {r : Bytes}, R s r →
    ∃ s' r', runOps ops s = ok (cursorOps c ops r) s' ∧ R s' r' := by
  intro ops
  induction ops with
  | nil =>
    intro s r hs
    exact ⟨s, r, rfl, hs⟩
  | cons op ops ih =>
    intro s r hs
    cases op with
    | read n =>
      obtain ⟨s', hread, hs'⟩ := hR.read_ok hs n
      obtain ⟨s'', r'', hrun, hs''⟩ := ih hs'
      refine ⟨s'', r'', ?_, hs''⟩
      simp only [Nebula.runOps, hread, hrun, cursorOps]
    | rewind =>
      obtain ⟨s', hrewind, hs'⟩ := hR.rewind_ok hs
      obtain ⟨s'', r'', hrun, hs''⟩ := ih hs'
      refine ⟨s'', r'', ?_, hs''⟩
      simp only [Nebula.runOps, hrewind, hrun, cursorOps]

theorem RewindableStream.cursor [RewindableStream σ] (c : Bytes) :
    Cursor c (RewindableStream.Rep c : σ → Bytes → Prop) :=
  ⟨RewindableStream.source c, RewindableStream.rewind_ok⟩

/-- **A rewindable stream is a cursor in its contents.** -/
theorem runOps_spec [RewindableStream σ] (ops : List StreamOp) {s : σ} {r : Bytes}
    (hs : RewindableStream.Rep c s r) :
    ∃ s' r', runOps ops s = ok (cursorOps c ops r) s' ∧ RewindableStream.Rep c s' r' :=
  (RewindableStream.cursor c).runOps ops hs

/-- Reads from the start deliver the contents. -/
theorem Holds.runReads [RewindableStream σ] {s : σ} (hs : Holds s c) (ns : List ℕ) :
    ∃ s' reads, runOps (ns.map .read) s = ok reads s' ∧ reads.flatten = c.take ns.sum := by
  obtain ⟨s', r', hrun, -⟩ := runOps_spec (ns.map .read) hs
  exact ⟨s', _, hrun, cursorOps_reads c ns c⟩

/-- And so do reads after a rewind, whatever came before it. -/
theorem Holds.runRewound [RewindableStream σ] {s : σ} (hs : Holds s c) (ops : List StreamOp)
    (ns : List ℕ) :
    ∃ s' before reads, runOps (ops ++ .rewind :: ns.map .read) s = ok (before ++ reads) s' ∧
      reads.flatten = c.take ns.sum := by
  obtain ⟨s', r', hrun, -⟩ := runOps_spec (ops ++ .rewind :: ns.map .read) hs
  rw [cursorOps_rewind] at hrun
  exact ⟨s', _, _, hrun, cursorOps_reads c ns c⟩

end Runs

end Nebula
