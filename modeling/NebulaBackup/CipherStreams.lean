/-
`EncryptedOutputStream` and `DecryptedInputStream`.

The writer enciphers in pieces of 4096 bytes and passes on what each piece
completes; the reader keeps what the cipher releases in a buffer and
finalises once, when the stream below ends.  `EncryptedOutputStream.sink`
together with `close_spec` says that the bytes below are the ciphertext of
everything written, however the writes were cut; `DecryptedInputStream.source`
that the reader delivers the plaintext in full reads, however they are cut.
`cipherStreams_cut` puts both together for any sequences of writes and reads.
-/
import NebulaBackup.SampleCrypto
import NebulaBackup.MemoryStreams
import NebulaBackup.StreamCodec

namespace Nebula

open EStateM.Result

/-! ### `EncryptedOutputStream` -/

/-- `EncryptedOutputStream`: the stream below and the cipher context. -/
structure EncryptedOutputStream (ω : Type) where
  stream : ω
  cipher : BlockCipher
  ctx : Cbc.Ctx

namespace EncryptedOutputStream

variable {ω : Type} [OutputStream ω]

/-- The constructor; `iv` is what `arc4random_buf` returned. -/
def new (s : ω) (cipher : BlockCipher) (iv : Bytes) : Result (EncryptedOutputStream ω) Unit :=
  match OutputStream.write s iv with
  | error e s' => error e ⟨s', cipher, .init iv⟩
  | ok _ s' => ok () ⟨s', cipher, .init iv⟩

/-- The loop of `write`; every round takes at least one byte. -/
def writeLoop : ℕ → EncryptedOutputStream ω → Bytes → Result (EncryptedOutputStream ω) Unit
  | 0, e, d => if d = [] then ok () e else error .outOfFuel e
  | k + 1, e, d =>
    if d = [] then ok () e
    else
      match Cbc.encUpdate e.cipher e.ctx (d.take 4096) with
      | (ctx, out) =>
        match OutputStream.write e.stream out with
        | error f s' => error f { e with stream := s', ctx := ctx }
        | ok _ s' => writeLoop k { e with stream := s', ctx := ctx } (d.drop 4096)

def write (e : EncryptedOutputStream ω) (d : Bytes) : Result (EncryptedOutputStream ω) Unit :=
  writeLoop d.length e d

/-- `close` writes the padded last block. -/
def close (e : EncryptedOutputStream ω) : Result (EncryptedOutputStream ω) Unit :=
  match OutputStream.write e.stream (Cbc.encFinal e.cipher e.ctx) with
  | error f s' => error f { e with stream := s' }
  | ok _ s' => ok () { e with stream := s' }

instance : OutputStream (EncryptedOutputStream ω) := ⟨write⟩

/-- The plaintext `p` has been written: below, after `w₀`, stands the part of
its ciphertext that is already determined. -/
def Rep (W : ω → Bytes → Prop) (B : BlockCipher) (iv w₀ : Bytes) (e : EncryptedOutputStream ω)
    (p : Bytes) : Prop :=
  e.cipher = B ∧ e.ctx = (Cbc.encUpdate B (.init iv) p).1 ∧
    W e.stream (w₀ ++ (Cbc.encUpdate B (.init iv) p).2)

variable {W : ω → Bytes → Prop} {B : BlockCipher} {iv w₀ : Bytes}

theorem writeLoop_spec {n : ℕ} (hW : SinkUpTo n W) :
    ∀ {k : ℕ} {e : EncryptedOutputStream ω} {p d : Bytes}, Rep W B iv w₀ e p → d.length ≤ k →
      w₀.length + (Cbc.encUpdate B (.init iv) (p ++ d)).2.length ≤ n →
      ∃ e', writeLoop k e d = ok () e' ∧ Rep W B iv w₀ e' (p ++ d) := by
  intro k
  induction k with
  | zero =>
    intro e p d he hk _
    have hd : d = [] := List.length_eq_zero_iff.mp (by omega)
    subst hd
    exact ⟨e, by simp [writeLoop], by simpa using he⟩
  | succ k ih =>
    intro e p d he hk hn
    rw [writeLoop]
    by_cases hd : d = []
    · subst hd
      exact ⟨e, by simp, by simpa using he⟩
    · obtain ⟨hcipher, hctx, hw⟩ := he
      subst hcipher
      have happ := Cbc.encUpdate_append (B := e.cipher) (.init iv) p (d.take 4096)
      -- what this piece completes is part of what the whole write completes
      rw [← List.take_append_drop 4096 d, ← List.append_assoc] at hn
      have hroom : (w₀ ++ (Cbc.encUpdate e.cipher (.init iv) p).2).length +
          (Cbc.encUpdate e.cipher e.ctx (d.take 4096)).2.length ≤ n := by
        rw [Cbc.encUpdate_append, happ, ← hctx] at hn
        simp only [List.length_append] at hn ⊢
        omega
      obtain ⟨s', hwrite, hs'⟩ := hW.write_ok hw _ hroom
      have hstep : Rep W e.cipher iv w₀
          { e with stream := s', ctx := (Cbc.encUpdate e.cipher e.ctx (d.take 4096)).1 }
          (p ++ d.take 4096) := by
        refine ⟨rfl, ?_, ?_⟩
        · rw [happ, hctx]
        · rw [happ, ← hctx]
          rwa [List.append_assoc] at hs'
      have hlen : (d.drop 4096).length ≤ k := by
        have := List.length_pos_iff.mpr hd
        rw [List.length_drop]
        omega
      obtain ⟨e', hloop, he'⟩ := ih hstep hlen hn
      refine ⟨e', ?_, ?_⟩
      · rw [if_neg hd]
        simp only [hwrite]
        exact hloop
      · rwa [List.append_assoc, List.take_append_drop] at he'

/-- **The cut of the writes does not matter.** -/
theorem sink (hW : Sink W) :
    Sink (Rep W B iv w₀ : EncryptedOutputStream ω → Bytes → Prop) where
  write_ok h _ := writeLoop_spec (hW.upTo _) h (le_refl _) (le_refl _)

/-- The same into a stream with room for the ciphertext of `m` bytes: what was
passed on is never longer than what was written. -/
theorem sinkUpTo {n m : ℕ} (hB : B.Lawful) (hiv : iv.length = B.size) (hW : SinkUpTo n W)
    (hm : w₀.length + m ≤ n) :
    SinkUpTo m (Rep W B iv w₀ : EncryptedOutputStream ω → Bytes → Prop) where
  write_ok {e p} h d hd := by
    obtain ⟨-, -, hlen, -⟩ := Cbc.encUpdate_length (c := .init iv) hB hiv hB.size_pos (p ++ d)
    have hbuf : (Cbc.Ctx.init iv).buf.length = 0 := rfl
    rw [List.length_append] at hlen
    exact writeLoop_spec hW h (le_refl _) (by omega)

/-- The constructor writes the IV. -/
theorem new_spec {n : ℕ} (hW : SinkUpTo n W) {s : ω} {w : Bytes} (h : W s w) (B : BlockCipher)
    {iv : Bytes} (hn : w.length + iv.length ≤ n) :
    ∃ e, new s B iv = ok () e ∧ Rep W B iv (w ++ iv) e [] := by
  obtain ⟨s', hwrite, hs'⟩ := hW.write_ok h iv hn
  refine ⟨⟨s', B, .init iv⟩, ?_, rfl, rfl, ?_⟩
  · rw [new, hwrite]
  · simpa [Cbc.encUpdate] using hs'

/-- After `close` the whole ciphertext stands below. -/
theorem close_spec {n : ℕ} (hW : SinkUpTo n W) {e : EncryptedOutputStream ω} {p : Bytes}
    (h : Rep W B iv w₀ e p) (hn : w₀.length + (Cbc.encrypt B iv p).length ≤ n) :
    ∃ e', close e = ok () e' ∧ W e'.stream (w₀ ++ Cbc.encrypt B iv p) := by
  obtain ⟨rfl, hctx, hw⟩ := h
  have hroom : (w₀ ++ (Cbc.encUpdate e.cipher (.init iv) p).2).length +
      (Cbc.encFinal e.cipher e.ctx).length ≤ n := by
    rw [Cbc.encrypt, ← hctx] at hn
    simp only [List.length_append] at hn ⊢
    omega
  obtain ⟨s', hwrite, hs'⟩ := hW.write_ok hw _ hroom
  refine ⟨{ e with stream := s' }, ?_, ?_⟩
  · rw [close, hwrite]
  · show W s' _
    rw [Cbc.encrypt, ← hctx]
    rwa [List.append_assoc] at hs'

end EncryptedOutputStream

/-! ### `DecryptedInputStream` -/

/-- `DecryptedInputStream`: the stream below, the cipher context, the
`mBytesInBuffer` bytes at `mBufferPtr`, `mDone`, and the bound on the rounds
of one `read`. -/
structure DecryptedInputStream (σ : Type) where
  stream : σ
  cipher : BlockCipher
  ctx : Cbc.Ctx
  buffer : Bytes
  done : Bool
  fuel : ℕ

namespace DecryptedInputStream

variable {σ : Type} [InputStream σ]

/-- The constructor reads the IV. -/
def new (fuel : ℕ) (s : σ) (cipher : BlockCipher) : Result (DecryptedInputStream σ) Unit :=
  match InputStream.read s EVP_MAX_IV_LENGTH with
  | error e s' => error e ⟨s', cipher, .init [], [], false, fuel⟩
  | ok iv s' =>
    if iv.length ≠ EVP_MAX_IV_LENGTH then
      error (.thrown .EncryptionFailedException "Failed to read encryption iv.")
        ⟨s', cipher, .init [], [], false, fuel⟩
    else ok () ⟨s', cipher, .init iv, [], false, fuel⟩

/-- The loop of `read`: `size` bytes are still wanted, `acc` is what was
copied so far. -/
def readLoop : ℕ → DecryptedInputStream σ → ℕ → Bytes → Result (DecryptedInputStream σ) Bytes
  | 0, d, _, _ => error .outOfFuel d
  | k + 1, d, size, acc =>
    if d.buffer.length < size then
      match InputStream.read d.stream 4096 with
      | error e s' => error e { d with stream := s', buffer := [] }
      | ok n s' =>
        if n = [] then
          if d.done = false then
            match Cbc.decFinal d.cipher d.ctx with
            | none =>
              error (.thrown .EncryptionFailedException "EVP_DecryptFinal_ex: Decryption error.")
                { d with stream := s', buffer := [] }
            | some t =>
              readLoop k { d with stream := s', buffer := t, done := true }
                (size - d.buffer.length) (acc ++ d.buffer)
          else ok (acc ++ d.buffer) { d with stream := s', buffer := [] }
        else
          match Cbc.decUpdate d.cipher d.ctx n with
          | (ctx, out) =>
            readLoop k { d with stream := s', ctx := ctx, buffer := out }
              (size - d.buffer.length) (acc ++ d.buffer)
    else ok (acc ++ d.buffer.take size) { d with buffer := d.buffer.drop size }

def read (d : DecryptedInputStream σ) (size : ℕ) : Result (DecryptedInputStream σ) Bytes :=
  readLoop d.fuel d size []

instance : InputStream (DecryptedInputStream σ) where
  read := read
  skip s n := skipLoop read n n s 0
  canRewind _ := false
  rewind s := error (.thrown .InvalidOperationException
    "Input stream does not support rewind().") s
  size _ := -1

/-- The plaintext `r` is left: the buffer, and unless the stream was
finalised, what the context makes of the ciphertext still below. -/
def Rep (R : σ → Bytes → Prop) (d : DecryptedInputStream σ) (r : Bytes) : Prop :=
  ∃ y t : Bytes, R d.stream y ∧ r = d.buffer ++ t ∧ y.length + 3 ≤ d.fuel ∧
    if d.done then y = [] ∧ t = [] else Cbc.decRest d.cipher d.ctx y = some t

variable {R : σ → Bytes → Prop}

/-- The rounds of one `read`, by induction on their bound: it falls with the
ciphertext left below, and two rounds remain for the finalisation and the end
of the stream. -/
theorem readLoop_spec (hR : Source R) : ∀ {k : ℕ} {d : DecryptedInputStream σ} {y t : Bytes}
    (size : ℕ) (acc : Bytes), R d.stream y → y.length + 3 ≤ d.fuel →
      (if d.done then y = [] ∧ t = [] else Cbc.decRest d.cipher d.ctx y = some t) →
      y.length + (if d.done then 2 else 3) ≤ k →
      ∃ d', readLoop k d size acc = ok (acc ++ (d.buffer ++ t).take size) d' ∧
        Rep R d' ((d.buffer ++ t).drop size) := by
  intro k
  induction k with
  | zero =>
    intro d y t size acc _ _ _ hk
    exfalso
    split at hk <;> omega
  | succ k ih =>
    intro d y t size acc hs hfuel hrest hk
    rw [readLoop]
    by_cases hbuf : d.buffer.length < size
    · obtain ⟨s', hread, hs'⟩ := hR.read_ok hs 4096
      rw [if_pos hbuf, hread, take_past_buffer hbuf.le, drop_past_buffer hbuf.le]
      by_cases hy : y = []
      · subst hy
        rw [List.drop_nil] at hs'
        simp only [List.take_nil, if_true]
        by_cases hdone : d.done = true
        · -- the second end of the stream: nothing is left
          rw [if_pos hdone] at hrest
          obtain ⟨_, rfl⟩ := hrest
          refine ⟨{ d with stream := s', buffer := [] }, ?_, [], [], hs', by simp, hfuel, ?_⟩
          · simp [hdone]
          · show if d.done = true then _ else _
            rw [if_pos hdone]
            exact ⟨rfl, rfl⟩
        · -- the first end of the stream: finalise and go on with the last bytes
          have hfalse : d.done = false := by simpa using hdone
          rw [if_neg hdone] at hrest
          obtain ⟨u, hu, rfl⟩ := Option.map_eq_some_iff.mp hrest
          simp only [Cbc.decUpdate, List.nil_append] at hu ⊢
          rw [if_pos hfalse, hu]
          rw [if_neg hdone] at hk
          obtain ⟨d', hloop, hd'⟩ := ih (d := ⟨s', d.cipher, d.ctx, u, true, d.fuel⟩)
            (y := []) (t := []) (size - d.buffer.length) (acc ++ d.buffer) hs' hfuel ⟨rfl, rfl⟩
            (by simpa using by omega)
          rw [List.append_nil] at hloop hd'
          refine ⟨d', ?_, hd'⟩
          rw [← List.append_assoc]
          exact hloop
      · have hne : y.take 4096 ≠ [] := by
          simpa using hy
        have hpos := List.length_pos_iff.mpr hy
        have hlen : (y.drop 4096).length < y.length := by
          rw [List.length_drop]
          omega
        have hdone : d.done = false := by
          by_contra hc
          rw [if_pos (by simpa using hc)] at hrest
          exact hy hrest.1
        rw [if_neg (by simp [hdone]), ← List.take_append_drop 4096 y] at hrest
        obtain ⟨t', rfl, hrest'⟩ := Cbc.decRest_append hrest
        rw [if_neg (by simp [hdone])] at hk
        obtain ⟨d', hloop, hd'⟩ := ih
          (d := ⟨s', d.cipher, (Cbc.decUpdate d.cipher d.ctx (y.take 4096)).1,
            (Cbc.decUpdate d.cipher d.ctx (y.take 4096)).2, d.done, d.fuel⟩)
          (y := y.drop 4096) (t := t') (size - d.buffer.length) (acc ++ d.buffer) hs'
          (by show _ ≤ d.fuel; omega) (by simpa [hdone] using hrest') (by simp [hdone]; omega)
        refine ⟨d', ?_, hd'⟩
        simp only [hne, if_false]
        rw [hloop, List.append_assoc]
    · rw [if_neg hbuf]
      refine ⟨{ d with buffer := d.buffer.drop size }, ?_, y, t, hs, ?_, hfuel, hrest⟩
      · rw [List.take_append_of_le_length (by omega)]
      · rw [List.drop_append_of_le_length (by omega)]

/-- **The reader delivers the plaintext**, in full reads of any sizes. -/
theorem source (hR : Source R) : Source (Rep R : DecryptedInputStream σ → Bytes → Prop) where
  read_ok {d r} h n := by
    obtain ⟨y, t, hs, rfl, hfuel, hrest⟩ := h
    refine readLoop_spec hR n [] hs hfuel hrest ?_
    split <;> omega

/-- The constructor on an IV followed by a ciphertext. -/
theorem new_spec (hR : Source R) {B : BlockCipher} {s : σ} {iv y t : Bytes} {fuel : ℕ}
    (h : R s (iv ++ y)) (hiv : iv.length = EVP_MAX_IV_LENGTH)
    (ht : Cbc.decrypt B iv y = some t) (hfuel : y.length + 3 ≤ fuel) :
    ∃ d, new fuel s B = ok () d ∧ Rep R d t := by
  obtain ⟨s', hread, hs'⟩ := hR.read_ok h EVP_MAX_IV_LENGTH
  rw [← hiv, List.take_left] at hread
  rw [← hiv, List.drop_left] at hs'
  refine ⟨⟨s', B, .init iv, [], false, fuel⟩, ?_, y, t, hs', rfl, hfuel, ht⟩
  rw [new, ← hiv, hread]
  simp

/-! What the reader releases without finalising, whatever the ciphertext is. -/

/-- The buffer and what the context releases from the ciphertext `y` below are
`r`. -/
def Releases (R : σ → Bytes → Prop) (d : DecryptedInputStream σ) (r : Bytes) : Prop :=
  ∃ y : Bytes, R d.stream y ∧ r = d.buffer ++ (Cbc.decUpdate d.cipher d.ctx y).2 ∧
    y.length < d.fuel

theorem readLoop_releases (hR : Source R) : ∀ {k : ℕ} {d : DecryptedInputStream σ} {y : Bytes}
    (size : ℕ) (acc : Bytes), R d.stream y → y.length < d.fuel → y.length < k →
      size ≤ (d.buffer ++ (Cbc.decUpdate d.cipher d.ctx y).2).length →
      ∃ d', readLoop k d size acc =
          ok (acc ++ (d.buffer ++ (Cbc.decUpdate d.cipher d.ctx y).2).take size) d' ∧
        Releases R d' ((d.buffer ++ (Cbc.decUpdate d.cipher d.ctx y).2).drop size) := by
  intro k
  induction k with
  | zero =>
    intro d y size acc _ _ hk
    omega
  | succ k ih =>
    intro d y size acc hs hfuel hk hsize
    rw [readLoop]
    by_cases hbuf : d.buffer.length < size
    · -- the buffer is not enough, so something is released from below
      have hy : y ≠ [] := by
        rintro rfl
        simp only [Cbc.decUpdate, List.append_nil] at hsize
        omega
      have hne : y.take 4096 ≠ [] := by
        simpa using hy
      have hpos := List.length_pos_iff.mpr hy
      have hlen : (y.drop 4096).length < y.length := by
        rw [List.length_drop]
        omega
      obtain ⟨s', hread, hs'⟩ := hR.read_ok hs 4096
      have hout : (Cbc.decUpdate d.cipher d.ctx y).2 =
          (Cbc.decUpdate d.cipher d.ctx (y.take 4096)).2 ++
            (Cbc.decUpdate d.cipher (Cbc.decUpdate d.cipher d.ctx (y.take 4096)).1 (y.drop 4096)).2 := by
        nth_rewrite 1 [← List.take_append_drop 4096 y]
        rw [Cbc.decUpdate_append]
      rw [hout] at hsize ⊢
      rw [List.length_append] at hsize
      obtain ⟨d', hloop, hd'⟩ := ih
        (d := ⟨s', d.cipher, (Cbc.decUpdate d.cipher d.ctx (y.take 4096)).1,
          (Cbc.decUpdate d.cipher d.ctx (y.take 4096)).2, d.done, d.fuel⟩)
        (size - d.buffer.length) (acc ++ d.buffer) hs' (by show _ < d.fuel; omega) (by omega)
        (Nat.sub_le_iff_le_add'.mpr hsize)
      rw [take_past_buffer hbuf.le, drop_past_buffer hbuf.le]
      refine ⟨d', ?_, hd'⟩
      rw [if_pos hbuf, hread]
      simp only [hne, if_false]
      rw [hloop, List.append_assoc]
    · rw [if_neg hbuf]
      refine ⟨{ d with buffer := d.buffer.drop size }, ?_, y, hs, ?_, hfuel⟩
      · rw [List.take_append_of_le_length (by omega)]
      · rw [List.drop_append_of_le_length (by omega)]

/-- A read of no more than is released. -/
theorem read_releases (hR : Source R) {d : DecryptedInputStream σ} {r : Bytes}
    (h : Releases R d r) {n : ℕ} (hn : n ≤ r.length) :
    ∃ d', read d n = ok (r.take n) d' ∧ Releases R d' (r.drop n) := by
  obtain ⟨y, hs, rfl, hfuel⟩ := h
  exact readLoop_releases hR n [] hs hfuel hfuel hn

end DecryptedInputStream

/-! ### Any sequence of writes and reads -/

/-- **The cut of the writes and of the reads does not matter.**  What stands
below after the writes and `close` depends on their concatenation only, and
reads of any sizes give it back: each returns the next bytes, as many as it
asked for or as are left. -/
theorem cipherStreams_cut {ω σ : Type} [OutputStream ω] [InputStream σ] {W : ω → Bytes → Prop}
    {R : σ → Bytes → Prop} (hW : Sink W) (hR : Source R) {B : BlockCipher} (hB : B.Lawful)
    (hsize : B.size = EVP_MAX_IV_LENGTH) (iv : Digest EVP_MAX_IV_LENGTH) (p : Bytes) :
    (∀ (o : ω) (w : Bytes), W o w → ∀ writes : List Bytes, writes.flatten = p → ∃ e e' e'',
      EncryptedOutputStream.new o B iv.toList = ok () e ∧ writeMany put writes e = ok () e' ∧
        e'.close = ok () e'' ∧ W e''.stream (w ++ (iv.toList ++ Cbc.encrypt B iv.toList p))) ∧
      ∀ s : σ, R s (iv.toList ++ Cbc.encrypt B iv.toList p) →
        ∀ fuel, (Cbc.encrypt B iv.toList p).length + 3 ≤ fuel →
          ∃ d, DecryptedInputStream.new fuel s B = ok () d ∧
            ∀ ns : List ℕ, ∃ reads d', runOps (ns.map .read) d = ok reads d' ∧
              reads.length = ns.length ∧
              (∀ i, reads.getD i [] = (p.drop (ns.take i).sum).take (ns.getD i 0)) ∧
              reads.flatten = p.take ns.sum := by
  have hiv : iv.toList.length = B.size := by rw [hsize, iv.toList_length]
  constructor
  · intro o w ho writes hwrites
    obtain ⟨e, hnew, he⟩ := EncryptedOutputStream.new_spec (hW.upTo _) ho B (le_refl _)
    obtain ⟨e', hrun, he'⟩ := writeMany_writes
      (fun d => put_writes (EncryptedOutputStream.sink hW) d) writes e [] he
    rw [List.nil_append, List.flatMap_id', hwrites] at he'
    obtain ⟨e'', hclose, he''⟩ := EncryptedOutputStream.close_spec (hW.upTo _) he' (le_refl _)
    rw [List.append_assoc] at he''
    exact ⟨e, e', e'', hnew, hrun, hclose, he''⟩
  · intro s hs fuel hfuel
    obtain ⟨d, hnew, hd⟩ := DecryptedInputStream.new_spec hR hs iv.toList_length
      (Cbc.decrypt_encrypt hB hiv p) hfuel
    refine ⟨d, hnew, fun ns => ?_⟩
    obtain ⟨d', hrun, -⟩ := (DecryptedInputStream.source hR).runReads p ns hd
    exact ⟨_, d', hrun, cursorOps_reads_length p ns p, cursorOps_reads_getD p ns p,
      cursorOps_reads p ns p⟩

/-- AES-256 under the zero key on the block that `ab` is padded to. -/
def letterCipher : BlockCipher :=
  swapCipher [(⟨[97, 98] ++ List.replicate 14 14, rfl⟩,
    hexDigest 16 0xf41bb23b8c291d410c6329a3ee8c3bc5)]

/-- An IV of zeros. -/
def zeroIv : Digest EVP_MAX_IV_LENGTH := hexDigest 16 0

/-- `ab` written letter by letter with a zero IV, and read back in one byte and
the rest. -/
theorem cipherStreams_cut_letters :
    (∃ e e' e'', EncryptedOutputStream.new TempFileStream.new letterCipher zeroIv.toList =
        ok () e ∧ writeMany put [[97], [], [98]] e = ok () e' ∧ e'.close = ok () e'' ∧
        TempFileStream.Written e''.stream (zeroIv.toList ++
          (hexDigest 16 0xf41bb23b8c291d410c6329a3ee8c3bc5).toList)) ∧
      ∃ d d', DecryptedInputStream.new 19 (MemoryInputStream.new (zeroIv.toList ++
          (hexDigest 16 0xf41bb23b8c291d410c6329a3ee8c3bc5).toList)) letterCipher = ok () d ∧
        runOps [.read 1, .read 5, .read 5] d = ok [[97], [98], []] d' := by
  have hcipher : Cbc.encrypt letterCipher zeroIv.toList [97, 98] =
      (hexDigest 16 0xf41bb23b8c291d410c6329a3ee8c3bc5).toList := by decide +kernel
  obtain ⟨hwrite, hread⟩ := cipherStreams_cut TempFileStream.sink
    (RewindableStream.source (zeroIv.toList ++
      (hexDigest 16 0xf41bb23b8c291d410c6329a3ee8c3bc5).toList) (σ := MemoryInputStream))
    (swapCipher_lawful _) rfl (B := letterCipher) zeroIv [97, 98]
  rw [hcipher] at hwrite hread
  obtain ⟨e, e', e'', hnew, hrun, hclose, he''⟩ := hwrite _ [] TempFileStream.new_written
    [[97], [], [98]] rfl
  obtain ⟨d, hd, hreads⟩ := hread _ (MemoryInputStream.new_holds _) 19 (by decide)
  obtain ⟨reads, d', hrun', hlen, hall, -⟩ := hreads [1, 5, 5]
  refine ⟨⟨e, e', e'', hnew, hrun, hclose, he''⟩, d, d', hd, ?_⟩
  have hreads : reads = [[97], [98], []] := by
    refine List.ext_getElem hlen fun i hi hi' => ?_
    have hget := hall i
    rw [List.getD_eq_getElem _ _ hi] at hget
    rw [hget]
    have hi3 : i < 3 := hi'
    interval_cases i <;> rfl
  rw [← hreads]
  exact hrun'

end Nebula
