/-
Nothing unauthenticated is released by `decompressDecryptHMAC`.

The function makes two passes over its input: the first one feeds the HMAC,
the second one, after a rewind, feeds the decipherer.  To say that the second
pass deciphers exactly the bytes the first one authenticated, streams are
compared by what they answer: `Alike B` says that streams related by `B`
answer every read alike and stay related.  The readers of the second pass
preserve this (`DecryptedInputStream.alike`, `LZMAInputStream.alike`), so its
outcome is a function of the bytes left in the stream (`decompressDecrypt_alike`).

* `decompressDecryptHMAC_releases` — for every content and every stream over
  it, a range of a larger one included: without a valid HMAC the call throws
  and the output is as it was; with one it does what the second pass does over
  a stream that holds only the authenticated bytes.
-/
import NebulaBackup.StreamUtils

namespace Nebula

open EStateM.Result

/-! ### Streams that answer alike -/

section Alike

variable {σ τ ω α : Type}

/-- Two results with the same value and related states, or the same fault. -/
inductive SameAnswer (B : σ → τ → Prop) : Result σ α → Result τ α → Prop
  | ok {s : σ} {t : τ} (x : α) (h : B s t) : SameAnswer B (ok x s) (ok x t)
  | error {s : σ} {t : τ} (e : Fault) : SameAnswer B (error e s) (error e t)

theorem SameAnswer.cases {B : σ → τ → Prop} {a : Result σ α} {b : Result τ α}
    (h : SameAnswer B a b) :
    (∃ x s t, a = .ok x s ∧ b = .ok x t ∧ B s t) ∨ ∃ e s t, a = .error e s ∧ b = .error e t := by
  cases h with
  | ok x h => exact Or.inl ⟨x, _, _, rfl, rfl, h⟩
  | error e => exact Or.inr ⟨e, _, _, rfl, rfl⟩

/-- Streams related by `B` answer every read alike and stay related. -/
structure Alike [InputStream σ] [InputStream τ] (B : σ → τ → Prop) : Prop where
  read_same : ∀ {s : σ} {t : τ}, B s t → ∀ n,
    SameAnswer B (InputStream.read s n) (InputStream.read t n)

/-- What a caller sees of a run that reads from one stream and writes to
another: the fault, if any, and the output. -/
def outcome : Result (σ × ω) Unit → Option Fault × ω
  | ok _ (_, o) => (none, o)
  | error e (_, o) => (some e, o)

variable [InputStream σ] [InputStream τ] [OutputStream ω]

/-- Two sources are alike as long as they have the same bytes left. -/
theorem Source.alike {R : σ → Bytes → Prop} {R' : τ → Bytes → Prop} (hR : Source R)
    (hR' : Source R') : Alike fun s t => ∃ r, R s r ∧ R' t r where
  read_same {s t} h n := by
    obtain ⟨r, hs, ht⟩ := h
    obtain ⟨s', hread, hs'⟩ := hR.read_ok hs n
    obtain ⟨t', hread', ht'⟩ := hR'.read_ok ht n
    rw [hread, hread']
    exact .ok _ ⟨_, hs', ht'⟩

/-- `copyTo` from streams that are alike. -/
theorem copyTo_alike {B : σ → τ → Prop} (hB : Alike B) : ∀ {k : ℕ} {s : σ} {t : τ} {o : ω},
    B s t → outcome (copyTo k s o) = outcome (copyTo k t o) := by
  intro k
  induction k with
  | zero =>
    intro s t o _
    rfl
  | succ k ih =>
    intro s t o h
    rw [copyTo, copyTo]
    rcases (hB.read_same h 16384).cases with ⟨d, s', t', hs, ht, h'⟩ | ⟨e, s', t', hs, ht⟩
    · rw [hs, ht]
      by_cases hd : d = []
      · simp only [hd, if_true]
        rfl
      · simp only [hd, if_false]
        cases OutputStream.write o d with
        | error e o' => rfl
        | ok _ o' => exact ih h'
    · rw [hs, ht]
      rfl

end Alike

/-! ### The readers of the second pass -/

namespace DecryptedInputStream

variable {σ τ : Type} [InputStream σ] [InputStream τ] {B : σ → τ → Prop}

/-- The same decipherer over related streams. -/
def Over (B : σ → τ → Prop) (d : DecryptedInputStream σ) (d' : DecryptedInputStream τ) : Prop :=
  ∃ s t cipher ctx buffer done fuel, B s t ∧ d = ⟨s, cipher, ctx, buffer, done, fuel⟩ ∧
    d' = ⟨t, cipher, ctx, buffer, done, fuel⟩

theorem readLoop_same (hB : Alike B) : ∀ {k : ℕ} {d : DecryptedInputStream σ}
    {d' : DecryptedInputStream τ} (size : ℕ) (acc : Bytes), Over B d d' →
      SameAnswer (Over B) (readLoop k d size acc) (readLoop k d' size acc) := by
  intro k
  induction k with
  | zero =>
    intro d d' size acc _
    exact .error _
  | succ k ih =>
    intro d d' size acc h
    obtain ⟨s, t, cipher, ctx, buffer, done, fuel, hst, rfl, rfl⟩ := h
    rw [readLoop, readLoop]
    by_cases hbuf : buffer.length < size
    · simp only [hbuf, if_true]
      rcases (hB.read_same hst 4096).cases with ⟨n, s', t', hs, ht, hst'⟩ | ⟨e, s', t', hs, ht⟩
      · rw [hs, ht]
        by_cases hn : n = []
        · -- the end of the stream: the last block is unpadded, once
          simp only [hn, if_true]
          cases done with
          | true => exact .ok _ ⟨s', t', cipher, ctx, [], true, fuel, hst', rfl, rfl⟩
          | false =>
            simp only [if_true]
            cases Cbc.decFinal cipher ctx with
            | none => exact .error _
            | some u => exact ih _ _ ⟨s', t', cipher, ctx, u, true, fuel, hst', rfl, rfl⟩
        · simp only [hn, if_false]
          exact ih _ _ ⟨s', t', cipher, _, _, done, fuel, hst', rfl, rfl⟩
      · rw [hs, ht]
        exact .error _
    · simp only [hbuf, if_false]
      exact .ok _ ⟨s, t, cipher, ctx, _, done, fuel, hst, rfl, rfl⟩

/-- Decipherers over streams that are alike are alike. -/
theorem alike (hB : Alike B) : Alike (Over B) where
  read_same {d d'} h n := by
    have hfuel : d.fuel = d'.fuel := by
      obtain ⟨s, t, cipher, ctx, buffer, done, fuel, _, rfl, rfl⟩ := h
      rfl
    show SameAnswer (Over B) (readLoop d.fuel d n []) (readLoop d'.fuel d' n [])
    rw [hfuel]
    exact readLoop_same hB n [] h

theorem new_same (hB : Alike B) {s : σ} {t : τ} (h : B s t) (fuel : ℕ) (cipher : BlockCipher) :
    SameAnswer (Over B) (new fuel s cipher) (new fuel t cipher) := by
  rw [new, new]
  rcases (hB.read_same h EVP_MAX_IV_LENGTH).cases with
    ⟨iv, s', t', hs, ht, h'⟩ | ⟨e, s', t', hs, ht⟩
  · rw [hs, ht]
    by_cases hiv : iv.length ≠ EVP_MAX_IV_LENGTH
    · simp only [if_pos hiv]
      exact .error _
    · simp only [if_neg hiv]
      exact .ok _ ⟨s', t', cipher, .init iv, [], false, fuel, h', rfl, rfl⟩
  · rw [hs, ht]
    exact .error _

end DecryptedInputStream

namespace LZMAInputStream

variable {L : Lzma} {σ τ : Type} [InputStream σ] [InputStream τ] {B : σ → τ → Prop}

/-- The same decoder over related streams. -/
def Over (B : σ → τ → Prop) (z : LZMAInputStream L σ) (z' : LZMAInputStream L τ) : Prop :=
  ∃ s t dec buffer fuel, B s t ∧ z = ⟨s, dec, buffer, fuel⟩ ∧ z' = ⟨t, dec, buffer, fuel⟩

theorem refill_same (hB : Alike B) {z : LZMAInputStream L σ} {z' : LZMAInputStream L τ}
    (h : Over B z z') : SameAnswer (Over B) (refill z) (refill z') := by
  obtain ⟨s, t, dec, buffer, fuel, hst, rfl, rfl⟩ := h
  rw [refill, refill]
  by_cases hb : buffer = []
  · simp only [hb, if_true]
    rcases (hB.read_same hst 16384).cases with ⟨d, s', t', hs, ht, hst'⟩ | ⟨e, s', t', hs, ht⟩
    · rw [hs, ht]
      exact .ok _ ⟨s', t', dec, d, fuel, hst', rfl, rfl⟩
    · rw [hs, ht]
      exact .error _
  · simp only [hb, if_false]
    exact .ok _ ⟨s, t, dec, buffer, fuel, hst, rfl, rfl⟩

theorem readLoop_same (hB : Alike B) : ∀ {k : ℕ} {z : LZMAInputStream L σ}
    {z' : LZMAInputStream L τ} (want : ℕ) (acc : Bytes), Over B z z' →
      SameAnswer (Over B) (readLoop k z want acc) (readLoop k z' want acc) := by
  intro k
  induction k with
  | zero =>
    intro z z' want acc h
    rw [readLoop, readLoop]
    by_cases hwant : want = 0
    · simp only [hwant, if_true]
      exact .ok _ h
    · simp only [hwant, if_false]
      exact .error _
  | succ k ih =>
    intro z z' want acc h
    rw [readLoop, readLoop]
    by_cases hwant : want = 0
    · simp only [hwant, if_true]
      exact .ok _ h
    · simp only [hwant, if_false]
      rcases (refill_same hB h).cases with ⟨_, z₁, z₁', hz, hz', h'⟩ | ⟨e, z₁, z₁', hz, hz'⟩
      · rw [hz, hz']
        obtain ⟨s, t, dec, buffer, fuel, hst, rfl, rfl⟩ := h'
        by_cases hb : buffer = []
        · simp only [hb, if_true]
          exact .ok _ ⟨s, t, dec, [], fuel, hst, rfl, rfl⟩
        · simp only [hb, if_false]
          cases L.decodeToBuf dec want buffer with
          | none => exact .error _
          | some st =>
            have hnext : Over B (⟨s, st.state, buffer.drop st.consumed, fuel⟩ : LZMAInputStream L σ)
                ⟨t, st.state, buffer.drop st.consumed, fuel⟩ :=
              ⟨s, t, st.state, _, fuel, hst, rfl, rfl⟩
            by_cases hfin : st.status.finished
            · simp only [hfin, if_true]
              exact .ok _ hnext
            · simp only [hfin]
              exact ih _ _ hnext
      · rw [hz, hz']
        exact .error _

/-- Decompressors over streams that are alike are alike. -/
theorem alike (hB : Alike B) :
    Alike (Over B : LZMAInputStream L σ → LZMAInputStream L τ → Prop) where
  read_same {z z'} h n := by
    have hfuel : z.fuel = z'.fuel := by
      obtain ⟨s, t, dec, buffer, fuel, _, rfl, rfl⟩ := h
      rfl
    show SameAnswer (Over B) (readLoop z.fuel z n []) (readLoop z'.fuel z' n [])
    rw [hfuel]
    exact readLoop_same hB n [] h

theorem new_same (hB : Alike B) {s : σ} {t : τ} (h : B s t) :
    SameAnswer B (new L s) (new L t) := by
  rw [new, new]
  rcases (hB.read_same h 1).cases with ⟨d, s', t', hs, ht, h'⟩ | ⟨e, s', t', hs, ht⟩
  · rw [hs, ht]
    cases d with
    | nil => exact .error _
    | cons prop _ =>
      simp only
      cases L.allocate prop with
      | none => exact .error _
      | some dec => exact .ok _ h'
  · rw [hs, ht]
    exact .error _

end LZMAInputStream

section SecondPass

variable {σ τ ω : Type}

variable [InputStream σ] [InputStream τ] [OutputStream ω]

/-- **The second pass depends on the bytes left in its stream only.** -/
theorem decompressDecrypt_alike {B : σ → τ → Prop} (hB : Alike B) (C : Crypto) (fuel : ℕ)
    (t : Option CompressionType) (encKey : Bytes) {s : σ} {s' : τ} (h : B s s') (o : ω) :
    outcome (decompressDecrypt C fuel t encKey s o) =
      outcome (decompressDecrypt C fuel t encKey s' o) := by
  have hD : Alike (DecryptedInputStream.Over B) := DecryptedInputStream.alike hB
  cases t with
  | none => rfl
  | some t =>
    rw [decompressDecrypt, decompressDecrypt]
    rcases (DecryptedInputStream.new_same hB h fuel (C.cipher encKey)).cases with
      ⟨_, d, d', hd, hd', hdd⟩ | ⟨e, d, d', hd, hd'⟩
    · simp only [hd, hd']
      cases t with
      | NoCompression =>
        -- the deciphered bytes are copied as they are
        have hcopy := copyTo_alike (k := fuel) (o := o) hD hdd
        revert hcopy
        cases copyTo fuel d o <;> cases copyTo fuel d' o <;> exact id
      | LZMA2 =>
        rcases (LZMAInputStream.new_same (L := C.lzma) hD hdd).cases with
          ⟨dec, d₁, d₁', hz, hz', hdd₁⟩ | ⟨e, d₁, d₁', hz, hz'⟩
        · simp only [hz, hz']
          have hcopy := copyTo_alike (k := fuel) (o := o) (LZMAInputStream.alike (L := C.lzma) hD)
            ⟨d₁, d₁', dec, [], fuel, hdd₁, rfl, rfl⟩
          revert hcopy
          cases copyTo fuel (⟨d₁, dec, [], fuel⟩ : LZMAInputStream C.lzma _) o <;>
            cases copyTo fuel (⟨d₁', dec, [], fuel⟩ : LZMAInputStream C.lzma _) o <;> exact id
        · simp only [hz, hz']
          rfl
    · simp only [hd, hd']
      rfl

end SecondPass

/-! ### Streams with a start to return to -/

/-- `R` describes streams over the contents `c`: sources that can be rewound
to the start of `c`. -/
structure Rewinds {σ : Type} [InputStream σ] (c : Bytes) (R : σ → Bytes → Prop) : Prop
    extends Source R where
  canRewind_eq : ∀ {s : σ} {r : Bytes}, R s r → InputStream.canRewind s = true
  rewind_ok : ∀ {s : σ} {r : Bytes}, R s r → ∃ s', InputStream.rewind s = ok () s' ∧ R s' c

theorem RewindableStream.rewinds {σ : Type} [InputStream σ] [RewindableStream σ] (c : Bytes) :
    Rewinds c (RewindableStream.Rep c : σ → Bytes → Prop) where
  read_ok := RewindableStream.read_ok
  canRewind_eq := RewindableStream.canRewind_eq
  rewind_ok := RewindableStream.rewind_ok

namespace InputRangeStream

variable {σ : Type} [InputStream σ] [RewindableStream σ] {c : Bytes} {offset size : ℕ}

/-- A range of the contents `c` with `r` left.  Unlike for `Rep` the range may
reach past the end of `c`, as one read from a damaged snapshot can. -/
structure Within (c : Bytes) (offset size : ℕ) (s : InputRangeStream σ) (r : Bytes) : Prop where
  below : RewindableStream.Rep c s.stream (c.drop s.position)
  offset_eq : s.offset = offset
  endOffset_eq : s.endOffset = offset + size
  position_le : s.position ≤ s.endOffset
  left : r = (c.drop s.position).take (s.endOffset - s.position)

/-- Reading `n` bytes advances by what there was to read. -/
theorem drop_add_read (c : Bytes) (p n : ℕ) :
    c.drop (p + ((c.drop p).take n).length) = (c.drop p).drop n := by
  rw [List.drop_drop]
  by_cases hn : n ≤ (c.drop p).length
  · rw [List.length_take, min_eq_left hn]
  · have hlen : (c.drop p).length = c.length - p := List.length_drop
    rw [List.length_take, min_eq_right (by omega), List.drop_eq_nil_of_le (by omega),
      List.drop_eq_nil_of_le (by omega)]

theorem readBelow_within {s : InputRangeStream σ} {r : Bytes} (h : Within c offset size s r)
    {n : ℕ} (hn : s.position + n ≤ s.endOffset) :
    ∃ s', readBelow s n = ok (r.take n) s' ∧ Within c offset size s' (r.drop n) := by
  obtain ⟨s', hread, hs'⟩ := RewindableStream.read_ok h.below n
  have hd : ((c.drop s.position).take n).length ≤ n := List.length_take_le _ _
  refine ⟨{ s with
    stream := s', position := s.position + ((c.drop s.position).take n).length }, ?_, ?_⟩
  · rw [readBelow, hread, h.left, List.take_take, min_eq_left (by omega)]
  · refine ⟨?_, h.offset_eq, h.endOffset_eq, ?_, ?_⟩
    · show RewindableStream.Rep c s' (c.drop (s.position + _))
      rw [drop_add_read]
      exact hs'
    · show s.position + _ ≤ s.endOffset
      omega
    · show r.drop n = (c.drop (s.position + _)).take (s.endOffset - (s.position + _))
      rw [drop_add_read, h.left, List.drop_take]
      by_cases hfull : n ≤ (c.drop s.position).length
      · rw [List.length_take, min_eq_left hfull, Nat.sub_sub]
      · -- the contents ended inside the range: nothing is left on both sides
        rw [List.drop_eq_nil_of_le (by omega), List.take_nil, List.take_nil]

theorem rewinds (c : Bytes) (offset size : ℕ) :
    Rewinds ((c.drop offset).take size)
      (Within c offset size : InputRangeStream σ → Bytes → Prop) where
  read_ok {s r} h n := by
    have hle := h.position_le
    have hr : r.length ≤ s.endOffset - s.position := by
      rw [h.left]
      exact List.length_take_le _ _
    show ∃ s', read s n = ok (r.take n) s' ∧ Within c offset size s' (r.drop n)
    rw [read]
    by_cases hend : s.endOffset ≤ s.position + n
    · -- the read reaches the end of the range and is cut there
      rw [if_pos hend, List.take_of_length_le (by omega), List.drop_eq_nil_of_le (by omega)]
      by_cases hz : s.endOffset - s.position = 0
      · have hnil : r = [] := List.length_eq_zero_iff.mp (by omega)
        rw [if_pos hz]
        exact ⟨s, by rw [hnil], hnil ▸ h⟩
      · obtain ⟨s', hread, hs'⟩ := readBelow_within h (n := s.endOffset - s.position) (by omega)
        rw [List.take_of_length_le hr] at hread
        rw [List.drop_eq_nil_of_le hr] at hs'
        rw [if_neg hz]
        exact ⟨s', hread, hs'⟩
    · rw [if_neg hend]
      exact readBelow_within h (by omega)
  canRewind_eq h := RewindableStream.canRewind_eq (σ := σ) h.below
  rewind_ok {s r} h := by
    obtain ⟨s', hrew, hs'⟩ := RewindableStream.rewind_ok h.below
    obtain ⟨s'', k, hskip, hs''⟩ := RewindableStream.skip_ok hs' s.offset
    have hle := h.position_le
    have hend := h.endOffset_eq
    have hoff := h.offset_eq
    refine ⟨{ s with stream := s'', position := s.offset }, ?_, hs'', hoff, hend, ?_, ?_⟩
    · show rewind s = _
      rw [rewind, canRewind, if_pos (RewindableStream.canRewind_eq h.below), hrew]
      simp only [hskip]
    · show s.offset ≤ s.endOffset
      omega
    · show _ = (c.drop s.offset).take (s.endOffset - s.offset)
      rw [hend, hoff, Nat.add_sub_cancel_left]

/-- The constructor, on a stream at its start. -/
theorem new_within {s : σ} (h : Holds s c) (offset size : ℕ) :
    ∃ s', new s offset size = ok () s' ∧
      Within c offset size s' ((c.drop offset).take size) := by
  obtain ⟨s', k, hskip, hs'⟩ := RewindableStream.skip_ok h offset
  refine ⟨⟨s', offset, offset + size, offset⟩, ?_, hs', rfl, rfl, Nat.le_add_right _ _, ?_⟩
  · rw [new, hskip]
  · show _ = (c.drop offset).take (offset + size - offset)
    rw [Nat.add_sub_cancel_left]

end InputRangeStream

/-! ### The first pass -/

/-- The bytes `c` carry their own HMAC: the first 32 of them are the
HMAC-SHA256 of all the others. -/
def Authentic (C : Crypto) (macKey c : Bytes) : Prop :=
  c.take SHA256_DIGEST_LENGTH =
    (C.hmacSha256 (macKey.take SHA256_DIGEST_LENGTH) (c.drop SHA256_DIGEST_LENGTH)).toList

instance (C : Crypto) (macKey c : Bytes) : Decidable (Authentic C macKey c) :=
  inferInstanceAs (Decidable (_ = _))

theorem Authentic.length_le {C : Crypto} {macKey c : Bytes} (h : Authentic C macKey c) :
    SHA256_DIGEST_LENGTH ≤ c.length := by
  have hlen := congrArg List.length h
  rw [List.length_take, List.Vector.toList_length] at hlen
  exact min_eq_left_iff.mp hlen

section Releases

variable {σ ω : Type} [InputStream σ] [OutputStream ω]

/-- What `decompressDecryptHMAC` may do with an input of contents `c`: without
a valid HMAC it throws and leaves the output as it was, and with one it does
what the second pass does over a stream of the authenticated bytes alone. -/
def Releases (C : Crypto) (fuel : ℕ) (t : Option CompressionType)
    (cipher : Bytes → BlockCipher) (encKey macKey : Bytes) (s : σ) (c : Bytes) (o : ω) : Prop :=
  (¬ Authentic C macKey c → ∃ kind message s',
    decompressDecryptHMAC C fuel t cipher encKey macKey s o =
      error (.thrown kind message) (s', o)) ∧
  (Authentic C macKey c →
    outcome (decompressDecryptHMAC C fuel t cipher encKey macKey s o) =
      outcome (decompressDecrypt C fuel t encKey
        (MemoryInputStream.new (c.drop SHA256_DIGEST_LENGTH)) o))

variable {R : σ → Bytes → Prop} {s : σ} {c : Bytes}

/-- `readExpected` throws when there are too few bytes. -/
theorem readExpected_short (hR : Source R) {r : Bytes} (h : R s r) {n : ℕ} (hn : r.length < n) :
    ∃ message s', readExpected s n = error (.thrown .ShortReadException message) s' := by
  obtain ⟨s', hread, -⟩ := hR.read_ok h n
  have hlen : (r.take n).length ≠ n := by
    rw [List.length_take]
    omega
  rw [readExpected, hread]
  simp only [if_pos hlen]
  exact ⟨_, s', rfl⟩

/-- The two passes over any stream that returns to the start of `c`. -/
theorem Rewinds.releases (hR : Rewinds c R) (hs : R s c) (C : Crypto) {fuel : ℕ}
    (hfuel : c.length < fuel) (t : Option CompressionType) (cipher : Bytes → BlockCipher)
    (encKey macKey : Bytes) (o : ω) : Releases C fuel t cipher encKey macKey s c o := by
  have hcan : ¬ InputStream.canRewind s = false := by
    rw [hR.canRewind_eq hs]
    exact Bool.noConfusion
  rw [Releases, decompressDecryptHMAC, if_neg hcan]
  by_cases hlen : c.length < SHA256_DIGEST_LENGTH
  · -- there is no HMAC to compare with
    obtain ⟨message, s', hread⟩ := readExpected_short hR.toSource hs hlen
    rw [hread]
    refine ⟨fun _ => ⟨_, message, s', rfl⟩, fun hauth => ?_⟩
    exact absurd hauth.length_le (by omega)
  · have hsplit : c.take SHA256_DIGEST_LENGTH ++ c.drop SHA256_DIGEST_LENGTH = c :=
      List.take_append_drop _ c
    have htake : (c.take SHA256_DIGEST_LENGTH).length = SHA256_DIGEST_LENGTH :=
      List.length_take_of_le (by omega)
    rw [← hsplit] at hs
    obtain ⟨s₁, hexp, hs₁⟩ := readExpected_spec hR.toSource hs
    obtain ⟨s₂, hall, hs₂⟩ := readAll_spec (k := fuel) hR.toSource (show 0 < 8192 by omega) [] hs₁
      (by rw [List.length_drop]; omega)
    rw [htake] at hexp
    simp only [hexp, hall, List.nil_append]
    by_cases hauth : Authentic C macKey c
    · -- the rewind and the second `readExpected` lead back to the authenticated bytes
      obtain ⟨s₃, hrew, hs₃⟩ := hR.rewind_ok hs₂
      rw [← hsplit] at hs₃
      obtain ⟨s₄, hexp', hs₄⟩ := readExpected_spec hR.toSource hs₃
      rw [htake] at hexp'
      refine ⟨fun hnot => absurd hauth hnot, fun _ => ?_⟩
      have heq := hauth
      rw [Authentic] at heq
      rw [if_neg (not_not_intro heq), hrew]
      simp only [hexp']
      exact decompressDecrypt_alike
        (hR.toSource.alike (RewindableStream.source (c.drop SHA256_DIGEST_LENGTH)))
        C fuel t encKey ⟨_, hs₄, MemoryInputStream.new_holds _⟩ o
    · -- the comparison fails before anything was written
      refine ⟨fun _ => ?_, fun hauth' => absurd hauth' hauth⟩
      have hne := hauth
      rw [Authentic] at hne
      rw [if_pos hne]
      exact ⟨_, _, s₂, rfl⟩

/-- **Nothing unauthenticated is released**, whatever the contents, and the
bytes that are deciphered are the ones that were authenticated.  Of a range
of a larger stream only the bytes of the range count. -/
theorem decompressDecryptHMAC_releases [RewindableStream σ] (hs : Holds s c) (C : Crypto)
    {fuel : ℕ} (hfuel : c.length < fuel) (t : Option CompressionType)
    (cipher : Bytes → BlockCipher) (encKey macKey : Bytes) (o : ω) :
    Releases C fuel t cipher encKey macKey s c o ∧
      ∀ offset size : ℕ, ∃ range, InputRangeStream.new s offset size = ok () range ∧
        Releases C fuel t cipher encKey macKey range ((c.drop offset).take size) o := by
  refine ⟨(RewindableStream.rewinds c).releases hs C hfuel t cipher encKey macKey o, ?_⟩
  intro offset size
  obtain ⟨range, hnew, hrange⟩ := InputRangeStream.new_within hs offset size
  have hlen : ((c.drop offset).take size).length < fuel := by
    rw [List.length_take, List.length_drop]
    omega
  exact ⟨range, hnew,
    (InputRangeStream.rewinds c offset size).releases hrange C hlen t cipher encKey macKey o⟩

end Releases

/-- The object of the byte `a` under zero keys, behind a byte that is not
part of it. -/
def paddedObject : Bytes :=
  7 :: [74, 94, 197, 65, 22, 31, 145, 231, 83, 27, 18, 226, 12, 53, 77, 172,
    79, 153, 116, 158, 206, 163, 150, 210, 86, 196, 9, 137, 112, 85, 118, 3] ++
    List.replicate 16 0 ++
    [180, 165, 233, 138, 246, 129, 10, 131, 189, 245, 43, 20, 174, 130, 44, 55]

/-- As a whole the stream is refused; its range that starts at the second
byte is authentic. -/
theorem decompressDecryptHMAC_releases_padded :
    (∃ kind message s',
      decompressDecryptHMAC zeroKeyTables.crypto 66 (some .NoCompression)
        zeroKeyTables.crypto.cipher (List.replicate 64 0) (List.replicate 64 0)
        (MemoryInputStream.new paddedObject) TempFileStream.new =
          error (.thrown kind message) (s', TempFileStream.new)) ∧
    ∃ range, InputRangeStream.new (MemoryInputStream.new paddedObject) 1 64 = ok () range ∧
      outcome (decompressDecryptHMAC zeroKeyTables.crypto 66 (some .NoCompression)
        zeroKeyTables.crypto.cipher (List.replicate 64 0) (List.replicate 64 0)
        range TempFileStream.new) =
      outcome (decompressDecrypt zeroKeyTables.crypto 66 (some .NoCompression)
        (List.replicate 64 0) (MemoryInputStream.new (paddedObject.drop 33))
        TempFileStream.new) := by
  obtain ⟨hwhole, hrange⟩ := decompressDecryptHMAC_releases
    (MemoryInputStream.new_holds paddedObject) zeroKeyTables.crypto
    (show paddedObject.length < 66 by decide) (some .NoCompression) zeroKeyTables.crypto.cipher
    (List.replicate 64 0) (List.replicate 64 0) TempFileStream.new
  obtain ⟨range, hnew, hauth⟩ := hrange 1 64
  refine ⟨hwhole.1 (by decide +kernel), range, hnew, ?_⟩
  exact hauth.2 (by decide +kernel)

end Nebula
