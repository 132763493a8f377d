/-
`LZMAUtils::compress` and `LZMAInputStream`.

The encoder writes one property byte and then its chunks; the reader refills
its input buffer in pieces of 16384 bytes and asks the decoder for as much as
fits the caller's buffer.  `compress_spec` says what stands in the output
(`compressed`), `LZMAInputStream.source` that the reader delivers the
uncompressed bytes in full reads, however they are cut.
-/
import NebulaBackup.Crypto
import NebulaBackup.InputStream

namespace Nebula

open EStateM.Result

/-! ### `LZMAUtils::compress` -/

section Compress

variable {σ ω : Type} [InputStream σ] [OutputStream ω]

/-- `LZMAUtils::compress`.  The encoder's reads are made before its writes:
the two streams have no state in common. -/
def compress (L : Lzma) (fuel : ℕ) (s : σ) (o : ω) : Result (σ × ω) Unit :=
  match readAll L.readSize fuel s [] with
  | error e s' => error e (s', o)
  | ok d s' =>
    match writeChunks ([(L.encode d).1] :: (L.encode d).2) o with
    | error e o' => error e (s', o')
    | ok _ o' => ok () (s', o')

/-- The property byte and the chunks, as they stand in the output. -/
def compressed (L : Lzma) (d : Bytes) : Bytes := (L.encode d).1 :: (L.encode d).2.flatten

variable {R : σ → Bytes → Prop} {W : ω → Bytes → Prop}

theorem compress_spec {L : Lzma} (hL : L.StreamingInverse) (hR : Source R) (hW : Sink W)
    {fuel : ℕ} {s : σ} {o : ω} {r w : Bytes} (hs : R s r) (ho : W o w) (hfuel : r.length < fuel) :
    ∃ s' o', compress L fuel s o = ok () (s', o') ∧ R s' [] ∧ W o' (w ++ compressed L r) := by
  obtain ⟨s', hread, hs'⟩ := readAll_spec hR hL.1 [] hs hfuel
  rw [List.nil_append] at hread
  obtain ⟨o', hwrite, ho'⟩ := writeChunks_spec hW ([(L.encode r).1] :: (L.encode r).2) ho
  refine ⟨s', o', ?_, hs', ho'⟩
  simp only [compress, hread, hwrite]

end Compress

/-! ### `LZMAInputStream` -/

/-- `LZMAInputStream`: the stream below, the decoder, the `mBytesInBuffer`
bytes at `mBufferPtr`, and the bound on the rounds of one `read`. -/
structure LZMAInputStream (L : Lzma) (σ : Type) where
  stream : σ
  dec : L.State
  buffer : Bytes
  fuel : ℕ

namespace LZMAInputStream

variable {L : Lzma} {σ : Type} [InputStream σ]

/-- The constructor reads the property byte and allocates the decoder. -/
def new (L : Lzma) (s : σ) : Result σ L.State :=
  match InputStream.read s 1 with
  | error e s' => error e s'
  | ok d s' =>
    match d with
    | [] => error (.thrown .LZMAException
        "Failed to decompress LZMA input stream. Premature EOF.") s'
    | prop :: _ =>
      match L.allocate prop with
      | none => error (.thrown .LZMAException "Failed to allocate prop for LZMA decoding.") s'
      | some dec => ok dec s'

/-- Refill an empty input buffer; a read below that returns nothing leaves it
empty. -/
def refill (z : LZMAInputStream L σ) : Result (LZMAInputStream L σ) Unit :=
  if z.buffer = [] then
    match InputStream.read z.stream 16384 with
    | error e s' => error e { z with stream := s' }
    | ok d s' => ok () { z with stream := s', buffer := d }
  else ok () z

/-- The loop of `read`: `want` bytes are still wanted, `acc` is what was
decoded so far. -/
def readLoop : ℕ → LZMAInputStream L σ → ℕ → Bytes → Result (LZMAInputStream L σ) Bytes
  | 0, z, want, acc => if want = 0 then ok acc z else error .outOfFuel z
  | k + 1, z, want, acc =>
    if want = 0 then ok acc z
    else
      match refill z with
      | error e z' => error e z'
      | ok _ z' =>
        if z'.buffer = [] then ok acc z'
        else
          match L.decodeToBuf z'.dec want z'.buffer with
          | none => error (.thrown .LZMAException "LZMA decode error.") z'
          | some st =>
            if st.status.finished then
              ok (acc ++ st.out) { z' with dec := st.state, buffer := z'.buffer.drop st.consumed }
            else
              readLoop k { z' with dec := st.state, buffer := z'.buffer.drop st.consumed }
                (want - st.out.length) (acc ++ st.out)

def read (z : LZMAInputStream L σ) (size : ℕ) : Result (LZMAInputStream L σ) Bytes :=
  readLoop z.fuel z size []

instance : InputStream (LZMAInputStream L σ) where
  read := read
  skip s n := skipLoop read n n s 0
  canRewind _ := false
  rewind s := error (.thrown .InvalidOperationException
    "Input stream does not support rewind().") s
  size _ := -1

/-- The bytes `o` are left to deliver: the decoder is in the middle of the
input that stands in the buffer and below, or both are used up. -/
def Rep (R : σ → Bytes → Prop) (Mid : L.State → Bytes → Bytes → Prop) (z : LZMAInputStream L σ)
    (o : Bytes) : Prop :=
  ∃ y, R z.stream y ∧ (z.buffer ++ y).length < z.fuel ∧
    (Mid z.dec (z.buffer ++ y) o ∨ z.buffer ++ y = [] ∧ o = [])

variable {R : σ → Bytes → Prop} {Mid : L.State → Bytes → Bytes → Prop}

/-- After a refill the buffer is empty only at the end of the input. -/
theorem refill_spec (hR : Source R) {z : LZMAInputStream L σ} {y : Bytes} (hs : R z.stream y) :
    ∃ s' b y', refill z = ok () ⟨s', z.dec, b, z.fuel⟩ ∧ R s' y' ∧ b ++ y' = z.buffer ++ y ∧
      (b = [] → z.buffer ++ y = []) := by
  rw [refill]
  by_cases hb : z.buffer = []
  · obtain ⟨s', hread, hs'⟩ := hR.read_ok hs 16384
    refine ⟨s', y.take 16384, y.drop 16384, ?_, hs', ?_, ?_⟩
    · rw [if_pos hb, hread]
    · rw [List.take_append_drop, hb, List.nil_append]
    · intro hnil
      rw [List.take_eq_nil_iff] at hnil
      rw [hb, List.nil_append]
      exact hnil.resolve_left (by decide)
  · refine ⟨z.stream, z.buffer, y, ?_, hs, rfl, ?_⟩
    · rw [if_neg hb]
    · intro hnil
      exact absurd hnil hb

/-- The rounds of one `read`, by induction on their bound: a round that is not
the last one uses up the buffer, so the input left decreases. -/
theorem readLoop_spec (hR : Source R) (hMid : ∀ s r o, Mid s r o → r ≠ [])
    (hdec : ∀ s r o, Mid s r o → ∀ input room, input <+: r → input ≠ [] → 0 < room →
      ∃ st, L.decodeToBuf s room input = some st ∧ Lzma.GoodStep Mid r o input room st) :
    ∀ {k : ℕ} {z : LZMAInputStream L σ} {y o : Bytes} (want : ℕ) (acc : Bytes),
      R z.stream y → (z.buffer ++ y).length < z.fuel →
      (Mid z.dec (z.buffer ++ y) o ∨ z.buffer ++ y = [] ∧ o = []) → (z.buffer ++ y).length < k →
      ∃ z', readLoop k z want acc = ok (acc ++ o.take want) z' ∧ Rep R Mid z' (o.drop want) := by
  intro k
  induction k with
  | zero =>
    intro z y o want acc _ _ _ hk
    omega
  | succ k ih =>
    intro z y o want acc hs hfuel hrep hk
    rw [readLoop]
    by_cases hwant : want = 0
    · subst hwant
      exact ⟨z, by simp, y, hs, hfuel, by simpa using hrep⟩
    · rw [if_neg hwant]
      obtain ⟨s', b, y', hrefill, hs', hby, hb⟩ := refill_spec hR hs
      rw [hrefill]
      rw [← hby] at hrep hfuel hk hb
      by_cases hnil : b = []
      · -- the end of the input: the stream was delivered before
        have hend := hb hnil
        have ho : o = [] := by
          rcases hrep with hmid | ⟨_, ho⟩
          · exact absurd hend (hMid _ _ _ hmid)
          · exact ho
        subst ho
        refine ⟨⟨s', z.dec, b, z.fuel⟩, ?_, y', hs', hfuel, Or.inr ⟨hend, by simp⟩⟩
        simp [hnil]
      · have hmid : Mid z.dec (b ++ y') o := by
          rcases hrep with hmid | ⟨hend, _⟩
          · exact hmid
          · exact absurd (List.append_eq_nil_iff.mp hend).1 hnil
        obtain ⟨st, hst, hroom, hcons, hgood⟩ :=
          hdec _ _ _ hmid b want (List.prefix_append b y') hnil (by omega)
        simp only [hnil, if_false, hst]
        have hsplit : (b ++ y').drop st.consumed = b.drop st.consumed ++ y' :=
          List.drop_append_of_le_length hcons
        rcases hgood with ⟨hfin, hout, hall⟩ | ⟨hfin, hstop, o', rfl, hmid'⟩
        · -- the end mark: everything was decoded and consumed
          have hrest : b.drop st.consumed ++ y' = [] := by
            rw [← hsplit, hall, List.drop_length]
          have hlen : o.length ≤ want := by rwa [← hout]
          refine ⟨⟨s', st.state, b.drop st.consumed, z.fuel⟩, ?_, y', hs', ?_, Or.inr ⟨hrest, ?_⟩⟩
          · rw [hfin, if_pos rfl, hout, List.take_of_length_le hlen]
          · show (b.drop st.consumed ++ y').length < z.fuel
            rw [hrest]
            exact Nat.lt_of_le_of_lt (Nat.zero_le _) hfuel
          · exact List.drop_eq_nil_of_le hlen
        · rw [hsplit] at hmid'
          have hfuel' : (b.drop st.consumed ++ y').length < z.fuel := by
            rw [← hsplit, List.length_drop]
            omega
          rw [hfin, take_past_buffer hroom, drop_past_buffer hroom, ← List.append_assoc]
          rw [if_neg Bool.false_ne_true]
          rcases hstop with hfull | hused
          · -- the caller's buffer is full
            refine ⟨⟨s', st.state, b.drop st.consumed, z.fuel⟩, ?_, y', hs', hfuel', Or.inl ?_⟩
            · rw [hfull, Nat.sub_self]
              cases k <;> simp [readLoop]
            · rw [hfull, Nat.sub_self, List.drop_zero]
              exact hmid'
          · -- the input buffer is used up
            have hpos := List.length_pos_iff.mpr hnil
            refine ih (z := ⟨s', st.state, b.drop st.consumed, z.fuel⟩) (y := y') _ _ hs' hfuel'
              (Or.inl hmid') ?_
            show (b.drop st.consumed ++ y').length < k
            rw [← hsplit, List.length_drop]
            rw [List.length_append] at hk ⊢
            omega

/-- **The reader delivers the uncompressed bytes.**  After the constructor has
read the property byte it is a source of what was compressed. -/
theorem source (hL : L.StreamingInverse) (hR : Source R) :
    ∃ Z : LZMAInputStream L σ → Bytes → Prop, Source Z ∧
      ∀ {s : σ} {d : Bytes} {fuel : ℕ}, R s (compressed L d) → (compressed L d).length ≤ fuel →
        ∃ dec s', new L s = ok dec s' ∧ Z ⟨s', dec, [], fuel⟩ d := by
  obtain ⟨_, Mid, hMid, hinit, hdec⟩ := hL
  refine ⟨Rep R Mid, ⟨?_⟩, ?_⟩
  · intro z o hz n
    obtain ⟨y, hs, hfuel, hrep⟩ := hz
    exact readLoop_spec hR hMid hdec n [] hs hfuel hrep hfuel
  · intro s d fuel hs hfuel
    obtain ⟨dec, halloc, hmid⟩ := hinit d
    obtain ⟨s', hread, hs'⟩ := hR.read_ok hs 1
    refine ⟨dec, s', ?_, (L.encode d).2.flatten, hs', ?_, Or.inl hmid⟩
    · rw [new, hread]
      simp [compressed, halloc]
    · rw [compressed, List.length_cons] at hfuel
      show ([] ++ (L.encode d).2.flatten).length < fuel
      rw [List.nil_append]
      omega

end LZMAInputStream

end Nebula
