/-
Cipher block chaining with padding, fed byte by byte.

A block cipher on `size`-byte blocks is chained in CBC mode and padded so that
every plaintext becomes a whole number of blocks.  The contexts keep what an
incremental interface keeps between calls: the chaining block and the bytes
not yet turned into output.  The decrypting side holds a complete block back
until a further byte shows that it is not the last one, since the last block
carries the padding.

* `encUpdate_append`, `decUpdate_append` — splitting the input into calls does
  not change the output;
* `decrypt_encrypt` — decryption inverts encryption;
* `encrypt_length` — the ciphertext is the padded plaintext's length;
* `decUpdate_blocks_length` — an update releases all but the last block.
-/
import Mathlib

/-- A keyed block cipher: the two directions on one block. -/
structure BlockCipher where
  size : ℕ
  enc : List UInt8 → List UInt8
  dec : List UInt8 → List UInt8

namespace BlockCipher

/-- The cipher keeps the block length and `dec` undoes `enc`; the block length
fits a padding byte. -/
structure Lawful (B : BlockCipher) : Prop where
  size_pos : 0 < B.size
  size_lt : B.size < 256
  enc_length : ∀ x, x.length = B.size → (B.enc x).length = B.size
  dec_enc : ∀ x, x.length = B.size → B.dec (B.enc x) = x

/-- There are finitely many blocks, so `enc` reaches every one of them and `dec`
keeps the length too. -/
theorem Lawful.dec_length {B : BlockCipher} (hB : B.Lawful) {y : List UInt8}
    (hy : y.length = B.size) : (B.dec y).length = B.size := by
  let enc : List.Vector UInt8 B.size → List.Vector UInt8 B.size :=
    fun x => ⟨B.enc x.toList, hB.enc_length _ x.toList_length⟩
  have hinj : Function.Injective enc := by
    intro a b hab
    have henc : B.enc a.toList = B.enc b.toList := congrArg List.Vector.toList hab
    have hdec := congrArg B.dec henc
    rw [hB.dec_enc _ a.toList_length, hB.dec_enc _ b.toList_length] at hdec
    exact List.Vector.toList_injective hdec
  obtain ⟨x, hx⟩ := Finite.surjective_of_injective hinj ⟨y, hy⟩
  have hxy : B.enc x.toList = y := congrArg List.Vector.toList hx
  rw [← hxy, hB.dec_enc _ x.toList_length, x.toList_length]

end BlockCipher

namespace Cbc

/-- Bytewise exclusive or. -/
def xorBytes (x y : List UInt8) : List UInt8 := List.zipWith (· ^^^ ·) x y

theorem xorBytes_length {x y : List UInt8} (h : x.length = y.length) :
    (xorBytes x y).length = y.length := by
  simp [xorBytes, h]

/-- Adding the same bytes twice gives the original back. -/
theorem xorBytes_cancel : ∀ {x y : List UInt8}, x.length = y.length →
    xorBytes (xorBytes x y) y = x := by
  intro x
  induction x with
  | nil =>
    intro y _
    rfl
  | cons a x ih =>
    intro y h
    match y with
    | [] => simp at h
    | b :: y =>
      have hxy : x.length = y.length := by simpa using h
      have hab : a ^^^ b ^^^ b = a := by
        rw [UInt8.xor_assoc, UInt8.xor_self, UInt8.xor_zero]
      have := ih hxy
      simp only [xorBytes, List.zipWith_cons_cons] at this ⊢
      rw [hab, this]

/-- A context of either direction: the chaining block and the pending bytes. -/
structure Ctx where
  chain : List UInt8
  buf : List UInt8
deriving DecidableEq

/-- The context at the start of a message. -/
def Ctx.init (iv : List UInt8) : Ctx := ⟨iv, []⟩

variable (B : BlockCipher)

/-! ### Encryption -/

/-- Feed one plaintext byte; a completed block is enciphered at once. -/
def encByte (c : Ctx) (x : UInt8) : Ctx × List UInt8 :=
  if (c.buf ++ [x]).length = B.size then
    (⟨B.enc (xorBytes (c.buf ++ [x]) c.chain), []⟩, B.enc (xorBytes (c.buf ++ [x]) c.chain))
  else (⟨c.chain, c.buf ++ [x]⟩, [])

/-- Feed plaintext; returns the ciphertext of the blocks completed by it. -/
def encUpdate (c : Ctx) : List UInt8 → Ctx × List UInt8
  | [] => (c, [])
  | x :: xs =>
    ((encUpdate (encByte B c x).1 xs).1,
      (encByte B c x).2 ++ (encUpdate (encByte B c x).1 xs).2)

/-- The padding after `n` pending bytes: `k` bytes of value `k`. -/
def padding (n : ℕ) : List UInt8 := List.replicate (B.size - n) (UInt8.ofNat (B.size - n))

/-- Pad and encipher the pending bytes. -/
def encFinal (c : Ctx) : List UInt8 :=
  B.enc (xorBytes (c.buf ++ padding B c.buf.length) c.chain)

/-- The ciphertext of a whole message. -/
def encrypt (iv p : List UInt8) : List UInt8 :=
  (encUpdate B (.init iv) p).2 ++ encFinal B (encUpdate B (.init iv) p).1

/-! ### Decryption -/

/-- Feed one ciphertext byte; a complete block is released by the byte after
it. -/
def decByte (c : Ctx) (x : UInt8) : Ctx × List UInt8 :=
  if c.buf.length = B.size then (⟨c.buf, [x]⟩, xorBytes (B.dec c.buf) c.chain)
  else (⟨c.chain, c.buf ++ [x]⟩, [])

/-- Feed ciphertext; returns the plaintext released by it. -/
def decUpdate (c : Ctx) : List UInt8 → Ctx × List UInt8
  | [] => (c, [])
  | x :: xs =>
    ((decUpdate (decByte B c x).1 xs).1,
      (decByte B c x).2 ++ (decUpdate (decByte B c x).1 xs).2)

/-- Remove the padding of the last plaintext block; `none` if it is
malformed. -/
def unpad (p : List UInt8) : Option (List UInt8) :=
  let n := (p.getLastD 0).toNat
  if n = 0 ∨ B.size < n then none
  else if p.drop (B.size - n) = List.replicate n (p.getLastD 0) then
    some (p.take (B.size - n))
  else none

/-- Decipher the block held back and remove its padding; `none` if the
ciphertext was not a positive number of blocks or the padding is malformed. -/
def decFinal (c : Ctx) : Option (List UInt8) :=
  if c.buf.length = B.size then unpad B (xorBytes (B.dec c.buf) c.chain) else none

/-- The plaintext still due from context `c` and the remaining ciphertext. -/
def decRest (c : Ctx) (y : List UInt8) : Option (List UInt8) :=
  (decFinal B (decUpdate B c y).1).map fun t => (decUpdate B c y).2 ++ t

/-- The plaintext of a whole ciphertext. -/
def decrypt (iv y : List UInt8) : Option (List UInt8) := decRest B (.init iv) y

/-! ### Splitting the input -/

variable {B}

theorem encUpdate_append (c : Ctx) (xs ys : List UInt8) :
    encUpdate B c (xs ++ ys) =
      ((encUpdate B (encUpdate B c xs).1 ys).1,
        (encUpdate B c xs).2 ++ (encUpdate B (encUpdate B c xs).1 ys).2) := by
  induction xs generalizing c with
  | nil => simp [encUpdate]
  | cons x xs ih =>
    rw [List.cons_append, encUpdate, ih, encUpdate]
    simp only [List.append_assoc]

theorem decUpdate_append (c : Ctx) (xs ys : List UInt8) :
    decUpdate B c (xs ++ ys) =
      ((decUpdate B (decUpdate B c xs).1 ys).1,
        (decUpdate B c xs).2 ++ (decUpdate B (decUpdate B c xs).1 ys).2) := by
  induction xs generalizing c with
  | nil => simp [decUpdate]
  | cons x xs ih =>
    rw [List.cons_append, decUpdate, ih, decUpdate]
    simp only [List.append_assoc]

/-- What a prefix of the ciphertext releases is a prefix of the plaintext. -/
theorem decRest_append {c : Ctx} {xs ys r : List UInt8} (h : decRest B c (xs ++ ys) = some r) :
    ∃ t, r = (decUpdate B c xs).2 ++ t ∧ decRest B (decUpdate B c xs).1 ys = some t := by
  rw [decRest, decUpdate_append] at h
  obtain ⟨u, hu, rfl⟩ := Option.map_eq_some_iff.mp h
  refine ⟨(decUpdate B (decUpdate B c xs).1 ys).2 ++ u, ?_, ?_⟩
  · simp only [List.append_assoc]
  · rw [decRest, hu]
    rfl

/-! ### Decryption inverts encryption -/

/-- Bytes that do not overfill the pending block release nothing. -/
theorem decUpdate_fill {ch bf ys : List UInt8} (h : bf.length + ys.length ≤ B.size) :
    decUpdate B ⟨ch, bf⟩ ys = (⟨ch, bf ++ ys⟩, []) := by
  induction ys generalizing bf with
  | nil => simp [decUpdate]
  | cons y ys ih =>
    rw [List.length_cons] at h
    have hstep : decByte B ⟨ch, bf⟩ y = (⟨ch, bf ++ [y]⟩, []) := by
      rw [decByte, if_neg]
      show ¬ bf.length = B.size
      omega
    have hrest : (bf ++ [y]).length + ys.length ≤ B.size := by
      rw [List.length_append, List.length_singleton]
      omega
    rw [decUpdate, hstep, ih hrest]
    simp

/-- `Sync e d held`: the decrypting context `d` has been fed everything the
encrypting context `e` has put out, and the plaintext block `held` is what it
holds back (nothing before the first block). -/
def Sync (B : BlockCipher) (e d : Ctx) (held : List UInt8) : Prop :=
  (held = [] ∧ d.buf = [] ∧ d.chain = e.chain) ∨
    (d.buf = e.chain ∧ d.buf.length = B.size ∧ xorBytes (B.dec d.buf) d.chain = held)

/-- A block put out by the encrypting side makes the decrypting side release
what it held and hold the new block instead. -/
theorem Sync.block {e d : Ctx} {held z : List UInt8} (hB : B.Lawful) (h : Sync B e d held)
    (hc : e.chain.length = B.size) (hz : z.length = B.size) :
    decUpdate B d (B.enc (xorBytes z e.chain)) =
        (⟨e.chain, B.enc (xorBytes z e.chain)⟩, held) ∧
      xorBytes (B.dec (B.enc (xorBytes z e.chain))) e.chain = z := by
  have hxl : (xorBytes z e.chain).length = B.size := by
    rw [xorBytes_length (by omega), hc]
  have hyl := hB.enc_length _ hxl
  refine ⟨?_, ?_⟩
  · generalize B.enc (xorBytes z e.chain) = y at hyl ⊢
    rcases h with ⟨rfl, hbuf, hchain⟩ | ⟨hbuf, hlen, hheld⟩
    · obtain ⟨dc, db⟩ := d
      subst hbuf hchain
      rw [decUpdate_fill (by simp [hyl])]
      simp
    · -- the first byte of the block releases the block held back
      match y with
      | [] =>
        have := hB.size_pos
        simp at hyl
        omega
      | a :: ys =>
        have hys : ys.length + 1 = B.size := by simpa using hyl
        have hstep : decByte B d a = (⟨e.chain, [a]⟩, held) := by
          rw [decByte, if_pos hlen, hheld, hbuf]
        rw [decUpdate, hstep, decUpdate_fill (by simp; omega)]
        simp
  · rw [hB.dec_enc _ hxl]
    exact xorBytes_cancel (by omega)

/-- One plaintext byte keeps the two sides in step. -/
theorem Sync.byte {e d : Ctx} {held : List UInt8} {x : UInt8} (hB : B.Lawful)
    (h : Sync B e d held) (hc : e.chain.length = B.size) (hb : e.buf.length < B.size) :
    ∃ held', Sync B (encByte B e x).1 (decUpdate B d (encByte B e x).2).1 held' ∧
      (encByte B e x).1.chain.length = B.size ∧ (encByte B e x).1.buf.length < B.size ∧
      held ++ e.buf ++ [x] =
        (decUpdate B d (encByte B e x).2).2 ++ held' ++ (encByte B e x).1.buf := by
  by_cases hfull : (e.buf ++ [x]).length = B.size
  · obtain ⟨hdec, hplain⟩ := h.block hB hc hfull
    have hyl : (B.enc (xorBytes (e.buf ++ [x]) e.chain)).length = B.size :=
      hB.enc_length _ (by rw [xorBytes_length (by omega), hc])
    rw [encByte, if_pos hfull]
    refine ⟨e.buf ++ [x], Or.inr ?_, hyl, hB.size_pos, ?_⟩
    · rw [hdec]
      exact ⟨rfl, hyl, hplain⟩
    · rw [hdec]
      simp
  · rw [encByte, if_neg hfull]
    refine ⟨held, ?_, hc, ?_, ?_⟩
    · rcases h with h | h
      · exact Or.inl h
      · exact Or.inr h
    · rw [List.length_append, List.length_singleton] at hfull ⊢
      omega
    · simp [decUpdate]

/-- Any amount of plaintext keeps the two sides in step. -/
theorem Sync.update {e d : Ctx} {held : List UInt8} (hB : B.Lawful) (h : Sync B e d held)
    (hc : e.chain.length = B.size) (hb : e.buf.length < B.size) (p : List UInt8) :
    ∃ held', Sync B (encUpdate B e p).1 (decUpdate B d (encUpdate B e p).2).1 held' ∧
      (encUpdate B e p).1.chain.length = B.size ∧ (encUpdate B e p).1.buf.length < B.size ∧
      held ++ e.buf ++ p =
        (decUpdate B d (encUpdate B e p).2).2 ++ held' ++ (encUpdate B e p).1.buf := by
  induction p generalizing e d held with
  | nil => exact ⟨held, h, hc, hb, by simp [encUpdate, decUpdate]⟩
  | cons x p ih =>
    obtain ⟨h1, hs1, hc1, hb1, heq1⟩ := h.byte (x := x) hB hc hb
    obtain ⟨h2, hs2, hc2, hb2, heq2⟩ := ih hs1 hc1 hb1
    rw [encUpdate]
    simp only [decUpdate_append]
    refine ⟨h2, hs2, hc2, hb2, ?_⟩
    calc held ++ e.buf ++ x :: p
        = (held ++ e.buf ++ [x]) ++ p := by simp
      _ = (decUpdate B d (encByte B e x).2).2 ++ (h1 ++ (encByte B e x).1.buf ++ p) := by
          rw [heq1]; simp
      _ = _ := by rw [heq2]; simp

theorem padding_length {n : ℕ} (h : n < B.size) : n + (padding B n).length = B.size := by
  simp [padding]
  omega

/-- Removing the padding just added. -/
theorem unpad_padding {r : List UInt8} (hB : B.Lawful) (h : r.length < B.size) :
    unpad B (r ++ padding B r.length) = some r := by
  have hsz := hB.size_lt
  have hval : (UInt8.ofNat (B.size - r.length)).toNat = B.size - r.length := by
    rw [UInt8.toNat_ofNat']
    exact Nat.mod_eq_of_lt (by omega)
  have hlast : (r ++ padding B r.length).getLastD 0 = UInt8.ofNat (B.size - r.length) := by
    have hne : padding B r.length ≠ [] := by
      simp [padding]
      omega
    rw [List.getLastD_eq_getLast?, List.getLast?_append_of_ne_nil _ hne, padding,
      List.getLast?_replicate, if_neg (by omega)]
    rfl
  have hsub : B.size - (B.size - r.length) = r.length := by omega
  rw [unpad]
  simp only [hlast, hval, hsub]
  rw [if_neg (by omega), List.drop_left, padding, if_pos rfl, List.take_left]

/-- **Decryption inverts encryption.** -/
theorem decrypt_encrypt (hB : B.Lawful) {iv : List UInt8} (hiv : iv.length = B.size)
    (p : List UInt8) : decrypt B iv (encrypt B iv p) = some p := by
  have h0 : Sync B (.init iv) (.init iv) [] := Or.inl ⟨rfl, rfl, rfl⟩
  obtain ⟨held, hs, hc, hb, heq⟩ := h0.update hB hiv hB.size_pos p
  -- the final block releases `held` and is itself held back
  have hpad : ((encUpdate B (.init iv) p).1.buf ++
      padding B (encUpdate B (.init iv) p).1.buf.length).length = B.size := by
    rw [List.length_append]
    exact padding_length hb
  obtain ⟨hdec, hplain⟩ := hs.block hB hc hpad
  have hyl : (encFinal B (encUpdate B (.init iv) p).1).length = B.size :=
    hB.enc_length _ (by rw [xorBytes_length (by omega), hc])
  rw [decrypt, decRest, encrypt, decUpdate_append]
  rw [encFinal] at hyl ⊢
  simp only [hdec]
  rw [decFinal, if_pos hyl, hplain, unpad_padding hB hb]
  simpa [Ctx.init] using heq.symm

/-! ### Lengths -/

theorem encByte_length (hB : B.Lawful) {c : Ctx} (hc : c.chain.length = B.size)
    (hb : c.buf.length < B.size) (x : UInt8) :
    (encByte B c x).1.chain.length = B.size ∧ (encByte B c x).1.buf.length < B.size ∧
      c.buf.length + 1 = (encByte B c x).2.length + (encByte B c x).1.buf.length ∧
      B.size ∣ (encByte B c x).2.length := by
  rw [encByte]
  by_cases hfull : (c.buf ++ [x]).length = B.size
  · have hyl : (B.enc (xorBytes (c.buf ++ [x]) c.chain)).length = B.size :=
      hB.enc_length _ (by rw [xorBytes_length (by omega), hc])
    rw [if_pos hfull]
    rw [List.length_append, List.length_singleton] at hfull
    refine ⟨hyl, hB.size_pos, ?_, ?_⟩
    · simp only [hyl, List.length_nil]
      omega
    · simp only [hyl]
      exact dvd_refl _
  · rw [if_neg hfull]
    rw [List.length_append, List.length_singleton] at hfull
    refine ⟨hc, ?_, ?_, ?_⟩
    · simp only [List.length_append, List.length_singleton]
      omega
    · simp
    · simp

theorem encUpdate_length (hB : B.Lawful) {c : Ctx} (hc : c.chain.length = B.size)
    (hb : c.buf.length < B.size) (p : List UInt8) :
    (encUpdate B c p).1.chain.length = B.size ∧ (encUpdate B c p).1.buf.length < B.size ∧
      c.buf.length + p.length = (encUpdate B c p).2.length + (encUpdate B c p).1.buf.length ∧
      B.size ∣ (encUpdate B c p).2.length := by
  induction p generalizing c with
  | nil => exact ⟨hc, hb, by simp [encUpdate], by simp [encUpdate]⟩
  | cons x p ih =>
    obtain ⟨hc1, hb1, hl1, hd1⟩ := encByte_length hB hc hb x
    obtain ⟨hc2, hb2, hl2, hd2⟩ := ih hc1 hb1
    rw [encUpdate]
    refine ⟨hc2, hb2, ?_, ?_⟩
    · simp only [List.length_cons, List.length_append]
      omega
    · simp only [List.length_append]
      exact dvd_add hd1 hd2

/-- The ciphertext is as long as the padded plaintext. -/
theorem encrypt_length (hB : B.Lawful) {iv : List UInt8} (hiv : iv.length = B.size)
    (p : List UInt8) : (encrypt B iv p).length = (p.length / B.size + 1) * B.size := by
  obtain ⟨hc, hb, hl, k, hk⟩ := encUpdate_length (c := .init iv) hB hiv hB.size_pos p
  have hfin : (encFinal B (encUpdate B (.init iv) p).1).length = B.size := by
    refine hB.enc_length _ ?_
    have hpad := padding_length (B := B) hb
    rw [xorBytes_length (by rw [List.length_append]; omega), hc]
  have hdiv : p.length / B.size = k := by
    have hp : p.length = B.size * k + (encUpdate B (.init iv) p).1.buf.length := by
      rw [← hk]
      simpa [Ctx.init] using hl
    rw [hp, Nat.mul_add_div hB.size_pos, Nat.div_eq_of_lt hb, Nat.add_zero]
  rw [encrypt, List.length_append, hfin, hk, hdiv]
  ring

theorem decByte_length (hB : B.Lawful) {c : Ctx} (hc : c.chain.length = B.size)
    (hb : c.buf.length ≤ B.size) (x : UInt8) :
    (decByte B c x).1.chain.length = B.size ∧ 0 < (decByte B c x).1.buf.length ∧
      (decByte B c x).1.buf.length ≤ B.size ∧
      c.buf.length + 1 = (decByte B c x).2.length + (decByte B c x).1.buf.length ∧
      B.size ∣ (decByte B c x).2.length := by
  have hpos := hB.size_pos
  rw [decByte]
  by_cases hfull : c.buf.length = B.size
  · have hout : (xorBytes (B.dec c.buf) c.chain).length = B.size := by
      rw [xorBytes_length (by rw [hB.dec_length hfull, hc]), hc]
    rw [if_pos hfull]
    refine ⟨hfull, by simp, by simp only [List.length_singleton]; omega, ?_, ?_⟩
    · simp only [hout, List.length_singleton]
      omega
    · simp only [hout]
      exact dvd_refl _
  · rw [if_neg hfull]
    refine ⟨hc, by simp, ?_, by simp, by simp⟩
    simp only [List.length_append, List.length_singleton]
    omega

/-- What is released and what is held back add up; after any input something is
held back, one block at most. -/
theorem decUpdate_length (hB : B.Lawful) {c : Ctx} (hc : c.chain.length = B.size)
    (hb : c.buf.length ≤ B.size) (y : List UInt8) :
    (decUpdate B c y).1.buf.length ≤ B.size ∧ (y ≠ [] → 0 < (decUpdate B c y).1.buf.length) ∧
      c.buf.length + y.length = (decUpdate B c y).2.length + (decUpdate B c y).1.buf.length ∧
      B.size ∣ (decUpdate B c y).2.length := by
  induction y generalizing c with
  | nil => exact ⟨hb, fun h => absurd rfl h, by simp [decUpdate], by simp [decUpdate]⟩
  | cons x y ih =>
    obtain ⟨hc1, hpos1, hb1, hl1, hd1⟩ := decByte_length hB hc hb x
    obtain ⟨hb2, hpos2, hl2, hd2⟩ := ih hc1 hb1
    rw [decUpdate]
    refine ⟨hb2, fun _ => ?_, ?_, ?_⟩
    · by_cases hy : y = []
      · subst hy
        exact hpos1
      · exact hpos2 hy
    · simp only [List.length_cons, List.length_append]
      omega
    · simp only [List.length_append]
      exact dvd_add hd1 hd2

/-- **All but the last block is released** from a whole number of blocks. -/
theorem decUpdate_blocks_length (hB : B.Lawful) {iv y : List UInt8} (hiv : iv.length = B.size)
    {n : ℕ} (hy : y.length = (n + 1) * B.size) :
    (decUpdate B (.init iv) y).2.length = n * B.size := by
  have hpos := hB.size_pos
  have hne : y ≠ [] := by
    rintro rfl
    rw [List.length_nil, Nat.add_mul] at hy
    omega
  obtain ⟨hb, hheld, hl, k, hk⟩ := decUpdate_length (c := .init iv) hB hiv (Nat.zero_le _) y
  have hheld := hheld hne
  have hsum : (n + 1) * B.size = k * B.size + (decUpdate B (.init iv) y).1.buf.length := by
    rw [← hy, mul_comm k, ← hk]
    simpa [Ctx.init] using hl
  have hkn : k = n := by
    have hle : k < n + 1 := by
      by_contra hc
      have := Nat.mul_le_mul_right B.size (not_lt.mp hc)
      omega
    have hge : n < k + 1 := by
      by_contra hc
      have := Nat.mul_le_mul_right B.size (not_lt.mp hc)
      rw [Nat.add_mul] at this hsum
      omega
    omega
  rw [hk, hkn, mul_comm]

end Cbc
