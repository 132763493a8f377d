/-
`base32encode` and the names of objects.

The encoder keeps the bits that are not written yet in an accumulator.  Read
as numbers, bytes consumed and characters written satisfy `EncInv` after
every round, so that equal outputs come from equal inputs
(`base32encode_injective`).  An object id of 32 bytes fills the 53 bytes of
`objectIdToString` exactly, and different ids get different names
(`objectIdToString_ok`, `objectName_injective`).
-/
import NebulaBackup.Snapshot

namespace Nebula

/-- `base32hex`. -/
def base32hex (idx : ℕ) : UInt8 :=
  (ascii "abcdefghijklmnopqrstuvwxyz234567").getD idx 0

/-- The variables of the loop of `base32encode`: `value`, `validBits`,
`outLen`, and the characters written. -/
structure EncState where
  value : ℕ
  validBits : ℕ
  outLen : ℕ
  out : Bytes

/-- The exception of `base32encode`. -/
def encOverflow : Fault :=
  .thrown .InsufficientBufferSizeException "Not enough buffer size to encode output string."

/-- Write one character for the five bits `idx`. -/
def emit (s : EncState) (idx : ℕ) : Except Fault EncState :=
  if s.outLen = 0 then .error encOverflow
  else .ok { s with out := s.out ++ [base32hex idx], outLen := s.outLen - 1 }

/-- The inner loop; two rounds are enough for the bits of one byte. -/
def emitLoop : ℕ → EncState → Except Fault EncState
  | 0, s => if 5 ≤ s.validBits then .error .outOfFuel else .ok s
  | k + 1, s =>
    if 5 ≤ s.validBits then
      match emit s (s.value / 2 ^ (s.validBits - 5) % 32) with
      | .error e => .error e
      | .ok s' =>
        emitLoop k { s' with
          value := s.value % 2 ^ (s.validBits - 5), validBits := s.validBits - 5 }
    else .ok s

/-- The loop over the data. -/
def encodeLoop : Bytes → EncState → Except Fault EncState
  | [], s => .ok s
  | b :: data, s =>
    match emitLoop 2 { s with value := s.value * 256 + b.toNat, validBits := s.validBits + 8 } with
    | .error e => .error e
    | .ok s' => encodeLoop data s'

/-- `base32encode`: the string in front of the final NUL. -/
def base32encode (data : Bytes) (outLen : ℕ) : Except Fault Bytes :=
  match encodeLoop data ⟨0, 0, outLen, []⟩ with
  | .error e => .error e
  | .ok s =>
    match (if 0 < s.validBits then emit s (s.value * 2 ^ (5 - s.validBits) % 32) else .ok s) with
    | .error e => .error e
    | .ok s' => if s'.outLen = 0 then .error encOverflow else .ok s'.out

/-! ### Bytes and characters as numbers -/

/-- The number with the given bytes, most significant first. -/
def beNat (b : Bytes) : ℕ := b.foldl (fun n x => n * 256 + x.toNat) 0

/-- The five bits of a character. -/
def digitOf (c : UInt8) : ℕ := (ascii "abcdefghijklmnopqrstuvwxyz234567").findIdx (· = c)

/-- The number with the given base-32 digits. -/
def digits (s : Bytes) : ℕ := s.foldl (fun n c => n * 32 + digitOf c) 0

theorem digitOf_base32hex {idx : ℕ} (h : idx < 32) : digitOf (base32hex idx) = idx := by
  have hall : ∀ i : Fin 32, digitOf (base32hex i) = i := by decide
  exact hall ⟨idx, h⟩

theorem beNat_append (a : Bytes) (x : UInt8) : beNat (a ++ [x]) = beNat a * 256 + x.toNat := by
  rw [beNat, List.foldl_append]
  rfl

theorem digits_append (s : Bytes) {idx : ℕ} (h : idx < 32) :
    digits (s ++ [base32hex idx]) = digits s * 32 + idx := by
  rw [digits, List.foldl_append]
  show digits s * 32 + digitOf (base32hex idx) = _
  rw [digitOf_base32hex h]

/-- Byte strings of one length are equal when their numbers are. -/
theorem beNat_injective : ∀ {a b : Bytes}, a.length = b.length → beNat a = beNat b → a = b := by
  intro a
  induction a using List.reverseRecOn with
  | nil =>
    intro b hlen _
    exact (List.length_eq_zero_iff.mp hlen.symm).symm
  | append_singleton a x ih =>
    intro b hlen heq
    induction b using List.reverseRecOn with
    | nil => simp at hlen
    | append_singleton b y _ =>
      rw [beNat_append, beNat_append] at heq
      have hx := x.toNat_lt
      have hy := y.toNat_lt
      have hxy : x = y := UInt8.toNat_inj.mp (by omega)
      have hab : a = b := ih (by simpa using hlen) (by omega)
      rw [hxy, hab]

/-- The invariant of the encoder after the bytes `d`, with room for `n`
characters at the start: what was written and the bits left over are the
bits of `d`. -/
structure EncInv (n : ℕ) (d : Bytes) (s : EncState) : Prop where
  value_lt : s.value < 2 ^ s.validBits
  number : beNat d = digits s.out * 2 ^ s.validBits + s.value
  bits : 8 * d.length = 5 * s.out.length + s.validBits
  room : s.outLen + s.out.length = n

/-- One character: its five bits go from the accumulator to the output. -/
theorem emit_spec {n : ℕ} {d : Bytes} {s : EncState} (h : EncInv n d s) (hbits : 5 ≤ s.validBits)
    (hroom : s.out.length < n) :
    ∃ s', emit s (s.value / 2 ^ (s.validBits - 5) % 32) = .ok s' ∧
      EncInv n d { s' with value := s.value % 2 ^ (s.validBits - 5), validBits := s.validBits - 5 } := by
  obtain ⟨hlt, hnum, hb, hr⟩ := h
  -- the five highest bits become a digit, the others stay
  have hpow : 2 ^ s.validBits = 32 * 2 ^ (s.validBits - 5) := by
    rw [show (32 : ℕ) = 2 ^ 5 by norm_num, ← pow_add]
    congr 1
    omega
  have hidx : s.value / 2 ^ (s.validBits - 5) < 32 := by
    rw [Nat.div_lt_iff_lt_mul (by positivity), ← hpow]
    exact hlt
  rw [emit, if_neg (by omega)]
  refine ⟨_, rfl, ⟨Nat.mod_lt _ (by positivity), ?_, ?_, ?_⟩⟩
  · show beNat d = digits (s.out ++ [_]) * 2 ^ (s.validBits - 5) + s.value % 2 ^ (s.validBits - 5)
    rw [digits_append _ (Nat.mod_lt _ (by norm_num)), Nat.mod_eq_of_lt hidx, hnum, hpow]
    have hsplit := Nat.div_add_mod s.value (2 ^ (s.validBits - 5))
    calc digits s.out * (32 * 2 ^ (s.validBits - 5)) + s.value
        = digits s.out * (32 * 2 ^ (s.validBits - 5)) + (2 ^ (s.validBits - 5) *
            (s.value / 2 ^ (s.validBits - 5)) + s.value % 2 ^ (s.validBits - 5)) := by rw [hsplit]
      _ = (digits s.out * 32 + s.value / 2 ^ (s.validBits - 5)) * 2 ^ (s.validBits - 5) +
            s.value % 2 ^ (s.validBits - 5) := by ring
  · show 8 * d.length = 5 * (s.out ++ [_]).length + (s.validBits - 5)
    rw [List.length_append, List.length_singleton]
    omega
  · show s.outLen - 1 + (s.out ++ [_]).length = n
    rw [List.length_append, List.length_singleton]
    omega

/-- The characters are digits. -/
def InAlphabet (s : Bytes) : Prop := ∃ vs : List ℕ, s = vs.map base32hex ∧ ∀ v ∈ vs, v < 32

theorem InAlphabet.concat {s : Bytes} (h : InAlphabet s) {idx : ℕ} (hidx : idx < 32) :
    InAlphabet (s ++ [base32hex idx]) := by
  obtain ⟨vs, rfl, hvs⟩ := h
  refine ⟨vs ++ [idx], by simp, ?_⟩
  intro v hv
  rcases List.mem_append.mp hv with hv | hv
  · exact hvs v hv
  · rwa [List.mem_singleton.mp hv]

theorem emit_out {s s' : EncState} {idx : ℕ} (h : emit s idx = .ok s') :
    s'.out = s.out ++ [base32hex idx] := by
  rw [emit] at h
  split at h
  · exact absurd h (by simp)
  · rw [← Except.ok.inj h]

/-- The inner loop leaves fewer than five bits, or there is no room for the next
character. -/
theorem emitLoop_cases {n : ℕ} {d : Bytes} : ∀ {k : ℕ} {s : EncState}, EncInv n d s →
    InAlphabet s.out → s.validBits < 5 * (k + 1) →
      (emitLoop k s = .error encOverflow ∧ 5 * (n + 1) ≤ 8 * d.length) ∨
        ∃ s', emitLoop k s = .ok s' ∧ EncInv n d s' ∧ InAlphabet s'.out ∧ s'.validBits < 5 := by
  intro k
  induction k with
  | zero =>
    intro s h halpha hk
    rw [emitLoop, if_neg (by omega)]
    exact Or.inr ⟨s, rfl, h, halpha, by omega⟩
  | succ k ih =>
    intro s h halpha hk
    have hroom := h.room
    have hb := h.bits
    rw [emitLoop]
    by_cases hbits : 5 ≤ s.validBits
    · rw [if_pos hbits]
      by_cases hfull : s.outLen = 0
      · rw [emit, if_pos hfull]
        exact Or.inl ⟨rfl, by omega⟩
      · obtain ⟨s', hemit, hinv⟩ := emit_spec h hbits (by omega)
        have halpha' : InAlphabet s'.out := by
          rw [emit_out hemit]
          exact halpha.concat (Nat.mod_lt _ (by norm_num))
        rw [hemit]
        exact ih hinv halpha' (by show s.validBits - 5 < 5 * (k + 1); omega)
    · rw [if_neg hbits]
      exact Or.inr ⟨s, rfl, h, halpha, by omega⟩

/-- The next byte goes into the accumulator. -/
theorem EncInv.push {n : ℕ} {d : Bytes} {s : EncState} (h : EncInv n d s) (b : UInt8) :
    EncInv n (d ++ [b])
      { s with value := s.value * 256 + b.toNat, validBits := s.validBits + 8 } := by
  have hb := b.toNat_lt
  have hlt := h.value_lt
  refine ⟨?_, ?_, ?_, h.room⟩
  · show s.value * 256 + b.toNat < 2 ^ (s.validBits + 8)
    rw [pow_add]
    omega
  · show beNat (d ++ [b]) = digits s.out * 2 ^ (s.validBits + 8) + (s.value * 256 + b.toNat)
    rw [beNat_append, h.number, pow_add]
    ring
  · show 8 * (d ++ [b]).length = 5 * s.out.length + (s.validBits + 8)
    rw [List.length_append, List.length_singleton]
    have := h.bits
    omega

theorem encodeLoop_cases {n : ℕ} : ∀ (data : Bytes) {d : Bytes} {s : EncState}, EncInv n d s →
    InAlphabet s.out → s.validBits < 5 →
      (encodeLoop data s = .error encOverflow ∧ 5 * (n + 1) ≤ 8 * (d ++ data).length) ∨
        ∃ s', encodeLoop data s = .ok s' ∧ EncInv n (d ++ data) s' ∧ InAlphabet s'.out ∧
          s'.validBits < 5 := by
  intro data
  induction data with
  | nil =>
    intro d s h halpha hbits
    exact Or.inr ⟨s, rfl, by simpa using h, halpha, hbits⟩
  | cons b data ih =>
    intro d s h halpha hbits
    have happ : d ++ b :: data = d ++ [b] ++ data := by simp
    rw [happ, encodeLoop]
    -- fewer than 5 bits were left, so 8 more make at most two digits
    rcases emitLoop_cases (k := 2) (h.push b) halpha (by show s.validBits + 8 < 15; omega) with
      ⟨herr, hfull⟩ | ⟨s', hemit, hinv, halpha', hlt⟩
    · rw [herr]
      refine Or.inl ⟨rfl, ?_⟩
      rw [List.length_append]
      omega
    · rw [hemit]
      exact ih hinv halpha' hlt

/-- **What `base32encode` writes**: the bits of the data, five to a character and
filled up with zeros, if they and the NUL fit the buffer. -/
theorem base32encode_cases (data : Bytes) (outLen : ℕ) :
    (outLen ≤ (8 * data.length + 4) / 5 ∧ base32encode data outLen = .error encOverflow) ∨
      ((8 * data.length + 4) / 5 < outLen ∧ ∃ s, base32encode data outLen = .ok s ∧
        s.length = (8 * data.length + 4) / 5 ∧ InAlphabet s ∧
        digits s = beNat data * 2 ^ (5 * s.length - 8 * data.length)) := by
  have hinit : EncInv outLen [] ⟨0, 0, outLen, []⟩ := ⟨by simp, rfl, rfl, rfl⟩
  rcases encodeLoop_cases data hinit ⟨[], rfl, by simp⟩ (Nat.zero_lt_succ 4) with
    ⟨herr, hfull⟩ | ⟨s, hloop, hinv, halpha, hlt⟩
  · rw [List.nil_append] at hfull
    refine Or.inl ⟨by omega, ?_⟩
    rw [base32encode, herr]
  · rw [List.nil_append] at hinv
    have hbits := hinv.bits
    have hroom := hinv.room
    rw [base32encode, hloop]
    by_cases hrest : 0 < s.validBits
    · -- the remainder
      have hpow : (32 : ℕ) = 2 ^ s.validBits * 2 ^ (5 - s.validBits) := by
        rw [← pow_add, show s.validBits + (5 - s.validBits) = 5 by omega]
        norm_num
      have hidx : s.value * 2 ^ (5 - s.validBits) < 32 := by
        rw [hpow]
        exact Nat.mul_lt_mul_of_pos_right hinv.value_lt (by positivity)
      simp only [hrest, if_true, emit]
      by_cases hzero : s.outLen = 0
      · exact Or.inl ⟨by omega, by rw [if_pos hzero]⟩
      · rw [if_neg hzero]
        simp only []
        by_cases hone : s.outLen - 1 = 0
        · exact Or.inl ⟨by omega, if_pos hone⟩
        · refine Or.inr ⟨by omega, _, if_neg hone, ?_, halpha.concat (Nat.mod_lt _ (by norm_num)), ?_⟩
          · rw [List.length_append, List.length_singleton]
            omega
          · rw [digits_append _ (Nat.mod_lt _ (by norm_num)), Nat.mod_eq_of_lt hidx, hinv.number,
              List.length_append, List.length_singleton]
            have hexp : 5 * (s.out.length + 1) - 8 * data.length = 5 - s.validBits := by omega
            rw [hexp, Nat.add_mul, Nat.mul_assoc, ← hpow]
    · simp only [hrest, if_false]
      by_cases hzero : s.outLen = 0
      · exact Or.inl ⟨by omega, if_pos hzero⟩
      · refine Or.inr ⟨by omega, s.out, if_neg hzero, by omega, halpha, ?_⟩
        have hbits0 : s.validBits = 0 := by omega
        have hval : s.value = 0 := by
          have := hinv.value_lt
          rw [hbits0, pow_zero] at this
          omega
        have hexp : 5 * s.out.length - 8 * data.length = 0 := by omega
        rw [hinv.number, hbits0, hval, hexp]
        simp

theorem base32encode_spec (data : Bytes) {outLen : ℕ} (h : (8 * data.length + 4) / 5 < outLen) :
    ∃ s, base32encode data outLen = .ok s ∧ s.length = (8 * data.length + 4) / 5 ∧
      digits s = beNat data * 2 ^ (5 * s.length - 8 * data.length) := by
  rcases base32encode_cases data outLen with ⟨hle, -⟩ | ⟨-, s, hs, hlen, -, hdigits⟩
  · omega
  · exact ⟨s, hs, hlen, hdigits⟩

/-- Different data of one length is encoded differently. -/
theorem base32encode_injective {a b s : Bytes} {n : ℕ} (hlen : a.length = b.length)
    (hn : (8 * a.length + 4) / 5 < n) (ha : base32encode a n = .ok s)
    (hb : base32encode b n = .ok s) : a = b := by
  obtain ⟨s₁, h₁, hl₁, hd₁⟩ := base32encode_spec a hn
  obtain ⟨s₂, h₂, hl₂, hd₂⟩ := base32encode_spec b (hlen ▸ hn)
  rw [ha, Except.ok.injEq] at h₁
  rw [hb, Except.ok.injEq] at h₂
  subst h₁
  subst h₂
  refine beNat_injective hlen ?_
  rw [hlen] at hd₁
  have hpos : 0 < 2 ^ (5 * s.length - 8 * b.length) := by positivity
  exact Nat.eq_of_mul_eq_mul_right hpos (hd₁.symm.trans hd₂)

/-! ### Object names -/

/-- `Repository::objectIdToString`. -/
def objectIdToString (objectId : ObjectID) : Except Fault Bytes :=
  match base32encode objectId.toList 53 with
  | .error e => .error e
  | .ok outStr => .ok (outStr.take 2 ++ Path.separator :: outStr.drop 2)

/-- The name of an object, for an id that has one. -/
def objectName (objectId : ObjectID) : Bytes := (objectIdToString objectId).toOption.getD []

/-- Every id has a name. -/
theorem objectIdToString_ok (objectId : ObjectID) :
    objectIdToString objectId = .ok (objectName objectId) := by
  have hlen : objectId.toList.length = 32 := objectId.toList_length
  obtain ⟨s, hs, -, -⟩ := base32encode_spec objectId.toList
    (show (8 * objectId.toList.length + 4) / 5 < 53 by omega)
  rw [objectName, objectIdToString, hs]
  rfl

/-- **Different ids have different names.** -/
theorem objectName_injective : Function.Injective objectName := by
  intro a b h
  have hla : a.toList.length = 32 := a.toList_length
  have hlb : b.toList.length = 32 := b.toList_length
  obtain ⟨s, hs, hls, -⟩ := base32encode_spec a.toList
    (show (8 * a.toList.length + 4) / 5 < 53 by omega)
  obtain ⟨t, ht, hlt, -⟩ := base32encode_spec b.toList
    (show (8 * b.toList.length + 4) / 5 < 53 by omega)
  have heq : s.take 2 ++ Path.separator :: s.drop 2 = t.take 2 ++ Path.separator :: t.drop 2 := by
    have hna : objectName a = s.take 2 ++ Path.separator :: s.drop 2 := by
      rw [objectName, objectIdToString, hs]
      rfl
    have hnb : objectName b = t.take 2 ++ Path.separator :: t.drop 2 := by
      rw [objectName, objectIdToString, ht]
      rfl
    rw [← hna, ← hnb, h]
  have htake : (s.take 2).length = (t.take 2).length := by
    rw [List.length_take, List.length_take]
    omega
  obtain ⟨h1, h2⟩ := List.append_inj heq htake
  have hst : s = t := by
    rw [← List.take_append_drop 2 s, ← List.take_append_drop 2 t, h1, (List.cons.inj h2).2]
  subst hst
  have hlist : a.toList = b.toList :=
    base32encode_injective (n := 53) (hla.trans hlb.symm) (by omega) hs ht
  exact List.Vector.toList_injective hlist

end Nebula
