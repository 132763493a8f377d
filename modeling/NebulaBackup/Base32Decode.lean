/-
`base32decode`, and the round trip with `base32encode`.

The decoder turns eight characters into five bytes, and the rest of the string
by one of four tail cases.  Read as numbers, both directions are shifts: the
decoder drops the bits with which the encoder filled up its last character
(`decodeLoop_spec`).  Main result:

* `base32_roundTrip` — when the encoder throws, what it writes otherwise, and
  that the decoder gives the data back exactly when it has room for it.
-/
import NebulaBackup.Base32

namespace Nebula

/-! ### The decoder -/

/-- `hex32ToInt`. -/
def hex32ToInt (c : UInt8) : Except Fault ℕ :=
  if 97 ≤ tolower c ∧ tolower c ≤ 122 then .ok ((tolower c).toNat - 97)
  else if 50 ≤ tolower c ∧ tolower c ≤ 55 then .ok ((tolower c).toNat - 50 + 26)
  else .error (.thrown .InvalidArgumentException "Invalid hex32 character.")

/-- The bytes of a group, from the digits that they take bits of. -/
def data0 (a b : ℕ) : UInt8 := ((a <<< 3) ||| (b >>> 2)).toUInt8
def data1 (b c d : ℕ) : UInt8 := (((b &&& 3) <<< 6) ||| (c <<< 1) ||| (d >>> 4)).toUInt8
def data2 (d e : ℕ) : UInt8 := (((d &&& 0xF) <<< 4) ||| (e >>> 1)).toUInt8
def data3 (e f g : ℕ) : UInt8 := (((e &&& 1) <<< 7) ||| (f <<< 2) ||| (g >>> 3)).toUInt8
def data4 (g h : ℕ) : UInt8 := (((g &&& 7) <<< 5) ||| h).toUInt8

/-- The loop over groups of eight characters, and the tail cases. -/
def decodeLoop : Bytes → Except Fault Bytes
  | a :: b :: c :: d :: e :: f :: g :: h :: rest => do
    let a ← hex32ToInt a
    let b ← hex32ToInt b
    let c ← hex32ToInt c
    let d ← hex32ToInt d
    let e ← hex32ToInt e
    let f ← hex32ToInt f
    let g ← hex32ToInt g
    let h ← hex32ToInt h
    let data ← decodeLoop rest
    return data0 a b :: data1 b c d :: data2 d e :: data3 e f g :: data4 g h :: data
  | [] => return []
  | [a, b] => do
    let a ← hex32ToInt a
    let b ← hex32ToInt b
    return [data0 a b]
  | [a, b, c, d] => do
    let a ← hex32ToInt a
    let b ← hex32ToInt b
    let c ← hex32ToInt c
    let d ← hex32ToInt d
    return [data0 a b, data1 b c d]
  | [a, b, c, d, e] => do
    let a ← hex32ToInt a
    let b ← hex32ToInt b
    let c ← hex32ToInt c
    let d ← hex32ToInt d
    let e ← hex32ToInt e
    return [data0 a b, data1 b c d, data2 d e]
  | [a, b, c, d, e, f, g] => do
    let a ← hex32ToInt a
    let b ← hex32ToInt b
    let c ← hex32ToInt c
    let d ← hex32ToInt d
    let e ← hex32ToInt e
    let f ← hex32ToInt f
    let g ← hex32ToInt g
    return [data0 a b, data1 b c d, data2 d e, data3 e f g]
  | _ => .error (.thrown .InvalidArgumentException "Invalid input length size.")

/-- `extra`: the bytes of a tail, by the number of its characters. -/
def tailBytes : ℕ → Option ℕ
  | 0 => some 0
  | 2 => some 1
  | 4 => some 2
  | 5 => some 3
  | 7 => some 4
  | _ => none

/-- The exception of `base32decode` for a buffer that is too small. -/
def decOverflow : Fault :=
  .thrown .InsufficientBufferSizeException "Output length is not long enough."

/-- `base32decode`: the bytes written; their number is returned. -/
def base32decode (base32string : Bytes) (outLen : ℕ) : Except Fault Bytes :=
  match tailBytes (base32string.length % 8) with
  | none => .error (.thrown .InvalidArgumentException "Invalid input length size.")
  | some extra =>
    if outLen < base32string.length / 8 * 5 + extra then .error decOverflow
    else decodeLoop base32string

/-- What `base32encode` leaves in its buffer: the string and a NUL. -/
def base32encodeBuffer (data : Bytes) (outLen : ℕ) : Except Fault Bytes :=
  (base32encode data outLen).map (· ++ [0])

/-! ### Bits as numbers -/

/-- The number with the given digits. -/
def digitsNat (vs : List ℕ) : ℕ := vs.foldl (fun n v => n * 32 + v) 0

theorem digitsNat_append (us vs : List ℕ) :
    digitsNat (us ++ vs) = digitsNat us * 32 ^ vs.length + digitsNat vs := by
  induction vs using List.reverseRecOn with
  | nil => simp [digitsNat]
  | append_singleton vs v ih =>
    have hlast : ∀ ws : List ℕ, digitsNat (ws ++ [v]) = digitsNat ws * 32 + v := by
      intro ws
      rw [digitsNat, List.foldl_append]
      rfl
    rw [← List.append_assoc, hlast, ih, hlast, List.length_append, List.length_singleton, pow_succ]
    ring

theorem beNat_concat (a b : Bytes) : beNat (a ++ b) = beNat a * 256 ^ b.length + beNat b := by
  induction b using List.reverseRecOn with
  | nil => simp [beNat]
  | append_singleton b x ih =>
    rw [← List.append_assoc, beNat_append, ih, beNat_append, List.length_append,
      List.length_singleton, pow_succ]
    ring

theorem digits_map : ∀ {vs : List ℕ}, (∀ v ∈ vs, v < 32) →
    digits (vs.map base32hex) = digitsNat vs := by
  intro vs
  induction vs using List.reverseRecOn with
  | nil =>
    intro _
    rfl
  | append_singleton vs v ih =>
    intro h
    rw [List.map_append, List.map_singleton, digits_append _ (h v (by simp)),
      ih fun u hu => h u (by simp [hu]), digitsNat_append]
    simp [digitsNat]

theorem hex32ToInt_base32hex {v : ℕ} (h : v < 32) : hex32ToInt (base32hex v) = .ok v := by
  have hall : ∀ i : Fin 32, hex32ToInt (base32hex i) = .ok i.val := by decide
  exact hall ⟨v, h⟩

/-- Disjoint bits are put together by addition. -/
theorem shiftLeft_or {y i : ℕ} (x : ℕ) (h : y < 2 ^ i) : x <<< i ||| y = x * 2 ^ i + y := by
  rw [← Nat.shiftLeft_add_eq_or_of_lt h, Nat.shiftLeft_eq]

theorem toUInt8_toNat_of_lt {n : ℕ} (h : n < 256) : n.toUInt8.toNat = n :=
  UInt8.toNat_ofNat_of_lt' h

theorem data0_toNat {a b : ℕ} (ha : a < 32) (hb : b < 32) : (data0 a b).toNat = a * 8 + b / 4 := by
  have hor : a <<< 3 ||| b >>> 2 = a * 8 + b / 4 := by
    rw [Nat.shiftRight_eq_div_pow, shiftLeft_or a (by omega)]
    norm_num
  rw [data0, hor, toUInt8_toNat_of_lt (by omega)]

theorem data1_toNat {b c d : ℕ} (hc : c < 32) (hd : d < 32) :
    (data1 b c d).toNat = b % 4 * 64 + c * 2 + d / 16 := by
  have hmask : b &&& 3 = b % 4 := Nat.and_two_pow_sub_one_eq_mod b 2
  have hhigh : (b % 4) <<< 6 ||| c <<< 1 = (b % 4 * 32 + c) <<< 1 := by
    rw [Nat.shiftLeft_eq c, shiftLeft_or (b % 4) (by omega), Nat.shiftLeft_eq]
    ring
  have hor : (b &&& 3) <<< 6 ||| c <<< 1 ||| d >>> 4 = b % 4 * 64 + c * 2 + d / 16 := by
    rw [hmask, hhigh, Nat.shiftRight_eq_div_pow, shiftLeft_or _ (by omega)]
    ring
  rw [data1, hor, toUInt8_toNat_of_lt (by omega)]

theorem data2_toNat {d e : ℕ} (he : e < 32) : (data2 d e).toNat = d % 16 * 16 + e / 2 := by
  have hmask : d &&& 0xF = d % 16 := Nat.and_two_pow_sub_one_eq_mod d 4
  have hor : (d &&& 0xF) <<< 4 ||| e >>> 1 = d % 16 * 16 + e / 2 := by
    rw [hmask, Nat.shiftRight_eq_div_pow, shiftLeft_or _ (by omega)]
    norm_num
  rw [data2, hor, toUInt8_toNat_of_lt (by omega)]

theorem data3_toNat {e f g : ℕ} (hf : f < 32) (hg : g < 32) :
    (data3 e f g).toNat = e % 2 * 128 + f * 4 + g / 8 := by
  have hmask : e &&& 1 = e % 2 := Nat.and_two_pow_sub_one_eq_mod e 1
  have hhigh : (e % 2) <<< 7 ||| f <<< 2 = (e % 2 * 32 + f) <<< 2 := by
    rw [Nat.shiftLeft_eq f, shiftLeft_or (e % 2) (by omega), Nat.shiftLeft_eq]
    ring
  have hor : (e &&& 1) <<< 7 ||| f <<< 2 ||| g >>> 3 = e % 2 * 128 + f * 4 + g / 8 := by
    rw [hmask, hhigh, Nat.shiftRight_eq_div_pow, shiftLeft_or _ (by omega)]
    ring
  rw [data3, hor, toUInt8_toNat_of_lt (by omega)]

theorem data4_toNat {g h : ℕ} (hh : h < 32) : (data4 g h).toNat = g % 8 * 32 + h := by
  have hmask : g &&& 7 = g % 8 := Nat.and_two_pow_sub_one_eq_mod g 3
  have hor : (g &&& 7) <<< 5 ||| h = g % 8 * 32 + h := by
    rw [hmask, shiftLeft_or _ (by omega)]
    norm_num
  rw [data4, hor, toUInt8_toNat_of_lt (by omega)]

/-- **What the decoder makes of digits**: their number without the bits that do
not fill a byte.  By recursion over the groups. -/
theorem decodeLoop_spec : ∀ (vs : List ℕ), (∀ v ∈ vs, v < 32) → ∀ x,
    tailBytes (vs.length % 8) = some x →
      ∃ out, decodeLoop (vs.map base32hex) = .ok out ∧ out.length = vs.length / 8 * 5 + x ∧
        8 * out.length ≤ 5 * vs.length ∧
        beNat out = digitsNat vs / 2 ^ (5 * vs.length - 8 * out.length)
  | [], _, x, hx => by
    obtain rfl : 0 = x := by simpa [tailBytes] using hx
    exact ⟨[], rfl, rfl, le_refl _, rfl⟩
  | [_], _, x, hx => by simp [tailBytes] at hx
  | [a, b], hv, x, hx => by
    obtain rfl : 1 = x := by simpa [tailBytes] using hx
    simp only [List.forall_mem_cons] at hv
    obtain ⟨ha, hb, -⟩ := hv
    refine ⟨[data0 a b], ?_, by simp, by simp, ?_⟩
    · simp [decodeLoop, hex32ToInt_base32hex, ha, hb, pure, bind, Except.pure, Except.bind]
    · simp [beNat, digitsNat, data0_toNat ha hb]
      omega
  | [_, _, _], _, x, hx => by simp [tailBytes] at hx
  | [a, b, c, d], hv, x, hx => by
    obtain rfl : 2 = x := by simpa [tailBytes] using hx
    simp only [List.forall_mem_cons] at hv
    obtain ⟨ha, hb, hc, hd, -⟩ := hv
    refine ⟨[data0 a b, data1 b c d], ?_, by simp, by simp, ?_⟩
    · simp [decodeLoop, hex32ToInt_base32hex, ha, hb, hc, hd, pure, bind, Except.pure, Except.bind]
    · simp [beNat, digitsNat, data0_toNat ha hb, data1_toNat hc hd]
      omega
  | [a, b, c, d, e], hv, x, hx => by
    obtain rfl : 3 = x := by simpa [tailBytes] using hx
    simp only [List.forall_mem_cons] at hv
    obtain ⟨ha, hb, hc, hd, he, -⟩ := hv
    refine ⟨[data0 a b, data1 b c d, data2 d e], ?_, by simp, by simp, ?_⟩
    · simp [decodeLoop, hex32ToInt_base32hex, ha, hb, hc, hd, he, pure, bind, Except.pure,
        Except.bind]
    · simp [beNat, digitsNat, data0_toNat ha hb, data1_toNat hc hd, data2_toNat he]
      omega
  | [_, _, _, _, _, _], _, x, hx => by simp [tailBytes] at hx
  | [a, b, c, d, e, f, g], hv, x, hx => by
    obtain rfl : 4 = x := by simpa [tailBytes] using hx
    simp only [List.forall_mem_cons] at hv
    obtain ⟨ha, hb, hc, hd, he, hf, hg, -⟩ := hv
    refine ⟨[data0 a b, data1 b c d, data2 d e, data3 e f g], ?_, by simp, by simp, ?_⟩
    · simp [decodeLoop, hex32ToInt_base32hex, ha, hb, hc, hd, he, hf, hg, pure, bind, Except.pure,
        Except.bind]
    · simp [beNat, digitsNat, data0_toNat ha hb, data1_toNat hc hd, data2_toNat he, data3_toNat hf hg]
      omega
  | a :: b :: c :: d :: e :: f :: g :: h :: vs, hv, x, hx => by
    have hlen : (a :: b :: c :: d :: e :: f :: g :: h :: vs).length = vs.length + 8 := rfl
    rw [hlen, Nat.add_mod_right] at hx
    simp only [List.forall_mem_cons] at hv
    obtain ⟨ha, hb, hc, hd, he, hf, hg, hh, hvs⟩ := hv
    obtain ⟨out, hout, hol, hle, hnum⟩ := decodeLoop_spec vs hvs x hx
    have hgroup : beNat [data0 a b, data1 b c d, data2 d e, data3 e f g, data4 g h] =
        digitsNat [a, b, c, d, e, f, g, h] := by
      simp [beNat, digitsNat, data0_toNat ha hb, data1_toNat hc hd, data2_toNat he,
        data3_toNat hf hg, data4_toNat hh]
      omega
    refine ⟨[data0 a b, data1 b c d, data2 d e, data3 e f g, data4 g h] ++ out, ?_, ?_, ?_, ?_⟩
    · simp [decodeLoop, hex32ToInt_base32hex, ha, hb, hc, hd, he, hf, hg, hh, hout, pure, bind,
        Except.pure, Except.bind]
    · rw [hlen, List.length_append, hol]
      simp
      omega
    · rw [hlen, List.length_append]
      simp
      omega
    · have hexp : 5 * (vs.length + 8) - 8 * ([data0 a b, data1 b c d, data2 d e, data3 e f g,
          data4 g h] ++ out).length = 5 * vs.length - 8 * out.length := by
        rw [List.length_append]
        simp
        omega
      -- the group stands above the bits that are dropped
      have hpow : (32 : ℕ) ^ vs.length = 2 ^ (5 * vs.length - 8 * out.length) * 256 ^ out.length := by
        rw [show (32 : ℕ) = 2 ^ 5 by norm_num, show (256 : ℕ) = 2 ^ 8 by norm_num, ← pow_mul,
          ← pow_mul, ← pow_add]
        congr 1
        omega
      rw [hlen, hexp, beNat_concat, hgroup, hnum,
        show a :: b :: c :: d :: e :: f :: g :: h :: vs = [a, b, c, d, e, f, g, h] ++ vs from rfl,
        digitsNat_append, hpow, Nat.mul_left_comm, Nat.mul_add_div (by positivity)]

/-! ### The round trip -/

/-- The bytes that the decoder finds in the characters of `n` bytes are `n`. -/
theorem tailBytes_encoded (n : ℕ) : ∃ x, tailBytes ((8 * n + 4) / 5 % 8) = some x ∧
    (8 * n + 4) / 5 / 8 * 5 + x = n := by
  obtain ⟨q, r, hr, rfl⟩ : ∃ q r, r < 5 ∧ n = 5 * q + r :=
    ⟨n / 5, n % 5, Nat.mod_lt _ (by norm_num), by omega⟩
  have hlen : (8 * (5 * q + r) + 4) / 5 = 8 * q + (8 * r + 4) / 5 := by omega
  rw [hlen]
  interval_cases r
  · exact ⟨0, by rw [show (8 * q + 4 / 5) % 8 = 0 by omega]; rfl, by omega⟩
  · exact ⟨1, by rw [show (8 * q + 12 / 5) % 8 = 2 by omega]; rfl, by omega⟩
  · exact ⟨2, by rw [show (8 * q + 20 / 5) % 8 = 4 by omega]; rfl, by omega⟩
  · exact ⟨3, by rw [show (8 * q + 28 / 5) % 8 = 5 by omega]; rfl, by omega⟩
  · exact ⟨4, by rw [show (8 * q + 36 / 5) % 8 = 7 by omega]; rfl, by omega⟩

/-- The decoder inverts the encoder, if it has room. -/
theorem base32decode_encoded {data s : Bytes} (hlen : s.length = (8 * data.length + 4) / 5)
    (halpha : InAlphabet s)
    (hdigits : digits s = beNat data * 2 ^ (5 * s.length - 8 * data.length)) (outLen : ℕ) :
    base32decode s outLen = if data.length ≤ outLen then .ok data else .error decOverflow := by
  obtain ⟨vs, rfl, hvs⟩ := halpha
  obtain ⟨x, hx, hcount⟩ := tailBytes_encoded data.length
  rw [List.length_map] at hlen hdigits
  rw [← hlen] at hx hcount
  obtain ⟨out, hout, hol, -, hnum⟩ := decodeLoop_spec vs hvs x hx
  rw [digits_map hvs] at hdigits
  have hsame : out = data := by
    refine beNat_injective (by omega) ?_
    rw [hnum, hdigits, hol, hcount, Nat.mul_div_cancel _ (by positivity)]
  rw [base32decode, List.length_map, hx]
  simp only [hcount]
  by_cases hroom : data.length ≤ outLen
  · rw [if_neg (by omega), if_pos hroom, hout, hsame]
  · rw [if_pos (by omega), if_neg hroom]

/-- **The round trip, with the exact sizes of the buffers.**  The encoder throws
exactly when the string and its NUL do not fit; the decoder gives the data back
exactly when they fit.  So every object id has a name, and different ids have
different paths. -/
theorem base32_roundTrip :
    (∀ (data : Bytes) (m : ℕ), match base32encodeBuffer data m with
      | .error e => e = encOverflow ∧ m < (8 * data.length + 4) / 5 + 1
      | .ok buffer => (8 * data.length + 4) / 5 + 1 ≤ m ∧ ∃ s, buffer = s ++ [0] ∧
          s.length = (8 * data.length + 4) / 5 ∧
          (∀ c ∈ s, c ∈ ascii "abcdefghijklmnopqrstuvwxyz234567") ∧
          ∀ k, base32decode s k =
            if data.length ≤ k then .ok data else .error decOverflow) ∧
      (∀ objectId, objectIdToString objectId = .ok (objectName objectId)) ∧
      Function.Injective fun objectId => ascii "/data/" ++ objectName objectId := by
  refine ⟨?_, objectIdToString_ok, ?_⟩
  · intro data m
    rw [base32encodeBuffer]
    rcases base32encode_cases data m with ⟨hle, herr⟩ | ⟨hlt, s, hs, hlen, halpha, hdigits⟩
    · rw [herr]
      exact ⟨rfl, by omega⟩
    · rw [hs]
      refine ⟨by omega, s, rfl, hlen, ?_, base32decode_encoded hlen halpha hdigits⟩
      obtain ⟨vs, rfl, hvs⟩ := halpha
      intro c hc
      obtain ⟨v, hv, rfl⟩ := List.mem_map.mp hc
      have hmem : ∀ i : Fin 32, base32hex i ∈ ascii "abcdefghijklmnopqrstuvwxyz234567" := by decide
      exact hmem ⟨v, hvs v hv⟩
  · intro a b h
    exact objectName_injective (List.append_cancel_left h)

end Nebula
