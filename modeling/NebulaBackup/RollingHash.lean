/-
`RollingHash`: the hash over the last bytes that decides where files are cut.

The substitution table is the ciphertext of 1024 bytes `0x33` under the key;
`roll` takes the oldest byte of the window out of the hash and the new one in,
modulo 2⁶⁴.  `roll_rep`: what it returns is the Horner value of the last bytes
that were rolled, whatever was rolled before; `hash_eq_sum` is the same for a
whole sequence of bytes, as a sum over the window.
-/
import NebulaBackup.Crypto
import NebulaBackup.RingWindow

namespace Nebula

/-- `RollingHash`; `mConstant` is 33 and `mKey` is only used to make the
table. -/
structure RollingHash where
  mHash : UInt64
  mConstantPowWinSize : UInt64
  mWindowSize : ℕ
  mIndex : ℕ
  mWindow : List UInt8
  mSubTable : List UInt32

namespace RollingHash

/-- `mConstant`. -/
def mConstant : UInt64 := 33

/-- The power loop of the constructor; every round halves `u`. -/
def powLoop : ℕ → ℕ → UInt64 → UInt64 → UInt64
  | 0, _, _, acc => acc
  | k + 1, u, base, acc =>
    if 0 < u then powLoop k (u / 2) (base * base) (if u % 2 = 1 then base * acc else acc) else acc

/-- `mSubTable[i]`: four bytes of the ciphertext, most significant first. -/
def subEntry (block : Bytes) (i : ℕ) : UInt32 :=
  ((block.getD (4 * i) 0).toUInt32 <<< 24) ||| ((block.getD (4 * i + 1) 0).toUInt32 <<< 16) |||
    ((block.getD (4 * i + 2) 0).toUInt32 <<< 8) ||| (block.getD (4 * i + 3) 0).toUInt32

/-- The substitution table for a key. -/
def subTable (C : Crypto) (key : Bytes) : List UInt32 :=
  (List.range 256).map
    (subEntry (Cbc.encrypt (C.cipher key) (List.replicate EVP_MAX_IV_LENGTH 0xAA)
      (List.replicate (256 * 4) 0x33)))

/-- The hash of a window of zeros. -/
def initialHash (table : List UInt32) : ℕ → UInt64
  | 0 => 0
  | n + 1 => initialHash table n * mConstant + (table.getD 0 0).toUInt64

/-- The constructor. -/
def new (C : Crypto) (key : Bytes) (windowSize : ℕ) : RollingHash where
  mHash := initialHash (subTable C key) windowSize
  mConstantPowWinSize := powLoop windowSize windowSize mConstant 1
  mWindowSize := windowSize
  mIndex := windowSize - 1
  mWindow := List.replicate windowSize 0
  mSubTable := subTable C key

/-- `RollingHash::roll`: the new hash and the state it leaves. -/
def roll (h : RollingHash) (c : UInt8) : UInt64 × RollingHash :=
  let index := (h.mIndex + 1) % h.mWindowSize
  let sub := h.mConstantPowWinSize *
    (h.mSubTable.getD (h.mWindow.getD index 0).toNat 0).toUInt64
  let hash := h.mHash * mConstant + (h.mSubTable.getD c.toNat 0).toUInt64 - sub
  (hash, { h with mHash := hash, mIndex := index, mWindow := h.mWindow.set index c })

/-! ### What the hash is of -/

open RingWindow

/-- What a byte counts in the hash. -/
def weight (table : List UInt32) (c : UInt8) : UInt64 := (table.getD c.toNat 0).toUInt64

/-- The hash of a window. -/
def windowHash (table : List UInt32) (w : Bytes) : UInt64 :=
  w.foldl (fun h c => h * mConstant + weight table c) 0

open scoped UInt64.CommRing in
theorem windowHash_slide (table : List UInt32) (a : UInt8) (w : Bytes) (c : UInt8) :
    windowHash table (w ++ [c]) = windowHash table (a :: w) * mConstant + weight table c -
      mConstant ^ (w.length + 1) * weight table a :=
  horner_slide mConstant (weight table) a w c

open scoped UInt64.CommRing in
/-- The loop computes a power. -/
theorem powLoop_eq : ∀ {k u : ℕ} (base acc : UInt64), u ≤ k → powLoop k u base acc = base ^ u * acc := by
  intro k
  induction k with
  | zero =>
    intro u base acc hu
    obtain rfl := Nat.le_zero.mp hu
    rw [powLoop, pow_zero, one_mul]
  | succ k ih =>
    intro u base acc hu
    rw [powLoop]
    by_cases hpos : 0 < u
    · rw [if_pos hpos, ih _ _ (by omega)]
      rcases Nat.mod_two_eq_zero_or_one u with heven | hodd
      · have hu2 : base ^ u = base ^ (2 * (u / 2)) := by
          congr 1
          omega
        rw [if_neg (by omega), hu2, pow_mul, pow_two]
      · have hu2 : base ^ u = base ^ (2 * (u / 2) + 1) := by
          congr 1
          omega
        rw [if_pos hodd, hu2, pow_succ, pow_mul, pow_two, mul_assoc]
    · obtain rfl : u = 0 := by omega
      rw [if_neg hpos, pow_zero, one_mul]

theorem initialHash_eq (table : List UInt32) (n : ℕ) :
    initialHash table n = windowHash table (List.replicate n 0) := by
  induction n with
  | zero => rfl
  | succ n ih =>
    rw [initialHash, ih, List.replicate_succ', windowHash, windowHash, List.foldl_append]
    rfl

/-- The state that has the window `w`, the oldest byte first. -/
structure Rep (table : List UInt32) (w : Bytes) (h : RollingHash) : Prop where
  table_eq : h.mSubTable = table
  size : h.mWindowSize = h.mWindow.length
  index : h.mIndex < h.mWindow.length
  window : ring h.mWindow h.mIndex = w
  power : h.mConstantPowWinSize = mConstant ^ h.mWindow.length
  hash : h.mHash = windowHash table w

/-- **One byte.**  The oldest byte leaves the window. -/
theorem roll_rep {table : List UInt32} {w : Bytes} {h : RollingHash} (hrep : Rep table w h)
    (c : UInt8) :
    ∃ h', h.roll c = (windowHash table (w.tail ++ [c]), h') ∧ Rep table (w.tail ++ [c]) h' := by
  obtain ⟨rfl, hsize, hindex, rfl, hpower, hhash⟩ := hrep
  have hcons := ring_eq_cons hindex 0
  have hlen : (ring h.mWindow h.mIndex).tail.length + 1 = h.mWindow.length := by
    rw [List.length_tail, ring_length]
    omega
  -- the byte that is overwritten is the oldest of the window
  have hvalue : h.mHash * mConstant + weight h.mSubTable c - h.mConstantPowWinSize *
      weight h.mSubTable (h.mWindow.getD ((h.mIndex + 1) % h.mWindow.length) 0) =
      windowHash h.mSubTable ((ring h.mWindow h.mIndex).tail ++ [c]) := by
    rw [windowHash_slide _ (h.mWindow.getD ((h.mIndex + 1) % h.mWindow.length) 0), hhash, hpower, hlen]
    nth_rewrite 1 [hcons]
    rw [hcons, List.tail_cons]
  refine ⟨_, Prod.ext ?_ rfl, rfl, ?_, ?_, ?_, ?_, ?_⟩
  · rw [← hvalue, ← hsize]
    rfl
  · show h.mWindowSize = (h.mWindow.set _ c).length
    rw [List.length_set, hsize]
  · show (h.mIndex + 1) % h.mWindowSize < (h.mWindow.set _ c).length
    rw [List.length_set, hsize]
    exact Nat.mod_lt _ (by omega)
  · show ring (h.mWindow.set ((h.mIndex + 1) % h.mWindowSize) c) ((h.mIndex + 1) % h.mWindowSize) = _
    rw [hsize]
    exact ring_set hindex c
  · show h.mConstantPowWinSize = mConstant ^ (h.mWindow.set _ c).length
    rw [List.length_set, hpower]
  · rw [← hvalue, ← hsize]
    rfl

open scoped UInt64.CommRing in
/-- The window of a new hash is zero. -/
theorem new_rep (C : Crypto) (key : Bytes) {n : ℕ} (hn : 0 < n) :
    Rep (subTable C key) (List.replicate n 0) (new C key n) where
  table_eq := rfl
  size := List.length_replicate.symm
  index := by
    show n - 1 < (List.replicate n (0 : UInt8)).length
    rw [List.length_replicate]
    omega
  window := by
    show ring (List.replicate n 0) (n - 1) = _
    rw [ring, Nat.sub_add_cancel hn, List.drop_replicate, List.take_replicate, Nat.sub_self, min_self]
    rfl
  power := by
    show powLoop n n mConstant 1 = mConstant ^ (List.replicate n (0 : UInt8)).length
    rw [powLoop_eq _ _ (le_refl n), mul_one, List.length_replicate]
  hash := initialHash_eq _ n

/-! ### Any sequence of bytes -/

/-- `hash()`. -/
def hash (h : RollingHash) : UInt64 := h.mHash

/-- The state after a sequence of bytes. -/
def rollAll (h : RollingHash) (bytes : Bytes) : RollingHash :=
  bytes.foldl (fun h c => (h.roll c).2) h

/-- The window after a sequence of bytes: the last ones of all. -/
theorem rollAll_rep {table : List UInt32} : ∀ (bytes : Bytes) {w : Bytes} {h : RollingHash},
    Rep table w h → Rep table ((w ++ bytes).drop bytes.length) (h.rollAll bytes) := by
  intro bytes
  induction bytes with
  | nil =>
    intro w h hrep
    simpa [rollAll] using hrep
  | cons c bytes ih =>
    intro w h hrep
    have hne : w ≠ [] := by
      rintro rfl
      have hlen := congrArg List.length hrep.window
      rw [ring_length, List.length_nil] at hlen
      have hindex := hrep.index
      omega
    obtain ⟨h', hroll, hrep'⟩ := roll_rep hrep c
    obtain ⟨a, w, rfl⟩ := List.exists_cons_of_ne_nil hne
    have hall : h.rollAll (c :: bytes) = h'.rollAll bytes := by
      rw [rollAll, List.foldl_cons, hroll]
      rfl
    rw [hall]
    simpa using ih hrep'

/-- A Horner value written out, the newest byte first. -/
theorem windowHash_toNat (table : List UInt32) (w : Bytes) :
    (windowHash table w).toNat =
      (∑ k ∈ Finset.range w.length, 33 ^ k * (weight table (w.reverse.getD k 0)).toNat) % 2 ^ 64 := by
  induction w using List.reverseRecOn with
  | nil => rfl
  | append_singleton w c ih =>
    have hstep : windowHash table (w ++ [c]) = windowHash table w * mConstant + weight table c := by
      rw [windowHash, List.foldl_append]
      rfl
    have hshift : ∀ k, 33 ^ (k + 1) * (weight table ((c :: w.reverse).getD (k + 1) 0)).toNat =
        33 ^ k * (weight table (w.reverse.getD k 0)).toNat * 33 := by
      intro k
      rw [List.getD_cons_succ]
      ring
    have hconst : mConstant.toNat = 33 := rfl
    rw [hstep, UInt64.toNat_add, UInt64.toNat_mul, ih, hconst, List.length_append,
      List.length_singleton, Finset.sum_range_succ', List.reverse_append, List.reverse_singleton,
      List.singleton_append, List.getD_cons_zero, pow_zero, one_mul]
    simp only [hshift]
    rw [← Finset.sum_mul]
    omega

/-- The last `w` of a sequence of bytes, with zeros in front of the first one. -/
def lastBytes (w : ℕ) (bytes : Bytes) : Bytes := (List.replicate w 0 ++ bytes).drop bytes.length

@[simp] theorem lastBytes_length (w : ℕ) (bytes : Bytes) : (lastBytes w bytes).length = w := by
  rw [lastBytes, List.length_drop, List.length_append, List.length_replicate, Nat.add_sub_cancel]

/-- The bytes of the window, the newest first: those rolled last, then zeros. -/
theorem lastBytes_getD (bytes : Bytes) {w k : ℕ} (hk : k < w) :
    (lastBytes w bytes).reverse.getD k 0 = bytes.reverse.getD k 0 := by
  have hlen : (List.replicate w (0 : UInt8) ++ bytes).length - bytes.length = w := by
    rw [List.length_append, List.length_replicate, Nat.add_sub_cancel]
  rw [lastBytes, List.reverse_drop, hlen, List.reverse_append, List.reverse_replicate]
  simp only [List.getD_eq_getElem?_getD, List.getElem?_take_of_lt hk]
  by_cases hrolled : k < bytes.reverse.length
  · rw [List.getElem?_append_left hrolled]
  · rw [List.getElem?_append_right (by omega), List.getElem?_eq_none (l := bytes.reverse) (by omega),
      List.getElem?_replicate]
    split <;> rfl

/-- **The rolling hash is the hash of the window.**  After any bytes, `hash()`
is the sum over the last `w` of them, with zeros in front of the first one, and
what was rolled before these does not matter. -/
theorem hash_eq_sum (C : Crypto) (key : Bytes) (w : ℕ+) (bytes : Bytes) :
    ((new C key w).rollAll bytes).hash.toNat =
        (∑ k ∈ Finset.range w,
          33 ^ k * ((subTable C key).getD (bytes.reverse.getD k 0).toNat 0).toNat) % 2 ^ 64 ∧
      (new C key w).mConstantPowWinSize.toNat = 33 ^ (w : ℕ) % 2 ^ 64 ∧
      ((new C key w).rollAll bytes).hash = ((new C key w).rollAll (lastBytes w bytes)).hash := by
  have hsum : ∀ bytes : Bytes, ((new C key w).rollAll bytes).hash.toNat =
      (∑ k ∈ Finset.range w,
        33 ^ k * ((subTable C key).getD (bytes.reverse.getD k 0).toNat 0).toNat) % 2 ^ 64 := by
    intro bytes
    have hrep := rollAll_rep bytes (new_rep C key w.pos)
    rw [hash, hrep.hash, windowHash_toNat, ← lastBytes, lastBytes_length]
    congr 1
    refine Finset.sum_congr rfl fun k hk => ?_
    rw [lastBytes_getD bytes (Finset.mem_range.mp hk), weight, UInt32.toNat_toUInt64]
  refine ⟨hsum bytes, ?_, ?_⟩
  · have hpower := (new_rep C key w.pos).power
    have hlen : (new C key w).mWindow.length = w := List.length_replicate
    rw [hpower, hlen, ← UInt64.toNat_toBitVec, UInt64.toBitVec_pow, BitVec.toNat_pow]
    rfl
  · -- the sums look at the same bytes
    apply UInt64.toNat_inj.mp
    rw [hsum, hsum]
    congr 1
    refine Finset.sum_congr rfl fun k hk => ?_
    rw [lastBytes_getD bytes (Finset.mem_range.mp hk)]

end RollingHash

end Nebula
