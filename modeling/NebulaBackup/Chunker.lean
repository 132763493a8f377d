/-
How large files are cut into blocks.

A block ends when it has reached the minimal size and either the rolling hash
has its low bits zero or the maximal size is reached; `uploadFile` computes
the sizes and the number of bits from the length of the file and the options
(`chunkParams`).  `cutBlocks` is the cut as a function of the bytes:

* `cutBlocks_flatten` — the blocks are the file, in order;
* `cutBlocks_ne_nil` — no block is empty;
* `cutBlocks_count` — a file that is not longer than `65535` minimal blocks is
  cut into at most `65535` of them.
-/
import NebulaBackup.Session

namespace Nebula

/-- The conversion of an `int` to `size_t`. -/
def toSizeT (n : ℤ) : ℕ := (n % 2 ^ 64).toNat

/-- The sizes by which one file is cut. -/
structure ChunkParams where
  rollingHashBits : ℕ
  hashMask : UInt64
  minBlockSize : ℕ
  maxBlockSize : ℕ

/-- `rollingHashBits`, after it was brought into the range of the options. -/
def clampedHashBits (E : Env) (fileLength : ℕ) : ℤ :=
  min (max (E.ceilLog2 (fileLength / toSizeT E.options.blockSplitCount))
    E.options.minRollingHashBits) E.options.maxRollingHashBits

/-- `minBlockSize`; the quotient is converted to `int`. -/
def minBlockSizeOf (fileLength : ℕ) : ℕ :=
  (max 4096 (Int.bmod ((fileLength + 65534) % 2 ^ 64 / 65535 : ℕ) (2 ^ 32))).toNat

/-- The sizes for a file.  A division by zero, a shift that `int` does not
have and a `reserve` of a negative size do not go on. -/
def chunkParams (E : Env) (fileLength : ℕ) : Except Fault ChunkParams :=
  if toSizeT E.options.blockSplitCount = 0 then .error .undefined
  else if clampedHashBits E fileLength < 0 ∨ 29 < clampedHashBits E fileLength ∨
      E.options.maxBlockSize < 0 then .error .undefined
  else .ok {
    rollingHashBits := (clampedHashBits E fileLength).toNat
    hashMask := .ofNat (2 ^ (clampedHashBits E fileLength).toNat - 1)
    minBlockSize := minBlockSizeOf fileLength
    maxBlockSize := E.options.maxBlockSize.toNat }

/-- The block that is being collected and the rolling hash. -/
structure Chunker where
  blockBuffer : Bytes
  rh : RollingHash

namespace Chunker

/-- The next byte: whether the block ends with it.  The hash only sees the
bytes from the minimal size on. -/
def push (p : ChunkParams) (c : Chunker) (b : UInt8) : Bool × Chunker :=
  if p.minBlockSize ≤ (c.blockBuffer ++ [b]).length then
    match c.rh.roll b with
    | (h, rh) =>
      (decide (h &&& p.hashMask = 0 ∨ p.maxBlockSize ≤ (c.blockBuffer ++ [b]).length),
        ⟨c.blockBuffer ++ [b], rh⟩)
  else (false, ⟨c.blockBuffer ++ [b], c.rh⟩)

/-- After a block was uploaded. -/
def clear (c : Chunker) : Chunker := { c with blockBuffer := [] }

end Chunker

/-- The blocks of the bytes to come; what is left at the end is a block
too. -/
def cutBlocks (p : ChunkParams) : Chunker → Bytes → List Bytes
  | c, [] => if c.blockBuffer = [] then [] else [c.blockBuffer]
  | c, b :: rest =>
    match c.push p b with
    | (true, c') => c'.blockBuffer :: cutBlocks p c'.clear rest
    | (false, c') => cutBlocks p c' rest

/-! ### The cut -/

section Cut

variable {p : ChunkParams}

/-- The byte goes to the end of the block, and a block that ends is not
shorter than the minimal size. -/
theorem Chunker.push_spec (p : ChunkParams) (c : Chunker) (b : UInt8) :
    ∃ cut rh, c.push p b = (cut, ⟨c.blockBuffer ++ [b], rh⟩) ∧
      (cut = true → p.minBlockSize ≤ (c.blockBuffer ++ [b]).length) := by
  rw [push]
  by_cases hmin : p.minBlockSize ≤ (c.blockBuffer ++ [b]).length
  · rw [if_pos hmin]
    exact ⟨_, _, rfl, fun _ => hmin⟩
  · rw [if_neg hmin]
    exact ⟨false, c.rh, rfl, fun hc => absurd hc (by simp)⟩

/-- **Nothing is lost or reordered.** -/
theorem cutBlocks_flatten : ∀ (data : Bytes) (c : Chunker),
    (cutBlocks p c data).flatten = c.blockBuffer ++ data := by
  intro data
  induction data with
  | nil =>
    intro c
    rw [cutBlocks]
    by_cases hc : c.blockBuffer = []
    · rw [if_pos hc, hc]
      rfl
    · rw [if_neg hc, List.flatten_singleton, List.append_nil]
  | cons b rest ih =>
    intro c
    obtain ⟨cut, rh, hpush, -⟩ := c.push_spec p b
    rw [cutBlocks, hpush]
    cases cut with
    | true =>
      show (c.blockBuffer ++ [b]) ++ (cutBlocks p (Chunker.clear _) rest).flatten = _
      rw [ih, Chunker.clear, List.nil_append, List.append_assoc]
      rfl
    | false =>
      show (cutBlocks p ⟨c.blockBuffer ++ [b], rh⟩ rest).flatten = _
      rw [ih, List.append_assoc]
      rfl

/-- No block is empty. -/
theorem cutBlocks_ne_nil : ∀ (data : Bytes) (c : Chunker), ∀ block ∈ cutBlocks p c data,
    block ≠ [] := by
  intro data
  induction data with
  | nil =>
    intro c block hblock
    rw [cutBlocks] at hblock
    by_cases hc : c.blockBuffer = []
    · rw [if_pos hc] at hblock
      exact absurd hblock List.not_mem_nil
    · rw [if_neg hc, List.mem_singleton] at hblock
      rwa [hblock]
  | cons b rest ih =>
    intro c block hblock
    obtain ⟨cut, rh, hpush, -⟩ := c.push_spec p b
    rw [cutBlocks, hpush] at hblock
    cases cut with
    | true =>
      rcases List.mem_cons.mp hblock with rfl | hblock
      · simp
      · exact ih _ block hblock
    | false => exact ih _ block hblock

/-- Every block but the last has the minimal size. -/
theorem cutBlocks_length : ∀ (data : Bytes) (c : Chunker), 0 < p.minBlockSize →
    (cutBlocks p c data).length * p.minBlockSize ≤
      c.blockBuffer.length + data.length + (p.minBlockSize - 1) := by
  intro data
  induction data with
  | nil =>
    intro c hpos
    rw [cutBlocks]
    by_cases hc : c.blockBuffer = []
    · rw [if_pos hc, List.length_nil, Nat.zero_mul]
      exact Nat.zero_le _
    · have hlen := List.length_pos_iff.mpr hc
      rw [if_neg hc, List.length_singleton, List.length_nil]
      omega
  | cons b rest ih =>
    intro c hpos
    obtain ⟨cut, rh, hpush, hmin⟩ := c.push_spec p b
    rw [cutBlocks, hpush]
    cases cut with
    | true =>
      -- the finished block pays for itself
      have hrest := ih (Chunker.clear ⟨c.blockBuffer ++ [b], rh⟩) hpos
      have hblock := hmin rfl
      rw [Chunker.clear, List.length_nil] at hrest
      rw [List.length_append, List.length_singleton] at hblock
      show ((c.blockBuffer ++ [b]) :: _).length * _ ≤ _
      rw [List.length_cons, List.length_cons, Nat.succ_mul]
      show (cutBlocks p (Chunker.clear ⟨c.blockBuffer ++ [b], rh⟩) rest).length * _ + _ ≤ _
      rw [Chunker.clear]
      omega
    | false =>
      have hrest := ih ⟨c.blockBuffer ++ [b], rh⟩ hpos
      rw [List.length_append, List.length_singleton] at hrest
      show (cutBlocks p ⟨c.blockBuffer ++ [b], rh⟩ rest).length * _ ≤ _
      rw [List.length_cons]
      omega

/-- **The number of blocks stays below `2¹⁶`** when the minimal size is a
`65535`th of the file. -/
theorem cutBlocks_count {data : Bytes} {c : Chunker} (hc : c.blockBuffer = [])
    (hpos : 0 < p.minBlockSize) (hlen : data.length ≤ 65535 * p.minBlockSize) :
    (cutBlocks p c data).length ≤ 65535 := by
  have hbound := cutBlocks_length (p := p) data c hpos
  rw [hc, List.length_nil] at hbound
  have hlt : (cutBlocks p c data).length * p.minBlockSize < 65536 * p.minBlockSize := by omega
  have := Nat.lt_of_mul_lt_mul_right hlt
  omega

end Cut

/-! ### The sizes -/

/-- The minimal size is at least 4096. -/
theorem minBlockSizeOf_pos (n : ℕ) : 0 < minBlockSizeOf n := by
  have hmax : (4096 : ℤ) ≤ max 4096 (Int.bmod ((n + 65534) % 2 ^ 64 / 65535 : ℕ) (2 ^ 32)) :=
    le_max_left _ _
  show 0 < (max 4096 (Int.bmod ((n + 65534) % 2 ^ 64 / 65535 : ℕ) (2 ^ 32))).toNat
  omega

/-- The minimal size, as long as the quotient fits into an `int`. -/
theorem minBlockSizeOf_eq {n : ℕ} (h : (n + 65534) / 65535 < 2 ^ 31) :
    minBlockSizeOf n = max 4096 ((n + 65534) / 65535) := by
  have hmod : (n + 65534) % 2 ^ 64 = n + 65534 := Nat.mod_eq_of_lt (by omega)
  have hbmod : Int.bmod ((n + 65534) / 65535 : ℕ) (2 ^ 32) = ((n + 65534) / 65535 : ℕ) :=
    Int.bmod_eq_of_le (by omega) (by omega)
  unfold minBlockSizeOf
  rw [hmod, hbmod]
  omega

/-- The options for which every file can be cut. -/
structure Options.Sane (o : Options) : Prop where
  blockSplitCount_pos : 1 ≤ o.blockSplitCount
  blockSplitCount_le : o.blockSplitCount ≤ o.smallFileSize
  smallFileSize_le : o.smallFileSize < 2 ^ 31
  maxBlockSize_pos : 1 ≤ o.maxBlockSize
  minBits_nonneg : 0 ≤ o.minRollingHashBits
  minBits_le : o.minRollingHashBits ≤ o.maxRollingHashBits
  maxBits_le : o.maxRollingHashBits ≤ 29

/-- The defaults are such options. -/
theorem Options.default_sane : Options.default.Sane := by
  constructor <;> decide

theorem chunkParams_ok {E : Env} (h : E.options.Sane) (fileLength : ℕ) :
    ∃ p, chunkParams E fileLength = .ok p ∧ p.minBlockSize = minBlockSizeOf fileLength ∧
      p.rollingHashBits ≤ 29 := by
  have hsplit : toSizeT E.options.blockSplitCount ≠ 0 := by
    have h1 := h.blockSplitCount_pos
    have h2 := h.blockSplitCount_le
    have h3 := h.smallFileSize_le
    rw [toSizeT]
    omega
  have hlow : 0 ≤ clampedHashBits E fileLength := by
    have h1 := h.minBits_nonneg
    have h2 := h.minBits_le
    rw [clampedHashBits]
    omega
  have hhigh : clampedHashBits E fileLength ≤ 29 := by
    have h1 := h.maxBits_le
    rw [clampedHashBits]
    omega
  have hmax := h.maxBlockSize_pos
  rw [chunkParams, if_neg hsplit, if_neg (by omega)]
  refine ⟨_, rfl, by dsimp only, ?_⟩
  show (clampedHashBits E fileLength).toNat ≤ 29
  omega

end Nebula
