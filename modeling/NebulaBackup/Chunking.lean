/-
What the cut of large files guarantees.

* `uploadFile_blocks` — the blocks of a large file are the file, keep their
  bounds and are few enough for an entry;
* `cut_local` — lengths of a block at which the cut at two places of two files
  is the same;
* `cut_not_local` — two places at which it is not.

The rolling hash only sees the bytes of a block from its minimal size on, so
its window is not the end of the file: it is the end of the bytes that were
rolled (`rolled`), over all blocks so far.
-/
import NebulaBackup.UploadSpecs

namespace Nebula

open EStateM.Result Hoare

/-! ### Bounds of the blocks -/

section Bounds

variable {p : ChunkParams}

/-- Where a block does not end it has not reached both sizes. -/
theorem Chunker.push_false {c c' : Chunker} {b : UInt8} (h : c.push p b = (false, c')) :
    c'.blockBuffer.length < max p.minBlockSize p.maxBlockSize := by
  rw [push] at h
  by_cases hmin : p.minBlockSize ≤ (c.blockBuffer ++ [b]).length
  · rw [if_pos hmin] at h
    obtain ⟨hcut, rfl⟩ := Prod.mk.inj h
    have hmax := (not_or.mp (of_decide_eq_false hcut)).2
    exact lt_max_of_lt_right (Nat.lt_of_not_le hmax)
  · rw [if_neg hmin] at h
    obtain ⟨-, rfl⟩ := Prod.mk.inj h
    exact lt_max_of_lt_left (Nat.lt_of_not_le hmin)

/-- No block is longer than the larger of the two sizes. -/
theorem cutBlocks_le : ∀ (data : Bytes) (c : Chunker),
    c.blockBuffer.length < max p.minBlockSize p.maxBlockSize →
    ∀ block ∈ cutBlocks p c data, block.length ≤ max p.minBlockSize p.maxBlockSize := by
  intro data
  induction data with
  | nil =>
    intro c hc block hblock
    rw [cutBlocks] at hblock
    split at hblock
    · exact absurd hblock List.not_mem_nil
    · rw [List.mem_singleton.mp hblock]
      exact hc.le
  | cons b rest ih =>
    intro c hc block hblock
    obtain ⟨cut, rh, hpush, -⟩ := c.push_spec p b
    rw [cutBlocks, hpush] at hblock
    cases cut with
    | true =>
      rcases List.mem_cons.mp hblock with rfl | hblock
      · rw [List.length_append, List.length_singleton]
        exact hc
      · exact ih _ (lt_of_le_of_lt (Nat.zero_le _) hc) block hblock
    | false => exact ih _ (Chunker.push_false hpush) block hblock

/-- Every block but the last has the minimal size. -/
theorem le_cutBlocks : ∀ (data : Bytes) (c : Chunker), ∀ block ∈ (cutBlocks p c data).dropLast,
    p.minBlockSize ≤ block.length := by
  intro data
  induction data with
  | nil =>
    intro c block hblock
    rw [cutBlocks] at hblock
    split at hblock
    · exact absurd hblock List.not_mem_nil
    · exact absurd hblock List.not_mem_nil
  | cons b rest ih =>
    intro c block hblock
    obtain ⟨cut, rh, hpush, hmin⟩ := c.push_spec p b
    rw [cutBlocks, hpush] at hblock
    cases cut with
    | true =>
      -- the block that ends here is the last one if nothing comes after it
      by_cases hrest : cutBlocks p (Chunker.clear ⟨c.blockBuffer ++ [b], rh⟩) rest = []
      · simp only [hrest] at hblock
        exact absurd hblock List.not_mem_nil
      · simp only [List.dropLast_cons_of_ne_nil hrest] at hblock
        rcases List.mem_cons.mp hblock with rfl | hblock
        · exact hmin rfl
        · exact ih _ block hblock
    | false => exact ih _ block hblock

end Bounds

section Upload

variable {δ : Type} [DataStore δ] (M : StoreModel δ) {E : Env}

/-- **The blocks of a large file.**  They are the file, none is empty, all but
the last have the minimal size, none is longer than both sizes, and there are
at most 65535 of them, so that the entry is accepted. -/
theorem uploadFile_blocks (hC : E.C.Lawful) {s : Session δ} (hs : M.Ok s.store) (withPack : Bool)
    (destPath : Bytes) {f : LocalFile} (hlarge : ¬ f.isSmall E)
    (hlen : (f.content.length + 65534) / 65535 < 2 ^ 31)
    (hsplit : toSizeT E.options.blockSplitCount ≠ 0) (hmax : 1 ≤ E.options.maxBlockSize)
    (hlow : 0 ≤ clampedHashBits E f.content.length) (hhigh : clampedHashBits E f.content.length ≤ 29)
    {progress : FileTransferProgressFunction} (hprog : ∀ a b i j, progress a b i j = true) :
    ∃ bits blocks d n snapshot, f.blocks E s.keys = .ok (bits, blocks) ∧
      blocks.flatten = f.content ∧ (∀ block ∈ blocks, block ≠ []) ∧
      (∀ block ∈ blocks.dropLast, max 4096 ((f.content.length + 65534) / 65535) ≤ block.length) ∧
      (∀ block ∈ blocks, block.length ≤
        max (max 4096 ((f.content.length + 65534) / 65535)) E.options.maxBlockSize.toNat) ∧
      blocks.length ≤ 65535 ∧
      BlockSteps E.C s.keys (compressionFor f.info) blocks (M.contents s.store) (M.contents d) ∧
      s.snapshot.addFileEntry (f.args E s.keys destPath bits blocks) = .ok snapshot ∧
      uploadFileWith E withPack destPath f.info (.openRead f.content) progress s =
        ok () { s with store := d, randomUsed := n, snapshot := snapshot } := by
  obtain ⟨p, hp, hmin, hmaxp⟩ : ∃ p, chunkParams E f.content.length = .ok p ∧
      p.minBlockSize = minBlockSizeOf f.content.length ∧
      p.maxBlockSize = E.options.maxBlockSize.toNat := by
    rw [chunkParams, if_neg hsplit, if_neg (by omega)]
    exact ⟨_, rfl, by dsimp only, by dsimp only⟩
  rw [minBlockSizeOf_eq hlen] at hmin
  have hblocks : f.blocks E s.keys = .ok (p.rollingHashBits, f.cut E s.keys p) := by
    rw [LocalFile.blocks, if_neg hlarge, hp]
    rfl
  have hpos : 0 < p.minBlockSize := by
    rw [hmin]
    omega
  -- 65535 blocks of the minimal size hold the file
  have hcount : (f.cut E s.keys p).length ≤ 65535 := by
    refine cutBlocks_count rfl hpos ?_
    rw [hmin]
    omega
  obtain ⟨snapshot, hadd⟩ := Snapshot.addFileEntry_ok (s := s.snapshot)
    (a := f.args E s.keys destPath p.rollingHashBits (f.cut E s.keys p))
    (le_of_eq_of_le (List.length_map _) hcount)
  obtain ⟨d, n, -, hsteps, hrun⟩ := uploadFileWith_run M hC hs withPack destPath f (Or.inr hlarge)
    hprog hblocks
  rw [hadd] at hrun
  refine ⟨p.rollingHashBits, f.cut E s.keys p, d, n, snapshot, hblocks,
    LocalFile.blocks_flatten hblocks, cutBlocks_ne_nil _ _, ?_, ?_, hcount, hsteps, hadd, hrun⟩
  · rw [← hmin]
    exact le_cutBlocks _ _
  · rw [← hmin, ← hmaxp]
    refine cutBlocks_le _ _ (lt_of_le_of_lt (Nat.zero_le _) (lt_max_of_lt_left hpos))

end Upload

/-! ### The bytes that are rolled -/

/-- The last `n` elements. -/
def lastBytes (n : ℕ) (data : Bytes) : Bytes := data.drop (data.length - n)

theorem lastBytes_append (n : ℕ) (a b : Bytes) (h : n ≤ b.length) :
    lastBytes n (a ++ b) = lastBytes n b := by
  rw [lastBytes, lastBytes, List.length_append, Nat.add_sub_assoc h, List.drop_append,
    List.drop_eq_nil_of_le (Nat.le_add_right _ _), Nat.add_sub_cancel_left, List.nil_append]

theorem lastBytes_concat {n : ℕ} (data : Bytes) (b : UInt8) (h : n ≤ data.length) :
    lastBytes (n + 1) (data ++ [b]) = lastBytes n data ++ [b] := by
  rw [lastBytes, lastBytes, List.length_append, List.length_singleton,
    List.drop_append_of_le_length (by omega)]
  congr 2
  omega

/-- One more byte slides the window. -/
theorem lastBytes_slide {n : ℕ} (hn : 0 < n) (data : Bytes) (b : UInt8) (h : n ≤ data.length) :
    lastBytes n (data ++ [b]) = (lastBytes n data).tail ++ [b] := by
  obtain ⟨m, rfl⟩ : ∃ m, n = m + 1 := ⟨n - 1, by omega⟩
  rw [lastBytes_concat data b (by omega), lastBytes, lastBytes, List.tail_drop]
  congr 2
  omega

theorem lastBytes_length {n : ℕ} {data : Bytes} (h : n ≤ data.length) :
    (lastBytes n data).length = n := by
  rw [lastBytes, List.length_drop]
  omega

theorem lastBytes_lastBytes {n m : ℕ} {data : Bytes} (hnm : n ≤ m) (hm : m ≤ data.length) :
    lastBytes n (lastBytes m data) = lastBytes n data := by
  rw [lastBytes, lastBytes_length hm, lastBytes, lastBytes, List.drop_drop]
  congr 1
  omega

namespace Chunker

/-- The state of the loop after some bytes. -/
def feed (p : ChunkParams) : Chunker → Bytes → Chunker
  | c, [] => c
  | c, b :: rest =>
    match c.push p b with
    | (true, c') => feed p c'.clear rest
    | (false, c') => feed p c' rest

/-- The bytes that the rolling hash gets: those with which the block has
reached the minimal size. -/
def rolled (p : ChunkParams) : Chunker → Bytes → Bytes
  | _, [] => []
  | c, b :: rest =>
    (if p.minBlockSize ≤ (c.blockBuffer ++ [b]).length then [b] else []) ++ rolled p (c.feed p [b]) rest

/-- Whether the last byte ends a block. -/
def cutAfter (p : ChunkParams) (c : Chunker) (data : Bytes) : Bool :=
  match data.getLast? with
  | none => false
  | some b => ((c.feed p data.dropLast).push p b).1

/-- The length of the current block with the last byte. -/
def blockLength (p : ChunkParams) (c : Chunker) (data : Bytes) : ℕ :=
  (c.feed p data.dropLast).blockBuffer.length + 1

/-- The window of the rolling hash: the last bytes that it got, after as many
zeros. -/
def rolledWindow (p : ChunkParams) (c : Chunker) (data : Bytes) : Bytes :=
  lastBytes 8192 (List.replicate 8192 0 ++ c.rolled p data)

variable {p : ChunkParams}

theorem feed_append : ∀ (data more : Bytes) (c : Chunker),
    c.feed p (data ++ more) = (c.feed p data).feed p more := by
  intro data more
  induction data with
  | nil =>
    intro c
    rfl
  | cons b rest ih =>
    intro c
    rw [List.cons_append, feed, feed]
    split <;> exact ih _

theorem rolled_append : ∀ (data more : Bytes) (c : Chunker),
    c.rolled p (data ++ more) = c.rolled p data ++ (c.feed p data).rolled p more := by
  intro data more
  induction data with
  | nil =>
    intro c
    rfl
  | cons b rest ih =>
    intro c
    rw [List.cons_append, rolled, rolled, ih, List.append_assoc, ← feed_append]
    rfl

theorem cutAfter_concat (c : Chunker) (data : Bytes) (b : UInt8) :
    c.cutAfter p (data ++ [b]) = ((c.feed p data).push p b).1 := by
  rw [cutAfter, List.getLast?_concat, List.dropLast_concat]

theorem blockLength_concat (c : Chunker) (data : Bytes) (b : UInt8) :
    c.blockLength p (data ++ [b]) = (c.feed p data).blockBuffer.length + 1 := by
  rw [blockLength, List.dropLast_concat]

section Window

open RollingHash

variable {table : List UInt32}

/-- **One byte**, for a hash whose window is `w`. -/
theorem push_rep {c : Chunker} {w : Bytes} (hrep : Rep table w c.rh) (b : UInt8) :
    ∃ cut rh, c.push p b = (cut, ⟨c.blockBuffer ++ [b], rh⟩) ∧
      Rep table (if p.minBlockSize ≤ (c.blockBuffer ++ [b]).length then w.tail ++ [b] else w) rh ∧
      (cut = true ↔ p.minBlockSize ≤ (c.blockBuffer ++ [b]).length ∧
        (windowHash table (w.tail ++ [b]) &&& p.hashMask = 0 ∨
          p.maxBlockSize ≤ (c.blockBuffer ++ [b]).length)) := by
  rw [push]
  by_cases hmin : p.minBlockSize ≤ (c.blockBuffer ++ [b]).length
  · obtain ⟨rh, hroll, hrh⟩ := roll_rep hrep b
    rw [if_pos hmin, if_pos hmin, hroll]
    refine ⟨_, rh, rfl, hrh, ?_⟩
    rw [decide_eq_true_iff]
    exact (and_iff_right hmin).symm
  · rw [if_neg hmin, if_neg hmin]
    exact ⟨false, c.rh, rfl, hrep, fun h => absurd h (by simp), fun h => absurd h.1 hmin⟩

/-- **The window of the hash is made of what was rolled**, by induction on the
bytes. -/
theorem feed_rep : ∀ (data : Bytes) {c : Chunker} {w : Bytes}, w.length = 8192 → Rep table w c.rh →
    Rep table (lastBytes 8192 (w ++ c.rolled p data)) (c.feed p data).rh := by
  intro data
  induction data with
  | nil =>
    intro c w hw hrep
    rw [rolled, List.append_nil, lastBytes, hw]
    exact hrep
  | cons b rest ih =>
    intro c w hw hrep
    obtain ⟨cut, rh, hpush, hrh, -⟩ := push_rep (p := p) hrep b
    -- the state after the byte, whether it ends a block or not
    obtain ⟨c', hc', hfeed⟩ : ∃ c' : Chunker, c'.rh = rh ∧ c.feed p [b] = c' := by
      rw [feed, hpush]
      cases cut with
      | true => exact ⟨_, rfl, rfl⟩
      | false => exact ⟨_, rfl, rfl⟩
    rw [← List.singleton_append, feed_append, rolled_append, hfeed, rolled, hfeed, rolled,
      List.append_nil, ← List.append_assoc]
    rw [← hc'] at hrh
    split at hrh
    · -- the byte is rolled: the oldest one leaves the window
      rename_i hmin
      have hlen : (w.tail ++ [b]).length = 8192 := by
        rw [List.length_append, List.length_tail, hw]
        rfl
      have hrest := ih hlen hrh
      obtain ⟨a, w', rfl⟩ := List.exists_cons_of_length_eq_add_one hw
      rw [List.tail_cons, List.append_assoc] at hrest
      have hdrop : lastBytes 8192 ((a :: w') ++ ([b] ++ c'.rolled p rest)) =
          lastBytes 8192 (w' ++ ([b] ++ c'.rolled p rest)) := by
        refine lastBytes_append 8192 [a] (w' ++ ([b] ++ c'.rolled p rest)) ?_
        rw [List.length_cons] at hw
        rw [List.length_append, List.length_append, List.length_singleton]
        omega
      rwa [if_pos hmin, List.append_assoc, hdrop]
    · rename_i hmin
      rw [if_neg hmin, List.append_nil]
      exact ih hw hrh

/-- Two states with the same block and the same window cut alike. -/
theorem cutBlocks_congr : ∀ (data : Bytes) {c c' : Chunker} {w : Bytes},
    c.blockBuffer = c'.blockBuffer → Rep table w c.rh → Rep table w c'.rh →
    cutBlocks p c data = cutBlocks p c' data := by
  intro data
  induction data with
  | nil =>
    intro c c' w hbuf _ _
    rw [cutBlocks, cutBlocks, hbuf]
  | cons b rest ih =>
    intro c c' w hbuf hc hc'
    obtain ⟨cut, rh, hpush, hrh, hcut⟩ := push_rep (p := p) hc b
    obtain ⟨cut', rh', hpush', hrh', hcut'⟩ := push_rep (p := p) hc' b
    obtain rfl : cut = cut' := by
      rw [Bool.eq_iff_iff, hcut, hcut', hbuf]
    rw [← hbuf] at hrh'
    rw [cutBlocks, cutBlocks, hpush, hpush', hbuf]
    cases cut with
    | true =>
      show _ :: _ = _ :: _
      rw [ih (show (clear ⟨c'.blockBuffer ++ [b], rh⟩).blockBuffer =
        (clear ⟨c'.blockBuffer ++ [b], rh'⟩).blockBuffer from rfl) hrh hrh']
    | false =>
      exact ih (show (⟨c'.blockBuffer ++ [b], rh⟩ : Chunker).blockBuffer =
        (⟨c'.blockBuffer ++ [b], rh'⟩ : Chunker).blockBuffer from rfl) hrh hrh'

end Window

/-- The blocks that were finished, and those that are still to come. -/
theorem cutBlocks_append (data : Bytes) : ∀ c : Chunker, ∃ done : List Bytes,
    done.flatten ++ (c.feed p data).blockBuffer = c.blockBuffer ++ data ∧
      ∀ tail, cutBlocks p c (data ++ tail) = done ++ cutBlocks p (c.feed p data) tail := by
  induction data with
  | nil =>
    intro c
    exact ⟨[], by simp [feed], fun _ => rfl⟩
  | cons b rest ih =>
    intro c
    obtain ⟨cut, rh, hpush, -⟩ := c.push_spec p b
    cases cut with
    | true =>
      -- the buffer becomes a finished block
      obtain ⟨done, hdone, htail⟩ := ih (clear ⟨c.blockBuffer ++ [b], rh⟩)
      refine ⟨(c.blockBuffer ++ [b]) :: done, ?_, fun tail => ?_⟩
      · rw [feed, hpush, List.flatten_cons, List.append_assoc, List.append_assoc]
        show c.blockBuffer ++ ([b] ++ (done.flatten ++ (feed p (clear _) rest).blockBuffer)) = _
        rw [hdone]
        rfl
      · rw [List.cons_append, cutBlocks, feed, hpush, List.cons_append]
        exact congrArg _ (htail tail)
    | false =>
      -- the byte stays in the buffer
      obtain ⟨done, hdone, htail⟩ := ih ⟨c.blockBuffer ++ [b], rh⟩
      refine ⟨done, ?_, fun tail => ?_⟩
      · rw [feed, hpush]
        show done.flatten ++ (feed p ⟨c.blockBuffer ++ [b], rh⟩ rest).blockBuffer = _
        rw [hdone, List.append_assoc]
        rfl
      · rw [List.cons_append, cutBlocks, feed, hpush]
        exact htail tail

/-- A cut with something on both sides makes two blocks. -/
theorem two_le_cutBlocks {c : Chunker} {data tail : Bytes} (hcut : (c.feed p data).blockBuffer = [])
    (hdata : data ≠ []) (htail : tail ≠ []) : 2 ≤ (cutBlocks p c (data ++ tail)).length := by
  obtain ⟨done, hdone, hrest⟩ := cutBlocks_append (p := p) data c
  have hdone_ne : done ≠ [] := by
    rintro rfl
    rw [hcut, List.flatten_nil, List.nil_append] at hdone
    exact hdata (List.append_eq_nil_iff.mp hdone.symm).2
  have hrest_ne : cutBlocks p (c.feed p data) tail ≠ [] := by
    intro hnil
    have hflat := cutBlocks_flatten (p := p) tail (c.feed p data)
    rw [hnil, hcut, List.flatten_nil, List.nil_append] at hflat
    exact htail hflat.symm
  have := List.length_pos_iff.mpr hdone_ne
  have := List.length_pos_iff.mpr hrest_ne
  rw [hrest, List.length_append]
  omega

/-- After a cut the block is empty; otherwise it goes on. -/
theorem feed_concat (c : Chunker) (data : Bytes) (b : UInt8) :
    (c.feed p (data ++ [b])).blockBuffer =
      if c.cutAfter p (data ++ [b]) then [] else (c.feed p data).blockBuffer ++ [b] := by
  obtain ⟨cut, rh, hpush, -⟩ := (c.feed p data).push_spec p b
  rw [cutAfter_concat, feed_append, feed, hpush]
  cases cut <;> rfl

theorem feed_cut {c : Chunker} {data : Bytes} (h : c.cutAfter p data = true) :
    (c.feed p data).blockBuffer = [] := by
  rcases List.eq_nil_or_concat' data with rfl | ⟨before, b, rfl⟩
  · exact absurd h (by simp [cutAfter])
  · rw [feed_concat, if_pos h]

theorem rolled_concat (c : Chunker) (data : Bytes) (b : UInt8) :
    c.rolled p (data ++ [b]) = c.rolled p data ++
      if p.minBlockSize ≤ (c.feed p data).blockBuffer.length + 1 then [b] else [] := by
  rw [rolled_append, rolled, rolled, List.append_nil, List.length_append, List.length_singleton]

/-- The bytes of the current block from the minimal size on were rolled
last. -/
structure RolledLast (p : ChunkParams) (c : Chunker) (data : Bytes) : Prop where
  le : (c.feed p data).blockBuffer.length ≤ data.length
  suffix : p.minBlockSize ≤ (c.feed p data).blockBuffer.length →
    lastBytes ((c.feed p data).blockBuffer.length - p.minBlockSize + 1) data <:+ c.rolled p data

/-- The same with one more byte, before the decision whether it ends the
block. -/
theorem RolledLast.concat {c : Chunker} {data : Bytes} (h : RolledLast p c data)
    (hpos : 0 < p.minBlockSize) (b : UInt8)
    (hmin : p.minBlockSize ≤ (c.feed p data).blockBuffer.length + 1) :
    lastBytes ((c.feed p data).blockBuffer.length + 1 - p.minBlockSize + 1) (data ++ [b]) <:+
      c.rolled p (data ++ [b]) := by
  have hle := h.le
  rw [rolled_concat, if_pos hmin]
  by_cases hfull : p.minBlockSize ≤ (c.feed p data).blockBuffer.length
  · obtain ⟨older, holder⟩ := h.suffix hfull
    refine ⟨older, ?_⟩
    rw [lastBytes_concat data b (by omega), ← List.append_assoc, ← holder, Nat.sub_add_comm hfull]
  · -- this byte is the first of its block that is rolled
    have hone : (c.feed p data).blockBuffer.length + 1 - p.minBlockSize = 0 := by omega
    rw [hone, lastBytes_concat data b (Nat.zero_le _), lastBytes, Nat.sub_zero, List.drop_length,
      List.nil_append]
    exact List.suffix_append _ _

/-- By induction on the bytes from the end; after a cut the block is empty. -/
theorem rolledLast (hpos : 0 < p.minBlockSize) {c : Chunker} (hc : c.blockBuffer = [])
    (data : Bytes) : RolledLast p c data := by
  induction data using List.reverseRecOn with
  | nil =>
    refine ⟨by simp [feed, hc], fun hmin => ?_⟩
    rw [feed, hc, List.length_nil] at hmin
    omega
  | append_singleton data b ih =>
    have hle := ih.le
    have hfeed := feed_concat (p := p) c data b
    by_cases hcut : c.cutAfter p (data ++ [b]) = true
    · rw [if_pos hcut] at hfeed
      refine ⟨by simp [hfeed], fun hmin => ?_⟩
      rw [hfeed, List.length_nil] at hmin
      omega
    · rw [if_neg hcut] at hfeed
      have hlen : (c.feed p (data ++ [b])).blockBuffer.length =
          (c.feed p data).blockBuffer.length + 1 := by
        rw [hfeed, List.length_append, List.length_singleton]
      refine ⟨?_, fun hmin => ?_⟩
      · rw [hlen, List.length_append, List.length_singleton]
        omega
      · rw [hlen] at hmin ⊢
        exact ih.concat hpos b hmin

theorem rolled_subset : ∀ (data : Bytes) (c : Chunker), c.rolled p data ⊆ data := by
  intro data
  induction data with
  | nil =>
    intro c
    exact List.Subset.refl _
  | cons b rest ih =>
    intro c x hx
    rw [rolled, List.mem_append] at hx
    rcases hx with hx | hx
    · split at hx
      · rw [List.mem_singleton.mp hx]
        exact List.mem_cons_self
      · exact absurd hx List.not_mem_nil
    · exact List.mem_cons_of_mem b (ih _ hx)

/-- Nothing is rolled before the minimal size. -/
theorem feed_short : ∀ (data : Bytes) (c : Chunker),
    c.blockBuffer.length + data.length < p.minBlockSize →
    (c.feed p data).blockBuffer = c.blockBuffer ++ data ∧ c.rolled p data = [] := by
  intro data
  induction data with
  | nil =>
    intro c _
    exact ⟨(List.append_nil _).symm, rfl⟩
  | cons b rest ih =>
    intro c hlen
    rw [List.length_cons] at hlen
    have hmin : ¬ p.minBlockSize ≤ (c.blockBuffer ++ [b]).length := by
      rw [List.length_append, List.length_singleton]
      omega
    have hpush : c.push p b = (false, ⟨c.blockBuffer ++ [b], c.rh⟩) := by
      rw [push, if_neg hmin]
    obtain ⟨hbuf, hrolled⟩ := ih ⟨c.blockBuffer ++ [b], c.rh⟩ (by
      rw [List.length_append, List.length_singleton]
      omega)
    refine ⟨?_, ?_⟩
    · rw [feed, hpush]
      show (feed p ⟨c.blockBuffer ++ [b], c.rh⟩ rest).blockBuffer = _
      rw [hbuf, List.append_assoc]
      rfl
    · rw [rolled, if_neg hmin, List.nil_append, feed, hpush]
      exact hrolled

/-- Where the loop over a file starts. -/
def start (E : Env) (keys : RepositoryKeys) : Chunker :=
  ⟨[], RollingHash.new E.C keys.mRollKey.toList 8192⟩

open RollingHash

theorem start_rep (E : Env) (keys : RepositoryKeys) (data : Bytes) :
    Rep (subTable E.C keys.mRollKey.toList) (rolledWindow p (start E keys) data)
      ((start E keys).feed p data).rh :=
  feed_rep data List.length_replicate (new_rep _ _ (by decide))

/-- **The decision at a byte** depends on the length of the block and on the
window of the rolled bytes. -/
theorem cutAfter_iff (E : Env) (keys : RepositoryKeys) {data : Bytes} (hdata : data ≠ []) :
    (start E keys).cutAfter p data = true ↔
      p.minBlockSize ≤ (start E keys).blockLength p data ∧
        (windowHash (subTable E.C keys.mRollKey.toList) (rolledWindow p (start E keys) data) &&&
          p.hashMask = 0 ∨ p.maxBlockSize ≤ (start E keys).blockLength p data) := by
  obtain ⟨before, b, rfl⟩ := (List.eq_nil_or_concat' data).resolve_left hdata
  obtain ⟨cut, rh, hpush, -, hcut⟩ := push_rep (p := p) (start_rep (p := p) E keys before) b
  rw [cutAfter_concat, blockLength_concat, hpush]
  rw [List.length_append, List.length_singleton] at hcut
  rw [hcut]
  refine and_congr_right fun hmin => ?_
  -- the hash is asked only where the byte is rolled, so the window has slid by one
  have hlen : 8192 ≤ (List.replicate 8192 0 ++ (start E keys).rolled p before).length := by
    rw [List.length_append, List.length_replicate]
    omega
  have hwindow : rolledWindow p (start E keys) (before ++ [b]) =
      (rolledWindow p (start E keys) before).tail ++ [b] := by
    rw [rolledWindow, rolledWindow, rolled_concat, if_pos hmin, ← List.append_assoc]
    exact lastBytes_slide (Nat.zero_lt_succ 8191) _ b hlen
  rw [hwindow]

/-- A block that is long enough fills the window by itself. -/
theorem rolledWindow_eq (hpos : 0 < p.minBlockSize) (E : Env) (keys : RepositoryKeys) {data : Bytes}
    (hdata : data ≠ []) (hlong : p.minBlockSize + 8191 ≤ (start E keys).blockLength p data) :
    rolledWindow p (start E keys) data = lastBytes 8192 data := by
  obtain ⟨before, b, rfl⟩ := (List.eq_nil_or_concat' data).resolve_left hdata
  have hlast := rolledLast hpos (c := start E keys) rfl before
  have hle := hlast.le
  rw [blockLength_concat] at hlong
  obtain ⟨older, holder⟩ := hlast.concat hpos b (by omega)
  have hfits : ((start E keys).feed p before).blockBuffer.length + 1 - p.minBlockSize + 1 ≤
      (before ++ [b]).length := by
    rw [List.length_append, List.length_singleton]
    omega
  rw [rolledWindow, ← holder, ← List.append_assoc, lastBytes_append _ _ _ (by
    rw [lastBytes_length hfits]
    omega), lastBytes_lastBytes (by omega) hfits]

end Chunker

/-! ### Cuts at two places -/

theorem chunkParams_minBlockSize {E : Env} {n : ℕ} {p : ChunkParams} (h : chunkParams E n = .ok p) :
    p.minBlockSize = minBlockSizeOf n := by
  rw [chunkParams] at h
  split at h
  · exact absurd h (by simp)
  · split at h
    · exact absurd h (by simp)
    · rw [← Except.ok.inj h]

open Chunker RollingHash

/-- The lengths of a block at which the cut is local: the block is too short to be
cut, or full, or so long that its own bytes fill the window. -/
def LocalLength (p : ChunkParams) (n : ℕ) : Prop :=
  n < p.minBlockSize ∨ p.maxBlockSize ≤ n ∨ p.minBlockSize + 8191 ≤ n

/-- **Cutting meets again**: after a cut with the same window in the hash, the
same bytes are cut in the same way. -/
theorem cut_meets {E₁ E₂ : Env} {keys₁ keys₂ : RepositoryKeys} (hC : E₂.C = E₁.C)
    (hroll : keys₂.mRollKey = keys₁.mRollKey) {f₁ f₂ : LocalFile} {p : ChunkParams} {i j : ℕ}
    (hcut₁ : (start E₁ keys₁).cutAfter p (f₁.content.take i) = true)
    (hcut₂ : (start E₂ keys₂).cutAfter p (f₂.content.take j) = true)
    (hwindow : (start E₁ keys₁).rolledWindow p (f₁.content.take i) =
      (start E₂ keys₂).rolledWindow p (f₂.content.take j))
    (htail : f₁.content.drop i = f₂.content.drop j) :
    ∃ done₁ done₂ rest, f₁.cut E₁ keys₁ p = done₁ ++ rest ∧ f₂.cut E₂ keys₂ p = done₂ ++ rest ∧
      done₁.flatten = f₁.content.take i ∧ done₂.flatten = f₂.content.take j := by
  obtain ⟨done₁, hdone₁, hrest₁⟩ := cutBlocks_append (p := p) (f₁.content.take i) (start E₁ keys₁)
  obtain ⟨done₂, hdone₂, hrest₂⟩ := cutBlocks_append (p := p) (f₂.content.take j) (start E₂ keys₂)
  -- both buffers are empty and both hashes have the same window
  have hbuf₁ := feed_cut hcut₁
  have hbuf₂ := feed_cut hcut₂
  have hrep₁ := start_rep (p := p) E₁ keys₁ (f₁.content.take i)
  have hrep₂ := start_rep (p := p) E₂ keys₂ (f₂.content.take j)
  rw [hC, hroll, ← hwindow] at hrep₂
  refine ⟨done₁, done₂, cutBlocks p ((start E₁ keys₁).feed p (f₁.content.take i)) (f₁.content.drop i),
    ?_, ?_, ?_, ?_⟩
  · have hcuts := hrest₁ (f₁.content.drop i)
    rwa [List.take_append_drop] at hcuts
  · have hcuts := hrest₂ (f₂.content.drop j)
    rw [List.take_append_drop] at hcuts
    rw [htail, cutBlocks_congr (f₂.content.drop j) (hbuf₁.trans hbuf₂.symm) hrep₁ hrep₂]
    exact hcuts
  · rwa [hbuf₁, List.append_nil] at hdone₁
  · rwa [hbuf₂, List.append_nil] at hdone₂

/-- **When cuts are local.**  Two files are cut with the same sizes and the same roll
key, and at `i` in the one and at `j` in the other the blocks have the same length.
Where the last 8192 bytes are the same, so is the decision, for every local length.
Where a block ends with the same rolled bytes in both windows, all later blocks of a
common tail coincide; and the windows are the same where the last 8192 bytes are and
the block is so long that it fills them. -/
theorem cut_local {E₁ E₂ : Env} {keys₁ keys₂ : RepositoryKeys} (hC : E₂.C = E₁.C)
    (hroll : keys₂.mRollKey = keys₁.mRollKey) {f₁ f₂ : LocalFile} {p : ChunkParams}
    (hp : chunkParams E₁ f₁.content.length = .ok p) {i j : ℕ} (hi : 8192 ≤ i)
    (hi' : i ≤ f₁.content.length) (hj : 8192 ≤ j) (hj' : j ≤ f₂.content.length)
    (hlen : (start E₁ keys₁).blockLength p (f₁.content.take i) =
      (start E₂ keys₂).blockLength p (f₂.content.take j)) :
    (lastBytes 8192 (f₁.content.take i) = lastBytes 8192 (f₂.content.take j) →
      LocalLength p ((start E₁ keys₁).blockLength p (f₁.content.take i)) →
      (start E₁ keys₁).cutAfter p (f₁.content.take i) =
        (start E₂ keys₂).cutAfter p (f₂.content.take j)) ∧
    ((start E₁ keys₁).rolledWindow p (f₁.content.take i) =
        (start E₂ keys₂).rolledWindow p (f₂.content.take j) →
      (start E₁ keys₁).cutAfter p (f₁.content.take i) = true →
      f₁.content.drop i = f₂.content.drop j →
      ∃ done₁ done₂ rest, f₁.cut E₁ keys₁ p = done₁ ++ rest ∧ f₂.cut E₂ keys₂ p = done₂ ++ rest ∧
        done₁.flatten = f₁.content.take i ∧ done₂.flatten = f₂.content.take j) ∧
    (lastBytes 8192 (f₁.content.take i) = lastBytes 8192 (f₂.content.take j) →
      p.minBlockSize + 8191 ≤ (start E₁ keys₁).blockLength p (f₁.content.take i) →
      (start E₁ keys₁).rolledWindow p (f₁.content.take i) =
        (start E₂ keys₂).rolledWindow p (f₂.content.take j)) := by
  have hpos : 0 < p.minBlockSize := by
    rw [chunkParams_minBlockSize hp]
    exact minBlockSizeOf_pos _
  have hne₁ : f₁.content.take i ≠ [] := by
    refine List.ne_nil_of_length_pos ?_
    rw [List.length_take]
    omega
  have hne₂ : f₂.content.take j ≠ [] := by
    refine List.ne_nil_of_length_pos ?_
    rw [List.length_take]
    omega
  have hcut₁ := cutAfter_iff (p := p) E₁ keys₁ hne₁
  have hcut₂ := cutAfter_iff (p := p) E₂ keys₂ hne₂
  rw [hC, hroll, ← hlen] at hcut₂
  have hwindows : lastBytes 8192 (f₁.content.take i) = lastBytes 8192 (f₂.content.take j) →
      p.minBlockSize + 8191 ≤ (start E₁ keys₁).blockLength p (f₁.content.take i) →
      (start E₁ keys₁).rolledWindow p (f₁.content.take i) =
        (start E₂ keys₂).rolledWindow p (f₂.content.take j) := by
    intro hlast hlong
    have hwindow₁ := rolledWindow_eq hpos E₁ keys₁ hne₁ hlong
    have hwindow₂ := rolledWindow_eq hpos E₂ keys₂ hne₂ (le_of_le_of_eq hlong hlen)
    exact hwindow₁.trans (hlast.trans hwindow₂.symm)
  -- the decisions and the common tail
  refine ⟨?_, ?_, hwindows⟩
  · intro hlast hlocal
    rw [Bool.eq_iff_iff, hcut₁, hcut₂]
    rcases hlocal with hshort | hfull | hlong
    · have hnot := Nat.not_le.mpr hshort
      exact ⟨fun h => absurd h.1 hnot, fun h => absurd h.1 hnot⟩
    · exact ⟨fun h => ⟨h.1, Or.inr hfull⟩, fun h => ⟨h.1, Or.inr hfull⟩⟩
    · rw [hwindows hlast hlong]
  · intro hwindow hcut htail
    have hsame : (start E₂ keys₂).cutAfter p (f₂.content.take j) = true := by
      rw [hcut₂, ← hwindow]
      exact hcut₁.mp hcut
    exact cut_meets hC hroll hcut hsame hwindow htail

/-! ### Two files that are not cut alike -/

/-- The lowest bit of the hash is the sum of the lowest bits of the weights. -/
theorem windowHash_parity (table : List UInt32) (w : Bytes) :
    windowHash table w &&& 1 = 0 ↔ (w.map fun c => (weight table c).toNat).sum % 2 = 0 := by
  have hsum : (windowHash table w).toNat % 2 = (w.map fun c => (weight table c).toNat).sum % 2 := by
    induction w using List.reverseRecOn with
    | nil => rfl
    | append_singleton w c ih =>
      have hstep : windowHash table (w ++ [c]) = windowHash table w * mConstant + weight table c := by
        rw [windowHash, List.foldl_append]
        rfl
      -- 33 and 2 ^ 64 do not change the lowest bit
      rw [hstep, List.map_append, List.sum_append, List.map_singleton, List.sum_singleton,
        UInt64.toNat_add, UInt64.toNat_mul, show mConstant.toNat = 33 from rfl]
      omega
  rw [← UInt64.toNat_inj, UInt64.toNat_and, ← hsum]
  exact Nat.and_one_is_mod _ ▸ Iff.rfl

/-- The first block of the substitution table under a zero key, which has the
entries of the bytes 0 to 3, and the digests of blocks of zeros. -/
def rollTables : SampleTables where
  aes := [(List.replicate 32 0, ⟨List.replicate 16 0x99, rfl⟩,
    hexDigest 16 0x16a6b02dbff92c6c6771ebd4fde69828)]
  hmac := [((List.replicate 32 0, 0 :: List.replicate 4096 0),
    hexDigest 32 0xcee2f8318b1588922ae99563b9c986a2044ff4ddfc53a0e8ff708014230f7796)]
  md5 := [(List.replicate 8192 0, hexDigest 16 0x0829f71740aab1ab98b33eae21dee122)]

/-- Blocks of 4096 to 8193 bytes, with one bit of the hash. -/
def parityEnv : Env := { zeroEnv rollTables.crypto with options := ⟨1, 8193, 1, 1, 1⟩ }

/-- The sizes that it gives. -/
def parityParams : ChunkParams := ⟨1, 1, 4096, 8193⟩

theorem parity_zero : (weight (subTable parityEnv.C zeroKeys.mRollKey.toList) 0).toNat % 2 = 1 := by
  decide +kernel

theorem parity_one : (weight (subTable parityEnv.C zeroKeys.mRollKey.toList) 1).toNat % 2 = 0 := by
  decide +kernel

theorem chunkParams_parity {n : ℕ} (h : n ≤ 65535) : chunkParams parityEnv n = .ok parityParams := by
  have hmin : minBlockSizeOf n = 4096 := by
    rw [minBlockSizeOf_eq (by omega)]
    omega
  have hbits : clampedHashBits parityEnv n = 1 := rfl
  rw [chunkParams, if_neg (show ¬ toSizeT parityEnv.options.blockSplitCount = 0 by decide), hbits,
    if_neg (show ¬ ((1 : ℤ) < 0 ∨ 29 < (1 : ℤ) ∨ parityEnv.options.maxBlockSize < 0) by decide), hmin]
  rfl

/-- The hash of a window with one byte 1 among zeros is odd. -/
theorem parity_window {a b : ℕ} (h : a + b = 8191) :
    ¬ windowHash (subTable parityEnv.C zeroKeys.mRollKey.toList)
      (List.replicate a 0 ++ 1 :: List.replicate b 0) &&& 1 = 0 := by
  have hzero := parity_zero
  have hone := parity_one
  rw [windowHash_parity, List.map_append, List.map_cons, List.map_replicate, List.map_replicate,
    List.sum_append, List.sum_cons, List.sum_replicate, List.sum_replicate, smul_eq_mul, smul_eq_mul]
  generalize (weight (subTable parityEnv.C zeroKeys.mRollKey.toList) 0).toNat = t₀ at *
  generalize (weight (subTable parityEnv.C zeroKeys.mRollKey.toList) 1).toNat = t₁ at *
  have hsum : a * t₀ + (t₁ + b * t₀) = 8191 * t₀ + t₁ := by
    rw [← h]
    ring
  omega

/-- The hash of a window of zeros is even. -/
theorem parity_zeros : windowHash (subTable parityEnv.C zeroKeys.mRollKey.toList)
    (List.replicate 8192 0) &&& 1 = 0 := by
  rw [windowHash_parity, List.map_replicate, List.sum_replicate, smul_eq_mul]
  omega

/-- What was rolled stands behind zeros. -/
theorem lastBytes_zeros {n : ℕ} {x : Bytes} (h : x.length ≤ n) (m : ℕ) :
    lastBytes n (List.replicate n 0 ++ (List.replicate m 0 ++ x)) =
      List.replicate (n - x.length) 0 ++ x := by
  rw [← List.append_assoc, List.replicate_append_replicate, lastBytes, List.length_append,
    List.length_replicate, List.drop_append_of_le_length (by rw [List.length_replicate]; omega),
    List.drop_replicate]
  congr 2
  omega

/-- In a file of zeros a block ends with the minimal size. -/
theorem cutAfter_zeros {n : ℕ}
    (hn : (start parityEnv zeroKeys).blockLength parityParams (List.replicate (n + 1) 0) = 4096) :
    (start parityEnv zeroKeys).cutAfter parityParams (List.replicate (n + 1) 0) = true := by
  have hrolled : (start parityEnv zeroKeys).rolled parityParams (List.replicate (n + 1) 0) =
      List.replicate _ 0 :=
    List.eq_replicate_of_mem fun x hx => List.eq_of_mem_replicate (rolled_subset _ _ hx)
  rw [cutAfter_iff parityEnv zeroKeys (by simp), hn, rolledWindow, hrolled]
  refine ⟨le_refl 4096, Or.inl ?_⟩
  rw [List.replicate_append_replicate, lastBytes, List.length_replicate, List.drop_replicate,
    Nat.add_sub_cancel_left, Nat.add_sub_cancel]
  exact parity_zeros

theorem feed_zeros :
    ((start parityEnv zeroKeys).feed parityParams (List.replicate 4096 0)).blockBuffer = [] := by
  refine feed_cut (cutAfter_zeros ?_)
  rw [List.replicate_succ', blockLength_concat,
    (feed_short (p := parityParams) (List.replicate 4095 0) (start parityEnv zeroKeys) (by
      rw [List.length_replicate]
      show 0 + 4095 < 4096
      omega)).1, List.length_append, List.length_replicate]
  rfl

theorem blockLength_zeros :
    (start parityEnv zeroKeys).blockLength parityParams (List.replicate 8192 0) = 4096 := by
  have hsplit : List.replicate 8192 (0 : UInt8) =
      (List.replicate 4096 0 ++ List.replicate 4095 0) ++ [0] := by
    rw [List.replicate_append_replicate, ← List.replicate_succ']
  rw [hsplit, blockLength_concat, feed_append,
    (feed_short (p := parityParams) (List.replicate 4095 0) _ (by
      rw [feed_zeros, List.length_replicate]
      show 0 + 4095 < 4096
      omega)).1, feed_zeros, List.nil_append, List.length_replicate]

/-- A file with a byte 1 where the first block reaches its minimal size. -/
def oneFile (k : ℕ) : Bytes := List.replicate 4095 0 ++ 1 :: List.replicate k 0

theorem oneFile_add (k n : ℕ) : oneFile (k + n) = oneFile k ++ List.replicate n 0 := by
  rw [oneFile, oneFile, List.append_assoc, List.cons_append, List.replicate_append_replicate]

theorem oneFile_ne_nil (k : ℕ) : oneFile k ≠ [] :=
  List.append_ne_nil_of_right_ne_nil _ (List.cons_ne_nil _ _)

/-- As long as the byte 1 is in the window only a full block ends. -/
theorem cutAfter_oneFile {data : Bytes} {m k : ℕ} (hdata : data ≠ []) (hk : k ≤ 8191)
    (hrolled : (start parityEnv zeroKeys).rolled parityParams data =
      List.replicate m 0 ++ 1 :: List.replicate k 0)
    (hlen : (start parityEnv zeroKeys).blockLength parityParams data < 8193) :
    (start parityEnv zeroKeys).cutAfter parityParams data = false := by
  rw [Bool.eq_false_iff, Ne, cutAfter_iff parityEnv zeroKeys hdata, rolledWindow, hrolled,
    lastBytes_zeros (by rw [List.length_cons, List.length_replicate]; omega), List.length_cons,
    List.length_replicate]
  rintro ⟨-, hhash | hfull⟩
  · exact parity_window (show 8192 - (k + 1) + k = 8191 by omega) hhash
  · exact absurd hlen (Nat.not_lt.mpr hfull)

theorem rolled_concat_oneFile {data : Bytes} {m k : ℕ}
    (hrolled : (start parityEnv zeroKeys).rolled parityParams data =
      List.replicate m 0 ++ 1 :: List.replicate k 0)
    (hmin : 4096 ≤ ((start parityEnv zeroKeys).feed parityParams data).blockBuffer.length + 1) :
    (start parityEnv zeroKeys).rolled parityParams (data ++ [0]) =
      List.replicate m 0 ++ 1 :: List.replicate (k + 1) 0 := by
  rw [rolled_concat, if_pos (show parityParams.minBlockSize ≤ _ from hmin), hrolled,
    List.replicate_succ', List.append_assoc, List.cons_append]

section OneFile

variable {before : Bytes} {m : ℕ}
  (hbuf : ((start parityEnv zeroKeys).feed parityParams before).blockBuffer = [])
  (hbefore : (start parityEnv zeroKeys).rolled parityParams before = List.replicate m 0)

include hbuf hbefore

/-- The block goes on until it is full, also behind blocks of which only zeros were
rolled, by induction on the zeros behind the byte 1. -/
theorem feed_oneFile : ∀ {k : ℕ}, k ≤ 4096 →
    ((start parityEnv zeroKeys).feed parityParams (before ++ oneFile k)).blockBuffer.length = 4096 + k ∧
      (start parityEnv zeroKeys).rolled parityParams (before ++ oneFile k) =
        List.replicate m 0 ++ 1 :: List.replicate k 0 := by
  intro k
  induction k with
  | zero =>
    intro _
    obtain ⟨hshort, hnone⟩ := feed_short (p := parityParams) (List.replicate 4095 0)
      ((start parityEnv zeroKeys).feed parityParams before) (by
        rw [hbuf, List.length_replicate]
        show 0 + 4095 < 4096
        omega)
    have hlen : ((start parityEnv zeroKeys).feed parityParams
        (before ++ List.replicate 4095 0)).blockBuffer.length = 4095 := by
      rw [feed_append, hshort, hbuf, List.nil_append, List.length_replicate]
    have hfile : before ++ oneFile 0 = before ++ List.replicate 4095 0 ++ [1] := by
      rw [List.append_assoc]
      rfl
    have hrolled : (start parityEnv zeroKeys).rolled parityParams (before ++ oneFile 0) =
        List.replicate m 0 ++ [1] := by
      rw [hfile, rolled_concat, rolled_append, hnone, hbefore, List.append_nil, hlen,
        if_pos (show parityParams.minBlockSize ≤ 4095 + 1 from le_refl 4096)]
    have hcut : (start parityEnv zeroKeys).cutAfter parityParams (before ++ oneFile 0) = false := by
      refine cutAfter_oneFile (k := 0) ?_ (Nat.zero_le _) hrolled ?_
      · exact List.append_ne_nil_of_right_ne_nil _ (oneFile_ne_nil 0)
      · rw [hfile, blockLength_concat, hlen]
        omega
    refine ⟨?_, hrolled⟩
    rw [hfile] at hcut ⊢
    rw [feed_concat, hcut, if_neg (by simp), List.length_append, hlen]
    rfl
  | succ k ih =>
    intro hk
    obtain ⟨hlen, hrolled⟩ := ih (by omega)
    rw [oneFile_add k 1, List.replicate_one, ← List.append_assoc]
    have hrolled' := rolled_concat_oneFile hrolled (by omega)
    have hcut : (start parityEnv zeroKeys).cutAfter parityParams (before ++ oneFile k ++ [0]) = false := by
      refine cutAfter_oneFile (by simp) (by omega) hrolled' ?_
      rw [blockLength_concat, hlen]
      omega
    refine ⟨?_, hrolled'⟩
    rw [feed_concat, hcut, if_neg (by simp), List.length_append, hlen, List.length_singleton]
    omega

/-- It ends with 8193 bytes, because it is full. -/
theorem oneFile_full :
    (start parityEnv zeroKeys).blockLength parityParams (before ++ oneFile 4097) = 8193 ∧
      (start parityEnv zeroKeys).cutAfter parityParams (before ++ oneFile 4097) = true ∧
      (start parityEnv zeroKeys).rolled parityParams (before ++ oneFile 4097) =
        List.replicate m 0 ++ 1 :: List.replicate 4097 0 := by
  obtain ⟨hlen, hrolled⟩ := feed_oneFile hbuf hbefore (le_refl 4096)
  have hsplit : before ++ oneFile 4097 = before ++ oneFile 4096 ++ [0] := by
    show before ++ oneFile (4096 + 1) = _
    rw [oneFile_add 4096 1, List.replicate_one, List.append_assoc]
  rw [hsplit]
  refine ⟨by rw [blockLength_concat, hlen], ?_, rolled_concat_oneFile hrolled (by omega)⟩
  rw [cutAfter_iff parityEnv zeroKeys (by simp), blockLength_concat, hlen]
  exact ⟨show 4096 ≤ 4096 + 4096 + 1 by omega, Or.inr (show 8193 ≤ 4096 + 4096 + 1 by omega)⟩

end OneFile

/-- At the beginning of a file nothing was before. -/
theorem oneFile_first :
    (start parityEnv zeroKeys).blockLength parityParams (oneFile 4097) = 8193 ∧
      (start parityEnv zeroKeys).cutAfter parityParams (oneFile 4097) = true ∧
      (start parityEnv zeroKeys).rolled parityParams (oneFile 4097) =
        List.replicate 0 0 ++ 1 :: List.replicate 4097 0 := by
  have hnothing : (start parityEnv zeroKeys).rolled parityParams [] = List.replicate 0 0 := rfl
  have hfirst := oneFile_full rfl hnothing
  rw [List.nil_append] at hfirst
  exact hfirst

/-- The second block has the minimal size at the end of the file and does not
end there. -/
theorem oneFile_end :
    (start parityEnv zeroKeys).blockLength parityParams (oneFile 8193) = 4096 ∧
      (start parityEnv zeroKeys).cutAfter parityParams (oneFile 8193) = false := by
  obtain ⟨-, hfull, hrolled₁⟩ := oneFile_first
  have hempty := feed_cut hfull
  -- nothing is rolled while the second block grows
  obtain ⟨hbuf, hnone⟩ := feed_short (p := parityParams) (List.replicate 4095 0)
    ((start parityEnv zeroKeys).feed parityParams (oneFile 4097)) (by
      rw [hempty, List.length_replicate]
      show 0 + 4095 < 4096
      omega)
  rw [← feed_append, hempty, List.nil_append] at hbuf
  have hlen₂ : ((start parityEnv zeroKeys).feed parityParams
      (oneFile 4097 ++ List.replicate 4095 0)).blockBuffer.length = 4095 := by
    rw [hbuf, List.length_replicate]
  have hrolled₂ : (start parityEnv zeroKeys).rolled parityParams
      (oneFile 4097 ++ List.replicate 4095 0) = List.replicate 0 0 ++ 1 :: List.replicate 4097 0 := by
    rw [rolled_append, hnone, hrolled₁, List.append_nil]
  have hsplit : oneFile 8193 = oneFile 4097 ++ List.replicate 4095 0 ++ [0] := by
    show oneFile (4097 + 4095 + 1) = _
    rw [oneFile_add (4097 + 4095) 1, oneFile_add 4097 4095, List.replicate_one]
  have hlength : (start parityEnv zeroKeys).blockLength parityParams (oneFile 8193) = 4096 := by
    rw [hsplit, blockLength_concat, hlen₂]
  refine ⟨hlength, cutAfter_oneFile (m := 0) (oneFile_ne_nil _)
    (show 4097 + 1 ≤ 8191 by omega) ?_ ?_⟩
  · rw [hsplit]
    exact rolled_concat_oneFile hrolled₂ (by rw [hlen₂])
  · rw [hlength]
    omega

theorem oneFile_length : (oneFile 8193).length = 12289 := by
  rw [oneFile, List.length_append, List.length_cons, List.length_replicate, List.length_replicate]

/-- The picture with the byte 1. -/
def onePicture : LocalFile := picture (oneFile 8193) (by rw [oneFile_length]; omega)

/-- A picture of zeros. -/
def zeroPicture : LocalFile :=
  picture (List.replicate 8192 0) (by rw [List.length_replicate]; omega)

theorem oneFile_last : lastBytes 8192 (oneFile 8193) = List.replicate 8192 0 := by
  show lastBytes 8192 (oneFile (1 + 8192)) = _
  rw [oneFile_add, lastBytes_append _ _ _ (by rw [List.length_replicate]), lastBytes,
    List.length_replicate, Nat.sub_self, List.drop_zero]

theorem zeros_last : lastBytes 8192 (List.replicate 8192 0) = List.replicate 8192 0 := by
  rw [lastBytes, List.length_replicate, Nat.sub_self, List.drop_zero]

/-- What the two pictures have in common at their ends. -/
theorem pictures_end :
    chunkParams parityEnv onePicture.content.length = .ok parityParams ∧
    chunkParams parityEnv zeroPicture.content.length = .ok parityParams ∧
    lastBytes 8192 (onePicture.content.take 12289) = lastBytes 8192 (zeroPicture.content.take 8192) ∧
    (start parityEnv zeroKeys).blockLength parityParams (onePicture.content.take 12289) = 4096 ∧
    (start parityEnv zeroKeys).blockLength parityParams (zeroPicture.content.take 8192) = 4096 ∧
    (start parityEnv zeroKeys).cutAfter parityParams (onePicture.content.take 12289) = false ∧
    (start parityEnv zeroKeys).cutAfter parityParams (zeroPicture.content.take 8192) = true := by
  have hone : onePicture.content.take 12289 = oneFile 8193 :=
    List.take_of_length_le (le_of_eq oneFile_length)
  have hzero : zeroPicture.content.take 8192 = List.replicate 8192 0 :=
    List.take_of_length_le (le_of_eq List.length_replicate)
  rw [hone, hzero, show onePicture.content.length = 12289 from oneFile_length,
    show zeroPicture.content.length = 8192 from List.length_replicate, oneFile_last, zeros_last]
  exact ⟨chunkParams_parity (by omega), chunkParams_parity (by omega), rfl, oneFile_end.1,
    blockLength_zeros, oneFile_end.2, cutAfter_zeros blockLength_zeros⟩

/-- **The cut is not local**: both files end with the same 8192 zeros and a
block of 4096 bytes, and only one of these blocks is cut there. -/
theorem cut_not_local :
    ∃ (f₁ f₂ : LocalFile) (p : ChunkParams) (i j : ℕ),
      chunkParams parityEnv f₁.content.length = .ok p ∧
      chunkParams parityEnv f₂.content.length = .ok p ∧ 8192 ≤ i ∧ 8192 ≤ j ∧
      lastBytes 8192 (f₁.content.take i) = lastBytes 8192 (f₂.content.take j) ∧
      (start parityEnv zeroKeys).blockLength p (f₁.content.take i) =
        (start parityEnv zeroKeys).blockLength p (f₂.content.take j) ∧
      (start parityEnv zeroKeys).cutAfter p (f₁.content.take i) = false ∧
      (start parityEnv zeroKeys).cutAfter p (f₂.content.take j) = true := by
  obtain ⟨hp₁, hp₂, hlast, hlen₁, hlen₂, hcut₁, hcut₂⟩ := pictures_end
  exact ⟨onePicture, zeroPicture, parityParams, 12289, 8192, hp₁, hp₂, by omega, le_refl _, hlast,
    hlen₁.trans hlen₂.symm, hcut₁, hcut₂⟩

/-- The picture behind a block of zeros. -/
def shiftedPicture : LocalFile :=
  picture (List.replicate 4096 0 ++ oneFile 8193) (by
    rw [List.length_append, List.length_replicate, oneFile_length]
    omega)

theorem onePicture_split : onePicture.content = oneFile 4097 ++ List.replicate 4096 0 :=
  oneFile_add 4097 4096

theorem shiftedPicture_split : shiftedPicture.content =
    (List.replicate 4096 0 ++ oneFile 4097) ++ List.replicate 4096 0 := by
  rw [List.append_assoc, ← oneFile_add 4097 4096]
  rfl

theorem oneFile_block_length : (oneFile 4097).length = 8193 := by
  rw [oneFile, List.length_append, List.length_cons, List.length_replicate, List.length_replicate]

theorem shifted_block_length : (List.replicate 4096 0 ++ oneFile 4097).length = 12289 := by
  rw [List.length_append, List.length_replicate, oneFile_block_length]

/-- The first block of the picture with the byte 1 and the second block of the shifted
one are cut alike, though only one of them has a block before it, and so is the
rest. -/
theorem cut_local_pictures :
    (start parityEnv zeroKeys).cutAfter parityParams (onePicture.content.take 8193) =
      (start parityEnv zeroKeys).cutAfter parityParams (shiftedPicture.content.take 12289) ∧
    ∃ done₁ done₂ rest, onePicture.cut parityEnv zeroKeys parityParams = done₁ ++ rest ∧
      shiftedPicture.cut parityEnv zeroKeys parityParams = done₂ ++ rest ∧
      done₁.flatten = oneFile 4097 ∧ done₂.flatten = List.replicate 4096 0 ++ oneFile 4097 := by
  have htake₁ : onePicture.content.take 8193 = oneFile 4097 := by
    rw [onePicture_split, List.take_left' oneFile_block_length]
  have htake₂ : shiftedPicture.content.take 12289 = List.replicate 4096 0 ++ oneFile 4097 := by
    rw [shiftedPicture_split, List.take_left' shifted_block_length]
  have hdrop : onePicture.content.drop 8193 = shiftedPicture.content.drop 12289 := by
    rw [onePicture_split, shiftedPicture_split, List.drop_left' oneFile_block_length,
      List.drop_left' shifted_block_length]
  have hzeros : (start parityEnv zeroKeys).rolled parityParams (List.replicate 4096 0) =
      List.replicate _ 0 :=
    List.eq_replicate_of_mem fun x hx => List.eq_of_mem_replicate (rolled_subset _ _ hx)
  obtain ⟨hlen₁, hcut₁, hrolled₁⟩ := oneFile_first
  obtain ⟨hlen₂, -, hrolled₂⟩ := oneFile_full feed_zeros hzeros
  -- the zeros that were rolled before are as many zeros as there were at the start
  have hwindow : (start parityEnv zeroKeys).rolledWindow parityParams (oneFile 4097) =
      (start parityEnv zeroKeys).rolledWindow parityParams (List.replicate 4096 0 ++ oneFile 4097) := by
    have hshort : (1 :: List.replicate 4097 (0 : UInt8)).length ≤ 8192 := by
      rw [List.length_cons, List.length_replicate]
      omega
    rw [rolledWindow, rolledWindow, hrolled₁, hrolled₂, lastBytes_zeros hshort, lastBytes_zeros hshort]
  have hparams : chunkParams parityEnv onePicture.content.length = .ok parityParams := by
    rw [show onePicture.content.length = (oneFile 8193).length from rfl, oneFile_length]
    exact chunkParams_parity (by omega)
  obtain ⟨hlocal, hmeet, -⟩ := @cut_local parityEnv parityEnv zeroKeys zeroKeys rfl rfl onePicture
    shiftedPicture parityParams hparams 8193 12289 (by omega)
    (by rw [onePicture_split, List.length_append, oneFile_block_length]; omega) (by omega)
    (by rw [shiftedPicture_split, List.length_append, shifted_block_length]; omega)
    (by rw [htake₁, htake₂, hlen₁, hlen₂])
  rw [htake₁, htake₂] at hlocal hmeet
  refine ⟨?_, hmeet hwindow hcut₁ hdrop⟩
  rw [htake₁, htake₂]
  refine hlocal (lastBytes_append _ _ _ (by rw [oneFile_block_length]; omega)).symm (Or.inr (Or.inl ?_))
  rw [hlen₁]
  exact le_refl 8193

/-- A file of zeros, cut with these options into more than one block. -/
theorem uploadFile_blocks_zeros :
    ∃ bits blocks, zeroPicture.blocks parityEnv zeroKeys = .ok (bits, blocks) ∧
      blocks.flatten = List.replicate 8192 0 ∧ 2 ≤ blocks.length ∧
      (∀ block ∈ blocks.dropLast, 4096 ≤ block.length) ∧
      (∀ block ∈ blocks, block ≠ [] ∧ block.length ≤ 8193) ∧ blocks.length ≤ 65535 := by
  have hlength : zeroPicture.content.length = 8192 := List.length_replicate
  have hlarge : ¬ zeroPicture.isSmall parityEnv := by
    rw [LocalFile.isSmall, hlength]
    decide
  obtain ⟨bits, blocks, -, -, -, hblocks, hflat, hne, hmin, hmax, hcount, -⟩ :=
    uploadFile_blocks FileDataStore.storeModel (E := parityEnv) rollTables.crypto_lawful
      emptySession_ok false (ascii "/a.png") hlarge (by rw [hlength]; omega) (by decide) (by decide)
      (by rw [hlength]; decide) (by rw [hlength]; decide)
      (fun _ _ _ _ => (rfl : DefaultFileTransferProgressFunction 0 0 0 0 = true))
  rw [hlength] at hmin hmax
  refine ⟨bits, blocks, hblocks, hflat, ?_, hmin, fun block hblock => ⟨hne block hblock, ?_⟩, hcount⟩
  · -- the first 4096 zeros end a block, and there are more
    have hcut : blocks = zeroPicture.cut parityEnv zeroKeys parityParams := by
      rw [LocalFile.blocks, if_neg hlarge, show chunkParams parityEnv zeroPicture.content.length =
        .ok parityParams by rw [hlength]; exact chunkParams_parity (by omega)] at hblocks
      exact (Prod.mk.inj (Except.ok.inj hblocks)).2.symm
    have hsplit : zeroPicture.content = List.replicate 4096 0 ++ List.replicate 4096 0 := by
      rw [List.replicate_append_replicate]
      rfl
    have hne : List.replicate 4096 (0 : UInt8) ≠ [] := List.cons_ne_nil 0 (List.replicate 4095 0)
    rw [hcut, LocalFile.cut, hsplit]
    exact two_le_cutBlocks feed_zeros hne hne
  · exact hmax block hblock

end Nebula
