/-
The offsets of a pack.

`finalizePack` counts the bytes of a pack in 32 bits, and the only thing that
ends a pack is the rolling hash.  A member takes `objectSize` bytes, which
depends on its contents and its compression alone.

* `packOffsets_iff` — in every run, on every store, wherever the pack is
  flushed: the running offset is the true one, also behind the last member,
  exactly as long as all members take less than 2^32 bytes; the recorded offsets
  are, as long as the members before the last one do.
* `packOffsets_wrap` — files of zeros need not end a pack, and 8389 of them make
  the offsets wrap.
-/
import NebulaBackup.PackRetry
import NebulaBackup.Download
import NebulaBackup.Chunking

namespace Nebula

open EStateM.Result Hoare

/-! ### Sizes and places -/

/-- What the members of the pack will take. -/
def PackUploadState.sizes (C : Crypto) (p : PackUploadState) : List ℕ :=
  (p.fileInfos.zip p.packData).map fun m => objectSize C m.1.compression m.2

/-- Where objects of the given sizes start when they stand one after the other. -/
def starts : ℕ → List ℕ → List ℕ
  | _, [] => []
  | start, size :: sizes => start :: starts (start + size) sizes

/-- The values of the running offset of `finalizePack`, the last one behind the last
member. -/
def runningOffsets (offset : UInt32) (sizes : List ℕ) : List UInt32 :=
  sizes.scanl (fun offset size => offset + UInt32.ofNat size) offset

/-- The sums that they stand for. -/
def trueOffsets (offset : ℕ) (sizes : List ℕ) : List ℕ := sizes.scanl (· + ·) offset

/-- The sealed members have the sizes that their contents tell. -/
theorem SealedMembers.sizes {C : Crypto} (hC : C.Lawful) {keys : RepositoryKeys}
    {fileInfos : List PackFileInfo} {packData objects : List Bytes}
    (h : SealedMembers C keys fileInfos packData objects) :
    objects.map List.length =
      (fileInfos.zip packData).map fun m => objectSize C m.1.compression m.2 := by
  rw [SealedMembers] at h
  generalize fileInfos.zip packData = members at h ⊢
  induction h with
  | nil => rfl
  | cons hfirst _ ih =>
    obtain ⟨iv, rfl⟩ := hfirst
    rw [List.map_cons, List.map_cons, ih]
    exact congrArg (· :: _) (sealedWith_length hC)

/-- The offsets in 32 bits, by induction on the members: the first one that
does not fit is wrong, and it fits if everything before it does. -/
theorem laidOut_starts_iff : ∀ {fileInfos : List PackFileInfo} {objects : List Bytes}
    (offset : UInt32), fileInfos.length = objects.length →
      ((laidOut fileInfos objects offset).map (·.offset.toNat) =
          starts offset.toNat (objects.map List.length) ↔
        offset.toNat + ((objects.map List.length).dropLast).sum < 2 ^ 32) := by
  intro fileInfos
  induction fileInfos with
  | nil =>
    intro objects offset hlen
    obtain rfl := List.length_eq_zero_iff.mp hlen.symm
    have hlt := offset.toNat_lt
    simp only [laidOut, List.map_nil, starts, List.dropLast_nil, List.sum_nil, Nat.add_zero, true_iff]
    exact hlt
  | cons fi fileInfos ih =>
    intro objects offset hlen
    cases objects with
    | nil => exact absurd hlen (by simp)
    | cons object objects =>
      have hlen' : fileInfos.length = objects.length := by simpa using hlen
      have hlt := offset.toNat_lt
      rw [laidOut, List.map_cons, List.map_cons, starts, List.cons.injEq]
      cases objects with
      | nil =>
        -- nothing stands after the last member, so its size does not matter
        obtain rfl := List.length_eq_zero_iff.mp hlen'
        simpa [laidOut, starts] using hlt
      | cons object' objects =>
        have hnext : (offset + UInt32.ofNat object.length).toNat =
            (offset.toNat + object.length) % 2 ^ 32 := by
          rw [UInt32.toNat_add, UInt32.toNat_ofNat', Nat.add_mod_mod]
        have hsum : (object.length :: (object' :: objects).map List.length).dropLast.sum =
            object.length + ((object' :: objects).map List.length).dropLast.sum := rfl
        rw [hsum]
        by_cases hfit : offset.toNat + object.length < 2 ^ 32
        · have hrest := ih (offset + UInt32.ofNat object.length) hlen'
          rw [hnext, Nat.mod_eq_of_lt hfit] at hrest
          rw [hrest]
          simp only [true_and]
          omega
        · -- the second member starts at a number that has no room in 32 bits
          have hno : ¬ offset.toNat +
              (object.length + ((object' :: objects).map List.length).dropLast.sum) < 2 ^ 32 := by
            omega
          refine ⟨fun h => ?_, fun h => absurd h hno⟩
          cases fileInfos with
          | nil => exact absurd hlen' (by simp)
          | cons fi' fileInfos =>
            have hsecond : (offset + UInt32.ofNat object.length).toNat =
                offset.toNat + object.length := (List.cons.inj h.2).1
            have hmod : (offset + UInt32.ofNat object.length).toNat < 2 ^ 32 :=
              (offset + UInt32.ofNat object.length).toNat_lt
            omega

/-- The running offset is recorded before it goes on. -/
theorem laidOut_offsets : ∀ {fileInfos : List PackFileInfo} {objects : List Bytes}
    (offset : UInt32), fileInfos.length = objects.length →
      (laidOut fileInfos objects offset).map (·.offset) =
        (runningOffsets offset (objects.map List.length)).dropLast := by
  intro fileInfos
  induction fileInfos with
  | nil =>
    intro objects offset hlen
    obtain rfl := List.length_eq_zero_iff.mp hlen.symm
    rfl
  | cons fi fileInfos ih =>
    intro objects offset hlen
    cases objects with
    | nil => exact absurd hlen (by simp)
    | cons object objects =>
      have hrest := ih (offset + .ofNat object.length) (by simpa using hlen)
      rw [laidOut, List.map_cons, hrest, List.map_cons, runningOffsets, runningOffsets,
        List.scanl_cons, List.dropLast_cons_of_ne_nil List.scanl_ne_nil]

/-- **The running offset is the true one** as long as the last sum fits, by induction on
the members. -/
theorem runningOffsets_iff : ∀ (sizes : List ℕ) (offset : UInt32),
    (runningOffsets offset sizes).map UInt32.toNat = trueOffsets offset.toNat sizes ↔
      offset.toNat + sizes.sum < 2 ^ 32 := by
  intro sizes
  induction sizes with
  | nil =>
    intro offset
    have hlt := offset.toNat_lt
    simp only [runningOffsets, trueOffsets, List.scanl_nil, List.map_cons, List.map_nil, List.sum_nil,
      Nat.add_zero, true_iff]
    exact hlt
  | cons size sizes ih =>
    intro offset
    have hnext : (offset + UInt32.ofNat size).toNat = (offset.toNat + size) % 2 ^ 32 := by
      rw [UInt32.toNat_add, UInt32.toNat_ofNat', Nat.add_mod_mod]
    rw [runningOffsets, trueOffsets, List.scanl_cons, List.scanl_cons, List.map_cons, List.cons.injEq,
      List.sum_cons]
    by_cases hfit : offset.toNat + size < 2 ^ 32
    · have hrest := ih (offset + UInt32.ofNat size)
      rw [hnext, Nat.mod_eq_of_lt hfit] at hrest
      rw [← Nat.add_assoc, ← hrest, runningOffsets, trueOffsets]
      exact and_iff_right rfl
    · -- the next value has no room in 32 bits
      refine ⟨fun h => ?_, fun h => absurd h (by omega)⟩
      have hhead := congrArg List.head? h.2
      rw [List.head?_map, List.head?_scanl, List.head?_scanl, Option.map_some, Option.some.injEq,
        hnext] at hhead
      have := Nat.mod_lt (offset.toNat + size) (show 0 < 2 ^ 32 by omega)
      omega

/-! ### Where a pack is flushed -/

section Runs

variable {δ : Type} [DataStore δ] {E : Env}

/-- The sessions in which `finalizePack` lays out a pack: after some calls, or
in the middle of an upload that the rolling hash tells to write the pack. -/
inductive FlushPoint (E : Env) (s₀ : Session δ) : Session δ → Prop
  | finalize {ops : List UploadOp} {s : Session δ} (h : runUploads E ops s₀ = ok () s) :
    FlushPoint E s₀ s
  | full {ops : List UploadOp} {s s' : Session δ} {normalizedPath : Bytes} {fileInfo : FileInfo}
    {buffer : Bytes} (h : runUploads E ops s₀ = ok () s)
    (hfull : packFile E normalizedPath fileInfo buffer s = ok true s') : FlushPoint E s₀ s'

theorem FlushPoint.collected {s₀ s : Session δ} (h : FlushPoint E s₀ s) (hnew : s₀.pack = .new) :
    s.pack.Collected s.keys := by
  cases h with
  | finalize hrun => exact (runUploads_collected _ hnew hrun).2
  | @full ops s₁ _ normalizedPath fileInfo buffer hrun hfull =>
    have hs₁ := (runUploads_collected _ hnew hrun).2
    have hkeep := packFile_keepsPack (E := E) normalizedPath fileInfo buffer s₁ ⟨rfl, hs₁⟩
    rw [hfull] at hkeep
    exact hkeep.1.symm ▸ hkeep.2

theorem holds_sizes {streams : List EncryptedHMACStream} {objects : List Bytes}
    (h : List.Forall₂ Holds streams objects) :
    streams.map (fun i => (InputStream.size i).toNat) = objects.map List.length := by
  induction h with
  | nil => rfl
  | cons hfirst _ ih =>
    rw [List.map_cons, List.map_cons, ih, RewindableStream.size_eq hfirst, Int.toNat_natCast]

/-- **When the offsets are right.**  Wherever a run flushes the pack, the loop
of `finalizePack` records its running offset, which is the true sum at every member and
behind the last one exactly if all members together take less than 2^32 bytes; what is
recorded is true exactly if all but the last one do. -/
theorem packOffsets_iff (hC : E.C.Lawful) {s₀ s : Session δ} (hnew : s₀.pack = .new)
    (hs : FlushPoint E s₀ s) (t : Session δ) :
    ∃ infos streams t', layoutPack E s.pack.fileInfos s.pack.packData 0 t =
        ok (infos, streams) t' ∧
      streams.map (fun i => (InputStream.size i).toNat) = s.pack.sizes E.C ∧
      infos.map (·.offset) = (runningOffsets 0 (s.pack.sizes E.C)).dropLast ∧
      ((runningOffsets 0 (s.pack.sizes E.C)).map UInt32.toNat = trueOffsets 0 (s.pack.sizes E.C) ↔
        (s.pack.sizes E.C).sum < 2 ^ 32) ∧
      (infos.map (·.offset.toNat) = starts 0 (s.pack.sizes E.C) ↔
        (s.pack.sizes E.C).dropLast.sum < 2 ^ 32) := by
  have hlen := (hs.collected hnew).lengths
  obtain ⟨objects, streams, n, hlayout, hholds, hsealed⟩ :=
    layoutPack_run (E := E) hC s.pack.fileInfos s.pack.packData 0 t hlen
  have hsizes : objects.map List.length = s.pack.sizes E.C := hsealed.sizes hC
  have hobjects := hsealed.objects_length hlen
  have hoffsets := laidOut_offsets (0 : UInt32) hobjects
  have hiff := laidOut_starts_iff (0 : UInt32) hobjects
  have hrunning := runningOffsets_iff (s.pack.sizes E.C) 0
  rw [hsizes] at hoffsets
  rw [hsizes, show (0 : UInt32).toNat = 0 from rfl, Nat.zero_add] at hiff
  rw [show (0 : UInt32).toNat = 0 from rfl, Nat.zero_add] at hrunning
  exact ⟨_, streams, _, hlayout, (holds_sizes hholds).trans hsizes, hoffsets, hrunning, hiff⟩

/-! ### Files of zeros -/

open RollingHash

/-- Zeros leave a window of zeros as it is, and do not end a pack if its hash does
not. -/
theorem rollAll_zeros {table : List UInt32}
    (hwindow : windowHash table (List.replicate 8192 0) &&& (2 ^ 20 - 1) ≠ 0) : ∀ (n : ℕ)
    {h : RollingHash}, Rep table (List.replicate 8192 0) h →
      (Nebula.rollAll h (List.replicate n 0)).1 = false ∧
        Rep table (List.replicate 8192 0) (Nebula.rollAll h (List.replicate n 0)).2 := by
  intro n
  induction n with
  | zero =>
    intro h hrep
    exact ⟨rfl, hrep⟩
  | succ n ih =>
    intro h hrep
    obtain ⟨h', hroll, hrep'⟩ := roll_rep hrep 0
    have hslide : (List.replicate 8192 (0 : UInt8)).tail ++ [0] = List.replicate 8192 0 := by
      rw [List.tail_replicate, ← List.replicate_succ']
    rw [hslide] at hroll hrep'
    obtain ⟨hstay, hrest⟩ := ih hrep'
    rw [List.replicate_succ, Nebula.rollAll, hroll]
    refine ⟨?_, hrest⟩
    simp only [hstay, Bool.or_false, decide_eq_false hwindow]

/-- A picture of zeros. -/
def zerosPicture (n : ℕ) (h : n < 2 ^ 64) : LocalFile :=
  picture (List.replicate n 0) (by rwa [List.length_replicate])

/-- The upload of a picture of zeros with the given number. -/
def numberedUpload (n : ℕ) (h : n < 2 ^ 64) (i : ℕ) : UploadOp :=
  .uploadPacked (ascii s!"/{i}.png") (zerosPicture n h).info (.openRead (zerosPicture n h).content)
    DefaultFileTransferProgressFunction

/-- Where the hash of zeros does not end a pack, pictures of zeros stay in it. -/
theorem numberedUploads_run {n : ℕ} (hn : n < 2 ^ 64) (hsmall : (zerosPicture n hn).isSmall E)
    {keys : RepositoryKeys}
    (hwindow : windowHash (subTable E.C keys.mRollKey.toList) (List.replicate 8192 0) &&&
      (2 ^ 20 - 1) ≠ 0) : ∀ (l : List ℕ) {s : Session δ}, s.keys = keys → s.pack.Collected keys →
    (∀ r, (s.pack.open E.C keys).rollingHash = some r →
      Rep (subTable E.C keys.mRollKey.toList) (List.replicate 8192 0) r) →
    ∃ s', runUploads E (l.map (numberedUpload n hn)) s = ok () s' ∧
      s'.pack.sizes E.C = s.pack.sizes E.C ++ List.replicate l.length (48 + (n / 16 + 1) * 16) := by
  intro l
  induction l with
  | nil =>
    intro s _ _ _
    exact ⟨s, rfl, by simp⟩
  | cons i l ih =>
    intro s hkeys hs hrep
    subst hkeys
    obtain ⟨p, hrun, hp, hopen, hinfos, hdata, -, hroll⟩ := uploadSmall_packed hsmall
      (ascii s!"/{i}.png") (show DefaultFileTransferProgressFunction 0 1 0 0 = true from rfl) hs
      fun r hr => (rollAll_zeros hwindow n (hrep r hr)).1
    have hrep' : ∀ r, (p.open E.C s.keys).rollingHash = some r →
        Rep (subTable E.C s.keys.mRollKey.toList) (List.replicate 8192 0) r := by
      obtain ⟨r₀, hr₀, -⟩ := hs.open E.C
      have hp' := hroll r₀ hr₀
      intro r hr
      rw [PackUploadState.open, hp'] at hr
      have hr' : p.rollingHash = some r := hr
      rw [Option.some.inj (hr'.symm.trans hp')]
      exact (rollAll_zeros hwindow n (hrep r₀ hr₀)).2
    obtain ⟨s', hrun', hsizes⟩ := ih (s := { s with pack := p, uninitUsed := s.uninitUsed + 4 }) rfl
      hp hrep'
    refine ⟨s', run_step (attempt_ok hrun) hrun', ?_⟩
    -- 32 bytes of HMAC, 16 of IV and the padded zeros
    have hone : p.sizes E.C = s.pack.sizes E.C ++ [48 + (n / 16 + 1) * 16] := by
      have hcomp : compressionFor (zerosPicture n hn).info = .NoCompression := by
        show compressionFor (picture [] (by decide)).info = .NoCompression
        decide +kernel
      have hsize : objectSize E.C (compressionFor (zerosPicture n hn).info) (zerosPicture n hn).content =
          48 + (n / 16 + 1) * 16 := by
        rw [hcomp, objectSize, payload, show (zerosPicture n hn).content.length = n from
          List.length_replicate]
      rw [PackUploadState.sizes, hinfos, hdata, List.zip_append hs.lengths, List.map_append]
      exact congrArg (fun n => _ ++ [n]) hsize
    rw [hsizes]
    show p.sizes E.C ++ _ = _
    rw [hone, List.append_assoc, List.length_cons, List.replicate_succ]
    rfl

end Runs

open RollingHash in
/-- The hash of zeros depends on the first entry of the table only. -/
theorem initialHash_congr {table table' : List UInt32} (h : table.getD 0 0 = table'.getD 0 0)
    (n : ℕ) : initialHash table n = initialHash table' n := by
  induction n with
  | zero => rfl
  | succ n ih => rw [initialHash, initialHash, ih, h]

open RollingHash in
/-- Under a zero key the hash of zeros does not end a pack. -/
theorem zeros_window : windowHash (subTable rollTables.crypto zeroKeys.mRollKey.toList)
    (List.replicate 8192 0) &&& (2 ^ 20 - 1) ≠ 0 := by
  have hfirst : (subTable rollTables.crypto zeroKeys.mRollKey.toList).getD 0 0 =
      [(0x16a6b02d : UInt32)].getD 0 0 := by
    decide +kernel
  rw [← initialHash_eq, initialHash_congr hfirst]
  decide +kernel

/-- A run from an empty directory under zero keys. -/
theorem numberedUploads_zero {n : ℕ} (hn : n < 2 ^ 64) (hsmall : n < 512000) (l : List ℕ) :
    ∃ s, runUploads (zeroEnv rollTables.crypto) (l.map (numberedUpload n hn)) emptySession = ok () s ∧
      s.pack.sizes (zeroEnv rollTables.crypto).C =
        List.replicate l.length (48 + (n / 16 + 1) * 16) := by
  have hfile : (zerosPicture n hn).isSmall (zeroEnv rollTables.crypto) := by
    rw [LocalFile.isSmall, show (zerosPicture n hn).content.length = n from List.length_replicate]
    exact hsmall
  exact numberedUploads_run (E := zeroEnv rollTables.crypto) hn hfile zeros_window l
    (s := emptySession) rfl (PackUploadState.new_collected _) fun r hr =>
      Option.some.inj hr ▸ RollingHash.new_rep _ _ (by omega)

/-- Two pictures of 100 zeros stand at 0 and at 160, and the offset goes on to 320. -/
theorem packOffsets_iff_pictures :
    ∃ s infos streams t,
      runUploads (zeroEnv rollTables.crypto) ([0, 1].map (numberedUpload 100 (by omega))) emptySession =
        ok () s ∧
      layoutPack (zeroEnv rollTables.crypto) s.pack.fileInfos s.pack.packData 0 s =
        ok (infos, streams) t ∧
      infos.map (·.offset.toNat) = [0, 160] ∧
      (runningOffsets 0 (s.pack.sizes (zeroEnv rollTables.crypto).C)).map UInt32.toNat =
        [0, 160, 320] := by
  obtain ⟨s, hrun, hsizes⟩ := numberedUploads_zero (n := 100) (by omega) (by omega) [0, 1]
  obtain ⟨infos, streams, t, hlayout, -, -, hrunning, hiff⟩ := packOffsets_iff
    rollTables.crypto_lawful rfl (.finalize hrun) s
  have hboth : s.pack.sizes (zeroEnv rollTables.crypto).C = [160, 160] := hsizes
  rw [hboth] at hiff hrunning
  refine ⟨s, infos, streams, t, hrun, hlayout, hiff.mpr (by decide), ?_⟩
  rw [hboth]
  exact hrunning.mpr (by decide)

/-- **The offsets wrap.**  8389 pictures of 511999 zeros, which do not end the pack
under a zero key, take 512048 bytes each, and the recorded offsets are not the sums
of the sizes before. -/
theorem packOffsets_wrap :
    ∃ s infos streams t,
      runUploads (zeroEnv rollTables.crypto)
        ((List.range 8389).map (numberedUpload 511999 (by omega))) emptySession = ok () s ∧
      layoutPack (zeroEnv rollTables.crypto) s.pack.fileInfos s.pack.packData 0 s =
        ok (infos, streams) t ∧
      infos.map (·.offset.toNat) ≠
        starts 0 (streams.map fun i => (InputStream.size i).toNat) := by
  obtain ⟨s, hrun, hsizes⟩ := numberedUploads_zero (n := 511999) (by omega) (by omega)
    (List.range 8389)
  obtain ⟨infos, streams, t, hlayout, hstreams, -, -, hiff⟩ := packOffsets_iff
    rollTables.crypto_lawful rfl (.finalize hrun) s
  refine ⟨s, infos, streams, t, hrun, hlayout, ?_⟩
  rw [hstreams]
  intro heq
  -- all but the last one take 8388 * 512048 bytes
  have hsum := hiff.mp heq
  rw [hsizes, List.length_range, List.dropLast_replicate, List.sum_replicate, smul_eq_mul] at hsum
  omega

end Nebula
