/-
What an object id says about the object.

A block is stored under the HMAC of its compression byte and its bytes.  The
id of a pack is a running HMAC: `uploadFile` feeds it every member and
`PackUploadState::addFile` feeds it the same member again, with nothing
between the members and without their compression types.  `RepoObject.fed` is
the string behind the id; two objects whose ids agree have the same string,
and `id_determines_iff` says for which kinds, compression types and lengths
that is enough.
-/
import NebulaBackup.UploadSpecs

namespace Nebula

open EStateM.Result Hoare

/-! ### Filling a pack -/

/-- Put files into the pack, one after the other. -/
def packAll {δ : Type} (E : Env) : List (Bytes × LocalFile) → Command δ Unit
  | [] => return ()
  | (path, f) :: files => do
    let _ ← packFile E path f.info f.content
    packAll E files

/-- The value of an uninitialised `uint32_t`. -/
def uninitUInt32 (E : Env) (i : ℕ) : UInt32 := .ofNat (leNat (bytesFrom E.uninit i 4).toList)

/-- The entries that `addFile` makes: `i` members are there already, and `u`
bytes of uninitialised memory were used. -/
def packInfos (E : Env) : ℕ → ℕ → List (Bytes × LocalFile) → List PackFileInfo
  | _, _, [] => []
  | i, u, (path, f) :: files =>
    packInfo E.C path f.info f.content i (uninitUInt32 E u) :: packInfos E (i + 1) (u + 4) files

theorem packAll_run {δ : Type} {E : Env} : ∀ (files : List (Bytes × LocalFile)) {s : Session δ},
    s.pack.Good s.keys →
    ∃ p u, packAll E files s = ok () { s with pack := p, uninitUsed := u } ∧ p.Good s.keys ∧
      p.fileInfos = s.pack.fileInfos ++ packInfos E s.pack.packData.length s.uninitUsed files ∧
      p.packData = s.pack.packData ++ files.map (fun file => file.2.content) ∧
      (s.pack.rollingHash ≠ none ∨ files ≠ [] → p.rollingHash ≠ none) := by
  intro files
  induction files with
  | nil =>
    intro s hgood
    refine ⟨s.pack, s.uninitUsed, rfl, hgood, by simp [packInfos], by simp, ?_⟩
    rintro (h | h)
    · exact h
    · exact absurd rfl h
  | cons file files ih =>
    intro s hgood
    obtain ⟨path, f⟩ := file
    obtain ⟨w, p, hrun, hinfos, hdata, hopen, hp⟩ := packFile_run (E := E) path f.info f.content hgood
    obtain ⟨p', u, hrun', hp', hinfos', hdata', hopen'⟩ := ih
      (s := { s with pack := p, uninitUsed := s.uninitUsed + 4 }) hp
    refine ⟨p', u, run_step hrun hrun', hp', ?_, ?_, fun _ => hopen' (Or.inl hopen)⟩
    · -- the index of the next member is the number of those before it
      have hlen : p.packData.length = s.pack.packData.length + 1 := by
        rw [hdata, List.length_append, List.length_singleton]
      rw [hinfos']
      show p.fileInfos ++ packInfos E p.packData.length (s.uninitUsed + 4) files = _
      rw [hinfos, hlen, List.append_assoc]
      rfl
    · rw [hdata']
      show p.packData ++ _ = _
      rw [hdata, List.append_assoc]
      rfl

/-! ### The objects of a repository -/

/-- An object that is uploaded: a block, or a pack with at least one member. -/
inductive RepoObject
  | block (t : CompressionType) (data : Bytes)
  | pack (file : Bytes × LocalFile) (files : List (Bytes × LocalFile))

namespace RepoObject

/-- The two kinds of objects. -/
def isPack : RepoObject → Bool
  | block _ _ => false
  | pack _ _ => true

/-- The compression types and contents of the parts. -/
def parts : RepoObject → List (CompressionType × Bytes)
  | block t data => [(t, data)]
  | pack file files => (file :: files).map fun f => (compressionFor f.2.info, f.2.content)

/-- The pack state that `uploadFile` makes of the members, from a fresh one. -/
def packState (E : Env) (keys : RepositoryKeys) (files : List (Bytes × LocalFile)) : PackUploadState :=
  match packAll E files (⟨(), keys, 0, 0, .new, .new⟩ : Session Unit) with
  | ok _ s => s.pack
  | error _ s => s.pack

/-- The id: `computeBlockHMAC`, or the `HMAC_Final` of `finalizePack`. -/
def id (E : Env) (keys : RepositoryKeys) : RepoObject → ObjectID
  | block t data => computeBlockHMAC E keys data t.toByte
  | pack file files => ((packState E keys (file :: files)).hmac.final E.C).1

/-- The string that the HMAC is fed. -/
def fed : RepoObject → Bytes
  | block t data => t.toByte :: data
  | pack file files => (file :: files).flatMap fun f => f.2.content ++ f.2.content

/-- **The id is the HMAC of that string.** -/
theorem id_eq (E : Env) (keys : RepositoryKeys) (o : RepoObject) :
    o.id E keys = E.C.hmacSha256 (keys.mHashKey.toList.take SHA256_DIGEST_LENGTH) o.fed := by
  cases o with
  | block t data => rfl
  | pack file files =>
    obtain ⟨p, u, hrun, hgood, -, hdata, hopen⟩ := packAll_run (E := E) (file :: files)
      (s := (⟨(), keys, 0, 0, .new, .new⟩ : Session Unit)) (PackUploadState.new_good keys)
    have hstate : packState E keys (file :: files) = p := by
      rw [packState, hrun]
    have hfed := hgood.fed (hopen (Or.inr (by simp)))
    rw [hdata] at hfed
    rw [id, hstate, hfed]
    show E.C.hmacSha256 _ (List.flatMap _ ([] ++ List.map _ (file :: files))) = _
    rw [List.nil_append, List.flatMap_map]
    rfl

/-! ### Objects by their shapes -/

/-- What an object looks like without its bytes: its kind, and the compression type
and the length of every part. -/
def shape (o : RepoObject) : Bool × List (CompressionType × ℕ) :=
  (o.isPack, o.parts.map fun p => (p.1, p.2.length))

/-- The number of bytes of all parts. -/
def size (o : RepoObject) : ℕ := (o.parts.map fun p => p.2.length).sum

theorem isPack_of_shape {a b : RepoObject} (h : a.shape = b.shape) : a.isPack = b.isPack :=
  congrArg Prod.fst h

theorem size_of_shape {a b : RepoObject} (h : a.shape = b.shape) : a.size = b.size := by
  have hsize : ∀ o : RepoObject, o.size = (o.shape.2.map Prod.snd).sum := by
    intro o
    rw [size, shape, List.map_map]
    rfl
  rw [hsize, hsize, h]

theorem fed_pack (file : Bytes × LocalFile) (files : List (Bytes × LocalFile)) :
    (pack file files).fed = (pack file files).parts.flatMap fun p => p.2 ++ p.2 := by
  rw [fed, parts, List.flatMap_map]

theorem length_fed_block (t : CompressionType) (data : Bytes) :
    (block t data).fed.length = (block t data).size + 1 := rfl

theorem length_fed_pack (file : Bytes × LocalFile) (files : List (Bytes × LocalFile)) :
    (pack file files).fed.length = 2 * (pack file files).size := by
  have hsum : ∀ l : List (CompressionType × Bytes),
      (l.flatMap fun p => p.2 ++ p.2).length = 2 * (l.map fun p => p.2.length).sum := by
    intro l
    induction l with
    | nil => rfl
    | cons p l ih =>
      rw [List.flatMap_cons, List.length_append, List.length_append, ih, List.map_cons, List.sum_cons]
      ring
  rw [fed_pack, hsum, size]

/-- Parts of the same types and lengths that make the same string are the same, by
induction on them. -/
theorem parts_of_flatMap : ∀ {l l' : List (CompressionType × Bytes)},
    l.map (fun p => (p.1, p.2.length)) = l'.map (fun p => (p.1, p.2.length)) →
    (l.flatMap fun p => p.2 ++ p.2) = (l'.flatMap fun p => p.2 ++ p.2) → l = l' := by
  intro l
  induction l with
  | nil =>
    intro l' hshape _
    exact (List.map_eq_nil_iff.mp hshape.symm).symm
  | cons p l ih =>
    intro l' hshape hfed
    cases l' with
    | nil => exact absurd hshape (by simp)
    | cons p' l' =>
      rw [List.map_cons, List.map_cons, List.cons.injEq, Prod.mk.injEq] at hshape
      obtain ⟨⟨htype, hlen⟩, hrest⟩ := hshape
      rw [List.flatMap_cons, List.flatMap_cons, List.append_assoc, List.append_assoc] at hfed
      obtain ⟨hdata, hfed⟩ := List.append_inj hfed hlen
      rw [hdata] at hfed
      rw [Prod.ext htype hdata, ih hrest (List.append_cancel_left hfed)]

/-- The file with every byte replaced by `b`. -/
def fillFile (b : UInt8) (f : LocalFile) : LocalFile :=
  { f with
    content := List.replicate f.content.length b
    length_eq := by rw [List.length_replicate, f.length_eq] }

/-- The object with every byte replaced by `b`. -/
def filled (b : UInt8) : RepoObject → RepoObject
  | block t data => block t (List.replicate data.length b)
  | pack file files =>
    pack (file.1, fillFile b file.2) (files.map fun f => (f.1, fillFile b f.2))

theorem parts_filled (b : UInt8) (o : RepoObject) :
    (o.filled b).parts = o.parts.map fun p => (p.1, List.replicate p.2.length b) := by
  cases o with
  | block t data => rfl
  | pack file files =>
    rw [filled, parts, parts, List.map_map, List.map_cons, List.map_cons, List.map_map]
    rfl

theorem shape_filled (b : UInt8) (o : RepoObject) : (o.filled b).shape = o.shape := by
  have hpack : (o.filled b).isPack = o.isPack := by
    cases o with
    | block t data => rfl
    | pack file files => rfl
  rw [shape, shape, hpack, parts_filled, List.map_map]
  simp only [Function.comp_def, List.length_replicate]

/-- The compression byte is one more byte of a block that is full of it. -/
theorem fed_filled_block (t : CompressionType) (data : Bytes) :
    ((block t data).filled t.toByte).fed =
      List.replicate ((block t data).size + 1) t.toByte := rfl

/-- Of equal bytes nothing is left but their number. -/
theorem fed_filled_pack (b : UInt8) (file : Bytes × LocalFile) (files : List (Bytes × LocalFile)) :
    ((pack file files).filled b).fed = List.replicate (2 * (pack file files).size) b := by
  rw [← size_of_shape (shape_filled b (pack file files)), filled, ← length_fed_pack]
  refine List.eq_replicate_iff.mpr ⟨rfl, fun x hx => ?_⟩
  rw [fed_pack, ← filled, parts_filled] at hx
  obtain ⟨p, hp, hx⟩ := List.mem_flatMap.mp hx
  obtain ⟨q, -, rfl⟩ := List.mem_map.mp hp
  exact (List.mem_append.mp hx).elim List.eq_of_mem_replicate List.eq_of_mem_replicate

/-- The pairs of shapes that ids keep apart: two blocks; a block and a pack unless
the block with its compression byte is twice as long as the parts of the pack; two
packs whose parts have the same compression types and lengths, or that differ in
their sizes. -/
def Apart (a b : RepoObject) : Prop :=
  match a.isPack, b.isPack with
  | false, false => True
  | false, true => a.size + 1 ≠ 2 * b.size
  | true, false => b.size + 1 ≠ 2 * a.size
  | true, true => a.shape = b.shape ∨ a.size ≠ b.size

/-- Whether a pair is kept apart is a matter of its shapes. -/
theorem Apart.of_shape {a b a' b' : RepoObject} (h : Apart a b) (ha : a'.shape = a.shape)
    (hb : b'.shape = b.shape) : Apart a' b' := by
  rwa [Apart, isPack_of_shape ha, isPack_of_shape hb, size_of_shape ha, size_of_shape hb, ha, hb]

/-- Objects that are kept apart and feed the same string are the same. -/
theorem Apart.eq_of_fed {a b : RepoObject} (h : Apart a b) (hfed : a.fed = b.fed) :
    a.isPack = b.isPack ∧ a.parts = b.parts := by
  cases a with
  | block t data =>
    cases b with
    | block t' data' =>
      -- the compression byte is the first byte
      obtain ⟨ht, hdata⟩ := List.cons.inj hfed
      exact ⟨rfl, by rw [parts, parts, CompressionType.toByte_injective ht, hdata]⟩
    | pack file files =>
      have hlen : (block t data).size + 1 ≠ 2 * (pack file files).size := h
      exact absurd (by rw [← length_fed_block, ← length_fed_pack, hfed]) hlen
  | pack file files =>
    cases b with
    | block t data =>
      have hlen : (block t data).size + 1 ≠ 2 * (pack file files).size := h
      exact absurd (by rw [← length_fed_block, ← length_fed_pack, hfed]) hlen
    | pack file' files' =>
      rcases h with hshape | hsize
      · rw [fed_pack, fed_pack] at hfed
        exact ⟨rfl, parts_of_flatMap (congrArg Prod.snd hshape) hfed⟩
      · refine absurd (Nat.eq_of_mul_eq_mul_left (show 0 < 2 by omega) ?_) hsize
        rw [← length_fed_pack, ← length_fed_pack, hfed]

/-- Where the shapes do not keep two objects apart, there are such objects that
differ and feed the same string: all their bytes are the same. -/
theorem exists_fed_eq {a b : RepoObject} (h : ¬ Apart a b) :
    ∃ a' b' : RepoObject, a'.shape = a.shape ∧ b'.shape = b.shape ∧ a'.fed = b'.fed ∧
      ¬ (a'.isPack = b'.isPack ∧ a'.parts = b'.parts) := by
  cases a with
  | block t data =>
    cases b with
    | block t' data' => exact absurd trivial h
    | pack file files =>
      -- as the bytes are all the compression byte, that byte does not show
      have hlen : (block t data).size + 1 = 2 * (pack file files).size := not_not.mp h
      refine ⟨_, _, shape_filled t.toByte _, shape_filled t.toByte _, ?_, fun hsame => ?_⟩
      · rw [fed_filled_pack, ← hlen]
        exact fed_filled_block t data
      · exact absurd hsame.1 (by simp [filled, isPack])
  | pack file files =>
    cases b with
    | block t data =>
      have hlen : (block t data).size + 1 = 2 * (pack file files).size := not_not.mp h
      refine ⟨_, _, shape_filled t.toByte _, shape_filled t.toByte _, ?_, fun hsame => ?_⟩
      · rw [fed_filled_pack, ← hlen]
        exact (fed_filled_block t data).symm
      · exact absurd hsame.1 (by simp [filled, isPack])
    | pack file' files' =>
      obtain ⟨hshape, hsize⟩ := not_or.mp h
      refine ⟨_, _, shape_filled 0 _, shape_filled 0 _, ?_, fun hsame => hshape ?_⟩
      · rw [fed_filled_pack, fed_filled_pack, not_not.mp hsize]
      · rw [← shape_filled 0 (pack file files), ← shape_filled 0 (pack file' files'), shape, shape,
          hsame.1, hsame.2]

/-- **When ids determine objects.**  Where HMAC-SHA256 does not collide on what it is
fed, equal ids mean the same kind and the same parts for all objects of two shapes
exactly when the shapes are kept apart. -/
theorem id_determines_iff (E : Env) (keys : RepositoryKeys) (a b : RepoObject) :
    (∀ a' b' : RepoObject, a'.shape = a.shape → b'.shape = b.shape →
      Set.InjOn (E.C.hmacSha256 (keys.mHashKey.toList.take SHA256_DIGEST_LENGTH)) {a'.fed, b'.fed} →
      a'.id E keys = b'.id E keys → a'.isPack = b'.isPack ∧ a'.parts = b'.parts) ↔ Apart a b := by
  constructor
  · intro hsame
    by_contra hnot
    obtain ⟨a', b', ha, hb, hfed, hdiffer⟩ := exists_fed_eq hnot
    refine hdiffer (hsame a' b' ha hb ?_ (by rw [id_eq, id_eq, hfed]))
    rw [hfed, Set.pair_eq_singleton]
    exact Set.injOn_singleton _ _
  · intro h a' b' ha hb hinj hid
    rw [id_eq, id_eq] at hid
    exact (h.of_shape ha hb).eq_of_fed (hinj (Set.mem_insert _ _) (Set.mem_insert_of_mem _ rfl) hid)

/-- HMAC-SHA256 under a zero key of the strings that the objects below feed
it. -/
def letterTables : SampleTables where
  hmac := [
    ((List.replicate 32 0, [97, 97, 98, 98]), hexDigest 32
      0x693a0ea19d354bc30dd9f65cbdf15f57793e8b66c30ba7bb20c1492445b39d6c),
    ((List.replicate 32 0, [98, 98, 97, 97]), hexDigest 32
      0x4df132709f9ded9865e22f9b915c87b89655880f906e1612517a22e98b7777e5),
    ((List.replicate 32 0, [1, 97, 98]), hexDigest 32
      0x09da7daccd3e79e391540ef091e144f21ae50727ea4023cddb984bae69bcbf3e),
    ((List.replicate 32 0, [97, 97, 97, 97]), hexDigest 32
      0x44e9b3ca26bf48171368486da0c27084418595282000fb0f9afb2eb88e335365),
    ((List.replicate 32 0, [1, 1]), hexDigest 32
      0x04ad560ae4ce37c3251a5a3b732b030ef9cd3e9e8048e5ceef62f4be9f3bb74b)]

/-- The pack of `a` and `b`. -/
def packAB : RepoObject := pack (ascii "a.png", letterPicture) [(ascii "b.png", picture [98] (by decide))]

/-- The same files in the other order. -/
def packBA : RepoObject := pack (ascii "b.png", picture [98] (by decide)) [(ascii "a.png", letterPicture)]

/-- Their ids differ, since their parts have the same lengths; and so do those of
the first one and the block `ab`, of an even length. -/
theorem id_determines_iff_letters :
    packAB.id (zeroEnv letterTables.crypto) zeroKeys ≠ packBA.id (zeroEnv letterTables.crypto) zeroKeys ∧
    (block .LZMA2 [97, 98]).id (zeroEnv letterTables.crypto) zeroKeys ≠
      packAB.id (zeroEnv letterTables.crypto) zeroKeys := by
  constructor
  · intro hid
    have hinj : Set.InjOn ((zeroEnv letterTables.crypto).C.hmacSha256
        (zeroKeys.mHashKey.toList.take SHA256_DIGEST_LENGTH)) {packAB.fed, packBA.fed} := by
      rintro x (rfl | rfl) y (rfl | rfl) hxy
      · rfl
      · exact absurd hxy (by decide +kernel)
      · exact absurd hxy (by decide +kernel)
      · rfl
    have h := (id_determines_iff (zeroEnv letterTables.crypto) zeroKeys packAB packBA).mpr
      (show packAB.shape = packBA.shape ∨ packAB.size ≠ packBA.size from Or.inl rfl) packAB packBA
      rfl rfl hinj hid
    exact absurd h.2 (by decide +kernel)
  · intro hid
    have hinj : Set.InjOn ((zeroEnv letterTables.crypto).C.hmacSha256
        (zeroKeys.mHashKey.toList.take SHA256_DIGEST_LENGTH))
        {(block .LZMA2 [97, 98]).fed, packAB.fed} := by
      rintro x (rfl | rfl) y (rfl | rfl) hxy
      · rfl
      · exact absurd hxy (by decide +kernel)
      · exact absurd hxy (by decide +kernel)
      · rfl
    have h := (id_determines_iff (zeroEnv letterTables.crypto) zeroKeys (block .LZMA2 [97, 98])
      packAB).mpr (show 2 + 1 ≠ 2 * 2 by omega) (block .LZMA2 [97, 98]) packAB rfl rfl hinj hid
    exact absurd h.1 (by decide)

/-- A pack of two pictures `a` and a pack of one picture `aa` share an id, and
so do the block of the byte 1, compressed, and the pack of a picture with the
byte 1: the HMAC, which does not collide on these strings, is fed the same. -/
theorem id_shared :
    Set.InjOn ((zeroEnv letterTables.crypto).C.hmacSha256
      (zeroKeys.mHashKey.toList.take SHA256_DIGEST_LENGTH)) {[97, 97, 97, 97], [1, 1]} ∧
    ¬ ((pack (ascii "a.png", picture [97] (by decide)) [(ascii "b.png", picture [97] (by decide))]).id
          (zeroEnv letterTables.crypto) zeroKeys =
        (pack (ascii "a.png", picture [97, 97] (by decide)) []).id (zeroEnv letterTables.crypto) zeroKeys →
      (pack (ascii "a.png", picture [97] (by decide)) [(ascii "b.png", picture [97] (by decide))]).parts =
        (pack (ascii "a.png", picture [97, 97] (by decide)) []).parts) ∧
    ¬ ((block .LZMA2 [1]).id (zeroEnv letterTables.crypto) zeroKeys =
        (pack (ascii "a.png", picture [1] (by decide)) []).id (zeroEnv letterTables.crypto) zeroKeys →
      (block .LZMA2 [1]).isPack = (pack (ascii "a.png", picture [1] (by decide)) []).isPack) := by
  refine ⟨?_, ?_, ?_⟩
  · rintro x (rfl | rfl) y (rfl | rfl) hxy
    · rfl
    · exact absurd hxy (by decide +kernel)
    · exact absurd hxy (by decide +kernel)
    · rfl
  · intro h
    refine absurd (h ?_) (by decide +kernel)
    rw [id_eq, id_eq]
    rfl
  · intro h
    refine absurd (h ?_) (by decide +kernel)
    rw [id_eq, id_eq]
    rfl

end RepoObject

end Nebula
