/-
`unlockRepository` on whatever stands at `/key`.

`KeyFile` is about files that `writeRepositoryKey` made; here the bytes that
the store delivers are arbitrary.  The reads after the header are not checked,
so salt, key block and HMAC may end in bytes of uninitialised memory
(`StartsWith`).  Once the HMAC has been accepted nothing fails any more: of the
288 bytes the first 16 are the IV, and from the 17 blocks behind it the cipher
releases 16 on update, which are the four keys (`decryptKeys_all`).  Main
result:

* `unlockRepository_allOrNothing` — all four keys are replaced, or none.
-/
import NebulaBackup.KeyFile

namespace Nebula

open EStateM.Result Hoare

/-- What the cipher releases, before it is finalised, from a key block: an IV
and the ciphertext behind it. -/
def keyBlock (C : Crypto) (derivedKey encKeyData : Bytes) : Bytes :=
  (Cbc.decUpdate (C.cipher derivedKey) (.init (encKeyData.take EVP_MAX_IV_LENGTH))
    (encKeyData.drop EVP_MAX_IV_LENGTH)).2

/-- An array that the bytes `d` were read into: it starts with them, as far as
they go. -/
def StartsWith {n : ℕ} (a : Digest n) (d : Bytes) : Prop := d.take n <+: a.toList

theorem overwrite_startsWith {n : ℕ} (old : Digest n) (d : Bytes) :
    StartsWith (overwrite old (d.take n)) d := by
  show d.take n <+: (d.take n ++ old.toList.drop (d.take n).length).take n
  have hlen : (d.take n).length ≤ n := by
    rw [List.length_take]
    omega
  rw [List.take_append, List.take_of_length_le hlen]
  exact List.prefix_append _ _

/-! ### The key block -/

section KeyBlock

variable {E : Env} (hC : E.C.Lawful) (derivedKey : Bytes) (encKeyData : Digest ENC_KEYS_LENGTH)
include hC

/-- The key block is four keys long, whatever it was read from. -/
theorem keyBlock_length : (keyBlock E.C derivedKey encKeyData.toList).length =
    EVP_MAX_KEY_LENGTH * 4 := by
  have hlen : encKeyData.toList.length = 288 := encKeyData.toList_length
  have hiv : (encKeyData.toList.take EVP_MAX_IV_LENGTH).length = EVP_MAX_IV_LENGTH := by
    rw [List.length_take, hlen]
    rfl
  rw [keyBlock, Cbc.decUpdate_blocks_length (n := 16) (hC.cipher_lawful _) (hC.iv_length _ hiv),
    hC.cipher_size]
  · rfl
  · rw [List.length_drop, hlen, hC.cipher_size]
    rfl

omit hC in
/-- A key that the reader releases. -/
theorem DecryptedInputStream.Releases.read_key {σ : Type} [InputStream σ] {R : σ → Bytes → Prop}
    (hR : Source R) {d : DecryptedInputStream σ} {r : Bytes} (h : Releases R d r) {n : ℕ}
    (hn : n ≤ r.length) :
    ∃ (k : Digest n) (d' : DecryptedInputStream σ), k.toList = r.take n ∧
      InputStream.read d n = ok k.toList d' ∧ Releases R d' (r.drop n) := by
  obtain ⟨d', hread, hd'⟩ := read_releases hR h hn
  exact ⟨⟨r.take n, by rw [List.length_take, min_eq_left hn]⟩, d', rfl, hread, hd'⟩

omit hC in
/-- The constructor reads the IV, and the reader then releases the key block. -/
theorem DecryptedInputStream.new_releases : ∃ d : DecryptedInputStream MemoryInputStream,
    DecryptedInputStream.new (encKeyData.toList.length + 3) (MemoryInputStream.new encKeyData.toList)
        (E.C.cipher derivedKey) = ok () d ∧
      Releases (RewindableStream.Rep encKeyData.toList) d
        (keyBlock E.C derivedKey encKeyData.toList) := by
  have hlen : encKeyData.toList.length = 288 := encKeyData.toList_length
  set c := encKeyData.toList
  have hR : Source (RewindableStream.Rep c : MemoryInputStream → Bytes → Prop) :=
    RewindableStream.source c
  obtain ⟨i, hiv, hi⟩ := hR.read_ok (MemoryInputStream.new_holds c) EVP_MAX_IV_LENGTH
  have hivlen : (c.take EVP_MAX_IV_LENGTH).length = EVP_MAX_IV_LENGTH := by
    rw [List.length_take, hlen]
    rfl
  refine ⟨⟨i, E.C.cipher derivedKey, .init (c.take EVP_MAX_IV_LENGTH), [], false, c.length + 3⟩,
    ?_, _, hi, rfl, ?_⟩
  · rw [DecryptedInputStream.new, hiv]
    exact if_neg (fun hne => hne hivlen)
  · show (c.drop EVP_MAX_IV_LENGTH).length < c.length + 3
    rw [List.length_drop]
    omega

/-- **The four reads cannot fail** and replace the four keys. -/
theorem decryptKeys_all {δ : Type} (s : Session δ) :
    ∃ keys : RepositoryKeys, keys.bytes = keyBlock E.C derivedKey encKeyData.toList ∧
      decryptKeys E derivedKey encKeyData.toList s = ok () { s with keys := keys } := by
  have hblock := keyBlock_length hC derivedKey encKeyData
  have hR : Source (RewindableStream.Rep encKeyData.toList : MemoryInputStream → Bytes → Prop) :=
    RewindableStream.source _
  obtain ⟨d, hnew, hd⟩ := DecryptedInputStream.new_releases (E := E) derivedKey encKeyData
  -- each of the four reads takes a key off the block
  rw [EVP_MAX_KEY_LENGTH] at hblock
  set r := keyBlock E.C derivedKey encKeyData.toList
  obtain ⟨k₁, d₁, hk₁, h₁, hd₁⟩ := hd.read_key hR (n := EVP_MAX_KEY_LENGTH)
    (by rw [EVP_MAX_KEY_LENGTH]; omega)
  obtain ⟨k₂, d₂, hk₂, h₂, hd₂⟩ := hd₁.read_key hR (n := EVP_MAX_KEY_LENGTH)
    (by simp only [EVP_MAX_KEY_LENGTH, List.length_drop]; omega)
  obtain ⟨k₃, d₃, hk₃, h₃, hd₃⟩ := hd₂.read_key hR (n := EVP_MAX_KEY_LENGTH)
    (by simp only [EVP_MAX_KEY_LENGTH, List.length_drop]; omega)
  obtain ⟨k₄, d₄, hk₄, h₄, -⟩ := hd₃.read_key hR (n := EVP_MAX_KEY_LENGTH)
    (by simp only [EVP_MAX_KEY_LENGTH, List.length_drop]; omega)
  refine ⟨⟨k₁, k₂, k₃, k₄⟩, ?_, ?_⟩
  · have hlast : k₄.toList = ((r.drop 64).drop 64).drop 64 := by
      rw [hk₄]
      refine List.take_of_length_le ?_
      simp only [EVP_MAX_KEY_LENGTH, List.length_drop]
      omega
    show k₁.toList ++ (k₂.toList ++ (k₃.toList ++ k₄.toList)) = r
    rw [hk₁, hk₂, hk₃, hlast]
    show r.take 64 ++ ((r.drop 64).take 64 ++ (((r.drop 64).drop 64).take 64 ++
      ((r.drop 64).drop 64).drop 64)) = r
    simp only [List.take_append_drop]
  · rw [decryptKeys]
    simp only [hnew]
    rw [readKeys]
    refine run_step (onStream_run (p := fun i => InputStream.read i _) h₁ _) (run_step rfl ?_)
    refine run_step (onStream_run (p := fun i => InputStream.read i _) h₂ _) (run_step rfl ?_)
    refine run_step (onStream_run (p := fun i => InputStream.read i _) h₃ _) (run_step rfl ?_)
    refine run_step (onStream_run (p := fun i => InputStream.read i _) h₄ _) ?_
    show ok () { s with keys := ⟨overwrite _ _, overwrite _ _, overwrite _ _, overwrite _ _⟩ } = _
    simp only [overwrite_full]

end KeyBlock

/-! ### The file -/

/-- The header is read whole or an exception is thrown. -/
theorem readKeyHeader_parses {σ : Type} [InputStream σ] {R : σ → Bytes → Prop} (hR : Source R)
    (c : Bytes) : Parses R c readKeyHeader fun rounds r =>
      rounds = leNat ((c.drop 20).take 4) ∧ r = c.drop 24 := by
  refine (expect_parses hR c 12).bind fun magic r hmagic => ?_
  split
  · exact Parses.throw _ _
  · refine (readType_parses hR r 4).bind fun version r' hversion => ?_
    split
    · exact Parses.throw _ _
    · refine (readType_parses hR r' 4).bind fun algorithm r'' halgorithm => ?_
      split
      · exact Parses.throw _ _
      · refine (readType_parses hR r'' 4).bind fun rounds r''' hrounds => ?_
        split
        · exact Parses.throw _ _
        · obtain ⟨-, rfl, -⟩ := hmagic
          obtain ⟨-, rfl, -⟩ := hversion
          obtain ⟨-, rfl, -⟩ := halgorithm
          obtain ⟨rfl, rfl, -⟩ := hrounds
          refine Parses.pure ⟨?_, ?_⟩ <;> simp only [List.drop_drop]

/-- A read into an array, of which only the start is known to be set. -/
theorem readArray_any {σ δ : Type} [InputStream σ] {R : σ → Bytes → Prop} (hR : Source R)
    (E : Env) (n : ℕ) {i : σ} {r : Bytes} (hi : R i r) (s : Session δ) :
    ∃ a i', readArray E n i s = ok (a, i') { s with uninitUsed := s.uninitUsed + n } ∧
      StartsWith a r ∧ R i' (r.drop n) := by
  obtain ⟨i', hread, hi'⟩ := hR.read_ok hi n
  refine ⟨overwrite (bytesFrom E.uninit s.uninitUsed n) (r.take n), i', ?_,
    overwrite_startsWith _ _, hi'⟩
  refine run_step rfl ?_
  exact run_step (onStream_run (p := fun i => InputStream.read i n) hread _) rfl

/-- A store that has the file and a `progress` that never cancels: the temporary
file holds what the store has. -/
theorem get_content {δ : Type} [DataStore δ] (M : StoreModel δ) {d d' : δ} {p c : Bytes}
    {progress : ProgressFunction} {o : TempFileStream} (hd : M.Ok d) (hp : Path.isSep p 0 = true)
    (hc : M.contents d p = some c) (hprog : ∀ i j, progress i j = true)
    (hget : DataStore.get d p TempFileStream.new progress = ok () (d', o)) : o.content = c := by
  obtain ⟨e, o', hget', -, -, ho'⟩ := M.get_ok hd hp hc TempFileStream.sink
    TempFileStream.new_written progress hprog
  rw [hget] at hget'
  obtain ⟨-, rfl⟩ := Prod.mk.inj (EStateM.Result.ok.inj hget').2
  exact ho'.content_eq

/-- **Unlocking is all or nothing**, for every store and whatever it delivers as
`/key`.  After an exception or `false` the four keys are what they were; after
`true` they are, one after the other, the whole of what the cipher released
from the key block.  Salt and key block are the bytes delivered from 24 and
from 32 on, followed by arbitrary ones where these end. -/
theorem unlockRepository_allOrNothing {δ : Type} [DataStore δ] {E : Env} (hC : E.C.Lawful)
    (password : Bytes) (progress : ProgressFunction) (s : Session δ) :
    match unlockRepository E password progress s with
    | error _ s' => s'.keys = s.keys
    | ok false s' => s'.keys = s.keys
    | ok true s' => ∃ d o, DataStore.get s.store (ascii "/key") TempFileStream.new progress =
          ok () (d, o) ∧
        (∀ (M : StoreModel δ) (c : Bytes), M.Ok s.store →
          M.contents s.store (ascii "/key") = some c → (∀ i j, progress i j = true) →
            o.content = c) ∧
        ∃ (salt : Digest PKCS5_SALT_LEN) (encKeyData : Digest ENC_KEYS_LENGTH),
          StartsWith salt (o.content.drop 24) ∧ StartsWith encKeyData (o.content.drop 32) ∧
          s'.keys.bytes = keyBlock E.C (deriveKey E.C password salt.toList
            (leNat ((o.content.drop 20).take 4)) EVP_MAX_KEY_LENGTH) encKeyData.toList := by
  rw [unlockRepository]
  cases hget : DataStore.get s.store (ascii "/key") TempFileStream.new progress with
  | error e p =>
    have hrun : storeGet (ascii "/key") TempFileStream.new progress s =
        error e { s with store := p.1 } := by simp only [storeGet, hget]
    rw [run_error hrun]
  | ok u p =>
    obtain ⟨d, o⟩ := p
    have hrun : storeGet (ascii "/key") TempFileStream.new progress s =
        ok o { s with store := d } := by simp only [storeGet, hget]
    rw [run_ok hrun]
    cases hstream : o.inputStream with
    | none => rfl
    | some stream =>
      have hholds := TempFileStream.holds_content hstream
      have hR : Source (RewindableStream.Rep o.content : TempInputStream → Bytes → Prop) :=
        RewindableStream.source _
      simp only []
      rcases (readKeyHeader_parses hR o.content).ends hholds with
        ⟨kind, what, i, hhead⟩ | ⟨rounds, i, r, hhead, ⟨rfl, rfl⟩, hi⟩
      · rw [run_error (onStream_error hhead _)]
      · -- the reads into the arrays cannot fail
        rw [run_ok (onStream_run hhead _)]
        obtain ⟨salt, i₁, hsalt, hsalt', hi₁⟩ := readArray_any hR E PKCS5_SALT_LEN hi
          { s with store := d }
        rw [run_ok hsalt]
        obtain ⟨encKeyData, i₂, henc, henc', hi₂⟩ := readArray_any hR E ENC_KEYS_LENGTH hi₁
          { s with store := d, uninitUsed := s.uninitUsed + PKCS5_SALT_LEN }
        rw [List.drop_drop] at henc'
        rw [run_ok henc]
        obtain ⟨hmac1, i₃, hhmac, -, -⟩ := readArray_any hR E EVP_MAX_MD_SIZE hi₂
          { s with store := d, uninitUsed := s.uninitUsed + PKCS5_SALT_LEN + ENC_KEYS_LENGTH }
        rw [run_ok hhmac]
        -- and neither can anything after the HMAC was accepted
        by_cases hpass : hmac1.toList.take 32 ≠ (E.C.hmacSha256 (deriveKey E.C password salt.toList
            (leNat ((o.content.drop 20).take 4)) EVP_MAX_KEY_LENGTH) encKeyData.toList).toList
        · rw [if_pos hpass]
          rfl
        · obtain ⟨keys, hkeys, hdec⟩ := decryptKeys_all hC (deriveKey E.C password salt.toList
            (leNat ((o.content.drop 20).take 4)) EVP_MAX_KEY_LENGTH) encKeyData { s with
              store := d
              uninitUsed := s.uninitUsed + PKCS5_SALT_LEN + ENC_KEYS_LENGTH + EVP_MAX_MD_SIZE }
          rw [if_neg hpass, run_ok hdec]
          refine ⟨d, o, rfl, ?_, salt, encKeyData, hsalt', henc', hkeys⟩
          exact fun M c hs hc hprog => get_content M hs rfl hc hprog hget

/-- A session on a directory whose file `/key` is given, with keys of ones. -/
def keyFileSession (c : Bytes) : Session FileDataStore :=
  { emptySession with
    store := ⟨ascii "/backup", SortedMap.empty.assign (ascii "/backup/key") c, []⟩
    keys := ⟨List.Vector.replicate 64 1, List.Vector.replicate 64 1, List.Vector.replicate 64 1,
      List.Vector.replicate 64 1⟩ }

/-- Zero keys under the password `a`. -/
def keyFileOfA : KeyFile := ⟨[97], 0, hexDigest 8 0, hexDigest 16 0, zeroKeys, hexDigest 32 0⟩

/-- A file that ends in its header, and one with the password `a`. -/
theorem unlockRepository_allOrNothing_sample :
    (∃ e s', unlockRepository (zeroEnv passwordTables.crypto) [97] DefaultProgressFunction
        (keyFileSession (ascii "NEBULABACKUP")) = error e s' ∧
      s'.keys = (keyFileSession []).keys) ∧
    ∃ (s' : Session FileDataStore) (salt : Digest PKCS5_SALT_LEN)
        (encKeyData : Digest ENC_KEYS_LENGTH),
      unlockRepository (zeroEnv passwordTables.crypto) [97] DefaultProgressFunction
        (keyFileSession (keyFileOfA.bytes passwordTables.crypto)) = ok true s' ∧
      s'.keys = zeroKeys ∧
      StartsWith salt ((keyFileOfA.bytes passwordTables.crypto).drop 24) ∧
      StartsWith encKeyData ((keyFileOfA.bytes passwordTables.crypto).drop 32) ∧
      zeroKeys.bytes = keyBlock passwordTables.crypto (deriveKey passwordTables.crypto [97]
        salt.toList (leNat (((keyFileOfA.bytes passwordTables.crypto).drop 20).take 4)) 64)
        encKeyData.toList := by
  refine ⟨?_, ?_⟩
  · have hall := unlockRepository_allOrNothing (E := zeroEnv passwordTables.crypto)
      passwordTables.crypto_lawful [97] DefaultProgressFunction
      (keyFileSession (ascii "NEBULABACKUP"))
    have hrun : ∃ e s', unlockRepository (zeroEnv passwordTables.crypto) [97]
        DefaultProgressFunction (keyFileSession (ascii "NEBULABACKUP")) = error e s' := ⟨_, _, rfl⟩
    obtain ⟨e, s', hrun⟩ := hrun
    rw [hrun] at hall
    exact ⟨e, s', hrun, hall⟩
  · have hok : FileDataStore.storeModel.Ok
        (keyFileSession (keyFileOfA.bytes passwordTables.crypto)).store :=
      fun _ he => absurd he List.not_mem_nil
    have hfile : FileDataStore.storeModel.contents
        (keyFileSession (keyFileOfA.bytes passwordTables.crypto)).store (ascii "/key") =
          some (keyFileOfA.bytes passwordTables.crypto) := by
      show ((SortedMap.empty : SortedMap Bytes Bytes).assign (ascii "/backup/key") _).find?
        (ascii "/backup" ++ ascii "/key") = _
      rw [SortedMap.find?_assign, if_pos (by decide)]
    obtain ⟨d, u, -, -, hrun⟩ := unlockRepository_right FileDataStore.storeModel
      (E := zeroEnv passwordTables.crypto) passwordTables.crypto_lawful hok hfile
      (show (0 : UInt8).toNat ≤ MAX_LOG_ROUNDS from Nat.zero_le _)
      (show ∀ i j, DefaultProgressFunction i j = true from fun _ _ => rfl)
    rw [show keyFileOfA.password = [97] from rfl] at hrun
    -- the file itself is not needed any more
    generalize keyFileSession (keyFileOfA.bytes passwordTables.crypto) = s at *
    have hall := unlockRepository_allOrNothing (E := zeroEnv passwordTables.crypto)
      passwordTables.crypto_lawful [97] DefaultProgressFunction s
    rw [hrun] at hall
    obtain ⟨d', o, -, hcontent, salt, encKeyData, hsalt, henc, hkeys⟩ := hall
    rw [hcontent _ _ hok hfile fun _ _ => rfl] at hsalt henc hkeys
    exact ⟨_, salt, encKeyData, hrun, rfl, hsalt, henc, hkeys⟩

end Nebula
