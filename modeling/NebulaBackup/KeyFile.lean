/-
The key file: `writeRepositoryKey`, `unlockRepository` and `changePassword`.

The four keys of a repository are enciphered under a key derived from the
password and stored, with the salt and an HMAC, as the object `/key`.
`KeyFile` lists what goes into such a file.  Main results:

* `writeRepositoryKey_run` — what is stored, and that nothing else changes;
* `unlockRepository_right`, `unlockRepository_wrong` — what a stored file gives
  back, by whether the HMAC of the password is the stored one;
* `keyFile_lifeCycle` — over every sequence of password changes only the
  current password unlocks, and it gives back the first keys.
-/
import NebulaBackup.StreamUtils
import NebulaBackup.StreamCodec
import NebulaBackup.Session

namespace Nebula

open EStateM.Result Hoare

/-- `MAX_LOG_ROUNDS`. -/
def MAX_LOG_ROUNDS : ℕ := 31

/-- The size of the enciphered keys. -/
def ENC_KEYS_LENGTH : ℕ := EVP_MAX_KEY_LENGTH * 4 + EVP_MAX_BLOCK_LENGTH

/-- `PKCS5_PBKDF2_HMAC` with a number of rounds that is converted to `int`. -/
def deriveKey (C : Crypto) (password salt : Bytes) (rounds size : ℕ) : Bytes :=
  C.pbkdf2 password salt (Int.bmod rounds (2 ^ 32)) size

/-! ### Writing -/

section Writing

variable {ω : Type} [OutputStream ω]

/-- The four keys, one after the other. -/
def writeKeys (keys : RepositoryKeys) : EStateM Fault ω Unit := do
  put keys.mEncKey.toList
  put keys.mMacKey.toList
  put keys.mHashKey.toList
  put keys.mRollKey.toList

/-- The keys enciphered into a buffer of `ENC_KEYS_LENGTH` bytes. -/
def encryptKeys (C : Crypto) (keys : RepositoryKeys) (derivedKey iv : Bytes) : Except Fault Bytes :=
  match EncryptedOutputStream.new (MemoryOutputStream.new ENC_KEYS_LENGTH) (C.cipher derivedKey) iv with
  | error e _ => .error e
  | ok _ encStream =>
    match writeKeys keys encStream with
    | error e _ => .error e
    | ok _ encStream =>
      match encStream.close with
      | error e _ => .error e
      | ok _ encStream => .ok encStream.stream.data

/-- The layout of the file. -/
def writeKeyFile (rounds : ℕ) (salt encBytes hmac : Bytes) : EStateM Fault ω Unit := do
  put (ascii "NEBULABACKUP")
  writeType 4 0x00010000
  writeType 4 0
  writeType 4 rounds
  put salt
  put encBytes
  put hmac

end Writing

section Commands

variable {δ : Type} [DataStore δ]

/-- `Repository::writeRepositoryKey`.  Of the array for the HMAC only the
first 32 bytes are set. -/
def writeRepositoryKey (E : Env) (password : Bytes) (logRounds : UInt8)
    (progress : ProgressFunction) : Command δ Unit := do
  if MAX_LOG_ROUNDS < logRounds.toNat then
    throw (.thrown .InvalidArgumentException "Specified number of rounds too big.")
  else
    let salt ← arc4random_buf E PKCS5_SALT_LEN
    let iv ← arc4random_buf E EVP_MAX_IV_LENGTH
    let s ← get
    let encBytes ← ofExcept (encryptKeys E.C s.keys
      (deriveKey E.C password salt.toList (1 <<< logRounds.toNat) EVP_MAX_MD_SIZE) iv.toList)
    let hmac ← uninitialised E EVP_MAX_MD_SIZE
    let (_, keyStream) ← onStream (writeKeyFile (1 <<< logRounds.toNat) salt.toList encBytes
      (overwrite hmac (E.C.hmacSha256
        (deriveKey E.C password salt.toList (1 <<< logRounds.toNat) EVP_MAX_MD_SIZE)
        encBytes).toList).toList) TempFileStream.new
    match keyStream.inputStream with
    | none => throw .undefined
    | some stream => storePut (ascii "/key") stream progress

/-- `Repository::initializeRepository`. -/
def initializeRepository (E : Env) (password : Bytes) (logRounds : UInt8)
    (progress : ProgressFunction) : Command δ Unit := do
  let mEncKey ← arc4random_buf E EVP_MAX_KEY_LENGTH
  let mMacKey ← arc4random_buf E EVP_MAX_KEY_LENGTH
  let mHashKey ← arc4random_buf E EVP_MAX_KEY_LENGTH
  let mRollKey ← arc4random_buf E EVP_MAX_KEY_LENGTH
  modify fun s => { s with keys := ⟨mEncKey, mMacKey, mHashKey, mRollKey⟩ }
  writeRepositoryKey E password logRounds progress

/-! ### Reading -/

/-- The head of the file, up to the number of rounds. -/
def readKeyHeader {σ : Type} [InputStream σ] : EStateM Fault σ ℕ := do
  let magic ← expect 12
  if magic ≠ ascii "NEBULABACKUP" then
    throw (.thrown .InvalidRepositoryException "Back up stream is invalid.")
  else
    let version ← readType 4
    if version ≠ 0x00010000 then
      throw (.thrown .InvalidRepositoryException "Invalid version number.")
    else
      let algorithm ← readType 4
      if algorithm ≠ 0 then
        throw (.thrown .InvalidRepositoryException "Invalid algorithm.")
      else
        let rounds ← readType 4
        if 1 <<< MAX_LOG_ROUNDS < rounds then
          throw (.thrown .InvalidRepositoryException "Invalid number of rounds.")
        else return rounds

/-- `stream->read` into a local array of `n` bytes; a short read leaves the
rest of it as it was. -/
def readArray {σ : Type} [InputStream σ] (E : Env) (n : ℕ) (i : σ) : Command δ (Digest n × σ) := do
  let old ← uninitialised E n
  let (d, i) ← onStream (fun i => InputStream.read i n) i
  return (overwrite old d, i)

/-- The four reads that replace the keys of the repository. -/
def readKeys {σ : Type} [InputStream σ] (decStream : σ) : Command δ Unit := do
  let (d, decStream) ← onStream (fun i => InputStream.read i EVP_MAX_KEY_LENGTH) decStream
  modify fun s => { s with keys := { s.keys with mEncKey := overwrite s.keys.mEncKey d } }
  let (d, decStream) ← onStream (fun i => InputStream.read i EVP_MAX_KEY_LENGTH) decStream
  modify fun s => { s with keys := { s.keys with mMacKey := overwrite s.keys.mMacKey d } }
  let (d, decStream) ← onStream (fun i => InputStream.read i EVP_MAX_KEY_LENGTH) decStream
  modify fun s => { s with keys := { s.keys with mHashKey := overwrite s.keys.mHashKey d } }
  let (d, _) ← onStream (fun i => InputStream.read i EVP_MAX_KEY_LENGTH) decStream
  modify fun s => { s with keys := { s.keys with mRollKey := overwrite s.keys.mRollKey d } }

/-- The part of `unlockRepository` after the password was accepted.  The
stream below holds `ENC_KEYS_LENGTH` bytes, which bounds the rounds. -/
def decryptKeys (E : Env) (derivedKey encKeyData : Bytes) : Command δ Unit :=
  match DecryptedInputStream.new (encKeyData.length + 3) (MemoryInputStream.new encKeyData)
      (E.C.cipher derivedKey) with
  | error e _ => throw e
  | ok _ decStream => readKeys decStream

/-- `Repository::unlockRepository`. -/
def unlockRepository (E : Env) (password : Bytes) (progress : ProgressFunction) :
    Command δ Bool := do
  let keyStream ← storeGet (ascii "/key") TempFileStream.new progress
  match keyStream.inputStream with
  | none => throw .undefined
  | some stream =>
    let (rounds, stream) ← onStream readKeyHeader stream
    let (salt, stream) ← readArray E PKCS5_SALT_LEN stream
    let (encKeyData, stream) ← readArray E ENC_KEYS_LENGTH stream
    let (hmac1, _) ← readArray E EVP_MAX_MD_SIZE stream
    if hmac1.toList.take 32 ≠ (E.C.hmacSha256
        (deriveKey E.C password salt.toList rounds EVP_MAX_KEY_LENGTH) encKeyData.toList).toList then
      return false
    else
      decryptKeys E (deriveKey E.C password salt.toList rounds EVP_MAX_KEY_LENGTH) encKeyData.toList
      return true

/-- `Repository::changePassword`. -/
def changePassword (E : Env) (oldPassword newPassword : Bytes) (logRounds : UInt8)
    (progress : ProgressFunction) : Command δ Bool := do
  let unlocked ← unlockRepository E oldPassword DefaultProgressFunction
  if unlocked = false then return false
  else
    writeRepositoryKey E newPassword logRounds progress
    return true

end Commands

/-! ### What a key file holds -/

/-- The keys as one byte string. -/
def RepositoryKeys.bytes (k : RepositoryKeys) : Bytes :=
  k.mEncKey.toList ++ (k.mMacKey.toList ++ (k.mHashKey.toList ++ k.mRollKey.toList))

@[simp] theorem RepositoryKeys.bytes_length (k : RepositoryKeys) :
    k.bytes.length = EVP_MAX_KEY_LENGTH * 4 := by
  simp only [RepositoryKeys.bytes, List.length_append, List.Vector.toList_length]
  omega

/-- What went into a key file; `rest` is the part of the HMAC array that is
never set. -/
structure KeyFile where
  password : Bytes
  logRounds : UInt8
  salt : Digest PKCS5_SALT_LEN
  iv : Digest EVP_MAX_IV_LENGTH
  keys : RepositoryKeys
  rest : Digest 32

namespace KeyFile

variable (C : Crypto) (f : KeyFile)

/-- The key derived from a password with the file's salt and rounds. -/
def derived (q : Bytes) : Bytes :=
  deriveKey C q f.salt.toList (1 <<< f.logRounds.toNat) EVP_MAX_KEY_LENGTH

/-- The enciphered keys. -/
def encKeys : Bytes :=
  f.iv.toList ++ Cbc.encrypt (C.cipher (f.derived C f.password)) f.iv.toList f.keys.bytes

/-- The tag that a password gives for the file. -/
def tag (q : Bytes) : Digest 32 := C.hmacSha256 (f.derived C q) (f.encKeys C)

/-- The bytes of the file. -/
def bytes : Bytes :=
  ascii "NEBULABACKUP" ++ (leBytes 4 0x00010000 ++ (leBytes 4 0 ++
    (leBytes 4 (1 <<< f.logRounds.toNat) ++ (f.salt.toList ++ (f.encKeys C ++
      ((f.tag C f.password).toList ++ f.rest.toList))))))

/-- Different passwords of `P` give different tags. -/
def TagsDiffer (P : Set Bytes) : Prop := ∀ p ∈ P, ∀ q ∈ P, p ≠ q → f.tag C p ≠ f.tag C q

variable {C f}

theorem encKeys_length (hC : C.Lawful) : (f.encKeys C).length = ENC_KEYS_LENGTH := by
  have hsize := hC.iv_length (f.derived C f.password) f.iv.toList_length
  rw [encKeys, List.length_append, Cbc.encrypt_length (hC.cipher_lawful _) hsize, hC.cipher_size,
    f.iv.toList_length, RepositoryKeys.bytes_length]
  rfl

end KeyFile

/-! ### What is written -/

theorem writeKeys_spec {ω : Type} [OutputStream ω] {W : ω → Bytes → Prop} {n : ℕ}
    (hW : SinkUpTo n W) {o : ω} {w : Bytes} (ho : W o w) (keys : RepositoryKeys)
    (hn : w.length + EVP_MAX_KEY_LENGTH * 4 ≤ n) :
    ∃ o', writeKeys keys o = ok () o' ∧ W o' (w ++ keys.bytes) := by
  have hlen : ∀ k : Digest EVP_MAX_KEY_LENGTH, k.toList.length = EVP_MAX_KEY_LENGTH :=
    fun k => k.toList_length
  obtain ⟨o1, h1, ho1⟩ := hW.write_ok ho keys.mEncKey.toList (by rw [hlen]; omega)
  obtain ⟨o2, h2, ho2⟩ := hW.write_ok ho1 keys.mMacKey.toList
    (by simp only [List.length_append, hlen]; omega)
  obtain ⟨o3, h3, ho3⟩ := hW.write_ok ho2 keys.mHashKey.toList
    (by simp only [List.length_append, hlen]; omega)
  obtain ⟨o4, h4, ho4⟩ := hW.write_ok ho3 keys.mRollKey.toList
    (by simp only [List.length_append, hlen]; omega)
  refine ⟨o4, ?_, by simpa only [RepositoryKeys.bytes, List.append_assoc] using ho4⟩
  rw [writeKeys, run_ok (show put _ o = _ from h1), run_ok (show put _ o1 = _ from h2),
    run_ok (show put _ o2 = _ from h3)]
  exact h4

/-- The buffer takes the IV and the ciphertext, and they fill it. -/
theorem encryptKeys_ok {C : Crypto} (hC : C.Lawful) (keys : RepositoryKeys) (derivedKey : Bytes)
    (iv : Digest EVP_MAX_IV_LENGTH) :
    encryptKeys C keys derivedKey iv.toList =
      .ok (iv.toList ++ Cbc.encrypt (C.cipher derivedKey) iv.toList keys.bytes) := by
  have hlaw := hC.cipher_lawful derivedKey
  have hiv := hC.iv_length derivedKey iv.toList_length
  have hroom := MemoryOutputStream.sinkUpTo ENC_KEYS_LENGTH
  have hivlen : iv.toList.length = 16 := iv.toList_length
  -- 16 bytes of IV, 256 of keys and a block of padding are 288
  obtain ⟨e, hnew, he⟩ := EncryptedOutputStream.new_spec hroom
    (MemoryOutputStream.new_written ENC_KEYS_LENGTH) (C.cipher derivedKey)
    (show ([] : Bytes).length + iv.toList.length ≤ ENC_KEYS_LENGTH by rw [hivlen]; decide)
  obtain ⟨e', hwrite, he'⟩ := writeKeys_spec
    (EncryptedOutputStream.sinkUpTo (m := EVP_MAX_KEY_LENGTH * 4) hlaw hiv hroom
      (by rw [List.nil_append, hivlen]; decide)) he keys (by decide)
  obtain ⟨e'', hclose, hdata⟩ := EncryptedOutputStream.close_spec hroom he' (by
    rw [List.nil_append, List.nil_append, Cbc.encrypt_length hlaw hiv, hC.cipher_size,
      RepositoryKeys.bytes_length, hivlen]
    decide)
  simp only [encryptKeys, hnew, hwrite, hclose]
  rw [hdata.2]
  rfl

/-- The file as the writer lays it out. -/
theorem writeKeyFile_writes {ω : Type} [OutputStream ω] {W : ω → Bytes → Prop} (hW : Sink W)
    (C : Crypto) (f : KeyFile) :
    Writes W (writeKeyFile (1 <<< f.logRounds.toNat) f.salt.toList (f.encKeys C)
      ((f.tag C f.password).toList ++ f.rest.toList)) (f.bytes C) :=
  (put_writes hW _).bind <| (writeType_writes hW _ _).bind <| (writeType_writes hW _ _).bind <|
    (writeType_writes hW _ _).bind <| (put_writes hW _).bind <| (put_writes hW _).bind <|
      put_writes hW _

/-! ### What is read -/

section Reading

variable {δ : Type} {E : Env}

theorem readKeyHeader_reads {σ : Type} [InputStream σ] {R : σ → Bytes → Prop} (hR : Source R)
    {rounds : ℕ} (h : rounds ≤ 1 <<< MAX_LOG_ROUNDS) :
    Reads R readKeyHeader (ascii "NEBULABACKUP" ++ (leBytes 4 0x00010000 ++ (leBytes 4 0 ++
      leBytes 4 rounds))) rounds := by
  have hrounds : rounds < 256 ^ 4 := lt_of_le_of_lt h (by decide)
  have hlast : Reads R (do
      let rounds ← readType 4
      if 1 <<< MAX_LOG_ROUNDS < rounds then
        throw (.thrown .InvalidRepositoryException "Invalid number of rounds.")
      else return rounds) (leBytes 4 rounds) rounds := by
    have hbind := (readType_reads hR hrounds).bind (f := fun rounds =>
      if 1 <<< MAX_LOG_ROUNDS < rounds then
        throw (.thrown .InvalidRepositoryException "Invalid number of rounds.")
      else return rounds) (show Reads R _ [] rounds by
        rw [if_neg (by omega)]
        exact Reads.pure _)
    rwa [List.append_nil] at hbind
  refine (expect_reads' hR rfl).bind ?_
  rw [if_neg (fun hne => hne rfl)]
  refine (readType_reads hR (by decide)).bind ?_
  rw [if_neg (fun hne => hne rfl)]
  refine (readType_reads hR (by decide)).bind ?_
  rw [if_neg (fun hne => hne rfl)]
  exact hlast

/-- A read of as many bytes as follow. -/
theorem Source.read_array {σ : Type} [InputStream σ] {R : σ → Bytes → Prop} (hR : Source R) {n : ℕ}
    (d : Digest n) {i : σ} {r : Bytes} (hi : R i (d.toList ++ r)) :
    ∃ i', InputStream.read i n = ok d.toList i' ∧ R i' r := by
  obtain ⟨i', hread, hi'⟩ := hR.read_ok hi n
  rw [List.take_left' d.toList_length] at hread
  rw [List.drop_left' d.toList_length] at hi'
  exact ⟨i', hread, hi'⟩

theorem readArray_run {σ : Type} [InputStream σ] {R : σ → Bytes → Prop} (hR : Source R) {n : ℕ}
    (d : Digest n) {i : σ} {r : Bytes} (hi : R i (d.toList ++ r)) (s : Session δ) :
    ∃ i', readArray E n i s = ok (d, i') { s with uninitUsed := s.uninitUsed + n } ∧ R i' r := by
  obtain ⟨i', hread, hi'⟩ := hR.read_array d hi
  refine ⟨i', ?_, hi'⟩
  refine run_step rfl ?_
  refine run_step (onStream_run (p := fun i => InputStream.read i n) hread _) ?_
  show ok (overwrite _ d.toList, i') _ = _
  rw [overwrite_full]

/-- The keys come back as they were enciphered. -/
theorem decryptKeys_run (hC : E.C.Lawful) (f : KeyFile) (s : Session δ) :
    decryptKeys E (f.derived E.C f.password) (f.encKeys E.C) s = ok () { s with keys := f.keys } := by
  have hiv := hC.iv_length (f.derived E.C f.password) f.iv.toList_length
  have hlaw := hC.cipher_lawful (f.derived E.C f.password)
  obtain ⟨dec, hnew, hdec⟩ := DecryptedInputStream.new_spec
    (RewindableStream.source (f.encKeys E.C)) (MemoryInputStream.new_holds (f.encKeys E.C))
    f.iv.toList_length (Cbc.decrypt_encrypt hlaw hiv f.keys.bytes)
    (show (Cbc.encrypt _ _ f.keys.bytes).length + 3 ≤ (f.encKeys E.C).length + 3 by
      rw [KeyFile.encKeys, List.length_append]
      omega)
  have hD := DecryptedInputStream.source (RewindableStream.source (σ := MemoryInputStream)
    (f.encKeys E.C))
  -- each of the four reads takes one key off the plaintext
  obtain ⟨dec1, h1, hdec1⟩ := hD.read_array f.keys.mEncKey hdec
  obtain ⟨dec2, h2, hdec2⟩ := hD.read_array f.keys.mMacKey hdec1
  obtain ⟨dec3, h3, hdec3⟩ := hD.read_array f.keys.mHashKey hdec2
  rw [← List.append_nil f.keys.mRollKey.toList] at hdec3
  obtain ⟨dec4, h4, -⟩ := hD.read_array f.keys.mRollKey hdec3
  rw [decryptKeys]
  simp only [hnew]
  rw [readKeys]
  refine run_step (onStream_run (p := fun i => InputStream.read i _) h1 _) (run_step rfl ?_)
  refine run_step (onStream_run (p := fun i => InputStream.read i _) h2 _) (run_step rfl ?_)
  refine run_step (onStream_run (p := fun i => InputStream.read i _) h3 _) (run_step rfl ?_)
  refine run_step (onStream_run (p := fun i => InputStream.read i _) h4 _) ?_
  show ok () { s with keys := ⟨overwrite _ _, overwrite _ _, overwrite _ _, overwrite _ _⟩ } = _
  simp only [overwrite_full]

end Reading

/-! ### The commands -/

section Specs

variable {δ : Type} [DataStore δ] (M : StoreModel δ) {E : Env}

/-- The file that `writeRepositoryKey` makes of the next random bytes. -/
def nextKeyFile (E : Env) (keys : RepositoryKeys) (n : ℕ) (password : Bytes) (logRounds : UInt8)
    (rest : Digest 32) : KeyFile :=
  ⟨password, logRounds, bytesFrom E.random n PKCS5_SALT_LEN,
    bytesFrom E.random (n + PKCS5_SALT_LEN) EVP_MAX_IV_LENGTH, keys, rest⟩

theorem writeRepositoryKey_refused {logRounds : UInt8} (hl : MAX_LOG_ROUNDS < logRounds.toNat)
    {password : Bytes} {progress : ProgressFunction} (s : Session δ) :
    writeRepositoryKey E password logRounds progress s =
      error (.thrown .InvalidArgumentException "Specified number of rounds too big.") s := by
  rw [writeRepositoryKey, if_pos hl]
  rfl

/-- **What `writeRepositoryKey` stores**; the end of the file is what stood in
memory where nothing was written. -/
theorem writeRepositoryKey_run (hC : E.C.Lawful) {s : Session δ} (hs : M.Ok s.store)
    (password : Bytes) {logRounds : UInt8} (hl : logRounds.toNat ≤ MAX_LOG_ROUNDS)
    {progress : ProgressFunction} (hprog : ∀ i j, progress i j = true) :
    ∃ d, writeRepositoryKey E password logRounds progress s =
        ok () { s with
          store := d
          randomUsed := s.randomUsed + 24
          uninitUsed := s.uninitUsed + EVP_MAX_MD_SIZE } ∧
      M.Ok d ∧ M.contents d = Function.update (M.contents s.store) (ascii "/key")
        (some ((nextKeyFile E s.keys s.randomUsed password logRounds
          (bytesFrom E.uninit (s.uninitUsed + 32) 32)).bytes E.C)) := by
  set hmac := bytesFrom E.uninit s.uninitUsed EVP_MAX_MD_SIZE with hhmac
  set f := nextKeyFile E s.keys s.randomUsed password logRounds
    (bytesFrom E.uninit (s.uninitUsed + 32) 32) with hf
  -- of the 64 bytes of the array `HMAC_Final` sets the first 32
  have hrest : hmac.toList.drop 32 = f.rest.toList := bytesFrom_drop E.uninit s.uninitUsed 32 32
  have harray : (overwrite hmac (f.tag E.C password).toList).toList =
      (f.tag E.C f.password).toList ++ f.rest.toList := by
    show ((f.tag E.C password).toList ++ hmac.toList.drop (f.tag E.C password).toList.length).take 64
      = (f.tag E.C password).toList ++ f.rest.toList
    rw [List.Vector.toList_length, hrest, List.take_of_length_le]
    rw [List.length_append, List.Vector.toList_length, List.Vector.toList_length]
  obtain ⟨keyStream, hwrite, hwritten⟩ := writeKeyFile_writes TempFileStream.sink E.C f _ _
    TempFileStream.new_written
  rw [List.nil_append] at hwritten
  obtain ⟨stream, hstream, hholds⟩ := TempFileStream.inputStream_holds hwritten
  obtain ⟨d, hput, hd, hcont⟩ := storePut_run M (s := { s with
      randomUsed := s.randomUsed + 24
      uninitUsed := s.uninitUsed + EVP_MAX_MD_SIZE }) hs
    (show Path.isSep (ascii "/key") 0 = true from rfl) hholds hprog
  refine ⟨d, ?_, hd, hcont⟩
  have henc := encryptKeys_ok hC s.keys (f.derived E.C password) f.iv
  rw [← harray] at hwrite
  -- salt, IV, the keys under the derived key, the tag; then the file is put
  rw [writeRepositoryKey, if_neg (by omega)]
  refine run_step (a := f.salt) rfl ?_
  refine run_step (a := f.iv) rfl ?_
  refine run_step rfl ?_
  refine run_step (a := f.encKeys E.C) (by
    show ofExcept (encryptKeys E.C s.keys (f.derived E.C password) f.iv.toList) _ = _
    rw [henc]
    rfl) ?_
  refine run_step (a := hmac) rfl ?_
  refine run_step (onStream_run hwrite _) ?_
  simp only [hstream]
  exact hput

/-- The run of `unlockRepository` on a key file, up to the comparison. -/
theorem unlockRepository_run (hC : E.C.Lawful) {s : Session δ} (hs : M.Ok s.store) {f : KeyFile}
    (hf : M.contents s.store (ascii "/key") = some (f.bytes E.C))
    (hl : f.logRounds.toNat ≤ MAX_LOG_ROUNDS) (q : Bytes) {progress : ProgressFunction}
    (hprog : ∀ i j, progress i j = true) :
    ∃ d u, M.Ok d ∧ M.contents d = M.contents s.store ∧
      unlockRepository E q progress s =
        (if (f.tag E.C f.password).toList ≠ (f.tag E.C q).toList then return false
          else do
            decryptKeys E (f.derived E.C q) (f.encKeys E.C)
            return true : Command δ Bool) { s with store := d, uninitUsed := u } := by
  obtain ⟨d, keyStream, hget, hd, hcont, hwritten⟩ := storeGet_run M hs
    (show Path.isSep (ascii "/key") 0 = true from rfl) hf
    TempFileStream.sink TempFileStream.new_written hprog
  rw [List.nil_append] at hwritten
  obtain ⟨stream, hstream, hholds⟩ := TempFileStream.inputStream_holds hwritten
  have hR : Source (RewindableStream.Rep (f.bytes E.C) : TempInputStream → Bytes → Prop) :=
    RewindableStream.source _
  have hrounds : 1 <<< f.logRounds.toNat ≤ 1 <<< MAX_LOG_ROUNDS := by
    rw [Nat.one_shiftLeft, Nat.one_shiftLeft]
    exact Nat.pow_le_pow_right (by decide) hl
  have hsplit : f.bytes E.C = (ascii "NEBULABACKUP" ++ (leBytes 4 0x00010000 ++ (leBytes 4 0 ++
      leBytes 4 (1 <<< f.logRounds.toNat)))) ++ (f.salt.toList ++ (f.encKeys E.C ++
        ((f.tag E.C f.password).toList ++ f.rest.toList))) := by
    simp only [KeyFile.bytes, List.append_assoc]
  rw [Holds] at hholds
  nth_rewrite 2 [hsplit] at hholds
  -- the fields come off the stream in the order in which they were written
  obtain ⟨i1, hhead, hi1⟩ := readKeyHeader_reads hR hrounds stream _ hholds
  obtain ⟨i2, hsalt, hi2⟩ := readArray_run (E := E) hR f.salt hi1 { s with store := d }
  obtain ⟨i3, henc, hi3⟩ := readArray_run (E := E) hR ⟨f.encKeys E.C, KeyFile.encKeys_length hC⟩ hi2
    { s with store := d, uninitUsed := s.uninitUsed + PKCS5_SALT_LEN }
  have hhmac : ((f.tag E.C f.password).toList ++ f.rest.toList).length = EVP_MAX_MD_SIZE := by
    rw [List.length_append, List.Vector.toList_length, List.Vector.toList_length]
    rfl
  rw [← List.append_nil (_ ++ f.rest.toList)] at hi3
  obtain ⟨i4, hmac, -⟩ := readArray_run (E := E) hR ⟨_, hhmac⟩ hi3
    { s with store := d, uninitUsed := s.uninitUsed + PKCS5_SALT_LEN + ENC_KEYS_LENGTH }
  refine ⟨d, s.uninitUsed + PKCS5_SALT_LEN + ENC_KEYS_LENGTH + EVP_MAX_MD_SIZE, hd, hcont, ?_⟩
  rw [unlockRepository]
  refine run_step hget ?_
  simp only [hstream]
  refine run_step (onStream_run hhead _) ?_
  refine run_step hsalt ?_
  refine run_step henc ?_
  refine run_step hmac ?_
  -- `memcmp` looks at the first 32 bytes only
  have htake : ((f.tag E.C f.password).toList ++ f.rest.toList).take 32 =
      (f.tag E.C f.password).toList := List.take_left' (List.Vector.toList_length _)
  show (if ((f.tag E.C f.password).toList ++ f.rest.toList).take 32 ≠ (f.tag E.C q).toList then _
    else _ : Command δ Bool) _ = _
  rw [htake]
  rfl

/-- **The password of the file gives its keys back.** -/
theorem unlockRepository_right (hC : E.C.Lawful) {s : Session δ} (hs : M.Ok s.store) {f : KeyFile}
    (hf : M.contents s.store (ascii "/key") = some (f.bytes E.C))
    (hl : f.logRounds.toNat ≤ MAX_LOG_ROUNDS) {progress : ProgressFunction}
    (hprog : ∀ i j, progress i j = true) :
    ∃ d u, M.Ok d ∧ M.contents d = M.contents s.store ∧
      unlockRepository E f.password progress s =
        ok true { s with store := d, keys := f.keys, uninitUsed := u } := by
  obtain ⟨d, u, hd, hcont, hrun⟩ := unlockRepository_run M hC hs hf hl f.password hprog
  refine ⟨d, u, hd, hcont, ?_⟩
  rw [hrun, if_neg (fun hne => hne rfl), run_ok (decryptKeys_run hC f _)]
  rfl

/-- **A password with another tag is refused**, and nothing changes. -/
theorem unlockRepository_wrong (hC : E.C.Lawful) {s : Session δ} (hs : M.Ok s.store) {f : KeyFile}
    (hf : M.contents s.store (ascii "/key") = some (f.bytes E.C))
    (hl : f.logRounds.toNat ≤ MAX_LOG_ROUNDS) {q : Bytes} (hq : f.tag E.C f.password ≠ f.tag E.C q)
    {progress : ProgressFunction} (hprog : ∀ i j, progress i j = true) :
    ∃ d u, M.Ok d ∧ M.contents d = M.contents s.store ∧
      unlockRepository E q progress s = ok false { s with store := d, uninitUsed := u } := by
  obtain ⟨d, u, hd, hcont, hrun⟩ := unlockRepository_run M hC hs hf hl q hprog
  refine ⟨d, u, hd, hcont, ?_⟩
  rw [hrun, if_pos (fun heq => hq (List.Vector.eq _ _ heq))]
  rfl

end Specs

/-! ### Histories of password changes -/

/-- A call of `changePassword`, by the same `Repository` as before or by a new
one, whose key memory holds arbitrary bytes. -/
structure PasswordCall where
  newRepository : Option RepositoryKeys
  oldPassword : Bytes
  newPassword : Bytes
  logRounds : UInt8
  progress : ProgressFunction

namespace PasswordCall

/-- The call; its exception is caught. -/
def run {δ : Type} [DataStore δ] (E : Env) (c : PasswordCall) : Command δ (Except Fault Bool) := do
  modify fun s => { s with keys := c.newRepository.getD s.keys }
  attempt (changePassword E c.oldPassword c.newPassword c.logRounds c.progress)

/-- What the call should return when `current` is the password. -/
def result (c : PasswordCall) (current : Bytes) : Except Fault Bool :=
  if c.oldPassword ≠ current then .ok false
  else if MAX_LOG_ROUNDS < c.logRounds.toNat then
    .error (.thrown .InvalidArgumentException "Specified number of rounds too big.")
  else .ok true

/-- The password after the call. -/
def after (c : PasswordCall) (current : Bytes) : Bytes :=
  if c.oldPassword = current ∧ c.logRounds.toNat ≤ MAX_LOG_ROUNDS then c.newPassword else current

end PasswordCall

/-- A sequence of calls. -/
def runCalls {δ : Type} [DataStore δ] (E : Env) :
    List PasswordCall → Command δ (List (Except Fault Bool))
  | [] => return []
  | c :: calls => do
    let r ← c.run E
    let rs ← runCalls E calls
    return r :: rs

/-- What the calls should return. -/
def results : List PasswordCall → Bytes → List (Except Fault Bool)
  | [], _ => []
  | c :: calls, current => c.result current :: results calls (c.after current)

/-- The password after the calls. -/
def currentPassword (password : Bytes) (calls : List PasswordCall) : Bytes :=
  calls.foldl (fun current c => c.after current) password

section Histories

variable {δ : Type} [DataStore δ] (M : StoreModel δ) {E : Env}

/-- The store holds a key file with the given keys and password, and among the
passwords of `P` only this one has its tag. -/
structure Locked (E : Env) (keys : RepositoryKeys) (P : Set Bytes) (current : Bytes)
    (s : Session δ) : Prop where
  store_ok : M.Ok s.store
  current_mem : current ∈ P
  file : ∃ f : KeyFile, M.contents s.store (ascii "/key") = some (f.bytes E.C) ∧
    f.password = current ∧ f.keys = keys ∧ f.logRounds.toNat ≤ MAX_LOG_ROUNDS ∧ f.TagsDiffer E.C P

variable {M} {keys : RepositoryKeys} {P : Set Bytes} {current : Bytes} {s : Session δ}

/-- What `unlockRepository` does, for every password of `P`. -/
theorem Locked.unlock (h : Locked M E keys P current s) (hC : E.C.Lawful) {q : Bytes} (hq : q ∈ P)
    {progress : ProgressFunction} (hprog : ∀ i j, progress i j = true) :
    ∃ d u, M.Ok d ∧ M.contents d = M.contents s.store ∧
      unlockRepository E q progress s = ok (decide (q = current))
        { s with store := d, keys := if q = current then keys else s.keys, uninitUsed := u } := by
  obtain ⟨hs, hcur, f, hf, rfl, rfl, hl, hdiff⟩ := h
  by_cases hqc : q = f.password
  · subst hqc
    obtain ⟨d, u, hd, hcont, hrun⟩ := unlockRepository_right M hC hs hf hl hprog
    refine ⟨d, u, hd, hcont, ?_⟩
    rw [hrun, if_pos rfl, decide_eq_true rfl]
  · obtain ⟨d, u, hd, hcont, hrun⟩ := unlockRepository_wrong M hC hs hf hl
      (hdiff _ hcur _ hq (Ne.symm hqc)) hprog
    refine ⟨d, u, hd, hcont, ?_⟩
    rw [hrun, if_neg hqc, decide_eq_false hqc]

/-- The invariant only reads the store. -/
theorem Locked.of_contents (h : Locked M E keys P current s) {t : Session δ} (ht : M.Ok t.store)
    (hcont : M.contents t.store = M.contents s.store) : Locked M E keys P current t := by
  refine ⟨ht, h.current_mem, ?_⟩
  rw [hcont]
  exact h.file

/-- **One call of `changePassword`.**  The random bytes used up are those of
one key file or none. -/
theorem Locked.call (h : Locked M E keys P current s) (hC : E.C.Lawful) (c : PasswordCall)
    (hprog : ∀ i j, c.progress i j = true) (hold : c.oldPassword ∈ P) (hnew : c.newPassword ∈ P)
    (hdiff : ∀ rest, (nextKeyFile E keys s.randomUsed c.newPassword c.logRounds rest).TagsDiffer
      E.C P) :
    ∃ s', c.run E s = ok (c.result current) s' ∧ Locked M E keys P (c.after current) s' ∧
      (s'.randomUsed = s.randomUsed ∨ s'.randomUsed = s.randomUsed + 24) ∧
      (c.oldPassword ≠ current → M.contents s'.store = M.contents s.store) := by
  have h' : Locked M E keys P current { s with keys := c.newRepository.getD s.keys } :=
    h.of_contents h.store_ok rfl
  obtain ⟨d, u, hd, hcont, hunlock⟩ := h'.unlock hC hold
    (fun _ _ => rfl)
  have hrun : c.run E s = attempt (changePassword E c.oldPassword c.newPassword c.logRounds
      c.progress) { s with keys := c.newRepository.getD s.keys } := rfl
  rw [hrun]
  by_cases hcur : c.oldPassword = current
  · rw [decide_eq_true hcur, if_pos hcur] at hunlock
    have hlocked : Locked M E keys P current { s with store := d, keys := keys, uninitUsed := u } :=
      h.of_contents hd hcont
    by_cases hl : MAX_LOG_ROUNDS < c.logRounds.toNat
    · -- the rounds are refused before anything is drawn or stored
      refine ⟨{ s with store := d, keys := keys, uninitUsed := u }, ?_, ?_, Or.inl rfl,
        fun hne => absurd hcur hne⟩
      · rw [PasswordCall.result, if_neg (fun hne => hne hcur), if_pos hl]
        exact attempt_error (run_step hunlock (run_error (writeRepositoryKey_refused hl _)))
      · rw [PasswordCall.after, if_neg (fun hc => absurd hc.2 (by omega))]
        exact hlocked
    · have hle : c.logRounds.toNat ≤ MAX_LOG_ROUNDS := by omega
      obtain ⟨d', hwrite, hd', hcont'⟩ := writeRepositoryKey_run M hC
        (s := { s with store := d, keys := keys, uninitUsed := u }) hd c.newPassword hle hprog
      refine ⟨{ s with
          store := d'
          keys := keys
          randomUsed := s.randomUsed + 24
          uninitUsed := u + EVP_MAX_MD_SIZE }, ?_, ?_, Or.inr rfl, fun hne => absurd hcur hne⟩
      · rw [PasswordCall.result, if_neg (fun hne => hne hcur), if_neg hl]
        exact attempt_ok (run_step hunlock (run_step hwrite rfl))
      · rw [PasswordCall.after, if_pos ⟨hcur, hle⟩]
        refine ⟨hd', hnew, nextKeyFile E keys s.randomUsed c.newPassword c.logRounds
          (bytesFrom E.uninit (u + 32) 32), ?_, rfl, rfl, hle, hdiff _⟩
        show M.contents d' _ = _
        rw [hcont', Function.update_self]
  · -- a wrong password changes nothing
    rw [decide_eq_false hcur, if_neg hcur] at hunlock
    refine ⟨{ s with store := d, keys := c.newRepository.getD s.keys, uninitUsed := u }, ?_, ?_,
      Or.inl rfl, fun _ => hcont⟩
    · rw [PasswordCall.result, if_pos hcur]
      exact attempt_ok (run_step hunlock rfl)
    · rw [PasswordCall.after, if_neg (fun hc => hcur hc.1)]
      exact h.of_contents hd hcont

/-- **The calls of a history.**  By induction on them: `j` key files may have
been written before, and each call writes at most one more. -/
theorem Locked.calls (hC : E.C.Lawful) {base : ℕ} :
    ∀ (calls : List PasswordCall) {current : Bytes} {s : Session δ} (j : ℕ),
      Locked M E keys P current s → s.randomUsed = base + 24 * j →
      (∀ c ∈ calls, (∀ i j, c.progress i j = true) ∧ c.oldPassword ∈ P ∧ c.newPassword ∈ P) →
      (∀ i < j + calls.length, ∀ q ∈ P, ∀ l rest,
        (nextKeyFile E keys (base + 24 * i) q l rest).TagsDiffer E.C P) →
      ∃ s' k, runCalls E calls s = ok (results calls current) s' ∧
        Locked M E keys P (currentPassword current calls) s' ∧
        s'.randomUsed = base + 24 * k ∧ k ≤ j + calls.length := by
  intro calls
  induction calls with
  | nil =>
    intro current s j h hj _ _
    exact ⟨s, j, rfl, h, hj, le_refl _⟩
  | cons c calls ih =>
    intro current s j h hj hcalls hdiff
    rw [List.length_cons] at hdiff
    obtain ⟨hprog, hold, hnew⟩ := hcalls c List.mem_cons_self
    obtain ⟨s', hrun, hs', hused, -⟩ := h.call hC c hprog hold hnew (by
      rw [hj]
      exact hdiff j (by omega) _ hnew _)
    have hcalls' := fun x hx => hcalls x (List.mem_cons_of_mem c hx)
    -- whether this call has written a file or not
    rcases hused with hused | hused
    · obtain ⟨s'', k, hrun', hs'', hk, hle⟩ := ih j hs' (hused.trans hj) hcalls' (by
        intro i hi
        exact hdiff i (by omega))
      refine ⟨s'', k, run_step hrun (run_step hrun' rfl), hs'', hk, ?_⟩
      rw [List.length_cons]
      omega
    · obtain ⟨s'', k, hrun', hs'', hk, hle⟩ := ih (j + 1) hs' (by omega) hcalls' (by
        intro i hi
        exact hdiff i (by omega))
      refine ⟨s'', k, run_step hrun (run_step hrun' rfl), hs'', hk, ?_⟩
      rw [List.length_cons]
      omega

/-- The keys that `initializeRepository` generates. -/
def generatedKeys (E : Env) (n : ℕ) : RepositoryKeys :=
  ⟨bytesFrom E.random n EVP_MAX_KEY_LENGTH,
    bytesFrom E.random (n + EVP_MAX_KEY_LENGTH) EVP_MAX_KEY_LENGTH,
    bytesFrom E.random (n + EVP_MAX_KEY_LENGTH + EVP_MAX_KEY_LENGTH) EVP_MAX_KEY_LENGTH,
    bytesFrom E.random (n + EVP_MAX_KEY_LENGTH + EVP_MAX_KEY_LENGTH + EVP_MAX_KEY_LENGTH)
      EVP_MAX_KEY_LENGTH⟩

theorem initializeRepository_locked (hC : E.C.Lawful) (hs : M.Ok s.store) {password : Bytes}
    (hP : password ∈ P) {logRounds : UInt8} (hl : logRounds.toNat ≤ MAX_LOG_ROUNDS)
    {progress : ProgressFunction} (hprog : ∀ i j, progress i j = true)
    (hdiff : ∀ rest, (nextKeyFile E (generatedKeys E s.randomUsed) (s.randomUsed + 256) password
      logRounds rest).TagsDiffer E.C P) :
    ∃ s', initializeRepository E password logRounds progress s = ok () s' ∧
      Locked M E (generatedKeys E s.randomUsed) P password s' ∧
      s'.randomUsed = s.randomUsed + 256 + 24 * 1 := by
  obtain ⟨d, hwrite, hd, hcont⟩ := writeRepositoryKey_run M hC (s := { s with
      keys := generatedKeys E s.randomUsed
      randomUsed := s.randomUsed + 256 }) hs password hl hprog
  refine ⟨_, run_step rfl (run_step rfl (run_step rfl (run_step rfl (run_step rfl hwrite)))),
    ⟨hd, hP, nextKeyFile E (generatedKeys E s.randomUsed) (s.randomUsed + 256) password logRounds
      (bytesFrom E.uninit (s.uninitUsed + 32) 32), ?_, rfl, rfl, hl, hdiff _⟩, rfl⟩
  show M.contents d _ = _
  rw [hcont, Function.update_self]

/-- **The life cycle of the key file.**  After `initializeRepository` and any
history of `changePassword` calls, which return what `results` says, the
current password unlocks any `Repository` with the generated keys and every
other password of `P` is refused; a call with a wrong old password leaves
`/key` as it was, and after one with the right one only the new password
unlocks. -/
theorem keyFile_lifeCycle (M : StoreModel δ) (hC : E.C.Lawful) (hs : M.Ok s.store)
    {password : Bytes} {logRounds : UInt8} (hl : logRounds.toNat ≤ MAX_LOG_ROUNDS)
    {progress : ProgressFunction} (hprog : ∀ i j, progress i j = true) (calls : List PasswordCall)
    (hP : password ∈ P)
    (hcalls : ∀ c ∈ calls, (∀ i j, c.progress i j = true) ∧ c.oldPassword ∈ P ∧ c.newPassword ∈ P)
    (hdiff : ∀ i ≤ calls.length + 1, ∀ q ∈ P, ∀ l rest,
      (nextKeyFile E (generatedKeys E s.randomUsed) (s.randomUsed + 256 + 24 * i) q l rest).TagsDiffer
        E.C P) :
    ∃ s₀ s₁, initializeRepository E password logRounds progress s = ok () s₀ ∧
      runCalls E calls s₀ = ok (results calls password) s₁ ∧
      (∀ t : Session δ, t.store = s₁.store → ∀ q ∈ P, ∀ p : ProgressFunction,
        (∀ i j, p i j = true) →
          ∃ t', unlockRepository E q p t = ok (decide (q = currentPassword password calls)) t' ∧
            (q = currentPassword password calls → t'.keys = generatedKeys E s.randomUsed)) ∧
      ∀ c : PasswordCall, (∀ i j, c.progress i j = true) → c.oldPassword ∈ P → c.newPassword ∈ P →
        (c.oldPassword ≠ currentPassword password calls →
          ∃ s₂, c.run E s₁ = ok (.ok false) s₂ ∧
            M.contents s₂.store (ascii "/key") = M.contents s₁.store (ascii "/key")) ∧
        (c.oldPassword = currentPassword password calls → c.logRounds.toNat ≤ MAX_LOG_ROUNDS →
          ∃ s₂, c.run E s₁ = ok (.ok true) s₂ ∧
            ∀ t : Session δ, t.store = s₂.store → ∀ q ∈ P, ∀ p : ProgressFunction,
              (∀ i j, p i j = true) →
                ∃ t', unlockRepository E q p t = ok (decide (q = c.newPassword)) t' ∧
                  (q = c.newPassword → t'.keys = generatedKeys E s.randomUsed)) := by
  obtain ⟨s₀, hinit, hs₀, hused⟩ := initializeRepository_locked hC hs hP hl hprog
    (fun rest => hdiff 0 (by omega) password hP logRounds rest)
  obtain ⟨s₁, k, hrun, hs₁, hk, hle⟩ := Locked.calls hC calls 1 hs₀ hused hcalls
    (fun i hi => hdiff i (by omega))
  -- what a lock means for whoever opens the store
  have hopen : ∀ {current : Bytes} {s' : Session δ},
      Locked M E (generatedKeys E s.randomUsed) P current s' →
      ∀ t : Session δ, t.store = s'.store → ∀ q ∈ P, ∀ p : ProgressFunction,
        (∀ i j, p i j = true) → ∃ t', unlockRepository E q p t = ok (decide (q = current)) t' ∧
          (q = current → t'.keys = generatedKeys E s.randomUsed) := by
    intro current s' hs' t ht q hq p hp
    obtain ⟨d, u, -, -, hunlock⟩ :=
      (hs'.of_contents (ht ▸ hs'.store_ok) (by rw [ht])).unlock hC hq hp
    refine ⟨_, hunlock, fun hcur => ?_⟩
    show (if q = current then _ else _) = _
    rw [if_pos hcur]
  refine ⟨s₀, s₁, hinit, hrun, hopen hs₁, ?_⟩
  intro c hcprog hold hnew
  obtain ⟨s₂, hcall, hs₂, -, hkeep⟩ := hs₁.call hC c hcprog hold hnew
    (fun rest => by rw [hk]; exact hdiff k (by omega) _ hnew _ rest)
  refine ⟨fun hne => ⟨s₂, ?_, by rw [hkeep hne]⟩, fun heq hlc => ⟨s₂, ?_, ?_⟩⟩
  · rw [hcall, PasswordCall.result, if_pos hne]
  · rw [hcall, PasswordCall.result, if_neg (fun hne => hne heq), if_neg (by omega)]
  · rw [PasswordCall.after, if_pos ⟨heq, hlc⟩] at hs₂
    exact hopen hs₂

end Histories

/-! ### A change of the password from `a` to `b` -/

/-- The key that PBKDF2-HMAC-SHA512 derives from `a` in one round with a zero
salt. -/
def keyOfA : Digest 64 := hexDigest 64
  0x11c4d99bf272e8f3259d76ef6ae1475c0e5192e194e13c53439bdb8a301b794d5539bc0fc5f9d3ae6f04adff92e60fc9cc678e2646ea907c7d0a21ad227f2622

/-- The same for `b`. -/
def keyOfB : Digest 64 := hexDigest 64
  0x50a83cbeb5e10c379d9366a6ea0f45fabf4b431df6189b616111643a87a7d2dc11548a9b36a63bae94dab7108f77eda72db96414b325f668784b616e1ea95e5d

/-- The 256 zero bytes of four zero keys, enciphered under `keyOfA` with a zero
IV. -/
def blocksOfA : List (Digest 16) :=
  [0x6c022e64abf0a8d3200b4e3ea6d5a397, 0xeaa11472880cd18ce8ccf8436fc2705b,
    0x4fde998e21ea1206218ffaf8b5989d52, 0x3486d3de4a0e04522154ee5c3c255454,
    0x7c07ebab242e40500f4ba2e97cba24ab, 0x7473138c641b198b5f94ef01753d8468,
    0x8ffda54866cd8c6ce2aa70126164a174, 0x5387f746490fd92417078d825d36c784,
    0x5075ecf7e2e21527a9e9d6e44d60e638, 0xb3f3154a847a8f853b36e1e16980f108,
    0x63dade34063d9d46501892a7c4264c4b, 0xfbaaa5dc608efe7d86b2d3010c125fa3,
    0x27fdef499fa672b62b3b18d88a4cf7c8, 0x3ad9d7fbcb07cda514fa31d7b2446a0e,
    0x37c514c70fa04f2541f80cc62f08876c, 0x6488867231235a55d92a2b1d2c3082e0,
    0x83bdafd5d42b46450b7760efb11df1f7].map (hexDigest 16)

/-- The same under `keyOfB`. -/
def blocksOfB : List (Digest 16) :=
  [0xba5d6545850565503d983d2e152283ab, 0xdd279fe2ff1ac74c191df47248edfaaf,
    0x881ff766a5c0b513e7c6e2c2ead5b223, 0x39462dc3ca26089943a4e4d50a21b6b0,
    0x19f07312822c228540424f24a159090c, 0x097717fb3d9b5351cefbe5d64d39c681,
    0x172994de5a30cc67d28edc69585d0325, 0x0ed966b734654371d007c1b1a9645f8e,
    0xb1938972d0b5210df35eca3fb5056ee8, 0x3ca2b72ed5623c6b8656ae92dfe78a10,
    0x672b12dfa855ea994a590b94f4760a16, 0xd2be2481212a788d3f1834328baab71b,
    0x4ad2ae1edd3a1af75ff982ee74631b52, 0x5add48e5ce4ecf704d6c133b63885ab0,
    0x4ab10c04b2a2de10524515cb81d840c1, 0xff63c023773d5e5a00374ec562a9af48,
    0xc7062e27ed505b779a52ed710c3b1c01].map (hexDigest 16)

/-- The pairs of blocks of such a chain; its last block enciphers the
padding. -/
def chainPairs (key : Digest 64) (last : Digest 16) (blocks : List (Digest 16)) :
    List (Bytes × Digest 16 × Digest 16) :=
  ((hexDigest 16 0 :: blocks.take 15 ++ [last]).zip blocks).map fun p => (key.toList.take 32, p)

/-- The values of the library functions for the two passwords. -/
def passwordTables : SampleTables where
  pbkdf2 := [(([97], List.replicate 8 0), keyOfA.toList), (([98], List.replicate 8 0), keyOfB.toList)]
  aes := chainPairs keyOfA (hexDigest 16 0x7498966221334a45c93a3b0d3c2092f0) blocksOfA ++
    chainPairs keyOfB (hexDigest 16 0xef73d033672d4e4a10275ed572b9bf58) blocksOfB
  hmac := [
    ((keyOfA.toList, List.replicate 16 0 ++ blocksOfA.flatMap (·.toList)), hexDigest 32
      0x3e3145f23964fc889503dd79e7216eb7182659173cd1b1fa8dfdee7cad1daf21),
    ((keyOfB.toList, List.replicate 16 0 ++ blocksOfA.flatMap (·.toList)), hexDigest 32
      0x4be5d7e7931161547c4e2949114740b2f8385233f055904034e2ba0cee590ffe),
    ((keyOfA.toList, List.replicate 16 0 ++ blocksOfB.flatMap (·.toList)), hexDigest 32
      0x93e1205c7b253a1cbcb849901dfe4d27ab2195996f1ace8454bc50c477e126c6),
    ((keyOfB.toList, List.replicate 16 0 ++ blocksOfB.flatMap (·.toList)), hexDigest 32
      0x8ce0c60ef753f4cfe197b27540d7942960e87db729fc170447251529fe3e20a3)]

/-- The tags of the two passwords differ, for every number of rounds that the
tables do not tell apart. -/
theorem passwordTables_differ (n : ℕ) {q : Bytes} (hq : q = [97] ∨ q = [98]) (l : UInt8)
    (rest : Digest 32) :
    (nextKeyFile (zeroEnv passwordTables.crypto) (generatedKeys (zeroEnv passwordTables.crypto) 0) n q l
      rest).TagsDiffer passwordTables.crypto {p | p = [97] ∨ p = [98]} := by
  have hclosed : ∀ p, (nextKeyFile (zeroEnv passwordTables.crypto)
      (generatedKeys (zeroEnv passwordTables.crypto) 0) n q l rest).tag passwordTables.crypto p =
      (nextKeyFile (zeroEnv passwordTables.crypto) (generatedKeys (zeroEnv passwordTables.crypto) 0) 0 q
        0 (hexDigest 32 0)).tag passwordTables.crypto p := fun _ => rfl
  have hab : ∀ q, q = [97] ∨ q = [98] → (nextKeyFile (zeroEnv passwordTables.crypto)
      (generatedKeys (zeroEnv passwordTables.crypto) 0) 0 q 0 (hexDigest 32 0)).tag passwordTables.crypto
        [97] ≠ (nextKeyFile (zeroEnv passwordTables.crypto)
      (generatedKeys (zeroEnv passwordTables.crypto) 0) 0 q 0 (hexDigest 32 0)).tag passwordTables.crypto
        [98] := by
    rintro q (rfl | rfl)
    · decide +kernel
    · decide +kernel
  intro p hp p' hp' hne
  rw [hclosed, hclosed]
  rcases hp with rfl | rfl <;> rcases hp' with rfl | rfl
  · exact absurd rfl hne
  · exact hab q hq
  · exact (hab q hq).symm
  · exact absurd rfl hne

/-- Initialise with `a`, change the password to `b`: then `b` unlocks a new
`Repository` and `a` does not. -/
theorem keyFile_lifeCycle_change :
    ∃ s₀ s₁ t t',
      initializeRepository (zeroEnv passwordTables.crypto) [97] 0 DefaultProgressFunction
        emptySession = ok () s₀ ∧
      runCalls (zeroEnv passwordTables.crypto)
        [⟨none, [97], [98], 0, DefaultProgressFunction⟩] s₀ = ok [.ok true] s₁ ∧
      unlockRepository (zeroEnv passwordTables.crypto) [98] DefaultProgressFunction s₁ = ok true t ∧
      t.keys = generatedKeys (zeroEnv passwordTables.crypto) 0 ∧
      unlockRepository (zeroEnv passwordTables.crypto) [97] DefaultProgressFunction s₁ = ok false t' := by
  obtain ⟨s₀, s₁, hinit, hrun, hopen, -⟩ := keyFile_lifeCycle FileDataStore.storeModel
    (E := zeroEnv passwordTables.crypto) (s := emptySession)
    (P := {p | p = [97] ∨ p = [98]})
    passwordTables.crypto_lawful emptySession_ok
    (show (0 : UInt8).toNat ≤ MAX_LOG_ROUNDS from Nat.zero_le _)
    (fun _ _ => rfl)
    [⟨none, [97], [98], 0, DefaultProgressFunction⟩] (Or.inl rfl)
    (fun c hc => by
      rw [List.mem_singleton] at hc
      subst hc
      exact ⟨fun _ _ => rfl, Or.inl rfl, Or.inr rfl⟩)
    (fun i _ q hq l rest => passwordTables_differ _ hq l rest)
  obtain ⟨t, hright, hkeys⟩ := hopen s₁ rfl [98] (Or.inr rfl) DefaultProgressFunction fun _ _ => rfl
  obtain ⟨t', hwrong, -⟩ := hopen s₁ rfl [97] (Or.inl rfl) DefaultProgressFunction fun _ _ => rfl
  exact ⟨s₀, s₁, t, t', hinit, hrun, hright, hkeys rfl, hwrong⟩

end Nebula
