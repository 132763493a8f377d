/-
`StreamUtils`: the pipeline every object passes through.

`compressEncryptHMAC` compresses and enciphers a stream into a temporary one
and puts the HMAC in front; `decompressDecryptHMAC` checks the HMAC in a first
pass and undoes the rest in a second.  `sealedObject` is the byte string in
between.  Main results:

* `compressEncryptHMAC_spec` — the returned stream holds `sealedObject`;
* `decompressDecryptHMAC_spec` — from any rewindable stream that holds it the
  original bytes are written;
* `objectPipeline_roundTrip` — the two together, for every use of the stream
  in between.
-/
import NebulaBackup.CipherStreams
import NebulaBackup.LzmaStreams
import NebulaBackup.MemoryStreams
import NebulaBackup.CompositeStreams
import NebulaBackup.SampleCrypto

namespace Nebula

open EStateM.Result

/-- `EncryptedHMACStream`: the HMAC in memory followed by the encrypted
temporary stream. -/
abbrev EncryptedHMACStream := MultiInputStream TempInputStream

/-- The constructor of `EncryptedHMACStream`. -/
def EncryptedHMACStream.new (hmac : Digest 32) (encStream : TempInputStream) :
    EncryptedHMACStream :=
  MultiInputStream.new [.inl (.new hmac.toList), encStream]

section StreamUtils

variable {σ ω : Type} [InputStream σ] [OutputStream ω]

/-- The HMAC loop over the encrypted stream, and the stream that is
returned. -/
def appendHMAC (C : Crypto) (macKey : Bytes) (encrypted : TempInputStream) :
    Except Fault EncryptedHMACStream :=
  match readAll 8192 ((InputStream.size encrypted).toNat + 1) encrypted [] with
  | error e _ => .error e
  | ok fed s =>
    match InputStream.rewind s with
    | error e _ => .error e
    | ok _ s' =>
      .ok (.new (C.hmacSha256 (macKey.take SHA256_DIGEST_LENGTH) fed) s')

/-- The `switch` of `compressEncryptHMAC`. -/
def compressInto (C : Crypto) (fuel : ℕ) (t : CompressionType) (s : σ) (o : ω) :
    Result (σ × ω) Unit :=
  match t with
  | .NoCompression => copyTo fuel s o
  | .LZMA2 => compress C.lzma fuel s o

/-- `StreamUtils::compressEncryptHMAC`; `iv` is what `arc4random_buf` returned
and `fuel` bounds the reads from `s`. -/
def compressEncryptHMAC (C : Crypto) (fuel : ℕ) (t : CompressionType) (cipher : Bytes → BlockCipher)
    (encKey macKey iv : Bytes) (s : σ) : Result σ EncryptedHMACStream :=
  match EncryptedOutputStream.new TempFileStream.new (cipher encKey) iv with
  | error e _ => error e s
  | ok _ enc =>
    match compressInto C fuel t s enc with
    | error e (s', _) => error e s'
    | ok _ (s', enc') =>
      match EncryptedOutputStream.close enc' with
      | error e _ => error e s'
      | ok _ enc'' =>
        match enc''.stream.inputStream with
        | none => error .undefined s'
        | some encrypted =>
          match appendHMAC C macKey encrypted with
          | .error e => error e s'
          | .ok out => ok out s'

/-- The second pass of `decompressDecryptHMAC`, after the HMAC was skipped.
The cipher is `EVP_aes_256_cbc` whatever the caller passed. -/
def decompressDecrypt (C : Crypto) (fuel : ℕ) (t : Option CompressionType) (encKey : Bytes)
    (s : σ) (o : ω) : Result (σ × ω) Unit :=
  match t with
  | none => error (.thrown .InvalidArgumentException "Invalid compression type.") (s, o)
  | some t =>
    match DecryptedInputStream.new fuel s (C.cipher encKey) with
    | error e d => error e (d.stream, o)
    | ok _ d =>
      match t with
      | .NoCompression =>
        match copyTo fuel d o with
        | error e (d', o') => error e (d'.stream, o')
        | ok _ (d', o') => ok () (d'.stream, o')
      | .LZMA2 =>
        match LZMAInputStream.new C.lzma d with
        | error e d' => error e (d'.stream, o)
        | ok dec d' =>
          match copyTo fuel (⟨d', dec, [], fuel⟩ : LZMAInputStream C.lzma _) o with
          | error e (z, o') => error e (z.stream.stream, o')
          | ok _ (z, o') => ok () (z.stream.stream, o')

/-- `StreamUtils::decompressDecryptHMAC`; `t` is `none` for a compression byte
that is no enumerator. -/
def decompressDecryptHMAC (C : Crypto) (fuel : ℕ) (t : Option CompressionType)
    (_cipher : Bytes → BlockCipher) (encKey macKey : Bytes) (s : σ) (o : ω) :
    Result (σ × ω) Unit :=
  if InputStream.canRewind s = false then
    error (.thrown .InvalidArgumentException "Input stream must be rewindable.") (s, o)
  else
    match readExpected s SHA256_DIGEST_LENGTH with
    | error e s' => error e (s', o)
    | ok hmac1 s' =>
      match readAll 8192 fuel s' [] with
      | error e s'' => error e (s'', o)
      | ok fed s'' =>
        if hmac1 ≠ (C.hmacSha256 (macKey.take SHA256_DIGEST_LENGTH) fed).toList then
          error (.thrown .VerificationFailedException "Failed to verify HMAC.") (s'', o)
        else
          match InputStream.rewind s'' with
          | error e s3 => error e (s3, o)
          | ok _ s3 =>
            match readExpected s3 SHA256_DIGEST_LENGTH with
            | error e s4 => error e (s4, o)
            | ok _ s4 => decompressDecrypt C fuel t encKey s4 o

end StreamUtils

/-! ### The byte string in between -/

/-- What is enciphered for the given data. -/
def payload (C : Crypto) (t : CompressionType) (d : Bytes) : Bytes :=
  match t with
  | .NoCompression => d
  | .LZMA2 => compressed C.lzma d

/-- `IV | ciphertext`. -/
def ivCiphertext (C : Crypto) (t : CompressionType) (encKey iv d : Bytes) : Bytes :=
  iv ++ Cbc.encrypt (C.cipher encKey) iv (payload C t d)

/-- `HMAC | IV | ciphertext`, the bytes of an object. -/
def sealedObject (C : Crypto) (t : CompressionType) (encKey macKey iv d : Bytes) : Bytes :=
  (C.hmacSha256 (macKey.take SHA256_DIGEST_LENGTH) (ivCiphertext C t encKey iv d)).toList ++
    ivCiphertext C t encKey iv d

section Specs

variable {C : Crypto} {t : CompressionType} {encKey macKey iv d : Bytes}

/-- The size of an object is a function of the payload's length. -/
theorem sealedObject_length (hC : C.Lawful) (hiv : iv.length = EVP_MAX_IV_LENGTH) :
    (sealedObject C t encKey macKey iv d).length =
      48 + ((payload C t d).length / 16 + 1) * 16 := by
  rw [sealedObject, ivCiphertext, List.length_append, List.length_append, List.Vector.toList_length,
    Cbc.encrypt_length (hC.cipher_lawful encKey) (hC.iv_length encKey hiv), hC.cipher_size, hiv,
    EVP_MAX_IV_LENGTH]
  omega

theorem payload_length_lt (hC : C.Lawful) (hiv : iv.length = EVP_MAX_IV_LENGTH) :
    (payload C t d).length < (sealedObject C t encKey macKey iv d).length := by
  rw [sealedObject_length hC hiv]
  omega

variable {σ ω : Type} [InputStream σ] [OutputStream ω] {R : σ → Bytes → Prop}
  {W : ω → Bytes → Prop} {fuel : ℕ}

theorem compressInto_spec (hC : C.Lawful) (hR : Source R) (hW : Sink W) {s : σ} {o : ω}
    {w : Bytes} (hs : R s d) (ho : W o w) (hfuel : d.length < fuel) (t : CompressionType) :
    ∃ s' o', compressInto C fuel t s o = ok () (s', o') ∧ R s' [] ∧ W o' (w ++ payload C t d) := by
  cases t with
  | NoCompression => exact copyTo_spec hR hW hs ho hfuel
  | LZMA2 => exact compress_spec hC.lzma_inverse hR hW hs ho hfuel

theorem appendHMAC_spec {encrypted : TempInputStream} {c : Bytes} (h : Holds encrypted c)
    (macKey : Bytes) :
    ∃ out, appendHMAC C macKey encrypted = .ok out ∧
      Holds out ((C.hmacSha256 (macKey.take SHA256_DIGEST_LENGTH) c).toList ++ c) := by
  have hsize := RewindableStream.size_eq h
  obtain ⟨s, hread, hs⟩ := readAll_spec (RewindableStream.source c) (show 0 < 8192 by decide) []
    h (k := (InputStream.size encrypted).toNat + 1) (by omega)
  obtain ⟨s', hrewind, hs'⟩ := RewindableStream.rewind_ok hs
  refine ⟨EncryptedHMACStream.new (C.hmacSha256 (macKey.take SHA256_DIGEST_LENGTH) c) s', ?_, ?_⟩
  · simp only [appendHMAC, hread, List.nil_append, hrewind]
  · have hnew := MultiInputStream.new_holds (σ := TempInputStream)
      (l := [.inl (.new (C.hmacSha256 (macKey.take SHA256_DIGEST_LENGTH) c).toList), s'])
      (.cons (MemoryInputStream.new_holds _) (.cons hs' .nil))
    simpa [EncryptedHMACStream.new] using hnew

/-- **What `compressEncryptHMAC` returns**: a stream that holds the object. -/
theorem compressEncryptHMAC_spec (hC : C.Lawful) (hR : Source R) {s : σ} (hs : R s d)
    (hfuel : d.length < fuel) (t : CompressionType) (encKey macKey iv : Bytes) :
    ∃ out s', compressEncryptHMAC C fuel t C.cipher encKey macKey iv s = ok out s' ∧
      Holds out (sealedObject C t encKey macKey iv d) := by
  obtain ⟨enc, hnew, henc⟩ := EncryptedOutputStream.new_spec (TempFileStream.sink.upTo _)
    TempFileStream.new_written (C.cipher encKey) (le_refl _)
  obtain ⟨s', enc', hinto, -, henc'⟩ :=
    compressInto_spec hC hR (EncryptedOutputStream.sink TempFileStream.sink) hs henc hfuel t
  obtain ⟨enc'', hclose, henc''⟩ := EncryptedOutputStream.close_spec (TempFileStream.sink.upTo _) henc' (le_refl _)
  obtain ⟨encrypted, hstream, hholds⟩ := TempFileStream.inputStream_holds henc''
  obtain ⟨out, hmac, hout⟩ := appendHMAC_spec (C := C) hholds macKey
  refine ⟨out, s', ?_, hout⟩
  simp only [compressEncryptHMAC, hnew, hinto, hclose, hstream, hmac]

theorem decompressDecrypt_spec (hC : C.Lawful) (hR : Source R) (hW : Sink W) {s : σ} {o : ω}
    {w : Bytes} (hs : R s (ivCiphertext C t encKey iv d)) (ho : W o w)
    (hiv : iv.length = EVP_MAX_IV_LENGTH) (hd : d.length < fuel)
    (hfuel : (ivCiphertext C t encKey iv d).length ≤ fuel) :
    ∃ s' o', decompressDecrypt C fuel (some t) encKey s o = ok () (s', o') ∧ W o' (w ++ d) := by
  have hsize := hC.iv_length encKey hiv
  have hlen : (ivCiphertext C t encKey iv d).length = 16 + ((payload C t d).length / 16 + 1) * 16 := by
    rw [ivCiphertext, List.length_append, Cbc.encrypt_length (hC.cipher_lawful encKey) hsize,
      hC.cipher_size, hiv, EVP_MAX_IV_LENGTH]
  have hct : (Cbc.encrypt (C.cipher encKey) iv (payload C t d)).length + 3 ≤ fuel := by
    rw [ivCiphertext, List.length_append, hiv, EVP_MAX_IV_LENGTH] at hlen hfuel
    omega
  obtain ⟨dec, hnew, hdec⟩ := DecryptedInputStream.new_spec hR hs hiv
    (Cbc.decrypt_encrypt (hC.cipher_lawful encKey) hsize (payload C t d)) hct
  have hD : Source (DecryptedInputStream.Rep R : DecryptedInputStream σ → Bytes → Prop) :=
    DecryptedInputStream.source hR
  cases t with
  | NoCompression =>
    obtain ⟨dec', o', hcopy, -, ho'⟩ := copyTo_spec hD hW hdec ho hd
    refine ⟨dec'.stream, o', ?_, ho'⟩
    simp only [decompressDecrypt, hnew, hcopy]
  | LZMA2 =>
    -- the decompressor reads from the decipherer
    obtain ⟨Z, hZ, hopen⟩ := LZMAInputStream.source hC.lzma_inverse hD
    have hlz : (compressed C.lzma d).length ≤ fuel := by
      rw [payload] at hlen
      omega
    obtain ⟨st, dec', hlznew, hz⟩ := hopen hdec hlz
    obtain ⟨z, o', hcopy, -, ho'⟩ := copyTo_spec hZ hW hz ho hd
    refine ⟨z.stream.stream, o', ?_, ho'⟩
    simp only [decompressDecrypt, hnew, hlznew, hcopy]

/-- **What `decompressDecryptHMAC` writes** when it is given an object. -/
theorem decompressDecryptHMAC_spec [RewindableStream σ] (hC : C.Lawful) (hW : Sink W) {s : σ}
    {o : ω} {w : Bytes} (hs : Holds s (sealedObject C t encKey macKey iv d)) (ho : W o w)
    (hiv : iv.length = EVP_MAX_IV_LENGTH)
    (hfuel : d.length + (sealedObject C t encKey macKey iv d).length ≤ fuel)
    (cipher : Bytes → BlockCipher) :
    ∃ s' o', decompressDecryptHMAC C fuel (some t) cipher encKey macKey s o = ok () (s', o') ∧
      W o' (w ++ d) := by
  have hsrc : Source (RewindableStream.Rep (sealedObject C t encKey macKey iv d) : σ → _ → Prop) :=
    RewindableStream.source _
  have hpos : (payload C t d).length < (sealedObject C t encKey macKey iv d).length :=
    payload_length_lt hC hiv
  have hbody : (sealedObject C t encKey macKey iv d).length =
      32 + (ivCiphertext C t encKey iv d).length := by
    rw [sealedObject, List.length_append, List.Vector.toList_length]
  have hhmac : (C.hmacSha256 (macKey.take SHA256_DIGEST_LENGTH)
      (ivCiphertext C t encKey iv d)).toList.length = SHA256_DIGEST_LENGTH :=
    List.Vector.toList_length _
  -- first pass: the HMAC and what it is compared with
  obtain ⟨s1, hexp, hs1⟩ := readExpected_spec hsrc hs
  obtain ⟨s2, hall, hs2⟩ := readAll_spec (k := fuel) hsrc (show 0 < 8192 by decide) [] hs1
    (by omega)
  -- second pass
  obtain ⟨s3, hrewind, hs3⟩ := RewindableStream.rewind_ok hs2
  obtain ⟨s4, hexp', hs4⟩ := readExpected_spec hsrc hs3
  obtain ⟨s5, o', hdec, ho'⟩ := decompressDecrypt_spec hC hsrc hW hs4 ho hiv
    (show d.length < fuel by omega) (by omega)
  refine ⟨s5, o', ?_, ho'⟩
  rw [hhmac] at hexp hexp'
  simp only [decompressDecryptHMAC, RewindableStream.canRewind_eq hs, Bool.true_eq_false, if_false,
    hexp, hall, List.nil_append, ne_eq, not_true, hrewind, hexp', hdec]

/-- **The object pipeline is a round trip.**  Whatever reads and rewinds the
returned stream sees, it answers from one byte string, the HMAC, the IV and
the ciphertext, whose length is its size; and from every rewindable stream
that holds this byte string the original data is written. -/
theorem objectPipeline_roundTrip (hC : C.Lawful) (hR : Source R) (t : CompressionType)
    (encKey macKey iv d : Bytes) (hiv : iv.length = EVP_MAX_IV_LENGTH) {s : σ} (hs : R s d)
    (hfuel : d.length < fuel) :
    ∃ out s' ct b,
      compressEncryptHMAC C fuel t C.cipher encKey macKey iv s = ok out s' ∧
      ct = Cbc.encrypt (C.cipher encKey) iv (payload C t d) ∧
      b = (C.hmacSha256 (macKey.take SHA256_DIGEST_LENGTH) (iv ++ ct)).toList ++ iv ++ ct ∧
      (∀ ops : List StreamOp, ∃ out', runOps ops out = ok (cursorOps b ops b) out' ∧
        InputStream.size out' = b.length) ∧
      (∀ ns : List ℕ, ∃ out' reads, runOps (ns.map .read) out = ok reads out' ∧
        reads.flatten = b.take ns.sum) ∧
      (∀ (ops : List StreamOp) (ns : List ℕ), ∃ out' before reads,
        runOps (ops ++ .rewind :: ns.map .read) out = ok (before ++ reads) out' ∧
          reads.flatten = b.take ns.sum) ∧
      ∀ {τ : Type} [InputStream τ] [RewindableStream τ] {ω : Type} [OutputStream ω]
        {W : ω → Bytes → Prop} (_ : Sink W) {i : τ} {o : ω} {w : Bytes} (fuel' : ℕ),
        Holds i b → W o w → d.length + b.length ≤ fuel' →
          ∃ i' o', decompressDecryptHMAC C fuel' (some t) C.cipher encKey macKey i o =
            ok () (i', o') ∧ W o' (w ++ d) := by
  obtain ⟨out, s', hcomp, hout⟩ := compressEncryptHMAC_spec hC hR hs hfuel t encKey macKey iv
  refine ⟨out, s', Cbc.encrypt (C.cipher encKey) iv (payload C t d),
    sealedObject C t encKey macKey iv d, hcomp, rfl, ?_, ?_, ?_, ?_, ?_⟩
  · rw [sealedObject, ivCiphertext, List.append_assoc]
  · intro ops
    obtain ⟨out', r', hrun, hout'⟩ := runOps_spec ops hout
    exact ⟨out', hrun, RewindableStream.size_eq hout'⟩
  · exact fun ns => hout.runReads ns
  · exact fun ops ns => hout.runRewound ops ns
  · intro τ _ _ ω _ W hW i o w fuel' hi ho hfuel'
    exact decompressDecryptHMAC_spec hC hW hi ho hiv hfuel' C.cipher

/-- The values of AES-256 and HMAC-SHA256 under zero keys for the byte `a`
and a zero IV. -/
def zeroKeyTables : SampleTables where
  aes := [(List.replicate 32 0, ⟨97 :: List.replicate 15 15, rfl⟩,
    ⟨[180, 165, 233, 138, 246, 129, 10, 131, 189, 245, 43, 20, 174, 130, 44, 55], rfl⟩)]
  hmac := [((List.replicate 32 0, List.replicate 16 0 ++
      [180, 165, 233, 138, 246, 129, 10, 131, 189, 245, 43, 20, 174, 130, 44, 55]),
    ⟨[74, 94, 197, 65, 22, 31, 145, 231, 83, 27, 18, 226, 12, 53, 77, 172,
      79, 153, 116, 158, 206, 163, 150, 210, 86, 196, 9, 137, 112, 85, 118, 3], rfl⟩)]

/-- The round trip of the byte `a` through its 64-byte object. -/
theorem objectPipeline_roundTrip_byte :
    ∃ out s' b,
      compressEncryptHMAC zeroKeyTables.crypto 2 .NoCompression zeroKeyTables.crypto.cipher
        (List.replicate 64 0) (List.replicate 64 0) (List.replicate 16 0)
        (MemoryInputStream.new [97]) = ok out s' ∧
      b = [74, 94, 197, 65, 22, 31, 145, 231, 83, 27, 18, 226, 12, 53, 77, 172,
        79, 153, 116, 158, 206, 163, 150, 210, 86, 196, 9, 137, 112, 85, 118, 3] ++
        List.replicate 16 0 ++
        [180, 165, 233, 138, 246, 129, 10, 131, 189, 245, 43, 20, 174, 130, 44, 55] ∧
      ∃ i' o', decompressDecryptHMAC zeroKeyTables.crypto 65 (some .NoCompression)
        zeroKeyTables.crypto.cipher (List.replicate 64 0) (List.replicate 64 0)
        (MemoryInputStream.new b) TempFileStream.new = ok () (i', o') ∧
        TempFileStream.Written o' [97] := by
  obtain ⟨out, s', ct, b, hcomp, hct, hb, -, -, -, hdec⟩ :=
    objectPipeline_roundTrip zeroKeyTables.crypto_lawful
      (RewindableStream.source [97]) .NoCompression (List.replicate 64 0) (List.replicate 64 0)
      (List.replicate 16 0) [97] rfl (MemoryInputStream.new_holds [97])
      (show 1 < 2 by decide)
  have hct' : ct = [180, 165, 233, 138, 246, 129, 10, 131, 189, 245, 43, 20, 174, 130, 44, 55] := by
    rw [hct]
    decide +kernel
  subst hct'
  refine ⟨out, s', b, hcomp, ?_, ?_⟩
  · rw [hb]
    decide +kernel
  · refine hdec TempFileStream.sink 65 (MemoryInputStream.new_holds b) TempFileStream.new_written ?_
    rw [hb]
    decide +kernel

end Specs

end Nebula
