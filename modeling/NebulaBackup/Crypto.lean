/-
What the program takes from LibreSSL and from the LZMA SDK.

The digests, the block cipher, the key derivation and the LZMA2 coder are
parameters of the model, collected in `Crypto`; `Crypto.Lawful` lists what the
program relies on.  The incremental interfaces are modelled on top of them:
CBC with padding is `Cbc`, an `HMAC_CTX` is the data it was fed, and the LZMA2
decoder is a state that turns pieces of input into pieces of output
(`Lzma2Dec_DecodeToBuf`).
-/
import NebulaBackup.Basic
import NebulaBackup.Cbc

namespace Nebula

/-- `CompressionType.h`. -/
inductive CompressionType
  | NoCompression
  | LZMA2
deriving DecidableEq, Repr

namespace CompressionType

/-- The enumerator's value. -/
def toByte : CompressionType → UInt8
  | NoCompression => 0
  | LZMA2 => 1

/-- The cast `(CompressionType)b`; `none` for a value that no enumerator has. -/
def ofByte (b : UInt8) : Option CompressionType :=
  if b = 0 then some NoCompression else if b = 1 then some LZMA2 else none

@[simp] theorem ofByte_toByte (t : CompressionType) : ofByte t.toByte = some t := by
  cases t <;> rfl

theorem toByte_injective : Function.Injective toByte := by
  intro a b h
  have := congrArg ofByte h
  simpa using this

end CompressionType

/-! ### LZMA2 -/

/-- `ELzmaStatus`. -/
inductive ELzmaStatus
  | NotSpecified
  | FinishedWithMark
  | NotFinished
  | NeedsMoreInput
  | MaybeFinishedWithoutMark
deriving DecidableEq

/-- The statuses on which `LZMAInputStream::read` returns. -/
def ELzmaStatus.finished (st : ELzmaStatus) : Bool :=
  st = .FinishedWithMark ∨ st = .MaybeFinishedWithoutMark

/-- What one call of `Lzma2Dec_DecodeToBuf` did. -/
structure LzmaStep (State : Type) where
  state : State
  out : Bytes
  consumed : ℕ
  status : ELzmaStatus

/-- The LZMA2 coder: the property byte and the writes of the encoder, and the
decoder as a state machine. -/
structure Lzma where
  State : Type
  /-- How many bytes the encoder asks its input for at a time. -/
  readSize : ℕ
  /-- `Lzma2Enc_WriteProperties`, and the successive writes of
  `Lzma2Enc_Encode`. -/
  encode : Bytes → UInt8 × List Bytes
  /-- `Lzma2Dec_Allocate` and `Lzma2Dec_Init`; `none` is an error. -/
  allocate : UInt8 → Option State
  /-- `Lzma2Dec_DecodeToBuf` with room for so many bytes; `none` is an error. -/
  decodeToBuf : State → ℕ → Bytes → Option (LzmaStep State)

namespace Lzma

/-- One call of the decoder in the middle of a stream: `r` is the input still
to come, `o` the output still due and `input` the part of `r` offered.  The
call ends the stream, fills the room given to it, or uses up the input. -/
def GoodStep {State : Type} (Mid : State → Bytes → Bytes → Prop) (r o input : Bytes) (room : ℕ)
    (st : LzmaStep State) : Prop :=
  st.out.length ≤ room ∧ st.consumed ≤ input.length ∧
    ((st.status.finished = true ∧ st.out = o ∧ st.consumed = r.length) ∨
      (st.status.finished = false ∧ (st.out.length = room ∨ st.consumed = input.length) ∧
        ∃ o', o = st.out ++ o' ∧ Mid st.state (r.drop st.consumed) o'))

/-- The decoder is a streaming inverse of the encoder.  `Mid s r o` is the
decoder's invariant: in state `s` the remaining input `r`, which ends with the
end mark, decodes to `o`. -/
def StreamingInverse (L : Lzma) : Prop :=
  0 < L.readSize ∧
    ∃ Mid : L.State → Bytes → Bytes → Prop,
      (∀ s r o, Mid s r o → r ≠ []) ∧
      (∀ d, ∃ s, L.allocate (L.encode d).1 = some s ∧ Mid s (L.encode d).2.flatten d) ∧
      ∀ s r o, Mid s r o → ∀ input room, input <+: r → input ≠ [] → 0 < room →
        ∃ st, L.decodeToBuf s room input = some st ∧ GoodStep Mid r o input room st

end Lzma

/-! ### The whole library -/

/-- `EVP_MAX_KEY_LENGTH`. -/
def EVP_MAX_KEY_LENGTH : ℕ := 64

/-- `EVP_MAX_MD_SIZE`. -/
def EVP_MAX_MD_SIZE : ℕ := 64

/-- `EVP_MAX_IV_LENGTH`. -/
def EVP_MAX_IV_LENGTH : ℕ := 16

/-- `EVP_MAX_BLOCK_LENGTH`. -/
def EVP_MAX_BLOCK_LENGTH : ℕ := 32

/-- `PKCS5_SALT_LEN`. -/
def PKCS5_SALT_LEN : ℕ := 8

/-- The library functions the program calls. -/
structure Crypto where
  /-- HMAC-SHA256 of the data under the key. -/
  hmacSha256 : Bytes → Bytes → Digest 32
  /-- What `HMAC_Final` writes for a context that was finished before and not
  initialised again: it was made with the key and fed these pieces. -/
  staleHmac : Bytes → List Bytes → Digest 32
  md5 : Bytes → Digest 16
  /-- AES-256 under a 32-byte key. -/
  aes256 : Bytes → BlockCipher
  /-- `PKCS5_PBKDF2_HMAC` with SHA-512: password, salt, iterations, length of
  the key. -/
  pbkdf2 : Bytes → Bytes → ℤ → ℕ → Bytes
  lzma : Lzma

namespace Crypto

/-- `EVP_aes_256_cbc` reads 32 bytes of the key it is given. -/
def cipher (C : Crypto) (key : Bytes) : BlockCipher := C.aes256 (key.take 32)

/-- What the program relies on. -/
structure Lawful (C : Crypto) : Prop where
  aes_lawful : ∀ k, (C.aes256 k).Lawful
  aes_size : ∀ k, (C.aes256 k).size = 16
  pbkdf2_length : ∀ password salt iter n, (C.pbkdf2 password salt iter n).length = n
  lzma_inverse : C.lzma.StreamingInverse

variable {C : Crypto}

theorem Lawful.cipher_lawful (h : C.Lawful) (key : Bytes) : (C.cipher key).Lawful :=
  h.aes_lawful _

@[simp] theorem Lawful.cipher_size (h : C.Lawful) (key : Bytes) : (C.cipher key).size = 16 :=
  h.aes_size _

/-- An IV is one block. -/
theorem Lawful.iv_length (h : C.Lawful) (key : Bytes) {iv : Bytes}
    (hiv : iv.length = EVP_MAX_IV_LENGTH) : iv.length = (C.cipher key).size := by
  rw [h.cipher_size, hiv, EVP_MAX_IV_LENGTH]

end Crypto

end Nebula
