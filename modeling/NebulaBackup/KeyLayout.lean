/-
The key file against its documented layout.

`documentedKeyFile` is the layout of `/key` in the description of the format:
it ends with an HMAC of 32 bytes.  `writeRepositoryKey` writes the whole array
that the HMAC stands in, `sizeof(hmac)` bytes of which `HMAC` has set the first
32, so the file has 32 more bytes and these are what the memory held before
(`writeRepositoryKey_stored`).  Main result:

* `keyFile_layout_iff` — the layout is kept, and the same inputs give the same
  file, only by a call that refuses its number of rounds and stores nothing.
-/
import NebulaBackup.KeyFile

namespace Nebula

open EStateM.Result

/-- `/key` as the description of the format has it. -/
def documentedKeyFile (C : Crypto) (password : Bytes) (logRounds : UInt8)
    (salt : Digest PKCS5_SALT_LEN) (iv : Digest EVP_MAX_IV_LENGTH) (keys : RepositoryKeys) : Bytes :=
  let rounds := 1 <<< logRounds.toNat
  let derivedKey := deriveKey C password salt.toList rounds EVP_MAX_KEY_LENGTH
  let keyBlock := iv.toList ++ Cbc.encrypt (C.cipher derivedKey) iv.toList keys.bytes
  ascii "NEBULABACKUP" ++ (leBytes 4 0x00010000 ++ (leBytes 4 0 ++ (leBytes 4 rounds ++
    (salt.toList ++ (keyBlock ++ (C.hmacSha256 derivedKey keyBlock).toList)))))

/-- A file as it is written has 32 more bytes. -/
theorem KeyFile.bytes_eq_documented (C : Crypto) (f : KeyFile) :
    f.bytes C = documentedKeyFile C f.password f.logRounds f.salt f.iv f.keys ++ f.rest.toList := by
  simp only [documentedKeyFile, KeyFile.bytes, KeyFile.encKeys, KeyFile.tag, KeyFile.derived,
    List.append_assoc]

section Layout

variable {δ : Type} [DataStore δ] (M : StoreModel δ) (E : Env) (password : Bytes)
  (logRounds : UInt8) (progress : ProgressFunction) (s : Session δ)

/-- The file for the next random bytes, as documented. -/
def nextDocumented : Bytes :=
  documentedKeyFile E.C password logRounds (bytesFrom E.random s.randomUsed PKCS5_SALT_LEN)
    (bytesFrom E.random (s.randomUsed + PKCS5_SALT_LEN) EVP_MAX_IV_LENGTH) s.keys

/-- What `writeRepositoryKey` puts at `/key` is what is documented. -/
def StoresDocumented : Prop :=
  ∀ s', writeRepositoryKey E password logRounds progress s = ok () s' →
    M.contents s'.store (ascii "/key") = some (nextDocumented E password logRounds s)

/-- Two runs that differ in the previous contents of the memory put the same at
`/key`. -/
def StoresSame : Prop :=
  ∀ (memory₁ memory₂ : ℕ → UInt8) (s₁ s₂ : Session δ),
    writeRepositoryKey { E with uninit := memory₁ } password logRounds progress s = ok () s₁ →
    writeRepositoryKey { E with uninit := memory₂ } password logRounds progress s = ok () s₂ →
      M.contents s₁.store (ascii "/key") = M.contents s₂.store (ascii "/key")

variable {M E logRounds progress s}

/-- **What is at `/key` after the call**: the documented file and 32 bytes of
memory. -/
theorem writeRepositoryKey_stored (hC : E.C.Lawful) (hs : M.Ok s.store)
    (hprog : ∀ i j, progress i j = true) (hl : logRounds.toNat ≤ MAX_LOG_ROUNDS)
    (memory : ℕ → UInt8) :
    ∃ s', writeRepositoryKey { E with uninit := memory } password logRounds progress s = ok () s' ∧
      M.contents s'.store (ascii "/key") = some (nextDocumented E password logRounds s ++
        (bytesFrom memory (s.uninitUsed + 32) 32).toList) := by
  obtain ⟨d, hrun, -, hcont⟩ := writeRepositoryKey_run M (E := { E with uninit := memory }) hC hs
    password hl hprog
  refine ⟨_, hrun, ?_⟩
  show M.contents d _ = _
  rw [hcont, Function.update_self, KeyFile.bytes_eq_documented]
  rfl

/-- The file is too long. -/
theorem not_storesDocumented (hC : E.C.Lawful) (hs : M.Ok s.store)
    (hprog : ∀ i j, progress i j = true) (hl : logRounds.toNat ≤ MAX_LOG_ROUNDS) :
    ¬ StoresDocumented M E password logRounds progress s := by
  intro h
  obtain ⟨s', hrun, hstored⟩ := writeRepositoryKey_stored password hC hs hprog hl
    E.uninit
  rw [h s' hrun, Option.some.injEq] at hstored
  have hlen := congrArg List.length hstored
  rw [List.length_append, List.Vector.toList_length] at hlen
  omega

/-- Memory of zeros and memory of ones give different files. -/
theorem not_storesSame (hC : E.C.Lawful) (hs : M.Ok s.store)
    (hprog : ∀ i j, progress i j = true) (hl : logRounds.toNat ≤ MAX_LOG_ROUNDS) :
    ¬ StoresSame M E password logRounds progress s := by
  intro h
  obtain ⟨s₁, hrun₁, hstored₁⟩ := writeRepositoryKey_stored password hC hs hprog hl
    fun _ => 0
  obtain ⟨s₂, hrun₂, hstored₂⟩ := writeRepositoryKey_stored password hC hs hprog hl
    fun _ => 1
  have hsame := h _ _ s₁ s₂ hrun₁ hrun₂
  rw [hstored₁, hstored₂, Option.some.injEq, List.append_cancel_left_eq] at hsame
  have hfirst : some (0 : UInt8) = some 1 := congrArg List.head? hsame
  exact absurd hfirst (by decide)

/-- **When the key file is as documented.**  On a store that works, the layout
is kept and the file depends on the inputs only exactly if the number of rounds
is refused; otherwise the documented file is followed by 32 bytes of
uninitialised memory. -/
theorem keyFile_layout_iff (M : StoreModel δ) (hC : E.C.Lawful) (hs : M.Ok s.store)
    (hprog : ∀ i j, progress i j = true) (password : Bytes) (logRounds : UInt8) :
    (StoresDocumented M E password logRounds progress s ∧
        StoresSame M E password logRounds progress s ↔ MAX_LOG_ROUNDS < logRounds.toNat) ∧
      (logRounds.toNat ≤ MAX_LOG_ROUNDS → ∀ memory, ∃ s',
        writeRepositoryKey { E with uninit := memory } password logRounds progress s = ok () s' ∧
          M.contents s'.store (ascii "/key") = some (nextDocumented E password logRounds s ++
            (bytesFrom memory (s.uninitUsed + 32) 32).toList)) := by
  refine ⟨⟨fun h => ?_, fun hl => ⟨?_, ?_⟩⟩, fun hl => writeRepositoryKey_stored password hC hs hprog hl⟩
  · by_contra hc
    exact not_storesDocumented password hC hs hprog (by omega) h.1
  · intro s' hrun
    rw [writeRepositoryKey_refused hl] at hrun
    exact absurd hrun (by simp)
  · intro memory₁ memory₂ s₁ s₂ hrun₁
    rw [writeRepositoryKey_refused hl] at hrun₁
    exact absurd hrun₁ (by simp)

end Layout

/-- The password `a` with one round, with 32 refused rounds, and what the first
leaves of memory that held ones. -/
theorem keyFile_layout_iff_sample :
    ¬ (StoresDocumented FileDataStore.storeModel (zeroEnv passwordTables.crypto) [97] 0
          DefaultProgressFunction emptySession ∧
        StoresSame FileDataStore.storeModel (zeroEnv passwordTables.crypto) [97] 0
          DefaultProgressFunction emptySession) ∧
      StoresDocumented FileDataStore.storeModel (zeroEnv passwordTables.crypto) [97] 32
        DefaultProgressFunction emptySession ∧
      ∃ s', writeRepositoryKey { zeroEnv passwordTables.crypto with uninit := fun _ => 1 } [97] 0
          DefaultProgressFunction emptySession = ok () s' ∧
        s'.store.contents (ascii "/key") =
          some (nextDocumented (zeroEnv passwordTables.crypto) [97] 0 emptySession ++
            List.replicate 32 1) := by
  have hprog : ∀ i j, DefaultProgressFunction i j = true := fun _ _ => rfl
  have hzero := keyFile_layout_iff FileDataStore.storeModel (E := zeroEnv passwordTables.crypto)
    passwordTables.crypto_lawful emptySession_ok hprog [97] 0
  have hrefused := keyFile_layout_iff FileDataStore.storeModel (E := zeroEnv passwordTables.crypto)
    passwordTables.crypto_lawful emptySession_ok hprog [97] 32
  refine ⟨fun h => absurd (hzero.1.mp h) (by decide), (hrefused.1.mpr (by decide)).1, ?_⟩
  exact hzero.2 (by decide) fun _ => 1

/-- The file of zero keys with the password `a` and one round is neither the
documented one nor the same in two runs. -/
theorem keyFile_layout_differs :
    ¬ StoresDocumented FileDataStore.storeModel (zeroEnv passwordTables.crypto) [97] 0
        DefaultProgressFunction emptySession ∧
      ¬ StoresSame FileDataStore.storeModel (zeroEnv passwordTables.crypto) [97] 0
        DefaultProgressFunction emptySession :=
  ⟨not_storesDocumented [97] passwordTables.crypto_lawful emptySession_ok (fun _ _ => rfl) (by decide),
    not_storesSame [97] passwordTables.crypto_lawful emptySession_ok (fun _ _ => rfl) (by decide)⟩

end Nebula
