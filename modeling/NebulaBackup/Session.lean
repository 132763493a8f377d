/-
The state of a repository in use.

A command is a program on a `Session`: the data store, the four keys, the
snapshot and the pack that are being filled, and how much of the random
numbers and of uninitialised memory was used up.  What does not change while
commands run stands in `Env`.  The calls on the data store are commands, and
on a store that is a map each has one equation that says what it does and
that everything else is left alone.
-/
import NebulaBackup.Hoare
import NebulaBackup.DataStore
import NebulaBackup.Snapshot
import NebulaBackup.RollingHash

namespace Nebula

open EStateM.Result

/-- `Repository::Options`. -/
structure Options where
  smallFileSize : ℤ
  maxBlockSize : ℤ
  minRollingHashBits : ℤ
  maxRollingHashBits : ℤ
  blockSplitCount : ℤ

/-- The defaults. -/
def Options.default : Options := ⟨512000, 50000000, 18, 25, 8⟩

/-- `FileTransferProgressFunction`. -/
abbrev FileTransferProgressFunction := ℤ → ℤ → ℤ → ℤ → Bool

/-- `DefaultFileTransferProgressFunction`. -/
def DefaultFileTransferProgressFunction : FileTransferProgressFunction := fun _ _ _ _ => true

/-- What is the same for all commands. -/
structure Env where
  C : Crypto
  options : Options
  /-- What `arc4random_buf` will deliver. -/
  random : ℕ → UInt8
  /-- What uninitialised memory holds, in the order in which it is read. -/
  uninit : ℕ → UInt8
  /-- `(int)ceil(log(n) / log(2))`. -/
  ceilLog2 : ℕ → ℤ

/-- The keys of a `Repository`, in `malloc(EVP_MAX_KEY_LENGTH)` bytes each. -/
structure RepositoryKeys where
  mEncKey : Digest EVP_MAX_KEY_LENGTH
  mMacKey : Digest EVP_MAX_KEY_LENGTH
  mHashKey : Digest EVP_MAX_KEY_LENGTH
  mRollKey : Digest EVP_MAX_KEY_LENGTH
deriving DecidableEq

/-- An `HMAC_CTX`: the key and what it was fed, the part since the last
`HMAC_Final` first. -/
structure HmacCtx where
  key : Bytes
  fed : List Bytes

namespace HmacCtx

/-- `HMAC_Init`. -/
def init (key : Bytes) : HmacCtx := ⟨key, [[]]⟩

/-- `HMAC_Update`. -/
def update (c : HmacCtx) (d : Bytes) : HmacCtx :=
  match c.fed with
  | [] => { c with fed := [d] }
  | part :: parts => { c with fed := (part ++ d) :: parts }

/-- `HMAC_Final`: the digest, and the context it leaves.  Only a context that
was initialised since the last time gives an HMAC. -/
def final (C : Crypto) (c : HmacCtx) : Digest 32 × HmacCtx :=
  (match c.fed with
    | [part] => C.hmacSha256 c.key part
    | parts => C.staleHmac c.key parts,
    { c with fed := [] :: c.fed })

end HmacCtx

/-- `PackFileInfo`, less the member that nothing reads. -/
structure PackFileInfo where
  path : Bytes
  user : Bytes
  group : Bytes
  type : FileType
  mode : UInt16
  compression : CompressionType
  size : UInt64
  mtime : Int64
  rollingHashBits : UInt8
  md5 : Digest 16
  offset : UInt32
  packLength : UInt32

/-- `PackUploadState`. -/
structure PackUploadState where
  hmac : HmacCtx
  fileInfos : List PackFileInfo
  packData : List Bytes
  rollingHash : Option RollingHash

/-- `PackUploadState()`. -/
def PackUploadState.new : PackUploadState := ⟨⟨[], []⟩, [], [], none⟩

/-- The state that commands work on. -/
structure Session (δ : Type) where
  store : δ
  keys : RepositoryKeys
  randomUsed : ℕ
  uninitUsed : ℕ
  snapshot : Snapshot
  pack : PackUploadState

/-- A command of the repository. -/
abbrev Command (δ : Type) := EStateM Fault (Session δ)

section Commands

variable {δ : Type}

/-- `n` bytes of a sequence from the position `i` on. -/
def bytesFrom (f : ℕ → UInt8) (i n : ℕ) : Digest n :=
  ⟨(List.range n).map fun j => f (i + j), by rw [List.length_map, List.length_range]⟩

/-- `arc4random_buf`. -/
def arc4random_buf (E : Env) (n : ℕ) : Command δ (Digest n) := fun s =>
  ok (bytesFrom E.random s.randomUsed n) { s with randomUsed := s.randomUsed + n }

/-- An array of `n` bytes that nothing was written to. -/
def uninitialised (E : Env) (n : ℕ) : Command δ (Digest n) := fun s =>
  ok (bytesFrom E.uninit s.uninitUsed n) { s with uninitUsed := s.uninitUsed + n }

/-- The array after `d` was written to its start. -/
def overwrite {n : ℕ} (old : Digest n) (d : Bytes) : Digest n :=
  ⟨(d ++ old.toList.drop d.length).take n, by
    rw [List.length_take, List.length_append, List.length_drop, old.toList_length]
    omega⟩

/-- A program on a stream that the caller owns: its result and the stream it
leaves. -/
def onStream {σ α : Type} (p : EStateM Fault σ α) (i : σ) : Command δ (α × σ) := fun s =>
  match p i with
  | error e _ => error e s
  | ok a i' => ok (a, i') s

/-- The bytes after the first `k`. -/
theorem bytesFrom_drop (f : ℕ → UInt8) (i k n : ℕ) :
    (bytesFrom f i (k + n)).toList.drop k = (bytesFrom f (i + k) n).toList := by
  show ((List.range (k + n)).map _).drop k = (List.range n).map _
  rw [List.range_add, List.map_append, List.drop_left' (by simp), List.map_map]
  simp only [Function.comp_def, Nat.add_assoc]

/-- An array that is written to its end holds what was written. -/
theorem overwrite_full {n : ℕ} (old d : Digest n) : overwrite old d.toList = d := by
  apply List.Vector.eq
  show (d.toList ++ old.toList.drop d.toList.length).take n = d.toList
  rw [List.drop_eq_nil_of_le (by simp), List.append_nil, List.take_of_length_le (by simp)]

theorem onStream_run {α σ : Type} {p : EStateM Fault σ α} {i i' : σ} {a : α}
    (h : p i = ok a i') (s : Session δ) : onStream p i s = ok (a, i') s := by
  simp only [onStream, h]

theorem onStream_error {α σ : Type} {p : EStateM Fault σ α} {i i' : σ} {e : Fault}
    (h : p i = error e i') (s : Session δ) : onStream p i s = error e s := by
  simp only [onStream, h]

/-- Call and catch. -/
def attempt {α : Type} (p : Command δ α) : Command δ (Except Fault α) := fun s =>
  match p s with
  | error e s' => ok (.error e) s'
  | ok a s' => ok (.ok a) s'

/-- The result of a computation that has no state of its own. -/
def ofExcept {α : Type} : Except Fault α → Command δ α
  | .ok a => pure a
  | .error e => throw e

theorem attempt_ok {α : Type} {p : Command δ α} {s s' : Session δ} {a : α} (h : p s = ok a s') :
    attempt p s = ok (.ok a) s' := by
  simp only [attempt, h]

theorem attempt_error {α : Type} {p : Command δ α} {s s' : Session δ} {e : Fault}
    (h : p s = error e s') : attempt p s = ok (.error e) s' := by
  simp only [attempt, h]

variable [DataStore δ]

/-- `mDataStore->exist(path)`. -/
def storeExist (path : Bytes) : Command δ Bool := fun s =>
  match DataStore.exist s.store path with
  | error e d => error e { s with store := d }
  | ok b d => ok b { s with store := d }

/-- `mDataStore->get(path, stream, progress)` into a stream of the caller. -/
def storeGet {ω : Type} [OutputStream ω] (path : Bytes) (o : ω) (progress : ProgressFunction) :
    Command δ ω := fun s =>
  match DataStore.get s.store path o progress with
  | error e (d, _) => error e { s with store := d }
  | ok _ (d, o') => ok o' { s with store := d }

/-- `mDataStore->put(path, stream, progress)` of a stream of the caller. -/
def storePut {σ : Type} [InputStream σ] (path : Bytes) (i : σ) (progress : ProgressFunction) :
    Command δ Unit := fun s =>
  match DataStore.put s.store path i progress with
  | error e (d, _) => error e { s with store := d }
  | ok _ (d, _) => ok () { s with store := d }

end Commands

/-! ### The commands on a store that is a map -/

section Specs

variable {δ : Type} [DataStore δ] (M : StoreModel δ) {s : Session δ}

theorem storeExist_run (h : M.Ok s.store) {path : Bytes} (hp : Path.isSep path 0 = true) :
    ∃ d, storeExist path s = ok (M.contents s.store path).isSome { s with store := d } ∧ M.Ok d ∧
      M.contents d = M.contents s.store := by
  obtain ⟨d, hex, hd, hcont⟩ := M.exist_ok h path hp
  refine ⟨d, ?_, hd, hcont⟩
  simp only [storeExist, hex]

theorem storeGet_run (h : M.Ok s.store) {path c : Bytes} (hp : Path.isSep path 0 = true)
    (hc : M.contents s.store path = some c) {ω : Type} [OutputStream ω] {W : ω → Bytes → Prop}
    (hW : Sink W) {o : ω} {w : Bytes} (ho : W o w) {progress : ProgressFunction}
    (hprog : ∀ i j, progress i j = true) :
    ∃ d o', storeGet path o progress s = ok o' { s with store := d } ∧ M.Ok d ∧
      M.contents d = M.contents s.store ∧ W o' (w ++ c) := by
  obtain ⟨d, o', hget, hd, hcont, ho'⟩ := M.get_ok h hp hc hW ho progress hprog
  refine ⟨d, o', ?_, hd, hcont, ho'⟩
  simp only [storeGet, hget]

theorem storePut_run (h : M.Ok s.store) {path c : Bytes} (hp : Path.isSep path 0 = true)
    {σ : Type} [InputStream σ] [RewindableStream σ] {i : σ} (hi : Holds i c)
    {progress : ProgressFunction} (hprog : ∀ i j, progress i j = true) :
    ∃ d, storePut path i progress s = ok () { s with store := d } ∧ M.Ok d ∧
      M.contents d = Function.update (M.contents s.store) path (some c) := by
  obtain ⟨d, i', hput, hd, hcont⟩ := M.put_ok h hp hi progress hprog
  refine ⟨d, ?_, hd, hcont⟩
  simp only [storePut, hput]

end Specs

/-! ### A session to start from -/

/-- All random and uninitialised bytes are zero, and the options are the
defaults. -/
def zeroEnv (C : Crypto) : Env := ⟨C, .default, fun _ => 0, fun _ => 0, fun _ => 0⟩

/-- Keys of zero bytes. -/
def zeroKeys : RepositoryKeys :=
  ⟨List.Vector.replicate 64 0, List.Vector.replicate 64 0, List.Vector.replicate 64 0,
    List.Vector.replicate 64 0⟩

/-- A session on an empty directory. -/
def emptySession : Session FileDataStore := ⟨⟨ascii "/backup", .empty, []⟩, zeroKeys, 0, 0, .new, .new⟩

theorem emptySession_ok : FileDataStore.storeModel.Ok emptySession.store :=
  fun _ he => absurd he List.not_mem_nil

end Nebula
