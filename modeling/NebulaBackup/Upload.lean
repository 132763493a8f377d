/-
`uploadFile` and `finalizePack`.

A file smaller than `smallFileSize` is one block, or one member of a pack when
the caller has a pack state; a larger one is cut into blocks.  A block becomes
an object under the HMAC of its compression byte and its bytes; an object that
exists is not uploaded again.  Members of a pack are collected until the
rolling hash asks for a new one or `finalizePack` is called, which stores them
one after the other in one object.

The state that these commands change is the `Session`; what they do on a store
that is a map is said in `UploadSpecs`.
-/
import NebulaBackup.StreamUtils
import NebulaBackup.StreamCodec
import NebulaBackup.Base32
import NebulaBackup.Chunker

namespace Nebula

open EStateM.Result

/-- `FileInfo`: what `stat` and the path say about a file. -/
structure FileInfo where
  mType : FileType
  mMode : UInt16
  mExtension : Bytes
  mUserName : Bytes
  mGroupName : Bytes
  mLength : UInt64
  mLastModifyTime : Int64

/-- `FileInfo::exists`. -/
def FileInfo.exists (f : FileInfo) : Bool := f.mType ≠ .FileNotFound

/-- `noCompressExt`. -/
def noCompressExt : List Bytes :=
  [".png", ".jpg", ".jpeg", ".gif", ".mov", ".mkv", ".avi", ".mp2", ".mp3", ".mp4", ".mpg", ".m4a",
    ".m4v", ".3gp", ".3gpp", ".3g2", ".3gpp2", ".wma", ".wmv", ".ogg", ".aac", ".zip", ".gz", ".bz2",
    ".xz", ".lz", ".lzo", ".lzma", ".z", ".7z", ".s7z", ".rar", ".apk", ".ipa", ".jar"].map ascii

/-- The compression that `uploadFile` chooses. -/
def compressionFor (f : FileInfo) : CompressionType :=
  if f.mExtension.map tolower ∈ noCompressExt then .NoCompression else .LZMA2

section Commands

variable {δ : Type} [DataStore δ]

/-! ### Blocks -/

/-- `Repository::computeBlockHMAC`. -/
def computeBlockHMAC (E : Env) (keys : RepositoryKeys) (block : Bytes) (compression : UInt8) :
    Digest 32 :=
  ((((HmacCtx.init (keys.mHashKey.toList.take SHA256_DIGEST_LENGTH)).update [compression]).update
    block).final E.C).1

/-- The path of an object in the store. -/
def objectPath (name : Bytes) : Bytes := ascii "/data/" ++ name

/-- `StreamUtils::compressEncryptHMAC` of a range of memory with the keys of
the repository; the IV is drawn at this point. -/
def sealMemory (E : Env) (t : CompressionType) (data : Bytes) :
    Command δ EncryptedHMACStream := do
  let iv ← arc4random_buf E EVP_MAX_IV_LENGTH
  let s ← get
  let (encryptedStream, _) ← onStream (compressEncryptHMAC E.C (data.length + 1) t E.C.cipher
    s.keys.mEncKey.toList s.keys.mMacKey.toList iv.toList) (MemoryInputStream.new data)
  return encryptedStream

/-- `Repository::compressEncryptAndUploadBlock`. -/
def compressEncryptAndUploadBlock (E : Env) (compressType : CompressionType) (objectId : ObjectID)
    (block : Bytes) (progress : ProgressFunction) : Command δ Unit := do
  let name ← ofExcept (objectIdToString objectId)
  let found ← storeExist (objectPath name)
  if found then
    if progress block.length block.length = false then
      throw (.thrown .CancelledException "User cancelled.")
    else return ()
  else
    let encryptedStream ← sealMemory E compressType block
    storePut (objectPath name) encryptedStream progress

/-! ### Packs -/

/-- `PackUploadState::addFile`.  The offset is the index of the member, and
nothing sets `packLength`. -/
def PackUploadState.addFile (p : PackUploadState) (data path user group : Bytes) (type : FileType)
    (mode : UInt16) (compression : CompressionType) (size : UInt64) (mtime : Int64)
    (rollingHashBits : UInt8) (md5 : Digest 16) (packLength : UInt32) : PackUploadState :=
  { p with
    hmac := p.hmac.update data
    fileInfos := p.fileInfos ++ [⟨path, user, group, type, mode, compression, size, mtime,
      rollingHashBits, md5, .ofNat p.packData.length, packLength⟩]
    packData := p.packData ++ [data] }

/-- A pack state is made ready when its first member comes. -/
def PackUploadState.open (C : Crypto) (keys : RepositoryKeys) (p : PackUploadState) :
    PackUploadState :=
  match p.rollingHash with
  | some _ => p
  | none => { p with
      rollingHash := some (RollingHash.new C keys.mRollKey.toList 8192)
      hmac := .init (keys.mHashKey.toList.take SHA256_DIGEST_LENGTH) }

/-- Roll all bytes of a member; whether the pack should be written after it. -/
def rollAll (h : RollingHash) : Bytes → Bool × RollingHash
  | [] => (false, h)
  | b :: rest =>
    match h.roll b with
    | (hash, h) =>
      match rollAll h rest with
      | (writePack, h) => (decide (hash &&& (2 ^ 20 - 1) = 0) || writePack, h)

/-- The entry of a member; its object is the pack. -/
def PackFileInfo.args (fi : PackFileInfo) (objectId : ObjectID) : AddArgs :=
  ⟨fi.path, fi.user, fi.group, fi.type, fi.mode, fi.compression, fi.size, fi.mtime,
    fi.rollingHashBits, fi.md5, fi.offset, fi.packLength, [objectId]⟩

/-- The first loop of `finalizePack`: seal the members and lay them out one
after the other.  The source changes `fileInfos` in place, one by one. -/
def layoutPack (E : Env) : List PackFileInfo → List Bytes → UInt32 →
    Command δ (List PackFileInfo × List EncryptedHMACStream)
  | [], _, _ => return ([], [])
  | _ :: _, [], _ => throw .undefined
  | fi :: fileInfos, data :: packData, offset => do
    let encryptedStream ← sealMemory E fi.compression data
    let (infos, streams) ← layoutPack E fileInfos packData
      (offset + UInt32.ofNat (InputStream.size encryptedStream).toNat)
    return ({ fi with
      offset := offset
      packLength := UInt32.ofNat (InputStream.size encryptedStream).toNat } :: infos,
      encryptedStream :: streams)

/-- The second loop of `finalizePack`. -/
def addPackEntries (objectId : ObjectID) : List PackFileInfo → Command δ Unit
  | [] => return ()
  | fi :: fileInfos => do
    let s ← get
    let snapshot ← ofExcept (s.snapshot.addFileEntry (fi.args objectId))
    modify fun s => { s with snapshot := snapshot }
    addPackEntries objectId fileInfos

/-- Store the members as one object. -/
def uploadPack (E : Env) (objPath : Bytes) : Command δ Unit := do
  let s ← get
  let (infos, streams) ← layoutPack E s.pack.fileInfos s.pack.packData 0
  modify fun s => { s with pack := { s.pack with fileInfos := infos } }
  storePut objPath (MultiInputStream.new streams) DefaultProgressFunction

/-- The part of `finalizePack` that stores the pack unless there is an object
of its name. -/
def storePack (E : Env) (objectId : ObjectID) : Command δ Unit := do
  let name ← ofExcept (objectIdToString objectId)
  let found ← storeExist (objectPath name)
  if found then return () else uploadPack E (objectPath name)

/-- `Repository::finalizePack`; nothing asks `progress`. -/
def finalizePack (E : Env) (_progress : FileTransferProgressFunction) : Command δ Unit := do
  let s ← get
  match s.pack.rollingHash with
  | none => return ()
  | some _ =>
    match s.pack.hmac.final E.C with
    | (objectId, hmac) =>
      modify fun s => { s with pack := { s.pack with hmac := hmac } }
      storePack E objectId
      let s ← get
      addPackEntries objectId s.pack.fileInfos
      modify fun s => { s with
        pack := { s.pack with fileInfos := [], packData := [], rollingHash := none } }

/-- The part of `uploadFile` that puts a small file into the pack; whether
the pack should be written after it. -/
def packFile (E : Env) (normalizedPath : Bytes) (fileInfo : FileInfo) (buffer : Bytes) :
    Command δ Bool := do
  modify fun s => { s with pack := s.pack.open E.C s.keys }
  modify fun s => { s with pack := { s.pack with hmac := s.pack.hmac.update buffer } }
  let s ← get
  match s.pack.rollingHash with
  | none => throw .undefined
  | some h =>
    match rollAll h buffer with
    | (writePack, h) =>
      let packLength ← uninitialised E 4
      modify fun s => { s with
        pack := { s.pack with rollingHash := some h }.addFile buffer normalizedPath
          fileInfo.mUserName fileInfo.mGroupName fileInfo.mType fileInfo.mMode
          (compressionFor fileInfo) fileInfo.mLength fileInfo.mLastModifyTime 0 (E.C.md5 buffer)
          (.ofNat (leNat packLength.toList)) }
      return writePack

/-! ### Large files -/

/-- The state of the loop over a large file; `fed` is what the MD5 context was
given. -/
structure ChunkState where
  chunker : Chunker
  fed : Bytes
  objectIds : List ObjectID
  blockCount : ℤ

/-- Upload the collected block. -/
def uploadBlock (E : Env) (t : CompressionType) (progress : FileTransferProgressFunction)
    (st : ChunkState) : Command δ ChunkState := do
  let s ← get
  compressEncryptAndUploadBlock E t
    (computeBlockHMAC E s.keys st.chunker.blockBuffer t.toByte) st.chunker.blockBuffer
    (fun bytesUploaded bytesTotal => progress st.blockCount (-1) bytesUploaded bytesTotal)
  return {
    chunker := st.chunker.clear
    fed := st.fed ++ st.chunker.blockBuffer
    objectIds := st.objectIds ++ [computeBlockHMAC E s.keys st.chunker.blockBuffer t.toByte]
    blockCount := st.blockCount + 1 }

/-- The loop over the bytes of a large file, with the number of rounds
bounded. -/
def chunkLoop (E : Env) (p : ChunkParams) (t : CompressionType)
    (progress : FileTransferProgressFunction) :
    ℕ → BufferedInputStream FileStream → ChunkState → Command δ ChunkState
  | 0, _, _ => throw .outOfFuel
  | k + 1, file, st => do
    let (eof, file) ← onStream BufferedInputStream.isEof file
    if eof then
      if st.chunker.blockBuffer = [] then return st else uploadBlock E t progress st
    else
      let (b, file) ← onStream BufferedInputStream.readByte file
      match st.chunker.push p b with
      | (true, c) =>
        let st ← uploadBlock E t progress { st with chunker := c }
        chunkLoop E p t progress k file st
      | (false, c) => chunkLoop E p t progress k file { st with chunker := c }

/-! ### Uploads -/

/-- The end of `uploadFile`: the entry of the file. -/
def addEntry (normalizedPath : Bytes) (fileInfo : FileInfo) (rollingHashBits : ℕ) (md5 : Digest 16)
    (objectIds : List ObjectID) : Command δ Unit := do
  let s ← get
  let snapshot ← ofExcept (s.snapshot.addFileEntry ⟨normalizedPath, fileInfo.mUserName,
    fileInfo.mGroupName, fileInfo.mType, fileInfo.mMode, compressionFor fileInfo, fileInfo.mLength,
    fileInfo.mLastModifyTime, .ofNat rollingHashBits, md5, 0, 0, objectIds⟩)
  modify fun s => { s with snapshot := snapshot }

/-- A file of less than `smallFileSize` bytes. -/
def uploadSmall (E : Env) (withPack : Bool) (normalizedPath : Bytes) (fileInfo : FileInfo)
    (buffer : Bytes) (progress : FileTransferProgressFunction) : Command δ Unit := do
  if withPack then
    let writePack ← packFile E normalizedPath fileInfo buffer
    if writePack then finalizePack E progress
    else if progress 0 1 0 0 = false then throw (.thrown .CancelledException "User cancelled.")
    else return ()
  else
    let s ← get
    compressEncryptAndUploadBlock E (compressionFor fileInfo)
      (computeBlockHMAC E s.keys buffer (compressionFor fileInfo).toByte) buffer
      (fun bytesUploaded bytesTotal => progress 0 1 bytesUploaded bytesTotal)
    addEntry normalizedPath fileInfo 0 (E.C.md5 buffer)
      [computeBlockHMAC E s.keys buffer (compressionFor fileInfo).toByte]

/-- A file of at least `smallFileSize` bytes. -/
def uploadLarge (E : Env) (normalizedPath : Bytes) (fileInfo : FileInfo) (fileStream : FileStream)
    (progress : FileTransferProgressFunction) : Command δ Unit := do
  let s ← get
  let p ← ofExcept (chunkParams E fileInfo.mLength.toNat)
  let st ← chunkLoop E p (compressionFor fileInfo) progress (fileStream.content.length + 1)
    (BufferedInputStream.new fileStream)
    ⟨⟨[], RollingHash.new E.C s.keys.mRollKey.toList 8192⟩, [], [], 0⟩
  addEntry normalizedPath fileInfo p.rollingHashBits (E.C.md5 st.fed) st.objectIds

/-- `Repository::uploadFile` with a pack state that may be null; `fileInfo` is
what is found at the path of `fileStream`. -/
def uploadFileWith (E : Env) (withPack : Bool) (destPath : Bytes) (fileInfo : FileInfo)
    (fileStream : FileStream) (progress : FileTransferProgressFunction) : Command δ Unit := do
  if fileInfo.exists = false then
    throw (.thrown .FileNotFoundException "File not found.")
  else if fileInfo.mLength.toNat < toSizeT E.options.smallFileSize then
    let (buffer, _) ← onStream (expect fileInfo.mLength.toNat) fileStream
    uploadSmall E withPack (Path.normalizedPath destPath) fileInfo buffer progress
  else uploadLarge E (Path.normalizedPath destPath) fileInfo fileStream progress

/-- `Repository::uploadFile(snapshot, destPath, fileStream, progress)`, which
drops its `progress`. -/
def uploadFile (E : Env) (destPath : Bytes) (fileInfo : FileInfo) (fileStream : FileStream)
    (_progress : FileTransferProgressFunction) : Command δ Unit :=
  uploadFileWith E false destPath fileInfo fileStream DefaultFileTransferProgressFunction

/-- `Repository::uploadFile(packUploadState, snapshot, destPath, fileStream,
progress)`. -/
def uploadFilePacked (E : Env) (destPath : Bytes) (fileInfo : FileInfo) (fileStream : FileStream)
    (progress : FileTransferProgressFunction) : Command δ Unit :=
  uploadFileWith E true destPath fileInfo fileStream progress

end Commands

end Nebula
