/-
The commands of `Main.cpp` that work on a repository.

`backupFiles` unlocks, uploads what its arguments lead to through one pack
state, finishes the pack after every argument and commits the snapshot at the
end.  `downloadFiles` unlocks, loads the snapshot and writes every entry below
each of its arguments to a file below the destination, which it then reads
again for its MD5.  `listSnapshots` and `listSnapshot` print what there is.  Each
starts from a new `Repository`, whose keys are whatever the memory held.

The local files are `LocalTree`s for a backup and a `LocalDisk` for a restore.
What is printed is left out, and so is the file that a restore was writing when
it threw.
-/
import NebulaBackup.KeyFile
import NebulaBackup.Download
import NebulaBackup.SubTree

namespace Nebula

open EStateM.Result

/-- `Options`, as far as it is not about printing or the choice of the store. -/
structure CliOptions where
  verify : Bool
  dryRun : Bool
  force : Bool

/-- `Options()`. -/
def CliOptions.default : CliOptions := ⟨true, false, false⟩

/-- What ends a command: a fault of the library or of Boost, or what `Main.cpp`
throws. -/
inductive CliFault
  | library (fault : Fault)
  | RepositoryException (what : String)
  | InvalidArgumentException (what : String)
  | InvalidDataException (what : String)

/-- A command of `Main.cpp`. -/
abbrev Cli (δ : Type) := EStateM CliFault (Session δ)

/-- A call of the library. -/
def library {δ α : Type} (p : Command δ α) : Cli δ α := fun s =>
  match p s with
  | error e s' => error (.library e) s'
  | ok a s' => ok a s'

theorem library_ok {δ α : Type} {p : Command δ α} {s s' : Session δ} {a : α} (h : p s = ok a s') :
    library p s = ok a s' := by
  simp only [library, h]

theorem library_error {δ α : Type} {p : Command δ α} {s s' : Session δ} {e : Fault}
    (h : p s = error e s') : library p s = error (.library e) s' := by
  simp only [library, h]

theorem of_library_ok {δ α : Type} {p : Command δ α} {s s' : Session δ} {a : α}
    (h : library p s = ok a s') : p s = ok a s' := by
  cases hp : p s with
  | error e t =>
    simp only [library, hp] at h
    cases h
  | ok b t =>
    simp only [library, hp, EStateM.Result.ok.injEq] at h
    rw [h.1, h.2]

/-! ### Local files -/

/-- A file on the local disk: what `stat` says of it and what it holds, unless
it cannot be opened. -/
structure LocalEntry where
  info : FileInfo
  content : Option Bytes

/-- What a directory holds, in the order in which the system lists it. -/
inductive LocalTree
  | nil
  | file (name : Bytes) (f : LocalEntry) (rest : LocalTree)
  /-- A symbolic link to a directory, which the iterator does not follow. -/
  | link (name : Bytes) (rest : LocalTree)
  | directory (name : Bytes) (inside rest : LocalTree)

/-- The entries of a `recursive_directory_iterator` that are no directories. -/
def LocalTree.files (dir : Bytes) : LocalTree → List (Bytes × LocalEntry)
  | .nil => []
  | .file name f rest => (Path.append dir name, f) :: rest.files dir
  | .link _ rest => rest.files dir
  | .directory name inside rest => inside.files (Path.append dir name) ++ rest.files dir

/-- What an argument leads to. -/
inductive LocalArg
  | file (f : LocalEntry)
  | directory (inside : LocalTree)

/-- The files of an argument. -/
def LocalArg.files (arg : Bytes) : LocalArg → List (Bytes × LocalEntry)
  | .file f => [(arg, f)]
  | .directory inside => inside.files arg

/-! ### `backupFiles` -/

section Backup

variable {δ : Type} [DataStore δ]

/-- One file of a backup. -/
def backupFile (E : Env) (options : CliOptions) (path : Bytes) (f : LocalEntry)
    (progress : FileTransferProgressFunction) : Command δ Unit :=
  if options.dryRun then return ()
  else
    match f.content with
    | none => throw (.thrown .FileNotFoundException "File was not found.")
    | some content => uploadFilePacked E path f.info (.openRead content) progress

/-- The files of an argument; `progress i` is what the callback of the file `i`
answers, which is no as soon as a signal came. -/
def backupAll (E : Env) (options : CliOptions) (progress : ℕ → FileTransferProgressFunction) :
    ℕ → List (Bytes × LocalEntry) → Command δ Unit
  | _, [] => return ()
  | i, (path, f) :: files => do
    backupFile E options path f (progress i)
    backupAll E options progress (i + 1) files

/-- The loop over the arguments. -/
def backupArgs (E : Env) (options : CliOptions) (progress : ℕ → ℕ → FileTransferProgressFunction) :
    ℕ → List (Bytes × LocalArg) → Command δ Unit
  | _, [] => return ()
  | i, (arg, l) :: args => do
    backupAll E options (progress i) 0 (l.files arg)
    finalizePack E DefaultFileTransferProgressFunction
    backupArgs E options progress (i + 1) args

/-- `createSnapshot`, `createPackState` and the loop over the arguments. -/
def backupUploads (E : Env) (options : CliOptions)
    (progress : ℕ → ℕ → FileTransferProgressFunction) (args : List (Bytes × LocalArg)) :
    Command δ Unit := do
  modify fun s => { s with snapshot := .new, pack := .new }
  backupArgs E options progress 0 args

/-- `commitSnapshot` of what was uploaded. -/
def backupCommit (E : Env) (snapshotName : Bytes) : Command δ Unit := do
  let s ← get
  commitSnapshot E s.snapshot snapshotName DefaultProgressFunction

/-- A `Repository` that is unlocked with the password that was typed. -/
def unlockOrThrow (E : Env) (password : Bytes) (what : String) : Cli δ Unit := do
  let unlocked ← library (unlockRepository E password DefaultProgressFunction)
  if unlocked = false then throw (.RepositoryException what) else return ()

/-- `backupFiles`.  The snapshot is committed also when it is a dry run. -/
def backupFiles (E : Env) (options : CliOptions) (password snapshotName : Bytes)
    (progress : ℕ → ℕ → FileTransferProgressFunction) (args : List (Bytes × LocalArg)) :
    Cli δ Unit := do
  unlockOrThrow E password "Unable to unlock repository. Password was incorrect."
  library (backupUploads E options progress args)
  library (backupCommit E snapshotName)

end Backup

/-! ### Paths of restored files -/

namespace Path

/-- The elements from an iterator on; every increment moves forward. -/
def elementsFrom (str : Bytes) : ℕ → Iter → List Bytes
  | 0, _ => []
  | k + 1, it =>
    if it.pos = str.length then [] else it.element :: elementsFrom str k (increment str it)

/-- The elements of a path. -/
def elements (str : Bytes) : List Bytes := elementsFrom str (str.length + 1) (begin str)

/-- `detail::mismatch`: what is left of both after their common beginning. -/
def mismatch : List Bytes → List Bytes → List Bytes × List Bytes
  | e :: es, f :: fs => if e = f then mismatch es fs else (e :: es, f :: fs)
  | es, fs => (es, fs)

/-- `lexically_relative`. -/
def lexically_relative (str base : Bytes) : Bytes :=
  match mismatch (elements str) (elements base) with
  | (first, second) =>
    if first = elements str ∧ second = elements base then []
    else if first = [] ∧ second = [] then [dot]
    else first.foldl append ((second.map fun _ => [dot, dot]).foldl append [])

end Path

/-! ### The local disk -/

/-- What of the local system is taken as fixed while files are restored.  The
restore itself makes files and directories, and where a path to be made canonical
is among them `canonical` has to be what it is then. -/
structure LocalEnv where
  /-- What `weakly_canonical` makes of a path of which some beginning exists;
  `none` for a path of which none does. -/
  canonical : Bytes → Option Bytes
  /-- The paths that the system refuses to open for writing or to make a directory
  of. -/
  denied : Bytes → Bool
  /-- What a file holds after the stream that was given these bytes is closed;
  nobody looks at what `fclose` returns. -/
  flushed : Bytes → Bytes → Bytes

namespace LocalEnv

/-- `weakly_canonical`. -/
def weakly_canonical (L : LocalEnv) (p : Bytes) : Bytes :=
  if p = [] then []
  else
    match L.canonical p with
    | none => Path.lexically_normal p
    | some q => q

/-- `filesystem::relative`. -/
def relative (L : LocalEnv) (p base : Bytes) : Bytes :=
  Path.lexically_relative (L.weakly_canonical p) (L.weakly_canonical base)

end LocalEnv

/-- The files and directories of the local disk, by their paths as they are spelled,
and what the user types. -/
structure LocalDisk where
  files : SortedMap Bytes Bytes
  directories : List Bytes
  stdin : Bytes

/-- A `FileStream` that is open for writing. -/
structure FileOutputStream where
  data : Bytes

instance : OutputStream FileOutputStream := ⟨fun o d => ok () ⟨o.data ++ d⟩⟩

theorem FileOutputStream.sink : Sink fun (o : FileOutputStream) w => o.data = w where
  write_ok := by
    rintro o w rfl d
    exact ⟨⟨o.data ++ d⟩, rfl, rfl⟩

/-- `filesystem::is_directory`. -/
def LocalDisk.is_directory (disk : LocalDisk) (p : Bytes) : Bool := disk.directories.contains p

theorem LocalDisk.is_directory_iff {disk : LocalDisk} {p : Bytes} :
    disk.is_directory p = true ↔ p ∈ disk.directories :=
  List.contains_iff_mem

/-- `filesystem::exists`. -/
def LocalDisk.exists (disk : LocalDisk) (p : Bytes) : Bool :=
  (disk.files.find? p).isSome || disk.is_directory p

namespace LocalDisk

/-- `fgetc(stdin)`; `none` is `EOF`. -/
def fgetc (disk : LocalDisk) : Option UInt8 × LocalDisk :=
  match disk.stdin with
  | [] => (none, disk)
  | c :: stdin => (some c, { disk with stdin := stdin })

/-- Whether a file may be written: the user is asked about one that exists, and
has to answer with a `y`. -/
def mayWrite (options : CliOptions) (filePath : Bytes) (disk : LocalDisk) : Bool × LocalDisk :=
  if options.force = false ∧ options.dryRun = false ∧ disk.exists filePath = true then
    match disk.fgetc with
    | (answer, disk) => (decide (answer = some 121), disk)
  else (true, disk)

/-- `create_directory`; `none` when it throws, as where a file is or below one. -/
def create_directory (L : LocalEnv) (p : Bytes) (disk : LocalDisk) : Option LocalDisk :=
  if L.denied p = true ∨ disk.files.find? p ≠ none ∨
      disk.files.find? (Path.parent_path p) ≠ none ∧ disk.is_directory (Path.parent_path p) = false then
    none
  else some { disk with directories := p :: disk.directories }

/-- `create_directories`, by its own recursion on the parent; `none` when it
throws, as for the empty path. -/
def create_directories (L : LocalEnv) : ℕ → Bytes → LocalDisk → Option LocalDisk
  | 0, _, _ => none
  | k + 1, p, disk =>
    if p = [] then none
    else if disk.is_directory p = true then some disk
    else if Path.filename p = [Path.dot] ∨ Path.filename p = [Path.dot, Path.dot] then
      create_directories L k (Path.parent_path p) disk
    else if Path.parent_path p = [] ∨ disk.exists (Path.parent_path p) = true then
      disk.create_directory L p
    else
      match create_directories L k (Path.parent_path p) disk with
      | none => none
      | some disk => disk.create_directory L p

/-- The directory of a file is made unless there is one. -/
def makeParent (L : LocalEnv) (filePath : Bytes) (disk : LocalDisk) : Option LocalDisk :=
  if disk.is_directory (Path.parent_path filePath) = true then some disk
  else
    disk.create_directories L ((Path.parent_path filePath).length + 1) (Path.parent_path filePath)

/-- The stream that was opened at a path is closed. -/
def close (L : LocalEnv) (disk : LocalDisk) (p : Bytes) (o : FileOutputStream) : LocalDisk :=
  { disk with files := disk.files.assign p (L.flushed p o.data) }

end LocalDisk

/-! ### `downloadFiles` -/

/-- The bytes of a file in reads of 8192, as the MD5 context is fed; every round
but the last reads at least one. -/
def digestLoop : ℕ → Bytes → EStateM Fault FileStream Bytes
  | 0, _ => throw .outOfFuel
  | k + 1, fed => do
    let chunk ← fun file => FileStream.read file 8192
    if chunk = [] then return fed else digestLoop k (fed ++ chunk)

section Restore

variable {δ : Type} [DataStore δ]

/-- The part of the callback that writes the file. -/
def restoreFile (E : Env) (L : LocalEnv) (fuel : ℕ) (snapshot : Snapshot) (srcPath filePath : Bytes)
    (progress : FileTransferProgressFunction) (disk : LocalDisk) : Command δ LocalDisk :=
  if L.denied filePath = true ∨ disk.is_directory filePath = true then
    throw (.thrown .FileNotFoundException "File was not found.")
  else do
    -- what `downloadFile` returns is dropped
    let (_, outStream) ← downloadFile E fuel snapshot srcPath (⟨[]⟩ : FileOutputStream) progress
    return disk.close L filePath outStream

/-- The part of the callback that reads the file again; as for `readExpected` the
text of the exception may go on behind the message. -/
def verifyFile (E : Env) (fe : FileEntry) (filePath : Bytes) (disk : LocalDisk) :
    Command δ Unit :=
  match disk.files.find? filePath with
  | none => throw (.thrown .FileNotFoundException "File was not found.")
  | some content => do
    let (fed, _) ← onStream (digestLoop (content.length + 1) []) (FileStream.openRead content)
    if E.C.md5 fed ≠ fe.md5 then
      throw (.thrown .VerificationFailedException (text filePath ++ ": File verification failed. "))
    else return ()

/-- Where an entry is restored to. -/
def destFilePath (L : LocalEnv) (destDir srcFile path name : Bytes) : Bytes :=
  Path.append destDir (L.relative (path ++ Path.separator :: name) (Path.parent_path srcFile))

/-- The part of the callback after the questions. -/
def restoreTo (E : Env) (L : LocalEnv) (options : CliOptions) (fuel : ℕ) (snapshot : Snapshot)
    (srcPath filePath : Bytes) (progress : FileTransferProgressFunction) (fe : FileEntry)
    (disk : LocalDisk) : Command δ LocalDisk :=
  match disk.makeParent L filePath with
  | none => throw .filesystem_error
  | some disk => do
    let disk ← restoreFile E L fuel snapshot srcPath filePath progress disk
    if options.verify then
      verifyFile E fe filePath disk
      return disk
    else return disk

/-- The callback of `downloadFiles`. -/
def restoreEntry (E : Env) (L : LocalEnv) (options : CliOptions) (fuel : ℕ) (snapshot : Snapshot)
    (destDir srcFile : Bytes) (progress : FileTransferProgressFunction) (fe : FileEntry)
    (disk : LocalDisk) : Command δ LocalDisk := do
  let name ← ofExcept (snapshot.indexToString (toInt fe.nameIndex))
  let path ← ofExcept (snapshot.indexToString (toInt fe.pathIndex))
  match disk.mayWrite options (destFilePath L destDir srcFile path name) with
  | (false, disk) => return disk
  | (true, disk) =>
    if options.dryRun then return disk
    else
      restoreTo E L options fuel snapshot (path ++ Path.separator :: name)
        (destFilePath L destDir srcFile path name) progress fe disk

/-- The callback as `forEachFileEntry` runs it, on the session and the disk.
`progress` may answer differently for every entry. -/
def restoreCallback (E : Env) (L : LocalEnv) (options : CliOptions) (fuel : ℕ) (snapshot : Snapshot)
    (destDir srcFile : Bytes) (progress : FileEntry → FileTransferProgressFunction)
    (fe : FileEntry) : EStateM Fault (Session δ × LocalDisk) Unit := fun t =>
  match restoreEntry E L options fuel snapshot destDir srcFile (progress fe) fe t.2 t.1 with
  | error e s => error e (s, t.2)
  | ok disk s => ok () (s, disk)

/-- `forEachFileEntry(srcFile, ...)`. -/
def restoreBelow (E : Env) (L : LocalEnv) (options : CliOptions) (fuel : ℕ) (snapshot : Snapshot)
    (destDir srcFile : Bytes) (progress : FileEntry → FileTransferProgressFunction)
    (disk : LocalDisk) : Command δ LocalDisk := fun s =>
  match snapshot.forEachFileEntryIn srcFile
      (restoreCallback E L options fuel snapshot destDir srcFile progress) (s, disk) with
  | error e t => error e t.1
  | ok _ t => ok t.2 t.1

/-- The loop over the arguments before the last. -/
def restoreArgs (E : Env) (L : LocalEnv) (options : CliOptions) (fuel : ℕ) (snapshot : Snapshot)
    (destDir : Bytes) (progress : FileEntry → FileTransferProgressFunction) :
    List Bytes → LocalDisk → Command δ LocalDisk
  | [], disk => return disk
  | srcFile :: srcFiles, disk => do
    let disk ← restoreBelow E L options fuel snapshot destDir srcFile progress disk
    restoreArgs E L options fuel snapshot destDir progress srcFiles disk

/-- `downloadFiles`: the destination and the arguments before it; without any the
only one is the empty path. -/
def downloadFiles (E : Env) (L : LocalEnv) (options : CliOptions) (fuel : ℕ)
    (password snapshotName destDir : Bytes) (srcFiles : List Bytes)
    (progress : FileEntry → FileTransferProgressFunction) (disk : LocalDisk) :
    Cli δ LocalDisk := do
  if disk.is_directory destDir = false then
    throw (.InvalidArgumentException "Last argument should specify a valid directory.")
  else
    unlockOrThrow E password "Invalid password."
    let snapshot ← library (loadSnapshot E fuel snapshotName DefaultProgressFunction)
    library (restoreArgs E L options fuel snapshot destDir progress
      (if srcFiles = [] then [[]] else srcFiles) disk)

/-- The rounds that `Repository.h` gives `initializeRepository` and
`changePassword` when the caller does not. -/
def defaultLogRounds : UInt8 := 17

/-- The command `password`; what `changePassword` returns is dropped. -/
def changePasswordCommand (E : Env) (oldPassword newPassword : Bytes) : Cli δ Unit := do
  unlockOrThrow E oldPassword "Invalid password."
  let _ ← library (changePassword E oldPassword newPassword defaultLogRounds DefaultProgressFunction)
  return ()

end Restore

/-! ### The other commands -/

/-- The name of a file that stands in a directory. -/
def nameIn (dir file : Bytes) : Option Bytes :=
  if (dir ++ [Path.separator]).isPrefixOf file = true ∧ file.length ≠ dir.length + 1 ∧
      (file.drop (dir.length + 1)).contains Path.separator = false then
    some (file.drop (dir.length + 1))
  else none

/-- `FileDataStore::list`: the names of the files of a directory, in the order of
the names where the system has its own. -/
def FileDataStore.list (d : FileDataStore) (path : Bytes) : List Bytes :=
  d.files.entries.filterMap fun file => nameIn (d.fullPath path) file.1

/-- `initializeRepository` of `Main.cpp`. -/
def initializeCommand {δ : Type} [DataStore δ] (E : Env) (password : Bytes) : Cli δ Unit :=
  library (initializeRepository E password defaultLogRounds DefaultProgressFunction)

/-- `listSnapshots` of `Main.cpp` and of the library.  There is a directory when
there is a snapshot in it, or when one was left without any. -/
def listSnapshots (E : Env) (password : Bytes) (leftEmpty : Bool) : Cli FileDataStore (List Bytes) := do
  unlockOrThrow E password "Unable to unlock repository. Password was incorrect."
  let s ← get
  match s.store.list (ascii "/snapshot"), leftEmpty with
  | [], false => throw (.library .filesystem_error)
  | names, _ => return names

/-- The first column of `listSnapshot`. -/
def modeString (type : UInt8) (mode : UInt16) : String :=
  String.ofList [
    if type = FileType.Directory.toByte then 'd' else
      if type = FileType.SymbolicLink.toByte then 'l' else
      if type = FileType.BlockDevice.toByte then 'b' else
      if type = FileType.CharacterDevice.toByte then 'c' else '-',
    if mode &&& 0o400 ≠ 0 then 'r' else '-',
    if mode &&& 0o200 ≠ 0 then 'w' else '-',
    if mode &&& 0o4000 ≠ 0 then (if mode &&& 0o100 ≠ 0 then 's' else 'S') else
      if mode &&& 0o100 ≠ 0 then 'x' else '-',
    if mode &&& 0o040 ≠ 0 then 'r' else '-',
    if mode &&& 0o020 ≠ 0 then 'w' else '-',
    if mode &&& 0o2000 ≠ 0 then (if mode &&& 0o010 ≠ 0 then 's' else 'S') else
      if mode &&& 0o010 ≠ 0 then 'x' else '-',
    if mode &&& 0o004 ≠ 0 then 'r' else '-',
    if mode &&& 0o002 ≠ 0 then 'w' else '-',
    if mode &&& 0o1000 ≠ 0 then (if mode &&& 0o001 ≠ 0 then 't' else 'T') else
      if mode &&& 0o001 ≠ 0 then 'x' else '-']

/-- A line of `listSnapshot`, without the widths of its columns. -/
structure ListLine where
  mode : String
  user : Bytes
  group : Bytes
  size : UInt64
  path : Bytes

section List

variable {δ : Type} [DataStore δ]

/-- The callback of `listSnapshot`. -/
def listEntry (snapshot : Snapshot) (fe : FileEntry) : Command δ ListLine := do
  let user ← ofExcept (snapshot.indexToString (toInt fe.userIndex))
  let group ← ofExcept (snapshot.indexToString (toInt fe.groupIndex))
  let name ← ofExcept (snapshot.indexToString (toInt fe.nameIndex))
  let path ← ofExcept (snapshot.indexToString (toInt fe.pathIndex))
  return ⟨modeString fe.type fe.mode, user, group, fe.size, Path.append path name⟩

/-- The lines of some entries. -/
def listEntries (snapshot : Snapshot) : List FileEntry → Command δ (List ListLine)
  | [] => return []
  | fe :: entries => do
    let line ← listEntry snapshot fe
    let lines ← listEntries snapshot entries
    return line :: lines

/-- `listSnapshot`. -/
def listSnapshot (E : Env) (fuel : ℕ) (password snapshotName : Bytes) : Cli δ (List ListLine) := do
  unlockOrThrow E password "Unable to unlock repository. Password was incorrect."
  let snapshot ← library (loadSnapshot E fuel snapshotName DefaultProgressFunction)
  library (listEntries snapshot snapshot.forEachFileEntry)

end List

end Nebula
