/-
Any use of a repository.

The program is called again and again on one directory: backups, which may be
cancelled or meet a full disk, listings, restores, and changes of the password.
Each call is a process of its own, whose `Repository` starts with whatever its
memory held.  What is stored under a path changes only when a call comes to
write just there, and so a backup stays restorable with the current password
until its name is taken by another one.  Main results:

* `afterCalls_asBefore` — what any calls leave alone;
* `Unlocks.call`, `Restorable.call` — what one call keeps;
* `restore_after_calls` — `init`, any calls, a backup, any calls that spare it
  and a restore: every file comes back.
-/
import NebulaBackup.RestoreTree

namespace Nebula

open EStateM.Result Hoare FileDataStore
open Nebula.Path

/-! ### Calls of the program -/

/-- A name for a snapshot.  Nothing keeps a user from one with separators or dots
in it, which may lead to any file of the repository. -/
abbrev SnapshotName := { name : Bytes // PlainName name }

/-- The commands of the program. -/
inductive CliCommand
  | initializeRepository (password : Bytes)
  | backup (options : CliOptions) (password : Bytes) (snapshotName : SnapshotName)
      (progress : ℕ → ℕ → FileTransferProgressFunction) (args : List (Bytes × LocalArg))
  | listSnapshots (password : Bytes) (leftEmpty : Bool)
  | listSnapshot (fuel : ℕ) (password snapshotName : Bytes)
  | restore (L : LocalEnv) (options : CliOptions) (fuel : ℕ) (password snapshotName destDir : Bytes)
      (srcFiles : List Bytes) (progress : FileEntry → FileTransferProgressFunction) (disk : LocalDisk)
  | changePassword (oldPassword newPassword : Bytes)

/-- A call of the program: what its writes to the store meet, and what the
memory of its `Repository` held. -/
structure CliCall where
  io : List ChunkEvent
  memory : RepositoryKeys
  command : CliCommand

/-- The session that a process starts with. -/
def startProcess (io : List ChunkEvent) (memory : RepositoryKeys) (s : Session FileDataStore) :
    Session FileDataStore :=
  { s with store := { s.store with io := io }, keys := memory }

/-- The session after a command. -/
def CliCommand.after (E : Env) : CliCommand → Session FileDataStore → Session FileDataStore
  | initializeRepository password, s => leftBy (initializeCommand E password s)
  | backup options password snapshotName progress args, s =>
    leftBy (backupFiles E options password snapshotName.1 progress args s)
  | listSnapshots password leftEmpty, s => leftBy (Nebula.listSnapshots E password leftEmpty s)
  | listSnapshot fuel password snapshotName, s =>
    leftBy (Nebula.listSnapshot E fuel password snapshotName s)
  | restore L options fuel password snapshotName destDir srcFiles progress disk, s =>
    leftBy (downloadFiles E L options fuel password snapshotName destDir srcFiles progress disk s)
  | changePassword oldPassword newPassword, s =>
    leftBy (changePasswordCommand E oldPassword newPassword s)

/-- The session after a call. -/
def CliCall.after (E : Env) (c : CliCall) (s : Session FileDataStore) : Session FileDataStore :=
  c.command.after E (startProcess c.io c.memory s)

/-- The session after calls. -/
def afterCalls (E : Env) (calls : List CliCall) (s : Session FileDataStore) : Session FileDataStore :=
  calls.foldl (fun s c => c.after E s) s

/-- The password after a command. -/
def CliCommand.passwordAfter (current : Bytes) : CliCommand → Bytes
  | changePassword oldPassword newPassword => if oldPassword = current then newPassword else current
  | _ => current

/-- The password after calls. -/
def passwordAfter (current : Bytes) (calls : List CliCall) : Bytes :=
  calls.foldl (fun current c => c.command.passwordAfter current) current

/-- The call came to write the file: a backup after all uploads, a change of the
password after the old one was accepted, and `init` at once. -/
def CliCall.Writes (E : Env) (c : CliCall) (s : Session FileDataStore) (path : Bytes) : Prop :=
  match c.command with
  | .initializeRepository _ => path = ascii "/key"
  | .backup options password snapshotName progress args => path = snapshotPath snapshotName.1 ∧
    ∃ t t', unlockOrThrow E password "Unable to unlock repository. Password was incorrect."
        (startProcess c.io c.memory s) = ok () t ∧
      backupUploads E options progress args t = ok () t'
  | .listSnapshots .. => False
  | .listSnapshot .. => False
  | .restore .. => False
  | .changePassword oldPassword _ => path = ascii "/key" ∧
    ∃ t, unlockOrThrow E oldPassword "Invalid password." (startProcess c.io c.memory s) = ok () t

/-! ### What the calls leave alone -/

/-- What the store holds under a path is as it was, or is a new object. -/
def AsBefore (d d' : FileDataStore) (path : Bytes) : Prop :=
  d'.contents path = d.contents path ∨
    d.contents path = none ∧ ∃ objectId, path = objectPath (objectName objectId)

theorem AsBefore.trans {d d' d'' : FileDataStore} {path : Bytes} (h : AsBefore d d' path)
    (h' : AsBefore d' d'' path) : AsBefore d d'' path := by
  rcases h with hsame | hnew
  · rcases h' with hsame' | ⟨hnone, hobject⟩
    · exact Or.inl (hsame'.trans hsame)
    · exact Or.inr ⟨hsame.symm.trans hnone, hobject⟩
  · exact Or.inr hnew

/-- Nothing but the file at `path` was touched. -/
theorem TouchedAt.contents {d : FileDataStore} {path : Bytes} {s : Session FileDataStore}
    (h : TouchedAt d path s) (hsep : Path.isSep path 0 = true) {q : Bytes} (hq : q ≠ path) :
    s.store.contents q = d.contents q := by
  obtain ⟨c, honly⟩ := h
  have hne : d.mStoreDirectory ++ q ≠ d.fullPath path := by
    rw [fullPath_rooted d hsep]
    exact fun heq => hq (List.append_cancel_left heq)
  rw [FileDataStore.contents, honly.dir, honly.files, if_neg hne]
  rfl

/-- **One backup.** -/
theorem backup_asBefore (E : Env) (options : CliOptions) (password snapshotName : Bytes)
    (progress : ℕ → ℕ → FileTransferProgressFunction) (args : List (Bytes × LocalArg))
    (s : Session FileDataStore) (path : Bytes) :
    (path = snapshotPath snapshotName ∧
      ∃ t t', unlockOrThrow E password "Unable to unlock repository. Password was incorrect." s =
        ok () t ∧ backupUploads E options progress args t = ok () t') ∨
    AsBefore s.store (leftBy (backupFiles E options password snapshotName progress args s)).store path := by
  obtain ⟨s', hend, hdir, hfiles, hsnapshot⟩ :=
    backupFiles_adds E options password snapshotName progress args s
  have hleft : leftBy (backupFiles E options password snapshotName progress args s) = s' := by
    rcases hend with hend | ⟨e, hend⟩
    · rw [hend]
      rfl
    · rw [hend]
      rfl
  have hfull : s.store.fullPath (snapshotPath snapshotName) =
      s.store.mStoreDirectory ++ snapshotPath snapshotName :=
    fullPath_rooted _ (show Path.isSep (snapshotPath snapshotName) 0 = true from rfl)
  rw [hleft]
  by_cases hpath : path = snapshotPath snapshotName
  · subst hpath
    by_cases hdone : ∃ t t', unlockOrThrow E password
        "Unable to unlock repository. Password was incorrect." s = ok () t ∧
        backupUploads E options progress args t = ok () t'
    · exact Or.inl ⟨rfl, hdone⟩
    · refine Or.inr (Or.inl ?_)
      have hsame := hsnapshot hdone
      rw [hfull] at hsame
      rw [contents, contents, hdir]
      exact hsame
  · refine Or.inr ?_
    have hne : s.store.mStoreDirectory ++ path ≠ s.store.fullPath (snapshotPath snapshotName) := by
      rw [hfull]
      exact fun heq => hpath (List.append_cancel_left heq)
    rcases hfiles _ hne with hsame | ⟨hnone, objectId, heq⟩
    · left
      rw [contents, contents, hdir]
      exact hsame
    · rw [fullPath_rooted _ (isSep_objectPath _)] at heq
      exact Or.inr ⟨hnone, objectId, List.append_cancel_left heq⟩

/-- **One `init`.** -/
theorem initializeRepository_asBefore (E : Env) (password : Bytes) (s : Session FileDataStore) (path : Bytes) :
    path = ascii "/key" ∨ AsBefore s.store (leftBy (initializeCommand E password s)).store path := by
  by_cases hpath : path = ascii "/key"
  · exact Or.inl hpath
  · refine Or.inr ?_
    have htouch := initializeRepository_touches (E := E) (d := s.store) password defaultLogRounds
      DefaultProgressFunction s rfl
    rw [initializeCommand]
    cases hrun : initializeRepository E password defaultLogRounds DefaultProgressFunction s with
    | error e t =>
      rw [hrun] at htouch
      rw [library_error hrun]
      exact Or.inl (TouchedAt.contents htouch rfl hpath)
    | ok a t =>
      rw [hrun] at htouch
      rw [library_ok hrun]
      exact Or.inl (TouchedAt.contents htouch rfl hpath)

theorem initializeCommand_contents {E : Env} {password : Bytes} {s s' : Session FileDataStore}
    (h : initializeCommand E password s = ok () s') {path : Bytes} (hpath : path ≠ ascii "/key") :
    s'.store.contents path = s.store.contents path := by
  have htouch := initializeRepository_touches (E := E) (d := s.store) password defaultLogRounds
    DefaultProgressFunction s rfl
  rw [of_library_ok h] at htouch
  exact TouchedAt.contents htouch rfl hpath

/-- **One change of the password.** -/
theorem changePassword_asBefore (E : Env) (oldPassword newPassword : Bytes)
    (s : Session FileDataStore) (path : Bytes) :
    (path = ascii "/key" ∧ ∃ t, unlockOrThrow E oldPassword "Invalid password." s = ok () t) ∨
    AsBefore s.store (leftBy (changePasswordCommand E oldPassword newPassword s)).store path := by
  have hunlock := keeps_unlockOrThrow (E := E) (J := fun d => d = s.store) oldPassword
    "Invalid password." s rfl
  cases hrun : unlockOrThrow E oldPassword "Invalid password." s with
  | error e t =>
    rw [hrun] at hunlock
    rw [changePasswordCommand, run_error hrun]
    refine Or.inr (Or.inl ?_)
    rw [show (leftBy (error e t : EStateM.Result CliFault _ Unit)).store = s.store from hunlock]
  | ok a t =>
    rw [hrun] at hunlock
    by_cases hpath : path = ascii "/key"
    · exact Or.inl ⟨hpath, t, rfl⟩
    · refine Or.inr ?_
      have htouch := changePassword_touches (E := E) (d := s.store) oldPassword newPassword
        defaultLogRounds DefaultProgressFunction t hunlock
      rw [changePasswordCommand, run_ok hrun]
      cases hchange : Nebula.changePassword E oldPassword newPassword defaultLogRounds
          DefaultProgressFunction t with
      | error e t' =>
        rw [hchange] at htouch
        rw [run_error (library_error hchange)]
        exact Or.inl (TouchedAt.contents htouch rfl hpath)
      | ok b t' =>
        rw [hchange] at htouch
        rw [run_ok (library_ok hchange)]
        exact Or.inl (TouchedAt.contents htouch rfl hpath)

/-- What a command keeps is still so when it has ended. -/
theorem keeps_leftBy {ε α : Type} {I : Session FileDataStore → Prop}
    {p : EStateM ε (Session FileDataStore) α} (h : Keeps I p) {s : Session FileDataStore} (hs : I s) :
    I (leftBy (p s)) := by
  have hrun := h s hs
  cases hp : p s with
  | error e t =>
    rw [hp] at hrun
    exact hrun
  | ok a t =>
    rw [hp] at hrun
    exact hrun

/-- A command that keeps what is under every path. -/
theorem asBefore_of_keeps {α : Type} {p : Cli FileDataStore α} {path : Bytes}
    (hkeeps : ∀ J : FileDataStore → Prop, Keeps (fun t => J t.store) p) (s : Session FileDataStore) :
    AsBefore s.store (leftBy (p s)).store path := by
  exact Or.inl (keeps_leftBy (hkeeps fun d => d.contents path = s.store.contents path) rfl)

/-- **One call.** -/
theorem CliCall.asBefore (E : Env) (c : CliCall) (s : Session FileDataStore) (path : Bytes) :
    c.Writes E s path ∨ AsBefore s.store (c.after E s).store path := by
  rw [CliCall.Writes, CliCall.after]
  cases c.command with
  | initializeRepository password => exact initializeRepository_asBefore E password (startProcess c.io c.memory s) path
  | backup options password snapshotName progress args =>
    exact backup_asBefore E options password snapshotName.1 progress args
      (startProcess c.io c.memory s) path
  | listSnapshots password leftEmpty =>
    exact Or.inr (asBefore_of_keeps (fun J => keeps_listSnapshots password leftEmpty)
      (startProcess c.io c.memory s))
  | listSnapshot fuel password snapshotName =>
    exact Or.inr (asBefore_of_keeps (fun J => keeps_listSnapshot fuel password snapshotName)
      (startProcess c.io c.memory s))
  | restore L options fuel password snapshotName destDir srcFiles progress disk =>
    exact Or.inr (asBefore_of_keeps (fun J => keeps_downloadFiles fuel password snapshotName destDir
      srcFiles progress disk) (startProcess c.io c.memory s))
  | changePassword oldPassword newPassword =>
    exact changePassword_asBefore E oldPassword newPassword (startProcess c.io c.memory s) path

/-- No call writes an object a second time. -/
theorem CliCall.after_object {E : Env} (c : CliCall) {s : Session FileDataStore} {objectId : ObjectID}
    {bytes : Bytes} (h : s.store.contents (objectPath (objectName objectId)) = some bytes) :
    (c.after E s).store.contents (objectPath (objectName objectId)) = some bytes := by
  rcases c.asBefore E s (objectPath (objectName objectId)) with hw | hsame | ⟨hnone, -⟩
  · rw [CliCall.Writes] at hw
    cases hcmd : c.command with
    | initializeRepository password =>
      rw [hcmd] at hw
      exact absurd hw (objectPath_ne_key _)
    | backup options password snapshotName progress args =>
      rw [hcmd] at hw
      exact absurd hw.1 (objectPath_ne_snapshotPath _ _)
    | listSnapshots password leftEmpty =>
      rw [hcmd] at hw
      exact hw.elim
    | listSnapshot fuel password snapshotName =>
      rw [hcmd] at hw
      exact hw.elim
    | restore L options fuel password snapshotName destDir srcFiles progress disk =>
      rw [hcmd] at hw
      exact hw.elim
    | changePassword oldPassword newPassword =>
      rw [hcmd] at hw
      exact absurd hw.1 (objectPath_ne_key _)
  · exact hsame.trans h
  · rw [h] at hnone
    exact absurd hnone (by simp)

/-- An object stays as it is through any calls, by induction on them. -/
theorem afterCalls_object {E : Env} {objectId : ObjectID} {bytes : Bytes} :
    ∀ (calls : List CliCall) {s : Session FileDataStore},
      s.store.contents (objectPath (objectName objectId)) = some bytes →
      (afterCalls E calls s).store.contents (objectPath (objectName objectId)) = some bytes := by
  intro calls
  induction calls with
  | nil =>
    intro s h
    exact h
  | cons c calls ih =>
    intro s h
    exact ih (c.after_object h)

/-- **Whatever happens to a repository**, what it holds under a path is as it was
or is a new object, unless a call came to write there: a backup that had
uploaded all its files to the snapshot of its name, a change of the password
that knew the old one or an `init` to the key file.  By induction on the
calls. -/
theorem afterCalls_asBefore (E : Env) (path : Bytes) : ∀ (calls : List CliCall)
    (s : Session FileDataStore),
    (∃ earlier c later, calls = earlier ++ c :: later ∧ c.Writes E (afterCalls E earlier s) path) ∨
      (afterCalls E calls s).store.contents path = s.store.contents path ∨
      s.store.contents path = none ∧ ∃ objectId, path = objectPath (objectName objectId) := by
  intro calls
  induction calls with
  | nil =>
    intro s
    exact Or.inr (Or.inl rfl)
  | cons c calls ih =>
    intro s
    rcases c.asBefore E s path with hwrites | hfirst
    · exact Or.inl ⟨[], c, calls, rfl, hwrites⟩
    · rcases ih (c.after E s) with ⟨earlier, c', later, hcalls, hwrites⟩ | hrest
      · exact Or.inl ⟨c :: earlier, c', later, by rw [hcalls]; rfl, hwrites⟩
      · exact Or.inr (hfirst.trans hrest)

/-! ### What a snapshot survives -/

/-- The calls that a snapshot survives: no backup takes its name, the keys stay,
and the disk has room when the key file is written. -/
def CliCall.Spares (P : Set Bytes) (name : Bytes) (c : CliCall) : Prop :=
  match c.command with
  | .initializeRepository _ => False
  | .backup _ _ snapshotName _ _ => snapshotName.1 ≠ name
  | .listSnapshots .. => True
  | .listSnapshot .. => True
  | .restore .. => True
  | .changePassword oldPassword newPassword =>
    oldPassword ∈ P ∧ newPassword ∈ P ∧ ∀ e ∈ c.io, e = .ok

/-- The keys stay, and the disk has room when the key file is written. -/
def CliCall.KeepsKey (P : Set Bytes) (c : CliCall) : Prop :=
  match c.command with
  | .initializeRepository _ => False
  | .backup .. => True
  | .listSnapshots .. => True
  | .listSnapshot .. => True
  | .restore .. => True
  | .changePassword oldPassword newPassword =>
    oldPassword ∈ P ∧ newPassword ∈ P ∧ ∀ e ∈ c.io, e = .ok

theorem CliCall.Spares.keepsKey {P : Set Bytes} {name : Bytes} {c : CliCall} (h : c.Spares P name) :
    c.KeepsKey P := by
  obtain ⟨io, memory, command⟩ := c
  cases command with
  | initializeRepository password => exact h
  | backup options password snapshotName progress args => trivial
  | listSnapshots password leftEmpty => trivial
  | listSnapshot fuel password snapshotName => trivial
  | restore L options fuel password snapshotName destDir srcFiles progress disk => trivial
  | changePassword oldPassword newPassword => exact h

theorem AsBefore.of_not_object {d d' : FileDataStore} {path : Bytes} (h : AsBefore d d' path)
    (hpath : ∀ objectId, path ≠ objectPath (objectName objectId)) :
    d'.contents path = d.contents path := by
  rcases h with hsame | ⟨-, objectId, hobject⟩
  · exact hsame
  · exact absurd hobject (hpath objectId)

section Safe

variable {E : Env} {keys : RepositoryKeys} {P : Set Bytes} {current name : Bytes}
  {files : List (Bytes × LocalFile)} {s : Session FileDataStore}

/-- The store has the keys under the password. -/
def Unlocks (E : Env) (keys : RepositoryKeys) (P : Set Bytes) (current : Bytes)
    (s : Session FileDataStore) : Prop :=
  Locked FileDataStore.storeModel E keys P current (startProcess [] keys s)

theorem Locked.unlocks (h : Locked FileDataStore.storeModel E keys P current s) :
    Unlocks E keys P current s :=
  ⟨fun _ he => absurd he List.not_mem_nil, h.current_mem, h.file⟩

/-- A process that starts can unlock when its disk has room. -/
theorem Unlocks.start (h : Unlocks E keys P current s) {io : List ChunkEvent}
    (hio : ∀ e ∈ io, e = .ok) (memory : RepositoryKeys) :
    Locked FileDataStore.storeModel E keys P current (startProcess io memory s) :=
  ⟨hio, h.current_mem, h.file⟩

/-- A call that does not come to write the key file. -/
theorem Unlocks.unwritten (h : Unlocks E keys P current s) {c : CliCall}
    (hkey : ¬ c.Writes E s (ascii "/key")) : Unlocks E keys P current (c.after E s) := by
  have hsame := ((c.asBefore E s (ascii "/key")).resolve_left hkey).of_not_object fun objectId heq =>
    objectPath_ne_key _ heq.symm
  obtain ⟨-, hmem, f, hf, hrest⟩ := h
  exact ⟨fun _ he => absurd he List.not_mem_nil, hmem, f, hsame.trans hf, hrest⟩

/-- **A change of the password** by a process whose disk has room. -/
theorem Unlocks.changePassword (h : Unlocks E keys P current s) (hC : E.C.Lawful)
    {oldPassword newPassword : Bytes} {io : List ChunkEvent} {memory : RepositoryKeys}
    (hold : oldPassword ∈ P) (hnew : newPassword ∈ P) (hio : ∀ e ∈ io, e = .ok)
    (hdiff : ∀ n, ∀ q ∈ P, ∀ rest, (nextKeyFile E keys n q defaultLogRounds rest).TagsDiffer E.C P) :
    Unlocks E keys P (if oldPassword = current then newPassword else current)
      (CliCall.after E ⟨io, memory, .changePassword oldPassword newPassword⟩ s) := by
  have hdefault : ∀ i j, DefaultProgressFunction i j = true := fun _ _ => rfl
  obtain ⟨d, u, hd, hcont, hunlock⟩ := (h.start hio memory).unlock hC hold hdefault
  by_cases hcur : oldPassword = current
  · rw [decide_eq_true hcur, if_pos hcur] at hunlock
    rw [if_pos hcur]
    -- the command unlocks, and `changePassword` unlocks again
    have hlocked : Locked FileDataStore.storeModel E keys P current
        { startProcess io memory s with store := d, keys := keys, uninitUsed := u } :=
      (h.start hio memory).of_contents hd hcont
    obtain ⟨d', u', hd', hcont', hunlock'⟩ := hlocked.unlock hC hold hdefault
    rw [decide_eq_true hcur, if_pos hcur] at hunlock'
    obtain ⟨d'', hwrite, hd'', hcont''⟩ := writeRepositoryKey_run FileDataStore.storeModel hC
      (s := { startProcess io memory s with store := d', keys := keys, uninitUsed := u' }) hd'
      newPassword (show defaultLogRounds.toNat ≤ MAX_LOG_ROUNDS by decide) hdefault
    have hchange : Nebula.changePassword E oldPassword newPassword defaultLogRounds
        DefaultProgressFunction
        { startProcess io memory s with store := d, keys := keys, uninitUsed := u } = ok true _ :=
      run_step hunlock' (run_step hwrite rfl)
    have hrun : changePasswordCommand E oldPassword newPassword (startProcess io memory s) = ok () _ :=
      run_step (run_step (library_ok hunlock) rfl) (run_step (library_ok hchange) rfl)
    rw [CliCall.after, CliCommand.after, hrun]
    refine ⟨fun _ he => absurd he List.not_mem_nil, hnew, nextKeyFile E keys s.randomUsed newPassword
      defaultLogRounds (bytesFrom E.uninit (u' + 32) 32), ?_, rfl, rfl, ?_, hdiff _ _ hnew _⟩
    · exact (congrFun hcont'' (ascii "/key")).trans (Function.update_self ..)
    · show defaultLogRounds.toNat ≤ MAX_LOG_ROUNDS
      decide
  · rw [decide_eq_false hcur, if_neg hcur] at hunlock
    rw [if_neg hcur]
    refine h.unwritten ?_
    rintro ⟨-, t, ht⟩
    have hfalse := (run_ok (library_ok hunlock)).symm.trans ht
    cases hfalse

/-- **One call** keeps the keys. -/
theorem Unlocks.call (h : Unlocks E keys P current s) (hC : E.C.Lawful)
    (hdiff : ∀ n, ∀ q ∈ P, ∀ rest, (nextKeyFile E keys n q defaultLogRounds rest).TagsDiffer E.C P)
    (c : CliCall) (hc : c.KeepsKey P) :
    Unlocks E keys P (c.command.passwordAfter current) (c.after E s) := by
  obtain ⟨io, memory, command⟩ := c
  cases command with
  | initializeRepository password => exact hc.elim
  | backup options password snapshotName progress args =>
    refine h.unwritten ?_
    rintro ⟨hkey, -⟩
    exact snapshotPath_ne_key _ hkey
  | listSnapshots password leftEmpty => exact h.unwritten fun hw => hw
  | listSnapshot fuel password snapshotName => exact h.unwritten fun hw => hw
  | restore L options fuel password snapshotName destDir srcFiles progress disk =>
    exact h.unwritten fun hw => hw
  | changePassword oldPassword newPassword =>
    obtain ⟨hold, hnew, hio⟩ := hc
    exact h.changePassword hC hold hnew hio hdiff

/-- **Any calls** keep the keys, by induction on them. -/
theorem Unlocks.calls (hC : E.C.Lawful)
    (hdiff : ∀ n, ∀ q ∈ P, ∀ rest, (nextKeyFile E keys n q defaultLogRounds rest).TagsDiffer E.C P) :
    ∀ (calls : List CliCall) {current : Bytes} {s : Session FileDataStore},
      Unlocks E keys P current s → (∀ c ∈ calls, c.KeepsKey P) →
      Unlocks E keys P (passwordAfter current calls) (afterCalls E calls s) := by
  intro calls
  induction calls with
  | nil =>
    intro current s h _
    exact h
  | cons c calls ih =>
    intro current s h hkeeps
    exact ih (h.call hC hdiff c (hkeeps c List.mem_cons_self)) fun c' hc' =>
      hkeeps c' (List.mem_cons_of_mem c hc')

/-- **One call** that spares a snapshot does not come to write it. -/
theorem CliCall.Spares.contents {c : CliCall} (hc : c.Spares P name) (E : Env)
    (s : Session FileDataStore) :
    (c.after E s).store.contents (snapshotPath name) = s.store.contents (snapshotPath name) := by
  have hwrites : ¬ c.Writes E s (snapshotPath name) := by
    intro hw
    rw [CliCall.Writes] at hw
    rw [CliCall.Spares] at hc
    cases hcmd : c.command with
    | initializeRepository password =>
      rw [hcmd] at hc
      exact hc.elim
    | backup options password snapshotName progress args =>
      rw [hcmd] at hw hc
      exact hc (List.append_cancel_left hw.1).symm
    | listSnapshots password leftEmpty =>
      rw [hcmd] at hw
      exact hw.elim
    | listSnapshot fuel password snapshotName =>
      rw [hcmd] at hw
      exact hw.elim
    | restore L options fuel password snapshotName destDir srcFiles progress disk =>
      rw [hcmd] at hw
      exact hw.elim
    | changePassword oldPassword newPassword =>
      rw [hcmd] at hw
      exact snapshotPath_ne_key name hw.1.symm
  exact ((c.asBefore E s (snapshotPath name)).resolve_left hwrites).of_not_object fun objectId heq =>
    objectPath_ne_snapshotPath _ _ heq.symm

/-- **Any calls** that spare it leave it alone, by induction on them. -/
theorem afterCalls_spared (E : Env) : ∀ (calls : List CliCall) (s : Session FileDataStore),
    (∀ c ∈ calls, c.Spares P name) →
    (afterCalls E calls s).store.contents (snapshotPath name) = s.store.contents (snapshotPath name) := by
  intro calls
  induction calls with
  | nil =>
    intro s _
    rfl
  | cons c calls ih =>
    intro s hspares
    have hrest := ih (c.after E s) fun c' hc' => hspares c' (List.mem_cons_of_mem c hc')
    exact hrest.trans ((hspares c List.mem_cons_self).contents E s)

/-- No call writes an object a second time, and so one that spares a snapshot keeps
it with its objects. -/
theorem Restorable.call (h : Restorable E keys s.store.contents name files) {c : CliCall}
    (hc : c.Spares P name) : Restorable E keys (c.after E s).store.contents name files :=
  h.mono (fun _ _ hbytes => c.after_object hbytes) (hc.contents E s)

/-- **Any calls** keep the snapshot, by induction on them. -/
theorem Restorable.calls : ∀ (calls : List CliCall) {s : Session FileDataStore},
    Restorable E keys s.store.contents name files → (∀ c ∈ calls, c.Spares P name) →
    Restorable E keys (afterCalls E calls s).store.contents name files := by
  intro calls
  induction calls with
  | nil =>
    intro s h _
    exact h
  | cons c calls ih =>
    intro s h hspares
    exact ih (h.call (hspares c List.mem_cons_self)) fun c' hc' =>
      hspares c' (List.mem_cons_of_mem c hc')

end Safe

/-- **The life of a repository.**  After `initializeRepository` and any calls that
left no object broken, a backup on a disk with room returns.  After any further
calls that spare its snapshot, with failures, cancellations and changes of the
password among them, a restore with the current password to a disk with room for
the files returns as well, has written every file below its arguments and has left
the rest of the local disk alone. -/
theorem restore_after_calls {E : Env} (hC : E.C.Lawful) (hsane : E.options.Sane) {P F : Set Bytes}
    {password : Bytes} (hpassword : password ∈ P) {s : Session FileDataStore}
    (hroom : ∀ e ∈ s.store.io, e = .ok) {keys : RepositoryKeys}
    (hkeys : keys = generatedKeys E s.randomUsed)
    (hdiff : ∀ n, ∀ q ∈ P, ∀ rest, (nextKeyFile E keys n q defaultLogRounds rest).TagsDiffer E.C P)
    (hinj : Set.InjOn (E.C.hmacSha256 (keys.mHashKey.toList.take SHA256_DIGEST_LENGTH)) F) :
    ∃ s₀, initializeCommand E password s = ok () s₀ ∧
      ∀ (earlier : List CliCall), (∀ c ∈ earlier, c.KeepsKey P) →
      ∀ (io : List ChunkEvent) (memory : RepositoryKeys), (∀ e ∈ io, e = .ok) →
      ∀ (args : List (Bytes × LocalArg)) (files : List (List (Bytes × LocalFile))),
        args.map (fun a => a.2.files a.1) = files.map (List.map entryFile) →
        FitsSnapshot E keys files →
        Sound E.C keys F (afterCalls E earlier s₀).store.contents →
        Storable E keys F (backupParts E keys files) (afterCalls E earlier s₀).store.contents →
      ∀ (backup : CliOptions) (uploading : ℕ → ℕ → FileTransferProgressFunction) (name : SnapshotName),
        backup.dryRun = false → (∀ i j a b x y, uploading i j a b x y = true) →
      ∃ s₁, backupFiles E backup (passwordAfter password earlier) name.1 uploading args
          (startProcess io memory (afterCalls E earlier s₀)) = ok () s₁ ∧
        ∀ (later : List CliCall), (∀ c ∈ later, c.Spares P name.1) →
        ∀ (io : List ChunkEvent) (memory : RepositoryKeys), (∀ e ∈ io, e = .ok) →
        ∀ (L : LocalEnv) (restore : CliOptions) (destDir : Bytes) (srcFiles : List Bytes)
          (disk : LocalDisk), restore.dryRun = false → destDir ∈ disk.directories → srcFiles ≠ [] →
          RestorePlan L restore disk destDir srcFiles (files.flatten.map normalizedFile) →
        ∃ n, ∀ fuel ≥ n, ∀ downloading : FileEntry → FileTransferProgressFunction,
          (∀ fe a b i j, downloading fe a b i j = true) →
          ∃ disk' s₂, downloadFiles E L restore fuel (passwordAfter password (earlier ++ later)) name.1
              destDir srcFiles downloading disk (startProcess io memory (afterCalls E later s₁)) =
                ok disk' s₂ ∧
            (∀ m, Below srcFiles (files.flatten.map normalizedFile) m →
              disk'.files.find? (targetOf L destDir m).1 = some m.2.2.content) ∧
            ∀ p, (∀ m, Below srcFiles (files.flatten.map normalizedFile) m →
                p ≠ (targetOf L destDir m).1) → disk'.files.find? p = disk.files.find? p := by
  subst hkeys
  obtain ⟨s₀, hinit, hlocked₀, -⟩ := initializeRepository_locked (M := FileDataStore.storeModel) hC hroom
    hpassword (show defaultLogRounds.toNat ≤ MAX_LOG_ROUNDS by decide)
    (show ∀ i j, DefaultProgressFunction i j = true from fun _ _ => rfl)
    (fun rest => hdiff _ password hpassword rest)
  refine ⟨s₀, library_ok hinit, fun earlier hearlier io memory hio args files hargs hfits hsound hnew backup
    uploading name hbackup huploading => ?_⟩
  have hunlocks := Unlocks.calls hC hdiff earlier hlocked₀.unlocks hearlier
  obtain ⟨s₁, hrun, hlocked₁, hrestorable⟩ := backupFiles_restorable hC hsane (hunlocks.start hio memory)
    hbackup huploading hargs hinj hsound hnew hfits name.1
  refine ⟨s₁, hrun, fun later hlater io memory hio L restore destDir srcFiles disk hdry hdir hsrc
    hplan => ?_⟩
  have hunlocks₁ := Unlocks.calls hC hdiff later hlocked₁.unlocks fun c hc => (hlater c hc).keepsKey
  have hpasswords : passwordAfter password (earlier ++ later) =
      passwordAfter (passwordAfter password earlier) later := List.foldl_append
  rw [hpasswords]
  obtain ⟨n, hn⟩ := downloadFiles_run hC hsane (hunlocks₁.start hio memory)
    (Restorable.calls later hrestorable hlater) hdir hsrc hplan hdry
  refine ⟨n, fun fuel hfuel downloading hdownloading => ?_⟩
  obtain ⟨disk', s₂, hdownload, -, hwritten, hothers⟩ := hn fuel hfuel downloading hdownloading
  exact ⟨disk', s₂, hdownload, hwritten, hothers⟩

/-- Two names. -/
def nameS : SnapshotName := ⟨ascii "s", ⟨by decide, by decide⟩, by decide, by decide⟩

@[inherit_doc nameS]
def nameT : SnapshotName := ⟨ascii "t", ⟨by decide, by decide⟩, by decide, by decide⟩

/-- Somebody tries to list what is there with a wrong password. -/
def wrongListing : CliCall := ⟨[], zeroKeys, .listSnapshot 0 [98] (ascii "s")⟩

/-- A backup on a full disk, and a change of the password. -/
def laterCalls : List CliCall :=
  [⟨[.writeFail 0], zeroKeys, .backup .default [97] nameT
      (fun _ _ => DefaultFileTransferProgressFunction) picturesArgs⟩,
    ⟨[], zeroKeys, .changePassword [97] [98]⟩]

theorem laterCalls_spare : ∀ c ∈ laterCalls, c.Spares {p | p = [97] ∨ p = [98]} nameS.1 := by
  intro c hc
  rcases List.mem_pair.mp hc with rfl | rfl
  · show ascii "t" ≠ ascii "s"
    decide
  · exact ⟨Or.inl rfl, Or.inr rfl, fun _ he => absurd he List.not_mem_nil⟩

/-- A repository is made with the password `a`, and after a listing that fails the
pictures are backed up.  A backup under another name on a full disk and a change
of the password to `b` later, they are restored. -/
theorem restore_after_calls_pictures :
    ∃ s₀ s₁ n, initializeCommand cycleEnv [97] emptySession = ok () s₀ ∧
      backupFiles cycleEnv .default [97] (ascii "s") (fun _ _ => DefaultFileTransferProgressFunction)
        picturesArgs (startProcess [] zeroKeys (afterCalls cycleEnv [wrongListing] s₀)) = ok () s₁ ∧
      ∀ fuel ≥ n, ∃ disk' s₂, downloadFiles cycleEnv newDisk .default fuel [98] (ascii "s")
          (ascii "/out") [ascii "x/"] (fun _ => DefaultFileTransferProgressFunction) outDisk
          (startProcess [] zeroKeys (afterCalls cycleEnv laterCalls s₁)) = ok disk' s₂ ∧
        disk'.files.find? (ascii "/out/a.png") = some [97] ∧
        disk'.files.find? (ascii "/out/b.png") = some [97, 98] := by
  obtain ⟨s₀, hinit, hlife⟩ := restore_after_calls cycleTables.crypto_lawful splitOptions_sane
    (E := cycleEnv) (F := {[0, 97, 98]}) (show [97] ∈ {p : Bytes | p = [97] ∨ p = [98]} from Or.inl rfl)
    (s := emptySession) emptySession_ok (generatedKeys_cycleEnv 0)
    (fun n q hq rest => cycleTables_differ _ rfl rfl rfl hq) (Set.injOn_singleton _ _)
  have hempty : ∀ name, (afterCalls cycleEnv [wrongListing] s₀).store.contents (objectPath name) = none :=
    keeps_leftBy (keeps_listSnapshot (J := fun d => ∀ name, d.contents (objectPath name) = none) 0 [98]
      (ascii "s")) (s := startProcess [] zeroKeys s₀)
      fun name => initializeCommand_contents hinit (objectPath_ne_key name)
  obtain ⟨s₁, hrun, hrestore⟩ := hlife [wrongListing]
    (fun c hc => by
      rw [List.mem_singleton.mp hc]
      trivial)
    [] zeroKeys (fun _ he => absurd he List.not_mem_nil) picturesArgs [pictures] picturesArgs_files
    cycleEnv_splits.fits (sound_of_none hempty) (cycleEnv_splits.storable hempty) .default
    (fun _ _ => DefaultFileTransferProgressFunction) nameS rfl fun _ _ _ _ _ _ => rfl
  have hplan : RestorePlan newDisk .default outDisk (ascii "/out") [ascii "x/"]
      ([pictures].flatten.map normalizedFile) := pictures_plan
  obtain ⟨n, hn⟩ := hrestore laterCalls laterCalls_spare [] zeroKeys (fun _ he => absurd he List.not_mem_nil) newDisk .default (ascii "/out")
    [ascii "x/"] outDisk rfl List.mem_cons_self (by simp) hplan
  refine ⟨s₀, s₁, n, hinit, hrun, fun fuel hfuel => ?_⟩
  obtain ⟨disk', s₂, hdownload, hwritten, -⟩ := hn fuel hfuel
    (fun _ => DefaultFileTransferProgressFunction) fun _ _ _ _ _ => rfl
  exact ⟨disk', s₂, hdownload,
    hwritten (ascii "x/", (ascii "x/a.png", letterPicture)) ⟨List.mem_cons_self, List.mem_cons_self, by decide⟩,
    hwritten (ascii "x/", (ascii "x/b.png", wordPicture))
      ⟨List.mem_cons_self, List.mem_cons_of_mem _ List.mem_cons_self, by decide⟩⟩

end Nebula
