/-
What the program reads from the terminal.

Passwords are lines that `fgets` reads into 64 bytes.  What does not fit a line
stays for whatever is read next: the end of a long password is compared with its
beginning, or answers questions.  The question whether a file is overwritten is
answered by a single byte, so that the newline after an answer is the answer to
the next question.  Main results:

* `promptReadPassword_typed` — what becomes of a password that is typed twice;
* `promptReadPassword_again` — a password that was accepted can be typed again;
* `promptDownloadFiles_typed` — and a restore then goes on with it;
* `promptDownloadFiles_asks` — which files a restore overwrites.
-/
import NebulaBackup.CommandRuns

namespace Nebula

open EStateM.Result Hoare

/-! ### Lines -/

/-- The bytes that `fgets` takes: up to a newline and with it, at most `k`. -/
def fgetsLine : ℕ → Bytes → Bytes
  | 0, _ => []
  | _ + 1, [] => []
  | k + 1, c :: stdin => if c = 10 then [10] else c :: fgetsLine k stdin

/-- `fgets` into an array of the given size, which stays as it is when the input
is at its end. -/
def fgets (size : ℕ) (what : String) : EStateM CliFault Bytes Bytes := fun stdin =>
  if stdin = [] then error (.InvalidDataException what) stdin
  else ok (fgetsLine (size - 1) stdin) (stdin.drop (fgetsLine (size - 1) stdin).length)

/-- The C string in an array that `fgets` wrote to. -/
def cstring (buffer : Bytes) : Bytes := buffer.takeWhile (· ≠ 0)

/-- `while(buffer[--n] == '\n') buffer[n] = 0`, and the string that is left.  When
`n` is zero already, the byte that is looked at is not in the array. -/
def trimNewlines : ℕ → Bytes → EStateM CliFault Bytes Bytes
  | 0, _ => throw (.library .undefined)
  | n + 1, buffer =>
    if buffer.getD n 0 = 10 then trimNewlines n (buffer.set n 0) else return cstring buffer

/-- `promptReadPassword`. -/
def promptReadPassword (confirm : Bool) : EStateM CliFault Bytes Bytes := do
  let passwd1 ← fgets 64 "Password string is too long."
  if confirm then
    let passwd2 ← fgets 64 "Password string is too long."
    if cstring passwd1 ≠ cstring passwd2 then
      throw (.InvalidDataException "Passwords don't match.")
    else trimNewlines (cstring passwd1).length passwd1
  else trimNewlines (cstring passwd1).length passwd1

/-! ### What is read -/

/-- **A line that was typed**: whole if it fits with its newline, otherwise as
much of it as fits. -/
theorem fgetsLine_typed : ∀ (k : ℕ) {line : Bytes}, 10 ∉ line → ∀ rest : Bytes,
    fgetsLine k (line ++ 10 :: rest) = if line.length < k then line ++ [10] else line.take k := by
  intro k
  induction k with
  | zero =>
    intro line _ rest
    rfl
  | succ k ih =>
    intro line hline rest
    cases line with
    | nil => rfl
    | cons c line =>
      have hc : c ≠ 10 := fun h => hline (h ▸ List.mem_cons_self)
      rw [List.cons_append, fgetsLine, if_neg hc, ih fun h => hline (List.mem_cons_of_mem c h)]
      by_cases hlen : line.length < k
      · rw [if_pos hlen, if_pos (by simpa using hlen)]
        rfl
      · rw [if_neg hlen, if_neg (by simpa using hlen)]
        rfl

/-- What is taken is the beginning of the input, and only its last byte can be a
newline. -/
theorem fgetsLine_spec : ∀ (k : ℕ) (stdin : Bytes),
    fgetsLine k stdin <+: stdin ∧ (fgetsLine k stdin).length ≤ k ∧
      ∃ text newline, fgetsLine k stdin = text ++ newline ∧ 10 ∉ text ∧ (newline = [] ∨ newline = [10]) := by
  intro k
  induction k with
  | zero =>
    intro stdin
    exact ⟨List.nil_prefix, le_refl _, [], [], rfl, List.not_mem_nil, Or.inl rfl⟩
  | succ k ih =>
    intro stdin
    cases stdin with
    | nil => exact ⟨List.nil_prefix, Nat.zero_le _, [], [], rfl, List.not_mem_nil, Or.inl rfl⟩
    | cons c stdin =>
      rw [fgetsLine]
      by_cases hc : c = 10
      · rw [if_pos hc, hc]
        exact ⟨⟨stdin, rfl⟩, by simp, [], [10], rfl, List.not_mem_nil, Or.inr rfl⟩
      · obtain ⟨hbegins, hlen, text, newline, heq, htext, hnewline⟩ := ih stdin
        rw [if_neg hc]
        refine ⟨List.cons_prefix_cons.mpr ⟨rfl, hbegins⟩, by simpa using hlen, c :: text, newline, ?_, ?_,
          hnewline⟩
        · rw [heq]
          rfl
        · rw [List.mem_cons]
          rintro (h | h)
          · exact hc h.symm
          · exact htext h

theorem cstring_of_nulFree {buffer : Bytes} (h : 0 ∉ buffer) : cstring buffer = buffer := by
  rw [cstring, List.takeWhile_eq_self_iff]
  intro b hb
  have hne : b ≠ 0 := fun hzero => h (hzero ▸ hb)
  simpa using hne

/-- A string ends before its NUL. -/
theorem cstring_append_nul {text : Bytes} (h : 0 ∉ text) (tail : Bytes) :
    cstring (text ++ 0 :: tail) = text := by
  rw [cstring, List.takeWhile_append_of_pos fun b hb => ?_, List.takeWhile_cons_of_neg (by simp),
    List.append_nil]
  have hne : b ≠ 0 := fun hzero => h (hzero ▸ hb)
  simpa using hne

/-- A text without newlines is left as it is. -/
theorem trimNewlines_text {text tail : Bytes} (hne : text ≠ []) (hline : 10 ∉ text)
    (hcstring : cstring (text ++ tail) = text) (stdin : Bytes) :
    trimNewlines text.length (text ++ tail) stdin = ok text stdin := by
  obtain ⟨front, last, rfl⟩ := (List.eq_nil_or_concat' text).resolve_left hne
  rw [List.length_append, List.length_singleton, trimNewlines, List.getD_append _ _ _ _ (by simp)]
  rw [List.getD_append_right _ _ _ _ (le_refl _), Nat.sub_self]
  rw [if_neg (show ¬ [last].getD 0 0 = 10 from fun h => hline (by
    rw [← show last = 10 from h]
    simp)), hcstring]
  rfl

theorem trimNewlines_whole {text : Bytes} (hne : text ≠ []) (hline : 10 ∉ text) (hnul : 0 ∉ text)
    (stdin : Bytes) : trimNewlines text.length text stdin = ok text stdin := by
  have htrim : trimNewlines text.length (text ++ []) stdin = ok text stdin :=
    trimNewlines_text hne hline (by rw [List.append_nil, cstring_of_nulFree hnul]) stdin
  rwa [List.append_nil] at htrim

/-- Without a text the loop leaves the array. -/
theorem trimNewlines_line {text tail : Bytes} (hline : 10 ∉ text) (hnul : 0 ∉ text) (stdin : Bytes) :
    trimNewlines (text.length + 1) (text ++ 10 :: tail) stdin =
      if text = [] then error (.library .undefined) stdin else ok text stdin := by
  have hset : (text ++ 10 :: tail).set text.length 0 = text ++ 0 :: tail := by
    rw [List.set_append_right _ _ (le_refl _), Nat.sub_self]
    rfl
  rw [trimNewlines, List.getD_append_right _ _ _ _ (le_refl _), Nat.sub_self, if_pos (by rfl), hset]
  by_cases hne : text = []
  · rw [if_pos hne, hne]
    rfl
  · rw [if_neg hne]
    exact trimNewlines_text hne hline (cstring_append_nul hnul tail) stdin

theorem fgets_run {stdin : Bytes} (h : stdin ≠ []) (size : ℕ) (what : String) :
    fgets size what stdin =
      ok (fgetsLine (size - 1) stdin) (stdin.drop (fgetsLine (size - 1) stdin).length) := by
  rw [fgets, if_neg h]

/-- **A line** as the prompts read it. -/
theorem fgets_typed {line : Bytes} (hline : 10 ∉ line) (rest : Bytes) (what : String) :
    fgets 64 what (line ++ 10 :: rest) =
      if line.length < 63 then ok (line ++ [10]) rest
      else ok (line.take 63) (line.drop 63 ++ 10 :: rest) := by
  rw [fgets_run (by simp), fgetsLine_typed 63 hline]
  by_cases hlen : line.length < 63
  · rw [if_pos hlen, if_pos hlen]
    congr 1
    rw [show line ++ 10 :: rest = (line ++ [10]) ++ rest by simp, List.drop_left]
  · rw [if_neg hlen, if_neg hlen]
    congr 1
    rw [List.length_take, min_eq_left (by omega), List.drop_append_of_le_length (by omega)]

theorem not_mem_newline {line : Bytes} (h : 0 ∉ line) : 0 ∉ line ++ [10] := by
  rw [List.mem_append, List.mem_singleton]
  rintro (hmem | hzero)
  · exact h hmem
  · exact absurd hzero (by decide)

/-- **A line at a prompt** that asks once: what does not fit is left for the next
one. -/
theorem readLine_typed {line : Bytes} (hnul : 0 ∉ line) (hline : 10 ∉ line) (rest : Bytes)
    (what : String) :
    (fgets 64 what >>= fun buffer => trimNewlines (cstring buffer).length buffer) (line ++ 10 :: rest) =
      if line = [] then error (.library .undefined) rest
      else if line.length < 63 then ok line rest
      else ok (line.take 63) (line.drop 63 ++ 10 :: rest) := by
  have hread := fgets_typed hline rest what
  by_cases hlen : line.length < 63
  · rw [if_pos hlen] at hread
    refine run_step hread ?_
    rw [cstring_of_nulFree (not_mem_newline hnul), List.length_append, List.length_singleton,
      trimNewlines_line hline hnul, if_pos hlen]
  · have hne : line ≠ [] := fun h => hlen (by rw [h]; decide)
    have hnul' : 0 ∉ line.take 63 := fun h => hnul (List.mem_of_mem_take h)
    rw [if_neg hlen] at hread
    refine run_step hread ?_
    rw [cstring_of_nulFree hnul', trimNewlines_whole
      (by rwa [ne_eq, List.take_eq_nil_iff, not_or, and_iff_right (by decide)])
      (fun h => hline (List.mem_of_mem_take h)) hnul', if_neg hne, if_neg hlen]

/-- Two reads and a comparison. -/
theorem promptReadPassword_confirm {stdin stdin₁ stdin₂ passwd1 passwd2 : Bytes}
    (hfirst : fgets 64 "Password string is too long." stdin = ok passwd1 stdin₁)
    (hsecond : fgets 64 "Password string is too long." stdin₁ = ok passwd2 stdin₂) :
    promptReadPassword true stdin =
      if cstring passwd1 = cstring passwd2 then
        trimNewlines (cstring passwd1).length passwd1 stdin₂
      else error (.InvalidDataException "Passwords don't match.") stdin₂ := by
  refine run_step hfirst ?_
  rw [if_pos rfl]
  refine run_step hsecond ?_
  by_cases hsame : cstring passwd1 = cstring passwd2
  · rw [if_neg (not_not.mpr hsame), if_pos hsame]
  · rw [if_pos hsame, if_neg hsame]
    rfl

/-- **A password that is typed twice.**  One of at most 62 bytes is accepted, if
there is anything in it; Enter alone makes the program look outside the array.
Of a longer one the first 63 bytes are compared with what comes after them, and
they become the password when the next 63 are the same. -/
theorem promptReadPassword_typed {line : Bytes} (hnul : 0 ∉ line) (hline : 10 ∉ line) (rest : Bytes) :
    promptReadPassword true (line ++ 10 :: (line ++ 10 :: rest)) =
      if line = [] then error (.library .undefined) rest
      else if line.length < 63 then ok line rest
      else if (line.drop 63).take 63 = line.take 63 then
        ok (line.take 63) (line.drop 126 ++ 10 :: (line ++ 10 :: rest))
      else
        error (.InvalidDataException "Passwords don't match.")
          (if line.length < 126 then line ++ 10 :: rest
            else line.drop 126 ++ 10 :: (line ++ 10 :: rest)) := by
  have hfirst := fgets_typed hline (line ++ 10 :: rest) "Password string is too long."
  by_cases hlen : line.length < 63
  · -- both lines are read whole
    have hsecond := fgets_typed hline rest "Password string is too long."
    rw [if_pos hlen] at hfirst hsecond
    rw [promptReadPassword_confirm hfirst hsecond, if_pos rfl,
      cstring_of_nulFree (not_mem_newline hnul), List.length_append, List.length_singleton,
      trimNewlines_line hline hnul, if_pos hlen]
  · -- the second read goes on in the first line
    have hne : line ≠ [] := fun h => hlen (by rw [h]; decide)
    have htake : (line.take 63).length = 63 := by
      rw [List.length_take]
      omega
    have hline' : 10 ∉ line.drop 63 := fun h => hline (List.mem_of_mem_drop h)
    have hsecond := fgets_typed hline' (line ++ 10 :: rest) "Password string is too long."
    have hnul' : 0 ∉ line.take 63 := fun h => hnul (List.mem_of_mem_take h)
    have hcstring : cstring (line.take 63) = line.take 63 := cstring_of_nulFree hnul'
    have htext : ∀ t, trimNewlines (line.take 63).length (line.take 63) t = ok (line.take 63) t :=
      trimNewlines_whole (by rwa [ne_eq, List.take_eq_nil_iff, not_or, and_iff_right (by decide)])
        (fun h => hline (List.mem_of_mem_take h)) hnul'
    rw [if_neg hlen] at hfirst
    rw [if_neg hne, if_neg hlen]
    rw [List.length_drop] at hsecond
    by_cases hshort : line.length < 126
    · -- it ends in a newline, which the first does not
      rw [if_pos (by omega)] at hsecond
      rw [promptReadPassword_confirm hfirst hsecond, hcstring,
        cstring_of_nulFree (not_mem_newline fun h => hnul (List.mem_of_mem_drop h))]
      have hdiffer : line.take 63 ≠ line.drop 63 ++ [10] := fun h =>
        hline (List.mem_of_mem_take (h ▸ List.mem_append_right _ List.mem_cons_self))
      have hshorter : (line.drop 63).take 63 ≠ line.take 63 := by
        intro h
        have hlens := congrArg List.length h
        rw [htake, List.length_take, List.length_drop] at hlens
        omega
      rw [if_neg hdiffer, if_neg hshorter, if_pos hshort]
    · rw [if_neg (by omega), List.drop_drop] at hsecond
      rw [promptReadPassword_confirm hfirst hsecond, hcstring,
        cstring_of_nulFree fun h => hnul (List.mem_of_mem_drop (List.mem_of_mem_take h)),
        if_neg hshort]
      by_cases hsame : line.take 63 = (line.drop 63).take 63
      · rw [if_pos hsame, if_pos hsame.symm, htext]
      · rw [if_neg hsame, if_neg (Ne.symm hsame)]

/-- The password `a`, with an answer after it. -/
theorem promptReadPassword_typed_letter :
    promptReadPassword true [97, 10, 97, 10, 121] = ok [97] [121] :=
  promptReadPassword_typed (show 0 ∉ ([97] : Bytes) by decide) (by decide) [121]

/-- A string that the loop accepts is not empty and has neither NUL nor newline. -/
theorem trimNewlines_fgetsLine {k : ℕ} {stdin stdin₁ stdin₂ password : Bytes}
    (h : trimNewlines (cstring (fgetsLine k stdin)).length (fgetsLine k stdin) stdin₁ =
      ok password stdin₂) :
    password ≠ [] ∧ 0 ∉ password ∧ 10 ∉ password ∧ password.length ≤ k := by
  obtain ⟨-, hlen, text, newline, heq, htext, hnewline⟩ := fgetsLine_spec k stdin
  rw [heq] at h hlen
  by_cases hnul : 0 ∈ text ++ newline
  · -- the string ends at a NUL that was typed, and so before the newline
    obtain ⟨rest, hrest⟩ := takeWhile_nul hnul
    change text ++ newline = cstring (text ++ newline) ++ 0 :: rest at hrest
    have hfree : 0 ∉ cstring (text ++ newline) := fun hmem => by
      simpa using List.mem_takeWhile_imp hmem
    generalize cstring (text ++ newline) = str at h hrest hfree
    have hstr : 10 ∉ str := by
      rcases List.append_eq_append_iff.mp hrest with ⟨a, -, hend⟩ | ⟨a, hbegin, -⟩
      · have hzero : 0 ∈ newline := hend ▸ List.mem_append_right a List.mem_cons_self
        rcases hnewline with rfl | rfl
        · exact absurd hzero List.not_mem_nil
        · exact absurd (List.mem_singleton.mp hzero) (by decide)
      · exact fun hmem => htext (hbegin ▸ List.mem_append_left a hmem)
    rw [hrest] at h hlen
    by_cases hne : str = []
    · rw [hne] at h
      cases h
    · rw [trimNewlines_text hne hstr (cstring_append_nul hfree rest)] at h
      obtain ⟨rfl, -⟩ := EStateM.Result.ok.inj h
      exact ⟨hne, hfree, hstr, by rw [List.length_append] at hlen; omega⟩
  · have hfree : 0 ∉ text := fun hmem => hnul (List.mem_append_left newline hmem)
    rw [cstring_of_nulFree hnul] at h
    rw [List.length_append] at hlen
    have hpassword : text ≠ [] ∧ text = password := by
      rcases hnewline with rfl | rfl
      · rw [List.append_nil] at h
        by_cases hne : text = []
        · rw [hne] at h
          cases h
        · rw [trimNewlines_whole hne htext hfree] at h
          exact ⟨hne, (EStateM.Result.ok.inj h).1⟩
      · rw [List.length_append, List.length_singleton, trimNewlines_line htext hfree] at h
        by_cases hne : text = []
        · rw [if_pos hne] at h
          cases h
        · rw [if_neg hne] at h
          exact ⟨hne, (EStateM.Result.ok.inj h).1⟩
    obtain ⟨hne, rfl⟩ := hpassword
    exact ⟨hne, hfree, htext, by omega⟩

/-- What `fgets` read is a line. -/
theorem fgets_ok {stdin stdin' buffer : Bytes} {size : ℕ} {what : String}
    (h : fgets size what stdin = ok buffer stdin') : buffer = fgetsLine (size - 1) stdin := by
  rw [fgets] at h
  split at h
  · cases h
  · exact (EStateM.Result.ok.inj h).1.symm

/-- **A password that was accepted** can be typed at every later prompt, whatever
was read when it was set. -/
theorem promptReadPassword_again {confirm : Bool} {stdin stdin' password : Bytes}
    (h : promptReadPassword confirm stdin = ok password stdin') (rest : Bytes) :
    promptReadPassword false (password ++ 10 :: rest) =
      ok password (if password.length < 63 then rest else 10 :: rest) := by
  obtain ⟨passwd1, stdin₁, hfirst, h⟩ := of_run_ok h
  have hread := fgets_ok hfirst
  have htrim : ∃ stdin₂, trimNewlines (cstring passwd1).length passwd1 stdin₂ = ok password stdin' := by
    cases confirm with
    | false => exact ⟨stdin₁, h⟩
    | true =>
      rw [if_pos rfl] at h
      obtain ⟨passwd2, stdin₂, -, h⟩ := of_run_ok h
      split at h
      · cases h
      · exact ⟨stdin₂, h⟩
  obtain ⟨stdin₂, htrim⟩ := htrim
  rw [hread] at htrim
  obtain ⟨hne, hnul, hline, hlen⟩ := trimNewlines_fgetsLine htrim
  have hagain := readLine_typed hnul hline rest "Password string is too long."
  rw [if_neg hne] at hagain
  by_cases hshort : password.length < 63
  · rw [if_pos hshort] at hagain
    rw [if_pos hshort]
    exact hagain
  · have hfull : password.length = 63 := by omega
    rw [if_neg hshort, List.take_of_length_le (by omega), List.drop_eq_nil_of_le (by omega)] at hagain
    rw [if_neg hshort]
    exact hagain

/-! ### Questions -/

/-- `downloadFiles` with the prompt for the password, on the input that is left for
the questions. -/
def promptDownloadFiles {δ : Type} [DataStore δ] (E : Env) (L : LocalEnv) (options : CliOptions)
    (fuel : ℕ) (snapshotName destDir : Bytes) (srcFiles : List Bytes)
    (progress : FileEntry → FileTransferProgressFunction) (disk : LocalDisk) : Cli δ LocalDisk :=
  fun s =>
    if disk.is_directory destDir = false then
      error (.InvalidArgumentException "Last argument should specify a valid directory.") s
    else
      match promptReadPassword false disk.stdin with
      | error e _ => error e s
      | ok password stdin =>
        downloadFiles E L options fuel password snapshotName destDir srcFiles progress
          { disk with stdin := stdin } s

/-- **A restore at the terminal.**  Whatever was typed when the password was set, a
restore at which it is typed again goes on with it, and with the rest of the
input.  Of a password of 63 bytes the newline is in that rest and answers the
first question. -/
theorem promptDownloadFiles_typed {δ : Type} [DataStore δ] {confirm : Bool}
    {stdin stdin' password : Bytes} (h : promptReadPassword confirm stdin = ok password stdin')
    (E : Env) (L : LocalEnv) (options : CliOptions) (fuel : ℕ) (snapshotName destDir : Bytes)
    (srcFiles : List Bytes) (progress : FileEntry → FileTransferProgressFunction) (disk : LocalDisk)
    (rest : Bytes) (hstdin : disk.stdin = password ++ 10 :: rest) (s : Session δ) :
    promptDownloadFiles E L options fuel snapshotName destDir srcFiles progress disk s =
      downloadFiles E L options fuel password snapshotName destDir srcFiles progress
        { disk with stdin := if password.length < 63 then rest else 10 :: rest } s := by
  rw [promptDownloadFiles]
  by_cases hdir : disk.is_directory destDir = false
  · have hsame : LocalDisk.is_directory
        { disk with stdin := if password.length < 63 then rest else 10 :: rest } destDir = false := hdir
    rw [if_pos hdir, downloadFiles, if_pos hsame]
    rfl
  · rw [if_neg hdir, hstdin, promptReadPassword_again h rest]

/-- The pictures are restored by one who types the password. -/
theorem promptDownloadFiles_typed_pictures :
    promptReadPassword true [97, 10, 97, 10] = ok [97] [] ∧
      ∃ (s₁ : Session FileDataStore) (n : ℕ), ∀ fuel ≥ n, ∃ disk' s₂,
        promptDownloadFiles cycleEnv newDisk .default fuel (ascii "s") (ascii "/out") [ascii "x/"]
          (fun _ => DefaultFileTransferProgressFunction) { outDisk with stdin := [97, 10] } s₁ =
            ok disk' s₂ ∧
        disk'.files.find? (ascii "/out/a.png") = some [97] ∧
        disk'.files.find? (ascii "/out/b.png") = some [97, 98] := by
  have hset : promptReadPassword true [97, 10, 97, 10] = ok [97] [] := rfl
  obtain ⟨s₁, -, hlocked, hrestorable⟩ := pictures_backup
  obtain ⟨n, hn⟩ := downloadFiles_run cycleTables.crypto_lawful splitOptions_sane hlocked hrestorable
    List.mem_cons_self (by simp) pictures_plan rfl
  refine ⟨hset, s₁, n, fun fuel hfuel => ?_⟩
  obtain ⟨disk', s₂, hrun, -, hwritten, -⟩ := hn fuel hfuel
    (fun _ => DefaultFileTransferProgressFunction) fun _ _ _ _ _ => rfl
  refine ⟨disk', s₂, ?_, ?_, ?_⟩
  · rw [promptDownloadFiles_typed hset _ _ _ _ _ _ _ _ _ [] rfl]
    exact hrun
  · exact hwritten (ascii "x/", (ascii "x/a.png", letterPicture))
      ⟨List.mem_cons_self, List.mem_cons_self, by decide⟩
  · exact hwritten (ascii "x/", (ascii "x/b.png", wordPicture))
      ⟨List.mem_cons_self, List.mem_cons_of_mem _ List.mem_cons_self, by decide⟩

/-- The questions of a restore that started with `disk₀`, after the entries
`seen`: every file that was there is asked about, a byte is read for each
question, and only a `y` lets a file be overwritten. -/
structure Asked (L : LocalEnv) (snapshot : Snapshot) (destDir : Bytes) (options : CliOptions)
    (disk₀ : LocalDisk) (questions seen : List (Bytes × FileEntry)) (disk : LocalDisk) : Prop where
  order : questions.Sublist seen
  read : disk.stdin = disk₀.stdin.drop questions.length
  kept : ∀ p, disk₀.files.find? p ≠ none → disk.files.find? p ≠ none
  asked : options.dryRun = false → ∀ m ∈ seen, ∀ p, RestoredTo L snapshot destDir m p →
    disk₀.files.find? p ≠ none → m ∈ questions
  overwritten : ∀ p, disk₀.files.find? p ≠ none → disk.files.find? p ≠ disk₀.files.find? p →
    ∃ (k : ℕ) (m : Bytes × FileEntry), questions[k]? = some m ∧ RestoredTo L snapshot destDir m p ∧
      disk₀.stdin[k]? = some 121

section Questions

variable {δ : Type} [DataStore δ] {E : Env} {L : LocalEnv} {options : CliOptions}
  {snapshot : Snapshot} {destDir : Bytes}

/-- The user is asked about what exists, and answers with one byte. -/
theorem mayWrite_asks (hforce : options.force = false) {filePath : Bytes} {disk disk₁ : LocalDisk}
    {may : Bool} (h : disk.mayWrite options filePath = (may, disk₁)) :
    ((options.dryRun = true ∨ disk.files.find? filePath = none) ∧ may = true ∧ disk₁ = disk) ∨
      (options.dryRun = false ∧ disk₁.files = disk.files ∧ disk₁.stdin = disk.stdin.drop 1 ∧
        (may = true → disk.stdin[0]? = some 121)) := by
  rw [LocalDisk.mayWrite] at h
  by_cases hask : options.force = false ∧ options.dryRun = false ∧ disk.exists filePath = true
  · rw [if_pos hask, LocalDisk.fgetc] at h
    refine Or.inr ⟨hask.2.1, ?_⟩
    cases hstdin : disk.stdin with
    | nil =>
      rw [hstdin] at h
      obtain ⟨rfl, rfl⟩ := Prod.mk.inj h
      exact ⟨rfl, by rw [hstdin]; rfl, fun hmay => absurd hmay (by simp)⟩
    | cons c stdin =>
      rw [hstdin] at h
      obtain ⟨rfl, rfl⟩ := Prod.mk.inj h
      exact ⟨rfl, rfl, fun hmay => of_decide_eq_true hmay⟩
  · rw [if_neg hask] at h
    obtain ⟨rfl, rfl⟩ := Prod.mk.inj h
    refine Or.inl ⟨?_, rfl, rfl⟩
    by_contra hcon
    obtain ⟨hdry, hfile⟩ := not_or.mp hcon
    refine hask ⟨hforce, by simpa using hdry, ?_⟩
    rw [LocalDisk.exists, Option.isSome_iff_ne_none.mpr hfile, Bool.true_or]

/-- An entry is restored to one path. -/
theorem RestoredTo.unique {m : Bytes × FileEntry} {p p' : Bytes}
    (h : RestoredTo L snapshot destDir m p) (h' : RestoredTo L snapshot destDir m p') : p = p' := by
  obtain ⟨path, name, hpath, hname, rfl⟩ := h
  obtain ⟨path', name', hpath', hname', rfl⟩ := h'
  obtain rfl : path = path' := Except.ok.inj (hpath.symm.trans hpath')
  obtain rfl : name = name' := Except.ok.inj (hname.symm.trans hname')
  rfl

variable {disk₀ disk disk₁ disk' : LocalDisk} {questions seen : List (Bytes × FileEntry)}
  {m : Bytes × FileEntry} {target : Bytes}

/-- An entry without a question. -/
theorem Asked.skip (h : Asked L snapshot destDir options disk₀ questions seen disk)
    (hm : RestoredTo L snapshot destDir m target)
    (hnew : options.dryRun = true ∨ disk.files.find? target = none) :
    Asked L snapshot destDir options disk₀ questions (seen ++ [m]) disk := by
  refine ⟨h.order.trans (List.sublist_append_left seen [m]), h.read, h.kept, ?_, h.overwritten⟩
  intro hdry m' hm' p hp hfile
  rcases List.mem_append.mp hm' with hold | hlast
  · exact h.asked hdry m' hold p hp hfile
  · rw [List.mem_singleton.mp hlast] at hp
    rw [hp.unique hm] at hfile
    exact absurd (hnew.resolve_left (by simp [hdry])) (h.kept target hfile)

/-- An entry with a question, whatever the answer is. -/
theorem Asked.question (h : Asked L snapshot destDir options disk₀ questions seen disk)
    (hfiles : disk₁.files = disk.files) (hstdin : disk₁.stdin = disk.stdin.drop 1)
    (m : Bytes × FileEntry) :
    Asked L snapshot destDir options disk₀ (questions ++ [m]) (seen ++ [m]) disk₁ := by
  refine ⟨h.order.append (List.Sublist.refl [m]), ?_, ?_, ?_, ?_⟩
  · rw [hstdin, h.read, List.drop_drop, List.length_append, List.length_singleton]
  · rw [hfiles]
    exact h.kept
  · intro hdry m' hm' p hp hfile
    rcases List.mem_append.mp hm' with hold | hlast
    · exact List.mem_append_left _ (h.asked hdry m' hold p hp hfile)
    · exact List.mem_append_right _ hlast
  · intro p hfile hchanged
    rw [hfiles] at hchanged
    obtain ⟨k, m', hk, hm', hanswer⟩ := h.overwritten p hfile hchanged
    refine ⟨k, m', ?_, hm', hanswer⟩
    rw [List.getElem?_append_left (List.getElem?_eq_some_iff.mp hk).1, hk]

/-- A file may be written where there was none, or where the answer was a `y`. -/
theorem Asked.write (h : Asked L snapshot destDir options disk₀ questions seen disk) {content : Bytes}
    (hfiles : disk'.files = disk.files.assign target content) (hstdin : disk'.stdin = disk.stdin)
    (hallowed : disk₀.files.find? target ≠ none → ∃ (k : ℕ) (m : Bytes × FileEntry),
      questions[k]? = some m ∧ RestoredTo L snapshot destDir m target ∧ disk₀.stdin[k]? = some 121) :
    Asked L snapshot destDir options disk₀ questions seen disk' := by
  refine ⟨h.order, hstdin.trans h.read, ?_, h.asked, ?_⟩
  · intro p hfile
    rw [hfiles, SortedMap.find?_assign]
    split
    · exact Option.some_ne_none content
    · exact h.kept p hfile
  · intro p hfile hchanged
    by_cases hp : p = target
    · rw [hp] at hfile ⊢
      exact hallowed hfile
    · rw [hfiles, SortedMap.find?_assign, if_neg hp] at hchanged
      exact h.overwritten p hfile hchanged

/-- **One entry**, when the user is to be asked. -/
theorem Asked.entry (hforce : options.force = false) {fuel : ℕ} {srcFile : Bytes}
    {progress : FileTransferProgressFunction} {fe : FileEntry} {s s' : Session δ}
    (h : Asked L snapshot destDir options disk₀ questions seen disk)
    (hrun : restoreEntry E L options fuel snapshot destDir srcFile progress fe disk s = ok disk' s') :
    ∃ questions', Asked L snapshot destDir options disk₀ questions' (seen ++ [(srcFile, fe)]) disk' := by
  obtain ⟨path, name, target, may, disk₁, hpath, hname, rfl, hmay, hdone⟩ := restoreEntry_ok hrun
  have hto : RestoredTo L snapshot destDir (srcFile, fe) (destFilePath L destDir srcFile path name) :=
    ⟨path, name, hpath, hname, rfl⟩
  rcases mayWrite_asks hforce hmay with ⟨hnew, -, rfl⟩ | ⟨-, hfiles, hstdin, hanswer⟩
  · refine ⟨questions, ?_⟩
    rcases hdone with ⟨-, rfl, -⟩ | ⟨-, hdry, -, found, o, -, hassign, hsame, -⟩
    · exact h.skip hto hnew
    · have hnone := hnew.resolve_left (by simp [hdry])
      exact (h.skip hto hnew).write hassign hsame fun hfile => absurd hnone (h.kept _ hfile)
  · refine ⟨questions ++ [(srcFile, fe)], ?_⟩
    have hasked := h.question hfiles hstdin (srcFile, fe)
    rcases hdone with ⟨-, rfl, -⟩ | ⟨hyes, -, -, found, o, -, hassign, hsame, -⟩
    · exact hasked
    · -- the byte of this question is the one after those of the others
      refine hasked.write hassign hsame fun _ => ⟨questions.length, (srcFile, fe), ?_, hto, ?_⟩
      · rw [List.getElem?_append_right (le_refl _), Nat.sub_self]
        rfl
      · rw [← hanswer hyes, h.read, List.getElem?_drop, Nat.add_zero]

/-- Answers that are lines of one letter: a newline is no `y`. -/
theorem answer_of_lines : ∀ (answers : Bytes) {k : ℕ},
    (answers.flatMap fun c => [c, 10])[k]? = some 121 → ∃ j : ℕ, k = 2 * j ∧ answers[j]? = some 121 := by
  intro answers
  induction answers with
  | nil =>
    intro k h
    exact absurd h (by simp)
  | cons c answers ih =>
    intro k h
    match k with
    | 0 => exact ⟨0, rfl, h⟩
    | 1 => exact absurd (Option.some.inj h) (by decide)
    | k + 2 =>
      obtain ⟨j, rfl, hj⟩ := ih h
      exact ⟨j + 1, by omega, hj⟩

end Questions

/-- **What a restore overwrites.**  The data store and the disk may be any: without
`force`, every entry whose file is already there is asked about in the order of
the entries, and a file that is not as it was has a question that was answered
with a `y`.  The byte after that is the answer to the next question, and so of
answers that are lines of one letter, only every second question gets one. -/
theorem promptDownloadFiles_asks {δ : Type} [DataStore δ] (E : Env) (L : LocalEnv)
    (verify dryRun : Bool) (fuel : ℕ) (snapshotName destDir : Bytes) (srcFiles : List Bytes)
    (progress : FileEntry → FileTransferProgressFunction) (disk : LocalDisk) (s : Session δ) :
    Triple (fun t => t = s)
      (promptDownloadFiles E L ⟨verify, dryRun, false⟩ fuel snapshotName destDir srcFiles progress disk)
      (fun disk' _ => ∃ password stdin snapshot s₁ s₂ questions,
        promptReadPassword false disk.stdin = ok password stdin ∧
        unlockOrThrow E password "Invalid password." s = ok () s₁ ∧
        loadSnapshot E fuel snapshotName DefaultProgressFunction s₁ = ok snapshot s₂ ∧
        Asked L snapshot destDir ⟨verify, dryRun, false⟩ { disk with stdin := stdin } questions
          (enumerated snapshot (if srcFiles = [] then [[]] else srcFiles)) disk' ∧
        ∀ answers : Bytes, stdin = answers.flatMap (fun c => [c, 10]) → ∀ p, disk.files.find? p ≠ none →
          disk'.files.find? p ≠ disk.files.find? p →
          ∃ (j : ℕ) (m : Bytes × FileEntry), questions[2 * j]? = some m ∧ RestoredTo L snapshot destDir m p ∧
            answers[j]? = some 121)
      fun _ _ => True := by
  rintro t rfl
  cases hrun : promptDownloadFiles E L ⟨verify, dryRun, false⟩ fuel snapshotName destDir srcFiles
      progress disk t with
  | error e t' => trivial
  | ok disk' t' =>
    rw [promptDownloadFiles] at hrun
    split at hrun
    · cases hrun
    · cases hprompt : promptReadPassword false disk.stdin with
      | error e stdin =>
        rw [hprompt] at hrun
        cases hrun
      | ok password stdin =>
        rw [hprompt] at hrun
        obtain ⟨snapshot, s₁, s₂, hunlock, hload, questions, hasked⟩ := downloadFiles_keep
          (R := fun snapshot seen disk' => ∃ questions, Asked L snapshot destDir
            ⟨verify, dryRun, false⟩ { disk with stdin := stdin } questions seen disk')
          (fun _ _ => ⟨[], List.Sublist.refl [], rfl, fun _ h => h,
            fun _ m hm => absurd hm List.not_mem_nil, fun _ _ h => absurd rfl h⟩)
          (fun _ _ _ _ _ _ _ _ _ h hentry => by
            obtain ⟨questions, h⟩ := h
            exact h.entry rfl hentry) hrun
        refine ⟨password, stdin, snapshot, s₁, s₂, questions, rfl, hunlock, hload, hasked, ?_⟩
        intro answers hlines p hfile hchanged
        obtain ⟨k, m, hk, hm, hanswer⟩ := hasked.overwritten p hfile hchanged
        change stdin[k]? = some 121 at hanswer
        rw [hlines] at hanswer
        obtain ⟨j, rfl, hj⟩ := answer_of_lines answers hanswer
        exact ⟨j, m, hk, hm, hj⟩

end Nebula
