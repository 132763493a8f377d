/-
Clients that write files into one directory.

A client looks for a name; if there is no file it opens one for writing, which
empties a file that has come to be there in the meantime, and fills it piece by
piece.  It may be cancelled after a piece, and then removes the name, whatever
stands there by then.  Two clients share nothing but the directory: a file
that is open stays the same file when its name is removed, and every writer
has a position of its own.  `W p b` says that `b` is a whole file for the name
`p`.

`Undisturbed` is what keeps the clients out of each other's way: no file is
opened while another client writes it, and none is removed that another client
relies on.  As long as every step is undisturbed, `Inv` holds
(`Inv.step`, `Inv.run`), and when all clients have stopped every name that one
of them relies on is the name of a whole file (`Inv.held_whole`).
`dangling` is a run in which two clients disturb each other, `in_turn` one in
which they do not.
-/
import Mathlib

namespace SharedDirectory

/-! ### The directory -/

/-- A directory: names of files, and the contents of the files by number.  No
two names belong to one file, and all numbers are below the next free one. -/
structure Disk (ν β : Type) where
  names : ν → Option ℕ
  data : ℕ → List β
  fresh : ℕ
  below : ∀ {p n}, names p = some n → n < fresh
  inj : ∀ {p q n}, names p = some n → names q = some n → p = q

/-- A file with `b` written at a position; what lies between its end and the
position is filled up. -/
def splice {β : Type} [Zero β] (old : List β) (pos : ℕ) (b : List β) : List β :=
  (old ++ List.replicate (pos - old.length) 0).take pos ++ b ++ old.drop (pos + b.length)

namespace Disk

variable {ν β : Type} (D : Disk ν β)

/-- The file at a name. -/
def contents (p : ν) : Option (List β) := (D.names p).map D.data

/-- An empty directory. -/
def empty : Disk ν β where
  names _ := none
  data _ := []
  fresh := 0
  below h := by cases h
  inj h := by cases h

theorem contents_of_names {D : Disk ν β} {p : ν} {n : ℕ} (h : D.names p = some n) :
    D.contents p = some (D.data n) := by
  rw [contents, h]
  rfl

theorem contents_eq_none {D : Disk ν β} {p : ν} : D.contents p = none ↔ D.names p = none :=
  Option.map_eq_none_iff

/-- The number of the file that is opened at a name. -/
def inodeFor (p : ν) : ℕ := (D.names p).getD D.fresh

variable {D} in
theorem inodeFor_ne {p q : ν} {n : ℕ} (h : D.names q = some n) (hq : q ≠ p) : D.inodeFor p ≠ n := by
  rintro rfl
  -- a file of another name has another number, and a new file has a new one
  cases hp : D.names p with
  | some m =>
    rw [inodeFor, hp] at h
    exact hq (D.inj h hp)
  | none =>
    rw [inodeFor, hp] at h
    exact absurd (D.below h) (lt_irrefl _)

variable [DecidableEq ν]

/-- Open for writing: a file that is there is emptied. -/
def openWrite (p : ν) : Disk ν β where
  names := Function.update D.names p (some (D.inodeFor p))
  data := Function.update D.data (D.inodeFor p) []
  fresh := max D.fresh (D.inodeFor p + 1)
  below {q n} h := by
    by_cases hq : q = p
    · subst hq
      rw [Function.update_self] at h
      have := Option.some.inj h
      omega
    · rw [Function.update_of_ne hq] at h
      have := D.below h
      omega
  inj {q r n} hq hr := by
    by_cases hqp : q = p
    · subst hqp
      rw [Function.update_self] at hq
      by_cases hrp : r = q
      · exact hrp.symm
      · rw [Function.update_of_ne hrp] at hr
        exact absurd (Option.some.inj hq) (inodeFor_ne hr hrp)
    · rw [Function.update_of_ne hqp] at hq
      by_cases hrp : r = p
      · subst hrp
        rw [Function.update_self] at hr
        exact absurd (Option.some.inj hr) (inodeFor_ne hq hqp)
      · rw [Function.update_of_ne hrp] at hr
        exact D.inj hq hr

/-- Write at a position of a file. -/
def writeAt [Zero β] (n pos : ℕ) (b : List β) : Disk ν β where
  names := D.names
  data := Function.update D.data n (splice (D.data n) pos b)
  fresh := D.fresh
  below := D.below
  inj := D.inj

/-- Remove a name; a file that is open stays. -/
def remove (p : ν) : Disk ν β where
  names := Function.update D.names p none
  data := D.data
  fresh := D.fresh
  below {q n} h := by
    by_cases hq : q = p
    · subst hq
      rw [Function.update_self] at h
      exact absurd h (by simp)
    · rw [Function.update_of_ne hq] at h
      exact D.below h
  inj {q r n} hq hr := by
    by_cases hqp : q = p
    · subst hqp
      rw [Function.update_self] at hq
      exact absurd hq (by simp)
    · by_cases hrp : r = p
      · subst hrp
        rw [Function.update_self] at hr
        exact absurd hr (by simp)
      · rw [Function.update_of_ne hqp] at hq
        rw [Function.update_of_ne hrp] at hr
        exact D.inj hq hr

theorem openWrite_names (p : ν) : (D.openWrite p).names p = some (D.inodeFor p) :=
  Function.update_self _ _ _

theorem openWrite_data (p : ν) : (D.openWrite p).data (D.inodeFor p) = [] :=
  Function.update_self _ _ _

/-- Other files are left alone. -/
theorem openWrite_other {D : Disk ν β} {p q : ν} {n : ℕ} (h : D.names q = some n) (hq : q ≠ p) :
    (D.openWrite p).names q = some n ∧ (D.openWrite p).data n = D.data n :=
  ⟨(Function.update_of_ne hq _ _).trans h, Function.update_of_ne (inodeFor_ne h hq).symm _ _⟩

theorem openWrite_contents (p : ν) :
    (D.openWrite p).contents = Function.update D.contents p (some []) := by
  funext q
  by_cases hq : q = p
  · subst hq
    rw [Function.update_self, contents_of_names (D.openWrite_names q), openWrite_data]
  · rw [Function.update_of_ne hq]
    cases hn : D.names q with
    | none =>
      rw [contents_eq_none.mpr hn, contents_eq_none]
      exact (Function.update_of_ne hq _ _).trans hn
    | some n =>
      obtain ⟨hnames, hdata⟩ := openWrite_other hn hq
      rw [contents_of_names hnames, contents_of_names hn, hdata]

omit [DecidableEq ν] in
/-- A writer at the end of its file appends. -/
theorem writeAt_end [Zero β] (n : ℕ) (b : List β) :
    (D.writeAt n (D.data n).length b).data n = D.data n ++ b := by
  show Function.update D.data n _ n = _
  rw [Function.update_self, splice, Nat.sub_self, List.replicate_zero, List.append_nil,
    List.take_length, List.drop_eq_nil_of_le (by omega), List.append_nil]

theorem writeAt_contents [Zero β] {D : Disk ν β} {p : ν} {n : ℕ} (h : D.names p = some n)
    (b : List β) :
    (D.writeAt n (D.data n).length b).contents = Function.update D.contents p (some (D.data n ++ b)) := by
  funext q
  by_cases hq : q = p
  · subst hq
    rw [Function.update_self, contents_of_names (show (D.writeAt n _ b).names q = some n from h),
      writeAt_end]
  · rw [Function.update_of_ne hq, contents, contents]
    show (D.names q).map _ = _
    cases hn : D.names q with
    | none => rfl
    | some m =>
      have hne : m ≠ n := by
        rintro rfl
        exact hq (D.inj hn h)
      show some (Function.update D.data n _ m) = some (D.data m)
      rw [Function.update_of_ne hne]

theorem remove_contents (p : ν) : (D.remove p).contents = Function.update D.contents p none := by
  funext q
  by_cases hq : q = p
  · subst hq
    rw [Function.update_self, contents_eq_none]
    exact Function.update_self _ _ _
  · rw [Function.update_of_ne hq, contents, contents]
    show (Function.update D.names p none q).map _ = _
    rw [Function.update_of_ne hq]
    rfl

end Disk

/-! ### The clients -/

/-- Where a client is: between two files, after it has found no file, or with
an open file, its position in it and what is still to be written. -/
inductive Phase (ν β : Type)
  | idle
  | absent (p : ν)
  | writing (p : ν) (inode pos : ℕ) (rest : List β)

/-- A client: the names it has found or written since it started anew, and the
names it has published. -/
structure Client (ν β : Type) where
  phase : Phase ν β
  refs : List ν
  committed : List ν

namespace Client

variable {ν β : Type}

/-- A client that has done nothing. -/
def new : Client ν β := ⟨.idle, [], []⟩

/-- The client has the file open. -/
def Writes (cl : Client ν β) (p : ν) : Prop := ∃ n pos rest, cl.phase = .writing p n pos rest

/-- The client has found no file of the name, and does not rely on one yet. -/
def Busy (cl : Client ν β) (p : ν) : Prop := cl.phase = .absent p ∨ cl.Writes p

/-- The client relies on the file. -/
def Relies (cl : Client ν β) (p : ν) : Prop := p ∈ cl.refs ∨ p ∈ cl.committed

theorem not_writes_idle {cl : Client ν β} (h : cl.phase = .idle) (p : ν) : ¬ cl.Writes p := by
  rintro ⟨n, pos, rest, hw⟩
  rw [h] at hw
  cases hw

theorem not_writes_absent {cl : Client ν β} {q : ν} (h : cl.phase = .absent q) (p : ν) :
    ¬ cl.Writes p := by
  rintro ⟨n, pos, rest, hw⟩
  rw [h] at hw
  cases hw

theorem not_busy_idle {cl : Client ν β} (h : cl.phase = .idle) (p : ν) : ¬ cl.Busy p := by
  rintro (hb | hb)
  · rw [h] at hb
    cases hb
  · exact not_writes_idle h p hb

end Client

/-- The directory and the clients. -/
structure Sys (ι ν β : Type) where
  disk : Disk ν β
  client : ι → Client ν β

/-- What a client does. -/
inductive Act
  | exist
  | openWrite
  | write
  | cancel
  | finish
  | commit
  | restart
deriving DecidableEq

section Steps

variable {ι ν β : Type} [DecidableEq ι] [DecidableEq ν] [Zero β]

/-- A client has changed the directory and itself. -/
def Sys.act (s : Sys ι ν β) (c : ι) (D : Disk ν β) (cl : Client ν β) : Sys ι ν β :=
  ⟨D, Function.update s.client c cl⟩

omit [DecidableEq ν] [Zero β] in
@[simp] theorem Sys.act_self (s : Sys ι ν β) (c : ι) (D : Disk ν β) (cl : Client ν β) :
    (s.act c D cl).client c = cl := Function.update_self _ _ _

omit [DecidableEq ν] [Zero β] in
theorem Sys.act_other (s : Sys ι ν β) {c c' : ι} (h : c' ≠ c) (D : Disk ν β) (cl : Client ν β) :
    (s.act c D cl).client c' = s.client c' := Function.update_of_ne h _ _

/-- **The steps of a client**, with pieces of `chunk` bytes.  A file that was
found may still be refused by the caller, and a file may be cancelled after
every piece. -/
inductive Step (W : ν → List β → Prop) (chunk : ℕ) : Sys ι ν β → ι → Act → Sys ι ν β → Prop
  | found {s : Sys ι ν β} {c : ι} {p : ν} (hidle : (s.client c).phase = .idle)
    (h : s.disk.contents p ≠ none) :
    Step W chunk s c .exist (s.act c s.disk { s.client c with refs := p :: (s.client c).refs })
  | refused {s : Sys ι ν β} {c : ι} {p : ν} (hidle : (s.client c).phase = .idle)
    (h : s.disk.contents p ≠ none) : Step W chunk s c .exist s
  | missing {s : Sys ι ν β} {c : ι} {p : ν} (hidle : (s.client c).phase = .idle)
    (h : s.disk.contents p = none) :
    Step W chunk s c .exist (s.act c s.disk { s.client c with phase := .absent p })
  | openWrite {s : Sys ι ν β} {c : ι} {p : ν} {b : List β} (h : (s.client c).phase = .absent p)
    (hb : W p b) :
    Step W chunk s c .openWrite (s.act c (s.disk.openWrite p)
      { s.client c with phase := .writing p (s.disk.inodeFor p) 0 b })
  | write {s : Sys ι ν β} {c : ι} {p : ν} {n pos : ℕ} {rest : List β}
    (h : (s.client c).phase = .writing p n pos rest) (hrest : rest ≠ []) :
    Step W chunk s c .write (s.act c (s.disk.writeAt n pos (rest.take chunk))
      { s.client c with
        phase := .writing p n (pos + (rest.take chunk).length) (rest.drop chunk) })
  | cancel {s : Sys ι ν β} {c : ι} {p : ν} {n pos : ℕ} {rest : List β}
    (h : (s.client c).phase = .writing p n pos rest) (hpos : 0 < pos) :
    Step W chunk s c .cancel (s.act c (s.disk.remove p) { s.client c with phase := .idle })
  | finish {s : Sys ι ν β} {c : ι} {p : ν} {n pos : ℕ}
    (h : (s.client c).phase = .writing p n pos []) :
    Step W chunk s c .finish (s.act c s.disk
      { s.client c with phase := .idle, refs := p :: (s.client c).refs })
  | commit {s : Sys ι ν β} {c : ι} {ids : List ν} (hidle : (s.client c).phase = .idle)
    (hids : ∀ p ∈ ids, p ∈ (s.client c).refs) :
    Step W chunk s c .commit (s.act c s.disk
      { s.client c with committed := ids ++ (s.client c).committed })
  | restart {s : Sys ι ν β} {c : ι} (hidle : (s.client c).phase = .idle) :
    Step W chunk s c .restart (s.act c s.disk { s.client c with refs := [] })

/-- Steps of any clients in any order, each of them allowed by `G`. -/
def Run (W : ν → List β → Prop) (chunk : ℕ) (G : Sys ι ν β → ι → Act → Prop) :
    Sys ι ν β → Sys ι ν β → Prop :=
  Relation.ReflTransGen fun s s' => ∃ c a, G s c a ∧ Step W chunk s c a s'

/-- The step keeps out of the way of the other clients: a file is opened for
writing only while nobody else has it open, and removed only if nobody else
relies on it. -/
def Undisturbed (s : Sys ι ν β) (c : ι) : Act → Prop
  | .openWrite => ∀ p, (s.client c).phase = .absent p → ∀ c' ≠ c, ¬ (s.client c').Writes p
  | .cancel => ∀ p, (s.client c).Writes p → ∀ c' ≠ c, ¬ (s.client c').Relies p
  | _ => True

/-! ### The invariant -/

/-- An open file has its name, holds what was written so far and has one
writer; every other file is whole; what a client relies on is there. -/
structure Inv (W : ν → List β → Prop) (s : Sys ι ν β) : Prop where
  inFlight : ∀ {c p n pos rest}, (s.client c).phase = .writing p n pos rest →
    s.disk.names p = some n ∧ pos = (s.disk.data n).length ∧ W p (s.disk.data n ++ rest)
  single : ∀ {c c' p}, c' ≠ c → (s.client c).Writes p → ¬ (s.client c').Writes p
  whole : ∀ {p b}, s.disk.contents p = some b → (∀ c, ¬ (s.client c).Writes p) → W p b
  held : ∀ {c p}, (s.client c).Relies p → s.disk.contents p ≠ none
  own : ∀ {c p}, (s.client c).Busy p → ¬ (s.client c).Relies p

namespace Inv

variable {W : ν → List β → Prop} {s : Sys ι ν β} {c : ι}

omit [DecidableEq ν] [Zero β] in
/-- A step that does not touch the directory, of a client without an open
file. -/
theorem local_step (h : Inv W s) {cl : Client ν β} (hbefore : ∀ p, ¬ (s.client c).Writes p)
    (hafter : ∀ p, ¬ cl.Writes p) (hheld : ∀ {p}, cl.Relies p → s.disk.contents p ≠ none)
    (hown : ∀ {p}, cl.Busy p → ¬ cl.Relies p) : Inv W (s.act c s.disk cl) where
  inFlight {c' p n pos rest} hw := by
    by_cases hc : c' = c
    · subst hc
      rw [Sys.act_self] at hw
      exact absurd ⟨n, pos, rest, hw⟩ (hafter p)
    · rw [Sys.act_other s hc] at hw
      exact h.inFlight hw
  single {c₁ c₂ p} hne h₁ h₂ := by
    by_cases hc₁ : c₁ = c
    · subst hc₁
      rw [Sys.act_self] at h₁
      exact hafter p h₁
    · by_cases hc₂ : c₂ = c
      · subst hc₂
        rw [Sys.act_self] at h₂
        exact hafter p h₂
      · rw [Sys.act_other s hc₁] at h₁
        rw [Sys.act_other s hc₂] at h₂
        exact h.single hne h₁ h₂
  whole {p b} hb hnone := by
    -- nobody writes the file after the step, and `c` did not write it before
    refine h.whole hb fun c' => ?_
    by_cases hc : c' = c
    · subst hc
      exact hbefore p
    · have := hnone c'
      rwa [Sys.act_other s hc] at this
  held {c' p} hr := by
    by_cases hc : c' = c
    · subst hc
      rw [Sys.act_self] at hr
      exact hheld hr
    · rw [Sys.act_other s hc] at hr
      exact h.held hr
  own {c' p} hb := by
    by_cases hc : c' = c
    · subst hc
      rw [Sys.act_self] at hb ⊢
      exact hown hb
    · rw [Sys.act_other s hc] at hb ⊢
      exact h.own hb

omit [DecidableEq ν] [Zero β] in
/-- A step that touches one file, which no other client has open. -/
theorem file_step (h : Inv W s) {p : ν} {D : Disk ν β} {cl : Client ν β}
    (hfree : ∀ c' ≠ c, ¬ (s.client c').Writes p)
    (hother : ∀ {q n}, q ≠ p → s.disk.names q = some n → D.names q = some n ∧ D.data n = s.disk.data n)
    (hcont : ∀ {q}, q ≠ p → D.contents q = s.disk.contents q)
    (hbefore : ∀ {q}, (s.client c).Writes q → q = p) (hafter : ∀ {q}, cl.Writes q → q = p)
    (hopen : ∀ {n pos rest}, cl.phase = .writing p n pos rest →
      D.names p = some n ∧ pos = (D.data n).length ∧ W p (D.data n ++ rest))
    (hwhole : ∀ {b}, D.contents p = some b → ¬ cl.Writes p → W p b)
    (hheld : ∀ {q}, cl.Relies q → D.contents q ≠ none)
    (hrely : ∀ c' ≠ c, (s.client c').Relies p → D.contents p ≠ none)
    (hown : ∀ {q}, cl.Busy q → ¬ cl.Relies q) : Inv W (s.act c D cl) where
  inFlight {c' q n pos rest} hw := by
    by_cases hc : c' = c
    · subst hc
      rw [Sys.act_self] at hw
      obtain rfl := hafter ⟨n, pos, rest, hw⟩
      exact hopen hw
    · rw [Sys.act_other s hc] at hw
      obtain ⟨hname, hpos, hb⟩ := h.inFlight hw
      -- what another client writes is another file, which the step leaves alone
      have hq : q ≠ p := by
        rintro rfl
        exact hfree c' hc ⟨n, pos, rest, hw⟩
      obtain ⟨hname', hdata'⟩ := hother hq hname
      refine ⟨hname', ?_, ?_⟩
      · show pos = (D.data n).length
        rwa [hdata']
      · show W q (D.data n ++ rest)
        rwa [hdata']
  single {c₁ c₂ q} hne h₁ h₂ := by
    by_cases hc₁ : c₁ = c
    · subst hc₁
      rw [Sys.act_self] at h₁
      rw [Sys.act_other s hne] at h₂
      exact hfree c₂ hne (hafter h₁ ▸ h₂)
    · rw [Sys.act_other s hc₁] at h₁
      by_cases hc₂ : c₂ = c
      · subst hc₂
        rw [Sys.act_self] at h₂
        exact hfree c₁ hc₁ (hafter h₂ ▸ h₁)
      · rw [Sys.act_other s hc₂] at h₂
        exact h.single hne h₁ h₂
  whole {q b} hb hnone := by
    by_cases hq : q = p
    · subst hq
      refine hwhole hb ?_
      have := hnone c
      rwa [Sys.act_self] at this
    · refine h.whole ((hcont hq).symm.trans hb) fun c' => ?_
      by_cases hc : c' = c
      · subst hc
        exact fun hw => hq (hbefore hw)
      · have := hnone c'
        rwa [Sys.act_other s hc] at this
  held {c' q} hr := by
    by_cases hc : c' = c
    · subst hc
      rw [Sys.act_self] at hr
      exact hheld hr
    · rw [Sys.act_other s hc] at hr
      by_cases hq : q = p
      · subst hq
        exact hrely c' hc hr
      · exact (hcont hq).symm ▸ h.held hr
  own {c' q} hb := by
    by_cases hc : c' = c
    · subst hc
      rw [Sys.act_self] at hb ⊢
      exact hown hb
    · rw [Sys.act_other s hc] at hb ⊢
      exact h.own hb

omit [DecidableEq ι] [Zero β] in
/-- A file that is written to is there. -/
theorem update_some_ne_none {f : ν → Option (List β)} {p q : ν} {b : List β} (h : f q ≠ none) :
    Function.update f p (some b) q ≠ none := by
  rw [Function.update_apply]
  split
  · exact Option.some_ne_none _
  · exact h

omit [Zero β] in
/-- A file is opened while nobody else has it open. -/
theorem openWrite_step (h : Inv W s) {p : ν} {b : List β} (hphase : (s.client c).phase = .absent p)
    (hb : W p b) (hfree : ∀ c' ≠ c, ¬ (s.client c').Writes p) :
    Inv W (s.act c (s.disk.openWrite p)
      { s.client c with phase := .writing p (s.disk.inodeFor p) 0 b }) := by
  have hcont := s.disk.openWrite_contents p
  have hthere : ∀ {q}, s.disk.contents q ≠ none → (s.disk.openWrite p).contents q ≠ none :=
    fun hq => hcont ▸ update_some_ne_none hq
  refine h.file_step hfree (fun hq hn => Disk.openWrite_other hn hq) ?_ ?_ ?_ ?_ ?_ ?_ ?_ ?_
  · intro q hq
    rw [hcont, Function.update_of_ne hq]
  · intro q hw
    exact absurd hw (Client.not_writes_absent hphase q)
  · rintro q ⟨n, pos, rest, hw⟩
    exact (Phase.writing.inj hw).1.symm
  · intro n pos rest hw
    obtain ⟨-, rfl, rfl, rfl⟩ := Phase.writing.inj hw
    rw [Disk.openWrite_data]
    exact ⟨s.disk.openWrite_names p, rfl, hb⟩
  · intro b' _ hno
    exact absurd ⟨_, _, _, rfl⟩ hno
  · intro q hr
    exact hthere (h.held (c := c) hr)
  · intro c' _ hr
    exact hthere (h.held hr)
  · rintro q (hbusy | ⟨n, pos, rest, hw⟩)
    · cases hbusy
    · obtain ⟨rfl, -⟩ := Phase.writing.inj hw
      exact h.own (Or.inl hphase)

/-- A piece goes to the end of the file. -/
theorem write_step (h : Inv W s) {p : ν} {n pos : ℕ} {rest : List β}
    (hphase : (s.client c).phase = .writing p n pos rest) (chunk : ℕ) :
    Inv W (s.act c (s.disk.writeAt n pos (rest.take chunk))
      { s.client c with
        phase := .writing p n (pos + (rest.take chunk).length) (rest.drop chunk) }) := by
  -- the position is the end of the file, so the piece is appended
  obtain ⟨hname, rfl, hwhole⟩ := h.inFlight hphase
  have hwrites : (s.client c).Writes p := ⟨_, _, _, hphase⟩
  have hend := s.disk.writeAt_end n (rest.take chunk)
  have hcont := Disk.writeAt_contents hname (rest.take chunk)
  have hthere : ∀ {q}, s.disk.contents q ≠ none →
      (s.disk.writeAt n (s.disk.data n).length (rest.take chunk)).contents q ≠ none :=
    fun hq => hcont ▸ update_some_ne_none hq
  refine h.file_step (fun c' hc hw => h.single hc hwrites hw) ?_ ?_ ?_ ?_ ?_ ?_ ?_ ?_ ?_
  · intro q m hq hm
    have hne : m ≠ n := by
      rintro rfl
      exact hq (s.disk.inj hm hname)
    exact ⟨hm, Function.update_of_ne hne _ _⟩
  · intro q hq
    rw [hcont, Function.update_of_ne hq]
  · rintro q ⟨n', pos', rest', hw⟩
    rw [hphase] at hw
    exact (Phase.writing.inj hw).1.symm
  · rintro q ⟨n', pos', rest', hw⟩
    exact (Phase.writing.inj hw).1.symm
  · intro n' pos' rest' hw
    obtain ⟨-, rfl, rfl, rfl⟩ := Phase.writing.inj hw
    refine ⟨hname, ?_, ?_⟩
    · rw [hend, List.length_append]
    · rw [hend, List.append_assoc, List.take_append_drop]
      exact hwhole
  · intro b _ hno
    exact absurd ⟨_, _, _, rfl⟩ hno
  · intro q hr
    exact hthere (h.held (c := c) hr)
  · intro c' _ hr
    exact hthere (h.held hr)
  · rintro q (hbusy | ⟨n', pos', rest', hw⟩)
    · cases hbusy
    · obtain ⟨rfl, -⟩ := Phase.writing.inj hw
      exact h.own (Or.inr hwrites)

omit [Zero β] in
/-- A file is removed that nobody else relies on. -/
theorem cancel_step (h : Inv W s) {p : ν} (hwrites : (s.client c).Writes p)
    (hrely : ∀ c' ≠ c, ¬ (s.client c').Relies p) :
    Inv W (s.act c (s.disk.remove p) { s.client c with phase := .idle }) := by
  have hcont := s.disk.remove_contents p
  refine h.file_step (fun c' hc hw => h.single hc hwrites hw) ?_ ?_ ?_ ?_ ?_ ?_ ?_ ?_ ?_
  · intro q m hq hm
    exact ⟨(Function.update_of_ne hq _ _).trans hm, rfl⟩
  · intro q hq
    rw [hcont, Function.update_of_ne hq]
  · rintro q ⟨n', pos', rest', hw⟩
    obtain ⟨n, pos, rest, hphase⟩ := hwrites
    rw [hphase] at hw
    exact (Phase.writing.inj hw).1.symm
  · intro q hw
    exact absurd hw (Client.not_writes_idle rfl q)
  · intro n pos rest hw
    cases hw
  · intro b hb _
    rw [hcont, Function.update_self] at hb
    exact absurd hb (by simp)
  · intro q hr
    -- the client itself does not rely on what it is still writing
    have hq : q ≠ p := by
      rintro rfl
      exact h.own (Or.inr hwrites) hr
    rw [hcont, Function.update_of_ne hq]
    exact h.held (c := c) hr
  · intro c' hc hr
    exact absurd hr (hrely c' hc)
  · intro q hbusy
    exact absurd hbusy (Client.not_busy_idle rfl q)

omit [DecidableEq ν] [Zero β] in
/-- A file that is finished is whole. -/
theorem finish_step (h : Inv W s) {p : ν} {n pos : ℕ}
    (hphase : (s.client c).phase = .writing p n pos []) :
    Inv W (s.act c s.disk { s.client c with phase := .idle, refs := p :: (s.client c).refs }) := by
  obtain ⟨hname, -, hwhole⟩ := h.inFlight hphase
  have hwrites : (s.client c).Writes p := ⟨_, _, _, hphase⟩
  have hcont := Disk.contents_of_names hname
  refine h.file_step (fun c' hc hw => h.single hc hwrites hw) (fun _ hm => ⟨hm, rfl⟩)
    (fun _ => rfl) ?_ ?_ ?_ ?_ ?_ ?_ ?_
  · rintro q ⟨n', pos', rest', hw⟩
    rw [hphase] at hw
    exact (Phase.writing.inj hw).1.symm
  · intro q hw
    exact absurd hw (Client.not_writes_idle rfl q)
  · intro n pos rest hw
    cases hw
  · intro b hb _
    -- nothing is left to write: the file is the whole object
    rw [hcont] at hb
    rwa [List.append_nil, Option.some.inj hb] at hwhole
  · rintro q (hr | hr)
    · rcases List.mem_cons.mp hr with rfl | hr
      · rw [hcont]
        exact Option.some_ne_none _
      · exact h.held (c := c) (Or.inl hr)
    · exact h.held (c := c) (Or.inr hr)
  · intro c' _ hr
    exact h.held hr
  · intro q hbusy
    exact absurd hbusy (Client.not_busy_idle rfl q)

/-- **Every step that is undisturbed keeps the invariant.** -/
theorem step (h : Inv W s) {chunk : ℕ} {a : Act} {s' : Sys ι ν β} (hstep : Step W chunk s c a s')
    (hundisturbed : Undisturbed s c a) : Inv W s' := by
  cases hstep with
  | @found p hidle hthere =>
    refine h.local_step (Client.not_writes_idle hidle) (Client.not_writes_idle hidle) ?_
      fun hbusy => absurd hbusy (Client.not_busy_idle hidle _)
    rintro q (hr | hr)
    · rcases List.mem_cons.mp hr with rfl | hr
      · exact hthere
      · exact h.held (c := c) (Or.inl hr)
    · exact h.held (c := c) (Or.inr hr)
  | refused _ _ => exact h
  | @missing p hidle hnone =>
    refine h.local_step (Client.not_writes_idle hidle) (Client.not_writes_absent rfl)
      (fun hr => h.held (c := c) hr) ?_
    rintro q (hbusy | hbusy) hr
    · -- a file the client relied on would have been found
      obtain rfl := Phase.absent.inj hbusy
      exact h.held (c := c) hr hnone
    · exact Client.not_writes_absent rfl q hbusy
  | openWrite hphase hb => exact h.openWrite_step hphase hb (hundisturbed _ hphase)
  | write hphase hrest => exact h.write_step hphase chunk
  | cancel hphase hpos =>
    exact h.cancel_step ⟨_, _, _, hphase⟩ (hundisturbed _ ⟨_, _, _, hphase⟩)
  | finish hphase => exact h.finish_step hphase
  | @commit ids hidle hids =>
    refine h.local_step (Client.not_writes_idle hidle) (Client.not_writes_idle hidle) ?_
      fun hbusy => absurd hbusy (Client.not_busy_idle hidle _)
    rintro q (hr | hr)
    · exact h.held (c := c) (Or.inl hr)
    · rcases List.mem_append.mp hr with hr | hr
      · exact h.held (c := c) (Or.inl (hids q hr))
      · exact h.held (c := c) (Or.inr hr)
  | restart hidle =>
    refine h.local_step (Client.not_writes_idle hidle) (Client.not_writes_idle hidle) ?_
      fun hbusy => absurd hbusy (Client.not_busy_idle hidle _)
    rintro q (hr | hr)
    · cases hr
    · exact h.held (c := c) (Or.inr hr)

/-- **Every run of undisturbed steps keeps the invariant**, in any order. -/
theorem run {chunk : ℕ} {s' : Sys ι ν β} (hrun : Run W chunk Undisturbed s s') (h : Inv W s) :
    Inv W s' := by
  induction hrun with
  | refl => exact h
  | tail _ hlast ih =>
    obtain ⟨c, a, hundisturbed, hstep⟩ := hlast
    exact ih.step hstep hundisturbed

omit [DecidableEq ι] [DecidableEq ν] [Zero β] in
/-- When all clients have stopped, what one of them relies on is whole. -/
theorem held_whole (h : Inv W s) (hstopped : ∀ c, (s.client c).phase = .idle) {p : ν}
    (hr : (s.client c).Relies p) : ∃ b, s.disk.contents p = some b ∧ W p b := by
  obtain ⟨b, hb⟩ := Option.ne_none_iff_exists'.mp (h.held hr)
  exact ⟨b, hb, h.whole hb fun c => Client.not_writes_idle (hstopped c) p⟩

omit [DecidableEq ι] [DecidableEq ν] [Zero β] in
/-- Clients that have done nothing yet, in a directory of whole files. -/
theorem start {D : Disk ν β} (hD : ∀ p b, D.contents p = some b → W p b) :
    Inv W (⟨D, fun _ => .new⟩ : Sys ι ν β) where
  inFlight hw := by cases hw
  single _ hw := absurd hw (Client.not_writes_idle rfl _)
  whole hb _ := hD _ _ hb
  held hr := by rcases hr with hr | hr <;> cases hr
  own hbusy := absurd hbusy (Client.not_busy_idle rfl _)

end Inv

/-! ### One client alone -/

/-- All steps are those of one client. -/
def Alone (c : ι) : Sys ι ν β → ι → Act → Prop := fun _ c' _ => c' = c

variable {W : ν → List β → Prop} {chunk : ℕ} {s : Sys ι ν β} {c : ι}

omit [DecidableEq ν] [Zero β] in
@[simp] theorem Sys.act_act (D D' : Disk ν β) (cl cl' : Client ν β) :
    (s.act c D cl).act c D' cl' = s.act c D' cl' := by
  rw [Sys.act, Sys.act, Sys.act, Function.update_idem]

omit [DecidableEq ν] [Zero β] in
theorem Sys.act_eq (s : Sys ι ν β) (c : ι) : s.act c s.disk (s.client c) = s := by
  rw [Sys.act, Function.update_eq_self]

/-! The steps of a client of which it is known what it is. -/

namespace Step

variable {p : ν} {n pos : ℕ} {b rest : List β} {refs committed : List ν}

theorem missing_of (h : s.client c = ⟨.idle, refs, committed⟩) (hnone : s.disk.contents p = none) :
    Step W chunk s c .exist (s.act c s.disk ⟨.absent p, refs, committed⟩) := by
  have hstep : Step W chunk s c .exist _ := .missing (by rw [h]) hnone
  rwa [h] at hstep

theorem found_of (h : s.client c = ⟨.idle, refs, committed⟩) (hthere : s.disk.contents p ≠ none) :
    Step W chunk s c .exist (s.act c s.disk ⟨.idle, p :: refs, committed⟩) := by
  have hstep : Step W chunk s c .exist _ := .found (by rw [h]) hthere
  rwa [h] at hstep

theorem openWrite_of (h : s.client c = ⟨.absent p, refs, committed⟩) (hb : W p b) :
    Step W chunk s c .openWrite
      (s.act c (s.disk.openWrite p) ⟨.writing p (s.disk.inodeFor p) 0 b, refs, committed⟩) := by
  have hstep : Step W chunk s c .openWrite _ := .openWrite (by rw [h]) hb
  rwa [h] at hstep

theorem write_of (h : s.client c = ⟨.writing p n pos rest, refs, committed⟩) (hrest : rest ≠ []) :
    Step W chunk s c .write (s.act c (s.disk.writeAt n pos (rest.take chunk))
      ⟨.writing p n (pos + (rest.take chunk).length) (rest.drop chunk), refs, committed⟩) := by
  have hstep : Step W chunk s c .write _ := .write (by rw [h]) hrest
  rwa [h] at hstep

theorem cancel_of (h : s.client c = ⟨.writing p n pos rest, refs, committed⟩) (hpos : 0 < pos) :
    Step W chunk s c .cancel (s.act c (s.disk.remove p) ⟨.idle, refs, committed⟩) := by
  have hstep : Step W chunk s c .cancel _ := .cancel (by rw [h]) hpos
  rwa [h] at hstep

theorem finish_of (h : s.client c = ⟨.writing p n pos [], refs, committed⟩) :
    Step W chunk s c .finish (s.act c s.disk ⟨.idle, p :: refs, committed⟩) := by
  have hstep : Step W chunk s c .finish _ := .finish (by rw [h])
  rwa [h] at hstep

/-- Everything that the client relies on is published. -/
theorem commit_of (h : s.client c = ⟨.idle, refs, committed⟩) :
    Step W chunk s c .commit (s.act c s.disk ⟨.idle, refs, refs ++ committed⟩) := by
  have hids : ∀ q ∈ refs, q ∈ (s.client c).refs := by
    rw [h]
    exact fun _ hq => hq
  have hstep : Step W chunk s c .commit _ := .commit (by rw [h]) hids
  rwa [h] at hstep

end Step

/-- The pieces of a file, one after the other. -/
theorem alone_writes (hchunk : 0 < chunk) (cl : Client ν β) (p : ν) : ∀ (k : ℕ) {D : Disk ν β} {n : ℕ}
    {rest : List β}, rest.length ≤ k → D.names p = some n →
    ∃ D', Run W chunk (Alone c)
        (s.act c D { cl with phase := .writing p n (D.data n).length rest })
        (s.act c D' { cl with phase := .writing p n (D'.data n).length [] }) ∧
      D'.contents = Function.update D.contents p (some (D.data n ++ rest)) := by
  intro k
  induction k with
  | zero =>
    intro D n rest hk hname
    obtain rfl := List.length_eq_zero_iff.mp (Nat.le_zero.mp hk)
    refine ⟨D, .refl, ?_⟩
    rw [List.append_nil, ← Disk.contents_of_names hname, Function.update_eq_self]
  | succ k ih =>
    intro D n rest hk hname
    by_cases hrest : rest = []
    · subst hrest
      refine ⟨D, .refl, ?_⟩
      rw [List.append_nil, ← Disk.contents_of_names hname, Function.update_eq_self]
    · have hlen : (rest.drop chunk).length ≤ k := by
        have := List.length_pos_iff.mpr hrest
        rw [List.length_drop]
        omega
      -- one piece, and the hypothesis for the pieces after it
      have hend := D.writeAt_end n (rest.take chunk)
      have hstep : Step W chunk (s.act c D { cl with phase := .writing p n (D.data n).length rest }) c
          .write (s.act c (D.writeAt n (D.data n).length (rest.take chunk))
            { cl with
              phase := .writing p n
                ((D.writeAt n (D.data n).length (rest.take chunk)).data n).length
                (rest.drop chunk) }) := by
        have hwrite : Step W chunk
            (s.act c D { cl with phase := .writing p n (D.data n).length rest }) c .write _ :=
          .write_of (Sys.act_self _ _ _ _) hrest
        rw [Sys.act_act] at hwrite
        rw [hend, List.length_append]
        exact hwrite
      obtain ⟨D', hrun, hcont⟩ := ih hlen
        (show (D.writeAt n (D.data n).length (rest.take chunk)).names p = some n from hname)
      refine ⟨D', .head ⟨c, .write, rfl, hstep⟩ hrun, ?_⟩
      rw [hcont, Disk.writeAt_contents hname, Function.update_idem, hend, List.append_assoc,
        List.take_append_drop]

/-- The first steps of an upload: there is no file, and one is opened. -/
theorem alone_open (hidle : (s.client c).phase = .idle) {p : ν} (hnone : s.disk.contents p = none)
    {b : List β} (hb : W p b) :
    Run W chunk (Alone c) s (s.act c (s.disk.openWrite p) { s.client c with
      phase := .writing p (s.disk.inodeFor p)
        ((s.disk.openWrite p).data (s.disk.inodeFor p)).length b }) := by
  refine .tail (.single ⟨c, .exist, rfl, .missing hidle hnone⟩) ⟨c, .openWrite, rfl, ?_⟩
  have hopen : Step W chunk (s.act c s.disk { s.client c with phase := .absent p }) c
      .openWrite _ := .openWrite_of (Sys.act_self _ _ _ _) hb
  rw [Sys.act_act] at hopen
  rw [Disk.openWrite_data]
  exact hopen

/-- **An upload that is not cancelled** leaves the whole file. -/
theorem alone_put (hchunk : 0 < chunk) (hidle : (s.client c).phase = .idle) {p : ν}
    (hnone : s.disk.contents p = none) {b : List β} (hb : W p b) :
    ∃ D, Run W chunk (Alone c) s (s.act c D { s.client c with refs := p :: (s.client c).refs }) ∧
      D.contents = Function.update s.disk.contents p (some b) := by
  -- looking, opening and all pieces; the last step is `finish`
  obtain ⟨D, hrun, hcont⟩ := alone_writes (W := W) (s := s) (c := c) hchunk (s.client c) p b.length
    (le_refl _) (s.disk.openWrite_names p)
  refine ⟨D, ((alone_open hidle hnone hb).trans hrun).tail ⟨c, .finish, rfl, ?_⟩, ?_⟩
  · have hfinish : Step W chunk (s.act c D { s.client c with
        phase := .writing p (s.disk.inodeFor p) (D.data (s.disk.inodeFor p)).length [] }) c
        .finish _ := .finish_of (Sys.act_self _ _ _ _)
    rw [Sys.act_act] at hfinish
    have hcl : ({ s.client c with phase := .idle, refs := p :: (s.client c).refs } : Client ν β) =
        { s.client c with refs := p :: (s.client c).refs } := by rw [← hidle]
    rw [← hcl]
    exact hfinish
  · rw [hcont, Disk.openWrite_contents, Function.update_idem, Disk.openWrite_data, List.nil_append]

/-- **An upload that is cancelled** after its first piece leaves no file. -/
theorem alone_cancelled (hchunk : 0 < chunk) (hidle : (s.client c).phase = .idle) {p : ν}
    (hnone : s.disk.contents p = none) {b : List β} (hb : W p b) (hne : b ≠ []) :
    ∃ D, Run W chunk (Alone c) s (s.act c D (s.client c)) ∧
      D.contents = Function.update s.disk.contents p none := by
  have hname := s.disk.openWrite_names p
  have hlen : 0 < (b.take chunk).length := by
    have := List.length_pos_iff.mpr hne
    rw [List.length_take]
    omega
  refine ⟨((s.disk.openWrite p).writeAt (s.disk.inodeFor p)
    ((s.disk.openWrite p).data (s.disk.inodeFor p)).length (b.take chunk)).remove p,
    ((alone_open hidle hnone hb).tail ⟨c, .write, rfl, .write (by rw [Sys.act_self]) hne⟩).tail
      ⟨c, .cancel, rfl, ?_⟩, ?_⟩
  · rw [Sys.act_act, Sys.act_self]
    have hcancel : Step W chunk (s.act c ((s.disk.openWrite p).writeAt (s.disk.inodeFor p)
        ((s.disk.openWrite p).data (s.disk.inodeFor p)).length (b.take chunk))
        { s.client c with
          phase := .writing p (s.disk.inodeFor p)
            (((s.disk.openWrite p).data (s.disk.inodeFor p)).length + (b.take chunk).length)
            (b.drop chunk) }) c .cancel _ := .cancel_of (Sys.act_self _ _ _ _) (by omega)
    rw [Sys.act_act] at hcancel
    have hcl : ({ s.client c with phase := .idle } : Client ν β) = s.client c := by rw [← hidle]
    rw [hcl] at hcancel
    exact hcancel
  · rw [Disk.remove_contents, Disk.writeAt_contents hname, Disk.openWrite_contents,
      Function.update_idem, Function.update_idem]

/-! ### Two clients that disturb each other -/

/-- **A name without a file.**  The client `c` opens a file and writes its first
piece; the client `c'` finds the file, relies on it and publishes its name; then
`c` is cancelled. -/
theorem dangling (hchunk : 0 < chunk) {c c' : ι} (hne : c' ≠ c) {p : ν} {b : List β} (hb : W p b)
    (hbne : b ≠ []) :
    ∃ s : Sys ι ν β, Run W chunk (fun _ _ _ => True) ⟨.empty, fun _ => .new⟩ s ∧
      (∀ i, (s.client i).phase = .idle) ∧ p ∈ (s.client c').committed ∧ s.disk.contents p = none := by
  have hlen : 0 < (b.take chunk).length := by
    have := List.length_pos_iff.mpr hbne
    rw [List.length_take]
    omega
  -- the states in the order in which they are reached
  let s₀ : Sys ι ν β := ⟨.empty, fun _ => .new⟩
  let s₁ := s₀.act c s₀.disk { s₀.client c with phase := .absent p }
  let s₂ := s₁.act c (s₁.disk.openWrite p)
    { s₁.client c with phase := .writing p (s₁.disk.inodeFor p) 0 b }
  let s₃ := s₂.act c' s₂.disk { s₂.client c' with refs := p :: (s₂.client c').refs }
  let s₄ := s₃.act c' s₃.disk { s₃.client c' with committed := [p] ++ (s₃.client c').committed }
  let s₅ := s₄.act c (s₄.disk.writeAt (s₁.disk.inodeFor p) 0 (b.take chunk))
    { s₄.client c with
      phase := .writing p (s₁.disk.inodeFor p) (0 + (b.take chunk).length) (b.drop chunk) }
  let s₆ := s₅.act c (s₅.disk.remove p) { s₅.client c with phase := .idle }
  have h₁ : Step W chunk s₀ c .exist s₁ := .missing rfl rfl
  have h₂ : Step W chunk s₁ c .openWrite s₂ := .openWrite (by rw [Sys.act_self]) hb
  have hidle : (s₂.client c').phase = .idle := by
    rw [Sys.act_other _ hne, Sys.act_other _ hne]
    rfl
  have h₃ : Step W chunk s₂ c' .exist s₃ := by
    refine .found hidle ?_
    show (s₁.disk.openWrite p).contents p ≠ none
    rw [Disk.openWrite_contents, Function.update_self]
    exact Option.some_ne_none _
  have h₄ : Step W chunk s₃ c' .commit s₄ := by
    refine .commit ?_ ?_
    · rw [Sys.act_self]
      exact hidle
    · intro q hq
      rw [List.mem_singleton] at hq
      rw [Sys.act_self, hq]
      exact List.mem_cons_self
  have h₅ : Step W chunk s₄ c .write s₅ := by
    refine .write ?_ hbne
    rw [Sys.act_other _ hne.symm, Sys.act_other _ hne.symm, Sys.act_self]
  have hphase : (s₅.client c).phase =
      .writing p (s₁.disk.inodeFor p) (0 + (b.take chunk).length) (b.drop chunk) := by
    rw [Sys.act_self]
  have h₆ : Step W chunk s₅ c .cancel s₆ := .cancel hphase (by omega)
  refine ⟨s₆, .tail (.tail (.tail (.tail (.tail (.single ⟨c, _, trivial, h₁⟩) ⟨c, _, trivial, h₂⟩)
    ⟨c', _, trivial, h₃⟩) ⟨c', _, trivial, h₄⟩) ⟨c, _, trivial, h₅⟩) ⟨c, _, trivial, h₆⟩, ?_, ?_, ?_⟩
  · intro i
    by_cases hi : i = c
    · rw [hi, Sys.act_self]
    · rw [Sys.act_other _ hi, Sys.act_other _ hi]
      by_cases hi' : i = c'
      · rw [hi', Sys.act_self, Sys.act_self]
        exact hidle
      · rw [Sys.act_other _ hi', Sys.act_other _ hi', Sys.act_other _ hi, Sys.act_other _ hi]
        rfl
  · rw [Sys.act_other _ hne, Sys.act_other _ hne, Sys.act_self]
    exact List.mem_cons_self
  · show (s₅.disk.remove p).contents p = none
    rw [Disk.remove_contents, Function.update_self]

/-! ### Two clients that do not -/

/-- What two clients are while all others have done nothing. -/
structure Two (s : Sys ι ν β) (c c' : ι) (x y : Client ν β) : Prop where
  first : s.client c = x
  second : s.client c' = y
  others : ∀ i, i ≠ c → i ≠ c' → s.client i = .new

namespace Two

variable {c' : ι} {x y : Client ν β}

omit [DecidableEq ι] [DecidableEq ν] [Zero β] in
theorem symm (h : Two s c c' x y) : Two s c' c y x :=
  ⟨h.second, h.first, fun i hi hi' => h.others i hi' hi⟩

omit [DecidableEq ν] [Zero β] in
theorem act (h : Two s c c' x y) (hne : c' ≠ c) (D : Disk ν β) (x' : Client ν β) :
    Two (s.act c D x') c c' x' y where
  first := Sys.act_self _ _ _ _
  second := (Sys.act_other _ hne _ _).trans h.second
  others i hi hi' := (Sys.act_other _ hi _ _).trans (h.others i hi hi')

omit [DecidableEq ι] [DecidableEq ν] [Zero β] in
/-- What neither of the two does, nobody does. -/
theorem not_of_new (h : Two s c c' x y) {P : Client ν β → Prop} (hy : ¬ P y) (hnew : ¬ P .new) :
    ∀ i ≠ c, ¬ P (s.client i) := by
  intro i hi
  by_cases hi' : i = c'
  · rwa [hi', h.second]
  · rwa [h.others i hi hi']

omit [DecidableEq ν] [DecidableEq ι] [Zero β] in
theorem undisturbed_open (h : Two s c c' x y) (hy : ∀ p, x.phase = .absent p → ¬ y.Writes p) :
    Undisturbed s c .openWrite := by
  intro p hp
  rw [h.first] at hp
  exact h.not_of_new (P := fun cl => cl.Writes p) (hy p hp) (Client.not_writes_idle rfl p)

omit [DecidableEq ν] [DecidableEq ι] [Zero β] in
theorem undisturbed_cancel (h : Two s c c' x y) (hy : ∀ p, x.Writes p → ¬ y.Relies p) :
    Undisturbed s c .cancel := by
  intro p hp
  rw [h.first] at hp
  refine h.not_of_new (P := fun cl => cl.Relies p) (hy p hp) ?_
  rintro (hr | hr) <;> cases hr

end Two

/-- **Two clients in turn.**  Both write, `c` the file `p` and `c'` the file `q`;
`c` finishes and `c'` is cancelled, finds `p` instead, and both publish it. -/
theorem in_turn {c c' : ι} (hne : c' ≠ c) {p q : ν} (hpq : q ≠ p) {b b' : List β} (hb : W p b)
    (hb' : W q b') (hbne : b ≠ []) (hbne' : b' ≠ []) (hlen : b.length ≤ chunk) :
    ∃ s : Sys ι ν β, Run W chunk Undisturbed ⟨.empty, fun _ => .new⟩ s ∧
      (∀ i, (s.client i).phase = .idle) ∧ p ∈ (s.client c).committed ∧
      p ∈ (s.client c').committed := by
  have hpos : 0 < (b'.take chunk).length := by
    have := List.length_pos_iff.mpr hbne
    have := List.length_pos_iff.mpr hbne'
    rw [List.length_take]
    omega
  -- the states in the order in which they are reached
  let s₀ : Sys ι ν β := ⟨.empty, fun _ => .new⟩
  have h₀ : Two s₀ c c' .new .new := ⟨rfl, rfl, fun _ _ _ => rfl⟩
  let s₁ := s₀.act c s₀.disk ⟨.absent p, [], []⟩
  have h₁ : Two s₁ c c' _ _ := h₀.act hne _ _
  let s₂ := s₁.act c' s₁.disk ⟨.absent q, [], []⟩
  have h₂ : Two s₂ c' c _ _ := h₁.symm.act hne.symm _ _
  let s₃ := s₂.act c (s₂.disk.openWrite p) ⟨.writing p (s₂.disk.inodeFor p) 0 b, [], []⟩
  have h₃ : Two s₃ c c' _ _ := h₂.symm.act hne _ _
  let s₄ := s₃.act c' (s₃.disk.openWrite q) ⟨.writing q (s₃.disk.inodeFor q) 0 b', [], []⟩
  have h₄ : Two s₄ c' c _ _ := h₃.symm.act hne.symm _ _
  let s₅ := s₄.act c (s₄.disk.writeAt (s₂.disk.inodeFor p) 0 (b.take chunk))
    ⟨.writing p (s₂.disk.inodeFor p) (0 + (b.take chunk).length) (b.drop chunk), [], []⟩
  have h₅ : Two s₅ c c' _ _ := h₄.symm.act hne _ _
  let s₆ := s₅.act c' (s₅.disk.writeAt (s₃.disk.inodeFor q) 0 (b'.take chunk))
    ⟨.writing q (s₃.disk.inodeFor q) (0 + (b'.take chunk).length) (b'.drop chunk), [], []⟩
  have h₆ : Two s₆ c' c _ _ := h₅.symm.act hne.symm _ _
  let s₇ := s₆.act c s₆.disk ⟨.idle, [p], []⟩
  have h₇ : Two s₇ c c' _ _ := h₆.symm.act hne _ _
  let s₈ := s₇.act c' (s₇.disk.remove q) ⟨.idle, [], []⟩
  have h₈ : Two s₈ c' c _ _ := h₇.symm.act hne.symm _ _
  let s₉ := s₈.act c' s₈.disk ⟨.idle, [p], []⟩
  have h₉ : Two s₉ c' c _ _ := h₈.act hne.symm _ _
  let s₁₀ := s₉.act c s₉.disk ⟨.idle, [p], [p]⟩
  have h₁₀ : Two s₁₀ c c' _ _ := h₉.symm.act hne _ _
  let s₁₁ := s₁₀.act c' s₁₀.disk ⟨.idle, [p], [p]⟩
  have h₁₁ : Two s₁₁ c' c _ _ := h₁₀.symm.act hne.symm _ _
  have hstep₁ : Step W chunk s₀ c .exist s₁ := .missing_of rfl rfl
  have hstep₂ : Step W chunk s₁ c' .exist s₂ := .missing_of h₁.second rfl
  have hstep₃ : Step W chunk s₂ c .openWrite s₃ := .openWrite_of h₂.second hb
  have hstep₄ : Step W chunk s₃ c' .openWrite s₄ := .openWrite_of h₃.second hb'
  have hstep₅ : Step W chunk s₄ c .write s₅ := .write_of h₄.second hbne
  have hstep₆ : Step W chunk s₅ c' .write s₆ := .write_of h₅.second hbne'
  have hstep₇ : Step W chunk s₆ c .finish s₇ := by
    -- one piece was all of it
    have hlast := h₆.second
    rw [List.drop_eq_nil_of_le hlen] at hlast
    exact .finish_of hlast
  have hstep₈ : Step W chunk s₇ c' .cancel s₈ := .cancel_of h₇.second (by omega)
  have hrun : Run W chunk Undisturbed s₀ s₈ := by
    refine .tail (.tail (.tail (.tail (.tail (.tail (.tail (.single ⟨c, .exist, trivial, hstep₁⟩)
      ⟨c', .exist, trivial, hstep₂⟩) ⟨c, _, h₂.symm.undisturbed_open ?_, hstep₃⟩)
      ⟨c', _, h₃.symm.undisturbed_open ?_, hstep₄⟩) ⟨c, .write, trivial, hstep₅⟩)
      ⟨c', .write, trivial, hstep₆⟩) ⟨c, .finish, trivial, hstep₇⟩)
      ⟨c', _, h₇.symm.undisturbed_cancel ?_, hstep₈⟩
    · intro r _
      exact Client.not_writes_absent rfl r
    · rintro r hr ⟨n, pos, rest, hw⟩
      rw [Phase.absent.inj hr] at hpq
      exact hpq (Phase.writing.inj hw).1.symm
    · rintro r ⟨n, pos, rest, hw⟩ (hr | hr)
      · rw [(Phase.writing.inj hw).1, List.mem_singleton.mp hr] at hpq
        exact hpq rfl
      · cases hr
  have hthere : s₈.disk.contents p ≠ none := by
    refine ((Inv.start fun _ _ h => by cases h).run hrun).held (c := c) (Or.inl ?_)
    rw [h₈.second]
    exact List.mem_singleton_self p
  have hstep₉ : Step W chunk s₈ c' .exist s₉ := .found_of h₈.first hthere
  have hstep₁₀ : Step W chunk s₉ c .commit s₁₀ := .commit_of h₉.second
  have hstep₁₁ : Step W chunk s₁₀ c' .commit s₁₁ := .commit_of h₁₀.second
  refine ⟨s₁₁, ((hrun.tail ⟨c', .exist, trivial, hstep₉⟩).tail ⟨c, .commit, trivial, hstep₁₀⟩).tail
    ⟨c', .commit, trivial, hstep₁₁⟩, fun i => ?_, ?_, ?_⟩
  · by_cases hi : i = c'
    · rw [hi, h₁₁.first]
    · by_cases hi' : i = c
      · rw [hi', h₁₁.second]
      · rw [h₁₁.others i hi hi']
        rfl
  · rw [h₁₁.second]
    exact List.mem_singleton_self p
  · rw [h₁₁.first]
    exact List.mem_singleton_self p

end Steps

end SharedDirectory
