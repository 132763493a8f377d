/-
`Snapshot::forEachFileEntry(subpath, callback)`: the entries below a path.

The loop starts at the first key that is not below the search path in the
order of the bytes and stops at the first key that does not match.  The keys
below `q/` are contiguous in that order and so are the keys that begin with
`q`, but between `q` itself and `q/...` there is room for every sibling whose
name continues with a byte smaller than the separator (`q-old`, `q.txt`,
`q copy`).  Main results:

* `load_keyed` — a loaded snapshot files every entry under the path that the
  loop puts together from its parent and name;
* `forEachFileEntryIn_eq` — the loop is a run of the callback over a prefix of
  the keys from the search path on;
* `forEachFileEntryIn_iff` — which snapshots and subpaths are enumerated
  completely.
-/
import NebulaBackup.SnapshotFormat
import NebulaBackup.Hoare

namespace Nebula

open EStateM.Result
open Nebula.Path
open Hoare

/-! ### The order of byte strings -/

section Lex

variable {α : Type*} [LinearOrder α]

/-- What lies between `q` and an extension of `q` extends `q`. -/
theorem isPrefix_of_le_of_lt_append : ∀ {q p y : List α}, q ≤ p → p < q ++ y → q <+: p := by
  intro q
  induction q with
  | nil =>
    intro p y _ _
    exact List.nil_prefix
  | cons u q ih =>
    intro p y hle hlt
    cases p with
    | nil => exact absurd hle (by simp)
    | cons v p =>
      have hge := not_lt.mpr hle
      rw [List.cons_lt_cons_iff, not_or] at hge
      rw [List.cons_append, List.cons_lt_cons_iff] at hlt
      rcases hlt with hvu | ⟨hvu, hlt⟩
      · exact absurd hvu hge.1
      · have hle' : q ≤ p := not_lt.mp fun hpq => hge.2 ⟨hvu, hpq⟩
        exact List.cons_prefix_cons.mpr ⟨hvu.symm, ih hle' hlt⟩

theorem append_lt_append_left_iff {t z : List α} : ∀ {q : List α}, q ++ t < q ++ z ↔ t < z := by
  intro q
  induction q with
  | nil => rfl
  | cons u q ih => rw [List.cons_append, List.cons_append, List.cons_lt_cons_iff, ih]; simp

end Lex

namespace Snapshot

/-! ### The loop -/

/-- The subpath without its trailing slashes. -/
def searchPath (subpath : Bytes) : Bytes := subpath.rdropWhile fun c => c = separator

/-- The loop of `forEachFileEntry(subpath, callback)` from an iterator on: it
breaks at an entry that `strncmp` tells from the search path, and at one whose
next character is neither the end nor a separator. -/
def forEachFrom {α : Type} (s : Snapshot) (searchPath : Bytes)
    (callback : FileEntry → EStateM Fault α Unit) :
    List (Bytes × FileEntry) → EStateM Fault α Unit
  | [] => return
  | (_, fe) :: found => do
    match s.entryPath fe with
    | .error e => throw e
    | .ok filePath =>
      if ¬ searchPath <+: filePath then return
      else if searchPath ≠ [] ∧ filePath.getD searchPath.length 0 ≠ 0 ∧
          filePath.getD searchPath.length 0 ≠ separator then return
      else
        callback fe
        forEachFrom s searchPath callback found

/-- `forEachFileEntry(subpath, callback)`. -/
def forEachFileEntryIn {α : Type} (s : Snapshot) (subpath : Bytes)
    (callback : FileEntry → EStateM Fault α Unit) : EStateM Fault α Unit :=
  s.forEachFrom (searchPath subpath) callback (s.mFiles.lowerBound (searchPath subpath))

/-! ### What it is for -/

/-- The path is `q` itself or below it; everything is below the empty path. -/
def Under (q p : Bytes) : Prop := q = [] ∨ p = q ∨ q ++ [separator] <+: p

instance (q p : Bytes) : Decidable (Under q p) := inferInstanceAs (Decidable (_ ∨ _ ∨ _))

/-- The entries below `q`, each once. -/
def entriesUnder (s : Snapshot) (q : Bytes) : List FileEntry :=
  (s.mFiles.entries.filter fun e => decide (Under q e.1)).map Prod.snd

/-- Every entry is filed under the path of its parent and name. -/
def Keyed (s : Snapshot) : Prop :=
  ∀ e ∈ s.mFiles.entries, s.entryPath e.2 = .ok e.1

theorem Under.isPrefix {q p : Bytes} (h : Under q p) : q <+: p := by
  rcases h with rfl | rfl | h
  · exact List.nil_prefix
  · exact List.prefix_refl _
  · exact (List.prefix_append q [separator]).trans h

/-- The two tests of the loop. -/
theorem under_iff {q p : Bytes} (hp : 0 ∉ p) :
    Under q p ↔ q <+: p ∧ ¬(q ≠ [] ∧ p.getD q.length 0 ≠ 0 ∧ p.getD q.length 0 ≠ separator) := by
  constructor
  · intro h
    refine ⟨h.isPrefix, ?_⟩
    rintro ⟨hq, hend, hsep⟩
    rcases h with rfl | rfl | ⟨r, rfl⟩
    · exact hq rfl
    · exact hend (by simp)
    · exact hsep (by simp)
  · rintro ⟨⟨r, rfl⟩, h⟩
    by_cases hq : q = []
    · exact Or.inl hq
    right
    cases r with
    | nil => exact Or.inl (List.append_nil q)
    | cons c r =>
      right
      have hc : (q ++ c :: r).getD q.length 0 = c := by simp
      rw [hc] at h
      have hne : c ≠ 0 := by
        rintro rfl
        exact hp (by simp)
      have hsep : c = separator := by
        by_contra hcs
        exact h ⟨hq, hne, hcs⟩
      exact ⟨r, by rw [hsep, List.append_assoc, List.singleton_append]⟩

/-! ### The keys of a loaded snapshot -/

theorem cstrAt_nul {buf : Bytes} {i : ℕ} {str : Bytes} (h : cstrAt buf i = some str) : 0 ∉ str := by
  rw [cstrAt] at h
  split at h
  · rw [← Option.some.inj h]
    intro hmem
    simpa using List.mem_takeWhile_imp hmem
  · exact absurd h (by simp)

theorem indexToString_nul {s : Snapshot} {n : ℤ} {str : Bytes} (h : s.indexToString n = .ok str) :
    0 ∉ str := by
  rw [indexToString] at h
  split at h
  · exact absurd h (by simp)
  · split at h
    · exact absurd h (by simp)
    · rename_i hstr
      rw [← Except.ok.inj h]
      exact cstrAt_nul hstr

/-- A path that is put together from C strings is one. -/
theorem entryPath_nul {s : Snapshot} {fe : FileEntry} {p : Bytes} (h : s.entryPath fe = .ok p) :
    0 ∉ p := by
  rw [entryPath] at h
  split at h
  · exact absurd h (by simp)
  · rename_i hparent
    split at h
    · exact absurd h (by simp)
    · rename_i hname
      rw [← Except.ok.inj h, List.mem_append, List.mem_cons]
      rintro (hmem | hsep | hmem)
      · exact indexToString_nul hparent hmem
      · exact absurd hsep (by decide)
      · exact indexToString_nul hname hmem

theorem Keyed.assign {s : Snapshot} (h : Keyed s) {fe : FileEntry} {p : Bytes}
    (hp : s.entryPath fe = .ok p) : Keyed { s with mFiles := s.mFiles.assign p fe } := by
  rintro ⟨k, fe'⟩ he
  rw [SortedMap.mem_entries_iff, SortedMap.find?_assign] at he
  show s.entryPath fe' = .ok k
  split at he
  · rename_i hk
    rw [← Option.some.inj he, hk]
    exact hp
  · exact h (k, fe') (SortedMap.mem_entries_iff.mpr he)

theorem loadFiles_keyed {σ : Type} [InputStream σ] : ∀ (n : ℕ) {s s' : Snapshot} {i i' : σ},
    Keyed s → loadFiles n s i = ok s' i' → Keyed s' := by
  intro n
  induction n with
  | zero =>
    intro s s' i i' hs h
    cases h
    exact hs
  | succ n ih =>
    intro s s' i i' hs h
    obtain ⟨fe, i₁, -, h⟩ := of_run_ok h
    cases hp : s.entryPath fe with
    | error e =>
      rw [hp] at h
      cases h
    | ok p =>
      rw [hp] at h
      exact ih (hs.assign hp) h

/-- **A loaded snapshot is filed by path**, whatever the stream held. -/
theorem load_keyed {σ : Type} [InputStream σ] {s : Snapshot} {i i' : σ}
    (h : load new i = ok s i') : Keyed s := by
  obtain ⟨numFiles, i₁, -, h⟩ := of_run_ok h
  obtain ⟨words, i₂, -, h⟩ := of_run_ok h
  obtain ⟨numObjects, i₃, -, h⟩ := of_run_ok h
  obtain ⟨buf, i₄, -, h⟩ := of_run_ok h
  cases hscan : scanStrings buf buf.length 0 new.mStringTable with
  | error e =>
    rw [hscan] at h
    cases h
  | ok table =>
    rw [hscan] at h
    obtain ⟨ids, i₅, -, h⟩ := of_run_ok h
    refine loadFiles_keyed numFiles ?_ (counted_ok h)
    intro e he
    exact absurd he List.not_mem_nil

/-! ### The loop as a scan of the keys -/

theorem forEachFrom_eq {α : Type} {s : Snapshot} {q : Bytes}
    (callback : FileEntry → EStateM Fault α Unit) : ∀ {found : List (Bytes × FileEntry)},
    (∀ e ∈ found, s.entryPath e.2 = .ok e.1) →
    s.forEachFrom q callback found =
      ((found.takeWhile fun e => decide (Under q e.1)).map Prod.snd).forM callback := by
  intro found
  induction found with
  | nil =>
    intro _
    rfl
  | cons e found ih =>
    intro hfound
    -- the path that the loop puts together is the key
    have hpath := hfound e List.mem_cons_self
    have hrest := ih fun e' he' => hfound e' (List.mem_cons_of_mem e he')
    have hiff := under_iff (q := q) (entryPath_nul hpath)
    rw [forEachFrom, hpath]
    by_cases hunder : Under q e.1
    · obtain ⟨hstarts, hnext⟩ := hiff.mp hunder
      rw [List.takeWhile_cons, if_pos (decide_eq_true hunder), List.map_cons, List.forM_eq_forM,
        List.forM_cons]
      show (if ¬ q <+: e.1 then _ else _) = _
      rw [if_neg (not_not.mpr hstarts), if_neg hnext, hrest]
      rfl
    · rw [List.takeWhile_cons, if_neg (by simpa using hunder)]
      show (if ¬ q <+: e.1 then _ else _) = _
      by_cases hstarts : q <+: e.1
      -- both tests of the loop end it
      · have hnext := not_and.mp (fun h => hunder (hiff.mpr h)) hstarts
        rw [if_neg (not_not.mpr hstarts), if_pos (not_not.mp hnext)]
        rfl
      · rw [if_pos hstarts]
        rfl

/-- The entries that the callback is called with. -/
def visited (s : Snapshot) (q : Bytes) : List FileEntry :=
  ((s.mFiles.lowerBound q).takeWhile fun e => decide (Under q e.1)).map Prod.snd

/-- **The enumeration is a run of the callback**, over the keys from the search
path on until the first that does not match. -/
theorem forEachFileEntryIn_eq {α : Type} {s : Snapshot} (hs : Keyed s) (subpath : Bytes)
    (callback : FileEntry → EStateM Fault α Unit) :
    s.forEachFileEntryIn subpath callback = (s.visited (searchPath subpath)).forM callback :=
  forEachFrom_eq callback fun e he => hs e (SortedMap.mem_lowerBound.mp he).1

/-! ### When nothing is missed -/

theorem Under.le {q p : Bytes} (h : Under q p) : q ≤ p :=
  not_lt.mp (List.IsPrefix.le h.isPrefix)

/-- The entries below `q` are among the keys from `q` on. -/
theorem filter_lowerBound_under (s : Snapshot) (q : Bytes) :
    (s.mFiles.lowerBound q).filter (fun e => decide (Under q e.1)) =
      s.mFiles.entries.filter fun e => decide (Under q e.1) :=
  SortedMap.filter_lowerBound fun _ _ he => (of_decide_eq_true he).le

theorem takeWhile_sublist_filter {α : Type*} (P : α → Bool) (l : List α) :
    (l.takeWhile P).Sublist (l.filter P) := by
  have hall : (l.takeWhile P).filter P = l.takeWhile P :=
    List.filter_eq_self.mpr fun _ he => List.mem_takeWhile_imp he
  rw [← hall]
  exact (List.takeWhile_sublist P).filter P

/-- Nothing else is visited, and nothing twice. -/
theorem visited_sublist (s : Snapshot) (q : Bytes) : (s.visited q).Sublist (s.entriesUnder q) := by
  rw [visited, entriesUnder, ← filter_lowerBound_under]
  exact (takeWhile_sublist_filter _ _).map Prod.snd

/-- A sibling of `q` that sorts between `q` and what is below it. -/
def Between (q p : Bytes) : Prop := ∃ c rest, p = q ++ c :: rest ∧ c < separator

/-- No entry that matches stands behind one that does not. -/
theorem contiguous_iff {q : Bytes} {l : List (Bytes × FileEntry)} (hle : ∀ e ∈ l, q ≤ e.1) :
    (∀ a ∈ l, ∀ b ∈ l, a.1 < b.1 → decide (Under q b.1) = true → decide (Under q a.1) = true) ↔
      q = [] ∨ (∀ e ∈ l, ¬ q ++ [separator] <+: e.1) ∨ ∀ e ∈ l, ¬ Between q e.1 := by
  simp only [decide_eq_true_eq]
  constructor
  · intro h
    by_cases hq : q = []
    · exact Or.inl hq
    right
    by_contra hc
    push Not at hc
    obtain ⟨⟨b, hb, x, hx⟩, ⟨a, ha, c, rest, hac, hlt⟩⟩ := hc
    rw [List.append_assoc, List.singleton_append] at hx
    have hab : a.1 < b.1 := by
      rw [hac, ← hx, append_lt_append_left_iff, List.cons_lt_cons_iff]
      exact Or.inl hlt
    -- the sibling is reached first and does not match
    rcases h a ha b hb hab (Or.inr (Or.inr ⟨x, by rw [← hx]; simp⟩)) with h | h | ⟨y, hy⟩
    · exact hq h
    · rw [hac] at h
      simp at h
    · rw [hac, List.append_assoc, List.singleton_append, List.append_cancel_left_eq,
        List.cons.injEq] at hy
      exact hlt.ne hy.1.symm
  · intro h a ha b hb hab hunder
    by_cases hq : q = []
    · exact Or.inl hq
    rcases hunder with hq' | hbq | ⟨x, hx⟩
    · exact absurd hq' hq
    · exact absurd (hbq ▸ hab) (not_lt.mpr (hle a ha))
    · -- `a` is between `q` and `q/x`, so it continues `q`
      rw [List.append_assoc, List.singleton_append] at hx
      rw [← hx] at hab
      obtain ⟨t, ht⟩ := isPrefix_of_le_of_lt_append (hle a ha) hab
      cases t with
      | nil => exact Or.inr (Or.inl (by rw [← ht, List.append_nil]))
      | cons c rest =>
        rw [← ht, append_lt_append_left_iff, List.cons_lt_cons_iff] at hab
        rcases hab with hlt | ⟨hc, -⟩
        · rcases h with hq' | hnone | hnone
          · exact absurd hq' hq
          · exact absurd ⟨x, by rw [← hx]; simp⟩ (hnone b hb)
          · exact absurd ⟨c, rest, ht.symm, hlt⟩ (hnone a ha)
        · exact Or.inr (Or.inr ⟨rest, by rw [← ht, hc]; simp⟩)

theorem Between.le {q p : Bytes} (h : Between q p) : q ≤ p := by
  obtain ⟨c, rest, rfl, -⟩ := h
  exact not_lt.mp (List.IsPrefix.le (List.prefix_append q (c :: rest)))

/-- Only keys from `q` on matter to the condition. -/
theorem forall_lowerBound_iff {m : SortedMap Bytes FileEntry} {q : Bytes} {P : Bytes → Prop}
    (hP : ∀ p, P p → q ≤ p) :
    (∀ e ∈ m.lowerBound q, ¬ P e.1) ↔ ∀ e ∈ m.entries, ¬ P e.1 := by
  constructor
  · intro h e he hPe
    exact h e (SortedMap.mem_lowerBound.mpr ⟨he, hP e.1 hPe⟩) hPe
  · intro h e he
    exact h e (SortedMap.mem_lowerBound.mp he).1

theorem visited_eq_iff (s : Snapshot) (q : Bytes) :
    s.visited q = s.entriesUnder q ↔
      q = [] ∨ (∀ e ∈ s.mFiles.entries, ¬ q ++ [separator] <+: e.1) ∨
        ∀ e ∈ s.mFiles.entries, ¬ Between q e.1 := by
  have hlists : s.visited q = s.entriesUnder q ↔
      ((s.mFiles.lowerBound q).takeWhile fun e => decide (Under q e.1)) =
        (s.mFiles.lowerBound q).filter fun e => decide (Under q e.1) := by
    rw [visited, entriesUnder, ← filter_lowerBound_under]
    constructor
    · intro h
      -- a sublist of the same length is the whole list
      have hlen := congrArg List.length h
      rw [List.length_map, List.length_map] at hlen
      exact (takeWhile_sublist_filter _ _).eq_of_length hlen
    · intro h
      rw [h]
  rw [hlists, SortedMap.takeWhile_eq_filter_iff (s.mFiles.sorted_lowerBound q),
    contiguous_iff fun e he => (SortedMap.mem_lowerBound.mp he).2,
    forall_lowerBound_iff fun p hp => Under.le (Or.inr (Or.inr hp)),
    forall_lowerBound_iff fun p hp => Between.le hp]

/-- A callback that notes what it is called with. -/
def record (fe : FileEntry) : EStateM Fault (List FileEntry) Unit := modify (· ++ [fe])

theorem forM_record : ∀ (calls acc : List FileEntry),
    calls.forM record acc = ok () (acc ++ calls) := by
  intro calls
  induction calls with
  | nil =>
    intro acc
    rw [List.append_nil]
    rfl
  | cons fe calls ih =>
    intro acc
    rw [List.forM_eq_forM, List.forM_cons]
    have hstep : record fe acc = ok () (acc ++ [fe]) := rfl
    refine run_step hstep ?_
    rw [← List.forM_eq_forM, ih, List.append_assoc, List.singleton_append]

/-- **Sub-tree enumeration.**  In a loaded snapshot the key of an entry is its
path.  The callback is run over entries below the search path only and over
none of them twice; it is run over all of them unless the snapshot holds both
something below the search path and a sibling that sorts in between. -/
theorem forEachFileEntryIn_iff {σ : Type} [InputStream σ] {s : Snapshot} {i i' : σ}
    (hload : load new i = ok s i') (subpath : Bytes) :
    Keyed s ∧
    (∃ calls : List FileEntry, calls.Sublist (s.entriesUnder (searchPath subpath)) ∧
      ∀ {α : Type} (callback : FileEntry → EStateM Fault α Unit),
        s.forEachFileEntryIn subpath callback = calls.forM callback) ∧
    (s.forEachFileEntryIn subpath record [] = ok () (s.entriesUnder (searchPath subpath)) ↔
      searchPath subpath = [] ∨
      (∀ e ∈ s.mFiles.entries, ¬ searchPath subpath ++ [separator] <+: e.1) ∨
      ∀ e ∈ s.mFiles.entries, ¬ Between (searchPath subpath) e.1) := by
  have hs := load_keyed hload
  refine ⟨hs, ⟨s.visited (searchPath subpath), visited_sublist s _, ?_⟩, ?_⟩
  · intro α callback
    exact forEachFileEntryIn_eq hs subpath callback
  · rw [forEachFileEntryIn_eq hs, forM_record, List.nil_append, ← visited_eq_iff]
    constructor
    · intro h
      rw [EStateM.Result.ok.injEq] at h
      exact h.2
    · intro h
      rw [h]

/-! ### A directory and a sibling -/

/-- A file in the directory `x/a`, and the file `x/a.b` beside it. -/
def siblings : List SnapshotOp :=
  [.add (sampleAdd (ascii "x/a/b")), .add (sampleAdd (ascii "x/a.b"))]

theorem siblings_good : GoodOps siblings := by
  have hx : NormalRel (ascii "x") := .name (by constructor <;> decide)
  have hxa : NormalRel (ascii "x/a") :=
    .cons (p := ascii "x") (n := ascii "a") hx (by constructor <;> decide)
  have hxab : NormalRel (ascii "x/a/b") :=
    .cons (p := ascii "x/a") (n := ascii "b") hxa (by constructor <;> decide)
  have hdot : NormalRel (ascii "x/a.b") :=
    .cons (p := ascii "x") (n := ascii "a.b") hx (by constructor <;> decide)
  intro a ha
  simp only [siblings, List.mem_cons, SnapshotOp.add.injEq, List.not_mem_nil, or_false] at ha
  rcases ha with rfl | rfl
  · exact ⟨Or.inr hxab, sampleAdd_nulFree (by decide)⟩
  · exact ⟨Or.inr hdot, sampleAdd_nulFree (by decide)⟩

/-- What is loaded from them. -/
theorem siblings_load : ∃ s i', load new (MemoryInputStream.new (snapshotBytes (build siblings))) =
      ok s i' ∧ (s.mFiles.entries.map Prod.fst).Perm [ascii "x/a.b", ascii "x/a/b"] := by
  obtain ⟨s, hreads, -, -, hperm⟩ := load_built
    (RewindableStream.source (snapshotBytes (build siblings) ++ []) (σ := MemoryInputStream))
    siblings_good (by constructor <;> decide) (by decide)
  obtain ⟨i', hload, -⟩ := hreads (MemoryInputStream.new (snapshotBytes (build siblings) ++ [])) []
    (MemoryInputStream.new_holds _)
  rw [List.append_nil] at hload
  refine ⟨s, i', hload, ?_⟩
  have hkeys := hperm.map Prod.fst
  rwa [show ((build siblings).mFiles.entries.map fun e => (rekey e.1, e.2)).map Prod.fst =
    [ascii "x/a.b", ascii "x/a/b"] by decide] at hkeys

theorem forEachFileEntryIn_iff_siblings :
    ∃ s i', load new (MemoryInputStream.new (snapshotBytes (build siblings))) = ok s i' ∧
      s.forEachFileEntryIn (ascii "x//") record [] = ok () (s.entriesUnder (ascii "x")) := by
  obtain ⟨s, i', hload, hperm⟩ := siblings_load
  refine ⟨s, i', hload, ?_⟩
  obtain ⟨-, -, hiff⟩ := forEachFileEntryIn_iff hload (ascii "x//")
  refine hiff.mpr (Or.inr (Or.inr ?_))
  rintro e he ⟨c, rest, hc, hlt⟩
  have hmem := hperm.mem_iff.mp (List.mem_map_of_mem he)
  rw [show searchPath (ascii "x//") = ascii "x" by decide] at hc
  rw [hc] at hmem
  rcases List.mem_pair.mp hmem with h | h
  · exact absurd hlt ((List.cons.inj (List.cons.inj h).2).1 ▸ by decide)
  · exact absurd hlt ((List.cons.inj (List.cons.inj h).2).1 ▸ by decide)

/-- **A sibling hides a directory**: asked for `x/a`, the loop stops at
`x/a.b` and never comes to `x/a/b`. -/
theorem forEachFileEntryIn_stops :
    ∃ s i', load new (MemoryInputStream.new (snapshotBytes (build siblings))) = ok s i' ∧
      (∃ e ∈ s.mFiles.entries, e.1 = ascii "x/a/b") ∧
      s.forEachFileEntryIn (ascii "x/a") record [] ≠ ok () (s.entriesUnder (ascii "x/a")) := by
  obtain ⟨s, i', hload, hperm⟩ := siblings_load
  have hfiled : ∀ p ∈ [ascii "x/a.b", ascii "x/a/b"], ∃ e ∈ s.mFiles.entries, e.1 = p := by
    intro p hp
    exact List.mem_map.mp (hperm.mem_iff.mpr hp)
  refine ⟨s, i', hload, hfiled _ (by simp), ?_⟩
  rw [forEachFileEntryIn_eq (load_keyed hload), forM_record, List.nil_append]
  intro h
  rw [EStateM.Result.ok.injEq, show searchPath (ascii "x/a") = ascii "x/a" by decide,
    visited_eq_iff] at h
  -- both files are there, so none of the three cases is left
  rcases h.2 with hnil | hnone | hnone
  · exact absurd hnil (by decide)
  · obtain ⟨e, he, hpath⟩ := hfiled (ascii "x/a/b") (by simp)
    exact hnone e he (hpath ▸ by decide)
  · obtain ⟨e, he, hpath⟩ := hfiled (ascii "x/a.b") (by simp)
    exact hnone e he ⟨46, ascii "b", hpath, by decide⟩

end Snapshot

end Nebula
