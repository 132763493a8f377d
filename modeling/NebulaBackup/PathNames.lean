/-
Paths as lists of names.

A path without root, trailing separator, `.` and `..` is its names with single
separators between them.  Iterating over it, normalising it and making it
relative to a path above it are then what they are for lists.  Main results:

* `elements_joined` — the iterator goes from name to name;
* `lexically_normal_joined` — such a path is normal;
* `lexically_relative_joined` — the path above is taken away;
* `destFilePath_topLevel` — an argument of one name has no path above it, and
  everything goes to the destination itself.
-/
import NebulaBackup.CommandLine

namespace Nebula

namespace Path

/-- A name that stands for itself. -/
def PlainName (n : Bytes) : Prop := IsName n ∧ n ≠ [dot] ∧ n ≠ [dot, dot]

/-! ### What is above a path -/

theorem findLastOf_lt {str : Bytes} : ∀ {n pos : ℕ}, findLastOf str n = some pos →
    pos < n ∧ isSep str pos = true := by
  intro n
  induction n with
  | zero =>
    intro pos h
    exact absurd h (by simp [findLastOf])
  | succ n ih =>
    intro pos h
    rw [findLastOf] at h
    split at h
    · rename_i hsep
      rw [← Option.some.inj h]
      exact ⟨Nat.lt_succ_self n, hsep⟩
    · obtain ⟨hlt, hsep⟩ := ih h
      exact ⟨by omega, hsep⟩

/-- The last name is not empty, but for the one behind a separator at the end. -/
theorem filename_pos_lt {str : Bytes} (h : str ≠ []) : filename_pos str str.length < str.length := by
  have hpos := List.length_pos_iff.mpr h
  rw [filename_pos]
  split
  · exact hpos
  · split
    · omega
    · rename_i hlast
      rw [if_neg (by omega)]
      cases hfind : findLastOf str str.length with
      | none => exact hpos
      | some pos =>
        obtain ⟨hlt, hsep⟩ := findLastOf_lt hfind
        dsimp only
        split
        · exact hpos
        · have hne : pos ≠ str.length - 1 := by
            rintro rfl
            exact hlast ⟨by omega, hsep⟩
          omega

theorem skipSepsBack_le (str : Bytes) (root : Option ℕ) : ∀ e, skipSepsBack str root e ≤ e := by
  intro e
  induction e with
  | zero => exact le_refl _
  | succ e ih =>
    rw [skipSepsBack]
    split
    · omega
    · exact le_refl _

/-- The path above another is shorter. -/
theorem parent_path_length_lt {p : Bytes} (h : p ≠ []) : (parent_path p).length < p.length := by
  have hpos := List.length_pos_iff.mpr h
  have hfile := filename_pos_lt h
  rw [parent_path, m_parent_path_end]
  split
  · exact hpos
  · rename_i e hend
    split at hend
    · exact absurd hend (by simp)
    · have hle := skipSepsBack_le p (root_directory_start p (filename_pos p p.length))
        (filename_pos p p.length)
      rw [Option.some.inj hend] at hle
      rw [List.length_take]
      omega

theorem parent_path_length_le (p : Bytes) : (parent_path p).length ≤ p.length := by
  by_cases h : p = []
  · rw [h]
    rfl
  · exact le_of_lt (parent_path_length_lt h)

/-! ### Names -/

/-- The path with the given names. -/
def joined (names : List Bytes) : Bytes := [separator].intercalate names

@[simp] theorem joined_nil : joined [] = [] := rfl

@[simp] theorem joined_singleton (n : Bytes) : joined [n] = n := List.intercalate_singleton

theorem joined_cons {n : Bytes} {names : List Bytes} (h : names ≠ []) :
    joined (n :: names) = n ++ separator :: joined names := by
  rw [joined, List.intercalate_cons_of_ne_nil h, List.append_assoc]
  rfl

theorem joined_append {names rest : List Bytes} (hn : names ≠ []) (hr : rest ≠ []) :
    joined (names ++ rest) = joined names ++ separator :: joined rest := by
  induction names with
  | nil => exact absurd rfl hn
  | cons n names ih =>
    by_cases hnames : names = []
    · subst hnames
      rw [List.singleton_append, joined_cons hr, joined_singleton]
    · rw [List.cons_append, joined_cons (by simp [hnames]), ih hnames, joined_cons hnames,
        List.append_assoc, List.cons_append]

theorem joined_ne_nil {n : Bytes} (names : List Bytes) (hn : IsName n) : joined (n :: names) ≠ [] := by
  by_cases hnames : names = []
  · rw [hnames, joined_singleton]
    exact hn.1
  · rw [joined_cons hnames]
    exact List.append_ne_nil_of_left_ne_nil hn.1 _

/-- A path begins with its first name. -/
theorem takeWhile_joined {n : Bytes} (names : List Bytes) (hn : IsName n) :
    (joined (n :: names)).takeWhile (· ≠ separator) = n := by
  have hall : ∀ b ∈ n, decide (b ≠ separator) = true := by
    intro b hb
    rw [decide_eq_true_eq]
    rintro rfl
    exact hn.2 hb
  by_cases hnames : names = []
  · rw [hnames, joined_singleton]
    exact List.takeWhile_eq_self_iff.mpr hall
  · rw [joined_cons hnames, List.takeWhile_append_of_pos hall,
      List.takeWhile_cons_of_neg (by simp), List.append_nil]

theorem isSep_joined {n : Bytes} (names : List Bytes) (hn : IsName n) :
    isSep (joined (n :: names)) 0 = false := by
  by_cases hnames : names = []
  · rw [hnames, joined_singleton]
    exact isSep_eq_false_of_not_mem hn.2 0
  · rw [joined_cons hnames, isSep_append_left _ (List.length_pos_iff.mpr hn.1)]
    exact isSep_eq_false_of_not_mem hn.2 0

/-- Such a path is normal and relative. -/
theorem joined_normalRel {names : List Bytes} (hne : names ≠ []) (h : ∀ n ∈ names, IsName n) :
    NormalRel (joined names) := by
  induction names using List.reverseRecOn with
  | nil => exact absurd rfl hne
  | append_singleton names n ih =>
    have hn := h n (by simp)
    by_cases hnames : names = []
    · rw [hnames, List.nil_append, joined_singleton]
      exact .name hn
    · rw [joined_append hnames (by simp), joined_singleton]
      exact .cons (ih hnames fun m hm => h m (List.mem_append_left _ hm)) hn

/-! ### The iterator -/

/-- **The iterator goes to the next name.** -/
theorem increment_joined (pre : Bytes) {n m : Bytes} (names : List Bytes) (hn : IsName n)
    (hm : IsName m) : increment (pre ++ joined (n :: m :: names)) ⟨pre.length, n⟩ =
      ⟨(pre ++ (n ++ [separator])).length, m⟩ := by
  have hstr : pre ++ joined (n :: m :: names) = (pre ++ n) ++ separator :: joined (m :: names) := by
    rw [joined_cons (by simp), List.append_assoc]
  have hpos : pre.length + n.length = (pre ++ n).length := List.length_append.symm
  have hlen : 0 < (joined (m :: names)).length := List.length_pos_iff.mpr (joined_ne_nil names hm)
  have hsep : isSep ((pre ++ n) ++ separator :: joined (m :: names)) (pre ++ n).length = true := by
    have hat := isSep_append_right (pre ++ n) (separator :: joined (m :: names)) 0
    rwa [isSep_separator_cons] at hat
  -- behind the separator stands the next name
  have hskip : skipSeps ((pre ++ n) ++ separator :: joined (m :: names)) (pre ++ n).length =
      (pre ++ n).length + 1 := by
    rw [skipSeps, List.drop_left, List.takeWhile_cons_of_pos (by simp)]
    obtain ⟨b, rest, hb⟩ := List.exists_cons_of_ne_nil (joined_ne_nil names hm)
    have hfirst := isSep_joined names hm
    rw [hb] at hfirst ⊢
    rw [List.takeWhile_cons_of_neg (by simpa [isSep] using hfirst)]
    rfl
  have hname : nameAt ((pre ++ n) ++ separator :: joined (m :: names)) ((pre ++ n).length + 1) = m := by
    rw [nameAt, ← List.drop_drop, List.drop_left, List.drop_one, List.tail_cons]
    exact takeWhile_joined names hm
  rw [hstr, increment]
  simp only [hpos, hsep, hskip, hname, isNet_of_isName hn]
  rw [if_neg (by simp), if_pos trivial, if_neg (by simp), if_neg]
  · simp [Nat.add_assoc]
  · simp only [List.length_append, List.length_cons]
    omega

theorem increment_last (pre : Bytes) (n : Bytes) : increment (pre ++ n) ⟨pre.length, n⟩ =
    ⟨(pre ++ n).length, []⟩ := by
  rw [increment, if_pos (List.length_append).symm]
  simp

theorem begin_joined {n : Bytes} (names : List Bytes) (hn : IsName n) :
    begin (joined (n :: names)) = ⟨0, n⟩ := by
  rw [begin_good (joined_ne_nil names hn) (isSep_joined names hn), nameAt, List.drop_zero,
    takeWhile_joined names hn]

/-- The rounds that the iterator needs from a name on. -/
theorem elementsFrom_joined : ∀ (names : List Bytes) (pre : Bytes) {n : Bytes} {k : ℕ}, IsName n →
    (∀ m ∈ names, IsName m) → (joined (n :: names)).length < k →
    elementsFrom (pre ++ joined (n :: names)) k ⟨pre.length, n⟩ = n :: names := by
  intro names
  induction names with
  | nil =>
    intro pre n k hn _ hk
    obtain ⟨k, rfl⟩ : ∃ j, k = j + 2 := by
      have hpos := List.length_pos_iff.mpr hn.1
      rw [joined_singleton] at hk
      exact ⟨k - 2, by omega⟩
    have hne : pre.length ≠ (pre ++ n).length := by
      have hpos := List.length_pos_iff.mpr hn.1
      rw [List.length_append]
      omega
    rw [joined_singleton, elementsFrom, if_neg hne, increment_last, elementsFrom, if_pos rfl]
  | cons m names ih =>
    intro pre n k hn hnames hk
    have hm := hnames m List.mem_cons_self
    obtain ⟨k, rfl⟩ : ∃ j, k = j + 1 := ⟨k - 1, by omega⟩
    have hstr : pre ++ joined (n :: m :: names) = (pre ++ (n ++ [separator])) ++ joined (m :: names) := by
      rw [joined_cons (by simp)]
      simp
    have hcons : joined (n :: m :: names) = n ++ separator :: joined (m :: names) :=
      joined_cons (by simp)
    have hlen := congrArg List.length hcons
    rw [List.length_append, List.length_cons] at hlen
    have hne : pre.length ≠ (pre ++ joined (n :: m :: names)).length := by
      rw [List.length_append, hlen]
      omega
    rw [elementsFrom, if_neg hne, increment_joined pre names hn hm, hstr,
      ih (pre ++ (n ++ [separator])) hm (fun m' hm' => hnames m' (List.mem_cons_of_mem m hm'))
        (by omega)]

/-- **The elements of a path are its names.** -/
theorem elements_joined {names : List Bytes} (h : ∀ n ∈ names, IsName n) :
    elements (joined names) = names := by
  cases names with
  | nil => rfl
  | cons n names =>
    have hn := h n List.mem_cons_self
    rw [elements, begin_joined names hn]
    exact elementsFrom_joined names [] hn (fun m hm => h m (List.mem_cons_of_mem n hm))
      (Nat.lt_succ_self _)

/-! ### Normal and relative paths -/

/-- Appending a name. -/
theorem append_joined {names : List Bytes} {n : Bytes} (h : ∀ m ∈ names, IsName m) (hn : IsName n) :
    append (joined names) n = joined (names ++ [n]) := by
  rw [append, if_neg hn.1, isSep_eq_false_of_not_mem hn.2, if_neg Bool.false_ne_true,
    appendSeparatorIfNeeded]
  by_cases hnames : names = []
  · rw [hnames, joined_nil, if_neg (by simp), List.nil_append, List.nil_append, joined_singleton]
  · have hnormal := joined_normalRel hnames h
    rw [if_pos ⟨hnormal.ne_nil, hnormal.isSep_last⟩, joined_append hnames (by simp), joined_singleton,
      List.append_assoc]
    rfl

/-- Appending names one after the other. -/
theorem foldl_append_joined : ∀ (rest names : List Bytes),
    (∀ n ∈ names ++ rest, IsName n) → rest.foldl append (joined names) = joined (names ++ rest) := by
  intro rest
  induction rest with
  | nil =>
    intro names _
    rw [List.foldl_nil, List.append_nil]
  | cons n rest ih =>
    intro names h
    rw [List.foldl_cons, append_joined (fun m hm => h m (List.mem_append_left _ hm)) (h n (by simp)),
      ih _ (by simpa using h), List.append_assoc, List.singleton_append]

/-- A name that stands for itself is appended. -/
theorem normalStep_plain (str temp : Bytes) {pos : ℕ} {n : Bytes} (hn : PlainName n) :
    normalStep str temp ⟨pos, n⟩ = append temp n := by
  rw [normalStep, if_neg fun h => hn.2.1 h.1, if_neg fun h => hn.2.2 h.2.1]

/-- The loop of `lexically_normal` keeps names that stand for themselves. -/
theorem normalLoop_joined (str : Bytes) : ∀ (names done : List Bytes) (pre : Bytes) {n : Bytes}
    {k : ℕ}, str = pre ++ joined (n :: names) → (∀ m ∈ done, IsName m) →
    (∀ m ∈ n :: names, PlainName m) → (joined (n :: names)).length < k →
    normalLoop str k ⟨pre.length, n⟩ (joined done) = joined (done ++ n :: names) := by
  intro names
  induction names with
  | nil =>
    intro done pre n k hstr hdone hnames hk
    have hn := hnames n List.mem_cons_self
    have hpos := List.length_pos_iff.mpr hn.1.1
    rw [joined_singleton] at hstr hk
    obtain ⟨k, rfl⟩ : ∃ j, k = j + 2 := ⟨k - 2, by omega⟩
    have hne : pre.length ≠ str.length := by
      rw [hstr, List.length_append]
      omega
    rw [normalLoop_step (k + 1) _ hne, normalStep_plain str _ hn, append_joined hdone hn.1, hstr,
      increment_last, normalLoop, if_neg (by simp)]
  | cons m names ih =>
    intro done pre n k hstr hdone hnames hk
    have hn := hnames n List.mem_cons_self
    have hm := hnames m (by simp)
    obtain ⟨k, rfl⟩ : ∃ j, k = j + 1 := ⟨k - 1, by omega⟩
    have hcons : joined (n :: m :: names) = n ++ separator :: joined (m :: names) :=
      joined_cons (by simp)
    have hlen := congrArg List.length hcons
    rw [List.length_append, List.length_cons] at hlen
    have hne : pre.length ≠ str.length := by
      rw [hstr, List.length_append]
      omega
    have hnext : increment str ⟨pre.length, n⟩ = ⟨(pre ++ (n ++ [separator])).length, m⟩ := by
      rw [hstr]
      exact increment_joined pre names hn.1 hm.1
    rw [normalLoop_step k _ hne, normalStep_plain str _ hn, append_joined hdone hn.1, hnext,
      ih (done ++ [n]) (pre ++ (n ++ [separator])) (by rw [hstr, hcons]; simp) ?_
        (fun m' hm' => hnames m' (List.mem_cons_of_mem n hm')) (by omega)]
    · rw [List.append_assoc, List.singleton_append]
    · intro m' hm'
      rcases List.mem_append.mp hm' with hm' | hm'
      · exact hdone m' hm'
      · rw [List.mem_singleton.mp hm']
        exact hn.1

/-- **A path of plain names is normal.** -/
theorem lexically_normal_joined {names : List Bytes} (h : ∀ n ∈ names, PlainName n) :
    lexically_normal (joined names) = joined names := by
  cases names with
  | nil => rfl
  | cons n names =>
    have hn := h n List.mem_cons_self
    have hne := joined_ne_nil names hn.1
    have hloop : normalLoop (joined (n :: names)) ((joined (n :: names)).length + 1)
        (begin (joined (n :: names))) [] = joined (n :: names) := by
      rw [begin_joined names hn.1]
      exact normalLoop_joined _ names [] [] rfl (by simp) h (Nat.lt_succ_self _)
    rw [lexically_normal, if_neg hne]
    dsimp only
    rw [hloop, if_neg hne]

theorem mismatch_append (names rest : List Bytes) :
    mismatch (names ++ rest) names = (rest, []) := by
  induction names with
  | nil => cases rest <;> rfl
  | cons n names ih => rw [List.cons_append, mismatch, if_pos rfl, ih]

/-- **The path above is taken away.** -/
theorem lexically_relative_joined {names rest : List Bytes} (hn : names ≠ []) (hr : rest ≠ [])
    (h : ∀ n ∈ names ++ rest, IsName n) :
    lexically_relative (joined (names ++ rest)) (joined names) = joined rest := by
  have hnames : elements (joined names) = names :=
    elements_joined fun n hn => h n (List.mem_append_left _ hn)
  rw [lexically_relative, elements_joined h, hnames, mismatch_append]
  dsimp only
  rw [if_neg, if_neg fun hboth => hr hboth.1]
  · exact foldl_append_joined rest [] fun n hn => h n (List.mem_append_right _ hn)
  · intro hboth
    exact hn hboth.2.symm

/-- Nothing is above the empty path. -/
theorem lexically_relative_nil (p : Bytes) : lexically_relative p [] = [] := by
  have hnil : elements [] = [] := rfl
  have hmismatch : mismatch (elements p) [] = (elements p, []) := by
    cases elements p <;> rfl
  rw [lexically_relative, hnil, hmismatch]
  dsimp only
  rw [if_pos ⟨rfl, rfl⟩]

end Path

open Nebula.Path

/-- **An argument without a path above it**: every entry is restored to the
destination itself. -/
theorem destFilePath_topLevel (L : LocalEnv) (destDir : Bytes) {srcFile : Bytes}
    (h : parent_path srcFile = []) (path name : Bytes) :
    destFilePath L destDir srcFile path name = destDir := by
  have hrel : L.relative (path ++ separator :: name) [] = [] := lexically_relative_nil _
  rw [destFilePath, h, hrel, append, if_pos rfl]

/-- Below an argument with a path above it, on a system on which neither path
exists, an entry is restored to what is left of its path. -/
theorem relative_joined {L : LocalEnv} {names rest : List Bytes} (hn : names ≠ []) (hr : rest ≠ [])
    (h : ∀ n ∈ names ++ rest, PlainName n) (hpath : L.canonical (joined (names ++ rest)) = none)
    (hbase : L.canonical (joined names) = none) :
    L.relative (joined (names ++ rest)) (joined names) = joined rest := by
  have hnames : ∀ n ∈ names, PlainName n := fun n hn => h n (List.mem_append_left _ hn)
  have hbase' : L.weakly_canonical (joined names) = joined names := by
    rw [LocalEnv.weakly_canonical, hbase]
    dsimp only
    rw [lexically_normal_joined hnames, ite_eq_right_iff]
    exact fun hnil => hnil.symm
  have hpath' : L.weakly_canonical (joined (names ++ rest)) = joined (names ++ rest) := by
    rw [LocalEnv.weakly_canonical, hpath]
    dsimp only
    rw [lexically_normal_joined h, ite_eq_right_iff]
    exact fun hnil => hnil.symm
  rw [LocalEnv.relative, hbase', hpath']
  exact lexically_relative_joined hn hr fun n hn => (h n hn).1

end Nebula
