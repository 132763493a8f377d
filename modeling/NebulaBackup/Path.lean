/-
`boost::filesystem::path`, as far as the program uses it on POSIX.

The functions of `path.cpp` are translated with their positions: the forward
iterator, `relative_path`, `filename`, `parent_path`, `operator/=` and
`lexically_normal`.  `NormalRel p` says that `p` consists of one or more
nonempty names with single separators between them.  Main results:

* `NormalRel.cases` — `filename` and `parent_path` take such a path apart at
  its last separator;
* `normalizedPath_normal` — what `uploadFile` makes of a destination path is
  empty or of that form.
-/
import NebulaBackup.Basic

namespace Nebula

namespace Path

/-- `path::separator`. -/
def separator : UInt8 := 47

/-- `path::dot`. -/
def dot : UInt8 := 46

/-! ### Helpers of `path.cpp` -/

/-- `is_directory_separator(str[i])`; the character after the last one is
NUL. -/
def isSep (str : Bytes) (i : ℕ) : Bool := str.getD i 0 = separator

/-- The characters from `pos` up to the next separator. -/
def nameAt (str : Bytes) (pos : ℕ) : Bytes := (str.drop pos).takeWhile (· ≠ separator)

/-- `str.find_first_of(separators, pos)`. -/
def findFirstOf (str : Bytes) (pos : ℕ) : Option ℕ :=
  if pos + (nameAt str pos).length < str.length then some (pos + (nameAt str pos).length) else none

/-- The last separator before the position `n`, as `find_last_of` finds it. -/
def findLastOf (str : Bytes) : ℕ → Option ℕ
  | 0 => none
  | n + 1 => if isSep str n then some n else findLastOf str n

/-- The leftmost separator of the run that ends before `pos`. -/
def leftmostSep (str : Bytes) : ℕ → ℕ
  | 0 => 0
  | pos + 1 => if isSep str pos then leftmostSep str pos else pos + 1

/-- `is_root_separator`. -/
def is_root_separator (str : Bytes) (pos : ℕ) : Bool :=
  if leftmostSep str pos = 0 then true
  else if leftmostSep str pos < 3 ∨ isSep str 0 = false ∨ isSep str 1 = false then false
  else findFirstOf str 2 = some (leftmostSep str pos)

/-- `filename_pos`. -/
def filename_pos (str : Bytes) (end_pos : ℕ) : ℕ :=
  if end_pos = 2 ∧ isSep str 0 ∧ isSep str 1 then 0
  else if end_pos ≠ 0 ∧ isSep str (end_pos - 1) then end_pos - 1
  else
    -- `end_pos - 1` is `npos` for 0, and the search covers the whole string
    match findLastOf str (if end_pos = 0 then str.length else end_pos) with
    | none => 0
    | some pos => if pos = 1 ∧ isSep str 0 then 0 else pos + 1

/-- `root_directory_start`. -/
def root_directory_start (str : Bytes) (size : ℕ) : Option ℕ :=
  if size = 2 ∧ isSep str 0 ∧ isSep str 1 then none
  else if size > 3 ∧ isSep str 0 ∧ isSep str 1 ∧ isSep str 2 = false then
    match findFirstOf str 2 with
    | none => none
    | some pos => if pos < size then some pos else none
  else if size > 0 ∧ isSep str 0 then some 0
  else none

/-- The loops that step back over separators, but not over the root
directory. -/
def skipSepsBack (str : Bytes) (root : Option ℕ) : ℕ → ℕ
  | 0 => 0
  | e + 1 => if root ≠ some e ∧ isSep str e then skipSepsBack str root e else e + 1

/-- `first_element`: position and size. -/
def first_element (str : Bytes) : ℕ × ℕ :=
  if str = [] then (0, 0)
  else if 2 ≤ str.length ∧ isSep str 0 ∧ isSep str 1 ∧ (str.length = 2 ∨ isSep str 2 = false) then
    (0, 2 + (nameAt str 2).length)
  else if isSep str 0 then ((str.takeWhile (· = separator)).length - 1, 1)
  else (0, (nameAt str 0).length)

/-! ### The iterator -/

/-- `path::iterator`: position and current element. -/
structure Iter where
  pos : ℕ
  element : Bytes
deriving DecidableEq

/-- `path::begin`. -/
def begin (str : Bytes) : Iter :=
  ⟨(first_element str).1, (str.drop (first_element str).1).take (first_element str).2⟩

/-- The part of `m_path_iterator_increment` at a separator. -/
def skipSeps (str : Bytes) (pos : ℕ) : ℕ := pos + ((str.drop pos).takeWhile (· = separator)).length

/-- A network name, `//` followed by something else. -/
def isNet (element : Bytes) : Bool :=
  2 < element.length ∧ isSep element 0 ∧ isSep element 1 ∧ isSep element 2 = false

/-- `m_path_iterator_increment`. -/
def increment (str : Bytes) (it : Iter) : Iter :=
  if it.pos + it.element.length = str.length then ⟨it.pos + it.element.length, []⟩
  else if isSep str (it.pos + it.element.length) then
    if isNet it.element then ⟨it.pos + it.element.length, [separator]⟩
    else if skipSeps str (it.pos + it.element.length) = str.length ∧
        is_root_separator str (skipSeps str (it.pos + it.element.length) - 1) = false then
      -- a trailing separator is treated as "."
      ⟨skipSeps str (it.pos + it.element.length) - 1, [dot]⟩
    else
      ⟨skipSeps str (it.pos + it.element.length),
        nameAt str (skipSeps str (it.pos + it.element.length))⟩
  else ⟨it.pos + it.element.length, nameAt str (it.pos + it.element.length)⟩

/-- `m_path_iterator_decrement`, applied to `end()`. -/
def last (str : Bytes) : Iter :=
  if str.length > 1 ∧ isSep str (str.length - 1) ∧
      is_root_separator str (str.length - 1) = false then ⟨str.length - 1, [dot]⟩
  else
    let end_pos := skipSepsBack str (root_directory_start str str.length) str.length
    ⟨filename_pos str end_pos, (str.drop (filename_pos str end_pos)).take
      (end_pos - filename_pos str end_pos)⟩

/-! ### Members of `path` -/

/-- `m_parent_path_end`; `none` is `npos`. -/
def m_parent_path_end (str : Bytes) : Option ℕ :=
  let end_pos := filename_pos str str.length
  let root_dir_pos := root_directory_start str end_pos
  let e := skipSepsBack str root_dir_pos end_pos
  if e = 1 ∧ root_dir_pos = some 0 ∧ str ≠ [] ∧ isSep str end_pos then none else some e

/-- `parent_path`. -/
def parent_path (str : Bytes) : Bytes :=
  match m_parent_path_end str with
  | none => []
  | some e => str.take e

/-- `remove_filename`; it is not called where the end is `npos`. -/
def remove_filename (str : Bytes) : Bytes :=
  match m_parent_path_end str with
  | none => str
  | some e => str.take e

/-- `filename`. -/
def filename (str : Bytes) : Bytes :=
  if str ≠ [] ∧ filename_pos str str.length ≠ 0 ∧ isSep str (filename_pos str str.length) ∧
      is_root_separator str (filename_pos str str.length) = false then [dot]
  else str.drop (filename_pos str str.length)

/-- `m_append_separator_if_needed`. -/
def appendSeparatorIfNeeded (str : Bytes) : Bytes :=
  if str ≠ [] ∧ isSep str (str.length - 1) = false then str ++ [separator] else str

/-- `operator/=`. -/
def append (str p : Bytes) : Bytes :=
  if p = [] then str
  else if isSep p 0 then str ++ p
  else appendSeparatorIfNeeded str ++ p

/-- The loop of `relative_path`.  Every increment moves forward, so the length
of the path bounds the rounds. -/
def relativeLoop (str : Bytes) : ℕ → Iter → Iter
  | 0, it => it
  | k + 1, it =>
    if it.pos ≠ str.length ∧ isSep it.element 0 then relativeLoop str k (increment str it) else it

/-- `relative_path`. -/
def relative_path (str : Bytes) : Bytes :=
  str.drop (relativeLoop str (str.length + 1) (begin str)).pos

/-- The condition under which `lexically_normal` drops the last name `lf` for
a following `..`. -/
def dropsName (lf : Bytes) : Bool :=
  0 < lf.length ∧ (lf.length ≠ 1 ∨ (lf.getD 0 0 ≠ dot ∧ lf.getD 0 0 ≠ separator)) ∧
    (lf.length ≠ 2 ∨ (lf.getD 0 0 ≠ dot ∧ lf.getD 1 0 ≠ dot))

/-- The body of the loop of `lexically_normal`. -/
def normalStep (str : Bytes) (temp : Bytes) (it : Iter) : Bytes :=
  if it.element = [dot] ∧ it.pos ≠ (begin str).pos ∧ it.pos ≠ (last str).pos then temp
  else if temp ≠ [] ∧ it.element = [dot, dot] ∧ dropsName (filename temp) then
    if remove_filename temp = [] ∧ (increment str it).pos ≠ str.length ∧
        (increment str it).pos = (last str).pos ∧ (last str).element = [dot] then
      append (remove_filename temp) [dot]
    else remove_filename temp
  else append temp it.element

/-- The loop of `lexically_normal`. -/
def normalLoop (str : Bytes) : ℕ → Iter → Bytes → Bytes
  | 0, _, temp => temp
  | k + 1, it, temp =>
    if it.pos ≠ str.length then normalLoop str k (increment str it) (normalStep str temp it)
    else temp

/-- `lexically_normal`. -/
def lexically_normal (str : Bytes) : Bytes :=
  if str = [] then []
  else
    let temp := normalLoop str (str.length + 1) (begin str) []
    if temp = [] then append temp [dot] else temp

/-- `path(destPath).relative_path().lexically_normal()`, as in `uploadFile`. -/
def normalizedPath (destPath : Bytes) : Bytes := lexically_normal (relative_path destPath)

/-! ### Normal relative paths -/

/-- A name: not empty and without a separator. -/
def IsName (n : Bytes) : Prop := n ≠ [] ∧ separator ∉ n

/-- One or more names with single separators between them. -/
inductive NormalRel : Bytes → Prop
  | name {n : Bytes} (hn : IsName n) : NormalRel n
  | cons {p n : Bytes} (hp : NormalRel p) (hn : IsName n) : NormalRel (p ++ separator :: n)

theorem isSep_eq_false_of_not_mem {str : Bytes} (h : separator ∉ str) (i : ℕ) :
    isSep str i = false := by
  rw [isSep, decide_eq_false_iff_not]
  by_cases hi : i < str.length
  · rw [List.getD_eq_getElem _ _ hi]
    intro hc
    exact h (hc ▸ List.getElem_mem hi)
  · rw [List.getD_eq_default _ _ (by omega)]
    decide

theorem isSep_append_left {a : Bytes} (b : Bytes) {i : ℕ} (h : i < a.length) :
    isSep (a ++ b) i = isSep a i := by
  rw [isSep, isSep, List.getD_append _ _ _ _ h]

theorem isSep_append_right (a b : Bytes) (i : ℕ) : isSep (a ++ b) (a.length + i) = isSep b i := by
  rw [isSep, isSep, List.getD_append_right _ _ _ _ (by omega), Nat.add_sub_cancel_left]

theorem isSep_drop (str : Bytes) (pos i : ℕ) : isSep (str.drop pos) i = isSep str (pos + i) := by
  rw [isSep, isSep, List.getD_eq_getElem?_getD, List.getD_eq_getElem?_getD, List.getElem?_drop]

theorem isSep_take {str : Bytes} {n i : ℕ} (h : i < n) : isSep (str.take n) i = isSep str i := by
  rw [isSep, isSep, List.getD_eq_getElem?_getD, List.getD_eq_getElem?_getD,
    List.getElem?_take_of_lt h]

theorem isSep_length (str : Bytes) : isSep str str.length = false := by
  rw [isSep, List.getD_eq_default _ _ (le_refl _)]
  decide

@[simp] theorem isSep_separator_cons (b : Bytes) : isSep (separator :: b) 0 = true := by
  simp [isSep]

theorem NormalRel.ne_nil {p : Bytes} (h : NormalRel p) : p ≠ [] := by
  cases h with
  | name hn => exact hn.1
  | cons hp hn => simp

theorem NormalRel.length_pos {p : Bytes} (h : NormalRel p) : 0 < p.length :=
  List.length_pos_iff.mpr h.ne_nil

/-- A normal relative path has no root. -/
theorem NormalRel.isSep_zero {p : Bytes} (h : NormalRel p) : isSep p 0 = false := by
  induction h with
  | name hn => exact isSep_eq_false_of_not_mem hn.2 0
  | cons hp hn ih => rw [isSep_append_left _ hp.length_pos, ih]

/-- A normal relative path has no trailing separator. -/
theorem NormalRel.isSep_last {p : Bytes} (h : NormalRel p) : isSep p (p.length - 1) = false := by
  cases h with
  | name hn => exact isSep_eq_false_of_not_mem hn.2 _
  | @cons q n hp hn =>
    have hlen := List.length_pos_iff.mpr hn.1
    have hpos : (q ++ separator :: n).length - 1 = q.length + (1 + (n.length - 1)) := by
      simp only [List.length_append, List.length_cons]
      omega
    rw [hpos, isSep_append_right, ← List.singleton_append]
    have hone := isSep_append_right [separator] n (n.length - 1)
    rw [List.length_singleton] at hone
    rw [hone, isSep_eq_false_of_not_mem hn.2]

/-- Without a leading separator there is no root directory. -/
theorem root_directory_start_eq_none {str : Bytes} (h : isSep str 0 = false) (size : ℕ) :
    root_directory_start str size = none := by
  simp [root_directory_start, h]

theorem findLastOf_eq_none {str : Bytes} (h : separator ∉ str) (n : ℕ) :
    findLastOf str n = none := by
  induction n with
  | zero => rfl
  | succ n ih => rw [findLastOf, isSep_eq_false_of_not_mem h, if_neg Bool.false_ne_true, ih]

/-- The search from inside the last name finds the separator in front of it. -/
theorem findLastOf_cons (q : Bytes) {n : Bytes} (h : separator ∉ n) (k : ℕ) :
    findLastOf (q ++ separator :: n) (q.length + 1 + k) = some q.length := by
  induction k with
  | zero =>
    have hsep : isSep (q ++ separator :: n) q.length = true := by
      have := isSep_append_right q (separator :: n) 0
      rwa [isSep_separator_cons] at this
    rw [Nat.add_zero, findLastOf, if_pos hsep]
  | succ k ih =>
    have hsep : isSep (q ++ separator :: n) (q.length + 1 + k) = false := by
      rw [Nat.add_assoc, isSep_append_right, ← List.singleton_append]
      have := isSep_append_right [separator] n k
      rw [List.length_singleton] at this
      rw [this, isSep_eq_false_of_not_mem h]
    rw [← Nat.add_assoc, findLastOf, hsep, if_neg Bool.false_ne_true, ih]

theorem filename_pos_name {n : Bytes} (hn : IsName n) : filename_pos n n.length = 0 := by
  have hsep := isSep_eq_false_of_not_mem hn.2
  simp [filename_pos, hsep, findLastOf_eq_none hn.2]

theorem filename_pos_cons {q n : Bytes} (hq : NormalRel q) (hn : IsName n) :
    filename_pos (q ++ separator :: n) (q ++ separator :: n).length = q.length + 1 := by
  have hp : NormalRel (q ++ separator :: n) := .cons hq hn
  have hlen : (q ++ separator :: n).length = q.length + 1 + n.length := by
    simp only [List.length_append, List.length_cons]
    omega
  have hlast := findLastOf_cons q hn.2 n.length
  rw [← hlen] at hlast
  simp only [filename_pos, hp.isSep_zero, hp.isSep_last, Bool.false_eq_true, false_and, and_false,
    if_false, hp.ne_nil, List.length_eq_zero_iff, hlast]

/-- **`filename` and `parent_path` of a single name.** -/
theorem filename_name {n : Bytes} (hn : IsName n) : filename n = n := by
  rw [filename, filename_pos_name hn]
  simp

theorem m_parent_path_end_name {n : Bytes} (hn : IsName n) : m_parent_path_end n = some 0 := by
  rw [m_parent_path_end, filename_pos_name hn]
  simp [skipSepsBack]

/-- The last name of a longer path. -/
theorem filename_cons {q n : Bytes} (hq : NormalRel q) (hn : IsName n) :
    filename (q ++ separator :: n) = n := by
  have hsep : isSep (q ++ separator :: n) (q.length + 1) = false := by
    rw [isSep_append_right, ← List.singleton_append]
    have := isSep_append_right [separator] n 0
    rw [List.length_singleton] at this
    rw [this, isSep_eq_false_of_not_mem hn.2]
  rw [filename, filename_pos_cons hq hn, hsep]
  simp only [Bool.false_eq_true, false_and, and_false, if_false]
  rw [← List.singleton_append, ← List.append_assoc]
  exact List.drop_left' (by simp)

/-- The end of what stands in front of the last separator. -/
theorem m_parent_path_end_cons {q n : Bytes} (hq : NormalRel q) (hn : IsName n) :
    m_parent_path_end (q ++ separator :: n) = some q.length := by
  have hp : NormalRel (q ++ separator :: n) := .cons hq hn
  have hsep : isSep (q ++ separator :: n) q.length = true := by
    have := isSep_append_right q (separator :: n) 0
    rwa [isSep_separator_cons] at this
  have hpos := hq.length_pos
  have hbefore : isSep (q ++ separator :: n) (q.length - 1) = false := by
    rw [isSep_append_left _ (by omega), hq.isSep_last]
  have hskip : skipSepsBack (q ++ separator :: n) none (q.length + 1) = q.length := by
    obtain ⟨l, hl⟩ : ∃ l, q.length = l + 1 := ⟨q.length - 1, by omega⟩
    rw [hl, Nat.add_sub_cancel] at hbefore
    rw [skipSepsBack, hsep]
    simp only [ne_eq, reduceCtorEq, not_false_eq_true, and_self, if_true]
    rw [hl, skipSepsBack, hbefore]
    simp
  simp only [m_parent_path_end, filename_pos_cons hq hn, root_directory_start_eq_none hp.isSep_zero,
    hskip, reduceCtorEq, false_and, and_false, if_false]

theorem parent_path_name {n : Bytes} (hn : IsName n) : parent_path n = [] := by
  rw [parent_path, m_parent_path_end_name hn]
  rfl

theorem parent_path_cons {q n : Bytes} (hq : NormalRel q) (hn : IsName n) :
    parent_path (q ++ separator :: n) = q := by
  rw [parent_path, m_parent_path_end_cons hq hn]
  exact List.take_left

theorem remove_filename_name {n : Bytes} (hn : IsName n) : remove_filename n = [] := by
  rw [remove_filename, m_parent_path_end_name hn]
  rfl

theorem remove_filename_cons {q n : Bytes} (hq : NormalRel q) (hn : IsName n) :
    remove_filename (q ++ separator :: n) = q := by
  rw [remove_filename, m_parent_path_end_cons hq hn]
  exact List.take_left

/-- **How a normal relative path is taken apart.** -/
theorem NormalRel.cases {p : Bytes} (h : NormalRel p) :
    (IsName p ∧ filename p = p ∧ parent_path p = []) ∨
      (NormalRel (parent_path p) ∧ IsName (filename p) ∧
        p = parent_path p ++ separator :: filename p) := by
  cases h with
  | name hn => exact Or.inl ⟨hn, filename_name hn, parent_path_name hn⟩
  | cons hq hn =>
    rw [parent_path_cons hq hn, filename_cons hq hn]
    exact Or.inr ⟨hq, hn, rfl⟩

/-- Appending a name. -/
theorem append_name {temp n : Bytes} (ht : temp = [] ∨ NormalRel temp) (hn : IsName n) :
    NormalRel (append temp n) := by
  rw [append, if_neg hn.1, isSep_eq_false_of_not_mem hn.2, if_neg Bool.false_ne_true]
  rcases ht with rfl | ht
  · exact .name hn
  · rw [appendSeparatorIfNeeded, if_pos ⟨ht.ne_nil, ht.isSep_last⟩, List.append_assoc]
    exact .cons ht hn

theorem remove_filename_normal {temp : Bytes} (h : NormalRel temp) :
    remove_filename temp = [] ∨ NormalRel (remove_filename temp) := by
  cases h with
  | name hn => exact Or.inl (remove_filename_name hn)
  | cons hq hn =>
    rw [remove_filename_cons hq hn]
    exact Or.inr hq

/-! ### What `lexically_normal` returns -/

theorem isName_dot : IsName [dot] := by
  constructor
  · simp
  · decide

theorem nameAt_not_mem (str : Bytes) (pos : ℕ) : separator ∉ nameAt str pos := by
  intro hc
  simpa using List.mem_takeWhile_imp hc

theorem isName_nameAt {str : Bytes} {pos : ℕ} (hpos : pos < str.length)
    (h : isSep str pos = false) : IsName (nameAt str pos) := by
  refine ⟨?_, nameAt_not_mem str pos⟩
  rw [isSep, List.getD_eq_getElem _ _ hpos, decide_eq_false_iff_not] at h
  rw [nameAt, List.drop_eq_getElem_cons hpos, List.takeWhile_cons_of_pos (by simpa using h)]
  simp

/-- What follows a name. -/
theorem drop_eq_nameAt (str : Bytes) (pos : ℕ) :
    ∃ rest, str.drop pos = nameAt str pos ++ rest ∧ (rest ≠ [] → isSep rest 0 = true) := by
  refine ⟨(str.drop pos).dropWhile (· ≠ separator), ?_, ?_⟩
  · exact (List.takeWhile_append_dropWhile).symm
  · intro hne
    obtain ⟨b, r, hbr⟩ := List.exists_cons_of_ne_nil hne
    have hhead := List.head_dropWhile_not (fun b => decide (b ≠ separator)) hne
    simp only [hbr, List.head_cons] at hhead
    rw [hbr, isSep]
    simpa using hhead

/-- What follows a run of separators. -/
theorem drop_eq_seps (str : Bytes) (pos : ℕ) :
    ∃ rest, str.drop pos = (str.drop pos).takeWhile (· = separator) ++ rest ∧
      isSep rest 0 = false := by
  refine ⟨(str.drop pos).dropWhile (· = separator), ?_, ?_⟩
  · exact (List.takeWhile_append_dropWhile).symm
  · cases hrest : (str.drop pos).dropWhile (· = separator) with
    | nil => rfl
    | cons b r =>
      have hhead := List.head_dropWhile_not (fun b => decide (b = separator)) (l := str.drop pos)
        (by rw [hrest]; simp)
      simp only [hrest, List.head_cons] at hhead
      rw [isSep]
      simpa using hhead

/-- After the separators comes a name or the end. -/
theorem skipSeps_spec {str : Bytes} {pos : ℕ} (hpos : pos ≤ str.length) :
    skipSeps str pos ≤ str.length ∧ isSep str (skipSeps str pos) = false := by
  obtain ⟨rest, hdrop, hrest⟩ := drop_eq_seps str pos
  have hlen := congrArg List.length hdrop
  rw [List.length_drop, List.length_append] at hlen
  constructor
  · rw [skipSeps]
    omega
  · have hget := isSep_append_right ((str.drop pos).takeWhile (· = separator)) rest 0
    rw [← hdrop, Nat.add_zero, isSep_drop, hrest] at hget
    exact hget

theorem nameAt_length_le (str : Bytes) (pos : ℕ) :
    (nameAt str pos).length ≤ str.length - pos := by
  rw [← List.length_drop]
  exact (List.takeWhile_prefix _).length_le

/-- The iterator is at the end or at a name inside the path. -/
def GoodIter (str : Bytes) (it : Iter) : Prop :=
  it.pos = str.length ∨ (IsName it.element ∧ it.pos + it.element.length ≤ str.length)

theorem goodIter_nameAt {str : Bytes} {pos : ℕ} (hpos : pos ≤ str.length)
    (h : isSep str pos = false) : GoodIter str ⟨pos, nameAt str pos⟩ := by
  rcases Nat.lt_or_eq_of_le hpos with hlt | heq
  · have hlen := nameAt_length_le str pos
    refine Or.inr ⟨isName_nameAt hlt h, ?_⟩
    show pos + (nameAt str pos).length ≤ str.length
    omega
  · exact Or.inl heq

theorem isNet_of_isName {n : Bytes} (hn : IsName n) : isNet n = false := by
  simp [isNet, isSep_eq_false_of_not_mem hn.2]

/-- The increment goes from a name to the next one, a trailing `.` or the
end, and always forward. -/
theorem increment_good {str : Bytes} {it : Iter} (h : GoodIter str it) (hend : it.pos ≠ str.length) :
    GoodIter str (increment str it) ∧ it.pos < (increment str it).pos := by
  obtain ⟨hn, hle⟩ := h.resolve_left hend
  have hlen := List.length_pos_iff.mpr hn.1
  rw [increment]
  by_cases hstop : it.pos + it.element.length = str.length
  · rw [if_pos hstop]
    refine ⟨Or.inl hstop, ?_⟩
    show it.pos < it.pos + it.element.length
    omega
  · rw [if_neg hstop, isNet_of_isName hn, if_neg Bool.false_ne_true]
    by_cases hsep : isSep str (it.pos + it.element.length) = true
    · rw [if_pos hsep]
      obtain ⟨hskip, hname⟩ := skipSeps_spec hle
      have hge : it.pos + it.element.length < skipSeps str (it.pos + it.element.length) := by
        rcases Nat.lt_or_eq_of_le (Nat.le_add_right (it.pos + it.element.length) _) with hlt | heq
        · exact hlt
        · rw [skipSeps, ← heq, hsep] at hname
          exact absurd hname (by decide)
      split
      · -- separators at the end of the path yield a dot
        rename_i hdot
        refine ⟨Or.inr ⟨isName_dot, ?_⟩, ?_⟩
        · show skipSeps str (it.pos + it.element.length) - 1 + 1 ≤ str.length
          omega
        · show it.pos < skipSeps str (it.pos + it.element.length) - 1
          omega
      · refine ⟨goodIter_nameAt hskip hname, ?_⟩
        show it.pos < skipSeps str (it.pos + it.element.length)
        omega
    · rw [if_neg hsep]
      refine ⟨goodIter_nameAt hle (by simpa using hsep), ?_⟩
      show it.pos < it.pos + it.element.length
      omega

/-- Iteration over a path without root starts at a name. -/
theorem begin_good {str : Bytes} (hne : str ≠ []) (h : isSep str 0 = false) :
    begin str = ⟨0, nameAt str 0⟩ := by
  have hfirst : first_element str = (0, (nameAt str 0).length) := by
    simp [first_element, hne, h]
  have htake : str.take (nameAt str 0).length = nameAt str 0 := by
    rw [nameAt, List.drop_zero]
    exact (List.prefix_iff_eq_take.mp (List.takeWhile_prefix _)).symm
  rw [begin, hfirst, List.drop_zero, htake]

theorem normalStep_normal {str temp : Bytes} {it : Iter} (ht : temp = [] ∨ NormalRel temp)
    (hn : IsName it.element) :
    normalStep str temp it = [] ∨ NormalRel (normalStep str temp it) := by
  rw [normalStep]
  split
  · exact ht
  · split
    · rename_i hdrop
      have hrem := remove_filename_normal (ht.resolve_left hdrop.1)
      split
      · exact Or.inr (append_name hrem isName_dot)
      · exact hrem
    · exact Or.inr (append_name ht hn)

theorem normalLoop_step {str : Bytes} {it : Iter} (k : ℕ) (temp : Bytes)
    (h : it.pos ≠ str.length) : normalLoop str (k + 1) it temp =
      normalLoop str k (increment str it) (normalStep str temp it) := by
  rw [normalLoop, if_pos h]

theorem normalLoop_normal {str : Bytes} : ∀ {k : ℕ} {it : Iter} {temp : Bytes}, GoodIter str it →
    (temp = [] ∨ NormalRel temp) →
      normalLoop str k it temp = [] ∨ NormalRel (normalLoop str k it temp) := by
  intro k
  induction k with
  | zero =>
    intro it temp _ ht
    exact ht
  | succ k ih =>
    intro it temp hit ht
    by_cases hend : it.pos = str.length
    · rw [normalLoop, if_neg (not_not.mpr hend)]
      exact ht
    · rw [normalLoop_step k temp hend]
      exact ih (increment_good hit hend).1 (normalStep_normal ht (hit.resolve_left hend).1)

/-- The bound on the rounds is never what ends the loop. -/
theorem normalLoop_fuel {str : Bytes} : ∀ {k : ℕ} {it : Iter} {temp : Bytes}, GoodIter str it →
    it.pos ≤ str.length → str.length - it.pos ≤ k →
      normalLoop str (k + 1) it temp = normalLoop str k it temp := by
  intro k
  induction k with
  | zero =>
    intro it temp _ hle hk
    have hend : it.pos = str.length := by omega
    simp only [normalLoop, hend, ne_eq, not_true, if_false]
  | succ k ih =>
    intro it temp hit hle hk
    by_cases hend : it.pos = str.length
    · simp only [normalLoop, hend, ne_eq, not_true, if_false]
    · rw [normalLoop_step (k + 1) temp hend, normalLoop_step k temp hend]
      obtain ⟨hgood, hlt⟩ := increment_good hit hend
      have hle' : (increment str it).pos ≤ str.length := by
        rcases hgood with heq | ⟨_, hin⟩
        · exact heq.le
        · omega
      exact ih hgood hle' (by omega)

/-- **`lexically_normal` of a path without root.** -/
theorem lexically_normal_normal {str : Bytes} (h : isSep str 0 = false) :
    lexically_normal str = [] ∨ NormalRel (lexically_normal str) := by
  rw [lexically_normal]
  by_cases hne : str = []
  · exact Or.inl (if_pos hne)
  · have hbegin : GoodIter str (begin str) := by
      rw [begin_good hne h]
      exact goodIter_nameAt (Nat.zero_le _) h
    have hloop := normalLoop_normal (k := str.length + 1) hbegin (Or.inl (Eq.refl []))
    rw [if_neg hne]
    dsimp only
    -- a path that ended with a separator keeps one dot at its end
    split
    · exact Or.inr (append_name hloop isName_dot)
    · exact hloop

/-! ### The bytes of a normalised path

No byte is invented besides the separator and the dot. -/

section Bytes

variable {P : UInt8 → Prop}

theorem append_bytes (hsep : P separator) {temp e : Bytes} (ht : ∀ b ∈ temp, P b)
    (he : ∀ b ∈ e, P b) : ∀ b ∈ append temp e, P b := by
  have happ : ∀ b ∈ appendSeparatorIfNeeded temp, P b := by
    intro b hb
    rw [appendSeparatorIfNeeded] at hb
    split at hb
    · rcases List.mem_append.mp hb with hb | hb
      · exact ht b hb
      · rw [List.mem_singleton.mp hb]
        exact hsep
    · exact ht b hb
  intro b hb
  rw [append] at hb
  split at hb
  · exact ht b hb
  · split at hb
    · exact (List.mem_append.mp hb).elim (ht b) (he b)
    · exact (List.mem_append.mp hb).elim (happ b) (he b)

theorem remove_filename_bytes {temp : Bytes} (ht : ∀ b ∈ temp, P b) :
    ∀ b ∈ remove_filename temp, P b := by
  intro b hb
  rw [remove_filename] at hb
  split at hb
  · exact ht b hb
  · exact ht b (List.mem_of_mem_take hb)

theorem increment_bytes (hsep : P separator) (hdot : P dot) {str : Bytes} (hs : ∀ b ∈ str, P b)
    (it : Iter) : ∀ b ∈ (increment str it).element, P b := by
  have hname : ∀ pos, ∀ b ∈ nameAt str pos, P b := fun pos b hb =>
    hs b (List.mem_of_mem_drop ((List.takeWhile_sublist _).mem hb))
  intro b hb
  rw [increment] at hb
  split_ifs at hb
  · simp at hb
  · rw [List.mem_singleton.mp hb]
    exact hsep
  · rw [List.mem_singleton.mp hb]
    exact hdot
  · exact hname _ b hb
  · exact hname _ b hb

theorem normalLoop_bytes (hsep : P separator) (hdot : P dot) {str : Bytes} (hs : ∀ b ∈ str, P b) :
    ∀ {k : ℕ} {it : Iter} {temp : Bytes}, (∀ b ∈ it.element, P b) → (∀ b ∈ temp, P b) →
      ∀ b ∈ normalLoop str k it temp, P b := by
  intro k
  induction k with
  | zero =>
    intro it temp _ ht
    exact ht
  | succ k ih =>
    intro it temp hit ht
    by_cases hend : it.pos = str.length
    · rw [normalLoop, if_neg (not_not.mpr hend)]
      exact ht
    · rw [normalLoop_step k temp hend]
      refine ih (increment_bytes hsep hdot hs it) ?_
      have hd : ∀ b ∈ [dot], P b := by
        intro b hb
        rw [List.mem_singleton.mp hb]
        exact hdot
      rw [normalStep]
      split_ifs
      · exact ht
      · exact append_bytes hsep (remove_filename_bytes ht) hd
      · exact remove_filename_bytes ht
      · exact append_bytes hsep ht hit

/-- A normalised path consists of bytes of the path it was made of, separators
and dots. -/
theorem normalizedPath_bytes (hsep : P separator) (hdot : P dot) {destPath : Bytes}
    (h : ∀ b ∈ destPath, P b) : ∀ b ∈ normalizedPath destPath, P b := by
  have hs : ∀ b ∈ relative_path destPath, P b := fun b hb => h b (List.mem_of_mem_drop hb)
  have hbegin : ∀ b ∈ (begin (relative_path destPath)).element, P b := fun b hb =>
    hs b (List.mem_of_mem_drop (List.mem_of_mem_take hb))
  have hloop := normalLoop_bytes (k := (relative_path destPath).length + 1) hsep hdot hs hbegin
    (fun b (hb : b ∈ []) => absurd hb (by simp))
  rw [normalizedPath, lexically_normal]
  split
  · simp
  · dsimp only
    split
    · refine append_bytes hsep hloop ?_
      intro b hb
      rw [List.mem_singleton.mp hb]
      exact hdot
    · exact hloop

end Bytes

theorem normalizedPath_nul {destPath : Bytes} (h : 0 ∉ destPath) : 0 ∉ normalizedPath destPath := by
  intro hc
  refine normalizedPath_bytes (P := fun b => b ≠ 0) (by decide) (by decide) ?_ 0 hc rfl
  rintro b hb rfl
  exact h hb

/-! ### What `relative_path` returns -/

/-- The stages of the loop of `relative_path`: a leading separator, a network
name, the root directory after it, and the position where the loop stops. -/
inductive RootIter (str : Bytes) : ℕ → Iter → Prop
  | leading {pos : ℕ} (hpos : pos < str.length) (h : isSep str (pos + 1) = false) :
      RootIter str 1 ⟨pos, [separator]⟩
  | network (h0 : isSep str 0 = true) (h1 : isSep str 1 = true) (hlen : 2 ≤ str.length)
      (h2 : str.length = 2 ∨ isSep str 2 = false) :
      RootIter str 2 ⟨0, str.take (2 + (nameAt str 2).length)⟩
  | root {pos : ℕ} (h0 : isSep str 0 = true) (h1 : isSep str 1 = true) (hge : 3 ≤ pos)
      (hfind : findFirstOf str 2 = some pos) : RootIter str 1 ⟨pos, [separator]⟩
  | stop {it : Iter} (hpos : isSep str it.pos = false) (hle : it.pos ≤ str.length)
      (h : it.pos = str.length ∨ isSep it.element 0 = false) : RootIter str 0 it

theorem rootIter_nameAt {str : Bytes} {pos : ℕ} (hle : pos ≤ str.length)
    (h : isSep str pos = false) : RootIter str 0 ⟨pos, nameAt str pos⟩ :=
  .stop h hle (Or.inr (isSep_eq_false_of_not_mem (nameAt_not_mem str pos) 0))

theorem rootIter_end {str : Bytes} {it : Iter} (h : it.pos = str.length) : RootIter str 0 it := by
  refine .stop ?_ h.le (Or.inl h)
  rw [h]
  exact isSep_length str

/-- The positions that `skipSeps` passes hold separators. -/
theorem isSep_of_lt_skipSeps {str : Bytes} {pos i : ℕ} (hpos : pos ≤ i) (hi : i < skipSeps str pos) :
    isSep str i = true := by
  obtain ⟨j, rfl⟩ : ∃ j, i = pos + j := ⟨i - pos, by omega⟩
  obtain ⟨rest, hdrop, -⟩ := drop_eq_seps str pos
  have hj : j < ((str.drop pos).takeWhile (· = separator)).length := by
    rw [skipSeps] at hi
    omega
  have hget := isSep_append_left rest hj
  rw [← hdrop, isSep_drop] at hget
  rw [hget, isSep, List.getD_eq_getElem _ _ hj]
  simpa using List.mem_takeWhile_imp (List.getElem_mem hj)

/-- `find_first_of` returns the first separator. -/
theorem findFirstOf_spec {str : Bytes} {pos q : ℕ} (h : findFirstOf str pos = some q) :
    q = pos + (nameAt str pos).length ∧ q < str.length ∧ isSep str q = true ∧
      ∀ i, pos ≤ i → i < q → isSep str i = false := by
  rw [findFirstOf] at h
  split at h
  · rename_i hlt
    rw [Option.some.injEq] at h
    subst h
    obtain ⟨rest, hdrop, hrest⟩ := drop_eq_nameAt str pos
    refine ⟨rfl, hlt, ?_, ?_⟩
    · have hne : rest ≠ [] := by
        rintro rfl
        have hlen := congrArg List.length hdrop
        rw [List.length_drop, List.append_nil] at hlen
        omega
      have hget := isSep_append_right (nameAt str pos) rest 0
      rw [← hdrop, Nat.add_zero, isSep_drop, hrest hne] at hget
      exact hget
    · intro i hi hiq
      obtain ⟨j, rfl⟩ : ∃ j, i = pos + j := ⟨i - pos, by omega⟩
      have hget := isSep_append_left rest (show j < (nameAt str pos).length by omega)
      rw [← hdrop, isSep_drop] at hget
      rw [hget, isSep_eq_false_of_not_mem (nameAt_not_mem str pos)]
  · exact absurd h (by simp)

/-- The run of separators from `q` is left at `q`. -/
theorem leftmostSep_eq {str : Bytes} {q : ℕ} (hq : 0 < q) (hbefore : isSep str (q - 1) = false)
    (j : ℕ) (hrun : ∀ i < j, isSep str (q + i) = true) : leftmostSep str (q + j) = q := by
  induction j with
  | zero =>
    obtain ⟨l, rfl⟩ : ∃ l, q = l + 1 := ⟨q - 1, by omega⟩
    rw [Nat.add_sub_cancel] at hbefore
    rw [Nat.add_zero, leftmostSep, hbefore, if_neg Bool.false_ne_true]
  | succ j ih =>
    rw [← Nat.add_assoc, leftmostSep, if_pos (hrun j (Nat.lt_succ_self j))]
    exact ih fun i hi => hrun i (by omega)

/-- The separators after a network name are the root directory. -/
theorem is_root_separator_root {str : Bytes} {q j : ℕ} (h0 : isSep str 0 = true)
    (h1 : isSep str 1 = true) (hge : 3 ≤ q) (hfind : findFirstOf str 2 = some q)
    (hrun : ∀ i < j, isSep str (q + i) = true) : is_root_separator str (q + j) = true := by
  -- the character before is the last one of the network name
  have hbefore : isSep str (q - 1) = false :=
    (findFirstOf_spec hfind).2.2.2 (q - 1) (by omega) (by omega)
  have hleft := leftmostSep_eq (by omega) hbefore j hrun
  rw [is_root_separator, hleft, if_neg (by omega), h0, h1, hfind]
  have : ¬ q < 3 := by omega
  simp [this]

/-- One round of the loop goes to a later stage. -/
theorem increment_root {str : Bytes} {n : ℕ} {it : Iter} (h : RootIter str (n + 1) it) :
    ∃ m ≤ n, RootIter str m (increment str it) := by
  cases h with
  | @leading pos hpos h =>
    refine ⟨0, Nat.zero_le _, ?_⟩
    rw [increment]
    simp only [List.length_singleton, h]
    split
    · rename_i hend
      exact rootIter_end hend
    · exact rootIter_nameAt (by omega) h
  | network h0 h1 hlen h2 =>
    have hname := nameAt_length_le str 2
    have helem : (str.take (2 + (nameAt str 2).length)).length = 2 + (nameAt str 2).length := by
      rw [List.length_take]
      omega
    rw [increment]
    simp only [helem, Nat.zero_add]
    by_cases hend : 2 + (nameAt str 2).length = str.length
    · rw [if_pos hend]
      exact ⟨0, Nat.zero_le _, rootIter_end hend⟩
    · rw [if_neg hend]
      by_cases hsep : isSep str (2 + (nameAt str 2).length) = true
      · -- a network name followed by its root directory
        have h2' : isSep str 2 = false := h2.resolve_left (by omega)
        have hpos := List.length_pos_iff.mpr (isName_nameAt (by omega) h2').1
        have hnet : isNet (str.take (2 + (nameAt str 2).length)) = true := by
          rw [isNet, helem, isSep_take (by omega), isSep_take (by omega), isSep_take (by omega), h0,
            h1, h2']
          simpa using hpos
        rw [if_pos hsep, if_pos hnet]
        refine ⟨1, le_refl _, .root h0 h1 (by omega) ?_⟩
        rw [findFirstOf, if_pos (by omega)]
      · rw [if_neg hsep]
        exact ⟨0, Nat.zero_le _, rootIter_nameAt (by omega) (by simpa using hsep)⟩
  | @root pos h0 h1 hge hfind =>
    refine ⟨0, Nat.zero_le _, ?_⟩
    obtain ⟨-, hpos, hsepq, -⟩ := findFirstOf_spec hfind
    rw [increment]
    simp only [List.length_singleton]
    by_cases hend : pos + 1 = str.length
    · rw [if_pos hend]
      exact rootIter_end hend
    · rw [if_neg hend]
      by_cases hsep : isSep str (pos + 1) = true
      · rw [if_pos hsep]
        obtain ⟨hskip, hname⟩ := skipSeps_spec (show pos + 1 ≤ str.length by omega)
        have hge' : pos + 1 ≤ skipSeps str (pos + 1) := Nat.le_add_right _ _
        have hroot : is_root_separator str (skipSeps str (pos + 1) - 1) = true := by
          have heq : skipSeps str (pos + 1) - 1 = pos + (skipSeps str (pos + 1) - 1 - pos) := by omega
          rw [heq]
          refine is_root_separator_root h0 h1 hge hfind fun i hi => ?_
          rcases Nat.eq_zero_or_pos i with rfl | hi0
          · exact hsepq
          · exact isSep_of_lt_skipSeps (show pos + 1 ≤ pos + i by omega) (by omega)
        rw [hroot]
        simp only [isNet, List.length_singleton]
        simp only [Bool.true_eq_false, and_false, if_false]
        exact rootIter_nameAt hskip hname
      · rw [if_neg hsep]
        exact rootIter_nameAt (by omega) (by simpa using hsep)

/-- The loop ends where it should: not at a separator. -/
theorem relativeLoop_stop {str : Bytes} : ∀ {k n : ℕ} {it : Iter}, RootIter str n it → n ≤ k →
    isSep str (relativeLoop str k it).pos = false := by
  intro k
  induction k with
  | zero =>
    intro n it h hn
    obtain rfl : n = 0 := by omega
    cases h with
    | stop hpos hle h => exact hpos
  | succ k ih =>
    intro n it h hn
    rw [relativeLoop]
    cases n with
    | zero =>
      cases h with
      | stop hpos hle h =>
        have hnot : ¬ (it.pos ≠ str.length ∧ isSep it.element 0 = true) := by
          rintro ⟨hne, hsep⟩
          rw [h.resolve_left hne] at hsep
          exact absurd hsep (by decide)
        rw [if_neg hnot]
        exact hpos
    | succ n =>
      -- still an element of the root: the loop goes on
      obtain ⟨m, hm, hnext⟩ := increment_root h
      by_cases hc : it.pos ≠ str.length ∧ isSep it.element 0 = true
      · rw [if_pos hc]
        exact ih hnext (by omega)
      · exfalso
        apply hc
        cases h with
        | leading hpos h => exact ⟨hpos.ne, rfl⟩
        | network h0 h1 hlen h2 =>
          refine ⟨?_, ?_⟩
          · show 0 ≠ str.length
            omega
          · show isSep (str.take (2 + (nameAt str 2).length)) 0 = true
            rw [isSep_take (by omega), h0]
        | root h0 h1 hge hfind => exact ⟨(findFirstOf_spec hfind).2.1.ne, rfl⟩

/-- The stage in which the loop starts. -/
theorem begin_root (str : Bytes) : ∃ n ≤ str.length + 1, RootIter str n (begin str) := by
  by_cases hnil : str = []
  · subst hnil
    exact ⟨0, Nat.zero_le _, rootIter_end rfl⟩
  · have hpos := List.length_pos_iff.mpr hnil
    rw [begin, first_element, if_neg hnil]
    by_cases hnet : 2 ≤ str.length ∧ isSep str 0 = true ∧ isSep str 1 = true ∧
        (str.length = 2 ∨ isSep str 2 = false)
    · rw [if_pos hnet]
      obtain ⟨hlen, h0, h1, h2⟩ := hnet
      exact ⟨2, by omega, .network h0 h1 hlen h2⟩
    · rw [if_neg hnet]
      by_cases h0 : isSep str 0 = true
      · -- extra leading separators are passed over
        rw [if_pos h0]
        obtain ⟨hle, hstop⟩ := skipSeps_spec (Nat.zero_le str.length)
        rw [skipSeps, List.drop_zero, Nat.zero_add] at hle hstop
        have hrun : 0 < (str.takeWhile (· = separator)).length := by
          by_contra hc
          have hzero : (str.takeWhile (· = separator)).length = 0 := by omega
          rw [hzero, h0] at hstop
          exact absurd hstop (by decide)
        refine ⟨1, by omega, ?_⟩
        have helem : (str.drop ((str.takeWhile (· = separator)).length - 1)).take 1 = [separator] := by
          have hlt : (str.takeWhile (· = separator)).length - 1 < str.length := by omega
          have hin : (str.takeWhile (· = separator)).length - 1 < skipSeps str 0 := by
            rw [skipSeps, List.drop_zero]
            omega
          have hsep := isSep_of_lt_skipSeps (Nat.zero_le _) hin
          rw [isSep, List.getD_eq_getElem _ _ hlt, decide_eq_true_iff] at hsep
          rw [List.drop_eq_getElem_cons hlt, List.take_succ_cons, List.take_zero, hsep]
        rw [helem]
        refine .leading (by omega) ?_
        rwa [Nat.sub_add_cancel hrun]
      · rw [if_neg h0]
        refine ⟨0, Nat.zero_le _, .stop ?_ (Nat.zero_le _) (Or.inr ?_)⟩
        · simpa using h0
        · show isSep ((str.drop 0).take (nameAt str 0).length) 0 = false
          have hlen := List.length_pos_iff.mpr
            (isName_nameAt hpos (by simpa using h0 : isSep str 0 = false)).1
          rw [isSep_take hlen, List.drop_zero]
          simpa using h0

theorem relative_path_no_root (str : Bytes) : isSep (relative_path str) 0 = false := by
  obtain ⟨n, hn, hroot⟩ := begin_root str
  rw [relative_path, isSep_drop, Nat.add_zero]
  exact relativeLoop_stop hroot hn

/-- **The paths that `uploadFile` stores** are empty or normal and relative. -/
theorem normalizedPath_normal (destPath : Bytes) :
    normalizedPath destPath = [] ∨ NormalRel (normalizedPath destPath) :=
  lexically_normal_normal (relative_path_no_root destPath)

end Path

end Nebula
