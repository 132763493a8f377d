/-
Finite maps kept as key-sorted association lists.

`SortedMap κ ν` is the list of its entries together with the proof that the
keys strictly increase, so a key occurs at most once and the iteration order
is the order of the keys.  The two ways of writing a key differ only in what
happens to a value that is already there, so both are instances of
`insertWith`:

* `insert` — an existing binding wins (`find?_insert`);
* `assign` — the new binding wins (`find?_assign`).

Membership in `entries` and the lookup `find?` say the same thing
(`mem_entries_iff`), and a run of `assign`s over pairwise distinct keys stores
exactly the listed pairs (`assignAll_perm`).
-/
import Mathlib

/-- A finite map, as the strictly key-sorted list of its entries. -/
structure SortedMap (κ ν : Type*) [LinearOrder κ] where
  entries : List (κ × ν)
  sorted : (entries.map Prod.fst).Pairwise (· < ·)

namespace SortedMap

variable {κ ν : Type*} [LinearOrder κ]

/-! ### The operations on lists of entries -/

/-- Lookup in a list of entries. -/
def findList (k : κ) : List (κ × ν) → Option ν
  | [] => none
  | (a, w) :: l => if k = a then some w else findList k l

/-- Write `v` at `k`, or `g w` if the value `w` is already there. -/
def insertList (k : κ) (v : ν) (g : ν → ν) : List (κ × ν) → List (κ × ν)
  | [] => [(k, v)]
  | (a, w) :: l =>
    if k < a then (k, v) :: (a, w) :: l
    else if k = a then (a, g w) :: l
    else (a, w) :: insertList k v g l

/-- Remove the entry at `k`. -/
def eraseList (k : κ) (l : List (κ × ν)) : List (κ × ν) :=
  l.filter fun e => decide (e.1 ≠ k)

theorem mem_keys_insertList {k : κ} {v : ν} {g : ν → ν} {l : List (κ × ν)} {a : κ} :
    a ∈ (insertList k v g l).map Prod.fst ↔ a = k ∨ a ∈ l.map Prod.fst := by
  induction l with
  | nil => simp [insertList]
  | cons e l ih =>
    obtain ⟨b, w⟩ := e
    rw [insertList]
    by_cases h1 : k < b
    · simp [h1]
    · rw [if_neg h1]
      by_cases h2 : k = b
      · subst h2
        simp
      · rw [if_neg h2, List.map_cons, List.mem_cons, ih, List.map_cons, List.mem_cons]
        exact or_left_comm

theorem sorted_insertList {k : κ} {v : ν} {g : ν → ν} {l : List (κ × ν)}
    (h : (l.map Prod.fst).Pairwise (· < ·)) :
    ((insertList k v g l).map Prod.fst).Pairwise (· < ·) := by
  induction l with
  | nil => simp [insertList]
  | cons e l ih =>
    obtain ⟨b, w⟩ := e
    rw [List.map_cons, List.pairwise_cons] at h
    obtain ⟨hb, hl⟩ := h
    rw [insertList]
    by_cases h1 : k < b
    · rw [if_pos h1, List.map_cons, List.map_cons, List.pairwise_cons]
      refine ⟨fun a ha => ?_, List.pairwise_cons.mpr ⟨hb, hl⟩⟩
      rcases List.mem_cons.mp ha with rfl | ha
      · exact h1
      · exact h1.trans (hb a ha)
    · rw [if_neg h1]
      by_cases h2 : k = b
      · rw [if_pos h2, List.map_cons]
        exact List.pairwise_cons.mpr ⟨hb, hl⟩
      · rw [if_neg h2, List.map_cons]
        refine List.pairwise_cons.mpr ⟨fun a ha => ?_, ih hl⟩
        rcases mem_keys_insertList.mp ha with rfl | ha
        · exact lt_of_le_of_ne (not_lt.mp h1) (Ne.symm h2)
        · exact hb a ha

theorem findList_eq_none {k : κ} {l : List (κ × ν)} :
    findList k l = none ↔ k ∉ l.map Prod.fst := by
  induction l with
  | nil => simp [findList]
  | cons e l ih =>
    obtain ⟨b, w⟩ := e
    rw [findList]
    by_cases h : k = b
    · simp [h]
    · rw [if_neg h, ih]
      simp [h]

theorem findList_insertList_self {k : κ} {v : ν} {g : ν → ν} {l : List (κ × ν)}
    (h : (l.map Prod.fst).Pairwise (· < ·)) :
    findList k (insertList k v g l) = some (((findList k l).map g).getD v) := by
  induction l with
  | nil => simp [insertList, findList]
  | cons e l ih =>
    obtain ⟨b, w⟩ := e
    rw [List.map_cons, List.pairwise_cons] at h
    obtain ⟨hb, hl⟩ := h
    rw [insertList]
    by_cases h1 : k < b
    · -- `k` is below every key, so it was absent
      have hnot : findList k ((b, w) :: l) = none := by
        refine findList_eq_none.mpr fun hk => ?_
        rcases List.mem_cons.mp hk with rfl | hk
        · exact lt_irrefl _ h1
        · exact lt_asymm h1 (hb k hk)
      rw [if_pos h1, hnot, findList, if_pos rfl]
      rfl
    · rw [if_neg h1]
      by_cases h2 : k = b
      · rw [if_pos h2, findList, if_pos h2, findList, if_pos h2]
        rfl
      · rw [if_neg h2, findList, if_neg h2, findList, if_neg h2]
        exact ih hl

theorem findList_insertList_of_ne {k k' : κ} {v : ν} {g : ν → ν} {l : List (κ × ν)}
    (hk : k' ≠ k) : findList k' (insertList k v g l) = findList k' l := by
  induction l with
  | nil => simp [insertList, findList, hk]
  | cons e l ih =>
    obtain ⟨b, w⟩ := e
    rw [insertList]
    by_cases h1 : k < b
    · rw [if_pos h1, findList, if_neg hk]
    · rw [if_neg h1]
      by_cases h2 : k = b
      · subst h2
        rw [if_pos rfl, findList, if_neg hk, findList, if_neg hk]
      · rw [if_neg h2, findList, findList, ih]

theorem findList_eraseList {k k' : κ} {l : List (κ × ν)} :
    findList k' (eraseList k l) = if k' = k then none else findList k' l := by
  induction l with
  | nil => simp [eraseList, findList]
  | cons e l ih =>
    obtain ⟨b, w⟩ := e
    rw [eraseList] at ih ⊢
    by_cases hb : b = k
    · rw [List.filter_cons_of_neg (by simp [hb]), ih, findList]
      by_cases hk : k' = k
      · simp [hk]
      · rw [if_neg hk, if_neg hk, if_neg (by rw [hb]; exact hk)]
    · rw [List.filter_cons_of_pos (by simp [hb]), findList, findList, ih]
      by_cases hk : k' = k
      · subst hk
        simp [Ne.symm hb]
      · simp [hk]

theorem mem_of_findList {k : κ} {v : ν} {l : List (κ × ν)} (h : findList k l = some v) :
    (k, v) ∈ l := by
  induction l with
  | nil => simp [findList] at h
  | cons e l ih =>
    obtain ⟨b, w⟩ := e
    rw [findList] at h
    by_cases hb : k = b
    · rw [if_pos hb, Option.some_inj] at h
      rw [hb, h]
      exact List.mem_cons_self
    · rw [if_neg hb] at h
      exact List.mem_cons_of_mem _ (ih h)

theorem findList_of_mem {k : κ} {v : ν} {l : List (κ × ν)}
    (hs : (l.map Prod.fst).Pairwise (· < ·)) (h : (k, v) ∈ l) : findList k l = some v := by
  induction l with
  | nil => simp at h
  | cons e l ih =>
    obtain ⟨b, w⟩ := e
    rw [List.map_cons, List.pairwise_cons] at hs
    obtain ⟨hb, hl⟩ := hs
    rw [findList]
    rcases List.mem_cons.mp h with h | h
    · obtain ⟨rfl, rfl⟩ := Prod.mk.inj h
      rw [if_pos rfl]
    · have hlt : b < k := hb k (List.mem_map_of_mem (f := Prod.fst) h)
      rw [if_neg (ne_of_gt hlt)]
      exact ih hl h

theorem insertList_perm {k : κ} {v : ν} {g : ν → ν} {l : List (κ × ν)}
    (h : k ∉ l.map Prod.fst) : (insertList k v g l).Perm ((k, v) :: l) := by
  induction l with
  | nil => simp [insertList]
  | cons e l ih =>
    obtain ⟨b, w⟩ := e
    rw [List.map_cons, List.mem_cons, not_or] at h
    rw [insertList]
    by_cases h1 : k < b
    · rw [if_pos h1]
    · rw [if_neg h1, if_neg h.1]
      exact ((ih h.2).cons _).trans (List.Perm.swap _ _ _)

theorem length_insertList_le {k : κ} {v : ν} {g : ν → ν} {l : List (κ × ν)} :
    (insertList k v g l).length ≤ l.length + 1 := by
  induction l with
  | nil => simp [insertList]
  | cons e l ih =>
    rw [insertList]
    split_ifs <;> simp only [List.length_cons] <;> omega

/-! ### Maps -/

/-- The map with no entries. -/
def empty : SortedMap κ ν := ⟨[], List.Pairwise.nil⟩

/-- The value at `k`, if there is one. -/
def find? (m : SortedMap κ ν) (k : κ) : Option ν := findList k m.entries

/-- Write `v` at `k`, or `g w` if the value `w` is already there. -/
def insertWith (m : SortedMap κ ν) (k : κ) (v : ν) (g : ν → ν) : SortedMap κ ν :=
  ⟨insertList k v g m.entries, sorted_insertList m.sorted⟩

/-- Add a binding; an existing binding of the same key is kept. -/
def insert (m : SortedMap κ ν) (k : κ) (v : ν) : SortedMap κ ν := m.insertWith k v id

/-- Add a binding, overwriting an existing binding of the same key. -/
def assign (m : SortedMap κ ν) (k : κ) (v : ν) : SortedMap κ ν :=
  m.insertWith k v fun _ => v

/-- Remove a key. -/
def erase (m : SortedMap κ ν) (k : κ) : SortedMap κ ν :=
  ⟨eraseList k m.entries, (m.sorted.sublist (List.Sublist.map _ List.filter_sublist))⟩

/-- The number of entries. -/
def size (m : SortedMap κ ν) : ℕ := m.entries.length

/-- The values in the order of their keys. -/
def values (m : SortedMap κ ν) : List ν := m.entries.map Prod.snd

/-- `assign` for every pair of a list, from left to right. -/
def assignAll (m : SortedMap κ ν) (l : List (κ × ν)) : SortedMap κ ν :=
  l.foldl (fun m e => m.assign e.1 e.2) m

variable {m : SortedMap κ ν} {k k' : κ} {v w : ν}

@[simp] theorem find?_empty : (empty : SortedMap κ ν).find? k = none := rfl

@[simp] theorem entries_empty : (empty : SortedMap κ ν).entries = [] := rfl

theorem find?_insertWith (g : ν → ν) :
    (m.insertWith k v g).find? k' =
      if k' = k then some (((m.find? k).map g).getD v) else m.find? k' := by
  by_cases h : k' = k
  · rw [if_pos h, h]
    exact findList_insertList_self m.sorted
  · rw [if_neg h]
    exact findList_insertList_of_ne h

theorem find?_insert :
    (m.insert k v).find? k' = if k' = k then some ((m.find? k).getD v) else m.find? k' := by
  rw [insert, find?_insertWith]
  simp

theorem find?_assign :
    (m.assign k v).find? k' = if k' = k then some v else m.find? k' := by
  rw [assign, find?_insertWith]
  by_cases h : k' = k
  · rw [if_pos h, if_pos h]
    cases m.find? k <;> rfl
  · rw [if_neg h, if_neg h]

theorem find?_erase : (m.erase k).find? k' = if k' = k then none else m.find? k' :=
  findList_eraseList

/-- Membership in the entry list is lookup. -/
theorem mem_entries_iff : (k, v) ∈ m.entries ↔ m.find? k = some v :=
  ⟨findList_of_mem m.sorted, mem_of_findList⟩

theorem find?_eq_none_iff : m.find? k = none ↔ k ∉ m.entries.map Prod.fst :=
  findList_eq_none

theorem find?_isSome_iff : (m.find? k).isSome ↔ k ∈ m.entries.map Prod.fst := by
  rw [← not_iff_not, ← find?_eq_none_iff]
  simp

theorem nodup_keys (m : SortedMap κ ν) : (m.entries.map Prod.fst).Nodup :=
  m.sorted.imp fun h => ne_of_lt h

theorem mem_values_iff : v ∈ m.values ↔ ∃ k, m.find? k = some v := by
  rw [values, List.mem_map]
  constructor
  · rintro ⟨⟨k, w⟩, hmem, rfl⟩
    exact ⟨k, mem_entries_iff.mp hmem⟩
  · rintro ⟨k, hk⟩
    exact ⟨(k, v), mem_entries_iff.mpr hk, rfl⟩

/-- Writing a key that is absent adds one entry and keeps the others. -/
theorem insertWith_perm (g : ν → ν) (h : m.find? k = none) :
    (m.insertWith k v g).entries.Perm ((k, v) :: m.entries) :=
  insertList_perm (find?_eq_none_iff.mp h)

theorem size_assign_le : (m.assign k v).size ≤ m.size + 1 :=
  length_insertList_le

theorem size_assignAll_le : ∀ (l : List (κ × ν)) {m : SortedMap κ ν},
    (m.assignAll l).size ≤ m.size + l.length := by
  intro l
  induction l with
  | nil =>
    intro m
    exact le_refl _
  | cons e l ih =>
    intro m
    have hstep := size_assign_le (m := m) (k := e.1) (v := e.2)
    have hrest := ih (m := m.assign e.1 e.2)
    rw [List.length_cons]
    show ((m.assign e.1 e.2).assignAll l).size ≤ _
    omega

/-- Every binding after assigning a list comes from the list or was there. -/
theorem mem_of_find?_assignAll : ∀ {l : List (κ × ν)} {m : SortedMap κ ν},
    (m.assignAll l).find? k = some v → (k, v) ∈ l ∨ m.find? k = some v := by
  intro l
  induction l with
  | nil =>
    intro m h
    exact Or.inr h
  | cons e l ih =>
    intro m h
    rcases ih (m := m.assign e.1 e.2) h with hl | hm
    · exact Or.inl (List.mem_cons_of_mem _ hl)
    · rw [find?_assign] at hm
      split at hm
      · rename_i heq
        rw [heq, ← Option.some.inj hm]
        exact Or.inl List.mem_cons_self
      · exact Or.inr hm

/-- Assigning pairwise distinct absent keys stores exactly the listed pairs. -/
theorem assignAll_perm : ∀ {l : List (κ × ν)} {m : SortedMap κ ν},
    (l.map Prod.fst).Nodup → (∀ e ∈ l, m.find? e.1 = none) →
      (m.assignAll l).entries.Perm (l ++ m.entries) := by
  intro l
  induction l with
  | nil =>
    intro m _ _
    exact List.Perm.refl _
  | cons e l ih =>
    intro m hnd habs
    obtain ⟨a, w⟩ := e
    rw [List.map_cons, List.nodup_cons] at hnd
    have hstep : ∀ e ∈ l, (m.assign a w).find? e.1 = none := by
      intro e he
      have hne : e.1 ≠ a := by
        rintro rfl
        exact hnd.1 (List.mem_map.mpr ⟨e, he, rfl⟩)
      rw [find?_assign, if_neg hne]
      exact habs e (List.mem_cons_of_mem _ he)
    have hperm : (m.assign a w).entries.Perm ((a, w) :: m.entries) :=
      insertWith_perm _ (habs (a, w) List.mem_cons_self)
    calc ((m.assign a w).assignAll l).entries
        |>.Perm (l ++ (m.assign a w).entries) := ih hnd.2 hstep
      _ |>.Perm (l ++ (a, w) :: m.entries) := hperm.append_left l
      _ |>.Perm ((a, w) :: l ++ m.entries) := List.perm_middle

/-! ### Scans from a key on -/

/-- The entries from the first key on that is not below `k`. -/
def lowerBound (m : SortedMap κ ν) (k : κ) : List (κ × ν) :=
  m.entries.dropWhile fun e => decide (e.1 < k)

/-- Entries with a property that only keys from `k` on have. -/
theorem filter_lowerBound {P : κ × ν → Bool} (h : ∀ e ∈ m.entries, P e = true → k ≤ e.1) :
    (m.lowerBound k).filter P = m.entries.filter P := by
  have hbelow : (m.entries.takeWhile fun e => decide (e.1 < k)).filter P = [] := by
    rw [List.filter_eq_nil_iff]
    intro e he hP
    have hlt : e.1 < k :=
      of_decide_eq_true (List.mem_takeWhile_imp (p := fun a : κ × ν => decide (a.1 < k)) he)
    exact absurd (h e ((List.takeWhile_sublist _).subset he) hP) (not_le.mpr hlt)
  have hsplit := congrArg (List.filter P)
    (List.takeWhile_append_dropWhile (p := fun e : κ × ν => decide (e.1 < k)) (l := m.entries))
  rw [List.filter_append, hbelow, List.nil_append] at hsplit
  exact hsplit

theorem sorted_lowerBound (m : SortedMap κ ν) (k : κ) :
    ((m.lowerBound k).map Prod.fst).Pairwise (· < ·) :=
  m.sorted.sublist ((List.dropWhile_sublist _).map Prod.fst)

theorem le_of_mem_dropWhile {e : κ × ν} : ∀ {l : List (κ × ν)},
    (l.map Prod.fst).Pairwise (· < ·) → e ∈ l.dropWhile (fun a => decide (a.1 < k)) → k ≤ e.1 := by
  intro l
  induction l with
  | nil => intro _ he; exact absurd he List.not_mem_nil
  | cons a l ih =>
    intro hsorted he
    rw [List.map_cons, List.pairwise_cons] at hsorted
    rw [List.dropWhile_cons] at he
    by_cases ha : a.1 < k
    · rw [if_pos (decide_eq_true ha)] at he
      exact ih hsorted.2 he
    · rw [if_neg (by simpa using ha)] at he
      rcases List.mem_cons.mp he with heq | he
      · exact heq ▸ not_lt.mp ha
      · exact (not_lt.mp ha).trans (hsorted.1 e.1 (List.mem_map_of_mem he)).le

theorem mem_lowerBound {e : κ × ν} : e ∈ m.lowerBound k ↔ e ∈ m.entries ∧ k ≤ e.1 := by
  constructor
  · intro he
    exact ⟨(List.dropWhile_sublist _).subset he, le_of_mem_dropWhile m.sorted he⟩
  · rintro ⟨he, hle⟩
    have hmem : e ∈ m.entries.filter fun a => decide (k ≤ a.1) :=
      List.mem_filter.mpr ⟨he, decide_eq_true hle⟩
    rw [← filter_lowerBound fun a _ ha => of_decide_eq_true ha] at hmem
    exact (List.mem_filter.mp hmem).1

/-- **A scan that stops at the first miss** finds everything exactly when
nothing is missed before something that is found. -/
theorem takeWhile_eq_filter_iff {P : κ × ν → Bool} : ∀ {l : List (κ × ν)},
    (l.map Prod.fst).Pairwise (· < ·) →
    (l.takeWhile P = l.filter P ↔ ∀ a ∈ l, ∀ b ∈ l, a.1 < b.1 → P b = true → P a = true) := by
  intro l
  induction l with
  | nil =>
    intro _
    exact ⟨fun _ a ha => absurd ha List.not_mem_nil, fun _ => rfl⟩
  | cons e l ih =>
    intro hsorted
    rw [List.map_cons, List.pairwise_cons] at hsorted
    obtain ⟨hfirst, hrest⟩ := hsorted
    have hlt : ∀ b ∈ l, e.1 < b.1 := fun b hb => hfirst b.1 (List.mem_map_of_mem hb)
    by_cases he : P e = true
    · -- the first entry is in both lists, and no entry comes before it
      rw [List.takeWhile_cons_of_pos he, List.filter_cons_of_pos he, List.cons.injEq,
        and_iff_right rfl, ih hrest]
      constructor
      · intro h a ha b hb hab hPb
        rcases List.mem_cons.mp ha with ha | ha
        · exact ha ▸ he
        · rcases List.mem_cons.mp hb with hb | hb
          · exact absurd (hb ▸ hlt a ha) (not_lt.mpr hab.le)
          · exact h a ha b hb hab hPb
      · intro h a ha b hb
        exact h a (List.mem_cons_of_mem e ha) b (List.mem_cons_of_mem e hb)
    · -- the scan ends at once, so nothing behind may match
      rw [List.takeWhile_cons_of_neg he, List.filter_cons_of_neg he, eq_comm, List.filter_eq_nil_iff]
      constructor
      · intro h a ha b hb hab hPb
        rcases List.mem_cons.mp hb with hb | hb
        · exact absurd (hb ▸ hPb) he
        · exact absurd hPb (h b hb)
      · intro h b hb hPb
        exact he (h e List.mem_cons_self b (List.mem_cons_of_mem e hb) (hlt b hb) hPb)

/-! ### Maps from their own entries -/

/-- A map is determined by which entries it has. -/
theorem eq_of_perm {m m' : SortedMap κ ν} (h : m.entries.Perm m'.entries) : m = m' := by
  have hkeys : ∀ n : SortedMap κ ν, n.entries.Pairwise fun a b => a.1 < b.1 := fun n =>
    List.pairwise_map.mp n.sorted
  have heq : m.entries = m'.entries :=
    List.Perm.eq_of_pairwise (fun a b _ _ hab hba => absurd hab (lt_asymm hba)) (hkeys m) (hkeys m') h
  cases m
  cases m'
  cases heq
  rfl

/-- Assigning the entries of a map one after the other gives the map. -/
theorem assignAll_entries (m : SortedMap κ ν) : empty.assignAll m.entries = m := by
  have hperm := assignAll_perm (m := (empty : SortedMap κ ν)) m.nodup_keys fun e _ => rfl
  rw [entries_empty, List.append_nil] at hperm
  exact eq_of_perm hperm

end SortedMap
