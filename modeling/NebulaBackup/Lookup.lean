/-
Looking up the objects of a recorded file.

`addObjectIds` appends the ids of every call, so the index of an entry is the
number of ids before it, and `indexToObjectID` refuses an index at the end of
the list.  For an entry without ids that is where its index stands until some
later call appends one.  Main result:

* `downloadFile_obtains_iff` — after any sequence of calls, which entries
  `downloadFile` can look up.
-/
import NebulaBackup.Download

namespace Nebula

open EStateM.Result Hoare

namespace Snapshot

/-! ### The ids after a sequence of calls -/

theorem insertStringTable_mObjectIDs (s : Snapshot) (str : Bytes) :
    (s.insertStringTable str).2.mObjectIDs = s.mObjectIDs := by
  rw [insertStringTable]
  split <;> rfl

/-- The ids of a call are appended, and the entry points to them. -/
theorem internEntry_ids (s : Snapshot) (a : AddArgs) :
    (s.internEntry a).2.mObjectIDs = s.mObjectIDs ++ a.objectIds ∧
      (s.internEntry a).1.objectIdIndex = .ofNat s.mObjectIDs.length ∧
      (s.internEntry a).1.objectCount = .ofNat a.objectIds.length := by
  -- the snapshot in which the four strings are interned
  obtain ⟨t, ht⟩ : ∃ t, t = ((((s.insertStringTable (Path.filename a.path)).2.insertStringTable
      (Path.parent_path a.path)).2.insertStringTable a.user).2.insertStringTable a.group).2 :=
    ⟨_, rfl⟩
  have hids : t.mObjectIDs = s.mObjectIDs := by
    rw [ht, insertStringTable_mObjectIDs, insertStringTable_mObjectIDs,
      insertStringTable_mObjectIDs, insertStringTable_mObjectIDs]
  have hentry : s.internEntry a = ((s.internEntry a).1,
      { t with mObjectIDs := t.mObjectIDs ++ a.objectIds }) := by
    rw [ht]
    rfl
  have hindex : (s.internEntry a).1.objectIdIndex = .ofNat t.mObjectIDs.length := by
    rw [ht]
    rfl
  refine ⟨?_, ?_, rfl⟩
  · rw [hentry, hids]
  · rw [hindex, hids]

theorem apply_add {a : AddArgs} (h : a.objectIds.length ≤ 65535) (s : Snapshot) :
    s.apply (.add a) =
      { (s.internEntry a).2 with mFiles := s.mFiles.insert a.path (s.internEntry a).1 } := by
  rw [Snapshot.apply, addFileEntry, if_neg (by omega)]
  show { (s.internEntry a).2 with
    mFiles := (s.internEntry a).2.mFiles.insert a.path (s.internEntry a).1 } = _
  rw [internEntry_mFiles]

/-- The snapshot after a sequence of `addFileEntry` calls. -/
def addAll (s : Snapshot) (adds : List AddArgs) : Snapshot :=
  (adds.map SnapshotOp.add).foldl Snapshot.apply s

/-- The ids of a sequence of calls. -/
def idsOf (adds : List AddArgs) : List ObjectID := adds.flatMap (·.objectIds)

/-- The ids of all calls stand in the list, also those of a path that was
already there. -/
theorem addAll_mObjectIDs : ∀ (adds : List AddArgs) (s : Snapshot),
    (∀ a ∈ adds, a.objectIds.length ≤ 65535) →
      (s.addAll adds).mObjectIDs = s.mObjectIDs ++ idsOf adds := by
  intro adds
  induction adds with
  | nil =>
    intro s _
    simp [addAll, idsOf]
  | cons a adds ih =>
    intro s hcount
    have hstep : (s.apply (.add a)).mObjectIDs = s.mObjectIDs ++ a.objectIds := by
      rw [apply_add (hcount a List.mem_cons_self)]
      exact (internEntry_ids s a).1
    have hrest := ih (s.apply (.add a)) fun b hb => hcount b (List.mem_cons_of_mem a hb)
    show ((s.apply (.add a)).addAll adds).mObjectIDs = _
    rw [hrest, hstep, idsOf, idsOf, List.flatMap_cons, List.append_assoc]

/-- The ids before a call, its own, and those of the later calls. -/
theorem addAll_split {before after : List AddArgs} {a : AddArgs}
    (hcount : ∀ b ∈ before ++ a :: after, b.objectIds.length ≤ 65535) :
    (new.addAll before).mObjectIDs = idsOf before ∧
      (new.addAll (before ++ a :: after)).mObjectIDs =
        idsOf before ++ (a.objectIds ++ idsOf after) := by
  refine ⟨addAll_mObjectIDs before new fun b hb => hcount b (by simp [hb]), ?_⟩
  rw [addAll_mObjectIDs _ _ hcount]
  show [] ++ (before ++ a :: after).flatMap _ = _
  rw [List.nil_append, List.flatMap_append, List.flatMap_cons]
  rfl

/-- A path that is there keeps its entry. -/
theorem addAll_keepsEntry : ∀ (adds : List AddArgs) (s : Snapshot),
    (∀ a ∈ adds, a.objectIds.length ≤ 65535) → ∀ {path : Bytes} {fe : FileEntry},
      s.getFileEntry path = some fe → (s.addAll adds).getFileEntry path = some fe := by
  intro adds
  induction adds with
  | nil =>
    intro s _ path fe h
    exact h
  | cons a adds ih =>
    intro s hcount path fe h
    refine ih (s.apply (.add a)) (fun b hb => hcount b (List.mem_cons_of_mem a hb)) ?_
    rw [apply_add (hcount a List.mem_cons_self)]
    show (s.mFiles.insert a.path _).find? path = some fe
    rw [SortedMap.find?_insert]
    split
    · rename_i hpath
      rw [← hpath, show s.mFiles.find? path = some fe from h]
      rfl
    · exact h

/-- **The call that recorded a path** is the first one with it, and the entry is
the one that this call made. -/
theorem addAll_recorded : ∀ (adds : List AddArgs) (s : Snapshot),
    (∀ a ∈ adds, a.objectIds.length ≤ 65535) → ∀ {path : Bytes} {fe : FileEntry},
      s.getFileEntry path = none → (s.addAll adds).getFileEntry path = some fe →
      ∃ before a after, adds = before ++ a :: after ∧ a.path = path ∧
        (∀ b ∈ before, b.path ≠ path) ∧ fe = ((s.addAll before).internEntry a).1 := by
  intro adds
  induction adds with
  | nil =>
    intro s _ path fe hnone hsome
    exact absurd (hnone.symm.trans hsome) (by simp)
  | cons a adds ih =>
    intro s hcount path fe hnone hsome
    have hcount' := fun b hb => hcount b (List.mem_cons_of_mem a hb)
    have hstep : (s.apply (.add a)).mFiles = s.mFiles.insert a.path (s.internEntry a).1 := by
      rw [apply_add (hcount a List.mem_cons_self)]
    by_cases hpath : a.path = path
    · subst hpath
      have hmade : (s.apply (.add a)).getFileEntry a.path = some (s.internEntry a).1 := by
        rw [getFileEntry] at hnone ⊢
        rw [hstep, SortedMap.find?_insert, if_pos rfl, hnone]
        rfl
      have hkept := addAll_keepsEntry adds (s.apply (.add a)) hcount' hmade
      refine ⟨[], a, adds, rfl, rfl, fun b hb => absurd hb List.not_mem_nil, ?_⟩
      exact Option.some.inj (hsome.symm.trans hkept)
    · have hnone' : (s.apply (.add a)).getFileEntry path = none := by
        rw [getFileEntry] at hnone ⊢
        rw [hstep, SortedMap.find?_insert, if_neg (fun h => hpath h.symm)]
        exact hnone
      obtain ⟨before, b, after, rfl, hb, hfirst, hfe⟩ := ih (s.apply (.add a)) hcount' hnone' hsome
      refine ⟨a :: before, b, after, rfl, hb, ?_, hfe⟩
      intro c hc
      rcases List.mem_cons.mp hc with rfl | hc
      · exact hpath
      · exact hfirst c hc

end Snapshot

/-! ### Which entries are found -/

/-- `downloadFile` obtains the ids of a path: it goes on to fetch exactly these
objects, in their order, and when there are none it returns true and has
written nothing. -/
def Obtains (snapshot : Snapshot) (path : Bytes) (objectIds : List ObjectID) : Prop :=
  ∃ fe more, snapshot.getFileEntry path = some fe ∧
    snapshot.indexToObjectID (toInt fe.objectIdIndex) = .ok (objectIds ++ more) ∧
    fe.objectCount.toNat = objectIds.length ∧
    ∀ {δ ω : Type} [DataStore δ] [OutputStream ω] (E : Env) (fuel : ℕ) (o : ω)
      (progress : FileTransferProgressFunction) (s : Session δ),
      downloadFile E fuel snapshot path o progress s = (do
          let o ← downloadLoop E fuel fe progress objectIds.length 0 (objectIds ++ more) o
          return (true, o) : Command δ (Bool × ω)) s ∧
        (objectIds = [] → downloadFile E fuel snapshot path o progress s = ok (true, o) s)

/-- A lookup that succeeds is all that `downloadFile` needs before it fetches
the objects. -/
theorem Obtains.of_lookup {snapshot : Snapshot} {path : Bytes} {fe : FileEntry}
    {objectIds more : List ObjectID} (hfe : snapshot.getFileEntry path = some fe)
    (hlookup : snapshot.indexToObjectID (toInt fe.objectIdIndex) = .ok (objectIds ++ more))
    (hcount : fe.objectCount.toNat = objectIds.length) : Obtains snapshot path objectIds := by
  refine ⟨fe, more, hfe, hlookup, hcount, ?_⟩
  intro δ ω _ _ E fuel o progress s
  have hrun : downloadFile E fuel snapshot path o progress s = (do
      let o ← downloadLoop E fuel fe progress objectIds.length 0 (objectIds ++ more) o
      return (true, o) : Command δ (Bool × ω)) s := by
    rw [downloadFile, hfe]
    refine run_step (show ofExcept _ s = ok _ s by rw [hlookup]; rfl) ?_
    rw [hcount]
  refine ⟨hrun, fun hnil => ?_⟩
  rw [hrun, hnil]
  rfl

/-- **Which recorded files can be looked up.**  After any sequence of
`addFileEntry` calls, with any numbers of ids, the entry of every path comes
from the first call with that path.  `downloadFile` obtains its ids if this
call or a later one had ids and fewer than `2 ^ 31` came before; as long as the
index fits into its field this is also necessary. -/
theorem downloadFile_obtains_iff {adds : List AddArgs}
    (hcount : ∀ a ∈ adds, a.objectIds.length ≤ 65535) {path : Bytes} {fe : FileEntry}
    (hfe : (Snapshot.new.addAll adds).getFileEntry path = some fe) :
    ∃ before a after, adds = before ++ a :: after ∧ a.path = path ∧
      (∀ b ∈ before, b.path ≠ path) ∧
      ((a.objectIds ≠ [] ∨ ∃ b ∈ after, b.objectIds ≠ []) ∧
          (Snapshot.idsOf before).length < 2 ^ 31 →
        Obtains (Snapshot.new.addAll adds) path a.objectIds) ∧
      ((Snapshot.idsOf before).length < 2 ^ 32 →
        Obtains (Snapshot.new.addAll adds) path a.objectIds →
          (a.objectIds ≠ [] ∨ ∃ b ∈ after, b.objectIds ≠ []) ∧
            (Snapshot.idsOf before).length < 2 ^ 31) := by
  obtain ⟨before, a, after, rfl, rfl, hfirst, rfl⟩ := Snapshot.addAll_recorded adds Snapshot.new
    hcount rfl hfe
  refine ⟨before, a, after, rfl, rfl, hfirst, ?_⟩
  have ha : a.objectIds.length ≤ 65535 := hcount a (by simp)
  obtain ⟨-, hindex, hcounted⟩ := Snapshot.internEntry_ids (Snapshot.new.addAll before) a
  obtain ⟨hbefore, hall⟩ := Snapshot.addAll_split hcount
  set snapshot := Snapshot.new.addAll (before ++ a :: after)
  set fe := ((Snapshot.new.addAll before).internEntry a).1
  have hcount' : fe.objectCount.toNat = a.objectIds.length := by
    rw [hcounted]
    exact UInt16.toNat_ofNat_of_lt' (show a.objectIds.length < 2 ^ 16 by omega)
  have hindex' : (Snapshot.idsOf before).length < 2 ^ 32 →
      fe.objectIdIndex.toNat = (Snapshot.idsOf before).length := by
    intro hlt
    rw [hindex, hbefore]
    exact UInt32.toNat_ofNat_of_lt' hlt
  have hsome : (a.objectIds ≠ [] ∨ ∃ b ∈ after, b.objectIds ≠ []) ↔
      0 < (a.objectIds ++ Snapshot.idsOf after).length := by
    simp only [Snapshot.idsOf, List.length_pos_iff, ne_eq, List.append_eq_nil_iff,
      List.flatMap_eq_nil_iff, not_and_or, not_forall, exists_prop]
  rw [hsome]
  refine ⟨?_, ?_⟩
  · rintro ⟨hpos, hint⟩
    have hindex := hindex' (by omega)
    have hlookup := Snapshot.indexToObjectID_of_lt (s := snapshot) (n := fe.objectIdIndex)
      (by omega) (by rw [hindex, hall, List.length_append]; omega)
    rw [hindex, hall, List.drop_left] at hlookup
    exact .of_lookup hfe hlookup hcount'
  · rintro hlt ⟨fe', more, hfe', hlookup, -⟩
    obtain rfl := Option.some.inj (hfe.symm.trans hfe')
    by_contra hc
    have hindex := hindex' hlt
    rw [Snapshot.indexToObjectID_throws (by
      rw [hindex, hall, List.length_append]
      omega)] at hlookup
    exact absurd hlookup (by simp)

/-- A call for a file without objects. -/
def emptyAdd (path : Bytes) : AddArgs :=
  { Snapshot.sampleAdd path with
    size := 0
    objectIds := [] }

/-- The file `e` without objects is found as soon as one with an object was
recorded after it. -/
theorem downloadFile_obtains_iff_later :
    Obtains (Snapshot.new.addAll [emptyAdd (ascii "e"), Snapshot.sampleAdd (ascii "f")])
      (ascii "e") [] := by
  have hcount : ∀ a ∈ [emptyAdd (ascii "e"), Snapshot.sampleAdd (ascii "f")],
      a.objectIds.length ≤ 65535 := by
    intro a ha
    simp only [List.mem_cons, List.not_mem_nil, or_false] at ha
    rcases ha with rfl | rfl <;> decide
  obtain ⟨before, a, after, hsplit, hpath, hfirst, hok, -⟩ := downloadFile_obtains_iff hcount
    (show (Snapshot.new.addAll _).getFileEntry (ascii "e") =
      some (Snapshot.new.internEntry (emptyAdd (ascii "e"))).1 from rfl)
  cases before with
  | nil =>
    obtain ⟨rfl, rfl⟩ := List.cons.inj hsplit
    exact hok ⟨Or.inr ⟨_, List.mem_singleton_self _, by decide⟩, by decide⟩
  | cons b before =>
    -- the first call is the one with the path
    obtain ⟨rfl, -⟩ := List.cons.inj hsplit
    exact absurd rfl (hfirst _ List.mem_cons_self)

/-- A snapshot with nothing but a file without objects: the file is recorded and
`downloadFile` throws. -/
theorem downloadFile_emptyEntry_throws :
    (Snapshot.new.addAll [emptyAdd (ascii "e")]).getFileEntry (ascii "e") =
        some (Snapshot.new.internEntry (emptyAdd (ascii "e"))).1 ∧
      ¬ Obtains (Snapshot.new.addAll [emptyAdd (ascii "e")]) (ascii "e") [] ∧
      downloadFile (zeroEnv (SampleTables.crypto {})) 0
          (Snapshot.new.addAll [emptyAdd (ascii "e")]) (ascii "e") TempFileStream.new
          DefaultFileTransferProgressFunction emptySession =
        error (.thrown .IndexOutOfBoundException "Index is out of bound.") emptySession := by
  refine ⟨rfl, ?_, rfl⟩
  rintro ⟨fe, more, hfe, hlookup, -⟩
  obtain rfl := Option.some.inj ((show some (Snapshot.new.internEntry (emptyAdd (ascii "e"))).1 = _
    from rfl).trans hfe)
  exact absurd ((show _ = Except.error _ from rfl).symm.trans hlookup) (by simp)

end Nebula
