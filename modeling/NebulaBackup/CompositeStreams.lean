/-
Streams built on other streams: `MultiInputStream`, `InputRangeStream` and
`BufferedInputStream`.

* A `MultiInputStream` over rewindable streams is a rewindable stream over the
  concatenation of their contents.
* An `InputRangeStream` over a rewindable stream is one over a range of its
  contents (`InputRangeStream.new_holds`); past their end it is cut.  Both are
  cursors for any sequence of calls (`compositeStreams_cursor`).
* A `BufferedInputStream` hands out the bytes of its stream one by one or in
  reads of any size (`BufferedInputStream.run_answers`).
-/
import NebulaBackup.MemoryStreams

namespace Nebula

open EStateM.Result

variable {σ : Type} [InputStream σ]

/-! ### `MultiInputStream` -/

/-- `MultiInputStream`: `mStreamList`, cut at the iterator `mCurStream`. -/
structure MultiInputStream (σ : Type) where
  before : List σ
  streams : List σ

namespace MultiInputStream

/-- `MultiInputStream(l)`. -/
def new (l : List σ) : MultiInputStream σ := ⟨[], l⟩

/-- The loop of `read`.  Every round takes a byte or moves to the next
stream, which bounds the rounds. -/
def readLoop : ℕ → List σ → List σ → ℕ → Bytes → Result (MultiInputStream σ) Bytes
  | 0, before, streams, _, _ => error .outOfFuel ⟨before, streams⟩
  | _ + 1, before, [], _, acc => ok acc ⟨before, []⟩
  | k + 1, before, s :: rest, want, acc =>
    if want = 0 then ok acc ⟨before, s :: rest⟩
    else
      match InputStream.read s want with
      | error e s' => error e ⟨before, s' :: rest⟩
      | ok d s' =>
        if d = [] then readLoop k (before ++ [s']) rest want acc
        else readLoop k before (s' :: rest) (want - d.length) (acc ++ d)

def read (m : MultiInputStream σ) (size : ℕ) : Result (MultiInputStream σ) Bytes :=
  readLoop (size + m.streams.length + 1) m.before m.streams size []

/-- The sum of the sizes, `-1` as soon as one of them is unknown. -/
def sizeLoop : List σ → ℤ → ℤ
  | [], sizeTotal => sizeTotal
  | s :: l, sizeTotal =>
    if InputStream.size s < 0 then -1 else sizeLoop l (sizeTotal + InputStream.size s)

def canRewind (m : MultiInputStream σ) : Bool :=
  (m.before ++ m.streams).all InputStream.canRewind

/-- Rewind the streams of a list, one after the other. -/
def rewindLoop : List σ → Result (List σ) Unit
  | [] => ok () []
  | s :: l =>
    match InputStream.rewind s with
    | error e s' => error e (s' :: l)
    | ok _ s' =>
      match rewindLoop l with
      | error e l' => error e (s' :: l')
      | ok _ l' => ok () (s' :: l')

def rewind (m : MultiInputStream σ) : Result (MultiInputStream σ) Unit :=
  if m.canRewind then
    match rewindLoop (m.before ++ m.streams) with
    | error e l => error e ⟨l.take m.before.length, l.drop m.before.length⟩
    | ok _ l => ok () ⟨[], l⟩
  else ok () m

instance : InputStream (MultiInputStream σ) where
  read := read
  skip s n := skipLoop read n n s 0
  canRewind := canRewind
  rewind := rewind
  size m := sizeLoop (m.before ++ m.streams) 0

/-! #### The concatenation it stands for -/

/-- One of the streams with what it holds and what it has left. -/
structure Part (σ : Type) where
  content : Bytes
  stream : σ
  rest : Bytes

variable [RewindableStream σ]

/-- The part describes its stream. -/
def Part.Ok (p : Part σ) : Prop := RewindableStream.Rep p.content p.stream p.rest

/-- The streams hold pieces of `c` and those not yet passed have `r` left. -/
def Rep (c : Bytes) (m : MultiInputStream σ) (r : Bytes) : Prop :=
  ∃ before streams : List (Part σ),
    m = ⟨before.map Part.stream, streams.map Part.stream⟩ ∧
      (∀ p ∈ before ++ streams, p.Ok) ∧
      c = (before ++ streams).flatMap Part.content ∧ r = streams.flatMap Part.rest

/-- A read replaces one of the parts. -/
theorem Part.ok_replace {before rest : List (Part σ)} {p p' : Part σ}
    (hok : ∀ q ∈ before ++ p :: rest, q.Ok) (hp' : p'.Ok) : ∀ q ∈ before ++ p' :: rest, q.Ok := by
  rw [List.forall_mem_append, List.forall_mem_cons] at hok ⊢
  exact ⟨hok.1, hp', hok.2.2⟩

/-- A read that takes `a.take n` first and the missing bytes from what follows. -/
theorem take_append_take (a b : Bytes) (n : ℕ) :
    a.take n ++ (a.drop n ++ b).take (n - (a.take n).length) = (a ++ b).take n := by
  rw [List.length_take]
  by_cases hfull : n ≤ a.length
  · rw [min_eq_left hfull, Nat.sub_self, List.take_zero, List.append_nil,
      List.take_append_of_le_length hfull]
  · rw [min_eq_right (by omega), List.drop_eq_nil_of_le (by omega), List.nil_append,
      List.take_append]

/-- What such a read leaves. -/
theorem drop_append_drop (a b : Bytes) (n : ℕ) :
    (a.drop n ++ b).drop (n - (a.take n).length) = (a ++ b).drop n := by
  rw [List.length_take]
  by_cases hfull : n ≤ a.length
  · rw [min_eq_left hfull, Nat.sub_self, List.drop_zero, List.drop_append_of_le_length hfull]
  · have hnil : a.drop n = [] := List.drop_eq_nil_of_le (by omega)
    rw [min_eq_right (by omega), hnil, List.nil_append, List.drop_append, hnil, List.nil_append]

/-- Induction on the rounds: the parts are replaced by what each read leaves
of them, and their contents never change. -/
theorem readLoop_ok : ∀ {k : ℕ} {before streams : List (Part σ)} {want : ℕ} (acc : Bytes),
    (∀ p ∈ before ++ streams, p.Ok) → want + streams.length < k →
      ∃ m', readLoop k (before.map Part.stream) (streams.map Part.stream) want acc
          = ok (acc ++ (streams.flatMap Part.rest).take want) m' ∧
        Rep ((before ++ streams).flatMap Part.content) m'
          ((streams.flatMap Part.rest).drop want) := by
  intro k
  induction k with
  | zero =>
    intro before streams want acc _ hk
    omega
  | succ k ih =>
    intro before streams want acc hok hk
    rcases streams with _ | ⟨p, rest⟩
    · refine ⟨_, ?_, before, [], rfl, hok, rfl, ?_⟩
      · simp [readLoop]
      · simp
    · rw [List.map_cons, readLoop]
      by_cases hw : want = 0
      · subst hw
        refine ⟨_, ?_, before, p :: rest, rfl, hok, rfl, ?_⟩
        · simp
        · simp
      · obtain ⟨s', hread, hrep⟩ := RewindableStream.read_ok (hok p (by simp)) want
        set p' : Part σ := ⟨p.content, s', p.rest.drop want⟩ with hp'
        have hokp' : p'.Ok := hrep
        rw [if_neg hw, hread]
        rw [List.length_cons] at hk
        by_cases hd : p.rest.take want = []
        · -- the current stream is at its end
          have hrest : p.rest = [] := by
            rw [List.take_eq_nil_iff] at hd
            exact hd.resolve_left hw
          have hok' : ∀ q ∈ (before ++ [p']) ++ rest, q.Ok := by
            rw [← List.append_cons]
            exact Part.ok_replace hok hokp'
          have hk' : want + rest.length < k := by omega
          obtain ⟨m', hloop, hm'⟩ := ih acc hok' hk'
          refine ⟨m', ?_, ?_⟩
          · simp only [hd, if_true]
            rw [List.map_append] at hloop
            rw [List.flatMap_cons, hrest, List.nil_append]
            exact hloop
          · rw [List.flatMap_cons, hrest, List.nil_append]
            simpa [hp'] using hm'
        · have hlen : (p.rest.take want).length = min want p.rest.length := List.length_take
          have hpos := List.length_pos_iff.mpr hd
          have hok' := Part.ok_replace hok hokp'
          have hk' : want - (p.rest.take want).length + (p' :: rest).length < k := by
            rw [List.length_cons]
            omega
          obtain ⟨m', hloop, hm'⟩ := ih (acc ++ p.rest.take want) hok' hk'
          rw [List.flatMap_cons, List.append_assoc, take_append_take] at hloop
          rw [List.flatMap_cons (f := Part.rest), drop_append_drop] at hm'
          refine ⟨m', ?_, ?_⟩
          · simp only [hd, if_false]
            exact hloop
          · simpa [hp'] using hm'

theorem read_ok {c r : Bytes} {m : MultiInputStream σ} (h : Rep c m r) (n : ℕ) :
    ∃ m', read m n = ok (r.take n) m' ∧ Rep c m' (r.drop n) := by
  obtain ⟨before, streams, rfl, hok, rfl, rfl⟩ := h
  obtain ⟨m', hloop, hm'⟩ := readLoop_ok (k := n + streams.length + 1) [] hok (Nat.lt_succ_self _)
  refine ⟨m', ?_, hm'⟩
  rw [read, List.length_map]
  exact hloop

theorem canRewind_eq {c r : Bytes} {m : MultiInputStream σ} (h : Rep c m r) :
    m.canRewind = true := by
  obtain ⟨before, streams, rfl, hok, _, _⟩ := h
  rw [canRewind, ← List.map_append, List.all_eq_true]
  intro s hs
  obtain ⟨p, hp, rfl⟩ := List.mem_map.mp hs
  exact RewindableStream.canRewind_eq (hok p hp)

theorem rewindLoop_ok : ∀ {parts : List (Part σ)}, (∀ p ∈ parts, p.Ok) →
    ∃ parts' : List (Part σ), rewindLoop (parts.map Part.stream) = ok () (parts'.map Part.stream) ∧
      (∀ p ∈ parts', p.Ok) ∧ parts'.flatMap Part.content = parts.flatMap Part.content ∧
      parts'.flatMap Part.rest = parts.flatMap Part.content := by
  intro parts
  induction parts with
  | nil =>
    intro _
    exact ⟨[], rfl, by simp, rfl, rfl⟩
  | cons p parts ih =>
    intro hok
    obtain ⟨s', hrew, hrep⟩ := RewindableStream.rewind_ok (hok p (by simp))
    obtain ⟨parts', hloop, hok', hcont, hrest⟩ := ih fun q hq => hok q (by simp [hq])
    refine ⟨⟨p.content, s', p.content⟩ :: parts', ?_, ?_, ?_, ?_⟩
    · rw [List.map_cons, rewindLoop, hrew]
      simp only [hloop]
      rfl
    · intro q hq
      rcases List.mem_cons.mp hq with rfl | hq
      · exact hrep
      · exact hok' q hq
    · rw [List.flatMap_cons, List.flatMap_cons, hcont]
    · rw [List.flatMap_cons, List.flatMap_cons, hrest]

theorem rewind_ok {c r : Bytes} {m : MultiInputStream σ} (h : Rep c m r) :
    ∃ m', rewind m = ok () m' ∧ Rep c m' c := by
  have hcan := canRewind_eq h
  obtain ⟨before, streams, rfl, hok, rfl, _⟩ := h
  obtain ⟨parts', hloop, hok', hcont, hrest⟩ := rewindLoop_ok hok
  refine ⟨⟨[], parts'.map Part.stream⟩, ?_, [], parts', rfl, ?_, ?_, ?_⟩
  · rw [rewind, if_pos hcan, ← List.map_append, hloop]
  · simpa using hok'
  · simpa using hcont.symm
  · exact hrest.symm

theorem sizeLoop_eq : ∀ {parts : List (Part σ)} (t : ℤ), (∀ p ∈ parts, p.Ok) →
    sizeLoop (parts.map Part.stream) t = t + ((parts.flatMap Part.content).length : ℤ) := by
  intro parts
  induction parts with
  | nil =>
    intro t _
    simp [sizeLoop]
  | cons p parts ih =>
    intro t hok
    have hsize := RewindableStream.size_eq (hok p (by simp))
    rw [List.map_cons, sizeLoop, hsize, if_neg (by omega), ih _ fun q hq => hok q (by simp [hq])]
    rw [List.flatMap_cons, List.length_append]
    push_cast
    ring

theorem source (c : Bytes) : Source (Rep c : MultiInputStream σ → Bytes → Prop) :=
  ⟨fun h n => read_ok h n⟩

instance : RewindableStream (MultiInputStream σ) where
  Rep := Rep
  read_ok := read_ok
  skip_ok h n := by
    obtain ⟨s', m, hskip, hs'⟩ := skipLoop_spec (source _) (n := n) (k := n) 0 h (by omega)
    exact ⟨s', m, hskip, hs'⟩
  canRewind_eq := canRewind_eq
  rewind_ok := rewind_ok
  size_eq {c m r} h := by
    obtain ⟨before, streams, rfl, hok, rfl, _⟩ := h
    show sizeLoop _ 0 = _
    rw [← List.map_append, sizeLoop_eq 0 hok, zero_add]

/-- A new stream over streams at their start holds the concatenation. -/
theorem new_holds {l : List σ} {cs : List Bytes} (h : List.Forall₂ Holds l cs) :
    Holds (new l) cs.flatten := by
  obtain ⟨parts, rfl, hok, hcont, hrest⟩ : ∃ parts : List (Part σ), l = parts.map Part.stream ∧
      (∀ p ∈ parts, p.Ok) ∧ parts.flatMap Part.content = cs.flatten ∧
      parts.flatMap Part.rest = cs.flatten := by
    induction h with
    | nil => exact ⟨[], rfl, by simp, rfl, rfl⟩
    | @cons s c l cs hs _ ih =>
      obtain ⟨parts, rfl, hok, hcont, hrest⟩ := ih
      refine ⟨⟨c, s, c⟩ :: parts, rfl, ?_, ?_, ?_⟩
      · intro p hp
        rcases List.mem_cons.mp hp with rfl | hp
        · exact hs
        · exact hok p hp
      · rw [List.flatMap_cons, hcont]
        rfl
      · rw [List.flatMap_cons, hrest]
        rfl
  exact ⟨[], parts, rfl, hok, hcont.symm, hrest.symm⟩

end MultiInputStream

/-! ### `InputRangeStream` -/

/-- `InputRangeStream`; positions are below `2^63`, where the comparisons
between `long` and `size_t` are those of numbers. -/
structure InputRangeStream (σ : Type) where
  stream : σ
  offset : ℕ
  endOffset : ℕ
  position : ℕ

namespace InputRangeStream

/-- `InputRangeStream(stream, offset, size)`. -/
def new (s : σ) (offset size : ℕ) : Result (InputRangeStream σ) Unit :=
  match InputStream.skip s offset with
  | error e s' => error e ⟨s', offset, offset + size, offset⟩
  | ok _ s' => ok () ⟨s', offset, offset + size, offset⟩

/-- Read from the stream below and advance `mPosition`. -/
def readBelow (s : InputRangeStream σ) (size : ℕ) : Result (InputRangeStream σ) Bytes :=
  match InputStream.read s.stream size with
  | error e s' => error e { s with stream := s' }
  | ok d s' => ok d { s with stream := s', position := s.position + d.length }

def read (s : InputRangeStream σ) (size : ℕ) : Result (InputRangeStream σ) Bytes :=
  if s.endOffset ≤ s.position + size then
    if s.endOffset - s.position = 0 then ok [] s
    else readBelow s (s.endOffset - s.position)
  else readBelow s size

def canRewind (s : InputRangeStream σ) : Bool := InputStream.canRewind s.stream

def rewind (s : InputRangeStream σ) : Result (InputRangeStream σ) Unit :=
  if s.canRewind then
    match InputStream.rewind s.stream with
    | error e s' => error e { s with stream := s' }
    | ok _ s' =>
      match InputStream.skip s' s.offset with
      | error e s'' => error e { s with stream := s'' }
      | ok _ s'' => ok () { s with stream := s'', position := s.offset }
  else ok () s

instance : InputStream (InputRangeStream σ) where
  read := read
  skip s n := skipLoop read n n s 0
  canRewind := canRewind
  rewind := rewind
  size s := (s.endOffset : ℤ) - s.offset

variable [RewindableStream σ]

/-- The range lies inside the contents `c₀` of the stream below, holds `c`
and has `r` left. -/
def Rep (c : Bytes) (s : InputRangeStream σ) (r : Bytes) : Prop :=
  ∃ c₀ : Bytes, RewindableStream.Rep c₀ s.stream (c₀.drop s.position) ∧
    s.offset ≤ s.position ∧ s.position ≤ s.endOffset ∧ s.endOffset ≤ c₀.length ∧
    c = (c₀.drop s.offset).take (s.endOffset - s.offset) ∧
    r = (c₀.drop s.position).take (s.endOffset - s.position)

/-- The same for a range that may reach past the contents `c₀` of the stream
below and is cut at their end. -/
structure Cut (c₀ c : Bytes) (s : InputRangeStream σ) (r : Bytes) : Prop where
  below : RewindableStream.Rep c₀ s.stream (c₀.drop s.position)
  start : s.offset ≤ s.position
  stop : s.position ≤ s.endOffset
  content : c = (c₀.drop s.offset).take (s.endOffset - s.offset)
  left : r = (c₀.drop s.position).take (s.endOffset - s.position)

theorem Rep.cut {c r : Bytes} {s : InputRangeStream σ} (h : Rep c s r) :
    ∃ c₀, Cut c₀ c s r ∧ s.endOffset ≤ c₀.length := by
  obtain ⟨c₀, hrep, hop, hpe, hec, hc, hr⟩ := h
  exact ⟨c₀, ⟨hrep, hop, hpe, hc, hr⟩, hec⟩

theorem Cut.rep {c₀ c r : Bytes} {s : InputRangeStream σ} (h : Cut c₀ c s r)
    (hle : s.endOffset ≤ c₀.length) : Rep c s r :=
  ⟨c₀, h.below, h.start, h.stop, hle, h.content, h.left⟩

/-- A read that stays inside the range. -/
theorem Cut.readBelow {c₀ c r : Bytes} {s : InputRangeStream σ} (h : Cut c₀ c s r) {n : ℕ}
    (hn : s.position + n ≤ s.endOffset) :
    ∃ s', readBelow s n = ok (r.take n) s' ∧ Cut c₀ c s' (r.drop n) ∧ s'.endOffset = s.endOffset := by
  obtain ⟨hbelow, hstart, hstop, rfl, rfl⟩ := h
  obtain ⟨t, hread, ht⟩ := RewindableStream.read_ok hbelow n
  have hlen : ((c₀.drop s.position).take n).length = min n (c₀.length - s.position) := by
    rw [List.length_take, List.length_drop]
  -- what was read is short only when the stream below has nothing more
  have hrest : (c₀.drop s.position).drop n =
      c₀.drop (s.position + ((c₀.drop s.position).take n).length) := by
    rw [List.drop_drop, hlen]
    by_cases hfull : n ≤ c₀.length - s.position
    · rw [min_eq_left hfull]
    · rw [List.drop_eq_nil_of_le (by omega), List.drop_eq_nil_of_le (by omega)]
  refine ⟨{ s with
      stream := t
      position := s.position + ((c₀.drop s.position).take n).length }, ?_, ⟨?_, ?_, ?_, rfl, ?_⟩, rfl⟩
  · rw [InputRangeStream.readBelow, hread, List.take_take, min_eq_left (by omega)]
  · rwa [hrest] at ht
  · show s.offset ≤ s.position + _
    omega
  · show s.position + _ ≤ s.endOffset
    omega
  · show _ = (c₀.drop (s.position + _)).take (s.endOffset - (s.position + _))
    rw [List.drop_take, hrest, hlen]
    by_cases hfull : n ≤ c₀.length - s.position
    · rw [min_eq_left hfull, Nat.sub_sub]
    · rw [List.drop_eq_nil_of_le (by omega), List.take_nil, List.take_nil]

/-- A read is cut at the end of the range. -/
theorem Cut.read {c₀ c r : Bytes} {s : InputRangeStream σ} (h : Cut c₀ c s r) (n : ℕ) :
    ∃ s', read s n = ok (r.take n) s' ∧ Cut c₀ c s' (r.drop n) ∧ s'.endOffset = s.endOffset := by
  have hstop := h.stop
  have hr : r.length ≤ s.endOffset - s.position := by
    rw [h.left, List.length_take]
    omega
  rw [InputRangeStream.read]
  by_cases hend : s.endOffset ≤ s.position + n
  · rw [if_pos hend, List.take_of_length_le (by omega), List.drop_eq_nil_of_le (by omega)]
    by_cases hz : s.endOffset - s.position = 0
    · have hnil : r = [] := List.length_eq_zero_iff.mp (by omega)
      rw [if_pos hz]
      exact ⟨s, by rw [hnil], by rwa [hnil] at h, rfl⟩
    · obtain ⟨s', hread, hs', hsame⟩ := h.readBelow (n := s.endOffset - s.position) (by omega)
      rw [List.take_of_length_le hr] at hread
      rw [List.drop_eq_nil_of_le hr] at hs'
      rw [if_neg hz]
      exact ⟨s', hread, hs', hsame⟩
  · rw [if_neg hend]
    exact h.readBelow (by omega)

theorem Cut.rewind {c₀ c r : Bytes} {s : InputRangeStream σ} (h : Cut c₀ c s r) :
    ∃ s', rewind s = ok () s' ∧ Cut c₀ c s' c ∧ s'.endOffset = s.endOffset := by
  obtain ⟨hbelow, hstart, hstop, hc, -⟩ := h
  obtain ⟨t, hrew, ht⟩ := RewindableStream.rewind_ok hbelow
  obtain ⟨t', k, hskip, ht'⟩ := RewindableStream.skip_ok ht s.offset
  refine ⟨{ s with stream := t', position := s.offset }, ?_,
    ⟨ht', le_refl _, by show s.offset ≤ s.endOffset; omega, hc, hc⟩, rfl⟩
  rw [InputRangeStream.rewind, canRewind, if_pos (RewindableStream.canRewind_eq hbelow), hrew]
  simp only [hskip]

/-- Any range of a stream at its start. -/
theorem new_cut {s : σ} {c₀ : Bytes} (h : Holds s c₀) (offset size : ℕ) :
    ∃ s', new s offset size = ok () s' ∧ s'.endOffset = offset + size ∧
      Cut c₀ ((c₀.drop offset).take size) s' ((c₀.drop offset).take size) := by
  obtain ⟨t, k, hskip, ht⟩ := RewindableStream.skip_ok h offset
  have hrange : (c₀.drop offset).take size = (c₀.drop offset).take (offset + size - offset) := by
    rw [Nat.add_sub_cancel_left]
  refine ⟨⟨t, offset, offset + size, offset⟩, ?_, rfl, ht, le_refl _, ?_, hrange, hrange⟩
  · rw [new, hskip]
  · show offset ≤ offset + size
    omega

theorem read_ok {c r : Bytes} {s : InputRangeStream σ} (h : Rep c s r) (n : ℕ) :
    ∃ s', read s n = ok (r.take n) s' ∧ Rep c s' (r.drop n) := by
  obtain ⟨c₀, hcut, hle⟩ := h.cut
  obtain ⟨s', hread, hs', hsame⟩ := hcut.read n
  exact ⟨s', hread, hs'.rep (by rwa [hsame])⟩

theorem rewind_ok {c r : Bytes} {s : InputRangeStream σ} (h : Rep c s r) :
    ∃ s', rewind s = ok () s' ∧ Rep c s' c := by
  obtain ⟨c₀, hcut, hle⟩ := h.cut
  obtain ⟨s', hrewind, hs', hsame⟩ := hcut.rewind
  exact ⟨s', hrewind, hs'.rep (by rwa [hsame])⟩

theorem source (c : Bytes) : Source (Rep c : InputRangeStream σ → Bytes → Prop) :=
  ⟨fun h n => read_ok h n⟩

instance : RewindableStream (InputRangeStream σ) where
  Rep := Rep
  read_ok := read_ok
  skip_ok h n := by
    obtain ⟨s', m, hskip, hs'⟩ := skipLoop_spec (source _) (n := n) (k := n) 0 h (by omega)
    exact ⟨s', m, hskip, hs'⟩
  canRewind_eq h := by
    obtain ⟨c₀, hrep, _⟩ := h
    exact RewindableStream.canRewind_eq (σ := σ) hrep
  rewind_ok := rewind_ok
  size_eq {c s r} h := by
    obtain ⟨c₀, _, hop, hpe, hec, rfl, _⟩ := h
    show (s.endOffset : ℤ) - s.offset = _
    rw [List.length_take, List.length_drop]
    omega

/-- A range inside the contents of a stream at its start. -/
theorem new_holds {s : σ} {c : Bytes} {offset size : ℕ} (h : Holds s c)
    (hle : offset + size ≤ c.length) :
    ∃ s', new s offset size = ok () s' ∧ Holds s' ((c.drop offset).take size) := by
  obtain ⟨s', hnew, hend, hcut⟩ := new_cut h offset size
  exact ⟨s', hnew, hcut.rep (by omega)⟩

/-! #### The arithmetic of the machine -/

/-- `read` as the machine computes it: the sum of `mPosition` and `size` is a
`size_t`, to which `mEndOffset` and the difference are converted. -/
def readWord (s : InputRangeStream σ) (size : ℕ) : Result (InputRangeStream σ) Bytes :=
  if s.endOffset ≤ (s.position + size) % 2 ^ 64 then
    if (s.endOffset + 2 ^ 64 - s.position) % 2 ^ 64 = 0 then ok [] s
    else readBelow s ((s.endOffset + 2 ^ 64 - s.position) % 2 ^ 64)
  else readBelow s size

/-- A sequence of calls. -/
def runWords : List StreamOp → InputRangeStream σ → Result (InputRangeStream σ) (List Bytes)
  | [], s => ok [] s
  | .read n :: ops, s =>
    match s.readWord n with
    | error e s' => error e s'
    | ok d s' =>
      match runWords ops s' with
      | error e s'' => error e s''
      | ok ds s'' => ok (d :: ds) s''
  | .rewind :: ops, s =>
    match s.rewind with
    | error e s' => error e s'
    | ok _ s' => runWords ops s'

omit [RewindableStream σ] in
/-- Below 2⁶³ it is the arithmetic of numbers. -/
theorem readWord_eq {s : InputRangeStream σ} (hstop : s.position ≤ s.endOffset)
    (hend : s.endOffset < 2 ^ 63) {n : ℕ} (hn : n < 2 ^ 63) : s.readWord n = s.read n := by
  have hsum : (s.position + n) % 2 ^ 64 = s.position + n := Nat.mod_eq_of_lt (by omega)
  have hdiff : (s.endOffset + 2 ^ 64 - s.position) % 2 ^ 64 = s.endOffset - s.position := by omega
  rw [readWord, read, hsum, hdiff]

/-- **A range is a cursor in its part of the contents**, whatever the calls. -/
theorem Cut.runWords {c₀ c : Bytes} : ∀ (ops : List StreamOp) {s : InputRangeStream σ} {r : Bytes},
    Cut c₀ c s r → s.endOffset < 2 ^ 63 → (∀ n, .read n ∈ ops → n < 2 ^ 63) →
      ∃ s', runWords ops s = ok (cursorOps c ops r) s' := by
  intro ops
  induction ops with
  | nil =>
    intro s r _ _ _
    exact ⟨s, rfl⟩
  | cons op ops ih =>
    intro s r h hend hops
    have hops' := fun n hn => hops n (List.mem_cons_of_mem op hn)
    cases op with
    | read n =>
      obtain ⟨s', hread, hs', hsame⟩ := h.read n
      rw [← readWord_eq h.stop hend (hops n List.mem_cons_self)] at hread
      obtain ⟨s'', hrun⟩ := ih hs' (by rwa [hsame]) hops'
      refine ⟨s'', ?_⟩
      simp only [InputRangeStream.runWords, hread, hrun, cursorOps]
    | rewind =>
      obtain ⟨s', hrewind, hs', hsame⟩ := h.rewind
      obtain ⟨s'', hrun⟩ := ih hs' (by rwa [hsame]) hops'
      refine ⟨s'', ?_⟩
      simp only [InputRangeStream.runWords, hrewind, hrun, cursorOps]

end InputRangeStream

/-- **Concatenations and ranges are streams of their own.**  Whatever the calls,
a `MultiInputStream` is a cursor in the concatenation and knows its length, and
an `InputRangeStream` is one in the range of the contents, cut at their end. -/
theorem compositeStreams_cursor [RewindableStream σ] :
    (∀ (l : List σ) (cs : List Bytes), List.Forall₂ Holds l cs → ∀ ops : List StreamOp,
      InputStream.size (MultiInputStream.new l) = cs.flatten.length ∧
        ∃ m', runOps ops (MultiInputStream.new l) = ok (cursorOps cs.flatten ops cs.flatten) m' ∧
          InputStream.size m' = cs.flatten.length) ∧
      ∀ (s : σ) (c : Bytes), Holds s c → ∀ offset length : ℕ, offset + length < 2 ^ 63 →
        ∀ ops : List StreamOp, (∀ n, .read n ∈ ops → n < 2 ^ 63) →
          ∃ s₀ s', InputRangeStream.new s offset length = ok () s₀ ∧
            InputRangeStream.runWords ops s₀ =
              ok (cursorOps ((c.drop offset).take length) ops ((c.drop offset).take length)) s' := by
  constructor
  · intro l cs h ops
    have hnew := MultiInputStream.new_holds h
    obtain ⟨m', r', hrun, hm'⟩ := runOps_spec ops hnew
    exact ⟨RewindableStream.size_eq hnew, m', hrun, RewindableStream.size_eq hm'⟩
  · intro s c h offset length hlong ops hops
    obtain ⟨s₀, hnew, hend, hcut⟩ := InputRangeStream.new_cut h offset length
    obtain ⟨s', hrun⟩ := hcut.runWords ops (by rwa [hend]) hops
    exact ⟨s₀, s', hnew, hrun⟩

/-- Three streams, one of them empty, and a range of their concatenation that
reaches past its end. -/
theorem compositeStreams_cursor_nested :
    (∃ m', runOps [.read 3, .read 1, .rewind, .read 2] (MultiInputStream.new
        [MemoryInputStream.new [1, 2], .new [], .new [3]]) = ok [[1, 2, 3], [], [1, 2]] m') ∧
      ∃ s₀ s', InputRangeStream.new (MultiInputStream.new
          [MemoryInputStream.new [1, 2], .new [], .new [3]]) 1 5 = ok () s₀ ∧
        InputRangeStream.runWords [.read 1, .read 9, .rewind, .read 9] s₀ =
          ok [[2], [3], [2, 3]] s' := by
  have hparts : List.Forall₂ Holds [MemoryInputStream.new [1, 2], .new [], .new [3]]
      [[1, 2], [], [3]] :=
    .cons (MemoryInputStream.new_holds _) (.cons (MemoryInputStream.new_holds _)
      (.cons (MemoryInputStream.new_holds _) .nil))
  obtain ⟨-, m', hrun, -⟩ := compositeStreams_cursor.1 _ _ hparts [.read 3, .read 1, .rewind, .read 2]
  obtain ⟨s₀, s', hnew, hrun'⟩ := compositeStreams_cursor.2 _ _ (MultiInputStream.new_holds hparts) 1 5
    (by norm_num) [.read 1, .read 9, .rewind, .read 9] (by
      intro n hn
      simp at hn
      omega)
  exact ⟨⟨m', hrun⟩, s₀, s', hnew, hrun'⟩

/-! ### `BufferedInputStream` -/

/-- `BufferedInputStream`: the stream below and the `mBytesInBuffer` bytes at
`mNext`. -/
structure BufferedInputStream (σ : Type) where
  stream : σ
  buffer : Bytes

namespace BufferedInputStream

/-- `BufferedInputStream(stream)`. -/
def new (s : σ) : BufferedInputStream σ := ⟨s, []⟩

/-- Refill an empty buffer; false at the end of the stream. -/
def reload (b : BufferedInputStream σ) : Result (BufferedInputStream σ) Bool :=
  if b.buffer = [] then
    match InputStream.read b.stream 8192 with
    | error e s' => error e { b with stream := s' }
    | ok d s' => ok (d ≠ []) ⟨s', d⟩
  else ok true b

def isEof (b : BufferedInputStream σ) : Result (BufferedInputStream σ) Bool :=
  match reload b with
  | error e b' => error e b'
  | ok more b' => ok (!more) b'

/-- The next byte; 0 at the end of the stream. -/
def readByte (b : BufferedInputStream σ) : Result (BufferedInputStream σ) UInt8 :=
  match if b.buffer = [] then reload b else ok true b with
  | error e b' => error e b'
  | ok _ b' =>
    match b'.buffer with
    | x :: rest => ok x { b' with buffer := rest }
    | [] => ok 0 b'

/-- The loop of `read`: `size` bytes are still wanted, `acc` is what was copied
so far. -/
def readLoop : ℕ → BufferedInputStream σ → ℕ → Bytes → Result (BufferedInputStream σ) Bytes
  | 0, b, _, _ => error .outOfFuel b
  | k + 1, b, size, acc =>
    if b.buffer.length ≤ size then
      match reload { b with buffer := [] } with
      | error e b' => error e b'
      | ok more b' =>
        if more = false then ok (acc ++ b.buffer) b'
        else readLoop k b' (size - b.buffer.length) (acc ++ b.buffer)
    else ok (acc ++ b.buffer.take size) { b with buffer := b.buffer.drop size }

/-- `read`.  After the first round the buffer is never empty, so that every
round but the first and the last takes a byte. -/
def read (b : BufferedInputStream σ) (size : ℕ) : Result (BufferedInputStream σ) Bytes :=
  readLoop (size + 2) b size []

instance : InputStream (BufferedInputStream σ) where
  read := read
  skip s n := skipLoop read n n s 0
  canRewind _ := false
  rewind s := error (.thrown .InvalidOperationException
    "Input stream does not support rewind().") s
  size b := InputStream.size b.stream

/-- The buffer and the stream below have `r` left. -/
def Rep (R : σ → Bytes → Prop) (b : BufferedInputStream σ) (r : Bytes) : Prop :=
  ∃ r', R b.stream r' ∧ r = b.buffer ++ r'

variable {R : σ → Bytes → Prop}

theorem reload_spec (hR : Source R) {b : BufferedInputStream σ} {r : Bytes} (h : Rep R b r) :
    ∃ b', reload b = ok (decide (r ≠ [])) b' ∧ Rep R b' r ∧ (r ≠ [] → b'.buffer ≠ []) := by
  obtain ⟨r', hr', rfl⟩ := h
  rw [reload]
  by_cases hb : b.buffer = []
  · obtain ⟨s', hread, hs'⟩ := hR.read_ok hr' 8192
    have hiff : r'.take 8192 = [] ↔ r' = [] := by
      rw [List.take_eq_nil_iff]
      simp
    rw [if_pos hb, hread, hb, List.nil_append]
    refine ⟨⟨s', r'.take 8192⟩, ?_, ⟨r'.drop 8192, hs', ?_⟩, ?_⟩
    · simp only [ne_eq, hiff]
    · rw [List.take_append_drop]
    · intro hne
      show r'.take 8192 ≠ []
      exact fun hc => hne (hiff.mp hc)
  · rw [if_neg hb]
    refine ⟨b, ?_, ⟨r', hr', rfl⟩, fun _ => hb⟩
    simp [hb]

/-- `isEof` holds exactly when nothing is left. -/
theorem isEof_spec (hR : Source R) {b : BufferedInputStream σ} {r : Bytes} (h : Rep R b r) :
    ∃ b', isEof b = ok (decide (r = [])) b' ∧ Rep R b' r ∧ (r ≠ [] → b'.buffer ≠ []) := by
  obtain ⟨b', hreload, hb'⟩ := reload_spec hR h
  refine ⟨b', ?_, hb'⟩
  rw [isEof, hreload]
  simp

/-- `readByte` after `isEof` returned false: the next byte. -/
theorem readByte_spec {b : BufferedInputStream σ} {x : UInt8} {r : Bytes}
    (h : Rep R b (x :: r)) (hb : b.buffer ≠ []) :
    ∃ b', readByte b = ok x b' ∧ Rep R b' r := by
  obtain ⟨r', hr', heq⟩ := h
  obtain ⟨y, rest, hcons⟩ := List.exists_cons_of_ne_nil hb
  rw [hcons, List.cons_append] at heq
  obtain ⟨rfl, rfl⟩ := List.cons.inj heq
  refine ⟨{ b with buffer := rest }, ?_, r', hr', rfl⟩
  rw [readByte, if_neg hb]
  simp only [hcons]

/-- `readByte` in any state: the next byte, or 0 when nothing is left. -/
theorem readByte_next (hR : Source R) {b : BufferedInputStream σ} {r : Bytes} (h : Rep R b r) :
    ∃ b', readByte b = ok (r.headD 0) b' ∧ Rep R b' r.tail := by
  by_cases hb : b.buffer = []
  · obtain ⟨b', hreload, hb', hne⟩ := reload_spec hR h
    cases r with
    | nil =>
      obtain ⟨r', hr', heq⟩ := hb'
      have hempty : b'.buffer = [] := (List.append_eq_nil_iff.mp heq.symm).1
      refine ⟨b', ?_, r', hr', heq⟩
      rw [readByte, if_pos hb, hreload]
      simp only [hempty]
      rfl
    | cons x r =>
      -- once the buffer is filled, the byte comes out of it
      obtain ⟨b'', hbyte, hb''⟩ := readByte_spec hb' (hne (by simp))
      refine ⟨b'', ?_, hb''⟩
      rw [readByte, if_neg (hne (by simp))] at hbyte
      rw [readByte, if_pos hb, hreload]
      exact hbyte
  · obtain ⟨x, rest, hcons⟩ := List.exists_cons_of_ne_nil hb
    obtain ⟨r', hr', rfl⟩ := h
    rw [hcons, List.cons_append]
    exact readByte_spec ⟨r', hr', by rw [hcons, List.cons_append]; rfl⟩ hb

/-- The rounds of one `read`.  The bound falls with the bytes still wanted; an
empty buffer costs one round more. -/
theorem readLoop_spec (hR : Source R) : ∀ {k : ℕ} {b : BufferedInputStream σ} {r : Bytes} (size : ℕ)
    (acc : Bytes), Rep R b r → size + (if b.buffer = [] then 2 else 1) ≤ k →
      ∃ b', readLoop k b size acc = ok (acc ++ r.take size) b' ∧ Rep R b' (r.drop size) := by
  intro k
  induction k with
  | zero =>
    intro b r size acc _ hk
    split at hk <;> omega
  | succ k ih =>
    intro b r size acc h hk
    obtain ⟨r', hr', rfl⟩ := h
    rw [readLoop]
    by_cases hlen : b.buffer.length ≤ size
    · obtain ⟨b', hreload, hb', hne⟩ := reload_spec hR
        (show Rep R { b with buffer := [] } r' from ⟨r', hr', rfl⟩)
      rw [if_pos hlen, hreload, take_past_buffer hlen, drop_past_buffer hlen]
      by_cases hr : r' = []
      · subst hr
        exact ⟨b', by simp, by simpa using hb'⟩
      · have hbound : size - b.buffer.length + (if b'.buffer = [] then 2 else 1) ≤ k := by
          rw [if_neg (hne hr)]
          by_cases hb : b.buffer = []
          · rw [if_pos hb] at hk
            omega
          · rw [if_neg hb] at hk
            have := List.length_pos_iff.mpr hb
            omega
        obtain ⟨b'', hloop, hb''⟩ := ih (size - b.buffer.length) (acc ++ b.buffer) hb' hbound
        refine ⟨b'', ?_, hb''⟩
        simp only [ne_eq, hr, not_false_eq_true, decide_true, Bool.true_eq_false, if_false]
        rw [hloop, List.append_assoc]
    · rw [if_neg hlen]
      refine ⟨{ b with buffer := b.buffer.drop size }, ?_, r', hr', ?_⟩
      · rw [List.take_append_of_le_length (by omega)]
      · rw [List.drop_append_of_le_length (by omega)]

/-- `read` returns its full size as long as the bytes last. -/
theorem source (hR : Source R) : Source (Rep R : BufferedInputStream σ → Bytes → Prop) where
  read_ok h n := readLoop_spec hR n [] h (by split <;> omega)

/-! #### Any sequence of calls -/

/-- A call on a `BufferedInputStream`. -/
inductive Op
  | readByte
  | isEof
  | read (size : ℕ)
deriving DecidableEq

/-- What a call returns. -/
inductive Answer
  | byte (b : UInt8)
  | eof (b : Bool)
  | bytes (d : Bytes)
deriving DecidableEq

/-- A call. -/
def Op.run (b : BufferedInputStream σ) : Op → Result (BufferedInputStream σ) Answer
  | .readByte =>
    match b.readByte with
    | error e b' => error e b'
    | ok x b' => ok (.byte x) b'
  | .isEof =>
    match b.isEof with
    | error e b' => error e b'
    | ok x b' => ok (.eof x) b'
  | .read size =>
    match b.read size with
    | error e b' => error e b'
    | ok d b' => ok (.bytes d) b'

/-- A sequence of calls. -/
def run : List Op → BufferedInputStream σ → Result (BufferedInputStream σ) (List Answer)
  | [], b => ok [] b
  | op :: ops, b =>
    match op.run b with
    | error e b' => error e b'
    | ok a b' =>
      match run ops b' with
      | error e b'' => error e b''
      | ok as b'' => ok (a :: as) b''

/-- What a call should return when `r` is left, and what it delivers of it: at
the end `readByte` returns 0 and delivers nothing. -/
def Op.answer (r : Bytes) : Op → Answer × Bytes
  | .readByte => (.byte (r.headD 0), r.take 1)
  | .isEof => (.eof (decide (r = [])), [])
  | .read size => (.bytes (r.take size), r.take size)

/-- The same for a sequence of calls: each goes on after what was delivered
before. -/
def answers : List Op → Bytes → List (Answer × Bytes)
  | [], _ => []
  | op :: ops, r => op.answer r :: answers ops (r.drop (op.answer r).2.length)

omit [InputStream σ] in
/-- What is delivered is the beginning of the content, in order. -/
theorem answers_delivered : ∀ (ops : List Op) (r : Bytes),
    ((answers ops r).map Prod.snd).flatten <+: r := by
  intro ops
  induction ops with
  | nil =>
    intro r
    exact List.nil_prefix
  | cons op ops ih =>
    intro r
    have hfirst : (op.answer r).2 <+: r := by
      cases op with
      | readByte => exact List.take_prefix 1 r
      | isEof => exact List.nil_prefix
      | read size => exact List.take_prefix size r
    obtain ⟨left, hleft⟩ := ih (r.drop (op.answer r).2.length)
    refine ⟨left, ?_⟩
    rw [answers, List.map_cons, List.flatten_cons, List.append_assoc, hleft]
    exact List.prefix_iff_eq_append.mp hfirst

/-- One call. -/
theorem Op.run_spec (hR : Source R) {b : BufferedInputStream σ} {r : Bytes} (h : Rep R b r)
    (op : Op) :
    ∃ b', op.run b = ok (op.answer r).1 b' ∧ Rep R b' (r.drop (op.answer r).2.length) := by
  cases op with
  | readByte =>
    obtain ⟨b', hbyte, hb'⟩ := readByte_next hR h
    refine ⟨b', by simp only [Op.run, hbyte, Op.answer], ?_⟩
    cases r with
    | nil => exact hb'
    | cons x r => exact hb'
  | isEof =>
    obtain ⟨b', heof, hb', -⟩ := isEof_spec hR h
    exact ⟨b', by simp only [Op.run, heof, Op.answer], hb'⟩
  | read size =>
    obtain ⟨b', hread, hb'⟩ := (source hR).read_ok h size
    refine ⟨b', ?_, ?_⟩
    · simp only [Op.run, show b.read size = _ from hread, Op.answer]
    · show Rep R b' (r.drop (r.take size).length)
      rw [List.length_take]
      rcases Nat.le_total size r.length with hle | hle
      · rwa [min_eq_left hle]
      · rw [min_eq_right hle, List.drop_length]
        rwa [List.drop_eq_nil_of_le hle] at hb'

/-- **Buffered reading loses nothing.**  Whatever the calls, each returns what
it should for the content that was not delivered yet, and what the calls
deliver, one after the other, is the beginning of the content. -/
theorem run_answers (hR : Source R) {s : σ} {c : Bytes} (hs : R s c) (ops : List Op) :
    (∃ b', run ops (new s) = ok ((answers ops c).map Prod.fst) b') ∧
      ((answers ops c).map Prod.snd).flatten <+: c := by
  refine ⟨?_, answers_delivered ops c⟩
  have hrun : ∀ (ops : List Op) {b : BufferedInputStream σ} {r : Bytes}, Rep R b r →
      ∃ b', run ops b = ok ((answers ops r).map Prod.fst) b' := by
    intro ops
    induction ops with
    | nil =>
      intro b r _
      exact ⟨b, rfl⟩
    | cons op ops ih =>
      intro b r h
      obtain ⟨b', hop, hb'⟩ := op.run_spec hR h
      obtain ⟨b'', hrest⟩ := ih hb'
      exact ⟨b'', by simp only [run, hop, hrest, answers, List.map_cons]⟩
  exact hrun ops ⟨c, hs, rfl⟩

/-- Three bytes: the end is seen after the last one, and `readByte` returns 0
there. -/
theorem run_answers_three :
    ∃ b', run [.isEof, .read 0, .readByte, .read 5, .isEof, .readByte]
      (new (MemoryInputStream.new [7, 8, 9])) =
        ok [.eof false, .bytes [], .byte 7, .bytes [8, 9], .eof true, .byte 0] b' :=
  (run_answers (RewindableStream.source [7, 8, 9]) (MemoryInputStream.new_holds [7, 8, 9])
    [.isEof, .read 0, .readByte, .read 5, .isEof, .readByte]).1

end BufferedInputStream

end Nebula
