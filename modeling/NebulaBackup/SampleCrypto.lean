/-
A small instance of the library parameters.

The digests and the key derivation are tables with a default, the block cipher
exchanges the pairs of blocks of a table, and the LZMA2 coder writes every
byte as an uncompressed chunk of its own: the control byte 1, the size less
one in two bytes, and the data; a zero byte ends the stream.  So the instance
can carry the values the real functions have on chosen inputs, and it meets
everything the program relies on (`SampleTables.crypto_lawful`).
-/
import NebulaBackup.Crypto

namespace Nebula

/-! ### Uncompressed LZMA2 chunks -/

/-- Where the decoder stands in a chunk. -/
inductive StoredState
  | control
  | sizeHigh
  | sizeLow
  | data
deriving DecidableEq

namespace StoredState

/-- The rest of the stream for the output still due, seen from a state; there
is none in the middle of a chunk without data. -/
def rest : StoredState → Bytes → Option Bytes
  | control, o => some ((o.flatMap fun b => [1, 0, 0, b]) ++ [0])
  | _, [] => none
  | sizeHigh, b :: o => some ([0, 0, b] ++ ((o.flatMap fun b => [1, 0, 0, b]) ++ [0]))
  | sizeLow, b :: o => some ([0, b] ++ ((o.flatMap fun b => [1, 0, 0, b]) ++ [0]))
  | data, b :: o => some ([b] ++ ((o.flatMap fun b => [1, 0, 0, b]) ++ [0]))

/-- The decoder: it stops at the end mark, when there is no room for the next
byte, or at the end of the input. -/
def decode : StoredState → ℕ → Bytes → Option (LzmaStep StoredState)
  | s, _, [] => some ⟨s, [], 0, .NeedsMoreInput⟩
  | control, room, x :: input =>
    if x = 0 then some ⟨control, [], 1, .FinishedWithMark⟩
    else if x = 1 then
      (decode sizeHigh room input).map fun st => { st with consumed := st.consumed + 1 }
    else none
  | sizeHigh, room, _ :: input =>
    (decode sizeLow room input).map fun st => { st with consumed := st.consumed + 1 }
  | sizeLow, room, _ :: input =>
    (decode data room input).map fun st => { st with consumed := st.consumed + 1 }
  | data, 0, _ :: _ => some ⟨data, [], 0, .NotFinished⟩
  | data, room + 1, x :: input =>
    (decode control room input).map fun st =>
      { st with out := x :: st.out, consumed := st.consumed + 1 }

/-- `rest` as the invariant of the decoder. -/
def Mid (s : StoredState) (r o : Bytes) : Prop := s.rest o = some r

theorem mid_ne_nil {s : StoredState} {r o : Bytes} (h : Mid s r o) : r ≠ [] := by
  rintro rfl
  cases s <;> cases o <;> simp [Mid, rest] at h

/-- A step over one byte that produces nothing. -/
theorem goodStep_skip {x : UInt8} {r o input : Bytes} {room : ℕ}
    {st : LzmaStep StoredState} (h : Lzma.GoodStep Mid r o input room st) :
    Lzma.GoodStep Mid (x :: r) o (x :: input) room { st with consumed := st.consumed + 1 } := by
  obtain ⟨hroom, hcons, hcase⟩ := h
  refine ⟨hroom, by simpa using hcons, ?_⟩
  rcases hcase with ⟨hfin, hout, hall⟩ | ⟨hfin, hstop, o', ho, hmid⟩
  · exact Or.inl ⟨hfin, hout, by simpa using hall⟩
  · exact Or.inr ⟨hfin, by simpa using hstop, o', ho, by simpa using hmid⟩

/-- A step over the data byte of a chunk. -/
theorem goodStep_byte {x : UInt8} {r o input : Bytes} {room : ℕ}
    {st : LzmaStep StoredState} (h : Lzma.GoodStep Mid r o input room st) :
    Lzma.GoodStep Mid (x :: r) (x :: o) (x :: input) (room + 1)
      { st with out := x :: st.out, consumed := st.consumed + 1 } := by
  obtain ⟨hroom, hcons, hcase⟩ := h
  refine ⟨by simpa using hroom, by simpa using hcons, ?_⟩
  rcases hcase with ⟨hfin, hout, hall⟩ | ⟨hfin, hstop, o', ho, hmid⟩
  · exact Or.inl ⟨hfin, by simpa using hout, by simpa using hall⟩
  · exact Or.inr ⟨hfin, by simpa using hstop, o', by simp [ho], by simpa using hmid⟩

/-- Every call in the middle of a stream is a good step, by induction on the
input offered. -/
theorem decode_good : ∀ (input : Bytes) (s : StoredState) (r o : Bytes) (room : ℕ),
    Mid s r o → input <+: r →
      ∃ st, decode s room input = some st ∧ Lzma.GoodStep Mid r o input room st := by
  intro input
  induction input with
  | nil =>
    intro s r o room hmid _
    refine ⟨⟨s, [], 0, .NeedsMoreInput⟩, by simp [decode], Nat.zero_le _, le_refl _, Or.inr ?_⟩
    exact ⟨rfl, Or.inr rfl, o, rfl, hmid⟩
  | cons x input ih =>
    intro s r o room hmid hpre
    obtain ⟨y, r', rfl⟩ := List.exists_cons_of_ne_nil (mid_ne_nil hmid)
    rw [List.cons_prefix_cons] at hpre
    obtain ⟨rfl, hpre⟩ := hpre
    cases s with
    | control =>
      cases o with
      | nil =>
        -- the end mark
        simp only [Mid, rest, List.flatMap_nil, List.nil_append, Option.some.injEq,
          List.cons.injEq] at hmid
        obtain ⟨rfl, rfl⟩ := hmid
        exact ⟨⟨.control, [], 1, .FinishedWithMark⟩, by simp [decode], Nat.zero_le _, by simp,
          Or.inl ⟨rfl, rfl, rfl⟩⟩
      | cons b o =>
        simp only [Mid, rest, List.flatMap_cons, List.cons_append, List.nil_append,
          Option.some.injEq, List.cons.injEq] at hmid
        obtain ⟨rfl, rfl⟩ := hmid
        obtain ⟨st, hst, hgood⟩ := ih .sizeHigh _ (b :: o) room rfl hpre
        refine ⟨_, ?_, goodStep_skip hgood⟩
        simp [decode, hst]
    | sizeHigh =>
      cases o with
      | nil => simp [Mid, rest] at hmid
      | cons b o =>
        simp only [Mid, rest, List.cons_append, List.nil_append, Option.some.injEq,
          List.cons.injEq] at hmid
        obtain ⟨rfl, rfl⟩ := hmid
        obtain ⟨st, hst, hgood⟩ := ih .sizeLow _ (b :: o) room rfl hpre
        refine ⟨_, ?_, goodStep_skip hgood⟩
        simp [decode, hst]
    | sizeLow =>
      cases o with
      | nil => simp [Mid, rest] at hmid
      | cons b o =>
        simp only [Mid, rest, List.cons_append, List.nil_append, Option.some.injEq,
          List.cons.injEq] at hmid
        obtain ⟨rfl, rfl⟩ := hmid
        obtain ⟨st, hst, hgood⟩ := ih .data _ (b :: o) room rfl hpre
        refine ⟨_, ?_, goodStep_skip hgood⟩
        simp [decode, hst]
    | data =>
      cases o with
      | nil => simp [Mid, rest] at hmid
      | cons b o =>
        cases room with
        | zero =>
          exact ⟨⟨.data, [], 0, .NotFinished⟩, by simp [decode], le_refl _, Nat.zero_le _,
            Or.inr ⟨rfl, Or.inl rfl, _, rfl, hmid⟩⟩
        | succ room =>
          simp only [Mid, rest, List.cons_append, List.nil_append, Option.some.injEq,
            List.cons.injEq] at hmid
          obtain ⟨rfl, rfl⟩ := hmid
          obtain ⟨st, hst, hgood⟩ := ih .control _ o room rfl hpre
          refine ⟨_, ?_, goodStep_byte hgood⟩
          simp [decode, hst]

end StoredState

/-- The coder with uncompressed chunks of one byte. -/
def storedLzma : Lzma where
  State := StoredState
  readSize := 4096
  encode d := (28, d.map (fun b => [1, 0, 0, b]) ++ [[0]])
  allocate prop := if prop ≤ 40 then some .control else none
  decodeToBuf := StoredState.decode

theorem storedLzma_inverse : storedLzma.StreamingInverse := by
  refine ⟨by decide, StoredState.Mid, ?_, ?_, ?_⟩
  · intro s r o h
    exact StoredState.mid_ne_nil h
  · intro d
    refine ⟨.control, rfl, ?_⟩
    show some _ = some _
    simp [storedLzma, List.flatMap]
  · intro s r o hmid input room hpre _ _
    exact StoredState.decode_good input s r o room hmid hpre

/-! ### Tables -/

/-- A function given by a table and a default. -/
def tabulate {α β : Type} [DecidableEq α] (tbl : List (α × β)) (dflt : α → β) (a : α) : β :=
  (tbl.lookup a).getD (dflt a)

/-- The first `n` bytes of `b`, filled up with zeros. -/
def fillBytes (n : ℕ) (b : Bytes) : Digest n := ⟨(b ++ List.replicate n 0).take n, by simp⟩

/-- `n` bytes written as a hexadecimal number, the first byte first. -/
def hexDigest (n value : ℕ) : Digest n :=
  ⟨((List.range n).map fun i => (value / 256 ^ i % 256).toUInt8).reverse, by simp⟩

/-- Exchange two blocks. -/
def swapBlock (p : Digest 16 × Digest 16) (x : Bytes) : Bytes :=
  if x = p.1.toList then p.2.toList else if x = p.2.toList then p.1.toList else x

theorem swapBlock_length {p : Digest 16 × Digest 16} {x : Bytes} (h : x.length = 16) :
    (swapBlock p x).length = 16 := by
  rw [swapBlock]
  split
  · exact p.2.toList_length
  · split
    · exact p.1.toList_length
    · exact h

theorem swapBlock_swapBlock (p : Digest 16 × Digest 16) (x : Bytes) :
    swapBlock p (swapBlock p x) = x := by
  rw [swapBlock, swapBlock]
  split_ifs <;> simp_all

/-- The block cipher that exchanges the pairs of a table one after another. -/
def swapCipher (tbl : List (Digest 16 × Digest 16)) : BlockCipher where
  size := 16
  enc x := tbl.foldr swapBlock x
  dec x := tbl.foldl (fun y p => swapBlock p y) x

theorem swapCipher_lawful (tbl : List (Digest 16 × Digest 16)) : (swapCipher tbl).Lawful where
  size_pos := Nat.zero_lt_succ 15
  size_lt := show 16 < 256 by decide
  enc_length x hx := by
    have hlen : ∀ l : List (Digest 16 × Digest 16), (l.foldr swapBlock x).length = 16 := by
      intro l
      induction l with
      | nil => exact hx
      | cons p l ih => exact swapBlock_length ih
    exact hlen tbl
  dec_enc x _ := by
    have hinv : ∀ l : List (Digest 16 × Digest 16),
        l.foldl (fun y p => swapBlock p y) (l.foldr swapBlock x) = x := by
      intro l
      induction l with
      | nil => rfl
      | cons p l ih =>
        rw [List.foldr_cons, List.foldl_cons, swapBlock_swapBlock]
        exact ih
    exact hinv tbl

/-- Tables for the library functions. -/
structure SampleTables where
  hmac : List ((Bytes × Bytes) × Digest 32) := []
  md5 : List (Bytes × Digest 16) := []
  /-- Pairs of blocks, with the key under which one is the cipher of the
  other. -/
  aes : List (Bytes × Digest 16 × Digest 16) := []
  pbkdf2 : List ((Bytes × Bytes) × Bytes) := []

/-- The library with the values of the tables; a digest that is not in its
table is the beginning of the data. -/
def SampleTables.crypto (T : SampleTables) : Crypto where
  hmacSha256 k d := tabulate T.hmac (fun p => fillBytes 32 p.2) (k, d)
  staleHmac _ parts := fillBytes 32 parts.flatten
  md5 := tabulate T.md5 (fillBytes 16)
  aes256 k := swapCipher ((T.aes.filter (·.1 = k)).map (·.2))
  pbkdf2 password salt _ n :=
    (fillBytes n (tabulate T.pbkdf2 (fun p => p.1 ++ p.2) (password, salt))).toList
  lzma := storedLzma

/-- **The instance is lawful**, whatever the tables. -/
theorem SampleTables.crypto_lawful (T : SampleTables) : T.crypto.Lawful where
  aes_lawful _ := swapCipher_lawful _
  aes_size _ := rfl
  pbkdf2_length _ _ _ _ := List.Vector.toList_length _
  lzma_inverse := storedLzma_inverse

end Nebula
