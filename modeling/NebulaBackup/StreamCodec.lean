/-
Reading and writing typed values on streams.

`writeType` and `readType` move the bytes of a machine integer, least
significant byte first.  A reader is an `EStateM` program on the stream;
`Reads p d a` says that `p` consumes exactly the bytes `d` and returns `a`,
and `Writes p d` that `p` appends exactly the bytes `d`.  Both compose along
`>>=`, so a format is checked field by field.  `Parses r p Q` is about input
that nobody wrote: on any bytes `r` the reader throws or returns with `Q`.
-/
import NebulaBackup.Hoare
import NebulaBackup.InputStream

namespace Nebula

open EStateM.Result

/-! ### Little-endian integers -/

/-- The `w` bytes of a `w`-byte integer. -/
def leBytes : ℕ → ℕ → Bytes
  | 0, _ => []
  | w + 1, n => (n % 256).toUInt8 :: leBytes w (n / 256)

/-- The integer with the given bytes. -/
def leNat : Bytes → ℕ
  | [] => 0
  | b :: bs => b.toNat + 256 * leNat bs

@[simp] theorem leBytes_length (w n : ℕ) : (leBytes w n).length = w := by
  induction w generalizing n with
  | zero => rfl
  | succ w ih => rw [leBytes, List.length_cons, ih]

theorem leNat_leBytes (w : ℕ) : ∀ {n : ℕ}, n < 256 ^ w → leNat (leBytes w n) = n := by
  induction w with
  | zero =>
    intro n hn
    rw [pow_zero] at hn
    rw [leBytes, leNat]
    omega
  | succ w ih =>
    intro n hn
    have hdiv : n / 256 < 256 ^ w := by
      rw [Nat.div_lt_iff_lt_mul (by decide)]
      rwa [pow_succ] at hn
    have hbyte : (n % 256).toUInt8.toNat = n % 256 :=
      UInt8.toNat_ofNat_of_lt' (Nat.mod_lt _ (by decide))
    rw [leBytes, leNat, ih hdiv, hbyte]
    omega

/-! ### Readers and writers -/

section Programs

variable {σ ω α : Type} [InputStream σ] [OutputStream ω]

/-- `InputStream::readExpected` as a program. -/
def expect (n : ℕ) : EStateM Fault σ Bytes := fun s => readExpected s n

/-- `InputStream::readType<T>` for an integer type of `w` bytes. -/
def readType (w : ℕ) : EStateM Fault σ ℕ := do
  let d ← expect w
  return leNat d

/-- A digest of `n` bytes; `readExpected` returned that many. -/
def readDigest (n : ℕ) : EStateM Fault σ (Digest n) := do
  let d ← expect n
  if h : d.length = n then return ⟨d, h⟩ else throw .undefined

/-- `n` values one after the other. -/
def readMany (p : EStateM Fault σ α) : ℕ → EStateM Fault σ (List α)
  | 0 => return []
  | n + 1 => do
    let a ← p
    let as ← readMany p n
    return a :: as

/-- `for(int i = 0; i < n; ++i)` with an unsigned bound `n`: the counter
overflows in round `2 ^ 31`. -/
def counted (n : ℕ) (loop : ℕ → EStateM Fault σ α) : EStateM Fault σ α :=
  if n < 2 ^ 31 then loop n
  else do
    let _ ← loop (2 ^ 31)
    throw .undefined

/-- `OutputStream::write` as a program. -/
def put (d : Bytes) : EStateM Fault ω Unit := fun o => OutputStream.write o d

/-- `OutputStream::writeType<T>` for an integer type of `w` bytes. -/
def writeType (w n : ℕ) : EStateM Fault ω Unit := put (leBytes w n)

/-- A loop that writes the elements of a list. -/
def writeMany (p : α → EStateM Fault ω Unit) : List α → EStateM Fault ω Unit
  | [] => return ()
  | a :: as => do
    p a
    writeMany p as

end Programs

theorem counted_of_lt {σ α : Type} {n : ℕ} (h : n < 2 ^ 31) (loop : ℕ → EStateM Fault σ α) :
    counted n loop = loop n := if_pos h

/-- Only a loop whose counter does not overflow returns. -/
theorem counted_ok {σ α : Type} {n : ℕ} {loop : ℕ → EStateM Fault σ α} {s s' : σ} {a : α}
    (h : counted n loop s = ok a s') : loop n s = ok a s' := by
  by_cases hn : n < 2 ^ 31
  · rwa [counted_of_lt hn] at h
  · rw [counted, if_neg hn] at h
    obtain ⟨b, t, -, hthrow⟩ := Hoare.of_run_ok h
    cases hthrow

/-! ### What they consume and produce -/

section Combinators

variable {σ ω α β : Type} {R : σ → Bytes → Prop} {W : ω → Bytes → Prop}

/-- The reader `p` consumes exactly `d` and returns `a`. -/
def Reads (R : σ → Bytes → Prop) (p : EStateM Fault σ α) (d : Bytes) (a : α) : Prop :=
  ∀ (s : σ) (r : Bytes), R s (d ++ r) → ∃ s', p s = ok a s' ∧ R s' r

/-- The writer `p` appends exactly `d`. -/
def Writes (W : ω → Bytes → Prop) (p : EStateM Fault ω Unit) (d : Bytes) : Prop :=
  ∀ (o : ω) (w : Bytes), W o w → ∃ o', p o = ok () o' ∧ W o' (w ++ d)

theorem Reads.pure (a : α) : Reads R (Pure.pure a) [] a := by
  intro s r h
  exact ⟨s, rfl, h⟩

theorem Reads.bind {p : EStateM Fault σ α} {f : α → EStateM Fault σ β} {d d' : Bytes} {a : α}
    {b : β} (hp : Reads R p d a) (hf : Reads R (f a) d' b) : Reads R (p >>= f) (d ++ d') b := by
  intro s r h
  rw [List.append_assoc] at h
  obtain ⟨s', hrun, hs'⟩ := hp s _ h
  obtain ⟨s'', hrun', hs''⟩ := hf s' r hs'
  refine ⟨s'', ?_, hs''⟩
  show EStateM.bind p f s = _
  simp only [EStateM.bind, hrun, hrun']

/-- A reader on a stream that starts with what it consumes. -/
theorem Reads.run {p : EStateM Fault σ α} {a : α} {n : ℕ} {r : Bytes} (hp : Reads R p (r.take n) a)
    {s : σ} (hs : R s r) : ∃ s', p s = ok a s' ∧ R s' (r.drop n) :=
  hp s (r.drop n) (by rwa [List.take_append_drop])

/-- A reader followed by a pure computation. -/
theorem Reads.map {p : EStateM Fault σ α} {d : Bytes} {a : α} (hp : Reads R p d a) (f : α → β) :
    Reads R (do let x ← p; return f x) d (f a) := by
  have h := hp.bind (Reads.pure (R := R) (f a)) (f := fun x => Pure.pure (f x))
  rwa [List.append_nil] at h

theorem Writes.pure : Writes W (Pure.pure ()) [] := by
  intro o w h
  exact ⟨o, rfl, by simpa using h⟩

theorem Writes.bind {p q : EStateM Fault ω Unit} {d d' : Bytes} (hp : Writes W p d)
    (hq : Writes W q d') : Writes W (p >>= fun _ => q) (d ++ d') := by
  intro o w h
  obtain ⟨o', hrun, ho'⟩ := hp o w h
  obtain ⟨o'', hrun', ho''⟩ := hq o' _ ho'
  refine ⟨o'', ?_, by rwa [List.append_assoc] at ho''⟩
  show EStateM.bind p (fun _ => q) o = _
  simp only [EStateM.bind, hrun, hrun']

theorem readMany_reads {p : EStateM Fault σ α} {enc : α → Bytes} :
    ∀ {l : List α}, (∀ a ∈ l, Reads R p (enc a) a) →
      Reads R (readMany p l.length) (l.flatMap enc) l := by
  intro l
  induction l with
  | nil =>
    intro _
    exact Reads.pure []
  | cons a l ih =>
    intro h
    have hl := ih fun b hb => h b (List.mem_cons_of_mem a hb)
    exact (h a List.mem_cons_self).bind (hl.map (a :: ·))

theorem writeMany_writes {p : α → EStateM Fault ω Unit} {enc : α → Bytes}
    (h : ∀ a, Writes W (p a) (enc a)) (l : List α) : Writes W (writeMany p l) (l.flatMap enc) := by
  induction l with
  | nil => exact Writes.pure
  | cons a l ih => exact (h a).bind ih

/-! Readers on arbitrary input. -/

/-- On a stream with `r` left the reader throws an exception, or it returns `a`
and leaves `r'` with `Q a r'`. -/
def Parses (R : σ → Bytes → Prop) (r : Bytes) (p : EStateM Fault σ α) (Q : α → Bytes → Prop) :
    Prop :=
  Hoare.Triple (fun s => R s r) p (fun a s => ∃ r', Q a r' ∧ R s r')
    fun e _ => ∃ kind what, e = .thrown kind what

namespace Parses

variable {r : Bytes} {Q : α → Bytes → Prop} {Q' : β → Bytes → Prop}

theorem pure {a : α} (h : Q a r) : Parses R r (Pure.pure a : EStateM Fault σ α) Q :=
  Hoare.Triple.pure fun _ hs => ⟨r, h, hs⟩

theorem throw (kind : ExceptionType) (what : String) :
    Parses R r (MonadExcept.throw (.thrown kind what) : EStateM Fault σ α) Q :=
  Hoare.Triple.throw fun _ _ => ⟨kind, what, rfl⟩

theorem bind {p : EStateM Fault σ α} {f : α → EStateM Fault σ β} (hp : Parses R r p Q)
    (hf : ∀ a r', Q a r' → Parses R r' (f a) Q') : Parses R r (p >>= f) Q' := by
  refine Hoare.Triple.bind hp fun a s hs => ?_
  obtain ⟨r', hQ, hr'⟩ := hs
  exact hf a r' hQ s hr'

/-- A weaker postcondition. -/
theorem imp {p : EStateM Fault σ α} {Q'' : α → Bytes → Prop} (hp : Parses R r p Q)
    (h : ∀ a r', Q a r' → Q'' a r') : Parses R r p Q'' := by
  refine Hoare.Triple.conseq hp (fun _ hs => hs) (fun a s hs => ?_) fun _ _ he => he
  obtain ⟨r', hQ, hr'⟩ := hs
  exact ⟨r', h a r' hQ, hr'⟩

/-- How such a run ends. -/
theorem ends {p : EStateM Fault σ α} (hp : Parses R r p Q) {s : σ} (hs : R s r) :
    (∃ kind what s', p s = error (.thrown kind what) s') ∨
      ∃ a s' r', p s = ok a s' ∧ Q a r' ∧ R s' r' := by
  have hrun := hp s hs
  cases hps : p s with
  | ok a s' =>
    rw [hps] at hrun
    obtain ⟨r', hQ, hr'⟩ := hrun
    exact Or.inr ⟨a, s', r', rfl, hQ, hr'⟩
  | error e s' =>
    rw [hps] at hrun
    obtain ⟨kind, what, rfl⟩ := hrun
    exact Or.inl ⟨kind, what, s', rfl⟩

end Parses

end Combinators

section Specs

variable {σ ω α : Type} [InputStream σ] [OutputStream ω] {R : σ → Bytes → Prop}
  {W : ω → Bytes → Prop}

theorem expect_reads (hR : Source R) (d : Bytes) : Reads R (expect d.length) d d := by
  intro s r h
  exact readExpected_spec hR h

theorem expect_reads' (hR : Source R) {d : Bytes} {n : ℕ} (hn : d.length = n) :
    Reads R (expect n) d d := hn ▸ expect_reads hR d

theorem readType_reads (hR : Source R) {w n : ℕ} (h : n < 256 ^ w) :
    Reads R (readType w) (leBytes w n) n := by
  have hmap := (expect_reads' hR (leBytes_length w n)).map leNat
  rwa [leNat_leBytes w h] at hmap

theorem readDigest_reads (hR : Source R) {n : ℕ} (v : Digest n) :
    Reads R (readDigest n) v.toList v := by
  have hlen : v.toList.length = n := v.toList_length
  have hcheck : Reads R (if h : v.toList.length = n then
      (Pure.pure ⟨v.toList, h⟩ : EStateM Fault σ (Digest n)) else throw .undefined) [] v := by
    rw [dif_pos hlen]
    exact Reads.pure _
  have hbind := (expect_reads' hR hlen).bind (f := fun d =>
    if h : d.length = n then (Pure.pure ⟨d, h⟩ : EStateM Fault σ (Digest n)) else throw .undefined)
    hcheck
  rwa [List.append_nil] at hbind

theorem expect_parses (hR : Source R) (r : Bytes) (n : ℕ) :
    Parses R r (expect n) fun d r' => d = r.take n ∧ r' = r.drop n ∧ n ≤ r.length := by
  intro s hs
  obtain ⟨s', hread, hs'⟩ := hR.read_ok hs n
  have hlen : (r.take n).length = min n r.length := List.length_take
  by_cases hn : n ≤ r.length
  · have hrun : expect n s = ok (r.take n) s' := by
      rw [expect, readExpected, hread]
      exact if_neg (by omega)
    rw [hrun]
    exact ⟨_, ⟨rfl, rfl, hn⟩, hs'⟩
  · have hrun : ∃ what, expect n s = error (.thrown .ShortReadException what) s' := by
      rw [expect, readExpected, hread]
      exact ⟨_, if_pos (by omega)⟩
    obtain ⟨what, hrun⟩ := hrun
    rw [hrun]
    exact ⟨_, what, rfl⟩

theorem readType_parses (hR : Source R) (r : Bytes) (w : ℕ) :
    Parses R r (readType w) fun n r' => n = leNat (r.take w) ∧ r' = r.drop w ∧ w ≤ r.length :=
  (expect_parses hR r w).bind fun d r' h => Parses.pure ⟨by rw [h.1], h.2⟩

omit [InputStream σ] in
/-- A loop over at most `2 ^ 31 - 1` rounds, or one that stops before. -/
theorem counted_parses {r : Bytes} {n : ℕ} {loop : ℕ → EStateM Fault σ α}
    {Q : ℕ → α → Bytes → Prop} (hloop : ∀ k, Parses R r (loop k) (Q k))
    (hstop : n < 2 ^ 31 ∨ ∀ a r', ¬ Q (2 ^ 31) a r') : Parses R r (counted n loop) (Q n) := by
  rw [counted]
  split
  · exact hloop n
  · rename_i hn
    exact (hloop _).bind fun a r' h => absurd h (hstop.resolve_left hn a r')

theorem readDigest_parses (hR : Source R) (r : Bytes) (n : ℕ) :
    Parses R r (readDigest n) fun d r' => d.toList = r.take n ∧ r' = r.drop n ∧ n ≤ r.length := by
  refine (expect_parses hR r n).bind fun d r' h => ?_
  obtain ⟨rfl, rfl, hn⟩ := h
  have hlen : (r.take n).length = n := by rw [List.length_take, min_eq_left hn]
  have hcheck : (if h : (r.take n).length = n then
      (Pure.pure ⟨r.take n, h⟩ : EStateM Fault σ (Digest n)) else throw .undefined) =
      Pure.pure ⟨r.take n, hlen⟩ := dif_pos hlen
  exact hcheck ▸ Parses.pure ⟨rfl, rfl, hn⟩

theorem put_writes (hW : Sink W) (d : Bytes) : Writes W (put d) d := by
  intro o w h
  exact hW.write_ok h d

theorem writeType_writes (hW : Sink W) (w n : ℕ) : Writes W (writeType w n) (leBytes w n) :=
  put_writes hW _

end Specs

end Nebula
