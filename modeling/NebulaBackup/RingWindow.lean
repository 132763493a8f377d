/-
A sliding window in a ring buffer, and its Horner value.

`ring buffer i` is the content of a ring buffer, the oldest element first, when
the newest one stands at the index `i`; writing the next element over the
oldest one slides the window (`ring_set`).  The Horner value of a window in a
commutative ring can be slid without looking at the elements in between
(`horner_slide`).
-/
import Mathlib

namespace RingWindow

variable {α R : Type}

/-! ### Ring buffers -/

/-- The elements from the oldest to the newest, which is at `i`. -/
def ring (buffer : List α) (i : ℕ) : List α := buffer.drop (i + 1) ++ buffer.take (i + 1)

@[simp] theorem ring_length (buffer : List α) (i : ℕ) : (ring buffer i).length = buffer.length := by
  rw [ring, List.length_append, List.length_drop, List.length_take]
  omega

/-- The oldest element is the next one in the buffer. -/
theorem ring_eq_cons {buffer : List α} {i : ℕ} (hi : i < buffer.length) (default : α) :
    ring buffer i = buffer.getD ((i + 1) % buffer.length) default ::
      (buffer.drop ((i + 1) % buffer.length + 1) ++ buffer.take ((i + 1) % buffer.length)) := by
  by_cases hlast : i + 1 = buffer.length
  · -- the buffer is in order
    have hpos : 0 < buffer.length := by omega
    obtain ⟨a, rest, rfl⟩ := List.exists_cons_of_ne_nil (List.ne_nil_of_length_pos hpos)
    rw [hlast, Nat.mod_self, ring, hlast, List.drop_length, List.take_length]
    simp
  · have hlt : i + 1 < buffer.length := by omega
    rw [Nat.mod_eq_of_lt hlt, ring, List.drop_eq_getElem_cons hlt, List.getD_eq_getElem _ _ hlt]
    rfl

/-- **Writing over the oldest element slides the window.** -/
theorem ring_set {buffer : List α} {i : ℕ} (hi : i < buffer.length) (c : α) :
    ring (buffer.set ((i + 1) % buffer.length) c) ((i + 1) % buffer.length) =
      (ring buffer i).tail ++ [c] := by
  have hlt : (i + 1) % buffer.length < buffer.length := Nat.mod_lt _ (by omega)
  rw [ring_eq_cons hi c, List.tail_cons, ring, List.drop_set_of_lt (Nat.lt_succ_self _),
    List.append_assoc]
  congr 1
  rw [List.take_add_one, List.take_set_of_le (le_refl _), List.getElem?_set_self hlt]
  rfl

/-! ### Horner values -/

variable [CommRing R] (base : R) (weight : α → R)

/-- The value of the window, the newest element with the factor 1. -/
def horner (w : List α) : R := w.foldl (fun h c => h * base + weight c) 0

theorem horner_concat (w : List α) (c : α) :
    horner base weight (w ++ [c]) = horner base weight w * base + weight c := by
  rw [horner, List.foldl_append]
  rfl

theorem horner_cons (c : α) (w : List α) :
    horner base weight (c :: w) = weight c * base ^ w.length + horner base weight w := by
  induction w using List.reverseRecOn with
  | nil => simp [horner]
  | append_singleton w d ih =>
    rw [← List.cons_append, horner_concat, ih, horner_concat, List.length_append,
      List.length_singleton]
    ring

/-- **Sliding the window by one element.** -/
theorem horner_slide (a : α) (w : List α) (c : α) :
    horner base weight (w ++ [c]) =
      horner base weight (a :: w) * base + weight c - base ^ (w.length + 1) * weight a := by
  rw [horner_concat, horner_cons]
  ring

end RingWindow
