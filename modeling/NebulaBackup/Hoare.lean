/-
Pre- and postconditions for programs with state and exceptions.

A program is an `EStateM`; `Triple P p Q E` says that from every state with
`P` it ends either with a value and a state related by `Q`, or with an
exception and a state related by `E`.  The rules follow the program: `pure`,
`bind`, `throw`, reading and changing the state, and a recursion over a list.
`run_ok` is the rule for a run whose first step is known.
-/
import Mathlib

namespace Hoare

variable {ε σ α β γ : Type}

open EStateM.Result

/-- The rest of a run whose first step returned. -/
theorem run_ok {p : EStateM ε σ α} {f : α → EStateM ε σ β} {s s' : σ} {a : α}
    (h : p s = ok a s') : (p >>= f) s = f a s' := by
  show EStateM.bind p f s = _
  simp only [EStateM.bind, h]

/-- A run, one step after the other. -/
theorem run_step {p : EStateM ε σ α} {f : α → EStateM ε σ β} {s s' : σ} {a : α}
    {r : EStateM.Result ε σ β} (h : p s = ok a s') (hf : f a s' = r) : (p >>= f) s = r := by
  rw [run_ok h, hf]

/-- A run whose first step stopped. -/
theorem run_error {p : EStateM ε σ α} {f : α → EStateM ε σ β} {s s' : σ} {e : ε}
    (h : p s = error e s') : (p >>= f) s = error e s' := by
  show EStateM.bind p f s = _
  simp only [EStateM.bind, h]

/-- The two halves of a run that returned. -/
theorem of_run_ok {p : EStateM ε σ α} {f : α → EStateM ε σ β} {s s'' : σ} {b : β}
    (h : (p >>= f) s = ok b s'') : ∃ a s', p s = ok a s' ∧ f a s' = ok b s'' := by
  cases hp : p s with
  | ok a s' => exact ⟨a, s', rfl, (run_ok hp).symm.trans h⟩
  | error e s' => exact absurd ((run_error hp).symm.trans h) (by simp)

/-- From `P` the program ends in `Q` or stops in `E`. -/
def Triple (P : σ → Prop) (p : EStateM ε σ α) (Q : α → σ → Prop) (E : ε → σ → Prop) : Prop :=
  ∀ s, P s → match p s with
    | ok a s' => Q a s'
    | error e s' => E e s'

namespace Triple

variable {P : σ → Prop} {Q : α → σ → Prop} {E : ε → σ → Prop}

theorem pure {a : α} (h : ∀ s, P s → Q a s) : Triple P (Pure.pure a : EStateM ε σ α) Q E :=
  fun s hs => h s hs

theorem throw {e : ε} (h : ∀ s, P s → E e s) :
    Triple P (MonadExcept.throw e : EStateM ε σ α) Q E :=
  fun s hs => h s hs

theorem bind {p : EStateM ε σ α} {f : α → EStateM ε σ β} {R : β → σ → Prop}
    (hp : Triple P p Q E) (hf : ∀ a, Triple (Q a) (f a) R E) : Triple P (p >>= f) R E := by
  intro s hs
  have hfirst := hp s hs
  cases hrun : p s with
  | ok a s' =>
    rw [hrun] at hfirst
    rw [run_ok hrun]
    exact hf a s' hfirst
  | error e s' =>
    rw [hrun] at hfirst
    rw [run_error hrun]
    exact hfirst

/-- Reading the state. -/
theorem get_bind {f : σ → EStateM ε σ α} (h : ∀ s, P s → Triple (fun t => t = s ∧ P t) (f s) Q E) :
    Triple P (MonadState.get >>= f) Q E :=
  fun s hs => h s hs s ⟨rfl, hs⟩

/-- Changing the state. -/
theorem modify {g : σ → σ} {R : Unit → σ → Prop} (h : ∀ s, P s → R () (g s)) :
    Triple P (modifyGet fun s => ((), g s) : EStateM ε σ Unit) R E :=
  fun s hs => h s hs

/-- A weaker precondition and stronger postconditions. -/
theorem conseq {p : EStateM ε σ α} {P' : σ → Prop} {Q' : α → σ → Prop} {E' : ε → σ → Prop}
    (h : Triple P p Q E) (hP : ∀ s, P' s → P s) (hQ : ∀ a s, Q a s → Q' a s)
    (hE : ∀ e s, E e s → E' e s) : Triple P' p Q' E' := by
  intro s hs
  have hrun := h s (hP s hs)
  cases hp : p s with
  | ok a s' =>
    rw [hp] at hrun
    exact hQ a s' hrun
  | error e s' =>
    rw [hp] at hrun
    exact hE e s' hrun

/-- A program that never stops returns. -/
theorem returns {p : EStateM ε σ α} (h : Triple P p Q fun _ _ => False) {s : σ} (hs : P s) :
    ∃ a s', p s = ok a s' ∧ Q a s' := by
  have hrun := h s hs
  cases hp : p s with
  | ok a s' =>
    rw [hp] at hrun
    exact ⟨a, s', rfl, hrun⟩
  | error e s' =>
    rw [hp] at hrun
    exact hrun.elim

end Triple

/-- The program keeps `I`, whether it returns or stops. -/
def Keeps (I : σ → Prop) (p : EStateM ε σ α) : Prop := Triple I p (fun _ => I) fun _ => I

namespace Keeps

variable {I : σ → Prop}

theorem pure (a : α) : Keeps I (Pure.pure a : EStateM ε σ α) := Triple.pure fun _ h => h

theorem throw (e : ε) : Keeps I (MonadExcept.throw e : EStateM ε σ α) := Triple.throw fun _ h => h

theorem bind {p : EStateM ε σ α} {f : α → EStateM ε σ β} (hp : Keeps I p)
    (hf : ∀ a, Keeps I (f a)) : Keeps I (p >>= f) :=
  Triple.bind hp hf

/-- The state that is read has the invariant. -/
theorem get_bind {f : σ → EStateM ε σ α} (h : ∀ s, I s → Keeps I (f s)) :
    Keeps I (MonadState.get >>= f) :=
  Triple.get_bind fun s hs => (h s hs).conseq (fun _ ht => ht.2) (fun _ _ ht => ht) fun _ _ ht => ht

theorem modify {g : σ → σ} (h : ∀ s, I s → I (g s)) :
    Keeps I (modifyGet fun s => ((), g s) : EStateM ε σ Unit) := Triple.modify h

end Keeps

end Hoare
