import Mathlib.Algebra.Ring.Nat
import Mathlib.Data.List.Basic

/-!
# Postconditions of computations that can fail

`Outcome E Q x` says of a computation `x : Except ε α` that its result satisfies `Q` and that it
fails only with errors in `E`.

* `bind`, `foldlM`: how faults pass through a computation;
* `add`, `sub`: arithmetic of words with overflow checks; `wrapAdd`: without.
-/

namespace AlloyAgent

universe u v w

/-- The result satisfies `Q`, an error satisfies `E`. -/
def Outcome {ε : Type u} {α : Type v} (E : ε → Prop) (Q : α → Prop) : Except ε α → Prop
  | .ok a => Q a
  | .error e => E e

namespace Outcome

variable {ε : Type u} {α : Type v} {β : Type v} {E : ε → Prop} {Q : α → Prop} {R : β → Prop}

@[simp] theorem ok_iff {a : α} : Outcome E Q (.ok a : Except ε α) ↔ Q a := Iff.rfl

@[simp] theorem error_iff {e : ε} : Outcome E Q (.error e : Except ε α) ↔ E e := Iff.rfl

variable {x : Except ε α} {f : α → Except ε β}

theorem bind (hx : Outcome E Q x) (hf : ∀ a, Q a → Outcome E R (f a)) : Outcome E R (x >>= f) := by
  cases x with
  | ok a => exact hf a hx
  | error e => exact hx

theorem bind_eq_ok : x >>= f = .ok b ↔ ∃ a, x = .ok a ∧ f a = .ok b := by
  cases x with
  | ok a => exact ⟨fun h => ⟨a, rfl, h⟩, fun ⟨_, ha, h⟩ => Except.ok.inj ha ▸ h⟩
  | error e => exact ⟨fun h => (nomatch h), fun ⟨_, ha, _⟩ => (nomatch ha)⟩

theorem map_iff {f : α → β} : Outcome E R (x.map f) ↔ Outcome E (fun a => R (f a)) x := by
  cases x <;> rfl

theorem imp {E' : ε → Prop} {Q' : α → Prop} (hx : Outcome E Q x) (hE : ∀ e, E e → E' e)
    (hQ : ∀ a, Q a → Q' a) : Outcome E' Q' x := by
  cases x with
  | ok a => exact hQ a hx
  | error e => exact hE e hx

theorem exists_ok (hx : Outcome (fun _ => False) Q x) : ∃ a, x = .ok a ∧ Q a := by
  cases x with
  | ok a => exact ⟨a, rfl, hx⟩
  | error e => exact hx.elim

theorem foldlM {σ : Type v} {γ : Type w} {Inv : σ → Prop} {f : σ → γ → Except ε σ} :
    ∀ (l : List γ) {s : σ}, (∀ s, ∀ c ∈ l, Inv s → Outcome E Inv (f s c)) → Inv s →
      Outcome E Inv (l.foldlM f s) := by
  intro l
  induction l with
  | nil => intro s _ hs; exact hs
  | cons c l ih =>
    intro s hf hs
    rw [List.foldlM_cons]
    exact (hf s c List.mem_cons_self hs).bind fun s' hs' =>
      ih (fun s d hd => hf s d (List.mem_cons_of_mem _ hd)) hs'

end Outcome

namespace Usize

def size : ℕ := 2 ^ 64

inductive Overflow where
  | above
  | below
  deriving DecidableEq

/-- `a + b`, in a build with or without overflow checks. -/
def add (checks : Bool) (a b : ℕ) : Except Overflow ℕ :=
  if a + b < size then .ok (a + b)
  else if checks then .error .above
  else .ok ((a + b) % size)

/-- `a - b`, in a build with or without overflow checks. -/
def sub (checks : Bool) (a b : ℕ) : Except Overflow ℕ :=
  if b ≤ a then .ok (a - b)
  else if checks then .error .below
  else .ok (a + size - b)

def wrapAdd (a b : ℕ) : ℕ := (a + b) % size

def wrapSub (a b : ℕ) : ℕ := if b ≤ a then a - b else a + size - b

variable {a b : ℕ}

theorem add_of_lt (checks : Bool) (h : a + b < size) : add checks a b = .ok (a + b) :=
  if_pos h

theorem sub_of_le (checks : Bool) (h : b ≤ a) : sub checks a b = .ok (a - b) := if_pos h

theorem wrapAdd_of_lt (h : a + b < size) : wrapAdd a b = a + b := Nat.mod_eq_of_lt h

theorem wrapSub_of_le (h : b ≤ a) : wrapSub a b = a - b := if_pos h

end Usize

end AlloyAgent
