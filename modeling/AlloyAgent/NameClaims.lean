import Mathlib.Logic.Function.Basic

/-!
# Names that are claimed and indexed

Parties hold names, each for an identity, and an index is to say for which identity a name is held.

* `Step`: what may happen to names; `Step.sound`: they stay apart.
-/

namespace AlloyAgent

universe u v w

/-- Who holds which name for which identity, the index, and the entries to be written. -/
structure Claims (ν : Type u) (ι : Type v) (η : Type w) where
  holds : ν → ι → η → Prop
  index : ν → Option ι
  coming : ν → ι → Prop

namespace Claims

variable {ν : Type u} {ι : Type v} {η : Type w} [DecidableEq ν]

/-- A name that may be taken. -/
def Free (c : Claims ν ι η) (n : ν) : Prop := c.index n = none ∧ ∀ a, ¬ c.coming n a

/-- No name has two holders, and the index is right as soon as it is written. -/
structure Sound (c : Claims ν ι η) : Prop where
  unique : ∀ {n a b h k}, c.holds n a h → c.holds n b k → h = k
  indexed : ∀ {n a h}, c.holds n a h → c.index n = some a ∨ c.coming n a
  agreed : ∀ {n a b h}, c.coming n a → c.holds n b h → b = a

/-- What may happen to names. -/
inductive Step (c c' : Claims ν ι η) : Prop where
  /-- names pass from holder to holder, or are given up -/
  | pass (f : η → η) (hholds : ∀ n a k, c'.holds n a k → ∃ h, c.holds n a h ∧ f h = k)
      (hindex : c'.index = c.index) (hcoming : c'.coming = c.coming)
  /-- a free name is taken and indexed -/
  | claim (n : ν) (a : ι) (h : η) (hfree : c.Free n)
      (hholds : ∀ m b k, c'.holds m b k → c.holds m b k ∨ (m = n ∧ b = a ∧ k = h))
      (hindex : c'.index = Function.update c.index n (some a)) (hcoming : c'.coming = c.coming)
  /-- a holder takes a free name instead of its own, which another one has to give up; the index
  is to be written -/
  | rename (m n : ν) (a : ι) (h k : η) (hheld : c.holds m a h) (hfree : c.Free n)
      (hholds : ∀ o b l, c'.holds o b l →
        (o = n ∧ b = a ∧ l = h) ∨ (o = m ∧ b = a ∧ l = k) ∨ (c.holds o b l ∧ l ≠ h))
      (hindex : c'.index = c.index)
      (hcoming : ∀ o b, c'.coming o b ↔ c.coming o b ∨ (o = n ∧ b = a))
  /-- a name is given up and taken out of the index -/
  | release (n : ν) (a : ι) (h : η) (hheld : c.holds n a h)
      (hholds : ∀ m b k, c'.holds m b k → c.holds m b k ∧ k ≠ h)
      (hindex : c'.index = Function.update c.index n none) (hcoming : c'.coming = c.coming)
  /-- an entry of the index is written -/
  | arrive (n : ν) (a : ι) (hcame : c.coming n a)
      (hholds : ∀ m b k, c'.holds m b k → c.holds m b k)
      (hindex : c'.index = Function.update c.index n (some a))
      (hcoming : ∀ m b, c'.coming m b → c.coming m b)
      (hothers : ∀ m b, m ≠ n → c.coming m b → c'.coming m b)

variable {c c' : Claims ν ι η}

omit [DecidableEq ν] in
theorem Sound.not_holds (hc : c.Sound) (hfree : c.Free n) (a : ι) (h : η) : ¬ c.holds n a h := by
  intro hheld
  rcases hc.indexed hheld with hindex | hcoming
  · rw [hfree.1] at hindex
    cases hindex
  · exact hfree.2 a hcoming

variable {o : ν}

theorem Step.unique (hstep : Step c c') (hc : c.Sound) (h₁ : c'.holds o b₁ l₁)
    (h₂ : c'.holds o b₂ l₂) : l₁ = l₂ := by
  cases hstep with
  | pass f hholds =>
    obtain ⟨k₁, hk₁, rfl⟩ := hholds _ _ _ h₁
    obtain ⟨k₂, hk₂, rfl⟩ := hholds _ _ _ h₂
    rw [hc.unique hk₁ hk₂]
  | claim n a h hfree hholds =>
    have hnone := hc.not_holds hfree
    rcases hholds _ _ _ h₁ with h₁ | ⟨rfl, -, rfl⟩
    · rcases hholds _ _ _ h₂ with h₂ | ⟨rfl, -, -⟩
      · exact hc.unique h₁ h₂
      · exact absurd h₁ (hnone _ _)
    · rcases hholds _ _ _ h₂ with h₂ | ⟨-, -, rfl⟩
      · exact absurd h₂ (hnone _ _)
      · rfl
  | rename m n a h k hheld hfree hholds =>
    have hnone := hc.not_holds hfree
    have hne : n ≠ m := fun heq => hnone a h (heq ▸ hheld)
    -- nobody else holds the name that is given up
    have hother : ∀ b l, c.holds m b l → l = h := fun b l hl => hc.unique hl hheld
    rcases hholds _ _ _ h₁ with ⟨rfl, -, rfl⟩ | ⟨rfl, -, rfl⟩ | ⟨h₁, hne₁⟩
    · rcases hholds _ _ _ h₂ with ⟨-, -, rfl⟩ | ⟨heq, -, -⟩ | ⟨h₂, -⟩
      · rfl
      · exact absurd heq hne
      · exact absurd h₂ (hnone _ _)
    · rcases hholds _ _ _ h₂ with ⟨heq, -, -⟩ | ⟨-, -, rfl⟩ | ⟨h₂, hne₂⟩
      · exact absurd heq.symm hne
      · rfl
      · exact absurd (hother _ _ h₂) hne₂
    · rcases hholds _ _ _ h₂ with ⟨rfl, -, -⟩ | ⟨rfl, -, -⟩ | ⟨h₂, -⟩
      · exact absurd h₁ (hnone _ _)
      · exact absurd (hother _ _ h₁) hne₁
      · exact hc.unique h₁ h₂
  | release n a h hheld hholds => exact hc.unique (hholds _ _ _ h₁).1 (hholds _ _ _ h₂).1
  | arrive n a hcame hholds => exact hc.unique (hholds _ _ _ h₁) (hholds _ _ _ h₂)

theorem Step.indexed (hstep : Step c c') (hc : c.Sound) (hl : c'.holds o b l) :
    c'.index o = some b ∨ c'.coming o b := by
  cases hstep with
  | pass f hholds hindex hcoming =>
    obtain ⟨k, hk, -⟩ := hholds _ _ _ hl
    rw [hindex, hcoming]
    exact hc.indexed hk
  | claim n a h hfree hholds hindex hcoming =>
    rw [hindex, hcoming]
    rcases hholds _ _ _ hl with hl | ⟨rfl, rfl, -⟩
    · have hne : o ≠ n := fun heq => hc.not_holds hfree _ _ (heq ▸ hl)
      rw [Function.update_of_ne hne]
      exact hc.indexed hl
    · exact .inl (Function.update_self ..)
  | rename m n a h k hheld hfree hholds hindex hcoming =>
    rw [hindex, hcoming]
    rcases hholds _ _ _ hl with ⟨rfl, rfl, -⟩ | ⟨rfl, rfl, -⟩ | ⟨hl, -⟩
    · exact .inr (.inr ⟨rfl, rfl⟩)
    · exact (hc.indexed hheld).imp_right .inl
    · exact (hc.indexed hl).imp_right .inl
  | release n a h hheld hholds hindex hcoming =>
    obtain ⟨hl, hne⟩ := hholds _ _ _ hl
    have hon : o ≠ n := by
      rintro rfl
      exact hne (hc.unique hl hheld)
    rw [hindex, hcoming, Function.update_of_ne hon]
    exact hc.indexed hl
  | arrive n a hcame hholds hindex hcoming hothers =>
    have hl := hholds _ _ _ hl
    rw [hindex]
    by_cases hon : o = n
    · subst hon
      rw [Function.update_self, hc.agreed hcame hl]
      exact .inl rfl
    · rw [Function.update_of_ne hon]
      exact (hc.indexed hl).imp_right (hothers o b hon)

theorem Step.agreed (hstep : Step c c') (hc : c.Sound) (hcame : c'.coming o b₁)
    (hl : c'.holds o b₂ l) : b₂ = b₁ := by
  cases hstep with
  | pass f hholds _ hcoming =>
    obtain ⟨k, hk, -⟩ := hholds _ _ _ hl
    rw [hcoming] at hcame
    exact hc.agreed hcame hk
  | claim n a h hfree hholds _ hcoming =>
    rw [hcoming] at hcame
    rcases hholds _ _ _ hl with hl | ⟨rfl, -, -⟩
    · exact hc.agreed hcame hl
    · exact absurd hcame (hfree.2 _)
  | rename m n a h k hheld hfree hholds _ hcoming =>
    rcases (hcoming _ _).mp hcame with hcame | ⟨rfl, rfl⟩
    · rcases hholds _ _ _ hl with ⟨rfl, -, -⟩ | ⟨rfl, rfl, -⟩ | ⟨hl, -⟩
      · exact absurd hcame (hfree.2 _)
      · exact hc.agreed hcame hheld
      · exact hc.agreed hcame hl
    · rcases hholds _ _ _ hl with ⟨-, rfl, -⟩ | ⟨-, rfl, -⟩ | ⟨hl, -⟩
      · rfl
      · rfl
      · exact absurd hl (hc.not_holds hfree _ _)
  | release n a h hheld hholds _ hcoming =>
    rw [hcoming] at hcame
    exact hc.agreed hcame (hholds _ _ _ hl).1
  | arrive n a _ hholds _ hcoming => exact hc.agreed (hcoming _ _ hcame) (hholds _ _ _ hl)

/-- **Every step keeps the names apart.** -/
theorem Step.sound (hstep : Step c c') (hc : c.Sound) : c'.Sound :=
  ⟨hstep.unique hc, hstep.indexed hc, hstep.agreed hc⟩

end Claims

end AlloyAgent
