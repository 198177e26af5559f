import Mathlib.Algebra.Group.Int.Defs
import Mathlib.Algebra.Ring.Nat
import Mathlib.Data.List.Basic
import Mathlib.Data.List.Infix

/-!
# Redaction

Words are taken out of a text, and a note is left in the place of each.

* `Redacts`: the texts that can come out;
* `Sweeps.free`: after one sweep none of the words is left.
-/

namespace AlloyAgent.Redaction

open List

universe u v

variable {α : Type u} {β : Type v} {note a b r s t w x y : List α} {W V : List α → Prop}

/-! ## Notes and words -/

/-- No occurrence of the word overlaps an occurrence of the note. -/
structure Apart (note w : List α) : Prop where
  note_ne_nil : note ≠ []
  /-- the word does not begin in the note -/
  inside : ∀ p ∈ note.tails, p ≠ [] → ¬ p <+: w ∧ ¬ w <+: p
  /-- the note does not begin in the word -/
  across : ∀ v ∈ w.tails, v ≠ [] → v ≠ w → ¬ v <+: note ∧ ¬ note <+: v

instance decidableApart [DecidableEq α] (note w : List α) : Decidable (Apart note w) :=
  decidable_of_iff (note ≠ [] ∧ (∀ p ∈ note.tails, p ≠ [] → ¬ p <+: w ∧ ¬ w <+: p) ∧
      ∀ v ∈ w.tails, v ≠ [] → v ≠ w → ¬ v <+: note ∧ ¬ note <+: v)
    ⟨fun h => ⟨h.1, h.2.1, h.2.2⟩, fun h => ⟨h.note_ne_nil, h.inside, h.across⟩⟩

theorem Apart.of_map {f : α → β} (h : Apart (note.map f) (w.map f)) : Apart note w := by
  refine ⟨fun hnil => h.note_ne_nil (by rw [hnil]; rfl), fun p hp hne => ?_, fun v hv hne hw => ?_⟩
  · have hp' : p.map f ∈ (note.map f).tails :=
      (mem_tails _ _).mpr (((mem_tails _ _).mp hp).map f)
    obtain ⟨h₁, h₂⟩ := h.inside _ hp' (by simpa using hne)
    exact ⟨fun hpre => h₁ (hpre.map f), fun hpre => h₂ (hpre.map f)⟩
  · have hsuff := (mem_tails _ _).mp hv
    have hv' : v.map f ∈ (w.map f).tails := (mem_tails _ _).mpr (hsuff.map f)
    have hproper : v.map f ≠ w.map f := by
      intro heq
      have hlength := congrArg List.length heq
      rw [length_map, length_map] at hlength
      exact hw (hsuff.eq_of_length hlength)
    obtain ⟨h₁, h₂⟩ := h.across _ hv' (by simpa using hne) hproper
    exact ⟨fun hpre => h₁ (hpre.map f), fun hpre => h₂ (hpre.map f)⟩

theorem Apart.split (h : Apart note w) (heq : a ++ (w ++ b) = x ++ (note ++ y)) :
    (∃ z, x = a ++ (w ++ z) ∧ b = z ++ (note ++ y)) ∨
      ∃ z, a = x ++ (note ++ z) ∧ y = z ++ (w ++ b) := by
  rcases append_eq_append_iff.mp heq with ⟨z, rfl, hw⟩ | ⟨z, rfl, hnote⟩
  · rcases append_eq_append_iff.mp hw with ⟨z, rfl, rfl⟩ | ⟨v, rfl, hv⟩
    · exact .inl ⟨z, rfl, rfl⟩
    · by_cases hnil : v = []
      · subst hnil
        exact .inl ⟨[], by simp, by simpa using hv.symm⟩
      · -- the note begins in the word
        exfalso
        have hcompare : v <+: note ∨ note <+: v :=
          prefix_or_prefix_of_prefix (prefix_append v b) (hv ▸ prefix_append note y)
        by_cases hz : z = []
        · subst hz
          obtain ⟨h₁, h₂⟩ := h.inside note ((mem_tails _ _).mpr suffix_rfl) h.note_ne_nil
          exact hcompare.elim h₂ h₁
        · obtain ⟨h₁, h₂⟩ := h.across v ((mem_tails _ _).mpr (suffix_append z v)) hnil
            (by simpa using hz)
          exact hcompare.elim h₁ h₂
  · rcases append_eq_append_iff.mp hnote with ⟨z, rfl, rfl⟩ | ⟨p, rfl, hp⟩
    · exact .inr ⟨z, rfl, rfl⟩
    · by_cases hnil : p = []
      · subst hnil
        exact .inr ⟨[], by simp, by simpa using hp.symm⟩
      · -- the word begins in the note
        exfalso
        have hcompare : p <+: w ∨ w <+: p :=
          prefix_or_prefix_of_prefix (prefix_append p y) (hp ▸ prefix_append w b)
        obtain ⟨h₁, h₂⟩ := h.inside p ((mem_tails _ _).mpr (suffix_append z p)) hnil
        exact hcompare.elim h₁ h₂

/-! ## Texts with words taken out -/

/-- Some words of `W` were replaced by notes; nothing else was changed. -/
inductive Redacts (W : List α → Prop) (note : List α) : List α → List α → Prop
  | keep (s : List α) : Redacts W note s s
  | cut {w s r : List α} (a : List α) (hw : W w) (h : Redacts W note s r) :
    Redacts W note (a ++ (w ++ s)) (a ++ (note ++ r))

/-- No word of `V` occurs. -/
def Free (V : List α → Prop) (s : List α) : Prop := ∀ a w b, V w → s ≠ a ++ (w ++ b)

theorem Redacts.prepend (h : Redacts W note s r) (a : List α) :
    Redacts W note (a ++ s) (a ++ r) := by
  cases h with
  | keep => exact .keep _
  | cut b hw h =>
    rw [← append_assoc a, ← append_assoc a]
    exact .cut _ hw h

theorem Redacts.append (h₁ : Redacts W note s r) (h₂ : Redacts W note t x) :
    Redacts W note (s ++ t) (r ++ x) := by
  induction h₁ with
  | keep => exact h₂.prepend _
  | cut a hw _ ih =>
    rw [append_assoc, append_assoc, append_assoc, append_assoc]
    exact .cut a hw ih

theorem Redacts.of_nil (h : Redacts W note [] r) (hW : ∀ w, W w → w ≠ []) : r = [] := by
  generalize hs : ([] : List α) = s at h
  cases h with
  | keep => rfl
  | cut a hw _ =>
    have hnil := append_eq_nil_iff.mp hs.symm
    exact absurd (append_eq_nil_iff.mp hnil.2).1 (hW _ hw)

theorem Redacts.track (h : Redacts W note s (x ++ (w ++ y))) (hw : Apart note w) :
    ∃ x' y', s = x' ++ (w ++ y') ∧ Redacts W note x' x ∧ Redacts W note y' y := by
  generalize heq : x ++ (w ++ y) = r at h
  induction h generalizing x with
  | keep => exact ⟨x, y, heq.symm, .keep x, .keep y⟩
  | @cut v s r a hv h ih =>
    rcases hw.split heq with ⟨z, rfl, rfl⟩ | ⟨z, rfl, rfl⟩
    · refine ⟨x, z ++ (v ++ s), ?_, .keep x, .cut z hv h⟩
      rw [append_assoc, append_assoc]
    · obtain ⟨x', y', rfl, hx, hy⟩ := ih rfl
      refine ⟨a ++ (v ++ x'), y', ?_, .cut a hv hx, hy⟩
      rw [append_assoc, append_assoc]

theorem Redacts.trans (hW : ∀ w, W w → Apart note w) (h₁ : Redacts W note s t)
    (h₂ : Redacts W note t r) : Redacts W note s r := by
  induction h₂ generalizing s with
  | keep => exact h₁
  | cut a hw _ ih =>
    obtain ⟨x, y, rfl, hx, hy⟩ := h₁.track (hW _ hw)
    exact hx.append (.cut [] hw (ih hy))

theorem Redacts.free (h : Redacts W note s r) (hV : ∀ w, V w → Apart note w) (hs : Free V s) :
    Free V r := by
  rintro a w b hw rfl
  obtain ⟨x, y, rfl, -⟩ := h.track (hV w hw)
  exact hs x w y hw rfl

theorem Redacts.sum_eq {f : List α → ℤ} (hadd : ∀ s t, f (s ++ t) = f s + f t)
    (hnote : ∀ w, W w → f w = f note) (h : Redacts W note s r) : f r = f s := by
  induction h with
  | keep => rfl
  | cut a hw _ ih => rw [hadd, hadd, hadd, hadd, ih, hnote _ hw]

/-! ## Sweeping through a text -/

/-- The words of `V` are replaced from left to right, each time the first that is found. -/
inductive Sweeps (V : List α → Prop) (note : List α) : List α → List α → Prop
  | done {s : List α} (hs : Free V s) : Sweeps V note s s
  | cut {a w s r : List α} (ha : Free V a) (hw : V w) (h : Sweeps V note s r) :
    Sweeps V note (a ++ (w ++ s)) (a ++ (note ++ r))

theorem Sweeps.redacts (h : Sweeps V note s r) (hV : ∀ w, V w → W w) : Redacts W note s r := by
  induction h with
  | done => exact .keep _
  | cut _ hw _ ih => exact .cut _ (hV _ hw) ih

/-- **A sweep leaves no word behind.** -/
theorem Sweeps.free (h : Sweeps V note s r) (hV : ∀ w, V w → Apart note w) : Free V r := by
  induction h with
  | done hs => exact hs
  | cut ha _ _ ih =>
    intro x v y hv heq
    rcases (hV v hv).split heq.symm with ⟨z, rfl, -⟩ | ⟨z, -, rfl⟩
    · exact ha x v z hv rfl
    · exact ih z v y hv rfl

end AlloyAgent.Redaction
