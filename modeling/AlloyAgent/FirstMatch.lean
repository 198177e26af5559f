import Mathlib.Data.List.Infix
import Mathlib.Data.List.Forall2
import Mathlib.Order.Bounds.Basic

/-!
# Where a pattern matches, and replacing what it matches

A pattern matches a stretch of a list if the elements of the two are related one by one; the
relation need not be equality.

* `firstMatch_eq_some_iff`: the first place where the pattern is found;
* `splice?`: what is found there is replaced.
-/

namespace AlloyAgent

open List

universe u v

variable {α : Type u} {β : Type v}

def OccursAt (R : α → β → Prop) (l : List α) (pat : List β) (pos : ℕ) : Prop :=
  ∃ before here after, l = before ++ (here ++ after) ∧ before.length = pos ∧
    List.Forall₂ R here pat

def matchesHere (r : α → β → Bool) : List α → List β → Bool
  | _, [] => true
  | [], _ :: _ => false
  | a :: l, b :: pat => r a b && matchesHere r l pat

/-- The least position, among those from which the pattern can fit, at which it matches. -/
def firstMatch (r : α → β → Bool) (l : List α) (pat : List β) : Option ℕ :=
  if l.length < pat.length then none
  else (List.range (l.length - pat.length + 1)).find? fun pos => matchesHere r (l.drop pos) pat

/-- Replace the range from `start` to `stop`; `none` if it is not in the list. -/
def splice? (l : List α) (start stop : ℕ) (new : List α) : Option (List α) :=
  if start ≤ stop ∧ stop ≤ l.length then some (l.take start ++ new ++ l.drop stop) else none

variable {R : α → β → Prop} {r : α → β → Bool} {l : List α} {pat : List β} {pos : ℕ}

theorem OccursAt.length_le (h : OccursAt R l pat pos) : pos + pat.length ≤ l.length := by
  obtain ⟨before, here, after, rfl, rfl, hmatch⟩ := h
  rw [length_append, length_append, hmatch.length_eq]
  omega

theorem OccursAt.imp {S : α → β → Prop} (hRS : ∀ a b, R a b → S a b) (h : OccursAt R l pat pos) :
    OccursAt S l pat pos := by
  obtain ⟨before, here, after, hl, hpos, hmatch⟩ := h
  exact ⟨before, here, after, hl, hpos, hmatch.imp hRS⟩

theorem matchesHere_iff :
    matchesHere r l pat = true ↔
      ∃ here after, l = here ++ after ∧ List.Forall₂ (fun a b => r a b = true) here pat := by
  induction pat generalizing l with
  | nil => simp [matchesHere]
  | cons b pat ih =>
    cases l with
    | nil =>
      refine ⟨nofun, ?_⟩
      rintro ⟨here, after, hnil, hmatch⟩
      obtain ⟨rfl, -⟩ := append_eq_nil_iff.mp hnil.symm
      cases hmatch
    | cons a l =>
      rw [matchesHere, Bool.and_eq_true, ih]
      refine ⟨?_, ?_⟩
      · rintro ⟨hab, here, after, rfl, hmatch⟩
        exact ⟨a :: here, after, rfl, .cons hab hmatch⟩
      · rintro ⟨here, after, heq, hmatch⟩
        cases hmatch with
        | cons hab hmatch =>
          cases heq
          exact ⟨hab, _, after, rfl, hmatch⟩

theorem occursAt_iff_matchesHere :
    OccursAt (fun a b => r a b = true) l pat pos ↔
      pos ≤ l.length ∧ matchesHere r (l.drop pos) pat = true := by
  rw [matchesHere_iff]
  refine ⟨?_, ?_⟩
  · rintro ⟨before, here, after, rfl, rfl, hmatch⟩
    exact ⟨by simp, here, after, drop_left, hmatch⟩
  · rintro ⟨hle, here, after, hdrop, hmatch⟩
    refine ⟨l.take pos, here, after, ?_, length_take_of_le hle, hmatch⟩
    rw [← hdrop, take_append_drop]

theorem occursAt_eq_iff {pat : List α} :
    OccursAt (· = ·) l pat pos ↔ ∃ before after, l = before ++ (pat ++ after) ∧
      before.length = pos := by
  refine ⟨?_, ?_⟩
  · rintro ⟨before, here, after, hl, hpos, hmatch⟩
    obtain rfl := forall₂_eq_eq_eq ▸ hmatch
    exact ⟨before, after, hl, hpos⟩
  · rintro ⟨before, after, hl, hpos⟩
    exact ⟨before, pat, after, hl, hpos, forall₂_same.mpr fun _ _ => rfl⟩

theorem firstMatch_eq_some_iff :
    firstMatch r l pat = some pos ↔
      IsLeast {p | OccursAt (fun a b => r a b = true) l pat p} pos := by
  have hrange : ∀ {p}, OccursAt (fun a b => r a b = true) l pat p →
      p < l.length - pat.length + 1 := fun h => by
    have := h.length_le
    omega
  rw [firstMatch]
  split
  · rename_i hlt
    refine ⟨nofun, fun h => ?_⟩
    have := OccursAt.length_le h.1
    omega
  · rw [find?_range_eq_some, mem_range]
    refine ⟨?_, ?_⟩
    · rintro ⟨hmatch, hpos, hbefore⟩
      refine ⟨occursAt_iff_matchesHere.mpr ⟨by omega, hmatch⟩, fun p hp => ?_⟩
      by_contra hlt
      have hno := hbefore p (by omega)
      rw [(occursAt_iff_matchesHere.mp hp).2] at hno
      cases hno
    · rintro ⟨hocc, hleast⟩
      refine ⟨(occursAt_iff_matchesHere.mp hocc).2, hrange hocc, fun p hp => ?_⟩
      rw [Bool.not_eq_true']
      by_contra hmatch
      have hle := hleast (occursAt_iff_matchesHere.mpr
        ⟨by have := OccursAt.length_le hocc; omega, Bool.not_eq_false _ ▸ hmatch⟩)
      omega

theorem firstMatch_eq_none_iff :
    firstMatch r l pat = none ↔ ∀ p, ¬ OccursAt (fun a b => r a b = true) l pat p := by
  refine ⟨fun h p hp => ?_, fun h => ?_⟩
  · rw [firstMatch] at h
    have hle := hp.length_le
    rw [if_neg (by omega), find?_eq_none] at h
    exact h p (mem_range.mpr (by omega)) (occursAt_iff_matchesHere.mp hp).2
  · cases hfirst : firstMatch r l pat with
    | none => rfl
    | some p => exact absurd (firstMatch_eq_some_iff.mp hfirst).1 (h p)

end AlloyAgent
