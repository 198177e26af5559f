import Mathlib.Algebra.Ring.Nat
import Mathlib.Data.List.Basic
import Mathlib.Data.List.Infix

/-!
# Where a word occurs in a text

`occurrences p s` are the places at which `p` begins in `s`, in order and with overlaps.

* `occurrences_append_cons`: no word reaches across a letter that it lacks.
-/

namespace AlloyAgent

open List

universe u

variable {α : Type u} [DecidableEq α] {p s t : List α} {c : α}

def occurrences (p : List α) : List α → List ℕ
  | [] => if p = [] then [0] else []
  | c :: s =>
    if p.isPrefixOf (c :: s) then 0 :: (occurrences p s).map (· + 1)
    else (occurrences p s).map (· + 1)

theorem mem_occurrences : i ∈ occurrences p s ↔ i ≤ s.length ∧ p <+: s.drop i := by
  induction s generalizing i with
  | nil =>
    rw [occurrences]
    split_ifs with hp
    · simp [hp]
    · simp [hp]
  | cons c s ih =>
    have hsplit : i ∈ occurrences p (c :: s) ↔
        i = 0 ∧ p <+: c :: s ∨ ∃ j ∈ occurrences p s, j + 1 = i := by
      rw [occurrences]
      split_ifs with hp
      · simp [List.isPrefixOf_iff_prefix.mp hp]
      · simp [mt isPrefixOf_iff_prefix.mpr hp]
    rw [hsplit]
    cases i with
    | zero => simp
    | succ i => simp [ih]

theorem occurrences_eq_nil_iff : occurrences p s = [] ↔ ¬ p <:+: s := by
  rw [eq_nil_iff_forall_not_mem]
  refine ⟨fun h hpart => ?_, fun h i hi => h ?_⟩
  · obtain ⟨a, b, rfl⟩ := hpart
    refine h a.length (mem_occurrences.mpr ⟨?_, b, ?_⟩)
    · rw [length_append, length_append, Nat.add_assoc]
      exact Nat.le_add_right _ _
    · rw [append_assoc, drop_left]
  · exact (mem_occurrences.mp hi).2.isInfix.trans (drop_suffix i s).isInfix

theorem occurrences_of_length_lt (h : s.length < p.length) : occurrences p s = [] := by
  rw [occurrences_eq_nil_iff]
  exact fun hpart => Nat.not_le.mpr h hpart.length_le

theorem occurrences_of_notMem (hc : c ∈ p) (hs : c ∉ s) : occurrences p s = [] := by
  rw [occurrences_eq_nil_iff]
  exact fun hpart => hs (hpart.subset hc)

theorem occurrences_self (hp : p ≠ []) : occurrences p p = [0] := by
  cases p with
  | nil => exact absurd rfl hp
  | cons c p =>
    have hrest : occurrences (c :: p) p = [] := occurrences_of_length_lt (Nat.lt_succ_self _)
    rw [occurrences, hrest, if_pos (List.isPrefixOf_iff_prefix.mpr (prefix_refl _))]
    rfl

omit [DecidableEq α] in
/-- A word without the letter `c` that begins a text ends before the first `c`. -/
theorem prefix_append_cons (hc : c ∉ p) : p <+: s ++ c :: t ↔ p <+: s := by
  refine ⟨fun h => ?_, fun h => h.trans (prefix_append _ _)⟩
  rcases prefix_or_prefix_of_prefix h (prefix_append s (c :: t)) with h' | h'
  · exact h'
  · obtain ⟨r, rfl⟩ := h'
    cases r with
    | nil => rw [append_nil]
    | cons d r =>
      rw [prefix_append_right_inj, cons_prefix_cons] at h
      exact absurd (by simp [h.1]) hc

/-- **A letter that is not in the word cuts the text.** -/
theorem occurrences_append_cons (hp : p ≠ []) (hc : c ∉ p) :
    occurrences p (s ++ c :: t) =
      occurrences p s ++ (occurrences p t).map (· + (s.length + 1)) := by
  induction s with
  | nil =>
    have hpre : ¬ p.isPrefixOf (c :: t) = true := by
      rw [List.isPrefixOf_iff_prefix]
      exact fun h => hp (prefix_nil.mp ((prefix_append_cons hc).mp h))
    have hnil : occurrences p [] = [] := if_neg hp
    rw [hnil, nil_append, nil_append, occurrences, if_neg hpre]
    rfl
  | cons d s ih =>
    have hpre : p.isPrefixOf (d :: s ++ c :: t) = p.isPrefixOf (d :: s) := by
      rw [Bool.eq_iff_iff, isPrefixOf_iff_prefix, isPrefixOf_iff_prefix,
        prefix_append_cons hc]
    rw [cons_append, occurrences, occurrences, ← cons_append, hpre, ih, map_append,
      map_map]
    have hshift : (fun i => i + 1) ∘ (fun i => i + (s.length + 1)) =
        fun i => i + ((d :: s).length + 1) := by
      funext i
      simp only [Function.comp_apply, length_cons]
      omega
    rw [hshift]
    split_ifs <;> rfl

end AlloyAgent
