import Mathlib.Algebra.Ring.Nat
import Mathlib.Data.List.Basic
import Mathlib.Data.List.Infix

/-!
# Repetitions at the end of a list

`copies n p` is the pattern `p`, written `n` times. `RepeatCount p l n` says that `l` ends with `n`
copies of `p` and not with more.

* `exists_repeatCount`: every list ends with some number of copies.
-/

namespace AlloyAgent

open List

universe u

variable {α : Type u} {p l block : List α} {n : ℕ}

def copies (n : ℕ) (p : List α) : List α := (List.replicate n p).flatten

theorem copies_succ (n : ℕ) (p : List α) : copies (n + 1) p = copies n p ++ p := by
  rw [copies, replicate_succ', flatten_append]
  simp [copies]

theorem length_copies (n : ℕ) (p : List α) : (copies n p).length = n * p.length := by
  simp [copies]

theorem copies_succ_suffix_iff (hlen : block.length = p.length) :
    copies (n + 1) p <:+ l ++ block ↔ block = p ∧ copies n p <:+ l := by
  rw [copies_succ]
  constructor
  · rintro ⟨t, ht⟩
    rw [← append_assoc] at ht
    obtain ⟨hfront, hback⟩ := append_inj' ht hlen.symm
    exact ⟨hback.symm, t, hfront⟩
  · rintro ⟨rfl, t, rfl⟩
    exact ⟨t, (append_assoc _ _ _).symm⟩

/-- The list ends with `n` copies of the pattern, and not with more. -/
def RepeatCount (p l : List α) (n : ℕ) : Prop := ∀ m, copies m p <:+ l ↔ m ≤ n

theorem RepeatCount.succ (hlen : block.length = p.length) (hblock : block = p)
    (h : RepeatCount p l n) : RepeatCount p (l ++ block) (n + 1) := by
  intro m
  cases m with
  | zero => exact iff_of_true (nil_suffix) (Nat.zero_le _)
  | succ m =>
    rw [copies_succ_suffix_iff hlen, and_iff_right hblock, h m]
    exact Nat.succ_le_succ_iff.symm

theorem repeatCount_of_ne (hlen : block.length = p.length) (hne : block ≠ p) :
    RepeatCount p (l ++ block) 0 := by
  intro m
  cases m with
  | zero => exact iff_of_true (nil_suffix) le_rfl
  | succ m =>
    rw [copies_succ_suffix_iff hlen]
    exact iff_of_false (fun h => hne h.1) (Nat.not_succ_le_zero m)

theorem repeatCount_of_short (h : l.length < p.length) : RepeatCount p l 0 := by
  intro m
  cases m with
  | zero => exact iff_of_true (nil_suffix) le_rfl
  | succ m =>
    refine iff_of_false (fun hsuffix => ?_) (Nat.not_succ_le_zero m)
    have hle := hsuffix.length_le
    rw [length_copies, Nat.succ_mul] at hle
    omega

theorem exists_end (h : n ≤ l.length) : ∃ front last, l = front ++ last ∧ last.length = n := by
  refine ⟨l.take (l.length - n), l.drop (l.length - n), (take_append_drop _ _).symm, ?_⟩
  rw [length_drop]
  omega

theorem exists_repeatCount [DecidableEq α] {count : ℕ → ℕ → Option ℕ} (hpos : 0 < p.length)
    (hshort : ∀ r, ∀ i < p.length, count r i = some r)
    (hstep : ∀ r front block rest, l = front ++ (block ++ rest) → block.length = p.length →
      count r (front.length + p.length) =
        if block = p then count (r + 1) front.length else some r) (r : ℕ) (h : i ≤ l.length) :
    ∃ n, count r i = some (r + n) ∧ RepeatCount p (l.take i) n := by
  induction i using Nat.strong_induction_on generalizing r with
  | _ i ih =>
    have hlen : (l.take i).length = i := length_take_of_le h
    by_cases hi : i < p.length
    · exact ⟨0, hshort r i hi, repeatCount_of_short (hlen.symm ▸ hi)⟩
    · obtain ⟨front, block, htake, hblock⟩ := exists_end (hlen.symm ▸ Nat.le_of_not_lt hi)
      have hl : l = front ++ (block ++ l.drop i) := by
        rw [← append_assoc, ← htake, take_append_drop]
      rw [htake, length_append, hblock] at hlen
      rw [htake, ← hlen, hstep r _ _ _ hl hblock]
      split_ifs with hmatch
      · obtain ⟨n, hn, hcount⟩ := ih front.length (by omega) (r + 1) (by omega)
        rw [hl, take_left] at hcount
        exact ⟨n + 1, by rw [hn, Nat.add_assoc, Nat.add_comm 1], hcount.succ hblock hmatch⟩
      · exact ⟨0, rfl, repeatCount_of_ne hblock hmatch⟩

end AlloyAgent
