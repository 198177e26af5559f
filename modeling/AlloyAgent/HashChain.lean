import Mathlib.Data.List.Basic
import Mathlib.Data.List.Forall2
import Mathlib.Data.List.Infix
import Mathlib.Data.List.Nodup

/-!
# Hash chains

A chain is a list of entries of which each stores a hash of itself and the hash of the entry before
it (`Linked`). Two questions about a chain that someone has changed:

* **edits** — two chains of one length and one tip are related entry by entry
  (`Linked.forall₂_of_tip`, back from the tip);
* **deletions** — what is left is linked only if it is one piece (`linked_sublist_iff`).
-/

namespace AlloyAgent

open List

namespace HashChain

universe u v

structure Format (β : Type u) (κ : Type v) where
  prev : β → κ
  hash : β → κ
  /-- the stored hash is the right one -/
  Valid : β → Prop

variable {β : Type u} {κ : Type v} {F : Format β κ} {tip : κ} {l l₁ l₂ : List β} {b c : β}

namespace Format

/-- The entries follow one another, the first one after `tip`. -/
def Linked (F : Format β κ) : κ → List β → Prop
  | _, [] => True
  | tip, b :: l => F.prev b = tip ∧ F.Valid b ∧ F.Linked (F.hash b) l

/-- The hash of the last entry, or the one before the chain. -/
def tipAfter (F : Format β κ) (tip : κ) (l : List β) : κ := l.foldl (fun _ b => F.hash b) tip

@[simp] theorem tipAfter_nil : F.tipAfter tip [] = tip := rfl

@[simp] theorem tipAfter_cons : F.tipAfter tip (b :: l) = F.tipAfter (F.hash b) l := rfl

@[simp] theorem tipAfter_concat : F.tipAfter tip (l ++ [b]) = F.hash b := by
  simp [tipAfter]

theorem linked_append :
    F.Linked tip (l₁ ++ l₂) ↔ F.Linked tip l₁ ∧ F.Linked (F.tipAfter tip l₁) l₂ := by
  induction l₁ generalizing tip with
  | nil => simp [Linked]
  | cons b l₁ ih => simp [Linked, ih, and_assoc]

theorem Linked.valid (h : F.Linked tip l) (hb : b ∈ l) : F.Valid b := by
  induction l generalizing tip with
  | nil => cases hb
  | cons c l ih =>
    rcases mem_cons.mp hb with rfl | hb
    · exact h.2.1
    · exact ih h.2.2 hb

theorem Linked.prev_mem (h : F.Linked tip l) (hb : b ∈ l) : F.prev b ∈ tip :: l.map F.hash := by
  induction l generalizing tip with
  | nil => cases hb
  | cons c l ih =>
    rcases mem_cons.mp hb with rfl | hb
    · exact h.1 ▸ mem_cons_self
    · exact mem_cons_of_mem _ (ih h.2.2 hb)

/-! ## Entries are edited -/

/-- **Back from the tip.** If valid entries with one hash are related and have one predecessor,
then so are the entries of two chains of one length and one tip. -/
theorem Linked.forall₂_of_tip {R : β → β → Prop}
    (hback : ∀ b ∈ l₁, ∀ c ∈ l₂, F.Valid b → F.Valid c → F.hash b = F.hash c →
      R b c ∧ F.prev b = F.prev c)
    (h₁ : F.Linked tip l₁) (h₂ : F.Linked tip l₂) (hlength : l₁.length = l₂.length)
    (htip : F.tipAfter tip l₁ = F.tipAfter tip l₂) : Forall₂ R l₁ l₂ := by
  induction l₁ using reverseRecOn generalizing l₂ with
  | nil =>
    rw [length_eq_zero_iff.mp hlength.symm]
    exact .nil
  | append_singleton l₁ b ih =>
    rcases eq_nil_or_concat l₂ with rfl | ⟨l₂, c, rfl⟩
    · simp at hlength
    · rw [concat_eq_append] at *
      rw [linked_append] at h₁ h₂
      rw [tipAfter_concat, tipAfter_concat] at htip
      obtain ⟨hR, hprev⟩ := hback b (by simp) c (by simp) h₁.2.2.1 h₂.2.2.1 htip
      -- what stands before these two entries ends with one tip too
      have hbefore : F.tipAfter tip l₁ = F.tipAfter tip l₂ :=
        h₁.2.1.symm.trans (hprev.trans h₂.2.1)
      have hrest := ih (fun b hb c hc => hback b (mem_append_left _ hb) c (mem_append_left _ hc))
        h₁.1 h₂.1 (by simpa using hlength) hbefore
      exact rel_append hrest (.cons hR .nil)

/-- A chain stays linked if each entry keeps its two hashes and its validity. -/
theorem Linked.of_forall₂ (h : F.Linked tip l₂) (hsame : Forall₂ (fun b c =>
    (F.Valid c → F.Valid b) ∧ F.prev b = F.prev c ∧ F.hash b = F.hash c) l₁ l₂) :
    F.Linked tip l₁ := by
  induction hsame generalizing tip with
  | nil => trivial
  | cons hbc _ ih =>
    obtain ⟨hvalid, hprev, hhash⟩ := hbc
    exact ⟨hprev.trans h.1, hvalid h.2.1, ih (hhash ▸ h.2.2)⟩

/-! ## Entries are taken out -/

theorem Linked.initial_of_sublist (h : F.Linked tip l₂) (hdistinct : (tip :: l₂.map F.hash).Nodup)
    (hsub : l₁.Sublist l₂) (h₁ : F.Linked tip l₁) : l₁ <+: l₂ := by
  induction l₂ generalizing tip l₁ with
  | nil => exact sublist_nil.mp hsub ▸ nil_prefix
  | cons c l₂ ih =>
    cases l₁ with
    | nil => exact nil_prefix
    | cons b l₁ =>
      rcases sublist_cons_iff.mp hsub with hskip | ⟨r, heq, hr⟩
      · have hmem := h.2.2.prev_mem (hskip.subset mem_cons_self)
        rw [h₁.1] at hmem
        exact absurd hmem (nodup_cons.mp hdistinct).1
      · cases heq
        have hrest := ih h.2.2 (nodup_cons.mp hdistinct).2 hr h₁.2.2
        obtain ⟨after, rfl⟩ := hrest
        exact ⟨after, rfl⟩

/-- **Deletions.** What is left is linked exactly if it is a contiguous piece from `tip` on. -/
theorem linked_sublist_iff (h : F.Linked tip l) (hdistinct : (l.map F.hash).Nodup)
    (hsub : l₁.Sublist l) :
    F.Linked tip l₁ ↔ ∃ before after, l = before ++ l₁ ++ after ∧ F.tipAfter tip before = tip := by
  refine ⟨fun h₁ => ?_, ?_⟩
  · cases l₁ with
    | nil => exact ⟨[], l, rfl, rfl⟩
    | cons b l₁ =>
      -- cut the chain at the first entry that is left
      obtain ⟨pre, post, hl, hb, hpost⟩ := cons_sublist_iff.mp hsub
      obtain ⟨before, mid, rfl⟩ := append_of_mem hb
      have hsub' : l₁.Sublist (mid ++ post) := hpost.trans (sublist_append_right _ _)
      have hl' : l = before ++ b :: (mid ++ post) := by simp [hl]
      rw [hl', linked_append] at h
      have hnodup : ((b :: (mid ++ post)).map F.hash).Nodup := by
        rw [hl', map_append] at hdistinct
        exact (nodup_append'.mp hdistinct).2.1
      obtain ⟨after, hafter⟩ := h.2.2.2.initial_of_sublist hnodup hsub' h₁.2.2
      refine ⟨before, after, ?_, h.2.1.symm.trans h₁.1⟩
      rw [hl', ← hafter]
      simp
  · rintro ⟨before, after, rfl, htip⟩
    rw [linked_append, linked_append, htip] at h
    exact h.1.2

end Format

end HashChain

end AlloyAgent
