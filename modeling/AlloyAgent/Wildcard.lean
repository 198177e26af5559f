import Mathlib.Data.List.Infix
import Mathlib.Algebra.Order.BigOperators.Group.List
import Mathlib.Algebra.Order.Group.Nat

/-!
# Patterns with one gap

A pattern of this kind either is one word or fixes how a word begins and how it ends.

* `Covered`: two words compared; `covered_iff`: what this says about patterns.
-/

namespace AlloyAgent

open List

universe u

/-- A word, or a beginning and an end with a gap between them. -/
inductive OneStar (α : Type u) : Type u where
  | exact (w : List α) : OneStar α
  | gap (b e : List α) : OneStar α
  deriving DecidableEq

namespace OneStar

variable {α : Type u}

def Matches : OneStar α → List α → Prop
  | exact w, v => v = w
  | gap b e, v => ∃ m, v = b ++ m ++ e

/-- A star in front, else a star at the end, else the first star inside. -/
def parse [DecidableEq α] (star : α) (w : List α) : OneStar α :=
  if w.head? = some star then gap [] w.tail
  else if w.getLast? = some star then gap w.dropLast []
  else if star ∈ w then gap (w.takeWhile (· ≠ star)) (w.dropWhile (· ≠ star)).tail
  else exact w

variable {star : α} {w : List α}

theorem takeWhile_append_star [DecidableEq α] (h : star ∈ w) :
    w = w.takeWhile (· ≠ star) ++ star :: (w.dropWhile (· ≠ star)).tail := by
  induction w with
  | nil => cases h
  | cons a w ih =>
    by_cases ha : a = star
    · subst ha
      simp
    · have hw : star ∈ w := (mem_cons.mp h).resolve_left (Ne.symm ha)
      rw [takeWhile_cons_of_pos (by simpa using ha),
        dropWhile_cons_of_pos (by simpa using ha), cons_append, ← ih hw]

variable {b e : List α}

theorem eq_of_parse_eq_gap [DecidableEq α] (h : parse star w = gap b e) : w = b ++ star :: e := by
  rw [parse] at h
  split at h
  · rename_i hhead
    obtain ⟨rfl, rfl⟩ := OneStar.gap.inj h
    cases w with
    | nil => simp at hhead
    | cons a t => simpa using hhead
  · split at h
    · rename_i hlast
      obtain ⟨rfl, rfl⟩ := OneStar.gap.inj h
      exact (dropLast_append_getLast? star hlast).symm
    · split at h
      · rename_i hmem
        obtain ⟨rfl, rfl⟩ := OneStar.gap.inj h
        exact takeWhile_append_star hmem
      · cases h

theorem eq_of_parse_eq_exact [DecidableEq α] (h : parse star w = exact v) : v = w ∧ star ∉ w := by
  rw [parse] at h
  split_ifs at h with _ _ hmem
  exact ⟨(OneStar.exact.inj h).symm, hmem⟩

theorem matches_parse_self [DecidableEq α] (star : α) (w : List α) :
    (parse star w).Matches w := by
  cases h : parse star w with
  | exact v => exact (eq_of_parse_eq_exact h).1.symm
  | gap b e => exact ⟨[star], by simpa using eq_of_parse_eq_gap h⟩

theorem matches_gap_of_le (hb : b <+: v) (he : e <:+ v) (hlen : b.length + e.length ≤ v.length) :
    (gap b e).Matches v := by
  obtain ⟨r, rfl⟩ := hb
  rw [length_append, Nat.add_le_add_iff_left] at hlen
  obtain ⟨m, rfl⟩ := suffix_of_suffix_length_le he (suffix_append b r) hlen
  exact ⟨m, by rw [append_assoc]⟩

theorem eq_nil_of_parse_eq_gap [DecidableEq α] (h : parse star w = gap b e)
    (hhead : (b ++ m ++ e).head? = some star) : b = [] := by
  cases b with
  | nil => rfl
  | cons x b =>
    have hw := eq_of_parse_eq_gap h
    have hx : x = star := by simpa using hhead
    rw [parse, if_pos (by rw [hw, hx]; rfl)] at h
    cases h

/-- **One word for another**: every pattern that matches the first matches the second. -/
theorem forall_matches_iff [DecidableEq α] :
    (∀ w, (parse star w).Matches p → (parse star w).Matches c) ↔
      p = c ∨ (star ∈ p ∧ p <:+ c ∧ (p.head? = some star ∨ p <+: c)) := by
  refine ⟨fun h => ?_, ?_⟩
  · by_cases hstar : star ∈ p
    · refine .inr ⟨hstar, ?_, or_iff_not_imp_left.mpr fun hhead => ?_⟩
      · -- a star before the word
        have hparse : parse star (star :: p) = gap [] p := by simp [parse]
        have hc := h (star :: p)
        rw [hparse] at hc
        obtain ⟨m, rfl⟩ := hc ⟨[], rfl⟩
        exact suffix_append ([] ++ m) p
      · -- a star behind the word
        have hparse : parse star (p ++ [star]) = gap p [] := by
          have hhead' : (p ++ [star]).head? ≠ some star := by
            rwa [head?_append_of_ne_nil _ (ne_nil_of_mem hstar)]
          rw [parse, if_neg hhead', if_pos (by simp), dropLast_concat]
        have hc := h (p ++ [star])
        rw [hparse] at hc
        obtain ⟨m, rfl⟩ := hc ⟨[], by simp⟩
        rw [append_nil]
        exact prefix_append p m
    · have hparse : parse star p = exact p := by
        have hhead : p.head? ≠ some star := fun hhead => hstar (mem_of_mem_head? hhead)
        have hlast : p.getLast? ≠ some star := fun hlast => hstar (mem_of_getLast? hlast)
        rw [parse, if_neg hhead, if_neg hlast, if_neg hstar]
      have hc := h p
      rw [hparse] at hc
      exact .inl (hc rfl).symm
  · rintro (rfl | ⟨hstar, hsuffix, hside⟩) w hw
    · exact hw
    · cases hparse : parse star w with
      | exact v =>
        rw [hparse] at hw
        obtain ⟨rfl, hnot⟩ := eq_of_parse_eq_exact hparse
        exact absurd (hw ▸ hstar) hnot
      | gap b e =>
        rw [hparse] at hw
        obtain ⟨m, rfl⟩ := hw
        have he : e <:+ c := (suffix_append (b ++ m) e).trans hsuffix
        have hlen : b.length + e.length ≤ c.length := by
          have hle := hsuffix.length_le
          simp only [length_append] at hle
          omega
        rcases hside with hhead | hprefix
        · obtain rfl := eq_nil_of_parse_eq_gap hparse hhead
          exact matches_gap_of_le nil_prefix he hlen
        · have hb : b <+: b ++ m ++ e := (prefix_append b m).trans (prefix_append _ e)
          exact matches_gap_of_le (hb.trans hprefix) he hlen

/-- The patterns `qs` cover every word that begins with `b` and ends with `e`. -/
inductive Covered (qs : List (OneStar α)) : List α → List α → Prop where
  /-- one pattern asks for less at either side -/
  | alone {b e b' e' : List α} (hmem : gap b' e' ∈ qs) (hb : b' <+: b) (he : e' <:+ e) :
      Covered qs b e
  /-- the gap is empty, or has a first symbol -/
  | first {b e : List α} (hnil : ∃ q ∈ qs, q.Matches (b ++ e))
      (hcons : ∀ x, Covered qs (b ++ [x]) e) : Covered qs b e
  /-- the gap is empty, or has a last symbol -/
  | last {b e : List α} (hnil : ∃ q ∈ qs, q.Matches (b ++ e))
      (hsnoc : ∀ x, Covered qs b (x :: e)) : Covered qs b e

variable {qs : List (OneStar α)}

/-- A pattern without a star on its sides matches a word only if it covers it. -/
theorem Covered.of_matches_word (hmem : gap b' e' ∈ qs) (hb' : star ∉ b') (he' : star ∉ e')
    (h : (gap b' e').Matches (b ++ star :: e)) : Covered qs b e := by
  obtain ⟨m, hm⟩ := h
  refine Covered.alone hmem ?_ ?_
  · have hpre : b' <+: b ++ star :: e := ⟨m ++ e', by rw [hm, append_assoc]⟩
    rcases prefix_or_prefix_of_prefix hpre
      (prefix_append b (star :: e)) with hle | ⟨t, rfl⟩
    · exact hle
    · rw [prefix_append_right_inj] at hpre
      cases t with
      | nil => simp
      | cons x t =>
        obtain ⟨rfl, -⟩ := cons_prefix_cons.mp hpre
        simp at hb'
  · have hsuf : e' <:+ b ++ star :: e := ⟨b' ++ m, hm.symm⟩
    rcases suffix_or_suffix_of_suffix hsuf
      (suffix_append b (star :: e)) with hle | ⟨t, rfl⟩
    · rcases suffix_cons_iff.mp hle with rfl | hle
      · simp at he'
      · exact hle
    · simp at he'

theorem Covered.sound (h : Covered qs b e) : ∀ m, ∃ q ∈ qs, q.Matches (b ++ m ++ e) := by
  induction h with
  | alone hmem hb he =>
    intro m
    obtain ⟨t, rfl⟩ := hb
    obtain ⟨t', rfl⟩ := he
    exact ⟨_, hmem, t ++ m ++ t', by simp⟩
  | first hnil _ ih =>
    intro m
    cases m with
    | nil => simpa using hnil
    | cons x m => simpa using ih x m
  | last hnil _ ih =>
    intro m
    rcases eq_nil_or_concat m with rfl | ⟨m, x, rfl⟩
    · simpa using hnil
    · simpa using ih x m

def size : OneStar α → ℕ
  | exact w => w.length
  | gap b e => b.length + e.length

theorem exists_alone (x : α) (hsize : ∀ q ∈ qs, q.size ≤ n) (hb : n ≤ b.length) (he : n ≤ e.length)
    (h : ∀ m, ∃ q ∈ qs, q.Matches (b ++ m ++ e)) :
    ∃ b' e', gap b' e' ∈ qs ∧ b' <+: b ∧ e' <:+ e := by
  obtain ⟨q, hq, hm⟩ := h [x]
  have hn := hsize q hq
  cases q with
  | exact w =>
    have hlen := congrArg List.length hm
    simp only [length_append, length_singleton] at hlen
    simp only [size] at hn
    omega
  | gap b' e' =>
    obtain ⟨m, hm⟩ := hm
    simp only [size] at hn
    refine ⟨b', e', hq, ?_, ?_⟩
    · have hb' : b' <+: b ++ ([x] ++ e) :=
        ⟨m ++ e', by rw [← append_assoc, ← append_assoc, hm]⟩
      exact prefix_of_prefix_length_le hb' (prefix_append _ _) (by omega)
    · have he' : e' <:+ b ++ [x] ++ e := ⟨b' ++ m, hm.symm⟩
      exact suffix_of_suffix_length_le he' (suffix_append _ _) (by omega)

theorem covered_of_forall_matches (x : α) (hsize : ∀ q ∈ qs, q.size ≤ n) :
    ∀ (fuel : ℕ) (b e : List α), (n - b.length) + (n - e.length) ≤ fuel →
      (∀ m, ∃ q ∈ qs, q.Matches (b ++ m ++ e)) → Covered qs b e := by
  -- induction on what is missing on either side to reach the size of the patterns
  intro fuel
  induction fuel with
  | zero =>
    intro b e hfuel h
    obtain ⟨b', e', hmem, hb, he⟩ := exists_alone x hsize (by omega) (by omega) h
    exact Covered.alone hmem hb he
  | succ fuel ih =>
    intro b e hfuel h
    have hnil : ∃ q ∈ qs, q.Matches (b ++ e) := by simpa using h []
    rcases Nat.lt_or_ge b.length n with hlt | hge
    · refine Covered.first hnil fun y => ih _ _ ?_ fun m => ?_
      · rw [length_append, length_singleton]
        omega
      · simpa using h (y :: m)
    · rcases Nat.lt_or_ge e.length n with hlt' | hge'
      · refine Covered.last hnil fun y => ih _ _ ?_ fun m => ?_
        · rw [length_cons]
          omega
        · simpa using h (m ++ [y])
      · obtain ⟨b', e', hmem, hb, he⟩ := exists_alone x hsize hge hge' h
        exact Covered.alone hmem hb he

/-- **`Covered` is sound and complete.** -/
theorem covered_iff [Inhabited α] : Covered qs b e ↔ ∀ m, ∃ q ∈ qs, q.Matches (b ++ m ++ e) := by
  refine ⟨Covered.sound, fun h => ?_⟩
  have hsize : ∀ q ∈ qs, q.size ≤ (qs.map size).sum := fun q hq =>
    single_le_sum (fun _ _ => Nat.zero_le _) _ (mem_map_of_mem hq)
  exact covered_of_forall_matches default hsize _ b e le_rfl h

end OneStar

end AlloyAgent
