import AlloyAgent.RustStr

/-!
# Simultaneous substitution

`Substituted bindings s t`: the text `s` is read from left to right, and whatever matches a pattern
is replaced by what the pattern is bound to.

* `substituted_replace`: `replace` does it for one pattern;
* `not_substituted_of_passes`: several passes need not do it for several.
-/

namespace AlloyAgent

namespace Substitution

open List RustStr

universe u

variable {α : Type u}

/-- Everything that matches a pattern has been replaced, and nothing else. -/
inductive Substituted (bindings : List (List α × List α)) : List α → List α → Prop
  | nil : Substituted bindings [] []
  | swap {pat new s t : List α} : (pat, new) ∈ bindings → Substituted bindings s t →
      Substituted bindings (pat ++ s) (new ++ t)
  | keep {a : α} {s t : List α} : (∀ b ∈ bindings, ¬ b.1 <+: a :: s) → Substituted bindings s t →
      Substituted bindings (a :: s) (a :: t)

namespace Substituted

variable {bindings : List (List α × List α)} {s t pat new : List α}

theorem weaken (h : Substituted bindings s t) (hsub : bindings ⊆ bindings')
    (hnew : ∀ b ∈ bindings', b ∈ bindings ∨ ¬ b.1 <:+: s) : Substituted bindings' s t := by
  induction h with
  | nil => exact .nil
  | swap hmem _ ih =>
    refine .swap (hsub hmem) (ih fun b hb => (hnew b hb).imp id fun hno hs => hno ?_)
    exact hs.trans (suffix_append _ _).isInfix
  | keep hkeep _ ih =>
    refine .keep (fun b hb hpre => ?_) (ih fun b hb => (hnew b hb).imp id fun hno hs => hno ?_)
    · rcases hnew b hb with hold | hno
      · exact hkeep b hold hpre
      · exact hno hpre.isInfix
    · exact hs.trans (suffix_cons _ _).isInfix

theorem refl_of_not_isInfix (h : ∀ b ∈ bindings, ¬ b.1 <:+: s) : Substituted bindings s s := by
  induction s with
  | nil => exact .nil
  | cons a s ih =>
    refine .keep (fun b hb hpre => h b hb hpre.isInfix) (ih fun b hb hs => h b hb ?_)
    exact hs.trans (suffix_cons _ _).isInfix

theorem eq_of_not_isInfix (hsub : Substituted bindings s t) (h : ∀ b ∈ bindings, ¬ b.1 <:+: s) :
    t = s := by
  induction hsub with
  | nil => rfl
  | swap hmem _ _ => exact absurd (prefix_append _ _).isInfix (h _ hmem)
  | keep _ _ ih =>
    rw [ih fun b hb hs => h b hb (hs.trans (suffix_cons _ _).isInfix)]

theorem eq_of_self (h : Substituted [(pat, pat)] s t) : t = s := by
  induction h with
  | nil => rfl
  | swap hmem _ ih =>
    cases mem_singleton.mp hmem
    rw [ih]
  | keep _ _ ih => rw [ih]

theorem isInfix_of_isInfix (h : Substituted [(pat, new)] s t) (hne : pat ≠ []) (hs : pat <:+: s) :
    new <:+: t := by
  induction h with
  | nil => exact absurd (infix_nil.mp hs) hne
  | swap hmem _ _ =>
    cases mem_singleton.mp hmem
    exact (prefix_append _ _).isInfix
  | keep hkeep _ ih =>
    rcases infix_cons_iff.mp hs with hpre | hrest
    · exact absurd hpre (hkeep _ mem_cons_self)
    · exact (ih hrest).trans (suffix_cons _ _).isInfix

theorem length_le (h : Substituted bindings s t) (hk : 1 ≤ k)
    (hbindings : ∀ b ∈ bindings, b.1 ≠ [] ∧ b.2.length ≤ k) : t.length ≤ s.length * k := by
  induction h with
  | nil => exact Nat.zero_le _
  | @swap pat new s t hmem _ ih =>
    obtain ⟨hne, hnew⟩ := hbindings _ hmem
    dsimp only at hne hnew
    have hpat : 1 * k ≤ pat.length * k := Nat.mul_le_mul_right k (length_pos_iff.mpr hne)
    rw [length_append, length_append, Nat.add_mul]
    omega
  | keep _ _ ih =>
    rw [length_cons, length_cons, Nat.add_mul]
    omega

theorem isInfix_of_append (h : (replicate (k + 1) pat).flatten <:+: pat ++ s) :
    (replicate k pat).flatten <:+: s := by
  obtain ⟨before, after, heq⟩ := h
  rw [replicate_succ, flatten_cons, append_assoc, append_assoc,
    ← append_assoc] at heq
  have hlength := congrArg length heq
  have hsuffix : (replicate k pat).flatten ++ after <:+ s := by
    refine suffix_of_suffix_length_le ⟨_, heq⟩ (suffix_append pat s) ?_
    simp only [length_append] at hlength ⊢
    omega
  exact (prefix_append _ after).isInfix.trans hsuffix.isInfix

/-- Every copy of the pattern in a row is replaced, by induction along the text. -/
theorem mul_length_le (h : Substituted [(pat, new)] s t) (hne : pat ≠ []) :
    ∀ k, (replicate k pat).flatten <:+: s → k * new.length ≤ t.length := by
  induction h with
  | nil =>
    intro k hs
    cases k with
    | zero => exact (Nat.zero_mul _).le
    | succ k =>
      rw [replicate_succ, flatten_cons, infix_nil, append_eq_nil_iff] at hs
      exact absurd hs.1 hne
  | swap hmem _ ih =>
    intro k hs
    cases mem_singleton.mp hmem
    cases k with
    | zero => exact (Nat.zero_mul _).trans_le (Nat.zero_le _)
    | succ k =>
      have hrest := ih k (isInfix_of_append hs)
      rw [length_append, Nat.add_mul]
      omega
  | keep hkeep _ ih =>
    intro k hs
    cases k with
    | zero => exact (Nat.zero_mul _).trans_le (Nat.zero_le _)
    | succ k =>
      rcases infix_cons_iff.mp hs with hpre | hrest
      · rw [replicate_succ, flatten_cons] at hpre
        exact absurd ((prefix_append _ _).trans hpre) (hkeep _ mem_cons_self)
      · exact (ih (k + 1) hrest).trans (Nat.le_succ _)

end Substituted

theorem replaceGo_skip (pat new : List Char) (n : ℕ) (s : List Char) :
    replaceGo pat new n s = replaceGo pat new 0 (s.drop n) :=
  skip_eq_drop (fun n => by cases n <;> rfl) (fun _ _ _ => rfl) n s

theorem replace_append (hne : pat ≠ []) (s new : List Char) :
    RustStr.replace (pat ++ s) pat new = new ++ RustStr.replace s pat new := by
  obtain ⟨c, pat, rfl⟩ := exists_cons_of_ne_nil hne
  have hpre : (c :: pat).isPrefixOf (c :: (pat ++ s)) :=
    List.isPrefixOf_iff_prefix.mpr (prefix_append (c :: pat) s)
  unfold RustStr.replace
  rw [cons_append, replaceGo, if_pos hpre, length_cons, Nat.add_sub_cancel, replaceGo_skip,
    drop_left]

/-- **`replace` is the substitution of one pattern.** -/
theorem substituted_replace (hne : pat ≠ []) (s new : List Char) :
    Substituted [(pat, new)] s (RustStr.replace s pat new) := by
  induction hlength : s.length using Nat.strong_induction_on generalizing s with
  | _ n ih =>
    by_cases hpre : pat <+: s
    · obtain ⟨rest, rfl⟩ := hpre
      rw [replace_append hne]
      refine .swap mem_cons_self (ih _ ?_ rest rfl)
      rw [← hlength, length_append]
      exact Nat.lt_add_of_pos_left (length_pos_iff.mpr hne)
    · cases s with
      | nil => exact .nil
      | cons c s =>
        unfold RustStr.replace
        rw [replaceGo, if_neg (mt isPrefixOf_iff_prefix.mp hpre)]
        refine .keep (fun b hb => mem_singleton.mp hb ▸ hpre) (ih _ ?_ s rfl)
        rw [← hlength, length_cons]
        exact Nat.lt_succ_self _

/-- **Two passes are not simultaneous** if the first inserts what the second replaces. -/
theorem not_substituted_of_passes {bindings : List (List α × List α)}
    {p q w text first second : List α} (hp : p ≠ []) (hq : q ≠ []) (hw : w ≠ [])
    (hocc : p <:+: text)
    (hfirst : Substituted [(p, (replicate (text.length + 1) q).flatten)] text first)
    (hsecond : Substituted [(q, w)] first second)
    (hbindings : ∀ b ∈ bindings, b.1 ≠ [] ∧ b.2.length ≤ w.length) :
    ¬ Substituted bindings text second := by
  intro h
  have hrow := hfirst.isInfix_of_isInfix hp hocc
  have hmany := hsecond.mul_length_le hq _ hrow
  have hpos := length_pos_iff.mpr hw
  have hfew := h.length_le hpos hbindings
  rw [Nat.add_mul] at hmany
  omega

end Substitution

end AlloyAgent
