import AlloyAgent.RustStr

/-!
# Loops that look for an opening tag

A loop looks for the first occurrence of a tag in the rest of a text.

* `scanTags_invariant`: what the handler preserves;
* `Passed.scanTags`: text without a tag is skipped; `scanTags_tag`: a tag is handled.
-/

namespace AlloyAgent.TagScan

open List RustStr

universe u

/-- What is done behind a tag: the state afterwards, and the text in which the search goes on. -/
structure Handler (σ : Type u) where
  run : σ → List Char → σ × List Char
  /-- the search does not go back -/
  length_le : ∀ acc s, (run acc s).2.length ≤ s.length

section

variable {σ : Type u} (d : Char) (ds : List Char) (handler : Handler σ)

/-- The loop over the occurrences of the tag `d :: ds`. -/
def scanTags (acc : σ) (text : List Char) : σ :=
  match _h : splitOnce? (d :: ds) text with
  | none => acc
  | some (_, after) => scanTags (handler.run acc after).1 (handler.run acc after).2
termination_by text.length
decreasing_by
  have hsplit := splitOnce?_length _h
  have hle := handler.length_le acc after
  rw [List.length_cons] at hsplit
  omega

/-- The first tag is in `t`, if there is one. -/
def Passed (s t : List Char) : Prop :=
  splitOnce? (d :: ds) (s ++ t) = (splitOnce? (d :: ds) t).map fun r => (s ++ r.1, r.2)

variable {d ds handler} {acc : σ} {s t text : List Char}

theorem scanTags_of_none (h : splitOnce? (d :: ds) text = none) :
    scanTags d ds handler acc text = acc := by
  rw [scanTags]
  split
  · rfl
  · rename_i heq
    rw [h] at heq
    cases heq

theorem scanTags_of_some {before after : List Char}
    (h : splitOnce? (d :: ds) text = some (before, after)) :
    scanTags d ds handler acc text =
      scanTags d ds handler (handler.run acc after).1 (handler.run acc after).2 := by
  rw [scanTags]
  split
  · rename_i heq
    rw [h] at heq
    cases heq
  · rename_i heq
    rw [h] at heq
    cases heq
    rfl

theorem scanTags_invariant {Inv : σ → Prop} (hrun : ∀ acc s, Inv acc → Inv (handler.run acc s).1)
    (hacc : Inv acc) (text : List Char) : Inv (scanTags d ds handler acc text) := by
  induction acc, text using scanTags.induct d ds handler with
  | case1 acc text h =>
    rw [scanTags_of_none h]
    exact hacc
  | case2 acc text before after h ih =>
    rw [scanTags_of_some h]
    exact ih (hrun acc after hacc)

/-! ## Pieces of the text -/

theorem splitOnce?_tag (d : Char) (ds t : List Char) :
    splitOnce? (d :: ds) (d :: ds ++ t) = some ([], t) := by
  have hpre : (d :: ds).isPrefixOf (d :: ds ++ t) = true :=
    isPrefixOf_iff_prefix.mpr (prefix_append _ _)
  rw [cons_append] at hpre ⊢
  rw [splitOnce?, if_pos hpre, ← cons_append, drop_left]

theorem scanTags_tag (t : List Char) :
    scanTags d ds handler acc (d :: ds ++ t) =
      scanTags d ds handler (handler.run acc t).1 (handler.run acc t).2 :=
  scanTags_of_some (splitOnce?_tag d ds t)

theorem Passed.scanTags (h : Passed d ds s t) :
    scanTags d ds handler acc (s ++ t) = scanTags d ds handler acc t := by
  cases hsplit : splitOnce? (d :: ds) t with
  | none =>
    rw [Passed, hsplit] at h
    rw [scanTags_of_none hsplit, scanTags_of_none h]
  | some r =>
    rw [Passed, hsplit] at h
    rw [scanTags_of_some hsplit, scanTags_of_some h]

theorem Passed.splitOnce? (h : Passed d ds s (d :: ds ++ t)) :
    splitOnce? (d :: ds) (s ++ (d :: ds ++ t)) = some (s, t) := by
  rw [Passed, splitOnce?_tag] at h
  rw [h, Option.map_some, append_nil]

theorem passed_nil (t : List Char) : Passed d ds [] t := by
  rw [Passed, nil_append]
  cases RustStr.splitOnce? (d :: ds) t <;> rfl

theorem Passed.append (hs : Passed d ds s (t ++ u)) (ht : Passed d ds t u) :
    Passed d ds (s ++ t) u := by
  rw [Passed] at hs ht ⊢
  rw [append_assoc, hs, ht, Option.map_map]
  exact congrArg (Option.map · _) (funext fun r => by simp)

theorem passed_cons (hpre : ¬ d :: ds <+: c :: (s ++ t)) (hs : Passed d ds s t) :
    Passed d ds (c :: s) t := by
  rw [Passed] at hs ⊢
  rw [cons_append, RustStr.splitOnce?, if_neg (mt isPrefixOf_iff_prefix.mp hpre), hs,
    Option.map_map]
  rfl

theorem passed_of_notMem (h : d ∉ s) (t : List Char) : Passed d ds s t := by
  induction s with
  | nil => exact passed_nil t
  | cons c s ih =>
    rw [mem_cons, not_or] at h
    exact passed_cons (fun hpre => h.1 (cons_prefix_cons.mp hpre).1) (ih h.2)

/-- Text in which the tag does not occur is passed, up to the next tag. -/
theorem passed_of_not_isInfix (hds : d ∉ ds) (ht : ∀ c ∈ t.head?, c = d)
    (h : ¬ d :: ds <:+: s) : Passed d ds s t := by
  induction s with
  | nil => exact passed_nil t
  | cons c s ih =>
    refine passed_cons (fun hpre => ?_) (ih fun hs => h (hs.trans (suffix_cons c s).isInfix))
    obtain ⟨after, hafter⟩ := hpre
    rw [← cons_append] at hafter
    rcases append_eq_append_iff.mp hafter with ⟨more, hs, -⟩ | ⟨more, htag, ht'⟩
    · exact h ⟨[], more, by rw [nil_append, hs]⟩
    · -- the tag ends in `t`, unless it ends with `s`
      cases more with
      | nil =>
        rw [append_nil] at htag
        exact h (htag ▸ infix_rfl)
      | cons e more =>
        have he : e = d := ht e (by rw [ht']; rfl)
        rw [cons_append] at htag
        exact hds ((List.cons.inj htag).2 ▸ mem_append_right s (he ▸ mem_cons_self))

theorem passed_tag (hes : d ∉ es) (hpre : (d :: ds).isPrefixOf (d :: es ++ t) = false) :
    Passed d ds (d :: es) t := by
  refine passed_cons (fun h => ?_) (passed_of_notMem hes t)
  rw [← cons_append, ← isPrefixOf_iff_prefix, hpre] at h
  cases h

end

end AlloyAgent.TagScan
