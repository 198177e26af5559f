import Mathlib.Data.List.Chain
import Mathlib.Data.List.Flatten
import Mathlib.Data.List.Infix
import Mathlib.Data.List.Nodup

/-!
# Editing a list behind given positions

A program that inserts into a list at several positions, and computed these positions beforehand,
processes them from the largest to the smallest: an edit behind position `i` leaves everything up to
`i` alone.

* `foldl_editAfter_eq_weave`: so the loop is one pass over the list.
-/

namespace AlloyAgent

open List

universe u v

section Weave

variable {α : Type u} {β : Type v} (attach : β → List α → List α)

/-- Edit what follows position `i`. -/
def editAfter (l : List α) (i : ℕ) (e : β) : List α := l.take (i + 1) ++ attach e (l.drop (i + 1))

/-- Behind the element at each position `k`, counted from `k₀`, do the edit `ins k`. -/
def weave (ins : ℕ → Option β) : ℕ → List α → List α
  | _, [] => []
  | k, a :: l =>
    a :: match ins k with
      | some e => attach e (weave ins (k + 1) l)
      | none => weave ins (k + 1) l

variable {attach}

variable {ins : ℕ → Option β} {l : List α}

theorem weave_eq_self : ∀ {k : ℕ}, (∀ j, k ≤ j → ins j = none) → weave attach ins k l = l := by
  induction l with
  | nil => intro k _; rfl
  | cons a l ih =>
    intro k hnone
    rw [weave, hnone k le_rfl]
    exact congrArg (a :: ·) (ih fun j hj => hnone j (by omega))

theorem map_weave {f : α → α} :
    ∀ {k : ℕ}, (∀ j e, ins j = some e → ∀ l, (attach e l).map f = attach e (l.map f)) →
      (weave attach ins k l).map f = weave attach ins k (l.map f) := by
  induction l with
  | nil => intro k _; rfl
  | cons a l ih =>
    intro k hf
    rw [weave, map_cons, map_cons, weave]
    congr 1
    cases hk : ins k with
    | none => exact ih hf
    | some e => exact (hf k e hk _).trans (congrArg (attach e) (ih hf))

theorem weave_congr {ins' : ℕ → Option β} :
    ∀ {k : ℕ}, (∀ j, k ≤ j → ins j = ins' j) → weave attach ins k l = weave attach ins' k l := by
  induction l with
  | nil => intro k _; rfl
  | cons a l ih =>
    intro k heq
    rw [weave, weave, heq k le_rfl, ih fun j hj => heq j (by omega)]

variable {e : β}

/-- One edit before a pass over smaller positions is the pass with this edit added. -/
theorem weave_editAfter :
    ∀ {k i : ℕ}, i < l.length → (∀ j, k + i ≤ j → ins j = none) →
      weave attach ins k (editAfter attach l i e) =
        weave attach (fun j => if j = k + i then some e else ins j) k l := by
  induction l with
  | nil => intro k i hi; simp at hi
  | cons a l ih =>
    intro k i hi hnone
    cases i with
    | zero =>
      have hid : weave attach (fun j => if j = k then some e else ins j) (k + 1) l = l := by
        apply weave_eq_self
        intro j hj
        rw [if_neg (by omega)]
        exact hnone j (by omega)
      have hid' : ∀ l' : List α, weave attach ins (k + 1) l' = l' := fun l' =>
        weave_eq_self fun j hj => hnone j (by omega)
      simp only [editAfter, take_succ_cons, take_zero, drop_succ_cons,
        drop_zero, cons_append, nil_append, weave, hnone k (by omega), hid, hid',
        Nat.add_zero, if_true]
    | succ i =>
      have hi' : i < l.length := by simpa using hi
      have hih := ih (k := k + 1) hi' fun j hj => hnone j (by omega)
      have hedit : editAfter attach (a :: l) (i + 1) e = a :: editAfter attach l i e := rfl
      have hk : k + 1 + i = k + (i + 1) := by omega
      rw [hk] at hih
      rw [hedit, weave, weave, hih, if_neg (by omega)]

theorem length_editAfter_gt (hi : i < l.length) (hj : j < i) :
    j < (editAfter attach l i e).length := by
  rw [editAfter, length_append, length_take]
  omega

/-- **A loop of edits in descending order is one pass from right to left.** -/
theorem foldl_editAfter_eq_weave :
    ∀ {edits : List (ℕ × β)} {l : List α}, (edits.Pairwise fun a b => b.1 < a.1) →
      (∀ e ∈ edits, e.1 < l.length) → (∀ k e, ins k = some e ↔ (k, e) ∈ edits) →
      edits.foldl (fun l e => editAfter attach l e.1 e.2) l = weave attach ins 0 l := by
  intro edits
  induction edits generalizing ins with
  | nil =>
    intro l _ _ hins
    refine (weave_eq_self fun j _ => ?_).symm
    rw [Option.eq_none_iff_forall_ne_some]
    intro e he
    cases (hins j e).mp he
  | cons d edits ih =>
    obtain ⟨i, e⟩ := d
    intro l hdesc hlt hins
    obtain ⟨hlast, hdesc'⟩ := pairwise_cons.mp hdesc
    have hi : i < l.length := hlt (i, e) (mem_cons_self ..)
    -- the edits still to come, as a function of the position
    set ins' : ℕ → Option β := fun j => if j < i then ins j else none with hins'
    have hrest : ∀ k e', ins' k = some e' ↔ (k, e') ∈ edits := by
      intro k e'
      by_cases hk : k < i
      · rw [hins']
        simp only [if_pos hk, hins, mem_cons, Prod.mk.injEq]
        refine ⟨?_, ?_⟩
        · rintro (⟨rfl, -⟩ | h)
          · omega
          · exact h
        · exact Or.inr
      · rw [hins']
        simp only [if_neg hk, reduceCtorEq, false_iff]
        intro h
        exact hk (hlast _ h)
    rw [foldl_cons, ih hdesc' (fun e' he' => length_editAfter_gt hi (hlast e' he')) hrest,
      weave_editAfter hi fun j hj => by rw [hins']; exact if_neg (by omega)]
    apply weave_congr
    intro j _
    rw [hins', Nat.zero_add]
    by_cases hji : j = i
    · subst hji
      rw [if_pos rfl]
      exact ((hins j e).mpr (mem_cons_self ..)).symm
    · simp only [if_neg hji]
      by_cases hlt' : j < i
      · rw [if_pos hlt']
      · rw [if_neg hlt']
        symm
        rw [Option.eq_none_iff_forall_ne_some]
        intro e' he'
        rcases mem_cons.mp ((hins j e').mp he') with heq | hmem
        · exact hji (congrArg Prod.fst heq)
        · exact hlt' (hlast _ hmem)

theorem lookup_eq_some_iff_mem {edits : List (ℕ × β)} (hdesc : edits.Pairwise fun a b => b.1 < a.1)
    {k : ℕ} : edits.lookup k = some e ↔ (k, e) ∈ edits := by
  induction edits with
  | nil => simp
  | cons d edits ih =>
    obtain ⟨i, d⟩ := d
    obtain ⟨hlast, hdesc'⟩ := pairwise_cons.mp hdesc
    by_cases hk : k = i
    · subst hk
      rw [lookup_cons_self, mem_cons]
      refine ⟨?_, ?_⟩
      · intro h
        exact Or.inl (by rw [Option.some.inj h])
      · rintro (h | h)
        · rw [(Prod.mk.inj h).2]
        · exact absurd (hlast _ h) (lt_irrefl k)
    · rw [lookup_cons, beq_false_of_ne hk, mem_cons, ih hdesc']
      refine ⟨?_, ?_⟩
      · exact Or.inr
      · rintro (h | h)
        · exact absurd (Prod.mk.inj h).1 hk
        · exact h

end Weave

/-! ## Adjacent elements -/

section Adjacent

variable {α : Type u} {β : Type v} {R : α → α → Prop}

variable {l : List α}

theorem isChain_cons_iff_getElem? :
    (d :: l).IsChain R ↔
      (∀ a, l[0]? = some a → R d a) ∧
        ∀ i a b, l[i]? = some a → l[i + 1]? = some b → R a b := by
  rw [isChain_cons, head?_eq_getElem?, isChain_iff_getElem]
  refine and_congr Iff.rfl ⟨?_, ?_⟩
  · intro h i a b ha hb
    obtain ⟨hi, rfl⟩ := List.getElem?_eq_some_iff.mp ha
    obtain ⟨hi', rfl⟩ := List.getElem?_eq_some_iff.mp hb
    exact h i hi'
  · intro h i hi
    exact h i _ _ (getElem?_eq_getElem (by omega)) (getElem?_eq_getElem hi)

/-- Two neighbours may be fused into one element that is no harder to follow. -/
theorem isChain_fuse (h : (l₁ ++ x :: y :: l₂).IsChain R) (hbefore : ∀ w, R w x → R w z)
    (hafter : ∀ w, R y w → R z w) : (l₁ ++ z :: l₂).IsChain R := by
  rw [isChain_split] at h
  obtain ⟨hleft, hright⟩ := h
  have hy : (y :: l₂).IsChain R := hright.tail
  rw [isChain_split]
  refine ⟨?_, hy.imp_head fun {w} => hafter w⟩
  rw [isChain_append] at hleft ⊢
  refine ⟨hleft.1, isChain_singleton z, ?_⟩
  intro w hw v hv
  obtain rfl : z = v := by simpa using hv
  exact hbefore w (hleft.2.2 w hw x (by simp))

/-- If all the values listed are distinct, a value names the position it is listed under. -/
theorem getElem?_unique_of_nodup_flatMap {f : α → List β} (hnd : (l.flatMap f).Nodup) {i j : ℕ}
    {a b : α} {x : β} (hi : l[i]? = some a) (hj : l[j]? = some b) (ha : x ∈ f a) (hb : x ∈ f b) :
    i = j := by
  have hpw := (nodup_flatMap.mp hnd).2
  rw [pairwise_iff_getElem] at hpw
  obtain ⟨hi', rfl⟩ := List.getElem?_eq_some_iff.mp hi
  obtain ⟨hj', rfl⟩ := List.getElem?_eq_some_iff.mp hj
  rcases lt_trichotomy i j with hlt | heq | hgt
  · exact absurd hb (hpw i j hi' hj' hlt ha)
  · exact heq
  · exact absurd ha (hpw j i hj' hi' hgt hb)

theorem exists_mem_of_forall₂ {S : α → β → Prop} (h : List.Forall₂ S l l') (hb : b ∈ l') :
    ∃ a ∈ l, S a b := by
  induction h with
  | nil => cases hb
  | cons hab _ ih =>
    rcases mem_cons.mp hb with rfl | hb
    · exact ⟨_, mem_cons_self .., hab⟩
    · obtain ⟨a, ha, hab'⟩ := ih hb
      exact ⟨a, mem_cons_of_mem _ ha, hab'⟩

theorem filterMap_eq_of_forall₂ {g : α → Option β}
    (h : List.Forall₂ (fun a a' => g a' = g a) l l') : l'.filterMap g = l.filterMap g := by
  induction h with
  | nil => rfl
  | cons hab _ ih => simp only [filterMap_cons, hab, ih]

theorem flatMap_eq_flatMap_iff {f g : α → List β} (h : ∀ a ∈ l, (f a).Sublist (g a)) :
    l.flatMap f = l.flatMap g ↔ ∀ a ∈ l, f a = g a := by
  induction l with
  | nil => simp
  | cons a l ih =>
    have ha := h a mem_cons_self
    have hl := fun b hb => h b (mem_cons_of_mem a hb)
    rw [flatMap_cons, flatMap_cons, forall_mem_cons, ← ih hl]
    refine ⟨fun heq => ?_, fun ⟨heq, hrest⟩ => by rw [heq, hrest]⟩
    have hsub : (l.flatMap f).Sublist (l.flatMap g) := List.Sublist.flatMap_right _ hl
    have hlen := congrArg List.length heq
    rw [length_append, length_append] at hlen
    have hle := ha.length_le
    have hle' := hsub.length_le
    exact ⟨ha.eq_of_length (by omega), hsub.eq_of_length (by omega)⟩

end Adjacent

variable {α β : Type}

theorem forall₂_of_mapM {σ : Type} {S : α → β → Prop} {f : α → StateT σ Option β}
    (hf : ∀ a s b s', f a s = some (b, s') → S a b) :
    ∀ {l : List α} {s : σ} {l' : List β} {s' : σ}, l.mapM f s = some (l', s') →
      List.Forall₂ S l l' := by
  intro l
  induction l with
  | nil =>
    intro s l' s' h
    rw [mapM_nil] at h
    cases h
    exact .nil
  | cons a l ih =>
    intro s l' s' h
    rw [mapM_cons] at h
    obtain ⟨⟨b, s₁⟩, hb, h⟩ := Option.bind_eq_some_iff.mp h
    obtain ⟨⟨bs, s₂⟩, hbs, h⟩ := Option.bind_eq_some_iff.mp h
    cases h
    exact .cons (hf a s b s₁ hb) (ih hbs)

variable {R : α → β → Prop}

theorem forall₂_comp {γ : Type} {S : β → γ → Prop} {T : α → γ → Prop}
    (h : ∀ a b c, R a b → S b c → T a c) {as : List α} {bs : List β} {cs : List γ}
    (hab : List.Forall₂ R as bs) (hbc : List.Forall₂ S bs cs) : List.Forall₂ T as cs := by
  induction hab generalizing cs with
  | nil =>
    cases hbc
    exact .nil
  | cons hr _ ih =>
    cases hbc with
    | cons hs hrest => exact .cons (h _ _ _ hr hs) (ih hrest)

theorem forall₂_getElem? {l : List α} {l' : List β} (h : List.Forall₂ R l l') {i : ℕ} {a : α}
    (ha : l[i]? = some a) : ∃ b, l'[i]? = some b ∧ R a b := by
  obtain ⟨hi, rfl⟩ := List.getElem?_eq_some_iff.mp ha
  have hi' : i < l'.length := h.length_eq ▸ hi
  exact ⟨l'[i], getElem?_eq_getElem hi', h.get hi hi'⟩

end AlloyAgent
