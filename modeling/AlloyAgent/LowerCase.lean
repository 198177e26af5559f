import AlloyAgent.RustStr
import Mathlib.Algebra.Group.Int.Defs

/-!
# Lower case

`str::to_lowercase` goes through a text and writes the lower case of each letter, which may be
several letters and may take more or fewer bytes.

* `Lowers`: a text and its lower case;
* `Lowers.find`, `Lowers.infix_iff`: a word is found where it stands in some case.
-/

namespace AlloyAgent.RustStr

open List

structure CaseTables where
  lower : Char → List Char
  caseIgnorable : Char → Bool
  cased : Char → Bool
  lower_ascii : ∀ c, c.utf8Size = 1 → lower c = [c.toLower]
  lower_sigma : lower 'Σ' = ['σ']
  /-- the capital I with a dot -/
  lower_dotted : lower '\u0130' = ['i', '\u0307']
  /-- the sign for Kelvin -/
  lower_kelvin : lower '\u212a' = ['k']
  /-- no other letter has an ASCII letter in its lower case -/
  lower_other : ∀ c, c.utf8Size ≠ 1 → c ≠ '\u0130' → c ≠ '\u212a' →
    ∀ d ∈ lower c, d.utf8Size ≠ 1
  lower_ne_nil : ∀ c, lower c ≠ []

/-- Letters that may be ignored, and then a cased one. -/
def CaseTables.caseIgnorableThenCased (T : CaseTables) (s : List Char) : Bool :=
  match s.dropWhile T.caseIgnorable with
  | c :: _ => T.cased c
  | [] => false

/-- A capital sigma becomes a final one at the end of a word. `before` is in reverse. -/
def CaseTables.mapUppercaseSigma (T : CaseTables) (before after : List Char) : Char :=
  if T.caseIgnorableThenCased before && !T.caseIgnorableThenCased after then 'ς' else 'σ'

def CaseTables.lowerFrom (T : CaseTables) (before : List Char) : List Char → List Char
  | [] => []
  | c :: rest =>
    (if c = 'Σ' then [T.mapUppercaseSigma before rest] else T.lower c) ++
      T.lowerFrom (c :: before) rest

def CaseTables.toLowercase (T : CaseTables) (s : List Char) : List Char := T.lowerFrom [] s

/-! ## Letter by letter -/

/-- `b` can be written for `c`. -/
def CaseTables.Block (T : CaseTables) (c : Char) (b : List Char) : Prop :=
  b = T.lower c ∨ c = 'Σ' ∧ b = ['ς']

/-- `t` is a lower case of `s`, whatever becomes of the sigmas. -/
inductive Lowers (T : CaseTables) : List Char → List Char → Prop
  | nil : Lowers T [] []
  | cons {c : Char} {b s t : List Char} (hb : T.Block c b) (h : Lowers T s t) :
    Lowers T (c :: s) (b ++ t)

/-- How many bytes the lower case has more than the text. -/
def CaseTables.growth (T : CaseTables) (s : List Char) : ℤ :=
  (utf8Len (s.flatMap T.lower) : ℤ) - utf8Len s

variable {T : CaseTables} {a b s t u w x y z : List Char} {c : Char}

theorem lowers_lowerFrom (T : CaseTables) (before s : List Char) :
    Lowers T s (T.lowerFrom before s) := by
  induction s generalizing before with
  | nil => exact .nil
  | cons c s ih =>
    rw [CaseTables.lowerFrom]
    refine .cons ?_ (ih _)
    split
    · rename_i hc
      rw [CaseTables.mapUppercaseSigma]
      split
      · exact .inr ⟨hc, rfl⟩
      · rw [CaseTables.Block, hc, T.lower_sigma]
        exact .inl rfl
    · exact .inl rfl

theorem lowers_toLowercase (T : CaseTables) (s : List Char) : Lowers T s (T.toLowercase s) :=
  lowers_lowerFrom T [] s

theorem Lowers.append (h₁ : Lowers T s x) (h₂ : Lowers T t y) : Lowers T (s ++ t) (x ++ y) := by
  induction h₁ with
  | nil => exact h₂
  | cons hb _ ih =>
    rw [cons_append, append_assoc]
    exact .cons hb ih

theorem Lowers.of_append (h : Lowers T (s ++ t) y) :
    ∃ y₁ y₂, y = y₁ ++ y₂ ∧ Lowers T s y₁ ∧ Lowers T t y₂ := by
  induction s generalizing y with
  | nil => exact ⟨[], y, rfl, .nil, h⟩
  | cons c s ih =>
    cases h with
    | cons hb h =>
      obtain ⟨y₁, y₂, rfl, h₁, h₂⟩ := ih h
      exact ⟨_, y₂, (append_assoc ..).symm, .cons hb h₁, h₂⟩

theorem Lowers.eq_nil (h : Lowers T s []) : s = [] := by
  generalize hy : ([] : List Char) = y at h
  cases h with
  | nil => rfl
  | @cons c b s t hb h =>
    have hnil : b = [] := (append_eq_nil_iff.mp hy.symm).1
    rcases hb with rfl | ⟨-, rfl⟩
    · exact absurd hnil (T.lower_ne_nil c)
    · cases hnil

theorem utf8Size_toLower (h : c.utf8Size = 1) : c.toLower.utf8Size = 1 := by
  have hall : ∀ n < 128, (Char.ofNat n).toLower.utf8Size = 1 := by decide
  have hc : c.toNat < 128 := by
    have hval := Char.utf8Size_eq_one_iff.mp h
    have hle := UInt32.le_iff_toNat_le.mp hval
    exact Nat.lt_succ_of_le hle
  have hlower := hall c.toNat hc
  rwa [Char.ofNat_toNat] at hlower

theorem CaseTables.Block.utf8Len_eq (h : T.Block c b) : utf8Len b = utf8Len (T.lower c) := by
  rcases h with rfl | ⟨rfl, rfl⟩
  · rfl
  · rw [T.lower_sigma]
    decide

theorem Lowers.utf8Len_eq (h : Lowers T s t) : (utf8Len t : ℤ) = utf8Len s + T.growth s := by
  have hlen : utf8Len t = utf8Len (s.flatMap T.lower) := by
    induction h with
    | nil => rfl
    | cons hb _ ih => rw [flatMap_cons, utf8Len_append, utf8Len_append, hb.utf8Len_eq, ih]
  rw [CaseTables.growth, hlen]
  omega

@[simp] theorem growth_nil (T : CaseTables) : T.growth [] = 0 := rfl

theorem growth_append (T : CaseTables) (s t : List Char) :
    T.growth (s ++ t) = T.growth s + T.growth t := by
  simp only [CaseTables.growth, flatMap_append, utf8Len_append]
  omega

theorem growth_of_keeps (h : ∀ c ∈ s, utf8Len (T.lower c) = c.utf8Size) : T.growth s = 0 := by
  induction s with
  | nil => rfl
  | cons c s ih =>
    rw [forall_mem_cons] at h
    have hone : T.growth [c] = 0 := by
      simp [CaseTables.growth, h.1]
    rw [← singleton_append, growth_append, hone, ih h.2, add_zero]

theorem ascii_of_all (h : s.all (fun c => c.utf8Size == 1) = true) : ∀ c ∈ s, c.utf8Size = 1 :=
  fun c hc => eq_of_beq (all_eq_true.mp h c hc)

theorem utf8Len_of_ascii (h : ∀ c ∈ s, c.utf8Size = 1) : utf8Len s = s.length := by
  induction s with
  | nil => rfl
  | cons c s ih =>
    rw [forall_mem_cons] at h
    rw [utf8Len_cons, h.1, ih h.2, length_cons, Nat.add_comm]

theorem utf8Len_lower_ascii (h : c.utf8Size = 1) : utf8Len (T.lower c) = c.utf8Size := by
  rw [T.lower_ascii c h, h]
  simp [utf8Size_toLower h]

/-! ## Words of ASCII letters -/

/-- `w` is `u` up to case. -/
structure Spells (w u : List Char) : Prop where
  ascii : ∀ c ∈ w, c.utf8Size = 1
  lower_eq : w.map Char.toLower = u

theorem Spells.growth (h : Spells w u) (T : CaseTables) : T.growth w = 0 :=
  growth_of_keeps fun c hc => utf8Len_lower_ascii (h.ascii c hc)

theorem Spells.length_eq (h : Spells w u) : w.length = u.length := by
  rw [← h.lower_eq, length_map]

theorem Spells.utf8Len_eq (h : Spells w u) : utf8Len w = u.length :=
  (utf8Len_of_ascii h.ascii).trans h.length_eq

theorem Spells.lowers_eq (h : Spells w u) (hy : Lowers T w y) : y = u := by
  obtain ⟨hascii, rfl⟩ := h
  induction hy with
  | nil => rfl
  | @cons c b w t hb _ ih =>
    rw [forall_mem_cons] at hascii
    rw [ih hascii.2, map_cons]
    rcases hb with rfl | ⟨rfl, -⟩
    · rw [T.lower_ascii c hascii.1]
      rfl
    · exact absurd hascii.1 (by decide)

/-- A word that letters outside ASCII do not help to spell. -/
structure Findable (u : List Char) : Prop where
  ascii : ∀ d ∈ u, d.utf8Size = 1
  kelvin : 'k' ∉ u
  dotted : u.getLast? ≠ some 'i'

instance decidableFindable (u : List Char) : Decidable (Findable u) :=
  decidable_of_iff (u.all (fun d => d.utf8Size == 1) = true ∧ 'k' ∉ u ∧ u.getLast? ≠ some 'i')
    ⟨fun h => ⟨ascii_of_all h.1, h.2.1, h.2.2⟩,
      fun h => ⟨List.all_eq_true.mpr fun d hd => beq_of_eq (h.ascii d hd), h.kelvin, h.dotted⟩⟩

theorem CaseTables.Block.cases (h : T.Block c b) :
    c.utf8Size = 1 ∧ b = [c.toLower] ∨ b = ['i', '\u0307'] ∨ b = ['k'] ∨
      b ≠ [] ∧ ∀ d ∈ b, d.utf8Size ≠ 1 := by
  rcases h with rfl | ⟨rfl, rfl⟩
  · by_cases hascii : c.utf8Size = 1
    · exact .inl ⟨hascii, T.lower_ascii c hascii⟩
    · by_cases hdotted : c = '\u0130'
      · exact .inr (.inl (hdotted ▸ T.lower_dotted))
      · by_cases hkelvin : c = '\u212a'
        · exact .inr (.inr (.inl (hkelvin ▸ T.lower_kelvin)))
        · exact .inr (.inr (.inr ⟨T.lower_ne_nil c, T.lower_other c hascii hdotted hkelvin⟩))
  · exact .inr (.inr (.inr ⟨by simp, forall_mem_singleton.mpr (by decide)⟩))

theorem Lowers.find_prefix (hu : Findable u) (h : Lowers T s (u ++ z)) :
    ∃ w b, s = w ++ b ∧ Spells w u ∧ Lowers T b z := by
  induction u generalizing s with
  | nil => exact ⟨[], s, rfl, ⟨by simp, rfl⟩, h⟩
  | cons d u ih =>
    generalize hy : d :: u ++ z = y at h
    cases h with
    | nil => cases hy
    | @cons c b s t hb h =>
      have hd : d.utf8Size = 1 := hu.ascii d mem_cons_self
      rcases hb.cases with ⟨hc, rfl⟩ | rfl | rfl | ⟨hne, hb⟩
      · cases hy
        have hu' : Findable u := by
          refine ⟨fun e he => hu.ascii e (mem_cons_of_mem _ he),
            fun hk => hu.kelvin (mem_cons_of_mem _ hk), fun hlast => hu.dotted ?_⟩
          rw [getLast?_cons, hlast]
          rfl
        obtain ⟨w, b, rfl, hw, hb⟩ := ih hu' h
        refine ⟨c :: w, b, rfl, ⟨?_, congrArg (c.toLower :: ·) hw.lower_eq⟩, hb⟩
        exact forall_mem_cons.mpr ⟨hc, hw.ascii⟩
      · -- the dot comes after the letter, but the word ends or goes on in ASCII
        obtain ⟨rfl, htail⟩ := List.cons.inj hy
        cases u with
        | nil => exact absurd rfl hu.dotted
        | cons e u =>
          obtain ⟨rfl, -⟩ := List.cons.inj htail
          exact absurd (hu.ascii _ (mem_cons_of_mem _ mem_cons_self)) (by decide)
      · obtain ⟨rfl, -⟩ := List.cons.inj hy
        exact absurd mem_cons_self hu.kelvin
      · obtain ⟨e, b', rfl⟩ := exists_cons_of_ne_nil hne
        obtain ⟨rfl, -⟩ := List.cons.inj hy
        exact absurd hd (hb d mem_cons_self)

theorem CaseTables.Block.not_ascii (h : T.Block c (a ++ b)) (ha : a ≠ []) :
    ∀ d ∈ b, d.utf8Size ≠ 1 := by
  obtain ⟨e, a, rfl⟩ := exists_cons_of_ne_nil ha
  intro d hd
  rcases h.cases with ⟨-, heq⟩ | heq | heq | ⟨-, hb⟩
  · obtain ⟨-, heq⟩ := List.cons.inj heq
    rw [(append_eq_nil_iff.mp heq).2] at hd
    cases hd
  · obtain ⟨-, heq⟩ := List.cons.inj heq
    have hmem : d ∈ ['\u0307'] := heq ▸ mem_append_right a hd
    rw [mem_singleton.mp hmem]
    decide
  · obtain ⟨-, heq⟩ := List.cons.inj heq
    rw [(append_eq_nil_iff.mp heq).2] at hd
    cases hd
  · exact hb d (mem_append_right _ hd)

/-- **A word that is found in the lower case stands in the text**, up to case. -/
theorem Lowers.find (hu : Findable u) (hne : u ≠ []) (h : Lowers T s (x ++ (u ++ z))) :
    ∃ a w b, s = a ++ (w ++ b) ∧ Lowers T a x ∧ Spells w u ∧ Lowers T b z := by
  generalize hy : x ++ (u ++ z) = y at h
  induction h generalizing x with
  | nil => exact absurd (append_eq_nil_iff.mp (append_eq_nil_iff.mp hy).2).1 hne
  | @cons c b s t hb h ih =>
    rcases append_eq_append_iff.mp hy with ⟨e, rfl, heq⟩ | ⟨x', rfl, rfl⟩
    · -- the word begins in what is written for this letter, so at its beginning
      cases x with
      | nil =>
        obtain ⟨w, b', hs, hw, hb'⟩ := Lowers.find_prefix hu (heq ▸ Lowers.cons hb h)
        exact ⟨[], w, b', hs, .nil, hw, hb'⟩
      | cons d x =>
        cases e with
        | nil =>
          obtain ⟨a, w, b', rfl, ha, hw, hb'⟩ := ih (x := []) heq
          rw [append_nil] at hb
          refine ⟨c :: a, w, b', rfl, ?_, hw, hb'⟩
          have hcons := Lowers.cons hb ha
          rwa [append_nil] at hcons
        | cons e es =>
          obtain ⟨d', u, rfl⟩ := exists_cons_of_ne_nil hne
          obtain ⟨rfl, -⟩ := List.cons.inj heq
          exact absurd (hu.ascii d' mem_cons_self)
            (hb.not_ascii (cons_ne_nil _ _) d' mem_cons_self)
    · obtain ⟨a, w, b', rfl, ha, hw, hb'⟩ := ih rfl
      exact ⟨c :: a, w, b', rfl, .cons hb ha, hw, hb'⟩

/-- A word is in the lower case of a text exactly if it stands in the text, up to case. -/
theorem Lowers.infix_iff (hu : Findable u) (hne : u ≠ []) (h : Lowers T s y) :
    u <:+: y ↔ ∃ a w b, s = a ++ (w ++ b) ∧ Spells w u := by
  refine ⟨?_, ?_⟩
  · rintro ⟨x, z, rfl⟩
    rw [append_assoc] at h
    obtain ⟨a, w, b, hs, -, hw, -⟩ := h.find hu hne
    exact ⟨a, w, b, hs, hw⟩
  · rintro ⟨a, w, b, rfl, hw⟩
    obtain ⟨x, y', rfl, -, h'⟩ := h.of_append
    obtain ⟨y₁, z, rfl, hy₁, -⟩ := h'.of_append
    rw [hw.lowers_eq hy₁]
    exact ⟨x, z, append_assoc ..⟩

/-- ASCII, and the letters that `CaseTables` mentions; all others are left as they are. -/
def CaseTables.excerpt : CaseTables where
  lower c :=
    if c.utf8Size = 1 then [c.toLower]
    else if c = 'Σ' then ['σ']
    else if c = '\u0130' then ['i', '\u0307']
    else if c = '\u212a' then ['k']
    else [c]
  caseIgnorable c := decide (c = '.' ∨ c = ':')
  cased c := c.isAlpha
  lower_ascii c hc := if_pos hc
  lower_sigma := by decide
  lower_dotted := by decide
  lower_kelvin := by decide
  lower_other c h₁ h₂ h₃ := by
    rw [if_neg h₁]
    split
    · exact forall_mem_singleton.mpr (by decide)
    · simpa using h₁
  lower_ne_nil c := by split_ifs <;> simp

end AlloyAgent.RustStr
