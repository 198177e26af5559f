import AlloyAgent.TextLines

/-!
# Glob patterns of the tool policy

`openfang-runtime/src/tool_policy.rs`: in a pattern, `*` stands for any text. The function that
tests a name cuts the pattern at its stars.

* `Matches`: what a pattern means; `globMatch_spec`: the function decides it.
-/

namespace AlloyAgent.ToolPolicy

open List RustStr

/-- The parts behind the first star, matched in `text[pos..]`; `none` is a slice that panics. -/
def matchParts (text : List Char) : ℕ → List (List Char) → Option Bool
  | _, [] => some true
  | pos, part :: parts =>
    if part.isEmpty then matchParts text pos parts
    else do
      let rest ← dropBytes? pos text
      if parts.isEmpty then return part.isSuffixOf rest
      match splitOnce? part rest with
      | some (before, _) => matchParts text (pos + utf8Len before + utf8Len part) parts
      | none => return false

/-- Glob matching with `*` as wildcard. -/
def globMatch (pattern text : List Char) : Option Bool :=
  if pattern = ['*'] then some true
  else if '*' ∉ pattern then some (pattern = text)
  else
    match pattern.splitOn '*' with
    | [] => some true
    | [first, last] =>
      some (first.isPrefixOf text && last.isSuffixOf text &&
        decide (utf8Len first + utf8Len last ≤ utf8Len text))
    | first :: parts =>
      if first.isEmpty then matchParts text 0 parts
      else if first.isPrefixOf text then matchParts text (utf8Len first) parts
      else some false

/-- The text is the pattern with some text in the place of each star. -/
def Matches : List Char → List Char → Prop
  | [], text => text = []
  | c :: pattern, text =>
    if c = '*' then ∃ gap rest, text = gap ++ rest ∧ Matches pattern rest
    else ∃ rest, text = c :: rest ∧ Matches pattern rest

/-- The parts stand in the text one after another, the last one at the end. -/
def Follow : List (List Char) → List Char → Prop
  | [], text => text = []
  | part :: parts, text => ∃ gap rest, text = gap ++ (part ++ rest) ∧ Follow parts rest

theorem Follow.prepend (hne : parts ≠ []) (h : Follow parts text) (front : List Char) :
    Follow parts (front ++ text) := by
  cases parts with
  | nil => exact absurd rfl hne
  | cons part parts =>
    obtain ⟨gap, rest, rfl, hrest⟩ := h
    exact ⟨front ++ gap, rest, (append_assoc ..).symm, hrest⟩

theorem follow_singleton : Follow [part] text ↔ part <:+ text := by
  constructor
  · rintro ⟨gap, rest, rfl, rfl⟩
    exact ⟨gap, by rw [append_nil]⟩
  · rintro ⟨gap, rfl⟩
    exact ⟨gap, [], by rw [append_nil], rfl⟩

/-- Cutting the pattern at its stars. -/
theorem matches_iff (h : pattern.splitOn '*' = first :: parts) :
    Matches pattern text ↔ ∃ rest, text = first ++ rest ∧ Follow parts rest := by
  induction pattern generalizing first parts text with
  | nil =>
    cases h
    simp [Matches, Follow]
  | cons c pattern ih =>
    obtain ⟨first', parts', h'⟩ := exists_cons_of_ne_nil (splitOn_ne_nil '*' pattern)
    rw [splitOn_cons_eq_if_modifyHead, h'] at h
    rw [Matches]
    by_cases hc : c = '*'
    · rw [if_pos (beq_iff_eq.mpr hc)] at h
      cases h
      rw [if_pos hc]
      constructor
      · rintro ⟨gap, _, rfl, hmatches⟩
        obtain ⟨rest, rfl, hrest⟩ := (ih h').mp hmatches
        exact ⟨_, rfl, gap, rest, rfl, hrest⟩
      · rintro ⟨_, rfl, gap, rest, rfl, hrest⟩
        exact ⟨gap, _, rfl, (ih h').mpr ⟨rest, rfl, hrest⟩⟩
    · rw [if_neg (by simpa using hc), modifyHead_cons] at h
      cases h
      rw [if_neg hc]
      constructor
      · rintro ⟨_, rfl, hmatches⟩
        obtain ⟨rest, rfl, hrest⟩ := (ih h').mp hmatches
        exact ⟨rest, rfl, hrest⟩
      · rintro ⟨rest, rfl, hrest⟩
        exact ⟨_, rfl, (ih h').mpr ⟨rest, rfl, hrest⟩⟩

/-- The first place leaves the most behind it. -/
theorem splitOnce?_first {before after : List Char}
    (h : splitOnce? pat s = some (before, after)) (hs : s = gap ++ (pat ++ rest)) :
    rest <:+ after := by
  induction s generalizing gap before with
  | nil => cases h
  | cons c s ih =>
    rw [splitOnce?] at h
    split at h
    · cases h
      refine suffix_of_suffix_length_le ⟨gap ++ pat, by rw [hs, append_assoc]⟩ (drop_suffix _ _) ?_
      rw [hs, length_drop, length_append, length_append]
      omega
    · rename_i hno
      obtain ⟨⟨before', after'⟩, hsplit, heq⟩ := Option.map_eq_some_iff.mp h
      cases heq
      cases gap with
      | nil => exact absurd (List.isPrefixOf_iff_prefix.mpr (hs ▸ prefix_append pat rest)) hno
      | cons d gap => exact ih hsplit (List.cons.inj hs).2

theorem matchParts_spec (hne : parts ≠ []) (front rest : List Char) :
    ∃ b, matchParts (front ++ rest) (utf8Len front) parts = some b ∧
      (b = true ↔ Follow parts rest) := by
  induction parts generalizing front rest with
  | nil => exact absurd rfl hne
  | cons part parts ih =>
    by_cases hpart : part = []
    · rw [hpart, matchParts, if_pos isEmpty_nil]
      cases parts with
      | nil => exact ⟨true, rfl, iff_of_true rfl (follow_singleton.mpr nil_suffix)⟩
      | cons next parts =>
        obtain ⟨b, hb, hiff⟩ := ih (cons_ne_nil _ _) front rest
        refine ⟨b, hb, hiff.trans ⟨fun h => ⟨[], rest, rfl, h⟩, ?_⟩⟩
        rintro ⟨gap, rest, rfl, hrest⟩
        exact hrest.prepend (cons_ne_nil _ _) gap
    · rw [matchParts, if_neg (mt List.isEmpty_iff.mp hpart), dropBytes?_append]
      cases parts with
      | nil => exact ⟨_, rfl, isSuffixOf_iff_suffix.trans follow_singleton.symm⟩
      | cons next parts =>
        simp only [Option.bind_eq_bind, Option.bind_some, isEmpty_cons, Bool.false_eq_true,
          if_false]
        cases hsplit : splitOnce? part rest with
        | none =>
          refine ⟨false, rfl, iff_of_false nofun ?_⟩
          rintro ⟨gap, rest, rfl, -⟩
          exact (splitOnce?_eq_none_iff hpart).mp hsplit ⟨gap, rest, append_assoc ..⟩
        | some cut =>
          obtain ⟨before, after⟩ := cut
          have hrest := (splitOnce?_eq_some hpart hsplit).1
          obtain ⟨b, hb, hiff⟩ := ih (cons_ne_nil _ _) (front ++ before ++ part) after
          refine ⟨b, ?_, hiff.trans ⟨fun h => ⟨before, after, hrest, h⟩, ?_⟩⟩
          · rw [← hb, hrest]
            simp only [utf8Len_append, append_assoc, Nat.add_assoc]
          · rintro ⟨gap, rest', heq, hrest'⟩
            obtain ⟨front', rfl⟩ := splitOnce?_first hsplit heq
            exact hrest'.prepend (cons_ne_nil _ _) front'

/-- A pattern with one star. -/
theorem prefix_suffix_iff :
    (first.isPrefixOf text && last.isSuffixOf text &&
        decide (utf8Len first + utf8Len last ≤ utf8Len text)) = true ↔
      ∃ rest, text = first ++ rest ∧ Follow [last] rest := by
  simp only [Bool.and_eq_true, isPrefixOf_iff_prefix, isSuffixOf_iff_suffix, decide_eq_true_eq,
    follow_singleton]
  constructor
  · rintro ⟨⟨⟨rest, rfl⟩, hlast⟩, hlen⟩
    refine ⟨rest, rfl, ?_⟩
    rcases suffix_or_suffix_of_suffix hlast (suffix_append first rest) with hrest | ⟨more, rfl⟩
    · exact hrest
    · simp only [utf8Len_append] at hlen
      obtain rfl := utf8Len_eq_zero.mp (show utf8Len more = 0 by omega)
      exact suffix_refl rest
  · rintro ⟨rest, rfl, gap, rfl⟩
    refine ⟨⟨prefix_append _ _, ⟨first ++ gap, append_assoc ..⟩⟩, ?_⟩
    simp only [utf8Len_append]
    omega

theorem splitOn_eq_singleton_iff {pattern first : List Char} :
    pattern.splitOn '*' = [first] ↔ '*' ∉ pattern ∧ first = pattern := by
  constructor
  · intro h
    have hfirst : ['*'].intercalate (pattern.splitOn '*') = pattern := intercalate_splitOn '*'
    rw [h, intercalate_singleton] at hfirst
    have hmem : first ∈ pattern.splitOn '*' := h ▸ mem_singleton_self first
    exact ⟨hfirst ▸ (TextLines.of_mem_splitOn hmem).1, hfirst⟩
  · rintro ⟨hno, rfl⟩
    have hsplit := splitOn_intercalate '*' (forall_mem_singleton.mpr hno) (cons_ne_nil first [])
    rwa [intercalate_singleton] at hsplit

/-- **Glob matching is what it says**, and it never slices out of range. -/
theorem globMatch_spec (pattern text : List Char) :
    ∃ b, globMatch pattern text = some b ∧ (b = true ↔ Matches pattern text) := by
  obtain ⟨first, parts, hsplit⟩ := exists_cons_of_ne_nil (splitOn_ne_nil '*' pattern)
  rw [matches_iff hsplit, globMatch]
  split_ifs with hall hno
  · cases hall
    cases hsplit
    exact ⟨true, rfl, iff_of_true rfl ⟨text, rfl, follow_singleton.mpr nil_suffix⟩⟩
  · rw [hsplit]
    match parts with
    | [] => exact absurd hno (splitOn_eq_singleton_iff.mp hsplit).1
    | [last] => exact ⟨_, rfl, prefix_suffix_iff⟩
    | part :: next :: parts =>
      dsimp only
      by_cases hfirst : first <+: text
      · obtain ⟨rest, rfl⟩ := hfirst
        obtain ⟨b, hb, hiff⟩ := matchParts_spec (cons_ne_nil part (next :: parts)) first rest
        refine ⟨b, ?_, hiff.trans ⟨fun h => ⟨rest, rfl, h⟩, ?_⟩⟩
        · rw [if_pos (List.isPrefixOf_iff_prefix.mpr (prefix_append _ _)), ← hb]
          split_ifs with hempty
          · rw [List.isEmpty_iff.mp hempty, utf8Len_nil]
          · rfl
        · rintro ⟨rest', heq, hrest'⟩
          rwa [append_cancel_left heq]
      · have hne : first ≠ [] := fun hnil => hfirst (hnil ▸ nil_prefix)
        rw [if_neg (mt List.isEmpty_iff.mp hne), if_neg (mt isPrefixOf_iff_prefix.mp hfirst)]
        exact ⟨false, rfl, iff_of_false nofun fun ⟨rest, heq, _⟩ => hfirst ⟨rest, heq.symm⟩⟩
  · cases hsplit.symm.trans (splitOn_eq_singleton_iff.mpr ⟨hno, rfl⟩)
    exact ⟨_, rfl, by simp [Follow, eq_comm]⟩

end AlloyAgent.ToolPolicy
