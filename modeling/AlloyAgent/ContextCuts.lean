import Mathlib.Data.Nat.Digits.Defs
import AlloyAgent.ContextBudget
import AlloyAgent.LowerCase

/-!
# Where a tool result is cut

Both truncations of the context budget look for a newline between two byte offsets and cut there, or
else at a third offset.

* `breakAtNewline_isSome`: when a text can be cut;
* `Cut`: what is left; `Cut.size_le`: it fits.
-/

namespace AlloyAgent.ContextBudget

open Option RustStr

def NoNewline (s : List Char) (start stop : ℕ) : Prop :=
  ∀ a window b, s = a ++ (window ++ b) → utf8Len a = start → start + utf8Len window = stop →
    '\n' ∉ window

section

variable {s head : List Char} {start stop fallback breakPoint : ℕ} {window : List Char}

theorem noNewline_iff (hwindow : slice? s start stop = some window) :
    NoNewline s start stop ↔ '\n' ∉ window := by
  constructor
  · intro h
    obtain ⟨a, b, hs, ha, hlen⟩ := slice?_eq_some.mp hwindow
    exact h a window b hs ha hlen
  · intro h a window' b hs ha hlen
    have hslice := slice?_eq_some.mpr ⟨a, b, hs, ha, hlen⟩
    rw [hwindow, some.injEq] at hslice
    exact hslice ▸ h

/-- The last newline of a window that starts at `start`, or else the third offset. -/
def newlineOr (start fallback : ℕ) (window : List Char) : ℕ :=
  ((rfind? '\n' window).map fun pos => start + pos).getD fallback

theorem breakAtNewline_eq :
    breakAtNewline s start stop fallback = (slice? s start stop).bind fun window =>
      (takeBytes? (newlineOr start fallback window) s).map fun head =>
        (head, newlineOr start fallback window) := by
  rw [breakAtNewline]
  refine congrArg _ (funext fun window => ?_)
  rw [newlineOr]
  cases rfind? '\n' window with
  | none =>
    simp only [map_none, getD_none]
    cases takeBytes? fallback s <;> rfl
  | some pos =>
    simp only [map_some, getD_some]
    cases takeBytes? (start + pos) s <;> rfl

theorem newlineOr_of_not_mem (h : '\n' ∉ window) : newlineOr start fallback window = fallback := by
  rw [newlineOr, rfind?_eq_none.mpr h]
  rfl

theorem newlineOr_of_mem {window : List Char} (h : '\n' ∈ window) :
    ∃ before after, window = before ++ '\n' :: after ∧
      newlineOr start fallback window = start + utf8Len before := by
  cases hpos : rfind? '\n' window with
  | none => exact absurd h (rfind?_eq_none.mp hpos)
  | some pos =>
    obtain ⟨before, after, hwindow, rfl⟩ := rfind?_eq_some hpos
    exact ⟨before, after, hwindow, by rw [newlineOr, hpos]; rfl⟩

theorem breakAtNewline_eq_some
    (h : breakAtNewline s start stop fallback = some (head, breakPoint)) :
    (∃ rest, s = head ++ rest) ∧ utf8Len head = breakPoint ∧ Boundary s start ∧
      Boundary s stop ∧ (start ≤ breakPoint ∧ breakPoint ≤ stop ∨ breakPoint = fallback) := by
  rw [breakAtNewline_eq] at h
  obtain ⟨window, hwindow, h⟩ := bind_eq_some_iff.mp h
  obtain ⟨head', hhead, h⟩ := map_eq_some_iff.mp h
  cases h
  obtain ⟨rest, hrest, hlen⟩ := takeBytes?_eq_some.mp hhead
  obtain ⟨a, b, hs, ha, hstop⟩ := slice?_eq_some.mp hwindow
  refine ⟨⟨rest, hrest⟩, hlen, ⟨a, window ++ b, hs, ha⟩, ⟨a ++ window, b, ?_, ?_⟩, ?_⟩
  · rw [hs, List.append_assoc]
  · rw [utf8Len_append, ha, hstop]
  · by_cases hmem : '\n' ∈ window
    · obtain ⟨before, after, hbefore, hpoint⟩ := @newlineOr_of_mem start fallback
        window hmem
      rw [hbefore, utf8Len_append] at hstop
      exact .inl ⟨by omega, by omega⟩
    · exact .inr (newlineOr_of_not_mem hmem)

/-- **A cut succeeds** if and only if the offsets that it uses are boundaries. -/
theorem breakAtNewline_isSome (hle : start ≤ stop) :
    (breakAtNewline s start stop fallback).isSome = true ↔
      Boundary s start ∧ Boundary s stop ∧ (NoNewline s start stop → Boundary s fallback) := by
  constructor
  · intro h
    obtain ⟨⟨head, breakPoint⟩, hsome⟩ := isSome_iff_exists.mp h
    obtain ⟨-, -, hstart, hstop, -⟩ := breakAtNewline_eq_some hsome
    refine ⟨hstart, hstop, fun hno => ?_⟩
    rw [breakAtNewline_eq] at hsome
    obtain ⟨window, hwindow, hsome⟩ := bind_eq_some_iff.mp hsome
    rw [newlineOr_of_not_mem ((noNewline_iff hwindow).mp hno)] at hsome
    obtain ⟨head', hhead, -⟩ := map_eq_some_iff.mp hsome
    exact isSome_takeBytes?.mp (isSome_of_eq_some hhead)
  · rintro ⟨hstart, hstop, hfallback⟩
    obtain ⟨window, hwindow⟩ := exists_slice? hle hstart hstop
    obtain ⟨a, b, hs, ha, -⟩ := slice?_eq_some.mp hwindow
    have hpoint : Boundary s (newlineOr start fallback window) := by
      by_cases hmem : '\n' ∈ window
      · obtain ⟨before, after, rfl, hpoint⟩ := @newlineOr_of_mem start fallback
          window hmem
        refine ⟨a ++ before, '\n' :: after ++ b, ?_, by rw [hpoint, utf8Len_append, ha]⟩
        rw [hs]
        simp
      · rw [newlineOr_of_not_mem hmem]
        exact hfallback ((noNewline_iff hwindow).mpr hmem)
    rw [breakAtNewline_eq, hwindow, bind_some, isSome_map]
    exact isSome_takeBytes?.mpr hpoint

end

def truncatedMarker (budget : ContextBudget) (size breakPoint : ℕ) : String :=
  "\n\n[TRUNCATED: result was " ++ toString size ++ " chars, showing first " ++
    toString breakPoint ++ " (budget: 30% of " ++
    toString (budget.contextWindowTokens / 1000) ++ "K context window)]"

/-- The offsets at which a result is cut to `cap` bytes are boundaries. -/
def CapCuttable (content : String) (cap : ℕ) : Prop :=
  Boundary content.toList (cap - 200) ∧ Boundary content.toList cap ∧
    (NoNewline content.toList (cap - 200) cap → Boundary content.toList (cap - 100))

section

variable {content result : String} {budget : ContextBudget}

theorem truncateToolResultDynamic_of_lt (h : budget.perResultCap < content.utf8ByteSize) :
    truncateToolResultDynamic content budget =
      (breakAtNewline content.toList (budget.perResultCap - 200) budget.perResultCap
        (budget.perResultCap - 100)).map fun cut =>
          String.ofList cut.1 ++ truncatedMarker budget content.utf8ByteSize cut.2 := by
  have hmarker (head : List Char) (breakPoint : ℕ) :
      String.ofList head ++ truncatedMarker budget content.utf8ByteSize breakPoint =
        String.ofList head ++ "\n\n[TRUNCATED: result was " ++ toString content.utf8ByteSize ++
          " chars, showing first " ++ toString breakPoint ++ " (budget: 30% of " ++
          toString (budget.contextWindowTokens / 1000) ++ "K context window)]" := by
    unfold truncatedMarker
    simp only [String.append_assoc]
  simp only [hmarker]
  unfold truncateToolResultDynamic
  rw [if_neg (Nat.not_le.mpr h)]
  cases breakAtNewline content.toList (budget.perResultCap - 200) budget.perResultCap
    (budget.perResultCap - 100) <;> rfl

theorem truncateToolResultDynamic_isSome :
    (truncateToolResultDynamic content budget).isSome = true ↔
      (budget.perResultCap < content.utf8ByteSize → CapCuttable content budget.perResultCap) := by
  by_cases hlt : budget.perResultCap < content.utf8ByteSize
  · rw [truncateToolResultDynamic_of_lt hlt, isSome_map,
      breakAtNewline_isSome (Nat.sub_le _ _)]
    exact ⟨fun h _ => h, fun h => h hlt⟩
  · unfold truncateToolResultDynamic
    rw [if_pos (Nat.le_of_not_lt hlt)]
    exact iff_of_true rfl fun h => absurd h hlt

theorem truncateToolResultDynamic_eq_some
    (h : truncateToolResultDynamic content budget = some result) :
    result = content ∨ ∃ head rest, content = head ++ rest ∧
      result = head ++ truncatedMarker budget content.utf8ByteSize head.utf8ByteSize := by
  by_cases hlt : budget.perResultCap < content.utf8ByteSize
  · rw [truncateToolResultDynamic_of_lt hlt] at h
    obtain ⟨⟨head, breakPoint⟩, hcut, rfl⟩ := map_eq_some_iff.mp h
    obtain ⟨⟨rest, hs⟩, rfl, -⟩ := breakAtNewline_eq_some hcut
    refine .inr ⟨String.ofList head, String.ofList rest, ?_, by rw [utf8ByteSize_ofList]⟩
    rw [← String.ofList_append, ← hs, String.ofList_toList]
  · unfold truncateToolResultDynamic at h
    rw [if_pos (Nat.le_of_not_lt hlt)] at h
    exact .inl (some.inj h).symm

end

/-! ## Cutting to a number of bytes -/

def compactedMarker (size breakPoint : ℕ) : String :=
  "\n\n[COMPACTED: " ++ toString size ++ " → " ++ toString breakPoint ++
    " chars by context guard]"

/-- The offsets at which a result is cut to `maxChars` bytes are boundaries. -/
def Cuttable (content : String) (maxChars : ℕ) : Prop :=
  Boundary content.toList (maxChars - 80 - 100) ∧ Boundary content.toList (maxChars - 80)

/-- `short` is `content` cut to `maxChars` bytes: a beginning of it, and the marker. -/
def Cut (maxChars : ℕ) (content short : String) : Prop :=
  ∃ head rest, content = head ++ rest ∧
    short = head ++ compactedMarker content.utf8ByteSize head.utf8ByteSize ∧
    maxChars - 80 - 100 ≤ head.utf8ByteSize ∧ head.utf8ByteSize ≤ maxChars - 80

section

variable {content : String} {maxChars : ℕ}

theorem truncateTo_of_le (h : content.utf8ByteSize ≤ maxChars) :
    truncateTo content maxChars = some content := if_pos h

section

variable (h : maxChars < content.utf8ByteSize)
include h

theorem truncateTo_of_lt :
    truncateTo content maxChars =
      (breakAtNewline content.toList (maxChars - 80 - 100) (maxChars - 80) (maxChars - 80)).map
        fun cut => String.ofList cut.1 ++ compactedMarker content.utf8ByteSize cut.2 := by
  have hmarker (head : List Char) (breakPoint : ℕ) :
      String.ofList head ++ compactedMarker content.utf8ByteSize breakPoint =
        String.ofList head ++ "\n\n[COMPACTED: " ++ toString content.utf8ByteSize ++ " → " ++
          toString breakPoint ++ " chars by context guard]" := by
    unfold compactedMarker
    simp only [String.append_assoc]
  simp only [hmarker]
  unfold truncateTo
  rw [if_neg (Nat.not_le.mpr h)]
  dsimp only
  cases breakAtNewline content.toList (maxChars - 80 - 100) (maxChars - 80) (maxChars - 80) <;>
    rfl

theorem truncateTo_isSome :
    (truncateTo content maxChars).isSome = true ↔ Cuttable content maxChars := by
  rw [truncateTo_of_lt h, isSome_map, breakAtNewline_isSome (Nat.sub_le _ _), Cuttable]
  exact and_congr_right fun _ => and_iff_left_of_imp fun hstop _ => hstop

theorem cut_of_truncateTo (hshort : truncateTo content maxChars = some short) :
    Cut maxChars content short := by
  rw [truncateTo_of_lt h] at hshort
  obtain ⟨⟨head, breakPoint⟩, hcut, rfl⟩ := map_eq_some_iff.mp hshort
  obtain ⟨⟨rest, hs⟩, rfl, -, -, hpoint⟩ := breakAtNewline_eq_some hcut
  refine ⟨String.ofList head, String.ofList rest, ?_, by rw [utf8ByteSize_ofList], ?_⟩
  · rw [← String.ofList_append, ← hs, String.ofList_toList]
  · rw [utf8ByteSize_ofList]
    omega

end

end

/-! ## The length of the marker -/

theorem size_toString_le (hk : 0 < k) (h : n < 10 ^ k) : (toString n).utf8ByteSize ≤ k := by
  have hdigits : ∀ c ∈ Nat.toDigits 10 n, c.utf8Size = 1 := by
    intro c hc
    have hdigit := Nat.isDigit_of_mem_toDigits (by decide) le_rfl hc
    rw [Char.utf8Size_eq_one_iff]
    simp only [Char.isDigit, Bool.and_eq_true, decide_eq_true_eq] at hdigit
    exact UInt32.le_trans hdigit.2 (by decide)
  rw [utf8ByteSize_eq, Nat.toString_eq_ofList_toDigits, String.toList_ofList,
    utf8Len_of_ascii hdigits]
  exact Nat.toDigits_length 10 n k hk h

theorem size_compactedMarker {size breakPoint k l : ℕ} (hk : 0 < k) (hsize : size < 10 ^ k)
    (hl : 0 < l) (hpoint : breakPoint < 10 ^ l) :
    (compactedMarker size breakPoint).utf8ByteSize ≤ 43 + k + l := by
  have hopen : "\n\n[COMPACTED: ".utf8ByteSize = 14 := by decide
  have harrow : " → ".utf8ByteSize = 5 := by decide
  have hclose : " chars by context guard]".utf8ByteSize = 24 := by decide
  have hfirst := size_toString_le hk hsize
  have hsecond := size_toString_le hl hpoint
  unfold compactedMarker
  simp only [String.utf8ByteSize_append, hopen, harrow, hclose]
  omega

/-- **The reserve is enough.** A result that is cut to 2000 bytes has at most 2000 bytes. -/
theorem Cut.size_le (h : Cut compactTarget content short) (hsize : content.utf8ByteSize < 10 ^ 20) :
    short.utf8ByteSize ≤ compactTarget := by
  obtain ⟨head, rest, -, rfl, -, hle⟩ := h
  have hhead : head.utf8ByteSize ≤ 1920 := hle
  have hmarker := @size_compactedMarker content.utf8ByteSize head.utf8ByteSize 20 4 (by decide)
    hsize (by decide) (by omega)
  rw [String.utf8ByteSize_append, compactTarget]
  omega

theorem Cut.size_lt (h : Cut maxChars content short) (hlarge : maxChars < content.utf8ByteSize)
    (hsize : content.utf8ByteSize < 2 ^ 64) : short.utf8ByteSize < 10 ^ 20 := by
  obtain ⟨head, rest, -, rfl, -, hle⟩ := h
  have hmarker := @size_compactedMarker content.utf8ByteSize head.utf8ByteSize 20 20 (by decide)
    (by omega) (by decide) (by omega)
  rw [String.utf8ByteSize_append]
  omega

end AlloyAgent.ContextBudget
