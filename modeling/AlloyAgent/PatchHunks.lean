import AlloyAgent.FirstMatch
import AlloyAgent.Outcome
import AlloyAgent.TextLines

/-!
# Applying hunks

`apply_hunks` of `openfang-runtime/src/apply_patch.rs`. The *anchor* of a hunk, the context before
the change and the old lines, is searched for and replaced by the context and the new lines.

* `applyHunk_eq_ok_iff`: one hunk;
* `hunks_rewrite`: all of them, as a relation between old and new lines.
-/

namespace AlloyAgent

open List

/-- A line of text, without its terminator. -/
abbrev Line := List Char

/-- One contiguous change region of a file. -/
structure Hunk where
  contextBefore : List Line
  oldLines : List Line
  newLines : List Line
  contextAfter : List Line
  deriving DecidableEq

inductive HunkError where
  | notFound (message : String)
  /-- `splice` panics: the range is not within the lines -/
  | outOfRange
  deriving DecidableEq

namespace PatchHunks

open RustStr TextLines

def anchor (hunk : Hunk) : List Line := hunk.contextBefore ++ hunk.oldLines

/-- The search of `find_anchor` and `find_anchor_fuzzy`, which differ in the comparison. -/
def findAnchorBy (same : Line → Line → Bool) (fileLines anchor : List Line) : Option ℕ :=
  if anchor.isEmpty then some fileLines.length else firstMatch same fileLines anchor

/-- Find an exact match for the anchor lines in the file. -/
def findAnchor : List Line → List Line → Option ℕ := findAnchorBy fun line expected =>
  line == expected

/-- Trims trailing whitespace before comparing. -/
def findAnchorFuzzy : List Line → List Line → Option ℕ := findAnchorBy fun line expected =>
  trimEnd line == trimEnd expected

def anchorPos (fileLines : List Line) (hunk : Hunk) : Option ℕ :=
  (findAnchor fileLines (anchor hunk)).or (findAnchorFuzzy fileLines (anchor hunk))

/-- One hunk, the one at index `hunkIdx`. -/
def applyHunk (hunkIdx : ℕ) (lines : List Line) (hunk : Hunk) : Except HunkError (List Line) :=
  if (anchor hunk).isEmpty && hunk.oldLines.isEmpty then .ok (lines ++ hunk.newLines)
  else
    match anchorPos lines hunk with
    | none =>
      .error (.notFound s!"Hunk {hunkIdx + 1} failed: could not find context/old lines in file")
    | some pos =>
      let removeCount := hunk.contextBefore.length + hunk.oldLines.length
      match splice? lines pos (pos + removeCount) (hunk.contextBefore ++ hunk.newLines) with
      | none => .error .outOfRange
      | some lines => .ok lines

def applyFrom (hunkIdx : ℕ) (lines : List Line) : List Hunk → Except HunkError (List Line)
  | [] => .ok lines
  | hunk :: hunks => do
    let lines ← applyHunk hunkIdx lines hunk
    applyFrom (hunkIdx + 1) lines hunks

def joinLines (trailingNewline : Bool) (lines : List Line) : List Char :=
  let result := ['\n'].intercalate lines
  if trailingNewline && result.getLast? != some '\n' then result ++ ['\n'] else result

def endsWithNewline (content : List Char) : Bool := content.getLast? == some '\n'

/-- Apply a sequence of hunks to file content. -/
def applyHunks (content : List Char) (hunks : List Hunk) : Except HunkError (List Char) := do
  let patched ← applyFrom 0 (lines content) hunks
  return joinLines (endsWithNewline content) patched

/-- Two lines that differ in the whitespace at their ends at most. -/
def SameTrimmed (line expected : Line) : Prop := trimEnd line = trimEnd expected

/-- The least place where the anchor stands or else where it stands up to trailing whitespace. -/
def IsTarget (lines anchor : List Line) (pos : ℕ) : Prop :=
  IsLeast {p | OccursAt (· = ·) lines anchor p} pos ∨
    (∀ p, ¬ OccursAt (· = ·) lines anchor p) ∧ IsLeast {p | OccursAt SameTrimmed lines anchor p} pos

def Rewrites (hunk : Hunk) (lines lines' : List Line) : Prop :=
  ∃ before here after, lines = before ++ (here ++ after) ∧
    here.length = (anchor hunk).length ∧ IsTarget lines (anchor hunk) before.length ∧
    lines' = before ++ (hunk.contextBefore ++ hunk.newLines ++ after)

theorem findAnchor_eq_firstMatch {anchor : List Line} (h : anchor ≠ []) (lines : List Line) :
    findAnchor lines anchor = firstMatch (fun line expected => line == expected) lines anchor :=
  if_neg (by simpa using h)

theorem findAnchorFuzzy_eq_firstMatch {anchor : List Line} (h : anchor ≠ []) (lines : List Line) :
    findAnchorFuzzy lines anchor =
      firstMatch (fun line expected => trimEnd line == trimEnd expected) lines anchor :=
  if_neg (by simpa using h)

variable {pos : ℕ} {lines lines' : List Line} {hunk : Hunk}

theorem findAnchor_eq_some_iff {anchor : List Line} (h : anchor ≠ []) :
    findAnchor lines anchor = some pos ↔ IsLeast {p | OccursAt (· = ·) lines anchor p} pos := by
  rw [findAnchor_eq_firstMatch h, firstMatch_eq_some_iff]
  simp only [beq_iff_eq]

theorem findAnchor_eq_none_iff {anchor : List Line} (h : anchor ≠ []) :
    findAnchor lines anchor = none ↔ ∀ p, ¬ OccursAt (· = ·) lines anchor p := by
  rw [findAnchor_eq_firstMatch h, firstMatch_eq_none_iff]
  simp only [beq_iff_eq]

theorem findAnchorFuzzy_eq_some_iff {anchor : List Line} (h : anchor ≠ []) :
    findAnchorFuzzy lines anchor = some pos ↔
      IsLeast {p | OccursAt SameTrimmed lines anchor p} pos := by
  rw [findAnchorFuzzy_eq_firstMatch h, firstMatch_eq_some_iff]
  simp only [beq_iff_eq]
  rfl

theorem findAnchorFuzzy_eq_none_iff {anchor : List Line} (h : anchor ≠ []) :
    findAnchorFuzzy lines anchor = none ↔ ∀ p, ¬ OccursAt SameTrimmed lines anchor p := by
  rw [findAnchorFuzzy_eq_firstMatch h, firstMatch_eq_none_iff]
  simp only [beq_iff_eq]
  rfl

theorem occursAt_sameTrimmed {anchor : List Line} {p : ℕ} (h : OccursAt (· = ·) lines anchor p) :
    OccursAt SameTrimmed lines anchor p :=
  h.imp fun _ _ heq => congrArg trimEnd heq

theorem anchorPos_eq_some_iff (h : anchor hunk ≠ []) :
    anchorPos lines hunk = some pos ↔ IsTarget lines (anchor hunk) pos := by
  rw [anchorPos, IsTarget, ← findAnchor_eq_some_iff h, ← findAnchor_eq_none_iff h,
    ← findAnchorFuzzy_eq_some_iff h, Option.or_eq_some_iff]

theorem anchorPos_eq_none_iff (h : anchor hunk ≠ []) :
    anchorPos lines hunk = none ↔ ∀ p, ¬ OccursAt SameTrimmed lines (anchor hunk) p := by
  rw [anchorPos, Option.or_eq_none_iff, findAnchor_eq_none_iff h, findAnchorFuzzy_eq_none_iff h]
  exact ⟨And.right, fun hno => ⟨fun p hp => hno p (occursAt_sameTrimmed hp), hno⟩⟩

theorem IsTarget.length_le {anchor : List Line} (h : IsTarget lines anchor pos) :
    pos + anchor.length ≤ lines.length := by
  rcases h with h | h
  · exact OccursAt.length_le h.1
  · exact OccursAt.length_le h.2.1

theorem IsTarget.unique {anchor : List Line} {p q : ℕ} (hp : IsTarget lines anchor p)
    (hq : IsTarget lines anchor q) : p = q := by
  rcases hp with hp | ⟨hnone, hp⟩ <;> rcases hq with hq | ⟨hnone', hq⟩
  · exact hp.unique hq
  · exact absurd hp.1 (hnone' p)
  · exact absurd hq.1 (hnone q)
  · exact hp.unique hq

theorem applyHunk_of_target (hne : anchor hunk ≠ []) (h : IsTarget lines (anchor hunk) pos)
    (hunkIdx : ℕ) :
    applyHunk hunkIdx lines hunk = .ok (lines.take pos ++ (hunk.contextBefore ++ hunk.newLines) ++
      lines.drop (pos + (anchor hunk).length)) := by
  have hcount : hunk.contextBefore.length + hunk.oldLines.length = (anchor hunk).length := by
    rw [anchor, length_append]
  have hbounds := h.length_le
  simp only [applyHunk, isEmpty_eq_false_iff.mpr hne, Bool.false_and, Bool.false_eq_true,
    if_false, (anchorPos_eq_some_iff hne).mpr h, hcount, splice?]
  rw [if_pos ⟨by omega, hbounds⟩]

theorem applyHunk_of_no_target (hne : anchor hunk ≠ [])
    (h : ∀ p, ¬ OccursAt SameTrimmed lines (anchor hunk) p) (hunkIdx : ℕ) :
    applyHunk hunkIdx lines hunk = .error (.notFound
      s!"Hunk {hunkIdx + 1} failed: could not find context/old lines in file") := by
  simp only [applyHunk, isEmpty_eq_false_iff.mpr hne, Bool.false_and, Bool.false_eq_true,
    if_false, (anchorPos_eq_none_iff hne).mpr h]

theorem exists_isTarget_iff (hne : anchor hunk ≠ []) :
    (∃ pos, IsTarget lines (anchor hunk) pos) ↔
      ∃ p, OccursAt SameTrimmed lines (anchor hunk) p := by
  simp only [← anchorPos_eq_some_iff hne, ← Option.isSome_iff_exists]
  rw [← Option.ne_none_iff_isSome, ne_eq, anchorPos_eq_none_iff hne]
  exact not_forall_not

theorem rewrites_iff :
    Rewrites hunk lines lines' ↔ ∃ pos, IsTarget lines (anchor hunk) pos ∧
      lines' = lines.take pos ++ (hunk.contextBefore ++ hunk.newLines) ++
        lines.drop (pos + (anchor hunk).length) := by
  refine ⟨?_, ?_⟩
  · rintro ⟨before, here, after, rfl, hlen, htarget, rfl⟩
    refine ⟨before.length, htarget, ?_⟩
    have hdrop :
        (before ++ (here ++ after)).drop (before.length + (anchor hunk).length) = after := by
      rw [← hlen, ← drop_drop, drop_left, drop_left]
    rw [take_left, hdrop, append_assoc before]
  · rintro ⟨pos, htarget, rfl⟩
    have hbounds := htarget.length_le
    refine ⟨lines.take pos, (lines.drop pos).take (anchor hunk).length,
      lines.drop (pos + (anchor hunk).length), ?_, ?_, ?_, ?_⟩
    · rw [← drop_drop, take_append_drop, take_append_drop]
    · rw [length_take, length_drop]
      omega
    · rwa [length_take_of_le (by omega)]
    · rw [append_assoc]

/-- **One hunk**: it is rewritten at its target, and fails with a message if it has none. -/
theorem applyHunk_eq_ok_iff (hne : anchor hunk ≠ []) (hunkIdx : ℕ) :
    applyHunk hunkIdx lines hunk = .ok lines' ↔ Rewrites hunk lines lines' := by
  rw [rewrites_iff]
  by_cases hocc : ∃ p, OccursAt SameTrimmed lines (anchor hunk) p
  · obtain ⟨pos, hpos⟩ := (exists_isTarget_iff hne).mpr hocc
    rw [applyHunk_of_target hne hpos]
    refine ⟨fun h => ⟨pos, hpos, (Except.ok.inj h).symm⟩, ?_⟩
    rintro ⟨q, hq, rfl⟩
    rw [hpos.unique hq]
  · rw [applyHunk_of_no_target hne fun p hp => hocc ⟨p, hp⟩]
    refine ⟨nofun, ?_⟩
    rintro ⟨q, hq, -⟩
    exact absurd ((exists_isTarget_iff hne).mp ⟨q, hq⟩) hocc

theorem applyHunk_eq_error_iff (hne : anchor hunk ≠ []) (hunkIdx : ℕ) (e : HunkError) :
    applyHunk hunkIdx lines hunk = .error e ↔
      (∀ p, ¬ OccursAt SameTrimmed lines (anchor hunk) p) ∧ e = .notFound
        s!"Hunk {hunkIdx + 1} failed: could not find context/old lines in file" := by
  by_cases hocc : ∃ p, OccursAt SameTrimmed lines (anchor hunk) p
  · obtain ⟨pos, hpos⟩ := (exists_isTarget_iff hne).mpr hocc
    obtain ⟨p, hp⟩ := hocc
    rw [applyHunk_of_target hne hpos]
    exact ⟨nofun, fun h => absurd hp (h.1 p)⟩
  · have hno : ∀ p, ¬ OccursAt SameTrimmed lines (anchor hunk) p := fun p hp => hocc ⟨p, hp⟩
    rw [applyHunk_of_no_target hne hno]
    exact ⟨fun h => ⟨hno, (Except.error.inj h).symm⟩, fun h => by rw [h.2]⟩

theorem applyHunk_of_no_anchor (h : anchor hunk = []) (hunkIdx : ℕ) (lines : List Line) :
    applyHunk hunkIdx lines hunk = .ok (lines ++ hunk.newLines) := by
  have hold : hunk.oldLines = [] := (append_eq_nil_iff.mp h).2
  rw [applyHunk, h, hold]
  rfl

theorem applyHunk_of_same (hsame : hunk.newLines = hunk.oldLines) {fileLines : List Line}
    (hocc : ∃ p, OccursAt (· = ·) fileLines (anchor hunk) p) (hunkIdx : ℕ) :
    applyHunk hunkIdx fileLines hunk = .ok fileLines := by
  by_cases hne : anchor hunk = []
  · rw [applyHunk_of_no_anchor hne, hsame, (append_eq_nil_iff.mp hne).2, append_nil]
  · obtain ⟨q, hq⟩ := hocc
    obtain ⟨pos, hpos⟩ := (exists_isTarget_iff hne).mpr ⟨q, occursAt_sameTrimmed hq⟩
    have hexact : OccursAt (· = ·) fileLines (anchor hunk) pos := by
      rcases hpos with hpos | ⟨hnone, -⟩
      · exact hpos.1
      · exact absurd hq (hnone q)
    obtain ⟨before, after, rfl, rfl⟩ := occursAt_eq_iff.mp hexact
    rw [applyHunk_of_target hne hpos, take_left, ← drop_drop, drop_left,
      drop_left, hsame, append_assoc]
    rfl

/-! ## A list of hunks -/

def Applies (hunk : Hunk) (lines lines' : List Line) : Prop :=
  if anchor hunk = [] then lines' = lines ++ hunk.newLines else Rewrites hunk lines lines'

def AppliesAll : List Hunk → List Line → List Line → Prop
  | [], lines, lines' => lines' = lines
  | hunk :: hunks, lines, lines' => ∃ mid, Applies hunk lines mid ∧ AppliesAll hunks mid lines'

theorem applyHunk_eq_ok_iff_applies (hunkIdx : ℕ) :
    applyHunk hunkIdx lines hunk = .ok lines' ↔ Applies hunk lines lines' := by
  rw [Applies]
  split
  · rename_i hnil
    rw [applyHunk_of_no_anchor hnil]
    exact ⟨fun h => (Except.ok.inj h).symm, fun h => by rw [h]⟩
  · rename_i hne
    exact applyHunk_eq_ok_iff hne hunkIdx

variable (hunks : List Hunk)

theorem applyFrom_eq_ok_iff (hunkIdx : ℕ) (lines lines' : List Line) :
    applyFrom hunkIdx lines hunks = .ok lines' ↔ AppliesAll hunks lines lines' := by
  induction hunks generalizing hunkIdx lines with
  | nil => exact ⟨fun h => (Except.ok.inj h).symm, fun h => by rw [h]; rfl⟩
  | cons hunk hunks ih =>
    rw [applyFrom, Outcome.bind_eq_ok, AppliesAll]
    refine exists_congr fun mid => ?_
    rw [applyHunk_eq_ok_iff_applies, ih]

/-- `splice` never panics. -/
theorem applyHunk_in_range (hunkIdx : ℕ) (lines : List Line) (hunk : Hunk) :
    Outcome (· ≠ .outOfRange) (fun _ => True) (applyHunk hunkIdx lines hunk) := by
  by_cases hne : anchor hunk = []
  · rw [applyHunk_of_no_anchor hne]
    exact trivial
  · cases happly : applyHunk hunkIdx lines hunk with
    | ok lines' => exact trivial
    | error e =>
      obtain ⟨-, rfl⟩ := (applyHunk_eq_error_iff hne hunkIdx e).mp happly
      exact nofun

theorem applyFrom_in_range (hunkIdx : ℕ) (lines : List Line) :
    Outcome (· ≠ .outOfRange) (fun _ => True) (applyFrom hunkIdx lines hunks) := by
  induction hunks generalizing hunkIdx lines with
  | nil => exact trivial
  | cons hunk hunks ih =>
    exact (applyHunk_in_range hunkIdx lines hunk).bind fun mid _ => ih (hunkIdx + 1) mid

theorem applyFrom_ne_outOfRange (hunkIdx : ℕ) (lines : List Line) :
    applyFrom hunkIdx lines hunks ≠ .error .outOfRange := by
  intro h
  have hrange := applyFrom_in_range hunks hunkIdx lines
  rw [h] at hrange
  exact hrange rfl

theorem applyFrom_singleton (hunkIdx : ℕ) (lines : List Line) (hunk : Hunk) :
    applyFrom hunkIdx lines [hunk] = applyHunk hunkIdx lines hunk := by
  rw [applyFrom]
  cases applyHunk hunkIdx lines hunk <;> rfl

theorem applyHunks_ne_outOfRange (content : List Char) (hunks : List Hunk) :
    applyHunks content hunks ≠ .error .outOfRange := by
  intro h
  rw [applyHunks] at h
  cases hfrom : applyFrom 0 (lines content) hunks with
  | error e =>
    rw [hfrom] at h
    obtain rfl : e = .outOfRange := Except.error.inj h
    exact applyFrom_ne_outOfRange hunks 0 (lines content) hfrom
  | ok patched =>
    rw [hfrom] at h
    cases h

/-- **Where hunks are applied, and when they fail.** -/
theorem hunks_rewrite (lines : List Line) :
    (∀ hunk : Hunk, anchor hunk ≠ [] →
      ((∃ e, applyFrom 0 lines [hunk] = .error e) ↔
        ∀ p, ¬ OccursAt SameTrimmed lines (anchor hunk) p) ∧
      ∀ lines', applyFrom 0 lines [hunk] = .ok lines' ↔ Rewrites hunk lines lines') ∧
    ∀ hunks : List Hunk, applyFrom 0 lines hunks ≠ .error .outOfRange ∧
      ∀ lines', applyFrom 0 lines hunks = .ok lines' ↔ AppliesAll hunks lines lines' := by
  refine ⟨fun hunk hne => ⟨?_, fun lines' => ?_⟩, fun hunks =>
    ⟨applyFrom_ne_outOfRange hunks 0 lines, applyFrom_eq_ok_iff hunks 0 lines⟩⟩
  · rw [applyFrom_singleton]
    refine ⟨?_, fun hno => ⟨_, applyHunk_of_no_target hne hno 0⟩⟩
    rintro ⟨e, he⟩
    exact ((applyHunk_eq_error_iff hne 0 e).mp he).1
  · rw [applyFrom_singleton]
    exact applyHunk_eq_ok_iff hne 0

theorem hunks_rewrite_exact :
    Rewrites ⟨[], [['a']], [['b']], []⟩ [['a', ' '], ['a']] [['a', ' '], ['b']] :=
  (((hunks_rewrite [['a', ' '], ['a']]).1 ⟨[], [['a']], [['b']], []⟩ (by decide)).2 _).mp
    (by decide)

end PatchHunks

end AlloyAgent
