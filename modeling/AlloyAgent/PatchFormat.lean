import AlloyAgent.PatchHunks

/-!
# The patch format

`parse_patch` of `openfang-runtime/src/apply_patch.rs` reads a patch line by line.

* `parsePatch`: the parser;
* `hunk_foldl_read`, `countP_of_parseBody`: what it makes of the body of a hunk.
-/

namespace AlloyAgent

open List

/-- A single operation in a patch. -/
inductive PatchOp where
  | addFile (path content : List Char)
  | updateFile (path : List Char) (moveTo : Option (List Char)) (hunks : List Hunk)
  | deleteFile (path : List Char)
  deriving DecidableEq

namespace PatchFormat

open RustStr TextLines

/-- The line starts an operation or ends the patch. -/
def isMarker (l : Line) : Bool := "***".toList.isPrefixOf (trim l)

def isHunkHead (l : Line) : Bool := "@@".toList.isPrefixOf (trim l)

structure HunkReader where
  hunk : Hunk
  inChange : Bool
  pastChange : Bool
  deriving DecidableEq

namespace HunkReader

def start : HunkReader := ⟨⟨[], [], [], []⟩, false, false⟩

/-- A context line comes before the change, or after it. -/
def context (st : HunkReader) (l : Line) : HunkReader :=
  if st.inChange || st.pastChange then
    ⟨{ st.hunk with contextAfter := st.hunk.contextAfter ++ [l] }, false, true⟩
  else ⟨{ st.hunk with contextBefore := st.hunk.contextBefore ++ [l] }, st.inChange, st.pastChange⟩

def read (st : HunkReader) (hl : Line) : HunkReader :=
  match stripPrefix? ['-'] hl with
  | some stripped => ⟨{ st.hunk with oldLines := st.hunk.oldLines ++ [stripped] }, true, false⟩
  | none =>
    match stripPrefix? ['+'] hl with
    | some stripped => ⟨{ st.hunk with newLines := st.hunk.newLines ++ [stripped] }, true, false⟩
    | none =>
      match stripPrefix? [' '] hl with
      | some stripped => st.context stripped
      | none =>
        -- a blank line counts as context, and so does an unrecognized one
        if (trim hl).isEmpty then st.context [] else st.context hl

end HunkReader

/-- The hunks up to the next marker; `cur` is the hunk that the inner loop of the source reads. -/
def readHunks (cur : Option HunkReader) : List Line → List Hunk
  | [] => cur.toList.map (·.hunk)
  | l :: rest =>
    if isHunkHead l then cur.toList.map (·.hunk) ++ readHunks (some .start) rest
    else readHunks (cur.map (·.read l)) rest

/-- The content lines of an added file, up to the next marker. -/
def addContent : List Line → Except String (List Line)
  | [] => .ok []
  | l :: rest =>
    match stripPrefix? ['+'] l with
    | some stripped => do
      let contentLines ← addContent rest
      return stripped :: contentLines
    | none =>
      if (trim l).isEmpty then addContent rest
      else .error s!"Expected '+' prefix in Add File content, got: {String.ofList l}"

/-! ## Reading operations -/

/-- What a trimmed line between two operations can be. -/
inductive Header where
  | add (path : List Char)
  | update (rest : List Char)
  | delete (path : List Char)
  | blank
  | unexpected
  deriving DecidableEq

def readHeader (line : Line) : Header :=
  match stripPrefix? "*** Add File:".toList line with
  | some path => .add (trim path)
  | none =>
    match stripPrefix? "*** Update File:".toList line with
    | some rest => .update (trim rest)
    | none =>
      match stripPrefix? "*** Delete File:".toList line with
      | some path => .delete (trim path)
      | none => if line.isEmpty then .blank else .unexpected

/-- Check for move syntax: `old_path -> new_path`. -/
def splitMove (rest : List Char) : List Char × Option (List Char) :=
  match splitOnce? ['-', '>'] rest with
  | some (old, new) => (trim old, some (trim new))
  | none => (rest, none)

/-- The loop over the lines of the patch; `skip` counts those that an operation has consumed. -/
def parseBody : ℕ → List Line → Except String (List PatchOp)
  | _, [] => .ok []
  | skip + 1, _ :: rest => parseBody skip rest
  | 0, l :: rest =>
    let part := rest.takeWhile fun l => !isMarker l
    match readHeader (trim l) with
    | .add path =>
      if path.isEmpty then .error "Empty path in '*** Add File:'"
      else do
        let contentLines ← addContent part
        let ops ← parseBody part.length rest
        return .addFile path (['\n'].intercalate contentLines) :: ops
    | .update spec =>
      let (path, moveTo) := splitMove spec
      let hunks := readHunks none part
      if path.isEmpty then .error "Empty path in '*** Update File:'"
      else if hunks.isEmpty then .error s!"Update File '{String.ofList path}' has no hunks"
      else do
        let ops ← parseBody part.length rest
        return .updateFile path moveTo hunks :: ops
    | .delete path =>
      if path.isEmpty then .error "Empty path in '*** Delete File:'"
      else do
        let ops ← parseBody 0 rest
        return .deleteFile path :: ops
    | .blank => parseBody 0 rest
    | .unexpected => .error s!"Unexpected line in patch: {String.ofList (trim l)}"

/-- `rposition`. -/
def lastIdx? (p : Line → Bool) (ls : List Line) : Option ℕ :=
  (ls.reverse.findIdx? p).map (ls.length - 1 - ·)

def parseLines (ls : List Line) : Except String (List PatchOp) :=
  match ls.findIdx? fun l => trim l == "*** Begin Patch".toList with
  | none => .error "Missing '*** Begin Patch' marker"
  | some first =>
    match lastIdx? (fun l => trim l == "*** End Patch".toList) ls with
    | none => .error "Missing '*** End Patch' marker"
    | some last =>
      if last ≤ first then .error "'*** End Patch' must come after '*** Begin Patch'"
      else do
        let ops ← parseBody 0 ((ls.take last).drop (first + 1))
        if ops.isEmpty then .error "Patch contains no operations" else .ok ops

/-- Parse a patch string into operations. -/
def parsePatch (input : List Char) : Except String (List PatchOp) := parseLines (lines input)

/-! ## Lines that start something -/

/-- A line that begins with another character does not start a hunk, nor an operation. -/
theorem isMarker_cons (hc : isWhitespace c = false) (hne : c ≠ '*') (l : Line) :
    isMarker (c :: l) = false := by
  rw [isMarker, trim_cons_of_not hc]
  simp [List.isPrefixOf, Ne.symm hne]

theorem isHunkHead_cons (hc : isWhitespace c = false) (hne : c ≠ '@') (l : Line) :
    isHunkHead (c :: l) = false := by
  rw [isHunkHead, trim_cons_of_not hc]
  simp [List.isPrefixOf, Ne.symm hne]

@[simp] theorem isMarker_context (l : Line) : isMarker (' ' :: l) = isMarker l := by
  rw [isMarker, trim_cons_of_whitespace (by decide), isMarker]

@[simp] theorem isHunkHead_context (l : Line) : isHunkHead (' ' :: l) = isHunkHead l := by
  rw [isHunkHead, trim_cons_of_whitespace (by decide), isHunkHead]

@[simp] theorem isMarker_added (l : Line) : isMarker ('+' :: l) = false :=
  isMarker_cons (by decide) (by decide) l

@[simp] theorem isHunkHead_added (l : Line) : isHunkHead ('+' :: l) = false :=
  isHunkHead_cons (by decide) (by decide) l

@[simp] theorem isMarker_removed (l : Line) : isMarker ('-' :: l) = false :=
  isMarker_cons (by decide) (by decide) l

@[simp] theorem isHunkHead_removed (l : Line) : isHunkHead ('-' :: l) = false :=
  isHunkHead_cons (by decide) (by decide) l

@[simp] theorem isHunkHead_head : isHunkHead "@@".toList = true := by decide

@[simp] theorem isMarker_head : isMarker "@@".toList = false := by decide

variable {l : Line}

theorem isHunkHead_of_isMarker (h : isMarker l = true) : isHunkHead l = false := by
  obtain ⟨t, ht⟩ := isPrefixOf_iff_prefix.mp h
  rw [isHunkHead, ← ht]
  rfl

variable {body : List Line}

theorem readHunks_append (h : ∀ l ∈ body, isHunkHead l = false) (st : HunkReader)
    (rest : List Line) :
    readHunks (some st) (body ++ rest) = readHunks (some (body.foldl HunkReader.read st)) rest := by
  induction body generalizing st with
  | nil => rfl
  | cons l body ih =>
    rw [forall_mem_cons] at h
    rw [cons_append, readHunks, if_neg (by simp [h.1])]
    exact ih h.2 (st.read l)

theorem length_readHunks (ls : List Line) (cur : Option HunkReader) :
    (readHunks cur ls).length = cur.toList.length + ls.countP isHunkHead := by
  induction ls generalizing cur with
  | nil => simp [readHunks]
  | cons l ls ih =>
    rw [readHunks, countP_cons]
    split
    · rw [length_append, length_map, ih, Option.toList_some, length_singleton]
      omega
    · rw [ih]
      cases cur <;> rfl

namespace HunkReader

variable (st : HunkReader)

@[simp] theorem read_removed (l : Line) : st.read ('-' :: l) =
    ⟨{ st.hunk with oldLines := st.hunk.oldLines ++ [l] }, true, false⟩ := rfl

@[simp] theorem read_added (l : Line) : st.read ('+' :: l) =
    ⟨{ st.hunk with newLines := st.hunk.newLines ++ [l] }, true, false⟩ := rfl

@[simp] theorem read_context (l : Line) : st.read (' ' :: l) = st.context l := rfl

end HunkReader

/-! ### The body of a hunk -/

inductive BodyLine where
  | context (l : Line)
  | removed (l : Line)
  | added (l : Line)
  deriving DecidableEq

namespace BodyLine

/-- The line with the character that tells what it is. -/
def print : BodyLine → Line
  | context l => ' ' :: l
  | removed l => '-' :: l
  | added l => '+' :: l

def context? : BodyLine → Option Line
  | context l => some l
  | _ => none

def removed? : BodyLine → Option Line
  | removed l => some l
  | _ => none

def added? : BodyLine → Option Line
  | added l => some l
  | _ => none

def isContext (b : BodyLine) : Bool := b.context?.isSome

end BodyLine

/-- The hunk that is read from a body; context after the first change is told apart. -/
def hunkOf (body : List BodyLine) : Hunk :=
  ⟨(body.takeWhile (·.isContext)).filterMap (·.context?), body.filterMap (·.removed?),
    body.filterMap (·.added?), (body.dropWhile (·.isContext)).filterMap (·.context?)⟩

theorem hunk_foldl_read_changed (body : List BodyLine) :
    ∀ st : HunkReader, (st.inChange || st.pastChange) = true →
      ((body.map BodyLine.print).foldl HunkReader.read st).hunk =
        ⟨st.hunk.contextBefore, st.hunk.oldLines ++ body.filterMap (·.removed?),
          st.hunk.newLines ++ body.filterMap (·.added?),
          st.hunk.contextAfter ++ body.filterMap (·.context?)⟩ := by
  induction body with
  | nil => intro st _; simp
  | cons b body ih =>
    intro st hst
    rw [map_cons, foldl_cons]
    cases b with
    | context l =>
      rw [BodyLine.print, HunkReader.read_context, HunkReader.context, if_pos hst, ih _ rfl]
      simp [BodyLine.context?, BodyLine.removed?, BodyLine.added?]
    | removed l =>
      rw [BodyLine.print, HunkReader.read_removed, ih _ rfl]
      simp [BodyLine.context?, BodyLine.removed?, BodyLine.added?]
    | added l =>
      rw [BodyLine.print, HunkReader.read_added, ih _ rfl]
      simp [BodyLine.context?, BodyLine.removed?, BodyLine.added?]

/-- **What is read from a body.** -/
theorem hunk_foldl_read (body : List BodyLine) :
    ((body.map BodyLine.print).foldl HunkReader.read .start).hunk = hunkOf body := by
  have hgo : ∀ (body : List BodyLine) (before : List Line),
      ((body.map BodyLine.print).foldl HunkReader.read ⟨⟨before, [], [], []⟩, false, false⟩).hunk =
        { hunkOf body with contextBefore := before ++ (hunkOf body).contextBefore } := by
    intro body
    induction body with
    | nil => intro before; simp [hunkOf]
    | cons b body ih =>
      intro before
      rw [map_cons, foldl_cons]
      cases b with
      | context l =>
        rw [BodyLine.print, HunkReader.read_context, HunkReader.context, if_neg (by simp), ih]
        simp [hunkOf, BodyLine.isContext, BodyLine.context?, BodyLine.removed?, BodyLine.added?]
      | removed l =>
        rw [BodyLine.print, HunkReader.read_removed, hunk_foldl_read_changed _ _ rfl]
        simp [hunkOf, BodyLine.isContext, BodyLine.context?, BodyLine.removed?, BodyLine.added?]
      | added l =>
        rw [BodyLine.print, HunkReader.read_added, hunk_foldl_read_changed _ _ rfl]
        simp [hunkOf, BodyLine.isContext, BodyLine.context?, BodyLine.removed?, BodyLine.added?]
  exact hgo body []

/-- A context line that cannot be taken for the start of something. -/
def PlainContext (l : Line) : Prop := isMarker l = false ∧ isHunkHead l = false

instance decidablePlainContext (l : Line) : Decidable (PlainContext l) :=
  inferInstanceAs (Decidable (_ ∧ _))

theorem isHunkHead_print {b : BodyLine} (h : ∀ l ∈ b.context?, PlainContext l) :
    isHunkHead b.print = false := by
  cases b with
  | context l => exact (isHunkHead_context l).trans (h l rfl).2
  | removed l => exact isHunkHead_removed l
  | added l => exact isHunkHead_added l

theorem isMarker_print {b : BodyLine} (h : ∀ l ∈ b.context?, PlainContext l) :
    isMarker b.print = false := by
  cases b with
  | context l => exact (isMarker_context l).trans (h l rfl).1
  | removed l => exact isMarker_removed l
  | added l => exact isMarker_added l

/-! ## Reading operations -/

theorem addContent_map (ls : List Line) : addContent (ls.map ('+' :: ·)) = .ok ls := by
  induction ls with
  | nil => rfl
  | cons l ls ih =>
    rw [map_cons, addContent, show stripPrefix? ['+'] ('+' :: l) = some l from rfl, ih]
    rfl

theorem parseBody_skip (skip : ℕ) (ls : List Line) :
    parseBody skip ls = parseBody 0 (ls.drop skip) :=
  skip_eq_drop (fun n => by cases n <;> rfl) (fun n l ls => by rw [parseBody]) skip ls

theorem parseBody_takeWhile (p : Line → Bool) (ls : List Line) :
    parseBody (ls.takeWhile p).length ls = parseBody 0 (ls.dropWhile p) := by
  have hdrop : ls.drop (ls.takeWhile p).length = ls.dropWhile p :=
    calc ls.drop (ls.takeWhile p).length
        = (ls.takeWhile p ++ ls.dropWhile p).drop (ls.takeWhile p).length := by
          rw [takeWhile_append_dropWhile]
      _ = ls.dropWhile p := drop_left
  rw [parseBody_skip, hdrop]

variable {ops : List PatchOp}

theorem parseBody_cons_eq_ok (h : parseBody 0 (l :: rest) = .ok ops) :
    (∃ path contentLines ops', readHeader (trim l) = .add path ∧
      addContent (rest.takeWhile fun l => !isMarker l) = .ok contentLines ∧
      parseBody 0 (rest.dropWhile fun l => !isMarker l) = .ok ops' ∧
      ops = .addFile path (['\n'].intercalate contentLines) :: ops') ∨
    (∃ spec ops', readHeader (trim l) = .update spec ∧
      parseBody 0 (rest.dropWhile fun l => !isMarker l) = .ok ops' ∧
      ops = .updateFile (splitMove spec).1 (splitMove spec).2
        (readHunks none (rest.takeWhile fun l => !isMarker l)) :: ops') ∨
    (∃ path ops', readHeader (trim l) = .delete path ∧ parseBody 0 rest = .ok ops' ∧
      ops = .deleteFile path :: ops') ∨
    readHeader (trim l) = .blank ∧ parseBody 0 rest = .ok ops := by
  rw [parseBody] at h
  cases hheader : readHeader (trim l) with
  | add path =>
    simp only [hheader] at h
    split at h
    · cases h
    · obtain ⟨contentLines, hcontent, h⟩ := Outcome.bind_eq_ok.mp h
      obtain ⟨ops', hops', h⟩ := Outcome.bind_eq_ok.mp h
      rw [parseBody_takeWhile] at hops'
      exact .inl ⟨path, contentLines, ops', rfl, hcontent, hops', (Except.ok.inj h).symm⟩
  | update spec =>
    simp only [hheader] at h
    split at h
    · cases h
    · split at h
      · cases h
      · obtain ⟨ops', hops', h⟩ := Outcome.bind_eq_ok.mp h
        rw [parseBody_takeWhile] at hops'
        exact .inr (.inl ⟨spec, ops', rfl, hops', (Except.ok.inj h).symm⟩)
  | delete path =>
    simp only [hheader] at h
    split at h
    · cases h
    · obtain ⟨ops', hops', h⟩ := Outcome.bind_eq_ok.mp h
      exact .inr (.inr (.inl ⟨path, ops', rfl, hops', (Except.ok.inj h).symm⟩))
  | blank =>
    simp only [hheader] at h
    exact .inr (.inr (.inr ⟨rfl, h⟩))
  | unexpected =>
    simp only [hheader] at h
    cases h

def hunksOf : PatchOp → List Hunk
  | .updateFile _ _ hunks => hunks
  | _ => []

@[simp] theorem hunksOf_addFile (path content : List Char) : hunksOf (.addFile path content) = [] :=
  rfl

@[simp] theorem hunksOf_updateFile (path : List Char) (moveTo : Option (List Char))
    (hunks : List Hunk) : hunksOf (.updateFile path moveTo hunks) = hunks := rfl

@[simp] theorem hunksOf_deleteFile (path : List Char) : hunksOf (.deleteFile path) = [] := rfl

theorem isMarker_of_stripPrefix? (pat : List Char)
    (h : stripPrefix? ("***".toList ++ pat) (trim l) = some rest) : isMarker l = true := by
  rw [isMarker, stripPrefix?_eq_some.mp h, isPrefixOf_iff_prefix, append_assoc]
  exact prefix_append _ _

theorem isMarker_of_readHeader :
    (readHeader (trim l) = .blank → isMarker l = false ∧ isHunkHead l = false) ∧
    (∀ path, readHeader (trim l) = .add path → isMarker l = true) ∧
    (∀ spec, readHeader (trim l) = .update spec → isMarker l = true) ∧
    ∀ path, readHeader (trim l) = .delete path → isMarker l = true := by
  rw [readHeader]
  cases hadd : stripPrefix? "*** Add File:".toList (trim l) with
  | some path =>
    have := isMarker_of_stripPrefix? " Add File:".toList hadd
    simp [this]
  | none =>
    cases hupd : stripPrefix? "*** Update File:".toList (trim l) with
    | some path =>
      have := isMarker_of_stripPrefix? " Update File:".toList hupd
      simp [this]
    | none =>
      cases hdel : stripPrefix? "*** Delete File:".toList (trim l) with
      | some path =>
        have := isMarker_of_stripPrefix? " Delete File:".toList hdel
        simp [this]
      | none =>
        by_cases hnil : trim l = []
        · simp [isMarker, isHunkHead, hnil]
        · simp [hnil]

variable {ls : List Line}

theorem isHunkHead_of_addContent (h : addContent ls = .ok contentLines) :
    ∀ l ∈ ls, isHunkHead l = false := by
  induction ls generalizing contentLines with
  | nil => simp
  | cons l ls ih =>
    rw [addContent] at h
    rw [forall_mem_cons]
    cases hplus : stripPrefix? ['+'] l with
    | some stripped =>
      simp only [hplus] at h
      obtain ⟨contentLines', hrest, -⟩ := Outcome.bind_eq_ok.mp h
      rw [stripPrefix?_eq_some.mp hplus]
      exact ⟨isHunkHead_added stripped, ih hrest⟩
    | none =>
      simp only [hplus] at h
      split at h
      · rename_i hblank
        exact ⟨by simp [isHunkHead, isEmpty_iff.mp hblank], ih h⟩
      · cases h

theorem countP_takeWhile_dropWhile (p q : Line → Bool) (ls : List Line) :
    ls.countP q = (ls.takeWhile p).countP q + (ls.dropWhile p).countP q := by
  rw [← countP_append, takeWhile_append_dropWhile]

theorem countP_isMarker_takeWhile (ls : List Line) :
    (ls.takeWhile fun l => !isMarker l).countP isMarker = 0 := by
  rw [countP_eq_zero]
  intro l hl
  simpa using mem_takeWhile_imp hl

/-- **Every marker is an operation and every head is a hunk.** -/
theorem countP_of_parseBody (h : parseBody 0 body = .ok ops) :
    ops.length = body.countP isMarker ∧
      (ops.map fun op => (hunksOf op).length).sum = body.countP isHunkHead := by
  induction hn : body.length using Nat.strong_induction_on generalizing body ops with
  | _ n ih =>
    cases body with
    | nil =>
      cases h
      exact ⟨rfl, rfl⟩
    | cons l rest =>
      obtain ⟨hblank, hadd, hupdate, hdelete⟩ := isMarker_of_readHeader (l := l)
      rw [length_cons] at hn
      have hshort := (dropWhile_suffix (l := rest) fun l => !isMarker l).length_le
      have hmarkers := countP_takeWhile_dropWhile (fun l => !isMarker l) isMarker rest
      have hheads := countP_takeWhile_dropWhile (fun l => !isMarker l) isHunkHead rest
      rw [countP_isMarker_takeWhile] at hmarkers
      rw [countP_cons, countP_cons]
      rcases parseBody_cons_eq_ok h with ⟨path, contentLines, ops', hl, hcontent, hops, rfl⟩ |
        ⟨spec, ops', hl, hops, rfl⟩ | ⟨path, ops', hl, hops, rfl⟩ | ⟨hl, hops⟩
      · have hmark := hadd path hl
        obtain ⟨hlen, hsum⟩ := ih _ (by omega) hops rfl
        have hnone : (rest.takeWhile fun l => !isMarker l).countP isHunkHead = 0 := by
          rw [countP_eq_zero]
          intro l hl
          simp [isHunkHead_of_addContent hcontent l hl]
        simp [hmark, isHunkHead_of_isMarker hmark, hlen, hsum]
        omega
      · have hmark := hupdate spec hl
        obtain ⟨hlen, hsum⟩ := ih _ (by omega) hops rfl
        have hhunks := length_readHunks (rest.takeWhile fun l => !isMarker l) none
        simp [hmark, isHunkHead_of_isMarker hmark, hlen, hsum, hhunks]
        omega
      · have hmark := hdelete path hl
        obtain ⟨hlen, hsum⟩ := ih _ (by omega) hops rfl
        simp [hmark, isHunkHead_of_isMarker hmark, hlen, hsum]
      · obtain ⟨hmark, hhead⟩ := hblank hl
        obtain ⟨hlen, hsum⟩ := ih _ (by omega) hops rfl
        simp [hmark, hhead, hlen, hsum]

/-! ### The lines of what is read -/

def allLines (hunk : Hunk) : List Line :=
  hunk.contextBefore ++ (hunk.oldLines ++ (hunk.newLines ++ hunk.contextAfter))

theorem mem_allLines_context {st : HunkReader} {x : Line} (h : l ∈ allLines (st.context x).hunk) :
    l ∈ allLines st.hunk ∨ l = x := by
  rw [HunkReader.context] at h
  split at h <;> simp only [allLines, mem_append, mem_singleton] at h ⊢ <;> tauto

theorem mem_allLines_read {st : HunkReader} {hl : Line} (h : l ∈ allLines (st.read hl).hunk) :
    l ∈ allLines st.hunk ∨ l <:+ hl := by
  rw [HunkReader.read] at h
  cases hminus : stripPrefix? ['-'] hl with
  | some stripped =>
    simp only [hminus, allLines, mem_append, mem_singleton] at h ⊢
    have hsuffix : stripped <:+ hl := ⟨['-'], (stripPrefix?_eq_some.mp hminus).symm⟩
    rcases h with h | (h | rfl) | h | h <;> tauto
  | none =>
    cases hplus : stripPrefix? ['+'] hl with
    | some stripped =>
      simp only [hminus, hplus, allLines, mem_append, mem_singleton] at h ⊢
      have hsuffix : stripped <:+ hl := ⟨['+'], (stripPrefix?_eq_some.mp hplus).symm⟩
      rcases h with h | h | (h | rfl) | h <;> tauto
    | none =>
      cases hblank : stripPrefix? [' '] hl with
      | some stripped =>
        simp only [hminus, hplus, hblank] at h
        refine (mem_allLines_context h).imp_right ?_
        rintro rfl
        exact ⟨[' '], (stripPrefix?_eq_some.mp hblank).symm⟩
      | none =>
        simp only [hminus, hplus, hblank] at h
        split at h
        · refine (mem_allLines_context h).imp_right ?_
          rintro rfl
          exact nil_suffix
        · refine (mem_allLines_context h).imp_right ?_
          rintro rfl
          exact suffix_refl _

theorem mem_allLines_readHunks :
    ∀ {cur : Option HunkReader} {hunk : Hunk} {l : Line}, hunk ∈ readHunks cur ls →
      l ∈ allLines hunk → (∃ st ∈ cur, l ∈ allLines st.hunk) ∨ ∃ l' ∈ ls, l <:+ l' := by
  induction ls with
  | nil =>
    intro cur hunk l hhunk hl
    simp only [readHunks, mem_map, Option.mem_toList] at hhunk
    obtain ⟨st, hst, rfl⟩ := hhunk
    exact .inl ⟨st, hst, hl⟩
  | cons x ls ih =>
    intro cur hunk l hhunk hl
    rw [readHunks] at hhunk
    split at hhunk
    · rcases mem_append.mp hhunk with hhunk | hhunk
      · simp only [mem_map, Option.mem_toList] at hhunk
        obtain ⟨st, hst, rfl⟩ := hhunk
        exact .inl ⟨st, hst, hl⟩
      · rcases ih hhunk hl with ⟨st, hst, hl⟩ | ⟨l', hl', hsuffix⟩
        · cases hst
          cases hl
        · exact .inr ⟨l', mem_cons_of_mem x hl', hsuffix⟩
    · rcases ih hhunk hl with ⟨st', hst', hl⟩ | ⟨l', hl', hsuffix⟩
      · obtain ⟨st, hst, rfl⟩ := Option.map_eq_some_iff.mp hst'
        rcases mem_allLines_read hl with hl | hl
        · exact .inl ⟨st, hst, hl⟩
        · exact .inr ⟨x, mem_cons_self, hl⟩
      · exact .inr ⟨l', mem_cons_of_mem x hl', hsuffix⟩

theorem mem_readHunks_of_parseBody (h : parseBody 0 body = .ok ops) (hop : op ∈ ops)
    (hhunk : hunk ∈ hunksOf op) : ∃ part, part ⊆ body ∧ hunk ∈ readHunks none part := by
  induction hn : body.length using Nat.strong_induction_on generalizing body ops with
  | _ n ih =>
    cases body with
    | nil =>
      cases h
      cases hop
    | cons l rest =>
      rw [length_cons] at hn
      have hsuffix := dropWhile_suffix (l := rest) fun l => !isMarker l
      have hshort := hsuffix.length_le
      rcases parseBody_cons_eq_ok h with ⟨path, contentLines, ops', -, -, hops, rfl⟩ |
        ⟨spec, ops', -, hops, rfl⟩ | ⟨path, ops', -, hops, rfl⟩ | ⟨-, hops⟩
      · rcases mem_cons.mp hop with rfl | hop
        · cases hhunk
        · obtain ⟨part, hpart, hmem⟩ := ih _ (by omega) hops hop rfl
          exact ⟨part, fun x hx => mem_cons_of_mem l (hsuffix.subset (hpart hx)), hmem⟩
      · rcases mem_cons.mp hop with rfl | hop
        · refine ⟨_, fun x hx => mem_cons_of_mem l ?_, hhunk⟩
          exact (List.takeWhile_prefix _).subset hx
        · obtain ⟨part, hpart, hmem⟩ := ih _ (by omega) hops hop rfl
          exact ⟨part, fun x hx => mem_cons_of_mem l (hsuffix.subset (hpart hx)), hmem⟩
      · rcases mem_cons.mp hop with rfl | hop
        · cases hhunk
        · obtain ⟨part, hpart, hmem⟩ := ih _ (by omega) hops hop rfl
          exact ⟨part, fun x hx => mem_cons_of_mem l (hpart hx), hmem⟩
      · obtain ⟨part, hpart, hmem⟩ := ih _ (by omega) hops hop rfl
        exact ⟨part, fun x hx => mem_cons_of_mem l (hpart hx), hmem⟩

theorem exists_parseBody_of_parseLines (h : parseLines ls = .ok ops) :
    ∃ body, body ⊆ ls ∧ parseBody 0 body = .ok ops := by
  rw [parseLines] at h
  split at h
  · cases h
  · split at h
    · cases h
    · split at h
      · cases h
      · obtain ⟨ops', hops', h⟩ := Outcome.bind_eq_ok.mp h
        split at h
        · cases h
        · cases h
          refine ⟨_, fun l hl => ?_, hops'⟩
          exact mem_of_mem_take (mem_of_mem_drop hl)

theorem newline_notMem_of_parsePatch (h : parsePatch input = .ok ops) (hop : op ∈ ops)
    (hhunk : hunk ∈ hunksOf op) (hl : l ∈ allLines hunk) : '\n' ∉ l := by
  obtain ⟨body, hbody, hparse⟩ := exists_parseBody_of_parseLines h
  obtain ⟨part, hpart, hmem⟩ := mem_readHunks_of_parseBody hparse hop hhunk
  rcases mem_allLines_readHunks hmem hl with ⟨st, hst, -⟩ | ⟨l', hl', hsuffix⟩
  · cases hst
  · exact fun hnl => newline_notMem_of_mem_lines (hbody (hpart hl')) (hsuffix.subset hnl)

theorem parseLines_frame (body : List Line) :
    parseLines ("*** Begin Patch".toList :: (body ++ ["*** End Patch".toList])) = (do
      let ops ← parseBody 0 body
      if ops.isEmpty then .error "Patch contains no operations" else .ok ops) := by
  have hfirst : ("*** Begin Patch".toList :: (body ++ ["*** End Patch".toList])).findIdx?
      (fun l => trim l == "*** Begin Patch".toList) = some 0 := by
    rw [findIdx?_cons, if_pos (by decide)]
  have hlast : lastIdx? (fun l => trim l == "*** End Patch".toList)
      ("*** Begin Patch".toList :: (body ++ ["*** End Patch".toList])) =
      some (body.length + 1) := by
    rw [lastIdx?, ← cons_append, reverse_append, reverse_singleton,
      singleton_append, findIdx?_cons, if_pos (by decide)]
    simp
  rw [parseLines, hfirst, hlast]
  simp only [Nat.le_zero, Nat.add_one_ne_zero, if_false, take_succ_cons, take_left,
    Nat.zero_add, drop_succ_cons, drop_zero]

end PatchFormat

end AlloyAgent
