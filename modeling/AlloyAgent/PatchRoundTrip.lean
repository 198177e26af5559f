import AlloyAgent.PatchFormat

/-!
# Printing a patch and reading it back

`printPatch` writes a list of operations in the documented format: one line for each header and each
hunk, and one for each line of content, with a character in front that tells what it is.

* `lines_printPatch`: what the parser reads of a printed patch;
* `parsePatch_printPatch_iff`: the patches that it gets back.
-/

namespace AlloyAgent.PatchRoundTrip

open List RustStr TextLines PatchFormat

def printHunk (hunk : Hunk) : List Line :=
  "@@".toList :: (hunk.contextBefore.map (' ' :: ·) ++ (hunk.oldLines.map ('-' :: ·) ++
    (hunk.newLines.map ('+' :: ·) ++ hunk.contextAfter.map (' ' :: ·))))

def printOp : PatchOp → List Line
  | .addFile path content =>
    ("*** Add File: ".toList ++ path) :: (content.splitOn '\n').map ('+' :: ·)
  | .updateFile path moveTo hunks =>
    ("*** Update File: ".toList ++ (path ++ moveTo.elim [] (" -> ".toList ++ ·))) ::
      hunks.flatMap printHunk
  | .deleteFile path => ["*** Delete File: ".toList ++ path]

def printLines (ops : List PatchOp) : List Line :=
  "*** Begin Patch".toList :: (ops.flatMap printOp ++ ["*** End Patch".toList])

def printPatch (ops : List PatchOp) : List Char := (printLines ops).flatMap (· ++ ['\n'])

theorem splitOnce?_arrow (h : ¬ ['-', '>'] <:+: p) (t : List Char) :
    splitOnce? ['-', '>'] (p ++ ' ' :: '-' :: '>' :: t) = some (p ++ [' '], t) := by
  induction p with
  | nil => rfl
  | cons c p ih =>
    have hpre : ¬ ['-', '>'].isPrefixOf (c :: (p ++ ' ' :: '-' :: '>' :: t)) = true := by
      intro hpre
      obtain ⟨u, hu⟩ := isPrefixOf_iff_prefix.mp hpre
      obtain ⟨rfl, hrest⟩ := List.cons.inj hu
      cases p with
      | nil => simp at hu
      | cons d p =>
        obtain ⟨rfl, -⟩ := List.cons.inj hrest
        exact h ⟨[], p, rfl⟩
    rw [cons_append, splitOnce?, if_neg hpre,
      ih fun hp => h (hp.trans (suffix_cons c p).isInfix)]
    rfl

theorem takeWhile_dropWhile_of_head? {α : Type} {p : α → Bool} {l : List α}
    (h : ∀ a ∈ l.head?, p a = false) : l.takeWhile p = [] ∧ l.dropWhile p = l := by
  cases l with
  | nil => exact ⟨rfl, rfl⟩
  | cons a l =>
    have ha : ¬ p a = true := by simp [h a rfl]
    exact ⟨takeWhile_cons_of_neg ha, dropWhile_cons_of_neg ha⟩

def bodyOf (hunk : Hunk) : List BodyLine :=
  hunk.contextBefore.map .context ++ (hunk.oldLines.map .removed ++
    (hunk.newLines.map .added ++ hunk.contextAfter.map .context))

theorem printHunk_eq (hunk : Hunk) :
    printHunk hunk = "@@".toList :: (bodyOf hunk).map BodyLine.print := by
  simp [printHunk, bodyOf, Function.comp_def, BodyLine.print]

/-- Context after the change needs a change. -/
def HasChange (hunk : Hunk) : Prop :=
  hunk.contextAfter ≠ [] → hunk.oldLines ≠ [] ∨ hunk.newLines ≠ []

variable {hunk : Hunk}

theorem hunkOf_bodyOf (h : HasChange hunk) : hunkOf (bodyOf hunk) = hunk := by
  obtain ⟨before, old, new, after⟩ := hunk
  have hbefore : ∀ b ∈ before.map BodyLine.context, b.isContext = true := by
    intro b hb
    obtain ⟨l, -, rfl⟩ := mem_map.mp hb
    rfl
  -- what follows the context before the change starts with a change, or is empty
  have hrest : ∀ b ∈ (old.map BodyLine.removed ++
      (new.map BodyLine.added ++ after.map BodyLine.context)).head?, b.isContext = false := by
    cases old with
    | cons l old => simp [BodyLine.isContext, BodyLine.context?]
    | nil =>
      cases new with
      | cons l new => simp [BodyLine.isContext, BodyLine.context?]
      | nil =>
        cases after with
        | nil => simp
        | cons l after => exact ((h (cons_ne_nil l after)).elim (· rfl) (· rfl)).elim
  obtain ⟨htake, hdrop⟩ := takeWhile_dropWhile_of_head? hrest
  simp only [hunkOf, bodyOf, takeWhile_append_of_pos hbefore,
    dropWhile_append_of_pos hbefore, htake, hdrop]
  simp [filterMap_map, BodyLine.context?, BodyLine.removed?, BodyLine.added?]

/-- A hunk can be told from what comes before and after it. -/
def Unambiguous (hunk : Hunk) : Prop :=
  ∀ l ∈ hunk.contextBefore ++ hunk.contextAfter, PlainContext l

instance decidableUnambiguous (hunk : Hunk) : Decidable (Unambiguous hunk) :=
  inferInstanceAs (Decidable (∀ l ∈ hunk.contextBefore ++ hunk.contextAfter, PlainContext l))

theorem plainContext_of_mem_bodyOf (h : Unambiguous hunk) (hb : b ∈ bodyOf hunk) :
    ∀ l ∈ b.context?, PlainContext l := by
  intro l hl
  refine h l ?_
  simp only [bodyOf, mem_append, mem_map] at hb
  rcases hb with ⟨l', hl', rfl⟩ | ⟨l', -, rfl⟩ | ⟨l', -, rfl⟩ | ⟨l', hl', rfl⟩
  · obtain rfl : l' = l := Option.some.inj hl
    exact mem_append_left _ hl'
  · cases hl
  · cases hl
  · obtain rfl : l' = l := Option.some.inj hl
    exact mem_append_right _ hl'

theorem readHunks_printHunk (h : ∀ hunk ∈ hunks, HasChange hunk ∧ Unambiguous hunk) :
    readHunks none (hunks.flatMap printHunk) = hunks := by
  have hgo : ∀ (hunks : List Hunk) (cur : Option HunkReader),
      (∀ hunk ∈ hunks, HasChange hunk ∧ Unambiguous hunk) →
      readHunks cur (hunks.flatMap printHunk) = cur.toList.map (·.hunk) ++ hunks := by
    intro hunks
    induction hunks with
    | nil => intro cur _; simp [readHunks]
    | cons hunk hunks ih =>
      intro cur h
      rw [forall_mem_cons] at h
      have hbody : ∀ l ∈ (bodyOf hunk).map BodyLine.print, isHunkHead l = false := by
        intro l hl
        obtain ⟨b, hb, rfl⟩ := mem_map.mp hl
        exact isHunkHead_print (plainContext_of_mem_bodyOf h.1.2 hb)
      rw [flatMap_cons, printHunk_eq, cons_append, readHunks, if_pos isHunkHead_head,
        readHunks_append hbody, ih _ h.2, Option.toList_some, map_singleton, hunk_foldl_read,
        hunkOf_bodyOf h.1.1, singleton_append]
  exact hgo hunks none h

/-- A path as it can stand in a header. -/
structure PlainPath (path : List Char) : Prop where
  trimmed : trim path = path
  nonEmpty : path ≠ []
  noNewline : '\n' ∉ path
  noArrow : ¬ ['-', '>'] <:+: path

def Printable : PatchOp → Prop
  | .addFile path content => PlainPath path ∧ '\r' ∉ content
  | .updateFile path moveTo hunks => PlainPath path ∧ (∀ p ∈ moveTo, PlainPath p) ∧ hunks ≠ [] ∧
    ∀ hunk ∈ hunks, HasChange hunk
  | .deleteFile path => PlainPath path

variable {path : List Char}

section

variable (h : PlainPath path)
include h

theorem PlainPath.getLast?_ne_return : path.getLast? ≠ some '\r' := by
  intro hlast
  exact absurd ((trim_eq_self_iff.mp h.trimmed).2 _ hlast) (by decide)

theorem PlainPath.trim_header (s : List Char) : trim ('*' :: (s ++ path)) = '*' :: (s ++ path) :=
  trim_cons_append (by decide) h.trimmed h.nonEmpty s

theorem PlainPath.trim_blank : trim (' ' :: path) = path := by
  rw [trim_cons_of_whitespace (by decide), h.trimmed]

theorem readHeader_add : readHeader (trim ("*** Add File: ".toList ++ path)) = .add path := by
  have hadd : stripPrefix? "*** Add File:".toList ("*** Add File: ".toList ++ path) =
      some (' ' :: path) := rfl
  rw [show trim ("*** Add File: ".toList ++ path) = "*** Add File: ".toList ++ path from
    h.trim_header "** Add File: ".toList, readHeader, hadd]
  simp only [h.trim_blank]

theorem readHeader_delete :
    readHeader (trim ("*** Delete File: ".toList ++ path)) = .delete path := by
  have hadd : stripPrefix? "*** Add File:".toList ("*** Delete File: ".toList ++ path) = none := rfl
  have hupd : stripPrefix? "*** Update File:".toList ("*** Delete File: ".toList ++ path) = none :=
    rfl
  have hdel : stripPrefix? "*** Delete File:".toList ("*** Delete File: ".toList ++ path) =
      some (' ' :: path) := rfl
  rw [show trim ("*** Delete File: ".toList ++ path) = "*** Delete File: ".toList ++ path from
    h.trim_header "** Delete File: ".toList, readHeader, hadd, hupd, hdel]
  simp only [h.trim_blank]

end

/-- The source and the target of an update, as the header has them. -/
def moveSpec (path : List Char) (moveTo : Option (List Char)) : List Char :=
  path ++ moveTo.elim [] (" -> ".toList ++ ·)

variable {moveTo : Option (List Char)}

theorem moveSpec_trimmed (h : PlainPath path) (hmove : ∀ p ∈ moveTo, PlainPath p) :
    trim (moveSpec path moveTo) = moveSpec path moveTo ∧ moveSpec path moveTo ≠ [] ∧
      '\n' ∉ moveSpec path moveTo ∧ (moveSpec path moveTo).getLast? ≠ some '\r' := by
  cases moveTo with
  | none =>
    rw [moveSpec, Option.elim_none, append_nil]
    exact ⟨h.trimmed, h.nonEmpty, h.noNewline, h.getLast?_ne_return⟩
  | some p =>
    have hp := hmove p rfl
    obtain ⟨c, path', rfl⟩ := exists_cons_of_ne_nil h.nonEmpty
    have hc : isWhitespace c = false := (trim_eq_self_iff.mp h.trimmed).1 c rfl
    have heq : moveSpec (c :: path') (some p) = c :: ((path' ++ " -> ".toList) ++ p) := by
      simp [moveSpec]
    rw [heq]
    refine ⟨trim_cons_append hc hp.trimmed hp.nonEmpty _, cons_ne_nil _ _, ?_, ?_⟩
    · have hnl := h.noNewline
      have hnl' := hp.noNewline
      simp_all
    · rw [← cons_append, getLast?_append_of_ne_nil _ hp.nonEmpty]
      exact hp.getLast?_ne_return

theorem readHeader_update (htrim : trim spec = spec) (hne : spec ≠ []) :
    readHeader (trim ("*** Update File: ".toList ++ spec)) = .update spec := by
  have hadd : stripPrefix? "*** Add File:".toList ("*** Update File: ".toList ++ spec) = none := rfl
  have hupd : stripPrefix? "*** Update File:".toList ("*** Update File: ".toList ++ spec) =
      some (' ' :: spec) := rfl
  rw [show trim ("*** Update File: ".toList ++ spec) = "*** Update File: ".toList ++ spec from
    trim_cons_append (by decide) htrim hne "** Update File: ".toList, readHeader, hadd, hupd]
  simp only [trim_cons_of_whitespace (c := ' ') (by decide), htrim]

theorem splitMove_moveSpec (h : PlainPath path) (hmove : ∀ p ∈ moveTo, PlainPath p) :
    splitMove (moveSpec path moveTo) = (path, moveTo) := by
  cases moveTo with
  | none =>
    rw [moveSpec, Option.elim_none, append_nil, splitMove, splitOnce?_eq_none h.noArrow]
  | some p =>
    have hp := hmove p rfl
    have hsplit : splitOnce? ['-', '>'] (moveSpec path (some p)) = some (path ++ [' '], ' ' :: p) :=
      splitOnce?_arrow h.noArrow (' ' :: p)
    have hpath : trim (path ++ [' ']) = path := by
      rw [trim_concat_of_whitespace (by decide), h.trimmed]
    rw [splitMove, hsplit]
    simp only [hpath, hp.trim_blank]

/-! ### Printed operations are read back -/

theorem isMarker_header (s : List Char) (hpath : trim path = path) (hne : path ≠ []) :
    isMarker ("***".toList ++ s ++ path) = true := by
  have htrim : trim ("***".toList ++ s ++ path) = "***".toList ++ s ++ path :=
    trim_cons_append (by decide) hpath hne ("**".toList ++ s)
  rw [isMarker, htrim, isPrefixOf_iff_prefix, append_assoc]
  exact prefix_append _ _

variable {op : PatchOp}

theorem isMarker_head?_printOp (h : Printable op) :
    ∃ header part, printOp op = header :: part ∧ isMarker header = true := by
  cases op with
  | addFile path content =>
    exact ⟨_, _, rfl, isMarker_header " Add File: ".toList h.1.trimmed h.1.nonEmpty⟩
  | updateFile path moveTo hunks =>
    obtain ⟨htrim, hne, -⟩ := moveSpec_trimmed h.1 h.2.1
    exact ⟨_, _, rfl, isMarker_header " Update File: ".toList htrim hne⟩
  | deleteFile path =>
    exact ⟨_, _, rfl, isMarker_header " Delete File: ".toList h.trimmed h.nonEmpty⟩

theorem takeWhile_part {part rest : List Line} (hpart : ∀ l ∈ part, isMarker l = false)
    (hrest : ∀ l ∈ rest.head?, isMarker l = true) :
    (part ++ rest).takeWhile (fun l => !isMarker l) = part := by
  obtain ⟨htake, -⟩ := takeWhile_dropWhile_of_head? (p := fun l => !isMarker l) (l := rest)
    fun l hl => by simp [hrest l hl]
  rw [takeWhile_append_of_pos fun l hl => by simp [hpart l hl], htake, append_nil]

theorem parseBody_part (part rest : List Line) :
    parseBody part.length (part ++ rest) = parseBody 0 rest := by
  rw [parseBody_skip, drop_left]

theorem isMarker_printHunk (h : Unambiguous hunk) : ∀ l ∈ printHunk hunk, isMarker l = false := by
  rw [printHunk_eq, forall_mem_cons]
  refine ⟨isMarker_head, fun l hl => ?_⟩
  obtain ⟨b, hb, rfl⟩ := mem_map.mp hl
  exact isMarker_print (plainContext_of_mem_bodyOf h hb)

variable {ops : List PatchOp}

theorem parseBody_printOp (h : Printable op) (hplain : ∀ hunk ∈ hunksOf op, Unambiguous hunk)
    {rest : List Line} (hrest : ∀ l ∈ rest.head?, isMarker l = true)
    (hops : parseBody 0 rest = .ok ops) : parseBody 0 (printOp op ++ rest) = .ok (op :: ops) := by
  cases op with
  | addFile path content =>
    have hpart : ∀ l ∈ (content.splitOn '\n').map ('+' :: ·), isMarker l = false := by
      intro l hl
      obtain ⟨l', -, rfl⟩ := mem_map.mp hl
      exact isMarker_added l'
    rw [printOp, cons_append, parseBody, readHeader_add h.1]
    simp only [takeWhile_part hpart hrest, parseBody_part, List.isEmpty_iff, h.1.nonEmpty, if_false,
      addContent_map, hops]
    change Except.ok (PatchOp.addFile path (['\n'].intercalate (content.splitOn '\n')) :: ops) = _
    rw [intercalate_splitOn]
  | updateFile path moveTo hunks =>
    obtain ⟨htrim, hne, -⟩ := moveSpec_trimmed h.1 h.2.1
    have hpart : ∀ l ∈ hunks.flatMap printHunk, isMarker l = false := by
      intro l hl
      obtain ⟨hunk, hhunk, hl⟩ := mem_flatMap.mp hl
      exact isMarker_printHunk (hplain hunk hhunk) l hl
    have hread : readHunks none (hunks.flatMap printHunk) = hunks :=
      readHunks_printHunk fun hunk hhunk => ⟨h.2.2.2 hunk hhunk, hplain hunk hhunk⟩
    rw [printOp, ← moveSpec, cons_append, parseBody, readHeader_update htrim hne]
    simp only [takeWhile_part hpart hrest, parseBody_part, hread, splitMove_moveSpec h.1 h.2.1,
      List.isEmpty_iff, h.1.nonEmpty, h.2.2.1, if_false, hops]
    rfl
  | deleteFile path =>
    rw [printOp, singleton_append, parseBody, readHeader_delete h]
    simp only [List.isEmpty_iff, h.nonEmpty, if_false, hops]
    rfl

theorem parseBody_flatMap_printOp (h : ∀ op ∈ ops, Printable op)
    (hplain : ∀ op ∈ ops, ∀ hunk ∈ hunksOf op, Unambiguous hunk) :
    parseBody 0 (ops.flatMap printOp) = .ok ops := by
  induction ops with
  | nil => rfl
  | cons op ops ih =>
    rw [forall_mem_cons] at h hplain
    rw [flatMap_cons]
    refine parseBody_printOp h.1 hplain.1 ?_ (ih h.2 hplain.2)
    cases ops with
    | nil => simp
    | cons next ops =>
      obtain ⟨header, part, hprint, hmarker⟩ := isMarker_head?_printOp (h.2 next mem_cons_self)
      rw [flatMap_cons, hprint]
      simpa using hmarker

/-- A hunk as it is read: a carriage return at the end of a line is part of the terminator. -/
def chompHunk (hunk : Hunk) : Hunk :=
  ⟨hunk.contextBefore.map chomp, hunk.oldLines.map chomp, hunk.newLines.map chomp,
    hunk.contextAfter.map chomp⟩

def chompOp : PatchOp → PatchOp
  | .updateFile path moveTo hunks => .updateFile path moveTo (hunks.map chompHunk)
  | op => op

theorem hunksOf_chompOp (op : PatchOp) : hunksOf (chompOp op) = (hunksOf op).map chompHunk := by
  cases op <;> rfl

theorem printable_chompOp (h : Printable op) : Printable (chompOp op) := by
  cases op with
  | addFile path content => exact h
  | deleteFile path => exact h
  | updateFile path moveTo hunks =>
    obtain ⟨hpath, hmove, hne, hchange⟩ := h
    refine ⟨hpath, hmove, by simpa using hne, fun hunk hhunk => ?_⟩
    obtain ⟨hunk', hhunk', rfl⟩ := mem_map.mp hhunk
    have := hchange hunk' hhunk'
    simpa [HasChange, chompHunk] using this

theorem map_chomp_printHunk (hunk : Hunk) :
    (printHunk hunk).map chomp = printHunk (chompHunk hunk) := by
  have hmap : ∀ {c : Char}, c ≠ '\r' → ∀ ls : List Line,
      (ls.map (c :: ·)).map chomp = (ls.map chomp).map (c :: ·) := by
    intro c hc ls
    rw [map_map, map_map]
    exact map_congr_left fun l _ => chomp_cons hc l
  have hhead : chomp "@@".toList = "@@".toList := by decide
  simp only [printHunk, map_cons, map_append, hhead, chompHunk,
    hmap (show ' ' ≠ '\r' by decide), hmap (show '-' ≠ '\r' by decide),
    hmap (show '+' ≠ '\r' by decide)]

theorem map_chomp_printOp (h : Printable op) : (printOp op).map chomp = printOp (chompOp op) := by
  have hheader : ∀ {s path : List Char}, path ≠ [] → path.getLast? ≠ some '\r' →
      chomp (s ++ path) = s ++ path := by
    intro s path hne hlast
    rw [chomp_eq_self_iff, getLast?_append_of_ne_nil _ hne]
    exact hlast
  cases op with
  | addFile path content =>
    have hcontent : ((content.splitOn '\n').map ('+' :: ·)).map chomp =
        (content.splitOn '\n').map ('+' :: ·) := by
      rw [map_map]
      refine map_congr_left fun l hl => ?_
      have hl : l.getLast? ≠ some '\r' := fun hlast =>
        h.2 ((of_mem_splitOn hl).2 _ (mem_of_getLast? hlast))
      rw [Function.comp_apply, chomp_cons (by decide), chomp_eq_self_iff.mpr hl]
    rw [printOp, map_cons, hheader h.1.nonEmpty h.1.getLast?_ne_return, hcontent]
    rfl
  | updateFile path moveTo hunks =>
    obtain ⟨-, hne, -, hlast⟩ := moveSpec_trimmed h.1 h.2.1
    have hhunks :
        (hunks.flatMap printHunk).map chomp = (hunks.map chompHunk).flatMap printHunk := by
      rw [map_flatMap, flatMap_map]
      exact flatMap_congr fun hunk _ => map_chomp_printHunk hunk
    rw [printOp, ← moveSpec, map_cons, hheader hne hlast, hhunks]
    rfl
  | deleteFile path =>
    rw [printOp, map_singleton, hheader h.nonEmpty h.getLast?_ne_return]
    rfl

theorem newline_notMem_printOp (h : Printable op)
    (hlines : ∀ hunk ∈ hunksOf op, ∀ l ∈ allLines hunk, '\n' ∉ l) : ∀ l ∈ printOp op, '\n' ∉ l := by
  cases op with
  | addFile path content =>
    rw [printOp, forall_mem_cons]
    refine ⟨by simpa using h.1.noNewline, fun l hl => ?_⟩
    obtain ⟨l', hl', rfl⟩ := mem_map.mp hl
    simpa using (of_mem_splitOn hl').1
  | updateFile path moveTo hunks =>
    obtain ⟨-, -, hspec, -⟩ := moveSpec_trimmed h.1 h.2.1
    rw [printOp, ← moveSpec, forall_mem_cons]
    refine ⟨by simpa using hspec, fun l hl => ?_⟩
    obtain ⟨hunk, hhunk, hl⟩ := mem_flatMap.mp hl
    have hall := hlines hunk hhunk
    simp only [printHunk, mem_cons, mem_append, mem_map] at hl
    rcases hl with rfl | ⟨l', hl', rfl⟩ | ⟨l', hl', rfl⟩ | ⟨l', hl', rfl⟩ | ⟨l', hl', rfl⟩
    · decide
    all_goals
      have := hall l' (by simp [allLines, hl'])
      simpa using this
  | deleteFile path => simpa [printOp] using h.noNewline

/-- **The lines of a printed patch.** -/
theorem lines_printPatch (h : ∀ op ∈ ops, Printable op)
    (hlines : ∀ op ∈ ops, ∀ hunk ∈ hunksOf op, ∀ l ∈ allLines hunk, '\n' ∉ l) :
    lines (printPatch ops) = printLines (ops.map chompOp) := by
  have hnewline : ∀ l ∈ printLines ops, '\n' ∉ l := by
    intro l hl
    simp only [printLines, mem_cons, mem_append, mem_flatMap,
      not_mem_nil, or_false] at hl
    rcases hl with rfl | ⟨op, hop, hl⟩ | rfl
    · decide
    · exact newline_notMem_printOp (h op hop) (hlines op hop) l hl
    · decide
  have hops : (ops.flatMap printOp).map chomp = (ops.map chompOp).flatMap printOp := by
    rw [map_flatMap, flatMap_map]
    exact flatMap_congr fun op hop => map_chomp_printOp (h op hop)
  have hbegin : chomp "*** Begin Patch".toList = "*** Begin Patch".toList := by decide
  have hend : chomp "*** End Patch".toList = "*** End Patch".toList := by decide
  rw [printPatch, lines_flatMap hnewline, printLines, map_cons, map_append, hops,
    map_singleton, hbegin, hend, ← printLines]

/-! ### What is taken for something else -/

def contexts (op : PatchOp) : List Line :=
  (hunksOf op).flatMap fun hunk => hunk.contextBefore ++ hunk.contextAfter

theorem countP_printHunk (hunk : Hunk) :
    (printHunk hunk).countP isMarker =
      (hunk.contextBefore ++ hunk.contextAfter).countP isMarker ∧
    (printHunk hunk).countP isHunkHead =
      1 + (hunk.contextBefore ++ hunk.contextAfter).countP isHunkHead := by
  have hcount : ∀ {p : Line → Bool} {c : Char}, (∀ l, p (c :: l) = false) → ∀ ls : List Line,
      (ls.map (c :: ·)).countP p = 0 := by
    intro p c hp ls
    simp [countP_eq_zero, hp]
  have hsame : ∀ {p : Line → Bool}, (∀ l, p (' ' :: l) = p l) → ∀ ls : List Line,
      (ls.map (' ' :: ·)).countP p = ls.countP p := by
    intro p hp ls
    rw [countP_map]
    exact countP_congr fun l _ => by rw [Function.comp_apply, hp]
  simp only [printHunk, countP_cons, countP_append, hcount isMarker_removed,
    hcount isMarker_added, hcount isHunkHead_removed, hcount isHunkHead_added,
    hsame isMarker_context, hsame isHunkHead_context, isMarker_head, isHunkHead_head]
  refine ⟨by simp, ?_⟩
  simp
  omega

theorem countP_printOp (h : Printable op) :
    (printOp op).countP isMarker = 1 + (contexts op).countP isMarker ∧
    (printOp op).countP isHunkHead =
      (hunksOf op).length + (contexts op).countP isHunkHead := by
  cases op with
  | addFile path content =>
    have hheader : isMarker ("*** Add File: ".toList ++ path) = true :=
      isMarker_header " Add File: ".toList h.1.trimmed h.1.nonEmpty
    rw [printOp, countP_cons, countP_cons, hheader, isHunkHead_of_isMarker hheader]
    simp [contexts, Function.comp_def]
  | updateFile path moveTo hunks =>
    obtain ⟨htrim, hne, -⟩ := moveSpec_trimmed h.1 h.2.1
    have hheader : isMarker ("*** Update File: ".toList ++ moveSpec path moveTo) = true :=
      isMarker_header " Update File: ".toList htrim hne
    rw [printOp, ← moveSpec, countP_cons, countP_cons, hheader,
      isHunkHead_of_isMarker hheader, contexts, hunksOf_updateFile]
    simp only [countP_flatMap, Function.comp_def, countP_printHunk, sum_map_add,
      map_const', sum_replicate_nat]
    simp [Nat.add_comm]
  | deleteFile path =>
    have hheader : isMarker ("*** Delete File: ".toList ++ path) = true :=
      isMarker_header " Delete File: ".toList h.trimmed h.nonEmpty
    rw [printOp, countP_cons, countP_cons, hheader, isHunkHead_of_isMarker hheader]
    simp [contexts]

/-- An operation whose hunks are read as they are printed. -/
def Readable (op : PatchOp) : Prop :=
  ∀ hunk ∈ hunksOf op, (∀ l ∈ allLines hunk, '\n' ∉ l ∧ l.getLast? ≠ some '\r') ∧ Unambiguous hunk

theorem chompHunk_eq_self_iff :
    chompHunk hunk = hunk ↔ ∀ l ∈ allLines hunk, l.getLast? ≠ some '\r' := by
  have hmap : ∀ ls : List Line, ls.map chomp = ls ↔ ∀ l ∈ ls, l.getLast? ≠ some '\r' := by
    intro ls
    simp only [← chomp_eq_self_iff]
    conv_lhs => rhs; rw [← map_id ls]
    exact map_inj_left
  obtain ⟨before, old, new, after⟩ := hunk
  simp only [chompHunk, Hunk.mk.injEq, hmap, allLines, forall_mem_append]

theorem chompOp_eq_self_iff :
    chompOp op = op ↔ ∀ hunk ∈ hunksOf op, ∀ l ∈ allLines hunk, l.getLast? ≠ some '\r' := by
  cases op with
  | addFile path content => simp [chompOp]
  | deleteFile path => simp [chompOp]
  | updateFile path moveTo hunks =>
    simp only [← chompHunk_eq_self_iff, chompOp, PatchOp.updateFile.injEq, true_and,
      hunksOf_updateFile]
    conv_lhs => rhs; rw [← map_id hunks]
    exact map_inj_left

/-- As many operations and hunks as printed: no context line started something. -/
theorem unambiguous_of_parseBody (h : ∀ op ∈ ops, Printable op)
    (hparse : parseBody 0 (ops.flatMap printOp) = .ok ops') (hops : ops'.length = ops.length)
    (hhunks : (ops'.map fun op => (hunksOf op).length).sum =
      (ops.map fun op => (hunksOf op).length).sum) :
    ∀ op ∈ ops, ∀ hunk ∈ hunksOf op, Unambiguous hunk := by
  obtain ⟨hmarkers, hheads⟩ := countP_of_parseBody hparse
  have hsum : ∀ (p : Line → Bool) (n : PatchOp → ℕ),
      (∀ op ∈ ops, (printOp op).countP p = n op + (contexts op).countP p) →
      (ops.flatMap printOp).countP p = (ops.map n).sum + (ops.flatMap contexts).countP p := by
    intro p n hn
    rw [countP_flatMap, countP_flatMap, ← sum_map_add]
    congr 1
    exact map_congr_left hn
  rw [hsum isMarker (fun _ => 1) fun op hop => (countP_printOp (h op hop)).1] at hmarkers
  rw [hsum isHunkHead _ fun op hop => (countP_printOp (h op hop)).2] at hheads
  have hones : (ops.map fun _ => 1).sum = ops.length := by
    rw [map_const', sum_replicate_nat, Nat.mul_one]
  intro op hop hunk hhunk l hl
  have hmem : l ∈ ops.flatMap contexts :=
    mem_flatMap.mpr ⟨op, hop, mem_flatMap.mpr ⟨hunk, hhunk, hl⟩⟩
  have hnone : ∀ p : Line → Bool, (ops.flatMap contexts).countP p = 0 → p l = false :=
    fun p hzero => by simpa using countP_eq_zero.mp hzero l hmem
  exact ⟨hnone isMarker (by omega), hnone isHunkHead (by omega)⟩

/-- **A printed patch is read back** if no line looks like a header or loses a `\r`. -/
theorem parsePatch_printPatch_iff (ops : List PatchOp) (hne : ops ≠ [])
    (h : ∀ op ∈ ops, Printable op) :
    parsePatch (printPatch ops) = .ok ops ↔ ∀ op ∈ ops, Readable op := by
  refine ⟨fun hparse => ?_, fun hread => ?_⟩
  · have hnewline : ∀ op ∈ ops, ∀ hunk ∈ hunksOf op, ∀ l ∈ allLines hunk, '\n' ∉ l :=
      fun op hop hunk hhunk l hl => newline_notMem_of_parsePatch hparse hop hhunk hl
    have hchomp : ∀ op ∈ ops.map chompOp, Printable op := by
      intro op hop
      obtain ⟨op', hop', rfl⟩ := mem_map.mp hop
      exact printable_chompOp (h op' hop')
    rw [parsePatch, lines_printPatch h hnewline, printLines, parseLines_frame] at hparse
    obtain ⟨ops', hbody, hparse⟩ := Outcome.bind_eq_ok.mp hparse
    split at hparse
    · cases hparse
    obtain rfl := Except.ok.inj hparse
    have hplain := unambiguous_of_parseBody hchomp hbody (by simp)
      (by simp [hunksOf_chompOp, Function.comp_def])
    -- nothing was confused, so the operations are read as printed
    rw [parseBody_flatMap_printOp hchomp hplain] at hbody
    have hself : ∀ op ∈ ops', chompOp op = op := by
      have hmap := Except.ok.inj hbody
      conv at hmap => rhs; rw [← map_id ops']
      exact map_inj_left.mp hmap
    intro op hop hunk hhunk
    refine ⟨fun l hl => ⟨hnewline op hop hunk hhunk l hl,
      chompOp_eq_self_iff.mp (hself op hop) hunk hhunk l hl⟩, ?_⟩
    rw [Except.ok.inj hbody] at hplain
    exact hplain op hop hunk hhunk
  · have hself : ops.map chompOp = ops := by
      conv_rhs => rw [← map_id ops]
      exact map_inj_left.mpr fun op hop => chompOp_eq_self_iff.mpr fun hunk hhunk l hl =>
        ((hread op hop hunk hhunk).1 l hl).2
    rw [parsePatch, lines_printPatch h fun op hop hunk hhunk l hl =>
      ((hread op hop hunk hhunk).1 l hl).1, hself, printLines, parseLines_frame,
      parseBody_flatMap_printOp h fun op hop hunk hhunk => (hread op hop hunk hhunk).2]
    simp [bind, Except.bind, hne]

theorem plainPath_f : PlainPath ['f'] := ⟨by decide, by decide, by decide, by decide⟩

/-- An update of one line, with a line of context before it. -/
def updateAfter (context : Line) : PatchOp :=
  .updateFile ['f'] none [⟨[context], [['a']], [['b']], []⟩]

theorem printable_updateAfter (context : Line) : Printable (updateAfter context) :=
  ⟨plainPath_f, by simp, by simp, by simp [HasChange]⟩

theorem parsePatch_printPatch_text :
    parsePatch (printPatch [updateAfter ['x'], .deleteFile ['f']]) =
      .ok [updateAfter ['x'], .deleteFile ['f']] := by
  refine (parsePatch_printPatch_iff _ (by simp) ?_).mpr ?_
  · rw [forall_mem_cons, forall_mem_singleton]
    exact ⟨printable_updateAfter ['x'], plainPath_f⟩
  · rw [forall_mem_cons, forall_mem_singleton]
    refine ⟨?_, by simp [Readable]⟩
    simp only [Readable, updateAfter, hunksOf_updateFile, forall_mem_singleton]
    exact ⟨by decide, by decide⟩

/-- Two context lines, as they may well stand in a file, that are not read back. -/
theorem context_lines_confused :
    Printable (updateAfter "*** note".toList) ∧
    parsePatch (printPatch [updateAfter "*** note".toList]) =
      .error "Unexpected line in patch: *** note" ∧
    Printable (updateAfter "@@ note".toList) ∧
    parsePatch (printPatch [updateAfter "@@ note".toList]) =
      .ok [.updateFile ['f'] none [⟨[], [], [], []⟩, ⟨[], [['a']], [['b']], []⟩]] :=
  ⟨printable_updateAfter _, by decide +kernel, printable_updateAfter _, by decide +kernel⟩

end AlloyAgent.PatchRoundTrip
