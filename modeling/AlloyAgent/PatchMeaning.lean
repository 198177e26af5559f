import AlloyAgent.PatchRoundTrip

/-!
# What a hunk means

The body of a hunk is a list of context, removed and added lines.

* `Means`: what the lines of a body ask for;
* `means_iff`: the bodies of which the patch does just that.
-/

namespace AlloyAgent.PatchMeaning

open List RustStr TextLines PatchHunks PatchFormat PatchRoundTrip

/-! ## The meaning of a body -/

def text : BodyLine → Line
  | .context l | .removed l | .added l => l

def oldOf (body : List BodyLine) : List Line := body.filterMap fun b => b.context?.or b.removed?

def newOf (body : List BodyLine) : List Line := body.filterMap fun b => b.context?.or b.added?

def leading (body : List BodyLine) : List Line :=
  (body.takeWhile (·.isContext)).filterMap (·.context?)

def changes (body : List BodyLine) : List BodyLine := body.dropWhile (·.isContext)

def removedOf (body : List BodyLine) : List Line := body.filterMap (·.removed?)

def addedOf (body : List BodyLine) : List Line := body.filterMap (·.added?)

def patchLines (path head : Line) (body : List BodyLine) : List Line :=
  "*** Begin Patch".toList :: ((("*** Update File: ".toList ++ path) :: head ::
    body.map BodyLine.print) ++ ["*** End Patch".toList])

/-- The patch does to every file what the body means, at the first place it fits. -/
def Means (path head : Line) (body : List BodyLine) : Prop :=
  ∀ (patch content : List Char) (before after : List Line),
    lines patch = patchLines path head body →
    lines content = before ++ (oldOf body ++ after) →
    (∀ pos, OccursAt (· = ·) (lines content) (oldOf body) pos → before.length ≤ pos) →
    ∃ hunk, parsePatch patch = .ok [.updateFile path none [hunk]] ∧
      applyHunks content [hunk] =
        .ok (joinLines (endsWithNewline content) (before ++ (newOf body ++ after)))

/-- The changes follow all of the context, and there is something to find them by. -/
def ChangesLast (body : List BodyLine) : Prop :=
  (∀ b ∈ changes body, b.isContext = false) ∧ (oldOf body = [] → body = [])

/-- The body takes away what it puts in, and what is searched for stands in the old lines. -/
def ChangesNothing (body : List BodyLine) : Prop :=
  newOf body = oldOf body ∧ addedOf body = removedOf body ∧
    leading body ++ removedOf body <:+: oldOf body

/-- No context line can be taken for a header. -/
def ContextPlain (body : List BodyLine) : Prop := ∀ b ∈ body, ∀ l ∈ b.context?, PlainContext l

variable {path head : Line} {body : List BodyLine}

theorem of_context {body : List BodyLine} (h : ∀ b ∈ body, b.isContext = true) :
    oldOf body = body.filterMap (·.context?) ∧ newOf body = body.filterMap (·.context?) ∧
      removedOf body = [] ∧ addedOf body = [] := by
  induction body with
  | nil => exact ⟨rfl, rfl, rfl, rfl⟩
  | cons b body ih =>
    rw [forall_mem_cons] at h
    obtain ⟨hold, hnew, hrem, hadd⟩ := ih h.2
    cases b with
    | context l =>
      refine ⟨congrArg (l :: ·) hold, congrArg (l :: ·) hnew, hrem, hadd⟩
    | removed l => cases h.1
    | added l => cases h.1

theorem of_no_context (h : ∀ b ∈ body, b.isContext = false) :
    oldOf body = removedOf body ∧ newOf body = addedOf body ∧ body.filterMap (·.context?) = [] := by
  induction body with
  | nil => exact ⟨rfl, rfl, rfl⟩
  | cons b body ih =>
    rw [forall_mem_cons] at h
    obtain ⟨hold, hnew, hcon⟩ := ih h.2
    cases b with
    | context l => cases h.1
    | removed l => exact ⟨congrArg (l :: ·) hold, hnew, hcon⟩
    | added l => exact ⟨hold, congrArg (l :: ·) hnew, hcon⟩

variable {f : BodyLine → Option Line}

/-- What is read of a body is what is read of its leading context and of its changes. -/
theorem filterMap_eq_changes (h : (body.takeWhile (·.isContext)).filterMap f = l) :
    body.filterMap f = l ++ (changes body).filterMap f := by
  rw [← h, ← filterMap_append, changes, takeWhile_append_dropWhile]

theorem of_leading (body : List BodyLine) :
    oldOf body = leading body ++ oldOf (changes body) ∧
      newOf body = leading body ++ newOf (changes body) ∧
      removedOf body = removedOf (changes body) ∧ addedOf body = addedOf (changes body) := by
  obtain ⟨hold, hnew, hrem, hadd⟩ := @of_context (body.takeWhile (·.isContext)) fun b hb =>
    mem_takeWhile_imp hb
  exact ⟨filterMap_eq_changes hold, filterMap_eq_changes hnew, filterMap_eq_changes hrem,
    filterMap_eq_changes hadd⟩

theorem anchor_hunkOf (body : List BodyLine) :
    anchor (hunkOf body) = leading body ++ removedOf body := rfl

theorem eq_of_changes_last (h : ∀ b ∈ changes body, b.isContext = false) :
    oldOf body = leading body ++ removedOf body ∧ newOf body = leading body ++ addedOf body := by
  obtain ⟨hold, hnew, -⟩ := of_no_context h
  obtain ⟨hold', hnew', hrem, hadd⟩ := of_leading body
  rw [hold', hnew', hrem, hadd, hold, hnew]
  exact ⟨rfl, rfl⟩

/-! ## The hunk that is read -/

theorem parseLines_patchLines (hpath : PlainPath path) (hhead : isHunkHead head = true)
    (hplain : ContextPlain body) :
    parseLines (patchLines path head body) = .ok [.updateFile path none [hunkOf body]] := by
  have hheadNot : isMarker head = false := by
    by_contra hm
    rw [isHunkHead_of_isMarker (by simpa using hm)] at hhead
    cases hhead
  have hpart : ∀ l ∈ head :: body.map BodyLine.print, isMarker l = false := by
    rw [forall_mem_cons]
    refine ⟨hheadNot, fun l hl => ?_⟩
    obtain ⟨b, hb, rfl⟩ := mem_map.mp hl
    exact isMarker_print (hplain b hb)
  have hbody : ∀ l ∈ body.map BodyLine.print, isHunkHead l = false := by
    intro l hl
    obtain ⟨b, hb, rfl⟩ := mem_map.mp hl
    exact isHunkHead_print (hplain b hb)
  have hread : readHunks none (head :: body.map BodyLine.print) = [hunkOf body] := by
    have happend := readHunks_append hbody .start []
    rw [append_nil] at happend
    rw [readHunks, if_pos hhead, happend, readHunks, Option.toList_some, map_singleton,
      hunk_foldl_read]
    rfl
  have htake := takeWhile_part hpart (by simp : ∀ l ∈ ([] : List Line).head?, isMarker l = true)
  have hrest := parseBody_part (head :: body.map BodyLine.print) []
  rw [append_nil] at htake hrest
  have hmove : splitMove path = (path, none) := by
    rw [splitMove, splitOnce?_eq_none hpath.noArrow]
  rw [patchLines, parseLines_frame, parseBody, readHeader_update hpath.trimmed hpath.nonEmpty]
  simp only [htake, hrest, hread, hmove, List.isEmpty_iff, hpath.nonEmpty, if_false,
    cons_ne_nil]
  rfl

theorem contextPlain_of_parseLines (hpath : PlainPath path) (hhead : isHunkHead head = true)
    (h : parseLines (patchLines path head body) = .ok [.updateFile path none [hunk]]) :
    ContextPlain body := by
  rw [patchLines, parseLines_frame] at h
  obtain ⟨ops, hbody, h⟩ := Outcome.bind_eq_ok.mp h
  split at h
  · cases h
  cases h
  obtain ⟨hmarkers, hheads⟩ := countP_of_parseBody hbody
  have hheader : isMarker ("*** Update File: ".toList ++ path) = true :=
    isMarker_header " Update File: ".toList hpath.trimmed hpath.nonEmpty
  simp only [countP_cons, hheader, hhead, isHunkHead_of_isMarker hheader, if_true,
    length_singleton, map_singleton, sum_singleton, hunksOf_updateFile]
    at hmarkers hheads
  intro b hb l hl
  have hprint : b.print ∈ body.map BodyLine.print := mem_map_of_mem hb
  have hb' : b.print = ' ' :: l := by
    cases b with
    | context l' => rw [Option.some.inj hl]; rfl
    | removed l' => cases hl
    | added l' => cases hl
  have hno : ∀ p : Line → Bool, (body.map BodyLine.print).countP p = 0 → p (' ' :: l) = false := by
    intro p hp
    rw [← hb']
    simpa using countP_eq_zero.mp hp _ hprint
  have hm := hno isMarker (by omega)
  have hh := hno isHunkHead (by omega)
  rw [isMarker_context] at hm
  rw [isHunkHead_context] at hh
  exact ⟨hm, hh⟩

/-! ## Bodies that are applied as they are meant -/

theorem applyHunks_singleton {content : List Char} {hunk : Hunk} {result : List Line}
    (h : applyHunk 0 (lines content) hunk = .ok result) :
    applyHunks content [hunk] = .ok (joinLines (endsWithNewline content) result) := by
  rw [applyHunks, applyFrom_singleton, h]
  rfl

theorem isTarget_of_first {before old after : List Line}
    (hfirst : ∀ pos, OccursAt (· = ·) (before ++ (old ++ after)) old pos → before.length ≤ pos) :
    IsTarget (before ++ (old ++ after)) old before.length :=
  .inl ⟨occursAt_eq_iff.mpr ⟨before, after, rfl, rfl⟩, hfirst⟩

theorem applyHunk_of_changesLast (h : ChangesLast body) {before after : List Line}
    (hfirst : ∀ pos, OccursAt (· = ·) (before ++ (oldOf body ++ after)) (oldOf body) pos →
      before.length ≤ pos) :
    applyHunk 0 (before ++ (oldOf body ++ after)) (hunkOf body) =
      .ok (before ++ (newOf body ++ after)) := by
  obtain ⟨hold, hnew⟩ := eq_of_changes_last h.1
  by_cases hnil : oldOf body = []
  · -- nothing to find, and nothing to do
    rw [h.2 hnil]
    have hempty : oldOf [] = [] := rfl
    rw [applyHunk_of_no_anchor rfl, hempty]
    exact congrArg _ (append_nil _)
  · have hanchor : anchor (hunkOf body) = oldOf body := (anchor_hunkOf body).trans hold.symm
    have htarget := isTarget_of_first hfirst
    rw [← hanchor] at htarget hnil ⊢
    rw [applyHunk_of_target hnil htarget, take_left, ← drop_drop, drop_left,
      drop_left, hnew, append_assoc]
    rfl

theorem applyHunk_of_changesNothing (h : ChangesNothing body) (before after : List Line) :
    applyHunk 0 (before ++ (oldOf body ++ after)) (hunkOf body) =
      .ok (before ++ (newOf body ++ after)) := by
  obtain ⟨hnew, hsame, s, t, hinfix⟩ := h
  rw [hnew]
  refine applyHunk_of_same hsame ⟨(before ++ s).length, ?_⟩ 0
  refine occursAt_eq_iff.mpr ⟨before ++ s, t ++ after, ?_, rfl⟩
  rw [anchor_hunkOf, ← hinfix]
  simp only [append_assoc]

/-! ## Bodies that are not -/

variable {l : Line}

theorem mem_text_of_mem_filterMap (hf : ∀ b, ∀ l ∈ f b, text b = l) (h : l ∈ body.filterMap f) :
    l ∈ body.map text := by
  obtain ⟨b, hb, hl⟩ := mem_filterMap.mp h
  exact mem_map.mpr ⟨b, hb, hf b l hl⟩

theorem mem_text_of_mem_oldOf (h : l ∈ oldOf body) : l ∈ body.map text :=
  mem_text_of_mem_filterMap (fun b l hl => by cases b <;> cases hl <;> rfl) h

theorem mem_text_of_mem_newOf (h : l ∈ newOf body) : l ∈ body.map text :=
  mem_text_of_mem_filterMap (fun b l hl => by cases b <;> cases hl <;> rfl) h

theorem mem_text_of_mem_addedOf (h : l ∈ addedOf body) : l ∈ body.map text :=
  mem_text_of_mem_filterMap (fun b l hl => by cases b <;> cases hl; rfl) h

theorem mem_text_of_mem_anchor (h : l ∈ leading body ++ removedOf body) : l ∈ body.map text := by
  rcases mem_append.mp h with h | h
  · exact mem_text_of_mem_oldOf (by rw [(of_leading body).1]; exact mem_append_left _ h)
  · exact mem_text_of_mem_filterMap (fun b l hl => by cases b <;> cases hl; rfl) h

/-- Two lists are cut at the first `z`. -/
theorem append_cons_inj {α : Type} [DecidableEq α] {a b c d : List α} {z : α} (ha : z ∉ a)
    (hc : z ∉ c) (h : a ++ z :: b = c ++ z :: d) : a = c ∧ b = d := by
  have htake : ∀ {x y : List α}, z ∉ x → (x ++ z :: y).takeWhile (· ≠ z) = x := by
    intro x y hx
    rw [takeWhile_append_of_pos]
    · simp
    · intro w hw
      exact decide_eq_true fun hwz => hx (hwz ▸ hw)
  have hac : a = c := by rw [← htake ha (y := b), h, htake hc]
  rw [hac, append_cancel_left_eq, List.cons.injEq] at h
  exact ⟨hac, h.2⟩

section Converse

variable {z : Line} (h : Means path head body)
  (hpath : PlainPath path) (hhead : isHunkHead head = true) (hheadLine : '\n' ∉ head)
  (hbody : ∀ l ∈ body.map text, '\n' ∉ l)
include h hpath hhead hheadLine hbody

/-- What is known of a body that is applied as meant, without a newline at the end. -/
theorem Means.applyHunk (hz : '\n' ∉ z) (hzne : z ≠ []) (before : List Line)
    (hbefore : ∀ l ∈ before, '\n' ∉ l)
    (hfirst : ∀ pos, OccursAt (· = ·) (before ++ (oldOf body ++ [z])) (oldOf body) pos →
      before.length ≤ pos) :
    ContextPlain body ∧
      ∃ result, PatchHunks.applyHunk 0 (before ++ (oldOf body ++ [z])) (hunkOf body) = .ok result ∧
        ['\n'].intercalate result = ['\n'].intercalate (before ++ (newOf body ++ [z])) := by
  have hpatch : ∀ l ∈ patchLines path head body, '\n' ∉ l := by
    intro l hl
    simp only [patchLines, mem_cons, cons_append, mem_append, mem_map,
      not_mem_nil, or_false] at hl
    rcases hl with rfl | rfl | rfl | ⟨b, hb, rfl⟩ | rfl
    · decide
    · simpa using hpath.noNewline
    · exact hheadLine
    · have := hbody _ (mem_map_of_mem hb)
      cases b <;> simpa [BodyLine.print, text] using this
    · decide
  have hfile : ∀ l ∈ before ++ oldOf body, '\n' ∉ l := by
    rw [forall_mem_append]
    exact ⟨hbefore, fun l hl => hbody l (mem_text_of_mem_oldOf hl)⟩
  obtain ⟨patch, hpatch⟩ := exists_lines_eq hpatch
  obtain ⟨content, hcontent, hlast⟩ := exists_lines_concat hfile hz hzne
  rw [append_assoc] at hcontent
  obtain ⟨hunk, hparse, happly⟩ := h patch content before [z] hpatch hcontent
    (by rw [hcontent]; exact hfirst)
  rw [parsePatch, hpatch] at hparse
  have hplain := contextPlain_of_parseLines hpath hhead hparse
  refine ⟨hplain, ?_⟩
  rw [parseLines_patchLines hpath hhead hplain] at hparse
  obtain rfl : hunkOf body = hunk := by simpa using hparse
  obtain ⟨result, hresult, hjoin⟩ := Outcome.bind_eq_ok.mp happly
  rw [applyFrom_singleton, hcontent] at hresult
  refine ⟨result, hresult, ?_⟩
  have hends : endsWithNewline content = false := by simpa [endsWithNewline] using hlast
  simpa [joinLines, hends] using Except.ok.inj hjoin

theorem Means.addedOf_eq_nil (hnil : leading body ++ removedOf body = []) : addedOf body = [] := by
  obtain ⟨z, hzne, hz, hfresh⟩ := exists_fresh (body.map text)
  obtain ⟨-, result, happly, hjoin⟩ := h.applyHunk hpath hhead hheadLine hbody hz hzne
    [] (by simp) fun pos _ => Nat.zero_le pos
  have hnil' : anchor (hunkOf body) = [] := hnil
  rw [applyHunk_of_no_anchor hnil'] at happly
  cases happly
  have hnl : ∀ l ∈ body.map text ++ [z], '\n' ∉ l := by
    rw [forall_mem_append, forall_mem_singleton]
    exact ⟨hbody, hz⟩
  have hlines : oldOf body ++ [z] ++ addedOf body = newOf body ++ [z] := by
    refine intercalate_inj (fun l hl => hnl l ?_) (fun l hl => hnl l ?_) (by simp) (by simp) hjoin
    · simp only [mem_append, mem_singleton] at hl ⊢
      rcases hl with (hl | hl) | hl
      · exact .inl (mem_text_of_mem_oldOf hl)
      · exact .inr hl
      · exact .inl (mem_text_of_mem_addedOf hl)
    · simp only [mem_append, mem_singleton] at hl ⊢
      exact hl.imp_left mem_text_of_mem_newOf
  by_contra hne
  have hlast := congrArg List.getLast? hlines
  rw [getLast?_append_of_ne_nil _ hne, getLast?_concat] at hlast
  exact hfresh (mem_text_of_mem_addedOf (mem_of_getLast? hlast))

/-- What is searched for may stand in the file before. Then it has to be replaced by itself. -/
theorem Means.same (hne : leading body ++ removedOf body ≠ [])
    (hshort : (leading body ++ removedOf body).length < (oldOf body).length) :
    newOf body = oldOf body ∧ addedOf body = removedOf body := by
  obtain ⟨z, hzne, hz, hfresh⟩ := exists_fresh (body.map text)
  have hanchor : z ∉ leading body ++ removedOf body := fun hmem =>
    hfresh (mem_text_of_mem_anchor hmem)
  have hnl : ∀ l, l ∈ body.map text ∨ l = z → '\n' ∉ l := by
    rintro l (hl | rfl)
    · exact hbody l hl
    · exact hz
  -- `z` keeps the old lines from standing any earlier
  have hfirst : ∀ pos, OccursAt (· = ·) ((leading body ++ removedOf body) ++ [z] ++
      (oldOf body ++ [z])) (oldOf body) pos →
      ((leading body ++ removedOf body) ++ [z]).length ≤ pos := by
    intro pos hocc
    obtain ⟨s, t, hfile, rfl⟩ := occursAt_eq_iff.mp hocc
    rw [length_append, length_singleton]
    by_contra hlt
    have hget := congrArg (·[(leading body ++ removedOf body).length]?) hfile
    simp only [append_assoc (leading body ++ removedOf body)] at hget
    rw [getElem?_append_right (by omega), Nat.sub_self, singleton_append,
      getElem?_cons_zero, getElem?_append_right (by omega),
      getElem?_append_left (by omega)] at hget
    exact hfresh (mem_text_of_mem_oldOf (mem_of_getElem? hget.symm))
  obtain ⟨-, result, happly, hjoin⟩ := h.applyHunk hpath hhead hheadLine hbody hz hzne _
    (fun l hl => hnl l (by
      rcases mem_append.mp hl with hl | hl
      · exact .inl (mem_text_of_mem_anchor hl)
      · exact .inr (mem_singleton.mp hl))) hfirst
  have htarget : IsTarget ((leading body ++ removedOf body) ++ [z] ++ (oldOf body ++ [z]))
      (anchor (hunkOf body)) 0 :=
    .inl ⟨occursAt_eq_iff.mpr ⟨[], [z] ++ (oldOf body ++ [z]), by simp [anchor_hunkOf], rfl⟩,
      fun _ _ => Nat.zero_le _⟩
  have hne' : anchor (hunkOf body) ≠ [] := hne
  rw [applyHunk_of_target hne' htarget, take_zero, Nat.zero_add,
    append_assoc (leading body ++ removedOf body), anchor_hunkOf, drop_left] at happly
  cases happly
  have hlines : (leading body ++ addedOf body) ++ z :: (oldOf body ++ [z]) =
      (leading body ++ removedOf body) ++ z :: (newOf body ++ [z]) := by
    have hjoin' : ['\n'].intercalate ((leading body ++ addedOf body) ++ z :: (oldOf body ++ [z])) =
        ['\n'].intercalate ((leading body ++ removedOf body) ++ z :: (newOf body ++ [z])) := by
      simpa [hunkOf, leading, addedOf] using hjoin
    refine intercalate_inj (fun l hl => hnl l ?_) (fun l hl => hnl l ?_) (by simp) (by simp) hjoin'
    · simp only [mem_append, mem_cons, not_mem_nil, or_false] at hl
      rcases hl with (hl | hl) | hl | hl | hl
      · exact .inl (mem_text_of_mem_anchor (mem_append_left _ hl))
      · exact .inl (mem_text_of_mem_addedOf hl)
      · exact .inr hl
      · exact .inl (mem_text_of_mem_oldOf hl)
      · exact .inr hl
    · simp only [mem_append, mem_cons, not_mem_nil, or_false] at hl
      rcases hl with hl | hl | hl | hl
      · exact .inl (mem_text_of_mem_anchor (mem_append.mpr hl))
      · exact .inr hl
      · exact .inl (mem_text_of_mem_newOf hl)
      · exact .inr hl
  have hadded : z ∉ leading body ++ addedOf body := by
    rw [mem_append, not_or]
    exact ⟨fun hl => hanchor (mem_append_left _ hl),
      fun hl => hfresh (mem_text_of_mem_addedOf hl)⟩
  obtain ⟨hfront, hback⟩ := append_cons_inj hadded hanchor hlines
  exact ⟨(append_cancel_right hback).symm, append_cancel_left hfront⟩

/-- If the file has nothing but the old lines, what is searched for must stand in them. -/
theorem Means.anchor_in_old (hne : leading body ++ removedOf body ≠ [])
    (hnew : newOf body = oldOf body) (hsame : addedOf body = removedOf body) :
    leading body ++ removedOf body <:+: oldOf body := by
  obtain ⟨z, hzne, hz, hfresh⟩ := exists_fresh (body.map text)
  obtain ⟨-, result, happly, hjoin⟩ := h.applyHunk hpath hhead hheadLine hbody hz hzne
    [] (by simp) fun pos _ => Nat.zero_le pos
  have hne' : anchor (hunkOf body) ≠ [] := hne
  obtain ⟨s, here, t, hfile, -, -, hresult⟩ := (applyHunk_eq_ok_iff hne' 0).mp happly
  rw [nil_append] at hfile hjoin
  have hresult' : result = s ++ ((leading body ++ removedOf body) ++ t) := by
    rw [hresult, ← hsame]
    rfl
  have hnl : ∀ l, l ∈ oldOf body ++ [z] → '\n' ∉ l := by
    intro l hl
    rcases mem_append.mp hl with hl | hl
    · exact hbody l (mem_text_of_mem_oldOf hl)
    · rw [mem_singleton.mp hl]
      exact hz
  have hresultNe : result ≠ [] := by
    rw [hresult']
    exact append_ne_nil_of_right_ne_nil _ (append_ne_nil_of_left_ne_nil hne _)
  have hlines : result = oldOf body ++ [z] := by
    rw [hnew] at hjoin
    refine intercalate_inj (fun l hl => ?_) hnl hresultNe (by simp) hjoin
    rw [hresult'] at hl
    simp only [mem_append] at hl
    rcases hl with hl | hl | hl
    · exact hnl l (by rw [hfile]; exact mem_append_left _ hl)
    · exact hbody l (mem_text_of_mem_anchor (mem_append.mpr hl))
    · exact hnl l (by rw [hfile]; exact mem_append_right _ (mem_append_right _ hl))
  -- the last line is `z`, which is not searched for
  rw [hresult'] at hlines
  rcases eq_nil_or_concat t with rfl | ⟨t, w, rfl⟩
  · have hlast := congrArg List.getLast? hlines
    rw [append_nil, getLast?_append_of_ne_nil _ hne, getLast?_concat] at hlast
    exact absurd (mem_text_of_mem_anchor (mem_of_getLast? hlast)) hfresh
  · refine ⟨s, t, ?_⟩
    have hlines' : s ++ (leading body ++ removedOf body) ++ t ++ [w] = oldOf body ++ [z] := by
      simpa using hlines
    exact (append_inj' hlines' rfl).1

end Converse

theorem length_oldOf (body : List BodyLine) :
    (oldOf body).length = (body.filterMap (·.context?)).length + (removedOf body).length := by
  induction body with
  | nil => rfl
  | cons b body ih =>
    cases b with
    | context l =>
      change (oldOf body).length + 1 = ((body.filterMap (·.context?)).length + 1) + _
      rw [ih]
      exact Nat.add_right_comm _ _ _
    | removed l => exact congrArg (· + 1) ih
    | added l => exact ih

/-- Context after the first change makes the old lines longer than what is searched for. -/
theorem anchor_shorter (h : ¬ ∀ b ∈ changes body, b.isContext = false) :
    (leading body ++ removedOf body).length < (oldOf body).length := by
  simp only [not_forall, Bool.not_eq_false] at h
  obtain ⟨b, hb, hcontext⟩ := h
  obtain ⟨l, hl⟩ := Option.isSome_iff_exists.mp hcontext
  have hpos : 0 < ((changes body).filterMap (·.context?)).length :=
    length_pos_of_mem (mem_filterMap.mpr ⟨b, hb, hl⟩)
  rw [(of_leading body).1, (of_leading body).2.2.1, length_append, length_append, length_oldOf]
  omega

theorem addedOf_ne_nil (hne : changes body ≠ []) (hrem : removedOf body = []) :
    addedOf body ≠ [] := by
  obtain ⟨b, rest, hchanges⟩ := exists_cons_of_ne_nil hne
  have hb : b.isContext = false := by
    have := head?_dropWhile_not (fun b : BodyLine => b.isContext) body
    rw [← changes, hchanges] at this
    simpa using this
  rw [(of_leading body).2.2.1, hchanges] at hrem
  rw [(of_leading body).2.2.2, hchanges]
  cases b with
  | context l => cases hb
  | removed l => cases hrem
  | added l => exact cons_ne_nil _ _

/-- **When a hunk does what its body means.** -/
theorem means_iff (path head : Line) (body : List BodyLine) (hpath : PlainPath path)
    (hhead : isHunkHead head = true) (hheadLine : '\n' ∉ head)
    (hbody : ∀ b ∈ body, '\n' ∉ text b) :
    Means path head body ↔ ContextPlain body ∧ (ChangesLast body ∨ ChangesNothing body) := by
  have hbody' : ∀ l ∈ body.map text, '\n' ∉ l := by
    intro l hl
    obtain ⟨b, hb, rfl⟩ := mem_map.mp hl
    exact hbody b hb
  refine ⟨fun h => ⟨?_, ?_⟩, ?_⟩
  · obtain ⟨z, hzne, hz, -⟩ := exists_fresh []
    exact (h.applyHunk hpath hhead hheadLine hbody' hz hzne [] (by simp)
      fun pos _ => Nat.zero_le pos).1
  · by_cases hanchor : leading body ++ removedOf body = []
    · have hadded := h.addedOf_eq_nil hpath hhead hheadLine hbody' hanchor
      obtain ⟨hlead, hrem⟩ := append_eq_nil_iff.mp hanchor
      have hchanges : changes body = [] := by
        by_contra hne
        exact addedOf_ne_nil hne hrem hadded
      left
      refine ⟨by simp [hchanges], fun _ => eq_nil_iff_forall_not_mem.mpr fun b hb => ?_⟩
      -- all of the body is context, and there is none
      rw [← @takeWhile_append_dropWhile _ (·.isContext) body, ← changes, hchanges, append_nil] at hb
      have hcontext : b.isContext = true := mem_takeWhile_imp hb
      obtain ⟨l, hl⟩ := Option.isSome_iff_exists.mp hcontext
      have hmem : l ∈ leading body := mem_filterMap.mpr ⟨b, hb, hl⟩
      rw [hlead] at hmem
      cases hmem
    · by_cases hlast : ∀ b ∈ changes body, b.isContext = false
      · left
        refine ⟨hlast, fun hold => absurd ?_ hanchor⟩
        rw [← (eq_of_changes_last hlast).1, hold]
      · right
        obtain ⟨hnew, hsame⟩ := h.same hpath hhead hheadLine hbody' hanchor (anchor_shorter hlast)
        exact ⟨hnew, hsame, h.anchor_in_old hpath hhead hheadLine hbody' hanchor hnew hsame⟩
  · rintro ⟨hplain, hchange⟩ patch content before after hpatch hcontent hfirst
    refine ⟨hunkOf body, ?_, ?_⟩
    · rw [parsePatch, hpatch, parseLines_patchLines hpath hhead hplain]
    · apply applyHunks_singleton
      rw [hcontent] at hfirst ⊢
      rcases hchange with hchange | hchange
      · exact applyHunk_of_changesLast hchange hfirst
      · exact applyHunk_of_changesNothing hchange before after

/-- Context before the change: the hunk does what it says. -/
theorem means_context_before :
    Means ['f'] "@@".toList [.context ['a'], .removed ['b'], .added ['c']] := by
  refine (means_iff ['f'] "@@".toList _ plainPath_f (by decide) (by decide) (by decide)).mpr
    ⟨?_, .inl ⟨by decide, by decide⟩⟩
  intro b hb l hl
  simp only [mem_cons, not_mem_nil, or_false] at hb
  rcases hb with rfl | rfl | rfl
  · rw [← Option.some.inj hl]
    decide
  · cases hl
  · cases hl

/-- Context after the change is ignored, a second change fails, an addition is misplaced. -/
theorem context_after_ignored :
    ¬ Means ['f'] "@@".toList [.removed ['a'], .context ['b']] ∧
    applyHunks "a\nc\na\nb\n".toList [hunkOf [.removed ['a'], .context ['b']]] =
      .ok "c\na\nb\n".toList ∧
    applyHunks "a\nb\nc\n".toList [hunkOf [.removed ['a'], .context ['b'], .removed ['c']]] =
      .error (.notFound "Hunk 1 failed: could not find context/old lines in file") ∧
    applyHunks "b\nc\n".toList [hunkOf [.added ['x'], .context ['b']]] =
      .ok "b\nc\nx\n".toList := by
  refine ⟨fun h => ?_, by decide +kernel, by decide +kernel, by decide +kernel⟩
  have hfirst : firstMatch (fun a b : Line => a == b) (lines "a\nc\na\nb\n".toList)
      [['a'], ['b']] = some 2 := by decide +kernel
  obtain ⟨-, hleast⟩ := firstMatch_eq_some_iff.mp hfirst
  obtain ⟨hunk, hparse, happly⟩ := h
    "*** Begin Patch\n*** Update File: f\n@@\n-a\n b\n*** End Patch\n".toList
    "a\nc\na\nb\n".toList [['a'], ['c']] [] (by decide +kernel) (by decide +kernel)
    fun pos hpos => hleast (hpos.imp fun _ _ => beq_iff_eq.mpr)
  have hread :
      parsePatch "*** Begin Patch\n*** Update File: f\n@@\n-a\n b\n*** End Patch\n".toList =
      .ok [.updateFile ['f'] none [⟨[], [['a']], [], [['b']]⟩]] := by decide +kernel
  rw [hread] at hparse
  obtain rfl : (⟨[], [['a']], [], [['b']]⟩ : Hunk) = hunk := by simpa using hparse
  exact absurd happly (by decide +kernel)

end AlloyAgent.PatchMeaning
