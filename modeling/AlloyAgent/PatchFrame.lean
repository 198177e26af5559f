import AlloyAgent.PatchHunks

/-!
# What hunks leave alone

`apply_hunks` takes the file apart with `lines`, puts the patched lines together again with a
newline between any two of them, and adds one at the end if the file ended with one.

* `Tracked`: lines that remember where they come from;
* `preserves_iff`: the files of which untouched lines keep everything;
* `frame_iff`: those of which they do so whatever the patch is.
-/

namespace AlloyAgent.PatchFrame

open List RustStr TextLines PatchHunks

/-- A line and, if it is untouched, its terminator in the file. -/
abbrev Tracked := Line × Option Terminator

def fresh (l : Line) : Tracked := (l, none)

def track (p : Line × Terminator) : Tracked := (p.1, some p.2)

def trackedLines (content : List Char) : List Tracked := (terminated content).map track

def Edits (hunk : Hunk) (ts ts' : List Tracked) : Prop :=
  if anchor hunk = [] then ts' = ts ++ hunk.newLines.map fresh
  else ∃ before here after, ts = before ++ (here ++ after) ∧
    here.length = (anchor hunk).length ∧ IsTarget (ts.map Prod.fst) (anchor hunk) before.length ∧
    ts' = before ++ ((hunk.contextBefore ++ hunk.newLines).map fresh ++ after)

def EditsAll : List Hunk → List Tracked → List Tracked → Prop
  | [], ts, ts' => ts' = ts
  | hunk :: hunks, ts, ts' => ∃ mid, Edits hunk ts mid ∧ EditsAll hunks mid ts'

@[simp] theorem map_fst_fresh (ls : List Line) : (ls.map fresh).map Prod.fst = ls := by
  simp [fresh, Function.comp_def]

@[simp] theorem map_fst_track (ps : List (Line × Terminator)) :
    (ps.map track).map Prod.fst = ps.map Prod.fst := by
  rw [map_map]
  rfl

theorem map_fst_trackedLines (content : List Char) :
    (trackedLines content).map Prod.fst = lines content := by
  rw [trackedLines, map_fst_track, map_fst_terminated]

variable {hunk : Hunk} {ts ts' : List Tracked}

theorem Edits.applies (h : Edits hunk ts ts') :
    Applies hunk (ts.map Prod.fst) (ts'.map Prod.fst) := by
  by_cases hnil : anchor hunk = []
  · rw [Edits, if_pos hnil] at h
    rw [Applies, if_pos hnil, h, map_append, map_fst_fresh]
  · rw [Edits, if_neg hnil] at h
    rw [Applies, if_neg hnil]
    obtain ⟨before, here, after, rfl, hlen, htarget, rfl⟩ := h
    refine ⟨before.map Prod.fst, here.map Prod.fst, after.map Prod.fst, ?_, ?_, ?_, ?_⟩
    · rw [map_append, map_append]
    · rw [length_map, hlen]
    · rwa [length_map]
    · rw [map_append, map_append, map_fst_fresh]

variable {ls : List Line}

theorem exists_edits (h : Applies hunk (ts.map Prod.fst) ls) :
    ∃ ts', Edits hunk ts ts' ∧ ts'.map Prod.fst = ls := by
  by_cases hnil : anchor hunk = []
  · rw [Applies, if_pos hnil] at h
    simp only [Edits, if_pos hnil]
    exact ⟨_, rfl, by rw [h, map_append, map_fst_fresh]⟩
  · rw [Applies, if_neg hnil] at h
    simp only [Edits, if_neg hnil]
    obtain ⟨pos, htarget, rfl⟩ := rewrites_iff.mp h
    have hbounds := htarget.length_le
    rw [length_map] at hbounds
    refine ⟨_, ⟨ts.take pos, (ts.drop pos).take (anchor hunk).length,
      ts.drop (pos + (anchor hunk).length), ?_, ?_, ?_, rfl⟩, ?_⟩
    · rw [← drop_drop, take_append_drop, take_append_drop]
    · rw [length_take, length_drop]
      omega
    · rwa [length_take_of_le (by omega)]
    · rw [map_append, map_append, map_fst_fresh, map_take, map_drop,
        append_assoc (List.take _ _)]

theorem Edits.unique (h₁ : Edits hunk ts ts₁) (h₂ : Edits hunk ts ts₂) : ts₁ = ts₂ := by
  rw [Edits] at h₁ h₂
  split at h₁
  · rw [if_pos ‹_›] at h₂
    rw [h₁, h₂]
  · rw [if_neg ‹_›] at h₂
    obtain ⟨b₁, m₁, a₁, hts₁, hlen₁, htarget₁, rfl⟩ := h₁
    obtain ⟨b₂, m₂, a₂, hts₂, hlen₂, htarget₂, rfl⟩ := h₂
    have hpos := htarget₁.unique htarget₂
    obtain ⟨rfl, hrest⟩ := append_inj (hts₁.symm.trans hts₂) hpos
    obtain ⟨-, rfl⟩ := append_inj hrest (hlen₁.trans hlen₂.symm)
    rfl

variable {hunks : List Hunk}

theorem EditsAll.unique (h₁ : EditsAll hunks ts ts₁) (h₂ : EditsAll hunks ts ts₂) : ts₁ = ts₂ := by
  induction hunks generalizing ts with
  | nil => exact h₁.trans h₂.symm
  | cons hunk hunks ih =>
    obtain ⟨mid₁, hmid₁, h₁⟩ := h₁
    obtain ⟨mid₂, hmid₂, h₂⟩ := h₂
    obtain rfl := hmid₁.unique hmid₂
    exact ih h₁ h₂

theorem appliesAll_iff :
    AppliesAll hunks (ts.map Prod.fst) ls ↔
      ∃ ts', EditsAll hunks ts ts' ∧ ts'.map Prod.fst = ls := by
  induction hunks generalizing ts with
  | nil =>
    refine ⟨fun h => ⟨ts, rfl, h.symm⟩, ?_⟩
    rintro ⟨ts', rfl, rfl⟩
    rfl
  | cons hunk hunks ih =>
    refine ⟨?_, ?_⟩
    · rintro ⟨mid, hmid, hrest⟩
      obtain ⟨mid', hmid', rfl⟩ := exists_edits hmid
      obtain ⟨ts', hts', rfl⟩ := ih.mp hrest
      exact ⟨ts', ⟨mid', hmid', hts'⟩, rfl⟩
    · rintro ⟨ts', ⟨mid, hmid, hts'⟩, rfl⟩
      exact ⟨mid.map Prod.fst, hmid.applies, ih.mpr ⟨ts', hts', rfl⟩⟩

variable {content : List Char}

theorem applyHunks_eq_ok_iff :
    applyHunks content hunks = .ok result ↔
      ∃ ts, EditsAll hunks (trackedLines content) ts ∧
        result = joinLines (endsWithNewline content) (ts.map Prod.fst) := by
  rw [applyHunks, Outcome.bind_eq_ok]
  refine ⟨?_, ?_⟩
  · rintro ⟨patched, hpatched, hresult⟩
    rw [applyFrom_eq_ok_iff, ← map_fst_trackedLines, appliesAll_iff] at hpatched
    obtain ⟨ts, hts, rfl⟩ := hpatched
    exact ⟨ts, hts, (Except.ok.inj hresult).symm⟩
  · rintro ⟨ts, hts, rfl⟩
    refine ⟨ts.map Prod.fst, ?_, rfl⟩
    rw [applyFrom_eq_ok_iff, ← map_fst_trackedLines, appliesAll_iff]
    exact ⟨ts, hts, rfl⟩

/-- The text is made up of the tracked lines; untouched ones keep their terminators. -/
def Preserves (ts : List Tracked) (result : List Char) : Prop :=
  (∃ q ∈ ts, q.2 ≠ none) →
    ∃ ls : List (Line × Terminator),
      List.Forall₂ (fun p q => p.1 = q.1 ∧ ∀ t ∈ q.2, p.2 = t) ls ts ∧
      (∀ p ∈ ls.dropLast, p.2 ≠ .eof) ∧ result = assemble ls

/-- How the last line of the result ends. -/
def lastTerminator (trailingNewline : Bool) (ls : List Line) : Terminator :=
  if trailingNewline && (['\n'].intercalate ls).getLast? != some '\n' then .lf else .eof

theorem intercalate_concat (ls : List Line) (l : Line) :
    ['\n'].intercalate (ls ++ [l]) = ls.flatMap (· ++ ['\n']) ++ l := by
  induction ls with
  | nil => simp [List.intercalate]
  | cons x ls ih =>
    obtain ⟨y, ys, hys⟩ : ∃ y ys, ls ++ [l] = y :: ys := by
      cases ls with
      | nil => exact ⟨l, [], rfl⟩
      | cons y ls => exact ⟨y, ls ++ [l], rfl⟩
    rw [cons_append, hys, List.intercalate, intersperse_cons_cons, ← hys,
      flatten_cons, flatten_cons, ← List.intercalate, ih]
    simp

theorem joinLines_concat (trailingNewline : Bool) (ls : List Line) (l : Line) :
    joinLines trailingNewline (ls ++ [l]) =
      assemble (ls.map (·, .lf) ++ [(l, lastTerminator trailingNewline (ls ++ [l]))]) := by
  have hinit : assemble (ls.map (·, Terminator.lf)) = ls.flatMap (· ++ ['\n']) := by
    rw [assemble, flatMap_map]
    rfl
  rw [assemble_append, hinit, assemble_cons, assemble_nil, append_nil, ← append_assoc,
    ← intercalate_concat, joinLines, lastTerminator]
  split
  · rfl
  · exact (append_nil _).symm

variable {p : Line × Terminator}

theorem ne_eof_of_mem_joined (hp : p ∈ (ls.map (·, Terminator.lf) ++ [(l, t)]).dropLast) :
    p.2 ≠ .eof := by
  rw [dropLast_concat] at hp
  obtain ⟨x, -, rfl⟩ := mem_map.mp hp
  exact nofun

theorem lastTerminator_blank (hne : ls ≠ []) (trailingNewline : Bool) :
    lastTerminator trailingNewline (ls ++ [[]]) = .eof := by
  rcases eq_nil_or_concat ls with rfl | ⟨ls, l, rfl⟩
  · exact absurd rfl hne
  · rw [lastTerminator, intercalate_concat, concat_eq_append]
    simp

theorem lastTerminator_concat (hnl : '\n' ∉ l) (hblank : l = [] → ls = []) :
    lastTerminator true (ls ++ [l]) = .lf := by
  rw [lastTerminator, intercalate_concat]
  by_cases hl : l = []
  · rw [hblank hl, hl]
    rfl
  · rw [getLast?_append_of_ne_nil _ hl, if_pos]
    have hlast : l.getLast? ≠ some '\n' := fun hlast => hnl (mem_of_getLast? hlast)
    simpa using hlast

/-- **When the untouched lines come out as they went in.** -/
theorem preserves_iff :
    Preserves ts (joinLines trailingNewline (ts.map Prod.fst)) ↔
      (∀ q ∈ ts.dropLast, ∀ t ∈ q.2, t = .lf) ∧
      ∀ q ∈ ts.getLast?, ∀ t ∈ q.2, t = lastTerminator trailingNewline (ts.map Prod.fst) := by
  rcases eq_nil_or_concat ts with rfl | ⟨ts, q, rfl⟩
  · simp [Preserves]
  rw [concat_eq_append, dropLast_concat, getLast?_concat, map_append,
    map_singleton, joinLines_concat]
  refine ⟨fun h => ?_, fun ⟨hinit, hlast⟩ _ => ?_⟩
  · by_cases hnone : ∃ q' ∈ ts ++ [q], q'.2 ≠ none
    · obtain ⟨ls, hls, heof, heq⟩ := h hnone
      have hfst : ls.map Prod.fst = (ts ++ [q]).map Prod.fst := by
        rw [← forall₂_eq_eq_eq, forall₂_map_left_iff, forall₂_map_right_iff]
        exact hls.imp fun _ _ h => h.1
      -- the terminators can be read off the text
      have huniq := assemble_inj (by simp [hfst, Function.comp_def])
        (fun p => ne_eof_of_mem_joined) heof heq
      rw [← huniq, map_map] at hls
      have hinit := forall₂_take_append _ ts [q] hls
      have hlast := forall₂_drop_append _ ts [q] hls
      rw [take_left' (length_map _), forall₂_map_left_iff,
        forall₂_same] at hinit
      rw [drop_left' (length_map _)] at hlast
      refine ⟨fun q' hq' t ht => ((hinit q' hq').2 t ht).symm, fun q' hq' t ht => ?_⟩
      cases hq'
      cases hlast with
      | cons h _ => exact (h.2 t ht).symm
    · simp only [not_exists, not_and, not_not] at hnone
      refine ⟨fun q' hq' t ht => ?_, fun q' hq' t ht => ?_⟩
      · rw [hnone q' (mem_append_left _ hq')] at ht
        cases ht
      · cases hq'
        rw [hnone q (by simp)] at ht
        cases ht
  · refine ⟨_, rel_append ?_ (.cons ⟨rfl, fun t ht => (hlast q rfl t ht).symm⟩ .nil),
      fun p => ne_eof_of_mem_joined, rfl⟩
    rw [map_map, forall₂_map_left_iff, forall₂_same]
    exact fun q' hq' => ⟨rfl, fun t ht => (hinit q' hq' t ht).symm⟩

/-! ## Files whose lines are safe -/

/-- Whatever the hunks are, the lines that they do not touch come out as they went in. -/
def Frame (content : List Char) : Prop :=
  ∀ (hunks : List Hunk) (result : List Char), applyHunks content hunks = .ok result →
    ∃ ts, EditsAll hunks (trackedLines content) ts ∧ Preserves ts result

/-- Every line ends with a newline alone, and no line but the first is blank. -/
def PlainLines (content : List Char) : Prop :=
  (∀ p ∈ terminated content, p.2 = .lf) ∧ ∀ p ∈ (terminated content).tail, p.1 ≠ []

theorem Frame.preserves (h : Frame content) (hts : EditsAll hunks (trackedLines content) ts) :
    (∀ q ∈ ts.dropLast, ∀ t ∈ q.2, t = .lf) ∧
      ∀ q ∈ ts.getLast?, ∀ t ∈ q.2,
        t = lastTerminator (endsWithNewline content) (ts.map Prod.fst) := by
  obtain ⟨ts', hts', hpres⟩ := h hunks _ (applyHunks_eq_ok_iff.mpr ⟨ts, hts, rfl⟩)
  obtain rfl := hts.unique hts'
  exact preserves_iff.mp hpres

theorem Frame.all_lf (h : Frame content) : ∀ p ∈ terminated content, p.2 = .lf := by
  intro p hp
  have hedit : Edits ⟨[], [], [['x']], []⟩ (trackedLines content)
      (trackedLines content ++ [fresh ['x']]) := by
    rfl
  have hts : EditsAll [⟨[], [], [['x']], []⟩] (trackedLines content)
      (trackedLines content ++ [fresh ['x']]) := ⟨_, hedit, rfl⟩
  refine (h.preserves hts).1 (p.1, some p.2) ?_ p.2 rfl
  rw [dropLast_concat]
  exact mem_map_of_mem hp

theorem exists_last_split {α : Type} {P : α → Prop} {l : List α} (h : ∃ a ∈ l, P a) :
    ∃ s a t, l = s ++ a :: t ∧ P a ∧ ∀ b ∈ t, ¬ P b := by
  induction l with
  | nil => simp at h
  | cons x l ih =>
    by_cases hl : ∃ a ∈ l, P a
    · obtain ⟨s, a, t, rfl, ha, ht⟩ := ih hl
      exact ⟨x :: s, a, t, rfl, ha, ht⟩
    · obtain ⟨a, ha, hPa⟩ := h
      rcases mem_cons.mp ha with rfl | ha
      · exact ⟨[], a, l, rfl, hPa, fun b hb hPb => hl ⟨b, hb, hPb⟩⟩
      · exact absurd ⟨a, ha, hPa⟩ hl

theorem edits_front {front rest : List Tracked} (hne : front ≠ []) (w : Line) :
    Edits ⟨[], front.map Prod.fst, [w], []⟩ (front ++ rest) (fresh w :: rest) := by
  have hanchor : anchor ⟨[], front.map Prod.fst, [w], []⟩ = front.map Prod.fst := rfl
  rw [Edits, if_neg (by rw [hanchor]; simpa using hne), hanchor]
  refine ⟨[], front, rest, rfl, by simp, .inl ⟨?_, fun _ _ => Nat.zero_le _⟩, rfl⟩
  exact occursAt_eq_iff.mpr ⟨[], rest.map Prod.fst, by simp, rfl⟩

theorem edits_back {w : Line} {blank : Tracked} {rest : List Tracked} (hne : rest ≠ [])
    (hw : w ∉ rest.map Prod.fst) (hblank : blank.1 ∉ rest.map Prod.fst) :
    Edits ⟨[], rest.map Prod.fst, [], []⟩ (fresh w :: blank :: rest) [fresh w, blank] := by
  have hanchor : anchor ⟨[], rest.map Prod.fst, [], []⟩ = rest.map Prod.fst := rfl
  rw [Edits, if_neg (by rw [hanchor]; simpa using hne), hanchor]
  refine ⟨[fresh w, blank], rest, [], by simp, by simp, .inl ⟨?_, fun pos hpos => ?_⟩, by simp⟩
  · exact occursAt_eq_iff.mpr ⟨[w, blank.1], [], by simp [fresh], rfl⟩
  · -- the first line of what is removed is neither of the two before it
    obtain ⟨first, others, hfirst⟩ := exists_cons_of_ne_nil
      (by simpa using hne : rest.map Prod.fst ≠ [])
    obtain ⟨s, t, hfile, rfl⟩ := occursAt_eq_iff.mp hpos
    rw [hfirst] at hw hblank hfile
    rcases s with _ | ⟨a, _ | ⟨b, s⟩⟩
    · exact absurd (by simp [← (List.cons.inj hfile).1, fresh]) hw
    · exact absurd (by simp [← (List.cons.inj (List.cons.inj hfile).2).1]) hblank
    · simp

theorem Frame.tail_not_blank (h : Frame content) : ∀ p ∈ (terminated content).tail, p.1 ≠ [] := by
  intro p hp hblank
  obtain ⟨s, a, t, htail, ha, ht⟩ := exists_last_split
    (P := fun p : Line × Terminator => p.1 = []) ⟨p, hp, hblank⟩
  obtain ⟨x, tail, hlines⟩ : ∃ x tail, terminated content = x :: tail :=
    exists_cons_of_ne_nil (by rintro hnil; rw [hnil] at hp; cases hp)
  rw [hlines, tail_cons] at htail
  have hlf : a.2 = .lf := h.all_lf a (by rw [hlines, htail]; simp)
  obtain ⟨w, -, -, hw⟩ := exists_fresh (t.map Prod.fst)
  -- first make sure that something stands before the blank line, then remove what follows it
  have hfront : Edits ⟨[], ((x :: s).map track).map Prod.fst, [w], []⟩ (trackedLines content)
      (fresh w :: track a :: t.map track) := by
    have hsplit : trackedLines content = (x :: s).map track ++ (track a :: t.map track) := by
      rw [trackedLines, hlines, htail, ← cons_append, map_append, map_cons,
        map_cons]
    rw [hsplit]
    exact edits_front (by simp) w
  have hrun : ∃ hunks, EditsAll hunks (trackedLines content) [fresh w, track a] := by
    by_cases hnil : t = []
    · rw [hnil] at hfront
      exact ⟨[_], _, hfront, rfl⟩
    · refine ⟨[_, _], _, hfront, _, edits_back (by simpa using hnil) ?_ ?_, rfl⟩
      · rwa [map_fst_track]
      · rw [map_fst_track]
        intro hmem
        obtain ⟨b, hb, hb'⟩ := mem_map.mp hmem
        exact ht b hb (hb'.trans ha)
  obtain ⟨hunks, hrun⟩ := hrun
  have hlast := (h.preserves hrun).2 (track a) rfl a.2 rfl
  have hlines' : [fresh w, track a].map Prod.fst = [w] ++ [[]] := by simp [fresh, track, ha]
  rw [hlf, hlines', lastTerminator_blank (by simp)] at hlast
  cases hlast

/-- An untouched line ends with a newline alone, and is not blank unless it is the first one. -/
structure Safe (ts : List Tracked) : Prop where
  lf : ∀ q ∈ ts, ∀ t ∈ q.2, t = .lf
  noNewline : ∀ q ∈ ts, q.2 ≠ none → '\n' ∉ q.1
  notBlank : ∀ q ∈ ts.tail, q.2 ≠ none → q.1 ≠ []

theorem safe_trackedLines (h : PlainLines content) : Safe (trackedLines content) := by
  refine ⟨fun q hq t ht => ?_, fun q hq _ => ?_, fun q hq _ => ?_⟩
  · obtain ⟨p, hp, rfl⟩ := mem_map.mp hq
    rw [← Option.some.inj ht]
    exact h.1 p hp
  · obtain ⟨p, hp, rfl⟩ := mem_map.mp hq
    exact newline_notMem_of_mem_terminatedGo not_mem_nil hp
  · rw [trackedLines, ← map_tail] at hq
    obtain ⟨p, hp, rfl⟩ := mem_map.mp hq
    exact h.2 p hp

theorem Edits.mem (h : Edits hunk ts ts') (hq : q.2 ≠ none) :
    (q ∈ ts' → q ∈ ts) ∧ (q ∈ ts'.tail → q ∈ ts.tail) := by
  have hfresh : ∀ ls : List Line, q ∉ ls.map fresh := by
    intro ls hmem
    obtain ⟨l, -, rfl⟩ := mem_map.mp hmem
    exact hq rfl
  by_cases hnil : anchor hunk = []
  · rw [Edits, if_pos hnil] at h
    subst h
    refine ⟨fun hmem => ?_, fun hmem => ?_⟩
    · exact (mem_append.mp hmem).resolve_right (hfresh _)
    · cases ts with
      | nil => exact absurd (mem_of_mem_tail hmem) (hfresh _)
      | cons x ts => exact (mem_append.mp hmem).resolve_right (hfresh _)
  · rw [Edits, if_neg hnil] at h
    obtain ⟨before, here, after, rfl, hlen, -, rfl⟩ := h
    refine ⟨fun hmem => ?_, fun hmem => ?_⟩
    · rcases mem_append.mp hmem with hmem | hmem
      · exact mem_append_left _ hmem
      · exact mem_append_right _ (mem_append_right _
          ((mem_append.mp hmem).resolve_left (hfresh _)))
    · cases before with
      | nil =>
        -- the anchor is not empty, so what follows it is not the first line
        rw [nil_append] at hmem
        have hmem' := (mem_append.mp (mem_of_mem_tail hmem)).resolve_left (hfresh _)
        cases here with
        | nil => exact absurd (length_eq_zero_iff.mp hlen.symm) hnil
        | cons x here => exact mem_append_right _ hmem'
      | cons x before =>
        rcases mem_append.mp hmem with hmem | hmem
        · exact mem_append_left _ hmem
        · exact mem_append_right _ (mem_append_right _
            ((mem_append.mp hmem).resolve_left (hfresh _)))

theorem Safe.edits (hs : Safe ts) (h : Edits hunk ts ts') : Safe ts' := by
  refine ⟨fun q hq t ht => ?_, fun q hq hne => ?_, fun q hq hne => ?_⟩
  · have hne : q.2 ≠ none := by
      rw [ht]
      exact nofun
    exact hs.lf q ((h.mem hne).1 hq) t ht
  · exact hs.noNewline q ((h.mem hne).1 hq) hne
  · exact hs.notBlank q ((h.mem hne).2 hq) hne

theorem Safe.editsAll (hs : Safe ts) (h : EditsAll hunks ts ts') : Safe ts' := by
  induction hunks generalizing ts with
  | nil => exact h ▸ hs
  | cons hunk hunks ih =>
    obtain ⟨mid, hmid, hrest⟩ := h
    exact ih (hs.edits hmid) hrest

theorem EditsAll.mem (h : EditsAll hunks ts ts') (hq : q.2 ≠ none) (hmem : q ∈ ts') : q ∈ ts := by
  induction hunks generalizing ts with
  | nil => exact h ▸ hmem
  | cons hunk hunks ih =>
    obtain ⟨mid, hmid, hrest⟩ := h
    exact (hmid.mem hq).1 (ih hrest)

theorem endsWithNewline_iff (h : (terminated content).getLast? = some p) :
    endsWithNewline content = true ↔ p.2 ≠ .eof := by
  have hnl : '\n' ∉ ([] : List Char) := not_mem_nil
  have hlast := getLast?_terminatedGo_eof (l := p.1) (t := p.2) h hnl
  rw [reverse_nil, nil_append] at hlast
  rw [endsWithNewline, beq_iff_eq, ne_eq, hlast, not_not]

theorem frame_of_plainLines (h : PlainLines content) : Frame content := by
  intro hunks result hresult
  obtain ⟨ts, hts, rfl⟩ := applyHunks_eq_ok_iff.mp hresult
  have hsafe := (safe_trackedLines h).editsAll hts
  refine ⟨ts, hts, preserves_iff.mpr
    ⟨fun q hq => hsafe.lf q (mem_of_mem_dropLast hq), fun q hq t ht => ?_⟩⟩
  have hne : q.2 ≠ none := by
    rw [ht]
    exact nofun
  have hmem := mem_of_getLast? hq
  have hends : endsWithNewline content = true := by
    obtain ⟨p, hp, -⟩ := mem_map.mp (hts.mem hne hmem)
    obtain ⟨last, hlast⟩ : ∃ last, (terminated content).getLast? = some last :=
      ⟨_, getLast?_eq_some_getLast (ne_nil_of_mem hp)⟩
    rw [endsWithNewline_iff hlast, h.1 last (mem_of_getLast? hlast)]
    exact nofun
  obtain ⟨init, rfl⟩ := getLast?_eq_some_iff.mp hq
  rw [hsafe.lf q hmem t ht, hends, map_append, map_singleton,
    lastTerminator_concat (hsafe.noNewline q hmem hne)]
  intro hblank
  cases init with
  | nil => rfl
  | cons x init => exact absurd hblank (hsafe.notBlank q (by simp) hne)

/-! ## Hunks that change nothing -/

/-- A hunk that puts in what it takes out, and finds it exactly. -/
def Idle (fileLines : List Line) (hunk : Hunk) : Prop :=
  hunk.newLines = hunk.oldLines ∧ ∃ p, OccursAt (· = ·) fileLines (anchor hunk) p

theorem applyFrom_of_idle (h : ∀ hunk ∈ hunks, Idle fileLines hunk) (hunkIdx : ℕ) :
    applyFrom hunkIdx fileLines hunks = .ok fileLines := by
  induction hunks generalizing hunkIdx with
  | nil => rfl
  | cons hunk hunks ih =>
    rw [forall_mem_cons] at h
    rw [applyFrom, applyHunk_of_same h.1.1 h.1.2]
    exact ih h.2 (hunkIdx + 1)

/-- No line ends with a carriage return and a newline, and none is blank but a single one. -/
def Restorable (content : List Char) : Prop :=
  (∀ p ∈ terminated content, p.2 ≠ .crlf) ∧
    ∀ p ∈ (terminated content).getLast?, p.1 = [] → (terminated content).length = 1

/-- The last line gets its terminator back, but for `\r\n` and a blank last line. -/
theorem lastTerminator_eq_iff (hconcat : terminated content = init ++ [p]) :
    lastTerminator (endsWithNewline content) (init.map Prod.fst ++ [p.1]) = p.2 ↔
      p.2 ≠ .crlf ∧ (p.1 = [] → init = []) := by
  have hlast : (terminated content).getLast? = some p := by rw [hconcat, getLast?_concat]
  have hp : p ∈ terminatedGo [] content := mem_of_getLast? hlast
  have hends := endsWithNewline_iff hlast
  cases ht : p.2 with
  | crlf =>
    rw [lastTerminator]
    split <;> simp
  | eof =>
    have hfalse : endsWithNewline content = false := by simpa [ht] using hends
    rw [hfalse]
    exact iff_of_true rfl ⟨nofun, fun h => absurd h (ne_nil_of_mem_terminatedGo hp ht)⟩
  | lf =>
    have htrue : endsWithNewline content = true := by simp [ht] at hends; exact hends
    rw [htrue]
    refine ⟨fun h => ⟨nofun, fun hblank => ?_⟩, fun h => ?_⟩
    · by_contra hne
      rw [hblank, lastTerminator_blank (by simpa using hne)] at h
      cases h
    · exact lastTerminator_concat (newline_notMem_of_mem_terminatedGo not_mem_nil hp)
        fun hblank => by rw [h.2 hblank]; rfl

theorem joinLines_lines_iff (content : List Char) :
    joinLines (endsWithNewline content) (lines content) = content ↔ Restorable content := by
  rcases eq_nil_or_concat (terminated content) with hnil | ⟨init, p, hconcat⟩
  · have hcontent := assemble_terminated content
    rw [hnil] at hcontent
    subst hcontent
    exact iff_of_true rfl ⟨fun q hq => absurd hq not_mem_nil, nofun⟩
  rw [concat_eq_append] at hconcat
  have hinit : ∀ q ∈ init, q.2 ≠ .eof := fun q hq =>
    ne_eof_of_mem_dropLast (by rw [← terminated, hconcat, dropLast_concat]; exact hq)
  -- the terminators can be read off the text
  have heq : joinLines (endsWithNewline content) (lines content) = content ↔
      init.map (fun q => (q.1, Terminator.lf)) ++
        [(p.1, lastTerminator (endsWithNewline content) (init.map Prod.fst ++ [p.1]))] =
      init ++ [p] := by
    have hjoin : joinLines (endsWithNewline content) (lines content) =
        assemble (init.map (fun q => (q.1, Terminator.lf)) ++
          [(p.1, lastTerminator (endsWithNewline content) (init.map Prod.fst ++ [p.1]))]) := by
      rw [← map_fst_terminated, hconcat, map_append, map_singleton, joinLines_concat,
        map_map]
      rfl
    have hcontent : content = assemble (init ++ [p]) := by
      rw [← hconcat, assemble_terminated]
    refine ⟨fun h => ?_, fun h => by rw [hjoin, h, ← hcontent]⟩
    rw [hjoin] at h
    refine assemble_inj (by simp [Function.comp_def]) (fun q hq => ?_) ?_ (h.trans hcontent)
    · rw [dropLast_concat] at hq
      obtain ⟨x, -, rfl⟩ := mem_map.mp hq
      exact nofun
    · rwa [dropLast_concat]
  have hcrlf : (∀ q ∈ init, q.2 = .lf) ↔ ∀ q ∈ init, q.2 ≠ .crlf := by
    refine forall₂_congr fun q hq => ⟨fun h => h ▸ nofun, fun h => ?_⟩
    cases ht : q.2 with
    | lf => rfl
    | crlf => exact absurd ht h
    | eof => exact absurd ht (hinit q hq)
  have hmap : init.map (fun q => (q.1, Terminator.lf)) = init ↔ ∀ q ∈ init, q.2 = .lf := by
    have hid := map_inj_left (l := init) (f := fun q => (q.1, Terminator.lf)) (g := id)
    rw [map_id] at hid
    rw [hid]
    exact forall₂_congr fun q _ => by simp [Prod.ext_iff, eq_comm]
  rw [heq, Restorable, hconcat, getLast?_concat]
  refine ⟨fun h => ?_, fun ⟨hall, hblank⟩ => ?_⟩
  · obtain ⟨hfront, hback⟩ := append_inj h (length_map _)
    obtain ⟨hp', hblank⟩ := (lastTerminator_eq_iff hconcat).mp
      (congrArg Prod.snd (List.cons.inj hback).1)
    refine ⟨fun q hq => ?_, fun q hq hq' => ?_⟩
    · rcases mem_append.mp hq with hq | hq
      · exact hcrlf.mp (hmap.mp hfront) q hq
      · rwa [mem_singleton.mp hq]
    · cases hq
      rw [hblank hq']
      rfl
  · rw [hmap.mpr (hcrlf.mpr fun q hq => hall q (mem_append_left _ hq)),
      (lastTerminator_eq_iff hconcat).mpr ⟨hall p (by simp), fun h => ?_⟩]
    simpa using hblank p rfl h

/-- **For which files hunks leave alone what they do not touch.** -/
theorem frame_iff (content : List Char) :
    (Frame content ↔ PlainLines content) ∧
    ∀ hunks : List Hunk, (∀ hunk ∈ hunks, Idle (lines content) hunk) →
      (applyHunks content hunks = .ok content ↔ Restorable content) := by
  refine ⟨⟨fun h => ⟨h.all_lf, h.tail_not_blank⟩, frame_of_plainLines⟩, fun hunks hidle => ?_⟩
  rw [applyHunks, applyFrom_of_idle hidle, ← joinLines_lines_iff]
  exact ⟨Except.ok.inj, congrArg Except.ok⟩

theorem frame_iff_newlines :
    Idle (lines ['a', '\n', 'b', '\n']) ⟨[['a']], [['b']], [['b']], []⟩ ∧
    (applyHunks ['a', '\n', 'b', '\n'] [⟨[['a']], [['b']], [['b']], []⟩] =
        .ok ['a', '\n', 'b', '\n'] ↔ Restorable ['a', '\n', 'b', '\n']) := by
  have hidle : Idle (lines ['a', '\n', 'b', '\n']) ⟨[['a']], [['b']], [['b']], []⟩ :=
    ⟨rfl, 0, occursAt_eq_iff.mpr ⟨[], [], rfl, rfl⟩⟩
  exact ⟨hidle, (frame_iff _).2 _ (by simpa using hidle)⟩

/-- A hunk that changes nothing changes the ends of lines and the end of the file. -/
theorem terminators_lost :
    Idle (lines ['a', '\r', '\n', 'b', '\r', '\n']) ⟨[], [['a']], [['a']], []⟩ ∧
    applyHunks ['a', '\r', '\n', 'b', '\r', '\n'] [⟨[], [['a']], [['a']], []⟩] =
      .ok ['a', '\n', 'b', '\n'] ∧
    Idle (lines ['a', '\n', '\n']) ⟨[], [['a']], [['a']], []⟩ ∧
    applyHunks ['a', '\n', '\n'] [⟨[], [['a']], [['a']], []⟩] = .ok ['a', '\n'] ∧
    ¬ Frame ['a', '\r', '\n', 'b', '\r', '\n'] := by
  refine ⟨⟨rfl, 0, occursAt_eq_iff.mpr ⟨[], [['b']], rfl, rfl⟩⟩, rfl,
    ⟨rfl, 0, occursAt_eq_iff.mpr ⟨[], [[]], rfl, rfl⟩⟩, rfl, fun h => ?_⟩
  exact absurd (h.all_lf (['a'], .crlf) (by decide)) nofun

end AlloyAgent.PatchFrame
