import AlloyAgent.RepairFixpoint

/-!
# What repair does with the content

The blocks of a history are its tool results and the rest, here called its *skeleton*: the text,
images, thoughts and tool uses, with the roles under which they stand.

* `reorder_content`, `insertSynthetic_content`, `deduplicate_content`: the passes;
* `validateAndRepair_content`: the content of a repaired history.
-/

namespace AlloyAgent.SessionRepair

open List Message

/-! ## The parts of a history -/

def isResult (b : ContentBlock) : Bool := b.toolResultId?.isSome

/-- What a message says, apart from tool results. Plain text counts as one block. -/
def spoken (m : Message) : List (Role × ContentBlock) :=
  if m.content.isEmpty then [] else (m.content.toBlocks.filter (!isResult ·)).map (m.role, ·)

def skeleton (ms : List Message) : List (Role × ContentBlock) := ms.flatMap spoken

/-- Some blocks of one message, if there are any. -/
def group (r : Role) (bs : List ContentBlock) : List (Role × List ContentBlock) :=
  if bs.isEmpty then [] else [(r, bs)]

def said (m : Message) : List (Role × List ContentBlock) :=
  if m.content.isEmpty then [] else group m.role (m.content.toBlocks.filter (!isResult ·))

/-- What a history says, message by message. -/
def outline (ms : List Message) : List (Role × List ContentBlock) := ms.flatMap said

def results (m : Message) : List ContentBlock := m.content.blockList.filter isResult

def allResults (ms : List Message) : List ContentBlock := ms.flatMap results

def NonEmpty (ms : List Message) : Prop := ∀ m ∈ ms, m.content.isEmpty = false

variable {ms : List Message} {m : Message} {bs : List ContentBlock} (r : Role)

variable (bs)

@[simp] theorem spoken_blocks : spoken ⟨r, .blocks bs⟩ = (bs.filter (!isResult ·)).map (r, ·) := by
  cases bs <;> rfl

@[simp] theorem results_blocks :
    results ⟨r, .blocks bs⟩ = bs.filter isResult := rfl

theorem spoken_of_nonEmpty (h : m.content.isEmpty = false) :
    spoken m = (m.content.toBlocks.filter (!isResult ·)).map (m.role, ·) := by
  rw [spoken, h]
  rfl

@[simp] theorem group_nil : group r [] = [] := rfl

@[simp] theorem said_blocks : said ⟨r, .blocks bs⟩ = group r (bs.filter (!isResult ·)) := by
  cases bs <;> rfl

variable {bs}

theorem said_of_nonEmpty (h : m.content.isEmpty = false) :
    said m = group m.role (m.content.toBlocks.filter (!isResult ·)) := by
  rw [said, h]
  rfl

theorem said_of_isEmpty (h : m.content.isEmpty = true) : said m = [] := if_pos h

theorem skeleton_eq_outline (ms : List Message) :
    skeleton ms = (outline ms).flatMap fun g => g.2.map (g.1, ·) := by
  rw [skeleton, outline, flatMap_assoc]
  refine flatMap_congr fun m _ => ?_
  rw [spoken, said]
  split
  · rfl
  · rw [group]
    split
    · rename_i hnil
      rw [isEmpty_iff.mp hnil]
      rfl
    · simp

theorem skeleton_congr {ms' : List Message} (h : outline ms' = outline ms) :
    skeleton ms' = skeleton ms := by
  rw [skeleton_eq_outline, h, ← skeleton_eq_outline]

theorem role_of_mem_spoken (h : p ∈ spoken m) : p.1 = m.role := by
  rw [spoken] at h
  split at h
  · cases h
  · obtain ⟨b, -, rfl⟩ := mem_map.mp h
    rfl

theorem results_toBlocks (m : Message) : m.content.toBlocks.filter isResult = results m := by
  obtain ⟨r, c⟩ := m
  cases c <;> rfl

theorem results_of_isEmpty (h : m.content.isEmpty = true) : results m = [] := by
  obtain ⟨r, c⟩ := m
  cases c with
  | text s => rfl
  | blocks bs =>
    obtain rfl : bs = [] := isEmpty_iff.mp h
    rfl

theorem toolUseIds_eq_spoken (m : Message) :
    m.toolUseIds = (spoken m).filterMap (·.2.toolUseId?) := by
  obtain ⟨r, c⟩ := m
  cases c with
  | text s =>
    rw [spoken]
    split <;> rfl
  | blocks bs =>
    rw [spoken_blocks, toolUseIds_blocks, filterMap_map, filterMap_filter]
    refine filterMap_congr fun b _ => ?_
    cases b <;> rfl

theorem toolResultIds_eq_results (m : Message) :
    m.toolResultIds = (results m).filterMap (·.toolResultId?) := by
  rw [toolResultIds, results, filterMap_filter]
  refine filterMap_congr fun b _ => ?_
  cases b <;> rfl

theorem allToolUseIds_eq_skeleton (ms : List Message) :
    allToolUseIds ms = (skeleton ms).filterMap (·.2.toolUseId?) := by
  rw [allToolUseIds, skeleton, filterMap_flatMap]
  exact flatMap_congr fun m _ => toolUseIds_eq_spoken m

theorem allToolResultIds_eq_allResults (ms : List Message) :
    allToolResultIds ms = (allResults ms).filterMap (·.toolResultId?) := by
  rw [allToolResultIds, allResults, filterMap_flatMap]
  exact flatMap_congr fun m _ => toolResultIds_eq_results m

variable {x : String}

theorem mem_allToolResultIds_iff :
    x ∈ allToolResultIds ms ↔ ∃ b ∈ allResults ms, b.toolResultId? = some x := by
  rw [allToolResultIds_eq_allResults, mem_filterMap]

/-! ## Taking results out -/

theorem filter_not_isResult_keepResult (q : String → Bool) (bs : List ContentBlock) :
    (bs.filter (keepResult q)).filter (!isResult ·) = bs.filter (!isResult ·) := by
  rw [filter_filter]
  refine filter_congr fun b _ => ?_
  cases b <;> simp [isResult, keepResult, ContentBlock.toolResultId?]

variable {b : ContentBlock}

theorem mem_filter_keepResult {q : String → Bool}
    (h : b ∈ (bs.filter (keepResult q)).filter isResult) : b ∈ bs.filter isResult := by
  rw [filter_filter] at h
  rw [mem_filter] at h ⊢
  simp only [Bool.and_eq_true] at h
  exact ⟨h.1, h.2.1⟩

theorem said_cleanMessage (ids : List String) (m : Message) :
    (cleanMessage ids m).toList.flatMap said = said m := by
  obtain ⟨r, c⟩ := m
  cases c with
  | text s =>
    simp only [cleanMessage]
    split
    · rename_i hs
      have hnil : said ⟨r, .text s⟩ = [] := said_of_isEmpty hs
      exact hnil.symm
    · simp
  | blocks bs =>
    simp only [cleanMessage]
    have hsaid : said ⟨r, .blocks (bs.filter (keepBlock ids))⟩ = said ⟨r, .blocks bs⟩ := by
      rw [said_blocks, said_blocks, keepBlock, filter_not_isResult_keepResult]
    split
    · rename_i hbs
      rw [← hsaid, isEmpty_iff.mp hbs]
      rfl
    · simpa using hsaid

theorem outline_cleanHistory (ms : List Message) : outline (cleanHistory ms) = outline ms := by
  rw [cleanHistory, outline, outline, filterMap_eq_flatMap_toList, flatMap_assoc]
  exact flatMap_congr fun m _ => said_cleanMessage _ m

theorem mem_results_of_cleanMessage (h : cleanMessage ids m = some m') (hb : b ∈ results m') :
    b ∈ results m := by
  obtain ⟨r, c⟩ := m
  cases c with
  | text s =>
    simp only [cleanMessage] at h
    split at h
    · cases h
    · exact Option.some.inj h ▸ hb
  | blocks bs =>
    simp only [cleanMessage] at h
    split at h
    · cases h
    · cases h
      exact mem_filter_keepResult hb

theorem mem_allResults_of_cleanHistory (h : b ∈ allResults (cleanHistory ms)) :
    b ∈ allResults ms := by
  obtain ⟨m', hm', hb⟩ := mem_flatMap.mp h
  obtain ⟨m, hm, heq⟩ := mem_filterMap.mp hm'
  exact mem_flatMap.mpr ⟨m, hm, mem_results_of_cleanMessage heq hb⟩

variable (ms)

theorem nonEmpty_cleanHistory : NonEmpty (cleanHistory ms) := by
  intro m' hm'
  obtain ⟨m, -, heq⟩ := mem_filterMap.mp hm'
  exact (cleanMessage_eq_some heq).2.2.2

theorem nonEmpty_retainNonEmpty : NonEmpty (retainNonEmpty ms) := by
  intro m hm
  simpa using (mem_filter.mp hm).2

theorem outline_retainNonEmpty : outline (retainNonEmpty ms) = outline ms :=
  flatMap_retainNonEmpty (fun _ => said_of_isEmpty) ms

theorem allResults_retainNonEmpty : allResults (retainNonEmpty ms) = allResults ms :=
  flatMap_retainNonEmpty (fun _ => results_of_isEmpty) ms

variable {ms} (sources : List (ℕ × String))

theorem stripMisplaced_content (j : ℕ) (m : Message) :
    said (stripMisplaced sources j m) = said m ∧
      ∀ b ∈ results (stripMisplaced sources j m), b ∈ results m := by
  obtain ⟨r, c⟩ := m
  cases c with
  | text s => cases r <;> exact ⟨rfl, fun b hb => hb⟩
  | blocks bs =>
    cases r with
    | user =>
      refine ⟨?_, fun b hb => mem_filter_keepResult hb⟩
      rw [stripMisplaced, said_blocks, said_blocks, filter_not_isResult_keepResult]
    | _ => exact ⟨rfl, fun b hb => hb⟩

theorem outline_removeMisplaced (ms : List Message) :
    outline (removeMisplaced sources ms) = outline ms := by
  have hmap : (removeMisplaced sources ms).map said = ms.map said := by
    apply ext_getElem?
    intro j
    rw [getElem?_map, getElem?_map, getElem?_removeMisplaced, Option.map_map]
    exact Option.map_congr fun m _ => (stripMisplaced_content sources j m).1
  rw [outline, outline, flatMap_def, flatMap_def, hmap]

theorem mem_allResults_of_removeMisplaced {sources : List (ℕ × String)}
    (h : b ∈ allResults (removeMisplaced sources ms)) : b ∈ allResults ms := by
  obtain ⟨m', hm', hb⟩ := mem_flatMap.mp h
  obtain ⟨j, hj⟩ := getElem?_of_mem hm'
  rw [getElem?_removeMisplaced] at hj
  obtain ⟨m, hm, rfl⟩ := Option.map_eq_some_iff.mp hj
  exact mem_flatMap.mpr
    ⟨m, mem_of_getElem? hm, (stripMisplaced_content sources j m).2 b hb⟩

/-! ## Attaching results -/

theorem OnlyResults.filter_eq (h : OnlyResults bs) :
    bs.filter isResult = bs ∧ bs.filter (!isResult ·) = [] := by
  have hall : ∀ b ∈ bs, isResult b = true := by
    intro b hb
    obtain ⟨x, hx⟩ := h b hb
    rw [isResult, hx]
    rfl
  exact ⟨filter_eq_self.mpr hall, filter_eq_nil_iff.mpr fun b hb => by simp [hall b hb]⟩

/-- What a pass does to a history that attaches the results `bs` to it. -/
structure Attached (bs : List ContentBlock) (ms ms' : List Message) : Prop where
  nonEmpty : NonEmpty ms'
  outline_eq : outline ms' = outline ms
  mem_allResults : ∀ b, b ∈ allResults ms' ↔ b ∈ allResults ms ∨ b ∈ bs

theorem Attached.refl (h : NonEmpty ms) : Attached [] ms ms := ⟨h, rfl, by simp⟩

theorem Attached.trans (h : Attached bs ms ms') (h' : Attached bs' ms' ms'') :
    Attached (bs ++ bs') ms ms'' := by
  refine ⟨h'.nonEmpty, h'.outline_eq.trans h.outline_eq, fun b => ?_⟩
  rw [h'.mem_allResults, h.mem_allResults, mem_append, or_assoc]

theorem attached_attachBlocks (honly : OnlyResults bs) (hne : bs ≠ []) (h : NonEmpty ms) :
    Attached bs ms (attachBlocks bs ms) := by
  obtain ⟨hres, hsaid⟩ := honly.filter_eq
  cases ms with
  | nil =>
    refine ⟨?_, ?_, fun b => ?_⟩
    · simpa [NonEmpty, attachBlocks, MessageContent.isEmpty] using hne
    · simp [attachBlocks, outline, hsaid]
    · simp [attachBlocks, allResults, hres]
  | cons m ms =>
    have hm := h m (mem_cons_self ..)
    have hms : NonEmpty ms := fun n hn => h n (mem_cons_of_mem _ hn)
    simp only [attachBlocks]
    split
    · refine ⟨forall_mem_cons.mpr ⟨?_, hms⟩, ?_, fun b => ?_⟩
      · simpa [MessageContent.isEmpty] using fun _ => hne
      · simp [outline, hsaid, said_of_nonEmpty hm]
      · rw [allResults, allResults, flatMap_cons, flatMap_cons, results_blocks,
          filter_append, results_toBlocks, hres, mem_append, mem_append,
          mem_append, or_assoc, or_assoc, or_comm (a := b ∈ bs)]
    · refine ⟨forall_mem_cons.mpr ⟨?_, h⟩, ?_, fun b => ?_⟩
      · simpa [MessageContent.isEmpty] using hne
      · simp [outline, hsaid]
      · rw [allResults, flatMap_cons, ← allResults, results_blocks, hres, mem_append,
          or_comm]

theorem attached_attachAfter (honly : OnlyResults bs) (hne : bs ≠ []) (h : NonEmpty ms) (i : ℕ) :
    Attached bs ms (attachAfter ms i bs) := by
  have hdrop := attached_attachBlocks honly hne fun m hm =>
    h m (mem_of_mem_drop (i := i + 1) hm)
  refine ⟨fun m hm => ?_, ?_, fun b => ?_⟩
  · rcases mem_append.mp hm with hm | hm
    · exact h m (mem_of_mem_take hm)
    · exact hdrop.nonEmpty m hm
  · have hskel := hdrop.outline_eq
    rw [outline, outline] at hskel
    conv_rhs => rw [← take_append_drop (i + 1) ms]
    rw [attachAfter, outline, outline, flatMap_append, flatMap_append, hskel]
  · have hmem := hdrop.mem_allResults b
    rw [allResults, allResults] at hmem
    conv_rhs => rw [← take_append_drop (i + 1) ms]
    rw [attachAfter, allResults, allResults, flatMap_append, flatMap_append,
      mem_append, mem_append, hmem, or_assoc]

theorem attached_foldl {groups : List (ℕ × List ContentBlock)} :
    ∀ {ms : List Message}, NonEmpty ms → (∀ g ∈ groups, OnlyResults g.2 ∧ g.2 ≠ []) →
      Attached (groups.flatMap Prod.snd) ms
        (groups.foldl (fun l g => attachAfter l g.1 g.2) ms) := by
  induction groups with
  | nil => intro ms h _; exact .refl h
  | cons g groups ih =>
    intro ms h hgroups
    rw [forall_mem_cons] at hgroups
    have hfirst := attached_attachAfter hgroups.1.1 hgroups.1.2 h g.1
    exact hfirst.trans (ih hfirst.nonEmpty hgroups.2)

theorem mem_allResults_of_misplacedGroups (h : (misplacedGroups ms).lookup k = some bs)
    (hb : b ∈ bs) : b ∈ allResults ms := by
  rw [Table.lookup_groupPairs h, Table.mem_valuesAt] at hb
  obtain ⟨p, hp, heq⟩ := mem_map.mp hb
  cases heq
  obtain ⟨m, hm, -, hblock, hid, -⟩ := mem_misplacedResults.mp hp
  refine mem_flatMap.mpr ⟨m, mem_of_getElem? hm, mem_filter.mpr ⟨hblock, ?_⟩⟩
  rw [isResult, hid]
  rfl

theorem attached_reorder (ms : List Message) :
    Attached ((reorderEdits ms).flatMap Prod.snd) (remainingHistory ms) (reorderToolResults ms).1 ∨
      (reorderToolResults ms).1 = ms := by
  rcases reorderToolResults_eq_foldl ms with ⟨heq, -⟩ | heq
  · exact .inr heq
  · left
    rw [heq]
    refine attached_foldl (nonEmpty_retainNonEmpty _) fun g hg => ?_
    obtain ⟨k, hgroup, -⟩ := of_mem_reorderEdits hg
    obtain ⟨honly, hne, -⟩ := of_lookup_misplacedGroups hgroup
    exact ⟨honly, hne⟩

/-- **Reordering keeps the outline and makes up no results.** -/
theorem reorder_content (h : NonEmpty ms) :
    NonEmpty (reorderToolResults ms).1 ∧ outline (reorderToolResults ms).1 = outline ms ∧
      ∀ b ∈ allResults (reorderToolResults ms).1, b ∈ allResults ms := by
  rcases attached_reorder ms with hattached | heq
  · refine ⟨hattached.nonEmpty, ?_, fun b hb => ?_⟩
    · rw [hattached.outline_eq, remainingHistory, outline_retainNonEmpty,
        outline_removeMisplaced]
    · rcases (hattached.mem_allResults b).mp hb with hb | hb
      · rw [remainingHistory, allResults_retainNonEmpty] at hb
        exact mem_allResults_of_removeMisplaced hb
      · obtain ⟨g, hg, hbg⟩ := mem_flatMap.mp hb
        obtain ⟨k, hgroup, -⟩ := of_mem_reorderEdits hg
        exact mem_allResults_of_misplacedGroups hgroup hbg
  · rw [heq]
    exact ⟨h, rfl, fun b hb => hb⟩

/-- **The results that are inserted.** -/
theorem insertSynthetic_content (h : NonEmpty ms) :
    NonEmpty (insertSyntheticResults ms).1 ∧ outline (insertSyntheticResults ms).1 = outline ms ∧
      ∀ b, b ∈ allResults (insertSyntheticResults ms).1 ↔ b ∈ allResults ms ∨
        ∃ k x, b = syntheticResult x ∧ (k, x) ∈ orphanedUses (allToolResultIds ms) ms := by
  have hattached := attached_foldl h fun g hg =>
    resultEdits_syntheticGroups ms g.1 g.2 (Table.mem_sortedDesc.mp hg)
  rw [insertSyntheticResults_eq_foldl]
  refine ⟨hattached.nonEmpty, hattached.outline_eq, fun b => ?_⟩
  rw [hattached.mem_allResults, mem_flatMap]
  refine or_congr_right ⟨?_, ?_⟩
  · rintro ⟨⟨k, bs⟩, hg, hb⟩
    have hb' : b ∈ ((syntheticGroups ms).lookup k).getD [] := by
      rw [Table.mem_sortedDesc.mp hg]
      exact hb
    obtain ⟨x, hx, hk⟩ := mem_syntheticGroups.mp hb'
    exact ⟨k, x, hx, hk⟩
  · rintro ⟨k, x, rfl, hk⟩
    obtain ⟨bs, hbs, hmem⟩ := Table.exists_lookup_groupPairs (mem_map_of_mem
      (f := fun p : ℕ × String => (p.1, syntheticResult p.2)) hk)
    exact ⟨(k, bs), Table.mem_sortedDesc.mpr hbs, hmem⟩

/-! ## The last passes -/

theorem dedupBlocks_content (seen : List String) (bs : List ContentBlock) :
    (dedupBlocks seen bs).1.filter (!isResult ·) = bs.filter (!isResult ·) ∧
      (dedupBlocks seen bs).1.Sublist bs := by
  induction bs generalizing seen with
  | nil => exact ⟨rfl, .refl _⟩
  | cons b bs ih =>
    rcases hb : b.toolResultId? with _ | id
    · have hnot : isResult b = false := by rw [isResult, hb]; rfl
      rw [dedupBlocks_cons_other hb]
      refine ⟨?_, (ih seen).2.cons_cons b⟩
      simp [hnot, (ih seen).1]
    · have hres : isResult b = true := by rw [isResult, hb]; rfl
      rw [dedupBlocks_cons_result hb]
      split
      · refine ⟨?_, (ih seen).2.cons b⟩
        simp [hres, (ih seen).1]
      · refine ⟨?_, (ih (id :: seen)).2.cons_cons b⟩
        simp [hres, (ih (id :: seen)).1]

theorem dedupMessages_content (ms : List Message) : ∀ seen : List String,
    outline (dedupMessages seen ms).1 = outline ms ∧
      ∀ b ∈ allResults (dedupMessages seen ms).1, b ∈ allResults ms := by
  induction ms with
  | nil => exact fun seen => ⟨rfl, fun b hb => hb⟩
  | cons m ms ih =>
    intro seen
    have hskelCons : ∀ (m : Message) l, outline (m :: l) = said m ++ outline l := fun _ _ => rfl
    have hresCons : ∀ (m : Message) l, allResults (m :: l) = results m ++ allResults l :=
      fun _ _ => rfl
    obtain ⟨r, c⟩ := m
    cases c with
    | text s =>
      obtain ⟨hskel, hres⟩ := ih seen
      exact ⟨congrArg (said ⟨r, .text s⟩ ++ ·) hskel, hres⟩
    | blocks bs =>
      obtain ⟨hskel, hres⟩ := ih (dedupBlocks seen bs).2
      obtain ⟨hsaid, hsub⟩ := dedupBlocks_content seen bs
      simp only [dedupMessages, hskelCons, hresCons, said_blocks, results_blocks, hsaid, hskel]
      refine ⟨trivial, fun b hb => ?_⟩
      rcases mem_append.mp hb with hb | hb
      · exact mem_append_left _ ((hsub.filter _).subset hb)
      · exact mem_append_right _ (hres b hb)

/-- **Only duplicates are dropped.** -/
theorem deduplicate_content (ms : List Message) :
    NonEmpty (deduplicateToolResults ms).1 ∧ outline (deduplicateToolResults ms).1 = outline ms ∧
      ∀ b ∈ allResults (deduplicateToolResults ms).1, b ∈ allResults ms := by
  obtain ⟨hskel, hres⟩ := dedupMessages_content ms []
  refine ⟨nonEmpty_retainNonEmpty _, ?_, fun b hb => hres b ?_⟩
  · exact (outline_retainNonEmpty _).trans hskel
  · rwa [deduplicateToolResults, allResults_retainNonEmpty] at hb

theorem results_of_blank (h : isEmptyOrBlankContent m.content = true) : results m = [] := by
  refine filter_eq_nil_iff.mpr fun b hb hres => ?_
  obtain ⟨x, hx⟩ := Option.isSome_iff_exists.mp hres
  have hmem : x ∈ m.toolResultIds := mem_filterMap.mpr ⟨b, hb, hx⟩
  rw [(no_tools_of_blank h).2] at hmem
  cases hmem

theorem removeAborted_content (h : NonEmpty ms) :
    NonEmpty (removeAbortedAssistantMessages ms) ∧
      allResults (removeAbortedAssistantMessages ms) = allResults ms :=
  ⟨fun m hm => h m ((removeAborted_sublist ms).subset hm),
    flatMap_removeAborted (fun _ => results_of_blank) ms⟩

theorem mergeConsecutive_content (h : NonEmpty ms) :
    NonEmpty (mergeConsecutive ms) ∧ skeleton (mergeConsecutive ms) = skeleton ms ∧
      allResults (mergeConsecutive ms) = allResults ms := by
  have hsaid : ∀ m n : Message, m.content.isEmpty = false → n.content.isEmpty = false →
      m.role = n.role → spoken ⟨m.role, m.content.merge n.content⟩ = spoken m ++ spoken n := by
    intro m n hm hn hrole
    rw [MessageContent.merge, spoken_blocks, filter_append, map_append,
      spoken_of_nonEmpty hm, spoken_of_nonEmpty hn, hrole]
  have hresults : ∀ m n : Message, m.content.isEmpty = false → n.content.isEmpty = false →
      m.role = n.role → results ⟨m.role, m.content.merge n.content⟩ = results m ++ results n := by
    intro m n _ _ _
    rw [MessageContent.merge, results_blocks, filter_append, results_toBlocks,
      results_toBlocks]
  have hmerge : ∀ m n : Message, m.content.isEmpty = false →
      (⟨m.role, m.content.merge n.content⟩ : Message).content.isEmpty = false :=
    fun m n hm => merge_isEmpty hm n.content
  have hnil : ∀ m ∈ ([] : List Message), m.content.isEmpty = false := by simp
  exact ⟨forall_mem_foldl_mergePush hmerge hnil h, flatMap_foldl_mergePush hmerge hsaid hnil h,
    flatMap_foldl_mergePush hmerge hresults hnil h⟩

def isBlankBlock : ContentBlock → Bool
  | .text t => (RustStr.trim t.toList).isEmpty
  | .unknown => true
  | _ => false

/-- What a blank message of the assistant says. -/
def isBlankGroup (g : Role × List ContentBlock) : Bool :=
  decide (g.1 = .assistant) && g.2.all isBlankBlock

def dropBlank : List (Role × List ContentBlock) → List (Role × List ContentBlock)
  | g :: g' :: rest =>
    if isBlankGroup g then dropBlank (g' :: rest) else g :: dropBlank (g' :: rest)
  | gs => gs

def withoutAborted : List Message → List Message
  | [] => []
  | m :: rest =>
    if m.role = .assistant ∧ isEmptyOrBlankContent m.content ∧ ¬ (skeleton rest).isEmpty then
      withoutAborted rest
    else m :: withoutAborted rest

theorem isEmptyOrBlankContent_eq_all (m : Message) :
    isEmptyOrBlankContent m.content = m.content.toBlocks.all isBlankBlock := by
  obtain ⟨r, c⟩ := m
  cases c with
  | text s => simp [isEmptyOrBlankContent, MessageContent.toBlocks, isBlankBlock]
  | blocks bs =>
    refine all_congr rfl fun b => ?_
    cases b <;> rfl

theorem said_of_no_results (hne : m.content.isEmpty = false) (hres : m.toolResultIds = []) :
    said m = [(m.role, m.content.toBlocks)] := by
  have hall : ∀ b ∈ m.content.toBlocks, (!isResult b) = true := by
    intro b hb
    cases hid : b.toolResultId? with
    | none => simp [isResult, hid]
    | some x =>
      have hx : x ∈ m.toolResultIds := by
        rw [← filterMap_toolResultId?_toBlocks]
        exact mem_filterMap.mpr ⟨b, hb, hid⟩
      rw [hres] at hx
      cases hx
  have hblocks : m.content.toBlocks ≠ [] := by
    obtain ⟨r, c⟩ := m
    cases c with
    | text s => exact cons_ne_nil _ _
    | blocks bs => exact isEmpty_eq_false_iff.mp hne
  rw [said_of_nonEmpty hne, filter_eq_self.mpr hall, group,
    if_neg (by simpa using hblocks)]

theorem said_cases (h : m.RoleOk) :
    said m = [] ∨ ∃ g, said m = [g] ∧ (isBlankGroup g = true ↔
      m.role = .assistant ∧ isEmptyOrBlankContent m.content = true) := by
  cases hne : m.content.isEmpty with
  | true => exact .inl (said_of_isEmpty hne)
  | false =>
    by_cases hrole : m.role = .assistant
    · have hres := h.2 (by rw [hrole]; decide)
      refine .inr ⟨_, said_of_no_results hne hres, ?_⟩
      simp [isBlankGroup, hrole, isEmptyOrBlankContent_eq_all]
    · rw [said_of_nonEmpty hne, group]
      split
      · exact .inl rfl
      · exact .inr ⟨_, rfl, by simp [isBlankGroup, hrole]⟩

theorem dropBlank_cons (hne : gs ≠ []) :
    dropBlank (g :: gs) = if isBlankGroup g then dropBlank gs else g :: dropBlank gs := by
  cases gs with
  | nil => exact absurd rfl hne
  | cons g' gs => rfl

theorem skeleton_eq_nil_iff : skeleton ms = [] ↔ outline ms = [] := by
  rw [skeleton, outline, flatMap_eq_nil_iff, flatMap_eq_nil_iff]
  refine forall₂_congr fun m _ => ?_
  rw [spoken, said]
  split
  · simp
  · rw [map_eq_nil_iff, group]
    split
    · rename_i hnil
      exact iff_of_true (isEmpty_iff.mp hnil) rfl
    · rename_i hne
      exact iff_of_false (by simpa using hne) (cons_ne_nil _ _)

theorem outline_cons (m : Message) (ms : List Message) : outline (m :: ms) = said m ++ outline ms :=
  rfl

theorem outline_withoutAborted (hrole : ∀ m ∈ ms, m.RoleOk) :
    outline (withoutAborted ms) = dropBlank (outline ms) := by
  induction ms with
  | nil => rfl
  | cons m rest ih =>
    rw [forall_mem_cons] at hrole
    have hrest := ih hrole.2
    rw [withoutAborted, outline_cons]
    rcases said_cases hrole.1 with hnil | ⟨g, hg, hblank⟩
    · rw [hnil, nil_append, ← hrest]
      split
      · rfl
      · rw [outline_cons, hnil, nil_append]
    · have hquiet : (skeleton rest).isEmpty = true ↔ outline rest = [] := by
        rw [List.isEmpty_iff, skeleton_eq_nil_iff]
      rw [hg, singleton_append]
      by_cases hlast : outline rest = []
      · rw [if_neg (fun h => h.2.2 (hquiet.mpr hlast)), outline_cons, hg, hrest, hlast]
        rfl
      · rw [dropBlank_cons hlast, ← hrest]
        by_cases hb : isBlankGroup g = true
        · rw [if_pos hb, if_pos ⟨(hblank.mp hb).1, (hblank.mp hb).2, fun h => hlast (hquiet.mp h)⟩]
        · rw [if_neg hb, if_neg fun h => hb (hblank.mpr ⟨h.1, h.2.1⟩), outline_cons, hg]
          rfl

/-- If results follow their uses, a blank message is last only if nothing is said after it. -/
theorem outline_removeAborted (hne : NonEmpty ms) (hrole : ∀ m ∈ ms, m.RoleOk)
    (hplaced : ms.IsChain Placed) :
    outline (removeAbortedAssistantMessages ms) = dropBlank (outline ms) := by
  fun_induction removeAbortedAssistantMessages ms with
  | case1 m n rest hblank ih =>
    obtain ⟨hmn, hchain⟩ := isChain_cons_cons.mp hplaced
    have hn : n ∈ m :: n :: rest := by simp
    -- the next message is not there for results alone
    have hres : n.toolResultIds = [] := by
      refine eq_nil_iff_forall_not_mem.mpr fun x hx => ?_
      have hx' := hmn x hx
      rw [(no_tools_of_blank hblank.2).1] at hx'
      cases hx'
    have hsaid := said_of_no_results (hne n hn) hres
    have hnext : outline (n :: rest) ≠ [] := by
      rw [outline_cons, hsaid]
      exact cons_ne_nil _ _
    have hm : said m = [(m.role, m.content.toBlocks)] :=
      said_of_no_results (hne m (mem_cons_self ..)) (no_tools_of_blank hblank.2).2
    have hgroup : isBlankGroup (m.role, m.content.toBlocks) = true := by
      simp [isBlankGroup, hblank.1, ← isEmptyOrBlankContent_eq_all, hblank.2]
    rw [ih (fun k hk => hne k (mem_cons_of_mem _ hk))
      (fun k hk => hrole k (mem_cons_of_mem _ hk)) hchain, outline_cons m, hm,
      singleton_append, dropBlank_cons hnext, if_pos hgroup]
  | case2 m n rest hnot ih =>
    obtain ⟨-, hchain⟩ := isChain_cons_cons.mp hplaced
    have hrest := ih (fun k hk => hne k (mem_cons_of_mem _ hk))
      (fun k hk => hrole k (mem_cons_of_mem _ hk)) hchain
    rw [outline_cons, hrest, outline_cons m]
    rcases said_cases (hrole m (mem_cons_self ..)) with hnil | ⟨g, hg, hblank⟩
    · rw [hnil, nil_append, nil_append]
    · rw [hg, singleton_append, singleton_append]
      by_cases hlast : outline (n :: rest) = []
      · rw [hlast]
        rfl
      · rw [dropBlank_cons hlast, if_neg fun h => hnot (hblank.mp h)]
  | case3 ms hshort =>
    rcases ms with _ | ⟨m, _ | ⟨n, rest⟩⟩
    · rfl
    · rcases said_cases (hrole m (mem_cons_self ..)) with hnil | ⟨g, hg, -⟩
      · rw [outline_cons, hnil]
        rfl
      · rw [outline_cons, hg]
        rfl
    · exact absurd rfl (hshort m n rest)

/-! ## Which result is kept -/

theorem Tidy.exists_position (h : Tidy ms) (hx : (toolUseIndex ms).lookup x = some k) :
    ∃ p, (currentAssistantPositions (toolUseIndex ms) (remainingHistory ms)).lookup k = some p := by
  obtain ⟨a, ha, hxa⟩ := h.lookup_toolUseIndex.mp hx
  have hrole := h.roleOk a (mem_of_getElem? ha)
  obtain ⟨hr, hu, -⟩ := stripMisplaced_spec hrole (misplacedSources ms) k
  have hxa' : x ∈ (stripMisplaced (misplacedSources ms) k a).toolUseIds := by rwa [hu]
  have hmem : stripMisplaced (misplacedSources ms) k a ∈ remainingHistory ms := by
    refine mem_filter.mpr ⟨mem_of_getElem? (i := k) ?_, ?_⟩
    · rw [getElem?_removeMisplaced, ha]
      rfl
    · by_contra hempty
      rw [toolUseIds_eq_nil_of_isEmpty (by simpa using hempty)] at hxa'
      cases hxa'
  obtain ⟨i, hi⟩ := getElem?_of_mem hmem
  refine Table.exists_lookup_ofPairs (w := i) ((mem_flatMap_assistant (f := fun m i =>
    m.toolUseIds.filterMap fun id => ((toolUseIndex ms).lookup id).map (·, i))).mpr
    ⟨i, _, hi, hr.trans (hrole.role_of_use hxa), ?_⟩)
  exact mem_filterMap.mpr ⟨x, hxa', by rw [hx]; rfl⟩

theorem Tidy.mem_allToolResultIds_reorder (h : Tidy ms) (hx : x ∈ allToolResultIds ms) :
    x ∈ allToolResultIds (reorderToolResults ms).1 := by
  rcases attached_reorder ms with hattached | heq
  · obtain ⟨m, hm, hxm⟩ := mem_flatMap.mp hx
    obtain ⟨j, hj⟩ := getElem?_of_mem hm
    rw [mem_allToolResultIds_iff]
    by_cases hsource : (j, x) ∈ misplacedSources ms
    · -- it is put back
      obtain ⟨p, hp, heq⟩ := mem_map.mp hsource
      cases heq
      obtain ⟨-, -, -, -, hid, hindex, -⟩ := mem_misplacedResults.mp hp
      obtain ⟨q, hq⟩ := h.exists_position hindex
      obtain ⟨bs, hbs, hmem⟩ := Table.exists_lookup_groupPairs (mem_map_of_mem
        (f := fun p : Misplaced => (p.assistantIdx, p.block)) hp)
      refine ⟨p.block, (hattached.mem_allResults _).mpr (.inr (mem_flatMap.mpr
        ⟨(q, bs), mem_filterMap.mpr ⟨(p.assistantIdx, bs), ?_, ?_⟩, hmem⟩)), hid⟩
      · exact Table.mem_sortedDesc.mpr hbs
      · rw [hq]
        rfl
    · -- it stays where it is
      have hstay : x ∈ allToolResultIds (remainingHistory ms) := by
        rw [remainingHistory, allToolResultIds_retainNonEmpty]
        refine mem_flatMap.mpr ⟨stripMisplaced (misplacedSources ms) j m,
          mem_of_getElem? (i := j) ?_, ?_⟩
        · rw [getElem?_removeMisplaced, hj]
          rfl
        · rw [(stripMisplaced_spec (h.roleOk m hm) _ j).2.2, mem_filter]
          exact ⟨hxm, decide_eq_true hsource⟩
      obtain ⟨b, hb, hbx⟩ := mem_allToolResultIds_iff.mp hstay
      exact ⟨b, (hattached.mem_allResults b).mpr (.inl hb), hbx⟩
  · rwa [heq]

theorem exists_filter_eq_singleton {α β : Type} [DecidableEq β] {f : α → Option β} {l : List α}
    {x : β} (hnd : (l.filterMap f).Nodup) (hx : x ∈ l.filterMap f) :
    ∃ a, l.filter (fun a => f a == some x) = [a] := by
  rw [← length_eq_one_iff, ← countP_eq_length_filter, ← count_filterMap]
  exact count_eq_one_of_mem hnd hx

theorem deduplicated_results (ms : List Message) :
    (∀ b ∈ allResults (validateAndRepair ms),
      b ∈ allResults (insertSyntheticResults (reorderToolResults (cleanHistory ms)).1).1) ∧
    ∀ x, x ∈ allToolResultIds (validateAndRepair ms) ↔
      x ∈ allToolResultIds (insertSyntheticResults (reorderToolResults (cleanHistory ms)).1).1 := by
  rw [validateAndRepair_eq]
  obtain ⟨hne, -, hsub⟩ := deduplicate_content
    (insertSyntheticResults (reorderToolResults (cleanHistory ms)).1).1
  obtain ⟨hne', haborted⟩ := removeAborted_content hne
  refine ⟨fun b hb => hsub b ?_, fun x => ?_⟩
  · rwa [(mergeConsecutive_content hne').2.2, haborted] at hb
  · rw [allToolResultIds_mergeConsecutive, allToolResultIds_removeAborted, deduplicateToolResults,
      allToolResultIds_retainNonEmpty, (dedupMessages_results _ []).1]
    simp

section

variable (hrole : ∀ m ∈ ms, m.RoleOk)
include hrole

theorem mem_allToolResultIds_reorder_cleanHistory (hnd : (allToolUseIds ms).Nodup)
    (hx : x ∈ allToolUseIds ms) :
    x ∈ allToolResultIds (reorderToolResults (cleanHistory ms)).1 ↔ x ∈ allToolResultIds ms := by
  refine ⟨fun h => ?_, fun h => ?_⟩
  · obtain ⟨b, hb, hbx⟩ := mem_allToolResultIds_iff.mp h
    exact mem_allToolResultIds_iff.mpr ⟨b, mem_allResults_of_cleanHistory
      ((reorder_content (nonEmpty_cleanHistory ms)).2.2 b hb), hbx⟩
  · refine (tidy_cleanHistory hrole hnd).mem_allToolResultIds_reorder ?_
    rw [allToolResultIds_cleanHistory, mem_filter]
    exact ⟨h, decide_eq_true hx⟩

theorem mem_allToolResultIds_insertSynthetic (hne : NonEmpty ms) (hx : x ∈ allToolUseIds ms) :
    x ∈ allToolResultIds (insertSyntheticResults ms).1 := by
  obtain ⟨-, -, hmem⟩ := insertSynthetic_content hne
  rw [mem_allToolResultIds_iff]
  by_cases hex : x ∈ allToolResultIds ms
  · obtain ⟨b, hb, hbx⟩ := mem_allToolResultIds_iff.mp hex
    exact ⟨b, (hmem b).mpr (.inl hb), hbx⟩
  · obtain ⟨m, hm, hxm⟩ := mem_flatMap.mp hx
    obtain ⟨k, hk⟩ := getElem?_of_mem hm
    refine ⟨syntheticResult x, (hmem _).mpr (.inr ⟨k, x, rfl, ?_⟩), rfl⟩
    exact mem_orphanedUses.mpr ⟨m, hk, (hrole m hm).role_of_use hxm, hxm, hex⟩

theorem origin_of_result (hnd : (allToolUseIds ms).Nodup) (hx : x ∈ allToolUseIds ms)
    (hb : b ∈ allResults (validateAndRepair ms)) (hid : b.toolResultId? = some x) :
    (x ∈ allToolResultIds ms → b ∈ allResults ms) ∧
      (x ∉ allToolResultIds ms → b = syntheticResult x) := by
  obtain ⟨hne, -, hreorder⟩ := reorder_content (nonEmpty_cleanHistory ms)
  obtain ⟨-, -, hinsert⟩ := insertSynthetic_content hne
  have hfound := mem_allToolResultIds_reorder_cleanHistory hrole hnd hx
  rcases (hinsert b).mp ((deduplicated_results ms).1 b hb) with hold | ⟨k, y, rfl, hy⟩
  · have hmem := mem_allResults_of_cleanHistory (hreorder b hold)
    exact ⟨fun _ => hmem, fun hnot => absurd (mem_allToolResultIds_iff.mpr ⟨b, hmem, hid⟩) hnot⟩
  · obtain rfl : y = x := Option.some.inj hid
    obtain ⟨-, -, -, -, hnot⟩ := mem_orphanedUses.mp hy
    exact ⟨fun h => absurd (hfound.mpr h) hnot, fun _ => rfl⟩

theorem skeleton_validateAndRepair (hnd : (allToolUseIds ms).Nodup) :
    skeleton (validateAndRepair ms) = skeleton (withoutAborted ms) := by
  have hclean := tidy_cleanHistory hrole hnd
  obtain ⟨hreorder, hplaced⟩ := hclean.placed_reorder fun m hm x hx =>
    mem_allToolUseIds_of_mem_cleanHistory hm hx
  obtain ⟨hanswered, hpaired⟩ := hreorder.paired_insertSynthetic hplaced
  have hsettled := hanswered.settled_deduplicate hpaired
  obtain ⟨hne₁, hout₁, -⟩ := reorder_content (nonEmpty_cleanHistory ms)
  obtain ⟨hne₂, hout₂, -⟩ := insertSynthetic_content hne₁
  obtain ⟨hne₃, hout₃, -⟩ := deduplicate_content
    (insertSyntheticResults (reorderToolResults (cleanHistory ms)).1).1
  rw [validateAndRepair_eq, (mergeConsecutive_content (removeAborted_content hne₃).1).2.1]
  apply skeleton_congr
  rw [outline_removeAborted hne₃ hsettled.roleOk hsettled.paired.isChain_placed.tail, hout₃, hout₂,
    hout₁, outline_cleanHistory, outline_withoutAborted hrole]

end

/-- **Repair loses no content**, but for blank messages after which something is said. -/
theorem validateAndRepair_content (ms : List Message) (hrole : ∀ m ∈ ms, m.RoleOk)
    (hnd : (allToolUseIds ms).Nodup) :
    skeleton (validateAndRepair ms) = skeleton (withoutAborted ms) ∧
      ∀ x ∈ allToolUseIds ms, ∃ b,
        (allResults (validateAndRepair ms)).filter (fun b => b.toolResultId? == some x) = [b] ∧
        (x ∈ allToolResultIds ms → b ∈ allResults ms) ∧
        (x ∉ allToolResultIds ms → b = syntheticResult x) := by
  refine ⟨skeleton_validateAndRepair hrole hnd, fun x hx => ?_⟩
  have hclean := tidy_cleanHistory hrole hnd
  obtain ⟨hreorder, -⟩ := hclean.placed_reorder fun m hm x hx =>
    mem_allToolUseIds_of_mem_cleanHistory hm hx
  have huse : x ∈ allToolUseIds (reorderToolResults (cleanHistory ms)).1 := by
    rw [allToolUseIds_eq_skeleton,
      skeleton_congr (reorder_content (nonEmpty_cleanHistory ms)).2.1,
      skeleton_congr (outline_cleanHistory ms), ← allToolUseIds_eq_skeleton]
    exact hx
  have hans := mem_allToolResultIds_insertSynthetic hreorder.roleOk hreorder.nonEmpty huse
  rw [← (deduplicated_results ms).2, allToolResultIds_eq_allResults] at hans
  have hnodup := nodup_results_validateAndRepair ms
  rw [allToolResultIds_eq_allResults] at hnodup
  obtain ⟨b, hb⟩ := exists_filter_eq_singleton hnodup hans
  refine ⟨b, hb, ?_⟩
  have hmem := hb ▸ mem_singleton_self b
  obtain ⟨hmem, hid⟩ := mem_filter.mp hmem
  exact origin_of_result hrole hnd hx hmem (eq_of_beq hid)

theorem brokenHistory_content :
    skeleton (validateAndRepair brokenHistory) = skeleton (withoutAborted brokenHistory) ∧
      ∃ b, (allResults (validateAndRepair brokenHistory)).filter
        (fun b => b.toolResultId? == some "a") = [b] ∧ b ∈ allResults brokenHistory := by
  obtain ⟨hskel, hresults⟩ := validateAndRepair_content brokenHistory (by decide) (by decide)
  obtain ⟨b, hb, hold, -⟩ := hresults "a" (by decide)
  exact ⟨hskel, b, hb, hold (by decide)⟩

def withoutBlank (ms : List Message) : List Message :=
  ms.filter fun m => !(decide (m.role = .assistant) && isEmptyOrBlankContent m.content)

def blankAnswer : List Message := [⟨.user, .text "hi"⟩, ⟨.assistant, .text "  "⟩]

/-- A blank message at the end stays. -/
theorem blank_answer_kept :
    (∀ m ∈ blankAnswer, m.RoleOk) ∧ (allToolUseIds blankAnswer).Nodup ∧
      skeleton (validateAndRepair blankAnswer) = skeleton blankAnswer ∧
      skeleton (validateAndRepair blankAnswer) ≠ skeleton (withoutBlank blankAnswer) := by
  refine ⟨by decide, by decide, rfl, fun h => ?_⟩
  have hlength := congrArg List.length h
  revert hlength
  decide

end AlloyAgent.SessionRepair
