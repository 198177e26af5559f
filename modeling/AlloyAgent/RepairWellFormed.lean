import AlloyAgent.RepairPlacement

/-!
# Repaired histories are well formed

The remaining passes make a history whose results are placed `Paired`, and keep it so: a blank
message has nothing to pair, and neither is there anything between two messages of one role.

* `Tidy.paired_insertSynthetic`: missing results are filled in;
* `validateAndRepair_wellFormed`: what comes out is well formed.
-/

namespace AlloyAgent.SessionRepair

open List Message

/-- The uses of `p` whose id is in `existing` are answered by `m`. -/
def AnswersExisting (existing : List String) (p m : Message) : Prop :=
  ∀ x ∈ p.toolUseIds, x ∈ existing → x ∈ m.toolResultIds

variable {ms : List Message}

/-- If every result is placed, a tool use with a result somewhere has it in the
next message. -/
theorem Tidy.isChain_answersExisting (h : Tidy ms) (hplaced : (nothing :: ms).IsChain Placed) :
    (nothing :: (ms ++ [nothing])).IsChain (AnswersExisting (allToolResultIds ms)) := by
  rw [isChain_cons_iff_getElem?]
  refine ⟨fun a _ x hx => by simp at hx, fun i a b ha hb x hx hex => ?_⟩
  obtain ⟨m, hm, hxm⟩ := mem_flatMap.mp hex
  obtain ⟨j, hj⟩ := getElem?_of_mem hm
  obtain ⟨i', a', rfl, ha', hxa'⟩ := isChain_placed_iff.mp hplaced j m x hj hxm
  obtain ⟨hjlt, -⟩ := List.getElem?_eq_some_iff.mp hj
  rcases Nat.lt_or_ge i ms.length with hlt | hge
  · rw [getElem?_append_left hlt] at ha
    obtain rfl : i = i' := getElem?_unique_of_nodup_flatMap h.nodup ha ha' hx hxa'
    rw [getElem?_append_left hjlt, hj] at hb
    cases hb
    exact hxm
  · rw [getElem?_append_right hge] at ha
    rw [mem_singleton.mp (mem_of_getElem? ha)] at hx
    simp at hx

/-- Behind each message, results for its tool uses outside `existing`. -/
def Synthetic (existing : List String) (ins : ℕ → Option (List ContentBlock)) (k : ℕ)
    (m : Message) : Prop :=
  ∀ x, x ∈ resultIds ((ins k).getD []) ↔ x ∈ m.toolUseIds ∧ x ∉ existing

variable {bs : List ContentBlock}

/-- One message of the pass: what follows `p` answers it. -/
theorem isChain_answers_attachBlocks (existing : List String) (h : OnlyResults bs)
    (hids : ∀ x, x ∈ resultIds bs ↔ x ∈ p.toolUseIds ∧ x ∉ existing) (hrole : ∀ n ∈ ms, n.RoleOk)
    (hplaced : ∀ n ∈ ms.head?, Placed p n)
    (hexist : ∀ n ∈ (ms ++ [nothing]).head?, AnswersExisting existing p n)
    (hms : (ms ++ [nothing]).IsChain Answers) :
    (p :: (attachBlocks bs ms ++ [nothing])).IsChain Answers := by
  have hframe : Answers ⟨.user, .blocks bs⟩ nothing := answers_of_nil (toolUseIds_new h) rfl
  cases ms with
  | nil =>
    refine isChain_cons_cons.mpr ⟨fun x => ?_, isChain_pair.mpr hframe⟩
    rw [toolResultIds_blocks, ← resultIds, hids]
    refine ⟨And.left, fun hx => ⟨hx, fun hex => ?_⟩⟩
    exact absurd (hexist nothing rfl x hx hex) (by simp)
  | cons n ms =>
    have hpn := hplaced n rfl
    have hexn := hexist n rfl
    simp only [attachBlocks]
    split
    · refine isChain_cons_cons.mpr ⟨fun x => ?_, hms.imp_head fun {w} hw => ?_⟩
      · rw [toolResultIds_append, mem_append, hids]
        refine ⟨?_, ?_⟩
        · exact fun hx => hx.elim (hpn x) And.left
        · intro hx
          by_cases hex : x ∈ existing
          · exact Or.inl (hexn x hx hex)
          · exact Or.inr ⟨hx, hex⟩
      · exact hw.congr_left (toolUseIds_append h)
    · rename_i hr
      have hnone := (hrole n (mem_cons_self ..)).2 hr
      refine isChain_cons_cons.mpr ⟨fun x => ?_, isChain_cons_cons.mpr
        ⟨answers_of_nil (toolUseIds_new h) hnone, hms⟩⟩
      rw [toolResultIds_blocks, ← resultIds, hids]
      refine ⟨And.left, fun hx => ⟨hx, fun hex => ?_⟩⟩
      have := hexn x hx hex
      rw [hnone] at this
      cases this

variable {existing : List String}

theorem isChain_answers_weave {ins : ℕ → Option (List ContentBlock)} (hins : ResultEdits ins) :
    ∀ {k : ℕ}, (∀ m ∈ ms, m.RoleOk ∧ m.content.isEmpty = false) →
      (∀ j m, ms[j]? = some m → Synthetic existing ins (k + j) m) → ms.IsChain Placed →
      (ms ++ [nothing]).IsChain (AnswersExisting existing) →
      (weave attachBlocks ins k ms ++ [nothing]).IsChain Answers := by
  induction ms with
  | nil => intro k _ _ _ _; exact isChain_singleton _
  | cons m ms ih =>
    intro k hall hsyn hplaced hexist
    have hall' : ∀ m ∈ ms, m.RoleOk ∧ m.content.isEmpty = false :=
      fun m hm => hall m (mem_cons_of_mem _ hm)
    have hrest : (weave attachBlocks ins (k + 1) ms ++ [nothing]).IsChain Answers := by
      refine ih hall' (fun j n hn => ?_) hplaced.tail hexist.tail
      have := hsyn (j + 1) n hn
      rwa [show k + (j + 1) = k + 1 + j by omega] at this
    -- the pass leaves the uses and results at the head of the rest alone
    have hhead : (weave attachBlocks ins (k + 1) ms).head? = ms.head? := by cases ms <;> rfl
    have hframe : (weave attachBlocks ins (k + 1) ms ++ [nothing]).head? =
        (ms ++ [nothing]).head? := by cases ms <;> rfl
    have hm : Synthetic existing ins k m := hsyn 0 m rfl
    rw [weave, cons_append]
    rcases hk : ins k with _ | bs
    · -- every use of the message is answered already
      refine hrest.cons fun n hn x => ⟨fun hx => ?_, fun hx => ?_⟩
      · rw [hframe] at hn
        cases ms with
        | nil =>
          obtain rfl : nothing = n := by simpa using hn
          simp at hx
        | cons n' ms =>
          obtain rfl : n' = n := by simpa using hn
          exact (isChain_cons_cons.mp hplaced).1 x hx
      · have hex : x ∈ existing := by
          by_contra hex
          have := (hm x).mpr ⟨hx, hex⟩
          rw [hk] at this
          cases this
        rw [hframe] at hn
        exact hexist.rel_head? hn x hx hex
    · refine isChain_answers_attachBlocks existing (hins k bs hk).1 (fun x => ?_)
        (fun n hn => (forall_mem_weave hins hall' n hn).1) (fun n hn => ?_) (fun n hn => ?_) hrest
      · have := hm x
        rwa [hk] at this
      · rw [hhead] at hn
        exact hplaced.rel_head? hn
      · rw [hframe] at hn
        exact hexist.rel_head? hn

variable {k : ℕ}

theorem mem_orphanedUses :
    (k, x) ∈ orphanedUses existing ms ↔
      ∃ m, ms[k]? = some m ∧ m.role = .assistant ∧ x ∈ m.toolUseIds ∧ x ∉ existing := by
  refine (mem_flatMap_assistant (f := fun m k =>
    (m.toolUseIds.filter fun id => decide (id ∉ existing)).map (k, ·))).trans ⟨?_, ?_⟩
  · rintro ⟨k', m, hm, hr, hx⟩
    obtain ⟨x', hx', heq⟩ := mem_map.mp hx
    cases heq
    obtain ⟨hxm, hex⟩ := mem_filter.mp hx'
    exact ⟨m, hm, hr, hxm, of_decide_eq_true hex⟩
  · rintro ⟨m, hm, hr, hx, hex⟩
    exact ⟨k, m, hm, hr, mem_map_of_mem (mem_filter.mpr ⟨hx, decide_eq_true hex⟩)⟩

def syntheticGroups (ms : List Message) : Table ℕ (List ContentBlock) :=
  Table.groupPairs ((orphanedUses (allToolResultIds ms) ms).map fun p => (p.1, syntheticResult p.2))

variable {b : ContentBlock}

theorem mem_syntheticGroups :
    b ∈ ((syntheticGroups ms).lookup k).getD [] ↔
      ∃ x, b = syntheticResult x ∧ (k, x) ∈ orphanedUses (allToolResultIds ms) ms := by
  rw [syntheticGroups, Table.getD_lookup_groupPairs, Table.mem_valuesAt, mem_map]
  refine ⟨?_, ?_⟩
  · rintro ⟨⟨k', x⟩, hx, heq⟩
    cases heq
    exact ⟨x, rfl, hx⟩
  · rintro ⟨x, rfl, hx⟩
    exact ⟨(k, x), hx, rfl⟩

theorem resultEdits_syntheticGroups (ms : List Message) :
    ResultEdits fun k => (syntheticGroups ms).lookup k := by
  intro k bs hk
  change (syntheticGroups ms).lookup k = some bs at hk
  refine ⟨fun b hb => ?_, Table.ne_nil_of_lookup_groupPairs hk⟩
  have hb' : b ∈ ((syntheticGroups ms).lookup k).getD [] := by rw [hk]; exact hb
  obtain ⟨x, rfl, -⟩ := mem_syntheticGroups.mp hb'
  exact ⟨x, rfl⟩

variable {m : Message}

theorem Tidy.synthetic_syntheticGroups (h : Tidy ms) (hm : ms[k]? = some m) :
    Synthetic (allToolResultIds ms) (fun k => (syntheticGroups ms).lookup k) k m := by
  intro x
  simp only [resultIds, mem_filterMap]
  refine ⟨?_, ?_⟩
  · rintro ⟨b, hb, hbx⟩
    obtain ⟨x', rfl, hx'⟩ := mem_syntheticGroups.mp hb
    obtain rfl : x' = x := Option.some.inj hbx
    obtain ⟨m', hm', -, hxm, hex⟩ := mem_orphanedUses.mp hx'
    cases hm.symm.trans hm'
    exact ⟨hxm, hex⟩
  · rintro ⟨hx, hex⟩
    have hrole := (h.roleOk m (mem_of_getElem? hm)).role_of_use hx
    exact ⟨syntheticResult x,
      mem_syntheticGroups.mpr ⟨x, rfl, mem_orphanedUses.mpr ⟨m, hm, hrole, hx, hex⟩⟩, rfl⟩

theorem insertSyntheticResults_eq_foldl (ms : List Message) :
    (insertSyntheticResults ms).1 =
      (syntheticGroups ms).sortedDesc.foldl (fun l e => attachAfter l e.1 e.2) ms := by
  by_cases hnil : orphanedUses (allToolResultIds ms) ms = []
  · simp only [insertSyntheticResults, syntheticGroups, hnil, isEmpty_nil, if_true]
    rfl
  · simp only [insertSyntheticResults, List.isEmpty_iff, hnil, if_false]
    rfl

theorem insertSyntheticResults_eq (ms : List Message) :
    (insertSyntheticResults ms).1 =
      weave attachBlocks (fun k => (syntheticGroups ms).lookup k) 0 ms := by
  rw [insertSyntheticResults_eq_foldl]
  refine foldl_editAfter_eq_weave (syntheticGroups ms).sortedDesc_strict ?_ fun k e =>
    Table.mem_sortedDesc.symm
  rintro ⟨k, bs⟩ hk
  rw [Table.mem_sortedDesc] at hk
  obtain ⟨b, hb⟩ := exists_mem_of_ne_nil _ (resultEdits_syntheticGroups ms k bs hk).2
  have hb' : b ∈ ((syntheticGroups ms).lookup k).getD [] := by rw [hk]; exact hb
  obtain ⟨x, -, hx⟩ := mem_syntheticGroups.mp hb'
  obtain ⟨m, hm, -⟩ := mem_orphanedUses.mp hx
  exact (List.getElem?_eq_some_iff.mp hm).1

/-- **A history with placed results is paired once the unanswered tool uses are
answered.** -/
theorem Tidy.paired_insertSynthetic (h : Tidy ms) (hplaced : (nothing :: ms).IsChain Placed) :
    Tidy (insertSyntheticResults ms).1 ∧ Paired (insertSyntheticResults ms).1 := by
  have hins := resultEdits_syntheticGroups ms
  have hexist := h.isChain_answersExisting hplaced
  rw [insertSyntheticResults_eq]
  refine ⟨h.weaveResults hins, ?_⟩
  have hchain := isChain_answers_weave hins (k := 0)
    (fun m hm => ⟨h.roleOk m hm, h.nonEmpty m hm⟩)
    (fun j m hm => by rw [Nat.zero_add]; exact h.synthetic_syntheticGroups hm)
    hplaced.tail hexist.tail
  refine hchain.cons fun n hn => answers_of_nil rfl ?_
  cases ms with
  | nil =>
    obtain rfl : nothing = n := by simpa [weave] using hn
    rfl
  | cons m ms =>
    obtain rfl : m = n := by simpa [weave] using hn
    rw [eq_nil_iff_forall_not_mem]
    intro x hx
    exact absurd ((isChain_cons_cons.mp hplaced).1 x hx) (by simp)

theorem dedupBlocks_cons_result {id : String} (h : b.toolResultId? = some id) (seen : List String)
    (bs : List ContentBlock) :
    dedupBlocks seen (b :: bs) =
      if id ∈ seen then dedupBlocks seen bs
      else (b :: (dedupBlocks (id :: seen) bs).1, (dedupBlocks (id :: seen) bs).2) := by
  rw [dedupBlocks, h]

theorem dedupBlocks_cons_other (h : b.toolResultId? = none) (seen : List String)
    (bs : List ContentBlock) :
    dedupBlocks seen (b :: bs) = (b :: (dedupBlocks seen bs).1, (dedupBlocks seen bs).2) := by
  rw [dedupBlocks, h]

/-- What one block list keeps: all tool uses, and one result for each id that
was not seen before. -/
theorem dedupBlocks_spec (bs : List ContentBlock) :
    ∀ seen : List String,
      (dedupBlocks seen bs).1.filterMap (·.toolUseId?) = bs.filterMap (·.toolUseId?) ∧
      (∀ x, x ∈ resultIds (dedupBlocks seen bs).1 ↔ x ∈ resultIds bs ∧ x ∉ seen) ∧
      (resultIds (dedupBlocks seen bs).1).Nodup ∧
      ∀ x, x ∈ (dedupBlocks seen bs).2 ↔ x ∈ seen ∨ x ∈ resultIds bs := by
  induction bs with
  | nil => intro seen; simp [dedupBlocks, resultIds]
  | cons b bs ih =>
    intro seen
    rcases hb : b.toolResultId? with _ | id
    · obtain ⟨huse, hres, hnd, hseen⟩ := ih seen
      have hcons : ∀ l, resultIds (b :: l) = resultIds l := fun l =>
        filterMap_cons_none hb
      rw [dedupBlocks_cons_other hb]
      refine ⟨?_, fun x => ?_, ?_, fun x => ?_⟩
      · rw [filterMap_cons, filterMap_cons, huse]
      · rw [hcons, hcons, hres]
      · rw [hcons]; exact hnd
      · rw [hcons, hseen]
    · have hcons : ∀ l, resultIds (b :: l) = id :: resultIds l := fun l =>
        filterMap_cons_some hb
      have huse' := ContentBlock.toolUseId?_eq_none_of_result hb
      rw [dedupBlocks_cons_result hb]
      split
      · rename_i hin
        obtain ⟨huse, hres, hnd, hseen⟩ := ih seen
        refine ⟨?_, fun x => ?_, hnd, fun x => ?_⟩
        · rw [huse, filterMap_cons_none huse']
        · rw [hres, hcons, mem_cons]
          refine ⟨And.imp_left .inr, ?_⟩
          rintro ⟨rfl | hx, hs⟩
          · exact absurd hin hs
          · exact ⟨hx, hs⟩
        · rw [hseen, hcons, mem_cons]
          refine ⟨Or.imp_right .inr, ?_⟩
          rintro (hx | rfl | hx)
          · exact .inl hx
          · exact .inl hin
          · exact .inr hx
      · rename_i hnin
        obtain ⟨huse, hres, hnd, hseen⟩ := ih (id :: seen)
        refine ⟨?_, fun x => ?_, ?_, fun x => ?_⟩
        · rw [filterMap_cons_none huse', filterMap_cons_none huse', huse]
        · rw [hcons, hcons, mem_cons, mem_cons, hres, mem_cons]
          by_cases hx : x = id
          · simp [hx, hnin]
          · simp [hx]
        · rw [hcons, nodup_cons, hres]
          exact ⟨fun h => h.2 (mem_cons_self ..), hnd⟩
        · rw [hcons, mem_cons, hseen, mem_cons, or_assoc, or_left_comm]

theorem dedupBlocks_ne_nil {seen : List String} (hne : bs ≠ [])
    (hnew : ∀ x ∈ resultIds bs, x ∉ seen) : (dedupBlocks seen bs).1 ≠ [] := by
  cases bs with
  | nil => exact absurd rfl hne
  | cons b bs =>
    rcases hb : b.toolResultId? with _ | id
    · rw [dedupBlocks_cons_other hb]
      simp
    · rw [dedupBlocks_cons_result hb, if_neg]
      · simp
      · exact hnew id (by rw [resultIds, filterMap_cons_some hb]; exact mem_cons_self ..)

/-- A message before and after the removal of its duplicates. -/
structure Deduplicated (m m' : Message) : Prop extends SameIds m m' where
  nodup : m'.toolResultIds.Nodup
  /-- something is left -/
  nonEmpty : m.content.isEmpty = false → m'.content.isEmpty = false

/-- If no id is answered in two messages, duplicates are removed inside messages. -/
theorem forall₂_dedupMessages (ms : List Message) :
    ∀ seen : List String, (∀ m ∈ ms, ∀ x ∈ m.toolResultIds, x ∉ seen) →
      (ms.Pairwise fun a b => ∀ x ∈ a.toolResultIds, x ∉ b.toolResultIds) →
      List.Forall₂ Deduplicated ms (dedupMessages seen ms).1 := by
  induction ms with
  | nil => intro seen _ _; exact List.Forall₂.nil
  | cons m ms ih =>
    intro seen hnew hpw
    obtain ⟨hm, hpw'⟩ := pairwise_cons.mp hpw
    obtain ⟨r, c⟩ := m
    cases c with
    | text s =>
      refine List.Forall₂.cons ⟨SameIds.refl _, nodup_nil, id⟩ ?_
      exact ih seen (fun n hn => hnew n (mem_cons_of_mem _ hn)) hpw'
    | blocks bs =>
      obtain ⟨huse, hres, hnd, hseen⟩ := dedupBlocks_spec bs seen
      have hnew₀ : ∀ x ∈ resultIds bs, x ∉ seen := hnew _ (mem_cons_self ..)
      refine List.Forall₂.cons ⟨⟨rfl, huse, fun x => ?_⟩, hnd, fun hne => ?_⟩ ?_
      · exact (hres x).trans ⟨And.left, fun hx => ⟨hx, hnew₀ x hx⟩⟩
      · have hbs : bs ≠ [] := by simpa [MessageContent.isEmpty] using hne
        simpa [MessageContent.isEmpty] using dedupBlocks_ne_nil hbs hnew₀
      · refine ih _ (fun n hn x hx hxs => ?_) hpw'
        rcases (hseen x).mp hxs with hx' | hx'
        · exact hnew n (mem_cons_of_mem _ hn) x hx hx'
        · exact hm n hn x hx' hx

theorem allToolUseIds_of_forall₂ (h : List.Forall₂ SameIds ms ms') :
    allToolUseIds ms' = allToolUseIds ms := by
  induction h with
  | nil => rfl
  | cons hmm _ ih =>
    simp only [allToolUseIds, flatMap_cons] at ih ⊢
    rw [ih, hmm.uses]

theorem Tidy.pairwise_results_disjoint (h : Tidy ms) (hp : Paired ms) :
    ms.Pairwise fun a b => ∀ x ∈ a.toolResultIds, x ∉ b.toolResultIds := by
  rw [pairwise_iff_getElem]
  intro i j hi hj hij x hx hx'
  have hplaced := isChain_placed_iff.mp hp.isChain_placed
  obtain ⟨i', a, rfl, ha, hxa⟩ := hplaced i _ x (getElem?_eq_getElem hi) hx
  obtain ⟨j', b, rfl, hb, hxb⟩ := hplaced j _ x (getElem?_eq_getElem hj) hx'
  have := getElem?_unique_of_nodup_flatMap h.nodup ha hb hxa hxb
  omega

/-- What the passes after the deduplication keep. -/
structure Settled (ms : List Message) : Prop extends Tidy ms where
  /-- results follow their tool uses -/
  paired : Paired ms
  /-- no id is answered twice in one message -/
  nodupResults : ∀ m ∈ ms, m.toolResultIds.Nodup

theorem Tidy.forall₂_deduplicate (h : Tidy ms) (hp : Paired ms) :
    List.Forall₂ Deduplicated ms (deduplicateToolResults ms).1 := by
  have hdedup := forall₂_dedupMessages ms [] (fun _ _ _ _ => by simp)
    (h.pairwise_results_disjoint hp)
  have heq : (deduplicateToolResults ms).1 = (dedupMessages [] ms).1 := by
    refine filter_eq_self.mpr fun m' hm' => ?_
    obtain ⟨m, hm, hmm⟩ := exists_mem_of_forall₂ hdedup hm'
    simp [hmm.nonEmpty (h.nonEmpty m hm)]
  rw [heq]
  exact hdedup

theorem Tidy.settled_deduplicate (h : Tidy ms) (hp : Paired ms) :
    Settled (deduplicateToolResults ms).1 := by
  have hdedup := h.forall₂_deduplicate hp
  have hsame := hdedup.imp fun _ _ hmm => hmm.toSameIds
  refine ⟨⟨fun m' hm' => ?_, fun m' hm' => ?_, ?_⟩, hp.of_sameIds hsame, fun m' hm' => ?_⟩
  · obtain ⟨m, hm, hmm⟩ := exists_mem_of_forall₂ hdedup hm'
    exact hmm.roleOk (h.roleOk m hm)
  · obtain ⟨m, hm, hmm⟩ := exists_mem_of_forall₂ hdedup hm'
    exact hmm.nonEmpty (h.nonEmpty m hm)
  · rw [allToolUseIds_of_forall₂ hsame]
    exact h.nodup
  · obtain ⟨m, hm, hmm⟩ := exists_mem_of_forall₂ hdedup hm'
    exact hmm.nodup

theorem no_tools_of_blank (h : isEmptyOrBlankContent m.content = true) :
    m.toolUseIds = [] ∧ m.toolResultIds = [] := by
  obtain ⟨r, c⟩ := m
  cases c with
  | text s => exact ⟨rfl, rfl⟩
  | blocks bs =>
    rw [isEmptyOrBlankContent, all_eq_true] at h
    refine ⟨filterMap_eq_nil_iff.mpr fun b hb => ?_,
      filterMap_eq_nil_iff.mpr fun b hb => ?_⟩
    all_goals
      have hblank := h b hb
      cases b <;> first | rfl | cases hblank

theorem removeAborted_sublist (ms : List Message) :
    (removeAbortedAssistantMessages ms).Sublist ms := by
  fun_induction removeAbortedAssistantMessages ms with
  | case1 m n rest _ ih => exact ih.cons m
  | case2 m n rest _ ih => exact ih.cons_cons m
  | case3 ms _ => exact List.Sublist.refl ms

theorem isChain_answers_removeAborted (ms : List Message) :
    ∀ {p : Message}, (p :: (ms ++ [nothing])).IsChain Answers →
      (p :: (removeAbortedAssistantMessages ms ++ [nothing])).IsChain Answers := by
  fun_induction removeAbortedAssistantMessages ms with
  | case1 m n rest hblank ih =>
    intro p h
    obtain ⟨hpm, hmn⟩ := isChain_cons_cons.mp h
    obtain ⟨huse, hres⟩ := no_tools_of_blank hblank.2
    refine ih (hmn.imp_head fun {w} hw => answers_of_nil (hpm.use_nil hres) (hw.result_nil huse))
  | case2 m n rest _ ih =>
    intro p h
    obtain ⟨hpm, hmn⟩ := isChain_cons_cons.mp h
    exact isChain_cons_cons.mpr ⟨hpm, ih hmn⟩
  | case3 ms _ => intro p h; exact h

theorem Settled.removeAborted (h : Settled ms) : Settled (removeAbortedAssistantMessages ms) := by
  have hsub := removeAborted_sublist ms
  refine ⟨⟨fun m hm => h.roleOk m (hsub.subset hm), fun m hm => h.nonEmpty m (hsub.subset hm), ?_⟩,
    isChain_answers_removeAborted ms h.paired, fun m hm => h.nodupResults m (hsub.subset hm)⟩
  exact h.nodup.sublist (hsub.flatMap toolUseIds)

theorem toolUseIds_merge (r : Role) (m n : Message) :
    toolUseIds ⟨r, m.content.merge n.content⟩ = m.toolUseIds ++ n.toolUseIds := by
  rw [MessageContent.merge, toolUseIds_blocks, filterMap_append,
    filterMap_toolUseId?_toBlocks, filterMap_toolUseId?_toBlocks]

theorem toolResultIds_merge (r : Role) (m n : Message) :
    toolResultIds ⟨r, m.content.merge n.content⟩ = m.toolResultIds ++ n.toolResultIds := by
  rw [MessageContent.merge, toolResultIds_blocks, filterMap_append,
    filterMap_toolResultId?_toBlocks, filterMap_toolResultId?_toBlocks]

theorem merge_isEmpty {c : MessageContent} (h : c.isEmpty = false) (d : MessageContent) :
    (c.merge d).isEmpty = false := by
  cases c with
  | text s => rfl
  | blocks bs =>
    cases bs with
    | nil => cases h
    | cons b bs => rfl

theorem Settled.fuse {l₁ l₂ : List Message} {n : Message} (h : Settled (l₁ ++ m :: n :: l₂))
    (hrole : m.role = n.role) : Settled (l₁ ++ ⟨m.role, m.content.merge n.content⟩ :: l₂) := by
  have hm : m ∈ l₁ ++ m :: n :: l₂ := by simp
  have hn : n ∈ l₁ ++ m :: n :: l₂ := by simp
  have hchain : ((nothing :: l₁) ++ m :: n :: (l₂ ++ [nothing])).IsChain Answers := by
    simpa [Paired] using h.paired
  have hmn : Answers m n :=
    (isChain_cons_cons.mp (isChain_split.mp hchain).2).1
  obtain ⟨huse, hres⟩ := hmn.nil_of_same_role (h.roleOk m hm) (h.roleOk n hn) hrole
  have huse' : toolUseIds ⟨m.role, m.content.merge n.content⟩ = n.toolUseIds := by
    rw [toolUseIds_merge, huse, nil_append]
  have hres' : toolResultIds ⟨m.role, m.content.merge n.content⟩ = m.toolResultIds := by
    rw [toolResultIds_merge, hres, append_nil]
  -- membership in the new list: the merged message, or an old one
  have hmem : ∀ {P : Message → Prop}, P ⟨m.role, m.content.merge n.content⟩ →
      (∀ k ∈ l₁ ++ m :: n :: l₂, P k) →
      ∀ k ∈ l₁ ++ ⟨m.role, m.content.merge n.content⟩ :: l₂, P k := by
    intro P hnew hold k hk
    rcases mem_append.mp hk with hk | hk
    · exact hold k (mem_append_left _ hk)
    · rcases mem_cons.mp hk with rfl | hk
      · exact hnew
      · exact hold k (by simp [hk])
  refine ⟨⟨hmem ⟨fun hr => ?_, fun hr => ?_⟩ h.roleOk,
    hmem (merge_isEmpty (h.nonEmpty m hm) _) h.nonEmpty, ?_⟩, ?_,
    hmem (by rw [hres']; exact h.nodupResults m hm) h.nodupResults⟩
  · rw [huse']
    exact (h.roleOk n hn).1 (hrole ▸ hr)
  · rw [hres']
    exact (h.roleOk m hm).2 hr
  · have hnd := h.nodup
    simp only [allToolUseIds, flatMap_append, flatMap_cons, huse', huse,
      nil_append] at hnd ⊢
    exact hnd
  · have hfused := isChain_fuse hchain
      (fun w hw x => by rw [hres']; exact hw x) fun w hw => hw.congr_left huse'
    simpa [Paired] using hfused

def Alternating (ms : List Message) : Prop := ms.IsChain fun a b => a.role ≠ b.role

variable {merged : List Message}

theorem alternating_mergePush (halt : Alternating merged) (msg : Message) :
    Alternating (mergePush merged msg) := by
  rcases eq_nil_or_concat merged with rfl | ⟨init, last, rfl⟩
  · exact isChain_singleton _
  · rw [concat_eq_append] at halt ⊢
    have hinit := isChain_append.mp halt
    simp only [mergePush, getLast?_append, getLast?_singleton, Option.some_or,
      dropLast_concat]
    split
    · refine isChain_append.mpr ⟨hinit.1, isChain_singleton _, fun a ha b hb => ?_⟩
      obtain rfl : _ = b := by simpa using hb
      exact hinit.2.2 a ha last (by simp)
    · rename_i hrole
      refine isChain_append.mpr ⟨halt, isChain_singleton _, fun a ha b hb => ?_⟩
      obtain rfl : last = a := by simpa using ha
      obtain rfl : msg = b := by simpa using hb
      exact hrole

theorem alternating_mergeConsecutive (ms : List Message) : Alternating (mergeConsecutive ms) := by
  have hrun : ∀ (rest merged : List Message), Alternating merged →
      Alternating (rest.foldl mergePush merged) := by
    intro rest
    induction rest with
    | nil => exact fun merged halt => halt
    | cons msg rest ih => exact fun merged halt => ih _ (alternating_mergePush halt msg)
  exact hrun ms [] isChain_nil

theorem Settled.mergePush (h : Settled (merged ++ msg :: rest)) :
    Settled (mergePush merged msg ++ rest) := by
  rcases eq_nil_or_concat merged with rfl | ⟨init, last, rfl⟩
  · exact h
  · rw [concat_eq_append] at h ⊢
    simp only [SessionRepair.mergePush, getLast?_append, getLast?_singleton,
      Option.some_or, dropLast_concat]
    split
    · rename_i hrole
      rw [append_assoc, singleton_append] at h ⊢
      exact h.fuse hrole
    · rw [append_assoc, singleton_append]
      exact h

theorem Settled.mergeConsecutive (h : Settled ms) :
    Alternating (mergeConsecutive ms) ∧ Settled (mergeConsecutive ms) := by
  -- the messages merged so far, followed by those still to come
  have hrun : ∀ (rest merged : List Message), Settled (merged ++ rest) →
      Settled (rest.foldl SessionRepair.mergePush merged) := by
    intro rest
    induction rest with
    | nil =>
      intro merged hs
      rwa [append_nil] at hs
    | cons msg rest ih => exact fun merged hs => ih _ hs.mergePush
  exact ⟨alternating_mergeConsecutive ms, hrun ms [] h⟩

/-- A history as the providers accept it. -/
structure WellFormed (ms : List Message) : Prop where
  alternating : ∀ (i : ℕ) (a b : Message), ms[i]? = some a → ms[i + 1]? = some b → a.role ≠ b.role
  nonEmpty : ∀ m ∈ ms, m.content.isEmpty = false
  /-- a tool use is answered exactly once in the user message that follows it -/
  answered : ∀ (i : ℕ) (a : Message) (x : String), ms[i]? = some a → a.role = .assistant →
    x ∈ a.toolUseIds → ∃ u, ms[i + 1]? = some u ∧ u.role = .user ∧ u.toolResultIds.count x = 1
  /-- and nowhere else -/
  answeredOnce : ∀ (i j : ℕ) (a m : Message) (x : String), ms[i]? = some a →
    a.role = .assistant → x ∈ a.toolUseIds → ms[j]? = some m → x ∈ m.toolResultIds → j = i + 1
  /-- a result answers a tool use of the message directly before it -/
  answers : ∀ (j : ℕ) (m : Message) (x : String), ms[j]? = some m → x ∈ m.toolResultIds →
    ∃ i a, j = i + 1 ∧ ms[i]? = some a ∧ x ∈ a.toolUseIds

theorem Settled.wellFormed (h : Settled ms) (halt : Alternating ms) : WellFormed ms := by
  have hplaced := isChain_placed_iff.mp h.paired.isChain_placed
  refine ⟨fun i a b ha hb => ?_, h.nonEmpty, fun i a x ha _ hx => ?_,
    fun i j a m x ha _ hx hm hxm => ?_, hplaced⟩
  · obtain ⟨hi, rfl⟩ := List.getElem?_eq_some_iff.mp ha
    obtain ⟨hi', rfl⟩ := List.getElem?_eq_some_iff.mp hb
    exact isChain_iff_getElem.mp halt i hi'
  · obtain ⟨u, hu, hxu⟩ := h.paired.use_answered ha hx
    have hmem := mem_of_getElem? hu
    exact ⟨u, hu, (h.roleOk u hmem).role_of_result hxu,
      count_eq_one_of_mem (h.nodupResults u hmem) hxu⟩
  · obtain ⟨i', a', rfl, ha', hxa'⟩ := hplaced j m x hm hxm
    rw [getElem?_unique_of_nodup_flatMap h.nodup ha ha' hx hxa']

theorem settled_validateAndRepair (hrole : ∀ m ∈ ms, m.RoleOk) (hnodup : (allToolUseIds ms).Nodup) :
    Alternating (validateAndRepair ms) ∧ Settled (validateAndRepair ms) := by
  have hclean := tidy_cleanHistory hrole hnodup
  obtain ⟨hreorder, hplaced⟩ := hclean.placed_reorder fun m hm x hx =>
    mem_allToolUseIds_of_mem_cleanHistory hm hx
  obtain ⟨hanswered, hpaired⟩ := hreorder.paired_insertSynthetic hplaced
  rw [validateAndRepair_eq]
  exact (hanswered.settled_deduplicate hpaired).removeAborted.mergeConsecutive

/-- **Repair yields a well-formed history**, whatever it is given. -/
theorem validateAndRepair_wellFormed (ms : List Message) (hrole : ∀ m ∈ ms, m.RoleOk)
    (hnodup : (allToolUseIds ms).Nodup) : WellFormed (validateAndRepair ms) := by
  obtain ⟨halt, hsettled⟩ := settled_validateAndRepair hrole hnodup
  exact hsettled.wellFormed halt

def brokenHistory : List Message :=
  [⟨.user, .blocks [.toolResult "a" "early" false]⟩,
   ⟨.assistant, .blocks [.toolUse "a" "shell" .null, .toolUse "b" "shell" .null]⟩,
   ⟨.assistant, .text "  "⟩,
   ⟨.user, .blocks [.toolResult "a" "late" false, .toolResult "zz" "orphan" false]⟩,
   ⟨.user, .text "go on"⟩]

theorem brokenHistory_repaired : WellFormed (validateAndRepair brokenHistory) :=
  validateAndRepair_wellFormed brokenHistory (by decide) (by decide)

end AlloyAgent.SessionRepair
