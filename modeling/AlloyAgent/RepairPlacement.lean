import AlloyAgent.SessionRepair
import AlloyAgent.ToolPairing

/-!
# Placement of tool results

The first two passes of the repair. `Tidy` (block types match roles, nothing is empty, tool use ids
are distinct) holds after the first one and is kept by all passes that follow: no pass moves, drops
or copies a tool use.

* `Tidy.placed_reorder`: after the second pass results are in their place.
-/

namespace AlloyAgent.SessionRepair

open List Option Message

/-- What every pass but the first may assume, and keeps. -/
structure Tidy (ms : List Message) : Prop where
  /-- tool uses and results occur under their own roles -/
  roleOk : ∀ m ∈ ms, m.RoleOk
  nonEmpty : ∀ m ∈ ms, m.content.isEmpty = false
  nodup : (allToolUseIds ms).Nodup

/-! ## Filtering results out of a block list -/

theorem filterMap_toolUseId?_keepResult (q : String → Bool) (bs : List ContentBlock) :
    (bs.filter (keepResult q)).filterMap (·.toolUseId?) = bs.filterMap (·.toolUseId?) := by
  rw [filterMap_filter]
  congr 1
  funext b
  rcases b with _ | _ | _ | ⟨id, _, _⟩ | _ | _ <;> try rfl
  exact ite_self _

theorem filterMap_toolResultId?_keepResult (q : String → Bool) (bs : List ContentBlock) :
    (bs.filter (keepResult q)).filterMap (·.toolResultId?) =
      (bs.filterMap (·.toolResultId?)).filter q := by
  rw [filterMap_filter, filter_filterMap]
  congr 1
  funext b
  cases b <;> rfl

variable {ids : List String}

theorem cleanMessage_eq_some (h : cleanMessage ids msg = some msg') :
    msg'.role = msg.role ∧ msg'.toolUseIds = msg.toolUseIds ∧
      msg'.toolResultIds = msg.toolResultIds.filter (fun id => decide (id ∈ ids)) ∧
      msg'.content.isEmpty = false := by
  obtain ⟨r, c⟩ := msg
  cases c with
  | text s =>
    simp only [cleanMessage] at h
    split at h
    · cases h
    · rename_i hs
      cases h
      exact ⟨rfl, rfl, rfl, by simpa [MessageContent.isEmpty] using hs⟩
  | blocks bs =>
    simp only [cleanMessage] at h
    split at h
    · cases h
    · rename_i hbs
      cases h
      exact ⟨rfl, filterMap_toolUseId?_keepResult _ _, filterMap_toolResultId?_keepResult _ _,
        by simpa [MessageContent.isEmpty] using hbs⟩

theorem cleanMessage_eq_none (h : cleanMessage ids msg = none) :
    msg.toolUseIds = [] ∧ msg.toolResultIds.filter (fun id => decide (id ∈ ids)) = [] := by
  obtain ⟨r, c⟩ := msg
  cases c with
  | text s => exact ⟨rfl, rfl⟩
  | blocks bs =>
    simp only [cleanMessage] at h
    split at h
    · rename_i hbs
      have hnil : bs.filter (keepResult fun id => decide (id ∈ ids)) = [] :=
        isEmpty_iff.mp hbs
      rw [toolUseIds_blocks, toolResultIds_blocks, ← filterMap_toolResultId?_keepResult,
        ← filterMap_toolUseId?_keepResult (fun id => decide (id ∈ ids)), hnil]
      exact ⟨rfl, rfl⟩
    · cases h

theorem allToolUseIds_filterMap_cleanMessage (ids : List String) (ms : List Message) :
    allToolUseIds (ms.filterMap (cleanMessage ids)) = allToolUseIds ms := by
  induction ms with
  | nil => rfl
  | cons m ms ih =>
    simp only [allToolUseIds] at ih ⊢
    rcases hm : cleanMessage ids m with _ | m'
    · rw [filterMap_cons_none hm, ih, flatMap_cons, (cleanMessage_eq_none hm).1,
        nil_append]
    · rw [filterMap_cons_some hm, flatMap_cons, flatMap_cons, ih,
        (cleanMessage_eq_some hm).2.1]

theorem allToolResultIds_cleanHistory (ms : List Message) :
    allToolResultIds (cleanHistory ms) =
      (allToolResultIds ms).filter (fun id => decide (id ∈ allToolUseIds ms)) := by
  rw [cleanHistory, allToolResultIds, allToolResultIds, filterMap_eq_flatMap_toList,
    flatMap_assoc, filter_flatMap]
  refine flatMap_congr fun m _ => ?_
  rcases hm : cleanMessage (allToolUseIds ms) m with _ | m'
  · exact (cleanMessage_eq_none hm).2.symm
  · exact (flatMap_singleton ..).trans (cleanMessage_eq_some hm).2.2.1

variable {ms : List Message}

/-- A history with distinct tool use ids under the right roles is tidy once
cleaned. -/
theorem tidy_cleanHistory (hrole : ∀ m ∈ ms, m.RoleOk) (hnodup : (allToolUseIds ms).Nodup) :
    Tidy (cleanHistory ms) := by
  refine ⟨fun m' hm' => ?_, fun m' hm' => ?_, ?_⟩
  · obtain ⟨m, hm, heq⟩ := mem_filterMap.mp hm'
    obtain ⟨hr, hu, hres, -⟩ := cleanMessage_eq_some heq
    exact (hrole m hm).of_same_ids hr hu fun h => by rw [hres, h]; rfl
  · obtain ⟨m, -, heq⟩ := mem_filterMap.mp hm'
    exact (cleanMessage_eq_some heq).2.2.2
  · rw [cleanHistory, allToolUseIds_filterMap_cleanMessage]
    exact hnodup

variable {m : Message} {x : String}

theorem mem_allToolUseIds_of_mem_cleanHistory (hm : m ∈ cleanHistory ms)
    (hx : x ∈ m.toolResultIds) : x ∈ allToolUseIds (cleanHistory ms) := by
  obtain ⟨m₀, -, heq⟩ := mem_filterMap.mp hm
  rw [(cleanMessage_eq_some heq).2.2.1] at hx
  rw [cleanHistory, allToolUseIds_filterMap_cleanMessage]
  simpa using (mem_filter.mp hx).2

/-! ## Attaching results -/

section Attach

def OnlyResults (bs : List ContentBlock) : Prop := ∀ b ∈ bs, ∃ x, b.toolResultId? = some x

def resultIds (bs : List ContentBlock) : List String := bs.filterMap (·.toolResultId?)

variable {bs : List ContentBlock}

theorem OnlyResults.filterMap_toolUseId? (h : OnlyResults bs) :
    bs.filterMap (·.toolUseId?) = [] := by
  rw [filterMap_eq_nil_iff]
  intro b hb
  obtain ⟨x, hx⟩ := h b hb
  exact ContentBlock.toolUseId?_eq_none_of_result hx

variable {m : Message}

theorem toolUseIds_append (h : OnlyResults bs) :
    toolUseIds ⟨r, .blocks (m.content.toBlocks ++ bs)⟩ = m.toolUseIds := by
  rw [toolUseIds_blocks, filterMap_append, filterMap_toolUseId?_toBlocks,
    h.filterMap_toolUseId?, append_nil]

theorem toolResultIds_append :
    toolResultIds ⟨r, .blocks (m.content.toBlocks ++ bs)⟩ = m.toolResultIds ++ resultIds bs := by
  rw [toolResultIds_blocks, filterMap_append, filterMap_toolResultId?_toBlocks, resultIds]

theorem toolUseIds_new (h : OnlyResults bs) : toolUseIds ⟨.user, .blocks bs⟩ = [] :=
  h.filterMap_toolUseId?

/-- The edits prescribed for each position are non-empty lists of results. -/
def ResultEdits (ins : ℕ → Option (List ContentBlock)) : Prop :=
  ∀ k bs, ins k = some bs → OnlyResults bs ∧ bs ≠ []

theorem allToolUseIds_attachBlocks (h : OnlyResults bs) (ms : List Message) :
    allToolUseIds (attachBlocks bs ms) = allToolUseIds ms := by
  cases ms with
  | nil => simp [attachBlocks, allToolUseIds, toolUseIds_new h]
  | cons m ms =>
    simp only [attachBlocks]
    split
    · simp only [allToolUseIds, flatMap_cons, toolUseIds_append h]
    · simp only [allToolUseIds, flatMap_cons, toolUseIds_new h, nil_append]

variable {ins : ℕ → Option (List ContentBlock)}

theorem allToolUseIds_weave (hins : ResultEdits ins) (ms : List Message) :
    ∀ k, allToolUseIds (weave attachBlocks ins k ms) = allToolUseIds ms := by
  induction ms with
  | nil => intro k; rfl
  | cons m ms ih =>
    intro k
    have hcons : ∀ l, allToolUseIds (m :: l) = m.toolUseIds ++ allToolUseIds l := fun _ => rfl
    rw [weave, hcons, hcons]
    congr 1
    rcases hk : ins k with _ | bs
    · exact ih (k + 1)
    · exact (allToolUseIds_attachBlocks (hins k bs hk).1 _).trans (ih (k + 1))

variable {ms : List Message}

theorem forall_mem_attachBlocks (h : OnlyResults bs) (hne : bs ≠ [])
    (hms : ∀ m ∈ ms, m.RoleOk ∧ m.content.isEmpty = false) :
    ∀ m ∈ attachBlocks bs ms, m.RoleOk ∧ m.content.isEmpty = false := by
  have hnew : RoleOk ⟨.user, .blocks bs⟩ ∧
      (⟨.user, .blocks bs⟩ : Message).content.isEmpty = false :=
    ⟨⟨fun _ => toolUseIds_new h, fun hr => absurd rfl hr⟩,
      by simpa [MessageContent.isEmpty] using hne⟩
  cases ms with
  | nil =>
    intro m hm
    obtain rfl : m = _ := mem_singleton.mp hm
    exact hnew
  | cons n ms =>
    intro m hm
    simp only [attachBlocks] at hm
    split at hm
    · rename_i hrole
      rcases mem_cons.mp hm with rfl | hm
      · refine ⟨⟨fun hr => ?_, fun hr => absurd hrole hr⟩, ?_⟩
        · rw [toolUseIds_append h]
          exact (hms n (mem_cons_self ..)).1.1 hr
        · simpa [MessageContent.isEmpty] using fun _ => hne
      · exact hms m (mem_cons_of_mem _ hm)
    · rcases mem_cons.mp hm with rfl | hm
      · exact hnew
      · exact hms m hm

theorem forall_mem_weave (hins : ResultEdits ins) :
    ∀ {k : ℕ}, (∀ m ∈ ms, m.RoleOk ∧ m.content.isEmpty = false) →
      ∀ m ∈ weave attachBlocks ins k ms, m.RoleOk ∧ m.content.isEmpty = false := by
  induction ms with
  | nil => intro k _ m hm; cases hm
  | cons n ms ih =>
    intro k hms m hm
    have hrest := ih (k := k + 1) fun m hm => hms m (mem_cons_of_mem _ hm)
    rw [weave] at hm
    rcases mem_cons.mp hm with rfl | hm
    · exact hms _ (mem_cons_self ..)
    · rcases hk : ins k with _ | bs
      · rw [hk] at hm
        exact hrest m hm
      · rw [hk] at hm
        exact forall_mem_attachBlocks (hins k bs hk).1 (hins k bs hk).2 hrest m hm

theorem Tidy.weaveResults (hins : ResultEdits ins) (h : Tidy ms) :
    Tidy (weave attachBlocks ins 0 ms) := by
  have hall := forall_mem_weave hins (k := 0) fun m hm => ⟨h.roleOk m hm, h.nonEmpty m hm⟩
  refine ⟨fun m hm => (hall m hm).1, fun m hm => (hall m hm).2, ?_⟩
  rw [allToolUseIds_weave hins]
  exact h.nodup

theorem isChain_placed_attachBlocks (h : OnlyResults bs)
    (hids : ∀ x ∈ resultIds bs, x ∈ m.toolUseIds) (hrole : ∀ n ∈ ms, n.RoleOk)
    (hms : (m :: ms).IsChain Placed) : (m :: attachBlocks bs ms).IsChain Placed := by
  cases ms with
  | nil => exact isChain_pair.mpr hids
  | cons n ms =>
    obtain ⟨hmn, hn⟩ := isChain_cons_cons.mp hms
    simp only [attachBlocks]
    split
    · refine isChain_cons_cons.mpr ⟨fun x hx => ?_, hn.imp_head fun {w} hw x hx => ?_⟩
      · rw [toolResultIds_append] at hx
        exact (mem_append.mp hx).elim (hmn x) (hids x)
      · rw [toolUseIds_append h]
        exact hw x hx
    · rename_i hr
      exact isChain_cons_cons.mpr ⟨hids, isChain_cons_cons.mpr
        ⟨placed_of_no_result ((hrole n (mem_cons_self ..)).2 hr), hn⟩⟩

theorem isChain_placed_weave (hins : ResultEdits ins) :
    ∀ {k : ℕ} {p : Message}, (∀ m ∈ ms, m.RoleOk ∧ m.content.isEmpty = false) →
      (∀ j m bs, ms[j]? = some m → ins (k + j) = some bs →
        ∀ x ∈ resultIds bs, x ∈ m.toolUseIds) →
      (p :: ms).IsChain Placed → (p :: weave attachBlocks ins k ms).IsChain Placed := by
  induction ms with
  | nil => intro k p _ _ h; exact h
  | cons m ms ih =>
    intro k p hall hids h
    obtain ⟨hpm, hm⟩ := isChain_cons_cons.mp h
    have hall' : ∀ m ∈ ms, m.RoleOk ∧ m.content.isEmpty = false :=
      fun m hm => hall m (mem_cons_of_mem _ hm)
    have hrest : (m :: weave attachBlocks ins (k + 1) ms).IsChain Placed := by
      refine ih hall' (fun j n bs hn hbs => ?_) hm
      exact hids (j + 1) n bs hn (by rw [← hbs]; congr 1; omega)
    rw [weave]
    refine isChain_cons_cons.mpr ⟨hpm, ?_⟩
    rcases hk : ins k with _ | bs
    · exact hrest
    · exact isChain_placed_attachBlocks (hins k bs hk).1 (hids 0 m bs rfl hk)
        (fun n hn => (forall_mem_weave hins hall' n hn).1) hrest

end Attach

theorem mem_flatMap_assistant {β : Type} {f : Message → ℕ → List β} {b : β} :
    (b ∈ ms.zipIdx.flatMap fun (msg, idx) => if msg.role = .assistant then f msg idx else []) ↔
      ∃ k m, ms[k]? = some m ∧ m.role = .assistant ∧ b ∈ f m k := by
  simp only [mem_flatMap, Prod.exists, mem_zipIdx_iff_getElem?]
  refine ⟨?_, ?_⟩
  · rintro ⟨m, k, hm, hb⟩
    split at hb
    · rename_i hr
      exact ⟨k, m, hm, hr, hb⟩
    · cases hb
  · rintro ⟨k, m, hm, hr, hb⟩
    exact ⟨m, k, hm, by rwa [if_pos hr]⟩

variable {k : ℕ}

theorem mem_toolUsePositions :
    (x, k) ∈ toolUsePositions ms ↔
      ∃ m, ms[k]? = some m ∧ m.role = .assistant ∧ x ∈ m.toolUseIds := by
  refine (mem_flatMap_assistant (f := fun m k => m.toolUseIds.map (·, k))).trans ⟨?_, ?_⟩
  · rintro ⟨k', m, hm, hr, hx⟩
    obtain ⟨x', hx', heq⟩ := mem_map.mp hx
    cases heq
    exact ⟨m, hm, hr, hx'⟩
  · rintro ⟨m, hm, hr, hx⟩
    exact ⟨k, m, hm, hr, mem_map_of_mem hx⟩

theorem Tidy.lookup_toolUseIndex (h : Tidy ms) :
    (toolUseIndex ms).lookup x = some k ↔ ∃ m, ms[k]? = some m ∧ x ∈ m.toolUseIds := by
  rw [toolUseIndex, Table.lookup_ofPairs, mem_toolUsePositions]
  · refine ⟨?_, ?_⟩
    · rintro ⟨m, hm, -, hx⟩
      exact ⟨m, hm, hx⟩
    · rintro ⟨m, hm, hx⟩
      exact ⟨m, hm, (h.roleOk m (mem_of_getElem? hm)).role_of_use hx, hx⟩
  · intro x i j hi hj
    obtain ⟨a, ha, -, hxa⟩ := mem_toolUsePositions.mp hi
    obtain ⟨b, hb, -, hxb⟩ := mem_toolUsePositions.mp hj
    exact getElem?_unique_of_nodup_flatMap h.nodup ha hb hxa hxb

variable {index : Table String ℕ}

theorem mem_misplacedResults :
    p ∈ misplacedResults index ms ↔
      ∃ m, ms[p.msgIdx]? = some m ∧ m.role = .user ∧ p.block ∈ m.content.blockList ∧
        p.block.toolResultId? = some p.toolUseId ∧
        index.lookup p.toolUseId = some p.assistantIdx ∧ p.msgIdx ≠ p.assistantIdx + 1 := by
  have hone : ∀ (i : ℕ) (b : ContentBlock), misplaced? index i b = some p ↔
      i = p.msgIdx ∧ b = p.block ∧ p.block.toolResultId? = some p.toolUseId ∧
        index.lookup p.toolUseId = some p.assistantIdx ∧ p.msgIdx ≠ p.assistantIdx + 1 := by
    intro i b
    obtain ⟨pi, px, pb, pa⟩ := p
    simp only [misplaced?]
    refine ⟨?_, ?_⟩
    · intro h
      split at h
      · rename_i x hx
        split at h
        · rename_i a ha
          split at h
          · rename_i hne
            obtain ⟨rfl, rfl, rfl, rfl⟩ := Misplaced.mk.inj (some.inj h)
            exact ⟨rfl, rfl, hx, ha, hne⟩
          · cases h
        · cases h
      · cases h
    · rintro ⟨rfl, rfl, hx, ha, hne⟩
      rw [hx]
      simp only [ha, ne_eq, hne, not_false_eq_true, if_true]
  simp only [misplacedResults, mem_flatMap, Prod.exists, mem_zipIdx_iff_getElem?]
  refine ⟨?_, ?_⟩
  · rintro ⟨m, i, hm, hp⟩
    split at hp
    · rename_i hr
      obtain ⟨b, hb, hbp⟩ := mem_filterMap.mp hp
      obtain ⟨rfl, rfl, hrest⟩ := (hone i b).mp hbp
      exact ⟨m, hm, hr, hb, hrest⟩
    · cases hp
  · rintro ⟨m, hm, hr, hb, hrest⟩
    refine ⟨m, p.msgIdx, hm, ?_⟩
    rw [if_pos hr]
    exact mem_filterMap.mpr ⟨p.block, hb, (hone _ _).mpr ⟨rfl, rfl, hrest⟩⟩

/-! ### Taking the misplaced results out -/

theorem stripMisplaced_spec (h : m.RoleOk) (sources : List (ℕ × String)) (j : ℕ) :
    (stripMisplaced sources j m).role = m.role ∧
      (stripMisplaced sources j m).toolUseIds = m.toolUseIds ∧
      (stripMisplaced sources j m).toolResultIds =
        m.toolResultIds.filter fun x => decide ((j, x) ∉ sources) := by
  obtain ⟨r, c⟩ := m
  cases c with
  | text s => cases r <;> exact ⟨rfl, rfl, rfl⟩
  | blocks bs =>
    by_cases hr : r = .user
    · subst hr
      exact ⟨rfl, filterMap_toolUseId?_keepResult _ _, filterMap_toolResultId?_keepResult _ _⟩
    · have hsame : stripMisplaced sources j ⟨r, .blocks bs⟩ = ⟨r, .blocks bs⟩ := by
        cases r <;> first | rfl | exact absurd rfl hr
      rw [hsame, h.2 hr]
      exact ⟨rfl, rfl, rfl⟩

theorem stripMisplaced_nil (j : ℕ) (m : Message) : stripMisplaced [] j m = m := by
  obtain ⟨r, c⟩ := m
  cases r <;> cases c
  case user.blocks bs =>
    have hall : ∀ b ∈ bs, keepResult (fun id => decide ((j, id) ∉ [])) b = true := by
      intro b _
      cases b <;> simp [keepResult, ContentBlock.toolResultId?]
    simp only [stripMisplaced, filter_eq_self.mpr hall]
  all_goals rfl

theorem getElem?_removeMisplaced (sources : List (ℕ × String)) (ms : List Message) (j : ℕ) :
    (removeMisplaced sources ms)[j]? = ms[j]?.map (stripMisplaced sources j) := by
  simp [removeMisplaced, getElem?_zipIdx, Function.comp_def]

theorem removeMisplaced_nil (ms : List Message) : removeMisplaced [] ms = ms := by
  apply ext_getElem?
  intro j
  rw [getElem?_removeMisplaced]
  rcases ms[j]? with _ | m
  · rfl
  · exact congrArg some (stripMisplaced_nil j m)

/-- The sources of the misplaced results of a history. -/
def misplacedSources (ms : List Message) : List (ℕ × String) :=
  (misplacedResults (toolUseIndex ms) ms).map fun p => (p.msgIdx, p.toolUseId)

theorem Tidy.isChain_placed_removeMisplaced (h : Tidy ms)
    (hknown : ∀ m ∈ ms, ∀ x ∈ m.toolResultIds, x ∈ allToolUseIds ms) :
    (nothing :: removeMisplaced (misplacedSources ms) ms).IsChain Placed := by
  rw [isChain_placed_iff]
  intro j m' x hm' hx
  rw [getElem?_removeMisplaced] at hm'
  obtain ⟨m, hm, rfl⟩ := map_eq_some_iff.mp hm'
  have hmem := mem_of_getElem? hm
  have hrole := h.roleOk m hmem
  rw [(stripMisplaced_spec hrole _ j).2.2] at hx
  obtain ⟨hxm, hkept⟩ := mem_filter.mp hx
  -- the tool use the result is for
  obtain ⟨a, ha, hxa⟩ := mem_flatMap.mp (hknown m hmem x hxm)
  obtain ⟨k, hk⟩ := getElem?_of_mem ha
  have hindex := h.lookup_toolUseIndex.mpr ⟨a, hk, hxa⟩
  have hj : j = k + 1 := by
    by_contra hne
    obtain ⟨b, hb, hbx⟩ := mem_filterMap.mp hxm
    have hmis : (⟨j, x, b, k⟩ : Misplaced) ∈ misplacedResults (toolUseIndex ms) ms :=
      mem_misplacedResults.mpr ⟨m, hm, hrole.role_of_result hxm, hb, hbx, hindex, hne⟩
    exact (of_decide_eq_true hkept) (mem_map_of_mem hmis)
  refine ⟨k, stripMisplaced (misplacedSources ms) k a, hj, ?_, ?_⟩
  · rw [getElem?_removeMisplaced, hk]
    rfl
  · rw [(stripMisplaced_spec (h.roleOk a ha) _ k).2.1]
    exact hxa

theorem isChain_placed_retainNonEmpty :
    ∀ {p : Message}, (p :: ms).IsChain Placed → (p :: retainNonEmpty ms).IsChain Placed := by
  induction ms with
  | nil => intro p h; exact h
  | cons m ms ih =>
    intro p h
    obtain ⟨hpm, hm⟩ := isChain_cons_cons.mp h
    rw [retainNonEmpty, filter_cons]
    split
    · exact isChain_cons_cons.mpr ⟨hpm, ih hm⟩
    · rename_i he
      refine ih (hm.imp_head fun {w} hw x hx => ?_)
      have := hw x hx
      rw [toolUseIds_eq_nil_of_isEmpty (by simpa using he)] at this
      cases this

theorem flatMap_retainNonEmpty {β : Type} {f : Message → List β}
    (hf : ∀ m : Message, m.content.isEmpty = true → f m = []) (ms : List Message) :
    (retainNonEmpty ms).flatMap f = ms.flatMap f := by
  induction ms with
  | nil => rfl
  | cons m ms ih =>
    simp only [retainNonEmpty] at ih ⊢
    rw [filter_cons, flatMap_cons]
    split
    · rw [flatMap_cons, ih]
    · rename_i he
      rw [ih, hf m (by simpa using he), nil_append]

theorem allToolUseIds_retainNonEmpty (ms : List Message) :
    allToolUseIds (retainNonEmpty ms) = allToolUseIds ms :=
  flatMap_retainNonEmpty (fun _ => toolUseIds_eq_nil_of_isEmpty) ms

def remainingHistory (ms : List Message) : List Message :=
  retainNonEmpty (removeMisplaced (misplacedSources ms) ms)

theorem Tidy.allToolUseIds_removeMisplaced (h : Tidy ms) (sources : List (ℕ × String)) :
    allToolUseIds (removeMisplaced sources ms) = allToolUseIds ms := by
  have hmap : (removeMisplaced sources ms).map toolUseIds = ms.map toolUseIds := by
    apply ext_getElem?
    intro j
    rw [getElem?_map, getElem?_map, getElem?_removeMisplaced, Option.map_map]
    rcases hm : ms[j]? with _ | m
    · rfl
    · exact congrArg some (stripMisplaced_spec (h.roleOk m (mem_of_getElem? hm)) _ j).2.1
  rw [allToolUseIds, allToolUseIds, flatMap_def, flatMap_def, hmap]

theorem Tidy.of_mem_remainingHistory (h : Tidy ms) (hm : m ∈ remainingHistory ms) :
    m.RoleOk ∧ m.content.isEmpty = false ∧
      ∃ (k : ℕ) (a : Message), ms[k]? = some a ∧ m.toolUseIds = a.toolUseIds := by
  obtain ⟨hm, hne⟩ := mem_filter.mp hm
  obtain ⟨k, hk⟩ := getElem?_of_mem hm
  rw [getElem?_removeMisplaced] at hk
  obtain ⟨a, ha, rfl⟩ := map_eq_some_iff.mp hk
  have hrole := h.roleOk a (mem_of_getElem? ha)
  obtain ⟨hr, hu, hres⟩ := stripMisplaced_spec hrole (misplacedSources ms) k
  exact ⟨hrole.of_same_ids hr hu fun hnil => by rw [hres, hnil]; rfl, by simpa using hne,
    k, a, ha, hu⟩

theorem Tidy.remaining (h : Tidy ms) : Tidy (remainingHistory ms) := by
  refine ⟨fun m hm => (h.of_mem_remainingHistory hm).1,
    fun m hm => (h.of_mem_remainingHistory hm).2.1, ?_⟩
  rw [remainingHistory, allToolUseIds_retainNonEmpty, h.allToolUseIds_removeMisplaced]
  exact h.nodup

/-! ### Putting them back -/

/-- All tool uses of the first message are indexed before those of the second. -/
def InOrder (index : Table String ℕ) (m₁ m₂ : Message) : Prop :=
  ∀ y₁ ∈ m₁.toolUseIds, ∀ y₂ ∈ m₂.toolUseIds, ∀ k₁ k₂,
    index.lookup y₁ = some k₁ → index.lookup y₂ = some k₂ → k₁ < k₂

theorem Tidy.pairwise_inOrder_remainingHistory (h : Tidy ms) :
    (remainingHistory ms).Pairwise (InOrder (toolUseIndex ms)) := by
  refine List.Pairwise.sublist filter_sublist ?_
  rw [pairwise_iff_getElem]
  intro i j hi hj hij y₁ hy₁ y₂ hy₂ k₁ k₂ hk₁ hk₂
  -- a tool use found at a position of the list is indexed at that position
  have hpos : ∀ {i k : ℕ} {y : String} (hi : i < (removeMisplaced (misplacedSources ms) ms).length),
      y ∈ (removeMisplaced (misplacedSources ms) ms)[i].toolUseIds →
      (toolUseIndex ms).lookup y = some k → i = k := by
    intro i k y hi hy hk
    have hget := getElem?_eq_getElem hi
    rw [getElem?_removeMisplaced] at hget
    obtain ⟨a, ha, heq⟩ := map_eq_some_iff.mp hget
    rw [← heq, (stripMisplaced_spec (h.roleOk a (mem_of_getElem? ha)) _ i).2.1] at hy
    exact some.inj ((h.lookup_toolUseIndex.mpr ⟨a, ha, hy⟩).symm.trans hk)
  rw [← hpos hi hy₁ hk₁, ← hpos hj hy₂ hk₂]
  exact hij

theorem of_lookup_currentAssistantPositions {p : ℕ}
    (h : (currentAssistantPositions index ms).lookup k = some p) :
    ∃ m, ms[p]? = some m ∧ ∃ y ∈ m.toolUseIds, index.lookup y = some k := by
  obtain ⟨i, m, hm, -, hkp⟩ := (mem_flatMap_assistant
    (f := fun m i => m.toolUseIds.filterMap fun id => (index.lookup id).map (·, i))).mp
    (Table.mem_of_lookup_ofPairs h)
  obtain ⟨y, hy, heq⟩ := mem_filterMap.mp hkp
  obtain ⟨k', hk', hpair⟩ := map_eq_some_iff.mp heq
  cases hpair
  exact ⟨m, hm, y, hy, hk'⟩

theorem Tidy.position_lt_position (h : Tidy ms) (h₁ : (currentAssistantPositions (toolUseIndex ms)
      (remainingHistory ms)).lookup k₁ = some p₁) (h₂ : (currentAssistantPositions (toolUseIndex ms)
      (remainingHistory ms)).lookup k₂ = some p₂) (hk : k₁ < k₂) : p₁ < p₂ := by
  obtain ⟨m₁, hm₁, y₁, hy₁, hi₁⟩ := of_lookup_currentAssistantPositions h₁
  obtain ⟨m₂, hm₂, y₂, hy₂, hi₂⟩ := of_lookup_currentAssistantPositions h₂
  have hpw := h.pairwise_inOrder_remainingHistory
  rw [pairwise_iff_getElem] at hpw
  rcases lt_trichotomy p₁ p₂ with hlt | rfl | hgt
  · exact hlt
  · -- one message has all its tool uses at one index
    cases hm₁.symm.trans hm₂
    obtain ⟨-, -, k, a, ha, hu⟩ := h.of_mem_remainingHistory (mem_of_getElem? hm₁)
    rw [hu] at hy₁ hy₂
    have e₁ := some.inj ((h.lookup_toolUseIndex.mpr ⟨a, ha, hy₁⟩).symm.trans hi₁)
    have e₂ := some.inj ((h.lookup_toolUseIndex.mpr ⟨a, ha, hy₂⟩).symm.trans hi₂)
    omega
  · obtain ⟨hlt₁, rfl⟩ := List.getElem?_eq_some_iff.mp hm₁
    obtain ⟨hlt₂, rfl⟩ := List.getElem?_eq_some_iff.mp hm₂
    have := hpw p₂ p₁ hlt₂ hlt₁ hgt y₂ hy₂ y₁ hy₁ k₂ k₁ hi₂ hi₁
    omega

def misplacedGroups (ms : List Message) : Table ℕ (List ContentBlock) :=
  Table.groupPairs ((misplacedResults (toolUseIndex ms) ms).map fun p => (p.assistantIdx, p.block))

variable {bs : List ContentBlock}

theorem of_lookup_misplacedGroups (h : (misplacedGroups ms).lookup k = some bs) :
    OnlyResults bs ∧ bs ≠ [] ∧ ∀ x ∈ resultIds bs, (toolUseIndex ms).lookup x = some k := by
  have hblock : ∀ b ∈ bs, ∃ x, b.toolResultId? = some x ∧ (toolUseIndex ms).lookup x = some k := by
    intro b hb
    rw [Table.lookup_groupPairs h, Table.mem_valuesAt] at hb
    obtain ⟨p, hp, heq⟩ := mem_map.mp hb
    cases heq
    obtain ⟨-, -, -, -, hid, hindex, -⟩ := mem_misplacedResults.mp hp
    exact ⟨p.toolUseId, hid, hindex⟩
  refine ⟨fun b hb => ?_, Table.ne_nil_of_lookup_groupPairs h, fun x hx => ?_⟩
  · obtain ⟨x, hx, -⟩ := hblock b hb
    exact ⟨x, hx⟩
  · obtain ⟨b, hb, hbx⟩ := mem_filterMap.mp hx
    obtain ⟨x', hx', hindex⟩ := hblock b hb
    obtain rfl : x' = x := some.inj (hx'.symm.trans hbx)
    exact hindex

def reorderEdits (ms : List Message) : List (ℕ × List ContentBlock) :=
  (misplacedGroups ms).sortedDesc.filterMap fun group =>
    ((currentAssistantPositions (toolUseIndex ms) (remainingHistory ms)).lookup group.1).map
      (·, group.2)

theorem of_mem_reorderEdits (h : (p, bs) ∈ reorderEdits ms) :
    ∃ k, (misplacedGroups ms).lookup k = some bs ∧
      (currentAssistantPositions (toolUseIndex ms) (remainingHistory ms)).lookup k = some p := by
  obtain ⟨⟨k, bs'⟩, hg, heq⟩ := mem_filterMap.mp h
  obtain ⟨p', hp', hpair⟩ := map_eq_some_iff.mp heq
  cases hpair
  exact ⟨k, Table.mem_sortedDesc.mp hg, hp'⟩

theorem Tidy.pairwise_reorderEdits (h : Tidy ms) :
    (reorderEdits ms).Pairwise fun a b => b.1 < a.1 := by
  refine (misplacedGroups ms).sortedDesc_strict.filterMap _ ?_
  rintro ⟨k₁, bs₁⟩ ⟨k₂, bs₂⟩ hk ⟨p₁, c₁⟩ h₁ ⟨p₂, c₂⟩ h₂
  obtain ⟨q₁, hq₁, heq₁⟩ := map_eq_some_iff.mp h₁
  obtain ⟨q₂, hq₂, heq₂⟩ := map_eq_some_iff.mp h₂
  obtain ⟨rfl, -⟩ := Prod.mk.inj heq₁
  obtain ⟨rfl, -⟩ := Prod.mk.inj heq₂
  exact h.position_lt_position hq₂ hq₁ hk

theorem reorderToolResults_eq_ite (ms : List Message) :
    reorderToolResults ms =
      if (misplacedResults (toolUseIndex ms) ms).isEmpty then (ms, 0)
      else ((misplacedGroups ms).sortedDesc.foldl
        (reinsert (currentAssistantPositions (toolUseIndex ms) (remainingHistory ms)))
        (remainingHistory ms), (misplacedResults (toolUseIndex ms) ms).length) := rfl

theorem reorderToolResults_eq_foldl (ms : List Message) :
    (reorderToolResults ms).1 = ms ∧ misplacedResults (toolUseIndex ms) ms = [] ∨
      (reorderToolResults ms).1 =
        (reorderEdits ms).foldl (fun l e => attachAfter l e.1 e.2) (remainingHistory ms) := by
  by_cases hnil : misplacedResults (toolUseIndex ms) ms = []
  · left
    refine ⟨?_, hnil⟩
    simp only [reorderToolResults, hnil, isEmpty_nil, if_true]
  · right
    rw [reorderToolResults_eq_ite, if_neg (by simpa using hnil), reorderEdits,
      foldl_filterMap]
    change List.foldl _ _ _ = _
    congr 1
    funext l g
    simp only [reinsert]
    rcases (currentAssistantPositions _ _).lookup g.1 with _ | p <;> rfl

theorem Tidy.reorderToolResults_eq (h : Tidy ms) :
    (reorderToolResults ms).1 = ms ∧ misplacedResults (toolUseIndex ms) ms = [] ∨
      (reorderToolResults ms).1 =
        weave attachBlocks (fun p => (reorderEdits ms).lookup p) 0 (remainingHistory ms) := by
  refine (reorderToolResults_eq_foldl ms).imp_right fun hfold => ?_
  rw [hfold]
  refine foldl_editAfter_eq_weave h.pairwise_reorderEdits ?_ fun k e =>
    lookup_eq_some_iff_mem h.pairwise_reorderEdits
  rintro ⟨p, bs⟩ hp
  obtain ⟨k, -, hpos⟩ := of_mem_reorderEdits hp
  obtain ⟨m, hm, -⟩ := of_lookup_currentAssistantPositions hpos
  exact (List.getElem?_eq_some_iff.mp hm).1

/-- **Reordering places every result.** -/
theorem Tidy.placed_reorder (h : Tidy ms)
    (hknown : ∀ m ∈ ms, ∀ x ∈ m.toolResultIds, x ∈ allToolUseIds ms) :
    Tidy (reorderToolResults ms).1 ∧ (nothing :: (reorderToolResults ms).1).IsChain Placed := by
  have hstripped := h.isChain_placed_removeMisplaced hknown
  rcases h.reorderToolResults_eq with ⟨heq, hnil⟩ | heq
  · rw [misplacedSources, hnil, map_nil, removeMisplaced_nil] at hstripped
    rw [heq]
    exact ⟨h, hstripped⟩
  · have hins : ResultEdits fun p => (reorderEdits ms).lookup p := by
      intro p bs hp
      obtain ⟨k, hgroup, -⟩ :=
        of_mem_reorderEdits ((lookup_eq_some_iff_mem h.pairwise_reorderEdits).mp hp)
      obtain ⟨honly, hne, -⟩ := of_lookup_misplacedGroups hgroup
      exact ⟨honly, hne⟩
    have hrem := h.remaining
    rw [heq]
    refine ⟨hrem.weaveResults hins, isChain_placed_weave hins
      (fun m hm => ⟨hrem.roleOk m hm, hrem.nonEmpty m hm⟩) ?_
      (isChain_placed_retainNonEmpty hstripped)⟩
    -- a group goes behind the message that has its tool uses
    intro p m bs hm hp x hx
    rw [Nat.zero_add, lookup_eq_some_iff_mem h.pairwise_reorderEdits] at hp
    obtain ⟨k, hgroup, hpos⟩ := of_mem_reorderEdits hp
    obtain ⟨m', hm', y, hy, hyk⟩ := of_lookup_currentAssistantPositions hpos
    cases hm.symm.trans hm'
    obtain ⟨-, -, k', a, ha, hu⟩ := h.of_mem_remainingHistory (mem_of_getElem? hm)
    rw [hu] at hy ⊢
    cases (h.lookup_toolUseIndex.mpr ⟨a, ha, hy⟩).symm.trans hyk
    obtain ⟨a', ha', hxa⟩ :=
      h.lookup_toolUseIndex.mp ((of_lookup_misplacedGroups hgroup).2.2 x hx)
    cases ha.symm.trans ha'
    exact hxa

end AlloyAgent.SessionRepair
