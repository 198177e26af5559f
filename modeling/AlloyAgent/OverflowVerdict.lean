import AlloyAgent.ContextOverflow
import AlloyAgent.ToolResults

/-!
# What the recovery reports

`recover_from_overflow` returns which stage did the work, and how many messages are gone.

* `recover_eq`: the stages, one after another;
* `recover_truthful_iff`, `recover_counts_iff`: when the report is right.
-/

namespace AlloyAgent.ContextOverflow

open List Message RustStr

section

variable (estimate : List Message → ℕ) (window : ℕ) (messages : List Message)

def AutoEnough : Prop :=
  estimate messages ≤ threshold90 window ∧ 10 < messages.length ∧
    estimate (messages.drop (messages.length - 10)) ≤ threshold70 window

instance decidableAutoEnough : Decidable (AutoEnough estimate window messages) :=
  inferInstanceAs (Decidable (_ ∧ _))

/-- How many messages stage 2 removes: stage 1 may have left ten. -/
def overflowRemoved : ℕ :=
  if estimate messages ≤ threshold90 window ∧ 10 < messages.length then 6
  else messages.length - 4

/-- The last four messages, behind the summary of stage 2. -/
def summarized : List Message :=
  summary (overflowRemoved estimate window messages) :: messages.drop (messages.length - 4)

def OverflowEnough : Prop :=
  4 < messages.length ∧ estimate (summarized estimate window messages) ≤ threshold90 window

instance decidableOverflowEnough : Decidable (OverflowEnough estimate window messages) :=
  inferInstanceAs (Decidable (_ ∧ _))

/-- What is left for stage 3. -/
def remaining : List Message :=
  if 4 < messages.length then summarized estimate window messages else messages

/-- Stage 3, and the verdict if it is not enough. -/
def truncateResults (rest : List Message) : Option (RecoveryStage × List Message) := do
  let (rest, truncated) ← rewriteResults truncateResult rest 0
  if 0 < truncated ∧ estimate rest ≤ threshold90 window then
    return (.toolResultTruncation truncated, rest)
  else return (.finalError, rest)

variable {estimate window messages}

theorem autoCompact_eq :
    autoCompact estimate window messages =
      if AutoEnough estimate window messages then
        .error (.autoCompaction (messages.length - 10), messages.drop (messages.length - 10))
      else if estimate messages ≤ threshold90 window then
        .ok (messages.drop (messages.length - 10))
      else .ok messages := by
  have hremove : messages.length - min 10 messages.length = messages.length - 10 := by omega
  simp only [autoCompact, hremove, AutoEnough]
  by_cases h90 : estimate messages ≤ threshold90 window
  · by_cases hlong : 10 < messages.length
    · have hpos : 0 < messages.length - 10 := by omega
      simp only [h90, hlong, hpos, if_true, true_and]
    · have hzero : messages.length - 10 = 0 := by omega
      simp [h90, hlong, hzero]
  · simp [h90]

theorem overflowCompact_eq {rest : List Message} {removed : ℕ}
    (hremoved : rest.length - 4 = removed) :
    overflowCompact estimate window rest =
      if 4 < rest.length then
        if estimate (summary removed :: rest.drop removed) ≤ threshold90 window then
          .error (.overflowCompaction removed, summary removed :: rest.drop removed)
        else .ok (summary removed :: rest.drop removed)
      else .ok rest := by
  have hremove : rest.length - min 4 rest.length = removed := by omega
  simp only [overflowCompact, hremove]
  by_cases hlong : 4 < rest.length
  · rw [if_pos (by omega), if_pos hlong]
  · rw [if_neg (by omega), if_neg hlong]

theorem compactions_eq :
    (autoCompact estimate window messages >>= overflowCompact estimate window) =
      if AutoEnough estimate window messages then
        .error (.autoCompaction (messages.length - 10), messages.drop (messages.length - 10))
      else if OverflowEnough estimate window messages then
        .error (.overflowCompaction (overflowRemoved estimate window messages),
          summarized estimate window messages)
      else .ok (remaining estimate window messages) := by
  rw [autoCompact_eq]
  by_cases hauto : AutoEnough estimate window messages
  · rw [if_pos hauto, if_pos hauto]
    rfl
  · rw [if_neg hauto, if_neg hauto]
    by_cases h10 : estimate messages ≤ threshold90 window ∧ 10 < messages.length
    · -- stage 1 has left ten messages
      have hlength : (messages.drop (messages.length - 10)).length = 10 := by
        rw [length_drop]
        omega
      have hdrop : (messages.drop (messages.length - 10)).drop 6 =
          messages.drop (messages.length - 4) := by
        rw [drop_drop]
        congr 1
        omega
      have hstage := @overflowCompact_eq estimate window
        (messages.drop (messages.length - 10)) 6 (by omega)
      rw [hdrop, hlength, if_pos (by decide)] at hstage
      rw [if_pos h10.1]
      refine hstage.trans ?_
      have hlong : 4 < messages.length := by omega
      simp only [OverflowEnough, summarized, remaining, overflowRemoved, if_pos h10, hlong,
        if_true, true_and]
    · have hsame : (if estimate messages ≤ threshold90 window then
          (.ok (messages.drop (messages.length - 10)) :
            Except (RecoveryStage × List Message) (List Message)) else .ok messages) =
          .ok messages := by
        split_ifs with h90
        · have hzero : messages.length - 10 = 0 := by
            rw [not_and] at h10
            omega
          rw [hzero, drop_zero]
        · rfl
      rw [hsame]
      refine (@overflowCompact_eq estimate window messages _ rfl).trans ?_
      simp only [OverflowEnough, summarized, remaining, overflowRemoved, if_neg h10]
      by_cases hlong : 4 < messages.length
      · simp only [hlong, if_true, true_and]
      · simp only [hlong, if_false, false_and]

/-- **The recovery pipeline**, stage by stage. -/
theorem recover_eq :
    recover estimate window messages =
      if estimate messages ≤ threshold70 window then some (.none, messages)
      else if AutoEnough estimate window messages then
        some (.autoCompaction (messages.length - 10), messages.drop (messages.length - 10))
      else if OverflowEnough estimate window messages then
        some (.overflowCompaction (overflowRemoved estimate window messages),
          summarized estimate window messages)
      else truncateResults estimate window (remaining estimate window messages) := by
  rw [recover, compactions_eq]
  split_ifs <;> rfl

def isLong (content : String) : Bool := decide (toolTruncationLimit < content.utf8ByteSize)

def Cuttable (content : String) : Prop := Boundary content.toList (toolTruncationLimit - 80)

instance decidableCuttable (content : String) : Decidable (Cuttable content) :=
  decidableBoundary _ _

variable {content : String}

theorem truncateResult_of_short (h : isLong content = false) (n : ℕ) :
    truncateResult content n = some (content, n) :=
  if_neg (of_decide_eq_false h)

theorem truncateResult_of_long (h : isLong content = true) (hcut : Cuttable content) (n : ℕ) :
    ∃ content', truncateResult content n = some (content', n + 1) := by
  obtain ⟨head, hhead⟩ := Option.isSome_iff_exists.mp (isSome_takeBytes?.mpr hcut)
  rw [truncateResult, if_pos (of_decide_eq_true h)]
  simp only [hhead]
  exact ⟨_, rfl⟩

theorem truncateResult_of_not (h : isLong content = true) (hcut : ¬ Cuttable content) (n : ℕ) :
    truncateResult content n = none := by
  rw [truncateResult, if_pos (of_decide_eq_true h)]
  simp only [takeBytes?_eq_none hcut]
  rfl

theorem mapM_truncateResult : ∀ (contents : List String) (n : ℕ),
    (∀ c ∈ contents, isLong c = true → Cuttable c) →
    ∃ contents', contents.mapM truncateResult n = some (contents', n + contents.countP isLong) ∧
      (contents.countP isLong = 0 → contents' = contents) := by
  intro contents
  induction contents with
  | nil => intro n _; exact ⟨[], rfl, fun _ => rfl⟩
  | cons c contents ih =>
    intro n hcut
    have hrest (m : ℕ) := ih m fun d hd => hcut d (mem_cons_of_mem c hd)
    rw [mapM_cons]
    cases hc : isLong c with
    | false =>
      obtain ⟨contents', hrun, hsame⟩ := hrest n
      rw [countP_cons_of_neg (by simp [hc])]
      refine ⟨c :: contents', ?_, fun hzero => by rw [hsame hzero]⟩
      simp only [bind, StateT.bind, truncateResult_of_short hc, Option.bind_some, hrun]
      rfl
    | true =>
      obtain ⟨c', hc'⟩ := truncateResult_of_long hc (hcut c mem_cons_self hc) n
      obtain ⟨contents', hrun, -⟩ := hrest (n + 1)
      rw [countP_cons_of_pos hc]
      refine ⟨c' :: contents', ?_, fun hzero => by omega⟩
      simp only [bind, StateT.bind, hc', Option.bind_some, hrun]
      rw [Nat.add_assoc, Nat.add_comm 1]
      rfl

theorem mapM_truncateResult_none : ∀ (contents : List String) (n : ℕ),
    (∃ c ∈ contents, isLong c = true ∧ ¬ Cuttable c) →
    contents.mapM truncateResult n = none := by
  intro contents
  induction contents with
  | nil => rintro n ⟨c, hc, -⟩; cases hc
  | cons c contents ih =>
    rintro n ⟨d, hd, hlong, hcut⟩
    rw [mapM_cons]
    rcases mem_cons.mp hd with rfl | hd
    · simp [bind, StateT.bind, truncateResult_of_not hlong hcut]
    · cases hfirst : truncateResult c n with
      | none => simp [bind, StateT.bind, hfirst]
      | some r => simp [bind, StateT.bind, hfirst, ih r.2 ⟨d, hd, hlong, hcut⟩]

/-- **Stage 3** aborts, or reports what it has cut, or gives up. -/
theorem truncateResults_spec (rest : List Message) :
    ((∃ c ∈ toolResults rest, isLong c = true ∧ ¬ Cuttable c) ∧
        truncateResults estimate window rest = none) ∨
    (∀ c ∈ toolResults rest, isLong c = true → Cuttable c) ∧
      ∃ rest', ((toolResults rest).countP isLong = 0 → rest' = rest) ∧
        truncateResults estimate window rest =
          if 0 < (toolResults rest).countP isLong ∧ estimate rest' ≤ threshold90 window then
            some (.toolResultTruncation ((toolResults rest).countP isLong), rest')
          else some (.finalError, rest') := by
  by_cases hcut : ∀ c ∈ toolResults rest, isLong c = true → Cuttable c
  · refine .inr ⟨hcut, ?_⟩
    obtain ⟨contents', hrun, hsame⟩ := mapM_truncateResult (toolResults rest) 0 hcut
    rw [Nat.zero_add] at hrun
    obtain ⟨rest', hrest', hcontents⟩ := exists_rewriteResults hrun
    refine ⟨rest', fun hzero => ?_, ?_⟩
    · exact eq_of_emptied (rewriteResults_eq_some hrest').1 (hcontents.trans (hsame hzero))
    · rw [truncateResults, hrest']
      simp only [bind, Option.bind]
      split_ifs <;> rfl
  · refine .inl ?_
    push Not at hcut
    refine ⟨hcut, ?_⟩
    cases hrest : rewriteResults truncateResult rest 0 with
    | none =>
      rw [truncateResults, hrest]
      rfl
    | some r =>
      have hrun := (rewriteResults_eq_some hrest).2
      rw [mapM_truncateResult_none _ 0 hcut] at hrun
      cases hrun

variable (estimate window messages)

/-- The recovery returns, and gives up exactly if what it leaves is above 90% of the window. -/
def Truthful : Prop :=
  ∃ stage messages', recover estimate window messages = some (stage, messages') ∧
    (stage = .finalError ↔ threshold90 window < estimate messages')

/-- A short history that is over 70% and not over 90% of the window, with nothing to cut. -/
def NothingToRemove : Prop :=
  threshold70 window < estimate messages ∧ estimate messages ≤ threshold90 window ∧
    messages.length ≤ 4 ∧ ∀ c ∈ toolResults messages, c.utf8ByteSize ≤ toolTruncationLimit

/-- Neither of the first two stages is enough. -/
def NeedsTruncation : Prop :=
  threshold70 window < estimate messages ∧ ¬ AutoEnough estimate window messages ∧
    ¬ OverflowEnough estimate window messages

/-- No long result among the last four messages would be cut inside a character. -/
def CutsBetweenCharacters : Prop :=
  ∀ c ∈ toolResults (messages.drop (messages.length - 4)),
    toolTruncationLimit < c.utf8ByteSize → Boundary c.toList 1920

variable {estimate window messages}

theorem toolResults_remaining :
    toolResults (remaining estimate window messages) =
      toolResults (messages.drop (messages.length - 4)) := by
  rw [remaining]
  split_ifs with hlong
  · rfl
  · have hzero : messages.length - 4 = 0 := by omega
    rw [hzero, drop_zero]

theorem forall_cuttable_iff :
    (∀ c ∈ toolResults (remaining estimate window messages), isLong c = true → Cuttable c) ↔
      CutsBetweenCharacters messages := by
  rw [toolResults_remaining]
  simp only [isLong, decide_eq_true_eq]
  rfl

theorem nothingToRemove_iff (hlarge : threshold70 window < estimate messages) :
    NothingToRemove estimate window messages ↔ estimate messages ≤ threshold90 window ∧
      messages.length ≤ 4 ∧
      (toolResults (remaining estimate window messages)).countP isLong = 0 := by
  rw [NothingToRemove, and_iff_right hlarge]
  refine and_congr_right fun _ => and_congr_right fun hshort => ?_
  rw [remaining, if_neg (Nat.not_lt.mpr hshort), countP_eq_zero]
  simp only [isLong, decide_eq_true_eq, Nat.not_lt]

theorem truthful_of_needsTruncation (hneeds : NeedsTruncation estimate window messages) :
    Truthful estimate window messages ↔
      CutsBetweenCharacters messages ∧ ¬ NothingToRemove estimate window messages := by
  obtain ⟨hlarge, hauto, hoverflow⟩ := hneeds
  have hrecover : recover estimate window messages =
      truncateResults estimate window (remaining estimate window messages) := by
    rw [recover_eq, if_neg (Nat.not_le.mpr hlarge), if_neg hauto, if_neg hoverflow]
  rw [nothingToRemove_iff hlarge, ← @forall_cuttable_iff estimate window]
  rcases @truncateResults_spec estimate window
    (remaining estimate window messages) with ⟨⟨c, hc, hlong, hcut⟩, hnone⟩ |
    ⟨hcuts, rest', hsame, hrest'⟩
  · refine iff_of_false ?_ fun h => hcut (h.1 c hc hlong)
    rintro ⟨stage, messages', hsome, -⟩
    rw [hrecover, hnone] at hsome
    cases hsome
  · rw [and_iff_right hcuts, Truthful, hrecover, hrest']
    by_cases hzero : (toolResults (remaining estimate window messages)).countP isLong = 0
    · -- nothing was cut
      rw [if_neg (by omega), hsame hzero]
      have hverdict : (∃ stage messages', some (RecoveryStage.finalError,
            remaining estimate window messages) = some (stage, messages') ∧
            (stage = .finalError ↔ threshold90 window < estimate messages')) ↔
          threshold90 window < estimate (remaining estimate window messages) := by
        constructor
        · rintro ⟨stage, messages', heq, hiff⟩
          cases heq
          exact hiff.mp rfl
        · exact fun h => ⟨_, _, rfl, iff_of_true rfl h⟩
      rw [hverdict]
      by_cases hshort : messages.length ≤ 4
      · rw [remaining, if_neg (Nat.not_lt.mpr hshort)]
        rw [remaining, if_neg (Nat.not_lt.mpr hshort)] at hzero
        simp only [hshort, hzero, and_true, Nat.not_le]
      · have hlong : 4 < messages.length := Nat.lt_of_not_le hshort
        rw [remaining, if_pos hlong]
        refine iff_of_true ?_ fun h => hshort h.2.1
        exact Nat.lt_of_not_le fun hle => hoverflow ⟨hlong, hle⟩
    · refine iff_of_true ?_ fun h => hzero h.2.2
      by_cases h90 : estimate rest' ≤ threshold90 window
      · rw [if_pos ⟨Nat.pos_of_ne_zero hzero, h90⟩]
        exact ⟨_, _, rfl, iff_of_false nofun (Nat.not_lt.mpr h90)⟩
      · rw [if_neg fun h => h90 h.2]
        exact ⟨_, _, rfl, iff_of_true rfl (Nat.lt_of_not_le h90)⟩

theorem truthful_iff (hthresholds : threshold70 window ≤ threshold90 window) :
    Truthful estimate window messages ↔
      (NeedsTruncation estimate window messages → CutsBetweenCharacters messages) ∧
        ¬ NothingToRemove estimate window messages := by
  -- the earlier stages return only what is small enough
  have hdone (stage : RecoveryStage) (messages' : List Message) (hstage : stage ≠ .finalError)
      (hrecover : recover estimate window messages = some (stage, messages'))
      (hsmall : estimate messages' ≤ threshold90 window)
      (hneeds : ¬ NeedsTruncation estimate window messages)
      (hsome : ¬ NothingToRemove estimate window messages) :
      Truthful estimate window messages ↔
        (NeedsTruncation estimate window messages → CutsBetweenCharacters messages) ∧
          ¬ NothingToRemove estimate window messages :=
    iff_of_true ⟨stage, messages', hrecover, iff_of_false hstage (Nat.not_lt.mpr hsmall)⟩
      ⟨fun h => absurd h hneeds, hsome⟩
  by_cases hsmall : estimate messages ≤ threshold70 window
  · refine hdone .none messages nofun ?_ (hsmall.trans hthresholds) ?_ ?_
    · rw [recover_eq, if_pos hsmall]
    · exact fun h => absurd h.1 (Nat.not_lt.mpr hsmall)
    · exact fun h => absurd h.1 (Nat.not_lt.mpr hsmall)
  · by_cases hauto : AutoEnough estimate window messages
    · refine hdone (.autoCompaction (messages.length - 10))
        (messages.drop (messages.length - 10)) nofun ?_ (hauto.2.2.trans hthresholds) ?_ ?_
      · rw [recover_eq, if_neg hsmall, if_pos hauto]
      · exact fun h => h.2.1 hauto
      · intro h
        have hlong := hauto.2.1
        have hshort := h.2.2.1
        omega
    · by_cases hoverflow : OverflowEnough estimate window messages
      · refine hdone (.overflowCompaction (overflowRemoved estimate window messages))
          (summarized estimate window messages) nofun ?_ hoverflow.2 ?_ ?_
        · rw [recover_eq, if_neg hsmall, if_neg hauto, if_pos hoverflow]
        · exact fun h => h.2.2 hoverflow
        · exact fun h => absurd hoverflow.1 (Nat.not_lt.mpr h.2.2.1)
      · have hneeds : NeedsTruncation estimate window messages :=
          ⟨Nat.lt_of_not_le hsmall, hauto, hoverflow⟩
        rw [truthful_of_needsTruncation hneeds]
        exact and_congr_left fun _ => ⟨fun h _ => h, fun h => h hneeds⟩

end

/-- **The verdict tells the truth** if something can be removed and no character is cut. -/
theorem recover_truthful_iff (toJson : Json → Option String) (messages : List Message)
    (systemPrompt : String) (tools : List ToolDefinition) (contextWindow : ℕ)
    (hthresholds : threshold70 contextWindow ≤ threshold90 contextWindow) :
    (∃ stage messages',
        recoverFromOverflow toJson messages systemPrompt tools contextWindow =
          some (stage, messages') ∧
        (stage = .finalError ↔
          threshold90 contextWindow < estimateTokens toJson systemPrompt tools messages')) ↔
      (NeedsTruncation (estimateTokens toJson systemPrompt tools) contextWindow messages →
        CutsBetweenCharacters messages) ∧
      ¬ NothingToRemove (estimateTokens toJson systemPrompt tools) contextWindow messages :=
  truthful_iff hthresholds

/-- A short question in a window of a hundred tokens needs no recovery. -/
theorem hello_truthful :
    ∃ stage messages',
      recoverFromOverflow (fun _ => none) [.ofUser "hello"] "" [] 100 = some (stage, messages') ∧
        (stage = .finalError ↔
          threshold90 100 < estimateTokens (fun _ => none) "" [] messages') := by
  refine (recover_truthful_iff (fun _ => none) [.ofUser "hello"] "" [] 100 (by decide)).mpr
    ⟨fun h => absurd h.1 (by decide), fun h => absurd h.1 (by decide)⟩

/-- One message, at 8 of 10 tokens: the context is reported as unrecoverable. -/
theorem unremovable_reported_final :
    recoverFromOverflow (fun _ => none) [.ofUser "Continue please."] "" [] 10 =
        some (.finalError, [.ofUser "Continue please."]) ∧
      estimateTokens (fun _ => none) "" [] [.ofUser "Continue please."] = 8 ∧
      threshold70 10 = 7 ∧ threshold90 10 = 9 := by
  refine ⟨?_, by decide, by decide, by decide⟩
  rfl

section

variable (estimate : List Message → ℕ) (window : ℕ) (messages : List Message)

/-- What a compaction reports is what is gone. -/
def CountsRight : Prop :=
  ∀ stage messages', recover estimate window messages = some (stage, messages') →
    (∀ removed, stage = .autoCompaction removed →
      removed ≤ messages.length ∧ messages' = messages.drop removed) ∧
    ∀ removed, stage = .overflowCompaction removed →
      removed ≤ messages.length ∧ messages' = summary removed :: messages.drop removed

/-- Stage 1 removes messages, but not enough; with stage 2 it is enough. -/
def BothCompactions : Prop :=
  threshold70 window < estimate messages ∧ estimate messages ≤ threshold90 window ∧
    10 < messages.length ∧
    threshold70 window < estimate (messages.drop (messages.length - 10)) ∧
    estimate (summary 6 :: messages.drop (messages.length - 4)) ≤ threshold90 window

variable {estimate window messages}

theorem not_countsRight_of_both (h : BothCompactions estimate window messages) :
    ¬ CountsRight estimate window messages := by
  obtain ⟨hlarge, h90, hlong, hten, hfour⟩ := h
  have hauto : ¬ AutoEnough estimate window messages :=
    fun hauto => absurd hauto.2.2 (Nat.not_le.mpr hten)
  have hsix : overflowRemoved estimate window messages = 6 := by
    rw [overflowRemoved, if_pos ⟨h90, hlong⟩]
  have hoverflow : OverflowEnough estimate window messages := by
    refine ⟨by omega, ?_⟩
    rw [summarized, hsix]
    exact hfour
  intro hright
  have hrecover : recover estimate window messages = some (.overflowCompaction 6,
      summary 6 :: messages.drop (messages.length - 4)) := by
    rw [recover_eq, if_neg (Nat.not_le.mpr hlarge), if_neg hauto, if_pos hoverflow, summarized,
      hsix]
  have hkept := ((hright _ _ hrecover).2 6 rfl).2
  have hlength := congrArg List.length hkept
  simp only [length_cons, length_drop] at hlength
  omega

theorem countsRight_of_not (h : ¬ BothCompactions estimate window messages) :
    CountsRight estimate window messages := by
  intro stage messages' hrecover
  rw [recover_eq] at hrecover
  split_ifs at hrecover with hsmall hauto hoverflow
  · cases hrecover
    exact ⟨nofun, nofun⟩
  · cases hrecover
    refine ⟨fun removed heq => ?_, nofun⟩
    cases heq
    exact ⟨Nat.sub_le _ _, rfl⟩
  · cases hrecover
    refine ⟨nofun, fun removed heq => ?_⟩
    cases heq
    -- stage 1 has not removed anything
    have hone : ¬ (estimate messages ≤ threshold90 window ∧ 10 < messages.length) := by
      intro h10
      refine h ⟨Nat.lt_of_not_le hsmall, h10.1, h10.2, ?_, ?_⟩
      · exact Nat.lt_of_not_le fun hle => hauto ⟨h10.1, h10.2, hle⟩
      · have hfour := hoverflow.2
        rw [summarized, overflowRemoved, if_pos h10] at hfour
        exact hfour
    rw [summarized, overflowRemoved, if_neg hone]
    exact ⟨Nat.sub_le _ _, rfl⟩
  · rcases @truncateResults_spec estimate window
      (remaining estimate window messages) with ⟨-, hnone⟩ | ⟨-, rest', -, hrest'⟩
    · rw [hnone] at hrecover
      cases hrecover
    · rw [hrest'] at hrecover
      split_ifs at hrecover
      · cases hrecover
        exact ⟨nofun, nofun⟩
      · cases hrecover
        exact ⟨nofun, nofun⟩

end

/-- **The count of removed messages is right** unless both compactions removed something. -/
theorem recover_counts_iff (toJson : Json → Option String) (messages : List Message)
    (systemPrompt : String) (tools : List ToolDefinition) (contextWindow : ℕ) :
    CountsRight (estimateTokens toJson systemPrompt tools) contextWindow messages ↔
      ¬ BothCompactions (estimateTokens toJson systemPrompt tools) contextWindow messages :=
  ⟨fun h hboth => not_countsRight_of_both hboth h, countsRight_of_not⟩

def elevenMessages : List Message := List.replicate 11 (.ofUser "Please continue with the list.")

/-- In a window of 150 tokens seven of them are removed, and six are reported. -/
theorem eleven_messages_miscounted :
    recoverFromOverflow (fun _ => none) elevenMessages "" [] 150 =
        some (.overflowCompaction 6, summary 6 :: elevenMessages.drop 7) ∧
      ¬ CountsRight (estimateTokens (fun _ => none) "" []) 150 elevenMessages := by
  refine ⟨?_, ?_⟩
  · have hsix : overflowRemoved (estimateTokens (fun _ => none) "" []) 150 elevenMessages = 6 :=
      if_pos (by decide +kernel)
    rw [recoverFromOverflow, recover_eq, if_neg (by decide +kernel), if_neg (by decide +kernel),
      if_pos (by decide +kernel), summarized, hsix]
    rfl
  · apply not_countsRight_of_both
    refine ⟨?_, ?_, ?_, ?_, ?_⟩ <;> decide +kernel

end AlloyAgent.ContextOverflow
