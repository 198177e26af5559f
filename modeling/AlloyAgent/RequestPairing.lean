import AlloyAgent.AgentLoop
import AlloyAgent.RepairWellFormed
import AlloyAgent.Transition

/-!
# Tool pairing in the requests of the agent loop

The history is repaired once, and after that only cut (when it is trimmed and when it overflows) and
extended by turns: an assistant message and a user message that answers it.

* `Extends`, `Sent`: what the parts of an iteration do; `iterate_spec`: all of it;
* `allPaired_runAgentLoop_iff`: requests are paired exactly if the cuts are clean.
-/

namespace AlloyAgent.AgentLoop

open List Message Transition SessionRepair

variable {ω : Type} (svc : Services ω) (manifest : Manifest)

/-- A response that stops for tool use has one tool use block for each tool call. -/
def Aligned (r : CompletionResponse) : Prop :=
  r.stopReason = .toolUse →
    (∀ x, x ∈ r.content.filterMap (·.toolUseId?) ↔ x ∈ r.toolCalls.map ToolCall.id) ∧
      r.content.filterMap (·.toolResultId?) = []

def AlignedDriver : Prop :=
  ∀ w req r w', svc.complete w req = (.ok r, w') → Aligned r

/-- An assistant message and the user message that answers it. -/
structure Turn (a u : Message) : Prop where
  assistant : a.role = .assistant
  user : u.role = .user
  noResult : a.toolResultIds = []
  noUse : u.toolUseIds = []
  answers : Answers a u

theorem turn_text (s t : String) : Turn (ofAssistant s) (ofUser t) :=
  ⟨rfl, rfl, rfl, rfl, answers_of_nil rfl rfl⟩

/-- The state goes on with one more turn, and no request is sent. -/
def Extends (st st' : LoopState ω) : Prop :=
  st'.requests = st.requests ∧ ∃ a u, Turn a u ∧ st'.messages = st.messages ++ [a, u]

theorem saveAndReturn_requests (result : AgentLoopResult) (st : LoopState ω) :
    (saveAndReturn svc result st).2.requests = st.requests := by
  rw [saveAndReturn]
  split
  all_goals
    rename_i heq
    exact congrArg (fun p => p.2.requests) heq.symm

theorem runToolCall_spec (call : ToolCall) (st : LoopState ω) :
    Outcome (fun r => r.2.requests = st.requests)
      (fun p => p.2.requests = st.requests ∧ p.2.messages = st.messages ∧
        p.1.toolResultId? = some call.id ∧ p.1.toolUseId? = none)
      (runToolCall svc manifest call st) := by
  have hexec : ∀ warning (st' : LoopState ω), Outcome (fun r => r.2.requests = st'.requests)
      (fun p => p.2.requests = st'.requests ∧ p.2.messages = st'.messages ∧
        p.1.toolResultId? = some call.id ∧ p.1.toolUseId? = none)
      (hookedCall svc manifest call warning st') := by
    intro warning st'
    rw [hookedCall]
    split
    · exact ⟨rfl, rfl, rfl, rfl⟩
    · simp only [executeCall]
      split
      · rfl
      · exact ⟨rfl, rfl, rfl, rfl⟩
  simp only [runToolCall]
  split
  · rfl
  · exact ⟨rfl, rfl, rfl, rfl⟩
  · exact hexec _ _
  · exact hexec _ _

theorem runToolCalls_spec (calls : List ToolCall) :
    ∀ st : LoopState ω, Outcome (fun r => r.2.requests = st.requests)
      (fun p => p.2.requests = st.requests ∧ p.2.messages = st.messages ∧
        p.1.filterMap (·.toolResultId?) = calls.map ToolCall.id ∧
        p.1.filterMap (·.toolUseId?) = [])
      (runToolCalls svc manifest calls st) := by
  induction calls with
  | nil => exact fun st => ⟨rfl, rfl, rfl, rfl⟩
  | cons call calls ih =>
    intro st
    rw [runToolCalls]
    refine (runToolCall_spec svc manifest call st).bind ?_
    rintro ⟨b, st₁⟩ ⟨hreq, hmsg, hres, huse⟩
    rw [← hreq, ← hmsg]
    refine (ih st₁).bind ?_
    rintro ⟨bs, st₂⟩ ⟨hreq', hmsg', hres', huse'⟩
    refine ⟨hreq', hmsg', ?_, ?_⟩
    · rw [filterMap_cons_some hres, hres', map_cons]
    · rw [filterMap_cons_none huse, huse']

variable {r : CompletionResponse}

theorem toolUse_spec (hstop : r.stopReason = .toolUse) (hr : Aligned r) (st : LoopState ω) :
    Outcome (fun e => e.2.requests = st.requests) (Extends st) (toolUse svc manifest r st) := by
  obtain ⟨hids, hnone⟩ := hr hstop
  refine (runToolCalls_spec svc manifest r.toolCalls _).bind ?_
  rintro ⟨bs, st₁⟩ ⟨hreq, hmsg, hres, huse⟩
  refine ⟨hreq, ⟨.assistant, .blocks r.content⟩, ⟨.user, .blocks bs⟩,
    ⟨rfl, rfl, hnone, huse, fun x => ?_⟩, ?_⟩
  · rw [toolResultIds_blocks, toolUseIds_blocks, hres, hids]
  · change st₁.messages ++ _ = _
    rw [hmsg]
    simp [push]

theorem respond_spec (i : ℕ) (hr : Aligned r) (st : LoopState ω) :
    Outcome (fun e => e.2.requests = st.requests) (Extends st)
      (respond svc manifest i r st) := by
  have hend : Outcome (fun e => e.2.requests = st.requests) (Extends st) (endTurn svc i r st) := by
    simp only [endTurn]
    split
    · exact saveAndReturn_requests svc _ _
    · split
      · exact ⟨rfl, _, _, turn_text _ _, rfl⟩
      · exact saveAndReturn_requests svc _ _
  rw [respond]
  split
  · exact hend
  · exact hend
  · rename_i hstop
    exact toolUse_spec svc manifest hstop hr st
  · simp only [maxTokens]
    split
    · rfl
    · exact ⟨rfl, _, _, turn_text r.text "Please continue.", append_assoc _ _ _⟩

theorem aligned_promoteTextCalls (hr : Aligned r) (w : ω) :
    Aligned (promoteTextCalls svc manifest r w).1 := by
  simp only [promoteTextCalls]
  split_ifs
  · exact hr
  · intro _
    refine ⟨fun x => ?_, ?_⟩
    · simp [toolUseBlock, ContentBlock.toolUseId?]
    · simp [toolUseBlock, ContentBlock.toolResultId?]
  · exact hr

/-- The request is sent, perhaps several times, and nothing else happens. -/
structure Sent (req : CompletionRequest) (st : LoopState ω)
    (p : Except OpenFangError CompletionResponse × LoopState ω) : Prop where
  messages : p.2.messages = st.messages
  mem_requests : ∀ q, q ∈ p.2.requests ↔ q ∈ st.requests ∨ q = req
  /-- an answer comes from the driver -/
  answer : ∀ r, p.1 = .ok r → ∃ w w', svc.complete w req = (.ok r, w')

variable {st : LoopState ω}

theorem sent_once (hanswer : ∀ r, answer = .ok r → ∃ w w', svc.complete w req = (.ok r, w')) :
    Sent svc req st (answer, { st with world := w, requests := st.requests ++ [req] }) :=
  ⟨rfl, fun q => by simp, hanswer⟩

theorem callWithRetry_spec (req : CompletionRequest) (left : ℕ) (st : LoopState ω) :
    Sent svc req st (callWithRetry svc req left st) := by
  fun_induction callWithRetry svc req left st with
  | case1 left st w _ r hw => exact sent_once svc fun r' h => ⟨_, _, Except.ok.inj h ▸ hw⟩
  | case2 st w st' e msg left _ _ ih =>
    obtain ⟨hmsg, hmem, hanswer⟩ := ih
    refine ⟨hmsg, fun q => ?_, hanswer⟩
    rw [hmem, mem_append, mem_singleton, or_assoc, or_self]
  | case3 => exact sent_once svc fun r h => nomatch h
  | case4 => exact sent_once svc fun r h => nomatch h

theorem receive_spec (hr : Aligned r) (st : LoopState ω) :
    Aligned (receive svc manifest r st).1 ∧ (receive svc manifest r st).2.messages = st.messages ∧
      (receive svc manifest r st).2.requests = st.requests :=
  ⟨aligned_promoteTextCalls svc manifest hr st.world, rfl, rfl⟩

def Logged (req : CompletionRequest) (st st' : LoopState ω) : Prop :=
  ∀ q, q ∈ st'.requests ↔ q ∈ st.requests ∨ q = req

variable {messages : List Message}

/-- **One iteration** sends the prepared messages and goes on with one more turn. -/
theorem iterate_spec (hsvc : AlignedDriver svc) (i : ℕ) (st : LoopState ω)
    (hprep : prepare svc manifest st.messages = some messages) :
    Outcome (fun e => Logged (request manifest messages) st e.2)
      (fun st' => Logged (request manifest messages) st st' ∧
        ∃ a u, Turn a u ∧ st'.messages = messages ++ [a, u])
      (iterate svc manifest i st) := by
  have hsent := callWithRetry_spec svc (request manifest messages) maxRetries { st with messages }
  simp only [iterate, hprep]
  rcases hcall : callWithRetry svc (request manifest messages) maxRetries { st with messages }
    with ⟨answer, st₁⟩
  rw [hcall] at hsent
  obtain ⟨hmsg, hlog, hanswer⟩ := hsent
  cases answer with
  | error e => exact hlog
  | ok r =>
    obtain ⟨w, w', hw⟩ := hanswer r rfl
    obtain ⟨hr, hmsg', hreq'⟩ := receive_spec svc manifest (hsvc _ _ _ _ hw) st₁
    refine (respond_spec svc manifest i hr _).imp (fun e he => ?_) fun st' hst' => ?_
    · rw [Logged, he, hreq']
      exact hlog
    · obtain ⟨hreq, a, u, hturn, hext⟩ := hst'
      refine ⟨?_, a, u, hturn, ?_⟩
      · rw [Logged, hreq, hreq']
        exact hlog
      · rw [hext, hmsg', hmsg]

theorem iterate_of_panic (i : ℕ) (hprep : prepare svc manifest st.messages = none) :
    iterate svc manifest i st = .error (.panicked, st) := by
  rw [iterate, hprep]

/-- Paired, except that the first message may carry results. -/
structure OpenPaired (ms : List Message) : Prop where
  chain : (ms ++ [nothing]).IsChain Answers
  roleOk : ∀ m ∈ ms, m.RoleOk

variable {ms : List Message}

theorem OpenPaired.drop (h : OpenPaired ms) (n : ℕ) : OpenPaired (ms.drop n) := by
  refine ⟨?_, fun m hm => h.roleOk m (mem_of_mem_drop hm)⟩
  rcases Nat.lt_or_ge ms.length n with hlt | hge
  · rw [drop_eq_nil_of_le hlt.le]
    exact isChain_singleton _
  · have hchain := h.chain.drop n
    rwa [drop_append_of_le_length hge] at hchain

theorem OpenPaired.paired (h : OpenPaired ms)
    (hfirst : ∀ m, ms.head? = some m → m.toolResultIds = []) : Paired ms := by
  refine isChain_cons.mpr ⟨fun m hm => ?_, h.chain⟩
  cases ms with
  | nil =>
    obtain rfl : nothing = m := by simpa using hm
    exact answers_of_nil rfl rfl
  | cons m₀ ms =>
    obtain rfl : m₀ = m := by simpa using hm
    exact answers_of_nil rfl (hfirst m₀ rfl)

theorem openPaired_of_paired (hp : Paired ms) (hrole : ∀ m ∈ ms, m.RoleOk) : OpenPaired ms :=
  ⟨(isChain_cons.mp hp).2, hrole⟩

theorem paired_cons_summary (k : ℕ) (h : Paired ms) : Paired (ContextOverflow.summary k :: ms) := by
  refine isChain_cons_cons.mpr ⟨answers_of_nil rfl rfl, ?_⟩
  exact h.imp_head fun {w} hw => hw.congr_left rfl

theorem Turn.paired_append (hturn : Turn a u) (hp : Paired ms) : Paired (ms ++ [a, u]) := by
  have hchain : ((nothing :: ms) ++ [nothing]).IsChain Answers := hp
  obtain ⟨hms, -, hlast⟩ := isChain_append.mp hchain
  have hnew : ((nothing :: ms) ++ [a, u, nothing]).IsChain Answers := by
    refine isChain_append.mpr ⟨hms, ?_, fun p hp' m hm => ?_⟩
    · exact isChain_cons_cons.mpr ⟨hturn.answers,
        isChain_cons_cons.mpr ⟨answers_of_nil hturn.noUse rfl, isChain_singleton _⟩⟩
    · obtain rfl : a = m := by simpa using hm
      exact answers_of_nil ((hlast p hp' nothing rfl).use_nil rfl) hturn.noResult
  simpa [Paired] using hnew

theorem Turn.roleOk (hturn : Turn a u) (hm : m ∈ [a, u]) : m.RoleOk := by
  rcases mem_pair.mp hm with rfl | rfl
  · exact ⟨fun h => absurd hturn.assistant h, fun _ => hturn.noResult⟩
  · exact ⟨fun _ => hturn.noUse, fun h => absurd hturn.user h⟩

/-- How many messages the next iteration drops from the front. -/
def droppedNext (ms : List Message) : ℕ :=
  ContextOverflow.dropped
    (ContextOverflow.estimateTokens svc.toJson manifest.systemPrompt manifest.availableTools)
    manifest.ctxWindow ms

/-- The first message that the next iteration keeps carries no tool result. -/
def CleanCut (ms : List Message) : Prop :=
  ∀ m, ms[droppedNext svc manifest ms]? = some m → m.toolResultIds = []

/-- What is sent: the rest of the history, possibly behind a summary, with the
same ids. -/
theorem prepare_spec (h : prepare svc manifest ms = some messages) :
    ∃ cut, ContextOverflow.Fronted (ms.drop (droppedNext svc manifest ms)) cut ∧
      List.Forall₂ SameIds cut messages := by
  obtain ⟨⟨stage, ms₁⟩, h₁, h⟩ := Option.bind_eq_some_iff.mp h
  obtain ⟨⟨ms₂, n⟩, h₂, h⟩ := Option.bind_eq_some_iff.mp h
  cases h
  obtain ⟨cut, hcut, hsame⟩ := ContextOverflow.recover_spec h₁
  exact ⟨cut, hcut, forall₂_sameIds_trans hsame (ContextBudget.applyContextGuard_spec h₂)⟩

theorem prepare_paired (hopen : OpenPaired ms) (h : prepare svc manifest ms = some messages)
    (hclean : CleanCut svc manifest ms) : Paired messages ∧ ∀ m ∈ messages, m.RoleOk := by
  obtain ⟨cut, ⟨front, hfront, rfl⟩, hsame⟩ := prepare_spec svc manifest h
  have hkept : Paired (ms.drop (droppedNext svc manifest ms)) := by
    refine (hopen.drop _).paired fun m hm => hclean m ?_
    rwa [head?_drop] at hm
  have hcut : Paired (front ++ ms.drop (droppedNext svc manifest ms)) := by
    rcases hfront with rfl | ⟨-, k, rfl⟩
    · exact hkept
    · exact paired_cons_summary k hkept
  refine ⟨hcut.of_sameIds hsame, fun m' hm' => ?_⟩
  obtain ⟨m, hm, hmm⟩ := exists_mem_of_forall₂ hsame hm'
  refine hmm.roleOk ?_
  rcases mem_append.mp hm with hm | hm
  · rcases hfront with rfl | ⟨-, k, rfl⟩
    · cases hm
    · obtain rfl := mem_singleton.mp hm
      exact ⟨fun _ => rfl, fun _ => rfl⟩
  · exact hopen.roleOk m (mem_of_mem_drop hm)

theorem not_toolPaired_of_cut (h : prepare svc manifest ms = some messages)
    (hclean : ¬ CleanCut svc manifest ms) : ¬ ToolPaired messages := by
  intro hpaired
  simp only [CleanCut, not_forall, eq_nil_iff_forall_not_mem, not_not] at hclean
  obtain ⟨m, hm, x, hx⟩ := hclean
  obtain ⟨cut, ⟨front, hfront, rfl⟩, hsame⟩ := prepare_spec svc manifest h
  obtain ⟨rest, hrest⟩ : ∃ rest, ms.drop (droppedNext svc manifest ms) = m :: rest := by
    rw [← head?_drop, head?_eq_some_iff] at hm
    exact hm
  rw [hrest] at hsame
  rcases hfront with rfl | ⟨-, k, rfl⟩
  · cases hsame with
    | cons hmm _ =>
      obtain ⟨i, -, hi, -⟩ := hpaired.result_answers 0 _ x rfl ((hmm.results x).mpr hx)
      omega
  · -- the message before it is the summary, which is the user's
    cases hsame with
    | cons hss htail =>
      cases htail with
      | cons hmm _ =>
        obtain ⟨i, a, hi, ha, hrole, -⟩ :=
          hpaired.result_answers 1 _ x rfl ((hmm.results x).mpr hx)
        obtain rfl : i = 0 := by omega
        cases ha
        rw [hss.role] at hrole
        cases hrole

theorem toolPaired_prepare_iff (hopen : OpenPaired ms)
    (h : prepare svc manifest ms = some messages) :
    ToolPaired messages ↔ CleanCut svc manifest ms := by
  by_cases hclean : CleanCut svc manifest ms
  · obtain ⟨hp, hrole⟩ := prepare_paired svc manifest hopen h hclean
    exact iff_of_true (hp.toolPaired hrole) hclean
  · exact iff_of_false (not_toolPaired_of_cut svc manifest h hclean) hclean

def Next (a b : ℕ × LoopState ω) : Prop :=
  a.1 < manifest.maxIterations ∧ iterate svc manifest a.1 a.2 = .ok b.2 ∧ b.1 = a.1 + 1

/-- In every iteration that sends a request, the cut is clean. -/
def CutsClean (a : ℕ × LoopState ω) : Prop :=
  Always (Next svc manifest) (fun b => b.1 < manifest.maxIterations →
    (prepare svc manifest b.2.messages).isSome → CleanCut svc manifest b.2.messages) a

variable {i : ℕ}

theorem cutsClean_of_end (hi : manifest.maxIterations ≤ i) (st : LoopState ω) :
    CutsClean svc manifest (i, st) := by
  rw [CutsClean, always_iff_of_last]
  · exact fun h => absurd h (by simpa using hi)
  · exact fun b hb => absurd hb.1 (by simpa using hi)

theorem cutsClean_iff_of_error (hi : i < manifest.maxIterations)
    (he : iterate svc manifest i st = .error e) :
    CutsClean svc manifest (i, st) ↔
      ((prepare svc manifest st.messages).isSome → CleanCut svc manifest st.messages) := by
  rw [CutsClean, always_iff_of_last]
  · exact ⟨fun h => h hi, fun h _ => h⟩
  · simp [Next, he]

theorem cutsClean_iff_of_ok (hi : i < manifest.maxIterations)
    (hst : iterate svc manifest i st = .ok st') :
    CutsClean svc manifest (i, st) ↔
      ((prepare svc manifest st.messages).isSome → CleanCut svc manifest st.messages) ∧
        CutsClean svc manifest (i + 1, st') := by
  rw [CutsClean, always_iff_of_next (b := (i + 1, st'))]
  · exact and_congr ⟨fun h => h hi, fun h _ => h⟩ Iff.rfl
  · rintro ⟨j, stj⟩
    simp [Next, hi, hst, eq_comm, and_comm]

theorem mem_requests_runLoop (hsvc : AlignedDriver svc) (left : ℕ) :
    ∀ (i : ℕ) {st : LoopState ω} {q : CompletionRequest}, q ∈ st.requests →
      q ∈ (runLoop svc manifest left i st).2.requests := by
  induction left with
  | zero => exact fun i st q hq => hq
  | succ left ih =>
    intro i st q hq
    rw [runLoop]
    cases hprep : prepare svc manifest st.messages with
    | none =>
      rw [iterate_of_panic svc manifest i hprep]
      exact hq
    | some messages =>
      have hstep := iterate_spec svc manifest hsvc i st hprep
      cases hr : iterate svc manifest i st with
      | error e =>
        rw [hr] at hstep
        exact (hstep q).mpr (.inl hq)
      | ok st' =>
        rw [hr] at hstep
        exact ih (i + 1) ((hstep.1 q).mpr (.inl hq))

def AllPaired (st : LoopState ω) : Prop := ∀ q ∈ st.requests, ToolPaired q.messages

theorem Logged.allPaired_iff (h : Logged (request manifest messages) st st') :
    AllPaired st' ↔ AllPaired st ∧ ToolPaired messages := by
  simp only [AllPaired, h _, or_imp, forall_and, forall_eq]
  rfl

/-- The rest of the loop, from a state whose messages are paired but for the
first one. -/
theorem runLoop_paired_iff (hsvc : AlignedDriver svc) (left : ℕ) :
    ∀ (i : ℕ) (st : LoopState ω), i + left = manifest.maxIterations → OpenPaired st.messages →
      (AllPaired (runLoop svc manifest left i st).2 ↔
        AllPaired st ∧ CutsClean svc manifest (i, st)) := by
  induction left with
  | zero =>
    intro i st hi _
    exact (and_iff_left (cutsClean_of_end svc manifest (by omega) st)).symm
  | succ left ih =>
    intro i st hi hopen
    have hlt : i < manifest.maxIterations := by omega
    cases hprep : prepare svc manifest st.messages with
    | none =>
      have hpanic := iterate_of_panic svc manifest i hprep
      rw [runLoop, hpanic, cutsClean_iff_of_error svc manifest hlt hpanic]
      simp [hprep]
    | some messages =>
      have hstep := iterate_spec svc manifest hsvc i st hprep
      have hcut := toolPaired_prepare_iff svc manifest hopen hprep
      cases hr : iterate svc manifest i st with
      | error e =>
        rw [hr] at hstep
        rw [runLoop, hr, cutsClean_iff_of_error svc manifest hlt hr, hstep.allPaired_iff, hcut]
        simp [hprep]
      | ok st' =>
        rw [hr] at hstep
        obtain ⟨hlog, a, u, hturn, hmsg⟩ := hstep
        rw [runLoop, hr, cutsClean_iff_of_ok svc manifest hlt hr]
        by_cases hclean : CleanCut svc manifest st.messages
        · obtain ⟨hp, hrole⟩ := prepare_paired svc manifest hopen hprep hclean
          have hopen' : OpenPaired st'.messages := by
            rw [hmsg]
            refine openPaired_of_paired (hturn.paired_append hp) fun m hm => ?_
            rcases mem_append.mp hm with hm | hm
            · exact hrole m hm
            · exact hturn.roleOk hm
          rw [ih (i + 1) st' (by omega) hopen', hlog.allPaired_iff, hcut]
          simp [hclean, hprep]
        · -- the request of this iteration stays in the log
          refine iff_of_false (fun hall => ?_) fun hall => hclean (hall.2.1 (by simp [hprep]))
          have hmem := mem_requests_runLoop svc manifest hsvc left (i + 1)
            ((hlog (request manifest messages)).mpr (.inr rfl))
          exact hclean (hcut.mp (hall _ hmem))

/-- The histories that the repair can deal with. -/
structure Repairable (session : List Message) : Prop where
  /-- tool uses are the assistant's, results the user's -/
  roleOk : ∀ m ∈ session, m.role ≠ .system → m.RoleOk
  nodup : (allToolUseIds (session.filter fun m => m.role ≠ .system)).Nodup

variable {session : List Message}

theorem filter_concat_user (session : List Message) (s : String) :
    (session ++ [ofUser s]).filter (fun m => m.role ≠ .system) =
      session.filter (fun m => m.role ≠ .system) ++ [ofUser s] := by
  rw [filter_append]
  rfl

section

variable (h : Repairable session)
include h

theorem Repairable.concat_user (s : String) : Repairable (session ++ [ofUser s]) := by
  refine ⟨fun m hm hsys => ?_, ?_⟩
  · rcases mem_append.mp hm with hm | hm
    · exact h.roleOk m hm hsys
    · obtain rfl := mem_singleton.mp hm
      exact ⟨fun _ => rfl, fun _ => rfl⟩
  · have hids : allToolUseIds (session.filter (fun m => m.role ≠ .system) ++ [ofUser s]) =
        allToolUseIds (session.filter fun m => m.role ≠ .system) := by
      simp [allToolUseIds, ofUser]
    rw [filter_concat_user, hids]
    exact h.nodup

theorem Repairable.filter_roleOk : ∀ m ∈ session.filter fun m => m.role ≠ .system, m.RoleOk := by
  intro m hm
  obtain ⟨hm, hsys⟩ := mem_filter.mp hm
  exact h.roleOk m hm (by simpa using hsys)

theorem Repairable.openPaired_initialMessages : OpenPaired (initialMessages session) := by
  obtain ⟨-, hsettled⟩ := settled_validateAndRepair h.filter_roleOk h.nodup
  exact (openPaired_of_paired hsettled.paired hsettled.roleOk).drop _

end

theorem allPaired_runAgentLoop_iff (hsvc : AlignedDriver svc) (h : Repairable session)
    (s : String) (w : ω) :
    AllPaired (runAgentLoop svc manifest session s w).2 ↔
      CutsClean svc manifest (0, initialState session s w) := by
  have hopen : OpenPaired (initialState session s w).messages := by
    rw [initialState_messages]
    exact (h.concat_user s).openPaired_initialMessages
  have hempty : AllPaired (initialState session s w) := by
    simp [AllPaired]
  rw [runAgentLoop, runLoop_paired_iff svc manifest hsvc _ 0 _ (Nat.zero_add _) hopen]
  exact and_iff_right hempty

end AlloyAgent.AgentLoop
