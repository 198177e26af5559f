import AlloyAgent.RepairDialogue
import AlloyAgent.RequestPairing

/-!
# When the cuts are clean

The three cuts of the agent loop keep 20, 10 and 4 messages.

* `runAgentLoop_paired_iff`: then, and only then, are all requests of a run paired;
* `runAgentLoop_paired`: they are, if no message of the user is empty.
-/

namespace AlloyAgent

open List

namespace AgentLoop

open Message Transition SessionRepair

variable {ω : Type} (svc : Services ω) (manifest : Manifest)

structure Conversation (ms : List Message) : Prop where
  paired : Paired ms
  roleOk : ∀ m ∈ ms, m.RoleOk
  dialogue : Dialogue (ms.map Message.role)

namespace Conversation

variable {ms : List Message}

section

variable (h : Conversation ms)
include h

theorem noResult_of_even (hn : n = 0 ∨ ∃ k, n + (2 * k + 2) = ms.length) (hm : ms[n]? = some m) :
    m.toolResultIds = [] := by
  rcases hn with rfl | ⟨k, hk⟩
  · -- the first message has nothing to answer
    rw [eq_nil_iff_forall_not_mem]
    intro x hx
    obtain ⟨i, -, hi, -⟩ := (h.paired.toolPaired h.roleOk).result_answers 0 m x hm hx
    omega
  · have hrole := h.dialogue.role_of_even (n := n) (k := k) (by rwa [length_map])
    rw [getElem?_map, hm] at hrole
    refine (h.roleOk m (mem_of_getElem? hm)).2 ?_
    rw [Option.some.inj hrole]
    decide

theorem length_pos : 0 < ms.length := by
  rcases ms with _ | ⟨m, ms⟩
  · cases h.dialogue.last
  · exact Nat.succ_pos _

theorem drop (hn : n = 0 ∨ ∃ k, n + (2 * k + 2) = ms.length) : Conversation (ms.drop n) := by
  have hlt : n < ms.length := by
    have := h.length_pos
    omega
  refine ⟨?_, fun m hm => h.roleOk m (mem_of_mem_drop hm), ?_⟩
  · refine ((openPaired_of_paired h.paired h.roleOk).drop n).paired fun m hm => ?_
    rw [head?_drop] at hm
    exact h.noResult_of_even hn hm
  · rw [map_drop]
    exact h.dialogue.drop (by rwa [length_map])

theorem cons_summary (hlen : ms.length = 2 * j + 2) (k : ℕ) :
    Conversation (ContextOverflow.summary k :: ms) := by
  refine ⟨paired_cons_summary k h.paired, fun m hm => ?_, ?_⟩
  · rcases mem_cons.mp hm with rfl | hm
    · exact ⟨fun _ => rfl, fun _ => rfl⟩
    · exact h.roleOk m hm
  · refine h.dialogue.cons_user ?_
    have hfirst := h.dialogue.role_of_even (n := 0) (k := j) (by rw [length_map]; omega)
    rwa [← head?_eq_getElem?] at hfirst

theorem of_sameIds (hsame : List.Forall₂ SameIds ms ms') : Conversation ms' := by
  refine ⟨h.paired.of_sameIds hsame, fun m' hm' => ?_, ?_⟩
  · obtain ⟨m, hm, hmm⟩ := exists_mem_of_forall₂ hsame hm'
    exact hmm.roleOk (h.roleOk m hm)
  · rw [map_role_of_sameIds hsame]
    exact h.dialogue

theorem append_turn (hturn : Turn a u) : Conversation (ms ++ [a, u]) := by
  refine ⟨hturn.paired_append h.paired, fun m hm => ?_, ?_⟩
  · rcases mem_append.mp hm with hm | hm
    · exact h.roleOk m hm
    · exact hturn.roleOk hm
  · rw [map_append, map_cons, map_singleton, hturn.assistant, hturn.user]
    exact h.dialogue.append_turn

end

end Conversation

theorem droppedNext_even (ms : List Message) :
    droppedNext svc manifest ms = 0 ∨
      ∃ k, droppedNext svc manifest ms + (2 * k + 2) = ms.length := by
  simp only [droppedNext, ContextOverflow.dropped]
  split_ifs
  · exact .inl rfl
  · rcases Nat.lt_or_ge ms.length 10 with hlt | hge
    · exact .inl (by omega)
    · exact .inr ⟨4, by omega⟩
  · rcases Nat.lt_or_ge ms.length 4 with hlt | hge
    · exact .inl (by omega)
    · exact .inr ⟨1, by omega⟩

theorem Conversation.cleanCut (h : Conversation ms) : CleanCut svc manifest ms :=
  fun _ hm => h.noResult_of_even (droppedNext_even svc manifest ms) hm

theorem Conversation.prepare (h : Conversation ms)
    (hprep : prepare svc manifest ms = some messages) : Conversation messages := by
  obtain ⟨cut, ⟨front, hfront, rfl⟩, hsame⟩ := prepare_spec svc manifest hprep
  have hkept := h.drop (droppedNext_even svc manifest ms)
  refine Conversation.of_sameIds ?_ hsame
  rcases hfront with rfl | ⟨hlen, k, rfl⟩
  · exact hkept
  · exact hkept.cons_summary (j := 1) hlen k

theorem Conversation.next (hsvc : AlignedDriver svc) (h : Conversation a.2.messages)
    (hab : Next svc manifest a b) : Conversation b.2.messages := by
  obtain ⟨-, hr, -⟩ := hab
  cases hprep : AgentLoop.prepare svc manifest a.2.messages with
  | none =>
    rw [iterate_of_panic svc manifest a.1 hprep] at hr
    cases hr
  | some messages =>
    have hstep := iterate_spec svc manifest hsvc a.1 a.2 hprep
    rw [hr] at hstep
    obtain ⟨-, m, u, hturn, hmsg⟩ := hstep
    rw [hmsg]
    exact (h.prepare svc manifest hprep).append_turn hturn

theorem Conversation.cutsClean (hsvc : AlignedDriver svc) (h : Conversation st.messages) :
    CutsClean svc manifest (i, st) :=
  always_of_invariant (fun b (hb : Conversation b.2.messages) _ _ => hb.cleanCut svc manifest)
    (fun _ _ ha hab => ha.next svc manifest hsvc hab) h

/-! ## The requests of a run -/

variable {session : List Message}

variable {s : String}

theorem conversation_initialMessages (h : Repairable session) (hs : s ≠ "") :
    Conversation (initialMessages (session ++ [ofUser s])) := by
  have h' := h.concat_user s
  have hrole := h'.filter_roleOk
  have hnodup := h'.nodup
  simp only [initialMessages]
  rw [filter_concat_user] at hrole hnodup ⊢
  obtain ⟨-, hsettled⟩ := settled_validateAndRepair hrole hnodup
  have hdialogue := dialogue_validateAndRepair hrole hnodup (fun m hm => by
    simpa using (mem_filter.mp hm).2) hs
  have hconv : Conversation _ := ⟨hsettled.paired, hsettled.roleOk, hdialogue⟩
  refine hconv.drop ?_
  simp only [maxHistoryMessages]
  rcases Nat.lt_or_ge (validateAndRepair (session.filter (fun m => m.role ≠ .system) ++
    [ofUser s])).length 20 with hlt | hge
  · exact .inl (by omega)
  · exact .inr ⟨9, by omega⟩

theorem cutsClean_of_nonempty (hsvc : AlignedDriver svc) (h : Repairable session) (hs : s ≠ "")
    (w : ω) : CutsClean svc manifest (0, initialState session s w) := by
  refine Conversation.cutsClean svc manifest hsvc ?_
  rw [initialState_messages]
  exact conversation_initialMessages h hs

/-- **Non-empty messages.** If the user says something, every request of the run is paired. -/
theorem runAgentLoop_paired (hsvc : AlignedDriver svc) (h : Repairable session) (hs : s ≠ "")
    (w : ω) : AllPaired (runAgentLoop svc manifest session s w).2 :=
  (allPaired_runAgentLoop_iff svc manifest hsvc h s w).mpr
    (cutsClean_of_nonempty svc manifest hsvc h hs w)

/-- A history of 22 messages whose third one answers the second. -/
def longHistory : List Message :=
  [.ofUser "hi", ⟨.assistant, .blocks [.toolUse "a" "shell" .null]⟩,
    ⟨.user, .blocks [.toolResult "a" "ok" false]⟩, .ofAssistant "ok"] ++
    (List.replicate 9 [.ofUser "go on", .ofAssistant "ok"]).flatten

-- after an empty message the trim keeps the answer and drops what it answers
example : (initialMessages (longHistory ++ [.ofUser ""])).map toolResultIds =
    ["a"] :: List.replicate 19 [] := by
  decide +kernel

/-- **Pairing in the requests**: the first message that is kept carries no tool result. -/
theorem runAgentLoop_paired_iff (svc : Services ω) (manifest : Manifest) (session : List Message)
    (userMessage : String) (w : ω) (hsvc : AlignedDriver svc) (hsession : Repairable session) :
    (∀ q ∈ (runAgentLoop svc manifest session userMessage w).2.requests, ToolPaired q.messages) ↔
      CutsClean svc manifest (0, initialState session userMessage w) :=
  allPaired_runAgentLoop_iff svc manifest hsvc hsession userMessage w

/-- The model first gives the response `first` and then ends its turn; the only tool says `ok`. -/
def scripted (first : CompletionResponse) : Services ℕ where
  complete n _ :=
    (.ok (if n = 0 then first else ⟨[.text "done"], .endTurn, [], ⟨1, 1⟩⟩), n + 1)
  userMessage _ := ""
  recoverTextToolCalls n _ _ := ([], n)
  parseDirectives text := (text, noDirectives)
  check n _ _ := (.allow, n)
  beforeToolCall n _ _ := (.ok (), n)
  executeTool n _ := (some ("ok", false), n)
  saveSession n _ := (.ok (), n)
  toJson _ := none

def plain : Manifest := ⟨"m", 100, 0, "", [], none, none⟩

def callShell : CompletionResponse :=
  ⟨[.toolUse "a" "shell" .null], .toolUse, [⟨"a", "shell", .null⟩], ⟨1, 1⟩⟩

theorem alignedDriver_scripted (h : Aligned first) : AlignedDriver (scripted first) := by
  intro n req r n' hr
  obtain ⟨rfl, -⟩ : _ = r ∧ _ := by simpa [scripted] using hr
  split_ifs
  · exact h
  · exact fun hstop => nomatch hstop

theorem callShell_paired :
    (runAgentLoop (scripted callShell) plain [] "hi" 0).2.requests.length = 2 ∧
      ∀ q ∈ (runAgentLoop (scripted callShell) plain [] "hi" 0).2.requests,
        ToolPaired q.messages := by
  have hsvc : AlignedDriver (scripted callShell) :=
    alignedDriver_scripted fun _ => ⟨fun x => by simp [callShell, ContentBlock.toolUseId?], rfl⟩
  have hsession : Repairable [] := ⟨by simp, by simp [allToolUseIds]⟩
  refine ⟨by decide +kernel, ?_⟩
  exact (runAgentLoop_paired_iff (scripted callShell) plain [] "hi" 0 hsvc hsession).mpr
    (cutsClean_of_nonempty _ _ hsvc hsession (by decide) 0)

/-- What the driver makes of a rejected tool call: tool calls, but no content. -/
def groqRecovered : CompletionResponse :=
  ⟨[], .toolUse, [⟨"groq_recovered_0", "shell", .null⟩], ⟨0, 0⟩⟩

theorem groqRecovered_ids :
    (runAgentLoop (scripted groqRecovered) plain [] "hi" 0).2.requests.map
      (fun q => q.messages.map fun m => (m.toolUseIds, m.toolResultIds)) =
      [[([], [])], [([], []), ([], []), ([], ["groq_recovered_0"])]] := by
  decide +kernel

/-- The second request has a result for a tool use that is nowhere. -/
theorem groqRecovered_not_paired :
    ¬ ∀ q ∈ (runAgentLoop (scripted groqRecovered) plain [] "hi" 0).2.requests,
      ToolPaired q.messages := by
  intro hall
  have hmem : [([], []), ([], []), ([], ["groq_recovered_0"])] ∈
      (runAgentLoop (scripted groqRecovered) plain [] "hi" 0).2.requests.map
        fun q => q.messages.map fun m => (m.toolUseIds, m.toolResultIds) := by
    rw [groqRecovered_ids]
    simp
  obtain ⟨q, hq, hids⟩ := mem_map.mp hmem
  have hat (i : ℕ) := congrArg (·[i]?) hids
  simp only [getElem?_map] at hat
  obtain ⟨m, hm, hres⟩ := Option.map_eq_some_iff.mp (hat 2)
  obtain ⟨i, a, hi, ha, -, hx⟩ := (hall q hq).result_answers 2 m "groq_recovered_0" hm (by
    rw [(Prod.mk.inj hres).2]
    simp)
  obtain rfl : i = 1 := by omega
  obtain ⟨a', ha', huse⟩ := Option.map_eq_some_iff.mp (hat 1)
  cases ha.symm.trans ha'
  rw [(Prod.mk.inj huse).1] at hx
  cases hx

end AgentLoop

end AlloyAgent
