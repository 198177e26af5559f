import AlloyAgent.HeartbeatPruning
import AlloyAgent.RequestDialogue

/-!
# A session over many messages

The kernel answers each message of the user with a run of the agent loop on the session that is
stored, and compacts the session when it is asked to.

* `Sound`: what every part of a run does for the session that it saves;
* `converse_paired`: so all requests of a conversation are paired.
-/

namespace AlloyAgent.AgentLoop

open List Message SessionRepair

variable {ω : Type} (svc : Services ω) (manifest : Manifest) (stored : ω → List Message)

/-- Only saving writes the session that is stored, and it may fail. -/
structure Stores : Prop where
  save : ∀ w ms, stored (svc.saveSession w ms).2 = ms ∨ stored (svc.saveSession w ms).2 = stored w
  complete : ∀ w req, stored (svc.complete w req).2 = stored w
  recover : ∀ w text tools, stored (svc.recoverTextToolCalls w text tools).2 = stored w
  check : ∀ w name input, stored (svc.check w name input).2 = stored w
  hook : ∀ w name input, stored (svc.beforeToolCall w name input).2 = stored w
  execute : ∀ w call, stored (svc.executeTool w call).2 = stored w

inductive Command where
  | message (text : String)
  | compact

def compactionThreshold : ℕ := 30

def keepRecent : ℕ := 10

variable (summarize : ω → Bool × ω)

/-- `compact_agent_session`. `summarize` stands for the requests for a summary and for storing it,
after which the call may have failed. -/
def compact (w : ω) : ω :=
  let session := stored w
  if compactionThreshold < session.length then
    let kept := session.drop (session.length - keepRecent)
    match summarize w with
    | (false, w) => w
    | (true, w) => (svc.saveSession w (validateAndRepair kept)).2
  else w

/-- What a command leaves, and the requests that its run of the loop sends. -/
def serve (w : ω) : Command → ω × List CompletionRequest
  | .message text =>
    let st := (runAgentLoop svc manifest (stored w) text w).2
    (st.world, st.requests)
  | .compact => (compact svc stored summarize w, [])

/-- The session that each command finds, and the requests that it sends. -/
def converse (w : ω) : List Command → List (List Message × List CompletionRequest)
  | [] => []
  | c :: cs =>
    (stored w, (serve svc manifest stored summarize w c).2) ::
      converse (serve svc manifest stored summarize w c).1 cs

/-- The session and the stored one keep their tool uses to the assistant, their results to the
user. -/
def Sound (st : LoopState ω) : Prop :=
  (∀ m ∈ st.session, m.RoleOk) ∧ ∀ m ∈ stored st.world, m.RoleOk

variable {svc stored} {st : LoopState ω}

theorem Sound.said (h : Sound stored st) (hm : m.RoleOk) :
    Sound stored { st with session := st.session ++ [m] } :=
  ⟨forall_mem_append.mpr ⟨h.1, forall_mem_singleton.mpr hm⟩, h.2⟩

theorem roleOk_text (role : Role) (text : String) : RoleOk ⟨role, .text text⟩ :=
  ⟨fun _ => rfl, fun _ => rfl⟩

theorem Sound.world (h : Sound stored st) (hw : stored w = stored st.world) :
    Sound stored { st with world := w } :=
  ⟨h.1, hw.symm ▸ h.2⟩

theorem Sound.prune (h : Sound stored st) (keepRecent : ℕ) :
    Sound stored { st with session := pruneHeartbeatTurns st.session keepRecent } := by
  refine ⟨fun m hm => ?_, h.2⟩
  rw [HeartbeatPruning.pruneHeartbeatTurns_eq, mem_map] at hm
  obtain ⟨⟨m, i⟩, hp, rfl⟩ := hm
  exact h.1 m (mem_of_getElem? (HeartbeatPruning.mem_survivors.mp hp).1)

section

variable (hstore : Stores svc stored)
include hstore

theorem Sound.save (h : Sound stored st) : Sound stored (saveSession svc st).2 := by
  refine ⟨h.1, ?_⟩
  rcases hstore.save st.world st.session with hsaved | hfailed
  · exact hsaved.symm ▸ h.1
  · exact hfailed.symm ▸ h.2

theorem Sound.saveAndReturn (h : Sound stored st) (result : AgentLoopResult) :
    Sound stored (saveAndReturn svc result st).2 := by
  have hsaved := h.save hstore
  rw [AgentLoop.saveAndReturn]
  split
  all_goals
    rename_i heq
    rwa [heq] at hsaved

theorem sound_runToolCall (call : ToolCall) (h : Sound stored st) :
    Outcome (fun r => Sound stored r.2) (fun p => Sound stored p.2)
      (runToolCall svc manifest call st) := by
  have hhooked : ∀ warning (st : LoopState ω), Sound stored st →
      Outcome (fun r => Sound stored r.2) (fun p => Sound stored p.2)
        (hookedCall svc manifest call warning st) := by
    intro warning st h
    have hhook := hstore.hook st.world call.name call.input
    rw [hookedCall]
    split
    · rename_i heq
      rw [heq] at hhook
      exact h.world hhook
    · rename_i w heq
      rw [heq] at hhook
      have hexec := (h.world hhook).world (hstore.execute w call)
      simp only [executeCall]
      split
      · exact hexec
      · exact hexec
  have hcheck := h.world (hstore.check st.world call.name call.input)
  simp only [runToolCall]
  split
  · exact hcheck.save hstore
  · exact hcheck
  · exact hhooked _ _ hcheck
  · exact hhooked _ _ hcheck

theorem sound_runToolCalls (calls : List ToolCall) :
    ∀ st : LoopState ω, Sound stored st →
      Outcome (fun r => Sound stored r.2) (fun p => Sound stored p.2)
        (runToolCalls svc manifest calls st) := by
  induction calls with
  | nil => exact fun st h => h
  | cons call calls ih =>
    intro st h
    rw [runToolCalls]
    refine (sound_runToolCall manifest hstore call h).bind ?_
    rintro ⟨b, st₁⟩ h₁
    exact (ih st₁ h₁).bind fun p hp => hp

variable {r : CompletionResponse}

theorem sound_toolUse (hstop : r.stopReason = .toolUse) (hr : Aligned r) (h : Sound stored st) :
    Outcome (fun e => Sound stored e.2) (Sound stored) (toolUse svc manifest r st) := by
  have hasked := @Sound.said ω stored st ⟨.assistant, .blocks r.content⟩ h
    ⟨fun h => absurd rfl h, fun _ => (hr hstop).2⟩
  have hcalls := sound_runToolCalls manifest hstore r.toolCalls
    (push ⟨.assistant, .blocks r.content⟩ { st with consecutiveMaxTokens := 0 }) hasked
  have hspec := runToolCalls_spec svc manifest r.toolCalls
    (push ⟨.assistant, .blocks r.content⟩ { st with consecutiveMaxTokens := 0 })
  rw [toolUse]
  dsimp only
  revert hcalls hspec
  cases runToolCalls svc manifest r.toolCalls
    (push ⟨.assistant, .blocks r.content⟩ { st with consecutiveMaxTokens := 0 }) with
  | error e => exact fun he _ => he
  | ok p =>
    intro hp hspec
    refine Sound.save hstore (Sound.said hp ⟨fun _ => hspec.2.2.2, fun h => absurd rfl h⟩)

theorem sound_respond (i : ℕ) (hr : Aligned r) (h : Sound stored st) :
    Outcome (fun e => Sound stored e.2) (Sound stored) (respond svc manifest i r st) := by
  have hsaid (text : String) := h.said (roleOk_text .assistant text)
  have hend : Outcome (fun e => Sound stored e.2) (Sound stored) (endTurn svc i r st) := by
    simp only [endTurn]
    split
    · exact (hsaid _).saveAndReturn hstore _
    · split
      · exact h
      · exact ((hsaid _).prune 10).saveAndReturn hstore _
  rw [respond]
  split
  · exact hend
  · exact hend
  · rename_i hstop
    exact sound_toolUse manifest hstore hstop hr h
  · simp only [maxTokens]
    split
    · exact (hsaid _).save hstore
    · exact (hsaid _).said (roleOk_text .user _)

theorem sound_callWithRetry (req : CompletionRequest) (left : ℕ) (st : LoopState ω)
    (h : Sound stored st) : Sound stored (callWithRetry svc req left st).2 := by
  fun_induction callWithRetry svc req left st with
  | case2 st w st' e msg left _ hw ih =>
    have hsent := hstore.complete st.world req
    rw [hw] at hsent
    exact ih (h.world hsent)
  | case1 left st w _ r hw | case3 st w _ e _ _ hw | case4 left st w _ e _ hw =>
    have hsent := hstore.complete st.world req
    rw [hw] at hsent
    exact h.world hsent

theorem Sound.receive (h : Sound stored st) (r : CompletionResponse) :
    Sound stored (receive svc manifest r st).2 := by
  have hworld : stored (promoteTextCalls svc manifest r st.world).2 = stored st.world := by
    simp only [promoteTextCalls]
    split_ifs
    · exact hstore.recover _ _ _
    · exact hstore.recover _ _ _
    · rfl
  exact h.world hworld

theorem sound_iterate (hsvc : AlignedDriver svc) (i : ℕ) (h : Sound stored st) :
    Outcome (fun e => Sound stored e.2) (Sound stored) (iterate svc manifest i st) := by
  rw [iterate]
  split
  · exact h
  · rename_i messages _
    have hcall := sound_callWithRetry hstore (request manifest messages) maxRetries
      { st with messages } h
    have hsent := callWithRetry_spec svc (request manifest messages) maxRetries { st with messages }
    split
    · rename_i heq
      rwa [heq] at hcall
    · rename_i r st₁ heq
      rw [heq] at hcall hsent
      obtain ⟨w, w', hw⟩ := hsent.answer r rfl
      exact sound_respond manifest hstore i (receive_spec svc manifest (hsvc _ _ _ _ hw) st₁).1
        (hcall.receive manifest hstore r)

theorem sound_runLoop (hsvc : AlignedDriver svc) (left : ℕ) :
    ∀ (i : ℕ) (st : LoopState ω), Sound stored st →
      Sound stored (runLoop svc manifest left i st).2 := by
  induction left with
  | zero => exact fun i st h => h.save hstore
  | succ left ih =>
    intro i st h
    have hstep := sound_iterate manifest hstore hsvc i h
    rw [runLoop]
    split
    · rename_i heq
      rwa [heq] at hstep
    · rename_i heq
      rw [heq] at hstep
      exact ih _ _ hstep

end

theorem roleOk_compact (hstore : Stores svc stored)
    (hsummarize : ∀ w, stored (summarize w).2 = stored w) (w : ω)
    (hrole : ∀ m ∈ stored w, m.RoleOk) (hids : (allToolUseIds (stored w)).Nodup) :
    ∀ m ∈ stored (compact svc stored summarize w), m.RoleOk := by
  have hw := hsummarize w
  simp only [compact]
  split_ifs
  · split
    · rename_i heq
      rw [heq] at hw
      exact hw.symm ▸ hrole
    · rename_i w' heq
      rw [heq] at hw
      have hkept := drop_sublist ((stored w).length - keepRecent) (stored w)
      obtain ⟨-, hsettled⟩ := settled_validateAndRepair
        (fun m hm => hrole m (hkept.subset hm)) (hids.sublist (hkept.flatMap _))
      rcases hstore.save w' (validateAndRepair ((stored w).drop ((stored w).length - keepRecent)))
        with hsaved | hfailed
      · exact hsaved.symm ▸ hsettled.roleOk
      · rw [hfailed, hw]
        exact hrole
  · exact hrole

/-- **Conversations are paired**: whatever is said, compacted and saved, every request answers its
tool uses, as long as no message is empty and no tool use id is used twice. -/
theorem converse_paired (svc : Services ω) (manifest : Manifest) (stored : ω → List Message)
    (summarize : ω → Bool × ω) (hsvc : AlignedDriver svc) (hstore : Stores svc stored)
    (hsummarize : ∀ w, stored (summarize w).2 = stored w) (commands : List Command)
    (hcommands : ∀ c ∈ commands, c ≠ .message "") :
    ∀ w : ω, (∀ m ∈ stored w, m.RoleOk) →
      (∀ p ∈ converse svc manifest stored summarize w commands, (allToolUseIds p.1).Nodup) →
      ∀ p ∈ converse svc manifest stored summarize w commands, ∀ q ∈ p.2,
        ToolPaired q.messages := by
  induction commands with
  | nil => exact fun w _ _ => forall_mem_nil _
  | cons c commands ih =>
    intro w hrole hids
    rw [converse, forall_mem_cons] at hids ⊢
    obtain ⟨hc, hrest⟩ := forall_mem_cons.mp hcommands
    cases c with
    | message text =>
      have hsession : Repairable (stored w) :=
        ⟨fun m hm _ => hrole m hm, hids.1.sublist (filter_sublist.flatMap _)⟩
      have hstart : Sound stored (initialState (stored w) text w) :=
        ⟨forall_mem_append.mpr ⟨hrole, forall_mem_singleton.mpr (roleOk_text .user text)⟩, hrole⟩
      refine ⟨runAgentLoop_paired svc manifest hsvc hsession (fun h => hc (h ▸ rfl)) w, ?_⟩
      exact ih hrest _ (sound_runLoop manifest hstore hsvc _ 0 _ hstart).2 hids.2
    | compact =>
      refine ⟨forall_mem_nil _, ih hrest _ ?_ hids.2⟩
      exact roleOk_compact summarize hstore hsummarize w hrole hids.1

/-- `scripted callShell`, with a place for the session. -/
def recording : Services (ℕ × List Message) where
  complete w req := (((scripted callShell).complete w.1 req).1, w.1 + 1, w.2)
  userMessage _ := ""
  recoverTextToolCalls w _ _ := ([], w)
  parseDirectives text := (text, noDirectives)
  check w _ _ := (.allow, w)
  beforeToolCall w _ _ := (.ok (), w)
  executeTool w _ := (some ("ok", false), w)
  saveSession w ms := (.ok (), w.1, ms)
  toJson _ := none

theorem recording_paired :
    (converse recording plain Prod.snd (true, ·) (0, []) [.message "hi", .message "go on"]).map
        (fun p => (p.1.length, p.2.length)) = [(0, 2), (4, 1)] ∧
      ∀ p ∈ converse recording plain Prod.snd (true, ·) (0, []) [.message "hi", .message "go on"],
        ∀ q ∈ p.2, ToolPaired q.messages := by
  refine ⟨by decide +kernel, converse_paired recording plain Prod.snd (true, ·) ?_ ?_
    (fun _ => rfl) _ (by simp) (0, []) (forall_mem_nil _) (by decide +kernel)⟩
  · intro w req r w' hr
    have hshell : Aligned callShell := fun _ =>
      ⟨fun x => by simp [callShell, ContentBlock.toolUseId?], rfl⟩
    have hanswer : ((scripted callShell).complete w.1 req).1 = .ok r := congrArg Prod.fst hr
    exact alignedDriver_scripted hshell w.1 req r _ (Prod.ext hanswer rfl)
  · exact ⟨fun _ _ => .inl rfl, fun _ _ => rfl, fun _ _ _ => rfl, fun _ _ _ => rfl,
      fun _ _ _ => rfl, fun _ _ => rfl⟩

end AlloyAgent.AgentLoop
