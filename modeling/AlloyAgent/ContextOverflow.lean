import AlloyAgent.Binary64
import AlloyAgent.Outcome
import AlloyAgent.ToolPairing

/-!
# Recovery from context overflow

`openfang-runtime/src/context_overflow.rs` shrinks a history whose estimated size exceeds the
context window, in stages: keep the last 10 messages; keep the last 4 behind a message that says how
many are gone; cut the remaining tool results; give up.

* `autoCompact`, `overflowCompact`, `truncateResult`: the stages;
* `recoverFromOverflow`: all of them; `OverflowVerdict` is about what it says.
-/

namespace AlloyAgent

open Message

structure ToolDefinition where
  name : String
  description : String
  inputSchema : Json

inductive RecoveryStage : Type where
  | none
  /-- stage 1: moderate trim -/
  | autoCompaction (removed : ℕ)
  /-- stage 2: aggressive trim -/
  | overflowCompaction (removed : ℕ)
  /-- stage 3: truncated tool results -/
  | toolResultTruncation (truncated : ℕ)
  /-- stage 4: unrecoverable -/
  | finalError
  deriving DecidableEq

namespace ContextOverflow

section Estimate

-- `serde_json::to_string`
variable (toJson : Json → Option String)

def toolLength (tool : ToolDefinition) : ℕ :=
  tool.name.utf8ByteSize + tool.description.utf8ByteSize +
    ((toJson tool.inputSchema).map String.utf8ByteSize).getD 0

/-- A quarter of the bytes, with an overhead of 16 for each message. -/
def estimateTokenCount (messages : List Message) (systemPrompt : Option String)
    (tools : Option (List ToolDefinition)) : ℕ :=
  ((systemPrompt.map String.utf8ByteSize).getD 0 +
    (messages.map fun m => m.content.textLength + 16).sum +
    ((tools.getD []).map (toolLength toJson)).sum) / 4

/-- Estimate token count using chars/4 heuristic. -/
def estimateTokens (systemPrompt : String) (tools : List ToolDefinition)
    (messages : List Message) : ℕ :=
  estimateTokenCount toJson messages (some systemPrompt) (some tools)

end Estimate

def threshold70 (contextWindow : ℕ) : ℕ := Binary64.scaleTrunc 6305039478318694 53 contextWindow

def threshold90 (contextWindow : ℕ) : ℕ := Binary64.scaleTrunc 8106479329266893 53 contextWindow

section Stages

variable (estimate : List Message → ℕ) (window : ℕ)

def autoCompact (messages : List Message) :
    Except (RecoveryStage × List Message) (List Message) :=
  if estimate messages ≤ threshold90 window then
    let remove := messages.length - min 10 messages.length
    if 0 < remove then
      let messages := messages.drop remove
      if estimate messages ≤ threshold70 window then .error (.autoCompaction remove, messages)
      else .ok messages
    else .ok messages
  else .ok messages

def summary (removed : ℕ) : Message :=
  .ofUser ("[System: " ++ toString removed ++
    " earlier messages were removed due to context overflow. " ++
    "The conversation continues from here. Use /compact for smarter summarization.]")

def overflowCompact (messages : List Message) :
    Except (RecoveryStage × List Message) (List Message) :=
  let remove := messages.length - min 4 messages.length
  if 0 < remove then
    let messages := summary remove :: messages.drop remove
    if estimate messages ≤ threshold90 window then .error (.overflowCompaction remove, messages)
    else .ok messages
  else .ok messages

/-- Size above which stage 3 cuts a tool result. -/
def toolTruncationLimit : ℕ := 2000

/-- Stage 3 for one result; counts the results that were cut. -/
def truncateResult (content : String) : StateT ℕ Option String := fun truncated =>
  if toolTruncationLimit < content.utf8ByteSize then do
    let keep := toolTruncationLimit - 80
    let head ← RustStr.takeBytes? keep content.toList
    return (String.ofList head ++ "\n\n[OVERFLOW RECOVERY: truncated from " ++
      toString content.utf8ByteSize ++ " to " ++ toString keep ++ " chars]", truncated + 1)
  else some (content, truncated)

def recover (messages : List Message) : Option (RecoveryStage × List Message) :=
  if estimate messages ≤ threshold70 window then some (.none, messages)
  else
    match autoCompact estimate window messages >>= overflowCompact estimate window with
    | .error r => some r
    | .ok messages => do
      let (messages, truncated) ← rewriteResults truncateResult messages 0
      if 0 < truncated ∧ estimate messages ≤ threshold90 window then
        return (.toolResultTruncation truncated, messages)
      else return (.finalError, messages)

/-! ## Where the history is cut -/

def dropped (messages : List Message) : ℕ :=
  if estimate messages ≤ threshold70 window then 0
  else if estimate messages ≤ threshold90 window ∧
      estimate (messages.drop (messages.length - 10)) ≤ threshold70 window then
    messages.length - 10
  else messages.length - 4

/-- What is kept; the last 4 messages may stand behind a summary. -/
def Fronted (kept messages' : List Message) : Prop :=
  ∃ front, (front = [] ∨ kept.length = 4 ∧ ∃ k, front = [summary k]) ∧ messages' = front ++ kept

variable {estimate window}

theorem fronted_self (kept : List Message) : Fronted kept kept := ⟨[], .inl rfl, rfl⟩

theorem overflowCompact_spec (messages : List Message) :
    Outcome (fun r => Fronted (messages.drop (messages.length - 4)) r.2)
      (Fronted (messages.drop (messages.length - 4)))
      (overflowCompact estimate window messages) := by
  have hremove : messages.length - min 4 messages.length = messages.length - 4 := by omega
  simp only [overflowCompact, hremove]
  split_ifs with hpos
  · exact ⟨[summary _], .inr ⟨by rw [List.length_drop]; omega, _, rfl⟩, rfl⟩
  · exact ⟨[summary _], .inr ⟨by rw [List.length_drop]; omega, _, rfl⟩, rfl⟩
  · have hzero : messages.length - 4 = 0 := by omega
    rw [hzero]
    exact fronted_self messages

variable {messages : List Message}

/-- Stage 1 returns the last 10 messages, or stage 2 can work on the whole history as well. -/
theorem autoCompact_spec (hlarge : ¬ estimate messages ≤ threshold70 window) :
    Outcome (fun r => r.2 = messages.drop (dropped estimate window messages))
      (fun ms => dropped estimate window messages = messages.length - 4 ∧
        ms.drop (ms.length - 4) = messages.drop (messages.length - 4))
      (autoCompact estimate window messages) := by
  have hremove : messages.length - min 10 messages.length = messages.length - 10 := by omega
  simp only [autoCompact, hremove, dropped, if_neg hlarge]
  by_cases h90 : estimate messages ≤ threshold90 window
  · by_cases hpos : 0 < messages.length - 10
    · by_cases h70 : estimate (messages.drop (messages.length - 10)) ≤ threshold70 window
      · simp only [h90, hpos, h70, and_self, if_true, Outcome.error_iff]
      · simp only [h90, hpos, h70, and_false, if_true, if_false, Outcome.ok_iff, true_and]
        rw [List.drop_drop, List.length_drop]
        congr 1
        omega
    · -- a short history is its own last 10 messages
      have hzero : messages.length - 10 = 0 := by omega
      simp [h90, hzero, hlarge]
  · simp [h90]

/-- The first two stages cut the history at `dropped`. -/
theorem stages_spec (hlarge : ¬ estimate messages ≤ threshold70 window) :
    Outcome (fun r => Fronted (messages.drop (dropped estimate window messages)) r.2)
      (Fronted (messages.drop (dropped estimate window messages)))
      (autoCompact estimate window messages >>= overflowCompact estimate window) := by
  have hauto := autoCompact_spec hlarge
  cases hr : autoCompact estimate window messages with
  | error r =>
    rw [hr] at hauto
    exact ⟨[], .inl rfl, hauto⟩
  | ok ms =>
    rw [hr] at hauto
    obtain ⟨hdropped, hsame⟩ := hauto
    rw [hdropped, ← hsame]
    exact overflowCompact_spec ms

theorem recover_spec (h : recover estimate window messages = some (stage, messages')) :
    ∃ cut, Fronted (messages.drop (dropped estimate window messages)) cut ∧
      List.Forall₂ SameIds cut messages' := by
  rw [recover] at h
  split_ifs at h with hsmall
  · cases h
    refine ⟨messages, ?_, List.forall₂_same.mpr fun m _ => SameIds.refl m⟩
    rw [dropped, if_pos hsmall]
    exact fronted_self messages
  · have hstages := stages_spec hsmall
    split at h
    · rename_i r hr
      rw [hr] at hstages
      cases h
      exact ⟨_, hstages, List.forall₂_same.mpr fun m _ => SameIds.refl m⟩
    · rename_i ms hr
      rw [hr] at hstages
      obtain ⟨⟨ms', truncated⟩, hrewrite, h⟩ := Option.bind_eq_some_iff.mp h
      obtain rfl : ms' = messages' := by
        dsimp only at h
        split_ifs at h
        all_goals
          cases h
          rfl
      exact ⟨ms, hstages, forall₂_sameIds_rewriteResults hrewrite⟩

end Stages

/-- Run the overflow recovery pipeline. -/
def recoverFromOverflow (toJson : Json → Option String) (messages : List Message)
    (systemPrompt : String) (tools : List ToolDefinition) (contextWindow : ℕ) :
    Option (RecoveryStage × List Message) :=
  recover (estimateTokens toJson systemPrompt tools) contextWindow messages

end ContextOverflow

end AlloyAgent
