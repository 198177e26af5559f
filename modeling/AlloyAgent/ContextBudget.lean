import AlloyAgent.Binary64
import AlloyAgent.ToolPairing

/-!
# The context budget

`openfang-runtime/src/context_budget.rs`: how much of the context window tool results may take.

* `truncateToolResultDynamic`, `applyContextGuard`: the two layers;
* `ContextCuts`, `ContextGuard` and `ContextSlicing` are about them.
-/

namespace AlloyAgent

open RustStr

/-- Budget parameters derived from the model's context window. -/
structure ContextBudget where
  contextWindowTokens : ℕ
  toolCharsPerToken : ℕ

namespace ContextBudget

def new (contextWindowTokens : ℕ) : ContextBudget := ⟨contextWindowTokens, 2⟩

def toolChars (budget : ContextBudget) (tokens : ℕ) : ℕ :=
  Binary64.scaleTrunc budget.toolCharsPerToken 0 tokens

/-- Per-result cap: `0.30` of the window. -/
def perResultCap (budget : ContextBudget) : ℕ :=
  budget.toolChars (Binary64.scaleTrunc 5404319552844595 54 budget.contextWindowTokens)

/-- Single result absolute maximum: `0.50` of the window. -/
def singleResultMax (budget : ContextBudget) : ℕ :=
  budget.toolChars (Binary64.scaleTrunc 1 1 budget.contextWindowTokens)

/-- Total tool result headroom: `0.75` of the window. -/
def totalToolHeadroomChars (budget : ContextBudget) : ℕ :=
  budget.toolChars (Binary64.scaleTrunc 3 2 budget.contextWindowTokens)

example : (new 200000).perResultCap = 120000 ∧ (new 8000).perResultCap = 4800 := by decide

/-! ## Cutting one result -/

/-- Cut at the last newline between `start` and `stop`, or else at `fallback`. -/
def breakAtNewline (s : List Char) (start stop fallback : ℕ) : Option (List Char × ℕ) := do
  let window ← slice? s start stop
  let breakPoint :=
    match rfind? '\n' window with
    | some pos => start + pos
    | none => fallback
  let head ← takeBytes? breakPoint s
  return (head, breakPoint)

/-- Layer 1: truncate a single tool result. -/
def truncateToolResultDynamic (content : String) (budget : ContextBudget) : Option String :=
  let cap := budget.perResultCap
  if content.utf8ByteSize ≤ cap then some content
  else do
    let (head, breakPoint) ← breakAtNewline content.toList (cap - 200) cap (cap - 100)
    return String.ofList head ++ "\n\n[TRUNCATED: result was " ++
      toString content.utf8ByteSize ++ " chars, showing first " ++ toString breakPoint ++
      " (budget: 30% of " ++ toString (budget.contextWindowTokens / 1000) ++
      "K context window)]"

def truncateTo (content : String) (maxChars : ℕ) : Option String :=
  if content.utf8ByteSize ≤ maxChars then some content
  else do
    let keep := maxChars - 80
    let (head, breakPoint) ← breakAtNewline content.toList (keep - 100) keep keep
    return String.ofList head ++ "\n\n[COMPACTED: " ++ toString content.utf8ByteSize ++ " → " ++
      toString breakPoint ++ " chars by context guard]"

/-! ## The context guard -/

structure Guard where
  totalChars : ℕ
  compacted : ℕ
  /-- the length at the start of each result that is still to be visited -/
  locations : List ℕ

def compact (maxChars : ℕ) (content : String) : StateT Guard Option String := fun g => do
  let short ← truncateTo content maxChars
  guard (content.utf8ByteSize ≤ g.totalChars)
  return (short, { g with
    totalChars := g.totalChars - content.utf8ByteSize + short.utf8ByteSize
    compacted := g.compacted + 1 })

def atLocation (visit : ℕ → String → StateT Guard Option String) (content : String) :
    StateT Guard Option String := fun g =>
  match g.locations with
  | charLen :: locations => visit charLen content { g with locations }
  | [] => some (content, g)

/-- First pass: cap any single result that exceeds 50% of the context. -/
def capSingle (singleMax charLen : ℕ) (content : String) : StateT Guard Option String :=
  if singleMax < charLen then compact singleMax content else pure content

def compactTarget : ℕ := 2000

/-- Second pass: compact results until the total is under the headroom. -/
def compactOldest (headroom charLen : ℕ) (content : String) : StateT Guard Option String :=
  fun g =>
    if g.totalChars ≤ headroom then some (content, g)
    else if charLen ≤ compactTarget then some (content, g)
    else if compactTarget < content.utf8ByteSize then compact compactTarget content g
    else some (content, g)

/-- Layer 2: compact the tool results of a history; returns how many were. -/
def applyContextGuard (messages : List Message) (budget : ContextBudget) :
    Option (List Message × ℕ) :=
  let headroom := budget.totalToolHeadroomChars
  let locations := (Message.toolResults messages).map String.utf8ByteSize
  if locations.sum ≤ headroom then some (messages, 0)
  else do
    let (messages, g) ← Message.rewriteResults (atLocation (capSingle budget.singleResultMax))
      messages ⟨locations.sum, 0, locations⟩
    let (messages, g) ← Message.rewriteResults (atLocation (compactOldest headroom))
      messages { g with locations }
    return (messages, g.compacted)

theorem applyContextGuard_spec (h : applyContextGuard messages budget = some (messages', n)) :
    List.Forall₂ Message.SameIds messages messages' := by
  simp only [applyContextGuard] at h
  split_ifs at h
  · cases h
    exact List.forall₂_same.mpr fun m _ => Message.SameIds.refl m
  · obtain ⟨⟨ms₁, g₁⟩, h₁, h⟩ := Option.bind_eq_some_iff.mp h
    obtain ⟨⟨ms₂, g₂⟩, h₂, h⟩ := Option.bind_eq_some_iff.mp h
    cases h
    exact Message.forall₂_sameIds_trans (Message.forall₂_sameIds_rewriteResults h₁)
      (Message.forall₂_sameIds_rewriteResults h₂)

end ContextBudget

end AlloyAgent
