import AlloyAgent.HashTable
import AlloyAgent.Message

/-!
# Session repair

`openfang-runtime/src/session_repair.rs`: before a history is sent to the LLM it goes through six
passes, here in the order of the source.

* `validateAndRepairWithStats`: all passes; `validateAndRepair_eq`: the history;
* the modules whose names begin with `Repair` are about it, pass by pass.
-/

namespace AlloyAgent

/-- Statistics from a repair operation. -/
structure RepairStats where
  orphanedResultsRemoved : ℕ
  emptyMessagesRemoved : ℕ
  messagesMerged : ℕ
  resultsReordered : ℕ
  syntheticResultsInserted : ℕ
  duplicatesRemoved : ℕ
  deriving DecidableEq

namespace SessionRepair

/-! ## Phases 1 and 2: orphaned results and empty messages -/

def allToolUseIds (ms : List Message) : List String := ms.flatMap Message.toolUseIds

def allToolResultIds (ms : List Message) : List String := ms.flatMap Message.toolResultIds

/-- Keep every block but the tool results whose id fails `q`. -/
def keepResult (q : String → Bool) (b : ContentBlock) : Bool :=
  match b.toolResultId? with
  | some id => q id
  | none => true

/-- A block is kept unless it is a result for an id outside `ids`. -/
def keepBlock (ids : List String) : ContentBlock → Bool := keepResult fun id => decide (id ∈ ids)

/-- One message of the cleaned history; `none` when it is dropped. -/
def cleanMessage (ids : List String) (msg : Message) : Option Message :=
  match msg.content with
  | .text s => if s.isEmpty then none else some ⟨msg.role, .text s⟩
  | .blocks bs =>
    let filtered := bs.filter (keepBlock ids)
    if filtered.isEmpty then none else some ⟨msg.role, .blocks filtered⟩

def cleanHistory (ms : List Message) : List Message :=
  ms.filterMap (cleanMessage (allToolUseIds ms))

def orphanCount (ms : List Message) : ℕ :=
  (ms.map fun m => m.content.blockList.countP fun b => !keepBlock (allToolUseIds ms) b).sum

def droppedCount (ms : List Message) : ℕ :=
  ms.countP fun m => (cleanMessage (allToolUseIds ms) m).isNone

/-! ## Attaching blocks behind a message -/

/-- Append to the first message if it is the user's, else put a user message in front. -/
def attachBlocks (blocks : List ContentBlock) : List Message → List Message
  | next :: rest =>
    if next.role = .user then ⟨next.role, .blocks (next.content.toBlocks ++ blocks)⟩ :: rest
    else ⟨.user, .blocks blocks⟩ :: next :: rest
  | [] => [⟨.user, .blocks blocks⟩]

def attachAfter (ms : List Message) (idx : ℕ) (blocks : List ContentBlock) : List Message :=
  ms.take (idx + 1) ++ attachBlocks blocks (ms.drop (idx + 1))

/-! ## Phase 2b: misplaced results -/

/-- Each tool use of an assistant message with the index of the message. -/
def toolUsePositions (ms : List Message) : List (String × ℕ) :=
  ms.zipIdx.flatMap fun (msg, idx) =>
    if msg.role = .assistant then msg.toolUseIds.map (·, idx) else []

/-- Tool use id to the index of the assistant message containing it. -/
def toolUseIndex (ms : List Message) : Table String ℕ := Table.ofPairs (toolUsePositions ms)

/-- A tool result that has to move. -/
structure Misplaced where
  msgIdx : ℕ
  toolUseId : String
  block : ContentBlock
  assistantIdx : ℕ

/-- Whether a block found in message `msgIdx` is a result in the wrong place. -/
def misplaced? (index : Table String ℕ) (msgIdx : ℕ) (block : ContentBlock) : Option Misplaced :=
  match block.toolResultId? with
  | some id =>
    match index.lookup id with
    | some assistantIdx =>
      if msgIdx ≠ assistantIdx + 1 then some ⟨msgIdx, id, block, assistantIdx⟩ else none
    | none => none
  | none => none

def misplacedResults (index : Table String ℕ) (ms : List Message) : List Misplaced :=
  ms.zipIdx.flatMap fun (msg, msgIdx) =>
    if msg.role = .user then msg.content.blockList.filterMap (misplaced? index msgIdx) else []

/-- Remove from a user message the results recorded as misplaced in it. -/
def stripMisplaced (sources : List (ℕ × String)) (msgIdx : ℕ) (msg : Message) : Message :=
  match msg.role, msg.content with
  | .user, .blocks bs =>
    ⟨.user, .blocks (bs.filter (keepResult fun id => decide ((msgIdx, id) ∉ sources)))⟩
  | _, _ => msg

def removeMisplaced (sources : List (ℕ × String)) (ms : List Message) : List Message :=
  ms.zipIdx.map fun (msg, msgIdx) => stripMisplaced sources msgIdx msg

def retainNonEmpty (ms : List Message) : List Message := ms.filter fun m => !m.content.isEmpty

/-- Where the assistant messages are after the removals, found through their tool uses. -/
def currentAssistantPositions (index : Table String ℕ) (ms : List Message) : Table ℕ ℕ :=
  Table.ofPairs <| ms.zipIdx.flatMap fun (msg, idx) =>
    if msg.role = .assistant then
      msg.toolUseIds.filterMap fun id => (index.lookup id).map (·, idx)
    else []

def reinsert (positions : Table ℕ ℕ) (ms : List Message) (group : ℕ × List ContentBlock) :
    List Message :=
  match positions.lookup group.1 with
  | some currentIdx => attachAfter ms currentIdx group.2
  | none => ms

/-- Misplaced results are moved behind their tool use, in descending order of index. -/
def reorderToolResults (ms : List Message) : List Message × ℕ :=
  let index := toolUseIndex ms
  let misplaced := misplacedResults index ms
  if misplaced.isEmpty then (ms, 0)
  else
    let remaining :=
      retainNonEmpty (removeMisplaced (misplaced.map fun p => (p.msgIdx, p.toolUseId)) ms)
    let insertions := Table.groupPairs (misplaced.map fun p => (p.assistantIdx, p.block))
    let positions := currentAssistantPositions index remaining
    (insertions.sortedDesc.foldl (reinsert positions) remaining, misplaced.length)

/-! ## Phase 2c: unanswered tool uses -/

/-- The error result that answers a tool use nobody answered. -/
def syntheticResult (id : String) : ContentBlock :=
  .toolResult id "[Tool execution was interrupted or lost]" true

def orphanedUses (existing : List String) (ms : List Message) : List (ℕ × String) :=
  ms.zipIdx.flatMap fun (msg, idx) =>
    if msg.role = .assistant then
      (msg.toolUseIds.filter fun id => decide (id ∉ existing)).map (idx, ·)
    else []

/-- Answer every tool use that has no result anywhere in the history. -/
def insertSyntheticResults (ms : List Message) : List Message × ℕ :=
  let orphaned := orphanedUses (allToolResultIds ms) ms
  if orphaned.isEmpty then (ms, 0)
  else
    let grouped := Table.groupPairs (orphaned.map fun p => (p.1, syntheticResult p.2))
    (grouped.sortedDesc.foldl (fun ms group => attachAfter ms group.1 group.2) ms,
      orphaned.length)

/-! ## Phase 2d: duplicate results -/

/-- Keep the first result for each id not yet `seen`; returns the ids seen. -/
def dedupBlocks (seen : List String) : List ContentBlock → List ContentBlock × List String
  | [] => ([], seen)
  | b :: bs =>
    match b.toolResultId? with
    | some id =>
      if id ∈ seen then dedupBlocks seen bs
      else
        let (kept, seen') := dedupBlocks (id :: seen) bs
        (b :: kept, seen')
    | none =>
      let (kept, seen') := dedupBlocks seen bs
      (b :: kept, seen')

/-- The pass over all messages; counts the blocks removed. -/
def dedupMessages (seen : List String) : List Message → List Message × ℕ
  | [] => ([], 0)
  | msg :: rest =>
    match msg.content with
    | .blocks bs =>
      let (kept, seen') := dedupBlocks seen bs
      let (rest', removed) := dedupMessages seen' rest
      (⟨msg.role, .blocks kept⟩ :: rest', bs.length - kept.length + removed)
    | .text _ =>
      let (rest', removed) := dedupMessages seen rest
      (msg :: rest', removed)

/-- Drop duplicate results, then the messages this empties. -/
def deduplicateToolResults (ms : List Message) : List Message × ℕ :=
  let (ms', removed) := dedupMessages [] ms
  (retainNonEmpty ms', removed)

/-! ## Phase 2e: aborted assistant messages -/

/-- No blocks, or only blank text. -/
def isEmptyOrBlankContent : MessageContent → Bool
  | .text s => (RustStr.trim s.toList).isEmpty
  | .blocks bs =>
    bs.all fun b =>
      match b with
      | .text t => (RustStr.trim t.toList).isEmpty
      | .unknown => true
      | _ => false

/-- Drop blank assistant messages, except in last position. -/
def removeAbortedAssistantMessages : List Message → List Message
  | msg :: next :: rest =>
    if msg.role = .assistant ∧ isEmptyOrBlankContent msg.content then
      removeAbortedAssistantMessages (next :: rest)
    else msg :: removeAbortedAssistantMessages (next :: rest)
  | ms => ms

/-! ## Phase 3: consecutive messages of one role -/

/-- Push a message, or merge it into the last one if the roles agree. -/
def mergePush (merged : List Message) (msg : Message) : List Message :=
  match merged.getLast? with
  | some last =>
    if last.role = msg.role then
      merged.dropLast ++ [⟨last.role, last.content.merge msg.content⟩]
    else merged ++ [msg]
  | none => merged ++ [msg]

def mergeConsecutive (ms : List Message) : List Message := ms.foldl mergePush []

/-! ## Heartbeat turns -/

/-- An assistant message that says there is nothing to say. -/
def isNoReply (msg : Message) : Bool :=
  let blank (text : String) : Bool :=
    let t := String.ofList (RustStr.trim text.toList)
    t == "NO_REPLY" || t == "[no reply needed]"
  decide (msg.role = .assistant) &&
    match msg.content with
    | .text text => blank text
    | .blocks [.text text] => blank text
    | .blocks _ => false

/-- What `prune_heartbeat_turns` removes: such a message, and a user message in front of it. -/
def heartbeatIndices (ms : List Message) (pruneEnd : ℕ) : List ℕ :=
  (List.range pruneEnd).flatMap fun i =>
    if (ms[i]?.map isNoReply).getD false then
      if 0 < i ∧ ms[i - 1]?.map Message.role = some .user then [i, i - 1] else [i]
    else []

/-- Remove the turns without a reply, except among the last `keepRecent` messages. -/
def pruneHeartbeatTurns (ms : List Message) (keepRecent : ℕ) : List Message :=
  if ms.length ≤ keepRecent then ms
  else
    let toRemove := heartbeatIndices ms (ms.length - keepRecent)
    (ms.zipIdx.filter fun p => p.2 ∉ toRemove).map Prod.fst

def validateAndRepairWithStats (ms : List Message) : List Message × RepairStats :=
  let cleaned := cleanHistory ms
  let (reordered, reorderedCount) := reorderToolResults cleaned
  let (answered, syntheticCount) := insertSyntheticResults reordered
  let (deduplicated, dedupCount) := deduplicateToolResults answered
  let unblanked := removeAbortedAssistantMessages deduplicated
  let merged := mergeConsecutive unblanked
  (merged,
    { orphanedResultsRemoved := orphanCount ms
      emptyMessagesRemoved := droppedCount ms + (deduplicated.length - unblanked.length)
      messagesMerged := unblanked.length - merged.length
      resultsReordered := reorderedCount
      syntheticResultsInserted := syntheticCount
      duplicatesRemoved := dedupCount })

def validateAndRepair (ms : List Message) : List Message := (validateAndRepairWithStats ms).1

theorem validateAndRepair_eq (ms : List Message) :
    validateAndRepair ms = mergeConsecutive (removeAbortedAssistantMessages (deduplicateToolResults
      (insertSyntheticResults (reorderToolResults (cleanHistory ms)).1).1).1) := by
  simp only [validateAndRepair, validateAndRepairWithStats]

end SessionRepair

end AlloyAgent
