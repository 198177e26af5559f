import AlloyAgent.Message
import AlloyAgent.ReadModifyWrite

/-!
# The canonical session of an agent

All channels of an agent append to one row of the database: the recent messages, and a summary of
the older ones.

* `appendCanonical`: a call; `history_append`: it appends to the history;
* `canonical_kept`: calls that save what they have loaded lose nothing (`ReadModifyWrite`);
* `canonical_retention`: what is kept of a history.
-/

namespace AlloyAgent

open List Option Transition ReadModifyWrite

/-- Extract the text of a content: its text blocks, one after another. -/
def MessageContent.textContent : MessageContent → List Char
  | .text s => s.toList
  | .blocks bs => bs.flatMap fun b =>
    match b with
    | .text t => t.toList
    | _ => []

namespace Canonical

def defaultCanonicalWindow : ℕ := 50

def defaultCompactionThreshold : ℕ := 100

/-- Persistent cross-channel context for an agent. -/
structure CanonicalSession where
  messages : List Message
  compactionCursor : ℕ
  compactedSummary : Option (List Char)

def CanonicalSession.empty : CanonicalSession := ⟨[], 0, none⟩

def roleName : Role → List Char
  | .user => "User".toList
  | .assistant => "Assistant".toList
  | .system => "System".toList

/-- The lines of a summary for some messages; `none` if a text is cut inside a character. -/
def summaryLines : List Message → Option (List (List Char))
  | [] => some []
  | msg :: msgs => do
    let text := msg.content.textContent
    if text.isEmpty then summaryLines msgs
    else
      let truncated ←
        if RustStr.utf8Len text > 200 then
          (RustStr.takeBytes? 200 text).map fun head => head ++ "...".toList
        else some text
      let rest ← summaryLines msgs
      return (roleName msg.role ++ ": ".toList ++ truncated) :: rest

/-- The last 4000 bytes of a summary; `none` if it is cut inside a character. -/
def boundedSummary (full : List Char) : Option (List Char) :=
  if RustStr.utf8Len full > 4000 then RustStr.dropBytes? (RustStr.utf8Len full - 4000) full
  else some full

/-- The messages that `append_canonical` puts into the summary. -/
def toCompact (session : CanonicalSession) (threshold : Option ℕ) : Option (ℕ × List Message) :=
  let n := session.messages.length - defaultCanonicalWindow
  if session.messages.length > threshold.getD defaultCompactionThreshold ∧
      n > session.compactionCursor then
    some (n, (session.messages.take n).drop session.compactionCursor)
  else none

/-- Compact a session; `none` if the program aborts. -/
def compact (session : CanonicalSession) (threshold : Option ℕ) : Option CanonicalSession :=
  match toCompact session threshold with
  | none => some session
  | some (n, compacting) => do
    let lines ← summaryLines compacting
    let full := List.intercalate ['\n'] (session.compactedSummary.toList ++ lines)
    let summary ← boundedSummary full
    return ⟨session.messages.drop n, 0, some summary⟩

structure Append where
  newMessages : List Message
  compactionThreshold : Option ℕ

/-- What `append_canonical` saves, given the session that it has loaded. -/
def appendCanonical (call : Append) (session : CanonicalSession) : Option CanonicalSession :=
  compact { session with messages := session.messages ++ call.newMessages }
    call.compactionThreshold

/-! ## The history of a row -/

/-- A row, with the messages that its summary was made from. -/
structure Row where
  session : CanonicalSession
  absorbed : List Message

def Row.history (row : Row) : List Message := row.absorbed ++ row.session.messages

def Row.empty : Row := ⟨.empty, []⟩

/-- `append_canonical` on a row: what is compacted has gone into the summary that is stored. -/
def Row.append (call : Append) (row : Row) : Option Row :=
  let extended := { row.session with messages := row.session.messages ++ call.newMessages }
  (appendCanonical call row.session).map fun session =>
    ⟨session, row.absorbed ++ ((toCompact extended call.compactionThreshold).map Prod.snd).getD []⟩

theorem messages_compact (hcursor : session.compactionCursor = 0)
    (h : compact session threshold = some session') :
    session'.compactionCursor = 0 ∧
      session.messages =
        ((toCompact session threshold).map Prod.snd).getD [] ++ session'.messages := by
  rw [compact] at h
  split at h
  · rename_i hnone
    cases h
    rw [hnone]
    exact ⟨hcursor, rfl⟩
  · rename_i n compacting hsome
    simp only [Option.bind_eq_bind, Option.bind_eq_some_iff, Option.pure_def] at h
    obtain ⟨lines, -, summary, -, h⟩ := h
    cases h
    have hcompacting : compacting = session.messages.take n := by
      rw [toCompact] at hsome
      split at hsome
      · cases hsome
        rw [hcursor, drop_zero]
      · cases hsome
    rw [hsome, hcompacting]
    exact ⟨rfl, (take_append_drop n session.messages).symm⟩

/-- **One call appends its messages to the history.** -/
theorem history_append {call : Append} {row row' : Row}
    (hcursor : row.session.compactionCursor = 0) (h : row.append call = some row') :
    row'.session.compactionCursor = 0 ∧ row'.history = row.history ++ call.newMessages := by
  simp only [Row.append, appendCanonical, map_eq_some_iff] at h
  obtain ⟨session, hcompact, rfl⟩ := h
  obtain ⟨hcursor', hmessages⟩ := messages_compact (by exact hcursor) hcompact
  refine ⟨hcursor', ?_⟩
  rw [Row.history, Row.history, append_assoc, append_assoc]
  exact congrArg _ hmessages.symm

theorem history_foldlM (calls : List Append) :
    ∀ {row row' : Row}, row.session.compactionCursor = 0 →
      calls.foldlM (fun row call => row.append call) row = some row' →
        row'.history = row.history ++ calls.flatMap Append.newMessages := by
  induction calls with
  | nil =>
    intro row row' _ h
    cases h
    exact (append_nil _).symm
  | cons call calls ih =>
    intro row row' hcursor h
    rw [foldlM_cons, bind_eq_bind, bind_eq_some_iff] at h
    obtain ⟨row₁, h₁, h⟩ := h
    obtain ⟨hcursor₁, hhistory₁⟩ := history_append hcursor h₁
    rw [ih hcursor₁ h, hhistory₁, flatMap_cons, append_assoc]

/-! ## Calls from several channels -/

/-- The row and the calls; the load and the save of a call are steps of their own. -/
abbrev Channels := State Row Append

/-- The messages of calls that have returned are stored or went into the summary, in order. -/
structure Kept (s : Channels) : Prop where
  kept : ∀ call ∈ s.calls, call.pc = .returned → ∀ msg ∈ call.op.newMessages,
    msg ∈ s.cell.session.messages ∨ msg ∈ s.cell.absorbed
  inOrder : ∀ call ∈ s.calls, call.pc = .returned →
    List.Sublist call.op.newMessages (s.cell.absorbed ++ s.cell.session.messages)

/-- The history of the row is made of the calls in the order in which they have saved. -/
theorem history_run (hcursor : row.session.compactionCursor = 0)
    (hfresh : Guarded (step Row.append) Fresh (State.start row calls) es)
    (hrun : run (step Row.append) (State.start row calls) es = some s) :
    s.cell.history = row.history ++ s.log.flatMap Append.newMessages :=
  history_foldlM s.log hcursor (serial_run hfresh hrun).value

/-- **No lost update**, in every run in which each call saves over the row it has loaded: the
history is made of the messages of all calls that have saved. -/
theorem canonical_kept {row : Row} (hcursor : row.session.compactionCursor = 0)
    (calls : List Append) (es : List Event) (s : Channels)
    (hfresh : Guarded (step Row.append) Fresh (State.start row calls) es)
    (hrun : run (step Row.append) (State.start row calls) es = some s) :
    s.cell.history = row.history ++ s.log.flatMap Append.newMessages ∧ Kept s := by
  have hhistory := history_run hcursor hfresh hrun
  have hsublist : ∀ call ∈ s.calls, call.pc = .returned →
      List.Sublist call.op.newMessages s.cell.history := by
    intro call hcall hpc
    have hlog := (serial_run hfresh hrun).mem_log hcall hpc
    rw [hhistory]
    refine List.Sublist.trans ?_ (sublist_append_right _ _)
    exact sublist_flatten_of_mem (mem_map_of_mem hlog)
  refine ⟨hhistory, fun call hcall hpc msg hmsg => ?_, hsublist⟩
  have hmem : msg ∈ s.cell.history := (hsublist call hcall hpc).subset hmsg
  rw [Row.history, mem_append] at hmem
  exact hmem.symm

/-! ## Retention

The calls of one agent, one after another. A call aborts if a text is cut inside a character;
else the row keeps the last messages. -/

inductive Operation where
  | append (call : Append)
  | storeLlmSummary (summary : List Char) (keptMessages : List Message)

def Operation.exec (session : CanonicalSession) : Operation → Option CanonicalSession
  | .append call => appendCanonical call session
  | .storeLlmSummary summary keptMessages => some ⟨keptMessages, 0, some summary⟩

structure Retained (session : CanonicalSession) (call : Append) (session' : CanonicalSession) :
    Prop where
  bounded : session'.messages.length ≤
    max (call.compactionThreshold.getD defaultCompactionThreshold) defaultCanonicalWindow
  suffix : session'.messages <:+ session.messages ++ call.newMessages
  cursor : session'.compactionCursor = 0
  summarized : session'.messages ≠ session.messages ++ call.newMessages →
    session'.compactedSummary.isSome = true

def Retains (session : CanonicalSession) (op : Operation) (session' : CanonicalSession) : Prop :=
  ∀ call, op = .append call → Retained session call session'

/-- A text of more than 200 bytes can be cut after 200. -/
def Quotable (msg : Message) : Prop :=
  200 < RustStr.utf8Len msg.content.textContent → RustStr.Boundary msg.content.textContent 200

def quote (msg : Message) : List Char :=
  let text := msg.content.textContent
  roleName msg.role ++ ": ".toList ++
    if RustStr.utf8Len text > 200 then (RustStr.takeBytes? 200 text).getD [] ++ "...".toList
    else text

/-- The old summary, and a line for each message that has a text. -/
def joined (summary : Option (List Char)) (msgs : List Message) : List Char :=
  List.intercalate ['\n'] (summary.toList ++
    (msgs.filter fun msg => !msg.content.textContent.isEmpty).map quote)

/-- No text is cut inside a character: neither a quoted message nor a long summary. -/
def Sliceable (session : CanonicalSession) : Operation → Prop
  | .append call => ∀ n msgs,
      toCompact { session with messages := session.messages ++ call.newMessages }
        call.compactionThreshold = some (n, msgs) →
      (∀ msg ∈ msgs, Quotable msg) ∧
        let full := joined session.compactedSummary msgs
        (4000 < RustStr.utf8Len full → RustStr.Boundary full (RustStr.utf8Len full - 4000))
  | .storeLlmSummary _ _ => True

theorem summaryLines_eq_some :
    summaryLines msgs = some lines ↔ (∀ msg ∈ msgs, Quotable msg) ∧
      lines = (msgs.filter fun msg => !msg.content.textContent.isEmpty).map quote := by
  induction msgs generalizing lines with
  | nil => simp [summaryLines, eq_comm]
  | cons msg msgs ih =>
    rw [summaryLines, forall_mem_cons, filter_cons, Quotable,
      ← RustStr.isSome_takeBytes?]
    cases hempty : msg.content.textContent.isEmpty with
    | true => simp [isEmpty_iff.mp hempty, ih]
    | false =>
      simp only [Bool.false_eq_true, if_false, Option.bind_eq_bind, Option.pure_def,
        Bool.not_false, if_true, map_cons, quote]
      by_cases hlong : 200 < RustStr.utf8Len msg.content.textContent
      · cases RustStr.takeBytes? 200 msg.content.textContent with
        | none => simp [hlong]
        | some head =>
          simp [hlong, bind_eq_some_iff, ih]
          exact fun _ => eq_comm
      · simp [hlong, bind_eq_some_iff, ih]
        exact fun _ => eq_comm

theorem isSome_boundedSummary (full : List Char) : (boundedSummary full).isSome = true ↔
    (4000 < RustStr.utf8Len full → RustStr.Boundary full (RustStr.utf8Len full - 4000)) := by
  rw [boundedSummary]
  split
  · rename_i hlong
    rw [RustStr.isSome_dropBytes?, forall_prop_of_true hlong]
  · rename_i hlong
    exact iff_of_true rfl fun h => absurd h hlong

theorem isSome_appendCanonical (session : CanonicalSession) (call : Append) :
    (appendCanonical call session).isSome = true ↔ Sliceable session (.append call) := by
  rw [appendCanonical, compact, Sliceable]
  cases toCompact { session with messages := session.messages ++ call.newMessages }
      call.compactionThreshold with
  | none => simp
  | some compacted =>
    obtain ⟨n, msgs⟩ := compacted
    simp only [isSome_iff_exists, bind_eq_bind, bind_eq_some_iff,
      summaryLines_eq_some, Option.pure_def, ← isSome_boundedSummary]
    constructor
    · rintro ⟨_, _, ⟨hquotable, rfl⟩, summary, hsummary, -⟩ _ _ ⟨⟩
      exact ⟨hquotable, summary, hsummary⟩
    · intro h
      obtain ⟨hquotable, summary, hsummary⟩ := h n msgs rfl
      exact ⟨_, _, ⟨hquotable, rfl⟩, summary, hsummary, rfl⟩

theorem retained_appendCanonical (hcursor : session.compactionCursor = 0)
    (h : appendCanonical call session = some session') : Retained session call session' := by
  obtain ⟨hcursor', hmessages⟩ := messages_compact (by exact hcursor) h
  have hsuffix : session'.messages <:+ session.messages ++ call.newMessages := ⟨_, hmessages.symm⟩
  rw [appendCanonical, compact] at h
  split at h
  · rename_i hnone
    cases h
    refine ⟨?_, hsuffix, hcursor', fun hne => absurd rfl hne⟩
    simp only [toCompact, hcursor, ite_eq_right_iff, reduceCtorEq, imp_false] at hnone
    dsimp only
    omega
  · rename_i n msgs hsome
    simp only [Option.bind_eq_bind, Option.bind_eq_some_iff, Option.pure_def] at h
    obtain ⟨lines, -, summary, -, h⟩ := h
    cases h
    refine ⟨?_, hsuffix, hcursor', fun _ => rfl⟩
    rw [toCompact] at hsome
    split at hsome
    · obtain ⟨rfl, -⟩ := Prod.mk.inj (some.inj hsome)
      simp only [length_drop]
      omega
    · cases hsome

/-- **Retention** in every call of a run, exactly if no text is cut inside a character. -/
theorem canonical_retention (ops : List Operation) :
    Steps Operation.exec Retains .empty ops ↔ Guarded Operation.exec Sliceable .empty ops := by
  apply @steps_iff_guarded _ _ Operation.exec Sliceable fun s => s.compactionCursor = 0
  · intro session op session' hcursor hexec hretains
    cases op with
    | append call => exact (hretains call rfl).cursor
    | storeLlmSummary summary kept =>
      cases hexec
      rfl
  · intro session op hcursor
    cases op with
    | append call =>
      rw [← isSome_appendCanonical, isSome_iff_exists]
      refine exists_congr fun session' => and_iff_left_of_imp fun h => ?_
      rintro _ ⟨⟩
      exact retained_appendCanonical hcursor h
    | storeLlmSummary summary kept => exact iff_of_true ⟨_, rfl, by rintro call ⟨⟩⟩ trivial
  · rfl

/-- A text of 67 characters of three bytes: byte 200 is inside the last one. -/
def euros : Message := .ofUser (String.ofList (List.replicate 67 '€'))

theorem euros_aborts : Operation.exec .empty (.append ⟨List.replicate 101 euros, none⟩) = none := by
  rw [← not_isSome_iff_eq_none, Operation.exec, isSome_appendCanonical]
  intro h
  have hquotable := (h 51 (List.replicate 51 euros) (by simp [toCompact, CanonicalSession.empty,
    defaultCompactionThreshold, defaultCanonicalWindow])).1 euros (by simp)
  have htext : euros.content.textContent = List.replicate 67 '€' := String.toList_ofList
  rw [Quotable, htext, RustStr.utf8Len_replicate] at hquotable
  have hdvd := RustStr.dvd_of_boundary_replicate (hquotable (by decide))
  revert hdvd
  decide

def fromTelegram : Append := ⟨[.ofUser "the meeting is at nine"], none⟩

def fromDiscord : Append := ⟨[.ofUser "when is the meeting?"], none⟩

def oneByOne : List Event := [.load 0, .save 0, .load 1, .save 1]

def overlapping : List Event := [.load 0, .load 1, .save 0, .save 1]

def bothReturned (messages : List Message) : Channels :=
  ⟨⟨⟨messages, 0, none⟩, []⟩, [⟨fromTelegram, .returned⟩, ⟨fromDiscord, .returned⟩],
    [fromTelegram, fromDiscord]⟩

theorem oneByOne_kept :
    run (step Row.append) (State.start .empty [fromTelegram, fromDiscord]) oneByOne =
        some (bothReturned (fromTelegram.newMessages ++ fromDiscord.newMessages)) ∧
      Kept (bothReturned (fromTelegram.newMessages ++ fromDiscord.newMessages)) := by
  refine ⟨rfl, (@canonical_kept .empty rfl [fromTelegram, fromDiscord] oneByOne _ ?_ rfl).2⟩
  refine .cons trivial rfl (.cons ?_ rfl (.cons trivial rfl (.cons ?_ rfl trivial)))
  · rintro op value ⟨⟩
    rfl
  · rintro op value ⟨⟩
    rfl

/-- The second save writes over the first one. -/
theorem concurrent_append_lost :
    run (step Row.append) (State.start .empty [fromTelegram, fromDiscord]) overlapping =
        some (bothReturned fromDiscord.newMessages) ∧
      ¬ Kept (bothReturned fromDiscord.newMessages) := by
  refine ⟨rfl, fun h => ?_⟩
  have hkept := h.kept ⟨fromTelegram, .returned⟩ mem_cons_self rfl
    (.ofUser "the meeting is at nine") mem_cons_self
  simp [bothReturned, fromDiscord, Message.ofUser] at hkept

end Canonical

end AlloyAgent
