import AlloyAgent.AgentLoop

/-!
# The messages of an OpenAI request

`OpenAIDriver::complete` and `OpenAIDriver::stream` both turn the messages of a request into the
messages of the HTTP body, and each of them has its own copy of the conversion.

`toJson` is `serde_json::to_string`.

* `completeMessages`, `streamMessages`: the two encoders;
* `wirePaired_completeMessages`: results follow their calls;
* `sent_iff`, `conversation_sent_iff`: when nothing is lost.
-/

namespace AlloyAgent

open List Message

namespace OpenAi

inductive OaiRole where
  | system
  | user
  | assistant
  | tool
  deriving DecidableEq

/-- A content part for multi-modal messages. -/
inductive OaiContentPart where
  | text (text : String)
  | imageUrl (url : String)
  deriving DecidableEq

/-- Content can be a plain string or an array of content parts (for images). -/
inductive OaiMessageContent where
  | text (text : String)
  | parts (parts : List OaiContentPart)
  deriving DecidableEq

structure OaiFunction where
  name : String
  arguments : String
  deriving DecidableEq

structure OaiToolCall where
  id : String
  callType : String
  function : OaiFunction
  deriving DecidableEq

structure OaiMessage where
  role : OaiRole
  content : Option OaiMessageContent
  toolCalls : Option (List OaiToolCall)
  toolCallId : Option String
  deriving DecidableEq

def OaiMessage.ofText (role : OaiRole) (text : String) : OaiMessage :=
  ⟨role, some (.text text), none, none⟩

def text? : ContentBlock → Option String
  | .text t => some t
  | _ => none

def imageUrl? : ContentBlock → Option String
  | .image mediaType data => some s!"data:{mediaType};base64,{data}"
  | _ => none

def part? : ContentBlock → Option OaiContentPart
  | .text t => some (.text t)
  | .image mediaType data => some (.imageUrl s!"data:{mediaType};base64,{data}")
  | _ => none

def result? : ContentBlock → Option (String × String)
  | .toolResult toolUseId content _ => some (toolUseId, content)
  | _ => none

def toolMessage (result : String × String) : OaiMessage :=
  ⟨.tool, some (.text result.2), none, some result.1⟩

section

variable (toJson : Json → Option String)

def toolCall? : ContentBlock → Option OaiToolCall
  | .toolUse id name input => some ⟨id, "function", ⟨name, (toJson input).getD ""⟩⟩
  | _ => none

/-- The message for the blocks of an assistant message: the texts become one. -/
def assistantMessage (blocks : List ContentBlock) : OaiMessage :=
  let textParts := blocks.filterMap text?
  let toolCalls := blocks.filterMap (toolCall? toJson)
  { role := .assistant
    content := if textParts.isEmpty then none else some (.text (String.join textParts))
    toolCalls := if toolCalls.isEmpty then none else some toolCalls
    toolCallId := none }

def userMessages (blocks : List ContentBlock) : List OaiMessage :=
  let results := blocks.filterMap result?
  let parts := blocks.filterMap part?
  results.map toolMessage ++
    if !parts.isEmpty && results.isEmpty then [⟨.user, some (.parts parts), none, none⟩] else []

def completeMessage (system : Option String) (m : Message) : List OaiMessage :=
  match m.role, m.content with
  | .system, .text text => if system.isNone then [.ofText .system text] else []
  | .user, .text text => [.ofText .user text]
  | .assistant, .text text => [.ofText .assistant text]
  | .user, .blocks blocks => userMessages blocks
  | .assistant, .blocks blocks => [assistantMessage toJson blocks]
  | _, _ => []

def streamMessage (system : Option String) (m : Message) : List OaiMessage :=
  match m.role, m.content with
  | .system, .text text => if system.isNone then [.ofText .system text] else []
  | .user, .text text => [.ofText .user text]
  | .assistant, .text text => [.ofText .assistant text]
  | .user, .blocks blocks => (blocks.filterMap result?).map toolMessage
  | .assistant, .blocks blocks => [assistantMessage toJson blocks]
  | _, _ => []

def systemMessages (system : Option String) : List OaiMessage :=
  (system.map (OaiMessage.ofText .system)).toList

def completeMessages (request : CompletionRequest) : List OaiMessage :=
  systemMessages request.system ++
    request.messages.flatMap (completeMessage toJson request.system)

def streamMessages (request : CompletionRequest) : List OaiMessage :=
  systemMessages request.system ++
    request.messages.flatMap (streamMessage toJson request.system)

end

namespace OaiMessage

def texts (m : OaiMessage) : List String :=
  match m.role, m.content with
  | .user, some (.text t) | .assistant, some (.text t) => [t]
  | .user, some (.parts ps) => ps.filterMap fun
    | .text t => some t
    | .imageUrl _ => none
  | _, _ => []

def images (m : OaiMessage) : List String :=
  match m.content with
  | some (.parts ps) => ps.filterMap fun
    | .text _ => none
    | .imageUrl url => some url
  | _ => []

def uses (m : OaiMessage) : List OaiToolCall := m.toolCalls.getD []

def results (m : OaiMessage) : List (String × String) :=
  match m.toolCallId, m.content with
  | some id, some (.text t) => [(id, t)]
  | _, _ => []

end OaiMessage

/-- The texts of a user or assistant message. Those of an assistant are one text. -/
def textsOf (m : Message) : List String :=
  match m.role, m.content with
  | .system, _ => []
  | _, .text t => [t]
  | .user, .blocks bs => bs.filterMap text?
  | .assistant, .blocks bs =>
    let ts := bs.filterMap text?
    if ts.isEmpty then [] else [String.join ts]

def saidBy {β : Type} (f : ContentBlock → Option β) (m : Message) : List β :=
  if m.role = .system then [] else m.content.blockList.filterMap f

/-- The body carries every text, image, tool use and tool result of the conversation. -/
@[mk_iff]
structure Carries (toJson : Json → Option String) (messages : List Message)
    (body : List OaiMessage) : Prop where
  texts : body.flatMap OaiMessage.texts = messages.flatMap textsOf
  images : body.flatMap OaiMessage.images = messages.flatMap (saidBy imageUrl?)
  uses : body.flatMap OaiMessage.uses = messages.flatMap (saidBy (toolCall? toJson))
  results : body.flatMap OaiMessage.results = messages.flatMap (saidBy result?)

/-- The ids that the tool messages at the beginning answer. -/
def answered (body : List OaiMessage) : List String :=
  (body.takeWhile fun m => m.role = .tool).filterMap OaiMessage.toolCallId

/-- Every tool use is followed by the tool messages that answer it. -/
def WirePaired : List OaiMessage → Prop
  | [] => True
  | m :: rest => (m.uses ≠ [] → ∀ id, id ∈ answered rest ↔ id ∈ m.uses.map OaiToolCall.id) ∧
      WirePaired rest

/-- A user message of tool results only, or an assistant message without images and results. -/
def Plain (m : Message) : Prop :=
  match m.role, m.content with
  | .user, .blocks bs => ∀ b ∈ bs, part? b = none ∧ b.toolUseId? = none
  | .assistant, .blocks bs => ∀ b ∈ bs, imageUrl? b = none ∧ b.toolResultId? = none
  | _, _ => True

section

variable {toJson : Json → Option String} {system : Option String} (blocks : List ContentBlock)

theorem filterMap_part?_texts :
    (⟨.user, some (.parts (blocks.filterMap part?)), none, none⟩ : OaiMessage).texts =
      blocks.filterMap text? := by
  simp only [OaiMessage.texts, filterMap_filterMap]
  refine filterMap_congr fun b _ => ?_
  cases b <;> rfl

theorem filterMap_part?_images :
    (⟨.user, some (.parts (blocks.filterMap part?)), none, none⟩ : OaiMessage).images =
      blocks.filterMap imageUrl? := by
  simp only [OaiMessage.images, filterMap_filterMap]
  refine filterMap_congr fun b _ => ?_
  cases b <;> rfl

theorem flatMap_userMessages {β : Type} {f : OaiMessage → List β}
    (htool : ∀ r, f (toolMessage r) = []) (hempty : f ⟨.user, some (.parts []), none, none⟩ = [])
    (blocks : List ContentBlock) :
    (userMessages blocks).flatMap f =
      if blocks.filterMap result? = [] then
        f ⟨.user, some (.parts (blocks.filterMap part?)), none, none⟩
      else [] := by
  have hnone : ((blocks.filterMap result?).map toolMessage).flatMap f = [] := by
    rw [flatMap_map, flatMap_eq_nil_iff]
    intro r _
    exact htool r
  rw [userMessages]
  rw [flatMap_append, hnone, nil_append]
  by_cases hresults : blocks.filterMap result? = []
  · by_cases hparts : blocks.filterMap part? = []
    · simp [hresults, hparts, hempty]
    · simp [hresults, hparts]
  · simp [hresults]

theorem texts_userMessages :
    (userMessages blocks).flatMap OaiMessage.texts =
      if blocks.filterMap result? = [] then blocks.filterMap text? else [] := by
  rw [flatMap_userMessages (fun _ => rfl) rfl, filterMap_part?_texts]

theorem images_userMessages :
    (userMessages blocks).flatMap OaiMessage.images =
      if blocks.filterMap result? = [] then blocks.filterMap imageUrl? else [] := by
  rw [flatMap_userMessages (fun _ => rfl) rfl, filterMap_part?_images]

theorem uses_userMessages : (userMessages blocks).flatMap OaiMessage.uses = [] := by
  rw [flatMap_userMessages (fun _ => rfl) rfl]
  exact ite_self []

theorem results_userMessages :
    (userMessages blocks).flatMap OaiMessage.results = blocks.filterMap result? := by
  have htools : ((blocks.filterMap result?).map toolMessage).flatMap OaiMessage.results =
      blocks.filterMap result? := by
    rw [flatMap_map]
    exact flatMap_singleton' _
  have hlast : ∀ c : Bool, (if c then [(⟨.user, some (.parts (blocks.filterMap part?)), none,
      none⟩ : OaiMessage)] else []).flatMap OaiMessage.results = [] := by
    intro c
    cases c <;> rfl
  rw [userMessages]
  rw [flatMap_append, htools, hlast, append_nil]

theorem texts_assistantMessage :
    (assistantMessage toJson blocks).texts = textsOf ⟨.assistant, .blocks blocks⟩ := by
  simp only [assistantMessage, OaiMessage.texts, textsOf]
  split_ifs <;> rfl

theorem images_assistantMessage : (assistantMessage toJson blocks).images = [] := by
  simp only [assistantMessage, OaiMessage.images]
  split_ifs <;> rfl

theorem uses_assistantMessage :
    (assistantMessage toJson blocks).uses = blocks.filterMap (toolCall? toJson) := by
  simp only [assistantMessage, OaiMessage.uses]
  split_ifs with h
  · exact (isEmpty_iff.mp h).symm
  · rfl

/-- What `stream` sends of a message is part of what `complete` sends. -/
structure Reduces (toJson : Json → Option String) (m : Message)
    (complete stream : List OaiMessage) : Prop where
  texts : (complete.flatMap OaiMessage.texts).Sublist (textsOf m)
  images : (complete.flatMap OaiMessage.images).Sublist (saidBy imageUrl? m)
  uses : (complete.flatMap OaiMessage.uses).Sublist (saidBy (toolCall? toJson) m)
  results : (complete.flatMap OaiMessage.results).Sublist (saidBy result? m)
  stream : stream.Sublist complete

theorem reduces_completeMessage (m : Message) :
    Reduces toJson m (completeMessage toJson system m) (streamMessage toJson system m) := by
  obtain ⟨role, content⟩ := m
  cases content with
  | text t =>
    cases role with
    | system => cases system <;> exact ⟨.refl _, .refl _, .refl _, .refl _, .refl _⟩
    | user => exact ⟨.refl _, .refl _, .refl _, .refl _, .refl _⟩
    | assistant => exact ⟨.refl _, .refl _, .refl _, .refl _, .refl _⟩
  | blocks bs =>
    cases role with
    | system => exact ⟨.refl _, .refl _, .refl _, .refl _, .refl _⟩
    | user =>
      have hif : ∀ (c : Prop) [Decidable c] (l : List String), (if c then l else []).Sublist l := by
        intro c _ l
        split_ifs
        · exact .refl l
        · exact nil_sublist l
      refine ⟨?_, ?_, ?_, ?_, sublist_append_left _ _⟩
      · change ((userMessages bs).flatMap OaiMessage.texts).Sublist _
        rw [texts_userMessages]
        exact hif _ _
      · change ((userMessages bs).flatMap OaiMessage.images).Sublist _
        rw [images_userMessages]
        exact hif _ _
      · change ((userMessages bs).flatMap OaiMessage.uses).Sublist _
        rw [uses_userMessages]
        exact nil_sublist _
      · change ((userMessages bs).flatMap OaiMessage.results).Sublist _
        rw [results_userMessages]
        exact .refl _
    | assistant =>
      refine ⟨?_, ?_, ?_, ?_, .refl _⟩
      · change ((assistantMessage toJson bs).texts ++ []).Sublist _
        rw [texts_assistantMessage, append_nil]
      · change ((assistantMessage toJson bs).images ++ []).Sublist _
        rw [images_assistantMessage]
        exact nil_sublist _
      · change ((assistantMessage toJson bs).uses ++ []).Sublist _
        rw [uses_assistantMessage, append_nil]
        exact .refl _
      · exact nil_sublist _

variable {b : ContentBlock}

theorem part?_eq_none_iff : part? b = none ↔ text? b = none ∧ imageUrl? b = none := by
  cases b <;> simp [part?, text?, imageUrl?]

theorem toolCall?_eq_none_iff : toolCall? toJson b = none ↔ b.toolUseId? = none := by
  cases b <;> simp [toolCall?, ContentBlock.toolUseId?]

theorem result?_eq_none_iff : result? b = none ↔ b.toolResultId? = none := by
  cases b <;> simp [result?, ContentBlock.toolResultId?]

theorem plain_user_iff {bs : List ContentBlock} :
    Plain ⟨.user, .blocks bs⟩ ↔ bs.filterMap part? = [] ∧ bs.filterMap (toolCall? toJson) = [] := by
  simp only [Plain, filterMap_eq_nil_iff, toolCall?_eq_none_iff]
  exact forall₂_and

variable {bs : List ContentBlock}

theorem plain_assistant_iff :
    Plain ⟨.assistant, .blocks bs⟩ ↔
      bs.filterMap imageUrl? = [] ∧ bs.filterMap result? = [] := by
  simp only [Plain, filterMap_eq_nil_iff, result?_eq_none_iff]
  exact forall₂_and

theorem filterMap_part?_eq_nil_iff :
    bs.filterMap part? = [] ↔ bs.filterMap text? = [] ∧ bs.filterMap imageUrl? = [] := by
  simp only [filterMap_eq_nil_iff, part?_eq_none_iff]
  exact forall₂_and

/-- The user message after the tool messages is what `stream` does not send. -/
theorem streamMessage_eq_iff :
    (bs.filterMap result?).map toolMessage = userMessages bs ↔
      (bs.filterMap result? = [] → bs.filterMap part? = []) := by
  rw [userMessages, self_eq_append_right]
  by_cases hresults : bs.filterMap result? = []
  · by_cases hparts : bs.filterMap part? = []
    · simp [hparts]
    · simp [hresults, hparts]
  · simp [hresults]

variable {m : Message}

theorem carries_singleton :
    Carries toJson [m] body ↔
      body.flatMap OaiMessage.texts = textsOf m ∧
      body.flatMap OaiMessage.images = saidBy imageUrl? m ∧
      body.flatMap OaiMessage.uses = saidBy (toolCall? toJson) m ∧
      body.flatMap OaiMessage.results = saidBy result? m := by
  rw [carries_iff, flatMap_singleton, flatMap_singleton, flatMap_singleton, flatMap_singleton]

theorem sent_user_iff :
    ((bs.filterMap result?).map toolMessage = userMessages bs ∧
      Carries toJson [⟨.user, .blocks bs⟩] (userMessages bs)) ↔ Plain ⟨.user, .blocks bs⟩ := by
  rw [streamMessage_eq_iff, carries_singleton, texts_userMessages, images_userMessages,
    uses_userMessages, results_userMessages, @plain_user_iff toJson]
  change (_ ∧ _ = bs.filterMap text? ∧ _ = bs.filterMap imageUrl? ∧
    _ = bs.filterMap (toolCall? toJson) ∧ _ = bs.filterMap result?) ↔ _
  by_cases hresults : bs.filterMap result? = []
  · simp [hresults, @eq_comm _ []]
  · rw [filterMap_part?_eq_nil_iff]
    simp [hresults, @eq_comm _ [], and_assoc]

theorem sent_assistant_iff :
    Carries toJson [⟨.assistant, .blocks bs⟩] [assistantMessage toJson bs] ↔
      Plain ⟨.assistant, .blocks bs⟩ := by
  rw [carries_singleton, flatMap_singleton, flatMap_singleton, flatMap_singleton,
    flatMap_singleton, texts_assistantMessage, images_assistantMessage,
    uses_assistantMessage, plain_assistant_iff]
  change (_ ∧ _ = bs.filterMap imageUrl? ∧ _ = bs.filterMap (toolCall? toJson) ∧
    [] = bs.filterMap result?) ↔ _
  simp [@eq_comm _ []]

/-- **Which messages survive the conversion.** -/
theorem sent_iff :
    (streamMessage toJson system m = completeMessage toJson system m ∧
      Carries toJson [m] (completeMessage toJson system m)) ↔ Plain m := by
  obtain ⟨role, content⟩ := m
  cases content with
  | text t =>
    cases role with
    | system => cases system <;> exact ⟨fun _ => trivial, fun _ => ⟨rfl, rfl, rfl, rfl, rfl⟩⟩
    | user => exact ⟨fun _ => trivial, fun _ => ⟨rfl, rfl, rfl, rfl, rfl⟩⟩
    | assistant => exact ⟨fun _ => trivial, fun _ => ⟨rfl, rfl, rfl, rfl, rfl⟩⟩
  | blocks bs =>
    cases role with
    | system => exact ⟨fun _ => trivial, fun _ => ⟨rfl, rfl, rfl, rfl, rfl⟩⟩
    | user => exact sent_user_iff
    | assistant => exact (and_iff_right rfl).trans sent_assistant_iff

/-! ## The conversation -/

theorem flatMap_completeMessages {β : Type} {f : OaiMessage → List β}
    (hsystem : ∀ t, f (.ofText .system t) = []) (request : CompletionRequest) :
    (completeMessages toJson request).flatMap f =
      request.messages.flatMap fun m =>
        (completeMessage toJson request.system m).flatMap f := by
  have hnone : (systemMessages request.system).flatMap f = [] := by
    rw [systemMessages]
    cases request.system with
    | none => rfl
    | some t => exact (append_nil _).trans (hsystem t)
  rw [completeMessages, flatMap_append, hnone, nil_append, flatMap_assoc]

variable {request : CompletionRequest}

theorem completeMessages_eq_iff :
    streamMessages toJson request = completeMessages toJson request ↔
      ∀ m ∈ request.messages, streamMessage toJson request.system m =
        completeMessage toJson request.system m := by
  rw [streamMessages, completeMessages, append_cancel_left_eq]
  exact flatMap_eq_flatMap_iff fun m _ => (reduces_completeMessage m).stream

theorem carries_completeMessages_iff :
    Carries toJson request.messages (completeMessages toJson request) ↔
      ∀ m ∈ request.messages, Carries toJson [m] (completeMessage toJson request.system m) := by
  have hreduces := fun m (_ : m ∈ request.messages) =>
    @reduces_completeMessage toJson request.system m
  simp only [carries_singleton, forall₂_and]
  rw [carries_iff, ← flatMap_eq_flatMap_iff fun m hm => (hreduces m hm).texts,
    ← flatMap_eq_flatMap_iff fun m hm => (hreduces m hm).images,
    ← flatMap_eq_flatMap_iff fun m hm => (hreduces m hm).uses,
    ← flatMap_eq_flatMap_iff fun m hm => (hreduces m hm).results,
    ← flatMap_completeMessages fun _ => rfl, ← flatMap_completeMessages fun _ => rfl,
    ← flatMap_completeMessages fun _ => rfl, ← flatMap_completeMessages fun _ => rfl]

/-- What a message becomes: tool messages for its results, and at most one behind them. -/
structure Converts (m : Message) (tools rest : List OaiMessage) : Prop where
  tool : ∀ t ∈ tools, t.role = .tool ∧ t.uses = []
  ids : tools.filterMap OaiMessage.toolCallId = m.toolResultIds
  rest : rest = [] ∧ m.toolUseIds = [] ∨
    ∃ t, rest = [t] ∧ t.role ≠ .tool ∧ t.uses.map OaiToolCall.id = m.toolUseIds

variable {tools : List OaiMessage}

theorem answered_append (h : ∀ t ∈ tools, t.role = .tool) (rest : List OaiMessage) :
    answered (tools ++ rest) = tools.filterMap OaiMessage.toolCallId ++ answered rest := by
  rw [answered, takeWhile_append_of_pos (fun t ht => decide_eq_true (h t ht)),
    filterMap_append, answered]

theorem answered_of_ne (h : t.role ≠ .tool) (rest : List OaiMessage) :
    answered (t :: rest) = [] := by
  rw [answered, takeWhile_cons_of_neg (by simpa using h), filterMap_nil]

variable {rest : List OaiMessage}

theorem wirePaired_append (h : ∀ t ∈ tools, t.uses = []) (hrest : WirePaired rest) :
    WirePaired (tools ++ rest) := by
  induction tools with
  | nil => exact hrest
  | cons t tools ih =>
    refine ⟨fun huses => ?_, ih fun t' ht' => h t' (mem_cons_of_mem t ht')⟩
    exact absurd (h t mem_cons_self) huses

/-- By induction on the history, with what the message before it leaves open. -/
theorem wirePaired_flatMap {convert : Message → List OaiMessage}
    (hconvert : ∀ m ∈ ms, ∃ tools rest, convert m = tools ++ rest ∧ Converts m tools rest) :
    ∀ {p : Message}, (p :: (ms ++ [nothing])).IsChain Answers →
      (∀ id, id ∈ answered (ms.flatMap convert) ↔ id ∈ p.toolUseIds) ∧
        WirePaired (ms.flatMap convert) := by
  induction ms with
  | nil =>
    intro p hchain
    obtain ⟨hp, -⟩ := isChain_cons_cons.mp hchain
    rw [hp.use_nil rfl]
    exact ⟨fun _ => Iff.rfl, trivial⟩
  | cons m ms ih =>
    intro p hchain
    obtain ⟨hp, hchain⟩ := isChain_cons_cons.mp hchain
    obtain ⟨hopen, hpaired⟩ := ih (fun m' hm' => hconvert m' (mem_cons_of_mem m hm')) hchain
    obtain ⟨tools, rest, heq, hm⟩ := hconvert m mem_cons_self
    rw [flatMap_cons, heq, append_assoc, answered_append fun t ht => (hm.tool t ht).1,
      hm.ids]
    have hnouses := fun t ht => (hm.tool t ht).2
    rcases hm.rest with ⟨rfl, huses⟩ | ⟨t, rfl, hrole, huses⟩
    · -- nothing follows the tool messages, and the next message answers nothing
      rw [nil_append]
      refine ⟨fun id => ?_, wirePaired_append hnouses hpaired⟩
      rw [mem_append, hopen, huses, hp id]
      simp
    · rw [singleton_append]
      refine ⟨fun id => ?_, wirePaired_append hnouses ⟨fun _ id => ?_, hpaired⟩⟩
      · rw [answered_of_ne hrole, append_nil]
        exact hp id
      · rw [huses]
        exact hopen id

theorem map_id_toolCall? (bs : List ContentBlock) :
    (bs.filterMap (toolCall? toJson)).map OaiToolCall.id = bs.filterMap (·.toolUseId?) := by
  rw [map_filterMap]
  refine filterMap_congr fun b _ => ?_
  cases b <;> rfl

theorem filterMap_toolCallId_toolMessage (bs : List ContentBlock) :
    ((bs.filterMap result?).map toolMessage).filterMap OaiMessage.toolCallId =
      bs.filterMap (·.toolResultId?) := by
  rw [filterMap_map, filterMap_filterMap]
  refine filterMap_congr fun b _ => ?_
  cases b <;> rfl

theorem converts_ofText (role : OaiRole) (t : String) (hrole : role ≠ .tool)
    (huses : m.toolUseIds = []) (hresults : m.toolResultIds = []) :
    Converts m [] [.ofText role t] :=
  ⟨fun _ h => (not_mem_nil h).elim, hresults.symm, .inr ⟨_, rfl, hrole, huses.symm⟩⟩

theorem converts_nil (huses : m.toolUseIds = []) (hresults : m.toolResultIds = []) :
    Converts m [] [] :=
  ⟨fun _ h => (not_mem_nil h).elim, hresults.symm, .inl ⟨rfl, huses⟩⟩

theorem converts_assistantMessage (hresults : toolResultIds ⟨.assistant, .blocks bs⟩ = []) :
    Converts ⟨.assistant, .blocks bs⟩ [] [assistantMessage toJson bs] := by
  refine ⟨fun _ h => (not_mem_nil h).elim, hresults.symm, .inr ⟨_, rfl, nofun, ?_⟩⟩
  rw [uses_assistantMessage]
  exact map_id_toolCall? bs

theorem converts_user (huses : toolUseIds ⟨.user, .blocks bs⟩ = [])
    (hrest : rest = [] ∨ ∃ content, rest = [⟨.user, content, none, none⟩]) :
    Converts ⟨.user, .blocks bs⟩ ((bs.filterMap result?).map toolMessage) rest := by
  refine ⟨fun t ht => ?_, filterMap_toolCallId_toolMessage bs, ?_⟩
  · obtain ⟨r, -, rfl⟩ := mem_map.mp ht
    exact ⟨rfl, rfl⟩
  · rcases hrest with rfl | ⟨content, rfl⟩
    · exact .inl ⟨rfl, huses⟩
    · exact .inr ⟨_, rfl, nofun, huses.symm⟩

theorem converts_completeMessage (hm : m.RoleOk) :
    ∃ tools rest, completeMessage toJson system m = tools ++ rest ∧ Converts m tools rest := by
  obtain ⟨role, content⟩ := m
  cases content with
  | text t =>
    cases role with
    | system =>
      cases system with
      | none => exact ⟨[], _, rfl, converts_ofText .system t nofun rfl rfl⟩
      | some _ => exact ⟨[], [], rfl, converts_nil rfl rfl⟩
    | user => exact ⟨[], _, rfl, converts_ofText .user t nofun rfl rfl⟩
    | assistant => exact ⟨[], _, rfl, converts_ofText .assistant t nofun rfl rfl⟩
  | blocks bs =>
    cases role with
    | system => exact ⟨[], [], rfl, converts_nil (hm.1 nofun) (hm.2 nofun)⟩
    | user =>
      refine ⟨_, _, rfl, converts_user (hm.1 nofun) ?_⟩
      split_ifs
      · exact .inr ⟨_, rfl⟩
      · exact .inl rfl
    | assistant => exact ⟨[], _, rfl, converts_assistantMessage (hm.2 nofun)⟩

/-- **Tool uses are followed by their answers**, if they are in the request. -/
theorem wirePaired_completeMessages (hpaired : Paired request.messages)
    (hrole : ∀ m ∈ request.messages, m.RoleOk) : WirePaired (completeMessages toJson request) := by
  apply wirePaired_append
  · intro t ht
    obtain ⟨text, -, rfl⟩ := Option.map_eq_some_iff.mp (Option.mem_toList.mp ht)
    rfl
  · exact (wirePaired_flatMap (fun m hm => converts_completeMessage (hrole m hm)) hpaired).2

/-- **When both modes send the conversation.** -/
theorem conversation_sent_iff (toJson : Json → Option String) (request : CompletionRequest) :
    (streamMessages toJson request = completeMessages toJson request ∧
      Carries toJson request.messages (completeMessages toJson request) ∧
      (Paired request.messages → (∀ m ∈ request.messages, m.RoleOk) →
        WirePaired (completeMessages toJson request))) ↔
      ∀ m ∈ request.messages, Plain m := by
  have hpaired : Paired request.messages → (∀ m ∈ request.messages, m.RoleOk) →
      WirePaired (completeMessages toJson request) := wirePaired_completeMessages
  rw [← and_assoc, and_iff_left hpaired, completeMessages_eq_iff, carries_completeMessages_iff,
    ← forall₂_and]
  exact forall₂_congr fun _ _ => sent_iff

/-- A caption is sent by `complete` only, a text next to a tool result by neither. -/
theorem image_not_streamed :
    (∀ toJson : Json → Option String, ∃ request : CompletionRequest,
      request.messages = [⟨.user, .blocks [.text "What is this?", .image "image/png" "iVBORw0K"]⟩] ∧
      completeMessages toJson request = [⟨.user, some (.parts [.text "What is this?",
        .imageUrl "data:image/png;base64,iVBORw0K"]), none, none⟩] ∧
      streamMessages toJson request = []) ∧
    (∀ toJson : Json → Option String, ∃ request : CompletionRequest,
      request.messages = [⟨.user, .blocks [.toolResult "call_1" "ok" false, .text "go on"]⟩] ∧
      completeMessages toJson request = [⟨.tool, some (.text "ok"), none, some "call_1"⟩] ∧
      streamMessages toJson request = [⟨.tool, some (.text "ok"), none, some "call_1"⟩]) := by
  refine ⟨fun toJson => ⟨⟨"gpt-4o", _, [], 100, 0, none⟩, rfl, rfl, rfl⟩, fun toJson =>
    ⟨⟨"gpt-4o", _, [], 100, 0, none⟩, rfl, rfl, rfl⟩⟩

end

end OpenAi

end AlloyAgent
