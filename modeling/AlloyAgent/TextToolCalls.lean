import AlloyAgent.AgentLoop
import AlloyAgent.TagScan

/-!
# Tool calls that a model has written as text

`recover_text_tool_calls` of `openfang-runtime/src/agent_loop.rs` looks through an answer twice, for
`<function=NAME>JSON</function>` and for `<function>NAME{JSON}</function>`, and returns a tool call
for every occurrence that names an available tool and has JSON in it.

* `known_recoverTextToolCalls`: only available tools are called;
* `recoverTextToolCalls_faithful_iff`: the answers of which all calls are recovered.
-/

namespace AlloyAgent.TextToolCalls

open List RustStr TagScan

/-- What is used of `serde_json`: the parser, and equality of the values that it returns. -/
structure SerdeJson where
  fromStr : List Char → Option Json
  eq : Json → Json → Bool
  eq_self : ∀ s v, fromStr s = some v → eq v v = true

/-- The tags without their first character. -/
def functionEq : List Char := "function=".toList

def functionOpen : List Char := "function>".toList

def functionClose : List Char := "/function>".toList

section

variable (lib : SerdeJson) (uuid : ℕ → String) (toolNames : List (List Char))

/-- `calls.push(ToolCall { … })`, with a new id. -/
def pushCall (calls : List ToolCall) (toolName : List Char) (input : Json) : List ToolCall :=
  calls ++ [⟨"recovered_" ++ uuid calls.length, String.ofList toolName, input⟩]

/-- The end of the first loop: validate the name, parse the input, push the call. -/
def record1 (calls : List ToolCall) (toolName jsonBody : List Char) : List ToolCall :=
  if toolNames.contains toolName then
    match lib.fromStr jsonBody with
    | some input => pushCall uuid calls toolName input
    | none => calls
  else calls

/-- The end of the second loop; a call that is already there is left out. -/
def record2 (calls : List ToolCall) (toolName jsonBody : List Char) : List ToolCall :=
  if toolName = [] then calls
  else if toolNames.contains toolName then
    match lib.fromStr jsonBody with
    | some input =>
      if calls.any fun c => c.name = String.ofList toolName && lib.eq c.input input then calls
      else pushCall uuid calls toolName input
    | none => calls
  else calls

/-- The body of the first loop, behind `<function=`. -/
def pattern1 (calls : List ToolCall) (afterPrefix : List Char) : List ToolCall × List Char :=
  match splitOnce? ['>'] afterPrefix with
  | none => (calls, afterPrefix)
  | some (toolName, jsonStart) =>
    match splitOnce? ('<' :: functionClose) jsonStart with
    | none => (calls, jsonStart)
    | some (jsonBody, rest) => (record1 lib uuid toolNames calls toolName (trim jsonBody), rest)

/-- The body of the second loop, behind `<function>`. -/
def pattern2 (calls : List ToolCall) (afterTag : List Char) : List ToolCall × List Char :=
  match splitOnce? ('<' :: functionClose) afterTag with
  | none => (calls, afterTag)
  | some (inner, rest) =>
    match splitOnce? ['{'] inner with
    | none => (calls, rest)
    | some (toolName, json) =>
      (record2 lib uuid toolNames calls (trim toolName) (trim ('{' :: json)), rest)

def handler1 : Handler (List ToolCall) where
  run := pattern1 lib uuid toolNames
  length_le calls s := by
    rw [pattern1]
    split
    · exact le_rfl
    · rename_i hname
      have hname := splitOnce?_length hname
      split
      · dsimp only
        omega
      · rename_i hclose
        have hclose := splitOnce?_length hclose
        dsimp only
        omega

def handler2 : Handler (List ToolCall) where
  run := pattern2 lib uuid toolNames
  length_le calls s := by
    rw [pattern2]
    split
    · exact le_rfl
    · rename_i hclose
      have hclose := splitOnce?_length hclose
      split <;> dsimp only <;> omega

@[simp] theorem handler1_run :
    (handler1 lib uuid toolNames).run = pattern1 lib uuid toolNames := rfl

@[simp] theorem handler2_run :
    (handler2 lib uuid toolNames).run = pattern2 lib uuid toolNames := rfl

def recoverTextToolCalls (text : List Char) (availableTools : List ToolDefinition) :
    List ToolCall :=
  let toolNames := availableTools.map fun t => t.name.toList
  let calls := scanTags '<' functionEq (handler1 lib uuid toolNames) [] text
  scanTags '<' functionOpen (handler2 lib uuid toolNames) calls text

end

/-! ## Available tools -/

section

variable {lib : SerdeJson} {uuid : ℕ → String} {toolNames : List (List Char)}

def Known (toolNames : List (List Char)) (calls : List ToolCall) : Prop :=
  ∀ call ∈ calls, call.name.toList ∈ toolNames

theorem Known.pushCall (h : Known toolNames calls) (hname : toolName ∈ toolNames) (input : Json) :
    Known toolNames (pushCall uuid calls toolName input) := by
  intro call hcall
  rcases mem_append.mp hcall with hold | hnew
  · exact h call hold
  · rw [mem_singleton.mp hnew, String.toList_ofList]
    exact hname

theorem Known.record1 (h : Known toolNames calls) (toolName jsonBody : List Char) :
    Known toolNames (record1 lib uuid toolNames calls toolName jsonBody) := by
  rw [TextToolCalls.record1]
  split_ifs with hname
  · split
    · exact h.pushCall (contains_iff_mem.mp hname) _
    · exact h
  · exact h

theorem Known.record2 (h : Known toolNames calls) (toolName jsonBody : List Char) :
    Known toolNames (record2 lib uuid toolNames calls toolName jsonBody) := by
  rw [TextToolCalls.record2]
  split_ifs with hempty hname
  · exact h
  · split
    · split_ifs
      · exact h
      · exact h.pushCall (contains_iff_mem.mp hname) _
    · exact h
  · exact h

/-- **Only available tools are called**, whatever the text is. -/
theorem known_recoverTextToolCalls (lib : SerdeJson) (uuid : ℕ → String) (text : List Char)
    (availableTools : List ToolDefinition) :
    Known (availableTools.map fun t => t.name.toList)
      (recoverTextToolCalls lib uuid text availableTools) := by
  refine scanTags_invariant (fun calls s h => ?_) (scanTags_invariant (fun calls s h => ?_) ?_ _) _
  · show Known _ (pattern2 lib uuid _ calls s).1
    rw [pattern2]
    split
    · exact h
    · split
      · exact h
      · exact h.record2 _ _
  · show Known _ (pattern1 lib uuid _ calls s).1
    rw [pattern1]
    split
    · exact h
    · split
      · exact h
      · exact h.record1 _ _
  · exact nofun

end

/-- Which of the two patterns a call is written in. -/
inductive Style where
  | named
  | bare
deriving DecidableEq

def TagFree (s : List Char) : Prop :=
  ∀ ds ∈ [functionEq, functionOpen, functionClose], ¬ '<' :: ds <:+: s

instance decidableTagFree (s : List Char) : Decidable (TagFree s) :=
  inferInstanceAs (Decidable (∀ ds ∈ [functionEq, functionOpen, functionClose],
    ¬ '<' :: ds <:+: s))

/-- A call as it is written: an available tool, and the text of a JSON object. -/
structure WrittenCall (lib : SerdeJson) (toolNames : List (List Char)) where
  style : Style
  name : List Char
  json : List Char
  input : Json
  available : name ∈ toolNames
  plain : '<' ∉ name ∧ '>' ∉ name ∧ '{' ∉ name
  object : ∃ inner, json = '{' :: (inner ++ ['}'])
  tagFree : TagFree json
  parsed : lib.fromStr json = some input

structure Segment (lib : SerdeJson) (toolNames : List (List Char)) where
  before : List Char
  tagFree : TagFree before
  call : WrittenCall lib toolNames

/-- Calls with text before and after them. -/
structure Script (lib : SerdeJson) (toolNames : List (List Char)) where
  segments : List (Segment lib toolNames)
  tail : List Char
  tagFree : TagFree tail

section

variable {lib : SerdeJson} {uuid : ℕ → String} {toolNames : List (List Char)}

def WrittenCall.render (c : WrittenCall lib toolNames) (rest : List Char) : List Char :=
  match c.style with
  | .named => '<' :: functionEq ++ (c.name ++ ('>' :: (c.json ++ ('<' :: functionClose ++ rest))))
  | .bare => '<' :: functionOpen ++ (c.name ++ (c.json ++ ('<' :: functionClose ++ rest)))

def Script.render (script : Script lib toolNames) : List Char :=
  script.segments.foldr (fun seg rest => seg.before ++ seg.call.render rest) script.tail

def WrittenCall.value (c : WrittenCall lib toolNames) : String × Json :=
  (String.ofList c.name, c.input)

def Script.calls (script : Script lib toolNames) : List (WrittenCall lib toolNames) :=
  script.segments.map Segment.call

variable (c : WrittenCall lib toolNames)

theorem trim_json : trim c.json = c.json := by
  obtain ⟨inner, hjson⟩ := c.object
  rw [hjson]
  exact trim_cons_append (by decide) (by decide) (by decide) inner

variable {ds : List Char}

theorem TagFree.passed (h : TagFree s) (hds : ds ∈ [functionEq, functionOpen, functionClose])
    (ht : ∀ c ∈ t.head?, c = '<') : Passed '<' ds s t := by
  refine passed_of_not_isInfix ?_ ht (h ds hds)
  revert ds
  decide

theorem passed_json (hds : ds ∈ [functionEq, functionOpen, functionClose]) (rest : List Char) :
    Passed '<' ds c.json ('<' :: functionClose ++ rest) :=
  c.tagFree.passed hds fun _ h => (Option.some.inj h).symm

variable (calls : List ToolCall) (rest : List Char)

theorem pattern1_render :
    pattern1 lib uuid toolNames calls
        (c.name ++ ('>' :: (c.json ++ ('<' :: functionClose ++ rest)))) =
      (pushCall uuid calls c.name c.input, rest) := by
  have hname : splitOnce? ['>'] (c.name ++ ('>' :: (c.json ++ ('<' :: functionClose ++ rest)))) =
      some (c.name, c.json ++ ('<' :: functionClose ++ rest)) :=
    splitOnce?_of_not_mem c.plain.2.1 _
  rw [pattern1, hname]
  dsimp only
  rw [(passed_json c (by simp) rest).splitOnce?]
  dsimp only
  rw [record1, if_pos (contains_iff_mem.mpr c.available), trim_json, c.parsed]

theorem pattern2_render :
    pattern2 lib uuid toolNames calls (c.name ++ (c.json ++ ('<' :: functionClose ++ rest))) =
      (record2 lib uuid toolNames calls (trim c.name) c.json, rest) := by
  obtain ⟨inner, hjson⟩ := c.object
  have hname : splitOnce? ['{'] (c.name ++ c.json) = some (c.name, inner ++ ['}']) := by
    rw [hjson]
    exact splitOnce?_of_not_mem c.plain.2.2 _
  rw [pattern2, ← append_assoc,
    ((passed_of_notMem c.plain.1 _).append (passed_json c (by simp) rest)).splitOnce?]
  dsimp only
  rw [hname]
  dsimp only
  rw [← hjson, trim_json]

/-! ## The two searches over a script -/

theorem scan_passed {σ : Type} {handler : Handler σ} {acc : σ} (c : WrittenCall lib toolNames)
    {ds es middle : List Char} (hds : ds ∈ [functionEq, functionOpen, functionClose])
    (hmiddle : '<' ∉ es ∧ '<' ∉ middle) (rest : List Char)
    (hopen : ∀ t, ('<' :: ds).isPrefixOf ('<' :: es ++ t) = false)
    (hclose : ∀ t, ('<' :: ds).isPrefixOf ('<' :: functionClose ++ t) = false) :
    scanTags '<' ds handler acc
        ('<' :: es ++ (middle ++ (c.json ++ ('<' :: functionClose ++ rest)))) =
      scanTags '<' ds handler acc rest := by
  rw [(passed_tag hmiddle.1 (hopen _)).scanTags, (passed_of_notMem hmiddle.2 _).scanTags,
    (passed_json c hds rest).scanTags, (passed_tag (by decide) (hclose _)).scanTags]

theorem scan1_render :
    scanTags '<' functionEq (handler1 lib uuid toolNames) calls (c.render rest) =
      scanTags '<' functionEq (handler1 lib uuid toolNames)
        (if c.style = .named then pushCall uuid calls c.name c.input else calls) rest := by
  rw [WrittenCall.render]
  cases c.style with
  | named =>
    rw [scanTags_tag, if_pos rfl, handler1_run, pattern1_render]
  | bare =>
    exact scan_passed c (by simp) ⟨by decide, c.plain.1⟩ rest (fun _ => rfl) fun _ => rfl

theorem scan2_render :
    scanTags '<' functionOpen (handler2 lib uuid toolNames) calls (c.render rest) =
      scanTags '<' functionOpen (handler2 lib uuid toolNames)
        (if c.style = .bare then record2 lib uuid toolNames calls (trim c.name) c.json else calls)
        rest := by
  rw [WrittenCall.render]
  cases c.style with
  | named =>
    have hmiddle : '<' ∉ c.name ++ ['>'] := by simp [c.plain.1]
    have hpass := @scan_passed lib toolNames _ (handler2 lib uuid toolNames) calls c functionOpen
      functionEq (c.name ++ ['>']) (by simp) ⟨by decide, hmiddle⟩ rest (fun _ => rfl) fun _ => rfl
    rwa [append_assoc] at hpass
  | bare =>
    rw [scanTags_tag, if_pos rfl, handler2_run, pattern2_render]

/-- A search over a script, by induction on the segments from the end. -/
theorem scan_script {σ : Type} {handler : Handler σ}
    (hds : ds ∈ [functionEq, functionOpen, functionClose])
    {step : σ → WrittenCall lib toolNames → σ} (hstep : ∀ c acc rest,
      scanTags '<' ds handler acc (c.render rest) = scanTags '<' ds handler (step acc c) rest)
    (script : Script lib toolNames) (acc : σ) :
    scanTags '<' ds handler acc script.render = script.calls.foldl step acc := by
  obtain ⟨segments, tail, htail⟩ := script
  rw [Script.render, Script.calls]
  induction segments generalizing acc with
  | nil =>
    have hend : Passed '<' ds tail [] := htail.passed hds nofun
    have hscan := @Passed.scanTags σ '<' ds handler acc tail [] hend
    rw [append_nil] at hscan
    exact hscan.trans (scanTags_of_none rfl)
  | cons seg segments ih =>
    have hhead : ∀ rest, ∀ ch ∈ (seg.call.render rest).head?, ch = '<' := by
      intro rest ch hch
      rw [WrittenCall.render] at hch
      cases hstyle : seg.call.style <;> rw [hstyle] at hch <;> exact (Option.some.inj hch).symm
    rw [foldr_cons, (seg.tagFree.passed hds (hhead _)).scanTags, hstep, ih]
    rfl

/-! ## Names and inputs -/

def values (calls : List ToolCall) : List (String × Json) := calls.map fun c => (c.name, c.input)

/-- The same name, and an input that is equal. -/
def SerdeJson.repeats (lib : SerdeJson) (v w : String × Json) : Bool :=
  v.1 = w.1 && lib.eq v.2 w.2

/-- Name and input as the second search reads them. -/
def WrittenCall.trimmed (c : WrittenCall lib toolNames) : String × Json :=
  (String.ofList (trim c.name), c.input)

/-- What the second search does with a call of the second variant. -/
def addBare (acc : List (String × Json)) (c : WrittenCall lib toolNames) : List (String × Json) :=
  if trim c.name ≠ [] ∧ toolNames.contains (trim c.name) = true ∧
      acc.any (fun v => lib.repeats v c.trimmed) = false then
    acc ++ [c.trimmed]
  else acc

theorem values_pushCall (calls : List ToolCall) (toolName : List Char) (input : Json) :
    values (pushCall uuid calls toolName input) =
      values calls ++ [(String.ofList toolName, input)] := by
  rw [values, pushCall, map_append]
  rfl

theorem values_record2 (c : WrittenCall lib toolNames) :
    values (record2 lib uuid toolNames calls (trim c.name) c.json) = addBare (values calls) c := by
  have hany : (values calls).any (fun v => lib.repeats v c.trimmed) =
      calls.any fun call =>
        call.name = String.ofList (trim c.name) && lib.eq call.input c.input := by
    rw [values, any_map]
    rfl
  rw [record2, addBare, hany, c.parsed]
  by_cases hempty : trim c.name = []
  · rw [if_pos hempty, if_neg fun h => h.1 hempty]
  · by_cases hname : toolNames.contains (trim c.name) = true
    · rw [if_neg hempty, if_pos hname]
      dsimp only
      split_ifs with hold hnew hnew
      · rw [hold] at hnew
        cases hnew.2.2
      · rfl
      · rw [values_pushCall, WrittenCall.trimmed]
      · exact absurd ⟨hempty, hname, Bool.eq_false_iff.mpr hold⟩ hnew
    · rw [if_neg hempty, if_neg hname, if_neg fun h => hname h.2.1]

def ofStyle (style : Style) (written : List (WrittenCall lib toolNames)) :
    List (WrittenCall lib toolNames) :=
  written.filter fun c => c.style = style

theorem values_foldl {p : WrittenCall lib toolNames → Prop} [DecidablePred p]
    {f : List ToolCall → WrittenCall lib toolNames → List ToolCall}
    {g : List (String × Json) → WrittenCall lib toolNames → List (String × Json)}
    (h : ∀ calls c, values (f calls c) = g (values calls) c)
    (written : List (WrittenCall lib toolNames)) (calls : List ToolCall) :
    values (written.foldl (fun calls c => if p c then f calls c else calls) calls) =
      (written.filter p).foldl g (values calls) := by
  induction written generalizing calls with
  | nil => rfl
  | cons c written ih =>
    by_cases hc : p c
    · rw [foldl_cons, if_pos hc, ih, h, filter_cons_of_pos (by simpa using hc),
        foldl_cons]
    · rw [foldl_cons, if_neg hc, ih, filter_cons_of_neg (by simpa using hc)]

/-- **What is recovered from a script**: the first variant, and then the second. -/
theorem values_recover (availableTools : List ToolDefinition)
    (script : Script lib (availableTools.map fun t => t.name.toList)) :
    values (recoverTextToolCalls lib uuid script.render availableTools) =
      (ofStyle .bare script.calls).foldl addBare
        ((ofStyle .named script.calls).map WrittenCall.value) := by
  have hnamed := @values_foldl lib (availableTools.map fun t => t.name.toList)
    (fun c => c.style = .named) _ _ (fun acc c => acc ++ [c.value])
    (fun calls c => @values_pushCall uuid calls c.name c.input) script.calls []
  rw [recoverTextToolCalls, scan_script (by simp) scan1_render, scan_script (by simp) scan2_render,
    values_foldl values_record2, hnamed, foldl_append_eq_append, ← flatMap_def,
    ← map_eq_flatMap]
  rfl

/-! ## When all calls are recovered as written -/

/-- What is asked of a recovery: the calls as they are written, and only available tools. -/
structure Faithful (lib : SerdeJson) (uuid : ℕ → String) (availableTools : List ToolDefinition)
    (script : Script lib (availableTools.map fun t => t.name.toList)) : Prop where
  calls : values (recoverTextToolCalls lib uuid script.render availableTools) =
    script.calls.map WrittenCall.value
  names : ∀ text, ∀ call ∈ recoverTextToolCalls lib uuid text availableTools,
    call.name ∈ availableTools.map ToolDefinition.name

/-- The second search adds nothing wrong and leaves nothing out. -/
structure Separate (calls : List (WrittenCall lib toolNames)) : Prop where
  /-- no call of the first variant comes after one of the second -/
  order : calls.Pairwise fun a b => b.style = .named → a.style = .named
  /-- no call of the second variant repeats an earlier call -/
  fresh : calls.Pairwise fun a b => b.style = .bare → lib.repeats a.value b.value = false
  /-- the name in a call of the second variant stands without whitespace around it -/
  trimmed : ∀ c ∈ calls, c.style = .bare → c.name ≠ [] ∧ trim c.name = c.name

variable {acc : List (String × Json)} {bare : List (WrittenCall lib toolNames)}

theorem length_foldl_addBare_le (acc : List (String × Json))
    (bare : List (WrittenCall lib toolNames)) :
    (bare.foldl addBare acc).length ≤ acc.length + bare.length := by
  induction bare generalizing acc with
  | nil => exact le_rfl
  | cons c bare ih =>
    have hstep : (addBare acc c).length ≤ acc.length + 1 := by
      rw [addBare]
      split_ifs
      · rw [length_append, length_singleton]
      · exact Nat.le_succ _
    have hrest := ih (addBare acc c)
    rw [foldl_cons, length_cons]
    omega

theorem foldl_addBare_of_length
    (h : (bare.foldl addBare acc).length = acc.length + bare.length) :
    bare.foldl addBare acc = acc ++ bare.map WrittenCall.trimmed ∧
      (∀ c ∈ bare, trim c.name ≠ []) ∧
      (∀ v ∈ acc, ∀ c ∈ bare, lib.repeats v c.trimmed = false) ∧
      bare.Pairwise fun a b => lib.repeats a.trimmed b.trimmed = false := by
  induction bare generalizing acc with
  | nil => exact ⟨by rw [foldl_nil, map_nil, append_nil], nofun, nofun, .nil⟩
  | cons c bare ih =>
    have hle := length_foldl_addBare_le (addBare acc c) bare
    rw [foldl_cons, length_cons] at h
    by_cases hadd : trim c.name ≠ [] ∧ toolNames.contains (trim c.name) = true ∧
        acc.any (fun v => lib.repeats v c.trimmed) = false
    · have hstep : addBare acc c = acc ++ [c.trimmed] := if_pos hadd
      rw [hstep] at h
      obtain ⟨hsum, hne, hacc, hbare⟩ := ih (by
        rw [h, length_append, length_singleton]
        omega)
      refine ⟨?_, ?_, ?_, ?_⟩
      · rw [foldl_cons, hstep, hsum, map_cons, append_assoc, singleton_append]
      · exact forall_mem_cons.mpr ⟨hadd.1, hne⟩
      · intro v hv
        refine forall_mem_cons.mpr ⟨?_, hacc v (mem_append_left _ hv)⟩
        exact Bool.eq_false_iff.mpr (any_eq_false.mp hadd.2.2 v hv)
      · exact .cons (hacc _ (mem_append_right _ mem_cons_self)) hbare
    · have hstep : addBare acc c = acc := if_neg hadd
      rw [hstep] at h hle
      omega

theorem foldl_addBare_of_fresh
    (htrim : ∀ c ∈ bare, c.name ≠ [] ∧ trim c.name = c.name)
    (hacc : ∀ v ∈ acc, ∀ c ∈ bare, lib.repeats v c.value = false)
    (hbare : bare.Pairwise fun a b => lib.repeats a.value b.value = false) :
    bare.foldl addBare acc = acc ++ bare.map WrittenCall.value := by
  induction bare generalizing acc with
  | nil => rw [foldl_nil, map_nil, append_nil]
  | cons c bare ih =>
    obtain ⟨hne, hname⟩ := htrim c mem_cons_self
    obtain ⟨hc, hbare⟩ := pairwise_cons.mp hbare
    have hvalue : c.trimmed = c.value := by rw [WrittenCall.trimmed, hname, WrittenCall.value]
    have hnew : acc.any (fun v => lib.repeats v c.value) = false :=
      any_eq_false.mpr fun v hv => Bool.eq_false_iff.mp (hacc v hv c mem_cons_self)
    have hstep : addBare acc c = acc ++ [c.value] := by
      rw [addBare, hvalue, hname, if_pos ⟨hne, contains_iff_mem.mpr c.available, hnew⟩]
    rw [foldl_cons, hstep, ih (fun c hc => htrim c (mem_cons_of_mem _ hc)) ?_ hbare,
      map_cons, append_assoc, singleton_append]
    intro v hv b hb
    rcases mem_append.mp hv with hold | hnew
    · exact hacc v hold b (mem_cons_of_mem _ hb)
    · rw [mem_singleton.mp hnew]
      exact hc b hb

/-- The calls of the first variant come first as soon as their values do. -/
theorem order_of_values {written : List (WrittenCall lib toolNames)}
    (hdiff : ∀ a ∈ written, ∀ b ∈ written, a.style = .named → b.style = .bare → a.value ≠ b.value)
    (h : (ofStyle .named written).map WrittenCall.value ++
      (ofStyle .bare written).map WrittenCall.value = written.map WrittenCall.value) :
    written.Pairwise fun a b => b.style = .named → a.style = .named := by
  rw [ofStyle, ofStyle] at h
  induction written with
  | nil => exact .nil
  | cons c written ih =>
    have hrest := ih fun a ha b hb =>
      hdiff a (mem_cons_of_mem _ ha) b (mem_cons_of_mem _ hb)
    cases hstyle : c.style with
    | named =>
      refine .cons (fun b _ _ => hstyle) (hrest ?_)
      rw [filter_cons_of_pos (by simp [hstyle]), filter_cons_of_neg (by simp [hstyle]),
        map_cons, map_cons, cons_append] at h
      exact (List.cons.inj h).2
    | bare =>
      rw [filter_cons_of_neg (by simp [hstyle])] at h
      cases hnamed : written.filter fun c => c.style = .named with
      | nil =>
        have hall : ∀ b ∈ written, b.style ≠ .named := fun b hb hb' =>
          filter_eq_nil_iff.mp hnamed b hb (by simpa using hb')
        refine .cons (fun b hb hb' => absurd hb' (hall b hb)) ?_
        exact pairwise_of_forall_mem_list fun a _ b hb hb' => absurd hb' (hall b hb)
      | cons a named =>
        -- the first value is that of a named call
        have ha := mem_filter.mp (hnamed ▸ mem_cons_self : a ∈ _)
        rw [hnamed, map_cons, cons_append, map_cons] at h
        have hnamed := of_decide_eq_true ha.2
        refine absurd (List.cons.inj h).1 ?_
        exact hdiff a (mem_cons_of_mem _ ha.1) c mem_cons_self hnamed hstyle

theorem eq_append_of_order {written : List (WrittenCall lib toolNames)}
    (h : written.Pairwise fun a b => b.style = .named → a.style = .named) :
    ofStyle .named written ++ ofStyle .bare written = written := by
  rw [ofStyle, ofStyle]
  induction written with
  | nil => rfl
  | cons c written ih =>
    obtain ⟨hc, hrest⟩ := pairwise_cons.mp h
    cases hstyle : c.style with
    | named =>
      rw [filter_cons_of_pos (by simp [hstyle]), filter_cons_of_neg (by simp [hstyle]),
        cons_append, ih hrest]
    | bare =>
      have hbare : ∀ b ∈ written, b.style = .bare := by
        intro b hb
        cases hb' : b.style with
        | bare => rfl
        | named => exact absurd (hc b hb hb') (by simp [hstyle])
      rw [filter_cons_of_neg (by simp [hstyle]), filter_cons_of_pos (by simp [hstyle]),
        filter_eq_nil_iff.mpr fun b hb => by simp [hbare b hb],
        filter_eq_self.mpr fun b hb => by simp [hbare b hb], nil_append]

variable (written : List (WrittenCall lib toolNames))

theorem perm_ofStyle : (ofStyle .named written ++ ofStyle .bare written).Perm written := by
  have hbare : ofStyle .bare written = written.filter fun c => !decide (c.style = .named) := by
    refine filter_congr fun c _ => ?_
    cases c.style <;> rfl
  rw [hbare]
  exact filter_append_perm _ _

theorem mem_ofStyle {written : List (WrittenCall lib toolNames)} {style : Style}
    {c : WrittenCall lib toolNames} :
    c ∈ ofStyle style written ↔ c ∈ written ∧ c.style = style := by
  rw [ofStyle, mem_filter, decide_eq_true_iff]

theorem repeats_self : lib.repeats c.value c.value = true := by
  rw [SerdeJson.repeats, decide_eq_true rfl, Bool.true_and]
  exact lib.eq_self c.json c.input c.parsed

/-- Each call of the second variant has been added with its own name. -/
theorem trim_of_values {written : List (WrittenCall lib toolNames)}
    (h : (ofStyle .named written).map WrittenCall.value ++
      (ofStyle .bare written).map WrittenCall.trimmed = written.map WrittenCall.value) :
    ∀ c ∈ ofStyle .bare written, trim c.name = c.name := by
  have hvalues := (perm_ofStyle written).map WrittenCall.value
  rw [← h, map_append, perm_append_left_iff] at hvalues
  intro c hc
  obtain ⟨c', -, hc'⟩ := mem_map.mp (hvalues.subset (mem_map_of_mem hc))
  have hname : trim c'.name = c.name := String.ofList_injective (congrArg Prod.fst hc')
  rw [← hname, trim_trim]

/-- The calls of the second variant repeat none, if they do not among themselves. -/
theorem fresh_of_order {written : List (WrittenCall lib toolNames)}
    (horder : written.Pairwise fun a b => b.style = .named → a.style = .named) :
    (written.Pairwise fun a b => b.style = .bare → lib.repeats a.value b.value = false) ↔
      (∀ v ∈ (ofStyle .named written).map WrittenCall.value, ∀ c ∈ ofStyle .bare written,
        lib.repeats v c.value = false) ∧
      (ofStyle .bare written).Pairwise fun a b => lib.repeats a.value b.value = false := by
  have hnamed : (ofStyle .named written).Pairwise fun a b =>
      b.style = .bare → lib.repeats a.value b.value = false := by
    refine pairwise_of_forall_mem_list fun a _ b hb hstyle => ?_
    rw [(mem_ofStyle.mp hb).2] at hstyle
    cases hstyle
  have hbare : ((ofStyle .bare written).Pairwise fun a b =>
      b.style = .bare → lib.repeats a.value b.value = false) ↔
        (ofStyle .bare written).Pairwise fun a b => lib.repeats a.value b.value = false :=
    List.Pairwise.iff_of_mem fun _ hb => by simp [(mem_ofStyle.mp hb).2]
  conv_lhs => rw [← eq_append_of_order horder]
  rw [pairwise_append, hbare, forall_mem_map]
  refine ⟨fun ⟨_, hb, hcross⟩ => ⟨fun a ha b hb' => hcross a ha b hb' (mem_ofStyle.mp hb').2, hb⟩,
    fun ⟨hcross, hb⟩ => ⟨hnamed, hb, fun a ha b hb' _ => hcross a ha b hb'⟩⟩

/-- **The values of the searches are those written**, if the variants are kept apart. -/
theorem foldl_addBare_eq_iff :
    (ofStyle .bare written).foldl addBare ((ofStyle .named written).map WrittenCall.value) =
      written.map WrittenCall.value ↔ Separate written := by
  refine ⟨fun h => ?_, fun h => ?_⟩
  · have hlength := congrArg List.length h
    rw [length_map, ← (perm_ofStyle written).length_eq, length_append] at hlength
    obtain ⟨hsum, hne, hacc, hbare⟩ := foldl_addBare_of_length
      (hlength.trans (by rw [length_map]))
    rw [hsum] at h
    have htrim := trim_of_values h
    have hvalue : ∀ c ∈ ofStyle .bare written, c.trimmed = c.value := by
      intro c hc
      rw [WrittenCall.trimmed, htrim c hc, WrittenCall.value]
    have hacc' : ∀ v ∈ (ofStyle .named written).map WrittenCall.value,
        ∀ c ∈ ofStyle .bare written, lib.repeats v c.value = false := by
      intro v hv c hc
      rw [← hvalue c hc]
      exact hacc v hv c hc
    have hbare' : (ofStyle .bare written).Pairwise fun a b =>
        lib.repeats a.value b.value = false := by
      refine hbare.imp_of_mem fun ha hb hab => ?_
      rwa [hvalue _ ha, hvalue _ hb] at hab
    rw [map_congr_left hvalue] at h
    have horder : written.Pairwise fun a b => b.style = .named → a.style = .named := by
      refine order_of_values (fun a ha b hb hnamed hstyle heq => ?_) h
      have hnot := hacc' a.value (mem_map_of_mem (mem_ofStyle.mpr ⟨ha, hnamed⟩)) b
        (mem_ofStyle.mpr ⟨hb, hstyle⟩)
      rw [heq, repeats_self] at hnot
      cases hnot
    refine ⟨horder, (fresh_of_order horder).mpr ⟨hacc', hbare'⟩, fun c hc hstyle => ?_⟩
    have hmem := mem_ofStyle.mpr ⟨hc, hstyle⟩
    exact ⟨fun hnil => hne c hmem (by rw [hnil]; rfl), htrim c hmem⟩
  · obtain ⟨hacc, hbare⟩ := (fresh_of_order h.order).mp h.fresh
    have htrim : ∀ c ∈ ofStyle .bare written, c.name ≠ [] ∧ trim c.name = c.name := fun c hc =>
      h.trimmed c (mem_ofStyle.mp hc).1 (mem_ofStyle.mp hc).2
    rw [foldl_addBare_of_fresh htrim hacc hbare, ← map_append, eq_append_of_order h.order]

/-- **Text tool calls are recovered faithfully** exactly if the two variants are kept apart. -/
theorem recoverTextToolCalls_faithful_iff (lib : SerdeJson) (uuid : ℕ → String)
    (availableTools : List ToolDefinition)
    (script : Script lib (availableTools.map fun t => t.name.toList)) :
    Faithful lib uuid availableTools script ↔ Separate script.calls := by
  rw [← foldl_addBare_eq_iff, ← values_recover]
  refine ⟨Faithful.calls, fun h => ⟨h, fun text call hcall => ?_⟩⟩
  obtain ⟨tool, htool, hname⟩ := mem_map.mp
    (known_recoverTextToolCalls lib uuid text availableTools call hcall)
  rw [← String.toList_inj.mp hname]
  exact mem_map_of_mem htool

end

/-! ## Calls that are moved or lost -/

def emptyObject : SerdeJson where
  fromStr s := if s = "\x7b\x7d".toList then some (.object []) else none
  eq _ _ := true
  eq_self _ _ _ := rfl

def searchTools : List ToolDefinition :=
  [⟨"web_search", "Search", .object []⟩, ⟨"web_fetch", "Fetch", .object []⟩]

def emptyCall (style : Style) (name : List Char)
    (available : name ∈ searchTools.map fun t => t.name.toList)
    (plain : '<' ∉ name ∧ '>' ∉ name ∧ '{' ∉ name) :
    WrittenCall emptyObject (searchTools.map fun t => t.name.toList) where
  style := style
  name := name
  json := "\x7b\x7d".toList
  input := .object []
  available := available
  plain := plain
  object := ⟨[], rfl⟩
  tagFree := by decide
  parsed := rfl

def twoCalls (first second : WrittenCall emptyObject (searchTools.map fun t => t.name.toList)) :
    Script emptyObject (searchTools.map fun t => t.name.toList) where
  segments := [⟨[], by decide, first⟩, ⟨[], by decide, second⟩]
  tail := []
  tagFree := by decide

/-- The first variant is moved to the front, and a call made twice is returned once. -/
theorem second_variant_moved_and_lost :
    values (recoverTextToolCalls emptyObject toString
        ("<function>web_fetch\x7b\x7d</function>".toList ++
          "<function=web_search>\x7b\x7d</function>".toList) searchTools) =
        [("web_search", .object []), ("web_fetch", .object [])] ∧
      values (recoverTextToolCalls emptyObject toString
        ("<function>web_fetch\x7b\x7d</function>".toList ++
          "<function>web_fetch\x7b\x7d</function>".toList) searchTools) =
        [("web_fetch", .object [])] := by
  let fetch := emptyCall .bare "web_fetch".toList (by decide) (by decide)
  let search := emptyCall .named "web_search".toList (by decide) (by decide)
  exact ⟨values_recover searchTools (twoCalls fetch search),
    values_recover searchTools (twoCalls fetch fetch)⟩

end AlloyAgent.TextToolCalls
