import AlloyAgent.RustStr

/-!
# Reply directives

An agent writes directives into its answer, as tags between double brackets.

* `parseDirectives`, `stream`: a reply in one piece, and in chunks;
* `parseDirectives_correct_iff`: the replies of which just the tags are removed;
* `stream_eq_iff`: for which replies, and for which chunks of one, the two agree.
-/

namespace AlloyAgent

open List Option

namespace ReplyDirectives

open RustStr

structure DirectiveSet where
  replyTo : Option (List Char) := none
  currentThread : Bool := false
  silent : Bool := false
deriving DecidableEq, Repr

/-- Directive parsing across streaming chunks; `partialTag` is the field `partial`. -/
structure StreamingDirectiveAccumulator where
  partialTag : List Char
  directives : DirectiveSet
deriving DecidableEq, Repr

def maxPartialLen : ℕ := 30

def tagOpen : List Char := ['[', '[']

def tagClose : List Char := [']', ']']

/-- The content of the tag that begins the text, up to the first closing brackets. -/
def tagAt? (chars : List Char) : Option (List Char) :=
  (stripPrefix? tagOpen chars).bind fun afterOpen => (splitOnce? tagClose afterOpen).map Prod.fst

/-- Parse a directive tag's inner content. -/
def DirectiveSet.parseTag (d : DirectiveSet) (content : List Char) : DirectiveSet :=
  let trimmed := trim content
  match stripPrefix? "reply:".toList trimmed with
  | some id => if trim id = [] then d else { d with replyTo := some (trim id) }
  | none =>
    if trimmed = "@current".toList then { d with currentThread := true }
    else if trimmed = "silent".toList then { d with silent := true }
    else d

/-- The `while` loop of `consume`; `skip` counts what the inner loop has to pass over. -/
def scan (isFinal : Bool) : ℕ → List Char → DirectiveSet → List Char × List Char × DirectiveSet
  | _, [], d => ([], [], d)
  | skip + 1, _ :: rest, d => scan isFinal skip rest d
  | 0, ch :: rest, d =>
    match tagAt? (ch :: rest) with
    -- `tag_len` is 2 + `end` + 2, where `end` is an offset in bytes
    | some content => scan isFinal (utf8Len content + 3) rest (d.parseTag content)
    | none =>
      if tagOpen.isPrefixOf (ch :: rest) && !isFinal && utf8Len (ch :: rest) < maxPartialLen then
        ([], ch :: rest, d)
      else
        let (output, partialTag, d) := scan isFinal 0 rest d
        (ch :: output, partialTag, d)

namespace StreamingDirectiveAccumulator

def new : StreamingDirectiveAccumulator := ⟨[], {}⟩

/-- `consume`: the cleaned text, and the accumulator afterwards. -/
def consume (acc : StreamingDirectiveAccumulator) (chunk : List Char) (isFinal : Bool) :
    List Char × StreamingDirectiveAccumulator :=
  let (output, partialTag, directives) := scan isFinal 0 (acc.partialTag ++ chunk) acc.directives
  if isFinal then (output ++ partialTag, ⟨[], directives⟩) else (output, ⟨partialTag, directives⟩)

def stream (acc : StreamingDirectiveAccumulator) :
    List (List Char) → List Char × StreamingDirectiveAccumulator
  | [] => ([], acc)
  | [chunk] => acc.consume chunk true
  | chunk :: next :: chunks =>
    let (output, acc) := acc.consume chunk false
    let (outputs, acc) := stream acc (next :: chunks)
    (output ++ outputs, acc)

end StreamingDirectiveAccumulator

open StreamingDirectiveAccumulator

/-- Parse directives from a complete text string. -/
def parseDirectives (text : List Char) : List Char × DirectiveSet :=
  let (cleaned, acc) := new.consume text true
  (trim cleaned, acc.directives)

/-- Somewhere in the text, brackets are opened and later closed. -/
def HasTag (text : List Char) : Prop :=
  ∃ before content after, text = before ++ (tagOpen ++ (content ++ (tagClose ++ after)))

/-- The text without its tags, and their contents; `skip` counts what is left of a tag. -/
def splitTags : ℕ → List Char → List Char × List (List Char)
  | _, [] => ([], [])
  | skip + 1, _ :: rest => splitTags skip rest
  | 0, ch :: rest =>
    match tagAt? (ch :: rest) with
    | some content =>
      let (text, contents) := splitTags (content.length + 3) rest
      (text, content :: contents)
    | none =>
      let (text, contents) := splitTags 0 rest
      (ch :: text, contents)

def withoutTags (text : List Char) : List Char := (splitTags 0 text).1

def tagsOf (text : List Char) : List (List Char) := (splitTags 0 text).2

variable {ch : Char} {s rest content : List Char} {isFinal : Bool} {d : DirectiveSet} (n : ℕ)

theorem tagAt?_eq_some :
    tagAt? s = some content ↔
      ∃ after, s = tagOpen ++ (content ++ (tagClose ++ after)) ∧
        splitOnce? tagClose (content ++ tagClose) = some (content, []) := by
  rw [tagAt?, bind_eq_some_iff]
  refine ⟨?_, ?_⟩
  · rintro ⟨afterOpen, hopen, hclose⟩
    obtain ⟨⟨content', after⟩, hsplit, rfl⟩ := map_eq_some_iff.mp hclose
    obtain ⟨hafter, -⟩ := splitOnce?_eq_some (by decide) hsplit
    exact ⟨after, by rw [stripPrefix?_eq_some.mp hopen, hafter], splitOnce?_cut (by decide) hsplit⟩
  · rintro ⟨after, rfl, hsplit⟩
    refine ⟨_, stripPrefix?_append _ _, map_eq_some_iff.mpr ⟨(content, after), ?_, rfl⟩⟩
    rw [← append_assoc, splitOnce?_append hsplit, nil_append]

theorem tagAt?_append (h : tagAt? s = some content) (after : List Char) :
    tagAt? (tagOpen ++ (content ++ (tagClose ++ after))) = some content := by
  obtain ⟨-, -, hsplit⟩ := tagAt?_eq_some.mp h
  exact tagAt?_eq_some.mpr ⟨after, rfl, hsplit⟩

theorem tagAt?_append_right (h : tagAt? s = some content) (t : List Char) :
    tagAt? (s ++ t) = some content := by
  obtain ⟨after, rfl, -⟩ := tagAt?_eq_some.mp h
  have htag := tagAt?_append h (after ++ t)
  rwa [← append_assoc tagClose, ← append_assoc content, ← append_assoc tagOpen] at htag

theorem length_of_tagAt? (h : tagAt? s = some content) : content.length + 4 ≤ s.length := by
  obtain ⟨after, rfl, -⟩ := tagAt?_eq_some.mp h
  simp only [tagOpen, tagClose, length_cons, length_append, length_nil]
  omega

theorem tagAt?_ne_none (content after : List Char) :
    tagAt? (tagOpen ++ (content ++ (tagClose ++ after))) ≠ none := by
  rw [tagAt?, stripPrefix?_append, bind_some, ne_eq, map_eq_none_iff,
    splitOnce?_eq_none_iff (by decide), not_not]
  exact infix_append' content tagClose after

theorem not_hasTag_nil : ¬ HasTag [] := by
  rintro ⟨before, content, after, h⟩
  simp [tagOpen] at h

theorem hasTag_of_suffix (hu : u <:+ s) (h : tagAt? u ≠ none) : HasTag s := by
  obtain ⟨before, rfl⟩ := hu
  obtain ⟨content, hcontent⟩ := ne_none_iff_exists'.mp h
  obtain ⟨after, rfl, -⟩ := tagAt?_eq_some.mp hcontent
  exact ⟨before, content, after, rfl⟩

theorem hasTag_cons : HasTag (ch :: rest) ↔ tagAt? (ch :: rest) ≠ none ∨ HasTag rest := by
  refine ⟨?_, ?_⟩
  · rintro ⟨before, content, after, h⟩
    cases before with
    | nil =>
      left
      rw [h]
      exact tagAt?_ne_none content after
    | cons c before => exact .inr ⟨before, content, after, (List.cons.inj h).2⟩
  · rintro (hhere | ⟨before, content, after, rfl⟩)
    · exact hasTag_of_suffix suffix_rfl hhere
    · exact ⟨ch :: before, content, after, rfl⟩

theorem scan_skip : scan isFinal n s d = scan isFinal 0 (s.drop n) d :=
  skip_eq_drop (f := fun n s => scan isFinal n s d) (fun n => by cases n <;> rfl)
    (fun _ _ _ => rfl) n s

theorem splitTags_skip : splitTags n s = splitTags 0 (s.drop n) :=
  skip_eq_drop (fun n => by cases n <;> rfl) (fun _ _ _ => rfl) n s

theorem scan_of_tag (h : tagAt? (ch :: rest) = some content) :
    scan isFinal 0 (ch :: rest) d =
      scan isFinal 0 (rest.drop (utf8Len content + 3)) (d.parseTag content) := by
  rw [scan, h]
  exact scan_skip _

theorem splitTags_of_tag (h : tagAt? (ch :: rest) = some content) :
    splitTags 0 (ch :: rest) =
      (withoutTags (rest.drop (content.length + 3)),
        content :: tagsOf (rest.drop (content.length + 3))) := by
  rw [splitTags, h, withoutTags, tagsOf, ← splitTags_skip]

theorem scan_of_not_held (h : tagAt? (ch :: rest) = none)
    (hhold : ¬ (tagOpen.isPrefixOf (ch :: rest) && !isFinal &&
      utf8Len (ch :: rest) < maxPartialLen)) :
    scan isFinal 0 (ch :: rest) d =
      (ch :: (scan isFinal 0 rest d).1, (scan isFinal 0 rest d).2) := by
  rw [scan, h]
  exact if_neg hhold

theorem scan_final_of_none (h : tagAt? (ch :: rest) = none) :
    scan true 0 (ch :: rest) d =
      (ch :: (scan true 0 rest d).1, (scan true 0 rest d).2) :=
  scan_of_not_held h (by simp)

theorem splitTags_of_none (h : tagAt? (ch :: rest) = none) :
    splitTags 0 (ch :: rest) = (ch :: withoutTags rest, tagsOf rest) := by
  rw [splitTags, h, withoutTags, tagsOf]

theorem scan_final_partialTag (n : ℕ) : (scan true n s d).2.1 = [] := by
  induction s generalizing n d with
  | nil => cases n <;> rfl
  | cons ch rest ih =>
    cases n with
    | succ n => exact ih n
    | zero =>
      cases h : tagAt? (ch :: rest) with
      | some content =>
        rw [scan_of_tag h, ← scan_skip]
        exact ih _
      | none =>
        rw [scan_final_of_none h]
        exact ih 0

theorem consume_final (acc : StreamingDirectiveAccumulator) (text : List Char) :
    acc.consume text true =
      ((scan true 0 (acc.partialTag ++ text) acc.directives).1,
        ⟨[], (scan true 0 (acc.partialTag ++ text) acc.directives).2.2⟩) := by
  have hpart := @scan_final_partialTag (acc.partialTag ++ text) acc.directives 0
  refine Prod.ext ?_ rfl
  have hout : (acc.consume text true).1 =
      (scan true 0 (acc.partialTag ++ text) acc.directives).1 ++
        (scan true 0 (acc.partialTag ++ text) acc.directives).2.1 := rfl
  rw [hout, hpart, append_nil]

theorem new_consume_final (text : List Char) :
    new.consume text true = ((scan true 0 text {}).1, ⟨[], (scan true 0 text {}).2.2⟩) :=
  consume_final new text

/-! ## What is removed -/

/-- The id in the content of a tag, if it is one of the first kind. -/
def replyId? (content : List Char) : Option (List Char) :=
  (stripPrefix? "reply:".toList (trim content)).bind fun id =>
    if trim id = [] then none else some (trim id)

/-- What the tags with the given contents say: the last id is the one to reply to. -/
def directivesOf (contents : List (List Char)) : DirectiveSet where
  replyTo := (contents.filterMap replyId?).getLast?
  currentThread := contents.any fun c => trim c = "@current".toList
  silent := contents.any fun c => trim c = "silent".toList

/-- The answer as it should be read: the tags are removed, and nothing else. -/
def Correct (text : List Char) : Prop :=
  parseDirectives text = (trim (withoutTags text), directivesOf (tagsOf text))

theorem parseTag_eq (d : DirectiveSet) (content : List Char) :
    d.parseTag content =
      ⟨(replyId? content).or d.replyTo, d.currentThread || trim content = "@current".toList,
        d.silent || trim content = "silent".toList⟩ := by
  rw [DirectiveSet.parseTag, replyId?]
  cases hid : stripPrefix? "reply:".toList (trim content) with
  | some id =>
    have htext := stripPrefix?_eq_some.mp hid
    have hother : ∀ t : List Char, t.head? ≠ some 'r' → trim content ≠ t := by
      rintro t ht rfl
      exact ht (by rw [htext]; rfl)
    have hcurrent := hother "@current".toList (by decide)
    have hsilent := hother "silent".toList (by decide)
    simp only [decide_eq_false hcurrent, decide_eq_false hsilent, Bool.or_false, bind_some]
    split <;> rfl
  | none =>
    have hdiff : "@current".toList ≠ "silent".toList := by decide
    split_ifs with hcurrent hsilent
    · rw [hcurrent, decide_eq_true rfl, decide_eq_false hdiff, Bool.or_true, Bool.or_false]
      rfl
    · rw [decide_eq_false hcurrent, decide_eq_true hsilent, Bool.or_true, Bool.or_false]
      rfl
    · rw [decide_eq_false hcurrent, decide_eq_false hsilent, Bool.or_false, Bool.or_false]
      rfl

theorem foldl_parseTag (contents : List (List Char)) :
    contents.foldl DirectiveSet.parseTag {} = directivesOf contents := by
  induction contents using List.reverseRecOn with
  | nil => rfl
  | append_singleton contents content ih =>
    rw [foldl_append, foldl_cons, foldl_nil, ih, parseTag_eq]
    simp only [directivesOf, filterMap_append, any_append, any_cons, any_nil,
      Bool.or_false, getLast?_append]
    cases hid : replyId? content <;> simp [hid]

/-- **Tags of one-byte characters are removed without harm.** -/
theorem scan_eq_splitTags (h : ∀ c ∈ (splitTags n s).2, ∀ ch ∈ c, ch.utf8Size = 1) :
    scan true n s d = ((splitTags n s).1, [], (splitTags n s).2.foldl DirectiveSet.parseTag d) := by
  induction s generalizing n d with
  | nil => cases n <;> rfl
  | cons ch rest ih =>
    cases n with
    | succ n => exact ih n h
    | zero =>
      cases htag : tagAt? (ch :: rest) with
      | some content =>
        rw [splitTags_of_tag htag] at h ⊢
        rw [withoutTags, tagsOf, ← splitTags_skip] at h ⊢
        rw [scan_of_tag htag, utf8Len_eq_length_iff.mpr (h content mem_cons_self), ← scan_skip,
          ih _ fun c hc => h c (mem_cons_of_mem _ hc), foldl_cons]
      | none =>
        rw [splitTags_of_none htag] at h ⊢
        rw [scan_final_of_none htag, ih 0 h]
        rfl

theorem correct_of_bytes (h : ∀ c ∈ tagsOf text, ∀ ch ∈ c, ch.utf8Size = 1) : Correct text := by
  rw [Correct, parseDirectives, new_consume_final, scan_eq_splitTags 0 h, ← foldl_parseTag]
  rfl

/-- Every tag is followed by enough text to show what is removed with it. -/
def spaced (contents : List (List Char)) : List Char :=
  contents.flatMap fun c => tagOpen ++ (c ++ (tagClose ++ List.replicate (utf8Len c) 'x'))

theorem spaced_cons (content : List Char) (contents : List (List Char)) :
    spaced (content :: contents) =
      tagOpen ++ (content ++ (tagClose ++
        (List.replicate (utf8Len content) 'x' ++ spaced contents))) := by
  rw [spaced, flatMap_cons, ← spaced]
  simp only [append_assoc]

theorem tagAt?_of_ne {ch : Char} (h : ch ≠ '[') : tagAt? (ch :: rest) = none := by
  have hstrip : stripPrefix? tagOpen (ch :: rest) = none := by
    rw [← not_isSome_iff_eq_none, isSome_iff_exists]
    rintro ⟨t, ht⟩
    exact h (List.cons.inj (stripPrefix?_eq_some.mp ht)).1
  rw [tagAt?, hstrip, bind_none]

theorem scan_replicate (t : List Char) :
    (scan true 0 (List.replicate n 'x' ++ t) d).1 =
      List.replicate n 'x' ++ (scan true 0 t d).1 := by
  induction n with
  | zero => rfl
  | succ n ih =>
    rw [replicate_succ, cons_append, scan_final_of_none (tagAt?_of_ne (by decide)), ih,
      cons_append]

theorem splitTags_replicate (t : List Char) :
    splitTags 0 (List.replicate n 'x' ++ t) =
      (List.replicate n 'x' ++ withoutTags t, tagsOf t) := by
  induction n with
  | zero => rfl
  | succ n ih =>
    rw [replicate_succ, cons_append, splitTags_of_none (tagAt?_of_ne (by decide)),
      withoutTags, tagsOf, ih, cons_append]

theorem drop_tag (content after : List Char) (k : ℕ) :
    ('[' :: (content ++ (tagClose ++ after))).drop (content.length + 3 + k) = after.drop k := by
  have hlen : content.length + 3 = ('[' :: (content ++ tagClose)).length := by
    simp [tagClose]
  rw [← append_assoc, ← cons_append, hlen, drop_length_add_append]

section

variable {after : List Char}
  (h : tagAt? (tagOpen ++ (content ++ (tagClose ++ after))) = some content)

include h

theorem splitTags_tag :
    splitTags 0 (tagOpen ++ (content ++ (tagClose ++ after))) =
      (withoutTags after, content :: tagsOf after) := by
  have hdrop : ('[' :: (content ++ (tagClose ++ after))).drop (content.length + 3) = after :=
    drop_tag content after 0
  refine (splitTags_of_tag h).trans ?_
  exact congrArg (fun t => (withoutTags t, content :: tagsOf t)) hdrop

theorem scan_tag :
    scan isFinal 0 (tagOpen ++ (content ++ (tagClose ++ after))) d =
      scan isFinal 0 (after.drop (utf8Len content - content.length)) (d.parseTag content) := by
  have hlen : utf8Len content + 3 = content.length + 3 + (utf8Len content - content.length) := by
    have hle := length_le_utf8Len content
    omega
  have hdrop := drop_tag content after (utf8Len content - content.length)
  rw [← hlen] at hdrop
  refine (scan_of_tag h).trans ?_
  exact congrArg (fun t => scan isFinal 0 t (d.parseTag content)) hdrop

end

section

variable {contents : List (List Char)}
  (htags : ∀ c ∈ contents, ∀ after, tagAt? (tagOpen ++ (c ++ (tagClose ++ after))) = some c)

include htags

theorem splitTags_spaced :
    splitTags 0 (spaced contents) =
      (contents.flatMap fun c => List.replicate (utf8Len c) 'x', contents) := by
  induction contents with
  | nil => rfl
  | cons content contents ih =>
    rw [spaced_cons, splitTags_tag (htags content mem_cons_self _), withoutTags, tagsOf,
      splitTags_replicate, withoutTags, tagsOf, ih fun c hc => htags c (mem_cons_of_mem _ hc),
      flatMap_cons]

theorem scan_spaced :
    (scan true 0 (spaced contents) d).1 =
      contents.flatMap fun c => List.replicate c.length 'x' := by
  induction contents generalizing d with
  | nil => rfl
  | cons content contents ih =>
    have hle := length_le_utf8Len content
    have hdrop : (List.replicate (utf8Len content) 'x' ++ spaced contents).drop
        (utf8Len content - content.length) =
        List.replicate content.length 'x' ++ spaced contents := by
      rw [drop_append_of_le_length (by rw [length_replicate]; omega),
        drop_replicate, Nat.sub_sub_self hle]
    rw [spaced_cons, scan_tag (htags content mem_cons_self _), hdrop, scan_replicate,
      ih fun c hc => htags c (mem_cons_of_mem _ hc), flatMap_cons]

end

theorem tagAt?_of_mem_splitTags (h : content ∈ (splitTags n s).2) (after : List Char) :
    tagAt? (tagOpen ++ (content ++ (tagClose ++ after))) = some content := by
  induction s generalizing n with
  | nil =>
    cases n <;> cases h
  | cons ch rest ih =>
    cases n with
    | succ n => exact ih n h
    | zero =>
      cases htag : tagAt? (ch :: rest) with
      | some c =>
        rw [splitTags_of_tag htag, tagsOf, ← splitTags_skip] at h
        rcases mem_cons.mp h with rfl | hmem
        · exact tagAt?_append htag after
        · exact ih _ hmem
      | none =>
        rw [splitTags_of_none htag] at h
        exact ih 0 h

theorem trim_filler (size : List Char → ℕ) (contents : List (List Char)) :
    trim (contents.flatMap fun c => List.replicate (size c) 'x') =
      contents.flatMap fun c => List.replicate (size c) 'x' := by
  refine trim_eq_self fun ch hch => ?_
  obtain ⟨c, -, hmem⟩ := mem_flatMap.mp hch
  rw [eq_of_mem_replicate hmem]
  decide

theorem length_filler {size : List Char → ℕ} (hsize : ∀ a b, size (a ++ b) = size a + size b)
    (contents : List (List Char)) :
    (contents.flatMap fun c => List.replicate (size c) 'x').length = size contents.flatten := by
  induction contents with
  | nil =>
    have hnil : size ([] ++ []) = size [] + size [] := hsize [] []
    rw [append_nil] at hnil
    exact (Nat.add_eq_left.mp hnil.symm).symm
  | cons content contents ih =>
    rw [flatMap_cons, length_append, length_replicate, ih, flatten_cons, hsize]

/-- **Exactly the tags are removed**, if and only if their characters have one byte. -/
theorem parseDirectives_correct_iff (text : List Char) :
    (∀ text', tagsOf text' = tagsOf text → Correct text') ↔
      ∀ c ∈ tagsOf text, ∀ ch ∈ c, ch.utf8Size = 1 := by
  refine ⟨fun h => ?_, fun h text' htags => correct_of_bytes (htags ▸ h)⟩
  have htags : ∀ c ∈ tagsOf text, ∀ after,
      tagAt? (tagOpen ++ (c ++ (tagClose ++ after))) = some c :=
    fun c hc => tagAt?_of_mem_splitTags 0 hc
  have hsplit := splitTags_spaced htags
  have hsame : tagsOf (spaced (tagsOf text)) = tagsOf text := by rw [tagsOf, hsplit]
  have hcorrect := h _ hsame
  rw [Correct, parseDirectives, new_consume_final, withoutTags, hsplit] at hcorrect
  have hout := congrArg Prod.fst hcorrect
  dsimp only at hout
  rw [scan_spaced htags, trim_filler, trim_filler] at hout
  have hsum := congrArg List.length hout
  rw [length_filler fun _ _ => length_append, length_filler utf8Len_append] at hsum
  have hbytes := utf8Len_eq_length_iff.mp hsum.symm
  exact fun c hc ch hch => hbytes ch (mem_flatten_of_mem hc hch)

/-- A tag in which a character has three bytes takes two characters of the answer with it. -/
theorem wide_tag_eats :
    parseDirectives "[[reply:日]] Hello".toList = ("ello".toList, ⟨some "日".toList, false, false⟩) ∧
      withoutTags "[[reply:日]] Hello".toList = " Hello".toList := by
  decide

theorem length_scan_le : (scan isFinal n s d).1.length ≤ s.length := by
  induction s generalizing n d with
  | nil => cases n <;> exact Nat.zero_le _
  | cons ch rest ih =>
    cases n with
    | succ n => exact (ih n).trans (Nat.le_succ _)
    | zero =>
      rw [scan]
      split
      · exact (ih _).trans (Nat.le_succ _)
      · split
        · exact Nat.zero_le _
        · exact Nat.succ_le_succ (ih 0)

theorem length_scan_lt (h : HasTag s) : (scan true 0 s d).1.length < s.length := by
  induction s generalizing d with
  | nil => exact absurd h not_hasTag_nil
  | cons ch rest ih =>
    cases htag : tagAt? (ch :: rest) with
    | some content =>
      rw [scan_of_tag htag, ← scan_skip]
      exact Nat.lt_succ_of_le (length_scan_le _)
    | none =>
      rw [scan_final_of_none htag]
      exact Nat.succ_lt_succ (ih ((hasTag_cons.mp h).resolve_left (not_not.mpr htag)))

def report (r : List Char × StreamingDirectiveAccumulator) : List Char × DirectiveSet :=
  (r.1, r.2.directives)

theorem consume_singleton (d : DirectiveSet) (ch : Char) (isFinal : Bool) :
    consume ⟨[], d⟩ [ch] isFinal = ([ch], ⟨[], d⟩) := by
  have hopen : tagOpen.isPrefixOf [ch] = false := by simp [tagOpen, List.isPrefixOf]
  have hnone : tagAt? [ch] = none := by
    rw [tagAt?, stripPrefix?, hopen]
    rfl
  have hscan : scan isFinal 0 [ch] d = ([ch], [], d) := by
    rw [scan, hnone, hopen]
    rfl
  rw [consume, nil_append, hscan]
  cases isFinal <;> rfl

theorem stream_singletons (d : DirectiveSet) (text : List Char) :
    stream ⟨[], d⟩ (text.map fun ch => [ch]) = (text, ⟨[], d⟩) := by
  induction text with
  | nil => rfl
  | cons ch text ih =>
    cases text with
    | nil => exact consume_singleton d ch true
    | cons next text =>
      rw [map_cons] at ih
      rw [map_cons, map_cons, stream, consume_singleton]
      dsimp only
      rw [ih]
      rfl

/-! ## Where a text may be cut -/

/-- A tag that goes on behind the cut has been opened in front of it, less than 30 bytes before. -/
def HeldBack (before after : List Char) : Prop :=
  ∀ u, u <:+ before → tagAt? (u ++ after) ≠ none →
    tagAt? u ≠ none ∨ tagOpen <+: u ∧ utf8Len u < maxPartialLen

/-- The chunks are cut in such places; `front` is what has come before them. -/
def CutsWell (front : List Char) : List (List Char) → Prop
  | [] => True
  | chunk :: chunks => HeldBack (front ++ chunk) chunks.flatten ∧ CutsWell (front ++ chunk) chunks

/-- The tags of the text have only one-byte characters. -/
def OneByteTags (text : List Char) : Prop :=
  ∀ u content, u <:+ text → tagAt? u = some content → utf8Len content = content.length

theorem OneByteTags.suffix (h : OneByteTags s) (hsuffix : t <:+ s) : OneByteTags t :=
  fun u content hu => h u content (hu.trans hsuffix)

theorem suffix_append_append {s : List Char} (h : t <:+ s) (u : List Char) : t ++ u <:+ s ++ u := by
  obtain ⟨a, rfl⟩ := h
  exact ⟨a, (append_assoc ..).symm⟩

/-- **One cut**: what is held back and what comes then are read as the whole text is. -/
theorem scan_append (hn : n ≤ s.length) (hheld : HeldBack s t) (hbytes : OneByteTags (s ++ t)) :
    (scan false n s d).2.1 <:+ s ∧
      scan true n (s ++ t) d =
        ((scan false n s d).1 ++
            (scan true 0 ((scan false n s d).2.1 ++ t) (scan false n s d).2.2).1,
          (scan true 0 ((scan false n s d).2.1 ++ t) (scan false n s d).2.2).2) := by
  induction s generalizing n d with
  | nil =>
    obtain rfl := Nat.le_zero.mp hn
    exact ⟨suffix_rfl, rfl⟩
  | cons ch rest ih =>
    have hrest : HeldBack rest t := fun u hu => hheld u (hu.trans (suffix_cons ch rest))
    have ih {d : DirectiveSet} (n : ℕ) (hn : n ≤ rest.length) :=
      @ih d n hn hrest (hbytes.suffix (suffix_cons ch _))
    cases n with
    | succ n =>
      obtain ⟨hsuffix, hscan⟩ := ih n (Nat.le_of_succ_le_succ hn)
      exact ⟨hsuffix.trans (suffix_cons ch rest), hscan⟩
    | zero =>
      cases htag : tagAt? (ch :: rest) with
      | some content =>
        have hwhole : tagAt? (ch :: (rest ++ t)) = some content := tagAt?_append_right htag t
        have hle : utf8Len content + 3 ≤ rest.length := by
          rw [hbytes _ content suffix_rfl hwhole]
          exact Nat.le_of_succ_le_succ (length_of_tagAt? htag)
        rw [cons_append, scan_of_tag htag, scan_of_tag hwhole, ← scan_skip, ← scan_skip]
        obtain ⟨hsuffix, hscan⟩ := ih _ hle
        exact ⟨hsuffix.trans (suffix_cons ch rest), hscan⟩
      | none =>
        by_cases hhold : tagOpen.isPrefixOf (ch :: rest) && !false &&
            utf8Len (ch :: rest) < maxPartialLen
        · have hscan : scan false 0 (ch :: rest) d = ([], ch :: rest, d) := by
            rw [scan, htag]
            exact if_pos hhold
          rw [hscan]
          exact ⟨suffix_rfl, rfl⟩
        · have hwhole : tagAt? (ch :: (rest ++ t)) = none := by
            by_contra hsome
            rcases hheld (ch :: rest) suffix_rfl hsome with h | ⟨hopen, hshort⟩
            · exact h htag
            · rw [List.isPrefixOf_iff_prefix.mpr hopen, decide_eq_true hshort] at hhold
              exact hhold rfl
          obtain ⟨hsuffix, hih⟩ := @ih d 0 (Nat.zero_le _)
          rw [cons_append, scan_of_not_held htag hhold, scan_final_of_none hwhole, hih]
          exact ⟨hsuffix.trans (suffix_cons ch rest), rfl⟩

/-- **All cuts.** -/
theorem stream_of_cutsWell (chunks : List (List Char)) :
    ∀ (front : List Char) (acc : StreamingDirectiveAccumulator) (chunk : List Char),
      acc.partialTag <:+ front → CutsWell front (chunk :: chunks) →
      OneByteTags (acc.partialTag ++ (chunk :: chunks).flatten) →
      report (acc.stream (chunk :: chunks)) =
        report (acc.consume (chunk :: chunks).flatten true) := by
  induction chunks with
  | nil =>
    intro front acc chunk _ _ _
    rw [stream, flatten_singleton]
  | cons next chunks ih =>
    intro front acc chunk hfront hcuts hbytes
    have hpending := suffix_append_append hfront chunk
    rw [flatten_cons, ← append_assoc] at hbytes
    obtain ⟨hsuffix, hscan⟩ := scan_append (d := acc.directives) 0 (Nat.zero_le _)
      (fun u hu => hcuts.1 u (hu.trans hpending)) hbytes
    have hrest := ih (front ++ chunk) (acc.consume chunk false).2 next (hsuffix.trans hpending)
      hcuts.2 (hbytes.suffix (suffix_append_append hsuffix _))
    have hstream : report (acc.stream (chunk :: next :: chunks)) =
        ((acc.consume chunk false).1 ++
            (report ((acc.consume chunk false).2.stream (next :: chunks))).1,
          (report ((acc.consume chunk false).2.stream (next :: chunks))).2) := rfl
    rw [hstream, hrest, consume_final, consume_final, flatten_cons (L := next :: chunks),
      ← append_assoc, hscan]
    rfl

theorem cutsWell_of_not_hasTag (chunks : List (List Char)) (front : List Char)
    (h : ¬ HasTag (front ++ chunks.flatten)) : CutsWell front chunks := by
  induction chunks generalizing front with
  | nil => trivial
  | cons chunk chunks ih =>
    rw [flatten_cons, ← append_assoc] at h
    exact ⟨fun u hu htag => absurd (hasTag_of_suffix (suffix_append_append hu _) htag) h, ih _ h⟩

/-- **Streaming does not change directives**: of all cuttings, exactly if the text has no tag, and
of one cutting, if no tag with one-byte characters is cut where it is not held back. -/
theorem stream_eq_iff (text : List Char) :
    ((∀ chunks, chunks.flatten = text →
      report (new.stream chunks) = report (new.consume text true)) ↔ ¬ HasTag text) ∧
    ∀ chunks, chunks.flatten = text → CutsWell [] chunks → OneByteTags text →
      report (new.stream chunks) = report (new.consume text true) := by
  have hcuts : ∀ chunks, chunks.flatten = text → CutsWell [] chunks → OneByteTags text →
      report (new.stream chunks) = report (new.consume text true) := by
    rintro chunks rfl hcuts hbytes
    cases chunks with
    | nil => rfl
    | cons chunk chunks => exact stream_of_cutsWell chunks [] new chunk suffix_rfl hcuts hbytes
  refine ⟨⟨fun h htag => ?_, fun h chunks hchunks => ?_⟩, hcuts⟩
  · have hchunks : (text.map fun ch => [ch]).flatten = text := by
      rw [← flatMap_def, flatMap_singleton']
    have hsame := congrArg Prod.fst (h _ hchunks)
    rw [new, stream_singletons, ← new, new_consume_final] at hsame
    have hlt := @length_scan_lt text {} htag
    rw [← show text = (scan true 0 text {}).1 from hsame] at hlt
    exact Nat.lt_irrefl _ hlt
  · refine hcuts chunks hchunks (cutsWell_of_not_hasTag chunks [] ?_) fun u content hu htag => ?_
    · rwa [nil_append, hchunks]
    · exact absurd (hasTag_of_suffix hu (htag ▸ some_ne_none content)) h

/-- A tag that is cut between its opening brackets is not seen. -/
theorem cut_tag_shown :
    report (new.stream ["[".toList, "[silent]]".toList]) = ("[[silent]]".toList, {}) ∧
      report (new.consume "[[silent]]".toList true) = ([], ⟨none, false, true⟩) := by
  decide

end ReplyDirectives

end AlloyAgent
