import AlloyAgent.LlmStream

/-!
# Schemas of tools for other providers

`normalize_schema_for_provider` of `openfang-types/src/tool.rs` replaces an `anyOf` by the types of
its variants, if each of them has one.

`emitted` is what a field contributes to the result, and `normalizeFields_eq` says that the loop
collects just that. `Accepts` is the meaning of a schema, and `TypesOnly` says of which `anyOf` the
types are all there is to it. The main result is `normalize_keeps`.
-/

namespace AlloyAgent.ToolSchema

open List

/-- `Map::insert`. -/
def insert (fields : List (String × Json)) (key : String) (value : Json) : List (String × Json) :=
  if key ∈ fields.map Prod.fst then
    fields.map fun field => if field.1 = key then (key, value) else field
  else fields ++ [(key, value)]

/-- Try to flatten an `anyOf` array into a simple type. -/
def tryFlattenAnyOf (anyOf : Json) : Option (List (String × Json)) := do
  let types ← (← anyOf.asArray?).mapM fun item => item.get? "type" >>= Json.asStr?
  match types.filter (· ≠ "null") with
  | [type] =>
    if "null" ∈ types then some [("type", .string type), ("nullable", .bool true)] else none
  | nonNull =>
    if nonNull.length = types.length ∧ 1 < nonNull.length then
      some [("type", .array (nonNull.map .string))]
    else none

mutual

def normalizeSchemaRecursive : Json → Json
  | .object fields => .object (normalizeFields [] fields)
  | schema => schema

def normalizeFields (result : List (String × Json)) :
    List (String × Json) → List (String × Json)
  | [] => result
  | (key, value) :: fields =>
    if key = "$schema" then normalizeFields result fields
    else match if key = "anyOf" then tryFlattenAnyOf value else none with
      | some converted =>
        normalizeFields (converted.foldl (fun result f => insert result f.1 f.2) result) fields
      | none =>
        let value := if key = "properties" then normalizeProperties value
          else if key = "items" then normalizeSchemaRecursive value else value
        normalizeFields (insert result key value) fields

def normalizeProperties : Json → Json
  | .object props => .object (normalizeEach props)
  | value => value

def normalizeEach : List (String × Json) → List (String × Json)
  | [] => []
  | (name, schema) :: props => (name, normalizeSchemaRecursive schema) :: normalizeEach props

end

/-- Normalize a JSON Schema for cross-provider compatibility. -/
def normalizeSchemaForProvider (schema : Json) (provider : String) : Json :=
  if provider = "anthropic" then schema else normalizeSchemaRecursive schema

/-! ## What becomes of the fields -/

/-- A field that is kept. -/
def normalizedField (f : String × Json) : String × Json :=
  (f.1, if f.1 = "properties" then normalizeProperties f.2
    else if f.1 = "items" then normalizeSchemaRecursive f.2 else f.2)

/-- What a field contributes to the result. -/
def emitted (f : String × Json) : List (String × Json) :=
  if f.1 = "$schema" then []
  else match if f.1 = "anyOf" then tryFlattenAnyOf f.2 else none with
    | some converted => converted
    | none => [normalizedField f]

theorem emitted_cases (f : String × Json) :
    f.1 = "$schema" ∧ emitted f = [] ∨
    f.1 = "anyOf" ∧ tryFlattenAnyOf f.2 = some (emitted f) ∨
    f.1 ≠ "$schema" ∧ (f.1 = "anyOf" → tryFlattenAnyOf f.2 = none) ∧
      emitted f = [normalizedField f] := by
  rw [emitted]
  by_cases hschema : f.1 = "$schema"
  · exact .inl ⟨hschema, if_pos hschema⟩
  · rw [if_neg hschema]
    by_cases hanyOf : f.1 = "anyOf"
    · rw [if_pos hanyOf]
      cases tryFlattenAnyOf f.2 with
      | some converted => exact .inr (.inl ⟨hanyOf, rfl⟩)
      | none => exact .inr (.inr ⟨hschema, fun _ => rfl, rfl⟩)
    · rw [if_neg hanyOf]
      exact .inr (.inr ⟨hschema, fun h => absurd h hanyOf, rfl⟩)

/-- **The loop collects what the fields contribute.** -/
theorem normalizeFields_eq (fields result : List (String × Json)) :
    normalizeFields result fields =
      (fields.flatMap emitted).foldl (fun result f => insert result f.1 f.2) result := by
  induction fields generalizing result with
  | nil => rw [normalizeFields, flatMap_nil, foldl_nil]
  | cons f fields ih =>
    obtain ⟨key, value⟩ := f
    rw [normalizeFields, flatMap_cons, foldl_append, emitted]
    by_cases hkey : key = "$schema"
    · rw [if_pos hkey, if_pos hkey]
      exact ih result
    · rw [if_neg hkey, if_neg hkey]
      dsimp only
      generalize (if key = "anyOf" then tryFlattenAnyOf value else none) = converted?
      cases converted? <;> exact ih _

theorem normalizeEach_eq (props : List (String × Json)) :
    normalizeEach props = props.map fun p => (p.1, normalizeSchemaRecursive p.2) := by
  induction props with
  | nil => rw [normalizeEach, map_nil]
  | cons p props ih => rw [normalizeEach, ih, map_cons]

theorem foldl_insert (l result : List (String × Json)) (h : ((result ++ l).map Prod.fst).Nodup) :
    l.foldl (fun result f => insert result f.1 f.2) result = result ++ l := by
  induction l generalizing result with
  | nil => rw [foldl_nil, append_nil]
  | cons f l ih =>
    have hnew : f.1 ∉ result.map Prod.fst := by
      rw [map_append, nodup_append'] at h
      exact fun hmem => h.2.2 hmem mem_cons_self
    rw [foldl_cons, insert, if_neg hnew, ih, append_assoc, singleton_append]
    rwa [append_assoc, singleton_append]

/-! ## The meaning of a schema -/

def typeNames : Json → List String
  | .null => ["null"]
  | .bool _ => ["boolean"]
  | .number (.int _) => ["integer", "number"]
  | .number (.float _) => ["number"]
  | .string _ => ["string"]
  | .array _ => ["array"]
  | .object _ => ["object"]

mutual

/-- What a schema accepts: `null` if it is nullable, and whatever meets all its fields. -/
inductive Accepts : Json → Json → Prop
  | null (h : ("nullable", .bool true) ∈ fields) : Accepts (.object fields) .null
  | value (h : ∀ f ∈ fields, Meets f v) : Accepts (.object fields) v

/-- What a field says; `chosen` is a variant of an `anyOf`. -/
inductive Meets : String × Json → Json → Prop
  | intro
    (type : ∀ t, f = ("type", .string t) → t ∈ typeNames v)
    (types : ∀ ts, f = ("type", .array ts) → ∃ t ∈ typeNames v, .string t ∈ ts)
    (enum : ∀ vs, f = ("enum", .array vs) → v ∈ vs)
    (required : ∀ names fields name, f = ("required", .array names) → v = .object fields →
      .string name ∈ names → fields.lookup name ≠ none)
    (properties : ∀ props fields name s w, f = ("properties", .object props) →
      v = .object fields → (name, s) ∈ props → fields.lookup name = some w → Accepts s w)
    (items : ∀ s vs w, f = ("items", s) → v = .array vs → w ∈ vs → Accepts s w)
    (chosen : Json)
    (variant : ∀ ss, f = ("anyOf", .array ss) → chosen ∈ ss)
    (anyOf : ∀ ss, f = ("anyOf", .array ss) → Accepts chosen v) :
    Meets f v

end

/-- A variant of an `anyOf` that is nothing but a type. -/
def typed (type : String) : Json := .object [("type", .string type)]

/-- An `anyOf` that types can stand for: there is no other type beside it, and where it allows
`null`, so do the values that the schema lists. -/
structure TypesOnly (fields : List (String × Json)) (types : List String) : Prop where
  alone : "type" ∉ fields.map Prod.fst
  listed : "null" ∈ types → ∀ vs, ("enum", .array vs) ∈ fields → .null ∈ vs

/-- An object whose `anyOf`, if it is flattened, has only types. -/
structure PlainFields (fields : List (String × Json)) : Prop where
  nodup : (fields.map Prod.fst).Nodup
  nullable : "nullable" ∉ fields.map Prod.fst
  anyOf : ∀ value converted, ("anyOf", value) ∈ fields → tryFlattenAnyOf value = some converted →
    ∃ types, value = .array (types.map typed) ∧ TypesOnly fields types

/-- A schema in which all objects are like this that the recursion comes to. -/
inductive Plain : Json → Prop
  | object (fields : List (String × Json)) (plain : PlainFields fields)
    (properties : ∀ props name s, ("properties", .object props) ∈ fields →
      (name, s) ∈ props → Plain s)
    (items : ∀ s, ("items", s) ∈ fields → Plain s) :
    Plain (.object fields)

section

variable {v : Json}

theorem meets_other (h : key ∉ ["type", "enum", "required", "properties", "items", "anyOf"])
    (value : Json) : Meets (key, value) v := by
  refine .intro ?_ ?_ ?_ ?_ ?_ ?_ .null ?_ ?_ <;> simp_all

theorem meets_type_iff : Meets ("type", .string t) v ↔ t ∈ typeNames v := by
  refine ⟨fun h => ?_, fun h => ?_⟩
  · cases h with
    | intro type => exact type t rfl
  · refine .intro ?_ ?_ ?_ ?_ ?_ ?_ .null ?_ ?_ <;> simp_all

theorem meets_types_iff {types : List String} :
    Meets ("type", .array (types.map .string)) v ↔ ∃ t ∈ types, t ∈ typeNames v := by
  refine ⟨fun h => ?_, fun h => ?_⟩
  · cases h with
    | intro _ hv =>
      obtain ⟨t, ht, hmem⟩ := hv _ rfl
      exact ⟨t, by simpa using hmem, ht⟩
  · obtain ⟨t, hmem, ht⟩ := h
    refine .intro ?_ ?_ ?_ ?_ ?_ ?_ .null ?_ ?_ <;> simp
    exact ⟨t, ht, hmem⟩

theorem meets_anyOf_iff {ss : List Json} :
    Meets ("anyOf", .array ss) v ↔ ∃ s ∈ ss, Accepts s v := by
  refine ⟨fun h => ?_, fun h => ?_⟩
  · cases h with
    | intro _ _ _ _ _ _ chosen variant anyOf => exact ⟨chosen, variant _ rfl, anyOf _ rfl⟩
  · obtain ⟨s, hs, h⟩ := h
    refine .intro ?_ ?_ ?_ ?_ ?_ ?_ s ?_ ?_ <;> simp_all

theorem meets_properties_iff : Meets ("properties", .object props) v ↔
    ∀ fields name s w, v = .object fields → (name, s) ∈ props → fields.lookup name = some w →
      Accepts s w := by
  refine ⟨fun h => ?_, fun h => ?_⟩
  · cases h with
    | intro _ _ _ _ properties => exact fun fields name s w => properties props fields name s w rfl
  · refine .intro ?_ ?_ ?_ ?_ (fun _ fields name s w hf => ?_) ?_ .null ?_ ?_
    case refine_5 => cases hf; exact h fields name s w
    all_goals simp

theorem meets_items_iff :
    Meets ("items", s) v ↔ ∀ vs w, v = .array vs → w ∈ vs → Accepts s w := by
  refine ⟨fun h => ?_, fun h => ?_⟩
  · cases h with
    | intro _ _ _ _ _ items => exact fun vs w => items s vs w rfl
  · refine .intro ?_ ?_ ?_ ?_ ?_ (fun _ vs w hf => ?_) .null ?_ ?_
    case refine_6 => cases hf; exact h vs w
    all_goals simp

theorem accepts_typed_iff : Accepts (typed t) v ↔ t ∈ typeNames v := by
  refine ⟨fun h => ?_, fun h => ?_⟩
  · cases h with
    | null h => simp at h
    | value h => exact meets_type_iff.mp (h _ (by simp))
  · exact .value (by simpa using meets_type_iff.mpr h)

end

/-- What an `anyOf` of types is replaced by. -/
theorem tryFlattenAnyOf_typed {types : List String}
    (h : tryFlattenAnyOf (.array (types.map typed)) = some converted) :
    (∃ t, converted = [("type", .string t), ("nullable", .bool true)] ∧
      ∀ t', t' ∈ types ↔ t' = t ∨ t' = "null") ∨
    converted = [("type", .array (types.map .string))] ∧ "null" ∉ types := by
  have htypes : (types.map typed).mapM (fun item => item.get? "type" >>= Json.asStr?) =
      some types := by
    clear h
    induction types with
    | nil => rfl
    | cons t types ih =>
      rw [map_cons, mapM_cons, ih]
      rfl
  simp only [tryFlattenAnyOf, Json.asArray?, Option.bind_eq_bind, Option.bind_some] at h htypes
  rw [htypes] at h
  have hmem (t : String) : t ∈ types.filter (· ≠ "null") ↔ t ∈ types ∧ t ≠ "null" := by simp
  rw [Option.bind_some] at h
  split at h
  · rename_i t hfilter
    split_ifs at h with hnull
    cases h
    refine .inl ⟨t, rfl, fun t' => ?_⟩
    have ht' := hmem t'
    rw [hfilter, mem_singleton] at ht'
    by_cases ht : t' = "null"
    · simp [ht, hnull]
    · simp [ht', ht]
  · split_ifs at h with hlength
    cases h
    have hall := length_filter_eq_length_iff.mp hlength.1
    rw [filter_eq_self.mpr hall]
    exact .inr ⟨rfl, fun hnull => by simpa using hall _ hnull⟩

theorem meets_normalized_iff {v : Json} {f : String × Json}
    (hprops : ∀ props name s, f = ("properties", .object props) → (name, s) ∈ props →
      ∀ w, Accepts (normalizeSchemaRecursive s) w ↔ Accepts s w)
    (hitems : ∀ s, f = ("items", s) → ∀ w, Accepts (normalizeSchemaRecursive s) w ↔ Accepts s w) :
    Meets (normalizedField f) v ↔ Meets f v := by
  obtain ⟨key, value⟩ := f
  dsimp only [normalizedField]
  split_ifs with hkey hkey'
  · subst hkey
    cases value with
    | object props =>
      rw [normalizeProperties, normalizeEach_eq, meets_properties_iff, meets_properties_iff]
      refine forall_congr' fun fields => forall_congr' fun name => ?_
      simp only [mem_map, Prod.mk.injEq]
      refine ⟨fun h s w hv hs hw => ?_, ?_⟩
      · exact (hprops props name s rfl hs w).mp (h _ w hv ⟨(name, s), hs, rfl, rfl⟩ hw)
      · rintro h _ w hv ⟨⟨_, s⟩, hs, rfl, rfl⟩ hw
        exact (hprops props _ s rfl hs w).mpr (h s w hv hs hw)
    | null | bool | number | string | array => rfl
  · subst hkey'
    rw [meets_items_iff, meets_items_iff]
    simp only [hitems value rfl]
  · rfl

theorem key_of_tryFlattenAnyOf (h : tryFlattenAnyOf value = some converted) :
    ∀ f ∈ converted, f.1 = "type" ∨ f.1 = "nullable" := by
  simp only [tryFlattenAnyOf, Option.bind_eq_bind, Option.bind_eq_some_iff] at h
  obtain ⟨items, -, types, -, h⟩ := h
  split at h
  · split_ifs at h
    cases h
    simp
  · split_ifs at h
    cases h
    simp

section

variable {fields : List (String × Json)} (h : PlainFields fields)
include h

theorem PlainFields.mem_keys (hf : f ∈ fields) (hk : k ∈ (emitted f).map Prod.fst) :
    k = f.1 ∨ f.1 = "anyOf" ∧ k ∉ fields.map Prod.fst := by
  obtain ⟨g, hg, rfl⟩ := mem_map.mp hk
  rcases emitted_cases f with ⟨-, heq⟩ | ⟨hanyOf, hflat⟩ | ⟨-, -, heq⟩
  · rw [heq] at hg
    cases hg
  · obtain ⟨types, -, htypes⟩ := h.anyOf f.2 _ (hanyOf ▸ hf) hflat
    refine .inr ⟨hanyOf, ?_⟩
    rcases key_of_tryFlattenAnyOf hflat g hg with hkey | hkey
    · exact hkey ▸ htypes.alone
    · exact hkey ▸ h.nullable
  · rw [heq, mem_singleton] at hg
    exact .inl (hg ▸ rfl)

theorem PlainFields.nodup_emitted : ((fields.flatMap emitted).map Prod.fst).Nodup := by
  rw [map_flatMap, nodup_flatMap]
  refine ⟨fun f hf => ?_, ?_⟩
  · rcases emitted_cases f with ⟨-, heq⟩ | ⟨hanyOf, hflat⟩ | ⟨-, -, heq⟩
    · simp [heq]
    · obtain ⟨types, htypes, -⟩ := h.anyOf f.2 _ (hanyOf ▸ hf) hflat
      rw [htypes] at hflat
      rcases tryFlattenAnyOf_typed hflat with ⟨t, heq, -⟩ | ⟨heq, -⟩ <;> simp [heq]
    · simp [heq]
  · have hne : fields.Pairwise fun f g => f.1 ≠ g.1 := pairwise_map.mp h.nodup
    refine hne.imp_of_mem fun {f g} hf hg hfg k hkf hkg => ?_
    rcases h.mem_keys hf hkf with rfl | ⟨hf', hkf⟩
    · rcases h.mem_keys hg hkg with heq | ⟨-, hk⟩
      · exact hfg heq
      · exact hk (mem_map_of_mem hf)
    · rcases h.mem_keys hg hkg with rfl | ⟨hg', -⟩
      · exact hkf (mem_map_of_mem hg)
      · exact hfg (hf'.trans hg'.symm)

theorem PlainFields.normalize_eq :
    normalizeSchemaRecursive (.object fields) = .object (fields.flatMap emitted) := by
  rw [normalizeSchemaRecursive, normalizeFields_eq, foldl_insert _ _ h.nodup_emitted, nil_append]

/-- Where a schema becomes nullable, `null` was a type of the `anyOf`. -/
theorem PlainFields.accepts_null (hnull : ("nullable", .bool true) ∈ fields.flatMap emitted) :
    Accepts (.object fields) .null := by
  obtain ⟨⟨key, value⟩, hf, hmem⟩ := mem_flatMap.mp hnull
  rcases h.mem_keys hf (mem_map_of_mem hmem) with rfl | ⟨hanyOf, -⟩
  · exact absurd (mem_map_of_mem hf) h.nullable
  obtain rfl : key = "anyOf" := hanyOf
  rcases emitted_cases ("anyOf", value) with ⟨hkey, -⟩ | ⟨-, hflat⟩ | ⟨-, -, heq⟩
  · simp at hkey
  · obtain ⟨types, rfl, htypes⟩ := h.anyOf value _ hf hflat
    rcases tryFlattenAnyOf_typed hflat with ⟨t, -, ht⟩ | ⟨heq, -⟩
    · have hnull : "null" ∈ types := (ht "null").mpr (.inr rfl)
      refine .value fun g hg => ?_
      refine .intro ?_ ?_ ?_ ?_ ?_ ?_ (typed "null") ?_ fun _ _ => accepts_typed_iff.mpr (by decide)
      · rintro t rfl
        exact absurd (mem_map_of_mem hg) htypes.alone
      · rintro ts rfl
        exact absurd (mem_map_of_mem hg) htypes.alone
      · rintro vs rfl
        exact htypes.listed hnull vs hg
      · rintro _ _ _ _ ⟨⟩
      · rintro _ _ _ _ _ _ ⟨⟩
      · rintro _ _ _ _ ⟨⟩
      · rintro ss rfl
        have hsame := inj_on_of_nodup_map h.nodup hf hg rfl
        cases hsame
        exact mem_map_of_mem hnull
    · simp [heq] at hmem
  · simp [heq, normalizedField] at hmem

/-- **What a field says is what it contributes says**, but for `null` in a nullable schema. -/
theorem PlainFields.meets_iff {v : Json} (hf : f ∈ fields)
    (hv : v = .null → ("nullable", .bool true) ∉ emitted f)
    (hprops : ∀ props name s, f = ("properties", .object props) → (name, s) ∈ props →
      ∀ w, Accepts (normalizeSchemaRecursive s) w ↔ Accepts s w)
    (hitems : ∀ s, f = ("items", s) → ∀ w, Accepts (normalizeSchemaRecursive s) w ↔ Accepts s w) :
    (∀ g ∈ emitted f, Meets g v) ↔ Meets f v := by
  rcases emitted_cases f with ⟨hkey, heq⟩ | ⟨hanyOf, hflat⟩ | ⟨-, -, heq⟩
  · have hfield : Meets (f.1, f.2) v := meets_other (by simp [hkey]) f.2
    simpa [heq] using hfield
  · obtain ⟨key, value⟩ := f
    obtain rfl : key = "anyOf" := hanyOf
    obtain ⟨types, rfl, htypes⟩ := h.anyOf value _ hf hflat
    have hfield : Meets ("anyOf", .array (types.map typed)) v ↔ ∃ t ∈ types, t ∈ typeNames v := by
      simp [meets_anyOf_iff, accepts_typed_iff]
    rw [hfield]
    rcases tryFlattenAnyOf_typed hflat with ⟨t, heq, ht⟩ | ⟨heq, -⟩
    · have hnot : "null" ∉ typeNames v := by
        rw [heq] at hv
        cases v with
        | null => simp at hv
        | number n => cases n <;> simp [typeNames]
        | bool | string | array | object => simp [typeNames]
      have hnullable : Meets ("nullable", .bool true) v := meets_other (by simp) _
      simp [heq, meets_type_iff, hnullable, ht, or_and_right, exists_or, hnot]
    · rw [heq, forall_mem_singleton, meets_types_iff]
  · rw [heq, forall_mem_singleton, meets_normalized_iff hprops hitems]

end

/-- **The meaning of a plain schema is kept.** -/
theorem accepts_normalize_iff (h : Plain s) (v : Json) :
    Accepts (normalizeSchemaRecursive s) v ↔ Accepts s v := by
  induction h generalizing v with
  | object fields plain _ _ hprops hitems =>
    rw [plain.normalize_eq]
    by_cases hnull : v = .null ∧ ("nullable", .bool true) ∈ fields.flatMap emitted
    · obtain ⟨rfl, hmem⟩ := hnull
      exact iff_of_true (.null hmem) (plain.accepts_null hmem)
    · have hmeets : ∀ f ∈ fields, (∀ g ∈ emitted f, Meets g v) ↔ Meets f v := fun f hf => by
        refine plain.meets_iff hf (fun hv hmem => hnull ⟨hv, mem_flatMap.mpr ⟨f, hf, hmem⟩⟩) ?_ ?_
        · rintro props name s rfl hs
          exact hprops props name s hf hs
        · rintro s rfl
          exact hitems s hf
      refine ⟨fun h => ?_, fun h => ?_⟩
      · cases h with
        | null h => exact absurd ⟨rfl, h⟩ hnull
        | value h =>
          exact .value fun f hf => (hmeets f hf).mp fun g hg => h g (mem_flatMap.mpr ⟨f, hf, hg⟩)
      · cases h with
        | null h => exact absurd (mem_map_of_mem h) plain.nullable
        | value h =>
          refine .value fun g hg => ?_
          obtain ⟨f, hf, hg⟩ := mem_flatMap.mp hg
          exact (hmeets f hf).mpr (h f hf) g hg

/-! ## Normalising twice -/

/-- A field that is normalised is left as it is, if the schemas in it are. -/
theorem emitted_emitted {f : String × Json}
    (hprops : ∀ props, f = ("properties", .object props) → ∀ p ∈ props,
      normalizeSchemaRecursive (normalizeSchemaRecursive p.2) = normalizeSchemaRecursive p.2)
    (hitems : f.1 = "items" →
      normalizeSchemaRecursive (normalizeSchemaRecursive f.2) = normalizeSchemaRecursive f.2) :
    ∀ g ∈ emitted f, emitted g = [g] := by
  intro g hg
  rcases emitted_cases f with ⟨-, heq⟩ | ⟨-, hflat⟩ | ⟨hschema, hanyOf, heq⟩
  · rw [heq] at hg
    cases hg
  · obtain ⟨key, value⟩ := g
    rcases key_of_tryFlattenAnyOf hflat _ hg with rfl | rfl <;> simp [emitted, normalizedField]
  · rw [heq, mem_singleton] at hg
    subst hg
    have hsame : normalizedField (normalizedField f) = normalizedField f := by
      obtain ⟨key, value⟩ := f
      simp only [normalizedField, Prod.mk.injEq, true_and]
      split_ifs with hp hi
      · cases value with
        | object props =>
          simp only [normalizeProperties, normalizeEach_eq, map_map]
          refine congrArg Json.object (map_congr_left fun p hmem => ?_)
          exact Prod.ext rfl (hprops props (hp ▸ rfl) p hmem)
        | null | bool | number | string | array => rfl
      · exact hitems hi
      · rfl
    rcases emitted_cases (normalizedField f) with ⟨hkey, -⟩ | ⟨hkey, hflat⟩ | ⟨-, -, heq'⟩
    · exact absurd hkey hschema
    · have hkey' : f.1 = "anyOf" := hkey
      simp [normalizedField, hkey', hanyOf hkey'] at hflat
    · rw [heq', hsame]

theorem normalize_normalize (h : Plain s) :
    normalizeSchemaRecursive (normalizeSchemaRecursive s) = normalizeSchemaRecursive s := by
  induction h with
  | object fields plain _ _ hprops hitems =>
    have hself : (fields.flatMap emitted).flatMap emitted = fields.flatMap emitted := by
      refine (flatMap_congr fun g hg => ?_).trans (flatMap_singleton' _)
      obtain ⟨f, hf, hg⟩ := mem_flatMap.mp hg
      refine emitted_emitted ?_ (fun hkey => hitems f.2 (hkey ▸ hf)) g hg
      rintro props rfl p hp
      exact hprops props p.1 p.2 hf hp
    rw [plain.normalize_eq, normalizeSchemaRecursive, normalizeFields_eq, hself,
      foldl_insert _ _ plain.nodup_emitted, nil_append]

/-- A string that is also to be a string or null. -/
def stringOrNull : Json :=
  .object [("anyOf", .array [typed "string", typed "null"]), ("type", .string "string")]

theorem null_accepted :
    ¬ Accepts stringOrNull .null ∧
      Accepts (normalizeSchemaForProvider stringOrNull "gemini") .null := by
  refine ⟨fun h => ?_, .null ?_⟩
  · cases h with
    | null h => simp at h
    | value h =>
      have hstring := meets_type_iff.mp (h ("type", .string "string") (by simp))
      simp [typeNames] at hstring
  · exact mem_of_getElem? (i := 1) rfl

/-- **When schemas keep their meaning**: whatever is flattened has only types. -/
theorem normalize_keeps (h : Plain s) (provider : String) :
    (∀ v, Accepts (normalizeSchemaForProvider s provider) v ↔ Accepts s v) ∧
      normalizeSchemaForProvider (normalizeSchemaForProvider s provider) provider =
        normalizeSchemaForProvider s provider := by
  simp only [normalizeSchemaForProvider]
  split_ifs
  · exact ⟨fun _ => Iff.rfl, rfl⟩
  · exact ⟨accepts_normalize_iff h, normalize_normalize h⟩

/-- The parameters of a tool with a number that may be left out. -/
def parameters : Json :=
  .object [("properties", .object [("limit",
    .object [("anyOf", .array (["integer", "null"].map typed))])]), ("type", .string "object")]

theorem optional_limit_kept :
    (∀ v, Accepts (normalizeSchemaForProvider parameters "gemini") v ↔ Accepts parameters v) ∧
      normalizeSchemaForProvider (normalizeSchemaForProvider parameters "gemini") "gemini" =
        normalizeSchemaForProvider parameters "gemini" := by
  have hlimit : Plain (.object [("anyOf", .array (["integer", "null"].map typed))]) := by
    refine .object _ ⟨by decide, by decide, fun value _ hmem _ => ?_⟩ (by simp) (by simp)
    exact ⟨["integer", "null"], by simpa using hmem, by decide, by simp⟩
  refine normalize_keeps (.object _ ⟨by decide, by decide, by simp⟩ ?_ (by simp)) "gemini"
  rintro props name s hprops hs
  obtain rfl : props = _ := by simpa using hprops
  obtain ⟨-, rfl⟩ : _ ∧ s = _ := by simpa using hs
  exact hlimit

end AlloyAgent.ToolSchema
