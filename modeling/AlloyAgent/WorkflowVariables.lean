import Mathlib.Data.Finset.Lattice.Fold
import Mathlib.Order.Lattice.Nat
import AlloyAgent.Substitution
import AlloyAgent.Workflow

/-!
# The variables in a prompt template

`expand_variables` replaces the references in a template one after the other, first that to the
input and then those to the variables, in the order in which the map yields them.

* `expandVariables_simultaneous_iff`: when this is a `Substitution`.
-/

namespace AlloyAgent.Workflow

open List RustStr Substitution

def Mentions (template name : String) : Prop := (reference name).toList <:+: template.toList

instance decidableMentions (template name : String) : Decidable (Mentions template name) :=
  inferInstanceAs (Decidable ((reference name).toList <:+: template.toList))

/-- The references, and what they stand for. -/
def bindings (input : String) (vars : Table String String) : List (List Char × List Char) :=
  ((reference "input").toList, input.toList) ::
    vars.pairs.map fun var => ((reference var.1).toList, var.2.toList)

/-- All references have been replaced at the same time. -/
def Simultaneous (template input : String) (vars : Table String String) (result : String) : Prop :=
  Substituted (bindings input vars) template.toList result.toList

def expandOne (result : List Char) (var : String × String) : List Char :=
  replace result (reference var.1).toList var.2.toList

variable {template input : String} {vars : Table String String}

theorem reference_ne_nil (name : String) : (reference name).toList ≠ [] := by
  rw [reference, String.toList_append, String.toList_append]
  exact append_ne_nil_of_left_ne_nil (append_ne_nil_of_left_ne_nil (by decide) _) _

variable (order : IterOrder (String × String))

theorem toList_expandVariables (template input : String) (vars : Table String String) :
    (expandVariables order template input vars).toList =
      (order.arrange vars.pairs).foldl expandOne (expandOne template.toList ("input", input)) := by
  have hone : ∀ result var, expandOne (String.toList result) var =
      (replaceAll result (reference var.1) var.2).toList :=
    fun _ _ => String.toList_ofList.symm
  rw [expandVariables, hone, foldl_hom String.toList hone]

theorem substituted_expandOne (text : List Char) (var : String × String) :
    Substituted [((reference var.1).toList, var.2.toList)] text (expandOne text var) :=
  substituted_replace (reference_ne_nil var.1) text var.2.toList

theorem expandOne_of_not_isInfix {text : List Char} {var : String × String}
    (h : ¬ (reference var.1).toList <:+: text) : expandOne text var = text :=
  (substituted_expandOne text var).eq_of_not_isInfix fun _ hb => mem_singleton.mp hb ▸ h

theorem expandOne_reference (text : List Char) (name : String) :
    expandOne text (name, reference name) = text :=
  (substituted_expandOne text (name, reference name)).eq_of_self

theorem foldl_expandOne_eq {l : List (String × String)} {text : List Char}
    (h : ∀ var ∈ l, expandOne text var = text) : l.foldl expandOne text = text := by
  induction l with
  | nil => rfl
  | cons var l ih =>
    rw [foldl_cons, h var mem_cons_self, ih fun v hv => h v (mem_cons_of_mem _ hv)]

/-! ## Templates with one reference -/

theorem pairs_eq_nil (h : vars.keys.toFinset = ∅) : vars.pairs = [] := by
  rw [toFinset_eq_empty_iff, ← Table.map_fst_pairs, map_eq_nil_iff] at h
  exact h

variable {name : String}

theorem pairs_eq_singleton (h : vars.keys.toFinset = {name}) :
    ∃ value, vars.pairs = [(name, value)] := by
  have hcard := toFinset_card_of_nodup vars.keys_nodup
  rw [h, Finset.card_singleton, ← Table.map_fst_pairs, length_map] at hcard
  obtain ⟨⟨name', value⟩, hpairs⟩ := length_eq_one_iff.mp hcard.symm
  rw [← Table.map_fst_pairs, hpairs] at h
  obtain rfl : name' = name := by simpa using h
  exact ⟨value, hpairs⟩

theorem simultaneous_of_empty (template input : String) (h : vars.keys.toFinset = ∅) :
    Simultaneous template input vars (expandVariables order template input vars) := by
  have hpairs := pairs_eq_nil h
  have harrange : order.arrange vars.pairs = [] := by
    rw [hpairs]
    exact (order.perm []).eq_nil
  rw [Simultaneous, toList_expandVariables, harrange, bindings, hpairs]
  exact substituted_expandOne template.toList ("input", input)

theorem simultaneous_of_singleton (hinput : ¬ Mentions template "input")
    (h : vars.keys.toFinset = {name}) :
    Simultaneous template input vars (expandVariables order template input vars) := by
  obtain ⟨value, hpairs⟩ := pairs_eq_singleton h
  have harrange : order.arrange vars.pairs = [(name, value)] := by
    rw [hpairs]
    exact perm_singleton.mp (order.perm _)
  have hfirst : expandOne template.toList ("input", input) = template.toList :=
    expandOne_of_not_isInfix hinput
  rw [Simultaneous, toList_expandVariables, harrange, hfirst, bindings, hpairs]
  refine (substituted_expandOne template.toList (name, value)).weaken ?_ ?_
  · exact subset_cons_self _ _
  · rintro b (_ | ⟨_, hb⟩)
    · exact .inr hinput
    · exact .inl hb

theorem simultaneous_of_not_mentions (hinput : ¬ Mentions template "input")
    (h : ∀ name ∈ vars.keys.toFinset, ¬ Mentions template name) :
    Simultaneous template input vars (expandVariables order template input vars) := by
  have hvars : ∀ var ∈ vars.pairs, ¬ Mentions template var.1 := by
    intro var hvar
    refine h var.1 (mem_toFinset.mpr ?_)
    rw [← Table.map_fst_pairs]
    exact mem_map_of_mem hvar
  have hfirst : expandOne template.toList ("input", input) = template.toList :=
    expandOne_of_not_isInfix hinput
  rw [Simultaneous, toList_expandVariables, hfirst, foldl_expandOne_eq fun var hvar =>
    expandOne_of_not_isInfix (hvars var (order.mem_arrange.mp hvar))]
  refine .refl_of_not_isInfix ?_
  rintro b (_ | ⟨_, hb⟩)
  · exact hinput
  · obtain ⟨var, hvar, rfl⟩ := mem_map.mp hb
    exact hvars var hvar

/-! ## Templates with more -/

noncomputable def bindAll (names : Finset String) (value : String → String) :
    Table String String where
  entries := names.toList.map fun name => ⟨name, value name⟩
  nodupKeys := by
    rw [List.NodupKeys, List.keys, List.map_map]
    exact (List.map_id _).symm ▸ names.nodup_toList

theorem pairs_bindAll (names : Finset String) (value : String → String) :
    (bindAll names value).pairs = names.toList.map fun name => (name, value name) := by
  rw [Table.pairs, bindAll, map_map]
  rfl

theorem keys_bindAll (names : Finset String) (value : String → String) :
    (bindAll names value).keys.toFinset = names := by
  rw [← Table.map_fst_pairs, pairs_bindAll, map_map]
  exact (congrArg List.toFinset (map_id _)).trans names.toList_toFinset

/-- The order in which a name comes last. -/
def lastly (name : String) : IterOrder (String × String) where
  arrange l := (l.filter fun var => decide (var.1 ≠ name)) ++
    l.filter fun var => !decide (var.1 ≠ name)
  perm _ := List.filter_append_perm _ _

variable {names : Finset String} {value : String → String} {p q : String}

theorem arrange_lastly (hq : q ∈ names) (value : String → String) :
    (lastly q).arrange (bindAll names value).pairs =
      ((names.toList.filter fun name => name ≠ q).map fun name => (name, value name)) ++
        [(q, value q)] := by
  have hlast : (names.toList.filter fun name => !decide (name ≠ q)) = [q] := by
    have hfilter : (names.toList.filter fun name => !decide (name ≠ q)) =
        names.toList.filter (· == q) :=
      filter_congr fun name _ => Bool.eq_iff_iff.mpr (by simp)
    rw [hfilter, filter_beq, count_eq_one_of_mem names.nodup_toList
      (Finset.mem_toList.mpr hq)]
    rfl
  rw [lastly, pairs_bindAll]
  dsimp only
  rw [filter_map, filter_map]
  exact congrArg₂ (· ++ ·) rfl (congrArg (List.map fun name => (name, value name)) hlast)

/-- So many references that a simultaneous substitution cannot replace them all. -/
def row (template q : String) : String :=
  String.ofList (List.replicate (template.toList.length + 1) (reference q).toList).flatten

theorem toList_row (template q : String) :
    (row template q).toList =
      (List.replicate (template.toList.length + 1) (reference q).toList).flatten :=
  String.toList_ofList

/-- A text that is longer than all others. -/
def filler (names : Finset String) (template q : String) : String :=
  String.ofList (List.replicate (names.sup (fun name => (reference name).toList.length) +
    (reference "input").toList.length + (row template q).toList.length + 1) 'x')

theorem filler_ne_nil : (filler names template q).toList ≠ [] := by
  rw [filler, String.toList_ofList, replicate_succ]
  exact cons_ne_nil _ _

theorem length_reference_le_filler (h : name ∈ names ∨ name = "input") :
    (reference name).toList.length ≤ (filler names template q).toList.length := by
  rw [filler, String.toList_ofList, length_replicate]
  rcases h with hname | rfl
  · have hsup := Finset.le_sup (f := fun name => (reference name).toList.length) hname
    omega
  · omega

theorem length_row_le_filler :
    (row template q).toList.length ≤ (filler names template q).toList.length := by
  rw [filler, String.toList_ofList, length_replicate]
  omega

/-- A row of references to `q` that passes have inserted is replaced by the last one. -/
theorem not_simultaneous (hq : q ∈ names) (hp : Mentions template p)
    (hlast : value q = filler names template q)
    (hinput : input.toList.length ≤ (filler names template q).toList.length)
    (hvalues : ∀ name ∈ names,
      (value name).toList.length ≤ (filler names template q).toList.length)
    (hfirst : ((names.toList.filter fun name => name ≠ q).map fun name =>
      (name, value name)).foldl expandOne (expandOne template.toList ("input", input)) =
        expandOne template.toList (p, row template q)) :
    ¬ Simultaneous template input (bindAll names value)
      (expandVariables (lastly q) template input (bindAll names value)) := by
  rw [Simultaneous, toList_expandVariables, arrange_lastly hq, foldl_append, hfirst, hlast,
    foldl_cons, foldl_nil]
  have hrow := substituted_expandOne template.toList (p, row template q)
  rw [toList_row] at hrow
  have hfiller := substituted_expandOne (expandOne template.toList (p, row template q))
    (q, filler names template q)
  refine not_substituted_of_passes (reference_ne_nil p) (reference_ne_nil q) filler_ne_nil hp
    hrow hfiller ?_
  refine forall_mem_cons.mpr ⟨⟨reference_ne_nil _, hinput⟩, fun b hb => ?_⟩
  rw [pairs_bindAll, map_map] at hb
  obtain ⟨name, hname, rfl⟩ := mem_map.mp hb
  exact ⟨reference_ne_nil _, hvalues name (Finset.mem_toList.mp hname)⟩

theorem foldl_expandOne_eq_one {l : List String} (hl : l.Nodup) (hp : p ∈ l)
    (hother : ∀ name ∈ l, name ≠ p → value name = reference name) (text : List Char) :
    (l.map fun name => (name, value name)).foldl expandOne text = expandOne text (p, value p) := by
  induction l with
  | nil => cases hp
  | cons name l ih =>
    obtain ⟨hname, hl⟩ := nodup_cons.mp hl
    obtain ⟨hfirst, hrest⟩ := forall_mem_cons.mp hother
    rw [map_cons, foldl_cons]
    rcases mem_cons.mp hp with rfl | hp
    · refine foldl_expandOne_eq fun var hvar => ?_
      obtain ⟨name, hmem, rfl⟩ := mem_map.mp hvar
      rw [hrest name hmem fun heq => hname (heq ▸ hmem), expandOne_reference]
    · rw [hfirst fun heq => hname (heq ▸ hp), expandOne_reference, ih hl hp hrest]

theorem not_simultaneous_input (hq : q ∈ names) (hp : Mentions template "input") :
    ∃ value, ¬ Simultaneous template (row template q) (bindAll names value)
      (expandVariables (lastly q) template (row template q) (bindAll names value)) := by
  refine ⟨fun name => if name = q then filler names template q else reference name,
    not_simultaneous hq hp (if_pos rfl) length_row_le_filler (fun name hname => ?_) ?_⟩
  · split_ifs
    · exact le_rfl
    · exact length_reference_le_filler (.inl hname)
  · refine foldl_expandOne_eq fun var hvar => ?_
    obtain ⟨name, hname, rfl⟩ := mem_map.mp hvar
    have hne : name ≠ q := by simpa using (mem_filter.mp hname).2
    rw [if_neg hne, expandOne_reference]

theorem not_simultaneous_variable (hp : p ∈ names) (hq : q ∈ names) (hpq : p ≠ q)
    (hmentions : Mentions template p) :
    ∃ value, ¬ Simultaneous template (reference "input") (bindAll names value)
      (expandVariables (lastly q) template (reference "input") (bindAll names value)) := by
  refine ⟨fun name => if name = q then filler names template q else
    if name = p then row template q else reference name,
    not_simultaneous hq hmentions (if_pos rfl) (length_reference_le_filler (.inr rfl))
      (fun name hname => ?_) ?_⟩
  · split_ifs
    · exact le_rfl
    · exact length_row_le_filler
    · exact length_reference_le_filler (.inl hname)
  · have hmem : p ∈ names.toList.filter fun name => name ≠ q :=
      mem_filter.mpr ⟨Finset.mem_toList.mpr hp, by simpa using hpq⟩
    rw [expandOne_reference, foldl_expandOne_eq_one (names.nodup_toList.filter _) hmem]
    · rw [if_neg hpq, if_pos rfl]
    · intro name hname hne
      have hnq : name ≠ q := by simpa using (mem_filter.mp hname).2
      rw [if_neg hnq, if_neg hne]

/-- **Variable expansion is simultaneous substitution**, if no pass finds what was inserted. -/
theorem expandVariables_simultaneous_iff (template : String) (names : Finset String) :
    (∀ (order : IterOrder (String × String)) (input : String) (vars : Table String String),
      vars.keys.toFinset = names →
      Simultaneous template input vars (expandVariables order template input vars)) ↔
      (names = ∅ ∨ ¬ Mentions template "input") ∧
        ∀ name ∈ names, Mentions template name → names = {name} := by
  refine ⟨fun h => ⟨?_, fun p hp hmentions => ?_⟩,
    fun ⟨hinput, hnames⟩ order input vars hvars => ?_⟩
  · rw [or_iff_not_imp_left]
    intro hne hmentions
    obtain ⟨q, hq⟩ := Finset.nonempty_iff_ne_empty.mpr hne
    obtain ⟨value, hnot⟩ := not_simultaneous_input hq hmentions
    exact hnot (h _ _ _ (keys_bindAll names value))
  · by_contra hne
    obtain ⟨q, hq, hqp⟩ : ∃ q ∈ names, q ≠ p := by
      by_contra hall
      push Not at hall
      exact hne (Finset.eq_singleton_iff_unique_mem.mpr ⟨hp, hall⟩)
    obtain ⟨value, hnot⟩ := not_simultaneous_variable hp hq hqp.symm hmentions
    exact hnot (h _ _ _ (keys_bindAll names value))
  · subst hvars
    rcases hinput with hempty | hinput
    · exact simultaneous_of_empty order template input hempty
    · by_cases hmention : ∃ name ∈ vars.keys.toFinset, Mentions template name
      · obtain ⟨name, hname, hmentions⟩ := hmention
        exact simultaneous_of_singleton order hinput (hnames name hname hmentions)
      · push Not at hmention
        exact simultaneous_of_not_mentions order hinput hmention

/-- A reference in the input is expanded, and the order of the map can matter. It is not enough that
no value contains a reference: braces of the template can make a value into one. -/
theorem input_expanded :
    expandVariables (.stored _) "\x7b\x7binput\x7d\x7d" "\x7b\x7bsecret\x7d\x7d"
        (AList.singleton "secret" "s3cret") = "s3cret" ∧
      expandVariables (lastly "b") "\x7b\x7ba\x7d\x7d" ""
        (Table.ofPairs [("a", "\x7b\x7bb\x7d\x7d"), ("b", "x")]) = "x" ∧
      expandVariables (lastly "a") "\x7b\x7ba\x7d\x7d" ""
        (Table.ofPairs [("a", "\x7b\x7bb\x7d\x7d"), ("b", "x")]) = "\x7b\x7bb\x7d\x7d" ∧
      expandVariables (lastly "b") "\x7b\x7b\x7b\x7ba\x7d\x7d\x7d\x7d" ""
        (Table.ofPairs [("a", "b"), ("b", "x")]) = "x" := by
  decide

end AlloyAgent.Workflow
