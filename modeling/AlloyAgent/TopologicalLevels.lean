import AlloyAgent.Layering

/-!
# `topological_levels`

The sort that `execute_dag` runs first: in-degrees are counted over all items, the ids of degree
zero are the first level, and each level releases the ids that wait for it.

* `topologicalLevels_ok_iff`: the items that can be sorted;
* `topologicalLevels_exact`: their levels are those of `Layering`.
-/

namespace AlloyAgent

open List Layering Table

/-- A unit of work in a workflow DAG. -/
structure WorkItem where
  id : String
  /-- IDs of items that must complete before this one can start. -/
  dependencies : List String
  deriving DecidableEq

namespace ParallelExecutor

inductive Fault where
  /-- `in_degree.get_mut(dep_id).unwrap()` on an absent id -/
  | missingDegree
  /-- `*deg -= 1` at zero -/
  | degreeUnderflow
  /-- the loop of the model was cut off -/
  | outOfFuel
  deriving DecidableEq

/-- The three tables that the first loop fills. -/
structure Tables where
  inDegree : Table String ℕ
  /-- for each name, the ids that list it as a dependency -/
  dependents : Table String (List String)
  allIds : Finset String

/-- The loop body for one dependency of the item `id`. -/
def addDependency (id : String) (t : Tables) (dep : String) : Tables :=
  { t with
    dependents := t.dependents.push dep id
    inDegree := t.inDegree.insert id ((t.inDegree.lookup id).getD 0 + 1) }

def addItem (t : Tables) (item : WorkItem) : Tables :=
  item.dependencies.foldl (addDependency item.id)
    { t with allIds := insert item.id t.allIds, inDegree := t.inDegree.orInsert item.id 0 }

def buildTables (items : List WorkItem) : Tables := items.foldl addItem ⟨∅, ∅, ∅⟩

def release (st : Table String ℕ × List String) (depId : String) :
    Except Fault (Table String ℕ × List String) :=
  match st.1.lookup depId with
  | none => .error .missingDegree
  | some 0 => .error .degreeUnderflow
  | some (deg + 1) =>
    .ok (st.1.insert depId deg, if deg = 0 then st.2 ++ [depId] else st.2)

def releaseDependents (dependents : Table String (List String))
    (st : Table String ℕ × List String) (id : String) :
    Except Fault (Table String ℕ × List String) :=
  match dependents.lookup id with
  | some deps => deps.foldlM release st
  | none => .ok st

structure Sweep where
  /-- dependency entries not yet in a level -/
  inDegree : Table String ℕ
  queue : List String
  levels : List (List String)
  processed : ℕ

def sweepLevel (dependents : Table String (List String)) (s : Sweep) : Except Fault Sweep :=
  (s.queue.foldlM (releaseDependents dependents) (s.inDegree, [])).map fun st =>
    { inDegree := st.1
      queue := st.2
      levels := s.levels ++ [s.queue]
      processed := s.processed + s.queue.length }

/-- The `while` loop, cut off after `fuel` rounds. -/
def sweep (dependents : Table String (List String)) : ℕ → Sweep → Except Fault Sweep
  | 0, s => if s.queue.isEmpty then .ok s else .error .outOfFuel
  | fuel + 1, s =>
    if s.queue.isEmpty then .ok s
    else (sweepLevel dependents s).bind (sweep dependents fuel)

def cyclicDependency : String := "cyclic dependency detected in workflow DAG"

/-- `order` is the iteration order of `in_degree`; the loop runs at most once per id. -/
def topologicalLevels (order : IterOrder (String × ℕ)) (items : List WorkItem) :
    Except Fault (Except String (List (List String))) :=
  let t := buildTables items
  let queue := ((order.arrange t.inDegree.pairs).filter fun p => p.2 = 0).map Prod.fst
  (sweep t.dependents t.allIds.card ⟨t.inDegree, queue, [], 0⟩).map fun s =>
    if s.processed ≠ t.allIds.card then .error cyclicDependency else .ok s.levels

def edges (items : List WorkItem) : List (String × String) :=
  items.flatMap fun item => item.dependencies.map fun dep => (dep, item.id)

/-- `x` waits for `a`: some item with the id `x` lists `a`. -/
def DependsOn (items : List WorkItem) (a x : String) : Prop :=
  ∃ item ∈ items, item.id = x ∧ a ∈ item.dependencies

variable {items : List WorkItem} {order : IterOrder (String × ℕ)} {levels : List (List String)}
  {V : Finset String} {E : List (String × String)} {dependents : Table String (List String)}

theorem mem_edges : (a, x) ∈ edges items ↔ DependsOn items a x := by
  simp only [edges, mem_flatMap, mem_map, Prod.mk.injEq, DependsOn]
  refine ⟨?_, ?_⟩
  · rintro ⟨item, hitem, dep, hdep, rfl, rfl⟩
    exact ⟨item, hitem, rfl, hdep⟩
  · rintro ⟨item, hitem, rfl, hdep⟩
    exact ⟨item, hitem, a, hdep, rfl, rfl⟩

def ids (items : List WorkItem) : Finset String := (items.map WorkItem.id).toFinset

theorem DependsOn.mem_ids (h : DependsOn items a x) : x ∈ ids items := by
  obtain ⟨item, hitem, rfl, -⟩ := h
  exact mem_toFinset.mpr (mem_map_of_mem hitem)

/-- The tables describe the graph with the nodes `V` and the edges `E`. -/
structure Describes (t : Tables) (V : Finset String) (E : List (String × String)) : Prop where
  allIds_eq : t.allIds = V
  dependents_eq : ∀ a, (t.dependents.lookup a).getD [] = valuesAt E a
  inDegree_eq : ∀ x, t.inDegree.lookup x = if x ∈ V then some (pending E [] x) else none
  /-- only ids wait -/
  target_mem : ∀ e ∈ E, e.2 ∈ V

theorem Describes.addDependency {t : Tables} (h : Describes t V E) {id : String} (hid : id ∈ V)
    (dep : String) :
    Describes (addDependency id t dep) V (E ++ [(dep, id)]) where
  allIds_eq := h.allIds_eq
  dependents_eq a := by
    have hpush := getD_lookup_foldl_push [(dep, id)] t.dependents a
    rw [foldl_cons, foldl_nil, h.dependents_eq] at hpush
    rw [valuesAt, filter_append, map_append]
    exact hpush
  inDegree_eq x := by
    simp only [ParallelExecutor.addDependency, pending_nil, map_append, count_append]
    by_cases hx : x = id
    · subst hx
      rw [AList.lookup_insert, if_pos hid, h.inDegree_eq, if_pos hid, pending_nil]
      simp
    · rw [AList.lookup_insert_ne hx, h.inDegree_eq, pending_nil]
      simp [Ne.symm hx]
  target_mem e he := by
    rcases mem_append.mp he with he | he
    · exact h.target_mem e he
    · rw [mem_singleton.mp he]
      exact hid

theorem Describes.addDependencies {id : String} (hid : id ∈ V) (deps : List String) :
    ∀ {t : Tables} {E : List (String × String)}, Describes t V E →
      Describes (deps.foldl (ParallelExecutor.addDependency id) t) V
        (E ++ deps.map fun dep => (dep, id)) := by
  induction deps with
  | nil => intro t E h; simpa using h
  | cons dep deps ih =>
    intro t E h
    have hrest := ih (h.addDependency hid dep)
    rwa [append_assoc, singleton_append] at hrest

theorem Describes.addItem {t : Tables} (h : Describes t V E) (item : WorkItem) :
    Describes (addItem t item) (insert item.id V)
      (E ++ item.dependencies.map fun dep => (dep, item.id)) := by
  refine Describes.addDependencies (Finset.mem_insert_self _ _) item.dependencies ?_
  refine ⟨congrArg (insert item.id) h.allIds_eq, h.dependents_eq, fun x => ?_, fun e he =>
    Finset.mem_insert_of_mem (h.target_mem e he)⟩
  simp only [lookup_orInsert, h.inDegree_eq, Finset.mem_insert]
  by_cases hx : x = item.id
  · subst hx
    by_cases hV : item.id ∈ V
    · simp [hV]
    · -- a new id has no edges yet
      have hnone : pending E [] item.id = 0 := pending_eq_zero.mpr fun a ha =>
        absurd (h.target_mem _ ha) hV
      simp [hV, hnone]
  · simp [hx]

theorem describes_foldl_addItem (items : List WorkItem) :
    ∀ {t : Tables} {V : Finset String} {E : List (String × String)}, Describes t V E →
      Describes (items.foldl addItem t) (ids items ∪ V) (E ++ edges items) := by
  induction items with
  | nil => intro t V E h; simpa [ids, edges] using h
  | cons item items ih =>
    intro t V E h
    have hrest := ih (h.addItem item)
    rw [append_assoc] at hrest
    have hids : ids (item :: items) ∪ V = ids items ∪ insert item.id V := by
      simp [ids, Finset.insert_union, Finset.union_insert]
    rw [foldl_cons, hids]
    exact hrest

theorem describes_buildTables (items : List WorkItem) :
    Describes (buildTables items) (ids items) (edges items) := by
  have hempty : Describes ⟨∅, ∅, ∅⟩ ∅ [] := ⟨rfl, by simp [valuesAt], by simp, by simp⟩
  have hrun := describes_foldl_addItem items hempty
  rwa [Finset.union_empty, nil_append] at hrun

/-! ## One round of the loop -/

theorem foldlM_releaseDependents (dependents : Table String (List String)) (q : List String) :
    ∀ st, q.foldlM (releaseDependents dependents) st =
      (q.flatMap fun a => (dependents.lookup a).getD []).foldlM release st := by
  induction q with
  | nil => intro st; rfl
  | cons a q ih =>
    intro st
    rw [foldlM_cons, flatMap_cons, foldlM_append]
    have hhead : releaseDependents dependents st a =
        ((dependents.lookup a).getD []).foldlM release st := by
      rw [releaseDependents]
      cases dependents.lookup a <;> rfl
    rw [hhead]
    exact bind_congr ih

/-- Each degree falls by the number of its entries; those that reach zero are queued. -/
theorem foldlM_release (ts : List String) :
    ∀ (deg : Table String ℕ) (queue : List String),
      (∀ x ∈ ts, ∃ d, deg.lookup x = some d ∧ ts.count x ≤ d) →
      ∃ deg' new, ts.foldlM release (deg, queue) = .ok (deg', queue ++ new) ∧
        (∀ x, deg'.lookup x = (deg.lookup x).map (· - ts.count x)) ∧
        new.Nodup ∧ ∀ x, x ∈ new ↔ x ∈ ts ∧ deg.lookup x = some (ts.count x) := by
  induction ts with
  | nil =>
    intro deg queue _
    exact ⟨deg, [], by simp [pure, Except.pure], by simp, nodup_nil, by simp⟩
  | cons t ts ih =>
    intro deg queue hroom
    obtain ⟨d, hd, hcount⟩ := hroom t mem_cons_self
    rw [count_cons_self] at hcount
    obtain ⟨d, rfl⟩ : ∃ d', d = d' + 1 := ⟨d - 1, by omega⟩
    have hcount' : ts.count t ≤ d := by omega
    have hroom' : ∀ x ∈ ts, ∃ d', (deg.insert t d).lookup x = some d' ∧ ts.count x ≤ d' := by
      intro x hx
      by_cases hxt : x = t
      · subst hxt
        exact ⟨d, AList.lookup_insert _, hcount'⟩
      · obtain ⟨d', hd', hle⟩ := hroom x (mem_cons_of_mem _ hx)
        rw [count_cons_of_ne (Ne.symm hxt)] at hle
        exact ⟨d', by rw [AList.lookup_insert_ne hxt, hd'], hle⟩
    obtain ⟨deg', new, hrun, hdeg', hnodup, hnew⟩ :=
      ih (deg.insert t d) (if d = 0 then queue ++ [t] else queue) hroom'
    have hstep : (t :: ts).foldlM release (deg, queue) =
        ts.foldlM release (deg.insert t d, if d = 0 then queue ++ [t] else queue) := by
      simp [foldlM_cons, release, hd, bind, Except.bind]
    -- `t` reaches zero now exactly if it has no further entry
    have hzero : d = 0 → t ∉ ts := by
      rintro rfl
      exact count_eq_zero.mp (Nat.le_zero.mp hcount')
    refine ⟨deg', if d = 0 then t :: new else new, ?_, fun x => ?_, ?_, fun x => ?_⟩
    · rw [hstep, hrun]
      split <;> simp
    · rw [hdeg']
      by_cases hxt : x = t
      · subst hxt
        rw [AList.lookup_insert, hd, count_cons_self]
        simp
      · rw [AList.lookup_insert_ne hxt, count_cons_of_ne (Ne.symm hxt)]
    · split
      · rename_i hd0
        exact nodup_cons.mpr ⟨fun ht => hzero hd0 ((hnew t).mp ht).1, hnodup⟩
      · exact hnodup
    · by_cases hxt : x = t
      · subst hxt
        have hmem : x ∈ (if d = 0 then x :: new else new) ↔ d = 0 ∨ x ∈ new := by
          split <;> simp_all
        rw [hmem, hnew, AList.lookup_insert, hd, count_cons_self]
        simp only [mem_cons, true_or, true_and, Option.some.injEq, Nat.add_right_cancel_iff]
        refine ⟨?_, ?_⟩
        · rintro (hd0 | ⟨-, heq⟩)
          · rw [hd0, count_eq_zero.mpr (hzero hd0)]
          · exact heq
        · intro heq
          rcases Nat.eq_zero_or_pos d with hd0 | hpos
          · exact Or.inl hd0
          · exact Or.inr ⟨count_pos_iff.mp (heq ▸ hpos), heq⟩
      · have hmem : x ∈ (if d = 0 then t :: new else new) ↔ x ∈ new := by
          split <;> simp [hxt]
        rw [hmem, hnew, AList.lookup_insert_ne hxt, count_cons_of_ne (Ne.symm hxt),
          mem_cons, or_iff_right hxt]

/-- The levels peel the graph, the queue is the frontier, and the degrees count what is not in a
level. -/
structure SweepInv (V : Finset String) (E : List (String × String)) (s : Sweep) : Prop where
  peeled : Peeled V (fun a x => (a, x) ∈ E) s.levels
  frontier : Frontier V (fun a x => (a, x) ∈ E) s.levels.flatten s.queue
  /-- entries still waited for -/
  inDegree_eq : ∀ x,
    s.inDegree.lookup x = if x ∈ V then some (pending E s.levels.flatten x) else none
  /-- the counter that decides success -/
  processed_eq : s.processed = s.levels.flatten.length

theorem SweepInv.sweepLevel (htarget : ∀ e ∈ E, e.2 ∈ V)
    (hdep : ∀ a, (dependents.lookup a).getD [] = valuesAt E a) (h : SweepInv V E s) :
    ∃ s', sweepLevel dependents s = .ok s' ∧ SweepInv V E s' ∧
      s'.levels = s.levels ++ [s.queue] := by
  have hsplit : ∀ x, pending E s.levels.flatten x =
      (s.queue.flatMap (valuesAt E)).count x + pending E (s.levels.flatten ++ s.queue) x :=
    fun x => pending_append E x h.frontier.nodup fun a ha => ((h.frontier.mem_iff a).mp ha).2.1
  have hdeg : ∀ x ∈ s.queue.flatMap (valuesAt E),
      s.inDegree.lookup x = some (pending E s.levels.flatten x) := by
    intro x hx
    obtain ⟨a, -, hax⟩ := mem_flatMap.mp hx
    rw [h.inDegree_eq, if_pos (htarget _ (mem_valuesAt.mp hax))]
  obtain ⟨deg', next, hrun, hdeg', hnodup, hnext⟩ :=
    foldlM_release (s.queue.flatMap (valuesAt E)) s.inDegree []
      fun x hx => ⟨_, hdeg x hx, by rw [hsplit x]; exact Nat.le_add_right _ _⟩
  refine ⟨⟨deg', next, s.levels ++ [s.queue], s.processed + s.queue.length⟩, ?_, ?_, rfl⟩
  · rw [ParallelExecutor.sweepLevel, foldlM_releaseDependents]
    simp only [hdep]
    rw [hrun]
    rfl
  have hflatten : (s.levels ++ [s.queue]).flatten = s.levels.flatten ++ s.queue := by simp
  refine ⟨.snoc h.peeled h.frontier, ?_, fun x => ?_, ?_⟩
  · rw [hflatten]
    refine frontier_append h.peeled.closed h.frontier hnodup fun x => ?_
    rw [hnext x]
    refine ⟨?_, ?_⟩
    · rintro ⟨hx, hcount⟩
      have hpos := count_pos_iff.mpr hx
      have heq := Option.some.inj ((hdeg x hx).symm.trans hcount)
      obtain ⟨a, -, hax⟩ := mem_flatMap.mp hx
      have hsum := hsplit x
      exact ⟨htarget _ (mem_valuesAt.mp hax), by omega, by omega⟩
    · rintro ⟨hxV, hpos, hzero⟩
      have hsum := hsplit x
      refine ⟨count_pos_iff.mp (by omega), ?_⟩
      rw [h.inDegree_eq, if_pos hxV, hsum, hzero, Nat.add_zero]
  · rw [hdeg', h.inDegree_eq, hflatten]
    have hsum := hsplit x
    split
    · simp only [Option.map_some, Option.some.injEq]
      omega
    · rfl
  · rw [hflatten, length_append, ← h.processed_eq]

theorem SweepInv.sweep (htarget : ∀ e ∈ E, e.2 ∈ V)
    (hdep : ∀ a, (dependents.lookup a).getD [] = valuesAt E a) (fuel : ℕ) :
    ∀ {s : Sweep}, SweepInv V E s → V.card ≤ s.levels.flatten.length + fuel →
      ∃ s', sweep dependents fuel s = .ok s' ∧ SweepInv V E s' ∧ s'.queue = [] := by
  induction fuel with
  | zero =>
    intro s h hfuel
    -- all nodes have been taken, so the frontier is empty
    have hall := h.peeled.length_flatten_eq_iff.mp (le_antisymm h.peeled.length_flatten_le hfuel)
    have hqueue : s.queue = [] := eq_nil_iff_forall_not_mem.mpr fun x hx =>
      ((h.frontier.mem_iff x).mp hx).2.1 (hall x ((h.frontier.mem_iff x).mp hx).1)
    exact ⟨s, by simp [ParallelExecutor.sweep, hqueue], h, hqueue⟩
  | succ fuel ih =>
    intro s h hfuel
    by_cases hqueue : s.queue = []
    · exact ⟨s, by simp [ParallelExecutor.sweep, hqueue], h, hqueue⟩
    · obtain ⟨s₁, hstep, h₁, hlevels⟩ := h.sweepLevel htarget hdep
      have hgrow : V.card ≤ s₁.levels.flatten.length + fuel := by
        have hpos := length_pos_iff.mpr hqueue
        rw [hlevels, flatten_append, flatten_singleton, length_append]
        omega
      obtain ⟨s', hrun, h', hend⟩ := ih h₁ hgrow
      refine ⟨s', ?_, h', hend⟩
      rw [ParallelExecutor.sweep, if_neg (by simpa using hqueue), hstep]
      exact hrun

theorem sweepInv_start (order : IterOrder (String × ℕ)) (items : List WorkItem) :
    SweepInv (ids items) (edges items)
      ⟨(buildTables items).inDegree,
        ((order.arrange (buildTables items).inDegree.pairs).filter fun p => p.2 = 0).map Prod.fst,
        [], 0⟩ := by
  have hdesc := describes_buildTables items
  refine ⟨.nil, ⟨?_, fun x => ?_⟩, hdesc.inDegree_eq, rfl⟩
  · have hperm := (order.perm (buildTables items).inDegree.pairs).map Prod.fst
    exact (filter_sublist.map _).nodup (hperm.nodup_iff.mpr (nodup_keys_pairs _))
  · simp only [mem_map, mem_filter, IterOrder.mem_arrange, decide_eq_true_eq,
      Prod.exists, exists_and_right, exists_eq_right, mem_pairs,
      flatten_nil, not_mem_nil, not_false_eq_true, true_and]
    rw [hdesc.inDegree_eq]
    split
    · rename_i hx
      rw [Option.some.injEq, pending_eq_zero]
      simp [hx]
    · rename_i hx
      simp [hx]

/-- The levels peel the graph until nothing is left; the count decides the result. -/
theorem exists_topologicalLevels (order : IterOrder (String × ℕ)) (items : List WorkItem) :
    ∃ levels, Peeled (ids items) (DependsOn items) levels ∧
      Frontier (ids items) (DependsOn items) levels.flatten [] ∧
      topologicalLevels order items =
        .ok (if levels.flatten.length ≠ (ids items).card then .error cyclicDependency
          else .ok levels) := by
  have hdesc := describes_buildTables items
  obtain ⟨s, hrun, hinv, hqueue⟩ := (sweepInv_start order items).sweep hdesc.target_mem
    hdesc.dependents_eq (ids items).card (by simp)
  have hrel : (fun a x => (a, x) ∈ edges items) = DependsOn items :=
    funext₂ fun a x => propext mem_edges
  obtain ⟨hpeeled, hfrontier, -, hprocessed⟩ := hinv
  rw [hrel] at hpeeled hfrontier
  refine ⟨s.levels, hpeeled, hqueue ▸ hfrontier, ?_⟩
  simp only [topologicalLevels, hdesc.allIds_eq, hrun, ← hprocessed]
  rfl

def DependenciesKnown (items : List WorkItem) : Prop :=
  ∀ item ∈ items, ∀ dep ∈ item.dependencies, dep ∈ items.map WorkItem.id

/-- No id waits, directly or through others, for itself. -/
def Acyclic (items : List WorkItem) : Prop := ∀ x, ¬ Relation.TransGen (DependsOn items) x x

theorem dependenciesKnown_iff :
    DependenciesKnown items ↔ ∀ a x, DependsOn items a x → a ∈ ids items := by
  simp only [DependenciesKnown, ids, mem_toFinset]
  refine ⟨?_, ?_⟩
  · rintro h a x ⟨item, hitem, -, ha⟩
    exact h item hitem a ha
  · intro h item hitem dep hdep
    exact h dep item.id ⟨item, hitem, rfl, hdep⟩

/-- **When the sort succeeds**: every dependency is the id of an item and there is no cycle. -/
theorem topologicalLevels_ok_iff (order : IterOrder (String × ℕ)) (items : List WorkItem) :
    (∃ result, topologicalLevels order items = .ok result) ∧
      ((∃ levels, topologicalLevels order items = .ok (.ok levels)) ↔
        DependenciesKnown items ∧ Acyclic items) := by
  obtain ⟨levels, hpeeled, hend, hrun⟩ := exists_topologicalLevels order items
  refine ⟨⟨_, hrun⟩, ?_⟩
  rw [dependenciesKnown_iff, Acyclic,
    ← hpeeled.subset_flatten_iff hend fun a x h => h.mem_ids, ← hpeeled.length_flatten_eq_iff, hrun]
  split_ifs with hlen
  · simpa using hlen
  · simpa using hlen

section

variable (h : topologicalLevels order items = .ok (.ok levels))
include h

theorem peeled_of_topologicalLevels :
    Peeled (ids items) (DependsOn items) levels ∧ ∀ x ∈ ids items, x ∈ levels.flatten := by
  obtain ⟨levels', hpeeled, -, hrun⟩ := exists_topologicalLevels order items
  rw [h] at hrun
  split_ifs at hrun with hlen
  · simp at hrun
  · obtain rfl : levels = levels' := by simpa using hrun
    exact ⟨hpeeled, hpeeled.length_flatten_eq_iff.mp (not_ne_iff.mp hlen)⟩

theorem flatten_perm_dedup : levels.flatten.Perm (items.map WorkItem.id).dedup := by
  obtain ⟨hpeeled, hall⟩ := peeled_of_topologicalLevels h
  refine (perm_ext_iff_of_nodup hpeeled.nodup_flatten (nodup_dedup _)).mpr fun x => ?_
  rw [mem_dedup]
  exact ⟨fun hx => mem_toFinset.mp (hpeeled.mem_of_mem_flatten x hx),
    fun hx => hall x (mem_toFinset.mpr hx)⟩

end

/-- **The levels are exact**: the number is the length of the longest chain to the id. -/
theorem topologicalLevels_exact (order : IterOrder (String × ℕ)) (items : List WorkItem)
    (levels : List (List String)) (h : topologicalLevels order items = .ok (.ok levels)) :
    levels.flatten.Perm (items.map WorkItem.id).dedup ∧
      ∀ i level x, levels[i]? = some level → x ∈ level →
        IsGreatest {n | ChainTo (DependsOn items) n x} i ∧
        (∀ a, DependsOn items a x → ∃ j earlier, j < i ∧ levels[j]? = some earlier ∧ a ∈ earlier) ∧
        ∀ rank : String → ℕ, (∀ a y, DependsOn items a y → rank a < rank y) → i ≤ rank x := by
  obtain ⟨hpeeled, -⟩ := peeled_of_topologicalLevels h
  refine ⟨flatten_perm_dedup h, fun i level x hi hx => ⟨?_, fun a hax => ?_, fun rank hrank => ?_⟩⟩
  · exact hpeeled.isGreatest_chain hi hx
  · exact hpeeled.exists_earlier hi hx hax
  · exact (hpeeled.exists_chain i hi hx).le_rank hrank

/-- A diamond whose last item also lists an early dependency, twice. -/
def diamond : List WorkItem :=
  [⟨"d", ["b", "c", "a", "a"]⟩, ⟨"a", []⟩, ⟨"b", ["a"]⟩, ⟨"c", ["a"]⟩]

theorem diamond_levels :
    topologicalLevels (.stored _) diamond = .ok (.ok [["a"], ["b", "c"], ["d"]]) ∧
      IsGreatest {n | ChainTo (DependsOn diamond) n "d"} 2 := by
  have hrun : topologicalLevels (.stored _) diamond = .ok (.ok [["a"], ["b", "c"], ["d"]]) := by
    decide +kernel
  exact ⟨hrun, ((topologicalLevels_exact _ _ _ hrun).2 2 ["d"] "d" rfl (by simp)).1⟩

end ParallelExecutor

end AlloyAgent
