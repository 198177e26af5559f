import Mathlib.Algebra.BigOperators.Group.List.Basic
import Mathlib.Algebra.Ring.Nat
import Mathlib.Data.List.Basic
import Mathlib.Data.List.Perm.Basic
import Mathlib.Logic.Relation

/-!
# Runs of a transition function

A system that takes one event after another is a function `step : σ → ε → Option σ`; `none` means
that the event is not possible in the state.

* `run_invariant`, `run_history`, `run_tally`: what holds after every run;
* `run_guarded`, `throughout_iff_guarded_of_inv`: under conditions on the events;
* `length_le_of_measure`, `run_reaches`: termination and progress;
* `run_purge`: noninterference.
-/

namespace AlloyAgent.Transition

universe u v

open List Option

variable {σ : Type u} {ε : Type v} {step : σ → ε → Option σ}

/-- Take the events in order; `none` if one of them is not possible. -/
def run (step : σ → ε → Option σ) (s : σ) (es : List ε) : Option σ := es.foldlM step s

@[simp] theorem run_nil (s : σ) : run step s [] = some s := rfl

theorem run_cons (s : σ) (e : ε) (es : List ε) :
    run step s (e :: es) = (step s e).bind fun s' => run step s' es := rfl

/-- **Invariants over histories**, which may speak of the events so far. -/
theorem run_history {Inv : List ε → σ → Prop}
    (hstep : ∀ es s e s', Inv es s → step s e = some s' → Inv (es ++ [e]) s') :
    ∀ (es past : List ε) {s s' : σ}, Inv past s → run step s es = some s' →
      Inv (past ++ es) s' := by
  intro es
  induction es with
  | nil =>
    intro past s s' hinv hrun
    rw [run_nil, some.injEq] at hrun
    rwa [← hrun, append_nil]
  | cons e es ih =>
    intro past s s' hinv hrun
    rw [run_cons, bind_eq_some_iff] at hrun
    obtain ⟨s₁, hs₁, hrun⟩ := hrun
    have hrest := ih (past ++ [e]) (hstep past s e s₁ hinv hs₁) hrun
    rwa [append_assoc, singleton_append] at hrest

/-- **Invariants.** What every event keeps holds after every run. -/
theorem run_invariant {Inv : σ → Prop}
    (hstep : ∀ s e s', Inv s → step s e = some s' → Inv s') (es : List ε) {s s' : σ} (hinv : Inv s)
    (hrun : run step s es = some s') : Inv s' :=
  @run_history σ ε step (fun _ => Inv) (fun _ => hstep) es [] s s' hinv hrun

/-- **Runs that end**: a measure that every event lowers bounds the length of a run. -/
theorem length_le_of_measure {measure : σ → ℕ}
    (hstep : ∀ s e s', step s e = some s' → measure s' < measure s) (es : List ε) {s s' : σ}
    (hrun : run step s es = some s') : es.length + measure s' ≤ measure s := by
  refine @run_history _ _ step (fun past s' => past.length + measure s' ≤ measure s)
    (fun past s₁ e s₂ hle h => ?_) es [] s s' (by simp) hrun
  have hlt := hstep s₁ e s₂ h
  rw [length_append, length_singleton]
  omega

/-- **Progress among other events.** If every event that counts brings the goal nearer, and no other
one takes it farther away, then a run with `n` events that count has come by the goal. -/
theorem run_reaches {goal : σ → Prop} {pending : ℕ → σ → Prop} {counts : ε → Bool}
    (hzero : ∀ s, pending 0 s → goal s)
    (hstep : ∀ n s e s', pending (n + 1) s → ¬ goal s → step s e = some s' →
      pending (if counts e then n else n + 1) s') :
    ∀ (es : List ε) {n : ℕ} {s s' : σ}, pending n s → run step s es = some s' →
      n ≤ es.countP counts →
      ∃ pre post s₁, es = pre ++ post ∧ pre.countP counts ≤ n ∧ run step s pre = some s₁ ∧
        goal s₁ := by
  intro es
  induction es with
  | nil =>
    intro n s s' hpending _ hn
    obtain rfl : n = 0 := by simpa using hn
    exact ⟨[], [], s, rfl, le_rfl, rfl, hzero s hpending⟩
  | cons e es ih =>
    intro n s s' hpending hrun hn
    by_cases hgoal : goal s
    · exact ⟨[], e :: es, s, rfl, Nat.zero_le _, rfl, hgoal⟩
    · cases n with
      | zero => exact absurd (hzero s hpending) hgoal
      | succ n =>
        rw [run_cons, bind_eq_some_iff] at hrun
        obtain ⟨s₂, hs₂, hrun⟩ := hrun
        have hnext := hstep n s e s₂ hpending hgoal hs₂
        rw [countP_cons] at hn
        obtain ⟨pre, post, s₁, rfl, hpre, hrun₁, hgoal₁⟩ :=
          ih hnext hrun (by split_ifs at * <;> omega)
        refine ⟨e :: pre, post, s₁, rfl, ?_, ?_, hgoal₁⟩
        · rw [countP_cons]
          split_ifs at * <;> omega
        · rw [run_cons, hs₂]
          exact hrun₁

/-- Every event meets the condition in the state in which it is taken. -/
def Guarded (step : σ → ε → Option σ) (ok : σ → ε → Prop) : σ → List ε → Prop
  | _, [] => True
  | s, e :: es => ok s e ∧ ∀ s', step s e = some s' → Guarded step ok s' es

theorem Guarded.cons {ok : σ → ε → Prop} {s s' : σ} {e : ε} {es : List ε} (hok : ok s e)
    (hs : step s e = some s') (hes : Guarded step ok s' es) : Guarded step ok s (e :: es) :=
  ⟨hok, fun _ h => some.inj (hs.symm.trans h) ▸ hes⟩

variable {ok : σ → ε → Prop}

theorem Guarded.of_forall (h : ∀ s e, ok s e) : ∀ (es : List ε) (s : σ), Guarded step ok s es := by
  intro es
  induction es with
  | nil => intro s; trivial
  | cons e es ih => intro s; exact ⟨h s e, fun s' _ => ih s'⟩

/-- **Invariants under a condition on the events.** -/
theorem run_guarded {ok : σ → ε → Prop} {Inv : σ → Prop}
    (hstep : ∀ s e s', Inv s → ok s e → step s e = some s' → Inv s') :
    ∀ (es : List ε) {s s' : σ}, Inv s → Guarded step ok s es → run step s es = some s' →
      Inv s' := by
  intro es
  induction es with
  | nil =>
    intro s s' hinv _ hrun
    rw [run_nil, some.injEq] at hrun
    exact hrun ▸ hinv
  | cons e es ih =>
    intro s s' hinv hguard hrun
    rw [run_cons, bind_eq_some_iff] at hrun
    obtain ⟨s₁, hs₁, hrun⟩ := hrun
    exact ih (hstep s e s₁ hinv hguard.1 hs₁) (hguard.2 s₁ hs₁) hrun

/-- What the events of a run amount to, each weighed in the state in which it is taken. -/
def tally (step : σ → ε → Option σ) (weight : σ → ε → ℕ) : σ → List ε → ℕ
  | _, [] => 0
  | s, e :: es => weight s e + (step s e).elim 0 fun s' => tally step weight s' es

/-- **Invariants over tallies**, which may speak of what the events amount to. -/
theorem run_tally {weight : σ → ε → ℕ} {Inv : ℕ → σ → Prop}
    (hstep : ∀ k s e s', Inv k s → step s e = some s' → Inv (k + weight s e) s') :
    ∀ (es : List ε) {k : ℕ} {s s' : σ}, Inv k s → run step s es = some s' →
      Inv (k + tally step weight s es) s' := by
  intro es
  induction es with
  | nil =>
    intro k s s' hinv hrun
    rw [run_nil, some.injEq] at hrun
    exact hrun ▸ hinv
  | cons e es ih =>
    intro k s s' hinv hrun
    rw [run_cons, bind_eq_some_iff] at hrun
    obtain ⟨s₁, hs₁, hrun⟩ := hrun
    have hrest := ih (hstep k s e s₁ hinv hs₁) hrun
    rw [tally, hs₁, elim_some, ← Nat.add_assoc]
    exact hrest

/-- The property holds in every state of the run, the first and the last one included. -/
def Throughout (step : σ → ε → Option σ) (P : σ → Prop) : σ → List ε → Prop
  | s, [] => P s
  | s, e :: es => P s ∧ ∀ s', step s e = some s' → Throughout step P s' es

/-- **Conditions that are exact**: the property holds throughout if all events meet them. -/
theorem throughout_iff_guarded_of_inv {ok : σ → ε → Prop} {Inv P : σ → Prop}
    (hinv : ∀ s e s', Inv s → step s e = some s' → Inv s')
    (hstep : ∀ s e s', Inv s → P s → step s e = some s' → (P s' ↔ ok s e)) :
    ∀ (es : List ε) {s s' : σ}, Inv s → P s → run step s es = some s' →
      (Throughout step P s es ↔ Guarded step ok s es) := by
  intro es
  induction es with
  | nil => exact fun _ hs _ => iff_of_true hs trivial
  | cons e es ih =>
    intro s s' hI hs hrun
    rw [run_cons, bind_eq_some_iff] at hrun
    obtain ⟨s₁, hs₁, hrun⟩ := hrun
    have hI₁ := hinv s e s₁ hI hs₁
    have hnext (Q : σ → Prop) : (∀ s₂, step s e = some s₂ → Q s₂) ↔ Q s₁ := by
      rw [hs₁]
      simp only [some.injEq, forall_eq']
    rw [Throughout, Guarded, hnext, hnext, ← hstep s e s₁ hI hs hs₁, and_iff_right hs]
    refine ⟨fun h => ?_, fun h => (ih hI₁ h.1 hrun).mpr h.2⟩
    have hP₁ : P s₁ := by
      cases es with
      | nil => exact h
      | cons e' es => exact h.1
    exact ⟨hP₁, (ih hI₁ hP₁ hrun).mp h⟩

theorem throughout_iff_guarded {P : σ → Prop}
    (hstep : ∀ s e s', P s → step s e = some s' → (P s' ↔ ok s e)) :
    ∀ (es : List ε) {s s' : σ}, P s → run step s es = some s' →
      (Throughout step P s es ↔ Guarded step ok s es) := by
  intro es s s' hs hrun
  apply @throughout_iff_guarded_of_inv σ ε step ok (fun _ => True) P
  · exact fun _ _ _ _ _ => trivial
  · exact fun s e s' _ => hstep s e s'
  · trivial
  · exact hs
  · exact hrun

/-- Every event of the run is possible, and its step has the property. -/
def Steps (step : σ → ε → Option σ) (P : σ → ε → σ → Prop) : σ → List ε → Prop
  | _, [] => True
  | s, e :: es => ∃ s', step s e = some s' ∧ P s e s' ∧ Steps step P s' es

/-- **Conditions for a step to be possible and right.** -/
theorem steps_iff_guarded {Inv : σ → Prop} {P : σ → ε → σ → Prop}
    (hinv : ∀ s e s', Inv s → step s e = some s' → P s e s' → Inv s')
    (hstep : ∀ s e, Inv s → ((∃ s', step s e = some s' ∧ P s e s') ↔ ok s e)) :
    ∀ (es : List ε) {s : σ}, Inv s → (Steps step P s es ↔ Guarded step ok s es) := by
  intro es
  induction es with
  | nil => exact fun _ => iff_of_true trivial trivial
  | cons e es ih =>
    intro s hs
    constructor
    · rintro ⟨s', hs', hP, hes⟩
      exact .cons ((hstep s e hs).mp ⟨s', hs', hP⟩) hs' ((ih (hinv s e s' hs hs' hP)).mp hes)
    · rintro ⟨hok, hes⟩
      obtain ⟨s', hs', hP⟩ := (hstep s e hs).mpr hok
      exact ⟨s', hs', hP, (ih (hinv s e s' hs hs' hP)).mpr (hes s' hs')⟩

/-! ## Events that do not matter -/

/-- The run without the events that are `hidden` in the state in which they are taken. -/
def purge (step : σ → ε → Option σ) (hidden : σ → ε → Bool) : σ → List ε → List ε
  | _, [] => []
  | s, e :: es =>
    match step s e with
    | none => []
    | some s' => if hidden s e then purge step hidden s' es else e :: purge step hidden s' es

/-- **Noninterference**: without the hidden events a run ends in a state that looks alike. -/
theorem run_purge {hidden : σ → ε → Bool} {alike : σ → σ → Prop}
    (hskip : ∀ s e s' t, alike s t → hidden s e = true → step s e = some s' → alike s' t)
    (hboth : ∀ s e s' t, alike s t → ok s e → hidden s e = false → step s e = some s' →
      ∃ t', step t e = some t' ∧ alike s' t') :
    ∀ (es : List ε) {s s' t : σ}, alike s t → Guarded step ok s es → run step s es = some s' →
      ∃ t', run step t (purge step hidden s es) = some t' ∧ alike s' t' := by
  intro es
  induction es with
  | nil =>
    intro s s' t halike _ hrun
    rw [run_nil, some.injEq] at hrun
    exact ⟨t, rfl, hrun ▸ halike⟩
  | cons e es ih =>
    intro s s' t halike hguard hrun
    rw [run_cons, bind_eq_some_iff] at hrun
    obtain ⟨s₁, hs₁, hrun⟩ := hrun
    rw [purge, hs₁]
    dsimp only
    split
    · rename_i hhidden
      exact ih (hskip s e s₁ t halike hhidden hs₁) (hguard.2 s₁ hs₁) hrun
    · rename_i hhidden
      obtain ⟨t₁, ht₁, halike₁⟩ :=
        hboth s e s₁ t halike hguard.1 (Bool.not_eq_true _ ▸ hhidden) hs₁
      obtain ⟨t', ht', halike'⟩ := ih halike₁ (hguard.2 s₁ hs₁) hrun
      refine ⟨t', ?_, halike'⟩
      rw [run_cons, ht₁]
      exact ht'

/-! ## States that are reached -/

variable {α : Type u} {next : α → α → Prop} {P : α → Prop} {a b : α}

/-- `P` holds in every state that is reached from `a`. -/
def Always (next : α → α → Prop) (P : α → Prop) (a : α) : Prop :=
  ∀ b, Relation.ReflTransGen next a b → P b

theorem always_iff : Always next P a ↔ P a ∧ ∀ b, next a b → Always next P b := by
  refine ⟨fun h => ⟨h a .refl, fun b hab c hbc => h c (.head hab hbc)⟩, ?_⟩
  rintro ⟨hnow, hlater⟩ c hac
  rcases hac.cases_head with rfl | ⟨b, hab, hbc⟩
  · exact hnow
  · exact hlater b hab c hbc

theorem always_iff_of_last (hlast : ∀ b, ¬ next a b) : Always next P a ↔ P a :=
  always_iff.trans (and_iff_left fun b hab => absurd hab (hlast b))

theorem always_iff_of_next (hnext : ∀ c, next a c ↔ c = b) :
    Always next P a ↔ P a ∧ Always next P b := by
  simp only [always_iff (a := a), hnext, forall_eq]

theorem always_of_invariant {Inv : α → Prop} (hP : ∀ a, Inv a → P a)
    (hstep : ∀ a b, Inv a → next a b → Inv b) (ha : Inv a) : Always next P a := by
  intro b hab
  refine hP b ?_
  induction hab with
  | refl => exact ha
  | tail _ hbc ih => exact hstep _ _ ih hbc

/-- The first element with the property, and the others. -/
def takeOut (p : α → Bool) : List α → Option (α × List α)
  | [] => none
  | a :: l => if p a then some (a, l) else (takeOut p l).map fun r => (r.1, a :: r.2)

theorem takeOut_eq_some {p : α → Bool} :
    ∀ {l r : List α}, takeOut p l = some (a, r) → p a = true ∧ l.Perm (a :: r) := by
  intro l
  induction l with
  | nil => intro r h; cases h
  | cons b l ih =>
    intro r h
    rw [takeOut] at h
    split at h
    · rename_i hb
      cases h
      exact ⟨hb, .refl _⟩
    · obtain ⟨⟨a', r'⟩, hr', heq⟩ := map_eq_some_iff.mp h
      cases heq
      obtain ⟨ha, hperm⟩ := ih hr'
      exact ⟨ha, (hperm.cons b).trans (.swap _ _ _)⟩

theorem exists_takeOut {p : α → Bool} {l : List α} (ha : a ∈ l) (hp : p a = true) :
    ∃ r, takeOut p l = some r := by
  induction l with
  | nil => cases ha
  | cons b l ih =>
    rw [takeOut]
    split
    · exact ⟨_, rfl⟩
    · rename_i hb
      rcases mem_cons.mp ha with rfl | ha
      · exact absurd hp hb
      · obtain ⟨r, hr⟩ := ih ha
        exact ⟨_, by rw [hr, map_some]⟩

variable {l : List α} {i : ℕ}

theorem modify_eq_set (h : l[i]? = some a) (f : α → α) : l.modify i f = l.set i (f a) := by
  rw [modify_eq_set_getElem?, h]
  rfl

theorem set_of_getElem? (h : l[i]? = some a) : l.set i a = l := by
  obtain ⟨hlt, hget⟩ := List.getElem?_eq_some_iff.mp h
  rw [← hget, set_getElem_self]

theorem getElem?_set_eq_some (h : l[i]? = some a) (b : α) (j : ℕ) (c : α) :
    (l.set i b)[j]? = some c ↔ (j = i ∧ c = b) ∨ (j ≠ i ∧ l[j]? = some c) := by
  obtain ⟨hlt, -⟩ := List.getElem?_eq_some_iff.mp h
  by_cases hij : j = i
  · subst hij
    simp [hlt, eq_comm]
  · rw [getElem?_set_ne fun heq => hij heq.symm]
    simp [hij]

theorem getElem?_concat_eq_some :
    (l ++ [a])[j]? = some c ↔ l[j]? = some c ∨ (j = l.length ∧ c = a) := by
  rcases lt_trichotomy j l.length with hlt | rfl | hgt
  · rw [getElem?_append_left hlt]
    simp [hlt.ne]
  · simp [eq_comm]
  · have hnone : l[j]? = none := getElem?_eq_none (by omega)
    have hnone' : (l ++ [a])[j]? = none := getElem?_eq_none (by simp; omega)
    rw [hnone, hnone']
    simp [hgt.ne']

theorem exists_mem_set (h : l[i]? = some a) (b : α) (p : α → Prop) :
    (∃ c ∈ l.set i b, p c) ↔ p b ∨ ∃ j, j ≠ i ∧ ∃ c, l[j]? = some c ∧ p c := by
  have hplace := getElem?_set_eq_some h b
  refine ⟨?_, ?_⟩
  · rintro ⟨c, hc, hp⟩
    obtain ⟨j, hj⟩ := mem_iff_getElem?.mp hc
    rcases (hplace j c).mp hj with ⟨-, rfl⟩ | ⟨hij, hj⟩
    · exact .inl hp
    · exact .inr ⟨j, hij, c, hj, hp⟩
  · rintro (hp | ⟨j, hij, c, hj, hp⟩)
    · exact ⟨b, mem_of_getElem? ((hplace i b).mpr (.inl ⟨rfl, rfl⟩)), hp⟩
    · exact ⟨c, mem_of_getElem? ((hplace j c).mpr (.inr ⟨hij, hj⟩)), hp⟩

theorem forall_mem_set (h : l[i]? = some a) (b : α) {p : α → Prop} (hl : ∀ c ∈ l, p c) :
    (∀ c ∈ l.set i b, p c) ↔ p b := by
  obtain ⟨hlt, -⟩ := List.getElem?_eq_some_iff.mp h
  refine ⟨fun hset => hset b (mem_set hlt b), fun hb c hc => ?_⟩
  rcases mem_or_eq_of_mem_set hc with hc | rfl
  · exact hl c hc
  · exact hb

theorem exists_mem_iff (h : l[i]? = some a) (p : α → Prop) :
    (∃ c ∈ l, p c) ↔ p a ∨ ∃ j, j ≠ i ∧ ∃ c, l[j]? = some c ∧ p c := by
  rw [← exists_mem_set h a p, set_of_getElem? h]

theorem sum_map_set (f : α → ℕ) (h : l[i]? = some a) (b : α) :
    ((l.set i b).map f).sum + f a = (l.map f).sum + f b := by
  induction l generalizing i with
  | nil => simp at h
  | cons c l ih =>
    cases i with
    | zero =>
      obtain rfl : c = a := by simpa using h
      simp only [set_cons_zero, map_cons, sum_cons]
      omega
    | succ i =>
      have hrest := ih (by simpa using h)
      simp only [set_cons_succ, map_cons, sum_cons]
      omega

end AlloyAgent.Transition
