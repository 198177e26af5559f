import AlloyAgent.Weave
import AlloyAgent.Message

/-!
# Tool pairing

A history that an LLM provider accepts keeps tool uses and tool results in lockstep: the results in
a message are exactly the answers to the tool uses of the message before it (`Message.Answers`).

* `Paired`: this holds throughout; `SameIds`: changes that cannot matter to it;
* `ToolPaired`: the same, as a provider checks it.
-/

namespace AlloyAgent

open List

namespace Message

/-- Tool uses occur only in assistant messages, results only in user messages. -/
def RoleOk (m : Message) : Prop :=
  (m.role ≠ .assistant → m.toolUseIds = []) ∧ (m.role ≠ .user → m.toolResultIds = [])

instance (m : Message) : Decidable m.RoleOk := inferInstanceAs (Decidable (_ ∧ _))

/-- Every result in `m` is for a tool use of `p`. -/
def Placed (p m : Message) : Prop := ∀ x ∈ m.toolResultIds, x ∈ p.toolUseIds

/-- The results in `m` are for the tool uses of `p`, and for all of them. -/
def Answers (p m : Message) : Prop := ∀ x, x ∈ m.toolResultIds ↔ x ∈ p.toolUseIds

variable {m : Message}

theorem RoleOk.role_of_use (h : m.RoleOk) (hx : x ∈ m.toolUseIds) : m.role = .assistant := by
  by_contra hr
  rw [h.1 hr] at hx
  cases hx

theorem RoleOk.role_of_result (h : m.RoleOk) (hx : x ∈ m.toolResultIds) : m.role = .user := by
  by_contra hr
  rw [h.2 hr] at hx
  cases hx

variable {m' : Message}

theorem RoleOk.of_same_ids (h : m.RoleOk) (hrole : m'.role = m.role)
    (huse : m'.toolUseIds = m.toolUseIds) (hres : m.toolResultIds = [] → m'.toolResultIds = []) :
    m'.RoleOk := by
  refine ⟨fun hr => ?_, fun hr => ?_⟩
  · rw [huse]
    exact h.1 (hrole ▸ hr)
  · exact hres (h.2 (hrole ▸ hr))

/-- The same role, tool uses and answered ids. -/
structure SameIds (m m' : Message) : Prop where
  role : m'.role = m.role
  uses : m'.toolUseIds = m.toolUseIds
  results : ∀ x, x ∈ m'.toolResultIds ↔ x ∈ m.toolResultIds

theorem SameIds.refl (m : Message) : SameIds m m := ⟨rfl, rfl, fun _ => Iff.rfl⟩

theorem SameIds.result_nil (h : SameIds m m') (hm : m.toolResultIds = []) :
    m'.toolResultIds = [] := by
  rw [eq_nil_iff_forall_not_mem]
  intro x hx
  rw [h.results, hm] at hx
  cases hx

theorem SameIds.roleOk (h : SameIds m m') (hm : m.RoleOk) : m'.RoleOk :=
  hm.of_same_ids h.role h.uses h.result_nil

theorem SameIds.trans (hab : SameIds a b) (hbc : SameIds b c) : SameIds a c :=
  ⟨hbc.role.trans hab.role, hbc.uses.trans hab.uses,
    fun x => (hbc.results x).trans (hab.results x)⟩

theorem forall₂_sameIds_trans (hab : List.Forall₂ SameIds as bs)
    (hbc : List.Forall₂ SameIds bs cs) : List.Forall₂ SameIds as cs := by
  refine forall₂_comp ?_ hab hbc
  intro a b c
  exact SameIds.trans

theorem sameIds_rewriteMessage {σ : Type} {f : String → StateT σ Option String} {s s' : σ}
    (h : rewriteMessage f m s = some (m', s')) : SameIds m m' := by
  obtain ⟨r, c⟩ := m
  cases c with
  | text t =>
    cases h
    exact SameIds.refl _
  | blocks bs =>
    obtain ⟨⟨bs', s₁⟩, hbs, h⟩ := Option.bind_eq_some_iff.mp h
    cases h
    have hids : List.Forall₂ (fun b b' => b'.toolUseId? = b.toolUseId? ∧
        b'.toolResultId? = b.toolResultId?) bs bs' := by
      refine forall₂_of_mapM (fun b s b' s' hb => ?_) hbs
      cases b with
      | toolResult id content isError =>
        obtain ⟨⟨content', s₂⟩, -, hb⟩ := Option.bind_eq_some_iff.mp hb
        cases hb
        exact ⟨rfl, rfl⟩
      | _ =>
        cases hb
        exact ⟨rfl, rfl⟩
    refine ⟨rfl, filterMap_eq_of_forall₂ (hids.imp fun _ _ => And.left), fun x => ?_⟩
    rw [toolResultIds_blocks, filterMap_eq_of_forall₂ (hids.imp fun _ _ => And.right)]
    rfl

theorem forall₂_sameIds_rewriteResults {σ : Type} {f : String → StateT σ Option String}
    {ms ms' : List Message} {s s' : σ} (h : rewriteResults f ms s = some (ms', s')) :
    List.Forall₂ SameIds ms ms' :=
  forall₂_of_mapM (f := rewriteMessage f) (fun _ _ _ _ hm => sameIds_rewriteMessage hm) h

variable {p : Message}

theorem Answers.placed (h : Answers p m) : Placed p m := fun x hx => (h x).mp hx

theorem placed_of_no_result (h : m.toolResultIds = []) : Placed p m := by
  intro x hx
  rw [h] at hx
  cases hx

theorem answers_of_nil (hp : p.toolUseIds = []) (hm : m.toolResultIds = []) : Answers p m := by
  intro x
  rw [hp, hm]

/-- `Answers` looks at the uses on the left and the results on the right only. -/
theorem Answers.congr_left (h : Answers p m) (hp : p'.toolUseIds = p.toolUseIds) :
    Answers p' m := by
  intro x
  rw [hp]
  exact h x

theorem Answers.result_nil (h : Answers p m) (hp : p.toolUseIds = []) : m.toolResultIds = [] := by
  rw [eq_nil_iff_forall_not_mem]
  intro x hx
  rw [h x, hp] at hx
  cases hx

theorem Answers.use_nil (h : Answers p m) (hm : m.toolResultIds = []) : p.toolUseIds = [] := by
  rw [eq_nil_iff_forall_not_mem]
  intro x hx
  rw [← h x, hm] at hx
  cases hx

theorem Answers.nil_of_same_role (h : Answers m n) (hm : m.RoleOk) (hn : n.RoleOk)
    (hrole : m.role = n.role) : m.toolUseIds = [] ∧ n.toolResultIds = [] := by
  by_cases hr : m.role = .assistant
  · have hres := hn.2 (by rw [← hrole, hr]; decide)
    exact ⟨h.use_nil hres, hres⟩
  · have huse := hm.1 hr
    exact ⟨huse, h.result_nil huse⟩

end Message

open Message

/-- Every message's results answer the tool uses of the message before it. -/
def Paired (ms : List Message) : Prop := (nothing :: (ms ++ [nothing])).IsChain Answers

variable {ms : List Message} {ms' : List Message}

theorem isChain_answers_of_forall₂ (h : List.Forall₂ SameIds ms ms') :
    ∀ {p p' : Message}, p'.toolUseIds = p.toolUseIds →
      (p :: (ms ++ [nothing])).IsChain Answers → (p' :: (ms' ++ [nothing])).IsChain Answers := by
  induction h with
  | nil =>
    intro p p' hp hchain
    exact hchain.imp_head fun {w} hw => hw.congr_left hp
  | cons hmm _ ih =>
    intro p p' hp hchain
    obtain ⟨hpm, hrest⟩ := isChain_cons_cons.mp hchain
    refine isChain_cons_cons.mpr ⟨fun x => ?_, ih hmm.uses hrest⟩
    rw [hmm.results, hp]
    exact hpm x

theorem Paired.of_sameIds (h : List.Forall₂ SameIds ms ms') (hp : Paired ms) : Paired ms' :=
  isChain_answers_of_forall₂ h rfl hp

/-- Pairing as the provider checks it, message by message. -/
structure ToolPaired (ms : List Message) : Prop where
  /-- a result answers a tool use of the assistant message directly before it -/
  result_answers : ∀ (j : ℕ) (m : Message) (x : String), ms[j]? = some m → x ∈ m.toolResultIds →
    ∃ i a, j = i + 1 ∧ ms[i]? = some a ∧ a.role = .assistant ∧ x ∈ a.toolUseIds
  /-- a tool use is answered in the user message directly after it -/
  use_answered : ∀ (i : ℕ) (a : Message) (x : String), ms[i]? = some a → x ∈ a.toolUseIds →
    ∃ u, ms[i + 1]? = some u ∧ u.role = .user ∧ x ∈ u.toolResultIds

theorem isChain_placed_iff :
    (nothing :: ms).IsChain Placed ↔
      ∀ (j : ℕ) (m : Message) (x : String), ms[j]? = some m → x ∈ m.toolResultIds →
        ∃ i a, j = i + 1 ∧ ms[i]? = some a ∧ x ∈ a.toolUseIds := by
  rw [isChain_cons_iff_getElem?]
  refine ⟨?_, ?_⟩
  · rintro ⟨hfirst, hadj⟩ j m x hm hx
    cases j with
    | zero => exact absurd (hfirst m hm x hx) (by simp)
    | succ i =>
      have hlt : i < ms.length := by
        obtain ⟨hlt, -⟩ := List.getElem?_eq_some_iff.mp hm
        omega
      exact ⟨i, ms[i], rfl, getElem?_eq_getElem hlt,
        hadj i _ _ (getElem?_eq_getElem hlt) hm x hx⟩
  · intro h
    refine ⟨fun a ha x hx => ?_, fun i a b ha hb x hx => ?_⟩
    · obtain ⟨i, -, hi, -⟩ := h 0 a x ha hx
      omega
    · obtain ⟨i', a', hi, ha', hx'⟩ := h (i + 1) b x hb hx
      obtain rfl : i = i' := by omega
      rw [ha] at ha'
      cases ha'
      exact hx'

theorem Paired.use_answered (h : Paired ms) (ha : ms[i]? = some a) (hx : x ∈ a.toolUseIds) :
    ∃ u, ms[i + 1]? = some u ∧ x ∈ u.toolResultIds := by
  obtain ⟨hi, rfl⟩ := List.getElem?_eq_some_iff.mp ha
  have hadj := (isChain_cons_iff_getElem?.mp h).2 i ms[i]
  rw [getElem?_append_left hi] at hadj
  rcases Nat.lt_or_ge (i + 1) ms.length with hlt | hge
  · refine ⟨ms[i + 1], getElem?_eq_getElem hlt, ?_⟩
    exact (hadj _ ha (by rw [getElem?_append_left hlt, getElem?_eq_getElem hlt]) x).mpr hx
  · -- the last message is followed by the right frame, which has no results
    have hlen : i + 1 = ms.length := by omega
    have hframe : (ms ++ [nothing])[i + 1]? = some nothing := by
      rw [hlen, getElem?_concat_length]
    exact absurd ((hadj _ ha hframe x).mpr hx) (by simp)

theorem Paired.isChain_placed (h : Paired ms) : (nothing :: ms).IsChain Placed := by
  have hchain : ((nothing :: ms) ++ [nothing]).IsChain Placed := h.imp fun _ _ hab => hab.placed
  exact (isChain_append.mp hchain).1

theorem Paired.toolPaired (h : Paired ms) (hrole : ∀ m ∈ ms, m.RoleOk) : ToolPaired ms := by
  refine ⟨fun j m x hm hx => ?_, fun i a x ha hx => ?_⟩
  · obtain ⟨i, a, hj, ha, hxa⟩ := isChain_placed_iff.mp h.isChain_placed j m x hm hx
    exact ⟨i, a, hj, ha, (hrole a (mem_of_getElem? ha)).role_of_use hxa, hxa⟩
  · obtain ⟨u, hu, hxu⟩ := h.use_answered ha hx
    exact ⟨u, hu, (hrole u (mem_of_getElem? hu)).role_of_result hxu, hxu⟩

end AlloyAgent
