import AlloyAgent.HashTable
import Mathlib.Data.Finset.Card
import Mathlib.Data.Finite.Defs
import Mathlib.Data.Fintype.Order
import Mathlib.Data.List.Dedup
import Mathlib.Logic.Relation
import Mathlib.Order.Bounds.Defs

/-!
# Peeling a graph into layers

A finite set `V` of nodes and a relation `R` (`R a x`: `x` waits for `a`) are peeled from the front:
each layer is the *frontier*, the nodes not yet taken all of whose predecessors are.

* `isGreatest_chain`: the layer of a node is its longest chain;
* `subset_flatten_iff`: when every node has one.
-/

namespace AlloyAgent

open List

universe u

namespace Layering

variable {κ : Type u}

inductive ChainTo (R : κ → κ → Prop) : ℕ → κ → Prop where
  | here (x : κ) : ChainTo R 0 x
  | step {n : ℕ} {a x : κ} (hc : ChainTo R n a) (hax : R a x) : ChainTo R (n + 1) x

theorem ChainTo.trans {R : κ → κ → Prop} (hc : ChainTo R n a) (h : Relation.TransGen R a x) :
    ∃ m, n < m ∧ ChainTo R m x := by
  induction h with
  | single hax => exact ⟨n + 1, n.lt_succ_self, .step hc hax⟩
  | tail _ hbx ih =>
    obtain ⟨m, hnm, hm⟩ := ih
    exact ⟨m + 1, Nat.lt_succ_of_lt hnm, .step hm hbx⟩

/-- A chain is no longer than the rank of its end, in any ranking that grows
along `R`. -/
theorem ChainTo.le_rank {R : κ → κ → Prop} {rank : κ → ℕ} (hrank : ∀ a x, R a x → rank a < rank x)
    (hc : ChainTo R n x) : n ≤ rank x := by
  induction hc with
  | here x => exact Nat.zero_le _
  | step _ hax ih => exact Nat.succ_le_of_lt (lt_of_le_of_lt ih (hrank _ _ hax))

/-- `q` lists, each once, the nodes not in `taken` that wait for nothing outside
`taken`. -/
structure Frontier (V : Finset κ) (R : κ → κ → Prop) (taken q : List κ) : Prop where
  nodup : q.Nodup
  /-- untaken nodes all of whose predecessors are taken -/
  mem_iff : ∀ x, x ∈ q ↔ x ∈ V ∧ x ∉ taken ∧ ∀ a, R a x → a ∈ taken

/-- Layers, each the frontier of the ones before it. -/
inductive Peeled (V : Finset κ) (R : κ → κ → Prop) : List (List κ) → Prop where
  | nil : Peeled V R []
  | snoc {ls : List (List κ)} {q : List κ} (hls : Peeled V R ls)
      (hq : Frontier V R ls.flatten q) : Peeled V R (ls ++ [q])

namespace Peeled

variable {V : Finset κ} {R : κ → κ → Prop} {ls : List (List κ)}

section

variable (h : Peeled V R ls)
include h

theorem nodup_flatten : ls.flatten.Nodup := by
  induction h with
  | nil => simp
  | snoc hls hq ih =>
    rw [flatten_append, flatten_singleton]
    refine List.Nodup.append ih hq.nodup fun x hx hxq => ?_
    exact ((hq.mem_iff x).mp hxq).2.1 hx

theorem mem_of_mem_flatten : ∀ x ∈ ls.flatten, x ∈ V := by
  induction h with
  | nil => simp
  | snoc hls hq ih =>
    intro x hx
    rw [flatten_append, flatten_singleton, mem_append] at hx
    rcases hx with hx | hx
    · exact ih x hx
    · exact ((hq.mem_iff x).mp hx).1

theorem closed : ∀ x ∈ ls.flatten, ∀ a, R a x → a ∈ ls.flatten := by
  induction h with
  | nil => simp
  | snoc hls hq ih =>
    intro x hx a hax
    rw [flatten_append, flatten_singleton, mem_append] at hx ⊢
    rcases hx with hx | hx
    · exact Or.inl (ih x hx a hax)
    · exact Or.inl (((hq.mem_iff x).mp hx).2.2 a hax)

theorem frontier_take : ∀ {i : ℕ} {q : List κ}, ls[i]? = some q →
    Frontier V R (ls.take i).flatten q := by
  induction h with
  | nil => simp
  | @snoc ls q hls hq ih =>
    intro i q' hi
    rcases Nat.lt_trichotomy i ls.length with hlt | rfl | hgt
    · rw [getElem?_append_left hlt] at hi
      rw [take_append_of_le_length hlt.le]
      exact ih hi
    · rw [getElem?_append_right le_rfl, Nat.sub_self, getElem?_cons_zero,
        Option.some.injEq] at hi
      rw [take_left, ← hi]
      exact hq
    · rw [getElem?_eq_none (by simpa using Nat.succ_le_of_lt hgt)] at hi
      cases hi

end

variable {i : ℕ}

theorem mem_flatten_take (ha : a ∈ (ls.take i).flatten) :
    ∃ j l, j < i ∧ ls[j]? = some l ∧ a ∈ l := by
  obtain ⟨l, hl, hal⟩ := mem_flatten.mp ha
  obtain ⟨j, hj⟩ := getElem?_of_mem hl
  rw [getElem?_take] at hj
  split_ifs at hj with hji
  exact ⟨j, l, hji, hj, hal⟩

variable {q : List κ} {x : κ}

section

variable (h : Peeled V R ls)
include h

theorem exists_earlier (hi : ls[i]? = some q) (hx : x ∈ q) (hax : R a x) :
    ∃ j l, j < i ∧ ls[j]? = some l ∧ a ∈ l :=
  mem_flatten_take (((h.frontier_take hi).mem_iff x).mp hx |>.2.2 a hax)

theorem exists_previous (hi : ls[i + 1]? = some q) (hx : x ∈ q) :
    ∃ l a, ls[i]? = some l ∧ a ∈ l ∧ R a x := by
  obtain ⟨hxV, hxold, hpre⟩ := ((h.frontier_take hi).mem_iff x).mp hx
  obtain ⟨hlt, -⟩ := List.getElem?_eq_some_iff.mp hi
  have hl : ls[i]? = some (ls.get ⟨i, by omega⟩) := by simp
  have htake : (ls.take (i + 1)).flatten = (ls.take i).flatten ++ ls.get ⟨i, by omega⟩ := by
    rw [take_add_one, hl, Option.toList_some, flatten_append, flatten_singleton]
  rw [htake, mem_append, not_or] at hxold
  -- otherwise the node would have been in the frontier one layer earlier
  by_contra hnone
  refine hxold.2 (((h.frontier_take hl).mem_iff x).mpr ⟨hxV, hxold.1, fun a hax => ?_⟩)
  have ha := hpre a hax
  rw [htake, mem_append] at ha
  exact ha.resolve_right fun hal => hnone ⟨_, a, hl, hal, hax⟩

theorem chain_le (hc : ChainTo R n x) :
    ∀ {i : ℕ} {q : List κ}, ls[i]? = some q → x ∈ q → n ≤ i := by
  induction hc with
  | here x => intro i q _ _; exact Nat.zero_le i
  | step _ hax ih =>
    intro i q hi hx
    obtain ⟨j, l, hji, hj, hal⟩ := h.exists_earlier hi hx hax
    exact Nat.succ_le_of_lt (lt_of_le_of_lt (ih hj hal) hji)

theorem exists_chain : ∀ (i : ℕ) {q : List κ} {x : κ}, ls[i]? = some q → x ∈ q → ChainTo R i x := by
  intro i
  induction i with
  | zero => intro q x _ _; exact .here x
  | succ i ih =>
    intro q x hi hx
    obtain ⟨l, a, hl, hal, hax⟩ := h.exists_previous hi hx
    exact .step (ih hl hal) hax

/-- **The layer of a node is the length of the longest chain that ends there.** -/
theorem isGreatest_chain (hi : ls[i]? = some q) (hx : x ∈ q) : IsGreatest {n | ChainTo R n x} i :=
  ⟨h.exists_chain i hi hx, fun _ hc => h.chain_le hc hi hx⟩

theorem not_transGen_self (hx : x ∈ ls.flatten) : ¬ Relation.TransGen R x x := by
  intro hcycle
  obtain ⟨q, hq, hxq⟩ := mem_flatten.mp hx
  obtain ⟨i, hi⟩ := getElem?_of_mem hq
  obtain ⟨m, him, hm⟩ := (h.exists_chain i hi hxq).trans hcycle
  exact absurd (h.chain_le hm hi hxq) (Nat.not_le.mpr him)

/-- **When nothing is left to peel**: predecessors are nodes and there is no cycle. -/
theorem subset_flatten_iff (hend : Frontier V R ls.flatten []) (htarget : ∀ a x, R a x → x ∈ V) :
    (∀ x ∈ V, x ∈ ls.flatten) ↔
      (∀ a x, R a x → a ∈ V) ∧ ∀ x, ¬ Relation.TransGen R x x := by
  refine ⟨?_, ?_⟩
  · intro hall
    refine ⟨fun a x hax => ?_, fun x hcycle => ?_⟩
    · exact h.mem_of_mem_flatten a (h.closed x (hall x (htarget a x hax)) a hax)
    · obtain ⟨a, -, hax⟩ := Relation.TransGen.tail'_iff.mp hcycle
      exact h.not_transGen_self (hall x (htarget a x hax)) hcycle
  · rintro ⟨hknown, hacyclic⟩
    by_contra hleft
    push Not at hleft
    obtain ⟨x, hxV, hx⟩ := hleft
    -- a minimal node that was not taken waits for another one that was not
    let below : V → V → Prop := fun a b => Relation.TransGen R a b
    have : IsTrans V below := ⟨fun _ _ _ => Relation.TransGen.trans⟩
    have : Std.Irrefl below := ⟨fun a => hacyclic a⟩
    obtain ⟨m, hm, hmin⟩ := (Finite.wellFounded_of_trans_of_irrefl below).has_min
      {v | (v : κ) ∉ ls.flatten} ⟨⟨x, hxV⟩, hx⟩
    have hfront : ¬ ∀ a, R a m → a ∈ ls.flatten := fun hpre =>
      not_mem_nil ((hend.mem_iff m).mpr ⟨m.2, hm, hpre⟩)
    push Not at hfront
    obtain ⟨a, ham, ha⟩ := hfront
    exact hmin ⟨a, hknown a m ham⟩ ha (.single ham)

end

variable [DecidableEq κ]

theorem toFinset_flatten_subset (h : Peeled V R ls) : ls.flatten.toFinset ⊆ V := fun x hx =>
  h.mem_of_mem_flatten x (mem_toFinset.mp hx)

theorem length_flatten_le (h : Peeled V R ls) : ls.flatten.length ≤ V.card := by
  rw [← toFinset_card_of_nodup h.nodup_flatten]
  exact Finset.card_le_card h.toFinset_flatten_subset

theorem length_flatten_eq_iff (h : Peeled V R ls) :
    ls.flatten.length = V.card ↔ ∀ x ∈ V, x ∈ ls.flatten := by
  rw [← toFinset_card_of_nodup h.nodup_flatten]
  refine ⟨?_, ?_⟩
  · intro hcard x hx
    rw [← Finset.eq_of_subset_of_card_le h.toFinset_flatten_subset hcard.ge,
      mem_toFinset] at hx
    exact hx
  · intro hall
    congr 1
    exact Finset.Subset.antisymm h.toFinset_flatten_subset fun x hx =>
      mem_toFinset.mpr (hall x hx)

end Peeled

section Edges

open Table (valuesAt)

variable [DecidableEq κ]

/-- The edges into `x` whose source has not been taken. -/
def pending (E : List (κ × κ)) (taken : List κ) (x : κ) : ℕ :=
  E.countP fun e => decide (e.2 = x ∧ e.1 ∉ taken)

variable (E : List (κ × κ))

theorem pending_nil (x : κ) : pending E [] x = (E.map Prod.snd).count x := by
  rw [pending, List.count, countP_map]
  exact countP_congr fun e _ => by simp

variable {taken : List κ}

theorem pending_eq_zero {E : List (κ × κ)} :
    pending E taken x = 0 ↔ ∀ a, (a, x) ∈ E → a ∈ taken := by
  rw [pending, countP_eq_zero]
  refine ⟨?_, ?_⟩
  · intro h a ha
    simpa using h (a, x) ha
  · rintro h ⟨a, y⟩ he
    simp only [decide_eq_true_eq, not_and, not_not]
    rintro rfl
    exact h a he

theorem pending_cons (ha : a ∉ taken) (x : κ) :
    pending E taken x = (valuesAt E a).count x + pending E (a :: taken) x := by
  induction E with
  | nil => rfl
  | cons e E ih =>
    simp only [pending, valuesAt, countP_cons, filter_cons, mem_cons] at ih ⊢
    rw [ih]
    by_cases hea : e.1 = a
    · subst hea
      by_cases hex : e.2 = x
      · simp [hex, ha]
        omega
      · simp [hex]
    · simp [hea]
      omega

theorem pending_append (x : κ) :
    ∀ {q taken : List κ}, q.Nodup → (∀ a ∈ q, a ∉ taken) →
      pending E taken x = (q.flatMap (valuesAt E)).count x + pending E (taken ++ q) x := by
  intro q
  induction q with
  | nil => intro taken _ _; simp
  | cons a q ih =>
    intro taken hnodup hnew
    obtain ⟨haq, hq⟩ := nodup_cons.mp hnodup
    have hmem : ∀ b ∈ q, b ∉ a :: taken := by
      intro b hb hb'
      rcases mem_cons.mp hb' with rfl | hb'
      · exact haq hb
      · exact hnew b (mem_cons_of_mem _ hb) hb'
    have hperm : pending E (a :: taken ++ q) x = pending E (taken ++ a :: q) x := by
      refine countP_congr fun e _ => ?_
      simp only [cons_append, mem_cons, mem_append, or_left_comm]
    rw [pending_cons E (hnew a mem_cons_self) x, ih hq hmem, hperm, flatMap_cons,
      count_append, Nat.add_assoc]

/-- The next frontier: the nodes with pending edges before the layer `q` and none after. -/
theorem frontier_append {E : List (κ × κ)} {next : List κ}
    (hclosed : ∀ x ∈ taken, ∀ a, (a, x) ∈ E → a ∈ taken)
    (hq : Frontier V (fun a x => (a, x) ∈ E) taken q) (hnodup : next.Nodup) (hnext : ∀ x, x ∈ next ↔
      x ∈ V ∧ 0 < pending E taken x ∧ pending E (taken ++ q) x = 0) :
    Frontier V (fun a x => (a, x) ∈ E) (taken ++ q) next := by
  refine ⟨hnodup, fun x => ?_⟩
  rw [hnext, pending_eq_zero, Nat.pos_iff_ne_zero, Ne, pending_eq_zero, mem_append, not_or]
  refine ⟨?_, ?_⟩
  · rintro ⟨hxV, hwait, hdone⟩
    exact ⟨hxV, ⟨fun hx => hwait (hclosed x hx), fun hx => hwait ((hq.mem_iff x).mp hx).2.2⟩, hdone⟩
  · rintro ⟨hxV, ⟨hxtaken, hxq⟩, hdone⟩
    exact ⟨hxV, fun hpre => hxq ((hq.mem_iff x).mpr ⟨hxV, hxtaken, hpre⟩), hdone⟩

end Edges

end Layering

end AlloyAgent
