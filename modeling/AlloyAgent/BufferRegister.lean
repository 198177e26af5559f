import AlloyAgent.HashTable
import AlloyAgent.Transition

/-!
# Passing buffers by reference

A `DataBuffer` of AlloyStack stands in a block of the buffer heap.

* `step`: buffers are created, passed on and dropped; `Inv` holds in any case;
* `balanced_throughout_iff`: in which runs every block is accounted for.
-/

namespace AlloyAgent.BufferRegister

open List Transition

/-- A live `DataBuffer`. The value of a type without size is not in a block of the heap. -/
structure DataBuffer where
  block : Option ℕ
  used : Bool

structure Memory where
  /-- the blocks that `buffer_alloc` has handed out and that have not been deallocated -/
  heap : List ℕ
  /-- `BUFFER_REGISTER`: the block of a slot and the fingerprint of its type -/
  register : Table String (ℕ × ℕ)
  buffers : List DataBuffer
  /-- the blocks that have been delivered to a taker -/
  delivered : List ℕ
  /-- the blocks for which `buffer_dealloc` was called -/
  freed : List ℕ

def new : Memory := ⟨[], ∅, [], [], []⟩

inductive Event where
  | withSlot (slot : String) (size fingerprint addr : ℕ)
  | fromBufferSlot (slot : String) (fingerprint : ℕ)
  | drop (i : ℕ)

def step (m : Memory) : Event → Option Memory
  | .withSlot slot size fingerprint addr =>
    if size = 0 then some { m with buffers := ⟨none, false⟩ :: m.buffers }
    -- the allocator hands out a block that is free
    else if addr ∈ m.heap then none
    else
      some { m with
        heap := addr :: m.heap
        register := m.register.insert slot (addr, fingerprint)
        buffers := ⟨some addr, false⟩ :: m.buffers }
  | .fromBufferSlot slot fingerprint =>
    match m.register.lookup slot with
    | none => some m
    | some (addr, registered) =>
      let m := { m with register := m.register.erase slot }
      -- the wrong type is a panic, after the entry has been removed
      if registered ≠ fingerprint then some m
      else
        some { m with
          buffers := ⟨some addr, false⟩ :: m.buffers
          delivered := addr :: m.delivered }
  | .drop i => do
    let b ← m.buffers[i]?
    let m := { m with buffers := m.buffers.eraseIdx i }
    match b.used, b.block with
    | true, some addr =>
      return { m with heap := m.heap.erase addr, freed := addr :: m.freed }
    | _, _ => return m

def Registered (m : Memory) (a : ℕ) : Prop := ∃ slot fp, m.register.lookup slot = some (a, fp)

def Owned (buffers : List DataBuffer) (a : ℕ) : Prop := ∃ b ∈ buffers, b.block = some a

/-- Every block is registered or owned, and is deallocated and delivered once at most. -/
structure Balanced (m : Memory) : Prop where
  covered : ∀ a ∈ m.heap, Registered m a ∨ Owned m.buffers a
  one_slot : ∀ slot slot' a fp fp', m.register.lookup slot = some (a, fp) →
    m.register.lookup slot' = some (a, fp') → slot = slot'
  freed_once : m.freed.Nodup
  delivered_once : m.delivered.Nodup

/-- A slot is filled again, and a buffer dropped, only if its block has another owner. -/
def Keeps (m : Memory) : Event → Prop
  | .withSlot slot size _ _ =>
    size ≠ 0 → ∀ a fp, m.register.lookup slot = some (a, fp) → Owned m.buffers a
  | .fromBufferSlot slot fingerprint =>
    ∀ a fp, m.register.lookup slot = some (a, fp) → fp ≠ fingerprint → Owned m.buffers a
  | .drop i =>
    ∀ b ∈ m.buffers[i]?, ∀ a ∈ b.block, Registered m a ∨ Owned (m.buffers.eraseIdx i) a

/-- What holds in any case. -/
structure Inv (m : Memory) : Prop where
  registered_mem : ∀ slot a fp, m.register.lookup slot = some (a, fp) → a ∈ m.heap ∧ a ∉ m.delivered
  one_slot : ∀ slot slot' a fp fp', m.register.lookup slot = some (a, fp) →
    m.register.lookup slot' = some (a, fp') → slot = slot'
  buffer : ∀ b ∈ m.buffers, b.used = false ∧ ∀ a ∈ b.block, a ∈ m.heap
  delivered_mem : ∀ a ∈ m.delivered, a ∈ m.heap
  delivered_once : m.delivered.Nodup
  freed_nil : m.freed = []

theorem Inv.step (m : Memory) (e : Event) (m' : Memory) (h : Inv m)
    (hstep : step m e = some m') : Inv m' := by
  obtain ⟨h₁, h₂, h₃, h₄, h₅, h₆⟩ := h
  cases e with
  | withSlot slot size fingerprint addr =>
    simp only [BufferRegister.step] at hstep
    split_ifs at hstep with hsize hfresh <;> cases hstep
    · constructor <;> grind
    · constructor <;> grind [Table.lookup_insert_eq]
  | fromBufferSlot slot fingerprint =>
    simp only [BufferRegister.step] at hstep
    split at hstep
    · cases hstep
      exact ⟨h₁, h₂, h₃, h₄, h₅, h₆⟩
    · split_ifs at hstep <;> cases hstep
      · constructor <;> grind [Table.lookup_erase_eq]
      · constructor <;> grind [Table.lookup_erase_eq]
  | drop i =>
    obtain ⟨b, hb, hstep⟩ := Option.bind_eq_some_iff.mp hstep
    rw [(h₃ b (mem_of_getElem? hb)).1] at hstep
    cases hstep
    exact ⟨h₁, h₂, fun b hb => h₃ b (mem_of_mem_eraseIdx hb), h₄, h₅, h₆⟩

/-- A block that loses its slot was in no other one, and needs an owner. -/
theorem forall_elsewhere_iff (hinv : Inv m)
    (hcovered : ∀ a ∈ m.heap, Registered m a ∨ Owned m.buffers a) (slot : String) :
    (∀ a ∈ m.heap, (∃ slot' fp, slot' ≠ slot ∧ m.register.lookup slot' = some (a, fp)) ∨
        Owned m.buffers a) ↔
      ∀ a fp, m.register.lookup slot = some (a, fp) → Owned m.buffers a := by
  constructor
  · intro h a fp hslot
    refine (h a (hinv.registered_mem slot a fp hslot).1).resolve_left ?_
    rintro ⟨slot', fp', hne, hslot'⟩
    exact hne (hinv.one_slot slot' slot a fp' fp hslot' hslot)
  · intro h a ha
    rcases hcovered a ha with ⟨slot', fp, hslot'⟩ | hown
    · by_cases hs : slot' = slot
      · exact .inr (h a fp (hs ▸ hslot'))
      · exact .inl ⟨slot', fp, hs, hslot'⟩
    · exact .inr hown

theorem balanced_step (m : Memory) (e : Event) (m' : Memory) (hinv : Inv m) (h : Balanced m)
    (hstep : step m e = some m') : Balanced m' ↔ Keeps m e := by
  have hinv' := hinv.step m e m' hstep
  have hiff : Balanced m' ↔ ∀ a ∈ m'.heap, Registered m' a ∨ Owned m'.buffers a :=
    ⟨Balanced.covered, fun hcovered => ⟨hcovered, hinv'.one_slot, hinv'.freed_nil ▸ nodup_nil,
      hinv'.delivered_once⟩⟩
  rw [hiff]
  clear hiff hinv'
  have hcovered := h.covered
  cases e with
  | withSlot slot size fingerprint addr =>
    simp only [BufferRegister.step] at hstep
    split_ifs at hstep with hsize hfresh <;> cases hstep
    · refine iff_of_true (fun a ha => (hcovered a ha).imp_right ?_) (absurd hsize)
      exact fun ⟨b, hb, hblock⟩ => ⟨b, mem_cons_of_mem _ hb, hblock⟩
    · rw [Keeps, imp_iff_right hsize, ← forall_elsewhere_iff hinv hcovered, forall_mem_cons,
        and_iff_right (.inl ⟨slot, fingerprint, AList.lookup_insert _⟩)]
      refine forall₂_congr fun a ha => ?_
      have hne : addr ≠ a := fun heq => hfresh (heq ▸ ha)
      simp only [Registered, Owned, Table.lookup_insert_eq, exists_mem_cons_iff]
      grind
  | fromBufferSlot slot fingerprint =>
    simp only [BufferRegister.step] at hstep
    split at hstep
    · rename_i hnone
      cases hstep
      exact iff_of_true hcovered fun a fp hslot => nomatch hnone.symm.trans hslot
    · rename_i addr fp hslot
      split_ifs at hstep with hfp <;> cases hstep
      · have hkeeps : Keeps m (.fromBufferSlot slot fingerprint) ↔
            ∀ a fp, m.register.lookup slot = some (a, fp) → Owned m.buffers a := by
          simp [Keeps, hslot, hfp]
        rw [hkeeps, ← forall_elsewhere_iff hinv hcovered]
        simp only [Registered, Table.lookup_erase_eq]
        grind
      · -- the block that loses its slot gets the new buffer for an owner
        simp only [Keeps, Registered, Owned, Table.lookup_erase_eq, exists_mem_cons_iff]
          at hcovered ⊢
        grind
  | drop i =>
    obtain ⟨b, hb, hstep⟩ := Option.bind_eq_some_iff.mp hstep
    obtain ⟨hunused, hblock⟩ := hinv.buffer b (mem_of_getElem? hb)
    rw [hunused] at hstep
    cases hstep
    have howned (a : ℕ) :
        Owned m.buffers a ↔ b.block = some a ∨ Owned (m.buffers.eraseIdx i) a := by
      obtain ⟨hi, rfl⟩ := List.getElem?_eq_some_iff.mp hb
      simp only [Owned, ← (getElem_cons_eraseIdx_perm hi).mem_iff, exists_mem_cons_iff]
    refine ⟨fun hcovered' b' hb' a ha => ?_, fun hkeeps a ha => ?_⟩
    · cases hb.symm.trans hb'
      exact hcovered' a (hblock a ha)
    · rcases hcovered a ha with hreg | hown
      · exact .inl hreg
      · exact ((howned a).mp hown).elim (hkeeps b hb a) .inr

/-- **When buffers are accounted for**: every event keeps a holder for each block. -/
theorem balanced_throughout_iff (es : List Event) (m : Memory) (hrun : run step new es = some m) :
    Throughout step Balanced new es ↔ Guarded step Keeps new es := by
  have hnew : Balanced new := ⟨nofun, nofun, nodup_nil, nodup_nil⟩
  have hinv : Inv new := ⟨nofun, nofun, nofun, nofun, nodup_nil, rfl⟩
  exact throughout_iff_guarded_of_inv Inv.step balanced_step es hinv hnew hrun

def passed : List Event :=
  [.withSlot "slot" 8 1 4096, .fromBufferSlot "slot" 1, .drop 0, .drop 0]

/-- Its block stays in the heap. -/
theorem block_lost :
    (run step new passed).map (fun m => (m.heap, m.register.keys, m.buffers.length)) =
      some ([4096], [], 0) := by
  decide

theorem passed_unbalanced : ¬ Throughout step Balanced new passed := by
  obtain ⟨m, hrun⟩ : ∃ m, run step new passed = some m := ⟨_, rfl⟩
  rw [balanced_throughout_iff passed m hrun]
  rintro ⟨-, hguarded⟩
  obtain ⟨-, hguarded⟩ := hguarded _ rfl
  obtain ⟨-, hguarded⟩ := hguarded _ rfl
  rcases (hguarded _ rfl).1 _ rfl 4096 rfl with ⟨slot, fp, hslot⟩ | ⟨b, hb, -⟩
  · cases hslot
  · cases hb

end AlloyAgent.BufferRegister
