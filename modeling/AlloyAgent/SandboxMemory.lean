import AlloyAgent.Outcome
import AlloyAgent.Transition

/-!
# The memory of a WASM guest

`execute_sync` and the host functions of `openfang-runtime/src/sandbox.rs` read and write the linear
memory of a guest at places that the guest names.

* `range`, `access`: the test before an access, and the access;
* `range_panic_iff`, `range_eq_ok`: how an access can end;
* `guest_contained_iff`: no run harms the host, if no sum leaves the 64 bits.
-/

namespace AlloyAgent

open Transition

namespace Sandbox

/-- The bytes of one allocation: no allocation has more than `isize::MAX` of them. -/
structure Buffer where
  bytes : List UInt8
  fits : bytes.length < 2 ^ 63

namespace Buffer

def size (b : Buffer) : ℕ := b.bytes.length

theorem size_lt (b : Buffer) : b.size < 2 ^ 63 := b.fits

def read (b : Buffer) (start stop : ℕ) : List UInt8 := (b.bytes.take stop).drop start

/-- `data[start..].copy_from_slice(source)`: the other bytes stay. -/
def write (b : Buffer) (start : ℕ) (source : List UInt8) : Buffer where
  bytes := b.bytes.mapIdx fun i byte => if start ≤ i then source.getD (i - start) byte else byte
  fits := by
    rw [List.length_mapIdx]
    exact b.fits

end Buffer

/-- `as usize` of an `i32`. -/
def asUsize (x : BitVec 32) : ℕ := (x.signExtend 64).toNat

theorem asUsize_lt (x : BitVec 32) : asUsize x < Usize.size := (x.signExtend 64).isLt

theorem asUsize_eq (h : asUsize x < 2 ^ 63) : asUsize x = x.toNat := by
  rw [asUsize, BitVec.toNat_signExtend, BitVec.toNat_setWidth] at h ⊢
  split at h
  · omega
  · rw [if_neg ‹_›]
    omega

/-- `ptr` and `len` are what the guest means, `start` and `count` what the host uses. -/
structure Pair where
  ptr : ℕ
  len : ℕ
  start : ℕ
  count : ℕ
  start_lt : start < Usize.size
  count_lt : count < Usize.size
  start_eq : start < 2 ^ 63 → start = ptr
  count_eq : count < 2 ^ 63 → count = len

namespace Pair

def ofSigned (ptr len : BitVec 32) : Pair where
  ptr := ptr.toNat
  len := len.toNat
  start := asUsize ptr
  count := asUsize len
  start_lt := asUsize_lt ptr
  count_lt := asUsize_lt len
  start_eq := asUsize_eq
  count_eq := asUsize_eq

/-- A pointer from `alloc`, for bytes of the host. -/
def ofBuffer (ptr : BitVec 32) (source : Buffer) : Pair where
  ptr := ptr.toNat
  len := source.size
  start := asUsize ptr
  count := source.size
  start_lt := asUsize_lt ptr
  count_lt := source.size_lt.trans (by decide)
  start_eq := asUsize_eq
  count_eq := fun _ => rfl

theorem sshiftRight_eq (packed : BitVec 64) :
    packed.sshiftRight 32 = (packed.extractLsb' 32 32).signExtend 64 := by
  apply BitVec.eq_of_getLsbD_eq
  intro i hi
  rw [BitVec.getLsbD_sshiftRight, BitVec.getLsbD_signExtend, BitVec.getLsbD_extractLsb',
    BitVec.msb_eq_getLsbD_last, BitVec.msb_eq_getLsbD_last, BitVec.getLsbD_extractLsb']
  by_cases hlow : i < 32
  · have hbound : 32 + i < 64 := by omega
    simp [hi, hlow, hbound]
  · have hbound : ¬ 32 + i < 64 := by omega
    simp [hi, hlow, hbound]

/-- What `execute` returns: the pointer in the high half, the length in the low half. -/
def ofPacked (packed : BitVec 64) : Pair where
  ptr := (packed.extractLsb' 32 32).toNat
  len := (packed.extractLsb' 0 32).toNat
  start := (packed.sshiftRight 32).toNat
  count := (packed &&& 0xFFFFFFFF#64).toNat
  start_lt := (packed.sshiftRight 32).isLt
  count_lt := (packed &&& 0xFFFFFFFF#64).isLt
  start_eq := by
    rw [sshiftRight_eq]
    exact asUsize_eq
  count_eq := by
    intro _
    rw [BitVec.toNat_and, BitVec.extractLsb'_toNat, Nat.shiftRight_zero]
    exact Nat.and_two_pow_sub_one_eq_mod packed.toNat 32

end Pair

inductive Panic where
  /-- attempt to add with overflow -/
  | overflow
  /-- the start of a slice is after its end -/
  | sliceOrder
  deriving DecidableEq

inductive Failure where
  | panic (p : Panic)
  | error (message : String)
  deriving DecidableEq

/-- The test before an access to a memory, and the slice that is taken after it. -/
def range (checks : Bool) (size : ℕ) (pair : Pair) (message : String) :
    Except Failure (ℕ × ℕ) :=
  match Usize.add checks pair.start pair.count with
  | .error _ => .error (.panic .overflow)
  | .ok stop =>
    if stop > size then .error (.error message)
    else if pair.start > stop then .error (.panic .sliceOrder)
    else .ok (pair.start, stop)

/-- The sum stays within the 64 bits, or wraps around to an end that is outside the memory. -/
def Fits (checks : Bool) (size : ℕ) (pair : Pair) : Prop :=
  pair.start + pair.count < Usize.size ∨
    (checks = false ∧ size < pair.start + pair.count - Usize.size)

instance decidableFits (checks : Bool) (size : ℕ) (pair : Pair) :
    Decidable (Fits checks size pair) :=
  inferInstanceAs (Decidable (_ ∨ _))

variable {checks : Bool} {pair : Pair} {message : String} {size : ℕ}

theorem range_of_lt (h : pair.start + pair.count < Usize.size) :
    range checks size pair message =
      if pair.start + pair.count > size then .error (.error message)
      else .ok (pair.start, pair.start + pair.count) := by
  have horder : ¬ pair.start > pair.start + pair.count := by omega
  rw [range, Usize.add_of_lt checks h]
  dsimp only
  rw [if_neg horder]

/-- With overflow checks the addition panics. -/
theorem range_overflow (h : Usize.size ≤ pair.start + pair.count) :
    range true size pair message = .error (.panic .overflow) := by
  rw [range, Usize.add, if_neg (Nat.not_lt.mpr h), if_pos rfl]

theorem range_wrapped (h : Usize.size ≤ pair.start + pair.count) :
    range false size pair message =
      if pair.start + pair.count - Usize.size > size then .error (.error message)
      else .error (.panic .sliceOrder) := by
  have hstart := pair.start_lt
  have hcount := pair.count_lt
  have hmod : (pair.start + pair.count) % Usize.size = pair.start + pair.count - Usize.size := by
    rw [Nat.mod_eq_sub_mod h, Nat.mod_eq_of_lt (by omega)]
  have horder : pair.start > pair.start + pair.count - Usize.size := by omega
  rw [range, Usize.add, if_neg (Nat.not_lt.mpr h), if_neg Bool.false_ne_true, hmod]
  dsimp only
  rw [if_pos horder]

/-- **When the host panics.** -/
theorem range_panic_iff :
    (∃ p, range checks size pair message = .error (.panic p)) ↔ ¬ Fits checks size pair := by
  rw [Fits]
  rcases Nat.lt_or_ge (pair.start + pair.count) Usize.size with hlt | hge
  · rw [range_of_lt hlt]
    refine iff_of_false ?_ (not_not_intro (.inl hlt))
    rintro ⟨p, hp⟩
    split at hp <;> cases hp
  · have hover : ¬ pair.start + pair.count < Usize.size := Nat.not_lt.mpr hge
    cases checks with
    | true =>
      rw [range_overflow hge]
      simp [hover]
    | false =>
      rw [range_wrapped hge]
      split
      · rename_i hout
        simp [hover, hout]
      · rename_i hin
        simp [hover, hin]

/-- **An access that takes place is the one that is meant.** -/
theorem range_eq_ok {memory : Buffer} {r : ℕ × ℕ}
    (h : range checks memory.size pair message = .ok r) :
    r = (pair.ptr, pair.ptr + pair.len) ∧ pair.ptr + pair.len ≤ memory.size := by
  rcases Nat.lt_or_ge (pair.start + pair.count) Usize.size with hlt | hge
  · rw [range_of_lt hlt] at h
    split at h
    · cases h
    · -- an end within the memory leaves no room for a negative pointer or length
      have hsize := memory.size_lt
      have hstart := pair.start_eq (by omega)
      have hcount := pair.count_eq (by omega)
      rw [← hstart, ← hcount]
      exact ⟨(Except.ok.inj h).symm, by omega⟩
  · cases checks with
    | true =>
      rw [range_overflow hge] at h
      cases h
    | false =>
      rw [range_wrapped hge] at h
      split at h <;> cases h

/-- Configuration for a WASM sandbox instance. -/
structure SandboxConfig where
  fuelLimit : ℕ := 1000000
  timeoutSecs : Option ℕ := none

def SandboxConfig.timeout (config : SandboxConfig) : ℕ := config.timeoutSecs.getD 30

inductive SandboxError where
  | compilation (e : String)
  | instantiation (e : String)
  | execution (e : String)
  | fuelExhausted
  | abiError (e : String)
  deriving DecidableEq

/-- The traps that the host tells apart. -/
inductive Trap where
  | outOfFuel
  | interrupt
  deriving DecidableEq

/-- The error of a call into the guest: its text, and the trap behind it. -/
structure GuestError where
  trap : Option Trap
  text : String

def SandboxConfig.executeError (config : SandboxConfig) (e : GuestError) : SandboxError :=
  match e.trap with
  | some .outOfFuel => .fuelExhausted
  | some .interrupt =>
    .execution s!"WASM execution timed out after {config.timeout}s (epoch interrupt)"
  | none => .execution e.text

structure ExecutionResult (J : Type) where
  output : J
  fuelConsumed : ℕ

/-- An export that a module must have and has not, or not with the right type. -/
inductive MissingExport where
  | memory
  | alloc (e : String)
  | execute (e : String)

def MissingExport.text : MissingExport → String
  | .memory => "Module must export 'memory'"
  | .alloc e => s!"Module must export 'alloc(i32)->i32': {e}"
  | .execute e => s!"Module must export 'execute(i32,i32)->i64': {e}"

/-- A guest call that the host waits for; the second `alloc` is for a response. -/
inductive Frame where
  | instantiate
  | allocInput
  | execute
  | allocResponse (response : Buffer)

structure Access where
  pair : Pair
  start : ℕ
  stop : ℕ
  size : ℕ

inductive Outcome (J : Type) where
  | panicked (p : Panic)
  | returned (result : Except SandboxError (ExecutionResult J))

/-- `waiting` begins with the innermost call, and `answers` are what `host_call` has returned. -/
structure Execution (J : Type) where
  input : Buffer
  memory : Buffer
  waiting : List Frame
  accesses : List Access
  answers : List (BitVec 64)
  outcome : Option (Outcome J)

variable {J : Type}

def Execution.start (input memory : Buffer) : Execution J :=
  ⟨input, memory, [.instantiate], [], [], none⟩

def Execution.returns (s : Execution J) (result : Except SandboxError (ExecutionResult J)) :
    Execution J :=
  { s with waiting := [], outcome := some (.returned result) }

/-- A call into the guest fails, and the error passes through all host functions. -/
def Execution.unwind (config : SandboxConfig) (s : Execution J) (e : GuestError) : Execution J :=
  match s.waiting.getLast? with
  | some .instantiate => s.returns (.error (.instantiation e.text))
  | some .execute => s.returns (.error (config.executeError e))
  | _ => s.returns (.error (.abiError s!"alloc call failed: {e.text}"))

/-- Access the range of a pair: `fail` is done if the test fails, `act` with the range. -/
def Execution.access (checks : Bool) (s : Execution J) (pair : Pair) (message : String)
    (fail : String → Execution J) (act : ℕ → ℕ → Execution J → Execution J) : Execution J :=
  match range checks s.memory.size pair message with
  | .error (.panic p) => { s with waiting := [], outcome := some (.panicked p) }
  | .error (.error m) => fail m
  | .ok (start, stop) =>
    act start stop { s with accesses := s.accesses ++ [⟨pair, start, stop, s.memory.size⟩] }

/-- `((ptr as i64) << 32) | (len as i64)`, with the length cut to an `i32`. -/
def pack (ptr : BitVec 32) (len : ℕ) : BitVec 64 :=
  (ptr.signExtend 64 <<< 32) ||| (BitVec.ofNat 32 len).signExtend 64

/-- What a guest does next; a `trap` is any other error. -/
inductive Event where
  | memory (m : Buffer)
  | instantiated (missing : Option MissingExport)
  | hostCall (requestPtr requestLen : BitVec 32) (respond : List UInt8 → Except String Buffer)
  | hostLog (msgPtr msgLen : BitVec 32)
  | allocReturns (ptr : BitVec 32)
  | executeReturns (packed : BitVec 64) (fuelRemaining : ℕ)
  | trap (e : GuestError)

section

variable (checks : Bool) (config : SandboxConfig) (fromSlice : List UInt8 → Except String J)

/-- `host_call` up to its own call of `alloc`. -/
def hostCall (s : Execution J) (requestPtr requestLen : BitVec 32)
    (respond : List UInt8 → Except String Buffer) : Execution J :=
  s.access checks (.ofSigned requestPtr requestLen) "host_call: request out of bounds"
    (fun m => s.unwind config ⟨none, m⟩) fun start stop s =>
      match respond (s.memory.read start stop) with
      | .error e => s.unwind config ⟨none, e⟩
      | .ok response => { s with waiting := .allocResponse response :: s.waiting }

/-- The end of `host_call`: write the response. -/
def hostCallEnd (s : Execution J) (ptr : BitVec 32) (response : Buffer) (rest : List Frame) :
    Execution J :=
  s.access checks (.ofBuffer ptr response) "host_call: response exceeds memory bounds"
    (fun m => s.unwind config ⟨none, m⟩) fun start _ s =>
      { s with
        memory := s.memory.write start response.bytes
        waiting := rest
        answers := s.answers ++ [pack ptr response.size] }

def hostLog (s : Execution J) (msgPtr msgLen : BitVec 32) : Execution J :=
  s.access checks (.ofSigned msgPtr msgLen) "host_log: pointer out of bounds"
    (fun m => s.unwind config ⟨none, m⟩) fun _ _ s => s

/-- `execute_sync` between its two calls into the guest: write the input. -/
def writeInput (s : Execution J) (ptr : BitVec 32) : Execution J :=
  s.access checks (.ofBuffer ptr s.input) "Input exceeds memory bounds"
    (fun m => s.returns (.error (.abiError m))) fun start _ s =>
      { s with memory := s.memory.write start s.input.bytes, waiting := [.execute] }

/-- The end of `execute_sync`: read the result. -/
def readResult (s : Execution J) (packed : BitVec 64) (fuelRemaining : ℕ) : Execution J :=
  s.access checks (.ofPacked packed) "Result pointer out of bounds"
    (fun m => s.returns (.error (.abiError m))) fun start stop s =>
      match fromSlice (s.memory.read start stop) with
      | .error e => s.returns (.error (.abiError s!"Invalid JSON output from guest: {e}"))
      | .ok output => s.returns (.ok ⟨output, config.fuelLimit - fuelRemaining⟩)

/-- `execute_sync` between the instantiation and the call of `alloc`. -/
def retrieveExports (s : Execution J) : Option MissingExport → Execution J
  | some missing => s.returns (.error (.abiError missing.text))
  | none => { s with waiting := [.allocInput] }

/-- One event; `none` if it cannot come next. -/
def stepGuest (s : Execution J) (e : Event) : Option (Execution J) :=
  match e, s.waiting with
  | _, [] => none
  | .memory m, _ => some { s with memory := m }
  | .instantiated missing, .instantiate :: _ => some (retrieveExports s missing)
  | .hostCall ptr len respond, _ => some (hostCall checks config s ptr len respond)
  | .hostLog ptr len, _ => some (hostLog checks config s ptr len)
  | .allocReturns ptr, .allocInput :: _ => some (writeInput checks s ptr)
  | .allocReturns ptr, .allocResponse response :: rest =>
    some (hostCallEnd checks config s ptr response rest)
  | .executeReturns packed fuelRemaining, .execute :: _ =>
    some (readResult checks config fromSlice s packed fuelRemaining)
  | .trap e, _ => some (s.unwind config e)
  | _, _ => none

end

/-! ## What a guest can do to the host -/

/-- The host has not panicked, and every access was to the range that was designated. -/
structure Contained (s : Execution J) : Prop where
  running : ∀ p, s.outcome ≠ some (.panicked p)
  exact : ∀ a ∈ s.accesses, a.start = a.pair.ptr ∧ a.stop = a.pair.ptr + a.pair.len ∧
    a.stop ≤ a.size

def Event.pair? (s : Execution J) (e : Event) : Option Pair :=
  match e, s.waiting with
  | .hostCall ptr len _, _ => some (.ofSigned ptr len)
  | .hostLog ptr len, _ => some (.ofSigned ptr len)
  | .allocReturns ptr, .allocInput :: _ => some (.ofBuffer ptr s.input)
  | .allocReturns ptr, .allocResponse response :: _ => some (.ofBuffer ptr response)
  | .executeReturns packed _, _ => some (.ofPacked packed)
  | _, _ => none

/-- The pair of an event does not leave the 64 bits. -/
def StaysInRange (checks : Bool) (s : Execution J) (e : Event) : Prop :=
  ∀ pair, e.pair? s = some pair → Fits checks s.memory.size pair

variable {s : Execution J}

section

variable (h : Contained s)
include h

theorem Contained.congr {s' : Execution J} (haccesses : s'.accesses = s.accesses)
    (hrunning : ∀ p, s'.outcome ≠ some (.panicked p)) : Contained s' :=
  ⟨hrunning, haccesses ▸ h.exact⟩

theorem Contained.returns (result : Except SandboxError (ExecutionResult J)) :
    Contained (s.returns result) := by
  refine h.congr rfl ?_
  rintro p ⟨⟩

theorem Contained.unwind (config : SandboxConfig) (e : GuestError) :
    Contained (s.unwind config e) := by
  rw [Execution.unwind]
  split <;> exact h.returns _

theorem Contained.retrieveExports (missing : Option MissingExport) :
    Contained (Sandbox.retrieveExports s missing) := by
  cases missing with
  | some missing => exact h.returns _
  | none => exact h.congr rfl h.running

theorem contained_access {fail : String → Execution J} {act : ℕ → ℕ → Execution J → Execution J}
    (hfail : ∀ m, Contained (fail m))
    (hact : ∀ start stop s, Contained s → Contained (act start stop s)) :
    Contained (s.access checks pair message fail act) ↔ Fits checks s.memory.size pair := by
  have hpanic : (∃ p, range checks s.memory.size pair message = .error (.panic p)) ↔
      ¬ Fits checks s.memory.size pair := range_panic_iff
  rw [← not_iff_not, ← hpanic, Execution.access]
  match hrange : range checks s.memory.size pair message with
  | .error (.panic p) => exact iff_of_true (fun hc => hc.running p rfl) ⟨p, rfl⟩
  | .error (.error m) => exact iff_of_false (not_not_intro (hfail m)) fun ⟨p, hp⟩ => nomatch hp
  | .ok (start, stop) =>
    refine iff_of_false (not_not_intro (hact _ _ _ ⟨h.running, ?_⟩)) fun ⟨p, hp⟩ => nomatch hp
    intro a ha
    rcases List.mem_append.mp ha with ha | ha
    · exact h.exact a ha
    · obtain ⟨heq, hle⟩ := range_eq_ok hrange
      cases heq
      rw [List.mem_singleton.mp ha]
      exact ⟨rfl, rfl, hle⟩

end

variable {config : SandboxConfig} {fromSlice : List UInt8 → Except String J}

section

variable (h : Contained s)
include h

theorem contained_hostCall (ptr len : BitVec 32) (respond : List UInt8 → Except String Buffer) :
    Contained (hostCall checks config s ptr len respond) ↔
      Fits checks s.memory.size (.ofSigned ptr len) := by
  refine contained_access h (fun m => h.unwind config _) fun start stop s hs => ?_
  split
  · exact hs.unwind config _
  · exact hs.congr rfl hs.running

theorem contained_hostCallEnd (ptr : BitVec 32) (response : Buffer) (rest : List Frame) :
    Contained (hostCallEnd checks config s ptr response rest) ↔
      Fits checks s.memory.size (.ofBuffer ptr response) :=
  contained_access h (fun _ => h.unwind config _) fun _ _ _ hs => hs.congr rfl hs.running

theorem contained_hostLog (ptr len : BitVec 32) :
    Contained (hostLog checks config s ptr len) ↔
      Fits checks s.memory.size (.ofSigned ptr len) :=
  contained_access h (fun _ => h.unwind config _) fun _ _ _ hs => hs

theorem contained_writeInput (ptr : BitVec 32) :
    Contained (writeInput checks s ptr) ↔ Fits checks s.memory.size (.ofBuffer ptr s.input) :=
  contained_access h (fun _ => h.returns _) fun _ _ _ hs => hs.congr rfl hs.running

theorem contained_readResult (packed : BitVec 64) (fuelRemaining : ℕ) :
    Contained (readResult checks config fromSlice s packed fuelRemaining) ↔
      Fits checks s.memory.size (.ofPacked packed) := by
  refine contained_access h (fun m => h.returns _) fun start stop s hs => ?_
  split
  · exact hs.returns _
  · exact hs.returns _

end

theorem contained_step (s : Execution J) (e : Event) (s' : Execution J) (h : Contained s)
    (hstep : stepGuest checks config fromSlice s e = some s') :
    Contained s' ↔ StaysInRange checks s e := by
  have hnone (hpair : e.pair? s = none) : StaysInRange checks s e := fun pair hp =>
    nomatch hpair.symm.trans hp
  have hsome {pair : Pair} (hpair : e.pair? s = some pair) :
      StaysInRange checks s e ↔ Fits checks s.memory.size pair :=
    ⟨fun hr => hr pair hpair, fun hf p hp => Option.some.inj (hpair.symm.trans hp) ▸ hf⟩
  unfold stepGuest at hstep
  split at hstep
  · cases hstep
  · cases hstep
    exact iff_of_true (h.congr rfl h.running) (hnone rfl)
  · cases hstep
    exact iff_of_true (h.retrieveExports _) (hnone rfl)
  · cases hstep
    exact (contained_hostCall h _ _ _).trans (hsome rfl).symm
  · cases hstep
    exact (contained_hostLog h _ _).trans (hsome rfl).symm
  · rename_i hwaiting
    cases hstep
    refine (contained_writeInput h _).trans (hsome ?_).symm
    simp only [Event.pair?, hwaiting]
  · rename_i hwaiting
    cases hstep
    refine (contained_hostCallEnd h _ _ _).trans (hsome ?_).symm
    simp only [Event.pair?, hwaiting]
  · cases hstep
    exact (contained_readResult h _ _).trans (hsome rfl).symm
  · cases hstep
    exact iff_of_true (h.unwind config _) (hnone rfl)
  · cases hstep

/-- **What a guest can do to the host**: nothing, if no sum leaves the 64 bits. -/
theorem guest_contained_iff (checks : Bool) (config : SandboxConfig)
    (fromSlice : List UInt8 → Except String J) (input memory : Buffer) (es : List Event)
    (s : Execution J)
    (hrun : run (stepGuest checks config fromSlice) (.start input memory) es = some s) :
    Throughout (stepGuest checks config fromSlice) Contained (.start input memory) es ↔
      Guarded (stepGuest checks config fromSlice) (StaysInRange checks) (.start input memory)
        es := by
  refine throughout_iff_guarded contained_step es ⟨?_, ?_⟩ hrun
  · rintro p ⟨⟩
  · rintro a ⟨⟩

def braces : Buffer := ⟨[0x7B, 0x7D], by decide⟩

/-- A guest that puts its input at the beginning of the memory and returns it. -/
def echo : List Event := [.instantiated none, .allocReturns 0, .executeReturns 2 0]

def anyOutput (_ : List UInt8) : Except String Unit := .ok ()

theorem echo_contained :
    ∃ s, run (stepGuest true {} anyOutput) (.start braces braces) echo = some s ∧
      Throughout (stepGuest true {} anyOutput) Contained (.start braces braces) echo := by
  refine ⟨_, rfl, (guest_contained_iff true {} anyOutput braces braces echo _ rfl).mpr ?_⟩
  refine .cons ?_ rfl (.cons ?_ rfl (.cons ?_ rfl trivial))
  · rintro pair ⟨⟩
  · rintro pair ⟨⟩
    exact .inl (by decide)
  · rintro pair ⟨⟩
    exact .inl (by decide)

def minusOne : List Event := [.instantiated none, .allocReturns (-1)]

/-- The host panics if `alloc` returns -1, and on a log with the length -1. -/
theorem negative_pointer_panics :
    (∀ memory : Buffer, 1 ≤ memory.size →
      ∃ s, run (stepGuest false {} anyOutput) (.start braces memory) minusOne = some s ∧
        s.outcome = some (.panicked .sliceOrder)) ∧
      (∀ memory : Buffer,
        ∃ s, run (stepGuest true {} anyOutput) (.start braces memory) minusOne = some s ∧
          s.outcome = some (.panicked .overflow)) ∧
      ∀ memory : Buffer,
        ∃ s, run (stepGuest false {} anyOutput) (.start braces memory) [.hostLog 1 (-1)] = some s ∧
          s.outcome = some (.panicked .sliceOrder) := by
  have halloc : Usize.size ≤ (Pair.ofBuffer (-1) braces).start +
      (Pair.ofBuffer (-1) braces).count := by decide
  have hlog : Usize.size ≤ (Pair.ofSigned 1 (-1)).start + (Pair.ofSigned 1 (-1)).count := by
    decide
  refine ⟨fun memory hsize => ⟨_, rfl, ?_⟩, fun memory => ⟨_, rfl, ?_⟩, fun memory => ⟨_, rfl, ?_⟩⟩
  · have hin : ¬ (Pair.ofBuffer (-1) braces).start + (Pair.ofBuffer (-1) braces).count -
        Usize.size > memory.size := Nat.not_lt.mpr hsize
    simp only [writeInput, retrieveExports, Execution.access, Execution.start,
      range_wrapped halloc, if_neg hin]
  · simp only [writeInput, retrieveExports, Execution.access, Execution.start,
      range_overflow halloc]
  · have hin : ¬ (Pair.ofSigned 1 (-1)).start + (Pair.ofSigned 1 (-1)).count -
        Usize.size > memory.size := Nat.not_lt_zero _
    simp only [hostLog, Execution.access, Execution.start, range_wrapped hlog, if_neg hin]

end Sandbox

end AlloyAgent
