import Mathlib.Algebra.Ring.Nat
import Mathlib.Data.Countable.Basic
import Mathlib.Data.List.Basic
import Mathlib.Data.Nat.Pairing
import Mathlib.Logic.Equiv.List
import Mathlib.Tactic.Ring

/-!
# Framed messages in a stream of bytes

What a protocol that puts a length before each message rests on: numbers of fixed width as
big-endian bytes, a text format for the messages (`Codec`), reading a given number of bytes, and
reading message after message until one cannot be read.

* `readLoop_ok`, `readLoop_error`: how a loop that reads frames ends.
-/

namespace AlloyAgent.Framing

universe u v

open List

/-! ## Numbers as bytes -/

def beBytes : ℕ → ℕ → List UInt8
  | 0, _ => []
  | width + 1, n => UInt8.ofNat (n / 256 ^ width) :: beBytes width n

def ofBeBytes (bytes : List UInt8) : ℕ := bytes.foldl (fun n b => n * 256 + b.toNat) 0

@[simp] theorem length_beBytes (width n : ℕ) : (beBytes width n).length = width := by
  induction width with
  | zero => rfl
  | succ width ih => rw [beBytes, length_cons, ih]

theorem foldl_beBytes (width n acc : ℕ) :
    (beBytes width n).foldl (fun n b => n * 256 + b.toNat) acc =
      acc * 256 ^ width + n % 256 ^ width := by
  induction width generalizing acc with
  | zero => simp [beBytes, Nat.mod_one]
  | succ width ih =>
    have hbyte : (UInt8.ofNat (n / 256 ^ width)).toNat = n / 256 ^ width % 256 :=
      UInt8.toNat_ofNat'
    have hsplit : n % 256 ^ (width + 1) =
        n % 256 ^ width + 256 ^ width * (n / 256 ^ width % 256) := Nat.mod_pow_succ
    rw [beBytes, foldl_cons, ih, hbyte, hsplit]
    ring

/-- **What does not fit into the bytes is lost.** -/
theorem ofBeBytes_beBytes (width n : ℕ) : ofBeBytes (beBytes width n) = n % 256 ^ width := by
  rw [ofBeBytes, foldl_beBytes, Nat.zero_mul, Nat.zero_add]

structure Codec (μ : Type u) where
  encode : μ → Option (List UInt8)
  decode : List UInt8 → Option μ
  decode_encode : ∀ {m body}, encode m = some body → decode body = some m
  decode_cut : ∀ {m body part}, encode m = some body → part <+: body → part ≠ body →
    decode part = none

variable {μ : Type u} {ε : Type v}

/-- A number of equal bytes and a last one. -/
def tally (n : ℕ) : List UInt8 := List.replicate n 1 ++ [0]

theorem tally_injective : Function.Injective tally := by
  intro n k h
  have hlen := congrArg List.length h
  simpa [tally] using hlen

theorem ne_tally_of_prefix (hpart : part <+: tally n) (hne : part ≠ tally n) : tally k ≠ part := by
  rintro rfl
  refine hne ?_
  obtain ⟨rest, hrest⟩ := hpart
  rcases eq_nil_or_concat rest with rfl | ⟨front, last, rfl⟩
  · rw [← hrest, append_nil]
  · -- the last byte of the shorter one stands among the ones
    rw [concat_eq_append, ← append_assoc] at hrest
    obtain ⟨hones, -⟩ := append_inj' hrest rfl
    have hzero : (0 : UInt8) ∈ List.replicate n (1 : UInt8) := by
      rw [← hones]
      simp [tally]
    cases eq_of_mem_replicate hzero

/-- A format that writes each message as a tally. -/
noncomputable def Codec.ofInjective (f : μ → ℕ) (hf : Function.Injective f) : Codec μ where
  encode := fun m => some (tally (f m))
  decode := by
    classical
    exact fun body => if h : ∃ m, tally (f m) = body then some h.choose else none
  decode_encode := by
    rintro m body ⟨⟩
    have h : ∃ m', tally (f m') = tally (f m) := ⟨m, rfl⟩
    rw [dif_pos h]
    exact congrArg some (hf (tally_injective h.choose_spec))
  decode_cut := by
    rintro m body part ⟨⟩ hpart hne
    refine dif_neg ?_
    rintro ⟨m', hm'⟩
    exact ne_tally_of_prefix hpart hne hm'

instance countableChar : Countable Char :=
  Function.Injective.countable (f := Char.toNat) fun _ _ => Char.toNat_inj.mp

instance countableString : Countable String :=
  Function.Injective.countable (f := String.toList) fun _ _ => String.toList_injective

/-- Countably many messages have a format in which none is shorter than a given size. -/
theorem exists_codec [Countable μ] (size : μ → ℕ) :
    ∃ codec : Codec μ, ∀ m, ∃ body, codec.encode m = some body ∧ size m ≤ body.length := by
  obtain ⟨f, hf⟩ := Countable.exists_injective_nat μ
  have hpair : Function.Injective fun m => Nat.pair (f m) (size m) := by
    intro m m' h
    exact hf (Nat.pair_eq_pair.mp h).1
  refine ⟨Codec.ofInjective _ hpair, fun m => ⟨_, rfl, ?_⟩⟩
  rw [tally, length_append, length_replicate]
  exact (Nat.right_le_pair (f m) (size m)).trans (Nat.le_add_right _ _)

def readExact (n : ℕ) (stream : List UInt8) : Option (List UInt8 × List UInt8) :=
  if n ≤ stream.length then some (stream.take n, stream.drop n) else none

theorem readExact_append (h : bytes.length = n) :
    readExact n (bytes ++ rest) = some (bytes, rest) := by
  subst h
  rw [readExact, if_pos (by simp), take_left, drop_left]

theorem readExact_cut (h : n ≤ bytes.length) :
    readExact n (bytes ++ rest) = some (bytes.take n, bytes.drop n ++ rest) := by
  rw [readExact, if_pos (by simp; omega), take_append_of_le_length h,
    drop_append_of_le_length h]

variable (read : List UInt8 → Except ε (μ × List UInt8))

/-- Read messages until one cannot be read; no error means that `fuel` messages were read. -/
def readLoop : ℕ → List UInt8 → List μ × Option ε
  | 0, _ => ([], none)
  | fuel + 1, stream =>
    match read stream with
    | .error e => ([], some e)
    | .ok (m, rest) => (m :: (readLoop fuel rest).1, (readLoop fuel rest).2)

variable {read}

theorem readLoop_error (h : read stream = .error e) :
    readLoop read (fuel + 1) stream = ([], some e) := by
  rw [readLoop, h]

theorem readLoop_ok (h : read stream = .ok (m, rest)) (ms : List μ) (e : Option ε) :
    readLoop read (fuel + 1) stream = (m :: ms, e) ↔ readLoop read fuel rest = (ms, e) := by
  rw [readLoop, h]
  simp only [Prod.ext_iff, List.cons.injEq, true_and]

end AlloyAgent.Framing
