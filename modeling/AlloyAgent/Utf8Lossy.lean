import Mathlib.Data.List.Basic
import Mathlib.Data.List.Infix

/-!
# Decoding UTF-8 with replacement

`String::from_utf8_lossy` decodes bytes that need not be UTF-8: a sequence of bytes that begins a
character and does not go on as one, and a byte that begins none, are each decoded as U+FFFD.

* `fromUtf8Lossy_encode`: text is decoded as it was encoded;
* `flatMap_fromUtf8Lossy_eq_iff`: the chunks that can be decoded one by one.
-/

namespace AlloyAgent

open List

namespace Utf8

/-- The character that stands for what cannot be decoded. -/
def replacement : Char := '�'

/-- What the next byte of a character may be. -/
inductive Next where
  /-- any byte that goes on with a character -/
  | tail
  /-- shorter forms exist -/
  | afterE0
  /-- the rest are surrogates -/
  | afterEd
  /-- shorter forms exist -/
  | afterF0
  /-- the rest are above the last character -/
  | afterF4
  deriving DecidableEq

namespace Next

def low : Next → ℕ
  | .afterE0 => 0xA0
  | .afterF0 => 0x90
  | _ => 0x80

def high : Next → ℕ
  | .afterEd => 0x9F
  | .afterF4 => 0x8F
  | _ => 0xBF

theorem le_low (next : Next) : 0x80 ≤ next.low := by cases next <;> decide

theorem high_le (next : Next) : next.high ≤ 0xBF := by cases next <;> decide

/-- After the first byte of a character of three. -/
def ofThree (n : ℕ) : Next := if n = 0xE0 then .afterE0 else if n = 0xED then .afterEd else .tail

/-- After the first byte of a character of four. -/
def ofFour (n : ℕ) : Next := if n = 0xF0 then .afterF0 else if n = 0xF4 then .afterF4 else .tail

end Next

/-- Between characters, or within one: the next byte, how many follow, the number so far. -/
inductive State where
  | start
  | owing (next : Next) (more : ℕ) (value : ℕ)
  deriving DecidableEq

def first (b : UInt8) : List Char × State :=
  let n := b.toNat
  if n < 0x80 then ([Char.ofNat n], .start)
  else if n < 0xC2 then ([replacement], .start)
  else if n < 0xE0 then ([], .owing .tail 0 (n - 0xC0))
  else if n < 0xF0 then ([], .owing (.ofThree n) 1 (n - 0xE0))
  else if n < 0xF5 then ([], .owing (.ofFour n) 2 (n - 0xF0))
  else ([replacement], .start)

/-- A byte that goes on with a character: how many more follow it, and the number read. -/
def advance : ℕ → ℕ → List Char × State
  | 0, value => ([Char.ofNat value], .start)
  | more + 1, value => ([], .owing .tail more value)

/-- One byte: the characters that are decoded with it, and where that leaves the machine. -/
def step : State → UInt8 → List Char × State
  | .start, b => first b
  | .owing next more value, b =>
    if next.low ≤ b.toNat ∧ b.toNat ≤ next.high then advance more (value * 64 + (b.toNat - 0x80))
    else (replacement :: (first b).1, (first b).2)

def State.flush : State → List Char
  | .start => []
  | .owing .. => [replacement]

def decode : State → List UInt8 → List Char
  | st, [] => st.flush
  | st, b :: bs => (step st b).1 ++ decode (step st b).2 bs

def fromUtf8Lossy (bytes : List UInt8) : List Char := decode .start bytes

def encode (s : List Char) : List UInt8 := s.flatMap String.utf8EncodeChar

@[simp] theorem encode_nil : encode [] = [] := rfl

@[simp] theorem encode_cons (c : Char) (s : List Char) :
    encode (c :: s) = String.utf8EncodeChar c ++ encode s := flatMap_cons

/-! ## What is encoded is decoded -/

theorem toNat_ofNat_of_lt (h : n < 256) : (UInt8.ofNat n).toNat = n := by
  rw [UInt8.toNat_ofNat', Nat.mod_eq_of_lt h]

section

variable {next : Next} {value d : ℕ} {bs : List UInt8}

theorem decode_last (hd : d < 64) (hlow : next.low ≤ d + 0x80) (hhigh : d + 0x80 ≤ next.high) :
    decode (.owing next 0 value) (UInt8.ofNat (d + 0x80) :: bs) =
      Char.ofNat (value * 64 + d) :: decode .start bs := by
  rw [decode, step, toNat_ofNat_of_lt (by omega), if_pos ⟨hlow, hhigh⟩, Nat.add_sub_cancel]
  rfl

theorem decode_middle (hd : d < 64) (hlow : next.low ≤ d + 0x80) (hhigh : d + 0x80 ≤ next.high) :
    decode (.owing next (more + 1) value) (UInt8.ofNat (d + 0x80) :: bs) =
      decode (.owing .tail more (value * 64 + d)) bs := by
  rw [decode, step, toNat_ofNat_of_lt (by omega), if_pos ⟨hlow, hhigh⟩, Nat.add_sub_cancel]
  rfl

theorem tail_in_range (hd : d < 64) : Next.tail.low ≤ d + 0x80 ∧ d + 0x80 ≤ Next.tail.high := by
  simp only [Next.low, Next.high]
  omega

end

variable {v : ℕ} {bs : List UInt8}

theorem decode_one (h : v < 0x80) :
    decode .start (UInt8.ofNat v :: bs) = Char.ofNat v :: decode .start bs := by
  rw [decode, step, first, toNat_ofNat_of_lt (by omega), if_pos h]
  rfl

theorem decode_two (hlow : 0x80 ≤ v) (hhigh : v < 0x800) :
    decode .start (UInt8.ofNat (v / 64 % 0x20 + 0xC0) :: UInt8.ofNat (v % 0x40 + 0x80) :: bs) =
      Char.ofNat v :: decode .start bs := by
  have hfirst : first (UInt8.ofNat (v / 64 % 0x20 + 0xC0)) = ([], .owing .tail 0 (v / 64)) := by
    rw [first, toNat_ofNat_of_lt (by omega), if_neg (by omega), if_neg (by omega),
      if_pos (by omega), Nat.add_sub_cancel, Nat.mod_eq_of_lt (by omega)]
  obtain ⟨h₁, h₁'⟩ := tail_in_range (Nat.mod_lt v (by decide : 0 < 0x40))
  have hvalue : v / 64 * 64 + v % 0x40 = v := by omega
  rw [decode, step, hfirst, nil_append, decode_last (by omega) h₁ h₁', hvalue]

theorem decode_three (hlow : 0x800 ≤ v) (hhigh : v < 0x10000) (hvalid : v < 0xD800 ∨ 0xDFFF < v) :
    decode .start (UInt8.ofNat (v / 4096 % 0x10 + 0xE0) :: UInt8.ofNat (v / 64 % 0x40 + 0x80) ::
      UInt8.ofNat (v % 0x40 + 0x80) :: bs) = Char.ofNat v :: decode .start bs := by
  obtain ⟨h₂, h₂'⟩ := tail_in_range (Nat.mod_lt v (by decide : 0 < 0x40))
  have hvalue : (v / 4096 * 64 + v / 64 % 0x40) * 64 + v % 0x40 = v := by omega
  have hfirst : first (UInt8.ofNat (v / 4096 % 0x10 + 0xE0)) =
      ([], .owing (.ofThree (v / 4096 + 0xE0)) 1 (v / 4096)) := by
    rw [first, toNat_ofNat_of_lt (by omega), if_neg (by omega), if_neg (by omega),
      if_neg (by omega), if_pos (by omega), Nat.add_sub_cancel, Nat.mod_eq_of_lt (by omega)]
  obtain ⟨h₁, h₁'⟩ : (Next.ofThree (v / 4096 + 0xE0)).low ≤ v / 64 % 0x40 + 0x80 ∧
      v / 64 % 0x40 + 0x80 ≤ (Next.ofThree (v / 4096 + 0xE0)).high := by
    rw [Next.ofThree]
    split_ifs <;> simp only [Next.low, Next.high] <;> omega
  rw [decode, step, hfirst, nil_append, decode_middle (by omega) h₁ h₁',
    decode_last (by omega) h₂ h₂', hvalue]

theorem decode_four (hlow : 0x10000 ≤ v) (hhigh : v < 0x110000) :
    decode .start (UInt8.ofNat (v / 262144 % 0x08 + 0xF0) ::
      UInt8.ofNat (v / 4096 % 0x40 + 0x80) :: UInt8.ofNat (v / 64 % 0x40 + 0x80) ::
      UInt8.ofNat (v % 0x40 + 0x80) :: bs) = Char.ofNat v :: decode .start bs := by
  obtain ⟨h₂, h₂'⟩ := tail_in_range (Nat.mod_lt (v / 64) (by decide : 0 < 0x40))
  obtain ⟨h₃, h₃'⟩ := tail_in_range (Nat.mod_lt v (by decide : 0 < 0x40))
  have hvalue : ((v / 262144 * 64 + v / 4096 % 0x40) * 64 + v / 64 % 0x40) * 64 + v % 0x40 = v := by
    omega
  have hfirst : first (UInt8.ofNat (v / 262144 % 0x08 + 0xF0)) =
      ([], .owing (.ofFour (v / 262144 + 0xF0)) 2 (v / 262144)) := by
    rw [first, toNat_ofNat_of_lt (by omega), if_neg (by omega), if_neg (by omega),
      if_neg (by omega), if_neg (by omega),
      if_pos (by omega), Nat.add_sub_cancel, Nat.mod_eq_of_lt (by omega)]
  obtain ⟨h₁, h₁'⟩ : (Next.ofFour (v / 262144 + 0xF0)).low ≤ v / 4096 % 0x40 + 0x80 ∧
      v / 4096 % 0x40 + 0x80 ≤ (Next.ofFour (v / 262144 + 0xF0)).high := by
    rw [Next.ofFour]
    split_ifs <;> simp only [Next.low, Next.high] <;> omega
  rw [decode, step, hfirst, nil_append, decode_middle (by omega) h₁ h₁',
    decode_middle (by omega) h₂ h₂', decode_last (by omega) h₃ h₃', hvalue]

theorem decode_encodeChar (c : Char) (bs : List UInt8) :
    decode .start (String.utf8EncodeChar c ++ bs) = c :: decode .start bs := by
  have hc : Char.ofNat c.val.toNat = c := Char.ofNat_toNat c
  have hvalid : c.val.toNat < 0xD800 ∨ 0xDFFF < c.val.toNat ∧ c.val.toNat < 0x110000 := c.valid
  rw [String.utf8EncodeChar]
  split_ifs with h₁ h₂ h₃ <;> simp only [cons_append, nil_append]
  · rw [decode_one (by omega), hc]
  · rw [decode_two (by omega) (by omega), hc]
  · rw [decode_three (by omega) (by omega) (by omega), hc]
  · rw [decode_four (by omega) (by omega), hc]

theorem decode_encode_append (s : List Char) (bs : List UInt8) :
    decode .start (encode s ++ bs) = s ++ decode .start bs := by
  induction s with
  | nil => rfl
  | cons c s ih => rw [encode_cons, append_assoc, decode_encodeChar, ih, cons_append]

/-- **What is encoded is decoded.** -/
theorem fromUtf8Lossy_encode (s : List Char) : fromUtf8Lossy (encode s) = s := by
  have h := decode_encode_append s []
  rw [append_nil] at h
  exact h.trans (append_nil s)

/-- `String::from_utf8`: the text whose bytes they are. -/
def fromUtf8? (bytes : List UInt8) : Option (List Char) :=
  if encode (fromUtf8Lossy bytes) = bytes then some (fromUtf8Lossy bytes) else none

theorem fromUtf8?_encode (s : List Char) : fromUtf8? (encode s) = some s := by
  rw [fromUtf8?, fromUtf8Lossy_encode, if_pos rfl]

def isCont (b : UInt8) : Bool := 0x80 ≤ b.toNat && b.toNat < 0xC0

/-- How many of the bytes do not go on with a character. -/
def starts (bytes : List UInt8) : ℕ := bytes.countP fun b => !isCont b

/-- The piece does not begin in the middle of a character. -/
def Begins (piece : List UInt8) : Prop := ∀ b ∈ piece.head?, isCont b = false

instance decidableBegins (piece : List UInt8) : Decidable (Begins piece) :=
  inferInstanceAs (Decidable (∀ b ∈ piece.head?, isCont b = false))

/-- The characters that a state still owes. -/
def State.pending : State → ℕ
  | .start => 0
  | .owing .. => 1

theorem first_pending (b : UInt8) : (first b).1.length + (first b).2.pending = 1 := by
  rw [first]
  split_ifs <;> rfl

theorem step_pending (st : State) (b : UInt8) :
    st.pending + (if isCont b then 0 else 1) ≤
      (step st b).1.length + (step st b).2.pending := by
  have hfirst := first_pending b
  cases st with
  | start =>
    simp only [step, State.pending] at hfirst ⊢
    split <;> omega
  | owing next more value =>
    have hlow := next.le_low
    have hhigh := next.high_le
    rw [step]
    by_cases hin : next.low ≤ b.toNat ∧ b.toNat ≤ next.high
    · -- a byte in the range goes on with the character
      have hcont : isCont b = true := by
        simp only [isCont, Bool.and_eq_true, decide_eq_true_eq]
        omega
      rw [if_pos hin, if_pos hcont]
      cases more <;> exact le_rfl
    · rw [if_neg hin]
      have hle : (if isCont b = true then 0 else 1) ≤ 1 := by split <;> omega
      simp only [length_cons, State.pending] at hfirst ⊢
      omega

/-- **There is a character for every byte that begins one.** -/
theorem starts_add_le_length_decode (bs : List UInt8) :
    ∀ st : State, st.pending + starts bs ≤ (decode st bs).length := by
  induction bs with
  | nil =>
    intro st
    cases st <;> simp [decode, State.flush, State.pending, starts]
  | cons b bs ih =>
    intro st
    have hstep := step_pending st b
    have hrest := ih (step st b).2
    rw [decode, length_append, starts, countP_cons]
    rw [starts] at hrest
    by_cases hb : isCont b = true
    · simp only [hb, if_true, Bool.not_true, Bool.false_eq_true, if_false] at hstep ⊢
      omega
    · simp only [hb, if_false, Bool.not_false, if_true, Bool.false_eq_true] at hstep ⊢
      omega

theorem starts_le_length (piece : List UInt8) : starts piece ≤ (fromUtf8Lossy piece).length := by
  have h := starts_add_le_length_decode piece .start
  rw [State.pending, Nat.zero_add] at h
  exact h

theorem starts_lt_length (h : ¬ Begins piece) : starts piece < (fromUtf8Lossy piece).length := by
  cases piece with
  | nil => exact absurd (fun b hb => by cases hb) h
  | cons b bs =>
    have hb : isCont b = true := by
      by_contra hb
      refine h fun b' hb' => ?_
      obtain rfl : b = b' := by simpa using hb'
      simpa using hb
    have hrange := hb
    simp only [isCont, Bool.and_eq_true, decide_eq_true_eq] at hrange
    have hfirst : first b = ([replacement], .start) := by
      rw [first, if_neg (by omega), if_pos (by omega)]
    have hrest := starts_le_length bs
    rw [fromUtf8Lossy] at hrest
    rw [fromUtf8Lossy, decode, step, hfirst, starts, countP_cons]
    rw [starts] at hrest
    simp only [hb, Bool.not_true, Bool.false_eq_true, if_false, length_append,
      length_singleton]
    omega

theorem utf8EncodeChar_eq_cons (c : Char) :
    ∃ b bs, String.utf8EncodeChar c = b :: bs ∧ isCont b = false ∧ ∀ b' ∈ bs, isCont b' = true := by
  have hcont : ∀ n, isCont (UInt8.ofNat (n % 0x40 + 0x80)) = true := by
    intro n
    rw [isCont, toNat_ofNat_of_lt (by omega), Bool.and_eq_true, decide_eq_true_eq,
      decide_eq_true_eq]
    omega
  have hfirst : ∀ n < 256, n < 0x80 ∨ 0xC0 ≤ n → isCont (UInt8.ofNat n) = false := by
    intro n hn hrange
    rw [isCont, toNat_ofNat_of_lt hn, Bool.and_eq_false_iff, decide_eq_false_iff_not,
      decide_eq_false_iff_not]
    omega
  rw [String.utf8EncodeChar]
  split_ifs with h₁ h₂ h₃ <;> refine ⟨_, _, rfl, hfirst _ (by omega) (by omega), ?_⟩ <;>
    simp only [forall_mem_cons, hcont, not_mem_nil, false_imp_iff, implies_true,
      and_self]

theorem starts_append (p q : List UInt8) : starts (p ++ q) = starts p + starts q :=
  countP_append

theorem starts_encode (s : List Char) : starts (encode s) = s.length := by
  induction s with
  | nil => rfl
  | cons c s ih =>
    obtain ⟨b, bs, hc, hb, hbs⟩ := utf8EncodeChar_eq_cons c
    have hnone : bs.countP (fun b' => !isCont b') = 0 := by
      rw [countP_eq_zero]
      intro b' hb'
      simp [hbs b' hb']
    have hone : starts (b :: bs) = 1 := by
      rw [starts, countP_cons, hnone, hb]
      rfl
    rw [encode_cons, starts_append, ih, hc, hone, length_cons, Nat.add_comm]

variable {s : List Char}

theorem encode_split (h : p ++ q = encode s) (hq : Begins q) :
    ∃ s₁ s₂, s = s₁ ++ s₂ ∧ p = encode s₁ ∧ q = encode s₂ := by
  induction s generalizing p with
  | nil =>
    obtain ⟨rfl, rfl⟩ := append_eq_nil_iff.mp h
    exact ⟨[], [], rfl, rfl, rfl⟩
  | cons c s ih =>
    by_cases hp : p = []
    · subst hp
      exact ⟨[], c :: s, rfl, rfl, h⟩
    · rw [encode_cons] at h
      rcases append_eq_append_iff.mp h with ⟨front, hc, hq'⟩ | ⟨p', rfl, hrest⟩
      · -- the first part ends with or within the first character
        cases front with
        | nil =>
          rw [append_nil] at hc
          exact ⟨[c], s, rfl, by rw [encode_cons, encode_nil, append_nil, hc], hq'⟩
        | cons b front =>
          obtain ⟨b₀, bs, heq, -, hbs⟩ := utf8EncodeChar_eq_cons c
          obtain ⟨b₁, p, rfl⟩ := exists_cons_of_ne_nil hp
          rw [heq, cons_append, List.cons.injEq] at hc
          have hcont := hbs b (by rw [hc.2]; simp)
          have hbegins := hq b (by rw [hq']; rfl)
          rw [hcont] at hbegins
          cases hbegins
      · obtain ⟨s₁, s₂, rfl, rfl, rfl⟩ := ih hrest.symm
        exact ⟨c :: s₁, s₂, rfl, rfl, rfl⟩

variable {pieces : List (List UInt8)}

theorem begins_flatten (h : ∀ piece ∈ pieces, Begins piece) : Begins pieces.flatten := by
  induction pieces with
  | nil => exact nofun
  | cons piece pieces ih =>
    rw [forall_mem_cons] at h
    cases piece with
    | nil => exact ih h.2
    | cons b bs => exact h.1

theorem starts_flatten_le (pieces : List (List UInt8)) :
    starts pieces.flatten ≤ (pieces.flatMap fromUtf8Lossy).length ∧
      ((∃ piece ∈ pieces, ¬ Begins piece) →
        starts pieces.flatten < (pieces.flatMap fromUtf8Lossy).length) := by
  induction pieces with
  | nil => exact ⟨le_rfl, fun ⟨_, h, _⟩ => (not_mem_nil h).elim⟩
  | cons piece pieces ih =>
    have hpiece := starts_le_length piece
    rw [flatten_cons, starts_append, flatMap_cons, length_append]
    refine ⟨Nat.add_le_add hpiece ih.1, ?_⟩
    rintro ⟨bad, hmem, hbad⟩
    rcases mem_cons.mp hmem with rfl | hmem
    · exact Nat.add_lt_add_of_lt_of_le (starts_lt_length hbad) ih.1
    · exact Nat.add_lt_add_of_le_of_lt hpiece (ih.2 ⟨bad, hmem, hbad⟩)

theorem flatMap_fromUtf8Lossy (hbytes : pieces.flatten = encode s)
    (h : ∀ piece ∈ pieces, Begins piece) : pieces.flatMap fromUtf8Lossy = s := by
  induction pieces generalizing s with
  | nil =>
    have hlen := starts_encode s
    rw [← hbytes] at hlen
    exact (eq_nil_of_length_eq_zero hlen.symm).symm
  | cons piece pieces ih =>
    rw [forall_mem_cons] at h
    obtain ⟨s₁, s₂, rfl, rfl, hrest⟩ := encode_split hbytes (begins_flatten h.2)
    rw [flatMap_cons, fromUtf8Lossy_encode, ih hrest h.2]

/-- **The pieces of a text decode to it exactly if each begins with a character.** -/
theorem flatMap_fromUtf8Lossy_eq_iff (hbytes : pieces.flatten = encode s) :
    pieces.flatMap fromUtf8Lossy = s ↔ ∀ piece ∈ pieces, Begins piece := by
  refine ⟨fun h => ?_, flatMap_fromUtf8Lossy hbytes⟩
  by_contra hbad
  push Not at hbad
  have hlt := (starts_flatten_le pieces).2 hbad
  rw [hbytes, starts_encode, h] at hlt
  exact hlt.false

end Utf8

end AlloyAgent
