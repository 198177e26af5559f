import Mathlib.Data.List.OfFn

/-!
# Internet addresses

IPv4 addresses as four octets, IPv6 addresses as eight segments.

* `display`: the text of an address;
* `InNet`: networks, decided word by word (`inNet_add`, `inNet_mask`).
-/

namespace AlloyAgent

open List

inductive IpAddr where
  | v4 (a b c d : BitVec 8)
  | v6 (a b c d e f g h : BitVec 16)
  deriving DecidableEq

namespace IpAddr

/-- The bits of a word, the most significant one first. -/
def wordBits {w : ℕ} (x : BitVec w) : List Bool := List.ofFn fun i : Fin w => x.getMsbD i

def bits {w : ℕ} (xs : List (BitVec w)) : List Bool := xs.flatMap wordBits

/-- The address is in the network: their first `len` bits are the same. -/
def InNet {w : ℕ} (base : List (BitVec w)) (len : ℕ) (addr : List (BitVec w)) : Prop :=
  (bits addr).take len = (bits base).take len

instance {w : ℕ} (base : List (BitVec w)) (len : ℕ) (addr : List (BitVec w)) :
    Decidable (InNet base len addr) :=
  inferInstanceAs (Decidable (_ = _))

def isLoopback : IpAddr → Bool
  | .v4 a _ _ _ => a == 127#8
  | .v6 a b c d e f g h =>
    [a, b, c, d, e, f, g, h] == [0#16, 0#16, 0#16, 0#16, 0#16, 0#16, 0#16, 1#16]

def isUnspecified : IpAddr → Bool
  | .v4 a b c d => [a, b, c, d] == [0#8, 0#8, 0#8, 0#8]
  | .v6 a b c d e f g h =>
    [a, b, c, d, e, f, g, h] == [0#16, 0#16, 0#16, 0#16, 0#16, 0#16, 0#16, 0#16]

/-! ## How an address is written -/

def displayOctets (octets : List (BitVec 8)) : String :=
  ".".intercalate (octets.map fun o => toString o.toNat)

def displaySegments (segments : List (BitVec 16)) : String :=
  ":".intercalate (segments.map fun s => String.ofList (Nat.toDigits 16 s.toNat))

/-- A run of zero segments: where it starts, and its length. -/
structure Span where
  start : ℕ
  len : ℕ

/-- The first of the longest runs of zero segments. -/
def longestZeros (segments : List (BitVec 16)) : Span :=
  let start (current : Span) (i : ℕ) := if current.len = 0 then i else current.start
  (segments.zipIdx.foldl (fun (longest, current) (segment, i) =>
    if segment = 0#16 then
      let current : Span := ⟨start current i, current.len + 1⟩
      (if longest.len < current.len then current else longest, current)
    else (longest, ⟨0, 0⟩)) ((⟨0, 0⟩ : Span), (⟨0, 0⟩ : Span))).1

def display : IpAddr → String
  | .v4 a b c d => displayOctets [a, b, c, d]
  | .v6 a b c d e f g h =>
    let s := [a, b, c, d, e, f, g, h]
    if s.take 6 = [0#16, 0#16, 0#16, 0#16, 0#16, 0xffff#16] then
      -- an IPv4-mapped address
      "::ffff:" ++ displayOctets ((s.drop 6).flatMap fun x =>
        [x.extractLsb' 8 8, x.extractLsb' 0 8])
    else
      let zeros := longestZeros s
      if 1 < zeros.len then
        displaySegments (s.take zeros.start) ++ "::" ++
          displaySegments (s.drop (zeros.start + zeros.len))
      else displaySegments s

example : display (.v6 0xfe80#16 0#16 0#16 0#16 1#16 0#16 0#16 0x1f#16) = "fe80::1:0:0:1f" := by
  decide +kernel

/-! ## Deciding networks by words -/

variable {w : ℕ}

@[simp] theorem length_wordBits (x : BitVec w) : (wordBits x).length = w := by
  rw [wordBits, length_ofFn]

variable {x : BitVec w}

theorem wordBits_inj : wordBits x = wordBits y ↔ x = y := by
  refine ⟨fun h => ?_, fun h => h ▸ rfl⟩
  apply BitVec.eq_of_getMsbD_eq
  intro i hi
  exact congrFun (ofFn_injective h) ⟨i, hi⟩

variable {n : ℕ}

theorem take_wordBits_iff (hmask : ∀ i < w, mask.getMsbD i = decide (i < n)) :
    (wordBits x).take n = (wordBits y).take n ↔ x &&& mask = y &&& mask := by
  have hbits : ∀ z : BitVec w, ∀ i < w, (z &&& mask).getMsbD i = (z.getMsbD i && decide (i < n)) :=
    fun z i hi => by rw [BitVec.getMsbD_and, hmask i hi]
  refine ⟨fun h => ?_, fun h => ?_⟩
  · apply BitVec.eq_of_getMsbD_eq
    intro i hi
    rw [hbits x i hi, hbits y i hi]
    by_cases hn : i < n
    · have hget : ((wordBits x).take n)[i]? = ((wordBits y).take n)[i]? := by rw [h]
      rw [getElem?_take_of_lt hn, getElem?_take_of_lt hn, wordBits, wordBits,
        List.getElem?_ofFn, List.getElem?_ofFn, dif_pos hi, dif_pos hi] at hget
      rw [Option.some.inj hget]
    · simp [hn]
  · apply ext_getElem?
    intro i
    by_cases hn : i < n
    · rw [getElem?_take_of_lt hn, getElem?_take_of_lt hn, wordBits, wordBits,
        List.getElem?_ofFn, List.getElem?_ofFn]
      by_cases hi : i < w
      · rw [dif_pos hi, dif_pos hi]
        have hand : (x &&& mask).getMsbD i = (y &&& mask).getMsbD i := by rw [h]
        rw [hbits x i hi, hbits y i hi] at hand
        simpa [hn] using hand
      · rw [dif_neg hi, dif_neg hi]
    · rw [getElem?_take_eq_none (by omega), getElem?_take_eq_none (by omega)]

variable {base addr : List (BitVec w)}

theorem inNet_add : InNet (a :: base) (w + n) (x :: addr) ↔ x = a ∧ InNet base n addr := by
  have htake (y : BitVec w) (ys : List (BitVec w)) :
      (bits (y :: ys)).take (w + n) = wordBits y ++ (bits ys).take n := by
    have h : (wordBits y ++ bits ys).take ((wordBits y).length + n) = _ :=
      take_length_add_append n
    rwa [length_wordBits] at h
  rw [InNet, InNet, htake, htake]
  refine ⟨fun h => ?_, fun ⟨hx, hrest⟩ => by rw [hx, hrest]⟩
  obtain ⟨hx, hrest⟩ := append_inj h (by simp)
  exact ⟨wordBits_inj.mp hx, hrest⟩

theorem inNet_mask (hn : n ≤ w) (hmask : ∀ i < w, mask.getMsbD i = decide (i < n)) :
    InNet (a :: base) n (x :: addr) ↔ x &&& mask = a &&& mask := by
  rw [← take_wordBits_iff hmask, InNet, bits, bits, flatMap_cons, flatMap_cons,
    take_append_of_le_length (by simpa using hn),
    take_append_of_le_length (by simpa using hn)]

theorem inNet_zero : InNet base 0 addr := rfl

theorem inNet_full (hlen : addr.length = base.length) :
    InNet base (base.length * w) addr ↔ addr = base := by
  induction base generalizing addr with
  | nil =>
    rw [length_eq_zero_iff.mp hlen]
    exact iff_of_true rfl rfl
  | cons a base ih =>
    cases addr with
    | nil => cases hlen
    | cons x addr =>
      rw [length_cons, Nat.succ_mul, Nat.add_comm, inNet_add, ih (Nat.succ.inj hlen),
        List.cons.injEq]

end IpAddr

end AlloyAgent
