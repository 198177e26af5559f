import AlloyAgent.RustStr

/-!
# Base64

The standard alphabet with padding, as the `STANDARD` engine has it: three bytes are four symbols,
and a last group of one or two bytes is filled up with `=`.

* `decode_encode`: decoding inverts encoding.
-/

namespace AlloyAgent.Base64

open Option

def alphabet : List Char :=
  "ABCDEFGHIJKLMNOPQRSTUVWXYZabcdefghijklmnopqrstuvwxyz0123456789+/".toList

def symbol (n : ℕ) : Char := alphabet.getD n 'A'

def pad : Char := '='

def value? (c : Char) : Option ℕ :=
  if 'A' ≤ c ∧ c ≤ 'Z' then some (c.toNat - 'A'.toNat)
  else if 'a' ≤ c ∧ c ≤ 'z' then some (c.toNat - 'a'.toNat + 26)
  else if '0' ≤ c ∧ c ≤ '9' then some (c.toNat - '0'.toNat + 52)
  else if c = '+' then some 62
  else if c = '/' then some 63
  else none

def encode : List UInt8 → List Char
  | [] => []
  | [a] => [symbol (a.toNat / 4), symbol (a.toNat % 4 * 16), pad, pad]
  | [a, b] =>
    [symbol (a.toNat / 4), symbol (a.toNat % 4 * 16 + b.toNat / 16), symbol (b.toNat % 16 * 4), pad]
  | a :: b :: c :: rest =>
    symbol (a.toNat / 4) :: symbol (a.toNat % 4 * 16 + b.toNat / 16) ::
      symbol (b.toNat % 16 * 4 + c.toNat / 64) :: symbol (c.toNat % 64) :: encode rest

/-- A group without padding. -/
def decodeGroup (p q r s : Char) : Option (List UInt8) := do
  let w ← value? p
  let x ← value? q
  let y ← value? r
  let z ← value? s
  return [.ofNat (w * 4 + x / 16), .ofNat (x % 16 * 16 + y / 4), .ofNat (y % 4 * 64 + z)]

/-- The last group, if its fourth symbol is padding. -/
def decodeLast (p q r : Char) : Option (List UInt8) := do
  let w ← value? p
  let x ← value? q
  if r = pad then
    if x % 16 = 0 then return [.ofNat (w * 4 + x / 16)] else none
  else
    let y ← value? r
    if y % 4 = 0 then return [.ofNat (w * 4 + x / 16), .ofNat (x % 16 * 16 + y / 4)] else none

def decode : List Char → Option (List UInt8)
  | [] => some []
  | p :: q :: r :: s :: rest =>
    if s = pad then
      if rest = [] then decodeLast p q r else none
    else do
      let group ← decodeGroup p q r s
      return group ++ (← decode rest)
  | _ => none

section

variable {n : ℕ}

theorem value?_symbol (h : n < 64) : value? (symbol n) = some n := by
  have hall : ∀ n < 64, value? (symbol n) = some n := by decide +kernel
  exact hall n h

theorem symbol_ne_pad (h : n < 64) : symbol n ≠ pad := by
  intro heq
  have hvalue := value?_symbol h
  rw [heq] at hvalue
  cases hvalue

theorem symbol_no_whitespace (n : ℕ) : RustStr.isWhitespace (symbol n) = false := by
  have hall : ('A' :: alphabet).all (fun c => !RustStr.isWhitespace c) = true := by decide +kernel
  have hmem : symbol n ∈ 'A' :: alphabet := by
    rw [symbol, List.getD_eq_getElem?_getD]
    cases h : alphabet[n]? with
    | none => exact List.mem_cons_self
    | some c => exact List.mem_cons_of_mem _ (List.mem_of_getElem? h)
  simpa using List.all_eq_true.mp hall _ hmem

end

section

variable (a b c : UInt8)

/-- The byte whose bits are those of `a`. -/
theorem ofNat_eq {a : UInt8} (h : n = a.toNat) : UInt8.ofNat n = a := by
  rw [h, UInt8.ofNat_toNat]

theorem decodeGroup_symbols :
    decodeGroup (symbol (a.toNat / 4)) (symbol (a.toNat % 4 * 16 + b.toNat / 16))
      (symbol (b.toNat % 16 * 4 + c.toNat / 64)) (symbol (c.toNat % 64)) = some [a, b, c] := by
  have ha := a.toNat_lt
  have hb := b.toNat_lt
  have hc := c.toNat_lt
  rw [decodeGroup, value?_symbol (by omega), value?_symbol (by omega), value?_symbol (by omega),
    value?_symbol (by omega)]
  dsimp only [bind_eq_bind, bind_some, pure]
  rw [ofNat_eq (a := a) (by omega), ofNat_eq (a := b) (by omega), ofNat_eq (a := c) (by omega)]

theorem decodeLast_one :
    decodeLast (symbol (a.toNat / 4)) (symbol (a.toNat % 4 * 16)) pad = some [a] := by
  have ha := a.toNat_lt
  rw [decodeLast, value?_symbol (by omega), value?_symbol (by omega)]
  dsimp only [bind_eq_bind, bind_some, pure]
  rw [if_pos rfl, if_pos (by omega), ofNat_eq (a := a) (by omega)]

theorem decodeLast_two :
    decodeLast (symbol (a.toNat / 4)) (symbol (a.toNat % 4 * 16 + b.toNat / 16))
      (symbol (b.toNat % 16 * 4)) = some [a, b] := by
  have ha := a.toNat_lt
  have hb := b.toNat_lt
  rw [decodeLast, value?_symbol (by omega), value?_symbol (by omega)]
  dsimp only [bind_eq_bind, bind_some, pure]
  rw [if_neg (symbol_ne_pad (by omega)), value?_symbol (by omega)]
  dsimp only [bind_some]
  rw [if_pos (by omega), ofNat_eq (a := a) (by omega), ofNat_eq (a := b) (by omega)]

end

/-- **Decoding inverts encoding.** -/
theorem decode_encode (bytes : List UInt8) : decode (encode bytes) = some bytes := by
  induction bytes using encode.induct with
  | case1 => rfl
  | case2 a =>
    exact decodeLast_one a
  | case3 a b =>
    exact decodeLast_two a b
  | case4 a b c rest ih =>
    rw [encode, decode, if_neg (symbol_ne_pad (Nat.mod_lt _ (by decide))),
      decodeGroup_symbols a b c, ih]
    rfl

theorem encode_no_whitespace (bytes : List UInt8) :
    ∀ c ∈ encode bytes, RustStr.isWhitespace c = false := by
  have hpad : RustStr.isWhitespace pad = false := by decide
  induction bytes using encode.induct with
  | case1 => exact nofun
  | case2 a => simp [encode, symbol_no_whitespace, hpad]
  | case3 a b => simp [encode, symbol_no_whitespace, hpad]
  | case4 a b c rest ih => simpa [encode, symbol_no_whitespace] using ih

end AlloyAgent.Base64
