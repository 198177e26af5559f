import Mathlib.Data.List.DropRight

/-!
# The host of a URI

A URI is read in the order of the generic grammar: the scheme ends at the first `:`, an authority is
announced by `//` and ends at the first `/`, `?` or `#`.

* `authority?`, `hostOf`, `host?`: the parts, as they are written.
-/

namespace AlloyAgent.Uri

def endsAuthority (c : Char) : Bool := c = '/' || c = '?' || c = '#'

def afterScheme (uri : List Char) : List Char :=
  let inScheme (c : Char) : Bool := !(c = ':' || endsAuthority c)
  match uri.takeWhile inScheme, uri.dropWhile inScheme with
  | _ :: _, ':' :: rest => rest
  | _, _ => uri

def authority? (uri : List Char) : Option (List Char) :=
  match afterScheme uri with
  | '/' :: '/' :: rest => some (rest.takeWhile fun c => !endsAuthority c)
  | _ => none

def afterUserinfo (authority : List Char) : List Char :=
  authority.rtakeWhile (· ≠ '@')

/-- The host of an authority, without the brackets of an address. -/
def hostOf (authority : List Char) : List Char :=
  match afterUserinfo authority with
  | '[' :: literal => literal.takeWhile (· ≠ ']')
  | name => name.takeWhile (· ≠ ':')

/-- The host as it is written: percent signs are not decoded, and capitals are kept. -/
def host? (uri : List Char) : Option (List Char) := (authority? uri).map hostOf

example : host? "http://me:pw@[::1]:80/x".toList = some "::1".toList := by decide

example : host? "http://a.b?x@c".toList = some "a.b".toList := by decide

theorem authority?_scheme (hne : scheme ≠ [])
    (hscheme : ∀ c ∈ scheme, c ≠ ':' ∧ endsAuthority c = false) (rest : List Char) :
    authority? (scheme ++ ':' :: '/' :: '/' :: rest) =
      some (rest.takeWhile fun c => !endsAuthority c) := by
  have hall : ∀ c ∈ scheme, (!(c = ':' || endsAuthority c)) = true := by
    intro c hc
    simp [hscheme c hc]
  have hafter : afterScheme (scheme ++ ':' :: '/' :: '/' :: rest) = '/' :: '/' :: rest := by
    rw [afterScheme, List.takeWhile_append_of_pos hall, List.dropWhile_append_of_pos hall]
    cases scheme with
    | nil => exact absurd rfl hne
    | cons c scheme => rfl
  simp only [authority?, hafter]

end AlloyAgent.Uri
