import AlloyAgent.RustStr
import AlloyAgent.Utf8Lossy

/-!
# A stream that is cut at a delimiter

A reader collects what arrives in a buffer. After each piece it handles what stands before the first
delimiter in the buffer, and removes it with the delimiter, for as long as there is one.

* `receive_eq`: the records do not depend on the pieces;
* `recordsOfBytes_eq`: nor on chunks of bytes that cut no character.
-/

namespace AlloyAgent.Delimited

universe u

open List

open RustStr Utf8

section

variable {σ : Type u} (d : Char) (ds : List Char) (handle : σ → List Char → σ)

/-- The inner loop: while the buffer has a delimiter, what stands before it is handled. -/
def drain (buffer : List Char) (acc : σ) : List Char × σ :=
  match _h : splitOnce? (d :: ds) buffer with
  | none => (buffer, acc)
  | some (record, rest) => drain rest (handle acc record)
termination_by buffer.length
decreasing_by
  have hle := splitOnce?_length _h
  rw [List.length_cons] at hle
  omega

def receive (st : List Char × σ) (pieces : List (List Char)) : List Char × σ :=
  pieces.foldl (fun st piece => drain d ds handle (st.1 ++ piece) st.2) st

def records (text : List Char) : List (List Char) :=
  (drain d ds (fun rs r => rs ++ [r]) text []).2

variable {d ds handle}

theorem drain_of_none (h : splitOnce? (d :: ds) buffer = none) :
    drain d ds handle buffer acc = (buffer, acc) := by
  rw [drain]
  split
  · rfl
  · rename_i heq
    rw [h] at heq
    cases heq

theorem drain_of_some (h : splitOnce? (d :: ds) buffer = some (record, rest)) :
    drain d ds handle buffer acc = drain d ds handle rest (handle acc record) := by
  rw [drain]
  split
  · rename_i heq
    rw [h] at heq
    cases heq
  · rename_i heq
    rw [h] at heq
    cases heq
    rfl

variable (buffer : List Char) (acc : σ)

/-- **Draining a text can be interrupted anywhere.** By induction along the loop. -/
theorem drain_append (t : List Char) :
    drain d ds handle (buffer ++ t) acc =
      drain d ds handle ((drain d ds handle buffer acc).1 ++ t)
        (drain d ds handle buffer acc).2 := by
  induction buffer, acc using drain.induct d ds handle with
  | case1 buffer acc h => rw [drain_of_none h]
  | case2 buffer acc record rest h ih =>
    rw [drain_of_some h, drain_of_some (splitOnce?_append h t), ih]

theorem receive_drain (pieces : List (List Char)) :
    receive d ds handle (drain d ds handle buffer acc) pieces =
      drain d ds handle (buffer ++ pieces.flatten) acc := by
  induction pieces generalizing buffer with
  | nil => rw [flatten_nil, append_nil, receive, foldl_nil]
  | cons piece pieces ih =>
    have hround : receive d ds handle (drain d ds handle buffer acc) (piece :: pieces) =
        receive d ds handle (drain d ds handle (buffer ++ piece) acc) pieces := by
      rw [receive, foldl_cons, ← drain_append, receive]
    rw [hround, ih, flatten_cons, append_assoc]

/-- **What is received does not depend on the pieces.** -/
theorem receive_eq (pieces : List (List Char)) :
    receive d ds handle ([], acc) pieces = drain d ds handle pieces.flatten acc := by
  have hempty : drain d ds handle [] acc = ([], acc) := drain_of_none rfl
  rw [← hempty, receive_drain, nil_append]

theorem drain_eq_foldl (rs : List (List Char)) :
    (drain d ds handle buffer (rs.foldl handle acc)).2 =
      (drain d ds (fun rs r => rs ++ [r]) buffer rs).2.foldl handle acc := by
  induction buffer, rs using drain.induct d ds (fun rs r => rs ++ [r]) with
  | case1 buffer rs h => rw [drain_of_none h, drain_of_none h]
  | case2 buffer rs record rest h ih =>
    rw [drain_of_some h, drain_of_some h, ← ih, foldl_append, foldl_cons, foldl_nil]

theorem drain_snd (text : List Char) (acc : σ) :
    (drain d ds handle text acc).2 = (records d ds text).foldl handle acc :=
  drain_eq_foldl text acc []

theorem records_singleton (h : d ∉ record) : records d ds (record ++ d :: ds) = [record] := by
  have hsplit := @splitOnce?_of_not_mem d ds record h []
  rw [append_nil] at hsplit
  rw [records, drain_of_some hsplit, drain_of_none rfl]
  rfl

end

section

variable {σ : Type u} (d : Char) (ds : List Char) (handle : σ → List Char → σ)

/-- The loop over chunks of bytes, each of which is decoded by itself. -/
def receiveBytes (acc : σ) (chunks : List (List UInt8)) : σ :=
  (receive d ds handle ([], acc) (chunks.map fromUtf8Lossy)).2

def recordsOfBytes (chunks : List (List UInt8)) : List (List Char) :=
  records d ds (chunks.flatMap fromUtf8Lossy)

variable {d ds handle}

theorem receiveBytes_eq (acc : σ) (chunks : List (List UInt8)) :
    receiveBytes d ds handle acc chunks =
      (recordsOfBytes d ds chunks).foldl handle acc := by
  rw [receiveBytes, receive_eq, drain_snd, ← flatMap_def, recordsOfBytes]

/-- **Chunks that do not cut a character are received like the whole.** -/
theorem recordsOfBytes_eq {text : List Char} {chunks : List (List UInt8)}
    (hbytes : chunks.flatten = encode text) (hbegins : ∀ chunk ∈ chunks, Begins chunk) :
    recordsOfBytes d ds chunks = recordsOfBytes d ds [encode text] := by
  rw [recordsOfBytes, recordsOfBytes, flatMap_fromUtf8Lossy hbytes hbegins,
    flatMap_singleton, fromUtf8Lossy_encode]

end

end AlloyAgent.Delimited
