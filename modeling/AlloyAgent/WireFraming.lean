import AlloyAgent.Framing
import AlloyAgent.Wire
import Mathlib.Tactic.DeriveCountable

/-!
# Framing of wire messages

A message is written as the length of its JSON text, in four bytes, and the text.

* `readMessage_frame`, `readMessage_frame_large`: short frames and long ones;
* `roundTrip_iff`: the messages that arrive.
-/

namespace AlloyAgent.Wire

open List Framing

inductive StreamError where
  | io
  | json
  | connectionClosed
  | messageTooLarge (size max : ℕ)
  deriving DecidableEq

/-- Maximum single message size (16 MB). -/
def maxMessageSize : ℕ := 16 * 1024 * 1024

def frame (json : List UInt8) : List UInt8 := beBytes 4 (json.length % 2 ^ 32) ++ json

variable (codec : Codec WireMessage)

/-- Encode a wire message to bytes (4-byte big-endian length + JSON). -/
def encodeMessage (msg : WireMessage) : Option (List UInt8) := (codec.encode msg).map frame

def decodeLength (header : List UInt8) : ℕ := ofBeBytes header

def decodeMessage (body : List UInt8) : Option WireMessage := codec.decode body

/-- Write a framed message (4-byte length + JSON). -/
def writeMessage (out : List UInt8) (msg : WireMessage) : Except StreamError (List UInt8) :=
  match encodeMessage codec msg with
  | none => .error .json
  | some bytes => .ok (out ++ bytes)

/-- Read a framed message from a stream: the message and the rest of the stream. -/
def readMessage (stream : List UInt8) : Except StreamError (WireMessage × List UInt8) :=
  match readExact 4 stream with
  | none => .error .connectionClosed
  | some (header, rest) =>
    let len := decodeLength header
    if len > maxMessageSize then .error (.messageTooLarge len maxMessageSize)
    else
      match readExact len rest with
      | none => .error .io
      | some (body, rest) =>
        match decodeMessage codec body with
        | none => .error .json
        | some msg => .ok (msg, rest)

def writeMessages (msgs : List WireMessage) : Except StreamError (List UInt8) :=
  msgs.foldlM (writeMessage codec) []

def readMessages (stream : List UInt8) : List WireMessage × Option StreamError :=
  readLoop (readMessage codec) (stream.length + 1) stream

/-- What is written is read back, up to the end of the stream. -/
def RoundTrip (msgs : List WireMessage) : Prop :=
  ∀ stream, writeMessages codec msgs = .ok stream →
    readMessages codec stream = (msgs, some .connectionClosed)

section

variable {codec} {msg : WireMessage} {body rest : List UInt8}

@[simp] theorem length_frame (body : List UInt8) : (frame body).length = 4 + body.length := by
  rw [frame, length_append, length_beBytes]

theorem readExact_frame (body rest : List UInt8) :
    readExact 4 (frame body ++ rest) =
      some (beBytes 4 (body.length % 2 ^ 32), body ++ rest) := by
  rw [frame, append_assoc, readExact_append (length_beBytes _ _)]

theorem decodeLength_header (n : ℕ) : decodeLength (beBytes 4 (n % 2 ^ 32)) = n % 2 ^ 32 := by
  rw [decodeLength, ofBeBytes_beBytes]
  exact Nat.mod_eq_of_lt (Nat.mod_lt _ (by decide))

/-- **A frame of at most the maximum size is read back.** -/
theorem readMessage_frame (hbody : codec.encode msg = some body)
    (hsize : body.length ≤ maxMessageSize) :
    readMessage codec (frame body ++ rest) = .ok (msg, rest) := by
  have hlen : decodeLength (beBytes 4 (body.length % 2 ^ 32)) = body.length :=
    (decodeLength_header _).trans (Nat.mod_eq_of_lt (hsize.trans_lt (by decide)))
  simp only [readMessage, readExact_frame, hlen, gt_iff_lt, Nat.not_lt.mpr hsize, if_false,
    readExact_append rfl, decodeMessage, codec.decode_encode hbody]

/-- **A longer frame cannot be read**: its length is refused, or its text is cut. -/
theorem readMessage_frame_large (hbody : codec.encode msg = some body)
    (hsize : maxMessageSize < body.length) :
    ∃ e, readMessage codec (frame body ++ rest) = .error e := by
  simp only [readMessage, readExact_frame, decodeLength_header]
  split
  · exact ⟨_, rfl⟩
  · rename_i hlen
    have hcut : body.length % 2 ^ 32 < body.length := (Nat.not_lt.mp hlen).trans_lt hsize
    have hpart : body.take (body.length % 2 ^ 32) ≠ body := by
      intro heq
      have hlength := congrArg List.length heq
      rw [length_take] at hlength
      omega
    have hnone := codec.decode_cut hbody (List.take_prefix _ _) hpart
    rw [readExact_cut hcut.le]
    simp only [decodeMessage, hnone]
    exact ⟨_, rfl⟩

/-! ## Sequences of messages -/

variable {msgs : List WireMessage} {bodies : List (List UInt8)}

theorem foldlM_writeMessage :
    msgs.foldlM (writeMessage codec) out = .ok stream ↔
      ∃ bodies, List.Forall₂ (fun msg body => codec.encode msg = some body) msgs bodies ∧
        stream = out ++ bodies.flatMap frame := by
  induction msgs generalizing out with
  | nil => simp [pure, Except.pure, eq_comm]
  | cons msg msgs ih =>
    rw [foldlM_cons, writeMessage, encodeMessage]
    cases hbody : codec.encode msg with
    | none =>
      refine iff_of_false (by simp [bind, Except.bind]) ?_
      rintro ⟨bodies, hbodies, -⟩
      cases hbodies with
      | cons h _ => cases hbody.symm.trans h
    | some body =>
      simp only [Option.map_some, bind, Except.bind, ih]
      refine ⟨?_, ?_⟩
      · rintro ⟨bodies, hbodies, rfl⟩
        exact ⟨body :: bodies, .cons hbody hbodies, by simp⟩
      · rintro ⟨_, hbodies, rfl⟩
        cases hbodies with
        | cons h hrest =>
          cases hbody.symm.trans h
          exact ⟨_, hrest, by simp⟩

theorem readMessage_nil : readMessage codec [] = .error .connectionClosed := rfl

/-- The reader stays on the boundaries of the frames until one is too long. -/
theorem readLoop_frames
    (hbodies : List.Forall₂ (fun msg body => codec.encode msg = some body) msgs bodies)
    (hfuel : msgs.length < fuel) :
    readLoop (readMessage codec) fuel (bodies.flatMap frame) = (msgs, some .connectionClosed) ↔
      ∀ body ∈ bodies, body.length ≤ maxMessageSize := by
  induction hbodies generalizing fuel with
  | nil =>
    obtain ⟨fuel, rfl⟩ := Nat.exists_eq_add_one_of_ne_zero (Nat.ne_zero_of_lt hfuel)
    rw [flatMap_nil, readLoop_error readMessage_nil]
    simp
  | cons hbody hrest ih =>
    rename_i msg body msgs bodies
    obtain ⟨fuel, rfl⟩ := Nat.exists_eq_add_one_of_ne_zero (Nat.ne_zero_of_lt hfuel)
    rw [flatMap_cons, forall_mem_cons]
    by_cases hsize : body.length ≤ maxMessageSize
    · rw [readLoop_ok (readMessage_frame hbody hsize), and_iff_right hsize]
      exact ih (Nat.lt_of_succ_lt_succ hfuel)
    · obtain ⟨e, he⟩ := readMessage_frame_large hbody (Nat.not_le.mp hsize)
      rw [readLoop_error he]
      exact iff_of_false (by simp) fun h => hsize h.1

theorem length_le_frames (bodies : List (List UInt8)) :
    bodies.length ≤ (bodies.flatMap frame).length := by
  induction bodies with
  | nil => exact Nat.le_refl 0
  | cons body bodies ih =>
    rw [flatMap_cons, length_append, length_cons, length_frame]
    omega

theorem exists_bodies_iff :
    (∃ bodies, List.Forall₂ (fun msg body => codec.encode msg = some body) msgs bodies) ↔
      ∀ msg ∈ msgs, codec.encode msg ≠ none := by
  induction msgs with
  | nil => simp
  | cons msg msgs ih =>
    rw [forall_mem_cons, ← ih]
    refine ⟨?_, ?_⟩
    · rintro ⟨_, hbodies⟩
      cases hbodies with
      | cons hbody hrest => exact ⟨by simp [hbody], _, hrest⟩
    · rintro ⟨hmsg, bodies, hbodies⟩
      obtain ⟨body, hbody⟩ := Option.ne_none_iff_exists'.mp hmsg
      exact ⟨body :: bodies, .cons hbody hbodies⟩

section

variable (hbodies : List.Forall₂ (fun msg body => codec.encode msg = some body) msgs bodies)
include hbodies

theorem forall_bodies {p : List UInt8 → Prop} :
    (∀ body ∈ bodies, p body) ↔ ∀ msg ∈ msgs, ∀ body, codec.encode msg = some body → p body := by
  induction hbodies with
  | nil => simp
  | cons hbody _ ih => simp only [forall_mem_cons, hbody, Option.some.injEq, forall_eq', ih]

theorem readMessages_frames :
    readMessages codec (bodies.flatMap frame) = (msgs, some .connectionClosed) ↔
      ∀ body ∈ bodies, body.length ≤ maxMessageSize := by
  refine readLoop_frames hbodies ?_
  rw [hbodies.length_eq]
  exact Nat.lt_succ_of_le (length_le_frames bodies)

end

end

/-- **Framing round trip**, exactly if no JSON text is longer than the maximum. -/
theorem roundTrip_iff (msgs : List WireMessage) :
    RoundTrip codec msgs ↔ (∃ msg ∈ msgs, codec.encode msg = none) ∨
      ∀ msg ∈ msgs, ∀ body, codec.encode msg = some body → body.length ≤ maxMessageSize := by
  by_cases hnone : ∃ msg ∈ msgs, codec.encode msg = none
  · -- one of the messages cannot be written
    refine iff_of_true ?_ (.inl hnone)
    intro stream hwrite
    obtain ⟨bodies, hbodies, -⟩ := foldlM_writeMessage.mp hwrite
    obtain ⟨msg, hmsg, hnone⟩ := hnone
    exact absurd hnone (exists_bodies_iff.mp ⟨bodies, hbodies⟩ msg hmsg)
  · rw [or_iff_right hnone]
    push Not at hnone
    obtain ⟨bodies, hbodies⟩ := exists_bodies_iff.mpr hnone
    rw [← forall_bodies hbodies, ← readMessages_frames hbodies]
    refine ⟨fun h => h _ (foldlM_writeMessage.mpr ⟨bodies, hbodies, rfl⟩), ?_⟩
    intro hread stream hwrite
    obtain ⟨bodies', hbodies', rfl⟩ := foldlM_writeMessage.mp hwrite
    rwa [right_unique_forall₂' (fun _ _ _ hb hb' => Option.some.inj (hb.symm.trans hb')) hbodies'
      hbodies]

/-! ## A message that is too long -/

deriving instance Countable for RemoteAgentInfo
deriving instance Countable for Hello
deriving instance Countable for WireRequest
deriving instance Countable for WireResponse
deriving instance Countable for WireNotification
deriving instance Countable for WireMessageKind
deriving instance Countable for WireMessage

/-- A ping whose id has one character more than a message may have bytes. -/
def longPing : WireMessage :=
  ⟨String.ofList (List.replicate (maxMessageSize + 1) 'x'), .request .ping⟩

/-- In a format that writes the id out, this message is written and cannot be read. -/
theorem longPing_lost :
    ∃ codec : Codec WireMessage, ∃ stream, writeMessages codec [longPing] = .ok stream ∧
      ∃ e, readMessages codec stream = ([], some e) := by
  obtain ⟨codec, hcodec⟩ := exists_codec fun msg : WireMessage => msg.id.toList.length
  obtain ⟨body, hbody, hsize⟩ := hcodec longPing
  have hlarge : maxMessageSize < body.length := by
    refine Nat.lt_of_lt_of_le ?_ hsize
    rw [longPing, String.toList_ofList, length_replicate]
    exact Nat.lt_succ_self _
  obtain ⟨e, he⟩ := readMessage_frame_large  hbody hlarge
  refine ⟨codec, frame body ++ [], ?_, e, readLoop_error he⟩
  exact foldlM_writeMessage.mpr ⟨[body], .cons hbody .nil, rfl⟩

end AlloyAgent.Wire
