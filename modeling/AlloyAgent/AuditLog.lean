import AlloyAgent.HashChain
import Mathlib.Algebra.Ring.Nat
import Mathlib.Data.List.Range

/-!
# The audit log

Every auditable action is appended to a log whose entries form a hash chain: an entry stores the
hash of its own fields together with the hash of the entry before it.

* `record`, `verifyIntegrity`: the log, as an instance of `HashChain`;
* `edit_detected_iff`, `deletion_detected_iff`: which changes are detected.
-/

namespace AlloyAgent.Audit

open List HashChain

inductive AuditAction where
  | toolInvoke
  | capabilityCheck
  | agentSpawn
  | agentKill
  | agentMessage
  | memoryAccess
  | fileAccess
  | networkAccess
  | shellExec
  | authAttempt
  | wireConnect
  | configChange
  deriving DecidableEq, Repr

/-- The `Display` text of an action, which is its `Debug` name. -/
def AuditAction.display : AuditAction → String
  | .toolInvoke => "ToolInvoke"
  | .capabilityCheck => "CapabilityCheck"
  | .agentSpawn => "AgentSpawn"
  | .agentKill => "AgentKill"
  | .agentMessage => "AgentMessage"
  | .memoryAccess => "MemoryAccess"
  | .fileAccess => "FileAccess"
  | .networkAccess => "NetworkAccess"
  | .shellExec => "ShellExec"
  | .authAttempt => "AuthAttempt"
  | .wireConnect => "WireConnect"
  | .configChange => "ConfigChange"

/-- A single entry in the hash chain. -/
structure AuditEntry where
  seq : ℕ
  timestamp : String
  agentId : String
  action : AuditAction
  detail : String
  outcome : String
  prevHash : String
  hash : String
  deriving DecidableEq, Repr

structure AuditLog where
  entries : List AuditEntry
  tip : String

/-- The hash before the first entry: 64 zeros. -/
def genesis : String := String.ofList (List.replicate 64 '0')

def new : AuditLog := ⟨[], genesis⟩

/-- The text that is hashed for an entry: its fields one after another. -/
def hashedText (seq : ℕ) (timestamp agentId : String) (action : AuditAction)
    (detail outcome prevHash : String) : String :=
  toString seq ++ timestamp ++ agentId ++ action.display ++ detail ++ outcome ++ prevHash

/-- The hash for a single audit entry from its fields. -/
def computeEntryHash (digest : String → String) (seq : ℕ) (timestamp agentId : String)
    (action : AuditAction) (detail outcome prevHash : String) : String :=
  digest (hashedText seq timestamp agentId action detail outcome prevHash)

def AuditEntry.recompute (digest : String → String) (e : AuditEntry) : String :=
  computeEntryHash digest e.seq e.timestamp e.agentId e.action e.detail e.outcome e.prevHash

/-- The time in RFC 3339 format, for a year of four digits. -/
structure Timestamp where
  year : List Char
  rest : List Char
  length_year : year.length = 4
  isDigit_year : ∀ c ∈ year, c.isDigit = true

def Timestamp.toRfc3339 (t : Timestamp) : String := String.ofList (t.year ++ '-' :: t.rest)

structure Action where
  agentId : String
  action : AuditAction
  detail : String
  outcome : String
  now : Timestamp

def record (digest : String → String) (log : AuditLog) (a : Action) : String × AuditLog :=
  let seq := log.entries.length
  let timestamp := a.now.toRfc3339
  let hash := computeEntryHash digest seq timestamp a.agentId a.action a.detail a.outcome log.tip
  let entry : AuditEntry :=
    ⟨seq, timestamp, a.agentId, a.action, a.detail, a.outcome, log.tip, hash⟩
  (hash, ⟨log.entries ++ [entry], hash⟩)

def recordAll (digest : String → String) (actions : List Action) : AuditLog :=
  actions.foldl (fun log a => (record digest log a).2) new

def verifyFrom (digest : String → String) : String → List AuditEntry → Except String Unit
  | _, [] => .ok ()
  | expectedPrev, entry :: entries =>
    if entry.prevHash ≠ expectedPrev then
      .error (s!"chain break at seq {entry.seq}: expected prev_hash {expectedPrev}" ++
        s!" but found {entry.prevHash}")
    else if entry.recompute digest ≠ entry.hash then
      .error (s!"hash mismatch at seq {entry.seq}: expected {entry.recompute digest}" ++
        s!" but found {entry.hash}")
    else verifyFrom digest entry.hash entries

/-- Walks the entire chain and recomputes every hash. -/
def verifyIntegrity (digest : String → String) (log : AuditLog) : Except String Unit :=
  verifyFrom digest genesis log.entries

variable {digest : String → String}

def format (digest : String → String) : Format AuditEntry String where
  prev := AuditEntry.prevHash
  hash := AuditEntry.hash
  Valid := fun e => e.recompute digest = e.hash

variable {tip : String} {entries : List AuditEntry}

theorem verifyFrom_ok_iff :
    verifyFrom digest tip entries = .ok () ↔ (format digest).Linked tip entries := by
  induction entries generalizing tip with
  | nil => simp [verifyFrom, Format.Linked]
  | cons e entries ih =>
    rw [verifyFrom, Format.Linked, ← ih]
    split_ifs with hprev hhash
    · simp [format, hprev]
    · simp [format, hhash]
    · simp [format, not_not.mp hprev, not_not.mp hhash]

theorem verifyFrom_error_iff :
    (∃ e, verifyFrom digest tip entries = .error e) ↔ ¬ (format digest).Linked tip entries := by
  rw [← verifyFrom_ok_iff]
  cases h : verifyFrom digest tip entries with
  | ok u => simp
  | error e => simp

/-- What all logs that `record` has written have in common. -/
structure WellFormed (digest : String → String) (log : AuditLog) : Prop where
  linked : (format digest).Linked genesis log.entries
  tip : log.tip = (format digest).tipAfter genesis log.entries
  seq : log.entries.map AuditEntry.seq = List.range log.entries.length
  timestamp : ∀ e ∈ log.entries, ∃ t : Timestamp, e.timestamp = t.toRfc3339

theorem wellFormed_record (h : WellFormed digest log) (a : Action) :
    WellFormed digest (record digest log a).2 where
  linked := Format.linked_append.mpr ⟨h.linked, h.tip, rfl, trivial⟩
  tip := by simp [record, format]
  seq := by simp [record, h.seq, range_succ]
  timestamp := by
    intro e he
    rcases mem_append.mp he with hold | hnew
    · exact h.timestamp e hold
    · obtain rfl := mem_singleton.mp hnew
      exact ⟨a.now, rfl⟩

theorem wellFormed_recordAll (digest : String → String) (actions : List Action) :
    WellFormed digest (recordAll digest actions) := by
  have hrun : ∀ log, WellFormed digest log →
      WellFormed digest (actions.foldl (fun log a => (record digest log a).2) log) := by
    induction actions with
    | nil => exact fun _ h => h
    | cons a actions ih => exact fun log h => ih _ (wellFormed_record h a)
  exact hrun new ⟨trivial, rfl, rfl, nofun⟩

/-- The fields of an entry other than the two hashes. -/
def AuditEntry.contents (e : AuditEntry) : ℕ × String × String × AuditAction × String × String :=
  (e.seq, e.timestamp, e.agentId, e.action, e.detail, e.outcome)

theorem AuditEntry.eq_of_contents {e e' : AuditEntry} (hcontents : e.contents = e'.contents)
    (hprev : e.prevHash = e'.prevHash) (hhash : e.hash = e'.hash) : e = e' := by
  cases e
  cases e'
  simp only [AuditEntry.contents, Prod.mk.injEq] at hcontents
  simp_all only

theorem recompute_eq (hl : (format digest).Linked tip l) (hl' : (format digest).Linked tip' l')
    (he : e ∈ l) (he' : e' ∈ l') (hhash : e.hash = e'.hash) :
    e.recompute digest = e'.recompute digest :=
  calc e.recompute digest = e.hash := hl.valid he
    _ = e'.hash := hhash
    _ = e'.recompute digest := (hl'.valid he').symm

/-- The six fields of an entry as they are hashed, in front of the hash of the entry before it. -/
def AuditEntry.fields (e : AuditEntry) : String :=
  toString e.seq ++ e.timestamp ++ e.agentId ++ e.action.display ++ e.detail ++ e.outcome

def AuditEntry.text (e : AuditEntry) : String := e.fields ++ e.prevHash

/-- At most the borders between the six fields have been moved; the two hashes are as before. -/
structure AuditEntry.SameText (e' e : AuditEntry) : Prop where
  fields : e'.fields = e.fields
  prevHash : e'.prevHash = e.prevHash
  hash : e'.hash = e.hash

/-- Texts that end with hashes of one length are cut in one way. -/
theorem AuditEntry.fields_eq_of_text {e e' : AuditEntry} (htext : e.text = e'.text)
    (hlength : e.prevHash.length = e'.prevHash.length) :
    e.fields = e'.fields ∧ e.prevHash = e'.prevHash := by
  have hlists := congrArg String.toList htext
  rw [text, text, String.toList_append, String.toList_append] at hlists
  rw [← String.length_toList, ← String.length_toList] at hlength
  obtain ⟨hfields, hprev⟩ := append_inj' hlists hlength
  exact ⟨String.toList_inj.mp hfields, String.toList_inj.mp hprev⟩

theorem eq_of_sameText {l' l : List AuditEntry} (h : Forall₂ AuditEntry.SameText l' l)
    (hcontents : l'.map AuditEntry.contents = l.map AuditEntry.contents) : l' = l := by
  induction h with
  | nil => rfl
  | cons hsame _ ih =>
    obtain ⟨hhead, htail⟩ := List.cons.inj hcontents
    rw [AuditEntry.eq_of_contents hhead hsame.prevHash hsame.hash, ih htail]

/-- The hashes in a log have 64 characters if all digests have. -/
theorem length_prevHash (hlength : ∀ text, (digest text).length = 64)
    (h : (format digest).Linked genesis l) (he : e ∈ l) : e.prevHash.length = 64 := by
  have hprev : e.prevHash ∈ genesis :: l.map AuditEntry.hash := h.prev_mem he
  rcases mem_cons.mp hprev with hgenesis | hmem
  · rw [hgenesis]
    rfl
  · obtain ⟨e', he', heq⟩ := mem_map.mp hmem
    have hvalid : e'.recompute digest = e'.hash := h.valid he'
    rw [← heq, ← hvalid]
    exact hlength _

/-- **Edits** that keep the number of entries and the tip go undetected exactly if every entry has
the text that it had: the hash does not tell where one field ends and the next one begins. -/
theorem edit_detected_iff (actions : List Action) (changed : List AuditEntry)
    (hlength : ∀ text, (digest text).length = 64)
    (hinj : ∀ e' ∈ changed, ∀ e ∈ (recordAll digest actions).entries,
      digest e'.text = digest e.text → e'.text = e.text)
    (hcount : changed.length = (recordAll digest actions).entries.length)
    (htip : (format digest).tipAfter genesis changed = (recordAll digest actions).tip) :
    (verifyIntegrity digest ⟨changed, (recordAll digest actions).tip⟩ = .ok () ↔
      Forall₂ AuditEntry.SameText changed (recordAll digest actions).entries) ∧
    ((verifyIntegrity digest ⟨changed, (recordAll digest actions).tip⟩ = .ok () →
        changed = (recordAll digest actions).entries) ↔
      (Forall₂ AuditEntry.SameText changed (recordAll digest actions).entries →
        changed.map AuditEntry.contents =
          (recordAll digest actions).entries.map AuditEntry.contents)) := by
  have horig := wellFormed_recordAll digest actions
  have hok : verifyIntegrity digest ⟨changed, (recordAll digest actions).tip⟩ = .ok () ↔
      Forall₂ AuditEntry.SameText changed (recordAll digest actions).entries := by
    rw [verifyIntegrity, verifyFrom_ok_iff]
    refine ⟨fun h => h.forall₂_of_tip ?_ horig.linked hcount (htip.trans horig.tip), fun h => ?_⟩
    · intro e' he' e he hvalid' hvalid hhash
      have htext := hinj e' he' e he (hvalid'.trans (hhash.trans hvalid.symm))
      obtain ⟨hfields, hprev⟩ := AuditEntry.fields_eq_of_text htext
        ((length_prevHash hlength h he').trans (length_prevHash hlength horig.linked he).symm)
      exact ⟨⟨hfields, hprev, hhash⟩, hprev⟩
    · refine horig.linked.of_forall₂ (h.imp fun e' e hsame => ⟨fun hvalid => ?_, hsame.2, hsame.3⟩)
      have htext : e'.text = e.text := by
        rw [AuditEntry.text, AuditEntry.text, hsame.fields, hsame.prevHash]
      exact (congrArg digest htext).trans (hvalid.trans hsame.hash.symm)
  rw [hok]
  exact ⟨Iff.rfl, imp_congr_right fun hsame => ⟨congrArg _, eq_of_sameText hsame⟩⟩

theorem hashedText_move (seq : ℕ) (timestamp agentId : String) (action : AuditAction)
    (detail moved outcome prevHash : String) :
    hashedText seq timestamp agentId action (detail ++ moved) outcome prevHash =
      hashedText seq timestamp agentId action detail (moved ++ outcome) prevHash := by
  simp only [hashedText, String.append_assoc]

def markedDigest (text : String) : String := "#" ++ text

theorem markedDigest_injective : Function.Injective markedDigest := by
  intro s t h
  exact (String.append_right_inj "#").mp h

def today : Timestamp where
  year := ['2', '0', '2', '6']
  rest := "01-01T00:00:00+00:00".toList
  length_year := rfl
  isDigit_year := List.all_eq_true.mp (by decide)

def deniedDelete : Action := ⟨"agent-1", .shellExec, "rm -rf /", "denied", today⟩

def movedOutcome : AuditEntry :=
  { seq := 0
    timestamp := today.toRfc3339
    agentId := "agent-1"
    action := .shellExec
    detail := "rm -rf /" ++ "denied"
    outcome := ""
    prevHash := genesis
    hash := (recordAll markedDigest [deniedDelete]).tip }

/-- A digest of 64 characters that tells apart texts of odd and of even length. -/
def parityDigest (text : String) : String :=
  String.ofList (List.replicate 64 (if text.length % 2 = 0 then '0' else '1'))

def allowedOutcome : AuditEntry :=
  { movedOutcome with
    detail := "rm -rf /"
    outcome := "allowed"
    hash := (recordAll parityDigest [deniedDelete]).tip }

/-- The outcome is overwritten, and the verification fails. -/
theorem changed_outcome_detected :
    verifyIntegrity parityDigest
      ⟨[allowedOutcome], (recordAll parityDigest [deniedDelete]).tip⟩ ≠ .ok () := by
  have hlength (text : String) : (parityDigest text).length = 64 := by
    rw [parityDigest, String.length_ofList, length_replicate]
  have hiff := (edit_detected_iff [deniedDelete] [allowedOutcome] hlength
    (by decide +kernel) rfl rfl).1
  rw [Ne, hiff]
  rintro (_ | ⟨hsame, -⟩)
  exact absurd hsame.fields (by decide +kernel)

/-- The log no longer says that the command was denied, and the verification succeeds. -/
theorem moved_text_undetected :
    Function.Injective markedDigest ∧
      [movedOutcome].length = (recordAll markedDigest [deniedDelete]).entries.length ∧
      (format markedDigest).tipAfter genesis [movedOutcome] =
        (recordAll markedDigest [deniedDelete]).tip ∧
      verifyIntegrity markedDigest
        ⟨[movedOutcome], (recordAll markedDigest [deniedDelete]).tip⟩ = .ok () ∧
      [movedOutcome] ≠ (recordAll markedDigest [deniedDelete]).entries := by
  refine ⟨markedDigest_injective, rfl, rfl, verifyFrom_ok_iff.mpr ⟨rfl, ?_, trivial⟩, fun h => ?_⟩
  · exact congrArg markedDigest (hashedText_move _ _ _ _ "rm -rf /" "denied" "" _)
  · have houtcome := congrArg (List.map AuditEntry.outcome) h
    exact absurd houtcome (by decide)

theorem toList_toString_nat (n : ℕ) : (toString n).toList = Nat.toDigits 10 n := by
  rw [Nat.toString_eq_ofList_toDigits, String.toList_ofList]

theorem toDigits_inj (h : Nat.toDigits 10 m = Nat.toDigits 10 n) : m = n :=
  calc m = Nat.ofDigitChars 10 (Nat.toDigits 10 m) 0 := Nat.ofDigitChars_ten_toDigits.symm
    _ = Nat.ofDigitChars 10 (Nat.toDigits 10 n) 0 := by rw [h]
    _ = n := Nat.ofDigitChars_ten_toDigits

/-- What is hashed begins with the digits of the sequence number and exactly four more. -/
theorem takeWhile_isDigit (n : ℕ) (t : Timestamp) (u : List Char) :
    (Nat.toDigits 10 n ++ (t.toRfc3339.toList ++ u)).takeWhile Char.isDigit =
      Nat.toDigits 10 n ++ t.year := by
  have hseq : ∀ c ∈ Nat.toDigits 10 n, c.isDigit = true := fun c hc =>
    Nat.isDigit_of_mem_toDigits (by decide) le_rfl hc
  rw [takeWhile_append_of_pos hseq, Timestamp.toRfc3339, String.toList_ofList,
    append_assoc, takeWhile_append_of_pos t.isDigit_year, cons_append,
    takeWhile_cons_of_neg (by decide), append_nil]

theorem seq_eq_of_hashedText_eq {m n : ℕ} {s t : Timestamp} {u v : List Char}
    (h : (toString m).toList ++ (s.toRfc3339.toList ++ u) =
      (toString n).toList ++ (t.toRfc3339.toList ++ v)) : m = n := by
  rw [toList_toString_nat, toList_toString_nat] at h
  have htake := congrArg (List.takeWhile Char.isDigit) h
  rw [takeWhile_isDigit, takeWhile_isDigit] at htake
  exact toDigits_inj (append_inj_left' htake (s.length_year.trans t.length_year.symm))

theorem WellFormed.nodup_hash {log : AuditLog} (h : WellFormed digest log)
    (hinj : Function.Injective digest) : (log.entries.map AuditEntry.hash).Nodup := by
  have hseq : (log.entries.map AuditEntry.seq).Nodup := h.seq ▸ nodup_range
  refine List.Nodup.map_on (fun a ha b hb hhash => ?_) hseq.of_map
  obtain ⟨s, hs⟩ := h.timestamp a ha
  obtain ⟨t, ht⟩ := h.timestamp b hb
  have htext := hinj (recompute_eq h.linked h.linked ha hb hhash)
  have hlists := congrArg String.toList htext
  simp only [hashedText, String.toList_append, append_assoc, hs, ht] at hlists
  exact inj_on_of_nodup_map hseq ha hb (seq_eq_of_hashedText_eq hlists)

/-- **Deletions** are detected unless a contiguous piece that begins with 64 zeros is left. -/
theorem deletion_detected_iff (digest : String → String) (hinj : Function.Injective digest)
    (actions : List Action) (kept : List AuditEntry)
    (hsub : kept.Sublist (recordAll digest actions).entries) :
    (∃ e, verifyIntegrity digest ⟨kept, (recordAll digest actions).tip⟩ = .error e) ↔
      ¬ ∃ before after, (recordAll digest actions).entries = before ++ kept ++ after ∧
        (format digest).tipAfter genesis before = genesis := by
  have horig := wellFormed_recordAll digest actions
  rw [verifyIntegrity, verifyFrom_error_iff,
    Format.linked_sublist_iff horig.linked (horig.nodup_hash hinj) hsub]

def allowedRead : Action := ⟨"agent-1", .fileAccess, "read notes.txt", "ok", today⟩

theorem markedDigest_ne_genesis (text : String) : markedDigest text ≠ genesis := by
  intro h
  have hlist : "#".toList ++ text.toList = List.replicate 64 '0' :=
    calc "#".toList ++ text.toList = (markedDigest text).toList := String.toList_append.symm
      _ = genesis.toList := congrArg String.toList h
      _ = List.replicate 64 '0' := String.toList_ofList
  exact absurd (List.cons.inj hlist).1 (by decide)

/-- Two entries, the older of which is removed. -/
theorem removed_front_detected :
    ∃ e, verifyIntegrity markedDigest
      ⟨(recordAll markedDigest [deniedDelete, allowedRead]).entries.tail,
        (recordAll markedDigest [deniedDelete, allowedRead]).tip⟩ = .error e := by
  have hdetails : (recordAll markedDigest [deniedDelete, allowedRead]).entries.map
      AuditEntry.detail = ["rm -rf /", "read notes.txt"] := rfl
  apply (deletion_detected_iff markedDigest markedDigest_injective _ _ (tail_sublist _)).mpr
  rintro ⟨before, after, heq, htip⟩
  rcases eq_nil_or_concat before with rfl | ⟨before, e, rfl⟩
  · -- what is left does not begin with the first entry
    have hmap := congrArg (List.map AuditEntry.detail) heq
    exact absurd (List.cons.inj hmap).1 (by decide)
  · -- the entry before the gap has a hash that is not all zeros
    rw [concat_eq_append, Format.tipAfter_concat] at htip
    have hmem : e ∈ (recordAll markedDigest [deniedDelete, allowedRead]).entries := by
      rw [heq]
      simp
    have hvalid := (wellFormed_recordAll markedDigest _).linked.valid hmem
    exact markedDigest_ne_genesis _ (Eq.trans hvalid htip)

/-- Two entries, the newer of which is removed: the verification succeeds. -/
theorem truncation_undetected :
    Function.Injective markedDigest ∧
      (recordAll markedDigest [deniedDelete]).entries.Sublist
        (recordAll markedDigest [deniedDelete, allowedRead]).entries ∧
      (recordAll markedDigest [deniedDelete]).entries ≠
        (recordAll markedDigest [deniedDelete, allowedRead]).entries ∧
      verifyIntegrity markedDigest
        ⟨(recordAll markedDigest [deniedDelete]).entries,
          (recordAll markedDigest [deniedDelete, allowedRead]).tip⟩ = .ok () := by
  refine ⟨markedDigest_injective, sublist_append_left _ _, fun h => ?_, ?_⟩
  · exact absurd (congrArg List.length h) (by decide)
  · exact verifyFrom_ok_iff.mpr (wellFormed_recordAll markedDigest [deniedDelete]).linked

end AlloyAgent.Audit
