import AlloyAgent.HashTable

/-!
# Routing messages of channels to agents

A message that comes in on a channel is routed to an agent: by the first binding that matches and
whose agent is known, then by a direct route of the user on this channel, then by the default agent
of the user, then by the default of the system.

`debugStr` is the text in quotes that `Debug` writes for a string, any function.

* `resolve`, and the calls that change a router;
* `resolveBinding_spec`: the most specific binding decides, and among equals the first.
-/

namespace AlloyAgent

namespace Channels

abbrev AgentId := String

inductive ChannelType where
  | telegram | whatsApp | slack | discord | signal | matrix | email | teams | mattermost
  | webChat | cli
  | custom (name : String)
  deriving DecidableEq

/-- `channel_type_str`, and `channel_type_to_str` of the router. -/
def channelTypeStr : ChannelType → String
  | .telegram => "telegram"
  | .discord => "discord"
  | .slack => "slack"
  | .whatsApp => "whatsapp"
  | .signal => "signal"
  | .matrix => "matrix"
  | .email => "email"
  | .teams => "teams"
  | .mattermost => "mattermost"
  | .webChat => "webchat"
  | .cli => "cli"
  | .custom s => s

def ChannelType.debug (debugStr : String → String) : ChannelType → String
  | .telegram => "Telegram"
  | .whatsApp => "WhatsApp"
  | .slack => "Slack"
  | .discord => "Discord"
  | .signal => "Signal"
  | .matrix => "Matrix"
  | .email => "Email"
  | .teams => "Teams"
  | .mattermost => "Mattermost"
  | .webChat => "WebChat"
  | .cli => "CLI"
  | .custom s => "Custom(" ++ debugStr s ++ ")"

/-- Match rule for agent bindings. All specified (non-None) fields must match. -/
structure BindingMatchRule where
  channel : Option String
  accountId : Option String
  peerId : Option String
  guildId : Option String
  roles : List String

/-- Specificity score for binding priority ordering. -/
def BindingMatchRule.specificity (rule : BindingMatchRule) : ℕ :=
  (if rule.peerId.isSome then 8 else 0) + (if rule.guildId.isSome then 4 else 0) +
    (if !rule.roles.isEmpty then 2 else 0) + (if rule.accountId.isSome then 2 else 0) +
    (if rule.channel.isSome then 1 else 0)

structure AgentBinding where
  agent : String
  matchRule : BindingMatchRule

structure BindingContext where
  channel : String
  accountId : Option String
  peerId : String
  guildId : Option String
  roles : List String

inductive BroadcastStrategy where
  | parallel
  | sequential
  deriving DecidableEq

structure BroadcastConfig where
  strategy : BroadcastStrategy
  routes : Table String (List String)

/-- Routes incoming messages to the correct agent. -/
structure AgentRouter where
  userDefaults : Table String AgentId
  directRoutes : Table (String × String) AgentId
  defaultAgent : Option AgentId
  bindings : List AgentBinding
  broadcast : BroadcastConfig
  agentNameCache : Table String AgentId

namespace AgentRouter

open List

variable (debugStr : String → String) (r : AgentRouter)

def new : AgentRouter := ⟨∅, ∅, none, [], ⟨.parallel, ∅⟩, ∅⟩

def setUserDefault (userKey : String) (agentId : AgentId) : AgentRouter :=
  { r with userDefaults := r.userDefaults.insert userKey agentId }

/-- `sort_by`, which is stable: most specific first. -/
def sortBySpecificity {α : Type} (rule : α → BindingMatchRule) (l : List α) : List α :=
  l.mergeSort fun a b => (rule b).specificity ≤ (rule a).specificity

def loadBindings (bindings : List AgentBinding) : AgentRouter :=
  { r with bindings := sortBySpecificity AgentBinding.matchRule bindings }

def addBinding (binding : AgentBinding) : AgentRouter :=
  { r with bindings := sortBySpecificity AgentBinding.matchRule (r.bindings ++ [binding]) }

/-- Remove a binding by index, in the order after the sort. -/
def removeBinding (index : ℕ) : Option AgentBinding × AgentRouter :=
  (r.bindings[index]?, { r with bindings := r.bindings.eraseIdx index })

def registerAgent (name : String) (id : AgentId) : AgentRouter :=
  { r with agentNameCache := r.agentNameCache.insert name id }

/-- Check if a binding's match rule matches the context. -/
def bindingMatches (binding : AgentBinding) (ctx : BindingContext) : Bool :=
  let rule := binding.matchRule
  (rule.channel.all fun ch => ch = ctx.channel) &&
    (rule.accountId.all fun acc => ctx.accountId = some acc) &&
    (rule.peerId.all fun pid => pid = ctx.peerId) &&
    (rule.guildId.all fun gid => ctx.guildId = some gid) &&
    (rule.roles.isEmpty || rule.roles.any fun role => ctx.roles.contains role)

def resolveBinding (ctx : BindingContext) : Option AgentId :=
  r.bindings.findSome? fun binding =>
    if bindingMatches binding ctx then r.agentNameCache.lookup binding.agent else none

/-- Resolve which agent should handle a message. -/
def resolve (channelType : ChannelType) (platformUserId : String) (userKey : Option String) :
    Option AgentId :=
  let ctx : BindingContext := ⟨channelTypeStr channelType, none, platformUserId, none, []⟩
  (r.resolveBinding ctx).or <|
    (r.directRoutes.lookup (channelType.debug debugStr, platformUserId)).or <|
    (userKey.bind fun key => r.userDefaults.lookup key).or <|
    (r.userDefaults.lookup platformUserId).or r.defaultAgent

/-- Resolve broadcast: returns all agents that should receive a message for the given peer. -/
def resolveBroadcast (peerId : String) : List (String × Option AgentId) :=
  match r.broadcast.routes.lookup peerId with
  | some agentNames => agentNames.map fun name => (name, r.agentNameCache.lookup name)
  | none => []

def hasBroadcast (peerId : String) : Bool := (r.broadcast.routes.lookup peerId).isSome

/-! ## Routers that route alike -/

structure Same (r r' : AgentRouter) : Prop where
  userDefaults : ∀ key, r'.userDefaults.lookup key = r.userDefaults.lookup key
  others : r' = { r with userDefaults := r'.userDefaults }

variable {r}

theorem Same.refl : Same r r := ⟨fun _ => rfl, rfl⟩

theorem same_setUserDefault :
    Same r (r.setUserDefault key agentId) ↔ r.userDefaults.lookup key = some agentId := by
  refine ⟨fun h => ?_, fun h => ⟨fun key' => ?_, rfl⟩⟩
  · rw [← h.userDefaults key]
    exact AList.lookup_insert ..
  · by_cases hkey : key' = key
    · subst hkey
      rw [h]
      exact AList.lookup_insert ..
    · exact AList.lookup_insert_ne hkey

/-! ## The binding that decides -/

inductive Call where
  | loadBindings (bindings : List AgentBinding)
  | addBinding (binding : AgentBinding)
  | removeBinding (index : ℕ)
  | registerAgent (name : String) (id : AgentId)

def Call.exec (r : AgentRouter) : Call → AgentRouter
  | .loadBindings bindings => r.loadBindings bindings
  | .addBinding binding => r.addBinding binding
  | .removeBinding index => (r.removeBinding index).2
  | .registerAgent name id => r.registerAgent name id

/-- The bindings of a router, numbered in the order in which they came in. -/
structure Numbered where
  entries : List (AgentBinding × ℕ)
  count : ℕ

abbrev ruleOf (e : AgentBinding × ℕ) : BindingMatchRule := e.1.matchRule

/-- Further bindings come behind those that are kept, and are sorted with them. -/
def Numbered.enter (kept : List (AgentBinding × ℕ)) (bindings : List AgentBinding)
    (s : Numbered) : Numbered :=
  ⟨sortBySpecificity ruleOf (kept ++ bindings.zipIdx s.count), s.count + bindings.length⟩

def Call.number (s : Numbered) : Call → Numbered
  | .loadBindings bindings => s.enter [] bindings
  | .addBinding binding => s.enter s.entries [binding]
  | .removeBinding index => { s with entries := s.entries.eraseIdx index }
  | .registerAgent _ _ => s

def run (calls : List Call) : AgentRouter := calls.foldl Call.exec new

def numbered (calls : List Call) : Numbered := calls.foldl Call.number ⟨[], 0⟩

/-- More specific, or loaded or added first. -/
def Before (e e' : AgentBinding × ℕ) : Prop :=
  (ruleOf e').specificity < (ruleOf e).specificity ∨
    (ruleOf e').specificity = (ruleOf e).specificity ∧ e.2 < e'.2

/-- The binding matches, and its agent is registered. -/
def Offers (r : AgentRouter) (ctx : BindingContext) (binding : AgentBinding) (id : AgentId) :
    Prop :=
  bindingMatches binding ctx ∧ r.agentNameCache.lookup binding.agent = some id

inductive Field where
  | channel | account | peer | guild | roles

def constrains (rule : BindingMatchRule) : Field → Bool
  | .channel => rule.channel.isSome
  | .account => rule.accountId.isSome
  | .peer => rule.peerId.isSome
  | .guild => rule.guildId.isSome
  | .roles => !rule.roles.isEmpty

theorem filter_sortBySpecificity {α : Type} (rule : α → BindingMatchRule) (l : List α) (n : ℕ) :
    (sortBySpecificity rule l).filter (fun a => (rule a).specificity = n) =
      l.filter fun a => (rule a).specificity = n := by
  have hsub : l.filter (fun a => (rule a).specificity = n) <+ sortBySpecificity rule l := by
    refine sublist_mergeSort ?_ ?_ (pairwise_of_forall_mem_list fun a ha b hb => ?_) filter_sublist
    · simp only [decide_eq_true_eq]
      exact fun a b c hab hbc => hbc.trans hab
    · simp only [Bool.or_eq_true, decide_eq_true_eq]
      exact fun a b => Nat.le_total ..
    · simp only [mem_filter, decide_eq_true_eq] at ha hb ⊢
      omega
  have hfilter := hsub.filter fun a => decide ((rule a).specificity = n)
  simp only [filter_filter, Bool.and_self] at hfilter
  exact (hfilter.eq_of_length ((mergeSort_perm ..).filter _).length_eq.symm).symm

theorem pairwise_sort
    (h : l.Pairwise fun e e' => (ruleOf e').specificity = (ruleOf e).specificity → e.2 < e'.2) :
    (sortBySpecificity ruleOf l).Pairwise Before := by
  have hsorted : (sortBySpecificity ruleOf l).Pairwise fun e e' =>
      (ruleOf e').specificity ≤ (ruleOf e).specificity := by
    simpa [sortBySpecificity] using @pairwise_mergeSort _ (fun e e' : AgentBinding × ℕ =>
      (ruleOf e').specificity ≤ (ruleOf e).specificity) (by simp; omega) (by simp; omega) l
  rw [pairwise_iff_forall_sublist] at h hsorted ⊢
  intro e e' hsub
  rcases (hsorted hsub).lt_or_eq with hlt | heq
  · exact .inl hlt
  · -- two equally specific entries stand in the sorted list as they did before
    have hpair := hsub.filter fun a => decide ((ruleOf a).specificity = (ruleOf e).specificity)
    rw [filter_sortBySpecificity] at hpair
    simp only [filter_cons, heq, decide_true, if_true, filter_nil] at hpair
    exact .inr ⟨heq, h (hpair.trans filter_sublist) heq⟩

structure Inv (r : AgentRouter) (s : Numbered) : Prop where
  bindings : r.bindings = s.entries.map Prod.fst
  sorted : s.entries.Pairwise Before
  counted : ∀ e ∈ s.entries, e.2 < s.count

theorem map_fst_sort (l : List (AgentBinding × ℕ)) : (sortBySpecificity ruleOf l).map Prod.fst =
    sortBySpecificity AgentBinding.matchRule (l.map Prod.fst) :=
  map_mergeSort fun _ _ _ _ => rfl

theorem Inv.enter {s : Numbered} {bindings : List AgentBinding}
    (hsorted : kept.Pairwise Before) (hcounted : ∀ e ∈ kept, e.2 < s.count)
    (hr : r.bindings = sortBySpecificity AgentBinding.matchRule (kept.map Prod.fst ++ bindings)) :
    Inv r (s.enter kept bindings) where
  bindings := by
    rw [hr, Numbered.enter, map_fst_sort, map_append, zipIdx_map_fst]
  sorted := by
    have hnew : (bindings.zipIdx s.count).Pairwise fun e e' => e.2 < e'.2 := by
      rw [← pairwise_map, zipIdx_map_snd]
      exact pairwise_lt_range'
    refine pairwise_sort (pairwise_append.mpr ⟨hsorted.imp ?_, hnew.imp ?_, ?_⟩)
    · rintro e e' (hlt | ⟨-, h⟩) heq
      · omega
      · exact h
    · exact fun h _ => h
    · exact fun e he e' he' _ => (hcounted e he).trans_le (mem_zipIdx he').1
  counted := by
    intro e he
    rcases mem_append.mp ((mergeSort_perm ..).mem_iff.mp he) with he | he
    · exact (hcounted e he).trans_le (Nat.le_add_right ..)
    · exact (mem_zipIdx he).2.1

theorem Inv.exec (h : Inv r s) (call : Call) : Inv (call.exec r) (call.number s) := by
  cases call with
  | loadBindings bindings => exact .enter .nil (forall_mem_nil _) rfl
  | addBinding binding =>
    refine .enter h.sorted h.counted ?_
    rw [Call.exec, addBinding, h.bindings]
  | removeBinding index =>
    refine ⟨?_, h.sorted.sublist (eraseIdx_sublist ..), fun e he => h.counted e ?_⟩
    · exact (congrArg (·.eraseIdx index) h.bindings).trans (eraseIdx_map ..)
    · exact mem_of_mem_eraseIdx he
  | registerAgent name id => exact ⟨h.bindings, h.sorted, h.counted⟩

theorem Inv.foldl (calls : List Call) : ∀ {r : AgentRouter} {s : Numbered}, Inv r s →
    Inv (calls.foldl Call.exec r) (calls.foldl Call.number s) := by
  induction calls with
  | nil => exact fun h => h
  | cons call calls ih => exact fun h => ih (h.exec call)

theorem specificity_lt (hsub : ∀ f, constrains rule f → constrains rule' f)
    (hstrict : ∃ f, constrains rule' f ∧ ¬constrains rule f) :
    rule.specificity < rule'.specificity := by
  have := hsub .channel
  have := hsub .account
  have := hsub .peer
  have := hsub .guild
  have := hsub .roles
  obtain ⟨f, hf⟩ := hstrict
  simp only [constrains, BindingMatchRule.specificity] at *
  cases f <;> grind

/-- **The most specific binding decides**, and of equally specific ones the first. -/
theorem resolveBinding_spec (calls : List Call) (ctx : BindingContext) :
    (∀ id, (run calls).resolveBinding ctx = some id → ∃ e ∈ (numbered calls).entries,
      Offers (run calls) ctx e.1 id ∧ ∀ e' ∈ (numbered calls).entries, ∀ id',
        Offers (run calls) ctx e'.1 id' → e' = e ∨ Before e e') ∧
    ((run calls).resolveBinding ctx = none ↔
      ∀ binding ∈ (run calls).bindings, ∀ id, ¬Offers (run calls) ctx binding id) ∧
    (run calls).bindings = (numbered calls).entries.map Prod.fst ∧
    ∀ rule rule', (∀ f, constrains rule f → constrains rule' f) →
      (∃ f, constrains rule' f ∧ ¬constrains rule f) → rule.specificity < rule'.specificity := by
  have hinv : Inv (run calls) (numbered calls) :=
    Inv.foldl calls ⟨rfl, .nil, forall_mem_nil _⟩
  refine ⟨fun id hid => ?_, ?_, hinv.bindings, fun _ _ => specificity_lt⟩
  · rw [resolveBinding, hinv.bindings, findSome?_map, findSome?_eq_some_iff] at hid
    obtain ⟨front, e, back, hentries, he, hfront⟩ := hid
    have hsorted := hinv.sorted
    rw [hentries] at hsorted ⊢
    refine ⟨e, by simp, by simpa [Offers] using he, fun e' he' id' hoffers => ?_⟩
    rcases mem_append.mp he' with hmem | hmem
    · simpa [hoffers.1, hoffers.2] using hfront e' hmem
    · rcases mem_cons.mp hmem with rfl | hmem
      · exact .inl rfl
      · exact .inr (rel_of_pairwise_cons (pairwise_append.mp hsorted).2.1 hmem)
  · rw [resolveBinding, findSome?_eq_none_iff]
    refine forall₂_congr fun binding _ => ?_
    simp only [Offers, ite_eq_right_iff, Option.eq_none_iff_forall_ne_some, not_and]
    exact forall_comm

end AgentRouter

end Channels

end AlloyAgent
