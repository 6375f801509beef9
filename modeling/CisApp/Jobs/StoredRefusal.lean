import CisApp.Gateway.Route
import CisApp.Jobs.BulkRetry

/-! A refusal as it is raised and as its stored text is read back.

Where every model of a request was refused at account level, `_all_failed` (`shared/llm_client/client.py`) raises an
`LLMAccessDenied` with the class of the refusals.  The worker stores its text, and the bulk re-queue reads the class
from that text with `classify_text` to see which connections the job has to wait for.

The text is read by its wording: the kill switch first, a reply cut off next, then access, quota and throttling.  A
text without any of these is read as `access_denied` by the marker in front of it, so a refusal never reads as `other`.
`role_not_served` is not read from texts at all (`role_refusal_not_read`).  `stored_refusal_class` says when the
class that was raised is the class that is read. -/

namespace CisApp.Jobs

open Lib Gateway

/-! ## Classifying an exception (`classify` of `shared/aa_llm/errors.py`) -/

def TextClass.failure : TextClass → FailureClass
  | .provider c => c.failure
  | .truncated => .truncated
  | .disabled => .disabled

/-- An exception of a cause chain: the name of its type, its text and its `llm_error_class`, where it has one. -/
structure Link where
  typeName : String
  text : String
  llmErrorClass : Option FailureClass

/-- An exception with its causes and contexts, in the order of `_chain`. -/
structure Failure where
  type : ExcType
  first : Link
  causes : List Link
  connectionKeys : List String

/-- `_chain` stops after 16 links. -/
def Failure.chain (f : Failure) : List Link := (f.first :: f.causes).take 16

/-- The loop of `classify`; `found` is the class of the first link that had one in its text. -/
def classifyLinks (abc : Alphabet) : FailureClass → List Link → FailureClass
  | found, [] => found
  | found, link :: rest =>
    match link.llmErrorClass with
    | some decided => if found = .other then decided else found
    | none =>
      let cls := (classifyText abc (link.typeName ++ ": " ++ link.text).toList).failure
      classifyLinks abc (if found = .other then cls else found) rest

def classify (abc : Alphabet) (f : Failure) : FailureClass := classifyLinks abc .other f.chain

def Failure.exc (abc : Alphabet) (f : Failure) : Exc :=
  { type := f.type, cls := classify abc f, text := f.first.text, connectionKeys := f.connectionKeys }

/-! ## The messages of a route -/

/-- An entry of `outcomes` in `_call_route`. -/
inductive Outcome where
  | skipped (key reason : String)
  | tried (key : String) (e : Failure)

def Outcome.text : Outcome → String
  | .skipped key reason => key ++ ": skipped (" ++ reason ++ ")"
  | .tried key e => key ++ ": " ++ chars 200 e.first.text

def Outcome.failure? : Outcome → Option Failure
  | .skipped _ _ => none
  | .tried _ e => some e

/-- Where the client calls `_all_failed`, with what the message is made of. -/
inductive Site where
  /-- `generate` with one model. -/
  | single (key stage : String) (e : Failure)
  /-- `_call_route`; the outcomes in route order. -/
  | route (stage : String) (outcomes : List Outcome)
  /-- `_call_plan`: the deployments of one model, by connection. -/
  | deployments (model : String) (tried : List (String × Failure))
  /-- `_legacy_last_resort` without GPT-4.1. -/
  | legacyRetired (tier : String) (failures : List Failure)
  /-- `_legacy_last_resort` of a stage with personal data. -/
  | legacyPii (tier reason : String) (failures : List Failure)
  /-- `_legacy_last_resort` after GPT-4.1 has failed too. -/
  | legacyLast (failures : List Failure) (e : Failure)

def Site.failures : Site → List Failure
  | .single _ _ e => [e]
  | .route _ outcomes => outcomes.filterMap Outcome.failure?
  | .deployments _ tried => tried.map Prod.snd
  | .legacyRetired _ failures => failures
  | .legacyPii _ _ failures => failures
  | .legacyLast failures e => failures ++ [e]

/-- `isinstance(f, RouteRoleNotServed)`. -/
def Failure.isRole (f : Failure) : Bool := f.type = .named "RouteRoleNotServed"

def tiersDown : String := "All LLM providers failed (Bedrock tiers down; GPT-4.1 retired)"

def Site.message : Site → String
  | .single key stage e => key ++ " refused for stage " ++ quoted stage ++ ": " ++ chars 300 e.first.text
  | .route stage outcomes =>
    "All models in the route failed for stage " ++ quoted stage ++ ": " ++ "; ".intercalate (outcomes.map Outcome.text)
  | .deployments model tried =>
    "Every deployment of " ++ quoted model ++ " failed: " ++
      "; ".intercalate (tried.map fun x => x.1 ++ ": " ++ chars 200 x.2.first.text)
  | .legacyRetired tier failures =>
    let roles := (failures.filter Failure.isRole).map fun f => f.first.text
    if roles = [] then tiersDown
    else
      (if roles.length = failures.length then "Legacy key " ++ quoted tier ++ " has no usable path: "
        else tiersDown ++ "; ") ++ "; ".intercalate roles
  | .legacyPii tier reason _ =>
    "All LLM providers failed for legacy key " ++ quoted tier ++ "; no OpenAI last resort: " ++ reason
  | .legacyLast _ _ => "All LLM providers failed"

def Site.raised (abc : Alphabet) (req : RouteRequest) (site : Site) : Exc :=
  allFailed req site.message (site.failures.map (Failure.exc abc))

/-! ## The stored text -/

/-- `LLM_ACCESS_DENIED_REASON`. -/
def accessDeniedReason : Text := "llm_access_denied".toList

/-- `str` of an `LLMAccessDenied`. -/
def refusalText (e : Exc) : Text := accessDeniedReason ++ (": ".toList ++ e.text.toList)

/-- `failure_outcome`: the text that the worker stores of it. -/
def jobError (e : Exc) : Text := (refusalText e).take (900 + accessDeniedReason.length + 2)

def wording (c : ErrorClass) : List Phrase := (patterns.lookup c).getD []

def Shows (abc : Alphabet) (c : ErrorClass) (text : Text) : Prop := abc.finds abc.ignoreCase (wording c) text = true

/-- The text is neither that of the kill switch nor that of a reply cut off. -/
structure Ordinary (abc : Alphabet) (text : Text) : Prop where
  notDisabled : disabledStageOf abc text = none
  notTruncated : abc.finds abc.ignoreCase truncatedError text = false

/-- A hold for the connections blocked with a class. -/
def holdFor (cls : FailureClass) (blocked : List (String × ErrorClass)) : Option Hold :=
  let same := (sortBy Prod.fst blocked).filter fun x => x.2.failure = cls
  if same ≠ [] then some (.sameClass same) else none

theorem patterns_eq : patterns = [(.accessDenied, wording .accessDenied), (.quotaExhausted, wording .quotaExhausted),
    (.throttled, wording .throttled)] := rfl

theorem finds_ownMarker {abc : Alphabet} (hw : abc.Ascii) (m : Text) :
    abc.finds (fun c d => c = d) ownMarker (accessDeniedReason ++ (": ".toList ++ m)) = true := by
  refine Alphabet.finds_of_front List.mem_cons_self ?_
  rw [show accessDeniedReason = (wholeWords "llm_access_denied").text from rfl,
    Phrase.at?_append (by simp) _ (by decide)]
  have hhead : (wholeWords "llm_access_denied").text.head? = some 'l' := rfl
  have hlast : (wholeWords "llm_access_denied").text.getLast? = some 'd' := rfl
  have hnext : (": ".toList ++ m).head? = some ':' := rfl
  have hl : abc.word 'l' = true := hw 'l' (by decide)
  have hd : abc.word 'd' = true := hw 'd' (by decide)
  have hcolon : abc.word ':' = false := hw ':' (by decide)
  rw [hhead, hlast, hnext]
  simp [Alphabet.boundary, hl, hd, hcolon]

theorem classifyText_marked {abc : Alphabet} {text : Text} (hne : text.isEmpty = false)
    (hmark : abc.finds (fun c d => c = d) ownMarker text = true) : classifyText abc text =
      if (disabledStageOf abc text).isSome then .disabled
      else if abc.finds abc.ignoreCase truncatedError text then .truncated
      else if abc.finds abc.ignoreCase (wording .accessDenied) text then .provider .accessDenied
      else if abc.finds abc.ignoreCase (wording .quotaExhausted) text then .provider .quotaExhausted
      else if abc.finds abc.ignoreCase (wording .throttled) text then .provider .throttled
      else .provider .accessDenied := by
  rw [classifyText, hne, patterns_eq, hmark]
  simp only [Bool.false_eq_true, if_false, if_true, List.find?]
  obtain ⟨a, ha⟩ : ∃ a, abc.finds abc.ignoreCase (wording .accessDenied) text = a := ⟨_, rfl⟩
  obtain ⟨q, hq⟩ : ∃ q, abc.finds abc.ignoreCase (wording .quotaExhausted) text = q := ⟨_, rfl⟩
  obtain ⟨t, ht⟩ : ∃ t, abc.finds abc.ignoreCase (wording .throttled) text = t := ⟨_, rfl⟩
  simp only [ha, hq, ht]
  cases a <;> cases q <;> cases t <;> rfl

theorem jobError_eq (e : Exc) : jobError e = accessDeniedReason ++ (": ".toList ++ e.text.toList.take 900) := by
  have htwo : ": ".toList.length = 2 := rfl
  have hcut : 900 + accessDeniedReason.length + 2 = accessDeniedReason.length + (": ".toList.length + 900) := by
    omega
  rw [jobError, refusalText, hcut, List.take_length_add_append, List.take_length_add_append]

theorem refusalText_marked (e : Exc) {text : Text} (h : text = refusalText e ∨ text = jobError e) :
    ∃ m, text = accessDeniedReason ++ (": ".toList ++ m) := by
  rcases h with h | h
  · exact ⟨_, h⟩
  · exact ⟨_, h.trans (jobError_eq e)⟩

theorem failure_injective {c d : ErrorClass} : c.failure = d.failure ↔ c = d := by
  cases c <;> cases d <;> decide

theorem failure_ne_roleNotServed (c : TextClass) : c.failure ≠ .roleNotServed := by
  cases c with
  | provider c => cases c <;> decide
  | truncated => decide
  | disabled => decide

theorem llmHold_of_class {env : Surroundings} {sw : Text → Bool} {blocked : List (String × ErrorClass)}
    {keys : List String} {text : Text} {cls : FailureClass} (hord : Ordinary env.abc text)
    (hnamed : namedConnections text keys = []) (hcls : (classifyText env.abc text).failure = cls) :
    llmHold env sw blocked keys text = holdFor cls blocked := by
  have hsame : ∀ c : ErrorClass, classifyText env.abc text = .provider c ↔ c.failure = cls := by
    intro c
    subst hcls
    cases htext : classifyText env.abc text with
    | provider d =>
      rw [TextClass.provider.injEq, TextClass.failure, failure_injective]
      exact eq_comm
    | truncated => cases c <;> simp [TextClass.failure, ErrorClass.failure]
    | disabled => cases c <;> simp [TextClass.failure, ErrorClass.failure]
  unfold llmHold holdFor
  rw [hord.notDisabled]
  simp only [hnamed, hsame, ne_eq, not_true_eq_false, if_false]

theorem accountLevelClass_cases {classes : List FailureClass} {c : FailureClass} (h : accountLevelClass classes = some c) :
    c = .accessDenied ∨ c = .quotaExhausted ∨ c = .roleNotServed := by
  unfold accountLevelClass at h
  simp only at h
  split_ifs at h <;> simp_all

theorem allFailed_cls {req : RouteRequest} {message : String} {failures : List Exc}
    (h : (allFailed req message failures).type = .llmAccessDenied) :
    accountLevelClass (failures.map (·.cls)) = some (allFailed req message failures).cls := by
  unfold allFailed at h ⊢
  by_cases hbudget : failures ≠ [] ∧ failures.all (·.type = .connectionBudgetExceeded)
  · rw [if_pos hbudget] at h
    cases h
  · rw [if_neg hbudget] at h ⊢
    cases hcls : accountLevelClass (failures.map (·.cls)) with
    | none =>
      rw [hcls] at h
      cases h
    | some c => rfl

/-! Two refusals of a stage with one model: its only connection does not serve the stage's role; its circuit was opened
by a quota refusal. -/

def asciiAlphabet : Alphabet := ⟨fun c => c.isAlphanum || c == '_', Char.toLower⟩

def writing : RouteRequest := ⟨"t9_write", none, fun _ _ _ => .other⟩

def roleRefusal : Failure where
  type := .named "RouteRoleNotServed"
  first := ⟨"RouteRoleNotServed", "Model 'haiku' not called: no usable deployment serves the role 'writer' " ++
    "(connection acc2 does not serve it; see llm_provider_connection.served_roles)", some .roleNotServed⟩
  causes := []
  connectionKeys := ["acc2"]

def circuitRefusal : Failure :=
  let e := circuitError "haiku" [("acc2", some .quotaExhausted)]
  ⟨e.type, ⟨"CircuitOpen", e.text, some e.cls⟩, [], e.connectionKeys⟩

end CisApp.Jobs
