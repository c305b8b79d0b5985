import Ledger.ExactlyOnce
import Ledger.Site
import Ledger.Lib.Dict

namespace Ledger

open Lib

theorem ErrorType.code_injective : Function.Injective ErrorType.code := by
  intro t t' h
  cases t <;> cases t' <;> first | rfl | exact absurd h (by decide)

inductive ResponseModel
  | accountResponse
  | transferResponse
  | balanceResponse
  | transactionListResponse
  | errorResponse
  deriving DecidableEq

structure ErrorExample where
  summary : String
  code : String
  message : String
  deriving DecidableEq

structure ResponseDoc where
  model : ResponseModel
  description : String
  examples : Option (Dict String ErrorExample)

def ErrorType.errorExample (t : ErrorType) : ErrorExample := ⟨t.code, t.code, t.summary⟩

def errorDoc (types : List ErrorType) : ResponseDoc where
  model := .errorResponse
  description := " · ".intercalate (types.map fun t => "**" ++ t.code ++ "** — " ++ t.summary)
  examples := some (Dict.ofList (types.map fun t => (t.code, t.errorExample)))

/-- The `responses` block for a set of domain errors. -/
def openapiResponses (errorTypes : List ErrorType) : Dict Nat ResponseDoc :=
  (Dict.group ErrorType.statusCode errorTypes).mapValues errorDoc

/-- The failures that an endpoint documents. -/
def Operation.errorTypes : Operation → List ErrorType
  | .createTransfer => [.missingIdempotencyKey, .invalidIdempotencyKey, .sameAccountTransfer,
      .accountNotFound, .idempotencyKeyConflict, .insufficientFunds, .amountOutOfRange,
      .validationFailed, .lockTimeout]
  | .createAccount => [.missingIdempotencyKey, .invalidIdempotencyKey, .idempotencyKeyConflict,
      .validationFailed, .lockTimeout]

def readErrorTypes : List ErrorType := [.accountNotFound, .validationFailed]

structure Route where
  statusCode : Nat := 200
  responseModel : Option ResponseModel := none
  responses : Dict Nat ResponseDoc

namespace Route

def createAccount : Route where
  statusCode := 201
  responses := (Dict.ofList [
    (201, ⟨.accountResponse, "Account opened. `Idempotent-Replay: false`.", none⟩),
    (200, ⟨.accountResponse,
      "This key already opened an account with this exact body. The original " ++
      "response is replayed and **no second account exists**. " ++
      "`Idempotent-Replay: true`.", none⟩)]).setAll
    (openapiResponses Operation.createAccount.errorTypes).items

def createTransfer : Route where
  statusCode := 201
  responses := (Dict.ofList [
    (201, ⟨.transferResponse, "Transfer executed. `Idempotent-Replay: false`.", none⟩),
    (200, ⟨.transferResponse,
      "This key was already used for this exact transfer. The original " ++
      "response is replayed byte-for-byte and **no money moved**. " ++
      "`Idempotent-Replay: true`.", none⟩)]).setAll
    (openapiResponses Operation.createTransfer.errorTypes).items

def getBalance : Route where
  responseModel := some .balanceResponse
  responses := openapiResponses readErrorTypes

def listTransactions : Route where
  responseModel := some .transactionListResponse
  responses := openapiResponses readErrorTypes

def Serves (route : Route) (status : Nat) (model : ResponseModel) : Prop :=
  (route.responses.get? status).map ResponseDoc.model = some model ∨
    status = route.statusCode ∧ route.responseModel = some model

def Lists (route : Route) (status : Nat) (code : String) : Prop :=
  ∃ doc examples errorExample, route.responses.get? status = some doc ∧
    doc.model = .errorResponse ∧ doc.examples = some examples ∧
    examples.get? code = some errorExample ∧ errorExample.code = code

end Route

def Operation.route : Operation → Route
  | .createTransfer => .createTransfer
  | .createAccount => .createAccount

def ReadRequest.route : ReadRequest → Route
  | .balance _ => .getBalance
  | .transactions _ => .listTransactions

def Body.model : Body → ResponseModel
  | .account _ => .accountResponse
  | .transfer _ => .transferResponse

def Response.Documented (route : Route) : Response → Prop
  | .outcome o => ∃ body, o.body = some body ∧ route.Serves o.statusCode body.model
  | .envelope e _ => route.Lists e.statusCode e.body.code
  | .plainText | .lost => False

def ReadResponse.Documented (route : Route) : ReadResponse → Prop
  | .balance _ => route.Serves 200 .balanceResponse
  | .transactions _ => route.Serves 200 .transactionListResponse
  | .envelope e _ => route.Lists e.statusCode e.body.code
  | .plainText => False

section openapi

variable {errorTypes : List ErrorType} {t : ErrorType}

theorem get?_openapiResponses (errorTypes : List ErrorType) (status : Nat) :
    (openapiResponses errorTypes).get? status =
      if status ∈ errorTypes.map ErrorType.statusCode then
        some (errorDoc (errorTypes.filter (·.statusCode = status)))
      else none := by
  rw [openapiResponses, Dict.get?_mapValues, Dict.get?_group]
  split <;> rfl

theorem get?_examples (mem : t ∈ errorTypes) :
    (Dict.ofList (errorTypes.map fun t => (t.code, t.errorExample))).get? t.code =
      some t.errorExample := by
  refine Dict.get?_setAll_of_mem (List.mem_map_of_mem mem) fun v hv => ?_
  obtain ⟨t', -, he⟩ := List.mem_map.mp hv
  obtain ⟨hcode, rfl⟩ := Prod.mk.inj he
  rw [ErrorType.code_injective hcode]

theorem lists_of_mem {route : Route} (mem : t ∈ errorTypes)
    (hroute : ∀ doc, (openapiResponses errorTypes).get? t.statusCode = some doc →
      route.responses.get? t.statusCode = some doc) : route.Lists t.statusCode t.code := by
  have sameStatus : t ∈ errorTypes.filter (·.statusCode = t.statusCode) :=
    List.mem_filter.mpr ⟨mem, by simp⟩
  have listed : (openapiResponses errorTypes).get? t.statusCode =
      some (errorDoc (errorTypes.filter (·.statusCode = t.statusCode))) := by
    rw [get?_openapiResponses, if_pos (List.mem_map_of_mem mem)]
  exact ⟨_, _, t.errorExample, hroute _ listed, rfl, rfl, get?_examples sameStatus, rfl⟩

theorem Operation.lists {operation : Operation} {e : LedgerError}
    (mem : e.errorType ∈ operation.errorTypes) :
    operation.route.Lists e.statusCode e.body.code := by
  refine lists_of_mem mem fun doc hdoc => ?_
  cases operation <;> exact (Dict.get?_setAll_items _ _ _).trans (by rw [hdoc]; rfl)

theorem Operation.serves (operation : Operation) {status : Nat}
    (h : status = 200 ∨ status = 201) {body : Body} (hbody : body.model = match operation with
      | .createTransfer => .transferResponse
      | .createAccount => .accountResponse) :
    operation.route.Serves status body.model := by
  refine .inl ?_
  rw [hbody]
  rcases h with rfl | rfl <;> cases operation <;> rfl

theorem Operation.not_upset {operation : Operation} {a : Response}
    (h : a.Documented operation.route) : ¬ a.Upset := by
  rintro (rfl | rfl)
  · obtain ⟨doc, _, _, listed, -⟩ := h
    cases operation <;> cases listed
  · exact h

theorem ReadRequest.not_upset {request : ReadRequest} {a : ReadResponse}
    (h : a.Documented request.route) : ¬ a.Upset := by
  rintro (rfl | rfl)
  · obtain ⟨doc, _, _, listed, -⟩ := h
    cases request <;> cases listed
  · exact h

end openapi

section run

variable {sha256 : String → String} {job : Job} {es : List Event} {w : World} {r : Nat} {p : Party}
  {a : Response}

theorem serveRequest_refused (h : ¬ job.Admitted) (ha : serveRequest sha256 job = .pure a) :
    ∃ e, a = .envelope e false ∧ e.errorType ∈ job.operation.errorTypes := by
  obtain ⟨e, hserve, early⟩ := serveRequest_of_not_admitted sha256 h
  obtain rfl : a = .envelope e false := by
    rw [hserve] at ha
    cases ha
    rfl
  refine ⟨e, rfl, ?_⟩
  cases hreq : job.request.payload with
  | transfer req =>
    have operation : job.operation = .createTransfer :=
      Payload.operation_eq_createTransfer.mpr ⟨req, hreq⟩
    rw [operation]
    rcases early with rfl | rfl | ⟨length, rfl⟩ <;> simp [LedgerError.errorType,
      Operation.errorTypes]
  | account req =>
    have operation : job.operation = .createAccount :=
      Payload.operation_eq_createAccount.mpr ⟨req, hreq⟩
    rw [operation]
    cases hkey : requireKey job.request.idempotencyKey with
    | error e' =>
      have hserve' : serveRequest sha256 job = respond (.raise (.ledger e')) := by
        rw [serveRequest, endpoint, hkey]
      obtain rfl : e' = e := by
        rw [hserve] at hserve'
        exact (Response.envelope.inj (Prog.pure.inj hserve')).1.symm
      rcases requireKey_error hkey with rfl | ⟨length, rfl⟩ <;> simp [LedgerError.errorType,
        Operation.errorTypes]
    | ok key =>
      have hjob : key = job.key := by simp [Job.key, hkey, Except.toOption]
      refine (h ⟨hjob ▸ hkey, fun req' hreq' => ?_⟩).elim
      rw [hreq] at hreq'
      cases hreq'

theorem atomic_account (sha256 : String → String) {req : CreateAccountRequest}
    (hreq : job.request.payload = .account req) (clock : Timestamp) (t : Tables) :
    (∃ o, (atomic sha256 job clock t).2 = .outcome o) ∨ ∃ key operation,
      (atomic sha256 job clock t).2 = .envelope (.idempotencyKeyConflict key operation) false := by
  cases hkey : t.key? job.key with
  | some row =>
    by_cases conflict : row.operation ≠ job.operation ∨ row.requestHash ≠ job.requestHash sha256
    · exact .inr ⟨row.key, row.operation, by
        simp only [atomic, hkey, Job.replayed, if_pos conflict]⟩
    · exact .inl ⟨_, by simp only [atomic, hkey, Job.replayed, if_neg conflict]; rfl⟩
  | none => exact .inl ⟨job.earned clock, by simp only [atomic, hkey, hreq]⟩

theorem decided_listed {clock : Timestamp} {t : Tables} {e : LedgerError} {retryAfter : Bool}
    (h : atomic sha256 job clock t = (t, .envelope e retryAfter)) :
    e.errorType ∈ job.operation.errorTypes := by
  cases hreq : job.request.payload with
  | account req =>
    have operation : job.operation = .createAccount :=
      Payload.operation_eq_createAccount.mpr ⟨req, hreq⟩
    rcases atomic_account sha256 hreq clock t with ⟨o, ho⟩ | ⟨key, op, ho⟩
    · rw [h] at ho
      cases ho
    · rw [h] at ho
      cases ho
      simp [operation, LedgerError.errorType, Operation.errorTypes]
  | transfer req =>
    have operation : job.operation = .createTransfer :=
      Payload.operation_eq_createTransfer.mpr ⟨req, hreq⟩
    have decided := atomic_decided sha256 job clock t
    rw [h] at decided
    rw [operation]
    generalize hresult : (t, Response.envelope e retryAfter) = result at decided
    cases decided <;> cases congrArg Prod.snd hresult <;>
      simp [LedgerError.errorType, Operation.errorTypes]

theorem Commit.model (c : Commit) : (c.job.body c.startedAt).model = match c.job.operation with
    | .createTransfer => .transferResponse
    | .createAccount => .accountResponse := by
  unfold Job.body Job.operation Payload.operation
  cases c.job.request.payload <;> rfl

theorem Inv.refused (ran : run (World.step (serveRequest sha256)) World.init es = some w)
    (hp : w.party r = some p) (h : ¬ p.job.Admitted) : p.prog = serveRequest sha256 p.job := by
  refine run_induction (P := fun _ w => ∀ r p, w.party r = some p → ¬ p.job.Admitted →
    p.prog = serveRequest sha256 p.job) (by simp [World.init]) ?_ ran r p hp h
  intro es m e m' _ ih hstep r p hp h
  have stuck {job : Job} {c : Call} {k : Except Exn c.Reply → App Response}
      (admitted : ¬ job.Admitted) : Prog.call c k ≠ serveRequest sha256 job := by
    obtain ⟨e, he, -⟩ := serveRequest_of_not_admitted sha256 admitted
    rw [he]
    intro hcall
    cases hcall
  have other {q : Nat} {party : Party}
      (hp : Function.update m.party q (some party) r = some p)
      (hput : ¬ party.job.Admitted → party.prog = serveRequest sha256 party.job) :
      p.prog = serveRequest sha256 p.job := by
    by_cases hr : r = q
    · subst hr
      obtain rfl : party = p := by simpa using hp
      exact hput h
    · exact ih r p (by simpa [hr] using hp) h
  cases World.step_cases hstep with
  | arrived _ _ =>
    rw [World.put_party] at hp
    exact other hp fun _ => by simp
  | met hq _ =>
    rw [World.put_party] at hp
    exact other hp fun h => (stuck (by simpa using h) (ih _ _ hq (by simpa using h))).elim
  | @killed q job prog tx hq =>
    exact other hp fun h => ih q ⟨job, prog, .active tx⟩ hq h
  | crashed hq =>
    rw [World.put_party] at hp
    exact other hp fun h => (stuck (by simpa using h) (ih _ _ hq (by simpa using h))).elim
  | ticked d => exact ih r p hp h

theorem answer_documented (ran : run (World.step (serveRequest sha256)) World.init es = some w)
    (hp : w.party r = some p) (ha : w.answer r = some a) :
    a.Documented p.job.operation.route ∨ (a.Upset ∨ a = .lost) ∧ Disturbed es r := by
  cases a with
  | outcome o =>
    obtain ⟨-, c, hc, -, hbody, h⟩ := Inv.outcome ran hp ha
    refine .inl ⟨_, hbody, ?_⟩
    rcases h with ⟨hstatus, -, hop, -⟩ | ⟨hstatus, -, -, hjob⟩
    · exact Operation.serves _ (.inl hstatus) (hop ▸ c.model)
    · exact Operation.serves _ (.inr hstatus) (hjob ▸ c.model)
  | envelope e retryAfter =>
    cases Inv.grounds ran hp ha with
    | lockTimeout _ h =>
      obtain ⟨message, h⟩ := h
      cases h
      exact .inl (Operation.lists (by cases p.job.operation <;> simp [LedgerError.errorType,
        Operation.errorTypes]))
    | upset hd _ hu => exact .inr ⟨.inl hu, hd⟩
    | refused _ _ unadmitted _ =>
      obtain ⟨p', hp', hprog⟩ := World.answer_eq.mp ha
      cases hp.symm.trans hp'
      obtain ⟨e', he', mem⟩ := serveRequest_refused unadmitted
        ((Inv.refused ran hp unadmitted).symm.trans hprog)
      cases he'
      exact .inl (Operation.lists mem)
    | decided pre m clock _ _ _ _ _ hs => exact .inl (Operation.lists (decided_listed hs))
  | plainText =>
    cases Inv.grounds ran hp ha with
    | lockTimeout _ h =>
      obtain ⟨message, h⟩ := h
      cases h
    | upset hd _ hu => exact .inr ⟨.inl hu, hd⟩
    | decided pre m clock _ _ _ _ _ hs =>
      have decided := atomic_decided sha256 p.job clock m.server.committed
      rw [hs] at decided
      generalize hresult : (m.server.committed, Response.plainText) = result at decided
      cases decided <;> cases congrArg Prod.snd hresult
  | lost =>
    cases Inv.grounds ran hp ha with
    | lockTimeout _ h =>
      obtain ⟨message, h⟩ := h
      cases h
    | upset hd _ hu => exact .inr ⟨.inl hu, hd⟩
    | lost hd => exact .inr ⟨.inr rfl, hd⟩
    | decided pre m clock _ _ _ _ _ hs =>
      have decided := atomic_decided sha256 p.job clock m.server.committed
      rw [hs] at decided
      generalize hresult : (m.server.committed, Response.lost) = result at decided
      cases decided <;> cases congrArg Prod.snd hresult

theorem readAnswer_documented {es : List SiteEvent} {s : Site} {q : Nat} {reader : Reader}
    {a : ReadResponse} (ran : run (Site.step (serveRequest sha256)) Site.init es = some s)
    (hq : s.reader q = some reader) (ha : s.readAnswer q = some a) :
    a.Documented reader.request.route ∨ a.Upset ∧ Faulted es q := by
  rcases Site.seen ran hq ha with upset | ⟨pre, m, -, -, h⟩
  · exact .inr upset
  have responses : reader.request.route.responses = openapiResponses readErrorTypes := by
    cases reader.request <;> rfl
  rw [Tables.readAtOnce_eq] at h
  refine .inl ?_
  cases there : m.world.server.committed.account? reader.request.accountId with
  | none =>
    rw [there] at h
    obtain rfl := Except.ok.inj h
    have mem : ErrorType.accountNotFound ∈ readErrorTypes := by simp [readErrorTypes]
    exact lists_of_mem mem fun doc hdoc => responses ▸ hdoc
  | some account =>
    rw [there] at h
    obtain rfl := Except.ok.inj h
    cases reader.request <;> exact .inr ⟨rfl, rfl⟩

end run

/-- Every answer is one that the documentation of its endpoint announces, and none of these is the
catch-all, unless a fault has hit the request. -/
theorem answers_documented {sha256 : String → String}
    (x : Execution (Site.step (serveRequest sha256)) Site.init) :
    (∀ r p a, x.last.world.party r = some p → x.last.world.answer r = some a →
      a.Documented p.job.operation.route ∧ ¬ a.Upset ∨
        (a.Upset ∨ a = .lost) ∧ Disturbed (writes x.events) r) ∧
    ∀ q reader a, x.last.reader q = some reader → x.last.readAnswer q = some a →
      a.Documented reader.request.route ∧ ¬ a.Upset ∨ a.Upset ∧ Faulted x.events q := by
  refine ⟨fun r p a hp ha => ?_, fun q reader a hq ha => ?_⟩
  · exact (answer_documented (Site.run_world x.ran) hp ha).imp_left fun documented =>
      ⟨documented, Operation.not_upset documented⟩
  · exact (readAnswer_documented x.ran hq ha).imp_left fun documented =>
      ⟨documented, ReadRequest.not_upset documented⟩

end Ledger
