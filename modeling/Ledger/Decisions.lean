import Ledger.Books

namespace Ledger

open Lib

def servedAlone {α : Type} (app : App α) (clock : Timestamp) (t : Tables) :
    Tables × Except Exn α :=
  let (s, result) := app.drive (alone clock) (t, .idle)
  (s.1, result)

section respond

variable {app : App Outcome} {job : Job} {clock : Timestamp} {t t' : Tables}

theorem respond_eq (app : App Outcome) (clock : Timestamp) (s : Tables × Session) :
    (respond app).drive (alone clock) s =
      match app.drive (alone clock) s with
      | (s', .ok o) => (s', .ok (.outcome o))
      | (s', .error (.ledger error)) => (s', .ok (.envelope error error.retryable))
      | (s', .error _) => (s', .ok (.envelope .unexpected false)) := by
  rw [respond, Prog.drive_attempt_bind]
  generalize app.drive (alone clock) s = result
  obtain ⟨s', r⟩ := result
  cases r with
  | ok o => rfl
  | error e => cases e <;> rfl

theorem servedAlone_ok {o : Outcome}
    (h : sequential (fun _ => respond app) job clock t = (t', .ok (.outcome o))) :
    servedAlone app clock t = (t', .ok o) := by
  simp only [sequential, respond_eq] at h
  unfold servedAlone
  generalize app.drive (alone clock) (t, .idle) = result at h ⊢
  obtain ⟨s', r⟩ := result
  cases r with
  | ok o' => simpa using h
  | error e => cases e <;> simp at h

theorem servedAlone_error {error : LedgerError} {retryAfter : Bool} (known : error ≠ .unexpected)
    (h : sequential (fun _ => respond app) job clock t =
      (t', .ok (.envelope error retryAfter))) :
    servedAlone app clock t = (t', .error (.ledger error)) := by
  simp only [sequential, respond_eq] at h
  unfold servedAlone
  generalize app.drive (alone clock) (t, .idle) = result at h ⊢
  obtain ⟨s', r⟩ := result
  cases r with
  | ok o' => simp at h
  | error e =>
    cases e with
    | ledger error' =>
      simp only [Prod.mk.injEq, Except.ok.injEq, Response.envelope.injEq] at h
      simp only [h.1, h.2.1]
    | _ =>
      simp only [Prod.mk.injEq, Except.ok.injEq, Response.envelope.injEq] at h
      exact (known h.2.1.symm).elim

end respond

structure Moved (sha256 : String → String) (draws : Draws) (key : String) (req : TransferRequest)
    (clock : Timestamp) (source destination : Account) (t t' : Tables) : Prop where
  source : ∃ balance : Balance, t'.account? req.fromAccountId = some { source with balance } ∧
    balance.toDecimal.toRat = source.balance.toDecimal.toRat - req.amount.value.toRat
  destination : ∃ balance : Balance,
    t'.account? req.toAccountId = some { destination with balance } ∧
    balance.toDecimal.toRat = destination.balance.toDecimal.toRat + req.amount.value.toRat
  others : ∀ id, id ≠ req.fromAccountId → id ≠ req.toAccountId → t'.account? id = t.account? id
  openings : t'.accounts.map (fun a => (a.id, a.openingBalance, a.createdAt)) =
    t.accounts.map fun a => (a.id, a.openingBalance, a.createdAt)
  entries : ∃ debit credit : Amount, t'.ledgerEntries = t.ledgerEntries ++
      [⟨draws.second, draws.first, req.fromAccountId, debit, clock⟩,
        ⟨draws.third, draws.first, req.toAccountId, credit, clock⟩] ∧
    debit.toDecimal.toRat = -req.amount.value.toRat ∧
    credit.toDecimal.toRat = req.amount.value.toRat
  keys : t'.idempotencyKeys = t.idempotencyKeys ++
    [{ key, operation := .createTransfer
       requestHash := fingerprint sha256 (.transfer req)
       resourceId := some draws.first
       responseStatus := some 201
       responseBody := some (.transfer ⟨draws.first, req.fromAccountId, req.toAccountId,
        serializeMoney req.amount.value, clock⟩) }]

/-- The decision table, in order of precedence.  The conditions exclude one another and leave
no case out. -/
structure Decides (sha256 : String → String) (draws : Draws) (key : String) (req : TransferRequest)
    (clock : Timestamp) (t : Tables) (result : Tables × Except Exn Outcome) : Prop where
  sameAccount : req.fromAccountId = req.toAccountId →
    result = (t, .error (.ledger .sameAccountTransfer))
  replayed : req.fromAccountId ≠ req.toAccountId → ∀ row, t.key? key = some row →
    row.operation = .createTransfer ∧ row.requestHash = fingerprint sha256 (.transfer req) →
    result = (t, .ok { statusCode := 200, body := row.responseBody, replayed := true })
  conflict : req.fromAccountId ≠ req.toAccountId → ∀ row, t.key? key = some row →
    ¬ (row.operation = .createTransfer ∧ row.requestHash = fingerprint sha256 (.transfer req)) →
    result = (t, .error (.ledger (.idempotencyKeyConflict row.key row.operation)))
  missing : req.fromAccountId ≠ req.toAccountId → t.key? key = none →
    ∀ id, IsLeast {id | (id = req.fromAccountId ∨ id = req.toAccountId) ∧ t.account? id = none} id →
    result = (t, .error (.ledger (.accountNotFound id)))
  insufficient : req.fromAccountId ≠ req.toAccountId → t.key? key = none →
    ∀ source destination, t.account? req.fromAccountId = some source →
    t.account? req.toAccountId = some destination →
    source.balance.toDecimal.toRat < req.amount.value.toRat →
    result = (t, .error (.ledger (.insufficientFunds req.fromAccountId
      (serializeMoney source.balance.toDecimal) (serializeMoney req.amount.value))))
  outOfRange : req.fromAccountId ≠ req.toAccountId → t.key? key = none →
    ∀ source destination, t.account? req.fromAccountId = some source →
    t.account? req.toAccountId = some destination →
    ¬ source.balance.toDecimal.toRat < req.amount.value.toRat →
    10 ^ 16 ≤ destination.balance.toDecimal.toRat + req.amount.value.toRat →
    result = (t, .error (.ledger .amountOutOfRange))
  moved : req.fromAccountId ≠ req.toAccountId → t.key? key = none →
    ∀ source destination, t.account? req.fromAccountId = some source →
    t.account? req.toAccountId = some destination →
    ¬ source.balance.toDecimal.toRat < req.amount.value.toRat →
    ¬ 10 ^ 16 ≤ destination.balance.toDecimal.toRat + req.amount.value.toRat →
    Moved sha256 draws key req clock source destination t result.1 ∧
      result.2 = .ok
        { statusCode := 201
          body := some (.transfer ⟨draws.first, req.fromAccountId, req.toAccountId,
            serializeMoney req.amount.value, clock⟩)
          replayed := false }

section atomic

variable {sha256 : String → String} {job : Job} {req : TransferRequest} {clock : Timestamp}
  {t : Tables} {source destination : Account}

theorem atomic_of_taken {row : IdempotencyKey} (h : t.key? job.key = some row) :
    atomic sha256 job clock t = (t, job.replayed sha256 row) := by
  unfold atomic
  simp only [h]

theorem atomic_missing (hkey : t.key? job.key = none) (hreq : job.request.payload = .transfer req)
    {id : Uuid} (h : IsLeast
      {id | (id = req.fromAccountId ∨ id = req.toAccountId) ∧ t.account? id = none} id) :
    atomic sha256 job clock t = (t, .envelope (.accountNotFound id) false) := by
  obtain ⟨⟨mem, absent⟩, least⟩ := h
  unfold atomic
  simp only [hkey, hreq]
  cases hs : t.account? req.fromAccountId with
  | none =>
    cases hd : t.account? req.toAccountId with
    | none =>
      have lower : id ≤ min req.fromAccountId req.toAccountId :=
        le_min (least ⟨.inl rfl, hs⟩) (least ⟨.inr rfl, hd⟩)
      have upper : min req.fromAccountId req.toAccountId ≤ id := by
        rcases mem with rfl | rfl
        · exact min_le_left _ _
        · exact min_le_right _ _
      simp only [le_antisymm upper lower]
    | some destination =>
      rcases mem with rfl | rfl
      · rfl
      · rw [hd] at absent
        cases absent
  | some source =>
    rcases mem with rfl | rfl
    · rw [hs] at absent
      cases absent
    · rw [absent]

section locked

variable (hkey : t.key? job.key = none) (hreq : job.request.payload = .transfer req)
  (hs : t.account? req.fromAccountId = some source)
  (hd : t.account? req.toAccountId = some destination)

include hkey hreq hs hd

theorem atomic_insufficient (short : source.balance.toDecimal.toRat < req.amount.value.toRat) :
    atomic sha256 job clock t = (t, .envelope (.insufficientFunds req.fromAccountId
      (serializeMoney source.balance.toDecimal) (serializeMoney req.amount.value)) false) := by
  unfold atomic
  simp only [hkey, hreq, hs, hd]
  rw [if_pos (source.balance.toRat_lt_iff _ |>.mp short)]

theorem atomic_covered (covered : ¬ source.balance.toDecimal.toRat < req.amount.value.toRat) :
    atomic sha256 job clock t = job.transferred sha256 clock t req source destination := by
  unfold atomic
  simp only [hkey, hreq, hs, hd]
  rw [if_neg (mt (source.balance.toRat_lt_iff _).mpr covered)]

theorem atomic_outOfRange (covered : ¬ source.balance.toDecimal.toRat < req.amount.value.toRat)
    (full : 10 ^ 16 ≤ destination.balance.toDecimal.toRat + req.amount.value.toRat) :
    atomic sha256 job clock t = (t, .envelope .amountOutOfRange false) := by
  obtain ⟨debited, hdebited, -⟩ := source.balance.add?_debit req.amount covered
  rw [atomic_covered hkey hreq hs hd covered, Job.transferred, hdebited,
    destination.balance.add?_credit_eq_none req.amount full]

theorem atomic_moved (distinct : req.fromAccountId ≠ req.toAccountId)
    (covered : ¬ source.balance.toDecimal.toRat < req.amount.value.toRat)
    (fits : ¬ 10 ^ 16 ≤ destination.balance.toDecimal.toRat + req.amount.value.toRat) :
    Moved sha256 job.draws job.key req clock source destination t
        (atomic sha256 job clock t).1 ∧
      (atomic sha256 job clock t).2 = .outcome (job.earned clock) := by
  obtain ⟨debited, hdebited, exact_debit⟩ := source.balance.add?_debit req.amount covered
  obtain ⟨credited, hcredited, exact_credit⟩ := destination.balance.add?_credit req.amount fits
  rw [atomic_covered hkey hreq hs hd covered, Job.transferred, hdebited, hcredited]
  refine ⟨?_, rfl⟩
  change Moved _ _ _ _ _ _ _ _ (job.book sha256 clock t (Tables.setBalance
    (Tables.setBalance t.accounts req.fromAccountId debited) req.toAccountId credited))
  obtain ⟨accounts, haccounts⟩ : ∃ accounts, accounts = Tables.setBalance
    (Tables.setBalance t.accounts req.fromAccountId debited) req.toAccountId credited := ⟨_, rfl⟩
  have lookup (id : Uuid) : (job.book sha256 clock t accounts).account? id =
      ((t.account? id).map fun row =>
        if row.id = req.fromAccountId then { row with balance := debited } else row).map fun row =>
          if row.id = req.toAccountId then { row with balance := credited } else row := by
    simp only [Tables.account?, Job.book, Job.opened, hreq, List.append_nil, haccounts,
      lookup_setBalance]
  have hfrom : source.id = req.fromAccountId := Rows.key_of_lookup hs
  have hto : destination.id = req.toAccountId := Rows.key_of_lookup hd
  rw [← haccounts]
  refine ⟨⟨debited, ?_, exact_debit⟩, ⟨credited, ?_, exact_credit⟩, fun id hne hne' => ?_, ?_,
    ⟨req.amount.debit, req.amount.credit, ?_, ?_, ?_⟩, ?_⟩
  · rw [lookup, hs]
    simp [hfrom, distinct]
  · rw [lookup, hd]
    simp [hto, distinct.symm]
  · rw [lookup]
    cases h : t.account? id with
    | none => rfl
    | some row =>
      have hid : row.id = id := Rows.key_of_lookup h
      simp [hid, hne, hne']
  · have openings (rows : List Account) (id : Uuid) (b : Balance) :
        (Tables.setBalance rows id b).map (fun a => (a.id, a.openingBalance, a.createdAt)) =
          rows.map fun a => (a.id, a.openingBalance, a.createdAt) :=
      Rows.map_modify fun _ => rfl
    simp only [Job.book, Job.opened, hreq, List.append_nil, haccounts]
    rw [openings, openings]
  · simp only [Job.book, Job.entries, hreq]
  · exact req.amount.toRat_debit
  · exact req.amount.toRat_credit
  · simp [Job.book, Job.row, Job.record, Job.body, Job.operation, Job.requestHash, hreq,
      Payload.operation]

end locked

end atomic

theorem executeTransfer_decides (sha256 : String → String) (draws : Draws)
    (header : Option String) (key : String) (req : TransferRequest) (clock : Timestamp) (t : Tables)
    (hkey : requireKey header = .ok key) (distinct : draws.toList.Nodup)
    (fresh : t.Fresh draws.toList) (unmoved : t.Unmoved draws.first) :
    Decides sha256 draws key req clock t
      (servedAlone (executeTransfer sha256 draws key req) clock t) := by
  obtain ⟨job, hjob⟩ : ∃ job : Job, job = ⟨⟨header, .transfer req⟩, draws⟩ := ⟨_, rfl⟩
  have name : job.key = key := by simp [Job.key, hjob, hkey, Except.toOption]
  have payload : job.request.payload = .transfer req := by rw [hjob]
  have drawn : job.draws = draws := by rw [hjob]
  have endpoint : serveRequest sha256 job = respond (executeTransfer sha256 draws key req) := by
    simp [hjob, serveRequest, endpoint, hkey]
  have body : job.body clock = .transfer ⟨draws.first, req.fromAccountId, req.toAccountId,
      serializeMoney req.amount.value, clock⟩ := by simp [Job.body, payload, drawn]
  by_cases hne : req.fromAccountId = req.toAccountId
  · have same : servedAlone (executeTransfer sha256 draws key req) clock t =
        (t, .error (.ledger .sameAccountTransfer)) := by
      simp [servedAlone, executeTransfer, hne]
    constructor <;> intro h
    · exact same
    all_goals exact (h hne).elim
  have admitted : job.Admitted := by
    refine ⟨by rw [name, hjob]; exact hkey, fun req' h => ?_⟩
    cases payload.symm.trans h
    exact hne
  have served : sequential (fun _ => respond (executeTransfer sha256 draws key req)) job clock t =
      ((atomic sha256 job clock t).1, .ok (atomic sha256 job clock t).2) := by
    have := sequential_eq_atomic sha256 clock admitted (drawn ▸ distinct) (drawn ▸ fresh)
      (drawn ▸ unmoved)
    simp only [sequential, endpoint] at this
    exact this
  have refused {error : LedgerError} (known : error ≠ .unexpected)
      (h : atomic sha256 job clock t = (t, .envelope error false)) :
      servedAlone (executeTransfer sha256 draws key req) clock t = (t, .error (.ledger error)) :=
    servedAlone_error known (by rw [served, h])
  have replayed (row : IdempotencyKey) (h : t.key? key = some row) :
      atomic sha256 job clock t = (t, job.replayed sha256 row) := atomic_of_taken (name ▸ h)
  have operation : job.operation = .createTransfer := by rw [Job.operation, payload]; rfl
  have hash : job.requestHash sha256 = fingerprint sha256 (.transfer req) := by
    rw [Job.requestHash, payload]
  refine ⟨fun h => (hne h).elim, fun _ row hrow h => ?_, fun _ row hrow h => ?_,
    fun _ free id h => ?_, fun _ free source destination hs hd short => ?_,
    fun _ free source destination hs hd covered full => ?_,
    fun _ free source destination hs hd covered fits => ?_⟩
  · refine servedAlone_ok (served.trans ?_)
    rw [replayed row hrow, Job.replayed, if_neg (by rw [operation, hash]; tauto)]
  · refine refused (by simp [LedgerError.unexpected]) ?_
    rw [replayed row hrow, Job.replayed, if_pos (by rw [operation, hash]; tauto)]
  · exact refused (by simp [LedgerError.unexpected]) (atomic_missing (name ▸ free) payload h)
  · exact refused (by simp [LedgerError.unexpected])
      (atomic_insufficient (name ▸ free) payload hs hd short)
  · exact refused (by simp [LedgerError.unexpected])
      (atomic_outOfRange (name ▸ free) payload hs hd covered full)
  · have : Moved sha256 job.draws job.key req clock source destination t
          (atomic sha256 job clock t).1 ∧
        (atomic sha256 job clock t).2 = .outcome (job.earned clock) :=
      atomic_moved (name ▸ free) payload hs hd hne covered fits
    obtain ⟨moved, earned⟩ := this
    have result : servedAlone (executeTransfer sha256 draws key req) clock t =
        ((atomic sha256 job clock t).1, .ok (job.earned clock)) :=
      servedAlone_ok (served.trans (by rw [earned]))
    rw [result]
    refine ⟨name ▸ drawn ▸ moved, ?_⟩
    simp only [Job.earned, body]

def nothingAndFive : Tables :=
  ⟨[⟨7, ⟨⟨0, by decide⟩, by decide⟩, ⟨⟨0, by decide⟩, by decide⟩, 0⟩,
    ⟨8, ⟨⟨50000, by decide⟩, by decide⟩, ⟨⟨50000, by decide⟩, by decide⟩, 0⟩], [], []⟩

/-- SHA-256 on the body of a transfer of 5.0000 from account 8 to account 7. -/
def drainedHash (_ : String) : String :=
  "a3c38f6a49c8fbdbe2684fbc04caf9c4fce1cadd381f6ccb1d95c382ca74184a"

theorem nothingAndFive_moved : (servedAlone (executeTransfer drainedHash ⟨1, 2, 3⟩ "key"
      ⟨8, 7, ⟨⟨false, 5, 0⟩, by decide, by decide, by decide⟩⟩) 9 nothingAndFive).2 =
    .ok ⟨201, some (.transfer ⟨1, 8, 7, "5.0000", 9⟩), false⟩ := by
  have table := executeTransfer_decides drainedHash ⟨1, 2, 3⟩ (some "key") "key"
    ⟨8, 7, ⟨⟨false, 5, 0⟩, by decide, by decide, by decide⟩⟩ 9 nothingAndFive rfl (by decide)
    ⟨by simp [Tables.account?, nothingAndFive, Rows.lookup_cons, Draws.toList],
      by simp [Tables.leg?, nothingAndFive]⟩ (by simp [Tables.Unmoved, nothingAndFive])
  exact (table.moved (by decide) rfl _ _ rfl rfl
    (by norm_num [Decimal.toRat, Decimal.signed, Numeric.toDecimal])
    (by norm_num [Decimal.toRat, Decimal.signed, Numeric.toDecimal])).2

end Ledger
