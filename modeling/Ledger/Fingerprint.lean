import Ledger.Acknowledgement

namespace Ledger

open Lib

theorem serializeMoney_eq_iff {d d' : Decimal} (h : d.Multiple 4) (h' : d'.Multiple 4) :
    serializeMoney d = serializeMoney d' ↔ d.negative = d'.negative ∧ d.toRat = d'.toRat :=
  h.format_eq_iff (by decide) h'

theorem NonNegativeMoney.toRat_of_negative {m : NonNegativeMoney} (h : m.value.negative = true) :
    m.value.toRat = 0 := by
  have := m.nonNegative
  have units : m.value.units 4 = 0 := by
    simp only [Decimal.units, Decimal.signed, h, if_true] at this ⊢
    omega
  rw [m.decimalPlaces.toRat_eq, units]
  simp

section transfer

variable (req req' : TransferRequest) (account : CreateAccountRequest)

theorem canonical_transfer_eq_iff :
    (Payload.transfer req).canonical = (Payload.transfer req').canonical ↔
      req.fromAccountId = req'.fromAccountId ∧ req.toAccountId = req'.toAccountId ∧
        req.amount.value.toRat = req'.amount.value.toRat := by
  have amounts := serializeMoney_eq_iff req.amount.decimalPlaces req'.amount.decimalPlaces
  rw [req.amount.negative_eq, req'.amount.negative_eq] at amounts
  constructor
  · intro h
    obtain ⟨hfrom, hto, hamount⟩ : (Payload.transfer req).Same (.transfer req') :=
      Payload.same_of_canonical rfl h
    exact ⟨hfrom, hto, (amounts.mp hamount).2⟩
  · rintro ⟨hfrom, hto, hamount⟩
    exact Payload.canonical_of_same ⟨hfrom, hto, amounts.mpr ⟨rfl, hamount⟩⟩

theorem canonical_transfer_ne_account :
    (Payload.transfer req).canonical ≠ (Payload.account account).canonical := by
  intro h
  have h := congrArg (fun text => text.toList[2]?) h
  simp only [canonical_transfer, canonical_account] at h
  simp at h

end transfer

theorem transfer_fingerprint_exact (req req' : TransferRequest) :
    ((Payload.transfer req).canonical = (Payload.transfer req').canonical ↔
      req.fromAccountId = req'.fromAccountId ∧ req.toAccountId = req'.toAccountId ∧
        req.amount.value.toRat = req'.amount.value.toRat) ∧
    ∀ account : CreateAccountRequest,
      (Payload.transfer req).canonical ≠ (Payload.account account).canonical :=
  ⟨canonical_transfer_eq_iff req req', canonical_transfer_ne_account req⟩

/-- To ask for one opening balance is to make one request: to the fingerprint, and to whoever
sends the second body under the key of the first. -/
structure OneMeaning (sha256 : String → String) (req req' : CreateAccountRequest) : Prop where
  fingerprints : fingerprint sha256 (.account req) = fingerprint sha256 (.account req') ↔
    req.initialBalance.value.toRat = req'.initialBalance.value.toRat
  answers : ∀ (x : Run (serveRequest sha256)) (c : Commit) (job : Job) (clock : Timestamp),
    c ∈ x.last.server.history → c.job.request.payload = .account req →
    job.request.payload = .account req' → requireKey job.request.idempotencyKey = .ok c.job.key →
    sequential (serveRequest sha256) job clock x.last.server.committed =
      (x.last.server.committed, .ok
        (if req.initialBalance.value.toRat = req'.initialBalance.value.toRat then
          .outcome { statusCode := 200, body := some (c.job.body c.startedAt), replayed := true }
        else .envelope (.idempotencyKeyConflict c.job.key .createAccount) false))

section account

variable {sha256 : String → String} {req req' : CreateAccountRequest}

theorem fingerprint_account_eq_iff (free : CollisionFree sha256 {.account req, .account req'}) :
    fingerprint sha256 (.account req) = fingerprint sha256 (.account req') ↔
      req.initialBalance.value.negative = req'.initialBalance.value.negative ∧
        req.initialBalance.value.toRat = req'.initialBalance.value.toRat := by
  rw [← serializeMoney_eq_iff req.initialBalance.decimalPlaces req'.initialBalance.decimalPlaces]
  constructor
  · intro h
    have same : (Payload.account req).Same (.account req') :=
      Payload.same_of_canonical rfl (free _ (by simp) _ (by simp) h)
    exact same
  · intro h
    have same : (Payload.account req).Same (.account req') := h
    exact congrArg sha256 (Payload.canonical_of_same same)

theorem sequential_of_commit (x : Run (serveRequest sha256)) {c : Commit} {job : Job}
    (hc : c ∈ x.last.server.history) (hreq : c.job.request.payload = .account req)
    (hreq' : job.request.payload = .account req')
    (hkey : requireKey job.request.idempotencyKey = .ok c.job.key) (clock : Timestamp) :
    sequential (serveRequest sha256) job clock x.last.server.committed =
      (x.last.server.committed, .ok
        (if fingerprint sha256 (.account req) = fingerprint sha256 (.account req') then
          .outcome { statusCode := 200, body := some (c.job.body c.startedAt), replayed := true }
        else .envelope (.idempotencyKeyConflict c.job.key .createAccount) false)) := by
  have key : job.key = c.job.key := by simp [Job.key, hkey, Except.toOption]
  have admitted : job.Admitted := ⟨key ▸ hkey, by simp [hreq']⟩
  have taken : x.last.server.committed.key? job.key = some (c.row sha256) :=
    key ▸ (Inv.books x.ran).key_of_commit hc
  have operation : (c.row sha256).operation = .createAccount := by
    rw [Commit.row_operation, hreq]
    rfl
  have hash : (c.row sha256).requestHash = fingerprint sha256 (.account req) := by
    simp [Commit.row, Job.row, Job.record, Job.requestHash, hreq]
  rw [sequential_of_taken admitted taken]
  have wanted : job.operation = .createAccount := by rw [Job.operation, hreq']; rfl
  have wantedHash : job.requestHash sha256 = fingerprint sha256 (.account req') := by
    rw [Job.requestHash, hreq']
  have body : (c.row sha256).responseBody = some (c.job.body c.startedAt) := rfl
  have name : (c.row sha256).key = c.job.key := rfl
  simp only [Job.replayed, operation, hash, wanted, wantedHash, body, name]
  by_cases h : fingerprint sha256 (.account req) = fingerprint sha256 (.account req') <;> simp [h]

end account

/-- The fingerprint keeps the sign of a zero, and keeps nothing else of an encoding. -/
theorem equal_balances_one_request {sha256 : String → String} (req req' : CreateAccountRequest)
    (free : CollisionFree sha256 {.account req, .account req'}) : OneMeaning sha256 req req' ↔
      (req.initialBalance.value.toRat = 0 → req'.initialBalance.value.toRat = 0 →
        req.initialBalance.value.negative = req'.initialBalance.value.negative) := by
  have fingerprints : fingerprint sha256 (.account req) = fingerprint sha256 (.account req') ↔ _ :=
    fingerprint_account_eq_iff free
  constructor
  · intro h hzero hzero'
    exact (fingerprints.mp (h.fingerprints.mpr (hzero.trans hzero'.symm))).1
  · intro signs
    have agree : fingerprint sha256 (.account req) = fingerprint sha256 (.account req') ↔
        req.initialBalance.value.toRat = req'.initialBalance.value.toRat := by
      refine fingerprints.trans ⟨And.right, fun h => ⟨?_, h⟩⟩
      cases hn : req.initialBalance.value.negative with
      | true =>
        have hzero := NonNegativeMoney.toRat_of_negative hn
        exact hn.symm.trans (signs hzero (h.symm.trans hzero))
      | false =>
        cases hn' : req'.initialBalance.value.negative with
        | false => rfl
        | true =>
          have hzero := NonNegativeMoney.toRat_of_negative hn'
          exact hn.symm.trans ((signs (h.trans hzero) hzero).trans hn')
    refine ⟨agree, fun x c job clock hc hreq hreq' hkey => ?_⟩
    rw [sequential_of_commit x hc hreq hreq' hkey]
    simp only [agree]

/-- `"-0"`, as it is parsed. -/
def negativeZero : CreateAccountRequest :=
  ⟨⟨⟨true, 0, 0⟩, by decide, by decide, by decide⟩⟩

theorem fiveHundred_one_request : OneMeaning swappedHash
    ⟨⟨⟨false, 500, 0⟩, by decide, by decide, by decide⟩⟩
    ⟨⟨⟨false, 50000, -2⟩, by decide, by decide, by decide⟩⟩ :=
  (equal_balances_one_request _ _ (swappedHash_collisionFree _)).mpr fun _ _ => rfl

theorem negativeZero_conflicts : ¬ ∀ (sha256 : String → String) (req req' : CreateAccountRequest),
    CollisionFree sha256 {.account req, .account req'} → OneMeaning sha256 req req' := by
  intro h
  have meaning := h swappedHash {} negativeZero (swappedHash_collisionFree _)
  have := meaning.fingerprints.mpr (by
    simp [negativeZero, NonNegativeMoney.zero, Decimal.toRat])
  revert this
  decide +kernel

end Ledger
