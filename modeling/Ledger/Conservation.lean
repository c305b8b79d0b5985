import Ledger.Books

namespace Ledger

open Lib

/-- What the books owe their readers.  Units are ten-thousandths. -/
structure Tables.Conserving (t : Tables) : Prop where
  balance : ∀ a ∈ t.accounts,
    a.balance.units = a.openingBalance.units + posted t.ledgerEntries a.id
  range : ∀ a ∈ t.accounts, 0 ≤ a.balance.units ∧ a.balance.units < 10 ^ 16 * 10 ^ 4
  legs : ∀ entry ∈ t.ledgerEntries, ∃ debit credit,
    t.ledgerEntries.filter (·.transferId = entry.transferId) = [debit, credit] ∧
    debit.amount.units = -credit.amount.units ∧ 0 < credit.amount.units ∧
    debit.accountId ≠ credit.accountId ∧
    (t.account? debit.accountId).isSome ∧ (t.account? credit.accountId).isSome
  entries : (t.ledgerEntries.map (·.amount.units)).sum = 0
  total : (t.accounts.map (·.balance.units)).sum = (t.accounts.map (·.openingBalance.units)).sum

def IdempotencyKey.Describes (row : IdempotencyKey) (t : Tables) : Prop :=
  match row.operation, row.responseBody with
  | .createTransfer, some (.transfer r) => row.resourceId = some r.transferId ∧ ∃ debit credit,
    t.ledgerEntries.filter (·.transferId = r.transferId) = [debit, credit] ∧
    debit.accountId = r.fromAccountId ∧ credit.accountId = r.toAccountId ∧
    debit.amount.units = -credit.amount.units ∧ r.amount = serializeMoney credit.amount.toDecimal ∧
    debit.createdAt = r.createdAt ∧ credit.createdAt = r.createdAt
  | .createAccount, some (.account r) => row.resourceId = some r.id ∧ ∃ a ∈ t.accounts,
    a.id = r.id ∧ a.createdAt = r.createdAt ∧
    r.balance = serializeMoney a.openingBalance.toDecimal
  | _, _ => False

/-- No effect without a key, no key without an effect, no two keys for one effect. -/
structure Tables.Claimed (t : Tables) : Prop where
  complete : ∀ row ∈ t.idempotencyKeys, row.resourceId.isSome ∧ row.responseStatus.isSome ∧
    row.responseBody.isSome
  keys : (t.idempotencyKeys.map IdempotencyKey.key).Nodup
  transfers : Set.BijOn IdempotencyKey.resourceId
    {row | row ∈ t.idempotencyKeys ∧ row.operation = .createTransfer}
    {id | ∃ entry ∈ t.ledgerEntries, id = some entry.transferId}
  accounts : Set.BijOn IdempotencyKey.resourceId
    {row | row ∈ t.idempotencyKeys ∧ row.operation = .createAccount}
    {id | ∃ a ∈ t.accounts, id = some a.id}
  ids : (t.accounts.map Account.id).Nodup
  bodies : ∀ row ∈ t.idempotencyKeys, row.Describes t

theorem PositiveMoney.serialize_credit (m : PositiveMoney) :
    serializeMoney m.value = serializeMoney m.credit.toDecimal := by
  have units : (m.value.units 4).natAbs = m.value.magnitude Decimal.roundHalfEven 4 :=
    (m.decimalPlaces.magnitude_eq Decimal.faithful_roundHalfEven).symm
  have credit :
      m.credit.toDecimal.magnitude Decimal.roundHalfEven 4 = (m.value.units 4).natAbs := by
    rw [m.credit.toDecimal_multiple.magnitude_eq Decimal.faithful_roundHalfEven,
      Numeric.toDecimal_units]
    rfl
  have sign' : m.credit.toDecimal.negative = false := by
    exact decide_eq_false (not_lt.mpr m.positive.le)
  simp only [serializeMoney, Decimal.format, credit, units, m.negative_eq, sign']

theorem Payload.operation_eq_createTransfer {payload : Payload} :
    payload.operation = .createTransfer ↔ ∃ req, payload = .transfer req := by
  cases payload <;> simp [operation]

theorem Payload.operation_eq_createAccount {payload : Payload} :
    payload.operation = .createAccount ↔ ∃ req, payload = .account req := by
  cases payload <;> simp [operation]

namespace Commit

variable {c : Commit} {req : TransferRequest}

theorem row_operation (sha256 : String → String) (c : Commit) :
    (c.row sha256).operation = c.job.request.payload.operation := rfl

theorem opened_account {req : CreateAccountRequest} (h : c.job.request.payload = .account req) :
    c.opened = [⟨c.job.draws.first, req.initialBalance.toBalance, req.initialBalance.toBalance,
      c.startedAt⟩] := by
  simp [opened, Job.opened, h]

theorem entries_transfer (h : c.job.request.payload = .transfer req) : c.entries =
    [⟨c.job.draws.second, c.job.draws.first, req.fromAccountId, req.amount.debit, c.startedAt⟩,
      ⟨c.job.draws.third, c.job.draws.first, req.toAccountId, req.amount.credit, c.startedAt⟩] := by
  simp [entries, Job.entries, h]

theorem account_of_mem_opened {a : Account} (h : a ∈ c.opened) :
    ∃ req, c.job.request.payload = .account req := by
  unfold opened Job.opened at h
  split at h
  · next req hreq => exact ⟨req, hreq⟩
  · simp at h

theorem sum_entries (c : Commit) : (c.entries.map (·.amount.units)).sum = 0 := by
  unfold entries Job.entries
  split
  · rfl
  · simp [PositiveMoney.debit, PositiveMoney.credit]

end Commit

namespace Books

variable {sha256 : String → String} {history : List Commit} {t : Tables} {c : Commit}

theorem uniqueFirsts (b : Books sha256 history t) :
    (history.map fun c => c.job.draws.first).Nodup := by
  have := (List.nodup_flatMap.mp b.uniqueDraws).2
  rw [List.Nodup, List.pairwise_map]
  refine this.imp fun hd he => ?_
  exact hd (List.mem_cons_self) (he ▸ List.mem_cons_self)

theorem legs (b : Books sha256 history t) (hc : c ∈ history) :
    t.ledgerEntries.filter (·.transferId = c.job.draws.first) = c.entries := by
  rw [b.entries]
  refine Rows.filter_flatMap _ (fun c : Commit => c.job.draws.first) (fun c' entry h => ?_)
    b.uniqueFirsts hc
  obtain ⟨req, -, hfirst, -⟩ := Commit.mem_entries h
  exact hfirst

theorem conserving (b : Books sha256 history t) : t.Conserving := by
  have lookup {a : Account} (ha : a ∈ t.accounts) : t.account? a.id = some a :=
    Rows.lookup_of_mem b.uniqueIds ha
  have entries : (t.ledgerEntries.map (·.amount.units)).sum = 0 := by
    rw [b.entries]
    clear b
    induction history with
    | nil => rfl
    | cons c history ih =>
      rw [List.flatMap_cons, List.map_append, List.sum_append, c.sum_entries, ih]
      rfl
  refine ⟨fun a ha => b.balances a.id a (lookup ha), fun a ha => ?_, fun entry he => ?_,
    entries, ?_⟩
  · have := a.balance.inRange
    have := a.balance.nonNegative
    exact ⟨this, by omega⟩
  · obtain ⟨c, hc, hmem⟩ := b.mem_entries he
    obtain ⟨req, hreq, hfirst, -⟩ := Commit.mem_entries hmem
    obtain ⟨hfrom, hto⟩ := b.covered c hc req hreq
    refine ⟨_, _, by rw [hfirst, b.legs hc, Commit.entries_transfer hreq], ?_⟩
    exact ⟨rfl, req.amount.positive, (b.admitted c hc).distinct req hreq, hfrom, hto⟩
  · have accounts : t.accounts.map (·.balance.units) = t.accounts.map fun a =>
        a.openingBalance.units + posted t.ledgerEntries a.id :=
      List.map_congr_left fun a ha => b.balances a.id a (lookup ha)
    have postings : (t.accounts.map fun a => posted t.ledgerEntries a.id).sum =
        (t.ledgerEntries.map (·.amount.units)).sum := by
      rw [← Rows.sum_filter LedgerEntry.accountId b.uniqueIds, List.map_map]
      · rfl
      · intro entry he
        obtain ⟨c, hc, hmem⟩ := b.mem_entries he
        obtain ⟨req, hreq, -, hrow⟩ := Commit.mem_entries hmem
        obtain ⟨hfrom, hto⟩ := b.covered c hc req hreq
        rcases hrow with ⟨-, ha⟩ | ⟨-, ha⟩
        · exact ha ▸ Rows.lookup_isSome.mp hfrom
        · exact ha ▸ Rows.lookup_isSome.mp hto
    rw [accounts, List.sum_map_add, postings, entries, add_zero]

theorem eq_of_first (b : Books sha256 history t) {c c' : Commit} (hc : c ∈ history)
    (hc' : c' ∈ history) (h : c.job.draws.first = c'.job.draws.first) : c = c' :=
  List.inj_on_of_nodup_map b.uniqueFirsts hc hc' h

theorem mem_keys (b : Books sha256 history t) {row : IdempotencyKey} :
    row ∈ t.idempotencyKeys ↔ ∃ c ∈ history, row = c.row sha256 := by
  simp [b.keys, eq_comm]

theorem account_of_opened (b : Books sha256 history t) (hc : c ∈ history) {a : Account}
    (ha : a ∈ c.opened) : ∃ row, t.account? a.id = some row ∧ row.opening = a := by
  have : a ∈ t.accounts.map Account.opening := b.openings ▸ List.mem_flatMap.mpr ⟨c, hc, ha⟩
  obtain ⟨row, hrow, rfl⟩ := List.mem_map.mp this
  exact ⟨row, Rows.lookup_of_mem b.uniqueIds hrow, rfl⟩

theorem describes (b : Books sha256 history t) (hc : c ∈ history) :
    (c.row sha256).Describes t := by
  cases hreq : c.job.request.payload with
  | account req =>
    have operation : (c.row sha256).operation = .createAccount :=
      Payload.operation_eq_createAccount.mpr ⟨req, hreq⟩
    have body : (c.row sha256).responseBody = some (.account ⟨c.job.draws.first,
        serializeMoney req.initialBalance.toBalance.toDecimal, c.startedAt⟩) := by
      simp [Commit.row, Job.row, Job.body, hreq]
    obtain ⟨row, hrow, hopening⟩ := b.account_of_opened hc
      (by rw [Commit.opened_account hreq]; exact List.mem_cons_self)
    simp only [Account.opening, Account.mk.injEq] at hopening
    obtain ⟨hid, -, hbalance, hat⟩ := hopening
    simp only [IdempotencyKey.Describes, operation, body]
    exact ⟨rfl, row, Rows.mem_of_lookup hrow, hid, hat, by rw [hbalance]⟩
  | transfer req =>
    have operation : (c.row sha256).operation = .createTransfer :=
      Payload.operation_eq_createTransfer.mpr ⟨req, hreq⟩
    have body : (c.row sha256).responseBody = some (.transfer ⟨c.job.draws.first,
        req.fromAccountId, req.toAccountId, serializeMoney req.amount.value, c.startedAt⟩) := by
      simp [Commit.row, Job.row, Job.body, hreq]
    simp only [IdempotencyKey.Describes, operation, body]
    refine ⟨rfl, _, _, (b.legs hc).trans (Commit.entries_transfer hreq), rfl, rfl, rfl, ?_,
      rfl, rfl⟩
    exact req.amount.serialize_credit

theorem claimed (b : Books sha256 history t) : t.Claimed := by
  have resource (c : Commit) : (c.row sha256).resourceId = some c.job.draws.first := rfl
  have sameRow {row row' : IdempotencyKey} (h : row ∈ t.idempotencyKeys)
      (h' : row' ∈ t.idempotencyKeys) (he : row.resourceId = row'.resourceId) : row = row' := by
    obtain ⟨c, hc, rfl⟩ := b.mem_keys.mp h
    obtain ⟨c', hc', rfl⟩ := b.mem_keys.mp h'
    rw [b.eq_of_first hc hc' (Option.some.inj he)]
  refine ⟨?complete, ?keys, ⟨?_, ?_, ?_⟩, ⟨?_, ?_, ?_⟩, b.uniqueIds, ?bodies⟩
  case complete =>
    intro row hrow
    obtain ⟨c, -, rfl⟩ := b.mem_keys.mp hrow
    exact ⟨rfl, rfl, rfl⟩
  case keys =>
    have : t.idempotencyKeys.map IdempotencyKey.key = history.map fun c => c.job.key := by
      rw [b.keys, List.map_map]
      rfl
    exact this ▸ b.uniqueKeys
  case bodies =>
    intro row hrow
    obtain ⟨c, hc, rfl⟩ := b.mem_keys.mp hrow
    exact b.describes hc
  · rintro row ⟨hrow, hop⟩
    obtain ⟨c, hc, rfl⟩ := b.mem_keys.mp hrow
    obtain ⟨req, hreq⟩ := Payload.operation_eq_createTransfer.mp hop
    have legs : t.ledgerEntries.filter (·.transferId = c.job.draws.first) ≠ [] := by
      simp [b.legs hc, Commit.entries_transfer hreq]
    obtain ⟨entry, hentry⟩ := List.exists_mem_of_ne_nil _ legs
    obtain ⟨hmem, hfirst⟩ := List.mem_filter.mp hentry
    exact ⟨entry, hmem, congrArg some (of_decide_eq_true hfirst).symm⟩
  · exact fun row h row' h' he => sameRow h.1 h'.1 he
  · rintro id ⟨entry, he, rfl⟩
    obtain ⟨c, hc, hmem⟩ := b.mem_entries he
    obtain ⟨req, hreq, hfirst, -⟩ := Commit.mem_entries hmem
    exact ⟨c.row sha256, ⟨b.mem_keys.mpr ⟨c, hc, rfl⟩,
      Payload.operation_eq_createTransfer.mpr ⟨req, hreq⟩⟩, by rw [resource, hfirst]⟩
  · rintro row ⟨hrow, hop⟩
    obtain ⟨c, hc, rfl⟩ := b.mem_keys.mp hrow
    obtain ⟨req, hreq⟩ := Payload.operation_eq_createAccount.mp hop
    obtain ⟨a, ha, -⟩ := b.account_of_opened hc
      (by rw [Commit.opened_account hreq]; exact List.mem_cons_self)
    exact ⟨a, Rows.mem_of_lookup ha, congrArg some (Rows.key_of_lookup ha).symm⟩
  · exact fun row h row' h' he => sameRow h.1 h'.1 he
  · rintro id ⟨a, ha, rfl⟩
    obtain ⟨c, hc, hmem⟩ := b.mem_accounts ha
    obtain ⟨req, hreq⟩ := Commit.account_of_mem_opened hmem
    have hfirst : a.id = c.job.draws.first := (Commit.mem_opened hmem).1
    exact ⟨c.row sha256, ⟨b.mem_keys.mpr ⟨c, hc, rfl⟩,
      Payload.operation_eq_createAccount.mpr ⟨req, hreq⟩⟩, by rw [resource, hfirst]⟩

end Books

theorem ledger_invariant {sha256 : String → String} (x : Run (serveRequest sha256)) :
    x.last.server.committed.Conserving :=
  (Inv.books x.ran).conserving

theorem claim_and_effect_inseparable {sha256 : String → String} (x : Run (serveRequest sha256)) :
    x.last.server.committed.Claimed :=
  (Inv.books x.ran).claimed

end Ledger
