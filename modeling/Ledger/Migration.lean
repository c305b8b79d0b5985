import Ledger.Acknowledgement

namespace Ledger

open Lib

/-- A key row from before keys recorded their operation. -/
structure TransferKey where
  key : String
  requestHash : String
  transferId : Option Uuid
  responseStatus : Option Nat
  responseBody : Option Body
  deriving DecidableEq

def downgrade (rows : List IdempotencyKey) : List TransferKey :=
  rows.map fun row =>
    { key := row.key
      requestHash := row.requestHash
      transferId := row.resourceId
      responseStatus := row.responseStatus
      responseBody := row.responseBody }

/-- Rows that are there get the server default. -/
def upgrade (rows : List TransferKey) : List IdempotencyKey :=
  rows.map fun row =>
    { key := row.key
      operation := .createTransfer
      requestHash := row.requestHash
      resourceId := row.transferId
      responseStatus := row.responseStatus
      responseBody := row.responseBody }

def Tables.migrated (t : Tables) : Tables :=
  { t with idempotencyKeys := upgrade (downgrade t.idempotencyKeys) }

theorem upgrade_downgrade (rows : List IdempotencyKey) : upgrade (downgrade rows) =
    rows.map fun row => { row with operation := .createTransfer } := by
  simp [upgrade, downgrade, Function.comp_def]

theorem key?_migrated (t : Tables) (key : String) : t.migrated.key? key =
    (t.key? key).map fun row => { row with operation := .createTransfer } := by
  simp only [Tables.migrated, Tables.key?, upgrade_downgrade]
  induction t.idempotencyKeys with
  | nil => rfl
  | cons row rows ih =>
    rw [List.map_cons, Rows.lookup_cons, Rows.lookup_cons, ih]
    by_cases h : row.key = key <;> simp [h]

theorem migrated_eq {t : Tables} (h : ∀ row ∈ t.idempotencyKeys, row.operation = .createTransfer) :
    t.migrated = t := by
  have same : upgrade (downgrade t.idempotencyKeys) = t.idempotencyKeys := by
    rw [upgrade_downgrade]
    refine (List.map_congr_left fun row hrow => ?_).trans (List.map_id _)
    rw [← h row hrow]
    rfl
  simp only [Tables.migrated, same]

/-- Transfers need accounts, and every account was opened under a key. -/
theorem Books.keys_eq_nil {sha256 : String → String} {history : List Commit} {t : Tables}
    (b : Books sha256 history t)
    (h : ∀ row ∈ t.idempotencyKeys, row.operation = .createTransfer) : t.idempotencyKeys = [] := by
  have transfer (c : Commit) (hc : c ∈ history) : ∃ req, c.job.request.payload = .transfer req :=
    Payload.operation_eq_createTransfer.mp (h _ (b.mem_keys.mpr ⟨c, hc, rfl⟩))
  rw [List.eq_nil_iff_forall_not_mem]
  intro row hrow
  obtain ⟨c, hc, -⟩ := b.mem_keys.mp hrow
  obtain ⟨req, hreq⟩ := transfer c hc
  obtain ⟨a, ha⟩ := Option.isSome_iff_exists.mp (b.covered c hc req hreq).1
  obtain ⟨c', hc', hopened⟩ := b.mem_accounts (Rows.mem_of_lookup ha)
  obtain ⟨req', hreq'⟩ := Commit.account_of_mem_opened hopened
  obtain ⟨req'', hreq''⟩ := transfer c' hc'
  cases hreq'.symm.trans hreq''

theorem migration_keeps_answers_iff {sha256 : String → String} (x : Run (serveRequest sha256)) :
    (∀ job clock, (sequential (serveRequest sha256) job clock x.last.server.committed.migrated).2 =
        (sequential (serveRequest sha256) job clock x.last.server.committed).2) ↔
      ∀ row ∈ x.last.server.committed.idempotencyKeys, row.operation = .createTransfer := by
  have books := Inv.books x.ran
  constructor
  · intro same row hrow
    obtain ⟨c, hc, rfl⟩ := books.mem_keys.mp hrow
    by_contra hop
    have admitted := books.admitted c hc
    have taken := books.key_of_commit hc
    have taken' := key?_migrated x.last.server.committed c.job.key
    rw [taken, Option.map_some] at taken'
    have answers := same c.job 0
    rw [sequential_of_taken admitted taken, sequential_of_taken admitted taken'] at answers
    have own : c.job.replayed sha256 (c.row sha256) = .outcome
        { statusCode := 200, body := some (c.job.body c.startedAt), replayed := true } := by
      simp only [Job.replayed]
      rw [if_neg (by simp [Commit.row, Job.row, Job.record])]
      rfl
    have lost : c.job.replayed sha256 { c.row sha256 with operation := .createTransfer } =
        .envelope (.idempotencyKeyConflict c.job.key .createTransfer) false :=
      if_pos (.inl (Ne.symm hop))
    rw [own, lost] at answers
    cases answers
  · intro h job clock
    rw [migrated_eq h]

theorem accountTwice_refused : ¬ ∀ (x : Run (serveRequest swappedHash)) (job : Job)
    (clock : Timestamp),
    (sequential (serveRequest swappedHash) job clock x.last.server.committed.migrated).2 =
      (sequential (serveRequest swappedHash) job clock x.last.server.committed).2 := by
  intro h
  have := h accountTwice ⟨⟨some "key", .account {}⟩, ⟨4, 5, 6⟩⟩ 0
  revert this
  decide +kernel

end Ledger
