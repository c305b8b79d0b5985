import Ledger.Money
import Ledger.Phases

namespace Ledger

open Lib

/-! The service as a function: what one request does to the tables, all at once. -/

namespace Job

variable (sha256 : String → String) (job : Job) (clock : Timestamp)

def body : Body :=
  match job.request.payload with
  | .account req => .account
    { id := job.draws.first
      balance := serializeMoney req.initialBalance.toBalance.toDecimal
      createdAt := clock }
  | .transfer req => .transfer
    { transferId := job.draws.first
      fromAccountId := req.fromAccountId
      toAccountId := req.toAccountId
      amount := serializeMoney req.amount.value
      createdAt := clock }

def earned : Outcome := { statusCode := 201, body := some (job.body clock), replayed := false }

def row : IdempotencyKey :=
  { job.record sha256 with
    resourceId := some job.draws.first
    responseStatus := some 201
    responseBody := some (job.body clock) }

def entries : List LedgerEntry :=
  match job.request.payload with
  | .account _ => []
  | .transfer req =>
    [⟨job.draws.second, job.draws.first, req.fromAccountId, req.amount.debit, clock⟩,
      ⟨job.draws.third, job.draws.first, req.toAccountId, req.amount.credit, clock⟩]

def opened : List Account :=
  match job.request.payload with
  | .account req =>
    [⟨job.draws.first, req.initialBalance.toBalance, req.initialBalance.toBalance, clock⟩]
  | .transfer _ => []

def book (t : Tables) (accounts : List Account) : Tables where
  accounts := accounts ++ job.opened clock
  ledgerEntries := t.ledgerEntries ++ job.entries clock
  idempotencyKeys := t.idempotencyKeys ++ [job.row sha256 clock]

end Job

def Tables.setBalance (accounts : List Account) (id : Uuid) (balance : Balance) : List Account :=
  Rows.modify Account.id id ({ · with balance }) accounts

def Job.transferred (sha256 : String → String) (job : Job) (clock : Timestamp) (t : Tables)
    (req : TransferRequest) (source destination : Account) : Tables × Response :=
  match source.balance.add? req.amount.debit, destination.balance.add? req.amount.credit with
  | some debited, some credited =>
    (job.book sha256 clock t (Tables.setBalance
      (Tables.setBalance t.accounts req.fromAccountId debited) req.toAccountId credited),
      .outcome (job.earned clock))
  | _, _ => (t, .envelope .amountOutOfRange false)

def atomic (sha256 : String → String) (job : Job) (clock : Timestamp) (t : Tables) :
    Tables × Response :=
  match t.key? job.key with
  | some row => (t, job.replayed sha256 row)
  | none =>
    match job.request.payload with
    | .account _ => (job.book sha256 clock t t.accounts, .outcome (job.earned clock))
    | .transfer req =>
      match t.account? req.fromAccountId, t.account? req.toAccountId with
      | none, none =>
        (t, .envelope (.accountNotFound (min req.fromAccountId req.toAccountId)) false)
      | none, some _ => (t, .envelope (.accountNotFound req.fromAccountId) false)
      | some _, none => (t, .envelope (.accountNotFound req.toAccountId) false)
      | some source, some destination =>
        if source.balance.units < req.amount.value.units 4 then
          (t, .envelope (.insufficientFunds req.fromAccountId
            (serializeMoney source.balance.toDecimal) (serializeMoney req.amount.value)) false)
        else job.transferred sha256 clock t req source destination

inductive Decided (sha256 : String → String) (job : Job) (clock : Timestamp) (t : Tables) :
    Tables × Response → Prop
  | replayed (row : IdempotencyKey) : t.key? job.key = some row →
      row.operation = job.operation → row.requestHash = job.requestHash sha256 →
      Decided sha256 job clock t
        (t, .outcome { statusCode := 200, body := row.responseBody, replayed := true })
  | conflict (row : IdempotencyKey) : t.key? job.key = some row →
      row.operation ≠ job.operation ∨ row.requestHash ≠ job.requestHash sha256 →
      Decided sha256 job clock t
        (t, .envelope (.idempotencyKeyConflict row.key row.operation) false)
  | opened (req : CreateAccountRequest) : t.key? job.key = none →
      job.request.payload = .account req →
      Decided sha256 job clock t
        (job.book sha256 clock t t.accounts, .outcome (job.earned clock))
  | moved (req : TransferRequest) (source destination : Account) (debited credited : Balance) :
      t.key? job.key = none → job.request.payload = .transfer req →
      t.account? req.fromAccountId = some source →
      t.account? req.toAccountId = some destination →
      source.balance.add? req.amount.debit = some debited →
      destination.balance.add? req.amount.credit = some credited →
      Decided sha256 job clock t
        (job.book sha256 clock t (Tables.setBalance
          (Tables.setBalance t.accounts req.fromAccountId debited) req.toAccountId credited),
          .outcome (job.earned clock))
  | missing (id : Uuid) : t.key? job.key = none → t.account? id = none →
      Decided sha256 job clock t (t, .envelope (.accountNotFound id) false)
  | short (req : TransferRequest) (source : Account) : t.key? job.key = none →
      job.request.payload = .transfer req → t.account? req.fromAccountId = some source →
      Decided sha256 job clock t (t, .envelope (.insufficientFunds req.fromAccountId
        (serializeMoney source.balance.toDecimal) (serializeMoney req.amount.value)) false)
  | outOfRange : t.key? job.key = none →
      Decided sha256 job clock t (t, .envelope .amountOutOfRange false)

theorem atomic_decided (sha256 : String → String) (job : Job) (clock : Timestamp) (t : Tables) :
    Decided sha256 job clock t (atomic sha256 job clock t) := by
  unfold atomic
  cases hkey : t.key? job.key with
  | some row =>
    by_cases hc : row.operation ≠ job.operation ∨ row.requestHash ≠ job.requestHash sha256
    · simp only [Job.replayed, if_pos hc]
      exact .conflict row hkey hc
    · simp only [Job.replayed, if_neg hc]
      push Not at hc
      exact .replayed row hkey hc.1 hc.2
  | none =>
    cases hreq : job.request.payload with
    | account req => exact .opened req hkey hreq
    | transfer req =>
      cases hs : t.account? req.fromAccountId with
      | none =>
        cases hd : t.account? req.toAccountId with
        | none =>
          simp only [hs, hd]
          refine .missing _ hkey ?_
          rcases min_choice req.fromAccountId req.toAccountId with h | h <;> simp [h, hs, hd]
        | some destination =>
          simp only [hs, hd]
          exact .missing _ hkey hs
      | some source =>
        cases hd : t.account? req.toAccountId with
        | none =>
          simp only [hs, hd]
          exact .missing _ hkey hd
        | some destination =>
          simp only [hs, hd]
          split
          · exact .short req source hkey hreq hs
          · unfold Job.transferred
            cases hdebited : source.balance.add? req.amount.debit with
            | none => exact .outOfRange hkey
            | some debited =>
              cases hcredited : destination.balance.add? req.amount.credit with
              | none => exact .outOfRange hkey
              | some credited =>
                exact .moved req source destination debited credited hkey hreq hs hd hdebited
                  hcredited

section alone

variable {sha256 : String → String} {job : Job} {t : Tables} {tx : Tx} {clock : Timestamp}

theorem alone_lockAccount {id : Uuid} {row : Account} (h : (t.view tx).account? id = some row) :
    alone clock (t, .active tx) (.lockAccount id) = ((t, .active tx), .ok (some row)) := by
  simp [alone, Tables.effect, inTx, h]

theorem alone_lockAccount_absent {id : Uuid} (h : (t.view tx).account? id = none) :
    alone clock (t, .active tx) (.lockAccount id) = ((t, .active tx), .ok none) := by
  simp [alone, Tables.effect, inTx, h]

theorem alone_updateBalance {id : Uuid} {row : Account} {d : Decimal} {b : Balance}
    (h : (t.view tx).account? id = some row) (hb : Balance.ofDecimal d = .ok b) :
    alone clock (t, .active tx) (.updateBalance id d) =
      ((t, .active (tx.write (.updateBalance id b))), .ok ()) := by
  simp [alone, Tables.effect, inTx, h, hb]

theorem alone_updateBalance_error {id : Uuid} {row : Account} {d : Decimal} {e : Exn}
    (h : (t.view tx).account? id = some row) (hb : Balance.ofDecimal d = .error e) :
    alone clock (t, .active tx) (.updateBalance id d) = ((t, .broken), .error e) := by
  simp [alone, Tables.effect, inTx, h, hb]

theorem alone_insertEntry {id transferId accountId : Uuid} {row : Account} {d : Decimal}
    {a : Amount} (hid : (t.view tx).leg? id = none)
    (haccount : (t.view tx).account? accountId = some row) (ha : Amount.ofDecimal d = .ok a) :
    alone clock (t, .active tx) (.insertEntry id transferId accountId d) =
      ((t, .active (tx.write (.insertEntry ⟨id, transferId, accountId, a, tx.startedAt⟩))),
        .ok ()) := by
  simp [alone, Tables.effect, inTx, hid, haccount, ha]

theorem alone_insertAccount {id : Uuid} {d d' : Decimal} {b b' : Balance}
    (h : (t.view tx).account? id = none) (hb : Balance.ofDecimal d = .ok b)
    (hb' : Balance.ofDecimal d' = .ok b') :
    alone clock (t, .active tx) (.insertAccount id d d') =
      ((t, .active (tx.write (.insertAccount ⟨id, b, b', tx.startedAt⟩))), .ok ()) := by
  simp [alone, Tables.effect, inTx, h, hb, hb']

theorem alone_refreshAccount {id : Uuid} {row : Account}
    (h : (t.view tx).account? id = some row) :
    alone clock (t, .active tx) (.refreshAccount id) = ((t, .active tx), .ok row) := by
  simp [alone, Tables.effect, inTx, h]

theorem alone_updateKey {key : String} {row : IdempotencyKey} {resourceId : Uuid} {status : Nat}
    {body : Body} (h : (t.view tx).key? key = some row) :
    alone clock (t, .active tx) (.updateKey key resourceId status body) =
      ((t, .active (tx.write (.updateKey key resourceId status body))), .ok ()) := by
  simp [alone, Tables.effect, inTx, h]

theorem alone_commit (h : t.checkDeferred tx = .ok ()) :
    alone clock (t, .active tx) .commit = ((t.view tx, .idle), .ok ()) := by
  simp [alone, Tables.effect, inTx, h]

section drive

variable {s s' : Tables × Session}

theorem drive_ok {c : Call} {x : c.Reply} (h : alone clock s c = (s', .ok x))
    (f : c.Reply → App Outcome) :
    (job.attempt sha256 ((perform c).bind f)).drive (alone clock) s =
      (job.attempt sha256 (f x)).drive (alone clock) s' := by
  rw [Prog.perform_bind, Job.attempt_call, Prog.drive_call _ h]
  rfl

theorem drive_error {c : Call} {e : Exn} (h : alone clock s c = (s', .error e))
    (f : c.Reply → App Outcome) :
    (job.attempt sha256 ((perform c).bind f)).drive (alone clock) s =
      (job.failing sha256 e).drive (alone clock) s' := by
  rw [Prog.perform_bind, Job.attempt_call, Prog.drive_call _ h]
  rfl

end drive

theorem drive_lockInTurn {ids : List Uuid} {row : Uuid → Account}
    (h : ∀ id ∈ ids, (t.view tx).account? id = some (row id))
    (f : List (Uuid × Account) → App Outcome) :
    (job.attempt sha256 ((lockInTurn ids).bind f)).drive (alone clock) (t, .active tx) =
      (job.attempt sha256 (f (ids.map fun id => (id, row id)))).drive (alone clock)
        (t, .active tx) := by
  induction ids generalizing f with
  | nil => rfl
  | cons id ids ih =>
    simp only [lockInTurn, Prog.monad_bind, Prog.bind_assoc]
    rw [drive_ok (alone_lockAccount (h id (by simp)))]
    simp only [Prog.bind_assoc]
    exact ih (fun id' hid' => h id' (List.mem_cons_of_mem _ hid')) _

theorem drive_lockInTurn_absent {ids rest : List Uuid} {id : Uuid}
    (h : ∀ id ∈ ids, ((t.view tx).account? id).isSome)
    (absent : (t.view tx).account? id = none) (f : List (Uuid × Account) → App Outcome) :
    (job.attempt sha256 ((lockInTurn (ids ++ id :: rest)).bind f)).drive (alone clock)
        (t, .active tx) =
      (job.failing sha256 (.ledger (.accountNotFound id))).drive (alone clock) (t, .active tx) := by
  induction ids generalizing f with
  | nil =>
    simp only [List.nil_append, lockInTurn, Prog.monad_bind, Prog.bind_assoc]
    rw [drive_ok (alone_lockAccount_absent absent)]
    rfl
  | cons id' ids ih =>
    obtain ⟨row, hrow⟩ := Option.isSome_iff_exists.mp (h id' (by simp))
    simp only [List.cons_append, lockInTurn, Prog.monad_bind, Prog.bind_assoc]
    rw [drive_ok (alone_lockAccount hrow)]
    simp only [Prog.bind_assoc]
    exact ih (fun id hid => h id (List.mem_cons_of_mem _ hid)) _

theorem item_map {ids : List Uuid} {id : Uuid} (h : id ∈ ids) (row : Uuid → Account) :
    item (ids.map fun id => (id, row id)) id = .pure (row id) := by
  suffices (ids.map fun id => (id, row id)).lookup id = some (row id) by simp [item, this]
  induction ids with
  | nil => simp at h
  | cons id' ids ih =>
    by_cases he : id = id'
    · simp [he]
    · rw [List.map_cons, List.lookup_cons, beq_false_of_ne he]
      exact ih (by simpa [he] using h)

theorem drive_conclude (record : IdempotencyKey) {o : Outcome} (ho : o.replayed = false)
    (h : t.checkDeferred tx = .ok ()) :
    ((job.attempt sha256 (job.conclude (record, o))).drive (alone clock) (t, .active tx)).1.1 =
        t.view tx ∧
      ((job.attempt sha256 (job.conclude (record, o))).drive (alone clock) (t, .active tx)).2 =
        .ok (.outcome o) := by
  rw [Job.conclude, drive_ok (alone_commit h)]
  exact (Job.conclude_settles record ho).alone _ _ _

end alone

section sequential

variable {sha256 : String → String} {job : Job} {t : Tables} {clock : Timestamp}

def Job.claimTx (sha256 : String → String) (job : Job) (clock : Timestamp) : Tx :=
  ⟨clock, [.insertKey (job.record sha256)]⟩

theorem sequential_of_claimed (admitted : job.Admitted) (hkey : t.key? job.key = none)
    {t' : Tables} {a : Response}
    (h : ((job.claimed sha256).drive (alone clock)
        (t, .active (job.claimTx sha256 clock))).1.1 = t' ∧
      ((job.claimed sha256).drive (alone clock)
        (t, .active (job.claimTx sha256 clock))).2 = .ok a) :
    sequential (serveRequest sha256) job clock t = (t', .ok a) := by
  unfold sequential
  rw [(Job.Reached.claimed clock hkey).drive admitted]
  exact Prod.ext h.1 h.2

@[simp] theorem account?_claimTx (id : Uuid) :
    (t.view (job.claimTx sha256 clock)).account? id = t.account? id := rfl

@[simp] theorem account?_updateBalance (t : Tables) (id id' : Uuid) (b : Balance) :
    ((Write.updateBalance id b).apply t).account? id' =
      (t.account? id').map fun row => if row.id = id then { row with balance := b } else row :=
  Rows.lookup_modify fun _ => rfl

@[simp] theorem account?_insertEntry (t : Tables) (id : Uuid) (row : LedgerEntry) :
    ((Write.insertEntry row).apply t).account? id = t.account? id := rfl

@[simp] theorem leg?_claimTx (id : Uuid) :
    (t.view (job.claimTx sha256 clock)).leg? id = t.leg? id := rfl

@[simp] theorem leg?_updateBalance (t : Tables) (id id' : Uuid) (b : Balance) :
    ((Write.updateBalance id b).apply t).leg? id' = t.leg? id' := rfl

@[simp] theorem key?_updateBalance (t : Tables) (key : String) (id : Uuid) (b : Balance) :
    ((Write.updateBalance id b).apply t).key? key = t.key? key := rfl

@[simp] theorem key?_insertEntry (t : Tables) (key : String) (row : LedgerEntry) :
    ((Write.insertEntry row).apply t).key? key = t.key? key := rfl

theorem leg?_insertEntry {t : Tables} {row : LedgerEntry} {id : Uuid} (h : t.leg? id = none)
    (hne : row.id ≠ id) : ((Write.insertEntry row).apply t).leg? id = none :=
  (Rows.lookup_append_of_none h).trans (by simp [Rows.lookup_cons, hne])

theorem modify_record (sha256 : String → String) (h : t.key? job.key = none)
    (f : IdempotencyKey → IdempotencyKey) :
    Rows.modify IdempotencyKey.key job.key f (t.idempotencyKeys ++ [job.record sha256]) =
      t.idempotencyKeys ++ [f (job.record sha256)] := by
  rw [Rows.modify_append, Rows.modify_of_absent h]
  simp [Job.record]

theorem lookup_record (h : t.key? job.key = none) :
    Rows.lookup IdempotencyKey.key job.key (t.idempotencyKeys ++ [job.record sha256]) =
      some (job.record sha256) := by
  rw [Rows.lookup_append_of_none h]
  simp [Rows.lookup_cons, Job.record]

@[simp] theorem startedAt_claimTx : (job.claimTx sha256 clock).startedAt = clock := rfl

theorem key?_claimTx (h : t.key? job.key = none) :
    (t.view (job.claimTx sha256 clock)).key? (job.record sha256).key = some (job.record sha256) :=
  lookup_record h

theorem sequential_account (admitted : job.Admitted) (hkey : t.key? job.key = none)
    (fresh : t.Fresh job.draws.toList) {req : CreateAccountRequest}
    (hreq : job.request.payload = .account req) :
    sequential (serveRequest sha256) job clock t =
      (job.book sha256 clock t t.accounts, .ok (.outcome (job.earned clock))) := by
  have absent : t.account? job.draws.first = none :=
    fresh.accounts _ (by simp [Draws.toList])
  obtain ⟨row, hrow⟩ : ∃ row : Account, row =
    ⟨job.draws.first, req.initialBalance.toBalance, req.initialBalance.toBalance, clock⟩ := ⟨_, rfl⟩
  obtain ⟨tx, htx⟩ : ∃ tx, tx = (job.claimTx sha256 clock).write (.insertAccount row) := ⟨_, rfl⟩
  have inserted : (t.view tx).account? job.draws.first = some row := by
    subst htx
    exact (Rows.lookup_append_of_none absent).trans (by simp [Rows.lookup_cons, hrow])
  have taken : (t.view tx).key? (job.record sha256).key = some (job.record sha256) := by
    subst htx
    exact lookup_record hkey
  have insert : alone clock (t, .active (job.claimTx sha256 clock))
      (.insertAccount job.draws.first req.initialBalance.value req.initialBalance.value) =
        ((t, .active tx), .ok ()) := by
    rw [htx, hrow]
    exact alone_insertAccount absent req.initialBalance.ofDecimal req.initialBalance.ofDecimal
  have body : job.body clock = .account
      ⟨row.id, serializeMoney row.balance.toDecimal, row.createdAt⟩ := by
    simp [Job.body, hreq, hrow]
  refine sequential_of_claimed admitted hkey ?_
  rw [Job.claimed, Job.work, hreq]
  simp only [openAccount, Prog.monad_bind, Prog.bind_assoc]
  rw [drive_ok insert, drive_ok (alone_refreshAccount inserted), drive_ok (alone_updateKey taken),
    ← body]
  have booked : t.view (tx.write (.updateKey job.key job.draws.first 201 (job.body clock))) =
      job.book sha256 clock t t.accounts := by
    subst htx hrow
    have keys := modify_record sha256 hkey fun row => { row with
      resourceId := some job.draws.first
      responseStatus := some 201
      responseBody := some (job.body clock) }
    simp only [Job.book, Job.opened, Job.entries, hreq, List.append_nil]
    exact congrArg (Tables.mk _ _) keys
  rw [← booked]
  subst htx hrow
  exact drive_conclude (job.row sha256 clock) (o := job.earned clock) rfl rfl

section transfer

variable {req : TransferRequest}

theorem sequential_absent (ids : List Uuid) (admitted : job.Admitted) (hkey : t.key? job.key = none)
    (hreq : job.request.payload = .transfer req) {rest : List Uuid} {id : Uuid}
    (hids : [req.fromAccountId, req.toAccountId].insertionSort (· ≤ ·) = ids ++ id :: rest)
    (present : ∀ id ∈ ids, (t.account? id).isSome) (absent : t.account? id = none) :
    sequential (serveRequest sha256) job clock t =
      (t, .ok (.envelope (.accountNotFound id) false)) := by
  refine sequential_of_claimed admitted hkey ?_
  rw [Job.claimed, Job.work, hreq]
  simp only [moveMoney, Prog.monad_bind, Prog.bind_assoc, lockAccounts, hids]
  have absent' : (t.view (job.claimTx sha256 clock)).account? id = none := absent
  rw [drive_lockInTurn_absent present absent']
  exact (Job.failing_settles sha256 job (e := .ledger (.accountNotFound id)) (by simp)).alone _ _ _

theorem drive_locked (distinct : req.fromAccountId ≠ req.toAccountId) {source destination : Account}
    (hs : t.account? req.fromAccountId = some source)
    (hd : t.account? req.toAccountId = some destination)
    (f : Account → Account → App Outcome) :
    (job.attempt sha256 ((lockAccounts [req.fromAccountId, req.toAccountId]).bind fun accounts =>
        (item accounts req.fromAccountId).bind fun source =>
          (item accounts req.toAccountId).bind fun destination => f source destination)).drive
            (alone clock) (t, .active (job.claimTx sha256 clock)) =
      (job.attempt sha256 (f source destination)).drive (alone clock)
        (t, .active (job.claimTx sha256 clock)) := by
  obtain ⟨row, hrow⟩ : ∃ row : Uuid → Account, row = fun id =>
    if id = req.fromAccountId then source else destination := ⟨_, rfl⟩
  have hrows : ∀ id ∈ [req.fromAccountId, req.toAccountId], t.account? id = some (row id) := by
    simp [hrow, hs, hd, distinct.symm]
  have mem (id : Uuid) : id ∈ [req.fromAccountId, req.toAccountId].insertionSort (· ≤ ·) ↔
      id ∈ [req.fromAccountId, req.toAccountId] := List.mem_insertionSort _
  have locked : ∀ id ∈ [req.fromAccountId, req.toAccountId].insertionSort (· ≤ ·),
      (t.view (job.claimTx sha256 clock)).account? id = some (row id) :=
    fun id hid => hrows id ((mem id).mp hid)
  rw [lockAccounts, drive_lockInTurn locked,
    item_map ((mem _).mpr (by simp)), item_map ((mem _).mpr (by simp))]
  simp [hrow, distinct.symm]

theorem sequential_insufficient (admitted : job.Admitted) (hkey : t.key? job.key = none)
    (hreq : job.request.payload = .transfer req) {source destination : Account}
    (hs : t.account? req.fromAccountId = some source)
    (hd : t.account? req.toAccountId = some destination)
    (short : source.balance.units < req.amount.value.units 4) :
    sequential (serveRequest sha256) job clock t =
      (t, .ok (.envelope (.insufficientFunds req.fromAccountId
        (serializeMoney source.balance.toDecimal) (serializeMoney req.amount.value)) false)) := by
  have hid : source.id = req.fromAccountId := Rows.key_of_lookup hs
  refine sequential_of_claimed admitted hkey ?_
  rw [Job.claimed, Job.work, hreq]
  simp only [moveMoney, Prog.monad_bind, Prog.bind_assoc]
  rw [drive_locked (admitted.distinct req hreq) hs hd, if_pos ((source.balance.lt_iff _).mpr short),
    hid]
  exact (Job.failing_settles sha256 job (e := .ledger (.insufficientFunds req.fromAccountId
    (serializeMoney source.balance.toDecimal) (serializeMoney req.amount.value))) (by simp)).alone
    _ _ _

def Tables.Unmoved (t : Tables) (transferId : Uuid) : Prop :=
  ∀ entry ∈ t.ledgerEntries, entry.transferId ≠ transferId

theorem legSum_unmoved {transferId : Uuid} (h : t.Unmoved transferId) (rows : List LedgerEntry) :
    legSum (t.ledgerEntries ++ rows) transferId = legSum rows transferId := by
  rw [legSum_append, legSum_of_absent h, zero_add]

theorem legSum_entries (hreq : job.request.payload = .transfer req) :
    legSum (job.entries clock) job.draws.first = 0 := by
  simp [legSum, Job.entries, hreq, PositiveMoney.debit, PositiveMoney.credit]

def transferTx (sha256 : String → String) (job : Job) (clock : Timestamp) (req : TransferRequest)
    (debited credited : Balance) : Tx where
  startedAt := clock
  writes := .insertKey (job.record sha256) :: .updateBalance req.fromAccountId debited ::
    .updateBalance req.toAccountId credited :: (job.entries clock).map .insertEntry ++
    [.updateKey job.key job.draws.first 201 (job.body clock)]

theorem view_transferTx (sha256 : String → String) (hkey : t.key? job.key = none)
    (hreq : job.request.payload = .transfer req)
    (debited credited : Balance) :
    t.view (transferTx sha256 job clock req debited credited) =
      job.book sha256 clock t (Tables.setBalance
        (Tables.setBalance t.accounts req.fromAccountId debited) req.toAccountId credited) := by
  have keys := modify_record sha256 hkey fun row => { row with
    resourceId := some job.draws.first
    responseStatus := some 201
    responseBody := some (job.body clock) }
  simp only [Job.book, Job.opened, Job.entries, transferTx, Tables.view, hreq, List.append_nil]
  refine Eq.trans ?_ (congrArg (Tables.mk _ _) keys)
  simp [Tables.after, Write.apply, Tables.setBalance]

theorem checkDeferred_transferTx (hkey : t.key? job.key = none)
    (hreq : job.request.payload = .transfer req) (unmoved : t.Unmoved job.draws.first)
    (debited credited : Balance) :
    t.checkDeferred (transferTx sha256 job clock req debited credited) = .ok () := by
  have hsum : legSum (t.ledgerEntries ++ job.entries clock) job.draws.first = 0 :=
    (legSum_unmoved unmoved _).trans (legSum_entries hreq)
  have legs : (transferTx sha256 job clock req debited credited).writes.filterMap Write.leg? =
      job.entries clock := by
    simp only [transferTx, Job.entries, hreq]
    rfl
  rw [Tables.checkDeferred, view_transferTx sha256 hkey hreq, legs,
    assertTransferConservesMoney_all]
  intro entry hentry
  have : entry.transferId = job.draws.first := by
    simp only [Job.entries, hreq, List.mem_cons, List.not_mem_nil, or_false] at hentry
    rcases hentry with rfl | rfl <;> rfl
  rw [this]
  exact hsum

theorem sequential_covered (admitted : job.Admitted) (hkey : t.key? job.key = none)
    (hreq : job.request.payload = .transfer req) (draws : job.draws.toList.Nodup)
    (fresh : t.Fresh job.draws.toList) (unmoved : t.Unmoved job.draws.first)
    {source destination : Account}
    (hs : t.account? req.fromAccountId = some source)
    (hd : t.account? req.toAccountId = some destination)
    (covered : ¬ source.balance.units < req.amount.value.units 4) :
    sequential (serveRequest sha256) job clock t =
      ((job.transferred sha256 clock t req source destination).1,
        .ok (job.transferred sha256 clock t req source destination).2) := by
  obtain ⟨fromId, toId, amount⟩ := req
  obtain rfl : fromId = source.id := (Rows.key_of_lookup hs).symm
  obtain rfl : toId = destination.id := (Rows.key_of_lookup hd).symm
  have distinct : source.id ≠ destination.id := admitted.distinct _ hreq
  have hlt := mt (source.balance.lt_iff amount).mp covered
  obtain ⟨debited, hdebit, hdebited⟩ := source.balance.ofDecimal_sub amount hlt
  have hcredit := destination.balance.ofDecimal_add amount
  have hs0 : (t.view (job.claimTx sha256 clock)).account? source.id = some source := hs
  obtain ⟨tx, htx⟩ : ∃ tx, tx = (job.claimTx sha256 clock).write
    (.updateBalance source.id debited) := ⟨_, rfl⟩
  have hd1 : (t.view tx).account? destination.id = some destination := by
    simp [htx, hd, distinct.symm]
  refine sequential_of_claimed admitted hkey ?_
  rw [Job.claimed, Job.work, hreq]
  simp only [moveMoney, flushTransfer, Prog.monad_bind, Prog.bind_assoc, Job.transferred, hdebited]
  rw [drive_locked distinct hs hd, if_neg hlt]
  simp only [Prog.bind_assoc]
  rw [drive_ok rfl, drive_ok (alone_updateBalance hs0 hdebit), ← htx]
  cases hcredited : destination.balance.add? amount.credit with
  | none =>
    rw [hcredited] at hcredit
    rw [drive_error (alone_updateBalance_error hd1 hcredit)]
    exact (Job.failing_settles sha256 job (e := .data (some .numericOutOfRange)) (by simp)).alone
      _ _ _
  | some credited =>
    rw [hcredited] at hcredit
    obtain ⟨tx2, htx2⟩ : ∃ tx2, tx2 = tx.write (.updateBalance destination.id credited) := ⟨_, rfl⟩
    have hs2 : (t.view tx2).account? source.id = some { source with balance := debited } := by
      simp [htx2, htx, hs, distinct]
    have absent2 : (t.view tx2).leg? job.draws.second = none := by
      simpa [htx2, htx] using fresh.entries _ (by simp [Draws.toList])
    rw [drive_ok (alone_updateBalance hd1 hcredit), ← htx2,
      drive_ok (alone_insertEntry absent2 hs2 amount.ofDecimal_debit)]
    obtain ⟨tx3, htx3⟩ : ∃ tx3, tx3 = tx2.write (.insertEntry
      ⟨job.draws.second, job.draws.first, source.id, amount.debit, clock⟩) := ⟨_, rfl⟩
    have hd3 : (t.view tx3).account? destination.id =
        some { destination with balance := credited } := by
      simp [htx3, htx2, htx, hd, distinct.symm]
    have absent3 : (t.view tx3).leg? job.draws.third = none := by
      rw [htx3, Tables.view_write]
      refine leg?_insertEntry ?_ (by simp_all [Draws.toList])
      simpa [htx2, htx] using fresh.entries _ (by simp [Draws.toList])
    have started : tx2.startedAt = clock := by simp [htx2, htx, Tx.write, Job.claimTx]
    rw [started, ← htx3, drive_ok (alone_insertEntry absent3 hd3 amount.ofDecimal_credit)]
    obtain ⟨tx4, htx4⟩ : ∃ tx4, tx4 = tx3.write (.insertEntry
      ⟨job.draws.third, job.draws.first, destination.id, amount.credit, clock⟩) := ⟨_, rfl⟩
    have taken : (t.view tx4).key? (job.record sha256).key = some (job.record sha256) := by
      simpa [htx4, htx3, htx2, htx] using key?_claimTx hkey
    have started3 : tx3.startedAt = clock := by simp [htx3, started, Tx.write]
    have body : job.body clock = .transfer
        ⟨job.draws.first, source.id, destination.id, serializeMoney amount.value, clock⟩ := by
      simp [Job.body, hreq]
    rw [started3, ← htx4, drive_ok (alone_updateKey taken)]
    simp only [startedAt_claimTx, ← body]
    have htx5 :
        tx4.write (.updateKey (job.record sha256).key job.draws.first 201 (job.body clock)) =
        transferTx sha256 job clock ⟨source.id, destination.id, amount⟩ debited credited := by
      simp [transferTx, Job.entries, hreq, htx4, htx3, htx2, htx, Tx.write, Job.claimTx, Job.record]
    rw [htx5, ← view_transferTx sha256 hkey hreq debited credited]
    exact drive_conclude (job.row sha256 clock) (o := job.earned clock) rfl
      (checkDeferred_transferTx hkey hreq unmoved debited credited)

theorem sequential_missing (admitted : job.Admitted) (hkey : t.key? job.key = none)
    (hreq : job.request.payload = .transfer req) {id : Uuid}
    (mem : id = req.fromAccountId ∨ id = req.toAccountId) (absent : t.account? id = none)
    (smallest : ∀ other, other = req.fromAccountId ∨ other = req.toAccountId → other < id →
      (t.account? other).isSome) :
    sequential (serveRequest sha256) job clock t =
      (t, .ok (.envelope (.accountNotFound id) false)) := by
  have distinct := admitted.distinct req hreq
  rcases lt_or_gt_of_ne distinct with hlt | hlt
  · have sorted : [req.fromAccountId, req.toAccountId].insertionSort (· ≤ ·) =
        [req.fromAccountId, req.toAccountId] := by simp [List.insertionSort, hlt.le]
    rcases mem with rfl | rfl
    · exact sequential_absent [] admitted hkey hreq sorted (by simp) absent
    · exact sequential_absent [req.fromAccountId] admitted hkey hreq sorted
        (by simpa using smallest _ (.inl rfl) hlt) absent
  · have sorted : [req.fromAccountId, req.toAccountId].insertionSort (· ≤ ·) =
        [req.toAccountId, req.fromAccountId] := by simp [List.insertionSort, hlt.not_ge]
    rcases mem with rfl | rfl
    · exact sequential_absent [req.toAccountId] admitted hkey hreq sorted
        (by simpa using smallest _ (.inr rfl) hlt) absent
    · exact sequential_absent [] admitted hkey hreq sorted (by simp) absent

end transfer

/-- The code, run alone, does what the function says. -/
theorem sequential_eq_atomic (sha256 : String → String) (clock : Timestamp)
    (admitted : job.Admitted)
    (draws : job.draws.toList.Nodup) (fresh : t.Fresh job.draws.toList)
    (unmoved : t.Unmoved job.draws.first) :
    sequential (serveRequest sha256) job clock t =
      ((atomic sha256 job clock t).1, .ok (atomic sha256 job clock t).2) := by
  unfold atomic
  cases hkey : t.key? job.key with
  | some row => exact sequential_of_taken admitted hkey
  | none =>
    cases hreq : job.request.payload with
    | account req => exact sequential_account admitted hkey fresh hreq
    | transfer req =>
      cases hs : t.account? req.fromAccountId with
      | none =>
        cases hd : t.account? req.toAccountId with
        | none =>
          simp only [hs, hd]
          refine sequential_missing admitted hkey hreq ?_ ?_ ?_
          · exact (min_choice _ _).imp id id
          · rcases min_choice req.fromAccountId req.toAccountId with h | h <;> simp [h, hs, hd]
          · rintro other (rfl | rfl) hlt
            · exact (not_lt.mpr (min_le_left _ _) hlt).elim
            · exact (not_lt.mpr (min_le_right _ _) hlt).elim
        | some destination =>
          simp only [hs, hd]
          refine sequential_missing admitted hkey hreq (.inl rfl) hs ?_
          rintro other (rfl | rfl) hlt
          · exact (lt_irrefl _ hlt).elim
          · simp [hd]
      | some source =>
        cases hd : t.account? req.toAccountId with
        | none =>
          simp only [hs, hd]
          refine sequential_missing admitted hkey hreq (.inr rfl) hd ?_
          rintro other (rfl | rfl) hlt
          · simp [hs]
          · exact (lt_irrefl _ hlt).elim
        | some destination =>
          simp only [hs, hd]
          by_cases short : source.balance.units < req.amount.value.units 4
          · rw [if_pos short]
            exact sequential_insufficient admitted hkey hreq hs hd short
          · rw [if_neg short]
            exact sequential_covered admitted hkey hreq draws fresh unmoved hs hd short

end sequential

end Ledger
