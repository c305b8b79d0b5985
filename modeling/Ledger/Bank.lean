import Ledger.Decisions
import Ledger.History
import Ledger.Lib.Bank
import Ledger.Linearizable
import Ledger.Wire

namespace Ledger

open Lib

/-! The service as a bank.  The bank knows amounts and receipts; it knows no rows, no statements and
no locks. -/

def money? (text : String) : Option ℚ := (Decimal.parse text).map Decimal.toRat

def Body.receipt? : Body → Option (Receipt Uuid ℚ Timestamp)
  | .account r => (money? r.balance).map fun amount => ⟨r.id, .opening amount, r.createdAt⟩
  | .transfer r => (money? r.amount).map fun amount =>
    ⟨r.transferId, .transfer r.fromAccountId r.toAccountId amount, r.createdAt⟩

/-- What a request is told apart by. -/
abbrev Print := Operation × String

def IdempotencyKey.print (row : IdempotencyKey) : Print := (row.operation, row.requestHash)

/-- What the tables stand for.  A key is settled by the response that is stored for it. -/
def Tables.bank (t : Tables) : Bank Uuid String Print ℚ Timestamp where
  balance id := (t.account? id).map (·.balance.toDecimal.toRat)
  settled key := (t.key? key).bind fun row =>
    (row.responseBody.bind Body.receipt?).map (row.print, ·)

def Payload.deal : Payload → Deal Uuid ℚ
  | .account req => .opening req.initialBalance.value.toRat
  | .transfer req => .transfer req.fromAccountId req.toAccountId req.amount.value.toRat

def Job.receipt (job : Job) (clock : Timestamp) : Receipt Uuid ℚ Timestamp :=
  ⟨job.draws.first, job.request.payload.deal, clock⟩

def Ask.instruction (sha256 : String → String) : Ask → Instruction Uuid String Print ℚ Timestamp
  | .post job clock => .deal (requireKey job.request.idempotencyKey).toOption
      (job.operation, job.requestHash sha256) (job.receipt clock)
  | .get (.balance accountId) => .balance accountId
  | .get (.transactions accountId) => .statement accountId

def balanceLimit : ℚ := 10 ^ 16

def TransactionItem.Reports (item : TransactionItem) (accountId : Uuid)
    (receipt : Receipt Uuid ℚ Timestamp) : Prop :=
  item.transferId = receipt.id ∧ item.createdAt = receipt.time ∧
    (item.direction = .debit ∧
        receipt.deal = .transfer accountId item.counterpartyAccountId (-item.amount.toRat) ∨
      item.direction = .credit ∧
        receipt.deal = .transfer item.counterpartyAccountId accountId item.amount.toRat)

def Reported (accountId : Uuid) (receipts : Set (Receipt Uuid ℚ Timestamp))
    (items : List TransactionItem) : Prop :=
  ∃ all : List (Receipt Uuid ℚ Timestamp), all.Nodup ∧ {receipt | receipt ∈ all} = receipts ∧
    all.Pairwise (fun above below => below.time ≤ above.time) ∧
    List.Forall₂ (fun receipt item => item.Reports accountId receipt) (all.take maxTransactions)
      items

/-- An answer that says what the bank says. -/
inductive Conveys : Answer → Verdict Uuid String Print ℚ Timestamp → Prop
  | earned {body : Body} {receipt : Receipt Uuid ℚ Timestamp} : body.receipt? = some receipt →
      Conveys (.post (.outcome ⟨201, some body, false⟩)) (.receipt receipt true)
  | replayed {body : Body} {receipt : Receipt Uuid ℚ Timestamp} : body.receipt? = some receipt →
      Conveys (.post (.outcome ⟨200, some body, true⟩)) (.receipt receipt false)
  | missingKey : Conveys (.post (.envelope .missingIdempotencyKey false)) .unkeyed
  | invalidKey (length : Nat) :
      Conveys (.post (.envelope (.invalidIdempotencyKey length) false)) .unkeyed
  | sameAccount : Conveys (.post (.envelope .sameAccountTransfer false)) .sameAccount
  | conflict (key : String) (print : Print) :
      Conveys (.post (.envelope (.idempotencyKeyConflict key print.1) false)) (.conflict key print)
  | unknown (accountId : Uuid) :
      Conveys (.post (.envelope (.accountNotFound accountId) false)) (.unknown accountId)
  | short (accountId : Uuid) {balance requested : String} {x y : ℚ} : money? balance = some x →
      money? requested = some y →
      Conveys (.post (.envelope (.insufficientFunds accountId balance requested) false))
        (.short accountId x y)
  | full : Conveys (.post (.envelope .amountOutOfRange false)) .full
  | notFound (accountId : Uuid) :
      Conveys (.get (.envelope (.accountNotFound accountId) false)) (.unknown accountId)
  | balance (accountId : Uuid) (amount : Decimal) :
      Conveys (.get (.balance ⟨accountId, amount⟩)) (.balance accountId amount.toRat)
  | transactions {accountId : Uuid} {items : List TransactionItem}
      {receipts : Set (Receipt Uuid ℚ Timestamp)} : Reported accountId receipts items →
      Conveys (.get (.transactions ⟨accountId, items⟩)) (.statement accountId receipts)

section receipts

theorem PositiveMoney.money?_serialize (m : PositiveMoney) :
    money? (serializeMoney m.value) = some m.value.toRat := by
  obtain ⟨d, hparse, hd⟩ := m.parse_serialize
  simp [money?, hparse, hd]

theorem Balance.money?_serialize (b : Balance) :
    money? (serializeMoney b.toDecimal) = some b.toDecimal.toRat := by
  obtain ⟨d, hparse, multiple, hunits⟩ := b.toDecimal_multiple.parse_format (by decide)
  simp [money?, serializeMoney, hparse, multiple.toRat_eq, b.toDecimal_multiple.toRat_eq, hunits]

theorem NonNegativeMoney.toRat_toBalance (m : NonNegativeMoney) :
    m.toBalance.toDecimal.toRat = m.value.toRat := by
  rw [Numeric.toRat_eq, m.decimalPlaces.toRat_eq]
  rfl

variable {sha256 : String → String} {job : Job} {clock : Timestamp}

theorem Job.receipt?_body (job : Job) (clock : Timestamp) :
    (job.body clock).receipt? = some (job.receipt clock) := by
  unfold Job.body Job.receipt
  cases job.request.payload with
  | account req =>
    simp [Body.receipt?, Balance.money?_serialize, Payload.deal,
      NonNegativeMoney.toRat_toBalance]
  | transfer req => simp [Body.receipt?, PositiveMoney.money?_serialize, Payload.deal]

theorem Job.distinct_of_admitted (h : job.Admitted) : ¬ (job.receipt clock).deal.Circular := by
  unfold Job.receipt
  cases hreq : job.request.payload with
  | account req => exact id
  | transfer req => exact h.distinct req hreq

theorem Job.instruction_of_admitted (h : job.Admitted) :
    (Ask.post job clock).instruction sha256 =
      .deal (some job.key) (job.operation, job.requestHash sha256) (job.receipt clock) := by
  simp only [Ask.instruction, h.key, Except.toOption]

end receipts

section simulation

variable {sha256 : String → String} {history : List Commit} {t : Tables} {job : Job}
  {clock : Timestamp}

theorem Books.bank_settled (b : Books sha256 history t) {key : String} {row : IdempotencyKey}
    (h : t.key? key = some row) : ∃ body receipt, row.responseBody = some body ∧
      body.receipt? = some receipt ∧ t.bank.settled key = some (row.print, receipt) := by
  obtain ⟨c, hc, rfl, -⟩ := b.commit_of_key h
  have stored : (c.row sha256).responseBody = some (c.job.body c.startedAt) := rfl
  refine ⟨_, _, stored, c.job.receipt?_body c.startedAt, ?_⟩
  simp [Tables.bank, h, stored, Job.receipt?_body]

theorem Tables.bank_free {key : String} (h : t.key? key = none) : t.bank.settled key = none := by
  simp [bank, h]

theorem Tables.bank_balance {id : Uuid} {a : Account} (h : t.account? id = some a) :
    t.bank.balance id = some a.balance.toDecimal.toRat := by
  simp [bank, h]

theorem Tables.bank_balance_eq_none {id : Uuid} :
    t.bank.balance id = none ↔ t.account? id = none := by
  simp [bank]

theorem Job.settled_row {t' : Tables}
    (h : t'.idempotencyKeys = t.idempotencyKeys ++ [job.row sha256 clock])
    (free : t.key? job.key = none) : t'.bank.settled = Function.update t.bank.settled job.key
      (some ((job.operation, job.requestHash sha256), job.receipt clock)) := by
  funext key
  have hkeys : t'.key? key =
      (t.key? key).or (if job.key = key then some (job.row sha256 clock) else none) := by
    unfold Tables.key?
    rw [h, Rows.lookup_append, Rows.lookup_cons]
    rfl
  by_cases hkey : key = job.key
  · subst hkey
    rw [free, if_pos rfl] at hkeys
    simp [Tables.bank, hkeys, Job.row, Job.receipt?_body, IdempotencyKey.print, Job.record]
  · rw [if_neg fun h => hkey h.symm, Option.or_none] at hkeys
    simp [Tables.bank, hkeys, hkey]

theorem Job.balance_book_account {req : CreateAccountRequest}
    (hreq : job.request.payload = .account req) (fresh : t.account? job.draws.first = none) :
    (job.book sha256 clock t t.accounts).bank.balance =
      Function.update t.bank.balance job.draws.first (some req.initialBalance.value.toRat) := by
  funext id
  have haccounts : (job.book sha256 clock t t.accounts).account? id =
      (t.account? id).or (if job.draws.first = id then
        some ⟨job.draws.first, req.initialBalance.toBalance, req.initialBalance.toBalance, clock⟩
        else none) := by
    refine Rows.lookup_append.trans ?_
    simp only [Job.opened, hreq, Rows.lookup_cons, Rows.lookup_nil]
    rfl
  by_cases hid : id = job.draws.first
  · subst hid
    rw [fresh, if_pos rfl] at haccounts
    simp [Tables.bank, haccounts, NonNegativeMoney.toRat_toBalance]
  · rw [if_neg fun h => hid h.symm, Option.or_none] at haccounts
    simp [Tables.bank, haccounts, hid]

theorem Moved.bank {draws : Draws} {key : String} {req : TransferRequest} {t' : Tables}
    {source destination : Account} (h : Moved sha256 draws key req clock source destination t t') :
    t'.bank.balance = Function.update (Function.update t.bank.balance req.fromAccountId
      (some (source.balance.toDecimal.toRat - req.amount.value.toRat))) req.toAccountId
      (some (destination.balance.toDecimal.toRat + req.amount.value.toRat)) := by
  funext id
  by_cases hto : id = req.toAccountId
  · subst hto
    obtain ⟨balance, hrow, hbalance⟩ := h.destination
    rw [Tables.bank_balance hrow, Function.update_self, hbalance]
  · rw [Function.update_of_ne hto]
    by_cases hfrom : id = req.fromAccountId
    · subst hfrom
      obtain ⟨balance, hrow, hbalance⟩ := h.source
      rw [Tables.bank_balance hrow, Function.update_self, hbalance]
    · rw [Function.update_of_ne hfrom]
      simp only [Tables.bank, h.others id hfrom hto]

theorem exists_least_missing {req : TransferRequest}
    (h : ∃ id, (id = req.fromAccountId ∨ id = req.toAccountId) ∧ t.account? id = none) :
    ∃ id, IsLeast {id | (id = req.fromAccountId ∨ id = req.toAccountId) ∧ t.account? id = none}
      id := by
  have nonempty : (({req.fromAccountId, req.toAccountId} : Finset Uuid).filter
      (t.account? · = none)).Nonempty := by
    obtain ⟨id, mem, absent⟩ := h
    exact ⟨id, by simpa using ⟨mem, absent⟩⟩
  exact ⟨_, by simpa using Finset.isLeast_min' _ nonempty⟩

def Agrees (sha256 : String → String) (t : Tables) (ask : Ask) (served : Tables × Answer) : Prop :=
  ∃ verdict, t.bank.serve balanceLimit (ask.instruction sha256) = (served.1.bank, verdict) ∧
    Conveys served.2 verdict

theorem agrees_taken (b : Books sha256 history t) (admitted : job.Admitted) (clock : Timestamp)
    {row : IdempotencyKey} (h : t.key? job.key = some row) :
    Agrees sha256 t (.post job clock) (t, .post (job.replayed sha256 row)) := by
  obtain ⟨body, receipt, hbody, hreceipt, settled⟩ := b.bank_settled h
  unfold Agrees
  rw [Job.instruction_of_admitted admitted,
    Bank.serve_settled (Job.distinct_of_admitted admitted) settled]
  refine ⟨_, rfl, ?_⟩
  by_cases same : row.print = (job.operation, job.requestHash sha256)
  · obtain ⟨hop, hhash⟩ := Prod.mk.inj same
    rw [if_pos same, Job.replayed, if_neg (by simp [hop, hhash]), hbody]
    exact .replayed hreceipt
  · have differs : row.operation ≠ job.operation ∨ row.requestHash ≠ job.requestHash sha256 := by
      by_contra! h
      exact same (Prod.ext h.1 h.2)
    rw [if_neg same, Job.replayed, if_pos differs, Rows.key_of_lookup h]
    exact .conflict job.key row.print

theorem agrees_account (admitted : job.Admitted) (free : t.key? job.key = none)
    {req : CreateAccountRequest} (hreq : job.request.payload = .account req)
    (fresh : t.account? job.draws.first = none) : Agrees sha256 t (.post job clock)
      (job.book sha256 clock t t.accounts, .post (.outcome (job.earned clock))) := by
  have performed : t.bank.perform balanceLimit (job.receipt clock) =
      .ok (job.book sha256 clock t t.accounts).bank.balance := by
    rw [Job.balance_book_account hreq fresh]
    simp [Bank.perform, Job.receipt, hreq, Payload.deal]
  have settled : (job.book sha256 clock t t.accounts).bank.settled = _ := Job.settled_row rfl free
  unfold Agrees
  rw [Job.instruction_of_admitted admitted, Bank.serve_done (Job.distinct_of_admitted admitted)
    (Tables.bank_free free) performed, ← settled]
  exact ⟨_, rfl, .earned (job.receipt?_body clock)⟩

theorem agrees_transfer (admitted : job.Admitted) (free : t.key? job.key = none)
    {req : TransferRequest} (hreq : job.request.payload = .transfer req) :
    Agrees sha256 t (.post job clock)
      ((atomic sha256 job clock t).1, .post (atomic sha256 job clock t).2) := by
  have performed : t.bank.perform balanceLimit (job.receipt clock) = t.bank.transfer
      balanceLimit req.fromAccountId req.toAccountId req.amount.value.toRat := by
    simp [Bank.perform, Job.receipt, hreq, Payload.deal]
  have refused {verdict : Verdict Uuid String Print ℚ Timestamp}
      (h : t.bank.transfer balanceLimit req.fromAccountId req.toAccountId req.amount.value.toRat =
        .error verdict) : t.bank.serve balanceLimit ((Ask.post job clock).instruction sha256) =
          (t.bank, verdict) := by
    rw [Job.instruction_of_admitted admitted]
    exact Bank.serve_refused (Job.distinct_of_admitted admitted) (Tables.bank_free free)
      (performed.trans h)
  unfold Agrees
  by_cases absent : ∃ id, (id = req.fromAccountId ∨ id = req.toAccountId) ∧ t.account? id = none
  · obtain ⟨id, least⟩ := exists_least_missing absent
    rw [atomic_missing free hreq least, refused (Bank.transfer_missing
      (by simpa only [Tables.bank_balance_eq_none] using least))]
    exact ⟨_, rfl, .unknown id⟩
  push Not at absent
  obtain ⟨source, hs⟩ := Option.ne_none_iff_exists'.mp (absent _ (.inl rfl))
  obtain ⟨destination, hd⟩ := Option.ne_none_iff_exists'.mp (absent _ (.inr rfl))
  have hs' := Tables.bank_balance hs
  have hd' := Tables.bank_balance hd
  by_cases short : source.balance.toDecimal.toRat < req.amount.value.toRat
  · rw [atomic_insufficient free hreq hs hd short, refused (Bank.transfer_short hs' hd' short)]
    exact ⟨_, rfl, .short _ source.balance.money?_serialize req.amount.money?_serialize⟩
  by_cases full : 10 ^ 16 ≤ destination.balance.toDecimal.toRat + req.amount.value.toRat
  · rw [atomic_outOfRange free hreq hs hd short full,
      refused (Bank.transfer_full hs' hd' short full)]
    exact ⟨_, rfl, .full⟩
  have done : Moved sha256 job.draws job.key req clock source destination t
        (atomic sha256 job clock t).1 ∧
      (atomic sha256 job clock t).2 = .outcome (job.earned clock) :=
    atomic_moved free hreq hs hd (admitted.distinct req hreq) short full
  obtain ⟨moved, earned⟩ := done
  have keys : (atomic sha256 job clock t).1.idempotencyKeys =
      t.idempotencyKeys ++ [job.row sha256 clock] := moved.keys.trans (by simp [Job.row,
    Job.record, Job.body, Job.operation, Job.requestHash, hreq, Payload.operation])
  rw [earned, Job.instruction_of_admitted admitted,
    Bank.serve_done (Job.distinct_of_admitted admitted) (Tables.bank_free free)
      (performed.trans (Bank.transfer_done hs' hd' short full)),
    ← moved.bank, ← Job.settled_row keys free]
  exact ⟨_, rfl, .earned (job.receipt?_body clock)⟩

theorem agrees_atomic (b : Books sha256 history t) (admitted : job.Admitted)
    (fresh : t.account? job.draws.first = none) (clock : Timestamp) :
    Agrees sha256 t (.post job clock)
      ((atomic sha256 job clock t).1, .post (atomic sha256 job clock t).2) := by
  cases hkey : t.key? job.key with
  | some row =>
    rw [atomic_of_taken hkey]
    exact agrees_taken b admitted clock hkey
  | none =>
    cases hreq : job.request.payload with
    | transfer req => exact agrees_transfer admitted hkey hreq
    | account req =>
      have opened : atomic sha256 job clock t =
          (job.book sha256 clock t t.accounts, .outcome (job.earned clock)) := by
        simp only [atomic, hkey, hreq]
      rw [opened]
      exact agrees_account admitted hkey hreq fresh

theorem agrees_not_admitted (sha256 : String → String) (t : Tables) (clock : Timestamp)
    (h : ¬ job.Admitted) : ∃ e : LedgerError,
    serveRequest sha256 job = .pure (.envelope e false) ∧
      Agrees sha256 t (.post job clock) (t, .post (.envelope e false)) := by
  unfold Agrees
  cases hk : requireKey job.request.idempotencyKey with
  | error e =>
    have unkeyed : t.bank.serve balanceLimit ((Ask.post job clock).instruction sha256) =
        (t.bank, .unkeyed) := by
      simp only [Ask.instruction, hk, Except.toOption]
      rfl
    refine ⟨e, ?_, .unkeyed, unkeyed, ?_⟩
    · rcases requireKey_error hk with rfl | ⟨length, rfl⟩ <;>
        simp only [serveRequest, endpoint, hk] <;> rfl
    · rcases requireKey_error hk with rfl | ⟨length, rfl⟩
      · exact .missingKey
      · exact .invalidKey length
  | ok key =>
    have name : key = job.key := by simp [Job.key, hk, Except.toOption]
    obtain ⟨req, hreq, same⟩ : ∃ req, job.request.payload = .transfer req ∧
        req.fromAccountId = req.toAccountId := by
      by_contra! distinct
      exact h ⟨name ▸ hk, distinct⟩
    have circular : (job.receipt clock).deal.Circular := by
      simpa [Job.receipt, hreq, Payload.deal, Deal.Circular] using same
    refine ⟨.sameAccountTransfer, ?_, .sameAccount, ?_, .sameAccount⟩
    · simp [serveRequest, endpoint, hk, hreq, executeTransfer, same, respond, handleException,
        LedgerError.retryable]
    · simp only [Ask.instruction, hk, Except.toOption, Bank.serve, if_pos circular]

end simulation

section statements

variable {sha256 : String → String} {history : List Commit} {t : Tables}

def TransferResponse.receipt (r : TransferResponse) : Receipt Uuid ℚ Timestamp :=
  ⟨r.transferId, .transfer r.fromAccountId r.toAccountId ((money? r.amount).getD 0), r.createdAt⟩

theorem Books.receipt?_transfer (b : Books sha256 history t) {r : TransferResponse}
    (h : r ∈ t.transfers) : (Body.transfer r).receipt? = some r.receipt := by
  obtain ⟨c, hc, req, hreq, rfl⟩ := b.mem_transfers h
  simp [Body.receipt?, TransferResponse.receipt, PositiveMoney.money?_serialize]

theorem IdempotencyKey.transfer?_eq_some {row : IdempotencyKey} {r : TransferResponse} :
    row.transfer? = some r ↔ row.responseBody = some (.transfer r) := by
  unfold transfer?
  split
  · next h => simp [h]
  · next h => simpa using h r

theorem Books.mem_statement (b : Books sha256 history t) {accountId : Uuid}
    {receipt : Receipt Uuid ℚ Timestamp} : receipt ∈ t.bank.statement accountId ↔
      ∃ r ∈ t.transfersOf accountId, r.receipt = receipt := by
  constructor
  · rintro ⟨touches, key, print, settled⟩
    simp only [Tables.bank, Option.bind_eq_some_iff, Option.map_eq_some_iff, Prod.mk.injEq]
      at settled
    obtain ⟨row, hrow, stored, ⟨body, hbody, hreceipt⟩, -, rfl⟩ := settled
    cases body with
    | account r =>
      obtain ⟨amount, -, rfl⟩ := Option.map_eq_some_iff.mp hreceipt
      exact touches.elim
    | transfer r =>
      have mem : r ∈ t.transfers := List.mem_filterMap.mpr
        ⟨row, Rows.mem_of_lookup hrow, IdempotencyKey.transfer?_eq_some.mpr hbody⟩
      obtain rfl := Option.some.inj ((b.receipt?_transfer mem).symm.trans hreceipt)
      exact ⟨r, List.mem_filter.mpr ⟨mem, decide_eq_true (p := r.Touches accountId) touches⟩, rfl⟩
  · rintro ⟨r, hr, rfl⟩
    obtain ⟨mem, touches⟩ := List.mem_filter.mp hr
    obtain ⟨row, hrow, htransfer⟩ := List.mem_filterMap.mp mem
    have found : t.key? row.key = some row := Rows.lookup_of_mem b.claimed.keys hrow
    have touched : r.Touches accountId := of_decide_eq_true touches
    refine ⟨touched, row.key, row.print, ?_⟩
    simp [Tables.bank, found, IdempotencyKey.transfer?_eq_some.mp htransfer,
      b.receipt?_transfer mem]

theorem TransactionItem.Shows.reports {item : TransactionItem} {accountId : Uuid}
    {r : TransferResponse} (h : item.Shows accountId r) : item.Reports accountId r.receipt := by
  obtain ⟨amount, hparse, side⟩ := h.side
  have value : (money? r.amount).getD 0 = amount.toRat := by simp [money?, hparse]
  refine ⟨h.transferId, h.createdAt, ?_⟩
  unfold TransferResponse.receipt
  rw [value]
  rcases side with ⟨rfl, hamount, hdirection, hother⟩ | ⟨rfl, hamount, hdirection, hother⟩
  · exact .inl ⟨hdirection, by rw [hamount, hother, neg_neg]⟩
  · exact .inr ⟨hdirection, by rw [hamount, hother]⟩

theorem Books.reported (b : Books sha256 history t) {a : Account} (ha : a ∈ t.accounts) :
    Reported a.id (t.bank.statement a.id)
      (((transactionRows t a.id).take maxTransactions).map transactionItem) := by
  have exact_history := b.historyExact ha
  obtain ⟨transfers, perm, shows⟩ := exact_history.shown
  have ids : (transfers.map TransferResponse.transferId).Nodup :=
    (perm.map _).nodup_iff.mpr (b.uniqueTransfers.sublist (List.filter_sublist.map _))
  refine ⟨transfers.map TransferResponse.receipt, .of_map Receipt.id ?ids, ?members, ?newest,
    ?lines⟩
  case ids => rwa [List.map_map]
  case members =>
    ext receipt
    simp only [List.mem_map, Set.mem_ofPred_eq, b.mem_statement, perm.mem_iff]
  case newest =>
    have times : transfers.map TransferResponse.createdAt =
        ((transactionRows t a.id).map transactionItem).map TransactionItem.createdAt := by
      rw [← List.forall₂_eq_eq_eq]
      exact List.forall₂_map_left_iff.mpr
        (List.forall₂_map_right_iff.mpr (shows.imp fun _ _ h => h.createdAt.symm))
    have ordered : (transfers.map TransferResponse.createdAt).Pairwise (fun x y => y ≤ x) := by
      rw [times, List.map_map, List.pairwise_map]
      refine exact_history.descending.imp fun {above below} h => ?_
      rcases Prod.Lex.toLex_lt_toLex.mp h with h | ⟨h, -⟩
      · exact h.le
      · exact h.le
    rw [List.pairwise_map] at ordered ⊢
    exact ordered
  case lines =>
    rw [← List.map_take, List.map_take (f := transactionItem)]
    apply List.forall₂_map_left_iff.mpr
    exact List.forall₂_take _ (shows.imp fun _ _ h => h.reports)

theorem Books.agrees_get (b : Books sha256 history t) {request : ReadRequest} {a : ReadResponse}
    (h : t.readAtOnce request = .ok a) : Agrees sha256 t (.get request) (t, .get a) := by
  rw [Tables.readAtOnce_eq] at h
  cases found : t.account? request.accountId with
  | none =>
    rw [found] at h
    cases h
    have absent := Tables.bank_balance_eq_none.mpr found
    refine ⟨.unknown request.accountId, ?_, .notFound _⟩
    cases request <;> simp only [Ask.instruction, Bank.serve] <;>
      simp only [ReadRequest.accountId] at absent <;> simp only [absent] <;> rfl
  | some account =>
    rw [found] at h
    cases h
    have there := Tables.bank_balance found
    have hid : account.id = request.accountId := Rows.key_of_lookup found
    cases request with
    | balance accountId =>
      refine ⟨.balance accountId account.balance.toDecimal.toRat, ?_, ?_⟩
      · simp only [ReadRequest.accountId] at there
        simp only [Ask.instruction, Bank.serve, there]
      · obtain rfl : account.id = accountId := hid
        exact .balance _ _
    | transactions accountId =>
      refine ⟨.statement accountId (t.bank.statement accountId), ?_, ?_⟩
      · simp only [ReadRequest.accountId] at there
        simp only [Ask.instruction, Bank.serve, there]
      · obtain rfl : account.id = accountId := hid
        exact .transactions (b.reported (Rows.mem_of_lookup found))

end statements

section moments

variable {sha256 : String → String} {es : List Event} {w : World} {r : Nat} {p : Party}

theorem Inv.agrees_post (ran : run (World.step (serveRequest sha256)) World.init es = some w)
    (hp : w.party r = some p) (unowned : ¬ w.CommittedBy r) {clock : Timestamp} {t : Tables}
    {a : Response}
    (h : sequential (serveRequest sha256) p.job clock w.server.committed = (t, .ok a)) :
    Agrees sha256 w.server.committed (.post p.job clock) (t, .post a) := by
  by_cases admitted : p.job.Admitted
  · rw [Inv.sequential_eq ran hp admitted unowned] at h
    cases h
    refine agrees_atomic (Inv.books ran) admitted ?_ clock
    exact ((Inv.of_run ran).fresh hp unowned).accounts _ (by simp [Draws.toList])
  · obtain ⟨e, hserve, agrees⟩ := agrees_not_admitted sha256 w.server.committed clock admitted
    have : sequential (serveRequest sha256) p.job clock w.server.committed =
        (w.server.committed, .ok (.envelope e false)) := by
      simp [sequential, hserve]
    cases h.symm.trans this
    exact agrees

end moments

section linearized

variable {sha256 : String → String} {es pre : List SiteEvent} {s m : Site} {c : Client} {ask : Ask}
  {told : Answer}

theorem map_eq_ok {α β : Type} {f : α → β} {x : Except Exn α} {b : β} (h : x.map f = .ok b) :
    ∃ a, x = .ok a ∧ b = f a := by
  cases x with
  | error e => cases h
  | ok a => exact ⟨a, rfl, (Except.ok.inj h).symm⟩

theorem Ask.serve_post {job : Job} {clock : Timestamp} {t t' : Tables}
    (h : (Ask.post job clock).serve sha256 t = (t', .ok told)) : ∃ a,
      sequential (serveRequest sha256) job clock t = (t', .ok a) ∧ told = .post a := by
  obtain ⟨ht, ha⟩ := Prod.mk.inj h
  obtain ⟨a, hs, rfl⟩ := map_eq_ok ha
  exact ⟨a, Prod.ext ht hs, rfl⟩

theorem Ask.serve_get {request : ReadRequest} {t t' : Tables}
    (h : (Ask.get request).serve sha256 t = (t', .ok told)) : ∃ a,
      t.readAtOnce request = .ok a ∧ told = .get a :=
  map_eq_ok (Prod.mk.inj h).2

theorem Site.agrees_post (ran : run (Site.step (serveRequest sha256)) Site.init es = some s)
    (hm : Site.Earlier sha256 es pre m) {r : Nat} {p : Party} (hp : m.world.party r = some p)
    (unowned : ¬ m.TookEffect (.post r)) (asks : s.Asks (.post r) ask) {t : Tables}
    (served : ask.serve sha256 m.tables = (t, .ok told)) :
    Agrees sha256 m.tables ask (t, told) := by
  cases ask with
  | get request => exact asks.elim
  | post job clock =>
    obtain ⟨p', hp', rfl⟩ := asks
    have earlier : Past (World.step (serveRequest sha256)) World.init (writes es) (writes pre)
        m.world := by
      obtain ⟨rest, rfl⟩ := hm.1
      exact ⟨writes_append pre rest ▸ List.prefix_append _ _, Site.run_world hm.2⟩
    rw [← Inv.job_eq (Site.run_world ran) earlier hp hp'] at served ⊢
    obtain ⟨a, hs, rfl⟩ := Ask.serve_post served
    exact Inv.agrees_post earlier.2 hp unowned hs

structure ServedByBank (sha256 : String → String) (s : Site) (c : Client) (ask : Ask)
    (verdict : Verdict Uuid String Print ℚ Timestamp) (pre : List SiteEvent) : Prop where
  acted : s.TookEffect c → ∀ past e m m', pre = past ++ [e] →
    run (Site.step (serveRequest sha256)) Site.init past = some m →
    m.step (serveRequest sha256) e = some m' →
    m.tables.bank.serve balanceLimit (ask.instruction sha256) = (m'.tables.bank, verdict)
  saw : ¬ s.TookEffect c → ∀ m,
    run (Site.step (serveRequest sha256)) Site.init pre = some m →
    m.tables.bank.serve balanceLimit (ask.instruction sha256) = (m.tables.bank, verdict)

theorem Linearized.agrees (ran : run (Site.step (serveRequest sha256)) Site.init es = some s)
    (h : Linearized sha256 es s c ask told pre) : ∃ verdict, Conveys told verdict ∧
      ServedByBank sha256 s c ask verdict pre := by
  by_cases effective : s.TookEffect c
  · have first := h.effect effective
    obtain ⟨w, hw, took⟩ := first.holds
    obtain ⟨past, e, hpre⟩ : ∃ past e, pre = past ++ [e] := by
      refine (List.eq_nil_or_concat' pre).resolve_left fun empty => ?_
      subst empty
      cases hw
      cases c with
      | post r =>
        obtain ⟨a, ha, -⟩ := took
        cases ha
      | get q => exact took
    obtain ⟨m, hm, hstep⟩ := run_snoc (hpre ▸ hw)
    have within : past ++ [e] <+: es := hpre ▸ h.within
    obtain ⟨now, before⟩ := (effectAt_iff first h.within within hm hstep).mp hpre
    have agrees : Agrees sha256 m.tables ask (w.tables, told) := by
      rcases effect_step hm hstep with ⟨-, same⟩ | ⟨r, p, fp, tx, commits, only⟩
      · exact (before ((same c).mp now)).elim
      · obtain rfl := (only c).mp ⟨now, before⟩
        exact Site.agrees_post ran ⟨(List.prefix_append past [e]).trans within, hm⟩ commits.party
          before h.asks (h.served effective past e m w hpre hm hstep)
    obtain ⟨verdict, hserve, conveys⟩ := agrees
    refine ⟨verdict, conveys, fun _ past' e' m' w' hpre' hm' hstep' => ?_,
      fun h => (h effective).elim⟩
    obtain ⟨rfl, he⟩ := List.append_inj' (hpre.symm.trans hpre') rfl
    cases he
    cases hm.symm.trans hm'
    cases hstep.symm.trans hstep'
    exact hserve
  · obtain ⟨m, hm, isOpen, served⟩ := (h.seen effective).holds
    have agrees : Agrees sha256 m.tables ask (m.tables, told) := by
      cases c with
      | post r =>
        obtain ⟨p, hp⟩ := Current.party isOpen (Site.run_world hm)
        obtain ⟨rest, toLast⟩ := Past.rest ⟨h.within, hm⟩ ran
        exact Site.agrees_post ran ⟨h.within, hm⟩ hp (mt (run_tookEffect toLast) effective) h.asks
          served
      | get q =>
        cases ask with
        | post job clock => exact h.asks.elim
        | get request =>
          obtain ⟨a, ha, rfl⟩ := Ask.serve_get served
          exact (Inv.books (Site.run_world hm)).agrees_get ha
    obtain ⟨verdict, hserve, conveys⟩ := agrees
    refine ⟨verdict, conveys, fun h => (effective h).elim, fun _ m' hm' => ?_⟩
    cases hm.symm.trans hm'
    exact hserve

end linearized

/-- Clients cannot tell the service from a bank that serves one instruction at a time, in an order
that keeps to the order in which they were given.  Its accounts and receipts are what the tables
stand for. -/
theorem service_is_bank {sha256 : String → String}
    (x : Execution (Site.step (serveRequest sha256)) Site.init) :
    ∃ (order : List Client) (ask : Client → Ask)
        (verdict : Client → Verdict Uuid String Print ℚ Timestamp), order.Nodup ∧
      (∀ c, c ∈ order ↔ x.last.Served c) ∧
      (∀ c ∈ order, x.last.Asks c (ask c) ∧
        ∀ a, x.last.answer c = some a → a.Definite → Conveys a (verdict c)) ∧
      serveAll (Bank.serve balanceLimit) .empty (order.map fun c => (ask c).instruction sha256) =
        (x.last.tables.bank, order.map verdict) ∧
      order.Pairwise fun c d => ¬ Before sha256 x.events d c := by
  have served (c : Client) : ∃ ask told verdict pre, x.last.Served c →
      Linearized sha256 x.events x.last c ask told pre ∧ Conveys told verdict ∧
        ServedByBank sha256 x.last c ask verdict pre := by
    by_cases h : x.last.Served c
    · obtain ⟨ask, told, pre, linearized⟩ := exists_linearized x.ran h
      obtain ⟨verdict, agrees⟩ := linearized.agrees x.ran
      exact ⟨ask, told, verdict, pre, fun _ => ⟨linearized, agrees⟩⟩
    · exact ⟨.get (.balance 0), .get .plainText, .unkeyed, [], fun hc => (h hc).elim⟩
  choose ask told verdict point served using served
  have finite := Site.finite_served x.ran
  have mem (c : Client) : c ∈ finite.toFinset.toList ↔ x.last.Served c := by simp
  have linearized (c : Client) (hc : c ∈ finite.toFinset.toList) :=
    (served c ((mem c).mp hc)).1
  have banked (c : Client) (hc : c ∈ finite.toFinset.toList) :=
    (served c ((mem c).mp hc)).2.2
  obtain ⟨order, perm, sorted, hserved⟩ := ((Linearized.points x.ran mem linearized).abstract
    Tables.bank (fun c hc => (banked c hc).acted) fun c hc => (banked c hc).saw).exists_order
      (Finset.nodup_toList _) x.ran
  have inOrder {c : Client} (hc : c ∈ order) := perm.subset hc
  refine ⟨order, ask, verdict, perm.nodup_iff.mpr (Finset.nodup_toList _),
    fun c => perm.mem_iff.trans (mem c), fun c hc => ?_, hserved,
    Linearized.turns x.ran sorted fun c hc => linearized c (inOrder hc)⟩
  refine ⟨(linearized c (inOrder hc)).asks, fun a ha definite => ?_⟩
  rw [← (linearized c (inOrder hc)).answered a ha definite]
  exact (served c ((mem c).mp (inOrder hc))).2.1

end Ledger
