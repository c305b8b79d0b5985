import Ledger.Conservation

namespace Ledger

open Lib

def IdempotencyKey.transfer? (row : IdempotencyKey) : Option TransferResponse :=
  match row.responseBody with
  | some (.transfer r) => some r
  | _ => none

def Tables.transfers (t : Tables) : List TransferResponse :=
  t.idempotencyKeys.filterMap IdempotencyKey.transfer?

def TransferResponse.Touches (r : TransferResponse) (accountId : Uuid) : Prop :=
  r.fromAccountId = accountId ∨ r.toAccountId = accountId

instance (r : TransferResponse) (accountId : Uuid) : Decidable (r.Touches accountId) :=
  inferInstanceAs (Decidable (_ ∨ _))

def Tables.transfersOf (t : Tables) (accountId : Uuid) : List TransferResponse :=
  t.transfers.filter (·.Touches accountId)

structure TransactionItem.Shows (item : TransactionItem) (accountId : Uuid)
    (r : TransferResponse) : Prop where
  transferId : item.transferId = r.transferId
  createdAt : item.createdAt = r.createdAt
  side : ∃ amount, Decimal.parse r.amount = some amount ∧
    (r.fromAccountId = accountId ∧ item.amount.toRat = -amount.toRat ∧ item.direction = .debit ∧
        item.counterpartyAccountId = r.toAccountId ∨
      r.toAccountId = accountId ∧ item.amount.toRat = amount.toRat ∧ item.direction = .credit ∧
        item.counterpartyAccountId = r.fromAccountId)

/-- The history of one account, before the cap and after it. -/
structure Account.HistoryExact (a : Account) (t : Tables) : Prop where
  shown : ∃ transfers, transfers.Perm (t.transfersOf a.id) ∧
    List.Forall₂ (fun r item => item.Shows a.id r) transfers
      ((transactionRows t a.id).map transactionItem)
  descending : (transactionRows t a.id).Pairwise fun above below => sortKey below < sortKey above
  stored : ∀ entries rows, entries.Perm t.ledgerEntries → rows.Perm (selfJoin entries a.id) →
    rows.Pairwise (fun above below => sortKey below ≤ sortKey above) →
    rows = transactionRows t a.id
  capped : listTransactions t a.id =
      .ok (((transactionRows t a.id).map transactionItem).take
        (min 100 (t.transfersOf a.id).length))
  sum : (t.transfersOf a.id).length ≤ 100 → ∃ items, listTransactions t a.id = .ok items ∧
    (items.map (·.amount.toRat)).sum = a.balance.toDecimal.toRat - a.openingBalance.toDecimal.toRat

structure TransferResponse.SeenTwice (r : TransferResponse) (t : Tables) : Prop where
  distinct : r.fromAccountId ≠ r.toAccountId
  seen : (t.transfersOf r.fromAccountId).length ≤ 100 →
    (t.transfersOf r.toAccountId).length ≤ 100 → ∃ sent received debit credit,
      listTransactions t r.fromAccountId = .ok sent ∧ debit ∈ sent ∧
      listTransactions t r.toAccountId = .ok received ∧ credit ∈ received ∧
      debit.transferId = r.transferId ∧ credit.transferId = r.transferId ∧
      debit.amount.toRat = -credit.amount.toRat ∧
      debit.counterpartyAccountId = r.toAccountId ∧
      credit.counterpartyAccountId = r.fromAccountId

theorem listTransactions_of_some {t : Tables} {accountId : Uuid} {a : Account}
    (h : t.account? accountId = some a) : listTransactions t accountId =
      .ok (((transactionRows t accountId).take maxTransactions).map transactionItem) := by
  simp [listTransactions, getAccount, h, bind, Except.bind, pure, Except.pure]

theorem transactionRows_perm (t : Tables) (accountId : Uuid) :
    (transactionRows t accountId).Perm (selfJoin t.ledgerEntries accountId) :=
  Rows.orderByDesc_perm _

theorem selfJoin_perm {entries entries' : List LedgerEntry} (h : entries.Perm entries')
    (accountId : Uuid) : (selfJoin entries accountId).Perm (selfJoin entries' accountId) :=
  List.Perm.flatMap (h.filter _) fun _ _ => (h.filter _).map _

namespace Commit

variable {c : Commit} {req : TransferRequest} {sha256 : String → String}

def sides (c : Commit) : List (LedgerEntry × LedgerEntry) :=
  match c.entries with
  | [debit, credit] => [(debit, credit), (credit, debit)]
  | _ => []

theorem sides_account {req : CreateAccountRequest} (h : c.job.request.payload = .account req) :
    c.sides = [] := by
  simp [sides, entries, Job.entries, h]

theorem sides_transfer (h : c.job.request.payload = .transfer req) : ∃ debit credit,
    c.sides = [(debit, credit), (credit, debit)] ∧ c.entries = [debit, credit] ∧
    debit = ⟨c.job.draws.second, c.job.draws.first, req.fromAccountId, req.amount.debit,
      c.startedAt⟩ ∧
    credit = ⟨c.job.draws.third, c.job.draws.first, req.toAccountId, req.amount.credit,
      c.startedAt⟩ :=
  ⟨_, _, by simp [sides, entries_transfer h], entries_transfer h, rfl, rfl⟩

theorem map_fst_sides (c : Commit) : c.sides.map Prod.fst = c.entries := by
  cases h : c.job.request.payload with
  | account req => simp [sides_account h, entries, Job.entries, h]
  | transfer req =>
    obtain ⟨debit, credit, sides, entries, -, -⟩ := sides_transfer h
    simp [sides, entries]

theorem mem_draws {id : Uuid} (h : id ∈ c.entries.map LedgerEntry.id) :
    id ∈ c.job.draws.toList := by
  obtain ⟨entry, hentry, rfl⟩ := List.mem_map.mp h
  obtain ⟨req, -, -, hrow⟩ := mem_entries hentry
  rcases hrow with ⟨hid, -⟩ | ⟨hid, -⟩ <;> simp [hid, Draws.toList]

theorem transfer?_account {req : CreateAccountRequest} (h : c.job.request.payload = .account req) :
    (c.row sha256).transfer? = none := by
  simp [IdempotencyKey.transfer?, row, Job.row, Job.body, h]

theorem transfer?_transfer (h : c.job.request.payload = .transfer req) :
    (c.row sha256).transfer? = some ⟨c.job.draws.first, req.fromAccountId, req.toAccountId,
      serializeMoney req.amount.value, c.startedAt⟩ := by
  simp [IdempotencyKey.transfer?, row, Job.row, Job.body, h]

end Commit

theorem PositiveMoney.parse_serialize (m : PositiveMoney) :
    ∃ d, Decimal.parse (serializeMoney m.value) = some d ∧ d.toRat = m.value.toRat := by
  obtain ⟨d, hparse, hmultiple, hunits⟩ := m.decimalPlaces.parse_format (by decide)
  exact ⟨d, hparse, (hmultiple.toRat_eq_iff m.decimalPlaces).mpr hunits⟩

theorem PositiveMoney.debit_lt_zero (m : PositiveMoney) :
    m.debit.toDecimal.lt ⟨false, 0, 0⟩ = true := by
  rw [Decimal.Multiple.lt_iff m.debit.toDecimal_multiple (by decide), Numeric.toDecimal_units]
  exact neg_neg_of_pos m.positive

theorem PositiveMoney.credit_not_lt_zero (m : PositiveMoney) :
    ¬ m.credit.toDecimal.lt ⟨false, 0, 0⟩ = true := by
  rw [Decimal.Multiple.lt_iff m.credit.toDecimal_multiple (by decide), Numeric.toDecimal_units]
  exact not_lt.mpr m.positive.le

section sides

variable {c : Commit} {req : TransferRequest} (legs : LedgerEntry × LedgerEntry)

theorem TransactionItem.shows_debit (h : legs.1 = ⟨c.job.draws.second, c.job.draws.first,
      req.fromAccountId, req.amount.debit, c.startedAt⟩) (h' : legs.2.accountId = req.toAccountId) :
    (transactionItem legs).Shows req.fromAccountId ⟨c.job.draws.first, req.fromAccountId,
      req.toAccountId, serializeMoney req.amount.value, c.startedAt⟩ := by
  obtain ⟨amount, hparse, hamount⟩ := req.amount.parse_serialize
  refine ⟨by simp [transactionItem, h], by simp [transactionItem, h], amount, hparse, .inl ?_⟩
  simp [transactionItem, h, h', req.amount.debit_lt_zero, req.amount.toRat_debit, hamount]

theorem TransactionItem.shows_credit (h : legs.1 = ⟨c.job.draws.third, c.job.draws.first,
      req.toAccountId, req.amount.credit, c.startedAt⟩)
    (h' : legs.2.accountId = req.fromAccountId) :
    (transactionItem legs).Shows req.toAccountId ⟨c.job.draws.first, req.fromAccountId,
      req.toAccountId, serializeMoney req.amount.value, c.startedAt⟩ := by
  obtain ⟨amount, hparse, hamount⟩ := req.amount.parse_serialize
  refine ⟨by simp [transactionItem, h], by simp [transactionItem, h], amount, hparse, .inr ?_⟩
  simp [transactionItem, h, h', req.amount.credit_not_lt_zero, req.amount.toRat_credit, hamount]

end sides

namespace Books

variable {sha256 : String → String} {history : List Commit} {t : Tables} {c : Commit}

theorem selfJoin_eq (b : Books sha256 history t) (accountId : Uuid) :
    selfJoin t.ledgerEntries accountId =
      history.flatMap fun c => c.sides.filter (·.1.accountId = accountId) := by
  rw [selfJoin, congrArg (List.filter _) b.entries, List.filter_flatMap, List.flatMap_assoc]
  refine List.flatMap_congr fun c hc => ?_
  have partner (id : Uuid) : (t.ledgerEntries.filter fun theirs =>
      theirs.transferId = c.job.draws.first ∧ theirs.id ≠ id) = c.entries.filter (·.id ≠ id) := by
    rw [← b.legs hc, List.filter_filter]
    refine List.filter_congr fun theirs _ => ?_
    simp [Bool.and_comm]
  cases hreq : c.job.request.payload with
  | account req => simp [Commit.entries, Job.entries, hreq, Commit.sides_account hreq]
  | transfer req =>
    have draws : c.job.draws.second ≠ c.job.draws.third := by
      have := (List.nodup_flatMap.mp b.uniqueDraws).1 c hc
      simp only [Draws.toList, List.nodup_cons, List.mem_singleton] at this
      exact this.2.1
    obtain ⟨debit, credit, sides, entries, hdebit, hcredit⟩ := Commit.sides_transfer hreq
    have ids : debit.id ≠ credit.id := by simpa [hdebit, hcredit] using draws
    have ofDebit := partner debit.id
    have ofCredit := partner credit.id
    simp only [entries, ne_eq, Bool.decide_and, decide_not,
      show c.job.draws.first = debit.transferId
      by rw [hdebit]] at ofDebit
    simp only [entries, ne_eq, Bool.decide_and, decide_not,
      show c.job.draws.first = credit.transferId
      by rw [hcredit]] at ofCredit
    rw [entries, sides]
    by_cases hd : debit.accountId = accountId <;> by_cases hk : credit.accountId = accountId <;>
      simp [hd, hk, ofDebit, ofCredit, ids, ids.symm]

theorem map_fst_selfJoin (b : Books sha256 history t) (accountId : Uuid) :
    (selfJoin t.ledgerEntries accountId).map Prod.fst =
      t.ledgerEntries.filter (·.accountId = accountId) := by
  rw [b.selfJoin_eq, b.entries, List.filter_flatMap, List.map_flatMap]
  refine List.flatMap_congr fun c _ => ?_
  rw [← c.map_fst_sides, List.filter_map]
  rfl

theorem uniqueEntries (b : Books sha256 history t) :
    (t.ledgerEntries.map LedgerEntry.id).Nodup := by
  obtain ⟨draws, disjoint⟩ := List.nodup_flatMap.mp b.uniqueDraws
  rw [b.entries, List.map_flatMap, List.nodup_flatMap]
  constructor
  · intro c hc
    cases hreq : c.job.request.payload with
    | account req => simp [Commit.entries, Job.entries, hreq]
    | transfer req =>
      have := draws c hc
      simp only [Draws.toList, List.nodup_cons] at this
      simpa [Commit.entries_transfer hreq] using this.2.1
  · exact disjoint.imp fun hd id hid hid' => hd (Commit.mem_draws hid) (Commit.mem_draws hid')

theorem uniqueSortKeys (b : Books sha256 history t) (accountId : Uuid) :
    ((selfJoin t.ledgerEntries accountId).map sortKey).Nodup := by
  have ids : ((selfJoin t.ledgerEntries accountId).map fun row => row.1.id).Nodup := by
    have := congrArg (List.map LedgerEntry.id) (b.map_fst_selfJoin accountId)
    rw [List.map_map] at this
    exact this ▸ b.uniqueEntries.sublist (List.filter_sublist.map _)
  rw [List.Nodup, List.pairwise_map] at ids ⊢
  exact ids.imp fun hne he => hne (congrArg (fun key => (ofLex key).2) he)

theorem shows (b : Books sha256 history t) (accountId : Uuid) :
    List.Forall₂ (fun r row => (transactionItem row).Shows accountId r) (t.transfersOf accountId)
      (selfJoin t.ledgerEntries accountId) := by
  rw [b.selfJoin_eq, Tables.transfersOf, Tables.transfers, b.keys, List.filterMap_map]
  have admitted := b.admitted
  clear b
  induction history with
  | nil => exact .nil
  | cons c history ih =>
    have rest := ih fun c' hc' => admitted c' (List.mem_cons_of_mem _ hc')
    rw [List.flatMap_cons, List.filterMap_cons, Function.comp]
    cases hreq : c.job.request.payload with
    | account req => simpa [Commit.transfer?_account hreq, Commit.sides_account hreq] using rest
    | transfer req =>
      have distinct := (admitted c List.mem_cons_self).distinct req hreq
      obtain ⟨debit, credit, sides, -, hdebit, hcredit⟩ := Commit.sides_transfer hreq
      have fromSide : debit.accountId = req.fromAccountId := by rw [hdebit]
      have toSide : credit.accountId = req.toAccountId := by rw [hcredit]
      rw [Commit.transfer?_transfer hreq, sides, List.filter_cons]
      by_cases hfrom : req.fromAccountId = accountId
      · subst hfrom
        have shown := TransactionItem.shows_debit (debit, credit) hdebit toSide
        simpa [TransferResponse.Touches, fromSide, toSide, distinct.symm] using ⟨shown, rest⟩
      · by_cases hto : req.toAccountId = accountId
        · subst hto
          have shown := TransactionItem.shows_credit (credit, debit) hcredit fromSide
          simpa [TransferResponse.Touches, fromSide, toSide, distinct] using ⟨shown, rest⟩
        · simpa [TransferResponse.Touches, fromSide, toSide, hfrom, hto] using rest

theorem length_transactionRows (b : Books sha256 history t) (accountId : Uuid) :
    (transactionRows t accountId).length = (t.transfersOf accountId).length :=
  (transactionRows_perm t accountId).length_eq.trans (b.shows accountId).length_eq.symm

theorem listTransactions_eq (b : Books sha256 history t) {accountId : Uuid} {a : Account}
    (h : t.account? accountId = some a) (short : (t.transfersOf accountId).length ≤ 100) :
    listTransactions t accountId = .ok ((transactionRows t accountId).map transactionItem) := by
  rw [listTransactions_of_some h, List.take_of_length_le]
  rwa [b.length_transactionRows]

theorem sum_items (b : Books sha256 history t) {accountId : Uuid} {a : Account}
    (h : t.account? accountId = some a) :
    (((transactionRows t accountId).map transactionItem).map (·.amount.toRat)).sum =
      a.balance.toDecimal.toRat - a.openingBalance.toDecimal.toRat := by
  have amounts (rows : List (LedgerEntry × LedgerEntry)) :
      ((rows.map transactionItem).map (·.amount.toRat)).sum =
        ((((rows.map Prod.fst).map (·.amount.units)).sum : ℤ) : ℚ) / 10 ^ 4 := by
    rw [sum_units, List.map_map, List.map_map, List.map_map]
    exact congrArg List.sum (List.map_congr_left fun row _ => Numeric.toRat_eq _)
  rw [amounts, (((transactionRows_perm t accountId).map Prod.fst).map _).sum_eq,
    b.map_fst_selfJoin, Numeric.toRat_eq, Numeric.toRat_eq, b.balances accountId a h]
  simp only [posted]
  push_cast
  ring

theorem historyExact (b : Books sha256 history t) {a : Account} (ha : a ∈ t.accounts) :
    a.HistoryExact t := by
  have found : t.account? a.id = some a := Rows.lookup_of_mem b.uniqueIds ha
  refine ⟨?shown, Rows.orderByDesc_strict (b.uniqueSortKeys a.id), ?stored, ?capped, ?sum⟩
  case shown =>
    obtain ⟨transfers, shows, perm⟩ := List.perm_comp_forall₂ (transactionRows_perm t a.id)
      (b.shows a.id).flip
    exact ⟨transfers, perm, List.forall₂_map_right_iff.mpr shows.flip⟩
  case stored =>
    intro entries rows perm joined sorted
    exact Rows.orderByDesc_unique (b.uniqueSortKeys a.id) (joined.trans (selfJoin_perm perm a.id))
      sorted
  case capped =>
    rw [listTransactions_of_some found, List.map_take, ← b.length_transactionRows,
      ← List.length_map (f := transactionItem), ← List.take_eq_take_min]
    rfl
  case sum =>
    intro short
    exact ⟨_, b.listTransactions_eq found short, b.sum_items found⟩

theorem mem_transfers (b : Books sha256 history t) {r : TransferResponse} (h : r ∈ t.transfers) :
    ∃ c ∈ history, ∃ req, c.job.request.payload = .transfer req ∧
      r = ⟨c.job.draws.first, req.fromAccountId, req.toAccountId, serializeMoney req.amount.value,
        c.startedAt⟩ := by
  rw [Tables.transfers, b.keys, List.filterMap_map] at h
  obtain ⟨c, hc, hr⟩ := List.mem_filterMap.mp h
  rw [Function.comp] at hr
  cases hreq : c.job.request.payload with
  | account req => simp [Commit.transfer?_account hreq] at hr
  | transfer req =>
    exact ⟨c, hc, req, hreq, by simpa [Commit.transfer?_transfer hreq, eq_comm] using hr⟩

theorem uniqueTransfers (b : Books sha256 history t) :
    (t.transfers.map TransferResponse.transferId).Nodup := by
  have firsts : (t.transfers.map TransferResponse.transferId).Sublist
      (history.map fun c => c.job.draws.first) := by
    rw [Tables.transfers, b.keys, List.filterMap_map, List.map_filterMap]
    clear b
    induction history with
    | nil => exact .slnil
    | cons c history ih =>
      rw [List.filterMap_cons, List.map_cons, Function.comp]
      cases hreq : c.job.request.payload with
      | account req => simpa [Commit.transfer?_account hreq] using ih.cons _
      | transfer req => simpa [Commit.transfer?_transfer hreq] using ih
  exact b.uniqueFirsts.sublist firsts

theorem listed (b : Books sha256 history t) {r : TransferResponse} (h : r ∈ t.transfers)
    {accountId : Uuid} (touches : r.Touches accountId)
    (short : (t.transfersOf accountId).length ≤ 100) : ∃ items item,
      listTransactions t accountId = .ok items ∧ item ∈ items ∧ item.Shows accountId r := by
  obtain ⟨c, hc, req, hreq, rfl⟩ := b.mem_transfers h
  obtain ⟨hfrom, hto⟩ := b.covered c hc req hreq
  have present : (t.account? accountId).isSome := by
    rcases touches with rfl | rfl
    · exact hfrom
    · exact hto
  obtain ⟨a, ha⟩ := Option.isSome_iff_exists.mp present
  have mem : _ ∈ t.transfersOf accountId := List.mem_filter.mpr ⟨h, decide_eq_true touches⟩
  obtain ⟨row, hrow, shows⟩ := Rows.exists_of_forall₂ (b.shows accountId) mem
  refine ⟨_, transactionItem row, b.listTransactions_eq ha short, List.mem_map_of_mem ?_, shows⟩
  exact (transactionRows_perm t accountId).symm.subset hrow

theorem seenTwice (b : Books sha256 history t) {r : TransferResponse} (h : r ∈ t.transfers) :
    r.SeenTwice t := by
  have distinct : r.fromAccountId ≠ r.toAccountId := by
    obtain ⟨c, hc, req, hreq, rfl⟩ := b.mem_transfers h
    exact (b.admitted c hc).distinct req hreq
  refine ⟨distinct, fun short short' => ?_⟩
  obtain ⟨sent, debit, hsent, hdebit, debited⟩ := b.listed h (.inl rfl) short
  obtain ⟨received, credit, hreceived, hcredit, credited⟩ := b.listed h (.inr rfl) short'
  obtain ⟨amount, hamount, hside⟩ := debited.side
  obtain ⟨amount', hamount', hside'⟩ := credited.side
  cases hamount.symm.trans hamount'
  rcases hside with ⟨-, out, -, counterparty⟩ | ⟨he, -⟩
  · rcases hside' with ⟨he, -⟩ | ⟨-, into, -, counterparty'⟩
    · exact (distinct he).elim
    · exact ⟨sent, received, debit, credit, hsent, hdebit, hreceived, hcredit, debited.transferId,
        credited.transferId, by rw [out, into], counterparty, counterparty'⟩
  · exact (distinct he.symm).elim

end Books

theorem transactions_exact {sha256 : String → String} (x : Run (serveRequest sha256)) :
    (x.last.server.committed.transfers.map TransferResponse.transferId).Nodup ∧
    (∀ a ∈ x.last.server.committed.accounts, a.HistoryExact x.last.server.committed) ∧
    ∀ r ∈ x.last.server.committed.transfers, r.SeenTwice x.last.server.committed :=
  have books := Inv.books x.ran
  ⟨books.uniqueTransfers, fun _ ha => books.historyExact ha, fun _ hr => books.seenTwice hr⟩

end Ledger
