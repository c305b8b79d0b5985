import Ledger.Chronology
import Ledger.ExactlyOnce
import Ledger.Site

namespace Ledger

open Lib

namespace Site

/-- Some answer has told of the account. -/
inductive ToldOf (s : Site) (accountId : Uuid) : Prop
  | opened {r : Nat} {o : Outcome} {body : AccountResponse} :
      s.world.answer r = some (.outcome o) → o.body = some (.account body) →
      body.id = accountId → ToldOf s accountId
  | moved {r : Nat} {o : Outcome} {body : TransferResponse} :
      s.world.answer r = some (.outcome o) → o.body = some (.transfer body) →
      body.Touches accountId → ToldOf s accountId
  | balance {q : Nat} {balance : Decimal} :
      s.readAnswer q = some (.balance ⟨accountId, balance⟩) → ToldOf s accountId
  | listed {q : Nat} {items : List TransactionItem} :
      s.readAnswer q = some (.transactions ⟨accountId, items⟩) → ToldOf s accountId
  /-- on the list of another account -/
  | paired {q : Nat} {other : Uuid} {items : List TransactionItem} {item : TransactionItem} :
      s.readAnswer q = some (.transactions ⟨other, items⟩) → item ∈ items →
      item.counterpartyAccountId = accountId → ToldOf s accountId
  | short {r : Nat} {balance requested : String} {retryAfter : Bool} :
      s.world.answer r = some (.envelope (.insufficientFunds accountId balance requested)
        retryAfter) → ToldOf s accountId

/-- Some answer has told of a transfer of the account. -/
inductive ToldOfTransfer (s : Site) (accountId : Uuid) (transfer : TransferResponse) : Prop
  | moved {r : Nat} {o : Outcome} :
      s.world.answer r = some (.outcome o) → o.body = some (.transfer transfer) →
      transfer.Touches accountId → ToldOfTransfer s accountId transfer
  /-- on the list of either account -/
  | listed {q : Nat} {id : Uuid} {items : List TransactionItem} {item : TransactionItem} :
      s.readAnswer q = some (.transactions ⟨id, items⟩) → item ∈ items →
      item.Shows id transfer → transfer.Touches accountId → ToldOfTransfer s accountId transfer

end Site

structure HistoryOf (t : Tables) (accountId : Uuid) (told : TransferResponse → Prop)
    (items : List TransactionItem) : Prop where
  real : ∀ item ∈ items, ∃ transfer ∈ t.transfers, item.Shows accountId transfer
  once : (items.map TransactionItem.transferId).Nodup
  newestFirst : items.Pairwise fun above below => below.createdAt ≤ above.createdAt
  whole : ∀ transfer, told transfer → ∃ item ∈ items, item.Shows accountId transfer

def ReadRequest.Told (account : Account) (items : List TransactionItem) (a : ReadResponse) :
    ReadRequest → Prop
  | .balance accountId => ∃ balance, a = .balance ⟨accountId, balance⟩ ∧
      balance.toRat = account.openingBalance.toDecimal.toRat + (items.map (·.amount.toRat)).sum
  | .transactions accountId => a = .transactions ⟨accountId, items.take maxTransactions⟩

section shows

variable {item item' : TransactionItem} {accountId other : Uuid} {r r' : TransferResponse}

theorem TransactionItem.Shows.touches (h : item.Shows accountId r) :
    r.Touches item.counterpartyAccountId := by
  obtain ⟨amount, -, ⟨-, -, -, receiver⟩ | ⟨-, -, -, sender⟩⟩ := h.side
  · exact .inr receiver.symm
  · exact .inl sender.symm

theorem TransactionItem.Shows.alike (h : item.Shows accountId r) (h' : item.Shows accountId r') :
    r.fromAccountId = r'.fromAccountId ∧ r.toAccountId = r'.toAccountId ∧
      ∃ amount amount', Decimal.parse r.amount = some amount ∧
        Decimal.parse r'.amount = some amount' ∧ amount.toRat = amount'.toRat := by
  obtain ⟨amount, parsed, side⟩ := h.side
  obtain ⟨amount', parsed', side'⟩ := h'.side
  rcases side with ⟨own, value, debit, counterparty⟩ | ⟨own, value, credit, counterparty⟩
  · rcases side' with ⟨own', value', -, counterparty'⟩ | ⟨-, -, credit', -⟩
    · exact ⟨own.trans own'.symm, counterparty.symm.trans counterparty', amount, amount', parsed,
        parsed', neg_inj.mp (value.symm.trans value')⟩
    · cases debit.symm.trans credit'
  · rcases side' with ⟨-, -, debit', -⟩ | ⟨own', value', -, counterparty'⟩
    · cases credit.symm.trans debit'
    · exact ⟨counterparty.symm.trans counterparty', own.trans own'.symm, amount, amount', parsed,
        parsed', value.symm.trans value'⟩

theorem TransactionItem.Shows.congr (h : item.Shows accountId r) (h' : item.Shows accountId r')
    (shows : item'.Shows other r') : item'.Shows other r := by
  obtain ⟨sender, receiver, amount, amount', parsed, parsed', same⟩ := h.alike h'
  refine ⟨shows.transferId.trans (h'.transferId.symm.trans h.transferId),
    shows.createdAt.trans (h'.createdAt.symm.trans h.createdAt), amount, parsed, ?_⟩
  obtain ⟨amount'', parsed'', side⟩ := shows.side
  cases parsed'.symm.trans parsed''
  rwa [sender, receiver, same]

end shows

namespace Books

variable {sha256 : String → String} {history new : List Commit} {t t' : Tables} {accountId : Uuid}

theorem selfJoin_stays (b : Books sha256 history t) (b' : Books sha256 (history ++ new) t')
    {row : LedgerEntry × LedgerEntry} (h : row ∈ selfJoin t.ledgerEntries accountId) :
    row ∈ selfJoin t'.ledgerEntries accountId := by
  rw [b.selfJoin_eq] at h
  rw [b'.selfJoin_eq, List.flatMap_append]
  exact List.mem_append_left _ h

theorem transfers_stay (b : Books sha256 history t) (b' : Books sha256 (history ++ new) t') :
    t.transfers ⊆ t'.transfers := by
  rw [Tables.transfers, Tables.transfers, b.keys, b'.keys, List.map_append, List.filterMap_append]
  exact List.subset_append_left _ _

theorem transfer_of_commit (b : Books sha256 history t) {c : Commit} (hc : c ∈ history)
    {transfer : TransferResponse} (h : c.job.body c.startedAt = .transfer transfer) :
    transfer ∈ t.transfers := by
  rw [Tables.transfers, b.keys, List.filterMap_map]
  refine List.mem_filterMap.mpr ⟨c, hc, ?_⟩
  have body : (c.row sha256).responseBody = some (.transfer transfer) := congrArg some h
  simp [IdempotencyKey.transfer?, body]

theorem covers (b : Books sha256 history t) {transfer : TransferResponse}
    (h : transfer ∈ t.transfers) (touches : transfer.Touches accountId) :
    (t.account? accountId).isSome := by
  obtain ⟨c, hc, req, hreq, rfl⟩ := b.mem_transfers h
  obtain ⟨hfrom, hto⟩ := b.covered c hc req hreq
  rcases touches with rfl | rfl
  · exact hfrom
  · exact hto

theorem exists_line (b : Books sha256 history t) {transfer : TransferResponse}
    (h : transfer ∈ t.transfers) (touches : transfer.Touches accountId) :
    ∃ row ∈ selfJoin t.ledgerEntries accountId,
      (transactionItem row).Shows accountId transfer :=
  Rows.exists_of_forall₂ (b.shows accountId)
    (List.mem_filter.mpr ⟨h, decide_eq_true touches⟩)

theorem historyOf (b : Books sha256 history t) (b' : Books sha256 (history ++ new) t')
    {told : TransferResponse → Prop} (whole : ∀ transfer, told transfer →
      ∃ row ∈ selfJoin t.ledgerEntries accountId, (transactionItem row).Shows accountId transfer) :
    HistoryOf t' accountId told ((transactionRows t accountId).map transactionItem) := by
  have perm := transactionRows_perm t accountId
  refine ⟨fun item hitem => ?real, ?once, ?newestFirst, fun transfer h => ?whole⟩
  case real =>
    obtain ⟨row, hrow, rfl⟩ := List.mem_map.mp hitem
    obtain ⟨transfer, h, shows⟩ := Rows.exists_of_forall₂ (b.shows accountId).flip
      (perm.subset hrow)
    exact ⟨transfer, b.transfers_stay b' (List.mem_filter.mp h).1, shows⟩
  case once =>
    have ids : (t.transfersOf accountId).map TransferResponse.transferId =
        (selfJoin t.ledgerEntries accountId).map fun row => (transactionItem row).transferId :=
      Rows.map_eq_of_forall₂ (b.shows accountId) fun _ _ shows => shows.transferId.symm
    rw [List.map_map, (perm.map _).nodup_iff]
    exact ids ▸ b.uniqueTransfers.sublist (List.filter_sublist.map _)
  case newestFirst =>
    rw [List.pairwise_map]
    refine (Rows.orderByDesc_sorted _).imp fun {above below} h => ?_
    exact (Prod.Lex.le_iff.mp h).elim le_of_lt fun he => he.1.le
  case whole =>
    obtain ⟨row, hrow, shows⟩ := whole transfer h
    exact ⟨_, List.mem_map_of_mem (perm.symm.subset hrow), shows⟩

end Books

section run

variable {sha256 : String → String} {es past rest : List SiteEvent} {s m : Site} {q : Nat}
  {request : ReadRequest} {accountId : Uuid} {transfer : TransferResponse} {a : ReadResponse}

theorem Site.books (ran : run (Site.step (serveRequest sha256)) Site.init es = some s) :
    Books sha256 s.world.server.history s.tables :=
  Inv.books (Site.run_world ran)

theorem Site.books_later (ran : run (Site.step (serveRequest sha256)) Site.init es = some s)
    (next : run (Site.step (serveRequest sha256)) s rest = some m) :
    ∃ new, Books sha256 (s.world.server.history ++ new) m.tables := by
  obtain ⟨new, hnew⟩ := World.run_history (Site.run_world next)
  exact ⟨new, hnew ▸ Site.books (run_concat ran next)⟩

theorem Site.seen_found (ran : run (Site.step (serveRequest sha256)) Site.init es = some s)
    (ha : s.readAnswer q = some a) (told : ∀ e retryAfter, a ≠ .envelope e retryAfter)
    (told' : a ≠ .plainText) : ∃ (pre : List SiteEvent) (w : Site) (request : ReadRequest)
      (account : Account), Site.Earlier sha256 es pre w ∧
      w.tables.account? request.accountId = some account ∧ a = request.found w.tables account := by
  obtain ⟨reader, hq, -⟩ := Site.readAnswer_eq.mp ha
  rcases Site.seen ran hq ha with (h | h) | ⟨pre, w, hw, -, h⟩
  · exact (told _ _ h).elim
  · exact (told' h).elim
  rw [Tables.readAtOnce_eq] at h
  cases there : w.tables.account? reader.request.accountId with
  | none =>
    rw [there] at h
    exact (told _ _ (Except.ok.inj h).symm).elim
  | some account =>
    rw [there] at h
    exact ⟨pre, w, reader.request, account, hw, there, (Except.ok.inj h).symm⟩

theorem Site.seen_page (ran : run (Site.step (serveRequest sha256)) Site.init es = some s)
    {items : List TransactionItem}
    (ha : s.readAnswer q = some (.transactions ⟨accountId, items⟩)) :
    (s.tables.account? accountId).isSome ∧ ∀ item ∈ items,
      ∃ row ∈ selfJoin s.tables.ledgerEntries accountId, transactionItem row = item := by
  obtain ⟨pre, w, request, account, hw, there, h⟩ := Site.seen_found ran ha (fun _ _ => nofun) nofun
  obtain ⟨rest, next⟩ := hw.rest ran
  obtain ⟨new, later⟩ := Site.books_later hw.2 next
  cases request with
  | balance id => cases h
  | transactions id =>
    cases h
    refine ⟨Inv.account_stays (Site.run_world hw.2) (Site.run_world next)
      (Option.isSome_iff_exists.mpr ⟨account, there⟩), fun item hitem => ?_⟩
    obtain ⟨row, hrow, rfl⟩ := List.mem_map.mp hitem
    have mem := (transactionRows_perm w.tables accountId).subset (List.mem_of_mem_take hrow)
    exact ⟨row, (Site.books hw.2).selfJoin_stays later mem, rfl⟩

theorem Site.seen_balance (ran : run (Site.step (serveRequest sha256)) Site.init es = some s)
    {balance : Decimal} (ha : s.readAnswer q = some (.balance ⟨accountId, balance⟩)) :
    (s.tables.account? accountId).isSome := by
  obtain ⟨pre, w, request, account, hw, there, h⟩ := Site.seen_found ran ha (fun _ _ => nofun) nofun
  obtain ⟨rest, next⟩ := hw.rest ran
  cases request with
  | balance id =>
    cases h
    exact Rows.key_of_lookup there ▸ Inv.account_stays (Site.run_world hw.2) (Site.run_world next)
      (Option.isSome_iff_exists.mpr ⟨account, there⟩)
  | transactions id => cases h

theorem Site.ToldOf.account (ran : run (Site.step (serveRequest sha256)) Site.init es = some s)
    (h : s.ToldOf accountId) : (s.tables.account? accountId).isSome := by
  have books := Site.books ran
  cases h with
  | @opened r o body ha hbody hid =>
    obtain ⟨p, hp, -⟩ := World.answer_eq.mp ha
    obtain ⟨-, c, hc, -, hb, -⟩ := Inv.outcome (Site.run_world ran) hp ha
    have hb := Option.some.inj (hbody.symm.trans hb)
    cases hreq : c.job.request.payload with
    | account req =>
      obtain ⟨row, hrow, -⟩ := books.account_of_opened hc
        (by rw [Commit.opened_account hreq]; exact List.mem_cons_self)
      simp only [Job.body, hreq, Body.account.injEq] at hb
      rw [hb] at hid
      exact Option.isSome_iff_exists.mpr ⟨row, hid ▸ hrow⟩
    | transfer req => simp [Job.body, hreq] at hb
  | @moved r o body ha hbody touches =>
    obtain ⟨p, hp, -⟩ := World.answer_eq.mp ha
    obtain ⟨-, c, hc, -, hb, -⟩ := Inv.outcome (Site.run_world ran) hp ha
    exact books.covers (books.transfer_of_commit hc (Option.some.inj (hb.symm.trans hbody))) touches
  | balance ha => exact Site.seen_balance ran ha
  | listed ha => exact (Site.seen_page ran ha).1
  | paired ha hitem hid =>
    obtain ⟨row, hrow, rfl⟩ := (Site.seen_page ran ha).2 _ hitem
    obtain ⟨transfer, h, shows⟩ := Rows.exists_of_forall₂ (books.shows _).flip hrow
    exact books.covers (List.mem_filter.mp h).1 (hid ▸ shows.touches)
  | short ha =>
    obtain ⟨p, hp, -⟩ := World.answer_eq.mp ha
    obtain ⟨-, -, pre, w, clock, hw, -, hs⟩ := Inv.decided (Site.run_world ran) hp ha
      (by simp) (by simp [LedgerError.unexpected]) (by simp [LedgerError.Early])
    obtain ⟨rest, next⟩ := hw.rest (Site.run_world ran)
    have there : (w.server.committed.account? accountId).isSome := by
      have decided := atomic_decided sha256 p.job clock w.server.committed
      rw [hs] at decided
      generalize hresult : Prod.mk w.server.committed (Response.envelope _ _) = result at decided
      cases decided with
      | short req source _ _ found =>
        cases congrArg Prod.snd hresult
        simp [found]
      | _ => cases congrArg Prod.snd hresult
    exact Inv.account_stays hw.2 next there

theorem Site.ToldOfTransfer.line
    (ran : run (Site.step (serveRequest sha256)) Site.init es = some s)
    (h : s.ToldOfTransfer accountId transfer) :
    ∃ row ∈ selfJoin s.tables.ledgerEntries accountId,
      (transactionItem row).Shows accountId transfer := by
  have books := Site.books ran
  cases h with
  | @moved r o ha hbody touches =>
    obtain ⟨p, hp, -⟩ := World.answer_eq.mp ha
    obtain ⟨-, c, hc, -, hb, -⟩ := Inv.outcome (Site.run_world ran) hp ha
    exact books.exists_line (books.transfer_of_commit hc (Option.some.inj (hb.symm.trans hbody)))
      touches
  | listed ha hitem shows touches =>
    obtain ⟨row, hrow, rfl⟩ := (Site.seen_page ran ha).2 _ hitem
    obtain ⟨stored, h, shows'⟩ := Rows.exists_of_forall₂ (books.shows _).flip hrow
    obtain ⟨sender, receiver, -⟩ := shows.alike shows'
    have touches' : stored.Touches accountId := by
      rwa [TransferResponse.Touches, ← sender, ← receiver]
    obtain ⟨row', hrow', shows''⟩ := books.exists_line (List.mem_filter.mp h).1 touches'
    exact ⟨row', hrow', shows.congr shows' shows''⟩

theorem Site.Reading.later (before : run (Site.step (serveRequest sha256)) Site.init past = some m)
    (absent : m.reader q = none) (hes : past <+: es) {pre : List SiteEvent} {w : Site}
    (hw : Site.Earlier sha256 es pre w) (reading : w.Reading q) :
    ∃ rest, run (Site.step (serveRequest sha256)) m rest = some w := by
  rcases List.prefix_or_prefix_of_prefix hes hw.1 with h | ⟨rest, rfl⟩
  · exact Past.rest ⟨h, before⟩ hw.2
  · obtain ⟨request, c, k, hq⟩ := reading
    rw [run_append, hw.2] at before
    obtain ⟨new, hnew, -⟩ := Site.run_stays before hq
    cases absent.symm.trans hnew

end run

/-- Once an answer has told of an account, every read that is sent from then on finds it, with all
the transfers that an answer has told of: in the balance, and on the list unless a hundred others
are as new.  Only a fault can keep the read from its answer. -/
theorem reads_are_recent {sha256 : String → String}
    (x : Execution (Site.step (serveRequest sha256)) Site.init) {past rest : List SiteEvent}
    {m : Site} {q : Nat} {request : ReadRequest} {a : ReadResponse}
    (events : x.events = past ++ .arrive q request :: rest)
    (before : run (Site.step (serveRequest sha256)) Site.init past = some m)
    (told : m.ToldOf request.accountId) (ha : x.last.readAnswer q = some a) :
    a.Upset ∧ Faulted x.events q ∨ ∃ items account,
      HistoryOf x.last.tables request.accountId (m.ToldOfTransfer request.accountId) items ∧
      x.last.tables.account? request.accountId = some account ∧ request.Told account items a := by
  obtain ⟨absent, arrived⟩ : m.reader q = none ∧
      run (Site.step (serveRequest sha256)) (m.put q ⟨request, ReadApp.serve request⟩) rest =
        some x.last := by
    have ran := events ▸ x.ran
    rw [run_append, before, Option.bind_some, run_cons, Option.bind_eq_some_iff] at ran
    obtain ⟨m', hstep, ran⟩ := ran
    cases Site.step_cases hstep with
    | arrived absent => exact ⟨absent, ran⟩
    | met _ hm => cases hm
  obtain ⟨reader, hq, -⟩ := Site.readAnswer_eq.mp ha
  obtain ⟨new, hnew, hrequest, -⟩ := Site.run_stays arrived (m.put_self q _)
  obtain rfl : reader = new := Option.some.inj (hq.symm.trans hnew)
  rcases Site.seen x.ran hq ha with upset | ⟨pre, w, hw, reading, h⟩
  · exact .inl upset
  rw [hrequest] at h
  obtain ⟨since, toRead⟩ := reading.later before absent ⟨_, events.symm⟩ hw
  obtain ⟨after, toLast⟩ := hw.rest x.ran
  obtain ⟨_, later⟩ := Site.books_later before toRead
  obtain ⟨_, last⟩ := Site.books_later hw.2 toLast
  have books := Site.books hw.2
  obtain ⟨found, hfound⟩ := Option.isSome_iff_exists.mp (Inv.account_stays (Site.run_world before)
    (Site.run_world toRead) (told.account before))
  obtain ⟨account, haccount, hopening⟩ := books.account_stays last hfound
  refine .inr ⟨_, account, books.historyOf last fun transfer h => ?_, haccount, ?_⟩
  · obtain ⟨row, hrow, shows⟩ := h.line before
    exact ⟨row, (Site.books before).selfJoin_stays later hrow, shows⟩
  · have opening : account.openingBalance = found.openingBalance :=
      congrArg (·.openingBalance) hopening
    rw [Tables.readAtOnce_eq, hfound] at h
    have h := Except.ok.inj h
    cases request with
    | balance accountId =>
      have hid : found.id = accountId := Rows.key_of_lookup hfound
      refine ⟨found.balance.toDecimal, hid ▸ h.symm, ?_⟩
      rw [books.sum_items hfound, opening]
      ring
    | transactions accountId =>
      rw [ReadRequest.Told, ← List.map_take]
      exact h.symm

def received : Execution (Site.step (serveRequest pairHash)) Site.init :=
  .of ((pairOpened ++ receiveArrives :: List.replicate 14 (.serve 3)).map .write)
    (by decide +kernel)

def receivedThenListed : Execution (Site.step (serveRequest pairHash)) Site.init :=
  .of (received.events ++ .arrive 0 (.transactions 1) :: List.replicate 2 (.serve 0))
    (by decide +kernel)

theorem received_is_listed : ∃ items : List TransactionItem,
    receivedThenListed.last.readAnswer 0 = some (.transactions ⟨1, items.take maxTransactions⟩) ∧
    ∃ item ∈ items, item.Shows 1 ⟨10, 4, 1, "5.0000", 0⟩ := by
  have answered : received.last.world.answer 3 =
      some (.outcome ⟨201, some (.transfer ⟨10, 4, 1, "5.0000", 0⟩), false⟩) := rfl
  have listed : receivedThenListed.last.readAnswer 0 =
      some (.transactions ⟨1, [⟨10, ⟨false, 50000, -4⟩, .credit, 4, 0⟩]⟩) := rfl
  obtain ⟨upset | upset, -⟩ | ⟨items, account, history, -, told⟩ := reads_are_recent
    receivedThenListed rfl received.ran (.moved answered rfl (.inr rfl)) listed
  · cases upset
  · cases upset
  exact ⟨items, told ▸ listed, history.whole _ (.moved answered rfl (.inr rfl))⟩

end Ledger
