import Ledger.History

namespace Ledger

open Lib

def Commit.Touches (c : Commit) (accountId : Uuid) : Prop :=
  ∃ entry ∈ c.entries, entry.accountId = accountId

/-- `c` had committed before the owner of `c'` held the lock of the account. -/
def AppliedBefore (sha256 : String → String) (es : List Event) (accountId : Uuid)
    (c c' : Commit) : Prop :=
  ∃ pre m, Earlier sha256 es pre m ∧ c ∈ m.server.history ∧ ¬ m.CommittedBy c'.owner ∧
    m.server.locks (.account accountId) ≠ some c'.owner

def World.balance? (w : World) (accountId : Uuid) : Option Balance :=
  (w.server.committed.account? accountId).map (·.balance)

def balanceSet (accountId : Uuid) (w : World) (_ : Event) (w' : World) : List Balance :=
  if w'.balance? accountId = w.balance? accountId then [] else (w'.balance? accountId).toList

def balancesHad {app : Job → App Response} (x : Run app) (accountId : Uuid) : List Balance :=
  observe (World.step app) (balanceSet accountId) World.init x.events

/-- An opening balance, and the items added to it from the bottom of the list upward. -/
def runningTotals (opening : ℚ) (items : List TransactionItem) : List ℚ :=
  items.reverse.scanl (fun total item => total + item.amount.toRat) opening

def Tables.totals (t : Tables) (accountId : Uuid) : List Int :=
  match t.account? accountId with
  | none => []
  | some a => ((t.ledgerEntries.filter (·.accountId = accountId)).map (·.amount.units)).scanl
      (· + ·) a.openingBalance.units

namespace Commit

variable {c : Commit}

theorem filter_entries (admitted : c.job.Admitted) (accountId : Uuid) :
    c.entries.filter (·.accountId = accountId) = [] ∨
      ∃ entry, c.entries.filter (·.accountId = accountId) = [entry] := by
  cases hreq : c.job.request.payload with
  | account req => exact .inl (by simp [entries, Job.entries, hreq])
  | transfer req =>
    have distinct := admitted.distinct req hreq
    rw [entries_transfer hreq]
    by_cases hfrom : req.fromAccountId = accountId
    · subst hfrom
      exact .inr ⟨⟨c.job.draws.second, c.job.draws.first, req.fromAccountId, req.amount.debit,
        c.startedAt⟩, by simp [distinct.symm]⟩
    · by_cases hto : req.toAccountId = accountId
      · exact .inr ⟨⟨c.job.draws.third, c.job.draws.first, req.toAccountId, req.amount.credit,
          c.startedAt⟩, by simp [hfrom, hto]⟩
      · exact .inl (by simp [hfrom, hto])

theorem createdAt_of_mem {entry : LedgerEntry} (h : entry ∈ c.entries) :
    entry.createdAt = c.startedAt := by
  cases hreq : c.job.request.payload with
  | account req => simp [entries, Job.entries, hreq] at h
  | transfer req =>
    simp only [entries_transfer hreq, List.mem_cons, List.not_mem_nil, or_false] at h
    rcases h with rfl | rfl <;> rfl

theorem transferId_of_mem {entry : LedgerEntry} (h : entry ∈ c.entries) :
    entry.transferId = c.job.draws.first := by
  obtain ⟨req, -, hfirst, -⟩ := mem_entries h
  exact hfirst

theorem mem_filter_sides {accountId : Uuid} {row : LedgerEntry × LedgerEntry}
    (h : row ∈ c.sides.filter (·.1.accountId = accountId)) :
    row.1 ∈ c.entries ∧ row.1.accountId = accountId := by
  obtain ⟨hrow, hid⟩ := List.mem_filter.mp h
  exact ⟨c.map_fst_sides ▸ List.mem_map_of_mem hrow, of_decide_eq_true hid⟩

end Commit

namespace Books

variable {sha256 : String → String} {history : List Commit} {t t' : Tables} {c : Commit}

theorem foldl_eq (b : Books sha256 history t) {accountId : Uuid} {a : Account}
    (h : t.account? accountId = some a) :
    ((t.ledgerEntries.filter (·.accountId = accountId)).map (·.amount.units)).foldl (· + ·)
      a.openingBalance.units = a.balance.units := by
  rw [b.balances accountId a h, posted]
  generalize a.openingBalance.units = opening
  generalize (t.ledgerEntries.filter _).map _ = amounts
  induction amounts generalizing opening with
  | nil => simp
  | cons amount amounts ih => rw [List.foldl_cons, ih, List.sum_cons, add_assoc]

theorem totals_next (b : Books sha256 history t) (b' : Books sha256 (history ++ [c]) t')
    (accountId : Uuid) : t'.totals accountId = t.totals accountId ++
      (if (t'.account? accountId).map (·.balance) = (t.account? accountId).map (·.balance) then []
        else ((t'.account? accountId).map (·.balance)).toList).map (·.units) := by
  have opening := b.opening_append b' accountId
  rw [List.flatMap_singleton] at opening
  have entries : t'.ledgerEntries.filter (·.accountId = accountId) =
      t.ledgerEntries.filter (·.accountId = accountId) ++
        c.entries.filter (·.accountId = accountId) := by
    rw [b'.entries, List.flatMap_append, List.filter_append, ← b.entries]
    simp
  cases h : t.account? accountId with
  | none =>
    cases h' : t'.account? accountId with
    | none => simp [Tables.totals, h, h']
    | some a' =>
      have mem : a'.opening ∈ c.opened := by
        rw [h, h'] at opening
        exact Rows.mem_of_lookup opening.symm
      obtain ⟨req, hreq⟩ := Commit.account_of_mem_opened mem
      have none_entries : t'.ledgerEntries.filter (·.accountId = accountId) = [] := by
        rw [entries, b.filter_absent h]
        simp [Commit.entries, Job.entries, hreq]
      have := b'.foldl_eq h'
      rw [none_entries] at this
      simpa [Tables.totals, h, h', none_entries] using this
  | some a =>
    obtain ⟨a', h', same⟩ := b.account_stays b' h
    have same : a'.openingBalance = a.openingBalance := by
      change a'.opening.openingBalance = a.opening.openingBalance
      rw [same]
    have last := b.foldl_eq h
    have last' := b'.foldl_eq h'
    simp only [Tables.totals, h, h', same, entries] at last' ⊢
    rcases Commit.filter_entries (b'.admitted c (by simp)) accountId with hc | ⟨entry, hc⟩
    · rw [hc, List.append_nil, last] at last'
      simp [hc, Balance.ext_units last']
    · have moved : a'.balance ≠ a.balance := by
        intro he
        rw [hc, List.map_append, List.foldl_append, last, he] at last'
        have := entry.amount.nonZero
        simp at last'
        exact this last'
      rw [hc, List.map_append, List.foldl_append, last] at last'
      rw [hc, List.map_append, List.scanl_append, last]
      simpa [moved] using last'

theorem mem_selfJoin (b : Books sha256 history t) (hc : c ∈ history) {accountId : Uuid}
    (touches : c.Touches accountId) :
    ∃ row ∈ selfJoin t.ledgerEntries accountId, row.1 ∈ c.entries := by
  obtain ⟨entry, hentry, hid⟩ := touches
  rw [← c.map_fst_sides] at hentry
  obtain ⟨row, hrow, rfl⟩ := List.mem_map.mp hentry
  have mem : row ∈ c.sides.filter (·.1.accountId = accountId) :=
    List.mem_filter.mpr ⟨hrow, decide_eq_true hid⟩
  rw [b.selfJoin_eq]
  exact ⟨row, List.mem_flatMap.mpr ⟨c, hc, mem⟩, (Commit.mem_filter_sides mem).1⟩

theorem transferId_sublist (b : Books sha256 history t) {c' : Commit} (hc : c ∈ history)
    (hc' : c' ∈ history) {accountId : Uuid} (touches : c.Touches accountId)
    (touches' : c'.Touches accountId) (h : c.startedAt < c'.startedAt) :
    [c'.job.draws.first, c.job.draws.first].Sublist
      (((transactionRows t accountId).map transactionItem).map TransactionItem.transferId) := by
  obtain ⟨row, hrow, mem⟩ := b.mem_selfJoin hc touches
  obtain ⟨row', hrow', mem'⟩ := b.mem_selfJoin hc' touches'
  have key : sortKey row < sortKey row' := by
    refine Prod.Lex.toLex_lt_toLex.mpr (.inl ?_)
    rwa [Commit.createdAt_of_mem mem, Commit.createdAt_of_mem mem']
  have := (Rows.orderByDesc_pair hrow hrow' key).map fun row => row.1.transferId
  simpa [transactionRows, transactionItem, Function.comp_def, Commit.transferId_of_mem mem,
    Commit.transferId_of_mem mem'] using this

theorem ascending (b : Books sha256 history t) {accountId : Uuid}
    (inOrder : history.Pairwise fun c c' =>
      c.Touches accountId → c'.Touches accountId → c.startedAt < c'.startedAt) :
    (selfJoin t.ledgerEntries accountId).Pairwise fun row row' => sortKey row < sortKey row' := by
  rw [b.selfJoin_eq, List.pairwise_flatMap]
  refine ⟨fun c hc => ?_, inOrder.imp fun {c c'} h row hrow row' hrow' => ?_⟩
  · have short : (c.sides.filter (·.1.accountId = accountId)).length ≤ 1 := by
      have := congrArg List.length (congrArg (List.filter (·.accountId = accountId))
        c.map_fst_sides)
      rw [List.filter_map, List.length_map] at this
      rcases Commit.filter_entries (b.admitted c hc) accountId with hnil | ⟨entry, hone⟩
      · rw [hnil] at this
        exact this.le.trans zero_le_one
      · rw [hone] at this
        exact this.le
    generalize c.sides.filter (·.1.accountId = accountId) = rows at short
    match rows, short with
    | [], _ => exact .nil
    | [row], _ => exact List.pairwise_singleton _ _
  · obtain ⟨mem, hid⟩ := Commit.mem_filter_sides hrow
    obtain ⟨mem', hid'⟩ := Commit.mem_filter_sides hrow'
    refine Prod.Lex.toLex_lt_toLex.mpr (.inl ?_)
    rw [Commit.createdAt_of_mem mem, Commit.createdAt_of_mem mem']
    exact h ⟨_, mem, hid⟩ ⟨_, mem', hid'⟩

theorem runningTotals_eq (b : Books sha256 history t) {accountId : Uuid} {a : Account}
    (h : t.account? accountId = some a) (inOrder : history.Pairwise fun c c' =>
      c.Touches accountId → c'.Touches accountId → c.startedAt < c'.startedAt) :
    runningTotals a.openingBalance.toDecimal.toRat
        ((transactionRows t accountId).map transactionItem) =
      (t.totals accountId).map fun units : ℤ => (units : ℚ) / 10 ^ 4 := by
  rw [transactionRows, Rows.orderByDesc_eq_reverse (b.ascending inOrder), runningTotals,
    List.map_reverse, List.reverse_reverse, Numeric.toRat_eq, Tables.totals, h]
  simp only [← b.map_fst_selfJoin]
  generalize a.openingBalance.units = opening
  generalize selfJoin t.ledgerEntries accountId = rows
  induction rows generalizing opening with
  | nil => simp
  | cons row rows ih =>
    have step : (opening : ℚ) / 10 ^ 4 + (transactionItem row).amount.toRat =
        ((opening + row.1.amount.units : ℤ) : ℚ) / 10 ^ 4 := by
      rw [transactionItem, Numeric.toRat_eq]
      push_cast
      ring
    simp only [List.map_cons, List.scanl_cons, step, ih]

end Books

section run

variable {sha256 : String → String} {es : List Event} {w : World}

theorem Inv.balancesHad (ran : run (World.step (serveRequest sha256)) World.init es = some w)
    (accountId : Uuid) :
    (observe (World.step (serveRequest sha256)) (balanceSet accountId) World.init es).map
        (·.units) =
      w.server.committed.totals accountId := by
  refine run_induction (P := fun es w => (observe (World.step (serveRequest sha256))
    (balanceSet accountId) World.init es).map (·.units) = w.server.committed.totals accountId)
    rfl ?next ran
  intro es m e m' ran ih hstep
  rw [observe_append _ ran, List.map_append, ih, observe_singleton _ hstep]
  rcases (Inv.of_run ran).change (World.step_cases hstep) with ⟨hc, -⟩ | ⟨r, p, fp, tx, -, hcommit⟩
  · simp [balanceSet, World.balance?, hc]
  · have books' := Inv.books (run_next ran hstep)
    exact ((Inv.books ran).totals_next (hcommit.history ▸ books') accountId).symm

end run

structure Account.ListedByStart {app : Job → App Response} (a : Account) (x : Run app)
    (items : List TransactionItem) : Prop where
  above : ∀ c ∈ x.last.server.history, ∀ c' ∈ x.last.server.history, c.Touches a.id →
    c'.Touches a.id → c.startedAt < c'.startedAt →
    [c'.job.draws.first, c.job.draws.first].Sublist (items.map TransactionItem.transferId)
  totals : (x.last.server.history.Pairwise fun c c' =>
      c.Touches a.id → c'.Touches a.id → c.startedAt < c'.startedAt) →
    runningTotals a.openingBalance.toDecimal.toRat items =
        (balancesHad x a.id).map (·.toDecimal.toRat) ∧
      ∀ total ∈ runningTotals a.openingBalance.toDecimal.toRat items, 0 ≤ total

theorem transactions_listed_by_start {sha256 : String → String} (x : Run (serveRequest sha256))
    {a : Account} (ha : a ∈ x.last.server.committed.accounts)
    (short : (x.last.server.committed.transfersOf a.id).length ≤ 100) :
    ∃ items, listTransactions x.last.server.committed a.id = .ok items ∧
      a.ListedByStart x items := by
  have books := Inv.books x.ran
  have found : x.last.server.committed.account? a.id = some a :=
    Rows.lookup_of_mem books.uniqueIds ha
  refine ⟨_, books.listTransactions_eq found short, ⟨?above, ?totals⟩⟩
  case above =>
    intro c hc c' hc' touches touches' h
    exact books.transferId_sublist hc hc' touches touches' h
  case totals =>
    intro inOrder
    have same : runningTotals a.openingBalance.toDecimal.toRat
        ((transactionRows x.last.server.committed a.id).map transactionItem) =
          (balancesHad x a.id).map (·.toDecimal.toRat) := by
      rw [books.runningTotals_eq found inOrder, ← Inv.balancesHad x.ran, List.map_map]
      exact List.map_congr_left fun b _ => (Numeric.toRat_eq _).symm
    refine ⟨same, fun total htotal => ?_⟩
    rw [same] at htotal
    obtain ⟨b, -, rfl⟩ := List.mem_map.mp htotal
    rw [Numeric.toRat_eq]
    exact div_nonneg (Int.cast_nonneg b.nonNegative) (by positivity)

/-- SHA-256 on the four bodies below. -/
def pairHash (text : String) : String :=
  if text = "\x7b\"initial_balance\":\"0.0000\"\x7d" then
    "2169515bc2ec6695f2d44ec6bca1756cb106ac510465b586cec4f9764bea2776"
  else if text = "\x7b\"initial_balance\":\"5.0000\"\x7d" then
    "d58e2908d23b95278d35574009226bca50b1295c05bcdec3054e48d869261bb8"
  else if text = "\x7b\"amount\":\"5.0000\"," ++
      "\"from_account_id\":\"00000000-0000-0000-0000-000000000001\"," ++
      "\"to_account_id\":\"00000000-0000-0000-0000-000000000004\"\x7d" then
    "e57d2f057c951119d60be338cd04de67dd0272ff0fdf025ba134d3d5620328a1"
  else "5aadc719cd95dac1d223ce290dd36f81bdc2fa60a6368981986c600edfa5b2ee"

def five : PositiveMoney := ⟨⟨false, 5, 0⟩, by decide, by decide, by decide⟩

def pairOpened : List Event :=
  .arrive 0 ⟨some "open-a", .account {}⟩ ⟨1, 2, 3⟩ :: List.replicate 8 (.serve 0) ++
    .arrive 1 ⟨some "open-b", .account ⟨⟨⟨false, 5, 0⟩, by decide, by decide, by decide⟩⟩⟩
      ⟨4, 5, 6⟩ ::
      List.replicate 8 (.serve 1)

def sendArrives : Event := .arrive 2 ⟨some "send", .transfer ⟨1, 4, five⟩⟩ ⟨7, 8, 9⟩

def receiveArrives : Event := .arrive 3 ⟨some "receive", .transfer ⟨4, 1, five⟩⟩ ⟨10, 11, 12⟩

def inTurn : Run (serveRequest pairHash) :=
  .of (pairOpened ++ receiveArrives :: List.replicate 14 (.serve 3) ++
    .tick 1 :: sendArrives :: List.replicate 14 (.serve 2)) (by decide +kernel)

theorem inTurn_listed : ∃ items, listTransactions inTurn.last.server.committed 1 = .ok items ∧
    runningTotals 0 items = (balancesHad inTurn 1).map (·.toDecimal.toRat) := by
  obtain ⟨items, listed, order⟩ := transactions_listed_by_start inTurn
    (a := ⟨1, ⟨⟨0, by decide⟩, by decide⟩, ⟨⟨0, by decide⟩, by decide⟩, 0⟩) (by decide +kernel)
    (by decide +kernel)
  have opening : (⟨⟨0, by decide⟩, by decide⟩ : Balance).toDecimal.toRat = 0 := by
    norm_num [Decimal.toRat, Decimal.signed, Numeric.toDecimal]
  refine ⟨items, listed, ?_⟩
  have := (order.totals ?_).1
  · rwa [opening] at this
  · have commits : inTurn.last.server.history =
        [⟨0, ⟨⟨some "open-a", .account {}⟩, ⟨1, 2, 3⟩⟩, 0⟩,
          ⟨1, ⟨⟨some "open-b", .account ⟨⟨⟨false, 5, 0⟩, by decide, by decide, by decide⟩⟩⟩,
            ⟨4, 5, 6⟩⟩, 0⟩,
          ⟨3, ⟨⟨some "receive", .transfer ⟨4, 1, five⟩⟩, ⟨10, 11, 12⟩⟩, 0⟩,
          ⟨2, ⟨⟨some "send", .transfer ⟨1, 4, five⟩⟩, ⟨7, 8, 9⟩⟩, 1⟩] := rfl
    simp [commits, Commit.Touches, Commit.entries, Job.entries]

def overtaking : Run (serveRequest pairHash) :=
  .of (pairOpened ++ sendArrives :: List.replicate 3 (.serve 2) ++
    .tick 1 :: receiveArrives :: List.replicate 14 (.serve 3)) (by decide +kernel)

def overtaken : Run (serveRequest pairHash) :=
  .of (overtaking.events ++ List.replicate 11 (.serve 2)) (by decide +kernel)

/-- The list follows the timestamps, not the locks. -/
theorem overtaken_listed_below :
    ∃ c ∈ overtaken.last.server.history, ∃ c' ∈ overtaken.last.server.history,
    c.Touches 1 ∧ c'.Touches 1 ∧ AppliedBefore pairHash overtaken.events 1 c c' ∧
    ∃ items, listTransactions overtaken.last.server.committed 1 = .ok items ∧
      items.map TransactionItem.transferId = [c.job.draws.first, c'.job.draws.first] ∧
      runningTotals 0 items = [0, -5, 0] ∧
      (balancesHad overtaken 1).map (·.toDecimal.toRat) = [0, 5, 0] := by
  refine ⟨⟨3, ⟨⟨some "receive", .transfer ⟨4, 1, five⟩⟩, ⟨10, 11, 12⟩⟩, 1⟩, ?_,
    ⟨2, ⟨⟨some "send", .transfer ⟨1, 4, five⟩⟩, ⟨7, 8, 9⟩⟩, 0⟩, ?_, ?_, ?_, ?_,
      [⟨10, ⟨false, 50000, -4⟩, .credit, 4, 1⟩, ⟨7, ⟨true, 50000, -4⟩, .debit, 4, 0⟩], rfl, rfl,
        ?_, ?_⟩
  · exact .tail _ (.tail _ (.head _))
  · exact .tail _ (.tail _ (.tail _ (.head _)))
  · exact ⟨_, .tail _ (.head _), rfl⟩
  · exact ⟨_, .head _, rfl⟩
  · refine ⟨overtaking.events, overtaking.last, ⟨⟨_, rfl⟩, overtaking.ran⟩, ?_, ?_, ?_⟩
    · exact .tail _ (.tail _ (.head _))
    · have owners : overtaking.last.server.history.map Commit.owner = [0, 1, 3] := rfl
      rintro ⟨c, hc, ho⟩
      have := List.mem_map_of_mem (f := Commit.owner) hc
      simp [owners, ho] at this
    · decide +kernel
  · norm_num [runningTotals, Decimal.toRat, Decimal.signed]
  · have balances : balancesHad overtaken 1 = [⟨⟨0, by decide⟩, by decide⟩,
        ⟨⟨50000, by decide⟩, by decide⟩, ⟨⟨0, by decide⟩, by decide⟩] := rfl
    norm_num [balances, Decimal.toRat, Decimal.signed, Numeric.toDecimal]

end Ledger
