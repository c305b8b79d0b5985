import Ledger.Atomic
import Ledger.Invariant

namespace Ledger

open Lib

def posted (entries : List LedgerEntry) (accountId : Uuid) : Int :=
  ((entries.filter (·.accountId = accountId)).map (·.amount.units)).sum

@[simp] theorem posted_nil (accountId : Uuid) : posted [] accountId = 0 := rfl

theorem posted_append (entries more : List LedgerEntry) (accountId : Uuid) :
    posted (entries ++ more) accountId = posted entries accountId + posted more accountId := by
  simp [posted]

theorem posted_flatMap {α : Type} (f : α → List LedgerEntry) (xs : List α) (accountId : Uuid) :
    posted (xs.flatMap f) accountId = (xs.map fun x => posted (f x) accountId).sum := by
  induction xs with
  | nil => rfl
  | cons x xs ih => rw [List.flatMap_cons, posted_append, ih, List.map_cons, List.sum_cons]

theorem posted_cons (entry : LedgerEntry) (entries : List LedgerEntry) (accountId : Uuid) :
    posted (entry :: entries) accountId =
      (if entry.accountId = accountId then entry.amount.units else 0) +
        posted entries accountId := by
  by_cases h : entry.accountId = accountId <;> simp [posted, h]

namespace Commit

variable (sha256 : String → String) (c : Commit)

def row : IdempotencyKey := c.job.row sha256 c.startedAt

def entries : List LedgerEntry := c.job.entries c.startedAt

def opened : List Account := c.job.opened c.startedAt

def outcome : Outcome := c.job.earned c.startedAt

end Commit

def Account.opening (a : Account) : Account := { a with balance := a.openingBalance }

/-- What the tables are made of. -/
structure Books (sha256 : String → String) (history : List Commit) (t : Tables) : Prop where
  keys : t.idempotencyKeys = history.map (Commit.row sha256)
  entries : t.ledgerEntries = history.flatMap Commit.entries
  openings : t.accounts.map Account.opening = history.flatMap Commit.opened
  balances : ∀ id a, t.account? id = some a →
    a.balance.units = a.openingBalance.units + posted t.ledgerEntries id
  uniqueIds : (t.accounts.map Account.id).Nodup
  uniqueKeys : (history.map fun c => c.job.key).Nodup
  uniqueDraws : (history.flatMap fun c => c.job.draws.toList).Nodup
  admitted : ∀ c ∈ history, c.job.Admitted
  covered : ∀ c ∈ history, ∀ req, c.job.request.payload = .transfer req →
    (t.account? req.fromAccountId).isSome ∧ (t.account? req.toAccountId).isSome

theorem atomic_fresh {sha256 : String → String} {job : Job} {clock : Timestamp} {t : Tables}
    {o : Outcome} (h : (atomic sha256 job clock t).2 = .outcome o) (ho : o.replayed = false) :
    o = job.earned clock := by
  have decided := atomic_decided sha256 job clock t
  generalize atomic sha256 job clock t = result at decided h
  cases decided with
  | replayed row _ _ _ =>
    cases h
    cases ho
  | opened req _ _ => exact (Response.outcome.inj h).symm
  | moved req source destination debited credited _ _ _ _ _ _ =>
    exact (Response.outcome.inj h).symm
  | _ => cases h

def tablesAfter (sha256 : String → String) (history : List Commit) : Tables :=
  history.foldl (fun t c => (atomic sha256 c.job c.startedAt t).1) .empty

structure Earns (sha256 : String → String) (history : List Commit) (c : Commit) : Prop where
  admitted : c.job.Admitted
  draws : c.job.draws.toList.Nodup
  disjoint : ∀ c' ∈ history, ∀ id ∈ c'.job.draws.toList, id ∉ c.job.draws.toList
  answer : (atomic sha256 c.job c.startedAt (tablesAfter sha256 history)).2 = .outcome c.outcome

def WellEarned (sha256 : String → String) (history : List Commit) : Prop :=
  ∀ past c, past ++ [c] <+: history → Earns sha256 past c

namespace Commit

variable {c : Commit}

theorem mem_opened {a : Account} (h : a ∈ c.opened) :
    a.id = c.job.draws.first ∧ a.opening = a := by
  unfold opened Job.opened at h
  split at h
  · obtain rfl := List.mem_singleton.mp h
    exact ⟨rfl, rfl⟩
  · simp at h

theorem mem_entries {entry : LedgerEntry} (h : entry ∈ c.entries) :
    ∃ req, c.job.request.payload = .transfer req ∧ entry.transferId = c.job.draws.first ∧
      (entry.id = c.job.draws.second ∧ entry.accountId = req.fromAccountId ∨
        entry.id = c.job.draws.third ∧ entry.accountId = req.toAccountId) := by
  unfold entries Job.entries at h
  split at h
  · simp at h
  · next req hreq =>
    simp only [List.mem_cons, List.not_mem_nil, or_false] at h
    rcases h with rfl | rfl
    · exact ⟨req, hreq, rfl, .inl ⟨rfl, rfl⟩⟩
    · exact ⟨req, hreq, rfl, .inr ⟨rfl, rfl⟩⟩

end Commit

theorem map_id_of_openings {accounts accounts' : List Account}
    (h : accounts.map Account.opening = accounts'.map Account.opening) :
    accounts.map Account.id = accounts'.map Account.id := by
  have := congrArg (List.map Account.id) h
  simpa [Function.comp_def, Account.opening] using this

theorem openings_setBalance (accounts : List Account) (id : Uuid) (b : Balance) :
    (Tables.setBalance accounts id b).map Account.opening = accounts.map Account.opening :=
  Rows.map_modify fun _ => rfl

theorem lookup_setBalance (accounts : List Account) (id id' : Uuid) (b : Balance) :
    Rows.lookup Account.id id' (Tables.setBalance accounts id b) =
      (Rows.lookup Account.id id' accounts).map fun row =>
        if row.id = id then { row with balance := b } else row :=
  Rows.lookup_modify fun _ => rfl

namespace Books

variable {sha256 : String → String} {history : List Commit} {t : Tables} {c : Commit}

theorem mem_accounts (b : Books sha256 history t) {a : Account} (h : a ∈ t.accounts) :
    ∃ c ∈ history, a.opening ∈ c.opened := by
  have := List.mem_map_of_mem (f := Account.opening) h
  rw [b.openings] at this
  exact List.mem_flatMap.mp this

theorem mem_entries (b : Books sha256 history t) {entry : LedgerEntry}
    (h : entry ∈ t.ledgerEntries) : ∃ c ∈ history, entry ∈ c.entries :=
  List.mem_flatMap.mp (b.entries ▸ h)

theorem fresh (b : Books sha256 history t)
    (disjoint : ∀ c' ∈ history, ∀ id ∈ c'.job.draws.toList, id ∉ c.job.draws.toList) :
    t.Fresh c.job.draws.toList := by
  constructor <;> intro id hid <;> refine Rows.lookup_eq_none.mpr fun row hrow hk => ?_
  · obtain ⟨c', hc', ha⟩ := b.mem_accounts hrow
    have hfirst : row.id = c'.job.draws.first := (Commit.mem_opened ha).1
    exact disjoint c' hc' id (by simp [Draws.toList, ← hk, hfirst]) hid
  · obtain ⟨c', hc', he⟩ := b.mem_entries hrow
    obtain ⟨req, -, -, hrow'⟩ := Commit.mem_entries he
    refine disjoint c' hc' id ?_ hid
    rcases hrow' with ⟨hid', -⟩ | ⟨hid', -⟩ <;> simp [Draws.toList, ← hk, hid']

theorem unmoved (b : Books sha256 history t)
    (disjoint : ∀ c' ∈ history, ∀ id ∈ c'.job.draws.toList, id ∉ c.job.draws.toList) :
    t.Unmoved c.job.draws.first := by
  intro entry hentry he
  obtain ⟨c', hc', h⟩ := b.mem_entries hentry
  obtain ⟨req, -, hfirst, -⟩ := Commit.mem_entries h
  exact disjoint c' hc' c.job.draws.first (by simp [Draws.toList, ← he, hfirst])
    (by simp [Draws.toList])

theorem filter_absent (b : Books sha256 history t) {id : Uuid} (h : t.account? id = none) :
    t.ledgerEntries.filter (·.accountId = id) = [] := by
  rw [List.filter_eq_nil_iff]
  intro entry hentry
  obtain ⟨c, hc, he⟩ := b.mem_entries hentry
  obtain ⟨req, hreq, -, hrow⟩ := Commit.mem_entries he
  have := b.covered c hc req hreq
  rcases hrow with ⟨-, ha⟩ | ⟨-, ha⟩ <;> rintro hid <;> simp_all

theorem posted_absent (b : Books sha256 history t) {id : Uuid} (h : t.account? id = none) :
    posted t.ledgerEntries id = 0 := by
  simp [posted, b.filter_absent h]

theorem book (b : Books sha256 history t) (admitted : c.job.Admitted)
    (draws : c.job.draws.toList.Nodup)
    (disjoint : ∀ c' ∈ history, ∀ id ∈ c'.job.draws.toList, id ∉ c.job.draws.toList)
    (hkey : t.key? c.job.key = none) {accounts : List Account}
    (openings : accounts.map Account.opening = t.accounts.map Account.opening)
    (balances : ∀ id a, (c.job.book sha256 c.startedAt t accounts).account? id = some a →
      a.balance.units = a.openingBalance.units + (posted t.ledgerEntries id + posted c.entries id))
    (covered : ∀ req, c.job.request.payload = .transfer req →
      (t.account? req.fromAccountId).isSome ∧ (t.account? req.toAccountId).isSome) :
    Books sha256 (history ++ [c]) (c.job.book sha256 c.startedAt t accounts) := by
  have ids := map_id_of_openings openings
  have opened : (c.job.opened c.startedAt).map Account.opening = c.job.opened c.startedAt := by
    exact (List.map_congr_left fun a ha => (Commit.mem_opened (c := c) ha).2).trans (List.map_id _)
  have stays {id : Uuid} (h : (t.account? id).isSome) :
      ((c.job.book sha256 c.startedAt t accounts).account? id).isSome := by
    simp only [Tables.account?, Rows.lookup_isSome] at h ⊢
    simp [Job.book, ids, h]
  refine ⟨?keys, ?entries, ?openings, ?balances, ?uniqueIds, ?uniqueKeys, ?uniqueDraws, ?admitted,
    ?covered⟩
  case keys => simp [Job.book, b.keys, Commit.row]
  case entries => simp [Job.book, b.entries, Commit.entries]
  case openings => simp [Job.book, openings, b.openings, Commit.opened, opened]
  case balances =>
    intro id a ha
    rw [balances id a ha]
    simp [Job.book, posted_append, Commit.entries]
  case uniqueIds =>
    simp only [Job.book, List.map_append, ids]
    rw [List.nodup_append]
    refine ⟨b.uniqueIds, ?_, fun id hid id' hid' he => ?_⟩
    · unfold Job.opened
      split <;> simp
    · obtain ⟨a, ha, rfl⟩ := List.mem_map.mp hid'
      have hfirst : a.id = c.job.draws.first := (Commit.mem_opened (c := c) ha).1
      have hfresh := (b.fresh disjoint).accounts id (by simp [he, hfirst, Draws.toList])
      rw [← Rows.lookup_isSome] at hid
      exact absurd hid (by simp [show Rows.lookup Account.id id t.accounts = none from hfresh])
  case uniqueKeys =>
    rw [List.map_append, List.nodup_append]
    refine ⟨b.uniqueKeys, by simp, fun key hmem key' hmem' he => ?_⟩
    obtain ⟨c', hc', rfl⟩ := List.mem_map.mp hmem
    obtain rfl : key' = c.job.key := by simpa using hmem'
    refine Rows.lookup_eq_none.mp hkey (c'.row sha256) ?_ he
    rw [b.keys]
    exact List.mem_map_of_mem hc'
  case uniqueDraws =>
    rw [List.flatMap_append, List.nodup_append]
    refine ⟨b.uniqueDraws, by simpa using draws, fun id hid id' hid' he => ?_⟩
    obtain ⟨c', hc', hid⟩ := List.mem_flatMap.mp hid
    exact disjoint c' hc' id hid (by simpa [he] using hid')
  case admitted =>
    intro c' hc'
    rcases List.mem_append.mp hc' with h | h
    · exact b.admitted c' h
    · exact List.mem_singleton.mp h ▸ admitted
  case covered =>
    intro c' hc' req hreq
    rcases List.mem_append.mp hc' with h | h
    · exact (b.covered c' h req hreq).imp stays stays
    · exact (covered req (List.mem_singleton.mp h ▸ hreq)).imp stays stays

theorem book_account (b : Books sha256 history t) (admitted : c.job.Admitted)
    (draws : c.job.draws.toList.Nodup)
    (disjoint : ∀ c' ∈ history, ∀ id ∈ c'.job.draws.toList, id ∉ c.job.draws.toList)
    (hkey : t.key? c.job.key = none) {req : CreateAccountRequest}
    (hreq : c.job.request.payload = .account req) :
    Books sha256 (history ++ [c]) (c.job.book sha256 c.startedAt t t.accounts) := by
  refine b.book admitted draws disjoint hkey rfl (fun id a ha => ?_) (by simp [hreq])
  have none_posted : posted c.entries id = 0 := by
    simp [posted, Commit.entries, Job.entries, hreq]
  rw [none_posted, add_zero]
  cases hold : t.account? id with
  | some old =>
    cases (Rows.lookup_append_of_some hold).symm.trans ha
    exact b.balances id a hold
  | none =>
    have hnew := (Rows.lookup_append_of_none hold).symm.trans ha
    have : a.opening = a := (Commit.mem_opened (Rows.mem_of_lookup hnew)).2
    rw [b.posted_absent hold, add_zero, ← this]
    rfl

theorem book_transfer (b : Books sha256 history t) (admitted : c.job.Admitted)
    (draws : c.job.draws.toList.Nodup)
    (disjoint : ∀ c' ∈ history, ∀ id ∈ c'.job.draws.toList, id ∉ c.job.draws.toList)
    (hkey : t.key? c.job.key = none) {req : TransferRequest}
    (hreq : c.job.request.payload = .transfer req) {source destination : Account}
    {debited credited : Balance} (hs : t.account? req.fromAccountId = some source)
    (hd : t.account? req.toAccountId = some destination)
    (hdebited : source.balance.add? req.amount.debit = some debited)
    (hcredited : destination.balance.add? req.amount.credit = some credited) :
    Books sha256 (history ++ [c]) (c.job.book sha256 c.startedAt t (Tables.setBalance
      (Tables.setBalance t.accounts req.fromAccountId debited) req.toAccountId credited)) := by
  have distinct := admitted.distinct req hreq
  refine b.book admitted draws disjoint hkey ?_ (fun id a ha => ?_) ?_
  · rw [openings_setBalance, openings_setBalance]
  · have legs : posted c.entries id =
        (if req.fromAccountId = id then req.amount.debit.units else 0) +
          if req.toAccountId = id then req.amount.credit.units else 0 := by
      simp only [Commit.entries, Job.entries, hreq]
      rw [posted_cons, posted_cons, posted_nil, add_zero]
    have ha : Rows.lookup Account.id id (Tables.setBalance
        (Tables.setBalance t.accounts req.fromAccountId debited) req.toAccountId credited) =
          some a := by
      simpa [Tables.account?, Job.book, Job.opened, hreq] using ha
    rw [lookup_setBalance, lookup_setBalance, Option.map_map, Option.map_eq_some_iff] at ha
    obtain ⟨old, hold, rfl⟩ := ha
    have hid : old.id = id := Rows.key_of_lookup hold
    have := b.balances id old hold
    rw [legs]
    by_cases hfrom : id = req.fromAccountId
    · subst hfrom
      cases hold.symm.trans hs
      simp [hid, distinct, distinct.symm, Balance.units_add? hdebited]
      omega
    · by_cases hto : id = req.toAccountId
      · subst hto
        cases hold.symm.trans hd
        simp [hid, distinct, distinct.symm, Balance.units_add? hcredited]
        omega
      · simp [hid, hfrom, hto, Ne.symm hfrom, Ne.symm hto]
        omega
  · intro req' hreq'
    cases hreq.symm.trans hreq'
    simp [hs, hd]

theorem account?_opening (t : Tables) (id : Uuid) : (t.account? id).map Account.opening =
    Rows.lookup Account.id id (t.accounts.map Account.opening) :=
  (Rows.lookup_map (f := Account.opening) fun _ => rfl).symm

theorem opening_append {t' : Tables} {new : List Commit} (b : Books sha256 history t)
    (b' : Books sha256 (history ++ new) t') (id : Uuid) :
    (t'.account? id).map Account.opening = ((t.account? id).map Account.opening).or
      (Rows.lookup Account.id id (new.flatMap Commit.opened)) := by
  rw [account?_opening, b'.openings, List.flatMap_append, Rows.lookup_append, ← b.openings,
    ← account?_opening]

theorem account_stays {t' : Tables} {new : List Commit} (b : Books sha256 history t)
    (b' : Books sha256 (history ++ new) t') {id : Uuid} {a : Account}
    (h : t.account? id = some a) : ∃ a', t'.account? id = some a' ∧ a'.opening = a.opening := by
  have opening := b.opening_append b' id
  rw [h] at opening
  exact Option.map_eq_some_iff.mp opening

theorem empty : Books sha256 [] .empty := by
  constructor <;> simp [Tables.empty, Tables.account?]

theorem earned (b : Books sha256 history (tablesAfter sha256 history))
    (h : Earns sha256 history c) :
    Books sha256 (history ++ [c]) (tablesAfter sha256 (history ++ [c])) := by
  obtain ⟨admitted, draws, disjoint, answer⟩ := h
  have snoc : tablesAfter sha256 (history ++ [c]) =
      (atomic sha256 c.job c.startedAt (tablesAfter sha256 history)).1 := by
    simp [tablesAfter]
  rw [snoc]
  have decided := atomic_decided sha256 c.job c.startedAt (tablesAfter sha256 history)
  generalize atomic sha256 c.job c.startedAt (tablesAfter sha256 history) = result at decided answer
  cases decided with
  | opened req hkey hreq => exact b.book_account admitted draws disjoint hkey hreq
  | moved req source destination debited credited hkey hreq hs hd hdebited hcredited =>
    exact b.book_transfer admitted draws disjoint hkey hreq hs hd hdebited hcredited
  | _ => cases answer

end Books

variable {sha256 : String → String} {history : List Commit} {es : List Event} {w : World}

theorem WellEarned.books (h : WellEarned sha256 history) :
    Books sha256 history (tablesAfter sha256 history) := by
  induction history using List.reverseRecOn with
  | nil => exact .empty
  | append_singleton past c ih =>
    exact (ih fun past' c' hp => h past' c' (hp.trans (List.prefix_append _ _))).earned
      (h past c List.prefix_rfl)

theorem Inv.wellEarned (h : run (World.step (serveRequest sha256)) World.init es = some w) :
    WellEarned sha256 w.server.history ∧
      w.server.committed = tablesAfter sha256 w.server.history := by
  refine run_induction (P := fun _ w => WellEarned sha256 w.server.history ∧
      w.server.committed = tablesAfter sha256 w.server.history) ?start ?next h
  case start =>
    refine ⟨fun past c hp => ?_, rfl⟩
    simp [World.init, Server.init] at hp
  case next =>
    rintro es m e m' ran ⟨earned, replay⟩ hstep
    have inv := Inv.of_run ran
    rcases inv.change (World.step_cases hstep) with ⟨hc, hh⟩ | ⟨r, p, fp, tx, -, hcommit⟩
    · rw [hh, hc]
      exact ⟨earned, replay⟩
    have books := earned.books
    have disjoint : ∀ c ∈ m.server.history, ∀ id ∈ c.job.draws.toList,
        id ∉ p.job.draws.toList := by
      intro c hc
      obtain ⟨p', hp', hjob⟩ := inv.owners c hc
      have hne : c.owner ≠ r := fun he => hcommit.first ⟨c, hc, he⟩
      exact hjob ▸ inv.disjoint c.owner p' r p hp' hcommit.party hne
    obtain ⟨o, ho, hs⟩ := hcommit.answer
    have draws := inv.draws r p hcommit.party
    rw [sequential_eq_atomic sha256 tx.startedAt hcommit.admitted draws
      (inv.fresh hcommit.party hcommit.first)
      (replay ▸ books.unmoved (c := ⟨r, p.job, tx.startedAt⟩) disjoint)] at hs
    have ht : (atomic sha256 p.job tx.startedAt m.server.committed).1 = m'.server.committed :=
      congrArg Prod.fst hs
    have ha : (atomic sha256 p.job tx.startedAt m.server.committed).2 = .outcome o := by
      simpa using congrArg Prod.snd hs
    obtain rfl : o = p.job.earned tx.startedAt := atomic_fresh ha ho
    rw [hcommit.history]
    refine ⟨fun past c hp => ?_, ?_⟩
    · rcases List.prefix_concat_iff.mp hp with hp | hp
      · obtain ⟨rfl, rfl⟩ : past = m.server.history ∧ c = ⟨r, p.job, tx.startedAt⟩ := by
          simpa using List.append_inj' hp rfl
        exact ⟨hcommit.admitted, draws, disjoint, replay ▸ ha⟩
      · exact earned past c hp
    · rw [← ht, replay]
      simp [tablesAfter]

theorem Inv.books (h : run (World.step (serveRequest sha256)) World.init es = some w) :
    Books sha256 w.server.history w.server.committed := by
  obtain ⟨earned, replay⟩ := Inv.wellEarned h
  exact replay ▸ earned.books

end Ledger
