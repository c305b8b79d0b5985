import Ledger.Answers

namespace Ledger

open Lib

def Commit.minted (c : Commit) : Int :=
  match c.job.request.payload with
  | .account req => req.initialBalance.value.units 4
  | .transfer _ => 0

def Commit.Single (c : Commit) : Prop :=
  c.opened = [] ∧ (∃ debit credit, c.entries = [debit, credit] ∧
      debit.amount.units < 0 ∧ 0 < credit.amount.units) ∨
    c.entries = [] ∧ ∃ a, c.opened = [a]

theorem Commit.single (c : Commit) : c.Single := by
  cases hreq : c.job.request.payload with
  | account req =>
    exact .inr ⟨by simp [entries, Job.entries, hreq], _, opened_account hreq⟩
  | transfer req =>
    refine .inl ⟨by simp [opened, Job.opened, hreq], _, _, entries_transfer hreq, ?_, ?_⟩
    · exact neg_neg_of_pos req.amount.positive
    · exact req.amount.positive

namespace Books

variable {sha256 : String → String} {history : List Commit} {t : Tables} {c : Commit}

theorem key_of_commit (b : Books sha256 history t) (hc : c ∈ history) :
    t.key? c.job.key = some (c.row sha256) := by
  have unique : (t.idempotencyKeys.map IdempotencyKey.key).Nodup := b.claimed.keys
  exact Rows.lookup_of_mem unique (b.mem_keys.mpr ⟨c, hc, rfl⟩)

theorem commit_of_key (b : Books sha256 history t) {key : String} {row : IdempotencyKey}
    (h : t.key? key = some row) : ∃ c ∈ history, row = c.row sha256 ∧ c.job.key = key := by
  have hkey : row.key = key := Rows.key_of_lookup h
  obtain ⟨c, hc, rfl⟩ := b.mem_keys.mp (Rows.mem_of_lookup h)
  exact ⟨c, hc, rfl, hkey⟩

theorem eq_of_key (b : Books sha256 history t) {c c' : Commit} (hc : c ∈ history)
    (hc' : c' ∈ history) (h : c.job.key = c'.job.key) : c = c' :=
  List.inj_on_of_nodup_map b.uniqueKeys hc hc' h

theorem minted (b : Books sha256 history t) : (t.accounts.map (·.openingBalance.units)).sum =
    ((history.filter (·.job.operation = .createAccount)).map Commit.minted).sum := by
  have openings : t.accounts.map (·.openingBalance.units) =
      (history.flatMap Commit.opened).map (·.openingBalance.units) := by
    rw [← b.openings, List.map_map]
    rfl
  rw [openings]
  clear b openings
  induction history with
  | nil => rfl
  | cons c history ih =>
    rw [List.flatMap_cons, List.map_append, List.sum_append, ih]
    cases hreq : c.job.request.payload with
    | account req =>
      have : c.job.operation = .createAccount := Payload.operation_eq_createAccount.mpr ⟨req, hreq⟩
      simp [this, Commit.opened_account hreq, Commit.minted, hreq, NonNegativeMoney.toBalance]
    | transfer req =>
      have : c.job.operation = .createTransfer :=
        Payload.operation_eq_createTransfer.mpr ⟨req, hreq⟩
      simp [this, Commit.opened, Job.opened, hreq]

theorem createAccountKeys (b : Books sha256 history t) :
    (t.idempotencyKeys.filter (·.operation = .createAccount)).map IdempotencyKey.key =
      (history.filter (·.job.operation = .createAccount)).map (·.job.key) := by
  rw [b.keys, List.filter_map, List.map_map]
  rfl

end Books

structure OncePerKey (sha256 : String → String) (es : List Event) (w : World) (key : String) :
    Prop where
  commits : (w.server.history.filter (·.job.key = key)).length ≤ 1
  carried : ∀ c ∈ w.server.history, requireKey c.job.request.idempotencyKey = .ok c.job.key
  effects : ∀ c ∈ w.server.history, c.Single
  answers : ∀ pre m r p o, Earlier sha256 es pre m → m.party r = some p →
    m.answer r = some (.outcome o) → p.job.key = key →
    ∃ row, w.server.committed.key? key = some row ∧ o.body.isSome ∧ o.body = row.responseBody ∧
      o.statusCode = if o.replayed then 200 else 201
  earned : ∀ pre m r p o pre' m' r' p' o', Earlier sha256 es pre m → m.party r = some p →
    m.answer r = some (.outcome o) → p.job.key = key → o.replayed = false →
    Earlier sha256 es pre' m' → m'.party r' = some p' → m'.answer r' = some (.outcome o') →
    p'.job.key = key → o'.replayed = false → r = r'
  settled : (w.server.committed.key? key).isSome → ∀ e w' r p,
    World.step (serveRequest sha256) w e = some w' → e.actor = some r → w'.party r = some p →
    p.job.key = key → w'.server.committed = w.server.committed

section answers

variable {sha256 : String → String} {es pre : List Event} {w w' m : World} {r : Nat} {p : Party}
  {o : Outcome}

theorem Inv.outcome (ran : run (World.step (serveRequest sha256)) World.init es = some w)
    (hp : w.party r = some p) (ha : w.answer r = some (.outcome o)) : p.job.Admitted ∧
    ∃ c ∈ w.server.history, c.job.key = p.job.key ∧ o.body = some (c.job.body c.startedAt) ∧
      (o.statusCode = 200 ∧ o.replayed = true ∧ c.job.operation = p.job.operation ∧
          c.job.requestHash sha256 = p.job.requestHash sha256 ∨
        o.statusCode = 201 ∧ o.replayed = false ∧ c.owner = r ∧ c.job = p.job) := by
  have grounds := Inv.grounds ran hp ha
  generalize ha' : Response.outcome o = a at grounds
  cases grounds with
  | lockTimeout _ h =>
    obtain ⟨message, rfl⟩ := h
    cases ha'
  | upset _ _ h => rcases h with rfl | rfl <;> cases ha'
  | lost _ => cases ha'
  | refused e _ _ _ => cases ha'
  | earned c hc ho hj =>
    cases ha'
    exact ⟨hj ▸ (Inv.books ran).admitted c hc, c, hc, by rw [hj], rfl, .inr ⟨rfl, rfl, ho, hj⟩⟩
  | decided pre m clock hr hfresh admitted hm _ hs =>
    refine ⟨admitted, ?_⟩
    obtain ⟨rest, hrest⟩ := hm.rest ran
    have decided := atomic_decided sha256 p.job clock m.server.committed
    rw [hs, ← ha'] at decided
    rw [← ha'] at hfresh
    have unfresh : o.replayed ≠ false := fun h => hfresh ⟨o, rfl, h⟩
    generalize hrow : (m.server.committed, Response.outcome o) = result at decided
    cases decided with
    | replayed row hkey hop hhash =>
      obtain ⟨c, hc, rfl, hck⟩ := (Inv.books hm.2).commit_of_key hkey
      cases hrow
      exact ⟨c, (World.run_history hrest).subset hc, hck, rfl, .inl ⟨rfl, rfl, hop, hhash⟩⟩
    | opened _ _ _ =>
      cases congrArg Prod.snd hrow
      exact (unfresh rfl).elim
    | moved _ _ _ _ _ _ _ _ _ _ _ =>
      cases congrArg Prod.snd hrow
      exact (unfresh rfl).elim
    | _ => cases congrArg Prod.snd hrow

theorem Inv.settled (ran : run (World.step (serveRequest sha256)) World.init es = some w)
    {e : Event} (hstep : World.step (serveRequest sha256) w e = some w') (hr : e.actor = some r)
    (hp : w'.party r = some p) (taken : (w.server.committed.key? p.job.key).isSome) :
    w'.server.committed = w.server.committed := by
  have stepped := World.step_cases hstep
  rcases (Inv.of_run ran).change stepped with ⟨hc, -⟩ | ⟨r', p', fp, tx, hr', hcommit⟩
  · exact hc
  · cases hr.symm.trans hr'
    obtain ⟨new, hnew, hjob⟩ := stepped.stays hcommit.party
    cases hnew.symm.trans hp
    obtain ⟨row, hrow⟩ := Option.isSome_iff_exists.mp taken
    obtain ⟨o, ho, hs⟩ := hcommit.answer
    rw [hjob] at hrow
    rw [sequential_of_taken hcommit.admitted hrow] at hs
    have := congrArg Prod.snd hs
    exact (Phase.replayed_not_fresh row ⟨o, Except.ok.inj this, ho⟩).elim

theorem Inv.outcome_past (ran : run (World.step (serveRequest sha256)) World.init es = some w)
    (hm : Earlier sha256 es pre m) (hp : m.party r = some p)
    (ha : m.answer r = some (.outcome o)) : ∃ c ∈ w.server.history, c.job.key = p.job.key ∧
      o.body = some (c.job.body c.startedAt) ∧ (o.statusCode = if o.replayed then 200 else 201) ∧
      (o.replayed = false → c.owner = r) := by
  obtain ⟨rest, hrest⟩ := hm.rest ran
  obtain ⟨-, c, hc, hkey, hbody, h⟩ := Inv.outcome hm.2 hp ha
  refine ⟨c, (World.run_history hrest).subset hc, hkey, hbody, ?_⟩
  rcases h with ⟨hstatus, hreplayed, -⟩ | ⟨hstatus, hreplayed, ho, -⟩
  · exact ⟨by rw [hstatus, hreplayed]; rfl, fun h => by rw [hreplayed] at h; cases h⟩
  · exact ⟨by rw [hstatus, hreplayed]; rfl, fun _ => ho⟩

theorem Inv.oncePerKey (ran : run (World.step (serveRequest sha256)) World.init es = some w)
    (key : String) : OncePerKey sha256 es w key where
  commits := by
    have := List.nodup_iff_count_le_one.mp (Inv.books ran).uniqueKeys key
    rwa [List.count, List.countP_map, List.countP_eq_length_filter] at this
  carried := fun c hc => ((Inv.books ran).admitted c hc).key
  effects := fun c _ => c.single
  answers := by
    intro pre m r p o hm hp ha hkey
    obtain ⟨c, hc, hck, hbody, hstatus, -⟩ := Inv.outcome_past ran hm hp ha
    refine ⟨c.row sha256, ?_, by simp [hbody], hbody, hstatus⟩
    rw [← hkey, ← hck]
    exact (Inv.books ran).key_of_commit hc
  earned := by
    intro pre m r p o pre' m' r' p' o' hm hp ha hkey ho hm' hp' ha' hkey' ho'
    obtain ⟨c, hc, hck, -, -, howner⟩ := Inv.outcome_past ran hm hp ha
    obtain ⟨c', hc', hck', -, -, howner'⟩ := Inv.outcome_past ran hm' hp' ha'
    have : c = c' := (Inv.books ran).eq_of_key hc hc' (by rw [hck, hck', hkey, hkey'])
    rw [← howner ho, ← howner' ho', this]
  settled := fun taken e w' r p hstep hr hp hkey =>
    Inv.settled ran hstep hr hp (hkey ▸ taken)

end answers

theorem exactly_once {sha256 : String → String} (x : Run (serveRequest sha256)) :
    (∀ key, OncePerKey sha256 x.events x.last key) ∧
    (x.last.server.committed.ledgerEntries = x.last.server.history.flatMap Commit.entries ∧
      x.last.server.committed.accounts.map Account.opening =
        x.last.server.history.flatMap Commit.opened) ∧
    ((x.last.server.committed.accounts.map (·.openingBalance.units)).sum =
        ((x.last.server.history.filter (·.job.operation = .createAccount)).map Commit.minted).sum ∧
      (x.last.server.committed.idempotencyKeys.filter (·.operation = .createAccount)).map
          IdempotencyKey.key =
        (x.last.server.history.filter (·.job.operation = .createAccount)).map (·.job.key) ∧
      (x.last.server.history.map (·.job.key)).Nodup) :=
  have books := Inv.books x.ran
  ⟨Inv.oncePerKey x.ran, ⟨books.entries, books.openings⟩, books.minted, books.createAccountKeys,
    books.uniqueKeys⟩

end Ledger
