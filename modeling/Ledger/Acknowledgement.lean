import Ledger.Canonical
import Ledger.ExactlyOnce

namespace Ledger

open Lib

/-- The body describes the request, and the tables hold what the body says. -/
def Body.Fulfils (body : Body) (payload : Payload) (t : Tables) : Prop :=
  match payload, body with
  | .transfer req, .transfer r =>
    r.fromAccountId = req.fromAccountId ∧ r.toAccountId = req.toAccountId ∧
    (∃ d, Decimal.parse r.amount = some d ∧ d.toRat = req.amount.value.toRat) ∧
    ∃ debit credit, t.ledgerEntries.filter (·.transferId = r.transferId) = [debit, credit] ∧
      debit.accountId = req.fromAccountId ∧ credit.accountId = req.toAccountId ∧
      debit.amount.toDecimal.toRat = -req.amount.value.toRat ∧
      credit.amount.toDecimal.toRat = req.amount.value.toRat
  | .account req, .account r => ∃ a, t.account? r.id = some a ∧
    a.openingBalance.toDecimal.toRat = req.initialBalance.value.toRat
  | _, _ => False

theorem toRat_of_serializeMoney {d d' : Decimal} (h : d.Multiple 4) (h' : d'.Multiple 4)
    (he : serializeMoney d = serializeMoney d') : d.toRat = d'.toRat := by
  obtain ⟨e, hparse, -, hunits⟩ := h.parse_format (by decide)
  obtain ⟨e', hparse', -, hunits'⟩ := h'.parse_format (by decide)
  rw [serializeMoney, serializeMoney] at he
  rw [he, hparse'] at hparse
  cases hparse
  exact (h.toRat_eq_iff h').mpr (hunits.symm.trans hunits')

theorem Books.fulfils {sha256 : String → String} {history : List Commit} {t : Tables} {c : Commit}
    (b : Books sha256 history t) (hc : c ∈ history) {payload : Payload}
    (same : c.job.request.payload.Same payload) :
    (c.job.body c.startedAt).Fulfils payload t := by
  cases hreq : c.job.request.payload with
  | account req =>
    rw [hreq] at same
    cases payload with
    | transfer req' => exact same.elim
    | account req' =>
      obtain ⟨row, hrow, hopening⟩ := b.account_of_opened hc
        (by rw [Commit.opened_account hreq]; exact List.mem_cons_self)
      have hbalance : row.openingBalance = req.initialBalance.toBalance :=
        congrArg Account.openingBalance hopening
      simp only [Job.body, hreq, Body.Fulfils]
      refine ⟨row, hrow, ?_⟩
      rw [hbalance, ← toRat_of_serializeMoney req.initialBalance.decimalPlaces
        req'.initialBalance.decimalPlaces same]
      exact ((Numeric.toDecimal_multiple _).toRat_eq_iff req.initialBalance.decimalPlaces).mpr
        (Numeric.toDecimal_units _)
  | transfer req =>
    rw [hreq] at same
    cases payload with
    | account req' => exact same.elim
    | transfer req' =>
      obtain ⟨hfrom, hto, hamount⟩ := same
      have exact_amount := toRat_of_serializeMoney req.amount.decimalPlaces
        req'.amount.decimalPlaces hamount
      obtain ⟨d, hparse, hmultiple, hunits⟩ :=
        req.amount.decimalPlaces.parse_format (by decide)
      simp only [Job.body, hreq, Body.Fulfils]
      refine ⟨hfrom, hto, ⟨d, hparse, ?_⟩, _, _, (b.legs hc).trans (Commit.entries_transfer hreq),
        hfrom, hto, by rw [req.amount.toRat_debit, exact_amount],
        by rw [req.amount.toRat_credit, exact_amount]⟩
      rw [← exact_amount]
      exact (hmultiple.toRat_eq_iff req.amount.decimalPlaces).mpr hunits

def World.payloads (w : World) : Set Payload :=
  {payload | ∃ r p, w.party r = some p ∧ p.job.request.payload = payload}

section answers

variable {sha256 : String → String} {es : List Event} {w : World} {r : Nat} {p : Party}

theorem Inv.acknowledged (ran : run (World.step (serveRequest sha256)) World.init es = some w)
    (free : CollisionFree sha256 w.payloads) (hp : w.party r = some p) {o : Outcome}
    (ha : w.answer r = some (.outcome o)) :
    ∃ body, o.body = some body ∧ body.Fulfils p.job.request.payload w.server.committed := by
  obtain ⟨-, c, hc, -, hbody, h⟩ := Inv.outcome ran hp ha
  refine ⟨_, hbody, (Inv.books ran).fulfils hc ?_⟩
  rcases h with ⟨-, -, hop, hhash⟩ | ⟨-, -, -, hj⟩
  · obtain ⟨p', hp', hj⟩ := (Inv.of_run ran).owners c hc
    exact Payload.same_of_canonical hop
      (free _ ⟨c.owner, p', hp', congrArg (·.request.payload) hj⟩ _ ⟨r, p, hp, rfl⟩ hhash)
  · exact hj ▸ .refl _

theorem Inv.conflict (ran : run (World.step (serveRequest sha256)) World.init es = some w)
    (hp : w.party r = some p) {key : String} {operation : Operation} {retryAfter : Bool}
    (ha : w.answer r = some (.envelope (.idempotencyKeyConflict key operation) retryAfter)) :
    ∃ c ∈ w.server.history, w.server.committed.key? p.job.key = some (c.row sha256) ∧
      ((c.row sha256).operation ≠ p.job.operation ∨
        ¬ c.job.request.payload.Same p.job.request.payload) := by
  obtain ⟨-, admitted, pre, m, clock, hm, -, hs⟩ := Inv.decided ran hp ha
    (by simp) (by simp [LedgerError.unexpected]) (by simp [LedgerError.Early])
  obtain ⟨rest, hrest⟩ := hm.rest ran
  have decided := atomic_decided sha256 p.job clock m.server.committed
  rw [hs] at decided
  generalize hrow : (m.server.committed, Response.envelope _ retryAfter) = result at decided
  cases decided with
  | conflict row hkey hne =>
    obtain ⟨c, hc, rfl, hck⟩ := (Inv.books hm.2).commit_of_key hkey
    have hc := (World.run_history hrest).subset hc
    refine ⟨c, hc, hck ▸ (Inv.books ran).key_of_commit hc, hne.imp_right fun hhash same => ?_⟩
    exact hhash (congrArg sha256 (Payload.canonical_of_same same))
  | _ => cases congrArg Prod.snd hrow

end answers

theorem no_false_acknowledgement {sha256 : String → String} (x : Run (serveRequest sha256))
    (free : CollisionFree sha256 x.last.payloads) {r : Nat} {p : Party}
    (hp : x.last.party r = some p) :
    (∀ o, x.last.answer r = some (.outcome o) → ∃ body, o.body = some body ∧
      body.Fulfils p.job.request.payload x.last.server.committed) ∧
    ∀ key operation retryAfter,
      x.last.answer r = some (.envelope (.idempotencyKeyConflict key operation) retryAfter) →
      ∃ c ∈ x.last.server.history,
        x.last.server.committed.key? p.job.key = some (c.row sha256) ∧
        ((c.row sha256).operation ≠ p.job.operation ∨
          ¬ c.job.request.payload.Same p.job.request.payload) :=
  ⟨fun _ ha => Inv.acknowledged x.ran free hp ha, fun _ _ _ ha => Inv.conflict x.ran hp ha⟩

def accountTwice : Run (serveRequest swappedHash) :=
  .of (.arrive 0 ⟨some "key", .account {}⟩ ⟨1, 2, 3⟩ :: List.replicate 8 (.serve 0) ++
    .arrive 1 ⟨some "key", .account {}⟩ ⟨4, 5, 6⟩ :: List.replicate 3 (.serve 1))
    (by decide +kernel)

theorem accountTwice_acknowledged : ∃ a, accountTwice.last.server.committed.account? 1 = some a ∧
    a.openingBalance.toDecimal.toRat = (⟨false, 0, 0⟩ : Decimal).toRat := by
  have hp : accountTwice.last.party 1 = some ⟨⟨⟨some "key", .account {}⟩, ⟨4, 5, 6⟩⟩,
      .pure (.outcome ⟨200, some (.account ⟨1, "0.0000", 0⟩), true⟩), .idle⟩ := rfl
  obtain ⟨body, hbody, h⟩ :=
    (no_false_acknowledgement accountTwice (swappedHash_collisionFree _) hp).1 _ rfl
  cases hbody
  exact h

end Ledger
