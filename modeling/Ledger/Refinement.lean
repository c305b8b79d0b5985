import Ledger.Invariant

namespace Ledger

open Lib

variable {sha256 : String → String}

/-- Whatever a client has been told is a request to try again, the consequence of a fault, or what
it would have been told with nobody else around, at some moment while it was waiting. -/
theorem Inv.answer {es : List Event} {w : World} (inv : Inv sha256 es w) {r : Nat} {p : Party}
    {a : Response} (hp : w.party r = some p) (ha : w.answer r = some a) :
    a.LockTimeout ∧ ¬ w.CommittedBy r ∨
      (a.Upset ∧ (w.CommittedBy r → Late sha256 es r) ∨ a = .lost) ∧ Disturbed es r ∨
      ¬ w.CommittedBy r ∧ ¬ a.Fresh ∧ Justified sha256 es r p.job a ∨
      w.CommittedBy r ∧ a.Fresh ∧ Earned sha256 es w r p.job a := by
  have hprog : p.prog = .pure a := by
    simp only [World.answer, hp, Option.bind_some] at ha
    split at ha
    · cases ha
      assumption
    · cases ha
  exact (inv.phases r p hp).answered hprog

theorem concurrent_refines_sequential (x : Run (serveRequest sha256)) :
    (x.last.server.history.foldl
        (fun t c => (sequential (serveRequest sha256) c.job c.startedAt t).1) .empty =
          x.last.server.committed ∧
      (x.last.server.history.map Commit.owner).Nodup ∧
      ∀ c ∈ x.last.server.history, ∃ p, x.last.party c.owner = some p ∧ p.job = c.job) ∧
    ∀ r p a, x.last.party r = some p → x.last.answer r = some a →
      a.LockTimeout ∨ (a.Upset ∨ a = .lost) ∧ Disturbed x.events r ∨
      ∃ pre m clock, Earlier sha256 x.events pre m ∧ Current r pre m ∧
        (sequential (serveRequest sha256) p.job clock m.server.committed).2 = .ok a ∧
        (a.Fresh → ∃ c ∈ x.last.server.history, c.owner = r ∧ c.startedAt = clock) := by
  have inv := Inv.of_run x.ran
  refine ⟨⟨inv.replay, inv.once, inv.owners⟩, fun r p a hp ha => ?_⟩
  rcases inv.answer hp ha with ⟨h, -⟩ | ⟨h, hd⟩ | ⟨-, hfresh, h⟩ | ⟨-, -, h⟩
  · exact .inl h
  · exact .inr (.inl ⟨h.imp And.left id, hd⟩)
  · obtain ⟨pre, m, clock, hm, hcurrent, hs⟩ := h
    exact .inr (.inr ⟨pre, m, clock, hm, hcurrent, by rw [hs], fun hf => (hfresh hf).elim⟩)
  · obtain ⟨pre, m, c, hm, hserving, ho, -, hh, hs⟩ := h
    exact .inr (.inr ⟨pre, m, c.startedAt, hm, .inl hserving, hs,
      fun _ => ⟨c, hh.subset (by simp), ho, rfl⟩⟩)

end Ledger
