import Ledger.Answers
import Ledger.Canonical

namespace Ledger

open Lib

def World.Committing (w : World) (r : Nat) : Prop :=
  ∃ job k session, w.party r = some ⟨job, .call .commit k, session⟩ ∧ session ≠ .broken

/-- A call of `r` raises when the commit has taken effect: a later one, or the commit itself. -/
def World.LateFault (w : World) (e : Event) (r : Nat) : Prop :=
  e.Raises r ∧ (w.CommittedBy r ∨ w.Committing r ∧ ∃ fault, e = .failAfter r fault)

theorem Tables.effect_committed {t : Tables} {clock : Timestamp} {session : Session} {c : Call}
    {tx : Tx} {x : c.Reply} (h : t.effect clock session c = .committed tx x) :
    c = .commit ∧ session ≠ .broken := by
  constructor
  · cases c with
    | commit => rfl
    | _ => cases session <;> simp only [effect, inTx] at h <;> (repeat' split at h) <;> cases h
  · rintro rfl
    cases c <;> cases h

variable {sha256 : String → String} {es : List Event} {w w' : World} {e : Event} {r : Nat}

theorem World.lateFault_of_committed (hstep : World.step (serveRequest sha256) w e = some w')
    (hraises : e.Raises r) (hr : w'.CommittedBy r) : w.LateFault e r := by
  refine ⟨hraises, ?_⟩
  cases World.step_cases hstep with
  | met hp hm =>
    cases hm with
    | failedBefore fault => exact .inl (by simpa [World.CommittedBy] using hr)
    | failedAfter fault hx =>
      obtain ⟨fault', he | he⟩ := hraises <;> cases he
      rcases Server.exec_committed hx with ⟨-, hh⟩ | ⟨tx, x, heffect, -, -⟩
      · exact .inl (by simpa [World.CommittedBy, hh] using hr)
      · obtain ⟨rfl, hsession⟩ := Tables.effect_committed heffect
        exact .inr ⟨⟨_, _, _, hp, hsession⟩, fault, rfl⟩
    | _ => obtain ⟨fault', he | he⟩ := hraises <;> cases he
  | _ => obtain ⟨fault', he | he⟩ := hraises <;> cases he

/-- In a run in which no call of the request raises once its commit has taken effect, an error
answer means that nothing of the request was applied. -/
theorem error_means_not_applied (x : Run (serveRequest sha256)) (r : Nat)
    (prompt : ∀ pre e m, pre ++ [e] <+: x.events →
      run (World.step (serveRequest sha256)) World.init pre = some m → ¬ m.LateFault e r)
    (error : LedgerError) (retryAfter : Bool)
    (ha : x.last.answer r = some (.envelope error retryAfter)) :
    ¬ x.last.CommittedBy r ∧ ∀ pre e m m', pre ++ [e] <+: x.events →
      run (World.step (serveRequest sha256)) World.init pre = some m →
      World.step (serveRequest sha256) m e = some m' → e.actor = some r →
      m'.server.committed = m.server.committed := by
  have unowned : ¬ x.last.CommittedBy r := by
    obtain ⟨p, hp, -⟩ := World.answer_eq.mp ha
    have grounds := Inv.grounds x.ran hp ha
    generalize ha' : Response.envelope error retryAfter = a at grounds
    cases grounds with
    | lockTimeout h _ => exact h
    | upset _ hlate _ =>
      intro howned
      obtain ⟨pre, e, m', hm, hraises, hr⟩ := hlate howned
      obtain ⟨m, ran, hstep⟩ := run_snoc hm.2
      exact prompt pre e m hm.1 ran (World.lateFault_of_committed hstep hraises hr)
    | lost _ => cases ha'
    | refused e h _ _ => exact h
    | decided pre m clock h _ _ _ _ _ => exact h
    | earned c hc ho hj => cases ha'
  refine ⟨unowned, fun pre e m m' hpre ran hstep hr => ?_⟩
  rcases (Inv.of_run ran).change (World.step_cases hstep) with ⟨hc, -⟩ | ⟨r', p, fp, tx, hr', h⟩
  · exact hc
  · cases hr.symm.trans hr'
    have hm' : Earlier sha256 x.events (pre ++ [e]) m' := ⟨hpre, run_next ran hstep⟩
    obtain ⟨rest, hrest⟩ := hm'.rest x.ran
    have committed : m'.CommittedBy r := ⟨⟨r, p.job, tx.startedAt⟩, by simp [h.history], rfl⟩
    exact (unowned (World.run_committedBy hrest committed)).elim

def accountAborted : Run (serveRequest swappedHash) :=
  .of (.arrive 0 ⟨some "key", .account {}⟩ ⟨1, 2, 3⟩ :: List.replicate 4 (.serve 0) ++
    .kill 0 :: List.replicate 3 (.serve 0)) (by decide +kernel)

theorem accountAborted_not_applied :
    accountAborted.last.answer 0 = some (.envelope .unexpected false) ∧
      ¬ accountAborted.last.CommittedBy 0 := by
  have ha : accountAborted.last.answer 0 = some (.envelope .unexpected false) := rfl
  refine ⟨ha, (error_means_not_applied accountAborted 0 ?_ _ _ ha).1⟩
  rintro pre e m hpre - ⟨⟨fault, he⟩, -⟩
  have hmem : e ∈ accountAborted.events := hpre.subset (by simp)
  simp only [accountAborted, Execution.of] at hmem
  rcases he with rfl | rfl <;> simp at hmem

def commitUnacknowledged : Run (serveRequest swappedHash) :=
  .of (.arrive 0 ⟨some "key", .account {}⟩ ⟨1, 2, 3⟩ :: List.replicate 6 (.serve 0) ++
    .failAfter 0 .connection :: List.replicate 2 (.serve 0)) (by decide +kernel)

theorem commitUnacknowledged_applied :
    ¬ ∀ (x : Run (serveRequest swappedHash)) (r : Nat) (error : LedgerError) (retryAfter : Bool),
      x.last.answer r = some (.envelope error retryAfter) → ¬ x.last.CommittedBy r := by
  intro h
  refine h commitUnacknowledged 0 .unexpected false rfl ?_
  exact ⟨⟨0, ⟨⟨some "key", .account {}⟩, ⟨1, 2, 3⟩⟩, 0⟩, by
    have : commitUnacknowledged.last.server.history =
      [⟨0, ⟨⟨some "key", .account {}⟩, ⟨1, 2, 3⟩⟩, 0⟩] := rfl
    simp [this], rfl⟩

end Ledger
