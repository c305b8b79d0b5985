import Ledger.Conservation
import Ledger.Refinement

namespace Ledger

open Lib

/-- What an answer rests on. -/
inductive Grounds (sha256 : String → String) (es : List Event) (w : World) (r : Nat) (job : Job) :
    Response → Prop
  | lockTimeout {a : Response} : ¬ w.CommittedBy r → a.LockTimeout → Grounds sha256 es w r job a
  | upset {a : Response} : Disturbed es r → (w.CommittedBy r → Late sha256 es r) → a.Upset →
      Grounds sha256 es w r job a
  | lost : Disturbed es r → Grounds sha256 es w r job .lost
  | refused (e : LedgerError) : ¬ w.CommittedBy r → ¬ job.Admitted → e.Early →
      Grounds sha256 es w r job (.envelope e false)
  | decided {a : Response} (pre : List Event) (m : World) (clock : Timestamp) :
      ¬ w.CommittedBy r → ¬ a.Fresh → job.Admitted → Earlier sha256 es pre m → Current r pre m →
      atomic sha256 job clock m.server.committed = (m.server.committed, a) →
      Grounds sha256 es w r job a
  | earned (c : Commit) : c ∈ w.server.history → c.owner = r → c.job = job →
      Grounds sha256 es w r job (.outcome c.outcome)

variable {sha256 : String → String} {es pre : List Event} {w m : World} {r : Nat} {p : Party}
  {a : Response}

theorem Current.party (h : Current r pre m)
    (ran : run (World.step (serveRequest sha256)) World.init pre = some m) :
    ∃ p, m.party r = some p := by
  rcases h with ⟨p, c, k, hp, -⟩ | ⟨past, request, draws, rfl⟩
  · exact ⟨p, hp⟩
  · obtain ⟨m', -, hstep⟩ := run_snoc ran
    cases World.step_cases hstep with
    | arrived _ _ => exact ⟨_, World.put_self⟩
    | met _ hm => cases hm

theorem Inv.sequential_eq (ran : run (World.step (serveRequest sha256)) World.init es = some w)
    (hp : w.party r = some p) (admitted : p.job.Admitted) (hr : ¬ w.CommittedBy r)
    (clock : Timestamp) : sequential (serveRequest sha256) p.job clock w.server.committed =
      ((atomic sha256 p.job clock w.server.committed).1,
        .ok (atomic sha256 p.job clock w.server.committed).2) := by
  have inv := Inv.of_run ran
  refine sequential_eq_atomic sha256 clock admitted (inv.draws r p hp) (inv.fresh hp hr) ?_
  refine (Inv.books ran).unmoved (c := ⟨r, p.job, clock⟩) fun c hc => ?_
  obtain ⟨p', hp', hjob⟩ := inv.owners c hc
  exact hjob ▸ inv.disjoint c.owner p' r p hp' hp fun he => hr ⟨c, hc, he⟩

theorem Inv.job_eq (ran : run (World.step (serveRequest sha256)) World.init es = some w)
    (hm : Earlier sha256 es pre m) {old : Party} (hold : m.party r = some old)
    (hp : w.party r = some p) : old.job = p.job := by
  obtain ⟨rest, hrest⟩ := hm.rest ran
  obtain ⟨new, hnew, hjob⟩ := World.run_stays hrest hold
  cases hnew.symm.trans hp
  exact hjob.symm

theorem Inv.grounds (ran : run (World.step (serveRequest sha256)) World.init es = some w)
    (hp : w.party r = some p) (ha : w.answer r = some a) : Grounds sha256 es w r p.job a := by
  have inv := Inv.of_run ran
  rcases inv.answer hp ha with ⟨ht, hr⟩ | ⟨⟨hu, hl⟩ | rfl, hd⟩ | ⟨hr, hfresh, h⟩ | ⟨-, -, h⟩
  · exact .lockTimeout hr ht
  · exact .upset hd hl hu
  · exact .lost hd
  · obtain ⟨pre, m, clock, hm, hcurrent, hs⟩ := h
    by_cases admitted : p.job.Admitted
    · obtain ⟨old, hold⟩ := hcurrent.party hm.2
      have hjob := Inv.job_eq ran hm hold hp
      obtain ⟨rest, hrest⟩ := hm.rest ran
      have unowned : ¬ m.CommittedBy r := mt (World.run_committedBy hrest) hr
      rw [← hjob, Inv.sequential_eq hm.2 hold (hjob ▸ admitted) unowned, hjob] at hs
      obtain ⟨ht, ha⟩ := Prod.mk.inj hs
      exact .decided pre m clock hr hfresh admitted hm hcurrent (Prod.ext ht (Except.ok.inj ha))
    · obtain ⟨e, he, early⟩ := serveRequest_of_not_admitted sha256 admitted
      have : a = .envelope e false := by simpa [sequential, he, eq_comm] using congrArg Prod.snd hs
      exact this ▸ .refused e hr admitted early
  · obtain ⟨pre, m, c, hm, ⟨old, -, -, hold, -⟩, rfl, hj, hh, hs⟩ := h
    have hjob := Inv.job_eq ran hm hold hp
    have once : ¬ m.CommittedBy c.owner := by
      rintro ⟨c', hc', ho⟩
      have := inv.once.sublist ((hh.map Commit.owner).sublist)
      rw [List.map_append, List.nodup_append] at this
      exact this.2.2 _ (List.mem_map_of_mem hc') c.owner (by simp) ho
    obtain ⟨admitted, -, -, answer⟩ := (Inv.wellEarned ran).1 _ c hh
    rw [← (Inv.wellEarned hm.2).2, hj] at answer
    rw [← hjob, Inv.sequential_eq hm.2 hold (hjob ▸ hj ▸ admitted) once, hjob, answer] at hs
    exact Except.ok.inj hs ▸ .earned c (hh.subset (by simp)) rfl hj

/-- An error that comes from no wait, no fault and no check of the request is what the request,
served alone, got from the tables at one of its moments. -/
theorem Inv.decided (ran : run (World.step (serveRequest sha256)) World.init es = some w)
    (hp : w.party r = some p) {e : LedgerError} {retryAfter : Bool}
    (ha : w.answer r = some (.envelope e retryAfter))
    (waited : ∀ message, e ≠ .lockTimeout message) (upset : e ≠ .unexpected) (late : ¬ e.Early) :
    ¬ w.CommittedBy r ∧ p.job.Admitted ∧ ∃ pre m clock, Earlier sha256 es pre m ∧
      Current r pre m ∧ atomic sha256 p.job clock m.server.committed =
        (m.server.committed, .envelope e retryAfter) := by
  have grounds := Inv.grounds ran hp ha
  generalize ha' : Response.envelope e retryAfter = a at *
  cases grounds with
  | lockTimeout _ h =>
    obtain ⟨message, rfl⟩ := h
    cases ha'
    exact (waited message rfl).elim
  | upset _ _ h =>
    rcases h with rfl | rfl <;> cases ha'
    exact (upset rfl).elim
  | lost _ => cases ha'
  | refused e' _ _ early =>
    cases ha'
    exact (late early).elim
  | decided pre m clock hr _ admitted hm hcurrent hs =>
    exact ⟨hr, admitted, pre, m, clock, hm, hcurrent, hs⟩
  | earned c _ _ _ => cases ha'

end Ledger
