import Ledger.Calls
import Ledger.Deadlock

namespace Ledger

open Lib

section run

variable {sha256 : String → String} {es : List Event} {w w' : World} {e : Event} {r : Nat}

def Session.cost : Session → Nat
  | .active _ => 1
  | _ => 0

theorem Session.cost_le (session : Session) : session.cost ≤ 1 := by
  cases session <;> simp [cost]

/-- What a request can still do: its calls, each of which may open a transaction, and to lose the
one it is in. -/
def Party.Affords (p : Party) (n : Nat) : Prop :=
  ∃ calls, AtMost p.job p.prog calls ∧ 2 * calls + p.session.cost ≤ n

theorem Party.Affords.closed {p : Party} {n : Nat} (h : p.Affords n) : p.closed.Affords n := by
  obtain ⟨calls, hcalls, hn⟩ := h
  refine ⟨calls, by rwa [closed_prog, closed_job], ?_⟩
  unfold Party.closed
  split
  · exact hn
  · simp only [Session.cost]
    omega

def maxSteps : Nat := 39

def World.Affords (r : Nat) (w : World) (n : Nat) : Prop :=
  w.party r = none ∧ maxSteps ≤ n ∨ ∃ p, w.party r = some p ∧ p.Affords n

namespace World

theorem Stepped.pays (h : w.Stepped (serveRequest sha256) e w') (hr : e.actor = some r) {n : Nat}
    (ha : w.Affords r n) : ∃ m < n, w'.Affords r m := by
  have spent {p : Party} {server : Server} {w : World} {m : Nat} (hm : m < n) (hp : p.Affords m) :
      ∃ m < n, (w.put r p server).Affords r m := ⟨m, hm, .inr ⟨_, put_self, hp.closed⟩⟩
  cases h with
  | arrived absent _ =>
    cases hr
    obtain ⟨-, hn⟩ | ⟨p, hp, -⟩ := ha
    · refine spent hn ⟨19, serveRequest_atMost sha256 _, ?_⟩
      simp [Session.cost]
    · rw [absent] at hp
      cases hp
  | @met e r' job c k session session' server reply hp hm =>
    obtain rfl := hm.eq_of_actor hr
    obtain ⟨absent, -⟩ | ⟨p, hp', ⟨_ | calls, hcalls, hn⟩⟩ := ha
    · rw [absent] at hp
      cases hp
    · cases hp.symm.trans hp'
      exact hcalls.elim
    · cases hp.symm.trans hp'
      refine spent (m := 2 * calls + 1) (by omega) ⟨calls, hcalls.2 reply, ?_⟩
      have := session'.cost_le
      dsimp only
      omega
  | @killed r' job prog tx hp =>
    cases hr
    obtain ⟨absent, -⟩ | ⟨p, hp', ⟨calls, hcalls, hn⟩⟩ := ha
    · rw [absent] at hp
      cases hp
    · cases hp.symm.trans hp'
      exact ⟨2 * calls, hn, .inr ⟨_, Function.update_self .., calls, hcalls, le_refl _⟩⟩
  | @crashed r' job c k session hp =>
    cases hr
    obtain ⟨absent, -⟩ | ⟨p, hp', ⟨_ | calls, hcalls, hn⟩⟩ := ha
    · rw [absent] at hp
      cases hp
    · cases hp.symm.trans hp'
      exact hcalls.elim
    · cases hp.symm.trans hp'
      refine spent (m := 2 * calls + 1) (by omega) ⟨0, trivial, ?_⟩
      have := session.cost_le
      dsimp only
      omega
  | ticked d => cases hr

theorem run_steps (ran : run (World.step (serveRequest sha256)) World.init es = some w) (r : Nat) :
    (es.filter (·.actor = some r)).length ≤ maxSteps := by
  obtain ⟨m, -, hm⟩ := run_budget (fun e : Event => decide (e.actor = some r)) (World.Affords r)
    (fun w e w' n hstep he ha => (step_cases hstep).pays (of_decide_eq_true he) ha)
    (fun w e w' n hstep he ha => by
      have := ((step_cases hstep).other (q := r) (by simpa using he)).1
      simpa only [World.Affords, this] using ha)
    ran (.inl ⟨rfl, le_refl _⟩)
  omega

end World

theorem Phase.not_raise {job : Job} {t : Tables} {holds : List Resource → Prop} {g : Record}
    {prog : App Response} {session : Session} (h : Phase sha256 job t holds g prog session)
    (x : Exn) : prog ≠ .raise x := by
  intro hp
  have finished : Phase sha256 job t (fun _ => False) g prog session :=
    h.finished (by simp [hp]) session
  cases finished with
  | reading _ _ hh => exact hh
  | missed _ _ _ hh => exact hh
  | claiming _ _ hh => exact hh
  | working _ _ hh _ _ => exact hh
  | severed _ hh _ _ _ => exact hh
  | losing _ _ _ hh _ => exact hh
  | rereading _ _ hh _ => exact hh
  | settling _ _ hs _ =>
    rw [hp] at hs
    exact hs
  | upset _ hu _ _ =>
    rw [hp] at hu
    exact hu
  | lost _ _ => cases hp

theorem Inv.answered (inv : Inv sha256 es w) {p : Party} (hp : w.party r = some p)
    (done : ¬ w.Serving r) : ∃ a, w.answer r = some a := by
  cases hprog : p.prog with
  | call c k => exact (done ⟨p, c, k, hp, hprog⟩).elim
  | pure a => exact ⟨a, World.answer_eq.mpr ⟨p, hp, hprog⟩⟩
  | raise x => exact ((inv.phases r p hp).not_raise x hprog).elim

theorem Inv.all_answered (inv : Inv sha256 es w)
    (ran : run (World.step (serveRequest sha256)) World.init es = some w)
    (still : ∀ q, w.step (serveRequest sha256) (.serve q) = none) {p : Party}
    (hp : w.party r = some p) : ∃ a, w.answer r = some a := by
  refine inv.answered hp fun serving => ?_
  obtain ⟨q, w', -, hq⟩ := inv.progress ran serving
  cases (still q).symm.trans hq

namespace World

theorem party_of_served {app : Job → App Response} {more : List Event}
    (ran : run (World.step app) w more = some w') (served : .serve r ∈ more) :
    ∃ p, w'.party r = some p := by
  obtain ⟨before, after, rfl⟩ := List.append_of_mem served
  rw [run_append, Option.bind_eq_some_iff] at ran
  obtain ⟨m, -, ran⟩ := ran
  obtain ⟨m', hstep, rest⟩ := Option.bind_eq_some_iff.mp ran
  obtain ⟨job, c, k, session, server, session', reply, -, -, rfl⟩ := call_cases hstep
  obtain ⟨p, hp, -⟩ := run_stays rest put_self
  exact ⟨p, hp⟩

theorem serve_bounded (ran : run (World.step (serveRequest sha256)) World.init es = some w) :
    ∃ bound, ∀ more w', run (World.step (serveRequest sha256)) w more = some w' →
      (∀ e ∈ more, ∃ q, e = .serve q) → more.length ≤ bound := by
  refine ⟨(es.map Event.actor).toFinset.card * maxSteps, fun more w' hmore serves => ?_⟩
  have whole := run_concat ran hmore
  refine length_le_of_count_le (f := Event.actor) (fun e he => ?_) fun actor => ?_
  · obtain ⟨q, rfl⟩ := serves e he
    obtain ⟨p, hp⟩ := party_of_served hmore he
    obtain ⟨request, draws, harrive⟩ := arrived_of_party whole hp
    rcases List.mem_append.mp harrive with harrive | harrive
    · exact List.mem_toFinset.mpr (List.mem_map.mpr ⟨_, harrive, rfl⟩)
    · obtain ⟨q', hq'⟩ := serves _ harrive
      cases hq'
  · cases actor with
    | none =>
      have : more.filter (·.actor = none) = [] := by
        refine List.filter_eq_nil_iff.mpr fun e he => ?_
        obtain ⟨q, rfl⟩ := serves e he
        simp [Event.actor]
      simp [this]
    | some q =>
      refine le_trans ?_ (run_steps whole q)
      rw [List.filter_append, List.length_append]
      exact Nat.le_add_left _ _

end World

theorem every_request_ends (x : Run (serveRequest sha256)) :
    (∀ r, (x.events.filter (·.actor = some r)).length ≤ maxSteps) ∧
    ((∀ q, x.last.step (serveRequest sha256) (.serve q) = none) →
      ∀ r p, x.last.party r = some p → ∃ a, x.last.answer r = some a) ∧
    ∃ more w', run (World.step (serveRequest sha256)) x.last more = some w' ∧
      (∀ e ∈ more, ∃ q, e = .serve q) ∧
        ∀ r p, w'.party r = some p → ∃ a, w'.answer r = some a := by
  refine ⟨World.run_steps x.ran, fun still r p hp =>
    (Inv.of_run x.ran).all_answered x.ran still hp, ?_⟩
  obtain ⟨bound, bounded⟩ := World.serve_bounded x.ran
  obtain ⟨more, w', ran, serves, final⟩ := exists_maximal bounded
  have whole := run_concat x.ran ran
  exact ⟨more, w', ran, serves, fun r p hp =>
    (Inv.of_run whole).all_answered whole (fun q => final _ ⟨q, rfl⟩) hp⟩

end run

end Ledger
