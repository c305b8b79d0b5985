import Ledger.World

namespace Ledger

open Lib

namespace Server

variable {s s' : Server} {me : Nat} {job : Job} {session session' : Session} {c : Call}
  {reply : Except Exn c.Reply}

@[simp] theorem release_committed : (s.release me).committed = s.committed := rfl

@[simp] theorem release_history : (s.release me).history = s.history := rfl

@[simp] theorem release_clock : (s.release me).clock = s.clock := rfl

theorem release_of_holds_nil (free : s.locks.Holds me []) : s.release me = s := by
  simp [release, Locks.release_of_holds_nil free]

theorem exec_other (h : s.exec me job session c = some (s', session', reply)) {o : Nat}
    (ho : o ≠ me) (x : Resource) : s'.locks x = some o ↔ s.locks x = some o := by
  unfold exec at h
  cases he : s.committed.effect s.clock session c with
  | locked y tx rep =>
    rw [he] at h
    obtain ⟨locks, hl, h⟩ := Option.map_eq_some_iff.mp h
    cases h
    exact Locks.acquire_other hl ho x
  | stay rep => rw [he] at h; cases h; rfl
  | done tx rep => rw [he] at h; cases h; rfl
  | failed e => rw [he] at h; cases h; exact Locks.release_other ho x
  | committed tx rep => rw [he] at h; cases h; exact Locks.release_other ho x
  | rolledBack rep => rw [he] at h; cases h; exact Locks.release_other ho x

theorem exec_clock (h : s.exec me job session c = some (s', session', reply)) :
    s'.clock = s.clock := by
  unfold exec at h
  cases he : s.committed.effect s.clock session c with
  | locked y tx rep =>
    rw [he] at h
    obtain ⟨locks, -, h⟩ := Option.map_eq_some_iff.mp h
    cases h
    rfl
  | _ => rw [he] at h; cases h; rfl

theorem exec_committed (h : s.exec me job session c = some (s', session', reply)) :
    s'.committed = s.committed ∧ s'.history = s.history ∨
    ∃ tx rep, s.committed.effect s.clock session c = .committed tx rep ∧
      s'.committed = s.committed.view tx ∧ s'.history = s.history ++ [⟨me, job, tx.startedAt⟩] := by
  unfold exec at h
  cases he : s.committed.effect s.clock session c with
  | locked y tx rep =>
    rw [he] at h
    obtain ⟨locks, -, h⟩ := Option.map_eq_some_iff.mp h
    cases h
    exact .inl ⟨rfl, rfl⟩
  | committed tx rep => rw [he] at h; cases h; exact .inr ⟨tx, rep, rfl, rfl, rfl⟩
  | _ => rw [he] at h; cases h; exact .inl ⟨rfl, rfl⟩

theorem exec_eq_none : s.exec me job session c = none ↔ ∃ x tx rep,
    s.committed.effect s.clock session c = .locked x tx rep ∧ ∃ o ≠ me, s.locks x = some o := by
  unfold exec
  cases s.committed.effect s.clock session c with
  | locked x tx rep => simp [Locks.acquire_eq_none]
  | _ => simp

end Server

namespace Party

def closed (p : Party) : Party :=
  match p.prog with
  | .call _ _ => p
  | _ => { p with session := .idle }

@[simp] theorem closed_job (p : Party) : p.closed.job = p.job := by
  unfold closed
  split <;> rfl

@[simp] theorem closed_prog (p : Party) : p.closed.prog = p.prog := by
  unfold closed
  split <;> rfl

theorem closed_of_call {p : Party} {c : Call} {k : Except Exn c.Reply → App Response}
    (h : p.prog = .call c k) : p.closed = p := by
  unfold closed
  rw [h]

end Party

namespace World

variable {w : World} {r : Nat} {p : Party} {server : Server}

theorem put_party (w : World) (r : Nat) (p : Party) (server : Server) :
    (w.put r p server).party = Function.update w.party r (some p.closed) := by
  unfold put Party.closed
  split <;> simp_all

@[simp] theorem put_self : (w.put r p server).party r = some p.closed := by simp [put_party]

theorem put_other {q : Nat} (h : q ≠ r) : (w.put r p server).party q = w.party q := by
  simp [put_party, h]

@[simp] theorem put_committed : (w.put r p server).server.committed = server.committed := by
  unfold put
  split <;> rfl

@[simp] theorem put_history : (w.put r p server).server.history = server.history := by
  unfold put
  split <;> rfl

@[simp] theorem put_clock : (w.put r p server).server.clock = server.clock := by
  unfold put
  split <;> rfl

@[simp] theorem put_drawn : (w.put r p server).drawn = w.drawn := by
  unfold put
  split <;> rfl

theorem put_call {c : Call} {k : Except Exn c.Reply → App Response} (h : p.prog = .call c k) :
    (w.put r p server).server = server := by
  unfold put
  rw [h]

theorem put_finished (h : ∀ c k, p.prog ≠ .call c k) :
    (w.put r p server).server = server.release r := by
  unfold put
  split
  · next c k hp => exact (h c k hp).elim
  · rfl

theorem put_locks_other {q : Nat} (h : q ≠ r) (x : Resource) :
    (w.put r p server).server.locks x = some q ↔ server.locks x = some q := by
  unfold put
  split
  · rfl
  · exact Locks.release_other h x

@[simp] theorem put_put {p' : Party} {server' : Server} :
    (w.put r p server).put r p' server' = w.put r p' server' := by
  unfold put
  split <;> split <;> simp

theorem put_eq_self {job : Job} {c : Call} {k : Except Exn c.Reply → App Response}
    {session : Session} (hp : w.party r = some ⟨job, .call c k, session⟩) :
    w.put r ⟨job, .call c k, session⟩ w.server = w := by
  have := Function.update_eq_self r w.party
  rw [hp] at this
  simp only [put, this]

theorem answer_eq {a : Response} :
    w.answer r = some a ↔ ∃ p, w.party r = some p ∧ p.prog = .pure a := by
  simp only [answer, Option.bind_eq_some_iff]
  refine exists_congr fun p => and_congr_right fun _ => ?_
  split <;> simp_all

inductive Met (w : World) (r : Nat) (job : Job) (session : Session) (c : Call) :
    Event → Server → Session → Except Exn c.Reply → Prop
  | served {server : Server} {session' : Session} {reply : Except Exn c.Reply} :
      w.server.exec r job session c = some (server, session', reply) →
      Met w r job session c (.serve r) server session' reply
  | timedOut : w.server.exec r job session c = none →
      Met w r job session c (.timeout r) (w.server.release r) .broken
        (.error (.operational (some .lockNotAvailable)))
  | deadlocked {cycle : List Nat} : w.server.exec r job session c = none →
      (r :: (cycle ++ [r])).IsChain w.WaitsFor →
      Met w r job session c (.deadlock r cycle) (w.server.release r) .broken
        (.error (.operational (some .deadlockDetected)))
  | failedBefore (fault : Fault) :
      Met w r job session c (.failBefore r fault) w.server session (.error fault.exn)
  | failedAfter {server : Server} {session' : Session} {reply : Except Exn c.Reply}
      (fault : Fault) : w.server.exec r job session c = some (server, session', reply) →
      Met w r job session c (.failAfter r fault) server session' (.error fault.exn)

inductive Stepped (app : Job → App Response) (w : World) : Event → World → Prop
  | arrived {r : Nat} {request : Request} {draws : Draws} : w.party r = none →
      (w.drawn ++ draws.toList).Nodup →
      Stepped app w (.arrive r request draws) ({ w with drawn := w.drawn ++ draws.toList }.put r
        ⟨⟨request, draws⟩, app ⟨request, draws⟩, .idle⟩ w.server)
  | met {e : Event} {r : Nat} {job : Job} {c : Call} {k : Except Exn c.Reply → App Response}
      {session session' : Session} {server : Server} {reply : Except Exn c.Reply} :
      w.party r = some ⟨job, .call c k, session⟩ → w.Met r job session c e server session' reply →
      Stepped app w e (w.put r ⟨job, k reply, session'⟩ server)
  | killed {r : Nat} {job : Job} {prog : App Response} {tx : Tx} :
      w.party r = some ⟨job, prog, .active tx⟩ →
      Stepped app w (.kill r)
        { w with
          server := w.server.release r
          party := Function.update w.party r (some ⟨job, prog, .broken⟩) }
  | crashed {r : Nat} {job : Job} {c : Call} {k : Except Exn c.Reply → App Response}
      {session : Session} : w.party r = some ⟨job, .call c k, session⟩ →
      Stepped app w (.crash r) (w.put r ⟨job, .pure .lost, session⟩ w.server)
  | ticked (d : Nat) : Stepped app w (.tick d)
      { w with server := { w.server with clock := w.server.clock + d } }

theorem call_cases {reaction : (job : Job) → (session : Session) → (c : Call) →
      Option (Server × Session × Except Exn c.Reply)} {w' : World}
    (h : w.call r reaction = some w') : ∃ job c k session server session' reply,
      w.party r = some ⟨job, .call c k, session⟩ ∧
      reaction job session c = some (server, session', reply) ∧
      w' = w.put r ⟨job, k reply, session'⟩ server := by
  unfold call at h
  split at h
  · next job c k session hp =>
    obtain ⟨⟨server, session', reply⟩, hr, h⟩ := Option.map_eq_some_iff.mp h
    exact ⟨job, c, k, session, server, session', reply, hp, hr, h.symm⟩
  · cases h

variable {app : Job → App Response} {w' : World} {e : Event}

theorem step_cases (h : w.step app e = some w') : w.Stepped app e w' := by
  cases e with
  | arrive r request draws =>
    simp only [step, Option.ite_none_right_eq_some, Option.some.injEq] at h
    obtain ⟨⟨absent, fresh⟩, rfl⟩ := h
    exact .arrived absent fresh
  | serve r =>
    obtain ⟨job, c, k, session, server, session', reply, hp, hr, rfl⟩ := call_cases h
    exact .met hp (.served hr)
  | timeout r =>
    obtain ⟨job, c, k, session, server, session', reply, hp, hr, rfl⟩ := call_cases h
    simp only [Option.ite_none_right_eq_some, Option.isNone_iff_eq_none, Option.some.injEq] at hr
    obtain ⟨blocked, hr⟩ := hr
    cases hr
    exact .met hp (.timedOut blocked)
  | deadlock r cycle =>
    obtain ⟨job, c, k, session, server, session', reply, hp, hr, rfl⟩ := call_cases h
    simp only [Option.ite_none_right_eq_some, Option.isNone_iff_eq_none, Option.some.injEq] at hr
    obtain ⟨⟨blocked, chain⟩, hr⟩ := hr
    cases hr
    exact .met hp (.deadlocked blocked chain)
  | failBefore r fault =>
    obtain ⟨job, c, k, session, server, session', reply, hp, hr, rfl⟩ := call_cases h
    cases hr
    exact .met hp (.failedBefore fault)
  | failAfter r fault =>
    obtain ⟨job, c, k, session, server, session', reply, hp, hr, rfl⟩ := call_cases h
    obtain ⟨⟨server', session'', reply'⟩, hx, hr⟩ := Option.map_eq_some_iff.mp hr
    cases hr
    exact .met hp (.failedAfter fault hx)
  | kill r =>
    simp only [step] at h
    split at h
    · next hp =>
      cases h
      exact .killed hp
    · cases h
  | crash r =>
    simp only [step] at h
    split at h
    · next hp =>
      cases h
      exact .crashed hp
    · cases h
  | tick d =>
    cases h
    exact .ticked d

theorem step_of_stepped (h : w.Stepped app e w') : w.step app e = some w' := by
  cases h with
  | arrived absent fresh => simp [step, absent, fresh]
  | met hp hm =>
    cases hm with
    | served hx => simp [step, call, hp, hx]
    | timedOut hx => simp [step, call, hp, hx]
    | deadlocked hx chain => simp [step, call, hp, hx, chain]
    | failedBefore fault => simp [step, call, hp]
    | failedAfter fault hx => simp [step, call, hp, hx]
  | killed hp => simp [step, hp]
  | crashed hp => simp [step, hp]
  | ticked d => rfl

variable {q : Nat}

theorem Met.actor {job : Job} {session session' : Session} {c : Call} {reply : Except Exn c.Reply}
    (h : w.Met r job session c e server session' reply) : e.actor = some r := by
  cases h <;> rfl

theorem Met.eq_of_actor {job : Job} {session session' : Session} {c : Call}
    {reply : Except Exn c.Reply} (h : w.Met r job session c e server session' reply)
    (hq : e.actor = some q) : r = q :=
  Option.some.inj (h.actor.symm.trans hq)

theorem Met.other {job : Job} {session session' : Session} {c : Call} {reply : Except Exn c.Reply}
    (h : w.Met r job session c e server session' reply) (hne : q ≠ r) (x : Resource) :
    server.locks x = some q ↔ w.server.locks x = some q := by
  cases h with
  | served hx => exact Server.exec_other hx hne x
  | timedOut _ => exact Locks.release_other hne x
  | deadlocked _ _ => exact Locks.release_other hne x
  | failedBefore _ => exact Iff.rfl
  | failedAfter _ hx => exact Server.exec_other hx hne x

theorem Stepped.other {app : Job → App Response} (h : w.Stepped app e w')
    (hq : e.actor ≠ some q) :
    w'.party q = w.party q ∧ ∀ x, w'.server.locks x = some q ↔ w.server.locks x = some q := by
  cases h with
  | @arrived r request draws _ _ =>
    have hne : q ≠ r := fun he => hq (by simp [Event.actor, he])
    exact ⟨put_other hne, put_locks_other hne⟩
  | @met e r job c k session session' server reply hp hm =>
    have hne : q ≠ r := fun h => hq (h ▸ hm.actor)
    exact ⟨put_other hne, fun x => (put_locks_other hne x).trans (hm.other hne x)⟩
  | @killed r job prog tx _ =>
    have hne : q ≠ r := fun he => hq (by simp [Event.actor, he])
    exact ⟨Function.update_of_ne hne _ _, Locks.release_other hne⟩
  | @crashed r job c k session _ =>
    have hne : q ≠ r := fun he => hq (by simp [Event.actor, he])
    exact ⟨put_other hne, put_locks_other hne⟩
  | ticked d => exact ⟨rfl, fun _ => Iff.rfl⟩

theorem Stepped.party {app : Job → App Response} (h : w.Stepped app e w') {p : Party}
    (hp : w'.party q = some p) : (∃ old, w.party q = some old ∧ old.job = p.job) ∨
      ∃ request draws, e = .arrive q request draws ∧ p.job = ⟨request, draws⟩ ∧
        w'.drawn = w.drawn ++ draws.toList ∧ (w.drawn ++ draws.toList).Nodup := by
  by_cases hq : e.actor = some q
  · cases h with
    | arrived absent fresh =>
      cases hq
      rw [put_self] at hp
      cases hp
      exact .inr ⟨_, _, rfl, by simp, by simp, fresh⟩
    | @met e r job c k session session' server reply hp' hm =>
      obtain rfl := hm.eq_of_actor hq
      rw [put_self] at hp
      cases hp
      exact .inl ⟨_, hp', by simp⟩
    | killed hp' =>
      cases hq
      simp only [Function.update_self, Option.some.injEq] at hp
      cases hp
      exact .inl ⟨_, hp', rfl⟩
    | crashed hp' =>
      cases hq
      rw [put_self] at hp
      cases hp
      exact .inl ⟨_, hp', by simp⟩
    | ticked d => cases hq
  · rw [(h.other hq).1] at hp
    exact .inl ⟨p, hp, rfl⟩

theorem Stepped.drawn {app : Job → App Response} (h : w.Stepped app e w') :
    w.drawn <+: w'.drawn := by
  cases h with
  | arrived _ _ =>
    rw [put_drawn]
    exact List.prefix_append _ _
  | met _ _ => rw [put_drawn]
  | killed _ => exact List.prefix_rfl
  | crashed _ => rw [put_drawn]
  | ticked _ => exact List.prefix_rfl

theorem Stepped.stays {app : Job → App Response} (h : w.Stepped app e w') {p : Party}
    (hp : w.party q = some p) : ∃ new, w'.party q = some new ∧ new.job = p.job := by
  by_cases hq : e.actor = some q
  · cases h with
    | arrived absent _ =>
      cases hq
      rw [absent] at hp
      cases hp
    | @met e r job c k session session' server reply hp' hm =>
      obtain rfl := hm.eq_of_actor hq
      cases hp'.symm.trans hp
      exact ⟨_, put_self, by simp⟩
    | killed hp' =>
      cases hq
      cases hp'.symm.trans hp
      exact ⟨_, Function.update_self .., rfl⟩
    | crashed hp' =>
      cases hq
      cases hp'.symm.trans hp
      exact ⟨_, put_self, by simp⟩
    | ticked d => cases hq
  · exact ⟨p, (h.other hq).1.trans hp, rfl⟩

theorem Stepped.clock {app : Job → App Response} (h : w.Stepped app e w') (hq : e.actor = some q) :
    w'.server.clock = w.server.clock := by
  cases h with
  | arrived _ _ => exact put_clock
  | met _ hm =>
    rw [put_clock]
    cases hm with
    | served hx => exact Server.exec_clock hx
    | timedOut _ => rfl
    | deadlocked _ _ => rfl
    | failedBefore _ => rfl
    | failedAfter _ hx => exact Server.exec_clock hx
  | killed _ => rfl
  | crashed _ => exact put_clock
  | ticked _ => cases hq

theorem Stepped.history {app : Job → App Response} (h : w.Stepped app e w') :
    w.server.history <+: w'.server.history := by
  have executed {r : Nat} {job : Job} {session session' : Session} {c : Call} {server : Server}
      {reply : Except Exn c.Reply}
      (hx : w.server.exec r job session c = some (server, session', reply)) :
      w.server.history <+: server.history := by
    rcases Server.exec_committed hx with ⟨-, hh⟩ | ⟨tx, rep, -, -, hh⟩
    · rw [hh]
    · exact hh ▸ List.prefix_append _ _
  cases h with
  | arrived _ _ => rw [put_history]
  | met _ hm =>
    rw [put_history]
    cases hm with
    | served hx => exact executed hx
    | timedOut _ => exact List.prefix_rfl
    | deadlocked _ _ => exact List.prefix_rfl
    | failedBefore _ => exact List.prefix_rfl
    | failedAfter _ hx => exact executed hx
  | killed _ => exact List.prefix_rfl
  | crashed _ => rw [put_history]
  | ticked _ => exact List.prefix_rfl

theorem Stepped.pending {app : Job → App Response} (h : w.Stepped app e w') {job : Job} {c : Call}
    {k : Except Exn c.Reply → App Response} {session : Session}
    (hp : w.party q = some ⟨job, .call c k, session⟩) (hq : e.actor = some q) :
    (∃ server session' reply, w.Met q job session c e server session' reply ∧
        w' = w.put q ⟨job, k reply, session'⟩ server) ∨
      (e = .crash q ∧ w' = w.put q ⟨job, .pure .lost, session⟩ w.server) ∨
      e = .kill q ∧ ∃ tx, session = .active tx := by
  cases h with
  | arrived absent _ =>
    cases hq
    rw [absent] at hp
    cases hp
  | met hp' hm =>
    obtain rfl := hm.eq_of_actor hq
    cases hp.symm.trans hp'
    exact .inl ⟨_, _, _, hm, rfl⟩
  | @killed r job prog tx hp' =>
    cases hq
    cases hp.symm.trans hp'
    exact .inr (.inr ⟨rfl, tx, rfl⟩)
  | crashed hp' =>
    cases hq
    cases hp.symm.trans hp'
    exact .inr (.inl ⟨rfl, rfl⟩)
  | ticked d => cases hq

theorem Stepped.answer {app : Job → App Response} (h : w.Stepped app e w') {p : Party}
    {a : Response} (hp : w.party q = some p) (ha : p.prog = .pure a) :
    ∃ new, w'.party q = some new ∧ new.job = p.job ∧ new.prog = .pure a := by
  by_cases hq : e.actor = some q
  · cases h with
    | arrived absent _ =>
      cases hq
      rw [absent] at hp
      cases hp
    | @met e r job c k session session' server reply hp' hm =>
      obtain rfl := hm.eq_of_actor hq
      cases hp'.symm.trans hp
      cases ha
    | killed hp' =>
      cases hq
      cases hp'.symm.trans hp
      exact ⟨_, Function.update_self .., rfl, ha⟩
    | crashed hp' =>
      cases hq
      cases hp'.symm.trans hp
      cases ha
    | ticked d => cases hq
  · exact ⟨p, (h.other hq).1.trans hp, rfl, ha⟩

theorem Stepped.released {app : Job → App Response} (h : w.Stepped app e w')
    (hw : ∀ r x, w.server.locks x = some r → w.Serving r) {x : Resource}
    (hx : w'.server.locks x = some q) : w'.Serving q := by
  by_cases hq : e.actor = some q
  · have serving (p : Party) (server : Server) (w : World)
        (hx : (w.put q p server).server.locks x = some q) : (w.put q p server).Serving q := by
      cases hp : p.prog with
      | call c k => exact ⟨_, c, k, put_self, by simp [hp]⟩
      | pure a =>
        rw [put_finished (by simp [hp])] at hx
        exact (Locks.release_self _ _ _ hx).elim
      | raise e =>
        rw [put_finished (by simp [hp])] at hx
        exact (Locks.release_self _ _ _ hx).elim
    cases h with
    | arrived absent _ =>
      cases hq
      exact serving _ _ _ hx
    | @met e r job c k session session' server reply hp' hm =>
      obtain rfl := hm.eq_of_actor hq
      exact serving _ _ _ hx
    | killed hp' =>
      cases hq
      exact (Locks.release_self _ _ _ hx).elim
    | crashed hp' =>
      cases hq
      exact serving _ _ _ hx
    | ticked d => cases hq
  · obtain ⟨p, c, k, hp, hk⟩ := hw q x (((h.other hq).2 x).mp hx)
    exact ⟨p, c, k, (h.other hq).1.trans hp, hk⟩

theorem arrived_of_party {es : List Event} (ran : run (World.step app) World.init es = some w)
    {p : Party} (hp : w.party q = some p) : ∃ request draws, .arrive q request draws ∈ es := by
  refine run_induction (P := fun es w => ∀ p, w.party q = some p →
    ∃ request draws, .arrive q request draws ∈ es) (by simp [init]) ?_ ran p hp
  intro es m e m' _ ih hstep p hp
  rcases (step_cases hstep).party hp with ⟨old, hold, -⟩ | ⟨request, draws, rfl, -⟩
  · obtain ⟨request, draws, h⟩ := ih old hold
    exact ⟨request, draws, List.mem_append_left _ h⟩
  · exact ⟨request, draws, by simp⟩

section run

variable {es : List Event} (ran : run (World.step app) w es = some w')

include ran

theorem run_stays {p : Party} (hp : w.party q = some p) :
    ∃ new, w'.party q = some new ∧ new.job = p.job := by
  refine run_induction (P := fun _ m => ∃ new, m.party q = some new ∧ new.job = p.job)
    ⟨p, hp, rfl⟩ ?_ ran
  rintro _ m e m' - ⟨new, hnew, hj⟩ hstep
  obtain ⟨new', hnew', hj'⟩ := (step_cases hstep).stays hnew
  exact ⟨new', hnew', hj'.trans hj⟩

theorem run_history : w.server.history <+: w'.server.history :=
  run_induction (P := fun _ m => w.server.history <+: m.server.history) List.prefix_rfl
    (fun _ _ _ _ _ h hstep => h.trans (step_cases hstep).history) ran

theorem run_committedBy (h : w.CommittedBy q) : w'.CommittedBy q := by
  obtain ⟨c, hc, ho⟩ := h
  exact ⟨c, (run_history ran).subset hc, ho⟩

theorem run_answer {p : Party} {a : Response} (hp : w.party q = some p) (ha : p.prog = .pure a) :
    ∃ new, w'.party q = some new ∧ new.job = p.job ∧ new.prog = .pure a := by
  refine run_induction (P := fun _ m => ∃ new, m.party q = some new ∧ new.job = p.job ∧
    new.prog = .pure a) ⟨p, hp, rfl, ha⟩ ?_ ran
  rintro _ m e m' - ⟨new, hnew, hj, ha⟩ hstep
  obtain ⟨new', hnew', hj', ha'⟩ := (step_cases hstep).answer hnew ha
  exact ⟨new', hnew', hj'.trans hj, ha'⟩

end run

end World

end Ledger
