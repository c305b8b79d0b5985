import Ledger.ExactlyOnce
import Ledger.Influence

namespace Ledger

open Lib

/-! Two variants of the service side by side. -/

def Tables.KeepsKeys (t t' : Tables) : Prop :=
  ∀ key row, t.key? key = some row → t'.key? key = some row

theorem Tables.KeepsKeys.refl (t : Tables) : t.KeepsKeys t := fun _ _ h => h

theorem Books.keepsKeys {sha256 : String → String} {history history' : List Commit}
    {t t' : Tables} (b : Books sha256 history t) (b' : Books sha256 history' t')
    (h : history <+: history') : t.KeepsKeys t' := by
  intro key row hrow
  obtain ⟨c, hc, rfl, rfl⟩ := b.commit_of_key hrow
  exact b'.key_of_commit (h.subset hc)

abbrev Tail (prog : App Response) : Prop :=
  prog.Within Call.Quiet Exn.Raised fun _ => True

theorem handleException_tail (fault : Fault) : Tail (handleException fault.exn) := by
  rw [handleException_fault]
  exact ⟨trivial, fun _ => trivial, fun _ _ => trivial⟩

namespace World

variable {app : Job → App Response} {w w' : World} {q : Nat} {p p' : Party}
  {server server' : Server} {job : Job} {c : Call} {k : Except Exn c.Reply → App Response}
  {session session' : Session} {reply : Except Exn c.Reply} {e : Event}

theorem put_server : (w'.put q p server).server = (w.put q p server).server := by
  unfold put
  split <;> rfl

theorem Met.congr (h : w.Met q job session c e server session' reply)
    (hs : w'.server = w.server) (he : ∀ cycle, e ≠ .deadlock q cycle) :
    w'.Met q job session c e server session' reply := by
  cases h with
  | served hx => exact .served (hs ▸ hx)
  | timedOut hx => exact hs ▸ .timedOut (hs ▸ hx)
  | @deadlocked cycle _ _ => exact (he cycle rfl).elim
  | failedBefore fault => exact hs ▸ .failedBefore fault
  | failedAfter fault hx => exact .failedAfter fault (hs ▸ hx)

theorem step_put (h : w.Met q job session c e server' session' reply) (hs : w.server = server)
    (he : ∀ cycle, e ≠ .deadlock q cycle) :
    (w'.put q ⟨job, .call c k, session⟩ server).step app e =
      some (w'.put q ⟨job, k reply, session'⟩ server') := by
  have met : (w'.put q ⟨job, .call c k, session⟩ server).Met q job session c e server' session'
      reply := h.congr ((put_call rfl).trans hs.symm) he
  have hp :
      (w'.put q ⟨job, .call c k, session⟩ server).party q = some ⟨job, .call c k, session⟩ := by
    rw [put_self, Party.closed_of_call rfl]
  have stepped : (w'.put q ⟨job, .call c k, session⟩ server).Stepped app e _ := .met hp met
  simpa using step_of_stepped stepped

section reach

variable {w₁ : World}

theorem reaches_serve (hx : server.exec q job session c = some (server', session', reply))
    (rest : Reaches (World.step app) (w'.put q ⟨job, k reply, session'⟩ server') w₁) :
    Reaches (World.step app) (w'.put q ⟨job, .call c k, session⟩ server) w₁ :=
  .head (step_put (w := { World.init with server }) (.served hx) rfl (by simp)) rest

theorem reaches_fail (fault : Fault)
    (rest : Reaches (World.step app) (w'.put q ⟨job, k (.error fault.exn), session⟩ server) w₁) :
    Reaches (World.step app) (w'.put q ⟨job, .call c k, session⟩ server) w₁ :=
  .head (step_put (w := { World.init with server }) (.failedBefore fault) rfl (by simp)) rest

end reach

theorem observe_commits_eq_nil {es : List Event} (ran : run (World.step app) w es = some w')
    (h : w'.server.history = w.server.history) :
    observe (World.step app) World.commits w es = [] := by
  induction es generalizing w with
  | nil => rfl
  | cons e es ih =>
    obtain ⟨m, hm, ran⟩ := Option.bind_eq_some_iff.mp ran
    have first := (step_cases hm).history
    have rest := run_history ran
    have same : m.server.history = w.server.history :=
      (h ▸ rest).eq_of_length_le first.length_le
    simp only [observe, hm, commits_eq_nil same, List.nil_append]
    exact ih ran (h.trans same.symm)

theorem commits_congr {w₁ w₁' : World} (h : w'.server = w.server) (h₁ : w₁'.server = w₁.server)
    (e e' : Event) : w'.commits e' w₁' = w.commits e w₁ := by
  simp [commits, h, h₁]

end World

section quiet

variable {server : Server} {q : Nat} {job : Job}

theorem exec_rollback (free : server.locks.Holds q []) (session : Session) :
    server.exec q job session .rollback = some (server, .idle, .ok ()) :=
  congrArg some (by rw [Server.release_of_holds_nil free])

theorem Call.Quiet.exec_eq {c : Call} (hq : c.Quiet) (free : server.locks.Holds q []) :
    ∃ x, ∀ session, ∃ session', server.exec q job session c = some (server, session', .ok x) := by
  cases c with
  | rollback => exact ⟨(), fun session => ⟨.idle, exec_rollback free session⟩⟩
  | log line => exact ⟨(), fun session => ⟨session, rfl⟩⟩
  | _ => exact hq.elim

end quiet

theorem Call.Quiet.met {c : Call} (hq : c.Quiet) {w : World} {q : Nat} {job : Job}
    {session session' : Session} {e : Event} {server : Server} {reply : Except Exn c.Reply}
    (free : w.server.locks.Holds q []) (h : w.Met q job session c e server session' reply) :
    server = w.server ∧ ((∃ x, reply = .ok x) ∨ ∃ fault : Fault, reply = .error fault.exn) ∧
      ∀ session₁, ∃ session₂, w.Met q job session₁ c e server session₂ reply := by
  obtain ⟨x, answered⟩ := hq.exec_eq free
  obtain ⟨session₂, hs⟩ := answered session
  cases h with
  | served hx =>
    cases hs.symm.trans hx
    refine ⟨rfl, .inl ⟨x, rfl⟩, fun session₁ => ?_⟩
    obtain ⟨session₂, hs⟩ := answered session₁
    exact ⟨session₂, .served hs⟩
  | timedOut hx => exact (hq.exec_ne_none hx).elim
  | deadlocked hx _ => exact (hq.exec_ne_none hx).elim
  | failedBefore fault =>
    exact ⟨rfl, .inr ⟨fault, rfl⟩, fun session₁ => ⟨session₁, .failedBefore fault⟩⟩
  | failedAfter fault hx =>
    cases hs.symm.trans hx
    refine ⟨rfl, .inr ⟨fault, rfl⟩, fun session₁ => ?_⟩
    obtain ⟨session₂, hs⟩ := answered session₁
    exact ⟨session₂, .failedAfter fault hs⟩

section pairs

variable (waiting : Job → App Response) (Ahead : Tables → Job → App Response → Session → Prop)

/-- A request in one variant and in the other.  It may be ahead in the first, as long as it owns
no lock. -/
inductive Paired (server : Server) (q : Nat) : Option Party → Option Party → Prop
  | same (p : Option Party) : Paired server q p p
  | tail {job : Job} {prog : App Response} (session session' : Session) : Tail prog →
      server.locks.Holds q [] →
      Paired server q (some ⟨job, prog, session⟩) (some ⟨job, prog, session'⟩)
  | ahead {job : Job} {prog : App Response} {session : Session} :
      Ahead server.committed job prog session → server.locks.Holds q [] →
      Paired server q (some ⟨job, prog, session⟩) (some ⟨job, waiting job, .idle⟩)

structure Lockstep (w w' : World) : Prop where
  server : w'.server = w.server
  drawn : w'.drawn = w.drawn
  paired : ∀ q, Paired waiting Ahead w.server q (w.party q) (w'.party q)

/-- The variant `lead` can be followed by the variant `lag`, which has a request wait while it is
ahead. -/
structure Leads (lead lag : Job → App Response) : Prop where
  starts : ∀ t job, lead job = lag job ∨ lag job = waiting job ∧ Ahead t job (lead job) .idle
  calls : ∀ {t job prog session}, Ahead t job prog session → ∃ c k, prog = .call c k
  waits : ∀ job, ∃ c k, waiting job = .call c k
  later : ∀ {t t' job prog session}, t.KeepsKeys t' → Ahead t job prog session →
    Ahead t' job prog session
  killed : ∀ {t job prog tx}, Ahead t job prog (.active tx) → Ahead t job prog .broken
  met : ∀ {w : World} {q job c k session e server session' reply},
    Ahead w.server.committed job (.call c k) session → w.server.locks.Holds q [] →
    w.Met q job session c e server session' reply → (∀ cycle, e ≠ .deadlock q cycle) →
    server.committed = w.server.committed ∧ server.history = w.server.history ∧
    ∀ w' : World, ∃ p', Reaches (World.step lag)
        (w'.put q ⟨job, waiting job, .idle⟩ w.server) (w'.put q p' server) ∧
      Paired waiting Ahead server q (some ⟨job, k reply, session'⟩) (some p')

end pairs

section lockstep

variable {lead lag waiting : Job → App Response}
  {Ahead : Tables → Job → App Response → Session → Prop} {w w' w₁ : World} {q : Nat}
  {server server' : Server} {p p' : Party}

namespace Paired

theorem later (L : Leads waiting Ahead lead lag) {p p' : Option Party}
    (h : Paired waiting Ahead server q p p')
    (locks : ∀ x, server'.locks x = some q ↔ server.locks x = some q)
    (kept : server.committed.KeepsKeys server'.committed) :
    Paired waiting Ahead server' q p p' := by
  cases h with
  | same => exact .same _
  | tail session session' tail free => exact .tail _ _ tail fun x => (locks x).trans (free x)
  | ahead ahead free => exact .ahead (L.later kept ahead) fun x => (locks x).trans (free x)

theorem put_server (L : Leads waiting Ahead lead lag)
    (h : Paired waiting Ahead server q (some p) (some p')) (w w' : World) :
    (w'.put q p' server).server = (w.put q p server).server := by
  cases h with
  | same => exact World.put_server
  | @tail job prog session session' _ _ => cases prog <;> rfl
  | @ahead job prog session ahead _ =>
    obtain ⟨c, k, rfl⟩ := L.calls ahead
    obtain ⟨c', k', hk⟩ := L.waits job
    rw [World.put_call hk, World.put_call rfl]

theorem closed (L : Leads waiting Ahead lead lag)
    (h : Paired waiting Ahead server q (some p) (some p')) (w : World) :
    Paired waiting Ahead (w.put q p server).server q (some p.closed) (some p'.closed) := by
  cases h with
  | same => exact .same _
  | @tail job prog session session' tail free =>
    cases prog with
    | call c k =>
      rw [World.put_call rfl, Party.closed_of_call rfl, Party.closed_of_call rfl]
      exact .tail _ _ tail free
    | pure a => exact .same _
    | raise e => exact .same _
  | @ahead job prog session ahead free =>
    obtain ⟨c, k, rfl⟩ := L.calls ahead
    obtain ⟨c', k', hk⟩ := L.waits job
    rw [World.put_call rfl, Party.closed_of_call rfl, Party.closed_of_call hk]
    exact .ahead ahead free

end Paired

namespace Lockstep

variable (L : Leads waiting Ahead lead lag) (h : Lockstep waiting Ahead w w')

include L h

theorem put (pair : Paired waiting Ahead server q (some p) (some p'))
    (others : ∀ o ≠ q, ∀ x, server.locks x = some o ↔ w.server.locks x = some o)
    (kept : w.server.committed.KeepsKeys server.committed) :
    Lockstep waiting Ahead (w.put q p server) (w'.put q p' server) where
  server := pair.put_server L w w'
  drawn := by rw [World.put_drawn, World.put_drawn, h.drawn]
  paired := by
    intro o
    by_cases ho : o = q
    · subst ho
      rw [World.put_self, World.put_self]
      exact pair.closed L w
    · rw [World.put_other ho, World.put_other ho]
      refine (h.paired o).later L (fun x => ?_) (by rwa [World.put_committed])
      exact (World.put_locks_other ho x).trans (others o ho x)

omit h in
theorem answer_eq (h : Lockstep waiting Ahead w w') (q : Nat) : w'.answer q = w.answer q := by
  have pair := h.paired q
  unfold World.answer
  generalize w.party q = p at pair
  generalize w'.party q = p' at pair
  cases pair with
  | same => rfl
  | tail session session' _ _ => rfl
  | @ahead job prog session ahead _ =>
    obtain ⟨c, k, rfl⟩ := L.calls ahead
    obtain ⟨c', k', hk⟩ := L.waits job
    simp [hk]

omit L in
theorem job_eq (q : Nat) : (w'.party q).map Party.job = (w.party q).map Party.job := by
  have pair := h.paired q
  generalize w.party q = p at pair ⊢
  generalize w'.party q = p' at pair ⊢
  cases pair with
  | same => rfl
  | tail session session' _ _ => rfl
  | ahead _ _ => rfl

omit L in
theorem waitsFor {a b : Nat} {x : Resource} (hx : w.server.locks x = some a)
    (hw : w.WaitsFor a b) : w'.WaitsFor a b := by
  obtain ⟨hne, y, hwants, hown⟩ := hw
  have same : w'.party a = w.party a := by
    have pair := h.paired a
    generalize w.party a = p at pair ⊢
    generalize w'.party a = p' at pair ⊢
    have owns (free : w.server.locks.Holds a []) : False := by simpa using (free x).mp hx
    cases pair with
    | same => rfl
    | tail _ _ _ free => exact (owns free).elim
    | ahead _ free => exact (owns free).elim
  refine ⟨hne, y, ?_, by rw [h.server, hown]⟩
  simpa [World.wants, same, h.server] using hwants

omit L in
theorem acyclic (h' : ∀ r, ¬ Relation.TransGen w'.WaitsFor r r) (r : Nat) :
    ¬ Relation.TransGen w.WaitsFor r r := by
  have owned {a b : Nat} (hab : Relation.TransGen w.WaitsFor a b) :
      ∃ x, w.server.locks x = some b := by
    cases hab with
    | single hab =>
      obtain ⟨-, x, -, hx⟩ := hab
      exact ⟨x, hx⟩
    | tail _ hbc =>
      obtain ⟨-, x, -, hx⟩ := hbc
      exact ⟨x, hx⟩
  intro hr
  refine h' r ?_
  have lifted {a b : Nat} (hab : Relation.TransGen w.WaitsFor a b) :
      (∃ x, w.server.locks x = some a) → Relation.TransGen w'.WaitsFor a b := by
    induction hab with
    | single hab =>
      rintro ⟨x, hx⟩
      exact .single (h.waitsFor hx hab)
    | tail hab hbc ih =>
      intro ha
      obtain ⟨x, hx⟩ := owned hab
      exact .tail (ih ha) (h.waitsFor hx hbc)
  exact lifted hr (owned hr)

def Followed (waiting : Job → App Response)
    (Ahead : Tables → Job → App Response → Session → Prop) (lag : Job → App Response)
    (w w' : World) (e : Event) (w₁ : World) : Prop :=
  ∃ es' w₁', run (World.step lag) w' es' = some w₁' ∧ Lockstep waiting Ahead w₁ w₁' ∧
    observe (World.step lag) World.commits w' es' = w.commits e w₁

variable {e f : Event} {w₁' : World}

omit L in
theorem followed_one (hstep : w'.step lag f = some w₁') (h₁ : Lockstep waiting Ahead w₁ w₁') :
    Followed waiting Ahead lag w w' e w₁ := by
  refine ⟨[f], w₁', run_singleton hstep, h₁, ?_⟩
  rw [observe_singleton _ hstep, World.commits_congr h.server h₁.server]

omit L in
theorem followed_silently (reaches : Reaches (World.step lag) w' w₁')
    (h₁ : Lockstep waiting Ahead w₁ w₁') (hh : w₁.server.history = w.server.history) :
    Followed waiting Ahead lag w w' e w₁ := by
  obtain ⟨es', ran⟩ := reaches
  refine ⟨es', w₁', ran, h₁, ?_⟩
  rw [World.observe_commits_eq_nil ran (by rw [h₁.server, h.server, hh]), World.commits_eq_nil hh]

theorem killed (pair : Paired waiting Ahead (w.server.release q) q (some p) (some p')) :
    Lockstep waiting Ahead
      { w with server := w.server.release q, party := Function.update w.party q (some p) }
      { w' with server := w.server.release q, party := Function.update w'.party q (some p') } where
  server := rfl
  drawn := h.drawn
  paired := by
    intro o
    by_cases ho : o = q
    · subst ho
      simpa using pair
    · have later : Paired waiting Ahead (w.server.release q) o (w.party o) (w'.party o) :=
        (h.paired o).later L (Locks.release_other ho) (Tables.KeepsKeys.refl _)
      simpa [ho] using later

theorem step_met {job : Job} {c : Call} {k : Except Exn c.Reply → App Response}
    {session session' : Session} {reply : Except Exn c.Reply}
    (hp : w.party q = some ⟨job, .call c k, session⟩)
    (hm : w.Met q job session c e server session' reply)
    (acyclic : ∀ cycle, e ≠ .deadlock q cycle)
    (kept : ∀ w₁', w'.step lag e = some w₁' → w₁'.server.committed = server.committed →
      w.server.committed.KeepsKeys server.committed) :
    Followed waiting Ahead lag w w' e (w.put q ⟨job, k reply, session'⟩ server) := by
  have others : ∀ o ≠ q, ∀ x, server.locks x = some o ↔ w.server.locks x = some o :=
    fun o ho => hm.other ho
  have pair := h.paired q
  rw [hp] at pair
  generalize hp' : w'.party q = p' at pair
  cases pair with
  | same =>
    have hstep : w'.step lag e = some (w'.put q ⟨job, k reply, session'⟩ server) :=
      World.step_of_stepped (.met hp' (hm.congr h.server acyclic))
    exact h.followed_one hstep (h.put L (.same _) others (kept _ hstep World.put_committed))
  | tail _ session₁ tail free =>
    obtain ⟨rfl, answered, alike⟩ := tail.1.met free hm
    obtain ⟨session₂, hm'⟩ := alike session₁
    have hstep : w'.step lag e = some (w'.put q ⟨job, k reply, session₂⟩ w.server) :=
      World.step_of_stepped (.met hp' (hm'.congr h.server acyclic))
    have tail' : Tail (k reply) := by
      rcases answered with ⟨x, rfl⟩ | ⟨fault, rfl⟩
      · exact tail.2.1 x
      · exact tail.2.2 _ ⟨fault, rfl⟩
    exact h.followed_one hstep (h.put L (.tail _ _ tail' free) others (Tables.KeepsKeys.refl _))
  | ahead ahead free =>
    obtain ⟨hc, hh, follow⟩ := L.met ahead free hm acyclic
    obtain ⟨p', reaches, pair⟩ := follow w'
    obtain ⟨c', k', hk⟩ := L.waits job
    rw [hk] at hp' reaches
    rw [← h.server, World.put_eq_self hp'] at reaches
    exact h.followed_silently reaches
      (h.put L pair others (hc ▸ Tables.KeepsKeys.refl _)) (by rw [World.put_history, hh])

theorem step (hstep : w.step lead e = some w₁)
    (unlocked : ∀ q, w.party q = none → w.server.locks.Holds q [])
    (acyclic : ∀ q cycle, w.step lead (.deadlock q cycle) = none)
    (kept : ∀ w₁', w'.step lag e = some w₁' → w₁'.server.committed = w₁.server.committed →
      w.server.committed.KeepsKeys w₁.server.committed) :
    Followed waiting Ahead lag w w' e w₁ := by
  cases World.step_cases hstep with
  | @arrived q request draws absent fresh =>
    have absent' : w'.party q = none := by
      have pair := h.paired q
      rw [absent] at pair
      generalize w'.party q = p' at pair
      cases pair
      rfl
    have arrived : Lockstep waiting Ahead ⟨w.server, w.party, w.drawn ++ draws.toList⟩
        ⟨w.server, w'.party, w.drawn ++ draws.toList⟩ := ⟨rfl, rfl, h.paired⟩
    have stepped : w'.Stepped lag (.arrive q request draws) _ :=
      .arrived absent' (h.drawn ▸ fresh)
    rw [h.server, h.drawn] at stepped
    refine h.followed_one (World.step_of_stepped stepped)
      (arrived.put L ?_ (fun _ _ _ => Iff.rfl) (Tables.KeepsKeys.refl _))
    rcases L.starts w.server.committed ⟨request, draws⟩ with alike | ⟨waits, ahead⟩
    · rw [alike]
      exact .same _
    · rw [waits]
      exact .ahead ahead (unlocked q absent)
  | @met e q job c k session session' server reply hp hm =>
    refine h.step_met L hp hm ?_ (by simpa using kept)
    rintro cycle rfl
    rw [acyclic] at hstep
    cases hstep
  | @killed q job prog tx hp =>
    have pair := h.paired q
    rw [hp] at pair
    generalize hp' : w'.party q = p' at pair
    -- whoever owns no lock has none to lose
    have unmoved {session' : Session} {prog' : App Response}
        (hp' : w'.party q = some ⟨job, prog', session'⟩) (free : w.server.locks.Holds q [])
        (pair : Paired waiting Ahead (w.server.release q) q (some ⟨job, prog, .broken⟩)
          (some ⟨job, prog', session'⟩)) :
        Followed waiting Ahead lag w w' (.kill q) { w with
          server := w.server.release q
          party := Function.update w.party q (some ⟨job, prog, .broken⟩) } := by
      have released : w.server.release q = w'.server := by
        rw [Server.release_of_holds_nil free, h.server]
      have same := Function.update_eq_self q w'.party
      have lockstep := h.killed L pair
      rw [hp'] at same
      rw [same, released] at lockstep
      exact h.followed_silently (.refl w') (released ▸ lockstep) rfl
    cases pair with
    | same =>
      have stepped : w'.Stepped lag (.kill q) _ := .killed hp'
      rw [h.server] at stepped
      exact h.followed_one (World.step_of_stepped stepped) (h.killed L (.same _))
    | tail _ session' tail free =>
      exact unmoved hp' free (.tail _ _ tail (Locks.release_holds _ _))
    | ahead ahead free =>
      exact unmoved hp' free (.ahead (L.killed ahead) (Locks.release_holds _ _))
  | @crashed q job c k session hp =>
    have pair := h.paired q
    rw [hp] at pair
    generalize hp' : w'.party q = p' at pair
    have crash {c' : Call} {k' : Except Exn c'.Reply → App Response} {session' : Session}
        (hp' : w'.party q = some ⟨job, .call c' k', session'⟩)
        (pair : Paired waiting Ahead w.server q (some ⟨job, .pure .lost, session⟩)
          (some ⟨job, .pure .lost, session'⟩)) :
        Followed waiting Ahead lag w w' (.crash q)
          (w.put q ⟨job, .pure .lost, session⟩ w.server) := by
      have stepped : w'.Stepped lag (.crash q) _ := .crashed hp'
      rw [h.server] at stepped
      exact h.followed_one (World.step_of_stepped stepped)
        (h.put L pair (fun _ _ _ => Iff.rfl) (Tables.KeepsKeys.refl _))
    cases pair with
    | same => exact crash hp' (.same _)
    | tail _ session' _ free => exact crash hp' (.tail _ _ trivial free)
    | ahead _ free =>
      obtain ⟨c', k', hk⟩ := L.waits job
      exact crash (hk ▸ hp') (.tail _ _ trivial free)
  | ticked d =>
    have lockstep : Lockstep waiting Ahead
        { w with server := { w.server with clock := w.server.clock + d } }
        { w' with server := { w'.server with clock := w'.server.clock + d } } :=
      ⟨by rw [h.server], h.drawn, fun q => (h.paired q).later L (fun _ => Iff.rfl)
        (Tables.KeepsKeys.refl _)⟩
    exact h.followed_one (f := .tick d) rfl lockstep

end Lockstep

end lockstep

end Ledger
