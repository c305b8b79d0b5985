import Ledger.Phases

namespace Ledger

open Lib

def Event.Disturbs (e : Event) (r : Nat) : Prop := e.Raises r ∨ e = .kill r ∨ e = .crash r

section record

variable (sha256 : String → String) (es : List Event) (w : World) (r : Nat) (job : Job)

abbrev Earlier (pre : List Event) (m : World) : Prop :=
  Past (World.step (serveRequest sha256)) World.init es pre m

def Current (pre : List Event) (m : World) : Prop :=
  m.Serving r ∨ ∃ past request draws, pre = past ++ [.arrive r request draws]

def Disturbed : Prop := ∃ e ∈ es, e.Disturbs r

def Late : Prop := ∃ pre e m, Earlier sha256 es (pre ++ [e]) m ∧ e.Raises r ∧ m.CommittedBy r

def Justified (a : Response) : Prop := ∃ pre m clock, Earlier sha256 es pre m ∧ Current r pre m ∧
  sequential (serveRequest sha256) job clock m.server.committed = (m.server.committed, .ok a)

def Earned (a : Response) : Prop := ∃ pre m c, Earlier sha256 es pre m ∧ m.Serving r ∧
  c.owner = r ∧ c.job = job ∧ m.server.history ++ [c] <+: w.server.history ∧
  (sequential (serveRequest sha256) job c.startedAt m.server.committed).2 = .ok a

def recordOf : Record where
  owned := w.CommittedBy r
  disturbed := Disturbed es r
  late := Late sha256 es r
  justified := Justified sha256 es r job
  earned := Earned sha256 es w r job

end record

variable {sha256 : String → String} {es : List Event} {w w' : World} {e : Event} {r q : Nat}
  {job : Job}

theorem recordOf_grows (h : w.server.history <+: w'.server.history) :
    (recordOf sha256 es w r job).Grows (recordOf sha256 (es ++ [e]) w' r job) where
  disturbed := fun ⟨x, hx, hd⟩ => ⟨x, List.mem_append_left _ hx, hd⟩
  late := fun ⟨pre, x, m, hm, hx⟩ => ⟨pre, x, m, hm.snoc e, hx⟩
  justified := fun _ ⟨pre, m, clock, hm, hx⟩ => ⟨pre, m, clock, hm.snoc e, hx⟩
  earned := fun _ ⟨pre, m, c, hm, hs, ho, hj, hh, ha⟩ =>
    ⟨pre, m, c, hm.snoc e, hs, ho, hj, hh.trans h, ha⟩

structure Commits (sha256 : String → String) (w w' : World) (r : Nat) (p : Party) (fp : Footprint)
    (tx : Tx) : Prop where
  party : w.party r = some p
  first : ¬ w.CommittedBy r
  admitted : p.job.Admitted
  holds : w.server.locks.Holds r fp.touched
  reached : ∃ prog, p.job.Reached sha256 w.server.committed fp tx prog
  committed : w'.server.committed = w.server.committed.view tx
  history : w'.server.history = w.server.history ++ [⟨r, p.job, tx.startedAt⟩]
  answer : ∃ o : Outcome, o.replayed = false ∧
    sequential (serveRequest sha256) p.job tx.startedAt w.server.committed =
      (w'.server.committed, .ok (.outcome o))

structure Inv (sha256 : String → String) (es : List Event) (w : World) : Prop where
  phases : ∀ r p, w.party r = some p → Phase sha256 p.job w.server.committed
    (w.server.locks.Holds r) (recordOf sha256 es w r p.job) p.prog p.session
  released : ∀ r x, w.server.locks x = some r → w.Serving r
  owners : ∀ c ∈ w.server.history, ∃ p, w.party c.owner = some p ∧ p.job = c.job
  once : (w.server.history.map Commit.owner).Nodup
  draws : ∀ r p, w.party r = some p → p.job.draws.toList.Nodup
  drawn : ∀ r p, w.party r = some p → ∀ id ∈ p.job.draws.toList, id ∈ w.drawn
  disjoint : ∀ r p q p', w.party r = some p → w.party q = some p' → r ≠ q →
    ∀ id ∈ p.job.draws.toList, id ∉ p'.job.draws.toList
  taken : ∀ id, (w.server.committed.account? id).isSome ∨ (w.server.committed.leg? id).isSome →
    ∃ c ∈ w.server.history, id ∈ c.job.draws.toList
  replay : w.server.history.foldl
    (fun t c => (sequential (serveRequest sha256) c.job c.startedAt t).1) .empty =
      w.server.committed

namespace Inv

theorem init : Inv sha256 [] World.init where
  phases := by simp [World.init]
  released := by simp [World.init, Server.init]
  owners := by simp [World.init, Server.init]
  once := by simp [World.init, Server.init]
  draws := by simp [World.init]
  drawn := by simp [World.init]
  disjoint := by simp [World.init]
  taken := by simp [World.init, Server.init, Tables.empty, Tables.account?, Tables.leg?]
  replay := rfl

theorem unlocked (inv : Inv sha256 es w) (absent : w.party r = none) :
    w.server.locks.Holds r [] := by
  refine fun x => ⟨fun hx => ?_, by simp⟩
  obtain ⟨p, c, k, hp, -⟩ := inv.released r x hx
  rw [absent] at hp
  cases hp

theorem fresh (inv : Inv sha256 es w) {p : Party} (hp : w.party r = some p)
    (hr : ¬ w.CommittedBy r) : w.server.committed.Fresh p.job.draws.toList := by
  have unused : ∀ id ∈ p.job.draws.toList,
      ¬ ((w.server.committed.account? id).isSome ∨ (w.server.committed.leg? id).isSome) := by
    intro id hid htaken
    obtain ⟨c, hc, hdraws⟩ := inv.taken id htaken
    obtain ⟨p', hp', hjob⟩ := inv.owners c hc
    have hne : r ≠ c.owner := fun he => hr ⟨c, hc, he.symm⟩
    exact inv.disjoint r p c.owner p' hp hp' hne id hid (hjob ▸ hdraws)
  constructor <;> intro id hid <;> have := unused id hid <;> simp_all

theorem change (inv : Inv sha256 es w) (h : w.Stepped (serveRequest sha256) e w') :
    w'.server.committed = w.server.committed ∧ w'.server.history = w.server.history ∨
      ∃ r p fp tx, e.actor = some r ∧ Commits sha256 w w' r p fp tx := by
  cases h with
  | arrived _ _ => exact .inl ⟨by simp, by simp⟩
  | killed _ => exact .inl ⟨rfl, rfl⟩
  | crashed _ => exact .inl ⟨by simp, by simp⟩
  | ticked d => exact .inl ⟨rfl, rfl⟩
  | @met e r job c k session session' server reply hp hm =>
    have executed {reply' : Except Exn c.Reply}
        (hx : w.server.exec r job session c = some (server, session', reply')) :
        server.committed = w.server.committed ∧ server.history = w.server.history ∨
          ∃ p fp tx, Commits sha256 w (w.put r ⟨job, k reply, session'⟩ server) r p fp tx := by
      refine (Server.exec_committed hx).imp_right ?_
      rintro ⟨tx, x, heffect, hc, hh⟩
      obtain ⟨fp, admitted, first, holds, reached, o, ho, answer⟩ :=
        (inv.phases r _ hp).of_committed rfl (inv.fresh hp) heffect
      exact ⟨_, fp, tx, hp, first, admitted, holds, ⟨_, reached⟩, by simp [hc], by simp [hh],
        o, ho, by simp [hc, answer]⟩
    cases hm with
    | timedOut _ => exact .inl ⟨by simp, by simp⟩
    | deadlocked _ _ => exact .inl ⟨by simp, by simp⟩
    | failedBefore _ => exact .inl ⟨by simp, by simp⟩
    | served hx =>
      refine (executed hx).imp (fun h => by simpa using h) ?_
      rintro ⟨p, fp, tx, h⟩
      exact ⟨r, p, fp, tx, rfl, h⟩
    | failedAfter _ hx =>
      refine (executed hx).imp (fun h => by simpa using h) ?_
      rintro ⟨p, fp, tx, h⟩
      exact ⟨r, p, fp, tx, rfl, h⟩

theorem committedBy_other (inv : Inv sha256 es w) (h : w.Stepped (serveRequest sha256) e w')
    (hq : e.actor ≠ some q) : w'.CommittedBy q ↔ w.CommittedBy q := by
  unfold World.CommittedBy
  rcases inv.change h with ⟨-, hh⟩ | ⟨r, p, fp, tx, hr, hc⟩
  · rw [hh]
  · have hne : r ≠ q := fun he => hq (he ▸ hr)
    simp [hc.history, hne]

theorem agrees (inv : Inv sha256 es w) (h : w.Stepped (serveRequest sha256) e w') {p : Party}
    (hp : w.party q = some p) (hq : e.actor ≠ some q) {fp : Footprint}
    (holds : w.server.locks.Holds q fp.touched)
    (used : ∀ id ∈ fp.used, id ∈ p.job.draws.toList) :
    fp.Agrees w.server.committed w'.server.committed := by
  rcases inv.change h with ⟨hc, -⟩ | ⟨r, p', fp', tx, hr, hc⟩
  · rw [hc]
    exact ⟨fun _ _ => rfl, fun _ _ => rfl, fun _ _ => rfl⟩
  · have hne : q ≠ r := fun he => hq (he ▸ hr)
    obtain ⟨prog, reached⟩ := hc.reached
    rw [hc.committed]
    refine Tables.agrees_of_covers reached.covers (fun x hx hx' => ?_) fun id hid hid' => ?_
    · have hmine := (holds x).mpr hx
      rw [(hc.holds x).mpr hx'] at hmine
      exact hne (Option.some.inj hmine).symm
    · exact inv.disjoint q p r p' hp hc.party hne id (used id hid) (reached.used_mem id hid')

theorem taken_mono (inv : Inv sha256 es w) (h : w.Stepped (serveRequest sha256) e w') {key : String}
    (hk : (w.server.committed.key? key).isSome) : (w'.server.committed.key? key).isSome := by
  rcases inv.change h with ⟨hc, -⟩ | ⟨r, p, fp, tx, -, hc⟩
  · rwa [hc]
  · exact hc.committed ▸ Tables.key?_isSome_after hk tx.writes

theorem phase_other (inv : Inv sha256 es w) (h : w.Stepped (serveRequest sha256) e w') {p : Party}
    (hp : w.party q = some p) (hq : e.actor ≠ some q) :
    Phase sha256 p.job w'.server.committed (w'.server.locks.Holds q)
      (recordOf sha256 (es ++ [e]) w' q p.job) p.prog p.session := by
  obtain ⟨-, hlocks⟩ := h.other hq
  refine (inv.phases q p hp).later (recordOf_grows h.history) (inv.committedBy_other h hq)
    (fun _ xs hxs x => (hlocks x).trans (hxs x)) (inv.taken_mono h) ?_
  exact fun fp => inv.agrees h hp hq

theorem phase_arrived (inv : Inv sha256 es w) {request : Request} {draws : Draws}
    (absent : w.party r = none)
    (ran : run (World.step (serveRequest sha256)) World.init
      (es ++ [.arrive r request draws]) = some w')
    (hw' : w' = World.put { w with drawn := w.drawn ++ draws.toList } r
      ⟨⟨request, draws⟩, serveRequest sha256 ⟨request, draws⟩, .idle⟩ w.server) :
    Phase sha256 ⟨request, draws⟩ w.server.committed (w.server.locks.Holds r)
      (recordOf sha256 (es ++ [.arrive r request draws]) w' r ⟨request, draws⟩)
      (serveRequest sha256 ⟨request, draws⟩) .idle := by
  have howned : ¬ w'.CommittedBy r := by
    rintro ⟨c, hc, rfl⟩
    rw [hw', World.put_history] at hc
    obtain ⟨p, hp, -⟩ := inv.owners c hc
    rw [absent] at hp
    cases hp
  by_cases admitted : Job.Admitted ⟨request, draws⟩
  · rw [serveRequest_of_admitted admitted]
    exact .reading admitted howned (inv.unlocked absent)
  · obtain ⟨error, herror, -⟩ := serveRequest_of_not_admitted sha256 admitted
    rw [herror]
    refine .settling _ _ rfl (.inl ⟨howned, ?_,
      .inr ⟨_, w', 0, Past.last ran, .inr ⟨_, _, _, rfl⟩, ?_⟩⟩)
    · rintro ⟨o, ho, -⟩
      cases ho
    · simp [sequential, herror]

theorem meets {p : Party} (hp : w.party r = some p) {c : Call}
    {k : Except Exn c.Reply → App Response} (hprog : p.prog = .call c k) {server : Server}
    (ran : run (World.step (serveRequest sha256)) World.init es = some w)
    (hstep : World.step (serveRequest sha256) w e = some w')
    (hhistory : w'.server.history = server.history) :
    (recordOf sha256 es w r p.job).Meets sha256 p.job r w e server
      (recordOf sha256 (es ++ [e]) w' r p.job) := by
  have past : Earlier sha256 (es ++ [e]) es w := (Past.last ran).snoc e
  have serving : w.Serving r := ⟨p, c, k, hp, hprog⟩
  refine ⟨recordOf_grows (World.step_cases hstep).history, ?_, ?_, ?_, ?_⟩
  · intro hh
    simp only [recordOf, World.CommittedBy, hhistory, hh]
  · intro hraises
    exact ⟨⟨e, by simp, .inl hraises⟩,
      fun howned => ⟨es, e, w', Past.last (run_next ran hstep), hraises, howned⟩⟩
  · exact fun a clock ha => ⟨es, w, clock, past, .inl serving, ha⟩
  · intro a startedAt hh ha
    have hlast : w'.server.history = w.server.history ++ [⟨r, p.job, startedAt⟩] :=
      hhistory.trans hh
    exact ⟨⟨⟨r, p.job, startedAt⟩, by simp [hlast], rfl⟩, es, w, ⟨r, p.job, startedAt⟩, past,
      serving, rfl, rfl, hlast ▸ List.prefix_rfl, by rw [ha]⟩

theorem phase_self (inv : Inv sha256 es w)
    (ran : run (World.step (serveRequest sha256)) World.init es = some w)
    (hstep : World.step (serveRequest sha256) w e = some w') (hr : e.actor = some r) {p : Party}
    (hp : w'.party r = some p) :
    Phase sha256 p.job w'.server.committed (w'.server.locks.Holds r)
      (recordOf sha256 (es ++ [e]) w' r p.job) p.prog p.session := by
  have ran' := run_next ran hstep
  have stepped := World.step_cases hstep
  have grows {job : Job} :
      (recordOf sha256 es w r job).Grows (recordOf sha256 (es ++ [e]) w' r job) :=
    recordOf_grows stepped.history
  cases hs : stepped with
  | @arrived r' request draws absent _ =>
    cases hr
    rw [World.put_self] at hp
    cases hp
    rw [Party.closed_job]
    exact Phase.put _ r ⟨_, _, .idle⟩ w.server (inv.phase_arrived absent ran' rfl)
  | @met e r' job c k session session' server reply hp' hm =>
    obtain rfl := hm.eq_of_actor hr
    rw [World.put_self] at hp
    cases hp
    have := (inv.phases r' _ hp').met (inv.draws r' _ hp') (inv.fresh hp') hm
      (meets hp' rfl ran hstep (by simp))
    rw [Party.closed_job]
    exact Phase.put w r' ⟨job, k reply, session'⟩ server this
  | @killed r' job prog tx hp' =>
    cases hr
    simp only [Function.update_self, Option.some.injEq] at hp
    cases hp
    refine (inv.phases r _ hp').killed grows Iff.rfl ⟨_, by simp, .inr (.inl rfl)⟩
      (Locks.release_holds _ _) ?_
    rintro ⟨c, k, hprog⟩ a clock ha
    exact ⟨es, w, clock, (Past.last ran).snoc _, .inl ⟨_, c, k, hp', hprog⟩, ha⟩
  | @crashed r' job c k session hp' =>
    cases hr
    rw [World.put_self] at hp
    cases hp
    exact .lost _ ⟨_, by simp, .inr (.inr rfl)⟩
  | ticked d => cases hr

end Inv

namespace Inv

theorem step (inv : Inv sha256 es w)
    (ran : run (World.step (serveRequest sha256)) World.init es = some w)
    (hstep : World.step (serveRequest sha256) w e = some w') : Inv sha256 (es ++ [e]) w' := by
  have stepped := World.step_cases hstep
  have change := inv.change stepped
  refine ⟨?phases, fun r x => stepped.released inv.released, ?owners, ?once, ?draws, ?drawn,
    ?disjoint, ?taken, ?replay⟩
  case phases =>
    intro r p hp
    by_cases hr : e.actor = some r
    · exact inv.phase_self ran hstep hr hp
    · exact inv.phase_other stepped ((stepped.other hr).1 ▸ hp) hr
  case owners =>
    have stay (c : Commit) (h : ∃ p, w.party c.owner = some p ∧ p.job = c.job) :
        ∃ p, w'.party c.owner = some p ∧ p.job = c.job := by
      obtain ⟨p, hp, hj⟩ := h
      obtain ⟨new, hnew, hj'⟩ := stepped.stays hp
      exact ⟨new, hnew, hj'.trans hj⟩
    intro c hc
    refine stay c ?_
    rcases change with ⟨-, hh⟩ | ⟨r, p, fp, tx, -, hcommit⟩
    · exact inv.owners c (hh ▸ hc)
    · rw [hcommit.history] at hc
      rcases List.mem_append.mp hc with hc | hc
      · exact inv.owners c hc
      · obtain rfl := List.mem_singleton.mp hc
        exact ⟨p, hcommit.party, rfl⟩
  case once =>
    rcases change with ⟨-, hh⟩ | ⟨r, p, fp, tx, -, hcommit⟩
    · exact hh ▸ inv.once
    · rw [hcommit.history, List.map_append, List.nodup_append]
      refine ⟨inv.once, by simp, fun owner ho r' hr' => ?_⟩
      obtain ⟨c, hc, rfl⟩ := List.mem_map.mp ho
      obtain rfl : r' = r := by simpa using hr'
      exact fun he => hcommit.first ⟨c, hc, he⟩
  case draws =>
    intro r p hp
    rcases stepped.party hp with ⟨old, hold, hj⟩ | ⟨request, draws, -, hj, -, fresh⟩
    · exact hj ▸ inv.draws r old hold
    · exact hj ▸ (List.nodup_append.mp fresh).2.1
  case drawn =>
    intro r p hp id hid
    rcases stepped.party hp with ⟨old, hold, hj⟩ | ⟨request, draws, -, hj, hdrawn, -⟩
    · exact stepped.drawn.subset (inv.drawn r old hold id (hj ▸ hid))
    · exact hdrawn ▸ List.mem_append_right _ (by simpa [hj] using hid)
  case disjoint =>
    intro r p q p' hp hp' hne id hid hid'
    rcases stepped.party hp with ⟨old, hold, hj⟩ | ⟨request, draws, he, hj, -, fresh⟩ <;>
      rcases stepped.party hp' with ⟨old', hold', hj'⟩ | ⟨request', draws', he', hj', -, fresh'⟩
    · exact inv.disjoint r old q old' hold hold' hne id (hj ▸ hid) (hj' ▸ hid')
    · exact (List.disjoint_of_nodup_append fresh') (inv.drawn r old hold id (hj ▸ hid))
        (by simpa [hj'] using hid')
    · exact (List.disjoint_of_nodup_append fresh) (inv.drawn q old' hold' id (hj' ▸ hid'))
        (by simpa [hj] using hid)
    · cases he.symm.trans he'
      exact hne rfl
  case taken =>
    intro id hid
    rcases change with ⟨hc, hh⟩ | ⟨r, p, fp, tx, -, hcommit⟩
    · rw [hh]
      exact inv.taken id (hc ▸ hid)
    · obtain ⟨prog, reached⟩ := hcommit.reached
      rw [hcommit.history]
      by_cases hused : id ∈ fp.used
      · exact ⟨⟨r, p.job, tx.startedAt⟩, by simp, reached.used_mem id hused⟩
      · rw [hcommit.committed, Tables.view, Tables.account?_isSome_of_covers reached.covers hused,
          Tables.leg?_of_covers reached.covers hused] at hid
        obtain ⟨c, hc, hd⟩ := inv.taken id hid
        exact ⟨c, List.mem_append_left _ hc, hd⟩
  case replay =>
    rcases change with ⟨hc, hh⟩ | ⟨r, p, fp, tx, -, hcommit⟩
    · rw [hh, hc, inv.replay]
    · obtain ⟨o, -, ho⟩ := hcommit.answer
      rw [hcommit.history, List.foldl_append, inv.replay]
      simp [ho]

theorem of_run (h : run (World.step (serveRequest sha256)) World.init es = some w) :
    Inv sha256 es w := by
  refine run_induction (P := fun es w => Inv sha256 es w) init ?_ h
  exact fun es m e m' ran inv hstep => inv.step ran hstep

end Inv

end Ledger
