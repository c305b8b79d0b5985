import Ledger.Knowledge
import Ledger.Termination

namespace Ledger

open Lib

/-- The lines that `r` adds to the log in a step.  A line that fails on its way back is written. -/
def World.lines (r : Nat) (w : World) (e : Event) (_ : World) : List LogLine :=
  match e with
  | .serve q | .failAfter q _ => if q = r then (w.pending? r).toList.flatMap Call.lines else []
  | _ => []

section log

variable (sha256 : String → String) (es : List Event) (w : World) (r : Nat) (job : Job)

def linesOf : List LogLine :=
  observe (World.step (serveRequest sha256)) (World.lines r) World.init es

def LogLine.isCommitted : LogLine → Bool
  | .committed _ _ _ => true
  | _ => false

def LogLine.Holds : LogLine → Prop
  | .replayed operation key resourceId originalStatus raced => ¬ w.CommittedBy r ∧
    operation = job.operation ∧ key = job.key ∧ (∃ c ∈ w.server.history, c.job.key = job.key ∧
      c.job.operation = job.operation ∧ (c.row sha256).resourceId = resourceId ∧
      (c.row sha256).responseStatus = originalStatus) ∧
    (raced = true → Missed sha256 es r job)
  | .committed operation key resourceId => operation = job.operation ∧ key = job.key ∧
    ∃ c ∈ w.server.history, c.owner = r ∧ c.job = job ∧ (c.row sha256).resourceId = resourceId
  | .transferCommitted transferId key fromAccountId toAccountId amount => key = job.key ∧
    (∃ c ∈ w.server.history, c.owner = r ∧ c.job = job ∧
      (c.row sha256).resourceId = transferId) ∧
    ∃ req, job.request.payload = .transfer req ∧ fromAccountId = req.fromAccountId ∧
      toAccountId = req.toAccountId ∧ amount = req.amount.value
  | .valueOutOfRange operation key => ¬ w.CommittedBy r ∧ operation = job.operation ∧
    key = job.key ∧ Justified sha256 es r job (.envelope .amountOutOfRange false)
  | .lockTimeout operation key => ¬ w.CommittedBy r ∧ operation = job.operation ∧
    key = job.key ∧ .timeout r ∈ es
  | .unhandledError _ => Disturbed es r
  | .recordVanished _ _ | .deadlock _ _ => False

end log

section later

variable {sha256 : String → String} {es : List Event} {w w' : World} {e : Event} {r : Nat}
  {job : Job}

theorem LogLine.Holds.later {line : LogLine} (h : line.Holds sha256 es w r job)
    (history : w.server.history <+: w'.server.history)
    (owned : w'.CommittedBy r ↔ w.CommittedBy r) :
    line.Holds sha256 (es ++ [e]) w' r job := by
  have grows : (recordOf sha256 es w r job).Grows (recordOf sha256 (es ++ [e]) w' r job) :=
    recordOf_grows history
  cases line with
  | replayed operation key resourceId originalStatus raced =>
    obtain ⟨unowned, hop, hkey, ⟨c, hc, hrow⟩, missed⟩ := h
    exact ⟨mt owned.mp unowned, hop, hkey, ⟨c, history.subset hc, hrow⟩,
      fun hr => (missed hr).later e⟩
  | committed operation key resourceId =>
    obtain ⟨hop, hkey, c, hc, hrow⟩ := h
    exact ⟨hop, hkey, c, history.subset hc, hrow⟩
  | transferCommitted transferId key fromAccountId toAccountId amount =>
    obtain ⟨hkey, ⟨c, hc, hrow⟩, hreq⟩ := h
    exact ⟨hkey, ⟨c, history.subset hc, hrow⟩, hreq⟩
  | valueOutOfRange operation key =>
    obtain ⟨unowned, hop, hkey, justified⟩ := h
    exact ⟨mt owned.mp unowned, hop, hkey, grows.justified _ justified⟩
  | lockTimeout operation key =>
    obtain ⟨unowned, hop, hkey, timedOut⟩ := h
    exact ⟨mt owned.mp unowned, hop, hkey, List.mem_append_left _ timedOut⟩
  | unhandledError x => exact grows.disturbed h
  | recordVanished operation key => exact h.elim
  | deadlock operation key => exact h.elim

end later

theorem Phase.of_logging {sha256 : String → String} {job : Job} {t : Tables}
    {holds : List Resource → Prop} {g : Record} {line : LogLine}
    {k : Except Exn Unit → App Response} {session : Session}
    (h : Phase sha256 job t holds g (.call (.log line) k) session) :
    (∃ a : Response, a.Settles (k (.ok ())) ∧ (¬ g.owned ∧ ¬ a.Fresh ∧
      (a.LockTimeout ∨ g.justified a) ∨ g.owned ∧ a.Fresh ∧ g.earned a)) ∨
    Upset (k (.ok ())) ∧ g.disturbed := by
  generalize hp : (.call (.log line) k : App Response) = prog at h
  cases h with
  | reading _ _ _ =>
    obtain ⟨k', hk, -⟩ := Job.executeOnce_eq sha256 job
    cases hp.trans hk
  | missed _ _ _ _ => cases hp
  | claiming _ _ _ =>
    obtain ⟨k', hk, -⟩ := Job.claim_eq sha256 job
    cases hp.trans hk
  | working _ _ _ hw _ =>
    cases hw with
    | failing e _ =>
      obtain ⟨k', hk⟩ := Job.failing_call sha256 job e
      cases hp.trans hk
    | commit _ _ _ _ => cases hp
    | call allowed _ _ _ =>
      cases hp
      exact allowed.elim
  | severed _ _ _ hq _ =>
    cases hp
    exact (hq trivial).elim
  | losing _ _ _ _ _ => cases hp.trans Job.failing_unique
  | rereading _ _ _ _ =>
    obtain ⟨k', hk, -⟩ := Job.reread_settles sha256 job
    cases hp.trans hk
  | settling a _ hs ha =>
    subst hp
    exact .inl ⟨a, hs.2.1 (), ha⟩
  | upset _ hu hd _ =>
    subst hp
    exact .inr ⟨hu.2.1 (), hd⟩
  | lost _ _ => cases hp

section ends

variable {job : Job} {s : Diary} {a : Response}

theorem Diary.Writes.not_unique {line : LogLine} (h : s.Writes job line) :
    s.known ≠ .raised (.integrity (some .uniqueViolation)) := by
  cases h with
  | unhandledError e lines unmapped => simpa using unmapped.2
  | _ => simp

theorem Diary.Writes.ends {line : LogLine} {prog : App Response} (h : s.Writes job line)
    (meets : prog.Meets (diaryMonitor job) (Tells job) (s.next (.log line) (.ok ())))
    {raised : Exn → Prop} {answers : Response → Prop}
    (within : prog.Within Call.Quiet raised answers) :
    ∃ a s', answers a ∧ Tells job (.ok a) s' ∧ s'.known = s.known := by
  refine meets.within within (I := fun s' => s'.known = s.known) (fun s' c hs' quiet => ?_) rfl
  cases c with
  | log line' => exact ⟨(), trivial, hs'⟩
  | rollback =>
    have same : s'.next .rollback (.ok ()) = s' := Diary.next_rollback (hs' ▸ h.not_unique)
    refine ⟨(), trivial, ?_⟩
    exact (congrArg Diary.known same).trans hs'
  | _ => exact quiet.elim

theorem Exn.not_unmapped (error : LedgerError) : ¬ (Exn.ledger error).Unmapped := by
  rintro ⟨verdict, -⟩
  obtain ⟨rfl, retryable⟩ := Response.envelope.inj verdict
  cases retryable

theorem Tells.upset {e : Exn} (h : Tells job (.ok a) s) (hk : s.known = .raised e)
    (unmapped : e.Unmapped) : a.Upset := by
  cases h with
  | served left => cases left <;> cases hk
  | refused left =>
    cases left with
    | conflict row again => cases hk
    | refused error silent => cases hk
    | valueOutOfRange =>
      cases hk
      cases unmapped.1
    | lockTimeout =>
      cases hk
      cases unmapped.1
    | raised e lines unmapped => exact (Exn.not_unmapped _ unmapped).elim
  | early e _ => cases hk
  | unhandled e lines _ => exact .inl rfl
  | failed e lines _ => exact .inr rfl

theorem Tells.outOfRange (h : Tells job (.ok a) s)
    (hk : s.known = .raised (.data (some .numericOutOfRange))) :
    a = .envelope .amountOutOfRange false := by
  cases h with
  | served left => cases left <;> cases hk
  | refused left =>
    cases left with
    | conflict row again => cases hk
    | refused error silent => cases hk
    | valueOutOfRange => rfl
    | lockTimeout => cases hk
    | raised e lines unmapped => exact (Exn.not_unmapped _ unmapped).elim
  | early e _ => cases hk
  | unhandled e lines unmapped =>
    cases hk
    cases unmapped.1
  | failed e lines raised =>
    cases hk
    cases raised.unmapped.1

end ends

section run

variable {sha256 : String → String} {es : List Event} {w w' : World} {e : Event} {r : Nat}
  {p : Party} {a : Response}

theorem Inv.not_upset (ran : run (World.step (serveRequest sha256)) World.init es = some w)
    (hp : w.party r = some p) (hr : ¬ w.CommittedBy r) (h : Justified sha256 es r p.job a) :
    ¬ a.Upset := by
  intro upset
  obtain ⟨pre, m, clock, hm, hcurrent, hs⟩ := h
  by_cases admitted : p.job.Admitted
  · obtain ⟨old, hold⟩ := hcurrent.party hm.2
    have hjob := Inv.job_eq ran hm hold hp
    obtain ⟨rest, hrest⟩ := hm.rest ran
    have unowned : ¬ m.CommittedBy r := mt (World.run_committedBy hrest) hr
    rw [← hjob, Inv.sequential_eq hm.2 hold (hjob ▸ admitted) unowned] at hs
    have decided := atomic_decided sha256 old.job clock m.server.committed
    obtain ⟨-, ha⟩ := Prod.mk.inj hs
    generalize atomic sha256 old.job clock m.server.committed = result at decided ha
    cases decided <;> cases ha <;> rcases upset with h | h <;> cases h
  · obtain ⟨e, he, early⟩ := serveRequest_of_not_admitted sha256 admitted
    have : a = .envelope e false := by simpa [sequential, he, eq_comm] using congrArg Prod.snd hs
    subst this
    rcases upset with h | h
    · cases h
      rcases early with h | h | ⟨length, h⟩ <;> cases h
    · cases h

theorem Response.Upset.not_fresh (h : a.Upset) : ¬ a.Fresh := by
  rintro ⟨o, rfl, -⟩
  rcases h with h | h <;> cases h

theorem Response.Upset.not_lockTimeout (h : a.Upset) : ¬ a.LockTimeout := by
  rintro ⟨message, rfl⟩
  rcases h with h | h <;> cases h

theorem Inv.writes_holds (ran : run (World.step (serveRequest sha256)) World.init es = some w)
    {line : LogLine} {k : Except Exn Unit → App Response} (hp : w.party r = some p)
    (hprog : p.prog = .call (.log line) k) {s : Diary}
    (sound : s.known.Sound sha256 es w r p.job p.session)
    (meets : p.prog.Meets (diaryMonitor p.job) (Tells p.job) s) :
    line.Holds sha256 es w r p.job := by
  have inv := Inv.of_run ran
  have logging := inv.phases r p hp
  rw [hprog] at meets logging
  have decided := logging.of_logging
  obtain ⟨writes, left⟩ := meets
  have ends {raised : Exn → Prop} {answers : Response → Prop}
      (within : (k (.ok ())).Within Call.Quiet raised answers) :
      ∃ a s', answers a ∧ Tells p.job (.ok a) s' ∧ s'.known = s.known :=
    writes.ends (left (.ok ()) trivial) within
  have committed (owned : w.CommittedBy r) : ∃ c ∈ w.server.history, c.owner = r ∧
      c.job = p.job ∧ (c.row sha256).resourceId = some p.job.draws.first := by
    obtain ⟨c, hc, ho⟩ := owned
    obtain ⟨p', hp', hjob⟩ := inv.owners c hc
    rw [ho] at hp'
    cases hp.symm.trans hp'
    exact ⟨c, hc, ho, hjob.symm, congrArg (fun job : Job => some job.draws.first) hjob.symm⟩
  cases writes with
  | replayed row again operation =>
    obtain ⟨unowned, ⟨c, hc, hkey, rfl⟩, missed⟩ := sound
    exact ⟨unowned, rfl, hkey, ⟨c, hc, hkey, operation, rfl, rfl⟩, missed⟩
  | committed => exact ⟨rfl, rfl, committed sound⟩
  | transferCommitted req hreq => exact ⟨rfl, committed sound, req, hreq, rfl, rfl, rfl⟩
  | valueOutOfRange =>
    rcases sound with ⟨raised, -⟩ | ⟨unowned, -⟩
    · cases raised.unmapped.1
    rcases decided with ⟨a, settles, ha⟩ | ⟨upset, -⟩
    · obtain ⟨_, s', rfl, tells, hk⟩ := ends settles.within
      obtain rfl := tells.outOfRange hk
      rcases ha with ⟨-, -, ⟨message, h⟩ | justified⟩ | ⟨-, ⟨o, h, -⟩, -⟩
      · cases h
      · exact ⟨unowned, rfl, rfl, justified⟩
      · cases h
    · obtain ⟨a, s', ha, tells, hk⟩ := ends upset
      obtain rfl := tells.outOfRange hk
      rcases ha with h | h <;> cases h
  | lockTimeout =>
    rcases sound with ⟨raised, -⟩ | ⟨unowned, -, timedOut⟩
    · cases raised.unmapped.1
    · exact ⟨unowned, rfl, rfl, timedOut rfl⟩
  | unhandledError e lines unmapped =>
    rcases sound with ⟨-, disturbed⟩ | ⟨unowned, -⟩
    · exact disturbed
    rcases decided with ⟨a, settles, ha⟩ | ⟨-, disturbed⟩
    · obtain ⟨_, s', rfl, tells, hk⟩ := ends settles.within
      have upset := tells.upset hk unmapped
      rcases ha with ⟨-, -, lockTimeout | justified⟩ | ⟨-, fresh, -⟩
      · exact (upset.not_lockTimeout lockTimeout).elim
      · exact (Inv.not_upset ran hp unowned justified upset).elim
      · exact (upset.not_fresh fresh).elim
    · exact disturbed

end run

section lines

variable {sha256 : String → String} {es : List Event} {w w' : World} {e : Event} {r : Nat}

theorem linesOf_snoc (ran : run (World.step (serveRequest sha256)) World.init es = some w)
    (hstep : World.step (serveRequest sha256) w e = some w') :
    linesOf sha256 (es ++ [e]) r = linesOf sha256 es r ++ World.lines r w e w' := by
  rw [linesOf, observe_append _ ran, observe_singleton _ hstep]
  rfl

theorem World.lines_other (h : e.actor ≠ some r) (w w' : World) : World.lines r w e w' = [] := by
  unfold World.lines
  split
  · exact if_neg fun hq => h (congrArg some hq)
  · exact if_neg fun hq => h (congrArg some hq)
  · rfl

theorem World.lines_of_pending {w w' : World} (h : w.pending? r = none) :
    World.lines r w e w' = [] := by
  unfold World.lines
  split <;> simp [h]

theorem World.lines_met {job : Job} {c : Call} {k : Except Exn c.Reply → App Response}
    {session session' : Session} {server : Server} {reply : Except Exn c.Reply}
    (hp : w.party r = some ⟨job, .call c k, session⟩)
    (hm : w.Met r job session c e server session' reply) :
    World.lines r w e w' = c.lines ∨ World.lines r w e w' = [] ∧ ∃ x, reply = .error x := by
  have pending : w.pending? r = some c := by simp [World.pending?, hp]
  cases hm with
  | served _ => exact .inl (by simp [World.lines, pending])
  | failedAfter _ _ => exact .inl (by simp [World.lines, pending])
  | timedOut _ => exact .inr ⟨rfl, _, rfl⟩
  | deadlocked _ _ => exact .inr ⟨rfl, _, rfl⟩
  | failedBefore _ => exact .inr ⟨rfl, _, rfl⟩

theorem linesOf_absent (ran : run (World.step (serveRequest sha256)) World.init es = some w)
    (absent : w.party r = none) : linesOf sha256 es r = [] := by
  refine run_induction (P := fun es w => w.party r = none → linesOf sha256 es r = [])
    (fun _ => rfl) (fun es m e m' ran ih hstep absent => ?_) ran absent
  have before : m.party r = none := by
    by_contra h
    obtain ⟨old, hold⟩ := Option.ne_none_iff_exists'.mp h
    obtain ⟨new, hnew, -⟩ := (World.step_cases hstep).stays hold
    cases absent.symm.trans hnew
  rw [linesOf_snoc ran hstep, ih before, World.lines_of_pending (by simp [World.pending?, before])]
  rfl

end lines

structure Recorded (sha256 : String → String) (es : List Event) (w : World) (r : Nat) (p : Party)
    (s : Diary) : Prop where
  sound : s.known.Sound sha256 es w r p.job p.session
  meets : p.prog.Meets (diaryMonitor p.job) (Tells p.job) s
  written : s.lines.Sublist (linesOf sha256 es r)
  complete : linesOf sha256 es r = s.lines ∨ ∃ e, s.known = .raised e ∧ e.Raised

structure Accounted (sha256 : String → String) (es : List Event) (w : World) (r : Nat) (p : Party) :
    Prop where
  diary : p.prog = .pure .lost ∨ ∃ s, Recorded sha256 es w r p s
  holds : ∀ line ∈ linesOf sha256 es r, line.Holds sha256 es w r p.job
  once : ((linesOf sha256 es r).filter LogLine.isCommitted).length ≤ 1

section run

variable {sha256 : String → String} {es : List Event} {w w' : World} {e : Event} {r : Nat}
  {p : Party} {s : Diary}

theorem Recorded.closed (h : Recorded sha256 es w r p s) : Recorded sha256 es w r p.closed s where
  sound := by
    have idle : p.session = .idle → p.closed.session = .idle := by
      unfold Party.closed
      split
      · exact id
      · exact fun _ => rfl
    rw [Party.closed_job]
    exact h.sound.closes idle
  meets := by
    rw [Party.closed_prog, Party.closed_job]
    exact h.meets
  written := h.written
  complete := h.complete

theorem Accounted.later (h : Accounted sha256 es w r p)
    (same : linesOf sha256 (es ++ [e]) r = linesOf sha256 es r)
    (history : w.server.history <+: w'.server.history) (owned : w'.CommittedBy r ↔ w.CommittedBy r)
    (taken : (w.server.committed.key? p.job.key).isSome →
      (w'.server.committed.key? p.job.key).isSome)
    {session : Session} (idle : p.session = .idle → session = .idle) :
    Accounted sha256 (es ++ [e]) w' r { p with session } where
  diary := by
    refine h.diary.imp_right fun ⟨s, recorded⟩ => ⟨s, ?_, recorded.meets, ?_, ?_⟩
    · exact recorded.sound.later history owned taken idle
    · exact same.symm ▸ recorded.written
    · exact same.symm ▸ recorded.complete
  holds := by
    rw [same]
    exact fun line hline => (h.holds line hline).later history owned
  once := by
    rw [same]
    exact h.once

section met

variable {job : Job} {c : Call} {k : Except Exn c.Reply → App Response} {session session' : Session}
  {server : Server} {reply : Except Exn c.Reply}

theorem Recorded.silent (h : Recorded sha256 es w r ⟨job, .call c k, session⟩ s)
    (hs : s = ⟨.working, []⟩) : linesOf sha256 es r = [] := by
  subst hs
  rcases h.complete with h | ⟨e, hk, -⟩
  · exact h
  · cases hk

theorem World.Met.history (h : w.Met r job session c e server session' reply) :
    server.history = w.server.history ∨ c = .commit := by
  have executed {reply' : Except Exn c.Reply}
      (hx : w.server.exec r job session c = some (server, session', reply')) :
      server.history = w.server.history ∨ c = .commit := by
    rcases Server.exec_committed hx with ⟨-, hh⟩ | ⟨tx, rep, heffect, -⟩
    · exact .inl hh
    · exact .inr (Tables.effect_committed heffect).1
  cases h with
  | served hx => exact executed hx
  | failedAfter _ hx => exact executed hx
  | timedOut _ => exact .inl rfl
  | deadlocked _ _ => exact .inl rfl
  | failedBefore _ => exact .inl rfl

theorem Diary.next_raised {x : Exn} (admits : (diaryMonitor job).admits s c)
    (hk : s.known = .raised x) (raised : x.Raised) (reply : c.Reply) :
    s.known.next c reply = .raised x := by
  obtain ⟨known, lines⟩ := s
  obtain rfl : known = .raised x := hk
  cases c with
  | getKey key =>
    obtain ⟨-, again, h⟩ := admits
    cases h
  | log line => rfl
  | rollback =>
    have settled : Known.raised x ≠ .raised (.integrity (some .uniqueViolation)) := by
      simpa using raised.unmapped.2
    exact congrArg Diary.known (Diary.next_rollback (s := ⟨.raised x, lines⟩) settled)
  | _ => cases admits

theorem Recorded.met (ran : run (World.step (serveRequest sha256)) World.init es = some w)
    (hp : w.party r = some ⟨job, .call c k, session⟩)
    (hm : w.Met r job session c e server session' reply)
    (h : Recorded sha256 es w r ⟨job, .call c k, session⟩ s) :
    Recorded sha256 (es ++ [e]) (w.put r ⟨job, k reply, session'⟩ server) r
      ⟨job, k reply, session'⟩ (s.next c reply) := by
  have hstep := World.step_of_stepped (.met hp hm : w.Stepped (serveRequest sha256) e _)
  obtain ⟨admits, next⟩ := h.meets
  obtain ⟨expected, sound⟩ := Inv.sound_met ran hp hm h.sound admits
  have lines : World.lines r w e (w.put r ⟨job, k reply, session'⟩ server) = c.lines ∨ _ :=
    World.lines_met hp hm
  refine ⟨sound, next reply expected, ?written, ?complete⟩ <;> rw [linesOf_snoc ran hstep]
  case written =>
    cases reply with
    | ok x =>
      obtain hl | ⟨-, x, hx⟩ := lines
      · rw [hl]
        exact h.written.append (.refl _)
      · cases hx
    | error x => exact h.written.trans (List.sublist_append_left _ _)
  case complete =>
    cases reply with
    | ok x =>
      obtain hl | ⟨-, x, hx⟩ := lines
      · rw [hl]
        apply h.complete.imp (fun same => by rw [same]; rfl)
        rintro ⟨x, hk, raised⟩
        exact ⟨x, Diary.next_raised admits hk raised _, raised⟩
      · cases hx
    | error x =>
      by_cases raised : x.Raised
      · exact .inr ⟨x, rfl, raised⟩
      · obtain ⟨rfl, hc⟩ : s = ⟨.working, []⟩ ∧ c.lines = [] := by
          cases c with
          | getKey key => exact (raised expected).elim
          | rollback => exact (raised expected).elim
          | log line => exact (raised expected).elim
          | _ => exact ⟨admits, rfl⟩
        refine .inl ?_
        rw [h.silent rfl]
        rcases lines with hl | ⟨hl, -⟩
        · rw [hl, hc]
          rfl
        · rw [hl]
          rfl

theorem Accounted.met (ran : run (World.step (serveRequest sha256)) World.init es = some w)
    (hp : w.party r = some ⟨job, .call c k, session⟩)
    (hm : w.Met r job session c e server session' reply)
    (h : Accounted sha256 es w r ⟨job, .call c k, session⟩) :
    Accounted sha256 (es ++ [e]) (w.put r ⟨job, k reply, session'⟩ server) r
      (Party.closed ⟨job, k reply, session'⟩) := by
  have stepped : w.Stepped (serveRequest sha256) e (w.put r ⟨job, k reply, session'⟩ server) :=
    .met hp hm
  have hstep := World.step_of_stepped stepped
  obtain hlost | ⟨s, recorded⟩ := h.diary
  · cases hlost
  have admits := recorded.meets.1
  have lines : World.lines r w e (w.put r ⟨job, k reply, session'⟩ server) = c.lines ∨ _ :=
    World.lines_met hp hm
  refine ⟨.inr ⟨_, (recorded.met ran hp hm).closed⟩, fun line hline => ?holds, ?once⟩
  case holds =>
    rw [linesOf_snoc ran hstep, List.mem_append] at hline
    rw [Party.closed_job]
    rcases hm.history with hh | rfl
    · refine LogLine.Holds.later ?_ stepped.history (World.owned_put hh)
      rcases hline with old | new
      · exact h.holds line old
      rcases lines with hl | ⟨hl, -⟩
      · rw [hl] at new
        cases c with
        | log line' =>
          obtain rfl := List.mem_singleton.mp new
          have holds := Inv.writes_holds ran hp rfl recorded.sound recorded.meets
          exact holds
        | _ => cases new
      · rw [hl] at new
        cases new
    · have none_new : World.lines r w e (w.put r ⟨job, k reply, session'⟩ server) = [] :=
        lines.elim id And.left
      rw [recorded.silent admits, none_new] at hline
      rcases hline with hline | hline <;> cases hline
  case once =>
    rw [linesOf_snoc ran hstep, List.filter_append]
    rcases lines with hl | ⟨hl, -⟩
    · rw [hl]
      cases c with
      | log line =>
        obtain ⟨known, written⟩ := s
        have writes : Diary.Writes job ⟨known, written⟩ line := admits
        cases writes with
        | committed =>
          obtain same | ⟨x, hk, -⟩ := recorded.complete
          · simp [same, Call.lines, List.filter_cons, LogLine.isCommitted, Job.committedLine]
          · cases hk
        | _ => simpa [Call.lines, LogLine.isCommitted, Job.replayedLine] using h.once
      | _ => simpa [Call.lines] using h.once
    · simpa [hl] using h.once

end met

theorem Inv.accounted (ran : run (World.step (serveRequest sha256)) World.init es = some w)
    (hp : w.party r = some p) : Accounted sha256 es w r p := by
  refine run_induction (P := fun es w => ∀ r p, w.party r = some p → Accounted sha256 es w r p)
    (fun r p hp => by cases hp) ?next ran r p hp
  intro es w e w' ran ih hstep r p hp
  have inv := Inv.of_run ran
  have stepped := World.step_cases hstep
  have quiet (hl : World.lines r w e w' = []) :
      linesOf sha256 (es ++ [e]) r = linesOf sha256 es r := by
    rw [linesOf_snoc ran hstep, hl, List.append_nil]
  by_cases hr : e.actor = some r
  · cases stepped with
    | @arrived _ request draws absent _ =>
      cases hr
      rw [World.put_self] at hp
      cases hp
      have empty := (quiet rfl).trans (linesOf_absent ran absent)
      have unowned :
          ¬ (World.put { w with drawn := w.drawn ++ draws.toList } r
            ⟨⟨request, draws⟩, serveRequest sha256 ⟨request, draws⟩, .idle⟩
            w.server).CommittedBy r := by
        rw [World.owned_put rfl]
        rintro ⟨c, hc, ho⟩
        obtain ⟨p, hp, -⟩ := inv.owners c hc
        rw [ho] at hp
        cases absent.symm.trans hp
      refine ⟨.inr ⟨⟨.looking false, []⟩, Recorded.closed ⟨⟨rfl, unowned, by simp⟩,
        serveRequest_tells sha256 _, ?_, .inl empty⟩⟩, by simp [empty], by simp [empty]⟩
      exact List.nil_sublist _
    | @met _ r' job c k session session' server reply hp' hm =>
      obtain rfl := hm.eq_of_actor hr
      rw [World.put_self] at hp
      cases hp
      exact (ih _ _ hp').met ran hp' hm
    | @killed _ job prog tx hp' =>
      cases hr
      simp only [Function.update_self, Option.some.injEq] at hp
      cases hp
      exact (ih _ _ hp').later (quiet rfl) (World.step_cases hstep).history Iff.rfl id (by simp)
    | @crashed _ job c k session hp' =>
      cases hr
      rw [World.put_self] at hp
      cases hp
      have before := (ih _ _ hp').later (quiet rfl) (World.step_cases hstep).history
        (World.owned_put rfl) (inv.taken_mono (World.step_cases hstep)) id
      exact ⟨.inl rfl, before.holds, before.once⟩
    | ticked d => cases hr
  · rw [(stepped.other hr).1] at hp
    exact (ih r p hp).later (quiet (World.lines_other hr w w')) stepped.history
      (inv.committedBy_other stepped hr) (inv.taken_mono stepped) id

end run

section logged

variable (sha256 : String → String) (history : List Commit) (job : Job)

inductive Response.Logged : Response → List LogLine → Prop
  | earned (o : Outcome) : o.replayed = false → Logged (.outcome o) job.booked
  | replayed (c : Commit) (raced : Bool) : c ∈ history →
      Logged (.outcome
        { statusCode := 200, body := (c.row sha256).responseBody, replayed := true })
        [job.replayedLine (c.row sha256) raced]
  | refused (error : LedgerError) : error.Silent → Logged (.envelope error false) []
  | valueOutOfRange : Logged (.envelope .amountOutOfRange false)
      [.valueOutOfRange job.operation job.key]
  | lockTimeout : Logged (.envelope .busy true) [.lockTimeout job.operation job.key]
  | unhandled (e : Exn) {lines : List LogLine} : .unhandledError e ∈ lines →
      Logged (.envelope .unexpected false) lines
  | plainText (lines : List LogLine) : Logged .plainText lines
  | lost (lines : List LogLine) : Logged .lost lines

end logged

theorem LedgerError.Early.silent {e : LedgerError} (h : e.Early) : e.Silent := by
  rcases h with rfl | rfl | ⟨length, rfl⟩ <;> exact trivial

theorem LedgerError.Silent.retryable {error : LedgerError} (h : error.Silent) :
    error.retryable = false := by
  cases error <;> first | rfl | exact h.elim

theorem Recorded.logged {sha256 : String → String} {es : List Event} {w : World} {r : Nat}
    {p : Party}
    {s : Diary} {a : Response} (h : Recorded sha256 es w r p s) (hp : p.prog = .pure a) :
    a.Logged sha256 w.server.history p.job (linesOf sha256 es r) := by
  obtain ⟨sound, tells, written, complete⟩ := h
  rw [hp] at tells
  have all (calm : ∀ e, s.known = .raised e → ¬ e.Raised) : linesOf sha256 es r = s.lines := by
    rcases complete with h | ⟨e, hk, raised⟩
    · exact h
    · exact (calm e hk raised).elim
  have tells : Tells p.job (.ok a) s := tells
  cases tells with
  | served left =>
    cases left with
    | replayed row again _ =>
      obtain ⟨-, ⟨c, hc, -, rfl⟩, -⟩ := sound
      rw [all (by simp)]
      exact .replayed c again hc
    | earned o fresh =>
      rw [all (by simp)]
      exact .earned _ fresh
  | refused left =>
    cases left with
    | conflict row again =>
      rw [all (by simp)]
      exact .refused _ trivial
    | refused error silent =>
      rw [all (by simp), silent.retryable]
      exact .refused _ silent
    | valueOutOfRange =>
      rw [all (by rintro e ⟨⟩ raised; cases raised.unmapped.1)]
      exact .valueOutOfRange
    | lockTimeout =>
      rw [all (by rintro e ⟨⟩ raised; cases raised.unmapped.1)]
      exact .lockTimeout
    | raised e lines unmapped => exact (Exn.not_unmapped _ unmapped).elim
  | early e h =>
    rw [all (by simp)]
    exact .refused e h.silent
  | unhandled e before _ => exact .unhandled e (written.subset (by simp))
  | failed e before _ => exact .plainText _

/-- Every line is true, an answer determines the lines, and no commit goes without its own unless a
fault hit the request. -/
theorem log_tells_the_truth {sha256 : String → String} (x : Run (serveRequest sha256)) :
    (∀ r, ∀ line ∈ linesOf sha256 x.events r, ∃ p, x.last.party r = some p ∧
      line.Holds sha256 x.events x.last r p.job) ∧
    (∀ r p a, x.last.party r = some p → x.last.answer r = some a →
      a.Logged sha256 x.last.server.history p.job (linesOf sha256 x.events r)) ∧
    (∀ r, ((linesOf sha256 x.events r).filter LogLine.isCommitted).length ≤ 1) ∧
    ∀ c ∈ x.last.server.history, x.last.Serving c.owner ∨ Disturbed x.events c.owner ∨
      linesOf sha256 x.events c.owner = c.job.booked := by
  have inv := Inv.of_run x.ran
  have writer {r : Nat} (h : linesOf sha256 x.events r ≠ []) : ∃ p, x.last.party r = some p :=
    Option.ne_none_iff_exists'.mp fun absent => h (linesOf_absent x.ran absent)
  have logged : ∀ r p a, x.last.party r = some p → x.last.answer r = some a →
      a.Logged sha256 x.last.server.history p.job (linesOf sha256 x.events r) := by
    intro r p a hp ha
    obtain ⟨p', hp', hprog⟩ := World.answer_eq.mp ha
    cases hp.symm.trans hp'
    rcases (Inv.accounted x.ran hp).diary with lost | ⟨s, recorded⟩
    · cases hprog.symm.trans lost
      exact .lost _
    · exact recorded.logged hprog
  refine ⟨fun r line hline => ?_, logged, fun r => ?_, fun c hc => ?_⟩
  · obtain ⟨p, hp⟩ := writer (List.ne_nil_of_mem hline)
    exact ⟨p, hp, (Inv.accounted x.ran hp).holds line hline⟩
  · by_cases h : linesOf sha256 x.events r = []
    · simp [h]
    · obtain ⟨p, hp⟩ := writer h
      exact (Inv.accounted x.ran hp).once
  · by_cases serving : x.last.Serving c.owner
    · exact .inl serving
    obtain ⟨p, hp, hjob⟩ := inv.owners c hc
    obtain ⟨a, ha⟩ := inv.answered hp serving
    have owned : x.last.CommittedBy c.owner := ⟨c, hc, rfl⟩
    rcases inv.answer hp ha with
      ⟨-, unowned⟩ | ⟨-, disturbed⟩ | ⟨unowned, -⟩ | ⟨-, ⟨o, rfl, fresh⟩, -⟩
    · exact (unowned owned).elim
    · exact .inr (.inl disturbed)
    · exact (unowned owned).elim
    · have lines := logged _ _ _ hp ha
      rw [← hjob]
      generalize linesOf sha256 x.events c.owner = written at lines ⊢
      cases lines with
      | earned _ _ => exact .inr (.inr rfl)
      | replayed c raced hc => cases fresh

end Ledger
