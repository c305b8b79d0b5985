import Ledger.Deadlock
import Ledger.Diary
import Ledger.Failures
import Ledger.LostRace

namespace Ledger

open Lib

section served

def Exn.Served : Exn → Prop
  | .ledger _ | .operational (some _) => False
  | _ => True

def Effect.Served {α : Type} : Effect α → Prop
  | .stay (.error e) | .done _ (.error e) | .failed e => e.Served
  | _ => True

theorem Exn.Served.told {e : Exn} (h : e.Served) : e.Told := by
  unfold Exn.Told
  split
  · exact h
  · exact h
  · exact trivial

theorem inTx_served {α : Type} {clock : Timestamp} {session : Session} {body : Tx → Effect α}
    (h : ∀ tx, (body tx).Served) : (inTx clock session body).Served := by
  cases session with
  | idle => exact h _
  | active tx => exact h tx
  | broken => exact trivial

theorem Balance.ofDecimal_served {d : Decimal} {e : Exn} (h : Balance.ofDecimal d = .error e) :
    e.Served := by
  rcases Balance.ofDecimal_error h with rfl | rfl <;> exact trivial

theorem Tables.effect_served (t : Tables) (clock : Timestamp) (session : Session) (c : Call) :
    (t.effect clock session c).Served := by
  unfold Tables.effect
  cases c with
  | getKey key => exact inTx_served fun tx => (by trivial)
  | insertKey row =>
    refine inTx_served fun tx => ?_
    split <;> exact trivial
  | lockAccount id =>
    refine inTx_served fun tx => ?_
    split <;> exact trivial
  | selectNow => exact inTx_served fun tx => (by trivial)
  | updateBalance id balance =>
    refine inTx_served fun tx => ?_
    split
    · exact trivial
    · split
      · next h => exact Balance.ofDecimal_served h
      · exact trivial
  | insertEntry id transferId accountId amount =>
    refine inTx_served fun tx => ?_
    split
    · next h => rcases Amount.ofDecimal_error h with rfl | rfl <;> exact trivial
    · split
      · exact trivial
      · split <;> exact trivial
  | insertAccount id balance openingBalance =>
    refine inTx_served fun tx => ?_
    split
    · next h => exact Balance.ofDecimal_served h
    · next h _ => exact Balance.ofDecimal_served h
    · split <;> exact trivial
  | refreshAccount id =>
    refine inTx_served fun tx => ?_
    split <;> exact trivial
  | updateKey key resourceId responseStatus responseBody =>
    refine inTx_served fun tx => ?_
    split <;> exact trivial
  | commit =>
    refine inTx_served fun tx => ?_
    split
    · next h =>
      rw [checkDeferred_error h]
      exact trivial
    · exact trivial
  | rollback => exact trivial
  | log line => exact trivial

variable {s s' : Server} {me : Nat} {job : Job} {session session' : Session} {c : Call} {e : Exn}

theorem Server.exec_error (h : s.exec me job session c = some (s', session', .error e)) :
    e.Served ∧ s'.history = s.history := by
  have served := s.committed.effect_served s.clock session c
  unfold exec at h
  cases he : s.committed.effect s.clock session c with
  | stay reply =>
    rw [he] at h served
    cases h
    exact ⟨served, rfl⟩
  | done tx reply =>
    rw [he] at h served
    cases h
    exact ⟨served, rfl⟩
  | locked x tx reply =>
    rw [he] at h
    obtain ⟨locks, -, h⟩ := Option.map_eq_some_iff.mp h
    cases h
  | failed e' =>
    rw [he] at h served
    cases h
    exact ⟨served, rfl⟩
  | committed tx reply => rw [he] at h; cases h
  | rolledBack reply => rw [he] at h; cases h

theorem Server.exec_commit {x : Unit}
    (h : s.exec me job session .commit = some (s', session', .ok x)) :
    ∃ startedAt, s'.history = s.history ++ [⟨me, job, startedAt⟩] := by
  have inside (tx : Tx) : ∀ {s'' : Server} {session'' : Session},
      s.exec me job (.active tx) .commit = some (s'', session'', .ok x) →
        s''.history = s.history ++ [⟨me, job, tx.startedAt⟩] := by
    intro s'' session'' h
    cases hcheck : s.committed.checkDeferred tx with
    | error e => simp [exec, Tables.effect, inTx, hcheck] at h
    | ok _ =>
      simp only [exec, Tables.effect, inTx, hcheck] at h
      cases h
      rfl
  cases session with
  | idle => exact ⟨_, inside ⟨s.clock, []⟩ h⟩
  | active tx => exact ⟨_, inside tx h⟩
  | broken => cases h

theorem Server.exec_refreshAccount {id : Uuid} {row : Account}
    (h : s.exec me job session (.refreshAccount id) = some (s', session', .ok row)) :
    row.id = id := by
  have inside (tx : Tx) (hs : s.committed.effect s.clock session (.refreshAccount id) =
      s.committed.effect s.clock (.active tx) (.refreshAccount id)) : row.id = id := by
    rw [exec, hs] at h
    cases ha : (s.committed.view tx).account? id with
    | none => simp [Tables.effect, inTx, ha] at h
    | some account =>
      simp only [Tables.effect, inTx, ha] at h
      cases h
      exact Rows.key_of_lookup ha
  cases session with
  | idle => exact inside ⟨s.clock, []⟩ rfl
  | active tx => exact inside tx rfl
  | broken => cases h

end served

section knowledge

variable (sha256 : String → String) (es : List Event) (w : World) (r : Nat) (job : Job)

def Missed : Prop := ∃ pre m, Earlier sha256 es pre m ∧ m.Serving r ∧
  m.server.committed.key? job.key = none

def Known.Sound (session : Session) : Known → Prop
  | .looking again => session = .idle ∧ ¬ w.CommittedBy r ∧
    (again = true → (w.server.committed.key? job.key).isSome ∧ Missed sha256 es r job)
  | .found row again => ¬ w.CommittedBy r ∧ (∃ c ∈ w.server.history, c.job.key = job.key ∧
    c.row sha256 = row) ∧ (again = true → Missed sha256 es r job)
  | .working => ¬ w.CommittedBy r ∧ Missed sha256 es r job
  | .committed => w.CommittedBy r
  | .raised e => e.Raised ∧ Disturbed es r ∨ ¬ w.CommittedBy r ∧
    (e = .integrity (some .uniqueViolation) →
      (w.server.committed.key? job.key).isSome ∧ Missed sha256 es r job) ∧
    (e = .operational (some .lockNotAvailable) → .timeout r ∈ es)

end knowledge

section later

variable {sha256 : String → String} {es : List Event} {w w' : World} {e : Event} {r : Nat}
  {job : Job}

theorem Missed.later (h : Missed sha256 es r job) (e : Event) :
    Missed sha256 (es ++ [e]) r job := by
  obtain ⟨pre, m, hm, missed⟩ := h
  exact ⟨pre, m, hm.snoc e, missed⟩

theorem Known.Sound.closes {known : Known} {session session' : Session}
    (h : known.Sound sha256 es w r job session) (idle : session = .idle → session' = .idle) :
    known.Sound sha256 es w r job session' := by
  cases known with
  | looking again => exact h.imp_left idle
  | _ => exact h

theorem Known.Sound.later {known : Known} {session session' : Session}
    (h : known.Sound sha256 es w r job session)
    (history : w.server.history <+: w'.server.history) (owned : w'.CommittedBy r ↔ w.CommittedBy r)
    (taken : (w.server.committed.key? job.key).isSome → (w'.server.committed.key? job.key).isSome)
    (idle : session = .idle → session' = .idle) :
    known.Sound sha256 (es ++ [e]) w' r job session' := by
  cases known with
  | looking again =>
    obtain ⟨hs, unowned, lost⟩ := h
    exact ⟨idle hs, mt owned.mp unowned, fun hr => (lost hr).imp taken (·.later e)⟩
  | found row again =>
    obtain ⟨unowned, ⟨c, hc, hrow⟩, missed⟩ := h
    exact ⟨mt owned.mp unowned, ⟨c, history.subset hc, hrow⟩, fun hr => (missed hr).later e⟩
  | working => exact h.imp (mt owned.mp) (·.later e)
  | committed => exact owned.mpr h
  | raised x =>
    apply h.imp (And.imp_right fun ⟨y, hy, hd⟩ => ⟨y, List.mem_append_left _ hy, hd⟩)
    rintro ⟨unowned, lost, timedOut⟩
    exact ⟨mt owned.mp unowned, fun hx => (lost hx).imp taken (·.later e),
      fun hx => List.mem_append_left _ (timedOut hx)⟩

end later

theorem Call.raises_of_resource {c : Call} {x : Resource} {e : Exn} (h : c.resource? = some x)
    (told : e.Told) : c.Raises e := by
  cases c <;> first | exact told | cases h

theorem Exn.Raised.raises {e : Exn} (h : e.Raised) (c : Call) : c.Raises e := by
  cases c <;> first | exact h | exact h.told

section run

variable {sha256 : String → String} {es : List Event} {w w' : World} {e : Event} {r : Nat}
  {job : Job} {c : Call} {k : Except Exn c.Reply → App Response} {session session' : Session}
  {server : Server} {s : Diary}

theorem World.owned_put {p : Party} (h : server.history = w.server.history) :
    (w.put r p server).CommittedBy r ↔ w.CommittedBy r := by
  simp [World.CommittedBy, h]

theorem Inv.sound_served (ran : run (World.step (serveRequest sha256)) World.init es = some w)
    (hp : w.party r = some ⟨job, .call c k, session⟩) {x : c.Reply}
    (hx : w.server.exec r job session c = some (server, session', .ok x))
    (sound : s.known.Sound sha256 es w r job session)
    (admits : (diaryMonitor job).admits s c) : s.Expects c x ∧
      (s.known.next c x).Sound sha256 (es ++ [.serve r]) (w.put r ⟨job, k (.ok x), session'⟩ server)
        r job session' := by
  have inv := Inv.of_run ran
  have stepped : w.Stepped (serveRequest sha256) (.serve r)
      (w.put r ⟨job, k (.ok x), session'⟩ server) := .met hp (.served hx)
  have stays {known : Known} (h : known.Sound sha256 es w r job session)
      (idle : session = .idle → session' = .idle) (hh : server.history = w.server.history) :
      known.Sound sha256 (es ++ [.serve r]) (w.put r ⟨job, k (.ok x), session'⟩ server) r job
        session' :=
    h.later stepped.history (World.owned_put hh) (inv.taken_mono stepped) idle
  have owned (h : server.history = w.server.history) (unowned : ¬ w.CommittedBy r) :
      ¬ (w.put r ⟨job, k (.ok x), session'⟩ server).CommittedBy r :=
    mt (World.owned_put h).mp unowned
  obtain ⟨known, lines⟩ := s
  have works (h : c.Works) (expected : Diary.Expects ⟨known, lines⟩ c x) :
      Diary.Expects ⟨known, lines⟩ c x ∧ (known.next c x).Sound sha256 (es ++ [.serve r])
        (w.put r ⟨job, k (.ok x), session'⟩ server) r job session' := by
    obtain ⟨rfl, rfl⟩ : known = .working ∧ lines = [] := by
      cases c <;> first | exact h.elim | exact Diary.mk.inj admits
    have same : Known.working.next c x = .working := by
      cases c <;> first | exact h.elim | rfl
    have hh : server.history = w.server.history := by
      rcases Server.exec_committed hx with ⟨-, hh⟩ | ⟨tx, rep, heffect, -⟩
      · exact hh
      · obtain ⟨rfl, -⟩ := Tables.effect_committed heffect
        exact h.elim
    exact ⟨expected, same.symm ▸ ⟨owned hh sound.1, sound.2.later _⟩⟩
  cases c with
  | getKey key =>
    obtain ⟨rfl, again, (rfl : known = .looking again)⟩ := admits
    obtain ⟨rfl, unowned, lost⟩ := sound
    obtain ⟨rfl, read⟩ : server = w.server ∧ x = w.server.committed.key? job.key := by
      cases hx
      exact ⟨rfl, rfl⟩
    cases hrow : w.server.committed.key? job.key with
    | none =>
      rw [hrow] at read lost
      subst read
      refine ⟨?_, owned rfl unowned, es, w, (Past.last ran).snoc _, ⟨_, _, _, hp, rfl⟩, hrow⟩
      rintro ⟨⟩
      exact (lost rfl).1
    | some row =>
      rw [hrow] at read
      subst read
      obtain ⟨c, hc, rfl, hkey⟩ := (Inv.books ran).commit_of_key hrow
      exact ⟨fun _ => rfl, owned rfl unowned, ⟨c, stepped.history.subset hc, hkey, rfl⟩,
        fun hr => (lost hr).2.later _⟩
  | log line => exact ⟨trivial, stays sound (by cases hx; exact id) (by cases hx; rfl)⟩
  | rollback =>
    refine ⟨trivial, ?_⟩
    have closed : session' = .idle := by
      cases hx
      rfl
    have hh : server.history = w.server.history := by
      cases hx
      rfl
    by_cases hk : known = .raised (.integrity (some .uniqueViolation))
    · subst hk
      rcases sound with ⟨hraised, -⟩ | ⟨unowned, lost, -⟩
      · exact (hraised.unmapped.2 rfl).elim
      · exact ⟨closed, owned hh unowned,
          fun _ => (lost rfl).imp (inv.taken_mono stepped) (·.later _)⟩
    · have same : known.next .rollback x = known :=
        congrArg Diary.known (Diary.next_rollback (s := ⟨known, lines⟩) hk)
      exact same.symm ▸ stays sound (fun _ => closed) hh
  | commit =>
    obtain ⟨startedAt, hh⟩ := Server.exec_commit hx
    exact ⟨trivial, ⟨r, job, startedAt⟩, by simp [hh], rfl⟩
  | refreshAccount id => exact works trivial (Server.exec_refreshAccount hx)
  | _ => exact works trivial trivial

theorem Inv.sound_met (ran : run (World.step (serveRequest sha256)) World.init es = some w)
    (hp : w.party r = some ⟨job, .call c k, session⟩) {reply : Except Exn c.Reply}
    (hm : w.Met r job session c e server session' reply)
    (sound : s.known.Sound sha256 es w r job session) (admits : (diaryMonitor job).admits s c) :
    (diaryMonitor job).expects s c reply ∧ (s.next c reply).known.Sound sha256 (es ++ [e])
      (w.put r ⟨job, k reply, session'⟩ server) r job session' := by
  have inv := Inv.of_run ran
  have stepped : w.Stepped (serveRequest sha256) e (w.put r ⟨job, k reply, session'⟩ server) :=
    .met hp hm
  have faulty {x : Exn} (hx : x.Raised) (he : e.Raises r) :
      (diaryMonitor job).expects s c (.error x) ∧ (s.next c (.error x)).known.Sound sha256
        (es ++ [e]) (w.put r ⟨job, k reply, session'⟩ server) r job session' :=
    ⟨hx.raises c, .inl ⟨hx, e, by simp, .inl he⟩⟩
  cases hm with
  | failedBefore fault => exact faulty ⟨fault, rfl⟩ ⟨fault, .inl rfl⟩
  | failedAfter fault _ => exact faulty ⟨fault, rfl⟩ ⟨fault, .inr rfl⟩
  | deadlocked _ _ =>
    have found := World.step_of_stepped stepped
    rw [inv.deadlock_eq_none] at found
    cases found
  | timedOut hx =>
    obtain ⟨(unowned : ¬ w.CommittedBy r), -⟩ := (inv.phases r _ hp).of_blocked rfl hx
    obtain ⟨x, tx, rep, heffect, -⟩ := Server.exec_eq_none.mp hx
    exact ⟨Call.raises_of_resource (Tables.effect_locked heffect) trivial,
      .inr ⟨mt (World.owned_put Server.release_history).mp unowned, by simp, fun _ => by simp⟩⟩
  | served hx =>
    cases reply with
    | ok x => exact Inv.sound_served ran hp hx sound admits
    | error x =>
      obtain ⟨served, hh⟩ := Server.exec_error hx
      have inside : c.Raises x ∧ ¬ w.CommittedBy r ∧ Missed sha256 es r job := by
        obtain ⟨known, lines⟩ := s
        cases c with
        | getKey key =>
          obtain ⟨rfl, again, (rfl : known = .looking again)⟩ := admits
          obtain ⟨rfl, -⟩ := sound
          cases hx
        | rollback => cases hx
        | log line => cases hx
        | _ =>
          cases admits
          exact ⟨served.told, sound⟩
      obtain ⟨raises, unowned, missed⟩ := inside
      refine ⟨raises, .inr ⟨mt (World.owned_put hh).mp unowned, fun hu => ?_, fun hl => ?_⟩⟩
      · subst hu
        obtain ⟨-, -, -, -, taken⟩ := inv.of_uniqueViolation hp (.served hx)
        exact ⟨inv.taken_mono stepped taken, missed.later _⟩
      · subst hl
        exact served.elim

end run

end Ledger
