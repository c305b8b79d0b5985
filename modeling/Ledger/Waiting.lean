import Ledger.Calls
import Ledger.Deadlock
import Ledger.ExactlyOnce

namespace Ledger

open Lib

/-- Its own key, while nobody has committed it, the accounts it names, when they are there, and the
account it opens. -/
def Job.MayLock (job : Job) (t : Tables) : Resource → Prop
  | .key key => key = job.key ∧ t.key? key = none
  | .account id => job.Names id ∧ (t.account? id).isSome ∨
      id = job.draws.first ∧ ∃ req, job.request.payload = .account req

theorem Job.Names.not_account {job : Job} {id : Uuid} (h : job.Names id)
    (req : CreateAccountRequest) :
    job.request.payload ≠ .account req := by
  obtain ⟨req', hreq, -⟩ := h
  simp [hreq]

namespace Tables

variable {t : Tables} {id : Uuid}

theorem account?_isSome_after (h : (t.account? id).isSome) (writes : List Write) :
    ((t.after writes).account? id).isSome := by
  induction writes generalizing t with
  | nil => exact h
  | cons write writes ih =>
    apply ih
    cases write <;> simp_all [Write.apply, account?, Rows.lookup_append, Rows.lookup_modify]

theorem account?_isSome_of_no_insert {writes : List Write}
    (h : ∀ write ∈ writes, ∀ row, write ≠ .insertAccount row) :
    ((t.after writes).account? id).isSome = (t.account? id).isSome := by
  induction writes generalizing t with
  | nil => rfl
  | cons write writes ih =>
    apply (ih fun w hw => h w (List.mem_cons_of_mem _ hw)).trans
    cases write with
    | insertAccount row => exact (h _ (by simp) row rfl).elim
    | updateBalance k balance => simp [Write.apply, account?, Rows.lookup_modify]
    | _ => rfl

end Tables

def Effect.tx? {α : Type} : Effect α → Option Tx
  | .done tx _ | .locked _ tx _ => some tx
  | _ => none

theorem insertAccount_of_effect {t : Tables} {clock : Timestamp} {tx tx' : Tx} {c : Call}
    (h : (t.effect clock (.active tx) c).tx? = some tx') {row : Account}
    (hrow : .insertAccount row ∈ tx'.writes) : .insertAccount row ∈ tx.writes ∨
      ∃ id balance openingBalance, c = .insertAccount id balance openingBalance := by
  cases c with
  | insertAccount id balance openingBalance => exact .inr ⟨_, _, _, rfl⟩
  | _ =>
    left
    simp only [Tables.effect, inTx] at h
    (repeat' split at h) <;> cases h <;> simp_all [Tx.write]

theorem tx_of_alone {t : Tables} {clock : Timestamp} {tx tx' : Tx} {c : Call} {reply : c.Reply}
    (h : alone clock (t, .active tx) c = ((t, .active tx'), .ok reply)) :
    tx' = tx ∨ (t.effect clock (.active tx) c).tx? = some tx' := by
  unfold alone at h
  dsimp only at h
  generalize t.effect clock (.active tx) c = effect at h ⊢
  cases effect with
  | stay rep => cases h; exact .inl rfl
  | done tx rep => cases h; exact .inr rfl
  | locked x tx rep => cases h; exact .inr rfl
  | failed e => cases h
  | committed tx rep => simp at h
  | rolledBack rep => cases h

namespace Job.Reached

variable {sha256 : String → String} {job : Job} {t : Tables} {fp : Footprint} {tx : Tx}
  {prog : App Response} {c : Call} {k : Except Exn c.Reply → App Response}

theorem makes (h : job.Reached sha256 t fp tx prog) : ∃ n, AtMost job prog n := by
  induction h with
  | claimed => exact ⟨_, claimed_atMost sha256 job⟩
  | @next fp tx tx' c k reply _ _ _ _ _ ih =>
    obtain ⟨_ | n, hn⟩ := ih
    · exact hn.elim
    · exact ⟨n, hn.2 _⟩

theorem unclaimed (h : job.Reached sha256 t fp tx prog) : t.key? job.key = none := by
  induction h with
  | claimed _ hkey => exact hkey
  | next _ _ _ _ _ ih => exact ih

theorem own_key (h : job.Reached sha256 t fp tx prog) : .key job.key ∈ fp.touched := by
  induction h with
  | claimed => simp
  | next _ _ _ _ _ ih => exact Footprint.touched_extend _ ih

theorem no_insert (h : job.Reached sha256 t fp tx prog) {id : Uuid} (names : job.Names id) :
    ∀ write ∈ tx.writes, ∀ row, write ≠ .insertAccount row := by
  induction h with
  | claimed => simp
  | @next fp tx tx' c k reply before _ _ _ answered ih =>
    rintro write hw row rfl
    obtain rfl | heffect := tx_of_alone answered
    · exact ih _ hw row rfl
    · obtain hold | ⟨id', balance, openingBalance, rfl⟩ := insertAccount_of_effect heffect hw
      · exact ih _ hold row rfl
      · obtain ⟨_ | n, hn⟩ := before.makes
        · exact hn
        · obtain ⟨⟨-, req, hreq⟩, -⟩ := hn
          exact names.not_account req hreq

theorem mayLock (h : job.Reached sha256 t fp tx (.call c k)) (allowed : fp.Allows job c)
    {clock : Timestamp} {x : Resource} {tx' : Tx} {rep : c.Reply}
    (locked : t.effect clock (.active tx) c = .locked x tx' rep) :
    x ∈ fp.touched ∨ job.MayLock t x := by
  obtain ⟨_ | n, hn⟩ := h.makes
  · exact hn.elim
  obtain ⟨makes, -⟩ := hn
  have resource := Tables.effect_locked locked
  cases c with
  | lockAccount id =>
    cases resource
    refine .inr (.inl ⟨makes, ?_⟩)
    rw [← Tables.account?_isSome_of_no_insert (h.no_insert makes)]
    simp only [Tables.effect, inTx] at locked
    split at locked
    · cases locked
    · next row hrow => exact Option.isSome_of_eq_some hrow
  | insertAccount id _ _ =>
    cases resource
    exact .inr (.inr makes)
  | updateBalance id _ =>
    cases resource
    exact .inl allowed
  | updateKey key _ _ _ =>
    cases resource
    exact .inl allowed
  | insertKey row => exact allowed.elim
  | _ => cases resource

end Job.Reached

section run

variable {sha256 : String → String} {es : List Event} {w w' : World} {e : Event} {r q : Nat}
  {x : Resource}

structure World.Guards (w : World) (p : Party) (r : Nat) (x : Resource) : Prop where
  party : w.party r = some p
  mayLock : p.job.MayLock w.server.committed x
  key : w.server.locks (.key p.job.key) = some r
  unclaimed : w.server.committed.key? p.job.key = none

def World.Guarded (w : World) : Prop :=
  ∀ r x, w.server.locks x = some r → ∃ p, w.Guards p r x

theorem World.put_owner {p : Party} {server : Server}
    (h : (w.put r p server).server.locks x = some r) : (w.put r p server).server = server := by
  cases hp : p.prog with
  | call c k => exact World.put_call hp
  | pure a =>
    rw [World.put_finished (by simp [hp])] at h
    exact (Locks.release_self _ _ _ h).elim
  | raise e =>
    rw [World.put_finished (by simp [hp])] at h
    exact (Locks.release_self _ _ _ h).elim

theorem Inv.guarded_exec (inv : Inv sha256 es w) (guarded : w.Guarded) {job : Job} {c : Call}
    {k : Except Exn c.Reply → App Response} {session session' : Session} {server : Server}
    {reply : Except Exn c.Reply} (hp : w.party r = some ⟨job, .call c k, session⟩)
    (hx : w.server.exec r job session c = some (server, session', reply))
    (hl : server.locks x = some r) : server.committed = w.server.committed ∧
      job.MayLock server.committed x ∧ server.locks (.key job.key) = some r ∧
      server.committed.key? job.key = none := by
  have kept {z : Resource} (h : w.server.locks z = some r) : job.MayLock w.server.committed z ∧
      w.server.locks (.key job.key) = some r ∧ w.server.committed.key? job.key = none := by
    obtain ⟨p, hg⟩ := guarded r z h
    cases hp.symm.trans hg.party
    exact ⟨hg.mayLock, hg.key, hg.unclaimed⟩
  cases heffect : w.server.committed.effect w.server.clock session c with
  | locked y tx rep =>
    simp only [Server.exec, heffect] at hx
    obtain ⟨locks, hacquire, hx⟩ := Option.map_eq_some_iff.mp hx
    cases hx
    obtain ⟨-, rfl⟩ := Locks.acquire_eq_some.mp hacquire
    have resource := Tables.effect_locked heffect
    have own {z : Resource} (hz : z ≠ y → w.server.locks z = some r) :
        Function.update w.server.locks y (some r) z = some r := by
      by_cases hzy : z = y
      · simp [hzy]
      · simp [hzy, hz hzy]
    have mine (hxy : x ≠ y) : w.server.locks x = some r := by simpa [hxy] using hl
    have calling : Phase.Calling sha256 job w.server.committed (w.server.locks.Holds r)
      (recordOf sha256 es w r job) c k session := (inv.phases r _ hp).calling rfl
    cases calling with
    | quiet _ hq => cases c <;> first | exact hq.elim | cases resource
    | reading => cases resource
    | claiming _ free _ _ =>
      cases resource
      have absent : w.server.committed.key? job.key = none := by
        simp only [Tables.effect, inTx] at heffect
        split at heffect
        · cases heffect
        · next h => exact Option.not_isSome_iff_eq_none.mp h
      have : x = .key job.key := by
        by_contra hne
        simpa using (free x).mp (mine hne)
      subst this
      exact ⟨rfl, ⟨rfl, absent⟩, own fun h => (h rfl).elim, absent⟩
    | working _ holds allowed reached _ =>
      refine ⟨rfl, ?_, own fun _ => (holds _).mpr reached.own_key, reached.unclaimed⟩
      by_cases hxy : x = y
      · obtain touched | mayLock := reached.mayLock allowed heffect
        · exact hxy ▸ (kept ((holds y).mpr touched)).1
        · exact hxy ▸ mayLock
      · exact (kept (mine hxy)).1
    | commit _ _ _ _ _ _ _ => cases resource
    | severed hq =>
      rw [Phase.effect_broken hq] at heffect
      cases heffect
  | stay rep =>
    simp only [Server.exec, heffect] at hx
    cases hx
    exact ⟨rfl, kept hl⟩
  | done tx rep =>
    simp only [Server.exec, heffect] at hx
    cases hx
    exact ⟨rfl, kept hl⟩
  | _ =>
    simp only [Server.exec, heffect] at hx
    cases hx
    exact (Locks.release_self _ _ _ hl).elim

theorem Job.MayLock.later {job : Job} {t t' : Tables} (h : job.MayLock t x)
    (key : t.key? job.key = none → t'.key? job.key = none)
    (account : ∀ id, (t.account? id).isSome → (t'.account? id).isSome) : job.MayLock t' x := by
  cases x with
  | key k =>
    obtain ⟨rfl, absent⟩ := h
    exact ⟨rfl, key absent⟩
  | account id => exact h.imp_left fun ⟨names, there⟩ => ⟨names, account id there⟩

theorem Inv.guarded_step (inv : Inv sha256 es w) (guarded : w.Guarded)
    (h : w.Stepped (serveRequest sha256) e w') : w'.Guarded := by
  intro q x hx
  by_cases hq : e.actor = some q
  · cases h with
    | @arrived r request draws absent _ =>
      cases hq
      rw [World.put_owner hx] at hx
      simpa using (inv.unlocked absent x).mp hx
    | @met e r job c k session session' server reply hp hm =>
      obtain rfl := hm.eq_of_actor hq
      have hserver := World.put_owner hx
      rw [hserver] at hx
      have guards (h : job.MayLock server.committed x ∧ server.locks (.key job.key) = some r ∧
          server.committed.key? job.key = none) :
          ∃ p, (w.put r ⟨job, k reply, session'⟩ server).Guards p r x := by
        refine ⟨_, World.put_self, ?_, ?_, ?_⟩ <;> rw [hserver, Party.closed_job]
        · exact h.1
        · exact h.2.1
        · exact h.2.2
      cases hm with
      | served hx' => exact guards (inv.guarded_exec guarded hp hx' hx).2
      | failedAfter fault hx' => exact guards (inv.guarded_exec guarded hp hx' hx).2
      | timedOut _ => exact (Locks.release_self _ _ _ hx).elim
      | deadlocked _ _ => exact (Locks.release_self _ _ _ hx).elim
      | failedBefore fault =>
        obtain ⟨p, hg⟩ := guarded r x hx
        cases hp.symm.trans hg.party
        exact guards ⟨hg.mayLock, hg.key, hg.unclaimed⟩
    | killed _ =>
      cases hq
      exact (Locks.release_self _ _ _ hx).elim
    | crashed hp =>
      cases hq
      rw [World.put_finished (by simp)] at hx
      exact (Locks.release_self _ _ _ hx).elim
    | ticked d => cases hq
  · obtain ⟨p, hg⟩ := guarded q x (((h.other hq).2 x).mp hx)
    have key : w'.server.committed.key? p.job.key = none := by
      rcases inv.change h with ⟨hc, -⟩ | ⟨r, p', fp, tx, hr, hcommit⟩
      · exact hc ▸ hg.unclaimed
      · obtain ⟨prog, reached⟩ := hcommit.reached
        have foreign : Resource.key p.job.key ∉ fp.touched := fun hmem =>
          hq (hr.trans (((hcommit.holds _).mpr hmem).symm.trans hg.key))
        rw [hcommit.committed, Tables.view, Tables.key?_of_covers reached.covers foreign]
        exact hg.unclaimed
    have account (id : Uuid) (there : (w.server.committed.account? id).isSome) :
        (w'.server.committed.account? id).isSome := by
      rcases inv.change h with ⟨hc, -⟩ | ⟨r, p', fp, tx, -, hcommit⟩
      · exact hc ▸ there
      · exact hcommit.committed ▸ Tables.account?_isSome_after there tx.writes
    exact ⟨p, (h.other hq).1.trans hg.party, hg.mayLock.later (fun _ => key) account,
      ((h.other hq).2 _).mpr hg.key, key⟩

theorem Inv.guarded (ran : run (World.step (serveRequest sha256)) World.init es = some w) :
    w.Guarded := by
  refine run_induction (P := fun _ w => w.Guarded) ?_ ?_ ran
  · intro r x hx
    cases hx
  · exact fun es m e m' ran guarded hstep =>
      (Inv.of_run ran).guarded_step guarded (World.step_cases hstep)

theorem Inv.unopened (ran : run (World.step (serveRequest sha256)) World.init es = some w)
    {p : Party} (hg : w.Guards p r x) {id : Uuid} (hid : id ∈ p.job.draws.toList) :
    ¬ (w.server.committed.account? id).isSome := by
  have inv := Inv.of_run ran
  intro there
  obtain ⟨c, hc, hdraws⟩ := inv.taken id (.inl there)
  obtain ⟨p', hp', hjob⟩ := inv.owners c hc
  by_cases hne : c.owner = r
  · cases (hne ▸ hp').symm.trans hg.party
    have := (Inv.books ran).key_of_commit hc
    rw [← hjob, hg.unclaimed] at this
    cases this
  · exact inv.disjoint c.owner p' r p hp' hg.party hne id (hjob ▸ hdraws) hid

/-- A request waits for one that carries its key, and has locked nothing then, or for one that names
an account that it names too. -/
theorem Inv.waits (ran : run (World.step (serveRequest sha256)) World.init es = some w)
    (h : w.WaitsFor r q) : ∃ p p', w.party r = some p ∧ w.party q = some p' ∧
      (p.job.key = p'.job.key ∧ w.server.locks.Holds r [] ∨
        p.job.key ≠ p'.job.key ∧ ∃ id, p.job.Names id ∧ p'.job.Names id) := by
  have inv := Inv.of_run ran
  obtain ⟨hne, x, hwants, hown⟩ := h
  obtain ⟨job, c, k, session, hp, hx, hc⟩ := World.wants_eq_some.mp hwants
  obtain ⟨p', hg⟩ := Inv.guarded ran q x hown
  refine ⟨_, p', hp, hg.party, ?_⟩
  obtain ⟨x', tx, rep, heffect, -⟩ := Server.exec_eq_none.mp hx
  cases (Tables.effect_locked heffect).symm.trans hc
  have calling : Phase.Calling sha256 job w.server.committed (w.server.locks.Holds r)
    (recordOf sha256 es w r job) c k session := (inv.phases r _ hp).calling rfl
  cases calling with
  | quiet _ hq => exact (hq.exec_ne_none hx).elim
  | reading => cases hc
  | claiming _ free _ _ =>
    cases hc
    exact .inl ⟨hg.mayLock.1, free⟩
  | working unowned holds allowed reached _ =>
    have foreign {y : Resource} (hy : w.server.locks y = some r) (hy' : w.server.locks y = some q) :
        False := hne (Option.some.inj (hy.symm.trans hy'))
    have mine := (holds _).mpr reached.own_key
    refine .inr ⟨fun he => foreign mine (he ▸ hg.key), ?_⟩
    obtain touched | mayLock := reached.mayLock allowed heffect
    · exact (foreign ((holds x).mpr touched) hown).elim
    cases x with
    | key key => exact (foreign (mayLock.1 ▸ mine) hown).elim
    | account id =>
      have fresh := (inv.fresh hp unowned).accounts id
      rcases mayLock with ⟨names, there⟩ | ⟨hid, -⟩ <;>
        rcases hg.mayLock with ⟨names', there'⟩ | ⟨hid', -⟩
      · exact ⟨id, names, names'⟩
      · exact (Inv.unopened ran hg (by simp [Draws.toList, hid']) there).elim
      · rw [fresh (by simp [Draws.toList, hid])] at there'
        cases there'
      · exact (inv.disjoint r _ q p' hp hg.party hne id (by simp [Draws.toList, hid])
          (by simp [Draws.toList, hid'])).elim
  | commit _ _ _ _ _ _ _ => cases hc
  | severed hq =>
    rw [Phase.effect_broken hq] at heffect
    cases heffect

theorem locks_stay_behind_the_claim (x : Run (serveRequest sha256)) :
    (∀ r y, x.last.server.locks y = some r → ∃ p, x.last.party r = some p ∧
      p.job.MayLock x.last.server.committed y ∧ x.last.server.locks (.key p.job.key) = some r ∧
        x.last.server.committed.key? p.job.key = none) ∧
    ∀ r q, x.last.WaitsFor r q → ∃ p p', x.last.party r = some p ∧ x.last.party q = some p' ∧
      (p.job.key = p'.job.key ∧ x.last.server.locks.Holds r [] ∨
        p.job.key ≠ p'.job.key ∧ ∃ id, p.job.Names id ∧ p'.job.Names id) := by
  refine ⟨fun r y hy => ?_, fun r q => Inv.waits x.ran⟩
  obtain ⟨p, hg⟩ := Inv.guarded x.ran r y hy
  exact ⟨p, hg.party, hg.mayLock, hg.key, hg.unclaimed⟩

end run

end Ledger
