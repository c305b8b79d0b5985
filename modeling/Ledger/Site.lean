import Ledger.Reads
import Ledger.Books

namespace Ledger

open Lib

def writes (es : List SiteEvent) : List Event :=
  es.filterMap fun
    | .write e => some e
    | _ => none

@[simp] theorem writes_nil : writes [] = [] := rfl

@[simp] theorem writes_append (es fs : List SiteEvent) :
    writes (es ++ fs) = writes es ++ writes fs :=
  List.filterMap_append

namespace Site

variable {app : Job → App Response} {s s' : Site} {es : List SiteEvent} {e : SiteEvent} {q : Nat}

inductive Met (s : Site) (q : Nat) (c : ReadCall) : SiteEvent → Except Exn c.Reply → Prop
  | served : Met s q c (.serve q) (.ok (s.world.server.committed.read c))
  | failed (fault : Fault) : Met s q c (.fail q fault) (.error fault.exn)

inductive Stepped (app : Job → App Response) (s : Site) : SiteEvent → Site → Prop
  | wrote {e : Event} {world : World} : s.world.step app e = some world →
      Stepped app s (.write e) { s with world }
  | arrived {q : Nat} {request : ReadRequest} : s.reader q = none →
      Stepped app s (.arrive q request) (s.put q ⟨request, ReadApp.serve request⟩)
  | met {e : SiteEvent} {q : Nat} {request : ReadRequest} {c : ReadCall}
      {k : Except Exn c.Reply → ReadApp ReadResponse} {reply : Except Exn c.Reply} :
      s.reader q = some ⟨request, .call c k⟩ → s.Met q c e reply →
      Stepped app s e (s.put q ⟨request, k reply⟩)

theorem call_cases {reply : (c : ReadCall) → Except Exn c.Reply} (h : s.call q reply = some s') :
    ∃ request c k, s.reader q = some ⟨request, .call c k⟩ ∧
      s' = s.put q ⟨request, k (reply c)⟩ := by
  unfold call at h
  split at h
  · next request c k hq => exact ⟨request, c, k, hq, (Option.some.inj h).symm⟩
  · cases h

theorem step_cases (h : s.step app e = some s') : s.Stepped app e s' := by
  cases e with
  | write e =>
    obtain ⟨world, hworld, rfl⟩ := Option.map_eq_some_iff.mp h
    exact .wrote hworld
  | arrive q request =>
    simp only [step, Option.isNone_iff_eq_none, Option.ite_none_right_eq_some,
      Option.some.injEq] at h
    obtain ⟨absent, rfl⟩ := h
    exact .arrived absent
  | serve q =>
    obtain ⟨request, c, k, hq, rfl⟩ := call_cases h
    exact .met hq .served
  | fail q fault =>
    obtain ⟨request, c, k, hq, rfl⟩ := call_cases h
    exact .met hq (.failed fault)

theorem run_world {init : Site} (ran : run (step app) init es = some s) :
    run (World.step app) init.world (writes es) = some s.world := by
  refine run_induction (P := fun es s => run (World.step app) init.world (writes es) =
    some s.world) rfl ?_ ran
  intro es m e m' _ ih hstep
  rw [writes_append]
  cases step_cases hstep with
  | wrote hworld => exact run_next ih hworld
  | arrived _ => simpa [writes] using ih
  | met _ hm => cases hm <;> simpa [writes] using ih

theorem Stepped.stays (h : s.Stepped app e s') {reader : Reader} (hq : s.reader q = some reader) :
    ∃ new, s'.reader q = some new ∧ new.request = reader.request ∧
      ∀ a, reader.prog = .pure a → new.prog = .pure a := by
  cases h with
  | wrote _ => exact ⟨reader, hq, rfl, fun _ => id⟩
  | @arrived q' request absent =>
    refine ⟨reader, (s.put_other _ fun he => ?_).trans hq, rfl, fun _ => id⟩
    rw [he, absent] at hq
    cases hq
  | @met _ q' request c k reply hq' hm =>
    by_cases hne : q = q'
    · subst hne
      cases hq.symm.trans hq'
      exact ⟨_, s.put_self _ _, rfl, fun a ha => by cases ha⟩
    · exact ⟨reader, (s.put_other _ hne).trans hq, rfl, fun _ => id⟩

theorem run_stays (ran : run (step app) s es = some s') {reader : Reader}
    (hq : s.reader q = some reader) : ∃ new, s'.reader q = some new ∧
      new.request = reader.request ∧ ∀ a, reader.prog = .pure a → new.prog = .pure a := by
  refine run_induction (P := fun _ m => ∃ new, m.reader q = some new ∧
    new.request = reader.request ∧ ∀ a, reader.prog = .pure a → new.prog = .pure a)
    ⟨reader, hq, rfl, fun _ => id⟩ ?_ ran
  rintro _ m e m' - ⟨new, hnew, hr, ha⟩ hstep
  obtain ⟨new', hnew', hr', ha'⟩ := (step_cases hstep).stays hnew
  exact ⟨new', hnew', hr'.trans hr, fun a h => ha' a (ha a h)⟩

end Site

def Faulted (es : List SiteEvent) (q : Nat) : Prop := ∃ fault, .fail q fault ∈ es

def ReadResponse.Upset (a : ReadResponse) : Prop := a = .envelope .unexpected false ∨ a = .plainText

section answers

variable (sha256 : String → String) (es : List SiteEvent) (q : Nat) (request : ReadRequest)

abbrev Site.Earlier (pre : List SiteEvent) (m : Site) : Prop :=
  Past (Site.step (serveRequest sha256)) Site.init es pre m

def Site.Reading (s : Site) (q : Nat) : Prop :=
  ∃ request c k, s.reader q = some ⟨request, .call c k⟩

/-- At some moment while it was waiting, a read at once would have found the same. -/
def Seen (a : ReadResponse) : Prop := ∃ pre m, Site.Earlier sha256 es pre m ∧ m.Reading q ∧
  m.world.server.committed.readAtOnce request = .ok a

inductive ReadPhase (t : Tables) : ReadApp ReadResponse → Prop
  | asking : ReadPhase t (ReadApp.serve request)
  | listing {accountId : Uuid} {k : Except Exn (List (LedgerEntry × LedgerEntry)) →
        ReadApp ReadResponse} : request = .transactions accountId → (t.account? accountId).isSome →
      (∀ rows, k (.ok rows) = .pure (.transactions ⟨accountId, rows.map transactionItem⟩)) →
      (∀ e : Exn, e.Raised → k (.error e) = ReadApp.handleException e) →
      ReadPhase t (.call (.selectTransactions accountId) k)
  | failing {e : Exn} : Faulted es q → e.Raised → ReadPhase t (ReadApp.handleException e)
  | upset {a : ReadResponse} : Faulted es q → a.Upset → ReadPhase t (.pure a)
  | seen {a : ReadResponse} : Seen sha256 es q request a → ReadPhase t (.pure a)

end answers

section phases

variable {sha256 : String → String} {es : List SiteEvent} {e : SiteEvent} {q : Nat}
  {request : ReadRequest} {t t' : Tables} {prog : ReadApp ReadResponse} {c : ReadCall}
  {k : Except Exn c.Reply → ReadApp ReadResponse}

theorem ReadApp.handleException_raised {e : Exn} (h : e.Raised) :
    ∃ k, handleException e = .call (.log (.unhandledError e)) k ∧
      k (.ok ()) = .pure (.envelope .unexpected false) ∧ ∀ e, k (.error e) = .pure .plainText := by
  obtain ⟨fault, rfl⟩ := h
  cases fault <;> exact ⟨_, rfl, rfl, fun _ => rfl⟩

theorem ReadApp.serve_eq (request : ReadRequest) : ∃ accountId k,
    serve request = .call (.getAccount accountId) k ∧
      (request = .balance accountId ∨ request = .transactions accountId) ∧
      (∀ e : Exn, e.Raised → k (.error e) = handleException e) := by
  cases request <;> exact ⟨_, _, rfl, by simp, fun _ _ => rfl⟩

theorem Seen.snoc {a : ReadResponse} (h : Seen sha256 es q request a) (e : SiteEvent) :
    Seen sha256 (es ++ [e]) q request a := by
  obtain ⟨pre, m, hm, reading, ha⟩ := h
  exact ⟨pre, m, hm.snoc e, reading, ha⟩

theorem Faulted.snoc (h : Faulted es q) (e : SiteEvent) : Faulted (es ++ [e]) q := by
  obtain ⟨fault, h⟩ := h
  exact ⟨fault, List.mem_append_left _ h⟩

theorem Faulted.last (es : List SiteEvent) (q : Nat) (fault : Fault) :
    Faulted (es ++ [.fail q fault]) q :=
  ⟨fault, by simp⟩

namespace ReadPhase

theorem of_result {a : ReadResponse} (h : Seen sha256 es q request a) (hp : prog = .pure a) :
    ReadPhase sha256 es q request t prog :=
  hp ▸ .seen h

theorem later (h : ReadPhase sha256 es q request t prog) (e : SiteEvent)
    (stays : ∀ id, (t.account? id).isSome → (t'.account? id).isSome) :
    ReadPhase sha256 (es ++ [e]) q request t' prog := by
  cases h with
  | asking => exact .asking
  | listing hr there hok herror => exact .listing hr (stays _ there) hok herror
  | failing hf he => exact .failing (hf.snoc e) he
  | upset hf ha => exact .upset (hf.snoc e) ha
  | seen ha => exact .seen (ha.snoc e)

theorem served (h : ReadPhase sha256 es q request t prog) (hp : prog = .call c k)
    (seen : ∀ a, t.readAtOnce request = .ok a → Seen sha256 (es ++ [e]) q request a) :
    ReadPhase sha256 (es ++ [e]) q request t (k (.ok (t.read c))) := by
  cases h with
  | asking =>
    cases request with
    | balance accountId =>
      cases hp
      refine .of_result (seen _ (t.readAtOnce_balance accountId)) ?_
      cases there : t.account? accountId <;> simp only [Tables.read, getAccount, there] <;> rfl
    | transactions accountId =>
      cases hp
      cases there : t.account? accountId with
      | none =>
        refine .of_result (seen _ (t.readAtOnce_transactions accountId)) ?_
        simp [Tables.read, listTransactions, getAccount, there, bind, Except.bind,
          ReadApp.handleException]
      | some account =>
        simp only [Tables.read, there]
        exact .listing rfl (by simp [there]) (fun rows => rfl) fun e _ => rfl
  | @listing accountId k' hr there hok herror =>
    cases hp
    obtain ⟨account, there⟩ := Option.isSome_iff_exists.mp there
    subst hr
    refine .of_result (seen _ (t.readAtOnce_transactions accountId)) ((hok _).trans ?_)
    simp [Tables.read, listTransactions, getAccount, there, bind, Except.bind, pure, Except.pure]
  | failing hf he =>
    obtain ⟨k', hk, hok, -⟩ := ReadApp.handleException_raised he
    cases hk.symm.trans hp
    exact hok ▸ .upset (hf.snoc e) (.inl rfl)
  | upset _ ha => cases hp
  | seen ha => cases hp

theorem failed (h : ReadPhase sha256 es q request t prog) (hp : prog = .call c k) (fault : Fault) :
    ReadPhase sha256 (es ++ [.fail q fault]) q request t (k (.error fault.exn)) := by
  have raised : fault.exn.Raised := ⟨fault, rfl⟩
  have faulted := Faulted.last es q fault
  cases h with
  | asking =>
    obtain ⟨accountId, k', hk, -, herror⟩ := ReadApp.serve_eq request
    cases hk.symm.trans hp
    exact herror _ raised ▸ .failing faulted raised
  | listing _ _ _ herror =>
    cases hp
    exact herror _ raised ▸ .failing faulted raised
  | failing _ he =>
    obtain ⟨k', hk, -, herror⟩ := ReadApp.handleException_raised he
    cases hk.symm.trans hp
    exact herror _ ▸ .upset faulted (.inr rfl)
  | upset _ ha => cases hp
  | seen ha => cases hp

end ReadPhase

end phases

section run

variable {sha256 : String → String} {es : List SiteEvent} {e : SiteEvent} {s s' : Site} {q : Nat}
  {reader : Reader} {a : ReadResponse}

theorem Inv.account_stays {past rest : List Event} {w w' : World}
    (ran : run (World.step (serveRequest sha256)) World.init past = some w)
    (next : run (World.step (serveRequest sha256)) w rest = some w') {id : Uuid}
    (h : (w.server.committed.account? id).isSome) : (w'.server.committed.account? id).isSome := by
  obtain ⟨new, hnew⟩ := World.run_history next
  obtain ⟨account, haccount⟩ := Option.isSome_iff_exists.mp h
  have books := Inv.books (run_concat ran next)
  rw [← hnew] at books
  obtain ⟨account', h', -⟩ := (Inv.books ran).account_stays books haccount
  exact Option.isSome_iff_exists.mpr ⟨account', h'⟩

theorem Site.readPhase (ran : run (Site.step (serveRequest sha256)) Site.init es = some s)
    (hq : s.reader q = some reader) :
    ReadPhase sha256 es q reader.request s.world.server.committed reader.prog := by
  refine run_induction (P := fun es s => ∀ q reader, s.reader q = some reader →
    ReadPhase sha256 es q reader.request s.world.server.committed reader.prog)
    (by simp [Site.init]) ?next ran q reader hq
  intro es m e m' ran ih hstep q reader hq
  cases Site.step_cases hstep with
  | wrote hworld =>
    exact (ih q reader hq).later _ fun id => Inv.account_stays (Site.run_world ran)
      (run_singleton hworld)
  | @arrived q' request absent =>
    by_cases hne : q = q'
    · subst hne
      rw [Site.put_self] at hq
      cases hq
      exact .asking
    · rw [Site.put_other _ _ hne] at hq
      exact (ih q reader hq).later _ fun _ => id
  | @met _ q' request c k reply hq' hm =>
    by_cases hne : q = q'
    · subst hne
      rw [Site.put_self] at hq
      cases hq
      cases hm with
      | served =>
        exact (ih q _ hq').served rfl fun a ha =>
          ⟨es, m, (Past.last ran).snoc _, ⟨request, c, k, hq'⟩, ha⟩
      | failed fault => exact (ih q _ hq').failed rfl fault
    · rw [Site.put_other _ _ hne] at hq
      exact (ih q reader hq).later _ fun _ => id

theorem Site.readAnswer_eq {s : Site} : s.readAnswer q = some a ↔
    ∃ reader, s.reader q = some reader ∧ reader.prog = .pure a := by
  constructor
  · intro h
    obtain ⟨reader, hq, h⟩ := Option.bind_eq_some_iff.mp h
    refine ⟨reader, hq, ?_⟩
    split at h
    · next hprog => exact Option.some.inj h ▸ hprog
    · cases h
  · rintro ⟨reader, hq, hprog⟩
    simp [readAnswer, hq, hprog]

/-- A read that no fault has upset is answered as if it had been done at once, at a moment while it
was waiting. -/
theorem Site.seen (ran : run (Site.step (serveRequest sha256)) Site.init es = some s)
    (hq : s.reader q = some reader) (ha : s.readAnswer q = some a) :
    a.Upset ∧ Faulted es q ∨ Seen sha256 es q reader.request a := by
  obtain ⟨reader', hq', hprog⟩ := Site.readAnswer_eq.mp ha
  cases hq.symm.trans hq'
  have phase := Site.readPhase ran hq
  rw [hprog] at phase
  generalize hp : (Prog.pure a : ReadApp ReadResponse) = prog at phase
  cases phase with
  | asking =>
    obtain ⟨accountId, k, hk, -⟩ := ReadApp.serve_eq reader.request
    cases hp.trans hk
  | listing _ _ _ _ => cases hp
  | failing _ he =>
    obtain ⟨k, hk, -⟩ := ReadApp.handleException_raised he
    cases hp.trans hk
  | upset hf hu =>
    cases hp
    exact .inl ⟨hu, hf⟩
  | seen hs =>
    cases hp
    exact .inr hs

end run

end Ledger
