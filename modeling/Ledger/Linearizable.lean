import Ledger.Answers
import Ledger.Deadlock
import Ledger.Site
import Ledger.Lib.Linear

namespace Ledger

open Lib

inductive Client
  | post (r : Nat)
  | get (q : Nat)

inductive Ask
  | post (job : Job) (clock : Timestamp)
  | get (request : ReadRequest)

inductive Answer
  | post (a : Response)
  | get (a : ReadResponse)

/-- Neither a request to try again nor the consequence of a fault. -/
def Answer.Definite : Answer → Prop
  | .post a => ¬ a.LockTimeout ∧ ¬ a.Upset ∧ a ≠ .lost
  | .get a => ¬ a.Upset

def Ask.serve (sha256 : String → String) (t : Tables) : Ask → Tables × Except Exn Answer
  | .post job clock => (sequential (serveRequest sha256) job clock t).map id (Except.map .post)
  | .get request => (t, (t.readAtOnce request).map .get)

namespace Site

variable (s : Site)

def Arrived : Client → Prop
  | .post r => (s.world.party r).isSome
  | .get q => (s.reader q).isSome

def answer : Client → Option Answer
  | .post r => (s.world.answer r).map .post
  | .get q => (s.readAnswer q).map .get

def Asks : Client → Ask → Prop
  | .post r, .post job _ => ∃ p, s.world.party r = some p ∧ p.job = job
  | .get q, .get request => ∃ reader, s.reader q = some reader ∧ reader.request = request
  | _, _ => False

def TookEffect : Client → Prop
  | .post r => s.world.CommittedBy r
  | .get _ => False

end Site

section moments

variable (sha256 : String → String) (es : List SiteEvent)

def Before (c d : Client) : Prop := ∃ pre m, Site.Earlier sha256 es pre m ∧
  (∃ a, m.answer c = some a) ∧ ¬ m.Arrived d

def Open (pre : List SiteEvent) (m : Site) : Client → Prop
  | .post r => Current r (writes pre) m.world
  | .get q => m.Reading q

/-- A moment at which serving the client alone would have given this answer and left the tables as
they were. -/
def SeenAt (c : Client) (ask : Ask) (told : Answer) (pre : List SiteEvent) : Prop :=
  ∃ m, run (Site.step (serveRequest sha256)) Site.init pre = some m ∧ Open pre m c ∧
    ask.serve sha256 m.tables = (m.tables, .ok told)

def EffectAt (c : Client) (pre : List SiteEvent) : Prop :=
  ∃ m, run (Site.step (serveRequest sha256)) Site.init pre = some m ∧ m.TookEffect c

structure Linearized (s : Site) (c : Client) (ask : Ask) (told : Answer) (pre : List SiteEvent) :
    Prop where
  within : pre <+: es
  asks : s.Asks c ask
  answered : ∀ a, s.answer c = some a → a.Definite → told = a
  seen : ¬ s.TookEffect c → First (SeenAt sha256 c ask told) pre
  effect : s.TookEffect c → First (EffectAt sha256 c) pre
  served : s.TookEffect c → ∀ past e m m', pre = past ++ [e] →
    run (Site.step (serveRequest sha256)) Site.init past = some m →
    m.step (serveRequest sha256) e = some m' → ask.serve sha256 m.tables = (m'.tables, .ok told)

end moments

section writers

variable {sha256 : String → String} {past rest : List Event} {w w' : World} {e : Event} {r : Nat}
  {p : Party} {fp : Footprint} {tx : Tx}

theorem Commits.serve (h : Commits sha256 w w' r p fp tx)
    (ran : run (World.step (serveRequest sha256)) World.init past = some w) :
    sequential (serveRequest sha256) p.job tx.startedAt w.server.committed =
      (w'.server.committed, .ok (.outcome (p.job.earned tx.startedAt))) := by
  obtain ⟨o, ho, hs⟩ := h.answer
  have same := Inv.sequential_eq ran h.party h.admitted h.first tx.startedAt
  rw [hs] at same
  obtain ⟨-, ha⟩ := Prod.mk.inj same
  rw [hs, atomic_fresh (Except.ok.inj ha).symm ho]

theorem Inv.committedBy_answered
    (ran : run (World.step (serveRequest sha256)) World.init past = some w)
    (next : run (World.step (serveRequest sha256)) w rest = some w') {a : Response}
    (ha : w.answer r = some a) (h : w'.CommittedBy r) : w.CommittedBy r := by
  obtain ⟨p, hp, hprog⟩ := World.answer_eq.mp ha
  refine run_induction (P := fun _ m => m.CommittedBy r → w.CommittedBy r) id ?next next h
  intro es m e m' hm ih hstep h
  obtain ⟨new, hnew, -, hfinal⟩ := World.run_answer hm hp hprog
  have stepped := World.step_cases hstep
  apply ih
  by_cases hr : e.actor = some r
  · cases stepped with
    | arrived absent _ =>
      cases hr
      rw [absent] at hnew
      cases hnew
    | met hp' hm' =>
      obtain rfl := hm'.eq_of_actor hr
      cases hnew.symm.trans hp'
      cases hfinal
    | killed _ => exact h
    | crashed hp' =>
      cases hr
      cases hnew.symm.trans hp'
      cases hfinal
    | ticked d => cases hr
  · exact ((Inv.of_run (run_concat ran hm)).committedBy_other stepped hr).mp h

end writers

section run

variable {sha256 : String → String} {es pre : List SiteEvent} {e : SiteEvent} {s m m' : Site}
  {c d : Client}

theorem exists_prefix_writes {past : List Event} (h : past <+: writes es) :
    ∃ pre, pre <+: es ∧ writes pre = past := by
  induction es using List.reverseRecOn with
  | nil => exact ⟨[], List.prefix_rfl, (List.prefix_nil.mp h).symm⟩
  | append_singleton es e ih =>
    by_cases earlier : past <+: writes es
    · obtain ⟨pre, hpre, hw⟩ := ih earlier
      exact ⟨pre, hpre.trans (List.prefix_append es [e]), hw⟩
    · refine ⟨_, List.prefix_rfl, ?_⟩
      cases e with
      | write e =>
        have : writes (es ++ [.write e]) = writes es ++ [e] := writes_append es _
        rw [this] at h ⊢
        exact ((List.prefix_concat_iff.mp h).resolve_right earlier).symm
      | _ => exact (earlier (by simpa [writes] using h)).elim

theorem exists_moment (ran : run (Site.step (serveRequest sha256)) Site.init es = some s)
    (hpre : pre <+: es) : ∃ m, run (Site.step (serveRequest sha256)) Site.init pre = some m := by
  obtain ⟨rest, rfl⟩ := hpre
  rw [run_append] at ran
  obtain ⟨m, hm, -⟩ := Option.bind_eq_some_iff.mp ran
  exact ⟨m, hm⟩

theorem run_tookEffect {rest : List SiteEvent}
    (ran : run (Site.step (serveRequest sha256)) m rest = some m') (h : m.TookEffect c) :
    m'.TookEffect c := by
  cases c with
  | post r => exact World.run_committedBy (Site.run_world ran) h
  | get q => exact h.elim

theorem run_arrived {rest : List SiteEvent}
    (ran : run (Site.step (serveRequest sha256)) m rest = some m') (h : m.Arrived c) :
    m'.Arrived c := by
  cases c with
  | post r =>
    obtain ⟨p, hp⟩ := Option.isSome_iff_exists.mp h
    obtain ⟨new, hnew, -⟩ := World.run_stays (Site.run_world ran) hp
    exact Option.isSome_iff_exists.mpr ⟨new, hnew⟩
  | get q =>
    obtain ⟨reader, hq⟩ := Option.isSome_iff_exists.mp h
    obtain ⟨new, hnew, -⟩ := Site.run_stays ran hq
    exact Option.isSome_iff_exists.mpr ⟨new, hnew⟩

theorem effect_step (ran : run (Site.step (serveRequest sha256)) Site.init pre = some m)
    (hstep : m.step (serveRequest sha256) e = some m') :
    m'.tables = m.tables ∧ (∀ c, m'.TookEffect c ↔ m.TookEffect c) ∨
      ∃ r p fp tx, Commits sha256 m.world m'.world r p fp tx ∧
        ∀ c, m'.TookEffect c ∧ ¬ m.TookEffect c ↔ c = .post r := by
  cases Site.step_cases hstep with
  | @wrote e world hworld =>
    rcases (Inv.of_run (Site.run_world ran)).change (World.step_cases hworld) with
      ⟨hc, hh⟩ | ⟨r, p, fp, tx, -, commits⟩
    · refine .inl ⟨hc, fun c => ?_⟩
      cases c with
      | post r => simp only [Site.TookEffect, World.CommittedBy, hh]
      | get q => exact Iff.rfl
    · refine .inr ⟨r, p, fp, tx, commits, fun c => ?_⟩
      cases c with
      | post r' =>
        have first := commits.first
        simp only [Site.TookEffect, World.CommittedBy, commits.history, List.mem_append,
          List.mem_singleton, Client.post.injEq] at first ⊢
        constructor
        · rintro ⟨⟨c, hc | rfl, ho⟩, hne⟩
          · exact (hne ⟨c, hc, ho⟩).elim
          · exact ho.symm
        · rintro rfl
          exact ⟨⟨_, .inr rfl, rfl⟩, first⟩
      | get q => simp [Site.TookEffect]
  | arrived _ => exact .inl ⟨rfl, fun c => by cases c <;> exact Iff.rfl⟩
  | met _ _ => exact .inl ⟨rfl, fun c => by cases c <;> exact Iff.rfl⟩

theorem effectAt_iff (first : First (EffectAt sha256 c) pre) (within : pre <+: es)
    {past : List SiteEvent} (hpast : past ++ [e] <+: es)
    (hm : run (Site.step (serveRequest sha256)) Site.init past = some m)
    (hstep : m.step (serveRequest sha256) e = some m') :
    pre = past ++ [e] ↔ m'.TookEffect c ∧ ¬ m.TookEffect c := by
  have next := run_next hm hstep
  constructor
  · rintro rfl
    obtain ⟨m₁, hm₁, h⟩ := first.holds
    cases next.symm.trans hm₁
    refine ⟨h, fun earlier => ?_⟩
    have := first.least past (List.prefix_append past [e]) ⟨m, hm, earlier⟩
    simpa using congrArg List.length this
  · rintro ⟨h, hne⟩
    have hle := first.length_le within hpast ⟨m', next, h⟩
    apply (List.prefix_of_prefix_length_le within hpast hle).eq_of_length
    by_contra hlt
    rw [List.length_append, List.length_singleton] at hle hlt
    have hpre : pre <+: past := List.prefix_of_prefix_length_le within
      ((List.prefix_append past [e]).trans hpast) (by omega)
    obtain ⟨rest, rfl⟩ := hpre
    obtain ⟨m₁, hm₁, h₁⟩ := first.holds
    rw [run_append, hm₁] at hm
    exact hne (run_tookEffect hm h₁)

theorem Commit.eq_of_owner {w : World} {past : List Event} (inv : Inv sha256 past w) {a b : Commit}
    (ha : a ∈ w.server.history) (hb : b ∈ w.server.history) (h : a.owner = b.owner) : a = b :=
  List.inj_on_of_nodup_map inv.once ha hb h

theorem linearized_commit (ran : run (Site.step (serveRequest sha256)) Site.init es = some s)
    {a : Commit} (ha : a ∈ s.world.server.history) : ∃ pre, Linearized sha256 es s (.post a.owner)
      (.post a.job a.startedAt) (.post (.outcome a.outcome)) pre := by
  have world := Site.run_world ran
  have inv : Inv sha256 (writes es) s.world := Inv.of_run world
  have effective : s.TookEffect (.post a.owner) := ⟨a, ha, rfl⟩
  obtain ⟨pre, within, first⟩ := exists_first (P := EffectAt sha256 (.post a.owner))
    ⟨s, ran, effective⟩
  refine ⟨pre, within, inv.owners a ha, fun told htold definite => ?_, fun h => (h effective).elim,
    fun _ => first, fun _ past e m m' hpre hm hstep => ?_⟩
  · obtain ⟨b, hb, rfl⟩ := Option.map_eq_some_iff.mp htold
    obtain ⟨p, hp, hjob⟩ := inv.owners a ha
    obtain ⟨waited, upset, lost⟩ := definite
    cases Inv.grounds world hp hb with
    | lockTimeout _ h => exact (waited h).elim
    | upset _ _ h => exact (upset h).elim
    | lost _ => exact (lost rfl).elim
    | refused _ h _ _ => exact (h effective).elim
    | decided _ _ _ h _ _ _ _ _ => exact (h effective).elim
    | earned c hc ho _ => rw [Commit.eq_of_owner inv ha hc ho.symm]
  · obtain ⟨now, before⟩ := (effectAt_iff first within (hpre ▸ within) hm hstep).mp hpre
    rcases effect_step hm hstep with ⟨-, same⟩ | ⟨r, p, fp, tx, commits, only⟩
    · exact (before ((same _).mp now)).elim
    · have howner : a.owner = r := by simpa using (only (.post a.owner)).mp ⟨now, before⟩
      obtain ⟨rest, hrest⟩ : ∃ rest, run (Site.step (serveRequest sha256)) m' rest = some s := by
        obtain ⟨rest, rfl⟩ := within
        rw [run_append, hpre, run_next hm hstep] at ran
        exact ⟨rest, ran⟩
      have hmem : (⟨r, p.job, tx.startedAt⟩ : Commit) ∈ s.world.server.history :=
        (World.run_history (Site.run_world hrest)).subset (by simp [commits.history])
      obtain rfl := Commit.eq_of_owner inv ha hmem howner
      have := commits.serve (Site.run_world hm)
      simp only [Ask.serve, Site.tables, this]
      rfl

theorem linearized_post (ran : run (Site.step (serveRequest sha256)) Site.init es = some s)
    {r : Nat} (hr : ¬ s.world.CommittedBy r) {a : Response} (ha : s.world.answer r = some a)
    (definite : (Answer.post a).Definite) :
    ∃ ask pre, Linearized sha256 es s (.post r) ask (.post a) pre := by
  have world := Site.run_world ran
  obtain ⟨p, hp, -⟩ := World.answer_eq.mp ha
  obtain ⟨waited, upset, lost⟩ := definite
  rcases (Inv.of_run world).answer hp ha with ⟨h, -⟩ | ⟨⟨h, -⟩ | h, -⟩ | ⟨-, -, h⟩ | ⟨h, -⟩
  · exact (waited h).elim
  · exact (upset h).elim
  · exact (lost h).elim
  · obtain ⟨past, w, clock, hw, current, hs⟩ := h
    obtain ⟨pre, hpre, rfl⟩ := exists_prefix_writes hw.1
    obtain ⟨m, hm⟩ := exists_moment ran hpre
    obtain rfl : m.world = w := Option.some.inj ((Site.run_world hm).symm.trans hw.2)
    have seen : SeenAt sha256 (.post r) (.post p.job clock) (.post a) pre := by
      refine ⟨m, hm, current, ?_⟩
      simp only [Ask.serve, Site.tables, hs]
      rfl
    obtain ⟨pre', hpre', first⟩ := exists_first seen
    refine ⟨.post p.job clock, pre', hpre'.trans hpre, ⟨p, hp, rfl⟩, fun told htold _ => ?_,
      fun _ => first, fun h => (hr h).elim, fun h => (hr h).elim⟩
    simpa [Site.answer, ha] using htold
  · exact (hr h).elim

theorem linearized_get (ran : run (Site.step (serveRequest sha256)) Site.init es = some s)
    {q : Nat} {a : ReadResponse} (ha : s.readAnswer q = some a)
    (definite : (Answer.get a).Definite) :
    ∃ ask pre, Linearized sha256 es s (.get q) ask (.get a) pre := by
  obtain ⟨reader, hq, hprog⟩ := Site.readAnswer_eq.mp ha
  obtain ⟨pre, m, hm, reading, hs⟩ := (Site.seen ran hq ha).resolve_left fun upset =>
    definite upset.1
  have seen : SeenAt sha256 (.get q) (.get reader.request) (.get a) pre := by
    refine ⟨m, hm.2, reading, ?_⟩
    simp only [Ask.serve, Site.tables, hs]
    rfl
  obtain ⟨pre', hpre', first⟩ := exists_first seen
  refine ⟨.get reader.request, pre', hpre'.trans hm.1, ⟨reader, hq, rfl⟩, fun told htold _ => ?_,
    fun _ => first, fun h => h.elim, fun h => h.elim⟩
  simpa [Site.answer, ha] using htold

theorem Open.arrived (h : Open pre m c)
    (hm : run (Site.step (serveRequest sha256)) Site.init pre = some m) : m.Arrived c := by
  cases c with
  | post r =>
    obtain ⟨p, hp⟩ := Current.party h (Site.run_world hm)
    exact Option.isSome_iff_exists.mpr ⟨p, hp⟩
  | get q =>
    obtain ⟨request, c, k, hq⟩ := h
    exact Option.isSome_iff_exists.mpr ⟨_, hq⟩

/-- After its answer a client can only have been served in what is the same moment for the requests
that write. -/
theorem Open.answered {rest : List SiteEvent} {w : Site} (h : Open (pre ++ rest) w c)
    (hm : run (Site.step (serveRequest sha256)) Site.init pre = some m)
    (next : run (Site.step (serveRequest sha256)) m rest = some w) {a : Answer}
    (ha : m.answer c = some a) :
    Open pre m c ∧ w.tables = m.tables := by
  have world := Site.run_world next
  cases c with
  | post r =>
    obtain ⟨b, hb, rfl⟩ := Option.map_eq_some_iff.mp ha
    obtain ⟨p, hp, hprog⟩ := World.answer_eq.mp hb
    rcases h with ⟨p', c, k, hp', hprog'⟩ | ⟨past, request, draws, hlast⟩
    · obtain ⟨new, hnew, -, hfinal⟩ := World.run_answer world hp hprog
      cases hnew.symm.trans hp'
      cases hfinal.symm.trans hprog'
    · have hpre : writes pre <+: past ++ [.arrive r request draws] :=
        hlast ▸ writes_append pre rest ▸ List.prefix_append _ _
      rcases List.prefix_concat_iff.mp hpre with same | ⟨between, rfl⟩
      · have none : writes rest = [] := by
          have := same.trans (hlast.symm.trans (writes_append pre rest))
          exact List.append_right_eq_self.mp this.symm
        rw [none] at world
        have hw : w.world = m.world := (Option.some.inj world).symm
        refine ⟨.inr ⟨past, request, draws, same⟩, ?_⟩
        rw [Site.tables, hw]
      · have arrived := Site.run_world (run_concat hm next)
        rw [hlast, List.append_assoc] at arrived
        obtain ⟨w₁, hw₁, hrest⟩ := Option.bind_eq_some_iff.mp
          ((run_append _ _ _).symm.trans arrived)
        cases (Site.run_world hm).symm.trans hw₁
        obtain ⟨w₂, hw₂, hstep⟩ := run_snoc hrest
        obtain ⟨new, hnew, -⟩ := World.run_stays hw₂ hp
        have stepped := World.step_cases hstep
        generalize w.world = w' at stepped
        cases stepped with
        | arrived absent _ => cases absent.symm.trans hnew
        | met _ hm' => cases hm'
  | get q =>
    obtain ⟨b, hb, rfl⟩ := Option.map_eq_some_iff.mp ha
    obtain ⟨reader, hq, hprog⟩ := Site.readAnswer_eq.mp hb
    obtain ⟨request, c, k, hq'⟩ := h
    obtain ⟨new, hnew, -, hfinal⟩ := Site.run_stays next hq
    cases hnew.symm.trans hq'
    cases hfinal b hprog

section linearized

variable {ask : Ask} {told : Answer}

theorem Linearized.early (h : Linearized sha256 es s c ask told pre) {past : List SiteEvent}
    (hpast : Site.Earlier sha256 es past m) (absent : ¬ m.Arrived c) :
    past.length < pre.length := by
  by_contra! hle
  obtain ⟨rest, rfl⟩ := List.prefix_of_prefix_length_le h.within hpast.1 hle
  have later {m₀ : Site} (hm₀ : run (Site.step (serveRequest sha256)) Site.init pre = some m₀)
      (arrived : m₀.Arrived c) : False := by
    have := hpast.2
    rw [run_append, hm₀] at this
    exact absent (run_arrived this arrived)
  by_cases effective : s.TookEffect c
  · obtain ⟨m₀, hm₀, took⟩ := (h.effect effective).holds
    refine later hm₀ ?_
    cases c with
    | post r =>
      obtain ⟨a, ha, rfl⟩ := took
      obtain ⟨p, hp, -⟩ := (Inv.of_run (Site.run_world hm₀)).owners a ha
      exact Option.isSome_iff_exists.mpr ⟨p, hp⟩
    | get q => exact took.elim
  · obtain ⟨m₀, hm₀, isOpen, -⟩ := (h.seen effective).holds
    exact later hm₀ (isOpen.arrived hm₀)

theorem Linearized.late (ran : run (Site.step (serveRequest sha256)) Site.init es = some s)
    (h : Linearized sha256 es s c ask told pre) {past : List SiteEvent}
    (hpast : Site.Earlier sha256 es past m) {a : Answer} (ha : m.answer c = some a) :
    pre.length ≤ past.length := by
  by_cases effective : s.TookEffect c
  · refine (h.effect effective).length_le h.within hpast.1 ⟨m, hpast.2, ?_⟩
    cases c with
    | post r =>
      obtain ⟨rest, next⟩ := hpast.rest ran
      obtain ⟨b, hb, -⟩ := Option.map_eq_some_iff.mp ha
      exact Inv.committedBy_answered (Site.run_world hpast.2) (Site.run_world next) hb effective
    | get q => exact effective.elim
  · by_contra! shorter
    have first := h.seen effective
    obtain ⟨rest, rfl⟩ := List.prefix_of_prefix_length_le hpast.1 h.within shorter.le
    obtain ⟨w, hw, isOpen, served⟩ := first.holds
    have next := hw
    rw [run_append, hpast.2] at next
    obtain ⟨isOpen, same⟩ := isOpen.answered hpast.2 next ha
    have := first.least past (List.prefix_append past rest) ⟨m, hpast.2, isOpen, same ▸ served⟩
    exact shorter.ne (congrArg List.length this)

end linearized

def Site.Served (s : Site) (c : Client) : Prop :=
  s.TookEffect c ∨ ∃ a, s.answer c = some a ∧ a.Definite

theorem exists_linearized (ran : run (Site.step (serveRequest sha256)) Site.init es = some s)
    (h : s.Served c) : ∃ ask told pre, Linearized sha256 es s c ask told pre := by
  by_cases effective : s.TookEffect c
  · cases c with
    | post r =>
      obtain ⟨a, ha, rfl⟩ := effective
      obtain ⟨pre, hpre⟩ := linearized_commit ran ha
      exact ⟨_, _, pre, hpre⟩
    | get q => exact effective.elim
  · obtain ⟨a, ha, definite⟩ := h.resolve_left effective
    cases c with
    | post r =>
      obtain ⟨b, hb, rfl⟩ := Option.map_eq_some_iff.mp ha
      obtain ⟨ask, pre, hpre⟩ := linearized_post ran effective hb definite
      exact ⟨ask, _, pre, hpre⟩
    | get q =>
      obtain ⟨b, hb, rfl⟩ := Option.map_eq_some_iff.mp ha
      obtain ⟨ask, pre, hpre⟩ := linearized_get ran hb definite
      exact ⟨ask, _, pre, hpre⟩

theorem Site.finite_readers (ran : run (Site.step (serveRequest sha256)) Site.init es = some s) :
    {q | (s.reader q).isSome}.Finite := by
  refine run_induction (P := fun _ s => {q | (s.reader q).isSome}.Finite) (by simp [Site.init])
    ?_ ran
  intro es m e m' _ ih hstep
  have put (q : Nat) (reader : Reader) : {q' | ((m.put q reader).reader q').isSome}.Finite := by
    refine (ih.insert q).subset fun q' hq' => ?_
    by_cases hne : q' = q
    · exact .inl hne
    · exact .inr (by simpa [m.put_other reader hne] using hq')
  cases Site.step_cases hstep with
  | wrote _ => exact ih
  | arrived _ => exact put _ _
  | met _ _ => exact put _ _

theorem Site.finite_served (ran : run (Site.step (serveRequest sha256)) Site.init es = some s) :
    {c | s.Served c}.Finite := by
  have posts := (World.finite_parties _ (Site.run_world ran)).image Client.post
  have gets := (Site.finite_readers ran).image Client.get
  refine (posts.union gets).subset fun c hc => ?_
  have arrived : s.Arrived c := by
    obtain ⟨ask, told, pre, h⟩ := exists_linearized ran hc
    by_contra absent
    exact (h.early (Past.last ran) absent).not_ge h.within.length_le
  cases c with
  | post r => exact .inl ⟨r, arrived, rfl⟩
  | get q => exact .inr ⟨q, arrived, rfl⟩

def Linearized.points {ids : List Client} {ask : Client → Ask} {told : Client → Answer}
    {point : Client → List SiteEvent}
    (ran : run (Site.step (serveRequest sha256)) Site.init es = some s)
    (mem : ∀ c, c ∈ ids ↔ s.Served c)
    (linearized : ∀ c ∈ ids, Linearized sha256 es s c (ask c) (told c) (point c)) :
    Points (Site.step (serveRequest sha256)) Site.init es Site.tables (Ask.serve sha256) ask
      (fun c => .ok (told c)) ids where
  point := point
  acts := s.TookEffect
  within c hc := (linearized c hc).within
  started c hc acts hpoint := by
    obtain ⟨m, hm, took⟩ := ((linearized c hc).effect acts).holds
    rw [hpoint] at hm
    cases hm
    cases c with
    | post r =>
      obtain ⟨a, ha, -⟩ := took
      cases ha
    | get q => exact took
  effects pre e m m' hpre hm hstep := by
    have difference {c : Client} (hc : c ∈ ids) (acts : s.TookEffect c) :
        point c = pre ++ [e] ↔ m'.TookEffect c ∧ ¬ m.TookEffect c :=
      effectAt_iff ((linearized c hc).effect acts) (linearized c hc).within hpre hm hstep
    rcases effect_step hm hstep with ⟨same, nobody⟩ | ⟨r, p, fp, tx, -, only⟩
    · refine .inl ⟨same, fun c hc acts hpoint => ?_⟩
      obtain ⟨now, before⟩ := (difference hc acts).mp hpoint
      exact before ((nobody c).mp now)
    · have now := (only (.post r)).mpr rfl
      have acts : s.TookEffect (.post r) := by
        obtain ⟨rest, rfl⟩ := hpre
        rw [run_append, run_next hm hstep] at ran
        exact run_tookEffect ran now.1
      have hr : .post r ∈ ids := (mem _).mpr (.inl acts)
      have hpoint := (difference hr acts).mpr now
      refine .inr ⟨.post r, fun c => ⟨fun ⟨hc, acts, h⟩ => ?_, ?_⟩, ?_⟩
      · exact (only c).mp ((difference hc acts).mp h)
      · rintro rfl
        exact ⟨hr, acts, hpoint⟩
      · exact (linearized _ hr).served acts pre e m m' hpoint hm hstep
  sees c hc acts m hm := by
    obtain ⟨m', hm', -, served⟩ := ((linearized c hc).seen acts).holds
    cases hm.symm.trans hm'
    exact served

theorem Linearized.turns {order : List Client} {ask : Client → Ask} {told : Client → Answer}
    {point : Client → List SiteEvent}
    (ran : run (Site.step (serveRequest sha256)) Site.init es = some s)
    (sorted : order.Pairwise fun c d => (point c).length ≤ (point d).length)
    (linearized : ∀ c ∈ order, Linearized sha256 es s c (ask c) (told c) (point c)) :
    order.Pairwise fun c d => ¬ Before sha256 es d c := by
  have turns := Points.realTime es
    (fun c pre => ∃ m, Site.Earlier sha256 es pre m ∧ m.Arrived c)
    (fun c pre => ∃ m, Site.Earlier sha256 es pre m ∧ ∃ a, m.answer c = some a) sorted
    (fun c hc pre hpre absent => ?early) fun c hc pre _ ⟨m, hm, a, ha⟩ => ?late
  apply turns.imp
  case early =>
    obtain ⟨m, hm⟩ := exists_moment ran hpre
    exact (linearized c hc).early ⟨hpre, hm⟩ fun arrived => absent ⟨m, ⟨hpre, hm⟩, arrived⟩
  case late => exact (linearized c hc).late ran hm ha
  rintro c d h ⟨pre, m, hm, answered, absent⟩
  refine h ⟨pre, hm.1, ⟨m, hm, answered⟩, ?_⟩
  rintro ⟨m', hm', arrived⟩
  cases hm.2.symm.trans hm'.2
  exact absent arrived

end run

/-- There is one order in which all requests, served one at a time, would have left the same
tables and got the same answers.  It keeps to the order in which they were made. -/
theorem requests_linearizable {sha256 : String → String}
    (x : Execution (Site.step (serveRequest sha256)) Site.init) :
    ∃ (order : List Client) (ask : Client → Ask) (told : Client → Answer), order.Nodup ∧
      (∀ c, c ∈ order ↔ x.last.Served c) ∧
      (∀ c ∈ order, x.last.Asks c (ask c) ∧
        ∀ a, x.last.answer c = some a → a.Definite → told c = a) ∧
      serveAll (Ask.serve sha256) .empty (order.map ask) =
        (x.last.tables, order.map fun c => .ok (told c)) ∧
      order.Pairwise fun c d => ¬ Before sha256 x.events d c := by
  have served (c : Client) : ∃ ask told pre, x.last.Served c →
      Linearized sha256 x.events x.last c ask told pre := by
    by_cases h : x.last.Served c
    · obtain ⟨ask, told, pre, linearized⟩ := exists_linearized x.ran h
      exact ⟨ask, told, pre, fun _ => linearized⟩
    · exact ⟨.get (.balance 0), .get .plainText, [], fun hc => (h hc).elim⟩
  choose ask told point linearized using served
  have finite := Site.finite_served x.ran
  have mem (c : Client) : c ∈ finite.toFinset.toList ↔ x.last.Served c := by simp
  have inIds (c : Client) (hc : c ∈ finite.toFinset.toList) := linearized c ((mem c).mp hc)
  obtain ⟨order, perm, sorted, hserved⟩ :=
    (Linearized.points x.ran mem inIds).exists_order (Finset.nodup_toList _) x.ran
  have inOrder {c : Client} (hc : c ∈ order) := inIds c (perm.subset hc)
  exact ⟨order, ask, told, perm.nodup_iff.mpr (Finset.nodup_toList _),
    fun c => perm.mem_iff.trans (mem c),
    fun c hc => ⟨(inOrder hc).asks, (inOrder hc).answered⟩, hserved,
    Linearized.turns x.ran sorted fun _ => inOrder⟩

end Ledger
