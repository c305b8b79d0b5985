import Ledger.Invariant

namespace Ledger

open Lib

theorem Tables.effect_locked {t : Tables} {clock : Timestamp} {session : Session} {c : Call}
    {x : Resource} {tx : Tx} {rep : c.Reply} (h : t.effect clock session c = .locked x tx rep) :
    c.resource? = some x := by
  cases session with
  | broken => cases c <;> cases h
  | _ => cases c <;> simp only [effect, inTx] at h <;> (repeat' split at h) <;> cases h <;> rfl

variable {sha256 : String → String} {es : List Event} {w w' : World} {r : Nat}

theorem World.wants_eq_some {x : Resource} : w.wants r = some x ↔ ∃ job c k session,
    w.party r = some ⟨job, .call c k, session⟩ ∧ w.server.exec r job session c = none ∧
      c.resource? = some x := by
  constructor
  · intro h
    obtain ⟨⟨job, prog, session⟩, hp, h⟩ := Option.bind_eq_some_iff.mp h
    cases prog with
    | call c k =>
      simp only [Option.ite_none_right_eq_some, Option.isNone_iff_eq_none] at h
      exact ⟨job, c, k, session, hp, h⟩
    | pure a => cases h
    | raise e => cases h
  · rintro ⟨job, c, k, session, hp, hx, hc⟩
    simp [wants, hp, hx, hc]

theorem World.exists_waitsFor {job : Job} {c : Call} {k : Except Exn c.Reply → App Response}
    {session : Session} (hp : w.party r = some ⟨job, .call c k, session⟩)
    (hx : w.server.exec r job session c = none) : ∃ o, w.WaitsFor r o := by
  obtain ⟨x, tx, rep, heffect, o, ho, hx'⟩ := Server.exec_eq_none.mp hx
  have hwants := World.wants_eq_some.mpr ⟨job, c, k, session, hp, hx, Tables.effect_locked heffect⟩
  exact ⟨o, ho.symm, x, hwants, hx'⟩

theorem Inv.ordered (inv : Inv sha256 es w) : w.server.locks.Ordered w.wants Resource.rank := by
  intro r x y hwants hy
  obtain ⟨job, c, k, session, hp, hx, hc⟩ := World.wants_eq_some.mp hwants
  obtain ⟨x', tx, rep, heffect, o, ho, hx'⟩ := Server.exec_eq_none.mp hx
  cases (Tables.effect_locked heffect).symm.trans hc
  obtain ⟨-, -, ⟨-, holds⟩ | ⟨-, fp, -, holds, allowed⟩⟩ := (inv.phases r _ hp).of_blocked rfl hx
  · simpa using (holds y).mp hy
  · have foreign (mem : x ∈ fp.touched) : False :=
      ho (Option.some.inj (hx'.symm.trans ((holds x).mpr mem)))
    cases c with
    | lockAccount id =>
      cases hc
      exact allowed y ((holds y).mp hy)
    | insertAccount id _ _ =>
      cases hc
      exact allowed.2.2 y ((holds y).mp hy)
    | updateBalance id _ =>
      cases hc
      exact (foreign allowed).elim
    | updateKey key _ _ _ =>
      cases hc
      exact (foreign allowed).elim
    | _ => first | exact allowed.elim | cases hc

theorem World.finite_parties (app : Job → App Response)
    (ran : run (World.step app) World.init es = some w) : {r | (w.party r).isSome}.Finite := by
  refine (List.finite_toSet (es.filterMap Event.actor)).subset fun r hr => ?_
  obtain ⟨p, hp⟩ := Option.isSome_iff_exists.mp hr
  obtain ⟨request, draws, h⟩ := World.arrived_of_party ran hp
  exact List.mem_filterMap.mpr ⟨_, h, rfl⟩

theorem Inv.progress (inv : Inv sha256 es w)
    (ran : run (World.step (serveRequest sha256)) World.init es = some w) (hr : w.Serving r) :
    ∃ q w', w.Serving q ∧ w.step (serveRequest sha256) (.serve q) = some w' := by
  have finite : {r | w.Serving r}.Finite :=
    (World.finite_parties _ ran).subset fun q ⟨p, _, _, hp, _⟩ => by simp [hp]
  have closed : ∀ o ∈ {r | w.Serving r}, ∀ o', w.WaitsFor o o' → o' ∈ {r | w.Serving r} := by
    rintro o - o' ⟨-, x, -, hown⟩
    exact inv.released o' x hown
  obtain ⟨q, ⟨⟨job, _, session⟩, c, k, hp, rfl⟩, free⟩ :=
    Locks.exists_not_waiting inv.ordered finite ⟨r, hr⟩ closed
  refine ⟨q, ?_⟩
  cases hx : w.server.exec q job session c with
  | some result => exact ⟨_, ⟨_, c, k, hp, rfl⟩, by simp [World.step, World.call, hp, hx]; rfl⟩
  | none =>
    obtain ⟨o, waits⟩ := World.exists_waitsFor hp hx
    exact (free o waits).elim

theorem transGen_of_isChain {α : Type} {R : α → α → Prop} {a b : α} {l : List α}
    (h : (a :: (l ++ [b])).IsChain R) : Relation.TransGen R a b := by
  induction l generalizing a with
  | nil => simpa using .single (by simpa using h)
  | cons x l ih =>
    obtain ⟨hx, h⟩ := List.isChain_cons_cons.mp h
    exact .head hx (ih h)

theorem Inv.acyclic (inv : Inv sha256 es w) (r : Nat) : ¬ Relation.TransGen w.WaitsFor r r :=
  Locks.WaitsFor.acyclic inv.ordered r

theorem World.deadlock_eq_none {app : Job → App Response}
    (acyclic : ∀ r, ¬ Relation.TransGen w.WaitsFor r r) (r : Nat) (cycle : List Nat) :
    w.step app (.deadlock r cycle) = none := by
  rw [Option.eq_none_iff_forall_ne_some]
  intro w' hstep
  cases World.step_cases hstep with
  | met hp hm =>
    cases hm with
    | deadlocked _ chain => exact acyclic r (transGen_of_isChain chain)

theorem Inv.deadlock_eq_none (inv : Inv sha256 es w) (r : Nat) (cycle : List Nat) :
    w.step (serveRequest sha256) (.deadlock r cycle) = none :=
  World.deadlock_eq_none inv.acyclic r cycle

theorem no_deadlock (x : Run (serveRequest sha256)) :
    (∀ r, ¬ Relation.TransGen x.last.WaitsFor r r) ∧
    ((∃ r, x.last.Serving r) → ∃ r w', x.last.Serving r ∧
      x.last.step (serveRequest sha256) (.serve r) = some w') ∧
    ∀ r cycle, x.last.step (serveRequest sha256) (.deadlock r cycle) = none :=
  have inv := Inv.of_run x.ran
  ⟨inv.acyclic, fun ⟨_, hr⟩ => inv.progress x.ran hr, inv.deadlock_eq_none⟩

end Ledger
