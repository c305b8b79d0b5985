import Mathlib.Algebra.Group.Defs
import Mathlib.Data.Set.Defs
import Mathlib.Logic.Function.Basic
import Mathlib.Order.Bounds.Basic
import Mathlib.Order.Lattice

namespace Ledger.Lib

/-! A bank, as its clients think of it: accounts with money on them, and keys under which a deal
is done once. -/

inductive Deal (A M : Type*)
  | opening (amount : M)
  | transfer (source destination : A) (amount : M)

/-- A deal that was done, with the name that it was given and the time.  An account goes by the
name of the deal that opened it. -/
structure Receipt (A M T : Type*) where
  id : A
  deal : Deal A M
  time : T

structure Bank (A K P M T : Type*) where
  balance : A → Option M
  /-- the deal that was done under a key, and the print of the request for it -/
  settled : K → Option (P × Receipt A M T)

/-- What a client sends.  The receipt is the one that the client gets if the deal is done now. -/
inductive Instruction (A K P M T : Type*)
  | deal (key : Option K) (print : P) (receipt : Receipt A M T)
  | balance (account : A)
  | statement (account : A)

inductive Verdict (A K P M T : Type*)
  | receipt (receipt : Receipt A M T) (fresh : Bool)
  | unkeyed
  | sameAccount
  | conflict (key : K) (print : P)
  | unknown (account : A)
  | short (account : A) (balance requested : M)
  | full
  | balance (account : A) (amount : M)
  | statement (account : A) (receipts : Set (Receipt A M T))

section deal

variable {A M : Type*}

def Deal.Circular : Deal A M → Prop
  | .opening _ => False
  | .transfer source destination _ => source = destination

instance [DecidableEq A] : (deal : Deal A M) → Decidable deal.Circular
  | .opening _ => inferInstanceAs (Decidable False)
  | .transfer source destination _ => inferInstanceAs (Decidable (source = destination))

def Deal.Touches (account : A) : Deal A M → Prop
  | .opening _ => False
  | .transfer source destination _ => source = account ∨ destination = account

end deal

namespace Bank

variable {A K P M T : Type*}

def empty : Bank A K P M T := ⟨fun _ => none, fun _ => none⟩

def statement (b : Bank A K P M T) (account : A) : Set (Receipt A M T) :=
  {receipt | receipt.deal.Touches account ∧ ∃ key print, b.settled key = some (print, receipt)}

variable [LinearOrder A] [LinearOrder M] [AddGroup M]

/-- The balances after a transfer, or what stands in its way.  No balance may reach the limit. -/
def transfer (limit : M) (b : Bank A K P M T) (source destination : A) (amount : M) :
    Except (Verdict A K P M T) (A → Option M) :=
  match b.balance source, b.balance destination with
  | none, none => .error (.unknown (min source destination))
  | none, some _ => .error (.unknown source)
  | some _, none => .error (.unknown destination)
  | some x, some y =>
    if x < amount then .error (.short source x amount)
    else if limit ≤ y + amount then .error .full
    else .ok (Function.update (Function.update b.balance source (some (x - amount))) destination
      (some (y + amount)))

def perform (limit : M) (b : Bank A K P M T) (receipt : Receipt A M T) :
    Except (Verdict A K P M T) (A → Option M) :=
  match receipt.deal with
  | .opening amount => .ok (Function.update b.balance receipt.id (some amount))
  | .transfer source destination amount => b.transfer limit source destination amount

section transfer

variable {limit x y amount : M} {b : Bank A K P M T} {source destination account : A}

theorem transfer_missing (h : IsLeast
    {a | (a = source ∨ a = destination) ∧ b.balance a = none} account) :
    b.transfer limit source destination amount = .error (.unknown account) := by
  obtain ⟨⟨mem, absent⟩, least⟩ := h
  unfold transfer
  cases hs : b.balance source with
  | none =>
    cases hd : b.balance destination with
    | none =>
      have lower : account ≤ min source destination :=
        le_min (least ⟨.inl rfl, hs⟩) (least ⟨.inr rfl, hd⟩)
      have upper : min source destination ≤ account := by
        rcases mem with rfl | rfl
        · exact min_le_left _ _
        · exact min_le_right _ _
      simp only [le_antisymm upper lower]
    | some _ =>
      rcases mem with rfl | rfl
      · rfl
      · rw [hd] at absent
        cases absent
  | some _ =>
    rcases mem with rfl | rfl
    · rw [hs] at absent
      cases absent
    · rw [absent]

theorem transfer_short (hs : b.balance source = some x) (hd : b.balance destination = some y)
    (h : x < amount) :
    b.transfer limit source destination amount = .error (.short source x amount) := by
  simp only [transfer, hs, hd, if_pos h]

theorem transfer_full (hs : b.balance source = some x) (hd : b.balance destination = some y)
    (covered : ¬ x < amount) (h : limit ≤ y + amount) :
    b.transfer limit source destination amount = .error .full := by
  simp only [transfer, hs, hd, if_neg covered, if_pos h]

theorem transfer_done (hs : b.balance source = some x) (hd : b.balance destination = some y)
    (covered : ¬ x < amount) (fits : ¬ limit ≤ y + amount) :
    b.transfer limit source destination amount =
      .ok (Function.update (Function.update b.balance source (some (x - amount))) destination
        (some (y + amount))) := by
  simp only [transfer, hs, hd, if_neg covered, if_neg fits]

end transfer

variable [DecidableEq K] [DecidableEq P]

/-- A deal is done at most once under its key, and a receipt is never taken back. -/
def serve (limit : M) (b : Bank A K P M T) :
    Instruction A K P M T → Bank A K P M T × Verdict A K P M T
  | .deal none _ _ => (b, .unkeyed)
  | .deal (some key) print receipt =>
    if receipt.deal.Circular then (b, .sameAccount)
    else
      match b.settled key with
      | some (first, done) =>
        (b, if first = print then .receipt done false else .conflict key first)
      | none =>
        match b.perform limit receipt with
        | .error verdict => (b, verdict)
        | .ok balance =>
          (⟨balance, Function.update b.settled key (some (print, receipt))⟩, .receipt receipt true)
  | .balance account =>
    match b.balance account with
    | none => (b, .unknown account)
    | some amount => (b, .balance account amount)
  | .statement account =>
    match b.balance account with
    | none => (b, .unknown account)
    | some _ => (b, .statement account (b.statement account))

section serve

variable {limit : M} {b : Bank A K P M T} {key : K} {print : P} {receipt : Receipt A M T}

theorem serve_settled {first : P} {done : Receipt A M T} (distinct : ¬ receipt.deal.Circular)
    (h : b.settled key = some (first, done)) : b.serve limit (.deal (some key) print receipt) =
      (b, if first = print then .receipt done false else .conflict key first) := by
  simp only [serve, if_neg distinct, h]

theorem serve_refused (distinct : ¬ receipt.deal.Circular) (free : b.settled key = none)
    {verdict : Verdict A K P M T} (h : b.perform limit receipt = .error verdict) :
    b.serve limit (.deal (some key) print receipt) = (b, verdict) := by
  simp only [serve, if_neg distinct, free, h]

theorem serve_done (distinct : ¬ receipt.deal.Circular) (free : b.settled key = none)
    {balance : A → Option M} (h : b.perform limit receipt = .ok balance) :
    b.serve limit (.deal (some key) print receipt) =
      (⟨balance, Function.update b.settled key (some (print, receipt))⟩,
        .receipt receipt true) := by
  simp only [serve, if_neg distinct, free, h]

end serve

end Bank

end Ledger.Lib
