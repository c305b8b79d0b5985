import Ledger.Schemas
import Mathlib.Logic.Equiv.Basic

namespace Ledger

open Lib

/-- Two bodies the service takes for one request: the same accounts and the same amount, as
rendered. -/
def Payload.Same : Payload → Payload → Prop
  | .account req, .account req' =>
    serializeMoney req.initialBalance.value = serializeMoney req'.initialBalance.value
  | .transfer req, .transfer req' => req.fromAccountId = req'.fromAccountId ∧
    req.toAccountId = req'.toAccountId ∧
    serializeMoney req.amount.value = serializeMoney req'.amount.value
  | _, _ => False

theorem Payload.Same.refl (req : Payload) : req.Same req := by
  cases req with
  | account req => exact rfl
  | transfer req => exact ⟨rfl, rfl, rfl⟩

theorem Payload.canonical_of_same {req req' : Payload} (h : req.Same req') :
    req.canonical = req'.canonical := by
  cases req with
  | account req =>
    cases req' with
    | transfer req' => exact h.elim
    | account req' =>
      have h : serializeMoney _ = serializeMoney _ := h
      rw [canonical, canonical, modelDump, modelDump, h]
  | transfer req =>
    cases req' with
    | account req' => exact h.elim
    | transfer req' =>
      obtain ⟨hfrom, hto, hamount⟩ := h
      rw [canonical, canonical, modelDump, modelDump, hfrom, hto, hamount]

theorem digitChar_inj {n m : Nat} (hn : n < 16) (hm : m < 16) (h : n.digitChar = m.digitChar) :
    n = m := by
  have : ∀ n < 16, ∀ m < 16, n.digitChar = m.digitChar → n = m := by decide
  exact this n hn m hm h

@[simp] theorem length_hexDigits (n : Nat) : (hexDigits n).length = 32 := by simp [hexDigits]

theorem hexDigits_inj {n m : Nat} (hn : n < 16 ^ 32) (hm : m < 16 ^ 32)
    (h : hexDigits n = hexDigits m) : n = m := by
  have digits (i : Nat) (hi : i < 32) : n / 16 ^ i % 16 = m / 16 ^ i % 16 := by
    refine digitChar_inj (Nat.mod_lt _ (by decide)) (Nat.mod_lt _ (by decide)) ?_
    exact List.map_inj_left.mp h i (by simpa using hi)
  have prefixes (k : Nat) (hk : k ≤ 32) : n % 16 ^ k = m % 16 ^ k := by
    induction k with
    | zero => simp [Nat.mod_one]
    | succ k ih => rw [Nat.mod_pow_succ, Nat.mod_pow_succ, ih (by omega), digits k (by omega)]
  have := prefixes 32 le_rfl
  rwa [Nat.mod_eq_of_lt hn, Nat.mod_eq_of_lt hm] at this

theorem Uuid.length_text (u : Uuid) : u.text.toList.length = 36 := by
  simp [Uuid.text]

theorem drop_eq_of_take {α : Type} {k l : Nat} {a b : List α}
    (h : (a.drop k).take l = (b.drop k).take l) (h' : a.drop (k + l) = b.drop (k + l)) :
    a.drop k = b.drop k := by
  rw [← List.take_append_drop l (a.drop k), h, List.drop_drop, h', ← List.drop_drop,
    List.take_append_drop]

theorem Uuid.text_inj {u v : Uuid} (h : u.text = v.text) : u = v := by
  have lu := length_hexDigits u.val
  have lv := length_hexDigits v.val
  suffices hexDigits u.val = hexDigits v.val from
    Fin.ext (hexDigits_inj (lt_of_lt_of_eq u.isLt (by decide)) (lt_of_lt_of_eq v.isLt (by decide))
      this)
  have h := congrArg String.toList h
  simp only [Uuid.text, String.toList_ofList, List.append_assoc, List.cons_append] at h
  obtain ⟨h1, h⟩ := List.append_inj h (by simp [lu, lv])
  obtain ⟨h2, h⟩ := List.append_inj (List.tail_eq_of_cons_eq h) (by simp [lu, lv])
  obtain ⟨h3, h⟩ := List.append_inj (List.tail_eq_of_cons_eq h) (by simp [lu, lv])
  obtain ⟨h4, h⟩ := List.append_inj (List.tail_eq_of_cons_eq h) (by simp [lu, lv])
  have h5 := List.tail_eq_of_cons_eq h
  exact drop_eq_of_take (k := 0) h1 <| drop_eq_of_take h2 <| drop_eq_of_take h3 <|
    drop_eq_of_take h4 h5

theorem canonical_transfer (req : TransferRequest) : (Payload.transfer req).canonical.toList =
    "\x7b\"amount\":\"".toList ++ (serializeMoney req.amount.value).toList ++
      "\",\"from_account_id\":\"".toList ++ req.fromAccountId.text.toList ++
      "\",\"to_account_id\":\"".toList ++ req.toAccountId.text.toList ++ "\"\x7d".toList := by
  have sorted (a f t : String) : [("from_account_id", f), ("to_account_id", t),
      ("amount", a)].insertionSort (fun a b => a.1 ≤ b.1) =
        [("amount", a), ("from_account_id", f), ("to_account_id", t)] := by
    simp [List.insertionSort]
  simp [Payload.canonical, jsonDumps, Payload.modelDump, sorted, jsonFields]

theorem canonical_account (req : CreateAccountRequest) : (Payload.account req).canonical.toList =
    "\x7b\"initial_balance\":\"".toList ++ (serializeMoney req.initialBalance.value).toList ++
      "\"\x7d".toList := by
  simp [Payload.canonical, jsonDumps, Payload.modelDump, jsonFields]

theorem Payload.same_of_canonical {req req' : Payload} (hop : req.operation = req'.operation)
    (h : req.canonical = req'.canonical) : req.Same req' := by
  have h := congrArg String.toList h
  cases req with
  | account req =>
    cases req' with
    | transfer req' => cases hop
    | account req' =>
      rw [canonical_account, canonical_account] at h
      obtain ⟨h, -⟩ := List.append_inj' h rfl
      exact String.toList_inj.mp (List.append_cancel_left h)
  | transfer req =>
    cases req' with
    | account req' => cases hop
    | transfer req' =>
      rw [canonical_transfer, canonical_transfer] at h
      obtain ⟨h, -⟩ := List.append_inj' h rfl
      obtain ⟨h, hto⟩ := List.append_inj' h (by simp only [Uuid.length_text])
      obtain ⟨h, -⟩ := List.append_inj' h rfl
      obtain ⟨h, hfrom⟩ := List.append_inj' h (by simp only [Uuid.length_text])
      obtain ⟨h, -⟩ := List.append_inj' h rfl
      exact ⟨Uuid.text_inj (String.toList_inj.mp hfrom), Uuid.text_inj (String.toList_inj.mp hto),
        String.toList_inj.mp (List.append_cancel_left h)⟩

/-- Different texts of these bodies have different hashes. -/
def CollisionFree (sha256 : String → String) (payloads : Set Payload) : Prop :=
  ∀ req ∈ payloads, ∀ req' ∈ payloads, sha256 req.canonical = sha256 req'.canonical →
    req.canonical = req'.canonical

/-- Free of collisions, and SHA-256 on the three bodies below. -/
def swappedHash : String → String :=
  (Equiv.swap "\x7b\"initial_balance\":\"0.0000\"\x7d"
    "2169515bc2ec6695f2d44ec6bca1756cb106ac510465b586cec4f9764bea2776").trans <|
  (Equiv.swap "\x7b\"initial_balance\":\"-0.0000\"\x7d"
    "ddf0850901999e1f06a968bfdb8826e0a87b9aac25fc153db30423cb764fdfe7").trans <|
  Equiv.swap "\x7b\"initial_balance\":\"500.0000\"\x7d"
    "9a5b3d492cdb206f9c5e062213d2e4ff24fd499433d1b7896e0f39d55e2219d4"

theorem swappedHash_collisionFree (payloads : Set Payload) : CollisionFree swappedHash payloads :=
  fun _ _ _ _ h => (Equiv.injective _) h

end Ledger
