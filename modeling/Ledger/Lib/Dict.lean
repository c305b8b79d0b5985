import Mathlib.Data.List.Induction
import Ledger.Lib.Rows

namespace Ledger.Lib

variable {κ α β : Type*} [DecidableEq κ]

/-- A dictionary, which keeps its keys in the order in which they were first set. -/
structure Dict (κ α : Type*) where
  items : List (κ × α)
  unique : (items.map Prod.fst).Nodup

namespace Dict

def empty : Dict κ α := ⟨[], List.nodup_nil⟩

def get? (d : Dict κ α) (k : κ) : Option α := (Rows.lookup Prod.fst k d.items).map Prod.snd

/-- `d[k] = v` -/
def set (d : Dict κ α) (k : κ) (v : α) : Dict κ α :=
  if h : (d.get? k).isSome then
    { items := Rows.modify Prod.fst k (fun item => (item.1, v)) d.items
      unique := by
        have keys : (Rows.modify Prod.fst k (fun item => (item.1, v)) d.items).map Prod.fst =
            d.items.map Prod.fst := Rows.map_modify fun _ => rfl
        exact keys ▸ d.unique }
  else
    { items := d.items ++ [(k, v)]
      unique := by
        rw [get?, Option.isSome_map, Rows.lookup_isSome] at h
        rw [List.map_append, List.nodup_append]
        refine ⟨d.unique, List.nodup_singleton k, fun k' hk' k'' hk'' he => h ?_⟩
        obtain rfl : k'' = k := List.mem_singleton.mp hk''
        exact he ▸ hk' }

/-- `d.setdefault(k, []).append(v)` -/
def push (d : Dict κ (List α)) (k : κ) (v : α) : Dict κ (List α) :=
  d.set k ((d.get? k).getD [] ++ [v])

/-- `{**d, …}` -/
def setAll (d : Dict κ α) (items : List (κ × α)) : Dict κ α :=
  items.foldl (fun d item => d.set item.1 item.2) d

def ofList (items : List (κ × α)) : Dict κ α := empty.setAll items

def group (key : α → κ) (xs : List α) : Dict κ (List α) :=
  xs.foldl (fun d x => d.push (key x) x) empty

variable {d : Dict κ α} {k k' : κ} {v : α} {items : List (κ × α)}

@[simp] theorem get?_empty (k : κ) : (empty : Dict κ α).get? k = none := rfl

theorem get?_set (d : Dict κ α) (k k' : κ) (v : α) :
    (d.set k v).get? k' = if k = k' then some v else d.get? k' := by
  unfold set
  split
  · next h =>
    have modified : Rows.lookup Prod.fst k'
        (Rows.modify Prod.fst k (fun item => (item.1, v)) d.items) =
          (Rows.lookup Prod.fst k' d.items).map fun item =>
            if item.1 = k then (item.1, v) else item := Rows.lookup_modify fun _ => rfl
    rw [get?, modified, Option.map_map, get?]
    by_cases hk : k = k'
    · subst hk
      obtain ⟨v', hv⟩ := Option.isSome_iff_exists.mp h
      obtain ⟨item, hitem, -⟩ := Option.map_eq_some_iff.mp hv
      have key : item.1 = k := Rows.key_of_lookup hitem
      simp [hitem, key]
    · rw [if_neg hk]
      refine Option.map_congr fun item hitem => ?_
      have key : item.1 = k' := Rows.key_of_lookup hitem
      simp [key, Ne.symm hk]
  · next h =>
    have absent : Rows.lookup Prod.fst k d.items = none := by simpa [get?] using h
    rw [get?, get?]
    cases hitem : Rows.lookup Prod.fst k' d.items with
    | none =>
      rw [Rows.lookup_append_of_none hitem, Rows.lookup_cons]
      by_cases hk : k = k' <;> simp [hk]
    | some item =>
      have hk : k ≠ k' := by
        rintro rfl
        cases absent.symm.trans hitem
      rw [Rows.lookup_append_of_some hitem, if_neg hk]

theorem setAll_concat (d : Dict κ α) (items : List (κ × α)) (item : κ × α) :
    d.setAll (items ++ [item]) = (d.setAll items).set item.1 item.2 :=
  List.foldl_append ..

theorem get?_setAll (d : Dict κ α) (items : List (κ × α)) (k : κ) :
    (d.setAll items).get? k =
      ((Rows.lookup Prod.fst k items.reverse).map Prod.snd).or (d.get? k) := by
  induction items using List.reverseRecOn with
  | nil => rfl
  | append_singleton items item ih =>
    rw [setAll_concat, get?_set, ih, List.reverse_concat, Rows.lookup_cons]
    by_cases hk : item.1 = k <;> simp [hk]

theorem get?_setAll_of_mem (mem : (k, v) ∈ items) (only : ∀ v', (k, v') ∈ items → v' = v) :
    (d.setAll items).get? k = some v := by
  have found : (Rows.lookup Prod.fst k items.reverse).isSome :=
    Rows.lookup_isSome.mpr (List.mem_map.mpr ⟨_, List.mem_reverse.mpr mem, rfl⟩)
  obtain ⟨⟨k', v'⟩, hitem⟩ := Option.isSome_iff_exists.mp found
  obtain rfl : k' = k := Rows.key_of_lookup hitem
  obtain rfl := only v' (List.mem_reverse.mp (Rows.mem_of_lookup hitem))
  rw [get?_setAll, hitem]
  rfl

theorem get?_of_mem (d : Dict κ α) (mem : (k, v) ∈ d.items) : d.get? k = some v := by
  rw [get?, Rows.lookup_of_mem d.unique mem]
  rfl

theorem mem_of_get? (h : d.get? k = some v) : (k, v) ∈ d.items := by
  obtain ⟨⟨k', v'⟩, hitem, rfl⟩ := Option.map_eq_some_iff.mp h
  obtain rfl : k' = k := Rows.key_of_lookup hitem
  exact Rows.mem_of_lookup hitem

theorem get?_setAll_items (d d' : Dict κ α) (k : κ) :
    (d.setAll d'.items).get? k = (d'.get? k).or (d.get? k) := by
  cases hv : d'.get? k with
  | some v =>
    refine get?_setAll_of_mem (mem_of_get? hv) fun v' hmem => ?_
    exact Option.some.inj ((d'.get?_of_mem hmem).symm.trans hv)
  | none =>
    have absent : Rows.lookup Prod.fst k d'.items = none := by simpa [get?] using hv
    have absent' : Rows.lookup Prod.fst k d'.items.reverse = none :=
      Rows.lookup_eq_none.mpr fun item hitem =>
        Rows.lookup_eq_none.mp absent item (List.mem_reverse.mp hitem)
    rw [get?_setAll, absent']
    rfl

def mapValues (f : α → β) (d : Dict κ α) : Dict κ β :=
  ofList (d.items.map fun item => (item.1, f item.2))

theorem get?_mapValues (f : α → β) (d : Dict κ α) (k : κ) :
    (d.mapValues f).get? k = (d.get? k).map f := by
  cases hv : d.get? k with
  | some v =>
    refine get?_setAll_of_mem (List.mem_map_of_mem (mem_of_get? hv)) fun v' hmem => ?_
    obtain ⟨item, hitem, he⟩ := List.mem_map.mp hmem
    obtain ⟨rfl, rfl⟩ := Prod.mk.inj he
    rw [Option.some.inj ((d.get?_of_mem hitem).symm.trans hv)]
  | none =>
    have absent : Rows.lookup Prod.fst k d.items = none := by simpa [get?] using hv
    have absent' : Rows.lookup Prod.fst k
        (d.items.map fun item => (item.1, f item.2)).reverse = none := by
      refine Rows.lookup_eq_none.mpr fun item hitem => ?_
      obtain ⟨old, hold, rfl⟩ := List.mem_map.mp (List.mem_reverse.mp hitem)
      exact Rows.lookup_eq_none.mp absent old hold
    rw [mapValues, ofList, get?_setAll, absent']
    rfl

theorem get?_push (d : Dict κ (List α)) (k k' : κ) (v : α) :
    (d.push k v).get? k' = if k = k' then some ((d.get? k).getD [] ++ [v]) else d.get? k' :=
  get?_set d k k' _

theorem group_concat (key : α → κ) (xs : List α) (x : α) :
    group key (xs ++ [x]) = (group key xs).push (key x) x :=
  List.foldl_append ..

theorem get?_group (key : α → κ) (xs : List α) (k : κ) : (group key xs).get? k =
    if k ∈ xs.map key then some (xs.filter (key · = k)) else none := by
  induction xs using List.reverseRecOn with
  | nil => rfl
  | append_singleton xs x ih =>
    rw [group_concat, get?_push]
    by_cases hk : key x = k
    · subst hk
      rw [ih]
      by_cases hmem : key x ∈ xs.map key
      · simp [hmem]
      · have none : xs.filter (key · = key x) = [] := by
          simpa [List.filter_eq_nil_iff] using hmem
        rw [if_neg hmem]
        simp [none]
    · have hk' : ¬ k = key x := fun he => hk he.symm
      simp [hk, hk', ih]

end Dict

end Ledger.Lib
