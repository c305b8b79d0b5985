import Mathlib.Data.List.Basic
import Mathlib.Data.List.Nodup
import Mathlib.Data.List.Sort
import Mathlib.Algebra.BigOperators.Group.List.Basic
import Mathlib.Algebra.Order.Ring.Int

namespace Ledger.Lib.Rows

variable {α β κ : Type*} [DecidableEq κ] {key : α → κ} {k k' : κ} {row : α} {rows more : List α}

def lookup (key : α → κ) (k : κ) (rows : List α) : Option α :=
  rows.find? fun row => key row = k

def modify (key : α → κ) (k : κ) (f : α → α) (rows : List α) : List α :=
  rows.map fun row => if key row = k then f row else row

@[simp] theorem lookup_nil : lookup key k [] = none := rfl

theorem lookup_cons : lookup key k (row :: rows) =
    if key row = k then some row else lookup key k rows := by
  unfold lookup
  rw [List.find?_cons]
  by_cases h : key row = k <;> simp [h]

theorem lookup_eq_none : lookup key k rows = none ↔ ∀ row ∈ rows, key row ≠ k := by
  simp [lookup]

theorem mem_of_lookup (h : lookup key k rows = some row) : row ∈ rows :=
  List.mem_of_find?_eq_some h

theorem key_of_lookup (h : lookup key k rows = some row) : key row = k := by
  simpa using List.find?_some h

theorem lookup_append : lookup key k (rows ++ more) =
    (lookup key k rows).or (lookup key k more) := by
  simp [lookup, List.find?_append]

theorem lookup_append_of_some (h : lookup key k rows = some row) :
    lookup key k (rows ++ more) = some row := by
  simp [lookup_append, h]

theorem lookup_append_of_none (h : lookup key k rows = none) :
    lookup key k (rows ++ more) = lookup key k more := by
  simp [lookup_append, h]

theorem lookup_isSome : (lookup key k rows).isSome ↔ k ∈ rows.map key := by
  simp [lookup, List.find?_isSome]

theorem lookup_map {f : α → α} (h : ∀ row, key (f row) = key row) :
    lookup key k (rows.map f) = (lookup key k rows).map f := by
  have same : (fun row => decide (key row = k)) ∘ f = fun row => decide (key row = k) := by
    funext row
    simp [h]
  rw [lookup, List.find?_map, same, lookup]

theorem lookup_of_mem (unique : (rows.map key).Nodup) (h : row ∈ rows) :
    lookup key (key row) rows = some row := by
  induction rows with
  | nil => simp at h
  | cons r rows ih =>
    simp only [List.map_cons, List.nodup_cons] at unique
    rw [lookup_cons]
    rcases List.mem_cons.mp h with rfl | h
    · simp
    · have hne : key r ≠ key row := fun he => unique.1 (he ▸ List.mem_map_of_mem h)
      rw [if_neg hne, ih unique.2 h]

@[simp] theorem modify_nil (f : α → α) : modify key k f [] = [] := rfl

@[simp] theorem modify_cons (f : α → α) : modify key k f (row :: rows) =
    (if key row = k then f row else row) :: modify key k f rows := rfl

theorem modify_append (f : α → α) :
    modify key k f (rows ++ more) = modify key k f rows ++ modify key k f more := by
  simp [modify]

theorem modify_of_absent (h : lookup key k rows = none) (f : α → α) :
    modify key k f rows = rows := by
  rw [lookup_eq_none] at h
  unfold modify
  rw [List.map_congr_left fun row hrow => if_neg (h row hrow), List.map_id']

theorem map_modify {f : α → α} {g : α → β} (h : ∀ row, g (f row) = g row) :
    (modify key k f rows).map g = rows.map g := by
  simp only [modify, List.map_map]
  refine List.map_congr_left fun row _ => ?_
  simp only [Function.comp]
  split <;> simp [h]

theorem lookup_modify {f : α → α} (h : ∀ row, key (f row) = key row) :
    lookup key k' (modify key k f rows) =
      (lookup key k' rows).map fun row => if key row = k then f row else row := by
  induction rows with
  | nil => rfl
  | cons r rows ih =>
    have hkey : key (if key r = k then f r else r) = key r := by split <;> simp [h]
    rw [modify_cons, lookup_cons, lookup_cons, ih, hkey]
    by_cases hr : key r = k' <;> simp [hr]

theorem lookup_modify_ne {f : α → α} (h : ∀ row, key (f row) = key row) (hk : k' ≠ k) :
    lookup key k' (modify key k f rows) = lookup key k' rows := by
  rw [lookup_modify h]
  cases hl : lookup key k' rows with
  | none => rfl
  | some row => simp [key_of_lookup hl, hk]

theorem filter_flatMap (key : α → κ) (owner : β → κ) {f : β → List α}
    (hkey : ∀ b, ∀ row ∈ f b, key row = owner b) {bs : List β} (unique : (bs.map owner).Nodup)
    {b : β} (h : b ∈ bs) :
    (bs.flatMap f).filter (key · = owner b) = f b := by
  induction bs with
  | nil => simp at h
  | cons b' bs ih =>
    simp only [List.map_cons, List.nodup_cons] at unique
    rw [List.flatMap_cons, List.filter_append]
    rcases List.mem_cons.mp h with rfl | h
    · have rest : (bs.flatMap f).filter (key · = owner b) = [] := by
        rw [List.filter_eq_nil_iff]
        intro row hrow
        obtain ⟨b', hb', hrow⟩ := List.mem_flatMap.mp hrow
        have hne : owner b' ≠ owner b := fun he => unique.1 (he ▸ List.mem_map_of_mem hb')
        simpa [hkey b' row hrow] using hne
      rw [rest, List.append_nil, List.filter_eq_self]
      simpa using hkey b
    · have first : (f b').filter (key · = owner b) = [] := by
        rw [List.filter_eq_nil_iff]
        intro row hrow
        have hne : owner b' ≠ owner b := fun he => unique.1 (he ▸ List.mem_map_of_mem h)
        simpa [hkey b' row hrow] using hne
      rw [first, List.nil_append, ih unique.2 h]

theorem sum_filter (key : α → κ) {keys : List κ} (unique : keys.Nodup) (v : α → Int)
    (h : ∀ row ∈ rows, key row ∈ keys) :
    (keys.map fun k => ((rows.filter (key · = k)).map v).sum).sum = (rows.map v).sum := by
  induction rows with
  | nil => simp
  | cons row rows ih =>
    have split (k : κ) : (((row :: rows).filter (key · = k)).map v).sum =
        (if k = key row then v row else 0) + ((rows.filter (key · = k)).map v).sum := by
      by_cases hk : key row = k
      · simp [hk]
      · simp [hk, Ne.symm hk]
    simp only [split]
    rw [List.sum_map_add, ih fun row hrow => h row (List.mem_cons_of_mem _ hrow),
      List.sum_map_ite_eq, List.count_eq_one_of_mem unique (h row List.mem_cons_self)]
    simp

theorem exists_of_forall₂ {R : α → β → Prop} {rows' : List β} (h : List.Forall₂ R rows rows')
    (mem : row ∈ rows) : ∃ row' ∈ rows', R row row' := by
  induction h with
  | nil => simp at mem
  | cons matched _ ih =>
    rcases List.mem_cons.mp mem with rfl | mem
    · exact ⟨_, List.mem_cons_self, matched⟩
    · obtain ⟨row', hrow', hR⟩ := ih mem
      exact ⟨row', List.mem_cons_of_mem _ hrow', hR⟩

theorem map_eq_of_forall₂ {γ : Type*} {R : α → β → Prop} {rows' : List β} {f : α → γ} {g : β → γ}
    (h : List.Forall₂ R rows rows') (same : ∀ row row', R row row' → f row = g row') :
    rows.map f = rows'.map g := by
  induction h with
  | nil => rfl
  | cons matched _ ih => rw [List.map_cons, List.map_cons, same _ _ matched, ih]

section orderByDesc

variable {ω : Type*} [LinearOrder ω] (sort : α → ω)

def orderByDesc (rows : List α) : List α := rows.insertionSort fun a b => sort b ≤ sort a

variable {sort}

theorem orderByDesc_perm (rows : List α) : (orderByDesc sort rows).Perm rows :=
  List.perm_insertionSort _ _

theorem orderByDesc_sorted (rows : List α) :
    (orderByDesc sort rows).Pairwise fun a b => sort b ≤ sort a :=
  haveI : Std.Total fun a b : α => sort b ≤ sort a := ⟨fun a b => le_total (sort b) (sort a)⟩
  haveI : IsTrans α fun a b => sort b ≤ sort a := ⟨fun _ _ _ h h' => h'.trans h⟩
  List.pairwise_insertionSort _ _

theorem orderByDesc_unique (unique : (rows.map sort).Nodup) (perm : more.Perm rows)
    (sorted : more.Pairwise fun a b => sort b ≤ sort a) : more = orderByDesc sort rows := by
  refine List.Perm.eq_of_pairwise (fun a b ha hb hab hba => ?_) sorted (orderByDesc_sorted rows)
    (perm.trans (orderByDesc_perm rows).symm)
  exact List.inj_on_of_nodup_map unique (perm.subset ha) ((orderByDesc_perm rows).subset hb)
    (le_antisymm hba hab)

theorem orderByDesc_strict (unique : (rows.map sort).Nodup) :
    (orderByDesc sort rows).Pairwise fun a b => sort b < sort a := by
  have distinct : ((orderByDesc sort rows).map sort).Nodup :=
    ((orderByDesc_perm rows).map sort).nodup_iff.mpr unique
  rw [List.Nodup, List.pairwise_map] at distinct
  exact (distinct.and (orderByDesc_sorted rows)).imp fun ⟨hne, hle⟩ => lt_of_le_of_ne hle hne.symm

theorem orderByDesc_eq_reverse (ascending : rows.Pairwise fun a b => sort a < sort b) :
    orderByDesc sort rows = rows.reverse := by
  have unique : (rows.map sort).Nodup := by
    rw [List.Nodup, List.pairwise_map]
    exact ascending.imp ne_of_lt
  refine (orderByDesc_unique unique (List.reverse_perm rows) ?_).symm
  rw [List.pairwise_reverse]
  exact ascending.imp le_of_lt

theorem orderByDesc_pair {row' : α} (mem : row ∈ rows) (mem' : row' ∈ rows)
    (h : sort row < sort row') : [row', row].Sublist (orderByDesc sort rows) := by
  have perm : (orderByDesc sort rows).Perm rows := orderByDesc_perm rows
  have sorted : (orderByDesc sort rows).Pairwise fun a b => sort b ≤ sort a :=
    orderByDesc_sorted rows
  replace mem := perm.mem_iff.mpr mem
  replace mem' := perm.mem_iff.mpr mem'
  generalize orderByDesc sort rows = ordered at sorted mem mem'
  induction sorted with
  | nil => simp at mem
  | @cons first rest below _ ih =>
    rcases List.mem_cons.mp mem' with rfl | later'
    · rcases List.mem_cons.mp mem with rfl | later
      · exact (lt_irrefl _ h).elim
      · exact (List.singleton_sublist.mpr later).cons_cons _
    · rcases List.mem_cons.mp mem with rfl | later
      · exact (not_lt.mpr (below row' later') h).elim
      · exact (ih later later').cons _

end orderByDesc

end Ledger.Lib.Rows
