import FramePlan.IdMap
import Mathlib.Data.Finset.Card
import Mathlib.Data.List.Induction
import Mathlib.Data.List.Perm.Basic

/-!
# Maps as collections of entries

Each id has one entry, so that the entries of a map behave like a multiset when entries are added
and taken away.

* `IdMap.entries_insert`, `IdMap.entries_erase` — one entry more, and one less.
* `IdMap.map_insert`, `IdMap.map_erase` — new values for the same changes.
* `IdMap.ext_getD` — maps with the same ids are the same if they agree up to a default.
* `IdMap.rel_insert`, `IdMap.rel_erase` — maps that agree id by id still do after the same change.
* `IdMap.get?_ofList_eq_lastOf`, `IdMap.size_ofList` — of the pairs with an id the last one counts.
-/

namespace FramePlan

namespace IdMap

variable {k : NodeKind} {α β : Type} {m : IdMap k α} {i : NodeId k} {a : α}

theorem nodup_entries : m.entries.Nodup := by
  apply m.ascending.imp
  intro e e' hlt heq
  subst heq
  exact Nat.lt_irrefl _ hlt

/-- A new id brings a new entry. -/
theorem entries_insert (h : m.get? i = none) :
    (m.insert i a).entries.Perm ((i, a) :: m.entries) := by
  have hfresh : (i, a) ∉ m.entries := by
    rw [mem_entries, h]
    simp
  apply (List.perm_ext_iff_of_nodup nodup_entries (List.nodup_cons.mpr ⟨hfresh, nodup_entries⟩)).mpr
  rintro ⟨j, b⟩
  rw [mem_entries, get?_insert, List.mem_cons, mem_entries, Prod.mk.injEq]
  by_cases hj : j = i
  · subst hj
    simp [h, eq_comm]
  · simp [hj]

/-- An id that goes takes its entry along. -/
theorem entries_erase (h : m.get? i = some a) : m.entries.Perm ((i, a) :: (m.erase i).entries) := by
  have hfresh : (i, a) ∉ (m.erase i).entries := by
    rw [mem_entries, get?_erase]
    simp
  apply (List.perm_ext_iff_of_nodup nodup_entries (List.nodup_cons.mpr ⟨hfresh, nodup_entries⟩)).mpr
  rintro ⟨j, b⟩
  rw [mem_entries, List.mem_cons, mem_entries, get?_erase, Prod.mk.injEq]
  by_cases hj : j = i
  · subst hj
    simp [h, eq_comm]
  · simp [hj]

/-- What is not there is not there after another entry went. -/
theorem get?_erase_of_eq_none {j : NodeId k} (h : m.get? j = none) : (m.erase i).get? j = none := by
  rw [get?_erase, h]
  split <;> rfl

theorem insert_self (h : m.get? i = some a) : m.insert i a = m := by
  apply ext
  intro j
  rw [get?_insert]
  by_cases hj : j = i
  · rw [if_pos hj, hj, h]
  · rw [if_neg hj]

theorem erase_insert : (m.insert i a).erase i = m.erase i := by
  apply ext
  intro j
  rw [get?_erase, get?_erase, get?_insert]
  by_cases hj : j = i <;> simp [hj]

theorem map_insert (f : NodeId k → α → β) : (m.insert i a).map f = (m.map f).insert i (f i a) := by
  apply ext
  intro j
  rw [get?_map, get?_insert, get?_insert, get?_map]
  by_cases hj : j = i
  · subst hj
    simp
  · simp [hj]

theorem keys_map {f : NodeId k → α → β} : (m.map f).keys = m.keys := by
  ext j
  rw [mem_keys, mem_keys, get?_map]
  cases m.get? j <;> simp

theorem map_erase (f : NodeId k → α → β) : (m.erase i).map f = (m.map f).erase i := by
  apply ext
  intro j
  rw [get?_map, get?_erase, get?_erase, get?_map]
  by_cases hj : j = i <;> simp [hj]

/-! ### Maps that agree id by id -/

theorem ext_getD {m n : IdMap k α} (hkeys : ∀ i, i ∈ m.keys ↔ i ∈ n.keys)
    (h : ∀ i, m.getD i a = n.getD i a) : m = n := by
  refine ext fun i => ?_
  have hi := h i
  have hkey := hkeys i
  rw [mem_keys, mem_keys] at hkey
  rw [getD, getD] at hi
  cases hm : m.get? i with
  | some b =>
      obtain ⟨c, hn⟩ := hkey.mp ⟨b, hm⟩
      rw [hm, hn] at hi
      rw [hn, show b = c from hi]
  | none =>
      refine (Option.eq_none_iff_forall_ne_some.mpr fun c hn => ?_).symm
      obtain ⟨b, hb⟩ := hkey.mpr ⟨c, hn⟩
      cases hm.symm.trans hb

variable {R : α → β → Prop} {n : IdMap k β} {b : β}

theorem rel_insert (h : ∀ j, Option.Rel R (m.get? j) (n.get? j)) (hab : R a b) (j : NodeId k) :
    Option.Rel R ((m.insert i a).get? j) ((n.insert i b).get? j) := by
  rw [get?_insert, get?_insert]
  by_cases hj : j = i
  · rw [if_pos hj, if_pos hj]
    exact .some hab
  · rw [if_neg hj, if_neg hj]
    exact h j

theorem rel_erase (h : ∀ j, Option.Rel R (m.get? j) (n.get? j)) (j : NodeId k) :
    Option.Rel R ((m.erase i).get? j) ((n.erase i).get? j) := by
  rw [get?_erase, get?_erase]
  by_cases hj : j = i
  · rw [if_pos hj, if_pos hj]
    exact .none
  · rw [if_neg hj, if_neg hj]
    exact h j

/-! ### Maps from lists -/

/-- Changing the value at each id, one after another, is changing all values at once. -/
theorem foldl_insert_keys {f : α → α} {d : α} :
    m.keys.toList.foldl (fun n i => n.insert i (f (n.getD i d))) m = m.map fun _ a => f a := by
  have hget : ∀ (is : List (NodeId k)) (n : IdMap k α) (j : NodeId k), is.Nodup →
      (is.foldl (fun n i => n.insert i (f (n.getD i d))) n).get? j =
        if j ∈ is then some (f (n.getD j d)) else n.get? j := by
    intro is
    induction is with
    | nil =>
        intro n j _
        rfl
    | cons i is ih =>
        intro n j hnodup
        obtain ⟨hi, his⟩ := List.nodup_cons.mp hnodup
        rw [List.foldl_cons, ih _ j his, get?_insert, getD_insert]
        by_cases hj : j = i
        · subst hj
          rw [if_neg hi, if_pos rfl, if_pos (List.mem_cons_self ..)]
        · simp [hj]
  ext1 j
  rw [hget _ m j (IdSet.nodup_toList _), get?_map, getD]
  cases hj : m.get? j with
  | some a =>
      rw [if_pos (IdSet.mem_toList.mpr (mem_keys.mpr ⟨a, hj⟩))]
      rfl
  | none =>
      have hnot : j ∉ m.keys.toList := by simp [IdSet.mem_toList, mem_keys, hj]
      rw [if_neg hnot]
      rfl

/-- The value in the last pair with an id. -/
def lastOf (es : List (NodeId k × α)) (i : NodeId k) : Option α :=
  (es.filter (·.1 = i)).getLast?.map (·.2)

section LastPairs

variable {es : List (NodeId k × α)}

theorem filter_id_eq_nil_iff : es.filter (·.1 = i) = [] ↔ i ∉ es.map (·.1) := by
  rw [List.filter_eq_nil_iff]
  constructor
  · intro h hi
    obtain ⟨e, he, rfl⟩ := List.mem_map.mp hi
    exact h e he (decide_eq_true rfl)
  · intro h e he heq
    exact h (List.mem_map.mpr ⟨e, he, of_decide_eq_true heq⟩)

theorem lastOf_concat {e : NodeId k × α} :
    lastOf (es ++ [e]) i = if i = e.1 then some e.2 else lastOf es i := by
  unfold lastOf
  by_cases he : i = e.1
  · subst he
    simp
  · simp [he, Ne.symm he]

theorem lastOf_eq_none_iff : lastOf es i = none ↔ i ∉ es.map (·.1) := by
  rw [lastOf, Option.map_eq_none_iff, List.getLast?_eq_none_iff, filter_id_eq_nil_iff]

theorem lastOf_eq_some_iff : lastOf es i = some a ↔
    ∃ before after, es = before ++ (i, a) :: after ∧ i ∉ after.map (·.1) := by
  constructor
  · intro h
    induction es using List.reverseRecOn with
    | nil => cases h
    | append_singleton es e ih =>
        rw [lastOf_concat] at h
        split at h
        · next he =>
            cases h
            exact ⟨es, [], by rw [he], List.not_mem_nil⟩
        · next he =>
            obtain ⟨before, after, rfl, hafter⟩ := ih h
            refine ⟨before, after ++ [e], by simp, ?_⟩
            rw [List.map_append, List.mem_append, List.map_singleton, List.mem_singleton]
            exact not_or.mpr ⟨hafter, he⟩
  · rintro ⟨before, after, rfl, hafter⟩
    rw [lastOf, List.filter_append, List.filter_cons_of_pos (by simp),
      filter_id_eq_nil_iff.mpr hafter, List.getLast?_concat]
    rfl

/-- **The last pair of an id counts**, in whatever order the pairs come. -/
theorem get?_ofList_eq_lastOf : (ofList es).get? i = lastOf es i := by
  induction es using List.reverseRecOn with
  | nil => rfl
  | append_singleton es e ih =>
      rw [ofList, List.foldl_concat, get?_insert, lastOf_concat, ← ih]
      rfl

/-- What is found in a map made of pairs with distinct ids. -/
theorem get?_ofList (hnodup : (es.map (·.1)).Nodup) :
    (ofList es).get? i = some a ↔ (i, a) ∈ es := by
  rw [get?_ofList_eq_lastOf, lastOf_eq_some_iff]
  constructor
  · rintro ⟨before, after, rfl, _⟩
    exact List.mem_append_right _ List.mem_cons_self
  · intro h
    obtain ⟨before, after, rfl⟩ := List.append_of_mem h
    rw [List.map_append, List.map_cons] at hnodup
    exact ⟨before, after, rfl, (List.nodup_cons.mp (List.nodup_append.mp hnodup).2.1).1⟩

/-- There are as many entries as different ids. -/
theorem size_ofList : (ofList es).size = (es.map (·.1)).toFinset.card := by
  have hsame : (ofList es).keys.toList.toFinset = (es.map (·.1)).toFinset := by
    ext i
    rw [List.mem_toFinset, List.mem_toFinset, IdSet.mem_toList, mem_keys, get?_ofList_eq_lastOf,
      ← Option.ne_none_iff_exists', ne_eq, lastOf_eq_none_iff, not_not]
  rw [← hsame, List.toFinset_card_of_nodup (IdSet.nodup_toList _)]
  exact (List.length_map ..).symm

end LastPairs

end IdMap

end FramePlan
