import FramePlan.Proofs.MoveChain
import Mathlib.Combinatorics.Pigeonhole
import Mathlib.Data.Finset.Card

/-!
# Cycles of moves

In a table of moves that is keyed by either end, a walk back from a source comes to a start or
comes by the same resource again. So the sources that no chain from a start comes by are those on
a cycle, and counting the moves on the chains tells whether there is one.

* `MoveTable.ofMoves_ok` — moves with different sources and different destinations have a table.
* `MoveTable.Paired.covered_iff` — the chains from starts come by all sources but those on cycles.
* `MoveTable.Paired.chains_cases` — either nothing lies on a cycle, or the smallest resource that
  does is found.
-/

namespace FramePlan

namespace MoveTable

variable {table : MoveTable} {r s d x : ResourceId}

/-! ### The table of moves without conflicts -/

/-- **Moves with different sources and different destinations have a table.** -/
theorem ofMoves_ok {moves : List Move} (hsrc : (moves.map (·.src)).Nodup)
    (hdst : (moves.map (·.dst)).Nodup) : ∃ table, ofMoves moves = .ok table := by
  induction moves using List.reverseRecOn with
  | nil => exact ⟨∅, rfl⟩
  | append_singleton moves m ih =>
      rw [List.map_append, List.nodup_append] at hsrc hdst
      obtain ⟨table, htable⟩ := ih hsrc.1 hdst.1
      have hforward : table.forward.get? m.src = none := by
        refine Option.eq_none_iff_forall_ne_some.mpr fun d hd => ?_
        have hmem := (get?_ofMoves htable m.src d).1.mp hd
        exact hsrc.2.2 _ (List.mem_map_of_mem hmem) _ List.mem_cons_self rfl
      have hbackward : table.backward.get? m.dst = none := by
        refine Option.eq_none_iff_forall_ne_some.mpr fun s hs => ?_
        have hmem := (get?_ofMoves htable s m.dst).2.mp hs
        exact hdst.2.2 _ (List.mem_map_of_mem hmem) _ List.mem_cons_self rfl
      refine ⟨table.add m.src m.dst, ?_⟩
      rw [ofMoves, List.foldlM_append, ← ofMoves, htable]
      show addMove table m >>= pure = _
      rw [addMove, hforward, hbackward]
      rfl

/-! ### Cycles -/

/-- The storage of the resource would come back to it. -/
def OnCycle (table : MoveTable) (r : ResourceId) : Prop :=
  Relation.TransGen (fun s d => table.forward.get? s = some d) r r

theorem reach_add (i k : Nat) (r : ResourceId) :
    table.reach (i + k) r = (table.reach i r).bind (table.reach k) := by
  induction i generalizing r with
  | zero => rw [Nat.zero_add, reach, Option.bind_some]
  | succ i ih =>
      rw [Nat.succ_add, reach, reach]
      cases table.forward.get? r with
      | none => rfl
      | some next => exact ih next

theorem transGen_of_reach {n : Nat} (h : table.reach (n + 1) r = some x) :
    Relation.TransGen (fun s d => table.forward.get? s = some d) r x := by
  induction n generalizing x with
  | zero =>
      obtain ⟨y, hy, hyx⟩ := Option.bind_eq_some_iff.mp ((reach_succ 0 r).symm.trans h)
      cases hy
      exact .single hyx
  | succ n ih =>
      obtain ⟨y, hy, hyx⟩ := Option.bind_eq_some_iff.mp ((reach_succ (n + 1) r).symm.trans h)
      exact (ih hy).tail hyx

namespace OnCycle

theorem exists_next (h : table.OnCycle r) : ∃ d, table.forward.get? r = some d := by
  obtain ⟨d, hd, _⟩ := Relation.TransGen.head'_iff.mp h
  exact ⟨d, hd⟩

/-- What follows a resource on a cycle lies on the cycle. -/
theorem next (h : table.OnCycle s) (hd : table.forward.get? s = some d) : table.OnCycle d := by
  obtain ⟨d', hd', hback⟩ := Relation.TransGen.head'_iff.mp h
  cases hd'.symm.trans hd
  exact Relation.TransGen.tail' hback hd

theorem reach {n : Nat} (h : table.OnCycle s) (hreach : table.reach n s = some x) :
    table.OnCycle x := by
  induction n generalizing s with
  | zero =>
      cases hreach
      exact h
  | succ n ih =>
      obtain ⟨d, hd, hrest⟩ := Option.bind_eq_some_iff.mp hreach
      exact ih (h.next hd) hrest

end OnCycle

namespace Paired

/-- What comes before a resource on a cycle lies on the cycle. -/
theorem onCycle_prev (h : table.Paired) (hs : table.forward.get? s = some d)
    (hd : table.OnCycle d) : table.OnCycle s := by
  obtain ⟨s', hreach, hs'⟩ := Relation.TransGen.tail'_iff.mp hd
  cases ((h s' d).mp hs').symm.trans ((h s d).mp hs)
  exact Relation.TransGen.head' hs hreach

theorem onCycle_of_reach (h : table.Paired) {n : Nat} (hreach : table.reach n s = some x)
    (hx : table.OnCycle x) : table.OnCycle s := by
  induction n generalizing s with
  | zero =>
      cases hreach
      exact hx
  | succ n ih =>
      obtain ⟨d, hd, hrest⟩ := Option.bind_eq_some_iff.mp hreach
      exact h.onCycle_prev hd (ih hrest)

theorem not_onCycle_of_isStart (h : table.Paired) (hs : table.IsStart s) : ¬ table.OnCycle s := by
  intro hcycle
  obtain ⟨y, _, hy⟩ := Relation.TransGen.tail'_iff.mp hcycle
  rw [IsStart, (h y s).mp hy] at hs
  cases hs

/-- A walk back from a resource comes to a start, unless it goes on. -/
theorem exists_start_or_reach (h : table.Paired) (n : Nat) (r : ResourceId) :
    (∃ i < n, ∃ s, table.IsStart s ∧ table.reach i s = some r) ∨
      ∃ s, table.reach n s = some r := by
  induction n with
  | zero => exact Or.inr ⟨r, rfl⟩
  | succ n ih =>
      rcases ih with ⟨i, hi, hstart⟩ | ⟨s, hs⟩
      · exact Or.inl ⟨i, Nat.lt_succ_of_lt hi, hstart⟩
      · cases hback : table.backward.get? s with
        | none => exact Or.inl ⟨n, Nat.lt_succ_self n, s, hback, hs⟩
        | some s' =>
            refine Or.inr ⟨s', ?_⟩
            rw [reach, (h s' s).mpr hback]
            exact hs

end Paired

/-- A walk leads through a resource after each number of its steps. -/
theorem reach_split {i n : Nat} (hi : i ≤ n) (h : table.reach n s = some r) :
    ∃ x, table.reach i s = some x ∧ table.reach (n - i) x = some r := by
  obtain ⟨k, rfl⟩ := Nat.exists_eq_add_of_le hi
  rw [reach_add] at h
  obtain ⟨x, hx, hrest⟩ := Option.bind_eq_some_iff.mp h
  refine ⟨x, hx, ?_⟩
  rw [Nat.add_sub_cancel_left]
  exact hrest

/-- Storage is moved on from where a walk begins if it is from where it ends. -/
theorem forward_of_reach {n : Nat} (h : table.reach n s = some r)
    (hr : table.forward.get? r = some d) : ∃ y, table.forward.get? s = some y := by
  cases n with
  | zero =>
      cases h
      exact ⟨d, hr⟩
  | succ n =>
      obtain ⟨y, hy, _⟩ := Option.bind_eq_some_iff.mp h
      exact ⟨y, hy⟩

/-- A walk that comes by a resource twice ends on a cycle. -/
theorem onCycle_of_reach_twice {i j n : Nat} (hij : i < j) (hj : j ≤ n)
    (h : table.reach n s = some r) (heq : table.reach i s = table.reach j s) :
    table.OnCycle r := by
  obtain ⟨x, hx, hrest⟩ := reach_split (Nat.le_trans (Nat.le_of_lt hij) hj) h
  have hagain : table.reach j s = some x := heq.symm.trans hx
  obtain ⟨k, rfl⟩ := Nat.exists_eq_add_of_lt hij
  rw [Nat.add_assoc, reach_add, hx, Option.bind_some] at hagain
  exact OnCycle.reach (transGen_of_reach hagain) hrest

/-- A walk with as many steps as there are moves, from whose end storage is moved on, has come by
some resource twice. -/
theorem onCycle_of_reach_size (hreach : table.reach table.size s = some r)
    (hr : table.forward.get? r = some d) : table.OnCycle r := by
  have hsource : ∀ i ∈ Finset.range (table.size + 1),
      (table.reach i s).getD r ∈ table.forward.keys.toList.toFinset := by
    intro i hi
    obtain ⟨x, hx, hrest⟩ := reach_split (Nat.le_of_lt_succ (Finset.mem_range.mp hi)) hreach
    rw [hx, Option.getD_some, List.mem_toFinset, IdSet.mem_toList, IdMap.mem_keys]
    exact forward_of_reach hrest hr
  have hcard : table.forward.keys.toList.toFinset.card < (Finset.range (table.size + 1)).card := by
    rw [Finset.card_range]
    refine Nat.lt_succ_of_le (Nat.le_trans (List.toFinset_card_le _) (Nat.le_of_eq ?_))
    exact List.length_map _
  obtain ⟨i, hi, j, hj, hne, heq⟩ :=
    Finset.exists_ne_map_eq_of_card_lt_of_maps_to hcard hsource
  rw [Finset.mem_range, Nat.lt_succ_iff] at hi hj
  have hsame : table.reach i s = table.reach j s := by
    obtain ⟨x, hx, _⟩ := reach_split hi hreach
    obtain ⟨y, hy, _⟩ := reach_split hj hreach
    rw [hx, hy, Option.getD_some, Option.getD_some] at heq
    rw [hx, hy, heq]
  rcases Nat.lt_or_gt_of_ne hne with hij | hji
  · exact onCycle_of_reach_twice hij hj hreach hsame
  · exact onCycle_of_reach_twice hji hi hreach hsame.symm

/-! ### What the chains come by -/

theorem getElem?_chain (n : Nat) {i : Nat} (hi : i ≤ n) :
    (r :: table.follow n r)[i]? = table.reach i r := by
  induction n generalizing r i with
  | zero =>
      cases Nat.le_zero.mp hi
      rfl
  | succ n ih =>
      cases i with
      | zero => rfl
      | succ i =>
          rw [List.getElem?_cons_succ, follow, reach]
          cases table.forward.get? r with
          | none => rfl
          | some next => exact ih (Nat.le_of_succ_le_succ hi)

/-- Some chain from a start comes by the resource and goes on. -/
def Covered (table : MoveTable) (r : ResourceId) : Prop :=
  ∃ s ∈ table.starts, r ∈ (table.chainFrom s).dropLast

namespace Paired

/-- **The chains from the starts come by all sources but those on a cycle.** -/
theorem covered_iff (h : table.Paired) (hr : table.forward.get? r = some d) :
    table.Covered r ↔ ¬ table.OnCycle r := by
  constructor
  · rintro ⟨s, hs, hmem⟩ hcycle
    obtain ⟨i, hi⟩ := List.mem_iff_getElem?.mp (List.mem_of_mem_dropLast hmem)
    exact h.not_onCycle_of_isStart (mem_starts.mp hs).2
      (h.onCycle_of_reach (getElem?_follow _ hi) hcycle)
  · intro hnot
    rcases h.exists_start_or_reach table.size r with ⟨i, hi, s, hstart, hreach⟩ | ⟨s, hreach⟩
    · have hhere : (table.chainFrom s)[i]? = some r :=
        (getElem?_chain _ (Nat.le_of_lt hi)).trans hreach
      have hnext : (table.chainFrom s)[i + 1]? = some d := by
        refine (getElem?_chain _ hi).trans ?_
        rw [reach_succ, hreach, Option.bind_some, hr]
      have hlength : i + 1 < (table.chainFrom s).length := (List.getElem?_eq_some_iff.mp hnext).1
      refine ⟨s, mem_starts.mpr ⟨forward_of_reach hreach hr, hstart⟩,
        List.mem_iff_getElem?.mpr ⟨i, ?_⟩⟩
      rw [List.getElem?_dropLast, if_pos (by omega)]
      exact hhere
    · exact absurd (onCycle_of_reach_size hreach hr) hnot

theorem unreached?_eq_none_iff (h : table.Paired) :
    table.unreached? = none ↔ ∀ r, ¬ table.OnCycle r := by
  rw [unreached?, List.find?_eq_none]
  simp only [IdSet.mem_toList, IdMap.mem_keys, List.all_eq_true, Bool.not_eq_true',
    List.contains_eq_mem, decide_eq_false_iff_not]
  constructor
  · intro hnone r hcycle
    obtain ⟨d, hd⟩ := hcycle.exists_next
    refine hnone r ⟨d, hd⟩ fun s hs hmem => ?_
    exact (h.covered_iff hd).mp ⟨s, hs, hmem⟩ hcycle
  · rintro hacyclic r ⟨d, hd⟩ hnot
    obtain ⟨s, hs, hmem⟩ := (h.covered_iff hd).mpr (hacyclic r)
    exact hnot s hs hmem

/-- What is found lies on a cycle, and is the smallest resource that does. -/
theorem unreached?_eq_some (h : table.Paired) (hr : table.unreached? = some r) :
    table.OnCycle r ∧ ∀ x, table.OnCycle x → r.index ≤ x.index := by
  obtain ⟨hr', pre, post, hkeys, hpre⟩ := List.find?_eq_some_iff_append.mp hr
  simp only [List.all_eq_true, Bool.not_eq_true', List.contains_eq_mem,
    decide_eq_false_iff_not] at hr'
  have hmem : r ∈ table.forward.keys.toList := hkeys ▸ by simp
  obtain ⟨d, hd⟩ := IdMap.mem_keys.mp (IdSet.mem_toList.mp hmem)
  refine ⟨?_, fun x hx => ?_⟩
  · by_contra hnot
    obtain ⟨s, hs, hcovered⟩ := (h.covered_iff hd).mpr hnot
    exact hr' s hs hcovered
  · obtain ⟨y, hy⟩ := hx.exists_next
    have hxmem : x ∈ table.forward.keys.toList :=
      IdSet.mem_toList.mpr (IdMap.mem_keys.mpr ⟨y, hy⟩)
    have hascending := table.forward.keys.ascending
    rw [hkeys] at hxmem hascending
    rcases List.mem_append.mp hxmem with hxpre | hxpost
    · have hcovered := hpre x hxpre
      simp only [Bool.not_eq_true', List.all_eq_false, Bool.not_eq_false,
        List.contains_eq_mem, decide_eq_true_eq] at hcovered
      obtain ⟨s, hs, hmem⟩ := hcovered
      exact absurd hx ((h.covered_iff hy).mp ⟨s, hs, hmem⟩)
    · rcases List.mem_cons.mp hxpost with rfl | hxpost
      · exact Nat.le_refl _
      · have hlater := (List.pairwise_append.mp hascending).2.1
        exact Nat.le_of_lt ((List.pairwise_cons.mp hlater).1 x hxpost)

/-- When the chains from starts are made of all moves, nothing lies on a cycle. -/
theorem not_onCycle_of_reached (h : table.Paired) (hreached : table.reached = table.size)
    (r : ResourceId) : ¬ table.OnCycle r := by
  intro hcycle
  obtain ⟨d, hd⟩ := hcycle.exists_next
  have hnodup : (table.starts.flatMap fun r => (table.chainFrom r).dropLast).Nodup := by
    have hpart := nodup_flatMap_part h.nodup_chains fun chain => List.dropLast_sublist chain
    rwa [List.flatMap_map] at hpart
  have hsources : (table.starts.flatMap fun r => (table.chainFrom r).dropLast) ⊆
      table.forward.keys.toList := by
    intro x hx
    obtain ⟨s, hs, hmem⟩ := List.mem_flatMap.mp hx
    obtain ⟨i, hi⟩ := List.mem_iff_getElem?.mp hmem
    rw [List.getElem?_dropLast] at hi
    split at hi
    · next hlt =>
      have hnext : i + 1 < (table.chainFrom s).length := by omega
      have hy := getElem?_follow _ (List.getElem?_eq_getElem hnext)
      rw [reach_succ, getElem?_follow _ hi, Option.bind_some] at hy
      exact IdSet.mem_toList.mpr (IdMap.mem_keys.mpr ⟨_, hy⟩)
    · cases hi
  have hlength : table.forward.keys.toList.length ≤
      (table.starts.flatMap fun r => (table.chainFrom r).dropLast).length :=
    Nat.le_of_eq ((List.length_map _).trans hreached.symm)
  have hperm := (hnodup.subperm hsources).perm_of_length_le hlength
  have hmem := hperm.mem_iff.mpr (IdSet.mem_toList.mpr (IdMap.mem_keys.mpr ⟨d, hd⟩))
  obtain ⟨s, hs, hcovered⟩ := List.mem_flatMap.mp hmem
  exact (h.covered_iff hd).mp ⟨s, hs, hcovered⟩ hcycle

/-- **Either nothing lies on a cycle and the chains are found, or the smallest resource on a cycle
is.** -/
theorem chains_cases (h : table.Paired) :
    (table.chains = .ok (table.starts.map table.chainFrom) ∧ ∀ r, ¬ table.OnCycle r) ∨
      ∃ r, table.chains = .error (.moveCycle r) ∧ table.OnCycle r ∧
        ∀ x, table.OnCycle x → r.index ≤ x.index := by
  rw [chains]
  by_cases hreached : table.reached = table.size
  · rw [if_pos hreached]
    exact Or.inl ⟨rfl, h.not_onCycle_of_reached hreached⟩
  · rw [if_neg hreached]
    cases hfound : table.unreached? with
    | none => exact Or.inl ⟨rfl, h.unreached?_eq_none_iff.mp hfound⟩
    | some r => exact Or.inr ⟨r, rfl, h.unreached?_eq_some hfound⟩

end Paired

end MoveTable

end FramePlan
