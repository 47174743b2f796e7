import FramePlan.IdSearch
import Mathlib.Data.List.Basic

/-!
# Searches in ascending lists

In a list of ids in ascending order, a search has to tell the ids that are there from those that are
missing, and to say for the latter where they belong. If an id comes more than once, it may find it
wherever it likes. Halving the list does all of that.

* `IdSearch.Lawful` — what is expected of a search, and all that is.
* `IdSearch.halving_lawful` — halving is such a search.
-/

namespace FramePlan

variable {k : NodeKind} {ids : List (NodeId k)} {i j : NodeId k} {n base size : Nat}

/-- What the spot of an id says: the id is there, or it is missing and the list stays in order if
it is put there. -/
def Spot.Fits (ids : List (NodeId k)) (i : NodeId k) : Spot → Prop
  | .taken n => ids[n]? = some i
  | .free n => i ∉ ids ∧ n ≤ ids.length ∧ (ids.insertIdx n i).Pairwise (·.index ≤ ·.index)

namespace IdSearch

/-- In any list of ids in ascending order, the search finds a spot that fits. -/
def Lawful (search : IdSearch k) : Prop :=
  ∀ (ids : List (NodeId k)) (i : NodeId k), ids.Pairwise (·.index ≤ ·.index) →
    (search ids i).Fits ids i

/-! ### Ascending lists -/

theorem le_of_getElem? {m : Nat} (hids : ids.Pairwise (·.index ≤ ·.index)) (hmn : m ≤ n)
    (hi : ids[m]? = some i) (hj : ids[n]? = some j) : i.index ≤ j.index := by
  obtain ⟨hm, rfl⟩ := List.getElem?_eq_some_iff.mp hi
  obtain ⟨hn, rfl⟩ := List.getElem?_eq_some_iff.mp hj
  rcases Nat.lt_or_eq_of_le hmn with hlt | rfl
  · exact List.pairwise_iff_getElem.mp hids m n hm hn hlt
  · exact Nat.le_refl _

/-- Where smaller ids end and larger ones begin, an id belongs. -/
theorem pairwise_insertIdx (hids : ids.Pairwise (·.index ≤ ·.index)) (hn : n ≤ ids.length)
    (hbefore : ∀ j ∈ ids.take n, j.index ≤ i.index)
    (hafter : ∀ j ∈ ids.drop n, i.index ≤ j.index) :
    (ids.insertIdx n i).Pairwise (·.index ≤ ·.index) := by
  induction ids generalizing n with
  | nil =>
      obtain rfl := Nat.le_zero.mp hn
      exact List.pairwise_singleton ..
  | cons j ids ih =>
      obtain ⟨hj, hids'⟩ := List.pairwise_cons.mp hids
      cases n with
      | zero => exact List.pairwise_cons.mpr ⟨hafter, hids⟩
      | succ n =>
          have hn' : n ≤ ids.length := Nat.le_of_succ_le_succ hn
          rw [List.insertIdx_succ_cons]
          refine List.pairwise_cons.mpr ⟨fun l hl => ?_, ih hids' hn'
            (fun l hl => hbefore l (List.mem_cons_of_mem j hl)) hafter⟩
          rcases (List.mem_insertIdx hn').mp hl with rfl | hl
          · exact hbefore j List.mem_cons_self
          · exact hj l hl

/-! ### Halving -/

/-- What is known of a range that an id is searched for in. -/
structure Narrowed (ids : List (NodeId k)) (i : NodeId k) (base size : Nat) : Prop where
  size_pos : 0 < size
  within : base + size ≤ ids.length
  /-- The range begins with an id that is not larger, unless nothing comes before it. -/
  first : base = 0 ∨ ∀ j, ids[base]? = some j → j.index ≤ i.index
  /-- Larger ids come after it. -/
  after : ∀ n j, base + size ≤ n → ids[n]? = some j → i.index < j.index

/-- **Halving narrows a range down to one id**, and keeps what is known of it. -/
theorem Narrowed.narrow (hids : ids.Pairwise (·.index ≤ ·.index))
    (h : Narrowed ids i base size) : Narrowed ids i (narrow ids i base size) 1 := by
  obtain ⟨hpos, hwithin, hfirst, hafter⟩ := h
  fun_induction IdSearch.narrow ids i base size with
  | case1 base size hsize half hlarger ih =>
      obtain ⟨j, hj, hij⟩ := (Option.any_eq_true ..).mp hlarger
      -- The range that is kept reaches up to the larger id at least.
      refine ih (by omega) (by omega) hfirst fun n l hn hl => ?_
      exact Nat.lt_of_lt_of_le (of_decide_eq_true hij) (le_of_getElem? hids (by omega) hj hl)
  | case2 base size hsize half hsmaller ih =>
      refine ih (by omega) (by omega) (Or.inr fun j hj => ?_) fun n l hn hl =>
        hafter n l (by omega) hl
      rw [hj] at hsmaller
      simpa using hsmaller
  | case3 base size hsize =>
      obtain rfl : size = 1 := by omega
      exact ⟨hpos, hwithin, hfirst, hafter⟩

/-- A spot between smaller and larger ids fits. -/
theorem fits_of_split (hids : ids.Pairwise (·.index ≤ ·.index)) (hn : n ≤ ids.length)
    (hbefore : ∀ m j, m < n → ids[m]? = some j → j.index < i.index)
    (hafter : ∀ m j, n ≤ m → ids[m]? = some j → i.index < j.index) :
    (Spot.free n).Fits ids i := by
  refine ⟨fun hi => ?_, hn, pairwise_insertIdx hids hn (fun j hj => ?_) fun j hj => ?_⟩
  · obtain ⟨m, hm⟩ := List.mem_iff_getElem?.mp hi
    rcases Nat.lt_or_ge m n with hlt | hge
    · exact Nat.lt_irrefl _ (hbefore m i hlt hm)
    · exact Nat.lt_irrefl _ (hafter m i hge hm)
  · obtain ⟨m, hm⟩ := List.mem_iff_getElem?.mp hj
    rw [List.getElem?_take] at hm
    split at hm
    · next hlt => exact Nat.le_of_lt (hbefore m j hlt hm)
    · cases hm
  · obtain ⟨m, hm⟩ := List.mem_iff_getElem?.mp hj
    rw [List.getElem?_drop] at hm
    exact Nat.le_of_lt (hafter _ j (Nat.le_add_right n m) hm)

/-- Next to the one id that is left, there is a spot that fits. -/
theorem Narrowed.fits (hids : ids.Pairwise (·.index ≤ ·.index)) (h : Narrowed ids i base 1)
    (hj : ids[base]? = some j) : (Spot.ofCompare base (compare j i)).Fits ids i := by
  show (Spot.ofCompare base (compare j.index i.index)).Fits ids i
  cases hcompare : compare j.index i.index with
  | lt =>
      have hji := Nat.compare_eq_lt.mp hcompare
      refine fits_of_split hids h.within (fun m l hm hl => ?_) h.after
      exact Nat.lt_of_le_of_lt (le_of_getElem? hids (Nat.le_of_lt_succ hm) hl hj) hji
  | eq =>
      obtain rfl : j = i := NodeId.ext (Nat.compare_eq_eq.mp hcompare)
      exact hj
  | gt =>
      have hij := Nat.compare_eq_gt.mp hcompare
      -- Nothing comes before the range, as it would begin with an id that is not larger.
      obtain rfl : base = 0 := h.first.resolve_right fun hfirst =>
        Nat.not_lt_of_le (hfirst j hj) hij
      refine fits_of_split hids (Nat.zero_le _) (fun m l hm => absurd hm (Nat.not_lt_zero m))
        fun m l hm hl => ?_
      exact Nat.lt_of_lt_of_le hij (le_of_getElem? hids hm hj hl)

/-- **Halving finds ids, and the spots of missing ones.** -/
theorem halving_lawful : (halving : IdSearch k).Lawful := by
  intro ids i hids
  rcases Nat.eq_zero_or_pos ids.length with hempty | hpos
  · obtain rfl := List.eq_nil_of_length_eq_zero hempty
    have hbase : IdSearch.narrow ([] : List (NodeId k)) i 0 0 = 0 := by
      rw [IdSearch.narrow, if_neg (by decide)]
    show (Spot.free (IdSearch.narrow [] i 0 0)).Fits [] i
    rw [hbase]
    exact fits_of_split hids (Nat.zero_le _) (fun m j hm => absurd hm (Nat.not_lt_zero m)) nofun
  · have hwhole : Narrowed ids i 0 ids.length := by
      refine ⟨hpos, by omega, Or.inl rfl, fun n j hn hj => ?_⟩
      rw [List.getElem?_eq_none (by omega)] at hj
      cases hj
    have hone := hwhole.narrow hids
    have hj := List.getElem?_eq_getElem (Nat.lt_of_succ_le hone.within)
    unfold halving
    simp only [hj]
    exact hone.fits hids hj

example : halving [⟨1⟩, ⟨2⟩, ⟨4⟩] (⟨3⟩ : ResourceId) = .free 2 := by decide +kernel

end IdSearch

end FramePlan
