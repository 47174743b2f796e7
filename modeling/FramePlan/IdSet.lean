import FramePlan.NodeId

/-!
# Finite sets of ids

A set of ids is the strictly ascending list of its members, so equal sets are equal values and a
walk over a set goes from the smallest id to the largest.

* `IdSet.mem_insert`, `IdSet.mem_ofList` give the members of the sets that the library builds.
* `IdSet.ext` — two sets with the same members are the same set.
-/

namespace FramePlan

variable {k : NodeKind}

/-- A finite set of ids. -/
structure IdSet (k : NodeKind) where
  /-- The members, from the smallest to the largest. -/
  toList : List (NodeId k)
  /-- No member comes twice, and none after a larger one. -/
  ascending : toList.Pairwise (·.index < ·.index)
deriving DecidableEq

namespace IdSet

/-- Puts an id into a strictly ascending list, unless it is there already. -/
def insertInto (i : NodeId k) : List (NodeId k) → List (NodeId k)
  | [] => [i]
  | j :: rest =>
    if i.index < j.index then i :: j :: rest
    else if i = j then j :: rest
    else j :: insertInto i rest

theorem mem_insertInto {i j : NodeId k} {is : List (NodeId k)} :
    j ∈ insertInto i is ↔ j = i ∨ j ∈ is := by
  induction is with
  | nil => simp [insertInto]
  | cons a rest ih =>
    unfold insertInto
    split
    · simp
    · split
      · next h => subst h; simp
      · simp only [List.mem_cons, ih]
        exact ⟨fun h => by rcases h with h | h | h <;> simp [h],
          fun h => by rcases h with h | h | h <;> simp [h]⟩

theorem pairwise_insertInto {i : NodeId k} {is : List (NodeId k)}
    (h : is.Pairwise (·.index < ·.index)) : (insertInto i is).Pairwise (·.index < ·.index) := by
  induction is with
  | nil => simp [insertInto]
  | cons a rest ih =>
    obtain ⟨ha, hrest⟩ := List.pairwise_cons.1 h
    unfold insertInto
    split
    · next hlt =>
      refine List.pairwise_cons.2 ⟨fun b hb => ?_, h⟩
      rcases List.mem_cons.1 hb with rfl | hb
      · exact hlt
      · exact Nat.lt_trans hlt (ha b hb)
    · split
      · exact h
      · next hlt hne =>
        refine List.pairwise_cons.2 ⟨fun b hb => ?_, ih hrest⟩
        rcases mem_insertInto.1 hb with rfl | hb
        · have : a.index ≠ b.index := fun he => hne (NodeId.ext he.symm)
          omega
        · exact ha b hb

/-- The set without members. -/
def empty : IdSet k := ⟨[], .nil⟩

instance : EmptyCollection (IdSet k) := ⟨empty⟩

instance : Inhabited (IdSet k) := ⟨empty⟩

instance : Membership (NodeId k) (IdSet k) := ⟨fun s i => i ∈ s.toList⟩

instance (i : NodeId k) (s : IdSet k) : Decidable (i ∈ s) :=
  inferInstanceAs (Decidable (i ∈ s.toList))

/-- The set with one more member. -/
def insert (s : IdSet k) (i : NodeId k) : IdSet k :=
  ⟨insertInto i s.toList, pairwise_insertInto s.ascending⟩

/-- The set of the entries of a list. -/
def ofList (is : List (NodeId k)) : IdSet k := is.foldl insert ∅

/-- The ids of the first `n` nodes. -/
def firstN (k : NodeKind) (n : Nat) : IdSet k := ⟨NodeId.firstN k n, NodeId.pairwise_firstN n⟩

/-- How many members there are. -/
def size (s : IdSet k) : Nat := s.toList.length

/-- Whether there is no member. -/
def isEmpty (s : IdSet k) : Bool := s.toList.isEmpty

theorem mem_toList {i : NodeId k} {s : IdSet k} : i ∈ s.toList ↔ i ∈ s := .rfl

@[simp]
theorem not_mem_empty (i : NodeId k) : i ∉ (∅ : IdSet k) := List.not_mem_nil

@[simp]
theorem mem_insert {i j : NodeId k} {s : IdSet k} : j ∈ s.insert i ↔ j = i ∨ j ∈ s :=
  mem_insertInto

theorem mem_foldl_insert {j : NodeId k} {is : List (NodeId k)} {s : IdSet k} :
    j ∈ is.foldl insert s ↔ j ∈ is ∨ j ∈ s := by
  induction is generalizing s with
  | nil => simp
  | cons i rest ih =>
    rw [List.foldl_cons, ih, mem_insert, List.mem_cons]
    exact ⟨fun h => by rcases h with h | h | h <;> simp [h],
      fun h => by rcases h with (h | h) | h <;> simp [h]⟩

@[simp]
theorem mem_ofList {j : NodeId k} {is : List (NodeId k)} : j ∈ ofList is ↔ j ∈ is := by
  simp [ofList, mem_foldl_insert]

@[simp]
theorem mem_firstN {n : Nat} {i : NodeId k} : i ∈ firstN k n ↔ i.index < n := NodeId.mem_firstN

theorem nodup_toList (s : IdSet k) : s.toList.Nodup := by
  refine List.Pairwise.imp (fun h he => ?_) s.ascending
  subst he
  exact Nat.lt_irrefl _ h

/-- Strictly ascending lists with the same members are the same list. -/
theorem eq_of_mem_iff {is js : List (NodeId k)} (hi : is.Pairwise (·.index < ·.index))
    (hj : js.Pairwise (·.index < ·.index)) (h : ∀ i, i ∈ is ↔ i ∈ js) : is = js := by
  induction is generalizing js with
  | nil =>
    cases js with
    | nil => rfl
    | cons b rest => exact absurd ((h b).2 (List.mem_cons_self ..)) List.not_mem_nil
  | cons a rest ih =>
    cases js with
    | nil => exact absurd ((h a).1 (List.mem_cons_self ..)) List.not_mem_nil
    | cons b rest' =>
      obtain ⟨ha, hrest⟩ := List.pairwise_cons.1 hi
      obtain ⟨hb, hrest'⟩ := List.pairwise_cons.1 hj
      have hab : a = b := by
        rcases List.mem_cons.1 ((h a).1 (List.mem_cons_self ..)) with he | he
        · exact he
        · rcases List.mem_cons.1 ((h b).2 (List.mem_cons_self ..)) with he' | he'
          · exact he'.symm
          · exact absurd (hb a he) (Nat.not_lt_of_lt (ha b he'))
      subst hab
      refine congrArg (a :: ·) (ih hrest hrest' fun i => ?_)
      constructor
      · intro hm
        rcases List.mem_cons.1 ((h i).1 (List.mem_cons_of_mem _ hm)) with he | he
        · exact absurd (ha i hm) (he ▸ Nat.lt_irrefl _)
        · exact he
      · intro hm
        rcases List.mem_cons.1 ((h i).2 (List.mem_cons_of_mem _ hm)) with he | he
        · exact absurd (hb i hm) (he ▸ Nat.lt_irrefl _)
        · exact he

@[ext]
theorem ext {s t : IdSet k} (h : ∀ i, i ∈ s ↔ i ∈ t) : s = t := by
  have := eq_of_mem_iff s.ascending t.ascending h
  cases s; cases t; simp_all

end IdSet

end FramePlan
