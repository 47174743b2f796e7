import FramePlan.IdSet

/-!
# Finite maps from ids

A map from ids is the list of its entries in strictly ascending order of ids, so equal maps are
equal values and a walk over a map goes from the smallest id to the largest.

* `IdMap.get?_insert`, `IdMap.get?_erase`, `IdMap.get?_tabulate`, `IdMap.get?_filterMap` — what
  each way to build a map does to a look-up.
* `IdMap.ext` — two maps that answer every look-up alike are the same map.
-/

namespace FramePlan

variable {k : NodeKind} {α β : Type}

/-- A finite map from ids to values. -/
structure IdMap (k : NodeKind) (α : Type) where
  /-- The entries, from the smallest id to the largest. -/
  entries : List (NodeId k × α)
  /-- Each id has at most one entry, and none after the entry of a larger one. -/
  ascending : entries.Pairwise (·.1.index < ·.1.index)
deriving DecidableEq

namespace IdMap

/-- Puts an entry into a list of entries in ascending order, in place of the entry of that id. -/
def insertInto (i : NodeId k) (a : α) : List (NodeId k × α) → List (NodeId k × α)
  | [] => [(i, a)]
  | (j, b) :: rest =>
    if i.index < j.index then (i, a) :: (j, b) :: rest
    else if i = j then (i, a) :: rest
    else (j, b) :: insertInto i a rest

theorem mem_of_mem_insertInto {i : NodeId k} {a : α} {e : NodeId k × α}
    {es : List (NodeId k × α)} (h : e ∈ insertInto i a es) : e = (i, a) ∨ e ∈ es := by
  induction es with
  | nil => simpa [insertInto] using h
  | cons x rest ih =>
    obtain ⟨j, b⟩ := x
    unfold insertInto at h
    split at h
    · simpa using h
    · split at h
      · rcases List.mem_cons.1 h with h | h <;> simp [h]
      · rcases List.mem_cons.1 h with h | h
        · simp [h]
        · rcases ih h with h | h <;> simp [h]

theorem pairwise_insertInto {i : NodeId k} {a : α} {es : List (NodeId k × α)}
    (h : es.Pairwise (·.1.index < ·.1.index)) :
    (insertInto i a es).Pairwise (·.1.index < ·.1.index) := by
  induction es with
  | nil => simp [insertInto]
  | cons x rest ih =>
    obtain ⟨j, b⟩ := x
    obtain ⟨hj, hrest⟩ := List.pairwise_cons.1 h
    unfold insertInto
    split
    · next hlt =>
      refine List.pairwise_cons.2 ⟨fun e he => ?_, h⟩
      rcases List.mem_cons.1 he with rfl | he
      · exact hlt
      · exact Nat.lt_trans hlt (hj e he)
    · split
      · next heq => subst heq; exact List.pairwise_cons.2 ⟨hj, hrest⟩
      · next hlt hne =>
        refine List.pairwise_cons.2 ⟨fun e he => ?_, ih hrest⟩
        rcases mem_of_mem_insertInto he with rfl | he
        · have : i.index ≠ j.index := fun h => hne (NodeId.ext h)
          show j.index < i.index
          omega
        · exact hj e he

/-- The map without entries. -/
def empty : IdMap k α := ⟨[], .nil⟩

instance : EmptyCollection (IdMap k α) := ⟨empty⟩

instance : Inhabited (IdMap k α) := ⟨empty⟩

/-- The value of an id. -/
def get? (m : IdMap k α) (i : NodeId k) : Option α := m.entries.lookup i

/-- The value of an id, or the given one if it has none. -/
def getD (m : IdMap k α) (i : NodeId k) (a : α) : α := (m.get? i).getD a

/-- Whether an id has a value. -/
def contains (m : IdMap k α) (i : NodeId k) : Bool := (m.get? i).isSome

/-- The map with one value set. -/
def insert (m : IdMap k α) (i : NodeId k) (a : α) : IdMap k α :=
  ⟨insertInto i a m.entries, pairwise_insertInto m.ascending⟩

/-- The map without the entry of an id. -/
def erase (m : IdMap k α) (i : NodeId k) : IdMap k α :=
  ⟨m.entries.filter (·.1 ≠ i), m.ascending.filter _⟩

/-- The map that gives every member of a set its value under a function. -/
def tabulate (s : IdSet k) (f : NodeId k → α) : IdMap k α :=
  ⟨s.toList.map fun i => (i, f i), List.pairwise_map.2 s.ascending⟩

/-- The map of a list of pairs, in which the last pair of an id counts. -/
def ofList (es : List (NodeId k × α)) : IdMap k α := es.foldl (fun m e => m.insert e.1 e.2) ∅

/-- The same ids with new values. -/
def map (f : NodeId k → α → β) (m : IdMap k α) : IdMap k β :=
  ⟨m.entries.map fun e => (e.1, f e.1 e.2), List.pairwise_map.2 m.ascending⟩

/-- The ids whose value has a new value, with that. -/
def filterMap (f : NodeId k → α → Option β) (m : IdMap k α) : IdMap k β where
  entries := m.entries.filterMap fun e => (f e.1 e.2).map fun b => (e.1, b)
  ascending := by
    refine List.Pairwise.filterMap _ (fun e e' h b hb b' hb' => ?_) m.ascending
    obtain ⟨_, _, rfl⟩ := Option.map_eq_some_iff.1 hb
    obtain ⟨_, _, rfl⟩ := Option.map_eq_some_iff.1 hb'
    exact h

/-- The ids that have a value. -/
def keys (m : IdMap k α) : IdSet k := ⟨m.entries.map (·.1), List.pairwise_map.2 m.ascending⟩

/-- How many entries there are. -/
def size (m : IdMap k α) : Nat := m.entries.length

/-! ### Look-ups -/

theorem lookup_cons_pair {i j : NodeId k} {a : α} {es : List (NodeId k × α)} :
    ((i, a) :: es).lookup j = if j = i then some a else es.lookup j := by
  rw [List.lookup_cons]
  by_cases h : j = i
  · simp [h]
  · rw [beq_false_of_ne h, if_neg h]

@[simp]
theorem get?_empty (i : NodeId k) : (∅ : IdMap k α).get? i = none := rfl

theorem lookup_insertInto {i j : NodeId k} {a : α} {es : List (NodeId k × α)}
    (h : es.Pairwise (·.1.index < ·.1.index)) :
    (insertInto i a es).lookup j = if j = i then some a else es.lookup j := by
  induction es with
  | nil => simp only [insertInto, lookup_cons_pair, List.lookup_nil]
  | cons x rest ih =>
    obtain ⟨l, b⟩ := x
    obtain ⟨_, hrest⟩ := List.pairwise_cons.1 h
    unfold insertInto
    split
    · by_cases hj : j = i <;> simp [lookup_cons_pair, hj]
    · split
      · next heq => subst heq; by_cases hj : j = i <;> simp [lookup_cons_pair, hj]
      · next hne =>
        rw [lookup_cons_pair, lookup_cons_pair, ih hrest]
        by_cases hj : j = l
        · have : j ≠ i := fun he => hne (he ▸ hj)
          simp [hj, Ne.symm hne]
        · simp [hj]

theorem get?_insert {m : IdMap k α} {i j : NodeId k} {a : α} :
    (m.insert i a).get? j = if j = i then some a else m.get? j :=
  lookup_insertInto m.ascending

theorem getD_insert {m : IdMap k α} {i j : NodeId k} {a b : α} :
    (m.insert i a).getD j b = if j = i then a else m.getD j b := by
  rw [getD, get?_insert]
  by_cases h : j = i <;> simp [h, getD]

@[simp]
theorem get?_insert_self {m : IdMap k α} {i : NodeId k} {a : α} :
    (m.insert i a).get? i = some a := by
  simp [get?_insert]

theorem get?_insert_of_ne {m : IdMap k α} {i j : NodeId k} {a : α} (h : j ≠ i) :
    (m.insert i a).get? j = m.get? j := by
  simp [get?_insert, h]

theorem lookup_filter_ne {i j : NodeId k} {es : List (NodeId k × α)} :
    (es.filter (·.1 ≠ i)).lookup j = if j = i then none else es.lookup j := by
  induction es with
  | nil => simp
  | cons x rest ih =>
    obtain ⟨l, b⟩ := x
    by_cases hl : l = i
    · rw [List.filter_cons_of_neg (by simp [hl]), ih, lookup_cons_pair]
      by_cases hj : j = i <;> simp [hj, hl]
    · rw [List.filter_cons_of_pos (by simp [hl]), lookup_cons_pair, lookup_cons_pair, ih]
      by_cases hj : j = i
      · have : j ≠ l := fun he => hl (he ▸ hj)
        simp [hj, Ne.symm hl]
      · simp [hj]

theorem get?_erase {m : IdMap k α} {i j : NodeId k} :
    (m.erase i).get? j = if j = i then none else m.get? j :=
  lookup_filter_ne

theorem lookup_map_pair {f : NodeId k → α} {j : NodeId k} {is : List (NodeId k)} :
    (is.map fun i => (i, f i)).lookup j = if j ∈ is then some (f j) else none := by
  induction is with
  | nil => simp
  | cons i rest ih =>
    rw [List.map_cons, lookup_cons_pair, ih]
    by_cases hj : j = i <;> simp [hj]

theorem get?_tabulate {s : IdSet k} {f : NodeId k → α} {j : NodeId k} :
    (tabulate s f).get? j = if j ∈ s then some (f j) else none :=
  lookup_map_pair

theorem lookup_map_value {f : NodeId k → α → β} {j : NodeId k} {es : List (NodeId k × α)} :
    (es.map fun e => (e.1, f e.1 e.2)).lookup j = (es.lookup j).map (f j) := by
  induction es with
  | nil => rfl
  | cons x rest ih =>
    obtain ⟨l, b⟩ := x
    rw [List.map_cons, lookup_cons_pair, lookup_cons_pair, ih]
    by_cases hj : j = l <;> simp [hj]

theorem get?_map {f : NodeId k → α → β} {m : IdMap k α} {j : NodeId k} :
    (m.map f).get? j = (m.get? j).map (f j) :=
  lookup_map_value

theorem lookup_filterMap_value {f : NodeId k → α → Option β} {j : NodeId k}
    {es : List (NodeId k × α)} (h : es.Pairwise (·.1.index < ·.1.index)) :
    (es.filterMap fun e => (f e.1 e.2).map fun b => (e.1, b)).lookup j =
      (es.lookup j).bind (f j) := by
  induction es with
  | nil => rfl
  | cons x rest ih =>
    obtain ⟨l, a⟩ := x
    obtain ⟨hl, hrest⟩ := List.pairwise_cons.1 h
    rw [List.filterMap_cons, lookup_cons_pair]
    by_cases hj : j = l
    · subst hj
      cases hf : f j a with
      | some b => simp [hf]
      | none =>
        have hnone : rest.lookup j = none := by
          refine List.lookup_eq_none_iff.2 fun e he => ?_
          have := hl e he
          exact bne_iff_ne.2 fun hje => Nat.lt_irrefl _ (hje ▸ this)
        simp [hf, ih hrest, hnone]
    · cases hf : f l a with
      | some b => simp [lookup_cons_pair, hj, ih hrest]
      | none => simp [hj, ih hrest]

theorem get?_filterMap {f : NodeId k → α → Option β} {m : IdMap k α} {j : NodeId k} :
    (m.filterMap f).get? j = (m.get? j).bind (f j) :=
  lookup_filterMap_value m.ascending

/-! ### Entries -/

theorem mem_entries {m : IdMap k α} {i : NodeId k} {a : α} :
    (i, a) ∈ m.entries ↔ m.get? i = some a := by
  obtain ⟨es, hes⟩ := m
  show (i, a) ∈ es ↔ es.lookup i = some a
  induction es with
  | nil => simp
  | cons x rest ih =>
    obtain ⟨j, b⟩ := x
    obtain ⟨hj, hrest⟩ := List.pairwise_cons.1 hes
    rw [List.mem_cons, lookup_cons_pair, ih hrest]
    by_cases hij : i = j
    · subst hij
      have : rest.lookup i ≠ some a := fun h =>
        Nat.lt_irrefl _ (hj (i, a) ((ih hrest).2 h))
      simp [this, eq_comm]
    · simp [hij]

theorem mem_keys {m : IdMap k α} {i : NodeId k} : i ∈ m.keys ↔ ∃ a, m.get? i = some a := by
  simp only [← mem_entries]
  show i ∈ m.entries.map (·.1) ↔ _
  simp

theorem contains_iff {m : IdMap k α} {i : NodeId k} :
    m.contains i = true ↔ ∃ a, m.get? i = some a := by
  simp [contains, Option.isSome_iff_exists]

theorem not_contains_iff {m : IdMap k α} {i : NodeId k} :
    ¬ m.contains i ↔ m.get? i = none := by
  rw [contains, Bool.not_eq_true, Option.isSome_eq_false_iff, Option.isNone_iff_eq_none]

@[ext]
theorem ext {m n : IdMap k α} (h : ∀ i, m.get? i = n.get? i) : m = n := by
  obtain ⟨es, hes⟩ := m
  obtain ⟨fs, hfs⟩ := n
  replace h : ∀ i, es.lookup i = fs.lookup i := h
  congr 1
  induction es generalizing fs with
  | nil =>
    cases fs with
    | nil => rfl
    | cons y rest =>
      have hy := h y.1
      rw [lookup_cons_pair, if_pos rfl] at hy
      cases hy
  | cons x rest ih =>
    cases fs with
    | nil =>
      have hx := h x.1
      rw [lookup_cons_pair, if_pos rfl] at hx
      cases hx
    | cons y rest' =>
      obtain ⟨i, a⟩ := x
      obtain ⟨j, b⟩ := y
      obtain ⟨hi, hrest⟩ := List.pairwise_cons.1 hes
      obtain ⟨hj, hrest'⟩ := List.pairwise_cons.1 hfs
      have hmem : (i, a) ∈ (j, b) :: rest' :=
        (mem_entries (m := ⟨_, hfs⟩)).2 ((h i).symm.trans (by simp))
      have hmem' : (j, b) ∈ (i, a) :: rest :=
        (mem_entries (m := ⟨_, hes⟩)).2 ((h j).trans (by simp))
      have hxy : (i, a) = (j, b) := by
        rcases List.mem_cons.1 hmem with he | he
        · exact he
        · rcases List.mem_cons.1 hmem' with he' | he'
          · exact he'.symm
          · exact absurd (hj _ he) (Nat.not_lt_of_lt (hi _ he'))
      cases hxy
      refine congrArg _ (ih hrest rest' hrest' fun l => ?_)
      have hl := h l
      rw [lookup_cons_pair, lookup_cons_pair] at hl
      by_cases hli : l = i
      · subst hli
        have none_of : ∀ {gs : List (NodeId k × α)} (hgs : gs.Pairwise (·.1.index < ·.1.index)),
            (∀ e ∈ gs, l.index < e.1.index) → gs.lookup l = none := by
          intro gs hgs hlt
          refine Option.eq_none_iff_forall_ne_some.2 fun c hc => ?_
          exact Nat.lt_irrefl _ (hlt _ ((mem_entries (m := ⟨gs, hgs⟩)).2 hc))
        rw [none_of hrest hi, none_of hrest' hj]
      · simpa [hli] using hl

end IdMap

end FramePlan
