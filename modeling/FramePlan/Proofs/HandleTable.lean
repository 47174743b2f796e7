import FramePlan.HandleTable
import FramePlan.Proofs.IdMap
import FramePlan.Proofs.IdSearch
import FramePlan.Proofs.Outcome

/-!
# Tables of handles are maps

A table of handles that begins empty stays in ascending order, without a resource coming twice,
whatever pairs are added to it. So every search of it finds a spot that fits, no call to it stops,
and it has the entries of the map that the same pairs make.

* `HandleTable.insert_ofMap`, `HandleTable.get?_ofMap` — what is done at the spot that is found.
* `HandleTable.Holds` — of each resource the table has the last handle that was added.
* `HandleTable.acts_as_map` — that is so after any pairs, with any lawful search.
-/

namespace FramePlan

/-! ### Entries at a spot -/

namespace IdMap

variable {k : NodeKind} {α : Type} {es : List (NodeId k × α)} {i : NodeId k} {a : α} {n : Nat}

/-- An id that is there gets its new value where it is. -/
theorem insertInto_eq_set (hes : es.Pairwise (·.1.index < ·.1.index))
    (hi : (es.map (·.1))[n]? = some i) : insertInto i a es = es.set n (i, a) := by
  induction es generalizing n with
  | nil => cases hi
  | cons e es ih =>
      obtain ⟨j, b⟩ := e
      obtain ⟨hj, hes⟩ := List.pairwise_cons.mp hes
      cases n with
      | zero =>
          obtain rfl : j = i := Option.some.inj hi
          rw [insertInto, if_neg (Nat.lt_irrefl _), if_pos rfl]
          rfl
      | succ n =>
          have hi : (es.map (·.1))[n]? = some i := hi
          obtain ⟨e, he, rfl⟩ := List.mem_map.mp (List.mem_of_getElem? hi)
          have hlt : j.index < e.1.index := hj e he
          have hne : e.1 ≠ j := fun heq => Nat.lt_irrefl _ (heq ▸ hlt)
          rw [insertInto, if_neg (Nat.lt_asymm hlt), if_neg hne, ih hes hi]
          rfl

/-- A missing id comes where it belongs. -/
theorem insertInto_eq_insertIdx (hi : i ∉ es.map (·.1)) (hn : n ≤ es.length)
    (hsorted : ((es.map (·.1)).insertIdx n i).Pairwise (·.index ≤ ·.index)) :
    insertInto i a es = es.insertIdx n (i, a) := by
  induction es generalizing n with
  | nil =>
      obtain rfl := Nat.le_zero.mp hn
      rfl
  | cons e es ih =>
      obtain ⟨j, b⟩ := e
      obtain ⟨hij, hi⟩ := not_or.mp (mt List.mem_cons.mpr hi)
      have hindex : i.index ≠ j.index := fun heq => hij (NodeId.ext heq)
      cases n with
      | zero =>
          have hle : i.index ≤ j.index := (List.pairwise_cons.mp hsorted).1 j List.mem_cons_self
          rw [insertInto, if_pos (Nat.lt_of_le_of_ne hle hindex)]
          rfl
      | succ n =>
          have hn : n ≤ es.length := Nat.le_of_succ_le_succ hn
          rw [List.map_cons, List.insertIdx_succ_cons] at hsorted
          obtain ⟨hj, hsorted⟩ := List.pairwise_cons.mp hsorted
          have hle : j.index ≤ i.index :=
            hj i ((List.mem_insertIdx (by rwa [List.length_map])).mpr (Or.inl rfl))
          rw [insertInto, if_neg (Nat.not_lt_of_le hle), if_neg hij, ih hi hn hsorted,
            List.insertIdx_succ_cons]

end IdMap

namespace HandleTable

variable {η : Type} {search : IdSearch .resource} {table : HandleTable η}
  {m : IdMap .resource η} {r : ResourceId} {h : η} {n : Nat}

theorem exists_entry (hr : table.ids[n]? = some r) : ∃ a, table.entries[n]? = some (r, a) := by
  rw [ids, List.getElem?_map] at hr
  obtain ⟨⟨_, a⟩, hentry, rfl⟩ := Option.map_eq_some_iff.mp hr
  exact ⟨a, hentry⟩

theorem replaceAt_of_taken (hr : table.ids[n]? = some r) :
    replaceAt n h table = .ok () ⟨table.entries.set n (r, h)⟩ := by
  obtain ⟨a, hentry⟩ := exists_entry hr
  unfold replaceAt
  rw [get_bind]
  simp only [hentry]
  rfl

theorem insertAt_of_le (hn : n ≤ table.entries.length) :
    insertAt n r h table = .ok () ⟨table.entries.insertIdx n (r, h)⟩ := by
  unfold insertAt
  rw [get_bind, if_pos hn]
  rfl

/-! ### Tables with the entries of a map -/

/-- The table with the entries of a map. -/
def ofMap (m : IdMap .resource η) : HandleTable η := ⟨m.entries⟩

theorem ids_ofMap : (ofMap m).ids.Pairwise (·.index ≤ ·.index) :=
  List.pairwise_map.mpr (m.ascending.imp fun hlt => Nat.le_of_lt hlt)

/-- **A handle is added to the table as to the map**, and nothing goes wrong. -/
theorem insert_ofMap (hsearch : search.Lawful) (m : IdMap .resource η) (r : ResourceId) (h : η) :
    insert search r h (ofMap m) = .ok () (ofMap (m.insert r h)) := by
  have hfits := hsearch (ofMap m).ids r ids_ofMap
  unfold insert
  rw [get_bind]
  cases hspot : search (ofMap m).ids r with
  | taken n =>
      rw [hspot] at hfits
      have hinsert : ofMap (m.insert r h) = ⟨m.entries.set n (r, h)⟩ :=
        congrArg mk (IdMap.insertInto_eq_set m.ascending hfits)
      rw [hinsert]
      exact replaceAt_of_taken hfits
  | free n =>
      rw [hspot] at hfits
      obtain ⟨hr, hn, hsorted⟩ := hfits
      have hn : n ≤ m.entries.length := (List.length_map ..).symm ▸ hn
      have hinsert : ofMap (m.insert r h) = ⟨m.entries.insertIdx n (r, h)⟩ :=
        congrArg mk (IdMap.insertInto_eq_insertIdx hr hn hsorted)
      rw [hinsert]
      exact insertAt_of_le hn

/-- **A handle is found in the table as in the map.** -/
theorem get?_ofMap (hsearch : search.Lawful) (m : IdMap .resource η) (r : ResourceId) :
    (ofMap m).get? search r = .ok (m.get? r) := by
  have hfits := hsearch (ofMap m).ids r ids_ofMap
  unfold get?
  cases hspot : search (ofMap m).ids r with
  | taken n =>
      rw [hspot] at hfits
      obtain ⟨a, hentry⟩ := exists_entry hfits
      have hget : m.get? r = some a := IdMap.mem_entries.mp (List.mem_of_getElem? hentry)
      simp only [hentry, hget]
  | free n =>
      rw [hspot] at hfits
      have hget : m.get? r = none := Option.eq_none_iff_forall_ne_some.mpr fun a ha =>
        hfits.1 (List.mem_map.mpr ⟨(r, a), IdMap.mem_entries.mpr ha, rfl⟩)
      simp only [hget]

theorem insertAll_ofMap (hsearch : search.Lawful) (m : IdMap .resource η)
    (pairs : List (ResourceId × η)) :
    insertAll search pairs (ofMap m) =
      .ok () (ofMap (pairs.foldl (fun m e => m.insert e.1 e.2) m)) :=
  forM_of_round ofMap (fun m (e : ResourceId × η) => m.insert e.1 e.2) fun e _ m =>
    insert_ofMap hsearch m e.1 e.2

theorem ofList_eq (hsearch : search.Lawful) (pairs : List (ResourceId × η)) :
    ofList search pairs = .ok (ofMap (.ofList pairs)) := by
  have hall := insertAll_ofMap hsearch ∅ pairs
  unfold ofList
  rw [show (∅ : HandleTable η) = ofMap ∅ from rfl, hall]
  rfl

/-! ### What a table holds -/

/-- Of the pairs that were added to a table, it has the last one of each resource. -/
structure Holds (search : IdSearch .resource) (table : HandleTable η)
    (pairs : List (ResourceId × η)) : Prop where
  ascending : table.entries.Pairwise (·.1.index < ·.1.index)
  get? : ∀ r, table.get? search r = .ok (IdMap.lastOf pairs r)
  /-- The last pairs are listed, in ascending order, and nothing else. -/
  listed : table.toList.Pairwise (·.1.index < ·.1.index)
  mem_toList : ∀ r h, (r, h) ∈ table.toList ↔
    ∃ before after, pairs = before ++ (r, h) :: after ∧ r ∉ after.map (·.1)
  /-- The entries are as many as the different resources. -/
  size : table.size = (pairs.map (·.1)).toFinset.card
  isEmpty : table.isEmpty ↔ pairs = []

theorem holds_ofMap (hsearch : search.Lawful) (pairs : List (ResourceId × η)) :
    (ofMap (.ofList pairs)).Holds search pairs where
  ascending := (IdMap.ofList pairs).ascending
  get? r := by rw [get?_ofMap hsearch, IdMap.get?_ofList_eq_lastOf]
  listed := (IdMap.ofList pairs).ascending
  mem_toList r h := by
    rw [← IdMap.lastOf_eq_some_iff, ← IdMap.get?_ofList_eq_lastOf]
    exact IdMap.mem_entries
  size := IdMap.size_ofList
  isEmpty := by
    show (IdMap.ofList pairs).entries.isEmpty ↔ pairs = []
    rw [List.isEmpty_iff_length_eq_zero]
    show (IdMap.ofList pairs).size = 0 ↔ pairs = []
    rw [IdMap.size_ofList, Finset.card_eq_zero, List.toFinset_eq_empty_iff, List.map_eq_nil_iff]

/-- **A table has the last handle of each resource**, after pairs that it was made of and any that
were added later, and it is the map of all of them. -/
theorem acts_as_map (hsearch : search.Lawful) (pairs later : List (ResourceId × η)) :
    ∃ made table, ofList search pairs = .ok made ∧ insertAll search later made = .ok () table ∧
      table.Holds search (pairs ++ later) ∧
        table = ofMap (later.foldl (fun m e => m.insert e.1 e.2) (.ofList pairs)) := by
  refine ⟨_, _, ofList_eq hsearch pairs, insertAll_ofMap hsearch _ later, ?_, rfl⟩
  have hall := holds_ofMap hsearch (pairs ++ later)
  rw [IdMap.ofList, List.foldl_append] at hall
  exact hall

/-- Handles of three resources in no order. -/
def shuffled : List (ResourceId × Nat) := [(⟨4⟩, 40), (⟨1⟩, 10), (⟨2⟩, 20)]

/-- One handle that comes before all others, one between them, one in place of another, and one
after all others. -/
def additions : List (ResourceId × Nat) := [(⟨0⟩, 0), (⟨3⟩, 30), (⟨2⟩, 21), (⟨7⟩, 70)]

/-- Halving is lawful, and finds the spots of the handles that are added to a table. -/
theorem acts_as_map_shuffled : (IdSearch.halving : IdSearch .resource).Lawful ∧
    ∃ made table, ofList IdSearch.halving shuffled = .ok made ∧
      insertAll IdSearch.halving additions made = .ok () table ∧
        table.Holds IdSearch.halving (shuffled ++ additions) ∧
          table = ofMap (additions.foldl (fun m e => m.insert e.1 e.2) (.ofList shuffled)) ∧
            made.toList = [(⟨1⟩, 10), (⟨2⟩, 20), (⟨4⟩, 40)] ∧
              table.toList = [(⟨0⟩, 0), (⟨1⟩, 10), (⟨2⟩, 21), (⟨3⟩, 30), (⟨4⟩, 40), (⟨7⟩, 70)] := by
  refine ⟨IdSearch.halving_lawful, ?_⟩
  obtain ⟨made, table, hmade, htable, hholds, hmap⟩ :=
    acts_as_map IdSearch.halving_lawful shuffled additions
  cases (ofList_eq IdSearch.halving_lawful shuffled).symm.trans hmade
  subst hmap
  exact ⟨_, _, hmade, htable, hholds, rfl, by decide, by decide⟩

end HandleTable

end FramePlan
