import FramePlan.Proofs.Outcome
import FramePlan.Shelves

/-!
# Free lists and shelves are lawful

Whatever is kept under a key, a keeper of values has to treat it as a stack: a release puts a value
on top, and what is taken is on top. Free lists do so, which hold all values in one list, and
shelves do, which have a list for each key and keep those that are empty.

* `Keeper.Lawful` — what each operation does to the stack of each key, and to what is held at all.
* `FreeLists.lawful`, `Shelves.lawful` — both ways to keep values do just that.
* `Shelves.contains_acquire` — lists that are emptied stay where they are.
-/

namespace FramePlan

variable {κ α σ : Type}

/-! ### What keepers have to do -/

namespace Keeper

variable {keeper : Keeper σ κ α} {stack : σ → κ → List α} {s s' : σ} {key : κ} {a : α}

/-- What is kept, under whichever key. -/
def held (keeper : Keeper σ κ α) (s : σ) : List (κ × α) := (keeper.drain s).1

variable [DecidableEq κ]

/-- What the operations of a keeper do to the stack of each key. -/
structure Lawful (keeper : Keeper σ κ α) (stack : σ → κ → List α) : Prop where
  held_empty : keeper.held keeper.empty = []
  stack_empty : ∀ key, stack keeper.empty key = []
  drain : ∀ s, (keeper.drain s).2 = keeper.empty
  held_release : ∀ s key a, (keeper.held (keeper.release s key a)).Perm ((key, a) :: keeper.held s)
  stack_release : ∀ s key a,
    stack (keeper.release s key a) = Function.update (stack s) key (a :: stack s key)
  acquire_of_nil : ∀ {s key}, stack s key = [] → keeper.acquire s key = (none, s)
  acquire_of_cons : ∀ {s key a rest}, stack s key = a :: rest → ∃ s',
    keeper.acquire s key = (some a, s') ∧ (keeper.held s).Perm ((key, a) :: keeper.held s') ∧
      stack s' = Function.update (stack s) key rest
  reuse : ∀ {ε ω : Type} {s s' key a} {create : κ → EStateM ε ω α} {world : ω},
    keeper.acquire s key = (some a, s') →
      keeper.acquireOrCreate key create (s, world) = .ok (.reused a) (s', world)
  create_ok : ∀ {ε ω : Type} {s key a} {create : κ → EStateM ε ω α} {world world' : ω},
    keeper.acquire s key = (none, s) → create key world = .ok a world' →
      keeper.acquireOrCreate key create (s, world) = .ok (.created a) (s, world')
  create_error : ∀ {ε ω : Type} {s key e} {create : κ → EStateM ε ω α} {world world' : ω},
    keeper.acquire s key = (none, s) → create key world = .error e world' →
      keeper.acquireOrCreate key create (s, world) = .error e (s, world')
  held_under : ∀ s key,
    (((keeper.held s).filter fun e => e.1 = key).map (·.2)).Perm (stack s key)
  available : ∀ s key, keeper.available s key = (stack s key).length
  size : ∀ s, keeper.size s = (keeper.held s).length
  isEmpty : ∀ s, keeper.isEmpty s ↔ keeper.size s = 0

end Keeper

/-! ### Free lists -/

namespace FreeLists

variable [DecidableEq κ]

theorem available_eq (lists : FreeLists κ α) (key : κ) :
    lists.available key = (lists.stack key).length := by
  rw [available, stack, List.length_map, List.countP_eq_length_filter]

variable {lists rest : FreeLists κ α} {key : κ} {a : α}

theorem keeper_acquire_eq_some : keeper.acquire lists key = (some a, rest) ↔
    lists.acquire? key = some (a, rest) := by
  unfold keeper
  cases h : lists.acquire? key with
  | none => simp [h]
  | some taken => simp [h, Prod.ext_iff]

theorem keeper_acquire_eq_none : keeper.acquire lists key = (none, rest) ↔
    lists.acquire? key = none ∧ rest = lists := by
  unfold keeper
  cases h : lists.acquire? key with
  | none => simp [h, eq_comm]
  | some taken => simp [h]

/-- **Free lists have a stack for each key.** -/
theorem lawful : Keeper.Lawful (keeper (κ := κ) (α := α)) stack where
  held_empty := rfl
  stack_empty _ := rfl
  drain _ := rfl
  held_release _ _ _ := List.Perm.refl _
  stack_release lists key a := by
    funext other
    rw [Function.update_apply]
    refine (lists.stack_release key other a).trans ?_
    split
    · next h => rw [h]
    · rfl
  acquire_of_nil h := keeper_acquire_eq_none.mpr ⟨acquire?_eq_none_iff.mpr h, rfl⟩
  acquire_of_cons {lists key a rest} h := by
    cases hacquire : lists.acquire? key with
    | none => cases (acquire?_eq_none_iff.mp hacquire).symm.trans h
    | some taken =>
        obtain ⟨b, left⟩ := taken
        obtain ⟨hstack, hother⟩ := stack_of_acquire? hacquire
        cases hstack.symm.trans h
        refine ⟨left, keeper_acquire_eq_some.mpr hacquire, ?_, ?_⟩
        · obtain ⟨before, after, hentries, rfl⟩ := entries_of_acquire? hacquire
          show lists.entries.Perm _
          rw [hentries]
          exact List.perm_middle
        · funext other
          rw [Function.update_apply]
          split
          · next heq => rw [heq]
          · next hne => exact hother other hne
  reuse h := by
    simp only [keeper, FreeLists.acquireOrCreate, keeper_acquire_eq_some.mp h]
    rfl
  create_ok h hcreate := by
    simp only [keeper, FreeLists.acquireOrCreate, (keeper_acquire_eq_none.mp h).1]
    rw [bind_of_ok hcreate]
    rfl
  create_error h hcreate := by
    simp only [keeper, FreeLists.acquireOrCreate, (keeper_acquire_eq_none.mp h).1]
    rw [bind_of_error hcreate]
  held_under _ _ := List.Perm.refl _
  available := available_eq
  size _ := rfl
  isEmpty lists := by
    show lists.entries.isEmpty ↔ lists.entries.length = 0
    rw [List.isEmpty_iff, List.length_eq_zero_iff]

end FreeLists

/-! ### Shelves -/

namespace Shelves

variable [DecidableEq κ] [Hashable κ] {shelves : Shelves κ α} {lists : Std.HashMap κ (List α)}
  {key : κ} {a : α} {list : List α}

/-- The values of the list of a key, the value that was released last on top. -/
def stack (shelves : Shelves κ α) (key : κ) : List α := (shelves.list key).reverse

/-- What is in the lists of the other keys. -/
def elsewhere (lists : Std.HashMap κ (List α)) (key : κ) : List (κ × α) :=
  (lists.toList.filter fun e => ¬ (key == e.1)).flatMap fun e => e.2.map (e.1, ·)

theorem stack_insert : (⟨lists.insert key list⟩ : Shelves κ α).stack =
    Function.update (⟨lists⟩ : Shelves κ α).stack key list.reverse := by
  funext other
  rw [Function.update_apply, stack, Shelves.list, Std.HashMap.getElem?_insert]
  by_cases h : other = key
  · subst h
    simp
  · rw [if_neg h, if_neg (by simpa using Ne.symm h)]
    rfl

theorem held_insert (lists : Std.HashMap κ (List α)) (key : κ) (list : List α) :
    (keeper.held (⟨lists.insert key list⟩ : Shelves κ α)).Perm
      (list.map (key, ·) ++ elsewhere lists key) :=
  Std.HashMap.toList_insert_perm.flatMap_right _

/-- What is held is what is in the list of one key, and what is elsewhere. -/
theorem held_perm (shelves : Shelves κ α) (key : κ) : (keeper.held shelves).Perm
    ((shelves.list key).map (key, ·) ++ elsewhere shelves.lists key) := by
  rw [Shelves.list]
  cases hget : shelves.lists[key]? with
  | none =>
      have hall : (shelves.lists.toList.filter fun e => ¬ (key == e.1)) = shelves.lists.toList := by
        refine List.filter_eq_self.mpr fun e he => ?_
        have hentry := Std.HashMap.mem_toList_iff_getElem?_eq_some.mp he
        refine decide_eq_true fun hkey => ?_
        rw [← eq_of_beq hkey, hget] at hentry
        cases hentry
      rw [elsewhere, hall]
      exact List.Perm.refl _
  | some list =>
      have hsame : shelves.lists.Equiv (shelves.lists.insert key list) := by
        refine .of_forall_getElem?_eq fun other => ?_
        rw [Std.HashMap.getElem?_insert]
        split
        · next hkey => rw [← eq_of_beq hkey, hget]
        · rfl
      exact (hsame.toList_perm.flatMap_right _).trans (held_insert _ _ _)

theorem filter_elsewhere : (elsewhere lists key).filter (fun e => e.1 = key) = [] := by
  refine List.filter_eq_nil_iff.mpr fun e he heq => ?_
  obtain ⟨entry, hentry, hmem⟩ := List.mem_flatMap.mp he
  obtain ⟨_, _, rfl⟩ := List.mem_map.mp hmem
  have hne := of_decide_eq_true (List.mem_filter.mp hentry).2
  exact hne (by simpa using (of_decide_eq_true heq).symm)

omit [Hashable κ] in
theorem filter_map_pair : (list.map (key, ·)).filter (fun e => e.1 = key) = list.map (key, ·) :=
  List.filter_eq_self.mpr fun e he => by
    obtain ⟨_, _, rfl⟩ := List.mem_map.mp he
    exact decide_eq_true rfl

omit [DecidableEq κ] [Hashable κ] in
theorem foldl_length {entries : List (κ × List α)} {n : Nat} :
    entries.foldl (fun n e => n + e.2.length) n =
      n + (entries.flatMap fun e => e.2.map (e.1, ·)).length := by
  induction entries generalizing n with
  | nil => rfl
  | cons e entries ih =>
      rw [List.foldl_cons, ih, List.flatMap_cons, List.length_append, List.length_map,
        Nat.add_assoc]

theorem size_eq (shelves : Shelves κ α) : shelves.size = (keeper.held shelves).length :=
  foldl_length.trans (Nat.zero_add _)

theorem list_of_getElem? (h : shelves.lists[key]? = some list) : shelves.list key = list := by
  rw [Shelves.list, h, Option.getD_some]

theorem acquire_of_nil (h : shelves.list key = []) : shelves.acquire key = (none, shelves) := by
  unfold acquire
  cases hget : shelves.lists[key]? with
  | none => rfl
  | some list =>
      rw [list_of_getElem? hget] at h
      rw [h]
      rfl

theorem acquire_of_concat (h : shelves.list key = list ++ [a]) :
    shelves.acquire key = (some a, ⟨shelves.lists.insert key list⟩) := by
  unfold acquire
  cases hget : shelves.lists[key]? with
  | none =>
      rw [Shelves.list, hget] at h
      simp at h
  | some found =>
      rw [list_of_getElem? hget] at h
      rw [h]
      simp

/-- Whatever is taken from it, a list keeps its place, also when it is emptied. -/
theorem contains_acquire (shelves : Shelves κ α) (key other : κ) :
    (shelves.acquire key).2.lists.contains other = shelves.lists.contains other := by
  unfold acquire
  cases hget : shelves.lists[key]? with
  | none => rfl
  | some list =>
      cases hlast : list.getLast? with
      | none => simp only [hlast]
      | some a =>
          have hkey : shelves.lists.contains key := by
            rw [Std.HashMap.contains_eq_isSome_getElem?, hget]
            rfl
          simp only [hlast, Std.HashMap.contains_insert]
          by_cases h : key = other
          · rw [← h, hkey, Bool.or_true]
          · rw [beq_eq_false_iff_ne.mpr h, Bool.false_or]

/-- **Shelves have a stack for each key.** -/
theorem lawful : Keeper.Lawful (keeper (κ := κ) (α := α)) stack where
  held_empty := by
    show (∅ : Std.HashMap κ (List α)).toList.flatMap _ = []
    rw [Std.HashMap.toList_empty, List.flatMap_nil]
  stack_empty key := by
    show ((∅ : Std.HashMap κ (List α))[key]?.getD []).reverse = []
    rw [Std.HashMap.getElem?_empty]
    rfl
  drain _ := rfl
  held_release shelves key a := by
    have hperm := held_insert shelves.lists key (shelves.list key ++ [a])
    rw [List.map_append, List.append_assoc] at hperm
    exact hperm.trans (List.perm_middle.trans ((held_perm shelves key).symm.cons (key, a)))
  stack_release shelves key a := by
    refine stack_insert.trans ?_
    rw [List.reverse_append]
    rfl
  acquire_of_nil h := acquire_of_nil (List.reverse_eq_nil_iff.mp h)
  acquire_of_cons {shelves key a rest} h := by
    have hlist : shelves.list key = rest.reverse ++ [a] := by
      rw [← List.reverse_cons, ← h, stack, List.reverse_reverse]
    refine ⟨_, acquire_of_concat hlist, ?_, stack_insert.trans ?_⟩
    · have hperm := held_perm shelves key
      rw [hlist, List.map_append, List.append_assoc] at hperm
      exact hperm.trans (List.perm_middle.trans ((held_insert _ _ _).symm.cons (key, a)))
    · rw [List.reverse_reverse]
  reuse {_ _ shelves _ key _ _ _} h := by
    have hacquire : shelves.acquire key = _ := h
    simp only [keeper, acquireOrCreate, hacquire]
  create_ok {_ _ shelves key _ _ _ _} h hcreate := by
    have hacquire : shelves.acquire key = _ := h
    simp only [keeper, acquireOrCreate, hacquire, hcreate]
  create_error {_ _ shelves key _ _ _ _} h hcreate := by
    have hacquire : shelves.acquire key = _ := h
    simp only [keeper, acquireOrCreate, hacquire, hcreate]
  held_under shelves key := by
    have hperm := ((held_perm shelves key).filter fun e => e.1 = key).map (·.2)
    rw [List.filter_append, filter_elsewhere, List.append_nil, filter_map_pair,
      List.map_map] at hperm
    refine hperm.trans ?_
    rw [show (fun e : κ × α => e.2) ∘ (key, ·) = id from rfl, List.map_id]
    exact (List.reverse_perm _).symm
  available shelves key := by
    rw [stack, List.length_reverse, Shelves.list]
    show Shelves.available shelves key = _
    unfold available
    cases shelves.lists[key]? <;> rfl
  size := size_eq
  isEmpty shelves := by
    show shelves.isEmpty ↔ shelves.size = 0
    rw [size_eq, List.length_eq_zero_iff, isEmpty, List.all_eq_true]
    show _ ↔ (shelves.lists.toList.flatMap _) = []
    rw [List.flatMap_eq_nil_iff]
    simp only [List.isEmpty_iff, List.map_eq_nil_iff]

end Shelves

end FramePlan
