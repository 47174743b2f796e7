import FramePlan.MoveChain
import FramePlan.Proofs.Outcome
import Mathlib.Data.List.Nodup
import Mathlib.Data.List.Pairwise

/-!
# Chains of moves do not meet

In a table of moves that is keyed by either end, a resource is reached from at most one other, so
two chains from starts have nothing in common and no chain comes by a resource twice. What remains
of the chains when inner resources are left out is a table keyed by either end again.

* `MoveTable.paired_of_ofMoves` — destinations are found under their sources and the other way
  round.
* `MoveTable.nodup_chains` — no resource lies twice on the chains.
* `MoveTable.Collapsed` and `MoveTable.collapsed_of_chains` — the moves that remain are paired, and
  a resource between two of them matters.
-/

namespace FramePlan

namespace MoveTable

/-- The two ways to look a move up agree. -/
def Paired (table : MoveTable) : Prop :=
  ∀ s d, table.forward.get? s = some d ↔ table.backward.get? d = some s

variable {table : MoveTable} {r s d : ResourceId}

/-! ### The table of a list of moves -/

/-- What the table of a list of moves holds, under either key. -/
theorem get?_ofMoves {moves : List Move} (h : ofMoves moves = .ok table) :
    ∀ s d, (table.forward.get? s = some d ↔ ⟨d, s⟩ ∈ moves) ∧
      (table.backward.get? d = some s ↔ ⟨d, s⟩ ∈ moves) := by
  refine foldlM_ok (I := fun pre (t : MoveTable) => ∀ s d,
    (t.forward.get? s = some d ↔ ⟨d, s⟩ ∈ pre) ∧ (t.backward.get? d = some s ↔ ⟨d, s⟩ ∈ pre))
    (fun pre m post t u _ hpre hstep => ?_) (fun s d => ?_) h
  · intro s d
    unfold addMove at hstep
    split at hstep
    · cases hstep
    · cases hstep
    next hforward hbackward =>
    cases hstep
    obtain ⟨hf, hb⟩ := hpre s d
    constructor
    · simp only [add, IdMap.get?_insert, List.mem_append, List.mem_singleton, ← hf]
      by_cases hs : s = m.src
      · subst hs
        simp only [if_pos, Option.some.injEq, hforward, reduceCtorEq, false_or]
        constructor
        · rintro rfl
          rfl
        · intro heq
          exact (congrArg Move.dst heq).symm
      · simp only [if_neg hs]
        exact ⟨Or.inl, fun h => h.resolve_right fun heq => hs (congrArg Move.src heq)⟩
    · simp only [add, IdMap.get?_insert, List.mem_append, List.mem_singleton, ← hb]
      by_cases hd : d = m.dst
      · subst hd
        simp only [if_pos, Option.some.injEq, hbackward, reduceCtorEq, false_or]
        constructor
        · rintro rfl
          rfl
        · intro heq
          exact (congrArg Move.src heq).symm
      · simp only [if_neg hd]
        exact ⟨Or.inl, fun h => h.resolve_right fun heq => hd (congrArg Move.dst heq)⟩
  · simp only [List.not_mem_nil, iff_false]
    constructor
    · intro h
      cases h
    · intro h
      cases h

theorem paired_of_ofMoves {moves : List Move} (h : ofMoves moves = .ok table) : table.Paired :=
  fun s d => (get?_ofMoves h s d).1.trans (get?_ofMoves h s d).2.symm

/-! ### Following a chain -/

/-- The resource that storage comes to from `r` in exactly `n` moves. -/
def reach (table : MoveTable) : Nat → ResourceId → Option ResourceId
  | 0, r => some r
  | n + 1, r => (table.forward.get? r).bind (table.reach n)

theorem reach_succ (n : Nat) (r : ResourceId) :
    table.reach (n + 1) r = (table.reach n r).bind table.forward.get? := by
  induction n generalizing r with
  | zero =>
      cases h : table.forward.get? r <;> simp [reach, h]
  | succ n ih =>
      rw [reach]
      cases h : table.forward.get? r with
      | none => simp [reach, h]
      | some next =>
          rw [Option.bind_some, ih next, reach, h, Option.bind_some]

theorem getElem?_follow (n : Nat) {r x : ResourceId} {i : Nat}
    (h : (r :: table.follow n r)[i]? = some x) : table.reach i r = some x := by
  induction n generalizing r i with
  | zero =>
      cases i with
      | zero => simpa [reach] using h
      | succ i => simp [follow] at h
  | succ n ih =>
      cases i with
      | zero => simpa [reach] using h
      | succ i =>
          rw [List.getElem?_cons_succ, follow] at h
          cases hnext : table.forward.get? r with
          | none => simp [hnext] at h
          | some next =>
              rw [hnext] at h
              simp only [reach, hnext, Option.bind_some]
              exact ih h

/-- Two walks that meet came from the same place, as far as the shorter one goes back. -/
theorem Paired.reach_meets (h : table.Paired) (i k : Nat) {r r' x : ResourceId}
    (hr : table.reach i r = some x) (hr' : table.reach (i + k) r' = some x) :
    table.reach k r' = some r := by
  induction i generalizing x with
  | zero =>
      cases hr
      simpa using hr'
  | succ i ih =>
      rw [reach_succ] at hr
      rw [Nat.succ_add, reach_succ] at hr'
      obtain ⟨y, hy, hyx⟩ := Option.bind_eq_some_iff.mp hr
      obtain ⟨y', hy', hyx'⟩ := Option.bind_eq_some_iff.mp hr'
      have hback := (h y x).mp hyx
      rw [(h y' x).mp hyx'] at hback
      cases hback
      exact ih hy hy'

/-- Nothing is moved into the resource. -/
def IsStart (table : MoveTable) (r : ResourceId) : Prop := table.backward.get? r = none

theorem Paired.starts_meet (h : table.Paired) {i j : Nat} {r r' x : ResourceId}
    (hi : table.reach i r = some x) (hj : table.reach j r' = some x) (hr : table.IsStart r)
    (hr' : table.IsStart r') : i = j ∧ r = r' := by
  have meet : ∀ {i j : Nat} {r r' : ResourceId}, i ≤ j → table.reach i r = some x →
      table.reach j r' = some x → table.IsStart r → i = j ∧ r = r' := by
    intro i j r r' hle hi hj hr
    obtain ⟨k, rfl⟩ := Nat.exists_eq_add_of_le hle
    have hk := h.reach_meets i k hi hj
    cases k with
    | zero =>
        cases hk
        exact ⟨rfl, rfl⟩
    | succ k =>
        rw [reach_succ] at hk
        obtain ⟨y, _, hyr⟩ := Option.bind_eq_some_iff.mp hk
        rw [IsStart, (h y r).mp hyr] at hr
        cases hr
  rcases Nat.le_total i j with hle | hle
  · exact meet hle hi hj hr
  · obtain ⟨hij, hrr⟩ := meet hle hj hi hr'
    exact ⟨hij.symm, hrr.symm⟩

theorem mem_starts : r ∈ table.starts ↔
    (∃ d, table.forward.get? r = some d) ∧ table.IsStart r := by
  unfold starts IsStart
  rw [List.mem_filter, IdSet.mem_toList, IdMap.mem_keys]
  simp [IdMap.contains]

/-- No resource lies twice on the chains from the starts. -/
theorem Paired.nodup_chains (h : table.Paired) :
    ((table.starts.map table.chainFrom).flatten).Nodup := by
  rw [List.nodup_flatten]
  constructor
  · intro chain hchain
    obtain ⟨r, hr, rfl⟩ := List.mem_map.mp hchain
    rw [List.nodup_iff_getElem?_ne_getElem?]
    intro i j hij hj heq
    have hx := getElem?_follow _ (List.getElem?_eq_getElem hj)
    have hx' := getElem?_follow _ (heq.trans (List.getElem?_eq_getElem hj))
    have := (h.starts_meet hx' hx (mem_starts.mp hr).2 (mem_starts.mp hr).2).1
    omega
  · have hnodup : table.starts.Nodup := table.forward.keys.nodup_toList.filter _
    rw [List.pairwise_map]
    refine List.Pairwise.imp_of_mem ?_ hnodup
    intro r r' hr hr' hne x hx hx'
    obtain ⟨i, hi⟩ := List.mem_iff_getElem?.mp hx
    obtain ⟨j, hj⟩ := List.mem_iff_getElem?.mp hx'
    exact hne (h.starts_meet (getElem?_follow _ hi) (getElem?_follow _ hj) (mem_starts.mp hr).2
      (mem_starts.mp hr').2).2

/-- A resource on a chain is an end of some move. -/
theorem mem_chainFrom (hr : r ∈ table.starts) {x : ResourceId} (hx : x ∈ table.chainFrom r) :
    (∃ d, table.forward.get? x = some d) ∨ ∃ s, table.forward.get? s = some x := by
  obtain ⟨i, hi⟩ := List.mem_iff_getElem?.mp hx
  have hreach := getElem?_follow _ hi
  cases i with
  | zero =>
      cases hreach
      exact Or.inl (mem_starts.mp hr).1
  | succ i =>
      rw [reach_succ] at hreach
      obtain ⟨y, _, hyx⟩ := Option.bind_eq_some_iff.mp hreach
      exact Or.inr ⟨y, hyx⟩

end MoveTable

/-! ### Collapsed chains -/

namespace MoveChain

theorem moves_cons_cons (a b : ResourceId) (rest : List ResourceId) :
    moves (a :: b :: rest) = (a, b) :: moves (b :: rest) := rfl

theorem map_fst_moves : ∀ chain, (moves chain).map (·.1) = chain.dropLast
  | [] => rfl
  | [_] => rfl
  | a :: b :: rest => by
      rw [moves_cons_cons, List.map_cons, map_fst_moves (b :: rest)]
      rfl

theorem map_snd_moves : ∀ chain, (moves chain).map (·.2) = chain.tail
  | [] => rfl
  | [_] => rfl
  | a :: b :: rest => by
      rw [moves_cons_cons, List.map_cons, map_snd_moves (b :: rest)]
      rfl

/-- A move of a chain begins before its last resource and ends behind its first. -/
theorem ends_of_mem_moves {chain : List ResourceId} {s d : ResourceId}
    (h : (s, d) ∈ moves chain) : s ∈ chain.dropLast ∧ d ∈ chain.tail := by
  rw [← map_fst_moves, ← map_snd_moves]
  exact ⟨List.mem_map.mpr ⟨_, h, rfl⟩, List.mem_map.mpr ⟨_, h, rfl⟩⟩

variable {matters : ResourceId → Bool}

theorem keepInner_sublist : ∀ chain, (keepInner matters chain).Sublist chain
  | [] => List.Sublist.refl _
  | [_] => List.Sublist.refl _
  | r :: next :: rest => by
      have ih := keepInner_sublist (next :: rest)
      unfold keepInner
      split
      · exact ih.cons_cons r
      · exact ih.cons r

theorem collapse_sublist (chain : List ResourceId) : (collapse matters chain).Sublist chain := by
  cases chain with
  | nil => exact List.Sublist.refl _
  | cons start rest => exact (keepInner_sublist rest).cons_cons start

theorem keepInner_ne_nil : ∀ {chain}, chain ≠ [] → keepInner matters chain ≠ []
  | [], h => absurd rfl h
  | [_], _ => by simp [keepInner]
  | r :: next :: rest, _ => by
      unfold keepInner
      split
      · simp
      · exact keepInner_ne_nil (by simp)

theorem matters_of_mem_keepInner {x : ResourceId} :
    ∀ {chain}, x ∈ (keepInner matters chain).dropLast → matters x
  | [], h => by simp [keepInner] at h
  | [_], h => by simp [keepInner] at h
  | r :: next :: rest, h => by
      unfold keepInner at h
      split at h
      · next hr =>
        rw [List.dropLast_cons_of_ne_nil (keepInner_ne_nil (by simp))] at h
        rcases List.mem_cons.mp h with rfl | h
        · exact hr
        · exact matters_of_mem_keepInner h
      · exact matters_of_mem_keepInner h

/-- A resource of a collapsed chain that is neither its first nor its last matters. -/
theorem matters_of_mem_collapse {chain : List ResourceId} {x : ResourceId} (hnodup : chain.Nodup)
    (hinit : x ∈ (collapse matters chain).dropLast) (htail : x ∈ (collapse matters chain).tail) :
    matters x := by
  cases chain with
  | nil => simp [collapse] at htail
  | cons start rest =>
      have hkept : (collapse matters (start :: rest)).Nodup :=
        (collapse_sublist (start :: rest)).nodup hnodup
      rw [collapse, List.tail_cons] at htail
      rw [collapse, List.dropLast_cons_of_ne_nil (List.ne_nil_of_mem htail)] at hinit
      rcases List.mem_cons.mp hinit with rfl | hinit
      · exact absurd htail (List.nodup_cons.mp hkept).1
      · exact matters_of_mem_keepInner hinit

end MoveChain

namespace MoveTable

theorem forward_foldl_add {ps : List (ResourceId × ResourceId)} (h : (ps.map (·.1)).Nodup)
    {table : MoveTable} {s d : ResourceId} :
    (ps.foldl (fun t m => t.add m.1 m.2) table).forward.get? s = some d ↔
      (s, d) ∈ ps ∨ s ∉ ps.map (·.1) ∧ table.forward.get? s = some d := by
  induction ps generalizing table with
  | nil => simp
  | cons p ps ih =>
      obtain ⟨a, b⟩ := p
      obtain ⟨ha, hps⟩ := List.nodup_cons.mp h
      rw [List.foldl_cons, ih hps]
      simp only [add, IdMap.get?_insert, List.map_cons, List.mem_cons, Prod.mk.injEq]
      by_cases hs : s = a
      · subst hs
        have hnot : (s, d) ∉ ps := fun hmem => ha (List.mem_map.mpr ⟨(s, d), hmem, rfl⟩)
        simp only at ha
        simp [hnot, ha, eq_comm]
      · simp [hs]

theorem backward_foldl_add {ps : List (ResourceId × ResourceId)} (h : (ps.map (·.2)).Nodup)
    {table : MoveTable} {s d : ResourceId} :
    (ps.foldl (fun t m => t.add m.1 m.2) table).backward.get? d = some s ↔
      (s, d) ∈ ps ∨ d ∉ ps.map (·.2) ∧ table.backward.get? d = some s := by
  induction ps generalizing table with
  | nil => simp
  | cons p ps ih =>
      obtain ⟨a, b⟩ := p
      obtain ⟨hb, hps⟩ := List.nodup_cons.mp h
      rw [List.foldl_cons, ih hps]
      simp only [add, IdMap.get?_insert, List.map_cons, List.mem_cons, Prod.mk.injEq]
      by_cases hd : d = b
      · subst hd
        have hnot : (s, d) ∉ ps := fun hmem => hb (List.mem_map.mpr ⟨(s, d), hmem, rfl⟩)
        simp only at hb
        simp [hnot, hb, eq_comm]
      · simp [hd]

/-- What is left of some moves when resources that do not matter are left out. -/
structure Collapsed (matters : ResourceId → Bool) (moves : List Move) (table : MoveTable) :
    Prop where
  paired : table.Paired
  inner_matters : ∀ {s r d}, table.forward.get? s = some r → table.forward.get? r = some d →
    matters r
  ends : ∀ {s d}, table.forward.get? s = some d →
    (∃ m ∈ moves, s = m.src ∨ s = m.dst) ∧ ∃ m ∈ moves, d = m.src ∨ d = m.dst

/-- Parts of disjoint chains are disjoint. -/
theorem nodup_flatMap_part {chains : List (List ResourceId)}
    {part : List ResourceId → List ResourceId} (h : chains.flatten.Nodup)
    (hpart : ∀ chain, (part chain).Sublist chain) : (chains.flatMap part).Nodup := by
  obtain ⟨hnodup, hdisjoint⟩ := List.nodup_flatten.mp h
  refine List.nodup_flatMap.mpr ⟨fun chain hc => (hpart chain).nodup (hnodup chain hc), ?_⟩
  refine hdisjoint.imp fun hd x hx hx' => ?_
  exact hd ((hpart _).subset hx) ((hpart _).subset hx')

/-- Chains with a common resource are the same chain. -/
theorem chain_unique {chains : List (List ResourceId)} (h : chains.flatten.Nodup)
    {c c' : List ResourceId} (hc : c ∈ chains) (hc' : c' ∈ chains) {x : ResourceId} (hx : x ∈ c)
    (hx' : x ∈ c') : c = c' := by
  by_contra hne
  obtain ⟨_, hdisjoint⟩ := List.nodup_flatten.mp h
  have : Std.Symm (List.Disjoint (α := ResourceId)) := ⟨fun _ _ hd _ hx hx' => hd hx' hx⟩
  exact hdisjoint.forall hc hc' hne hx hx'

variable {table : MoveTable} {s d : ResourceId}

theorem eq_of_chains {chains : List (List ResourceId)} (h : table.chains = .ok chains) :
    chains = table.starts.map table.chainFrom := by
  unfold MoveTable.chains at h
  simp only at h
  split at h
  · cases h
  · cases h
    rfl

section AddCollapsed

variable {matters : ResourceId → Bool} {chains : List (List ResourceId)}
  (hnodup : chains.flatten.Nodup)

include hnodup

/-- The moves that remain are those of the collapsed chains. -/
theorem forward_addCollapsed : (addCollapsed matters ∅ chains).forward.get? s = some d ↔
    ∃ chain ∈ chains, (s, d) ∈ MoveChain.moves (MoveChain.collapse matters chain) := by
  rw [← List.mem_flatMap (f := fun chain => MoveChain.moves (MoveChain.collapse matters chain))]
  refine (forward_foldl_add ?_).trans (or_iff_left fun h => by cases h.2)
  rw [List.map_flatMap]
  simp only [MoveChain.map_fst_moves]
  exact nodup_flatMap_part hnodup fun chain =>
    (List.dropLast_sublist _).trans (MoveChain.collapse_sublist chain)

theorem backward_addCollapsed : (addCollapsed matters ∅ chains).backward.get? d = some s ↔
    ∃ chain ∈ chains, (s, d) ∈ MoveChain.moves (MoveChain.collapse matters chain) := by
  rw [← List.mem_flatMap (f := fun chain => MoveChain.moves (MoveChain.collapse matters chain))]
  refine (backward_foldl_add ?_).trans (or_iff_left fun h => by cases h.2)
  rw [List.map_flatMap]
  simp only [MoveChain.map_snd_moves]
  exact nodup_flatMap_part hnodup fun chain =>
    (List.tail_sublist _).trans (MoveChain.collapse_sublist chain)

end AddCollapsed

/-- **What remains of a table's chains is paired, and only resources that matter lie between two
of its moves.** -/
theorem collapsed_of_chains {moves : List Move} {table : MoveTable}
    {chains : List (List ResourceId)} (matters : ResourceId → Bool)
    (hof : ofMoves moves = .ok table) (hchains : table.chains = .ok chains) :
    Collapsed matters moves (addCollapsed matters ∅ chains) := by
  have hpaired := paired_of_ofMoves hof
  have heq := eq_of_chains hchains
  have hnodup : chains.flatten.Nodup := heq ▸ hpaired.nodup_chains
  have hend : ∀ {chain x}, chain ∈ chains → x ∈ MoveChain.collapse matters chain →
      ∃ m ∈ moves, x = m.src ∨ x = m.dst := by
    intro chain x hchain hx
    have hx' : x ∈ chain := (MoveChain.collapse_sublist chain).subset hx
    rw [heq] at hchain
    obtain ⟨r, hr, rfl⟩ := List.mem_map.mp hchain
    rcases mem_chainFrom hr hx' with ⟨d, hd⟩ | ⟨s, hs⟩
    · exact ⟨_, (get?_ofMoves hof _ _).1.mp hd, Or.inl rfl⟩
    · exact ⟨_, (get?_ofMoves hof _ _).1.mp hs, Or.inr rfl⟩
  refine ⟨fun s d => (forward_addCollapsed hnodup).trans (backward_addCollapsed hnodup).symm,
    fun {s r d} hsr hrd => ?_, fun {s d} hsd => ?_⟩
  · obtain ⟨c, hc, hmove⟩ := (forward_addCollapsed hnodup).mp hsr
    obtain ⟨c', hc', hmove'⟩ := (forward_addCollapsed hnodup).mp hrd
    have htail := (MoveChain.ends_of_mem_moves hmove).2
    have hinit := (MoveChain.ends_of_mem_moves hmove').1
    have hcc : c = c' := chain_unique hnodup hc hc'
      ((MoveChain.collapse_sublist c).subset (List.mem_of_mem_tail htail))
      ((MoveChain.collapse_sublist c').subset ((List.dropLast_sublist _).subset hinit))
    subst hcc
    exact MoveChain.matters_of_mem_collapse ((List.nodup_flatten.mp hnodup).1 c hc) hinit htail
  · obtain ⟨c, hc, hmove⟩ := (forward_addCollapsed hnodup).mp hsd
    obtain ⟨hinit, htail⟩ := MoveChain.ends_of_mem_moves hmove
    exact ⟨hend hc ((List.dropLast_sublist _).subset hinit), hend hc (List.mem_of_mem_tail htail)⟩

end MoveTable

end FramePlan
