import FramePlan.MoveWalk
import FramePlan.Proofs.Frame.Moves
import FramePlan.Proofs.MoveSurvival

/-!
# Walks from starts end

When moves have different sources and different destinations, a walk from a source that is no
destination comes by no resource twice, so it ends after as many turns as there are moves at the
latest; it would go on forever only on a cycle, and no start leads into one. Walks from different
starts do not meet, and together they come by each move that is not on a cycle just once. So the
turns of all walks are as many as the moves just when there is no cycle.

* `MoveWalk.after_eq` — a walk comes by what follows its start.
* `MoveTable.Paired.endsAfter` — the chain of a start is where the walk from it ends.
* `MoveTable.Paired.mem_walked` — the moves that the walks come by.
* `MoveTable.walks_exact` — all of it, for every list of moves.
-/

namespace FramePlan

variable {table : MoveTable} {r s d x : ResourceId}

namespace MoveChain

theorem of_mem_moves {R : ResourceId → ResourceId → Prop} :
    ∀ {chain}, chain.IsChain R → (s, d) ∈ moves chain → R s d
  | [], _, h => absurd h List.not_mem_nil
  | [_], _, h => absurd h List.not_mem_nil
  | a :: b :: rest, hchain, h => by
      rw [moves_cons_cons] at h
      rcases List.mem_cons.mp h with heq | h
      · cases heq
        exact hchain.rel
      · exact of_mem_moves hchain.tail h

end MoveChain

/-! ### A walk and what follows its start -/

/-- **A walk comes by what follows its start**, for as many turns as it takes. -/
theorem MoveWalk.after_eq (n : Nat) (chain : List ResourceId) (r : ResourceId) :
    (MoveWalk.mk chain r).after table n =
      (table.reach n r).map fun x => ⟨chain ++ table.follow n r, x⟩ := by
  induction n generalizing chain r with
  | zero => exact congrArg (fun chain => some (MoveWalk.mk chain r)) (List.append_nil chain).symm
  | succ n ih =>
      rw [after, step?, MoveTable.reach, MoveTable.follow]
      cases table.forward.get? r with
      | none => rfl
      | some next =>
          show (MoveWalk.mk (chain ++ [next]) next).after table n = _
          rw [ih]
          simp

namespace MoveTable

theorem length_follow_le (n : Nat) (r : ResourceId) : (table.follow n r).length ≤ n := by
  induction n generalizing r with
  | zero => exact Nat.le_refl 0
  | succ n ih =>
      rw [follow]
      cases table.forward.get? r with
      | none => exact Nat.zero_le _
      | some next => exact Nat.succ_le_succ (ih next)

/-- What follows a resource is found in no more moves than it takes. -/
theorem follow_length (n : Nat) (r : ResourceId) :
    table.follow (table.follow n r).length r = table.follow n r := by
  induction n generalizing r with
  | zero => rfl
  | succ n ih =>
      conv_rhs => rw [follow]
      rw [follow]
      cases hnext : table.forward.get? r with
      | none => rfl
      | some next =>
          rw [List.length_cons, follow, hnext]
          exact congrArg (next :: ·) (ih next)

namespace Paired

/-- No move begins where the chain of a start ends, even if there are cycles elsewhere. -/
theorem forward_of_last (h : table.Paired) (hr : r ∈ table.starts)
    (hx : (table.chainFrom r).getLast? = some x) : table.forward.get? x = none := by
  refine Option.eq_none_iff_forall_ne_some.mpr fun d hd => ?_
  rcases last_follow _ hx with hnone | hreach
  · cases hnone.symm.trans hd
  · exact h.not_onCycle_of_isStart (mem_starts.mp hr).2
      (h.onCycle_of_reach hreach (onCycle_of_reach_size hreach hd))

/-- **The chain of a start is where the walk from it ends**, after no more turns than there are
moves. -/
theorem endsAfter (h : table.Paired) (hr : r ∈ table.starts) : ∃ n ≤ table.size, ∃ last,
    (MoveWalk.start r).EndsAfter table n last ∧ last.chain = table.chainFrom r ∧
      (table.chainFrom r).length = n + 1 := by
  have hne : table.chainFrom r ≠ [] := List.cons_ne_nil _ _
  have hlast := List.getLast?_eq_some_getLast hne
  have hreach : table.reach (table.follow table.size r).length r =
      some ((table.chainFrom r).getLast hne) := by
    refine getElem?_follow table.size ?_
    rw [← hlast, List.getLast?_eq_getElem?]
    rfl
  refine ⟨(table.follow table.size r).length, length_follow_le _ r,
    ⟨table.chainFrom r, (table.chainFrom r).getLast hne⟩, ⟨?_, ?_⟩, rfl, rfl⟩
  · rw [MoveWalk.start, MoveWalk.after_eq, hreach, follow_length]
    rfl
  · rw [MoveWalk.step?, h.forward_of_last hr hlast]
    rfl

end Paired

/-- **A walk on a cycle goes on after any number of turns.** -/
theorem OnCycle.goesOn (hr : table.OnCycle r) (n : Nat) :
    ∃ walk, (MoveWalk.start r).after table n = some walk ∧ (walk.step? table).isSome := by
  have hreach : ∃ x, table.reach n r = some x := by
    induction n generalizing r with
    | zero => exact ⟨r, rfl⟩
    | succ n ih =>
        obtain ⟨d, hd⟩ := hr.exists_next
        obtain ⟨x, hx⟩ := ih (hr.next hd)
        exact ⟨x, by rw [MoveTable.reach, hd]; exact hx⟩
  obtain ⟨x, hx⟩ := hreach
  obtain ⟨y, hy⟩ := (hr.reach hx).exists_next
  refine ⟨⟨r :: table.follow n r, x⟩, ?_, ?_⟩
  · rw [MoveWalk.start, MoveWalk.after_eq, hx]
    rfl
  · rw [MoveWalk.step?, hy]
    rfl

/-! ### What the walks come by -/

/-- A source is on the chain of a start just when a move of that chain begins with it. -/
theorem Paired.mem_dropLast_iff (h : table.Paired) (hr : r ∈ table.starts)
    (hs : table.forward.get? s = some d) :
    s ∈ (table.chainFrom r).dropLast ↔ s ∈ table.chainFrom r := by
  refine ⟨List.mem_of_mem_dropLast, fun hmem => ?_⟩
  have hne : table.chainFrom r ≠ [] := List.cons_ne_nil _ _
  rw [← List.dropLast_concat_getLast hne, List.mem_append, List.mem_singleton] at hmem
  refine hmem.resolve_right fun heq => ?_
  have hnone := h.forward_of_last hr (List.getLast?_eq_some_getLast hne)
  rw [← heq, hs] at hnone
  cases hnone

namespace Paired

/-- **A source is on no chain just when it lies on a cycle.** -/
theorem absent_iff (h : table.Paired) (hs : table.forward.get? s = some d) :
    (∀ r ∈ table.starts, s ∉ table.chainFrom r) ↔ table.OnCycle s := by
  rw [← not_not (a := table.OnCycle s), ← h.covered_iff hs, Covered, not_exists]
  refine forall_congr' fun r => ?_
  rw [not_and]
  exact forall_congr' fun hr => not_congr (h.mem_dropLast_iff hr hs).symm

/-- Chains of different starts have nothing in common. -/
theorem disjoint_chains (h : table.Paired) (hr : r ∈ table.starts) (hs : s ∈ table.starts)
    (hne : r ≠ s) : (table.chainFrom r).Disjoint (table.chainFrom s) := by
  intro x hx hx'
  obtain ⟨i, hi⟩ := List.mem_iff_getElem?.mp hx
  obtain ⟨j, hj⟩ := List.mem_iff_getElem?.mp hx'
  exact hne (h.starts_meet (getElem?_follow _ hi) (getElem?_follow _ hj) (mem_starts.mp hr).2
    (mem_starts.mp hs).2).2

/-- The chains are found just when nothing lies on a cycle. -/
theorem chains_eq_ok_iff (h : table.Paired) :
    table.chains = .ok (table.starts.map table.chainFrom) ↔ ∀ r, ¬ table.OnCycle r := by
  rcases h.chains_cases with ⟨hok, hacyclic⟩ | ⟨r, herror, hr, -⟩
  · exact iff_of_true hok hacyclic
  · refine iff_of_false (fun hok => ?_) fun hacyclic => hacyclic r hr
    cases hok.symm.trans herror

end Paired

/-- The moves of all chains, as pairs of source and destination. -/
def walked (table : MoveTable) : List (ResourceId × ResourceId) :=
  table.starts.flatMap fun r => MoveChain.moves (table.chainFrom r)

/-- As many moves are reached as the chains have. -/
theorem length_walked : table.walked.length = table.reached := by
  rw [reached, ← List.length_map (f := (·.1)), walked, List.map_flatMap]
  simp only [MoveChain.map_fst_moves]

/-- The turns of all walks are counted. -/
theorem reached_eq_sum :
    table.reached = (table.starts.map fun r => (table.chainFrom r).length - 1).sum := by
  rw [reached, List.length_flatMap]
  simp only [List.length_dropLast]

namespace Paired

theorem nodup_walked (h : table.Paired) : table.walked.Nodup := by
  refine List.Nodup.of_map (·.1) ?_
  rw [walked, List.map_flatMap]
  simp only [MoveChain.map_fst_moves]
  have hpart := nodup_flatMap_part h.nodup_chains fun chain => List.dropLast_sublist chain
  rwa [List.flatMap_map] at hpart

/-- **The walks come by the moves that are not on a cycle.** -/
theorem mem_walked (h : table.Paired) :
    (s, d) ∈ table.walked ↔ table.forward.get? s = some d ∧ ¬ table.OnCycle s := by
  have hforward : ∀ {r d}, (s, d) ∈ MoveChain.moves (table.chainFrom r) →
      table.forward.get? s = some d := fun hmem => MoveChain.of_mem_moves (isChain_follow _ _) hmem
  rw [walked, List.mem_flatMap]
  constructor
  · rintro ⟨r, hr, hmem⟩
    have hs := hforward hmem
    exact ⟨hs, (h.covered_iff hs).mp ⟨r, hr, (MoveChain.ends_of_mem_moves hmem).1⟩⟩
  · rintro ⟨hs, hfree⟩
    obtain ⟨r, hr, hmem⟩ := (h.covered_iff hs).mpr hfree
    rw [← MoveChain.map_fst_moves] at hmem
    obtain ⟨⟨s', d'⟩, hmove, rfl⟩ := List.mem_map.mp hmem
    cases hs.symm.trans (hforward hmove)
    exact ⟨r, hr, hmove⟩

end Paired

/-! ### The moves of a list -/

/-- Along the moves, one comes back to the resource. -/
def CycleOf (moves : List Move) (r : ResourceId) : Prop :=
  Relation.TransGen (fun s d => (⟨d, s⟩ : Move) ∈ moves) r r

variable {moves : List Move}

theorem onCycle_iff_cycleOf (h : ofMoves moves = .ok table) :
    table.OnCycle r ↔ CycleOf moves r := by
  have hmoves : (fun s d => table.forward.get? s = some d) =
      fun s d => (⟨d, s⟩ : Move) ∈ moves :=
    funext fun s => funext fun d => propext (get?_ofMoves h s d).1
  rw [OnCycle, hmoves, CycleOf]

/-- The table has an entry for each move. -/
theorem size_ofMoves (hsrc : (moves.map (·.src)).Nodup) (h : ofMoves moves = .ok table) :
    table.size = moves.length := by
  have hperm : (moves.map (·.src)).Perm table.forward.keys.toList := by
    refine (List.perm_ext_iff_of_nodup hsrc table.forward.keys.nodup_toList).mpr fun s => ?_
    rw [List.mem_map, IdSet.mem_toList, IdMap.mem_keys]
    constructor
    · rintro ⟨m, hm, rfl⟩
      exact ⟨m.dst, (get?_ofMoves h _ _).1.mpr hm⟩
    · rintro ⟨d, hd⟩
      exact ⟨_, (get?_ofMoves h s d).1.mp hd, rfl⟩
  have hlength := hperm.length_eq
  rw [List.length_map] at hlength
  exact ((List.length_map _).symm.trans hlength.symm)

/-- If nothing lies on a cycle, the walks come by all moves. -/
theorem reached_of_acyclic (hsrc : (moves.map (·.src)).Nodup) (h : ofMoves moves = .ok table)
    (hacyclic : ∀ r, ¬ CycleOf moves r) : table.reached = moves.length := by
  have hpaired := paired_of_ofMoves h
  have hpairs : (moves.map fun m => (m.src, m.dst)).Nodup := by
    refine List.Nodup.of_map (·.1) ?_
    rw [List.map_map]
    exact hsrc
  have hperm : table.walked.Perm (moves.map fun m => (m.src, m.dst)) := by
    refine (List.perm_ext_iff_of_nodup hpaired.nodup_walked hpairs).mpr fun ⟨s, d⟩ => ?_
    rw [hpaired.mem_walked, (get?_ofMoves h s d).1, List.mem_map]
    constructor
    · rintro ⟨hmem, -⟩
      exact ⟨_, hmem, rfl⟩
    · rintro ⟨m, hm, heq⟩
      cases heq
      exact ⟨hm, fun hcycle => hacyclic _ ((onCycle_iff_cycleOf h).mp hcycle)⟩
  rw [← length_walked, hperm.length_eq, List.length_map]

/-- The walks along the moves of a list, and what they are good for. -/
structure WalksExactly (moves : List Move) (table : MoveTable) : Prop where
  forward_iff : ∀ s d, table.forward.get? s = some d ↔ ⟨d, s⟩ ∈ moves
  /-- Walks begin at the sources that are no destinations. -/
  starts_iff : ∀ r, r ∈ table.starts ↔ (∃ d, ⟨d, r⟩ ∈ moves) ∧ ∀ s, ⟨r, s⟩ ∉ moves
  /-- Each of them ends, with one more resource on its chain than it took turns. -/
  ends : ∀ r ∈ table.starts, ∃ n ≤ moves.length, ∃ last,
    (MoveWalk.start r).EndsAfter table n last ∧ last.chain = table.chainFrom r ∧
      (table.chainFrom r).length = n + 1
  /-- No chain has a resource twice, and no two chains have one in common. -/
  nodup : ∀ r ∈ table.starts, (table.chainFrom r).Nodup
  disjoint : ∀ r ∈ table.starts, ∀ r' ∈ table.starts, r ≠ r' →
    (table.chainFrom r).Disjoint (table.chainFrom r')
  /-- The sources that are on no chain are those on cycles. -/
  absent_iff : ∀ m ∈ moves,
    (∀ r ∈ table.starts, m.src ∉ table.chainFrom r) ↔ CycleOf moves m.src
  /-- From there a walk would go on forever. -/
  endless : ∀ r, CycleOf moves r →
    ∀ n, ∃ walk, (MoveWalk.start r).after table n = some walk ∧ (walk.step? table).isSome
  /-- The chains have each move once that is not on a cycle, and no other. -/
  walked_nodup : table.walked.Nodup
  walked_iff : ∀ s d, (s, d) ∈ table.walked ↔ ⟨d, s⟩ ∈ moves ∧ ¬ CycleOf moves s
  /-- What is counted are the turns of all walks. -/
  reached_eq : table.reached = (table.starts.map fun r => (table.chainFrom r).length - 1).sum
  reached_iff : table.reached = moves.length ↔ ∀ r, ¬ CycleOf moves r
  /-- There are chains just when there is no cycle. -/
  chains_iff : table.chains = .ok (table.starts.map table.chainFrom) ↔ ∀ r, ¬ CycleOf moves r
  /-- What is reported otherwise is the smallest resource on a cycle. -/
  error : ∀ e, table.chains = .error e → ∃ r, e = .moveCycle r ∧ CycleOf moves r ∧
    ∀ x, CycleOf moves x → r.index ≤ x.index

/-- **Walks from starts end, and part the moves that are not on cycles among them**, for all moves
with different sources and different destinations. -/
theorem walks_exact {moves : List Move} (hsrc : (moves.map (·.src)).Nodup)
    (hdst : (moves.map (·.dst)).Nodup) :
    ∃ table, ofMoves moves = .ok table ∧ WalksExactly moves table := by
  obtain ⟨table, htable⟩ := ofMoves_ok hsrc hdst
  have hpaired := paired_of_ofMoves htable
  have hcycle : ∀ {r}, table.OnCycle r ↔ CycleOf moves r := onCycle_iff_cycleOf htable
  have hsize := size_ofMoves hsrc htable
  have hchains := List.nodup_flatten.mp hpaired.nodup_chains
  refine ⟨table, htable, fun s d => (get?_ofMoves htable s d).1, fun r => ?_, fun r hr => ?_,
    fun r hr => hchains.1 _ (List.mem_map_of_mem hr),
    fun r hr r' hr' hne => hpaired.disjoint_chains hr hr' hne, fun m hm => ?_,
    fun r hr n => (hcycle.mpr hr).goesOn n, hpaired.nodup_walked, fun s d => ?_, reached_eq_sum,
    ⟨fun hreached r hr => ?_, reached_of_acyclic hsrc htable⟩, ?_, fun e he => ?_⟩
  · rw [mem_starts, IsStart, Option.eq_none_iff_forall_ne_some]
    exact and_congr (exists_congr fun d => (get?_ofMoves htable r d).1)
      (forall_congr' fun s => not_congr (get?_ofMoves htable s r).2)
  · rw [← hsize]
    exact hpaired.endsAfter hr
  · rw [← hcycle]
    exact hpaired.absent_iff ((get?_ofMoves htable m.src m.dst).1.mpr hm)
  · rw [hpaired.mem_walked, (get?_ofMoves htable s d).1, hcycle]
  · exact hpaired.not_onCycle_of_reached (hreached.trans hsize.symm) r (hcycle.mpr hr)
  · rw [hpaired.chains_eq_ok_iff]
    exact forall_congr' fun r => not_congr hcycle
  · rcases hpaired.chains_cases with ⟨hok, -⟩ | ⟨x, herror, hx, hleast⟩
    · cases hok.symm.trans he
    · cases herror.symm.trans he
      exact ⟨x, rfl, hcycle.mp hx, fun y hy => hleast y (hcycle.mpr hy)⟩

/-- Storage goes from the first resource to the third, and between two others in a ring. -/
def roundabout : Frame := .ofDeclarations "roundabout"
  [.resource "entry", .resource "lane", .resource "exit", .resource "near", .resource "far",
    .move ⟨⟨2⟩, ⟨1⟩⟩, .move ⟨⟨3⟩, ⟨4⟩⟩, .move ⟨⟨1⟩, ⟨0⟩⟩, .move ⟨⟨4⟩, ⟨3⟩⟩]

/-- The ends of the moves of a declared frame are different. One walk takes two turns, and as four
moves are not two, the ring is reported. -/
theorem walks_exact_roundabout : ∃ table, ofMoves roundabout.moves = .ok table ∧
    WalksExactly roundabout.moves table ∧ table.starts = [⟨0⟩] ∧
      (MoveWalk.start ⟨0⟩).EndsAfter table 2 ⟨[⟨0⟩, ⟨1⟩, ⟨2⟩], ⟨2⟩⟩ ∧ table.reached = 2 ∧
        table.chains = .error (.moveCycle ⟨3⟩) := by
  have hdeclared : roundabout.Declared := ⟨_, _, rfl⟩
  have hapart := hdeclared.movesApart
  obtain ⟨table, htable, hexact⟩ := walks_exact hapart.src_nodup hapart.dst_nodup
  have hfound : ofMoves roundabout.moves = .ok
      ⟨.ofList [(⟨0⟩, ⟨1⟩), (⟨1⟩, ⟨2⟩), (⟨3⟩, ⟨4⟩), (⟨4⟩, ⟨3⟩)],
        .ofList [(⟨1⟩, ⟨0⟩), (⟨2⟩, ⟨1⟩), (⟨3⟩, ⟨4⟩), (⟨4⟩, ⟨3⟩)]⟩ := by decide
  cases hfound.symm.trans htable
  exact ⟨_, htable, hexact, by decide, by decide, by decide, by decide⟩

end MoveTable

end FramePlan
