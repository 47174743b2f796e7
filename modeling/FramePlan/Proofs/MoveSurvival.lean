import FramePlan.Frame.Conflict
import FramePlan.Proofs.MoveCycle

/-!
# Which moves remain

Without cycles, the chains from starts are all there is. A collapsed chain joins the resources that
are used, and the two ends of the chain, by moves over those that are not.

* `Frame.Carries.unique` — where storage gets to is determined by where it comes from.
* `MoveTable.forward_iff_survives` — the moves of a plan are those that survive.
-/

namespace FramePlan

namespace Frame

variable {frame : Frame} {s r d d' : ResourceId}

theorem Carries.exists_move (h : frame.Carries s d) : ∃ r, frame.Moves s r := by
  cases h with
  | single hmove => exact ⟨_, hmove⟩
  | through hmove _ _ => exact ⟨_, hmove⟩

/-- Storage is carried on over a resource that no pass uses. -/
theorem Carries.join (h : frame.Carries s r) (hr : ¬ frame.Touched r) (h' : frame.Carries r d) :
    frame.Carries s d := by
  induction h with
  | single hmove => exact .through hmove hr h'
  | through hmove hx _ ih => exact .through hmove hx (ih hr h')

/-- Storage is carried to one resource only that is used or has no move beyond it. -/
theorem Carries.unique (hmoves : ∀ {s d d'}, frame.Moves s d → frame.Moves s d' → d = d')
    (h : frame.Carries s d) (h' : frame.Carries s d')
    (hd : frame.Touched d ∨ ∀ r, ¬ frame.Moves d r)
    (hd' : frame.Touched d' ∨ ∀ r, ¬ frame.Moves d' r) : d = d' := by
  have stuck : ∀ {x y}, ¬ frame.Touched x → frame.Carries x y →
      ¬ (frame.Touched x ∨ ∀ r, ¬ frame.Moves x r) := by
    rintro x y hx hxy (htouched | hnone)
    · exact hx htouched
    · exact hxy.exists_move.elim hnone
  induction h with
  | single hmove =>
      cases h' with
      | single hmove' => exact hmoves hmove hmove'
      | through hmove' hx hrest =>
          cases hmoves hmove hmove'
          exact absurd hd (stuck hx hrest)
  | through hmove hx hrest ih =>
      cases h' with
      | single hmove' =>
          cases hmoves hmove hmove'
          exact absurd hd' (stuck hx hrest)
      | through hmove' _ hrest' =>
          cases hmoves hmove hmove'
          exact ih hrest' hd

end Frame

namespace MoveChain

variable {matters : ResourceId → Bool} {start x s d : ResourceId} {rest : List ResourceId}

/-- The moves of a collapsed chain carry storage over resources that no pass uses. -/
theorem carries_of_mem_moves {frame : Frame} (hmatters : ∀ r, matters r ↔ frame.Touched r)
    (hchain : (x :: rest).IsChain frame.Carries)
    (h : (s, d) ∈ moves (x :: keepInner matters rest)) : frame.Carries s d := by
  induction rest generalizing x with
  | nil => exact absurd h List.not_mem_nil
  | cons r rest ih =>
      cases rest with
      | nil =>
          cases List.mem_singleton.mp h
          exact hchain.rel
      | cons next rest =>
          rw [keepInner] at h
          split at h
          · rw [moves_cons_cons] at h
            rcases List.mem_cons.mp h with heq | h
            · cases heq
              exact hchain.rel
            · exact ih hchain.tail h
          · next hr =>
            have hjoined := hchain.rel.join (fun htouched => hr ((hmatters r).mpr htouched))
              hchain.tail.rel
            exact ih (List.isChain_cons_cons.mpr ⟨hjoined, hchain.tail.tail⟩) h

theorem mem_dropLast_keepInner (hx : x ∈ rest.dropLast) (hmatters : matters x) :
    x ∈ (keepInner matters rest).dropLast := by
  induction rest with
  | nil => exact absurd hx List.not_mem_nil
  | cons r rest ih =>
      cases rest with
      | nil => exact absurd hx List.not_mem_nil
      | cons next rest =>
          have hne : keepInner matters (next :: rest) ≠ [] := keepInner_ne_nil (by simp)
          rw [List.dropLast_cons_of_ne_nil (by simp)] at hx
          rw [keepInner]
          split
          · rw [List.dropLast_cons_of_ne_nil hne]
            rcases List.mem_cons.mp hx with rfl | hx
            · exact List.mem_cons_self
            · exact List.mem_cons_of_mem r (ih hx)
          · next hr =>
            rcases List.mem_cons.mp hx with rfl | hx
            · exact absurd hmatters hr
            · exact ih hx

/-- The start of a chain and the resources that matter stay on it. -/
theorem mem_dropLast_collapse (hx : x ∈ (start :: rest).dropLast) (h : x = start ∨ matters x) :
    x ∈ (collapse matters (start :: rest)).dropLast := by
  have hrest : rest ≠ [] := by
    rintro rfl
    exact absurd hx List.not_mem_nil
  rw [List.dropLast_cons_of_ne_nil hrest] at hx
  rw [collapse, List.dropLast_cons_of_ne_nil (keepInner_ne_nil hrest)]
  rcases List.mem_cons.mp hx with rfl | hx
  · exact List.mem_cons_self
  · rcases h with rfl | h
    · exact List.mem_cons_self
    · exact List.mem_cons_of_mem start (mem_dropLast_keepInner hx h)

theorem start_or_matters_of_mem (hx : x ∈ (collapse matters (start :: rest)).dropLast) :
    x = start ∨ matters x := by
  rw [collapse] at hx
  by_cases hne : keepInner matters rest = []
  · rw [hne] at hx
    exact absurd hx List.not_mem_nil
  · rw [List.dropLast_cons_of_ne_nil hne] at hx
    exact (List.mem_cons.mp hx).imp id matters_of_mem_keepInner

theorem matters_or_last_of_mem (hx : x ∈ keepInner matters rest) :
    matters x ∨ rest.getLast? = some x := by
  induction rest with
  | nil => exact absurd hx List.not_mem_nil
  | cons r rest ih =>
      cases rest with
      | nil => exact Or.inr (List.mem_singleton.mp hx ▸ rfl)
      | cons next rest =>
          rw [List.getLast?_cons_cons]
          rw [keepInner] at hx
          split at hx
          · next hr =>
            rcases List.mem_cons.mp hx with rfl | hx
            · exact Or.inl hr
            · exact ih hx
          · exact ih hx

end MoveChain

namespace MoveTable

variable {table : MoveTable} {frame : Frame} {r s d x : ResourceId}

theorem isChain_follow (n : Nat) (r : ResourceId) :
    (r :: table.follow n r).IsChain fun s d => table.forward.get? s = some d := by
  induction n generalizing r with
  | zero => exact .singleton r
  | succ n ih =>
      rw [follow]
      cases hnext : table.forward.get? r with
      | none => exact .singleton r
      | some next => exact List.isChain_cons_cons.mpr ⟨hnext, ih next⟩

/-- A chain goes on as long as there is a move, or for as many moves as it may. -/
theorem last_follow (n : Nat) (h : (r :: table.follow n r).getLast? = some x) :
    table.forward.get? x = none ∨ table.reach n r = some x := by
  induction n generalizing r with
  | zero =>
      cases h
      exact Or.inr rfl
  | succ n ih =>
      rw [follow] at h
      rw [reach]
      cases hnext : table.forward.get? r with
      | none =>
          rw [hnext] at h
          cases h
          exact Or.inl hnext
      | some next =>
          rw [hnext, List.getLast?_cons_cons] at h
          exact ih h

/-- Without cycles, no storage is moved on from the last resource of a chain. -/
theorem forward_of_last (hacyclic : ∀ r, ¬ table.OnCycle r)
    (h : (table.chainFrom r).getLast? = some x) : table.forward.get? x = none := by
  refine Option.eq_none_iff_forall_ne_some.mpr fun d hd => ?_
  rcases last_follow _ h with hnone | hreach
  · rw [hnone] at hd
    cases hd
  · exact hacyclic x (onCycle_of_reach_size hreach hd)

section Survives

variable {matters : ResourceId → Bool} (hof : ofMoves frame.moves = .ok table)
  (hacyclic : ∀ r, ¬ table.OnCycle r) (hmatters : ∀ r, matters r ↔ frame.Touched r)

include hof

theorem moves_iff : frame.Moves s d ↔ table.forward.get? s = some d :=
  (get?_ofMoves hof s d).1.symm

theorem isStart_iff : table.IsStart r ↔ ∀ s, ¬ frame.Moves s r := by
  rw [IsStart, Option.eq_none_iff_forall_ne_some]
  exact forall_congr' fun s => not_congr (get?_ofMoves hof s r).2

theorem moves_functional {d' : ResourceId} (h : frame.Moves s d) (h' : frame.Moves s d') :
    d = d' := by
  rw [moves_iff hof] at h h'
  exact Option.some.inj (h.symm.trans h')

/-- Storage comes back in the table as it does in the frame. -/
theorem onCycle_iff : table.OnCycle r ↔ Relation.TransGen frame.Moves r r := by
  have hmoves : (fun s d => table.forward.get? s = some d) = frame.Moves :=
    funext fun s => funext fun d => propext (moves_iff hof).symm
  rw [OnCycle, hmoves]

include hacyclic hmatters

/-- A move of a collapsed chain survives. -/
theorem survives_of_mem_moves (hr : r ∈ table.starts)
    (h : (s, d) ∈ MoveChain.moves (MoveChain.collapse matters (table.chainFrom r))) :
    frame.Survives s d := by
  obtain ⟨hs, hd⟩ := MoveChain.ends_of_mem_moves h
  refine ⟨?_, ?_, ?_⟩
  · refine MoveChain.carries_of_mem_moves hmatters ?_ h
    exact (isChain_follow _ r).imp fun s d hforward => .single ((moves_iff hof).mpr hforward)
  · rcases MoveChain.start_or_matters_of_mem hs with rfl | hs
    · exact Or.inr ((isStart_iff hof).mp (mem_starts.mp hr).2)
    · exact Or.inl ((hmatters s).mp hs)
  · rcases MoveChain.matters_or_last_of_mem hd with hd' | hlast
    · exact Or.inl ((hmatters d).mp hd')
    · refine Or.inr fun x hx => ?_
      have hlast' : (table.chainFrom r).getLast? = some d := by
        rw [chainFrom, List.getLast?_cons, hlast]
        rfl
      rw [moves_iff hof, forward_of_last hacyclic hlast'] at hx
      cases hx

/-- **The moves that remain of the chains are those that survive.** -/
theorem forward_iff_survives :
    (addCollapsed matters ∅ (table.starts.map table.chainFrom)).forward.get? s = some d ↔
      frame.Survives s d := by
  have hpaired := paired_of_ofMoves hof
  rw [forward_addCollapsed hpaired.nodup_chains]
  constructor
  · rintro ⟨chain, hchain, hmove⟩
    obtain ⟨r, hr, rfl⟩ := List.mem_map.mp hchain
    exact survives_of_mem_moves hof hacyclic hmatters hr hmove
  · intro h
    -- The source lies on a chain and stays on it, so some move from it remains, which is this one.
    obtain ⟨y, hy⟩ := h.carries.exists_move
    obtain ⟨r, hr, hs⟩ := (hpaired.covered_iff ((moves_iff hof).mp hy)).mpr (hacyclic s)
    have hkept : s = r ∨ matters s := by
      rcases h.source with htouched | hstart
      · exact Or.inr ((hmatters s).mpr htouched)
      · obtain ⟨i, hi⟩ := List.mem_iff_getElem?.mp (List.mem_of_mem_dropLast hs)
        have hmeet := hpaired.starts_meet (i := 0) (j := i) rfl (getElem?_follow _ hi)
          ((isStart_iff hof).mpr hstart) (mem_starts.mp hr).2
        exact Or.inl hmeet.2
    have hinit := MoveChain.mem_dropLast_collapse hs hkept
    rw [← MoveChain.map_fst_moves] at hinit
    obtain ⟨⟨s', d'⟩, hmove, rfl⟩ := List.mem_map.mp hinit
    have h' := survives_of_mem_moves hof hacyclic hmatters hr hmove
    rw [h.carries.unique (moves_functional hof) h'.carries h.destination h'.destination]
    exact ⟨_, List.mem_map_of_mem hr, hmove⟩

end Survives

end MoveTable

end FramePlan
