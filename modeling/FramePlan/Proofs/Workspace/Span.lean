import FramePlan.Proofs.Workspace.Collect

/-!
# Positions and spans noted in place

When the order is found, each pass gets its position, in a list that is looked up by the id of the
pass. The order names every pass below its length once, so each entry of the list is set once and
no look-up is out of range. From there each record gets the positions of its first and last use.

* `Workspace.assignPositions_eq` — the list holds the position of each pass in the order.
* `Workspace.assignSpans_eq` — the records hold the spans of the usages they record.
-/

namespace FramePlan

/-- The order names each of the first passes once, and no other. -/
structure CompleteOrder (order : List PassId) : Prop where
  nodup : order.Nodup
  mem : ∀ {p}, p ∈ order ↔ p.index < order.length

/-- The position of each pass in an order, by the id of the pass. -/
def positionsOf (order : List PassId) : List Nat :=
  (NodeId.firstN .pass order.length).map order.idxOf

theorem getElem?_positionsOf {order : List PassId} {p : PassId} (h : p.index < order.length) :
    (positionsOf order)[p.index]? = some (order.idxOf p) := by
  rw [positionsOf, List.getElem?_map, NodeId.getElem?_firstN, if_pos h]
  rfl

namespace UseRecord

/-- The record with the positions of the first and of the last use. -/
def spanned (position : PassId → Nat) (record : UseRecord) : UseRecord :=
  let first := (record.writer.map position).or
    ((record.readers.map position).min?.or (record.copyIn.map position))
  { record with
    first
    last := (record.copyIn.map position).or ((record.readers.map position).max?.or first) }

/-- The noted positions are the ends of the span of the usage. -/
theorem spanned_ofUsage (position : PassId → Nat) (u : Usage) :
    (ofUsage u).spanned position =
      { ofUsage u with
        first := (Span.ofUsage position u).map (·.first)
        last := (Span.ofUsage position u).map (·.last) } := by
  obtain ⟨writer, readers, copyIn⟩ := u
  have hlast : (readers.toList.map position).min? = none →
      (readers.toList.map position).max? = none := by
    intro hmin
    rw [List.min?_eq_none_iff.mp hmin]
    rfl
  unfold spanned ofUsage Span.ofUsage
  cases writer <;> cases copyIn <;> cases hmin : (readers.toList.map position).min? <;>
    cases hmax : (readers.toList.map position).max? <;>
    simp_all

end UseRecord

namespace Workspace

variable {ws : Workspace} {order : List PassId} {p : PassId} {r : ResourceId}

/-! ### Positions -/

theorem entryAt_of_get {α : Type} {list : Workspace → List α} {i : Nat} {a : α}
    (h : (list ws)[i]? = some a) : entryAt list i ws = .ok a ws := by
  unfold entryAt
  rw [get_bind, h]
  rfl

/-- The list of positions with one entry set. -/
def setEntry (positions : List Nat) (entry : PassId × Nat) : List Nat :=
  positions.set entry.1.index entry.2

theorem setPosition_eq {entry : PassId × Nat} {positions : List Nat}
    (h : entry.1.index < positions.length) :
    setPosition entry { ws with positions } =
      .ok () { ws with positions := setEntry positions entry } := by
  have hget : positions[entry.1.index]? = some positions[entry.1.index] :=
    List.getElem?_eq_getElem h
  have hread : positionOf entry.1 { ws with positions } = .ok _ { ws with positions } :=
    entryAt_of_get hget
  exact bind_of_ok hread

theorem getElem?_setEntries {k : Nat} {positions : List Nat} {i : Nat} (hnodup : order.Nodup)
    (hlt : ∀ p ∈ order, p.index < positions.length) :
    ((order.zipIdx k).foldl setEntry positions)[i]? =
      if ⟨i⟩ ∈ order then some (k + order.idxOf ⟨i⟩) else positions[i]? := by
  induction order generalizing k positions with
  | nil => rfl
  | cons p order ih =>
      obtain ⟨hp, hnodup⟩ := List.nodup_cons.mp hnodup
      have hlt' : ∀ q ∈ order, q.index < (setEntry positions (p, k)).length := by
        intro q hq
        rw [setEntry, List.length_set]
        exact hlt q (List.mem_cons_of_mem _ hq)
      rw [List.zipIdx_cons, List.foldl_cons, ih hnodup hlt']
      by_cases hi : (⟨i⟩ : PassId) = p
      · subst hi
        rw [if_neg hp, if_pos (List.mem_cons_self ..), List.idxOf_cons_self, setEntry,
          List.getElem?_set_self (hlt _ (List.mem_cons_self ..))]
        rfl
      · have hne : p.index ≠ i := fun heq => hi (NodeId.ext heq.symm)
        by_cases hmem : (⟨i⟩ : PassId) ∈ order
        · rw [if_pos hmem, if_pos (List.mem_cons_of_mem _ hmem), List.idxOf_cons_ne _ (Ne.symm hi)]
          congr 1
          omega
        · have hmem' : (⟨i⟩ : PassId) ∉ p :: order := by simp [hi, hmem]
          rw [if_neg hmem, if_neg hmem', setEntry, List.getElem?_set_ne hne]

/-- When all entries are set, they are the positions of the passes. -/
theorem setEntries_eq (h : CompleteOrder order) :
    order.zipIdx.foldl setEntry (.replicate order.length 0) = positionsOf order := by
  apply List.ext_getElem?
  intro i
  rw [getElem?_setEntries h.nodup fun p hp => by
    rw [List.length_replicate]
    exact h.mem.mp hp]
  by_cases hi : (⟨i⟩ : PassId) ∈ order
  · rw [if_pos hi, getElem?_positionsOf (p := ⟨i⟩) (h.mem.mp hi), Nat.zero_add]
  · have hlt : ¬ i < order.length := fun hlt => hi (h.mem.mpr hlt)
    rw [if_neg hi, positionsOf, List.getElem?_map, NodeId.getElem?_firstN ⟨i⟩, if_neg hlt,
      List.getElem?_replicate, if_neg hlt]
    rfl

/-- **Each pass gets its position in the order.** -/
theorem assignPositions_eq (h : CompleteOrder ws.order) :
    assignPositions ws = .ok () { ws with positions := positionsOf ws.order } := by
  have hround : ∀ e ∈ ws.order.zipIdx, ∀ positions : List Nat, positions.length = ws.order.length →
      setPosition e { ws with positions } = .ok () { ws with positions := setEntry positions e } ∧
        (setEntry positions e).length = ws.order.length := by
    intro e he positions hlength
    have hmem : e.1 ∈ ws.order := List.fst_mem_of_mem_zipIdx he
    have hlt : e.1.index < positions.length := by
      rw [hlength]
      exact h.mem.mp hmem
    refine ⟨setPosition_eq hlt, ?_⟩
    rw [setEntry, List.length_set, hlength]
  rw [← setEntries_eq h]
  exact forM_of_step (fun positions => { ws with positions }) setEntry hround
    (List.length_replicate ..)

/-! ### Spans -/

/-- No use of a record is out of range. -/
def InRange (n : Nat) (record : UseRecord) : Prop :=
  (∀ p, record.writer = some p → p.index < n) ∧ (∀ p ∈ record.readers, p.index < n) ∧
    ∀ p, record.copyIn = some p → p.index < n

theorem positionOf_eq (hpositions : ws.positions = positionsOf order)
    (h : p.index < order.length) : positionOf p ws = .ok (order.idxOf p) ws := by
  apply entryAt_of_get
  rw [hpositions]
  exact getElem?_positionsOf h

theorem mapM_positionOf_list (hpositions : ws.positions = positionsOf order) {ps : List PassId}
    (h : ∀ p ∈ ps, p.index < order.length) :
    ps.mapM positionOf ws = .ok (ps.map order.idxOf) ws :=
  mapM_of_ok fun p hp => positionOf_eq hpositions (h p hp)

theorem mapM_positionOf_option (hpositions : ws.positions = positionsOf order)
    {o : Option PassId} (h : ∀ p, o = some p → p.index < order.length) :
    o.mapM positionOf ws = .ok (o.map order.idxOf) ws := by
  cases o with
  | none => rfl
  | some p =>
      show EStateM.map some (positionOf p) ws = _
      unfold EStateM.map
      rw [positionOf_eq hpositions (h p rfl)]
      rfl

/-- One record is changed, and nothing else. -/
theorem assignSpan_eq (hpositions : ws.positions = positionsOf order)
    (h : InRange order.length (ws.record r)) :
    assignSpan r ws =
      .ok () { ws with uses := ws.uses.insert r ((ws.record r).spanned order.idxOf) } := by
  obtain ⟨hwriter, hreaders, hcopyIn⟩ := h
  exact (bind_of_ok (mapM_positionOf_list hpositions hreaders)).trans
    ((bind_of_ok (mapM_positionOf_option hpositions hcopyIn)).trans
      (bind_of_ok (mapM_positionOf_option hpositions hwriter)))

/-- **Each record gets the positions of its first and last use.** -/
theorem assignSpans_eq (hpositions : ws.positions = positionsOf order)
    (h : ∀ r, InRange order.length (ws.record r)) :
    ws.uses.keys.toList.forM assignSpan ws =
      .ok () { ws with uses := ws.uses.map fun _ record => record.spanned order.idxOf } := by
  have hround : ∀ r ∈ ws.uses.keys.toList, ∀ uses : IdMap .resource UseRecord,
      (∀ s, InRange order.length (uses.getD s .blank)) →
        assignSpan r { ws with uses } = .ok () { ws with
          uses := uses.insert r ((uses.getD r .blank).spanned order.idxOf) } ∧
        ∀ s, InRange order.length
          ((uses.insert r ((uses.getD r .blank).spanned order.idxOf)).getD s .blank) := by
    intro r _ uses hinv
    refine ⟨assignSpan_eq hpositions (hinv r), fun s => ?_⟩
    rw [IdMap.getD_insert]
    split
    · exact hinv r
    · exact hinv s
  rw [← IdMap.foldl_insert_keys]
  exact forM_of_step (fun uses => { ws with uses })
    (fun uses r => uses.insert r ((uses.getD r .blank).spanned order.idxOf)) hround h

end Workspace

end FramePlan
