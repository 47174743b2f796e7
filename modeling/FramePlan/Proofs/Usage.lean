import FramePlan.Frame.Access
import FramePlan.Proofs.Outcome
import FramePlan.Usage

/-!
# The collected usage is the access of the passes

The usage table of a frame is put together pass by pass. `UsageTable.Uses` says what one pass adds
to the table, and the additions of a sequence of declarations add up.

* `UsageTable.describes_of_ofFrame` — writers, readers and copies of the table are those of the
  frame, and exactly the resources that passes or moves refer to have an entry.
* `UsageTable.Describes.mem_users` — the users of a resource are the passes that touch it.
-/

namespace FramePlan

namespace UsageTable

/-- From one table to the next, a pass reads, writes and copies into resources. -/
structure Uses (p : PassId) (read written copied : List ResourceId) (t u : UsageTable) : Prop where
  writer : ∀ r q, (u.usage r).writer = some q ↔
    (t.usage r).writer = some q ∨ q = p ∧ r ∈ written
  readers : ∀ r q, q ∈ (u.usage r).readers ↔ q ∈ (t.usage r).readers ∨ q = p ∧ r ∈ read
  copyIn : ∀ r q, (u.usage r).copyIn = some q ↔
    (t.usage r).copyIn = some q ∨ q = p ∧ r ∈ copied
  entry : ∀ r, u.uses.contains r ↔
    t.uses.contains r ∨ r ∈ read ∨ r ∈ written ∨ r ∈ copied

theorem contains_update {t : UsageTable} {r s : ResourceId} {change : Usage → Usage} :
    (t.update r change).uses.contains s ↔ s = r ∨ t.uses.contains s := by
  simp only [update, IdMap.contains, IdMap.get?_insert]
  by_cases h : s = r <;> simp [h]

namespace Uses

variable {p : PassId} {t u v : UsageTable} {r : ResourceId}

theorem refl : Uses p [] [] [] t t where
  writer := by simp
  readers := by simp
  copyIn := by simp
  entry := by simp

theorem trans {read read' written written' copied copied' : List ResourceId}
    (h : Uses p read written copied t u) (h' : Uses p read' written' copied' u v) :
    Uses p (read ++ read') (written ++ written') (copied ++ copied') t v where
  writer r q := by
    rw [h'.writer, h.writer, List.mem_append]
    tauto
  readers r q := by
    rw [h'.readers, h.readers, List.mem_append]
    tauto
  copyIn r q := by
    rw [h'.copyIn, h.copyIn, List.mem_append]
    tauto
  entry r := by
    rw [h'.entry, h.entry]
    simp only [List.mem_append]
    tauto

theorem addReader : Uses p [r] [] [] t (t.addReader p r) where
  writer s q := by
    by_cases h : s = r <;> simp [UsageTable.addReader, usage_update, h]
  readers s q := by
    by_cases h : s = r
    · subst h
      simp [UsageTable.addReader, usage_update, or_comm]
    · simp [UsageTable.addReader, usage_update, h]
  copyIn s q := by
    by_cases h : s = r <;> simp [UsageTable.addReader, usage_update, h]
  entry s := by
    simp only [UsageTable.addReader, contains_update]
    simp [or_comm]

theorem addReaders (rs : List ResourceId) :
    Uses p rs [] [] t (rs.foldl (UsageTable.addReader p) t) := by
  induction rs generalizing t with
  | nil => exact refl
  | cons r rs ih => exact addReader.trans ih

theorem addWriter (h : t.addWriter p r = .ok u) : Uses p [] [r] [] t u := by
  unfold UsageTable.addWriter at h
  split at h
  · next first hfirst =>
    split at h
    · next heq =>
      subst heq
      cases h
      have hentry : t.uses.contains r := by
        unfold usage IdMap.getD at hfirst
        unfold IdMap.contains
        cases hget : t.uses.get? r with
        | none => simp [hget, Usage.none] at hfirst
        | some _ => rfl
      refine ⟨fun s q => ?_, by simp, by simp, fun s => ?_⟩
      · constructor
        · exact Or.inl
        · rintro (h | ⟨rfl, hs⟩)
          · exact h
          · cases List.mem_singleton.mp hs
            exact hfirst
      · simp only [List.not_mem_nil, List.mem_singleton, false_or, or_false]
        constructor
        · exact Or.inl
        · rintro (h | rfl)
          · exact h
          · exact hentry
    · cases h
  · next hnone =>
    cases h
    refine ⟨fun s q => ?_, fun s q => ?_, fun s q => ?_, fun s => ?_⟩
    · by_cases h : s = r
      · subst h
        simp [usage_update, hnone, eq_comm]
      · simp [usage_update, h]
    · by_cases h : s = r <;> simp [usage_update, h]
    · by_cases h : s = r <;> simp [usage_update, h]
    · simp only [contains_update]
      simp [or_comm]

theorem addWriters {rs : List ResourceId} (h : rs.foldlM (UsageTable.addWriter p) t = .ok u) :
    Uses p [] rs [] t u :=
  foldlM_ok (I := fun pre u => Uses p [] pre [] t u)
    (fun _ _ _ _ _ _ hpre hstep => hpre.trans (addWriter hstep)) refl h

theorem addCopy {copied : ResourceId × ResourceId} (h : t.addCopy p copied = .ok u) :
    Uses p [copied.1] [] [copied.2] t u := by
  obtain ⟨src, dst⟩ := copied
  unfold UsageTable.addCopy at h
  simp only at h
  split at h
  · cases h
  · next hnone =>
    cases h
    have hread : Uses p [src] [] [] t (t.addReader p src) := addReader
    set w := t.addReader p src with hw
    have hcopy : Uses p [] [] [dst] w (w.update dst fun u => { u with copyIn := some p }) := by
      refine ⟨fun s q => ?_, fun s q => ?_, fun s q => ?_, fun s => ?_⟩
      · by_cases h : s = dst <;> simp [usage_update, h]
      · by_cases h : s = dst <;> simp [usage_update, h]
      · by_cases h : s = dst
        · subst h
          simp [usage_update, hnone, eq_comm]
        · simp [usage_update, h]
      · simp only [contains_update]
        simp [or_comm]
    -- The maps of copied pairs are beside what is said of usage.
    exact ⟨(hread.trans hcopy).writer, (hread.trans hcopy).readers, (hread.trans hcopy).copyIn,
      (hread.trans hcopy).entry⟩

theorem addCopies {cs : List (ResourceId × ResourceId)}
    (h : cs.foldlM (UsageTable.addCopy p) t = .ok u) :
    Uses p (cs.map (·.1)) [] (cs.map (·.2)) t u := by
  refine foldlM_ok (I := fun pre u => Uses p (pre.map (·.1)) [] (pre.map (·.2)) t u)
    (fun pre c post y z _ hpre hstep => ?_) refl h
  simpa using hpre.trans (addCopy hstep)

end Uses

/-- The table says of some passes how they use resources. -/
structure Collects (es : List (PassId × Pass)) (t : UsageTable) : Prop where
  writer : ∀ r p, (t.usage r).writer = some p ↔
    ∃ pass, (p, pass) ∈ es ∧ pass.kind = .general ∧ r ∈ pass.outputs
  readers : ∀ r p, p ∈ (t.usage r).readers ↔ ∃ pass, (p, pass) ∈ es ∧ r ∈ pass.inputs
  copyIn : ∀ r p, (t.usage r).copyIn = some p ↔
    ∃ pass, (p, pass) ∈ es ∧ pass.kind = .copy ∧ r ∈ pass.outputs
  entry : ∀ r, t.uses.contains r ↔ ∃ p pass, (p, pass) ∈ es ∧ r ∈ pass.resources

namespace Collects

variable {es : List (PassId × Pass)} {t u : UsageTable} {p : PassId} {pass : Pass}

theorem empty : Collects [] (∅ : UsageTable) where
  writer r p := by
    simp only [List.not_mem_nil, false_and, exists_false, iff_false]
    exact fun h => by cases h
  readers r p := by
    simp only [List.not_mem_nil, false_and, exists_false, iff_false]
    exact IdSet.not_mem_empty p
  copyIn r p := by
    simp only [List.not_mem_nil, false_and, exists_false, iff_false]
    exact fun h => by cases h
  entry r := by
    simp only [List.not_mem_nil, false_and, exists_false, iff_false]
    exact fun h => by cases h

/-- What one more pass adds, by the kind of the pass. -/
theorem snoc (h : Collects es t) (written copied : List ResourceId)
    (hwritten : ∀ r, r ∈ written ↔ pass.kind = .general ∧ r ∈ pass.outputs)
    (hcopied : ∀ r, r ∈ copied ↔ pass.kind = .copy ∧ r ∈ pass.outputs)
    (huses : Uses p pass.inputs written copied t u) : Collects (es ++ [(p, pass)]) u where
  writer r q := by
    rw [huses.writer, h.writer, hwritten]
    constructor
    · rintro (⟨other, hmem, hr⟩ | ⟨rfl, hr⟩)
      · exact ⟨other, List.mem_append_left _ hmem, hr⟩
      · exact ⟨pass, by simp, hr⟩
    · rintro ⟨other, hmem, hr⟩
      rcases List.mem_append.mp hmem with hmem | hmem
      · exact Or.inl ⟨other, hmem, hr⟩
      · cases List.mem_singleton.mp hmem
        exact Or.inr ⟨rfl, hr⟩
  readers r q := by
    rw [huses.readers, h.readers]
    constructor
    · rintro (⟨other, hmem, hr⟩ | ⟨rfl, hr⟩)
      · exact ⟨other, List.mem_append_left _ hmem, hr⟩
      · exact ⟨pass, by simp, hr⟩
    · rintro ⟨other, hmem, hr⟩
      rcases List.mem_append.mp hmem with hmem | hmem
      · exact Or.inl ⟨other, hmem, hr⟩
      · cases List.mem_singleton.mp hmem
        exact Or.inr ⟨rfl, hr⟩
  copyIn r q := by
    rw [huses.copyIn, h.copyIn, hcopied]
    constructor
    · rintro (⟨other, hmem, hr⟩ | ⟨rfl, hr⟩)
      · exact ⟨other, List.mem_append_left _ hmem, hr⟩
      · exact ⟨pass, by simp, hr⟩
    · rintro ⟨other, hmem, hr⟩
      rcases List.mem_append.mp hmem with hmem | hmem
      · exact Or.inl ⟨other, hmem, hr⟩
      · cases List.mem_singleton.mp hmem
        exact Or.inr ⟨rfl, hr⟩
  entry r := by
    rw [huses.entry, h.entry, hwritten, hcopied]
    constructor
    · rintro (⟨q, other, hmem, hr⟩ | hr)
      · exact ⟨q, other, List.mem_append_left _ hmem, hr⟩
      · refine ⟨p, pass, by simp, Pass.mem_resources.mpr ?_⟩
        rcases hr with hr | ⟨_, hr⟩ | ⟨_, hr⟩
        · exact Or.inl hr
        · exact Or.inr hr
        · exact Or.inr hr
    · rintro ⟨q, other, hmem, hr⟩
      rcases List.mem_append.mp hmem with hmem | hmem
      · exact Or.inl ⟨q, other, hmem, hr⟩
      · cases List.mem_singleton.mp hmem
        rcases Pass.mem_resources.mp hr with hr | hr
        · exact Or.inr (Or.inl hr)
        · cases hk : pass.kind with
          | general => exact Or.inr (Or.inr (Or.inl ⟨rfl, hr⟩))
          | copy => exact Or.inr (Or.inr (Or.inr ⟨rfl, hr⟩))

theorem addPass (h : Collects es t)
    (hcopy : pass.kind = .copy → pass.inputs.length = pass.outputs.length)
    (hok : t.addPass (p, pass) = .ok u) : Collects (es ++ [(p, pass)]) u := by
  unfold UsageTable.addPass at hok
  cases hk : pass.kind with
  | general =>
      simp only [hk] at hok
      refine h.snoc pass.outputs [] (by simp [hk]) (by simp [hk]) ?_
      simpa using (Uses.addReaders pass.inputs).trans (Uses.addWriters hok)
  | copy =>
      simp only [hk, Pass.copyPairs] at hok
      refine h.snoc [] pass.outputs (by simp [hk]) (by simp [hk]) ?_
      have hpairs := Uses.addCopies hok
      rwa [List.map_fst_zip (Nat.le_of_eq (hcopy hk)),
        List.map_snd_zip (Nat.le_of_eq (hcopy hk).symm)] at hpairs

end Collects

/-- The table is the usage of the frame: who writes, reads and copies into each resource, with an
entry for every resource that a pass or a move refers to. -/
structure Describes (t : UsageTable) (frame : Frame) : Prop where
  writer_iff : ∀ {r p}, (t.usage r).writer = some p ↔ frame.Writes p r
  mem_readers : ∀ {r p}, p ∈ (t.usage r).readers ↔ frame.Reads p r
  copyIn_iff : ∀ {r p}, (t.usage r).copyIn = some p ↔ frame.CopiesInto p r
  contains_iff : ∀ {r}, t.uses.contains r ↔
    (∃ p, frame.Touches p r) ∨ ∃ m ∈ frame.moves, r = m.src ∨ r = m.dst

theorem usage_addMove {t : UsageTable} {m : Move} {r : ResourceId} :
    (t.addMove m).usage r = t.usage r := by
  unfold addMove
  rw [usage_update, usage_update, usage_update]
  by_cases hd : r = m.dst <;> by_cases hs : r = m.src <;> by_cases hsd : m.dst = m.src <;>
    simp_all

theorem usage_addMoves (ms : List Move) {t : UsageTable} {r : ResourceId} :
    (ms.foldl addMove t).usage r = t.usage r := by
  induction ms generalizing t with
  | nil => rfl
  | cons m ms ih => rw [List.foldl_cons, ih, usage_addMove]

theorem contains_addMoves (ms : List Move) {t : UsageTable} {r : ResourceId} :
    (ms.foldl addMove t).uses.contains r ↔
      t.uses.contains r ∨ ∃ m ∈ ms, r = m.src ∨ r = m.dst := by
  induction ms generalizing t with
  | nil => simp
  | cons m ms ih =>
      rw [List.foldl_cons, ih]
      simp only [addMove, contains_update, List.mem_cons, exists_eq_or_imp]
      constructor
      · rintro ((h | h | h) | h)
        · exact Or.inr (Or.inl (Or.inr h))
        · exact Or.inr (Or.inl (Or.inl h))
        · exact Or.inl h
        · exact Or.inr (Or.inr h)
      · rintro (h | (h | h) | h)
        · exact Or.inl (Or.inr (Or.inr h))
        · exact Or.inl (Or.inr (Or.inl h))
        · exact Or.inl (Or.inl h)
        · exact Or.inr h

/-- What is collected after the first passes of a frame is how these use resources. -/
theorem collects_of_foldlM {frame : Frame} {es post : List (PassId × Pass)} {t : UsageTable}
    (hcopy : ∀ pass ∈ frame.passes, pass.kind = .copy →
      pass.inputs.length = pass.outputs.length)
    (hes : frame.passEntries = es ++ post) (h : es.foldlM addPass ∅ = .ok t) : Collects es t := by
  refine foldlM_ok (fun pre e rest y z hsplit hpre hstep => ?_) Collects.empty h
  have hmem : e ∈ frame.passEntries := by
    rw [hes, hsplit]
    simp
  exact hpre.addPass (hcopy e.2 (List.mem_of_getElem? (Frame.mem_passEntries.mp hmem))) hstep

theorem describes_of_ofFrame {frame : Frame} {t : UsageTable}
    (hcopy : ∀ pass ∈ frame.passes, pass.kind = .copy →
      pass.inputs.length = pass.outputs.length)
    (h : ofFrame frame = .ok t) : t.Describes frame := by
  obtain ⟨collected, hfold, rfl⟩ := except_map_ok.mp h
  have hc := collects_of_foldlM hcopy (List.append_nil _).symm hfold
  refine ⟨fun {r p} => ?_, fun {r p} => ?_, fun {r p} => ?_, fun {r} => ?_⟩
  · simp only [usage_addMoves, hc.writer, Frame.mem_passEntries]
    rfl
  · simp only [usage_addMoves, hc.readers, Frame.mem_passEntries]
    rfl
  · simp only [usage_addMoves, hc.copyIn, Frame.mem_passEntries]
    rfl
  · simp only [contains_addMoves, hc.entry, Frame.mem_passEntries]
    rfl

namespace Describes

variable {t : UsageTable} {frame : Frame} {p : PassId} {r : ResourceId}

theorem mem_users (h : t.Describes frame) : p ∈ (t.usage r).users ↔ frame.Touches p r := by
  rw [Usage.mem_users, h.writer_iff, h.mem_readers, h.copyIn_iff, Frame.touches_iff]
  tauto

theorem isTouched_iff (h : t.Describes frame) : t.isTouched r ↔ ∃ p, frame.Touches p r := by
  simp only [← h.mem_users, Usage.mem_users]
  unfold isTouched Usage.isTouched
  cases hw : (t.usage r).writer with
  | some w => simp
  | none =>
      cases hc : (t.usage r).copyIn with
      | some c => simp
      | none =>
          simp only [Option.isSome_none, Bool.false_or, Bool.or_false, Bool.not_eq_true',
            reduceCtorEq, false_or, or_false, ← IdSet.mem_toList]
          simp only [IdSet.isEmpty]
          cases (t.usage r).readers.toList with
          | nil => simp
          | cons q qs => simp

end Describes

end UsageTable

end FramePlan
