import FramePlan.Proofs.Usage

/-!
# The collected copies are those of the passes

Beside the usage of resources, the usage table holds what is copied where, keyed by either end. A
copy is only added to a destination that nothing is copied into so far, so the entry of a
destination is never replaced.

* `UsageTable.describesCopies_of_ofFrame` — the two maps hold the copies of the frame.
-/

namespace FramePlan

namespace UsageTable

/-- The table holds these copies, and the usage of each destination says that it is one. -/
structure Copied (cs : List (ResourceId × ResourceId)) (t : UsageTable) : Prop where
  copiesIn : ∀ s d, t.copiesIn.get? d = some s ↔ (s, d) ∈ cs
  copiesOut : ∀ s d, d ∈ t.copiesOut.getD s ∅ ↔ (s, d) ∈ cs
  contains : ∀ s, t.copiesOut.contains s ↔ ∃ d, (s, d) ∈ cs
  copyIn : ∀ s d, (s, d) ∈ cs → ∃ p, (t.usage d).copyIn = some p

/-- Both maps are as they were. -/
def SameCopies (t u : UsageTable) : Prop := u.copiesIn = t.copiesIn ∧ u.copiesOut = t.copiesOut

namespace Copied

variable {cs : List (ResourceId × ResourceId)} {t u : UsageTable} {p : PassId} {pass : Pass}

theorem empty : Copied [] (∅ : UsageTable) where
  copiesIn _ _ := iff_of_false (fun h => by cases h) List.not_mem_nil
  copiesOut _ d := iff_of_false (IdSet.not_mem_empty d) List.not_mem_nil
  contains _ := iff_of_false Bool.false_ne_true fun ⟨_, h⟩ => List.not_mem_nil h
  copyIn _ _ h := absurd h List.not_mem_nil

/-- What adds no copy keeps the copies. -/
theorem congr (h : Copied cs t) (hsame : SameCopies t u)
    (hcopyIn : ∀ r q, (t.usage r).copyIn = some q → (u.usage r).copyIn = some q) :
    Copied cs u where
  copiesIn s d := by rw [hsame.1, h.copiesIn]
  copiesOut s d := by rw [hsame.2, h.copiesOut]
  contains s := by rw [hsame.2, h.contains]
  copyIn s d hmem := by
    obtain ⟨q, hq⟩ := h.copyIn s d hmem
    exact ⟨q, hcopyIn d q hq⟩

theorem addCopy {src dst : ResourceId} (h : Copied cs t)
    (hok : t.addCopy p (src, dst) = .ok u) : Copied (cs ++ [(src, dst)]) u := by
  have huses := Uses.addCopy hok
  unfold UsageTable.addCopy at hok
  simp only at hok
  split at hok
  · cases hok
  · next hnone =>
    -- the destination is new, so no entry is replaced
    have hnew : ∀ s, (s, dst) ∉ cs := by
      intro s hmem
      obtain ⟨q, hq⟩ := h.copyIn s dst hmem
      have hread : Uses p [src] [] [] t (t.addReader p src) := .addReader
      cases hnone.symm.trans ((hread.copyIn dst q).mpr (Or.inl hq))
    cases hok
    refine ⟨fun s d => ?_, fun s d => ?_, fun s => ?_, fun s d hmem => ?_⟩
    · show (t.copiesIn.insert dst src).get? d = some s ↔ _
      rw [IdMap.get?_insert, List.mem_append, List.mem_singleton, ← h.copiesIn]
      by_cases hd : d = dst
      · subst hd
        have hgone : t.copiesIn.get? d ≠ some s := fun hs => hnew s ((h.copiesIn s d).mp hs)
        simp [hgone, eq_comm]
      · simp [hd]
    · show d ∈ (t.copiesOut.insert src ((t.copiesOut.getD src ∅).insert dst)).getD s ∅ ↔ _
      rw [IdMap.getD_insert, List.mem_append, List.mem_singleton, ← h.copiesOut]
      by_cases hs : s = src
      · simp [hs, or_comm]
      · simp [hs]
    · show (t.copiesOut.insert src ((t.copiesOut.getD src ∅).insert dst)).contains s ↔ _
      rw [IdMap.contains, IdMap.get?_insert]
      simp only [List.mem_append, List.mem_singleton, exists_or, ← h.contains, IdMap.contains]
      by_cases hs : s = src <;> simp [hs]
    · rcases List.mem_append.mp hmem with hmem | hmem
      · obtain ⟨q, hq⟩ := h.copyIn s d hmem
        exact ⟨q, (huses.copyIn d q).mpr (Or.inl hq)⟩
      · cases List.mem_singleton.mp hmem
        exact ⟨p, (huses.copyIn dst p).mpr (Or.inr ⟨rfl, List.mem_singleton.mpr rfl⟩)⟩

theorem sameCopies_addReaders (rs : List ResourceId) :
    SameCopies t (rs.foldl (addReader p) t) := by
  induction rs generalizing t with
  | nil => exact ⟨rfl, rfl⟩
  | cons r rs ih => exact ih (t := t.addReader p r)

theorem sameCopies_addWriters {rs : List ResourceId} (h : rs.foldlM (addWriter p) t = .ok u) :
    SameCopies t u := by
  refine foldlM_ok (I := fun _ u => SameCopies t u) (fun pre r post y z _ hpre hstep => ?_)
    ⟨rfl, rfl⟩ h
  unfold addWriter at hstep
  split at hstep
  · split at hstep
    · cases hstep
      exact hpre
    · cases hstep
  · cases hstep
    exact hpre

/-- What one more pass copies. -/
theorem addPass (h : Copied cs t) (hok : t.addPass (p, pass) = .ok u) :
    Copied (cs ++ pass.copyPairs) u := by
  unfold UsageTable.addPass at hok
  rw [Pass.copyPairs]
  cases hk : pass.kind with
  | general =>
      simp only [hk] at hok
      have huses := (Uses.addReaders (t := t) (p := p) pass.inputs).trans (Uses.addWriters hok)
      have hread := sameCopies_addReaders (t := t) (p := p) pass.inputs
      have hwritten := sameCopies_addWriters hok
      rw [List.append_nil]
      exact h.congr ⟨hwritten.1.trans hread.1, hwritten.2.trans hread.2⟩ fun r q hq =>
        (huses.copyIn r q).mpr (Or.inl hq)
  | copy =>
      simp only [hk, Pass.copyPairs] at hok
      refine foldlM_ok (I := fun pre u => Copied (cs ++ pre) u)
        (fun pre c post y z _ hpre hstep => ?_) ?_ hok
      · rw [← List.append_assoc]
        exact hpre.addCopy hstep
      · rwa [List.append_nil]

end Copied

/-- The table holds the copies of the frame, by their sources and by their destinations. -/
structure DescribesCopies (t : UsageTable) (frame : Frame) : Prop where
  copiesIn_iff : ∀ {s d}, t.copiesIn.get? d = some s ↔ ∃ p, frame.Copies p s d
  mem_copiesOut : ∀ {s d}, d ∈ t.copiesOut.getD s ∅ ↔ ∃ p, frame.Copies p s d
  /-- Only sources of copies have an entry. -/
  contains_copiesOut : ∀ {s}, t.copiesOut.contains s ↔ ∃ d p, frame.Copies p s d

theorem sameCopies_addMoves (ms : List Move) {t : UsageTable} :
    SameCopies t (ms.foldl addMove t) := by
  induction ms generalizing t with
  | nil => exact ⟨rfl, rfl⟩
  | cons m ms ih => exact ih (t := t.addMove m)

/-- **The table of a frame holds the copies of its passes.** -/
theorem describesCopies_of_ofFrame {frame : Frame} {t : UsageTable} (h : ofFrame frame = .ok t) :
    t.DescribesCopies frame := by
  obtain ⟨collected, hfold, rfl⟩ := except_map_ok.mp h
  have hcopied : Copied (frame.passEntries.flatMap (·.2.copyPairs)) collected := by
    refine foldlM_ok (I := fun pre u => Copied (pre.flatMap (·.2.copyPairs)) u)
      (fun pre e post y z _ hpre hstep => ?_) Copied.empty hfold
    rw [List.flatMap_append, List.flatMap_singleton]
    exact hpre.addPass hstep
  have hpairs : ∀ s d, (s, d) ∈ frame.passEntries.flatMap (·.2.copyPairs) ↔
      ∃ p, frame.Copies p s d := by
    intro s d
    rw [List.mem_flatMap]
    constructor
    · rintro ⟨⟨p, pass⟩, hentry, hmem⟩
      exact ⟨p, pass, Frame.mem_passEntries.mp hentry, hmem⟩
    · rintro ⟨p, pass, hpass, hmem⟩
      exact ⟨(p, pass), Frame.mem_passEntries.mpr hpass, hmem⟩
  have hmoves := sameCopies_addMoves frame.moves (t := collected)
  refine ⟨fun {s d} => ?_, fun {s d} => ?_, fun {s} => ?_⟩
  · rw [hmoves.1, hcopied.copiesIn, hpairs]
  · rw [hmoves.2, hcopied.copiesOut, hpairs]
  · rw [hmoves.2, hcopied.contains]
    exact exists_congr fun d => hpairs s d

namespace DescribesCopies

variable {t : UsageTable} {frame : Frame} {s : ResourceId}

/-- The destinations of a source, if there are any. -/
theorem get?_copiesOut (h : t.DescribesCopies frame) {ds : IdSet .resource} :
    t.copiesOut.get? s = some ds ↔ (∃ d p, frame.Copies p s d) ∧
      ∀ d, d ∈ ds ↔ ∃ p, frame.Copies p s d := by
  rw [← h.contains_copiesOut]
  simp only [← h.mem_copiesOut, IdMap.contains, IdMap.getD]
  cases t.copiesOut.get? s with
  | none => simp
  | some es => simp [IdSet.ext_iff, iff_comm]

end DescribesCopies

end UsageTable

end FramePlan
