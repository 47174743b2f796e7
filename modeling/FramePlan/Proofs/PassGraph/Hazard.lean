import FramePlan.PassGraph.Hazard
import FramePlan.Proofs.PassGraph.Edges
import FramePlan.Proofs.Usage

/-!
# Hazards order the passes

What the edges of the hazard graph say about two passes that use the same storage.

* `PassGraph.closed_ofHazards` — edges lead between passes of the frame.
* `PassGraph.ofHazards_conflict` — of two passes that touch a resource, one precedes the other if
  one of them outputs it.
* `PassGraph.ofHazards_move` — the passes that touch the source of a move precede those that touch
  its destination.
-/

namespace FramePlan

/-! ### The users of one resource -/

namespace Usage

variable {u : Usage} {p q : PassId}

theorem isEmpty_readers : u.readers.isEmpty ↔ ∀ q, q ∉ u.readers := by
  simp only [IdSet.isEmpty, List.isEmpty_iff, List.eq_nil_iff_forall_not_mem, IdSet.mem_toList]

theorem mem_firstUsers : p ∈ u.firstUsers ↔ u.writer = some p ∨
    u.writer = .none ∧ (p ∈ u.readers ∨ (∀ q, q ∉ u.readers) ∧ u.copyIn = some p) := by
  unfold firstUsers
  cases hw : u.writer with
  | some w => simp [eq_comm]
  | none =>
      by_cases hempty : u.readers.isEmpty
      · have hnone := isEmpty_readers.mp hempty
        simp [hempty, hnone]
      · have hsome : ¬ ∀ q, q ∉ u.readers := fun h => hempty (isEmpty_readers.mpr h)
        simp [hempty, hsome, IdSet.mem_toList]

theorem mem_finalUsers : p ∈ u.finalUsers ↔ u.copyIn = some p ∨
    u.copyIn = .none ∧ (p ∈ u.readers ∨ (∀ q, q ∉ u.readers) ∧ u.writer = some p) := by
  unfold finalUsers
  cases hc : u.copyIn with
  | some c => simp [eq_comm]
  | none =>
      by_cases hempty : u.readers.isEmpty
      · have hnone := isEmpty_readers.mp hempty
        simp [hempty, hnone]
      · have hsome : ¬ ∀ q, q ∉ u.readers := fun h => hempty (isEmpty_readers.mpr h)
        simp [hempty, hsome, IdSet.mem_toList]

end Usage

namespace Hazard

variable {frame : Frame} {t : UsageTable} {moves : MoveTable} {u : Usage} {a b : PassId}

theorem mem_ofUsage : (a, b) ∈ ofUsage u ↔ u.writer = some a ∧ b ∈ u.readers ∨
    u.copyIn = some b ∧ (a ∈ u.readers ∨ (∀ q, q ∉ u.readers) ∧ u.writer = some a) := by
  unfold ofUsage
  simp only [List.mem_append]
  refine or_congr ?_ ?_
  · cases hw : u.writer with
    | some w => simp [IdSet.mem_toList, and_comm, eq_comm]
    | none => simp
  · cases hc : u.copyIn with
    | none => simp
    | some c =>
        have hempty : u.readers.toList.isEmpty ↔ ∀ q, q ∉ u.readers := Usage.isEmpty_readers
        by_cases h : ∀ q, q ∉ u.readers
        · have hmem : ∀ q, q ∉ u.readers.toList := h
          simp [hempty.mpr h, h, hmem, eq_comm, and_comm]
        · have hnot : ¬ u.readers.toList.isEmpty := fun he => h (hempty.mp he)
          simp only [hnot, h, IdSet.mem_toList, List.mem_append, List.mem_map, Prod.mk.injEq,
            Option.some.injEq, false_and, or_false, if_false, List.not_mem_nil, Bool.false_eq_true]
          constructor
          · rintro ⟨reader, hreader, rfl, heq⟩
            exact ⟨heq, hreader⟩
          · rintro ⟨heq, hreader⟩
            exact ⟨a, hreader, rfl, heq⟩

theorem mem_ofCopies : (a, b) ∈ ofCopies frame t ↔ ∃ r pass copy,
    frame.pass? a = some pass ∧ pass.kind = .general ∧ a ∈ (t.usage r).readers ∧
      frame.pass? b = some copy ∧ copy.kind = .copy ∧ r ∈ copy.inputs := by
  unfold ofCopies
  simp only [List.mem_flatMap, List.mem_filter, List.mem_map, Prod.exists, Prod.mk.injEq,
    Frame.mem_passEntries, IdSet.mem_toList, Option.any_eq_true, Pass.isCopy, Pass.isGeneral,
    decide_eq_true_eq]
  constructor
  · rintro ⟨_, copy, ⟨hcopy, hkind⟩, r, hr, _, ⟨hreader, pass, hpass, hgeneral⟩, rfl, rfl⟩
    exact ⟨r, pass, copy, hpass, hgeneral, hreader, hcopy, hkind, hr⟩
  · rintro ⟨r, pass, copy, hpass, hgeneral, hreader, hcopy, hkind, hr⟩
    exact ⟨b, copy, ⟨hcopy, hkind⟩, r, hr, a, ⟨hreader, pass, hpass, hgeneral⟩, rfl, rfl⟩

theorem mem_ofMove {src dst : ResourceId} : (a, b) ∈ ofMove t src dst ↔
    a ∈ (t.usage src).finalUsers ∧ b ∈ (t.usage dst).firstUsers := by
  simp [ofMove]

theorem mem_edges : (a, b) ∈ edges frame t moves ↔
    (∃ r v, t.uses.get? r = some v ∧ (a, b) ∈ ofUsage v) ∨ (a, b) ∈ ofCopies frame t ∨
      ∃ src dst, moves.forward.get? src = some dst ∧ (a, b) ∈ ofMove t src dst := by
  unfold edges
  simp only [List.mem_append, List.mem_flatMap, Prod.exists, IdMap.mem_entries, or_assoc]

end Hazard

namespace PassGraph

variable {frame : Frame} {t : UsageTable} {moves : MoveTable} {p q : PassId} {r : ResourceId}

theorem hasEdge_ofHazards :
    (ofHazards frame t moves).hasEdge p q ↔ (p, q) ∈ Hazard.edges frame t moves := by
  unfold ofHazards
  rw [hasEdge_addEdges]
  exact or_iff_left not_hasEdge_edgeless

/-- The usage of a resource orders its users. -/
theorem hasEdge_of_usage (h : (p, q) ∈ Hazard.ofUsage (t.usage r)) :
    (ofHazards frame t moves).hasEdge p q := by
  refine hasEdge_ofHazards.mpr (Hazard.mem_edges.mpr (Or.inl ?_))
  unfold UsageTable.usage IdMap.getD at h
  cases hget : t.uses.get? r with
  | some v =>
      rw [hget] at h
      exact ⟨r, v, hget, h⟩
  | none =>
      rw [hget] at h
      have : (Usage.none.writer = some p ∧ _) ∨ _ := Hazard.mem_ofUsage.mp h
      simp [Usage.none] at this

section Described

variable (h : t.Describes frame)

include h

theorem touches_of_mem_finalUsers (hp : p ∈ (t.usage r).finalUsers) : frame.Touches p r := by
  refine h.mem_users.mp (Usage.mem_users.mpr ?_)
  rcases Usage.mem_finalUsers.mp hp with hp | ⟨_, hp | ⟨_, hp⟩⟩
  · exact Or.inr (Or.inr hp)
  · exact Or.inr (Or.inl hp)
  · exact Or.inl hp

theorem touches_of_mem_firstUsers (hp : p ∈ (t.usage r).firstUsers) : frame.Touches p r := by
  refine h.mem_users.mp (Usage.mem_users.mpr ?_)
  rcases Usage.mem_firstUsers.mp hp with hp | ⟨_, hp | ⟨_, hp⟩⟩
  · exact Or.inl hp
  · exact Or.inr (Or.inl hp)
  · exact Or.inr (Or.inr hp)

/-- Both ends of an edge touch some resource. -/
theorem touches_of_hasEdge (hpq : (ofHazards frame t moves).hasEdge p q) :
    (∃ r, frame.Touches p r) ∧ ∃ r, frame.Touches q r := by
  rcases Hazard.mem_edges.mp (hasEdge_ofHazards.mp hpq) with
    ⟨r, v, hv, hpq⟩ | hpq | ⟨src, dst, _, hpq⟩
  · have husage : t.usage r = v := by
      unfold UsageTable.usage IdMap.getD
      rw [hv]
      rfl
    have huser : ∀ {x}, x ∈ v.users → ∃ r, frame.Touches x r := fun hx =>
      ⟨r, h.mem_users.mp (husage ▸ hx)⟩
    rcases Hazard.mem_ofUsage.mp hpq with ⟨hp, hq⟩ | ⟨hq, hp⟩
    · exact ⟨huser (Usage.mem_users.mpr (Or.inl hp)),
        huser (Usage.mem_users.mpr (Or.inr (Or.inl hq)))⟩
    · refine ⟨huser (Usage.mem_users.mpr ?_), huser (Usage.mem_users.mpr (Or.inr (Or.inr hq)))⟩
      rcases hp with hp | ⟨_, hp⟩
      · exact Or.inr (Or.inl hp)
      · exact Or.inl hp
  · obtain ⟨r, _, copy, _, _, hp, hcopy, _, hq⟩ := Hazard.mem_ofCopies.mp hpq
    exact ⟨⟨r, (h.mem_readers.mp hp).touches⟩, ⟨r, Frame.Reads.touches ⟨copy, hcopy, hq⟩⟩⟩
  · obtain ⟨hp, hq⟩ := Hazard.mem_ofMove.mp hpq
    exact ⟨⟨src, touches_of_mem_finalUsers h hp⟩, ⟨dst, touches_of_mem_firstUsers h hq⟩⟩

omit h in
theorem index_lt_of_touches (hp : frame.Touches p r) : p.index < frame.passes.length := by
  obtain ⟨pass, hpass, _⟩ := hp
  exact Frame.exists_pass_iff.mp ⟨pass, hpass⟩

theorem mem_passes_ofHazards :
    p ∈ (ofHazards frame t moves).passes ↔ p.index < frame.passes.length := by
  unfold ofHazards
  rw [mem_passes_addEdges, mem_passes_edgeless]
  intro e he
  obtain ⟨⟨r, hr⟩, _⟩ := touches_of_hasEdge h (hasEdge_ofHazards.mpr he)
  exact mem_passes_edgeless.mpr (index_lt_of_touches hr)

theorem closed_ofHazards : (ofHazards frame t moves).Closed := by
  intro p q hpq
  obtain ⟨_, r, hr⟩ := touches_of_hasEdge h hpq
  exact (mem_passes_ofHazards h).mpr (index_lt_of_touches hr)

/-- The writer of a resource precedes its copy-in, by way of the readers if there are any. -/
theorem writer_precedes_copyIn (hp : frame.Writes p r) (hq : frame.CopiesInto q r) :
    (ofHazards frame t moves).Precedes p q := by
  have hwriter := h.writer_iff.mpr hp
  have hcopy := h.copyIn_iff.mpr hq
  by_cases hempty : ∀ x, x ∉ (t.usage r).readers
  · exact .of_hasEdge (hasEdge_of_usage
      (Hazard.mem_ofUsage.mpr (Or.inr ⟨hcopy, Or.inr ⟨hempty, hwriter⟩⟩)))
  · obtain ⟨reader, hreader⟩ : ∃ x, x ∈ (t.usage r).readers := by simpa using hempty
    have hfirst : (ofHazards frame t moves).hasEdge p reader :=
      hasEdge_of_usage (Hazard.mem_ofUsage.mpr (Or.inl ⟨hwriter, hreader⟩))
    have hsecond : (ofHazards frame t moves).hasEdge reader q :=
      hasEdge_of_usage (Hazard.mem_ofUsage.mpr (Or.inr ⟨hcopy, Or.inl hreader⟩))
    exact (Precedes.of_hasEdge hfirst).trans (.of_hasEdge hsecond)

theorem writer_precedes_reader (hp : frame.Writes p r) (hq : frame.Reads q r) :
    (ofHazards frame t moves).Precedes p q :=
  .of_hasEdge (hasEdge_of_usage
    (Hazard.mem_ofUsage.mpr (Or.inl ⟨h.writer_iff.mpr hp, h.mem_readers.mpr hq⟩)))

theorem reader_precedes_copyIn (hp : frame.Reads p r) (hq : frame.CopiesInto q r) :
    (ofHazards frame t moves).Precedes p q :=
  .of_hasEdge (hasEdge_of_usage
    (Hazard.mem_ofUsage.mpr (Or.inr ⟨h.copyIn_iff.mpr hq, Or.inl (h.mem_readers.mpr hp)⟩)))

theorem writer_unique (hp : frame.Writes p r) (hq : frame.Writes q r) : p = q := by
  have hpq := (h.writer_iff.mpr hp).symm.trans (h.writer_iff.mpr hq)
  exact Option.some.inj hpq

theorem copyIn_unique (hp : frame.CopiesInto p r) (hq : frame.CopiesInto q r) : p = q := by
  have hpq := (h.copyIn_iff.mpr hp).symm.trans (h.copyIn_iff.mpr hq)
  exact Option.some.inj hpq

/-- **Two passes that touch a resource, of which one outputs it, are ordered.** -/
theorem ofHazards_conflict (hne : p ≠ q) (hp : frame.Outputs p r) (hq : frame.Touches q r) :
    (ofHazards frame t moves).Precedes p q ∨ (ofHazards frame t moves).Precedes q p := by
  rcases Frame.outputs_iff.mp hp with hp | hp
  · rcases Frame.touches_iff.mp hq with hq | hq | hq
    · exact Or.inl (writer_precedes_reader h hp hq)
    · exact absurd (writer_unique h hp hq) hne
    · exact Or.inl (writer_precedes_copyIn h hp hq)
  · rcases Frame.touches_iff.mp hq with hq | hq | hq
    · exact Or.inr (reader_precedes_copyIn h hq hp)
    · exact Or.inr (writer_precedes_copyIn h hq hp)
    · exact absurd (copyIn_unique h hp hq) hne

/-- Each user of a resource is one of the first or comes after one of them. -/
theorem exists_firstUser (moves : MoveTable) (hp : frame.Touches p r) :
    ∃ f ∈ (t.usage r).firstUsers, f = p ∨ (ofHazards frame t moves).Precedes f p := by
  cases hw : (t.usage r).writer with
  | some w =>
      have hwrites := h.writer_iff.mp hw
      refine ⟨w, Usage.mem_firstUsers.mpr (Or.inl hw), ?_⟩
      rcases Frame.touches_iff.mp hp with hp | hp | hp
      · exact Or.inr (writer_precedes_reader h hwrites hp)
      · exact Or.inl (writer_unique h hwrites hp)
      · exact Or.inr (writer_precedes_copyIn h hwrites hp)
  | none =>
      rcases Frame.touches_iff.mp hp with hp | hp | hp
      · exact ⟨p, Usage.mem_firstUsers.mpr (Or.inr ⟨hw, Or.inl (h.mem_readers.mpr hp)⟩),
          Or.inl rfl⟩
      · rw [h.writer_iff.mpr hp] at hw
        cases hw
      · by_cases hempty : ∀ x, x ∉ (t.usage r).readers
        · exact ⟨p, Usage.mem_firstUsers.mpr
            (Or.inr ⟨hw, Or.inr ⟨hempty, h.copyIn_iff.mpr hp⟩⟩), Or.inl rfl⟩
        · obtain ⟨reader, hreader⟩ : ∃ x, x ∈ (t.usage r).readers := by simpa using hempty
          exact ⟨reader, Usage.mem_firstUsers.mpr (Or.inr ⟨hw, Or.inl hreader⟩),
            Or.inr (reader_precedes_copyIn h (h.mem_readers.mp hreader) hp)⟩

/-- Each user of a resource is one of the last or comes before one of them. -/
theorem exists_finalUser (moves : MoveTable) (hp : frame.Touches p r) :
    ∃ l ∈ (t.usage r).finalUsers, p = l ∨ (ofHazards frame t moves).Precedes p l := by
  cases hc : (t.usage r).copyIn with
  | some c =>
      have hcopies := h.copyIn_iff.mp hc
      refine ⟨c, Usage.mem_finalUsers.mpr (Or.inl hc), ?_⟩
      rcases Frame.touches_iff.mp hp with hp | hp | hp
      · exact Or.inr (reader_precedes_copyIn h hp hcopies)
      · exact Or.inr (writer_precedes_copyIn h hp hcopies)
      · exact Or.inl (copyIn_unique h hp hcopies)
  | none =>
      rcases Frame.touches_iff.mp hp with hp | hp | hp
      · exact ⟨p, Usage.mem_finalUsers.mpr (Or.inr ⟨hc, Or.inl (h.mem_readers.mpr hp)⟩),
          Or.inl rfl⟩
      · by_cases hempty : ∀ x, x ∉ (t.usage r).readers
        · exact ⟨p, Usage.mem_finalUsers.mpr
            (Or.inr ⟨hc, Or.inr ⟨hempty, h.writer_iff.mpr hp⟩⟩), Or.inl rfl⟩
        · obtain ⟨reader, hreader⟩ : ∃ x, x ∈ (t.usage r).readers := by simpa using hempty
          exact ⟨reader, Usage.mem_finalUsers.mpr (Or.inr ⟨hc, Or.inl hreader⟩),
            Or.inr (writer_precedes_reader h hp (h.mem_readers.mp hreader))⟩
      · rw [h.copyIn_iff.mpr hp] at hc
        cases hc

/-- **A pass that touches the source of a move precedes one that touches its destination.** -/
theorem ofHazards_move {src dst : ResourceId} (hmove : moves.forward.get? src = some dst)
    (hp : frame.Touches p src) (hq : frame.Touches q dst) :
    (ofHazards frame t moves).Precedes p q := by
  obtain ⟨l, hl, hpl⟩ := exists_finalUser h moves hp
  obtain ⟨f, hf, hfq⟩ := exists_firstUser h moves hq
  have hlf : (ofHazards frame t moves).Precedes l f :=
    .of_hasEdge (hasEdge_ofHazards.mpr (Hazard.mem_edges.mpr
      (Or.inr (Or.inr ⟨src, dst, hmove, Hazard.mem_ofMove.mpr ⟨hl, hf⟩⟩))))
  have hpf : (ofHazards frame t moves).Precedes p f := by
    rcases hpl with rfl | hpl
    · exact hlf
    · exact hpl.trans hlf
  rcases hfq with rfl | hfq
  · exact hpf
  · exact hpf.trans hfq

end Described

end PassGraph

end FramePlan
