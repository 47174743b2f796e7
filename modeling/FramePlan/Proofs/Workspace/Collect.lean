import FramePlan.Plan.Workspace
import FramePlan.Proofs.IdMap
import FramePlan.Proofs.Usage

/-!
# Uses taken down in place

The first phase of planning in place appends each reader to the record of the resource that it
reads. It comes by the passes in ascending order, so the readers of a record ascend without being
sorted, and a pass that names a resource again is the last reader of it.

* `Workspace.collectUses_mirrors` — what is taken down is the usage table of the frame, or the
  phase stops with the error of the table, when something was written already.
-/

namespace FramePlan

namespace IdSet

variable {k : NodeKind} {i : NodeId k} {s : IdSet k}

theorem insertInto_of_forall_lt {is : List (NodeId k)} (h : ∀ j ∈ is, j.index < i.index) :
    insertInto i is = is ++ [i] := by
  induction is with
  | nil => rfl
  | cons j rest ih =>
      have hj := h j (List.mem_cons_self ..)
      have hne : i ≠ j := fun heq => Nat.lt_irrefl _ (heq ▸ hj)
      rw [insertInto, if_neg (Nat.lt_asymm hj), if_neg hne,
        ih fun l hl => h l (List.mem_cons_of_mem _ hl)]
      rfl

theorem insert_of_mem (h : i ∈ s) : s.insert i = s := by
  ext j
  rw [mem_insert]
  constructor
  · rintro (rfl | hj)
    · exact h
    · exact hj
  · exact Or.inr

/-- What is at least as great as all members comes at the end, unless it is there already. -/
theorem toList_insert_of_le (h : ∀ j ∈ s, j.index ≤ i.index) :
    (s.insert i).toList = if i ∈ s then s.toList else s.toList ++ [i] := by
  by_cases hi : i ∈ s
  · rw [if_pos hi, insert_of_mem hi]
  · rw [if_neg hi]
    refine insertInto_of_forall_lt fun j hj => ?_
    have hne : j.index ≠ i.index := fun heq => hi (NodeId.ext heq ▸ hj)
    exact Nat.lt_of_le_of_ne (h j hj) hne

theorem ofList_toList : ofList s.toList = s := by
  ext i
  rw [mem_ofList, mem_toList]

end IdSet

/-- The record of a usage, without positions. -/
def UseRecord.ofUsage (u : Usage) : UseRecord := ⟨u.writer, u.readers.toList, u.copyIn, none, none⟩

theorem UseRecord.usage_ofUsage (u : Usage) : (UseRecord.ofUsage u).usage = u := by
  rw [usage, ofUsage, IdSet.ofList_toList]

namespace Workspace

/-- The workspace in which nothing but a usage table is taken down. -/
def collected (t : UsageTable) : Workspace :=
  { empty with
    uses := t.uses.map fun _ u => .ofUsage u
    copiesIn := t.copiesIn
    copiesOut := t.copiesOut }

/-- Some resource has a record. -/
def Written (ws : Workspace) : Prop := ∃ r, ws.uses.contains r

/-- Where a table is taken down, the action takes down the result instead, or stops with its error
when something is written. -/
def Mirrors (act : EStateM Stop Workspace Unit) (t : UsageTable) :
    Except PlanError UsageTable → Prop
  | .ok u => act (collected t) = .ok () (collected u)
  | .error cause => ∃ left, act (collected t) = .error (.refused cause) left ∧ left.Written

variable {t u : UsageTable} {p : PassId} {r : ResourceId}

/-! ### Records -/

theorem record_collected : (collected t).record r = .ofUsage (t.usage r) := by
  unfold record collected IdMap.getD UsageTable.usage IdMap.getD
  rw [IdMap.get?_map]
  cases t.uses.get? r <;> rfl

theorem table_collected : (collected t).table = t := by
  have huses : (t.uses.map fun _ u => UseRecord.ofUsage u).map (fun _ record => record.usage) =
      t.uses := by
    ext1 r
    rw [IdMap.get?_map, IdMap.get?_map]
    cases t.uses.get? r with
    | none => rfl
    | some u => exact congrArg some (UseRecord.usage_ofUsage u)
  exact congrArg (UsageTable.mk · t.copiesIn t.copiesOut) huses

theorem written_collected (h : t.uses.contains r) : (collected t).Written := by
  obtain ⟨u, hu⟩ := IdMap.contains_iff.mp h
  refine ⟨r, ?_⟩
  unfold collected IdMap.contains
  rw [IdMap.get?_map, hu]
  rfl

/-- What is used has an entry. -/
theorem contains_of_usage (h : t.usage r ≠ .none) : t.uses.contains r := by
  rw [IdMap.contains_iff]
  cases hget : t.uses.get? r with
  | some u => exact ⟨u, rfl⟩
  | none =>
      refine absurd ?_ h
      rw [UsageTable.usage, IdMap.getD, hget]
      rfl

/-- A change of a record is a change of the usage that it records. -/
theorem changeRecord_collected {change : UseRecord → UseRecord} {f : Usage → Usage}
    (h : change (.ofUsage (t.usage r)) = .ofUsage (f (t.usage r))) :
    changeRecord r change (collected t) = .ok () (collected (t.update r f)) := by
  have huses : (collected t).uses.insert r (change ((collected t).record r)) =
      (t.update r f).uses.map fun _ u => .ofUsage u := by
    rw [record_collected, h, UsageTable.update, IdMap.map_insert]
    rfl
  exact congrArg (fun uses => EStateM.Result.ok () { collected t with uses }) huses

/-! ### One use after another -/

/-- No reader comes after the pass at that index. -/
def ReadersUpTo (n : Nat) (t : UsageTable) : Prop :=
  ∀ r, ∀ q ∈ (t.usage r).readers, q.index ≤ n

theorem ReadersUpTo.uses {n : Nat} {read written copied : List ResourceId}
    (h : ReadersUpTo n t) (hp : p.index ≤ n)
    (huses : UsageTable.Uses p read written copied t u) : ReadersUpTo n u := by
  intro r q hq
  rcases (huses.readers r q).mp hq with hq | ⟨rfl, _⟩
  · exact h r q hq
  · exact hp

theorem addReader_collected (h : ReadersUpTo p.index t) :
    addReader p r (collected t) = .ok () (collected (t.addReader p r)) := by
  apply changeRecord_collected
  rw [UseRecord.addReader, UseRecord.ofUsage, UseRecord.ofUsage, IdSet.toList_insert_of_le (h r)]
  by_cases hp : p ∈ (t.usage r).readers
  · rw [if_pos hp, if_pos (List.contains_iff_mem.mpr hp)]
  · rw [if_neg hp, if_neg fun hin => hp (List.contains_iff_mem.mp hin)]

/-- A resource that is entered already is not entered anew. -/
theorem update_id (h : t.uses.contains r) : t.update r id = t := by
  obtain ⟨u, hu⟩ := IdMap.contains_iff.mp h
  have hsame : t.uses.insert r (t.usage r) = t.uses := by
    apply IdMap.insert_self
    rw [UsageTable.usage, IdMap.getD, hu]
    rfl
  unfold UsageTable.update
  rw [id_eq, hsame]

theorem update_update {f g : Usage → Usage} :
    (t.update r f).update r g = t.update r fun u => g (f u) := by
  have husage : (t.update r f).usage r = f (t.usage r) := by
    rw [UsageTable.usage_update, if_pos rfl]
  have huses : (t.uses.insert r (f (t.usage r))).insert r (g (f (t.usage r))) =
      t.uses.insert r (g (f (t.usage r))) := by
    ext1 s
    simp only [IdMap.get?_insert]
    split <;> rfl
  calc (t.update r f).update r g
      = { t with uses :=
            (t.uses.insert r (f (t.usage r))).insert r (g ((t.update r f).usage r)) } := rfl
    _ = t.update r fun u => g (f u) := by
        rw [husage, huses]
        rfl

theorem usage_update_self {f : Usage → Usage} : (t.update r f).usage r = f (t.usage r) := by
  rw [UsageTable.usage_update, if_pos rfl]

theorem enter_collected : changeRecord r id (collected t) = .ok () (collected (t.update r id)) :=
  changeRecord_collected rfl

/-- The record of a resource that was just entered is changed. -/
theorem setRecord_collected {change : UseRecord → UseRecord} {f : Usage → Usage}
    (h : ∀ u, change (.ofUsage u) = .ofUsage (f u)) :
    changeRecord r change (collected (t.update r id)) = .ok () (collected (t.update r f)) := by
  rw [changeRecord_collected (h _), update_update]
  rfl

theorem update_congr {f g : Usage → Usage} (h : f (t.usage r) = g (t.usage r)) :
    t.update r f = t.update r g := by
  rw [UsageTable.update, UsageTable.update, h]

/-! ### Outputs -/

variable {ws : Workspace} {first : PassId}

theorem checkWriter_of_free (h : (ws.record r).writer = none ∨ (ws.record r).writer = some p) :
    checkWriter p r ws = .ok () ws := by
  unfold checkWriter
  rw [get_bind]
  rcases h with h | h
  · rw [h]
    rfl
  · simp only [h, if_pos]
    rfl

theorem checkWriter_of_taken (h : (ws.record r).writer = some first) (hne : first ≠ p) :
    checkWriter p r ws = .error (.refused (.multipleWriters r first p)) ws := by
  unfold checkWriter
  rw [get_bind]
  simp only [h, if_neg hne]
  rfl

theorem addWriter_mirrors : Mirrors (addWriter p r) t (t.addWriter p r) := by
  have hrecord : ((collected (t.update r id)).record r).writer = (t.usage r).writer := by
    rw [record_collected, usage_update_self]
    rfl
  have hset : changeRecord r (fun record => { record with writer := some p })
      (collected (t.update r id)) =
        .ok () (collected (t.update r fun u => { u with writer := some p })) :=
    setRecord_collected fun _ => rfl
  rw [UsageTable.addWriter]
  cases hwriter : (t.usage r).writer with
  | none =>
      have hcheck := checkWriter_of_free (p := p) (Or.inl (hrecord.trans hwriter))
      exact (bind_of_ok enter_collected).trans ((bind_of_ok hcheck).trans hset)
  | some first =>
      have husage : t.usage r ≠ .none := by
        intro hnone
        rw [hnone] at hwriter
        cases hwriter
      by_cases hfirst : first = p
      · subst hfirst
        have hsame : t.update r (fun u => { u with writer := some first }) = t := by
          rw [update_congr (g := id), update_id (contains_of_usage husage)]
          rw [id_eq, ← hwriter]
        rw [hsame] at hset
        have hcheck := checkWriter_of_free (Or.inr (hrecord.trans hwriter))
        dsimp only
        rw [if_pos rfl]
        exact (bind_of_ok enter_collected).trans ((bind_of_ok hcheck).trans hset)
      · have hcheck := checkWriter_of_taken (hrecord.trans hwriter) hfirst
        rw [update_id (contains_of_usage husage)] at hcheck
        have henter := enter_collected (t := t) (r := r)
        rw [update_id (contains_of_usage husage)] at henter
        dsimp only
        rw [if_neg hfirst]
        exact ⟨_, (bind_of_ok henter).trans (bind_of_error hcheck),
          written_collected (contains_of_usage husage)⟩

theorem checkCopyIn_of_free (h : (ws.record r).copyIn = none) :
    checkCopyIn p r ws = .ok () ws := by
  unfold checkCopyIn
  rw [get_bind, h]
  rfl

theorem checkCopyIn_of_taken (h : (ws.record r).copyIn = some first) :
    checkCopyIn p r ws = .error (.refused (.multipleCopyIns r first p)) ws := by
  unfold checkCopyIn
  rw [get_bind, h]
  rfl

theorem addCopy_mirrors {copied : ResourceId × ResourceId} (h : ReadersUpTo p.index t) :
    Mirrors (addCopy p copied) t (t.addCopy p copied) := by
  obtain ⟨src, dst⟩ := copied
  have hread := addReader_collected (r := src) h
  rw [UsageTable.addCopy]
  set v := t.addReader p src
  have hrecord : ((collected (v.update dst id)).record dst).copyIn = (v.usage dst).copyIn := by
    rw [record_collected, usage_update_self]
    rfl
  cases hcopyIn : (v.usage dst).copyIn with
  | none =>
      have hcheck := checkCopyIn_of_free (p := p) (hrecord.trans hcopyIn)
      have hset : changeRecord dst (fun record => { record with copyIn := some p })
          (collected (v.update dst id)) =
            .ok () (collected (v.update dst fun u => { u with copyIn := some p })) :=
        setRecord_collected fun _ => rfl
      exact (bind_of_ok hread).trans ((bind_of_ok enter_collected).trans
        ((bind_of_ok hcheck).trans (bind_of_ok hset)))
  | some first =>
      have husage : v.usage dst ≠ .none := by
        intro hnone
        rw [hnone] at hcopyIn
        cases hcopyIn
      have hcheck := checkCopyIn_of_taken (p := p) (hrecord.trans hcopyIn)
      refine ⟨_, (bind_of_ok hread).trans ((bind_of_ok enter_collected).trans
        (bind_of_error hcheck)), ?_⟩
      rw [update_id (contains_of_usage husage)]
      exact written_collected (contains_of_usage husage)

/-! ### One pass after another -/

variable {result : Except PlanError UsageTable}

/-- What comes after an action that took down a table goes on from there. -/
theorem Mirrors.after {act next : EStateM Stop Workspace Unit}
    (hact : act (collected t) = .ok () (collected u)) (h : Mirrors next u result) :
    Mirrors (act >>= fun _ => next) t result := by
  cases result with
  | ok v => exact (bind_of_ok hact).trans h
  | error cause =>
      obtain ⟨left, hleft, hwritten⟩ := h
      exact ⟨left, (bind_of_ok hact).trans hleft, hwritten⟩

theorem Mirrors.bind {act next : EStateM Stop Workspace Unit}
    {f : UsageTable → Except PlanError UsageTable} (h : Mirrors act t result)
    (hnext : ∀ u, result = .ok u → Mirrors next u (f u)) :
    Mirrors (act >>= fun _ => next) t (result >>= f) := by
  cases result with
  | ok u => exact .after h (hnext u rfl)
  | error cause =>
      obtain ⟨left, hleft, hwritten⟩ := h
      exact ⟨left, bind_of_error hleft, hwritten⟩

/-- A loop takes down what the loop over the table adds, if its rounds do. `I` holds of what is left
of the list and of the table so far. -/
theorem Mirrors.forM {α : Type} {act : α → EStateM Stop Workspace Unit}
    {f : UsageTable → α → Except PlanError UsageTable} {I : List α → UsageTable → Prop}
    (round : ∀ x xs t, I (x :: xs) t → Mirrors (act x) t (f t x) ∧
      ∀ u, f t x = .ok u → I xs u) {xs : List α} (h : I xs t) :
    Mirrors (xs.forM act) t (xs.foldlM f t) := by
  induction xs generalizing t with
  | nil => exact rfl
  | cons x xs ih =>
      obtain ⟨hround, hnext⟩ := round x xs t h
      rw [List.foldlM_cons]
      exact hround.bind fun u hu => ih (hnext u hu)

theorem addReaders_collected (rs : List ResourceId) (h : ReadersUpTo p.index t) :
    rs.forM (addReader p) (collected t) =
      .ok () (collected (rs.foldl (UsageTable.addReader p) t)) := by
  refine forM_of_step (I := ReadersUpTo p.index) collected (UsageTable.addReader p) ?_ h
  intro r _ t h
  exact ⟨addReader_collected h, h.uses (Nat.le_refl _) UsageTable.Uses.addReader⟩

theorem addPass_mirrors {pass : Pass} (h : ReadersUpTo p.index t) :
    Mirrors (addPass (p, pass)) t (t.addPass (p, pass)) := by
  unfold addPass UsageTable.addPass
  cases hkind : pass.kind with
  | general =>
      simp only [hkind]
      exact .after (addReaders_collected pass.inputs h) (.forM (I := fun _ _ => True)
        (fun _ _ _ _ => ⟨addWriter_mirrors, fun _ _ => trivial⟩) trivial)
  | copy =>
      simp only [hkind]
      exact .forM (I := fun _ t => ReadersUpTo p.index t)
        (fun _ _ _ ht => ⟨addCopy_mirrors ht, fun u hu =>
          ht.uses (Nat.le_refl _) (UsageTable.Uses.addCopy hu)⟩) h

/-- A pass adds no reader but itself. -/
theorem ReadersUpTo.addPass {n : Nat} {pass : Pass} (h : ReadersUpTo n t) (hp : p.index ≤ n)
    (hok : t.addPass (p, pass) = .ok u) : ReadersUpTo n u := by
  unfold UsageTable.addPass at hok
  cases hkind : pass.kind with
  | general =>
      simp only [hkind] at hok
      exact (h.uses hp (.addReaders pass.inputs)).uses hp (.addWriters hok)
  | copy =>
      simp only [hkind] at hok
      exact h.uses hp (.addCopies hok)

theorem addPasses_mirrors {entries : List (PassId × Pass)}
    (hascending : entries.Pairwise (·.1.index < ·.1.index))
    (h : ∀ e ∈ entries, ReadersUpTo e.1.index t) :
    Mirrors (entries.forM addPass) t (entries.foldlM UsageTable.addPass t) := by
  refine .forM (I := fun es t => es.Pairwise (·.1.index < ·.1.index) ∧
    ∀ e ∈ es, ReadersUpTo e.1.index t) (fun e es t hinv => ?_) ⟨hascending, h⟩
  obtain ⟨p, pass⟩ := e
  obtain ⟨hasc, hupTo⟩ := hinv
  obtain ⟨hlt, hrest⟩ := List.pairwise_cons.mp hasc
  refine ⟨addPass_mirrors (hupTo _ (List.mem_cons_self ..)), fun u hu => ⟨hrest, fun e he => ?_⟩⟩
  exact (hupTo e (List.mem_cons_of_mem _ he)).addPass (Nat.le_of_lt (hlt e he)) hu

theorem addEnds_collected (ms : List Move) : ms.forM addEnds (collected t) =
    .ok () (collected (ms.foldl UsageTable.addMove t)) :=
  forM_of_round collected UsageTable.addMove fun _ _ _ =>
    (bind_of_ok enter_collected).trans enter_collected

/-- The entries of the passes ascend. -/
theorem ascending_passEntries (frame : Frame) :
    frame.passEntries.Pairwise (·.1.index < ·.1.index) := by
  have hids : frame.passEntries.map (·.1.index) = List.range frame.passes.length := by
    unfold Frame.passEntries
    rw [List.map_map, List.range_eq_range', ← List.zipIdx_map_snd 0 frame.passes]
    rfl
  rw [← List.pairwise_map (f := fun e : PassId × Pass => e.1.index) (R := (· < ·)), hids]
  exact List.pairwise_lt_range

/-- **The first phase takes down the usage table of the frame**, or stops with the error of the
table. -/
theorem collectUses_mirrors (frame : Frame) :
    Mirrors (collectUses frame) ∅ (UsageTable.ofFrame frame) := by
  have hpasses := addPasses_mirrors (t := ∅) (ascending_passEntries frame) fun e _ r q hq =>
    absurd hq (IdSet.not_mem_empty q)
  have hends : ∀ u, Mirrors (frame.moves.forM addEnds) u (.ok (frame.moves.foldl .addMove u)) :=
    fun u => addEnds_collected frame.moves
  have hmap : UsageTable.ofFrame frame = frame.passEntries.foldlM UsageTable.addPass ∅ >>= fun u =>
      .ok (frame.moves.foldl .addMove u) := by
    unfold UsageTable.ofFrame
    cases frame.passEntries.foldlM UsageTable.addPass ∅ <;> rfl
  rw [hmap]
  exact hpasses.bind fun u _ => hends u

end Workspace

end FramePlan
