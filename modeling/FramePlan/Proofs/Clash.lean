import FramePlan.Frame.Conflict
import FramePlan.Proofs.Frame.Registration
import FramePlan.Proofs.Usage
import Mathlib.Data.Nat.Find

/-!
# The first clash ends the collection of usage

Usage is collected pass by pass, and in a pass output by output. An output is refused just when it
is claimed already, so the collection ends at the first clash of the frame, if there is any.

* `Frame.no_clash_iff` — there is no clash when each resource has one writer and one copy into it.
* `UsageTable.addWriter_cases`, `UsageTable.addCopy_cases` — one output is accepted or refused.
* `UsageTable.ofFrame_cases` — the usage of a frame is collected, or the first clash is the error.
-/

namespace FramePlan

/-- The error for an output of the second pass, of the given kind, that the first one claimed. -/
def PlanError.clash (kind : PassKind) (r : ResourceId) (first second : PassId) : PlanError :=
  match kind with
  | .general => .multipleWriters r first second
  | .copy => .multipleCopyIns r first second

namespace Frame

variable {frame : Frame} {p q first : PassId} {pass : Pass} {i : Nat} {r s : ResourceId}

/-- **Nothing clashes just when each resource has one writer and one copy into it.** -/
theorem no_clash_iff :
    (∀ p i r first, ¬ frame.Clash p i r first) ↔ frame.SingleWriter ∧ frame.SingleCopy := by
  constructor
  · intro hnone
    have ordered : ∀ {p q : PassId} {pass other : Pass} {r}, frame.pass? p = some pass →
        frame.pass? q = some other → other.kind = pass.kind → r ∈ pass.outputs →
        r ∈ other.outputs → ¬ p.index < q.index := by
      intro p q pass other r hp hq hkind hr hr' hlt
      obtain ⟨j, hj⟩ := List.mem_iff_getElem?.mp hr'
      exact hnone q j r p (.earlierPass hq hj hp hlt hkind.symm hr)
    have same : ∀ {p q : PassId} {pass other : Pass} {r}, frame.pass? p = some pass →
        frame.pass? q = some other → other.kind = pass.kind → r ∈ pass.outputs →
        r ∈ other.outputs → p = q := fun hp hq hkind hr hr' => NodeId.ext (Nat.le_antisymm
      (Nat.le_of_not_lt (ordered hq hp hkind.symm hr' hr))
      (Nat.le_of_not_lt (ordered hp hq hkind hr hr')))
    refine ⟨?_, ?_⟩
    · rintro p q r ⟨pass, hp, hkind, hr⟩ ⟨other, hq, hkind', hr'⟩
      exact same hp hq (hkind'.trans hkind.symm) hr hr'
    · rintro p q i j r ⟨pass, hp, hkind, hr⟩ ⟨other, hq, hkind', hr'⟩
      cases same hp hq (hkind'.trans hkind.symm) (List.mem_of_getElem? hr)
        (List.mem_of_getElem? hr')
      cases hp.symm.trans hq
      refine ⟨rfl, Nat.le_antisymm (Nat.le_of_not_lt fun hlt => ?_)
        (Nat.le_of_not_lt fun hlt => ?_)⟩
      · exact hnone p i r p (.samePass hp hr hkind hlt hr')
      · exact hnone p j r p (.samePass hp hr' hkind hlt hr)
  · rintro ⟨hwriter, hcopy⟩ p i r first hclash
    cases hclash with
    | earlierPass hp hr hfirst hlt hkind hr' =>
        rename_i pass other
        cases hk : pass.kind with
        | general =>
            rw [hk] at hkind
            rw [hwriter ⟨_, hfirst, hkind, hr'⟩ ⟨_, hp, hk, List.mem_of_getElem? hr⟩] at hlt
            exact Nat.lt_irrefl _ hlt
        | copy =>
            rw [hk] at hkind
            obtain ⟨j, hj⟩ := List.mem_iff_getElem?.mp hr'
            rw [(hcopy ⟨_, hfirst, hkind, hj⟩ ⟨_, hp, hk, hr⟩).1] at hlt
            exact Nat.lt_irrefl _ hlt
    | samePass hp hr hk hlt hr' =>
        rw [(hcopy ⟨_, hp, hk, hr⟩ ⟨_, hp, hk, hr'⟩).2] at hlt
        exact Nat.lt_irrefl _ hlt

/-- Before a pass stand the passes that were registered earlier. -/
theorem of_passEntries_eq {es post : List (PassId × Pass)}
    (h : frame.passEntries = es ++ (p, pass) :: post) :
    frame.pass? p = some pass ∧ p.index = es.length ∧
      ∀ q other, (q, other) ∈ es ↔ frame.pass? q = some other ∧ q.index < p.index := by
  have hget : ∀ n, frame.passEntries[n]? = (frame.pass? ⟨n⟩).map fun pass => (⟨n⟩, pass) := by
    intro n
    rw [passEntries, List.getElem?_map, List.getElem?_zipIdx, pass?, Option.map_map]
    simp [Function.comp_def]
  have hindex : p.index = es.length := by
    have hhere := hget es.length
    rw [h, List.getElem?_append_right (Nat.le_refl _), Nat.sub_self] at hhere
    obtain ⟨_, _, heq⟩ := Option.map_eq_some_iff.mp hhere.symm
    exact congrArg (fun e : PassId × Pass => e.1.index) heq.symm
  refine ⟨mem_passEntries.mp (h ▸ by simp), hindex, fun q other => ?_⟩
  rw [hindex]
  constructor
  · intro hmem
    refine ⟨mem_passEntries.mp (h ▸ List.mem_append_left _ hmem), ?_⟩
    obtain ⟨n, hn⟩ := List.mem_iff_getElem?.mp hmem
    have hlt := (List.getElem?_eq_some_iff.mp hn).1
    have hentry := hget n
    rw [h, List.getElem?_append_left hlt, hn] at hentry
    obtain ⟨_, _, heq⟩ := Option.map_eq_some_iff.mp hentry.symm
    cases heq
    exact hlt
  · rintro ⟨hq, hlt⟩
    have hentry := hget q.index
    rw [hq, h, List.getElem?_append_left hlt] at hentry
    exact List.mem_of_getElem? hentry

end Frame

namespace UsageTable

variable {frame : Frame} {t u : UsageTable} {es post : List (PassId × Pass)} {p : PassId}
  {pass : Pass} {r : ResourceId}

/-! ### One output -/

section Output

variable (h : Collects es t) (hes : frame.passEntries = es ++ (p, pass) :: post)

include h hes

/-- The output of a general pass is accepted, or an earlier pass claimed it. -/
theorem addWriter_cases (hkind : pass.kind = .general) {pre rest : List ResourceId}
    (houtputs : pass.outputs = pre ++ r :: rest)
    (huses : Uses p pass.inputs pre [] t u) :
    (∃ v, u.addWriter p r = .ok v) ∧ (∀ s first, ¬ frame.Clash p pre.length s first) ∨
      ∃ first, u.addWriter p r = .error (.multipleWriters r first p) ∧
        frame.Clash p pre.length r first := by
  obtain ⟨hpass, _, hearlier⟩ := Frame.of_passEntries_eq hes
  have hhere : pass.outputs[pre.length]? = some r := by
    rw [houtputs, List.getElem?_append_right (Nat.le_refl _), Nat.sub_self]
    rfl
  -- Who is recorded is an earlier pass, or the pass itself.
  have hrecorded : ∀ {first}, (u.usage r).writer = some first → first ≠ p →
      frame.Clash p pre.length r first := by
    intro first hfirst hne
    rcases (huses.writer r first).mp hfirst with hbefore | ⟨hself, _⟩
    · obtain ⟨other, hmem, hother, hr⟩ := (h.writer r first).mp hbefore
      obtain ⟨hget, hlt⟩ := (hearlier first other).mp hmem
      exact .earlierPass hpass hhere hget hlt (hother.trans hkind.symm) hr
    · exact absurd hself hne
  have hclash : ∀ {s first}, frame.Clash p pre.length s first →
      (u.usage r).writer = some first ∧ first ≠ p := by
    intro s first hclash
    cases hclash with
    | earlierPass hp hs hfirst hlt hother hr =>
        cases hpass.symm.trans hp
        cases hhere.symm.trans hs
        refine ⟨(huses.writer r first).mpr (Or.inl ((h.writer r first).mpr ?_)),
          fun heq => Nat.ne_of_lt hlt (congrArg _ heq)⟩
        exact ⟨_, (hearlier first _).mpr ⟨hfirst, hlt⟩, hother.trans hkind, hr⟩
    | samePass hp _ hcopy _ _ =>
        cases hpass.symm.trans hp
        rw [hkind] at hcopy
        cases hcopy
  rw [addWriter]
  cases hwriter : (u.usage r).writer with
  | none =>
      refine Or.inl ⟨⟨_, rfl⟩, fun s first hs => ?_⟩
      rw [hwriter] at hclash
      cases (hclash hs).1
  | some first =>
      by_cases hself : first = p
      · refine Or.inl ⟨⟨_, if_pos hself⟩, fun s f hs => ?_⟩
        obtain ⟨hf, hne⟩ := hclash hs
        cases hwriter.symm.trans hf
        exact hne hself
      · exact Or.inr ⟨first, if_neg hself, hrecorded hwriter hself⟩

/-- The destination of a copy is accepted, or it was claimed before, by the same copy or an earlier
one. -/
theorem addCopy_cases (hkind : pass.kind = .copy) {src : ResourceId}
    {pre rest : List (ResourceId × ResourceId)}
    (houtputs : pass.outputs = (pre ++ (src, r) :: rest).map (·.2))
    (huses : Uses p (pre.map (·.1)) [] (pre.map (·.2)) t u) :
    (∃ v, u.addCopy p (src, r) = .ok v) ∧ (∀ s first, ¬ frame.Clash p pre.length s first) ∨
      ∃ first, u.addCopy p (src, r) = .error (.multipleCopyIns r first p) ∧
        frame.Clash p pre.length r first := by
  obtain ⟨hpass, _, hearlier⟩ := Frame.of_passEntries_eq hes
  have hhere : pass.outputs[pre.length]? = some r := by
    rw [houtputs, List.getElem?_map, List.getElem?_append_right (Nat.le_refl _), Nat.sub_self]
    rfl
  have hbefore : ∀ {j s}, j < pre.length →
      (pass.outputs[j]? = some s ↔ (pre.map (·.2))[j]? = some s) := by
    intro j s hj
    rw [houtputs, List.map_append, List.getElem?_append_left (by simpa using hj)]
  have hread : Uses p [src] [] [] u (u.addReader p src) := Uses.addReader
  have hcopyIn : ∀ q, ((u.addReader p src).usage r).copyIn = some q ↔
      (t.usage r).copyIn = some q ∨ q = p ∧ r ∈ pre.map (·.2) := by
    intro q
    rw [hread.copyIn, huses.copyIn]
    simp
  have hrecorded : ∀ {first}, ((u.addReader p src).usage r).copyIn = some first →
      frame.Clash p pre.length r first := by
    intro first hfirst
    rcases (hcopyIn first).mp hfirst with hfirst | ⟨rfl, hr⟩
    · obtain ⟨other, hmem, hother, hr⟩ := (h.copyIn r first).mp hfirst
      obtain ⟨hget, hlt⟩ := (hearlier first other).mp hmem
      exact .earlierPass hpass hhere hget hlt (hother.trans hkind.symm) hr
    · obtain ⟨j, hj⟩ := List.mem_iff_getElem?.mp hr
      have hlt : j < pre.length := by simpa using (List.getElem?_eq_some_iff.mp hj).1
      exact .samePass hpass hhere hkind hlt ((hbefore hlt).mpr hj)
  have hclash : ∀ {s first}, frame.Clash p pre.length s first →
      ((u.addReader p src).usage r).copyIn = some first := by
    intro s first hclash
    rw [hcopyIn]
    cases hclash with
    | earlierPass hp hs hfirst hlt hother hr =>
        cases hpass.symm.trans hp
        cases hhere.symm.trans hs
        refine Or.inl ((h.copyIn r first).mpr ?_)
        exact ⟨_, (hearlier first _).mpr ⟨hfirst, hlt⟩, hother.trans hkind, hr⟩
    | samePass hp hs _ hlt hr =>
        cases hpass.symm.trans hp
        cases hhere.symm.trans hs
        exact Or.inr ⟨rfl, List.mem_of_getElem? ((hbefore hlt).mp hr)⟩
  rw [addCopy]
  cases hcopy : ((u.addReader p src).usage r).copyIn with
  | none =>
      refine Or.inl ⟨⟨_, rfl⟩, fun s first hs => ?_⟩
      have hsome := hclash hs
      rw [hcopy] at hsome
      cases hsome
  | some first => exact Or.inr ⟨first, rfl, hrecorded hcopy⟩

end Output

/-! ### One pass -/

/-- The outputs of a pass are accepted one after another, up to the first that is claimed. -/
theorem foldlM_first_clash {γ : Type} {f : UsageTable → γ → Except PlanError UsageTable}
    {xs : List γ} {kind : PassKind} (hpass : frame.pass? p = some pass)
    (hlength : xs.length = pass.outputs.length)
    (round : ∀ pre x post y, xs = pre ++ x :: post → pre.foldlM f t = .ok y →
      (∃ z, f y x = .ok z) ∧ (∀ s first, ¬ frame.Clash p pre.length s first) ∨
        ∃ r first, f y x = .error (.clash kind r first p) ∧
          frame.Clash p pre.length r first) :
    (∃ u, xs.foldlM f t = .ok u) ∧ (∀ i r first, ¬ frame.Clash p i r first) ∨
      ∃ i r first, xs.foldlM f t = .error (.clash kind r first p) ∧
        frame.Clash p i r first ∧ ∀ j < i, ∀ s f, ¬ frame.Clash p j s f := by
  have hfirst := foldlM_first (f := f) (b := t)
    (fun i e => ∃ r first, e = .clash kind r first p ∧ frame.Clash p i r first)
    fun pre x post y hxs hfold => (round pre x post y hxs hfold).imp
      (fun ⟨hok, hnone⟩ => ⟨hok, fun e ⟨r, first, _, hclash⟩ => hnone r first hclash⟩)
      fun ⟨r, first, herror, hclash⟩ => ⟨_, herror, r, first, rfl, hclash⟩
  rcases hfirst with ⟨hok, hnone⟩ | ⟨i, e, herror, ⟨r, first, rfl, hclash⟩, hnone⟩
  · refine Or.inl ⟨hok, fun i r first hclash => ?_⟩
    have hi : i < pass.outputs.length := by
      cases hclash with
      | earlierPass hp hr _ _ _ _ =>
          cases hpass.symm.trans hp
          exact (List.getElem?_eq_some_iff.mp hr).1
      | samePass hp hr _ _ _ =>
          cases hpass.symm.trans hp
          exact (List.getElem?_eq_some_iff.mp hr).1
    exact hnone i (hlength ▸ hi) _ ⟨r, first, rfl, hclash⟩
  · exact Or.inr ⟨i, r, first, herror, hclash, fun j hj s f hs => hnone j hj _ ⟨s, f, rfl, hs⟩⟩

/-- **The uses of a pass are collected, or its first output that is claimed already is refused.** -/
theorem addPass_cases (h : Collects es t) (hes : frame.passEntries = es ++ (p, pass) :: post)
    (hbalanced : pass.kind = .copy → pass.inputs.length = pass.outputs.length) :
    (∃ u, t.addPass (p, pass) = .ok u) ∧ (∀ i r first, ¬ frame.Clash p i r first) ∨
      ∃ i r first, t.addPass (p, pass) = .error (.clash pass.kind r first p) ∧
        frame.Clash p i r first ∧ ∀ j < i, ∀ s f, ¬ frame.Clash p j s f := by
  have hpass := (Frame.of_passEntries_eq hes).1
  rw [addPass]
  cases hkind : pass.kind with
  | general =>
      refine foldlM_first_clash hpass rfl fun pre r rest u houtputs hfold => ?_
      have huses : Uses p pass.inputs pre [] t u := by
        simpa using (Uses.addReaders pass.inputs).trans (Uses.addWriters hfold)
      exact (addWriter_cases h hes hkind houtputs huses).imp id fun hclash => ⟨r, hclash⟩
  | copy =>
      have hlength := hbalanced hkind
      have hpairs : pass.copyPairs = pass.inputs.zip pass.outputs := by
        rw [Pass.copyPairs, hkind]
      have houtputs : pass.outputs = pass.copyPairs.map (·.2) := by
        rw [hpairs, List.map_snd_zip (Nat.le_of_eq hlength.symm)]
      refine foldlM_first_clash hpass (by rw [houtputs, List.length_map])
        fun pre x rest u hsplit hfold => ?_
      have hhere : pass.outputs = (pre ++ (x.1, x.2) :: rest).map (·.2) := by
        rw [houtputs, hsplit]
      exact (addCopy_cases h hes hkind hhere (Uses.addCopies hfold)).imp id fun hclash =>
        ⟨x.2, hclash⟩

/-! ### All passes -/

/-- A pass with a clash has a first one. -/
theorem exists_least_clash {i : Nat} {r : ResourceId} {first : PassId}
    (h : frame.Clash p i r first) : ∃ j s f, frame.Clash p j s f ∧
      ∀ k < j, ∀ s f, ¬ frame.Clash p k s f := by
  classical
  have hsome : ∃ j s f, frame.Clash p j s f := ⟨i, r, first, h⟩
  obtain ⟨s, f, hclash⟩ := Nat.find_spec hsome
  exact ⟨Nat.find hsome, s, f, hclash, fun k hk s f hs => Nat.find_min hsome hk ⟨s, f, hs⟩⟩

/-- **The usage of a frame is collected when nothing clashes, and otherwise its first clash is the
error.** -/
theorem ofFrame_cases (hwell : frame.WellFormed) :
    (∃ t, ofFrame frame = .ok t) ∧ (∀ p i r first, ¬ frame.Clash p i r first) ∨
      ∃ p pass i r first, frame.FirstClash p i r first ∧ frame.pass? p = some pass ∧
        ofFrame frame = .error (.clash pass.kind r first p) := by
  -- A pass is refused with the first of its own clashes.
  have hfirst := foldlM_first (f := addPass) (b := ∅)
    (fun n e => ∃ pass i r first, frame.pass? ⟨n⟩ = some pass ∧ e = .clash pass.kind r first ⟨n⟩ ∧
      frame.Clash ⟨n⟩ i r first ∧ ∀ j < i, ∀ s f, ¬ frame.Clash ⟨n⟩ j s f)
    fun es (e : PassId × Pass) post t (hes : frame.passEntries = es ++ e :: post) hfold => by
      obtain ⟨p, pass⟩ := e
      obtain ⟨hpass, hindex, _⟩ := Frame.of_passEntries_eq hes
      have hp : p = ⟨es.length⟩ := NodeId.ext hindex
      rw [← hp]
      refine (addPass_cases (collects_of_foldlM hwell.copy_balanced hes hfold) hes
        (hwell.copy_balanced pass (List.mem_of_getElem? hpass))).imp ?_ ?_
      · rintro ⟨hok, hnone⟩
        exact ⟨hok, fun e ⟨_, i, r, first, _, _, hclash, _⟩ => hnone i r first hclash⟩
      · rintro ⟨i, r, first, herror, hclash, hleast⟩
        exact ⟨_, herror, pass, i, r, first, hpass, rfl, hclash, hleast⟩
  have hpass : ∀ {p i r first}, frame.Clash p i r first → ∃ pass, frame.pass? p = some pass := by
    intro p i r first hclash
    cases hclash with
    | earlierPass hp _ _ _ _ _ => exact ⟨_, hp⟩
    | samePass hp _ _ _ _ => exact ⟨_, hp⟩
  rcases hfirst with ⟨⟨t, ht⟩, hnone⟩ | ⟨n, e, herror, ⟨pass, i, r, first, hn, rfl, hclash, hleast⟩,
    hnone⟩
  · refine Or.inl ⟨⟨_, except_map_ok.mpr ⟨t, ht, rfl⟩⟩, fun p i r first hclash => ?_⟩
    obtain ⟨pass, hp⟩ := hpass hclash
    obtain ⟨j, s, f, hs, hleast⟩ := exists_least_clash hclash
    refine hnone p.index ?_ _ ⟨pass, j, s, f, hp, rfl, hs, hleast⟩
    simpa [Frame.passEntries] using (List.getElem?_eq_some_iff.mp hp).1
  · refine Or.inr ⟨⟨n⟩, pass, i, r, first, ⟨hclash, fun {q j s f} hs => ?_⟩, hn, ?_⟩
    · rcases Nat.lt_trichotomy n q.index with hlt | heq | hgt
      · exact Or.inl hlt
      · subst heq
        exact Or.inr ⟨rfl, Nat.le_of_not_lt fun hlt => hleast j hlt s f hs⟩
      · obtain ⟨other, hq⟩ := hpass hs
        obtain ⟨j, s, f, hs, hleast⟩ := exists_least_clash hs
        exact absurd ⟨other, j, s, f, hq, rfl, hs, hleast⟩ (hnone q.index hgt _)
    · rw [ofFrame, herror]
      rfl

end UsageTable

end FramePlan
