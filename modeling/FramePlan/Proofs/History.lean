import FramePlan.Frame.Access
import FramePlan.Plan.Script
import FramePlan.Proofs.MoveChain
import Mathlib.Data.List.Nodup

/-!
# Histories of actions

A history is what a run did so far. It tells which resources hold storage: those that came to it,
by a construct or by a move into them, and did not give it up. `History.Legal` says that every
action of a history came at a time at which it made sense; both executors are proved to do nothing
else.

* `History.Legal.nodup` — no action of a legal history is repeated.
* `History.holds_construct`, `History.holds_move`, `History.holds_destruct` — who holds storage
  after one more action.
* `History.legalFrom_releases` — storage that is held can be given up, each piece once.
-/

namespace FramePlan

namespace History

/-- The resource came to its storage. -/
def Opened (h : List Action) (r : ResourceId) : Prop :=
  .construct r ∈ h ∨ ∃ s, .move ⟨r, s⟩ ∈ h

/-- The resource gave its storage up. -/
def Gone (h : List Action) (r : ResourceId) : Prop :=
  .destruct r ∈ h ∨ ∃ d, .move ⟨d, r⟩ ∈ h

/-- The resource holds storage. -/
def Holds (h : List Action) (r : ResourceId) : Prop := Opened h r ∧ ¬ Gone h r

/-- What an action requires of the history before it. -/
def Permits (frame : Frame) (h : List Action) : Action → Prop
  | .construct r => ¬ Opened h r
  | .move m => Holds h m.src ∧ ¬ Opened h m.dst
  | .destruct r => Holds h r
  | .request p => .request p ∉ h ∧ ∀ r, frame.Touches p r → Holds h r
  | .work p => .request p ∈ h ∧ .work p ∉ h

/-- After the first history, the second one can go on. -/
def LegalFrom (frame : Frame) : List Action → List Action → Prop
  | _, [] => True
  | h, a :: rest => Permits frame h a ∧ LegalFrom frame (h ++ [a]) rest

/-- Each action of the history is permitted by what comes before it. -/
def Legal (frame : Frame) (h : List Action) : Prop := LegalFrom frame [] h

variable {frame : Frame} {h block rest : List Action} {a : Action} {r s d : ResourceId} {p : PassId}

theorem opened_append : Opened (h ++ block) r ↔ Opened h r ∨ Opened block r := by
  simp only [Opened, List.mem_append, exists_or]
  tauto

theorem gone_append : Gone (h ++ block) r ↔ Gone h r ∨ Gone block r := by
  simp only [Gone, List.mem_append, exists_or]
  tauto

/-- Constructs give up nothing. -/
theorem not_gone_constructs (rs : List ResourceId) : ¬ Gone (rs.map .construct) r := by
  simp [Gone]

theorem opened_constructs {rs : List ResourceId} : Opened (rs.map .construct) r ↔ r ∈ rs := by
  simp [Opened]

/-! ### Legal histories -/

theorem legalFrom_iff : LegalFrom frame h block ↔
    ∀ pre a post, block = pre ++ a :: post → Permits frame (h ++ pre) a := by
  induction block generalizing h with
  | nil =>
      constructor
      · intro _ pre a post hsplit
        simp at hsplit
      · intro _
        trivial
  | cons b block ih =>
      unfold LegalFrom
      rw [ih]
      constructor
      · rintro ⟨hb, hrest⟩ pre a post hsplit
        cases pre with
        | nil =>
            cases hsplit
            rw [List.append_nil]
            exact hb
        | cons c pre =>
            rw [List.cons_append] at hsplit
            obtain ⟨hbc, htail⟩ := List.cons_eq_cons.mp hsplit
            rw [← hbc, List.append_cons]
            exact hrest pre a post htail
      · intro hall
        constructor
        · have hb := hall [] b block rfl
          rwa [List.append_nil] at hb
        · intro pre a post hsplit
          have ha := hall (b :: pre) a post (congrArg (b :: ·) hsplit)
          rwa [List.append_cons] at ha

theorem legalFrom_append : LegalFrom frame h (block ++ rest) ↔
    LegalFrom frame h block ∧ LegalFrom frame (h ++ block) rest := by
  induction block generalizing h with
  | nil => simp [LegalFrom]
  | cons b block ih =>
      rw [List.cons_append, LegalFrom, LegalFrom, ih, ← List.append_cons, and_assoc]

theorem legal_append : Legal frame (h ++ block) ↔ Legal frame h ∧ LegalFrom frame h block :=
  legalFrom_append

theorem Permits.not_mem (ha : Permits frame h a) : a ∉ h := by
  intro hmem
  cases a with
  | construct r => exact ha (Or.inl hmem)
  | move m => exact ha.1.2 (Or.inr ⟨m.dst, hmem⟩)
  | destruct r => exact ha.2 (Or.inl hmem)
  | request p => exact ha.1 hmem
  | work p => exact ha.2 hmem

theorem nodup_of_legalFrom (hb : LegalFrom frame h block) : block.Nodup ∧ ∀ a ∈ block, a ∉ h := by
  induction block generalizing h with
  | nil => simp
  | cons b block ih =>
      obtain ⟨hb, hrest⟩ := hb
      obtain ⟨hnodup, hfresh⟩ := ih hrest
      constructor
      · exact List.nodup_cons.mpr ⟨fun hmem => hfresh b hmem (by simp), hnodup⟩
      · intro a ha
        rcases List.mem_cons.mp ha with rfl | ha
        · exact hb.not_mem
        · exact fun hmem => hfresh a ha (List.mem_append_left _ hmem)

namespace Legal

theorem nil : Legal frame [] := trivial

theorem append (hl : Legal frame h) (hb : LegalFrom frame h block) : Legal frame (h ++ block) :=
  legal_append.mpr ⟨hl, hb⟩

theorem permits {pre post : List Action} (hl : Legal frame h) (hsplit : h = pre ++ a :: post) :
    Permits frame pre a := legalFrom_iff.mp hl pre a post hsplit

/-- Storage is given up by those who came to it. -/
theorem opened_of_gone (hl : Legal frame h) (hr : Gone h r) : Opened h r := by
  have held : ∀ {a pre post}, h = pre ++ a :: post → Holds pre r → Opened h r := by
    intro a pre post hsplit hholds
    rw [hsplit]
    exact opened_append.mpr (Or.inl hholds.1)
  rcases hr with hr | ⟨d, hr⟩
  · obtain ⟨pre, post, hsplit⟩ := List.append_of_mem hr
    exact held hsplit (hl.permits hsplit)
  · obtain ⟨pre, post, hsplit⟩ := List.append_of_mem hr
    exact held hsplit (hl.permits hsplit).1

/-- **No action of a legal history is repeated.** -/
theorem nodup (hl : Legal frame h) : h.Nodup := (nodup_of_legalFrom hl).1

theorem snoc (hl : Legal frame h) (ha : Permits frame h a) : Legal frame (h ++ [a]) :=
  hl.append ⟨ha, trivial⟩

end Legal

/-- An action has one place in a history without repetitions. -/
theorem split_unique {pre post pre' post' : List Action} (hnodup : h.Nodup)
    (hsplit : h = pre ++ a :: post) (hsplit' : h = pre' ++ a :: post') : pre = pre' := by
  rw [hsplit'] at hnodup hsplit
  obtain ⟨_, hpost, hdisjoint⟩ := List.nodup_append.mp hnodup
  have hpre : a ∉ pre' := fun hmem => hdisjoint a hmem a (List.mem_cons_self ..) rfl
  exact ((List.append_cons_inj_of_notMem hpre (List.nodup_cons.mp hpost).1).mp hsplit).1.symm

/-! ### Who holds storage after one more action -/

theorem holds_append : Holds (h ++ block) r ↔
    (Opened h r ∨ Opened block r) ∧ ¬ Gone h r ∧ ¬ Gone block r := by
  rw [Holds, opened_append, gone_append, not_or]

theorem holds_construct (hl : Legal frame h) (ha : Permits frame h (.construct s)) :
    Holds (h ++ [.construct s]) r ↔ r = s ∨ Holds h r := by
  have hopened : Opened [Action.construct s] r ↔ r = s := opened_constructs.trans List.mem_singleton
  have hgone : ¬ Gone [Action.construct s] r := not_gone_constructs [s]
  rw [holds_append, hopened]
  constructor
  · rintro ⟨hr | hr, hnot, _⟩
    · exact Or.inr ⟨hr, hnot⟩
    · exact Or.inl hr
  · rintro (rfl | ⟨hr, hnot⟩)
    · exact ⟨Or.inr rfl, fun hg => ha (hl.opened_of_gone hg), hgone⟩
    · exact ⟨Or.inl hr, hnot, hgone⟩

theorem holds_move {m : Move} (hl : Legal frame h) (ha : Permits frame h (.move m)) :
    Holds (h ++ [.move m]) r ↔ r = m.dst ∨ r ≠ m.src ∧ Holds h r := by
  obtain ⟨⟨hsrc, _⟩, hdst⟩ := ha
  have hopened : Opened [Action.move m] r ↔ r = m.dst := by
    constructor
    · rintro (hr | ⟨s, hr⟩)
      · cases List.mem_singleton.mp hr
      · cases List.mem_singleton.mp hr
        rfl
    · rintro rfl
      exact Or.inr ⟨m.src, List.mem_singleton.mpr rfl⟩
  have hgone : Gone [Action.move m] r ↔ r = m.src := by
    constructor
    · rintro (hr | ⟨d, hr⟩)
      · cases List.mem_singleton.mp hr
      · cases List.mem_singleton.mp hr
        rfl
    · rintro rfl
      exact Or.inr ⟨m.dst, List.mem_singleton.mpr rfl⟩
  rw [holds_append, hopened, hgone]
  constructor
  · rintro ⟨hr | hr, hnot, hne⟩
    · exact Or.inr ⟨hne, hr, hnot⟩
    · exact Or.inl hr
  · rintro (rfl | ⟨hne, hr, hnot⟩)
    · refine ⟨Or.inr rfl, fun hg => hdst (hl.opened_of_gone hg), fun heq => hdst ?_⟩
      exact heq ▸ hsrc
    · exact ⟨Or.inl hr, hnot, hne⟩

theorem holds_destruct : Holds (h ++ [.destruct s]) r ↔ r ≠ s ∧ Holds h r := by
  have hopened : ¬ Opened [Action.destruct s] r := by simp [Opened]
  have hgone : Gone [Action.destruct s] r ↔ r = s := by simp [Gone]
  rw [holds_append, hgone, or_iff_left hopened, Holds]
  tauto

theorem holds_request : Holds (h ++ [.request p]) r ↔ Holds h r := by
  rw [holds_append]
  simp [Holds, Opened, Gone]

theorem holds_work : Holds (h ++ [.work p]) r ↔ Holds h r := by
  rw [holds_append]
  simp [Holds, Opened, Gone]

/-! ### Coming to storage and giving it up -/

theorem legalFrom_constructs {rs : List ResourceId} (hnodup : rs.Nodup)
    (hnew : ∀ r ∈ rs, ¬ Opened h r) : LegalFrom frame h (rs.map .construct) := by
  refine legalFrom_iff.mpr fun pre a post hsplit => ?_
  obtain ⟨rpre, rrest, rfl, rfl, hrest⟩ := List.map_eq_append_iff.mp hsplit
  obtain ⟨r, rpost, rfl, rfl, _⟩ := List.map_eq_cons_iff.mp hrest
  intro hopened
  rcases opened_append.mp hopened with hold | hpre
  · exact hnew r (by simp) hold
  · exact (List.nodup_append.mp hnodup).2.2 r (opened_constructs.mp hpre) r (by simp) rfl

/-- Some actions give up the storage of the resources that are ripe for it, and of the destinations
of such resources that no pass uses. -/
structure Releases (frame : Frame) (moves : MoveTable) (ripe : ResourceId → Prop)
    (block : List Action) : Prop where
  nodup : block.Nodup
  gives_up : ∀ a ∈ block, (∃ m, a = .move m) ∨ ∃ r, a = .destruct r
  mem_move : ∀ m, .move m ∈ block ↔ moves.forward.get? m.src = some m.dst ∧ ripe m.src
  mem_destruct : ∀ r, .destruct r ∈ block ↔ moves.forward.get? r = none ∧
    (ripe r ∨ ¬ frame.Touched r ∧ ∃ s, moves.backward.get? r = some s ∧ ripe s)
  moved_before : ∀ pre r post, block = pre ++ .destruct r :: post →
    ripe r ∨ ∃ s, .move ⟨r, s⟩ ∈ pre

/-- **Storage is given up legally by those who hold it.** -/
theorem legalFrom_releases {moves : MoveTable} {ripe : ResourceId → Prop}
    (hpaired : moves.Paired) (hlegal : Legal frame h)
    (hblock : Releases frame moves ripe block) (hholds : ∀ r, ripe r → Holds h r)
    (hfresh : ∀ s d, moves.forward.get? s = some d → ripe s → ¬ Opened h d) :
    LegalFrom frame h block := by
  refine legalFrom_iff.mpr fun pre a post hsplit => ?_
  have hmem : ∀ b ∈ pre, b ∈ block := fun b hb => hsplit ▸ List.mem_append_left _ hb
  have ha : a ∈ block := hsplit ▸ by simp
  have hapre : a ∉ pre := by
    have hnodup := hblock.nodup
    rw [hsplit] at hnodup
    exact fun hpre => (List.nodup_append.mp hnodup).2.2 a hpre a (List.mem_cons_self ..) rfl
  have hmoved : ∀ {x d}, .move ⟨d, x⟩ ∈ pre → moves.forward.get? x = some d ∧ ripe x := fun hm =>
    (hblock.mem_move _).mp (hmem _ hm)
  have hnoConstruct : ∀ x, .construct x ∉ pre := by
    intro x hx
    rcases hblock.gives_up _ (hmem _ hx) with ⟨m, hm⟩ | ⟨r, hr⟩
    · cases hm
    · cases hr
  rcases hblock.gives_up a ha with ⟨⟨dst, src⟩, rfl⟩ | ⟨r, rfl⟩
  · obtain ⟨hforward, hripe⟩ := (hblock.mem_move _).mp ha
    obtain ⟨hopened, hgone⟩ := hholds src hripe
    refine ⟨⟨opened_append.mpr (Or.inl hopened), fun hgone' => ?_⟩, fun hopened' => ?_⟩
    · rcases (gone_append.mp hgone').resolve_left hgone with hdestruct | ⟨d, hmove⟩
      · have hnone := ((hblock.mem_destruct _).mp (hmem _ hdestruct)).1
        rw [hforward] at hnone
        cases hnone
      · have hd := (hmoved hmove).1
        rw [hforward] at hd
        cases hd
        exact hapre hmove
    · rcases (opened_append.mp hopened').resolve_left (hfresh src dst hforward hripe) with
        hconstruct | ⟨s, hmove⟩
      · exact hnoConstruct dst hconstruct
      · -- The destination has one source only.
        have hs := (hpaired s dst).mp (hmoved hmove).1
        rw [(hpaired src dst).mp hforward] at hs
        cases hs
        exact hapre hmove
  · have hforward := ((hblock.mem_destruct _).mp ha).1
    have hnotPre : ¬ Gone pre r := by
      rintro (hdestruct | ⟨d, hmove⟩)
      · exact hapre hdestruct
      · have hd := (hmoved hmove).1
        rw [hforward] at hd
        cases hd
    rcases hblock.moved_before pre r post hsplit with hripe | ⟨s, hmove⟩
    · obtain ⟨hopened, hgone⟩ := hholds r hripe
      exact ⟨opened_append.mpr (Or.inl hopened), fun hgone' =>
        hnotPre ((gone_append.mp hgone').resolve_left hgone)⟩
    · obtain ⟨hs, hsripe⟩ := hmoved hmove
      refine ⟨opened_append.mpr (Or.inr (Or.inr ⟨s, hmove⟩)), fun hgone' => ?_⟩
      rcases gone_append.mp hgone' with hgone | hgone
      · exact hfresh s r hs hsripe (hlegal.opened_of_gone hgone)
      · exact hnotPre hgone

end History

end FramePlan
