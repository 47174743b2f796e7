import FramePlan.Proofs.Plan.Script
import FramePlan.Proofs.Run.Dispatch
import FramePlan.Proofs.Run.Roster

/-!
# The books of the dispatch

`Dispatch.Orderly` is what workers keep true of the dispatch, whichever passes and calls fail:
the frontier is right about the passes that have begun, a pass runs at most once, and each resource
is counted for all its running users. As long as there is no error the books are exact.

* `Dispatch.Orderly.begin_ok`, `Dispatch.Orderly.finish_ok` and their failing counterparts — what
  each turn keeps.
* `Dispatch.Orderly.progress` — without an error, some pass is ready or runs until all are done.
-/

namespace FramePlan

variable {σ η : Type}

/-! ### Counting the users of a resource -/

namespace Plan

/-- Whether the pass uses the resource. -/
def isUser (plan : Plan) (r : ResourceId) (p : PassId) : Bool :=
  p ∈ (plan.usage.usage r).users

/-- How many passes that use a resource are not among the given ones. -/
def usersLeft (plan : Plan) (done : List PassId) (r : ResourceId) : Nat :=
  pending done (plan.usage.usage r).users.toList

namespace Fits

variable {plan : Plan} {frame : Frame} {done : List PassId} {p : PassId} {r : ResourceId}

theorem isUser_iff (hf : plan.Fits frame) : plan.isUser r p ↔ frame.Touches p r := by
  rw [← hf.usage.mem_users]
  simp [isUser]

theorem mem_users (hf : plan.Fits frame) :
    p ∈ (plan.usage.usage r).users.toList ↔ frame.Touches p r := by
  rw [IdSet.mem_toList, hf.usage.mem_users]

theorem usersLeft_eq_zero_iff (hf : plan.Fits frame) :
    plan.usersLeft done r = 0 ↔ frame.Released done r := by
  rw [usersLeft, pending_eq_zero_iff]
  simp only [hf.mem_users, Frame.Released]

theorem usersLeft_snoc (hf : plan.Fits frame) (hp : frame.Touches p r) (hdone : p ∉ done) :
    plan.usersLeft done r = plan.usersLeft (done ++ [p]) r + 1 :=
  pending_snoc (plan.usage.usage r).users.nodup_toList (hf.mem_users.mpr hp) hdone

theorem usersLeft_snoc_of_not_touches (hf : plan.Fits frame) (hp : ¬ frame.Touches p r) :
    plan.usersLeft (done ++ [p]) r = plan.usersLeft done r :=
  pending_snoc_of_not_mem (mt hf.mem_users.mp hp)

/-- Passes that are not complete are among the users that are left. -/
theorem countP_le_usersLeft {ps : List PassId} (hnodup : ps.Nodup) (hps : ∀ p ∈ ps, p ∉ done) :
    ps.countP (plan.isUser r) ≤ plan.usersLeft done r := by
  apply countP_le_pending hnodup hps
  intro p hp
  simpa [isUser, IdSet.mem_toList] using hp

end Fits

end Plan

namespace Dispatch

section Count

variable {users : IdMap .resource Nat} {r x : ResourceId}

theorem getD_one_of_pos (h : 0 < users.getD r 0) : users.getD r 1 = users.getD r 0 := by
  unfold IdMap.getD at *
  cases hget : users.get? r with
  | none => simp [hget] at h
  | some n => rfl

theorem get?_of_pos (h : 0 < users.getD r 0) : ∃ n, users.get? r = some (n + 1) := by
  unfold IdMap.getD at h
  cases hget : users.get? r with
  | none => simp [hget] at h
  | some n =>
      rw [hget, Option.getD_some] at h
      exact ⟨n - 1, by congr 1; omega⟩

theorem getD_countDown : (countDown users r).getD x 0 =
    if x = r then users.getD r 1 - 1 else users.getD x 0 := IdMap.getD_insert

theorem getD_countDown_of_ne (n : Nat) (h : x ≠ r) :
    (countDown users r).getD x n = users.getD x n := by
  rw [countDown, IdMap.getD_insert, if_neg h]

theorem getD_foldl_countDown {rs : List ResourceId} (hnodup : rs.Nodup) :
    (rs.foldl countDown users).getD x 0 =
      if x ∈ rs then users.getD x 1 - 1 else users.getD x 0 := by
  induction rs generalizing users with
  | nil => simp
  | cons r rs ih =>
      obtain ⟨hr, hrs⟩ := List.nodup_cons.mp hnodup
      rw [List.foldl_cons, ih hrs]
      by_cases hx : x = r
      · subst hx
        simp [hr, getD_countDown]
      · rw [getD_countDown_of_ne 1 hx, getD_countDown_of_ne 0 hx]
        simp [hx]

end Count

/-! ### The invariant -/

/-- The books of a dispatch without an error. -/
structure Books (frame : Frame) (plan : Plan) (begun : List PassId) (d : Dispatch σ η) : Prop where
  accounted : ∀ p ∈ begun, p ∈ d.frontier.done ∨ p ∈ d.runningPasses
  users : ∀ r, d.users.getD r 0 = plan.usersLeft d.frontier.done r
  constructed : ∀ r, r ∈ d.constructed ↔
    plan.moves.backward.get? r = none ∧ ∃ p ∈ begun, frame.Touches p r

namespace Books

variable {frame : Frame} {plan : Plan} {begun : List PassId} {d e : Dispatch σ η} {p : PassId}
  {pass : Pass}

/-- The new resources of a pass are those that no pass used before, unless they are moved into. -/
theorem mem_new {r : ResourceId} (h : Books frame plan begun d)
    (hpass : frame.pass? p = some pass) :
    r ∈ pass.resources.toList.filter (isNew plan d.constructed) ↔
      plan.moves.backward.get? r = none ∧ frame.Touches p r ∧
        ∀ q ∈ begun, ¬ frame.Touches q r := by
  rw [List.mem_filter, IdSet.mem_toList, isNew_iff, h.constructed, ← Frame.touches_iff_mem hpass]
  constructor
  · rintro ⟨hr, hback, hfresh⟩
    exact ⟨hback, hr, fun q hq htouch => hfresh ⟨hback, q, hq, htouch⟩⟩
  · rintro ⟨hback, hr, hfresh⟩
    exact ⟨hr, hback, fun ⟨_, q, hq, htouch⟩ => hfresh q hq htouch⟩

theorem begin (h : Books frame plan begun d) (hpass : frame.pass? p = some pass)
    (hdone : e.frontier.done = d.frontier.done) (husers : e.users = d.users)
    (hrunning : e.runningPasses = d.runningPasses ++ [p])
    (hconstructed : ∀ x, x ∈ e.constructed ↔
      x ∈ d.constructed ∨ x ∈ pass.resources ∧ isNew plan d.constructed x) :
    Books frame plan (begun ++ [p]) e where
  accounted q hq := by
    rw [hdone, hrunning]
    rcases List.mem_append.mp hq with hq | hq
    · exact (h.accounted q hq).imp id (List.mem_append_left _)
    · exact Or.inr (List.mem_append_right _ hq)
  users r := by
    rw [husers, hdone]
    exact h.users r
  constructed r := by
    rw [hconstructed, isNew_iff, h.constructed, ← Frame.touches_iff_mem hpass]
    simp only [List.mem_append, List.mem_singleton]
    constructor
    · rintro (⟨hback, q, hq, hr⟩ | ⟨hr, hback, _⟩)
      · exact ⟨hback, q, Or.inl hq, hr⟩
      · exact ⟨hback, p, Or.inr rfl, hr⟩
    · rintro ⟨hback, q, hq | rfl, hr⟩
      · exact Or.inl ⟨hback, q, hq, hr⟩
      · by_cases hold : ∃ x ∈ begun, frame.Touches x r
        · exact Or.inl ⟨hback, hold⟩
        · exact Or.inr ⟨hr, hback, fun hold' => hold hold'.2⟩

theorem finish (h : Books frame plan begun d) (hf : plan.Fits frame)
    (hpass : frame.pass? p = some pass) (hnodup : d.runningPasses.Nodup)
    (hp : p ∉ d.frontier.done) (hdone : e.frontier.done = d.frontier.done ++ [p])
    (husers : e.users = pass.resources.toList.foldl countDown d.users)
    (hrunning : e.runningPasses = d.runningPasses.erase p)
    (hconstructed : e.constructed = d.constructed) : Books frame plan begun e where
  accounted q hq := by
    rw [hdone, hrunning, List.mem_append, List.mem_singleton]
    by_cases hqp : q = p
    · exact Or.inl (Or.inr hqp)
    · exact (h.accounted q hq).imp Or.inl fun hq => hnodup.mem_erase_iff.mpr ⟨hqp, hq⟩
  users r := by
    rw [husers, hdone, getD_foldl_countDown pass.resources.nodup_toList]
    by_cases hr : r ∈ pass.resources.toList
    · have htouch := (Frame.touches_iff_mem hpass).mpr hr
      have hsnoc := hf.usersLeft_snoc htouch hp
      have hexact := h.users r
      rw [if_pos hr, getD_one_of_pos (by omega)]
      omega
    · have htouch : ¬ frame.Touches p r := mt (Frame.touches_iff_mem hpass).mp hr
      rw [if_neg hr, hf.usersLeft_snoc_of_not_touches htouch]
      exact h.users r
  constructed r := by
    rw [hconstructed]
    exact h.constructed r

end Books

/-- The dispatch is as it should be when the given passes have begun. -/
structure Orderly (frame : Frame) (plan : Plan) (begun : List PassId) (d : Dispatch σ η) :
    Prop where
  frontier : d.frontier.Sound plan.graph begun
  running_nodup : d.runningPasses.Nodup
  running : ∀ p ∈ d.runningPasses, p ∈ begun ∧ p ∉ d.frontier.done
  users : ∀ r, d.runningPasses.countP (plan.isUser r) ≤ d.users.getD r 0
  lost : d.lost = 0
  books : d.error = none → Books frame plan begun d

namespace Orderly

variable {frame : Frame} {plan : Plan} {begun : List PassId} {d e : Dispatch σ η} {p : PassId}
  {pass : Pass}

/-- What it knows about passes alone. -/
theorem roster (h : Orderly frame plan begun d) : Roster plan begun d :=
  ⟨h.frontier, h.running_nodup, h.running⟩

theorem of_roster (h : Roster plan begun d)
    (husers : ∀ r, d.runningPasses.countP (plan.isUser r) ≤ d.users.getD r 0) (hlost : d.lost = 0)
    (hbooks : d.error = none → Books frame plan begun d) : Orderly frame plan begun d :=
  ⟨h.frontier, h.running_nodup, h.running, husers, hlost, hbooks⟩

theorem start (hf : plan.Fits frame) (s : σ) :
    Orderly frame plan [] (Dispatch.start plan s : Dispatch σ η) := by
  apply of_roster (Roster.start hf s) (fun r => Nat.zero_le _) rfl
  intro _
  refine ⟨fun p hp => absurd hp List.not_mem_nil, fun r => ?_, fun r => ?_⟩
  · have hleft : plan.usersLeft [] r = (plan.usage.usage r).users.size := pending_nil
    show (plan.usage.uses.map fun _ u => u.users.size).getD r 0 = plan.usersLeft [] r
    rw [hleft, UsageTable.usage, IdMap.getD, IdMap.getD, IdMap.get?_map]
    cases plan.usage.uses.get? r <;> rfl
  · show r ∈ (∅ : IdSet .resource) ↔ _
    simp

/-- Whatever precedes a pass that has begun is complete. -/
theorem done_of_precedes {a : PassId} (h : Orderly frame plan begun d) (hp : p ∈ begun)
    (ha : plan.graph.Precedes a p) : a ∈ d.frontier.done := h.frontier.done_of_precedes ha hp

/-- So is whatever precedes the head of the queue. -/
theorem done_of_precedes_head {a : PassId} {rest : List PassId} (h : Orderly frame plan begun d)
    (hready : d.frontier.ready = p :: rest) (ha : plan.graph.Precedes a p) :
    a ∈ d.frontier.done :=
  (h.frontier.take hready).2.done_of_precedes ha (by simp)

theorem length_done_le (h : Orderly frame plan begun d) (hf : plan.Fits frame) :
    d.frontier.done.length ≤ plan.passCount := by
  rw [← Plan.Fits.length_order]
  apply (h.frontier.done_nodup.subperm _).length_le
  intro p hp
  exact h.roster.mem_order hf (h.frontier.done_taken p hp)

/-- All passes are done as soon as there are as many done as there are. -/
theorem done_perm (h : Orderly frame plan begun d) (hf : plan.Fits frame)
    (hlength : d.frontier.done.length = plan.passCount) : d.frontier.done.Perm plan.order := by
  apply (h.frontier.done_nodup.subperm _).perm_of_length_le
  · exact Nat.le_of_eq (Plan.Fits.length_order.trans hlength.symm)
  · intro p hp
    exact h.roster.mem_order hf (h.frontier.done_taken p hp)

/-! ### A pass begins -/

theorem begin_ok {rest : List PassId} {handles : IdMap .resource η}
    (h : Orderly frame plan begun d) (herror : d.error = none)
    (hready : d.frontier.ready = p :: rest) (hpass : frame.pass? p = some pass)
    (he : e = { d with
      frontier := { d.frontier with ready := rest }
      constructed := e.constructed
      host := e.host
      running := d.running ++ [(p, handles)] })
    (hconstructed : ∀ x, x ∈ e.constructed ↔
      x ∈ d.constructed ∨ x ∈ pass.resources ∧ isNew plan d.constructed x) :
    Orderly frame plan (begun ++ [p]) e ∧ e.error = none := by
  have hbooks := h.books herror
  have hfrontier : e.frontier = { d.frontier with ready := rest } := by rw [he]
  have hrunning : e.runningPasses = d.runningPasses ++ [p] := by
    rw [he]
    simp [runningPasses]
  have husers : e.users = d.users := by rw [he]
  have hroster := h.roster.begin hready hfrontier hrunning
  constructor
  · apply of_roster hroster
    · intro r
      rw [husers, hbooks.users]
      apply Plan.Fits.countP_le_usersLeft hroster.running_nodup
      intro q hq
      have hdone := (hroster.running q hq).2
      rwa [hfrontier] at hdone
    · rw [he]
      exact h.lost
    · intro _
      exact hbooks.begin hpass (by rw [hfrontier]) husers hrunning hconstructed
  · rw [he]
    exact herror

/-- A pass that fails to begin counts as begun all the same. -/
theorem begin_error {rest : List PassId} (err : RunError) (h : Orderly frame plan begun d)
    (hready : d.frontier.ready = p :: rest)
    (he : e = { d with
      frontier := { d.frontier with ready := rest }
      constructed := e.constructed
      host := e.host }) :
    Orderly frame plan (begun ++ [p]) (e.fail err) ∧ (e.fail err).error ≠ none := by
  have hfrontier : (e.fail err).frontier = { d.frontier with ready := rest } := by
    rw [fail_frontier, he]
  have hrunning : (e.fail err).runningPasses = d.runningPasses := by
    rw [runningPasses_fail, he]
    rfl
  have hroster := h.roster.fail_begin hready hfrontier hrunning
  refine ⟨of_roster hroster (fun r => ?_) ?_ fun hnone => absurd hnone fail_error_ne_none,
    fail_error_ne_none⟩
  · rw [hrunning, fail_users, he]
    exact h.users r
  · rw [fail_lost, he]
    exact h.lost

/-! ### A pass is finished -/

/-- A running pass that stops leaves its users counted, as far as they were counted down. -/
theorem users_of_prefix (h : Orderly frame plan begun d) (hf : plan.Fits frame)
    (hrunning : p ∈ d.runningPasses) (hpass : frame.pass? p = some pass) {pre : List ResourceId}
    (hpre : pre <+: pass.resources.toList) (r : ResourceId) :
    (d.runningPasses.erase p).countP (plan.isUser r) ≤
      (pre.foldl countDown d.users).getD r 0 := by
  have hnodup : pre.Nodup := hpre.sublist.nodup pass.resources.nodup_toList
  have hcount := (List.perm_cons_erase hrunning).countP_eq (plan.isUser r)
  have hle := h.users r
  rw [getD_foldl_countDown hnodup]
  by_cases hr : r ∈ pre
  · have huser : plan.isUser r p = true :=
      hf.isUser_iff.mpr ⟨pass, hpass, hpre.subset hr⟩
    rw [List.countP_cons_of_pos huser] at hcount
    rw [if_pos hr, getD_one_of_pos (by omega)]
    omega
  · rw [if_neg hr]
    rw [List.countP_cons] at hcount
    omega

theorem finish_ok (h : Orderly frame plan begun d) (hf : plan.Fits frame)
    (hrunning : p ∈ d.runningPasses) (hpass : frame.pass? p = some pass)
    (he : e = { d with
      users := pass.resources.toList.foldl countDown d.users
      running := d.running.eraseP fun x => x.1 = p
      frontier := d.frontier.complete plan.graph p
      host := e.host }) :
    Orderly frame plan begun e ∧ e.error = d.error ∧
      e.frontier.done = d.frontier.done ++ [p] := by
  have hruns : e.runningPasses = d.runningPasses.erase p := by
    rw [he]
    exact map_eraseP_running
  have husers : e.users = pass.resources.toList.foldl countDown d.users := by rw [he]
  have herror : e.error = d.error := by rw [he]
  obtain ⟨hroster, hdone⟩ := h.roster.finish hf hrunning (by rw [he]) hruns
  refine ⟨of_roster hroster (fun r => ?_) ?_ fun hnone => ?_, herror, hdone⟩
  · rw [hruns, husers]
    exact h.users_of_prefix hf hrunning hpass (List.prefix_refl _) r
  · rw [he]
    exact h.lost
  · have hbooks := h.books (herror ▸ hnone)
    exact hbooks.finish hf hpass h.running_nodup (h.running p hrunning).2 hdone husers hruns
      (by rw [he])

theorem finish_error (err : RunError) (h : Orderly frame plan begun d) (hf : plan.Fits frame)
    (hrunning : p ∈ d.runningPasses) (hpass : frame.pass? p = some pass) {pre : List ResourceId}
    (hpre : pre <+: pass.resources.toList)
    (he : e = { d with
      users := pre.foldl countDown d.users
      running := d.running.eraseP fun x => x.1 = p
      host := e.host }) :
    Orderly frame plan begun (e.fail err) ∧ (e.fail err).error ≠ none ∧
      (e.fail err).frontier.done = d.frontier.done := by
  have hfrontier : (e.fail err).frontier = d.frontier := by
    rw [fail_frontier, he]
  have hruns : (e.fail err).runningPasses = d.runningPasses.erase p := by
    rw [runningPasses_fail, he]
    exact map_eraseP_running
  have hroster := h.roster.fail_finish hfrontier hruns
  refine ⟨of_roster hroster (fun r => ?_) ?_ fun hnone => absurd hnone fail_error_ne_none,
    fail_error_ne_none, by rw [hfrontier]⟩
  · rw [hruns, fail_users, he]
    exact h.users_of_prefix hf hrunning hpass hpre r
  · rw [fail_lost, he]
    exact h.lost

/-! ### Progress -/

/-- **Without an error, some pass is ready or runs until all passes are done.** -/
theorem progress (h : Orderly frame plan begun d) (hf : plan.Fits frame) (herror : d.error = none)
    (hleft : d.frontier.done.length < plan.passCount) :
    d.frontier.ready ≠ [] ∨ d.runningPasses ≠ [] :=
  h.roster.progress hf (h.books herror).accounted hleft

end Orderly

end Dispatch

end FramePlan
