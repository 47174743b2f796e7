import FramePlan.Dataflow
import FramePlan.Proofs.Plan.Precedence
import FramePlan.Proofs.Swaps

/-!
# Every order that respects the graph computes the same

Two passes that the graph does not order neither share a resource that one of them outputs nor lie
at two ends of a move. So they can be swapped, together with the moves that follow them, and all
orders that respect the graph come from each other by such swaps.

* `Dataflow.perform_comm`, `Dataflow.perform_handOver`, `Dataflow.handOver_handOver` — what
  commutes.
* `Plan.Fits.run_swap` — neighbours that the graph does not order are swapped.
* `Plan.extensions_agree` — every pass reads the same values in all orders.
-/

namespace FramePlan

namespace Dataflow

variable {ν : Type} {frame : Frame} {moves : MoveTable} {compute : PassId → List ν → Nat → ν}
  {s t : Dataflow ν} {p q : PassId} {r : ResourceId}

/-! ### One pass -/

/-- The values that a pass finds in its inputs. -/
def reading (frame : Frame) (s : Dataflow ν) (p : PassId) : Option (List ν) :=
  (frame.pass? p).map fun pass => pass.inputs.map s.values

/-- The value that a pass gives a resource. -/
def assigned (frame : Frame) (compute : PassId → List ν → Nat → ν) (s : Dataflow ν) (p : PassId)
    (r : ResourceId) : Option ν :=
  (reading frame s p).bind fun read =>
    (frame.pass? p).bind fun pass => pass.result? (compute p) read r

theorem values_perform : (s.perform frame compute p).values r =
    (assigned frame compute s p r).getD (s.values r) := by
  rw [perform, assigned, reading]
  cases frame.pass? p <;> rfl

theorem readings_perform_self : (s.perform frame compute p).readings p =
    (reading frame s p).or (s.readings p) := by
  rw [perform, reading]
  cases frame.pass? p with
  | none => rfl
  | some pass => exact Function.update_self ..

theorem readings_perform_of_ne (hne : q ≠ p) :
    (s.perform frame compute p).readings q = s.readings q := by
  rw [perform]
  cases frame.pass? p with
  | none => rfl
  | some pass => exact Function.update_of_ne hne ..

theorem assigned_eq_none (hr : ¬ frame.Outputs p r) : assigned frame compute s p r = none := by
  rw [assigned, reading]
  cases hpass : frame.pass? p with
  | none => rfl
  | some pass => exact Pass.result?_eq_none fun hout => hr ⟨pass, hpass, hout⟩

theorem values_perform_of_not_outputs (hr : ¬ frame.Outputs p r) :
    (s.perform frame compute p).values r = s.values r := by
  rw [values_perform, assigned_eq_none hr, Option.getD_none]

/-- What a pass reads depends on the values of its inputs only. -/
theorem reading_congr (h : ∀ r, frame.Reads p r → s.values r = t.values r) :
    reading frame s p = reading frame t p := by
  rw [reading, reading]
  cases hpass : frame.pass? p with
  | none => rfl
  | some pass =>
      refine congrArg some (List.map_congr_left fun r hr => h r ⟨pass, hpass, hr⟩)

/-- So does what it sets. -/
theorem assigned_congr (h : ∀ r, frame.Reads p r → s.values r = t.values r) :
    assigned frame compute s p r = assigned frame compute t p r := by
  rw [assigned, assigned, reading_congr h]

/-! ### What commutes -/

/-- Passes that output nothing that the other one touches commute. -/
theorem perform_comm (hne : p ≠ q) (hpq : ∀ r, frame.Outputs p r → ¬ frame.Touches q r)
    (hqp : ∀ r, frame.Outputs q r → ¬ frame.Touches p r) :
    (s.perform frame compute p).perform frame compute q =
      (s.perform frame compute q).perform frame compute p := by
  have untouched : ∀ {a b : PassId}, (∀ r, frame.Outputs a r → ¬ frame.Touches b r) →
      ∀ r, frame.Reads b r → (s.perform frame compute a).values r = s.values r :=
    fun hab r hr => values_perform_of_not_outputs fun hout => hab r hout hr.touches
  refine Dataflow.ext (funext fun r => ?_) (funext fun x => ?_)
  · simp only [values_perform, assigned_congr (untouched hpq), assigned_congr (untouched hqp)]
    by_cases hp : frame.Outputs p r
    · rw [assigned_eq_none fun hq => hpq r hp hq.touches]
      rfl
    · rw [assigned_eq_none hp]
      rfl
  · by_cases hxq : x = q
    · subst hxq
      rw [readings_perform_self, readings_perform_of_ne (Ne.symm hne),
        readings_perform_of_ne (Ne.symm hne), readings_perform_self,
        reading_congr (untouched hpq)]
    · rw [readings_perform_of_ne hxq]
      by_cases hxp : x = p
      · subst hxp
        rw [readings_perform_self, readings_perform_self, readings_perform_of_ne hne,
          reading_congr (untouched hqp)]
      · rw [readings_perform_of_ne hxp, readings_perform_of_ne hxp, readings_perform_of_ne hxq]

section HandOver

variable {ripe ripe' : ResourceId → Prop} [DecidablePred ripe] [DecidablePred ripe']

theorem values_handOver : (s.handOver moves ripe).values r = match moves.backward.get? r with
    | some src => if ripe src then s.values src else s.values r
    | none => s.values r := rfl

/-- What nothing ripe is moved into keeps its value. -/
theorem values_handOver_of_not_ripe (h : ∀ src, moves.backward.get? r = some src → ¬ ripe src) :
    (s.handOver moves ripe).values r = s.values r := by
  rw [values_handOver]
  split
  · next src hsrc => rw [if_neg (h src hsrc)]
  · rfl

theorem handOver_congr (h : ∀ r, ripe r ↔ ripe' r) :
    s.handOver moves ripe = s.handOver moves ripe' := by
  unfold handOver
  simp only [h]

/-- A pass commutes with moves of which it uses neither end. -/
theorem perform_handOver (h : ∀ src d, moves.backward.get? d = some src → ripe src →
      ¬ frame.Touches p src ∧ ¬ frame.Touches p d) :
    (s.handOver moves ripe).perform frame compute p =
      (s.perform frame compute p).handOver moves ripe := by
  have hkept : ∀ r, frame.Touches p r → (s.handOver moves ripe).values r = s.values r :=
    fun r hr => values_handOver_of_not_ripe fun src hsrc hripe => (h src r hsrc hripe).2 hr
  have hread : ∀ r, frame.Reads p r → (s.handOver moves ripe).values r = s.values r :=
    fun r hr => hkept r hr.touches
  have hsame : ∀ {r}, ¬ frame.Touches p r → assigned frame compute s p r = none :=
    fun hr => assigned_eq_none fun hout => hr hout.touches
  refine Dataflow.ext (funext fun d => ?_) (funext fun x => ?_)
  · rw [values_perform, assigned_congr hread, values_handOver, values_handOver]
    cases hback : moves.backward.get? d with
    | none => exact values_perform.symm
    | some src =>
        by_cases hripe : ripe src
        · obtain ⟨hsrc, hd⟩ := h src d hback hripe
          simp only [if_pos hripe]
          rw [values_perform, hsame hd, hsame hsrc]
        · simp only [if_neg hripe]
          exact values_perform.symm
  · show _ = (s.perform frame compute p).readings x
    by_cases hx : x = p
    · subst hx
      rw [readings_perform_self, readings_perform_self, reading_congr hread]
      rfl
    · rw [readings_perform_of_ne hx, readings_perform_of_ne hx]
      rfl

/-- Moves one after another are moves at once, unless what is moved on was moved before. -/
theorem handOver_handOver
    (h : ∀ r src, ripe' r → moves.backward.get? r = some src → ¬ ripe src) :
    (s.handOver moves ripe).handOver moves ripe' =
      s.handOver moves fun r => ripe r ∨ ripe' r := by
  refine Dataflow.ext (funext fun d => ?_) rfl
  cases hback : moves.backward.get? d with
  | none => simp only [values_handOver, hback]
  | some src =>
      simp only [values_handOver (r := d), hback]
      by_cases hripe' : ripe' src
      · rw [if_pos hripe', if_pos (Or.inr hripe'), values_handOver_of_not_ripe (h src · hripe')]
      · simp only [hripe', or_false, if_false]

end HandOver

end Dataflow

/-! ### Runs -/

namespace Dataflow

variable {ν : Type} {frame : Frame} {moves : MoveTable} {compute : PassId → List ν → Nat → ν}
  {s : Dataflow ν} {p : PassId}

/-- The pass has run, and read a value for each of its inputs. -/
def HasRead (s : Dataflow ν) (p : PassId) (pass : Pass) : Prop :=
  ∃ read, s.readings p = some read ∧ read.length = pass.inputs.length

theorem hasRead_perform_self {pass : Pass} (hpass : frame.pass? p = some pass) :
    (s.perform frame compute p).HasRead p pass := by
  refine ⟨pass.inputs.map s.values, ?_, List.length_map ..⟩
  rw [readings_perform_self, reading, hpass]
  rfl

theorem HasRead.perform {q : PassId} {pass : Pass} (hpass : frame.pass? p = some pass)
    (h : s.HasRead p pass) : (s.perform frame compute q).HasRead p pass := by
  by_cases hq : p = q
  · subst hq
    exact hasRead_perform_self hpass
  · obtain ⟨read, hread, hlength⟩ := h
    exact ⟨read, (readings_perform_of_ne hq).trans hread, hlength⟩

theorem HasRead.handOver {ripe : ResourceId → Prop} [DecidablePred ripe] {pass : Pass}
    (h : s.HasRead p pass) : (s.handOver moves ripe).HasRead p pass := h

theorem HasRead.run {pass : Pass} (hpass : frame.pass? p = some pass) (h : s.HasRead p pass)
    (order : List PassId) : (run frame moves compute order s).HasRead p pass := by
  induction order generalizing s with
  | nil => exact h
  | cons q rest ih => exact ih (h.perform hpass).handOver

/-- Each pass of a run reads its inputs. -/
theorem hasRead_run {pass : Pass} (hpass : frame.pass? p = some pass) {order : List PassId}
    (hp : p ∈ order) : (run frame moves compute order s).HasRead p pass := by
  induction order generalizing s with
  | nil => exact absurd hp List.not_mem_nil
  | cons q rest ih =>
      rcases List.mem_cons.mp hp with rfl | hp
      · exact (hasRead_perform_self hpass).handOver.run hpass rest
      · exact ih hp

end Dataflow

/-! ### Orders that respect the graph -/

namespace PassGraph

variable {g : PassGraph} {order : List PassId}

/-- The list runs each pass of the graph once, after its predecessors. -/
structure IsExtension (g : PassGraph) (order : List PassId) : Prop where
  nodup : order.Nodup
  mem_iff : ∀ p, p ∈ order ↔ p ∈ g.passes
  respects : g.Respects order

/-- No pass stands before one that precedes it. -/
theorem IsExtension.pairwise (h : g.IsExtension order) :
    order.Pairwise fun a b => ¬ g.Precedes b a := by
  rw [List.pairwise_iff_getElem]
  intro i j hi hj hij hprecedes
  have hlt := h.respects.idxOf_lt (List.getElem_mem hi) hprecedes
  rw [h.nodup.idxOf_getElem, h.nodup.idxOf_getElem] at hlt
  exact Nat.lt_asymm hij hlt

/-- **Two such lists differ by swaps of passes that the graph does not order.** -/
theorem IsExtension.swaps {other : List PassId} (h : g.IsExtension order)
    (h' : g.IsExtension other) : Swaps g.Precedes order other := by
  refine .of_perm ((List.perm_ext_iff_of_nodup h.nodup h'.nodup).mpr fun p => ?_) h.pairwise
    h'.pairwise
  rw [h.mem_iff, h'.mem_iff]

end PassGraph

namespace Plan

namespace Fits

variable {plan : Plan} {frame : Frame} {ν : Type} {compute : PassId → List ν → Nat → ν}
  {p q : PassId}

theorem isExtension (hf : plan.Fits frame) : plan.graph.IsExtension plan.order :=
  ⟨hf.order_nodup, fun _ => hf.mem_passes.symm, hf.respects⟩

/-- What an unordered pass is done with can be handed over before or after the other one runs. -/
theorem apart_of_unordered (hf : plan.Fits frame) {src d : ResourceId}
    (hpq : ¬ plan.graph.Precedes p q) (hback : plan.moves.backward.get? d = some src)
    (hsrc : frame.Touches p src) : ¬ frame.Touches q d := fun hd =>
  hpq (hf.move_precedes (hf.forward_iff.mpr hback) hsrc hd)

/-- **Neighbours that the graph does not order are swapped** without a change to what the run
computes. -/
theorem run_swap (hf : plan.Fits frame) (hpq : ¬ plan.graph.Precedes p q)
    (hqp : ¬ plan.graph.Precedes q p) (rest : List PassId) (s : Dataflow ν) :
    Dataflow.run frame plan.moves compute (p :: q :: rest) s =
      Dataflow.run frame plan.moves compute (q :: p :: rest) s := by
  by_cases hne : p = q
  · rw [hne]
  have hout : ∀ {a b : PassId}, a ≠ b → ¬ plan.graph.Precedes a b → ¬ plan.graph.Precedes b a →
      ∀ r, frame.Outputs a r → ¬ frame.Touches b r := fun hne hab hba r ha hb =>
    (hf.conflict hne ha hb).elim hab hba
  -- Both sides are the two passes, and then all that only they were left to use is handed over.
  have hboth : ∀ {a b : PassId}, ¬ plan.graph.Precedes a b →
      Dataflow.run frame plan.moves compute (a :: b :: rest) s =
        Dataflow.run frame plan.moves compute rest
          (((s.perform frame compute a).perform frame compute b).handOver plan.moves fun r =>
            (frame.Touches a r ∨ frame.Touches b r) ∧ ∀ x ∈ rest, ¬ frame.Touches x r) := by
    intro a b hab
    simp only [Dataflow.run]
    rw [Dataflow.perform_handOver, Dataflow.handOver_handOver]
    · refine congrArg _ (Dataflow.handOver_congr fun r => ?_)
      simp only [List.forall_mem_cons]
      tauto
    · rintro r src ⟨hr, _⟩ hback ⟨hsrc, _⟩
      exact hf.apart_of_unordered hab hback hsrc hr
    · rintro src d hback ⟨hsrc, hleft⟩
      exact ⟨hleft b List.mem_cons_self, hf.apart_of_unordered hab hback hsrc⟩
  rw [hboth hpq, hboth hqp, Dataflow.perform_comm hne (hout hne hpq hqp)
    (hout (Ne.symm hne) hqp hpq)]
  refine congrArg _ (Dataflow.handOver_congr fun r => ?_)
  rw [or_comm]

theorem run_eq_of_swaps (hf : plan.Fits frame) {order other : List PassId}
    (h : Swaps plan.graph.Precedes order other) (s : Dataflow ν) :
    Dataflow.run frame plan.moves compute order s =
      Dataflow.run frame plan.moves compute other s := by
  induction h generalizing s with
  | refl order => rfl
  | swap rest hpq hqp => exact hf.run_swap hpq hqp rest s
  | cons p hrest ih =>
      simp only [Dataflow.run]
      rw [ih]
      refine congrArg _ (Dataflow.handOver_congr fun r => ?_)
      simp only [hrest.perm.mem_iff]
  | trans _ _ ih ih' => exact (ih s).trans (ih' s)

theorem ofOrder_eq_of_swaps (hf : plan.Fits frame) {order other : List PassId}
    (h : Swaps plan.graph.Precedes order other) (values : ResourceId → ν) :
    Dataflow.ofOrder frame plan.moves compute values order =
      Dataflow.ofOrder frame plan.moves compute values other := by
  unfold Dataflow.ofOrder
  rw [hf.run_eq_of_swaps h]
  refine congrArg _ (Dataflow.handOver_congr fun r => ?_)
  simp only [h.perm.mem_iff]

end Fits

/-- **Every order of the passes that respects the graph computes the same data**: the order of the
plan is one, and in any two of them each pass of the frame reads the same values, and the resources
hold the same values in the end. -/
theorem extensions_agree {ν : Type} {frame : Frame} {plan : Plan} (hdeclared : frame.Declared)
    (hplan : ofFrame frame = .ok plan) (compute : PassId → List ν → Nat → ν)
    (values : ResourceId → ν) :
    plan.graph.IsExtension plan.order ∧
      ∀ order other, plan.graph.IsExtension order → plan.graph.IsExtension other →
        (∀ p pass, frame.pass? p = some pass → ∃ read : List ν, read.length = pass.inputs.length ∧
          (Dataflow.ofOrder frame plan.moves compute values order).readings p = some read ∧
          (Dataflow.ofOrder frame plan.moves compute values other).readings p = some read) ∧
        (Dataflow.ofOrder frame plan.moves compute values order).values =
          (Dataflow.ofOrder frame plan.moves compute values other).values := by
  have hf := fits_of_ofFrame hdeclared hplan
  refine ⟨hf.isExtension, fun order other horder hother => ?_⟩
  rw [← hf.ofOrder_eq_of_swaps (horder.swaps hother) values]
  refine ⟨fun p pass hpass => ?_, rfl⟩
  have hp : p ∈ order :=
    (horder.mem_iff p).mpr (hf.mem_passes.mpr (hf.mem_order_iff_pass?.mpr ⟨pass, hpass⟩))
  have hasRead : (Dataflow.ofOrder frame plan.moves compute values order).HasRead p pass :=
    Dataflow.hasRead_run hpass hp
  obtain ⟨read, hread, hlength⟩ := hasRead
  exact ⟨read, hlength, hread, hread⟩

/-- The relay may tint the draft before it cuts the mask from it: what is shown stays the same. -/
theorem extensions_agree_relay : ∃ read : List Nat, read.length = 2 ∧
    (Dataflow.ofOrder Frame.relay relay.moves (fun p read i => read.foldl (· + ·) (p.index + i + 1))
      (fun _ => 0) [⟨0⟩, ⟨1⟩, ⟨2⟩, ⟨3⟩]).readings ⟨3⟩ = some read ∧
    (Dataflow.ofOrder Frame.relay relay.moves (fun p read i => read.foldl (· + ·) (p.index + i + 1))
      (fun _ => 0) [⟨0⟩, ⟨2⟩, ⟨1⟩, ⟨3⟩]).readings ⟨3⟩ = some read := by
  obtain ⟨hplanned, hagree⟩ := extensions_agree ⟨_, _, rfl⟩ ofFrame_relay
    (fun p read i => read.foldl (· + ·) (p.index + i + 1)) fun _ => 0
  have hpreds : ∀ {p} {done : List PassId}, (∀ a ∈ relay.graph.passes.toList.filter fun a =>
      relay.graph.hasEdge a p, a ∈ done) → ∀ a, relay.graph.hasEdge a p → a ∈ done :=
    fun h a ha => h a (PassGraph.mem_predecessors.mpr ha)
  have hother : relay.graph.IsExtension [⟨0⟩, ⟨2⟩, ⟨1⟩, ⟨3⟩] := by
    refine ⟨by decide, fun p => ?_, ?_⟩
    · rw [← hplanned.mem_iff]
      exact (by decide : [⟨0⟩, ⟨2⟩, ⟨1⟩, ⟨3⟩].Perm relay.order).mem_iff
    · exact (((PassGraph.Respects.nil.snoc (hpreds (by decide))).snoc (hpreds (by decide))).snoc
        (hpreds (by decide))).snoc (hpreds (by decide))
  exact (hagree _ _ hplanned hother).1 ⟨3⟩ _ rfl

end Plan

end FramePlan
