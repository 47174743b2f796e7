import FramePlan.Run.Host

/-!
# Observed runs

An observer stands between a run and its host. It lets the work of passes have a state of its own,
which storage does not know of, and keeps what each pass got to see: its handles, and the state that
the host was in while the pass did its work.
-/

namespace FramePlan

/-- What a pass gets to see when it does its work. -/
structure View (σ η : Type) where
  pass : PassId
  handles : IdMap .resource η
  /-- The state of the host. -/
  host : σ

/-- The state of a host, that of the work of passes, and what passes got to see. -/
structure Observed (σ ω η : Type) where
  host : σ
  /-- The state of the work. -/
  own : ω
  /-- The views, oldest first. -/
  views : List (View σ η)

namespace Observed

variable {σ ω η : Type}

/-- No pass did its work. -/
def start (host : σ) (own : ω) : Observed σ ω η := ⟨host, own, []⟩

/-- Lets the host act. -/
def withHost {ε α : Type} (act : EStateM ε σ α) : EStateM ε (Observed σ ω η) α := fun s =>
  match act s.host with
  | .ok a host => .ok a { s with host }
  | .error e host => .error e { s with host }

/-- Lets the work act. -/
def withOwn {ε α : Type} (act : EStateM ε ω α) : EStateM ε (Observed σ ω η) α := fun s =>
  match act s.own with
  | .ok a own => .ok a { s with own }
  | .error e own => .error e { s with own }

/-- A host whose passes are observed, and do some more work. -/
def observer (host : Host σ η)
    (work : PassId → Pass → IdMap .resource η → EStateM WorkFault ω Unit) :
    Host (Observed σ ω η) η where
  construct r := withHost (host.construct r)
  move m := withHost (host.move m)
  destruct r := withHost (host.destruct r)
  request p := withHost (host.request p)
  work p pass handles := do
    modify fun s => { s with views := s.views ++ [⟨p, handles, s.host⟩] }
    withHost (host.work p pass handles)
    withOwn (work p pass handles)
  log note s := { s with host := host.log note s.host }

end Observed

end FramePlan
