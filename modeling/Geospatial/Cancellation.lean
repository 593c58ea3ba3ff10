import Geospatial.Fault

/-! Cooperative cancellation. An operation that may be cancelled takes a signal and asks
it once per row or step of its outer loop. A pool holds signals under handles; copies of
a handle share the signal, so triggering one triggers all. -/
namespace Geospatial

/-- A signal as an operation sees it: absent, not triggered or triggered. -/
inductive Signal where
  | absent
  | waiting
  | triggered
  deriving DecidableEq

namespace Signal

/-- Fails once the signal is triggered. -/
def check : Signal → Outcome K Unit
  | .triggered => .error .cancelled
  | _ => .ok ()

/-- Runs a step for each element, asking the signal before each one. -/
def forEach (s : Signal) (xs : List α) (step : α → Outcome K β) : Outcome K (List β) :=
  xs.mapM fun x => do
    s.check
    step x

end Signal

/-- Signals and the handles that name them. -/
structure SignalPool where
  /-- The signal of each handle. -/
  handles : Array Nat
  triggered : Array Bool

namespace SignalPool

/-- One handle to one waiting signal. -/
def single : SignalPool := ⟨#[0], #[false]⟩

/-- Adds a handle to the signal of handle `i`. -/
def copy (p : SignalPool) (i : Nat) : SignalPool :=
  { p with handles := p.handles.push (p.handles.getD i 0) }

/-- Adds a handle to a new waiting signal. -/
def fresh (p : SignalPool) : SignalPool :=
  ⟨p.handles.push p.triggered.size, p.triggered.push false⟩

/-- Triggers the signal of handle `i`. -/
def trigger (p : SignalPool) (i : Nat) : SignalPool :=
  match p.handles[i]? with
  | some s => { p with triggered := p.triggered.setIfInBounds s true }
  | none => p

/-- The signal of each handle in the order of their making. -/
def signals (p : SignalPool) : List Signal :=
  p.handles.toList.map fun s => if p.triggered.getD s false then .triggered else .waiting

end SignalPool
end Geospatial
