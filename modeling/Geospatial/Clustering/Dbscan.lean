import Geospatial.Clustering
import Geospatial.Order

/-! Clustering by density. A point with enough points around it is a core; cores within
reach of each other share a cluster, and any other point joins its nearest core within
reach, if there is one. A cluster is filled from a first core by a search that keeps the cores it
has labelled and not yet visited on a stack. The search ends: a core is put on the stack once, when
it gets its label. -/
namespace Geospatial.Clustering

/-- What counts as dense: how far neighbors may be, and how many make a core. -/
structure Density (K : Type) where
  reach : K
  leastCount : Nat

/-- Points by their indices: those within reach of each point, and which of them are cores. -/
structure Surroundings where
  neighbors : List (List Nat)
  cores : List Bool

namespace Surroundings

def near (g : Surroundings) (i : Nat) : List Nat := g.neighbors.getD i []

def isCore (g : Surroundings) (i : Nat) : Bool := g.cores.getD i false

end Surroundings

/-- A cluster that is being filled. -/
structure Flood where
  labels : List (Option Nat)
  /-- Cores with a label, the last one first, whose neighbors have not been looked at. -/
  stack : List Nat

namespace Flood

variable (g : Surroundings) (id : Nat)

/-- Labels a core that has no label, and puts it on the stack. -/
def visit (s : Flood) (n : Nat) : Flood :=
  if g.isCore n && s.labels[n]? == some none then ⟨s.labels.set n (some id), n :: s.stack⟩ else s

/-- Takes the last core from the stack and visits its neighbors. -/
def step (s : Flood) : Flood :=
  match s.stack with
  | [] => s
  | current :: rest => (g.near current).foldl (visit g id) ⟨s.labels, rest⟩

/-- A place without a label is worth more than one on the stack. -/
def worth (s : Flood) : Nat := 2 * s.labels.countP Option.isNone + s.stack.length

theorem worth_visit_le (s : Flood) (n : Nat) : (s.visit g id n).worth ≤ s.worth := by
  unfold visit
  split
  · rename_i test
    obtain ⟨inside, unlabelled⟩ : ∃ inside : n < s.labels.length, s.labels[n] = none := by
      simpa [List.getElem?_eq_some_iff] using (Bool.and_eq_true_iff.mp test).2
    have some_left : 0 < s.labels.countP Option.isNone :=
      List.countP_pos_iff.mpr ⟨none, unlabelled ▸ List.getElem_mem inside, rfl⟩
    have fewer := List.countP_set (p := Option.isNone) (a := some id) inside
    simp only [unlabelled, Option.isNone_none, Option.isNone_some, if_true, Bool.false_eq_true,
      if_false] at fewer
    simp only [worth, List.length_cons]
    omega
  · exact Nat.le_refl _

theorem worth_foldl_visit_le (ns : List Nat) (s : Flood) :
    (ns.foldl (visit g id) s).worth ≤ s.worth := by
  induction ns generalizing s with
  | nil => exact Nat.le_refl _
  | cons n ns ih => exact Nat.le_trans (ih (s.visit g id n)) (s.worth_visit_le g id n)

theorem worth_step_lt {s : Flood} {current : Nat} {rest : List Nat}
    (waiting : s.stack = current :: rest) : (s.step g id).worth < s.worth := by
  rw [step, waiting]
  refine Nat.lt_of_le_of_lt (worth_foldl_visit_le g id (g.near current) ⟨s.labels, rest⟩) ?_
  simp only [worth, waiting, List.length_cons]
  omega

/-- Takes steps until the stack is empty, and gives the labels. -/
def run (s : Flood) : List (Option Nat) :=
  match _ : s.stack with
  | [] => s.labels
  | _ :: _ => run (s.step g id)
termination_by s.worth
decreasing_by exact worth_step_lt g id ‹_›

end Flood

/-- Labels of cores, and the number of the cluster that is filled next. -/
structure Seeding where
  labels : List (Option Nat)
  next : Nat

/-- Fills a cluster from a core, unless another cluster has it. -/
def Seeding.seed (g : Surroundings) (s : Seeding) (i : Nat) : Seeding :=
  if g.isCore i && s.labels[i]? == some none then
    ⟨Flood.run g s.next ⟨s.labels.set i (some s.next), [i]⟩, s.next + 1⟩
  else s

/-- The labels of the cores, which are seeds in the order of the points. -/
def coreLabels (g : Surroundings) (count : Nat) : List (Option Nat) :=
  ((List.range count).foldl (Seeding.seed g) ⟨List.replicate count none, 0⟩).labels

variable {K : Type} [Scalar K]

def Density.check (d : Density K) : Outcome K Unit := do
  if !(Scalar.isFinite d.reach && 0 < d.reach) then Outcome.refuse (.neighborhoodRadius d.reach)
  if d.leastCount = 0 then Outcome.refuse .neighborhoodCount

section
variable (distance : Position K → Position K → K) (d : Density K) (points : List (Position K))

/-- Indices of the points within reach, which `p` itself may be among. -/
def neighborhood (p : Position K) : List Nat :=
  (points.zipIdx.filter fun q => distance p q.1 ≤ d.reach).map (·.2)

/-- Enough points lie within reach. -/
def surroundings (neighbors : List (List Nat)) : Surroundings :=
  ⟨neighbors, neighbors.map fun ns => d.leastCount ≤ ns.length⟩

/-- Cores nearer to `p` come first, of equally near ones the one further west, then
further south. -/
def coreOrder (p : Position K) (a b : Position K × Nat) : Ordering :=
  ((Scalar.order (distance p a.1) (distance p b.1)).then (Scalar.order a.1.x b.1.x)).then
    (Scalar.order a.1.y b.1.y)

/-- The nearest core within reach of a point. -/
def nearestCore? (g : Surroundings) (p : Position K × Nat) : Option (Position K × Nat) :=
  Order.least? (coreOrder distance p.1)
    (((g.near p.2).filter g.isCore).filterMap fun j => points[j]?.map fun q => (q, j))

/-- Gives a point that is no core the label of its nearest core. -/
def joinBorder (g : Surroundings) (labels : List (Option Nat)) (p : Position K × Nat) :
    List (Option Nat) :=
  if g.isCore p.2 then labels
  else labels.set p.2 ((nearestCore? distance points g p).bind fun c => labels[c.2]?.join)

/-- Clusters by density. -/
def dbscan (signal : Signal) (points : List (Position K)) : Outcome K (Clustering K) := do
  d.check
  requireFinite points
  let neighbors ← signal.forEach points fun p => .ok (neighborhood distance d points p)
  let g := surroundings d neighbors
  let labels := points.zipIdx.foldl (joinBorder distance points g) (coreLabels g points.length)
  return ofLabels points labels

end
end Geospatial.Clustering
