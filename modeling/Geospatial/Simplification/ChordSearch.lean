import Geospatial.Segment

/-! The vertices that a line keeps when it is simplified by chords. A stretch of the line is cut at
the vertex farthest from its chord, if that is farther than the tolerance, and both parts are
searched in turn. The stretches still to be searched stand on a stack, so that no line is too long.
-/
namespace Geospatial.Path

variable {K : Type} [Scalar K]

/-- A stretch of a line, by the places of its first and last vertex. -/
structure Stretch where
  first : Nat
  last : Nat
  deriving DecidableEq

namespace Stretch

/-- Edges of the line in the stretch. -/
def length (r : Stretch) : Nat := r.last - r.first

/-- The places strictly between the ends. -/
def inner (r : Stretch) : List Nat := List.range' (r.first + 1) (r.length - 1)

variable (vertex : Nat → Position K)

/-- Distance of a vertex from the chord of a stretch. -/
def offChord (r : Stretch) (i : Nat) : K :=
  Segment.distance (vertex i) (vertex r.first) (vertex r.last)

/-- The better of two candidates for the farthest vertex: another one only if it is farther. -/
def farther (r : Stretch) (best : Nat × K) (i : Nat) : Nat × K :=
  let d := r.offChord vertex i
  if best.2 < d then (i, d) else best

/-- The first of the inner vertices farthest from the chord, with its distance. Where no vertex is
off the chord it is the first end, at no distance. -/
def farthest (r : Stretch) : Nat × K := r.inner.foldl (r.farther vertex) (r.first, 0)

/-- Where a stretch is cut. -/
def cut? (tolerance : K) (r : Stretch) : Option Nat :=
  if r.length ≤ 1 then none
  else
    let (i, d) := r.farthest vertex
    if tolerance < d then some i else none

end Stretch

/-- A search for the vertices that stay. -/
structure ChordSearch where
  /-- Whether the vertex at each place stays. -/
  kept : Array Bool
  /-- The stretches still to be searched, the newest one first. -/
  waiting : List Stretch
  deriving Inhabited

namespace ChordSearch

/-- The search of a line of `n` vertices, of which the ends stay. -/
def start (n : Nat) : ChordSearch :=
  { kept := ((Array.replicate n false).setIfInBounds 0 true).setIfInBounds (n - 1) true
    waiting := [⟨0, n - 1⟩] }

/-- Takes the newest stretch from the stack, and puts both parts in its place if it is cut. -/
def step (vertex : Nat → Position K) (tolerance : K) (s : ChordSearch) : ChordSearch :=
  match s.waiting with
  | [] => s
  | r :: rest =>
    match r.cut? vertex tolerance with
    | none => ⟨s.kept, rest⟩
    | some i => ⟨s.kept.setIfInBounds i true, ⟨i, r.last⟩ :: ⟨r.first, i⟩ :: rest⟩

/-- One round of the loop: a step, or the end if no stretch waits. -/
def round (vertex : Nat → Position K) (tolerance : K) (s : ChordSearch) :
    Id (ChordSearch ⊕ ChordSearch) :=
  if s.waiting.isEmpty then .inr s else .inl (s.step vertex tolerance)

/-- Takes steps for as long as a stretch waits, which may be for ever. -/
def run (vertex : Nat → Position K) (tolerance : K) (s : ChordSearch) : ChordSearch :=
  Id.run (repeatM (round vertex tolerance) s)

/-- The vertex at a place stays. -/
def stays (s : ChordSearch) (i : Nat) : Bool := s.kept.getD i false

end ChordSearch

/-- The vertices of a line by their places; none but these are asked for. -/
def vertexAt (line : Array (Position K)) (i : Nat) : Position K := line.getD i ⟨0, 0, none⟩

/-- The search of a whole line. -/
def chordSearch (points : Path K) (tolerance : K) : ChordSearch :=
  (ChordSearch.start points.length).run (vertexAt points.toArray) tolerance

/-- The vertices at the places that pass a test. -/
def select (points : Path K) (stays : Nat → Bool) : Path K :=
  (points.zipIdx.filter fun q => stays q.2).map (·.1)

/-- Keeps the ends and every vertex at which the search cuts. -/
def simplifyByChord (points : Path K) (tolerance : K) : Path K :=
  if points.length < 3 then points else points.select (points.chordSearch tolerance).stays

end Geospatial.Path
