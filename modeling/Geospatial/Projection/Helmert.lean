import Geospatial.Fault

/-! Similarity transformations between two earth-centered frames: a displacement, three
small rotations and a change of scale. The rotation matrix is linearized, so its
inverse is taken by Cramer's rule and not by changing signs. -/
namespace Geospatial

/-- A point or vector of an earth-centered frame, in meters. -/
structure Cartesian (K : Type) where
  x : K
  y : K
  z : K
  deriving BEq

structure Helmert (K : Type) where
  /-- Displacement in meters. -/
  tx : K
  ty : K
  tz : K
  /-- Rotations in seconds of arc. -/
  rx : K
  ry : K
  rz : K
  /-- Change of scale in millionths. -/
  ds : K
  deriving BEq

namespace Helmert

variable {K : Type} [Scalar K]

def ofDisplacement (tx ty tz : K) : Helmert K := ⟨tx, ty, tz, 0, 0, 0, 0⟩

def identity : Helmert K := ofDisplacement 0 0 0

/-- Three parameters are a displacement, seven add rotations and scale. -/
def ofParameters : List K → Outcome K (Helmert K)
  | [tx, ty, tz] => .ok (ofDisplacement tx ty tz)
  | [tx, ty, tz, rx, ry, rz, ds] => .ok ⟨tx, ty, tz, rx, ry, rz, ds⟩
  | ps => .error (.projection (.shiftParameterCount ps.length))

def isIdentity (h : Helmert K) : Bool := h == identity

def secondOfArc : K := Scalar.pi / (180 * 3600)

def scale (h : Helmert K) : K := 1 + h.ds * 1e-6

/-- A matrix by its columns. -/
structure Matrix (K : Type) where
  first : Cartesian K
  second : Cartesian K
  third : Cartesian K

/-- The scaled rotation. -/
def matrix (h : Helmert K) : Matrix K :=
  let m := h.scale
  let rx := h.rx * secondOfArc
  let ry := h.ry * secondOfArc
  let rz := h.rz * secondOfArc
  { first := ⟨m, rz * m, -ry * m⟩
    second := ⟨-rz * m, m, rx * m⟩
    third := ⟨ry * m, -rx * m, m⟩ }

/-- Determinant, expanded along the first row. -/
def Matrix.det (c : Matrix K) : K :=
  c.first.x * (c.second.y * c.third.z - c.third.y * c.second.z) -
    c.second.x * (c.first.y * c.third.z - c.third.y * c.first.z) +
    c.third.x * (c.first.y * c.second.z - c.second.y * c.first.z)

/-- Takes a point of the source frame to the target frame. -/
def apply (h : Helmert K) (p : Cartesian K) : Cartesian K :=
  let m := h.matrix
  { x := h.tx + m.first.x * p.x + m.second.x * p.y + m.third.x * p.z
    y := h.ty + m.first.y * p.x + m.second.y * p.y + m.third.y * p.z
    z := h.tz + m.first.z * p.x + m.second.z * p.y + m.third.z * p.z }

/-- Takes a point of the target frame back to the source frame. -/
def applyInverse (h : Helmert K) (p : Cartesian K) : Cartesian K :=
  let m := h.matrix
  let b : Cartesian K := ⟨p.x - h.tx, p.y - h.ty, p.z - h.tz⟩
  { x := Matrix.det { m with first := b } / m.det
    y := Matrix.det { m with second := b } / m.det
    z := Matrix.det { m with third := b } / m.det }

end Helmert
end Geospatial
