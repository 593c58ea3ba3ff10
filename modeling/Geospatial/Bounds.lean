import Geospatial.Position

/-! Axis-parallel boxes, optionally with a range of heights. Boxes made from corners or
positions have their lower ends first. Overlap and containment are planar and count
the boundary. -/
namespace Geospatial

structure Bounds (K : Type) where
  minX : K
  minY : K
  maxX : K
  maxY : K
  minZ : Option K := none
  maxZ : Option K := none
  deriving BEq

namespace Bounds

variable {K : Type} [Scalar K]

/-- The box with two opposite corners, in either order. -/
def ofCorners (x₁ y₁ x₂ y₂ : K) : Bounds K where
  minX := Scalar.min x₁ x₂
  minY := Scalar.min y₁ y₂
  maxX := Scalar.max x₁ x₂
  maxY := Scalar.max y₁ y₂

/-- The box with two opposite corners and two heights, in either order. -/
def ofCorners3 (x₁ y₁ z₁ x₂ y₂ z₂ : K) : Bounds K :=
  { ofCorners x₁ y₁ x₂ y₂ with minZ := some (Scalar.min z₁ z₂), maxZ := some (Scalar.max z₁ z₂) }

def ofPosition (p : Position K) : Bounds K := ⟨p.x, p.y, p.x, p.y, p.z, p.z⟩

/-- The footprint, without heights. -/
def planar (b : Bounds K) : Bounds K := ofCorners b.minX b.minY b.maxX b.maxY

def mergeHeights (f : K → K → K) : Option K → Option K → Option K
  | some a, some b => some (f a b)
  | a, none => a
  | none, b => b

/-- The least box over two boxes. -/
def union (a b : Bounds K) : Bounds K where
  minX := Scalar.min a.minX b.minX
  minY := Scalar.min a.minY b.minY
  maxX := Scalar.max a.maxX b.maxX
  maxY := Scalar.max a.maxY b.maxY
  minZ := mergeHeights Scalar.min a.minZ b.minZ
  maxZ := mergeHeights Scalar.max a.maxZ b.maxZ

/-- The least box over a box and a position. -/
def extend (b : Bounds K) (p : Position K) : Bounds K := b.union (ofPosition p)

/-- The least box over some boxes, none when there are none. -/
def unionAll? : List (Bounds K) → Option (Bounds K)
  | [] => none
  | b :: bs => some (bs.foldl union b)

/-- The least box over some positions, none when there are none. -/
def ofPositions? : List (Position K) → Option (Bounds K)
  | [] => none
  | p :: ps => some (ps.foldl extend (ofPosition p))

def width (b : Bounds K) : K := b.maxX - b.minX

def height (b : Bounds K) : K := b.maxY - b.minY

def area (b : Bounds K) : K := b.width * b.height

/-- Area that the box gains by growing over another one. -/
def enlargement (a b : Bounds K) : K := (a.union b).area - a.area

def center (b : Bounds K) : Position K := ⟨(b.minX + b.maxX) / 2, (b.minY + b.maxY) / 2, none⟩

def intersects (a b : Bounds K) : Bool :=
  a.minX ≤ b.maxX && b.minX ≤ a.maxX && a.minY ≤ b.maxY && b.minY ≤ a.maxY

/-- The second box lies inside the first. -/
def contains (a b : Bounds K) : Bool :=
  a.minX ≤ b.minX && b.maxX ≤ a.maxX && a.minY ≤ b.minY && b.maxY ≤ a.maxY

def containsPosition (b : Bounds K) (p : Position K) : Bool :=
  b.minX ≤ p.x && p.x ≤ b.maxX && b.minY ≤ p.y && p.y ≤ b.maxY

/-- Moves every side outward by `amount`, inward when it is negative. -/
def expand (b : Bounds K) (amount : K) : Bounds K :=
  { b with
    minX := b.minX - amount
    minY := b.minY - amount
    maxX := b.maxX + amount
    maxY := b.maxY + amount }

/-- Distance of a value from an interval. -/
def gap (lo hi x : K) : K := if x < lo then lo - x else if hi < x then x - hi else 0

/-- Squared planar distance from a position to the box. -/
def distanceSquared (b : Bounds K) (p : Position K) : K :=
  let dx := gap b.minX b.maxX p.x
  let dy := gap b.minY b.maxY p.y
  dx * dx + dy * dy

/-- The planar sides are finite. -/
def isFinite (b : Bounds K) : Bool :=
  Scalar.isFinite b.minX && Scalar.isFinite b.minY && Scalar.isFinite b.maxX && Scalar.isFinite b.maxY

end Bounds
end Geospatial
