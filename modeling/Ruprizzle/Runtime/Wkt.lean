import Ruprizzle.Runtime.SpatialText

namespace Ruprizzle.Runtime.Spatial

open Splitting

variable {F : Type} {num : Coordinates F}

-- Every ring has a point and every polygon its outer ring.
def Geometry.Proper : Geometry F → Prop
  | point p => p.srid < 2 ^ 32
  | lineString _ => True
  | polygon g => Polygon.Proper g
  | multiPolygon m => ∀ g ∈ m.polygons, Polygon.Proper g

def DefaultPoints (points : List (Point F)) : Prop := ∀ p ∈ points, p.srid = defaultSrid

def Polygon.Default (g : Polygon F) : Prop :=
  g.srid = defaultSrid ∧ ∀ ring ∈ g.rings, DefaultPoints ring

-- Nothing but a lone point has another reference system.
def Geometry.Default : Geometry F → Prop
  | point _ => True
  | lineString l => l.srid = defaultSrid ∧ DefaultPoints l.points
  | polygon g => Polygon.Default g
  | multiPolygon m => m.srid = defaultSrid ∧ ∀ g ∈ m.polygons, Polygon.Default g

section Normal

theorem map_eq_self {α : Type} {f : α → α} {items : List α} :
    items.map f = items ↔ ∀ a ∈ items, f a = a := by
  induction items with
  | nil => simp
  | cons a rest ih => rw [List.map_cons, List.cons.injEq, List.forall_mem_cons, ih]

theorem Point.normal_iff {p : Point F} : Point.normal p = p ↔ p.srid = defaultSrid := by
  obtain ⟨x, y, srid⟩ := p
  simp [Point.normal, Point.new, eq_comm]

theorem normalPoints_iff {points : List (Point F)} :
    points.map Point.normal = points ↔ DefaultPoints points := by
  rw [map_eq_self]
  exact forall₂_congr fun _ _ => Point.normal_iff

theorem Polygon.normal_iff {g : Polygon F} : Polygon.normal g = g ↔ Polygon.Default g := by
  obtain ⟨rings, srid⟩ := g
  have hrings : normalRings rings = rings ↔ ∀ ring ∈ rings, DefaultPoints ring := by
    rw [normalRings, map_eq_self]
    exact forall₂_congr fun _ _ => normalPoints_iff
  rw [Polygon.normal, Polygon.mk.injEq, hrings, Polygon.Default, eq_comm (a := defaultSrid), and_comm]

end Normal

theorem ok_iff {ε α : Type} {a b : α} : (Except.ok a : Except ε α) = .ok b ↔ a = b := by
  simp

-- What is read back is the geometry in the default reference system.
theorem round_trip_iff (h : RoundTrips num) {g : Geometry F} (hproper : g.Proper) :
    fromStr num (g.text num) g.kind = .ok g ↔ g.Default := by
  cases g with
  | point p =>
      have hread : fromStr num (pointEwkt num p) .point = .ok (.point p) := by
        rw [fromStr, point_text h hproper]
        rfl
      exact iff_of_true hread trivial
  | lineString l =>
      have hread : fromStr num (lineStringWkt num l) .lineString
          = .ok (.lineString ⟨l.points.map Point.normal, defaultSrid⟩) := by
        rw [fromStr, lineString_text h]
        rfl
      obtain ⟨points, srid⟩ := l
      rw [Geometry.text, Geometry.kind, hread, ok_iff, Geometry.lineString.injEq, LineString.mk.injEq,
        normalPoints_iff, Geometry.Default, eq_comm (a := defaultSrid), and_comm]
  | polygon g =>
      have hread : fromStr num (polygonWkt num g) .polygon = .ok (.polygon (Polygon.normal g)) := by
        rw [fromStr, polygon_text h hproper]
        rfl
      rw [Geometry.text, Geometry.kind, hread, ok_iff, Geometry.polygon.injEq, Polygon.normal_iff]
      rfl
  | multiPolygon m =>
      have hread : fromStr num (multiPolygonWkt num m) .multiPolygon
          = .ok (.multiPolygon ⟨m.polygons.map Polygon.normal, defaultSrid⟩) := by
        rw [fromStr, multiPolygon_text h hproper]
        rfl
      have hpolygons : m.polygons.map Polygon.normal = m.polygons ↔
          ∀ g ∈ m.polygons, Polygon.Default g := by
        rw [map_eq_self]
        exact forall₂_congr fun _ _ => Polygon.normal_iff
      obtain ⟨polygons, srid⟩ := m
      rw [Geometry.text, Geometry.kind, hread, ok_iff, Geometry.multiPolygon.injEq,
        MultiPolygon.mk.injEq, hpolygons, Geometry.Default, eq_comm (a := defaultSrid), and_comm]

end Ruprizzle.Runtime.Spatial
