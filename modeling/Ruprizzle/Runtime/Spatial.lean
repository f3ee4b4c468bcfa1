import Ruprizzle.Data.Splitting
import Ruprizzle.Data.Text

namespace Ruprizzle.Runtime

-- Geometries and their well-known text. F is what a finite coordinate is.

structure Point (F : Type) where
  x : F
  y : F
  srid : Nat
  deriving DecidableEq

structure LineString (F : Type) where
  points : List (Point F)
  srid : Nat
  deriving DecidableEq

structure Polygon (F : Type) where
  rings : List (List (Point F))
  srid : Nat
  deriving DecidableEq

structure MultiPolygon (F : Type) where
  polygons : List (Polygon F)
  srid : Nat
  deriving DecidableEq

-- How coordinates are printed and parsed.
structure Coordinates (F : Type) where
  print : F → List Char
  parse : List Char → Except String F

namespace Spatial

variable {F : Type} (num : Coordinates F)

def defaultSrid : Nat := 4326

def Point.new (x y : F) : Point F := ⟨x, y, defaultSrid⟩

def coords (p : Point F) : List Char := num.print p.x ++ ' ' :: num.print p.y

def commaSpace : List Char := [',', ' ']

def joined (items : List (List Char)) : List Char := List.intercalate commaSpace items

def ringText (ring : List (Point F)) : List Char := '(' :: joined (ring.map (coords num)) ++ [')']

def polygonText (rings : List (List (Point F))) : List Char :=
  '(' :: joined (rings.map (ringText num)) ++ [')']

def pointWkt (p : Point F) : List Char := "POINT(".toList ++ coords num p ++ [')']

def pointEwkt (p : Point F) : List Char :=
  "SRID=".toList ++ (toString p.srid).toList ++ ';' :: pointWkt num p

def lineStringWkt (l : LineString F) : List Char := "LINESTRING".toList ++ ringText num l.points

def polygonWkt (g : Polygon F) : List Char := "POLYGON".toList ++ polygonText num g.rings

def multiPolygonWkt (m : MultiPolygon F) : List Char :=
  "MULTIPOLYGON(".toList ++ joined (m.polygons.map fun g => polygonText num g.rings) ++ [')']

def stripPrefix (word text : List Char) : Option (List Char) :=
  if word.isPrefixOf text then some (text.drop word.length) else none

def splitWhitespace (text : List Char) : List (List Char) :=
  (text.splitOnP Text.isWhitespace).filter fun word => !word.isEmpty

-- What stands between the brackets around a text.
def bracketed (body : List Char) : Option (List Char) :=
  if body.head? = some '(' ∧ body.getLast? = some ')' then some (Text.trim (body.drop 1).dropLast)
  else none

-- The digits one after another, as they fit.
def readU32 : List Char → Nat → Except String Nat
  | [], n => .ok n
  | c :: rest, n =>
      if c.isDigit then
        let next := 10 * n + (c.toNat - '0'.toNat)
        if next < 2 ^ 32 then readU32 rest next else .error "number too large to fit in target type"
      else .error "invalid digit found in string"

def parseU32 (text : List Char) : Except String Nat :=
  match text with
  | [] => .error "cannot parse integer from empty string"
  | ['+'] => .error "invalid digit found in string"
  | '+' :: digits => readU32 digits 0
  | digits => readU32 digits 0

def parseCoordinate (failed : String) (text : List Char) : Except String F :=
  (num.parse text).mapError fun e => failed ++ ": " ++ e

-- The reference system and the text after it.
def sridHeader (s : List Char) : Except String (Nat × List Char) :=
  if "SRID=".toList.isPrefixOf s then
    let rest := s.drop 5
    if ';' ∈ rest then
      let digits := rest.takeWhile (· ≠ ';')
      match parseU32 digits with
      | .ok srid => .ok (srid, Text.trim ((rest.dropWhile (· ≠ ';')).drop 1))
      | .error e => .error ("invalid SRID " ++ String.ofList digits ++ ": " ++ e)
    else .error ("malformed EWKT missing ';': " ++ String.ofList s)
  else .ok (defaultSrid, Text.trim s)

def firstTwo (part : List Char) : Option (List Char × List Char) :=
  match splitWhitespace part with
  | x :: y :: _ => some (x, y)
  | _ => none

-- What a point is written with between its brackets.
def pointInner (body : List Char) : Option (List Char) :=
  ((stripPrefix "POINT".toList body).or (stripPrefix "point".toList body)).bind fun rest =>
    bracketed (Text.trim rest)

def readPoint (srid : Nat) (x y : List Char) : Except String (Point F) := do
  let px ← parseCoordinate num "invalid x coordinate" x
  let py ← parseCoordinate num "invalid y coordinate" y
  .ok ⟨px, py, srid⟩

def pointFromStr (text : List Char) : Except String (Point F) := do
  let s := Text.trim text
  let (srid, body) ← sridHeader s
  match (pointInner body).bind firstTwo with
  | some (x, y) => readPoint num srid x y
  | none =>
      if ',' ∈ s then
        readPoint num srid (Text.trim (s.takeWhile (· ≠ ',')))
          (Text.trim ((s.dropWhile (· ≠ ',')).drop 1))
      else .error ("cannot parse Point from '" ++ String.ofList s ++ "'")

-- The points of the parts between commas. A part with fewer than two words is left out.
def readParts : List (List Char) → Except String (List (Point F))
  | [] => .ok []
  | part :: rest =>
      match firstTwo part with
      | some (x, y) => do
          let px ← parseCoordinate num "invalid x" x
          let py ← parseCoordinate num "invalid y" y
          let more ← readParts rest
          .ok (Point.new px py :: more)
      | none => readParts rest

def comma : List Char := [',']

def ringEnd : List Char := [')', ',']

def polygonEnd : List Char := [')', ')', ',']

-- The text after the name of the geometry, which may be left out.
def bodyOf (name lower : List Char) (text : List Char) : List Char :=
  let s := Text.trim text
  match (stripPrefix name s).or (stripPrefix lower s) with
  | some rest => Text.trim rest
  | none => s

def lineStringBody (text : List Char) : List Char :=
  bodyOf "LINESTRING".toList "linestring".toList text

def lineStringFromStr (text : List Char) : Except String (LineString F) :=
  match bracketed (lineStringBody text) with
  | some inner => do
      let points ← readParts num (Splitting.split comma inner)
      .ok ⟨points, defaultSrid⟩
  | none => .error ("cannot parse LineString from '" ++ String.ofList (Text.trim text) ++ "'")

def ringOf (piece : List Char) : List Char :=
  ((((Text.trim piece).dropWhile (· = '(')).reverse).dropWhile (· = ')')).reverse

-- A ring without points is left out.
def readRings : List (List Char) → Except String (List (List (Point F)))
  | [] => .ok []
  | piece :: rest => do
      let ring ← readParts num (Splitting.split comma (ringOf piece))
      let more ← readRings rest
      .ok (if ring.isEmpty then more else ring :: more)

def polygonBody (text : List Char) : List Char := bodyOf "POLYGON".toList "polygon".toList text

def polygonFromStr (text : List Char) : Except String (Polygon F) :=
  match bracketed (polygonBody text) with
  | some inner => do
      let rings ← readRings num (Splitting.split ringEnd inner)
      .ok ⟨rings, defaultSrid⟩
  | none => .error ("cannot parse Polygon from '" ++ String.ofList (Text.trim text) ++ "'")

def multiPolygonBody (text : List Char) : List Char :=
  bodyOf "MULTIPOLYGON".toList "multipolygon".toList text

-- What a polygon is read from: the brackets that the cut took off are put back.
def polygonPiece (piece : List Char) : List Char := Text.trim (piece ++ [')', ')'])

-- A polygon that cannot be read is left out.
def multiPolygonFromStr (text : List Char) : Except String (MultiPolygon F) :=
  match bracketed (multiPolygonBody text) with
  | some inner => .ok ⟨(Splitting.split polygonEnd inner).filterMap fun piece =>
      (polygonFromStr num (polygonPiece piece)).toOption, defaultSrid⟩
  | none => .error ("cannot parse MultiPolygon from '" ++ String.ofList (Text.trim text) ++ "'")

inductive Kind
  | point | lineString | polygon | multiPolygon
  deriving DecidableEq, Repr

inductive Geometry (F : Type)
  | point (p : Point F)
  | lineString (l : LineString F)
  | polygon (g : Polygon F)
  | multiPolygon (m : MultiPolygon F)
  deriving DecidableEq

def Geometry.kind : Geometry F → Kind
  | point _ => .point
  | lineString _ => .lineString
  | polygon _ => .polygon
  | multiPolygon _ => .multiPolygon

-- A point is written with its reference system, which the others do not show.
def Geometry.text : Geometry F → List Char
  | point p => pointEwkt num p
  | lineString l => lineStringWkt num l
  | polygon g => polygonWkt num g
  | multiPolygon m => multiPolygonWkt num m

def fromStr (text : List Char) : Kind → Except String (Geometry F)
  | .point => (pointFromStr num text).map .point
  | .lineString => (lineStringFromStr num text).map .lineString
  | .polygon => (polygonFromStr num text).map .polygon
  | .multiPolygon => (multiPolygonFromStr num text).map .multiPolygon

end Spatial

end Ruprizzle.Runtime
