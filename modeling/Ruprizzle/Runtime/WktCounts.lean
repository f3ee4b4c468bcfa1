import Mathlib
import Ruprizzle.Runtime.Wkt

namespace Ruprizzle.Runtime.Spatial

open Splitting

variable {F : Type} {num : Coordinates F}

-- Polygons, rings and coordinate pairs.
structure Counts where
  polygons : Nat
  rings : Nat
  pairs : Nat
  deriving DecidableEq, Repr

def Geometry.counts : Geometry F → Counts
  | point _ => ⟨0, 0, 1⟩
  | lineString l => ⟨0, 0, l.points.length⟩
  | polygon g => ⟨1, g.rings.length, g.rings.flatten.length⟩
  | multiPolygon m =>
      ⟨m.polygons.length, (m.polygons.flatMap Polygon.rings).length,
        (m.polygons.flatMap Polygon.rings).flatten.length⟩

-- A sign that no number has and that separates nothing.
def bare (c : Char) : Bool := Text.isWhitespace c || c = '(' || c = ')'

-- The parts between commas that are not bare. The flag tells whether the part so far is.
def pairsFrom : Bool → List Char → Nat
  | sign, [] => sign.toNat
  | sign, c :: rest =>
      if c = ',' then sign.toNat + pairsFrom false rest else pairsFrom (sign || !bare c) rest

def pairsIn (text : List Char) : Nat := pairsFrom false text

-- The brackets that are opened within so many others.
def opened (level : Nat) : Nat → List Char → Nat
  | _, [] => 0
  | depth, c :: rest =>
      if c = '(' then (if depth = level then 1 else 0) + opened level (depth + 1) rest
      else if c = ')' then opened level (depth - 1) rest
      else opened level depth rest

-- Two coordinates with a comma between them are one pair.
def pointPairs (body : List Char) : Nat :=
  match pointInner body with
  | some inner => pairsIn inner
  | none => 1

-- What is written between the brackets of a text.
def written (kind : Kind) (text : List Char) : Counts :=
  match kind with
  | .point =>
      match sridHeader (Text.trim text) with
      | .ok (_, body) => ⟨0, 0, pointPairs body⟩
      | .error _ => ⟨0, 0, 0⟩
  | .lineString =>
      match bracketed (lineStringBody text) with
      | some inner => ⟨0, 0, pairsIn inner⟩
      | none => ⟨0, 0, 0⟩
  | .polygon =>
      match bracketed (polygonBody text) with
      | some inner => ⟨1, opened 0 0 inner, pairsIn inner⟩
      | none => ⟨0, 0, 0⟩
  | .multiPolygon =>
      match bracketed (multiPolygonBody text) with
      | some inner => ⟨opened 0 0 inner, opened 1 0 inner, pairsIn inner⟩
      | none => ⟨0, 0, 0⟩

def signed (part : List Char) : Bool := part.any fun c => !bare c

def paired (part : List Char) : Bool := (firstTwo part).isSome

variable (num) in
def readable (part : List Char) : Bool :=
  match firstTwo part with
  | some (x, y) => (num.parse x).isOk && (num.parse y).isOk
  | none => true

def ringParts (piece : List Char) : List (List Char) := split comma (ringOf piece)

def polygonParts (inner : List Char) : List (List Char) := (split ringEnd inner).flatMap ringParts

def polygonInner (piece : List Char) : Option (List Char) :=
  bracketed (polygonBody (polygonPiece piece))

def ringPieces (piece : List Char) : List (List Char) :=
  match polygonInner piece with
  | some inner => split ringEnd inner
  | none => []

def pieceParts (piece : List Char) : List (List Char) := (ringPieces piece).flatMap ringParts

variable (num) in
def kept (piece : List Char) : Bool :=
  (polygonInner piece).any fun inner => (polygonParts inner).all (readable num)

-- A part that has a sign has the two words of a pair.
def Paired (parts : List (List Char)) : Prop := ∀ part ∈ parts, signed part = true → paired part = true

def hasSign (piece : List Char) : Bool := (ringParts piece).any signed

-- The texts of the coordinates of a point.
def pointWords (s body : List Char) : Option (List Char × List Char) :=
  ((pointInner body).bind firstTwo).or
    (if ',' ∈ s then
      some (Text.trim (s.takeWhile (· ≠ ',')), Text.trim ((s.dropWhile (· ≠ ',')).drop 1))
    else none)

variable (num) in
-- Nothing but pairs stands in a text whose coordinates are numbers, and each piece that has a
-- pair is in brackets of its own.
def Legible (kind : Kind) (text : List Char) : Prop :=
  match kind with
  | .point => ∀ srid body x y, sridHeader (Text.trim text) = .ok (srid, body) →
      pointWords (Text.trim text) body = some (x, y) →
      (num.parse x).isOk = true → (num.parse y).isOk = true → pointPairs body = 1
  | .lineString => ∀ inner, bracketed (lineStringBody text) = some inner →
      (split comma inner).all (readable num) = true → Paired (split comma inner)
  | .polygon => ∀ inner, bracketed (polygonBody text) = some inner →
      (polygonParts inner).all (readable num) = true →
      Paired (polygonParts inner) ∧ (split ringEnd inner).countP hasSign = opened 0 0 inner
  | .multiPolygon => ∀ inner, bracketed (multiPolygonBody text) = some inner →
      (∀ piece ∈ split polygonEnd inner, pairsIn piece = 0 ∨
        kept num piece = true ∧ Paired (pieceParts piece) ∧
          (pieceParts piece).countP signed = pairsIn piece) ∧
      (split polygonEnd inner).countP (kept num) = opened 0 0 inner ∧
      (((split polygonEnd inner).filter (kept num)).flatMap ringPieces).countP hasSign
        = opened 1 0 inner

section Scan

theorem pairsFrom_filter (sign : Bool) (text : List Char) :
    pairsFrom sign (text.filter fun c => !bare c) = pairsFrom sign text := by
  induction text generalizing sign with
  | nil => rfl
  | cons c rest ih =>
      by_cases hbare : bare c = true
      · have hcomma : c ≠ ',' := by
          rintro rfl
          exact absurd hbare (by decide)
        rw [List.filter_cons_of_neg (by simp [hbare]), ih, pairsFrom, if_neg hcomma, hbare]
        simp
      · rw [List.filter_cons_of_pos (by simpa using hbare), pairsFrom, pairsFrom, ih, ih]

theorem pairsIn_congr {text other : List Char}
    (h : text.filter (fun c => !bare c) = other.filter fun c => !bare c) : pairsIn text = pairsIn other := by
  rw [pairsIn, ← pairsFrom_filter, h, pairsFrom_filter, pairsIn]

-- Bare signs do not count, wherever they are taken off.
theorem filter_dropWhile {p : Char → Bool} (hp : ∀ c, p c = true → bare c = true) (text : List Char) :
    (text.dropWhile p).filter (fun c => !bare c) = text.filter fun c => !bare c := by
  induction text with
  | nil => rfl
  | cons c rest ih =>
      by_cases hc : p c = true
      · rw [List.dropWhile_cons_of_pos hc, ih, List.filter_cons_of_neg (by simp [hp c hc])]
      · rw [List.dropWhile_cons_of_neg hc]

theorem filter_dropLast {p : Char → Bool} (hp : ∀ c, p c = true → bare c = true) (text : List Char) :
    ((text.reverse.dropWhile p).reverse).filter (fun c => !bare c) = text.filter fun c => !bare c := by
  rw [List.filter_reverse, filter_dropWhile hp, List.filter_reverse, List.reverse_reverse]

theorem bare_of_isWhitespace {c : Char} (h : Text.isWhitespace c = true) : bare c = true := by
  simp [bare, h]

theorem filter_trim (text : List Char) :
    (Text.trim text).filter (fun c => !bare c) = text.filter fun c => !bare c := by
  have hspace : ∀ c, Text.isWhitespace c = true → bare c = true := fun _ => bare_of_isWhitespace
  rw [Text.trim, filter_dropLast hspace, filter_dropWhile hspace]

theorem pairsIn_trim (text : List Char) : pairsIn (Text.trim text) = pairsIn text :=
  pairsIn_congr (filter_trim text)

theorem pairsIn_ringOf (piece : List Char) : pairsIn (ringOf piece) = pairsIn piece := by
  refine pairsIn_congr ?_
  rw [ringOf, filter_dropLast (by simp [bare]), filter_dropWhile (by simp [bare]), filter_trim]

theorem pairsIn_bracketed {body inner : List Char} (h : bracketed body = some inner) :
    pairsIn inner = pairsIn body := by
  rw [bracketed] at h
  split at h
  case isFalse => cases h
  case isTrue hends =>
    obtain ⟨hfirst, hlast⟩ := hends
    obtain ⟨rest, rfl⟩ := List.head?_eq_some_iff.mp hfirst
    obtain rfl := Option.some.inj h
    refine (pairsIn_trim _).trans (pairsIn_congr ?_)
    have hrest : rest ≠ [] := by
      rintro rfl
      simp at hlast
    rw [List.getLast?_cons_of_ne_nil hrest] at hlast
    obtain ⟨more, rfl⟩ := List.getLast?_eq_some_iff.mp hlast
    simp [bare]

theorem pairsIn_polygonPiece (piece : List Char) : pairsIn (polygonPiece piece) = pairsIn piece := by
  refine (pairsIn_trim _).trans (pairsIn_congr ?_)
  rw [List.filter_append]
  simp [bare]

theorem pairsFrom_mono (text : List Char) : pairsFrom false text ≤ pairsFrom true text := by
  induction text with
  | nil => simp [pairsFrom]
  | cons c rest ih =>
      rw [pairsFrom, pairsFrom]
      split
      · simp
      · cases bare c <;> simp [ih]

theorem pairsIn_le_append {word : List Char} (hword : ',' ∉ word) (text : List Char) :
    pairsIn text ≤ pairsIn (word ++ text) := by
  have hfrom : ∀ sign, pairsFrom false text ≤ pairsFrom sign (word ++ text) := by
    induction word with
    | nil =>
        intro sign
        cases sign
        · exact Nat.le_refl _
        · exact pairsFrom_mono text
    | cons c rest ih =>
        intro sign
        have hc : c ≠ ',' := fun hc => hword (hc ▸ List.mem_cons_self)
        rw [List.cons_append, pairsFrom, if_neg hc]
        exact ih (List.not_mem_of_not_mem_cons hword) _
  exact hfrom false

theorem stripPrefix_eq {word text rest : List Char} (h : stripPrefix word text = some rest) :
    text = word ++ rest := by
  rw [stripPrefix] at h
  split at h
  case isTrue hprefix =>
    obtain ⟨more, rfl⟩ := List.isPrefixOf_iff_prefix.mp hprefix
    obtain rfl := Option.some.inj h
    rw [List.drop_left]
  case isFalse => cases h

theorem pairsIn_bodyOf {name lower : List Char} (hname : ',' ∉ name) (hlower : ',' ∉ lower)
    (text : List Char) : pairsIn (bodyOf name lower text) ≤ pairsIn text := by
  rw [← pairsIn_trim text, bodyOf]
  cases hupper : stripPrefix name (Text.trim text) with
  | some rest =>
      have htext := stripPrefix_eq hupper
      show pairsIn (Text.trim rest) ≤ _
      rw [pairsIn_trim, htext]
      exact pairsIn_le_append hname rest
  | none =>
      cases hlow : stripPrefix lower (Text.trim text) with
      | some rest =>
          have htext := stripPrefix_eq hlow
          show pairsIn (Text.trim rest) ≤ _
          rw [pairsIn_trim, htext]
          exact pairsIn_le_append hlower rest
      | none => exact Nat.le_refl _

end Scan

section Pieces

-- What ends a piece has one comma and no other sign.
def Ends (pat : List Char) : Prop := pat.filter (fun c => !bare c) = [',']

theorem Ends.ne_nil {pat : List Char} (h : Ends pat) : pat ≠ [] := by
  rintro rfl
  cases h

theorem ends_comma : Ends comma := by
  unfold Ends
  decide

theorem ends_ringEnd : Ends ringEnd := by
  unfold Ends
  decide

theorem ends_polygonEnd : Ends polygonEnd := by
  unfold Ends
  decide

theorem pairsFrom_end {pat : List Char} (h : Ends pat) (sign : Bool) (text : List Char) :
    pairsFrom sign (pat ++ text) = sign.toNat + pairsIn text := by
  rw [← pairsFrom_filter, List.filter_append, h, List.singleton_append, pairsFrom, if_pos rfl,
    pairsFrom_filter, pairsIn]

theorem pairsFrom_split {pat : List Char} (h : Ends pat) (sign : Bool) (text : List Char) :
    ∃ first more, split pat text = first :: more ∧
      pairsFrom sign text = pairsFrom sign first + (more.map pairsIn).sum := by
  induction hlength : text.length using Nat.strongRecOn generalizing sign text with
  | ind n ih =>
      cases hmatch : pat.isPrefixOf text with
      | true =>
          obtain ⟨rest, rfl⟩ := List.isPrefixOf_iff_prefix.mp hmatch
          have hpos : 0 < pat.length := List.length_pos_iff.mpr h.ne_nil
          rw [List.length_append] at hlength
          obtain ⟨first, more, hsplit, hcount⟩ := ih rest.length (by omega) false rest rfl
          refine ⟨[], split pat rest, split_pattern h.ne_nil, ?_⟩
          rw [pairsFrom_end h, pairsIn, hcount, hsplit]
          rfl
      | false =>
          cases text with
          | nil => exact ⟨[], [], rfl, rfl⟩
          | cons c rest =>
              rw [List.length_cons] at hlength
              have hrest := ih rest.length (by omega)
              obtain ⟨first, more, hsplit, -⟩ := hrest false rest rfl
              refine ⟨c :: first, more, by rw [split_cons hmatch, hsplit]; rfl, ?_⟩
              have hcount : ∀ sign, pairsFrom sign rest = pairsFrom sign first + (more.map pairsIn).sum := by
                intro sign
                obtain ⟨first', more', hsplit', hcount⟩ := hrest sign rest rfl
                obtain ⟨rfl, rfl⟩ := List.cons.inj (hsplit.symm.trans hsplit')
                exact hcount
              rw [pairsFrom, pairsFrom]
              split
              · rw [hcount, Nat.add_assoc]
              · exact hcount _

-- The pairs of a text are those of its pieces.
theorem pairsIn_split {pat : List Char} (h : Ends pat) (text : List Char) :
    pairsIn text = ((split pat text).map pairsIn).sum := by
  obtain ⟨first, more, hsplit, hcount⟩ := pairsFrom_split h false text
  rw [pairsIn, hcount, hsplit]
  rfl

theorem not_mem_split_comma (text : List Char) : ∀ part ∈ split comma text, ',' ∉ part := by
  induction text with
  | nil => simp [split, splitAfter]
  | cons c rest ih =>
      by_cases hc : c = ','
      · have hsplit : split comma (comma ++ rest) = [] :: split comma rest := split_pattern (by simp [comma])
        rw [hc]
        show ∀ part ∈ split comma (comma ++ rest), _
        rw [hsplit]
        exact List.forall_mem_cons.mpr ⟨by simp, ih⟩
      · have hno : comma.isPrefixOf (c :: rest) = false := by
          simp [comma, List.isPrefixOf, Ne.symm hc]
        rw [split_cons hno]
        obtain ⟨first, more, hsplit⟩ := List.exists_cons_of_ne_nil (split_ne_nil comma rest)
        rw [hsplit] at ih ⊢
        obtain ⟨hfirst, hmore⟩ := List.forall_mem_cons.mp ih
        exact List.forall_mem_cons.mpr ⟨by simp [Ne.symm hc, hfirst], hmore⟩

theorem pairsIn_part {part : List Char} (h : ',' ∉ part) : pairsIn part = (signed part).toNat := by
  have hfrom : ∀ sign, pairsFrom sign part = (sign || signed part).toNat := by
    induction part with
    | nil =>
        intro sign
        rw [signed, List.any_nil, Bool.or_false]
        rfl
    | cons c rest ih =>
        intro sign
        have hc : c ≠ ',' := fun hc => h (hc ▸ List.mem_cons_self)
        rw [pairsFrom, if_neg hc, ih (List.not_mem_of_not_mem_cons h), signed, signed, List.any_cons,
          Bool.or_assoc]
  exact hfrom false

theorem countP_eq_sum {α : Type} (p : α → Bool) (items : List α) :
    items.countP p = (items.map fun a => (p a).toNat).sum := by
  induction items with
  | nil => rfl
  | cons a rest ih =>
      rw [List.countP_cons, ih, List.map_cons, List.sum_cons, Nat.add_comm]
      cases p a <;> rfl

theorem pairsIn_parts (text : List Char) : pairsIn text = (split comma text).countP signed := by
  rw [pairsIn_split ends_comma, countP_eq_sum]
  refine congrArg List.sum (List.map_congr_left fun part hpart => ?_)
  exact pairsIn_part (not_mem_split_comma text part hpart)

theorem countP_flatMap {α β : Type} (f : α → List β) (p : β → Bool) (items : List α) :
    (items.flatMap f).countP p = (items.map fun a => (f a).countP p).sum := by
  induction items with
  | nil => rfl
  | cons a rest ih => rw [List.flatMap_cons, List.countP_append, ih, List.map_cons, List.sum_cons]

theorem pairsIn_polygonParts (inner : List Char) : pairsIn inner = (polygonParts inner).countP signed := by
  rw [polygonParts, countP_flatMap, pairsIn_split ends_ringEnd]
  refine congrArg List.sum (List.map_congr_left fun piece _ => ?_)
  rw [← pairsIn_ringOf, pairsIn_parts, ringParts]

-- Where no piece has more on the left, the sums are the same as all the pieces are.
theorem sum_eq_iff {α : Type} {f g : α → Nat} {items : List α} (h : ∀ a ∈ items, f a ≤ g a) :
    (items.map f).sum = (items.map g).sum ↔ ∀ a ∈ items, f a = g a := by
  induction items with
  | nil => simp
  | cons a rest ih =>
      obtain ⟨ha, hrest⟩ := List.forall_mem_cons.mp h
      have hle : (rest.map f).sum ≤ (rest.map g).sum := List.sum_le_sum hrest
      rw [List.map_cons, List.map_cons, List.sum_cons, List.sum_cons, List.forall_mem_cons, ← ih hrest]
      omega

theorem countP_eq_iff {α : Type} {p q : α → Bool} {items : List α}
    (h : ∀ a ∈ items, p a = true → q a = true) :
    items.countP p = items.countP q ↔ ∀ a ∈ items, q a = true → p a = true := by
  have hle : ∀ a ∈ items, (p a).toNat ≤ (q a).toNat := by
    intro a ha
    have himp := h a ha
    cases hp : p a with
    | false => exact Nat.zero_le _
    | true => exact Nat.le_of_eq (congrArg Bool.toNat (himp hp).symm)
  rw [countP_eq_sum, countP_eq_sum, sum_eq_iff hle]
  refine forall₂_congr fun a ha => ?_
  have himp := h a ha
  cases hp : p a <;> cases hq : q a <;> simp_all

end Pieces

section Reading

variable (num) in
theorem parseCoordinate_isOk (failed : String) (text : List Char) :
    (parseCoordinate num failed text).isOk = (num.parse text).isOk := by
  rw [parseCoordinate]
  cases num.parse text <;> rfl

theorem readParts_readable {parts : List (List Char)} (h : parts.all (readable num) = true) :
    ∃ points, readParts num parts = .ok points := by
  induction parts with
  | nil => exact ⟨[], rfl⟩
  | cons part rest ih =>
      rw [List.all_cons, Bool.and_eq_true] at h
      obtain ⟨hpart, hrest⟩ := h
      obtain ⟨more, hmore⟩ := ih hrest
      rw [readable] at hpart
      cases hwords : firstTwo part with
      | none => exact ⟨more, by rw [readParts, hwords]; exact hmore⟩
      | some words =>
          obtain ⟨x, y⟩ := words
          rw [hwords, Bool.and_eq_true] at hpart
          obtain ⟨hx, hy⟩ := hpart
          rw [← parseCoordinate_isOk num "invalid x"] at hx
          rw [← parseCoordinate_isOk num "invalid y"] at hy
          cases hpx : parseCoordinate num "invalid x" x with
          | error e =>
              rw [hpx] at hx
              cases hx
          | ok px =>
              cases hpy : parseCoordinate num "invalid y" y with
              | error e =>
                  rw [hpy] at hy
                  cases hy
              | ok py =>
                  refine ⟨Point.new px py :: more, ?_⟩
                  rw [readParts, hwords]
                  simp only [hpx, hpy, hmore]
                  rfl

theorem readParts_ok {parts : List (List Char)} {points : List (Point F)}
    (h : readParts num parts = .ok points) :
    parts.all (readable num) = true ∧ points.length = parts.countP paired := by
  induction parts generalizing points with
  | nil =>
      cases h
      exact ⟨rfl, rfl⟩
  | cons part rest ih =>
      rw [readParts] at h
      cases hwords : firstTwo part with
      | none =>
          rw [hwords] at h
          obtain ⟨hall, hlength⟩ := ih h
          have hpaired : paired part = false := by rw [paired, hwords]; rfl
          have hreadable : readable num part = true := by rw [readable, hwords]
          exact ⟨by rw [List.all_cons, hreadable, hall]; rfl,
            by rw [hlength, List.countP_cons_of_neg (by simp [hpaired])]⟩
      | some words =>
          obtain ⟨x, y⟩ := words
          rw [hwords] at h
          have hx := parseCoordinate_isOk num "invalid x" x
          have hy := parseCoordinate_isOk num "invalid y" y
          cases hpx : parseCoordinate num "invalid x" x with
          | error e =>
              simp only [hpx] at h
              cases h
          | ok px =>
              cases hpy : parseCoordinate num "invalid y" y with
              | error e =>
                  simp only [hpx, hpy] at h
                  cases h
              | ok py =>
                  cases hmore : readParts num rest with
                  | error e =>
                      simp only [hpx, hpy, hmore] at h
                      cases h
                  | ok more =>
                      simp only [hpx, hpy, hmore] at h
                      cases h
                      obtain ⟨hall, hlength⟩ := ih hmore
                      rw [hpx] at hx
                      rw [hpy] at hy
                      have hpaired : paired part = true := by rw [paired, hwords]; rfl
                      have hreadable : readable num part = true := by
                        simp only [readable, hwords, ← hx, ← hy]
                        rfl
                      exact ⟨by rw [List.all_cons, hreadable, hall]; rfl,
                        by rw [List.length_cons, hlength, List.countP_cons_of_pos hpaired]⟩

theorem readRings_readable {pieces : List (List Char)}
    (h : (pieces.flatMap ringParts).all (readable num) = true) :
    ∃ rings, readRings num pieces = .ok rings := by
  induction pieces with
  | nil => exact ⟨[], rfl⟩
  | cons piece rest ih =>
      rw [List.flatMap_cons, List.all_append, Bool.and_eq_true] at h
      obtain ⟨ring, hring⟩ := readParts_readable h.1
      obtain ⟨more, hmore⟩ := ih h.2
      rw [ringParts] at hring
      refine ⟨if ring.isEmpty then more else ring :: more, ?_⟩
      rw [readRings, hring, hmore]
      rfl

-- A ring is kept as one of its parts has two words.
theorem readRings_ok {pieces : List (List Char)} {rings : List (List (Point F))}
    (h : readRings num pieces = .ok rings) :
    (pieces.flatMap ringParts).all (readable num) = true ∧
      rings.length = pieces.countP (fun piece => (ringParts piece).any paired) ∧
      rings.flatten.length = (pieces.flatMap ringParts).countP paired := by
  induction pieces generalizing rings with
  | nil =>
      cases h
      exact ⟨rfl, rfl, rfl⟩
  | cons piece rest ih =>
      rw [readRings] at h
      cases hring : readParts num (split comma (ringOf piece)) with
      | error e =>
          rw [hring] at h
          cases h
      | ok ring =>
          cases hmore : readRings num rest with
          | error e =>
              rw [hring, hmore] at h
              cases h
          | ok more =>
              rw [hring, hmore] at h
              obtain rfl := Except.ok.inj h
              obtain ⟨hparts, hpairs⟩ := readParts_ok hring
              obtain ⟨hall, hlength, hflat⟩ := ih hmore
              rw [← ringParts] at hparts hpairs
              rw [List.flatMap_cons, List.all_append, hparts, hall, List.countP_append, List.countP_cons,
                ← hflat, ← hlength, ← hpairs]
              refine ⟨rfl, ?_⟩
              cases ring with
              | nil =>
                  have hnone : (ringParts piece).any paired = false := by
                    rw [List.any_eq_false]
                    exact List.countP_eq_zero.mp hpairs.symm
                  simp [hnone]
              | cons p ps =>
                  have hsome : (ringParts piece).any paired = true := by
                    rw [List.any_eq_true]
                    exact List.countP_pos_iff.mp (by rw [← hpairs]; simp)
                  refine ⟨by simp [hsome], ?_⟩
                  show ((p :: ps) :: more).flatten.length = _
                  rw [List.flatten_cons, List.length_append]

theorem polygon_readable {text inner : List Char} (hinner : bracketed (polygonBody text) = some inner)
    (h : (polygonParts inner).all (readable num) = true) : ∃ g, polygonFromStr num text = .ok g := by
  obtain ⟨rings, hrings⟩ : ∃ rings, readRings num (split ringEnd inner) = .ok rings := readRings_readable h
  exact ⟨⟨rings, defaultSrid⟩, by rw [polygonFromStr, hinner]; simp only [hrings]; rfl⟩

theorem polygon_ok {text : List Char} {g : Polygon F} (h : polygonFromStr num text = .ok g) :
    ∃ inner, bracketed (polygonBody text) = some inner ∧
      (polygonParts inner).all (readable num) = true ∧
      g.rings.length = (split ringEnd inner).countP (fun piece => (ringParts piece).any paired) ∧
      g.rings.flatten.length = (polygonParts inner).countP paired := by
  rw [polygonFromStr] at h
  cases hinner : bracketed (polygonBody text) with
  | none =>
      rw [hinner] at h
      cases h
  | some inner =>
      rw [hinner] at h
      cases hrings : readRings num (split ringEnd inner) with
      | error e =>
          simp only [hrings] at h
          cases h
      | ok rings =>
          simp only [hrings] at h
          cases h
          exact ⟨inner, rfl, readRings_ok hrings⟩

variable (num) in
theorem kept_eq_isOk (piece : List Char) :
    kept num piece = (polygonFromStr num (polygonPiece piece)).isOk := by
  rw [Bool.eq_iff_iff]
  refine ⟨fun h => ?_, fun h => ?_⟩
  · obtain ⟨inner, hinner, hall⟩ := (Option.any_eq_true _ _).mp h
    obtain ⟨g, hg⟩ := polygon_readable hinner hall
    rw [hg]
    rfl
  · cases hg : polygonFromStr num (polygonPiece piece) with
    | error e =>
        rw [hg] at h
        cases h
    | ok g =>
        obtain ⟨inner, hinner, hall, -⟩ := polygon_ok hg
        rw [kept, polygonInner, hinner]
        exact hall

variable (num) in
-- What is kept of the pieces of a text.
theorem polygons_kept (pieces : List (List Char)) :
    let polygons := pieces.filterMap fun piece => (polygonFromStr num (polygonPiece piece)).toOption
    polygons.length = pieces.countP (kept num) ∧
      (polygons.flatMap Polygon.rings).length = ((pieces.filter (kept num)).flatMap ringPieces).countP
        (fun piece => (ringParts piece).any paired) ∧
      (polygons.flatMap Polygon.rings).flatten.length
        = (pieces.map fun piece => if kept num piece then (pieceParts piece).countP paired else 0).sum := by
  induction pieces with
  | nil => exact ⟨rfl, rfl, rfl⟩
  | cons piece rest ih =>
      obtain ⟨hpolygons, hrings, hpairs⟩ := ih
      have hkept := kept_eq_isOk num piece
      cases hg : polygonFromStr num (polygonPiece piece) with
      | error e =>
          rw [hg] at hkept
          have hno : ¬kept num piece = true := by
            rw [hkept]
            exact Bool.false_ne_true
          simp only [List.filterMap_cons, hg, List.countP_cons_of_neg hno, List.filter_cons_of_neg hno,
            List.map_cons, if_neg hno, List.sum_cons, Nat.zero_add]
          exact ⟨hpolygons, hrings, hpairs⟩
      | ok g =>
          rw [hg] at hkept
          have hyes : kept num piece = true := hkept
          obtain ⟨inner, hinner, -, hlength, hflat⟩ := polygon_ok hg
          have hringPieces : ringPieces piece = split ringEnd inner := by
            rw [ringPieces, polygonInner, hinner]
          have hparts : pieceParts piece = polygonParts inner := by
            rw [pieceParts, hringPieces, polygonParts]
          simp only [List.filterMap_cons, hg, List.countP_cons_of_pos hyes, List.filter_cons_of_pos hyes,
            List.map_cons, if_pos hyes, List.sum_cons]
          refine ⟨?_, ?_, ?_⟩
          · show List.length (g :: _) = _
            rw [List.length_cons, hpolygons]
          · show (List.flatMap Polygon.rings (g :: _)).length = _
            rw [List.flatMap_cons, List.flatMap_cons, List.length_append, hrings, List.countP_append,
              hringPieces, hlength]
          · show (List.flatMap Polygon.rings (g :: _)).flatten.length = _
            rw [List.flatMap_cons, List.flatten_append, List.length_append, hpairs, hflat, hparts]

end Reading

-- A number has a sign, and none that separates or encloses.
structure Reads (num : Coordinates F) : Prop where
  signs : ∀ text v, num.parse text = .ok v → text ≠ [] ∧ ∀ c ∈ text, Plain c
  parses : ∀ v, num.parse (num.print v) = .ok v

theorem Reads.roundTrips (h : Reads num) : RoundTrips num where
  some_digit v := (h.signs _ v (h.parses v)).1
  plain v := (h.signs _ v (h.parses v)).2
  parses := h.parses

section Exact

variable (h : Reads num)

include h

theorem signed_of_isOk {text : List Char} (hok : (num.parse text).isOk = true) :
    signed text = true := by
  cases hparse : num.parse text with
  | error e =>
      rw [hparse] at hok
      cases hok
  | ok v =>
      obtain ⟨hne, hplain⟩ := h.signs text v hparse
      obtain ⟨c, rest, rfl⟩ := List.exists_cons_of_ne_nil hne
      obtain ⟨hspace, -, hopen, hclose⟩ := hplain c List.mem_cons_self
      rw [signed, List.any_cons, bare, hspace]
      simp [hopen, hclose]

omit h in
theorem mem_of_mem_splitWhitespace {text word : List Char} {c : Char}
    (hword : word ∈ splitWhitespace text) (hc : c ∈ word) : c ∈ text := by
  obtain ⟨hmem, -⟩ := List.mem_filter.mp hword
  clear hword
  induction text generalizing word with
  | nil =>
      obtain rfl := List.mem_singleton.mp hmem
      exact hc
  | cons a rest ih =>
      rw [List.splitOnP_cons_eq_if_modifyHead] at hmem
      split at hmem
      · rcases List.mem_cons.mp hmem with rfl | hmem
        · cases hc
        · exact List.mem_cons_of_mem a (ih hc hmem)
      · cases hsplit : rest.splitOnP Text.isWhitespace with
        | nil => exact absurd hsplit (List.splitOnP_ne_nil _ _)
        | cons first more =>
            rw [hsplit, List.modifyHead_cons] at hmem
            rw [hsplit] at ih
            rcases List.mem_cons.mp hmem with rfl | hmem
            · rcases List.mem_cons.mp hc with rfl | hc
              · exact List.mem_cons_self
              · exact List.mem_cons_of_mem a (ih hc List.mem_cons_self)
            · exact List.mem_cons_of_mem a (ih hc (List.mem_cons_of_mem first hmem))

-- A part that is read as a pair has a sign.
theorem signed_of_paired {part : List Char} (hreadable : readable num part = true)
    (hpaired : paired part = true) : signed part = true := by
  rw [readable] at hreadable
  obtain ⟨⟨x, y⟩, hwords⟩ := Option.isSome_iff_exists.mp hpaired
  rw [hwords, Bool.and_eq_true] at hreadable
  obtain ⟨c, hc, hsign⟩ := List.any_eq_true.mp (signed_of_isOk h hreadable.1)
  have hx : x ∈ splitWhitespace part := by
    rw [firstTwo] at hwords
    split at hwords
    case h_1 rest hsplit =>
      obtain ⟨rfl, -⟩ := Prod.mk.inj (Option.some.inj hwords)
      rw [hsplit]
      exact List.mem_cons_self
    case h_2 => cases hwords
  exact List.any_eq_true.mpr ⟨c, mem_of_mem_splitWhitespace hx hc, hsign⟩

theorem countP_paired_iff {parts : List (List Char)} (hall : parts.all (readable num) = true) :
    parts.countP paired = parts.countP signed ↔ Paired parts := by
  refine countP_eq_iff fun part hpart hpaired => ?_
  exact signed_of_paired h (List.all_eq_true.mp hall part hpart) hpaired

theorem countP_paired_le {parts : List (List Char)} (hall : parts.all (readable num) = true) :
    parts.countP paired ≤ parts.countP signed := by
  refine List.countP_mono_left fun part hpart hpaired => ?_
  exact signed_of_paired h (List.all_eq_true.mp hall part hpart) hpaired

-- Where each part with a sign is a pair, a piece has a pair as it has a sign.
theorem any_paired_iff {parts : List (List Char)} (hall : parts.all (readable num) = true)
    (hpaired : Paired parts) : parts.any paired = parts.any signed := by
  rw [Bool.eq_iff_iff, List.any_eq_true, List.any_eq_true]
  refine ⟨fun ⟨part, hpart, hp⟩ => ⟨part, hpart, ?_⟩, fun ⟨part, hpart, hs⟩ =>
    ⟨part, hpart, hpaired part hpart hs⟩⟩
  exact signed_of_paired h (List.all_eq_true.mp hall part hpart) hp

variable (num) in
omit h in
theorem readPoint_isOk (srid : Nat) (x y : List Char) :
    (readPoint num srid x y).isOk = ((num.parse x).isOk && (num.parse y).isOk) := by
  have hx := parseCoordinate_isOk num "invalid x coordinate" x
  have hy := parseCoordinate_isOk num "invalid y coordinate" y
  rw [← hx, ← hy, readPoint]
  cases parseCoordinate num "invalid x coordinate" x with
  | error e => rfl
  | ok px => cases parseCoordinate num "invalid y coordinate" y <;> rfl

omit h in
theorem pointFromStr_eq {text body : List Char} {srid : Nat}
    (hheader : sridHeader (Text.trim text) = .ok (srid, body)) :
    pointFromStr num text = match pointWords (Text.trim text) body with
      | some (x, y) => readPoint num srid x y
      | none => .error ("cannot parse Point from '" ++ String.ofList (Text.trim text) ++ "'") := by
  simp only [pointFromStr, hheader, pointWords]
  show (match (pointInner body).bind firstTwo with
    | some (x, y) => _
    | none => _) = _
  cases (pointInner body).bind firstTwo with
  | some words => rfl
  | none =>
      rw [Option.none_or]
      by_cases hcomma : ',' ∈ Text.trim text
      · simp only [if_pos hcomma]
      · simp only [if_neg hcomma]

omit h in
theorem point_counts (text : List Char) :
    (∀ g, fromStr num text .point = .ok g → g.counts = written .point text) ↔
      Legible num .point text := by
  rw [Legible, written]
  cases hheader : sridHeader (Text.trim text) with
  | error e =>
      refine iff_of_true (fun g hg => ?_) (fun srid body x y hok => by cases hok)
      simp only [fromStr, pointFromStr, hheader] at hg
      cases hg
  | ok header =>
      obtain ⟨srid, body⟩ := header
      rw [fromStr, pointFromStr_eq hheader]
      refine ⟨fun hcounts srid' body' x y hsame hwords hx hy => ?_, fun hlegible g hg => ?_⟩
      · obtain ⟨rfl, rfl⟩ := Prod.mk.inj (Except.ok.inj hsame)
        have hisOk := readPoint_isOk num srid x y
        rw [hx, hy, Bool.and_true] at hisOk
        rw [hwords] at hcounts
        cases hread : readPoint num srid x y with
        | error e =>
            rw [hread] at hisOk
            cases hisOk
        | ok p =>
            simp only [hread] at hcounts
            exact (congrArg Counts.pairs (hcounts (.point p) rfl)).symm
      · cases hwords : pointWords (Text.trim text) body with
        | none =>
            rw [hwords] at hg
            cases hg
        | some words =>
            obtain ⟨x, y⟩ := words
            rw [hwords] at hg
            have hisOk := readPoint_isOk num srid x y
            cases hread : readPoint num srid x y with
            | error e =>
                simp only [hread] at hg
                cases hg
            | ok p =>
                simp only [hread] at hg
                obtain rfl := Except.ok.inj hg
                rw [hread] at hisOk
                obtain ⟨hx, hy⟩ := (Bool.and_eq_true _ _).mp hisOk.symm
                show (⟨0, 0, 1⟩ : Counts) = ⟨0, 0, pointPairs body⟩
                rw [hlegible srid body x y rfl hwords hx hy]

theorem lineString_counts (text : List Char) :
    (∀ g, fromStr num text .lineString = .ok g → g.counts = written .lineString text) ↔
      Legible num .lineString text := by
  rw [Legible, written]
  cases hinner : bracketed (lineStringBody text) with
  | none =>
      refine iff_of_true (fun g hg => ?_) (fun inner hsome => by cases hsome)
      rw [fromStr, lineStringFromStr, hinner] at hg
      cases hg
  | some inner =>
      have hread : ∀ points, readParts num (split comma inner) = .ok points →
          fromStr num text .lineString = .ok (.lineString ⟨points, defaultSrid⟩) := by
        intro points hpoints
        rw [fromStr, lineStringFromStr, hinner]
        simp only [hpoints]
        rfl
      refine ⟨fun hcounts other hother hall => ?_, fun hlegible g hg => ?_⟩
      · obtain rfl := Option.some.inj hother
        obtain ⟨points, hpoints⟩ := readParts_readable hall
        have hpairs := congrArg Counts.pairs (hcounts _ (hread points hpoints))
        have hlength := (readParts_ok hpoints).2
        refine (countP_paired_iff h hall).mp ?_
        rw [← hlength, ← pairsIn_parts]
        exact hpairs
      · cases hpoints : readParts num (split comma inner) with
        | error e =>
            rw [fromStr, lineStringFromStr, hinner] at hg
            simp only [hpoints] at hg
            cases hg
        | ok points =>
            obtain ⟨hall, hlength⟩ := readParts_ok hpoints
            obtain rfl := Except.ok.inj ((hread points hpoints).symm.trans hg)
            have hpairs := (countP_paired_iff h hall).mpr (hlegible inner rfl hall)
            rw [Geometry.counts, hlength, hpairs, ← pairsIn_parts]

omit h in
theorem ringParts_readable {inner piece : List Char} (hall : (polygonParts inner).all (readable num) = true)
    (hpiece : piece ∈ split ringEnd inner) : (ringParts piece).all (readable num) = true := by
  refine List.all_eq_true.mpr fun part hpart => List.all_eq_true.mp hall part ?_
  exact List.mem_flatMap.mpr ⟨piece, hpiece, hpart⟩

-- The rings that are kept are the pieces with a sign.
theorem rings_signed {pieces : List (List Char)}
    (hall : ∀ piece ∈ pieces, (ringParts piece).all (readable num) = true)
    (hpaired : ∀ piece ∈ pieces, Paired (ringParts piece)) :
    pieces.countP (fun piece => (ringParts piece).any paired) = pieces.countP hasSign := by
  refine List.countP_congr fun piece hpiece => ?_
  rw [any_paired_iff h (hall piece hpiece) (hpaired piece hpiece), hasSign]

theorem polygon_counts (text : List Char) :
    (∀ g, fromStr num text .polygon = .ok g → g.counts = written .polygon text) ↔
      Legible num .polygon text := by
  rw [Legible, written]
  cases hinner : bracketed (polygonBody text) with
  | none =>
      refine iff_of_true (fun g hg => ?_) (fun inner hsome => by cases hsome)
      rw [fromStr, polygonFromStr, hinner] at hg
      cases hg
  | some inner =>
      have hexact : ∀ g, polygonFromStr num text = .ok g →
          (polygonParts inner).all (readable num) = true ∧
          ((Geometry.polygon g).counts = ⟨1, opened 0 0 inner, pairsIn inner⟩ ↔
            Paired (polygonParts inner) ∧ (split ringEnd inner).countP hasSign = opened 0 0 inner) := by
        intro g hg
        obtain ⟨other, hother, hall, hrings, hpairs⟩ := polygon_ok hg
        obtain rfl := Option.some.inj (hinner.symm.trans hother)
        refine ⟨hall, ?_⟩
        rw [Geometry.counts, Counts.mk.injEq, hrings, hpairs, pairsIn_polygonParts, countP_paired_iff h hall]
        have hringParts : ∀ piece ∈ split ringEnd inner, (ringParts piece).all (readable num) = true :=
          fun piece => ringParts_readable hall
        have hsigned := fun hpaired : Paired (polygonParts inner) =>
          rings_signed h hringParts fun piece hpiece part hpart =>
            hpaired part (List.mem_flatMap.mpr ⟨piece, hpiece, hpart⟩)
        constructor
        · rintro ⟨-, hopened, hpaired⟩
          exact ⟨hpaired, by rw [← hopened, hsigned hpaired]⟩
        · rintro ⟨hpaired, hopened⟩
          exact ⟨rfl, by rw [← hopened, hsigned hpaired], hpaired⟩
      refine ⟨fun hcounts other hother hall => ?_, fun hlegible g hg => ?_⟩
      · obtain rfl := Option.some.inj hother
        obtain ⟨g, hg⟩ := polygon_readable hinner hall
        refine (hexact g hg).2.mp (hcounts _ ?_)
        rw [fromStr, hg]
        rfl
      · rw [fromStr] at hg
        cases hpolygon : polygonFromStr num text with
        | error e =>
            rw [hpolygon] at hg
            cases hg
        | ok p =>
            rw [hpolygon] at hg
            obtain rfl := Except.ok.inj hg
            obtain ⟨hall, hiff⟩ := hexact p hpolygon
            exact hiff.mpr (hlegible inner rfl hall)

-- A piece has no more pairs than its text.
omit h in
theorem pieceParts_le (piece : List Char) : (pieceParts piece).countP signed ≤ pairsIn piece := by
  rw [pieceParts, ringPieces]
  cases hinner : polygonInner piece with
  | none => exact Nat.zero_le _
  | some inner =>
      have hbody : pairsIn (polygonBody (polygonPiece piece)) ≤ pairsIn (polygonPiece piece) :=
        pairsIn_bodyOf (by decide) (by decide) _
      rw [pairsIn_polygonPiece, ← pairsIn_bracketed hinner, pairsIn_polygonParts] at hbody
      exact hbody

omit h in
theorem pieceParts_readable {piece : List Char} (hkept : kept num piece = true) :
    (pieceParts piece).all (readable num) = true := by
  obtain ⟨inner, hinner, hall⟩ := (Option.any_eq_true _ _).mp hkept
  rw [pieceParts, ringPieces, hinner]
  exact hall

theorem piece_counts (piece : List Char) :
    (if kept num piece then (pieceParts piece).countP paired else 0) ≤ pairsIn piece ∧
    ((if kept num piece then (pieceParts piece).countP paired else 0) = pairsIn piece ↔
      pairsIn piece = 0 ∨ kept num piece = true ∧ Paired (pieceParts piece) ∧
        (pieceParts piece).countP signed = pairsIn piece) := by
  have hle := pieceParts_le piece
  split
  case isTrue hkept =>
    have hall := pieceParts_readable hkept
    have hpaired := countP_paired_iff h hall
    have hbelow := countP_paired_le h hall
    refine ⟨Nat.le_trans hbelow hle, fun heq => .inr ⟨hkept, hpaired.mp (by omega), by omega⟩, ?_⟩
    rintro (hzero | ⟨-, hall, heq⟩)
    · omega
    · rw [hpaired.mpr hall, heq]
  case isFalse hkept =>
    refine ⟨Nat.zero_le _, fun hzero => .inl hzero.symm, ?_⟩
    rintro (hzero | ⟨hyes, -⟩)
    · exact hzero.symm
    · exact absurd hyes hkept

theorem multiPolygon_counts (text : List Char) :
    (∀ g, fromStr num text .multiPolygon = .ok g → g.counts = written .multiPolygon text) ↔
      Legible num .multiPolygon text := by
  rw [Legible, written]
  cases hinner : bracketed (multiPolygonBody text) with
  | none =>
      refine iff_of_true (fun g hg => ?_) (fun inner hsome => by cases hsome)
      rw [fromStr, multiPolygonFromStr, hinner] at hg
      cases hg
  | some inner =>
      obtain ⟨hpolygons, hrings, hpairs⟩ := polygons_kept num (split polygonEnd inner)
      have hread : fromStr num text .multiPolygon = .ok (.multiPolygon
          ⟨(split polygonEnd inner).filterMap fun piece =>
            (polygonFromStr num (polygonPiece piece)).toOption, defaultSrid⟩) := by
        rw [fromStr, multiPolygonFromStr, hinner]
        rfl
      have hpieces : ∀ piece ∈ split polygonEnd inner, _ := fun piece _ => (piece_counts h piece).1
      have hsum := (sum_eq_iff hpieces).trans
        (forall₂_congr fun piece _ => (piece_counts h piece).2)
      rw [hread]
      have hsigned : (∀ piece ∈ split polygonEnd inner, pairsIn piece = 0 ∨ kept num piece = true ∧
          Paired (pieceParts piece) ∧ (pieceParts piece).countP signed = pairsIn piece) →
          (((split polygonEnd inner).filter (kept num)).flatMap ringPieces).countP
            (fun piece => (ringParts piece).any paired)
          = (((split polygonEnd inner).filter (kept num)).flatMap ringPieces).countP hasSign := by
        intro hall
        have hring : ∀ ring ∈ ((split polygonEnd inner).filter (kept num)).flatMap ringPieces,
            (ringParts ring).all (readable num) = true ∧ Paired (ringParts ring) := by
          intro ring hmem
          obtain ⟨piece, hpiece, hringMem⟩ := List.mem_flatMap.mp hmem
          obtain ⟨hsplit, hkept⟩ := List.mem_filter.mp hpiece
          have hpart : ∀ part ∈ ringParts ring, part ∈ pieceParts piece := fun part hpart =>
            List.mem_flatMap.mpr ⟨ring, hringMem, hpart⟩
          refine ⟨List.all_eq_true.mpr fun part hmem =>
            List.all_eq_true.mp (pieceParts_readable hkept) part (hpart part hmem), ?_⟩
          intro part hmem hsign
          rcases hall piece hsplit with hzero | ⟨-, hpaired, -⟩
          · have hpos : 0 < (pieceParts piece).countP signed :=
              List.countP_pos_iff.mpr ⟨part, hpart part hmem, hsign⟩
            have hle := pieceParts_le piece
            omega
          · exact hpaired part (hpart part hmem) hsign
        exact rings_signed h (fun ring hmem => (hring ring hmem).1) fun ring hmem => (hring ring hmem).2
      have hcounts : ∀ counts : Counts, (∀ g, Except.ok (ε := String) (Geometry.multiPolygon
            ⟨(split polygonEnd inner).filterMap fun piece =>
              (polygonFromStr num (polygonPiece piece)).toOption, defaultSrid⟩) = .ok g →
            g.counts = counts) ↔ _ := fun counts =>
        ⟨fun hall => hall _ rfl, fun heq g hg => (Except.ok.inj hg) ▸ heq⟩
      rw [hcounts, Geometry.counts, Counts.mk.injEq, hpolygons, hrings, hpairs,
        pairsIn_split ends_polygonEnd, hsum]
      constructor
      · rintro ⟨hkept, hopened, hall⟩ other hother
        obtain rfl := Option.some.inj hother
        exact ⟨hall, hkept, (hsigned hall).symm.trans hopened⟩
      · intro hlegible
        obtain ⟨hall, hkept, hopened⟩ := hlegible inner rfl
        exact ⟨hkept, (hsigned hall).trans hopened, hall⟩

end Exact

-- Nothing is lost as all is in the default reference system, and no part is left out of a text
-- as each is legible.
theorem wkt_iff (h : Reads num) :
    (∀ g : Geometry F, g.Proper → (fromStr num (g.text num) g.kind = .ok g ↔ g.Default)) ∧
      ∀ kind text, (∀ g, fromStr num text kind = .ok g → g.counts = written kind text) ↔
        Legible num kind text := by
  refine ⟨fun g hproper => round_trip_iff h.roundTrips hproper, fun kind text => ?_⟩
  cases kind with
  | point => exact point_counts text
  | lineString => exact lineString_counts h text
  | polygon => exact polygon_counts h text
  | multiPolygon => exact multiPolygon_counts h text

-- Coordinates of one digit.
def digits : Coordinates (Fin 10) where
  print v := [Nat.digitChar v]
  parse text :=
    match (List.finRange 10).find? fun v : Fin 10 => text = [Nat.digitChar v] with
    | some v => .ok v
    | none => .error "invalid float literal"

theorem digits_reads : Reads digits where
  signs text v h := by
    have hplain : ∀ v : Fin 10, Plain (Nat.digitChar v) := by
      unfold Plain
      decide
    simp only [digits] at h
    split at h
    case h_1 other hfind =>
      have htext : text = [Nat.digitChar other] := by simpa using List.find?_some hfind
      rw [htext]
      exact ⟨List.cons_ne_nil _ _, fun c hc => List.mem_singleton.mp hc ▸ hplain other⟩
    case h_2 => cases h
  parses := by decide

theorem wkt_iff_digits :
    (∀ g : Geometry (Fin 10), g.Proper → (fromStr digits (g.text digits) g.kind = .ok g ↔ g.Default)) ∧
      ∀ kind text, (∀ g, fromStr digits text kind = .ok g → g.counts = written kind text) ↔
        Legible digits kind text := wkt_iff digits_reads

def webMercator : LineString (Fin 10) := ⟨[⟨1, 2, 3857⟩, ⟨3, 4, 3857⟩], 3857⟩

-- The reference system of a line is lost, and a part with one coordinate is left out.
theorem wkt_drops :
    (¬∀ g : Geometry (Fin 10), g.Proper → fromStr digits (g.text digits) g.kind = .ok g) ∧
      ¬∀ kind text (g : Geometry (Fin 10)), fromStr digits text kind = .ok g →
        g.counts = written kind text := by
  refine ⟨fun hall => ?_, fun hall => ?_⟩
  · have hread := hall (.lineString webMercator) trivial
    exact absurd hread (by decide)
  · have hread := hall .lineString "LINESTRING(1 2, 3)".toList (.lineString ⟨[⟨1, 2, 4326⟩], 4326⟩) (by decide)
    exact absurd hread (by decide)

end Ruprizzle.Runtime.Spatial
