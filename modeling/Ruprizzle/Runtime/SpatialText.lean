import Ruprizzle.Runtime.Spatial

namespace Ruprizzle.Runtime.Spatial

open Splitting

variable {F : Type} {num : Coordinates F}

-- A sign of a number: neither blank nor one that separates or encloses.
def Plain (c : Char) : Prop :=
  Text.isWhitespace c = false ∧ c ≠ ',' ∧ c ≠ '(' ∧ c ≠ ')'

-- A finite coordinate is parsed from what it is printed as.
structure RoundTrips (num : Coordinates F) : Prop where
  some_digit : ∀ v, num.print v ≠ []
  plain : ∀ v, ∀ c ∈ num.print v, Plain c
  parses : ∀ v, num.parse (num.print v) = .ok v

theorem blank_space : ∀ c ∈ [' '], Text.isWhitespace c = true := List.forall_mem_singleton.mpr rfl

theorem trim_firm {text : List Char} (h : Firm Text.isWhitespace text) : Text.trim text = text :=
  strip_firm h

theorem trim_pad {u text : List Char} (hpad : ∀ c ∈ u, Text.isWhitespace c = true)
    (h : Firm Text.isWhitespace text) : Text.trim (u ++ text) = text := strip_pad hpad h

section Words

theorem splitWhitespace_space {c : Char} (hc : Text.isWhitespace c = true) (text : List Char) :
    splitWhitespace (c :: text) = splitWhitespace text := by
  rw [splitWhitespace, List.splitOnP_cons_eq_if_modifyHead, if_pos hc]
  rfl

theorem splitWhitespace_pad {u : List Char} (hpad : ∀ c ∈ u, Text.isWhitespace c = true)
    (text : List Char) : splitWhitespace (u ++ text) = splitWhitespace text := by
  induction u with
  | nil => rfl
  | cons c rest ih =>
      obtain ⟨hc, hrest⟩ := List.forall_mem_cons.mp hpad
      rw [List.cons_append, splitWhitespace_space hc, ih hrest]

theorem splitWhitespace_two {x y : List Char} (hx : ∀ c ∈ x, Text.isWhitespace c = false)
    (hy : ∀ c ∈ y, Text.isWhitespace c = false) (hxne : x ≠ []) (hyne : y ≠ []) :
    splitWhitespace (x ++ ' ' :: y) = [x, y] := by
  rw [splitWhitespace, List.splitOnP_append_cons_of_forall_mem hx ' ' (by decide),
    List.splitOnP_eq_singleton hy]
  simp [hxne, hyne]

variable (h : RoundTrips num)

include h

theorem firstTwo_coords {u : List Char} (hpad : ∀ c ∈ u, Text.isWhitespace c = true)
    (p : Point F) : firstTwo (u ++ coords num p) = some (num.print p.x, num.print p.y) := by
  rw [firstTwo, splitWhitespace_pad hpad, coords, splitWhitespace_two (fun c hc => (h.plain p.x c hc).1)
    (fun c hc => (h.plain p.y c hc).1) (h.some_digit _) (h.some_digit _)]

theorem parseCoordinate_print (failed : String) (v : F) :
    parseCoordinate num failed (num.print v) = .ok v := by
  rw [parseCoordinate, h.parses]
  rfl

end Words

theorem joined_cons (a b : List Char) (rest : List (List Char)) :
    joined (a :: b :: rest) = a ++ (',' :: ' ' :: joined (b :: rest)) := by
  simp [joined, commaSpace, List.intercalate]

theorem joined_single (a : List Char) : joined [a] = a := by
  simp [joined, List.intercalate]

theorem head_joined {a : List Char} {c : Char} (h : a.head? = some c) (rest : List (List Char)) :
    (joined (a :: rest)).head? = some c := by
  obtain ⟨more, rfl⟩ := List.head?_eq_some_iff.mp h
  cases rest with
  | nil => rw [joined_single]; rfl
  | cons b rest => rw [joined_cons]; rfl

theorem last_joined {P : Char → Prop} {items : List (List Char)} (hne : items ≠ [])
    (h : ∀ item ∈ items, ∃ c, item.getLast? = some c ∧ P c) :
    ∃ c, (joined items).getLast? = some c ∧ P c := by
  induction items with
  | nil => exact absurd rfl hne
  | cons a rest ih =>
      obtain ⟨ha, hrest⟩ := List.forall_mem_cons.mp h
      cases rest with
      | nil =>
          rw [joined_single]
          exact ha
      | cons b more =>
          obtain ⟨c, hc, hp⟩ := ih (List.cons_ne_nil _ _) hrest
          have hsome : joined (b :: more) ≠ [] := by
            rintro hnil
            rw [hnil] at hc
            cases hc
          refine ⟨c, ?_, hp⟩
          rw [joined_cons, List.getLast?_append_of_ne_nil _ (List.cons_ne_nil _ _),
            List.getLast?_cons_of_ne_nil (List.cons_ne_nil _ _), List.getLast?_cons_of_ne_nil hsome]
          exact hc

-- The geometries as they are read back, in the default reference system.

def Point.normal (p : Point F) : Point F := Point.new p.x p.y

def normalRings (rings : List (List (Point F))) : List (List (Point F)) :=
  rings.map (List.map Point.normal)

section Points

variable (h : RoundTrips num)

include h

theorem coords_not_sign (p : Point F) : ∀ c ∈ coords num p, c ≠ ',' ∧ c ≠ '(' ∧ c ≠ ')' := by
  intro c hc
  rcases List.mem_append.mp hc with hc | hc
  · exact (h.plain _ c hc).2
  · rcases List.mem_cons.mp hc with rfl | hc
    · decide
    · exact (h.plain _ c hc).2

theorem coords_head (p : Point F) : ∃ c, (coords num p).head? = some c ∧ Plain c := by
  obtain ⟨c, rest, hprint⟩ := List.exists_cons_of_ne_nil (h.some_digit p.x)
  exact ⟨c, by simp [coords, hprint], h.plain p.x c (by simp [hprint])⟩

theorem coords_last (p : Point F) : ∃ c, (coords num p).getLast? = some c ∧ Plain c := by
  have hlast : (coords num p).getLast? = (num.print p.y).getLast? := by
    rw [coords, List.getLast?_append_of_ne_nil _ (by simp), List.getLast?_cons_of_ne_nil (h.some_digit p.y)]
  obtain ⟨c, hc⟩ := List.getLast?_isSome.mpr (h.some_digit p.y) |> Option.isSome_iff_exists.mp
  exact ⟨c, by rw [hlast, hc], h.plain p.y c (List.mem_of_getLast? hc)⟩

theorem split_points {u : List Char} (hpad : ∀ c ∈ u, c ≠ ',') (p : Point F) (ps : List (Point F)) :
    split comma (u ++ joined ((p :: ps).map (coords num)))
      = (u ++ coords num p) :: ps.map fun q => ' ' :: coords num q := by
  have hfirst : ∀ {u : List Char}, (∀ c ∈ u, c ≠ ',') → ∀ p : Point F,
      ∀ c ∈ u ++ coords num p, comma.head? ≠ some c := by
    intro u hpad p c hc heq
    obtain rfl : ',' = c := Option.some.inj heq
    rcases List.mem_append.mp hc with hc | hc
    · exact hpad _ hc rfl
    · exact (coords_not_sign h p _ hc).1 rfl
  induction ps generalizing p u with
  | nil =>
      have habsent : ',' ∉ u ++ coords num p := fun hc => hfirst hpad p _ hc rfl
      have hcomma : ',' ∈ comma := List.mem_cons_self
      rw [List.map_cons, List.map_nil, joined_single, split_of_not_mem hcomma habsent]
      rfl
  | cons q rest ih =>
      have hpiece : split comma ((u ++ coords num p) ++
          (comma ++ (' ' :: joined ((q :: rest).map (coords num))))) = _ := split_piece (hfirst hpad p) (by simp [comma])
      have hmore := ih (u := [' ']) (by simp) q
      rw [List.map_cons, List.map_cons, joined_cons, ← List.append_assoc]
      exact hpiece.trans (congrArg (_ :: ·) hmore)

theorem readParts_coords (ps : List (Point F)) :
    readParts num (ps.map fun q => ' ' :: coords num q) = .ok (ps.map Point.normal) := by
  induction ps with
  | nil => rfl
  | cons p rest ih =>
      have htwo := firstTwo_coords h (u := [' ']) blank_space p
      rw [List.cons_append, List.nil_append] at htwo
      rw [List.map_cons, readParts, htwo]
      simp only [parseCoordinate_print h, ih]
      rfl

theorem read_points (points : List (Point F)) :
    readParts num (split comma (joined (points.map (coords num)))) = .ok (points.map Point.normal) := by
  cases points with
  | nil => rfl
  | cons p ps =>
      have hsplit := split_points h (u := []) (by simp) p ps
      rw [List.nil_append, List.nil_append] at hsplit
      have htwo := firstTwo_coords h (u := []) (by simp) p
      rw [hsplit, readParts, ← List.nil_append (coords num p), htwo]
      simp only [parseCoordinate_print h, readParts_coords h]
      rfl

-- The text of points begins and ends with a sign of a number.
theorem joined_head {points : List (Point F)} (hne : points ≠ []) :
    ∃ c, (joined (points.map (coords num))).head? = some c ∧ Plain c := by
  obtain ⟨p, ps, rfl⟩ := List.exists_cons_of_ne_nil hne
  obtain ⟨c, hc, hplain⟩ := coords_head h p
  exact ⟨c, head_joined hc _, hplain⟩

theorem joined_last {points : List (Point F)} (hne : points ≠ []) :
    ∃ c, (joined (points.map (coords num))).getLast? = some c ∧ Plain c := by
  refine last_joined (mt List.map_eq_nil_iff.mp hne) fun item hitem => ?_
  obtain ⟨p, -, rfl⟩ := List.mem_map.mp hitem
  exact coords_last h p

theorem joined_not_bracket (points : List (Point F)) :
    ∀ c ∈ joined (points.map (coords num)), c ≠ '(' ∧ c ≠ ')' := by
  induction points with
  | nil => simp [joined, List.intercalate]
  | cons p ps ih =>
      cases ps with
      | nil =>
          rw [List.map_cons, List.map_nil, joined_single]
          exact fun c hc => (coords_not_sign h p c hc).2
      | cons q more =>
          rw [List.map_cons, List.map_cons, joined_cons]
          intro c hc
          rcases List.mem_append.mp hc with hc | hc
          · exact (coords_not_sign h p c hc).2
          · rcases List.mem_cons.mp hc with rfl | hc
            · decide
            rcases List.mem_cons.mp hc with rfl | hc
            · decide
            · exact ih c hc

end Points

-- The text of a ring is found between brackets, however many close it.
theorem ringOf_brackets {u t w : List Char} (hpad : ∀ c ∈ u, Text.isWhitespace c = true)
    (htail : ∀ c ∈ w, c = ')') (hhead : ∃ c, t.head? = some c ∧ Plain c)
    (hlast : ∃ c, t.getLast? = some c ∧ Plain c) : ringOf (u ++ '(' :: t ++ w) = t := by
  obtain ⟨first, hfirst, hfirstPlain⟩ := hhead
  obtain ⟨last, hend, hlastPlain⟩ := hlast
  have hne : t ≠ [] := by
    rintro rfl
    cases hfirst
  have hfirm : Firm Text.isWhitespace ('(' :: t ++ w) := by
    refine ⟨⟨'(', rfl, by decide⟩, ?_⟩
    cases htails : w.getLast? with
    | none =>
        rw [List.getLast?_eq_none_iff.mp htails, List.append_nil, List.getLast?_cons_of_ne_nil hne]
        exact ⟨last, hend, hlastPlain.1⟩
    | some c =>
        have hc : c = ')' := htail c (List.mem_of_getLast? htails)
        have hsome : w ≠ [] := by
          rintro rfl
          cases htails
        rw [List.getLast?_append_of_ne_nil _ hsome, htails, hc]
        exact ⟨')', rfl, by decide⟩
  have hopen : ('(' :: t ++ w).dropWhile (· = '(') = t ++ w := by
    have hdrop : (['('] ++ (t ++ w)).dropWhile (· = '(') = t ++ w := by
      refine dropWhile_append (by simp) ⟨first, ?_, by simpa using hfirstPlain.2.2.1⟩
      rw [List.head?_append, hfirst]
      rfl
    exact hdrop
  rw [ringOf, List.append_assoc, trim_pad hpad hfirm, hopen]
  exact dropLast_append (by simpa using htail) ⟨last, hend, by simpa using hlastPlain.2.2.2⟩

section Bodies

theorem firm_brackets (text : List Char) : Firm Text.isWhitespace ('(' :: text ++ [')']) := by
  refine ⟨⟨'(', rfl, by decide⟩, ⟨')', ?_, by decide⟩⟩
  rw [List.getLast?_append_of_ne_nil _ (by simp)]
  rfl

theorem bracketed_brackets (text : List Char) :
    bracketed ('(' :: text ++ [')']) = some (Text.trim text) := by
  have hlast : ('(' :: text ++ [')']).getLast? = some ')' := by
    rw [List.getLast?_append_of_ne_nil _ (by simp)]
    rfl
  rw [bracketed, if_pos ⟨rfl, hlast⟩]
  simp

theorem stripPrefix_append (word text : List Char) : stripPrefix word (word ++ text) = some text := by
  rw [stripPrefix, if_pos (List.isPrefixOf_iff_prefix.mpr (List.prefix_append _ _)), List.drop_left]

-- A text in brackets after its name, and without it.
theorem bodyOf_name {name lower : List Char} (hname : ∃ c, name.head? = some c ∧ Text.isWhitespace c = false)
    (text : List Char) : bodyOf name lower (name ++ ('(' :: text ++ [')'])) = '(' :: text ++ [')'] := by
  obtain ⟨c, hc, hspace⟩ := hname
  obtain ⟨rest, hrest⟩ := List.head?_eq_some_iff.mp hc
  have hfirm : Firm Text.isWhitespace (name ++ ('(' :: text ++ [')'])) := by
    refine ⟨⟨c, by simp [hrest], hspace⟩, ⟨')', ?_, by decide⟩⟩
    rw [← List.append_assoc, List.getLast?_append_of_ne_nil _ (by simp)]
    rfl
  simp only [bodyOf, trim_firm hfirm, stripPrefix_append, Option.some_or, trim_firm (firm_brackets text)]

theorem bodyOf_brackets {name lower : List Char} (hname : name.head?.any (· ≠ '(') = true)
    (hlower : lower.head?.any (· ≠ '(') = true) (text : List Char) :
    bodyOf name lower ('(' :: text ++ [')']) = '(' :: text ++ [')'] := by
  have hnone : ∀ word : List Char, word.head?.any (· ≠ '(') = true →
      stripPrefix word ('(' :: text ++ [')']) = none := by
    intro word hword
    cases word with
    | nil => cases hword
    | cons c rest =>
        have hne : c ≠ '(' := by simpa using hword
        rw [stripPrefix, if_neg (by simp [List.isPrefixOf, hne])]
  simp only [bodyOf, trim_firm (firm_brackets text), hnone name hname, hnone lower hlower, Option.or_none]

end Bodies

-- The rings of a polygon up to the bracket that closes the last one.
def openRings (num : Coordinates F) : List (List (Point F)) → List Char
  | [] => []
  | [ring] => '(' :: joined (ring.map (coords num))
  | ring :: next :: rest =>
      '(' :: joined (ring.map (coords num)) ++ (')' :: ',' :: ' ' :: openRings num (next :: rest))

theorem joined_rings {rings : List (List (Point F))} (hne : rings ≠ []) :
    joined (rings.map (ringText num)) = openRings num rings ++ [')'] := by
  induction rings with
  | nil => exact absurd rfl hne
  | cons ring rest ih =>
      cases rest with
      | nil =>
          rw [List.map_cons, List.map_nil, joined_single]
          rfl
      | cons next more =>
          have hmore := ih (by simp)
          rw [List.map_cons] at hmore
          rw [List.map_cons, List.map_cons, joined_cons, hmore, openRings, ringText]
          simp

theorem firm_rings {rings : List (List (Point F))} (hne : rings ≠ []) {w : List Char}
    (htail : ∀ c ∈ w, c = ')') :
    Firm Text.isWhitespace (joined (rings.map (ringText num)) ++ w) := by
  have hlast : (')' :: w).getLast? = some ')' := by
    have hall : ∀ c ∈ ')' :: w, c = ')' := List.forall_mem_cons.mpr ⟨rfl, htail⟩
    obtain ⟨c, hc⟩ := Option.isSome_iff_exists.mp (List.getLast?_isSome.mpr (List.cons_ne_nil ')' w))
    rw [hc, hall c (List.mem_of_getLast? hc)]
  rw [joined_rings hne, List.append_assoc, List.singleton_append]
  refine ⟨⟨'(', ?_, by decide⟩, ⟨')', ?_, by decide⟩⟩
  · obtain ⟨ring, rest, rfl⟩ := List.exists_cons_of_ne_nil hne
    cases rest <;> rfl
  · rw [List.getLast?_append_of_ne_nil _ (List.cons_ne_nil _ _), hlast]

section Rings

variable (h : RoundTrips num)

include h

theorem lineString_text (l : LineString F) :
    lineStringFromStr num (lineStringWkt num l) = .ok ⟨l.points.map Point.normal, defaultSrid⟩ := by
  have hbody : lineStringBody (lineStringWkt num l) = ringText num l.points :=
    bodyOf_name ⟨'L', rfl, by decide⟩ _
  have htrim : Text.trim (joined (l.points.map (coords num))) = joined (l.points.map (coords num)) := by
    by_cases hne : l.points = []
    · rw [hne]
      rfl
    · obtain ⟨first, hfirst, hplain⟩ := joined_head h hne
      obtain ⟨last, hlast, hlastPlain⟩ := joined_last h hne
      exact trim_firm ⟨⟨first, hfirst, hplain.1⟩, ⟨last, hlast, hlastPlain.1⟩⟩
  rw [lineStringFromStr, hbody, ringText, bracketed_brackets, htrim]
  simp only [read_points h]
  rfl

theorem ring_not_close (points : List (Point F)) {u : List Char}
    (hpad : ∀ c ∈ u, Text.isWhitespace c = true) :
    ∀ c ∈ u ++ '(' :: joined (points.map (coords num)), c ≠ ')' := by
  intro c hc
  rcases List.mem_append.mp hc with hc | hc
  · rintro rfl
    exact absurd (hpad _ hc) (by decide)
  · rcases List.mem_cons.mp hc with rfl | hc
    · decide
    · exact (joined_not_bracket h points c hc).2

theorem split_rings {u w : List Char} (hpad : ∀ c ∈ u, Text.isWhitespace c = true)
    (htail : ∀ c ∈ w, c = ')') (ring : List (Point F)) (rings : List (List (Point F)))
    (hrings : ∀ r ∈ ring :: rings, r ≠ []) :
    (split ringEnd (u ++ joined ((ring :: rings).map (ringText num)) ++ w)).map ringOf
      = (ring :: rings).map fun r => joined (r.map (coords num)) := by
  induction rings generalizing ring u with
  | nil =>
      have hne := hrings ring List.mem_cons_self
      have htails : ∀ c ∈ ')' :: w, c = ')' := List.forall_mem_cons.mpr ⟨rfl, htail⟩
      have habsent : ',' ∉ ')' :: w := fun hc => absurd (htails _ hc) (by decide)
      have hcomma : ',' ∈ ringEnd := by decide
      have htext : u ++ joined ([ring].map (ringText num)) ++ w
          = (u ++ '(' :: joined (ring.map (coords num))) ++ ')' :: w := by
        simp [joined_single, ringText]
      have hopen : ∀ c ∈ u ++ '(' :: joined (ring.map (coords num)), ringEnd.head? ≠ some c :=
        fun c hc heq => ring_not_close h ring hpad c hc (Option.some.inj heq).symm
      have hring := ringOf_brackets hpad htails (joined_head h hne) (joined_last h hne)
      rw [htext, split_append hopen (by simp [ringEnd]), split_of_not_mem hcomma habsent,
        List.modifyHead_cons, List.map_cons, List.map_nil, hring]
      rfl
  | cons next rest ih =>
      have hne := hrings ring List.mem_cons_self
      have htext : u ++ joined ((ring :: next :: rest).map (ringText num)) ++ w
          = (u ++ '(' :: joined (ring.map (coords num))) ++ (ringEnd ++
            ([' '] ++ joined ((next :: rest).map (ringText num)) ++ w)) := by
        simp [joined_cons, ringText, ringEnd]
      have hopen : ∀ c ∈ u ++ '(' :: joined (ring.map (coords num)), ringEnd.head? ≠ some c :=
        fun c hc heq => ring_not_close h ring hpad c hc (Option.some.inj heq).symm
      have hring := ringOf_brackets (w := []) hpad (by simp) (joined_head h hne) (joined_last h hne)
      rw [List.append_nil] at hring
      have hmore := ih (u := [' ']) blank_space next fun r hr => hrings r (List.mem_cons_of_mem _ hr)
      rw [htext, split_piece hopen (by simp [ringEnd]), List.map_cons, hring, hmore]
      rfl

theorem readRings_pieces {pieces : List (List Char)} {rings : List (List (Point F))}
    (hpieces : pieces.map ringOf = rings.map fun r => joined (r.map (coords num)))
    (hrings : ∀ r ∈ rings, r ≠ []) : readRings num pieces = .ok (normalRings rings) := by
  induction pieces generalizing rings with
  | nil =>
      obtain rfl : rings = [] := List.map_eq_nil_iff.mp hpieces.symm
      rfl
  | cons piece rest ih =>
      cases rings with
      | nil => cases hpieces
      | cons ring more =>
          obtain ⟨hpiece, hrest⟩ := List.cons.inj hpieces
          obtain ⟨hne, hmore⟩ := List.forall_mem_cons.mp hrings
          have hfull : (ring.map Point.normal).isEmpty = false := by
            rw [List.isEmpty_eq_false_iff]
            exact fun hnil => hne (List.map_eq_nil_iff.mp hnil)
          rw [readRings, hpiece, read_points h, ih hrest hmore]
          show Except.ok (if (ring.map Point.normal).isEmpty = true then _ else _) = _
          rw [hfull]
          rfl

-- Brackets that close too often are taken off the last ring.
theorem polygon_brackets {rings : List (List (Point F))} (hne : rings ≠ []) (hrings : ∀ r ∈ rings, r ≠ [])
    {w : List Char} (htail : ∀ c ∈ w, c = ')') :
    polygonFromStr num ('(' :: (joined (rings.map (ringText num)) ++ w) ++ [')'])
      = .ok ⟨normalRings rings, defaultSrid⟩ := by
  obtain ⟨ring, rest, rfl⟩ := List.exists_cons_of_ne_nil hne
  have hfirm : Firm Text.isWhitespace (joined ((ring :: rest).map (ringText num)) ++ w) :=
    firm_rings hne htail
  have hbody : polygonBody ('(' :: (joined ((ring :: rest).map (ringText num)) ++ w) ++ [')'])
      = '(' :: (joined ((ring :: rest).map (ringText num)) ++ w) ++ [')'] :=
    bodyOf_brackets (by decide) (by decide) _
  have hsplit := split_rings h (u := []) (by simp) htail ring rest hrings
  rw [List.nil_append] at hsplit
  rw [polygonFromStr, hbody, bracketed_brackets, trim_firm hfirm]
  simp only [readRings_pieces h hsplit hrings]
  rfl

end Rings

section Polygons

variable (h : RoundTrips num)

include h

-- The end of a polygon is not found inside of one.
theorem split_openRings (rings : List (List (Point F))) (v : List Char) :
    split polygonEnd (openRings num rings ++ v)
      = (split polygonEnd v).modifyHead (openRings num rings ++ ·) := by
  have hopen : ∀ ring : List (Point F), ∀ c ∈ '(' :: joined (ring.map (coords num)),
      polygonEnd.head? ≠ some c := fun ring c hc heq =>
    ring_not_close h ring (u := []) (by simp) c hc (Option.some.inj heq).symm
  induction rings with
  | nil =>
      have hsplit : split polygonEnd ([] ++ v) = (split polygonEnd v).modifyHead ([] ++ ·) :=
        split_append (by simp) (by simp [polygonEnd])
      exact hsplit
  | cons ring rest ih =>
      cases rest with
      | nil => exact split_append (hopen ring) (by simp [polygonEnd])
      | cons next more =>
          have hstep : ∀ text : List Char, split polygonEnd (')' :: ',' :: ' ' :: text)
              = (split polygonEnd text).modifyHead ([')', ',', ' '] ++ ·) := by
            intro text
            rw [split_cons rfl, split_cons rfl, split_cons rfl, List.modifyHead_modifyHead,
              List.modifyHead_modifyHead]
            rfl
          have hfirst : split polygonEnd ('(' :: joined (ring.map (coords num)) ++
              (')' :: ',' :: ' ' :: (openRings num (next :: more) ++ v))) = _ :=
            split_append (hopen ring) (by simp [polygonEnd])
          rw [hstep, ih, List.modifyHead_modifyHead, List.modifyHead_modifyHead] at hfirst
          have htext : openRings num (ring :: next :: more) ++ v
              = '(' :: joined (ring.map (coords num)) ++
                (')' :: ',' :: ' ' :: (openRings num (next :: more) ++ v)) := by
            simp [openRings]
          rw [htext, hfirst]
          congr 1
          funext text
          simp [openRings]

omit h in
theorem trim_joined_polygons (polygons : List (Polygon F)) :
    Text.trim (joined (polygons.map fun g => polygonText num g.rings))
      = joined (polygons.map fun g => polygonText num g.rings) := by
  cases polygons with
  | nil => rfl
  | cons g rest =>
      have hlast : ∃ c, (joined ((g :: rest).map fun g => polygonText num g.rings)).getLast? = some c ∧
          Text.isWhitespace c = false := by
        refine last_joined (List.cons_ne_nil _ _) fun item hitem => ?_
        obtain ⟨g', -, rfl⟩ := List.mem_map.mp hitem
        exact (firm_brackets _).last
      exact trim_firm ⟨⟨'(', head_joined rfl _, by decide⟩, hlast⟩

-- A polygon that lacks its last brackets, and one that has too many.
theorem polygonPiece_open {rings : List (List (Point F))} (hne : rings ≠ [])
    (hrings : ∀ r ∈ rings, r ≠ []) {u w : List Char} (hpad : ∀ c ∈ u, Text.isWhitespace c = true)
    (htail : ∀ c ∈ w, c = ')') :
    polygonFromStr num (polygonPiece (u ++ '(' :: openRings num rings ++ w))
      = .ok ⟨normalRings rings, defaultSrid⟩ := by
  have htext : u ++ '(' :: openRings num rings ++ w ++ [')', ')']
      = u ++ ('(' :: (joined (rings.map (ringText num)) ++ w) ++ [')']) := by
    have hcommute : w ++ [')', ')'] = ')' :: (w ++ [')']) := by
      clear hpad
      induction w with
      | nil => rfl
      | cons c rest ih =>
          obtain ⟨hc, hrest⟩ := List.forall_mem_cons.mp htail
          rw [List.cons_append, ih hrest, hc]
          rfl
    rw [joined_rings hne]
    simp [hcommute]
  rw [polygonPiece, htext, trim_pad hpad (firm_brackets _)]
  exact polygon_brackets h hne hrings htail

def Polygon.normal (g : Polygon F) : Polygon F := ⟨normalRings g.rings, defaultSrid⟩

def Polygon.Proper (g : Polygon F) : Prop := g.rings ≠ [] ∧ ∀ ring ∈ g.rings, ring ≠ []

theorem read_polygons {u : List Char} (hpad : ∀ c ∈ u, Text.isWhitespace c = true)
    (g : Polygon F) (polygons : List (Polygon F)) (hproper : ∀ p ∈ g :: polygons, Polygon.Proper p) :
    (split polygonEnd (u ++ joined ((g :: polygons).map fun g => polygonText num g.rings))).filterMap
        (fun piece => (polygonFromStr num (polygonPiece piece)).toOption)
      = (g :: polygons).map Polygon.normal := by
  have hopen : ∀ {u : List Char}, (∀ c ∈ u, Text.isWhitespace c = true) →
      ∀ c ∈ u ++ ['('], polygonEnd.head? ≠ some c := by
    intro u hpad c hc heq
    obtain rfl : ')' = c := Option.some.inj heq
    rcases List.mem_append.mp hc with hc | hc
    · exact absurd (hpad _ hc) (by decide)
    · exact absurd (List.mem_singleton.mp hc) (by decide)
  have hsplit : ∀ {u : List Char}, (∀ c ∈ u, Text.isWhitespace c = true) →
      ∀ (rings : List (List (Point F))) (v : List Char),
      split polygonEnd (u ++ '(' :: openRings num rings ++ v)
        = (split polygonEnd v).modifyHead (u ++ '(' :: openRings num rings ++ ·) := by
    intro u hpad rings v
    have hboth := split_append (v := openRings num rings ++ v) (hopen hpad) (by simp [polygonEnd])
    rw [split_openRings h, List.modifyHead_modifyHead] at hboth
    have htext : u ++ '(' :: openRings num rings ++ v = u ++ ['('] ++ (openRings num rings ++ v) := by
      simp
    rw [htext, hboth]
    congr 1
    funext text
    simp
  induction polygons generalizing g u with
  | nil =>
      obtain ⟨hne, hrings⟩ := hproper g List.mem_cons_self
      have htext : u ++ joined ([g].map fun g => polygonText num g.rings)
          = u ++ '(' :: openRings num g.rings ++ [')', ')'] := by
        simp [joined_single, polygonText, joined_rings hne]
      have hpiece := polygonPiece_open h hne hrings hpad (w := [')', ')']) (by simp)
      have hend : split polygonEnd [')', ')'] = [[')', ')']] := by decide
      rw [htext, hsplit hpad, hend, List.modifyHead_cons, List.filterMap_cons, hpiece]
      rfl
  | cons next rest ih =>
      obtain ⟨hne, hrings⟩ := hproper g List.mem_cons_self
      have htext : u ++ joined ((g :: next :: rest).map fun g => polygonText num g.rings)
          = u ++ '(' :: openRings num g.rings ++ (polygonEnd ++
            ([' '] ++ joined ((next :: rest).map fun g => polygonText num g.rings))) := by
        simp [joined_cons, polygonText, joined_rings hne, polygonEnd]
      have hpiece := polygonPiece_open h hne hrings hpad (w := []) (by simp)
      have hmore := ih (u := [' ']) blank_space next fun p hp =>
        hproper p (List.mem_cons_of_mem _ hp)
      rw [htext, hsplit hpad, split_pattern (by simp [polygonEnd]), List.modifyHead_cons,
        List.filterMap_cons, hpiece, hmore]
      rfl

theorem polygon_text {g : Polygon F} (hproper : Polygon.Proper g) :
    polygonFromStr num (polygonWkt num g) = .ok (Polygon.normal g) := by
  obtain ⟨hne, hrings⟩ := hproper
  obtain ⟨ring, rest, hall⟩ := List.exists_cons_of_ne_nil hne
  have hbody : polygonBody (polygonWkt num g) = '(' :: joined (g.rings.map (ringText num)) ++ [')'] :=
    bodyOf_name ⟨'P', rfl, by decide⟩ _
  have hfirm : Firm Text.isWhitespace (joined (g.rings.map (ringText num)) ++ []) :=
    firm_rings hne (by simp)
  have hsplit := split_rings h (u := []) (w := []) (by simp) (by simp) ring rest (hall ▸ hrings)
  rw [List.append_nil] at hfirm
  rw [List.append_nil, List.nil_append, ← hall] at hsplit
  rw [polygonFromStr, hbody, bracketed_brackets, trim_firm hfirm]
  simp only [readRings_pieces h hsplit hrings]
  rfl

theorem multiPolygon_text {m : MultiPolygon F} (hproper : ∀ g ∈ m.polygons, Polygon.Proper g) :
    multiPolygonFromStr num (multiPolygonWkt num m)
      = .ok ⟨m.polygons.map Polygon.normal, defaultSrid⟩ := by
  have hbody : multiPolygonBody (multiPolygonWkt num m)
      = '(' :: joined (m.polygons.map fun g => polygonText num g.rings) ++ [')'] :=
    bodyOf_name ⟨'M', rfl, by decide⟩ _
  rw [multiPolygonFromStr, hbody, bracketed_brackets, trim_joined_polygons]
  cases hpolygons : m.polygons with
  | nil => rfl
  | cons g rest =>
      have hread := read_polygons h (u := []) (by simp) g rest (hpolygons ▸ hproper)
      rw [List.nil_append] at hread
      simp only [hread]

end Polygons

section Srid

theorem digit_of_lt : ∀ k, k < 10 → (Nat.digitChar k).isDigit = true ∧
    (Nat.digitChar k).toNat - '0'.toNat = k ∧ Nat.digitChar k ≠ '+' := by decide

theorem readU32_digit {k m : Nat} (hk : k < 10) (hfits : 10 * m + k < 2 ^ 32) (rest : List Char) :
    readU32 (Nat.digitChar k :: rest) m = readU32 rest (10 * m + k) := by
  obtain ⟨hdigit, hvalue, -⟩ := digit_of_lt k hk
  rw [readU32, if_pos hdigit]
  simp only [hvalue]
  rw [if_pos hfits]

theorem readU32_digits {n : Nat} (hn : n < 2 ^ 32) (rest : List Char) :
    readU32 (Nat.toDigits 10 n ++ rest) 0 = readU32 rest n := by
  induction n using Nat.strongRecOn generalizing rest with
  | ind n ih =>
      by_cases hsmall : n < 10
      · rw [Nat.toDigits_of_lt_base hsmall, List.singleton_append, readU32_digit hsmall (by omega)]
        simp
      · have hdigits : Nat.toDigits 10 n = Nat.toDigits 10 (n / 10) ++ [Nat.digitChar (n % 10)] :=
          Nat.toDigits_of_base_le (by omega) (by omega)
        rw [hdigits, List.append_assoc, ih (n / 10) (by omega) (by omega), List.singleton_append,
          readU32_digit (Nat.mod_lt _ (by omega)) (by omega), Nat.div_add_mod]

theorem toString_toList (n : Nat) : (toString n).toList = Nat.toDigits 10 n := by
  show (Nat.repr n).toList = _
  rw [Nat.repr, String.toList_ofList]

theorem parseU32_toString {n : Nat} (hn : n < 2 ^ 32) : parseU32 (toString n).toList = .ok n := by
  have hread := readU32_digits hn []
  rw [List.append_nil] at hread
  have hdigits : ∀ c ∈ Nat.toDigits 10 n, c.isDigit = true := fun c hc =>
    Nat.isDigit_of_mem_toDigits (by omega) (by omega) hc
  have hne : Nat.toDigits 10 n ≠ [] := Nat.toDigits_ne_nil
  rw [toString_toList]
  cases htext : Nat.toDigits 10 n with
  | nil => exact absurd htext hne
  | cons c rest =>
      have hplus : c ≠ '+' := by
        rintro rfl
        exact absurd (hdigits '+' (by simp [htext])) (by decide)
      rw [htext] at hread
      rw [parseU32, hread]
      · rfl
      · simp
      · simp [hplus]
      · simp [hplus]

end Srid

section Point

variable (h : RoundTrips num)

include h

theorem trim_coords (p : Point F) : Text.trim (coords num p) = coords num p := by
  obtain ⟨first, hfirst, hplain⟩ := coords_head h p
  obtain ⟨last, hlast, hlastPlain⟩ := coords_last h p
  exact trim_firm ⟨⟨first, hfirst, hplain.1⟩, ⟨last, hlast, hlastPlain.1⟩⟩

theorem point_text {p : Point F} (hsrid : p.srid < 2 ^ 32) :
    pointFromStr num (pointEwkt num p) = .ok p := by
  have hpoint : pointWkt num p = "POINT".toList ++ ('(' :: coords num p ++ [')']) := rfl
  have hfirm : Firm Text.isWhitespace (pointWkt num p) := by
    refine ⟨⟨'P', rfl, by decide⟩, ⟨')', ?_, by decide⟩⟩
    rw [pointWkt, List.getLast?_append_of_ne_nil _ (by simp)]
    rfl
  have hall : Firm Text.isWhitespace (pointEwkt num p) := by
    refine ⟨⟨'S', rfl, by decide⟩, ⟨')', ?_, by decide⟩⟩
    rw [pointEwkt, List.getLast?_append_of_ne_nil _ (by simp),
      List.getLast?_cons_of_ne_nil (by simp [pointWkt]), pointWkt,
      List.getLast?_append_of_ne_nil _ (by simp)]
    rfl
  have hdigits : ∀ c ∈ (toString p.srid).toList, decide (c ≠ ';') = true := by
    intro c hc
    have hdigit : c.isDigit = true := by
      rw [toString_toList] at hc
      exact Nat.isDigit_of_mem_toDigits (by omega) (by omega) hc
    refine decide_eq_true ?_
    rintro rfl
    exact absurd hdigit (by decide)
  have hheader : sridHeader (pointEwkt num p) = .ok (p.srid, pointWkt num p) := by
    have hprefix : "SRID=".toList.isPrefixOf (pointEwkt num p) = true := by
      rw [pointEwkt, List.append_assoc]
      exact List.isPrefixOf_iff_prefix.mpr (List.prefix_append _ _)
    have hdrop : (pointEwkt num p).drop 5 = (toString p.srid).toList ++ ';' :: pointWkt num p := rfl
    have htake : ((toString p.srid).toList ++ ';' :: pointWkt num p).takeWhile (· ≠ ';')
        = (toString p.srid).toList := by
      rw [List.takeWhile_append_of_pos hdigits, List.takeWhile_cons_of_neg (by decide), List.append_nil]
    have hafter : ((toString p.srid).toList ++ ';' :: pointWkt num p).dropWhile (· ≠ ';')
        = ';' :: pointWkt num p := by
      rw [List.dropWhile_append_of_pos hdigits, List.dropWhile_cons_of_neg (by decide)]
    have hsome : ';' ∈ (toString p.srid).toList ++ ';' :: pointWkt num p := by simp
    simp only [sridHeader, hprefix, if_true, hdrop, htake, hafter, hsome, parseU32_toString hsrid,
      List.drop_succ_cons, List.drop_zero, trim_firm hfirm]
  have hinner : pointInner (pointWkt num p) = some (coords num p) := by
    rw [pointInner, hpoint, stripPrefix_append, Option.some_or, Option.bind_some,
      trim_firm (firm_brackets _), bracketed_brackets, trim_coords h]
  have htwo := firstTwo_coords h (u := []) (by simp) p
  rw [List.nil_append] at htwo
  have hfirst : (pointInner (pointWkt num p)).bind firstTwo = some (num.print p.x, num.print p.y) := by
    rw [hinner, Option.bind_some, htwo]
  rw [pointFromStr, trim_firm hall, hheader]
  simp only [bind, Except.bind, hfirst, readPoint, parseCoordinate_print h]

end Point

end Ruprizzle.Runtime.Spatial
