import Ruprizzle.Lsp.Document

namespace Ruprizzle.Lsp

-- Where the scan of the server stops, against where a position is.

-- A position that the scan finds: the lines before it end with LF or CRLF, and what
-- stands before it in its line is one unit a character and reaches it.
def Counted (line character : Nat) : List Char → Prop
  | [] => True
  | c :: rest =>
      if line = 0 then
        character = 0 ∨ c ≠ '\n' ∧ c ≠ '\r' ∧ utf16Size c = 1 ∧ Counted 0 (character - 1) rest
      else
        (c = '\r' → rest.head? = some '\n') ∧
          Counted (if c = '\n' then line - 1 else line) character rest

-- A position is no place inside a character of two units.
def Between (line character : Nat) : List Char → Prop
  | [] => True
  | c :: rest =>
      if line = 0 then
        character = 0 ∨ c = '\n' ∨ c = '\r' ∨
          utf16Size c ≤ character ∧ Between 0 (character - utf16Size c) rest
      else Between (if endsLine c rest then line - 1 else line) character rest

theorem utf16Size_pos (c : Char) : 1 ≤ utf16Size c := by
  unfold utf16Size
  split <;> omega

@[simp] theorem utf16Size_newline : utf16Size '\n' = 1 := rfl

theorem endsLine_newline (rest : List Char) : endsLine '\n' rest = true := rfl

theorem endsLine_of_ne {c : Char} {rest : List Char} (hn : c ≠ '\n')
    (hr : c = '\r' → rest.head? = some '\n') : endsLine c rest = false := by
  unfold endsLine
  by_cases hc : c = '\r'
  · simp [hc, hr hc]
  · simp [hn, hc]

-- The two steps of a split.

theorem splitAt_stop {ch : Nat} {c : Char} {rest : List Char}
    (h : ch < utf16Size c ∨ c = '\n' ∨ c = '\r') : splitAt 0 ch (c :: rest) = ([], c :: rest) := by
  simp only [splitAt, if_pos h, ite_true]

theorem splitAt_go {ch : Nat} {c : Char} {rest : List Char}
    (h : ¬(ch < utf16Size c ∨ c = '\n' ∨ c = '\r')) :
    splitAt 0 ch (c :: rest) = (c :: (splitAt 0 (ch - utf16Size c) rest).1,
      (splitAt 0 (ch - utf16Size c) rest).2) := by
  simp only [splitAt, if_neg h, ite_true]

theorem splitAt_line {line ch : Nat} {c : Char} {rest : List Char} (h : line ≠ 0) :
    splitAt line ch (c :: rest) =
      (c :: (splitAt (if endsLine c rest then line - 1 else line) ch rest).1,
        (splitAt (if endsLine c rest then line - 1 else line) ch rest).2) := by
  simp only [splitAt, if_neg h]

theorem splitAt_append (line ch : Nat) (text : List Char) :
    (splitAt line ch text).1 ++ (splitAt line ch text).2 = text := by
  induction text generalizing line ch with
  | nil => rfl
  | cons c rest ih =>
      by_cases hline : line = 0
      · subst hline
        by_cases hstop : ch < utf16Size c ∨ c = '\n' ∨ c = '\r'
        · rw [splitAt_stop hstop]
          rfl
        · rw [splitAt_go hstop]
          exact congrArg (c :: ·) (ih 0 _)
      · rw [splitAt_line hline]
        exact congrArg (c :: ·) (ih _ ch)

-- The steps of the scan.

variable {pos : Position} {i l col : Nat} {c : Char} {rest text : List Char}

theorem scan_newline (h : ¬(l = pos.line ∧ col = pos.character)) :
    scan pos i l col ('\n' :: rest) = scan pos (i + ('\n' : Char).utf8Size) (l + 1) 0 rest := by
  simp only [scan, if_neg h, ite_true]

theorem scan_char (h : ¬(l = pos.line ∧ col = pos.character)) (hc : c ≠ '\n') :
    scan pos i l col (c :: rest) = scan pos (i + c.utf8Size) l (col + 1) rest := by
  simp only [scan, if_neg h, if_neg hc]

theorem scan_found (h : l = pos.line ∧ col = pos.character) :
    scan pos i l col (c :: rest) = i := by
  simp only [scan, if_pos h]

-- A scan that has left the line behind, or never gets to it, ends at the end.

theorem scan_past (h : pos.line < l) : scan pos i l col text = i + byteLen text := by
  induction text generalizing i l col with
  | nil => rfl
  | cons c rest ih =>
      have hnot : ¬(l = pos.line ∧ col = pos.character) := by omega
      by_cases hc : c = '\n'
      · subst hc
        rw [scan_newline hnot, ih (by omega), byteLen]
        omega
      · rw [scan_char hnot hc, ih h, byteLen]
        omega

theorem scan_noNewline (hl : l ≠ pos.line) (h : '\n' ∉ text) :
    scan pos i l col text = i + byteLen text := by
  induction text generalizing i col with
  | nil => rfl
  | cons c rest ih =>
      rw [List.mem_cons, not_or] at h
      rw [scan_char (by omega) (Ne.symm h.1), ih h.2, byteLen]
      omega

theorem le_scan : i ≤ scan pos i l col text := by
  induction text generalizing i l col with
  | nil => exact le_rfl
  | cons c rest ih =>
      by_cases hfound : l = pos.line ∧ col = pos.character
      · rw [scan_found hfound]
      · by_cases hc : c = '\n'
        · subst hc
          rw [scan_newline hfound]
          exact (Nat.le_add_right _ _).trans ih
        · rw [scan_char hfound hc]
          exact (Nat.le_add_right _ _).trans ih

theorem lt_scan (h : ¬(l = pos.line ∧ col = pos.character)) : i < scan pos i l col (c :: rest) := by
  have hsize := Char.utf8Size_pos c
  by_cases hc : c = '\n'
  · subst hc
    rw [scan_newline h]
    exact (Nat.lt_add_of_pos_right hsize).trans_le le_scan
  · rw [scan_char h hc]
    exact (Nat.lt_add_of_pos_right hsize).trans_le le_scan

-- Positions that are counted.

theorem scan_counted_line {ch : Nat} (h : Counted 0 ch text) :
    scan ⟨l, col + ch⟩ i l col text = i + byteLen (splitAt 0 ch text).1 := by
  induction text generalizing i col ch with
  | nil => rfl
  | cons c rest ih =>
      have hsize := utf16Size_pos c
      simp only [Counted, ite_true] at h
      by_cases hch : ch = 0
      · subst hch
        have hfound : scan ⟨l, col + 0⟩ i l col (c :: rest) = i := scan_found ⟨rfl, rfl⟩
        rw [hfound, splitAt_stop (Or.inl hsize)]
        rfl
      · obtain ⟨hn, hr, hone, hrest⟩ := h.resolve_left hch
        have hgo : ¬(ch < utf16Size c ∨ c = '\n' ∨ c = '\r') := by
          simp only [hn, hr, or_false]
          omega
        have hpos : col + ch = col + 1 + (ch - 1) := by omega
        rw [scan_char (by simp; omega) hn, splitAt_go hgo, hone, hpos, ih hrest, byteLen]
        omega

theorem scan_counted {n ch : Nat} (h : Counted (n + 1) ch text) :
    scan ⟨l + (n + 1), ch⟩ i l col text = i + byteLen (splitAt (n + 1) ch text).1 := by
  induction text generalizing i l col n with
  | nil => rfl
  | cons c rest ih =>
      obtain ⟨hr, hrest⟩ := h
      have hnot : ¬(l = l + (n + 1) ∧ col = ch) := by omega
      rw [splitAt_line (by omega)]
      by_cases hc : c = '\n'
      · subst hc
        rw [scan_newline hnot, endsLine_newline, if_pos rfl, byteLen]
        simp only [ite_true, Nat.add_sub_cancel] at hrest ⊢
        cases n with
        | zero =>
            have hline : scan ⟨l + 1, 0 + ch⟩ (i + Char.utf8Size '\n') (l + 1) 0 rest = _ :=
              scan_counted_line hrest
            rw [Nat.zero_add] at hline
            rw [Nat.zero_add, hline]
            omega
        | succ n =>
            have hpos : l + (n + 1 + 1) = l + 1 + (n + 1) := by omega
            rw [hpos, ih hrest]
            omega
      · rw [if_neg hc] at hrest
        rw [scan_char hnot hc, endsLine_of_ne hc hr, ih hrest, byteLen]
        simp only [Bool.false_eq_true, ite_false]
        omega

-- Positions at the end of the text.

theorem no_newline_of_end {ch : Nat} (h : (splitAt 0 ch text).2 = []) : '\n' ∉ text := by
  induction text generalizing ch with
  | nil => exact List.not_mem_nil
  | cons c rest ih =>
      by_cases hstop : ch < utf16Size c ∨ c = '\n' ∨ c = '\r'
      · rw [splitAt_stop hstop] at h
        cases h
      · rw [splitAt_go hstop] at h
        rw [List.mem_cons, not_or]
        exact ⟨fun hc => hstop (Or.inr (Or.inl hc.symm)), ih h⟩

-- In the last line the scan counts no more than the units that there are.
theorem scan_end_line {ch k : Nat} (h : (splitAt 0 ch text).2 = []) (hk : ch ≤ k) :
    scan ⟨l, col + k⟩ i l col text = i + byteLen text := by
  induction text generalizing i col ch k with
  | nil => rfl
  | cons c rest ih =>
      have hsize := utf16Size_pos c
      by_cases hstop : ch < utf16Size c ∨ c = '\n' ∨ c = '\r'
      · rw [splitAt_stop hstop] at h
        cases h
      · rw [splitAt_go hstop] at h
        simp only [not_or, Nat.not_lt] at hstop
        obtain ⟨hle, hn, -⟩ := hstop
        have hpos : col + k = col + 1 + (k - 1) := by omega
        rw [scan_char (by simp; omega) hn, hpos, ih h (by omega), byteLen]
        omega

-- Before it the scan has at least as many lines to go as there are.
theorem scan_end {n m ch : Nat} (h : (splitAt n ch text).2 = []) (hm : n ≤ m + 1) (hn : 1 ≤ n) :
    scan ⟨l + (m + 1), ch⟩ i l col text = i + byteLen text := by
  induction text generalizing i l col n m with
  | nil => rfl
  | cons c rest ih =>
      have hnot : ¬(l = l + (m + 1) ∧ col = ch) := by omega
      rw [splitAt_line (by omega)] at h
      by_cases hc : c = '\n'
      · subst hc
        rw [endsLine_newline, if_pos rfl] at h
        rw [scan_newline hnot, byteLen]
        cases m with
        | zero =>
            have hzero : n - 1 = 0 := by omega
            rw [hzero] at h
            have hline : scan ⟨l + 1, 0 + ch⟩ (i + Char.utf8Size '\n') (l + 1) 0 rest = _ :=
              scan_end_line h le_rfl
            rw [Nat.zero_add] at hline
            rw [Nat.zero_add, hline]
            omega
        | succ m =>
            have hpos : l + (m + 1 + 1) = l + 1 + (m + 1) := by omega
            by_cases hlast : n - 1 = 0
            · rw [hlast] at h
              rw [scan_noNewline (by simp) (no_newline_of_end h)]
              omega
            · rw [hpos, ih h (by omega) (by omega)]
              omega
      · rw [scan_char hnot hc, byteLen]
        by_cases hlast : (if endsLine c rest then n - 1 else n) = 0
        · rw [hlast] at h
          rw [scan_noNewline (by simp) (no_newline_of_end h)]
          omega
        · have hle : (if endsLine c rest then n - 1 else n) ≤ m + 1 := by
            split <;> omega
          rw [ih h hle (by omega)]
          omega

-- Positions that the scan passes by.

theorem scan_passes_line {ch k : Nat} (h : (splitAt 0 ch text).2 ≠ []) (hk : ch < k) :
    i + byteLen (splitAt 0 ch text).1 < scan ⟨l, col + k⟩ i l col text := by
  induction text generalizing i col ch k with
  | nil => exact absurd rfl h
  | cons c rest ih =>
      have hsize := utf16Size_pos c
      have hnot : ¬(l = l ∧ col = col + k) := by omega
      by_cases hstop : ch < utf16Size c ∨ c = '\n' ∨ c = '\r'
      · rw [splitAt_stop hstop]
        exact lt_scan hnot
      · rw [splitAt_go hstop] at h ⊢
        simp only [not_or, Nat.not_lt] at hstop
        obtain ⟨hle, hn, -⟩ := hstop
        have hpos : col + k = col + 1 + (k - 1) := by omega
        rw [scan_char hnot hn, hpos, byteLen]
        have hlt : ch - utf16Size c < k - 1 := by omega
        have hrest : i + c.utf8Size + byteLen (splitAt 0 (ch - utf16Size c) rest).1 <
          scan ⟨l, col + 1 + (k - 1)⟩ (i + c.utf8Size) l (col + 1) rest := ih h hlt
        omega

theorem scan_passes {n m ch k : Nat} (h : (splitAt n ch text).2 ≠ []) (hm : n < m) :
    i + byteLen (splitAt n ch text).1 < scan ⟨l + m, k⟩ i l col text := by
  induction text generalizing i l col n m ch with
  | nil => exact absurd rfl h
  | cons c rest ih =>
      have hnot : ¬(l = l + m ∧ col = k) := by omega
      by_cases hn : n = 0
      · subst hn
        by_cases hstop : ch < utf16Size c ∨ c = '\n' ∨ c = '\r'
        · rw [splitAt_stop hstop]
          exact lt_scan hnot
        · rw [splitAt_go hstop] at h ⊢
          rw [scan_char hnot fun hc => hstop (Or.inr (Or.inl hc)), byteLen]
          have hrest := @ih (i + c.utf8Size) l (col + 1) 0 m _ h hm
          omega
      · rw [splitAt_line hn] at h ⊢
        rw [byteLen]
        by_cases hc : c = '\n'
        · subst hc
          rw [endsLine_newline, if_pos rfl] at h ⊢
          have hpos : l + m = l + 1 + (m - 1) := by omega
          rw [scan_newline hnot, hpos]
          have hrest := @ih (i + Char.utf8Size '\n') (l + 1) 0 _ (m - 1) _ h (by omega)
          omega
        · rw [scan_char hnot hc]
          have hle : (if endsLine c rest then n - 1 else n) < m := by
            split <;> omega
          have hrest := @ih (i + c.utf8Size) l (col + 1) _ m _ h hle
          omega

theorem scan_uncounted_line {ch : Nat} (h : (splitAt 0 ch text).2 ≠ [])
    (hbetween : Between 0 ch text) (hnot : ¬Counted 0 ch text) :
    i + byteLen (splitAt 0 ch text).1 < scan ⟨l, col + ch⟩ i l col text := by
  induction text generalizing i col ch with
  | nil => exact absurd rfl h
  | cons c rest ih =>
      have hsize := utf16Size_pos c
      simp only [Counted, ite_true, not_or] at hnot
      obtain ⟨hch, hnot⟩ := hnot
      have hpast : ¬(l = l ∧ col = col + ch) := by omega
      by_cases hstop : ch < utf16Size c ∨ c = '\n' ∨ c = '\r'
      · rw [splitAt_stop hstop]
        exact lt_scan hpast
      · rw [splitAt_go hstop] at h ⊢
        simp only [not_or, Nat.not_lt] at hstop
        obtain ⟨hle, hn, hr⟩ := hstop
        simp only [Between, ite_true, hch, hn, hr, false_or] at hbetween
        have hpos : col + ch = col + 1 + (ch - 1) := by omega
        rw [scan_char hpast hn, hpos, byteLen]
        by_cases hone : utf16Size c = 1
        · rw [hone] at h hbetween ⊢
          have hrest := @ih (i + c.utf8Size) (col + 1) _ h hbetween.2 fun hcounted =>
            hnot ⟨hn, hr, hone, hcounted⟩
          omega
        · have hlt : ch - utf16Size c < ch - 1 := by omega
          have hrest : i + c.utf8Size + byteLen (splitAt 0 (ch - utf16Size c) rest).1 <
            scan ⟨l, col + 1 + (ch - 1)⟩ (i + c.utf8Size) l (col + 1) rest := scan_passes_line h hlt
          omega

theorem scan_uncounted {n ch : Nat} (h : (splitAt (n + 1) ch text).2 ≠ [])
    (hbetween : Between (n + 1) ch text) (hnot : ¬Counted (n + 1) ch text) :
    i + byteLen (splitAt (n + 1) ch text).1 < scan ⟨l + (n + 1), ch⟩ i l col text := by
  induction text generalizing i l col n with
  | nil => exact absurd rfl h
  | cons c rest ih =>
      have hpast : ¬(l = l + (n + 1) ∧ col = ch) := by omega
      rw [splitAt_line (by omega)] at h ⊢
      simp only [Between, Nat.succ_ne_zero, ite_false] at hbetween
      simp only [Counted, Nat.succ_ne_zero, ite_false, not_and] at hnot
      rw [byteLen]
      by_cases hc : c = '\n'
      · subst hc
        rw [endsLine_newline, if_pos rfl] at h hbetween ⊢
        simp only [ite_true, Nat.add_sub_cancel] at h hbetween hnot ⊢
        have hcounted := hnot fun hc => absurd hc (by decide)
        rw [scan_newline hpast]
        cases n with
        | zero =>
            have hline : i + Char.utf8Size '\n' + byteLen (splitAt 0 ch rest).1 <
                scan ⟨l + 1, 0 + ch⟩ (i + Char.utf8Size '\n') (l + 1) 0 rest :=
              scan_uncounted_line h hbetween hcounted
            rw [Nat.zero_add] at hline ⊢
            omega
        | succ n =>
            have hpos : l + (n + 1 + 1) = l + 1 + (n + 1) := by omega
            rw [hpos]
            have hrest := @ih (i + Char.utf8Size '\n') (l + 1) 0 _ h hbetween hcounted
            omega
      · rw [scan_char hpast hc]
        rw [if_neg hc] at hnot
        by_cases hends : endsLine c rest = true
        · rw [if_pos hends] at h ⊢
          have hrest : i + c.utf8Size + byteLen (splitAt (n + 1 - 1) ch rest).1 <
              scan ⟨l + (n + 1), ch⟩ (i + c.utf8Size) l (col + 1) rest := scan_passes h (by omega)
          omega
        · rw [if_neg hends] at h hbetween ⊢
          have hr : c = '\r' → rest.head? = some '\n' := by
            rintro rfl
            simpa [endsLine] using hends
          have hrest := @ih (i + c.utf8Size) l (col + 1) _ h hbetween (hnot hr)
          omega

theorem positionToByteOffset_eq {pos : Position} {text : List Char}
    (h : (pos.split text).2 = [] ∨ Counted pos.line pos.character text) :
    positionToByteOffset text pos = byteLen (pos.split text).1 := by
  obtain ⟨line, ch⟩ := pos
  simp only [Position.split] at h ⊢
  rcases h with hend | hcounted
  · have hall := splitAt_append line ch text
    rw [hend, List.append_nil] at hall
    rw [hall]
    cases line with
    | zero =>
        have hline : scan ⟨0, 0 + ch⟩ 0 0 0 text = 0 + byteLen text := scan_end_line hend le_rfl
        simpa [positionToByteOffset] using hline
    | succ n =>
        have hline : scan ⟨0 + (n + 1), ch⟩ 0 0 0 text = 0 + byteLen text :=
          scan_end hend le_rfl (Nat.le_add_left 1 n)
        simpa [positionToByteOffset] using hline
  · cases line with
    | zero =>
        have hline : scan ⟨0, 0 + ch⟩ 0 0 0 text = 0 + _ := scan_counted_line hcounted
        simpa [positionToByteOffset] using hline
    | succ n =>
        have hline : scan ⟨0 + (n + 1), ch⟩ 0 0 0 text = 0 + _ := scan_counted hcounted
        simpa [positionToByteOffset] using hline

-- The scan finds a position just when the position is the end of the text or is
-- counted.
theorem positionToByteOffset_iff {pos : Position} {text : List Char}
    (hbetween : Between pos.line pos.character text) :
    positionToByteOffset text pos = byteLen (pos.split text).1 ↔
      (pos.split text).2 = [] ∨ Counted pos.line pos.character text := by
  refine ⟨fun h => ?_, positionToByteOffset_eq⟩
  by_contra hnot
  rw [not_or] at hnot
  obtain ⟨line, ch⟩ := pos
  simp only [Position.split] at h hnot hbetween
  cases line with
  | zero =>
      have hline : 0 + byteLen (splitAt 0 ch text).1 < scan ⟨0, 0 + ch⟩ 0 0 0 text :=
        scan_uncounted_line hnot.1 hbetween hnot.2
      simp only [Nat.zero_add] at hline
      exact absurd h hline.ne'
  | succ n =>
      have hline : 0 + byteLen (splitAt (n + 1) ch text).1 < scan ⟨0 + (n + 1), ch⟩ 0 0 0 text :=
        scan_uncounted hnot.1 hbetween hnot.2
      simp only [Nat.zero_add] at hline
      exact absurd h hline.ne'

end Ruprizzle.Lsp
