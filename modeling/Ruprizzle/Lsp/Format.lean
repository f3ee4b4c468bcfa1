import Ruprizzle.Data.Splitting
import Ruprizzle.Data.Text
import Ruprizzle.Lsp.Document

namespace Ruprizzle.Lsp.Format

-- The formatter of schema texts, line by line, and what it answers to an editor.

abbrev Line := List Char

def chomp (line : Line) : Line := if line.getLast? = some '\r' then line.dropLast else line

-- str::lines: what stands behind the last line feed is a line if there is anything.
def lines (text : List Char) : List Line :=
  let cut := text.splitOn '\n'
  cut.dropLast.map chomp ++ cut.getLast?.toList.filter fun line => !line.isEmpty

def splitWhitespace (text : List Char) : List (List Char) := Splitting.pieces Text.isWhitespace text

def isComment (trimmed : Line) : Bool :=
  ['/', '/'].isPrefixOf trimmed || ['/', '/', '/'].isPrefixOf trimmed

inductive Entry
  | blank
  | comment (text : Line)
  | blockAttr (text : Line)
  | field (name typeName attrs : List Char)
  | raw (text : Line)
  deriving DecidableEq, Repr

def entryOf (isModel : Bool) (line : Line) : Entry :=
  let trimmed := Text.trim line
  if trimmed.isEmpty then .blank
  else if isComment trimmed then .comment trimmed
  else if ['@', '@'].isPrefixOf trimmed then .blockAttr trimmed
  else if isModel then
    match splitWhitespace trimmed with
    | name :: typeName :: attrs => .field name typeName ([' '].intercalate attrs)
    | _ => .raw trimmed
  else .raw trimmed

namespace Entry

def nameLen : Entry → Nat
  | field name _ _ => byteLen name
  | _ => 0

def typeLen : Entry → Nat
  | field _ typeName _ => byteLen typeName
  | _ => 0

-- The blanks that widen a column. Only attributes have a column behind the type.
def pad (width : Nat) (text : List Char) : List Char := List.replicate (width - byteLen text) ' '

def write (maxName maxType : Nat) : Entry → Line
  | blank => []
  | comment text | blockAttr text | raw text => ' ' :: ' ' :: text
  | field name typeName attrs =>
      ' ' :: ' ' :: (name ++ pad maxName name ++ ' ' :: (typeName ++
        if attrs.isEmpty then [] else pad maxType typeName ++ ' ' :: attrs))

end Entry

def written (isModel : Bool) (body : List Line) : List Line :=
  let entries := body.map (entryOf isModel)
  entries.map (Entry.write ((entries.map Entry.nameLen).foldl max 0)
    ((entries.map Entry.typeLen).foldl max 0))

def unlines (ls : List Line) : List Char := ls.flatMap (· ++ ['\n'])

-- A header alone is a slice that ends before it begins, which panics.
def formatBlock : List Line → Option (List Char)
  | [] => some []
  | [_] => none
  | first :: rest =>
      let header := Text.trim first
      let isModel := ['m', 'o', 'd', 'e', 'l', ' '].isPrefixOf header
      some (header ++ '\n' :: unlines (written isModel rest.dropLast) ++ ['}'])

structure Formatter where
  out : List Char
  inBlock : Bool
  blockLines : List Line

namespace Formatter

def start : Formatter := ⟨[], false, []⟩

def afterBlank (out : List Char) : Bool := ['\n', '\n'].isSuffixOf out

def read (s : Formatter) (line : Line) : Option Formatter :=
  let trimmed := Text.trim line
  if isComment trimmed || trimmed.isEmpty then
    if s.inBlock then some { s with blockLines := s.blockLines ++ [line] }
    else if !s.out.isEmpty && !afterBlank s.out && trimmed.isEmpty then
      some { s with out := s.out ++ ['\n'] }
    else if !trimmed.isEmpty then some { s with out := s.out ++ trimmed ++ ['\n'] }
    else some s
  else if trimmed.getLast? = some '{' then some { s with inBlock := true, blockLines := [line] }
  else if trimmed = ['}'] then
    if s.inBlock then
      (formatBlock (s.blockLines ++ [line])).map fun block =>
        let apart := if !s.out.isEmpty && !afterBlank s.out then ['\n'] else []
        ⟨s.out ++ apart ++ block ++ ['\n'], false, []⟩
    else some { s with out := s.out ++ ['}', '\n'] }
  else if s.inBlock then some { s with blockLines := s.blockLines ++ [line] }
  else some { s with out := s.out ++ trimmed ++ ['\n'] }

end Formatter

-- None stands for a panic.
def formatSchema (text : List Char) : Option (List Char) := do
  let s ← (lines text).foldlM Formatter.read .start
  if s.inBlock && !s.blockLines.isEmpty then (formatBlock s.blockLines).map (s.out ++ ·)
  else some s.out

structure TextEdit where
  range : Range
  newText : List Char
  deriving DecidableEq, Repr

-- Numbers of lines and bytes are cut to 32 bits.
def formatDocument (text : List Char) : Option (List TextEdit) :=
  (formatSchema text).map fun formatted =>
    if formatted = text then []
    else
      let lineCount := (lines text).length % 2 ^ 32
      let lastLineLen := ((lines text).getLast?.elim 0 byteLen) % 2 ^ 32
      [⟨⟨⟨0, 0⟩, ⟨lineCount - 1, lastLineLen⟩⟩, formatted⟩]

-- What the client makes of the edits.
def applyEdits (text : List Char) (edits : List TextEdit) : List Char :=
  edits.foldl (fun text edit => clientText text ⟨some edit.range, edit.newText⟩) text

def reformatted (text : List Char) : Option (List Char) := (formatDocument text).map (applyEdits text)

open Splitting

section Marks

variable {line other : Line} {u : List Char}

-- The lines that open a block and those that close one.

inductive Mark
  | opens
  | closes
  deriving DecidableEq, Repr

def mark (line : Line) : Option Mark :=
  let trimmed := Text.trim line
  if isComment trimmed || trimmed.isEmpty then none
  else if trimmed.getLast? = some '{' then some .opens
  else if trimmed = ['}'] then some .closes
  else none

-- What a line is read as depends on its words alone.

theorem words_trim : splitWhitespace (Text.trim line) = splitWhitespace line := pieces_strip

theorem trim_eq_nil_iff : Text.trim line = [] ↔ splitWhitespace line = [] := strip_eq_nil_iff

theorem trim_eq_brace_iff : Text.trim line = ['}'] ↔ splitWhitespace line = [['}']] :=
  strip_eq_iff ⟨by simp, by simp [Text.isWhitespace]⟩

theorem starts_congr (h : splitWhitespace line = splitWhitespace other) (hne : u ≠ [])
    (hin : ∀ c ∈ u, Text.isWhitespace c = false) :
    u.isPrefixOf (Text.trim line) = u.isPrefixOf (Text.trim other) := by
  have hstarts : ∀ line, u <+: Text.trim line ↔ ∃ w ∈ (splitWhitespace line).head?, u <+: w :=
    fun _ => prefix_strip_iff hne hin
  rw [Bool.eq_iff_iff, List.isPrefixOf_iff_prefix, List.isPrefixOf_iff_prefix, hstarts, hstarts, h]

theorem isComment_congr (h : splitWhitespace line = splitWhitespace other) :
    isComment (Text.trim line) = isComment (Text.trim other) := by
  rw [isComment, isComment, starts_congr h (by simp) (by simp [Text.isWhitespace]),
    starts_congr h (by simp) (by simp [Text.isWhitespace])]

theorem isEmpty_congr (h : splitWhitespace line = splitWhitespace other) :
    (Text.trim line).isEmpty = (Text.trim other).isEmpty := by
  rw [Bool.eq_iff_iff, List.isEmpty_iff, List.isEmpty_iff, trim_eq_nil_iff, trim_eq_nil_iff, h]

theorem firm_trim (h : Text.trim line ≠ []) : Firm Text.isWhitespace (Text.trim line) := by
  obtain ⟨-, -, -, -, -, hends⟩ := exists_strip Text.isWhitespace line
  exact hends.resolve_left h

theorem last_congr (h : splitWhitespace line = splitWhitespace other) :
    (Text.trim line).getLast? = (Text.trim other).getLast? := by
  by_cases hnil : Text.trim line = []
  · rw [hnil, trim_eq_nil_iff.mpr (h ▸ trim_eq_nil_iff.mp hnil)]
  · have hnil' : Text.trim other ≠ [] := fun hother =>
      hnil (trim_eq_nil_iff.mpr (h ▸ trim_eq_nil_iff.mp hother))
    obtain ⟨w, hw, hlast⟩ := (firm_trim hnil).last_piece
    obtain ⟨v, hv, hlast'⟩ := (firm_trim hnil').last_piece
    have hsame : Splitting.pieces Text.isWhitespace (Text.trim line) =
        Splitting.pieces Text.isWhitespace (Text.trim other) :=
      words_trim.trans (h.trans words_trim.symm)
    rw [hsame, hv] at hw
    rw [← hlast, ← hlast', Option.some.inj hw]

theorem mark_congr (h : splitWhitespace line = splitWhitespace other) : mark line = mark other := by
  have hbrace : Text.trim line = ['}'] ↔ Text.trim other = ['}'] := by
    rw [trim_eq_brace_iff, trim_eq_brace_iff, h]
  simp only [mark, isComment_congr h, isEmpty_congr h, last_congr h, hbrace]

theorem trim_ne_nil (h : mark line ≠ none) : Text.trim line ≠ [] := by
  intro hnil
  exact h (by simp [mark, hnil])

theorem mark_nil : mark [] = none := rfl

theorem mark_brace : mark ['}'] = some .closes := by decide

end Marks

section Entries

variable {line : Line} {m : Bool} {a b : Nat} {name typeName attrs : List Char}
  {rest : List (List Char)}

-- A line is written as what it was read as, with the same words.

theorem trim_indented (h : Text.trim line ≠ []) :
    Text.trim (' ' :: ' ' :: Text.trim line) = Text.trim line :=
  strip_pad (u := [' ', ' ']) (by simp [Text.isWhitespace]) (firm_trim h)

theorem words_indented : splitWhitespace (' ' :: ' ' :: line) = splitWhitespace line :=
  pieces_pad (u := [' ', ' ']) (by simp [Text.isWhitespace])

theorem bounded_pad (n : Nat) (text : List Char) (rest : List Char) :
    Bounded Text.isWhitespace (Entry.pad n text ++ ' ' :: rest) := by
  intro c hc
  rw [Entry.pad] at hc
  cases hn : n - byteLen text with
  | zero =>
      rw [hn] at hc
      exact Option.some.inj hc ▸ rfl
  | succ k =>
      rw [hn, List.replicate_succ] at hc
      exact Option.some.inj hc ▸ rfl

theorem words_pad (n : Nat) (text : List Char) (rest : List Char) :
    splitWhitespace (Entry.pad n text ++ ' ' :: rest) = splitWhitespace rest := by
  rw [splitWhitespace, List.append_cons]
  refine pieces_pad fun c hc => ?_
  rcases List.mem_append.mp hc with hc | hc
  · rw [List.eq_of_mem_replicate hc]
    rfl
  · rw [List.mem_singleton.mp hc]
    rfl

theorem words_field (hname : Piece Text.isWhitespace name)
    (htype : Piece Text.isWhitespace typeName) :
    splitWhitespace ((Entry.field name typeName attrs).write a b) =
      name :: typeName :: splitWhitespace attrs := by
  rw [Entry.write, words_indented, splitWhitespace, List.append_assoc,
    pieces_piece hname (bounded_pad a name _)]
  refine congrArg (name :: ·) ((words_pad a name _).trans ?_)
  cases attrs with
  | nil =>
      rw [if_pos List.isEmpty_nil, List.append_nil, splitWhitespace, pieces_of_inside htype.inside,
        if_neg htype.ne_nil]
      rfl
  | cons c attrs =>
      rw [if_neg (by simp), splitWhitespace, pieces_piece htype (bounded_pad b typeName _)]
      exact congrArg (typeName :: ·) (words_pad b typeName _)

theorem piece_of_mem (line : Line) (h : name ∈ splitWhitespace line) :
    Piece Text.isWhitespace name :=
  (mem_pieces_iff.mp h).1

-- The forms of an entry, and the words of each.
theorem entryOf_cases (m : Bool) (line : Line) :
    (Text.trim line = [] ∧ entryOf m line = .blank) ∨
    (Text.trim line ≠ [] ∧ (entryOf m line = .comment (Text.trim line) ∨
      entryOf m line = .blockAttr (Text.trim line) ∨ entryOf m line = .raw (Text.trim line))) ∨
    (∃ name typeName rest, splitWhitespace line = name :: typeName :: rest ∧
      entryOf m line = .field name typeName ([' '].intercalate rest)) := by
  unfold entryOf
  by_cases hnil : Text.trim line = []
  · exact Or.inl ⟨hnil, by simp [hnil]⟩
  · right
    simp only [List.isEmpty_iff, hnil, if_false]
    split
    · exact Or.inl ⟨hnil, Or.inl rfl⟩
    · split
      · exact Or.inl ⟨hnil, Or.inr (Or.inl rfl)⟩
      · split
        · split
          · next name typeName rest heq =>
              rw [words_trim] at heq
              exact Or.inr ⟨name, typeName, rest, heq, rfl⟩
          · exact Or.inl ⟨hnil, Or.inr (Or.inr rfl)⟩
        · exact Or.inl ⟨hnil, Or.inr (Or.inr rfl)⟩

theorem words_write (m : Bool) (a b : Nat) (line : Line) :
    splitWhitespace ((entryOf m line).write a b) = splitWhitespace line := by
  rcases entryOf_cases m line with ⟨hnil, h⟩ | ⟨-, h | h | h⟩ | ⟨name, typeName, rest, hwords, h⟩
  · rw [h, trim_eq_nil_iff.mp hnil]
    rfl
  · rw [h, Entry.write, words_indented, words_trim]
  · rw [h, Entry.write, words_indented, words_trim]
  · rw [h, Entry.write, words_indented, words_trim]
  · have hpieces : ∀ w ∈ name :: typeName :: rest, Piece Text.isWhitespace w := fun w hw =>
      piece_of_mem line (hwords ▸ hw)
    rw [h, words_field (hpieces _ (by simp)) (hpieces _ (by simp)), hwords, splitWhitespace,
      pieces_intercalate (by decide) fun w hw => hpieces w (by simp [hw])]

theorem entryOf_congr {other : Line} (h : Text.trim line = Text.trim other) :
    entryOf m line = entryOf m other := by
  rw [entryOf, entryOf, h]

theorem field_congr {other : Line} (h : splitWhitespace line = splitWhitespace other)
    (hfield : entryOf m other = .field name typeName attrs) : entryOf m line = entryOf m other := by
  have hattr := starts_congr (u := ['@', '@']) h (by simp) (by simp [Text.isWhitespace])
  have hline : entryOf m line = .field name typeName attrs := by
    rw [entryOf] at hfield ⊢
    simp only [words_trim, isEmpty_congr h, isComment_congr h, hattr, h] at hfield ⊢
    split_ifs at hfield ⊢
    split at hfield
    · exact hfield
    · cases hfield
  rw [hline, hfield]

-- What is read back is the entry that was written.
theorem entryOf_write (m : Bool) (a b : Nat) (line : Line) :
    entryOf m ((entryOf m line).write a b) = entryOf m line := by
  rcases entryOf_cases m line with ⟨hnil, h⟩ | ⟨hne, h | h | h⟩ | ⟨name, typeName, rest, hwords, h⟩
  · exact entryOf_congr (by rw [h, hnil]; rfl)
  · exact entryOf_congr (h ▸ trim_indented hne)
  · exact entryOf_congr (h ▸ trim_indented hne)
  · exact entryOf_congr (h ▸ trim_indented hne)
  · exact field_congr (words_write m a b line) h

end Entries

section Blocks

variable {header l : Line} {body ls : List Line} {m : Bool} {text tail : List Char}

theorem unlines_append (ls more : List Line) : unlines (ls ++ more) = unlines ls ++ unlines more :=
  List.flatMap_append

theorem unlines_concat (ls : List Line) (l : Line) :
    unlines (ls ++ [l]) = unlines ls ++ l ++ ['\n'] := by
  simp [unlines]

-- A line as text::lines makes it, of what is written.
structure Whole (l : Line) : Prop where
  noFeed : '\n' ∉ l
  noReturn : l.getLast? ≠ some '\r'

theorem chomp_whole (h : Whole l) : chomp l = l := if_neg h.noReturn

theorem lines_cut (h : ∀ l ∈ ls, '\n' ∉ l) (htail : '\n' ∉ tail) :
    lines (unlines ls ++ tail) = ls.map chomp ++ if tail = [] then [] else [tail] := by
  have hcut : (unlines ls ++ tail).splitOn '\n' = ls ++ [tail] := by
    induction ls with
    | nil => exact List.splitOn_eq_singleton htail
    | cons l ls ih =>
        obtain ⟨hl, hrest⟩ := List.forall_mem_cons.mp h
        rw [unlines, List.flatMap_cons, List.append_assoc, List.append_assoc, List.singleton_append,
          List.splitOn_append_cons_self_of_not_mem hl]
        exact congrArg (l :: ·) (ih hrest)
  rw [lines, hcut, List.dropLast_concat, List.getLast?_concat]
  by_cases hnil : tail = []
  · simp [hnil]
  · simp [hnil]

theorem map_chomp (h : ∀ l ∈ ls, Whole l) : ls.map chomp = ls := by
  conv_rhs => rw [← List.map_id ls]
  exact List.map_congr_left fun l hl => chomp_whole (h l hl)

theorem lines_unlines (h : ∀ l ∈ ls, Whole l) (htail : '\n' ∉ tail) :
    lines (unlines ls ++ tail) = ls ++ if tail = [] then [] else [tail] := by
  rw [lines_cut (fun l hl => (h l hl).noFeed) htail, map_chomp h]

theorem noFeed_splitOn : ∀ l ∈ text.splitOn '\n', '\n' ∉ l := by
  induction text with
  | nil => simp
  | cons c text ih =>
      intro l hl
      rw [List.splitOn_cons_eq_if_modifyHead] at hl
      split at hl
      · rcases List.mem_cons.mp hl with rfl | hl
        · simp
        · exact ih l hl
      · next hc =>
          obtain ⟨first, rest, hcut⟩ := List.exists_cons_of_ne_nil (List.splitOn_ne_nil '\n' text)
          rw [hcut, List.modifyHead_cons] at hl
          rw [hcut] at ih
          rcases List.mem_cons.mp hl with rfl | hl
          · intro hmem
            rcases List.mem_cons.mp hmem with rfl | hmem
            · exact hc (beq_self_eq_true _)
            · exact ih first List.mem_cons_self hmem
          · exact ih l (List.mem_cons_of_mem _ hl)

theorem noFeed_lines (h : l ∈ lines text) : '\n' ∉ l := by
  rcases List.mem_append.mp h with h | h
  · obtain ⟨l, hl, rfl⟩ := List.mem_map.mp h
    have hl := noFeed_splitOn l ((List.dropLast_sublist _).subset hl)
    rw [chomp]
    split
    · exact fun hmem => hl ((List.dropLast_sublist _).subset hmem)
    · exact hl
  · obtain ⟨hmem, -⟩ := List.mem_filter.mp h
    exact noFeed_splitOn l (List.mem_of_getLast? (Option.mem_toList.mp hmem))

def isModel (header : Line) : Bool :=
  ['m', 'o', 'd', 'e', 'l', ' '].isPrefixOf (Text.trim header)

-- The lines of a block as it is formatted.
def block (header : Line) (body : List Line) : List Line :=
  Text.trim header :: written (isModel header) body ++ [['}']]

theorem formatBlock_eq (header : Line) (body : List Line) (last : Line) :
    formatBlock (header :: (body ++ [last])) =
      some (unlines (Text.trim header :: written (isModel header) body) ++ ['}']) := by
  obtain ⟨second, rest, hrest⟩ := List.exists_cons_of_ne_nil (show body ++ [last] ≠ [] by simp)
  rw [hrest, formatBlock.eq_3 _ _ (by simp), ← hrest, List.dropLast_concat]
  simp [unlines, isModel]

theorem trim_trim : Text.trim (Text.trim l) = Text.trim l := by
  by_cases h : Text.trim l = []
  · rw [h]
    rfl
  · exact strip_firm (firm_trim h)

theorem written_written (m : Bool) (body : List Line) :
    written m (written m body) = written m body := by
  have hentries : (written m body).map (entryOf m) = body.map (entryOf m) := by
    rw [written, List.map_map, List.map_map]
    exact List.map_congr_left fun l _ => entryOf_write m _ _ l
  conv_lhs => rw [written]
  rw [hentries]
  rfl

theorem block_block (header : Line) (body : List Line) :
    block (Text.trim header) (written (isModel header) body) = block header body := by
  have hmodel : isModel (Text.trim header) = isModel header := by rw [isModel, isModel, trim_trim]
  rw [block, block, hmodel, written_written, trim_trim]

theorem mark_written (h : ∀ l ∈ body, mark l = none) : ∀ l ∈ written m body, mark l = none := by
  intro l hl
  rw [written, List.map_map] at hl
  obtain ⟨line, hline, rfl⟩ := List.mem_map.mp hl
  rw [← h line hline]
  exact mark_congr (words_write m _ _ line)

end Blocks

section Reading

variable {s : Formatter} {line : Line} {out : List Char} {ls body more : List Line}

-- The tests that the formatter makes of a line, in their order.
inductive Marked (line : Line) : Option Mark → Prop
  | still (h : (isComment (Text.trim line) || (Text.trim line).isEmpty) = true) : Marked line none
  | opens (hstill : ¬(isComment (Text.trim line) || (Text.trim line).isEmpty) = true)
      (h : (Text.trim line).getLast? = some '{') : Marked line (some .opens)
  | closes (hstill : ¬(isComment (Text.trim line) || (Text.trim line).isEmpty) = true)
      (hopens : (Text.trim line).getLast? ≠ some '{') (h : Text.trim line = ['}']) :
      Marked line (some .closes)
  | text (hstill : ¬(isComment (Text.trim line) || (Text.trim line).isEmpty) = true)
      (hopens : (Text.trim line).getLast? ≠ some '{') (hcloses : Text.trim line ≠ ['}']) :
      Marked line none

theorem marked (line : Line) : Marked line (mark line) := by
  unfold mark
  dsimp only
  split
  · next h => exact .still h
  · next hstill =>
      split
      · next h => exact .opens hstill h
      · next hopens =>
          split
          · next h => exact .closes hstill hopens h
          · next h => exact .text hstill hopens h

theorem read_within (h : mark line = none) (hin : s.inBlock = true) :
    s.read line = some { s with blockLines := s.blockLines ++ [line] } := by
  have hmarked := marked line
  rw [h] at hmarked
  unfold Formatter.read
  dsimp only
  cases hmarked with
  | still hstill => rw [if_pos hstill, if_pos hin]
  | text hstill hopens hcloses => rw [if_neg hstill, if_neg hopens, if_neg hcloses, if_pos hin]

theorem read_opens (h : mark line = some .opens) :
    s.read line = some { s with inBlock := true, blockLines := [line] } := by
  have hmarked := marked line
  rw [h] at hmarked
  unfold Formatter.read
  dsimp only
  cases hmarked with
  | opens hstill hopens => rw [if_neg hstill, if_pos hopens]

theorem trim_of_closes (h : mark line = some .closes) : Text.trim line = ['}'] := by
  have hmarked := marked line
  rw [h] at hmarked
  cases hmarked with
  | closes hstill hopens hcloses => exact hcloses

theorem read_closes (h : mark line = some .closes) (hin : s.inBlock = true) :
    s.read line = (formatBlock (s.blockLines ++ [line])).map fun block =>
      let apart := if !s.out.isEmpty && !Formatter.afterBlank s.out then ['\n'] else []
      ⟨s.out ++ apart ++ block ++ ['\n'], false, []⟩ := by
  have hmarked := marked line
  rw [h] at hmarked
  unfold Formatter.read
  dsimp only
  cases hmarked with
  | closes hstill hopens hcloses => rw [if_neg hstill, if_neg hopens, if_pos hcloses, if_pos hin]

-- Outside of blocks a line is written without what was around it.
theorem read_outside (h : mark line ≠ some .opens) (hin : s.inBlock = false)
    (hne : Text.trim line ≠ []) :
    s.read line = some { s with out := s.out ++ Text.trim line ++ ['\n'] } := by
  have hempty : (Text.trim line).isEmpty = false := by simpa using hne
  have hmarked := marked line
  unfold Formatter.read
  dsimp only
  generalize mark line = m at h hmarked
  cases hmarked with
  | still hstill => rw [if_pos hstill, hin, hempty]; simp
  | opens => exact absurd rfl h
  | closes hstill hopens hcloses =>
      rw [if_neg hstill, if_neg hopens, if_pos hcloses, hin, hcloses]
      simp
  | text hstill hopens hcloses =>
      rw [if_neg hstill, if_neg hopens, if_neg hcloses, hin]
      simp

theorem read_blank (hin : s.inBlock = false) (hnil : Text.trim line = []) :
    s.read line = some (if !s.out.isEmpty && !Formatter.afterBlank s.out then
      { s with out := s.out ++ ['\n'] } else s) := by
  unfold Formatter.read
  simp only [hnil, hin, List.isEmpty_nil, Bool.or_true, if_true, Bool.false_eq_true, if_false,
    Bool.and_true, Bool.not_true]
  split <;> rfl

theorem reads_one : [line].foldlM Formatter.read s = s.read line := by
  rw [List.foldlM_cons]
  cases s.read line <;> rfl

theorem read_body (h : ∀ l ∈ more, mark l = none) :
    more.foldlM Formatter.read ⟨out, true, body⟩ = some ⟨out, true, body ++ more⟩ := by
  induction more generalizing body with
  | nil => simp
  | cons l more ih =>
      obtain ⟨hl, hrest⟩ := List.forall_mem_cons.mp h
      rw [List.foldlM_cons, read_within hl rfl, Option.bind_eq_bind, Option.bind_some, ih hrest,
        List.append_assoc]
      rfl

end Reading

end Ruprizzle.Lsp.Format
