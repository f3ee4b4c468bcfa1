import Mathlib.Data.List.Chain
import Ruprizzle.Lsp.Format

namespace Ruprizzle.Lsp.Format

open Splitting

section Layout

variable {s : Formatter} {line header l : Line} {out : List Char} {ls body : List Line} {m : Bool}

-- The texts that the formatter makes, as long as no block is open: lines without
-- blanks around them, single blank lines, and blocks with a blank line before them.
inductive Laid : List Line → Prop
  | nil : Laid []
  | line {ls : List Line} {l : Line} (h : Laid ls) (hmark : mark l ≠ some .opens)
      (htrim : Text.trim l = l) (hne : l ≠ []) (hfeed : '\n' ∉ l) : Laid (ls ++ [l])
  | blank {ls : List Line} (h : Laid ls) (hne : ls ≠ []) (hlast : ls.getLast? ≠ some []) :
      Laid (ls ++ [[]])
  | block {ls : List Line} {header : Line} {body : List Line} (h : Laid ls)
      (hlast : ls = [] ∨ ls.getLast? = some []) (hheader : mark header = some .opens)
      (hbody : ∀ l ∈ body, mark l = none) (hfeed : ∀ l ∈ header :: body, '\n' ∉ l) :
      Laid (ls ++ block header body)

theorem trim_subset : Text.trim l ⊆ l := by
  intro c hc
  obtain ⟨u, w, htext, -⟩ := exists_strip Text.isWhitespace l
  rw [htext]
  exact List.mem_append_left _ (List.mem_append_right _ hc)

theorem whole_of_firm (hfeed : '\n' ∉ l)
    (h : ∃ c, l.getLast? = some c ∧ Text.isWhitespace c = false) :
    Whole l := by
  refine ⟨hfeed, fun hreturn => ?_⟩
  obtain ⟨c, hc, hspace⟩ := h
  rw [hreturn] at hc
  obtain rfl := Option.some.inj hc
  exact absurd hspace (by decide)

theorem whole_trim (hfeed : '\n' ∉ l) (hne : Text.trim l ≠ []) : Whole (Text.trim l) :=
  whole_of_firm (fun h => hfeed (trim_subset h)) (firm_trim hne).last

theorem mem_intercalate {ws : List (List Char)} {c : Char} (h : c ∈ [' '].intercalate ws) :
    c = ' ' ∨ ∃ w ∈ ws, c ∈ w := by
  induction ws with
  | nil => cases h
  | cons w ws ih =>
      cases ws with
      | nil =>
          rw [List.intercalate_singleton] at h
          exact Or.inr ⟨w, List.mem_cons_self, h⟩
      | cons v ws =>
          rw [List.intercalate_cons_cons] at h
          rcases List.mem_append.mp h with h | h
          · rcases List.mem_append.mp h with h | h
            · exact Or.inr ⟨w, List.mem_cons_self, h⟩
            · exact Or.inl (List.mem_singleton.mp h)
          · rcases ih h with h | ⟨u, hu, hc⟩
            · exact Or.inl h
            · exact Or.inr ⟨u, List.mem_cons_of_mem _ hu, hc⟩

theorem whole_write (m : Bool) (a b : Nat) (hfeed : '\n' ∉ l) :
    Whole ((entryOf m l).write a b) := by
  have hindented : Text.trim l ≠ [] → Whole (' ' :: ' ' :: Text.trim l) := by
    intro hne
    refine whole_of_firm (by simpa using fun h => hfeed (trim_subset h)) ?_
    obtain ⟨c, hc, hspace⟩ := (firm_trim hne).last
    refine ⟨c, ?_, hspace⟩
    rwa [show ' ' :: ' ' :: Text.trim l = [' ', ' '] ++ Text.trim l from rfl,
      List.getLast?_append_of_ne_nil _ hne]
  rcases entryOf_cases m l with ⟨-, h⟩ | ⟨hne, h | h | h⟩ | ⟨name, typeName, rest, hwords, h⟩
  · rw [h]
    exact ⟨by simp [Entry.write], by simp [Entry.write]⟩
  · exact h ▸ hindented hne
  · exact h ▸ hindented hne
  · exact h ▸ hindented hne
  · have hpieces : ∀ w ∈ name :: typeName :: rest, ∀ c ∈ w, Text.isWhitespace c = false :=
      fun w hw => (piece_of_mem l (hwords ▸ hw)).inside
    have hchars : ∀ c ∈ (entryOf m l).write a b, c = ' ' ∨ Text.isWhitespace c = false := by
      intro c hc
      rw [h, Entry.write] at hc
      simp only [List.mem_cons, List.mem_append, Entry.pad, List.mem_replicate] at hc
      rcases hc with hc | hc | (hc | hc) | hc | hc | hc
      · exact Or.inl hc
      · exact Or.inl hc
      · exact Or.inr (hpieces name (by simp) c hc)
      · exact Or.inl hc.2
      · exact Or.inl hc
      · exact Or.inr (hpieces typeName (by simp) c hc)
      · split at hc
        · cases hc
        · rcases List.mem_append.mp hc with hc | hc
          · exact Or.inl (List.eq_of_mem_replicate hc)
          · rcases List.mem_cons.mp hc with hc | hc
            · exact Or.inl hc
            · refine (mem_intercalate hc).imp_right ?_
              rintro ⟨w, hw, hc⟩
              exact hpieces w (by simp [hw]) c hc
    refine ⟨fun hmem => ?_, fun hlast => ?_⟩
    · rcases hchars _ hmem with hc | hc
      · exact absurd hc (by decide)
      · exact absurd hc (by decide)
    · rcases hchars _ (List.mem_of_getLast? hlast) with hc | hc
      · exact absurd hc (by decide)
      · exact absurd hc (by decide)

theorem whole_block (hheader : mark header = some .opens) (hfeed : ∀ l ∈ header :: body, '\n' ∉ l) :
    ∀ l ∈ block header body, Whole l := by
  obtain ⟨hhead, hbody⟩ := List.forall_mem_cons.mp hfeed
  intro l hl
  rw [block, List.mem_append, List.mem_cons] at hl
  rcases hl with (rfl | hl) | hl
  · exact whole_trim hhead (trim_ne_nil (by simp [hheader]))
  · rw [written, List.map_map] at hl
    obtain ⟨line, hline, rfl⟩ := List.mem_map.mp hl
    exact whole_write _ _ _ (hbody line hline)
  · obtain rfl := List.mem_singleton.mp hl
    exact ⟨by decide, by decide⟩

theorem Laid.whole (h : Laid ls) : ∀ l ∈ ls, Whole l := by
  induction h with
  | nil => simp
  | line h hmark htrim hne hfeed ih =>
      intro l hl
      rcases List.mem_append.mp hl with hl | hl
      · exact ih l hl
      · obtain rfl := List.mem_singleton.mp hl
        exact htrim ▸ whole_trim hfeed (htrim.symm ▸ hne)
  | blank h hne hlast ih =>
      intro l hl
      rcases List.mem_append.mp hl with hl | hl
      · exact ih l hl
      · obtain rfl := List.mem_singleton.mp hl
        exact ⟨by simp, by simp⟩
  | block h hlast hheader hbody hfeed ih =>
      intro l hl
      rcases List.mem_append.mp hl with hl | hl
      · exact ih l hl
      · exact whole_block hheader hfeed l hl

-- Nothing begins with a blank line.
theorem Laid.head (h : Laid ls) : ls.head? ≠ some [] := by
  induction h with
  | nil => simp
  | @line ls l h hmark htrim hne hfeed ih =>
      cases ls with
      | nil => simpa using hne
      | cons first rest => exact ih
  | @blank ls h hne hlast ih =>
      cases ls with
      | nil => exact absurd rfl hne
      | cons first rest => exact ih
  | @block ls header body h hlast hheader hbody hfeed ih =>
      cases ls with
      | nil =>
          have hne : Text.trim header ≠ [] := trim_ne_nil (by simp [hheader])
          simpa [Format.block] using hne
      | cons first rest => exact ih

theorem afterBlank_iff (out : List Char) :
    Formatter.afterBlank (out ++ ['\n']) = true ↔ out.getLast? = some '\n' := by
  rw [Formatter.afterBlank, List.isSuffixOf_iff_suffix, List.getLast?_eq_some_iff]
  constructor
  · rintro ⟨t, ht⟩
    refine ⟨t, ?_⟩
    have happend : (t ++ ['\n']) ++ ['\n'] = out ++ ['\n'] := by simpa using ht
    exact (List.append_left_injective _ happend).symm
  · rintro ⟨t, rfl⟩
    exact ⟨t, by simp⟩

theorem unlines_eq_nil : unlines ls = [] ↔ ls = [] := by
  cases ls with
  | nil => simp [unlines]
  | cons l ls => simp [unlines]

theorem Laid.afterBlank (h : Laid ls) :
    Formatter.afterBlank (unlines ls) = true ↔ ls.getLast? = some [] := by
  have hwhole := h.whole
  have hhead := h.head
  rcases ls.eq_nil_or_concat' with rfl | ⟨before, l, rfl⟩
  · simp [unlines, Formatter.afterBlank]
  · rw [unlines_concat, afterBlank_iff, List.getLast?_concat, Option.some.injEq]
    by_cases hl : l = []
    · subst hl
      refine iff_of_true ?_ rfl
      rw [List.append_nil]
      rcases before.eq_nil_or_concat' with rfl | ⟨first, last, rfl⟩
      · exact absurd rfl hhead
      · rw [unlines_concat, List.getLast?_concat]
    · refine iff_of_false ?_ hl
      rw [List.getLast?_append_of_ne_nil _ hl]
      exact fun hlast => (hwhole l (by simp)).noFeed (List.mem_of_getLast? hlast)

-- The blank line before a block.
def apart (ls : List Line) : List Line := if ls = [] ∨ ls.getLast? = some [] then [] else [[]]

theorem Laid.apart (h : Laid ls) :
    (if !(unlines ls).isEmpty && !Formatter.afterBlank (unlines ls) then ['\n'] else []) =
      unlines (Format.apart ls) := by
  have hempty : (unlines ls).isEmpty = true ↔ ls = [] := by rw [List.isEmpty_iff, unlines_eq_nil]
  rw [Format.apart]
  by_cases hcond : ls = [] ∨ ls.getLast? = some []
  · rw [if_pos hcond, if_neg]
    · rfl
    · rw [← hempty, ← h.afterBlank] at hcond
      rcases hcond with hcond | hcond <;> simp [hcond]
  · rw [if_neg hcond, if_pos]
    · rfl
    · rw [← hempty, ← h.afterBlank, not_or, Bool.not_eq_true, Bool.not_eq_true] at hcond
      simp [hcond.1, hcond.2]

theorem read_block (header : Line) (body : List Line) (h : Laid ls)
    (hcloses : mark line = some .closes) :
    Formatter.read ⟨unlines ls, true, header :: body⟩ line =
      some ⟨unlines (ls ++ apart ls ++ block header body), false, []⟩ := by
  rw [read_closes hcloses rfl]
  dsimp only
  rw [List.cons_append, formatBlock_eq, Option.map_some, h.apart, unlines_append, unlines_append,
    block,
    unlines_concat]
  simp

-- A formatted block is read as it is.
theorem reads_block (h : Laid ls) (hheader : mark header = some .opens)
    (hbody : ∀ l ∈ body, mark l = none) :
    (block header body).foldlM Formatter.read ⟨unlines ls, false, []⟩ =
      some ⟨unlines (ls ++ apart ls ++ block header body), false, []⟩ := by
  have hread := read_block (Text.trim header) (written (isModel header) body) h mark_brace
  have hopens : mark (Text.trim header) = some .opens := (mark_congr words_trim).trans hheader
  rw [block_block] at hread
  conv_lhs => rw [block]
  rw [List.cons_append, List.foldlM_cons, read_opens hopens, Option.bind_eq_bind,
    Option.bind_some, List.foldlM_append, read_body (mark_written hbody), Option.bind_eq_bind,
    Option.bind_some, reads_one]
  exact hread

theorem reads_laid (h : Laid ls) :
    ls.foldlM Formatter.read .start = some ⟨unlines ls, false, []⟩ := by
  induction h with
  | nil => rfl
  | line h hmark htrim hne hfeed ih =>
      rw [List.foldlM_append, ih, Option.bind_eq_bind, Option.bind_some, reads_one,
        read_outside hmark rfl (htrim.symm ▸ hne), htrim, unlines_concat]
  | @blank ls h hne hlast ih =>
      have hcond : (!(unlines ls).isEmpty && !Formatter.afterBlank (unlines ls)) = true := by
        rw [Ne, ← h.afterBlank] at hlast
        rw [Ne, ← unlines_eq_nil, ← List.isEmpty_iff] at hne
        simp [hne, hlast]
      rw [List.foldlM_append, ih, Option.bind_eq_bind, Option.bind_some, reads_one,
        read_blank rfl rfl, if_pos hcond, unlines_concat, List.append_nil]
  | block h hlast hheader hbody hfeed ih =>
      rw [List.foldlM_append, ih, Option.bind_eq_bind, Option.bind_some,
        reads_block h hheader hbody, Format.apart, if_pos hlast, List.append_nil]

end Layout

section Runs

variable {s : Formatter} {line header l : Line} {source out : List Char}
  {past ls more inner : List Line}

def marks (text : List Char) : List Mark := (lines text).filterMap mark

-- The words of each line that is not blank.
def wordLines (ls : List Line) : List (List (List Char)) :=
  (ls.map splitWhitespace).filter fun ws => !ws.isEmpty

-- No block is opened inside of another one.
def Apart (ms : List Mark) : Prop := ms.IsChain fun a b => a = .opens → b = .closes

theorem wordLines_append (ls more : List Line) :
    wordLines (ls ++ more) = wordLines ls ++ wordLines more := by
  rw [wordLines, List.map_append, List.filter_append]
  rfl

theorem wordLines_trim : wordLines [Text.trim line] = wordLines [line] := by
  simp only [wordLines, List.map_cons, List.map_nil, words_trim]

theorem wordLines_blank (h : Text.trim line = []) : wordLines [line] = [] := by
  simp [wordLines, trim_eq_nil_iff.mp h]

theorem wordLines_block (hcloses : mark line = some .closes) :
    wordLines (block header inner) = wordLines (header :: inner ++ [line]) := by
  have hline : splitWhitespace line = [['}']] := trim_eq_brace_iff.mp (trim_of_closes hcloses)
  have hbrace : splitWhitespace ['}'] = [['}']] := by decide
  have hwritten : (written (isModel header) inner).map splitWhitespace =
      inner.map splitWhitespace := by
    rw [written, List.map_map, List.map_map]
    exact List.map_congr_left fun l _ => words_write _ _ _ l
  simp only [wordLines, block, List.map_append, List.map_cons, List.map_nil, words_trim, hwritten,
    hline, hbrace]

theorem wordLines_apart : wordLines (apart ls) = [] := by
  rw [apart]
  split <;> rfl

-- What the formatter has after it has read a part of the text.
structure Formatter.Reads (s : Formatter) (past ls : List Line) : Prop where
  out : s.out = unlines ls
  laid : Laid ls
  marks : s.inBlock = true ↔ (past.filterMap mark).getLast? = some .opens
  within : s.inBlock = true → ∃ before header body, past = before ++ header :: body ∧
    s.blockLines = header :: body ∧ mark header = some .opens ∧ ∀ l ∈ body, mark l = none
  outside : s.inBlock = false → s.blockLines = []
  words : Apart (past.filterMap mark) → wordLines (ls ++ s.blockLines) = wordLines past

theorem marks_concat (past : List Line) (line : Line) :
    (past ++ [line]).filterMap mark = past.filterMap mark ++ (mark line).toList := by
  rw [List.filterMap_append]
  cases h : mark line <;> simp [h]

theorem marks_skip (past : List Line) (hm : mark line = none) :
    (past ++ [line]).filterMap mark = past.filterMap mark := by
  rw [marks_concat, hm, Option.toList_none, List.append_nil]

theorem Formatter.Reads.body (h : s.Reads past ls) (hm : mark line = none)
    (hin : s.inBlock = true) :
    Formatter.Reads { s with blockLines := s.blockLines ++ [line] } (past ++ [line]) ls where
  out := h.out
  laid := h.laid
  marks := by
    rw [marks_skip past hm]
    exact h.marks
  within _ := by
    obtain ⟨before, header, body, hpast, hlines, hheader, hbody⟩ := h.within hin
    refine ⟨before, header, body ++ [line], by simp [hpast], by simp [hlines], hheader, ?_⟩
    intro l hl
    rcases List.mem_append.mp hl with hl | hl
    · exact hbody l hl
    · exact List.mem_singleton.mp hl ▸ hm
  outside hout := absurd (hin.symm.trans hout) (by decide)
  words hapart := by
    rw [marks_skip past hm] at hapart
    rw [← List.append_assoc, wordLines_append, h.words hapart, wordLines_append]

theorem Formatter.Reads.opens (h : s.Reads past ls) (hm : mark line = some .opens) :
    Formatter.Reads { s with inBlock := true, blockLines := [line] } (past ++ [line]) ls where
  out := h.out
  laid := h.laid
  marks := by
    rw [marks_concat, hm, Option.toList_some, List.getLast?_concat]
    exact iff_of_true rfl rfl
  within _ := ⟨past, line, [], rfl, rfl, hm, by simp⟩
  outside hout := absurd hout (by simp)
  words hapart := by
    rw [marks_concat, hm, Option.toList_some, Apart, List.isChain_append] at hapart
    obtain ⟨hpast, -, hlast⟩ := hapart
    have hnot : s.inBlock = false := by
      rw [← Bool.not_eq_true, h.marks]
      intro hopens
      exact absurd (hlast .opens hopens .opens rfl rfl) (by decide)
    have hwords := h.words hpast
    rw [h.outside hnot, List.append_nil] at hwords
    rw [wordLines_append, wordLines_append, hwords]

theorem Formatter.Reads.text (h : s.Reads past ls) (hm : mark line ≠ some .opens)
    (hin : s.inBlock = false) (hne : Text.trim line ≠ []) (hfeed : '\n' ∉ line) :
    Formatter.Reads { s with out := s.out ++ Text.trim line ++ ['\n'] } (past ++ [line])
      (ls ++ [Text.trim line]) where
  out := by rw [unlines_concat, h.out]
  laid := by
    refine h.laid.line ?_ trim_trim hne fun hmem => hfeed (trim_subset hmem)
    rwa [mark_congr words_trim]
  marks := by
    refine iff_of_false (by simp [hin]) ?_
    rw [marks_concat]
    cases hmark : mark line with
    | none =>
        rw [Option.toList_none, List.append_nil, ← h.marks, hin]
        decide
    | some m =>
        rw [Option.toList_some, List.getLast?_concat, ← hmark]
        exact hm
  within hin' := absurd (hin.symm.trans hin') (by decide)
  outside := h.outside
  words hapart := by
    rw [marks_concat] at hapart
    have hwords := h.words hapart.left_of_append
    rw [h.outside hin, List.append_nil] at hwords ⊢
    rw [wordLines_append, wordLines_append, hwords, wordLines_trim]

theorem Formatter.Reads.blank (h : s.Reads past ls) (hin : s.inBlock = false)
    (hnil : Text.trim line = []) :
    ∃ s' ls', s.read line = some s' ∧ s'.Reads (past ++ [line]) ls' := by
  have hm : mark line = none := by simp [mark, hnil]
  have hskip : s.Reads (past ++ [line]) ls := by
    refine ⟨h.out, h.laid, ?_, fun hin' => absurd (hin.symm.trans hin') (by decide), h.outside, ?_⟩
    · rw [marks_skip past hm]
      exact h.marks
    · intro hapart
      rw [marks_skip past hm] at hapart
      rw [h.words hapart, wordLines_append, wordLines_blank hnil, List.append_nil]
  rw [read_blank hin hnil]
  split
  · next hcond =>
      rw [h.out, Bool.and_eq_true, Bool.not_eq_true', Bool.not_eq_true'] at hcond
      have hne : ls ≠ [] := by
        rintro rfl
        exact absurd hcond.1 (by decide)
      have hlast : ls.getLast? ≠ some [] := by
        rw [Ne, ← h.laid.afterBlank, hcond.2]
        decide
      refine ⟨_, ls ++ [[]], rfl, ?_, h.laid.blank hne hlast, hskip.marks, hskip.within,
        hskip.outside, fun hapart => ?_⟩
      · rw [unlines_concat, List.append_nil, h.out]
      · rw [← hskip.words hapart, wordLines_append, wordLines_append, wordLines_append]
        exact congrArg (· ++ wordLines s.blockLines) (List.append_nil _)
  · exact ⟨s, ls, rfl, hskip⟩

theorem Formatter.Reads.closes (h : s.Reads past ls) (hm : mark line = some .closes)
    (hin : s.inBlock = true) (hfeed : ∀ l ∈ past, '\n' ∉ l) :
    ∃ s' ls', s.read line = some s' ∧ s'.Reads (past ++ [line]) ls' := by
  obtain ⟨before, header, inner, hpast, hlines, hheader, hinner⟩ := h.within hin
  have hs : s = ⟨unlines ls, true, header :: inner⟩ := by
    rw [← h.out, ← hin, ← hlines]
  have hblock : ∀ l ∈ header :: inner, '\n' ∉ l := fun l hl => hfeed l (by simp [hpast, hl])
  refine ⟨_, ls ++ apart ls ++ block header inner, hs ▸ read_block header inner h.laid hm, rfl, ?_,
    ?_, (fun h => absurd h Bool.false_ne_true), fun _ => rfl, fun hapart => ?_⟩
  · refine Laid.block ?_ ?_ hheader hinner hblock
    · rw [apart]
      split
      · exact (List.append_nil ls).symm ▸ h.laid
      · next hcond =>
          obtain ⟨hne, hlast⟩ := not_or.mp hcond
          exact h.laid.blank hne hlast
    · rw [apart]
      split
      · next hcond => rwa [List.append_nil]
      · exact Or.inr List.getLast?_concat
  · rw [marks_concat, hm, Option.toList_some, List.getLast?_concat]
    exact iff_of_false Bool.false_ne_true (by decide)
  · rw [marks_concat] at hapart
    rw [List.append_nil, wordLines_append, wordLines_append, wordLines_apart, List.append_nil,
      wordLines_block hm, wordLines_append, wordLines_append, ← h.words hapart.left_of_append,
      wordLines_append, hlines, List.append_assoc]

theorem Formatter.Reads.step (h : s.Reads past ls) (hfeed : ∀ l ∈ past ++ [line], '\n' ∉ l) :
    ∃ s' ls', s.read line = some s' ∧ s'.Reads (past ++ [line]) ls' := by
  cases hm : mark line with
  | none =>
      cases hin : s.inBlock with
      | true => exact ⟨_, ls, read_within hm hin, h.body hm hin⟩
      | false =>
          by_cases hnil : Text.trim line = []
          · exact h.blank hin hnil
          · have hnot : mark line ≠ some .opens := by rw [hm]; decide
            exact ⟨_, _, read_outside hnot hin hnil, h.text hnot hin hnil (hfeed line (by simp))⟩
  | some m =>
      cases m with
      | opens => exact ⟨_, ls, read_opens hm, h.opens hm⟩
      | closes =>
          cases hin : s.inBlock with
          | true => exact h.closes hm hin fun l hl => hfeed l (List.mem_append_left _ hl)
          | false =>
              have hnot : mark line ≠ some .opens := by rw [hm]; decide
              have hne : Text.trim line ≠ [] := trim_ne_nil (by rw [hm]; decide)
              exact ⟨_, _, read_outside hnot hin hne, h.text hnot hin hne (hfeed line (by simp))⟩

theorem reads_start : Formatter.start.Reads [] [] where
  out := rfl
  laid := .nil
  marks := by decide
  within h := absurd h (by decide)
  outside _ := rfl
  words _ := rfl

theorem exists_reads (hfeed : ∀ l ∈ past, '\n' ∉ l) :
    ∃ s ls, past.foldlM Formatter.read .start = some s ∧ s.Reads past ls := by
  induction past using List.reverseRecOn with
  | nil => exact ⟨_, [], rfl, reads_start⟩
  | append_singleton past line ih =>
      obtain ⟨s, ls, hs, hreads⟩ := ih fun l hl => hfeed l (List.mem_append_left _ hl)
      obtain ⟨s', ls', hstep, hreads'⟩ := hreads.step hfeed
      refine ⟨s', ls', ?_, hreads'⟩
      rw [List.foldlM_append, hs, Option.bind_eq_bind, Option.bind_some, reads_one, hstep]

-- What the formatter makes of a text: it ends outside of blocks, behind a header, or within
-- a block whose last line it leaves out.
theorem formatSchema_cases (text : List Char) :
    ((marks text).getLast? ≠ some .opens ∧ ∃ ls, Laid ls ∧ formatSchema text = some (unlines ls) ∧
      (Apart (marks text) → wordLines ls = wordLines (lines text))) ∨
    ((marks text).getLast? = some .opens ∧ ∃ l, (lines text).getLast? = some l ∧
      (mark l = some .opens ∧ formatSchema text = none ∨
      mark l = none ∧ ∃ ls header inner, Laid ls ∧ mark header = some .opens ∧
        (∀ l ∈ inner, mark l = none) ∧ (∀ l ∈ header :: inner, '\n' ∉ l) ∧
        formatSchema text =
          some (unlines (ls ++ Text.trim header :: written (isModel header) inner) ++ ['}']))) := by
  have hfeed : ∀ l ∈ lines text, '\n' ∉ l := fun l hl => noFeed_lines hl
  obtain ⟨s, ls, hs, h⟩ := exists_reads hfeed
  unfold formatSchema
  rw [hs, Option.bind_eq_bind, Option.bind_some]
  cases hin : s.inBlock with
  | false =>
      left
      refine ⟨?_, ls, h.laid, ?_, fun hapart => ?_⟩
      · rw [marks, Ne, ← h.marks, hin]
        decide
      · rw [Bool.false_and, if_neg (by decide), h.out]
      · have hwords := h.words hapart
        rwa [h.outside hin, List.append_nil] at hwords
  | true =>
      right
      obtain ⟨before, header, inner, hpast, hlines, hheader, hinner⟩ := h.within hin
      refine ⟨h.marks.mp hin, ?_⟩
      rw [hlines, Bool.true_and, List.isEmpty_cons, Bool.not_false, if_pos rfl]
      rcases inner.eq_nil_or_concat' with rfl | ⟨inner, last, rfl⟩
      · exact ⟨header, by rw [hpast, List.getLast?_concat], Or.inl ⟨hheader, rfl⟩⟩
      · refine ⟨last, ?_, Or.inr ⟨hinner last (by simp), ls, header, inner, h.laid, hheader,
          fun l hl => hinner l (by simp [hl]), fun l hl => ?_, ?_⟩⟩
        · rw [hpast, ← List.cons_append, ← List.append_assoc, List.getLast?_concat]
        · refine hfeed l ?_
          rw [hpast]
          rcases List.mem_cons.mp hl with rfl | hl
          · simp
          · simp [hl]
        · rw [formatBlock_eq, Option.map_some, h.out, unlines_append, List.append_assoc]

-- The lines of a formatted text, and those of one whose last block is not closed.

theorem lines_laid (h : Laid ls) : lines (unlines ls) = ls := by
  have hlines := lines_unlines h.whole (show '\n' ∉ ([] : Line) by simp)
  rwa [List.append_nil, if_pos rfl, List.append_nil] at hlines

theorem lines_unclosed (h : Laid ls) (hheader : mark header = some .opens)
    (hfeed : ∀ l ∈ header :: inner, '\n' ∉ l) :
    lines (unlines (ls ++ Text.trim header :: written (isModel header) inner) ++ ['}']) =
      ls ++ block header inner := by
  have hwhole : ∀ l ∈ ls ++ Text.trim header :: written (isModel header) inner, Whole l := by
    intro l hl
    rcases List.mem_append.mp hl with hl | hl
    · exact h.whole l hl
    · exact whole_block hheader hfeed l (List.mem_append_left _ hl)
  rw [lines_unlines hwhole (by decide), if_neg (by decide), block, List.append_assoc]

theorem formatSchema_laid (h : Laid ls) : formatSchema (unlines ls) = some (unlines ls) := by
  rw [formatSchema, lines_laid h, reads_laid h]
  rfl

-- A text that ends in an open block is formatted to one that does not.
theorem formatSchema_unclosed (h : Laid ls) (hheader : mark header = some .opens)
    (hinner : ∀ l ∈ inner, mark l = none) (hfeed : ∀ l ∈ header :: inner, '\n' ∉ l) :
    formatSchema (unlines (ls ++ Text.trim header :: written (isModel header) inner) ++ ['}']) =
      some (unlines (ls ++ apart ls ++ block header inner)) := by
  have hreads : (ls ++ block header inner).foldlM Formatter.read .start =
      some ⟨unlines (ls ++ apart ls ++ block header inner), false, []⟩ := by
    rw [List.foldlM_append, reads_laid h, Option.bind_eq_bind, Option.bind_some,
      reads_block h hheader hinner]
  rw [formatSchema, lines_unclosed h hheader hfeed, hreads]
  rfl

-- The formatter panics on a text that ends with the line that opens a block, and else what it
-- makes of a text stays as it is exactly if no block is left open.
theorem format_stable (text : List Char) :
    (formatSchema text = none ↔ ∃ l, (lines text).getLast? = some l ∧ mark l = some .opens) ∧
    ∀ out, formatSchema text = some out →
      (formatSchema out = some out ↔ (marks text).getLast? ≠ some .opens) := by
  rcases formatSchema_cases text with ⟨hmarks, ls, hlaid, hformat, -⟩ |
    ⟨hmarks, l, hlast, ⟨hl, hformat⟩ |
      ⟨hl, ls, header, inner, hlaid, hheader, hinner, hfeed, hformat⟩⟩
  · refine ⟨iff_of_false (by simp [hformat]) ?_, fun out hout => ?_⟩
    · rintro ⟨l, hlast, hl⟩
      obtain ⟨before, hlines⟩ := List.getLast?_eq_some_iff.mp hlast
      refine hmarks ?_
      rw [marks, hlines, marks_concat, hl, Option.toList_some, List.getLast?_concat]
    · obtain rfl := Option.some.inj (hformat.symm.trans hout)
      exact iff_of_true (formatSchema_laid hlaid) hmarks
  · exact ⟨iff_of_true hformat ⟨l, hlast, hl⟩, fun out hout => by rw [hformat] at hout; cases hout⟩
  · refine ⟨iff_of_false (by simp [hformat]) ?_, fun out hout => ?_⟩
    · rintro ⟨l', hlast', hl'⟩
      obtain rfl := Option.some.inj (hlast.symm.trans hlast')
      rw [hl] at hl'
      cases hl'
    · obtain rfl := Option.some.inj (hformat.symm.trans hout)
      refine iff_of_false (fun hsame => ?_) (not_not.mpr hmarks)
      rw [formatSchema_unclosed hlaid hheader hinner hfeed, block, ← List.append_assoc,
        unlines_concat] at hsame
      have hends := congrArg List.getLast? (Option.some.inj hsame)
      rw [List.getLast?_concat, List.getLast?_concat] at hends
      exact absurd hends (by decide)

-- A text whose blocks are all closed before the next one is opened.
structure Matched (text : List Char) : Prop where
  apart : Apart (marks text)
  closed : (marks text).getLast? ≠ some .opens

theorem marks_block (hheader : mark header = some .opens) (hinner : ∀ l ∈ inner, mark l = none) :
    (block header inner).filterMap mark = [.opens, .closes] := by
  have hwritten : (written (isModel header) inner).filterMap mark = [] :=
    List.filterMap_eq_nil_iff.mpr (mark_written hinner)
  rw [block, List.filterMap_append,
    List.filterMap_cons_some ((mark_congr words_trim).trans hheader),
    hwritten]
  rfl

theorem apart_block {ms : List Mark} (h : Apart ms) (hlast : ms.getLast? ≠ some .opens) :
    Apart (ms ++ [.opens, .closes]) ∧
      (ms ++ [Mark.opens, Mark.closes]).getLast? ≠ some .opens := by
  refine ⟨List.isChain_append.mpr ⟨h, by simp, fun m hm m' _ hopens => ?_⟩, by simp⟩
  exact absurd (hopens ▸ hm) hlast

theorem Laid.apart_marks (h : Laid ls) :
    Apart (ls.filterMap mark) ∧ (ls.filterMap mark).getLast? ≠ some .opens := by
  induction h with
  | nil => exact ⟨List.IsChain.nil, by simp⟩
  | @line ls l h hmark htrim hne hfeed ih =>
      rw [marks_concat]
      cases hl : mark l with
      | none => rwa [Option.toList_none, List.append_nil]
      | some m =>
          cases m with
          | opens => exact absurd hl hmark
          | closes =>
              rw [Option.toList_some]
              exact ⟨List.isChain_append.mpr ⟨ih.1, by simp, fun m hm m' hm' hopens =>
                absurd (hopens ▸ hm) ih.2⟩, by simp⟩
  | blank h hne hlast ih =>
      rw [marks_skip _ mark_nil]
      exact ih
  | block h hlast hheader hbody hfeed ih =>
      rw [List.filterMap_append, marks_block hheader hbody]
      exact apart_block ih.1 ih.2

-- The words say which lines open blocks and which close them.
theorem marks_words (ls : List Line) :
    ls.filterMap mark = (wordLines ls).filterMap fun ws => mark ([' '].intercalate ws) := by
  induction ls with
  | nil => rfl
  | cons l ls ih =>
      have hcons : wordLines (l :: ls) = wordLines [l] ++ wordLines ls := wordLines_append [l] ls
      rw [hcons, List.filterMap_append, ← ih]
      have hone : (wordLines [l]).filterMap (fun ws => mark ([' '].intercalate ws)) =
          (mark l).toList := by
        have hwords : splitWhitespace ([' '].intercalate (splitWhitespace l)) = splitWhitespace l :=
          pieces_intercalate (by decide) fun w hw => piece_of_mem l hw
        by_cases hnil : splitWhitespace l = []
        · have hblank : Text.trim l = [] := trim_eq_nil_iff.mpr hnil
          rw [wordLines_blank hblank]
          simp [mark, hblank]
        · have hline : wordLines [l] = [splitWhitespace l] := by simp [wordLines, hnil]
          rw [hline, ← mark_congr hwords]
          cases hl : mark ([' '].intercalate (splitWhitespace l)) <;> simp [hl]
      rw [hone]
      cases hl : mark l <;> simp [hl]

-- Line by line the words of a text are kept exactly if its blocks are closed.
theorem format_keeps_words (h : formatSchema source = some out) :
    wordLines (lines out) = wordLines (lines source) ↔ Matched source := by
  have hmatched : Apart (marks out) ∧ (marks out).getLast? ≠ some .opens := by
    rcases formatSchema_cases source with ⟨-, ls, hlaid, hformat, -⟩ |
      ⟨-, l, -, ⟨-, hformat⟩ | ⟨-, ls, header, inner, hlaid, hheader, hinner, hfeed, hformat⟩⟩
    · obtain rfl := Option.some.inj (hformat.symm.trans h)
      rw [marks, lines_laid hlaid]
      exact hlaid.apart_marks
    · rw [hformat] at h
      cases h
    · obtain rfl := Option.some.inj (hformat.symm.trans h)
      rw [marks, lines_unclosed hlaid hheader hfeed, List.filterMap_append,
        marks_block hheader hinner]
      exact apart_block hlaid.apart_marks.1 hlaid.apart_marks.2
  constructor
  · intro hwords
    have hmarks : marks source = marks out := by
      rw [marks, marks, marks_words, marks_words, hwords]
    exact ⟨hmarks ▸ hmatched.1, hmarks ▸ hmatched.2⟩
  · intro hmatch
    rcases formatSchema_cases source with ⟨-, ls, hlaid, hformat, hkeeps⟩ | ⟨hopens, -⟩
    · obtain rfl := Option.some.inj (hformat.symm.trans h)
      rw [lines_laid hlaid]
      exact hkeeps hmatch.apart
    · exact absurd hopens hmatch.closed

-- The columns of a model are aligned.
theorem format_keeps_model :
    wordLines (lines "model A \x7b\n  id   Int    @id\n  name String\n\x7d\n".toList) =
      wordLines (lines "model A \x7b\nid Int  @id\n  name  String\n\x7d".toList) ↔
    Matched "model A \x7b\nid Int  @id\n  name  String\n\x7d".toList :=
  format_keeps_words (by decide +kernel)

end Runs

section Editing

variable {text out : List Char} {l tail : Line} {ls : List Line} {n k : Nat}

-- Carriage returns stand only before line feeds, so that the lines are those of the client.
def Fed (text : List Char) : Prop := ∀ p q, text = p ++ '\r' :: q → q.head? = some '\n'

theorem fed_of_noReturn (h : '\r' ∉ text) : Fed text := fun p q htext => by
  exact absurd (show '\r' ∈ text by rw [htext]; simp) h

-- A line with what stands behind it before the line feed.
structure Ended (l : Line) : Prop where
  noFeed : '\n' ∉ l
  noReturn : '\r' ∉ l.dropLast

theorem exists_unlines (h : Fed text) :
    ∃ ls tail, text = unlines ls ++ tail ∧ (∀ l ∈ ls, Ended l) ∧ '\n' ∉ tail ∧ '\r' ∉ tail := by
  induction text with
  | nil => exact ⟨[], [], rfl, by simp, by simp, by simp⟩
  | cons c rest ih =>
      have hfed : Fed rest := fun p q hrest => h (c :: p) q (by rw [hrest]; rfl)
      obtain ⟨ls, tail, rfl, hls, hfeed, hreturn⟩ := ih hfed
      by_cases hc : c = '\n'
      · refine ⟨[] :: ls, tail, by rw [hc]; rfl, fun l hl => ?_, hfeed, hreturn⟩
        rcases List.mem_cons.mp hl with rfl | hl
        · exact ⟨by simp, by simp⟩
        · exact hls l hl
      · cases ls with
        | nil =>
            refine ⟨[], c :: tail, rfl, by simp, by simp [hfeed, Ne.symm hc], ?_⟩
            rw [List.mem_cons, not_or]
            refine ⟨fun hcr => ?_, hreturn⟩
            have hhead := h [] tail (by rw [hcr]; rfl)
            exact hfeed (List.mem_of_head? hhead)
        | cons l ls =>
            obtain ⟨hl, hrest⟩ := List.forall_mem_cons.mp hls
            refine ⟨(c :: l) :: ls, tail, rfl, List.forall_mem_cons.mpr ⟨⟨?_, ?_⟩, hrest⟩,
              hfeed, hreturn⟩
            · simp [hl.noFeed, Ne.symm hc]
            · cases l with
              | nil => simp
              | cons d l =>
                  rw [List.dropLast_cons_of_ne_nil (by simp), List.mem_cons, not_or]
                  refine ⟨fun hcr => ?_, hl.noReturn⟩
                  have hhead := h [] (unlines ((d :: l) :: ls) ++ tail) (by rw [hcr]; rfl)
                  exact hl.noFeed (by simp [Option.some.inj hhead])

-- The client passes over a line, and stops behind the last one.

theorem splitAt_line (h : Ended l) (rest : List Char) :
    splitAt (n + 1) k (l ++ '\n' :: rest) =
      (l ++ '\n' :: (splitAt n k rest).1, (splitAt n k rest).2) := by
  induction l with
  | nil => simp [splitAt, endsLine]
  | cons c l ih =>
      have hended : Ended l := by
        refine ⟨fun hl => h.noFeed (List.mem_cons_of_mem c hl), fun hl => h.noReturn ?_⟩
        rw [List.dropLast_cons_of_ne_nil (by rintro rfl; simp at hl)]
        exact List.mem_cons_of_mem c hl
      have hnot : endsLine c (l ++ '\n' :: rest) = false := by
        have hfeed : c ≠ '\n' := fun hc => h.noFeed (by simp [hc])
        cases l with
        | nil => simp [endsLine, hfeed]
        | cons d l =>
            have hreturn : c ≠ '\r' := fun hc => h.noReturn (by simp [hc])
            simp [endsLine, hfeed, hreturn]
      rw [List.cons_append, splitAt, if_neg (Nat.succ_ne_zero n), hnot, if_neg Bool.false_ne_true,
        ih hended]
      rfl

theorem splitAt_lines (h : ∀ l ∈ ls, Ended l) (rest : List Char) :
    splitAt (ls.length + n) k (unlines ls ++ rest) =
      (unlines ls ++ (splitAt n k rest).1, (splitAt n k rest).2) := by
  induction ls with
  | nil => rw [List.length_nil, Nat.zero_add]; rfl
  | cons l ls ih =>
      obtain ⟨hl, hrest⟩ := List.forall_mem_cons.mp h
      have hcons : ∀ more, unlines (l :: ls) ++ more = l ++ '\n' :: (unlines ls ++ more) := by
        intro more
        simp [unlines]
      rw [hcons, hcons, List.length_cons, Nat.add_right_comm, splitAt_line hl, ih hrest]

theorem utf16Size_le (c : Char) : utf16Size c ≤ c.utf8Size := by
  have hpos := c.utf8Size_pos
  rw [utf16Size]
  split
  · exact hpos
  · next hlarge =>
      have hone : c.utf8Size ≠ 1 := by
        intro hone
        have hle : c.toNat ≤ 127 := UInt32.le_iff_toNat_le.mp (Char.utf8Size_eq_one_iff.mp hone)
        omega
      omega

theorem splitAt_end (hl : '\n' ∉ l ∧ '\r' ∉ l) (hk : byteLen l ≤ k) {rest : List Char}
    (hrest : ∀ c ∈ rest.head?, c = '\n' ∨ c = '\r') : splitAt 0 k (l ++ rest) = (l, rest) := by
  induction l generalizing k with
  | nil =>
      cases rest with
      | nil => rfl
      | cons c rest => rw [List.nil_append, splitAt, if_pos rfl, if_pos (Or.inr (hrest c rfl))]
  | cons c l ih =>
      rw [byteLen] at hk
      have hsize := utf16Size_le c
      have hgo : ¬(k < utf16Size c ∨ c = '\n' ∨ c = '\r') := by
        rintro (hlt | rfl | rfl)
        · omega
        · exact hl.1 (by simp)
        · exact hl.2 (by simp)
      rw [List.cons_append, splitAt, if_pos rfl, if_neg hgo,
        ih ⟨fun h => hl.1 (by simp [h]), fun h => hl.2 (by simp [h])⟩ (by omega)]

-- The line feed behind the last line is not in the range of the edit.

def ending (text : List Char) : List Char :=
  if text.getLast? ≠ some '\n' then []
  else if text.dropLast.getLast? = some '\r' then ['\r', '\n']
  else ['\n']

theorem chomp_ended (h : Ended l) : '\n' ∉ chomp l ∧ '\r' ∉ chomp l := by
  rw [chomp]
  split
  · exact ⟨fun hl => h.noFeed (List.dropLast_subset l hl), h.noReturn⟩
  · next hlast =>
      refine ⟨h.noFeed, fun hl => ?_⟩
      rcases l.eq_nil_or_concat' with rfl | ⟨l, c, rfl⟩
      · cases hl
      · have hl' := h.noReturn
        rw [List.dropLast_concat] at hl'
        rw [List.getLast?_concat] at hlast
        rcases List.mem_append.mp hl with hl | hl
        · exact hl' hl
        · exact hlast (by rw [List.mem_singleton.mp hl])

theorem getLast_unlines (ls : List Line) : (unlines ls).getLast? ≠ some '\r' := by
  rcases ls.eq_nil_or_concat' with rfl | ⟨ls, l, rfl⟩
  · exact nofun
  · rw [unlines_concat, List.getLast?_concat]
    decide

theorem ending_concat (ls : List Line) (l : Line) :
    unlines (ls ++ [l]) = unlines ls ++ chomp l ++ ending (unlines (ls ++ [l])) := by
  have hreturn : (unlines ls ++ l).getLast? = some '\r' ↔ l.getLast? = some '\r' := by
    rcases l.eq_nil_or_concat' with rfl | ⟨l, c, rfl⟩
    · rw [List.append_nil]
      exact iff_of_false (getLast_unlines ls) nofun
    · rw [← List.append_assoc, List.getLast?_concat, List.getLast?_concat]
  rw [unlines_concat, ending, List.getLast?_concat, if_neg (not_not.mpr rfl), List.dropLast_concat]
  by_cases hl : l.getLast? = some '\r'
  · obtain ⟨l, rfl⟩ := List.getLast?_eq_some_iff.mp hl
    rw [if_pos (hreturn.mpr hl), chomp, if_pos hl, List.dropLast_concat]
    simp
  · rw [if_neg (mt hreturn.mp hl), chomp, if_neg hl]

theorem head_ending (text : List Char) : ∀ c ∈ (ending text).head?, c = '\n' ∨ c = '\r' := by
  rw [ending]
  split_ifs <;> simp

theorem exists_last (hfed : Fed text) (hne : text ≠ []) :
    ∃ ls l, (∀ l ∈ ls, Ended l) ∧ ('\n' ∉ l ∧ '\r' ∉ l) ∧ text = unlines ls ++ (l ++ ending text) ∧
      (lines text).length = ls.length + 1 ∧ (lines text).getLast? = some l := by
  obtain ⟨ls, tail, htext, hls, hfeed, hreturn⟩ := exists_unlines hfed
  have hlines : lines text = ls.map chomp ++ if tail = [] then [] else [tail] := by
    rw [htext, lines_cut (fun l hl => (hls l hl).noFeed) hfeed]
  by_cases hnil : tail = []
  · rw [hnil, List.append_nil] at htext
    rw [if_pos hnil, List.append_nil] at hlines
    rcases ls.eq_nil_or_concat' with rfl | ⟨ls, l, rfl⟩
    · exact absurd htext hne
    · refine ⟨ls, chomp l, fun l hl => hls l (List.mem_append_left _ hl),
        chomp_ended (hls l (by simp)), ?_, by simp [hlines], by simp [hlines]⟩
      conv_lhs => rw [htext, ending_concat, ← htext]
      rw [List.append_assoc]
  · rw [if_neg hnil] at hlines
    have hending : ending text = [] := by
      refine if_pos fun hlast => ?_
      rw [htext, List.getLast?_append_of_ne_nil _ hnil] at hlast
      exact hfeed (List.mem_of_getLast? hlast)
    exact ⟨ls, tail, hls, ⟨hfeed, hreturn⟩, by rw [hending, List.append_nil, htext],
      by simp [hlines], by simp [hlines]⟩

-- The edit covers the whole text but for the end of its last line.
theorem reformatted_eq (hfed : Fed text) (hcount : (lines text).length < 2 ^ 32)
    (hlength : ∀ l ∈ lines text, byteLen l < 2 ^ 32) :
    reformatted text = (formatSchema text).map fun out =>
      if out = text then text else out ++ ending text := by
  rw [reformatted, formatDocument, Option.map_map]
  refine congrArg (Option.map · (formatSchema text)) (funext fun out => ?_)
  rw [Function.comp_apply]
  split
  · rfl
  · have hstart : (splitAt 0 0 text).1 = [] := by
      cases text with
      | nil => rfl
      | cons c rest =>
          rw [splitAt, if_pos rfl, if_pos (Or.inl (by rw [utf16Size]; split <;> decide))]
    have hstop : (splitAt ((lines text).length % 2 ^ 32 - 1)
        ((lines text).getLast?.elim 0 byteLen % 2 ^ 32) text).2 = ending text := by
      by_cases hnil : text = []
      · rw [hnil]
        rfl
      · obtain ⟨ls, l, hls, hclean, htext, hlen, hlast⟩ := exists_last hfed hnil
        rw [Nat.mod_eq_of_lt hcount, hlen, hlast, Option.elim_some,
          Nat.mod_eq_of_lt (hlength l (List.mem_of_getLast? hlast)), Nat.add_sub_cancel]
        conv_lhs => rw [htext]
        rw [← Nat.add_zero ls.length, splitAt_lines hls,
          splitAt_end hclean (Nat.le_refl _) (head_ending text)]
    change (splitAt 0 0 text).1 ++ out ++ (splitAt _ _ text).2 = _
    rw [hstart, hstop, List.nil_append]

-- The end of a line behind a formatted text is read as a blank line.
theorem formatSchema_ended (h : Laid ls) (hl : '\n' ∉ l) (hend : chomp l = []) :
    formatSchema (unlines ls ++ (l ++ ['\n'])) = some (unlines ls ++
      if !(unlines ls).isEmpty && !Formatter.afterBlank (unlines ls) then ['\n'] else []) := by
  have hlines : lines (unlines ls ++ (l ++ ['\n'])) = ls ++ [[]] := by
    have hfeed : ∀ l' ∈ ls ++ [l], '\n' ∉ l' := by
      intro l' hl'
      rcases List.mem_append.mp hl' with hl' | hl'
      · exact (h.whole l' hl').noFeed
      · exact List.mem_singleton.mp hl' ▸ hl
    have hcut := lines_cut hfeed (show '\n' ∉ ([] : Line) by simp)
    rwa [List.append_nil, if_pos rfl, List.append_nil, unlines_concat, List.append_assoc,
      List.map_append, map_chomp h.whole, List.map_singleton, hend] at hcut
  have hread : (ls ++ [[]]).foldlM Formatter.read .start =
      some ⟨unlines ls ++ if !(unlines ls).isEmpty && !Formatter.afterBlank (unlines ls) then ['\n']
        else [], false, []⟩ := by
    rw [List.foldlM_append, reads_laid h, Option.bind_eq_bind, Option.bind_some, reads_one,
      read_blank rfl rfl]
    split
    · rfl
    · rw [List.append_nil]
  rw [formatSchema, hlines, hread]
  rfl

theorem formatDocument_eq_nil_iff :
    formatDocument text = some [] ↔ formatSchema text = some text := by
  rw [formatDocument, Option.map_eq_some_iff]
  constructor
  · rintro ⟨out, hout, hnil⟩
    split at hnil
    · next hsame => rw [hout, hsame]
    · cases hnil
  · exact fun h => ⟨text, h, if_pos rfl⟩

-- What the editor has then, and whether it is answered another edit for it.
theorem format_settles (hfed : Fed text) (hcount : (lines text).length < 2 ^ 32)
    (hlength : ∀ l ∈ lines text, byteLen l < 2 ^ 32)
    (hclosed : (marks text).getLast? ≠ some .opens) (hout : formatSchema text = some out) :
    ∃ edited, reformatted text = some edited ∧
      edited = (if out = text then text else out ++ ending text) ∧
      (formatDocument edited = some [] ↔ out = text ∨ ending text = [] ∨
        ending text = ['\n'] ∧ out ≠ [] ∧ Formatter.afterBlank out = false) := by
  refine ⟨_, by rw [reformatted_eq hfed hcount hlength, hout, Option.map_some], rfl, ?_⟩
  rw [formatDocument_eq_nil_iff]
  by_cases hsame : out = text
  · rw [if_pos hsame]
    exact iff_of_true (hsame ▸ hout) (Or.inl hsame)
  · rw [if_neg hsame, or_iff_right hsame]
    obtain ⟨ls, hlaid, hformat⟩ : ∃ ls, Laid ls ∧ formatSchema text = some (unlines ls) := by
      rcases formatSchema_cases text with ⟨-, ls, hlaid, hformat, -⟩ | ⟨hopens, -⟩
      · exact ⟨ls, hlaid, hformat⟩
      · exact absurd hopens hclosed
    obtain rfl := Option.some.inj (hformat.symm.trans hout)
    have hcases : ending text = [] ∨ ending text = [] ++ ['\n'] ∨
        ending text = ['\r'] ++ ['\n'] := by
      rw [ending]
      split_ifs <;> simp
    rcases hcases with hend | hend | hend
    · rw [hend, List.append_nil]
      exact iff_of_true (formatSchema_laid hlaid) (Or.inl rfl)
    · rw [hend, formatSchema_ended hlaid (by simp) rfl, Option.some.injEq,
        List.append_right_inj]
      split
      · next hcond => simpa using hcond
      · next hcond => simpa using hcond
    · rw [hend, formatSchema_ended hlaid (by decide) rfl, Option.some.injEq, List.append_right_inj]
      split <;> simp

-- A blank line is left behind a comment that was indented.
theorem format_settles_comment :
    ∃ edited, reformatted "  // a\n".toList = some edited ∧
      edited = (if "// a\n".toList = "  // a\n".toList then "  // a\n".toList
        else "// a\n".toList ++ ending "  // a\n".toList) ∧
      (formatDocument edited = some [] ↔ "// a\n".toList = "  // a\n".toList ∨
        ending "  // a\n".toList = [] ∨ ending "  // a\n".toList = ['\n'] ∧
          "// a\n".toList ≠ [] ∧ Formatter.afterBlank "// a\n".toList = false) :=
  format_settles (fed_of_noReturn (by decide +kernel)) (by decide +kernel) (by decide +kernel)
    (by decide +kernel) (by decide +kernel)

end Editing

end Ruprizzle.Lsp.Format
