import Ruprizzle.Data.Splitting
import Ruprizzle.Data.Text

namespace Ruprizzle.Runtime.Routing

open Splitting

-- Which statements may run on a replica.

def afterFirst (pat : List Char) : List Char → List Char
  | [] => []
  | c :: rest =>
      if pat.isPrefixOf (c :: rest) then (c :: rest).drop pat.length else afterFirst pat rest

theorem afterFirst_length (pat text : List Char) : (afterFirst pat text).length ≤ text.length := by
  induction text with
  | nil => exact Nat.le_refl 0
  | cons c rest ih =>
      rw [afterFirst]
      split
      · rw [List.length_drop]
        omega
      · exact Nat.le_trans ih (Nat.le_succ _)

theorem length_of_trimmed {p : Char → Bool} {a b : Char} {text rest : List Char}
    (h : text.dropWhile p = a :: b :: rest) : rest.length + 2 ≤ text.length := by
  have hle := (List.dropWhile_sublist p (l := text)).length_le
  rw [h] at hle
  exact hle

def stripLeadingComments (sql : List Char) : List Char :=
  match _h : sql.dropWhile Text.isWhitespace with
  | '-' :: '-' :: rest => stripLeadingComments (afterFirst ['\n'] rest)
  | '/' :: '*' :: rest => stripLeadingComments (afterFirst ['*', '/'] rest)
  | sql => sql
termination_by sql.length
decreasing_by
  · have hshort := length_of_trimmed _h
    have hafter := afterFirst_length ['\n'] rest
    omega
  · have hshort := length_of_trimmed _h
    have hafter := afterFirst_length ['*', '/'] rest
    omega

def readStart : List String := ["SELECT", "WITH", "VALUES", "TABLE", "SHOW"]

def notOnReplica : List String :=
  ["INSERT", "UPDATE", "DELETE", "MERGE", "INTO", "RETURNING", "LOCK", "SHARE", "NEXTVAL", "SETVAL"]

def separates (c : Char) : Bool := !(c.isAlphanum || c == '_')

def eqIgnoreAsciiCase (w : List Char) (k : String) : Bool :=
  w.map Char.toLower == k.toList.map Char.toLower

def isReplicaSafe (sql : List Char) : Bool :=
  match Splitting.pieces separates (stripLeadingComments sql) with
  | [] => false
  | first :: rest =>
      readStart.any (eqIgnoreAsciiCase first) &&
        !rest.any fun w => notOnReplica.any (eqIgnoreAsciiCase w)

-- A text that is taken for a read begins with a reading word, and no place behind that
-- word spells one of the others on its own.
def PlainRead (text : List Char) : Prop :=
  ∃ pad first after, text = pad ++ first ++ after ∧ (∀ c ∈ pad, separates c = true) ∧
    Splitting.Piece separates first ∧ Bounded separates after ∧
    (∃ k ∈ readStart, eqIgnoreAsciiCase first k = true) ∧
    ∀ before w rest, after = before ++ w ++ rest → Splitting.Piece separates w →
      Bounded separates before.reverse → Bounded separates rest →
      ∀ k ∈ notOnReplica, eqIgnoreAsciiCase w k = false

-- Blanks, comments up to the end of their line, and comments up to their first `*/`.
inductive Comments : List Char → Prop
  | nil : Comments []
  | blank {c : Char} {rest : List Char} (h : Text.isWhitespace c = true) (more : Comments rest) :
      Comments (c :: rest)
  | line {body rest : List Char} (h : '\n' ∉ body) (more : Comments rest) :
      Comments ('-' :: '-' :: (body ++ '\n' :: rest))
  | block {body rest : List Char} (h : ¬ ['*', '/'] <:+: body) (more : Comments rest) :
      Comments ('/' :: '*' :: (body ++ '*' :: '/' :: rest))

structure Stripped (text : List Char) : Prop where
  blank : ∀ c ∈ text.head?, Text.isWhitespace c = false
  line : ¬ ['-', '-'] <+: text
  block : ¬ ['/', '*'] <+: text

theorem afterFirst_newline {body rest : List Char} (h : '\n' ∉ body) :
    afterFirst ['\n'] (body ++ '\n' :: rest) = rest := by
  induction body with
  | nil => rfl
  | cons c body ih =>
      rw [List.mem_cons, not_or] at h
      have hno : ¬ ['\n'].isPrefixOf (c :: (body ++ '\n' :: rest)) = true := by
        simp [List.isPrefixOf, h.1]
      rw [List.cons_append, afterFirst, if_neg hno, ih h.2]

theorem afterFirst_star {body rest : List Char} (h : ¬ ['*', '/'] <:+: body) :
    afterFirst ['*', '/'] (body ++ '*' :: '/' :: rest) = rest := by
  induction body with
  | nil => rfl
  | cons c body ih =>
      have hno : ¬ ['*', '/'].isPrefixOf (c :: (body ++ '*' :: '/' :: rest)) = true := by
        intro hprefix
        cases body with
        | nil => simp [List.isPrefixOf] at hprefix
        | cons d body =>
            simp only [List.cons_append, List.isPrefixOf, Bool.and_true, Bool.and_eq_true,
              beq_iff_eq] at hprefix
            obtain ⟨rfl, rfl⟩ := hprefix
            exact h ⟨[], body, rfl⟩
      have hbody : ¬ ['*', '/'] <:+: body := fun hin =>
        h (hin.trans (List.suffix_cons c body).isInfix)
      rw [List.cons_append, afterFirst, if_neg hno, ih hbody]

-- What stands before the pattern does not hold it, if the pattern is found at all.
theorem afterFirst_cases (pat text : List Char) : afterFirst pat text = [] ∨
    ∃ body, text = body ++ pat ++ afterFirst pat text ∧
      ∀ u v, body = u ++ v → v ≠ [] → ¬ pat <+: v ++ pat ++ afterFirst pat text := by
  induction text with
  | nil => exact Or.inl rfl
  | cons c rest ih =>
      rw [afterFirst]
      split
      · next h =>
          obtain ⟨more, hmore⟩ := List.isPrefixOf_iff_prefix.mp h
          refine Or.inr ⟨[], ?_, ?_⟩
          · rw [List.nil_append, ← hmore, List.drop_left]
          · intro u v huv hv
            exact absurd (List.append_eq_nil_iff.mp huv.symm).2 hv
      · next h =>
          rcases ih with hnil | ⟨body, heq, hno⟩
          · exact Or.inl hnil
          · refine Or.inr ⟨c :: body, ?_, fun u v huv hv => ?_⟩
            · rw [List.cons_append, List.cons_append, ← heq]
            · cases u with
              | nil =>
                  rw [List.nil_append] at huv
                  rw [← huv, List.cons_append, List.cons_append, ← heq]
                  exact fun hprefix => h (List.isPrefixOf_iff_prefix.mpr hprefix)
              | cons b u => exact hno u v (List.cons.inj huv).2 hv

theorem strip_blank {c : Char} (h : Text.isWhitespace c = true) (rest : List Char) :
    stripLeadingComments (c :: rest) = stripLeadingComments rest := by
  conv_lhs => rw [stripLeadingComments, List.dropWhile_cons_of_pos h]
  conv_rhs => rw [stripLeadingComments]

theorem strip_of_line {sql rest : List Char}
    (h : sql.dropWhile Text.isWhitespace = '-' :: '-' :: rest) :
    stripLeadingComments sql = stripLeadingComments (afterFirst ['\n'] rest) := by
  conv_lhs => rw [stripLeadingComments, h]
  rfl

theorem strip_of_block {sql rest : List Char}
    (h : sql.dropWhile Text.isWhitespace = '/' :: '*' :: rest) :
    stripLeadingComments sql = stripLeadingComments (afterFirst ['*', '/'] rest) := by
  conv_lhs => rw [stripLeadingComments, h]
  rfl

theorem strip_stripped {text : List Char} (h : Stripped text) :
    stripLeadingComments text = text := by
  have hdrop : text.dropWhile Text.isWhitespace = text := by
    cases text with
    | nil => rfl
    | cons c rest => exact List.dropWhile_cons_of_neg (by simp [h.blank c rfl])
  rw [stripLeadingComments]
  split
  · next rest heq => exact absurd ⟨rest, by rw [← hdrop, heq]; rfl⟩ h.line
  · next rest heq => exact absurd ⟨rest, by rw [← hdrop, heq]; rfl⟩ h.block
  · exact hdrop

theorem strip_comments {lead text : List Char} (h : Comments lead) (htext : Stripped text) :
    stripLeadingComments (lead ++ text) = text := by
  induction h with
  | nil => exact strip_stripped htext
  | blank hc _ ih => rw [List.cons_append, strip_blank hc, ih]
  | line hbody _ ih =>
      rw [List.cons_append, List.cons_append, List.append_assoc, List.cons_append,
        strip_of_line (List.dropWhile_cons_of_neg (by decide)), afterFirst_newline hbody, ih]
  | block hbody _ ih =>
      rw [List.cons_append, List.cons_append, List.append_assoc, List.cons_append,
        List.cons_append, strip_of_block (List.dropWhile_cons_of_neg (by decide)),
        afterFirst_star hbody, ih]

theorem stripped_strip (sql : List Char) : Stripped (stripLeadingComments sql) := by
  induction sql using stripLeadingComments.induct with
  | case1 sql rest h ih =>
      rw [strip_of_line h]
      exact ih
  | case2 sql rest h ih =>
      rw [strip_of_block h]
      exact ih
  | case3 sql hdash hslash =>
      rw [stripLeadingComments]
      split
      · next rest h => exact absurd h (hdash rest)
      · next rest h => exact absurd h (hslash rest)
      · refine ⟨fun c hc => ?_, fun ⟨rest, h⟩ => hdash rest h.symm,
          fun ⟨rest, h⟩ => hslash rest h.symm⟩
        have hfirst := List.head?_dropWhile_not Text.isWhitespace sql
        rw [hc] at hfirst
        simpa using hfirst

theorem comments_blanks {blanks lead : List Char}
    (h : ∀ c ∈ blanks, Text.isWhitespace c = true) (hlead : Comments lead) :
    Comments (blanks ++ lead) := by
  induction blanks with
  | nil => exact hlead
  | cons c blanks ih =>
      obtain ⟨hc, hblanks⟩ := List.forall_mem_cons.mp h
      exact .blank hc (ih hblanks)

-- What is stripped is blanks and whole comments, unless nothing is left.
theorem exists_comments (sql : List Char) : stripLeadingComments sql = [] ∨
    ∃ lead, Comments lead ∧ sql = lead ++ stripLeadingComments sql := by
  have hsplit : ∀ sql : List Char, sql = sql.takeWhile Text.isWhitespace ++
      sql.dropWhile Text.isWhitespace := fun sql => List.takeWhile_append_dropWhile.symm
  have hblank : ∀ (sql : List Char), ∀ c ∈ sql.takeWhile Text.isWhitespace,
      Text.isWhitespace c = true := fun sql => List.all_eq_true.mp List.all_takeWhile
  induction sql using stripLeadingComments.induct with
  | case1 sql rest h ih =>
      rw [strip_of_line h]
      rcases ih with hnil | ⟨lead, hlead, heq⟩
      · exact Or.inl hnil
      · rcases afterFirst_cases ['\n'] rest with hnil | ⟨body, hrest, hno⟩
        · refine Or.inl ?_
          rw [hnil, strip_stripped ⟨by simp, by simp, by simp⟩]
        · refine Or.inr ⟨sql.takeWhile Text.isWhitespace ++ ('-' :: '-' :: (body ++ '\n' :: lead)),
            comments_blanks (hblank sql) (.line ?_ hlead), ?_⟩
          · intro hmem
            obtain ⟨u, v, rfl⟩ := List.append_of_mem hmem
            exact hno u ('\n' :: v) rfl (List.cons_ne_nil _ _) ⟨_, rfl⟩
          · conv_lhs => rw [hsplit sql, h, hrest, heq]
            simp
  | case2 sql rest h ih =>
      rw [strip_of_block h]
      rcases ih with hnil | ⟨lead, hlead, heq⟩
      · exact Or.inl hnil
      · rcases afterFirst_cases ['*', '/'] rest with hnil | ⟨body, hrest, hno⟩
        · refine Or.inl ?_
          rw [hnil, strip_stripped ⟨by simp, by simp, by simp⟩]
        · refine Or.inr ⟨sql.takeWhile Text.isWhitespace ++
            ('/' :: '*' :: (body ++ '*' :: '/' :: lead)),
            comments_blanks (hblank sql) (.block ?_ hlead), ?_⟩
          · rintro ⟨u, v, rfl⟩
            refine hno u (['*', '/'] ++ v) (List.append_assoc _ _ _) (by simp) ?_
            rw [List.append_assoc, List.append_assoc]
            exact List.prefix_append _ _
          · conv_lhs => rw [hsplit sql, h, hrest, heq]
            simp
  | case3 sql hdash hslash =>
      refine Or.inr ⟨sql.takeWhile Text.isWhitespace, ?_, ?_⟩
      · have hlead := comments_blanks (hblank sql) .nil
        rwa [List.append_nil] at hlead
      · have hstrip : stripLeadingComments sql = sql.dropWhile Text.isWhitespace := by
          rw [stripLeadingComments]
          split
          · next rest h => exact absurd h (hdash rest)
          · next rest h => exact absurd h (hslash rest)
          · rfl
        rw [hstrip]
        exact hsplit sql

theorem safe_iff_plainRead (sql : List Char) : isReplicaSafe sql = true ↔
    PlainRead (stripLeadingComments sql) := by
  unfold isReplicaSafe
  constructor
  · intro h
    split at h
    · cases h
    · next first rest hpieces =>
        obtain ⟨hfirst, pad, after, htext, hpad, hafter, rfl⟩ := pieces_eq_cons.mp hpieces
        rw [Bool.and_eq_true, List.any_eq_true, Bool.not_eq_true', List.any_eq_false] at h
        refine ⟨pad, first, after, htext, hpad, hfirst, hafter, h.1, ?_⟩
        intro before w rest heq hw hbefore hrest k hk
        have hmem := mem_pieces_iff.mpr ⟨hw, before, rest, heq, hbefore, hrest⟩
        have hnone := h.2 w hmem
        rw [List.any_eq_true, not_exists] at hnone
        exact Bool.eq_false_iff.mpr fun hk' => hnone k ⟨hk, hk'⟩
  · rintro ⟨pad, first, after, htext, hpad, hfirst, hafter, hread, hothers⟩
    rw [pieces_eq_cons.mpr ⟨hfirst, pad, after, htext, hpad, hafter, rfl⟩]
    rw [Bool.and_eq_true, List.any_eq_true, Bool.not_eq_true', List.any_eq_false]
    refine ⟨hread, fun w hmem => ?_⟩
    obtain ⟨hw, before, rest, heq, hbefore, hrest⟩ := mem_pieces_iff.mp hmem
    rw [List.any_eq_true, not_exists]
    rintro k ⟨hk, hk'⟩
    rw [hothers before w rest heq hw hbefore hrest k hk] at hk'
    cases hk'

theorem not_plainRead_nil : ¬ PlainRead [] := by
  rintro ⟨pad, first, after, htext, -, hfirst, -⟩
  rw [List.nil_eq_append_iff, List.append_eq_nil_iff] at htext
  exact hfirst.ne_nil htext.1.2

-- A statement may run on a replica exactly when, behind blanks and whole comments, it
-- is a plain read.
theorem isReplicaSafe_iff (sql : List Char) : isReplicaSafe sql = true ↔
    ∃ lead text, sql = lead ++ text ∧ Comments lead ∧ Stripped text ∧ PlainRead text := by
  rw [safe_iff_plainRead]
  constructor
  · intro h
    rcases exists_comments sql with hnil | ⟨lead, hlead, heq⟩
    · rw [hnil] at h
      exact absurd h not_plainRead_nil
    · exact ⟨lead, stripLeadingComments sql, heq, hlead, stripped_strip sql, h⟩
  · rintro ⟨lead, text, rfl, hlead, htext, hread⟩
    rwa [strip_comments hlead htext]

end Ruprizzle.Runtime.Routing
