import Ruprizzle.Dialect.Incremental
import Ruprizzle.Migrate.ForeignKeys
import Ruprizzle.Migrate.Spoken
import Ruprizzle.Migrate.SplitText

namespace Ruprizzle

open Diff Planner Splitter

theorem Sql.sentence_render {sql : Sql} (h : sql.Spoken) (hcomment : ∀ text, sql ≠ .comment text)
    (d : Dialect) : Sentence (sql.render d) := by
  have hstart : StartsUpper "ALTER TABLE " := by decide
  have halter : ∀ table action, Sentence ("ALTER TABLE " ++ d.quoteIdent table ++ " " ++ action ++ ";") :=
    fun table action => ⟨(((hstart.append _).append _).append _).append _,
      EndsStatement.append (by decide) _⟩
  cases sql with
  | comment text => exact absurd rfl (hcomment text)
  | command text => exact h
  | inlineForeignKey fk => exact h.elim
  | createTable t =>
      have hstart : StartsUpper "CREATE TABLE " := by decide
      exact ⟨(((((hstart.append _).append _).append _).append _).append _).append _,
        EndsStatement.append (by decide) _⟩
  | dropTable _ _ _ =>
      have hstart : StartsUpper "DROP TABLE " := by decide
      exact ⟨(((hstart.append _).append _).append _).append _,
        EndsStatement.append (by decide) _⟩
  | insertSelect _ _ _ _ =>
      have hstart : StartsUpper "INSERT INTO " := by decide
      exact ⟨(((((((hstart.append _).append _).append _).append _).append _).append _).append _).append _,
        EndsStatement.append (by decide) _⟩
  | createIndex _ =>
      have hstart : StartsUpper "CREATE " := by decide
      exact ⟨((((((((((hstart.append _).append _).append _).append _).append _).append _).append _).append _).append _).append _).append _,
        EndsStatement.append (by decide) _⟩
  | dropIndex _ =>
      have hstart : StartsUpper "DROP INDEX IF EXISTS " := by decide
      exact ⟨(hstart.append _).append _,
        EndsStatement.append (by decide) _⟩
  | dropIndexOn _ _ =>
      have hstart : StartsUpper "DROP INDEX " := by decide
      exact ⟨(((hstart.append _).append _).append _).append _,
        EndsStatement.append (by decide) _⟩
  | createType _ _ =>
      have hstart : StartsUpper "CREATE TYPE " := by decide
      exact ⟨(((hstart.append _).append _).append _).append _,
        EndsStatement.append (by decide) _⟩
  | addValue _ _ =>
      have hstart : StartsUpper "ALTER TYPE " := by decide
      exact ⟨(((hstart.append _).append _).append _).append _,
        EndsStatement.append (by decide) _⟩
  | dropType _ =>
      have hstart : StartsUpper "DROP TYPE IF EXISTS " := by decide
      exact ⟨(hstart.append _).append _,
        EndsStatement.append (by decide) _⟩
  | renameTable _ _ | addColumn _ _ | dropColumn _ _ | renameColumn _ _ _ | alterType _ _ _
  | setDefault _ _ _ | dropDefault _ _ | setNotNull _ _ | dropNotNull _ _ | modifyColumn _ _
  | changeColumn _ _ _ | addUnique _ _ | dropConstraint _ _ | addForeignKey _ _
  | dropForeignKey _ _ => exact halter _ _

-- A statement as it comes out of the splitter, without its semicolon. Nothing
-- comes out for a comment.
def Stmt.bare (d : Dialect) (s : Stmt) : List Char := Text.trim (s.sql.render d).toList.dropLast

def Stmt.piece (d : Dialect) (s : Stmt) : List (List Char) :=
  match s.sql with
  | .comment _ => []
  | _ => [s.bare d]

def pieces (d : Dialect) (stmts : List Stmt) : List String :=
  (stmts.flatMap (Stmt.piece d)).map String.ofList

-- Splitting undoes joining: the script gives back its statements, and what is
-- read after some of them is read as if it stood alone.
structure SplitsBack (u : CharClass) (d : Dialect) (stmts : List Stmt) : Prop where
  whole : splitStatements u (renderSql d stmts) = pieces d stmts
  apart : ∀ a b, stmts = a ++ b → a ≠ [] → ∀ more,
    splitStatements u (renderSql d a ++ "\n" ++ more) = pieces d a ++ splitStatements u more

-- The quotes of a statement are closed and hide its semicolons and comment
-- marks, the lines of a comment are all comments.
def Stmt.Separable (u : CharClass) (d : Dialect) (s : Stmt) : Prop :=
  match s.sql with
  | .comment text => Mute (text.toList ++ ['\n'])
  | sql => Inert u (sql.render d).toList.dropLast

namespace Splitter

variable {u : CharClass} {d : Dialect}

theorem split_newline (chars : List Char) : split u ('\n' :: chars) [] = split u chars [] := by
  have hmute : Mute ['\n'] := .blank (Or.inl (by decide)) .nil
  exact split_mute hmute chars

theorem isUpper_ne {c e : Char} (hc : c.isUpper = true) (he : e.isUpper = false) : c ≠ e := by
  rintro rfl
  rw [hc] at he
  cases he

theorem isUpper_not_blank {c : Char} (hc : c.isUpper = true) : Text.isWhitespace c = false := by
  delta Char.isUpper at hc
  unfold Text.isWhitespace
  simp only [ge_iff_le, decide_eq_true_eq, UInt32.le_iff_toNat_le] at hc
  have hlow : 65 ≤ c.toNat := hc.1
  have hhigh : c.toNat ≤ 90 := hc.2
  simp only [Bool.or_eq_false_iff, Bool.and_eq_false_iff, decide_eq_false_iff_not]
  omega

theorem token_upper {c : Char} (hc : c.isUpper = true) (rest : List Char) :
    token u c rest = (.text [c], rest) := by
  have htag : dollarTag u (c :: rest) = none := by
    unfold dollarTag
    split
    · rename_i heq
      exact absurd (List.cons.inj heq).1 (isUpper_ne hc (by decide))
    · rfl
  unfold token
  rw [if_neg (isUpper_ne hc (by decide)), htag]
  dsimp only
  rw [if_neg (fun h => isUpper_ne hc (by decide : '-'.isUpper = false) h.1),
    if_neg (fun h => isUpper_ne hc (by decide : '/'.isUpper = false) h.1),
    if_neg (isUpper_ne hc (by decide))]

-- A keyword does not start anything the splitter looks for.
theorem inert_upper {c : Char} (hc : c.isUpper = true) {rest : List Char} (h : Inert u rest) :
    Inert u (c :: rest) := by
  refine .char (isUpper_ne hc (by decide)) (isUpper_ne hc (by decide))
    (fun h => isUpper_ne hc (by decide : '-'.isUpper = false) h.1)
    (fun h => isUpper_ne hc (by decide : '/'.isUpper = false) h.1) ?_ h
  unfold dollarTag
  split
  · rename_i heq
    exact absurd (List.cons.inj heq).1 (isUpper_ne hc (by decide))
  · rfl

theorem split_sentence_iff {text : String} (h : Sentence text) :
    (∀ more, split u (text.toList ++ '\n' :: more) [] =
      Text.trim text.toList.dropLast :: split u more []) ↔ Inert u text.toList.dropLast := by
  obtain ⟨c, body, hc, htext⟩ := h.toList
  have hblank := isUpper_not_blank hc
  have hdrop : text.toList.dropLast = c :: body := by
    rw [htext, ← List.cons_append, List.dropLast_concat]
  rw [hdrop, htext]
  constructor
  · intro h
    have hone := h []
    rw [List.cons_append, List.append_assoc, split_cons, token_upper hc] at hone
    refine inert_upper hc (inert_of_split (l := []) hblank ?_)
    simpa [finish, Text.trim] using hone
  · intro h more
    have hsplit := split_inert h ('\n' :: more) []
    rw [split_newline, List.nil_append, finish_begun hblank, List.singleton_append] at hsplit
    simpa using hsplit

theorem split_comment_iff {text : List Char} :
    (∀ more, split u (text ++ '\n' :: more) [] = split u more []) ↔ Mute (text ++ ['\n']) := by
  constructor
  · intro h
    refine mute_of_split (u := u) (Or.inr (by simp)) fun more => ?_
    simpa using h more
  · intro h more
    simpa using split_mute (u := u) h more

-- The line break after the last comment is not needed.
theorem split_mute_end {m : List Char} (h : Mute m) {text : List Char} (heq : m = text ++ ['\n']) :
    split u text [] = [] := by
  have hnil : finish [' '] = [] := by decide
  have hend : ∀ (pre : List Char) {rest text : List Char}, pre ++ rest = text ++ ['\n'] → rest ≠ [] →
      ∃ tail, text = pre ++ tail ∧ rest = tail ++ ['\n'] := by
    intro pre rest text heq hne
    obtain ⟨tail, e, rfl⟩ := (List.eq_nil_or_concat rest).resolve_left hne
    rw [List.concat_eq_append, ← List.append_assoc] at heq
    obtain ⟨htext, he⟩ := List.append_inj' heq rfl
    exact ⟨tail, htext.symm, by rw [List.concat_eq_append, he]⟩
  induction h generalizing text with
  | nil => simp at heq
  | @blank c rest hc hrest ih =>
      by_cases hne : rest = []
      · rw [hne] at heq
        have : text = [] := by
          have := congrArg List.length heq
          simp only [List.length_cons, List.length_nil, List.length_append] at this
          exact List.length_eq_zero_iff.mp (by omega)
        rw [this, split_nil]
        decide
      · obtain ⟨tail, rfl, rfl⟩ := hend [c] heq hne
        rw [split_mute (.blank hc .nil), ih rfl]
  | @line body rest hbody hrest ih =>
      by_cases hne : rest = []
      · subst hne
        have htext : text = '-' :: '-' :: body := by
          have hcons : '-' :: '-' :: (body ++ ['\n']) = ('-' :: '-' :: body) ++ ['\n'] := rfl
          rw [hcons] at heq
          exact (List.append_cancel_right heq).symm
        have hline : afterLine body = [] := by
          unfold afterLine
          rw [List.dropWhile_eq_nil_iff.mpr, List.tail_nil]
          intro c hc
          simp only [ne_eq, decide_not, Bool.not_eq_true', decide_eq_false_iff_not]
          exact fun heq => hbody (heq ▸ hc)
        rw [htext, split_cons]
        simp [token, dollarTag, hline, hnil]
      · obtain ⟨tail, rfl, rfl⟩ := hend ('-' :: '-' :: (body ++ ['\n'])) (by simpa using heq) hne
        rw [split_mute (.line hbody .nil), ih rfl]
  | @block body rest hbody hrest ih =>
      by_cases hne : rest = []
      · subst hne
        have hcons : '/' :: '*' :: (body ++ ['*', '/']) = ('/' :: '*' :: (body ++ ['*'])) ++ ['/'] := by
          simp
        rw [hcons] at heq
        exact absurd (List.append_inj' heq rfl).2 (by decide)
      · obtain ⟨tail, rfl, rfl⟩ := hend ('/' :: '*' :: (body ++ ['*', '/'])) (by simpa using heq) hne
        rw [split_mute (.block hbody .nil), ih rfl]

end Splitter

section

variable {u : CharClass} {d : Dialect}

theorem Stmt.piece_sentence {s : Stmt} (h : ∀ text, s.sql ≠ .comment text) :
    s.piece d = [s.bare d] := by
  unfold Stmt.piece
  split
  · rename_i text heq
    exact absurd heq (h text)
  · rfl

theorem Stmt.separable_sentence {s : Stmt} (h : ∀ text, s.sql ≠ .comment text) :
    s.Separable u d ↔ Inert u (s.sql.render d).toList.dropLast := by
  unfold Stmt.Separable
  split
  · rename_i text heq
    exact absurd heq (h text)
  · rfl

-- A statement comes out as it is, and the next one is read from its first
-- character on.
theorem Stmt.separable_iff {s : Stmt} (h : s.sql.Spoken) :
    (∀ more, split u ((s.sql.render d).toList ++ '\n' :: more) [] =
      s.piece d ++ split u more []) ↔ s.Separable u d := by
  by_cases hcomment : ∃ text, s.sql = .comment text
  · obtain ⟨text, htext⟩ := hcomment
    unfold Stmt.piece Stmt.Separable
    rw [htext]
    exact split_comment_iff
  · have hnot : ∀ text, s.sql ≠ .comment text := fun text heq => hcomment ⟨text, heq⟩
    rw [Stmt.piece_sentence hnot, Stmt.separable_sentence hnot]
    exact split_sentence_iff (Sql.sentence_render h hnot d)

-- The last statement has no line break after it.
theorem Stmt.split_last {s : Stmt} (h : s.sql.Spoken) (hsep : s.Separable u d) :
    split u (s.sql.render d).toList [] = s.piece d := by
  by_cases hcomment : ∃ text, s.sql = .comment text
  · obtain ⟨text, htext⟩ := hcomment
    unfold Stmt.piece
    unfold Stmt.Separable at hsep
    rw [htext] at hsep ⊢
    exact split_mute_end hsep rfl
  · have hnot : ∀ text, s.sql ≠ .comment text := fun text heq => hcomment ⟨text, heq⟩
    have hpiece : s.piece d = [s.bare d] := Stmt.piece_sentence hnot
    rw [Stmt.separable_sentence hnot] at hsep
    obtain ⟨c, body, hc, htext⟩ := (Sql.sentence_render h hnot d).toList
    have hdrop : (s.sql.render d).toList.dropLast = c :: body := by
      rw [htext, ← List.cons_append, List.dropLast_concat]
    rw [hdrop] at hsep
    have hsplit := split_inert hsep [] []
    rw [List.nil_append, finish_begun (isUpper_not_blank hc), split_nil] at hsplit
    rw [hpiece, Stmt.bare, hdrop, htext, ← List.cons_append, hsplit]
    simp [finish, Text.trim]

theorem renderSql_append {a b : List Stmt} (ha : a ≠ []) (hb : b ≠ []) :
    renderSql d (a ++ b) = renderSql d a ++ "\n" ++ renderSql d b := by
  unfold renderSql
  rw [List.map_append, String.intercalate_append_of_ne_nil]
  · simpa using ha
  · simpa using hb

theorem renderSql_single (s : Stmt) : renderSql d [s] = s.sql.render d := by
  unfold renderSql
  simp

theorem splitStatements_eq (text : String) :
    splitStatements u text = (split u text.toList []).map String.ofList := rfl

theorem pieces_append (a b : List Stmt) : pieces d (a ++ b) = pieces d a ++ pieces d b := by
  unfold pieces
  rw [List.flatMap_append, List.map_append]

-- The statements read one after the other, by induction on their list.
theorem split_apart {stmts : List Stmt} (hspoken : Spoken stmts)
    (hsep : ∀ s ∈ stmts, s.Separable u d) (hne : stmts ≠ []) (more : String) :
    splitStatements u (renderSql d stmts ++ "\n" ++ more) =
      pieces d stmts ++ splitStatements u more := by
  induction stmts with
  | nil => exact absurd rfl hne
  | cons s rest ih =>
      have hs : s.sql.Spoken := hspoken s (List.mem_cons_self ..)
      have hread := (Stmt.separable_iff hs).mpr (hsep s (List.mem_cons_self ..))
      have hhead : ∀ text, splitStatements u (s.sql.render d ++ "\n" ++ text) =
          pieces d [s] ++ splitStatements u text := by
        intro text
        have := hread text.toList
        unfold splitStatements pieces
        simp only [String.toList_append, List.append_assoc] at this ⊢
        rw [show ("\n" : String).toList = ['\n'] from rfl, List.singleton_append, this]
        simp
      by_cases hrest : rest = []
      · subst hrest
        rw [renderSql_single]
        exact hhead more
      · have htail := ih (fun x hx => hspoken x (List.mem_cons_of_mem _ hx))
          (fun x hx => hsep x (List.mem_cons_of_mem _ hx)) hrest
        have hcons : s :: rest = [s] ++ rest := rfl
        have hsame : s.sql.render d ++ "\n" ++ renderSql d rest ++ "\n" ++ more =
            s.sql.render d ++ "\n" ++ (renderSql d rest ++ "\n" ++ more) := by
          simp only [String.append_assoc]
        rw [hcons, renderSql_append (by simp) hrest, renderSql_single, pieces_append, hsame, hhead,
          htail, List.append_assoc]

theorem split_whole {stmts : List Stmt} (hspoken : Spoken stmts)
    (hsep : ∀ s ∈ stmts, s.Separable u d) :
    splitStatements u (renderSql d stmts) = pieces d stmts := by
  obtain rfl | ⟨init, s, rfl⟩ := List.eq_nil_or_concat stmts
  · rfl
  · rw [List.concat_eq_append] at hspoken hsep ⊢
    have hs : s ∈ init ++ [s] := by simp
    have hlast : splitStatements u (s.sql.render d) = pieces d [s] := by
      unfold splitStatements pieces
      rw [Stmt.split_last (hspoken s hs) (hsep s hs)]
      simp
    by_cases hinit : init = []
    · rw [hinit, List.nil_append, renderSql_single, hlast]
    · rw [renderSql_append hinit (by simp), renderSql_single, pieces_append, ← hlast]
      exact split_apart (fun x hx => hspoken x (List.mem_append_left _ hx))
        (fun x hx => hsep x (List.mem_append_left _ hx)) hinit _

-- Reading a longer start and a shorter one leaves what the statement between
-- them reads.
theorem SplitsBack.separable {stmts : List Stmt} (hspoken : Spoken stmts)
    (h : SplitsBack u d stmts) : ∀ s ∈ stmts, s.Separable u d := by
  intro s hs
  obtain ⟨a, b, rfl⟩ := List.append_of_mem hs
  rw [← Stmt.separable_iff (hspoken s hs)]
  have hread : ∀ text, splitStatements u (s.sql.render d ++ "\n" ++ text) =
      pieces d [s] ++ splitStatements u text := by
    intro text
    have hlong := h.apart (a ++ [s]) b (by simp) (by simp) text
    by_cases ha : a = []
    · subst ha
      rwa [List.nil_append, renderSql_single] at hlong
    · have hshort := h.apart a (s :: b) rfl ha (s.sql.render d ++ "\n" ++ text)
      rw [renderSql_append ha (by simp), renderSql_single, pieces_append] at hlong
      have hsame : renderSql d a ++ "\n" ++ s.sql.render d ++ "\n" ++ text =
          renderSql d a ++ "\n" ++ (s.sql.render d ++ "\n" ++ text) := by
        simp only [String.append_assoc]
      rw [hsame, hshort, List.append_assoc] at hlong
      exact List.append_cancel_left hlong
  intro more
  have := hread (String.ofList more)
  unfold splitStatements pieces at this
  rw [List.flatMap_cons, List.flatMap_nil, List.append_nil, ← List.map_append] at this
  have hinj : Function.Injective String.ofList := fun a b hab => by
    simpa using congrArg String.toList hab
  have hlists := List.map_injective_iff.mpr hinj this
  simpa using hlists

end

-- The script of a migration gives back the statements of its plan exactly when
-- each of them is separable.
theorem splits_back_iff (u : CharClass) (host : Host) (d : Dialect) (down : Bool)
    (prev next : Schema) (stmts : List Stmt)
    (hplan : (Planner.mk host prev next d (diff host prev next) down).plan = some stmts) :
    SplitsBack u d stmts ↔ ∀ s ∈ stmts, s.Separable u d := by
  have hspoken := spoken_plan hplan
  constructor
  · exact SplitsBack.separable hspoken
  · intro hsep
    refine ⟨split_whole hspoken hsep, ?_⟩
    intro a b heq hne more
    rw [heq] at hspoken hsep
    exact split_apart (fun x hx => hspoken x (List.mem_append_left _ hx))
      (fun x hx => hsep x (List.mem_append_left _ hx)) hne more

-- Users with a mail address, in the column of the given name.
def mailedAs (column : String) : Ast :=
  Build.schema "postgres" [Build.model "User" [Build.idField,
    Build.field "email" "String" .required [Build.attr "map" [Build.str column]]] []]

def mailStmts (column : String) : List Stmt :=
  ((upPlanner Host.std .postgres (mailedAs column).lowered.emptyLike (mailedAs column).lowered).plan).getD []

theorem splits_back_iff_email :
    SplitsBack .ascii .postgres (mailStmts "email") ↔
      ∀ s ∈ mailStmts "email", s.Separable .ascii .postgres :=
  splits_back_iff .ascii Host.std .postgres false (mailedAs "email").lowered.emptyLike
    (mailedAs "email").lowered _ (by decide +kernel)

-- The semicolon of a quoted column name ends a statement.
theorem cut_in_identifier :
    Accepted (mailedAs "e;mail").lowered ∧
      (mailStmts "e;mail").map (fun s => s.sql.render .postgres) =
        ["CREATE TABLE \"users\" (\"id\" INTEGER NOT NULL PRIMARY KEY, \"e;mail\" TEXT NOT NULL);"] ∧
      splitStatements .ascii (renderSql .postgres (mailStmts "e;mail")) =
        ["CREATE TABLE \"users\" (\"id\" INTEGER NOT NULL PRIMARY KEY, \"e", "mail\" TEXT NOT NULL)"] ∧
      ¬ SplitsBack .ascii .postgres (mailStmts "e;mail") := by
  refine ⟨accepted_lowered (by decide +kernel), by decide +kernel, by decide +kernel, fun h => ?_⟩
  have : splitStatements .ascii (renderSql .postgres (mailStmts "e;mail")) ≠
      pieces .postgres (mailStmts "e;mail") := by
    decide +kernel
  exact this h.whole

end Ruprizzle
