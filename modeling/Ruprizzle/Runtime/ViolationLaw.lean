import Mathlib.Data.List.DropRight
import Mathlib.Data.List.TakeWhile
import Ruprizzle.Runtime.Violations

namespace Ruprizzle.Runtime

namespace Retry

-- Where a text is found first.

variable {word a b more u v : List Char} {x : Char}

theorem cut_start {c : Char} (h : word.isPrefixOf (c :: a) = true) :
    cut word (c :: a) = some ([], (c :: a).drop word.length) := by
  rw [cut, if_pos h]

theorem cut_step {c : Char} (h : ¬word.isPrefixOf (c :: a) = true) :
    cut word (c :: a) = (cut word a).map fun (before, after) => (c :: before, after) := by
  rw [cut, if_neg h]

theorem cut_head (hword : word ≠ []) (rest : List Char) :
    cut word (word ++ rest) = some ([], rest) := by
  obtain ⟨c, tail, rfl⟩ := List.exists_cons_of_ne_nil hword
  have hstart : (c :: tail).isPrefixOf (c :: (tail ++ rest)) = true :=
    List.isPrefixOf_iff_prefix.mpr (List.prefix_append (c :: tail) rest)
  have hdrop : ((c :: tail) ++ rest).drop (c :: tail).length = rest := List.drop_left
  rw [List.cons_append, cut_start hstart]
  exact congrArg (fun l => some ([], l)) hdrop

theorem cut_some (hword : word ≠ []) (h : cut word a = some (u, v)) : a = u ++ word ++ v := by
  induction a generalizing u with
  | nil =>
      rw [cut, if_neg (by simpa using hword)] at h
      cases h
  | cons c rest ih =>
      by_cases hstart : word.isPrefixOf (c :: rest) = true
      · rw [cut_start hstart] at h
        obtain ⟨rfl, rfl⟩ := Prod.mk.inj (Option.some.inj h)
        obtain ⟨tail, htail⟩ := List.isPrefixOf_iff_prefix.mp hstart
        rw [← htail, List.nil_append, List.drop_left]
      · rw [cut_step hstart] at h
        obtain ⟨⟨u', v'⟩, hcut, heq⟩ := Option.map_eq_some_iff.mp h
        obtain ⟨rfl, rfl⟩ := Prod.mk.inj heq
        rw [ih hcut]
        rfl

theorem cut_none (h : ¬word <:+: a) : cut word a = none := by
  induction a with
  | nil =>
      have hword : word ≠ [] := fun hnil => h (hnil ▸ List.nil_infix)
      rw [cut, if_neg (by simpa using hword)]
  | cons c rest ih =>
      have hstart : ¬word.isPrefixOf (c :: rest) = true := fun hstart =>
        h (List.isPrefixOf_iff_prefix.mp hstart).isInfix
      rw [cut_step hstart, ih fun hrest => h (hrest.trans (List.suffix_cons c rest).isInfix)]
      rfl

theorem not_infix_of_cut (hword : word ≠ []) (h : cut word a = none) : ¬word <:+: a := by
  induction a with
  | nil => exact fun hinside => hword (List.infix_nil.mp hinside)
  | cons c rest ih =>
      by_cases hstart : word.isPrefixOf (c :: rest) = true
      · rw [cut_start hstart] at h
        cases h
      · rw [cut_step hstart] at h
        intro hinside
        rcases List.infix_cons_iff.mp hinside with hprefix | hrest
        · exact hstart (List.isPrefixOf_iff_prefix.mpr hprefix)
        · exact ih (Option.map_eq_none_iff.mp h) hrest

-- What is found in a text is found there in a longer one.
theorem cut_longer (hword : word ≠ []) (h : cut word a = some (u, v)) (more : List Char) :
    cut word (a ++ more) = some (u, v ++ more) := by
  induction a generalizing u with
  | nil =>
      rw [cut, if_neg (by simpa using hword)] at h
      cases h
  | cons c rest ih =>
      by_cases hstart : word.isPrefixOf (c :: rest) = true
      · obtain ⟨tail, htail⟩ := List.isPrefixOf_iff_prefix.mp hstart
        rw [← htail, cut_head hword] at h
        obtain ⟨rfl, rfl⟩ := Prod.mk.inj (Option.some.inj h)
        rw [← htail, List.append_assoc, cut_head hword]
      · rw [cut_step hstart] at h
        obtain ⟨⟨u', v'⟩, hcut, heq⟩ := Option.map_eq_some_iff.mp h
        obtain ⟨rfl, rfl⟩ := Prod.mk.inj heq
        have hlonger : ¬word.isPrefixOf (c :: (rest ++ more)) = true := by
          rw [List.isPrefixOf_iff_prefix] at hstart ⊢
          intro hlonger
          have hlength : word.length ≤ (c :: rest).length := by
            rw [cut_some hword hcut]
            simp only [List.length_cons, List.length_append]
            omega
          exact hstart (List.prefix_of_prefix_length_le hlonger (List.prefix_append _ more) hlength)
        rw [List.cons_append, cut_step hlonger, ih hcut]
        rfl

theorem cut_sign (h : x ∉ a) (b : List Char) : cut [x] (a ++ x :: b) = some (a, b) := by
  induction a with
  | nil => exact cut_head (List.cons_ne_nil x []) b
  | cons c rest ih =>
      rw [List.mem_cons, not_or] at h
      have hstart : ¬[x].isPrefixOf (c :: (rest ++ x :: b)) = true := by
        rw [List.isPrefixOf_cons_cons, Bool.and_eq_true, beq_iff_eq]
        exact fun hboth => h.1 hboth.1
      rw [List.cons_append, cut_step hstart, ih h.2]
      rfl

theorem cut_sign_none (h : x ∉ a) : cut [x] a = none :=
  cut_none fun hinside => h (hinside.subset List.mem_cons_self)

-- Up to a sign behind the text, the text is read to the first such sign in it.
theorem cut_sign_upto (a b : List Char) :
    ∃ rest, cut [x] (a ++ x :: b) = some (a.takeWhile (· ≠ x), rest) := by
  by_cases h : x ∈ a
  · obtain ⟨before, after, rfl, hbefore⟩ := List.eq_append_cons_of_mem h
    have hall : ∀ c ∈ before, decide (c ≠ x) = true := fun c hc =>
      decide_eq_true fun hcx => hbefore (hcx ▸ hc)
    refine ⟨after ++ x :: b, ?_⟩
    rw [List.append_assoc, List.cons_append, cut_sign hbefore, List.takeWhile_append_of_pos hall,
      List.takeWhile_cons_of_neg (by simp), List.append_nil]
  · have hall : ∀ c ∈ a, decide (c ≠ x) = true := fun c hc =>
      decide_eq_true fun hcx => h (hcx ▸ hc)
    exact ⟨b, by rw [cut_sign h, List.takeWhile_eq_self_iff.mpr hall]⟩

-- The columns of a key end where they have nothing like their end in them.
theorem cut_key (h : ¬")=(".toList <:+: a) (b : List Char) :
    cut ")=(".toList (a ++ (")=(".toList ++ b)) = some (a, b) := by
  have hword : ")=(".toList = [')', '=', '('] := rfl
  rw [hword] at h ⊢
  induction a with
  | nil => exact cut_head (List.cons_ne_nil _ _) b
  | cons c rest ih =>
      have hrest : ¬[')', '=', '('] <:+: rest := fun hrest =>
        h (hrest.trans (List.suffix_cons c rest).isInfix)
      have hstart : ¬[')', '=', '('].isPrefixOf (c :: (rest ++ ([')', '=', '('] ++ b))) = true := by
        rw [List.isPrefixOf_iff_prefix, List.cons_prefix_cons]
        rintro ⟨rfl, htail⟩
        cases rest with
        | nil => exact absurd (List.cons_prefix_cons.mp htail).1 (by decide)
        | cons d rest =>
            obtain ⟨rfl, hlast⟩ := List.cons_prefix_cons.mp htail
            cases rest with
            | nil => exact absurd (List.cons_prefix_cons.mp hlast).1 (by decide)
            | cons e rest =>
                obtain ⟨rfl, -⟩ := List.cons_prefix_cons.mp hlast
                exact h (List.prefix_append [')', '=', '('] rest).isInfix
      rw [List.cons_append, cut_step hstart, ih hrest]
      rfl

theorem cutLastDot_eq (h : '.' ∉ b) (a : List Char) :
    cutLastDot (a ++ '.' :: b) = some (String.ofList a, String.ofList b) := by
  have hreverse : (a ++ '.' :: b).reverse = b.reverse ++ '.' :: a.reverse := by simp
  rw [cutLastDot, hreverse, cut_sign (by rwa [List.mem_reverse])]
  simp only [List.reverse_reverse]

theorem cutLastDot_none (h : '.' ∉ a) : cutLastDot a = none := by
  rw [cutLastDot, cut_sign_none (by rwa [List.mem_reverse])]

theorem exists_last_dot (h : '.' ∈ a) :
    ∃ before after, a = before ++ '.' :: after ∧ '.' ∉ after := by
  obtain ⟨after, before, hreverse, hafter⟩ :=
    List.eq_append_cons_of_mem (List.mem_reverse.mpr h)
  refine ⟨before.reverse, after.reverse, ?_, by rwa [List.mem_reverse]⟩
  rw [← List.reverse_reverse a, hreverse]
  simp

end Retry

namespace Violations

open Retry

section Listing

variable {table first : String} {more : List String}

theorem listed_one (name : String) : listed [name] = name := String.intercalate_singleton

-- A first column with its table, and no more dots behind it where it is the only one.
theorem listed_columns (table first : String) (more : List String) : ∃ rest,
    (listed ((first :: more).map fun column => table ++ "." ++ column)).toList
      = table.toList ++ '.' :: (first.toList ++ rest) ∧ ('.' ∈ rest ↔ more ≠ []) ∧
      (more = [] → rest = []) := by
  cases more with
  | nil =>
      refine ⟨[], ?_, by simp, fun _ => rfl⟩
      rw [List.map_singleton, listed_one, List.append_nil]
      simp [String.toList_append]
  | cons second more =>
      refine ⟨", ".toList
        ++ (listed ((second :: more).map fun column => table ++ "." ++ column)).toList,
        ?_, ?_, by simp⟩
      · rw [listed, List.map_cons, List.map_cons, String.intercalate_cons_cons, ← List.map_cons]
        simp [String.toList_append, listed]
      · refine iff_of_true (List.mem_append_right _ ?_) (List.cons_ne_nil _ _)
        obtain ⟨after, hafter⟩ : ∃ after, (listed ((second :: more).map fun column =>
            table ++ "." ++ column)).toList = table.toList ++ '.' :: after := by
          cases more with
          | nil =>
              rw [List.map_singleton, listed_one]
              exact ⟨second.toList, by simp [String.toList_append]⟩
          | cons third more =>
              rw [listed, List.map_cons, List.map_cons, String.intercalate_cons_cons]
              exact ⟨_, by simp [String.toList_append]; rfl⟩
        rw [hafter]
        exact List.mem_append_right _ List.mem_cons_self

end Listing

-- A name that keeps its beginning, or nothing of it, when blanks are taken off there.
def KeepsStart (name : String) : Prop :=
  (∀ c, name.toList.head? = some c → Text.isWhitespace c = false) ∨
    ∀ c ∈ name.toList, Text.isWhitespace c = true

def KeepsEnd (name : String) : Prop :=
  (∀ c, name.toList.getLast? = some c → Text.isWhitespace c = false) ∨
    ∀ c ∈ name.toList, Text.isWhitespace c = true

-- A text up to a sign in it.
def upTo (x : Char) (text : List Char) : List Char := text.takeWhile (· ≠ x)

-- The texts that nothing wrong is read from.
def Clear : Report → Prop
  | .sqlite _ _ table first more =>
      more = [] ∧ '.' ∉ first.toList ∧ KeepsStart table ∧ KeepsEnd first
  | .key _ _ first more =>
      let columns := (listed ((first :: more).map Prod.fst)).toList
      let values := (listed ((first :: more).map Prod.snd)).toList
      ¬")=(".toList <:+: columns ∧ ')' ∉ values ∨
        ∃ rest, columns = ")=(".toList ++ rest ∧ upTo ')' rest = values
  | .onTable _ _ _ table _ => '"' ∉ table.toList ∨ table.toList.head? = some '"'
  | .inColumn _ _ _ table name _ =>
      let shown := upTo '"' name.toList
      '.' ∉ shown ∧ ('"' ∉ name.toList ∨ name.toList.head? = some '"') ∨
        shown = ['.'] ∨ shown = table.toList ++ ['.']

theorem exact_iff_taken (r : Report) : Exact r ↔
    ((taken r).1 = "" ∨ (taken r).1 = r.tableName) ∧
      ((taken r).2.1 = "" ∨ (taken r).2.1 = listed r.columns) ∧
      ((taken r).2.2 = none ∨ (taken r).2.2 = some (listed r.values)) := by
  unfold Exact
  rw [fields_error]
  constructor
  · rintro ⟨table, columns, value, htaken, hexact⟩
    obtain heq := Option.some.inj htaken
    rw [heq]
    exact hexact
  · intro h
    exact ⟨_, _, _, rfl, h⟩

theorem ofList_eq_iff {l : List Char} {s : String} : String.ofList l = s ↔ l = s.toList := by
  rw [← String.toList_inj, String.toList_ofList]

section Sqlite

theorem parse_sqlite (start rest : String) : parseSqliteConstraintColumns (start ++ rest) start
    = (cutLastDot (Text.trim rest.toList)).getD ("", "") := by
  have hstart : start.toList.isPrefixOf (start ++ rest).toList = true := by
    rw [String.toList_append]
    exact List.isPrefixOf_iff_prefix.mpr (List.prefix_append _ _)
  have hdrop : (start ++ rest).toList.drop start.length = rest.toList := by
    rw [String.toList_append, ← String.length_toList, List.drop_left]
  rw [parseSqliteConstraintColumns, if_pos hstart, hdrop]

theorem dropWhile_stop {p : Char → Bool} {x : Char} (h : p x = false) (a b : List Char) :
    (a ++ x :: b).dropWhile p = a.dropWhile p ++ x :: b := by
  induction a with
  | nil => exact List.dropWhile_cons_of_neg (by rw [h]; exact Bool.false_ne_true)
  | cons c rest ih =>
      by_cases hc : p c = true
      · rw [List.cons_append, List.dropWhile_cons_of_pos hc, List.dropWhile_cons_of_pos hc, ih]
      · rw [List.cons_append, List.dropWhile_cons_of_neg hc, List.dropWhile_cons_of_neg hc]
        rfl

theorem trim_dot (a b : List Char) : Text.trim (a ++ '.' :: b)
    = a.dropWhile Text.isWhitespace ++ '.' :: b.rdropWhile Text.isWhitespace := by
  have hdot : Text.isWhitespace '.' = false := rfl
  have hreverse : (a.dropWhile Text.isWhitespace ++ '.' :: b).reverse
      = b.reverse ++ '.' :: (a.dropWhile Text.isWhitespace).reverse := by simp
  rw [Text.trim, dropWhile_stop hdot, hreverse, dropWhile_stop hdot]
  simp [List.rdropWhile]

theorem mem_rdropWhile_dot {b : List Char} :
    '.' ∈ b.rdropWhile Text.isWhitespace ↔ '.' ∈ b := by
  constructor
  · exact fun h => (List.rdropWhile_prefix _ b).subset h
  · intro h
    have hsplit : b.rdropWhile Text.isWhitespace ++ b.rtakeWhile Text.isWhitespace = b :=
      List.rdropWhile_append_rtakeWhile
    rw [← hsplit, List.mem_append] at h
    refine h.resolve_right fun hblank => ?_
    have hwhite := List.mem_rtakeWhile_imp hblank
    exact absurd hwhite (by decide)

theorem keepsStart_iff {name : String} : KeepsStart name ↔
    name.toList.dropWhile Text.isWhitespace = [] ∨
      name.toList.dropWhile Text.isWhitespace = name.toList := by
  rw [KeepsStart, or_comm, List.dropWhile_eq_nil_iff]
  refine or_congr_right ?_
  cases name.toList with
  | nil => simp
  | cons c rest => rw [List.dropWhile_eq_self_iff]; simp

theorem keepsEnd_iff {name : String} : KeepsEnd name ↔
    name.toList.rdropWhile Text.isWhitespace = [] ∨
      name.toList.rdropWhile Text.isWhitespace = name.toList := by
  rw [KeepsEnd, or_comm, List.rdropWhile_eq_nil_iff, List.rdropWhile_eq_self_iff]
  refine or_congr_right ⟨fun h hne => ?_, fun h c hc => ?_⟩
  · rw [h _ (List.getLast?_eq_getLast_of_ne_nil hne)]
    exact Bool.false_ne_true
  · have hne : name.toList ≠ [] := by
      intro hnil
      rw [hnil] at hc
      cases hc
    rw [List.getLast?_eq_getLast_of_ne_nil hne] at hc
    rw [← Option.some.inj hc]
    exact (Bool.not_eq_true _).mp (h hne)

-- What goes on behind the table is never taken for the table.
theorem table_ne {a b : List Char} :
    a.dropWhile Text.isWhitespace ++ '.' :: b ≠ [] ∧
      a.dropWhile Text.isWhitespace ++ '.' :: b ≠ a := by
  refine ⟨List.append_ne_nil_of_right_ne_nil _ (List.cons_ne_nil _ _), fun heq => ?_⟩
  have hdot : Text.isWhitespace '.' = false := rfl
  have hdrop := congrArg (List.dropWhile Text.isWhitespace) heq
  rw [dropWhile_stop hdot, List.dropWhile_idempotent] at hdrop
  have hlength := congrArg List.length hdrop
  rw [List.length_append, List.length_cons] at hlength
  omega

theorem sqlite_iff (kind : ConstraintKind) (primary : Bool) (table first : String)
    (more : List String) : Exact (.sqlite kind primary table first more) ↔
      Clear (.sqlite kind primary table first more) := by
  obtain ⟨rest, htext, hdots, hnone⟩ := listed_columns table first more
  have hparse : parseSqliteConstraintColumns
      (Report.sqlite kind primary table first more).text (sqliteStart kind) =
        (cutLastDot (table.toList.dropWhile Text.isWhitespace ++
          '.' :: (first.toList ++ rest).rdropWhile Text.isWhitespace)).getD ("", "") := by
    have hmessage : (Report.sqlite kind primary table first more).text = sqliteStart kind
        ++ listed ((first :: more).map fun column => table ++ "." ++ column) := rfl
    rw [hmessage, parse_sqlite, htext, trim_dot]
  have htaken : taken (.sqlite kind primary table first more) =
      ((parseSqliteConstraintColumns (Report.sqlite kind primary table first more).text
          (sqliteStart kind)).1,
        (parseSqliteConstraintColumns (Report.sqlite kind primary table first more).text
          (sqliteStart kind)).2, none) := rfl
  rw [exact_iff_taken, htaken, hparse]
  by_cases hdot : '.' ∈ first.toList ++ rest
  · obtain ⟨before, after, hsplit, hafter⟩ := exists_last_dot (mem_rdropWhile_dot.mpr hdot)
    have hcut := cutLastDot_eq hafter
      (table.toList.dropWhile Text.isWhitespace ++ '.' :: before)
    rw [List.append_assoc, List.cons_append] at hcut
    rw [hsplit, hcut]
    refine iff_of_false ?_ ?_
    · rintro ⟨htable | htable, -⟩
      · exact table_ne.1 (ofList_eq_iff.mp htable)
      · exact table_ne.2 (ofList_eq_iff.mp htable)
    · rintro ⟨hmore, hfirst, -⟩
      rw [hnone hmore, List.append_nil] at hdot
      exact hfirst hdot
  · obtain ⟨hfirst, hrest⟩ := not_or.mp (mt List.mem_append.mpr hdot)
    have hmore : more = [] := not_not.mp (mt hdots.mpr hrest)
    subst hmore
    rw [hnone rfl, List.append_nil] at hdot ⊢
    rw [cutLastDot_eq (mt mem_rdropWhile_dot.mp hdot)]
    simp only [Option.getD_some, ofList_eq_iff, Report.tableName, Report.columns, listed_one, Clear,
      keepsStart_iff, keepsEnd_iff, String.toList_empty, true_or, and_true, true_and]
    exact (and_iff_right hfirst).symm

end Sqlite

section Signs

variable {x : Char} {l : List Char}

theorem upTo_eq_self : upTo x l = l ↔ x ∉ l := by
  rw [upTo, List.takeWhile_eq_self_iff]
  constructor
  · exact fun h hx => of_decide_eq_true (h x hx) rfl
  · exact fun h c hc => decide_eq_true fun hcx => h (hcx ▸ hc)

theorem upTo_self (x : Char) (l : List Char) : upTo x (x :: l) = [] :=
  List.takeWhile_cons_of_neg (by simp)

theorem upTo_cons {c : Char} (h : c ≠ x) (l : List Char) : upTo x (c :: l) = c :: upTo x l :=
  List.takeWhile_cons_of_pos (decide_eq_true h)

theorem upTo_keeps : (upTo x l = [] ∨ upTo x l = l) ↔ (x ∉ l ∨ l.head? = some x) := by
  rw [upTo_eq_self, or_comm]
  cases l with
  | nil => simp
  | cons c rest =>
      refine or_congr_right ?_
      rw [List.head?_cons, Option.some.injEq]
      by_cases hc : c = x
      · rw [hc]
        exact iff_of_true (upTo_self x rest) rfl
      · rw [upTo_cons hc]
        exact iff_of_false (List.cons_ne_nil _ _) hc

theorem upTo_doubled (l : List Char) : upTo x (Text.doubled x l) = upTo x l := by
  induction l with
  | nil => rfl
  | cons c rest ih =>
      have hcons : Text.doubled x (c :: rest)
          = (if c = x then [c, c] else [c]) ++ Text.doubled x rest := rfl
      rw [hcons]
      by_cases hc : c = x
      · rw [if_pos hc, hc]
        exact (upTo_self x _).trans (upTo_self x rest).symm
      · rw [if_neg hc, List.singleton_append, upTo_cons hc, upTo_cons hc, ih]

theorem upTo_written (doubled : Bool) (name : String) :
    upTo '"' (written doubled name).toList = upTo '"' name.toList := by
  cases doubled with
  | false => rfl
  | true =>
      rw [written, if_pos rfl, String.toList_ofList]
      exact upTo_doubled name.toList

end Signs

section Key

variable {columns values : String} {u v : List Char}

theorem keyText_toList (columns values : String) : (keyText columns values).toList =
    "Key (".toList ++ (columns.toList ++ (")=(".toList ++
      (values.toList ++ ')' :: " already exists.".toList))) := by
  unfold keyText
  simp [String.toList_append]

theorem parse_key {before after : List Char} (h : cut ")=(".toList (columns.toList ++
      (")=(".toList ++ (values.toList ++ ')' :: " already exists.".toList)))
        = some (before, after ++ ')' :: v)) :
    parsePostgresKeyDetail (keyText columns values)
      = ("", String.ofList before, some (String.ofList (upTo ')' after))) := by
  obtain ⟨later, hparen⟩ := cut_sign_upto (x := ')') after v
  have hword : ")".toList = [')'] := rfl
  rw [parsePostgresKeyDetail, keyText_toList, cut_head (by decide)]
  simp only [h]
  rw [hword, hparen]
  rfl

theorem key_iff (native : Bool) (table : String) (first : String × String)
    (more : List (String × String)) :
    Exact (.key native table first more) ↔ Clear (.key native table first more) := by
  generalize hcolumns : listed ((first :: more).map Prod.fst) = columns
  generalize hvalues : listed ((first :: more).map Prod.snd) = values
  have hclear : Clear (.key native table first more) ↔
      ¬")=(".toList <:+: columns.toList ∧ ')' ∉ values.toList ∨
        ∃ rest, columns.toList = ")=(".toList ++ rest ∧ upTo ')' rest = values.toList := by
    rw [← hcolumns, ← hvalues]
    rfl
  have htaken : taken (.key native table first more)
      = parsePostgresKeyDetail (keyText columns values) := by
    rw [← hcolumns, ← hvalues]
    rfl
  have hlisted : listed (Report.key native table first more).columns = columns ∧
      listed (Report.key native table first more).values = values := ⟨hcolumns, hvalues⟩
  have hword : ")=(".toList ≠ [] := by decide
  rw [exact_iff_taken, htaken, hclear, hlisted.1, hlisted.2]
  cases hcut : cut ")=(".toList columns.toList with
  | none =>
      have hinside := not_infix_of_cut hword hcut
      rw [parse_key (cut_key hinside _)]
      have hnot : ¬∃ rest,
          columns.toList = ")=(".toList ++ rest ∧ upTo ')' rest = values.toList := by
        rintro ⟨rest, hstart, -⟩
        rw [hstart] at hinside
        exact hinside (List.prefix_append _ rest).isInfix
      rw [or_iff_left hnot, and_iff_right hinside]
      simp [String.ofList_toList, ofList_eq_iff, upTo_eq_self]
  | some found =>
      obtain ⟨u, v⟩ := found
      have hsplit := cut_some hword hcut
      have hinside : ")=(".toList <:+: columns.toList := ⟨u, v, hsplit.symm⟩
      have hlonger := cut_longer hword hcut
        (")=(".toList ++ (values.toList ++ ')' :: " already exists.".toList))
      have hnot : ¬(¬")=(".toList <:+: columns.toList ∧ ')' ∉ values.toList) :=
        fun hleft => hleft.1 hinside
      rw [parse_key hlonger, or_iff_right hnot]
      simp only [true_or, true_and, ofList_eq_iff, String.toList_empty, reduceCtorEq, false_or,
        Option.some.injEq]
      constructor
      · rintro ⟨hu | hu, hv⟩
        · exact ⟨v, by rw [hsplit, hu, List.nil_append], hv⟩
        · have hlength := congrArg List.length hsplit
          rw [← hu, List.length_append, List.length_append] at hlength
          have hpos := List.length_pos_iff.mpr hword
          omega
      · rintro ⟨rest, hstart, hv⟩
        rw [hstart, cut_head hword] at hcut
        obtain ⟨rfl, rfl⟩ := Prod.mk.inj (Option.some.inj hcut)
        exact ⟨.inl rfl, hv⟩

end Key

section Table

theorem table_iff (native doubled : Bool) (side : Side) (table rest : String) :
    Exact (.onTable native doubled side table rest) ↔
      Clear (.onTable native doubled side table rest) := by
  have hhead : cut "table \"".toList (side.text ++ "on table \"").toList
      = some ((side.text ++ "on ").toList, []) := by
    cases side <;> rfl
  have htext : (Report.onTable native doubled side table rest).text.toList
      = (side.text ++ "on table \"").toList
        ++ ((written doubled table).toList ++ '"' :: (" violates " ++ rest).toList) := by
    have hmessage : (Report.onTable native doubled side table rest).text = side.text
        ++ "on table \"" ++ written doubled table ++ "\" violates " ++ rest := rfl
    rw [hmessage]
    simp [String.toList_append]
  obtain ⟨later, hquote⟩ := cut_sign_upto (x := '"') (written doubled table).toList
    (" violates " ++ rest).toList
  have hparse : parsePostgresTableColumn (Report.onTable native doubled side table rest).text
      = (String.ofList (upTo '"' table.toList), "") := by
    have hword : "\"".toList = ['"'] := rfl
    rw [parsePostgresTableColumn, htext, cut_longer (by decide) hhead]
    simp only [List.nil_append]
    rw [hword, hquote, ← upTo_written doubled]
    rfl
  have htaken : taken (.onTable native doubled side table rest) =
      ((parsePostgresTableColumn (Report.onTable native doubled side table rest).text).1,
        (parsePostgresTableColumn (Report.onTable native doubled side table rest).text).2, none) :=
    rfl
  rw [exact_iff_taken, htaken, hparse]
  simp only [true_or, and_true, ofList_eq_iff, String.toList_empty]
  exact upTo_keeps

end Table

section Column

theorem cutLastDot_unique {before after x : List Char} (hafter : '.' ∉ after)
    (h : before ++ '.' :: after = x ++ ['.']) : before = x ∧ after = [] := by
  have hone := cutLastDot_eq hafter before
  rw [h, cutLastDot_eq List.not_mem_nil x] at hone
  obtain ⟨hbefore, hnil⟩ := Prod.mk.inj (Option.some.inj hone)
  rw [ofList_eq_iff, String.toList_ofList] at hbefore hnil
  exact ⟨hbefore.symm, hnil.symm⟩

theorem column_iff (native doubled : Bool) (fault : ColumnFault) (table name rest : String) :
    Exact (.inColumn native doubled fault table name rest) ↔
      Clear (.inColumn native doubled fault table name rest) := by
  have hhead : cut "column \"".toList "null value in column \"".toList
      = some ("null value in ".toList, []) := rfl
  have htext : (Report.inColumn native doubled fault table name rest).text.toList
      = "null value in column \"".toList
        ++ ((written doubled name).toList ++ '"' :: (" " ++ rest).toList) := by
    have hmessage : (Report.inColumn native doubled fault table name rest).text
        = "null value in column \"" ++ written doubled name ++ "\" " ++ rest := rfl
    rw [hmessage]
    simp [String.toList_append]
  obtain ⟨later, hquote⟩ := cut_sign_upto (x := '"') (written doubled name).toList
    (" " ++ rest).toList
  have hparse : parsePostgresTableColumnSingle
      (Report.inColumn native doubled fault table name rest).text
        = (cutLastDot (upTo '"' name.toList)).getD ("", String.ofList (upTo '"' name.toList)) := by
    have hword : "\"".toList = ['"'] := rfl
    rw [parsePostgresTableColumnSingle, htext, cut_longer (by decide) hhead]
    simp only [List.nil_append]
    rw [hword, hquote, ← upTo_written doubled]
    rfl
  have htaken : taken (.inColumn native doubled fault table name rest) =
      ((parsePostgresTableColumnSingle
          (Report.inColumn native doubled fault table name rest).text).1,
        (parsePostgresTableColumnSingle
          (Report.inColumn native doubled fault table name rest).text).2, none) := rfl
  have hlisted : listed (Report.inColumn native doubled fault table name rest).columns = name :=
    listed_one name
  have htable : (Report.inColumn native doubled fault table name rest).tableName = table := rfl
  have hclear : Clear (.inColumn native doubled fault table name rest) ↔
      '.' ∉ upTo '"' name.toList ∧ ('"' ∉ name.toList ∨ name.toList.head? = some '"') ∨
        upTo '"' name.toList = ['.'] ∨ upTo '"' name.toList = table.toList ++ ['.'] := Iff.rfl
  rw [exact_iff_taken, htaken, hparse, hlisted, htable, hclear, ← upTo_keeps]
  simp only [true_or, and_true]
  have hlength : (upTo '"' name.toList).length ≤ name.toList.length :=
    (List.takeWhile_prefix _).length_le
  by_cases hdot : '.' ∈ upTo '"' name.toList
  · obtain ⟨before, after, hsplit, hafter⟩ := exists_last_dot hdot
    have hnot : ¬('.' ∉ upTo '"' name.toList ∧
        (upTo '"' name.toList = [] ∨ upTo '"' name.toList = name.toList)) :=
      fun hleft => hleft.1 hdot
    rw [or_iff_right hnot, hsplit, cutLastDot_eq hafter]
    simp only [Option.getD_some, ofList_eq_iff, String.toList_empty]
    rw [hsplit, List.length_append, List.length_cons] at hlength
    constructor
    · rintro ⟨hbefore, hend | hend⟩
      · rw [hend]
        rcases hbefore with hbefore | hbefore
        · exact .inl (by rw [hbefore]; rfl)
        · exact .inr (by rw [hbefore])
      · rw [hend] at hlength
        omega
    · rintro (hsame | hsame)
      · obtain ⟨hbefore, hend⟩ := cutLastDot_unique (x := []) hafter hsame
        exact ⟨.inl hbefore, .inl hend⟩
      · obtain ⟨hbefore, hend⟩ := cutLastDot_unique hafter hsame
        exact ⟨.inr hbefore, .inl hend⟩
  · have hnot : ¬(upTo '"' name.toList = ['.'] ∨ upTo '"' name.toList = table.toList ++ ['.']) := by
      rintro (hsame | hsame)
      · exact hdot (hsame ▸ List.mem_singleton_self '.')
      · exact hdot (hsame ▸ List.mem_append_right _ (List.mem_singleton_self '.'))
    rw [or_iff_left hnot, and_iff_right hdot, cutLastDot_none hdot]
    simp only [Option.getD_none, true_or, true_and, ofList_eq_iff, String.toList_empty]

end Column

-- Nothing wrong is read from the texts that are clear, and something wrong from all others.
theorem exact_iff (r : Report) : Exact r ↔ Clear r := by
  cases r with
  | sqlite kind primary table first more => exact sqlite_iff kind primary table first more
  | key native table first more => exact key_iff native table first more
  | onTable native doubled side table rest => exact table_iff native doubled side table rest
  | inColumn native doubled fault table name rest =>
      exact column_iff native doubled fault table name rest

-- A key of two columns.
theorem pair_not_exact : ¬Exact (.sqlite .unique false "Membership" "user_id" ["team_id"]) := by
  rw [sqlite_iff]
  rintro ⟨hmore, -⟩
  cases hmore

end Violations

end Ruprizzle.Runtime
