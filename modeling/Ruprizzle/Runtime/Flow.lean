import Ruprizzle.Data.Run
import Ruprizzle.Runtime.Renumber

namespace Ruprizzle.Runtime

-- A token of a statement, or a value in the place of its placeholder.
inductive Piece
  | token (t : Token)
  | value (v : Value)

-- The tokens with the values in the places of the placeholders. The i-th
-- placeholder has to be the one the dialect writes for the i-th value, and every
-- value has to have one.
def fill (d : Dialect) : Nat → List Value → List Token → Option (List Piece)
  | _, values, [] => if values.isEmpty then some [] else none
  | k, values, t :: rest =>
      if t.kind = .param then
        match values with
        | v :: values =>
            if t.text = placeholder d k then (fill d (k + 1) values rest).map (.value v :: ·)
            else none
        | [] => none
      else (fill d k values rest).map (.token t :: ·)

theorem fill_token {d : Dialect} {k : Nat} {values : List Value} {t : Token} {rest : List Token}
    (h : t.kind ≠ .param) :
    fill d k values (t :: rest) = (fill d k values rest).map (.token t :: ·) := by
  cases values <;> simp [fill, h]

theorem fill_param {d : Dialect} {k : Nat} {v : Value} {values : List Value} {t : Token}
    {rest : List Token} (h : t.kind = .param) (htext : t.text = placeholder d k) :
    fill d k (v :: values) (t :: rest) = (fill d (k + 1) values rest).map (.value v :: ·) := by
  simp [fill, h, htext]

theorem fill_nil {d : Dialect} {k : Nat} {values : List Value} {pieces : List Piece}
    (h : fill d k values [] = some pieces) : values = [] ∧ pieces = [] := by
  cases values with
  | nil => exact ⟨rfl, by simpa [fill] using h.symm⟩
  | cons v values => simp [fill] at h

-- The first token is itself or the place of the first value.
theorem fill_cons {d : Dialect} {k : Nat} {values : List Value} {t : Token} {rest : List Token}
    {pieces : List Piece} (h : fill d k values (t :: rest) = some pieces) :
    (t.kind ≠ .param ∧ ∃ later, fill d k values rest = some later ∧ pieces = .token t :: later) ∨
    (t.kind = .param ∧ t.text = placeholder d k ∧ ∃ v later values', values = v :: values' ∧
      fill d (k + 1) values' rest = some later ∧ pieces = .value v :: later) := by
  by_cases hparam : t.kind = .param
  · right
    cases values with
    | nil => simp [fill, hparam] at h
    | cons v values =>
        by_cases htext : t.text = placeholder d k
        · rw [fill_param hparam htext] at h
          obtain ⟨later, hlater, hpieces⟩ := Option.map_eq_some_iff.mp h
          exact ⟨hparam, htext, v, later, values, rfl, hlater, hpieces.symm⟩
        · simp [fill, hparam, htext] at h
  · left
    rw [fill_token hparam] at h
    obtain ⟨later, hlater, hpieces⟩ := Option.map_eq_some_iff.mp h
    exact ⟨hparam, later, hlater, hpieces.symm⟩

theorem fill_append {d : Dialect} {k : Nat} {values values' : List Value} {a b : List Token}
    {pieces pieces' : List Piece} (ha : fill d k values a = some pieces)
    (hb : fill d (k + values.length) values' b = some pieces') :
    fill d k (values ++ values') (a ++ b) = some (pieces ++ pieces') := by
  induction a generalizing k values pieces with
  | nil =>
      obtain ⟨rfl, rfl⟩ := fill_nil ha
      exact hb
  | cons t rest ih =>
      rcases fill_cons ha with ⟨hparam, later, hlater, rfl⟩ |
        ⟨hparam, htext, v, later, values, rfl, hlater, rfl⟩
      · rw [List.cons_append, fill_token hparam, ih hlater hb]
        rfl
      · have hnext : k + (v :: values).length = k + 1 + values.length := by
          simp only [List.length_cons]
          omega
        rw [List.cons_append, List.cons_append, fill_param hparam htext, ih hlater (hnext ▸ hb)]
        rfl

def noParam (ts : List Token) : Bool := ts.all fun t => t.kind ≠ .param

theorem fill_noParam {ts : List Token} (d : Dialect) (k : Nat) (h : noParam ts = true) :
    fill d k [] ts = some (ts.map .token) := by
  induction ts with
  | nil => rfl
  | cons t rest ih =>
      simp only [noParam, List.all_cons, Bool.and_eq_true, decide_eq_true_eq] at h ih
      rw [fill, if_neg h.1, ih h.2]
      rfl

def renumberPiece (offset : Nat) : Piece → Piece
  | .token t => .token (renumberToken offset t)
  | .value v => .value v

theorem renumber_placeholder (d : Dialect) (offset k : Nat) :
    renumber offset (placeholder d k) = placeholder d (k + offset) := by
  cases d with
  | postgres =>
      obtain ⟨first, more, hdigits, hfirst, hmore⟩ := shifted_digits 0 (Nat.toDigits 10 (k + 1))
      have hplain : Nat.toDigits 10 (k + 1) = first :: more := by
        rw [← hdigits, shifted, Nat.ofDigitChars_ten_toDigits, Nat.add_zero]
      have hnum : renumber offset ('$' :: first :: more ++ [])
          = '$' :: shifted offset (first :: more) ++ renumber offset [] :=
        renumber_dollar offset hfirst hmore (by simp)
      rw [List.append_nil, ← hplain, renumber_nil, List.append_nil, shifted,
        Nat.ofDigitChars_ten_toDigits] at hnum
      simpa only [placeholder, Nat.add_right_comm] using hnum
  | mysql => rfl
  | sqlite => rfl

theorem fill_renumber {d : Dialect} {k : Nat} {values : List Value} {ts : List Token}
    {pieces : List Piece} (offset : Nat) (h : fill d k values ts = some pieces) :
    fill d (k + offset) values (ts.map (renumberToken offset))
      = some (pieces.map (renumberPiece offset)) := by
  induction ts generalizing k values pieces with
  | nil =>
      obtain ⟨rfl, rfl⟩ := fill_nil h
      rfl
  | cons t rest ih =>
      rcases fill_cons h with ⟨hparam, later, hlater, rfl⟩ |
        ⟨hparam, htext, v, later, values, rfl, hlater, rfl⟩
      · have hkind : (renumberToken offset t).kind ≠ .param := hparam
        rw [List.map_cons, fill_token hkind, ih hlater]
        rfl
      · have hkind : (renumberToken offset t).kind = .param := hparam
        have hnew : (renumberToken offset t).text = placeholder d (k + offset) := by
          rw [renumberToken, htext, renumber_placeholder]
        have hrest := ih hlater
        rw [Nat.add_right_comm] at hrest
        rw [List.map_cons, fill_param hkind hnew, hrest]
        rfl

-- What is known of the reading where a push begins: the mode, or only that no
-- quote and no comment is open.
inductive Edge
  | at_ (m : Mode)
  | outside
  deriving DecidableEq, Repr

namespace Edge

def Holds : Edge → Mode → Prop
  | at_ m, m' => m' = m
  | outside, m' => m'.Outside

-- No token goes on from the edge into the text.
def joins (d : Dialect) : Edge → List Char → Bool
  | _, [] => true
  | at_ m, c :: _ => decide (Lexer.scan d m c = Lexer.scan d .gap c)
  | outside, c :: _ => c = ' ' ∨ c = ')' ∨ c = ','

def past (d : Dialect) (e : Edge) (text : List Char) : Edge :=
  if text = [] then e else at_ (modeAfter d text)

end Edge

def identQuote : Dialect → Quote
  | .postgres => .double
  | .mysql | .sqlite => .backtick

def placeholderSign : Dialect → Char
  | .postgres => '$'
  | .mysql | .sqlite => '?'

-- Text that has no placeholder of its own and begins its own tokens.
def textFlow (d : Dialect) (e : Edge) (text : List Char) : Option Edge :=
  if e.joins d text && noParam (tokens d text) then some (e.past d text) else none

-- A placeholder, where one can begin.
def bindFlow (d : Dialect) : Edge → Option Edge
  | .at_ m =>
      if Lexer.scan d m (placeholderSign d) = (.start .param, .param) then some (.at_ .param)
      else none
  | .outside => none

variable {S : Type}

-- How a push is read. Names and statements stand between tokens.
def flowPush (d : Dialect) (e : Edge) : Push S → Option Edge
  | .str s => textFlow d e s.toList
  | .bind _ => bindFlow d e
  | .quoted _ => if e = .at_ .gap then some (.at_ (.closing (identQuote d))) else none
  | .subquery _ | .renumbered _ => if e = .at_ .gap then some .outside else none

def flow (d : Dialect) (e : Edge) (pushes : List (Push S)) : Option Edge :=
  pushes.foldlM (flowPush d) e

theorem flow_append {d : Dialect} {e e' : Edge} {a b : List (Push S)} (ha : flow d e a = some e') :
    flow d e (a ++ b) = flow d e' b := by
  rw [flow, Run.foldlM_append]
  simp only [flow] at ha
  rw [ha]
  rfl

theorem flow_cons {d : Dialect} {e e' : Edge} {p : Push S} {rest : List (Push S)}
    (hp : flowPush d e p = some e') : flow d e (p :: rest) = flow d e' rest := by
  rw [flow, Run.foldlM_cons, hp]
  rfl

end Ruprizzle.Runtime
