import Ruprizzle.Runtime.Closed
import Ruprizzle.Runtime.Watch

namespace Ruprizzle.Runtime

open ContextFree

-- The phrases that are made by what is pushed.

def Lexeme.ofPiece : Piece → Lexeme
  | .token t => .of t
  | .value _ => .value

variable {S : Type}

section

variable (d : Dialect) (reading : S → List Lexeme)

def lexemes (pushes : List (Push S)) : List Lexeme :=
  template Lexeme.ofPiece d (pushes.map (Push.map reading))

-- What makes the parts of a form, in words or in what is pushed.
def Makes (form : List (Symbol Lexeme Phrase)) (ws : List Lexeme) : Prop :=
  Yields (grammar d) form ws

def Fits (form : List (Symbol Lexeme Phrase)) (pushes : List (Push S)) : Prop :=
  Makes d form (lexemes d reading pushes)

def Forms (n : Phrase) (pushes : List (Push S)) : Prop := Fits d reading [part n] pushes

end

variable {d : Dialect} {reading : S → List Lexeme} {a b : List (Symbol Lexeme Phrase)}
  {p q rest : List (Push S)} {n : Phrase}

@[simp] theorem lexemes_nil : lexemes d reading [] = [] := rfl

@[simp] theorem lexemes_append (p q : List (Push S)) :
    lexemes d reading (p ++ q) = lexemes d reading p ++ lexemes d reading q := by
  simp [lexemes, template]

theorem lexemes_cons (x : Push S) (rest : List (Push S)) :
    lexemes d reading (x :: rest) = lexemes d reading [x] ++ lexemes d reading rest :=
  lexemes_append [x] rest

theorem lexemes_subquery (s : S) : lexemes d reading [.subquery s] = reading s := by
  simp [lexemes, template, Push.map, Push.slots]

theorem lexemes_renumbered (s : S) : lexemes d reading [.renumbered s] = reading s := by
  simp [lexemes, template, Push.map, Push.slots]

theorem lexemes_str (s : String) :
    lexemes d reading [.str s] = (tokens d s.toList).map Lexeme.of := by
  simp [lexemes, template, Push.map, Push.slots, Lexeme.ofPiece]

theorem lexemes_separated {sep : String} {w : Lexeme} (hsep : lexemes d reading [.str sep] = [w])
    (items : List (List (Push S))) :
    lexemes d reading (separated sep items)
      = Nesting.joined w (items.map (lexemes d reading)) := by
  induction items with
  | nil => rfl
  | cons item rest ih =>
      cases rest with
      | nil => rfl
      | cons next rest =>
          rw [separated, lexemes_append, lexemes_cons, hsep, ih]
          · rfl
          · simp

instance (P : Dialect → Prop) [DecidablePred P] : Decidable (∀ d, P d) :=
  decidable_of_iff (P .postgres ∧ P .mysql ∧ P .sqlite)
    ⟨fun h d => by cases d <;> tauto, fun h => ⟨h _, h _, h _⟩⟩

namespace Makes

variable {v ws : List Lexeme}

theorem nil : Makes d [] [] := Yields.nil

theorem cons (w : Lexeme) (h : Makes d a ws) : Makes d (sign w :: a) (w :: ws) := Yields.cons w h

theorem append (hv : Makes d a v) (hws : Makes d b ws) : Makes d (a ++ b) (v ++ ws) :=
  Yields.append hv hws

theorem own (h : Makes d a ws) (hrule : (⟨n, a⟩ : Rule) ∈ rules d) : Makes d [part n] ws :=
  Spells.of_rule (g := grammar d) ((List.mem_toFinset (α := Rule)).mpr hrule) h

theorem rule (h : Makes d a ws)
    (hrule : (⟨n, a⟩ : Rule) ∈ queryRules ++ conditionRules) :
    Makes d [part n] ws := h.own (List.mem_append_left _ hrule)

end Makes

namespace Fits

theorem nil : Fits d reading [] [] := Makes.nil

theorem append (hp : Fits d reading a p) (hq : Fits d reading b q) :
    Fits d reading (a ++ b) (p ++ q) := by
  rw [Fits, lexemes_append]
  exact Makes.append hp hq

theorem of_eq (h : a = (lexemes d reading p).map .terminal) : Fits d reading a p := by
  rw [h]
  exact ContextFreeGrammar.Derives.refl _

-- A text by its signs, on one dialect.
theorem read {s : String}
    (h : a = ((tokens d s.toList).map Lexeme.of).map .terminal) :
    Fits d reading a [.str s] := of_eq (by rw [lexemes_str, h])

-- A text of the same signs on all dialects.
theorem text {s : String}
    (h : ∀ d, a = ((tokens d s.toList).map Lexeme.of).map .terminal) :
    Fits d reading a [.str s] := read (h d)

theorem rule (h : Fits d reading a p)
    (hrule : (⟨n, a⟩ : Rule) ∈ queryRules ++ conditionRules) :
    Forms d reading n p := Makes.rule h hrule

theorem own (h : Fits d reading a p) (hrule : (⟨n, a⟩ : Rule) ∈ rules d) : Forms d reading n p :=
  Makes.own h hrule

-- A part in the middle may be what one of its rules says.
theorem expand {c : List (Symbol Lexeme Phrase)} (h : Fits d reading (a ++ c ++ b) p)
    (hrule : (⟨n, c⟩ : Rule) ∈ queryRules ++ conditionRules) :
    Fits d reading (a ++ [part n] ++ b) p := by
  refine (ContextFreeGrammar.Produces.single ?_).trans h
  exact ⟨⟨n, c⟩, (List.mem_toFinset (α := Rule)).mpr (List.mem_append_left _ hrule),
    ContextFreeRule.rewrites_of_exists_parts _ a b⟩

theorem quoted (name : String) : Fits d reading [sign .name] [.quoted name] := of_eq rfl

theorem bind (v : Value) : Fits d reading [sign .value] [.bind v] := of_eq rfl

end Fits

namespace Forms

theorem bind (v : Value) : Forms d reading .term [.bind v] := (Fits.bind v).rule (by decide)

theorem comma : Fits d reading [sign .comma] [.str ", "] :=
  .text (by decide)

theorem close : Fits d reading [sign .close] [.str ")"] :=
  .text (by decide)

theorem open_ : Fits d reading [sign .open_] [.str "("] :=
  .text (by decide)

theorem column (table column : String) : Forms d reading .term (pushColumn table column) := by
  have hdot : Fits d reading [sign .dot] [.str "."] := .text (by decide)
  exact ((Fits.quoted table).append (hdot.append (Fits.quoted column))).rule (by decide)

theorem pred (h : Forms d reading .pred p) : Forms d reading .cond p := Fits.rule h (by decide)

theorem cond (h : Forms d reading .term p) : Forms d reading .cond p :=
  (Fits.rule h (by decide)).pred

theorem terms (h : Forms d reading .term p) : Forms d reading .terms p := Fits.rule h (by decide)

theorem more (hp : Forms d reading .term p) (hq : Forms d reading .terms q) :
    Forms d reading .terms (p ++ .str ", " :: q) := (hp.append (comma.append hq)).rule (by decide)

-- Items with a comma or a connective between them.
theorem several {items : List (List (Push S))} {k : Phrase} {sep : String} {w : Lexeme}
    (hsep : Fits d reading [sign w] [.str sep])
    (hone : (⟨n, [part k]⟩ : Rule) ∈ queryRules ++ conditionRules)
    (hmore : (⟨n, [part k, sign w, part n]⟩ : Rule) ∈ queryRules ++ conditionRules)
    (hne : items ≠ []) (h : ∀ item ∈ items, Forms d reading k item) :
    Forms d reading n (separated sep items) := by
  induction items with
  | nil => exact absurd rfl hne
  | cons first rest ih =>
      obtain ⟨hfirst, hrest⟩ := List.forall_mem_cons.mp h
      cases rest with
      | nil => exact Fits.rule hfirst hone
      | cons next rest =>
          have hlater := ih (by simp) hrest
          exact (Fits.append hfirst (hsep.append hlater)).rule hmore

end Forms

end Ruprizzle.Runtime
