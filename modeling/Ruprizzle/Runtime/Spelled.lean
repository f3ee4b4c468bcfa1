import Ruprizzle.Runtime.Spans

namespace Ruprizzle.Runtime

-- The texts that the compiler spells into a literal by hand.

-- Every single quote stands next to a second one.
def pairedQuotes : List Char → Bool
  | [] => true
  | '\x27' :: '\x27' :: rest => pairedQuotes rest
  | '\x27' :: _ => false
  | _ :: rest => pairedQuotes rest

def JsonPathSegment.Paired : JsonPathSegment → Prop
  | key k => pairedQuotes k.toList = true
  | index _ => True

-- PostgreSQL doubles the quotes of a key that is the whole path; any other key
-- is spelled as it is, up to backslashes and double quotes.
def JsonPath.Closed (d : Dialect) (path : JsonPath) : Prop :=
  (d = .postgres ∧ path.length ≤ 1) ∨ ∀ seg ∈ path, seg.Paired

instance (seg : JsonPathSegment) : Decidable seg.Paired := by
  cases seg <;> unfold JsonPathSegment.Paired <;> infer_instance

instance (d : Dialect) (path : JsonPath) : Decidable (JsonPath.Closed d path) := by
  unfold JsonPath.Closed
  infer_instance

def literalQuote : Dialect → Quote
  | .mysql => .escape
  | .postgres | .sqlite => .single

-- A text in which a literal does not end.
def StaysIn (d : Dialect) (text : List Char) : Prop :=
  ∀ rest, Scan.read (Lexer.scan d) (.within (literalQuote d)) (text ++ rest)
      = (text ++ (Scan.read (Lexer.scan d) (.within (literalQuote d)) rest).1,
        (Scan.read (Lexer.scan d) (.within (literalQuote d)) rest).2) ∧
    Scan.modeAfter (Lexer.scan d) (.within (literalQuote d)) (text ++ rest)
      = Scan.modeAfter (Lexer.scan d) (.within (literalQuote d)) rest

namespace StaysIn

variable {d : Dialect}

theorem nil : StaysIn d [] := fun _ => ⟨rfl, rfl⟩

theorem append {a b : List Char} (ha : StaysIn d a) (hb : StaysIn d b) : StaysIn d (a ++ b) := by
  intro rest
  obtain ⟨hread, hmode⟩ := ha (b ++ rest)
  obtain ⟨hread', hmode'⟩ := hb rest
  rw [List.append_assoc, hread, hmode, hread', hmode']
  exact ⟨by simp, rfl⟩

theorem char {c : Char} (hquote : c ≠ '\x27') (hslash : c ≠ '\\') : StaysIn d [c] := by
  intro rest
  have hstep : Lexer.scan d (.within (literalQuote d)) c
      = (.cont, .within (literalQuote d)) := by
    have hsym : Sym.of c ≠ .quote := fun h => hquote ((Sym.of_quotes c).1 h)
    have hback : Sym.of c ≠ .backslash := fun h => hslash (Sym.of_backslash h)
    cases d <;> simp [Lexer.scan, Lexer.step, literalQuote, Quote.sym, Quote.escapes, hsym, hback]
  rw [List.singleton_append, Scan.read_cont hstep, Scan.modeAfter_cons, hstep]
  exact ⟨rfl, rfl⟩

theorem of_chars {text : List Char} (h : ∀ c ∈ text, c ≠ '\x27' ∧ c ≠ '\\') : StaysIn d text := by
  induction text with
  | nil => exact nil
  | cons c rest ih =>
      obtain ⟨hquote, hslash⟩ := h c (by simp)
      exact (char hquote hslash).append (ih fun e he => h e (List.mem_cons_of_mem c he))

theorem quotes : StaysIn d ['\x27', '\x27'] := by
  intro rest
  cases d <;> exact ⟨rfl, rfl⟩

-- A backslash and what it stands before, which the compiler writes for either.
theorem escape {c : Char} (h : c = '\\' ∨ c = '\x22') : StaysIn d ['\\', c] := by
  intro rest
  rcases h with rfl | rfl <;> cases d <;> exact ⟨rfl, rfl⟩

theorem doubled (text : List Char) (hd : d ≠ .mysql) : StaysIn d (Text.doubled '\x27' text) := by
  induction text with
  | nil => exact nil
  | cons c rest ih =>
      have hc : StaysIn d (if c = '\x27' then [c, c] else [c]) := by
        split
        · next h => exact h ▸ quotes
        · next h =>
            by_cases hslash : c = '\\'
            · intro rest
              cases d with
              | mysql => exact absurd rfl hd
              | postgres => exact hslash ▸ ⟨rfl, rfl⟩
              | sqlite => exact hslash ▸ ⟨rfl, rfl⟩
            · exact char h hslash
      exact hc.append ih

def escapedChar (c : Char) : List Char := if c = '\\' ∨ c = '\x22' then ['\\', c] else [c]

theorem escapedChar_stays {c : Char} (h : c ≠ '\x27') : StaysIn d (escapedChar c) := by
  unfold escapedChar
  split
  · next hc => exact escape hc
  · next hc =>
      rw [not_or] at hc
      exact char h hc.1

theorem escaped {text : List Char} (h : pairedQuotes text = true) :
    StaysIn d (text.flatMap escapedChar) := by
  induction text using pairedQuotes.induct with
  | case1 => exact nil
  | case2 rest ih => exact quotes.append (ih h)
  | case3 rest hrest => simp [pairedQuotes] at h
  | case4 c rest hpair hsingle ih =>
      have hc : c ≠ '\x27' := by
        rintro rfl
        exact hsingle rfl
      exact (escapedChar_stays hc).append (ih (by simpa [pairedQuotes] using h))

theorem intercalate {sep : String} {items : List String} (hsep : StaysIn d sep.toList)
    (hitems : ∀ s ∈ items, StaysIn d s.toList) :
    StaysIn d (sep.intercalate items).toList := by
  rw [String.toList_intercalate]
  induction items with
  | nil => exact nil
  | cons item rest ih =>
      have hitem := hitems item (by simp)
      have hrest := ih fun s hs => hitems s (List.mem_cons_of_mem item hs)
      cases rest with
      | nil => simpa using hitem
      | cons next rest =>
          rw [List.map_cons, List.map_cons, List.intercalate_cons_cons, List.append_assoc]
          exact hitem.append (hsep.append hrest)

end StaysIn

section Literal

variable {S : Type} {d : Dialect} {sub : S → Prop}

-- A text that stays in a literal makes one literal of its quotes.
theorem flow_inQuotes {m : Mode} {s : String} (hs : StaysIn d s.toList)
    (hm : Lexer.scan d m '\x27' = Lexer.scan d .gap '\x27') :
    flow d (.at_ m) [(.str (inQuotes s) : Push S)] = some (.at_ (.closing (literalQuote d))) := by
  have hlist : (inQuotes s).toList = '\x27' :: (s.toList ++ ['\x27']) := by simp [inQuotes]
  have hopen : Lexer.scan d .gap '\x27' = (.start .literal, .within (literalQuote d)) := by
    cases d <;> rfl
  have hclose : Lexer.scan d (.within (literalQuote d)) '\x27'
      = (.cont, .closing (literalQuote d)) := by cases d <;> rfl
  obtain ⟨hread, hmode⟩ := hs ['\x27']
  have hjoins : (Edge.at_ m).joins d (inQuotes s).toList = true := by
    rw [hlist]
    exact decide_eq_true hm
  have htokens : noParam (tokens d (inQuotes s).toList) = true := by
    rw [tokens, hlist, Scan.read_start hopen, hread, Scan.read_cont hclose]
    rfl
  have hpast : (Edge.at_ m).past d (inQuotes s).toList = .at_ (.closing (literalQuote d)) := by
    rw [Edge.past, if_neg (by simp [hlist]), modeAfter, hlist, Scan.modeAfter_cons, hopen, hmode,
      Scan.modeAfter_cons, hclose, Scan.modeAfter_nil]
  rw [flow, Run.foldlM_cons, flowPush, textFlow, hjoins, htokens, hpast]
  rfl

theorem Spans.literal {s : String} (hs : StaysIn d s.toList) :
    Spans d sub Edge.Gap [.str (inQuotes s)] Edge.Outside :=
  .of_flow (flow_inQuotes hs rfl) trivial rfl

theorem keyChar_stays {c : Char} (h : isKeyChar c = true) : c ≠ '\x27' ∧ c ≠ '\\' := by
  constructor
  · rintro rfl
    exact absurd h (by decide)
  · rintro rfl
    exact absurd h (by decide)

theorem escapedKey_stays {k : String} (h : pairedQuotes k.toList = true) :
    StaysIn d (escapedKey k).toList := by
  have hlist : (escapedKey k).toList
      = ['\x22'] ++ k.toList.flatMap StaysIn.escapedChar ++ ['\x22'] := by
    simp only [escapedKey, String.toList_ofList, List.singleton_append]
    rfl
  have hquote : StaysIn d ['\x22'] := .char (by decide) (by decide)
  rw [hlist]
  exact (hquote.append (.escaped h)).append hquote

theorem jsonPathKey_stays {k : String} (h : pairedQuotes k.toList = true) :
    StaysIn d (jsonPathKey k).toList := by
  unfold jsonPathKey
  split
  · exact escapedKey_stays h
  · next hplain =>
      have hall : k.toList.all isKeyChar = true := by
        simp only [Bool.or_eq_true, not_or, Bool.not_eq_true, Bool.not_eq_false'] at hplain
        exact hplain.2
      exact .of_chars fun c hc => keyChar_stays (List.all_eq_true.mp hall c hc)

theorem number_stays (n : Nat) : StaysIn d (toString n).toList := by
  refine .of_chars fun c hc => ?_
  have hc : c ∈ Nat.toDigits 10 n := by
    rw [← Nat.toList_repr]
    exact hc
  have hdigit : c.isDigit = true := Nat.isDigit_of_mem_toDigits (by decide) (by decide) hc
  exact keyChar_stays (by simp [isKeyChar, Char.isAlphanum, hdigit])

theorem dotted_stays {seg : JsonPathSegment} (h : seg.Paired) : StaysIn d seg.dotted.toList := by
  cases seg with
  | key k =>
      have hdot : StaysIn d ".".toList := .char (by decide) (by decide)
      simpa [JsonPathSegment.dotted] using hdot.append (jsonPathKey_stays h)
  | index n =>
      have hopen : StaysIn d "[".toList := .char (by decide) (by decide)
      have hclose : StaysIn d "]".toList := .char (by decide) (by decide)
      simpa [JsonPathSegment.dotted] using (hopen.append (number_stays n)).append hclose

theorem jsonPathWithKey_stays {path : JsonPath} {extra : Option String}
    (hpath : ∀ seg ∈ path, seg.Paired) (hextra : ∀ k ∈ extra, pairedQuotes k.toList = true) :
    StaysIn d (jsonPathWithKey path extra).toList := by
  have hdollar : StaysIn d "$".toList := .char (by decide) (by decide)
  have hdot : StaysIn d ".".toList := .char (by decide) (by decide)
  have hsegs : StaysIn d ("".intercalate (path.map JsonPathSegment.dotted)).toList := by
    refine .intercalate .nil fun s hs => ?_
    obtain ⟨seg, hseg, rfl⟩ := List.mem_map.mp hs
    exact dotted_stays (hpath seg hseg)
  cases extra with
  | none => simpa [jsonPathWithKey] using hdollar.append hsegs
  | some k =>
      have hk := jsonPathKey_stays (d := d) (hextra k rfl)
      simpa [jsonPathWithKey] using (hdollar.append hsegs).append (hdot.append hk)

theorem element_stays {seg : JsonPathSegment} (h : seg.Paired) : StaysIn d seg.element.toList := by
  cases seg with
  | key k => exact escapedKey_stays h
  | index n => exact number_stays n

-- The text between the quotes of a path array.
theorem jsonPathArray_stays {path : JsonPath} (h : ∀ seg ∈ path, seg.Paired) :
    StaysIn d ("\x7b" ++ ",".intercalate (path.map JsonPathSegment.element) ++ "\x7d").toList := by
  have hopen : StaysIn d "\x7b".toList := .char (by decide) (by decide)
  have hclose : StaysIn d "\x7d".toList := .char (by decide) (by decide)
  have hsegs : StaysIn d (",".intercalate (path.map JsonPathSegment.element)).toList := by
    refine .intercalate (.char (by decide) (by decide)) fun s hs => ?_
    obtain ⟨seg, hseg, rfl⟩ := List.mem_map.mp hs
    exact element_stays (h seg hseg)
  rw [String.toList_append, String.toList_append]
  exact (hopen.append hsegs).append hclose

theorem jsonStringLiteral_stays (s : String) (hd : d ≠ .mysql) :
    StaysIn d (jsonStringLiteral s).toList := by
  simpa [jsonStringLiteral] using StaysIn.doubled s.toList hd

theorem number_flow {m : Mode} (n : Nat)
    (hm : ∀ c : Char, c.isDigit → Lexer.scan d m c = (.start .number, .number)) :
    flow d (.at_ m) [(.str (toString n) : Push S)] = some (.at_ .number) := by
  have hlist : (toString n).toList = Nat.toDigits 10 n := Nat.toList_repr
  have hgap : ∀ c : Char, c.isDigit → Lexer.scan d .gap c = (.start .number, .number) := by
    intro c hc
    rw [Lexer.scan, Sym.of_digit hc]
    cases d <;> rfl
  have hmore : ∀ c : Char, c.isDigit → Lexer.scan d .number c = (.cont, .number) := by
    intro c hc
    rw [Lexer.scan, Sym.of_digit hc]
    rfl
  have hdigits : ∀ c ∈ Nat.toDigits 10 n, c.isDigit := fun c hc =>
    Nat.isDigit_of_mem_toDigits (by decide) (by decide) hc
  cases hn : Nat.toDigits 10 n with
  | nil => exact absurd hn Nat.toDigits_ne_nil
  | cons c rest =>
      rw [hn] at hdigits hlist
      have hc := hdigits c (by simp)
      have hstay : Scan.read (Lexer.scan d) .number rest = (rest, []) ∧
          Scan.modeAfter (Lexer.scan d) .number rest = .number :=
        Scan.read_stays fun e he => hmore e (hdigits e (List.mem_cons_of_mem c he))
      obtain ⟨hread, hmode⟩ := hstay
      have hjoins : (Edge.at_ m).joins d (toString n).toList = true := by
        rw [hlist]
        exact decide_eq_true ((hm c hc).trans (hgap c hc).symm)
      have htokens : noParam (tokens d (toString n).toList) = true := by
        rw [tokens, hlist, Scan.read_start (hgap c hc), hread]
        rfl
      have hpast : (Edge.at_ m).past d (toString n).toList = .at_ .number := by
        rw [Edge.past, if_neg (by simp), modeAfter, hlist, Scan.modeAfter_cons, hgap c hc,
          hmode]
      rw [flow, Run.foldlM_cons, flowPush, textFlow, hjoins, htokens, hpast]
      rfl

theorem Spans.number (n : Nat) : Spans d sub Edge.Gap [.str (toString n)] Edge.Outside := by
  refine .of_flow (number_flow n fun c hc => ?_) trivial rfl
  rw [Lexer.scan, Sym.of_digit hc]
  cases d <;> rfl

end Literal

end Ruprizzle.Runtime
