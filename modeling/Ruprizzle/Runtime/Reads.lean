import Ruprizzle.Runtime.Flow

namespace Ruprizzle.Runtime

open Scan (Mark)

theorem Sym.of_quotes (c : Char) : (Sym.of c = .quote → c = '\x27') ∧
    (Sym.of c = .dquote → c = '\x22') ∧ (Sym.of c = .backtick → c = '\x60') := by
  by_cases h : c.toNat < 128
  · have hall : ∀ n < 128, (Sym.of (Char.ofNat n) = .quote → Char.ofNat n = '\x27') ∧
        (Sym.of (Char.ofNat n) = .dquote → Char.ofNat n = '\x22') ∧
        (Sym.of (Char.ofNat n) = .backtick → Char.ofNat n = '\x60') := by decide +kernel
    simpa only [Char.ofNat_toNat] using hall c.toNat h
  · simp [Sym.of_high (Nat.not_lt.mp h)]

theorem Sym.of_backslash {c : Char} (h : Sym.of c = .backslash) : c = '\\' := by
  by_cases hlow : c.toNat < 128
  · have hall : ∀ n < 128, Sym.of (Char.ofNat n) = .backslash → Char.ofNat n = '\\' := by
      decide +kernel
    have := hall c.toNat hlow
    rw [Char.ofNat_toNat] at this
    exact this h
  · rw [Sym.of_high (Nat.not_lt.mp hlow)] at h
    cases h

namespace Lexer

-- Between tokens nothing goes on.
theorem begin_mark (d : Dialect) (afterE : Bool) (x : Sym) :
    (begin_ d afterE x).1 ≠ .cont := by
  cases x <;> cases d <;> cases afterE <;> decide

theorem read_gap (d : Dialect) (text : List Char) : (Scan.read (scan d) .gap text).1 = [] := by
  cases text with
  | nil => rfl
  | cons c rest =>
      have hmark := begin_mark d false (Sym.of c)
      rw [Scan.read_cons]
      have hstep : (scan d .gap c).1 = (begin_ d false (Sym.of c)).1 := rfl
      rw [hstep]
      cases h : (begin_ d false (Sym.of c)).1 with
      | start kind => rfl
      | cont => exact absurd h hmark
      | skip => rfl

-- A blank, a closing parenthesis and a comma end whatever stands before them.
theorem step_outside (d : Dialect) {m : Mode} (h : m.Outside) {c : Char}
    (hc : c = ' ' ∨ c = ')' ∨ c = ',') : scan d m c = scan d .gap c := by
  cases m with
  | gap => rfl
  | word e => rcases hc with rfl | rfl | rfl <;> cases e <;> cases d <;> rfl
  | number => rcases hc with rfl | rfl | rfl <;> rfl
  | op last =>
      cases last with
      | dashes => exact absurd rfl h
      | dash | slash | colon | other => rcases hc with rfl | rfl | rfl <;> cases d <;> rfl
  | param => rcases hc with rfl | rfl | rfl <;> cases d <;> rfl
  | closing q => rcases hc with rfl | rfl | rfl <;> cases q <;> cases d <;> rfl
  | within q => exact absurd h (by simp [Mode.Outside])
  | escaped q => exact absurd h (by simp [Mode.Outside])
  | line => exact absurd h (by simp [Mode.Outside])
  | block depth last star => exact absurd h (by simp [Mode.Outside])

-- A text quoted without escapes is one token.
theorem read_quoted (d : Dialect) {m : Mode} {q : Quote} {sign : Char} (text : String)
    (hsign : ∀ c, Sym.of c = q.sym ↔ c = sign) (hplain : q.escapes = false)
    (hopen : scan d m sign = (.start q.kind, .within q)) (hbracket : q ≠ .bracket) :
    Scan.read (scan d) m (Text.quoted sign text).toList
      = ([], [⟨q.kind, (Text.quoted sign text).toList⟩]) ∧
    Scan.modeAfter (scan d) m (Text.quoted sign text).toList = .closing q := by
  have hstop : scan d (.within q) sign = (.cont, .closing q) := by
    simp [scan, step, (hsign sign).mpr rfl]
  have hagain : scan d (.closing q) sign = (.cont, .within q) := by
    simp [scan, step, (hsign sign).mpr rfl, hbracket]
  have hchar : ∀ c, c ≠ sign → scan d (.within q) c = (.cont, .within q) := by
    intro c hc
    have : Sym.of c ≠ q.sym := fun h => hc ((hsign c).mp h)
    simp [scan, step, this, hplain]
  have hbody : ∀ chars : List Char,
      Scan.read (scan d) (.within q) (Text.doubled sign chars ++ [sign])
        = (Text.doubled sign chars ++ [sign], []) ∧
      Scan.modeAfter (scan d) (.within q) (Text.doubled sign chars ++ [sign]) = .closing q := by
    intro chars
    induction chars with
    | nil =>
        have hnil : Text.doubled sign [] = [] := rfl
        rw [hnil, List.nil_append, Scan.read_cont hstop, Scan.modeAfter_cons, hstop]
        exact ⟨rfl, rfl⟩
    | cons c rest ih =>
        by_cases hc : c = sign
        · have hcons : Text.doubled sign (c :: rest) ++ [sign]
              = sign :: sign :: (Text.doubled sign rest ++ [sign]) := by simp [Text.doubled, hc]
          rw [hcons, Scan.read_cont hstop, Scan.read_cont hagain, ih.1, Scan.modeAfter_cons, hstop,
            Scan.modeAfter_cons, hagain, ih.2]
          exact ⟨rfl, rfl⟩
        · have hcons : Text.doubled sign (c :: rest) ++ [sign]
              = c :: (Text.doubled sign rest ++ [sign]) := by simp [Text.doubled, hc]
          rw [hcons, Scan.read_cont (hchar c hc), ih.1, Scan.modeAfter_cons, hchar c hc, ih.2]
          exact ⟨rfl, rfl⟩
  have hlist : (Text.quoted sign text).toList
      = sign :: (Text.doubled sign text.toList ++ [sign]) := by simp [Text.quoted]
  obtain ⟨hread, hmode⟩ := hbody text.toList
  rw [hlist, Scan.read_start hopen, hread, Scan.modeAfter_cons, hopen, hmode]
  exact ⟨rfl, rfl⟩

theorem read_quoteIdent (d : Dialect) (name : String) :
    Scan.read (scan d) .gap (d.quoteIdent name).toList
      = ([], [⟨.ident, (d.quoteIdent name).toList⟩]) ∧
    Scan.modeAfter (scan d) .gap (d.quoteIdent name).toList = .closing (identQuote d) := by
  have hdouble : ∀ c, Sym.of c = Quote.double.sym ↔ c = '\x22' := fun c =>
    ⟨(Sym.of_quotes c).2.1, fun h => h ▸ rfl⟩
  have hbacktick : ∀ c, Sym.of c = Quote.backtick.sym ↔ c = '\x60' := fun c =>
    ⟨(Sym.of_quotes c).2.2, fun h => h ▸ rfl⟩
  cases d with
  | postgres => exact read_quoted .postgres name hdouble rfl rfl (by decide)
  | mysql => exact read_quoted .mysql name hbacktick rfl rfl (by decide)
  | sqlite => exact read_quoted .sqlite name hbacktick rfl rfl (by decide)

theorem read_placeholder (d : Dialect) (k : Nat) {m : Mode}
    (h : scan d m (placeholderSign d) = (.start .param, .param)) :
    Scan.read (scan d) m (placeholder d k) = ([], [⟨.param, placeholder d k⟩]) ∧
    Scan.modeAfter (scan d) m (placeholder d k) = .param := by
  have hone : ∀ c, scan d m c = (.start .param, .param) →
      Scan.read (scan d) m [c] = ([], [⟨.param, [c]⟩]) ∧
      Scan.modeAfter (scan d) m [c] = .param := by
    intro c hc
    rw [Scan.read_start hc, Scan.modeAfter_cons, hc]
    exact ⟨rfl, rfl⟩
  cases d with
  | mysql => exact hone '?' h
  | sqlite => exact hone '?' h
  | postgres =>
      have hdigit : ∀ c ∈ Nat.toDigits 10 (k + 1), scan .postgres .param c = (.cont, .param) := by
        intro c hc
        have hc : c.isDigit := Nat.isDigit_of_mem_toDigits (by decide) (by decide) hc
        rw [scan, Sym.of_digit hc]
        rfl
      have h : scan .postgres m '$' = (.start .param, .param) := h
      obtain ⟨hread, hmode⟩ := Scan.read_stays hdigit
      rw [placeholder, Scan.read_start h, hread, Scan.modeAfter_cons, h, hmode]
      exact ⟨rfl, rfl⟩

end Lexer

def Push.map {S R : Type} (f : S → R) : Push S → Push R
  | .str s => .str s
  | .quoted name => .quoted name
  | .bind value => .bind value
  | .subquery s => .subquery (f s)
  | .renumbered s => .renumbered (f s)

variable {S X : Type} (φ : Piece → X) (d : Dialect)

-- What a push stands for, whatever is pushed around it: the tokens of its text
-- read by itself, a value in its own place, what a subquery stands for.
def Push.slots : Push (List X) → List X
  | .str s => (tokens d s.toList).map fun t => φ (.token t)
  | .quoted name => [φ (.token ⟨.ident, (d.quoteIdent name).toList⟩)]
  | .bind value => [φ (.value value)]
  | .subquery xs | .renumbered xs => xs

def template (pushes : List (Push (List X))) : List X := pushes.flatMap (Push.slots φ d)

-- The pushes are read as what is listed, wherever they begin and however many
-- values are bound before.
def Reads (e : Edge) (pushes : List (Push CompiledSql)) (xs : List X) (e' : Edge) : Prop :=
  ∀ k m, e.Holds m → ∃ pieces,
    (Scan.read (Lexer.scan d) m (written d k pushes)).1 = [] ∧
    fill d k (bound pushes) (Scan.read (Lexer.scan d) m (written d k pushes)).2 = some pieces ∧
    pieces.map φ = xs ∧ e'.Holds (Scan.modeAfter (Lexer.scan d) m (written d k pushes))

-- A compiled statement is read as what is listed, by itself and inside of
-- another one.
structure Settles (c : CompiledSql) (xs : List X) : Prop where
  outside : (modeAfter d c.sql).Outside
  subquery : ∀ k, ∃ pieces,
    fill d k c.binds (tokens d (Push.text d k (.subquery c))) = some pieces ∧ pieces.map φ = xs
  renumbered : ∀ k, ∃ pieces,
    fill d k c.binds (tokens d (Push.text d k (.renumbered c))) = some pieces ∧ pieces.map φ = xs

variable {φ d}

theorem Reads.nil (e : Edge) : Reads φ d e [] [] e := fun _ _ h => ⟨[], rfl, rfl, rfl, h⟩

theorem Reads.append {e e' e'' : Edge} {a b : List (Push CompiledSql)} {xs ys : List X}
    (ha : Reads φ d e a xs e') (hb : Reads φ d e' b ys e'') :
    Reads φ d e (a ++ b) (xs ++ ys) e'' := by
  intro k m hm
  obtain ⟨pieces, hfresh, hfill, hmap, hedge⟩ := ha k m hm
  obtain ⟨pieces', hfresh', hfill', hmap', hedge'⟩ := hb (k + (bound a).length) _ hedge
  refine ⟨pieces ++ pieces', ?_⟩
  rw [written_append, Scan.read_append m hfresh', Scan.modeAfter_append, bound_append,
    fill_append hfill hfill']
  exact ⟨hfresh, rfl, by rw [List.map_append, hmap, hmap'], hedge'⟩

-- A push by itself is read where its text begins its own tokens.
theorem Reads.single {e e' : Edge} {p : Push CompiledSql} {xs : List X}
    (h : ∀ k m, e.Holds m → ∃ pieces,
      (Scan.read (Lexer.scan d) m (p.text d k)).1 = [] ∧
      fill d k p.binds (Scan.read (Lexer.scan d) m (p.text d k)).2 = some pieces ∧
      pieces.map φ = xs ∧ e'.Holds (Scan.modeAfter (Lexer.scan d) m (p.text d k))) :
    Reads φ d e [p] xs e' := by
  intro k m hm
  simpa only [written, List.append_nil, bound_cons, bound_nil] using h k m hm

theorem Edge.joins_read {e : Edge} {m : Mode} {text : List Char} (h : e.joins d text = true)
    (hm : e.Holds m) : ∀ c ∈ text.head?, Lexer.scan d m c = Lexer.scan d .gap c := by
  intro c hc
  cases text with
  | nil => simp at hc
  | cons c' rest =>
      obtain rfl : c' = c := by simpa using hc
      cases e with
      | at_ m' =>
          obtain rfl : m = m' := hm
          simpa [Edge.joins] using h
      | outside =>
          have hbreak : c' = ' ' ∨ c' = ')' ∨ c' = ',' := by simpa [Edge.joins] using h
          exact Lexer.step_outside d hm hbreak

theorem Reads.str {e : Edge} {s : String} (hjoins : e.joins d s.toList = true)
    (hplain : noParam (tokens d s.toList) = true) :
    Reads φ d e [.str s] (Push.slots φ d (.str s)) (e.past d s.toList) := by
  refine Reads.single (fun k m hm => ?_)
  have hhead := Edge.joins_read hjoins hm
  have hread := Scan.read_congr hhead
  simp only [Push.text, Push.binds, hread]
  refine ⟨_, Lexer.read_gap d s.toList, fill_noParam d k hplain, ?_, ?_⟩
  · simp [Push.slots, tokens, Function.comp_def]
  · by_cases hs : s.toList = []
    · simpa [Edge.past, hs] using hm
    · simp only [Edge.past, hs, ite_false, Scan.modeAfter_congr hs hhead]
      rfl

theorem Reads.quoted (name : String) :
    Reads φ d (.at_ .gap) [.quoted name] (Push.slots φ d (.quoted name))
      (.at_ (.closing (identQuote d))) := by
  refine Reads.single (fun k m hm => ?_)
  obtain rfl : m = .gap := hm
  obtain ⟨hread, hmode⟩ := Lexer.read_quoteIdent d name
  simp only [Push.text, Push.binds, hread, hmode]
  exact ⟨_, trivial, fill_noParam d k rfl, rfl, rfl⟩

theorem Reads.bind {m : Mode} (value : Value)
    (hopen : Lexer.scan d m (placeholderSign d) = (.start .param, .param)) :
    Reads φ d (.at_ m) [.bind value] (Push.slots φ d (.bind value)) (.at_ .param) := by
  refine Reads.single (fun k m' hm => ?_)
  obtain rfl : m' = m := hm
  obtain ⟨hread, hmode⟩ := Lexer.read_placeholder d k hopen
  simp only [Push.text, Push.binds, hread, hmode]
  exact ⟨_, trivial, fill_param rfl rfl, rfl, rfl⟩

theorem modeAfter_embedded {c : CompiledSql} (k : Nat) :
    modeAfter d (Push.text d k (.subquery c)) = modeAfter d c.sql ∧
    modeAfter d (Push.text d k (.renumbered c)) = modeAfter d c.sql := by
  constructor
  · simp only [Push.text]
    split
    · exact modeAfter_renumber d k c.sql
    · rfl
  · simp only [Push.text, CompiledSql.renumbered]
    split
    · rfl
    · exact modeAfter_renumber d k c.sql

theorem Reads.subquery {c : CompiledSql} {xs : List X} (h : Settles φ d c xs) :
    Reads φ d (.at_ .gap) [.subquery c] xs .outside := by
  refine Reads.single (fun k m hm => ?_)
  obtain rfl : m = .gap := hm
  obtain ⟨pieces, hfill, hmap⟩ := h.subquery k
  have hmode := (modeAfter_embedded (d := d) (c := c) k).1
  refine ⟨pieces, Lexer.read_gap d _, hfill, hmap, ?_⟩
  exact (congrArg Mode.Outside hmode).mpr h.outside

theorem Reads.renumbered {c : CompiledSql} {xs : List X} (h : Settles φ d c xs) :
    Reads φ d (.at_ .gap) [.renumbered c] xs .outside := by
  refine Reads.single (fun k m hm => ?_)
  obtain rfl : m = .gap := hm
  obtain ⟨pieces, hfill, hmap⟩ := h.renumbered k
  have hmode := (modeAfter_embedded (d := d) (c := c) k).2
  refine ⟨pieces, Lexer.read_gap d _, hfill, hmap, ?_⟩
  exact (congrArg Mode.Outside hmode).mpr h.outside

-- What a push embeds is read as what stands for it.
def Push.Settled (φ : Piece → X) (d : Dialect) (f : S → CompiledSql) (g : S → List X) :
    Push S → Prop
  | .subquery s | .renumbered s => Settles φ d (f s) (g s)
  | _ => True

theorem Reads.of_flowPush {f : S → CompiledSql} {g : S → List X} {e e' : Edge} {p : Push S}
    (hflow : flowPush d e p = some e') (hp : p.Settled φ d f g) :
    Reads φ d e [p.map f] ((p.map g).slots φ d) e' := by
  cases p with
  | str s =>
      have hcases : e.joins d s.toList = true ∧ noParam (tokens d s.toList) = true ∧
          e.past d s.toList = e' := by simpa [flowPush, textFlow, and_assoc] using hflow
      obtain ⟨hjoins, hplain, rfl⟩ := hcases
      exact Reads.str hjoins hplain
  | quoted name =>
      have hcases : e = .at_ .gap ∧ .at_ (.closing (identQuote d)) = e' := by
        simpa [flowPush] using hflow
      obtain ⟨rfl, rfl⟩ := hcases
      exact Reads.quoted name
  | bind value =>
      cases e with
      | outside => simp [flowPush, bindFlow] at hflow
      | at_ m =>
          have hcases : Lexer.scan d m (placeholderSign d) = (.start .param, .param) ∧
              .at_ .param = e' := by simpa [flowPush, bindFlow] using hflow
          obtain ⟨hopen, rfl⟩ := hcases
          exact Reads.bind value hopen
  | subquery s =>
      have hcases : e = .at_ .gap ∧ .outside = e' := by simpa [flowPush] using hflow
      obtain ⟨rfl, rfl⟩ := hcases
      exact Reads.subquery hp
  | renumbered s =>
      have hcases : e = .at_ .gap ∧ .outside = e' := by simpa [flowPush] using hflow
      obtain ⟨rfl, rfl⟩ := hcases
      exact Reads.renumbered hp

-- Pushes that flow are read as their template.
theorem Reads.of_flow {f : S → CompiledSql} {g : S → List X} {e e' : Edge} {pushes : List (Push S)}
    (hflow : flow d e pushes = some e') (hpushes : ∀ p ∈ pushes, p.Settled φ d f g) :
    Reads φ d e (pushes.map (Push.map f)) (template φ d (pushes.map (Push.map g))) e' := by
  induction pushes generalizing e with
  | nil =>
      obtain rfl : e = e' := by simpa [flow] using hflow
      exact Reads.nil e
  | cons p rest ih =>
      cases hp : flowPush d e p with
      | none => simp [flow, hp] at hflow
      | some e₁ =>
          rw [flow_cons hp] at hflow
          have hfirst := Reads.of_flowPush hp (hpushes p (by simp))
          have hrest := ih hflow (fun q hq => hpushes q (List.mem_cons_of_mem p hq))
          exact hfirst.append hrest

def Edge.Outside : Edge → Prop
  | .at_ m => m.Outside
  | .outside => True

instance (e : Edge) : Decidable e.Outside := by
  cases e <;> unfold Edge.Outside <;> infer_instance

theorem Edge.Outside.mode {e : Edge} {m : Mode} (h : e.Outside) (hm : e.Holds m) : m.Outside := by
  cases e with
  | at_ m' =>
      obtain rfl : m = m' := hm
      exact h
  | outside => exact hm

-- A number counts only where placeholders are numbered.
theorem fill_unnumbered {k k' : Nat} {values : List Value} {ts : List Token}
    (h : d ≠ .postgres ∨ values = []) : fill d k values ts = fill d k' values ts := by
  induction ts generalizing k k' values with
  | nil => rfl
  | cons t rest ih =>
      by_cases hparam : t.kind = .param
      · cases values with
        | nil => simp [fill, hparam]
        | cons v values =>
            have hd : d ≠ .postgres := h.resolve_right (by simp)
            have hsame : placeholder d k = placeholder d k' := by
              cases d with
              | postgres => exact absurd rfl hd
              | mysql => rfl
              | sqlite => rfl
            have hrest : fill d (k + 1) values rest = fill d (k' + 1) values rest := ih (Or.inl hd)
            simp only [fill, hparam, ite_true, hsame, hrest]
      · rw [fill_token hparam, fill_token hparam, ih h]

theorem dollar_of_fill {k : Nat} {values : List Value} {ts : List Token} {pieces : List Piece}
    (h : fill .postgres k values ts = some pieces) (hne : values ≠ []) :
    ∃ t ∈ ts, '$' ∈ t.text := by
  induction ts generalizing pieces with
  | nil => exact absurd (fill_nil h).1 hne
  | cons t rest ih =>
      rcases fill_cons h with ⟨-, later, hlater, -⟩ | ⟨-, htext, -⟩
      · obtain ⟨t', ht', hdollar⟩ := ih hlater
        exact ⟨t', List.mem_cons_of_mem t ht', hdollar⟩
      · exact ⟨t, by simp, by simp [htext, placeholder]⟩

-- What is read the same after a renumbering settles a compiled statement.
theorem Settles.of_reads {pushes : List (Push CompiledSql)} {xs : List X} {e : Edge}
    (hφ : ∀ k p, φ (renumberPiece k p) = φ p) (hreads : Reads φ d (.at_ .gap) pushes xs e)
    (hedge : e.Outside) : Settles φ d (Compiler.run d pushes) xs := by
  obtain ⟨pieces, -, hfill, hmap, hmode⟩ := hreads 0 .gap rfl
  have hsame : ∀ k, (pieces.map (renumberPiece k)).map φ = xs := by
    intro k
    rw [← hmap, List.map_map]
    exact List.map_congr_left fun p _ => hφ k p
  have hnumbered : ∀ k, fill d k (bound pushes) (tokens d (renumber k (written d 0 pushes)))
      = some (pieces.map (renumberPiece k)) := by
    intro k
    have := fill_renumber k hfill
    rw [Nat.zero_add] at this
    rw [tokens_renumber]
    exact this
  have hkept : ∀ k, d ≠ .postgres ∨ bound pushes = [] →
      fill d k (bound pushes) (tokens d (written d 0 pushes)) = some pieces := by
    intro k h
    have hzero : fill d k (bound pushes) (tokens d (written d 0 pushes)) = fill d 0 _ _ :=
      fill_unnumbered h
    exact hzero.trans hfill
  rw [Compiler.run_eq]
  refine ⟨hedge.mode hmode, fun k => ?_, fun k => ?_⟩
  · simp only [Push.text]
    split
    · exact ⟨_, hnumbered k, hsame k⟩
    · next hd => exact ⟨_, hkept k (Or.inl hd), hmap⟩
  · simp only [Push.text, CompiledSql.renumbered]
    split
    · next hearly =>
        refine ⟨pieces, ?_, hmap⟩
        by_cases hd : d = .postgres
        · subst hd
          rcases hearly with rfl | hempty | hdollar
          · exact hfill
          · exact hkept k (Or.inr (List.isEmpty_iff.mp hempty))
          · -- Without a dollar there is no placeholder, so nothing is bound.
            refine hkept k (Or.inr ?_)
            by_contra hne
            obtain ⟨t, ht, hmem⟩ := dollar_of_fill hfill hne
            exact hdollar (Scan.mem_read ht hmem)
        · exact hkept k (Or.inl hd)
    · exact ⟨_, hnumbered k, hsame k⟩

end Ruprizzle.Runtime
