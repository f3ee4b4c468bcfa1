import Mathlib.Data.List.TakeWhile
import Ruprizzle.Lsp.Completion

namespace Ruprizzle.Lsp

variable {wide : Char → Bool} {offset : Nat}

-- What the scan reads: the text up to the first sign at the offset or after it.
def reach (wide : Char → Bool) (offset : Nat) : Nat → List Char → List Char
  | _, [] => []
  | i, c :: rest =>
      if !Text.isWhitespace c && !wordChar wide c && decide (offset ≤ i) then [c]
      else c :: reach wide offset (i + c.utf8Size) rest

-- The scan of a text that has no end to be looked for.
def run (wide : Char → Bool) (offset : Nat) : Nat → List Char → Cursor → Cursor
  | _, [], s => s
  | i, c :: rest, s => run wide offset (i + c.utf8Size) rest (step wide offset i c rest s)

-- Braces as they stand there, in comments and literals too.
def weight (c : Char) : Int := if c = '\x7b' then 1 else if c = '\x7d' then -1 else 0

theorem weight_le_one (c : Char) : weight c ≤ 1 := by
  unfold weight
  split
  · exact Int.le_refl 1
  · split <;> omega

theorem weight_eq_one {c : Char} : weight c = 1 ↔ c = '\x7b' := by
  unfold weight
  split
  · simp [*]
  · split <;> simp [*]

section Step

variable {i : Nat} {c : Char} {rest : List Char} {s : Cursor}

theorem wordChar_brace (h : c = '\x7b' ∨ c = '\x7d') : wordChar wide c = false := by
  rcases h with rfl | rfl <;> rfl

theorem weight_word (h : wordChar wide c = true) : weight c = 0 := by
  have hopen : c ≠ '\x7b' := fun hc => by
    rw [wordChar_brace (.inl hc)] at h
    cases h
  have hclose : c ≠ '\x7d' := fun hc => by
    rw [wordChar_brace (.inr hc)] at h
    cases h
  rw [weight, if_neg hopen, if_neg hclose]

theorem isWhitespace_alphanum {c : Char} (h : c.isAlphanum = true) :
    Text.isWhitespace c = false := by
  delta Char.isAlphanum Char.isAlpha Char.isUpper Char.isLower Char.isDigit at h
  simp only [Bool.or_eq_true, Bool.and_eq_true, decide_eq_true_eq, ge_iff_le,
    UInt32.le_iff_toNat_le] at h
  have hval : c.val.toNat = c.toNat := rfl
  simp only [hval, Char.reduceVal, UInt32.reduceToNat] at h
  have hnot : ¬Text.isWhitespace c = true := by
    simp only [Text.isWhitespace, Bool.or_eq_true, Bool.and_eq_true, decide_eq_true_eq]
    omega
  exact Bool.not_eq_true _ ▸ hnot

theorem isWhitespace_word (h : wordChar wide c = true) : Text.isWhitespace c = false := by
  unfold wordChar isAlphanumeric at h
  split at h
  · rw [Bool.or_eq_true] at h
    rcases h with halnum | hline
    · exact isWhitespace_alphanum halnum
    · rw [of_decide_eq_true hline]
      rfl
  · rw [Bool.or_eq_true, Bool.and_eq_true] at h
    rcases h with ⟨-, hblank⟩ | hline
    · exact (Bool.not_eq_true' _).mp hblank
    · rw [of_decide_eq_true hline]
      rfl

-- What one character does.
theorem step_cases (wide : Char → Bool) (offset i : Nat) (c : Char) (rest : List Char)
    (s : Cursor) :
    (c = '\x7b' ∧ step wide offset i c rest s = s.openBrace) ∨
    (c = '\x7d' ∧ step wide offset i c rest s = s.closeBrace) ∨
    (wordChar wide c = true ∧ step wide offset i c rest s
      = s.push offset i ((c :: rest).takeWhile (wordChar wide))) ∨
    wordChar wide c = false ∧ weight c = 0 ∧ step wide offset i c rest s = s := by
  unfold step
  by_cases hopen : c = '\x7b'
  · subst hopen
    exact .inl ⟨rfl, rfl⟩
  · by_cases hclose : c = '\x7d'
    · subst hclose
      exact .inr (.inl ⟨rfl, rfl⟩)
    · have hweight : weight c = 0 := by rw [weight, if_neg hopen, if_neg hclose]
      rw [if_neg hopen, if_neg hclose]
      cases hword : wordChar wide c with
      | true =>
          rw [isWhitespace_word hword]
          exact .inr (.inr (.inl ⟨rfl, rfl⟩))
      | false => exact .inr (.inr (.inr ⟨rfl, hweight, by simp⟩))

end Step

section Run

variable {i : Nat} {c : Char} {rest a b text : List Char} {s : Cursor} {name : String}

theorem takeWhile_stop {p : Char → Bool} (h : p c = false) (a b : List Char) :
    (a ++ c :: b).takeWhile p = a.takeWhile p := by
  induction a with
  | nil =>
      rw [List.nil_append, List.takeWhile_cons_of_neg (by rw [h]; exact Bool.false_ne_true)]
      rfl
  | cons d a ih =>
      by_cases hd : p d = true
      · rw [List.cons_append, List.takeWhile_cons_of_pos hd, List.takeWhile_cons_of_pos hd, ih]
      · rw [List.cons_append, List.takeWhile_cons_of_neg hd, List.takeWhile_cons_of_neg hd]

theorem takeWhile_reach (i : Nat) (text : List Char) :
    (reach wide offset i text).takeWhile (wordChar wide) = text.takeWhile (wordChar wide) := by
  induction text generalizing i with
  | nil => rfl
  | cons c rest ih =>
      rw [reach]
      split
      case isTrue hstop =>
        have hword : ¬wordChar wide c = true := by
          intro hword
          rw [hword] at hstop
          simp at hstop
        rw [List.takeWhile_cons_of_neg hword, List.takeWhile_cons_of_neg hword]
      case isFalse =>
        by_cases hword : wordChar wide c = true
        · rw [List.takeWhile_cons_of_pos hword, List.takeWhile_cons_of_pos hword, ih]
        · rw [List.takeWhile_cons_of_neg hword, List.takeWhile_cons_of_neg hword]

theorem step_congr {rest' : List Char}
    (h : (c :: rest).takeWhile (wordChar wide) = (c :: rest').takeWhile (wordChar wide)) :
    step wide offset i c rest s = step wide offset i c rest' s := by
  unfold step
  rw [h]

theorem step_stop (hword : wordChar wide c = false) (rest rest' : List Char) :
    step wide offset i c rest s = step wide offset i c rest' s := by
  have hneg : ¬wordChar wide c = true := by rw [hword]; exact Bool.false_ne_true
  exact step_congr (by rw [List.takeWhile_cons_of_neg hneg, List.takeWhile_cons_of_neg hneg])

theorem scanCursor_eq (i : Nat) (text : List Char) (s : Cursor) :
    scanCursor wide offset i text s = run wide offset i (reach wide offset i text) s := by
  induction text generalizing i s with
  | nil => rfl
  | cons c rest ih =>
      rw [scanCursor, reach]
      split
      case isTrue hstop =>
        have hword : wordChar wide c = false := by
          cases hword : wordChar wide c with
          | false => rfl
          | true => simp [hword] at hstop
        exact step_stop hword rest []
      case isFalse =>
        rw [run, ih]
        refine congrArg (run wide offset _ _) (step_congr ?_)
        by_cases hword : wordChar wide c = true
        · rw [List.takeWhile_cons_of_pos hword, List.takeWhile_cons_of_pos hword, takeWhile_reach]
        · rw [List.takeWhile_cons_of_neg hword, List.takeWhile_cons_of_neg hword]

-- A sign parts what is read before it from what is read after it.
theorem run_append (hword : wordChar wide c = false) (i : Nat) (a b : List Char) (s : Cursor) :
    run wide offset i (a ++ c :: b) s = run wide offset (i + byteLen a + c.utf8Size) b
      (step wide offset (i + byteLen a) c b (run wide offset i a s)) := by
  induction a generalizing i s with
  | nil => rfl
  | cons d a ih =>
      have hstep : step wide offset i d (a ++ c :: b) s = step wide offset i d a s :=
        step_congr (takeWhile_stop hword (d :: a) b)
      rw [List.cons_append, run, ih, run, byteLen, ← Nat.add_assoc, hstep]

theorem step_braceDepth :
    (step wide offset i c rest s).braceDepth = s.braceDepth + weight c := by
  rcases step_cases wide offset i c rest s with
    ⟨rfl, hstep⟩ | ⟨rfl, hstep⟩ | ⟨hword, hstep⟩ | ⟨-, hweight, hstep⟩
  · rw [hstep]
    rfl
  · rw [hstep]
    rfl
  · have hsame : ∀ word, (s.push offset i word).braceDepth = s.braceDepth := fun word => by
      unfold Cursor.push
      split <;> rfl
    rw [hstep, hsame, weight_word hword, Int.add_zero]
  · rw [hstep, hweight, Int.add_zero]

theorem run_braceDepth (i : Nat) (a : List Char) (s : Cursor) :
    (run wide offset i a s).braceDepth = s.braceDepth + Heights.height weight a := by
  induction a generalizing i s with
  | nil => exact (Int.add_zero _).symm
  | cons c rest ih =>
      rw [run, ih, step_braceDepth, Heights.height_cons]
      exact Int.add_assoc _ _ _

-- A word that ends in the keyword, before the offset.
def Keyword (wide : Char → Bool) (offset i : Nat) (text : List Char) : Prop :=
  ∃ p q, text = p ++ "model".toList ++ q ∧ i + byteLen p + 5 < offset ∧
    ∀ c, q.head? = some c → wordChar wide c = false

def KeywordHere (wide : Char → Bool) (offset i : Nat) (text : List Char) : Prop :=
  i + 5 < offset ∧ text.takeWhile (wordChar wide) = "model".toList

theorem wordChar_model {wide : Char → Bool} : ∀ c ∈ "model".toList, wordChar wide c = true := by
  intro c hc
  simp only [String.reduceToList, List.mem_cons, List.not_mem_nil, or_false] at hc
  rcases hc with rfl | rfl | rfl | rfl | rfl <;> rfl

theorem keywordHere_iff : KeywordHere wide offset i text ↔ ∃ q, text = "model".toList ++ q ∧
    i + 5 < offset ∧ ∀ c, q.head? = some c → wordChar wide c = false := by
  constructor
  · rintro ⟨hlt, htake⟩
    refine ⟨text.dropWhile (wordChar wide), ?_, hlt, ?_⟩
    · rw [← htake, List.takeWhile_append_dropWhile]
    · intro c hc
      have hdrop := List.head?_dropWhile_not (wordChar wide) text
      rw [hc] at hdrop
      simpa using hdrop
  · rintro ⟨q, rfl, hlt, hq⟩
    refine ⟨hlt, ?_⟩
    rw [List.takeWhile_append_of_pos wordChar_model]
    cases q with
    | nil => rfl
    | cons c q =>
        rw [List.takeWhile_cons_of_neg (by rw [hq c rfl]; exact Bool.false_ne_true)]
        rfl

theorem keyword_cons : Keyword wide offset i (c :: rest) ↔
    KeywordHere wide offset i (c :: rest) ∨ Keyword wide offset (i + c.utf8Size) rest := by
  rw [keywordHere_iff]
  constructor
  · rintro ⟨p, q, htext, hlt, hq⟩
    cases p with
    | nil => exact .inl ⟨q, htext, hlt, hq⟩
    | cons d p =>
        obtain ⟨rfl, hrest⟩ := List.cons.inj htext
        rw [byteLen, ← Nat.add_assoc] at hlt
        exact .inr ⟨p, q, hrest, hlt, hq⟩
  · rintro (⟨q, htext, hlt, hq⟩ | ⟨p, q, rfl, hlt, hq⟩)
    · exact ⟨[], q, htext, hlt, hq⟩
    · refine ⟨c :: p, q, rfl, ?_, hq⟩
      rw [byteLen, ← Nat.add_assoc]
      exact hlt

theorem not_keyword_nil : ¬Keyword wide offset i [] := by
  rintro ⟨p, q, htext, -⟩
  have hlength := congrArg List.length htext
  simp at hlength

-- No word is read from a sign on.
theorem keyword_stop (hword : wordChar wide c = false) :
    Keyword wide offset i (c :: rest) ↔ Keyword wide offset (i + c.utf8Size) rest := by
  rw [keyword_cons]
  refine or_iff_right ?_
  rintro ⟨-, htake⟩
  rw [List.takeWhile_cons_of_neg (by rw [hword]; exact Bool.false_ne_true)] at htake
  cases htake

theorem keyword_reach (i : Nat) (text : List Char) :
    Keyword wide offset i (reach wide offset i text) ↔ Keyword wide offset i text := by
  induction text generalizing i with
  | nil => exact Iff.rfl
  | cons c rest ih =>
      have htake : (reach wide offset i (c :: rest)).takeWhile (wordChar wide)
          = (c :: rest).takeWhile (wordChar wide) := takeWhile_reach i (c :: rest)
      rw [reach] at htake ⊢
      split at htake
      case isTrue hstop =>
        have hword : wordChar wide c = false := by
          cases hword : wordChar wide c with
          | false => rfl
          | true => simp [hword] at hstop
        have hi : offset ≤ i := by
          simp only [Bool.and_eq_true, decide_eq_true_eq] at hstop
          exact hstop.2
        rw [if_pos hstop, keyword_stop hword, keyword_stop hword]
        refine iff_of_false not_keyword_nil ?_
        rintro ⟨p, q, -, hlt, -⟩
        omega
      case isFalse hstop =>
        rw [if_neg hstop, keyword_cons, keyword_cons, ih, KeywordHere, htake, KeywordHere]

-- What pushing a word does, where it is the keyword and where it is not.
theorem push_keyword (h : KeywordHere wide offset i text) :
    s.push offset i (text.takeWhile (wordChar wide)) =
      ⟨true, none, s.braceDepth, s.tokens ++ [String.ofList (text.takeWhile (wordChar wide))]⟩ := by
  have hlen : byteLen (text.takeWhile (wordChar wide)) = 5 := by
    rw [h.2]
    rfl
  rw [Cursor.push, if_pos ⟨by rw [hlen]; exact h.1, h.2⟩]

theorem push_other (h : ¬KeywordHere wide offset i text) :
    s.push offset i (text.takeWhile (wordChar wide)) =
      { s with tokens := s.tokens ++ [String.ofList (text.takeWhile (wordChar wide))] } := by
  rw [Cursor.push, if_neg ?_]
  rintro ⟨hlt, hword⟩
  rw [hword] at hlt
  exact h ⟨hlt, hword⟩

theorem run_inModel (i : Nat) (a : List Char) (s : Cursor) :
    (run wide offset i a s).inModel = true ↔ s.inModel = true ∨ Keyword wide offset i a := by
  induction a generalizing i s with
  | nil => exact (or_iff_left not_keyword_nil).symm
  | cons c rest ih =>
      rw [run, ih]
      rcases step_cases wide offset i c rest s with
        ⟨hc, hstep⟩ | ⟨hc, hstep⟩ | ⟨-, hstep⟩ | ⟨hword, -, hstep⟩
      · rw [hstep, keyword_stop (wordChar_brace (.inl hc))]
        rfl
      · rw [hstep, keyword_stop (wordChar_brace (.inr hc))]
        rfl
      · rw [hstep, keyword_cons]
        by_cases hhere : KeywordHere wide offset i (c :: rest)
        · rw [push_keyword hhere]
          exact iff_of_true (.inl rfl) (.inr (.inl hhere))
        · rw [push_other hhere, or_iff_right hhere]
      · rw [hstep, keyword_stop hword]

-- The last token is the last character of the last word.
theorem run_tokens (i : Nat) (a : List Char) (s : Cursor) :
    (run wide offset i a s).tokens.getLast? =
      ((a.filter (wordChar wide)).getLast?.map String.singleton).or s.tokens.getLast? := by
  induction a generalizing i s with
  | nil => rfl
  | cons c rest ih =>
      rw [run, ih]
      rcases step_cases wide offset i c rest s with
        ⟨hc, hstep⟩ | ⟨hc, hstep⟩ | ⟨hword, hstep⟩ | ⟨hword, -, hstep⟩
      · have hword : wordChar wide c = false := wordChar_brace (.inl hc)
        rw [hstep, List.filter_cons_of_neg (by rw [hword]; exact Bool.false_ne_true)]
        rfl
      · have hword : wordChar wide c = false := wordChar_brace (.inr hc)
        rw [hstep, List.filter_cons_of_neg (by rw [hword]; exact Bool.false_ne_true)]
        rfl
      · have hpushed : (step wide offset i c rest s).tokens.getLast?
            = some (String.ofList ((c :: rest).takeWhile (wordChar wide))) := by
          rw [hstep]
          by_cases hhere : KeywordHere wide offset i (c :: rest)
          · rw [push_keyword hhere, List.getLast?_concat]
          · rw [push_other hhere, List.getLast?_concat]
        rw [hpushed, List.filter_cons_of_pos hword, List.getLast?_cons]
        cases hlast : (rest.filter (wordChar wide)).getLast? with
        | some d => rfl
        | none =>
            have hnone := List.filter_eq_nil_iff.mp (List.getLast?_eq_none_iff.mp hlast)
            have htake : rest.takeWhile (wordChar wide) = [] := by
              cases rest with
              | nil => rfl
              | cons d rest => exact List.takeWhile_cons_of_neg (hnone d List.mem_cons_self)
            rw [List.takeWhile_cons_of_pos hword, htake]
            rfl
      · rw [hstep, List.filter_cons_of_neg (by rw [hword]; exact Bool.false_ne_true)]

-- Without a token there is no name.
theorem run_nameless (i : Nat) (a : List Char) (h : s.tokens = [] → s.name = none) :
    (run wide offset i a s).tokens = [] → (run wide offset i a s).name = none := by
  induction a generalizing i s with
  | nil => exact h
  | cons c rest ih =>
      refine ih _ ?_
      rcases step_cases wide offset i c rest s with
        ⟨-, hstep⟩ | ⟨-, hstep⟩ | ⟨-, hstep⟩ | ⟨-, -, hstep⟩
      · rw [hstep]
        intro hnone
        have htokens : s.tokens = [] := hnone
        simp [Cursor.openBrace, htokens, h htokens]
      · rw [hstep]
        exact h
      · rw [hstep]
        intro hnone
        by_cases hhere : KeywordHere wide offset i (c :: rest)
        · rw [push_keyword hhere]
        · rw [push_other hhere] at hnone
          cases List.append_ne_nil_of_right_ne_nil s.tokens (List.cons_ne_nil _ _) hnone
      · rw [hstep]
        exact h

-- While a brace is open the name is kept, until a keyword takes it away.
theorem run_name (i : Nat) (b : List Char) (s : Cursor)
    (h : ∀ pre, pre <+: b → 1 ≤ s.braceDepth + Heights.height weight pre) :
    (run wide offset i b s).name = some name ↔ s.name = some name ∧ ¬Keyword wide offset i b := by
  induction b generalizing i s with
  | nil => exact (and_iff_left not_keyword_nil).symm
  | cons c rest ih =>
      have hrest : ∀ pre, pre <+: rest →
          1 ≤ (step wide offset i c rest s).braceDepth + Heights.height weight pre := by
        intro pre hpre
        have hlonger := h (c :: pre) (List.cons_prefix_cons.mpr ⟨rfl, hpre⟩)
        rw [Heights.height_cons] at hlonger
        rw [step_braceDepth]
        omega
      rw [run, ih _ _ hrest]
      have hopen := h [] List.nil_prefix
      rw [Heights.height_nil, Int.add_zero] at hopen
      rcases step_cases wide offset i c rest s with
        ⟨hc, hstep⟩ | ⟨hc, hstep⟩ | ⟨-, hstep⟩ | ⟨hword, -, hstep⟩
      · have hname : s.openBrace.name = s.name := if_neg (by omega)
        rw [hstep, hname, keyword_stop (wordChar_brace (.inl hc))]
      · rw [hstep, keyword_stop (wordChar_brace (.inr hc))]
        rfl
      · rw [hstep, keyword_cons]
        by_cases hhere : KeywordHere wide offset i (c :: rest)
        · rw [push_keyword hhere]
          exact iff_of_false (fun hnone => by cases hnone.1) fun hnot => hnot.2 (.inl hhere)
        · rw [push_other hhere, or_iff_right hhere]
      · rw [hstep, keyword_stop hword]

end Run

section Told

variable {text : List Char} {name : String}

-- Of the braces up to the first sign from the offset on, the last one that is opened with none open
-- has the name, a single character, before it, and no word that ends in the keyword after it.
def Shown (wide : Char → Bool) (offset : Nat) (text : List Char) (name : String) : Prop :=
  ∃ a b, reach wide offset 0 text = a ++ '\x7b' :: b ∧ Heights.height weight a = 0 ∧
    Heights.Stays weight b ∧
    (a.filter (wordChar wide)).getLast?.map String.singleton = some name ∧
    ¬Keyword wide offset (byteLen a + 1) b

def Open (wide : Char → Bool) (offset : Nat) (text : List Char) : Prop :=
  0 < Heights.height weight (reach wide offset 0 text)

theorem height_open {a b : List Char} (ha : Heights.height weight a = 0) :
    Heights.height weight (a ++ '\x7b' :: b) = 1 + Heights.height weight b := by
  rw [Heights.height_append, Heights.height_cons, ha, Int.zero_add]
  rfl

theorem Shown.open (h : Shown wide offset text name) : Open wide offset text := by
  obtain ⟨a, b, hreach, ha, hb, -⟩ := h
  have hnonneg := hb.height_nonneg
  rw [Open, hreach, height_open ha]
  omega

theorem run_split {a b : List Char} (ha : Heights.height weight a = 0)
    (hb : Heights.Stays weight b) :
    (run wide offset 0 (a ++ '\x7b' :: b) Cursor.start).name = some name ↔
      (a.filter (wordChar wide)).getLast?.map String.singleton = some name ∧
        ¬Keyword wide offset (byteLen a + 1) b := by
  have hdepth : (run wide offset 0 a Cursor.start).braceDepth = 0 := by
    rw [run_braceDepth, ha]
    rfl
  have htokens : (run wide offset 0 a Cursor.start).tokens.getLast?
      = ((a.filter (wordChar wide)).getLast?.map String.singleton).or none :=
    run_tokens 0 a Cursor.start
  have hname : (run wide offset 0 a Cursor.start).openBrace.name
      = (a.filter (wordChar wide)).getLast?.map String.singleton := by
    rw [Cursor.openBrace, hdepth]
    simp only [Int.zero_add, if_true]
    cases hlast : (a.filter (wordChar wide)).getLast? with
    | some c =>
        rw [hlast] at htokens
        rw [htokens]
        rfl
    | none =>
        rw [hlast] at htokens
        have hnone : (run wide offset 0 a Cursor.start).name = none :=
          run_nameless 0 a (fun _ => rfl) (List.getLast?_eq_none_iff.mp htokens)
        rw [htokens, hnone]
        rfl
  rw [run_append (wordChar_brace (.inl rfl)), ← hname, Nat.zero_add]
  refine run_name _ b _ fun pre hpre => ?_
  have hstay := hb pre hpre
  show 1 ≤ (run wide offset 0 a Cursor.start).braceDepth + 1 + _
  omega

theorem nearest_eq : nearestModelContext wide offset text =
    (decide (0 < (run wide offset 0 (reach wide offset 0 text) Cursor.start).braceDepth) &&
        (run wide offset 0 (reach wide offset 0 text) Cursor.start).inModel,
      (run wide offset 0 (reach wide offset 0 text) Cursor.start).name) := by
  rw [nearestModelContext, scanCursor_eq]

theorem nearest_fst : (nearestModelContext wide offset text).1 = true ↔
    Open wide offset text ∧ Keyword wide offset 0 text := by
  rw [nearest_eq, Bool.and_eq_true, decide_eq_true_eq, run_inModel, keyword_reach, run_braceDepth]
  have hzero : Cursor.start.braceDepth = 0 := rfl
  have hfalse : Cursor.start.inModel = false := rfl
  rw [hzero, hfalse, Int.zero_add, or_iff_right Bool.false_ne_true, Open]

theorem nearest_snd (hopen : Open wide offset text) :
    (nearestModelContext wide offset text).2 = some name ↔ Shown wide offset text name := by
  rw [nearest_eq]
  constructor
  · intro hname
    obtain ⟨a, c, b, hreach, ha, hc, hb⟩ := Heights.exists_rise weight_le_one hopen
    obtain rfl := weight_eq_one.mp hc
    rw [hreach] at hname
    exact ⟨a, b, hreach, ha, hb, (run_split ha hb).mp hname⟩
  · rintro ⟨a, b, hreach, ha, hb, hshown⟩
    rw [hreach]
    exact (run_split ha hb).mpr hshown

theorem Enclosed.keyword (h : Enclosed text offset name) : Keyword wide offset 0 text := by
  obtain ⟨p, c, q, htext, hc, hlt⟩ := h.parted
  refine ⟨p, c :: q, htext, by omega, ?_⟩
  intro d hd
  obtain rfl := Option.some.inj hd
  simp only [parting, blank, Bool.or_eq_true, decide_eq_true_eq] at hc
  rcases hc with (((rfl | rfl) | rfl) | rfl) | rfl <;> rfl

-- The context is the block around the offset where the name of the block is a single character that
-- the braces lead to, and outside of blocks where they are closed or there is no word to mislead.
theorem context_iff :
    ((∀ name,
        nearestModelContext wide offset text = (true, some name) ↔ Enclosed text offset name) ∧
      ((∀ name, ¬Enclosed text offset name) → (nearestModelContext wide offset text).1 = false)) ↔
    (∀ name, Enclosed text offset name → Shown wide offset text name) ∧
      ((∀ name, ¬Enclosed text offset name) →
        ¬Open wide offset text ∨ ¬Keyword wide offset 0 text) := by
  have hoff : (nearestModelContext wide offset text).1 = false ↔
      ¬Open wide offset text ∨ ¬Keyword wide offset 0 text := by
    rw [← Bool.not_eq_true, nearest_fst, not_and_or]
  rw [hoff]
  refine and_congr_left fun houtside =>
    ⟨fun h name hname => ?_, fun h name => ⟨fun hname => ?_, fun hname => ?_⟩⟩
  · have htold := (h name).mpr hname
    have hopen := (nearest_fst.mp (congrArg Prod.fst htold)).1
    exact (nearest_snd hopen).mp (congrArg Prod.snd htold)
  · by_cases hinside : ∃ other, Enclosed text offset other
    · obtain ⟨other, hother⟩ := hinside
      have hshown := (nearest_snd (h other hother).open).mpr (h other hother)
      have hsame : some name = some other := (congrArg Prod.snd hname).symm.trans hshown
      rw [Option.some.inj hsame]
      exact hother
    · rw [not_exists] at hinside
      have hfst := nearest_fst.mp (congrArg Prod.fst hname)
      rcases houtside hinside with hclosed | hno
      · exact absurd hfst.1 hclosed
      · exact absurd hfst.2 hno
  · have hshown := h name hname
    have hfst := nearest_fst.mpr ⟨hshown.open, hname.keyword⟩
    have hname := (nearest_snd hshown.open).mpr hshown
    exact Prod.ext hfst hname

-- No name of more than one character is ever told.
theorem told_singleton (h : nearestModelContext wide offset text = (true, some name)) :
    ∃ c, name = String.singleton c := by
  have hopen := (nearest_fst.mp (congrArg Prod.fst h)).1
  obtain ⟨a, b, -, -, -, hname, -⟩ := (nearest_snd hopen).mp (congrArg Prod.snd h)
  obtain ⟨c, -, hc⟩ := Option.map_eq_some_iff.mp hname
  exact ⟨c, hc.symm⟩

def userBlock : List Char := "model User \x7b\n".toList

theorem userBlock_enclosed : Enclosed userBlock 13 "User" :=
  ⟨[], [], rfl, rfl, rfl, Heights.Stays.nil⟩

theorem userBlock_told : ¬∀ name,
    nearestModelContext (fun _ => false) 13 userBlock = (true, some name) ↔
      Enclosed userBlock 13 name := by
  intro hall
  obtain ⟨c, hc⟩ := told_singleton ((hall "User").mpr userBlock_enclosed)
  have hlength := congrArg String.length hc
  rw [String.length_singleton] at hlength
  exact absurd hlength (by decide)

end Told

end Ruprizzle.Lsp
