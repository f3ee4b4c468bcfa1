import Mathlib.Data.List.DropRight
import Ruprizzle.Migrate.Splitter

namespace Ruprizzle.Splitter

variable {u : CharClass}

-- The tag closes the body where it first occurs.
def ClosedBy (tag body : List Char) : Prop :=
  ∀ pre post, body ++ tag = pre ++ (tag ++ post) → pre = body

-- Text in which quotes and tags come in pairs, and outside of them there is no
-- semicolon and no comment.
inductive Inert (u : CharClass) : List Char → Prop
  | nil : Inert u []
  | char {c : Char} {rest : List Char} : c ≠ '\x27' → c ≠ ';' →
      ¬ (c = '-' ∧ rest.head? = some '-') → ¬ (c = '/' ∧ rest.head? = some '*') →
        dollarTag u (c :: rest) = none → Inert u rest → Inert u (c :: rest)
  | string {body rest : List Char} : '\x27' ∉ body → Inert u rest →
      Inert u ('\x27' :: (body ++ '\x27' :: rest))
  | dollar {tag body rest : List Char} : IsTag u tag → ClosedBy tag body → Inert u rest →
      Inert u (tag ++ (body ++ (tag ++ rest)))

-- Text of nothing but blanks, empty statements and comments that are closed.
inductive Mute : List Char → Prop
  | nil : Mute []
  | blank {c : Char} {rest : List Char} : Text.isWhitespace c = true ∨ c = ';' → Mute rest →
      Mute (c :: rest)
  | line {body rest : List Char} : '\n' ∉ body → Mute rest →
      Mute ('-' :: '-' :: (body ++ '\n' :: rest))
  | block {body rest : List Char} : ClosedBy ['*', '/'] body → Mute rest →
      Mute ('/' :: '*' :: (body ++ '*' :: '/' :: rest))

theorem takeString_closed {body rest : List Char} (h : '\x27' ∉ body) :
    takeString (body ++ '\x27' :: rest) = (body ++ ['\x27'], rest) := by
  induction body with
  | nil => simp [takeString]
  | cons c body ih =>
      rw [List.mem_cons, not_or] at h
      have hc : c ≠ '\x27' := Ne.symm h.1
      simp [takeString, hc, ih h.2]

theorem takeString_open {chars : List Char} (h : '\x27' ∉ chars) : takeString chars = (chars, []) := by
  induction chars with
  | nil => rfl
  | cons c rest ih =>
      rw [List.mem_cons, not_or] at h
      have hc : c ≠ '\x27' := Ne.symm h.1
      simp [takeString, hc, ih h.2]

theorem ClosedBy.tail {tag body : List Char} {c : Char} (h : ClosedBy tag (c :: body)) :
    ClosedBy tag body := by
  intro pre post heq
  have := h (c :: pre) post (by simp [heq])
  exact (List.cons.inj this).2

-- An earlier tag would end inside the body and its closing tag.
theorem ClosedBy.not_prefix {tag body : List Char} {c : Char} (h : ClosedBy tag (c :: body))
    (rest : List Char) : ¬ tag <+: (c :: body) ++ (tag ++ rest) := by
  rintro ⟨post, hpost⟩
  have hpre : tag <+: (c :: body) ++ tag := by
    have hlong : (c :: body) ++ tag <+: (c :: body) ++ (tag ++ rest) := ⟨rest, by simp⟩
    refine List.prefix_of_prefix_length_le ⟨post, hpost⟩ hlong ?_
    simp only [List.cons_append, List.length_cons, List.length_append]
    omega
  obtain ⟨tail, htail⟩ := hpre
  exact absurd (h [] tail htail.symm) (by simp)

theorem takeDollar_closed {tag body rest : List Char} (hne : tag ≠ []) (h : ClosedBy tag body) :
    takeDollar tag (body ++ (tag ++ rest)) = (body ++ tag, rest) := by
  induction body with
  | nil =>
      cases tag with
      | nil => exact absurd rfl hne
      | cons c tag =>
          have hpre : (c :: tag).isPrefixOf (c :: (tag ++ rest)) = true :=
            List.isPrefixOf_iff_prefix.mpr ⟨rest, rfl⟩
          simp only [List.nil_append, List.cons_append, takeDollar, hpre, ite_true, List.length_cons,
            List.drop_succ_cons, List.drop_left]
  | cons c body ih =>
      have hnot : ¬ tag.isPrefixOf (c :: (body ++ (tag ++ rest))) = true := fun hp =>
        h.not_prefix rest (List.isPrefixOf_iff_prefix.mp hp)
      simp [takeDollar, hnot, ih h.tail]

-- A body is either closed where the tag first occurs, or it goes on to the end.
theorem takeDollar_cases (tag chars : List Char) :
    (∃ body rest, ClosedBy tag body ∧ chars = body ++ (tag ++ rest) ∧
      takeDollar tag chars = (body ++ tag, rest)) ∨ takeDollar tag chars = (chars, []) := by
  induction chars with
  | nil => exact Or.inr rfl
  | cons c rest ih =>
      by_cases hp : tag.isPrefixOf (c :: rest) = true
      · obtain ⟨tail, htail⟩ := List.isPrefixOf_iff_prefix.mp hp
        refine Or.inl ⟨[], tail, ?_, htail.symm, ?_⟩
        · intro pre post heq
          have := congrArg List.length heq
          simp only [List.nil_append, List.length_append] at this
          exact List.length_eq_zero_iff.mp (by omega)
        · simp [takeDollar, ← htail]
      · rcases ih with ⟨body, tail, hclosed, rfl, htake⟩ | htake
        · refine Or.inl ⟨c :: body, tail, ?_, rfl, by simp [takeDollar, hp, htake]⟩
          intro pre post heq
          cases pre with
          | nil =>
              refine absurd (List.isPrefixOf_iff_prefix.mpr ?_) hp
              refine ⟨post ++ tail, ?_⟩
              rw [← List.append_assoc, ← List.nil_append (tag ++ post), ← heq]
              simp
          | cons d pre =>
              have hcons := List.cons.inj heq
              rw [← hcons.1, hclosed pre post hcons.2]
        · exact Or.inr (by simp [takeDollar, hp, htake])

theorem prefix_of_prefix_append {tag text more : List Char} (hno : ';' ∉ tag)
    (h : tag <+: text ++ ';' :: more) : tag <+: text := by
  refine List.prefix_of_prefix_length_le h ⟨';' :: more, rfl⟩ ?_
  by_contra hlen
  obtain ⟨tail, htail⟩ := List.prefix_of_prefix_length_le ⟨';' :: more, rfl⟩ h (by omega)
  cases tail with
  | nil =>
      rw [List.append_nil] at htail
      rw [htail] at hlen
      omega
  | cons c tail =>
      obtain ⟨post, hpost⟩ := h
      rw [← htail, List.append_assoc, List.append_cancel_left_eq, List.cons_append] at hpost
      refine hno ?_
      rw [← htail, (List.cons.inj hpost).1]
      simp

theorem dollarTag_append {chars more : List Char} (h : dollarTag u chars = none) :
    dollarTag u (chars ++ ';' :: more) = none := by
  cases htag : dollarTag u (chars ++ ';' :: more) with
  | none => rfl
  | some tag =>
      obtain ⟨hisTag, hpre⟩ := dollarTag_eq_some.mp htag
      rw [dollarTag_eq_some.mpr ⟨hisTag, prefix_of_prefix_append hisTag.no_semicolon hpre⟩] at h
      cases h

theorem IsTag.cons {tag : List Char} (h : IsTag u tag) : ∃ word, tag = '$' :: word := by
  obtain ⟨name, rfl, _⟩ := h
  exact ⟨_, rfl⟩

theorem token_string {body : List Char} (h : '\x27' ∉ body) (rest : List Char) :
    token u '\x27' (body ++ '\x27' :: rest) = (.text ('\x27' :: (body ++ ['\x27'])), rest) := by
  simp [token, takeString_closed h]

theorem token_tag {c : Char} {tag rest after : List Char} (h : IsTag u tag) (hc : tag ++ rest = c :: after) :
    token u c after = (.text (tag ++ (takeDollar tag rest).1), (takeDollar tag rest).2) := by
  obtain ⟨word, hword⟩ := h.cons
  have hdollar : c = '$' := by
    rw [hword] at hc
    exact (List.cons.inj hc).1.symm
  have htag : dollarTag u (c :: after) = some tag := dollarTag_eq_some.mpr ⟨h, rest, hc⟩
  unfold token
  rw [if_neg (by rw [hdollar]; decide), htag, ← hc]
  simp

-- A statement read from its first character on ends at its semicolon.
theorem split_inert {text : List Char} (h : Inert u text) (more current : List Char) :
    split u (text ++ ';' :: more) current = finish (current ++ text) ++ split u more [] := by
  induction h generalizing current with
  | nil => simp [split_cons, token, dollarTag]
  | @char c rest hquote hsemi hdash hslash htag _ ih =>
      have htag' : dollarTag u (c :: (rest ++ ';' :: more)) = none := dollarTag_append htag
      have hhead : ∀ d : Char, d ≠ ';' → (rest ++ ';' :: more).head? = some d → rest.head? = some d := by
        intro d hd hh
        cases rest with
        | nil => exact absurd (Option.some.inj hh).symm hd
        | cons e rest => exact hh
      have htoken : token u c (rest ++ ';' :: more) = (.text [c], rest ++ ';' :: more) := by
        unfold token
        rw [if_neg hquote, htag']
        dsimp only
        rw [if_neg (fun h => hdash ⟨h.1, hhead _ (by decide) h.2⟩),
          if_neg (fun h => hslash ⟨h.1, hhead _ (by decide) h.2⟩), if_neg hsemi]
      rw [List.cons_append, split_cons, htoken]
      dsimp only
      rw [ih]
      simp
  | @string body rest hbody _ ih =>
      rw [List.cons_append, List.append_assoc, List.cons_append, split_cons, token_string hbody]
      dsimp only
      rw [ih]
      simp
  | @dollar tag body rest htag hclosed _ ih =>
      obtain ⟨word, hword⟩ := htag.cons
      have hcons : tag ++ (body ++ (tag ++ (rest ++ ';' :: more))) =
          '$' :: (word ++ (body ++ (tag ++ (rest ++ ';' :: more)))) := by
        rw [hword]
        rfl
      rw [List.append_assoc, List.append_assoc, List.append_assoc, hcons, split_cons,
        token_tag htag hcons, takeDollar_closed htag.ne_nil hclosed]
      dsimp only
      rw [ih]
      simp

theorem rdropWhile_append_cons {p : Char → Bool} {d : Char} (hd : p d = false) (x y : List Char) :
    (x ++ d :: y).rdropWhile p = x ++ d :: y.rdropWhile p := by
  induction y using List.reverseRecOn with
  | nil =>
      rw [List.rdropWhile_concat_neg _ _ _ (by simp [hd])]
      simp
  | append_singleton y c ih =>
      by_cases hc : p c = true
      · have hcons : x ++ d :: (y ++ [c]) = (x ++ d :: y) ++ [c] := by simp
        rw [hcons, List.rdropWhile_concat_pos _ _ _ hc, List.rdropWhile_concat_pos _ _ _ hc, ih]
      · have hcons : x ++ d :: (y ++ [c]) = (x ++ d :: y) ++ [c] := by simp
        rw [hcons, List.rdropWhile_concat_neg _ _ _ hc, List.rdropWhile_concat_neg _ _ _ hc]
        simp

theorem trim_cons {c : Char} (hc : Text.isWhitespace c = false) (rest : List Char) :
    Text.trim (c :: rest) = (c :: rest).rdropWhile Text.isWhitespace := by
  unfold Text.trim List.rdropWhile
  rw [List.dropWhile_cons_of_neg (by simp [hc])]

theorem trim_append_blank {b : List Char} (hb : ∀ c ∈ b, Text.isWhitespace c = true)
    (chars : List Char) : Text.trim (b ++ chars) = Text.trim chars := by
  unfold Text.trim
  rw [List.dropWhile_append_of_pos hb]

-- Blanks before a statement are not part of it.
theorem splitLoop_blank {b : List Char} (hb : ∀ c ∈ b, Text.isWhitespace c = true) (fuel : Nat)
    (chars current : List Char) :
    splitLoop u fuel chars (b ++ current) = splitLoop u fuel chars current := by
  have hfinish : ∀ current, finish (b ++ current) = finish current := by
    intro current
    unfold finish
    rw [trim_append_blank hb]
  induction fuel generalizing chars current with
  | zero => cases chars <;> simp [splitLoop, hfinish]
  | succ fuel ih =>
      cases chars with
      | nil => simp [splitLoop, hfinish]
      | cons c rest =>
          unfold splitLoop
          rcases token u c rest with ⟨t, after⟩
          cases t with
          | text kept => simp only [List.append_assoc, ih]
          | comment => simp only [List.append_assoc, ih]
          | semicolon => simp only [hfinish]

theorem split_blank {b : List Char} (hb : ∀ c ∈ b, Text.isWhitespace c = true)
    (chars : List Char) : split u chars b = split u chars [] := by
  have h := splitLoop_blank (u := u) hb chars.length chars []
  rwa [List.append_nil] at h

theorem finish_begun {c : Char} (hc : Text.isWhitespace c = false) (l : List Char) :
    finish (c :: l) = [Text.trim (c :: l)] := by
  unfold finish
  rw [if_neg]
  rw [trim_cons hc]
  intro h
  have := rdropWhile_append_cons hc [] l
  rw [List.nil_append, h] at this
  cases this

theorem trim_begun_prefix {c : Char} (hc : Text.isWhitespace c = false) (l : List Char) :
    Text.trim (c :: l) <+: c :: l := by
  rw [trim_cons hc]
  exact List.rdropWhile_prefix _ _

theorem trim_begun {c d : Char} (hc : Text.isWhitespace c = false)
    (hd : Text.isWhitespace d = false) (l y : List Char) :
    c :: (l ++ [d]) <+: Text.trim (c :: (l ++ d :: y)) := by
  rw [trim_cons hc]
  have h := rdropWhile_append_cons hd (c :: l) y
  rw [List.cons_append] at h
  rw [h]
  exact ⟨y.rdropWhile Text.isWhitespace, by simp⟩

-- A statement once begun comes out, with all that was read of it first.
theorem splitLoop_begun {c : Char} {l : List Char} (hc : Text.isWhitespace c = false) (fuel : Nat)
    (chars : List Char) :
    ∃ k ps, splitLoop u fuel chars (c :: l) = Text.trim (c :: (l ++ k)) :: ps := by
  have hfinish := finish_begun hc
  induction fuel generalizing chars l with
  | zero => cases chars <;> exact ⟨[], [], by simp [splitLoop, hfinish]⟩
  | succ fuel ih =>
      cases chars with
      | nil => exact ⟨[], [], by simp [splitLoop, hfinish]⟩
      | cons d rest =>
          unfold splitLoop
          rcases token u d rest with ⟨t, after⟩
          cases t with
          | text kept =>
              obtain ⟨k, ps, h⟩ := @ih (l ++ kept) after
              exact ⟨kept ++ k, ps, by simpa using h⟩
          | comment =>
              obtain ⟨k, ps, h⟩ := @ih (l ++ [' ']) after
              exact ⟨[' '] ++ k, ps, by simpa using h⟩
          | semicolon =>
              refine ⟨[], splitLoop u fuel after [], ?_⟩
              simp only [hfinish, List.append_nil, List.singleton_append]

theorem split_begun {c : Char} {l : List Char} (hc : Text.isWhitespace c = false)
    (chars : List Char) : ∃ k ps, split u chars (c :: l) = Text.trim (c :: (l ++ k)) :: ps :=
  splitLoop_begun hc _ _

-- Where a comment stands a statement is no longer what it was.
theorem trim_comment_ne {c d : Char} (hc : Text.isWhitespace c = false)
    (hd : Text.isWhitespace d = false) (l k y : List Char) :
    Text.trim (c :: (l ++ ' ' :: k)) ≠ Text.trim (c :: (l ++ d :: y)) := by
  intro h
  have hpre := (trim_begun hc hd l y).trans (h ▸ trim_begun_prefix hc (l ++ ' ' :: k))
  rw [List.cons_prefix_cons] at hpre
  have hone := (List.prefix_append_right_inj l).mp hpre.2
  rw [List.cons_prefix_cons] at hone
  rw [hone.1] at hd
  exact absurd hd (by decide)

theorem trim_longer_ne {c d : Char} (hc : Text.isWhitespace c = false)
    (hd : Text.isWhitespace d = false) (l y : List Char) :
    Text.trim (c :: l) ≠ Text.trim (c :: (l ++ d :: y)) := by
  intro h
  have hpre := ((trim_begun hc hd l y).trans (h ▸ trim_begun_prefix hc l)).length_le
  simp only [List.length_cons, List.length_append, List.length_nil] at hpre
  omega

theorem IsTag.last {tag : List Char} (h : IsTag u tag) : ∃ word, tag = word ++ ['$'] := by
  obtain ⟨name, rfl, _⟩ := h
  exact ⟨'$' :: name, rfl⟩

theorem IsTag.inside {tag body rest tail : List Char} (h : IsTag u tag)
    (heq : tail ++ [';', '\n'] = body ++ (tag ++ rest)) :
    ∃ after, tail = body ++ (tag ++ after) ∧ rest = after ++ [';', '\n'] := by
  obtain ⟨word, hlast⟩ := h.last
  rw [← List.append_assoc] at heq
  rcases List.append_eq_append_iff.mp heq with ⟨a, ha, hrest⟩ | ⟨a, ha, hrest⟩
  · have hword : body ++ word ++ ['$'] = tail ++ a := by
      rw [← ha, hlast]
      simp
    match a, hrest with
    | [], hrest => exact ⟨[], by simpa using ha.symm, by simpa using hrest.symm⟩
    | [x], hrest =>
        have hx := List.append_inj_right' hword rfl
        simp only [List.cons_append, List.cons.injEq] at hrest hx
        rw [← hx.1] at hrest
        exact absurd hrest.1 (by decide)
    | [x, y], hrest =>
        have hcons : tail ++ [x, y] = (tail ++ [x]) ++ [y] := by simp
        rw [hcons] at hword
        have hy := List.append_inj_right' hword rfl
        simp only [List.cons_append, List.cons.injEq] at hrest hy
        rw [← hy.1] at hrest
        exact absurd hrest.2.1 (by decide)
    | x :: y :: z :: a, hrest =>
        have := congrArg List.length hrest
        simp at this
  · exact ⟨a, by rw [ha, List.append_assoc], hrest⟩

-- Only inert text comes out as the statement it is.
theorem inert_of_split {c : Char} {l text : List Char} (hc : Text.isWhitespace c = false)
    (h : split u (text ++ [';', '\n']) (c :: l) = [Text.trim (c :: (l ++ text))]) :
    Inert u text := by
  induction hlen : text.length using Nat.strong_induction_on generalizing l text with
  | _ n ih =>
  have hopen : ∀ text : List Char,
      finish (c :: (l ++ (text ++ [';', '\n']))) ≠ [Text.trim (c :: (l ++ text))] := by
    intro text heq
    rw [finish_begun hc] at heq
    have := trim_longer_ne (d := ';') hc (by decide) (l ++ text) ['\n']
    exact this (by simpa using (List.cons.inj heq).1.symm)
  have hcomment : ∀ d rest after, Text.isWhitespace d = false →
      split u after (c :: (l ++ [' '])) ≠ [Text.trim (c :: (l ++ d :: rest))] := by
    intro d rest after hd heq
    obtain ⟨k, ps, hk⟩ := split_begun (u := u) (l := l ++ [' ']) hc after
    rw [hk] at heq
    refine trim_comment_ne hc hd l k rest ?_
    simpa using (List.cons.inj heq).1
  cases text with
  | nil => exact .nil
  | cons d rest =>
      rw [List.length_cons] at hlen
      rw [List.cons_append, split_cons] at h
      by_cases hquote : d = '\x27'
      · subst hquote
        by_cases hmem : '\x27' ∈ rest
        · obtain ⟨body, after, rfl, hno⟩ := List.eq_append_cons_of_mem hmem
          rw [List.append_assoc, List.cons_append, token_string hno] at h
          refine .string hno (ih after.length ?_ (l := l ++ '\x27' :: (body ++ ['\x27'])) ?_ rfl)
          · simp only [List.length_append, List.length_cons] at hlen
            omega
          · simpa using h
        · have hno : '\x27' ∉ rest ++ [';', '\n'] := by simpa using hmem
          simp only [token, ite_true, takeString_open hno, split_nil] at h
          exact absurd h (hopen ('\x27' :: rest))
      · cases htag : dollarTag u (d :: (rest ++ [';', '\n'])) with
        | some tag =>
            obtain ⟨hisTag, hpre⟩ := dollarTag_eq_some.mp htag
            obtain ⟨tail, htail⟩ := prefix_of_prefix_append hisTag.no_semicolon
              (show tag <+: (d :: rest) ++ ';' :: ['\n'] from hpre)
            have hwhole : tag ++ (tail ++ [';', '\n']) = d :: (rest ++ [';', '\n']) := by
              rw [← List.append_assoc, htail, List.cons_append]
            rw [token_tag hisTag hwhole] at h
            rcases takeDollar_cases tag (tail ++ [';', '\n']) with ⟨body, more, hclosed, heq, htake⟩ | htake
            · obtain ⟨after, rfl, rfl⟩ := hisTag.inside heq
              rw [htake] at h
              have htext := congrArg List.length htail
              have hpos := List.length_pos_iff.mpr hisTag.ne_nil
              simp only [List.length_append, List.length_cons] at htext
              rw [← htail]
              refine .dollar hisTag hclosed (ih after.length (by omega) (l := l ++ (tag ++ (body ++ tag))) ?_ rfl)
              rw [← htail] at h
              simpa using h
            · rw [htake] at h
              simp only [split_nil] at h
              rw [← htail] at h
              refine absurd ?_ (hopen (tag ++ tail))
              simpa using h
        | none =>
            simp only [token, if_neg hquote, htag] at h
            have hhead : ∀ e : Char, rest.head? = some e → (rest ++ [';', '\n']).head? = some e := by
              intro e he
              cases rest with
              | nil => cases he
              | cons f rest => exact he
            by_cases hdash : d = '-' ∧ (rest ++ [';', '\n']).head? = some '-'
            · rw [if_pos hdash] at h
              exact absurd h (hcomment d rest _ (by rw [hdash.1]; decide))
            · rw [if_neg hdash] at h
              by_cases hslash : d = '/' ∧ (rest ++ [';', '\n']).head? = some '*'
              · rw [if_pos hslash] at h
                exact absurd h (hcomment d rest _ (by rw [hslash.1]; decide))
              · rw [if_neg hslash] at h
                by_cases hsemi : d = ';'
                · rw [if_pos hsemi] at h
                  dsimp only at h
                  rw [finish_begun hc, List.singleton_append] at h
                  refine absurd (List.cons.inj h).1 (trim_longer_ne hc ?_ l rest)
                  rw [hsemi]
                  decide
                · rw [if_neg hsemi] at h
                  refine .char hquote hsemi (fun hd => hdash ⟨hd.1, hhead _ hd.2⟩)
                    (fun hd => hslash ⟨hd.1, hhead _ hd.2⟩) ?_
                    (ih rest.length (by omega) (l := l ++ [d]) (by simpa using h) rfl)
                  cases htag' : dollarTag u (d :: rest) with
                  | none => rfl
                  | some tag =>
                      obtain ⟨hisTag, tail, htail⟩ := dollarTag_eq_some.mp htag'
                      rw [dollarTag_eq_some.mpr ⟨hisTag, tail ++ [';', '\n'], by
                        rw [← List.append_assoc, htail, List.cons_append]⟩] at htag
                      cases htag

theorem afterLine_body {body : List Char} (h : '\n' ∉ body) (rest : List Char) :
    afterLine (body ++ '\n' :: rest) = rest := by
  unfold afterLine
  rw [List.dropWhile_append_of_pos]
  · simp
  · intro c hc
    simp only [ne_eq, decide_not, Bool.not_eq_true', decide_eq_false_iff_not]
    exact fun heq => h (heq ▸ hc)

theorem afterBlock_body {body : List Char} (h : ClosedBy ['*', '/'] body) (rest : List Char) :
    afterBlock (body ++ '*' :: '/' :: rest) = rest := by
  induction body with
  | nil => simp [afterBlock]
  | cons c body ih =>
      have hnot := h.not_prefix rest
      rw [List.cons_append]
      cases body with
      | nil =>
          rw [List.nil_append, afterBlock, if_neg (by simp)]
          simp [afterBlock]
      | cons d body =>
          rw [List.cons_append, afterBlock, if_neg]
          · exact ih h.tail
          · rintro ⟨rfl, rfl⟩
            exact hnot ⟨body ++ (['*', '/'] ++ rest), by simp⟩

-- A block comment is closed where its end first occurs, or all of it is read.
theorem afterBlock_cases (chars : List Char) :
    (∃ body rest, ClosedBy ['*', '/'] body ∧ chars = body ++ '*' :: '/' :: rest) ∨
      ∀ x y, chars.getLast? ≠ some '*' → x ≠ '/' → x ≠ '*' →
        afterBlock (chars ++ [x, y]) = [y] := by
  induction chars using afterBlock.induct with
  | case1 =>
      refine Or.inr fun x y _ hx hx' => ?_
      rw [List.nil_append, afterBlock, if_neg (fun h => hx' h.1)]
      rfl
  | case2 c =>
      refine Or.inr fun x y hlast hx hx' => ?_
      have hc : c ≠ '*' := fun h => hlast (by rw [h]; rfl)
      rw [List.cons_append, List.nil_append, afterBlock, if_neg (fun h => hc h.1), afterBlock,
        if_neg (fun h => hx' h.1)]
      rfl
  | case3 c d rest h =>
      obtain ⟨rfl, rfl⟩ := h
      refine Or.inl ⟨[], rest, ?_, rfl⟩
      intro pre post heq
      have := congrArg List.length heq
      simp only [List.nil_append, List.length_append, List.length_cons, List.length_nil] at this
      exact List.length_eq_zero_iff.mp (by omega)
  | case4 c d rest h ih =>
      rcases ih with ⟨body, tail, hclosed, heq⟩ | hopen
      · refine Or.inl ⟨c :: body, tail, ?_, by rw [heq, List.cons_append]⟩
        intro pre post hpre
        cases pre with
        | nil =>
            refine absurd ?_ h
            cases body with
            | nil =>
                simp only [List.nil_append, List.cons_append, List.cons.injEq] at heq hpre
                exact ⟨hpre.1, by rw [heq.1, ← hpre.2.1]⟩
            | cons e body =>
                simp only [List.nil_append, List.cons_append, List.cons.injEq] at heq hpre
                exact ⟨hpre.1, by rw [heq.1, hpre.2.1]⟩
        | cons e pre =>
            have hcons := List.cons.inj hpre
            rw [← hcons.1, hclosed pre post hcons.2]
      · refine Or.inr fun x y hlast hx hx' => ?_
        rw [List.cons_append, List.cons_append, afterBlock, if_neg h]
        exact hopen x y (by simpa using hlast) hx hx'

-- Nothing comes of text that is mute.
theorem split_mute {text : List Char} (h : Mute text) (more : List Char) :
    split u (text ++ more) [] = split u more [] := by
  have hblank : ∀ chars, split u chars [' '] = split u chars [] := fun chars =>
    split_blank (by simp [Text.isWhitespace]) chars
  induction h with
  | nil => rfl
  | @blank c rest hc _ ih =>
      rw [List.cons_append, split_cons]
      by_cases hsemi : c = ';'
      · subst hsemi
        simp [token, dollarTag, finish, Text.trim, ih]
      · have hspace := hc.resolve_right hsemi
        have hne : ∀ d : Char, Text.isWhitespace d = false → c ≠ d := by
          rintro d hd rfl
          rw [hspace] at hd
          cases hd
        have hnotag : dollarTag u (c :: (rest ++ more)) = none := by
          unfold dollarTag
          split
          · rename_i heq
            exact absurd (List.cons.inj heq).1 (hne '$' (by decide))
          · rfl
        unfold token
        rw [if_neg (hne _ (by decide)), hnotag]
        dsimp only
        rw [if_neg (fun h => hne '-' (by decide) h.1), if_neg (fun h => hne '/' (by decide) h.1),
          if_neg hsemi]
        dsimp only
        rw [List.nil_append, split_blank (by simpa using hspace), ih]
  | @line body rest hbody _ ih =>
      rw [List.cons_append, List.cons_append, List.append_assoc, List.cons_append, split_cons]
      simp [token, dollarTag, afterLine_body hbody, hblank, ih]
  | @block body rest hbody _ ih =>
      rw [List.cons_append, List.cons_append, List.append_assoc, List.cons_append, List.cons_append,
        split_cons]
      simp [token, dollarTag, afterBlock_body hbody, hblank, ih]

theorem token_kept {c : Char} {rest : List Char} (hdash : ¬ (c = '-' ∧ rest.head? = some '-'))
    (hslash : ¬ (c = '/' ∧ rest.head? = some '*')) (hsemi : c ≠ ';') :
    ∃ kept after, token u c rest = (.text (c :: kept), after) := by
  unfold token
  split
  · exact ⟨_, _, rfl⟩
  · split
    · rename_i tag htag
      obtain ⟨word, hword⟩ := (dollarTag_eq_some.mp htag).1.cons
      have hpre := (dollarTag_eq_some.mp htag).2
      rw [hword, List.cons_prefix_cons] at hpre
      refine ⟨word ++ (takeDollar tag ((c :: rest).drop tag.length)).1,
        (takeDollar tag ((c :: rest).drop tag.length)).2, ?_⟩
      rw [← hpre.1, ← List.cons_append, ← hword]
    · exact ⟨[], rest, rfl⟩

-- Only mute text leaves no trace, whatever follows it.
theorem mute_of_split {text : List Char} (hend : text = [] ∨ text.getLast? = some '\n')
    (h : ∀ more, split u (text ++ more) [] = split u more []) : Mute text := by
  induction hlen : text.length using Nat.strong_induction_on generalizing text with
  | _ n ih =>
  have hspace : ∀ chars, split u chars [' '] = split u chars [] := fun chars =>
    split_blank (by simp [Text.isWhitespace]) chars
  cases text with
  | nil => exact .nil
  | cons c rest =>
      have hlast : (c :: rest).getLast? = some '\n' := hend.resolve_left (by simp)
      have hlast_of : ∀ pre post : List Char, c :: rest = pre ++ post →
          post = [] ∨ post.getLast? = some '\n' := by
        intro pre post heq
        by_cases hp : post = []
        · exact Or.inl hp
        · right
          rw [heq, List.getLast?_append_of_ne_nil _ hp] at hlast
          exact hlast
      rw [List.length_cons] at hlen
      by_cases hdash : c = '-' ∧ rest.head? = some '-'
      · obtain ⟨rfl, hhead⟩ := hdash
        cases rest with
        | nil => cases hhead
        | cons d rest =>
            obtain rfl := Option.some.inj hhead
            have hmem : '\n' ∈ rest := by
              have := List.mem_of_getLast? hlast
              simpa using this
            obtain ⟨body, after, rfl, hbody⟩ := List.eq_append_cons_of_mem hmem
            refine .line hbody (ih after.length ?_ (hlast_of ('-' :: '-' :: (body ++ ['\n'])) after (by simp)) ?_ rfl)
            · simp only [List.length_append, List.length_cons] at hlen
              omega
            · intro more
              rw [← h more, List.cons_append, List.cons_append, List.append_assoc, List.cons_append,
                split_cons]
              simp [token, dollarTag, afterLine_body hbody, hspace]
      · by_cases hslash : c = '/' ∧ rest.head? = some '*'
        · obtain ⟨rfl, hhead⟩ := hslash
          cases rest with
          | nil => cases hhead
          | cons d rest =>
              obtain rfl := Option.some.inj hhead
              rcases afterBlock_cases rest with ⟨body, after, hclosed, rfl⟩ | hopen
              · refine .block hclosed (ih after.length ?_ (hlast_of ('/' :: '*' :: (body ++ ['*', '/'])) after (by simp)) ?_ rfl)
                · simp only [List.length_append, List.length_cons] at hlen
                  omega
                · intro more
                  rw [← h more, List.cons_append, List.cons_append, List.append_assoc,
                    List.cons_append, List.cons_append, split_cons]
                  simp [token, dollarTag, afterBlock_body hclosed, hspace]
              · -- The comment would swallow the statement that follows.
                have hnot : rest.getLast? ≠ some '*' := by
                  rcases hlast_of ['/', '*'] rest rfl with hnil | hnl
                  · simp [hnil]
                  · simp [hnl]
                have hswallowed := h ['a', ';']
                rw [List.cons_append, List.cons_append, split_cons] at hswallowed
                simp [token, dollarTag, hopen 'a' ';' hnot (by decide) (by decide), split_cons,
                  finish, Text.trim, Text.isWhitespace] at hswallowed
        · by_cases hc : Text.isWhitespace c = true ∨ c = ';'
          · refine .blank hc (ih rest.length (by omega) (hlast_of [c] rest rfl) ?_ rfl)
            intro more
            rw [← h more]
            have hone : Mute [c] := .blank hc .nil
            have := split_mute (u := u) hone (rest ++ more)
            simpa using this.symm
          · rw [not_or, Bool.not_eq_true] at hc
            obtain ⟨kept, after, htoken⟩ := token_kept (u := u) hdash hslash hc.2
            have hnil := h []
            rw [List.append_nil, split_cons, htoken] at hnil
            dsimp only at hnil
            obtain ⟨k, ps, hps⟩ := split_begun (u := u) (l := kept) hc.1 after
            rw [List.nil_append, hps] at hnil
            simp [finish, Text.trim] at hnil

end Ruprizzle.Splitter
