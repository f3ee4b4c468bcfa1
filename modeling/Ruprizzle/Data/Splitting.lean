import Mathlib.Data.List.Basic

namespace Ruprizzle

-- Texts cut at a pattern, and what is taken off their ends.
namespace Splitting

variable {α : Type}

section Cut

variable [DecidableEq α] {pat u v : List α}

-- The pattern is looked for from left to right, and what it takes is skipped.
def splitAfter (pat : List α) : Nat → List α → List (List α)
  | _, [] => [[]]
  | skip + 1, _ :: rest => splitAfter pat skip rest
  | 0, a :: rest =>
      if pat.isPrefixOf (a :: rest) then [] :: splitAfter pat (pat.length - 1) rest
      else (splitAfter pat 0 rest).modifyHead (a :: ·)

def split (pat text : List α) : List (List α) := splitAfter pat 0 text

theorem splitAfter_ne_nil (pat : List α) (skip : Nat) (text : List α) : splitAfter pat skip text ≠ [] := by
  induction text generalizing skip with
  | nil => cases skip <;> simp [splitAfter]
  | cons a rest ih =>
      cases skip with
      | zero =>
          rw [splitAfter]
          split
          · simp
          · intro hnil
            have hlength := congrArg List.length hnil
            rw [List.length_modifyHead] at hlength
            exact ih 0 (List.length_eq_zero_iff.mp hlength)
      | succ skip => exact ih skip

theorem split_ne_nil (pat text : List α) : split pat text ≠ [] := splitAfter_ne_nil pat 0 text

theorem splitAfter_length (u v : List α) : splitAfter pat u.length (u ++ v) = split pat v := by
  induction u with
  | nil => rfl
  | cons a rest ih => exact ih

theorem split_cons {a : α} (h : pat.isPrefixOf (a :: u) = false) :
    split pat (a :: u) = (split pat u).modifyHead (a :: ·) := by
  rw [split, splitAfter, if_neg (by simp [h])]
  rfl

-- The pattern does not begin inside of a text without its first sign.
theorem split_append (h : ∀ a ∈ u, pat.head? ≠ some a) (hpat : pat ≠ []) :
    split pat (u ++ v) = (split pat v).modifyHead (u ++ ·) := by
  induction u with
  | nil => exact (List.modifyHead_id ▸ rfl)
  | cons a rest ih =>
      obtain ⟨ha, hrest⟩ := List.forall_mem_cons.mp h
      obtain ⟨first, more, rfl⟩ := List.exists_cons_of_ne_nil hpat
      have hno : (first :: more).isPrefixOf (a :: (rest ++ v)) = false := by
        have hne : first ≠ a := fun heq => ha (congrArg some heq)
        simp [List.isPrefixOf, hne]
      rw [List.cons_append, split_cons hno, ih hrest, List.modifyHead_modifyHead]
      rfl

theorem split_pattern (hpat : pat ≠ []) : split pat (pat ++ v) = [] :: split pat v := by
  obtain ⟨first, more, rfl⟩ := List.exists_cons_of_ne_nil hpat
  have hprefix : (first :: more).isPrefixOf (first :: (more ++ v)) = true :=
    List.isPrefixOf_iff_prefix.mpr (List.prefix_append (first :: more) v)
  rw [List.cons_append, split, splitAfter, if_pos hprefix]
  exact congrArg ([] :: ·) (splitAfter_length more v)

theorem split_piece (h : ∀ a ∈ u, pat.head? ≠ some a) (hpat : pat ≠ []) :
    split pat (u ++ (pat ++ v)) = u :: split pat v := by
  rw [split_append h hpat, split_pattern hpat, List.modifyHead_cons, List.append_nil]

-- A text that lacks a sign of the pattern is not cut.
theorem split_of_not_mem {a : α} (hpat : a ∈ pat) (h : a ∉ u) : split pat u = [u] := by
  induction u with
  | nil => rfl
  | cons b rest ih =>
      have hno : pat.isPrefixOf (b :: rest) = false := by
        rw [Bool.eq_false_iff]
        intro hprefix
        exact h ((List.isPrefixOf_iff_prefix.mp hprefix).subset hpat)
      rw [split_cons hno, ih (List.not_mem_of_not_mem_cons h)]
      rfl

end Cut

section Ends

variable (p : α → Bool)

def strip (text : List α) : List α := ((text.dropWhile p).reverse.dropWhile p).reverse

-- A text that has nothing at its ends that is taken off.
structure Firm (text : List α) : Prop where
  head : ∃ a, text.head? = some a ∧ p a = false
  last : ∃ a, text.getLast? = some a ∧ p a = false

variable {p} {u text w : List α}

theorem dropWhile_append (hpad : ∀ a ∈ u, p a = true) (h : ∃ a, text.head? = some a ∧ p a = false) :
    (u ++ text).dropWhile p = text := by
  induction u with
  | nil =>
      obtain ⟨a, ha, hp⟩ := h
      obtain ⟨rest, rfl⟩ := List.head?_eq_some_iff.mp ha
      rw [List.nil_append, List.dropWhile_cons_of_neg (by simp [hp])]
  | cons b rest ih =>
      obtain ⟨hb, hrest⟩ := List.forall_mem_cons.mp hpad
      rw [List.cons_append, List.dropWhile_cons_of_pos hb, ih hrest]

theorem dropLast_append (htail : ∀ a ∈ w, p a = true)
    (h : ∃ a, text.getLast? = some a ∧ p a = false) :
    ((text ++ w).reverse.dropWhile p).reverse = text := by
  have hhead : ∃ a, text.reverse.head? = some a ∧ p a = false := by
    rw [List.head?_reverse]
    exact h
  rw [List.reverse_append, dropWhile_append (fun a ha => htail a (List.mem_reverse.mp ha)) hhead,
    List.reverse_reverse]

theorem strip_pad (hpad : ∀ a ∈ u, p a = true) (h : Firm p text) : strip p (u ++ text) = text := by
  have hlast : ((text ++ []).reverse.dropWhile p).reverse = text := dropLast_append (by simp) h.last
  rw [List.append_nil] at hlast
  rw [strip, dropWhile_append hpad h.head, hlast]

theorem strip_firm (h : Firm p text) : strip p text = text := strip_pad (u := []) (by simp) h

theorem head_dropWhile (text : List α) {a : α} (h : (text.dropWhile p).head? = some a) :
    p a = false := by
  have hhead := List.head?_dropWhile_not p text
  rw [h] at hhead
  simpa using hhead

-- A strip takes what it can off both ends.
theorem exists_strip (p : α → Bool) (text : List α) : ∃ u w, text = u ++ strip p text ++ w ∧
    (∀ a ∈ u, p a = true) ∧ (∀ a ∈ w, p a = true) ∧ (strip p text = [] ∨ Firm p (strip p text)) := by
  have hlead := List.takeWhile_append_dropWhile (p := p) (l := text)
  have htail : strip p text ++ ((text.dropWhile p).reverse.takeWhile p).reverse = text.dropWhile p := by
    rw [strip, ← List.reverse_append, List.takeWhile_append_dropWhile, List.reverse_reverse]
  refine ⟨text.takeWhile p, ((text.dropWhile p).reverse.takeWhile p).reverse, ?_,
    fun a ha => List.all_eq_true.mp List.all_takeWhile a ha,
    fun a ha => List.all_eq_true.mp List.all_takeWhile a (List.mem_reverse.mp ha), ?_⟩
  · rw [List.append_assoc, htail, hlead]
  · by_cases hnil : strip p text = []
    · exact Or.inl hnil
    · right
      constructor
      · obtain ⟨a, rest, hcons⟩ := List.exists_cons_of_ne_nil hnil
        refine ⟨a, by rw [hcons]; rfl, head_dropWhile text ?_⟩
        rw [← htail, hcons]
        rfl
      · obtain ⟨a, ha⟩ := Option.ne_none_iff_exists'.mp (mt List.getLast?_eq_none_iff.mp hnil)
        refine ⟨a, ha, head_dropWhile (text.dropWhile p).reverse ?_⟩
        rwa [strip, List.getLast?_reverse] at ha

end Ends

-- The pieces between separators that are not empty.
section Pieces

variable (p : α → Bool)

def pieces (text : List α) : List (List α) := (text.splitOnP p).filter fun w => !w.isEmpty

-- A piece without a separator, and what may stand behind it.
structure Piece (w : List α) : Prop where
  ne_nil : w ≠ []
  inside : ∀ a ∈ w, p a = false

def Bounded (text : List α) : Prop := ∀ a ∈ text.head?, p a = true

variable {p} {a : α} {u v w text : List α}

theorem pieces_of_inside (h : ∀ a ∈ u, p a = false) : pieces p u = if u = [] then [] else [u] := by
  rw [pieces, List.splitOnP_eq_singleton h]
  cases u with
  | nil => rfl
  | cons a rest => rfl

theorem pieces_append_cons (ha : p a = true) :
    pieces p (u ++ a :: v) = pieces p u ++ pieces p v := by
  rw [pieces, List.splitOnP_append_cons u v ha, List.filter_append]
  rfl

theorem pieces_cons (ha : p a = true) : pieces p (a :: v) = pieces p v :=
  pieces_append_cons (u := []) ha

theorem pieces_pad (h : ∀ a ∈ u, p a = true) : pieces p (u ++ v) = pieces p v := by
  induction u with
  | nil => rfl
  | cons a rest ih =>
      obtain ⟨ha, hrest⟩ := List.forall_mem_cons.mp h
      rw [List.cons_append, pieces_cons ha, ih hrest]

theorem pieces_piece (h : Piece p w) (hv : Bounded p v) : pieces p (w ++ v) = w :: pieces p v := by
  have hone : pieces p w = [w] := by rw [pieces_of_inside h.inside, if_neg h.ne_nil]
  cases v with
  | nil => rw [List.append_nil, hone]; rfl
  | cons a rest => rw [pieces_append_cons (hv a rfl), pieces_cons (hv a rfl), hone]; rfl

-- A text has no separator, or is cut at its first one.
theorem first_separator (p : α → Bool) (text : List α) : (∀ a ∈ text, p a = false) ∨
    ∃ u a v, text = u ++ a :: v ∧ (∀ b ∈ u, p b = false) ∧ p a = true := by
  induction text with
  | nil => exact Or.inl (by simp)
  | cons b rest ih =>
      cases hb : p b with
      | true => exact Or.inr ⟨[], b, rest, rfl, by simp, hb⟩
      | false =>
          rcases ih with h | ⟨u, a, v, rfl, hu, ha⟩
          · exact Or.inl (List.forall_mem_cons.mpr ⟨hb, h⟩)
          · exact Or.inr ⟨b :: u, a, v, rfl, List.forall_mem_cons.mpr ⟨hb, hu⟩, ha⟩

-- The pieces of a text are the places in it that no piece runs into from either side.
theorem mem_pieces_iff : w ∈ pieces p text ↔ Piece p w ∧ ∃ before after,
    text = before ++ w ++ after ∧ Bounded p before.reverse ∧ Bounded p after := by
  constructor
  · induction hlength : text.length using Nat.strongRecOn generalizing text with
    | ind n ih =>
        intro hw
        rcases first_separator p text with h | ⟨u, a, v, rfl, hu, ha⟩
        · rw [pieces_of_inside h] at hw
          split at hw
          · cases hw
          · next hne =>
              obtain rfl := List.mem_singleton.mp hw
              exact ⟨⟨hne, h⟩, [], [], by simp, by simp [Bounded], by simp [Bounded]⟩
        · rw [pieces_append_cons ha, pieces_of_inside hu] at hw
          rcases List.mem_append.mp hw with hw | hw
          · split at hw
            · cases hw
            · next hne =>
                obtain rfl := List.mem_singleton.mp hw
                refine ⟨⟨hne, hu⟩, [], a :: v, by simp, by simp [Bounded], ?_⟩
                exact fun b hb => Option.some.inj hb ▸ ha
          · have hshort : v.length < n := by
              rw [← hlength, List.length_append, List.length_cons]
              omega
            obtain ⟨hpiece, before, after, rfl, hbefore, hafter⟩ := ih v.length hshort rfl hw
            refine ⟨hpiece, u ++ a :: before, after, by simp, ?_, hafter⟩
            rw [List.reverse_append, List.reverse_cons]
            cases hlast : before.reverse with
            | nil => exact fun b hb => Option.some.inj hb ▸ ha
            | cons c rest =>
                intro b hb
                rw [hlast] at hbefore
                exact hbefore b hb
  · rintro ⟨hpiece, before, after, rfl, hbefore, hafter⟩
    rw [List.append_assoc]
    rcases before.eq_nil_or_concat with rfl | ⟨rest, a, rfl⟩
    · rw [List.nil_append, pieces_piece hpiece hafter]
      exact List.mem_cons_self
    · have ha : p a = true := hbefore a (by simp)
      rw [List.concat_append, pieces_append_cons ha, pieces_piece hpiece hafter]
      exact List.mem_append_right _ List.mem_cons_self

-- The first piece stands behind separators alone, and the others behind it.
theorem pieces_eq_cons {rest : List (List α)} : pieces p text = w :: rest ↔ Piece p w ∧
    ∃ pad after, text = pad ++ w ++ after ∧ (∀ a ∈ pad, p a = true) ∧ Bounded p after ∧
      rest = pieces p after := by
  constructor
  · induction text with
    | nil => intro h; cases h
    | cons b text ih =>
        intro h
        cases hb : p b with
        | true =>
            rw [pieces_cons hb] at h
            obtain ⟨hpiece, pad, after, rfl, hpad, hafter, hrest⟩ := ih h
            exact ⟨hpiece, b :: pad, after, rfl, List.forall_mem_cons.mpr ⟨hb, hpad⟩, hafter, hrest⟩
        | false =>
            clear ih
            rcases first_separator p (b :: text) with hnone | ⟨u, a, v, heq, hu, ha⟩
            · rw [pieces_of_inside hnone, if_neg (List.cons_ne_nil b text)] at h
              obtain ⟨rfl, rfl⟩ := List.cons.inj h
              exact ⟨⟨List.cons_ne_nil b text, hnone⟩, [], [], by simp, by simp,
                by simp [Bounded], rfl⟩
            · have hne : u ≠ [] := by
                rintro rfl
                rw [(List.cons.inj heq).1, ha] at hb
                cases hb
              rw [heq, pieces_append_cons ha, pieces_of_inside hu, if_neg hne] at h
              obtain ⟨rfl, rfl⟩ := List.cons.inj h
              refine ⟨⟨hne, hu⟩, [], a :: v, by simp [heq], by simp, ?_, (pieces_cons ha).symm⟩
              exact fun c hc => Option.some.inj hc ▸ ha
  · rintro ⟨hpiece, pad, after, rfl, hpad, hafter, rfl⟩
    rw [List.append_assoc, pieces_pad hpad, pieces_piece hpiece hafter]

theorem pieces_pad_right (h : ∀ a ∈ w, p a = true) : pieces p (v ++ w) = pieces p v := by
  cases w with
  | nil => rw [List.append_nil]
  | cons a rest =>
      obtain ⟨ha, hrest⟩ := List.forall_mem_cons.mp h
      have hnone : pieces p rest = [] := by
        have hpad := pieces_pad (v := []) hrest
        rwa [List.append_nil] at hpad
      rw [pieces_append_cons ha, hnone, List.append_nil]

theorem pieces_strip : pieces p (strip p text) = pieces p text := by
  obtain ⟨u, w, htext, hu, hw, -⟩ := exists_strip p text
  have hpieces := congrArg (pieces p) htext
  rw [pieces_pad_right hw, pieces_pad hu] at hpieces
  exact hpieces.symm

-- A firm text begins with its first piece, and ends with its last one.
theorem Firm.first_piece (h : Firm p text) : ∃ w after, Piece p w ∧ text = w ++ after ∧
    Bounded p after ∧ pieces p text = w :: pieces p after := by
  obtain ⟨b, hb, hpb⟩ := h.head
  rcases first_separator p text with hin | ⟨u, a, v, rfl, hu, ha⟩
  · have hne : text ≠ [] := by rintro rfl; cases hb
    refine ⟨text, [], ⟨hne, hin⟩, (List.append_nil text).symm, by simp [Bounded], ?_⟩
    rw [pieces_of_inside hin, if_neg hne]
    rfl
  · have hne : u ≠ [] := by
      rintro rfl
      rw [Option.some.inj hb.symm, ha] at hpb
      cases hpb
    have hbounded : Bounded p (a :: v) := fun c hc => Option.some.inj hc ▸ ha
    exact ⟨u, a :: v, ⟨hne, hu⟩, rfl, hbounded, pieces_piece ⟨hne, hu⟩ hbounded⟩

theorem Firm.last_piece (h : Firm p text) : ∃ w, (pieces p text).getLast? = some w ∧
    w.getLast? = text.getLast? := by
  obtain ⟨b, hb, hpb⟩ := h.last
  rw [← List.head?_reverse] at hb
  rcases first_separator p text.reverse with hin | ⟨u, a, v, heq, hu, ha⟩
  · have hne : text ≠ [] := by rintro rfl; cases hb
    refine ⟨text, ?_, rfl⟩
    rw [pieces_of_inside fun a ha => hin a (List.mem_reverse.mpr ha), if_neg hne]
    rfl
  · have hne : u ≠ [] := by
      rintro rfl
      rw [heq] at hb
      rw [Option.some.inj hb.symm, ha] at hpb
      cases hpb
    have htext : text = v.reverse ++ a :: u.reverse := by
      rw [← text.reverse_reverse, heq, List.reverse_append, List.reverse_cons, List.append_assoc]
      rfl
    have hlast : pieces p u.reverse = [u.reverse] := by
      rw [pieces_of_inside fun b hb => hu b (List.mem_reverse.mp hb), if_neg]
      simpa using hne
    refine ⟨u.reverse, ?_, ?_⟩
    · rw [htext, pieces_append_cons ha, hlast, List.getLast?_concat]
    · rw [htext, List.append_cons, List.getLast?_append_of_ne_nil _ (by simpa using hne)]

theorem strip_eq_nil_iff : strip p text = [] ↔ pieces p text = [] := by
  constructor
  · intro h
    rw [← pieces_strip, h]
    rfl
  · intro h
    obtain ⟨-, -, -, -, -, hnil | hfirm⟩ := exists_strip p text
    · exact hnil
    · obtain ⟨w, after, -, -, -, hpieces⟩ := hfirm.first_piece
      rw [pieces_strip, h] at hpieces
      cases hpieces

-- What a stripped text begins with, where this has no separator.
theorem prefix_strip_iff (hne : u ≠ []) (hin : ∀ a ∈ u, p a = false) :
    u <+: strip p text ↔ ∃ w ∈ (pieces p text).head?, u <+: w := by
  obtain ⟨-, -, -, -, -, hnil | hfirm⟩ := exists_strip p text
  · rw [hnil, strip_eq_nil_iff.mp hnil]
    simpa using hne
  · obtain ⟨w, after, hw, hstrip, hafter, hpieces⟩ := hfirm.first_piece
    rw [pieces_strip] at hpieces
    rw [hpieces, hstrip]
    simp only [List.head?_cons, Option.mem_some_iff, exists_eq_left']
    refine ⟨fun h => ?_, fun h => h.trans (List.prefix_append w after)⟩
    rcases List.prefix_or_prefix_of_prefix h (List.prefix_append w after) with hshort | ⟨x, rfl⟩
    · exact hshort
    · obtain ⟨y, hy⟩ := h
      rw [List.append_assoc, List.append_cancel_left_eq] at hy
      cases x with
      | nil => simp
      | cons a rest =>
          have ha : p a = true := hafter a (by rw [← hy]; rfl)
          rw [hin a (by simp)] at ha
          cases ha

theorem pieces_eq_nil_iff : pieces p text = [] ↔ ∀ a ∈ text, p a = true := by
  constructor
  · intro h
    obtain ⟨u, w, htext, hu, hw, -⟩ := exists_strip p text
    rw [strip_eq_nil_iff.mpr h, List.append_nil] at htext
    intro a ha
    rw [htext] at ha
    exact (List.mem_append.mp ha).elim (hu a) (hw a)
  · intro h
    rw [← List.append_nil text, pieces_pad h]
    rfl

theorem strip_eq_iff (hw : Piece p w) : strip p text = w ↔ pieces p text = [w] := by
  constructor
  · intro h
    rw [← pieces_strip, h, pieces_of_inside hw.inside, if_neg hw.ne_nil]
  · intro h
    obtain ⟨-, -, -, -, -, hnil | hfirm⟩ := exists_strip p text
    · rw [strip_eq_nil_iff.mp hnil] at h
      cases h
    · obtain ⟨v, after, hv, hstrip, hafter, hpieces⟩ := hfirm.first_piece
      rw [pieces_strip, h] at hpieces
      obtain ⟨rfl, hnone⟩ := List.cons.inj hpieces
      cases after with
      | nil => rw [hstrip, List.append_nil]
      | cons a rest =>
          obtain ⟨b, hb, hpb⟩ := hfirm.last
          rw [hstrip, List.getLast?_append_of_ne_nil _ (List.cons_ne_nil a rest)] at hb
          have hall := pieces_eq_nil_iff.mp hnone.symm b (List.mem_of_getLast? hb)
          rw [hall] at hpb
          cases hpb

-- Pieces put together again.
theorem pieces_intercalate {sep : α} {ws : List (List α)} (hsep : p sep = true)
    (h : ∀ w ∈ ws, Piece p w) : pieces p ([sep].intercalate ws) = ws := by
  induction ws with
  | nil => rfl
  | cons w ws ih =>
      obtain ⟨hw, hrest⟩ := List.forall_mem_cons.mp h
      cases ws with
      | nil =>
          rw [List.intercalate_singleton, pieces_of_inside hw.inside, if_neg hw.ne_nil]
      | cons v ws =>
          rw [List.intercalate_cons_cons, List.append_assoc,
            pieces_piece hw (fun c hc => ?_), List.singleton_append, pieces_cons hsep, ih hrest]
          exact Option.some.inj hc ▸ hsep

end Pieces

-- Keys between separators, with one at either end.
section Delimited

variable {sep : α} {keys : List (List α)} {w : List α}

def delimited (sep : α) (keys : List (List α)) : List α := sep :: keys.flatMap (· ++ [sep])

theorem delimited_concat (sep : α) (keys : List (List α)) (w : List α) :
    delimited sep (keys ++ [w]) = delimited sep keys ++ w ++ [sep] := by
  simp [delimited]

variable [DecidableEq α]

theorem inside_of_not_mem (h : sep ∉ w) : ∀ a ∈ w, (a == sep) = false := by
  intro a ha
  exact beq_false_of_ne fun heq => h (heq ▸ ha)

theorem splitOnP_delimited (hkeys : ∀ k ∈ keys, sep ∉ k) :
    (delimited sep keys).splitOnP (· == sep) = [] :: (keys ++ [[]]) := by
  have hrest : (keys.flatMap (· ++ [sep])).splitOnP (· == sep) = keys ++ [[]] := by
    induction keys with
    | nil => rfl
    | cons k keys ih =>
        obtain ⟨hk, hrest⟩ := List.forall_mem_cons.mp hkeys
        rw [List.flatMap_cons, List.append_assoc, List.singleton_append,
          List.splitOnP_append_cons_of_forall_mem (inside_of_not_mem hk) sep (beq_self_eq_true sep),
          ih hrest, List.cons_append]
  have hfirst := List.splitOnP_append_cons (p := (· == sep)) [] (keys.flatMap (· ++ [sep]))
    (beq_self_eq_true sep)
  rw [hrest] at hfirst
  exact hfirst

-- A key between its separators is found exactly where it is one of the keys.
theorem infix_delimited_iff (hkeys : ∀ k ∈ keys, sep ∉ k) (hw : sep ∉ w) :
    sep :: (w ++ [sep]) <:+: delimited sep keys ↔ w ∈ keys := by
  constructor
  · rintro ⟨before, after, heq⟩
    have hsplit := splitOnP_delimited hkeys
    rw [← heq, List.append_assoc, List.cons_append, List.append_assoc, List.singleton_append,
      List.splitOnP_append_cons (p := (· == sep)) _ _ (beq_self_eq_true sep),
      List.splitOnP_append_cons_of_forall_mem (inside_of_not_mem hw) sep (beq_self_eq_true sep)]
      at hsplit
    obtain ⟨first, rest, hbefore⟩ :=
      List.exists_cons_of_ne_nil (List.splitOnP_ne_nil (· == sep) before)
    obtain ⟨most, last, hafter⟩ :=
      (List.eq_nil_or_concat' (after.splitOnP (· == sep))).resolve_left (List.splitOnP_ne_nil _ _)
    rw [hbefore, hafter, List.cons_append] at hsplit
    have htail := (List.cons.inj hsplit).2
    rw [← List.cons_append, ← List.append_assoc] at htail
    have hkeys' := (List.append_inj' htail rfl).1
    rw [← hkeys']
    exact List.mem_append_right rest List.mem_cons_self
  · intro hmem
    obtain ⟨u, v, rfl⟩ := List.append_of_mem hmem
    rcases u.eq_nil_or_concat' with rfl | ⟨u, k, rfl⟩
    · exact ⟨[], v.flatMap (· ++ [sep]), by simp [delimited]⟩
    · exact ⟨sep :: (u.flatMap (· ++ [sep]) ++ k), v.flatMap (· ++ [sep]), by simp [delimited]⟩

end Delimited

end Splitting

end Ruprizzle
