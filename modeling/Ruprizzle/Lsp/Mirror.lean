import Ruprizzle.Data.Steps
import Ruprizzle.Lsp.Offsets

namespace Ruprizzle.Lsp

-- The documents of the server against those of the client.

theorem splitBytes_append (a b : List Char) : splitBytes (a ++ b) (byteLen a) = some (a, b) := by
  induction a with
  | nil => simp [byteLen, splitBytes]
  | cons c rest ih =>
      have hsize := Char.utf8Size_pos c
      obtain ⟨n, hn⟩ : ∃ n, byteLen (c :: rest) = n + 1 := ⟨byteLen (c :: rest) - 1, by
        rw [byteLen]
        omega⟩
      have hrest : n + 1 - c.utf8Size = byteLen rest := by
        rw [byteLen] at hn
        omega
      have hge : ¬n + 1 < c.utf8Size := by
        rw [byteLen] at hn
        omega
      rw [hn, List.cons_append, splitBytes, if_neg hge, hrest, ih]
      rfl

theorem splitBytes_split (pos : Position) (text : List Char) :
    splitBytes text (byteLen (pos.split text).1) = some (pos.split text) := by
  have happend := splitAt_append pos.line pos.character text
  have h := splitBytes_append (pos.split text).1 (pos.split text).2
  rwa [show (pos.split text).1 ++ (pos.split text).2 = text from happend] at h

def Position.le (a b : Position) : Prop :=
  a.line < b.line ∨ a.line = b.line ∧ a.character ≤ b.character

-- A later position has more of the text before it.
theorem splitAt_mono {n m ch ch' : Nat} {text : List Char} (h : n < m ∨ n = m ∧ ch ≤ ch') :
    byteLen (splitAt n ch text).1 ≤ byteLen (splitAt m ch' text).1 := by
  induction text generalizing n m ch ch' with
  | nil => exact le_rfl
  | cons c rest ih =>
      by_cases hn : n = 0
      · subst hn
        by_cases hstop : ch < utf16Size c ∨ c = '\n' ∨ c = '\r'
        · rw [splitAt_stop hstop]
          exact Nat.zero_le _
        · rw [splitAt_go hstop, byteLen]
          by_cases hm : m = 0
          · subst hm
            have hgo : ¬(ch' < utf16Size c ∨ c = '\n' ∨ c = '\r') := by
              simp only [not_or] at hstop ⊢
              exact ⟨by omega, hstop.2⟩
            have hrest : byteLen (splitAt 0 (ch - utf16Size c) rest).1 ≤
                byteLen (splitAt 0 (ch' - utf16Size c) rest).1 := ih (Or.inr ⟨rfl, by omega⟩)
            rw [splitAt_go hgo, byteLen]
            omega
          · simp only [not_or] at hstop
            have hline : endsLine c rest = false := endsLine_of_ne hstop.2.1 fun hr => absurd hr hstop.2.2
            have hrest : byteLen (splitAt 0 (ch - utf16Size c) rest).1 ≤
                byteLen (splitAt m ch' rest).1 := ih (Or.inl (by omega))
            rw [splitAt_line hm, hline, byteLen]
            simpa using hrest
      · have hm : m ≠ 0 := by omega
        rw [splitAt_line hn, splitAt_line hm, byteLen, byteLen]
        have hrest := ih (show (if endsLine c rest then n - 1 else n) <
            (if endsLine c rest then m - 1 else m) ∨
          (if endsLine c rest then n - 1 else n) = (if endsLine c rest then m - 1 else m) ∧
            ch ≤ ch' by split <;> omega)
        omega

-- A change whose range begins before it ends, at places between characters.
def ContentChange.Valid (text : List Char) (change : ContentChange) : Prop :=
  ∀ range, change.range = some range → range.start.le range.stop ∧
    Between range.start.line range.start.character text ∧
    Between range.stop.line range.stop.character text

-- A change whose range the server finds.
def ContentChange.Found (text : List Char) (change : ContentChange) : Prop :=
  ∀ range, change.range = some range → ∀ pos, pos = range.start ∨ pos = range.stop →
    (pos.split text).2 = [] ∨ Counted pos.line pos.character text

theorem changeText_eq {text : List Char} {change : ContentChange} (hvalid : change.Valid text)
    (hfound : change.Found text) : changeText text change = some (clientText text change) := by
  unfold changeText clientText
  cases hrange : change.range with
  | none => rfl
  | some range =>
      obtain ⟨hle, -⟩ := hvalid range hrange
      have hstart := positionToByteOffset_eq (hfound range hrange range.start (Or.inl rfl))
      have hstop := positionToByteOffset_eq (hfound range hrange range.stop (Or.inr rfl))
      have hmono : byteLen (range.start.split text).1 ≤ byteLen (range.stop.split text).1 :=
        splitAt_mono hle
      simp only [applyChange, replaceRange, hstart, hstop, if_neg (Nat.not_lt.mpr hmono),
        splitBytes_split, Option.bind_some, Option.map_some]

-- What is asked of each change of a notification, at the text it is made to.
def Notification.Each (Asked : List Char → ContentChange → Prop) (docs : Documents)
    (n : Notification) : Prop :=
  Steps.Along clientText Asked ((docs.get? n.uri).getD []) n.changes

theorem serverChange_eq {docs : Documents} {n : Notification}
    (hvalid : n.Each (fun text change => change.Valid text) docs)
    (hfound : n.Each (fun text change => change.Found text) docs) :
    serverChange docs n = some (clientChange docs n) := by
  unfold serverChange didChange clientChange
  rw [Steps.foldlM_eq_foldl (fun _ _ h => changeText_eq h.1 h.2) (hvalid.and hfound)]
  rfl

-- After each part of a session the server has the documents that the client has, and
-- has not panicked.
theorem documents_mirrored {docs : Documents} {session : List Notification}
    (hvalid : Steps.Along clientChange (Notification.Each fun text change => change.Valid text)
      docs session)
    (hfound : Steps.Along clientChange (Notification.Each fun text change => change.Found text)
      docs session) :
    ∀ past, past <+: session → past.foldlM serverChange docs = some (past.foldl clientChange docs) := by
  intro past hpast
  exact Steps.foldlM_eq_foldl (fun _ _ h => serverChange_eq h.1 h.2)
    ((hvalid.and hfound).earlier hpast)

def opened (text : List Char) : Documents := didOpen .empty "schema.ruprizzle" text

def edit (start stop : Position) (text : List Char) : Notification :=
  ⟨"schema.ruprizzle", [⟨some ⟨start, stop⟩, text⟩]⟩

theorem along_edit {Asked : List Char → ContentChange → Prop} {text new : List Char}
    {start stop : Position} (h : Asked text ⟨some ⟨start, stop⟩, new⟩) :
    Steps.Along clientChange (Notification.Each Asked) (opened text) [edit start stop new] := by
  have hchange : Steps.Along clientText Asked text [⟨some ⟨start, stop⟩, new⟩] :=
    Steps.along_cons.mpr ⟨h, Steps.along_nil⟩
  exact Steps.along_cons.mpr ⟨hchange, Steps.along_nil⟩

theorem documents_mirrored_edit :
    [edit ⟨1, 1⟩ ⟨1, 9⟩ ['x', 'y']].foldlM serverChange (opened ['a', '\r', '\n', 'b', 'c']) =
      some ([edit ⟨1, 1⟩ ⟨1, 9⟩ ['x', 'y']].foldl clientChange (opened ['a', '\r', '\n', 'b', 'c'])) := by
  refine documents_mirrored (along_edit ?_) (along_edit ?_) _ List.prefix_rfl
  · intro range hrange
    cases hrange
    exact ⟨Or.inr ⟨rfl, by decide⟩, by simp [Between]; decide, by simp [Between]; decide⟩
  · intro range hrange pos hpos
    cases hrange
    rcases hpos with rfl | rfl
    · right
      simp [Counted]
      decide
    · left
      decide

-- A character of two units puts the edit a character too far, and a column beyond the
-- end of a line that is not the last takes the start past the end.
theorem edits_astray :
    (ContentChange.Valid ['😀', '=', 'b'] ⟨some ⟨⟨0, 2⟩, ⟨0, 2⟩⟩, ['x']⟩ ∧
      serverChange (opened ['😀', '=', 'b']) (edit ⟨0, 2⟩ ⟨0, 2⟩ ['x']) =
        some (opened ['😀', '=', 'x', 'b']) ∧
      clientChange (opened ['😀', '=', 'b']) (edit ⟨0, 2⟩ ⟨0, 2⟩ ['x']) =
        opened ['😀', 'x', '=', 'b']) ∧
    ContentChange.Valid ['a', '\n', 'b'] ⟨some ⟨⟨0, 5⟩, ⟨1, 0⟩⟩, []⟩ ∧
      serverChange (opened ['a', '\n', 'b']) (edit ⟨0, 5⟩ ⟨1, 0⟩ []) = none ∧
      clientChange (opened ['a', '\n', 'b']) (edit ⟨0, 5⟩ ⟨1, 0⟩ []) = opened ['a', 'b'] := by
  refine ⟨⟨fun range hrange => ?_, by decide, by decide⟩, fun range hrange => ?_, by decide, by decide⟩
  · cases hrange
    have hbetween : Between 0 2 ['😀', '=', 'b'] := by
      simp [Between]
      decide
    exact ⟨Or.inr ⟨rfl, le_rfl⟩, hbetween, hbetween⟩
  · cases hrange
    exact ⟨Or.inl (by decide), by simp [Between]; decide, by simp [Between]⟩

end Ruprizzle.Lsp
