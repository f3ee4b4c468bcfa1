import Mathlib.Data.List.Induction
import Ruprizzle.Runtime.Placeholders

namespace Ruprizzle.Runtime

-- A select query that is compiled once and bound again before each run.
structure PreparedSelect where
  sql : List Char
  binds : List Value

inductive BindCall
  | bind (index : Nat) (value : Value)
  | bindMany (binds : List Value)

variable {d : Dialect} {n : Nat}

def SelectQuery.prepare (q : SelectQuery (Select d n)) : Option PreparedSelect :=
  (Statement.select q).compile.map fun compiled => ⟨compiled.sql, compiled.binds⟩

namespace PreparedSelect

def bind (p : PreparedSelect) (index : Nat) (value : Value) : PreparedSelect :=
  if index < p.binds.length then { p with binds := p.binds.set index value } else p

def bindMany (p : PreparedSelect) (binds : List Value) : PreparedSelect :=
  let n := min p.binds.length binds.length
  let replaced := binds.take n ++ p.binds.drop n
  if replaced.length < binds.length then
    { p with binds := replaced ++ binds.drop replaced.length }
  else { p with binds := replaced }

def call (p : PreparedSelect) : BindCall → PreparedSelect
  | .bind index value => p.bind index value
  | .bindMany binds => p.bindMany binds

def run (p : PreparedSelect) (calls : List BindCall) : PreparedSelect := calls.foldl call p

end PreparedSelect

namespace BindCall

-- What a call puts at a position, and how many positions it needs.
def assigns (i : Nat) : BindCall → Option Value
  | bind index value => if index = i then some value else none
  | bindMany binds => binds[i]?

def size : BindCall → Nat
  | bind _ _ => 0
  | bindMany binds => binds.length

end BindCall

def lastAssigned (original : List Value) (calls : List BindCall) (i : Nat) : Option Value :=
  (calls.reverse.findSome? (BindCall.assigns i)).or original[i]?

def placeholders (d : Dialect) (text : List Char) : Nat :=
  (tokens d text).countP fun t => t.kind = .param

-- The text is as it was, there is a value for every placeholder and no other, and
-- each is the last one that was assigned there.
structure Bindable (d : Dialect) (p : PreparedSelect) (calls : List BindCall)
    (now : PreparedSelect) : Prop where
  text : now.sql = p.sql
  counted : now.binds.length = placeholders d now.sql
  latest : ∀ i < placeholders d now.sql, now.binds[i]? = lastAssigned p.binds calls i

theorem count_of_fill {k : Nat} {values : List Value} {tokens : List Token} {pieces : List Piece}
    (h : fill d k values tokens = some pieces) :
    tokens.countP (fun t => t.kind = .param) = values.length := by
  induction tokens generalizing k values pieces with
  | nil =>
      rw [(fill_nil h).1]
      rfl
  | cons t rest ih =>
      by_cases hkind : t.kind = .param
      · rw [List.countP_cons_of_pos (by simpa using hkind)]
        cases values with
        | nil => simp [fill, hkind] at h
        | cons v values =>
            rw [fill, if_pos hkind] at h
            split at h
            · obtain ⟨later, hlater, -⟩ := Option.map_eq_some_iff.mp h
              rw [ih hlater, List.length_cons]
            · simp at h
      · rw [fill_token hkind] at h
        obtain ⟨later, hlater, -⟩ := Option.map_eq_some_iff.mp h
        rw [List.countP_cons_of_neg (by simpa using hkind), ih hlater]

-- A closed query has a placeholder for each of its values.
theorem prepare_aligned {q : SelectQuery (Select d n)} (hclosed : q.Closed d (Select.Closed n))
    {p : PreparedSelect} (hp : q.prepare = some p) : placeholders d p.sql = p.binds.length := by
  obtain ⟨compiled, hcompile, rfl⟩ := Option.map_eq_some_iff.mp hp
  have hstatement : (Statement.select q).Closed d (Select.Closed n) := hclosed
  obtain ⟨slots, -, hsettles⟩ := Statement.settles_compile Piece.slot_renumber hstatement hcompile
  obtain ⟨pieces, hfill, -⟩ := Statement.filled_of_settles hsettles
  exact count_of_fill hfill

namespace PreparedSelect

variable (p : PreparedSelect)

theorem sql_call (c : BindCall) : (p.call c).sql = p.sql := by
  cases c with
  | bind index value =>
      rw [call, bind]
      split <;> rfl
  | bindMany binds =>
      simp only [call, bindMany]
      split <;> rfl

theorem binds_bindMany (binds : List Value) :
    (p.bindMany binds).binds = binds ++ p.binds.drop binds.length := by
  rcases Nat.lt_or_ge p.binds.length binds.length with hless | hmore
  · have hmin : min p.binds.length binds.length = p.binds.length := by omega
    have hlength : (binds.take p.binds.length).length = p.binds.length := by
      rw [List.length_take]
      omega
    simp only [bindMany, hmin, List.drop_length, List.append_nil, hlength, if_pos hless]
    rw [List.take_append_drop, List.drop_of_length_le hless.le, List.append_nil]
  · have hmin : min p.binds.length binds.length = binds.length := by omega
    simp only [bindMany, hmin, List.take_length]
    rw [if_neg (by rw [List.length_append]; omega)]

theorem length_call (c : BindCall) : (p.call c).binds.length = max p.binds.length c.size := by
  cases c with
  | bind index value =>
      rw [call, bind, BindCall.size]
      split
      · rw [List.length_set]
        omega
      · omega
  | bindMany binds =>
      rw [call, binds_bindMany, BindCall.size, List.length_append, List.length_drop]
      omega

theorem getElem_call (c : BindCall) {i : Nat} (hi : i < p.binds.length) :
    (p.call c).binds[i]? = (c.assigns i).or p.binds[i]? := by
  cases c with
  | bind index value =>
      rw [call, bind, BindCall.assigns]
      by_cases hindex : index = i
      · subst hindex
        rw [if_pos hi, if_pos rfl, List.getElem?_set_self hi, Option.some_or]
      · rw [if_neg hindex, Option.none_or]
        split
        · exact List.getElem?_set_ne hindex
        · rfl
  | bindMany binds =>
      rw [call, binds_bindMany, BindCall.assigns]
      rcases Nat.lt_or_ge i binds.length with hin | hout
      · rw [List.getElem?_append_left hin, List.getElem?_eq_getElem hin, Option.some_or]
      · rw [List.getElem?_append_right hout, List.getElem?_eq_none hout, Option.none_or,
          List.getElem?_drop, Nat.add_sub_cancel' hout]

theorem run_concat (calls : List BindCall) (c : BindCall) :
    p.run (calls ++ [c]) = (p.run calls).call c := List.foldl_append

theorem sql_run (calls : List BindCall) : (p.run calls).sql = p.sql := by
  induction calls using List.reverseRecOn with
  | nil => rfl
  | append_singleton calls c ih => rw [run_concat, sql_call, ih]

-- Values are added and never taken away again.
theorem length_le_run (calls : List BindCall) : p.binds.length ≤ (p.run calls).binds.length := by
  induction calls using List.reverseRecOn with
  | nil => exact Nat.le_refl _
  | append_singleton calls c ih =>
      rw [run_concat, length_call]
      omega

variable {p}

theorem length_run {calls : List BindCall} (h : ∀ c ∈ calls, c.size ≤ p.binds.length) :
    (p.run calls).binds.length = p.binds.length := by
  induction calls using List.reverseRecOn with
  | nil => rfl
  | append_singleton calls c ih =>
      have hlast := h c (List.mem_append_right _ (List.mem_singleton_self c))
      have hbefore := ih fun c hc => h c (List.mem_append_left _ hc)
      rw [run_concat, length_call, hbefore]
      omega

theorem getElem_run (calls : List BindCall) {i : Nat} (hi : i < p.binds.length) :
    (p.run calls).binds[i]? = lastAssigned p.binds calls i := by
  induction calls using List.reverseRecOn with
  | nil => rfl
  | append_singleton calls c ih =>
      have hlength := p.length_le_run calls
      rw [run_concat, getElem_call _ _ (by omega), ih, lastAssigned, lastAssigned,
        List.reverse_concat, List.findSome?_cons]
      cases c.assigns i <;> rfl

-- A list of values that is longer than the statement needs stays bound for good.
theorem bindable_iff {calls : List BindCall} :
    (∀ done, done <+: calls → Bindable d p done (p.run done)) ↔
      placeholders d p.sql = p.binds.length ∧ ∀ c ∈ calls, c.size ≤ p.binds.length := by
  constructor
  · intro h
    have hstart : placeholders d p.sql = p.binds.length := (h [] List.nil_prefix).counted.symm
    refine ⟨hstart, fun c hc => ?_⟩
    obtain ⟨before, after, rfl⟩ := List.append_of_mem hc
    have hnow := h (before ++ [c]) ⟨after, by simp⟩
    have hcount := hnow.counted
    rw [sql_run, hstart, run_concat, length_call] at hcount
    omega
  · rintro ⟨hstart, hsize⟩ done hdone
    have hlength := length_run fun c hc => hsize c (hdone.subset hc)
    refine ⟨p.sql_run done, ?_, fun i hi => getElem_run done ?_⟩
    · rw [hlength, sql_run, hstart]
    · rwa [sql_run, hstart] at hi

end PreparedSelect

-- Every run of calls leaves the statement bindable, unless one of them brings more
-- values than there are placeholders.
theorem prepared_iff {q : SelectQuery (Select d n)} {p : PreparedSelect} (hp : q.prepare = some p)
    (calls : List BindCall) :
    (q.Closed d (Select.Closed n) → placeholders d p.sql = p.binds.length) ∧
    ((∀ done, done <+: calls → Bindable d p done (p.run done)) ↔
      placeholders d p.sql = p.binds.length ∧
        ∀ binds, BindCall.bindMany binds ∈ calls → binds.length ≤ p.binds.length) := by
  refine ⟨fun hclosed => prepare_aligned hclosed hp, ?_⟩
  rw [PreparedSelect.bindable_iff]
  refine and_congr_right fun _ => ⟨fun h binds hbinds => h _ hbinds, fun h c hc => ?_⟩
  cases c with
  | bind index value => exact Nat.zero_le _
  | bindMany binds => exact h binds hc

section Example

def byId : SelectQuery (Select .sqlite 0) := usersWhere firstUser

theorem prepared_iff_bind :
    ∃ p, byId.prepare = some p ∧
      (byId.Closed .sqlite (Select.Closed 0) → placeholders .sqlite p.sql = p.binds.length) ∧
      ((∀ done, done <+: [BindCall.bind 0 (.i64 2)] → Bindable .sqlite p done (p.run done)) ↔
        placeholders .sqlite p.sql = p.binds.length ∧
          ∀ binds, BindCall.bindMany binds ∈ [BindCall.bind 0 (.i64 2)] →
            binds.length ≤ p.binds.length) :=
  ⟨_, rfl, prepared_iff rfl _⟩

-- The second value is kept, and no placeholder stands for it.
theorem bound_twice :
    ∃ p, byId.prepare = some p ∧
      ¬ Bindable .sqlite p [.bindMany [.i64 1, .i64 2]] (p.run [.bindMany [.i64 1, .i64 2]]) := by
  have hone : byId.prepare.map (fun p => placeholders .sqlite p.sql) = some 1 := by decide +kernel
  obtain ⟨p, hp, hcount⟩ := Option.map_eq_some_iff.mp hone
  refine ⟨p, hp, fun h => ?_⟩
  have hsize := h.counted
  rw [PreparedSelect.sql_run, hcount, PreparedSelect.run, List.foldl_cons, List.foldl_nil,
    PreparedSelect.length_call] at hsize
  have htwo : BindCall.size (.bindMany [.i64 1, .i64 2]) = 2 := rfl
  omega

end Example

end Ruprizzle.Runtime
