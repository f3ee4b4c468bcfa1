import Ruprizzle.Runtime.Reads

namespace Ruprizzle.Runtime

variable {S : Type}

-- The statements that pushes embed.
def Push.sub? : Push S → Option S
  | .subquery s | .renumbered s => some s
  | _ => none

def embedded (pushes : List (Push S)) : List S := pushes.filterMap Push.sub?

def Edge.Gap (e : Edge) : Prop := e = .at_ .gap

-- From wherever the first condition holds the pushes flow to where the second
-- one does, and what they embed is in order.
structure Spans (d : Dialect) (sub : S → Prop) (pre : Edge → Prop) (pushes : List (Push S))
    (post : Edge → Prop) : Prop where
  flows : ∀ e, pre e → ∃ e', flow d e pushes = some e' ∧ post e'
  embeds : ∀ s ∈ embedded pushes, sub s

-- A text that begins with a character which ends every token before it.
def breaks (s : String) : Bool :=
  match s.toList with
  | c :: _ => c = ' ' ∨ c = ')' ∨ c = ','
  | [] => false

namespace Spans

variable {d : Dialect} {sub : S → Prop} {pre mid post : Edge → Prop} {a b rest : List (Push S)}

theorem nil : Spans d sub pre [] pre := ⟨fun e he => ⟨e, rfl, he⟩, by simp [embedded]⟩

theorem append (ha : Spans d sub pre a mid) (hb : Spans d sub mid b post) :
    Spans d sub pre (a ++ b) post := by
  refine ⟨fun e he => ?_, fun s hs => ?_⟩
  · obtain ⟨e', hflow, hmid⟩ := ha.flows e he
    obtain ⟨e'', hflow', hpost⟩ := hb.flows e' hmid
    exact ⟨e'', (flow_append hflow).trans hflow', hpost⟩
  · rw [embedded, List.filterMap_append, List.mem_append] at hs
    exact hs.elim (ha.embeds s) (hb.embeds s)

theorem cons {p : Push S} (hp : Spans d sub pre [p] mid) (hrest : Spans d sub mid rest post) :
    Spans d sub pre (p :: rest) post := hp.append hrest

theorem mono {pre' post' : Edge → Prop} (h : Spans d sub pre a post) (hpre : ∀ e, pre' e → pre e)
    (hpost : ∀ e, post e → post' e) : Spans d sub pre' a post' := by
  refine ⟨fun e he => ?_, h.embeds⟩
  obtain ⟨e', hflow, hpost'⟩ := h.flows e (hpre e he)
  exact ⟨e', hflow, hpost e' hpost'⟩

theorem gap_outside (e : Edge) (h : e.Gap) : e.Outside := by
  obtain rfl : e = .at_ .gap := h
  trivial

-- What ends in a gap may stand where only the outside is asked for, and what
-- begins anywhere outside may begin in a gap.
theorem weaken (h : Spans d sub pre a Edge.Gap) : Spans d sub pre a Edge.Outside :=
  h.mono (fun _ he => he) gap_outside

theorem atGap (h : Spans d sub Edge.Outside a post) : Spans d sub Edge.Gap a post :=
  h.mono gap_outside (fun _ he => he)

theorem of_flow {e' : Edge} (h : flow d (.at_ .gap) a = some e') (hpost : post e')
    (hembeds : embedded a = []) : Spans d sub Edge.Gap a post := by
  refine ⟨fun e he => ?_, by simp [hembeds]⟩
  obtain rfl : e = .at_ .gap := he
  exact ⟨e', h, hpost⟩

theorem subquery {s : S} (h : sub s) : Spans d sub Edge.Gap [.subquery s] Edge.Outside := by
  refine ⟨fun e he => ?_, by simpa [embedded, Push.sub?] using h⟩
  obtain rfl : e = .at_ .gap := he
  exact ⟨.outside, rfl, trivial⟩

theorem renumbered {s : S} (h : sub s) : Spans d sub Edge.Gap [.renumbered s] Edge.Outside := by
  refine ⟨fun e he => ?_, by simpa [embedded, Push.sub?] using h⟩
  obtain rfl : e = .at_ .gap := he
  exact ⟨.outside, rfl, trivial⟩

theorem flow_breaks {s : String} (hs : breaks s = true) {e : Edge} (he : e.Outside) :
    flow d e (.str s :: rest) = flow d (.at_ .gap) (.str s :: rest) := by
  have hpush : flowPush d e (Push.str s : Push S)
      = flowPush d (.at_ .gap) (Push.str s : Push S) := by
    cases hlist : s.toList with
    | nil => simp [breaks, hlist] at hs
    | cons c chars =>
        have hc : c = ' ' ∨ c = ')' ∨ c = ',' := by simpa [breaks, hlist] using hs
        have hjoins : e.joins d s.toList = true := by
          rw [hlist]
          cases e with
          | at_ m => exact decide_eq_true (Lexer.step_outside d he hc)
          | outside => exact decide_eq_true hc
        have hgap : (Edge.at_ .gap).joins d s.toList = true := by
          rw [hlist]
          exact decide_eq_true rfl
        have hpast : e.past d s.toList = (Edge.at_ .gap).past d s.toList := by
          simp [Edge.past, hlist]
        simp only [flowPush, textFlow, hjoins, hgap, hpast]
  simp only [flow, Run.foldlM_cons, hpush]

-- Pushes that begin with such a text may stand anywhere outside.
theorem break_ {s : String} (hs : breaks s = true)
    (h : Spans d sub Edge.Gap (.str s :: rest) post) :
    Spans d sub Edge.Outside (.str s :: rest) post := by
  refine ⟨fun e he => ?_, h.embeds⟩
  obtain ⟨e', hflow, hpost⟩ := h.flows (.at_ .gap) rfl
  exact ⟨e', (flow_breaks hs he).trans hflow, hpost⟩

theorem separated {sep : String} {items : List (List (Push S))}
    (hsep : Spans d sub Edge.Outside [.str sep] Edge.Gap)
    (hitems : ∀ item ∈ items, Spans d sub Edge.Gap item Edge.Outside) :
    Spans d sub Edge.Gap (separated sep items) Edge.Outside := by
  induction items with
  | nil => exact nil.weaken
  | cons item rest ih =>
      have hitem := hitems item (by simp)
      cases rest with
      | nil => exact hitem
      | cons next rest =>
          have hrest := ih (fun other ho => hitems other (List.mem_cons_of_mem item ho))
          exact hitem.append (hsep.cons hrest)

theorem comma : Spans d sub Edge.Outside [.str ", "] Edge.Gap :=
  break_ rfl (by cases d <;> exact of_flow rfl rfl rfl)

-- Parts of a statement, each of which may stand after the ones before it.
theorem flatten {parts : List (List (Push S))}
    (h : ∀ part ∈ parts, Spans d sub Edge.Outside part Edge.Outside) :
    Spans d sub Edge.Outside parts.flatten Edge.Outside := by
  induction parts with
  | nil => exact nil
  | cons part rest ih =>
      have hpart := h part (by simp)
      have hrest := ih (fun other ho => h other (List.mem_cons_of_mem part ho))
      exact hpart.append hrest

end Spans

end Ruprizzle.Runtime
