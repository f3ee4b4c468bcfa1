import Ruprizzle.Cache.Interleaving

namespace Ruprizzle.Cache

open Interleave

-- What a call returned before an invalidation of its tag is not read after it,
-- in the runs where no step loses a pair of the index that is still needed.

variable {P : Type} [DecidableEq P] {w : Callers P} {p : P} {s : Shared P} {l : Call P}

theorem Callers.Held.update {tag key : String} (h : w.Held tag key)
    (hp : ∀ keys marked, w.party p ≠ .dropping tag keys marked) :
    Callers.Held ⟨s, Function.update w.party p l⟩ tag key := by
  obtain ⟨q, keys, marked, hq, hkey⟩ := h
  have hne : q ≠ p := by
    rintro rfl
    exact hp keys marked hq
  exact ⟨q, keys, marked, by simpa [Function.update_of_ne hne] using hq, hkey⟩

namespace Sound

omit [DecidableEq P] in
theorem init (maxEntries : Nat) : Sound (Callers.start maxEntries : Callers P) where
  stored := by
    intro key e he
    cases he
  fresh := fun _ _ _ => List.not_mem_nil
  buried := fun _ hmem => absurd hmem List.not_mem_nil
  numbered := fun _ hmem => absurd hmem List.not_mem_nil
  parties := fun _ => trivial
  indexed := fun _ _ _ _ hmem => absurd hmem List.not_mem_nil

-- A step that changes nothing that is shared but the number of calls.
theorem still (h : Sound w) (hp : ∀ tag keys marked, w.party p ≠ .dropping tag keys marked)
    {calls : Nat} (hcalls : w.shared.calls ≤ calls)
    (hown : Shared.Holds { w.shared with calls } p l) :
    Sound ⟨{ w.shared with calls }, Function.update w.party p l⟩ :=
  h.update ⟨hcalls, fun _ h => h, fun _ h => Or.inl h, fun _ h => h, fun _ _ h => Or.inl h⟩
    h.stored h.fresh h.buried (fun call hmem => (h.numbered call hmem).trans_le hcalls) hown
    fun key call tag hstands hmem ht => (h.indexed key call tag hstands hmem ht).imp_right
      fun hheld => hheld.update (hp tag)

theorem invoke (h : Sound w) (hidle : w.party p = .idle) (request : Request) (now : Nat) :
    Sound ⟨(w.shared.invoke p now request).1,
      Function.update w.party p (w.shared.invoke p now request).2⟩ := by
  have hp : ∀ tag keys marked, w.party p ≠ .dropping tag keys marked := by
    intro tag keys marked hdropping
    rw [hidle] at hdropping
    cases hdropping
  cases request with
  | set key data ttl tags =>
      refine h.still hp (Nat.le_succ _) ⟨rfl, Nat.lt_succ_self _, fun hmem => ?_, rfl⟩
      exact absurd (h.numbered _ hmem) (Nat.lt_irrefl _)
  | get key => exact h.still hp le_rfl fun _ hmem => hmem
  | invalidateTag tag =>
      refine h.still hp le_rfl fun call hmem => ?_
      obtain ⟨hreturned, ht⟩ := List.mem_filter.mp hmem
      exact ⟨hreturned, by simpa using ht⟩
  | pruneExpired => exact h.still hp le_rfl trivial

theorem setEntry (h : Sound w) {call : SetCall P} {e : CacheEntry} {pick : Nat}
    (hp : w.party p = .setting call e) :
    Sound ⟨{ w.shared with
        cache := w.shared.cache.setEntry (w.shared.cache.first pick) call.key e
        writer := Function.update w.shared.writer call.key (some call) },
      Function.update w.party p (.indexing call)⟩ := by
  have hholds := h.parties p
  rw [hp] at hholds
  obtain ⟨hcaller, hnumber, hnot, htags⟩ := hholds
  -- What another key has now, it had before, and it was not the key that gave way.
  have hother : ∀ key e', key ≠ call.key →
      (w.shared.cache.setEntry (w.shared.cache.first pick) call.key e).entries.get? key = some e' →
      w.shared.cache.entries.get? key = some e' ∧
        w.shared.cache.evicts (w.shared.cache.first pick) call.key ≠ some key := by
    intro key e' hne he
    rw [InMemoryCache.setEntry_get?, if_neg hne] at he
    split at he
    · cases he
    · rename_i hstays
      exact ⟨he, hstays⟩
  have hcurrent : ∀ key c, Shared.Current { w.shared with
        cache := w.shared.cache.setEntry (w.shared.cache.first pick) call.key e
        writer := Function.update w.shared.writer call.key (some call) } key c →
      c = call ∨ key ≠ call.key ∧ w.shared.Current key c := by
    rintro key c ⟨⟨e', he⟩, hwriter⟩
    by_cases hkey : key = call.key
    · subst hkey
      left
      simpa using hwriter.symm
    · refine Or.inr ⟨hkey, ⟨e', (hother key e' hkey he).1⟩, ?_⟩
      simpa [Function.update_of_ne hkey] using hwriter
  refine h.update ⟨le_rfl, fun _ h => h, fun _ h => Or.inl h, fun _ h => h, fun key c hc => ?_⟩
    (fun key e' he => ?_) (fun key c hc => ?_) h.buried h.numbered ⟨hcaller, hnumber, hnot⟩
    (fun key c tag hc hmem ht => ?_)
  · rcases hcurrent key c hc with rfl | ⟨-, hold⟩
    · exact Or.inr hnot
    · exact Or.inl hold
  · by_cases hkey : key = call.key
    · subst hkey
      have heq : e = e' := by
        simpa [InMemoryCache.setEntry_get?] using he
      exact ⟨call, by simp, rfl, by rw [← heq, htags]⟩
    · obtain ⟨c, hwriter, hrest⟩ := h.stored key e' (hother key e' hkey he).1
      exact ⟨c, by simpa [Function.update_of_ne hkey] using hwriter, hrest⟩
  · rcases hcurrent key c hc with rfl | ⟨-, hold⟩
    · exact fun hdead => hnot (h.buried c hdead)
    · exact h.fresh key c hold
  · rcases hcurrent key c hc with rfl | ⟨hkey, hold⟩
    · exact absurd hmem hnot
    · obtain ⟨⟨e', he⟩, -⟩ := hc
      have hstays := (hother key e' hkey he).2
      rcases h.indexed key c tag hold hmem ht with htagged | hheld
      · exact Or.inl (InMemoryCache.setEntry_tagged.mpr ⟨htagged, fun hgone => hstays hgone.1⟩)
      · exact Or.inr (hheld.update (by simp [hp]))

theorem setIndex (h : Sound w) {call : SetCall P} (hp : w.party p = .indexing call) :
    Sound ⟨{ w.shared with
        cache := w.shared.cache.setIndex call.key call.tags
        returned := call :: w.shared.returned }, Function.update w.party p .idle⟩ := by
  have hholds := h.parties p
  rw [hp] at hholds
  obtain ⟨hcaller, hnumber, hnot⟩ := hholds
  refine h.update
    ⟨le_rfl, fun _ h => List.mem_cons_of_mem _ h, fun c hmem => ?_, fun _ h => h, fun _ _ h => Or.inl h⟩
    h.stored h.fresh (fun c hdead => List.mem_cons_of_mem _ (h.buried c hdead)) (fun c hmem => ?_)
    trivial (fun key c tag hc hmem ht => ?_)
  · rcases List.mem_cons.mp hmem with rfl | hmem
    · exact Or.inr hcaller
    · exact Or.inl hmem
  · rcases List.mem_cons.mp hmem with rfl | hmem
    · exact hnumber
    · exact h.numbered c hmem
  · rcases List.mem_cons.mp hmem with rfl | hmem
    · obtain ⟨⟨e, he⟩, hwriter⟩ := hc
      obtain ⟨c', hwriter', hkey, -⟩ := h.stored key e he
      obtain rfl : c' = c := Option.some.inj (hwriter'.symm.trans hwriter)
      exact Or.inl (InMemoryCache.setIndex_tagged.mpr (Or.inl ⟨ht, hkey.symm⟩))
    · rcases h.indexed key c tag hc hmem ht with htagged | hheld
      · exact Or.inl (InMemoryCache.setIndex_tagged.mpr (Or.inr htagged))
      · exact Or.inr (hheld.update (by simp [hp]))

-- The three pieces of an invalidation. Each leaves the caller in the state after it,
-- and where there is nothing more to do, the call returns.

theorem takeTag (h : Sound w) {tag : String} {marked : List (SetCall P)}
    (hp : w.party p = .taking tag marked)
    (hmeets : ∀ key call, w.Held tag key → w.shared.Current key call → call ∈ marked →
      w.shared.cache.Tagged tag key) :
    Sound ⟨{ w.shared with cache := w.shared.cache.takeTag tag },
      Function.update w.party p (.dropping tag (w.shared.cache.taggedKeys tag) marked)⟩ := by
  have hholds := h.parties p
  rw [hp] at hholds
  refine h.update (.cache fun _ _ hc => hc) h.stored h.fresh h.buried h.numbered
    ⟨fun c hmem => (hholds c hmem).1, fun key c hc hmem => ?_⟩ (fun key c t hc hmem ht => ?_)
  · rcases h.indexed key c tag hc (hholds c hmem).1 (hholds c hmem).2 with htagged | hheld
    · exact InMemoryCache.mem_taggedKeys.mpr htagged
    · exact InMemoryCache.mem_taggedKeys.mpr (hmeets key c hheld hc hmem)
  · rcases h.indexed key c t hc hmem ht with htagged | hheld
    · by_cases htag : t = tag
      · subst htag
        exact Or.inr ⟨p, _, marked, Function.update_self .., InMemoryCache.mem_taggedKeys.mpr htagged⟩
      · exact Or.inl (InMemoryCache.takeTag_tagged.mpr ⟨htag, htagged⟩)
    · exact Or.inr (hheld.update (by simp [hp]))

theorem dropKeys (h : Sound w) {tag : String} {keys : List String} {marked : List (SetCall P)}
    (hp : w.party p = .dropping tag keys marked) (others : List (String × String)) :
    Sound ⟨{ w.shared with cache := w.shared.cache.dropKeys keys },
      Function.update w.party p (.pruning others marked)⟩ := by
  have hholds := h.parties p
  rw [hp] at hholds
  have hleft : ∀ key e, (w.shared.cache.dropKeys keys).entries.get? key = some e →
      key ∉ keys ∧ w.shared.cache.entries.get? key = some e := by
    intro key e he
    rw [InMemoryCache.dropKeys_get?] at he
    split at he
    · cases he
    · rename_i hkey
      exact ⟨hkey, he⟩
  have hcurrent : ∀ key c, Shared.Current
      { w.shared with cache := w.shared.cache.dropKeys keys } key c →
      key ∉ keys ∧ w.shared.Current key c := by
    rintro key c ⟨⟨e, he⟩, hwriter⟩
    exact ⟨(hleft key e he).1, ⟨e, (hleft key e he).2⟩, hwriter⟩
  refine h.update (.cache fun key c hc => (hcurrent key c hc).2)
    (fun key e he => h.stored key e (hleft key e he).2)
    (fun key c hc => h.fresh key c (hcurrent key c hc).2) h.buried h.numbered
    ⟨hholds.1, fun key c hc hmem => ?_⟩ (fun key c t hc hmem ht => ?_)
  · obtain ⟨hkey, hold⟩ := hcurrent key c hc
    exact hkey (hholds.2 key c hold hmem)
  · obtain ⟨hkey, hold⟩ := hcurrent key c hc
    rcases h.indexed key c t hold hmem ht with htagged | ⟨q, keys', marked', hq, hmem'⟩
    · exact Or.inl htagged
    · have hne : q ≠ p := by
        rintro rfl
        rw [hp] at hq
        cases hq
        exact hkey hmem'
      exact Or.inr ⟨q, keys', marked', by simpa [Function.update_of_ne hne] using hq, hmem'⟩

theorem pruneOthers (h : Sound w) {others : List (String × String)} {marked : List (SetCall P)}
    (hp : w.party p = .pruning others marked)
    (hmeets : ∀ tag key call, (tag, key) ∈ others → w.shared.Current key call →
      tag ∈ call.tags → call ∈ w.shared.returned → ¬w.shared.cache.Tagged tag key) :
    Sound ⟨{ w.shared with cache := w.shared.cache.pruneOthers others }, w.party⟩ := by
  have hsame : Function.update w.party p (.pruning others marked) = w.party := by
    rw [← hp, Function.update_eq_self]
  have hholds := h.parties p
  rw [hp] at hholds
  rw [← hsame]
  refine h.update (.cache fun _ _ hc => hc) h.stored h.fresh h.buried h.numbered hholds
    (fun key c t hc hmem ht => ?_)
  rcases h.indexed key c t hc hmem ht with htagged | hheld
  · have hnot : (t, key) ∉ others := fun hother => hmeets t key c hother hc ht hmem htagged
    exact Or.inl (InMemoryCache.pruneOthers_tagged.mpr ⟨htagged, hnot⟩)
  · exact Or.inr (hheld.update (by simp [hp]))

theorem bury (h : Sound w) {marked : List (SetCall P)}
    (hp : ∀ tag keys marked, w.party p = .dropping tag keys marked → keys = [])
    (hreturned : ∀ call ∈ marked, call ∈ w.shared.returned)
    (hgone : ∀ key call, w.shared.Current key call → call ∉ marked) :
    Sound ⟨w.shared.bury marked, Function.update w.party p .idle⟩ := by
  refine h.update ⟨le_rfl, fun _ h => h, fun _ h => Or.inl h,
      fun c hdead => List.mem_append_right _ hdead, fun _ _ h => Or.inl h⟩
    h.stored (fun key c hc hdead => ?_) (fun c hdead => ?_) h.numbered trivial
    (fun key c t hc hmem ht => ?_)
  · rcases List.mem_append.mp hdead with hmarked | hdead
    · exact hgone key c hc hmarked
    · exact h.fresh key c hc hdead
  · rcases List.mem_append.mp hdead with hmarked | hdead
    · exact hreturned c hmarked
    · exact h.buried c hdead
  · rcases h.indexed key c t hc hmem ht with htagged | ⟨q, keys, marked', hq, hmem'⟩
    · exact Or.inl htagged
    · have hne : q ≠ p := by
        rintro rfl
        rw [hp _ _ _ hq] at hmem'
        cases hmem'
      exact Or.inr ⟨q, keys, marked', by simpa [Function.update_of_ne hne] using hq, hmem'⟩

theorem removeExpired (h : Sound w) {keys : List String} (hp : w.party p = .removing keys) :
    Sound ⟨{ w.shared with cache := w.shared.cache.removeExpired keys },
      Function.update w.party p .idle⟩ := by
  have hleft : ∀ key e, (w.shared.cache.removeExpired keys).entries.get? key = some e →
      key ∉ keys ∧ w.shared.cache.entries.get? key = some e := by
    intro key e he
    rw [InMemoryCache.removeExpired_get?] at he
    split at he
    · cases he
    · rename_i hkey
      exact ⟨hkey, he⟩
  have hcurrent : ∀ key c, Shared.Current
      { w.shared with cache := w.shared.cache.removeExpired keys } key c →
      key ∉ keys ∧ w.shared.Current key c := by
    rintro key c ⟨⟨e, he⟩, hwriter⟩
    exact ⟨(hleft key e he).1, ⟨e, (hleft key e he).2⟩, hwriter⟩
  refine h.update (.cache fun key c hc => (hcurrent key c hc).2)
    (fun key e he => h.stored key e (hleft key e he).2)
    (fun key c hc => h.fresh key c (hcurrent key c hc).2) h.buried h.numbered trivial
    (fun key c t hc hmem ht => ?_)
  obtain ⟨hkey, hold⟩ := hcurrent key c hc
  rcases h.indexed key c t hold hmem ht with htagged | hheld
  · exact Or.inl (InMemoryCache.removeExpired_tagged.mpr ⟨htagged, fun hgone => hkey hgone.1⟩)
  · exact Or.inr (hheld.update (by simp [hp]))

-- A get reads the entry of a call that is not dead, and what was dead when the get
-- was called is dead still.
theorem answer (h : Sound w) {key : String} {dead : List (SetCall P)}
    (hp : w.party p = .reading key dead) (now : Nat) :
    Sound ⟨w.shared, Function.update w.party p
      (.answered ((w.shared.cache.get now key).bind fun data =>
        (w.shared.writer key).map fun call => (call, data)) dead)⟩ := by
  have hholds := h.parties p
  rw [hp] at hholds
  refine h.still (by simp [hp]) le_rfl fun call data hanswer hdead => ?_
  obtain ⟨data', hget, hcall⟩ := Option.bind_eq_some_iff.mp hanswer
  obtain ⟨call', hwriter, heq⟩ := Option.map_eq_some_iff.mp hcall
  cases heq
  obtain ⟨e, he, -⟩ := Option.bind_eq_some_iff.mp hget
  exact h.fresh key call ⟨⟨e, he⟩, hwriter⟩ (hholds call hdead)

theorem piece (h : Sound w) {pick now : Nat} (hmeets : Meets w p (.piece pick now))
    (hpiece : w.shared.piece pick now (w.party p) = some (s, l)) :
    Sound ⟨s, Function.update w.party p l⟩ := by
  unfold Meets at hmeets
  have hholds := h.parties p
  cases hp : w.party p with
  | idle => simp [hp, Shared.piece] at hpiece
  | setting call e =>
      rw [hp] at hpiece
      cases hpiece
      exact h.setEntry hp
  | indexing call =>
      rw [hp] at hpiece
      cases hpiece
      exact h.setIndex hp
  | taking tag marked =>
      rw [hp] at hpiece hmeets hholds
      have htake := h.takeTag hp hmeets
      simp only [Shared.piece] at hpiece
      split at hpiece
      · rename_i hempty
        cases hpiece
        have hnil := List.isEmpty_iff.mp hempty
        rw [hnil] at htake
        have hown := htake.parties p
        simp only [Function.update_self] at hown
        have hbury := htake.bury (p := p) (by simp) hown.1
          fun key call hc hmem => List.not_mem_nil (hown.2 key call hc hmem)
        simpa [Function.update_idem] using hbury
      · cases hpiece
        exact htake
  | dropping tag keys marked =>
      rw [hp] at hpiece
      simp only [Shared.piece] at hpiece
      split at hpiece
      · cases hpiece
        have hdrop := h.dropKeys hp []
        have hown := hdrop.parties p
        simp only [Function.update_self] at hown
        have hbury := hdrop.bury (p := p) (by simp) hown.1 hown.2
        simpa [Function.update_idem] using hbury
      · cases hpiece
        exact h.dropKeys hp _
  | pruning others marked =>
      rw [hp] at hpiece hmeets
      cases hpiece
      have hprune := h.pruneOthers hp hmeets
      have hown := hprune.parties p
      simp only [hp] at hown
      exact hprune.bury (by simp [hp]) hown.1 hown.2
  | scanning now =>
      rw [hp] at hpiece
      simp only [Shared.piece] at hpiece
      split at hpiece
      · cases hpiece
        exact h.still (by simp [hp]) le_rfl trivial
      · cases hpiece
        exact h.still (by simp [hp]) le_rfl trivial
  | removing keys =>
      rw [hp] at hpiece
      cases hpiece
      exact h.removeExpired hp
  | reading key dead =>
      rw [hp] at hpiece
      cases hpiece
      exact h.answer hp now
  | answered answer dead =>
      rw [hp] at hpiece
      cases hpiece
      exact h.still (by simp [hp]) le_rfl trivial

theorem next (h : Sound w) {a : Act} {w' : Callers P} (hmeets : Meets w p a)
    (hnext : next step w p a = some w') : Sound w' := by
  obtain ⟨s, l, hstep, rfl⟩ := next_eq_some.mp hnext
  cases a with
  | call request now =>
      cases hp : w.party p with
      | idle =>
          rw [hp] at hstep
          have hinvoke : w.shared.invoke p now request = (s, l) := Option.some.inj hstep
          have hsound := h.invoke hp request now
          rw [hinvoke] at hsound
          exact hsound
      | _ => simp [hp, step] at hstep
  | piece pick now => exact h.piece hmeets hstep

omit [DecidableEq P] in
theorem noStale (h : Sound w) : NoStale w := by
  intro p answer dead hp
  have hholds := h.parties p
  rw [hp] at hholds
  exact hholds

end Sound

theorem no_stale_read (maxEntries : Nat) {w : Callers P}
    (h : ReachWhen step Meets (Callers.start maxEntries) w) : NoStale w :=
  (h.invariant (Sound.init maxEntries) fun _ _ _ _ hsound hmeets hnext =>
    hsound.next hmeets hnext).noStale

-- A value set, invalidated and asked for.
theorem no_stale_read_invalidated :
    ∃ w : Callers Nat, run step (Callers.start 100)
        [(0, .call (.set "profile" [1] none ["users"]) 0), (0, .piece 0 0), (0, .piece 0 0),
          (1, .call (.invalidateTag "users") 0), (1, .piece 0 0), (1, .piece 0 0),
          (2, .call (.get "profile") 0), (2, .piece 0 0)] = some w ∧
      w.party 2 = .answered none [⟨0, 0, "profile", ["users"]⟩] ∧ NoStale w := by
  have h₁ := ReachWhen.step 0 (.call (.set "profile" [1] none ["users"]) 0)
    (.start : ReachWhen step Meets (Callers.start 100 : Callers Nat) _) trivial rfl
  have h₂ := ReachWhen.step 0 (.piece 0 0) h₁ trivial rfl
  have h₃ := ReachWhen.step 0 (.piece 0 0) h₂ trivial rfl
  have h₄ := ReachWhen.step 1 (.call (.invalidateTag "users") 0) h₃ trivial rfl
  have h₅ := ReachWhen.step 1 (.piece 0 0) h₄ (by
    rintro key call ⟨q, keys, marked, hq, -⟩
    match q with
    | 0 => cases hq
    | 1 => cases hq
    | _ + 2 => cases hq) rfl
  have h₆ := ReachWhen.step 1 (.piece 0 0) h₅ trivial rfl
  have h₇ := ReachWhen.step 2 (.call (.get "profile") 0) h₆ trivial rfl
  have h₈ := ReachWhen.step 2 (.piece 0 0) h₇ trivial rfl
  exact ⟨_, rfl, by decide, no_stale_read 100 h₈⟩

-- An invalidation that comes while another of its tag has taken the keys and not
-- dropped them yet finds none, and returns before they are gone.
def overtaken : List (Nat × Act) :=
  [(0, .call (.set "profile" [1] none ["users"]) 0), (0, .piece 0 0), (0, .piece 0 0),
    (1, .call (.invalidateTag "users") 0), (1, .piece 0 0),
    (2, .call (.invalidateTag "users") 0), (2, .piece 0 0),
    (3, .call (.get "profile") 0), (3, .piece 0 0)]

-- An invalidation that prunes the other tags of what it dropped takes a newer
-- entry of the key out of the index with it.
def unlisted : List (Nat × Act) :=
  [(0, .call (.set "profile" [1] none ["users", "posts"]) 0), (0, .piece 0 0), (0, .piece 0 0),
    (1, .call (.invalidateTag "users") 0), (1, .piece 0 0), (1, .piece 0 0),
    (0, .call (.set "profile" [2] none ["posts"]) 0), (0, .piece 0 0), (0, .piece 0 0),
    (1, .piece 0 0), (2, .call (.invalidateTag "posts") 0), (2, .piece 0 0),
    (3, .call (.get "profile") 0), (3, .piece 0 0)]

theorem stale_reads :
    (∃ w, run step (Callers.start 100) overtaken = some w ∧ ¬NoStale w) ∧
      ∃ w, run step (Callers.start 100) unlisted = some w ∧ ¬NoStale w := by
  have hovertaken : (run step (Callers.start 100) overtaken).map (fun w => w.party 3) =
      some (.answered (some (⟨0, 0, "profile", ["users"]⟩, [1]))
        [⟨0, 0, "profile", ["users"]⟩]) := by decide
  have hunlisted : (run step (Callers.start 100) unlisted).map (fun w => w.party 3) =
      some (.answered (some (⟨0, 1, "profile", ["posts"]⟩, [2]))
        [⟨0, 1, "profile", ["posts"]⟩, ⟨0, 0, "profile", ["users", "posts"]⟩,
          ⟨0, 0, "profile", ["users", "posts"]⟩]) := by decide
  constructor
  · obtain ⟨w, hrun, hparty⟩ := Option.map_eq_some_iff.mp hovertaken
    exact ⟨w, hrun, fun h => h 3 _ _ hparty _ _ rfl (by simp)⟩
  · obtain ⟨w, hrun, hparty⟩ := Option.map_eq_some_iff.mp hunlisted
    exact ⟨w, hrun, fun h => h 3 _ _ hparty _ _ rfl (by simp)⟩

end Ruprizzle.Cache
